/-
# Exactness of grid timers

The number of periods up to the next deadline, and their length, are computed in words of
128 bits, from the seconds and the nanoseconds of the period.  None of that overflows, so
as long as the instants of the grid can be represented a timer advances to the first of
them after the clock's reading.
-/

import Mathlib.Order.Bounds.Basic
import Ohnotel.Collect.Timer

namespace Ohnotel.GridTimer

/-! ## Arithmetic in words -/

/-- A quotient, unless the divisor is zero. -/
def checkedDiv (value divisor : Nat) : Option Nat :=
  if divisor = 0 then none else some (value / divisor)

theorem checkedDiv_of_pos {value divisor : Nat} (h : 0 < divisor) :
    checkedDiv value divisor = some (value / divisor) := if_neg h.ne'

/-- The offset that `next` computes; `none` if one of its operations in 128 bits overflows
or divides by zero. -/
def nextOffset (t : GridTimer) (now : Instant) : Option (Option Duration) := do
  let elapsed ← checkedWord 128 (now - t.start)
  let period ← checkedWord 128 t.period
  let ticks ← checkedDiv elapsed period
  let n ← checkedWord 128 (ticks + 1)
  let nanos ← checkedWord 128 (t.period % 10 ^ 9 * n)
  let secs ← checkedWord 128 (t.period / 10 ^ 9 * n)
  let carry ← checkedDiv nanos (10 ^ 9)
  let secs ← checkedWord 128 (secs + carry)
  return (checkedWord 64 secs).map fun secs => secs * 10 ^ 9 + nanos % 10 ^ 9

/-- The next tick is no later than a period after the reading. -/
theorem nextTick_mul_period_le (t : GridTimer) (now : Instant) :
    ((now - t.start) / t.period + 1) * t.period ≤ now - t.start + t.period := by
  rw [Nat.add_mul, Nat.one_mul]
  exact Nat.add_le_add_right (Nat.div_mul_le_self _ _) _

/-- Nothing overflows: what is added up are no more than four durations. -/
theorem nextOffset_eq {t : GridTimer} (hperiod : 0 < t.period) (hlong : t.period ≤ Duration.max)
    {now : Instant} (hnow : now ≤ Duration.max) :
    t.nextOffset now = some (t.mul ((now - t.start) / t.period + 1)) := by
  have hspan := t.nextTick_mul_period_le now
  have hticks : (now - t.start) / t.period ≤ now - t.start := Nat.div_le_self _ _
  generalize hn : (now - t.start) / t.period + 1 = n at hspan
  have hnanos : t.period % 10 ^ 9 * n ≤ n * t.period :=
    (Nat.mul_le_mul_right n (Nat.mod_le _ _)).trans_eq (Nat.mul_comm _ _)
  have hsecs : t.period / 10 ^ 9 * n ≤ n * t.period :=
    (Nat.mul_le_mul_right n (Nat.div_le_self _ _)).trans_eq (Nat.mul_comm _ _)
  have hcarry : t.period % 10 ^ 9 * n / 10 ^ 9 ≤ t.period % 10 ^ 9 * n := Nat.div_le_self _ _
  have hwide : ∀ {value : Nat}, value ≤ 4 * Duration.max → checkedWord 128 value = some value :=
    fun hle => checkedWord_of_lt (hle.trans_lt (by decide))
  rw [nextOffset, mul]
  simp only [hwide (show now - t.start ≤ 4 * Duration.max by lia),
    hwide (show t.period ≤ 4 * Duration.max by lia), checkedDiv_of_pos hperiod, hn,
    hwide (show n ≤ 4 * Duration.max by lia),
    hwide (show t.period % 10 ^ 9 * n ≤ 4 * Duration.max by lia),
    hwide (show t.period / 10 ^ 9 * n ≤ 4 * Duration.max by lia),
    checkedDiv_of_pos (show 0 < 10 ^ 9 by decide),
    hwide (show t.period / 10 ^ 9 * n + t.period % 10 ^ 9 * n / 10 ^ 9 ≤ 4 * Duration.max by lia),
    Option.bind_eq_bind, Option.bind_some]
  rfl

/-! ## Deadlines -/

variable {platform : Platform}

/-- The next instant of the grid after a reading is the first, counted from one period
after the start, that is later. -/
theorem isLeast_tickAfter {t : GridTimer} (hperiod : 0 < t.period) (now : Instant) :
    IsLeast {tick | ∃ n, 0 < n ∧ tick = t.start + n * t.period ∧ now < tick}
      (t.tickAfter now) := by
  constructor
  · refine ⟨_, Nat.succ_pos _, rfl, ?_⟩
    have hlt := Nat.lt_mul_div_succ (now - t.start) hperiod
    rw [Nat.mul_comm] at hlt
    rw [tickAfter]
    lia
  · rintro tick ⟨n, hn, rfl, hlt⟩
    apply Nat.add_le_add_left
    apply Nat.mul_le_mul_right
    apply Nat.succ_le_of_lt
    rw [Nat.div_lt_iff_lt_mul hperiod]
    have hpos : 0 < n * t.period := Nat.mul_pos hn hperiod
    lia

theorem tickAfter_mono (t : GridTimer) {first second : Instant} (hle : first ≤ second) :
    t.tickAfter first ≤ t.tickAfter second := by
  apply Nat.add_le_add_left
  apply Nat.mul_le_mul_right
  apply Nat.succ_le_succ
  exact Nat.div_le_div_right (Nat.sub_le_sub_right hle _)

variable (platform) in
/-- A timer after readings it was advanced at. -/
def advanced (t : GridTimer) (readings : List Instant) : GridTimer :=
  readings.foldl (fun t now => t.advance platform now) t

theorem advanced_concat (t : GridTimer) (readings : List Instant) (now : Instant) :
    t.advanced platform (readings ++ [now]) = (t.advanced platform readings).advance platform now :=
  List.foldl_concat ..

/-- Advancing leaves the grid as it is. -/
theorem advanced_grid (t : GridTimer) (readings : List Instant) :
    (t.advanced platform readings).start = t.start ∧
      (t.advanced platform readings).period = t.period := by
  induction readings using List.reverseRecOn with
  | nil => exact ⟨rfl, rfl⟩
  | append_singleton readings now ih =>
      rw [advanced_concat]
      exact ih

theorem tickAfter_advanced (t : GridTimer) (readings : List Instant) (now : Instant) :
    (t.advanced platform readings).tickAfter now = t.tickAfter now := by
  rw [tickAfter, (t.advanced_grid readings).1, (t.advanced_grid readings).2, tickAfter]

/-- The deadline is the tick after the last reading. -/
theorem deadline_advanced_concat {t : GridTimer} {readings : List Instant} {now : Instant}
    (hfits : t.tickAfter now ≤ platform.instantMax) :
    (t.advanced platform (readings ++ [now])).deadline = t.tickAfter now := by
  rw [← tickAfter_advanced t readings] at hfits ⊢
  rw [advanced_concat]
  exact next_eq_tickAfter hfits

/-- A timer that was advanced is on its grid. -/
theorem onGrid_deadline_advanced {start : Instant} {period : Duration} {readings : List Instant}
    (hfits : ∀ now ∈ readings, (new start period).tickAfter now ≤ platform.instantMax) :
    (new start period).OnGrid ((new start period).advanced platform readings).deadline := by
  cases readings using List.reverseRecOn with
  | nil => exact onGrid_start _
  | append_singleton readings now =>
      rw [deadline_advanced_concat (hfits now (by simp))]
      exact onGrid_tickAfter _ _

/-- Later readings do not lead to an earlier deadline. -/
theorem deadline_advanced_mono {start : Instant} {period : Duration}
    {earlier later : List Instant} (hreadings : (earlier ++ later).Pairwise (· ≤ ·))
    (hfits : ∀ now ∈ earlier ++ later, (new start period).tickAfter now ≤ platform.instantMax) :
    ((new start period).advanced platform earlier).deadline ≤
      ((new start period).advanced platform (earlier ++ later)).deadline := by
  cases later using List.reverseRecOn with
  | nil => rw [List.append_nil]
  | append_singleton later now =>
      rw [← List.append_assoc] at hreadings hfits ⊢
      rw [deadline_advanced_concat (hfits now (by simp))]
      cases earlier using List.reverseRecOn with
      | nil => exact (onGrid_tickAfter (new start period) now).1
      | append_singleton earlier first =>
          rw [deadline_advanced_concat (hfits first (by simp))]
          apply tickAfter_mono
          exact (List.pairwise_append.mp hreadings).2.2 first (by simp) now (by simp)

/-- At a reading for which the timer is due, it advances by whole periods. -/
theorem deadline_advanced_of_due {start : Instant} {period : Duration} (hperiod : 0 < period)
    {readings : List Instant} {now : Instant}
    (hfits : ∀ seen ∈ readings ++ [now], (new start period).tickAfter seen ≤ platform.instantMax)
    (hdue : ((new start period).advanced platform readings).due now) :
    ∃ n, 0 < n ∧ ((new start period).advanced platform (readings ++ [now])).deadline =
      ((new start period).advanced platform readings).deadline + n * period := by
  have hgrid := onGrid_deadline_advanced fun seen hseen =>
    hfits seen (List.mem_append_left _ hseen)
  have hdue : ((new start period).advanced platform readings).deadline ≤ now := by
    simpa [due] using hdue
  obtain ⟨hlater, -⟩ := lt_tickAfter (t := new start period) hperiod (hgrid.1.trans hdue)
  obtain ⟨n, hn⟩ := hgrid.dvd_sub (onGrid_tickAfter (new start period) now)
  rw [deadline_advanced_concat (hfits now (by simp))]
  have hsum : (new start period).tickAfter now =
      ((new start period).advanced platform readings).deadline + n * period := by
    have hn : (new start period).tickAfter now -
        ((new start period).advanced platform readings).deadline = period * n := hn
    rw [Nat.mul_comm n]
    lia
  refine ⟨n, Nat.pos_of_ne_zero fun hzero => ?_, hsum⟩
  rw [hzero, Nat.zero_mul] at hsum
  lia

/-- A timer with a period, at readings that can be represented.  None of its arithmetic
overflows.  As long as the instant can be represented, it advances to the first of its
grid after the reading, and then is not due for it; at readings that do not go back its
deadline does not go back either, and where it is due it advances by whole periods. -/
theorem advance_exact (platform : Platform) (t : GridTimer) (hperiod : 0 < t.period)
    (hlong : t.period ≤ Duration.max) :
    (∀ now ≤ platform.instantMax,
      t.nextOffset now = some (t.mul ((now - t.start) / t.period + 1))) ∧
    (∀ now ≤ platform.instantMax,
      t.start + ((now - t.start) / t.period + 1) * t.period ≤ platform.instantMax →
        (t.advance platform now).deadline =
          t.start + ((now - t.start) / t.period + 1) * t.period ∧
        IsLeast {tick | ∃ n, 0 < n ∧ tick = t.start + n * t.period ∧ now < tick}
          (t.advance platform now).deadline ∧
        (t.advance platform now).due now = false ∧
        (t.start ≤ now → (t.advance platform now).deadline - now ≤ t.period)) ∧
    ∀ readings : List Instant,
      (∀ now ∈ readings,
        t.start + ((now - t.start) / t.period + 1) * t.period ≤ platform.instantMax) →
      (readings.Pairwise (· ≤ ·) → ∀ earlier later, earlier ++ later = readings →
        ((new t.start t.period).advanced platform earlier).deadline ≤
          ((new t.start t.period).advanced platform readings).deadline) ∧
      ∀ earlier now later, earlier ++ now :: later = readings →
        ((new t.start t.period).advanced platform earlier).due now →
          ∃ n, 0 < n ∧ ((new t.start t.period).advanced platform (earlier ++ [now])).deadline =
            ((new t.start t.period).advanced platform earlier).deadline + n * t.period := by
  refine ⟨fun now hnow => ?_, fun now _ hfits => ?_, fun readings hfits => ⟨?_, ?_⟩⟩
  · exact nextOffset_eq hperiod hlong (hnow.trans platform.instantMax_le)
  · have hdeadline : (t.advance platform now).deadline = t.tickAfter now := next_eq_tickAfter hfits
    have hleast := isLeast_tickAfter hperiod now
    rw [hdeadline]
    refine ⟨rfl, hleast, ?_, fun hle => ?_⟩
    · obtain ⟨_, _, _, hlater⟩ := hleast.1
      simpa [due, hdeadline] using hlater
    · have := (lt_tickAfter hperiod hle).2
      lia
  · rintro hreadings earlier later rfl
    exact deadline_advanced_mono hreadings hfits
  · rintro earlier now later rfl hdue
    apply deadline_advanced_of_due hperiod ?_ hdue
    intro seen hseen
    apply hfits seen
    grind

/-- A timer of the tests, with a period of a second. -/
def secondTimer : GridTimer := new (10 ^ 9) (10 ^ 9)

/-- A clock of 64 bits. -/
def wordClock : Platform := ⟨2 ^ 64 - 1, -2 ^ 64, 2 ^ 64 - 1, by decide⟩

/-- The timer skips the ticks it missed, and waits for the second one after a reading that
is on its grid. -/
theorem advance_exact_skipped :
    (secondTimer.advance wordClock (10 ^ 9 + 3500 * 10 ^ 6)).deadline = 10 ^ 9 + 4 * 10 ^ 9 ∧
      ((new (10 ^ 9) (10 ^ 9)).advanced wordClock [10 ^ 9]).deadline ≤
        ((new (10 ^ 9) (10 ^ 9)).advanced wordClock [10 ^ 9, 3 * 10 ^ 9]).deadline ∧
      ((new (10 ^ 9) (10 ^ 9)).advanced wordClock [10 ^ 9, 3 * 10 ^ 9]).deadline = 4 * 10 ^ 9 := by
  have hexact := advance_exact wordClock secondTimer (by decide) (by decide)
  have hruns := hexact.2.2 [10 ^ 9, 3 * 10 ^ 9] (by decide)
  exact ⟨(hexact.2.1 (10 ^ 9 + 3500 * 10 ^ 6) (by decide) (by decide)).1,
    hruns.1 (by decide) [10 ^ 9] [3 * 10 ^ 9] rfl, by decide⟩

end Ohnotel.GridTimer
