/-
# Clocks and grid timers

A collector captures the monotonic and the wall clock once, and from then on reads only
the monotonic one; the time it reports for an instant is the captured wall-clock time plus
what has passed since.  A grid timer has a deadline on a grid of instants, one period
apart, and advances to the first of them after the clock's reading, past all those it
missed.

Instants, times and durations are numbers of nanoseconds.  What the platform cannot
represent is `none`: a checked operation then takes another branch, an unchecked one
panics.
-/

import Mathlib.Tactic.Ring
import Ohnotel.Observe.Basic

namespace Ohnotel

abbrev Instant : Type := Nat

abbrev Duration : Type := Nat

/-- `Duration::MAX`: seconds are 64-bit words. -/
def Duration.max : Duration := 2 ^ 64 * 10 ^ 9 - 1

/-- The greatest instant, and the least and the greatest time that can be represented.  Two
instants are a duration apart. -/
structure Platform where
  instantMax : Instant
  systemMin : SystemTime
  systemMax : SystemTime
  instantMax_le : instantMax ≤ Duration.max

variable (platform : Platform)

/-- `Instant::checked_add`. -/
def Platform.checkedAdd (at' : Instant) (duration : Duration) : Option Instant :=
  if at' + duration ≤ platform.instantMax then some (at' + duration) else none

structure CollectorTime where
  instant : Instant
  system : SystemTime
  deriving DecidableEq

/-- `CollectorTime::at`. -/
def CollectorTime.atInstant (t : CollectorTime) (at' : Instant) : Option CollectorTime :=
  if t.instant ≤ at' then
    if t.system + ↑(at' - t.instant) ≤ platform.systemMax then
      some { instant := at', system := t.system + ↑(at' - t.instant) }
    else none
  else if platform.systemMin ≤ t.system - ↑(t.instant - at') then
    some { instant := at', system := t.system - ↑(t.instant - at') }
  else none

/-- The time reported for an instant after the captured one. -/
def CollectorTime.reported (t : CollectorTime) (at' : Instant) : SystemTime :=
  t.system + ↑(at' - t.instant)

variable {platform} in
theorem CollectorTime.atInstant_eq_some {t found : CollectorTime} {at' : Instant}
    (hle : t.instant ≤ at') (h : t.atInstant platform at' = some found) :
    found.system = t.reported at' ∧ t.reported at' ≤ platform.systemMax := by
  rw [atInstant, if_pos hle] at h
  by_cases hfits : t.system + ↑(at' - t.instant) ≤ platform.systemMax
  · rw [if_pos hfits] at h
    obtain rfl := Option.some.inj h
    exact ⟨rfl, hfits⟩
  · simp [if_neg hfits] at h

structure GridTimer where
  start : Instant
  period : Duration
  deadline : Instant
  deriving DecidableEq

namespace GridTimer

/-- `GridTimer::new`. -/
def new (start : Instant) (period : Duration) : GridTimer where
  start := start
  period := period
  deadline := start

def due (t : GridTimer) (now : Instant) : Bool := t.deadline ≤ now

/-- An operation on words of so many bits that must not overflow. -/
def checkedWord (bits value : Nat) : Option Nat := if value < 2 ^ bits then some value else none

/-- `GridTimer::mul`: so many periods. -/
def mul (t : GridTimer) (n : Nat) : Option Duration :=
  let nanos := t.period % 10 ^ 9 * n
  ((checkedWord 128 (t.period / 10 ^ 9 * n)).bind fun secs =>
    checkedWord 128 (secs + nanos / 10 ^ 9)).bind fun secs =>
      (checkedWord 64 secs).map fun secs => secs * 10 ^ 9 + nanos % 10 ^ 9

/-- `GridTimer::next`. -/
def next (t : GridTimer) (now : Instant) : Instant :=
  let nextTick := (now - t.start) / t.period + 1
  match t.mul nextTick with
  | none => (platform.checkedAdd now t.period).getD now
  | some offset =>
      (platform.checkedAdd t.start offset).getD ((platform.checkedAdd now t.period).getD now)

/-- `GridTimer::advance`. -/
def advance (t : GridTimer) (now : Instant) : GridTimer :=
  { t with deadline := t.next platform now }

/-- The first instant of the grid after a reading. -/
def tickAfter (t : GridTimer) (now : Instant) : Instant :=
  t.start + ((now - t.start) / t.period + 1) * t.period

theorem checkedWord_of_lt {bits value : Nat} (h : value < 2 ^ bits) :
    checkedWord bits value = some value := if_pos h

/-- So many periods, if they are a duration. -/
theorem mul_of_le (t : GridTimer) {n : Nat} (hle : n * t.period ≤ Duration.max) :
    t.mul n = some (n * t.period) := by
  have hsplit : n * t.period =
      (t.period / 10 ^ 9 * n + t.period % 10 ^ 9 * n / 10 ^ 9) * 10 ^ 9 +
        t.period % 10 ^ 9 * n % 10 ^ 9 := by
    have hperiod := Nat.div_add_mod t.period (10 ^ 9)
    have hnanos := Nat.div_add_mod (t.period % 10 ^ 9 * n) (10 ^ 9)
    calc n * t.period = t.period / 10 ^ 9 * n * 10 ^ 9 + t.period % 10 ^ 9 * n := by
          conv_lhs => rw [← hperiod]
          ring
      _ = _ := by
          conv_lhs => rw [← hnanos]
          ring
  rw [Duration.max] at hle
  have hsecs : t.period / 10 ^ 9 * n + t.period % 10 ^ 9 * n / 10 ^ 9 < 2 ^ 64 := by lia
  have hwide : ∀ {value : Nat}, value < 2 ^ 64 → value < 2 ^ 128 := fun h =>
    h.trans (by decide)
  rw [mul, checkedWord_of_lt (hwide (by lia)), Option.bind_some,
    checkedWord_of_lt (hwide hsecs), Option.bind_some, checkedWord_of_lt hsecs, hsplit]
  rfl

variable {platform}

/-- A timer advances to the next instant of its grid, if that can be represented. -/
theorem next_eq_tickAfter {t : GridTimer} {now : Instant}
    (hfits : t.tickAfter now ≤ platform.instantMax) : t.next platform now = t.tickAfter now := by
  have hmax := platform.instantMax_le
  rw [tickAfter] at hfits ⊢
  rw [next, t.mul_of_le (by lia)]
  simp only [Platform.checkedAdd, if_pos hfits, Option.getD_some]

/-- The next instant of a grid is later, and no more than a period. -/
theorem lt_tickAfter {t : GridTimer} (hperiod : 0 < t.period) {now : Instant}
    (hle : t.start ≤ now) : now < t.tickAfter now ∧ t.tickAfter now ≤ now + t.period := by
  have hsplit := Nat.div_add_mod (now - t.start) t.period
  have hmod := Nat.mod_lt (now - t.start) hperiod
  rw [tickAfter, Nat.add_mul, Nat.one_mul, Nat.mul_comm]
  lia

/-- The instants of the grid. -/
def OnGrid (t : GridTimer) (at' : Instant) : Prop :=
  t.start ≤ at' ∧ t.period ∣ at' - t.start

theorem onGrid_start (t : GridTimer) : t.OnGrid t.start := ⟨le_refl _, by simp⟩

theorem onGrid_tickAfter (t : GridTimer) (now : Instant) : t.OnGrid (t.tickAfter now) := by
  refine ⟨Nat.le_add_right _ _, ?_⟩
  rw [tickAfter, Nat.add_sub_cancel_left]
  exact Nat.dvd_mul_left _ _

/-- Instants of the grid are whole periods apart. -/
theorem OnGrid.dvd_sub {t : GridTimer} {first second : Instant} (hfirst : t.OnGrid first)
    (hsecond : t.OnGrid second) : t.period ∣ second - first := by
  have hsub : second - first = (second - t.start) - (first - t.start) := by
    have := hfirst.1
    have := hsecond.1
    lia
  rw [hsub]
  exact Nat.dvd_sub hsecond.2 hfirst.2

/-- Later on the grid is later by a period. -/
theorem OnGrid.add_period_le {t : GridTimer} {first second : Instant} (hfirst : t.OnGrid first)
    (hsecond : t.OnGrid second) (hlt : first < second) : first + t.period ≤ second := by
  have hle := Nat.le_of_dvd (Nat.sub_pos_of_lt hlt) (hfirst.dvd_sub hsecond)
  lia

/-- The timer advances by one period exactly if the reading is before the next deadline. -/
theorem tickAfter_eq_add_period_iff {t : GridTimer} (hperiod : 0 < t.period) {now : Instant}
    {tick : Instant} (htick : t.OnGrid tick) (hle : tick ≤ now) :
    t.tickAfter now = tick + t.period ↔ now < tick + t.period := by
  have hstart : t.start ≤ now := htick.1.trans hle
  obtain ⟨hlater, hnear⟩ := lt_tickAfter hperiod hstart
  constructor
  · intro heq
    lia
  · intro hlt
    have hstep := htick.add_period_le (t.onGrid_tickAfter now) (by lia)
    obtain ⟨n, hn⟩ := htick.dvd_sub (t.onGrid_tickAfter now)
    have hbound : t.period * n < t.period * 2 := by lia
    have hone : n < 2 := Nat.lt_of_mul_lt_mul_left hbound
    have hle : t.period * n ≤ t.period * 1 := Nat.mul_le_mul_left _ (Nat.le_of_lt_succ hone)
    lia

end GridTimer

/-! ## Aligned timestamps -/

variable {V : Type}

/-- `Snapshot::align_ts`. -/
def Observation.alignTs (s : Observation V) (startTs : SystemTime)
    (pollPeriod : Option Duration) : Option SystemTime :=
  match pollPeriod with
  | none => some s.ts
  | some pollPeriod =>
      if s.seqId.toNat < 2 ^ 32 then
        let elapsed := pollPeriod * s.seqId.toNat
        if elapsed ≤ Duration.max ∧ startTs + elapsed ≤ platform.systemMax then
          some (startTs + elapsed)
        else none
      else some s.ts

end Ohnotel
