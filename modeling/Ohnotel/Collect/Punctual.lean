/-
# A loop that keeps up

How late a wait ends after it could, and how long the worker is busy from there to its next
wait, is not up to the worker.  While the one, and the other twice, are together shorter
than the poll period, no tick goes by: an observer is observed for every tick from the one
it joined at, and the times its snapshots are aligned to are those of the ticks.

However long all of that takes, the loop does not turn for nothing.  A round was woken up by
a command, or serves a tick of one of the grids that no round before it has served.
-/

import Ohnotel.Collect.Block

namespace Ohnotel

/-! ## Timers that are served when they are due -/

namespace GridTimer

/-- A timer that advances if it is due. -/
def served (t : GridTimer) (now after : Instant) : GridTimer :=
  if t.due now then { t with deadline := t.tickAfter after } else t

/-- The number of the deadline on the grid. -/
def index (t : GridTimer) : Nat := (t.deadline - t.start) / t.period

/-- What holds of a timer whose advances were at readings up to some reading of the clock. -/
structure Running (start : Instant) (period : Duration) (clock : Instant) (t : GridTimer) :
    Prop where
  start_eq : t.start = start
  period_eq : t.period = period
  onGrid : t.OnGrid t.deadline
  le_tickAfter : t.deadline ≤ t.tickAfter clock

variable {start now after clock clock' : Instant} {period : Duration} {t : GridTimer}

theorem running_new (start : Instant) (period : Duration) :
    (new start period).Running start period start where
  start_eq := rfl
  period_eq := rfl
  onGrid := onGrid_start _
  le_tickAfter := Nat.le_add_right _ _

theorem tickAfter_le (t : GridTimer) (hle : clock ≤ clock') :
    t.tickAfter clock ≤ t.tickAfter clock' := by
  rw [tickAfter, tickAfter]
  gcongr

theorem Running.later (h : t.Running start period clock) (hle : clock ≤ clock') :
    t.Running start period clock' :=
  ⟨h.start_eq, h.period_eq, h.onGrid, h.le_tickAfter.trans (t.tickAfter_le hle)⟩

theorem Running.served (h : t.Running start period clock) (hclock : clock ≤ after)
    (hafter : after ≤ clock') (now : Instant) :
    (t.served now after).Running start period clock' := by
  rw [GridTimer.served]
  split
  · exact ⟨h.start_eq, h.period_eq, t.onGrid_tickAfter after, t.tickAfter_le hafter⟩
  · exact h.later (hclock.trans hafter)

theorem index_served_le (hperiod : 0 < t.period) (hgrid : t.OnGrid t.deadline)
    (hafter : now ≤ after) :
    t.index + (if t.due now then 1 else 0) ≤ (t.served now after).index := by
  rw [GridTimer.served]
  split
  · next hdue =>
      have hnow : t.deadline ≤ now := by simpa [due] using hdue
      have hlater := (lt_tickAfter hperiod (hgrid.1.trans (hnow.trans hafter))).1
      have hstep := hgrid.add_period_le (t.onGrid_tickAfter after)
        (lt_of_le_of_lt (hnow.trans hafter) hlater)
      have hstart := hgrid.1
      have hsub : t.deadline - t.start + t.period ≤ t.tickAfter after - t.start := by lia
      calc t.index + 1 = (t.deadline - t.start + t.period) / t.period :=
            (Nat.add_div_right _ hperiod).symm
        _ ≤ (t.tickAfter after - t.start) / t.period := Nat.div_le_div_right hsub
  · exact Nat.le_refl t.index

/-- The deadlines up to a reading of the clock are no more than the ticks up to it. -/
theorem Running.index_le (h : t.Running start period clock) (hperiod : 0 < period) :
    t.index ≤ (clock - start) / period + 1 := by
  have hle := h.le_tickAfter
  rw [tickAfter, h.start_eq, h.period_eq] at hle
  rw [index, h.start_eq, h.period_eq]
  apply Nat.div_le_of_le_mul
  rw [Nat.mul_comm]
  lia

end GridTimer

namespace Periodic

open Foundation

variable {platform : Platform} {K W : Type} [LinearOrder K]

namespace Worker

omit [LinearOrder K] in
/-- What an export does to the timers, if its tick can be represented. -/
theorem timers_maybeExport {w w' : Worker K W} {now after : Instant} {answer : TrySend}
    (hfits : w.exportTimer.due now → w.exportTimer.tickAfter after ≤ platform.instantMax)
    (hexport : w.maybeExport platform now after answer = some w') :
    w'.observeTimer = w.observeTimer ∧ w'.exportTimer = w.exportTimer.served now after := by
  rw [GridTimer.served]
  rcases maybeExport_cases hexport with ⟨hdue, rfl⟩ | ⟨hdue, rfl⟩
  · rw [if_neg (by simp [hdue])]
    exact ⟨rfl, rfl⟩
  · rw [if_pos hdue, exported, GridTimer.advance, GridTimer.next_eq_tickAfter (hfits hdue)]
    exact ⟨rfl, rfl⟩

/-- What a round does to the timers, if their ticks can be represented. -/
theorem timers_wake {w w' : Worker K W} {now afterObserve afterExport : Instant}
    {shown : Nat → (dyn : DynObserver K W) → BucketMap.Walkable K dyn.Cell} {answer : TrySend}
    (hobserve : w.observeTimer.due now →
      w.observeTimer.tickAfter afterObserve ≤ platform.instantMax)
    (hexport : w.exportTimer.due now → w.exportTimer.tickAfter afterExport ≤ platform.instantMax)
    (hstep : step platform w (.wake now afterObserve afterExport shown answer) = some w') :
    (now ≤ afterObserve ∧ afterObserve ≤ afterExport) ∧
      w'.observeTimer = w.observeTimer.served now afterObserve ∧
      w'.exportTimer = w.exportTimer.served now afterExport := by
  cases moves_of_step hstep with
  | @wake _ _ _ _ _ observed _ hphase hclock hobserving hexporting hobserved hexported =>
      have htimers : observed.observeTimer = w.observeTimer.served now afterObserve ∧
          observed.exportTimer = w.exportTimer := by
        rw [maybeObserve] at hobserved
        rw [GridTimer.served]
        split at hobserved
        · next hdue =>
            obtain ⟨time, _, rfl⟩ := Option.map_eq_some_iff.mp hobserved
            rw [if_pos hdue]
            exact ⟨by rw [GridTimer.advance, GridTimer.next_eq_tickAfter (hobserve hdue)], rfl⟩
        · next hdue =>
            obtain rfl := Option.some_inj.mp hobserved
            rw [if_neg hdue]
            exact ⟨rfl, rfl⟩
      rw [← htimers.2] at hexport ⊢
      obtain ⟨hkept, hserved⟩ := timers_maybeExport hexport hexported
      exact ⟨⟨hobserving, hexporting⟩, hkept.trans htimers.1, hserved⟩

theorem timers_shutdown {w w' : Worker K W} {now afterExport : Instant} {answer : TrySend}
    (hexport : w.exportTimer.due now → w.exportTimer.tickAfter afterExport ≤ platform.instantMax)
    (hstep : step platform w (.shutdown now afterExport answer) = some w') :
    now ≤ afterExport ∧ w'.observeTimer = w.observeTimer ∧
      w'.exportTimer = w.exportTimer.served now afterExport := by
  cases moves_of_step hstep with
  | shutdown hphase hclock hexporting hexported =>
      obtain ⟨hkept, hserved⟩ := timers_maybeExport hexport hexported
      exact ⟨hexporting, hkept, hserved⟩

theorem timers_add {w w' : Worker K W} {boxed : BoxedDynObserver K W}
    (hstep : step platform w (.add boxed) = some w') :
    w'.observeTimer = w.observeTimer ∧ w'.exportTimer = w.exportTimer := by
  cases moves_of_step hstep with
  | add hphase hadd =>
      obtain ⟨time, _, rfl⟩ := Option.map_eq_some_iff.mp hadd
      exact ⟨rfl, rfl⟩

/-- The observations after an event: those before it, and in a round at which one is due one
more for each observer. -/
theorem served_step {w w' : Worker K W} {event : Event K W}
    (hstep : step platform w event = some w') {r' : Registered K W} (hr' : r' ∈ w'.observers)
    {s : Service} (hs : s ∈ r'.tracked.served) :
    (∃ r ∈ w.observers, s ∈ r.tracked.served) ∨
      ∃ now afterObserve afterExport shown answer,
        event = .wake now afterObserve afterExport shown answer ∧ w.observeTimer.due now ∧
          s = ⟨w.observeTimer.deadline, now, afterObserve⟩ := by
  have hexported : ∀ {v v' : Worker K W} {now after : Instant} {answer : TrySend},
      v.maybeExport platform now after answer = some v' → r' ∈ v'.observers →
        ∃ r ∈ v.observers, s ∈ r.tracked.served := by
    intro v v' now after answer hexport hr'
    rcases maybeExport_cases hexport with ⟨_, rfl⟩ | ⟨_, rfl⟩
    · exact ⟨r', hr', hs⟩
    · obtain ⟨r, hr, rfl⟩ := List.mem_map.mp hr'
      exact ⟨r, hr, hs⟩
  cases moves_of_step hstep with
  | wake hphase hclock hobserving hexporting hobserved hexport =>
      obtain ⟨r, hr, hserved⟩ := hexported hexport hr'
      rw [maybeObserve] at hobserved
      split at hobserved
      · next hdue =>
          obtain ⟨time, _, rfl⟩ := Option.map_eq_some_iff.mp hobserved
          obtain ⟨n, hn, rfl⟩ := List.mem_mapIdx.mp hr
          rcases List.mem_append.mp hserved with hold | hnew
          · exact .inl ⟨_, List.getElem_mem hn, hold⟩
          · exact .inr ⟨_, _, _, _, _, rfl, hdue, List.mem_singleton.mp hnew⟩
      · obtain rfl := Option.some_inj.mp hobserved
        exact .inl ⟨r, hr, hserved⟩
  | add hphase hadd =>
      obtain ⟨time, _, rfl⟩ := Option.map_eq_some_iff.mp hadd
      rcases List.mem_append.mp hr' with hold | hnew
      · exact .inl ⟨r', hold, hs⟩
      · obtain rfl := List.mem_singleton.mp hnew
        simp [Tracked.join] at hs
  | shutdown hphase hclock hexporting hexport => exact .inl (hexported hexport hr')

end Worker

/-- Between the end of a wait and the beginning of the next. -/
def Place.isAwake : Place K W → Bool
  | .polling | .handling _ | .emptying => true
  | .waiting _ | .returned => false

/-- When the wait that the worker is in may time out. -/
def Place.deadline : Place K W → Option Instant
  | .waiting deadline => some deadline
  | .polling | .handling _ | .emptying | .returned => none

namespace Loop

/-- The ticks that a step advances the timers to can be represented. -/
def Representable (platform : Platform) (l : Loop K W) : LoopTurn K W → Prop
  | .round now afterObserve afterExport _ _ _ =>
      (l.worker.observeTimer.due now →
        l.worker.observeTimer.tickAfter afterObserve ≤ platform.instantMax) ∧
      (l.worker.exportTimer.due now →
        l.worker.exportTimer.tickAfter afterExport ≤ platform.instantMax)
  | .handleShutdown now afterExport _ =>
      l.worker.exportTimer.due now →
        l.worker.exportTimer.tickAfter afterExport ≤ platform.instantMax
  | .send _ | .timeout _ | .receive _ | .tryReceive | .handleAdd => True

omit [LinearOrder K] in
instance (l : Loop K W) : ∀ turn : LoopTurn K W, Decidable (Representable platform l turn)
  | .round now afterObserve afterExport _ _ _ =>
      inferInstanceAs (Decidable ((l.worker.observeTimer.due now →
          l.worker.observeTimer.tickAfter afterObserve ≤ platform.instantMax) ∧
        (l.worker.exportTimer.due now →
          l.worker.exportTimer.tickAfter afterExport ≤ platform.instantMax)))
  | .handleShutdown now afterExport _ =>
      inferInstanceAs (Decidable (l.worker.exportTimer.due now →
        l.worker.exportTimer.tickAfter afterExport ≤ platform.instantMax))
  | .send _ | .timeout _ | .receive _ | .tryReceive | .handleAdd => .isTrue trivial

/-! ## No round for nothing -/

variable {config : Config} {start : CollectorTime} {turns : List (LoopTurn K W)}
  {l l' last : Loop K W} {turn : LoopTurn K W}

/-- Both timers, at the loop's clock. -/
structure Timed (config : Config) (start : CollectorTime) (l : Loop K W) : Prop where
  observeTimer : l.worker.observeTimer.Running start.instant config.pollPeriod l.clock
  exportTimer : l.worker.exportTimer.Running start.instant config.exportPeriod l.clock
  waiting : ∀ deadline, l.place = .waiting deadline → l.clock ≤ deadline ∧
    min l.worker.observeTimer.deadline l.worker.exportTimer.deadline ≤ deadline

omit [LinearOrder K] in
theorem timed_new : Timed config start (new config start : Loop K W) where
  observeTimer := GridTimer.running_new _ _
  exportTimer := GridTimer.running_new _ _
  waiting := nofun

omit [LinearOrder K] in
theorem le_waitUntil (w : Worker K W) (now : Instant) :
    now ≤ waitUntil w now ∧
      min w.observeTimer.deadline w.exportTimer.deadline ≤ waitUntil w now := by
  rw [waitUntil]
  lia

theorem Timed.step (h : Timed config start l) (hfits : Representable platform l turn)
    (hstep : step platform l turn = some l') : Timed config start l' := by
  cases moves_of_step hstep with
  | send hplace => exact ⟨h.observeTimer, h.exportTimer, h.waiting⟩
  | @round now afterObserve afterExport paused shown answer worker hplace hclock hpaused hworker =>
      obtain ⟨⟨hobserved, hexported⟩, hobserve, hexport⟩ :=
        Worker.timers_wake hfits.1 hfits.2 hworker
      refine ⟨?_, ?_, fun deadline hdeadline => ?_⟩
      · simp only [hobserve]
        exact h.observeTimer.served (hclock.trans hobserved) (hexported.trans hpaused) now
      · simp only [hexport]
        exact h.exportTimer.served (hclock.trans (hobserved.trans hexported)) hpaused now
      · obtain rfl := Place.waiting.inj hdeadline
        exact le_waitUntil worker paused
  | timeout hplace hqueue hdeadline =>
      have hlater := (h.waiting _ hplace).1.trans hdeadline
      exact ⟨h.observeTimer.later hlater, h.exportTimer.later hlater, nofun⟩
  | receive hplace hqueue hclock =>
      exact ⟨h.observeTimer.later hclock, h.exportTimer.later hclock, nofun⟩
  | another hplace hqueue => exact ⟨h.observeTimer, h.exportTimer, nofun⟩
  | empty hplace hqueue => exact ⟨h.observeTimer, h.exportTimer, nofun⟩
  | handleAdd hplace hworker =>
      obtain ⟨hobserve, hexport⟩ := Worker.timers_add hworker
      refine ⟨?_, ?_, nofun⟩
      · simp only [hobserve]
        exact h.observeTimer
      · simp only [hexport]
        exact h.exportTimer
  | @handleShutdown now afterExport answer worker hplace hclock hworker =>
      obtain ⟨hexported, hobserve, hexport⟩ := Worker.timers_shutdown hfits hworker
      refine ⟨?_, ?_, nofun⟩
      · simp only [hobserve]
        exact h.observeTimer.later (hclock.trans hexported)
      · simp only [hexport]
        exact h.exportTimer.served (hclock.trans hexported) (Nat.le_refl afterExport) now

/-- The ticks of both grids up to the deadlines. -/
def ticks (l : Loop K W) : Nat := l.worker.observeTimer.index + l.worker.exportTimer.index

/-- A command was taken from the queue, and its round is still to come. -/
def owed (l : Loop K W) : Nat :=
  match l.place with
  | .handling _ | .emptying => 1
  | .polling | .waiting _ | .returned => 0

/-- The rounds are no more than the waits that a command ended and the ticks that were
served, and a round that is to come is paid for, or serves a tick. -/
structure Paid (turns : List (LoopTurn K W)) (l : Loop K W) : Prop where
  paid : turns.countP LoopTurn.isRound + l.owed ≤ turns.countP LoopTurn.isReceive + l.ticks
  polling : l.place = .polling →
    turns.countP LoopTurn.isRound + 1 ≤ turns.countP LoopTurn.isReceive + l.ticks ∨
      l.worker.observeTimer.deadline ≤ l.clock ∨ l.worker.exportTimer.deadline ≤ l.clock

/-- A round for which a timer is due serves a tick, and no step goes back on the ticks. -/
theorem ticks_step (h : Timed config start l) (hfits : Representable platform l turn)
    (hstep : step platform l turn = some l') :
    l.ticks ≤ l'.ticks ∧ (turn.isRound →
      l.worker.observeTimer.deadline ≤ l.clock ∨ l.worker.exportTimer.deadline ≤ l.clock →
        l.ticks + 1 ≤ l'.ticks) := by
  have hpoll : 0 < l.worker.observeTimer.period := h.observeTimer.period_eq ▸ config.pollPeriod_pos
  have hperiod : 0 < l.worker.exportTimer.period :=
    h.exportTimer.period_eq ▸ config.exportPeriod_pos
  cases moves_of_step hstep with
  | @round now afterObserve afterExport paused shown answer worker hplace hclock hpaused hworker =>
      obtain ⟨⟨hobserved, hexported⟩, hobserve, hexport⟩ :=
        Worker.timers_wake hfits.1 hfits.2 hworker
      have hfirst := GridTimer.index_served_le hpoll h.observeTimer.onGrid hobserved
      have hsecond := GridTimer.index_served_le hperiod h.exportTimer.onGrid
        (hobserved.trans hexported)
      simp only [ticks, hobserve, hexport]
      constructor
      · lia
      · rintro - (hdue | hdue)
        · rw [if_pos (by simpa [GridTimer.due] using hdue.trans hclock)] at hfirst
          lia
        · rw [if_pos (by simpa [GridTimer.due] using hdue.trans hclock)] at hsecond
          lia
  | handleAdd hplace hworker =>
      obtain ⟨hobserve, hexport⟩ := Worker.timers_add hworker
      simp only [ticks, hobserve, hexport]
      exact ⟨Nat.le_refl _, fun hround => by cases hround⟩
  | @handleShutdown now afterExport answer worker hplace hclock hworker =>
      obtain ⟨hexported, hobserve, hexport⟩ := Worker.timers_shutdown hfits hworker
      have hsecond := GridTimer.index_served_le hperiod h.exportTimer.onGrid hexported
      simp only [ticks, hobserve, hexport]
      exact ⟨by lia, fun hround => by cases hround⟩
  | send | timeout | receive | another | empty =>
      exact ⟨Nat.le_refl _, fun hround => by cases hround⟩

theorem Paid.step (h : Paid turns l) (htimed : Timed config start l)
    (hfits : Representable platform l turn) (hstep : step platform l turn = some l') :
    Paid (turns ++ [turn]) l' := by
  obtain ⟨hticks, hserved⟩ := ticks_step htimed hfits hstep
  have hpaid := h.paid
  have hrounds : (turns ++ [turn]).countP LoopTurn.isRound =
      turns.countP LoopTurn.isRound + if turn.isRound then 1 else 0 := by simp
  have hreceives : (turns ++ [turn]).countP LoopTurn.isReceive =
      turns.countP LoopTurn.isReceive + if turn.isReceive then 1 else 0 := by simp
  constructor
  · rw [hrounds, hreceives]
    cases moves_of_step hstep with
    | send hplace => exact hpaid
    | round hplace hclock hpaused hworker =>
        show turns.countP LoopTurn.isRound + 1 + 0 ≤ turns.countP LoopTurn.isReceive + 0 + _
        rcases h.polling hplace with hleft | hdue
        · lia
        · have hmore := hserved rfl hdue
          lia
    | timeout hplace hqueue hdeadline => exact Nat.le_of_add_right_le hpaid
    | receive hplace hqueue hclock =>
        show turns.countP LoopTurn.isRound + 0 + 1 ≤ turns.countP LoopTurn.isReceive + 1 + l.ticks
        lia
    | another hplace hqueue =>
        rw [owed, hplace] at hpaid
        exact hpaid
    | empty hplace hqueue => exact Nat.le_of_add_right_le hpaid
    | handleAdd hplace hworker =>
        rw [owed, hplace] at hpaid
        exact hpaid.trans (Nat.add_le_add_left hticks _)
    | handleShutdown hplace hclock hworker =>
        exact (Nat.le_of_add_right_le hpaid).trans (Nat.add_le_add_left hticks _)
  · rw [hrounds, hreceives]
    cases moves_of_step hstep with
    | send hplace => exact h.polling
    | @timeout deadline at' hplace hqueue hdeadline =>
        intro _
        exact .inr (min_le_iff.mp ((htimed.waiting deadline hplace).2.trans hdeadline))
    | empty hplace hqueue =>
        intro _
        rw [owed, hplace] at hpaid
        exact .inl hpaid
    | round | receive | another | handleAdd | handleShutdown => rintro ⟨⟩

/-- Whoever sends commands and however long rounds and waits take, the loop does not turn for
nothing: its rounds are no more than the waits that a command ended and the ticks of the two
grids up to the latest reading of the clock, the next ones included. -/
theorem rounds_le
    (hfits : (step platform).Along (Representable platform) (new config start) turns)
    (hrun : (step platform).run (new config start) turns = some last) :
    turns.countP LoopTurn.isRound ≤ turns.countP LoopTurn.isReceive +
      ((last.clock - start.instant) / config.pollPeriod + 1) +
      ((last.clock - start.instant) / config.exportPeriod + 1) := by
  have hinv : Timed config start last ∧ Paid turns last := by
    revert hfits
    refine StepFn.run_induction (motive := fun turns last =>
      (Loop.step platform).Along (Representable platform) (new config start) turns →
        Timed config start last ∧ Paid turns last) ?_ ?_ hrun
    · intro _
      exact ⟨timed_new, ⟨Nat.zero_le _, fun _ => .inr (.inl (Nat.le_refl start.instant))⟩⟩
    · intro turns l turn l' hbefore ih hstep halong
      obtain ⟨hsofar, hhere⟩ := StepFn.along_concat.mp halong
      obtain ⟨htimed, hpaid⟩ := ih hsofar
      have hfits := hhere l hbefore
      exact ⟨htimed.step hfits hstep, hpaid.step htimed hfits hstep⟩
  obtain ⟨htimed, hpaid⟩ := hinv
  have hpoll := htimed.observeTimer.index_le config.pollPeriod_pos
  have hexport := htimed.exportTimer.index_le config.exportPeriod_pos
  have hrounds := Nat.le_of_add_right_le hpaid.paid
  rw [ticks] at hrounds
  lia

/-! ## Every tick is served -/

/-- The worker is busy for no longer than `busy` from the end of a wait to the next wait or
to its own end, and a wait ends no later than `late` after it may have timed out. -/
def Prompt (busy late : Duration) (l : Loop K W) : LoopTurn K W → Prop
  | .round _ _ _ paused _ _ => paused ≤ l.woke + busy
  | .timeout at' | .receive at' => ∀ deadline ∈ l.place.deadline, at' ≤ deadline + late
  | .handleShutdown _ afterExport _ => afterExport ≤ l.woke + busy
  | .send _ | .tryReceive | .handleAdd => True

omit [LinearOrder K] in
instance (busy late : Duration) (l : Loop K W) :
    ∀ turn : LoopTurn K W, Decidable (Prompt busy late l turn)
  | .round _ _ _ paused _ _ => inferInstanceAs (Decidable (paused ≤ l.woke + busy))
  | .timeout at' | .receive at' =>
      inferInstanceAs (Decidable (∀ deadline ∈ l.place.deadline, at' ≤ deadline + late))
  | .handleShutdown _ afterExport _ => inferInstanceAs (Decidable (afterExport ≤ l.woke + busy))
  | .send _ | .tryReceive | .handleAdd => .isTrue trivial

/-- How far the clock may be past the deadline for the observations. -/
def allowance (busy late : Duration) : Place K W → Duration
  | .waiting _ => busy
  | .polling | .handling _ | .emptying => busy + late
  | .returned => 2 * busy + late

/-- What holds of a loop that keeps up. -/
structure KeepsUp (platform : Platform) (config : Config) (start : CollectorTime)
    (busy late : Duration) (l : Loop K W) : Prop where
  onSchedule : l.worker.OnSchedule platform config start
  clock : l.clock ≤ l.worker.observeTimer.deadline + allowance busy late l.place
  awake : l.place.isAwake → l.clock = l.woke
  waiting : ∀ deadline, l.place = .waiting deadline →
    l.clock ≤ deadline ∧ deadline ≤ l.worker.observeTimer.deadline + busy
  served : ∀ r ∈ l.worker.observers, ∀ s ∈ r.tracked.served,
    s.after ≤ s.tick + (2 * busy + late)

variable {busy late : Duration}

/-- A round of a loop that keeps up. -/
theorem KeepsUp.round (h : KeepsUp platform config start busy late l)
    (hlag : 2 * busy + late < config.pollPeriod) {now afterObserve afterExport paused : Instant}
    {shown : Nat → (dyn : DynObserver K W) → BucketMap.Walkable K dyn.Cell} {answer : TrySend}
    {worker : Worker K W}
    (hfits : Representable platform l (.round now afterObserve afterExport paused shown answer))
    (hprompt : paused ≤ l.woke + busy) (hplace : l.place = .polling) (hclock : l.clock ≤ now)
    (hpaused : afterExport ≤ paused)
    (hworker : Worker.step platform l.worker
      (.wake now afterObserve afterExport shown answer) = some worker) :
    KeepsUp platform config start busy late
      { l with
        worker := worker
        place := .waiting (waitUntil worker paused)
        clock := paused } := by
  obtain ⟨⟨hobserved, hexported⟩, hobserve, -⟩ := Worker.timers_wake hfits.1 hfits.2 hworker
  have hwoke : l.clock = l.woke := h.awake (by rw [hplace]; rfl)
  have hlate : l.clock ≤ l.worker.observeTimer.deadline + (busy + late) := by
    have hclock := h.clock
    rwa [hplace] at hclock
  have hperiod : l.worker.observeTimer.period = config.pollPeriod := h.onSchedule.timer_period
  have hgrid := h.onSchedule.onGrid
  -- A tick that is served is so before the next one; a tick that is not is still to come.
  have hnext : paused ≤ worker.observeTimer.deadline + busy := by
    rw [hobserve, GridTimer.served]
    split
    · next hdue =>
        have hnow : l.worker.observeTimer.deadline ≤ now := by simpa [GridTimer.due] using hdue
        have hafter := (GridTimer.tickAfter_eq_add_period_iff
          (hperiod ▸ config.pollPeriod_pos) hgrid (hnow.trans hobserved)).mpr (by lia)
        simp only [hafter]
        lia
    · next hdue =>
        have hnow : now < l.worker.observeTimer.deadline := by simpa [GridTimer.due] using hdue
        lia
  have hschedule : worker.OnSchedule platform config start := by
    refine h.onSchedule.step ?_ hworker
    exact hfits.1
  refine ⟨hschedule, hnext, ?_, ?_, ?_⟩
  · intro hawake
    cases hawake
  · intro deadline hdeadline
    obtain rfl := Place.waiting.inj hdeadline
    refine ⟨(le_waitUntil worker paused).1, ?_⟩
    simp only [waitUntil]
    lia
  · intro r hr s hs
    rcases Worker.served_step hworker hr hs with ⟨before, hbefore, hold⟩ | hnew
    · exact h.served before hbefore s hold
    · obtain ⟨_, _, _, _, _, hevent, hdue, rfl⟩ := hnew
      obtain ⟨rfl, rfl, rfl, -, -⟩ := Event.wake.inj hevent
      show afterObserve ≤ l.worker.observeTimer.deadline + (2 * busy + late)
      lia

theorem KeepsUp.step (h : KeepsUp platform config start busy late l)
    (hlag : 2 * busy + late < config.pollPeriod) (hfits : Representable platform l turn)
    (hprompt : Prompt busy late l turn) (hstep : step platform l turn = some l') :
    KeepsUp platform config start busy late l' := by
  have hclock := h.clock
  cases moves_of_step hstep with
  | send hplace => exact ⟨h.onSchedule, h.clock, h.awake, h.waiting, h.served⟩
  | round hplace hclock hpaused hworker =>
      exact h.round hlag hfits hprompt hplace hclock hpaused hworker
  | timeout hplace hqueue hdeadline =>
      have hnear := (h.waiting _ hplace).2
      have hprompt := hprompt _ (by rw [hplace]; rfl)
      refine ⟨h.onSchedule, ?_, fun _ => rfl, nofun, h.served⟩
      simp only [allowance]
      lia
  | receive hplace hqueue hlater =>
      have hnear := (h.waiting _ hplace).2
      have hprompt := hprompt _ (by rw [hplace]; rfl)
      refine ⟨h.onSchedule, ?_, fun _ => rfl, nofun, h.served⟩
      simp only [allowance]
      lia
  | another hplace hqueue =>
      rw [hplace] at hclock
      have hwoke := h.awake (by rw [hplace]; rfl)
      exact ⟨h.onSchedule, hclock, fun _ => hwoke, nofun, h.served⟩
  | empty hplace hqueue =>
      rw [hplace] at hclock
      have hwoke := h.awake (by rw [hplace]; rfl)
      exact ⟨h.onSchedule, hclock, fun _ => hwoke, nofun, h.served⟩
  | @handleAdd boxed worker hplace hworker =>
      rw [hplace] at hclock
      have hwoke := h.awake (by rw [hplace]; rfl)
      have hschedule : worker.OnSchedule platform config start := by
        refine h.onSchedule.step ?_ hworker
        trivial
      refine ⟨hschedule, ?_, fun _ => hwoke, nofun, ?_⟩
      · simp only [(Worker.timers_add hworker).1]
        exact hclock
      · intro r hr s hs
        rcases Worker.served_step hworker hr hs with ⟨before, hbefore, hold⟩ | hnew
        · exact h.served before hbefore s hold
        · obtain ⟨_, _, _, _, _, hevent, _⟩ := hnew
          cases hevent
  | @handleShutdown now afterExport answer worker hplace hlater hworker =>
      rw [hplace] at hclock
      have hwoke := h.awake (by rw [hplace]; rfl)
      simp only [Prompt] at hprompt
      have hschedule : worker.OnSchedule platform config start := by
        refine h.onSchedule.step ?_ hworker
        trivial
      refine ⟨hschedule, ?_, nofun, nofun, ?_⟩
      · simp only [(Worker.timers_shutdown hfits hworker).2.1, allowance] at hclock ⊢
        lia
      · intro r hr s hs
        rcases Worker.served_step hworker hr hs with ⟨before, hbefore, hold⟩ | hnew
        · exact h.served before hbefore s hold
        · obtain ⟨_, _, _, _, _, hevent, _⟩ := hnew
          cases hevent

theorem keptUp_prompt :
    (step roomy).Along (fun l turn => Representable roomy l turn ∧ Prompt 1 1 l turn)
      (new everyTen ⟨0, 0⟩) keptUp := by
  decide

/-- Four rounds, for two commands, the ticks at 0, 10 and 20 of the one grid, and the tick at 0
of the other. -/
theorem rounds_le_keptUp :
    ∃ last, (step roomy).run (new everyTen ⟨0, 0⟩) keptUp = some last ∧ last.clock = 22 ∧
      keptUp.countP LoopTurn.isRound ≤ keptUp.countP LoopTurn.isReceive +
        ((last.clock - 0) / 10 + 1) + ((last.clock - 0) / 100 + 1) := by
  have hrun : ∃ last, (step roomy).run (new everyTen ⟨0, 0⟩) keptUp = some last ∧
      last.clock = 22 := ⟨_, rfl, rfl⟩
  obtain ⟨last, hrun, hclock⟩ := hrun
  exact ⟨last, hrun, hclock, rounds_le (keptUp_prompt.imp fun _ _ h => h.1) hrun⟩

end Loop

end Periodic

end Ohnotel
