/-
# Observers on the grid

Every observation is made for a tick of the grid, and the next one for the first tick
after the reading that followed it.  So the ticks an observer was observed for are at
least a period apart, and exactly a period as long as that reading was before the next
tick.  The observer itself counts only its observations.

From this follows what can be said of the times a snapshot is exported with.
-/

import Ohnotel.Collect.Periodic

namespace Ohnotel.Periodic

open Foundation Atomic

variable {platform : Platform} {K A T V W : Type}

/-- Snapshots of observations, in their order: the number of each is that of its
observation, and its time that of the reading the observation was made at. -/
structure Stamped (start : CollectorTime) (served : List Service)
    (snapshots : List (Observation V)) : Prop where
  increasing : snapshots.Pairwise fun first second => first.seqId < second.seqId
  service : ∀ s ∈ snapshots, ∃ service, served[s.seqId.toNat]? = some service ∧
    s.ts = start.reported service.now

theorem Stamped.lt_length {start : CollectorTime} {served : List Service}
    {snapshots : List (Observation V)} (h : Stamped start served snapshots) {s : Observation V}
    (hs : s ∈ snapshots) : s.seqId.toNat < served.length := by
  obtain ⟨service, hservice, _⟩ := h.service s hs
  exact (List.getElem?_eq_some_iff.mp hservice).1

/-- One more observation, with or without a snapshot. -/
theorem Stamped.append {start : CollectorTime} {served : List Service}
    {snapshots : List (Observation V)} (h : Stamped start served snapshots) (service : Service)
    {added : List (Observation V)} (hfew : served.length < 2 ^ 64)
    (hadded : added = [] ∨ ∃ value,
      added = [⟨start.reported service.now, UInt64.ofNat served.length, value⟩]) :
    Stamped start (served ++ [service]) (snapshots ++ added) := by
  have hkept : ∀ s ∈ snapshots, ∃ found, (served ++ [service])[s.seqId.toNat]? = some found ∧
      s.ts = start.reported found.now := by
    intro s hs
    obtain ⟨found, hfound, hts⟩ := h.service s hs
    exact ⟨found, by rw [List.getElem?_append_left (h.lt_length hs), hfound], hts⟩
  rcases hadded with rfl | ⟨value, rfl⟩
  · rw [List.append_nil]
    exact ⟨h.increasing, hkept⟩
  · have hnumber : (UInt64.ofNat served.length).toNat = served.length := by
      rw [UInt64.toNat_ofNat', Nat.mod_eq_of_lt hfew]
    constructor
    · refine List.pairwise_append.mpr ⟨h.increasing, List.pairwise_singleton _ _, ?_⟩
      intro first hfirst second hsecond
      obtain rfl := List.mem_singleton.mp hsecond
      rw [UInt64.lt_iff_toNat_lt, hnumber]
      exact h.lt_length hfirst
    · intro s hs
      rcases List.mem_append.mp hs with hs | hs
      · exact hkept s hs
      · obtain rfl := List.mem_singleton.mp hs
        exact ⟨service, by simp [hnumber], rfl⟩

namespace Tracked

/-- What holds of an observer under a timer from the moment it joined. -/
structure OnSchedule (platform : Platform) (start : CollectorTime) (timer : GridTimer)
    (t : Tracked K V) : Prop where
  joined : timer.OnGrid t.joined
  startTime : t.observer.startTime = start.reported t.joined
  seq : t.observer.seq = UInt64.ofNat t.served.length
  timely : ∀ s ∈ t.served, s.tick ≤ s.now ∧ s.now ≤ s.after ∧
    timer.tickAfter s.after ≤ platform.instantMax ∧ start.reported s.now ≤ platform.systemMax
  /-- The first tick is the one the observer joined at, each further one the next after an
  observation, and the last of these is the deadline. -/
  ticks : t.joined :: t.served.map (fun s => timer.tickAfter s.after) =
    t.served.map Service.tick ++ [timer.deadline]
  stamped : t.served.length ≤ 2 ^ 64 → ∀ attrs, Stamped start t.served (t.pushed attrs)

variable {start : CollectorTime} {timer : GridTimer} {t : Tracked K V}

theorem onSchedule_join (observer : SyncObserver K V) (hgrid : timer.OnGrid timer.deadline) :
    (join observer (start.reported timer.deadline) timer.deadline).OnSchedule platform start
      timer where
  joined := hgrid
  startTime := rfl
  seq := rfl
  timely := by simp [join]
  ticks := rfl
  stamped _ _ := ⟨List.Pairwise.nil, by simp [join]⟩

theorem OnSchedule.exportInto (h : t.OnSchedule platform start timer) (batch : Option Nat) :
    (t.exportInto batch).OnSchedule platform start timer :=
  ⟨h.joined, h.startTime, h.seq, h.timely, h.ticks, h.stamped⟩

/-- An observation for the deadline of the timer, which then advances. -/
theorem OnSchedule.observe [LinearOrder K] [Record A T V] [BEq V] [PartialOrd V] [Sub V]
    [IsInitial V] (h : t.OnSchedule platform start timer) (cfg : Ohnotel.Config K A)
    (shown : BucketMap.Walkable K A) {service : Service} (hdeadline : service.tick = timer.deadline)
    (htimely : service.tick ≤ service.now ∧ service.now ≤ service.after ∧
      timer.tickAfter service.after ≤ platform.instantMax ∧
      start.reported service.now ≤ platform.systemMax) :
    (t.observe cfg (start.reported service.now) service shown).OnSchedule platform start
      { timer with deadline := timer.tickAfter service.after } := by
  have hobserved := SyncObserver.observed_observe (start.reported service.now) cfg shown t.observer
  refine ⟨h.joined, hobserved.startTime.trans h.startTime, ?_, ?_, ?_, ?_⟩
  · rw [Tracked.observe, hobserved.seq, h.seq, List.length_append, List.length_singleton,
      UInt64.ofNat_add]
    rfl
  · intro s hs
    rcases List.mem_append.mp hs with hs | hs
    · exact h.timely s hs
    · obtain rfl := List.mem_singleton.mp hs
      exact htimely
  · have hticks := congrArg (· ++ [timer.tickAfter service.after]) h.ticks
    simp only [Tracked.observe, List.map_append, List.map_singleton, hdeadline]
    exact hticks
  · intro hfew attrs
    have hlength : t.served.length < 2 ^ 64 := by
      simp only [Tracked.observe, List.length_append, List.length_singleton] at hfew
      omega
    refine (h.stamped hlength.le attrs).append service hlength ?_
    rcases hobserved.series attrs with hsame | ⟨value, hadded⟩
    · exact .inl (by rw [hsame, List.drop_length])
    · exact .inr ⟨value, by rw [hadded, List.drop_left, h.seq]⟩

/-! ## The ticks of an observer -/

section Ticks

variable (h : t.OnSchedule platform start timer)

include h

theorem OnSchedule.tick_zero {service : Service} (hservice : t.served[0]? = some service) :
    service.tick = t.joined := by
  have hlength := (List.getElem?_eq_some_iff.mp hservice).1
  have hfirst := congrArg (·[0]?) h.ticks
  rw [List.getElem?_append_left (by simpa using hlength), List.getElem?_map, hservice] at hfirst
  exact (Option.some.inj hfirst).symm

theorem OnSchedule.tick_succ {i : Nat} {service next : Service}
    (hservice : t.served[i]? = some service) (hnext : t.served[i + 1]? = some next) :
    next.tick = timer.tickAfter service.after := by
  have hlength := (List.getElem?_eq_some_iff.mp hnext).1
  have hlater := congrArg (·[i + 1]?) h.ticks
  rw [List.getElem?_append_left (by simpa using hlength), List.getElem?_map, hnext,
    List.getElem?_cons_succ, List.getElem?_map, hservice] at hlater
  exact (Option.some.inj hlater).symm

/-- The ticks are on the grid, and no two of them closer than a period. -/
theorem OnSchedule.tick_ge {i : Nat} {service : Service} (hperiod : 0 < timer.period)
    (hservice : t.served[i]? = some service) :
    timer.OnGrid service.tick ∧ t.joined + i * timer.period ≤ service.tick := by
  induction i generalizing service with
  | zero =>
      rw [h.tick_zero hservice]
      exact ⟨h.joined, by lia⟩
  | succ i ih =>
      have hlength := (List.getElem?_eq_some_iff.mp hservice).1
      have hbefore : t.served[i]? = some t.served[i] := List.getElem?_eq_getElem (by omega)
      obtain ⟨hgrid, hle⟩ := ih hbefore
      obtain ⟨hnow, hafter, _, _⟩ := h.timely _ (List.getElem_mem (Nat.lt_of_succ_lt hlength))
      have hlater := (GridTimer.lt_tickAfter hperiod (hgrid.1.trans (hnow.trans hafter))).1
      rw [h.tick_succ hbefore hservice]
      have hstep := hgrid.add_period_le (timer.onGrid_tickAfter t.served[i].after)
        (lt_of_le_of_lt (hnow.trans hafter) hlater)
      refine ⟨timer.onGrid_tickAfter _, ?_⟩
      rw [Nat.add_mul]
      lia

/-- A later observation serves a tick after the reading of an earlier one. -/
theorem OnSchedule.now_lt_tick {i j : Nat} {service later : Service} (hperiod : 0 < timer.period)
    (hlt : i < j) (hservice : t.served[i]? = some service) (hlater : t.served[j]? = some later) :
    service.now < later.tick := by
  induction j generalizing later with
  | zero => omega
  | succ j ih =>
      have hlength := (List.getElem?_eq_some_iff.mp hlater).1
      have hbefore : t.served[j]? = some t.served[j] := List.getElem?_eq_getElem (by omega)
      obtain ⟨hnow, hafter, _, _⟩ := h.timely _ (List.getElem_mem (Nat.lt_of_succ_lt hlength))
      have hgrid := (h.tick_ge hperiod hbefore).1
      have hnext := (GridTimer.lt_tickAfter hperiod (hgrid.1.trans (hnow.trans hafter))).1
      rw [h.tick_succ hbefore hlater]
      rcases Nat.lt_succ_iff_lt_or_eq.mp hlt with hlt | rfl
      · have hprevious := ih hlt hbefore
        lia
      · obtain rfl : service = t.served[i] := Option.some.inj (hservice.symm.trans hbefore)
        exact lt_of_le_of_lt hafter hnext

/-- The tick of an observation is as many periods after the first as there were
observations before, exactly if each of those was over before the next tick. -/
theorem OnSchedule.tick_eq_iff {i : Nat} {service : Service} (hperiod : 0 < timer.period)
    (hservice : t.served[i]? = some service) :
    service.tick = t.joined + i * timer.period ↔
      ∀ earlier ∈ t.served.take i, earlier.after < earlier.tick + timer.period := by
  induction i generalizing service with
  | zero => simp [h.tick_zero hservice]
  | succ i ih =>
      have hlength := (List.getElem?_eq_some_iff.mp hservice).1
      have hbefore : t.served[i]? = some t.served[i] := List.getElem?_eq_getElem (by omega)
      obtain ⟨hgrid, hle⟩ := h.tick_ge hperiod hbefore
      obtain ⟨hnow, hafter, _, _⟩ := h.timely _ (List.getElem_mem (Nat.lt_of_succ_lt hlength))
      have hlater := (GridTimer.lt_tickAfter hperiod (hgrid.1.trans (hnow.trans hafter))).1
      have hstep := hgrid.add_period_le (timer.onGrid_tickAfter t.served[i].after)
        (lt_of_le_of_lt (hnow.trans hafter) hlater)
      have hnext := GridTimer.tickAfter_eq_add_period_iff hperiod hgrid (hnow.trans hafter)
      rw [h.tick_succ hbefore hservice, List.take_add_one, hbefore, Nat.add_mul]
      simp only [Option.toList_some, List.mem_append, List.mem_singleton, or_imp, forall_and,
        forall_eq, ← ih hbefore, ← hnext]
      constructor
      · intro heq
        constructor <;> lia
      · rintro ⟨heq, hone⟩
        lia

end Ticks

end Tracked

/-! ## The worker on the grid -/

namespace Worker

variable [LinearOrder K]

/-- What holds of a worker under a configuration. -/
structure OnSchedule (platform : Platform) (config : Config) (start : CollectorTime)
    (w : Worker K W) : Prop where
  start_eq : w.start = start
  pollPeriod : w.pollPeriod = config.pollPeriod
  timer_start : w.observeTimer.start = start.instant
  timer_period : w.observeTimer.period = config.pollPeriod
  onGrid : w.observeTimer.OnGrid w.observeTimer.deadline
  observers : ∀ r ∈ w.observers, r.tracked.OnSchedule platform start w.observeTimer

/-- The tick that the observe timer advances to can be represented. -/
def Representable (platform : Platform) (w : Worker K W) : Event K W → Prop
  | .wake now afterObserve _ _ _ =>
      w.observeTimer.due now → w.observeTimer.tickAfter afterObserve ≤ platform.instantMax
  | .add _ | .shutdown _ _ _ => True

omit [LinearOrder K] in
instance (w : Worker K W) : ∀ event : Event K W, Decidable (Representable platform w event)
  | .wake now afterObserve _ _ _ =>
      inferInstanceAs (Decidable (w.observeTimer.due now →
        w.observeTimer.tickAfter afterObserve ≤ platform.instantMax))
  | .add _ => .isTrue trivial
  | .shutdown _ _ _ => .isTrue trivial

variable {config : Config} {start : CollectorTime} {w w' : Worker K W}

omit [LinearOrder K] in
theorem onSchedule_new :
    (new config start : Worker K W).OnSchedule platform config start where
  start_eq := rfl
  pollPeriod := rfl
  timer_start := rfl
  timer_period := rfl
  onGrid := GridTimer.onGrid_start _
  observers := by simp [new]

omit [LinearOrder K] in
theorem OnSchedule.maybeExport (h : w.OnSchedule platform config start) {now after : Instant}
    {answer : TrySend} (hexport : w.maybeExport platform now after answer = some w') :
    w'.OnSchedule platform config start := by
  rcases maybeExport_cases hexport with ⟨_, rfl⟩ | ⟨_, rfl⟩
  · exact h
  · refine ⟨h.start_eq, h.pollPeriod, h.timer_start, h.timer_period, h.onGrid, ?_⟩
    intro r hr
    obtain ⟨before, hbefore, rfl⟩ := List.mem_map.mp hr
    exact (h.observers before hbefore).exportInto _

theorem OnSchedule.maybeObserve (h : w.OnSchedule platform config start) {now after : Instant}
    {shown : Nat → (dyn : DynObserver K W) → BucketMap.Walkable K dyn.Cell} (hle : now ≤ after)
    (hfits : w.observeTimer.due now → w.observeTimer.tickAfter after ≤ platform.instantMax)
    (hobserve : w.maybeObserve platform now after shown = some w') :
    w'.OnSchedule platform config start := by
  rw [Worker.maybeObserve] at hobserve
  by_cases hdue : w.observeTimer.due now = true
  · rw [if_pos hdue] at hobserve
    obtain ⟨time, htime, rfl⟩ := Option.map_eq_some_iff.mp hobserve
    have hdeadline : w.observeTimer.deadline ≤ now := by simpa [GridTimer.due] using hdue
    have hstart : start.instant ≤ now := by
      have := h.onGrid.1
      rw [h.timer_start] at this
      lia
    rw [h.start_eq] at htime
    obtain ⟨hreported, hmax⟩ := CollectorTime.atInstant_eq_some hstart htime
    have hadvance : w.observeTimer.advance platform after =
        { w.observeTimer with deadline := w.observeTimer.tickAfter after } := by
      rw [GridTimer.advance, GridTimer.next_eq_tickAfter (hfits hdue)]
    refine ⟨h.start_eq, h.pollPeriod, h.timer_start, h.timer_period, ?_, ?_⟩
    · simp only [hadvance]
      exact w.observeTimer.onGrid_tickAfter after
    · intro r hr
      obtain ⟨n, hn, rfl⟩ := List.mem_mapIdx.mp hr
      have htick : (⟨w.observeTimer.deadline, now, after⟩ : Service).tick =
          w.observeTimer.deadline := rfl
      simp only [hadvance, Registered.observe, hreported]
      exact (h.observers _ (List.getElem_mem hn)).observe _ _ htick
        ⟨hdeadline, hle, hfits hdue, hmax⟩
  · rw [if_neg hdue] at hobserve
    obtain rfl := Option.some.inj hobserve
    exact h

omit [LinearOrder K] in
theorem OnSchedule.handleAdd (h : w.OnSchedule platform config start)
    {boxed : BoxedDynObserver K W} (hadd : w.handleAdd platform boxed = some w') :
    w'.OnSchedule platform config start := by
  obtain ⟨time, htime, rfl⟩ := Option.map_eq_some_iff.mp hadd
  have hstart : start.instant ≤ w.observeTimer.deadline := h.timer_start ▸ h.onGrid.1
  rw [h.start_eq] at htime
  obtain ⟨hreported, _⟩ := CollectorTime.atInstant_eq_some hstart htime
  refine ⟨h.start_eq, h.pollPeriod, h.timer_start, h.timer_period, h.onGrid, ?_⟩
  intro r hr
  rcases List.mem_append.mp hr with hr | hr
  · exact h.observers r hr
  · obtain rfl := List.mem_singleton.mp hr
    rw [hreported]
    exact Tracked.onSchedule_join boxed.observer h.onGrid

theorem OnSchedule.step (h : w.OnSchedule platform config start) {event : Event K W}
    (hfits : w.Representable platform event) (hstep : Worker.step platform w event = some w') :
    w'.OnSchedule platform config start := by
  cases moves_of_step hstep with
  | wake hphase hclock hobserving hexporting hobserve hexport =>
      have hexported := (h.maybeObserve hobserving hfits hobserve).maybeExport hexport
      exact { hexported with }
  | add hphase hadd => exact h.handleAdd hadd
  | shutdown hphase hclock hexporting hexport => exact { h.maybeExport hexport with }

theorem onSchedule_run {events : List (Event K W)}
    (hfits : (Worker.step platform).Along (Representable platform) (new config start) events)
    (hrun : (Worker.step platform).run (new config start) events = some w) :
    w.OnSchedule platform config start :=
  StepFn.invariant_of_step_along (OnSchedule platform config start)
    (fun _ _ _ _ hinv hfits hstep => hinv.step hfits hstep) onSchedule_new hfits hrun

end Worker

end Ohnotel.Periodic
