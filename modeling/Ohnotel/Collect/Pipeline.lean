/-
# From the application to the sender

An application adds to a metric while a collector observes it; each observation is shown
the map as it is then.  What was added is read off the map by a delta observer, exported
series by series, put into batches, queued, and handed to the sender.

Nothing on this way adds or loses a value: what a delta observer's series in the batches add
up to is what had been added when the metric was last observed.
-/

import Ohnotel.Collect.Dispatch
import Ohnotel.Observe.Agreement

namespace Ohnotel.Periodic

open Foundation Atomic

variable {K W : Type}

/-- An application with a metric and a collector.  The observers of the metric are those
made of `dyn`; what was added is noted, in all and at the last observation. -/
structure Pipeline (dyn : DynObserver K W) : Type 1 where
  map : BucketMap K dyn.Cell
  dispatch : Dispatch K W
  added : Finset K → List dyn.Measure
  seen : Finset K → List dyn.Measure

/-- The application adds, or the collector takes a step. -/
inductive PipelineTurn (dyn : DynObserver K W) : Type 1
  | add (value : dyn.Measure) (attrs : List K)
  | dispatch (turn : DispatchTurn K W)

/-- The attribute lists that occur in a run. -/
def PipelineTurn.listsOf {dyn : DynObserver K W} (turns : List (PipelineTurn dyn)) :
    Set (List K) :=
  {attrs | ∃ value, .add value attrs ∈ turns}

/-- The step observes. -/
def Worker.observesAt (w : Worker K W) : DispatchTurn K W → Bool
  | .worker (.wake now _ _ _ _) => w.observeTimer.due now
  | .worker (.add _) | .worker (.shutdown _ _ _) => false
  | .recv | .gate | .sent | .finish | .setEnabled _ | .abort | .shutdownRuntime => false

/-- The observers of the metric are shown its map, and are made without draining it. -/
def Event.Fed (dyn : DynObserver K W) (map : BucketMap K dyn.Cell) : Event K W → Prop
  | .wake _ _ _ shown _ => ∀ n, (shown n dyn).buckets = map
  | .add boxed => ∀ observer, boxed = ⟨dyn, observer⟩ → ∃ id kind mode now,
      mode ≠ .destructive ∧ SyncObserver.new id kind mode now = .ok observer
  | .shutdown _ _ _ => True

namespace Pipeline

variable [LinearOrder K] (platform : Platform) {dyn : DynObserver K W}

variable (dyn) in
def new (config : Config) (batchCapacity : Option ℕ+) (start : CollectorTime) : Pipeline dyn where
  map := BucketMap.withStorage dyn.cfg
  dispatch := Dispatch.new config batchCapacity start true
  added _ := []
  seen _ := []

def step : StepFn (Pipeline dyn) (PipelineTurn dyn)
  | s, .add value attrs =>
      some { s with
        map := s.map.add dyn.cfg value attrs
        added := BucketMap.holding s.added value attrs }
  | s, .dispatch turn =>
      (Dispatch.step platform s.dispatch turn).map fun dispatch =>
        { s with
          dispatch := dispatch
          seen := if s.dispatch.worker.observesAt turn then s.added else s.seen }

/-- The step is one of a pipeline that nothing disturbs: every conversion finds what is
there, the channel takes every batch, the metric's observers are shown its map and leave
it as it is, and nobody closes the gate. -/
def Flows (s : Pipeline dyn) : PipelineTurn dyn → Prop
  | .add _ _ => True
  | .dispatch (.setEnabled enabled) => enabled = true
  | .dispatch (.worker event) => s.dispatch.worker.Delivers platform event ∧ event.Fed dyn s.map
  | .dispatch _ => True

end Pipeline

/-! ## One observer of the metric -/

namespace Tracked

variable {A T V : Type}

/-- A metric with one of its observers, and what that handed over. -/
def asObserved (map : BucketMap K A) (t : Tracked K V) : Observed K A V where
  map := map
  observer := t.observer
  exported := t.delivered.map Prod.snd

variable [LinearOrder K] [Record A T V] [BEq V] [PartialOrd V] [Sub V] [IsInitial V]

/-- An observer that drains nothing, and if it reports deltas, then what it handed over and
what it holds add up to what had been added when it was last observed. -/
structure Tallied (cfg : Ohnotel.Config K A) (inUse : Set (List K)) {I : Type}
    (meter : Meter (T := T) (V := V) I cfg.initBucket) (map : BucketMap K A)
    (added seen : Finset K → List T) (t : Tracked K V) : Prop where
  keeps : t.observer.observeMode ≠ .destructive
  delta : t.observer.observeMode = .delta →
    Observed.DeltaInv cfg inUse meter added (if t.served = [] then fun _ => [] else seen)
      (t.asObserved map)

variable {cfg : Ohnotel.Config K A} {inUse : Set (List K)} {I : Type}
  {meter : Meter (T := T) (V := V) I cfg.initBucket} {map : BucketMap K A}
  {added seen : Finset K → List T} {t : Tracked K V}

theorem tallied_join (hholds : BucketMap.Holds cfg inUse map added) {id : NameIdentity}
    {kind : Kind} {mode : Mode} {now : SystemTime} (hmode : mode ≠ .destructive)
    {observer : SyncObserver K V} (hnew : SyncObserver.new id kind mode now = .ok observer)
    (startTime : SystemTime) (tick : Instant) :
    (join observer startTime tick).Tallied cfg inUse meter map added seen := by
  unfold SyncObserver.new at hnew
  split at hnew
  · cases hnew
  · obtain rfl := Except.ok.inj hnew
    refine ⟨hmode, fun hdelta => ?_⟩
    obtain rfl : mode = .delta := hdelta
    refine ⟨hholds, ⟨rfl, fun attrs hattrs => absurd rfl hattrs⟩, fun set => ⟨added set, rfl⟩,
      fun set => rfl, fun set i => rfl⟩

theorem Tallied.add (h : t.Tallied cfg inUse meter map added seen)
    (hfree : CollisionFree cfg inUse) (value : T) {attrs : List K} (hattrs : attrs ∈ inUse) :
    t.Tallied cfg inUse meter (map.add cfg value attrs) (BucketMap.holding added value attrs)
      seen where
  keeps := h.keeps
  delta hmode := (h.delta hmode).add hfree value hattrs

theorem Tallied.observe [LawfulBEq V] (h : t.Tallied cfg inUse meter map added seen)
    (hholds : BucketMap.Holds cfg inUse map added)
    (hbounded : ∀ set, Bounded meter.weight (added set)) (ts : SystemTime) (service : Service)
    {shown : BucketMap.Walkable K A} (hshown : shown.buckets = map) :
    (t.observe cfg ts service shown).Tallied cfg inUse meter map added added := by
  subst hshown
  obtain ⟨hmap, hwatched⟩ := SyncObserver.observe_of_keeps cfg hholds.inv ts h.keeps
  have hmode : (t.observe cfg ts service shown).observer.observeMode = t.observer.observeMode :=
    hwatched.observeMode
  refine ⟨hmode ▸ h.keeps, fun hdelta => ?_⟩
  have hobserved := (h.delta (hmode ▸ hdelta)).observe hbounded ts
  have hserved : (t.observe cfg ts service shown).served ≠ [] := by
    simp [Tracked.observe]
  rw [if_neg hserved]
  have hsame : (t.asObserved shown.buckets).exec cfg (.observe (T := T) ts) =
      (t.observe cfg ts service shown).asObserved shown.buckets := by
    rw [Observed.exec, asObserved, hmap]
    rfl
  rw [← hsame]
  exact hobserved

/-- An export into a batch, or one of nothing. -/
theorem Tallied.exportInto (h : t.Tallied cfg inUse meter map added seen) {batch : Option Nat}
    (hempty : batch = none → ∀ attrs, t.observer.series attrs = []) :
    (t.exportInto batch).Tallied cfg inUse meter map added seen where
  keeps := h.keeps
  delta hmode := by
    have hexported := (h.delta hmode).exportSeries
    cases batch with
    | some n =>
        have hsame : (t.asObserved map).exec cfg (.exportSeries (T := T)) =
            (t.exportInto (some n)).asObserved map := by
          simp [Observed.exec, asObserved, Tracked.exportInto]
        rw [hsame] at hexported
        exact hexported
    | none =>
        have hnothing : t.observer.take.1 = t.observer := by
          have hseries : (fun _ => []) = t.observer.series := by
            funext attrs
            exact (hempty rfl attrs).symm
          rw [SyncObserver.take, hseries]
        have hsame : (t.exportInto none).asObserved map = t.asObserved map := by
          simp [asObserved, Tracked.exportInto, hnothing]
        rw [hsame]
        exact h.delta hmode

end Tracked

/-! ## All observers of the metric -/

namespace Worker

variable [LinearOrder K] {platform : Platform} {dyn : DynObserver K W} {inUse : Set (List K)}
  {I : Type} {meter : Meter (T := dyn.Measure) (V := dyn.Value) I dyn.cfg.initBucket}
  {map : BucketMap K dyn.Cell} {added seen : Finset K → List dyn.Measure} {w w' : Worker K W}

/-- Every observer of the metric is tallied. -/
def Tallied (dyn : DynObserver K W) (inUse : Set (List K))
    (meter : Meter (T := dyn.Measure) (V := dyn.Value) I dyn.cfg.initBucket)
    (map : BucketMap K dyn.Cell) (added seen : Finset K → List dyn.Measure) (w : Worker K W) :
    Prop :=
  ∀ t : Tracked K dyn.Value, ⟨dyn, t⟩ ∈ w.observers →
    t.Tallied dyn.cfg inUse meter map added seen

theorem Tallied.maybeExport (h : w.Tallied dyn inUse meter map added seen)
    {now after : Instant} {answer : TrySend} (hexports : w.Exports now answer)
    (hexport : w.maybeExport platform now after answer = some w') :
    w'.Tallied dyn inUse meter map added seen := by
  rcases maybeExport_cases hexport with ⟨_, rfl⟩ | ⟨hdue, rfl⟩
  · exact h
  · intro t ht
    obtain ⟨⟨d, before⟩, hbefore, hsame⟩ := List.mem_map.mp ht
    obtain ⟨rfl, hsame⟩ := (Registered.mk.injEq _ _ _ _).mp hsame
    obtain rfl := eq_of_heq hsame
    obtain ⟨rfl, hconverts⟩ := hexports hdue
    apply (h before hbefore).exportInto
    intro hnone
    obtain ⟨found, hfound, hempty⟩ := hconverts _ hbefore
    cases found with
    | none => exact hempty rfl
    | some payload => simp [batchOf, hfound, emitted] at hnone

theorem Tallied.maybeObserve [LawfulBEq dyn.Value] (h : w.Tallied dyn inUse meter map added seen)
    (hholds : BucketMap.Holds dyn.cfg inUse map added)
    (hbounded : ∀ set, Bounded meter.weight (added set)) {now after : Instant}
    {shown : Nat → (dyn : DynObserver K W) → BucketMap.Walkable K dyn.Cell}
    (hshown : ∀ n, (shown n dyn).buckets = map)
    (hobserve : w.maybeObserve platform now after shown = some w') :
    w'.Tallied dyn inUse meter map added (if w.observeTimer.due now then added else seen) := by
  unfold Worker.maybeObserve at hobserve
  by_cases hdue : w.observeTimer.due now = true
  · rw [if_pos hdue] at hobserve ⊢
    obtain ⟨time, _, rfl⟩ := Option.map_eq_some_iff.mp hobserve
    intro t ht
    obtain ⟨n, hn, hsame⟩ := List.mem_mapIdx.mp ht
    have hmem := List.getElem_mem hn
    generalize w.observers[n] = before at hmem hsame
    obtain ⟨d, before⟩ := before
    obtain ⟨rfl, hsame⟩ := (Registered.mk.injEq _ _ _ _).mp hsame
    obtain rfl := eq_of_heq hsame
    exact (h before hmem).observe hholds hbounded _ _ (hshown n)
  · rw [if_neg hdue] at hobserve ⊢
    obtain rfl := Option.some_inj.mp hobserve
    exact h

theorem Tallied.handleAdd (h : w.Tallied dyn inUse meter map added seen)
    (hholds : BucketMap.Holds dyn.cfg inUse map added) {boxed : BoxedDynObserver K W}
    (hnew : ∀ observer, boxed = ⟨dyn, observer⟩ → ∃ id kind mode now,
      mode ≠ .destructive ∧ SyncObserver.new id kind mode now = .ok observer)
    (hadd : w.handleAdd platform boxed = some w') :
    w'.Tallied dyn inUse meter map added seen := by
  obtain ⟨time, _, rfl⟩ := Option.map_eq_some_iff.mp hadd
  intro t ht
  rcases List.mem_append.mp ht with hold | hjoined
  · exact h t hold
  · obtain ⟨d, observer⟩ := boxed
    obtain ⟨rfl, hsame⟩ := (Registered.mk.injEq _ _ _ _).mp (List.mem_singleton.mp hjoined)
    obtain rfl := eq_of_heq hsame
    obtain ⟨id, kind, mode, now, hmode, hok⟩ := hnew observer rfl
    exact Tracked.tallied_join hholds hmode hok _ _

theorem Tallied.step [LawfulBEq dyn.Value] (h : w.Tallied dyn inUse meter map added seen)
    (hholds : BucketMap.Holds dyn.cfg inUse map added)
    (hbounded : ∀ set, Bounded meter.weight (added set)) {event : Event K W}
    (hdelivers : w.Delivers platform event) (hfed : event.Fed dyn map)
    (hstep : Worker.step platform w event = some w') :
    w'.Tallied dyn inUse meter map added
      (if w.observesAt (.worker event) then added else seen) := by
  cases moves_of_step hstep with
  | @wake _ _ _ _ _ observed _ hphase hclock hobserving hexporting hobserve hexport =>
      have hobserved := h.maybeObserve hholds hbounded hfed hobserve
      exact fun t ht => hobserved.maybeExport (hdelivers observed hobserve) hexport t ht
  | add hphase hadd => exact h.handleAdd hholds hfed hadd
  | shutdown hphase hclock hexporting hexport =>
      exact fun t ht => h.maybeExport hdelivers hexport t ht

end Worker

namespace Pipeline

variable [LinearOrder K] {platform : Platform} {dyn : DynObserver K W} {inUse : Set (List K)}
  {I : Type} {meter : Meter (T := dyn.Measure) (V := dyn.Value) I dyn.cfg.initBucket}

/-! ## Every run -/

/-- What an undisturbed pipeline keeps. -/
structure Keeps (inUse : Set (List K))
    (meter : Meter (T := dyn.Measure) (V := dyn.Value) I dyn.cfg.initBucket)
    (s : Pipeline dyn) : Prop where
  holds : BucketMap.Holds dyn.cfg inUse s.map s.added
  tallied : s.dispatch.worker.Tallied dyn inUse meter s.map s.added s.seen
  accounted : s.dispatch.worker.Accounted
  ledger : Dispatch.Ledger s.dispatch
  opened : Dispatch.Opened s.dispatch

theorem keeps_new (config : Config) (batchCapacity : Option ℕ+) (start : CollectorTime) :
    Keeps inUse meter (new dyn config batchCapacity start) where
  holds := BucketMap.holds_withStorage
  tallied _ ht := (List.not_mem_nil ht).elim
  accounted := Worker.accounted_new config start
  ledger := Dispatch.ledger_new config batchCapacity start true
  opened := ⟨rfl, by simp [new, Dispatch.new]⟩

theorem Keeps.step [LawfulBEq dyn.Value] (hfree : CollisionFree dyn.cfg inUse)
    {s s' : Pipeline dyn} (h : Keeps inUse meter s)
    (hbounded : ∀ set, Bounded meter.weight (s.added set)) {turn : PipelineTurn dyn}
    (hlists : ∀ value attrs, turn = .add value attrs → attrs ∈ inUse)
    (hflows : Flows platform s turn) (hstep : Pipeline.step platform s turn = some s') :
    Keeps inUse meter s' := by
  cases turn with
  | add value attrs =>
      obtain rfl := Option.some_inj.mp hstep
      have hattrs := hlists value attrs rfl
      exact ⟨h.holds.add hfree value hattrs, fun t ht => (h.tallied t ht).add hfree value hattrs,
        h.accounted, h.ledger, h.opened⟩
  | dispatch turn =>
      obtain ⟨dispatch, hdispatch, rfl⟩ := Option.map_eq_some_iff.mp hstep
      have hopen : turn ≠ .setEnabled false := by
        rintro rfl
        cases hflows
      have hledger := h.ledger.step hdispatch
      have hopened := h.opened.step hopen hdispatch
      rcases Dispatch.worker_of_step hdispatch with ⟨event, rfl, hworker⟩ | ⟨hnone, hsame⟩
      · exact ⟨h.holds, h.tallied.step h.holds hbounded hflows.1 hflows.2 hworker,
          h.accounted.step hflows.1 hworker, hledger, hopened⟩
      · have hunseen : s.dispatch.worker.observesAt turn = false := by
          cases turn with
          | worker event => exact absurd rfl (hnone event)
          | recv | gate | sent | finish | setEnabled | abort | shutdownRuntime => rfl
        refine ⟨h.holds, ?_, hsame ▸ h.accounted, hledger, hopened⟩
        simp only [hunseen, hsame]
        exact h.tallied

theorem added_step {s s' : Pipeline dyn} {turn : PipelineTurn dyn}
    (hstep : step platform s turn = some s') (set : Finset K) :
    ∃ more, s'.added set = s.added set ++ more := by
  cases turn with
  | add value attrs =>
      obtain rfl := Option.some_inj.mp hstep
      by_cases hset : set = attrs.toFinset
      · subst hset
        exact ⟨[value], by simp [BucketMap.holding]⟩
      · exact ⟨[], by simp [BucketMap.holding, Function.update_of_ne hset]⟩
  | dispatch turn =>
      obtain ⟨dispatch, _, rfl⟩ := Option.map_eq_some_iff.mp hstep
      exact ⟨[], (List.append_nil _).symm⟩

theorem added_run {s last : Pipeline dyn} {turns : List (PipelineTurn dyn)}
    (hrun : (step platform).run s turns = some last) (set : Finset K) :
    ∃ more, last.added set = s.added set ++ more := by
  refine StepFn.invariant_of_step
    (fun next : Pipeline dyn => ∃ more, next.added set = s.added set ++ more) ?_
    ⟨[], (List.append_nil _).symm⟩ hrun
  rintro turn _ middle next ⟨more, hmore⟩ hstep
  obtain ⟨later, hlater⟩ := added_step hstep set
  exact ⟨more ++ later, by rw [hlater, hmore, List.append_assoc]⟩

/-- What is kept as long as the totals at the end are within bounds. -/
theorem Keeps.run [LawfulBEq dyn.Value] (hfree : CollisionFree dyn.cfg inUse)
    {turns : List (PipelineTurn dyn)} (hlists : PipelineTurn.listsOf turns ⊆ inUse)
    {s last : Pipeline dyn} (h : Keeps inUse meter s)
    (hflows : (Pipeline.step platform).Along (Flows platform) s turns)
    (hrun : (Pipeline.step platform).run s turns = some last)
    (hbounded : ∀ set, Bounded meter.weight (last.added set)) : Keeps inUse meter last := by
  induction turns generalizing s with
  | nil =>
      obtain rfl := Option.some_inj.mp hrun
      exact h
  | cons turn rest ih =>
      obtain ⟨hflow, hlater⟩ := StepFn.along_cons.mp hflows
      rw [StepFn.run_cons] at hrun
      obtain ⟨next, hstep, hrest⟩ := Option.bind_eq_some_iff.mp hrun
      have hbefore : ∀ set, Bounded meter.weight (s.added set) := by
        intro set
        obtain ⟨more, hmore⟩ := added_step hstep set
        obtain ⟨later, hall⟩ := added_run hrest set
        have hlast := hbounded set
        rw [hall, hmore] at hlast
        exact hlast.of_append.of_append
      have hkeeps := h.step hfree hbefore
        (fun value attrs hturn => hlists ⟨value, hturn ▸ List.mem_cons_self⟩) hflow hstep
      refine ih (fun attrs hattrs => ?_) hkeeps (hlater next hstep) hrest
      obtain ⟨value, hmem⟩ := hattrs
      exact hlists ⟨value, List.mem_cons_of_mem _ hmem⟩

omit [LinearOrder K] in
/-- What an observer handed over for a batch is in that batch. -/
theorem exists_payload {w : Worker K W} (h : w.Accounted) {t : Tracked K dyn.Value}
    (ht : ⟨dyn, t⟩ ∈ w.observers) {handed : Nat × Series K dyn.Value}
    (hhanded : handed ∈ t.delivered) :
    ∃ payload batch, dyn.intoWire handed.2 w.align = some (.ok (some payload)) ∧
      w.batches[handed.1]? = some batch ∧ payload ∈ batch := by
  have hlt : handed.1 < w.batches.length := (h.observers _ ht).numbered handed hhanded
  have hbatch := List.getElem?_eq_getElem hlt
  have hmem : Worker.emitted (dyn.intoWire handed.2 w.align) ∈ w.batches[handed.1].map some := by
    rw [h.batches _ _ hbatch]
    apply List.mem_flatMap.mpr
    refine ⟨⟨dyn, t⟩, ht, List.mem_map.mpr ⟨handed, ?_, rfl⟩⟩
    exact List.mem_filter.mpr ⟨hhanded, decide_eq_true rfl⟩
  obtain ⟨payload, hpayload, hemitted⟩ := List.mem_map.mp hmem
  exact ⟨payload, _, Worker.eq_of_emitted_eq_some hemitted.symm, hbatch, hpayload⟩

/-- Once the task has ended by itself the sender was handed every batch. -/
theorem Keeps.forwarded_eq {s : Pipeline dyn} (h : Keeps inUse meter s)
    (hfinished : s.dispatch.task = .finished) :
    s.dispatch.forwarded = s.dispatch.worker.batches :=
  h.opened.forwarded.trans (h.ledger.settled hfinished).symm

/-- A delta observer that holds nothing has handed over what had been added when it was last
observed. -/
theorem Keeps.total_delivered {s : Pipeline dyn} (h : Keeps inUse meter s)
    {t : Tracked K dyn.Value} (ht : ⟨dyn, t⟩ ∈ s.dispatch.worker.observers)
    (hmode : t.observer.observeMode = .delta) (hserved : t.served ≠ [])
    (hempty : ∀ attrs, t.observer.series attrs = []) (set : Finset K) (i : I) :
    ((t.delivered.flatMap fun handed =>
        (handed.2.series (set.sort (· ≤ ·))).map Observation.value).map (meter.part i)).sum =
      totalOf meter.weight i (s.seen set) := by
  have htotal := ((h.tallied t ht).delta hmode).total set i
  rw [if_neg hserved] at htotal
  have hvalues : (t.asObserved s.map).values (set.sort (· ≤ ·)) =
      t.delivered.flatMap fun handed =>
        (handed.2.series (set.sort (· ≤ ·))).map Observation.value := by
    simp [Observed.values, Tracked.asObserved, SyncObserver.slot, hempty, List.flatMap_map]
  rw [← hvalues]
  exact htotal

/-- A counter whose observers export the snapshots without attributes. -/
def tally : DynObserver Nat (List (Observation UInt64)) where
  Cell := UInt64
  Measure := UInt64
  Value := UInt64
  cfg := plain.cfg
  intoWire series _ := some (.ok (some (series.series [])))

def deltaObserver : SyncObserver Nat UInt64 where
  startTime := 0
  seq := 0
  id := ⟨"requests", "", ""⟩
  series := fun _ => []
  lastValues := some fun _ => none
  observeMode := .delta
  kind := .counter

/-- The counter after five was added to it. -/
def fiveAdded : BucketMap.Walkable Nat tally.Cell where
  buckets := (BucketMap.withStorage tally.cfg).add tally.cfg (5 : UInt64) []
  nodup := (touched tally.cfg).nodup
  nonempty := (touched tally.cfg).nonempty
  noAttr := rfl

open Classical in
/-- What the observers are shown; those of the counter are shown its map. -/
noncomputable def shownFive (_ : Nat) (dyn : DynObserver Nat (List (Observation UInt64))) :
    BucketMap.Walkable Nat dyn.Cell :=
  if h : dyn = tally then h ▸ fiveAdded else touched dyn.cfg

/-- The observer at the end of the run. -/
noncomputable def reported (startTime ts : SystemTime) (tick : Instant) (service : Service) :
    Tracked Nat UInt64 :=
  ((Tracked.join deltaObserver startTime tick).observe tally.cfg ts service
    (shownFive 0 tally)).exportInto (some 0)

instance : LawfulBEq tally.Value := inferInstanceAs (LawfulBEq UInt64)

end Pipeline

end Ohnotel.Periodic
