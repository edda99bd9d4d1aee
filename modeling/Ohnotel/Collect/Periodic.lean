/-
# The worker of a periodic collector

A worker observes all its observers at every tick of one grid and exports them at every
tick of another; between ticks it waits for commands.  It reads the clock as it goes, and
the readings never decrease; how much later a reading is than the one before is not up to
the worker.  What an observer is shown is not up to it either: between two observations
the application may do anything to the map.

A step is one round of the loop up to the wait, or the handling of one command.
-/

import Ohnotel.Collect.Timer
import Ohnotel.Error
import Ohnotel.Foundation.Transition
import Ohnotel.Observe.Stamps

namespace Ohnotel.Periodic

open Foundation Atomic

/-- A configuration that `Collector::new` accepts. -/
structure Config where
  pollPeriod : Duration
  exportPeriod : Duration
  alignTimestamps : Bool
  pollPeriod_pos : 0 < pollPeriod
  exportPeriod_pos : 0 < exportPeriod
  poll_le_export : pollPeriod ≤ exportPeriod

/-! ## Observers and their history -/

/-- One observation: the deadline it served, the reading it was made at, and the reading
after it. -/
structure Service where
  tick : Instant
  now : Instant
  after : Instant
  deriving DecidableEq

/-- A registered observer with its history: when it joined, its observations since, the
snapshots they pushed, and the series it handed over in a batch, with the number of the
batch.  No step reads the history. -/
structure Tracked (K V : Type) where
  observer : SyncObserver K V
  joined : Instant
  served : List Service
  pushed : SeriesMap K V
  delivered : List (Nat × Series K V)

namespace Tracked

variable {K A T V : Type}

def join (observer : SyncObserver K V) (startTime : SystemTime) (tick : Instant) :
    Tracked K V where
  observer := observer.reset startTime
  joined := tick
  served := []
  pushed _ := []
  delivered := []

/-- An observation; what it pushed is what is behind what the series held before. -/
def observe [LinearOrder K] [Record A T V] [BEq V] [PartialOrd V] [Sub V] [IsInitial V]
    (cfg : Ohnotel.Config K A) (ts : SystemTime) (service : Service)
    (shown : BucketMap.Walkable K A) (t : Tracked K V) : Tracked K V :=
  let observed := (t.observer.observe cfg ts shown.buckets).2
  { t with
    observer := observed
    served := t.served ++ [service]
    pushed := fun attrs =>
      t.pushed attrs ++ (observed.series attrs).drop (t.observer.series attrs).length }

/-- An export that is put into a batch, or into none. -/
def exportInto (batch : Option Nat) (t : Tracked K V) : Tracked K V :=
  { t with
    observer := t.observer.take.1
    delivered := t.delivered ++ (batch.map fun n => (n, t.observer.take.2)).toList }

end Tracked

/-- What stands behind a `BoxedDynObserver<W>`: the types it was made for, its storage, and
its conversion to the wire format; `none` is a panic of the conversion. -/
structure DynObserver (K W : Type) : Type 1 where
  {Cell Measure Value : Type}
  [record : Record Cell Measure Value]
  [beq : BEq Value]
  [partialOrd : PartialOrd Value]
  [sub : Sub Value]
  [isInitial : IsInitial Value]
  cfg : Ohnotel.Config K Cell
  intoWire : Series K Value → Option Duration → Option (Except Error (Option W))

attribute [instance] DynObserver.record DynObserver.beq DynObserver.partialOrd DynObserver.sub
  DynObserver.isInitial

structure BoxedDynObserver (K W : Type) : Type 1 where
  dyn : DynObserver K W
  observer : SyncObserver K dyn.Value

structure Registered (K W : Type) : Type 1 where
  dyn : DynObserver K W
  tracked : Tracked K dyn.Value

variable {K W : Type} [LinearOrder K]

/-- `DynObserver::observe`. -/
def Registered.observe (ts : SystemTime) (service : Service) (r : Registered K W)
    (shown : BucketMap.Walkable K r.dyn.Cell) : Registered K W :=
  { r with tracked := r.tracked.observe r.dyn.cfg ts service shown }

omit [LinearOrder K] in
/-- The conversion in `DynObserver::export`. -/
def Registered.wire (align : Option Duration) (r : Registered K W) :
    Option (Except Error (Option W)) :=
  r.dyn.intoWire r.tracked.observer.take.2 align

/-! ## The worker -/

/-- Where the loop is. -/
inductive Phase
  | starting
  | receiving
  | stopped
  deriving DecidableEq

structure Worker (K W : Type) : Type 1 where
  phase : Phase
  /-- The latest reading of the clock. -/
  clock : Instant
  observers : List (Registered K W)
  start : CollectorTime
  observeTimer : GridTimer
  exportTimer : GridTimer
  pollPeriod : Duration
  alignTimestamps : Bool
  /-- The batches that the channel accepted. -/
  batches : List (List W)

/-- What `try_send` returns. -/
inductive TrySend
  | sent
  | full
  | closed
  deriving DecidableEq

/-- A step, with the readings of the clock, the maps that the observers are shown and the
answer of the batch channel. -/
inductive Event (K W : Type) : Type 1
  | wake (now afterObserve afterExport : Instant)
      (shown : Nat → (dyn : DynObserver K W) → BucketMap.Walkable K dyn.Cell) (answer : TrySend)
  | add (boxed : BoxedDynObserver K W)
  | shutdown (now afterExport : Instant) (answer : TrySend)

namespace Worker

omit [LinearOrder K] in
/-- The worker that `Collector::new` spawns. -/
def new (config : Config) (start : CollectorTime) : Worker K W where
  phase := .starting
  clock := start.instant
  observers := []
  start := start
  observeTimer := GridTimer.new start.instant config.pollPeriod
  exportTimer := GridTimer.new start.instant config.exportPeriod
  pollPeriod := config.pollPeriod
  alignTimestamps := config.alignTimestamps
  batches := []

variable (platform : Platform)

/-- `Worker::maybe_observe`. -/
def maybeObserve (now after : Instant)
    (shown : Nat → (dyn : DynObserver K W) → BucketMap.Walkable K dyn.Cell) (w : Worker K W) :
    Option (Worker K W) :=
  if w.observeTimer.due now then
    (w.start.atInstant platform now).map fun time =>
      { w with
        observers := w.observers.mapIdx fun n r =>
          r.observe time.system ⟨w.observeTimer.deadline, now, after⟩ (shown n r.dyn)
        observeTimer := w.observeTimer.advance platform after }
  else some w

omit [LinearOrder K] in
def align (w : Worker K W) : Option Duration :=
  if w.alignTimestamps then some w.pollPeriod else none

omit [LinearOrder K] in
/-- The payload of a conversion that succeeded and found something to emit. -/
def emitted : Option (Except Error (Option W)) → Option W
  | some (.ok found) => found
  | some (.error _) | none => none

omit [LinearOrder K] in
theorem eq_of_emitted_eq_some {answer : Option (Except Error (Option W))} {payload : W}
    (h : emitted answer = some payload) : answer = some (.ok (some payload)) := by
  match answer, h with
  | some (.ok (some _)), rfl => rfl

omit [LinearOrder K] in
/-- What the observers have to export. -/
def batch (w : Worker K W) : List W := w.observers.filterMap fun r => emitted (r.wire w.align)

omit [LinearOrder K] in
/-- The number of the batch that an observer's series goes into, if it goes into one. -/
def batchOf (w : Worker K W) (answer : TrySend) (r : Registered K W) : Option Nat :=
  if answer = .sent ∧ (emitted (r.wire w.align)).isSome then some w.batches.length else none

omit [LinearOrder K] in
/-- The worker after an export in which every conversion returned. -/
def exported (after : Instant) (answer : TrySend) (w : Worker K W) : Worker K W :=
  { w with
    observers := w.observers.map fun r =>
      { r with tracked := r.tracked.exportInto (w.batchOf answer r) }
    batches :=
      if w.batch ≠ [] ∧ answer = .sent then w.batches ++ [w.batch] else w.batches
    exportTimer := w.exportTimer.advance platform after }

omit [LinearOrder K] in
/-- `Worker::maybe_export`. -/
def maybeExport (now after : Instant) (answer : TrySend) (w : Worker K W) :
    Option (Worker K W) :=
  if w.exportTimer.due now then
    if w.observers.any fun r => (r.wire w.align).isNone then none
    else some (w.exported platform after answer)
  else some w

omit [LinearOrder K] in
/-- The branch of `Worker::handle` for `Add`. -/
def handleAdd (boxed : BoxedDynObserver K W) (w : Worker K W) : Option (Worker K W) :=
  let nextTick := w.observeTimer.deadline
  (w.start.atInstant platform nextTick).map fun time =>
    { w with
      observers := w.observers ++ [⟨boxed.dyn, .join boxed.observer time.system nextTick⟩] }

/-- One step of `Worker::block`.  No step is taken out of order, against the clock or
into a panic. -/
def step : StepFn (Worker K W) (Event K W)
  | w, .wake now afterObserve afterExport shown answer =>
      if w.phase ≠ .stopped ∧ w.clock ≤ now ∧ now ≤ afterObserve ∧ afterObserve ≤ afterExport then
        ((w.maybeObserve platform now afterObserve shown).bind fun w =>
          w.maybeExport platform now afterExport answer).map fun w =>
            { w with phase := .receiving, clock := afterExport }
      else none
  | w, .add boxed => if w.phase = .receiving then w.handleAdd platform boxed else none
  | w, .shutdown now afterExport answer =>
      if w.phase = .receiving ∧ w.clock ≤ now ∧ now ≤ afterExport then
        (w.maybeExport platform now afterExport answer).map fun w =>
          { w with phase := .stopped, clock := afterExport }
      else none

/-- What each step does. -/
inductive Moves (w : Worker K W) : Event K W → Worker K W → Prop
  | wake {now afterObserve afterExport : Instant}
      {shown : Nat → (dyn : DynObserver K W) → BucketMap.Walkable K dyn.Cell} {answer : TrySend}
      {observed exported : Worker K W} (hphase : w.phase ≠ .stopped) (hclock : w.clock ≤ now)
      (hobserving : now ≤ afterObserve) (hexporting : afterObserve ≤ afterExport)
      (hobserve : w.maybeObserve platform now afterObserve shown = some observed)
      (hexport : observed.maybeExport platform now afterExport answer = some exported) :
      Moves w (.wake now afterObserve afterExport shown answer)
        { exported with phase := .receiving, clock := afterExport }
  | add {boxed : BoxedDynObserver K W} {w' : Worker K W} (hphase : w.phase = .receiving)
      (hadd : w.handleAdd platform boxed = some w') : Moves w (.add boxed) w'
  | shutdown {now afterExport : Instant} {answer : TrySend} {exported : Worker K W}
      (hphase : w.phase = .receiving) (hclock : w.clock ≤ now) (hexporting : now ≤ afterExport)
      (hexport : w.maybeExport platform now afterExport answer = some exported) :
      Moves w (.shutdown now afterExport answer)
        { exported with phase := .stopped, clock := afterExport }

variable {platform}

theorem moves_of_step {w w' : Worker K W} {event : Event K W}
    (hstep : step platform w event = some w') : Moves platform w event w' := by
  cases event with
  | wake now afterObserve afterExport shown answer =>
      rw [step] at hstep
      split at hstep
      · next hclock =>
          obtain ⟨hphase, hclock, hobserving, hexporting⟩ := hclock
          obtain ⟨exported, hbind, rfl⟩ := Option.map_eq_some_iff.mp hstep
          obtain ⟨observed, hobserve, hexport⟩ := Option.bind_eq_some_iff.mp hbind
          exact .wake hphase hclock hobserving hexporting hobserve hexport
      · cases hstep
  | add boxed =>
      rw [step] at hstep
      split at hstep
      · next hphase => exact .add hphase hstep
      · cases hstep
  | shutdown now afterExport answer =>
      rw [step] at hstep
      split at hstep
      · next hclock =>
          obtain ⟨exported, hexport, rfl⟩ := Option.map_eq_some_iff.mp hstep
          exact .shutdown hclock.1 hclock.2.1 hclock.2.2 hexport
      · cases hstep

/-- A round, from what its observation and its export do. -/
theorem step_wake {w observed exported : Worker K W} {now afterObserve afterExport : Instant}
    {shown : Nat → (dyn : DynObserver K W) → BucketMap.Walkable K dyn.Cell} {answer : TrySend}
    (hphase : w.phase ≠ .stopped) (hclock : w.clock ≤ now) (hobserving : now ≤ afterObserve)
    (hexporting : afterObserve ≤ afterExport)
    (hobserve : w.maybeObserve platform now afterObserve shown = some observed)
    (hexport : observed.maybeExport platform now afterExport answer = some exported) :
    step platform w (.wake now afterObserve afterExport shown answer) =
      some { exported with phase := .receiving, clock := afterExport } := by
  rw [step, if_pos ⟨hphase, hclock, hobserving, hexporting⟩, hobserve, Option.bind_some, hexport,
    Option.map_some]

omit [LinearOrder K] in
/-- An export that is not due does nothing, and one in which no conversion panics exports. -/
theorem maybeExport_cases {w w' : Worker K W} {now after : Instant} {answer : TrySend}
    (hexport : w.maybeExport platform now after answer = some w') :
    (w.exportTimer.due now = false ∧ w' = w) ∨
      (w.exportTimer.due now = true ∧ w' = w.exported platform after answer) := by
  rw [maybeExport] at hexport
  split at hexport
  · next hdue =>
      split at hexport
      · cases hexport
      · exact Or.inr ⟨hdue, (Option.some_inj.mp hexport).symm⟩
  · next hdue => exact Or.inl ⟨by simpa using hdue, (Option.some_inj.mp hexport).symm⟩

/-- What holds of an observer that joins and is kept by its observations and exports holds
of all observers. -/
theorem forall_observers_step {P : Registered K W → Prop} {w w' : Worker K W} {event : Event K W}
    (hjoin : ∀ (boxed : BoxedDynObserver K W) startTime tick,
      P ⟨boxed.dyn, .join boxed.observer startTime tick⟩)
    (hobserve : ∀ r ts service shown, P r → P (r.observe ts service shown))
    (hexport : ∀ r batch, P r → P { r with tracked := r.tracked.exportInto batch })
    (h : ∀ r ∈ w.observers, P r) (hstep : step platform w event = some w') :
    ∀ r ∈ w'.observers, P r := by
  have hexported : ∀ {v v' : Worker K W} {now after : Instant} {answer : TrySend},
      v.maybeExport platform now after answer = some v' →
      (∀ r ∈ v.observers, P r) → ∀ r ∈ v'.observers, P r := by
    intro v v' now after answer hexported hv r hr
    rcases maybeExport_cases hexported with ⟨_, rfl⟩ | ⟨_, rfl⟩
    · exact hv r hr
    · obtain ⟨before, hbefore, rfl⟩ := List.mem_map.mp hr
      exact hexport before _ (hv before hbefore)
  cases moves_of_step hstep with
  | @wake _ _ _ _ _ observed _ hphase hclock hobserving hexporting hobserved hexport =>
      have hall : ∀ r ∈ observed.observers, P r := by
        rw [maybeObserve] at hobserved
        split at hobserved
        · obtain ⟨time, _, rfl⟩ := Option.map_eq_some_iff.mp hobserved
          intro r hr
          obtain ⟨n, hn, rfl⟩ := List.mem_mapIdx.mp hr
          exact hobserve _ _ _ _ (h _ (List.getElem_mem hn))
        · obtain rfl := Option.some_inj.mp hobserved
          exact h
      exact fun r hr => hexported hexport hall r hr
  | add hphase hadd =>
      obtain ⟨time, _, rfl⟩ := Option.map_eq_some_iff.mp hadd
      intro r hr
      rcases List.mem_append.mp hr with hold | hnew
      · exact h r hold
      · obtain rfl := List.mem_singleton.mp hnew
        exact hjoin _ _ _
  | shutdown hphase hclock hexporting hexport =>
      exact fun r hr => hexported hexport h r hr

end Worker

end Ohnotel.Periodic
