/-
# Observing a metric

An observer reads the bucket map of one metric, time after time, and keeps what it
read until the next export.  In direct mode it keeps what it reads; in delta mode it
keeps the difference to what it read the time before, which it remembers for each
attribute list; in destructive mode it drains the map.

The observer's two maps are keyed by the attribute lists of canonical entries.  An
entry of the series is only ever created to push to it, so a missing one is the
empty list.
-/

import Ohnotel.Metric

namespace Ohnotel

open Foundation Atomic

/-- A point in time, in nanoseconds from the epoch on.  It may lie before the epoch. -/
abbrev SystemTime : Type := Int

/-- The identity of a metric. -/
structure NameIdentity where
  name : String
  description : String
  unit : String
  deriving DecidableEq

inductive Mode
  | direct
  | delta
  | destructive
  deriving DecidableEq

/-- `dto::Snapshot`: one observed value. -/
structure Observation (V : Type) where
  ts : SystemTime
  seqId : UInt64
  value : V

abbrev SeriesMap (K V : Type) : Type := List K → List (Observation V)

abbrev LastValueMap (K V : Type) : Type := List K → Option V

/-- `dto::Series`: what an export hands on. -/
structure Series (K V : Type) where
  startTime : SystemTime
  id : NameIdentity
  series : SeriesMap K V
  observeMode : Mode
  kind : Kind

/-- An observer, apart from the map it reads. -/
structure SyncObserver (K V : Type) where
  startTime : SystemTime
  seq : UInt64
  id : NameIdentity
  series : SeriesMap K V
  lastValues : Option (LastValueMap K V)
  observeMode : Mode
  kind : Kind

namespace SyncObserver

variable {K A T V : Type}

/-- `SyncObserver::new`. -/
def new (id : NameIdentity) (kind : Kind) (observeMode : Mode) (now : SystemTime) :
    Except Error (SyncObserver K V) :=
  -- Delta for a gauge does not make sense.
  if observeMode = .delta ∧ kind = .gauge then .error .deltaForGauge
  else .ok
    { startTime := now
      seq := 0
      id := id
      series := fun _ => []
      lastValues :=
        match observeMode with
        | .direct | .destructive => none
        | .delta => some fun _ => none
      observeMode := observeMode
      kind := kind }

/-- `SyncObserver::reset`. -/
def reset (o : SyncObserver K V) (startTime : SystemTime) : SyncObserver K V :=
  { o with
    startTime := startTime
    seq := 0
    series := fun _ => []
    lastValues := o.lastValues.map fun _ _ => none }

variable [LinearOrder K]

/-- `series.entry(attrs).or_default().push(..)`. -/
def push (o : SyncObserver K V) (ts : SystemTime) (attrs : List K) (value : V) :
    SyncObserver K V :=
  { o with
    series := Function.update o.series attrs
      (o.series attrs ++ [{ ts := ts, seqId := o.seq, value := value }]) }

section Record

variable [Record A T V] [BEq V] [PartialOrd V] [Sub V] [IsInitial V]

/-- The callback that `observe_impl` passes to `visit_bucket`. -/
def observeEntry (ts : SystemTime) (o : SyncObserver K V) (e : CanonicalEntry K) (cell : A) :
    Bool × SyncObserver K V :=
  let current := Record.current cell
  match o.lastValues with
  | none => (true, o.push ts e.attrs current)
  | some lastValues =>
      let replaced :=
        { o with lastValues := some (Function.update lastValues e.attrs (some current)) }
      match lastValues e.attrs with
      | none => (true, replaced.push ts e.attrs current)
      | some prev =>
          if prev == current then (true, o)
          else
            (true, replaced.push ts e.attrs
              (if PartialOrd.lt prev current then current - prev else current))

/-- What `observe_destructive` does with one entry of the table it has drained. -/
def observeDrained (ts : SystemTime) (o : SyncObserver K V) (drained : List K × V) :
    SyncObserver K V :=
  if IsInitial.isInitial drained.2 then o else o.push ts drained.1 drained.2

/-- The end of `observe_destructive`: the value of the empty list, if it was touched. -/
def observeNoAttr (ts : SystemTime) (o : SyncObserver K V) (noAttrVal : Option V) :
    SyncObserver K V :=
  let o :=
    match noAttrVal with
    | some value => o.push ts [] value
    | none => o
  { o with seq := o.seq + 1 }

/-- `SyncObserver::observe_destructive`. -/
def observeDestructive (ts : SystemTime) (m : BucketMap K A) (o : SyncObserver K V) :
    BucketMap K A × SyncObserver K V :=
  let taken := m.take
  (taken.1,
    ((taken.1.readTable taken.2.1).foldl (observeDrained ts) o).observeNoAttr ts taken.2.2)

/-- `SyncObserver::observe_impl`. -/
def observe (cfg : Config K A) (ts : SystemTime) (m : BucketMap K A) (o : SyncObserver K V) :
    BucketMap K A × SyncObserver K V :=
  if o.observeMode = .destructive then observeDestructive ts m o
  else
    let visited := m.visitBucket cfg (observeEntry ts) o
    (visited.1, { visited.2 with seq := visited.2.seq + 1 })

end Record

omit [LinearOrder K] in
/-- `SyncObserver::take`, the part of an export that is the observer's own. -/
def take (o : SyncObserver K V) : SyncObserver K V × Series K V :=
  ({ o with series := fun _ => [] },
    { startTime := o.startTime
      id := o.id
      series := o.series
      observeMode := o.observeMode
      kind := o.kind })

end SyncObserver

end Ohnotel
