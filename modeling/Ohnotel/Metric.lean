/-
# Metrics

A gauge and a counter are bucket maps whose operations are the map's own.  A
histogram is a bucket map of histogram cells; it reads and drains the cell of one
attribute list through `get_bucket`, without creating it.
-/

import Ohnotel.Atomic.Histogram
import Ohnotel.BucketMap.Operations

namespace Ohnotel

open Foundation Atomic

/-- What kind of metric a source is. -/
inductive Kind
  | gauge
  | counter
  | histogram
  deriving DecidableEq, Repr

/-- The operations of a histogram, with those of the map behind it.  `takeBucket`
drains the cell of one list and `take` the whole map. -/
inductive HistogramOp (K T : Type)
  | add (value : T) (attrs : List K)
  | sub (value : T) (attrs : List K)
  | takeBucket (attrs : List K)
  | clear
  | take
  | visitBucket (cb : Callback K (Snapshot T))

/-- The attribute lists that occur in an operation. -/
def HistogramOp.lists {K T : Type} : HistogramOp K T → List (List K)
  | .add _ attrs | .sub _ attrs | .takeBucket attrs => [attrs]
  | .clear | .take | .visitBucket _ => []

/-- What a histogram operation returns. -/
inductive HistogramOut (K T : Type)
  | unit
  | snapshot (found : Option (Snapshot T))
  | taken (entries : List (List K × Snapshot T)) (noAttr : Option (Snapshot T))
  | visited (calls : List (Call K (Snapshot T)))

/-- The attribute lists that occur in a run. -/
def histogramListsOf {K T : Type} (ops : List (HistogramOp K T)) : Set (List K) :=
  {attrs | attrs ∈ ops.flatMap HistogramOp.lists}

namespace Histogram

variable {K T C : Type} [Measure T C]

/-- What `Histogram::with_hasher` makes of boundaries that were checked: every new
cell starts empty under the same boundaries. -/
def storage (boundaries : Boundaries T) (hasher : BuildHasher K) (layout : Layout) :
    Config K (Bucket T C) where
  hasher := hasher
  initBucket := Bucket.fromCheckedBoundaries boundaries
  layout := layout

/-- `Histogram::with_hasher`. -/
def withHasher (boundaries : List T) (hasher : BuildHasher K) (layout : Layout) :
    Except Error (Config K (Bucket T C)) :=
  (checkedBoundaries boundaries).map fun checked => storage checked hasher layout

variable [LinearOrder K] (cfg : Config K (Bucket T C))

/-- `Histogram::snapshot`. -/
def snapshot (m : BucketMap K (Bucket T C)) (attrs : List K) : Option (Snapshot T) :=
  match m.getBucket cfg attrs with
  | .ok bucket => some (m.cells bucket).snapshot
  | .error _ => none

/-- `Histogram::take`. -/
def take (m : BucketMap K (Bucket T C)) (attrs : List K) :
    BucketMap K (Bucket T C) × Option (Snapshot T) :=
  match m.getBucket cfg attrs with
  | .ok bucket =>
      (m.modifyCell bucket fun cell => cell.take.2, some (m.cells bucket).take.1)
  | .error _ => (m, none)

/-- Perform one operation and collect what it returns. -/
def exec (m : BucketMap K (Bucket T C)) :
    HistogramOp K T → BucketMap K (Bucket T C) × HistogramOut K T
  | .add value attrs => (m.add cfg value attrs, .unit)
  | .sub value attrs => (m.sub cfg value attrs, .unit)
  | .takeBucket attrs => ((take cfg m attrs).1, .snapshot (take cfg m attrs).2)
  | .clear => (m.clear, .unit)
  | .take => (m.take.1, .taken (m.take.1.readTable m.take.2.1) m.take.2.2)
  | .visitBucket cb =>
      ((m.visitBucket cfg (logCalls cb) []).1, .visited (m.visitBucket cfg (logCalls cb) []).2)

/-- Perform operations in order. -/
def execAll (m : BucketMap K (Bucket T C)) (ops : List (HistogramOp K T)) :
    BucketMap K (Bucket T C) × List (HistogramOut K T) :=
  performAll (exec cfg) m ops

end Histogram

end Ohnotel
