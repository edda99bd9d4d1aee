/-
# Operations of a bucket map as data

A run is a list of operations.  Performing one gives the next map and what the
caller gets back; for a drain that is the content of the buckets it took out, read
after it.
-/

import Ohnotel.BucketMap.Basic
import Ohnotel.BucketMap.SetMap
import Ohnotel.Foundation.Transition

namespace Ohnotel

open Foundation Atomic

/-- `BucketMap::with_hasher`: buckets start from the measurement's default. -/
def Config.withHasher (T : Type) {K C : Type} [Measure T C] (hasher : BuildHasher K)
    (layout : Layout) : Config K C where
  hasher := hasher
  initBucket := Measure.ofValue (Measure.default : T)
  layout := layout

/-- The callback of a visit, logging what it is shown and what it answers. -/
def logCalls {K A T V : Type} [Record A T V] (cb : Callback K V)
    (log : List (Call K V)) (e : CanonicalEntry K) (cell : A) : Bool × List (Call K V) :=
  let keep := cb log e.attrs (Record.current cell)
  (keep, log ++ [⟨e.attrs, Record.current cell, keep⟩])

/-- The attribute lists that occur in a run. -/
def listsOf {K T : Type} (ops : List (ScalarOp K T)) : Set (List K) :=
  {attrs | attrs ∈ ops.flatMap ScalarOp.lists}

namespace BucketMap

variable {K A T V : Type}

/-- The content of a drained table, read through the addresses it holds. -/
def readTable [Record A T V] (m : BucketMap K A) (table : HashTable (CanonicalEntry K)) :
    List (List K × V) :=
  table.elems.map fun e => (e.attrs, Record.current (m.cells e.bucket))

variable [LinearOrder K] (cfg : Config K A) [Scalar A T]

/-- Perform one operation and collect what it returns. -/
def exec (m : BucketMap K A) : ScalarOp K T → BucketMap K A × Out K T
  | .add value attrs => (m.add cfg value attrs, .unit)
  | .sub value attrs => (m.sub cfg value attrs, .unit)
  | .set value attrs => (m.set cfg value attrs, .unit)
  | .reset attrs => ((m.reset cfg attrs).1, .value (m.reset cfg attrs).2)
  | .clear => (m.clear, .unit)
  | .take => (m.take.1, .taken (m.take.1.readTable m.take.2.1) m.take.2.2)
  | .visitBucket cb =>
      ((m.visitBucket cfg (logCalls cb) []).1, .visited (m.visitBucket cfg (logCalls cb) []).2)

/-- Perform operations in order. -/
def execAll (m : BucketMap K A) (ops : List (ScalarOp K T)) :
    BucketMap K A × List (Out K T) :=
  performAll (exec cfg) m ops

end BucketMap

end Ohnotel
