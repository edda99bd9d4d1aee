/-
# Histogram cells

A histogram cell counts measurements between boundaries that were checked when the
cell was made, and keeps their sum, least and greatest.  Its content sits behind a
pointer that draining swaps; here, one operation at a time, the content is simply
replaced.

`add` and `sub` are lists of single writes to the content.  The concurrent
developments order these writes among others; taken in a row they are the operation.
-/

import Ohnotel.Atomic.Basic
import Ohnotel.Error

namespace Ohnotel.Atomic

/-- Boundaries that `checked_boundaries` accepts. -/
structure Boundaries (T : Type) [PartialOrd T] where
  values : List T
  nonempty : values ≠ []
  increasing : values.IsChain fun first second => PartialOrd.lt first second

/-- `Bucket::checked_boundaries`. -/
def checkedBoundaries {T : Type} [PartialOrd T] (boundaries : List T) :
    Except Error (Boundaries T) :=
  if h : boundaries = [] ∨
      ¬ boundaries.IsChain fun first second => PartialOrd.lt first second then
    .error .invalidHistogramBoundaries
  else
    .ok ⟨boundaries, fun hnil => h (Or.inl hnil),
      Classical.not_not.mp fun hnot => h (Or.inr hnot)⟩

theorem values_of_checkedBoundaries {T : Type} [PartialOrd T] {accepted : List T}
    {boundaries : Boundaries T} (haccepted : checkedBoundaries accepted = .ok boundaries) :
    boundaries.values = accepted := by
  rw [checkedBoundaries] at haccepted
  split at haccepted
  · cases haccepted
  · exact Except.ok.inj haccepted ▸ rfl

/-- A point-in-time view of a histogram cell. -/
structure Snapshot (T : Type) where
  boundaries : List T
  bucketCounts : List UInt64
  count : UInt64
  sum : T
  min : Option T
  max : Option T
  deriving DecidableEq

/-- Snapshots are compared by their counts alone. -/
instance {T : Type} : PartialOrd (Snapshot T) where
  partialCmp first second := PartialOrd.partialCmp first.count second.count

instance {T : Type} : IsInitial (Snapshot T) where
  isInitial snapshot := snapshot.count == 0

def saturatingSub (first second : UInt64) : UInt64 :=
  if first < second then 0 else first - second

/-- The least and the greatest cannot be recovered across a difference. -/
instance {T : Type} [Sub T] : Sub (Snapshot T) where
  sub first second :=
    { boundaries := first.boundaries
      bucketCounts := List.zipWith saturatingSub first.bucketCounts second.bucketCounts
      count := saturatingSub first.count second.count
      sum := first.sum - second.sum
      min := none
      max := none }

/-- The content of a histogram cell. -/
structure State (C : Type) where
  bucketCounts : List UInt64
  sum : C
  min : C
  max : C
  count : UInt64

/-- A cell: its boundaries, and a content with one bucket more than those. -/
structure Bucket (T C : Type) [PartialOrd T] where
  boundaries : Boundaries T
  state : State C
  sized : state.bucketCounts.length = boundaries.values.length + 1

section Measure

variable {T C : Type} [Measure T C]

/-- `partition_point`: how many boundaries are below the value. -/
def bucketIndex (boundaries : Boundaries T) (value : T) : Nat :=
  (boundaries.values.takeWhile fun boundary => PartialOrd.lt boundary value).length

theorem bucketIndex_le (boundaries : Boundaries T) (value : T) :
    bucketIndex boundaries value ≤ boundaries.values.length :=
  (List.takeWhile_sublist _).length_le

/-- A value that does not compare to itself is not recorded. -/
def comparable (value : T) : Bool := (PartialOrd.partialCmp value value).isSome

namespace State

variable (T) in
def new (bucketCount : Nat) : State C where
  bucketCounts := List.replicate bucketCount 0
  sum := Measure.ofValue (Measure.default : T)
  min := Measure.ofValue (Measure.minIdentity : T)
  max := Measure.ofValue (Measure.maxIdentity : T)
  count := 0

/-- The writes of `add`, in order. -/
def addSteps (index : Nat) (value : T) : List (State C → State C) :=
  [fun s => { s with sum := Record.add s.sum value },
    fun s => { s with min := Scalar.fetchMin s.min value },
    fun s => { s with max := Scalar.fetchMax s.max value },
    fun s => { s with bucketCounts := s.bucketCounts.modify index (· + 1) },
    fun s => { s with count := s.count + 1 }]

/-- The writes of `sub`, in order. -/
def subSteps (index : Nat) (value : T) : List (State C → State C) :=
  [fun s => { s with sum := Record.sub s.sum value },
    fun s => { s with bucketCounts := s.bucketCounts.modify index (· - 1) },
    fun s => { s with count := s.count - 1 }]

/-- Perform writes one after the other. -/
def perform (steps : List (State C → State C)) (s : State C) : State C :=
  steps.foldl (fun s step => step s) s

def snapshot (s : State C) (boundaries : Boundaries T) : Snapshot T where
  boundaries := boundaries.values
  bucketCounts := s.bucketCounts
  count := s.count
  sum := Scalar.get s.sum
  min := if s.count == 0 then none else some (Scalar.get s.min)
  max := if s.count == 0 then none else some (Scalar.get s.max)

theorem length_perform_addSteps (s : State C) (index : Nat) (value : T) :
    (s.perform (addSteps index value)).bucketCounts.length = s.bucketCounts.length :=
  List.length_modify _ _ _

theorem length_perform_subSteps (s : State C) (index : Nat) (value : T) :
    (s.perform (subSteps index value)).bucketCounts.length = s.bucketCounts.length :=
  List.length_modify _ _ _

end State

namespace Bucket

/-- `Bucket::from_checked_boundaries`. -/
def fromCheckedBoundaries (boundaries : Boundaries T) : Bucket T C where
  boundaries := boundaries
  state := State.new T (boundaries.values.length + 1)
  sized := List.length_replicate

def snapshot (bucket : Bucket T C) : Snapshot T := bucket.state.snapshot bucket.boundaries

/-- The content as it was, and the cell with a fresh one. -/
def take (bucket : Bucket T C) : Snapshot T × Bucket T C :=
  (bucket.snapshot, fromCheckedBoundaries bucket.boundaries)

def add (bucket : Bucket T C) (value : T) : Bucket T C :=
  if comparable value then
    { bucket with
      state := bucket.state.perform (State.addSteps (bucketIndex bucket.boundaries value) value)
      sized := (State.length_perform_addSteps _ _ _).trans bucket.sized }
  else bucket

def sub (bucket : Bucket T C) (value : T) : Bucket T C :=
  if comparable value then
    { bucket with
      state := bucket.state.perform (State.subSteps (bucketIndex bucket.boundaries value) value)
      sized := (State.length_perform_subSteps _ _ _).trans bucket.sized }
  else bucket

instance : Record (Bucket T C) T (Snapshot T) where
  add := add
  sub := sub
  clear bucket := bucket.take.2
  current := snapshot

end Bucket

end Measure

end Ohnotel.Atomic
