/-
# Aggregates

What a snapshot says about the values it was made of.  The counts do not depend on
the order in which values were recorded.  The sum, the least and the greatest are
each accumulated in some order, and concurrent adds may reach them in different
orders; where accumulation does not depend on the order, the aggregate is the
snapshot of a cell that recorded the values one after the other.
-/

import Mathlib.Algebra.BigOperators.Group.List.Basic
import Mathlib.Data.List.Induction
import Mathlib.Data.List.Perm.Basic
import Ohnotel.Atomic.Histogram

namespace Ohnotel.Atomic

variable {T C : Type} [Measure T C]

/-- The snapshot aggregates the values, and nothing else. -/
structure IsAggregate (boundaries : Boundaries T) (values : List T)
    (snapshot : Snapshot T) : Prop where
  boundaries_eq : snapshot.boundaries = boundaries.values
  bucketCounts_eq : snapshot.bucketCounts =
    (List.range (boundaries.values.length + 1)).map fun index =>
      UInt64.ofNat (values.countP fun value => bucketIndex boundaries value = index)
  count_eq : snapshot.count = UInt64.ofNat values.length
  sum_eq : ∃ order : List T, order.Perm values ∧
    snapshot.sum = Scalar.get (order.foldl Record.add (Measure.ofValue (Measure.default : T)))
  min_eq : ∃ order : List T, order.Perm values ∧
    snapshot.min = if snapshot.count == 0 then none else
      some (Scalar.get (order.foldl Scalar.fetchMin (Measure.ofValue (Measure.minIdentity : T))))
  max_eq : ∃ order : List T, order.Perm values ∧
    snapshot.max = if snapshot.count == 0 then none else
      some (Scalar.get (order.foldl Scalar.fetchMax (Measure.ofValue (Measure.maxIdentity : T))))

theorem sum_ite_range (found size : Nat) (hlt : found < size) :
    ((List.range size).map fun index => if found = index then 1 else 0).sum = 1 := by
  induction size with
  | zero => omega
  | succ size ih =>
      rw [List.range_succ, List.map_append, List.sum_append]
      by_cases hlast : found = size
      · subst hlast
        have hzero : ((List.range found).map fun index => if found = index then 1 else 0) =
            List.replicate found 0 := by
          apply List.eq_replicate_iff.mpr
          constructor
          · simp
          · intro entry hentry
            obtain ⟨index, hindex, rfl⟩ := List.mem_map.mp hentry
            rw [if_neg (by have := List.mem_range.mp hindex; omega)]
        simp [hzero]
      · rw [ih (by omega)]
        simp [hlast]

/-- Every value is counted in one bucket. -/
theorem sum_countP_bucketIndex (boundaries : Boundaries T) (values : List T) :
    ((List.range (boundaries.values.length + 1)).map fun index =>
      values.countP fun value => bucketIndex boundaries value = index).sum = values.length := by
  induction values with
  | nil => simp
  | cons value rest ih =>
      simp only [List.countP_cons, decide_eq_true_eq, List.sum_map_add, ih]
      rw [sum_ite_range _ _ (Nat.lt_succ_of_le (bucketIndex_le boundaries value))]
      rfl

theorem ofNat_sum (counts : List Nat) :
    UInt64.ofNat counts.sum = (counts.map UInt64.ofNat).sum := by
  induction counts with
  | nil => rfl
  | cons count rest ih => simp [UInt64.ofNat_add, ih]

/-- The bucket counts of an aggregate add up to its count. -/
theorem IsAggregate.count_eq_sum {boundaries : Boundaries T} {values : List T}
    {snapshot : Snapshot T} (h : IsAggregate boundaries values snapshot) :
    snapshot.count = snapshot.bucketCounts.sum := by
  rw [h.count_eq, ← sum_countP_bucketIndex boundaries, ofNat_sum, h.bucketCounts_eq,
    List.map_map]
  rfl

theorem toNat_ofNat_countP {values : List T} (hfew : values.length < 2 ^ 64) (p : T → Bool) :
    (UInt64.ofNat (values.countP p)).toNat = values.countP p := by
  rw [UInt64.toNat_ofNat']
  exact Nat.mod_eq_of_lt (lt_of_le_of_lt List.countP_le_length hfew)

/-- As numbers, while fewer values were recorded than a word can count. -/
theorem IsAggregate.toNat_count {boundaries : Boundaries T} {values : List T}
    {snapshot : Snapshot T} (h : IsAggregate boundaries values snapshot)
    (hfew : values.length < 2 ^ 64) :
    snapshot.count.toNat = values.length ∧
      snapshot.count.toNat = (snapshot.bucketCounts.map UInt64.toNat).sum := by
  have hcount : snapshot.count.toNat = values.length := by
    rw [h.count_eq, UInt64.toNat_ofNat', Nat.mod_eq_of_lt hfew]
  refine ⟨hcount, ?_⟩
  rw [hcount, h.bucketCounts_eq, List.map_map, ← sum_countP_bucketIndex boundaries values]
  congr 1
  apply List.map_congr_left
  intro index _
  exact (toNat_ofNat_countP hfew _).symm

/-! ## Values recorded one after the other -/

/-- The content after values were recorded one after the other. -/
theorem state_foldl_add (boundaries : Boundaries T) {values : List T}
    (hvalues : ∀ value ∈ values, comparable value) :
    (values.foldl Bucket.add (Bucket.fromCheckedBoundaries boundaries)).boundaries = boundaries ∧
      (values.foldl Bucket.add (Bucket.fromCheckedBoundaries boundaries)).state =
        { bucketCounts := (List.range (boundaries.values.length + 1)).map fun index =>
            UInt64.ofNat (values.countP fun value => bucketIndex boundaries value = index)
          sum := values.foldl Record.add (Measure.ofValue (Measure.default : T))
          min := values.foldl Scalar.fetchMin (Measure.ofValue (Measure.minIdentity : T))
          max := values.foldl Scalar.fetchMax (Measure.ofValue (Measure.maxIdentity : T))
          count := UInt64.ofNat values.length } := by
  induction values using List.reverseRecOn with
  | nil => simp [Bucket.fromCheckedBoundaries, State.new, List.map_const']
  | append_singleton values value ih =>
      obtain ⟨hboundaries, hstate⟩ := ih fun earlier hin => hvalues earlier (by simp [hin])
      have hcomparable : comparable value := hvalues value (by simp)
      rw [List.foldl_append, List.foldl_cons, List.foldl_nil, Bucket.add, if_pos hcomparable]
      refine ⟨hboundaries, ?_⟩
      simp only [hstate, hboundaries, State.perform, State.addSteps, List.foldl_cons,
        List.foldl_nil, List.foldl_append, List.length_append, List.length_singleton,
        UInt64.ofNat_add, State.mk.injEq, true_and]
      refine ⟨?_, rfl⟩
      apply List.ext_getElem
      · simp
      · intro index hleft hright
        rw [List.getElem_modify]
        by_cases hindex : bucketIndex boundaries value = index
        · simp [hindex, UInt64.ofNat_add]
        · simp [hindex]

/-- A cell that recorded values one after the other holds their aggregate. -/
theorem isAggregate_foldl_add (boundaries : Boundaries T) {values : List T}
    (hvalues : ∀ value ∈ values, comparable value) :
    IsAggregate boundaries values
      (values.foldl Bucket.add (Bucket.fromCheckedBoundaries boundaries)).snapshot := by
  obtain ⟨hboundaries, hstate⟩ := state_foldl_add boundaries hvalues
  rw [Bucket.snapshot, State.snapshot, hboundaries, hstate]
  exact ⟨rfl, rfl, rfl, ⟨values, List.Perm.refl _, rfl⟩, ⟨values, List.Perm.refl _, rfl⟩,
    ⟨values, List.Perm.refl _, rfl⟩⟩

section Commutative

variable [RightCommutative (Record.add : C → T → C)]
  [RightCommutative (Scalar.fetchMin : C → T → C)]
  [RightCommutative (Scalar.fetchMax : C → T → C)]

/-- Where accumulation does not depend on the order, values have one aggregate. -/
theorem IsAggregate.unique {boundaries : Boundaries T} {values : List T}
    {first second : Snapshot T} (hfirst : IsAggregate boundaries values first)
    (hsecond : IsAggregate boundaries values second) : first = second := by
  obtain ⟨sums, hsums, hsum⟩ := hfirst.sum_eq
  obtain ⟨sums', hsums', hsum'⟩ := hsecond.sum_eq
  obtain ⟨mins, hmins, hmin⟩ := hfirst.min_eq
  obtain ⟨mins', hmins', hmin'⟩ := hsecond.min_eq
  obtain ⟨maxs, hmaxs, hmax⟩ := hfirst.max_eq
  obtain ⟨maxs', hmaxs', hmax'⟩ := hsecond.max_eq
  have hcount : first.count = second.count := hfirst.count_eq.trans hsecond.count_eq.symm
  rw [(hsums.trans hsums'.symm).foldl_eq, ← hsum'] at hsum
  rw [(hmins.trans hmins'.symm).foldl_eq, hcount, ← hmin'] at hmin
  rw [(hmaxs.trans hmaxs'.symm).foldl_eq, hcount, ← hmax'] at hmax
  cases first
  cases second
  simp only [Snapshot.mk.injEq]
  exact ⟨hfirst.boundaries_eq.trans hsecond.boundaries_eq.symm,
    hfirst.bucketCounts_eq.trans hsecond.bucketCounts_eq.symm, hcount, hsum, hmin, hmax⟩

end Commutative

/-! ## Integers -/

/-- Measurements that are integers and are compared as such. -/
class IntegerMeasure (T : Type) [PartialOrd T] where
  toInt : T → Int
  lt_eq : ∀ first second : T,
    PartialOrd.lt first second = decide (toInt first < toInt second)
  comparable : ∀ value : T, (PartialOrd.partialCmp value value).isSome

open IntegerMeasure in
/-- In boundaries that increase, a value is below the boundary of an index exactly if no
more boundaries than that are below the value. -/
theorem length_takeWhile_le_iff [IntegerMeasure T] {boundaries : List T}
    (hincreasing : boundaries.Pairwise fun first second => toInt first < toInt second)
    (value : T) {index : Nat} (hindex : index < boundaries.length) :
    (boundaries.takeWhile fun boundary => PartialOrd.lt boundary value).length ≤ index ↔
      toInt value ≤ toInt boundaries[index] := by
  induction boundaries generalizing index with
  | nil => simp at hindex
  | cons boundary rest ih =>
      obtain ⟨hfirst, hrest⟩ := List.pairwise_cons.mp hincreasing
      by_cases hlt : toInt boundary < toInt value
      · rw [List.takeWhile_cons_of_pos (by simpa [lt_eq] using hlt), List.length_cons]
        cases index with
        | zero => simpa using hlt
        | succ index =>
            rw [Nat.succ_le_succ_iff, ih hrest (Nat.lt_of_succ_lt_succ hindex)]
            rfl
      · rw [List.takeWhile_cons_of_neg (by simpa [lt_eq] using hlt)]
        cases index with
        | zero => simpa using hlt
        | succ index =>
            have hlater := hfirst _ (List.getElem_mem (Nat.lt_of_succ_lt_succ hindex))
            simp only [List.length_nil, Nat.zero_le, true_iff, List.getElem_cons_succ]
            omega

open IntegerMeasure in
theorem Boundaries.pairwise_toInt [PartialOrd T] [IntegerMeasure T] (boundaries : Boundaries T) :
    boundaries.values.Pairwise fun first second => toInt first < toInt second := by
  have htrans : IsTrans T fun first second => toInt first < toInt second :=
    ⟨fun _ _ _ => Int.lt_trans⟩
  exact List.isChain_iff_pairwise.mp (boundaries.increasing.imp fun _ _ hlt => by
    simpa [lt_eq] using hlt)

open IntegerMeasure in
theorem bucketIndex_le_iff [IntegerMeasure T] (boundaries : Boundaries T) (value : T) {index : Nat}
    (hindex : index < boundaries.values.length) :
    bucketIndex boundaries value ≤ index ↔ toInt value ≤ toInt boundaries.values[index] :=
  length_takeWhile_le_iff boundaries.pairwise_toInt value hindex

instance : IntegerMeasure UInt64 where
  toInt value := value.toNat
  lt_eq first second := by
    have hcompare : compare first second = .lt ↔ first < second := compareOfLessAndEq_eq_lt
    simp [PartialOrd.lt, PartialOrd.partialCmp, hcompare, UInt64.lt_iff_toNat_lt,
      Bool.beq_eq_decide_eq]
  comparable _ := rfl

instance : IntegerMeasure Int64 where
  toInt := Int64.toInt
  lt_eq first second := by
    have hcompare : compare first second = .lt ↔ first < second := compareOfLessAndEq_eq_lt
    simp [PartialOrd.lt, PartialOrd.partialCmp, hcompare, Int64.lt_iff_toInt_lt,
      Bool.beq_eq_decide_eq]
  comparable _ := rfl

instance : RightCommutative (Record.add : UInt64 → UInt64 → UInt64) :=
  ⟨fun cell first second => by simp only [add_uint64, UInt64.add_assoc, UInt64.add_comm first]⟩

instance : RightCommutative (Scalar.fetchMin : UInt64 → UInt64 → UInt64) :=
  ⟨fun cell first second => by simp only [Scalar.fetchMin]; grind⟩

instance : RightCommutative (Scalar.fetchMax : UInt64 → UInt64 → UInt64) :=
  ⟨fun cell first second => by simp only [Scalar.fetchMax]; grind⟩

instance : RightCommutative (Record.add : Int64 → Int64 → Int64) :=
  ⟨fun cell first second => by
    simp only [Record.add, Int64.add_assoc, Int64.add_comm first]⟩

instance : RightCommutative (Scalar.fetchMin : Int64 → Int64 → Int64) :=
  ⟨fun cell first second => by simp only [Scalar.fetchMin]; grind⟩

instance : RightCommutative (Scalar.fetchMax : Int64 → Int64 → Int64) :=
  ⟨fun cell first second => by simp only [Scalar.fetchMax]; grind⟩

end Ohnotel.Atomic
