/-
# What a histogram cell of integers means

A cell keeps five fields, each written on its own.  Between two drains they describe
one list of values: how many fell between which boundaries, how many there were, their
sum, the least and the greatest.  This module says so in terms of the integers the
values are, and proves that every snapshot of a cell that is only added to and drained
is that description.

Counts are 64-bit words and wrap, so 2^64 values count as none.
-/

import Mathlib.Data.List.MinMax
import Ohnotel.Atomic.Aggregate

namespace Ohnotel.Atomic

open IntegerMeasure

/-- The integers `impl_atomic_integer!` is expanded for: words under wrapping
arithmetic, with the bounds of the type as identities. -/
class WordMeasure (T : Type) [Measure T T] extends IntegerMeasure T where
  /-- The word an integer wraps to. -/
  ofInt : Int → T
  ofInt_toInt : ∀ value : T, ofInt (toInt value) = value
  ofInt_add : ∀ first second : Int,
    ofInt (first + second) = Record.add (ofInt first) (ofInt second)
  add_sub_cancel : ∀ cell value : T, Record.sub (Record.add cell value) value = cell
  get_eq : ∀ cell : T, Scalar.get cell = cell
  ofValue_eq : ∀ value : T, Measure.ofValue value = value
  default_eq : Measure.default = ofInt 0
  fetchMin_eq : ∀ cell value : T,
    Scalar.fetchMin cell value = if toInt value < toInt cell then value else cell
  fetchMax_eq : ∀ cell value : T,
    Scalar.fetchMax cell value = if toInt cell < toInt value then value else cell
  le_minIdentity : ∀ value : T, toInt value ≤ toInt (Measure.minIdentity : T)
  maxIdentity_le : ∀ value : T, toInt (Measure.maxIdentity : T) ≤ toInt value
  identity_lt : toInt (Measure.maxIdentity : T) < toInt (Measure.minIdentity : T)

instance : WordMeasure UInt64 where
  ofInt := UInt64.ofInt
  ofInt_toInt value := by
    apply UInt64.toNat_inj.mp
    have hlt := value.toNat_lt
    simp only [toInt, UInt64.ofInt, UInt64.toNat_ofNat']
    omega
  ofInt_add := UInt64.ofInt_add
  add_sub_cancel := UInt64.add_sub_cancel
  get_eq _ := rfl
  ofValue_eq _ := rfl
  default_eq := rfl
  fetchMin_eq cell value := by
    simp [Scalar.fetchMin, toInt, UInt64.lt_iff_toNat_lt]
  fetchMax_eq cell value := by
    simp [Scalar.fetchMax, toInt, UInt64.lt_iff_toNat_lt]
  le_minIdentity value := by
    have hlt := value.toNat_lt
    simp only [toInt, Measure.minIdentity]
    exact_mod_cast Nat.le_of_lt_succ hlt
  maxIdentity_le value := by simp [toInt, Measure.maxIdentity]
  identity_lt := by decide

instance : WordMeasure Int64 where
  ofInt := Int64.ofInt
  ofInt_toInt value := by simp [toInt]
  ofInt_add := Int64.ofInt_add
  add_sub_cancel := Int64.add_sub_cancel
  get_eq _ := rfl
  ofValue_eq _ := rfl
  default_eq := rfl
  fetchMin_eq cell value := by
    simp [Scalar.fetchMin, toInt, Int64.lt_iff_toInt_lt]
  fetchMax_eq cell value := by
    simp [Scalar.fetchMax, toInt, Int64.lt_iff_toInt_lt]
  le_minIdentity value := by
    simpa [toInt, Measure.minIdentity] using Int64.toInt_le value
  maxIdentity_le value := by
    simpa [toInt, Measure.maxIdentity] using Int64.le_toInt value
  identity_lt := by decide

section Word

variable {T : Type} [Measure T T] [WordMeasure T]

theorem toInt_injective : Function.Injective (toInt : T → Int) :=
  Function.LeftInverse.injective WordMeasure.ofInt_toInt

/-! ## The reference -/

/-- The order by which `argmin` computes; other paths to it in the library do not compute. -/
local instance intPreorder : Preorder Int := Int.instLinearOrder.toPreorder

/-- The value is above the boundary before the index, if there is one, and not above
the boundary of the index, if there is one. -/
def InBucket (boundaries : Boundaries T) (index : Nat) (value : T) : Prop :=
  (∀ below ∈ boundaries.values[index - 1]?, 0 < index → toInt below < toInt value) ∧
    ∀ upTo ∈ boundaries.values[index]?, toInt value ≤ toInt upTo

instance (boundaries : Boundaries T) (index : Nat) (value : T) :
    Decidable (InBucket boundaries index value) :=
  inferInstanceAs (Decidable (_ ∧ _))

/-- What a list of values amounts to, counted in words. -/
def reference (boundaries : Boundaries T) (values : List T) : Snapshot T where
  boundaries := boundaries.values
  bucketCounts := (List.range (boundaries.values.length + 1)).map fun index =>
    UInt64.ofNat (values.countP fun value => InBucket boundaries index value)
  count := UInt64.ofNat values.length
  sum := WordMeasure.ofInt (values.map toInt).sum
  min := if 2 ^ 64 ∣ values.length then none else values.argmin toInt
  max := if 2 ^ 64 ∣ values.length then none else values.argmax toInt

/-- What a list of values amounts to, in numbers. -/
structure Exact (boundaries : Boundaries T) (values : List T) (snapshot : Snapshot T) :
    Prop where
  length : snapshot.bucketCounts.length = boundaries.values.length + 1
  bucketCounts : ∀ index (h : index < snapshot.bucketCounts.length),
    snapshot.bucketCounts[index].toNat = values.countP fun value => InBucket boundaries index value
  count : snapshot.count.toNat = values.length
  sum : snapshot.sum = WordMeasure.ofInt (values.map toInt).sum
  min : snapshot.min = values.argmin toInt
  max : snapshot.max = values.argmax toInt

/-- What is called on a cell between and at drains. -/
inductive CellCall (T : Type)
  | add (value : T)
  | take
  | clear

/-- The cell after a call. -/
def CellCall.apply (cell : Bucket T T) : CellCall T → Bucket T T
  | .add value => Record.add cell value
  | .take => cell.take.2
  | .clear => Record.clear cell

/-- The values added since the last drain. -/
def recordedSince (calls : List (CellCall T)) : List T :=
  calls.foldl (fun values call =>
    match call with
    | .add value => values ++ [value]
    | .take | .clear => []) []

/-! ## Field by field -/

/-- The index `partition_point` finds is that of the bucket the value belongs to. -/
theorem bucketIndex_eq_iff (boundaries : Boundaries T) (value : T) {index : Nat}
    (hindex : index < boundaries.values.length + 1) :
    bucketIndex boundaries value = index ↔ InBucket boundaries index value := by
  have hupTo : bucketIndex boundaries value ≤ index ↔
      ∀ upTo ∈ boundaries.values[index]?, toInt value ≤ toInt upTo := by
    by_cases hlast : index < boundaries.values.length
    · rw [bucketIndex_le_iff boundaries value hlast]
      simp [hlast]
    · have hle := bucketIndex_le boundaries value
      simp [List.getElem?_eq_none (Nat.le_of_not_lt hlast)]
      omega
  have hbelow : index ≤ bucketIndex boundaries value ↔
      ∀ below ∈ boundaries.values[index - 1]?, 0 < index → toInt below < toInt value := by
    cases index with
    | zero => simp
    | succ index =>
        have hlt : index < boundaries.values.length := by omega
        have hle := bucketIndex_le_iff boundaries value hlt
        simp only [Nat.add_sub_cancel, Nat.zero_lt_succ, forall_const, Option.mem_def,
          List.getElem?_eq_getElem hlt, Option.some.injEq, forall_eq']
        rw [← Int.not_le, ← hle]
        omega
  rw [InBucket, ← hupTo, ← hbelow]
  omega

theorem foldl_add_eq (values : List T) :
    values.foldl Record.add (Measure.ofValue (Measure.default : T)) =
      WordMeasure.ofInt (values.map toInt).sum := by
  induction values using List.reverseRecOn with
  | nil => exact (WordMeasure.ofValue_eq _).trans WordMeasure.default_eq
  | append_singleton values value ih =>
      rw [List.foldl_append, List.foldl_cons, List.foldl_nil, ih, List.map_append,
        List.sum_append, List.map_singleton, List.sum_singleton, WordMeasure.ofInt_add,
        WordMeasure.ofInt_toInt]

/-- Of values there are, `fetch_min` keeps the least; the identity it starts from is
not below any of them. -/
theorem argmin_eq_foldl (values : List T) :
    values.argmin toInt =
      if values = [] then none
      else some (values.foldl Scalar.fetchMin (Measure.ofValue (Measure.minIdentity : T))) := by
  induction values using List.reverseRecOn with
  | nil => rfl
  | append_singleton values value ih =>
      have hne : values ++ [value] ≠ [] := List.append_ne_nil_of_right_ne_nil _ (by simp)
      rw [List.argmin_concat, ih, List.foldl_append, List.foldl_cons, List.foldl_nil,
        WordMeasure.fetchMin_eq, if_neg hne]
      by_cases hnil : values = []
      · subst hnil
        rw [if_pos rfl, List.foldl_nil, WordMeasure.ofValue_eq]
        split
        · rfl
        · next hle =>
            have hsame := toInt_injective
              (le_antisymm (WordMeasure.le_minIdentity value) (Int.not_lt.mp hle))
            rw [← hsame]
      · rw [if_neg hnil]
        dsimp only
        split <;> rfl

theorem argmax_eq_foldl (values : List T) :
    values.argmax toInt =
      if values = [] then none
      else some (values.foldl Scalar.fetchMax (Measure.ofValue (Measure.maxIdentity : T))) := by
  induction values using List.reverseRecOn with
  | nil => rfl
  | append_singleton values value ih =>
      have hne : values ++ [value] ≠ [] := List.append_ne_nil_of_right_ne_nil _ (by simp)
      rw [List.argmax_concat, ih, List.foldl_append, List.foldl_cons, List.foldl_nil,
        WordMeasure.fetchMax_eq, if_neg hne]
      by_cases hnil : values = []
      · subst hnil
        rw [if_pos rfl, List.foldl_nil, WordMeasure.ofValue_eq]
        split
        · rfl
        · next hle =>
            have hsame := toInt_injective
              (le_antisymm (Int.not_lt.mp hle) (WordMeasure.maxIdentity_le value))
            rw [← hsame]
      · rw [if_neg hnil]
        dsimp only
        split <;> rfl

theorem ofNat_eq_zero_iff (n : Nat) : UInt64.ofNat n = 0 ↔ 2 ^ 64 ∣ n := by
  rw [← UInt64.toNat_inj, UInt64.toNat_ofNat', Nat.dvd_iff_mod_eq_zero]
  rfl

/-! ## Runs -/

omit [Measure T T] [WordMeasure T] in
theorem recordedSince_concat (calls : List (CellCall T)) (call : CellCall T) :
    recordedSince (calls ++ [call]) =
      match call with
      | .add value => recordedSince calls ++ [value]
      | .take | .clear => [] :=
  List.foldl_concat ..

/-- A cell that was called some things holds what was added since the last drain. -/
theorem foldl_apply_eq (boundaries : Boundaries T) (calls : List (CellCall T)) :
    calls.foldl CellCall.apply (Bucket.fromCheckedBoundaries boundaries) =
      (recordedSince calls).foldl Bucket.add (Bucket.fromCheckedBoundaries boundaries) := by
  induction calls using List.reverseRecOn with
  | nil => rfl
  | append_singleton calls call ih =>
      have hboundaries := (state_foldl_add (C := T) boundaries
        fun value (_ : value ∈ recordedSince calls) => IntegerMeasure.comparable value).1
      rw [List.foldl_append, List.foldl_cons, List.foldl_nil, ih]
      cases call with
      | add value =>
          rw [recordedSince_concat, List.foldl_concat]
          rfl
      | take =>
          rw [recordedSince_concat]
          exact congrArg Bucket.fromCheckedBoundaries hboundaries
      | clear =>
          rw [recordedSince_concat]
          exact congrArg Bucket.fromCheckedBoundaries hboundaries

theorem snapshot_foldl_add (boundaries : Boundaries T) (values : List T) :
    (values.foldl Bucket.add (Bucket.fromCheckedBoundaries boundaries)).snapshot =
      reference boundaries values := by
  obtain ⟨hboundaries, hstate⟩ := state_foldl_add (C := T) boundaries
    fun value (_ : value ∈ values) => IntegerMeasure.comparable value
  have hcounts : ((List.range (boundaries.values.length + 1)).map fun index =>
      UInt64.ofNat (values.countP fun value => bucketIndex boundaries value = index)) =
      (List.range (boundaries.values.length + 1)).map fun index =>
        UInt64.ofNat (values.countP fun value => InBucket boundaries index value) := by
    apply List.map_congr_left
    intro index hindex
    congr 1
    apply List.countP_congr
    intro value _
    simpa using bucketIndex_eq_iff boundaries value (List.mem_range.mp hindex)
  have hzero : (UInt64.ofNat values.length == 0) = decide (2 ^ 64 ∣ values.length) := by
    rw [beq_eq_decide]
    exact decide_eq_decide.mpr (ofNat_eq_zero_iff _)
  rw [Bucket.snapshot, State.snapshot, hboundaries, hstate, reference, hcounts, hzero,
    WordMeasure.get_eq, WordMeasure.get_eq, WordMeasure.get_eq, foldl_add_eq, argmin_eq_foldl,
    argmax_eq_foldl]
  simp only [Snapshot.mk.injEq, true_and, decide_eq_true_eq]
  by_cases hdvd : 2 ^ 64 ∣ values.length
  · simp only [if_pos hdvd, and_self]
  · have hne : values ≠ [] := by
      rintro rfl
      exact hdvd (dvd_zero _)
    simp only [if_neg hdvd, if_neg hne, and_self]

/-- The reference counts in numbers as long as a word can count the values. -/
theorem exact_reference (boundaries : Boundaries T) {values : List T}
    (hfew : values.length < 2 ^ 64) :
    Exact boundaries values (reference boundaries values) where
  length := by simp [reference]
  bucketCounts index h := by
    simp only [reference, List.getElem_map, List.getElem_range]
    exact toNat_ofNat_countP hfew _
  count := by
    simp only [reference, UInt64.toNat_ofNat']
    exact Nat.mod_eq_of_lt hfew
  sum := rfl
  min := by
    cases values with
    | nil => rfl
    | cons value rest => exact if_neg (Nat.not_dvd_of_pos_of_lt (Nat.succ_pos _) hfew)
  max := by
    cases values with
    | nil => rfl
    | cons value rest => exact if_neg (Nat.not_dvd_of_pos_of_lt (Nat.succ_pos _) hfew)

/-- Whatever is added to a cell and whenever it is drained, the next snapshot and the
next `take` are the reference aggregate of the values added since the last drain: in
numbers while there are fewer than 2^64 of them, and modulo that in any case. -/
theorem snapshot_eq_reference (boundaries : Boundaries T) (calls : List (CellCall T)) :
    let cell : Bucket T T := calls.foldl CellCall.apply (Bucket.fromCheckedBoundaries boundaries)
    cell.snapshot = reference boundaries (recordedSince calls) ∧
      cell.take.1 = reference boundaries (recordedSince calls) ∧
      ((recordedSince calls).length < 2 ^ 64 →
        Exact boundaries (recordedSince calls) cell.snapshot) := by
  intro cell
  have hsnapshot : cell.snapshot = reference boundaries (recordedSince calls) := by
    show Bucket.snapshot (calls.foldl CellCall.apply _) = _
    rw [foldl_apply_eq, snapshot_foldl_add]
  refine ⟨hsnapshot, hsnapshot, fun hfew => ?_⟩
  rw [hsnapshot]
  exact exact_reference boundaries hfew

omit [Measure T T] [WordMeasure T] in
theorem recordedSince_replicate (n : Nat) (value : T) :
    recordedSince (List.replicate n (.add value)) = List.replicate n value := by
  induction n with
  | zero => rfl
  | succ n ih => rw [List.replicate_succ', recordedSince_concat, ih, List.replicate_succ']

/-- A cell that recorded one value so often that its counter wrapped says that nothing
was recorded. -/
theorem snapshot_of_wrapped (boundaries : Boundaries T) {n : Nat} (hwraps : 2 ^ 64 ∣ n)
    (value : T) :
    let cell : Bucket T T := (List.replicate n (CellCall.add value)).foldl CellCall.apply
      (Bucket.fromCheckedBoundaries boundaries)
    cell.snapshot.count = 0 ∧ cell.snapshot.min = none ∧ cell.snapshot.max = none := by
  intro cell
  have hsnapshot : cell.snapshot = reference boundaries (List.replicate n value) := by
    show Bucket.snapshot (List.foldl CellCall.apply _ _) = _
    rw [foldl_apply_eq, recordedSince_replicate, snapshot_foldl_add]
  have hlength : 2 ^ 64 ∣ (List.replicate n value).length := by rwa [List.length_replicate]
  rw [hsnapshot]
  exact ⟨(ofNat_eq_zero_iff _).mpr hlength, if_pos hlength, if_pos hlength⟩

end Word

/-- 2^64 additions of 5: the cell counts none, and shows no least and no greatest. -/
theorem exact_fails_when_wrapped :
    let boundaries : Boundaries UInt64 := ⟨[10], List.cons_ne_nil 10 [], List.IsChain.singleton 10⟩
    let calls : List (CellCall UInt64) := List.replicate (2 ^ 64) (.add 5)
    let cell : Bucket UInt64 UInt64 :=
      calls.foldl CellCall.apply (Bucket.fromCheckedBoundaries boundaries)
    cell.snapshot.count = 0 ∧ cell.snapshot.min = none ∧ cell.snapshot.max = none ∧
      ¬ Exact boundaries (recordedSince calls) cell.snapshot := by
  intro boundaries calls cell
  obtain ⟨hcount, hmin, hmax⟩ :=
    snapshot_of_wrapped boundaries (dvd_refl (2 ^ 64)) (5 : UInt64)
  refine ⟨hcount, hmin, hmax, fun hexact => ?_⟩
  have hlength : (recordedSince calls).length = 2 ^ 64 := by
    show (recordedSince (List.replicate (2 ^ 64) (CellCall.add (5 : UInt64)))).length = 2 ^ 64
    rw [recordedSince_replicate, List.length_replicate]
  have hlt := cell.snapshot.count.toNat_lt
  have hnumber := hexact.count
  rw [hlength] at hnumber
  omega

end Ohnotel.Atomic
