/-
# Taking back an addition

`sub` takes back what `add` did to the sum, the counts and the buckets, and leaves the
least and the greatest as they are.  While those are hidden the difference does not
show, but the next addition brings them out.  A pair of `add` and `sub` therefore
leaves no trace exactly when its value lies between values that were added since the
last drain, those taken back since included.
-/

import Ohnotel.Atomic.Reference
import Ohnotel.Foundation.Transition

namespace Ohnotel.Atomic

open Foundation IntegerMeasure

/-- What is called on a cell, subtractions included. -/
inductive CellOp (T : Type)
  | call (c : CellCall T)
  | sub (value : T)

section Word

variable {T : Type} [Measure T T] [WordMeasure T]

/-- The cell after an operation. -/
def CellOp.apply (cell : Bucket T T) : CellOp T → Bucket T T
  | .call c => c.apply cell
  | .sub value => Record.sub cell value

/-- A new cell after some operations. -/
def after (boundaries : Boundaries T) (ops : List (CellOp T)) : Bucket T T :=
  ops.foldl CellOp.apply (Bucket.fromCheckedBoundaries boundaries)

/-- The values that were added since the last drain and not taken back, kept in step
with the operations; `none` where a subtraction takes back what is not there. -/
def matchStep [DecidableEq T] : StepFn (List T) (CellOp T)
  | live, .call (.add value) => some (value :: live)
  | live, .sub value => if value ∈ live then some (live.erase value) else none
  | _, .call .take => some []
  | _, .call .clear => some []

/-- Every subtraction takes back an addition of its own, made since the last drain. -/
def Matched [DecidableEq T] (ops : List (CellOp T)) : Prop := (matchStep.run [] ops).isSome

instance [DecidableEq T] (ops : List (CellOp T)) : Decidable (Matched ops) :=
  inferInstanceAs (Decidable (_ = true))

/-- All values that were added since the last drain. -/
def addedSince (ops : List (CellOp T)) : List T :=
  ops.foldl (fun values op =>
    match op with
    | .call (.add value) => values ++ [value]
    | .call .take => []
    | .call .clear => []
    | .sub _ => values) []

/-- The value is neither below all of the values nor above all of them. -/
def Spanned (values : List T) (value : T) : Prop :=
  (∃ low ∈ values, toInt low ≤ toInt value) ∧ ∃ high ∈ values, toInt value ≤ toInt high

instance (values : List T) (value : T) : Decidable (Spanned values value) :=
  inferInstanceAs (Decidable (_ ∧ _))

/-! ## The least and the greatest -/

/-- The least of some values, as `fetch_min` leaves it. -/
def leastOf (values : List T) : T :=
  values.foldl Scalar.fetchMin (Measure.ofValue (Measure.minIdentity : T))

/-- The greatest of some values, as `fetch_max` leaves it. -/
def greatestOf (values : List T) : T :=
  values.foldl Scalar.fetchMax (Measure.ofValue (Measure.maxIdentity : T))

theorem leastOf_mem {values : List T} (hne : values ≠ []) : leastOf values ∈ values := by
  have hargmin := argmin_eq_foldl values
  rw [if_neg hne] at hargmin
  exact List.argmin_mem (Option.mem_def.mpr hargmin)

theorem leastOf_le {values : List T} {value : T} (hmem : value ∈ values) :
    toInt (leastOf values) ≤ toInt value := by
  have hargmin := argmin_eq_foldl values
  rw [if_neg (List.ne_nil_of_mem hmem)] at hargmin
  exact List.le_of_mem_argmin hmem (Option.mem_def.mpr hargmin)

theorem greatestOf_mem {values : List T} (hne : values ≠ []) : greatestOf values ∈ values := by
  have hargmax := argmax_eq_foldl values
  rw [if_neg hne] at hargmax
  exact List.argmax_mem (Option.mem_def.mpr hargmax)

theorem le_greatestOf {values : List T} {value : T} (hmem : value ∈ values) :
    toInt value ≤ toInt (greatestOf values) := by
  have hargmax := argmax_eq_foldl values
  rw [if_neg (List.ne_nil_of_mem hmem)] at hargmax
  exact List.le_of_mem_argmax hmem (Option.mem_def.mpr hargmax)

/-- A value does not move the least exactly when it is not below it. -/
theorem fetchMin_eq_self_iff {cell value : T} :
    Scalar.fetchMin cell value = cell ↔ toInt cell ≤ toInt value := by
  rw [WordMeasure.fetchMin_eq]
  split
  · next hlt =>
      constructor
      · rintro rfl
        exact le_rfl
      · exact fun hle => absurd hlt (Int.not_lt.mpr hle)
  · next hnot => simpa using hnot

theorem fetchMax_eq_self_iff {cell value : T} :
    Scalar.fetchMax cell value = cell ↔ toInt value ≤ toInt cell := by
  rw [WordMeasure.fetchMax_eq]
  split
  · next hlt =>
      constructor
      · rintro rfl
        exact le_rfl
      · exact fun hle => absurd hlt (Int.not_lt.mpr hle)
  · next hnot => simpa using hnot

/-- A value moves neither the least nor the greatest exactly when it lies between values
there are: of no values both are identities, and every value moves one of them. -/
theorem spanned_iff {values : List T} {value : T} :
    Spanned values value ↔
      Scalar.fetchMin (leastOf values) value = leastOf values ∧
        Scalar.fetchMax (greatestOf values) value = greatestOf values := by
  rw [fetchMin_eq_self_iff, fetchMax_eq_self_iff]
  constructor
  · rintro ⟨⟨low, hlow, hle⟩, high, hhigh, hge⟩
    exact ⟨(leastOf_le hlow).trans hle, hge.trans (le_greatestOf hhigh)⟩
  · rintro ⟨hleast, hgreatest⟩
    by_cases hnil : values = []
    · subst hnil
      have hidentities := (WordMeasure.identity_lt : toInt (Measure.maxIdentity : T) < _)
      simp only [leastOf, greatestOf, List.foldl_nil, WordMeasure.ofValue_eq] at hleast hgreatest
      omega
    · exact ⟨⟨_, leastOf_mem hnil, hleast⟩, _, greatestOf_mem hnil, hgreatest⟩

/-! ## What an addition and a subtraction do -/

theorem comparable_word (value : T) : Atomic.comparable value = true :=
  IntegerMeasure.comparable value

omit [WordMeasure T] in
theorem Bucket.eq_of_state {first second : Bucket T T}
    (hboundaries : first.boundaries = second.boundaries) (hstate : first.state = second.state) :
    first = second := by
  cases first
  cases second
  subst hboundaries hstate
  rfl

theorem state_add (cell : Bucket T T) (value : T) :
    (Record.add cell value).state =
      { bucketCounts := cell.state.bucketCounts.modify (bucketIndex cell.boundaries value) (· + 1)
        sum := Record.add cell.state.sum value
        min := Scalar.fetchMin cell.state.min value
        max := Scalar.fetchMax cell.state.max value
        count := cell.state.count + 1 } := by
  show (Bucket.add cell value).state = _
  rw [Bucket.add, if_pos (comparable_word value)]
  rfl

theorem boundaries_add (cell : Bucket T T) (value : T) :
    (Record.add cell value).boundaries = cell.boundaries := by
  show (Bucket.add cell value).boundaries = _
  rw [Bucket.add, if_pos (comparable_word value)]

theorem state_sub (cell : Bucket T T) (value : T) :
    (Record.sub cell value).state =
      { bucketCounts := cell.state.bucketCounts.modify (bucketIndex cell.boundaries value) (· - 1)
        sum := Record.sub cell.state.sum value
        min := cell.state.min
        max := cell.state.max
        count := cell.state.count - 1 } := by
  show (Bucket.sub cell value).state = _
  rw [Bucket.sub, if_pos (comparable_word value)]
  rfl

theorem boundaries_sub (cell : Bucket T T) (value : T) :
    (Record.sub cell value).boundaries = cell.boundaries := by
  show (Bucket.sub cell value).boundaries = _
  rw [Bucket.sub, if_pos (comparable_word value)]

/-- A pair of both leaves its mark on the least and the greatest only. -/
theorem state_add_sub (cell : Bucket T T) (value : T) :
    (Record.sub (Record.add cell value) value).state =
      { cell.state with
        min := Scalar.fetchMin cell.state.min value
        max := Scalar.fetchMax cell.state.max value } := by
  have hcounts : (fun count : UInt64 => count - 1) ∘ (fun count => count + 1) = id := by
    funext count
    exact UInt64.add_sub_cancel count 1
  rw [state_sub, state_add, boundaries_add]
  simp only [List.modify_modify_eq, hcounts, List.modify_id, WordMeasure.add_sub_cancel,
    UInt64.add_sub_cancel]

/-- What a cell keeps after some operations. -/
theorem after_spec (boundaries : Boundaries T) (ops : List (CellOp T)) :
    (after boundaries ops).boundaries = boundaries ∧
      (after boundaries ops).state.min = leastOf (addedSince ops) ∧
      (after boundaries ops).state.max = greatestOf (addedSince ops) := by
  induction ops using List.reverseRecOn with
  | nil => exact ⟨rfl, rfl, rfl⟩
  | append_singleton ops op ih =>
      obtain ⟨hboundaries, hmin, hmax⟩ := ih
      have hcell : after boundaries (ops ++ [op]) = op.apply (after boundaries ops) :=
        List.foldl_concat ..
      rw [hcell, addedSince, List.foldl_concat]
      cases op with
      | sub value =>
          simp only [CellOp.apply, state_sub, boundaries_sub]
          exact ⟨hboundaries, hmin, hmax⟩
      | call c =>
          cases c with
          | add value =>
              simp only [CellOp.apply, CellCall.apply, state_add, boundaries_add, hmin, hmax]
              exact ⟨hboundaries, (List.foldl_concat ..).symm, (List.foldl_concat ..).symm⟩
          | take => exact ⟨hboundaries, rfl, rfl⟩
          | clear => exact ⟨hboundaries, rfl, rfl⟩

/-! ## What shows -/

theorem extremes_snapshot (cell : Bucket T T) (hcount : cell.state.count ≠ 0) :
    cell.snapshot.min = some cell.state.min ∧ cell.snapshot.max = some cell.state.max := by
  have hne : (cell.state.count == 0) = false := by simpa using hcount
  simp [Bucket.snapshot, State.snapshot, hne, WordMeasure.get_eq]

/-- If two cells count the same and neither shows a difference, not even after one more
addition of either identity, they keep the same least and the same greatest. -/
theorem extremes_eq_of_snapshots (first second : Bucket T T)
    (hcount : first.state.count = second.state.count) (hnow : first.snapshot = second.snapshot)
    (hlater : ∀ value, (Record.add first value).snapshot = (Record.add second value).snapshot) :
    first.state.min = second.state.min ∧ first.state.max = second.state.max := by
  by_cases hzero : first.state.count = 0
  · have hfirst : (0 : UInt64) + 1 ≠ 0 := by decide
    have hshown : ∀ value,
        Scalar.fetchMin first.state.min value = Scalar.fetchMin second.state.min value ∧
          Scalar.fetchMax first.state.max value = Scalar.fetchMax second.state.max value := by
      intro value
      have hleft := extremes_snapshot (Record.add first value)
        (by rw [state_add, hzero]; exact hfirst)
      have hright := extremes_snapshot (Record.add second value)
        (by rw [state_add, ← hcount, hzero]; exact hfirst)
      rw [hlater value, state_add] at hleft
      rw [state_add] at hright
      exact ⟨Option.some_inj.mp (hleft.1.symm.trans hright.1),
        Option.some_inj.mp (hleft.2.symm.trans hright.2)⟩
    have hmin := (hshown Measure.minIdentity).1
    have hmax := (hshown Measure.maxIdentity).2
    rw [fetchMin_eq_self_iff.mpr (WordMeasure.le_minIdentity _),
      fetchMin_eq_self_iff.mpr (WordMeasure.le_minIdentity _)] at hmin
    rw [fetchMax_eq_self_iff.mpr (WordMeasure.maxIdentity_le _),
      fetchMax_eq_self_iff.mpr (WordMeasure.maxIdentity_le _)] at hmax
    exact ⟨hmin, hmax⟩
  · have hleft := extremes_snapshot first hzero
    have hright := extremes_snapshot second (hcount ▸ hzero)
    rw [hnow] at hleft
    exact ⟨Option.some_inj.mp (hleft.1.symm.trans hright.1),
      Option.some_inj.mp (hleft.2.symm.trans hright.2)⟩

omit [WordMeasure T] in
theorem after_append (boundaries : Boundaries T) (ops later : List (CellOp T)) :
    after boundaries (ops ++ later) = later.foldl CellOp.apply (after boundaries ops) :=
  List.foldl_append

omit [Measure T T] [WordMeasure T] in
/-- An addition needs nothing to match. -/
theorem Matched.add [DecidableEq T] {ops : List (CellOp T)} (h : Matched ops) (value : T) :
    Matched (ops ++ [.call (.add value)]) := by
  obtain ⟨live, hlive⟩ := Option.isSome_iff_exists.mp h
  apply Option.isSome_iff_exists.mpr
  exact ⟨value :: live, (matchStep.run_concat_eq_some).mpr ⟨live, hlive, rfl⟩⟩

/-- After any operations that take back only what was added, adding a value and taking
it back changes no later snapshot exactly when the value lies between values added
since the last drain. -/
theorem sub_undoes_add_iff [DecidableEq T] (boundaries : Boundaries T) {ops : List (CellOp T)}
    (hmatched : Matched ops) (value : T) :
    (∀ later, Matched (ops ++ later) →
        (after boundaries (ops ++ [.call (.add value), .sub value] ++ later)).snapshot =
          (after boundaries (ops ++ later)).snapshot) ↔
      Spanned (addedSince ops) value := by
  obtain ⟨_, hmin, hmax⟩ := after_spec boundaries ops
  have hstate := state_add_sub (after boundaries ops) value
  have hpair : after boundaries (ops ++ [.call (.add value), .sub value]) =
      Record.sub (Record.add (after boundaries ops) value) value := after_append _ _ _
  rw [spanned_iff, ← hmin, ← hmax]
  constructor
  · intro hall
    have hextremes := extremes_eq_of_snapshots
      (Record.sub (Record.add (after boundaries ops) value) value) (after boundaries ops)
      (by rw [hstate]) ?_ fun probe => ?_
    · rwa [hstate] at hextremes
    · have hnow := hall [] (by rwa [List.append_nil])
      rwa [List.append_nil, List.append_nil, hpair] at hnow
    · have hlater := hall [.call (.add probe)] (hmatched.add probe)
      rwa [after_append, hpair, after_append] at hlater
  · rintro ⟨hleast, hgreatest⟩ later _
    have hsame : Record.sub (Record.add (after boundaries ops) value) value =
        after boundaries ops := by
      apply Bucket.eq_of_state
      · rw [boundaries_sub, boundaries_add]
      · rw [hstate, hleast, hgreatest]
    rw [after_append, hpair, hsame, after_append]

end Word

/-- Between 5 and 9, added before, 7 comes and goes without a trace. -/
theorem sub_undoes_add_between :
    let boundaries : Boundaries UInt64 := ⟨[10], List.cons_ne_nil 10 [], List.IsChain.singleton 10⟩
    let ops : List (CellOp UInt64) := [.call (.add 5), .call (.add 9)]
    Matched ops ∧ Spanned (addedSince ops) 7 ∧
      ∀ later, Matched (ops ++ later) →
        (after boundaries (ops ++ [.call (.add 7), .sub 7] ++ later)).snapshot =
          (after boundaries (ops ++ later)).snapshot := by
  intro boundaries ops
  have hmatched : Matched ops := by decide
  have hspanned : Spanned (addedSince ops) 7 := by decide
  exact ⟨hmatched, hspanned, (sub_undoes_add_iff boundaries hmatched 7).mpr hspanned⟩

/-- On a new cell 7 comes and goes, and the snapshot after 9 still says that 7 is the
least. -/
theorem least_outlives_sub :
    let boundaries : Boundaries UInt64 := ⟨[10], List.cons_ne_nil 10 [], List.IsChain.singleton 10⟩
    let later : List (CellOp UInt64) := [.call (.add 9)]
    Matched later ∧ Matched ([.call (.add 7), .sub 7] ++ later) ∧
      (after boundaries ([.call (.add 7), .sub 7] ++ later)).snapshot.min = some 7 ∧
      (after boundaries later).snapshot.min = some 9 := by
  decide

end Ohnotel.Atomic
