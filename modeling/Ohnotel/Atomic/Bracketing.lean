/-
# Boundaries that bracket a value

The bucket of a value is found by a search that takes the boundaries to be partitioned
by the value: those below it first.  What was checked when the boundaries were accepted
is each pair of neighbours.  Over a comparison that is an order of its numbers, and says
nothing of what is not a number, the pairs are enough: every boundary that has a
neighbour is a number, and the boundaries increase throughout.

A list of a single boundary has no pair to check, so a single boundary that is not a
number is accepted, and brackets nothing.
-/

import Ohnotel.Atomic.Float
import Ohnotel.Atomic.Histogram
import Ohnotel.Foundation.Partition

namespace Ohnotel.Atomic

open Foundation

/-- The `<=` of `PartialOrd`. -/
def PartialOrd.le {T : Type} [PartialOrd T] (first second : T) : Bool :=
  partialCmp first second == some .lt || partialCmp first second == some .eq

/-- A comparison like that of floats: numbers have a rank in a linear order and compare
by it, what is not a number compares to nothing, itself included. -/
class Ranked (T : Type) (L : outParam Type) [PartialOrd T] [LinearOrder L] where
  rank : T → Option L
  partialCmp_eq : ∀ first second : T,
    PartialOrd.partialCmp first second =
      match rank first, rank second with
      | some below, some above => some (compare below above)
      | _, _ => none

instance : Ranked F64 Int where
  rank := F64.rank
  partialCmp_eq first second := by
    simp only [PartialOrd.partialCmp]
    cases first.rank <;> cases second.rank <;> rfl

section Ranked

variable {T C L : Type} [Measure T C] [LinearOrder L] [ranked : Ranked T L]

open Ranked

theorem lt_iff_rank {first second : T} :
    PartialOrd.lt first second = true ↔
      ∃ below above, rank first = some below ∧ rank second = some above ∧ below < above := by
  rw [PartialOrd.lt, partialCmp_eq]
  cases hfirst : rank first with
  | none => simp
  | some below =>
      cases hsecond : rank second with
      | none => simp
      | some above => simp [compare_lt_iff_lt]

theorem le_iff_rank {first second : T} :
    PartialOrd.le first second = true ↔
      ∃ below above, rank first = some below ∧ rank second = some above ∧ below ≤ above := by
  rw [PartialOrd.le, partialCmp_eq]
  cases hfirst : rank first with
  | none => simp
  | some below =>
      cases hsecond : rank second with
      | none => simp
      | some above => simp [compare_lt_iff_lt, le_iff_lt_or_eq]

theorem comparable_iff_rank {value : T} :
    comparable value = true ↔ ∃ found, rank value = some found := by
  rw [comparable, partialCmp_eq]
  cases rank value <;> simp

include ranked

/-- Numbers that are not below one another are the other way round. -/
theorem le_of_not_lt {first second : T} (hfirst : comparable first = true)
    (hsecond : comparable second = true) (hnot : ¬ PartialOrd.lt first second = true) :
    PartialOrd.le second first = true := by
  obtain ⟨found, hfound⟩ := comparable_iff_rank.mp hfirst
  obtain ⟨other, hother⟩ := comparable_iff_rank.mp hsecond
  apply le_iff_rank.mpr
  refine ⟨other, found, hother, hfound, le_of_not_gt fun hlt => hnot ?_⟩
  exact lt_iff_rank.mpr ⟨found, other, hfound, hother, hlt⟩

theorem lt_trans_rank {first second third : T} (hfirst : PartialOrd.lt first second = true)
    (hsecond : PartialOrd.lt second third = true) : PartialOrd.lt first third = true := by
  obtain ⟨a, b, ha, hb, hab⟩ := lt_iff_rank.mp hfirst
  obtain ⟨b', c, hb', hc, hbc⟩ := lt_iff_rank.mp hsecond
  obtain rfl : b = b' := Option.some_inj.mp (hb.symm.trans hb')
  exact lt_iff_rank.mpr ⟨a, c, ha, hc, hab.trans hbc⟩

theorem comparable_of_lt {first second : T} (hlt : PartialOrd.lt first second = true) :
    comparable first = true ∧ comparable second = true := by
  obtain ⟨below, above, hbelow, habove, _⟩ := lt_iff_rank.mp hlt
  exact ⟨comparable_iff_rank.mpr ⟨below, hbelow⟩, comparable_iff_rank.mpr ⟨above, habove⟩⟩

/-! ## What the pairs give -/

/-- Accepted boundaries increase throughout. -/
theorem Boundaries.pairwise_lt (boundaries : Boundaries T) :
    boundaries.values.Pairwise fun first second => PartialOrd.lt first second = true := by
  have htrans : IsTrans T fun first second => PartialOrd.lt first second = true :=
    ⟨fun _ _ _ => lt_trans_rank⟩
  exact List.isChain_iff_pairwise.mp boundaries.increasing

/-- A value partitions accepted boundaries. -/
theorem Boundaries.partitioned (boundaries : Boundaries T) (value : T) :
    Partitioned (fun boundary => PartialOrd.lt boundary value) boundaries.values :=
  boundaries.pairwise_lt.imp fun hlt hbelow => lt_trans_rank hlt hbelow

/-- The index the search finds is the number of boundaries below the value. -/
theorem partitionPoint_eq_bucketIndex (boundaries : Boundaries T) (value : T) :
    partitionPoint (fun boundary => PartialOrd.lt boundary value) boundaries.values =
      bucketIndex boundaries value :=
  partitionPoint_eq (boundaries.partitioned value)

/-- Every accepted boundary is a number, a single one excepted. -/
theorem Boundaries.comparable_of_mem (boundaries : Boundaries T)
    (hlone : ∀ boundary, boundaries.values = [boundary] → comparable boundary = true) :
    ∀ boundary ∈ boundaries.values, comparable boundary = true := by
  have hpairwise := boundaries.pairwise_lt
  have hnonempty := boundaries.nonempty
  cases hvalues : boundaries.values with
  | nil => exact absurd hvalues hnonempty
  | cons first rest =>
      rw [hvalues] at hpairwise
      obtain ⟨hfirst, _⟩ := List.pairwise_cons.mp hpairwise
      intro boundary hboundary
      rcases List.mem_cons.mp hboundary with rfl | hlater
      · cases rest with
        | nil => exact hlone boundary hvalues
        | cons second rest => exact (comparable_of_lt (hfirst second List.mem_cons_self)).1
      · exact (comparable_of_lt (hfirst boundary hlater)).2

/-- The bucket's boundaries are around the value. -/
def Brackets (boundaries : Boundaries T) (value : T) : Prop :=
  (∀ below ∈ boundaries.values[bucketIndex boundaries value - 1]?,
      0 < bucketIndex boundaries value → PartialOrd.lt below value = true) ∧
    ∀ upTo ∈ boundaries.values[bucketIndex boundaries value]?, PartialOrd.le value upTo = true

/-- Boundaries that are all numbers bracket every number. -/
theorem brackets_of_comparable (boundaries : Boundaries T)
    (hall : ∀ boundary ∈ boundaries.values, comparable boundary = true) {value : T}
    (hvalue : comparable value = true) : Brackets boundaries value := by
  have hpasses : ∀ {index : Nat} {boundary : T}, boundaries.values[index]? = some boundary →
      (PartialOrd.lt boundary value = true ↔ index < bucketIndex boundaries value) := by
    intro index boundary hboundary
    rw [bucketIndex, ← passes_iff (boundaries.partitioned value), passes, hboundary,
      Option.any_some]
  constructor
  · intro below hbelow hpos
    exact (hpasses hbelow).mpr (by omega)
  · intro upTo hupTo
    apply le_of_not_lt (hall upTo (List.mem_of_getElem? hupTo)) hvalue
    rw [hpasses hupTo]
    exact lt_irrefl _

/-- For every list that is accepted and every value that is recorded, the search finds
an index whose boundaries bracket the value and the list has numbers only, exactly when
the list is not a single boundary that is not a number. -/
theorem accepted_brackets_iff {list : List T} {boundaries : Boundaries T}
    (haccepted : checkedBoundaries list = .ok boundaries) {value : T}
    (hvalue : comparable value = true) :
    ((∀ boundary ∈ list, comparable boundary = true) ∧ Brackets boundaries value ∧
        partitionPoint (fun boundary => PartialOrd.lt boundary value) list =
          bucketIndex boundaries value) ↔
      ∀ boundary, list = [boundary] → comparable boundary = true := by
  have hlist := values_of_checkedBoundaries haccepted
  subst hlist
  constructor
  · rintro ⟨hall, _⟩ boundary hlone
    exact hall boundary (by simp [hlone])
  · intro hlone
    have hall := boundaries.comparable_of_mem hlone
    exact ⟨hall, brackets_of_comparable boundaries hall hvalue,
      partitionPoint_eq_bucketIndex boundaries value⟩

end Ranked

/-- The boundaries 1.0 and 2.0, and the value 1.5 between them. -/
theorem accepted_brackets_iff_between :
    let list : List F64 := [⟨0x3FF0000000000000⟩, ⟨0x4000000000000000⟩]
    let value : F64 := ⟨0x3FF8000000000000⟩
    ∃ boundaries, checkedBoundaries list = .ok boundaries ∧ comparable value = true ∧
      bucketIndex boundaries value = 1 ∧ Brackets boundaries value := by
  intro list value
  have hincreasing : list.IsChain fun first second => PartialOrd.lt first second := by decide
  have haccepted : checkedBoundaries list = .ok ⟨list, List.cons_ne_nil _ _, hincreasing⟩ :=
    dif_neg (by simp [hincreasing, list])
  have hvalue : comparable value = true := by decide
  refine ⟨_, haccepted, hvalue, rfl, ?_⟩
  apply ((accepted_brackets_iff haccepted hvalue).mpr ?_).2.1
  intro boundary hlone
  simp [list] at hlone

/-- A single boundary that is not a number is accepted, and 0 is recorded below it. -/
theorem lone_nan_accepted :
    let nan : F64 := ⟨0x7FF8000000000000⟩
    ∃ boundaries, checkedBoundaries [nan] = .ok boundaries ∧ comparable nan = false ∧
      comparable F64.zero = true ∧ bucketIndex boundaries F64.zero = 0 ∧
      ¬ Brackets boundaries F64.zero := by
  intro nan
  have haccepted : checkedBoundaries [nan] =
      .ok ⟨[nan], List.cons_ne_nil _ _, List.IsChain.singleton nan⟩ :=
    dif_neg (by simp)
  refine ⟨_, haccepted, by decide, by decide, by decide, fun hbrackets => ?_⟩
  have hle : PartialOrd.le F64.zero nan = false := by decide
  have hupTo := hbrackets.2 nan rfl
  rw [hle] at hupTo
  cases hupTo

end Ohnotel.Atomic
