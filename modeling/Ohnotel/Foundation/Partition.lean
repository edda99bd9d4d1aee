/-
# Searching a partitioned list

A test partitions a list when the elements that pass it come before those that do not.
The number of elements that pass is then found by halving, looking at few of them.
The loop below never stops early: the number of its rounds depends on the length of
the list alone.
-/

import Mathlib.Data.List.TakeWhile
import Mathlib.Data.List.Pairwise

namespace Foundation

universe u

variable {α : Type u}

/-- What passes the test comes before what does not. -/
def Partitioned (test : α → Bool) (l : List α) : Prop :=
  l.Pairwise fun earlier later => test later = true → test earlier = true

/-- The element at an index is there and passes. -/
def passes (test : α → Bool) (l : List α) (index : Nat) : Bool := l[index]?.any test

/-- Halve the range that begins at `base` and has `size` elements until one is left. -/
def halve (test : α → Bool) (l : List α) (base size : Nat) : Nat :=
  if 1 < size then
    halve test l (if passes test l (base + size / 2) then base + size / 2 else base)
      (size - size / 2)
  else base
termination_by size

/-- The number of elements that pass, found by halving. -/
def partitionPoint (test : α → Bool) (l : List α) : Nat :=
  if l.isEmpty then 0
  else
    let base := halve test l 0 l.length
    if passes test l base then base + 1 else base

/-- In a partitioned list the elements that pass are those the first ones are. -/
theorem passes_iff {test : α → Bool} {l : List α} (h : Partitioned test l) {index : Nat} :
    passes test l index = true ↔ index < (l.takeWhile test).length := by
  induction l generalizing index with
  | nil => simp [passes]
  | cons first rest ih =>
      obtain ⟨hfirst, hrest⟩ := List.pairwise_cons.mp h
      by_cases hpass : test first = true
      · rw [List.takeWhile_cons_of_pos hpass, List.length_cons]
        cases index with
        | zero => simp [passes, hpass]
        | succ index =>
            rw [Nat.succ_lt_succ_iff, ← ih hrest]
            simp [passes]
      · rw [List.takeWhile_cons_of_neg hpass]
        constructor
        · intro hindex
          obtain ⟨found, hfound, htest⟩ := (Option.any_eq_true _ _).mp hindex
          rcases List.mem_cons.mp (List.mem_of_getElem? hfound) with rfl | hlater
          · exact absurd htest hpass
          · exact absurd (hfirst found hlater htest) hpass
        · intro hlt
          simp at hlt

/-- The loop keeps the point it looks for within its range: what is at `base` passes,
unless that is where the list begins, and what is from `base + size` on does not. -/
theorem halve_spec {test : α → Bool} {l : List α} {point base size : Nat}
    (hpoint : ∀ index, passes test l index = true ↔ index < point) (hsize : 0 < size)
    (hbase : base = 0 ∨ base < point) (hend : point ≤ base + size) :
    (halve test l base size = 0 ∨ halve test l base size < point) ∧
      point ≤ halve test l base size + 1 := by
  induction base, size using halve.induct test l with
  | case1 base size hmany ih =>
      rw [halve, if_pos hmany]
      apply ih (by omega)
      · split
        · next hpass => exact Or.inr ((hpoint _).mp hpass)
        · exact hbase
      · split
        · omega
        · next hfail =>
            have hle := Nat.le_of_not_lt (mt (hpoint _).mpr hfail)
            omega
  | case2 base size hone =>
      rw [halve, if_neg hone]
      exact ⟨hbase, by omega⟩

/-- Halving finds what walking the list finds. -/
theorem partitionPoint_eq {test : α → Bool} {l : List α} (h : Partitioned test l) :
    partitionPoint test l = (l.takeWhile test).length := by
  have hpoint : ∀ index, passes test l index = true ↔ index < (l.takeWhile test).length :=
    fun _ => passes_iff h
  unfold partitionPoint
  split
  · next hempty => rw [List.isEmpty_iff.mp hempty, List.takeWhile_nil, List.length_nil]
  · next hne =>
      have hlength : 0 < l.length := List.length_pos_iff.mpr (by simpa using hne)
      obtain ⟨hbase, hend⟩ := halve_spec hpoint hlength (Or.inl rfl)
        (by simpa using (List.takeWhile_sublist test).length_le)
      dsimp only
      split
      · next hpass =>
          have hlt := (hpoint _).mp hpass
          omega
      · next hfail =>
          have hle := Nat.le_of_not_lt (mt (hpoint _).mpr hfail)
          omega

end Foundation
