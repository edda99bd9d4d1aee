/-
# Intervals with one start

Intervals that all start at the same point, each under a key.  Those under one key are
disjoint exactly if at most one of them is not empty.
-/

import Mathlib.Data.List.Forall2
import Mathlib.Order.CompletePartialOrder
import Mathlib.Order.Interval.Set.Disjoint

namespace Foundation

universe u v

variable {α : Type u} {β : Type v}

/-- Relations that agree on related elements hold throughout related lists alike. -/
theorem pairwise_iff_of_forall₂ {related : α → β → Prop} {first : α → α → Prop}
    {second : β → β → Prop} (hagree : ∀ {a a' b b'}, related a b → related a' b' →
      (first a a' ↔ second b b'))
    {l : List α} {m : List β} (h : List.Forall₂ related l m) :
    l.Pairwise first ↔ m.Pairwise second := by
  induction h with
  | nil => simp
  | @cons a b l m hhead htail ih =>
      rw [List.pairwise_cons, List.pairwise_cons, ih]
      refine and_congr_left' ?_
      clear ih
      induction htail with
      | nil => simp
      | cons hnext _ ih =>
          rw [List.forall_mem_cons, List.forall_mem_cons, hagree hhead hnext, ih]

/-- No two elements meet a condition exactly if at most one does. -/
theorem pairwise_not_and_iff {condition : α → Bool} {l : List α} :
    (l.Pairwise fun a b => ¬ (condition a ∧ condition b)) ↔ l.countP condition ≤ 1 := by
  induction l with
  | nil => simp
  | cons a l ih =>
      rw [List.pairwise_cons, ih, List.countP_cons]
      by_cases ha : condition a = true
      · simp only [ha, true_and, if_true]
        have hnone : (∀ b ∈ l, ¬ condition b = true) ↔ l.countP condition = 0 :=
          List.countP_eq_zero.symm
        rw [hnone]
        omega
      · simp [ha]

section Order

variable [LinearOrder β] {start : β}

theorem disjoint_Ioc_iff {first second : β} :
    Disjoint (Set.Ioc start first) (Set.Ioc start second) ↔
      ¬ (start < first ∧ start < second) := by
  rw [Set.Ioc_disjoint_Ioc, max_self, min_le_iff, not_and_or, not_lt, not_lt]

/-- The intervals under each key are disjoint exactly if at most one of them is not empty. -/
theorem pairwise_disjoint_Ioc_iff [DecidableEq α] {l : List (α × β)} :
    (l.Pairwise fun a b =>
        a.1 = b.1 → Disjoint (Set.Ioc start a.2) (Set.Ioc start b.2)) ↔
      ∀ key, (l.countP fun a => a.1 = key ∧ start < a.2) ≤ 1 := by
  have hkeys : (l.Pairwise fun a b =>
        a.1 = b.1 → Disjoint (Set.Ioc start a.2) (Set.Ioc start b.2)) ↔
      l.Pairwise fun a b => ∀ key, ¬ ((a.1 = key ∧ start < a.2) ∧ b.1 = key ∧ start < b.2) := by
    refine List.Pairwise.iff fun a b => ?_
    rw [disjoint_Ioc_iff]
    constructor
    · rintro hdisjoint key ⟨⟨rfl, hfirst⟩, hkey, hsecond⟩
      exact hdisjoint hkey.symm ⟨hfirst, hsecond⟩
    · rintro hnone hkey ⟨hfirst, hsecond⟩
      exact hnone a.1 ⟨⟨rfl, hfirst⟩, hkey.symm, hsecond⟩
  rw [hkeys]
  constructor
  · intro h key
    exact pairwise_not_and_iff.mp (h.imp fun hnone => by simpa using hnone key)
  · intro h
    refine List.pairwise_iff_getElem.mpr fun i j hi hj hlt key => ?_
    have hone := List.pairwise_iff_getElem.mp (pairwise_not_and_iff.mpr (h key)) i j hi hj hlt
    simpa using hone

end Order

end Foundation
