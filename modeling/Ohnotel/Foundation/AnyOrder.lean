/-
# What does not depend on an order

A fold whose steps commute ends in the same state for every order of its elements, also if
a step can fail.  Sorted by keys of which no two are equal, a list does not depend on the
order it had.

A loop over a sorted list that compares each element with the one before it knows which
elements are the first of their group.

A loop that stops at the first element it cannot convert gives the same elements for every
order, or fails for every order.
-/

import Mathlib.Data.List.Infix
import Mathlib.Data.List.Perm.Basic
import Ohnotel.Foundation.Sorting

namespace Foundation

universe u v w

variable {α : Type u} {β : Type v} {δ : Type w}

/-- A fold that can fail, of steps that commute. -/
theorem foldlM_perm {f : β → α → Option β}
    (hcomm : ∀ state a a', (f state a).bind (f · a') = (f state a').bind (f · a))
    {l others : List α} (hperm : l.Perm others) (state : β) :
    l.foldlM f state = others.foldlM f state := by
  induction hperm generalizing state with
  | nil => rfl
  | cons a _ ih =>
      rw [List.foldlM_cons, List.foldlM_cons]
      apply congrArg
      funext next
      exact ih next
  | swap a a' rest =>
      simp only [List.foldlM_cons, Option.bind_eq_bind]
      rw [← Option.bind_assoc, ← Option.bind_assoc, hcomm]
  | trans _ _ ih₁ ih₂ => exact (ih₁ state).trans (ih₂ state)

section Sorted

variable {κ : Type v} [LinearOrder κ] {key : α → κ} {l : List α}

theorem pairwise_lt_sortOn (hkeys : (l.map key).Nodup) :
    (sortOn key l).Pairwise fun a b => key a < key b := by
  have hne : (sortOn key l).Pairwise fun a b => key a ≠ key b := by
    apply List.pairwise_map.mp
    exact ((perm_sortOn key l).map key).nodup_iff.mpr hkeys
  exact (pairwise_sortOn key l).imp₂ (fun _ _ hle hne => lt_of_le_of_ne hle hne) hne

/-- Lists with the same elements are sorted into the same list, if no two of these have one
key. -/
theorem sortOn_eq_of_nodup {others : List α} (hkeys : (l.map key).Nodup) (hperm : l.Perm others) :
    sortOn key others = sortOn key l :=
  sortOn_eq_of_perm hperm (pairwise_lt_sortOn hkeys)

end Sorted

/-! ## The first of each group -/

/-- Each element with those before it. -/
def withEarlier (l : List α) : List (List α × α) := l.inits.zip l

theorem withEarlier_cons (a : α) (l : List α) :
    withEarlier (a :: l) = ([], a) :: (withEarlier l).map fun pair => (a :: pair.1, pair.2) := by
  rw [withEarlier, List.inits_cons, List.zip_cons_cons, List.zip_map_left]
  rfl

section Groups

variable {γ : Type v} [DecidableEq γ] (group : α → γ) (write : Bool → α → List δ)

/-- A loop that writes something else for an element if the one before it was not of its
group. -/
def writeGroups : Option γ → List α → List δ
  | _, [] => []
  | last, a :: rest =>
      write (decide (last ≠ some (group a))) a ++ writeGroups (some (group a)) rest

variable {group write}

omit [DecidableEq γ] in
/-- In a sorted list the last element is of a group if any is, and none later can be. -/
theorem map_getLast?_eq_some_iff [PartialOrder γ] {seen : List α} {a : α}
    (hsorted : (seen ++ [a]).Pairwise fun first second => group first ≤ group second) :
    seen.getLast?.map group = some (group a) ↔ ∃ earlier ∈ seen, group earlier = group a := by
  cases seen using List.reverseRecOn with
  | nil => simp
  | append_singleton seen last =>
      rw [List.getLast?_append, List.getLast?_singleton, Option.some_or, Option.map_some,
        Option.some_inj]
      constructor
      · exact fun heq => ⟨last, by simp, heq⟩
      · rintro ⟨earlier, hearlier, heq⟩
        obtain ⟨hseen, _, hlater⟩ := List.pairwise_append.mp hsorted
        apply le_antisymm
        · exact hlater last (by simp) a (List.mem_singleton_self a)
        · rw [← heq]
          rcases List.mem_append.mp hearlier with hmem | hmem
          · exact (List.pairwise_append.mp hseen).2.2 earlier hmem last (List.mem_singleton_self _)
          · rw [List.mem_singleton.mp hmem]

variable [PartialOrder γ]

/-- The run of the loop from the elements `seen` on. -/
theorem writeGroups_of_seen {seen l : List α}
    (hsorted : (seen ++ l).Pairwise fun first second => group first ≤ group second) :
    writeGroups group write (seen.getLast?.map group) l =
      (withEarlier l).flatMap fun pair =>
        write (decide (∀ earlier ∈ seen ++ pair.1, group earlier ≠ group pair.2)) pair.2 := by
  induction l generalizing seen with
  | nil => rfl
  | cons a rest ih =>
      have hsorted' : ((seen ++ [a]) ++ rest).Pairwise fun first second =>
          group first ≤ group second := by
        rw [List.append_assoc]
        exact hsorted
      have hfirst : decide (seen.getLast?.map group ≠ some (group a)) =
          decide (∀ earlier ∈ seen, group earlier ≠ group a) := by
        apply decide_eq_decide.mpr
        rw [ne_eq, map_getLast?_eq_some_iff (List.pairwise_append.mp hsorted').1]
        simp
      have hlast : (seen ++ [a]).getLast?.map group = some (group a) := by simp
      rw [writeGroups, hfirst, ← hlast, ih hsorted', withEarlier_cons, List.flatMap_cons,
        List.flatMap_map]
      simp only [List.append_nil, List.append_assoc, List.singleton_append]

/-- Over a sorted list the loop finds the elements that are the first of their group. -/
theorem writeGroups_of_sorted {l : List α}
    (hsorted : l.Pairwise fun first second => group first ≤ group second) :
    writeGroups group write none l =
      (withEarlier l).flatMap fun pair =>
        write (decide (∀ earlier ∈ pair.1, group earlier ≠ group pair.2)) pair.2 := by
  have hseen : ([] ++ l).Pairwise fun first second => group first ≤ group second := hsorted
  exact writeGroups_of_seen hseen

end Groups

/-! ## A loop that stops at the first failure -/

section Converting

universe z

variable {ε : Type z} {f : α → Option (Except ε β)} {l others : List α}

/-- Convert each element and stop at the first that fails; `none` is a panic. -/
def convertAll (f : α → Option (Except ε β)) : List α → Option (Except ε (List β))
  | [] => some (.ok [])
  | a :: rest =>
      match f a with
      | none => none
      | some (.error err) => some (.error err)
      | some (.ok b) => (convertAll f rest).map fun later => later.map (b :: ·)

/-- Either every element is converted, or the loop ends as one of them does. -/
theorem convertAll_cases (f : α → Option (Except ε β)) (l : List α) :
    (∃ out, convertAll f l = some (.ok out) ∧
      List.Forall₂ (fun a b => f a = some (.ok b)) l out) ∨
    (∃ a ∈ l, f a = none ∧ convertAll f l = none) ∨
    ∃ a ∈ l, ∃ err, f a = some (.error err) ∧ convertAll f l = some (.error err) := by
  induction l with
  | nil => exact .inl ⟨[], rfl, .nil⟩
  | cons a rest ih =>
      rw [convertAll]
      cases hfound : f a with
      | none => exact .inr (.inl ⟨a, List.mem_cons_self, hfound, rfl⟩)
      | some found =>
          cases found with
          | error err => exact .inr (.inr ⟨a, List.mem_cons_self, err, hfound, rfl⟩)
          | ok b =>
              rcases ih with ⟨out, hout, hall⟩ | ⟨a', ha', hnone, hrest⟩ |
                ⟨a', ha', err, herr, hrest⟩
              · exact .inl ⟨b :: out, by rw [hout]; rfl, .cons hfound hall⟩
              · exact .inr (.inl ⟨a', List.mem_cons_of_mem _ ha', hnone, by rw [hrest]; rfl⟩)
              · exact .inr (.inr
                  ⟨a', List.mem_cons_of_mem _ ha', err, herr, by rw [hrest]; rfl⟩)

/-- The loop gives a list exactly if every element is converted into the one at its place. -/
theorem convertAll_eq_ok_iff {out : List β} :
    convertAll f l = some (.ok out) ↔ List.Forall₂ (fun a b => f a = some (.ok b)) l out := by
  constructor
  · intro h
    rcases convertAll_cases f l with ⟨found, hfound, hall⟩ | ⟨_, _, _, hnone⟩ | ⟨_, _, _, _, herr⟩
    · rw [h] at hfound
      cases hfound
      exact hall
    · rw [h] at hnone
      cases hnone
    · rw [h] at herr
      cases herr
  · intro hall
    induction hall with
    | nil => rfl
    | cons hfirst _ ih =>
        rw [convertAll, hfirst]
        simp only [ih]
        rfl

theorem convertAll_perm_ok {out : List β} (hperm : l.Perm others)
    (h : convertAll f l = some (.ok out)) :
    ∃ out', convertAll f others = some (.ok out') ∧ out.Perm out' := by
  obtain ⟨out', hall, hout⟩ := List.perm_comp_forall₂ hperm.symm (convertAll_eq_ok_iff.mp h)
  exact ⟨out', convertAll_eq_ok_iff.mpr hall, hout.symm⟩

/-- Where no element panics and all fail with one error, the loop converts the elements of
every order or fails for every order. -/
theorem convertAll_perm {err : ε} (hperm : l.Perm others) (htotal : ∀ a ∈ l, f a ≠ none)
    (hone : ∀ a ∈ l, ∀ err', f a = some (.error err') → err' = err) :
    (∃ out out', convertAll f l = some (.ok out) ∧ convertAll f others = some (.ok out') ∧
      out.Perm out') ∨
    convertAll f l = some (.error err) ∧ convertAll f others = some (.error err) := by
  rcases convertAll_cases f l with ⟨out, hout, _⟩ | ⟨a, ha, hnone, _⟩ | ⟨a, ha, err', herr, hl⟩
  · obtain ⟨out', hout', hperm'⟩ := convertAll_perm_ok hperm hout
    exact .inl ⟨out, out', hout, hout', hperm'⟩
  · exact absurd hnone (htotal a ha)
  · obtain rfl := hone a ha err' herr
    refine .inr ⟨hl, ?_⟩
    rcases convertAll_cases f others with ⟨out, hout, _⟩ | ⟨a', ha', hnone, _⟩ |
      ⟨a', ha', err, herr', hothers⟩
    · obtain ⟨_, hfound, _⟩ := convertAll_perm_ok hperm.symm hout
      rw [hl] at hfound
      cases hfound
    · exact absurd hnone (htotal a' (hperm.mem_iff.mpr ha'))
    · rw [hothers, hone a' (hperm.mem_iff.mpr ha') err herr']

end Converting

end Foundation
