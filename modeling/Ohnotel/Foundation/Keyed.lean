/-
# Folds that touch one key at a time

A fold over a list may rewrite a state that is kept by key, each element rewriting
what is kept under its own key and nothing else.  When no key occurs twice, the whole
fold is described key by key: what is kept under a key is rewritten by the one element
that has it, if there is one.
-/

import Mathlib.Data.List.Nodup

namespace Foundation

universe u v w x

/-- How a step rewrites a state that is seen key by key. -/
structure Keyed (S : Type u) (E : Type v) (Key : Type w) (W : Type x) where
  step : S → E → S
  key : E → Key
  /-- What is kept under a key. -/
  view : S → Key → W
  /-- What an element does to what is kept under its key. -/
  rewrite : E → W → W
  view_own : ∀ state element,
    view (step state element) (key element) = rewrite element (view state (key element))
  view_other : ∀ state element other, other ≠ key element →
    view (step state element) other = view state other

namespace Keyed

variable {S : Type u} {E : Type v} {Key : Type w} {W : Type x} (keyed : Keyed S E Key W)

/-- A key that no element has is left alone. -/
theorem view_foldl_of_not_mem {elements : List E} {other : Key}
    (hother : other ∉ elements.map keyed.key) (state : S) :
    keyed.view (elements.foldl keyed.step state) other = keyed.view state other := by
  induction elements generalizing state with
  | nil => rfl
  | cons first rest ih =>
      rw [List.map_cons, List.mem_cons, not_or] at hother
      rw [List.foldl_cons, ih hother.2, keyed.view_other _ _ _ hother.1]

/-- A key that one element has is rewritten by that element. -/
theorem view_foldl_of_mem {elements : List E} (hnodup : (elements.map keyed.key).Nodup)
    {element : E} (hmem : element ∈ elements) (state : S) :
    keyed.view (elements.foldl keyed.step state) (keyed.key element) =
      keyed.rewrite element (keyed.view state (keyed.key element)) := by
  induction elements generalizing state with
  | nil => simp at hmem
  | cons first rest ih =>
      rw [List.map_cons, List.nodup_cons] at hnodup
      rw [List.foldl_cons]
      cases List.mem_cons.mp hmem with
      | inl hsame =>
          subst hsame
          rw [keyed.view_foldl_of_not_mem hnodup.1, keyed.view_own]
      | inr hlater =>
          have hne : keyed.key element ≠ keyed.key first := by
            intro hsame
            exact hnodup.1 (hsame ▸ List.mem_map_of_mem hlater)
          rw [ih hnodup.2 hlater, keyed.view_other _ _ _ hne]

end Keyed

/-- Lists of keyed values that have the same values under every key are permutations of
each other. -/
theorem perm_of_forall_filter_eq {Key : Type u} {W : Type v} [DecidableEq Key] [DecidableEq W]
    {first second : List (Key × W)}
    (h : ∀ key, (first.filter fun pair => pair.1 = key).map Prod.snd =
      (second.filter fun pair => pair.1 = key).map Prod.snd) : first.Perm second := by
  have hcount : ∀ (l : List (Key × W)) (pair : Key × W),
      l.count pair = ((l.filter fun other => other.1 = pair.1).map Prod.snd).count pair.2 := by
    intro l pair
    rw [List.count, List.count, List.countP_map, List.countP_filter]
    apply List.countP_congr
    intro other _
    simp [Prod.ext_iff, and_comm]
  apply List.perm_iff_count.mpr
  intro pair
  rw [hcount first, hcount second, h]

end Foundation
