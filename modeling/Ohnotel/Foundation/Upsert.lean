/-
# Lists kept as maps

A list of elements with keys is kept as a map if an element takes the place of the one that
has its key, or else goes to the end.  After any elements, each key has the last one that
came with it, and the keys stand in the order in which they first came.
-/

import Mathlib.Data.List.Induction
import Mathlib.Data.List.Nodup

namespace Foundation

universe u v

variable {α : Type u} {κ : Type v} [DecidableEq κ] (key : α → κ)

/-- Put an element in the place of the first one with its key, or else at the end. -/
def upsert (l : List α) (a : α) : List α :=
  match l.findIdx? fun other => key other = key a with
  | some pos => l.set pos a
  | none => l ++ [a]

/-- The last element with a key. -/
def lastWith (k : κ) (l : List α) : Option α := (l.filter fun a => key a = k).getLast?

variable {key} {l : List α}

@[simp]
theorem upsert_nil (a : α) : upsert key [] a = [a] := rfl

theorem upsert_cons (b : α) (l : List α) (a : α) :
    upsert key (b :: l) a = if key b = key a then a :: l else b :: upsert key l a := by
  by_cases hkey : key b = key a
  · simp [upsert, List.findIdx?_cons, hkey]
  · rw [if_neg hkey, upsert, upsert, List.findIdx?_cons]
    simp only [hkey, decide_false, Bool.false_eq_true, if_false]
    cases l.findIdx? fun other => key other = key a <;> rfl

/-! ## One element -/

/-- Only a new key is added, at the end. -/
theorem map_upsert (l : List α) (a : α) :
    (upsert key l a).map key = if key a ∈ l.map key then l.map key else l.map key ++ [key a] := by
  induction l with
  | nil => rfl
  | cons b rest ih =>
      rw [upsert_cons]
      by_cases hkey : key b = key a
      · simp [hkey]
      · rw [if_neg hkey, List.map_cons, List.map_cons, ih]
        by_cases hmem : key a ∈ rest.map key
        · rw [if_pos hmem, if_pos (List.mem_cons_of_mem _ hmem)]
        · rw [if_neg hmem, if_neg (by simp [Ne.symm hkey, hmem]), List.cons_append]

theorem nodup_upsert (hl : (l.map key).Nodup) (a : α) : ((upsert key l a).map key).Nodup := by
  rw [map_upsert]
  split
  case isTrue => exact hl
  case isFalse hnew =>
    rw [← List.concat_eq_append]
    exact hl.concat hnew

/-- An element replaces the one with its key. -/
theorem mem_upsert (hl : (l.map key).Nodup) {a b : α} :
    b ∈ upsert key l a ↔ b = a ∨ b ∈ l ∧ key b ≠ key a := by
  induction l with
  | nil => simp
  | cons c rest ih =>
      obtain ⟨hc, hrest⟩ := List.nodup_cons.mp hl
      rw [upsert_cons]
      by_cases hkey : key c = key a
      · rw [if_pos hkey, List.mem_cons, List.mem_cons]
        apply or_congr_right
        constructor
        · intro hb
          refine ⟨.inr hb, fun heq => hc ?_⟩
          rw [hkey, ← heq]
          exact List.mem_map_of_mem hb
        · rintro ⟨rfl | hb, hne⟩
          · exact absurd hkey hne
          · exact hb
      · rw [if_neg hkey, List.mem_cons, ih hrest, List.mem_cons]
        constructor
        · rintro (rfl | rfl | ⟨hb, hne⟩)
          · exact .inr ⟨.inl rfl, hkey⟩
          · exact .inl rfl
          · exact .inr ⟨.inr hb, hne⟩
        · rintro (rfl | ⟨rfl | hb, hne⟩)
          · exact .inr (.inl rfl)
          · exact .inl rfl
          · exact .inr (.inr ⟨hb, hne⟩)

/-! ## Many elements -/

theorem lastWith_append (k : κ) (l others : List α) :
    lastWith key k (l ++ others) = (lastWith key k others).or (lastWith key k l) := by
  rw [lastWith, lastWith, lastWith, List.filter_append, List.getLast?_append]

theorem lastWith_cons (k : κ) (a : α) (l : List α) :
    lastWith key k (a :: l) = (lastWith key k l).or (if key a = k then some a else none) := by
  rw [← List.singleton_append, lastWith_append]
  by_cases hkey : key a = k
  · simp [lastWith, hkey]
  · simp [lastWith, hkey]

theorem lastWith_eq_none_iff {k : κ} : lastWith key k l = none ↔ k ∉ l.map key := by
  simp [lastWith]

theorem nodup_foldl_upsert (hl : (l.map key).Nodup) (elements : List α) :
    ((elements.foldl (upsert key) l).map key).Nodup := by
  induction elements generalizing l with
  | nil => exact hl
  | cons a rest ih => exact ih (nodup_upsert hl a)

/-- After any elements each key has the last one that came with it. -/
theorem mem_foldl_upsert {elements : List α} {b : α} :
    b ∈ elements.foldl (upsert key) [] ↔ lastWith key (key b) elements = some b := by
  induction elements using List.reverseRecOn with
  | nil => simp [lastWith]
  | append_singleton elements a ih =>
      rw [List.foldl_concat, mem_upsert (nodup_foldl_upsert (l := []) List.nodup_nil elements), ih,
        lastWith_append]
      by_cases hkey : key a = key b
      · simp [lastWith, hkey, eq_comm]
      · have hne : b ≠ a := fun heq => hkey (congrArg key heq.symm)
        simp [lastWith, hkey, hne, Ne.symm hkey]

theorem eraseDups_of_nodup {keys : List κ} (hkeys : keys.Nodup) : keys.eraseDups = keys := by
  induction keys with
  | nil => rfl
  | cons k rest ih =>
      obtain ⟨hk, hrest⟩ := List.nodup_cons.mp hkeys
      have hsame : (rest.filter fun other => !other == k) = rest := by
        apply List.filter_eq_self.mpr
        intro other hother
        have hne : other ≠ k := ne_of_mem_of_not_mem hother hk
        simpa using hne
      rw [List.eraseDups_cons, hsame, ih hrest]

/-- What comes second adds the keys that are new. -/
theorem eraseDups_append_of_nodup {keys others : List κ} (hothers : others.Nodup) :
    (keys ++ others).eraseDups = keys.eraseDups ++ others.filter fun k => k ∉ keys := by
  have hnew : others.removeAll keys = others.filter fun k => k ∉ keys := by
    simp [List.removeAll]
  rw [List.eraseDups_append, hnew, eraseDups_of_nodup (hothers.filter _)]

/-- After any elements the keys stand in the order in which they first came. -/
theorem map_foldl_upsert (elements : List α) :
    (elements.foldl (upsert key) []).map key = (elements.map key).eraseDups := by
  induction elements using List.reverseRecOn with
  | nil => rfl
  | append_singleton elements a ih =>
      rw [List.foldl_concat, map_upsert, ih, List.map_append, List.map_singleton,
        eraseDups_append_of_nodup (List.nodup_singleton (key a))]
      by_cases hmem : key a ∈ elements.map key
      · rw [if_pos (List.mem_eraseDups.mpr hmem), List.filter_cons_of_neg (by simpa using hmem),
          List.filter_nil, List.append_nil]
      · rw [if_neg fun h => hmem (List.mem_eraseDups.mp h),
          List.filter_cons_of_pos (by simpa using hmem), List.filter_nil]

end Foundation
