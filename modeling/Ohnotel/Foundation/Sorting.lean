/-
# Sorting by a key

A list sorted by a key has two elements of one key exactly if it has two such elements
side by side.  A map kept in the order of its keys is a list whose keys increase.
-/

import Mathlib.Data.List.Sort

namespace Foundation

universe u v

variable {α : Type u} {κ : Type v} [LinearOrder κ]

/-! ## The order by which sets are sorted

Under these names every `Finset.sort` over a linear order finds the same two facts. -/

instance linearOrder_isTrans_le : IsTrans κ (· ≤ ·) := inferInstance

instance linearOrder_antisymm_le : Std.Antisymm (α := κ) (· ≤ ·) := inferInstance

/-! ## Sorted lists -/

/-- The elements in the order of their keys. -/
def sortOn (key : α → κ) (l : List α) : List α := l.insertionSort fun a b => key a ≤ key b

/-- The first two neighbours of one key. -/
def firstRepeat (key : α → κ) (l : List α) : Option (α × α) :=
  (l.zip l.tail).find? fun pair => key pair.1 = key pair.2

variable {key : α → κ} {l : List α}

theorem perm_sortOn (key : α → κ) (l : List α) : (sortOn key l).Perm l :=
  List.perm_insertionSort _ l

@[simp]
theorem mem_sortOn {a : α} : a ∈ sortOn key l ↔ a ∈ l := (perm_sortOn key l).mem_iff

theorem pairwise_sortOn (key : α → κ) (l : List α) :
    (sortOn key l).Pairwise fun a b => key a ≤ key b := by
  have : Std.Total fun a b => key a ≤ key b := ⟨fun a b => le_total (key a) (key b)⟩
  have : IsTrans α fun a b => key a ≤ key b := ⟨fun _ _ _ => le_trans⟩
  exact List.pairwise_insertionSort _ l

/-- Sorting and then changing what is not part of the key is the same as the other way
round. -/
theorem map_sortOn {β : Type u} {key' : β → κ} {f : α → β} (hkey : ∀ a, key' (f a) = key a)
    (l : List α) : (sortOn key l).map f = sortOn key' (l.map f) := by
  apply List.map_insertionSort
  simp [hkey]

/-- A sorted list without equal neighbours has no two elements of one key. -/
theorem pairwise_lt_of_firstRepeat_eq_none (hsorted : l.Pairwise fun a b => key a ≤ key b)
    (hnone : firstRepeat key l = none) : l.Pairwise fun a b => key a < key b := by
  induction l with
  | nil => exact .nil
  | cons a rest ih =>
      obtain ⟨ha, hrest⟩ := List.pairwise_cons.mp hsorted
      cases rest with
      | nil => exact List.pairwise_singleton _ a
      | cons b later =>
          have hnone' := List.find?_eq_none.mp hnone
          have hab : key a < key b := by
            refine lt_of_le_of_ne (ha b List.mem_cons_self) fun heq => ?_
            exact hnone' (a, b) List.mem_cons_self (by simpa using heq)
          have hlater : (b :: later).Pairwise fun a b => key a < key b := by
            refine ih hrest (List.find?_eq_none.mpr fun pair hpair => ?_)
            exact hnone' pair (List.mem_cons_of_mem (a, b) hpair)
          refine List.pairwise_cons.mpr ⟨fun c hc => ?_, hlater⟩
          rcases List.mem_cons.mp hc with rfl | hc
          · exact hab
          · exact hab.trans ((List.pairwise_cons.mp hlater).1 c hc)

/-- Two neighbours of one key are two elements of one key. -/
theorem exists_perm_of_firstRepeat {a b : α} (hfound : firstRepeat key l = some (a, b)) :
    key a = key b ∧ ∃ rest, l.Perm (a :: b :: rest) := by
  refine ⟨by simpa using List.find?_some hfound, ?_⟩
  have hmem := List.mem_of_find?_eq_some hfound
  clear hfound
  induction l with
  | nil => simp at hmem
  | cons first rest ih =>
      cases rest with
      | nil => simp at hmem
      | cons second later =>
          rcases List.mem_cons.mp hmem with heq | hmem
          · obtain ⟨rfl, rfl⟩ := Prod.mk.inj heq
            exact ⟨later, List.Perm.refl _⟩
          · obtain ⟨others, hperm⟩ := ih hmem
            have hmoved : (first :: a :: b :: others).Perm (a :: b :: first :: others) :=
              (List.Perm.swap a first _).trans ((List.Perm.swap b first _).cons a)
            exact ⟨first :: others, (hperm.cons first).trans hmoved⟩

/-- A list in which the key increases has no equal neighbours. -/
theorem firstRepeat_eq_none (hl : l.Pairwise fun a b => key a < key b) :
    firstRepeat key l = none := by
  by_contra hsome
  obtain ⟨⟨a, b⟩, hfound⟩ := Option.ne_none_iff_exists'.mp hsome
  obtain ⟨heq, rest, hperm⟩ := exists_perm_of_firstRepeat hfound
  have hne : (a :: b :: rest).Pairwise fun a b => key a ≠ key b :=
    hperm.pairwise (hl.imp ne_of_lt) fun h => Ne.symm h
  exact (List.pairwise_cons.mp hne).1 b List.mem_cons_self heq

/-- Two lists in which the key increases are the same if they have the same elements. -/
theorem eq_of_pairwise_lt {other : List α} (hl : l.Pairwise fun a b => key a < key b)
    (hother : other.Pairwise fun a b => key a < key b) (hmem : ∀ a, a ∈ l ↔ a ∈ other) :
    l = other := by
  have : Std.Irrefl fun a b => key a < key b := ⟨fun a => lt_irrefl (key a)⟩
  have : Std.Antisymm fun a b => key a < key b :=
    ⟨fun a b hab hba => absurd hba hab.asymm⟩
  exact hl.eq_of_mem_iff hother hmem

/-- Lists with the same elements are sorted into the same list, if no two have one key. -/
theorem sortOn_eq_of_perm {other : List α} (hperm : l.Perm other)
    (hl : (sortOn key l).Pairwise fun a b => key a < key b) : sortOn key other = sortOn key l := by
  have hsorted : (sortOn key l).Perm (sortOn key other) :=
    (perm_sortOn key l).trans (hperm.trans (perm_sortOn key other).symm)
  have hne : (sortOn key other).Pairwise fun a b => key a ≠ key b :=
    hsorted.pairwise (hl.imp ne_of_lt) fun h => Ne.symm h
  have hother : (sortOn key other).Pairwise fun a b => key a < key b :=
    (pairwise_sortOn key other).imp₂ (fun _ _ hle hne => lt_of_le_of_ne hle hne) hne
  exact eq_of_pairwise_lt hother hl fun a => hsorted.mem_iff.symm

/-! ## Sorted maps -/

/-- A map from keys to values, kept in the order of its keys. -/
structure SortedMap (κ : Type v) (α : Type u) [LinearOrder κ] where
  entries : List (κ × α)
  increasing : entries.Pairwise fun a b => a.1 < b.1

namespace SortedMap

/-- File a value under a key, in the place of the one that is there. -/
def insertEntry (key : κ) (value : α) : List (κ × α) → List (κ × α)
  | [] => [(key, value)]
  | entry :: rest =>
      if key < entry.1 then (key, value) :: entry :: rest
      else if key = entry.1 then (key, value) :: rest
      else entry :: insertEntry key value rest

theorem mem_insertEntry {entries : List (κ × α)}
    (hincreasing : entries.Pairwise fun a b => a.1 < b.1) {key : κ} {value : α} {e : κ × α} :
    e ∈ insertEntry key value entries ↔ e = (key, value) ∨ e ∈ entries ∧ e.1 ≠ key := by
  induction entries with
  | nil => simp [insertEntry]
  | cons entry rest ih =>
      obtain ⟨hentry, hrest⟩ := List.pairwise_cons.mp hincreasing
      have hlater : ∀ other ∈ rest, key ≤ entry.1 → other.1 ≠ key :=
        fun other hother hle => (hle.trans_lt (hentry other hother)).ne'
      rw [insertEntry]
      by_cases hlt : key < entry.1
      · have hother : ∀ other ∈ entry :: rest, other.1 ≠ key := by
          intro other hmem
          rcases List.mem_cons.mp hmem with rfl | hmem
          · exact hlt.ne'
          · exact hlater other hmem hlt.le
        rw [if_pos hlt, List.mem_cons]
        exact or_congr_right (and_iff_left_of_imp (hother e)).symm
      · rw [if_neg hlt]
        by_cases heq : key = entry.1
        · rw [if_pos heq, List.mem_cons, List.mem_cons]
          apply or_congr_right
          constructor
          · exact fun hmem => ⟨.inr hmem, hlater e hmem heq.le⟩
          · rintro ⟨rfl | hmem, hne⟩
            · exact absurd heq.symm hne
            · exact hmem
        · rw [if_neg heq, List.mem_cons, ih hrest, List.mem_cons]
          constructor
          · rintro (rfl | rfl | ⟨hmem, hne⟩)
            · exact .inr ⟨.inl rfl, Ne.symm heq⟩
            · exact .inl rfl
            · exact .inr ⟨.inr hmem, hne⟩
          · rintro (rfl | ⟨rfl | hmem, hne⟩)
            · exact .inr (.inl rfl)
            · exact .inl rfl
            · exact .inr (.inr ⟨hmem, hne⟩)

theorem pairwise_insertEntry {entries : List (κ × α)}
    (hincreasing : entries.Pairwise fun a b => a.1 < b.1) (key : κ) (value : α) :
    (insertEntry key value entries).Pairwise fun a b => a.1 < b.1 := by
  induction entries with
  | nil => exact List.pairwise_singleton _ _
  | cons entry rest ih =>
      obtain ⟨hentry, hrest⟩ := List.pairwise_cons.mp hincreasing
      rw [insertEntry]
      by_cases hlt : key < entry.1
      · rw [if_pos hlt]
        refine List.pairwise_cons.mpr ⟨fun other hmem => ?_, hincreasing⟩
        rcases List.mem_cons.mp hmem with rfl | hmem
        · exact hlt
        · exact hlt.trans (hentry other hmem)
      · rw [if_neg hlt]
        by_cases heq : key = entry.1
        · rw [if_pos heq]
          exact List.pairwise_cons.mpr ⟨fun other hmem => heq ▸ hentry other hmem, hrest⟩
        · rw [if_neg heq]
          refine List.pairwise_cons.mpr ⟨fun other hmem => ?_, ih hrest⟩
          rcases (mem_insertEntry hrest).mp hmem with rfl | ⟨hmem, _⟩
          · exact lt_of_le_of_ne (not_lt.mp hlt) (Ne.symm heq)
          · exact hentry other hmem

def empty : SortedMap κ α where
  entries := []
  increasing := .nil

def insert (m : SortedMap κ α) (key : κ) (value : α) : SortedMap κ α where
  entries := insertEntry key value m.entries
  increasing := pairwise_insertEntry m.increasing key value

def lookup (m : SortedMap κ α) (key : κ) : Option α :=
  (m.entries.find? fun entry => entry.1 = key).map Prod.snd

variable {m : SortedMap κ α} {value : α}

@[simp]
theorem entries_empty : (empty : SortedMap κ α).entries = [] := rfl

theorem mem_entries_insert {key : κ} {e : κ × α} :
    e ∈ (m.insert key value).entries ↔ e = (key, value) ∨ e ∈ m.entries ∧ e.1 ≠ key :=
  mem_insertEntry m.increasing

theorem nodup_keys (m : SortedMap κ α) : (m.entries.map Prod.fst).Nodup :=
  List.pairwise_map.mpr (m.increasing.imp ne_of_lt)

/-- A key has one entry. -/
theorem entry_unique {first second : κ × α} (hfirst : first ∈ m.entries)
    (hsecond : second ∈ m.entries) (hkey : first.1 = second.1) : first = second :=
  List.inj_on_of_nodup_map m.nodup_keys hfirst hsecond hkey

theorem lookup_eq_some_iff {key : κ} : m.lookup key = some value ↔ (key, value) ∈ m.entries := by
  rw [lookup, Option.map_eq_some_iff]
  constructor
  · rintro ⟨entry, hfind, rfl⟩
    obtain rfl : entry.1 = key := by simpa using List.find?_some hfind
    exact List.mem_of_find?_eq_some hfind
  · intro hmem
    have hsome : (m.entries.find? fun entry => entry.1 = key).isSome :=
      List.find?_isSome.mpr ⟨(key, value), hmem, by simp⟩
    obtain ⟨entry, hfind⟩ := Option.isSome_iff_exists.mp hsome
    have hkey : entry.1 = key := by simpa using List.find?_some hfind
    have hentry := entry_unique (List.mem_of_find?_eq_some hfind) hmem hkey
    exact ⟨entry, hfind, congrArg Prod.snd hentry⟩

theorem lookup_eq_none_iff {key : κ} : m.lookup key = none ↔ ∀ e ∈ m.entries, e.1 ≠ key := by
  simp [lookup, List.find?_eq_none]

end SortedMap
end Foundation
