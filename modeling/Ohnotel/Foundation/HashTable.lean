/-
# Raw hash tables

A raw table files an element under a hash that its caller supplies and finds it
again by a hash and an equality test, both supplied anew on each call; it keeps
no key of its own.  Nothing therefore forces a caller to search under the hash an
element was filed under, and a caller that does not will miss it.  The lemmas
below isolate that obligation as `FiledBy`: once every element is filed under one
function of itself, searching is membership, whatever the table's layout.

The order in which a table is walked, and the moments at which it moves its
elements to a larger allocation, are an implementation's business.  They are kept
as an arbitrary `Layout`.
-/

import Mathlib.Data.List.Perm.Basic

namespace Foundation

/-- The choices an implementation of the table makes for itself. -/
structure Layout where
  /-- Whether a table that holds so many elements reallocates, and hashes its
  elements anew, before it makes room for another. -/
  reallocates : Nat → Bool
  /-- The order in which filed elements are walked. -/
  arrange : ∀ {E : Type}, List (UInt64 × E) → List (UInt64 × E)
  /-- Arranging neither loses nor repeats an element. -/
  arrange_perm : ∀ {E : Type} (slots : List (UInt64 × E)), (arrange slots).Perm slots

/-- The layout that never moves an element and walks the newest one first. -/
def Layout.stack : Layout where
  reallocates _ := false
  arrange slots := slots
  arrange_perm slots := List.Perm.refl slots

/-- A table is the list of its occupied slots: the hash an element was filed
under, and the element. -/
structure HashTable (E : Type) where
  slots : List (UInt64 × E)

/-- Walk a list with a stateful test and keep the elements that pass it. -/
def retainList {σ α : Type} (keep : σ → α → Bool × σ) : σ → List α → List α × σ
  | state, [] => ([], state)
  | state, a :: rest =>
      let decision := keep state a
      let kept := retainList keep decision.2 rest
      (if decision.1 then a :: kept.1 else kept.1, kept.2)

/-- Apply `f` to the first element that passes the test. -/
def modifyFirst {α : Type} (test : α → Bool) (f : α → α) : List α → List α
  | [] => []
  | a :: rest => if test a then f a :: rest else a :: modifyFirst test f rest

theorem modifyFirst_split {α : Type} {test : α → Bool} {l : List α} {a : α}
    (hfind : l.find? test = some a) (f : α → α) :
    ∃ before after, l = before ++ a :: after ∧
      modifyFirst test f l = before ++ f a :: after := by
  induction l with
  | nil => simp at hfind
  | cons b rest ih =>
      by_cases hb : test b
      · obtain rfl : b = a := by simpa [List.find?_cons, hb] using hfind
        exact ⟨[], rest, rfl, by simp [modifyFirst, hb]⟩
      · have hrest : rest.find? test = some a := by simpa [List.find?_cons, hb] using hfind
        obtain ⟨before, after, hl, hmod⟩ := ih hrest
        exact ⟨b :: before, after, by simp [hl], by simp [modifyFirst, hb, hmod]⟩

namespace HashTable

variable {E : Type}

/-- The table with no element. -/
def empty : HashTable E := ⟨[]⟩

/-- The elements, in the order in which they are walked. -/
def elems (t : HashTable E) : List E := t.slots.map Prod.snd

/-- The first element filed under `hash` that passes the equality test. -/
def find (t : HashTable E) (hash : UInt64) (eq : E → Bool) : Option E :=
  (t.slots.find? fun slot => slot.1 == hash && eq slot.2).map Prod.snd

/-- Make room for one more element, hashing the present ones anew when the table
reallocates. -/
def reserve (layout : Layout) (rehash : E → UInt64) (t : HashTable E) : HashTable E :=
  if layout.reallocates t.slots.length then
    ⟨layout.arrange (t.slots.map fun slot => (rehash slot.2, slot.2))⟩
  else t

/-- File `e` under `hash`, beside whatever is there. -/
def insert (layout : Layout) (hash : UInt64) (e : E) (t : HashTable E) : HashTable E :=
  ⟨layout.arrange ((hash, e) :: t.slots)⟩

/-- Rewrite in place the element `find` returns. -/
def modify (hash : UInt64) (eq : E → Bool) (f : E → E) (t : HashTable E) : HashTable E :=
  ⟨modifyFirst (fun slot => slot.1 == hash && eq slot.2) (fun slot => (slot.1, f slot.2))
    t.slots⟩

/-- Take out the element `find` returns. -/
def remove (hash : UInt64) (eq : E → Bool) (t : HashTable E) : HashTable E :=
  ⟨t.slots.eraseP fun slot => slot.1 == hash && eq slot.2⟩

/-- Walk the whole table once with a stateful test and keep what passes it. -/
def retain {σ : Type} (keep : σ → E → Bool × σ) (state : σ) (t : HashTable E) :
    HashTable E × σ :=
  let kept := retainList (fun state slot => keep state slot.2) state t.slots
  (⟨kept.1⟩, kept.2)

/-- Every element sits under the hash that `hashOf` gives it. -/
def FiledBy (hashOf : E → UInt64) (t : HashTable E) : Prop :=
  ∀ slot ∈ t.slots, slot.1 = hashOf slot.2

@[simp]
theorem elems_empty : (empty : HashTable E).elems = [] := rfl

theorem filedBy_empty (hashOf : E → UInt64) : (empty : HashTable E).FiledBy hashOf := by
  intro slot hslot
  simp [empty] at hslot

theorem mem_elems {t : HashTable E} {e : E} :
    e ∈ t.elems ↔ ∃ hash, (hash, e) ∈ t.slots := by
  simp [elems]

/-! ## Searching -/

theorem find_sound {t : HashTable E} {hash : UInt64} {eq : E → Bool} {e : E}
    (hfind : t.find hash eq = some e) : e ∈ t.elems ∧ eq e = true := by
  obtain ⟨slot, hslot, rfl⟩ := Option.map_eq_some_iff.mp hfind
  have htest := List.find?_some hslot
  simp only [Bool.and_eq_true] at htest
  exact ⟨List.mem_map_of_mem (List.mem_of_find?_eq_some hslot), htest.2⟩

/-- In a table filed by `hashOf`, a search under the right hash misses only what
is not there. -/
theorem find_eq_none_iff {hashOf : E → UInt64} {t : HashTable E} (hfiled : t.FiledBy hashOf)
    {hash : UInt64} {eq : E → Bool} (hhash : ∀ e ∈ t.elems, eq e = true → hashOf e = hash) :
    t.find hash eq = none ↔ ∀ e ∈ t.elems, eq e = false := by
  simp only [find, Option.map_eq_none_iff, List.find?_eq_none, Bool.and_eq_true, beq_iff_eq,
    not_and, Bool.not_eq_true]
  constructor
  · intro hnone e he
    obtain ⟨filed, hslot⟩ := mem_elems.mp he
    by_contra hne
    have heq : eq e = true := by simpa using hne
    have hfiledHere : filed = hash := (hfiled _ hslot).trans (hhash e he heq)
    exact hne (hnone _ hslot hfiledHere)
  · intro hall slot hslot _
    exact hall slot.2 (List.mem_map_of_mem hslot)

/-- In a table filed by `hashOf`, a search under the right hash for something
that at most one element passes finds that element. -/
theorem find_eq_some_iff {hashOf : E → UInt64} {t : HashTable E} (hfiled : t.FiledBy hashOf)
    {hash : UInt64} {eq : E → Bool} (hhash : ∀ e ∈ t.elems, eq e = true → hashOf e = hash)
    (hunique : ∀ e ∈ t.elems, ∀ e' ∈ t.elems, eq e = true → eq e' = true → e = e') {e : E} :
    t.find hash eq = some e ↔ e ∈ t.elems ∧ eq e = true := by
  refine ⟨find_sound, fun ⟨he, heq⟩ => ?_⟩
  cases hfind : t.find hash eq with
  | none =>
      have habsent := (find_eq_none_iff hfiled hhash).mp hfind e he
      simp [heq] at habsent
  | some found =>
      obtain ⟨hmem, htest⟩ := find_sound hfind
      rw [hunique found hmem e he htest heq]

/-! ## Making room and inserting -/

theorem elems_reserve_perm (layout : Layout) (rehash : E → UInt64) (t : HashTable E) :
    (t.reserve layout rehash).elems.Perm t.elems := by
  unfold reserve elems
  split
  · refine ((layout.arrange_perm _).map Prod.snd).trans ?_
    simp [Function.comp_def]
  · exact List.Perm.refl _

theorem filedBy_reserve (layout : Layout) {hashOf : E → UInt64} {t : HashTable E}
    (hfiled : t.FiledBy hashOf) : (t.reserve layout hashOf).FiledBy hashOf := by
  unfold reserve
  split
  · intro slot hslot
    have hmem := (layout.arrange_perm _).mem_iff.mp hslot
    obtain ⟨old, _, rfl⟩ := List.mem_map.mp hmem
    rfl
  · exact hfiled

theorem elems_insert_perm (layout : Layout) (hash : UInt64) (e : E) (t : HashTable E) :
    (t.insert layout hash e).elems.Perm (e :: t.elems) := by
  simpa [elems, insert] using (layout.arrange_perm ((hash, e) :: t.slots)).map Prod.snd

theorem filedBy_insert (layout : Layout) {hashOf : E → UInt64} {t : HashTable E}
    (hfiled : t.FiledBy hashOf) {hash : UInt64} {e : E} (hhash : hash = hashOf e) :
    (t.insert layout hash e).FiledBy hashOf := by
  intro slot hslot
  have hmem := (layout.arrange_perm _).mem_iff.mp hslot
  rcases List.mem_cons.mp hmem with rfl | hold
  · exact hhash
  · exact hfiled slot hold

/-! ## Rewriting and removing one element -/

theorem elems_modify {t : HashTable E} {hash : UInt64} {eq : E → Bool} {e : E}
    (hfind : t.find hash eq = some e) (f : E → E) :
    ∃ before after, t.elems = before ++ e :: after ∧
      (t.modify hash eq f).elems = before ++ f e :: after := by
  obtain ⟨slot, hslot, rfl⟩ := Option.map_eq_some_iff.mp hfind
  obtain ⟨before, after, hslots, hmodified⟩ :=
    modifyFirst_split hslot fun slot => (slot.1, f slot.2)
  exact ⟨before.map Prod.snd, after.map Prod.snd, by simp [elems, hslots],
    by simp [elems, modify, hmodified]⟩

theorem mem_elems_modify_self {t : HashTable E} {hash : UInt64} {eq : E → Bool} {e : E}
    (hfind : t.find hash eq = some e) (f : E → E) : f e ∈ (t.modify hash eq f).elems := by
  obtain ⟨before, after, _, hmodified⟩ := elems_modify hfind f
  simp [hmodified]

/-- Rewriting adds the rewritten element only. -/
theorem mem_of_mem_elems_modify {t : HashTable E} {hash : UInt64} {eq : E → Bool} {e e' : E}
    (hfind : t.find hash eq = some e) {f : E → E} (he' : e' ∈ (t.modify hash eq f).elems) :
    e' ∈ t.elems ∨ e' = f e := by
  obtain ⟨before, after, helems, hmodified⟩ := elems_modify hfind f
  rw [hmodified, List.mem_append, List.mem_cons] at he'
  rw [helems, List.mem_append, List.mem_cons]
  tauto

/-- Rewriting takes away at most the element that is rewritten. -/
theorem mem_elems_modify_of_mem {t : HashTable E} {hash : UInt64} {eq : E → Bool} {e e' : E}
    (hfind : t.find hash eq = some e) (f : E → E) (he' : e' ∈ t.elems) :
    e' ∈ (t.modify hash eq f).elems ∨ e' = e := by
  obtain ⟨before, after, helems, hmodified⟩ := elems_modify hfind f
  rw [helems, List.mem_append, List.mem_cons] at he'
  rw [hmodified, List.mem_append, List.mem_cons]
  tauto

/-- What `f` leaves alone, rewriting leaves alone. -/
theorem map_elems_modify {β : Type} (g : E → β) {f : E → E} (hg : ∀ e, g (f e) = g e)
    (t : HashTable E) (hash : UInt64) (eq : E → Bool) :
    (t.modify hash eq f).elems.map g = t.elems.map g := by
  have hkeep : ∀ slots : List (UInt64 × E),
      (modifyFirst (fun slot => slot.1 == hash && eq slot.2)
        (fun slot => (slot.1, f slot.2)) slots).map (fun slot => g slot.2) =
        slots.map fun slot => g slot.2 := by
    intro slots
    induction slots with
    | nil => rfl
    | cons first rest ih =>
        unfold modifyFirst
        split
        · simp [hg]
        · simp [ih]
  simpa [elems, modify, Function.comp_def] using hkeep t.slots

theorem filedBy_modify {hashOf : E → UInt64} {t : HashTable E} (hfiled : t.FiledBy hashOf)
    (hash : UInt64) (eq : E → Bool) {f : E → E} (hf : ∀ e, hashOf (f e) = hashOf e) :
    (t.modify hash eq f).FiledBy hashOf := by
  have hkeep : ∀ slots : List (UInt64 × E), (∀ slot ∈ slots, slot.1 = hashOf slot.2) →
      ∀ slot ∈ modifyFirst (fun slot => slot.1 == hash && eq slot.2)
        (fun slot => (slot.1, f slot.2)) slots, slot.1 = hashOf slot.2 := by
    intro slots
    induction slots with
    | nil => simp [modifyFirst]
    | cons first rest ih =>
        intro hall slot hslot
        unfold modifyFirst at hslot
        split at hslot
        · rcases List.mem_cons.mp hslot with rfl | hrest
          · simpa [hf] using hall first (by simp)
          · exact hall slot (by simp [hrest])
        · rcases List.mem_cons.mp hslot with rfl | hrest
          · exact hall slot (by simp)
          · exact ih (fun s hs => hall s (by simp [hs])) slot hrest
  exact hkeep t.slots hfiled

theorem remove_of_find_eq_none {t : HashTable E} {hash : UInt64} {eq : E → Bool}
    (hfind : t.find hash eq = none) : t.remove hash eq = t := by
  have hnone : t.slots.find? (fun slot => slot.1 == hash && eq slot.2) = none :=
    Option.map_eq_none_iff.mp hfind
  have herase := List.eraseP_of_forall_not (List.find?_eq_none.mp hnone)
  simp only [remove, herase]

/-- Removing takes out exactly what a search under the same hash and test
finds. -/
theorem elems_remove_perm {t : HashTable E} {hash : UInt64} {eq : E → Bool} {e : E}
    (hfind : t.find hash eq = some e) : t.elems.Perm (e :: (t.remove hash eq).elems) := by
  obtain ⟨slot, hslot, rfl⟩ := Option.map_eq_some_iff.mp hfind
  obtain ⟨htest, before, after, hslots, hbefore⟩ := List.find?_eq_some_iff_append.mp hslot
  have hpassed : ∀ s ∈ before, ¬ (s.1 == hash && eq s.2) = true := by
    intro s hs
    simpa only [Bool.not_eq_true', Bool.not_eq_true] using hbefore s hs
  have herase : t.slots.eraseP (fun slot => slot.1 == hash && eq slot.2) = before ++ after := by
    rw [hslots, List.eraseP_append_right _ hpassed, List.eraseP_cons, htest, cond_true]
  simp only [elems, remove, herase]
  rw [hslots, List.map_append, List.map_cons, List.map_append]
  exact List.perm_middle

theorem filedBy_remove {hashOf : E → UInt64} {t : HashTable E} (hfiled : t.FiledBy hashOf)
    (hash : UInt64) (eq : E → Bool) : (t.remove hash eq).FiledBy hashOf :=
  fun slot hslot => hfiled slot (List.mem_of_mem_eraseP hslot)

/-! ## Walking the table -/

theorem retainList_sublist {σ α : Type} (keep : σ → α → Bool × σ) (state : σ) (l : List α) :
    (retainList keep state l).1.Sublist l := by
  induction l generalizing state with
  | nil => exact List.Sublist.slnil
  | cons a rest ih =>
      simp only [retainList]
      split
      · exact (ih _).cons_cons a
      · exact (ih _).cons a

theorem retainList_map {σ α β : Type} (keep : σ → β → Bool × σ) (g : α → β) (state : σ)
    (l : List α) :
    retainList keep state (l.map g) =
      ((retainList (fun s a => keep s (g a)) state l).1.map g,
        (retainList (fun s a => keep s (g a)) state l).2) := by
  induction l generalizing state with
  | nil => rfl
  | cons a rest ih =>
      simp only [List.map_cons, retainList, ih]
      split <;> rfl

/-- Walking a table is walking the list of its elements. -/
theorem elems_retain {σ : Type} (keep : σ → E → Bool × σ) (state : σ) (t : HashTable E) :
    (t.retain keep state).1.elems = (retainList keep state t.elems).1 := by
  simp [retain, elems, retainList_map]

theorem retain_state {σ : Type} (keep : σ → E → Bool × σ) (state : σ) (t : HashTable E) :
    (t.retain keep state).2 = (retainList keep state t.elems).2 := by
  simp [retain, elems, retainList_map]

theorem retainList_of_keeps {σ α : Type} {keep : σ → α → Bool × σ}
    (hkeeps : ∀ state a, (keep state a).1 = true) (state : σ) (l : List α) :
    retainList keep state l = (l, l.foldl (fun state a => (keep state a).2) state) := by
  induction l generalizing state with
  | nil => rfl
  | cons a rest ih => rw [retainList, hkeeps, ih, List.foldl_cons, if_pos rfl]

/-- A walk that keeps every element leaves the table as it is. -/
theorem retain_of_keeps {σ : Type} {keep : σ → E → Bool × σ}
    (hkeeps : ∀ state e, (keep state e).1 = true) (state : σ) (t : HashTable E) :
    t.retain keep state = (t, t.elems.foldl (fun state e => (keep state e).2) state) := by
  have hwalk := retainList_of_keeps
    (fun state (slot : UInt64 × E) => hkeeps state slot.2) state t.slots
  rw [retain, hwalk, elems, List.foldl_map]

theorem filedBy_retain {hashOf : E → UInt64} {t : HashTable E} (hfiled : t.FiledBy hashOf)
    {σ : Type} (keep : σ → E → Bool × σ) (state : σ) :
    (t.retain keep state).1.FiledBy hashOf :=
  fun slot hslot => hfiled slot ((retainList_sublist _ _ _).mem hslot)

/-! ## Tests that may fail

A test may end the search or the walk it is used in by failing.  If it does not fail on
anything it is asked about, it is an ordinary test. -/

section Fallible

variable {ε σ α : Type}

/-- Find an element with a test that may fail. -/
def findM (t : HashTable E) (hash : UInt64) (eq : E → Except ε Bool) : Except ε (Option E) :=
  Option.map Prod.snd <$>
    t.slots.findM? fun slot => if slot.1 == hash then eq slot.2 else return false

/-- Walk a list with a stateful test that may fail. -/
def retainListM (keep : σ → α → Except ε (Bool × σ)) : σ → List α → Except ε (List α × σ)
  | state, [] => return ([], state)
  | state, a :: rest => do
      let decision ← keep state a
      let kept ← retainListM keep decision.2 rest
      return (if decision.1 then a :: kept.1 else kept.1, kept.2)

/-- Walk the whole table once with a stateful test that may fail. -/
def retainM (keep : σ → E → Except ε (Bool × σ)) (state : σ) (t : HashTable E) :
    Except ε (HashTable E × σ) := do
  let kept ← retainListM (fun state slot => keep state slot.2) state t.slots
  return (⟨kept.1⟩, kept.2)

theorem findM_eq_find {t : HashTable E} {eq : E → Except ε Bool} {test : E → Bool}
    (htest : ∀ e ∈ t.elems, eq e = .ok (test e)) (hash : UInt64) :
    t.findM hash eq = .ok (t.find hash test) := by
  have hwalk : ∀ slots : List (UInt64 × E), (∀ slot ∈ slots, eq slot.2 = .ok (test slot.2)) →
      (slots.findM? fun slot => if slot.1 == hash then eq slot.2 else return false) =
        (.ok (slots.find? fun slot => slot.1 == hash && test slot.2) : Except ε _) := by
    intro slots
    induction slots with
    | nil => exact fun _ => rfl
    | cons slot rest ih =>
        intro hslots
        have hrest := ih fun later hlater => hslots later (List.mem_cons_of_mem slot hlater)
        rw [List.findM?, hrest, List.find?_cons, hslots slot List.mem_cons_self]
        cases hfiled : slot.1 == hash with
        | false => rfl
        | true =>
            cases test slot.2 with
            | false => simp [bind, Except.bind]
            | true => simp [bind, Except.bind, pure, Except.pure]
  rw [findM, hwalk t.slots fun slot hslot => htest slot.2 (List.mem_map_of_mem hslot)]
  rfl

/-- A search fails if the test fails on an element filed under the hash, and passes no
other. -/
theorem findM_eq_error {hashOf : E → UInt64} {t : HashTable E} (hfiled : t.FiledBy hashOf)
    {eq : E → Except ε Bool} {e : E} {failure : ε} (he : e ∈ t.elems)
    (hfails : eq e = .error failure)
    (hother : ∀ other ∈ t.elems, other ≠ e → eq other = .ok false) :
    t.findM (hashOf e) eq = .error failure := by
  have hwalk : ∀ slots : List (UInt64 × E), (∀ slot ∈ slots, slot ∈ t.slots) →
      (∃ slot ∈ slots, slot.2 = e) →
      (slots.findM? fun slot => if slot.1 == hashOf e then eq slot.2 else return false) =
        .error failure := by
    intro slots
    induction slots with
    | nil => simp
    | cons slot rest ih =>
        intro hslots hmem
        have hhere := hslots slot List.mem_cons_self
        rw [List.findM?]
        by_cases hsame : slot.2 = e
        · rw [hfiled slot hhere, hsame, beq_self_eq_true, if_pos rfl, hfails]
          rfl
        · have hrest := ih (fun later hlater => hslots later (List.mem_cons_of_mem slot hlater))
            (by simpa [hsame] using hmem)
          rw [hrest, hother slot.2 (List.mem_map_of_mem hhere) hsame]
          split <;> rfl
  obtain ⟨hash, hslot⟩ := mem_elems.mp he
  rw [findM, hwalk t.slots (fun _ hslot => hslot) ⟨_, hslot, rfl⟩]
  rfl

/-- A walk whose test does not fail in the states it can reach. -/
theorem retainListM_eq {keepM : σ → α → Except ε (Bool × σ)} {keep : σ → α → Bool × σ}
    (invariant : σ → Prop) {l : List α}
    (hkeep : ∀ a ∈ l, ∀ state, invariant state →
      keepM state a = .ok (keep state a) ∧ invariant (keep state a).2)
    {state : σ} (hstart : invariant state) :
    retainListM keepM state l = .ok (retainList keep state l) := by
  induction l generalizing state with
  | nil => rfl
  | cons a rest ih =>
      obtain ⟨hhere, hnext⟩ := hkeep a List.mem_cons_self state hstart
      have hrest := ih (fun later hlater => hkeep later (List.mem_cons_of_mem a hlater)) hnext
      rw [retainListM, hhere]
      simp only [bind, Except.bind]
      rw [hrest]
      rfl

theorem retainM_eq {keepM : σ → E → Except ε (Bool × σ)} {keep : σ → E → Bool × σ}
    (invariant : σ → Prop) {t : HashTable E}
    (hkeep : ∀ e ∈ t.elems, ∀ state, invariant state →
      keepM state e = .ok (keep state e) ∧ invariant (keep state e).2)
    {state : σ} (hstart : invariant state) : t.retainM keepM state = .ok (t.retain keep state) := by
  have hwalk := retainListM_eq invariant
    (fun (slot : UInt64 × E) hslot => hkeep slot.2 (List.mem_map_of_mem hslot)) hstart
  rw [retainM, hwalk]
  rfl

end Fallible

end HashTable

end Foundation
