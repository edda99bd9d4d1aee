/-
# Where the values added to a drained counter are

A value added under a set of attributes is in one of four places: with the thread that
has obtained a bucket for it, in a bucket of the map, in a bucket that was swapped out
and not read yet, or among the values the observer filed.  Every step moves values
from one place to another, and three kinds of step lose some: adding to a bucket that
is not the set's, because it was swapped out and read or because the fingerprints of two
lists are equal, adding to the bucket of the empty list between its load and its clear,
and swapping the flag of that bucket while it is down.  What one set loses to another's
bucket, the other gains.

The lost values are tallied along the run, so the balance holds of every run.
-/

import Mathlib.Algebra.BigOperators.Group.Finset.Piecewise
import Mathlib.Tactic.Abel
import Ohnotel.Observe.Draining

namespace Ohnotel.Draining

open Foundation Atomic

/-- The entries swapped out and not read yet. -/
def Drain.unread {K : Type} : Drain K → List (CanonicalEntry K)
  | .idle => []
  | .swapped _ table | .loaded _ table _ | .flagged _ table _ => table.elems
  | .reading _ rest _ => rest

section Sound

variable {K : Type} [LinearOrder K] {cfg : Config K UInt64}

/-- No bucket that existed before belongs to another set now. -/
structure Grows (m m' : BucketMap K UInt64) : Prop where
  fresh_le : m.fresh ≤ m'.fresh
  noAttrEntry : m'.noAttrEntry = m.noAttrEntry
  bucketOf : ∀ set bucket, bucket < m.fresh → m'.bucketOf set = some bucket →
    m.bucketOf set = some bucket

theorem Grows.of_obtained {m m' : BucketMap K UInt64} {attrs : List K} {bucket : BucketRef}
    (h : BucketMap.Obtained cfg Set.univ m attrs m' bucket) : Grows m m' where
  fresh_le := h.obtains.fresh_le
  noAttrEntry := h.noAttrEntry
  bucketOf set found hfound hbucket := by
    cases h.obtains with
    | present _ hmap _ _ _ => rwa [hmap] at hbucket
    | created _ hfresh hmap _ _ _ =>
        by_cases hset : set = attrs.toFinset
        · subst hset
          rw [hmap, Function.update_self, hfresh] at hbucket
          exact absurd (Option.some_inj.mp hbucket) (ne_of_gt hfound)
        · rwa [hmap, Function.update_of_ne hset] at hbucket

/-- Writing to cells and to the flag changes no table. -/
theorem Grows.of_tables {m m' : BucketMap K UInt64} (hcanonical : m'.canonical = m.canonical)
    (hfresh : m'.fresh = m.fresh) (hnoAttr : m'.noAttrEntry = m.noAttrEntry) : Grows m m' where
  fresh_le := hfresh.ge
  noAttrEntry := hnoAttr
  bucketOf set bucket _ hbucket := by
    rwa [BucketMap.bucketOf, hcanonical] at hbucket

/-- The entries swapped out are those of a canonical table, and their buckets are no
longer the map's. -/
structure UnreadOk (m : BucketMap K UInt64) (unread : List (CanonicalEntry K)) : Prop where
  attrs_nodup : (unread.map CanonicalEntry.attrs).Nodup
  buckets_nodup : (unread.map CanonicalEntry.bucket).Nodup
  canonical : ∀ e ∈ unread, normalize e.attrs = e.attrs
  nonempty : ∀ e ∈ unread, e.attrs ≠ []
  allocated : ∀ e ∈ unread, e.bucket < m.fresh
  ne_noAttr : ∀ e ∈ unread, e.bucket ≠ m.noAttrEntry.bucket
  detached : ∀ e ∈ unread, ∀ set, m.bucketOf set ≠ some e.bucket

theorem UnreadOk.nil (m : BucketMap K UInt64) : UnreadOk m [] := by
  constructor <;> simp

theorem UnreadOk.noAttr_not_mem {m : BucketMap K UInt64} {unread : List (CanonicalEntry K)}
    (h : UnreadOk m unread) : m.noAttrEntry.bucket ∉ unread.map CanonicalEntry.bucket := by
  intro hmem
  obtain ⟨e, he, hsame⟩ := List.mem_map.mp hmem
  exact h.ne_noAttr e he hsame

theorem UnreadOk.grows {m m' : BucketMap K UInt64} {unread : List (CanonicalEntry K)}
    (h : UnreadOk m unread) (hgrows : Grows m m') : UnreadOk m' unread :=
  { h with
    allocated := fun e he => (h.allocated e he).trans_le hgrows.fresh_le
    ne_noAttr := fun e he => hgrows.noAttrEntry ▸ h.ne_noAttr e he
    detached := fun e he set hbucket =>
      h.detached e he set (hgrows.bucketOf set e.bucket (h.allocated e he) hbucket) }

/-- The entries that are left after some were read. -/
theorem UnreadOk.sublist {m : BucketMap K UInt64} {unread rest : List (CanonicalEntry K)}
    (h : UnreadOk m unread) (hrest : rest.Sublist unread) : UnreadOk m rest where
  attrs_nodup := h.attrs_nodup.sublist (hrest.map _)
  buckets_nodup := h.buckets_nodup.sublist (hrest.map _)
  canonical e he := h.canonical e (hrest.mem he)
  nonempty e he := h.nonempty e (hrest.mem he)
  allocated e he := h.allocated e (hrest.mem he)
  ne_noAttr e he := h.ne_noAttr e (hrest.mem he)
  detached e he := h.detached e (hrest.mem he)

/-- The map with both tables emptied. -/
def swappedOut (m : BucketMap K UInt64) : BucketMap K UInt64 :=
  { m with canonical := HashTable.empty, aliases := HashTable.empty }

theorem bucketOf_swappedOut (m : BucketMap K UInt64) (set : Finset K) :
    (swappedOut m).bucketOf set = none := rfl

/-- Swapping out the table of a sound map. -/
theorem UnreadOk.swap {m : BucketMap K UInt64} (hinv : BucketMap.Inv cfg Set.univ m) :
    UnreadOk (swappedOut m) m.canonical.elems where
  attrs_nodup := hinv.canon.nodup
  buckets_nodup := hinv.buckets.nodup
  canonical := hinv.canon.canonical
  nonempty := hinv.canon.nonempty
  allocated := hinv.buckets.allocated
  ne_noAttr := hinv.buckets.ne_noAttr
  detached _ _ set := by simp [bucketOf_swappedOut]

/-- A bucket a thread has obtained is not the one of the empty list. -/
structure HeldOk (m : BucketMap K UInt64) (bucket : BucketRef) : Prop where
  allocated : bucket < m.fresh
  ne_noAttr : bucket ≠ m.noAttrEntry.bucket

theorem HeldOk.grows {m m' : BucketMap K UInt64} {bucket : BucketRef} (h : HeldOk m bucket)
    (hgrows : Grows m m') : HeldOk m' bucket where
  allocated := h.allocated.trans_le hgrows.fresh_le
  ne_noAttr := hgrows.noAttrEntry ▸ h.ne_noAttr

theorem HeldOk.of_bucketOf {m : BucketMap K UInt64} (hinv : BucketMap.Inv cfg Set.univ m)
    {set : Finset K} {bucket : BucketRef} (hbucket : m.bucketOf set = some bucket) :
    HeldOk m bucket where
  allocated := BucketMap.bucketOf_lt_fresh hinv hbucket
  ne_noAttr := BucketMap.bucketOf_ne_noAttr hinv hbucket

/-- What obtaining a bucket leaves as it was, whoever's bucket it is. -/
structure Got (cfg : Config K UInt64) (m m' : BucketMap K UInt64) (bucket : BucketRef) :
    Prop where
  inv : BucketMap.Inv cfg Set.univ m'
  grows : Grows m m'
  held : HeldOk m' bucket
  value : ∀ set, (m'.valueOf set).getD 0 = (m.valueOf set).getD 0
  cells_of_lt : ∀ found < m.fresh, m'.cells found = m.cells found
  noAttrCell : m'.noAttrCell = m.noAttrCell
  noAttrTouched : m'.noAttrTouched = m.noAttrTouched

theorem got_getOrCreate (hinit : cfg.initBucket = 0) {m : BucketMap K UInt64}
    (hinv : BucketMap.Inv cfg Set.univ m) {attrs : List K} (hne : attrs ≠ []) :
    Got cfg m (m.getOrCreate cfg attrs).1 (m.getOrCreate cfg attrs).2 := by
  rcases BucketMap.getOrCreate_cases hinv hne (Set.mem_univ attrs) with
    ⟨hsame, set, hbucket⟩ | hobtained
  · rw [hsame]
    exact
      { inv := hinv
        grows := Grows.of_tables rfl rfl rfl
        held := HeldOk.of_bucketOf hinv hbucket
        value := fun _ => rfl
        cells_of_lt := fun _ _ => rfl
        noAttrCell := rfl
        noAttrTouched := rfl }
  · obtain ⟨hvalue, hcell⟩ := hobtained.valueOf_eq hinv
    exact
      { inv := hobtained.inv
        grows := Grows.of_obtained hobtained
        held := HeldOk.of_bucketOf hobtained.inv hobtained.obtains.bucketOf_eq
        value := fun set => by
          rw [hvalue, hinit]
          by_cases hset : set = attrs.toFinset
          · subst hset
            rw [Function.update_self, Option.getD_some]
          · rw [Function.update_of_ne hset]
        cells_of_lt := fun _ hfound => hobtained.obtains.cells_of_lt hfound
        noAttrCell := hcell
        noAttrTouched := hobtained.noAttrTouched }

end Sound

variable {ι K : Type} [DecidableEq ι] [LinearOrder K] {cfg : Config K UInt64}

/-- No thread has obtained the bucket of the empty list. -/
def AllHeld (m : BucketMap K UInt64) (adders : ι → Adder K) : Prop :=
  ∀ t attrs bucket value, adders t = .obtained attrs bucket value → HeldOk m bucket

omit [DecidableEq ι] in
theorem AllHeld.grows {m m' : BucketMap K UInt64} {adders : ι → Adder K} (h : AllHeld m adders)
    (hgrows : Grows m m') : AllHeld m' adders :=
  fun t attrs bucket value hobtained => (h t attrs bucket value hobtained).grows hgrows

omit [LinearOrder K] in
theorem AllHeld.update {m : BucketMap K UInt64} {adders : ι → Adder K} (h : AllHeld m adders)
    (t : ι) {adder : Adder K}
    (hadder : ∀ attrs bucket value, adder = .obtained attrs bucket value → HeldOk m bucket) :
    AllHeld m (Function.update adders t adder) := by
  intro t' attrs bucket value hobtained
  by_cases hsame : t' = t
  · subst hsame
    rw [Function.update_self] at hobtained
    exact hadder attrs bucket value hobtained
  · rw [Function.update_of_ne hsame] at hobtained
    exact h t' attrs bucket value hobtained

/-- The invariant of the system. -/
structure Sound (cfg : Config K UInt64) (s : Shared ι K) : Prop where
  inv : BucketMap.Inv cfg Set.univ s.map
  unread : UnreadOk s.map s.drain.unread
  held : AllHeld s.map s.adders
  mode : s.observer.observeMode = .destructive
  /-- What is in the bucket of the empty list will be seen: the flag is up, or will be
  raised, or the bucket is about to be cleared. -/
  flag : s.map.noAttrCell ≠ 0 → s.map.noAttrTouched = true ∨ (∃ t, s.adders t = .touching) ∨
    ∃ ts table noAttrVal, s.drain = .flagged ts table noAttrVal

omit [DecidableEq ι] in
theorem sound_init (observer : SyncObserver K UInt64)
    (hmode : observer.observeMode = .destructive) (hinit : cfg.initBucket = 0) :
    Sound cfg (init (ι := ι) cfg observer) where
  inv := BucketMap.inv_withStorage cfg Set.univ
  unread := UnreadOk.nil _
  held t attrs bucket value hobtained := by simp [init] at hobtained
  mode := hmode
  flag hne := absurd hinit hne

omit [LinearOrder K] in
/-- A thread that has the flag to raise still has after another one's step. -/
theorem touching_of_update {adders : ι → Adder K} {t : ι} (adder : Adder K)
    (hother : adders t ≠ .touching) (htouching : ∃ t, adders t = .touching) :
    ∃ t', Function.update adders t adder t' = .touching := by
  obtain ⟨t', ht'⟩ := htouching
  have hne : t' ≠ t := by
    rintro rfl
    exact hother ht'
  exact ⟨t', by rw [Function.update_of_ne hne, ht']⟩

/-- A step of a thread. -/
theorem Sound.byThread {s : Shared ι K} (h : Sound cfg s) {m : BucketMap K UInt64}
    (hinv : BucketMap.Inv cfg Set.univ m) (hgrows : Grows s.map m) {t : ι} {adder : Adder K}
    (hadder : ∀ attrs bucket value, adder = .obtained attrs bucket value → HeldOk m bucket)
    (hflag : m.noAttrCell ≠ 0 → m.noAttrTouched = true ∨ adder = .touching ∨
      (s.adders t ≠ .touching ∧ m.noAttrTouched = s.map.noAttrTouched ∧ s.map.noAttrCell ≠ 0)) :
    Sound cfg { s with map := m, adders := Function.update s.adders t adder } where
  inv := hinv
  unread := h.unread.grows hgrows
  held := (h.held.grows hgrows).update t hadder
  mode := h.mode
  flag hne := by
    rcases hflag hne with hup | rfl | ⟨hother, htouched, hold⟩
    · exact Or.inl hup
    · exact Or.inr (Or.inl ⟨t, Function.update_self ..⟩)
    · rcases h.flag hold with hup | htouching | hflagged
      · exact Or.inl (htouched.trans hup)
      · exact Or.inr (Or.inl (touching_of_update _ hother htouching))
      · exact Or.inr (Or.inr hflagged)

omit [DecidableEq ι] in
/-- A step of the observer, the first one of an observation apart. -/
theorem Sound.byObserver {s : Shared ι K} (h : Sound cfg s) {m : BucketMap K UInt64}
    (hinv : BucketMap.Inv cfg Set.univ m) (hgrows : Grows s.map m) {o : SyncObserver K UInt64}
    (hmode : o.observeMode = s.observer.observeMode) {drain : Drain K}
    (hrest : drain.unread.Sublist s.drain.unread)
    (hflag : m.noAttrCell ≠ 0 → (∃ ts table noAttrVal, drain = .flagged ts table noAttrVal) ∨
      (m.noAttrTouched = s.map.noAttrTouched ∧ s.map.noAttrCell ≠ 0 ∧
        ∀ ts table noAttrVal, s.drain ≠ .flagged ts table noAttrVal)) :
    Sound cfg { s with map := m, observer := o, drain := drain } where
  inv := hinv
  unread := (h.unread.grows hgrows).sublist hrest
  held := h.held.grows hgrows
  mode := hmode.trans h.mode
  flag hne := by
    rcases hflag hne with hflagged | ⟨htouched, hold, hnot⟩
    · exact Or.inr (Or.inr hflagged)
    · rcases h.flag hold with hup | htouching | ⟨ts, table, noAttrVal, hflagged⟩
      · exact Or.inl (htouched.trans hup)
      · exact Or.inr (Or.inl htouching)
      · exact absurd hflagged (hnot ts table noAttrVal)

theorem Sound.step (hinit : cfg.initBucket = 0) {s next : Shared ι K} {label : Label ι K}
    (h : Sound cfg s) (hstep : step cfg s label = some next) : Sound cfg next := by
  have hsame : Grows s.map s.map := Grows.of_tables rfl rfl rfl
  cases moves_of_step cfg hstep with
  | @addNoAttr t value hidle =>
      exact h.byThread (h.inv.modifyCell _ _) (Grows.of_tables rfl rfl rfl) (by simp)
        fun _ => Or.inr (Or.inl rfl)
  | @obtain t value attrs hidle hne hunlocked =>
      have hgot := got_getOrCreate hinit h.inv hne
      refine h.byThread hgot.inv hgot.grows (fun attrs' bucket v hadder => ?_) fun hne => ?_
      · obtain ⟨_, rfl, _⟩ := Adder.obtained.inj hadder
        exact hgot.held
      · exact Or.inr (Or.inr ⟨by simp [hidle], hgot.noAttrTouched, hgot.noAttrCell ▸ hne⟩)
  | @addTo t attrs bucket value hobtained =>
      have hcell : (s.map.modifyCell bucket fun cell => Record.add cell value).noAttrCell =
          s.map.noAttrCell :=
        Function.update_of_ne (h.held t attrs bucket value hobtained).ne_noAttr.symm _ _
      refine h.byThread (h.inv.modifyCell _ _) (Grows.of_tables rfl rfl rfl) (by simp) fun hne => ?_
      exact Or.inr (Or.inr ⟨by simp [hobtained], rfl, hcell ▸ hne⟩)
  | @touch t htouching =>
      exact h.byThread (h.inv.withTouched true) (Grows.of_tables rfl rfl rfl) (by simp)
        fun _ => Or.inl rfl
  | swap ts hidle =>
      exact
        { inv := BucketMap.inv_emptied h.inv s.map.count
          unread := UnreadOk.swap h.inv
          held := fun t attrs bucket value hobtained =>
            { h.held t attrs bucket value hobtained with }
          mode := h.mode
          flag := fun hne => by
            rcases h.flag hne with hup | htouching | ⟨_, _, _, hflagged⟩
            · exact Or.inl hup
            · exact Or.inr (Or.inl htouching)
            · simp [hidle] at hflagged }
  | @load ts table hswapped =>
      refine h.byObserver h.inv hsame rfl (by rw [hswapped]; exact List.Sublist.refl _)
        fun hne => ?_
      exact Or.inr ⟨rfl, hne, by simp [hswapped]⟩
  | @swapFlag ts table value hloaded =>
      exact h.byObserver (h.inv.withTouched false) (Grows.of_tables rfl rfl rfl) rfl
        (by rw [hloaded]; exact List.Sublist.refl _) fun _ => Or.inl ⟨ts, table, _, rfl⟩
  | @clear ts table noAttrVal hflagged =>
      have hcell : (s.map.modifyCell s.map.noAttrEntry.bucket Record.clear).noAttrCell = 0 :=
        (BucketMap.valueOf_modifyCell_noAttr h.inv _).2
      exact h.byObserver (h.inv.modifyCell _ _) (Grows.of_tables rfl rfl rfl) rfl
        (by rw [hflagged]; exact List.Sublist.refl _) fun hne => absurd hcell hne
  | @read ts entry rest noAttrVal hreading =>
      have hmode : (s.observer.observeDrained ts
          (entry.attrs, Record.current (s.map.cells entry.bucket))).observeMode =
            s.observer.observeMode := by
        rw [SyncObserver.observeDrained]
        split <;> rfl
      refine h.byObserver h.inv hsame hmode
        (by rw [hreading]; exact List.sublist_cons_self entry rest) fun hne => ?_
      exact Or.inr ⟨rfl, hne, by simp [hreading]⟩
  | @close ts noAttrVal hreading =>
      have hmode : (s.observer.observeNoAttr ts noAttrVal).observeMode =
          s.observer.observeMode := by
        cases noAttrVal <;> rfl
      refine h.byObserver h.inv hsame hmode (List.nil_sublist _) fun hne => ?_
      exact Or.inr ⟨rfl, hne, by simp [hreading]⟩
  | handOn hidle =>
      exact { inv := h.inv, unread := h.unread, held := h.held, mode := h.mode, flag := h.flag }

/-! ## The places a value can be in -/

/-- What a thread has yet to add for a set. -/
def Adder.pending (set : Finset K) : Adder K → UInt64
  | .obtained attrs _ value => if attrs.toFinset = set then value else 0
  | .idle | .touching => 0

@[simp]
theorem Adder.pending_idle (set : Finset K) : (idle : Adder K).pending set = 0 := rfl

@[simp]
theorem Adder.pending_touching (set : Finset K) : (touching : Adder K).pending set = 0 := rfl

/-- What the buckets of some entries hold for a set. -/
def entriesSum (cells : BucketRef → UInt64) (entries : List (CanonicalEntry K))
    (set : Finset K) : UInt64 :=
  (entries.map fun e => if e.attrs = set.sort (· ≤ ·) then cells e.bucket else 0).sum

namespace Shared

/-- What was added under the empty list and not filed yet.  Between its load and its
clear, what the bucket holds no longer counts: it is what was loaded that is filed. -/
def inNoAttr (s : Shared ι K) : UInt64 :=
  match s.drain with
  | .idle | .swapped _ _ => s.map.noAttrCell
  | .loaded _ _ value => value
  | .flagged _ _ noAttrVal => noAttrVal.getD 0
  | .reading _ _ noAttrVal => s.map.noAttrCell + noAttrVal.getD 0

/-- What the observer has filed for a set, handed on or not. -/
def filed (s : Shared ι K) (set : Finset K) : UInt64 := (s.values (set.sort (· ≤ ·))).sum

/-- All there is of what was added for a set. -/
def total [Fintype ι] (s : Shared ι K) (set : Finset K) : UInt64 :=
  s.filed set + (s.map.valueOf set).getD 0 + entriesSum s.map.cells s.drain.unread set +
    (if set = ∅ then s.inNoAttr else 0) + ∑ t, (s.adders t).pending set

/-- The set whose bucket it is, in the map or among the entries still to be read. -/
def owner (s : Shared ι K) (bucket : BucketRef) : Option (Finset K) :=
  ((s.map.canonical.elems ++ s.drain.unread).find? fun e => e.bucket == bucket).map
    fun e => e.attrs.toFinset

/-- What a step loses of what was added for a set, less what it gains for the set of what
was added for another. -/
def lost (s : Shared ι K) (set : Finset K) : Label ι K → UInt64
  | .add _ value attrs =>
      match s.drain with
      -- The bucket was loaded and is about to be cleared.
      | .loaded _ _ _ | .flagged _ _ _ => if attrs = [] ∧ set = ∅ then value else 0
      | .idle | .swapped _ _ | .reading _ _ _ => 0
  | .finishAdd t =>
      match s.adders t with
      -- The bucket was swapped out and read, or was never the set's.
      | .obtained attrs bucket value =>
          (if attrs.toFinset = set then value else 0) -
            if s.owner bucket = some set then value else 0
      | .idle | .touching => 0
  | .drainStep =>
      match s.drain with
      -- The flag is down, so what was loaded is not filed.
      | .loaded _ _ value => if set = ∅ ∧ s.map.noAttrTouched = false then value else 0
      | .idle | .swapped _ _ | .flagged _ _ _ | .reading _ _ _ => 0
  | .observe _ | .exportSeries => 0

end Shared

/-- What a step adds for a set. -/
def Label.added (set : Finset K) : Label ι K → UInt64
  | .add _ value attrs => if attrs.toFinset = set then value else 0
  | .finishAdd _ | .observe _ | .drainStep | .exportSeries => 0

/-! ## How they change -/

theorem sum_pending_update [Fintype ι] (adders : ι → Adder K) (t : ι) (adder : Adder K)
    (set : Finset K) :
    ∑ t', (Function.update adders t adder t').pending set + (adders t).pending set =
      ∑ t', (adders t').pending set + adder.pending set := by
  have hupdate : ∀ t', (Function.update adders t adder t').pending set =
      Function.update (fun t' => (adders t').pending set) t (adder.pending set) t' :=
    fun t' => Function.apply_update (fun _ adder => Adder.pending set adder) adders t adder t'
  have hsplit : ∑ t', (adders t').pending set =
      ∑ t' ∈ Finset.univ \ {t}, (adders t').pending set + (adders t).pending set := by
    rw [← Finset.sum_sdiff (Finset.subset_univ {t}), Finset.sum_singleton]
  simp only [hupdate]
  rw [Finset.sum_update_of_mem (Finset.mem_univ t), hsplit]
  abel

omit [DecidableEq ι] in
theorem sum_pending_idle [Fintype ι] {adders : ι → Adder K} {set : Finset K}
    (hidle : ∀ t, adders t = .idle) : ∑ t, (adders t).pending set = 0 :=
  Finset.sum_eq_zero fun t _ => by rw [hidle t, Adder.pending]

@[simp]
theorem entriesSum_nil (cells : BucketRef → UInt64) (set : Finset K) :
    entriesSum cells [] set = 0 := rfl

theorem entriesSum_cons (cells : BucketRef → UInt64) (first : CanonicalEntry K)
    (rest : List (CanonicalEntry K)) (set : Finset K) :
    entriesSum cells (first :: rest) set =
      (if first.attrs = set.sort (· ≤ ·) then cells first.bucket else 0) +
        entriesSum cells rest set := List.sum_cons

theorem entriesSum_congr {cells cells' : BucketRef → UInt64} {entries : List (CanonicalEntry K)}
    (hsame : ∀ e ∈ entries, cells' e.bucket = cells e.bucket) (set : Finset K) :
    entriesSum cells' entries set = entriesSum cells entries set := by
  unfold entriesSum
  congr 1
  apply List.map_congr_left
  intro e he
  rw [hsame e he]

/-- Writing elsewhere. -/
theorem entriesSum_of_not_mem (m : BucketMap K UInt64) {entries : List (CanonicalEntry K)}
    {bucket : BucketRef} (hnot : bucket ∉ entries.map CanonicalEntry.bucket)
    (f : UInt64 → UInt64) (set : Finset K) :
    entriesSum (m.modifyCell bucket f).cells entries set = entriesSum m.cells entries set := by
  apply entriesSum_congr
  intro e he
  have hne : e.bucket ≠ bucket := by
    rintro rfl
    exact hnot (List.mem_map_of_mem he)
  exact Function.update_of_ne hne _ _

/-- Adding to the bucket of an entry. -/
theorem entriesSum_of_mem (m : BucketMap K UInt64) {entries : List (CanonicalEntry K)}
    (hnodup : (entries.map CanonicalEntry.bucket).Nodup) {e : CanonicalEntry K}
    (he : e ∈ entries) (value : UInt64) (set : Finset K) :
    entriesSum (m.modifyCell e.bucket fun cell => Record.add cell value).cells entries set =
      entriesSum m.cells entries set + if e.attrs = set.sort (· ≤ ·) then value else 0 := by
  induction entries with
  | nil => simp at he
  | cons first rest ih =>
      rw [List.map_cons, List.nodup_cons] at hnodup
      rw [entriesSum_cons, entriesSum_cons]
      rcases List.mem_cons.mp he with rfl | hrest
      · rw [entriesSum_of_not_mem m hnodup.1]
        simp only [BucketMap.modifyCell, Function.update_self, add_uint64]
        split <;> abel
      · have hne : first.bucket ≠ e.bucket := fun hsame =>
          hnodup.1 (hsame ▸ List.mem_map_of_mem hrest)
        rw [ih hnodup.2 hrest, UInt64.add_assoc]
        simp only [BucketMap.modifyCell, Function.update_of_ne hne]

/-- The buckets of a table hold for a set what its own bucket holds. -/
theorem entriesSum_elems {m : BucketMap K UInt64} (hinv : BucketMap.Inv cfg Set.univ m)
    (set : Finset K) :
    entriesSum m.cells m.canonical.elems set = (m.valueOf set).getD 0 := by
  have hfind : ∀ entries : List (CanonicalEntry K), (entries.map CanonicalEntry.attrs).Nodup →
      entriesSum m.cells entries set =
        (((entries.find? fun e => e.attrs == set.sort (· ≤ ·)).map CanonicalEntry.bucket).map
          m.cells).getD 0 := by
    intro entries hnodup
    induction entries with
    | nil => rfl
    | cons first rest ih =>
        rw [List.map_cons, List.nodup_cons] at hnodup
        rw [entriesSum_cons, ih hnodup.2, List.find?_cons]
        by_cases hhere : first.attrs = set.sort (· ≤ ·)
        · have hnone : rest.find? (fun e => e.attrs == set.sort (· ≤ ·)) = none := by
            apply List.find?_eq_none.mpr
            intro e he hsame
            exact hnodup.1 (hhere.trans (beq_iff_eq.mp hsame).symm ▸ List.mem_map_of_mem he)
          simp [hhere, hnone]
        · rw [if_neg hhere, beq_eq_false_iff_ne.mpr hhere, UInt64.zero_add]
  exact hfind _ hinv.canon.nodup

variable [Fintype ι]

/-- A step that adds under the empty list. -/
theorem balance_addNoAttr {s : Shared ι K} (h : Sound cfg s) {t : ι} (value : UInt64)
    (hidle : s.adders t = .idle) (set : Finset K) :
    Shared.total
        { s with
          map := s.map.modifyCell s.map.noAttrEntry.bucket fun cell => Record.add cell value
          adders := Function.update s.adders t .touching } set +
        s.lost set (.add t value []) =
      s.total set + Label.added (ι := ι) set (.add t value []) := by
  have hpending := sum_pending_update s.adders t .touching set
  rw [hidle, Adder.pending_idle, Adder.pending_touching, add_zero, add_zero] at hpending
  obtain ⟨hvalue, hcell⟩ :=
    BucketMap.valueOf_modifyCell_noAttr h.inv fun cell => Record.add cell value
  have hunread := entriesSum_of_not_mem s.map h.unread.noAttr_not_mem
    (fun cell => Record.add cell value) set
  simp only [Shared.total, Shared.filed, Observed.values, hvalue, hunread, hpending,
    Shared.inNoAttr, hcell, Shared.lost, Label.added, List.toFinset_nil]
  by_cases hset : set = ∅
  · subst hset
    cases s.drain <;> simp only [add_uint64, and_self, if_true] <;> abel
  · have hne : ∅ ≠ set := fun hsame => hset hsame.symm
    cases s.drain <;> simp only [hset, hne, and_false, if_false]

/-- A step that obtains a bucket. -/
theorem balance_obtain (hinit : cfg.initBucket = 0) {s : Shared ι K} (h : Sound cfg s)
    {t : ι} (value : UInt64) {attrs : List K} (hidle : s.adders t = .idle) (hne : attrs ≠ [])
    (set : Finset K) :
    Shared.total
        { s with
          map := (s.map.getOrCreate cfg attrs).1
          adders := Function.update s.adders t
            (.obtained attrs (s.map.getOrCreate cfg attrs).2 value) } set +
        s.lost set (.add t value attrs) =
      s.total set + Label.added (ι := ι) set (.add t value attrs) := by
  have hpending := sum_pending_update s.adders t
    (.obtained attrs (s.map.getOrCreate cfg attrs).2 value) set
  rw [hidle, Adder.pending_idle, add_zero] at hpending
  have hgot := got_getOrCreate hinit h.inv hne
  have hunread := entriesSum_congr
    (fun e he => hgot.cells_of_lt e.bucket (h.unread.allocated e he)) set
  have hlost : s.lost set (.add t value attrs) = 0 := by
    unfold Shared.lost
    cases s.drain <;> simp [hne]
  rw [hlost, add_zero]
  simp only [Shared.total, Shared.filed, Observed.values, hgot.value, hunread, hpending,
    Shared.inNoAttr, hgot.noAttrCell, Label.added]
  abel

omit [DecidableEq ι] [Fintype ι] in
/-- No bucket has two owners. -/
theorem owner_eq_some_iff {s : Shared ι K} (h : Sound cfg s) {bucket : BucketRef}
    {set : Finset K} :
    s.owner bucket = some set ↔
      ∃ e ∈ s.map.canonical.elems ++ s.drain.unread,
        e.bucket = bucket ∧ e.attrs.toFinset = set := by
  have hdisjoint : ∀ e ∈ s.map.canonical.elems, ∀ e' ∈ s.drain.unread, e.bucket ≠ e'.bucket :=
    fun e he e' he' hsame => h.unread.detached e' he' e.attrs.toFinset
      (hsame ▸ BucketMap.bucketOf_toFinset_of_mem h.inv.canon he)
  have hnodup : ((s.map.canonical.elems ++ s.drain.unread).map CanonicalEntry.bucket).Nodup := by
    rw [List.map_append, List.nodup_append]
    refine ⟨h.inv.buckets.nodup, h.unread.buckets_nodup, ?_⟩
    intro first hfirst second hsecond
    obtain ⟨e, he, rfl⟩ := List.mem_map.mp hfirst
    obtain ⟨e', he', rfl⟩ := List.mem_map.mp hsecond
    exact hdisjoint e he e' he'
  rw [Shared.owner, Option.map_eq_some_iff]
  constructor
  · rintro ⟨e, hfind, hset⟩
    exact ⟨e, List.mem_of_find?_eq_some hfind, by simpa using List.find?_some hfind, hset⟩
  · rintro ⟨e, he, hbucket, hset⟩
    have hsome : ((s.map.canonical.elems ++ s.drain.unread).find? fun e =>
        e.bucket == bucket).isSome := List.find?_isSome.mpr ⟨e, he, by simpa using hbucket⟩
    obtain ⟨found, hfind⟩ := Option.isSome_iff_exists.mp hsome
    have hfound : found.bucket = bucket := by simpa using List.find?_some hfind
    obtain rfl := List.inj_on_of_nodup_map hnodup (List.mem_of_find?_eq_some hfind) he
      (hfound.trans hbucket.symm)
    exact ⟨found, hfind, hset⟩

omit [DecidableEq ι] [Fintype ι] in
/-- What is added to a bucket that was obtained reaches its owner, if there is one. -/
theorem reaches_owner {s : Shared ι K} (h : Sound cfg s) (bucket : BucketRef) (value : UInt64)
    (set : Finset K) :
    ((s.map.modifyCell bucket fun cell => Record.add cell value).valueOf set).getD 0 +
        entriesSum (s.map.modifyCell bucket fun cell => Record.add cell value).cells
          s.drain.unread set =
      (s.map.valueOf set).getD 0 + entriesSum s.map.cells s.drain.unread set +
        if s.owner bucket = some set then value else 0 := by
  by_cases hmap : bucket ∈ s.map.canonical.elems.map CanonicalEntry.bucket
  · obtain ⟨e, he, rfl⟩ := List.mem_map.mp hmap
    have hbucket := BucketMap.bucketOf_toFinset_of_mem h.inv.canon he
    have howner : s.owner e.bucket = some e.attrs.toFinset :=
      (owner_eq_some_iff h).mpr ⟨e, List.mem_append_left _ he, rfl, rfl⟩
    have hnot : e.bucket ∉ s.drain.unread.map CanonicalEntry.bucket := by
      intro hmem
      obtain ⟨e', he', hsame⟩ := List.mem_map.mp hmem
      exact h.unread.detached e' he' e.attrs.toFinset (hsame ▸ hbucket)
    rw [entriesSum_of_not_mem s.map hnot, howner,
      (BucketMap.valueOf_modifyCell h.inv hbucket _).1]
    by_cases hhere : set = e.attrs.toFinset
    · subst hhere
      rw [Function.update_self, BucketMap.valueOf, hbucket]
      simp only [Option.map_some, Option.getD_some, add_uint64, if_true]
      abel
    · rw [Function.update_of_ne hhere, if_neg fun hsame => hhere (Option.some_inj.mp hsame).symm,
        add_zero]
  · have hdetached : ∀ other, s.map.bucketOf other ≠ some bucket := by
      intro other hother
      obtain ⟨e, he, _, hsame⟩ := (BucketMap.bucketOf_eq_some_iff h.inv.canon).mp hother
      exact hmap (hsame ▸ List.mem_map_of_mem he)
    rw [BucketMap.valueOf_modifyCell_of_detached hdetached]
    by_cases hunread : bucket ∈ s.drain.unread.map CanonicalEntry.bucket
    · obtain ⟨e, he, rfl⟩ := List.mem_map.mp hunread
      have howner : s.owner e.bucket = some e.attrs.toFinset :=
        (owner_eq_some_iff h).mpr ⟨e, List.mem_append_right _ he, rfl, rfl⟩
      have hattrs : e.attrs = set.sort (· ≤ ·) ↔ e.attrs.toFinset = set := by
        constructor
        · intro hsame
          rw [hsame, Finset.sort_toFinset]
        · rintro rfl
          rw [← normalize_eq_sort, h.unread.canonical e he]
      rw [entriesSum_of_mem s.map h.unread.buckets_nodup he, howner]
      simp only [hattrs, Option.some_inj]
      abel
    · have hnone : s.owner bucket ≠ some set := by
        intro howner
        obtain ⟨e, he, hsame, _⟩ := (owner_eq_some_iff h).mp howner
        rcases List.mem_append.mp he with hcanonical | hrest
        · exact hmap (hsame ▸ List.mem_map_of_mem hcanonical)
        · exact hunread (hsame ▸ List.mem_map_of_mem hrest)
      rw [entriesSum_of_not_mem s.map hunread, if_neg hnone, add_zero]

omit [DecidableEq ι] [Fintype ι] in
/-- What becomes of a value added to a bucket that was obtained: it reaches the map,
or the entries swapped out, or it is lost. -/
theorem places_addTo {s : Shared ι K} (h : Sound cfg s) {t : ι} {attrs : List K}
    {bucket : BucketRef} {value : UInt64} (hobtained : s.adders t = .obtained attrs bucket value)
    (set : Finset K) :
    ((s.map.modifyCell bucket fun cell => Record.add cell value).valueOf set).getD 0 +
        entriesSum (s.map.modifyCell bucket fun cell => Record.add cell value).cells
          s.drain.unread set + s.lost set (.finishAdd t) =
      (s.map.valueOf set).getD 0 + entriesSum s.map.cells s.drain.unread set +
        if attrs.toFinset = set then value else 0 := by
  rw [reaches_owner h bucket value set]
  simp only [Shared.lost, hobtained]
  abel

omit [DecidableEq ι] [LinearOrder K] [Fintype ι] in
theorem move_pending {live live' drained drained' lost value : UInt64}
    (hplaces : live' + drained' + lost = live + drained + value) (filed noAttr rest : UInt64) :
    filed + live' + drained' + noAttr + rest + lost =
      filed + live + drained + noAttr + (rest + value) := by
  calc filed + live' + drained' + noAttr + rest + lost
      = filed + (live' + drained' + lost) + noAttr + rest := by abel
    _ = filed + live + drained + noAttr + (rest + value) := by
        rw [hplaces]
        abel

/-- A step that adds to the bucket it has obtained. -/
theorem balance_addTo {s : Shared ι K} (h : Sound cfg s) {t : ι} {attrs : List K}
    {bucket : BucketRef} {value : UInt64} (hobtained : s.adders t = .obtained attrs bucket value)
    (set : Finset K) :
    Shared.total
        { s with
          map := s.map.modifyCell bucket fun cell => Record.add cell value
          adders := Function.update s.adders t .idle } set +
        s.lost set (.finishAdd t) = s.total set := by
  have hpending := sum_pending_update s.adders t .idle set
  rw [hobtained, Adder.pending_idle, add_zero] at hpending
  have hcell : (s.map.modifyCell bucket fun cell => Record.add cell value).noAttrCell =
      s.map.noAttrCell :=
    Function.update_of_ne (h.held t attrs bucket value hobtained).ne_noAttr.symm _ _
  simp only [Shared.total, Shared.filed, Observed.values, Shared.inNoAttr, hcell]
  rw [← hpending]
  exact move_pending (places_addTo h hobtained set) _ _ _

omit [DecidableEq ι] in
/-- A step that swaps out the table. -/
theorem balance_swap {s : Shared ι K} (h : Sound cfg s) (ts : SystemTime)
    (hidle : s.drain = .idle) (set : Finset K) :
    Shared.total
        { s with
          map := { s.map with canonical := HashTable.empty, aliases := HashTable.empty }
          drain := .swapped ts s.map.canonical } set = s.total set := by
  have hempty : (({ s.map with
      canonical := HashTable.empty, aliases := HashTable.empty } : BucketMap K UInt64).valueOf
        set).getD 0 = 0 := rfl
  have hswapped := entriesSum_elems h.inv set
  simp only [Shared.total, Shared.filed, Observed.values, Shared.inNoAttr, hempty, hidle,
    Drain.unread, hswapped, entriesSum_nil, BucketMap.noAttrCell]
  abel

/-- Reading a drained bucket files what it holds. -/
theorem sum_slot_observeDrained (o : SyncObserver K UInt64) (ts : SystemTime)
    (drained : List K × UInt64) (attrs : List K) :
    ((o.observeDrained ts drained).slot attrs).values.sum =
      (o.slot attrs).values.sum + if drained.1 = attrs then drained.2 else 0 := by
  by_cases hattrs : attrs = drained.1
  · subst hattrs
    have hown := (SyncObserver.observingDrained ts).view_own o drained
    refine (congrArg (fun slot => slot.values.sum) hown).trans ?_
    simp only [SyncObserver.observingDrained, isInitial_uint64, beq_iff_eq, if_true]
    split
    · rename_i hzero
      rw [hzero, add_zero]
    · simp
  · have hother := (SyncObserver.observingDrained ts).view_other o drained attrs hattrs
    refine (congrArg (fun slot => slot.values.sum) hother).trans ?_
    rw [if_neg fun hsame => hattrs hsame.symm, add_zero]
    rfl

/-- A step of an observation. -/
theorem balance_drainStep {s next : Shared ι K} (h : Sound cfg s)
    (hmoves : Moves cfg s .drainStep next) (set : Finset K) :
    next.total set + s.lost set .drainStep = s.total set := by
  cases hmoves with
  | load hswapped =>
      simp only [Shared.total, Shared.filed, Observed.values, Shared.inNoAttr, hswapped,
        Drain.unread, Shared.lost, current_uint64, add_zero]
  | @swapFlag ts table value hloaded =>
      have hvalue : ({ s.map with noAttrTouched := false } : BucketMap K UInt64).valueOf =
          s.map.valueOf := rfl
      simp only [Shared.total, Shared.filed, Observed.values, Shared.inNoAttr, hloaded,
        Drain.unread, Shared.lost, hvalue]
      by_cases hset : set = ∅
      · cases s.map.noAttrTouched
        · simp only [hset, if_true, Bool.false_eq_true, if_false, Option.getD_none, and_self]
          abel
        · simp [hset]
      · simp [hset]
  | @clear ts table noAttrVal hflagged =>
      obtain ⟨hvalue, hcell⟩ := BucketMap.valueOf_modifyCell_noAttr h.inv Record.clear
      have hnot := h.unread.noAttr_not_mem
      rw [hflagged] at hnot
      have hunread := entriesSum_of_not_mem s.map hnot Record.clear set
      simp only [Drain.unread] at hunread
      simp only [Shared.total, Shared.filed, Observed.values, Shared.inNoAttr, hflagged,
        Drain.unread, Shared.lost, hvalue, hcell, hunread, clear_uint64, zero_add, add_zero]
  | @read ts entry rest noAttrVal hreading =>
      simp only [Shared.total, Shared.filed, Observed.values, Shared.inNoAttr, hreading,
        Drain.unread, Shared.lost, List.sum_append, sum_slot_observeDrained, entriesSum_cons,
        current_uint64]
      abel
  | @close ts noAttrVal hreading =>
      simp only [Shared.total, Shared.filed, Observed.values, Shared.inNoAttr, hreading,
        Drain.unread, Shared.lost, List.sum_append, SyncObserver.slot_observeNoAttr,
        BucketMap.sort_eq_nil_iff, entriesSum_nil]
      by_cases hset : set = ∅
      · cases noAttrVal with
        | none => simp [hset]
        | some value =>
            simp only [hset, if_true, Option.toList_some, List.sum_singleton, Option.getD_some]
            abel
      · simp [hset]

/-- Every step balances. -/
theorem balance_step (hinit : cfg.initBucket = 0) {s next : Shared ι K} {label : Label ι K}
    (h : Sound cfg s) (hstep : step cfg s label = some next) (set : Finset K) :
    next.total set + s.lost set label = s.total set + label.added set := by
  have hmoves := moves_of_step cfg hstep
  cases label with
  | add t value attrs =>
      cases hmoves with
      | addNoAttr _ hidle => exact balance_addNoAttr h value hidle set
      | obtain _ hidle hne _ => exact balance_obtain hinit h value hidle hne set
  | finishAdd t =>
      rw [Label.added, add_zero]
      cases hmoves with
      | addTo hobtained => exact balance_addTo h hobtained set
      | touch htouching =>
          have hpending := sum_pending_update s.adders t .idle set
          rw [htouching, Adder.pending_idle, Adder.pending_touching, add_zero, add_zero] at hpending
          have hvalue : ({ s.map with noAttrTouched := true } : BucketMap K UInt64).valueOf =
              s.map.valueOf := rfl
          have hcell : ({ s.map with noAttrTouched := true } : BucketMap K UInt64).noAttrCell =
              s.map.noAttrCell := rfl
          simp only [Shared.total, Shared.filed, Observed.values, Shared.inNoAttr, hpending,
            Shared.lost, htouching, hvalue, hcell, add_zero]
  | observe ts =>
      cases hmoves with
      | swap _ hidle =>
          rw [Shared.lost, Label.added, add_zero, add_zero]
          exact balance_swap h ts hidle set
  | drainStep =>
      rw [Label.added, add_zero]
      exact balance_drainStep h hmoves set
  | exportSeries =>
      cases hmoves with
      | handOn hidle =>
          have hvalues := congrArg List.sum (congrFun
            (Observed.values_exportSeries cfg s.toObserved) (set.sort (· ≤ ·)))
          simp only [Observed.exec] at hvalues
          simp only [Shared.total, Shared.filed, hvalues, Shared.lost, Label.added, add_zero]
          rfl

end Ohnotel.Draining
