/-
# What one observation does to one attribute list

An observer walks the canonical table, or the table it drained, and files each value
under the attribute list of its entry.  No list occurs twice in a table, so an
observation is described list by list: what the observer holds for a list, its slot,
is rewritten once if the list has an entry and is left alone otherwise.

Observing without draining never refuses an entry, so it leaves the map's tables and
cells as they are.
-/

import Ohnotel.BucketMap.Drains
import Ohnotel.Foundation.Keyed
import Ohnotel.Observe.Basic

namespace Ohnotel

open Foundation Atomic

/-- What an observer holds for one attribute list: the values not exported yet, and
the value it remembers, if it remembers any. -/
structure Slot (V : Type) where
  values : List V
  last : Option (Option V)

namespace Slot

variable {V : Type} [BEq V] [PartialOrd V] [Sub V]

/-- What is filed when the value changed from `prev` to `current`. -/
def difference (prev current : V) : V :=
  if PartialOrd.lt prev current then current - prev else current

/-- What is filed for a value read from a cell that stays. -/
def filed (last : Option (Option V)) (current : V) : List V :=
  match last with
  | none | some none => [current]
  | some (some prev) => if prev == current then [] else [difference prev current]

/-- What is remembered after it. -/
def remembered (last : Option (Option V)) (current : V) : Option (Option V) :=
  match last with
  | none => none
  | some none => some (some current)
  | some (some prev) => if prev == current then some (some prev) else some (some current)

def observe (slot : Slot V) (current : V) : Slot V where
  values := slot.values ++ filed slot.last current
  last := remembered slot.last current

end Slot

namespace SyncObserver

variable {K A T V : Type}

def slot (o : SyncObserver K V) (attrs : List K) : Slot V where
  values := (o.series attrs).map Observation.value
  last := o.lastValues.map fun lastValues => lastValues attrs

/-- Every metric but a gauge can be observed in every mode, by an observer that starts
without values. -/
theorem exists_new (id : NameIdentity) {kind : Kind} (hkind : kind ≠ .gauge) (mode : Mode)
    (now : SystemTime) :
    ∃ o : SyncObserver K V, SyncObserver.new id kind mode now = .ok o ∧ o.observeMode = mode ∧
      ∀ attrs, o.slot attrs =
        { values := [], last := if mode = .delta then some none else none } := by
  refine ⟨_, if_neg fun hboth => hkind hboth.2, rfl, fun attrs => ?_⟩
  cases mode <;> rfl

variable [LinearOrder K]

theorem slot_push_self (o : SyncObserver K V) (ts : SystemTime) (attrs : List K) (value : V) :
    (o.push ts attrs value).slot attrs =
      { o.slot attrs with values := (o.slot attrs).values ++ [value] } := by
  simp [slot, push]

theorem slot_push_of_ne (o : SyncObserver K V) (ts : SystemTime) {attrs other : List K}
    (hne : other ≠ attrs) (value : V) : (o.push ts attrs value).slot other = o.slot other := by
  simp only [slot, push, Function.update_of_ne hne]

section Record

variable [Record A T V] [BEq V] [PartialOrd V] [Sub V]

theorem observeEntry_keeps (ts : SystemTime) (o : SyncObserver K V) (e : CanonicalEntry K)
    (cell : A) : (observeEntry ts o e cell).1 = true := by
  unfold observeEntry
  cases o.lastValues with
  | none => rfl
  | some lastValues =>
      simp only
      cases lastValues e.attrs with
      | none => rfl
      | some prev =>
          simp only
          split <;> rfl

theorem slot_observeEntry_self (ts : SystemTime) (o : SyncObserver K V) (e : CanonicalEntry K)
    (cell : A) :
    (observeEntry ts o e cell).2.slot e.attrs =
      (o.slot e.attrs).observe (Record.current cell) := by
  unfold observeEntry
  cases hlast : o.lastValues with
  | none =>
      rw [slot_push_self]
      simp [slot, Slot.observe, Slot.filed, Slot.remembered, hlast]
  | some lastValues =>
      simp only
      cases hprev : lastValues e.attrs with
      | none =>
          rw [slot_push_self]
          simp [slot, Slot.observe, Slot.filed, Slot.remembered, hlast, hprev]
      | some prev =>
          simp only [slot, Slot.observe, Slot.filed, Slot.remembered, hlast, Option.map_some, hprev]
          by_cases hsame : (prev == Record.current cell) = true
          · simp [hsame, hlast, hprev]
          · simp [hsame, push, Slot.difference]

theorem slot_observeEntry_of_ne (ts : SystemTime) (o : SyncObserver K V)
    (e : CanonicalEntry K) (cell : A) {other : List K} (hne : other ≠ e.attrs) :
    (observeEntry ts o e cell).2.slot other = o.slot other := by
  unfold observeEntry
  cases hlast : o.lastValues with
  | none => exact slot_push_of_ne _ _ hne _
  | some lastValues =>
      simp only
      cases hprev : lastValues e.attrs with
      | none =>
          rw [slot_push_of_ne _ _ hne]
          simp [slot, hlast, Function.update_of_ne hne]
      | some prev =>
          simp only
          split
          · rfl
          · rw [slot_push_of_ne _ _ hne]
            simp [slot, hlast, Function.update_of_ne hne]

/-- The walk of an observation that does not drain. -/
def observing (ts : SystemTime) (cells : BucketRef → A) :
    Keyed (SyncObserver K V) (CanonicalEntry K) (List K) (Slot V) where
  step o e := (observeEntry ts o e (cells e.bucket)).2
  key e := e.attrs
  view o attrs := o.slot attrs
  rewrite e slot := slot.observe (Record.current (cells e.bucket))
  view_own o e := slot_observeEntry_self ts o e (cells e.bucket)
  view_other o e _ hne := slot_observeEntry_of_ne ts o e (cells e.bucket) hne

/-- The walk over a drained table. -/
def observingDrained [IsInitial V] (ts : SystemTime) :
    Keyed (SyncObserver K V) (List K × V) (List K) (Slot V) where
  step o drained := observeDrained ts o drained
  key drained := drained.1
  view o attrs := o.slot attrs
  rewrite drained slot :=
    if IsInitial.isInitial drained.2 then slot
    else { slot with values := slot.values ++ [drained.2] }
  view_own o drained := by
    unfold observeDrained
    split
    · rfl
    · exact slot_push_self o ts drained.1 drained.2
  view_other o drained other hne := by
    unfold observeDrained
    split
    · rfl
    · exact slot_push_of_ne o ts hne drained.2

end Record

end SyncObserver

/-! ## A visit that refuses nothing -/

namespace BucketMap

variable {K A T V : Type} {cfg : Config K A} {inUse : Set (List K)}

/-- The entries an observer walks: the table's, then the empty list's if it was
touched. -/
def walkedEntries (m : BucketMap K A) : List (CanonicalEntry K) :=
  m.canonical.elems ++ if m.noAttrTouched then [m.noAttrEntry] else []

section Keeps

variable {σ : Type} {cb : σ → CanonicalEntry K → A → Bool × σ}

variable (cfg) in
/-- A visit that refuses nothing leaves the map as it is. -/
theorem visitBucket_eq_of_keeps [Record A T V]
    (hkeeps : ∀ state e cell, (cb state e cell).1 = true) (m : BucketMap K A) (state : σ) :
    m.visitBucket cfg cb state =
      (m, m.walkedEntries.foldl (fun state e => (cb state e (m.cells e.bucket)).2) state) := by
  have hentry : ∀ visit e, visitEntry cfg cb m.cells visit e =
      (true, { visit with state := (cb visit.state e (m.cells e.bucket)).2 }) :=
    fun visit e => if_pos (hkeeps visit.state e _)
  have hfold : ∀ (l : List (CanonicalEntry K)) (visit : Visit σ K),
      l.foldl (fun visit e => (visitEntry cfg cb m.cells visit e).2) visit =
        { visit with
          state := l.foldl (fun state e => (cb state e (m.cells e.bucket)).2) visit.state } := by
    intro l
    induction l with
    | nil => exact fun _ => rfl
    | cons e rest ih =>
        intro visit
        rw [List.foldl_cons, List.foldl_cons, ih, hentry]
  have hwalk := HashTable.retain_of_keeps (fun visit e => congrArg Prod.fst (hentry visit e))
    { state := state, aliases := m.aliases, evicted := 0 } m.canonical
  have hnone : ¬ (0 : UInt64) > 0 := by decide
  simp only [visitBucket, hwalk, hfold, hkeeps, if_neg hnone, if_true, walkedEntries,
    List.foldl_append]
  by_cases htouched : m.noAttrTouched = true
  · simp only [if_pos htouched]
    rfl
  · simp only [if_neg htouched]
    rfl

end Keeps

/-- A map in which no attribute list has two entries. -/
structure Walkable (K A : Type) where
  buckets : BucketMap K A
  nodup : (buckets.canonical.elems.map CanonicalEntry.attrs).Nodup
  nonempty : [] ∉ buckets.canonical.elems.map CanonicalEntry.attrs
  noAttr : buckets.noAttrEntry.attrs = []

theorem Walkable.nodup_walkedEntries (m : Walkable K A) :
    (m.buckets.walkedEntries.map CanonicalEntry.attrs).Nodup := by
  rw [walkedEntries, List.map_append]
  cases m.buckets.noAttrTouched with
  | false => simpa using m.nodup
  | true => simpa [m.noAttr, List.nodup_append, m.nodup] using m.nonempty

variable [LinearOrder K]

/-- A map that keeps its invariant can be walked. -/
def Walkable.ofInv {m : BucketMap K A} (hinv : Inv cfg inUse m) : Walkable K A where
  buckets := m
  nodup := hinv.canon.nodup
  nonempty hmem := by
    obtain ⟨e, he, hnil⟩ := List.mem_map.mp hmem
    exact hinv.canon.nonempty e he hnil
  noAttr := hinv.buckets.noAttr_attrs

/-- The cell an observer is shown for a set, if it is shown one. -/
def shownCell (m : BucketMap K A) (set : Finset K) : Option A :=
  if set = ∅ then (if m.noAttrTouched then some m.noAttrCell else none) else m.valueOf set

theorem sort_eq_nil_iff {set : Finset K} : set.sort (· ≤ ·) = [] ↔ set = ∅ := by
  rw [← List.toFinset_eq_empty_iff, Finset.sort_toFinset]

theorem nodup_walkedEntries {m : BucketMap K A} (hinv : Inv cfg inUse m) :
    (m.walkedEntries.map CanonicalEntry.attrs).Nodup :=
  (Walkable.ofInv hinv).nodup_walkedEntries

theorem valueOf_eq_some_iff {m : BucketMap K A} (hcanon : CanonOk cfg inUse m.canonical)
    {set : Finset K} {cell : A} :
    m.valueOf set = some cell ↔
      ∃ e ∈ m.canonical.elems, e.attrs = set.sort (· ≤ ·) ∧ m.cells e.bucket = cell := by
  rw [valueOf, Option.map_eq_some_iff]
  simp only [bucketOf_eq_some_iff hcanon]
  constructor
  · rintro ⟨bucket, ⟨e, he, hattrs, hbucket⟩, hcell⟩
    exact ⟨e, he, hattrs, hbucket ▸ hcell⟩
  · rintro ⟨e, he, hattrs, hcell⟩
    exact ⟨e.bucket, ⟨e, he, hattrs, rfl⟩, hcell⟩

theorem normalize_of_mem_walkedEntries {m : BucketMap K A} (hinv : Inv cfg inUse m)
    {e : CanonicalEntry K} (he : e ∈ m.walkedEntries) : normalize e.attrs = e.attrs := by
  cases List.mem_append.mp he with
  | inl htable => exact hinv.canon.canonical e htable
  | inr hnoAttr =>
      split at hnoAttr
      · rw [List.mem_singleton.mp hnoAttr, hinv.buckets.noAttr_attrs]
        rfl
      · simp at hnoAttr

/-- The walk reaches exactly the sets an observer is shown, each with its cell. -/
theorem shownCell_eq_some_iff {m : BucketMap K A} (hinv : Inv cfg inUse m) {set : Finset K}
    {cell : A} :
    m.shownCell set = some cell ↔
      ∃ e ∈ m.walkedEntries, e.attrs = set.sort (· ≤ ·) ∧ m.cells e.bucket = cell := by
  have hnoAttr : m.noAttrEntry.attrs = set.sort (· ≤ ·) ↔ set = ∅ := by
    rw [hinv.buckets.noAttr_attrs, eq_comm, sort_eq_nil_iff]
  simp only [walkedEntries, List.mem_append, or_and_right, exists_or,
    ← valueOf_eq_some_iff hinv.canon]
  by_cases hset : set = ∅
  · cases htouched : m.noAttrTouched <;>
      simp [shownCell, hset, htouched, noAttrCell, valueOf_empty hinv, hinv.buckets.noAttr_attrs]
  · cases htouched : m.noAttrTouched <;> simp [shownCell, hset, hnoAttr]

theorem shownCell_empty (m : BucketMap K A) :
    m.shownCell ∅ = if m.noAttrTouched then some m.noAttrCell else none := if_pos rfl

theorem shownCell_of_ne (m : BucketMap K A) {set : Finset K} (hset : set ≠ ∅) :
    m.shownCell set = m.valueOf set := if_neg hset

theorem toFinset_ne_empty {attrs : List K} (hne : attrs ≠ []) : attrs.toFinset ≠ ∅ :=
  mt (List.toFinset_eq_empty_iff attrs).mp hne

/-- An observer is shown exactly these cells, and the cell of no attributes is new until
it is shown. -/
structure Shows (cfg : Config K A) (inUse : Set (List K)) (m : BucketMap K A)
    (shown : Finset K → Option A) : Prop where
  inv : Inv cfg inUse m
  shownCell : m.shownCell = shown
  noAttrCell : m.noAttrCell = (shown ∅).getD cfg.initBucket

theorem shows_withStorage : Shows cfg inUse (withStorage cfg) fun _ => none where
  inv := inv_withStorage cfg inUse
  shownCell := by
    funext set
    rw [BucketMap.shownCell]
    split <;> rfl
  noAttrCell := rfl

/-- A write shows the cell it wrote, and changes nothing else that is shown. -/
theorem Shows.write_of_answers {m : BucketMap K A} {shown : Finset K → Option A}
    (h : Shows cfg inUse m shown) {attrs : List K} (hattrs : attrs ∈ inUse)
    (hanswers : attrs ≠ [] → Answers cfg m attrs) (f : A → A) :
    Shows cfg inUse (if attrs.isEmpty then m.writeNoAttr f else m.updateBucket cfg attrs f)
      (Function.update shown attrs.toFinset
        (some (f ((shown attrs.toFinset).getD cfg.initBucket)))) := by
  obtain ⟨hinv, rfl, hcell⟩ := h
  by_cases hne : attrs = []
  · subst hne
    obtain ⟨hinv', hvalue', hcell', htouched'⟩ := writeNoAttr_spec hinv f
    rw [List.isEmpty_nil, if_pos rfl, List.toFinset_nil, ← hcell, ← hcell']
    refine ⟨hinv', ?_, by rw [Function.update_self, Option.getD_some]⟩
    funext set
    by_cases hset : set = ∅
    · subst hset
      rw [Function.update_self, shownCell_empty, if_pos htouched']
    · rw [Function.update_of_ne hset, shownCell_of_ne _ hset, shownCell_of_ne _ hset, hvalue']
  · have hset := toFinset_ne_empty hne
    have hwritten := updateBucket_of_answers hinv hne hattrs (hanswers hne) f
    have hvalue := hwritten.valueOf
    rw [← shownCell_of_ne m hset] at hvalue
    rw [if_neg (by simpa using hne)]
    refine ⟨hwritten.inv, ?_, ?_⟩
    · funext set
      by_cases hempty : set = ∅
      · subst hempty
        rw [Function.update_of_ne (Ne.symm hset), shownCell_empty, shownCell_empty,
          hwritten.noAttrTouched, hwritten.noAttrCell]
      · rw [shownCell_of_ne _ hempty, hvalue]
        by_cases hsame : set = attrs.toFinset
        · subst hsame
          rw [Function.update_self, Function.update_self]
        · rw [Function.update_of_ne hsame, Function.update_of_ne hsame,
            shownCell_of_ne _ hempty]
    · rw [hwritten.noAttrCell, hcell, Function.update_of_ne (Ne.symm hset)]

theorem Shows.write (hfree : CollisionFree cfg inUse) {m : BucketMap K A}
    {shown : Finset K → Option A} (h : Shows cfg inUse m shown) {attrs : List K}
    (hattrs : attrs ∈ inUse) (f : A → A) :
    Shows cfg inUse (if attrs.isEmpty then m.writeNoAttr f else m.updateBucket cfg attrs f)
      (Function.update shown attrs.toFinset
        (some (f ((shown attrs.toFinset).getD cfg.initBucket)))) :=
  h.write_of_answers hattrs (fun hne => answers_of_collisionFree hfree h.inv hne hattrs) f

/-- Nothing is shown of a map that was drained. -/
theorem Shows.drained [Record A T V] {m m' : BucketMap K A} {shown : Finset K → Option A}
    (h : Shows cfg inUse m shown) (hdrained : Drained cfg inUse m m')
    (hclear : Record.clear ((shown ∅).getD cfg.initBucket) = cfg.initBucket) :
    Shows cfg inUse m' fun _ => none where
  inv := hdrained.inv
  shownCell := by
    funext set
    rw [BucketMap.shownCell, hdrained.noAttrTouched, hdrained.valueOf]
    split <;> rfl
  noAttrCell := by
    rw [hdrained.noAttrCell, h.noAttrCell, hclear, Option.getD_none]

end BucketMap

/-! ## One observation, set by set -/

namespace SyncObserver

variable {K A T V : Type} [LinearOrder K] {cfg : Config K A} {inUse : Set (List K)}
  [Record A T V]

section Visit

variable [BEq V] [PartialOrd V] [Sub V]

/-- What an observation that does not drain does to the slot of a set. -/
theorem slot_observing {m : BucketMap K A} (hinv : BucketMap.Inv cfg inUse m)
    (ts : SystemTime) (o : SyncObserver K V) (set : Finset K) :
    ((m.walkedEntries.foldl (observing ts m.cells).step o).slot (set.sort (· ≤ ·))) =
      match m.shownCell set with
      | some cell => (o.slot (set.sort (· ≤ ·))).observe (Record.current cell)
      | none => o.slot (set.sort (· ≤ ·)) := by
  cases hshown : m.shownCell set with
  | some cell =>
      obtain ⟨e, he, hattrs, rfl⟩ := (BucketMap.shownCell_eq_some_iff hinv).mp hshown
      rw [← hattrs]
      exact (observing ts m.cells).view_foldl_of_mem (BucketMap.nodup_walkedEntries hinv) he o
  | none =>
      apply (observing ts m.cells).view_foldl_of_not_mem
      intro hmem
      obtain ⟨e, he, hattrs⟩ := List.mem_map.mp hmem
      have hsome := (BucketMap.shownCell_eq_some_iff hinv).mpr ⟨e, he, hattrs, rfl⟩
      simp [hshown] at hsome

theorem mode_observing (ts : SystemTime) (cells : BucketRef → A)
    (entries : List (CanonicalEntry K)) (o : SyncObserver K V) :
    (entries.foldl (observing ts cells).step o).observeMode = o.observeMode := by
  induction entries generalizing o with
  | nil => rfl
  | cons e rest ih =>
      rw [List.foldl_cons, ih]
      simp only [observing, observeEntry]
      split
      · rfl
      · split
        · rfl
        · split <;> rfl

variable [IsInitial V]

/-- What an observation that does not drain does to the observer. -/
structure Watched (m : BucketMap K A) (o o' : SyncObserver K V) : Prop where
  observeMode : o'.observeMode = o.observeMode
  slot : ∀ set : Finset K, o'.slot (set.sort (· ≤ ·)) =
    match m.shownCell set with
    | some cell => (o.slot (set.sort (· ≤ ·))).observe (Record.current cell)
    | none => o.slot (set.sort (· ≤ ·))
  elsewhere : ∀ attrs, normalize attrs ≠ attrs → o'.slot attrs = o.slot attrs

variable (cfg) in
theorem observe_of_keeps {m : BucketMap K A} (hinv : BucketMap.Inv cfg inUse m)
    (ts : SystemTime) {o : SyncObserver K V} (hmode : o.observeMode ≠ .destructive) :
    (o.observe cfg ts m).1 = m ∧ Watched m o (o.observe cfg ts m).2 := by
  have hvisit := BucketMap.visitBucket_eq_of_keeps cfg (observeEntry_keeps ts) m o
  have hwalk : (m.visitBucket cfg (observeEntry ts) o).2 =
      m.walkedEntries.foldl (observing ts m.cells).step o := congrArg Prod.snd hvisit
  rw [observe, if_neg hmode]
  refine ⟨congrArg Prod.fst hvisit, ?_, fun set => ?_, fun attrs hattrs => ?_⟩
  · exact (congrArg observeMode hwalk).trans (mode_observing ts m.cells _ o)
  · exact (congrArg (slot · (set.sort (· ≤ ·))) hwalk).trans (slot_observing hinv ts o set)
  · refine (congrArg (slot · attrs) hwalk).trans ((observing ts m.cells).view_foldl_of_not_mem ?_ o)
    intro hmem
    obtain ⟨e, he, rfl⟩ := List.mem_map.mp hmem
    exact hattrs (BucketMap.normalize_of_mem_walkedEntries hinv he)

end Visit

section Drain

variable [IsInitial V]

/-- What a draining observation files for a set: nothing for an initial value, except
that the value of no attributes is filed whatever it is. -/
def drainedValues (m : BucketMap K A) (set : Finset K) : List V :=
  match m.shownCell set with
  | some cell =>
      if IsInitial.isInitial (Record.current cell) ∧ set ≠ ∅ then [] else [Record.current cell]
  | none => []

omit [IsInitial V] in
theorem slot_observeNoAttr (ts : SystemTime) (o : SyncObserver K V) (noAttrVal : Option V)
    (attrs : List K) :
    ((o.observeNoAttr ts noAttrVal).slot attrs).values =
      (o.slot attrs).values ++ if attrs = [] then noAttrVal.toList else [] := by
  unfold observeNoAttr
  cases noAttrVal with
  | none => simp [slot]
  | some value =>
      by_cases hattrs : attrs = []
      · subst hattrs
        simp [slot, push]
      · simp [slot, push, hattrs]

/-- The walk over the drained table files what is not initial. -/
theorem slot_observingDrained {m : BucketMap K A} (hinv : BucketMap.Inv cfg inUse m)
    (ts : SystemTime) (o : SyncObserver K V) (set : Finset K) :
    (((m.readTable m.canonical).foldl (observeDrained ts) o).slot (set.sort (· ≤ ·))).values =
      (o.slot (set.sort (· ≤ ·))).values ++
        match m.valueOf set with
        | some cell =>
            if IsInitial.isInitial (Record.current cell) then [] else [Record.current cell]
        | none => [] := by
  have hkeys : (m.readTable m.canonical).map (observingDrained ts).key =
      m.canonical.elems.map CanonicalEntry.attrs := by
    rw [BucketMap.readTable, List.map_map]
    rfl
  cases hvalue : m.valueOf set with
  | some cell =>
      obtain ⟨e, he, hattrs, rfl⟩ := (BucketMap.valueOf_eq_some_iff hinv.canon).mp hvalue
      have hmem : (e.attrs, Record.current (m.cells e.bucket)) ∈ m.readTable m.canonical :=
        List.mem_map_of_mem he
      have hwalk := (observingDrained ts).view_foldl_of_mem (hkeys ▸ hinv.canon.nodup) hmem o
      rw [← hattrs]
      refine (congrArg Slot.values hwalk).trans ?_
      simp only [observingDrained]
      split <;> simp
  | none =>
      rw [List.append_nil]
      refine congrArg Slot.values ((observingDrained ts).view_foldl_of_not_mem ?_ o)
      rw [hkeys]
      intro hmem
      obtain ⟨e, he, hattrs⟩ := List.mem_map.mp hmem
      have hsome := (BucketMap.valueOf_eq_some_iff hinv.canon).mpr ⟨e, he, hattrs, rfl⟩
      simp [hvalue] at hsome

/-- A draining observation files the value of every set it is shown. -/
theorem slot_observeDestructive {m : BucketMap K A} (hinv : BucketMap.Inv cfg inUse m)
    (ts : SystemTime) (o : SyncObserver K V) (set : Finset K) :
    (((observeDestructive ts m o).2).slot (set.sort (· ≤ ·))).values =
      (o.slot (set.sort (· ≤ ·))).values ++ drainedValues m set := by
  rw [observeDestructive, BucketMap.readTable_take hinv, slot_observeNoAttr,
    slot_observingDrained hinv, (BucketMap.take_spec hinv).2.2, drainedValues,
    BucketMap.shownCell, List.append_assoc]
  congr 1
  by_cases hset : set = ∅
  · subst hset
    rw [BucketMap.valueOf_empty hinv, if_pos (BucketMap.sort_eq_nil_iff.mpr rfl)]
    cases m.noAttrTouched <;> simp
  · rw [if_neg (mt BucketMap.sort_eq_nil_iff.mp hset), if_neg hset, List.append_nil]
    cases m.valueOf set <;> simp [hset]

theorem mode_observeDestructive (ts : SystemTime) (m : BucketMap K A) (o : SyncObserver K V) :
    (observeDestructive ts m o).2.observeMode = o.observeMode := by
  have hwalk : ∀ (drained : List (List K × V)) (o : SyncObserver K V),
      (drained.foldl (observeDrained ts) o).observeMode = o.observeMode := by
    intro drained
    induction drained with
    | nil => exact fun _ => rfl
    | cons first rest ih =>
        intro o
        rw [List.foldl_cons, ih, observeDrained]
        split <;> rfl
  have hend : ∀ (o : SyncObserver K V) (noAttrVal : Option V),
      (o.observeNoAttr ts noAttrVal).observeMode = o.observeMode := by
    intro o noAttrVal
    cases noAttrVal <;> rfl
  exact (hend _ _).trans (hwalk _ _)

/-- Nothing is filed under a list that is not the sorted list of a set. -/
theorem slot_observeDestructive_elsewhere {m : BucketMap K A}
    (hinv : BucketMap.Inv cfg inUse m) (ts : SystemTime) (o : SyncObserver K V)
    {attrs : List K} (hattrs : normalize attrs ≠ attrs) :
    ((observeDestructive ts m o).2.slot attrs).values = (o.slot attrs).values := by
  have hne : attrs ≠ [] := by
    intro hnil
    apply hattrs
    rw [hnil]
    rfl
  rw [observeDestructive, BucketMap.readTable_take hinv, slot_observeNoAttr, if_neg hne,
    List.append_nil]
  refine congrArg Slot.values ((observingDrained ts).view_foldl_of_not_mem ?_ o)
  intro hmem
  obtain ⟨pair, hpair, rfl⟩ := List.mem_map.mp hmem
  obtain ⟨e, he, rfl⟩ := List.mem_map.mp hpair
  exact hattrs (hinv.canon.canonical e he)

end Drain

end SyncObserver

end Ohnotel
