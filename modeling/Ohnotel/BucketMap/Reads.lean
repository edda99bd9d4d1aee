/-
# Which lists a read finds

A write sorts and deduplicates its list before it gives up on a lookup; a read does
not.  Which spellings of an attribute set a read finds therefore depends on the
spellings earlier writes used.  This module keeps a history of those, as far as the
set's bucket still exists, and says exactly which lists can be read: the strictly
sorted one, and every reordering of a list that was itself written and is not
strictly sorted.

Writing under a list and reading it back always works.  Two lists of one set read
the same bucket only if both can be read or neither can.
-/

import Ohnotel.BucketMap.Drains
import Ohnotel.Metric

namespace Ohnotel

open Foundation Atomic

section History

variable {K V : Type}

/-- What an operation did to lookups, as far as its caller can tell. -/
inductive LookupEvent (K : Type)
  | wrote (attrs : List K)
  | drained
  | evicted (refused : List (List K))
  | unchanged

/-- The lists a visit's callback refused. -/
def refusedLists (calls : List (Call K V)) : List (List K) :=
  (calls.filter fun call => !call.keep).map Call.attrs

theorem mem_refusedLists {calls : List (Call K V)} {attrs : List K} :
    attrs ∈ refusedLists calls ↔ SetMap.Refused calls attrs := by
  simp only [refusedLists, List.mem_map, List.mem_filter, Bool.not_eq_true', SetMap.Refused,
    and_assoc]
  exact exists_congr fun call => and_congr_right fun _ => and_comm

def ScalarOp.event {T : Type} : ScalarOp K T → Out K T → LookupEvent K
  | .add _ attrs, _ | .sub _ attrs, _ | .set _ attrs, _ | .reset attrs, _ => .wrote attrs
  | .clear, _ | .take, _ => .drained
  | .visitBucket _, .visited calls => .evicted (refusedLists calls)
  | .visitBucket _, _ => .unchanged

def HistogramOp.event {T : Type} : HistogramOp K T → HistogramOut K T → LookupEvent K
  | .add _ attrs, _ | .sub _ attrs, _ => .wrote attrs
  | .clear, _ | .take, _ => .drained
  | .visitBucket _, .visited calls => .evicted (refusedLists calls)
  | .visitBucket _, _ | .takeBucket _, _ => .unchanged

variable [LinearOrder K]

/-- The lists written so far whose sets were not drained or evicted since. -/
def spell (lists : List (List K)) : LookupEvent K → List (List K)
  | .wrote attrs => if attrs = [] then lists else attrs :: lists
  | .drained => []
  | .evicted refused => lists.filter fun attrs => normalize attrs ∉ refused
  | .unchanged => lists

/-- Some list of the same set was written since the set's bucket was created. -/
def Live (lists : List (List K)) (attrs : List K) : Prop :=
  ∃ written ∈ lists, written.toFinset = attrs.toFinset

/-- A list that a read finds when its set is live: it is strictly sorted, or a
reordering of it that is not strictly sorted was written. -/
def Readable (lists : List (List K)) (attrs : List K) : Prop :=
  attrs.Pairwise (· < ·) ∨
    ∃ written ∈ lists, written.Perm attrs ∧ ¬ written.Pairwise (· < ·)

theorem Live.congr {lists : List (List K)} {first second : List K}
    (hset : first.toFinset = second.toFinset) : Live lists first ↔ Live lists second := by
  rw [Live, Live, hset]

end History

namespace BucketMap

variable {K A T V : Type} [LinearOrder K] {cfg : Config K A} {inUse : Set (List K)}

/-- The cell a read of a non-empty list reaches. -/
def lookup (cfg : Config K A) (m : BucketMap K A) (attrs : List K) : Option A :=
  (m.getBucket cfg attrs).toOption.map m.cells

/-- The history `lists` accounts for the map's tables: the live sets are those with
a bucket, and the aliases are those of the lists that are not strictly sorted. -/
structure Spells (cfg : Config K A) (inUse : Set (List K)) (m : BucketMap K A)
    (lists : List (List K)) : Prop where
  mem : ∀ attrs ∈ lists, attrs ∈ inUse
  live : ∀ set : Finset K, (m.valueOf set).isSome ↔ ∃ attrs ∈ lists, attrs.toFinset = set
  hasAlias : ∀ fp, HasAlias m fp ↔
    ∃ attrs ∈ lists, fp = AttrFingerprint.commutativeHash cfg.hasher attrs ∧
      normalize attrs ≠ attrs

variable (cfg inUse) in
theorem spells_withStorage : Spells cfg inUse (withStorage cfg) [] where
  mem := by simp
  live set := by simp [valueOf, bucketOf, withStorage]
  hasAlias fp := by simp [HasAlias, withStorage]

/-! ## One operation -/

theorem Spells.wrote {m m' : BucketMap K A} {lists : List (List K)}
    (hspells : Spells cfg inUse m lists) {attrs : List K} (hattrs : attrs ∈ inUse)
    {f : A → A} (hwritten : Written cfg inUse m attrs f m') :
    Spells cfg inUse m' (attrs :: lists) where
  mem := by
    intro other hother
    cases List.mem_cons.mp hother with
    | inl hsame => exact hsame ▸ hattrs
    | inr hold => exact hspells.mem other hold
  live set := by
    rw [hwritten.valueOf]
    by_cases hset : set = attrs.toFinset
    · subst hset
      simp
    · rw [Function.update_of_ne hset, hspells.live]
      simp [Ne.symm hset]
  hasAlias fp := by
    rw [hwritten.hasAlias, hspells.hasAlias]
    simp only [List.mem_cons, exists_eq_or_imp]
    exact or_comm

theorem Spells.drained {m m' : BucketMap K A} [Record A T V]
    (hdrained : Drained cfg inUse m m') : Spells cfg inUse m' [] where
  mem := by simp
  live set := by simp [hdrained.valueOf]
  hasAlias fp := by simpa using hdrained.hasAlias fp

/-- Operations that touch neither table. -/
theorem Spells.unchanged {m m' : BucketMap K A} {lists : List (List K)}
    (hspells : Spells cfg inUse m lists) (hcanonical : m'.canonical = m.canonical)
    (haliases : m'.aliases = m.aliases) : Spells cfg inUse m' lists where
  mem := hspells.mem
  live set := by
    have hbucket : m'.bucketOf set = m.bucketOf set := by rw [bucketOf, hcanonical, bucketOf]
    rw [← hspells.live, valueOf, hbucket, valueOf, Option.isSome_map, Option.isSome_map]
  hasAlias fp := by
    rw [← hspells.hasAlias, HasAlias, haliases]
    rfl

theorem Spells.evicted [Record A T V] (hfree : CollisionFree cfg inUse) {m m' : BucketMap K A}
    (hinv : Inv cfg inUse m) {lists : List (List K)} (hspells : Spells cfg inUse m lists)
    {cb : Callback K V} {calls : List (Call K V)}
    (hvisited : Visited cfg inUse m cb calls m') :
    Spells cfg inUse m' (lists.filter fun attrs => normalize attrs ∉ refusedLists calls) where
  mem attrs hattrs := hspells.mem attrs (List.mem_filter.mp hattrs).1
  live set := by
    by_cases hrefused : SetMap.Refused calls (set.sort (· ≤ ·))
    · rw [hvisited.valueOf_refused set hrefused]
      simp only [Option.isSome_none, Bool.false_eq_true, false_iff, not_exists, not_and,
        List.mem_filter, mem_refusedLists, decide_eq_true_eq]
      rintro attrs ⟨_, hkept⟩ rfl
      rw [normalize_eq_sort] at hkept
      exact hkept hrefused
    · rw [hvisited.valueOf_kept set hrefused, hspells.live]
      simp only [List.mem_filter, mem_refusedLists, decide_eq_true_eq, and_assoc]
      apply exists_congr
      intro attrs
      apply and_congr_right
      intro _
      constructor
      · rintro rfl
        exact ⟨by rwa [normalize_eq_sort], rfl⟩
      · exact And.right
  hasAlias fp := by
    rw [hvisited.hasAlias]
    simp only [List.mem_filter, mem_refusedLists, decide_eq_true_eq]
    -- An alias and a written list with one fingerprint have one normal form.
    have hnorm : ∀ a ∈ m.aliases.elems, ∀ attrs ∈ lists, a.key.rawFp = fp →
        fp = AttrFingerprint.commutativeHash cfg.hasher attrs →
        normalize a.key.rawAttrs = normalize attrs := fun a ha attrs hattrs hfp hhash =>
      normalize_eq_of_fp_eq hfree (hinv.dup.key_ok a ha) (hspells.mem attrs hattrs)
        (hfp.trans hhash)
    constructor
    · intro ⟨a, ha, hfp, hkept⟩
      obtain ⟨attrs, hattrs, hhash, hne⟩ := (hspells.hasAlias fp).mp ⟨a, ha, hfp⟩
      rw [hnorm a ha attrs hattrs hfp hhash] at hkept
      exact ⟨attrs, ⟨hattrs, hkept⟩, hhash, hne⟩
    · intro ⟨attrs, ⟨hattrs, hkept⟩, hhash, hne⟩
      obtain ⟨a, ha, hfp⟩ := (hspells.hasAlias fp).mpr ⟨attrs, hattrs, hhash, hne⟩
      rw [← hnorm a ha attrs hattrs hfp hhash] at hkept
      exact ⟨a, ha, hfp, hkept⟩

/-! ## Reading -/

/-- The map knows a list exactly when its set is live and the list is readable. -/
theorem known_iff (hfree : CollisionFree cfg inUse) {m : BucketMap K A} {lists : List (List K)}
    (hspells : Spells cfg inUse m lists) {attrs : List K} (hattrs : attrs ∈ inUse) :
    Known cfg m attrs ↔ Live lists attrs ∧ Readable lists attrs := by
  have hlive : (m.bucketOf attrs.toFinset).isSome ↔ Live lists attrs := by
    rw [Live, ← hspells.live, valueOf, Option.isSome_map]
  have halias : HasAlias m (AttrFingerprint.commutativeHash cfg.hasher attrs) ↔
      ∃ written ∈ lists, written.Perm attrs ∧ ¬ written.Pairwise (· < ·) := by
    rw [hspells.hasAlias]
    apply exists_congr
    intro written
    apply and_congr_right
    intro hwritten
    rw [ne_eq, normalize_eq_self_iff]
    apply and_congr_left
    intro _
    constructor
    · exact fun hfp => hfree _ (hspells.mem written hwritten) _ hattrs hfp.symm
    · exact fun hperm => (AttrFingerprint.commutativeHash_eq_of_perm _ hperm).symm
  rw [Known, ← HasAlias, halias, normalize_eq_self_iff, hlive, Readable]
  constructor
  · rintro (⟨hsorted, hhere⟩ | ⟨written, hwritten, hperm, hnot⟩)
    · exact ⟨hhere, Or.inl hsorted⟩
    · exact ⟨⟨written, hwritten, List.toFinset_eq_of_perm _ _ hperm⟩,
        Or.inr ⟨written, hwritten, hperm, hnot⟩⟩
  · rintro ⟨hhere, hsorted | hreordered⟩
    · exact Or.inl ⟨hsorted, hhere⟩
    · exact Or.inr hreordered

open Classical in
/-- A read reaches the cell of its list's set if the list is readable, and nothing
otherwise. -/
theorem lookup_eq (hfree : CollisionFree cfg inUse) {m : BucketMap K A}
    (hinv : Inv cfg inUse m) {lists : List (List K)} (hspells : Spells cfg inUse m lists)
    {attrs : List K} (hne : attrs ≠ []) (hattrs : attrs ∈ inUse) :
    lookup cfg m attrs = if Readable lists attrs then m.valueOf attrs.toFinset else none := by
  have hknown := known_iff hfree hspells hattrs
  cases getBucket_spec hfree hinv hne hattrs with
  | inl hhit =>
      obtain ⟨hhere, bucket, hbucket, hget⟩ := hhit
      rw [if_pos (hknown.mp hhere).2, lookup, hget, valueOf, hbucket]
      rfl
  | inr hmiss =>
      obtain ⟨habsent, hget⟩ := hmiss
      rw [lookup, hget]
      split
      · rename_i hreadable
        have hdead : ¬ Live lists attrs := fun hlive => habsent (hknown.mpr ⟨hlive, hreadable⟩)
        have hnone := mt (hspells.live attrs.toFinset).mp hdead
        exact (Option.not_isSome_iff_eq_none.mp hnone).symm
      · rfl

/-- `get` reads the cell of the lookup. -/
theorem get_eq_lookup [Scalar A T] (m : BucketMap K A) {attrs : List K} (hne : attrs ≠ []) :
    m.get cfg attrs = (lookup cfg m attrs).map Scalar.get := by
  have hempty : attrs.isEmpty = false := by simpa using hne
  simp only [get, hempty, Bool.false_eq_true, if_false, lookup]
  cases m.getBucket cfg attrs with
  | ok bucket => rfl
  | error hashes => rfl

/-- When two lists of one set read the same. -/
def Agree (lists : List (List K)) (first second : List K) : Prop :=
  ¬ Live lists first ∨ (Readable lists first ↔ Readable lists second)

/-- Whatever is read off the cells, two lists of one set give the same exactly when
the set is not live or both are readable or neither is; and a live set is read
through a list exactly when the list is readable. -/
theorem lookup_agree_iff (hfree : CollisionFree cfg inUse) {m : BucketMap K A}
    (hinv : Inv cfg inUse m) {lists : List (List K)} (hspells : Spells cfg inUse m lists)
    {first second : List K} (hne : first ≠ []) (hset : first.toFinset = second.toFinset)
    (hfirst : first ∈ inUse) (hsecond : second ∈ inUse) {B : Type} (read : A → B) :
    ((lookup cfg m first).map read = (lookup cfg m second).map read ↔
        Agree lists first second) ∧
      (((lookup cfg m first).isSome ↔ (lookup cfg m second).isSome) ↔
        Agree lists first second) ∧
      (Live lists first → ∃ cell, m.valueOf first.toFinset = some cell ∧
        ((lookup cfg m second).map read = some (read cell) ↔ Readable lists second)) := by
  have hne' : second ≠ [] := by
    intro hnil
    rw [hnil, List.toFinset_nil, List.toFinset_eq_empty_iff] at hset
    exact hne hset
  have hlive : (m.valueOf first.toFinset).isSome ↔ Live lists first := hspells.live _
  rw [lookup_eq hfree hinv hspells hne hfirst, lookup_eq hfree hinv hspells hne' hsecond, ← hset,
    Agree, ← hlive]
  cases m.valueOf first.toFinset with
  | none => simp
  | some cell =>
      by_cases h1 : Readable lists first <;> by_cases h2 : Readable lists second <;> simp [h1, h2]

/-! ## Runs -/

/-- A write, whatever it does to the cell: the branch for the empty list touches
neither table. -/
theorem spells_write (hfree : CollisionFree cfg inUse) {m : BucketMap K A}
    (hinv : Inv cfg inUse m) {lists : List (List K)} (hspells : Spells cfg inUse m lists)
    {attrs : List K} (hattrs : attrs ∈ inUse) {noAttr : BucketMap K A}
    (hinvNoAttr : Inv cfg inUse noAttr) (hcanonical : noAttr.canonical = m.canonical)
    (haliases : noAttr.aliases = m.aliases) (f : A → A) :
    Inv cfg inUse (if attrs.isEmpty then noAttr else m.updateBucket cfg attrs f) ∧
      Spells cfg inUse (if attrs.isEmpty then noAttr else m.updateBucket cfg attrs f)
        (spell lists (.wrote attrs)) := by
  cases attrs with
  | nil => exact ⟨hinvNoAttr, hspells.unchanged hcanonical haliases⟩
  | cons kv rest =>
      have hwritten := updateBucket_spec hfree hinv (List.cons_ne_nil kv rest) hattrs f
      exact ⟨hwritten.inv, hspells.wrote hattrs hwritten⟩

section Scalar

variable [Scalar A T]

variable (cfg) in
/-- A reset writes, except that it does not raise the flag. -/
theorem reset_fst (m : BucketMap K A) (attrs : List K) :
    (m.reset cfg attrs).1 =
      if attrs.isEmpty then
        m.modifyCell m.noAttrEntry.bucket fun _ => (Scalar.reset (A := A)
          (m.cells m.noAttrEntry.bucket)).2
      else m.updateBucket cfg attrs fun cell => (Scalar.reset cell).2 := by
  cases attrs <;> rfl

theorem exec_spells (hfree : CollisionFree cfg inUse) {m : BucketMap K A}
    (hinv : Inv cfg inUse m) {lists : List (List K)} (hspells : Spells cfg inUse m lists)
    (op : ScalarOp K T) (hlists : ∀ attrs ∈ op.lists, attrs ∈ inUse) :
    Inv cfg inUse (m.exec cfg op).1 ∧
      Spells cfg inUse (m.exec cfg op).1 (spell lists (op.event (m.exec cfg op).2)) := by
  have hwrite : ∀ f attrs, attrs ∈ inUse →
      Inv cfg inUse (if attrs.isEmpty then m.writeNoAttr f else m.updateBucket cfg attrs f) ∧
        Spells cfg inUse (if attrs.isEmpty then m.writeNoAttr f else m.updateBucket cfg attrs f)
          (spell lists (.wrote attrs)) := fun f attrs hattrs =>
    spells_write hfree hinv hspells hattrs (writeNoAttr_spec hinv f).1 rfl rfl f
  cases op with
  | add value attrs => exact hwrite _ attrs (hlists attrs (List.mem_singleton_self attrs))
  | sub value attrs => exact hwrite _ attrs (hlists attrs (List.mem_singleton_self attrs))
  | set value attrs => exact hwrite _ attrs (hlists attrs (List.mem_singleton_self attrs))
  | reset attrs =>
      show Inv cfg inUse (m.reset cfg attrs).1 ∧
        Spells cfg inUse (m.reset cfg attrs).1 (spell lists (.wrote attrs))
      rw [reset_fst]
      exact spells_write hfree hinv hspells (hlists attrs (List.mem_singleton_self attrs))
        (hinv.modifyCell _ _) rfl rfl _
  | clear =>
      have hdrained := clear_spec hinv
      exact ⟨hdrained.inv, Spells.drained hdrained⟩
  | take =>
      have hdrained := (take_spec hinv).1
      exact ⟨hdrained.inv, Spells.drained hdrained⟩
  | visitBucket cb =>
      have hvisited := visitBucket_spec hfree hinv cb
      exact ⟨hvisited.inv, hspells.evicted hfree hinv hvisited⟩

end Scalar

end BucketMap

section Histogram

variable {K T C : Type} [LinearOrder K] [Measure T C] {cfg : Config K (Bucket T C)}
  {inUse : Set (List K)}

/-- `Histogram::snapshot` reads the cell of the lookup. -/
theorem Histogram.snapshot_eq_lookup (m : BucketMap K (Bucket T C)) (attrs : List K) :
    snapshot cfg m attrs = (BucketMap.lookup cfg m attrs).map Bucket.snapshot := by
  rw [snapshot, BucketMap.lookup]
  cases m.getBucket cfg attrs with
  | ok bucket => rfl
  | error hashes => rfl

/-- `Histogram::take` finds what the lookup finds. -/
theorem Histogram.take_isSome (m : BucketMap K (Bucket T C)) (attrs : List K) :
    (take cfg m attrs).2.isSome = (BucketMap.lookup cfg m attrs).isSome := by
  rw [take, BucketMap.lookup]
  cases m.getBucket cfg attrs with
  | ok bucket => rfl
  | error hashes => rfl

theorem Histogram.exec_spells (hfree : CollisionFree cfg inUse) {m : BucketMap K (Bucket T C)}
    (hinv : BucketMap.Inv cfg inUse m) {lists : List (List K)}
    (hspells : BucketMap.Spells cfg inUse m lists)
    (op : HistogramOp K T) (hlists : ∀ attrs ∈ op.lists, attrs ∈ inUse) :
    BucketMap.Inv cfg inUse (exec cfg m op).1 ∧
      BucketMap.Spells cfg inUse (exec cfg m op).1
        (spell lists (op.event (exec cfg m op).2)) := by
  have hwrite : ∀ f attrs, attrs ∈ inUse →
      BucketMap.Inv cfg inUse
          (if attrs.isEmpty then m.writeNoAttr f else m.updateBucket cfg attrs f) ∧
        BucketMap.Spells cfg inUse
          (if attrs.isEmpty then m.writeNoAttr f else m.updateBucket cfg attrs f)
          (spell lists (.wrote attrs)) := fun f attrs hattrs =>
    BucketMap.spells_write hfree hinv hspells hattrs (BucketMap.writeNoAttr_spec hinv f).1
      rfl rfl f
  cases op with
  | add value attrs => exact hwrite _ attrs (hlists attrs (List.mem_singleton_self attrs))
  | sub value attrs => exact hwrite _ attrs (hlists attrs (List.mem_singleton_self attrs))
  | takeBucket attrs =>
      show BucketMap.Inv cfg inUse (take cfg m attrs).1 ∧
        BucketMap.Spells cfg inUse (take cfg m attrs).1 lists
      unfold take
      split
      · exact ⟨hinv.modifyCell _ fun cell => cell.take.2, hspells.unchanged rfl rfl⟩
      · exact ⟨hinv, hspells⟩
  | clear =>
      have hdrained := BucketMap.clear_spec hinv
      exact ⟨hdrained.inv, BucketMap.Spells.drained hdrained⟩
  | take =>
      have hdrained := (BucketMap.take_spec hinv).1
      exact ⟨hdrained.inv, BucketMap.Spells.drained hdrained⟩
  | visitBucket cb =>
      have hvisited := BucketMap.visitBucket_spec hfree hinv cb
      exact ⟨hvisited.inv, hspells.evicted hfree hinv hvisited⟩

end Histogram

/-- The lists a run of scalar operations has written under and not drained. -/
def spellings {K T : Type} [LinearOrder K] (ops : List (ScalarOp K T)) (outs : List (Out K T)) :
    List (List K) :=
  trackAll (fun lists op out => spell lists (op.event out)) [] ops outs

/-- The lists a run of histogram operations has written under and not drained. -/
def histogramSpellings {K T : Type} [LinearOrder K] (ops : List (HistogramOp K T))
    (outs : List (HistogramOut K T)) : List (List K) :=
  trackAll (fun lists op out => spell lists (op.event out)) [] ops outs

/-- The state after a run of scalar operations, with the history of its lists. -/
theorem BucketMap.execAll_spells {K T A : Type} [LinearOrder K] [Scalar A T] {cfg : Config K A}
    {inUse : Set (List K)} (hfree : CollisionFree cfg inUse) {ops : List (ScalarOp K T)}
    (hlists : listsOf ops ⊆ inUse) :
    Inv cfg inUse ((withStorage cfg).execAll cfg ops).1 ∧
      Spells cfg inUse ((withStorage cfg).execAll cfg ops).1
        (spellings ops ((withStorage cfg).execAll cfg ops).2) :=
  performAll_track (fun m lists => Inv cfg inUse m ∧ Spells cfg inUse m lists)
    (fun op hop _ _ hstart => exec_spells hfree hstart.1 hstart.2 op fun _ hattrs =>
      hlists (List.mem_flatMap.mpr ⟨op, hop, hattrs⟩))
    ⟨inv_withStorage cfg inUse, spells_withStorage cfg inUse⟩

theorem Histogram.execAll_spells {K T C : Type} [LinearOrder K] [Measure T C]
    {cfg : Config K (Bucket T C)} {inUse : Set (List K)} (hfree : CollisionFree cfg inUse)
    {ops : List (HistogramOp K T)} (hlists : histogramListsOf ops ⊆ inUse) :
    BucketMap.Inv cfg inUse (execAll cfg (BucketMap.withStorage cfg) ops).1 ∧
      BucketMap.Spells cfg inUse (execAll cfg (BucketMap.withStorage cfg) ops).1
        (histogramSpellings ops (execAll cfg (BucketMap.withStorage cfg) ops).2) :=
  performAll_track (fun m lists =>
      BucketMap.Inv cfg inUse m ∧ BucketMap.Spells cfg inUse m lists)
    (fun op hop _ _ hstart => exec_spells hfree hstart.1 hstart.2 op fun _ hattrs =>
      hlists (List.mem_flatMap.mpr ⟨op, hop, hattrs⟩))
    ⟨BucketMap.inv_withStorage cfg inUse, BucketMap.spells_withStorage cfg inUse⟩

/-- Reading under two lists of one set, after any run of a build without debug assertions:
`get` gives the same for both, and so does `snapshot`, exactly when the set is not live or
both lists are readable or neither is, and `take` finds a bucket for both under the same
condition.  While the set is live, a list reads its value exactly when it is readable. -/
theorem reads_agree_iff {K : Type} [LinearOrder K] (hasher : BuildHasher K) (layout : Layout)
    (x y : List K) (hne : x ≠ []) (hset : x.toFinset = y.toFinset) :
    (∀ {T A : Type} [Scalar A T] (init : A) (ops : List (ScalarOp K T)),
        let cfg : Config K A := ⟨hasher, init, layout⟩
        CollisionFree cfg (listsOf ops ∪ {x, y}) →
          let final := (BucketMap.withStorage cfg).execAll cfg ops
          let lists := spellings ops final.2
          (final.1.get cfg x = final.1.get cfg y ↔ BucketMap.Agree lists x y) ∧
            (Live lists x → ∃ cell, final.1.valueOf x.toFinset = some cell ∧
              (final.1.get cfg y = some (Scalar.get cell) ↔ Readable lists y))) ∧
      ∀ {T C : Type} [Measure T C] (boundaries : Boundaries T) (ops : List (HistogramOp K T)),
        let cfg := Histogram.storage boundaries hasher layout
        CollisionFree cfg (histogramListsOf ops ∪ {x, y}) →
          let final := Histogram.execAll cfg (BucketMap.withStorage cfg) ops
          let lists := histogramSpellings ops final.2
          (Histogram.snapshot cfg final.1 x = Histogram.snapshot cfg final.1 y ↔
              BucketMap.Agree lists x y) ∧
            (((Histogram.take cfg final.1 x).2.isSome ↔
              (Histogram.take cfg final.1 y).2.isSome) ↔ BucketMap.Agree lists x y) ∧
            (Live lists x → ∃ cell, final.1.valueOf x.toFinset = some cell ∧
              (Histogram.snapshot cfg final.1 y = some cell.snapshot ↔ Readable lists y)) := by
  have hne' : y ≠ [] := by
    intro hnil
    rw [hnil, List.toFinset_nil, List.toFinset_eq_empty_iff] at hset
    exact hne hset
  constructor
  · intro T A _ init ops cfg hfree final lists
    obtain ⟨hinv, hspells⟩ := BucketMap.execAll_spells hfree Set.subset_union_left
    have hagree := BucketMap.lookup_agree_iff hfree hinv hspells hne hset
      (Or.inr (Or.inl rfl)) (Or.inr (Or.inr rfl)) (Scalar.get (A := A))
    rw [BucketMap.get_eq_lookup _ hne, BucketMap.get_eq_lookup _ hne']
    exact ⟨hagree.1, hagree.2.2⟩
  · intro T C _ boundaries ops cfg hfree final lists
    obtain ⟨hinv, hspells⟩ := Histogram.execAll_spells hfree Set.subset_union_left
    have hagree := BucketMap.lookup_agree_iff hfree hinv hspells hne hset
      (Or.inr (Or.inl rfl)) (Or.inr (Or.inr rfl)) (Bucket.snapshot (T := T))
    rw [Histogram.snapshot_eq_lookup, Histogram.snapshot_eq_lookup, Histogram.take_isSome,
      Histogram.take_isSome]
    exact hagree

/-- A list that is not strictly sorted was written: both orders read its value. -/
theorem reads_agree_iff_after_unsorted :
    let cfg := Config.withHasher UInt64 ⟨UInt64.ofNat, AttrFingerprint.sum⟩ Layout.stack
    let final := (BucketMap.withStorage cfg).execAll cfg [.set 5 [2, 1]]
    final.1.get cfg [1, 2] = final.1.get cfg [2, 1] := by
  intro cfg final
  have hfree : CollisionFree cfg (listsOf [.set (5 : UInt64) [2, 1]] ∪ {[1, 2], [2, 1]}) := by
    apply CollisionFree.of_perm [1, 2]
    rintro attrs (hattrs | rfl | rfl)
    · obtain rfl : attrs = [2, 1] := List.mem_singleton.mp hattrs
      decide
    · decide
    · decide
  apply ((reads_agree_iff cfg.hasher cfg.layout [1, 2] [2, 1] (by decide) (by decide)).1
    cfg.initBucket [.set (5 : UInt64) [2, 1]] hfree).1.mpr
  exact Or.inr ⟨fun _ => Or.inr ⟨[2, 1], List.mem_cons_self, List.Perm.refl _, by decide⟩,
    fun _ => Or.inl (by decide)⟩

/-- A write under the sorted list alone: the shuffled list is not found. -/
theorem get_misses_shuffled :
    let cfg := Config.withHasher UInt64 ⟨UInt64.ofNat, AttrFingerprint.sum⟩ Layout.stack
    let final := (BucketMap.withStorage cfg).execAll cfg [.set 5 [1, 2]]
    CollisionFree cfg (listsOf [.set (5 : UInt64) [1, 2]] ∪ {[1, 2], [2, 1]}) ∧
      [1, 2].toFinset = [2, 1].toFinset ∧
      final.1.get cfg [1, 2] = some 5 ∧ final.1.get cfg [2, 1] = none := by
  refine ⟨?_, by decide, by decide +kernel, by decide +kernel⟩
  apply CollisionFree.of_perm [1, 2]
  rintro attrs (hattrs | rfl | rfl)
  · obtain rfl : attrs = [1, 2] := List.mem_singleton.mp hattrs
    decide
  · decide
  · decide

end Ohnotel
