/-
# What the two tables of a bucket map agree on

The canonical table is keyed by strictly sorted lists, the alias table by
fingerprints.  They stay in step because every alias names the bucket of the
canonical entry of its own attribute set, and that entry lists it.  The hypothesis
under which this holds is that fingerprints of lists in use do not collide: equal
fingerprints come from permutations of one list.

`insertCanon` and `insertDup` are treated apart.  Between the two a canonical
entry lists an alias that the alias table does not have yet, which the invariant
allows; the alias step then needs to know that the entry is still there.
-/

import Mathlib.Data.Finset.Sort
import Ohnotel.BucketMap.Basic
import Ohnotel.Foundation.Sorting

namespace Ohnotel

open Foundation Atomic

section Normalize

variable {K : Type} [LinearOrder K]

/-- Sorting and deduplicating a list computes the sorted list of its elements. -/
theorem normalize_eq_sort (attrs : List K) :
    normalize attrs = attrs.toFinset.sort (· ≤ ·) := by
  have hsorted := List.pairwise_insertionSort (· ≤ ·) attrs
  have hdedup : normalize attrs = (attrs.insertionSort (· ≤ ·)).dedup :=
    hsorted.destutter_eq_dedup
  have hset : (attrs.insertionSort (· ≤ ·)).dedup.toFinset = attrs.toFinset := by
    ext kv
    simp
  rw [hdedup, ← hset]
  symm
  rw [List.toFinset_sort _ (List.nodup_dedup _)]
  exact hsorted.sublist (List.dedup_sublist _)

theorem normalize_sort (set : Finset K) :
    normalize (set.sort (· ≤ ·)) = set.sort (· ≤ ·) := by
  rw [normalize_eq_sort, Finset.sort_toFinset]

theorem normalize_normalize (attrs : List K) : normalize (normalize attrs) = normalize attrs := by
  rw [normalize_eq_sort attrs, normalize_sort]

theorem toFinset_normalize (attrs : List K) : (normalize attrs).toFinset = attrs.toFinset := by
  rw [normalize_eq_sort, Finset.sort_toFinset]

theorem normalize_eq_normalize_iff {first second : List K} :
    normalize first = normalize second ↔ first.toFinset = second.toFinset := by
  constructor
  · intro h
    rw [← toFinset_normalize first, h, toFinset_normalize]
  · intro h
    rw [normalize_eq_sort, normalize_eq_sort, h]

theorem normalize_eq_of_perm {first second : List K} (hperm : first.Perm second) :
    normalize first = normalize second :=
  normalize_eq_normalize_iff.mpr (List.toFinset_eq_of_perm _ _ hperm)

theorem normalize_eq_nil_iff {attrs : List K} : normalize attrs = [] ↔ attrs = [] := by
  rw [← List.toFinset_eq_empty_iff, toFinset_normalize, List.toFinset_eq_empty_iff]

/-- A list is its own canonical form exactly when it is strictly sorted. -/
theorem normalize_eq_self_iff {attrs : List K} :
    normalize attrs = attrs ↔ attrs.Pairwise (· < ·) := by
  constructor
  · intro h
    rw [← h, normalize_eq_sort]
    exact (Finset.sortedLT_sort _).pairwise
  · intro h
    rw [normalize_eq_sort, List.toFinset_sort _ (h.imp fun hlt => ne_of_lt hlt)]
    exact h.imp le_of_lt

/-- Deduplication that removes nothing leaves a permutation. -/
theorem perm_normalize_of_length {attrs : List K}
    (hlength : (normalize attrs).length = attrs.length) : (normalize attrs).Perm attrs := by
  have hsub : (normalize attrs).Sublist (attrs.insertionSort (· ≤ ·)) :=
    List.destutter_sublist _ _
  have hperm := List.perm_insertionSort (· ≤ ·) attrs
  rw [hsub.eq_of_length (hlength.trans hperm.length_eq.symm)]
  exact hperm

end Normalize

namespace AttrFingerprint

variable {K : Type}

/-- The fingerprint does not depend on the order of the attributes. -/
theorem commutativeHash_eq_of_perm (build : BuildHasher K) {first second : List K}
    (hperm : first.Perm second) :
    commutativeHash build first = commutativeHash build second := by
  have hfold := hperm.foldl_eq'
    (f := fun acc kv => (acc.1 ^^^ build.hashOne kv, acc.2 + build.hashOne kv))
    (fun x _ y _ acc => by
      ext1
      · show (acc.1 ^^^ _) ^^^ _ = (acc.1 ^^^ _) ^^^ _
        rw [UInt64.xor_assoc, UInt64.xor_assoc, UInt64.xor_comm (build.hashOne x)]
      · show (acc.2 + _) + _ = (acc.2 + _) + _
        rw [UInt64.add_assoc, UInt64.add_assoc, UInt64.add_comm (build.hashOne x)])
    ((0, 0) : UInt64 × UInt64)
  simp only [commutativeHash, hfold, hperm.length_eq]

end AttrFingerprint

/-- No two lists in use collide: equal fingerprints come from one list reordered. -/
def CollisionFree {K A : Type} (cfg : Config K A) (inUse : Set (List K)) : Prop :=
  ∀ first ∈ inUse, ∀ second ∈ inUse,
    AttrFingerprint.commutativeHash cfg.hasher first =
      AttrFingerprint.commutativeHash cfg.hasher second →
    first.Perm second

/-- The fewer lists are in use, the fewer can collide. -/
theorem CollisionFree.mono {K A : Type} {cfg : Config K A} {small large : Set (List K)}
    (hfree : CollisionFree cfg large) (hsub : small ⊆ large) : CollisionFree cfg small :=
  fun first hfirst second hsecond => hfree first (hsub hfirst) second (hsub hsecond)

/-- Lists that are all reorderings of one list do not collide. -/
theorem CollisionFree.of_perm {K A : Type} {cfg : Config K A} {inUse : Set (List K)}
    (base : List K) (hperm : ∀ attrs ∈ inUse, attrs.Perm base) : CollisionFree cfg inUse :=
  fun first hfirst second hsecond _ =>
    (hperm first hfirst).trans (hperm second hsecond).symm

namespace BucketMap

variable {K A T V : Type} [LinearOrder K] (cfg : Config K A) (inUse : Set (List K))

/-- A key that `get_or_create` may have built: it fingerprints a list in use that
is not its own canonical form. -/
structure KeyOk (key : AliasKey K) : Prop where
  fp_eq : key.rawFp = AttrFingerprint.commutativeHash cfg.hasher key.rawAttrs
  mem : key.rawAttrs ∈ inUse
  not_canonical : normalize key.rawAttrs ≠ key.rawAttrs

/-- The canonical table on its own: filed by the hash of the attributes, keyed by
strictly sorted non-empty lists, each once, every alias listed where it belongs. -/
structure CanonOk (table : HashTable (CanonicalEntry K)) : Prop where
  filed : table.FiledBy (rehashCanon cfg)
  canonical : ∀ e ∈ table.elems, normalize e.attrs = e.attrs
  nonempty : ∀ e ∈ table.elems, e.attrs ≠ []
  nodup : (table.elems.map CanonicalEntry.attrs).Nodup
  listed : ∀ e ∈ table.elems, ∀ key ∈ e.aliases,
    KeyOk cfg inUse key ∧ normalize key.rawAttrs = e.attrs

/-- The alias table on its own: filed by fingerprint, one entry for each. -/
structure AliasOk (table : HashTable (AliasEntry K)) : Prop where
  filed : table.FiledBy (rehashDup cfg)
  key_ok : ∀ a ∈ table.elems, KeyOk cfg inUse a.key
  nodup : (table.elems.map fun a => a.key.rawFp).Nodup

omit [LinearOrder K] in
/-- Distinct entries have distinct buckets, all allocated, none of them the bucket
of the empty list. -/
structure BucketsOk (m : BucketMap K A) : Prop where
  nodup : (m.canonical.elems.map CanonicalEntry.bucket).Nodup
  allocated : ∀ e ∈ m.canonical.elems, e.bucket < m.fresh
  ne_noAttr : ∀ e ∈ m.canonical.elems, e.bucket ≠ m.noAttrEntry.bucket
  noAttr_allocated : m.noAttrEntry.bucket < m.fresh
  noAttr_attrs : m.noAttrEntry.attrs = []

/-- An alias entry is backed when the canonical entry of its attribute set is
present, has the same bucket, and lists the alias. -/
def Backed (m : BucketMap K A) (a : AliasEntry K) : Prop :=
  ∃ e ∈ m.canonical.elems, e.attrs = normalize a.key.rawAttrs ∧ e.bucket = a.bucket ∧
    ∃ key ∈ e.aliases, key.rawFp = a.key.rawFp

/-- The invariant of a bucket map. -/
structure Inv (m : BucketMap K A) : Prop where
  canon : CanonOk cfg inUse m.canonical
  dup : AliasOk cfg inUse m.aliases
  buckets : BucketsOk m
  backed : ∀ a ∈ m.aliases.elems, Backed m a

/-- The bucket of an attribute set, if the map has one. -/
def bucketOf (m : BucketMap K A) (set : Finset K) : Option BucketRef :=
  (m.canonical.elems.find? fun e => e.attrs == set.sort (· ≤ ·)).map CanonicalEntry.bucket

variable {cfg inUse}

omit [LinearOrder K] in
theorem entry_eq_of_attrs_eq {table : HashTable (CanonicalEntry K)}
    (hnodup : (table.elems.map CanonicalEntry.attrs).Nodup) {e e' : CanonicalEntry K}
    (he : e ∈ table.elems) (he' : e' ∈ table.elems) (hattrs : e.attrs = e'.attrs) : e = e' :=
  List.inj_on_of_nodup_map hnodup he he' hattrs

theorem bucketOf_eq_some_iff {m : BucketMap K A} (hcanon : CanonOk cfg inUse m.canonical)
    {set : Finset K} {bucket : BucketRef} :
    m.bucketOf set = some bucket ↔
      ∃ e ∈ m.canonical.elems, e.attrs = set.sort (· ≤ ·) ∧ e.bucket = bucket := by
  unfold bucketOf
  rw [Option.map_eq_some_iff]
  constructor
  · rintro ⟨e, hfind, rfl⟩
    exact ⟨e, List.mem_of_find?_eq_some hfind, by simpa using List.find?_some hfind, rfl⟩
  · rintro ⟨e, he, hattrs, rfl⟩
    refine ⟨e, ?_, rfl⟩
    cases hfind : m.canonical.elems.find? (fun e => e.attrs == set.sort (· ≤ ·)) with
    | none => simpa [hattrs] using List.find?_eq_none.mp hfind e he
    | some found =>
        have hfound : found.attrs = e.attrs := by
          rw [hattrs]
          simpa using List.find?_some hfind
        rw [entry_eq_of_attrs_eq hcanon.nodup (List.mem_of_find?_eq_some hfind) he hfound]

theorem bucketOf_toFinset_eq_some_iff {m : BucketMap K A}
    (hcanon : CanonOk cfg inUse m.canonical) {attrs : List K} {bucket : BucketRef} :
    m.bucketOf attrs.toFinset = some bucket ↔
      ∃ e ∈ m.canonical.elems, e.attrs = normalize attrs ∧ e.bucket = bucket := by
  rw [bucketOf_eq_some_iff hcanon, normalize_eq_sort]

/-- An entry is the value of `bucketOf` at its own attribute set. -/
theorem bucketOf_toFinset_of_mem {m : BucketMap K A} (hcanon : CanonOk cfg inUse m.canonical)
    {e : CanonicalEntry K} (he : e ∈ m.canonical.elems) :
    m.bucketOf e.attrs.toFinset = some e.bucket :=
  (bucketOf_toFinset_eq_some_iff hcanon).mpr ⟨e, he, (hcanon.canonical e he).symm, rfl⟩

/-- Maps whose canonical tables have the same attribute lists and buckets have the
same bucket for every set. -/
theorem bucketOf_congr {m m' : BucketMap K A} (hcanon : CanonOk cfg inUse m.canonical)
    (hcanon' : CanonOk cfg inUse m'.canonical)
    (hsame : ∀ attrs bucket,
      (∃ e ∈ m'.canonical.elems, e.attrs = attrs ∧ e.bucket = bucket) ↔
        ∃ e ∈ m.canonical.elems, e.attrs = attrs ∧ e.bucket = bucket) :
    m'.bucketOf = m.bucketOf := by
  funext set
  ext bucket
  rw [bucketOf_eq_some_iff hcanon', bucketOf_eq_some_iff hcanon, hsame]

/-- The empty set never has an entry: it is the always-present bucket's. -/
theorem bucketOf_empty {m : BucketMap K A} (hcanon : CanonOk cfg inUse m.canonical) :
    m.bucketOf ∅ = none := by
  by_contra hne
  obtain ⟨bucket, hbucket⟩ := Option.ne_none_iff_exists'.mp hne
  obtain ⟨e, he, hattrs, _⟩ := (bucketOf_eq_some_iff hcanon).mp hbucket
  exact hcanon.nonempty e he (by simpa using hattrs)

/-- Two sets never share a bucket. -/
theorem bucketOf_injective {m : BucketMap K A} (hinv : Inv cfg inUse m)
    {first second : Finset K} {bucket : BucketRef} (hfirst : m.bucketOf first = some bucket)
    (hsecond : m.bucketOf second = some bucket) : first = second := by
  obtain ⟨e, he, hattrs, hbucket⟩ := (bucketOf_eq_some_iff hinv.canon).mp hfirst
  obtain ⟨e', he', hattrs', hbucket'⟩ := (bucketOf_eq_some_iff hinv.canon).mp hsecond
  have hsame := List.inj_on_of_nodup_map hinv.buckets.nodup he he' (hbucket.trans hbucket'.symm)
  rw [← Finset.sort_toFinset first (· ≤ ·), ← hattrs, hsame, hattrs', Finset.sort_toFinset]

theorem bucketOf_ne_noAttr {m : BucketMap K A} (hinv : Inv cfg inUse m) {set : Finset K}
    {bucket : BucketRef} (hbucket : m.bucketOf set = some bucket) :
    bucket ≠ m.noAttrEntry.bucket := by
  obtain ⟨e, he, _, rfl⟩ := (bucketOf_eq_some_iff hinv.canon).mp hbucket
  exact hinv.buckets.ne_noAttr e he

theorem bucketOf_lt_fresh {m : BucketMap K A} (hinv : Inv cfg inUse m) {set : Finset K}
    {bucket : BucketRef} (hbucket : m.bucketOf set = some bucket) : bucket < m.fresh := by
  obtain ⟨e, he, _, rfl⟩ := (bucketOf_eq_some_iff hinv.canon).mp hbucket
  exact hinv.buckets.allocated e he

variable (cfg inUse) in
/-- A new map satisfies the invariant and has no bucket but the empty list's. -/
theorem inv_withStorage : Inv cfg inUse (withStorage cfg) where
  canon :=
    { filed := HashTable.filedBy_empty _
      canonical := by simp [withStorage]
      nonempty := by simp [withStorage]
      nodup := by simp [withStorage]
      listed := by simp [withStorage] }
  dup :=
    { filed := HashTable.filedBy_empty _
      key_ok := by simp [withStorage]
      nodup := by simp [withStorage] }
  buckets :=
    { nodup := by simp [withStorage]
      allocated := by simp [withStorage]
      ne_noAttr := by simp [withStorage]
      noAttr_allocated := by simp [withStorage]
      noAttr_attrs := rfl }
  backed := by simp [withStorage]

/-! ## Lookups -/

theorem lookupCanon_canonHash {m : BucketMap K A} (hcanon : CanonOk cfg inUse m.canonical)
    {attrs : List K} {bucket : BucketRef} :
    m.lookupCanon (canonHash cfg attrs) attrs = some bucket ↔
      ∃ e ∈ m.canonical.elems, e.attrs = attrs ∧ e.bucket = bucket := by
  unfold lookupCanon
  rw [Option.map_eq_some_iff]
  have hhash : ∀ e ∈ m.canonical.elems, (e.attrs == attrs) = true →
      rehashCanon cfg e = canonHash cfg attrs := by
    intro e _ heq
    rw [rehashCanon, beq_iff_eq.mp heq]
  have hunique : ∀ e ∈ m.canonical.elems, ∀ e' ∈ m.canonical.elems,
      (e.attrs == attrs) = true → (e'.attrs == attrs) = true → e = e' := by
    intro e he e' he' heq heq'
    exact entry_eq_of_attrs_eq hcanon.nodup he he'
      ((beq_iff_eq.mp heq).trans (beq_iff_eq.mp heq').symm)
  constructor
  · rintro ⟨e, hfind, hbucket⟩
    obtain ⟨he, heq⟩ := (HashTable.find_eq_some_iff hcanon.filed hhash hunique).mp hfind
    exact ⟨e, he, beq_iff_eq.mp heq, hbucket⟩
  · rintro ⟨e, he, heq, hbucket⟩
    exact ⟨e, (HashTable.find_eq_some_iff hcanon.filed hhash hunique).mpr
      ⟨he, beq_iff_eq.mpr heq⟩, hbucket⟩

/-- At most one alias entry answers to a fingerprint. -/
theorem aliasEntry_eq_of_fp_eq {table : HashTable (AliasEntry K)}
    (hdup : AliasOk cfg inUse table) {a a' : AliasEntry K} (ha : a ∈ table.elems)
    (ha' : a' ∈ table.elems) (hfp : a.key.rawFp = a'.key.rawFp) : a = a' :=
  List.inj_on_of_nodup_map hdup.nodup ha ha' hfp

theorem findDup_eq_some_iff {table : HashTable (AliasEntry K)}
    (hdup : AliasOk cfg inUse table) {rawFp : AttrFingerprint} {attrs : List K}
    {a : AliasEntry K} :
    table.find (rawFp.tableHash cfg.hasher) (fun e => e.key.matchesRaw rawFp attrs) = some a ↔
      a ∈ table.elems ∧ a.key.rawFp = rawFp := by
  rw [HashTable.find_eq_some_iff hdup.filed]
  · simp [AliasKey.matchesRaw]
  · intro e _ hmatches
    have hfp : e.key.rawFp = rawFp := by simpa [AliasKey.matchesRaw] using hmatches
    simp [rehashDup, AliasKey.tableHash, hfp]
  · intro e he e' he' hmatches hmatches'
    have hfp : e.key.rawFp = rawFp := by simpa [AliasKey.matchesRaw] using hmatches
    have hfp' : e'.key.rawFp = rawFp := by simpa [AliasKey.matchesRaw] using hmatches'
    exact aliasEntry_eq_of_fp_eq hdup he he' (hfp.trans hfp'.symm)

theorem findDup_eq_none_iff {table : HashTable (AliasEntry K)}
    (hdup : AliasOk cfg inUse table) {rawFp : AttrFingerprint} {attrs : List K} :
    table.find (rawFp.tableHash cfg.hasher) (fun e => e.key.matchesRaw rawFp attrs) = none ↔
      ∀ a ∈ table.elems, a.key.rawFp ≠ rawFp := by
  rw [HashTable.find_eq_none_iff hdup.filed]
  · simp [AliasKey.matchesRaw]
  · intro e _ hmatches
    have hfp : e.key.rawFp = rawFp := by simpa [AliasKey.matchesRaw] using hmatches
    simp [rehashDup, AliasKey.tableHash, hfp]

theorem lookupDup_eq_some_iff {m : BucketMap K A} (hdup : AliasOk cfg inUse m.aliases)
    {rawFp : AttrFingerprint} {attrs : List K} {bucket : BucketRef} :
    m.lookupDup cfg rawFp attrs = some bucket ↔
      ∃ a ∈ m.aliases.elems, a.key.rawFp = rawFp ∧ a.bucket = bucket := by
  simp only [lookupDup, Option.map_eq_some_iff, findDup_eq_some_iff hdup, and_assoc]

/-- An alias found by the fingerprint of a list in use belongs to that list's
attribute set. -/
theorem normalize_eq_of_fp_eq (hfree : CollisionFree cfg inUse) {key : AliasKey K}
    (hkey : KeyOk cfg inUse key) {attrs : List K} (hattrs : attrs ∈ inUse)
    (hfp : key.rawFp = AttrFingerprint.commutativeHash cfg.hasher attrs) :
    normalize key.rawAttrs = normalize attrs :=
  normalize_eq_of_perm (hfree _ hkey.mem _ hattrs (hkey.fp_eq.symm.trans hfp))

/-- A list in use is known to the map when one of the two lookups can find it as
it is written: it is canonical and its set is present, or its fingerprint is in
the alias table. -/
def Known (cfg : Config K A) (m : BucketMap K A) (attrs : List K) : Prop :=
  (normalize attrs = attrs ∧ (m.bucketOf attrs.toFinset).isSome) ∨
    ∃ a ∈ m.aliases.elems,
      a.key.rawFp = AttrFingerprint.commutativeHash cfg.hasher attrs

/-- A canonical hit is the bucket of the list's set, and the list is its own
canonical form. -/
theorem bucketOf_of_lookupCanon {m : BucketMap K A} (hcanon : CanonOk cfg inUse m.canonical)
    {attrs : List K} {bucket : BucketRef}
    (hhit : m.lookupCanon (canonHash cfg attrs) attrs = some bucket) :
    normalize attrs = attrs ∧ m.bucketOf attrs.toFinset = some bucket := by
  obtain ⟨e, he, rfl, rfl⟩ := (lookupCanon_canonHash hcanon).mp hhit
  exact ⟨hcanon.canonical e he, bucketOf_toFinset_of_mem hcanon he⟩

/-- An alias hit is the bucket of the list's set: the alias comes from a
permutation of the list, and its canonical entry backs it. -/
theorem bucketOf_of_lookupDup (hfree : CollisionFree cfg inUse) {m : BucketMap K A}
    (hinv : Inv cfg inUse m) {attrs : List K} (hattrs : attrs ∈ inUse) {bucket : BucketRef}
    (hhit : m.lookupDup cfg (AttrFingerprint.commutativeHash cfg.hasher attrs) attrs =
      some bucket) :
    m.bucketOf attrs.toFinset = some bucket := by
  obtain ⟨a, ha, hfp, rfl⟩ := (lookupDup_eq_some_iff hinv.dup).mp hhit
  obtain ⟨e, he, heq, hbucket, _⟩ := hinv.backed a ha
  have hnorm := normalize_eq_of_fp_eq hfree (hinv.dup.key_ok a ha) hattrs hfp
  exact (bucketOf_toFinset_eq_some_iff hinv.canon).mpr ⟨e, he, heq.trans hnorm, hbucket⟩

/-- No alias is ever kept for a list of one element. -/
theorem lookupDup_eq_none_of_length_eq_one (hfree : CollisionFree cfg inUse)
    {m : BucketMap K A} (hinv : Inv cfg inUse m) {attrs : List K} (hattrs : attrs ∈ inUse)
    (hlength : attrs.length = 1) :
    m.lookupDup cfg (AttrFingerprint.commutativeHash cfg.hasher attrs) attrs = none := by
  by_contra hne
  obtain ⟨bucket, hhit⟩ := Option.ne_none_iff_exists'.mp hne
  obtain ⟨a, ha, hfp, _⟩ := (lookupDup_eq_some_iff hinv.dup).mp hhit
  have hkey := hinv.dup.key_ok a ha
  have hperm := hfree _ hkey.mem _ hattrs (hkey.fp_eq.symm.trans hfp)
  obtain ⟨kv, rfl⟩ := List.length_eq_one_iff.mp hlength
  apply hkey.not_canonical
  rw [List.perm_singleton.mp hperm]
  exact normalize_eq_self_iff.mpr (List.pairwise_singleton _ kv)

/-- A list is known exactly when one of the two lookups finds it. -/
theorem known_iff_lookup {m : BucketMap K A} (hinv : Inv cfg inUse m) {attrs : List K} :
    Known cfg m attrs ↔
      (∃ bucket, m.lookupCanon (canonHash cfg attrs) attrs = some bucket) ∨
        ∃ bucket, m.lookupDup cfg (AttrFingerprint.commutativeHash cfg.hasher attrs) attrs =
          some bucket := by
  unfold Known
  refine or_congr ?_ ?_
  · constructor
    · rintro ⟨hnorm, hpresent⟩
      obtain ⟨bucket, hbucket⟩ := Option.isSome_iff_exists.mp hpresent
      refine ⟨bucket, (lookupCanon_canonHash hinv.canon).mpr ?_⟩
      rw [bucketOf_toFinset_eq_some_iff hinv.canon, hnorm] at hbucket
      exact hbucket
    · rintro ⟨bucket, hhit⟩
      obtain ⟨hnorm, hbucket⟩ := bucketOf_of_lookupCanon hinv.canon hhit
      exact ⟨hnorm, by simp [hbucket]⟩
  · simp [lookupDup_eq_some_iff hinv.dup]

/-- `get_bucket` finds exactly the lists the map knows, and finds the bucket of
their attribute set. -/
theorem getBucket_spec (hfree : CollisionFree cfg inUse) {m : BucketMap K A}
    (hinv : Inv cfg inUse m) {attrs : List K} (hne : attrs ≠ []) (hattrs : attrs ∈ inUse) :
    (Known cfg m attrs ∧ ∃ bucket, m.bucketOf attrs.toFinset = some bucket ∧
        m.getBucket cfg attrs = .ok bucket) ∨
      (¬ Known cfg m attrs ∧
        m.getBucket cfg attrs =
          .error (AttrFingerprint.commutativeHash cfg.hasher attrs, canonHash cfg attrs)) := by
  have hempty : attrs.isEmpty = false := by simpa using hne
  have hcanon : ∀ bucket, m.lookupCanon (canonHash cfg attrs) attrs = some bucket →
      normalize attrs = attrs ∧ m.bucketOf attrs.toFinset = some bucket :=
    fun _ => bucketOf_of_lookupCanon hinv.canon
  have hdup : ∀ bucket,
      m.lookupDup cfg (AttrFingerprint.commutativeHash cfg.hasher attrs) attrs = some bucket →
        m.bucketOf attrs.toFinset = some bucket :=
    fun _ => bucketOf_of_lookupDup hfree hinv hattrs
  have hsingle := lookupDup_eq_none_of_length_eq_one hfree hinv hattrs
  rw [known_iff_lookup hinv]
  simp only [getBucket, hempty, Bool.false_eq_true, if_false, ← canonHash.eq_1]
  -- Whatever the order of the two lookups, a hit of either one is the answer.
  cases hc : m.lookupCanon (canonHash cfg attrs) attrs with
  | some bucket =>
      left
      refine ⟨Or.inl ⟨bucket, rfl⟩, bucket, (hcanon bucket hc).2, ?_⟩
      cases hd : m.lookupDup cfg (AttrFingerprint.commutativeHash cfg.hasher attrs) attrs with
      | some other =>
          have hsame : other = bucket :=
            Option.some_inj.mp ((hdup other hd).symm.trans (hcanon bucket hc).2)
          subst hsame
          split_ifs <;> rfl
      | none => split_ifs <;> rfl
  | none =>
      cases hd : m.lookupDup cfg (AttrFingerprint.commutativeHash cfg.hasher attrs) attrs with
      | some other =>
          left
          have hlength : attrs.length ≠ 1 := fun h => by simp [hsingle h] at hd
          refine ⟨Or.inr ⟨other, rfl⟩, other, hdup other hd, ?_⟩
          simp only [if_neg hlength]
          split_ifs <;> rfl
      | none =>
          right
          refine ⟨by simp, ?_⟩
          split_ifs <;> rfl

end BucketMap

end Ohnotel
