/-
# What one operation of a bucket map does

Each operation preserves the invariant of the two tables, and changes the
assignment of buckets to attribute sets and the cells behind them in one way only.
These are the facts later modules cite; none of them unfolds an operation again.
-/

import Ohnotel.BucketMap.Invariant

namespace Ohnotel

open Foundation Atomic

namespace BucketMap

variable {K A T V : Type} [LinearOrder K] {cfg : Config K A} {inUse : Set (List K)}

/-! ## The canonical table -/

theorem CanonOk.reserve {table : HashTable (CanonicalEntry K)} (hok : CanonOk cfg inUse table) :
    CanonOk cfg inUse (table.reserve cfg.layout (rehashCanon cfg)) := by
  have hperm := HashTable.elems_reserve_perm cfg.layout (rehashCanon cfg) table
  exact
    { filed := HashTable.filedBy_reserve cfg.layout hok.filed
      canonical := fun e he => hok.canonical e (hperm.mem_iff.mp he)
      nonempty := fun e he => hok.nonempty e (hperm.mem_iff.mp he)
      nodup := (hperm.map _).nodup_iff.mpr hok.nodup
      listed := fun e he => hok.listed e (hperm.mem_iff.mp he) }

theorem CanonOk.modify {table : HashTable (CanonicalEntry K)} (hok : CanonOk cfg inUse table)
    {hash : UInt64} {attrs : List K} {aliasKey : Option (AliasKey K)} {e : CanonicalEntry K}
    (hfind : table.find hash (fun e => e.attrs == attrs) = some e)
    (halias : ∀ key ∈ aliasKey, KeyOk cfg inUse key ∧ normalize key.rawAttrs = attrs) :
    CanonOk cfg inUse
      (table.modify hash (fun e => e.attrs == attrs) (CanonicalEntry.extendAliases aliasKey)) := by
  obtain ⟨he, htest⟩ := HashTable.find_sound hfind
  have hattrs : e.attrs = attrs := by simpa using htest
  have hmem : ∀ e' ∈ (table.modify hash (fun e => e.attrs == attrs)
      (CanonicalEntry.extendAliases aliasKey)).elems,
      ∃ old ∈ table.elems, e'.attrs = old.attrs ∧
        ∀ key ∈ e'.aliases, key ∈ old.aliases ∨ (key ∈ aliasKey ∧ old.attrs = attrs) := by
    intro e' he'
    rcases HashTable.mem_of_mem_elems_modify hfind he' with hold | rfl
    · exact ⟨e', hold, rfl, fun key hkey => Or.inl hkey⟩
    · refine ⟨e, he, rfl, fun key hkey => ?_⟩
      rcases List.mem_append.mp hkey with hold | hnew
      · exact Or.inl hold
      · exact Or.inr ⟨by simpa using hnew, hattrs⟩
  refine ⟨HashTable.filedBy_modify hok.filed _ _ fun e => rfl, ?_, ?_, ?_, ?_⟩
  · intro e' he'
    obtain ⟨old, hold, hsame, _⟩ := hmem e' he'
    rw [hsame]
    exact hok.canonical old hold
  · intro e' he'
    obtain ⟨old, hold, hsame, _⟩ := hmem e' he'
    rw [hsame]
    exact hok.nonempty old hold
  · rw [HashTable.map_elems_modify (f := CanonicalEntry.extendAliases aliasKey)
      CanonicalEntry.attrs fun e => rfl]
    exact hok.nodup
  · intro e' he' key hkey
    obtain ⟨old, hold, hsame, hkeys⟩ := hmem e' he'
    rw [hsame]
    rcases hkeys key hkey with hlisted | ⟨hnew, hold'⟩
    · exact hok.listed old hold key hlisted
    · rw [hold']
      exact halias key hnew

theorem CanonOk.insert {table : HashTable (CanonicalEntry K)} (hok : CanonOk cfg inUse table)
    {entry : CanonicalEntry K} (hcanonical : normalize entry.attrs = entry.attrs)
    (hne : entry.attrs ≠ []) (hnew : ∀ e ∈ table.elems, e.attrs ≠ entry.attrs)
    (halias : ∀ key ∈ entry.aliases,
      KeyOk cfg inUse key ∧ normalize key.rawAttrs = entry.attrs) :
    CanonOk cfg inUse (table.insert cfg.layout (canonHash cfg entry.attrs) entry) := by
  have hperm := HashTable.elems_insert_perm cfg.layout (canonHash cfg entry.attrs) entry table
  refine ⟨HashTable.filedBy_insert cfg.layout hok.filed rfl, ?_, ?_, ?_, ?_⟩
  · intro e he
    rcases List.mem_cons.mp (hperm.mem_iff.mp he) with rfl | hold
    · exact hcanonical
    · exact hok.canonical e hold
  · intro e he
    rcases List.mem_cons.mp (hperm.mem_iff.mp he) with rfl | hold
    · exact hne
    · exact hok.nonempty e hold
  · rw [(hperm.map _).nodup_iff, List.map_cons, List.nodup_cons]
    refine ⟨fun hmem => ?_, hok.nodup⟩
    obtain ⟨e, he, hsame⟩ := List.mem_map.mp hmem
    exact hnew e he hsame
  · intro e he
    rcases List.mem_cons.mp (hperm.mem_iff.mp he) with rfl | hold
    · exact halias
    · exact hok.listed e hold

/-- A canonical table that still has each entry, under the same attributes and
bucket and with at least its aliases, backs what it backed before. -/
theorem Backed.mono {m m' : BucketMap K A} {a : AliasEntry K} (hbacked : Backed m a)
    (hkeep : ∀ e ∈ m.canonical.elems, ∃ e' ∈ m'.canonical.elems,
      e'.attrs = e.attrs ∧ e'.bucket = e.bucket ∧ ∀ key ∈ e.aliases, key ∈ e'.aliases) :
    Backed m' a := by
  obtain ⟨e, he, hattrs, hbucket, key, hkey, hfp⟩ := hbacked
  obtain ⟨e', he', hattrs', hbucket', hkeys⟩ := hkeep e he
  exact ⟨e', he', hattrs'.trans hattrs, hbucket'.trans hbucket, key, hkeys key hkey, hfp⟩

/-- How obtaining the bucket of a set changes a map: not at all if the set is
present, and otherwise by one new bucket in its initial state. -/
inductive Obtains (cfg : Config K A) (m : BucketMap K A) (set : Finset K)
    (m' : BucketMap K A) (bucket : BucketRef) : Prop
  | /-- The set had the bucket already. -/
    present (hbucket : m.bucketOf set = some bucket) (hmap : m'.bucketOf = m.bucketOf)
      (hcells : m'.cells = m.cells) (hfresh : m'.fresh = m.fresh) (hcount : m'.count = m.count)
  | /-- The set gets the next fresh bucket. -/
    created (habsent : m.bucketOf set = none) (hbucket : bucket = m.fresh)
      (hmap : m'.bucketOf = Function.update m.bucketOf set (some bucket))
      (hcells : m'.cells = Function.update m.cells bucket cfg.initBucket)
      (hfresh : m'.fresh = m.fresh + 1) (hcount : m'.count = m.count + 1)

theorem Obtains.bucketOf_eq {m m' : BucketMap K A} {set : Finset K} {bucket : BucketRef}
    (h : Obtains cfg m set m' bucket) : m'.bucketOf set = some bucket := by
  cases h with
  | present hbucket hmap _ _ _ => rw [hmap, hbucket]
  | created _ _ hmap _ _ _ => rw [hmap, Function.update_self]

theorem Obtains.fresh_le {m m' : BucketMap K A} {set : Finset K} {bucket : BucketRef}
    (h : Obtains cfg m set m' bucket) : m.fresh ≤ m'.fresh := by
  cases h with
  | present _ _ _ hfresh _ => exact le_of_eq hfresh.symm
  | created _ _ _ _ hfresh _ => rw [hfresh]; exact Nat.le_succ _

/-- Obtaining a bucket writes to no cell there was. -/
theorem Obtains.cells_of_lt {m m' : BucketMap K A} {set : Finset K} {bucket found : BucketRef}
    (h : Obtains cfg m set m' bucket) (hfound : found < m.fresh) :
    m'.cells found = m.cells found := by
  cases h with
  | present _ _ hcells _ _ => rw [hcells]
  | created _ hbucket _ hcells _ _ =>
      rw [hcells, Function.update_of_ne (hbucket ▸ ne_of_lt hfound)]

/-- Obtaining a bucket takes none away. -/
theorem Obtains.bucketOf_mono {m m' : BucketMap K A} {set other : Finset K}
    {bucket found : BucketRef} (h : Obtains cfg m set m' bucket)
    (hfound : m.bucketOf other = some found) : m'.bucketOf other = some found := by
  cases h with
  | present _ hmap _ _ _ => rw [hmap, hfound]
  | created habsent _ hmap _ _ _ =>
      have hne : other ≠ set := by
        rintro rfl
        simp [habsent] at hfound
      rw [hmap, Function.update_of_ne hne, hfound]

/-- What `insert_canon` leaves behind. -/
structure InsertedCanon (cfg : Config K A) (inUse : Set (List K)) (m : BucketMap K A)
    (attrs : List K) (aliasKey : Option (AliasKey K)) (m' : BucketMap K A)
    (bucket : BucketRef) : Prop where
  inv : Inv cfg inUse m'
  obtains : Obtains cfg m attrs.toFinset m' bucket
  listed : ∃ e ∈ m'.canonical.elems, e.attrs = normalize attrs ∧ e.bucket = bucket ∧
    ∀ key ∈ aliasKey, key ∈ e.aliases
  /-- An entry keeps its attributes, its bucket and its aliases. -/
  kept : ∀ e ∈ m.canonical.elems, ∃ e' ∈ m'.canonical.elems,
    e'.attrs = e.attrs ∧ e'.bucket = e.bucket ∧ ∀ key ∈ e.aliases, key ∈ e'.aliases
  aliases : m'.aliases = m.aliases
  noAttrEntry : m'.noAttrEntry = m.noAttrEntry
  noAttrTouched : m'.noAttrTouched = m.noAttrTouched

omit [LinearOrder K] in
/-- The reserved table holds the entries of the table it was made from. -/
theorem mem_elems_reserve {table : HashTable (CanonicalEntry K)} {e : CanonicalEntry K} :
    e ∈ (table.reserve cfg.layout (rehashCanon cfg)).elems ↔ e ∈ table.elems :=
  (HashTable.elems_reserve_perm cfg.layout (rehashCanon cfg) table).mem_iff

omit [LinearOrder K] in
/-- The entries have no bucket that they did not have before. -/
theorem BucketsOk.of_subperm {m m' : BucketMap K A} (h : BucketsOk m)
    (hbuckets : (m'.canonical.elems.map CanonicalEntry.bucket).Subperm
      (m.canonical.elems.map CanonicalEntry.bucket))
    (hnoAttr : m'.noAttrEntry = m.noAttrEntry) (hfresh : m'.fresh = m.fresh) : BucketsOk m' := by
  obtain ⟨fewer, hperm, hsublist⟩ := hbuckets
  have hold : ∀ e ∈ m'.canonical.elems, ∃ old ∈ m.canonical.elems, old.bucket = e.bucket :=
    fun e he => List.mem_map.mp
      (hsublist.mem (hperm.mem_iff.mpr (List.mem_map_of_mem he)))
  refine ⟨hperm.nodup_iff.mp (h.nodup.sublist hsublist), fun e he => ?_, fun e he => ?_, ?_, ?_⟩
  · obtain ⟨old, hmem, hsame⟩ := hold e he
    rw [hfresh, ← hsame]
    exact h.allocated old hmem
  · obtain ⟨old, hmem, hsame⟩ := hold e he
    rw [hnoAttr, ← hsame]
    exact h.ne_noAttr old hmem
  · rw [hnoAttr, hfresh]
    exact h.noAttr_allocated
  · rw [hnoAttr]
    exact h.noAttr_attrs

omit [LinearOrder K] in
/-- One more entry has the next fresh bucket. -/
theorem BucketsOk.of_fresh {m m' : BucketMap K A} (h : BucketsOk m) {entry : CanonicalEntry K}
    (helems : m'.canonical.elems.Perm (entry :: m.canonical.elems))
    (hbucket : entry.bucket = m.fresh) (hnoAttr : m'.noAttrEntry = m.noAttrEntry)
    (hfresh : m'.fresh = m.fresh + 1) : BucketsOk m' := by
  have hmem : ∀ e ∈ m'.canonical.elems, e = entry ∨ e ∈ m.canonical.elems :=
    fun e he => List.mem_cons.mp (helems.mem_iff.mp he)
  refine ⟨?_, fun e he => ?_, fun e he => ?_, ?_, ?_⟩
  · rw [(helems.map _).nodup_iff, List.map_cons, List.nodup_cons, hbucket]
    refine ⟨fun hused => ?_, h.nodup⟩
    obtain ⟨e, he, hsame⟩ := List.mem_map.mp hused
    exact absurd hsame (ne_of_lt (h.allocated e he))
  · rw [hfresh]
    rcases hmem e he with rfl | hold
    · exact hbucket ▸ Nat.lt_succ_self _
    · exact Nat.lt_succ_of_lt (h.allocated e hold)
  · rw [hnoAttr]
    rcases hmem e he with rfl | hold
    · exact hbucket ▸ ne_of_gt h.noAttr_allocated
    · exact h.ne_noAttr e hold
  · rw [hnoAttr, hfresh]
    exact Nat.lt_succ_of_lt h.noAttr_allocated
  · rw [hnoAttr]
    exact h.noAttr_attrs

/-- One more entry gives its set a bucket. -/
theorem bucketOf_of_fresh {m m' : BucketMap K A} (hcanon : CanonOk cfg inUse m.canonical)
    (hcanon' : CanonOk cfg inUse m'.canonical) {attrs : List K} {entry : CanonicalEntry K}
    (helems : m'.canonical.elems.Perm (entry :: m.canonical.elems))
    (hattrs : entry.attrs = normalize attrs) :
    m'.bucketOf = Function.update m.bucketOf attrs.toFinset (some entry.bucket) := by
  have hmem : ∀ e, e ∈ m'.canonical.elems ↔ e = entry ∨ e ∈ m.canonical.elems :=
    fun e => helems.mem_iff.trans List.mem_cons
  have hentry : entry ∈ m'.canonical.elems := (hmem entry).mpr (Or.inl rfl)
  funext set
  ext bucket
  by_cases hset : set = attrs.toFinset
  · subst hset
    have hhas : m'.bucketOf attrs.toFinset = some entry.bucket :=
      (bucketOf_toFinset_eq_some_iff hcanon').mpr ⟨entry, hentry, hattrs, rfl⟩
    rw [hhas, Function.update_self]
  · rw [Function.update_of_ne hset, bucketOf_eq_some_iff hcanon', bucketOf_eq_some_iff hcanon]
    constructor
    · rintro ⟨e, he, hsorted, hbucket⟩
      rcases (hmem e).mp he with rfl | hold
      · refine absurd ?_ hset
        rw [← Finset.sort_toFinset set (· ≤ ·), ← hsorted, hattrs]
        exact toFinset_normalize attrs
      · exact ⟨e, hold, hsorted, hbucket⟩
    · rintro ⟨e, he, hrest⟩
      exact ⟨e, (hmem e).mpr (Or.inr he), hrest⟩

/-- `insert_canon` on a set that has an entry: the entry's bucket is returned and
only its list of aliases grows. -/
theorem insertCanon_of_found {m : BucketMap K A} (hinv : Inv cfg inUse m) {attrs : List K}
    {aliasKey : Option (AliasKey K)}
    (halias : ∀ key ∈ aliasKey,
      KeyOk cfg inUse key ∧ normalize key.rawAttrs = normalize attrs)
    {entry : CanonicalEntry K}
    (hfind : (m.canonical.reserve cfg.layout (rehashCanon cfg)).find
      (canonHash cfg (normalize attrs)) (fun e => e.attrs == normalize attrs) = some entry) :
    InsertedCanon cfg inUse m attrs aliasKey
      { m with
        canonical := (m.canonical.reserve cfg.layout (rehashCanon cfg)).modify
          (canonHash cfg (normalize attrs)) (fun e => e.attrs == normalize attrs)
          (CanonicalEntry.extendAliases aliasKey) }
      entry.bucket := by
  set table := m.canonical.reserve cfg.layout (rehashCanon cfg) with htable
  set table' := table.modify (canonHash cfg (normalize attrs))
    (fun e => e.attrs == normalize attrs) (CanonicalEntry.extendAliases aliasKey) with htable'
  obtain ⟨hentry, htest⟩ := HashTable.find_sound hfind
  have hattrs : entry.attrs = normalize attrs := by simpa using htest
  have hcanon : CanonOk cfg inUse table' := hinv.canon.reserve.modify hfind halias
  have hpairs : table'.elems.map (fun e => (e.attrs, e.bucket)) =
      table.elems.map (fun e => (e.attrs, e.bucket)) :=
    HashTable.map_elems_modify (f := CanonicalEntry.extendAliases aliasKey) _ (fun e => rfl) _ _ _
  have hbuckets : (table'.elems.map CanonicalEntry.bucket).Perm
      (m.canonical.elems.map CanonicalEntry.bucket) := by
    have hsame := congrArg (List.map Prod.snd) hpairs
    simp only [List.map_map] at hsame
    refine (List.Perm.of_eq hsame).trans ?_
    exact (HashTable.elems_reserve_perm cfg.layout (rehashCanon cfg) m.canonical).map _
  have hkeep : ∀ e ∈ m.canonical.elems, ∃ e' ∈ table'.elems,
      e'.attrs = e.attrs ∧ e'.bucket = e.bucket ∧ ∀ key ∈ e.aliases, key ∈ e'.aliases := by
    intro e he
    rcases HashTable.mem_elems_modify_of_mem hfind (CanonicalEntry.extendAliases aliasKey)
      (mem_elems_reserve.mpr he) with hkept | rfl
    · exact ⟨e, hkept, rfl, rfl, fun key hkey => hkey⟩
    · exact ⟨CanonicalEntry.extendAliases aliasKey e, HashTable.mem_elems_modify_self hfind _,
        rfl, rfl, fun key hkey => List.mem_append_left _ hkey⟩
  have hmap : BucketMap.bucketOf { m with canonical := table' } = m.bucketOf := by
    refine bucketOf_congr hinv.canon hcanon fun attrs' bucket => ?_
    have hpair : ∀ l : List (CanonicalEntry K),
        (∃ e ∈ l, e.attrs = attrs' ∧ e.bucket = bucket) ↔
          (attrs', bucket) ∈ l.map (fun e => (e.attrs, e.bucket)) := by
      intro l
      simp [List.mem_map]
    rw [hpair, hpairs, ← hpair]
    simp only [htable, mem_elems_reserve]
  exact
    { inv :=
        { canon := hcanon
          dup := hinv.dup
          buckets := hinv.buckets.of_subperm hbuckets.subperm rfl rfl
          backed := fun a ha => (hinv.backed a ha).mono hkeep }
      obtains := .present
        ((bucketOf_toFinset_eq_some_iff hinv.canon).mpr
          ⟨entry, mem_elems_reserve.mp hentry, hattrs, rfl⟩)
        hmap rfl rfl rfl
      listed := ⟨CanonicalEntry.extendAliases aliasKey entry,
        HashTable.mem_elems_modify_self hfind _, hattrs, rfl,
        fun key hkey => List.mem_append_right _ (by simpa using hkey)⟩
      kept := hkeep
      aliases := rfl
      noAttrEntry := rfl
      noAttrTouched := rfl }

/-- `insert_canon` on a set without an entry: a new entry with a new bucket. -/
theorem insertCanon_of_not_found {m : BucketMap K A} (hinv : Inv cfg inUse m) {attrs : List K}
    (hne : attrs ≠ []) {aliasKey : Option (AliasKey K)}
    (halias : ∀ key ∈ aliasKey,
      KeyOk cfg inUse key ∧ normalize key.rawAttrs = normalize attrs)
    (hfind : (m.canonical.reserve cfg.layout (rehashCanon cfg)).find
      (canonHash cfg (normalize attrs)) (fun e => e.attrs == normalize attrs) = none) :
    InsertedCanon cfg inUse m attrs aliasKey
      { m with
        canonical := (m.canonical.reserve cfg.layout (rehashCanon cfg)).insert cfg.layout
          (canonHash cfg (normalize attrs))
          { attrs := normalize attrs, bucket := m.fresh, aliases := aliasKey.toList }
        count := m.count + 1
        cells := Function.update m.cells m.fresh cfg.initBucket
        fresh := m.fresh + 1 }
      m.fresh := by
  set table := m.canonical.reserve cfg.layout (rehashCanon cfg) with htable
  set entry : CanonicalEntry K :=
    { attrs := normalize attrs, bucket := m.fresh, aliases := aliasKey.toList } with hentry
  set m' : BucketMap K A :=
    { m with
      canonical := table.insert cfg.layout (canonHash cfg (normalize attrs)) entry
      count := m.count + 1
      cells := Function.update m.cells m.fresh cfg.initBucket
      fresh := m.fresh + 1 } with hm'
  have hok : CanonOk cfg inUse table := hinv.canon.reserve
  have hnew : ∀ e ∈ table.elems, e.attrs ≠ normalize attrs := by
    have hnone := (HashTable.find_eq_none_iff hok.filed fun e _ heq => by
      rw [rehashCanon, beq_iff_eq.mp heq]).mp hfind
    exact fun e he => by simpa using hnone e he
  have hcanon : CanonOk cfg inUse m'.canonical := by
    refine CanonOk.insert hok (show normalize entry.attrs = entry.attrs from ?_) ?_ hnew ?_
    · exact normalize_normalize attrs
    · exact fun h => hne (normalize_eq_nil_iff.mp h)
    · exact fun key hkey => halias key (by simpa [hentry] using hkey)
  have helems : m'.canonical.elems.Perm (entry :: m.canonical.elems) :=
    (HashTable.elems_insert_perm cfg.layout _ entry table).trans
      ((HashTable.elems_reserve_perm cfg.layout (rehashCanon cfg) m.canonical).cons entry)
  have habsent : m.bucketOf attrs.toFinset = none := by
    by_contra hsome
    obtain ⟨bucket, hbucket⟩ := Option.ne_none_iff_exists'.mp hsome
    obtain ⟨e, he, hattrs, _⟩ := (bucketOf_toFinset_eq_some_iff hinv.canon).mp hbucket
    exact hnew e (mem_elems_reserve.mpr he) hattrs
  have hkeep : ∀ e ∈ m.canonical.elems, ∃ e' ∈ m'.canonical.elems,
      e'.attrs = e.attrs ∧ e'.bucket = e.bucket ∧ ∀ key ∈ e.aliases, key ∈ e'.aliases :=
    fun e he => ⟨e, helems.mem_iff.mpr (List.mem_cons_of_mem entry he), rfl, rfl,
      fun key hkey => hkey⟩
  exact
    { inv :=
        { canon := hcanon
          dup := hinv.dup
          buckets := hinv.buckets.of_fresh helems rfl rfl rfl
          backed := fun a ha => (hinv.backed a ha).mono hkeep }
      obtains := .created habsent rfl (bucketOf_of_fresh hinv.canon hcanon helems rfl) rfl rfl rfl
      listed := ⟨entry, helems.mem_iff.mpr List.mem_cons_self, rfl, rfl,
        fun key hkey => by simpa [hentry] using hkey⟩
      kept := hkeep
      aliases := rfl
      noAttrEntry := rfl
      noAttrTouched := rfl }

theorem insertCanon_spec {m : BucketMap K A} (hinv : Inv cfg inUse m) {attrs : List K}
    (hne : attrs ≠ []) {aliasKey : Option (AliasKey K)}
    (halias : ∀ key ∈ aliasKey,
      KeyOk cfg inUse key ∧ normalize key.rawAttrs = normalize attrs) :
    InsertedCanon cfg inUse m attrs aliasKey
      (m.insertCanon cfg (normalize attrs) (canonHash cfg (normalize attrs)) aliasKey).1
      (m.insertCanon cfg (normalize attrs) (canonHash cfg (normalize attrs)) aliasKey).2 := by
  cases hfind : (m.canonical.reserve cfg.layout (rehashCanon cfg)).find
      (canonHash cfg (normalize attrs)) (fun e => e.attrs == normalize attrs) with
  | some entry =>
      simp only [insertCanon, hfind]
      exact insertCanon_of_found hinv halias hfind
  | none =>
      simp only [insertCanon, hfind]
      exact insertCanon_of_not_found hinv hne halias hfind

/-! ## The alias table -/

/-- A fingerprint is in the alias table. -/
def HasAlias (m : BucketMap K A) (fp : AttrFingerprint) : Prop :=
  ∃ a ∈ m.aliases.elems, a.key.rawFp = fp

omit [LinearOrder K] in
variable (cfg) in
@[simp]
theorem insertDup_canonical (m : BucketMap K A) (key : AliasKey K) (bucket : BucketRef) :
    (m.insertDup cfg key bucket).canonical = m.canonical := by
  unfold insertDup
  dsimp only
  split <;> rfl

omit [LinearOrder K] in
variable (cfg) in
/-- `insert_dup` touches nothing but the alias table. -/
theorem insertDup_frame (m : BucketMap K A) (key : AliasKey K) (bucket : BucketRef) :
    (m.insertDup cfg key bucket).noAttrEntry = m.noAttrEntry ∧
      (m.insertDup cfg key bucket).noAttrTouched = m.noAttrTouched ∧
      (m.insertDup cfg key bucket).count = m.count ∧
      (m.insertDup cfg key bucket).cells = m.cells ∧
      (m.insertDup cfg key bucket).fresh = m.fresh := by
  unfold insertDup
  dsimp only
  split <;> exact ⟨rfl, rfl, rfl, rfl, rfl⟩

variable (cfg) in
theorem bucketOf_insertDup (m : BucketMap K A) (key : AliasKey K) (bucket : BucketRef) :
    (m.insertDup cfg key bucket).bucketOf = m.bucketOf := by
  funext set
  unfold bucketOf
  rw [insertDup_canonical]

theorem AliasOk.reserve {table : HashTable (AliasEntry K)} (hok : AliasOk cfg inUse table) :
    AliasOk cfg inUse (table.reserve cfg.layout (rehashDup cfg)) := by
  have hperm := HashTable.elems_reserve_perm cfg.layout (rehashDup cfg) table
  exact
    { filed := HashTable.filedBy_reserve cfg.layout hok.filed
      key_ok := fun a ha => hok.key_ok a (hperm.mem_iff.mp ha)
      nodup := (hperm.map _).nodup_iff.mpr hok.nodup }

/-- `insert_dup` adds its entry unless the fingerprint is there already. -/
theorem insertDup_spec {m : BucketMap K A} (hdup : AliasOk cfg inUse m.aliases)
    {key : AliasKey K} (hkey : KeyOk cfg inUse key) (bucket : BucketRef) :
    AliasOk cfg inUse (m.insertDup cfg key bucket).aliases ∧
      ∀ a, a ∈ (m.insertDup cfg key bucket).aliases.elems ↔
        a ∈ m.aliases.elems ∨
          (a = { key := key, bucket := bucket } ∧ ¬ HasAlias m key.rawFp) := by
  have hperm := HashTable.elems_reserve_perm cfg.layout (rehashDup cfg) m.aliases
  unfold insertDup
  dsimp only
  split
  · next found hfind =>
      obtain ⟨hmem, hfp⟩ := (findDup_eq_some_iff hdup.reserve).mp hfind
      have hpresent : HasAlias m key.rawFp := ⟨found, hperm.mem_iff.mp hmem, hfp⟩
      exact ⟨hdup.reserve, fun a => by simp [hperm.mem_iff, hpresent]⟩
  · next hfind =>
      have hnone := (findDup_eq_none_iff hdup.reserve).mp hfind
      have habsent : ¬ HasAlias m key.rawFp := by
        rintro ⟨a, ha, hfp⟩
        exact hnone a (hperm.mem_iff.mpr ha) hfp
      set entry : AliasEntry K := { key := key, bucket := bucket } with hentry
      set table := m.aliases.reserve cfg.layout (rehashDup cfg) with htable
      have hinsert := HashTable.elems_insert_perm cfg.layout (key.tableHash cfg.hasher)
        entry table
      have hmem : ∀ a, a ∈ (table.insert cfg.layout (key.tableHash cfg.hasher) entry).elems ↔
          a = entry ∨ a ∈ m.aliases.elems := by
        intro a
        rw [hinsert.mem_iff, List.mem_cons, hperm.mem_iff]
      refine ⟨⟨HashTable.filedBy_insert cfg.layout hdup.reserve.filed rfl, ?_, ?_⟩, ?_⟩
      · intro a ha
        rcases (hmem a).mp ha with rfl | hold
        · exact hkey
        · exact hdup.key_ok a hold
      · rw [(hinsert.map _).nodup_iff, List.map_cons, List.nodup_cons]
        refine ⟨fun hin => ?_, hdup.reserve.nodup⟩
        obtain ⟨a, ha, hfp⟩ := List.mem_map.mp hin
        exact hnone a ha hfp
      · intro a
        rw [hmem]
        simp [habsent, or_comm]

/-- `insert_dup` keeps the invariant when the bucket it is given is still the one
of the canonical entry that lists the alias. -/
theorem inv_insertDup {m : BucketMap K A} (hinv : Inv cfg inUse m) {key : AliasKey K}
    (hkey : KeyOk cfg inUse key) {bucket : BucketRef}
    (hbacked : HasAlias m key.rawFp ∨ Backed m { key := key, bucket := bucket }) :
    Inv cfg inUse (m.insertDup cfg key bucket) := by
  obtain ⟨hdup, hmem⟩ := insertDup_spec hinv.dup hkey bucket
  obtain ⟨hnoAttr, _, _, _, hfresh⟩ := insertDup_frame cfg m key bucket
  have hcanonical := insertDup_canonical cfg m key bucket
  exact
    { canon := hcanonical ▸ hinv.canon
      dup := hdup
      buckets := hinv.buckets.of_subperm (by rw [hcanonical]) hnoAttr hfresh
      backed := fun a ha => by
        have hold : Backed m a := by
          rcases (hmem a).mp ha with hold | ⟨rfl, habsent⟩
          · exact hinv.backed a hold
          · exact hbacked.resolve_left habsent
        exact hold.mono fun e he => ⟨e, by simpa using he, rfl, rfl, fun key hkey => hkey⟩ }

theorem hasAlias_insertDup {m : BucketMap K A} (hinv : Inv cfg inUse m) {key : AliasKey K}
    (hkey : KeyOk cfg inUse key) (bucket : BucketRef) (fp : AttrFingerprint) :
    HasAlias (m.insertDup cfg key bucket) fp ↔ HasAlias m fp ∨ fp = key.rawFp := by
  obtain ⟨_, hmem⟩ := insertDup_spec hinv.dup hkey bucket
  unfold HasAlias
  simp only [hmem]
  constructor
  · rintro ⟨a, hold | ⟨rfl, _⟩, hfp⟩
    · exact Or.inl ⟨a, hold, hfp⟩
    · exact Or.inr hfp.symm
  · rintro (⟨a, ha, hfp⟩ | rfl)
    · exact ⟨a, Or.inl ha, hfp⟩
    · by_cases hpresent : HasAlias m key.rawFp
      · obtain ⟨a, ha, hfp⟩ := hpresent
        exact ⟨a, Or.inl ha, hfp⟩
      · exact ⟨_, Or.inr ⟨rfl, hpresent⟩, rfl⟩

/-! ## Obtaining a bucket -/

/-- What `get_or_create` leaves behind: the invariant, the bucket of the set, and
one more fingerprint known to the alias table if the list is not canonical. -/
structure Obtained (cfg : Config K A) (inUse : Set (List K)) (m : BucketMap K A)
    (attrs : List K) (m' : BucketMap K A) (bucket : BucketRef) : Prop where
  inv : Inv cfg inUse m'
  obtains : Obtains cfg m attrs.toFinset m' bucket
  noAttrEntry : m'.noAttrEntry = m.noAttrEntry
  noAttrTouched : m'.noAttrTouched = m.noAttrTouched
  hasAlias : ∀ fp, HasAlias m' fp ↔
    HasAlias m fp ∨
      (fp = AttrFingerprint.commutativeHash cfg.hasher attrs ∧ normalize attrs ≠ attrs)

/-- The alias `get_or_create` prepares for a list. -/
def aliasOf (cfg : Config K A) (attrs : List K) : Option (AliasKey K) :=
  if normalize attrs ≠ attrs then
    some { rawFp := AttrFingerprint.commutativeHash cfg.hasher attrs, rawAttrs := attrs }
  else none

theorem eq_of_aliasOf_eq_some {attrs : List K} {key : AliasKey K}
    (hkey : aliasOf cfg attrs = some key) :
    normalize attrs ≠ attrs ∧ key.rawFp = AttrFingerprint.commutativeHash cfg.hasher attrs ∧
      key.rawAttrs = attrs := by
  rw [aliasOf] at hkey
  split at hkey
  · rename_i hnorm
    obtain rfl := Option.some_inj.mp hkey
    exact ⟨hnorm, rfl, rfl⟩
  · simp at hkey

theorem aliasOf_ok {attrs : List K} (hattrs : attrs ∈ inUse) :
    ∀ key ∈ aliasOf cfg attrs,
      KeyOk cfg inUse key ∧ normalize key.rawAttrs = normalize attrs := by
  intro key hkey
  obtain ⟨hnorm, hfp, rfl⟩ := eq_of_aliasOf_eq_some hkey
  exact ⟨⟨hfp, hattrs, hnorm⟩, rfl⟩

/-- The key and the hash that `get_or_create` prepares are those of the sorted,
deduplicated list: when deduplication removed nothing the raw hash is that of a
permutation of it. -/
theorem prepare_eq (attrs : List K) :
    prepare cfg attrs (AttrFingerprint.commutativeHash cfg.hasher attrs) (canonHash cfg attrs) =
      { normalized := normalize attrs
        hash := canonHash cfg (normalize attrs)
        aliasKey := aliasOf cfg attrs } := by
  have hhash : (if (normalize attrs).length ≠
      (AttrFingerprint.commutativeHash cfg.hasher attrs).len
      then canonHash cfg (normalize attrs) else canonHash cfg attrs) =
      canonHash cfg (normalize attrs) := by
    split_ifs with hlength
    · rfl
    · have hsame : (normalize attrs).length = attrs.length := not_not.mp hlength
      rw [canonHash, canonHash,
        AttrFingerprint.commutativeHash_eq_of_perm _ (perm_normalize_of_length hsame)]
  simp only [prepare]
  rw [hhash]
  rfl

/-- `insert_canon` as `get_or_create` calls it. -/
theorem insertCanon_aliasOf_spec {m : BucketMap K A} (hinv : Inv cfg inUse m) {attrs : List K}
    (hne : attrs ≠ []) (hattrs : attrs ∈ inUse) :
    InsertedCanon cfg inUse m attrs (aliasOf cfg attrs)
      (m.insertCanon cfg (normalize attrs) (canonHash cfg (normalize attrs))
        (aliasOf cfg attrs)).1
      (m.insertCanon cfg (normalize attrs) (canonHash cfg (normalize attrs))
        (aliasOf cfg attrs)).2 :=
  insertCanon_spec hinv hne (aliasOf_ok hattrs)

/-- What follows `insert_canon` in `get_or_create`: the alias is entered under the
bucket the entry that lists it has. -/
theorem InsertedCanon.insertDup {m inserted : BucketMap K A} {attrs : List K}
    {key : AliasKey K} {bucket : BucketRef} (hattrs : attrs ∈ inUse)
    (hkey : aliasOf cfg attrs = some key)
    (hspec : InsertedCanon cfg inUse m attrs (some key) inserted bucket) :
    Obtained cfg inUse m attrs (inserted.insertDup cfg key bucket) bucket := by
  obtain ⟨hok, hsameAttrs⟩ := aliasOf_ok hattrs key hkey
  obtain ⟨e, he, heattrs, hebucket, hekeys⟩ := hspec.listed
  have hbacked : Backed inserted { key := key, bucket := bucket } :=
    ⟨e, he, heattrs.trans hsameAttrs.symm, hebucket, key, hekeys key rfl, rfl⟩
  obtain ⟨hnoAttr, htouched, hcount, hcells, hfresh⟩ := insertDup_frame cfg inserted key bucket
  have hmap := bucketOf_insertDup cfg inserted key bucket
  have hfp : ∀ fp, fp = key.rawFp ↔
      fp = AttrFingerprint.commutativeHash cfg.hasher attrs ∧ normalize attrs ≠ attrs := by
    intro fp
    obtain ⟨hnorm, hsame, _⟩ := eq_of_aliasOf_eq_some hkey
    rw [hsame]
    exact (and_iff_left hnorm).symm
  exact
    { inv := inv_insertDup hspec.inv hok (Or.inr hbacked)
      obtains := by
        cases hspec.obtains with
        | present hb hm hc hf hn =>
            exact .present hb (hmap.trans hm) (hcells.trans hc) (hfresh.trans hf)
              (hcount.trans hn)
        | created ha hb hm hc hf hn =>
            exact .created ha hb (hmap.trans hm) (hcells.trans hc) (hfresh.trans hf)
              (hcount.trans hn)
      noAttrEntry := hnoAttr.trans hspec.noAttrEntry
      noAttrTouched := htouched.trans hspec.noAttrTouched
      hasAlias := fun fp => by
        rw [hasAlias_insertDup hspec.inv hok, hfp, HasAlias, hspec.aliases]
        rfl }

theorem insertPrepared_spec {m : BucketMap K A} (hinv : Inv cfg inUse m) {attrs : List K}
    (hne : attrs ≠ []) (hattrs : attrs ∈ inUse) :
    Obtained cfg inUse m attrs
      (m.insertPrepared cfg (prepare cfg attrs
        (AttrFingerprint.commutativeHash cfg.hasher attrs) (canonHash cfg attrs))).1
      (m.insertPrepared cfg (prepare cfg attrs
        (AttrFingerprint.commutativeHash cfg.hasher attrs) (canonHash cfg attrs))).2 := by
  have hspec := insertCanon_aliasOf_spec hinv hne hattrs
  rw [prepare_eq]
  cases halias : aliasOf cfg attrs with
  | none =>
      have hnorm : normalize attrs = attrs := by
        by_contra hne
        simp [aliasOf, hne] at halias
      rw [halias] at hspec
      exact
        { inv := hspec.inv
          obtains := hspec.obtains
          noAttrEntry := hspec.noAttrEntry
          noAttrTouched := hspec.noAttrTouched
          hasAlias := fun fp => by
            simp only [HasAlias, insertPrepared, hspec.aliases]
            simp [hnorm] }
  | some key =>
      rw [halias] at hspec
      exact hspec.insertDup hattrs halias

/-- A lookup that succeeds has found the list itself, or an alias of its fingerprint. -/
theorem found_of_getBucket {m : BucketMap K A} {attrs : List K} (hne : attrs ≠ [])
    {bucket : BucketRef} (hget : m.getBucket cfg attrs = .ok bucket) :
    m.lookupCanon (canonHash cfg attrs) attrs = some bucket ∨
      m.lookupDup cfg (AttrFingerprint.commutativeHash cfg.hasher attrs) attrs = some bucket := by
  have hempty : attrs.isEmpty = false := by simpa using hne
  simp only [getBucket, hempty, Bool.false_eq_true, if_false, ← canonHash.eq_1] at hget
  split at hget
  · rename_i found hfound
    obtain rfl := Except.ok.inj hget
    split_ifs at hfound
    · exact Or.inl hfound
    · exact (Option.or_eq_some_iff.mp hfound).imp id And.right
    · exact (Option.or_eq_some_iff.mp hfound).symm.imp And.right id
  · cases hget

/-- A lookup that fails returns the fingerprint and its hash. -/
theorem getBucket_error {m : BucketMap K A} {attrs : List K} {hashes : AttrFingerprint × UInt64}
    (hget : m.getBucket cfg attrs = .error hashes) :
    attrs ≠ [] ∧
      hashes = (AttrFingerprint.commutativeHash cfg.hasher attrs, canonHash cfg attrs) := by
  have hne : attrs ≠ [] := by
    rintro rfl
    cases hget
  refine ⟨hne, ?_⟩
  rw [getBucket, if_neg (by simpa using hne)] at hget
  simp only at hget
  split at hget
  · cases hget
  · exact (Except.error.inj hget).symm

/-- The bucket a lookup answers with is that of some set, even if lists collide. -/
theorem exists_bucketOf_of_getBucket {m : BucketMap K A} (hinv : Inv cfg inUse m)
    {attrs : List K} (hne : attrs ≠ []) {bucket : BucketRef}
    (hget : m.getBucket cfg attrs = .ok bucket) : ∃ set, m.bucketOf set = some bucket := by
  rcases found_of_getBucket hne hget with hcanon | hdup
  · exact ⟨_, (bucketOf_of_lookupCanon hinv.canon hcanon).2⟩
  · obtain ⟨a, ha, _, rfl⟩ := (lookupDup_eq_some_iff hinv.dup).mp hdup
    obtain ⟨e, he, _, hbucket, _⟩ := hinv.backed a ha
    exact ⟨_, hbucket ▸ bucketOf_toFinset_of_mem hinv.canon he⟩

variable (cfg) in
/-- A lookup of the list does not answer with the bucket of another set. -/
def Answers (m : BucketMap K A) (attrs : List K) : Prop :=
  match m.getBucket cfg attrs with
  | .ok bucket => m.bucketOf attrs.toFinset = some bucket
  | .error _ => True

instance (m : BucketMap K A) (attrs : List K) : Decidable (Answers cfg m attrs) :=
  match hget : m.getBucket cfg attrs with
  | .ok bucket =>
      decidable_of_iff (m.bucketOf attrs.toFinset = some bucket) (by simp only [Answers, hget])
  | .error _ => .isTrue (by simp only [Answers, hget])

/-- Without collisions no lookup answers with the bucket of another set. -/
theorem answers_of_collisionFree (hfree : CollisionFree cfg inUse) {m : BucketMap K A}
    (hinv : Inv cfg inUse m) {attrs : List K} (hne : attrs ≠ []) (hattrs : attrs ∈ inUse) :
    Answers cfg m attrs := by
  rcases getBucket_spec hfree hinv hne hattrs with ⟨_, bucket, hbucket, hget⟩ | ⟨_, hget⟩
  · simpa only [Answers, hget] using hbucket
  · simp only [Answers, hget]

theorem getOrCreate_of_answers {m : BucketMap K A} (hinv : Inv cfg inUse m) {attrs : List K}
    (hne : attrs ≠ []) (hattrs : attrs ∈ inUse) (hanswers : Answers cfg m attrs) :
    Obtained cfg inUse m attrs (m.getOrCreate cfg attrs).1 (m.getOrCreate cfg attrs).2 := by
  cases hget : m.getBucket cfg attrs with
  | ok bucket =>
      have hbucket : m.bucketOf attrs.toFinset = some bucket := by
        simpa only [Answers, hget] using hanswers
      simp only [getOrCreate, hget]
      exact
        { inv := hinv
          obtains := .present hbucket rfl rfl rfl rfl
          noAttrEntry := rfl
          noAttrTouched := rfl
          hasAlias := fun fp => by
            refine ⟨Or.inl, fun h => h.elim id ?_⟩
            rintro ⟨rfl, hnorm⟩
            -- A list that is not canonical is only found through an alias.
            rcases found_of_getBucket hne hget with hcanon | hdup
            · exact absurd (bucketOf_of_lookupCanon hinv.canon hcanon).1 hnorm
            · obtain ⟨a, ha, hfp, _⟩ := (lookupDup_eq_some_iff hinv.dup).mp hdup
              exact ⟨a, ha, hfp⟩ }
  | error hashes =>
      obtain ⟨_, rfl⟩ := getBucket_error hget
      simp only [getOrCreate, hget]
      exact insertPrepared_spec hinv hne hattrs

theorem getOrCreate_spec (hfree : CollisionFree cfg inUse) {m : BucketMap K A}
    (hinv : Inv cfg inUse m) {attrs : List K} (hne : attrs ≠ []) (hattrs : attrs ∈ inUse) :
    Obtained cfg inUse m attrs (m.getOrCreate cfg attrs).1 (m.getOrCreate cfg attrs).2 :=
  getOrCreate_of_answers hinv hne hattrs (answers_of_collisionFree hfree hinv hne hattrs)

/-! ## Values -/

/-- The cell of an attribute set, if the map has a bucket for it. -/
def valueOf (m : BucketMap K A) (set : Finset K) : Option A :=
  (m.bucketOf set).map m.cells

omit [LinearOrder K] in
/-- The cell of the empty list. -/
def noAttrCell (m : BucketMap K A) : A := m.cells m.noAttrEntry.bucket

/-- The invariant speaks of the tables and of which addresses are allocated, not
of the cells. -/
theorem Inv.modifyCell {m : BucketMap K A} (hinv : Inv cfg inUse m) (bucket : BucketRef)
    (f : A → A) : Inv cfg inUse (m.modifyCell bucket f) :=
  ⟨hinv.canon, hinv.dup, hinv.buckets.of_subperm (List.Subperm.refl _) rfl rfl, hinv.backed⟩

/-- Nor does it speak of the flag. -/
theorem Inv.withTouched {m : BucketMap K A} (hinv : Inv cfg inUse m) (up : Bool) :
    Inv cfg inUse { m with noAttrTouched := up } :=
  ⟨hinv.canon, hinv.dup, hinv.buckets.of_subperm (List.Subperm.refl _) rfl rfl, hinv.backed⟩

theorem valueOf_empty {m : BucketMap K A} (hinv : Inv cfg inUse m) : m.valueOf ∅ = none := by
  rw [valueOf, bucketOf_empty hinv.canon, Option.map_none]

/-- Obtaining a bucket creates a cell in its initial state if the set had none, and
leaves every other cell alone. -/
theorem Obtained.valueOf_eq {m m' : BucketMap K A} (hinv : Inv cfg inUse m) {attrs : List K}
    {bucket : BucketRef} (h : Obtained cfg inUse m attrs m' bucket) :
    m'.valueOf = Function.update m.valueOf attrs.toFinset
        (some ((m.valueOf attrs.toFinset).getD cfg.initBucket)) ∧
      m'.noAttrCell = m.noAttrCell := by
  have hnoAttr := h.noAttrEntry
  cases h.obtains with
  | present hbucket hmap hcells _ _ =>
      refine ⟨?_, by simp only [noAttrCell, hnoAttr, hcells]⟩
      funext set
      by_cases hset : set = attrs.toFinset
      · subst hset
        simp [valueOf, hmap, hcells, hbucket]
      · simp [valueOf, hmap, hcells, Function.update_of_ne hset]
  | created habsent hbucket hmap hcells _ _ =>
      have hold : ∀ set b, m.bucketOf set = some b → b ≠ bucket := by
        rintro set b hb rfl
        exact absurd (hbucket ▸ bucketOf_lt_fresh hinv hb) (lt_irrefl _)
      refine ⟨?_, ?_⟩
      · funext set
        by_cases hset : set = attrs.toFinset
        · subst hset
          simp [valueOf, hmap, hcells, habsent]
        · simp only [valueOf, hmap, Function.update_of_ne hset]
          cases hb : m.bucketOf set with
          | none => rfl
          | some b => simp [hcells, Function.update_of_ne (hold set b hb)]
      · have hne : m.noAttrEntry.bucket ≠ bucket :=
          hbucket ▸ ne_of_lt hinv.buckets.noAttr_allocated
        simp [noAttrCell, hnoAttr, hcells, Function.update_of_ne hne]

/-- Writing through the bucket of a set changes that set's cell only. -/
theorem valueOf_modifyCell {m : BucketMap K A} (hinv : Inv cfg inUse m) {set : Finset K}
    {bucket : BucketRef} (hbucket : m.bucketOf set = some bucket) (f : A → A) :
    (m.modifyCell bucket f).valueOf =
        Function.update m.valueOf set ((m.valueOf set).map f) ∧
      (m.modifyCell bucket f).noAttrCell = m.noAttrCell := by
  refine ⟨?_, ?_⟩
  · funext other
    by_cases hother : other = set
    · subst hother
      rw [Function.update_self]
      show (m.bucketOf other).map _ = ((m.bucketOf other).map _).map f
      simp [hbucket, BucketMap.modifyCell]
    · rw [Function.update_of_ne hother]
      show (m.bucketOf other).map _ = (m.bucketOf other).map _
      cases hb : m.bucketOf other with
      | none => rfl
      | some b =>
          have hne : b ≠ bucket := fun h =>
            hother (bucketOf_injective hinv hb (h ▸ hbucket))
          simp [BucketMap.modifyCell, Function.update_of_ne hne]
  · have hne : m.noAttrEntry.bucket ≠ bucket := (bucketOf_ne_noAttr hinv hbucket).symm
    simp [noAttrCell, BucketMap.modifyCell, Function.update_of_ne hne]

/-- Writing through an address that no set has changes no set's cell. -/
theorem valueOf_modifyCell_of_detached {m : BucketMap K A} {bucket : BucketRef}
    (hdetached : ∀ set, m.bucketOf set ≠ some bucket) (f : A → A) :
    (m.modifyCell bucket f).valueOf = m.valueOf := by
  funext set
  show (m.bucketOf set).map _ = (m.bucketOf set).map _
  cases hb : m.bucketOf set with
  | none => rfl
  | some b =>
      have hne : b ≠ bucket := by
        rintro rfl
        exact hdetached set hb
      simp [BucketMap.modifyCell, Function.update_of_ne hne]

/-- Writing through the bucket of the empty list changes its cell only. -/
theorem valueOf_modifyCell_noAttr {m : BucketMap K A} (hinv : Inv cfg inUse m) (f : A → A) :
    (m.modifyCell m.noAttrEntry.bucket f).valueOf = m.valueOf ∧
      (m.modifyCell m.noAttrEntry.bucket f).noAttrCell = f m.noAttrCell := by
  refine ⟨valueOf_modifyCell_of_detached (fun set hb => ?_) f,
    by simp [noAttrCell, BucketMap.modifyCell]⟩
  exact bucketOf_ne_noAttr hinv hb rfl

/-- What a write under a list leaves behind, in terms of cells. -/
structure Written (cfg : Config K A) (inUse : Set (List K)) (m : BucketMap K A)
    (attrs : List K) (f : A → A) (m' : BucketMap K A) : Prop where
  inv : Inv cfg inUse m'
  valueOf : m'.valueOf = Function.update m.valueOf attrs.toFinset
    (some (f ((m.valueOf attrs.toFinset).getD cfg.initBucket)))
  noAttrCell : m'.noAttrCell = m.noAttrCell
  noAttrTouched : m'.noAttrTouched = m.noAttrTouched
  hasAlias : ∀ fp, HasAlias m' fp ↔
    HasAlias m fp ∨
      (fp = AttrFingerprint.commutativeHash cfg.hasher attrs ∧ normalize attrs ≠ attrs)

theorem updateBucket_of_answers {m : BucketMap K A} (hinv : Inv cfg inUse m) {attrs : List K}
    (hne : attrs ≠ []) (hattrs : attrs ∈ inUse) (hanswers : Answers cfg m attrs) (f : A → A) :
    Written cfg inUse m attrs f (m.updateBucket cfg attrs f) := by
  have hspec := getOrCreate_of_answers hinv hne hattrs hanswers
  obtain ⟨hvalue, hcell⟩ := hspec.valueOf_eq hinv
  obtain ⟨hvalue', hcell'⟩ :=
    valueOf_modifyCell hspec.inv hspec.obtains.bucketOf_eq f
  exact
    { inv := hspec.inv.modifyCell _ f
      valueOf := by
        rw [updateBucket, hvalue', hvalue, Function.update_self, Option.map_some,
          Function.update_idem]
      noAttrCell := hcell'.trans hcell
      noAttrTouched := hspec.noAttrTouched
      hasAlias := hspec.hasAlias }

theorem updateBucket_spec (hfree : CollisionFree cfg inUse) {m : BucketMap K A}
    (hinv : Inv cfg inUse m) {attrs : List K} (hne : attrs ≠ []) (hattrs : attrs ∈ inUse)
    (f : A → A) : Written cfg inUse m attrs f (m.updateBucket cfg attrs f) :=
  updateBucket_of_answers hinv hne hattrs (answers_of_collisionFree hfree hinv hne hattrs) f

section Record

variable [Record A T V]

omit [Record A T V] in
theorem writeNoAttr_spec {m : BucketMap K A} (hinv : Inv cfg inUse m) (f : A → A) :
    Inv cfg inUse (m.writeNoAttr f) ∧ (m.writeNoAttr f).valueOf = m.valueOf ∧
      (m.writeNoAttr f).noAttrCell = f m.noAttrCell ∧
      (m.writeNoAttr f).noAttrTouched = true := by
  obtain ⟨hvalue, hcell⟩ := valueOf_modifyCell_noAttr hinv f
  exact ⟨(hinv.modifyCell m.noAttrEntry.bucket f).withTouched true, hvalue, hcell, rfl⟩

end Record

/-- No alias answers to a list that was looked up and not found. -/
theorem not_hasAlias_of_getBucket_error (hfree : CollisionFree cfg inUse) {m : BucketMap K A}
    (hinv : Inv cfg inUse m) {attrs : List K} (hattrs : attrs ∈ inUse)
    {hashes : AttrFingerprint × UInt64} (hget : m.getBucket cfg attrs = .error hashes) :
    ¬ HasAlias m (AttrFingerprint.commutativeHash cfg.hasher attrs) := by
  obtain ⟨hne, _⟩ := getBucket_error hget
  rcases getBucket_spec hfree hinv hne hattrs with ⟨_, bucket, _, hfound⟩ | ⟨hmiss, _⟩
  · simp [hget] at hfound
  · exact fun halias => hmiss (Or.inr halias)

/-- Obtaining a bucket, whether or not lists collide: either it is some set's and the map
stays as it was, or it is the one of the list's set. -/
theorem getOrCreate_cases {m : BucketMap K A} (hinv : Inv cfg inUse m) {attrs : List K}
    (hne : attrs ≠ []) (hattrs : attrs ∈ inUse) :
    ((m.getOrCreate cfg attrs).1 = m ∧
        ∃ set, m.bucketOf set = some (m.getOrCreate cfg attrs).2) ∨
      Obtained cfg inUse m attrs (m.getOrCreate cfg attrs).1 (m.getOrCreate cfg attrs).2 := by
  cases hget : m.getBucket cfg attrs with
  | ok bucket =>
      simp only [getOrCreate, hget]
      exact Or.inl ⟨trivial, exists_bucketOf_of_getBucket hinv hne hget⟩
  | error hashes =>
      have hanswers : Answers cfg m attrs := by simp only [Answers, hget]
      exact Or.inr (getOrCreate_of_answers hinv hne hattrs hanswers)

/-- Obtaining a bucket keeps the invariant, whether or not lists collide. -/
theorem inv_getOrCreate {m : BucketMap K A} (hinv : Inv cfg inUse m) {attrs : List K}
    (hattrs : attrs ∈ inUse) : Inv cfg inUse (m.getOrCreate cfg attrs).1 := by
  rw [getOrCreate]
  cases hget : m.getBucket cfg attrs with
  | ok bucket => exact hinv
  | error hashes =>
      obtain ⟨hne, rfl⟩ := getBucket_error hget
      exact (insertPrepared_spec hinv hne hattrs).inv

/-- What a write under a list leaves as it was, whoever's bucket it finds. -/
structure Confined (cfg : Config K A) (inUse : Set (List K)) (m : BucketMap K A)
    (attrs : List K) (m' : BucketMap K A) : Prop where
  inv : Inv cfg inUse m'
  absent : ∀ set, set ≠ attrs.toFinset → m.valueOf set = none → m'.valueOf set = none
  noAttrCell : m'.noAttrCell = m.noAttrCell
  noAttrTouched : m'.noAttrTouched = m.noAttrTouched

theorem confined_updateBucket {m : BucketMap K A} (hinv : Inv cfg inUse m) {attrs : List K}
    (hne : attrs ≠ []) (hattrs : attrs ∈ inUse) (f : A → A) :
    Confined cfg inUse m attrs (m.updateBucket cfg attrs f) := by
  rw [updateBucket]
  rcases getOrCreate_cases hinv hne hattrs with ⟨hsame, set, hbucket⟩ | hobtained
  · obtain ⟨hvalue, hcell⟩ := valueOf_modifyCell hinv hbucket f
    rw [hsame]
    refine ⟨hinv.modifyCell _ f, fun other _ hnone => ?_, hcell, rfl⟩
    rw [hvalue]
    by_cases hother : other = set
    · subst hother
      rw [Function.update_self, hnone, Option.map_none]
    · rwa [Function.update_of_ne hother]
  · have hvalue := (hobtained.valueOf_eq hinv).1
    obtain ⟨hvalue', hcell'⟩ :=
      valueOf_modifyCell hobtained.inv hobtained.obtains.bucketOf_eq f
    refine ⟨hobtained.inv.modifyCell _ f, fun other hother hnone => ?_,
      hcell'.trans (hobtained.valueOf_eq hinv).2, hobtained.noAttrTouched⟩
    rwa [hvalue', Function.update_of_ne hother, hvalue, Function.update_of_ne hother]

/-- The shape `add`, `sub` and `set` share keeps the invariant. -/
theorem inv_write {m : BucketMap K A} (hinv : Inv cfg inUse m) {attrs : List K}
    (hattrs : attrs ∈ inUse) (f : A → A) :
    Inv cfg inUse (if attrs.isEmpty then m.writeNoAttr f else m.updateBucket cfg attrs f) := by
  cases attrs with
  | nil => exact (writeNoAttr_spec hinv f).1
  | cons kv rest => exact (inv_getOrCreate hinv hattrs).modifyCell _ f

end BucketMap

end Ohnotel
