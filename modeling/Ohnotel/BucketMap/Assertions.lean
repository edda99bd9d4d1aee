/-
# The build with debug assertions

A build with debug assertions runs the same operations, but looks at the lists themselves
where an alias answers to a fingerprint, and at the bucket where an alias is entered that
is there already.  Either look may end the program.  What follows are the operations as
that build performs them, and when they end as they do without assertions.
-/

import Ohnotel.BucketMap.Reads

namespace Ohnotel

open Foundation Atomic

/-- The debug assertions of the map: "alias fingerprint collision" and
"inserting a dup". -/
inductive Assertion
  | aliasFingerprintCollision
  | insertingADup
  deriving DecidableEq

/-- The calls of a bucket map, with its reads. -/
inductive MapCall (K T : Type)
  | scalar (op : ScalarOp K T)
  | get (attrs : List K)

/-- The attribute lists that occur in a call. -/
def MapCall.lists {K T : Type} : MapCall K T → List (List K)
  | .scalar op => op.lists
  | .get attrs => [attrs]

/-- What a call returns. -/
inductive MapOut (K T : Type)
  | scalar (out : Out K T)
  | got (value : Option T)

/-! ## The operations -/

/-- `AliasKey::matches`: equal fingerprints are asserted to be of equal lists. -/
def AliasKey.matchesChecked {K : Type} [DecidableEq K] (key : AliasKey K)
    (rawFp : AttrFingerprint) (attrs : List K) : Except Assertion Bool :=
  if key.rawFp ≠ rawFp then return false
  else if key.rawAttrs = attrs then return true
  else throw .aliasFingerprintCollision

namespace BucketMap

variable {K A T V : Type} [LinearOrder K] (cfg : Config K A)

/-- Search the alias table as `lookup_dup`, `insert_dup` and `visit_bucket` do. -/
def findDupChecked (aliases : HashTable (AliasEntry K)) (rawFp : AttrFingerprint)
    (attrs : List K) : Except Assertion (Option (AliasEntry K)) :=
  aliases.findM (rawFp.tableHash cfg.hasher) fun e => e.key.matchesChecked rawFp attrs

def lookupDupChecked (m : BucketMap K A) (rawFp : AttrFingerprint) (attrs : List K) :
    Except Assertion (Option BucketRef) :=
  Option.map AliasEntry.bucket <$> findDupChecked cfg m.aliases rawFp attrs

def getBucketChecked (m : BucketMap K A) (attrs : List K) :
    Except Assertion (Except (AttrFingerprint × UInt64) BucketRef) :=
  if attrs.isEmpty then return .ok m.noAttrEntry.bucket
  else do
    let rawFp := AttrFingerprint.commutativeHash cfg.hasher attrs
    let rawHash := rawFp.tableHash cfg.hasher
    let found ←
      if attrs.length = 1 then pure (m.lookupCanon rawHash attrs)
      else if attrs.IsChain (· ≤ ·) then
        -- `or_else` looks further only if nothing was found.
        match m.lookupCanon rawHash attrs with
        | some bucket => pure (some bucket)
        | none => m.lookupDupChecked cfg rawFp attrs
      else do
        match ← m.lookupDupChecked cfg rawFp attrs with
        | some bucket => pure (some bucket)
        | none => pure (m.lookupCanon rawHash attrs)
    match found with
    | some bucket => return .ok bucket
    | none => return .error (rawFp, rawHash)

def insertDupChecked (m : BucketMap K A) (key : AliasKey K) (bucket : BucketRef) :
    Except Assertion (BucketMap K A) := do
  let table := m.aliases.reserve cfg.layout (rehashDup cfg)
  match ← findDupChecked cfg table key.rawFp key.rawAttrs with
  | some e => if e.bucket = bucket then return { m with aliases := table } else throw .insertingADup
  | none =>
      return { m with
        aliases := table.insert cfg.layout (key.tableHash cfg.hasher)
          { key := key, bucket := bucket } }

def insertPreparedChecked (m : BucketMap K A) (prepared : Prepared K) :
    Except Assertion (BucketMap K A × BucketRef) := do
  let inserted := m.insertCanon cfg prepared.normalized prepared.hash prepared.aliasKey
  match prepared.aliasKey with
  | some key => return (← inserted.1.insertDupChecked cfg key inserted.2, inserted.2)
  | none => return inserted

def getOrCreateChecked (m : BucketMap K A) (attrs : List K) :
    Except Assertion (BucketMap K A × BucketRef) := do
  match ← m.getBucketChecked cfg attrs with
  | .ok bucket => return (m, bucket)
  | .error hashes => m.insertPreparedChecked cfg (prepare cfg attrs hashes.1 hashes.2)

def updateBucketChecked (m : BucketMap K A) (attrs : List K) (f : A → A) :
    Except Assertion (BucketMap K A) := do
  let found ← m.getOrCreateChecked cfg attrs
  return found.1.modifyCell found.2 f

section Visit

variable [Record A T V]

/-- `find_entry`, and the removal of what it found. -/
def dropAliasChecked (aliases : HashTable (AliasEntry K)) (key : AliasKey K) :
    Except Assertion (HashTable (AliasEntry K)) := do
  match ← findDupChecked cfg aliases key.rawFp key.rawAttrs with
  | some _ => return dropAlias cfg aliases key
  | none => return aliases

def visitEntryChecked {σ : Type} (cb : σ → CanonicalEntry K → A → Bool × σ)
    (cells : BucketRef → A) (visit : Visit σ K) (entry : CanonicalEntry K) :
    Except Assertion (Bool × Visit σ K) := do
  let answer := cb visit.state entry (cells entry.bucket)
  if answer.1 then return (true, { visit with state := answer.2 })
  else
    return (false,
      { state := answer.2
        aliases := ← entry.aliases.foldlM (dropAliasChecked cfg) visit.aliases
        evicted := visit.evicted + 1 })

def visitBucketChecked {σ : Type} (m : BucketMap K A)
    (cb : σ → CanonicalEntry K → A → Bool × σ) (state : σ) :
    Except Assertion (BucketMap K A × σ) := do
  let kept ← m.canonical.retainM (visitEntryChecked cfg cb m.cells)
    { state := state, aliases := m.aliases, evicted := 0 }
  let visited : BucketMap K A :=
    { m with
      canonical := kept.1
      aliases := kept.2.aliases
      count := if kept.2.evicted > 0 then m.count - kept.2.evicted else m.count }
  if m.noAttrTouched then
    let answer := cb kept.2.state m.noAttrEntry (m.cells m.noAttrEntry.bucket)
    return (if answer.1 then visited else visited.clearNoAttr, answer.2)
  else return (visited, kept.2.state)

end Visit

section Scalar

variable [Scalar A T]

/-- Perform one call without assertions. -/
def call (m : BucketMap K A) : MapCall K T → BucketMap K A × MapOut K T
  | .scalar op => ((m.exec cfg op).1, .scalar (m.exec cfg op).2)
  | .get attrs => (m, .got (m.get cfg attrs))

/-- The shape that `add`, `sub` and `set` share. -/
def writeChecked (m : BucketMap K A) (attrs : List K) (f : A → A) :
    Except Assertion (BucketMap K A) :=
  if attrs.isEmpty then return m.writeNoAttr f else m.updateBucketChecked cfg attrs f

def resetChecked (m : BucketMap K A) (attrs : List K) : Except Assertion (BucketMap K A × T) :=
  if attrs.isEmpty then
    let answer := Scalar.reset (m.cells m.noAttrEntry.bucket)
    return (m.modifyCell m.noAttrEntry.bucket fun _ => answer.2, answer.1)
  else do
    let found ← m.getOrCreateChecked cfg attrs
    let answer := Scalar.reset (found.1.cells found.2)
    return (found.1.modifyCell found.2 fun _ => answer.2, answer.1)

def getChecked (m : BucketMap K A) (attrs : List K) : Except Assertion (Option T) :=
  if attrs.isEmpty then return some (Scalar.get (m.cells m.noAttrEntry.bucket))
  else do
    match ← m.getBucketChecked cfg attrs with
    | .ok bucket => return some (Scalar.get (m.cells bucket))
    | .error _ => return none

/-- Perform one call with assertions. -/
def callChecked (m : BucketMap K A) :
    MapCall K T → Except Assertion (BucketMap K A × MapOut K T)
  | .scalar (.add value attrs) => do
      return (← m.writeChecked cfg attrs fun cell => Record.add cell value, .scalar .unit)
  | .scalar (.sub value attrs) => do
      return (← m.writeChecked cfg attrs fun cell => Record.sub cell value, .scalar .unit)
  | .scalar (.set value attrs) => do
      return (← m.writeChecked cfg attrs fun cell => Scalar.store cell value, .scalar .unit)
  | .scalar (.reset attrs) => do
      let answer ← m.resetChecked cfg attrs
      return (answer.1, .scalar (.value answer.2))
  | .scalar .clear => return (m.clear, .scalar .unit)
  | .scalar .take =>
      return (m.take.1, .scalar (.taken (m.take.1.readTable m.take.2.1) m.take.2.2))
  | .scalar (.visitBucket cb) => do
      let visited ← m.visitBucketChecked cfg (logCalls cb) []
      return (visited.1, .scalar (.visited visited.2))
  | .get attrs => do return (m, .got (← m.getChecked cfg attrs))

end Scalar

/-! ## When a search fails -/

/-- The first of the two assertions fails unless the condition holds; if it does, nothing
fails and the result is this one. -/
structure FailsUnless {R : Type} (condition : Prop) (checked : Except Assertion R) (result : R) :
    Prop where
  ok : condition → checked = .ok result
  error : ¬ condition → checked = .error .aliasFingerprintCollision

theorem FailsUnless.bind {R S : Type} {condition : Prop} {checked : Except Assertion R}
    {result : R} (h : FailsUnless condition checked result) {next : R → Except Assertion S}
    {last : S} (hnext : next result = .ok last) :
    FailsUnless condition (checked >>= next) last where
  ok hcondition := by
    rw [h.ok hcondition]
    exact hnext
  error hnot := by
    rw [h.error hnot]
    rfl

/-- What never fails. -/
theorem FailsUnless.of_eq_ok {R : Type} {condition : Prop} {checked : Except Assertion R}
    {result : R} (hcondition : condition) (h : checked = .ok result) :
    FailsUnless condition checked result :=
  ⟨fun _ => h, fun hnot => absurd hcondition hnot⟩

variable {cfg} {inUse : Set (List K)}

/-- Every alias with the fingerprint was entered for the same list. -/
def Unmixed (aliases : HashTable (AliasEntry K)) (rawFp : AttrFingerprint) (attrs : List K) :
    Prop :=
  ∀ a ∈ aliases.elems, a.key.rawFp = rawFp → a.key.rawAttrs = attrs

theorem findDupChecked_eq_ok {aliases : HashTable (AliasEntry K)} {rawFp : AttrFingerprint}
    {attrs : List K} (h : Unmixed aliases rawFp attrs) :
    findDupChecked cfg aliases rawFp attrs =
      .ok (aliases.find (rawFp.tableHash cfg.hasher) fun e => e.key.matchesRaw rawFp attrs) := by
  refine HashTable.findM_eq_find (fun a ha => ?_) _
  rw [AliasKey.matchesChecked, AliasKey.matchesRaw]
  by_cases hfp : a.key.rawFp = rawFp
  · rw [if_neg (not_not.mpr hfp), if_pos (h a ha hfp), decide_eq_true hfp]
    rfl
  · rw [if_pos hfp, decide_eq_false hfp]
    rfl

theorem findDupChecked_eq_error {aliases : HashTable (AliasEntry K)}
    (hok : AliasOk cfg inUse aliases) {rawFp : AttrFingerprint} {attrs : List K}
    (h : ¬ Unmixed aliases rawFp attrs) :
    findDupChecked cfg aliases rawFp attrs = .error .aliasFingerprintCollision := by
  obtain ⟨a, ha, rfl, hattrs⟩ : ∃ a ∈ aliases.elems, a.key.rawFp = rawFp ∧
      a.key.rawAttrs ≠ attrs := by simpa [Unmixed] using h
  refine HashTable.findM_eq_error hok.filed ha ?_ fun other hother hne => ?_
  · rw [AliasKey.matchesChecked, if_neg (not_not.mpr rfl), if_neg hattrs]
    rfl
  · have hfp : other.key.rawFp ≠ a.key.rawFp := fun hsame =>
      hne (aliasEntry_eq_of_fp_eq hok hother ha hsame)
    rw [AliasKey.matchesChecked, if_pos hfp]
    rfl

/-! ## Obtaining a bucket -/

/-- An alias found for a list that is not strictly sorted was entered for that list. -/
def Unambiguous (cfg : Config K A) (m : BucketMap K A) (attrs : List K) : Prop :=
  normalize attrs ≠ attrs →
    Unmixed m.aliases (AttrFingerprint.commutativeHash cfg.hasher attrs) attrs

theorem unambiguous_nil {m : BucketMap K A} : Unambiguous cfg m [] := fun hne => absurd rfl hne

theorem lookupDupChecked_eq_ok {m : BucketMap K A} {rawFp : AttrFingerprint} {attrs : List K}
    (h : Unmixed m.aliases rawFp attrs) :
    m.lookupDupChecked cfg rawFp attrs = .ok (m.lookupDup cfg rawFp attrs) := by
  rw [lookupDupChecked, findDupChecked_eq_ok h]
  rfl

/-- A lookup does not fail if its search of the alias table does not. -/
theorem getBucketChecked_eq_ok {m : BucketMap K A} {attrs : List K}
    (h : m.lookupDupChecked cfg (AttrFingerprint.commutativeHash cfg.hasher attrs) attrs =
      .ok (m.lookupDup cfg (AttrFingerprint.commutativeHash cfg.hasher attrs) attrs)) :
    m.getBucketChecked cfg attrs = .ok (m.getBucket cfg attrs) := by
  rw [getBucketChecked, getBucket]
  split
  · rfl
  · simp only [h]
    split
    · cases m.lookupCanon _ attrs <;> rfl
    · split
      · cases m.lookupCanon _ attrs with
        | some bucket => rfl
        | none => cases m.lookupDup cfg _ attrs <;> rfl
      · cases m.lookupDup cfg _ attrs with
        | some bucket => rfl
        | none => cases m.lookupCanon _ attrs <;> rfl

/-- A list that is strictly sorted is not looked up in the alias table if it is there. -/
theorem getBucketChecked_of_lookupCanon {m : BucketMap K A} {attrs : List K}
    (hsorted : normalize attrs = attrs) {bucket : BucketRef}
    (h : m.lookupCanon (canonHash cfg attrs) attrs = some bucket) :
    m.getBucketChecked cfg attrs = .ok (m.getBucket cfg attrs) := by
  have hchain : attrs.IsChain (· ≤ ·) :=
    ((normalize_eq_self_iff.mp hsorted).imp le_of_lt).isChain
  rw [getBucketChecked, getBucket]
  split
  · rfl
  · simp only [← canonHash.eq_1, h, Option.some_or, ite_self]
    rfl

/-- A lookup fails exactly if the alias it looks for may be of another list. -/
theorem getBucketChecked_spec (hfree : CollisionFree cfg inUse) {m : BucketMap K A}
    (hinv : Inv cfg inUse m) {attrs : List K} (hattrs : attrs ∈ inUse) :
    FailsUnless (Unambiguous cfg m attrs) (m.getBucketChecked cfg attrs)
      (m.getBucket cfg attrs) where
  ok hunambiguous := by
    by_cases hsorted : normalize attrs = attrs
    · by_cases halias : HasAlias m (AttrFingerprint.commutativeHash cfg.hasher attrs)
      · -- The alias is backed by the entry of the list itself, which is found first.
        obtain ⟨a, ha, hfp⟩ := halias
        obtain ⟨e, he, heattrs, _⟩ := hinv.backed a ha
        have hnorm := normalize_eq_of_fp_eq hfree (hinv.dup.key_ok a ha) hattrs hfp
        rw [hnorm, hsorted] at heattrs
        exact getBucketChecked_of_lookupCanon hsorted
          ((lookupCanon_canonHash hinv.canon).mpr ⟨e, he, heattrs, rfl⟩)
      · exact getBucketChecked_eq_ok
          (lookupDupChecked_eq_ok fun a ha hfp => absurd ⟨a, ha, hfp⟩ halias)
    · exact getBucketChecked_eq_ok (lookupDupChecked_eq_ok (hunambiguous hsorted))
  error hambiguous := by
    obtain ⟨hunsorted, hmixed⟩ := Classical.not_imp.mp hambiguous
    have hcanon : m.lookupCanon (canonHash cfg attrs) attrs = none := by
      by_contra hne
      obtain ⟨bucket, hhit⟩ := Option.ne_none_iff_exists'.mp hne
      exact hunsorted (bucketOf_of_lookupCanon hinv.canon hhit).1
    have hnonempty : ¬ attrs.isEmpty := by
      intro hempty
      rw [List.isEmpty_iff.mp hempty] at hunsorted
      exact hunsorted rfl
    have hlength : attrs.length ≠ 1 := by
      intro hone
      obtain ⟨kv, rfl⟩ := List.length_eq_one_iff.mp hone
      exact hunsorted (normalize_eq_self_iff.mpr (List.pairwise_singleton _ kv))
    have hdup : m.lookupDupChecked cfg (AttrFingerprint.commutativeHash cfg.hasher attrs) attrs =
        .error .aliasFingerprintCollision := by
      rw [lookupDupChecked, findDupChecked_eq_error hinv.dup hmixed]
      rfl
    rw [getBucketChecked, if_neg hnonempty]
    simp only [if_neg hlength, ← canonHash.eq_1, hcanon, hdup]
    split <;> rfl

/-- Where no alias has the fingerprint, entering one does not fail. -/
theorem insertDupChecked_eq_ok {m : BucketMap K A} {key : AliasKey K}
    (hok : AliasOk cfg inUse m.aliases) (habsent : ¬ HasAlias m key.rawFp) (bucket : BucketRef) :
    m.insertDupChecked cfg key bucket = .ok (m.insertDup cfg key bucket) := by
  have hreserved : ∀ a ∈ (m.aliases.reserve cfg.layout (rehashDup cfg)).elems,
      a.key.rawFp ≠ key.rawFp := fun a ha hfp =>
    habsent ⟨a, (HashTable.elems_reserve_perm _ _ _).mem_iff.mp ha, hfp⟩
  have hunmixed : Unmixed (m.aliases.reserve cfg.layout (rehashDup cfg)) key.rawFp key.rawAttrs :=
    fun a ha hfp => absurd hfp (hreserved a ha)
  have hnone : (m.aliases.reserve cfg.layout (rehashDup cfg)).find
      (key.rawFp.tableHash cfg.hasher) (fun e => e.key.matchesRaw key.rawFp key.rawAttrs) = none :=
    (findDup_eq_none_iff hok.reserve).mpr hreserved
  have hfind : findDupChecked cfg (m.aliases.reserve cfg.layout (rehashDup cfg)) key.rawFp
      key.rawAttrs = .ok none := by rw [findDupChecked_eq_ok hunmixed, hnone]
  rw [insertDupChecked, insertDup, AliasKey.tableHash, hnone, hfind]
  rfl

theorem insertPreparedChecked_eq_ok {m : BucketMap K A} (hinv : Inv cfg inUse m)
    {attrs : List K} (hne : attrs ≠ []) (hattrs : attrs ∈ inUse)
    (habsent : ¬ HasAlias m (AttrFingerprint.commutativeHash cfg.hasher attrs)) :
    m.insertPreparedChecked cfg (prepare cfg attrs
        (AttrFingerprint.commutativeHash cfg.hasher attrs) (canonHash cfg attrs)) =
      .ok (m.insertPrepared cfg (prepare cfg attrs
        (AttrFingerprint.commutativeHash cfg.hasher attrs) (canonHash cfg attrs))) := by
  have hinserted := insertCanon_aliasOf_spec hinv hne hattrs
  rw [prepare_eq]
  cases hkey : aliasOf cfg attrs with
  | none => rfl
  | some key =>
      rw [hkey] at hinserted
      obtain ⟨_, hfp, _⟩ := eq_of_aliasOf_eq_some hkey
      have hstill : ¬ HasAlias (m.insertCanon cfg (normalize attrs)
          (canonHash cfg (normalize attrs)) (some key)).1 key.rawFp := by
        rwa [HasAlias, hinserted.aliases, hfp]
      simp only [insertPreparedChecked, insertPrepared,
        insertDupChecked_eq_ok hinserted.inv.dup hstill]
      rfl

/-- Obtaining a bucket fails exactly if the lookup does: an alias is entered only after it
was looked up and not found. -/
theorem getOrCreateChecked_spec (hfree : CollisionFree cfg inUse) {m : BucketMap K A}
    (hinv : Inv cfg inUse m) {attrs : List K} (hattrs : attrs ∈ inUse) :
    FailsUnless (Unambiguous cfg m attrs) (m.getOrCreateChecked cfg attrs)
      (m.getOrCreate cfg attrs) := by
  refine (getBucketChecked_spec hfree hinv hattrs).bind ?_
  rw [getOrCreate]
  cases hget : m.getBucket cfg attrs with
  | ok bucket => rfl
  | error hashes =>
      have habsent := not_hasAlias_of_getBucket_error hfree hinv hattrs hget
      obtain ⟨hne, rfl⟩ := getBucket_error hget
      exact insertPreparedChecked_eq_ok hinv hne hattrs habsent

/-! ## Visiting -/

/-- Every alias that an entry lists is in the alias table. -/
def Entered (m : BucketMap K A) : Prop :=
  ∀ e ∈ m.canonical.elems, ∀ key ∈ e.aliases, ∃ a ∈ m.aliases.elems, a.key = key

omit [LinearOrder K] in
theorem Unmixed.mono {aliases fewer : HashTable (AliasEntry K)} {rawFp : AttrFingerprint}
    {attrs : List K} (h : Unmixed aliases rawFp attrs)
    (hfewer : ∀ a ∈ fewer.elems, a ∈ aliases.elems) : Unmixed fewer rawFp attrs :=
  fun a ha => h a (hfewer a ha)

theorem Entered.unmixed {m : BucketMap K A} (h : Entered m) (hok : AliasOk cfg inUse m.aliases)
    {e : CanonicalEntry K} (he : e ∈ m.canonical.elems) {key : AliasKey K}
    (hkey : key ∈ e.aliases) : Unmixed m.aliases key.rawFp key.rawAttrs := by
  obtain ⟨entered, hentered, rfl⟩ := h e he key hkey
  intro a ha hfp
  rw [aliasEntry_eq_of_fp_eq hok ha hentered hfp]

omit [LinearOrder K] in
theorem mem_of_mem_dropAlias {aliases : HashTable (AliasEntry K)} {key : AliasKey K}
    {a : AliasEntry K} (ha : a ∈ (dropAlias cfg aliases key).elems) : a ∈ aliases.elems :=
  (List.eraseP_sublist.map Prod.snd).mem ha

omit [LinearOrder K] in
theorem mem_of_mem_foldl_dropAlias {aliases : HashTable (AliasEntry K)} {keys : List (AliasKey K)}
    {a : AliasEntry K} (ha : a ∈ (keys.foldl (dropAlias cfg) aliases).elems) :
    a ∈ aliases.elems := by
  induction keys generalizing aliases with
  | nil => exact ha
  | cons key rest ih => exact mem_of_mem_dropAlias (ih ha)

theorem dropAliasChecked_eq_ok {aliases : HashTable (AliasEntry K)} {key : AliasKey K}
    (h : Unmixed aliases key.rawFp key.rawAttrs) :
    dropAliasChecked cfg aliases key = .ok (dropAlias cfg aliases key) := by
  rw [dropAliasChecked, findDupChecked_eq_ok h]
  cases hfind : aliases.find (key.rawFp.tableHash cfg.hasher)
      (fun e => e.key.matchesRaw key.rawFp key.rawAttrs) with
  | some found => rfl
  | none =>
      have hkept : dropAlias cfg aliases key = aliases := HashTable.remove_of_find_eq_none hfind
      rw [hkept]
      rfl

theorem foldlM_dropAliasChecked {aliases : HashTable (AliasEntry K)} {keys : List (AliasKey K)}
    (h : ∀ key ∈ keys, Unmixed aliases key.rawFp key.rawAttrs) :
    keys.foldlM (dropAliasChecked cfg) aliases = .ok (keys.foldl (dropAlias cfg) aliases) := by
  induction keys generalizing aliases with
  | nil => rfl
  | cons key rest ih =>
      have hrest : ∀ later ∈ rest,
          Unmixed (dropAlias cfg aliases key) later.rawFp later.rawAttrs := fun later hlater =>
        (h later (List.mem_cons_of_mem key hlater)).mono fun a ha => mem_of_mem_dropAlias ha
      rw [List.foldlM_cons, dropAliasChecked_eq_ok (h key List.mem_cons_self), List.foldl_cons]
      exact ih hrest

section Visit

variable [Record A T V]

omit [Record A T V] in
theorem visitEntryChecked_eq_ok {σ : Type} {cb : σ → CanonicalEntry K → A → Bool × σ}
    {cells : BucketRef → A} {visit : Visit σ K} {e : CanonicalEntry K}
    (h : ∀ key ∈ e.aliases, Unmixed visit.aliases key.rawFp key.rawAttrs) :
    visitEntryChecked cfg cb cells visit e = .ok (visitEntry cfg cb cells visit e) := by
  rw [visitEntryChecked, visitEntry, foldlM_dropAliasChecked h]
  split
  · rfl
  · rfl

/-- A visit does not fail: an entry lists an alias as it is in the alias table. -/
theorem visitBucketChecked_eq_ok {m : BucketMap K A} (hok : AliasOk cfg inUse m.aliases)
    (hentered : Entered m) {σ : Type} (cb : σ → CanonicalEntry K → A → Bool × σ) (state : σ) :
    m.visitBucketChecked cfg cb state = .ok (m.visitBucket cfg cb state) := by
  have hwalk : m.canonical.retainM (visitEntryChecked cfg cb m.cells)
      { state := state, aliases := m.aliases, evicted := 0 } =
      .ok (m.canonical.retain (visitEntry cfg cb m.cells)
        { state := state, aliases := m.aliases, evicted := 0 }) := by
    refine HashTable.retainM_eq
      (fun visit : Visit σ K => ∀ a ∈ visit.aliases.elems, a ∈ m.aliases.elems)
      (fun e he visit hfewer => ⟨?_, ?_⟩) fun a ha => ha
    · exact visitEntryChecked_eq_ok fun key hkey => (hentered.unmixed hok he hkey).mono hfewer
    · rw [visitEntry]
      split
      · exact hfewer
      · exact fun a ha => hfewer a (mem_of_mem_foldl_dropAlias ha)
  rw [visitBucketChecked, hwalk, visitBucket]
  simp only [bind, Except.bind]
  split
  · rfl
  · rfl

end Visit

/-! ## One call -/

section Scalar

variable [Scalar A T]

theorem writeChecked_spec (hfree : CollisionFree cfg inUse) {m : BucketMap K A}
    (hinv : Inv cfg inUse m) {attrs : List K} (hattrs : attrs ∈ inUse) (f : A → A) :
    FailsUnless (Unambiguous cfg m attrs) (m.writeChecked cfg attrs f)
      (if attrs.isEmpty then m.writeNoAttr f else m.updateBucket cfg attrs f) := by
  cases attrs with
  | nil => exact FailsUnless.of_eq_ok unambiguous_nil rfl
  | cons kv rest => exact (getOrCreateChecked_spec hfree hinv hattrs).bind rfl

theorem resetChecked_spec (hfree : CollisionFree cfg inUse) {m : BucketMap K A}
    (hinv : Inv cfg inUse m) {attrs : List K} (hattrs : attrs ∈ inUse) :
    FailsUnless (Unambiguous cfg m attrs) (m.resetChecked cfg attrs) (m.reset cfg attrs) := by
  cases attrs with
  | nil => exact FailsUnless.of_eq_ok unambiguous_nil rfl
  | cons kv rest => exact (getOrCreateChecked_spec hfree hinv hattrs).bind rfl

theorem getChecked_spec (hfree : CollisionFree cfg inUse) {m : BucketMap K A}
    (hinv : Inv cfg inUse m) {attrs : List K} (hattrs : attrs ∈ inUse) :
    FailsUnless (Unambiguous cfg m attrs) (m.getChecked cfg attrs) (m.get cfg attrs) := by
  cases attrs with
  | nil => exact FailsUnless.of_eq_ok unambiguous_nil rfl
  | cons kv rest =>
      refine (getBucketChecked_spec hfree hinv hattrs).bind ?_
      rw [get, if_neg (by simp)]
      cases m.getBucket cfg (kv :: rest) <;> rfl

/-- A call fails exactly if a list it looks up may find the alias of another, and then by
the first of the two assertions. -/
theorem callChecked_spec (hfree : CollisionFree cfg inUse) {m : BucketMap K A}
    (hinv : Inv cfg inUse m) (hentered : Entered m) (call : MapCall K T)
    (hlists : ∀ attrs ∈ call.lists, attrs ∈ inUse) :
    FailsUnless (∀ attrs ∈ call.lists, Unambiguous cfg m attrs) (m.callChecked cfg call)
      (m.call cfg call) := by
  have hwrite : ∀ attrs ∈ inUse, ∀ f : A → A,
      FailsUnless (∀ list ∈ [attrs], Unambiguous cfg m list)
        (do return (← m.writeChecked cfg attrs f, .scalar .unit) :
          Except Assertion (BucketMap K A × MapOut K T))
        (if attrs.isEmpty then m.writeNoAttr f else m.updateBucket cfg attrs f,
          .scalar .unit) := by
    intro attrs hattrs f
    rw [List.forall_mem_singleton]
    exact (writeChecked_spec hfree hinv hattrs f).bind rfl
  have hnoList : ∀ attrs ∈ ([] : List (List K)), Unambiguous cfg m attrs := by simp
  cases call with
  | get attrs =>
      rw [MapCall.lists, List.forall_mem_singleton]
      exact (getChecked_spec hfree hinv (hlists attrs List.mem_cons_self)).bind rfl
  | scalar op =>
      cases op with
      | add value attrs => exact hwrite attrs (hlists attrs List.mem_cons_self) _
      | sub value attrs => exact hwrite attrs (hlists attrs List.mem_cons_self) _
      | set value attrs => exact hwrite attrs (hlists attrs List.mem_cons_self) _
      | reset attrs =>
          rw [MapCall.lists, ScalarOp.lists, List.forall_mem_singleton]
          exact (resetChecked_spec hfree hinv (hlists attrs List.mem_cons_self)).bind rfl
      | clear => exact FailsUnless.of_eq_ok hnoList rfl
      | take => exact FailsUnless.of_eq_ok hnoList rfl
      | visitBucket cb =>
          refine FailsUnless.of_eq_ok hnoList ?_
          rw [callChecked, visitBucketChecked_eq_ok hinv.dup hentered]
          rfl

end Scalar

end BucketMap

end Ohnotel
