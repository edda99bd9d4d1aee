/-
# When a debug assertion fails

A fingerprint does not depend on the order of a list, but the assertion that looks at the
lists behind equal fingerprints compares them as they are written.  It fails without any
collision as soon as two reorderings of one list are used that are not strictly sorted.
If no list has two such orderings in use at a time, no assertion fails.
-/

import Ohnotel.BucketMap.Assertions

namespace Ohnotel

open Foundation Atomic

/-- What a call did to lookups. -/
def MapCall.event {K T : Type} : MapCall K T → MapOut K T → LookupEvent K
  | .scalar op, .scalar out => op.event out
  | .scalar _, .got _ | .get _, _ => .unchanged

/-- The attribute lists that occur in a run. -/
def MapCall.listsOf {K T : Type} (calls : List (MapCall K T)) : Set (List K) :=
  {attrs | attrs ∈ calls.flatMap MapCall.lists}

/-! ## Which aliases are listed and entered -/

namespace BucketMap

variable {K A T V : Type} [LinearOrder K] {cfg : Config K A} {inUse : Set (List K)}

/-- Entering a list under its set lists no alias but the one that is brought. -/
theorem mem_aliases_insertCanon {m : BucketMap K A} {normalized : List K} {hash : UInt64}
    {aliasKey : Option (AliasKey K)} {e : CanonicalEntry K}
    (he : e ∈ (m.insertCanon cfg normalized hash aliasKey).1.canonical.elems)
    {key : AliasKey K} (hkey : key ∈ e.aliases) :
    (∃ old ∈ m.canonical.elems, key ∈ old.aliases) ∨ key ∈ aliasKey := by
  rw [insertCanon] at he
  split at he
  · rename_i found hfind
    rcases HashTable.mem_of_mem_elems_modify hfind he with hold | rfl
    · exact Or.inl ⟨e, mem_elems_reserve.mp hold, hkey⟩
    · rcases List.mem_append.mp hkey with hlisted | hbrought
      · exact Or.inl ⟨found, mem_elems_reserve.mp (HashTable.find_sound hfind).1, hlisted⟩
      · exact Or.inr (Option.mem_toList.mp hbrought)
  · have hcases := (HashTable.elems_insert_perm _ _ _ _).mem_iff.mp he
    rcases List.mem_cons.mp hcases with rfl | hold
    · exact Or.inr (Option.mem_toList.mp hkey)
    · exact Or.inl ⟨e, mem_elems_reserve.mp hold, hkey⟩

/-- Obtaining a bucket enters the alias that it lists, and no other. -/
theorem entered_getOrCreate (hfree : CollisionFree cfg inUse) {m : BucketMap K A}
    (hinv : Inv cfg inUse m) (hentered : Entered m) {attrs : List K} (hattrs : attrs ∈ inUse) :
    Entered (m.getOrCreate cfg attrs).1 ∧
      ∀ a ∈ (m.getOrCreate cfg attrs).1.aliases.elems,
        a ∈ m.aliases.elems ∨ a.key.rawAttrs = attrs := by
  rw [getOrCreate]
  cases hget : m.getBucket cfg attrs with
  | ok bucket => exact ⟨hentered, fun a ha => Or.inl ha⟩
  | error hashes =>
      have habsent := not_hasAlias_of_getBucket_error hfree hinv hattrs hget
      obtain ⟨hne, rfl⟩ := getBucket_error hget
      have hinserted := insertCanon_aliasOf_spec hinv hne hattrs
      simp only [prepare_eq, insertPrepared]
      cases hkey : aliasOf cfg attrs with
      | none =>
          rw [hkey] at hinserted
          have hlisted : Entered (m.insertCanon cfg (normalize attrs)
              (canonHash cfg (normalize attrs)) none).1 := by
            intro e he key hmem
            obtain ⟨old, hold, hlisted⟩ | hbrought := mem_aliases_insertCanon he hmem
            · rw [hinserted.aliases]
              exact hentered old hold key hlisted
            · simp at hbrought
          exact ⟨hlisted, fun a ha => Or.inl (hinserted.aliases ▸ ha)⟩
      | some key =>
          rw [hkey] at hinserted
          obtain ⟨hok, _⟩ := aliasOf_ok hattrs key hkey
          obtain ⟨_, hfp, hraw⟩ := eq_of_aliasOf_eq_some hkey
          have hstill : ¬ HasAlias (m.insertCanon cfg (normalize attrs)
              (canonHash cfg (normalize attrs)) (some key)).1 key.rawFp := by
            rwa [HasAlias, hinserted.aliases, hfp]
          obtain ⟨_, hmem⟩ := insertDup_spec hinserted.inv.dup hok
            (m.insertCanon cfg (normalize attrs) (canonHash cfg (normalize attrs)) (some key)).2
          rw [hinserted.aliases] at hmem
          refine ⟨fun e he listed hlisted => ?_, fun a ha => ?_⟩
          · rw [insertDup_canonical] at he
            obtain ⟨old, hold, hkept⟩ | hbrought := mem_aliases_insertCanon he hlisted
            · obtain ⟨a, ha, hsame⟩ := hentered old hold listed hkept
              exact ⟨a, (hmem a).mpr (Or.inl ha), hsame⟩
            · exact ⟨_, (hmem _).mpr (Or.inr ⟨rfl, hstill⟩), Option.some.inj hbrought⟩
          · rcases (hmem a).mp ha with hold | ⟨rfl, _⟩
            · exact Or.inl hold
            · exact Or.inr hraw

/-- A visit takes out of the alias table what the entries it evicts list, and no more. -/
theorem entered_visitBucket [Record A T V] {m : BucketMap K A} (hinv : Inv cfg inUse m)
    (hentered : Entered m) (cb : Callback K V) :
    Entered (m.visitBucket cfg (logCalls cb) []).1 ∧
      ∀ a ∈ (m.visitBucket cfg (logCalls cb) []).1.aliases.elems, a ∈ m.aliases.elems := by
  have htables : (m.visitBucket cfg (logCalls cb) []).1.canonical =
        (m.afterWalk cfg (logCalls cb) []).canonical ∧
      (m.visitBucket cfg (logCalls cb) []).1.aliases =
        (m.afterWalk cfg (logCalls cb) []).aliases := by
    obtain ⟨hrefuses, hkeeps⟩ := visitBucket_fst cfg hinv.buckets.noAttr_attrs cb
    by_cases hnoAttr : m.RefusesNoAttr cb
    · rw [hrefuses hnoAttr]
      exact ⟨rfl, rfl⟩
    · rw [hkeeps hnoAttr]
      exact ⟨rfl, rfl⟩
  obtain ⟨hcanonical, haliases, _⟩ := afterWalk_tables cfg m (logCalls cb) []
  obtain ⟨_, hmem⟩ :=
    dropAliases_spec hinv.dup (answered false (m.walkVerdicts (logCalls cb) []).1)
  rw [← haliases, ← htables.2] at hmem
  refine ⟨fun e he key hkey => ?_, fun a ha => ((hmem a).mp ha).1⟩
  rw [htables.1, hcanonical, mem_answered] at he
  have heOld := (mem_elems_iff_verdict (logCalls cb) []).mpr ⟨true, he⟩
  obtain ⟨a, ha, rfl⟩ := hentered e heOld key hkey
  refine ⟨a, (hmem a).mpr ⟨ha, fun evicted hevicted other hother hfp => ?_⟩, rfl⟩
  -- An alias that an evicted entry lists too would belong to the sets of both.
  have hevictedOld := (mem_elems_iff_verdict (logCalls cb) []).mpr
    ⟨false, mem_answered.mp hevicted⟩
  obtain ⟨entered, hfound, rfl⟩ := hentered evicted hevictedOld other hother
  obtain rfl := aliasEntry_eq_of_fp_eq hinv.dup ha hfound hfp
  have hattrs := ((hinv.canon.listed e heOld _ hkey).2).symm.trans
    (hinv.canon.listed evicted hevictedOld _ hother).2
  obtain rfl := entry_eq_of_attrs_eq hinv.canon.nodup heOld hevictedOld hattrs
  exact verdict_unique hinv he (mem_answered.mp hevicted)

end BucketMap

/-! ## Runs -/

/-- A map in a build with assertions, and the lists written so far whose sets were not
drained or evicted since. -/
structure Debugged (K A : Type) where
  map : BucketMap K A
  written : List (List K)

/-- No other ordering of the list than itself was written, strictly sorted ones apart. -/
def OnlyOrdering {K : Type} [LinearOrder K] (written : List (List K)) (attrs : List K) : Prop :=
  ¬ attrs.Pairwise (· < ·) →
    ∀ other ∈ written, other.Perm attrs → ¬ other.Pairwise (· < ·) → other = attrs

instance {K : Type} [LinearOrder K] (written : List (List K)) (attrs : List K) :
    Decidable (OnlyOrdering written attrs) :=
  inferInstanceAs (Decidable (¬ attrs.Pairwise (· < ·) →
    ∀ other ∈ written, other.Perm attrs → ¬ other.Pairwise (· < ·) → other = attrs))

section OnlyOrdering

variable {K : Type} [LinearOrder K] {written fewer : List (List K)} {attrs list : List K}

theorem OnlyOrdering.mono (h : OnlyOrdering written attrs)
    (hfewer : ∀ other ∈ fewer, other ∈ written) : OnlyOrdering fewer attrs :=
  fun hnot other hother => h hnot other (hfewer other hother)

/-- One more list is written, in the only ordering that is in use. -/
theorem OnlyOrdering.cons (h : ∀ list ∈ written, OnlyOrdering written list)
    (honly : OnlyOrdering written attrs) (hlist : list ∈ attrs :: written) :
    OnlyOrdering (attrs :: written) list := by
  intro hnot other hother hperm hnotOther
  rcases List.mem_cons.mp hlist with rfl | hold
  · rcases List.mem_cons.mp hother with rfl | hotherOld
    · rfl
    · exact honly hnot other hotherOld hperm hnotOther
  · rcases List.mem_cons.mp hother with rfl | hotherOld
    · exact (honly hnotOther list hold hperm.symm hnot).symm
    · exact h list hold hnot other hotherOld hperm hnotOther

end OnlyOrdering

namespace Debugged

variable {K A T : Type}

def new (cfg : Config K A) : Debugged K A := ⟨BucketMap.withStorage cfg, []⟩

variable [LinearOrder K]

/-- The lists of a call are in the only ordering that is in use. -/
def OneOrdering (s : Debugged K A) (call : MapCall K T) : Prop :=
  ∀ attrs ∈ call.lists, OnlyOrdering s.written attrs

instance (s : Debugged K A) (call : MapCall K T) : Decidable (s.OneOrdering call) :=
  inferInstanceAs (Decidable (∀ attrs ∈ call.lists, OnlyOrdering s.written attrs))

variable [Scalar A T] (cfg : Config K A)

/-- A failing assertion ends the run. -/
def step : StepFn (Debugged K A) (MapCall K T) := fun s call =>
  match s.map.callChecked cfg call with
  | .ok (map, out) => some { map := map, written := spell s.written (call.event out) }
  | .error _ => none

/-- The call meets both debug assertions. -/
def AssertionsHold (s : Debugged K A) (call : MapCall K T) : Prop :=
  ∀ failed, s.map.callChecked cfg call ≠ .error failed

/-- What holds of the map and of the lists written in any run without failure. -/
structure Guarded (inUse : Set (List K)) (s : Debugged K A) : Prop where
  inv : BucketMap.Inv cfg inUse s.map
  spells : BucketMap.Spells cfg inUse s.map s.written
  entered : BucketMap.Entered s.map
  aliases : ∀ a ∈ s.map.aliases.elems, a.key.rawAttrs ∈ s.written
  written : ∀ attrs ∈ s.written, OnlyOrdering s.written attrs

theorem guarded_new (inUse : Set (List K)) : Guarded cfg inUse (new cfg) where
  inv := BucketMap.inv_withStorage cfg inUse
  spells := BucketMap.spells_withStorage cfg inUse
  entered e he := by simp [new, BucketMap.withStorage] at he
  aliases a ha := by simp [new, BucketMap.withStorage] at ha
  written attrs hattrs := by simp [new] at hattrs

section Step

variable {cfg} {inUse : Set (List K)} {s s' : Debugged K A}

/-- The alias of a list is ambiguous if another ordering of the list was written. -/
theorem Guarded.unambiguous_iff (hfree : CollisionFree cfg inUse) (h : Guarded cfg inUse s)
    {attrs : List K} (hattrs : attrs ∈ inUse) :
    BucketMap.Unambiguous cfg s.map attrs ↔ OnlyOrdering s.written attrs := by
  constructor
  · intro hunambiguous hnot other hother hperm hnotOther
    obtain ⟨a, ha, hfp⟩ := (h.spells.hasAlias _).mpr
      ⟨other, hother, rfl, fun hsorted => hnotOther (normalize_eq_self_iff.mp hsorted)⟩
    rw [AttrFingerprint.commutativeHash_eq_of_perm _ hperm] at hfp
    have hraw := hunambiguous (fun hsorted => hnot (normalize_eq_self_iff.mp hsorted)) a ha hfp
    exact h.written attrs (hraw ▸ h.aliases a ha) hnot other hother hperm hnotOther
  · intro honly hne a ha hfp
    have hkey := h.inv.dup.key_ok a ha
    have hperm := hfree _ hkey.mem _ hattrs (hkey.fp_eq.symm.trans hfp)
    exact honly (fun hsorted => hne (normalize_eq_self_iff.mpr hsorted)) _ (h.aliases a ha) hperm
      fun hsorted => hkey.not_canonical (normalize_eq_self_iff.mpr hsorted)

/-- A write, whatever it does to the cell: the branch for the empty list touches neither
table. -/
theorem Guarded.write (hfree : CollisionFree cfg inUse) (h : Guarded cfg inUse s)
    {attrs : List K} (hattrs : attrs ∈ inUse) (honly : OnlyOrdering s.written attrs)
    {noAttr : BucketMap K A} (hinvNoAttr : BucketMap.Inv cfg inUse noAttr)
    (hcanonical : noAttr.canonical = s.map.canonical) (haliases : noAttr.aliases = s.map.aliases)
    (f : A → A) :
    Guarded cfg inUse
      ⟨if attrs.isEmpty then noAttr else s.map.updateBucket cfg attrs f,
        spell s.written (.wrote attrs)⟩ := by
  obtain ⟨hinv, hspells⟩ := BucketMap.spells_write hfree h.inv h.spells hattrs hinvNoAttr
    hcanonical haliases f
  cases attrs with
  | nil =>
      have hentered : BucketMap.Entered noAttr := by
        rw [BucketMap.Entered, hcanonical, haliases]
        exact h.entered
      exact ⟨hinv, hspells, hentered, fun a ha => h.aliases a (haliases ▸ ha), h.written⟩
  | cons kv rest =>
      obtain ⟨hentered, hmem⟩ := BucketMap.entered_getOrCreate hfree h.inv h.entered hattrs
      refine ⟨hinv, hspells, hentered, fun a ha => ?_, fun list hlist => honly.cons h.written hlist⟩
      rcases hmem a ha with hold | hraw
      · exact List.mem_cons_of_mem _ (h.aliases a hold)
      · rw [hraw]
        exact List.mem_cons_self

theorem guarded_of_drained {m : BucketMap K A}
    (hdrained : BucketMap.Drained cfg inUse s.map m) : Guarded cfg inUse ⟨m, []⟩ where
  inv := hdrained.inv
  spells := BucketMap.Spells.drained hdrained
  entered e he := by simp [hdrained.canonical] at he
  aliases a ha := absurd ⟨a, ha, rfl⟩ (hdrained.hasAlias a.key.rawFp)
  written attrs hattrs := by simp at hattrs

theorem Guarded.visitBucket (hfree : CollisionFree cfg inUse) (h : Guarded cfg inUse s)
    (cb : Callback K T) :
    Guarded cfg inUse ⟨(s.map.visitBucket cfg (logCalls cb) []).1,
      s.written.filter fun attrs =>
        normalize attrs ∉ refusedLists (s.map.visitBucket cfg (logCalls cb) []).2⟩ := by
  have hvisited := BucketMap.visitBucket_spec hfree h.inv cb
  obtain ⟨hentered, hfewer⟩ := BucketMap.entered_visitBucket h.inv h.entered cb
  refine ⟨hvisited.inv, BucketMap.Spells.evicted hfree h.inv h.spells hvisited, hentered,
    fun a ha => ?_, fun attrs hattrs => ?_⟩
  · obtain ⟨kept, hkept, hfp, hnot⟩ := (hvisited.hasAlias a.key.rawFp).mp ⟨a, ha, rfl⟩
    obtain rfl := BucketMap.aliasEntry_eq_of_fp_eq h.inv.dup hkept (hfewer a ha) hfp
    exact List.mem_filter.mpr ⟨h.aliases _ hkept, by simpa [mem_refusedLists] using hnot⟩
  · exact (h.written attrs (List.mem_filter.mp hattrs).1).mono
      fun other hother => (List.mem_filter.mp hother).1

/-- A call fails exactly if another ordering of its list is in use. -/
theorem Guarded.callChecked_spec (hfree : CollisionFree cfg inUse) (h : Guarded cfg inUse s)
    (call : MapCall K T) (hlists : ∀ attrs ∈ call.lists, attrs ∈ inUse) :
    BucketMap.FailsUnless (s.OneOrdering call) (s.map.callChecked cfg call)
      (s.map.call cfg call) := by
  have hspec := BucketMap.callChecked_spec hfree h.inv h.entered call hlists
  have hiff : (∀ attrs ∈ call.lists, BucketMap.Unambiguous cfg s.map attrs) ↔
      s.OneOrdering call :=
    forall₂_congr fun attrs hattrs => h.unambiguous_iff hfree (hlists attrs hattrs)
  rwa [hiff] at hspec

theorem Guarded.meets_iff (hfree : CollisionFree cfg inUse) (h : Guarded cfg inUse s)
    (call : MapCall K T) (hlists : ∀ attrs ∈ call.lists, attrs ∈ inUse) :
    s.AssertionsHold cfg call ↔ s.OneOrdering call := by
  have hspec := h.callChecked_spec hfree call hlists
  constructor
  · intro hhold
    by_contra hnot
    exact hhold _ (hspec.error hnot)
  · intro hone failed hfailed
    rw [hspec.ok hone] at hfailed
    cases hfailed

/-- A call that does not fail does what it does without assertions. -/
theorem Guarded.step_eq_some (hfree : CollisionFree cfg inUse) (h : Guarded cfg inUse s)
    {call : MapCall K T} (hlists : ∀ attrs ∈ call.lists, attrs ∈ inUse)
    (hstep : Debugged.step cfg s call = some s') :
    s.OneOrdering call ∧
      s' =
        { map := (s.map.call cfg call).1
          written := spell s.written (call.event (s.map.call cfg call).2) } := by
  have hspec := h.callChecked_spec hfree call hlists
  rw [Debugged.step] at hstep
  by_cases hone : s.OneOrdering call
  · rw [hspec.ok hone] at hstep
    exact ⟨hone, (Option.some.inj hstep).symm⟩
  · rw [hspec.error hone] at hstep
    cases hstep

theorem Guarded.step (hfree : CollisionFree cfg inUse) (h : Guarded cfg inUse s)
    {call : MapCall K T} (hlists : ∀ attrs ∈ call.lists, attrs ∈ inUse)
    (hstep : Debugged.step cfg s call = some s') : Guarded cfg inUse s' := by
  obtain ⟨hone, rfl⟩ := h.step_eq_some hfree hlists hstep
  cases call with
  | get attrs => exact h
  | scalar op =>
      have hwrite : ∀ attrs ∈ inUse, OnlyOrdering s.written attrs → ∀ f : A → A,
          Guarded cfg inUse
            ⟨if attrs.isEmpty then s.map.writeNoAttr f else s.map.updateBucket cfg attrs f,
              spell s.written (.wrote attrs)⟩ := fun attrs hattrs honly f =>
        h.write hfree hattrs honly (BucketMap.writeNoAttr_spec h.inv f).1 rfl rfl f
      cases op with
      | add value attrs =>
          exact hwrite attrs (hlists attrs List.mem_cons_self) (hone attrs List.mem_cons_self) _
      | sub value attrs =>
          exact hwrite attrs (hlists attrs List.mem_cons_self) (hone attrs List.mem_cons_self) _
      | set value attrs =>
          exact hwrite attrs (hlists attrs List.mem_cons_self) (hone attrs List.mem_cons_self) _
      | reset attrs =>
          show Guarded cfg inUse ⟨(s.map.reset cfg attrs).1, spell s.written (.wrote attrs)⟩
          rw [BucketMap.reset_fst]
          exact h.write hfree (hlists attrs List.mem_cons_self) (hone attrs List.mem_cons_self)
            (h.inv.modifyCell _ _) rfl rfl _
      | clear => exact guarded_of_drained (BucketMap.clear_spec h.inv)
      | take => exact guarded_of_drained (BucketMap.take_spec h.inv).1
      | visitBucket cb => exact h.visitBucket hfree cb

end Step

/-- In every run without hash collisions, all calls meet both debug assertions if and only
if every call uses the only ordering of its list that is in use; and the second assertion
is always met. -/
theorem assertionsHold_iff {calls : List (MapCall K T)}
    (hfree : CollisionFree cfg (MapCall.listsOf calls)) :
    ((step cfg).Along (AssertionsHold cfg) (new cfg) calls ↔
        (step cfg).Along OneOrdering (new cfg) calls) ∧
      (step cfg).Along (fun s call => s.map.callChecked cfg call ≠ .error .insertingADup)
        (new cfg) calls := by
  have hlists : ∀ call ∈ calls, ∀ attrs ∈ call.lists, attrs ∈ MapCall.listsOf calls :=
    fun call hcall attrs hattrs => List.mem_flatMap.mpr ⟨call, hcall, hattrs⟩
  have hstart := guarded_new cfg (MapCall.listsOf calls)
  constructor
  · exact StepFn.along_congr (Guarded cfg (MapCall.listsOf calls))
      (fun call hcall s h => h.meets_iff hfree call (hlists call hcall))
      (fun call hcall s s' h _ hstep => h.step hfree (hlists call hcall) hstep) hstart
  · refine (StepFn.along_congr (Guarded cfg (MapCall.listsOf calls))
      (fun call hcall s h => ?_)
      (fun call hcall s s' h _ hstep => h.step hfree (hlists call hcall) hstep)
      hstart).mp (StepFn.along_true _ calls)
    have hspec := h.callChecked_spec hfree call (hlists call hcall)
    refine iff_of_true trivial fun hfailed => ?_
    by_cases hone : s.OneOrdering call
    · simp [hspec.ok hone] at hfailed
    · simp [hspec.error hone] at hfailed

end Debugged

/-! ## Two orderings of one list -/

def counting : Config Nat UInt64 :=
  Config.withHasher UInt64 ⟨UInt64.ofNat, AttrFingerprint.sum⟩ .stack

/-- One list in two orderings, neither of them sorted. -/
def reordered : List (MapCall Nat UInt64) :=
  [.scalar (.add 1 [2, 1, 3]), .scalar (.add 1 [3, 1, 2])]

theorem collisionFree_reordered : CollisionFree counting (MapCall.listsOf reordered) := by
  refine CollisionFree.of_perm [1, 2, 3] fun attrs hattrs => ?_
  have hlists : attrs = [2, 1, 3] ∨ attrs = [3, 1, 2] := by
    simpa [MapCall.listsOf, reordered, MapCall.lists, ScalarOp.lists] using hattrs
  rcases hlists with rfl | rfl
  · decide
  · decide

/-- The first ordering twice, and the sorted one. -/
def respelled : List (MapCall Nat UInt64) :=
  [.scalar (.add 1 [2, 1, 3]), .scalar (.add 1 [2, 1, 3]), .scalar (.add 1 [1, 2, 3])]

theorem collisionFree_respelled : CollisionFree counting (MapCall.listsOf respelled) := by
  refine CollisionFree.of_perm [1, 2, 3] fun attrs hattrs => ?_
  have hlists : attrs = [2, 1, 3] ∨ attrs = [1, 2, 3] := by
    simpa [MapCall.listsOf, respelled, MapCall.lists, ScalarOp.lists] using hattrs
  rcases hlists with rfl | rfl
  · decide
  · decide

theorem assertionsHold_iff_reordered :
    (((Debugged.step counting).Along (Debugged.AssertionsHold counting) (Debugged.new counting)
        reordered ↔
        (Debugged.step counting).Along Debugged.OneOrdering (Debugged.new counting) reordered) ∧
      (Debugged.step counting).Along
        (fun s call => s.map.callChecked counting call ≠ .error .insertingADup)
        (Debugged.new counting) reordered) ∧
    (Debugged.step counting).Along (Debugged.AssertionsHold counting) (Debugged.new counting)
      respelled :=
  ⟨Debugged.assertionsHold_iff counting collisionFree_reordered,
    (Debugged.assertionsHold_iff counting collisionFree_respelled).1.mpr (by decide)⟩

/-- The second ordering finds the alias of the first, and fails. -/
theorem not_assertionsHold_reordered :
    CollisionFree counting (MapCall.listsOf reordered) ∧
      ¬ (Debugged.step counting).Along (Debugged.AssertionsHold counting) (Debugged.new counting)
        reordered := by
  refine ⟨collisionFree_reordered, fun halong => ?_⟩
  obtain ⟨_, halong⟩ := halong
  obtain ⟨hhold, _⟩ := halong _ rfl
  exact hhold .aliasFingerprintCollision rfl

end Ohnotel
