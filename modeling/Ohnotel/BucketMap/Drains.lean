/-
# What draining a bucket map does

`clear` and `take` empty both tables at once.  A visit walks the canonical table
and takes out, entry by entry, what its callback refuses, together with the aliases
the entry lists.  The order of the walk is the table's own, so what is said about a
visit is said about its verdicts: the callback's answers in the order it gave them.
-/

import Ohnotel.BucketMap.Operations
import Ohnotel.BucketMap.Steps

namespace Ohnotel

open Foundation Atomic

namespace BucketMap

variable {K A T V : Type} {cfg : Config K A} {inUse : Set (List K)}

/-! ## Emptying both tables -/

section Empty

variable [LinearOrder K] [Record A T V]

theorem clearNoAttr_spec {m : BucketMap K A} (hinv : Inv cfg inUse m) :
    Inv cfg inUse m.clearNoAttr ∧ m.clearNoAttr.valueOf = m.valueOf ∧
      m.clearNoAttr.noAttrCell = Record.clear m.noAttrCell := by
  obtain ⟨hvalue, hcell⟩ := valueOf_modifyCell_noAttr hinv Record.clear
  exact ⟨(hinv.modifyCell m.noAttrEntry.bucket Record.clear).withTouched false, hvalue, hcell⟩

omit [Record A T V] in
/-- Forgetting both tables leaves a map without buckets, whatever the counter. -/
theorem inv_emptied {m : BucketMap K A} (hinv : Inv cfg inUse m) (count : UInt64) :
    Inv cfg inUse
      { m with canonical := HashTable.empty, aliases := HashTable.empty, count := count } where
  canon := (inv_withStorage cfg inUse).canon
  dup := (inv_withStorage cfg inUse).dup
  buckets := hinv.buckets.of_subperm List.nil_subperm rfl rfl
  backed := by simp

/-- What a drain of the whole map leaves behind. -/
structure Drained (cfg : Config K A) (inUse : Set (List K)) (m m' : BucketMap K A) : Prop where
  inv : Inv cfg inUse m'
  valueOf : m'.valueOf = fun _ => none
  noAttrCell : m'.noAttrCell = Record.clear m.noAttrCell
  noAttrTouched : m'.noAttrTouched = false
  hasAlias : ∀ fp, ¬ HasAlias m' fp
  canonical : m'.canonical.elems = []
  fresh : m'.fresh = m.fresh

/-- The two ways a map is emptied differ only in what becomes of the counter. -/
theorem drained_emptied {m : BucketMap K A} (hinv : Inv cfg inUse m) (count : UInt64) :
    Drained cfg inUse m
      { m with
        canonical := HashTable.empty, aliases := HashTable.empty, count := count }.clearNoAttr := by
  obtain ⟨hinv', hvalue, hcell⟩ := clearNoAttr_spec (inv_emptied hinv count)
  exact
    { inv := hinv'
      valueOf := by
        rw [hvalue]
        rfl
      noAttrCell := hcell
      noAttrTouched := rfl
      hasAlias := fun fp ⟨a, ha, _⟩ => by simp [clearNoAttr, BucketMap.modifyCell] at ha
      canonical := rfl
      fresh := rfl }

theorem clear_spec {m : BucketMap K A} (hinv : Inv cfg inUse m) :
    Drained cfg inUse m m.clear :=
  drained_emptied hinv 0

theorem take_spec {m : BucketMap K A} (hinv : Inv cfg inUse m) :
    Drained cfg inUse m m.take.1 ∧ m.take.2.1 = m.canonical ∧
      m.take.2.2 = if m.noAttrTouched then some (Record.current m.noAttrCell) else none :=
  ⟨drained_emptied hinv m.count, rfl, rfl⟩

/-- The drained buckets are read as they were: the drain rewrote the bucket of the
empty list only. -/
theorem readTable_take {m : BucketMap K A} (hinv : Inv cfg inUse m) :
    m.take.1.readTable m.take.2.1 = m.readTable m.canonical := by
  apply List.map_congr_left
  intro e he
  have hcell : m.take.1.cells e.bucket = m.cells e.bucket :=
    Function.update_of_ne (hinv.buckets.ne_noAttr e he) _ _
  rw [hcell]

end Empty

/-! ## Walking the table -/

/-- The callback's answers over a list of entries, in order, and the state it is
left in. -/
def verdicts {σ : Type} (cb : σ → CanonicalEntry K → A → Bool × σ) (cells : BucketRef → A) :
    σ → List (CanonicalEntry K) → List (CanonicalEntry K × Bool) × σ
  | state, [] => ([], state)
  | state, e :: rest =>
      let answer := cb state e (cells e.bucket)
      let later := verdicts cb cells answer.2 rest
      ((e, answer.1) :: later.1, later.2)

/-- The entries that got the given answer. -/
def answered (keep : Bool) (answers : List (CanonicalEntry K × Bool)) :
    List (CanonicalEntry K) :=
  (answers.filter fun answer => answer.2 == keep).map Prod.fst

/-- Drop from the alias table every alias listed by one of the entries. -/
def dropAliases (cfg : Config K A) (entries : List (CanonicalEntry K))
    (aliases : HashTable (AliasEntry K)) : HashTable (AliasEntry K) :=
  entries.foldl (fun aliases e => e.aliases.foldl (dropAlias cfg) aliases) aliases

theorem verdicts_map_fst {σ : Type} (cb : σ → CanonicalEntry K → A → Bool × σ)
    (cells : BucketRef → A) (state : σ) (l : List (CanonicalEntry K)) :
    (verdicts cb cells state l).1.map Prod.fst = l := by
  induction l generalizing state with
  | nil => rfl
  | cons e rest ih => simp [verdicts, ih]

variable (cfg) in
/-- Walking the table with the closure of `visit_bucket` keeps the entries the
callback accepts and drops the aliases of the others. -/
theorem retainList_visitEntry {σ : Type} (cb : σ → CanonicalEntry K → A → Bool × σ)
    (cells : BucketRef → A) (visit : Visit σ K) (l : List (CanonicalEntry K)) :
    (retainList (visitEntry cfg cb cells) visit l).1 =
        answered true (verdicts cb cells visit.state l).1 ∧
      (retainList (visitEntry cfg cb cells) visit l).2.state =
        (verdicts cb cells visit.state l).2 ∧
      (retainList (visitEntry cfg cb cells) visit l).2.aliases =
        dropAliases cfg (answered false (verdicts cb cells visit.state l).1) visit.aliases ∧
      (retainList (visitEntry cfg cb cells) visit l).2.evicted =
        visit.evicted +
          UInt64.ofNat (answered false (verdicts cb cells visit.state l).1).length := by
  induction l generalizing visit with
  | nil => simp [retainList, verdicts, answered, dropAliases]
  | cons e rest ih =>
      cases hanswer : (cb visit.state e (cells e.bucket)).1 with
      | true =>
          obtain ⟨hkept, hstate, haliases, hevicted⟩ :=
            ih { visit with state := (cb visit.state e (cells e.bucket)).2 }
          simp only [retainList, visitEntry, verdicts, hanswer, if_true, answered,
            List.filter_cons, beq_self_eq_true, List.map_cons] at hkept hstate haliases hevicted ⊢
          exact ⟨by rw [hkept], hstate, haliases, hevicted⟩
      | false =>
          obtain ⟨hkept, hstate, haliases, hevicted⟩ :=
            ih { state := (cb visit.state e (cells e.bucket)).2
                 aliases := e.aliases.foldl (dropAlias cfg) visit.aliases
                 evicted := visit.evicted + 1 }
          simp only [retainList, visitEntry, verdicts, hanswer, Bool.false_eq_true, if_false,
            answered, List.filter_cons, beq_self_eq_true, if_true, List.map_cons,
            List.length_cons] at hkept hstate haliases hevicted ⊢
          refine ⟨by simpa using hkept, hstate, haliases, ?_⟩
          rw [hevicted, UInt64.add_assoc, UInt64.ofNat_add, UInt64.add_comm 1]
          rfl

section Drop

variable [LinearOrder K]

/-- Dropping one alias removes the entry with its fingerprint. -/
theorem dropAlias_spec {aliases : HashTable (AliasEntry K)} (hok : AliasOk cfg inUse aliases)
    (key : AliasKey K) :
    AliasOk cfg inUse (dropAlias cfg aliases key) ∧
      ∀ a, a ∈ (dropAlias cfg aliases key).elems ↔
        a ∈ aliases.elems ∧ a.key.rawFp ≠ key.rawFp := by
  unfold dropAlias AliasKey.tableHash
  cases hfind : aliases.find (key.rawFp.tableHash cfg.hasher)
      (fun x => x.key.matchesRaw key.rawFp key.rawAttrs) with
  | none =>
      rw [HashTable.remove_of_find_eq_none hfind]
      have hnone := (findDup_eq_none_iff hok).mp hfind
      exact ⟨hok, fun a => ⟨fun ha => ⟨ha, hnone a ha⟩, And.left⟩⟩
  | some found =>
      obtain ⟨_, hfp⟩ := (findDup_eq_some_iff hok).mp hfind
      have hperm := HashTable.elems_remove_perm hfind
      have hnodup := (hperm.map fun a => a.key.rawFp).nodup_iff.mp hok.nodup
      rw [List.map_cons, List.nodup_cons] at hnodup
      refine ⟨⟨HashTable.filedBy_remove hok.filed _ _, fun a ha => hok.key_ok a
        (hperm.mem_iff.mpr (List.mem_cons_of_mem _ ha)), hnodup.2⟩, fun a => ?_⟩
      rw [hperm.mem_iff, List.mem_cons]
      constructor
      · intro ha
        refine ⟨Or.inr ha, fun hsame => hnodup.1 ?_⟩
        exact List.mem_map.mpr ⟨a, ha, hsame.trans hfp.symm⟩
      · rintro ⟨rfl | ha, hne⟩
        · exact absurd hfp hne
        · exact ha

theorem foldl_dropAlias_spec {aliases : HashTable (AliasEntry K)}
    (hok : AliasOk cfg inUse aliases) (keys : List (AliasKey K)) :
    AliasOk cfg inUse (keys.foldl (dropAlias cfg) aliases) ∧
      ∀ a, a ∈ (keys.foldl (dropAlias cfg) aliases).elems ↔
        a ∈ aliases.elems ∧ ∀ key ∈ keys, a.key.rawFp ≠ key.rawFp := by
  induction keys generalizing aliases with
  | nil => exact ⟨hok, fun a => by simp⟩
  | cons key rest ih =>
      obtain ⟨hok', hmem⟩ := dropAlias_spec hok key
      obtain ⟨hok'', hmem'⟩ := ih hok'
      refine ⟨hok'', fun a => ?_⟩
      rw [List.foldl_cons, hmem', hmem]
      simp only [List.mem_cons, forall_eq_or_imp, and_assoc]

theorem dropAliases_spec {aliases : HashTable (AliasEntry K)} (hok : AliasOk cfg inUse aliases)
    (entries : List (CanonicalEntry K)) :
    AliasOk cfg inUse (dropAliases cfg entries aliases) ∧
      ∀ a, a ∈ (dropAliases cfg entries aliases).elems ↔
        a ∈ aliases.elems ∧ ∀ e ∈ entries, ∀ key ∈ e.aliases, a.key.rawFp ≠ key.rawFp := by
  unfold dropAliases
  induction entries generalizing aliases with
  | nil => exact ⟨hok, fun a => by simp⟩
  | cons e rest ih =>
      obtain ⟨hok', hmem⟩ := foldl_dropAlias_spec hok e.aliases
      obtain ⟨hok'', hmem'⟩ := ih hok'
      refine ⟨hok'', fun a => ?_⟩
      rw [List.foldl_cons, hmem', hmem]
      simp only [List.mem_cons, forall_eq_or_imp, and_assoc]

end Drop

/-! ## A visit -/

section Visit

variable [LinearOrder K] [Record A T V]

/-- The map as a visit leaves it before it turns to the bucket of the empty list. -/
def afterWalk (cfg : Config K A) {σ : Type} (m : BucketMap K A)
    (cb : σ → CanonicalEntry K → A → Bool × σ) (state : σ) : BucketMap K A :=
  let kept := m.canonical.retain (visitEntry cfg cb m.cells)
    { state := state, aliases := m.aliases, evicted := 0 }
  { m with
    canonical := kept.1
    aliases := kept.2.aliases
    count := if kept.2.evicted > 0 then m.count - kept.2.evicted else m.count }

/-- The walk of a visit, as the callback's verdicts on the entries. -/
def walkVerdicts {σ : Type} (m : BucketMap K A) (cb : σ → CanonicalEntry K → A → Bool × σ)
    (state : σ) : List (CanonicalEntry K × Bool) × σ :=
  verdicts cb m.cells state m.canonical.elems

omit [LinearOrder K] [Record A T V] in
variable (cfg) in
/-- The two tables after the walk, and the state the callback is left in. -/
theorem afterWalk_tables {σ : Type} (m : BucketMap K A)
    (cb : σ → CanonicalEntry K → A → Bool × σ) (state : σ) :
    (m.afterWalk cfg cb state).canonical.elems = answered true (m.walkVerdicts cb state).1 ∧
      (m.afterWalk cfg cb state).aliases =
        dropAliases cfg (answered false (m.walkVerdicts cb state).1) m.aliases ∧
      (m.canonical.retain (visitEntry cfg cb m.cells)
        { state := state, aliases := m.aliases, evicted := 0 }).2.state =
        (m.walkVerdicts cb state).2 := by
  obtain ⟨hkept, hstate, haliases, _⟩ := retainList_visitEntry cfg cb m.cells
    { state := state, aliases := m.aliases, evicted := 0 } m.canonical.elems
  refine ⟨?_, ?_, ?_⟩
  · exact (HashTable.elems_retain _ _ _).trans hkept
  · exact (congrArg Visit.aliases (HashTable.retain_state _ _ _)).trans haliases
  · exact (congrArg Visit.state (HashTable.retain_state _ _ _)).trans hstate

omit [LinearOrder K] in
/-- A visit is its walk, followed by one more call if the flag is up. -/
theorem visitBucket_eq {σ : Type} (m : BucketMap K A)
    (cb : σ → CanonicalEntry K → A → Bool × σ) (state : σ) :
    m.visitBucket cfg cb state =
      if m.noAttrTouched then
        let answer := cb (m.walkVerdicts cb state).2 m.noAttrEntry m.noAttrCell
        (if answer.1 then m.afterWalk cfg cb state else (m.afterWalk cfg cb state).clearNoAttr,
          answer.2)
      else (m.afterWalk cfg cb state, (m.walkVerdicts cb state).2) := by
  simp only [visitBucket, afterWalk, noAttrCell, ← (afterWalk_tables cfg m cb state).2.2]

omit [LinearOrder K] in
theorem mem_answered {keep : Bool} {answers : List (CanonicalEntry K × Bool)}
    {e : CanonicalEntry K} : e ∈ answered keep answers ↔ (e, keep) ∈ answers := by
  simp [answered]

omit [LinearOrder K] [Record A T V] in
/-- Every entry gets a verdict, and nothing else does. -/
theorem mem_elems_iff_verdict {σ : Type} {m : BucketMap K A}
    (cb : σ → CanonicalEntry K → A → Bool × σ) (state : σ) {e : CanonicalEntry K} :
    e ∈ m.canonical.elems ↔ ∃ keep, (e, keep) ∈ (m.walkVerdicts cb state).1 := by
  conv_lhs => rw [← verdicts_map_fst cb m.cells state m.canonical.elems]
  simp [walkVerdicts]

omit [Record A T V] in
/-- No entry gets both verdicts. -/
theorem verdict_unique {σ : Type} {m : BucketMap K A} (hinv : Inv cfg inUse m)
    {cb : σ → CanonicalEntry K → A → Bool × σ} {state : σ} {e : CanonicalEntry K}
    (hkept : (e, true) ∈ (m.walkVerdicts cb state).1) :
    (e, false) ∉ (m.walkVerdicts cb state).1 := by
  intro hevicted
  have hnodup : ((m.walkVerdicts cb state).1.map Prod.fst).Nodup := by
    rw [walkVerdicts, verdicts_map_fst]
    exact List.Nodup.of_map _ hinv.canon.nodup
  have hsame := List.inj_on_of_nodup_map hnodup hkept hevicted rfl
  simp at hsame

/-- What the walk of a visit leaves behind, given the verdicts. -/
structure Walked (cfg : Config K A) (inUse : Set (List K)) (m : BucketMap K A)
    (answers : List (CanonicalEntry K × Bool)) (m' : BucketMap K A) : Prop where
  inv : Inv cfg inUse m'
  mem_canonical : ∀ e, e ∈ m'.canonical.elems ↔ (e, true) ∈ answers
  hasAlias : ∀ fp, HasAlias m' fp ↔ ∃ a ∈ m.aliases.elems, a.key.rawFp = fp ∧
    ∃ e, (e, true) ∈ answers ∧ e.attrs = normalize a.key.rawAttrs
  cells : m'.cells = m.cells
  noAttrEntry : m'.noAttrEntry = m.noAttrEntry
  noAttrTouched : m'.noAttrTouched = m.noAttrTouched

omit [Record A T V] in
theorem afterWalk_spec (hfree : CollisionFree cfg inUse) {σ : Type} {m : BucketMap K A}
    (hinv : Inv cfg inUse m) (cb : σ → CanonicalEntry K → A → Bool × σ) (state : σ) :
    Walked cfg inUse m (m.walkVerdicts cb state).1 (m.afterWalk cfg cb state) := by
  obtain ⟨hcanonical, haliases, _⟩ := afterWalk_tables cfg m cb state
  obtain ⟨hdup, hdupMem⟩ :=
    dropAliases_spec hinv.dup (answered false (m.walkVerdicts cb state).1)
  rw [← haliases] at hdup hdupMem
  have hmem : ∀ e, e ∈ (m.afterWalk cfg cb state).canonical.elems ↔
      (e, true) ∈ (m.walkVerdicts cb state).1 := by
    intro e
    rw [hcanonical, mem_answered]
  have hold : ∀ e ∈ (m.afterWalk cfg cb state).canonical.elems, e ∈ m.canonical.elems :=
    fun e he => (mem_elems_iff_verdict cb state).mpr ⟨true, (hmem e).mp he⟩
  have hsub : (m.afterWalk cfg cb state).canonical.elems.Sublist m.canonical.elems := by
    rw [hcanonical]
    conv_rhs => rw [← verdicts_map_fst cb m.cells state m.canonical.elems]
    exact List.filter_sublist.map Prod.fst
  -- An alias that survives has a surviving backer: an evicted one lists it.
  have hbacker : ∀ a ∈ (m.afterWalk cfg cb state).aliases.elems,
      Backed (m.afterWalk cfg cb state) a := by
    intro a ha
    obtain ⟨haOld, haKept⟩ := (hdupMem a).mp ha
    obtain ⟨e, he, hattrs, hbucket, key, hkey, hfp⟩ := hinv.backed a haOld
    obtain ⟨keep, hverdict⟩ := (mem_elems_iff_verdict cb state).mp he
    cases keep with
    | true => exact ⟨e, (hmem e).mpr hverdict, hattrs, hbucket, key, hkey, hfp⟩
    | false => exact absurd hfp.symm (haKept e (mem_answered.mpr hverdict) key hkey)
  exact
    { inv :=
        { canon :=
            { filed := HashTable.filedBy_retain hinv.canon.filed _ _
              canonical := fun e he => hinv.canon.canonical e (hold e he)
              nonempty := fun e he => hinv.canon.nonempty e (hold e he)
              nodup := hinv.canon.nodup.sublist (hsub.map _)
              listed := fun e he => hinv.canon.listed e (hold e he) }
          dup := hdup
          buckets := hinv.buckets.of_subperm (hsub.map _).subperm rfl rfl
          backed := hbacker }
      mem_canonical := hmem
      hasAlias := fun fp => by
        constructor
        · rintro ⟨a, ha, hfp⟩
          obtain ⟨e, he, hattrs, _⟩ := hbacker a ha
          exact ⟨a, ((hdupMem a).mp ha).1, hfp, e, (hmem e).mp he, hattrs⟩
        · rintro ⟨a, ha, hfp, e, hkept, hattrs⟩
          refine ⟨a, (hdupMem a).mpr ⟨ha, fun e' he' key hkey hsame => ?_⟩, hfp⟩
          have hevicted := mem_answered.mp he'
          have he'Old := (mem_elems_iff_verdict cb state).mpr ⟨false, hevicted⟩
          obtain ⟨hkeyOk, hkeyAttrs⟩ := hinv.canon.listed e' he'Old key hkey
          have haOk := hinv.dup.key_ok a ha
          have hperm := hfree _ haOk.mem _ hkeyOk.mem
            (haOk.fp_eq.symm.trans (hsame.trans hkeyOk.fp_eq))
          have hattrs' : e.attrs = e'.attrs := by
            rw [hattrs, normalize_eq_of_perm hperm, hkeyAttrs]
          have hsameEntry := entry_eq_of_attrs_eq hinv.canon.nodup
            ((mem_elems_iff_verdict cb state).mpr ⟨true, hkept⟩) he'Old hattrs'
          exact verdict_unique hinv hkept (hsameEntry ▸ hevicted)
      cells := rfl
      noAttrEntry := rfl
      noAttrTouched := rfl }

omit [Record A T V] in
/-- A set whose entry was refused has no value any more, and every other set keeps
its own. -/
theorem valueOf_afterWalk (hfree : CollisionFree cfg inUse) {σ : Type} {m : BucketMap K A}
    (hinv : Inv cfg inUse m) (cb : σ → CanonicalEntry K → A → Bool × σ) (state : σ)
    (set : Finset K) :
    ((∃ e, (e, false) ∈ (m.walkVerdicts cb state).1 ∧ e.attrs = set.sort (· ≤ ·)) →
        (m.afterWalk cfg cb state).valueOf set = none) ∧
      ((∀ e, (e, false) ∈ (m.walkVerdicts cb state).1 → e.attrs ≠ set.sort (· ≤ ·)) →
        (m.afterWalk cfg cb state).valueOf set = m.valueOf set) := by
  have hwalked := afterWalk_spec hfree hinv cb state
  constructor
  · rintro ⟨e, hrefused, hattrs⟩
    rw [valueOf, Option.map_eq_none_iff]
    by_contra hne
    obtain ⟨bucket, hbucket⟩ := Option.ne_none_iff_exists'.mp hne
    obtain ⟨e', he', hattrs', _⟩ := (bucketOf_eq_some_iff hwalked.inv.canon).mp hbucket
    have hkept := (hwalked.mem_canonical e').mp he'
    have hsame : e' = e := entry_eq_of_attrs_eq hinv.canon.nodup
      ((mem_elems_iff_verdict cb state).mpr ⟨true, hkept⟩)
      ((mem_elems_iff_verdict cb state).mpr ⟨false, hrefused⟩) (hattrs'.trans hattrs.symm)
    exact verdict_unique hinv hkept (hsame ▸ hrefused)
  · intro hkeeps
    have hbucket : (m.afterWalk cfg cb state).bucketOf set = m.bucketOf set := by
      ext bucket
      rw [bucketOf_eq_some_iff hwalked.inv.canon, bucketOf_eq_some_iff hinv.canon]
      constructor
      · rintro ⟨e, he, hattrs, hbucket⟩
        have hkept := (hwalked.mem_canonical e).mp he
        exact ⟨e, (mem_elems_iff_verdict cb state).mpr ⟨true, hkept⟩, hattrs, hbucket⟩
      · rintro ⟨e, he, hattrs, hbucket⟩
        obtain ⟨keep, hverdict⟩ := (mem_elems_iff_verdict cb state).mp he
        cases keep with
        | true => exact ⟨e, (hwalked.mem_canonical e).mpr hverdict, hattrs, hbucket⟩
        | false => exact absurd hattrs (hkeeps e hverdict)
    rw [valueOf, valueOf, hbucket, hwalked.cells]

end Visit

/-! ## A visit whose calls are logged -/

section Logged

variable [Record A T V]

/-- Logging the verdicts of a callback over entries is calling it on their
attributes and values. -/
theorem verdicts_logCalls (cb : Callback K V) (cells : BucketRef → A) (log : List (Call K V))
    (l : List (CanonicalEntry K)) :
    (verdicts (logCalls cb) cells log l).2 =
        callEach cb log (l.map fun e => (e.attrs, Record.current (cells e.bucket))) ∧
      ∀ call, call ∈ (verdicts (logCalls cb) cells log l).2 ↔ call ∈ log ∨
        ∃ verdict ∈ (verdicts (logCalls cb) cells log l).1,
          call = ⟨verdict.1.attrs, Record.current (cells verdict.1.bucket), verdict.2⟩ := by
  induction l generalizing log with
  | nil => simp [verdicts, callEach]
  | cons e rest ih =>
      have hanswer : logCalls cb log e (cells e.bucket) =
          (cb log e.attrs (Record.current (cells e.bucket)),
            log ++ [⟨e.attrs, Record.current (cells e.bucket),
              cb log e.attrs (Record.current (cells e.bucket))⟩]) := rfl
      obtain ⟨hlog, hmem⟩ := ih (log ++ [⟨e.attrs, Record.current (cells e.bucket),
        cb log e.attrs (Record.current (cells e.bucket))⟩])
      simp only [verdicts, hanswer, List.map_cons, callEach]
      refine ⟨hlog, fun call => ?_⟩
      rw [hmem, List.mem_append, List.mem_singleton, or_assoc]
      simp only [List.mem_cons, exists_eq_or_imp]

variable [LinearOrder K]

/-- The value of the empty list, as a visit shows it: only if it was touched. -/
def shownNoAttr (m : BucketMap K A) : List (List K × V) :=
  if m.noAttrTouched then [([], Record.current m.noAttrCell)] else []

/-- Whether a visit was asked about the empty list and refused it. -/
def RefusesNoAttr (m : BucketMap K A) (cb : Callback K V) : Prop :=
  m.noAttrTouched = true ∧
    cb (m.walkVerdicts (logCalls cb) []).2 [] (Record.current m.noAttrCell) = false

/-- A visit makes one call for each verdict of its walk, and one more, with no
attributes, if the flag is up. -/
theorem mem_visited_iff {m : BucketMap K A} (hinv : Inv cfg inUse m) (cb : Callback K V)
    (call : Call K V) :
    call ∈ (m.visitBucket cfg (logCalls cb) []).2 ↔
      (∃ verdict ∈ (m.walkVerdicts (logCalls cb) []).1,
          call = ⟨verdict.1.attrs, Record.current (m.cells verdict.1.bucket), verdict.2⟩) ∨
        (m.noAttrTouched = true ∧
          call = ⟨[], Record.current m.noAttrCell,
            cb (m.walkVerdicts (logCalls cb) []).2 [] (Record.current m.noAttrCell)⟩) := by
  have hwalk := (verdicts_logCalls cb m.cells [] m.canonical.elems).2 call
  rw [visitBucket_eq]
  cases m.noAttrTouched with
  | false => simpa [walkVerdicts] using hwalk
  | true =>
      simp only [if_true, logCalls, hinv.buckets.noAttr_attrs, List.mem_append,
        List.mem_singleton, true_and]
      apply or_congr _ Iff.rfl
      simpa [walkVerdicts] using hwalk

/-- A visit refuses a non-empty list exactly when its walk refused an entry with
that list. -/
theorem refused_iff {m : BucketMap K A} (hinv : Inv cfg inUse m) (cb : Callback K V)
    {attrs : List K} (hne : attrs ≠ []) :
    SetMap.Refused (m.visitBucket cfg (logCalls cb) []).2 attrs ↔
      ∃ e, (e, false) ∈ (m.walkVerdicts (logCalls cb) []).1 ∧ e.attrs = attrs := by
  constructor
  · rintro ⟨call, hcall, hattrs, hkeep⟩
    rcases (mem_visited_iff hinv cb call).mp hcall with ⟨verdict, hverdict, rfl⟩ | ⟨_, rfl⟩
    · have hrefused : verdict.2 = false := hkeep
      exact ⟨verdict.1, by rw [← hrefused]; exact hverdict, hattrs⟩
    · exact absurd hattrs.symm hne
  · intro ⟨e, hrefused, hattrs⟩
    exact ⟨_, (mem_visited_iff hinv cb _).mpr (Or.inl ⟨_, hrefused, rfl⟩), hattrs, rfl⟩

theorem refused_nil_iff {m : BucketMap K A} (hinv : Inv cfg inUse m) (cb : Callback K V) :
    SetMap.Refused (m.visitBucket cfg (logCalls cb) []).2 [] ↔ m.RefusesNoAttr cb := by
  constructor
  · rintro ⟨call, hcall, hattrs, hkeep⟩
    rcases (mem_visited_iff hinv cb call).mp hcall with ⟨verdict, hverdict, rfl⟩ | ⟨htouched, rfl⟩
    · have he := (mem_elems_iff_verdict (logCalls cb) []).mpr ⟨verdict.2, hverdict⟩
      exact absurd hattrs (hinv.canon.nonempty _ he)
    · exact ⟨htouched, hkeep⟩
  · intro ⟨htouched, hrefused⟩
    exact ⟨_, (mem_visited_iff hinv cb _).mpr (Or.inr ⟨htouched, rfl⟩), rfl, hrefused⟩

variable (cfg) in
omit [LinearOrder K] in
/-- The map after a visit: the bucket of the empty list is emptied if it was
refused. -/
theorem visitBucket_fst {m : BucketMap K A} (hattrs : m.noAttrEntry.attrs = [])
    (cb : Callback K V) :
    (m.RefusesNoAttr cb → (m.visitBucket cfg (logCalls cb) []).1 =
        (m.afterWalk cfg (logCalls cb) []).clearNoAttr) ∧
      (¬ m.RefusesNoAttr cb → (m.visitBucket cfg (logCalls cb) []).1 =
        m.afterWalk cfg (logCalls cb) []) := by
  rw [visitBucket_eq, RefusesNoAttr]
  cases m.noAttrTouched with
  | false => simp
  | true =>
      cases hkeep : cb (m.walkVerdicts (logCalls cb) []).2 [] (Record.current m.noAttrCell) <;>
        simp [logCalls, hattrs, hkeep]

/-- What a visit does, in terms of the calls it made. -/
structure Visited (cfg : Config K A) (inUse : Set (List K)) (m : BucketMap K A)
    (cb : Callback K V) (calls : List (Call K V)) (m' : BucketMap K A) : Prop where
  inv : Inv cfg inUse m'
  calls_eq : calls = callEach cb [] (m.readTable m.canonical ++ m.shownNoAttr)
  valueOf_refused : ∀ set : Finset K, SetMap.Refused calls (set.sort (· ≤ ·)) →
    m'.valueOf set = none
  valueOf_kept : ∀ set : Finset K, ¬ SetMap.Refused calls (set.sort (· ≤ ·)) →
    m'.valueOf set = m.valueOf set
  noAttr_refused : SetMap.Refused calls [] →
    m'.noAttrCell = Record.clear m.noAttrCell ∧ m'.noAttrTouched = false
  noAttr_kept : ¬ SetMap.Refused calls [] →
    m'.noAttrCell = m.noAttrCell ∧ m'.noAttrTouched = m.noAttrTouched
  hasAlias : ∀ fp, HasAlias m' fp ↔ ∃ a ∈ m.aliases.elems, a.key.rawFp = fp ∧
    ¬ SetMap.Refused calls (normalize a.key.rawAttrs)
  canonical : ∀ e ∈ m'.canonical.elems, e ∈ m.canonical.elems
  fresh : m'.fresh = m.fresh

/-- The calls a visit makes are those of its callback on the table and then, if it
was touched, on the value of the empty list. -/
theorem visited_eq {m : BucketMap K A} (hinv : Inv cfg inUse m) (cb : Callback K V) :
    (m.visitBucket cfg (logCalls cb) []).2 =
      callEach cb [] (m.readTable m.canonical ++ m.shownNoAttr) := by
  have hwalk := (verdicts_logCalls cb m.cells [] m.canonical.elems).1
  rw [callEach_append, readTable, ← hwalk, visitBucket_eq, shownNoAttr]
  cases m.noAttrTouched with
  | false => simp [callEach, walkVerdicts]
  | true => simp [callEach, walkVerdicts, logCalls, hinv.buckets.noAttr_attrs]

/-- The walk of a logged visit evicts exactly the sets it refused. -/
theorem valueOf_afterWalk_logCalls (hfree : CollisionFree cfg inUse) {m : BucketMap K A}
    (hinv : Inv cfg inUse m) (cb : Callback K V) (set : Finset K) :
    (SetMap.Refused (m.visitBucket cfg (logCalls cb) []).2 (set.sort (· ≤ ·)) →
        (m.afterWalk cfg (logCalls cb) []).valueOf set = none) ∧
      (¬ SetMap.Refused (m.visitBucket cfg (logCalls cb) []).2 (set.sort (· ≤ ·)) →
        (m.afterWalk cfg (logCalls cb) []).valueOf set = m.valueOf set) := by
  have hwalked := afterWalk_spec hfree hinv (logCalls cb) []
  obtain ⟨hgone, hkept⟩ := valueOf_afterWalk hfree hinv (logCalls cb) [] set
  by_cases hset : set = ∅
  · subst hset
    rw [valueOf_empty hwalked.inv, valueOf_empty hinv]
    exact ⟨fun _ => rfl, fun _ => rfl⟩
  · have hsort : set.sort (· ≤ ·) ≠ [] := by
      intro hnil
      apply hset
      rw [← Finset.sort_toFinset set (· ≤ ·), hnil, List.toFinset_nil]
    rw [refused_iff hinv cb hsort]
    exact ⟨hgone, fun hnot => hkept fun e he hattrs => hnot ⟨e, he, hattrs⟩⟩

/-- An alias survives the walk of a logged visit unless its set was refused. -/
theorem hasAlias_afterWalk_logCalls (hfree : CollisionFree cfg inUse) {m : BucketMap K A}
    (hinv : Inv cfg inUse m) (cb : Callback K V) (fp : AttrFingerprint) :
    HasAlias (m.afterWalk cfg (logCalls cb) []) fp ↔
      ∃ a ∈ m.aliases.elems, a.key.rawFp = fp ∧
        ¬ SetMap.Refused (m.visitBucket cfg (logCalls cb) []).2 (normalize a.key.rawAttrs) := by
  have hwalked := afterWalk_spec hfree hinv (logCalls cb) []
  have hkept : ∀ a ∈ m.aliases.elems,
      (∃ e, (e, true) ∈ (m.walkVerdicts (logCalls cb) []).1 ∧
        e.attrs = normalize a.key.rawAttrs) ↔
      ¬ SetMap.Refused (m.visitBucket cfg (logCalls cb) []).2 (normalize a.key.rawAttrs) := by
    intro a ha
    have hne : normalize a.key.rawAttrs ≠ [] := by
      intro hnil
      apply (hinv.dup.key_ok a ha).not_canonical
      rw [hnil, normalize_eq_nil_iff.mp hnil]
    rw [refused_iff hinv cb hne]
    constructor
    · rintro ⟨e, he, hattrs⟩ ⟨e', he', hattrs'⟩
      have hsame : e = e' := entry_eq_of_attrs_eq hinv.canon.nodup
        ((mem_elems_iff_verdict (logCalls cb) []).mpr ⟨true, he⟩)
        ((mem_elems_iff_verdict (logCalls cb) []).mpr ⟨false, he'⟩)
        (hattrs.trans hattrs'.symm)
      exact verdict_unique hinv he (hsame ▸ he')
    · intro hnot
      obtain ⟨e, he, hattrs, _⟩ := hinv.backed a ha
      obtain ⟨keep, hverdict⟩ := (mem_elems_iff_verdict (logCalls cb) []).mp he
      cases keep with
      | true => exact ⟨e, hverdict, hattrs⟩
      | false => exact absurd ⟨e, hverdict, hattrs⟩ hnot
  rw [hwalked.hasAlias]
  constructor
  · intro ⟨a, ha, hfp, hbacker⟩
    exact ⟨a, ha, hfp, (hkept a ha).mp hbacker⟩
  · intro ⟨a, ha, hfp, hnot⟩
    exact ⟨a, ha, hfp, (hkept a ha).mpr hnot⟩

theorem visitBucket_spec (hfree : CollisionFree cfg inUse) {m : BucketMap K A}
    (hinv : Inv cfg inUse m) (cb : Callback K V) :
    Visited cfg inUse m cb (m.visitBucket cfg (logCalls cb) []).2
      (m.visitBucket cfg (logCalls cb) []).1 := by
  have hwalked := afterWalk_spec hfree hinv (logCalls cb) []
  obtain ⟨hinvClear, hvalueClear, hcellClear⟩ := clearNoAttr_spec hwalked.inv
  have hcell : (m.afterWalk cfg (logCalls cb) []).noAttrCell = m.noAttrCell := by
    rw [noAttrCell, noAttrCell, hwalked.cells, hwalked.noAttrEntry]
  have hvalue := valueOf_afterWalk_logCalls hfree hinv cb
  have halias := hasAlias_afterWalk_logCalls hfree hinv cb
  have hnil := refused_nil_iff hinv cb
  obtain ⟨hrefused, hkept⟩ := visitBucket_fst cfg hinv.buckets.noAttr_attrs cb
  have hcalls := visited_eq hinv cb
  have hold : ∀ e ∈ (m.afterWalk cfg (logCalls cb) []).canonical.elems,
      e ∈ m.canonical.elems := fun e he =>
    (mem_elems_iff_verdict (logCalls cb) []).mpr ⟨true, (hwalked.mem_canonical e).mp he⟩
  by_cases h : m.RefusesNoAttr cb
  · rw [hrefused h]
    exact
      { inv := hinvClear
        calls_eq := hcalls
        valueOf_refused := fun set hset => by rw [hvalueClear, (hvalue set).1 hset]
        valueOf_kept := fun set hset => by rw [hvalueClear, (hvalue set).2 hset]
        noAttr_refused := fun _ => ⟨by rw [hcellClear, hcell], rfl⟩
        noAttr_kept := fun hnot => absurd (hnil.mpr h) hnot
        hasAlias := halias
        canonical := hold
        fresh := rfl }
  · rw [hkept h]
    exact
      { inv := hwalked.inv
        calls_eq := hcalls
        valueOf_refused := fun set => (hvalue set).1
        valueOf_kept := fun set => (hvalue set).2
        noAttr_refused := fun hyes => absurd (hnil.mp hyes) h
        noAttr_kept := fun _ => ⟨hcell, hwalked.noAttrTouched⟩
        hasAlias := halias
        canonical := hold
        fresh := rfl }

end Logged

end BucketMap

end Ohnotel
