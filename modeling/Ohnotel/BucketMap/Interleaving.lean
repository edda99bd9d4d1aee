/-
# Writers and drains of one map at the same time

Any number of threads write to one map, each call going through the steps of
`get_or_create` in its own time: the lookups, the insertion into the canonical table,
the insertion into the alias table, and last the write through the bucket it
obtained.  A drain holds both locks and is one step.

`get_or_create` gives up the canonical lock before it takes the alias lock.  A drain
in between removes the canonical entry, and the alias that is then inserted leads to
a bucket no drain will ever read.  The alias table stays consistent in exactly those
runs in which no call inserts an alias for an entry that was removed meanwhile.
-/

import Ohnotel.BucketMap.Drains
import Ohnotel.Foundation.Transition

namespace Ohnotel

open Foundation Atomic

/-- The two lookups of `get_bucket`. -/
inductive Probe
  | canon
  | dup
  deriving DecidableEq

/-- Where a thread is within a call.  `f` is what the call does to its bucket. -/
inductive Pc (K A : Type)
  | idle
  | lookup (attrs : List K) (left : List Probe) (f : A → A)
  | insertCanon (prepared : Prepared K) (f : A → A)
  | insertDup (key : AliasKey K) (bucket : BucketRef) (f : A → A)
  | record (bucket : BucketRef) (f : A → A)
  | recordNoAttr (f : A → A)
  | touchNoAttr

def Pc.isIdle {K A : Type} : Pc K A → Bool
  | .idle => true
  | _ => false

/-- A map and the threads that use it. -/
structure Shared (ι K A : Type) where
  map : BucketMap K A
  pcs : ι → Pc K A

/-- Who takes the next step: a thread that starts a call or continues one, or a
drain. -/
inductive Turn (ι K A V : Type)
  | call (t : ι) (attrs : List K) (f : A → A)
  | step (t : ι)
  | clear
  | take
  | visitBucket (cb : Callback K V)

/-- The attribute lists that occur in a turn. -/
def Turn.lists {ι K A V : Type} : Turn ι K A V → List (List K)
  | .call _ attrs _ => [attrs]
  | .step _ | .clear | .take | .visitBucket _ => []

/-- The turn empties the map or may evict from it. -/
def Turn.Drains {ι K A V : Type} : Turn ι K A V → Prop
  | .call _ _ _ | .step _ => False
  | .clear | .take | .visitBucket _ => True

namespace Shared

variable {ι K A T V : Type} [DecidableEq ι] [LinearOrder K] (cfg : Config K A)

/-- The lookups `get_bucket` makes for a non-empty list, in order. -/
def probes (attrs : List K) : List Probe :=
  if attrs.length = 1 then [.canon]
  else if attrs.IsChain (· ≤ ·) then [.canon, .dup]
  else [.dup, .canon]

/-- One lookup. -/
def probe (m : BucketMap K A) (attrs : List K) : Probe → Option BucketRef
  | .canon => m.lookupCanon (BucketMap.canonHash cfg attrs) attrs
  | .dup => m.lookupDup cfg (AttrFingerprint.commutativeHash cfg.hasher attrs) attrs

/-- The first step of a call. -/
def start (attrs : List K) (f : A → A) : Pc K A :=
  if attrs.isEmpty then .recordNoAttr f else .lookup attrs (probes attrs) f

/-- The next step of a call. -/
def advance (m : BucketMap K A) : Pc K A → Option (BucketMap K A × Pc K A)
  | .idle => none
  | .lookup attrs (p :: left) f =>
      match probe cfg m attrs p with
      | some bucket => some (m, .record bucket f)
      | none => some (m, .lookup attrs left f)
  | .lookup attrs [] f =>
      let rawFp := AttrFingerprint.commutativeHash cfg.hasher attrs
      some (m, .insertCanon (BucketMap.prepare cfg attrs rawFp (rawFp.tableHash cfg.hasher)) f)
  | .insertCanon prepared f =>
      let inserted := m.insertCanon cfg prepared.normalized prepared.hash prepared.aliasKey
      match prepared.aliasKey with
      | some key => some (inserted.1, .insertDup key inserted.2 f)
      | none => some (inserted.1, .record inserted.2 f)
  | .insertDup key bucket f => some (m.insertDup cfg key bucket, .record bucket f)
  | .record bucket f => some (m.modifyCell bucket f, .idle)
  | .recordNoAttr f => some (m.modifyCell m.noAttrEntry.bucket f, .touchNoAttr)
  | .touchNoAttr => some ({ m with noAttrTouched := true }, .idle)

variable [Record A T V]

/-- One step of the whole. -/
def step (s : Shared ι K A) : Turn ι K A V → Option (Shared ι K A)
  | .call t attrs f =>
      match s.pcs t with
      | .idle => some { s with pcs := Function.update s.pcs t (start attrs f) }
      | _ => none
  | .step t =>
      (advance cfg s.map (s.pcs t)).map fun next =>
        { map := next.1, pcs := Function.update s.pcs t next.2 }
  | .clear => some { s with map := s.map.clear }
  | .take => some { s with map := s.map.take.1 }
  | .visitBucket cb => some { s with map := (s.map.visitBucket cfg (logCalls cb) []).1 }

/-- A new map that no thread is using yet. -/
def init (ι : Type) : Shared ι K A where
  map := BucketMap.withStorage cfg
  pcs _ := .idle

/-! ## What a step preserves -/

variable {cfg} {inUse : Set (List K)}

/-- What a thread between two steps relies on.  The bucket it is about to enter into
the alias table was the one of its set's canonical entry: if that entry is still
there, it lists the alias. -/
def ThreadOk (cfg : Config K A) (inUse : Set (List K)) (m : BucketMap K A) : Pc K A → Prop
  | .lookup attrs _ _ => attrs ≠ [] ∧ attrs ∈ inUse
  | .insertCanon prepared _ => ∃ attrs, attrs ≠ [] ∧ attrs ∈ inUse ∧
      prepared = BucketMap.prepare cfg attrs
        (AttrFingerprint.commutativeHash cfg.hasher attrs) (BucketMap.canonHash cfg attrs)
  | .insertDup key bucket _ => BucketMap.KeyOk cfg inUse key ∧ bucket < m.fresh ∧
      ∀ e ∈ m.canonical.elems, e.bucket = bucket → key ∈ e.aliases
  | .idle | .record _ _ | .recordNoAttr _ | .touchNoAttr => True

/-- The invariant of a shared map: that of the map, and what every thread relies on. -/
structure Ok (cfg : Config K A) (inUse : Set (List K)) (s : Shared ι K A) : Prop where
  inv : BucketMap.Inv cfg inUse s.map
  threads : ∀ t, ThreadOk cfg inUse s.map (s.pcs t)

/-- A step of another thread, or a drain, does not disturb a thread if addresses
stay allocated and the entries with an old address keep their aliases. -/
theorem ThreadOk.mono {m m' : BucketMap K A} {pc : Pc K A} (hok : ThreadOk cfg inUse m pc)
    (hfresh : m.fresh ≤ m'.fresh)
    (hold : ∀ e' ∈ m'.canonical.elems, e'.bucket < m.fresh →
      ∃ e ∈ m.canonical.elems, e.bucket = e'.bucket ∧ ∀ key ∈ e.aliases, key ∈ e'.aliases) :
    ThreadOk cfg inUse m' pc := by
  cases pc with
  | insertDup key bucket f =>
      obtain ⟨hkey, hlt, hlisted⟩ := hok
      refine ⟨hkey, lt_of_lt_of_le hlt hfresh, fun e' he' hbucket => ?_⟩
      obtain ⟨e, he, hsame, hkeys⟩ := hold e' he' (hbucket ▸ hlt)
      exact hkeys key (hlisted e he (hsame.trans hbucket))
  | idle => trivial
  | lookup attrs left f => exact hok
  | insertCanon prepared f => exact hok
  | record bucket f => trivial
  | recordNoAttr f => trivial
  | touchNoAttr => trivial

/-- Every entry that `insert_canon` leaves under an old address was there before,
with no more aliases than now. -/
theorem insertedCanon_old {m m' : BucketMap K A} {attrs : List K}
    {aliasKey : Option (AliasKey K)} {bucket : BucketRef}
    (h : BucketMap.InsertedCanon cfg inUse m attrs aliasKey m' bucket)
    (hinv : BucketMap.Inv cfg inUse m) :
    ∀ e' ∈ m'.canonical.elems, e'.bucket < m.fresh →
      ∃ e ∈ m.canonical.elems, e.bucket = e'.bucket ∧ ∀ key ∈ e.aliases, key ∈ e'.aliases := by
  intro e' he' hlt
  have hbucket' := BucketMap.bucketOf_toFinset_of_mem h.inv.canon he'
  have hbucket : m.bucketOf e'.attrs.toFinset = some e'.bucket := by
    cases h.obtains with
    | present _ hmap _ _ _ => rw [← hmap, hbucket']
    | created _ hnew hmap _ _ _ =>
        by_cases hset : e'.attrs.toFinset = attrs.toFinset
        · rw [hmap, hset, Function.update_self] at hbucket'
          have hsame : bucket = e'.bucket := Option.some_inj.mp hbucket'
          rw [← hsame, hnew] at hlt
          exact absurd hlt (lt_irrefl _)
        · rw [hmap, Function.update_of_ne hset] at hbucket'
          exact hbucket'
  obtain ⟨e, he, hattrs, hsame⟩ :=
    (BucketMap.bucketOf_toFinset_eq_some_iff hinv.canon).mp hbucket
  obtain ⟨e'', he'', hattrs'', _, hkeys⟩ := h.kept e he
  have hnorm : e''.attrs = e'.attrs := by
    rw [hattrs'', hattrs, h.inv.canon.canonical e' he']
  rw [BucketMap.entry_eq_of_attrs_eq h.inv.canon.nodup he'' he' hnorm] at hkeys
  exact ⟨e, he, hsame, hkeys⟩

/-- A thread inserts an alias only for an entry that is still there, or where the
alias table has the fingerprint already. -/
def InsertsLive (s : Shared ι K A) : Turn ι K A V → Prop
  | .step t =>
      match s.pcs t with
      | .insertDup key bucket _ =>
          s.map.bucketOf key.rawAttrs.toFinset = some bucket ∨ BucketMap.HasAlias s.map key.rawFp
      | _ => True
  | .call _ _ _ | .clear | .take | .visitBucket _ => True

/-- Changing one thread's place and the map. -/
theorem ok_update {s : Shared ι K A} {m' : BucketMap K A} {t : ι} {pc' : Pc K A}
    (hok : Ok cfg inUse s) (hinv : BucketMap.Inv cfg inUse m')
    (hfresh : s.map.fresh ≤ m'.fresh)
    (hold : ∀ e' ∈ m'.canonical.elems, e'.bucket < s.map.fresh →
      ∃ e ∈ s.map.canonical.elems, e.bucket = e'.bucket ∧ ∀ key ∈ e.aliases, key ∈ e'.aliases)
    (hhere : ThreadOk cfg inUse m' pc') :
    Ok cfg inUse { map := m', pcs := Function.update s.pcs t pc' } where
  inv := hinv
  threads other := by
    by_cases hother : other = t
    · subst hother
      simpa using hhere
    · simpa [hother] using (hok.threads other).mono hfresh hold

/-- What one step of a thread leaves behind. -/
structure Advanced (cfg : Config K A) (inUse : Set (List K)) (m m' : BucketMap K A)
    (pc' : Pc K A) : Prop where
  inv : BucketMap.Inv cfg inUse m'
  fresh : m.fresh ≤ m'.fresh
  old : ∀ e' ∈ m'.canonical.elems, e'.bucket < m.fresh →
    ∃ e ∈ m.canonical.elems, e.bucket = e'.bucket ∧ ∀ key ∈ e.aliases, key ∈ e'.aliases
  here : ThreadOk cfg inUse m' pc'
  bucketOf : ∀ set bucket, m.bucketOf set = some bucket → m'.bucketOf set = some bucket
  noAttrEntry : m'.noAttrEntry = m.noAttrEntry
  noAttrTouched : m.noAttrTouched = true → m'.noAttrTouched = true

/-- A step that leaves the canonical table alone. -/
theorem Advanced.of_canonical_eq {m m' : BucketMap K A} {pc' : Pc K A}
    (hinv : BucketMap.Inv cfg inUse m') (hcanonical : m'.canonical = m.canonical)
    (hfresh : m'.fresh = m.fresh) (hhere : ThreadOk cfg inUse m' pc')
    (hnoAttr : m'.noAttrEntry = m.noAttrEntry)
    (htouched : m.noAttrTouched = true → m'.noAttrTouched = true) :
    Advanced cfg inUse m m' pc' where
  inv := hinv
  fresh := le_of_eq hfresh.symm
  old e' he' _ := ⟨e', hcanonical ▸ he', rfl, fun _ hkey => hkey⟩
  here := hhere
  bucketOf set bucket hbucket := by
    rw [BucketMap.bucketOf, hcanonical]
    exact hbucket
  noAttrEntry := hnoAttr
  noAttrTouched := htouched

/-- `insert_canon` as a step of a thread. -/
theorem advance_insertCanon {m : BucketMap K A} (hinv : BucketMap.Inv cfg inUse m)
    {attrs : List K} (hne : attrs ≠ []) (hattrs : attrs ∈ inUse) (f : A → A)
    {m' : BucketMap K A} {pc' : Pc K A}
    (hstep : advance cfg m (.insertCanon (BucketMap.prepare cfg attrs
      (AttrFingerprint.commutativeHash cfg.hasher attrs) (BucketMap.canonHash cfg attrs)) f) =
        some (m', pc')) :
    Advanced cfg inUse m m' pc' := by
  have hspec := BucketMap.insertCanon_aliasOf_spec hinv hne hattrs
  rw [BucketMap.prepare_eq] at hstep
  cases halias : BucketMap.aliasOf cfg attrs with
  | none =>
      simp only [advance, halias, Option.some.injEq, Prod.mk.injEq] at hstep hspec
      obtain ⟨rfl, rfl⟩ := hstep
      exact
        { inv := hspec.inv
          fresh := hspec.obtains.fresh_le
          old := insertedCanon_old hspec hinv
          here := trivial
          bucketOf := fun _ _ => hspec.obtains.bucketOf_mono
          noAttrEntry := hspec.noAttrEntry
          noAttrTouched := fun htouched => hspec.noAttrTouched.trans htouched }
  | some key =>
      simp only [advance, halias, Option.some.injEq, Prod.mk.injEq] at hstep hspec
      obtain ⟨rfl, rfl⟩ := hstep
      obtain ⟨e, he, _, hbucket, hlisted⟩ := hspec.listed
      refine
        { inv := hspec.inv
          fresh := hspec.obtains.fresh_le
          old := insertedCanon_old hspec hinv
          here := ⟨(BucketMap.aliasOf_ok hattrs key halias).1, ?_, ?_⟩
          bucketOf := fun _ _ => hspec.obtains.bucketOf_mono
          noAttrEntry := hspec.noAttrEntry
          noAttrTouched := fun htouched => hspec.noAttrTouched.trans htouched }
      · exact hbucket ▸ hspec.inv.buckets.allocated e he
      · intro e' he' hsame
        have hentry : e' = e := List.inj_on_of_nodup_map hspec.inv.buckets.nodup he' he
          (hsame.trans hbucket.symm)
        exact hentry ▸ hlisted _ rfl

/-- A step of a thread, as long as it inserts no alias for an entry that is gone. -/
theorem advance_spec {m m' : BucketMap K A} {pc pc' : Pc K A} (hinv : BucketMap.Inv cfg inUse m)
    (hok : ThreadOk cfg inUse m pc)
    (hlive : ∀ key bucket f, pc = .insertDup key bucket f →
      m.bucketOf key.rawAttrs.toFinset = some bucket ∨ BucketMap.HasAlias m key.rawFp)
    (hstep : advance cfg m pc = some (m', pc')) : Advanced cfg inUse m m' pc' := by
  cases pc with
  | idle => simp [advance] at hstep
  | lookup attrs left f =>
      cases left with
      | nil =>
          simp only [advance, Option.some.injEq, Prod.mk.injEq] at hstep
          obtain ⟨rfl, rfl⟩ := hstep
          exact .of_canonical_eq hinv rfl rfl ⟨attrs, hok.1, hok.2, rfl⟩ rfl id
      | cons p left =>
          simp only [advance] at hstep
          split at hstep
          · simp only [Option.some.injEq, Prod.mk.injEq] at hstep
            obtain ⟨rfl, rfl⟩ := hstep
            exact .of_canonical_eq hinv rfl rfl trivial rfl id
          · simp only [Option.some.injEq, Prod.mk.injEq] at hstep
            obtain ⟨rfl, rfl⟩ := hstep
            exact .of_canonical_eq hinv rfl rfl hok rfl id
  | insertCanon prepared f =>
      obtain ⟨attrs, hne, hattrs, rfl⟩ := hok
      exact advance_insertCanon hinv hne hattrs f hstep
  | insertDup key bucket f =>
      simp only [advance, Option.some.injEq, Prod.mk.injEq] at hstep
      obtain ⟨rfl, rfl⟩ := hstep
      obtain ⟨hkey, _, hlisted⟩ := hok
      have hbacked : BucketMap.HasAlias m key.rawFp ∨
          BucketMap.Backed m { key := key, bucket := bucket } := by
        cases hlive key bucket f rfl with
        | inl hbucket =>
            obtain ⟨e, he, hattrs, hsame⟩ :=
              (BucketMap.bucketOf_toFinset_eq_some_iff hinv.canon).mp hbucket
            exact Or.inr ⟨e, he, hattrs, hsame, key, hlisted e he hsame, rfl⟩
        | inr halias => exact Or.inl halias
      obtain ⟨hnoAttr, htouched, _, _, hfresh⟩ := BucketMap.insertDup_frame cfg m key bucket
      exact .of_canonical_eq (BucketMap.inv_insertDup hinv hkey hbacked)
        (BucketMap.insertDup_canonical cfg m key bucket) hfresh trivial hnoAttr
        fun hup => htouched.trans hup
  | record bucket f =>
      simp only [advance, Option.some.injEq, Prod.mk.injEq] at hstep
      obtain ⟨rfl, rfl⟩ := hstep
      exact .of_canonical_eq (hinv.modifyCell bucket f) rfl rfl trivial rfl id
  | recordNoAttr f =>
      simp only [advance, Option.some.injEq, Prod.mk.injEq] at hstep
      obtain ⟨rfl, rfl⟩ := hstep
      exact .of_canonical_eq (hinv.modifyCell _ f) rfl rfl trivial rfl id
  | touchNoAttr =>
      simp only [advance, Option.some.injEq, Prod.mk.injEq] at hstep
      obtain ⟨rfl, rfl⟩ := hstep
      exact .of_canonical_eq (hinv.withTouched true) rfl rfl trivial rfl fun _ => rfl

theorem threadOk_start {m : BucketMap K A} {attrs : List K} (hattrs : attrs ∈ inUse)
    (f : A → A) : ThreadOk cfg inUse m (start attrs f) := by
  cases attrs with
  | nil => trivial
  | cons kv rest => exact ⟨List.cons_ne_nil kv rest, hattrs⟩

omit [DecidableEq ι] in
/-- What a thread's step does, if it inserts no alias for an entry that is gone. -/
theorem advanced_of_insertsLive {s : Shared ι K A} {t : ι} {m' : BucketMap K A} {pc' : Pc K A}
    (hok : Ok cfg inUse s) (hlive : InsertsLive s (.step t : Turn ι K A V))
    (hadvance : advance cfg s.map (s.pcs t) = some (m', pc')) :
    Advanced cfg inUse s.map m' pc' := by
  apply advance_spec hok.inv (hok.threads t) _ hadvance
  intro key bucket f hpc
  simp only [InsertsLive, hpc] at hlive
  exact hlive

/-- Every step keeps the invariant, as long as it inserts no alias for an entry that
is gone. -/
theorem step_ok (hfree : CollisionFree cfg inUse) {s s' : Shared ι K A} {turn : Turn ι K A V}
    (hok : Ok cfg inUse s) (hlists : ∀ attrs ∈ turn.lists, attrs ∈ inUse)
    (hlive : InsertsLive s turn) (hstep : step cfg s turn = some s') : Ok cfg inUse s' := by
  cases turn with
  | call t attrs f =>
      simp only [step] at hstep
      split at hstep
      · obtain rfl := Option.some_inj.mp hstep
        refine ok_update hok hok.inv le_rfl (fun e he _ => ⟨e, he, rfl, fun _ hkey => hkey⟩) ?_
        exact threadOk_start (hlists attrs (List.mem_singleton_self attrs)) f
      · simp at hstep
  | step t =>
      obtain ⟨⟨m', pc'⟩, hadvance, rfl⟩ := Option.map_eq_some_iff.mp hstep
      have hspec := advanced_of_insertsLive hok hlive hadvance
      exact ok_update hok hspec.inv hspec.fresh hspec.old hspec.here
  | clear =>
      obtain rfl := Option.some_inj.mp hstep
      have hdrained := BucketMap.clear_spec hok.inv
      refine ⟨hdrained.inv, fun t => (hok.threads t).mono (le_of_eq hdrained.fresh.symm) ?_⟩
      intro e he
      simp [hdrained.canonical] at he
  | take =>
      obtain rfl := Option.some_inj.mp hstep
      have hdrained := (BucketMap.take_spec hok.inv).1
      refine ⟨hdrained.inv, fun t => (hok.threads t).mono (le_of_eq hdrained.fresh.symm) ?_⟩
      intro e he
      simp [hdrained.canonical] at he
  | visitBucket cb =>
      obtain rfl := Option.some_inj.mp hstep
      have hvisited := BucketMap.visitBucket_spec hfree hok.inv cb
      refine ⟨hvisited.inv, fun t => (hok.threads t).mono (le_of_eq hvisited.fresh.symm) ?_⟩
      exact fun e he _ => ⟨e, hvisited.canonical e he, rfl, fun _ hkey => hkey⟩

omit [DecidableEq ι] in
variable (cfg inUse ι) in
theorem ok_init : Ok cfg inUse (init cfg ι) where
  inv := BucketMap.inv_withStorage cfg inUse
  threads _ := trivial

/-- The invariant holds at the end of every run that inserts no alias for an entry
that is gone. -/
theorem run_ok (hfree : CollisionFree cfg inUse) {s last : Shared ι K A}
    {turns : List (Turn ι K A V)} (hok : Ok cfg inUse s)
    (hlists : ∀ turn ∈ turns, ∀ attrs ∈ turn.lists, attrs ∈ inUse)
    (halong : StepFn.Along (step cfg) InsertsLive s turns)
    (hrun : StepFn.run (step cfg) s turns = some last) : Ok cfg inUse last :=
  StepFn.invariant_of_step_along (Ok cfg inUse) (fun turn hturn _ _ hhere hlive hstep =>
    step_ok hfree hhere (hlists turn hturn) hlive hstep) hok halong hrun

/-! ## Exactly when the alias table is consistent -/

/-- Every alias leads to the bucket of the canonical entry of its own set. -/
def AliasesConsistent (m : BucketMap K A) : Prop :=
  ∀ a ∈ m.aliases.elems, m.bucketOf a.key.rawAttrs.toFinset = some a.bucket

theorem aliasesConsistent_of_inv {m : BucketMap K A} (hinv : BucketMap.Inv cfg inUse m) :
    AliasesConsistent m := by
  intro a ha
  obtain ⟨e, he, hattrs, hbucket, _⟩ := hinv.backed a ha
  exact (BucketMap.bucketOf_toFinset_eq_some_iff hinv.canon).mpr ⟨e, he, hattrs, hbucket⟩

/-- Inserting an alias for an entry that is gone leaves an alias that leads
elsewhere. -/
theorem insertsLive_of_consistent {s s' : Shared ι K A} {turn : Turn ι K A V}
    (hok : Ok cfg inUse s) (hstep : step cfg s turn = some s')
    (hconsistent : AliasesConsistent s'.map) : InsertsLive s turn := by
  cases turn with
  | call t attrs f => trivial
  | clear => trivial
  | take => trivial
  | visitBucket cb => trivial
  | step t =>
      cases hpc : s.pcs t with
      | insertDup key bucket f =>
          simp only [InsertsLive, hpc]
          by_contra hgone
          rw [not_or] at hgone
          simp only [step, advance, hpc, Option.map_some] at hstep
          obtain rfl := Option.some_inj.mp hstep
          have hkey := hok.threads t
          rw [hpc] at hkey
          have hmem : ({ key := key, bucket := bucket } : AliasEntry K) ∈
              (s.map.insertDup cfg key bucket).aliases.elems :=
            ((BucketMap.insertDup_spec hok.inv.dup hkey.1 bucket).2 _).mpr
              (Or.inr ⟨rfl, hgone.2⟩)
          have hbucket := hconsistent _ hmem
          rw [BucketMap.bucketOf_insertDup] at hbucket
          exact hgone.1 hbucket
      | idle => simp [InsertsLive, hpc]
      | lookup attrs left f => simp [InsertsLive, hpc]
      | insertCanon prepared f => simp [InsertsLive, hpc]
      | record bucket f => simp [InsertsLive, hpc]
      | recordNoAttr f => simp [InsertsLive, hpc]
      | touchNoAttr => simp [InsertsLive, hpc]

/-- In a run, the alias table is consistent in every state passed through exactly
when no step inserts an alias for an entry that is gone. -/
theorem along_insertsLive_iff (hfree : CollisionFree cfg inUse) {last : Shared ι K A}
    {turns : List (Turn ι K A V)}
    (hlists : ∀ turn ∈ turns, ∀ attrs ∈ turn.lists, attrs ∈ inUse)
    (hrun : StepFn.run (step cfg) (init cfg ι) turns = some last) :
    StepFn.Along (step cfg) InsertsLive (init cfg ι) turns ↔
      ∀ done rest state, turns = done ++ rest →
        StepFn.run (step cfg) (init cfg ι) done = some state → AliasesConsistent state.map := by
  constructor
  · rintro halong done rest state rfl hdone
    have hok := run_ok hfree (ok_init ι cfg inUse)
      (fun turn hturn => hlists turn (List.mem_append_left rest hturn))
      (StepFn.along_append.mp halong).1 hdone
    exact aliasesConsistent_of_inv hok.inv
  · induction turns using List.reverseRecOn generalizing last with
    | nil => exact fun _ => trivial
    | append_singleton turns turn ih =>
        intro hall
        obtain ⟨middle, hbefore, hstep⟩ := (StepFn.run_concat_eq_some (step cfg)).mp hrun
        have hlists' : ∀ turn ∈ turns, ∀ attrs ∈ turn.lists, attrs ∈ inUse :=
          fun other hother => hlists other (List.mem_append_left [turn] hother)
        have halong := ih hlists' hbefore fun done rest state hsplit =>
          hall done (rest ++ [turn]) state (by rw [hsplit, List.append_assoc])
        rw [StepFn.along_concat]
        refine ⟨halong, fun state hstate => ?_⟩
        obtain rfl : middle = state := Option.some_inj.mp (hbefore.symm.trans hstate)
        have hok := run_ok hfree (ok_init ι cfg inUse) hlists' halong hbefore
        exact insertsLive_of_consistent hok hstep
          (hall (turns ++ [turn]) [] last (List.append_nil _).symm hrun)

/-! ## A call that no other call disturbs -/

/-- The steps a thread has left lead, when nobody else takes one, to the given map. -/
inductive Finishes (cfg : Config K A) : BucketMap K A → Pc K A → BucketMap K A → Prop
  | idle (m : BucketMap K A) : Finishes cfg m .idle m
  | next {m m' last : BucketMap K A} {pc pc' : Pc K A}
      (hadvance : advance cfg m pc = some (m', pc')) (hrest : Finishes cfg m' pc' last) :
      Finishes cfg m pc last

theorem run_of_finishes {s : Shared ι K A} {t : ι} {m' : BucketMap K A}
    (h : Finishes cfg s.map (s.pcs t) m') :
    ∃ n, StepFn.run (step (V := V) cfg) s (List.replicate n (.step t)) =
      some { map := m', pcs := Function.update s.pcs t .idle } := by
  generalize hm : s.map = m at h
  generalize hpc : s.pcs t = pc at h
  induction h generalizing s with
  | idle m =>
      refine ⟨0, ?_⟩
      rw [← hpc, Function.update_eq_self, ← hm]
      rfl
  | @next m m' last pc pc' hadvance hrest ih =>
      have hnext : step (V := V) cfg s (.step t) =
          some { map := m', pcs := Function.update s.pcs t pc' } := by
        rw [step, hm, hpc, hadvance, Option.map_some]
      obtain ⟨n, hrun⟩ := ih (s := { map := m', pcs := Function.update s.pcs t pc' }) rfl
        (Function.update_self t pc' s.pcs)
      refine ⟨n + 1, ?_⟩
      rw [List.replicate_succ, StepFn.run_cons, hnext, Option.bind_some, hrun,
        Function.update_idem]

theorem finishes_record (m : BucketMap K A) (bucket : BucketRef) (f : A → A) :
    Finishes cfg m (.record bucket f) (m.modifyCell bucket f) :=
  .next rfl (.idle _)

/-- The lookups end with the first hit, or go on to prepare the insertions. -/
theorem finishes_lookup {m last : BucketMap K A} {attrs : List K} {left : List Probe}
    {f : A → A}
    (hlast : match left.findSome? (probe cfg m attrs) with
      | some bucket => last = m.modifyCell bucket f
      | none => Finishes cfg m (.lookup attrs [] f) last) :
    Finishes cfg m (.lookup attrs left f) last := by
  induction left with
  | nil => exact hlast
  | cons p left ih =>
      cases hprobe : probe cfg m attrs p with
      | some bucket =>
          simp only [List.findSome?_cons, hprobe] at hlast
          subst hlast
          exact .next (by simp only [advance, hprobe]) (finishes_record m bucket f)
      | none =>
          simp only [List.findSome?_cons, hprobe] at hlast
          exact .next (by simp only [advance, hprobe]) (ih hlast)

variable (cfg) in
/-- The lookups of `get_bucket`, in the order it makes them. -/
theorem getBucket_eq_probes (m : BucketMap K A) {attrs : List K} (hne : attrs ≠ []) :
    m.getBucket cfg attrs =
      match (probes attrs).findSome? (probe cfg m attrs) with
      | some bucket => .ok bucket
      | none => .error (AttrFingerprint.commutativeHash cfg.hasher attrs,
          BucketMap.canonHash cfg attrs) := by
  have hempty : attrs.isEmpty = false := by simpa using hne
  simp only [BucketMap.getBucket, hempty, Bool.false_eq_true, if_false, probes,
    ← BucketMap.canonHash.eq_1]
  cases hc : m.lookupCanon (BucketMap.canonHash cfg attrs) attrs <;>
    cases hd : m.lookupDup cfg (AttrFingerprint.commutativeHash cfg.hasher attrs) attrs <;>
    split_ifs <;> simp [probe, hc, hd]

/-- What the insertions of `get_or_create` and the write after them do. -/
theorem finishes_insertCanon (m : BucketMap K A) (prepared : Prepared K) (f : A → A) :
    Finishes cfg m (.insertCanon prepared f)
      ((m.insertPrepared cfg prepared).1.modifyCell (m.insertPrepared cfg prepared).2 f) := by
  cases halias : prepared.aliasKey with
  | none =>
      simp only [BucketMap.insertPrepared, halias]
      exact .next (by simp only [advance, halias]) (finishes_record _ _ f)
  | some key =>
      simp only [BucketMap.insertPrepared, halias]
      exact .next (by simp only [advance, halias]; rfl) (.next rfl (finishes_record _ _ f))

/-- Undisturbed, a call does what the map's own operation does. -/
theorem finishes_start (m : BucketMap K A) (attrs : List K) (f : A → A) :
    Finishes cfg m (start attrs f)
      (if attrs.isEmpty then m.writeNoAttr f else m.updateBucket cfg attrs f) := by
  cases attrs with
  | nil => exact .next rfl (.next rfl (.idle _))
  | cons kv rest =>
      show Finishes cfg m (.lookup (kv :: rest) (probes (kv :: rest)) f)
        (m.updateBucket cfg (kv :: rest) f)
      have hget := getBucket_eq_probes cfg m (List.cons_ne_nil kv rest)
      apply finishes_lookup
      cases hprobes : (probes (kv :: rest)).findSome? (probe cfg m (kv :: rest)) with
      | some bucket =>
          rw [hprobes] at hget
          simp only [BucketMap.updateBucket, BucketMap.getOrCreate, hget]
      | none =>
          rw [hprobes] at hget
          simp only [BucketMap.updateBucket, BucketMap.getOrCreate, hget]
          exact .next rfl (finishes_insertCanon m _ f)

variable (cfg) in
/-- A call whose steps follow one another does what the map's own operation does. -/
theorem run_call {s : Shared ι K A} {t : ι} (hidle : s.pcs t = .idle) (attrs : List K)
    (f : A → A) :
    ∃ n, StepFn.run (step (V := V) cfg) s (.call t attrs f :: List.replicate n (.step t)) =
      some
        { map := if attrs.isEmpty then s.map.writeNoAttr f else s.map.updateBucket cfg attrs f
          pcs := s.pcs } := by
  have hcall : step (V := V) cfg s (.call t attrs f) =
      some { s with pcs := Function.update s.pcs t (start attrs f) } := by
    rw [step, hidle]
  have hfinishes : Finishes cfg s.map (Function.update s.pcs t (start attrs f) t)
      (if attrs.isEmpty then s.map.writeNoAttr f else s.map.updateBucket cfg attrs f) := by
    rw [Function.update_self]
    exact finishes_start s.map attrs f
  obtain ⟨n, hrun⟩ := run_of_finishes (V := V)
    (s := { s with pcs := Function.update s.pcs t (start attrs f) }) hfinishes
  refine ⟨n, ?_⟩
  rw [StepFn.run_cons, hcall, Option.bind_some, hrun, Function.update_idem, ← hidle,
    Function.update_eq_self]

/-! ## What the next drain sees -/

/-- The bucket a drain reads under a list of attributes. -/
def ReadsFrom (m : BucketMap K A) (attrs : List K) (bucket : BucketRef) : Prop :=
  if attrs = [] then m.noAttrEntry.bucket = bucket ∧ m.noAttrTouched = true
  else m.bucketOf attrs.toFinset = some bucket

/-- What `take` returns for a list and what `visit_bucket` shows for it. -/
structure Seen (cfg : Config K A) (m : BucketMap K A) (attrs : List K) (value : V) : Prop where
  taken : if attrs = [] then m.take.2.2 = some value
    else (normalize attrs, value) ∈ m.take.1.readTable m.take.2.1
  visited : ∀ cb : Callback K V, ∃ call ∈ (m.visitBucket cfg (logCalls cb) []).2,
    call.attrs = normalize attrs ∧ call.value = value

theorem seen_of_readsFrom {m : BucketMap K A} (hinv : BucketMap.Inv cfg inUse m)
    {attrs : List K} {bucket : BucketRef} (hreads : ReadsFrom m attrs bucket) :
    Seen cfg m attrs (Record.current (m.cells bucket)) := by
  have hshown : (normalize attrs, Record.current (m.cells bucket)) ∈
      m.readTable m.canonical ++ m.shownNoAttr := by
    rw [ReadsFrom] at hreads
    split at hreads
    · rename_i hnil
      subst hnil
      obtain ⟨rfl, htouched⟩ := hreads
      apply List.mem_append_right
      rw [BucketMap.shownNoAttr, if_pos htouched]
      exact List.mem_singleton_self _
    · apply List.mem_append_left
      obtain ⟨e, he, hattrs, rfl⟩ :=
        (BucketMap.bucketOf_toFinset_eq_some_iff hinv.canon).mp hreads
      exact List.mem_map.mpr ⟨e, he, by rw [hattrs]⟩
  constructor
  · rw [ReadsFrom] at hreads
    split at hreads
    · rename_i hnil
      obtain ⟨rfl, htouched⟩ := hreads
      rw [if_pos hnil, (BucketMap.take_spec hinv).2.2, if_pos htouched]
      rfl
    · rename_i hne
      obtain ⟨e, he, hattrs, rfl⟩ :=
        (BucketMap.bucketOf_toFinset_eq_some_iff hinv.canon).mp hreads
      have hcell : m.take.1.cells e.bucket = m.cells e.bucket :=
        Function.update_of_ne (hinv.buckets.ne_noAttr e he) _ _
      rw [if_neg hne]
      exact List.mem_map.mpr ⟨e, he, by rw [hattrs, hcell]⟩
  · intro cb
    rw [BucketMap.visited_eq hinv cb]
    exact (mem_callEach cb []).2 _ hshown

/-- As long as nothing is drained, a list keeps its bucket. -/
theorem readsFrom_step {s s' : Shared ι K A} {turn : Turn ι K A V} (hok : Ok cfg inUse s)
    (hlive : InsertsLive s turn) (hquiet : ¬ turn.Drains) (hstep : step cfg s turn = some s')
    {attrs : List K} {bucket : BucketRef} (hreads : ReadsFrom s.map attrs bucket) :
    ReadsFrom s'.map attrs bucket := by
  cases turn with
  | call t attrs' f =>
      simp only [step] at hstep
      split at hstep
      · obtain rfl := Option.some_inj.mp hstep
        exact hreads
      · simp at hstep
  | step t =>
      obtain ⟨⟨m', pc'⟩, hadvance, rfl⟩ := Option.map_eq_some_iff.mp hstep
      have hspec := advanced_of_insertsLive hok hlive hadvance
      by_cases hnil : attrs = []
      · rw [ReadsFrom, if_pos hnil] at hreads ⊢
        exact ⟨by rw [hspec.noAttrEntry, hreads.1], hspec.noAttrTouched hreads.2⟩
      · rw [ReadsFrom, if_neg hnil] at hreads ⊢
        exact hspec.bucketOf _ _ hreads
  | clear => exact absurd trivial hquiet
  | take => exact absurd trivial hquiet
  | visitBucket cb => exact absurd trivial hquiet

/-- The value a call writes over: the set's, or that of a new bucket. -/
def valueBefore (cfg : Config K A) (m : BucketMap K A) (attrs : List K) : A :=
  if attrs = [] then m.noAttrCell else (m.valueOf attrs.toFinset).getD cfg.initBucket

/-- The map's own operation writes through the bucket the next drain reads. -/
theorem readsFrom_write (hfree : CollisionFree cfg inUse) {m : BucketMap K A}
    (hinv : BucketMap.Inv cfg inUse m) {attrs : List K} (hattrs : attrs ∈ inUse) (f : A → A) :
    ∃ bucket, ReadsFrom (if attrs.isEmpty then m.writeNoAttr f
        else m.updateBucket cfg attrs f) attrs bucket ∧
      (if attrs.isEmpty then m.writeNoAttr f else m.updateBucket cfg attrs f).cells bucket =
        f (valueBefore cfg m attrs) := by
  cases attrs with
  | nil => exact ⟨m.noAttrEntry.bucket, ⟨rfl, rfl⟩, (BucketMap.writeNoAttr_spec hinv f).2.2.1⟩
  | cons kv rest =>
      have hwritten := BucketMap.updateBucket_spec hfree hinv (List.cons_ne_nil kv rest) hattrs f
      have hvalue := congrFun hwritten.valueOf (kv :: rest).toFinset
      rw [Function.update_self, BucketMap.valueOf, Option.map_eq_some_iff] at hvalue
      obtain ⟨bucket, hbucket, hcell⟩ := hvalue
      exact ⟨bucket, hbucket, hcell⟩

/-- Taking its steps one after the other, a call writes through a bucket that the
next drain reads, whatever calls come in between. -/
def SeenByNextDrain (cfg : Config K A) (inUse : Set (List K)) (s : Shared ι K A) (t : ι)
    (attrs : List K) (f : A → A) : Prop :=
  ∃ n after bucket,
    StepFn.run (step (V := V) cfg) s (.call t attrs f :: List.replicate n (.step t)) =
      some after ∧
    after.map.cells bucket = f (valueBefore cfg s.map attrs) ∧
    ∀ later last, (∀ turn ∈ later, ¬ turn.Drains ∧ ∀ attrs ∈ turn.lists, attrs ∈ inUse) →
      StepFn.Along (step cfg) InsertsLive after later →
      StepFn.run (step cfg) after later = some last →
      Seen cfg last.map attrs (Record.current (last.map.cells bucket))

theorem seenByNextDrain_of_quiet (hfree : CollisionFree cfg inUse) {s : Shared ι K A}
    (hinv : BucketMap.Inv cfg inUse s.map) (hquiet : ∀ t, s.pcs t = .idle) (t : ι)
    {attrs : List K} (hattrs : attrs ∈ inUse) (f : A → A) :
    SeenByNextDrain cfg inUse s t attrs f := by
  obtain ⟨n, hrun⟩ := run_call cfg (V := V) (hquiet t) attrs f
  obtain ⟨bucket, hreads, hcell⟩ := readsFrom_write hfree hinv hattrs f
  refine ⟨n, _, bucket, hrun, hcell, fun later last hlater halong hlast => ?_⟩
  have hstart : Ok cfg inUse ({
      map := if attrs.isEmpty then s.map.writeNoAttr f else s.map.updateBucket cfg attrs f
      pcs := s.pcs } : Shared ι K A) :=
    ⟨(BucketMap.inv_write hinv hattrs f), fun other => by rw [hquiet other]; trivial⟩
  have hend := StepFn.invariant_of_step_along
    (fun state : Shared ι K A => Ok cfg inUse state ∧ ReadsFrom state.map attrs bucket)
    (fun turn hturn state next hhere hlive hstep =>
      ⟨step_ok hfree hhere.1 (hlater turn hturn).2 hlive hstep,
        readsFrom_step hhere.1 hlive (hlater turn hturn).1 hstep hhere.2⟩)
    ⟨hstart, hreads⟩ halong hlast
  exact seen_of_readsFrom hend.1.inv hend.2

/-- Writers and drains in any order: every alias leads to the bucket of the canonical
entry of its set, in every state passed through, exactly when no step inserts an
alias for an entry that is gone.  In such a run a call issued while no other is in
progress is seen by the next drain. -/
theorem aliases_consistent_iff (hfree : CollisionFree cfg inUse) {last : Shared ι K A}
    {turns : List (Turn ι K A V)}
    (hlists : ∀ turn ∈ turns, ∀ attrs ∈ turn.lists, attrs ∈ inUse)
    (hrun : StepFn.run (step cfg) (init cfg ι) turns = some last) :
    (StepFn.Along (step cfg) InsertsLive (init cfg ι) turns ↔
        ∀ done rest state, turns = done ++ rest →
          StepFn.run (step cfg) (init cfg ι) done = some state →
            AliasesConsistent state.map) ∧
      (StepFn.Along (step cfg) InsertsLive (init cfg ι) turns →
        (∀ t, last.pcs t = .idle) → ∀ t attrs f, attrs ∈ inUse →
          SeenByNextDrain cfg inUse last t attrs f) := by
  refine ⟨along_insertsLive_iff hfree hlists hrun, fun halong hquiet t attrs f hattrs => ?_⟩
  have hok := run_ok hfree (ok_init ι cfg inUse) hlists halong hrun
  exact seenByNextDrain_of_quiet hfree hok.inv hquiet t hattrs f

/-- One call from start to end, then another of the same list. -/
theorem aliases_consistent_iff_one_thread :
    let cfg := Config.withHasher UInt64 ⟨UInt64.ofNat, AttrFingerprint.sum⟩ Layout.stack
    ∃ last, StepFn.run (step cfg) (init cfg Unit)
        (.call () [2, 1] (· + 5) :: List.replicate 6 (.step ())) = some last ∧
      AliasesConsistent last.map ∧ SeenByNextDrain cfg {[2, 1]} last () [2, 1] (· + 7) := by
  intro cfg
  have hfree : CollisionFree cfg {[2, 1]} :=
    CollisionFree.of_perm [2, 1] fun attrs hattrs => by
      obtain rfl : attrs = [2, 1] := hattrs
      exact List.Perm.refl _
  refine ⟨_, rfl, ?_⟩
  have halong : StepFn.Along (step cfg) InsertsLive (init cfg Unit)
      (.call () [2, 1] (· + 5) :: List.replicate 6 (.step ())) := by
    refine (StepFn.along_cons_of_eq_some rfl).mpr ⟨trivial, ?_⟩
    refine (StepFn.along_cons_of_eq_some rfl).mpr ⟨trivial, ?_⟩
    refine (StepFn.along_cons_of_eq_some rfl).mpr ⟨trivial, ?_⟩
    refine (StepFn.along_cons_of_eq_some rfl).mpr ⟨trivial, ?_⟩
    refine (StepFn.along_cons_of_eq_some rfl).mpr ⟨trivial, ?_⟩
    -- The alias is inserted for the entry that was created two steps before.
    refine (StepFn.along_cons_of_eq_some rfl).mpr ⟨Or.inl ?_, ?_⟩
    · rw [BucketMap.bucketOf, ← normalize_eq_sort]
      rfl
    · exact (StepFn.along_cons_of_eq_some rfl).mpr ⟨trivial, trivial⟩
  have hlists : ∀ turn ∈ (.call () [2, 1] (· + 5) :: List.replicate 6 (.step ()) :
      List (Turn Unit Nat UInt64 UInt64)), ∀ attrs ∈ turn.lists, attrs ∈ ({[2, 1]} : Set _) := by
    intro turn hturn attrs hattrs
    cases List.mem_cons.mp hturn with
    | inl hcall =>
        subst hcall
        exact List.mem_singleton.mp hattrs
    | inr hstep =>
        obtain rfl := List.eq_of_mem_replicate hstep
        simp [Turn.lists] at hattrs
  have hiff := aliases_consistent_iff hfree hlists rfl
  exact ⟨hiff.1.mp halong _ [] _ (List.append_nil _).symm rfl,
    hiff.2 halong (fun _ => rfl) () [2, 1] (· + 7) rfl⟩

/-- A drain between the two insertions of a call: the alias it then inserts leads to
a bucket that no entry has, and a later call that nothing disturbs writes there, so
the drain after it finds nothing. -/
theorem alias_left_dangling :
    let cfg := Config.withHasher UInt64 ⟨UInt64.ofNat, AttrFingerprint.sum⟩ Layout.stack
    let drained : List (Turn Unit Nat UInt64 UInt64) :=
      .call () [2, 1] (· + 5) :: List.replicate 4 (.step ()) ++
        .take :: List.replicate 2 (.step ())
    CollisionFree cfg {[2, 1]} ∧
      (∃ state, StepFn.run (step cfg) (init cfg Unit) drained = some state ∧
        state.pcs () = .idle ∧ ¬ AliasesConsistent state.map) ∧
      (StepFn.run (step cfg) (init cfg Unit)
          (drained ++ .call () [2, 1] (· + 7) :: List.replicate 2 (.step ()))).map
        (fun last => ((last.pcs ()).isIdle, last.map.take.2.1.elems.map CanonicalEntry.attrs,
          last.map.take.2.2)) = some (true, [], none) := by
  intro cfg drained
  refine ⟨?_, ⟨_, rfl, rfl, ?_⟩, by decide +kernel⟩
  · apply CollisionFree.of_perm [2, 1]
    intro attrs hattrs
    obtain rfl : attrs = [2, 1] := hattrs
    exact List.Perm.refl _
  · intro hconsistent
    have hbucket := hconsistent _ List.mem_cons_self
    cases hbucket

end Shared

end Ohnotel
