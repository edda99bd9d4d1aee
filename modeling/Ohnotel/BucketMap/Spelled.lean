/-
# What writers leave for reads to find

A write enters its set in the canonical table before it enters the ordering it was given in
the alias table, and makes its addition when it has done both.  While nothing is removed
what a lookup finds once it finds again, so the lists of the writes that were made are all
known to the map, and the map knows no list but through those that writers were called with.
-/

import Ohnotel.BucketMap.Reads
import Ohnotel.Observe.Visits

namespace Ohnotel

open Foundation Atomic

/-! ## What a lookup finds, it finds again -/

namespace BucketMap

variable {K A : Type} [LinearOrder K] {cfg : Config K A} {inUse : Set (List K)}
  {m m' : BucketMap K A} {attrs : List K}

/-- One of the two lookups can find the list as it is written. -/
def Found (cfg : Config K A) (m : BucketMap K A) (attrs : List K) : Probe → Prop
  | .canon => normalize attrs = attrs ∧ (m.bucketOf attrs.toFinset).isSome
  | .dup => HasAlias m (AttrFingerprint.commutativeHash cfg.hasher attrs)

theorem known_iff_found : Known cfg m attrs ↔ ∃ p, Found cfg m attrs p := by
  constructor
  · rintro (hcanon | hdup)
    · exact ⟨.canon, hcanon⟩
    · exact ⟨.dup, hdup⟩
  · rintro ⟨p, hfound⟩
    cases p with
    | canon => exact Or.inl hfound
    | dup => exact Or.inr hfound

theorem probe_isSome_iff (hinv : Inv cfg inUse m) {p : Probe} :
    (Shared.probe cfg m attrs p).isSome ↔ Found cfg m attrs p := by
  rw [Option.isSome_iff_exists]
  cases p with
  | canon =>
      constructor
      · rintro ⟨bucket, hhit⟩
        obtain ⟨hnorm, hbucket⟩ := bucketOf_of_lookupCanon hinv.canon hhit
        exact ⟨hnorm, by rw [hbucket]; rfl⟩
      · rintro ⟨hnorm, hbucket⟩
        obtain ⟨bucket, hbucket⟩ := Option.isSome_iff_exists.mp hbucket
        rw [bucketOf_toFinset_eq_some_iff hinv.canon, hnorm] at hbucket
        exact ⟨bucket, (lookupCanon_canonHash hinv.canon).mpr hbucket⟩
  | dup =>
      show (∃ bucket, m.lookupDup cfg _ attrs = some bucket) ↔ HasAlias m _
      simp [lookupDup_eq_some_iff hinv.dup, HasAlias]

/-- The lookups of `get_bucket` are enough to find a list that the map knows. -/
theorem exists_probe (hfree : CollisionFree cfg inUse) (hinv : Inv cfg inUse m) (hne : attrs ≠ [])
    (hattrs : attrs ∈ inUse) (hknown : Known cfg m attrs) :
    ∃ p ∈ Shared.probes attrs, Found cfg m attrs p := by
  rcases getBucket_spec hfree hinv hne hattrs with ⟨_, bucket, _, hget⟩ | ⟨hunknown, _⟩
  · rw [Shared.getBucket_eq_probes cfg m hne] at hget
    split at hget
    · next found hfound =>
        obtain ⟨p, hp, hhit⟩ := List.exists_of_findSome?_eq_some hfound
        exact ⟨p, hp, (probe_isSome_iff hinv).mp (by rw [hhit]; rfl)⟩
    · cases hget
  · exact absurd hknown hunknown

/-- A step of a writer removes no alias. -/
theorem hasAlias_of_advance {pc pc' : Pc K A} (hinv : Inv cfg inUse m)
    (hok : Shared.ThreadOk cfg inUse m pc) (hstep : Shared.advance cfg m pc = some (m', pc'))
    {fp : AttrFingerprint} (h : HasAlias m fp) : HasAlias m' fp := by
  cases pc with
  | idle => cases hstep
  | lookup attrs left f =>
      cases left with
      | nil =>
          simp only [Shared.advance, Option.some.injEq, Prod.mk.injEq] at hstep
          exact hstep.1 ▸ h
      | cons p left =>
          simp only [Shared.advance] at hstep
          split at hstep
          · simp only [Option.some.injEq, Prod.mk.injEq] at hstep
            exact hstep.1 ▸ h
          · simp only [Option.some.injEq, Prod.mk.injEq] at hstep
            exact hstep.1 ▸ h
  | insertCanon prepared f =>
      obtain ⟨attrs, hne, hattrs, rfl⟩ := hok
      have hspec := insertCanon_aliasOf_spec hinv hne hattrs
      rw [prepare_eq] at hstep
      simp only [Shared.advance] at hstep
      split at hstep
      all_goals
        simp only [Option.some.injEq, Prod.mk.injEq] at hstep
        rw [← hstep.1, HasAlias, hspec.aliases]
        exact h
  | insertDup key bucket f =>
      simp only [Shared.advance, Option.some.injEq, Prod.mk.injEq] at hstep
      rw [← hstep.1, hasAlias_insertDup hinv hok.1]
      exact Or.inl h
  | record bucket f =>
      simp only [Shared.advance, Option.some.injEq, Prod.mk.injEq] at hstep
      exact hstep.1 ▸ h
  | recordNoAttr f =>
      simp only [Shared.advance, Option.some.injEq, Prod.mk.injEq] at hstep
      exact hstep.1 ▸ h
  | touchNoAttr =>
      simp only [Shared.advance, Option.some.injEq, Prod.mk.injEq] at hstep
      exact hstep.1 ▸ h

theorem Found.advance {pc pc' : Pc K A} {p : Probe} (h : Found cfg m attrs p)
    (hinv : Inv cfg inUse m) (hok : Shared.ThreadOk cfg inUse m pc)
    (hadvanced : Shared.Advanced cfg inUse m m' pc')
    (hstep : Shared.advance cfg m pc = some (m', pc')) : Found cfg m' attrs p := by
  cases p with
  | canon =>
      obtain ⟨hnorm, hbucket⟩ := h
      obtain ⟨bucket, hbucket⟩ := Option.isSome_iff_exists.mp hbucket
      exact ⟨hnorm, by rw [hadvanced.bucketOf _ _ hbucket]; rfl⟩
  | dup => exact hasAlias_of_advance hinv hok hstep h

end BucketMap

namespace Writers

variable {ι K : Type} [DecidableEq ι] [LinearOrder K] {cfg : Config K UInt64}
  {inUse : Set (List K)} {s s' : Writers ι K} {turn : WriterTurn ι K} {attrs : List K}

theorem found_of_step (hsound : Sound cfg inUse s) (hstep : step cfg s turn = some s') {p : Probe}
    (h : BucketMap.Found cfg s.shared.map attrs p) :
    BucketMap.Found cfg s'.shared.map attrs p := by
  cases took_of_step hstep with
  | call t w hidle => exact h
  | prepare t m' pc' hadvance _ =>
      exact h.advance hsound.ok.inv (hsound.ok.threads t) (advanced_of_advance hsound hadvance)
        hadvance
  | write t w bucket m' pc' hadvance _ =>
      exact h.advance hsound.ok.inv (hsound.ok.threads t) (advanced_of_advance hsound hadvance)
        hadvance

theorem known_of_step (hsound : Sound cfg inUse s) (hstep : step cfg s turn = some s')
    (h : BucketMap.Known cfg s.shared.map attrs) : BucketMap.Known cfg s'.shared.map attrs := by
  obtain ⟨p, hfound⟩ := BucketMap.known_iff_found.mp h
  exact BucketMap.known_iff_found.mpr ⟨p, found_of_step hsound hstep hfound⟩

/-- A thread that has got its bucket has made the map know its list. -/
theorem known_of_record {m m' : BucketMap K UInt64} {pc : Pc K UInt64} {w : Write K}
    {bucket : BucketRef} {f : UInt64 → UInt64} (hinv : BucketMap.Inv cfg inUse m)
    (hok : Shared.ThreadOk cfg inUse m pc) (hserves : Serves cfg m pc (some w))
    (hattrs : w.attrs ∈ inUse) (hstep : Shared.advance cfg m pc = some (m', .record bucket f)) :
    BucketMap.Known cfg m' w.attrs := by
  cases pc with
  | idle => exact hserves.elim
  | touchNoAttr => exact hserves.elim
  | lookup attrs left g =>
      obtain ⟨rfl, -⟩ := hserves
      cases left with
      | nil => simp [Shared.advance] at hstep
      | cons p left =>
          simp only [Shared.advance] at hstep
          split at hstep
          · next found hhit =>
              simp only [Option.some.injEq, Prod.mk.injEq] at hstep
              obtain ⟨rfl, -⟩ := hstep
              have hfound := (BucketMap.probe_isSome_iff hinv).mp (by rw [hhit]; rfl)
              exact BucketMap.known_iff_found.mpr ⟨p, hfound⟩
          · simp at hstep
  | insertCanon prepared g =>
      obtain ⟨hne, rfl, -⟩ := hserves
      have hspec := BucketMap.insertCanon_aliasOf_spec hinv hne hattrs
      rw [BucketMap.prepare_eq] at hstep
      cases halias : BucketMap.aliasOf cfg w.attrs with
      | some key => simp [Shared.advance, halias] at hstep
      | none =>
          have hnorm : normalize w.attrs = w.attrs := by
            simpa [BucketMap.aliasOf] using halias
          simp only [Shared.advance, halias, Option.some.injEq, Prod.mk.injEq] at hstep hspec
          rw [← hstep.1]
          exact Or.inl ⟨hnorm, by rw [hspec.obtains.bucketOf_eq]; rfl⟩
  | insertDup key found g =>
      obtain ⟨hkey, -, -⟩ := hserves
      simp only [Shared.advance, Option.some.injEq, Prod.mk.injEq] at hstep
      right
      show BucketMap.HasAlias m' _
      rw [← hstep.1, BucketMap.hasAlias_insertDup hinv hok.1, hok.1.fp_eq, hkey]
      exact Or.inr rfl
  | record found g => simp [Shared.advance] at hstep
  | recordNoAttr g => simp [Shared.advance] at hstep

/-- The map knows the lists that were written with. -/
structure Spelled (cfg : Config K UInt64) (s : Writers ι K) : Prop where
  ready : ∀ t w bucket f, s.pending t = some w → s.shared.pcs t = .record bucket f →
    BucketMap.Known cfg s.shared.map w.attrs
  recorded : ∀ r ∈ s.recorded, r.write.attrs ≠ [] →
    BucketMap.Known cfg s.shared.map r.write.attrs

omit [DecidableEq ι] in
theorem spelled_init : Spelled cfg (init cfg ι) where
  ready t w bucket f hpending := by simp [init] at hpending
  recorded r hr := by simp [init] at hr

/-- A write that is made is the one its thread had to make, on the bucket it was about to
write to. -/
theorem recorded_of_step (hstep : step cfg s turn = some s') {r : Recorded ι K}
    (hr : r ∈ s'.recorded) : r ∈ s.recorded ∨
      s.pending r.thread = some r.write ∧
        target s.shared.map (s.shared.pcs r.thread) = some r.bucket := by
  obtain ⟨shared, _, rfl⟩ := Option.map_eq_some_iff.mp hstep
  cases turn with
  | call t w => exact Or.inl hr
  | step t =>
      dsimp only at hr
      split at hr
      · next bucket w htarget hpending =>
          rcases List.mem_append.mp hr with hold | hnew
          · exact Or.inl hold
          · obtain rfl := List.mem_singleton.mp hnew
            exact Or.inr ⟨hpending, htarget⟩
      · exact Or.inl hr

theorem Spelled.step (h : Spelled cfg s) (hsound : Sound cfg inUse s)
    (hstep : Writers.step cfg s turn = some s') : Spelled cfg s' where
  ready := by
    have hkept : ∀ t w bucket f, s.pending t = some w → s.shared.pcs t = .record bucket f →
        BucketMap.Known cfg s'.shared.map w.attrs := fun t w bucket f hpending hpc =>
      known_of_step hsound hstep (h.ready t w bucket f hpending hpc)
    intro other w bucket f hpending hpc
    cases took_of_step hstep with
    | call t v hidle =>
        by_cases hother : other = t
        · subst hother
          simp only [Function.update_self, Shared.start] at hpc
          split at hpc <;> cases hpc
        · simp only [Function.update_of_ne hother] at hpending hpc
          exact hkept other w bucket f hpending hpc
    | prepare t m' pc' hadvance _ =>
        by_cases hother : other = t
        · subst hother
          simp only [Function.update_self] at hpc
          subst hpc
          have hwaits := hsound.threads other
          have hserves : Serves cfg s.shared.map (s.shared.pcs other) (some w) :=
            hpending ▸ hwaits.1
          exact known_of_record hsound.ok.inv (hsound.ok.threads other) hserves
            (hwaits.2 w hpending) hadvance
        · simp only [Function.update_of_ne hother] at hpc
          exact hkept other w bucket f hpending hpc
    | write t v target m' pc' hadvance hwrite =>
        by_cases hother : other = t
        · subst hother
          simp at hpending
        · simp only [Function.update_of_ne hother] at hpending hpc
          exact hkept other w bucket f hpending hpc
  recorded r hr hne := by
    rcases recorded_of_step hstep hr with hold | ⟨hpending, htarget⟩
    · exact known_of_step hsound hstep (h.recorded r hold hne)
    · have hserves : Serves cfg s.shared.map (s.shared.pcs r.thread) (some r.write) :=
        hpending ▸ (hsound.threads r.thread).1
      cases hpc : s.shared.pcs r.thread with
      | record bucket f =>
          exact known_of_step hsound hstep (h.ready r.thread r.write bucket f hpending hpc)
      | recordNoAttr f =>
          rw [hpc] at hserves
          exact absurd ((List.toFinset_eq_empty_iff _).mp hserves.1) hne
      | idle | lookup | insertCanon | insertDup | touchNoAttr => simp [target, hpc] at htarget

omit [DecidableEq ι] in
/-- Lists that were written with make the map know every list that can be read through
them. -/
theorem known_of_readable (hfree : CollisionFree cfg inUse) (hsound : Sound cfg inUse s)
    {lists : List (List K)}
    (hlists : ∀ list ∈ lists, list ∈ inUse ∧ (list ≠ [] → BucketMap.Known cfg s.shared.map list))
    (hne : attrs ≠ []) (hlive : Live lists attrs) (hreadable : Readable lists attrs) :
    BucketMap.Known cfg s.shared.map attrs := by
  have hinv := hsound.ok.inv
  rcases hreadable with hsorted | ⟨written, hwritten, hperm, hunsorted⟩
  · obtain ⟨written, hwritten, hset⟩ := hlive
    obtain ⟨huse, hknown⟩ := hlists written hwritten
    have hwritten_ne : written ≠ [] := by
      rintro rfl
      exact hne ((List.toFinset_eq_empty_iff _).mp hset.symm)
    rcases BucketMap.getBucket_spec hfree hinv hwritten_ne huse with
      ⟨_, bucket, hbucket, _⟩ | ⟨hunknown, _⟩
    · exact Or.inl ⟨normalize_eq_self_iff.mpr hsorted, by rw [← hset, hbucket]; rfl⟩
    · exact absurd (hknown hwritten_ne) hunknown
  · have hwritten_ne : written ≠ [] := by
      rintro rfl
      exact hunsorted .nil
    right
    rw [← AttrFingerprint.commutativeHash_eq_of_perm _ hperm]
    exact ((hlists written hwritten).2 hwritten_ne).resolve_left fun hcanon =>
      hunsorted (normalize_eq_self_iff.mp hcanon.1)

omit [DecidableEq ι] in
/-- The map knows no list but those that can be read through the lists of calls. -/
theorem readable_of_known (hfree : CollisionFree cfg inUse) (hattrs : attrs ∈ inUse)
    {called : List (List K)} (hsub : ∀ list ∈ called, list ∈ inUse)
    (hsound : Sound cfg {list | list ∈ called} s)
    (hhome : ∀ set bucket, s.shared.map.home set = some bucket → set ≠ ∅ →
      ∃ list ∈ called, list.toFinset = set)
    (hlarge : BucketMap.Inv cfg inUse s.shared.map) (hne : attrs ≠ [])
    (hknown : BucketMap.Known cfg s.shared.map attrs) :
    Live called attrs ∧ Readable called attrs := by
  have hset : attrs.toFinset ≠ ∅ := by simpa using hne
  rcases BucketMap.getBucket_spec hfree hlarge hne hattrs with
    ⟨_, bucket, hbucket, _⟩ | ⟨hunknown, _⟩
  · refine ⟨hhome _ bucket (BucketMap.home_of_bucketOf hlarge hbucket) hset, ?_⟩
    rcases hknown with ⟨hnorm, _⟩ | ⟨a, ha, hfp⟩
    · exact Or.inl (normalize_eq_self_iff.mp hnorm)
    · have hkey := hsound.ok.inv.dup.key_ok a ha
      refine Or.inr ⟨a.key.rawAttrs, hkey.mem, ?_, ?_⟩
      · exact hfree _ (hsub _ hkey.mem) _ hattrs (hkey.fp_eq.symm.trans hfp)
      · rw [← normalize_eq_self_iff]
        exact hkey.not_canonical
  · exact absurd hknown hunknown

end Writers

end Ohnotel
