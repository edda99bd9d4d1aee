/-
# One visit after the other

A visitor that visits a map again and again is shown more each time, as long as nothing is
drained: every set that it was shown before it is shown again, with the total of at least as
many writes.  What it has become is what its completed visits have made of it, and the visit
it may be in.
-/

import Ohnotel.Observe.Visits

namespace Ohnotel

open Foundation Atomic

namespace Visiting

variable {ι ρ K σ I : Type} [DecidableEq ι] [DecidableEq ρ] [LinearOrder K]
  {visitor : Visitor K UInt64 σ I Empty} {cfg : Config K UInt64} {inUse : Set (List K)}

/-! ## What a visit is bound to show -/

/-- A visit that begins now shows the set: there is an entry for it, or for no attributes the
flag. -/
structure Known (m : BucketMap K UInt64) (set : Finset K) : Prop where
  home : ∃ bucket, m.home set = some bucket
  touched : set = ∅ → m.noAttrTouched = true

theorem Known.writer {writers writers' : Writers ι K} {set : Finset K}
    (h : Known writers.shared.map set) (hfree : CollisionFree cfg inUse)
    (hsound : Writers.Sound cfg inUse writers) {turn : WriterTurn ι K}
    (hstep : Writers.step cfg writers turn = some writers') : Known writers'.shared.map set := by
  refine ⟨?_, fun hempty => (Writers.leaves_of_step hsound hstep).touched (h.touched hempty)⟩
  obtain ⟨bucket, hbucket⟩ := h.home
  refine ⟨bucket, ?_⟩
  cases hsound.moved hfree hstep with
  | call t w hidle => exact hbucket
  | flag t hpending => exact hbucket
  | prepare t w m' pc' hpending hgrown hcounted hserves => exact (hgrown.home set bucket hbucket).1
  | write t w target pc' hpending hhome hserves => exact hbucket

omit [DecidableEq ι] [DecidableEq ρ] in
/-- An entry that a visit shows is of a set that the next visits show too. -/
theorem known_of_entry {s : Visiting ι ρ K σ I} (hsound : Writers.Sound cfg inUse s.writers)
    {e : CanonicalEntry K} (he : e ∈ s.map.canonical.elems ∨
      e = s.map.noAttrEntry ∧ s.map.noAttrTouched = true) :
    Known s.map e.attrs.toFinset ∧ normalize e.attrs = e.attrs := by
  have hinv : BucketMap.Inv cfg inUse s.map := hsound.ok.inv
  rcases he with htable | ⟨rfl, htouched⟩
  · have hset : e.attrs.toFinset ∈ Writers.entrySets s.map := List.mem_map_of_mem htable
    obtain ⟨hne, hhome⟩ := hsound.mem_entrySets.mp hset
    exact ⟨⟨hhome, fun hempty => absurd hempty hne⟩, hinv.canon.canonical e htable⟩
  · rw [hinv.buckets.noAttr_attrs]
    exact ⟨⟨⟨_, BucketMap.home_empty s.map⟩, fun _ => htouched⟩, rfl⟩

/-- What was shown once is known from then on. -/
structure Recalled (s : Visiting ι ρ K σ I) : Prop where
  known : ∀ x ∈ s.sightings, Known s.map x.set ∧ normalize x.entry.attrs = x.entry.attrs
  touched : ∀ v, s.visit = some v → v.stage = .noAttr → s.map.noAttrTouched = true

variable (visitor) in
omit [DecidableEq ι] in
theorem Recalled.sight {s : Visiting ι ρ K σ I} (h : Recalled s)
    (hsound : Writers.Sound cfg inUse s.writers) (v : OpenVisit ρ K I) {e : CanonicalEntry K}
    (he : e ∈ s.map.canonical.elems ∨ e = s.map.noAttrEntry ∧ s.map.noAttrTouched = true) :
    ∀ x ∈ (s.sight visitor v e).sightings,
      Known s.map x.set ∧ normalize x.entry.attrs = x.entry.attrs := by
  intro x hx
  rcases List.mem_append.mp hx with hold | hnew
  · exact h.known x hold
  · obtain rfl := List.mem_singleton.mp hnew
    exact known_of_entry hsound he

theorem Recalled.step (hfree : CollisionFree cfg inUse) {s s' : Visiting ι ρ K σ I}
    {turn : VisitTurn ι ρ K I Empty} (h : Recalled s) (horderly : Orderly cfg inUse s)
    (hstep : Visiting.step visitor cfg s turn = some s') : Recalled s' := by
  have hsound := horderly.sound
  cases stepped_of_step hstep with
  | writer turn writers hblocked hwriters =>
      refine ⟨fun x hx => ⟨(h.known x hx).1.writer hfree hsound hwriters, (h.known x hx).2⟩, ?_⟩
      intro v hvisit hstage
      exact (Writers.leaves_of_step hsound hwriters).touched (h.touched v hvisit hstage)
  | begin r input hvisit =>
      refine ⟨h.known, fun v hv hstage => ?_⟩
      obtain rfl := Option.some_inj.mp hv
      cases hstage
  | visit v hvisit =>
      unfold Visiting.proceed
      split
      · next e left hstage =>
          have he := horderly.dated.left v _ hvisit hstage e List.mem_cons_self
          refine ⟨h.sight visitor hsound v (.inl he), fun v' hv' hstage' => ?_⟩
          obtain rfl := Option.some_inj.mp hv'
          cases hstage'
      · split
        · next htouched => exact ⟨h.known, fun _ _ _ => htouched⟩
        · exact ⟨h.known, nofun⟩
      · next hstage =>
          exact ⟨h.sight visitor hsound v (.inr ⟨rfl, h.touched v hvisit hstage⟩), nofun⟩
  | own r op hvisit => exact op.elim

/-! ## The visits of one visitor -/

/-- A later visit shows all that an earlier one has shown, each after at least as many
writes. -/
structure Follows (earlier later : List (Sighting ρ K)) : Prop where
  after : ∀ x ∈ earlier, ∀ y ∈ later, x.after ≤ y.after
  shown : ∀ x ∈ earlier, ∃ y ∈ later, y.entry.attrs = x.entry.attrs

/-- The visits that a visitor has completed, each with its input and what it was shown, and
what they have made of the visitor. -/
structure Logged (visitor : Visitor K UInt64 σ I Empty) (start : σ) (s : Visiting ι ρ K σ I)
    (state : σ) (visits : List (I × List (Sighting ρ K))) : Prop where
  state : state =
    visits.foldl (fun state visit => visitor.close (told visitor visit.1 state visit.2)) start
  follows : visits.Pairwise fun earlier later => Follows earlier.2 later.2
  sightings : ∀ visit ∈ visits, ∀ x ∈ visit.2, x ∈ s.sightings

omit [DecidableEq ι] [DecidableEq ρ] [LinearOrder K] in
theorem Logged.later {start state : σ} {s s' : Visiting ι ρ K σ I}
    {visits : List (I × List (Sighting ρ K))} (h : Logged visitor start s state visits)
    (hsightings : s.sightings <+: s'.sightings) : Logged visitor start s' state visits :=
  ⟨h.state, h.follows, fun visit hvisit x hx => hsightings.subset (h.sightings visit hvisit x hx)⟩

/-- A visitor is what its completed visits have made of it, or in a visit, and was that when
the visit began. -/
structure Repeats (visitor : Visitor K UInt64 σ I Empty) (cfg : Config K UInt64)
    (inUse : Set (List K)) (start : ρ → σ) (s : Visiting ι ρ K σ I) : Prop where
  resting : ∀ r, (∀ v ∈ s.visit, v.visitor ≠ r) →
    ∃ visits, Logged visitor (start r) s (s.visitors r) visits
  visiting : ∀ v ∈ s.visit, ∃ first seen visits, Orderly cfg inUse first ∧ Recalled first ∧
    Holding visitor first v.visitor v.input s seen v.stage ∧
    Logged visitor (start v.visitor) first (first.visitors v.visitor) visits

omit [DecidableEq ι] [DecidableEq ρ] in
/-- A visit that is over joins those before it. -/
theorem Over.logged {first s : Visiting ι ρ K σ I} {r : ρ} {input : I} {start : σ}
    {seen : List (Sighting ρ K)} {visits : List (I × List (Sighting ρ K))}
    (h : Over visitor first r input s seen) (hfirst : Orderly cfg inUse first)
    (hrecalled : Recalled first) (hlast : Recalled s)
    (hvisits : Logged visitor start first (first.visitors r) visits) :
    Logged visitor start s (s.visitors r) (visits ++ [(input, seen)]) := by
  have hseen : ∀ x ∈ seen, x ∈ s.sightings := by
    intro x hx
    rw [h.sightings]
    exact List.mem_append_right _ hx
  refine ⟨?_, ?_, fun visit hvisit x hx => ?_⟩
  · rw [List.foldl_concat, ← hvisits.state]
    exact h.visitors
  · apply List.pairwise_append.mpr
    refine ⟨hvisits.follows, List.pairwise_singleton _ _, fun earlier hearlier later hlater => ?_⟩
    obtain rfl := List.mem_singleton.mp hlater
    refine ⟨fun x hx y hy => ?_, fun x hx => ?_⟩
    · exact (hfirst.dated.after x (hvisits.sightings earlier hearlier x hx)).trans (h.since y hy).2
    · -- What was shown before the visit began was known then, so the visit has shown it.
      obtain ⟨hknown, hnormal⟩ := hrecalled.known x (hvisits.sightings earlier hearlier x hx)
      obtain ⟨up, hup, hentries⟩ := h.shown
      have hshown : ∃ y ∈ seen, y.set = x.set := by
        by_cases hempty : x.set = ∅
        · have hinv : BucketMap.Inv cfg inUse first.map := hfirst.sound.ok.inv
          have hmem : first.map.noAttrEntry ∈ seen.map Sighting.entry := by
            rw [hentries, hup (hknown.touched hempty)]
            simp
          obtain ⟨y, hy, hentry⟩ := List.mem_map.mp hmem
          refine ⟨y, hy, ?_⟩
          rw [hempty, Sighting.set, hentry, hinv.buckets.noAttr_attrs]
          rfl
        · have hset : x.set ∈ Writers.entrySets first.map :=
            hfirst.sound.mem_entrySets.mpr ⟨hempty, hknown.home⟩
          obtain ⟨e, he, hattrs⟩ := List.mem_map.mp hset
          have hmem : e ∈ seen.map Sighting.entry := by
            rw [hentries]
            exact List.mem_append_left _ he
          obtain ⟨y, hy, rfl⟩ := List.mem_map.mp hmem
          exact ⟨y, hy, hattrs⟩
      obtain ⟨y, hy, hset⟩ := hshown
      refine ⟨y, hy, ?_⟩
      rw [← (hlast.known y (hseen y hy)).2, ← hnormal]
      exact normalize_eq_normalize_iff.mpr hset
  · rcases List.mem_append.mp hvisit with hold | hnew
    · rw [h.sightings]
      exact List.mem_append_left _ (hvisits.sightings visit hold x hx)
    · obtain rfl := List.mem_singleton.mp hnew
      exact hseen x hx

variable (visitor) in
omit [DecidableEq ι] [LinearOrder K] in
theorem visitors_proceed_of_ne (s : Visiting ι ρ K σ I) {v : OpenVisit ρ K I} {r : ρ}
    (hr : v.visitor ≠ r) : (s.proceed visitor v).visitors r = s.visitors r := by
  unfold Visiting.proceed
  split
  · exact Function.update_of_ne (Ne.symm hr) _ _
  · split
    · rfl
    · exact Function.update_of_ne (Ne.symm hr) _ _
  · show Function.update (Function.update s.visitors v.visitor _) v.visitor _ r = s.visitors r
    rw [Function.update_of_ne (Ne.symm hr), Function.update_of_ne (Ne.symm hr)]

variable (visitor) in
omit [DecidableEq ι] [LinearOrder K] in
theorem sightings_proceed (s : Visiting ι ρ K σ I) (v : OpenVisit ρ K I) :
    s.sightings <+: (s.proceed visitor v).sightings := by
  unfold Visiting.proceed
  split
  · exact List.prefix_append _ _
  · split
    · exact List.prefix_rfl
    · exact List.prefix_rfl
  · exact List.prefix_append _ _

theorem Repeats.step (hfree : CollisionFree cfg inUse) {start : ρ → σ}
    {s s' : Visiting ι ρ K σ I} {turn : VisitTurn ι ρ K I Empty}
    (h : Repeats visitor cfg inUse start s) (horderly : Orderly cfg inUse s)
    (hrecalled : Recalled s) (hstep : Visiting.step visitor cfg s turn = some s') :
    Repeats visitor cfg inUse start s' := by
  have hrecalled' := hrecalled.step hfree horderly hstep
  cases stepped_of_step hstep with
  | writer turn writers hblocked hwriters =>
      refine ⟨fun r hr => ?_, fun v hv => ?_⟩
      · obtain ⟨visits, hvisits⟩ := h.resting r hr
        exact ⟨visits, hvisits.later List.prefix_rfl⟩
      · obtain ⟨first, seen, visits, hfirst, hfound, hholding, hvisits⟩ := h.visiting v hv
        rcases hholding.step horderly.sound hstep with ⟨seen', stage', hgoes⟩ | ⟨_, hturn, _⟩
        · have hstage : stage' = v.stage := congrArg OpenVisit.stage
            (Option.some_inj.mp (hgoes.visit.symm.trans (Option.mem_def.mp hv)))
          exact ⟨first, seen', visits, hfirst, hfound, hstage ▸ hgoes, hvisits⟩
        · cases hturn
  | begin r input hvisit =>
      have hfree : ∀ other, ∃ visits, Logged visitor (start other) s (s.visitors other) visits :=
        fun other => h.resting other (by simp [hvisit])
      refine ⟨fun other _ => ?_, fun v hv => ?_⟩
      · obtain ⟨visits, hvisits⟩ := hfree other
        exact ⟨visits, hvisits.later List.prefix_rfl⟩
      · obtain rfl := Option.some_inj.mp (Option.mem_def.mp hv)
        obtain ⟨visits, hvisits⟩ := hfree r
        refine ⟨s, [], visits, horderly, hrecalled, ?_, hvisits⟩
        exact ⟨⟨by simp, by simp, rfl, Writers.Leaves.refl _⟩, rfl, rfl, rfl⟩
  | visit v hvisit =>
      obtain ⟨first, seen, visits, hfirst, hfound, hholding, hvisits⟩ :=
        h.visiting v (Option.mem_def.mpr hvisit)
      have hothers : ∀ r, v.visitor ≠ r → ∃ visits,
          Logged visitor (start r) (s.proceed visitor v) ((s.proceed visitor v).visitors r)
            visits := by
        intro r hr
        obtain ⟨others, hlogged⟩ := h.resting r fun v' hv' => by
          obtain rfl := Option.some_inj.mp (hvisit.symm.trans (Option.mem_def.mp hv'))
          exact hr
        rw [visitors_proceed_of_ne visitor s hr]
        exact ⟨others, hlogged.later (sightings_proceed visitor s v)⟩
      rcases hholding.step horderly.sound hstep with ⟨seen', stage', hgoes⟩ | ⟨seen', _, hover⟩
      · have hvisitor : ⟨v.visitor, v.input, stage'⟩ ∈ (s.proceed visitor v).visit := hgoes.visit
        refine ⟨fun r hr => hothers r fun hsame => hr _ hvisitor hsame, fun v' hv' => ?_⟩
        obtain rfl := Option.some_inj.mp ((Option.mem_def.mp hv').symm.trans hgoes.visit)
        exact ⟨first, seen', visits, hfirst, hfound, hgoes, hvisits⟩
      · obtain ⟨hnone, hdone⟩ := hover
        refine ⟨fun r _ => ?_, fun v' hv' => ?_⟩
        · by_cases hr : v.visitor = r
          · subst hr
            exact ⟨_, hdone.logged hfirst hfound hrecalled' hvisits⟩
          · exact hothers r hr
        · simp [hnone] at hv'
  | own r op hvisit => exact op.elim

variable (visitor) in
/-- Whoever visits, and whatever the writers do meanwhile: a visitor is what its completed
visits have made of it, and the visit it may be in.  A later one of its visits shows all that
an earlier one has shown, after at least as many writes. -/
theorem repeats_run (hasher : BuildHasher K) (layout : Layout) (start : ρ → σ)
    {turns : List (VisitTurn ι ρ K I Empty)} {last : Visiting ι ρ K σ I}
    (hfree : CollisionFree (Config.withHasher UInt64 hasher layout) (VisitTurn.listsOf turns))
    (hrun : StepFn.run (step visitor (Config.withHasher UInt64 hasher layout))
      (init (Config.withHasher UInt64 hasher layout) ι start) turns = some last) :
    Orderly (Config.withHasher UInt64 hasher layout) (VisitTurn.listsOf turns) last ∧
      ∀ r, ∃ base visits, Logged visitor (start r) last base visits ∧
        (last.visitors r = base ∨ ∃ (input : I) (seen : List (Sighting ρ K)),
          last.visitors r = told visitor input base seen) := by
  have hinv : Orderly (Config.withHasher UInt64 hasher layout) (VisitTurn.listsOf turns) last ∧
      Recalled last ∧ Repeats visitor (Config.withHasher UInt64 hasher layout)
        (VisitTurn.listsOf turns) start last := by
    refine StepFn.invariant_of_step (fun s => Orderly (Config.withHasher UInt64 hasher layout)
      (VisitTurn.listsOf turns) s ∧ Recalled s ∧
        Repeats visitor (Config.withHasher UInt64 hasher layout) (VisitTurn.listsOf turns) start s)
      ?_ ⟨orderly_init rfl start, ⟨by simp [init], nofun⟩, ?_⟩ hrun
    · rintro turn hturn s next ⟨hs, hrecalled, hrepeats⟩ hstep
      refine ⟨hs.step hfree rfl ?_ hstep, hrecalled.step hfree hs hstep,
        hrepeats.step hfree hs hrecalled hstep⟩
      exact fun attrs hattrs => List.mem_flatMap.mpr ⟨turn, hturn, hattrs⟩
    · refine ⟨fun r _ => ⟨[], rfl, List.Pairwise.nil, by simp⟩, fun v hv => by cases hv⟩
  obtain ⟨horderly, -, hrepeats⟩ := hinv
  refine ⟨horderly, fun r => ?_⟩
  by_cases hvisiting : ∃ v ∈ last.visit, v.visitor = r
  · obtain ⟨v, hv, rfl⟩ := hvisiting
    obtain ⟨first, seen, visits, _, _, hholding, hvisits⟩ := hrepeats.visiting v hv
    refine ⟨_, visits, hvisits.later ?_, .inr ⟨v.input, seen, hholding.visitors⟩⟩
    rw [hholding.sightings]
    exact List.prefix_append _ _
  · obtain ⟨visits, hvisits⟩ := hrepeats.resting r fun v hv hr => hvisiting ⟨v, hv, hr⟩
    exact ⟨_, visits, hvisits, .inl rfl⟩

end Visiting

end Ohnotel
