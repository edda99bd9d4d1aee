/-
# Which updates a draining observer loses

Once all adds have finished, what the observer has filed for a set, with what one
further observation files, is what was added for it, less what the steps of the run
lost.  A run that takes no step of the three kinds that lose something loses nothing.
-/

import Ohnotel.Observe.Conservation

namespace Ohnotel.Draining

open Foundation Atomic

variable {ι K : Type} [LinearOrder K]

/-- What the observer has filed for a set after one further observation. -/
def reported (cfg : Config K UInt64) (s : Shared ι K) (ts : SystemTime) (set : Finset K) : UInt64 :=
  ((s.toObserved.exec cfg (.observe (T := UInt64) ts)).values (set.sort (· ≤ ·))).sum

/-- The step loses nothing: it does not add under the empty list between its load and
its clear, it does not add to a bucket that was swapped out and read or is another set's,
and it does not swap the flag while that is down; or what it loses is zero. -/
def Lossless (s : Shared ι K) : Label ι K → Prop
  | .add _ value attrs =>
      match s.drain with
      | .loaded _ _ _ | .flagged _ _ _ => attrs = [] → value = 0
      | .idle | .swapped _ _ | .reading _ _ _ => True
  | .finishAdd t =>
      match s.adders t with
      | .obtained attrs bucket value => s.owner bucket ≠ some attrs.toFinset → value = 0
      | .idle | .touching => True
  | .drainStep =>
      match s.drain with
      | .loaded _ _ value => s.map.noAttrTouched = false → value = 0
      | .idle | .swapped _ _ | .flagged _ _ _ | .reading _ _ _ => True
  | .observe _ | .exportSeries => True

/-- These are the steps that lose nothing of any set. -/
theorem lossless_iff {s : Shared ι K} {label : Label ι K} :
    Lossless s label ↔ ∀ set, s.lost set label = 0 := by
  cases label with
  | add t value attrs =>
      cases hdrain : s.drain <;> simp [Lossless, Shared.lost, hdrain]
  | finishAdd t =>
      cases hadder : s.adders t with
      | idle => simp [Lossless, Shared.lost, hadder]
      | touching => simp [Lossless, Shared.lost, hadder]
      | obtained attrs bucket value =>
          simp only [Lossless, Shared.lost, hadder]
          constructor
          · intro hzero set
            by_cases howner : s.owner bucket = some attrs.toFinset
            · simp only [howner, Option.some_inj, sub_self]
            · simp only [hzero howner, ite_self, sub_zero]
          · intro hnothing howner
            simpa only [if_true, if_neg howner, sub_zero] using hnothing attrs.toFinset
  | observe ts => simp [Lossless, Shared.lost]
  | drainStep =>
      cases hdrain : s.drain <;> simp [Lossless, Shared.lost, hdrain]
  | exportSeries => simp [Lossless, Shared.lost]

instance decidableLossless (s : Shared ι K) : ∀ label, Decidable (Lossless s label)
  | .add _ value attrs =>
      match hdrain : s.drain with
      | .loaded _ _ _ | .flagged _ _ _ =>
          decidable_of_iff (attrs = [] → value = 0) (by simp [Lossless, hdrain])
      | .idle | .swapped _ _ | .reading _ _ _ => .isTrue (by simp [Lossless, hdrain])
  | .finishAdd t =>
      match hadder : s.adders t with
      | .obtained attrs bucket value =>
          decidable_of_iff (s.owner bucket ≠ some attrs.toFinset → value = 0)
            (by simp [Lossless, hadder])
      | .idle | .touching => .isTrue (by simp [Lossless, hadder])
  | .drainStep =>
      match hdrain : s.drain with
      | .loaded _ _ value =>
          decidable_of_iff (s.map.noAttrTouched = false → value = 0) (by simp [Lossless, hdrain])
      | .idle | .swapped _ _ | .flagged _ _ _ | .reading _ _ _ =>
          .isTrue (by simp [Lossless, hdrain])
  | .observe _ | .exportSeries => .isTrue trivial

/-- A further observation files all there is. -/
theorem reported_eq_total [Fintype ι] {cfg : Config K UInt64} {s : Shared ι K}
    (h : Sound cfg s) (hadders : ∀ t, s.adders t = .idle)
    (hdrain : s.drain = .idle) (ts : SystemTime) (set : Finset K) :
    reported cfg s ts set = s.total set := by
  have hobserve : s.observer.observe cfg ts s.map =
      SyncObserver.observeDestructive ts s.map s.observer := if_pos h.mode
  have hvalues : (s.toObserved.exec cfg (.observe (T := UInt64) ts)).values (set.sort (· ≤ ·)) =
      s.values (set.sort (· ≤ ·)) ++ SyncObserver.drainedValues s.map set := by
    rw [Observed.values, Observed.exec, hobserve, SyncObserver.slot_observeDestructive h.inv,
      ← List.append_assoc]
    rfl
  have hdrained : (SyncObserver.drainedValues s.map set).sum =
      (s.map.valueOf set).getD 0 + if set = ∅ then s.map.noAttrCell else 0 := by
    rw [SyncObserver.drainedValues, BucketMap.shownCell]
    by_cases hset : set = ∅
    · subst hset
      rw [BucketMap.valueOf_empty h.inv]
      cases htouched : s.map.noAttrTouched with
      | true => simp
      | false =>
          -- Nobody has the flag to raise, so there is nothing in the bucket.
          have hzero : s.map.noAttrCell = 0 := by
            by_contra hne
            rcases h.flag hne with hup | ⟨t, htouching⟩ | ⟨_, _, _, hflagged⟩
            · simp [htouched] at hup
            · simp [hadders t] at htouching
            · simp [hdrain] at hflagged
          simp [hzero]
    · cases s.map.valueOf set with
      | none => simp [hset]
      | some cell =>
          by_cases hcell : cell = 0
          · simp [hset, hcell]
          · simp [hset, hcell]
  rw [reported, hvalues, List.sum_append, hdrained, Shared.total, sum_pending_idle hadders,
    Shared.inNoAttr, hdrain, Drain.unread, entriesSum_nil, Shared.filed]
  simp only [add_zero, add_assoc]

variable [DecidableEq ι]

/-- The values added in a run are filed or lost. -/
theorem reported_add_lost [Fintype ι] (cfg : Config K UInt64) (hinit : cfg.initBucket = 0)
    {id : NameIdentity} {now : SystemTime} {observer : SyncObserver K UInt64}
    (hnew : SyncObserver.new id .counter .destructive now = .ok observer)
    {labels : List (Label ι K)} {last : Shared ι K}
    (hrun : (step cfg).run (init cfg observer) labels = some last)
    (hadders : ∀ t, last.adders t = .idle) (hdrain : last.drain = .idle) (ts : SystemTime)
    (set : Finset K) :
    reported cfg last ts set +
        (step cfg).tally (fun s label => s.lost set label) (init cfg observer) labels =
      (labels.map (Label.added set)).sum := by
  obtain ⟨o, ho, hmode, hslot⟩ := SyncObserver.exists_new (K := K) (V := UInt64) id
    (by decide : Kind.counter ≠ .gauge) .destructive now
  obtain rfl : o = observer := Except.ok.inj (ho.symm.trans hnew)
  have hstart : Sound cfg (init (ι := ι) cfg o) := sound_init o hmode hinit
  have hsound : ∀ label ∈ labels, ∀ s next, Sound cfg s → step cfg s label = some next →
      Sound cfg next := fun _ _ _ _ h hstep => h.step hinit hstep
  have hbalance := StepFn.tally_balance hsound
    (fun _ _ _ _ h hstep => balance_step hinit h hstep set) hstart hrun
  have hlast : Sound cfg last := StepFn.invariant_of_step _ hsound hstart hrun
  have hnothing : (init (ι := ι) cfg o).total set = 0 := by
    simp [Shared.total, Shared.filed, Observed.values, init, hslot, Shared.inNoAttr, Drain.unread,
      BucketMap.noAttrCell, BucketMap.withStorage, BucketMap.valueOf, BucketMap.bucketOf, hinit]
  rw [reported_eq_total hlast hadders hdrain, hbalance, hnothing, zero_add]

/-- A counter observed by one destructive observer, with any number of threads adding
to it and any number of observations, one step at a time in any order: once all adds
have finished, what the observer has filed for a set of attributes, with what one
further observation files, is what was added for the set if and only if what the steps
of the run lost of it comes to zero.  If no step loses anything, that is so for every
set. -/
theorem reported_eq_added_iff [Fintype ι] (hasher : BuildHasher K) (layout : Layout)
    (id : NameIdentity) (now : SystemTime) {observer : SyncObserver K UInt64}
    (hnew : SyncObserver.new id .counter .destructive now = .ok observer)
    (labels : List (Label ι K)) :
    let cfg := Config.withHasher UInt64 hasher layout
    ∀ last, (step cfg).run (init cfg observer) labels = some last →
    (∀ t, last.adders t = .idle) → last.drain = .idle →
    ∀ ts,
      (∀ set, reported cfg last ts set = (labels.map (Label.added set)).sum ↔
        (step cfg).tally (fun s label => s.lost set label) (init cfg observer) labels = 0) ∧
      ((step cfg).Along Lossless (init cfg observer) labels →
        ∀ set, reported cfg last ts set = (labels.map (Label.added set)).sum) := by
  intro cfg last hrun hadders hdrain ts
  have hiff : ∀ set, reported cfg last ts set = (labels.map (Label.added set)).sum ↔
      (step cfg).tally (fun s label => s.lost set label) (init cfg observer) labels = 0 := by
    intro set
    have hbalance := reported_add_lost cfg rfl hnew hrun hadders hdrain ts set
    constructor
    · intro hsame
      rw [← hsame] at hbalance
      exact add_eq_left.mp hbalance
    · intro hnothing
      rw [← hbalance, hnothing, add_zero]
  refine ⟨hiff, fun halong set => (hiff set).mpr ?_⟩
  exact StepFn.tally_eq_zero (halong.imp fun s label hlossless => lossless_iff.mp hlossless set)

/-- One thread adds 5 to a set and 3 under no attributes, an observation is made, and
the thread adds 2 to the set once more: no step loses anything. -/
theorem reported_eq_added_iff_in_turn :
    let cfg := Config.withHasher UInt64 ⟨UInt64.ofNat, AttrFingerprint.sum⟩ Layout.stack
    let labels : List (Label Unit Nat) :=
      [.add () 5 [1], .finishAdd (), .add () 3 [], .finishAdd (), .observe 10, .drainStep,
        .drainStep, .drainStep, .drainStep, .drainStep, .exportSeries, .add () 2 [1], .finishAdd ()]
    ∃ observer last, SyncObserver.new ⟨"requests", "", ""⟩ .counter .destructive 0 = .ok observer ∧
      (step cfg).run (init cfg observer) labels = some last ∧
      reported cfg last 20 {1} = 7 ∧ reported cfg last 20 ∅ = 3 := by
  intro cfg labels
  have hreported := (reported_eq_added_iff cfg.hasher cfg.layout ⟨"requests", "", ""⟩ 0
    (by rfl) labels _ (by rfl) (fun _ => rfl) rfl 20).2
  refine ⟨_, _, rfl, rfl, (hreported ?_ {1}).trans (by decide), (hreported ?_ ∅).trans (by decide)⟩
  · decide +kernel
  · decide +kernel

/-- A thread obtains a bucket, an observation is made from beginning to end, and the
thread adds 5 to the bucket: nobody will ever see it. -/
theorem update_lost_in_drain :
    let cfg := Config.withHasher UInt64 ⟨UInt64.ofNat, AttrFingerprint.sum⟩ Layout.stack
    let labels : List (Label Unit Nat) :=
      [.add () 5 [1], .observe 10, .drainStep, .drainStep, .drainStep, .drainStep, .drainStep,
        .finishAdd ()]
    ∃ observer last, SyncObserver.new ⟨"requests", "", ""⟩ .counter .destructive 0 = .ok observer ∧
      (step cfg).run (init cfg observer) labels = some last ∧
      (∀ t, last.adders t = .idle) ∧ last.drain = .idle ∧
      reported cfg last 20 {1} = 0 ∧ (labels.map (Label.added {1})).sum = 5 := by
  intro cfg labels
  refine ⟨_, _, rfl, rfl, fun _ => rfl, rfl, ?_, by decide⟩
  rw [reported, Finset.sort_singleton]
  decide +kernel

end Ohnotel.Draining
