/-
# Observing a counter while it is written

An observer in direct or in delta mode visits the map of a counter while threads add to
it, and exports whenever it likes, between two visits.  Other observers do the same.

What the observer files for a set is decided by what it was shown of the set, sight by
sight.  In direct mode that is what it files.  In delta mode the differences add up to
the last sight as long as the sights never go back, so nothing that was added is
reported twice, and nothing that was added is left out for good.
-/

import Ohnotel.Observe.Agreement
import Ohnotel.Observe.Visits

namespace Ohnotel

open Foundation Atomic

/-! ## A slot told one value after the other -/

namespace Slot

/-- What a slot becomes that observes these values. -/
def observeAll {V : Type} [BEq V] [PartialOrd V] [Sub V] (slot : Slot V) (sights : List V) :
    Slot V :=
  sights.foldl observe slot

theorem observeAll_concat {V : Type} [BEq V] [PartialOrd V] [Sub V] (slot : Slot V)
    (sights : List V) (current : V) :
    slot.observeAll (sights ++ [current]) = (slot.observeAll sights).observe current :=
  List.foldl_concat _ _ _ _

/-- An observer that remembers nothing files what it is shown. -/
theorem observeAll_direct (values sights : List UInt64) :
    observeAll { values := values, last := none } sights =
      { values := values ++ sights, last := none } := by
  induction sights using List.reverseRecOn with
  | nil => rw [List.append_nil]; rfl
  | append_singleton sights current ih =>
      rw [observeAll_concat, ih, ← List.append_assoc]
      rfl

/-- An observer that remembers what it was shown files differences, which add up to what
it was shown last. -/
theorem observeAll_delta (sights : List UInt64) (hsorted : sights.Pairwise (· ≤ ·)) :
    (observeAll { values := [], last := some none } sights).last = some sights.getLast? ∧
      ((observeAll { values := [], last := some none } sights).values.map UInt64.toNat).sum =
        (sights.getLast?.getD 0).toNat := by
  induction sights using List.reverseRecOn with
  | nil => exact ⟨rfl, rfl⟩
  | append_singleton sights current ih =>
      obtain ⟨hearlier, _, hlater⟩ := List.pairwise_append.mp hsorted
      obtain ⟨hlast, hsum⟩ := ih hearlier
      rw [observeAll_concat, observe, hlast, List.map_append, List.sum_append, hsum,
        List.getLast?_concat]
      cases hprev : sights.getLast? with
      | none => exact ⟨rfl, by simp [filed]⟩
      | some prev =>
          have hle : prev ≤ current :=
            hlater prev (List.mem_of_getLast? hprev) current (List.mem_singleton_self _)
          by_cases hsame : prev = current
          · subst hsame
            simp [filed, remembered]
          · have hlt : prev.toNat < current.toNat :=
              lt_of_le_of_ne (UInt64.le_iff_toNat_le.mp hle) fun h => hsame (UInt64.toNat_inj.mp h)
            have hdifference : difference prev current = current - prev :=
              if_pos (lt_uint64 hlt)
            have hsub := toNat_sub_of_le hlt.le
            simp only [filed, remembered, beq_iff_eq, if_neg hsame, hdifference, Option.getD_some,
              List.map_singleton, List.sum_singleton, hsub]
            exact ⟨trivial, by omega⟩

end Slot

/-! ## Observers as visitors -/

/-- An observer with all it has handed on. -/
structure Watcher (K : Type) where
  observer : SyncObserver K UInt64
  exported : List (Series K UInt64)

namespace Watcher

variable {K : Type}

/-- The values handed on for a list of attributes, and then those still held. -/
def values (w : Watcher K) (attrs : List K) : List UInt64 :=
  (w.exported.flatMap fun series => (series.series attrs).map Observation.value) ++
    (w.observer.slot attrs).values

/-- All values, and the one that is remembered. -/
def slot (w : Watcher K) (attrs : List K) : Slot UInt64 where
  values := w.values attrs
  last := (w.observer.slot attrs).last

/-- An export: the observer hands on what it holds. -/
def exportSeries (w : Watcher K) : Watcher K where
  observer := w.observer.take.1
  exported := w.exported ++ [w.observer.take.2]

theorem slot_exportSeries (w : Watcher K) : w.exportSeries.slot = w.slot := by
  funext attrs
  simp [slot, values, exportSeries, SyncObserver.take, SyncObserver.slot]

variable [LinearOrder K]

/-- The observer is shown an entry at the time of its observation. -/
def observeEntry (ts : SystemTime) (w : Watcher K) (e : CanonicalEntry K) (cell : UInt64) :
    Bool × Watcher K :=
  let answer := SyncObserver.observeEntry ts w.observer e cell
  (answer.1, { w with observer := answer.2 })

theorem slot_observeEntry (ts : SystemTime) (w : Watcher K) (e : CanonicalEntry K)
    (cell : UInt64) :
    (w.observeEntry ts e cell).2.slot =
      Function.update w.slot e.attrs ((w.slot e.attrs).observe cell) := by
  funext attrs
  by_cases hsame : attrs = e.attrs
  · subst hsame
    have hslot := SyncObserver.slot_observeEntry_self (T := UInt64) ts w.observer e cell
    rw [Function.update_self, slot, values, observeEntry, hslot]
    simp [Slot.observe, slot, values]
  · have hslot := SyncObserver.slot_observeEntry_of_ne (T := UInt64) ts w.observer e cell hsame
    rw [Function.update_of_ne hsame, slot, values, observeEntry, hslot]
    rfl

theorem mode_observeEntry (ts : SystemTime) (w : Watcher K) (e : CanonicalEntry K)
    (cell : UInt64) :
    (w.observeEntry ts e cell).2.observer.observeMode = w.observer.observeMode :=
  SyncObserver.mode_observing (T := UInt64) ts (fun _ => cell) [e] w.observer

/-- `observe_impl` as a visit, with exports between the visits. -/
def visitor : Visitor K UInt64 (Watcher K) SystemTime Unit where
  entry := observeEntry
  keeps ts w e cell := SyncObserver.observeEntry_keeps (T := UInt64) ts w.observer e cell
  close w := { w with observer := { w.observer with seq := w.observer.seq + 1 } }
  own _ w := w.exportSeries

/-- A visit that nothing interrupts is an observation that does not drain. -/
theorem told_eq_observe (cfg : Config K UInt64) (ts : SystemTime) (m : BucketMap K UInt64)
    (w : Watcher K) (hmode : w.observer.observeMode ≠ .destructive) :
    visitor.close (m.visitBucket cfg (visitor.entry ts) w).2 =
      { w with observer := (w.observer.observe cfg ts m).2 } := by
  have hfold : ∀ (entries : List (CanonicalEntry K)) (w : Watcher K),
      entries.foldl (fun w e => (w.observeEntry ts e (m.cells e.bucket)).2) w =
        { w with
          observer := entries.foldl
            (fun o e => (SyncObserver.observeEntry (T := UInt64) ts o e (m.cells e.bucket)).2)
            w.observer } := by
    intro entries
    induction entries with
    | nil => exact fun _ => rfl
    | cons e rest ih => exact fun w => ih _
  have hvisit := BucketMap.visitBucket_eq_of_keeps cfg (visitor (K := K).keeps ts) m w
  have hobserve := BucketMap.visitBucket_eq_of_keeps cfg
    (SyncObserver.observeEntry_keeps (K := K) (A := UInt64) (T := UInt64) ts) m w.observer
  rw [SyncObserver.observe, if_neg hmode, hvisit, hobserve]
  exact congrArg visitor.close (hfold m.walkedEntries w)

end Watcher

/-! ## What an observer files is decided by its sights -/

namespace Visiting

variable {ι ρ K : Type} [LinearOrder K]

/-- What a visitor was shown of a set, in order. -/
def sights [DecidableEq ρ] {σ I : Type} (s : Visiting ι ρ K σ I) (r : ρ) (set : Finset K) :
    List UInt64 :=
  (s.sightings.filter fun x => x.visitor = r ∧ x.set = set).map Sighting.cell

variable [DecidableEq ι] [DecidableEq ρ] {cfg : Config K UInt64} {inUse : Set (List K)}

/-- Every observer is in its mode, and its slots are those of an observer that was told
its sights. -/
structure Told (start : ρ → Watcher K) (s : Visiting ι ρ K (Watcher K) SystemTime) : Prop where
  mode : ∀ r, (s.visitors r).observer.observeMode = (start r).observer.observeMode
  slot : ∀ r set, (s.visitors r).slot (set.sort (· ≤ ·)) =
    ((start r).slot (set.sort (· ≤ ·))).observeAll (s.sights r set)

omit [LinearOrder K] in
/-- Changing one observer, but not its mode. -/
theorem mode_update {start visitors : ρ → Watcher K}
    (h : ∀ r, (visitors r).observer.observeMode = (start r).observer.observeMode) {r : ρ}
    {w : Watcher K} (hw : w.observer.observeMode = (visitors r).observer.observeMode) (other : ρ) :
    (Function.update visitors r w other).observer.observeMode =
      (start other).observer.observeMode := by
  by_cases hother : other = r
  · rw [hother, Function.update_self, hw]
    exact h r
  · rw [Function.update_of_ne hother]
    exact h other

omit [DecidableEq ι] in
theorem Told.sight {start : ρ → Watcher K} {s : Visiting ι ρ K (Watcher K) SystemTime}
    (h : Told start s) (v : OpenVisit ρ K SystemTime) {e : CanonicalEntry K}
    (he : normalize e.attrs = e.attrs) : Told start (s.sight Watcher.visitor v e) := by
  refine ⟨mode_update h.mode (Watcher.mode_observeEntry _ _ _ _), fun r set => ?_⟩
  have hsights : (s.sight Watcher.visitor v e).sights r set =
      s.sights r set ++ if v.visitor = r ∧ e.attrs.toFinset = set then [s.map.cells e.bucket]
        else [] := by
    rw [sights, Visiting.sight, List.filter_append, List.map_append]
    congr 1
    by_cases hboth : v.visitor = r ∧ e.attrs.toFinset = set
    · simp [hboth, Sighting.set]
    · rw [if_neg hboth, List.filter_singleton]
      simp [Sighting.set, hboth]
  rw [hsights]
  by_cases hr : v.visitor = r
  · subst hr
    have hslot : ((s.sight Watcher.visitor v e).visitors v.visitor).slot =
        Function.update (s.visitors v.visitor).slot e.attrs
          (((s.visitors v.visitor).slot e.attrs).observe (s.map.cells e.bucket)) := by
      rw [← Watcher.slot_observeEntry v.input]
      exact congrArg Watcher.slot (Function.update_self _ _ _)
    rw [hslot]
    by_cases hset : e.attrs.toFinset = set
    · subst hset
      rw [if_pos ⟨rfl, rfl⟩, Slot.observeAll_concat, ← h.slot, ← normalize_eq_sort, he,
        Function.update_self]
    · have hne : set.sort (· ≤ ·) ≠ e.attrs := by
        intro hsame
        rw [← hsame, Finset.sort_toFinset] at hset
        exact hset rfl
      rw [if_neg fun hboth => hset hboth.2, List.append_nil, Function.update_of_ne hne]
      exact h.slot _ _
  · have hother : (s.sight Watcher.visitor v e).visitors r = s.visitors r :=
      Function.update_of_ne (Ne.symm hr) _ _
    rw [hother, if_neg fun hboth => hr hboth.1, List.append_nil]
    exact h.slot _ _

omit [DecidableEq ι] in
theorem Told.close {start : ρ → Watcher K} {s : Visiting ι ρ K (Watcher K) SystemTime}
    (h : Told start s) (v : OpenVisit ρ K SystemTime) :
    Told start (s.close Watcher.visitor v) := by
  refine ⟨mode_update h.mode rfl, fun r set => Eq.trans ?_ (h.slot r set)⟩
  by_cases hr : r = v.visitor
  · have hself : (s.close Watcher.visitor v).visitors r =
        Watcher.visitor.close (s.visitors v.visitor) := by
      rw [hr]
      exact Function.update_self _ _ _
    rw [hself, hr]
    rfl
  · exact congrArg (Watcher.slot · _) (Function.update_of_ne hr _ _)

theorem Told.step {start : ρ → Watcher K} {s s' : Visiting ι ρ K (Watcher K) SystemTime}
    {turn : VisitTurn ι ρ K SystemTime Unit} (h : Told start s) (horderly : Orderly cfg inUse s)
    (hstep : Visiting.step Watcher.visitor cfg s turn = some s') : Told start s' := by
  have hinv : BucketMap.Inv cfg inUse s.map := horderly.sound.ok.inv
  cases stepped_of_step hstep with
  | writer turn writers _ _ => exact ⟨h.mode, h.slot⟩
  | begin r ts _ => exact ⟨h.mode, h.slot⟩
  | visit v hvisit =>
      unfold Visiting.proceed
      split
      · next e left hstage =>
          have he := horderly.dated.left v _ hvisit hstage e List.mem_cons_self
          have hsight := h.sight v (hinv.canon.canonical e he)
          exact ⟨hsight.mode, hsight.slot⟩
      · split
        · exact ⟨h.mode, h.slot⟩
        · exact h.close v
      · have he : normalize s.map.noAttrEntry.attrs = s.map.noAttrEntry.attrs := by
          rw [hinv.buckets.noAttr_attrs]
          rfl
        exact (h.sight v he).close v
  | own r op _ =>
      refine ⟨mode_update h.mode rfl, fun other set => Eq.trans ?_ (h.slot other set)⟩
      show (Function.update s.visitors r (s.visitors r).exportSeries other).slot _ = _
      by_cases hother : other = r
      · rw [hother, Function.update_self]
        exact congrFun (Watcher.slot_exportSeries (s.visitors r)) _
      · rw [Function.update_of_ne hother]

theorem Told.run (hfree : CollisionFree cfg inUse) (hinit : cfg.initBucket = 0)
    {start : ρ → Watcher K} {turns : List (VisitTurn ι ρ K SystemTime Unit)}
    (hlists : VisitTurn.listsOf turns ⊆ inUse) {last : Visiting ι ρ K (Watcher K) SystemTime}
    (hrun : StepFn.run (Visiting.step Watcher.visitor cfg) (init cfg ι start) turns = some last) :
    Told start last := by
  have hboth : Orderly cfg inUse last ∧ Told start last := by
    refine StepFn.invariant_of_step (fun s => Orderly cfg inUse s ∧ Told start s) ?_
      ⟨orderly_init hinit start, fun _ => rfl, fun _ _ => rfl⟩ hrun
    rintro turn hturn s next ⟨hs, htold⟩ hstep
    exact ⟨hs.step hfree hinit
      (fun attrs hattrs => hlists (List.mem_flatMap.mpr ⟨turn, hturn, hattrs⟩)) hstep,
      htold.step hs hstep⟩
  exact hboth.2

omit [DecidableEq ι] in
/-- The sights of one set never go back. -/
theorem pairwise_sights {σ I : Type} {s : Visiting ι ρ K σ I} (h : Dated s)
    (hadds : ∀ w ∈ s.writers.recorded, w.write.kind = .add)
    (hlt : ∀ set, Write.sum set (s.writers.recorded.map Recorded.write) < 2 ^ 64) (r : ρ)
    (set : Finset K) : (s.sights r set).Pairwise (· ≤ ·) := by
  rw [sights, List.pairwise_map]
  refine ((h.never_less hadds hlt).filter _).imp_of_mem ?_
  intro first second hfirst hsecond hle
  have hsets : ∀ x ∈ s.sightings.filter (fun x => x.visitor = r ∧ x.set = set), x.set = set := by
    intro x hx
    have hboth := (List.mem_filter.mp hx).2
    simp only [decide_eq_true_eq] at hboth
    exact hboth.2
  exact hle ((hsets first hfirst).trans (hsets second hsecond).symm)

omit [DecidableEq ι] in
theorem sights_le {σ I : Type} {s : Visiting ι ρ K σ I} (h : Dated s)
    (hadds : ∀ w ∈ s.writers.recorded, w.write.kind = .add)
    (hlt : ∀ set, Write.sum set (s.writers.recorded.map Recorded.write) < 2 ^ 64) {r : ρ}
    {set : Finset K} {cell : UInt64} (hcell : cell ∈ s.sights r set) :
    cell.toNat ≤ Write.sum set (s.writers.recorded.map Recorded.write) := by
  obtain ⟨x, hx, rfl⟩ := List.mem_map.mp hcell
  obtain ⟨hmem, hboth⟩ := List.mem_filter.mp hx
  simp only [decide_eq_true_eq] at hboth
  have hwrites : ∀ w ∈ s.writers.recorded.map Recorded.write, w.kind = .add := by
    intro w hw
    obtain ⟨found, hfound, rfl⟩ := List.mem_map.mp hw
    exact hadds found hfound
  have hle := Write.total_take_le hwrites (hlt set) (h.after x hmem)
  have hall : (s.writers.recorded.map Recorded.write).take s.writers.recorded.length =
      s.writers.recorded.map Recorded.write := List.take_of_length_le (by simp)
  rw [h.cell x hmem, hboth.2, List.map_take, ← Write.toNat_total hwrites (hlt set)]
  rw [hall] at hle
  exact UInt64.le_iff_toNat_le.mp hle

/-- What an observer has handed on for a set, or holds to hand on. -/
def reported (w : Watcher K) (set : Finset K) : Nat :=
  ((w.values (set.sort (· ≤ ·))).map UInt64.toNat).sum

omit [DecidableEq ι] in
/-- What an observer in delta mode reports of a set is what it was shown last. -/
theorem Told.reported_delta {start : ρ → Watcher K}
    {s : Visiting ι ρ K (Watcher K) SystemTime} (h : Told start s) (hdated : Dated s)
    (hadds : ∀ w ∈ s.writers.recorded, w.write.kind = .add)
    (hlt : ∀ set, Write.sum set (s.writers.recorded.map Recorded.write) < 2 ^ 64) (r : ρ)
    (set : Finset K)
    (hstart : (start r).slot (set.sort (· ≤ ·)) = { values := [], last := some none }) :
    reported (s.visitors r) set = ((s.sights r set).getLast?.getD 0).toNat := by
  have hslot := h.slot r set
  rw [hstart] at hslot
  have hsum := (Slot.observeAll_delta _ (pairwise_sights hdated hadds hlt r set)).2
  rw [← hslot] at hsum
  exact hsum

/-- After a visit that nothing interrupts, what the visitor was shown last of a set is the
total of all writes made to it. -/
theorem getLast_sights_alone (hfree : CollisionFree cfg inUse) (hinit : cfg.initBucket = 0)
    {s last : Visiting ι ρ K (Watcher K) SystemTime} (hs : Orderly cfg inUse s) {r : ρ}
    {ts : SystemTime} {n : Nat}
    (hrun : StepFn.run (Visiting.step Watcher.visitor cfg) s
      (.begin r ts :: List.replicate n .visit) = some last)
    (hover : last.visit = none) (hwriters : last.writers = s.writers)
    (hraised : ∀ t, s.writers.shared.pcs t ≠ .touchNoAttr) {w : Recorded ι K}
    (hw : w ∈ s.writers.recorded) :
    (last.sights r w.write.set).getLast? =
      some (Write.total w.write.set (s.writers.recorded.map Recorded.write)) := by
  obtain ⟨opened, hbegin, hvisits⟩ := Option.bind_eq_some_iff.mp hrun
  have hnone : ∀ k, VisitTurn.listsOf (List.replicate k
      (.visit : VisitTurn ι ρ K SystemTime Unit)) ⊆ inUse := by
    intro k attrs hattrs
    obtain ⟨turn, hturn, hlist⟩ := List.mem_flatMap.mp hattrs
    rw [List.eq_of_mem_replicate hturn] at hlist
    cases hlist
  cases n with
  | zero =>
      obtain rfl : opened = last := by simpa using hvisits
      cases stepped_of_step hbegin with
      | begin _ _ _ => cases hover
  | succ n =>
      rw [List.replicate_succ'] at hvisits
      obtain ⟨held, hheld, hend⟩ := (StepFn.run_concat_eq_some _).mp hvisits
      have hopened := hs.step hfree hinit (by simp [VisitTurn.lists]) hbegin
      have hheldOrderly := hopened.run hfree hinit (hnone n) hheld
      have hlast := hheldOrderly.step hfree hinit (by simp [VisitTurn.lists]) hend
      have hone : ∀ turn ∈ List.replicate n (.visit : VisitTurn ι ρ K SystemTime Unit),
          turn.isBegin = false := fun turn hturn => by rw [List.eq_of_mem_replicate hturn]; rfl
      rcases holding_of_run hfree hinit hs hbegin (hnone n) hone hheld with
        hfinished | ⟨_, _, hholding⟩
      · simp [Visiting.step, hfinished] at hend
      rcases hholding.step hheldOrderly.sound hend with ⟨_, _, hgoes⟩ | ⟨seen, _, _, hdone⟩
      · simp [hgoes.visit] at hover
      have hregular := hdone.regular hs hlast
      -- The visit shows the set, and whatever it shows comes after all writes.
      have hsights : last.sights r w.write.set = s.sights r w.write.set ++
          (seen.filter fun x => x.visitor = r ∧ x.set = w.write.set).map Sighting.cell := by
        rw [sights, hregular.sightings, List.filter_append, List.map_append]
        rfl
      have hcells : ∀ cell ∈ (seen.filter fun x => x.visitor = r ∧ x.set = w.write.set).map
          Sighting.cell,
          cell = Write.total w.write.set (s.writers.recorded.map Recorded.write) := by
        intro cell hcell
        obtain ⟨x, hx, rfl⟩ := List.mem_map.mp hcell
        obtain ⟨hmem, hboth⟩ := List.mem_filter.mp hx
        simp only [decide_eq_true_eq] at hboth
        have hwithin := hregular.within x hmem
        have hafter : x.after = s.writers.recorded.length := by
          rw [hwriters] at hwithin
          exact le_antisymm hwithin.2 hwithin.1
        rw [hregular.cell x hmem, hboth.2, hafter, hwriters, List.take_length]
      obtain ⟨x, hx, hset⟩ := List.mem_map.mp
        (hregular.complete w hw (Or.inr (hraised w.thread)))
      have hmem : x ∈ seen.filter fun x => x.visitor = r ∧ x.set = w.write.set :=
        List.mem_filter.mpr ⟨hx, by simp [hregular.own x hx, hset]⟩
      have hne :
          (seen.filter fun x => x.visitor = r ∧ x.set = w.write.set).map Sighting.cell ≠ [] :=
        List.ne_nil_of_mem (List.mem_map_of_mem hmem)
      rw [hsights, List.getLast?_append_of_ne_nil _ hne, List.getLast?_eq_some_getLast hne,
        hcells _ (List.getLast_mem hne)]

/-- New observers of one counter, all in one mode. -/
def AreNew (id : NameIdentity) (mode : Mode) (now : SystemTime) (start : ρ → Watcher K) : Prop :=
  ∀ r, SyncObserver.new id .counter mode now = .ok (start r).observer ∧ (start r).exported = []

omit [LinearOrder K] [DecidableEq ρ] in
theorem AreNew.slot {id : NameIdentity} {mode : Mode} {now : SystemTime} {start : ρ → Watcher K}
    (h : AreNew id mode now start) (r : ρ) (attrs : List K) :
    (start r).slot attrs =
      { values := [], last := if mode = .delta then some none else none } := by
  obtain ⟨o, hnew, _, hslot⟩ := SyncObserver.exists_new (K := K) (V := UInt64) id
    (by decide : Kind.counter ≠ .gauge) mode now
  obtain rfl : o = (start r).observer := Except.ok.inj (hnew.symm.trans (h r).1)
  rw [Watcher.slot, Watcher.values, (h r).2, hslot]
  rfl

omit [LinearOrder K] [DecidableEq ρ] in
theorem AreNew.mode {id : NameIdentity} {mode : Mode} {now : SystemTime} {start : ρ → Watcher K}
    (h : AreNew id mode now start) (r : ρ) : (start r).observer.observeMode = mode := by
  obtain ⟨o, hnew, hmode, _⟩ := SyncObserver.exists_new (K := K) (V := UInt64) id
    (by decide : Kind.counter ≠ .gauge) mode now
  obtain rfl : o = (start r).observer := Except.ok.inj (hnew.symm.trans (h r).1)
  exact hmode

/-- Any number of observers in delta mode watch one counter and export when they like,
while any number of threads add to it, one step at a time in any order.  At every moment
no observer has reported more of a set than was added to it.  And when no visit holds the
lock and no call has its flag still to raise, one further observation brings what the
observer reports of every set to exactly what was added to it. -/
theorem deltas_report_added (hasher : BuildHasher K) (layout : Layout) (id : NameIdentity)
    (now : SystemTime) {start : ρ → Watcher K} (hnew : AreNew id .delta now start)
    {turns : List (VisitTurn ι ρ K SystemTime Unit)}
    {last : Visiting ι ρ K (Watcher K) SystemTime}
    (hfree : CollisionFree (Config.withHasher UInt64 hasher layout) (VisitTurn.listsOf turns))
    (hrun : StepFn.run (Visiting.step Watcher.visitor (Config.withHasher UInt64 hasher layout))
      (init (Config.withHasher UInt64 hasher layout) ι start) turns = some last)
    (hadds : ∀ w ∈ last.writers.recorded, w.write.kind = .add)
    (hlt : ∀ set, Write.sum set (last.writers.recorded.map Recorded.write) < 2 ^ 64) :
    (∀ r set, reported (last.visitors r) set ≤
      Write.sum set (last.writers.recorded.map Recorded.write)) ∧
    (last.visit = none → (∀ t, last.writers.shared.pcs t ≠ .touchNoAttr) → ∀ r ts set,
      reported (Watcher.mk ((last.visitors r).observer.observe
          (Config.withHasher UInt64 hasher layout) ts last.map).2 (last.visitors r).exported) set =
        Write.sum set (last.writers.recorded.map Recorded.write)) := by
  have hstart : ∀ r set, (start r).slot (Finset.sort set (· ≤ ·)) =
      { values := [], last := some none } := fun r set => hnew.slot r _
  have hlast := (orderly_init rfl start).run hfree rfl (subset_refl _) hrun
  have htold := Told.run hfree rfl (subset_refl _) hrun
  have hbound : ∀ {s : Visiting ι ρ K (Watcher K) SystemTime}, Dated s → Told start s →
      s.writers = last.writers → ∀ r set, reported (s.visitors r) set ≤
        Write.sum set (last.writers.recorded.map Recorded.write) := by
    intro s hdated hs hwriters r set
    rw [hs.reported_delta hdated (hwriters ▸ hadds) (hwriters ▸ hlt) r set (hstart r set)]
    cases hcell : (s.sights r set).getLast? with
    | none => exact Nat.zero_le _
    | some cell =>
        rw [← hwriters]
        exact sights_le hdated (hwriters ▸ hadds) (hwriters ▸ hlt) (List.mem_of_getLast? hcell)
  refine ⟨hbound hlast.dated htold rfl, fun hvisit hraised r ts set => ?_⟩
  obtain ⟨n, _, done, hvisits, hover, hwriters, _, hvisitors⟩ :=
    run_visit_alone Watcher.visitor (Config.withHasher UInt64 hasher layout) hvisit r ts
  have hwhole : StepFn.run (Visiting.step Watcher.visitor (Config.withHasher UInt64 hasher layout))
      (init (Config.withHasher UInt64 hasher layout) ι start)
      (turns ++ .begin r ts :: List.replicate n .visit) = some done :=
    (StepFn.run_append_eq_some _).mpr ⟨last, hrun, hvisits⟩
  have hlists : VisitTurn.listsOf (turns ++ .begin r ts :: List.replicate n .visit) ⊆
      VisitTurn.listsOf turns := by
    rw [VisitTurn.listsOf_append]
    apply Set.union_subset (subset_refl _)
    intro attrs hattrs
    simp [VisitTurn.listsOf, VisitTurn.lists, List.flatMap_replicate] at hattrs
  have hdone := (orderly_init rfl start).run hfree rfl hlists hwhole
  have htold' := Told.run hfree rfl hlists hwhole
  have hmode : (last.visitors r).observer.observeMode ≠ .destructive := by
    rw [htold.mode r, hnew.mode r]
    decide
  have hobserved : done.visitors r = Watcher.mk ((last.visitors r).observer.observe
      (Config.withHasher UInt64 hasher layout) ts last.map).2 (last.visitors r).exported := by
    rw [hvisitors, Function.update_self]
    exact Watcher.told_eq_observe _ ts last.map (last.visitors r) hmode
  rw [← hobserved]
  by_cases hwritten : ∃ w ∈ last.writers.recorded, w.write.set = set
  · obtain ⟨w, hw, rfl⟩ := hwritten
    have hadds' : ∀ w ∈ last.writers.recorded.map Recorded.write, w.kind = .add := by
      intro found hfound
      obtain ⟨x, hx, rfl⟩ := List.mem_map.mp hfound
      exact hadds x hx
    rw [htold'.reported_delta hdone.dated (hwriters ▸ hadds) (hwriters ▸ hlt) r _ (hstart r _),
      getLast_sights_alone hfree rfl hlast hvisits hover hwriters hraised hw, Option.getD_some]
    exact Write.toNat_total hadds' (hlt _)
  · have hzero : Write.sum set (last.writers.recorded.map Recorded.write) = 0 := by
      rw [Write.sum, List.filter_eq_nil_iff.mpr]
      · rfl
      · intro w hw
        obtain ⟨x, hx, rfl⟩ := List.mem_map.mp hw
        simpa using fun hset => hwritten ⟨x, hx, hset⟩
    rw [hzero]
    exact Nat.le_zero.mp (hzero ▸ hbound hdone.dated htold' hwriters r set)

/-- Two threads add 5 and 2 to one set while two observers take turns: the first reports 5
before the second addition is made, and both end up with 7. -/
theorem deltas_report_added_seven :
    let cfg := Config.withHasher UInt64 ⟨UInt64.ofNat, AttrFingerprint.sum⟩ Layout.stack
    let turns : List (VisitTurn Bool Bool Nat SystemTime Unit) :=
      [.call true ⟨.add, 5, [1]⟩, .step true, .step true, .step true, .step true,
        .call false ⟨.add, 2, [1]⟩, .step false].map .writer ++
      [.begin true 10, .visit, .visit, .own true (), .writer (.step false), .begin false 20,
        .visit, .visit]
    ∃ start last, AreNew ⟨"requests", "", ""⟩ .delta 0 start ∧
      StepFn.run (Visiting.step Watcher.visitor cfg) (init cfg Bool start) turns = some last ∧
      reported (last.visitors true) {1} = 5 ∧
      (reported (last.visitors true) {1} ≤
        Write.sum {1} (last.writers.recorded.map Recorded.write)) ∧
      reported (Watcher.mk ((last.visitors true).observer.observe cfg 30 last.map).2
        (last.visitors true).exported) {1} = 7 := by
  intro cfg turns
  let start : Bool → Watcher Nat := fun _ =>
    { observer :=
        { startTime := 0, seq := 0, id := ⟨"requests", "", ""⟩, series := fun _ => []
          lastValues := some fun _ => none, observeMode := .delta, kind := .counter }
      exported := [] }
  have hfree : CollisionFree cfg (VisitTurn.listsOf turns) := by
    apply CollisionFree.of_perm [1]
    have hall : ∀ attrs ∈ turns.flatMap VisitTurn.lists, attrs.Perm [1] := by decide
    exact hall
  obtain ⟨last, hrun, hidle, hvisit, hwrites, hfive⟩ : ∃ last,
      StepFn.run (Visiting.step Watcher.visitor cfg) (init cfg Bool start) turns = some last ∧
      (∀ t, last.writers.shared.pcs t = .idle) ∧ last.visit = none ∧
      last.writers.recorded.map Recorded.write = [⟨.add, 5, [1]⟩, ⟨.add, 2, [1]⟩] ∧
      (((last.visitors true).values [1]).map UInt64.toNat).sum = 5 :=
    ⟨_, rfl, fun t => by cases t <;> rfl, rfl, by decide +kernel, by decide +kernel⟩
  have hadds : ∀ w ∈ last.writers.recorded, w.write.kind = .add := by
    have hall : ∀ w ∈ last.writers.recorded.map Recorded.write, w.kind = .add := by
      rw [hwrites]
      decide
    exact fun w hw => hall _ (List.mem_map_of_mem hw)
  have hsum : Write.sum {1} (last.writers.recorded.map Recorded.write) = 7 := by
    rw [hwrites]
    decide
  have hdeltas := deltas_report_added cfg.hasher cfg.layout ⟨"requests", "", ""⟩ 0
    (fun _ => ⟨rfl, rfl⟩) hfree hrun hadds fun set => by
      apply lt_of_le_of_lt (Write.sum_le set _)
      rw [hwrites]
      decide
  refine ⟨start, last, fun _ => ⟨rfl, rfl⟩, hrun, ?_, hdeltas.1 true {1}, ?_⟩
  · rw [reported, Finset.sort_singleton]
    exact hfive
  · exact (hdeltas.2 hvisit (fun t => by simp [hidle]) true 30 {1}).trans hsum

/-- Any number of observers in direct mode watch one counter that is added to and
subtracted from meanwhile: what an observer hands on or holds for a set are totals of the
writes made to the set until moments that never go back. -/
theorem direct_reports_totals (hasher : BuildHasher K) (layout : Layout) (id : NameIdentity)
    (now : SystemTime) {start : ρ → Watcher K} (hnew : AreNew id .direct now start)
    {turns : List (VisitTurn ι ρ K SystemTime Unit)}
    {last : Visiting ι ρ K (Watcher K) SystemTime}
    (hfree : CollisionFree (Config.withHasher UInt64 hasher layout) (VisitTurn.listsOf turns))
    (hrun : StepFn.run (Visiting.step Watcher.visitor (Config.withHasher UInt64 hasher layout))
      (init (Config.withHasher UInt64 hasher layout) ι start) turns = some last) (r : ρ)
    (set : Finset K) :
    ∃ moments : List Nat, moments.Pairwise (· ≤ ·) ∧
      (∀ n ∈ moments, n ≤ last.writers.recorded.length) ∧
      (last.visitors r).values (set.sort (· ≤ ·)) = moments.map fun n =>
        Write.total set ((last.writers.recorded.take n).map Recorded.write) := by
  have hdated := ((orderly_init rfl start).run hfree rfl (subset_refl _) hrun).dated
  have hslot := (Told.run hfree rfl (subset_refl _) hrun).slot r set
  rw [hnew.slot r, if_neg (by decide), Slot.observeAll_direct, List.nil_append] at hslot
  have hvalues : (last.visitors r).values (set.sort (· ≤ ·)) = last.sights r set :=
    congrArg Slot.values hslot
  refine ⟨(last.sightings.filter fun x => x.visitor = r ∧ x.set = set).map Sighting.after,
    List.pairwise_map.mpr (hdated.inOrder.filter _), fun n hn => ?_, ?_⟩
  · obtain ⟨x, hx, rfl⟩ := List.mem_map.mp hn
    exact hdated.after x (List.mem_filter.mp hx).1
  · rw [hvalues, sights, List.map_map]
    apply List.map_congr_left
    intro x hx
    obtain ⟨hmem, hboth⟩ := List.mem_filter.mp hx
    simp only [decide_eq_true_eq] at hboth
    rw [hdated.cell x hmem, hboth.2]
    rfl

/-- A thread adds 5 to a set and takes 2 away again, and an observer in direct mode looks
after each of the two. -/
theorem direct_reports_totals_twice :
    let cfg := Config.withHasher UInt64 ⟨UInt64.ofNat, AttrFingerprint.sum⟩ Layout.stack
    let turns : List (VisitTurn Unit Unit Nat SystemTime Unit) :=
      [.call () ⟨.add, 5, [1]⟩, .step (), .step (), .step (), .step ()].map .writer ++
      [.begin () 10, .visit, .visit, .own () ()] ++
      [.call () ⟨.sub, 2, [1]⟩, .step (), .step ()].map .writer ++ [.begin () 20, .visit, .visit]
    ∃ start last, AreNew ⟨"requests", "", ""⟩ .direct 0 start ∧
      StepFn.run (Visiting.step Watcher.visitor cfg) (init cfg Unit start) turns = some last ∧
      (last.visitors ()).values [1] = [5, 3] ∧
      ∃ moments : List Nat, moments.Pairwise (· ≤ ·) ∧
        (∀ n ∈ moments, n ≤ last.writers.recorded.length) ∧
        (last.visitors ()).values (Finset.sort {1} (· ≤ ·)) = moments.map fun n =>
          Write.total {1} ((last.writers.recorded.take n).map Recorded.write) := by
  intro cfg turns
  let start : Unit → Watcher Nat := fun _ =>
    { observer :=
        { startTime := 0, seq := 0, id := ⟨"requests", "", ""⟩, series := fun _ => []
          lastValues := none, observeMode := .direct, kind := .counter }
      exported := [] }
  have hfree : CollisionFree cfg (VisitTurn.listsOf turns) := by
    apply CollisionFree.of_perm [1]
    have hall : ∀ attrs ∈ turns.flatMap VisitTurn.lists, attrs.Perm [1] := by decide
    exact hall
  obtain ⟨last, hrun, hvalues⟩ : ∃ last,
      StepFn.run (Visiting.step Watcher.visitor cfg) (init cfg Unit start) turns = some last ∧
      (last.visitors ()).values [1] = [5, 3] := ⟨_, rfl, by decide +kernel⟩
  exact ⟨start, last, fun _ => ⟨rfl, rfl⟩, hrun, hvalues,
    direct_reports_totals cfg.hasher cfg.layout ⟨"requests", "", ""⟩ 0 (fun _ => ⟨rfl, rfl⟩) hfree
      hrun () {1}⟩

end Visiting

end Ohnotel
