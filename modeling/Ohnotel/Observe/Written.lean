/-
# What a drained gauge reports as written

A draining observer tells in two ways that something was written since it last drained the
map: a set of attributes has a bucket, and the flag of no attributes is up.  It then leaves
out every bucket whose value is zero, but files the value of no attributes whatever it is.
So a set that was written and stands at zero is missing from what is filed.

Lists with equal fingerprints may share a bucket.  A write that is answered with the bucket
of another set is missing from its own set, so what is reported is what was written only as
far as the map holds it.
-/

import Ohnotel.Observe.Slots

namespace Ohnotel

open Foundation Atomic

/-- What happens to a gauge and to its observer. -/
inductive GaugeOp (K : Type)
  | add (value : Int64) (attrs : List K)
  | sub (value : Int64) (attrs : List K)
  | set (value : Int64) (attrs : List K)
  | observe (ts : SystemTime)

namespace GaugeOp

variable {K : Type}

variable [LinearOrder K]

/-- Write to the value of a set, which starts at zero after each observation. -/
def rewrite (written : Finset K → Option Int64) (attrs : List K) (f : Int64 → Int64) :
    Finset K → Option Int64 :=
  Function.update written attrs.toFinset (some (f ((written attrs.toFinset).getD 0)))

/-- The value of each set that was written since the last observation. -/
def track (written : Finset K → Option Int64) : GaugeOp K → Finset K → Option Int64
  | .add value attrs => rewrite written attrs (· + value)
  | .sub value attrs => rewrite written attrs (· - value)
  | .set value attrs => rewrite written attrs fun _ => value
  | .observe _ => fun _ => none

end GaugeOp

/-- A gauge, its observer, and what was written since the last observation. -/
structure Gauged (K : Type) where
  buckets : BucketMap K Int64
  observer : SyncObserver K Int64
  written : Finset K → Option Int64

namespace Gauged

variable {K : Type}

/-- No observation finds a set of attributes that was written and stands at zero. -/
def Nonzero (s : Gauged K) : GaugeOp K → Prop
  | .add _ _ | .sub _ _ | .set _ _ => True
  | .observe _ => ∀ set, set ≠ ∅ → s.written set ≠ some 0

variable [LinearOrder K] (cfg : Config K Int64)

/-- Every set of attributes that was written has a bucket at the next observation that
holds what was written, and that is not zero. -/
def Stands (s : Gauged K) : GaugeOp K → Prop
  | .add _ _ | .sub _ _ | .set _ _ => True
  | .observe _ => ∀ set, set ≠ ∅ → ∀ value, s.written set = some value →
      s.buckets.valueOf set = some value ∧ value ≠ 0

/-- No write is answered with the bucket of another set. -/
def Answered (s : Gauged K) : GaugeOp K → Prop
  | .add _ attrs | .sub _ attrs | .set _ attrs => attrs ≠ [] → BucketMap.Answers cfg s.buckets attrs
  | .observe _ => True

instance (s : Gauged K) : ∀ op, Decidable (s.Answered cfg op)
  | .add _ attrs | .sub _ attrs | .set _ attrs =>
      inferInstanceAs (Decidable (attrs ≠ [] → BucketMap.Answers cfg s.buckets attrs))
  | .observe _ => .isTrue trivial

def new (observer : SyncObserver K Int64) : Gauged K where
  buckets := BucketMap.withStorage cfg
  observer := observer
  written _ := none

/-- What an operation does to the map. -/
def exec (s : Gauged K) : GaugeOp K → BucketMap K Int64
  | .add value attrs => s.buckets.add cfg value attrs
  | .sub value attrs => s.buckets.sub cfg value attrs
  | .set value attrs => s.buckets.set cfg value attrs
  | .observe ts => (s.observer.observe cfg ts s.buckets).1

def step : StepFn (Gauged K) (GaugeOp K) := fun s op => some
  { buckets := s.exec cfg op
    observer :=
      match op with
      | .add _ _ | .sub _ _ | .set _ _ => s.observer
      | .observe ts => (s.observer.observe cfg ts s.buckets).2
    written := GaugeOp.track s.written op }

/-- The values that an observation pushes under a list. -/
def pushed (s : Gauged K) (ts : SystemTime) (attrs : List K) : List Int64 :=
  (((s.observer.observe cfg ts s.buckets).2.series attrs).drop
    (s.observer.series attrs).length).map Observation.value

/-- Every observation pushes one snapshot for each set that was written since the last
one, with the value the set stands at, and nothing else. -/
def ReportsWritten (s : Gauged K) : GaugeOp K → Prop
  | .add _ _ | .sub _ _ | .set _ _ => True
  | .observe ts =>
      (∀ set : Finset K, s.pushed cfg ts (set.sort (· ≤ ·)) = (s.written set).toList) ∧
        ∀ attrs, normalize attrs ≠ attrs → s.pushed cfg ts attrs = []

/-- The map shows what was written under no attributes since the last observation, and has
no bucket of a set that was not written. -/
structure Tracks (s : Gauged K) : Prop where
  inv : BucketMap.Inv cfg Set.univ s.buckets
  noAttr : s.buckets.shownCell ∅ = s.written ∅
  noAttrCell : s.buckets.noAttrCell = (s.written ∅).getD 0
  absent : ∀ set, set ≠ ∅ → s.written set = none → s.buckets.valueOf set = none
  observeMode : s.observer.observeMode = .destructive

/-- The map shows what was written since the last observation. -/
structure Agrees (s : Gauged K) : Prop where
  shows : BucketMap.Shows cfg Set.univ s.buckets s.written
  observeMode : s.observer.observeMode = .destructive

variable {hasher : BuildHasher K} {layout : Layout} {s s' : Gauged K}

theorem agrees_new {observer : SyncObserver K Int64} {id : NameIdentity} {now : SystemTime}
    (hnew : SyncObserver.new id .gauge .destructive now = .ok observer) :
    Agrees (Config.withHasher Int64 hasher layout)
      (new (Config.withHasher Int64 hasher layout) observer) where
  shows := BucketMap.shows_withStorage
  observeMode := by
    obtain rfl := Except.ok.inj hnew
    rfl

variable {cfg} in
/-- What is shown is what was written. -/
theorem Agrees.valueOf (h : Agrees cfg s) {set : Finset K} (hset : set ≠ ∅) :
    s.buckets.valueOf set = s.written set := by
  rw [← BucketMap.shownCell_of_ne _ hset, h.shows.shownCell]

theorem Agrees.tracks (h : Agrees (Config.withHasher Int64 hasher layout) s) :
    Tracks (Config.withHasher Int64 hasher layout) s where
  inv := h.shows.inv
  noAttr := congrFun h.shows.shownCell ∅
  noAttrCell := h.shows.noAttrCell
  absent _ hset hnone := (h.valueOf hset).trans hnone
  observeMode := h.observeMode

theorem observe_eq (h : s.observer.observeMode = .destructive) (ts : SystemTime) :
    s.observer.observe cfg ts s.buckets =
      SyncObserver.observeDestructive ts s.buckets s.observer := if_pos h

/-- An observation starts afresh. -/
theorem agrees_observe
    (hinv : BucketMap.Inv (Config.withHasher Int64 hasher layout) Set.univ s.buckets)
    (hmode : s.observer.observeMode = .destructive) (ts : SystemTime) :
    Agrees (Config.withHasher Int64 hasher layout)
      { buckets := s.exec (Config.withHasher Int64 hasher layout) (.observe ts)
        observer := (s.observer.observe (Config.withHasher Int64 hasher layout) ts s.buckets).2
        written := fun _ => none } := by
  have hobserve := observe_eq (Config.withHasher Int64 hasher layout) hmode ts
  have hdrained := (BucketMap.take_spec hinv).1
  constructor
  · simp only [exec, hobserve]
    exact
      { inv := hdrained.inv
        shownCell := by
          funext set
          show (SyncObserver.observeDestructive ts s.buckets s.observer).1.shownCell set = none
          rw [BucketMap.shownCell, SyncObserver.observeDestructive, hdrained.noAttrTouched,
            hdrained.valueOf]
          split <;> rfl
        noAttrCell := hdrained.noAttrCell }
  · simp only [hobserve]
    exact (SyncObserver.mode_observeDestructive ts _ _).trans hmode

/-- A write under no attributes is tracked, and another one is confined to the buckets of
the map. -/
theorem Tracks.write (h : Tracks (Config.withHasher Int64 hasher layout) s) (attrs : List K)
    (f : Int64 → Int64) :
    Tracks (Config.withHasher Int64 hasher layout)
      { s with
        buckets :=
          if attrs.isEmpty then s.buckets.writeNoAttr f
          else s.buckets.updateBucket (Config.withHasher Int64 hasher layout) attrs f
        written := GaugeOp.rewrite s.written attrs f } := by
  by_cases hne : attrs = []
  · subst hne
    obtain ⟨hinv, hvalue, hcell, htouched⟩ := BucketMap.writeNoAttr_spec h.inv f
    rw [if_pos List.isEmpty_nil, GaugeOp.rewrite, List.toFinset_nil]
    refine ⟨hinv, ?_, ?_, fun set hset hnone => ?_, h.observeMode⟩
    · dsimp only
      rw [BucketMap.shownCell_empty, if_pos htouched, hcell, h.noAttrCell, Function.update_self]
    · dsimp only
      rw [hcell, h.noAttrCell, Function.update_self, Option.getD_some]
    · dsimp only at hnone ⊢
      rw [Function.update_of_ne hset] at hnone
      exact (congrFun hvalue set).trans (h.absent set hset hnone)
  · have hset := BucketMap.toFinset_ne_empty hne
    have hconfined := BucketMap.confined_updateBucket h.inv hne (Set.mem_univ attrs) f
    rw [if_neg (mt List.isEmpty_iff.mp hne), GaugeOp.rewrite]
    refine ⟨hconfined.inv, ?_, ?_, fun set hne' hnone => ?_, h.observeMode⟩
    · dsimp only
      rw [Function.update_of_ne hset.symm, ← h.noAttr, BucketMap.shownCell_empty,
        BucketMap.shownCell_empty, hconfined.noAttrTouched, hconfined.noAttrCell]
    · dsimp only
      rw [Function.update_of_ne hset.symm, hconfined.noAttrCell, h.noAttrCell]
    · dsimp only at hnone ⊢
      have hother : set ≠ attrs.toFinset := by
        rintro rfl
        simp at hnone
      rw [Function.update_of_ne hother] at hnone
      exact hconfined.absent set hother (h.absent set hne' hnone)

theorem Tracks.step (h : Tracks (Config.withHasher Int64 hasher layout) s) {op : GaugeOp K}
    (hstep : Gauged.step (Config.withHasher Int64 hasher layout) s op = some s') :
    Tracks (Config.withHasher Int64 hasher layout) s' := by
  obtain rfl := Option.some.inj hstep
  cases op with
  | add value attrs => exact h.write attrs (· + value)
  | sub value attrs => exact h.write attrs (· - value)
  | set value attrs => exact h.write attrs fun _ => value
  | observe ts => exact (agrees_observe h.inv h.observeMode ts).tracks

/-- A write that is not answered with the bucket of another set is tracked. -/
theorem Agrees.step (h : Agrees (Config.withHasher Int64 hasher layout) s) {op : GaugeOp K}
    (hanswered : s.Answered (Config.withHasher Int64 hasher layout) op)
    (hstep : Gauged.step (Config.withHasher Int64 hasher layout) s op = some s') :
    Agrees (Config.withHasher Int64 hasher layout) s' := by
  obtain rfl := Option.some.inj hstep
  cases op with
  | add value attrs =>
      exact ⟨h.shows.write_of_answers (Set.mem_univ attrs) hanswered (· + value), h.observeMode⟩
  | sub value attrs =>
      exact ⟨h.shows.write_of_answers (Set.mem_univ attrs) hanswered (· - value), h.observeMode⟩
  | set value attrs =>
      exact ⟨h.shows.write_of_answers (Set.mem_univ attrs) hanswered fun _ => value,
        h.observeMode⟩
  | observe ts => exact agrees_observe h.shows.inv h.observeMode ts

/-- What an observation pushes for a set. -/
theorem Tracks.pushed_sort (h : Tracks cfg s) (ts : SystemTime) (set : Finset K) :
    s.pushed cfg ts (set.sort (· ≤ ·)) = SyncObserver.drainedValues s.buckets set := by
  have hslot := SyncObserver.slot_observeDestructive h.inv ts s.observer set
  rw [← observe_eq cfg h.observeMode] at hslot
  rw [pushed, List.map_drop, ← List.length_map]
  exact (congrArg (List.drop _) hslot).trans List.drop_left

/-- Nothing is pushed under a list that is not that of a set. -/
theorem Tracks.pushed_elsewhere (h : Tracks cfg s) (ts : SystemTime) {attrs : List K}
    (hattrs : normalize attrs ≠ attrs) : s.pushed cfg ts attrs = [] := by
  have hslot := SyncObserver.slot_observeDestructive_elsewhere h.inv ts s.observer hattrs
  rw [← observe_eq cfg h.observeMode] at hslot
  rw [pushed, List.map_drop, ← List.length_map]
  exact (congrArg (List.drop _) hslot).trans (List.drop_length ..)

/-- What is pushed for a set is what was written to it exactly if the map holds that, and
it is not zero. -/
theorem Tracks.drainedValues_iff (h : Tracks cfg s) (set : Finset K) :
    SyncObserver.drainedValues s.buckets set = (s.written set).toList ↔
      (set ≠ ∅ → ∀ value, s.written set = some value →
        s.buckets.valueOf set = some value ∧ value ≠ 0) := by
  have hinitial : ∀ value : Int64, IsInitial.isInitial (Record.current value) = true ↔ value = 0 :=
    fun _ => beq_iff_eq
  by_cases hset : set = ∅
  · subst hset
    rw [SyncObserver.drainedValues, h.noAttr]
    cases s.written ∅ with
    | none => simp
    | some value =>
        simp only [ne_eq, not_true_eq_false, and_false, if_false, false_implies, iff_true]
        rfl
  · rw [SyncObserver.drainedValues, BucketMap.shownCell_of_ne _ hset]
    cases hwritten : s.written set with
    | none => simp [h.absent set hset hwritten]
    | some value =>
        cases hvalue : s.buckets.valueOf set with
        | none => simp [hset]
        | some held =>
            simp only [hinitial, hset, ne_eq, not_false_eq_true, and_true, Option.toList_some,
              forall_const, Option.some.injEq, forall_eq']
            by_cases hzero : held = 0
            · subst hzero
              simp [eq_comm]
            · rw [if_neg hzero, List.cons_eq_cons, and_iff_left rfl]
              constructor
              · intro hsame
                obtain rfl : held = value := hsame
                exact ⟨rfl, hzero⟩
              · exact And.left

/-- One observation reports what was written exactly if that stands in the map. -/
theorem Tracks.reportsWritten_iff (h : Tracks cfg s) (op : GaugeOp K) :
    s.ReportsWritten cfg op ↔ s.Stands op := by
  cases op with
  | add value attrs => exact Iff.rfl
  | sub value attrs => exact Iff.rfl
  | set value attrs => exact Iff.rfl
  | observe ts =>
      have helsewhere : ∀ attrs, normalize attrs ≠ attrs → s.pushed cfg ts attrs = [] :=
        fun attrs hattrs => h.pushed_elsewhere cfg ts hattrs
      simp only [ReportsWritten, h.pushed_sort, Stands, and_iff_left helsewhere]
      exact forall_congr' h.drainedValues_iff

variable {cfg} in
/-- If the map shows what was written, that stands there unless it is zero. -/
theorem Agrees.stands_iff (h : Agrees cfg s) (op : GaugeOp K) : s.Stands op ↔ s.Nonzero op := by
  cases op with
  | add value attrs => exact Iff.rfl
  | sub value attrs => exact Iff.rfl
  | set value attrs => exact Iff.rfl
  | observe ts =>
      simp only [Stands, Nonzero]
      refine forall₂_congr fun set hset => ?_
      rw [h.valueOf hset]
      constructor
      · exact fun hstands hzero => (hstands 0 hzero).2 rfl
      · rintro hnonzero value hwritten
        refine ⟨hwritten, ?_⟩
        rintro rfl
        exact hnonzero hwritten

/-- In every run of a gauge that a draining observer observes, every observation reports
what was written since the last one if and only if each set of attributes written since
stands in the map at the value written, and that is not zero.  If no write is answered with
the bucket of another set, that is so if and only if no observation finds a set of
attributes that was written since and stands at zero. -/
theorem reportsWritten_iff_stands {observer : SyncObserver K Int64} {id : NameIdentity}
    {now : SystemTime} (hnew : SyncObserver.new id .gauge .destructive now = .ok observer)
    (hasher : BuildHasher K) (layout : Layout) (ops : List (GaugeOp K)) :
    let cfg := Config.withHasher Int64 hasher layout
    ((step cfg).Along (ReportsWritten cfg) (new cfg observer) ops ↔
        (step cfg).Along Stands (new cfg observer) ops) ∧
      ((step cfg).Along (Answered cfg) (new cfg observer) ops →
        ((step cfg).Along (ReportsWritten cfg) (new cfg observer) ops ↔
          (step cfg).Along Nonzero (new cfg observer) ops)) := by
  intro cfg
  have hstands : (step cfg).Along (ReportsWritten cfg) (new cfg observer) ops ↔
      (step cfg).Along Stands (new cfg observer) ops :=
    StepFn.along_congr (Tracks cfg) (fun op _ s h => h.reportsWritten_iff cfg op)
      (fun _ _ _ _ h _ hstep => h.step hstep) (agrees_new hnew).tracks
  refine ⟨hstands, fun hanswered => hstands.trans ?_⟩
  have hboth : (step cfg).Along (fun s op => s.Answered cfg op ∧ s.Stands op)
      (new cfg observer) ops ↔
        (step cfg).Along (fun s op => s.Answered cfg op ∧ s.Nonzero op) (new cfg observer) ops :=
    StepFn.along_congr (Agrees cfg) (fun op _ s h => and_congr_right fun _ => h.stands_iff op)
      (fun _ _ _ _ h hcondition hstep => h.step hcondition.1 hstep) (agrees_new hnew)
  rw [StepFn.along_and, StepFn.along_and] at hboth
  exact (and_congr_right_iff.mp hboth) hanswered

/-- The depth of a queue, under its name and under none, goes up and down again. -/
def upAndDown : List (GaugeOp Nat) :=
  [.add 5 [1], .add 5 [], .sub 5 [1], .sub 5 [], .observe 1]

def depth : Config Nat Int64 :=
  Config.withHasher Int64 ⟨UInt64.ofNat, AttrFingerprint.sum⟩ .stack

def depthObserver : SyncObserver Nat Int64 where
  startTime := 0
  seq := 0
  id := ⟨"depth", "", ""⟩
  series _ := []
  lastValues := none
  observeMode := .destructive
  kind := .gauge

/-- The same gauge, with a hash that tells no attributes apart. -/
def oneHash : Config Nat Int64 :=
  Config.withHasher Int64 ⟨fun _ => 0, AttrFingerprint.sum⟩ .stack

/-- Lists of one attribute are never looked up by their fingerprint, so each gets its own
bucket and both are reported. -/
theorem reportsWritten_iff_stands_oneHash :
    (step oneHash).Along (ReportsWritten oneHash) (new oneHash depthObserver)
        [.add 5 [1], .add 6 [2], .observe 1] ∧
      ((step depth).Along (ReportsWritten depth) (new depth depthObserver) upAndDown ↔
        (step depth).Along Stands (new depth depthObserver) upAndDown) := by
  refine ⟨?_, (reportsWritten_iff_stands rfl depth.hasher depth.layout upAndDown).1⟩
  refine ((reportsWritten_iff_stands rfl oneHash.hasher oneHash.layout _).2 ?_).mpr ?_
  · decide +kernel
  · refine ⟨trivial, fun first hfirst => ⟨trivial, fun second hsecond => ⟨?_, fun _ _ => trivial⟩⟩⟩
    obtain rfl := Option.some.inj hfirst
    obtain rfl := Option.some.inj hsecond
    intro set _
    simp only [new, GaugeOp.track, GaugeOp.rewrite, Function.update_apply]
    split
    · decide
    · split
      · decide
      · decide

/-- Both were written and both stand at zero; only the one of no attributes is pushed. -/
theorem not_reportsWritten_upAndDown :
    ¬ (step depth).Along (ReportsWritten depth) (new depth depthObserver) upAndDown := by
  intro halong
  obtain ⟨_, halong⟩ := halong
  obtain ⟨_, halong⟩ := halong _ rfl
  obtain ⟨_, halong⟩ := halong _ rfl
  obtain ⟨_, halong⟩ := halong _ rfl
  obtain ⟨⟨hpushed, _⟩, _⟩ := halong _ rfl
  have hone := hpushed {1}
  rw [Finset.sort_singleton] at hone
  exact absurd hone (by decide +kernel)

end Gauged

end Ohnotel
