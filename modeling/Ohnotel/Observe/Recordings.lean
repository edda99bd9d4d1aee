/-
# What was recorded since

The calls of an application on a histogram record values, take the bucket of one list of
attributes, or clear the whole metric.  For each set of attributes, what was recorded
since its bucket was last taken or cleared is what its cell holds.

A take looks its list up as it is written.  If it finds no bucket it takes nothing and
says so, and what was recorded stays recorded.
-/

import Ohnotel.Observe.Modes

namespace Ohnotel

open Foundation Atomic

/-- The calls of an application on a histogram. -/
inductive Recording (K T : Type)
  | add (value : T) (attrs : List K)
  | take (attrs : List K)
  | clear

namespace Recording

variable {K T : Type}

def op : Recording K T → HistogramOp K T
  | .add value attrs => .add value attrs
  | .take attrs => .takeBucket attrs
  | .clear => .clear

/-- The attribute lists that occur in calls. -/
def listsOf (calls : List (Recording K T)) : Set (List K) :=
  {attrs | attrs ∈ calls.flatMap fun call => call.op.lists}

/-- The values that calls record. -/
def valuesOf (calls : List (Recording K T)) : List T :=
  calls.flatMap fun call =>
    match call with
    | .add value _ => [value]
    | .take _ | .clear => []

variable [LinearOrder K]

/-- What is recorded for each set after one more call, given what the call returned. -/
def track (record : Finset K → List T) : Recording K T → HistogramOut K T → Finset K → List T
  | .add value attrs, _ => BucketMap.holding record value attrs
  | .take attrs, .snapshot (some _) => Function.update record attrs.toFinset []
  | .take _, _ => record
  | .clear, _ => fun _ => []

/-- A call records no value but its own. -/
theorem track_sublist (record : Finset K → List T) (call : Recording K T)
    (out : HistogramOut K T) (set : Finset K) :
    (track record call out set).Sublist (record set ++ valuesOf [call]) := by
  match call, out with
  | .add value attrs, _ =>
      rw [track, BucketMap.holding]
      by_cases hset : set = attrs.toFinset
      · subst hset
        rw [Function.update_self]
        exact List.Sublist.refl _
      · rw [Function.update_of_ne hset]
        exact List.sublist_append_left _ _
  | .take attrs, .snapshot (some _) =>
      rw [track]
      by_cases hset : set = attrs.toFinset
      · subst hset
        rw [Function.update_self]
        exact List.nil_sublist _
      · rw [Function.update_of_ne hset]
        exact List.sublist_append_left _ _
  | .take _, .snapshot none | .take _, .unit | .take _, .taken _ _ | .take _, .visited _ =>
      exact List.sublist_append_left _ _
  | .clear, _ => exact List.nil_sublist _

/-- What calls recorded for a set are among the values they record, in that order. -/
theorem trackAll_sublist (record : Finset K → List T) (calls : List (Recording K T))
    (outs : List (HistogramOut K T)) (set : Finset K) :
    (trackAll track record calls outs set).Sublist (record set ++ valuesOf calls) := by
  induction calls generalizing record outs with
  | nil =>
      rw [trackAll]
      · exact List.sublist_append_left _ _
      · simp
  | cons call rest ih =>
      cases outs with
      | nil => exact List.sublist_append_left _ _
      | cons out outs =>
          have hcons : valuesOf (call :: rest) = valuesOf [call] ++ valuesOf rest := by
            simp [valuesOf]
          rw [trackAll, hcons, ← List.append_assoc]
          exact (ih _ outs).trans ((track_sublist record call out set).append_right _)

section Runs

variable {C : Type} [Measure T C] (cfg : Config K (Bucket T C))

/-- A new histogram after calls, and what each of them returned. -/
def perform (calls : List (Recording K T)) : BucketMap K (Bucket T C) × List (HistogramOut K T) :=
  performAll (fun m (call : Recording K T) => Histogram.exec cfg m call.op)
    (BucketMap.withStorage cfg) calls

/-- What calls on a new histogram recorded for each set since its bucket was last taken or
cleared. -/
def recordedSince (calls : List (Recording K T)) : Finset K → List T :=
  trackAll track (fun _ => []) calls (perform cfg calls).2

theorem recordedSince_sublist (calls : List (Recording K T)) (set : Finset K) :
    (recordedSince cfg calls set).Sublist (valuesOf calls) :=
  trackAll_sublist (fun _ => []) calls _ set

end Runs

end Recording

namespace BucketMap

variable {K A T V : Type} [LinearOrder K] {cfg : Config K A} {inUse : Set (List K)}
  [Record A T V]

/-- Every cell holds what was recorded for its set, and every set for which something was
recorded has one. -/
structure Records (cfg : Config K A) (inUse : Set (List K)) (m : BucketMap K A)
    (record : Finset K → List T) : Prop where
  inv : Inv cfg inUse m
  shown : ∀ set cell, m.shownCell set = some cell → cell = addAll cfg.initBucket (record set)
  kept : ∀ set, record set ≠ [] → (m.shownCell set).isSome
  noAttrCell : m.noAttrCell = addAll cfg.initBucket (record ∅)

theorem records_withStorage : Records (T := T) cfg inUse (withStorage cfg) fun _ => [] where
  inv := inv_withStorage cfg inUse
  shown set cell hshown := by
    have hnone : (withStorage cfg).shownCell set = none := by
      rw [shownCell]
      split <;> rfl
    simp [hnone] at hshown
  kept set hne := absurd rfl hne
  noAttrCell := rfl

section Changes

variable {m m' : BucketMap K A} {record : Finset K → List T} {set : Finset K}

/-- A change of the cell of one set. -/
theorem Records.replace (h : Records cfg inUse m record) (hinv : Inv cfg inUse m')
    {values : List T}
    (hself : ∀ cell, m'.shownCell set = some cell → cell = addAll cfg.initBucket values)
    (hkept : values ≠ [] → (m'.shownCell set).isSome)
    (hother : ∀ other, other ≠ set → m'.shownCell other = m.shownCell other)
    (hcell : m'.noAttrCell = if set = ∅ then addAll cfg.initBucket values else m.noAttrCell) :
    Records cfg inUse m' (Function.update record set values) where
  inv := hinv
  shown other cell hshown := by
    by_cases hsame : other = set
    · subst hsame
      rw [Function.update_self]
      exact hself cell hshown
    · rw [Function.update_of_ne hsame]
      exact h.shown other cell (hother other hsame ▸ hshown)
  kept other hne := by
    by_cases hsame : other = set
    · subst hsame
      rw [Function.update_self] at hne
      exact hkept hne
    · rw [Function.update_of_ne hsame] at hne
      rw [hother other hsame]
      exact h.kept other hne
  noAttrCell := by
    by_cases hset : set = ∅
    · subst hset
      rw [hcell, if_pos rfl, Function.update_self]
    · rw [hcell, if_neg hset, Function.update_of_ne (Ne.symm hset)]
      exact h.noAttrCell

/-- What the cell of a set holds before a write. -/
theorem Records.getD_shownCell (h : Records cfg inUse m record) (set : Finset K) :
    (m.shownCell set).getD cfg.initBucket = addAll cfg.initBucket (record set) := by
  cases hshown : m.shownCell set with
  | some cell => exact h.shown _ _ hshown
  | none =>
      have hnil : record set = [] := by
        by_contra hrecord
        simpa [hshown] using h.kept _ hrecord
      rw [hnil]
      rfl

end Changes

theorem Records.shows {m : BucketMap K A} {record : Finset K → List T}
    (h : Records cfg inUse m record) : Shows cfg inUse m m.shownCell where
  inv := h.inv
  shownCell := rfl
  noAttrCell := by rw [h.noAttrCell, h.getD_shownCell]

theorem Records.add (hfree : CollisionFree cfg inUse) {m : BucketMap K A}
    {record : Finset K → List T} (h : Records cfg inUse m record) (value : T) {attrs : List K}
    (hattrs : attrs ∈ inUse) :
    Records cfg inUse (m.add cfg value attrs) (holding record value attrs) := by
  have hshows : Shows cfg inUse (m.add cfg value attrs)
      (Function.update m.shownCell attrs.toFinset
        (some (addAll cfg.initBucket (record attrs.toFinset ++ [value])))) := by
    rw [addAll_concat, ← h.getD_shownCell]
    exact h.shows.write hfree hattrs fun cell => Record.add cell value
  have hshown := hshows.shownCell
  refine h.replace hshows.inv (fun cell hcell => ?_) (fun _ => ?_) (fun other hother => ?_) ?_
  · rw [hshown, Function.update_self] at hcell
    exact (Option.some.inj hcell).symm
  · rw [hshown, Function.update_self, Option.isSome_some]
  · rw [hshown, Function.update_of_ne hother]
  · refine hshows.noAttrCell.trans ?_
    split
    · rename_i hempty
      rw [hempty, Function.update_self, Option.getD_some]
    · rename_i hset
      rw [Function.update_of_ne (Ne.symm hset), h.getD_shownCell, ← h.noAttrCell]

theorem Records.clear {m : BucketMap K A} {record : Finset K → List T}
    (h : Records cfg inUse m record)
    (hclear : ∀ values : List T, Record.clear (addAll cfg.initBucket values) = cfg.initBucket) :
    Records (T := T) cfg inUse m.clear fun _ => [] := by
  have hshows := h.shows.drained (clear_spec h.inv) (by rw [h.getD_shownCell, hclear])
  refine ⟨hshows.inv, fun set cell hshown => ?_, fun set hne => absurd rfl hne,
    hshows.noAttrCell⟩
  simp [hshows.shownCell] at hshown

/-- The bucket that a read finds for a list is emptied, and no other. -/
theorem Records.empty (hfree : CollisionFree cfg inUse) {m : BucketMap K A}
    {record : Finset K → List T} (h : Records cfg inUse m record) {attrs : List K}
    (hattrs : attrs ∈ inUse) {bucket : BucketRef} (hget : m.getBucket cfg attrs = .ok bucket)
    (hclear : ∀ values : List T, Record.clear (addAll cfg.initBucket values) = cfg.initBucket) :
    Records cfg inUse (m.modifyCell bucket Record.clear)
      (Function.update record attrs.toFinset []) := by
  have hinv : Inv cfg inUse (m.modifyCell bucket Record.clear) := h.inv.modifyCell _ _
  by_cases hne : attrs = []
  · subst hne
    obtain rfl : m.noAttrEntry.bucket = bucket := Except.ok.inj hget
    obtain ⟨hvalue, hcell⟩ := valueOf_modifyCell_noAttr h.inv Record.clear
    rw [h.noAttrCell, hclear] at hcell
    refine h.replace hinv (fun cell hshown => ?_) (fun hnil => absurd rfl hnil)
      (fun other hother => ?_) ?_
    · have htouched : (m.modifyCell m.noAttrEntry.bucket Record.clear).noAttrTouched =
          m.noAttrTouched := rfl
      rw [List.toFinset_nil, shownCell_empty, htouched, hcell] at hshown
      split at hshown
      · exact (Option.some.inj hshown).symm
      · cases hshown
    · rw [shownCell_of_ne _ hother, shownCell_of_ne _ hother, hvalue]
    · rw [hcell, if_pos (List.toFinset_nil)]
      rfl
  · have hset := toFinset_ne_empty hne
    have hbucket : m.bucketOf attrs.toFinset = some bucket := by
      rcases getBucket_spec hfree h.inv hne hattrs with ⟨_, found, hfound, hok⟩ | ⟨_, herr⟩
      · rw [hget] at hok
        rw [hfound, Except.ok.inj hok]
      · rw [hget] at herr
        cases herr
    obtain ⟨hvalue, hcell⟩ := valueOf_modifyCell h.inv hbucket Record.clear
    refine h.replace hinv (fun cell hshown => ?_) (fun hnil => absurd rfl hnil)
      (fun other hother => ?_) ?_
    · rw [shownCell_of_ne _ hset, hvalue, Function.update_self] at hshown
      obtain ⟨before, hbefore, rfl⟩ := Option.map_eq_some_iff.mp hshown
      rw [← shownCell_of_ne m hset] at hbefore
      rw [h.shown _ _ hbefore, hclear]
      rfl
    · by_cases hempty : other = ∅
      · subst hempty
        rw [shownCell_empty, shownCell_empty, hcell]
        rfl
      · rw [shownCell_of_ne _ hempty, shownCell_of_ne _ hempty, hvalue,
          Function.update_of_ne hother]
    · rw [hcell, if_neg hset]

end BucketMap

namespace Recording

variable {K T C : Type} [LinearOrder K] [Measure T C]

variable {boundaries : Boundaries T} {hasher : BuildHasher K} {layout : Layout}
  {inUse : Set (List K)}

/-- One call keeps what the cells hold in step with what is recorded. -/
theorem records_exec
    (hfree : CollisionFree (Histogram.storage (C := C) boundaries hasher layout) inUse)
    {m : BucketMap K (Bucket T C)} {record : Finset K → List T}
    (h : BucketMap.Records (Histogram.storage boundaries hasher layout) inUse m record)
    (call : Recording K T) (hlists : ∀ attrs ∈ call.op.lists, attrs ∈ inUse) :
    BucketMap.Records (Histogram.storage boundaries hasher layout) inUse
      (Histogram.exec (Histogram.storage boundaries hasher layout) m call.op).1
      (track record call
        (Histogram.exec (Histogram.storage boundaries hasher layout) m call.op).2) := by
  cases call with
  | add value attrs => exact h.add hfree value (hlists attrs List.mem_cons_self)
  | clear => exact h.clear clear_addAll
  | take attrs =>
      have hmem := hlists attrs List.mem_cons_self
      simp only [op, Histogram.exec, Histogram.take]
      cases hget : m.getBucket (Histogram.storage boundaries hasher layout) attrs with
      | ok bucket => exact h.empty hfree hmem hget clear_addAll
      | error _ => exact h

/-- After any calls, every cell holds what was recorded for its set since its bucket was
last taken or cleared. -/
theorem records_perform (calls : List (Recording K T))
    (hfree : CollisionFree (Histogram.storage (C := C) boundaries hasher layout)
      (listsOf calls)) :
    BucketMap.Records (Histogram.storage (C := C) boundaries hasher layout) (listsOf calls)
      (perform (Histogram.storage boundaries hasher layout) calls).1
      (recordedSince (C := C) (Histogram.storage boundaries hasher layout) calls) := by
  refine performAll_track _ (fun call hcall m record h => ?_) BucketMap.records_withStorage
  exact records_exec hfree h call fun attrs hattrs => List.mem_flatMap.mpr ⟨call, hcall, hattrs⟩

end Recording

end Ohnotel
