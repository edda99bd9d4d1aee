/-
# The deltas of a histogram

A delta observer files the difference to the snapshot it remembers whenever there are more
values in the bucket than it remembers.  The difference is taken bucket by bucket and of
the sum, as if the values it remembers were still in the bucket.  They are not if the
bucket was taken or cleared in between.

Nothing here depends on which list has which bucket, so lists may collide.
-/

import Mathlib.Algebra.Order.BigOperators.Group.List
import Mathlib.Algebra.Order.Group.Nat
import Ohnotel.Observe.Agreement
import Ohnotel.Observe.Recordings
import Ohnotel.Observe.Stamps

namespace Ohnotel

open Foundation Atomic

/-! ## Differences of counts -/

/-- Differences that stop at zero add up to the difference of the sums exactly if none of
them had to stop. -/
theorem sum_zipWith_sub_eq_iff {before now : List Nat} (hlength : before.length = now.length)
    (hle : before.sum ≤ now.sum) :
    (List.zipWith (· - ·) now before).sum = now.sum - before.sum ↔
      List.Forall₂ (· ≤ ·) before now := by
  have hgeneral : now.sum ≤ (List.zipWith (· - ·) now before).sum + before.sum ∧
      ((List.zipWith (· - ·) now before).sum + before.sum = now.sum ↔
        List.Forall₂ (· ≤ ·) before now) := by
    clear hle
    induction before generalizing now with
    | nil => simp [List.length_eq_zero_iff.mp hlength.symm]
    | cons b before ih =>
        cases now with
        | nil => simp at hlength
        | cons n now =>
            obtain ⟨hle, hiff⟩ := ih (Nat.succ.inj hlength)
            simp only [List.zipWith_cons_cons, List.sum_cons, List.forall₂_cons, ← hiff]
            omega
  rw [← hgeneral.2]
  omega

namespace Atomic.Snapshot

variable {T : Type}

/-- The bucket counts add up to the count. -/
def Consistent (snapshot : Snapshot T) : Prop :=
  (snapshot.bucketCounts.map UInt64.toNat).sum = snapshot.count.toNat

/-- No count and not the sum of the first is above that of the second. -/
structure Fits (first second : Snapshot UInt64) : Prop where
  bucketCounts : List.Forall₂ (· ≤ ·) first.bucketCounts second.bucketCounts
  sum : first.sum ≤ second.sum

instance (first second : Snapshot UInt64) : Decidable (first.Fits second) :=
  decidable_of_iff (List.Forall₂ (· ≤ ·) first.bucketCounts second.bucketCounts ∧
      first.sum ≤ second.sum)
    ⟨fun h => ⟨h.1, h.2⟩, fun h => ⟨h.bucketCounts, h.sum⟩⟩

theorem lt_iff {first second : Snapshot T} :
    PartialOrd.lt first second = true ↔ first.count < second.count := by
  have hcount : PartialOrd.lt first second = PartialOrd.lt first.count second.count := rfl
  rw [hcount, IntegerMeasure.lt_eq, decide_eq_true_eq, UInt64.lt_iff_toNat_lt]
  exact Int.ofNat_lt

/-- The difference to a smaller snapshot is consistent exactly if no bucket count was
above. -/
theorem consistent_sub_iff {before now : Snapshot UInt64} (hbefore : before.Consistent)
    (hnow : now.Consistent) (hlength : before.bucketCounts.length = now.bucketCounts.length)
    (hlt : before.count < now.count) :
    (now - before).Consistent ↔ List.Forall₂ (· ≤ ·) before.bucketCounts now.bucketCounts := by
  have hcounts : (now - before).bucketCounts.map UInt64.toNat =
      List.zipWith (· - ·) (now.bucketCounts.map UInt64.toNat)
        (before.bucketCounts.map UInt64.toNat) := by
    rw [List.zipWith_map]
    refine (List.map_zipWith).trans ?_
    simp only [toNat_saturatingSub]
  have hcount : (now - before).count.toNat =
      (now.bucketCounts.map UInt64.toNat).sum - (before.bucketCounts.map UInt64.toNat).sum := by
    rw [hbefore, hnow]
    exact toNat_saturatingSub _ _
  have hle : (before.bucketCounts.map UInt64.toNat).sum ≤
      (now.bucketCounts.map UInt64.toNat).sum := by
    rw [hbefore, hnow]
    exact (UInt64.lt_iff_toNat_lt.mp hlt).le
  rw [Consistent, hcounts, hcount, sum_zipWith_sub_eq_iff (by simpa using hlength) hle,
    List.forall₂_map_left_iff, List.forall₂_map_right_iff]
  exact Iff.rfl

/-- What a consistent snapshot of a total below `2 ^ 64` is filed as. -/
theorem filed_iff {before now : Snapshot UInt64} {total : Nat} (hbefore : before.Consistent)
    (hnow : now.Consistent) (hlength : before.bucketCounts.length = now.bucketCounts.length)
    (htotal : now.sum.toNat ≤ total) :
    ((∀ filed ∈ Slot.filed (some (some before)) now,
        filed.Consistent ∧ filed.sum.toNat ≤ total) ∧
      (before.count < now.count → before.sum ≤ now.sum)) ↔
      (before.count < now.count → before.Fits now) := by
  by_cases hlt : before.count < now.count
  · have hne : (before == now) = false := by
      refine beq_eq_false_iff_ne.mpr ?_
      rintro rfl
      exact absurd hlt (UInt64.lt_irrefl _)
    have hfiled : Slot.filed (some (some before)) now = [now - before] := by
      simp [Slot.filed, hne, Slot.difference, lt_iff.mpr hlt]
    rw [hfiled, List.forall_mem_singleton]
    simp only [hlt, forall_const]
    rw [consistent_sub_iff hbefore hnow hlength hlt]
    constructor
    · rintro ⟨⟨hcounts, _⟩, hsum⟩
      exact ⟨hcounts, hsum⟩
    · rintro ⟨hcounts, hsum⟩
      have hle := UInt64.le_iff_toNat_le.mp hsum
      have hdifference : (now - before).sum.toNat = now.sum.toNat - before.sum.toNat :=
        toNat_sub_of_le hle
      exact ⟨⟨hcounts, by omega⟩, hsum⟩
  · have hfiled : ∀ filed ∈ Slot.filed (some (some before)) now, filed = now := by
      intro filed hmem
      have hnot : PartialOrd.lt before now = false := by
        simpa using mt lt_iff.mp hlt
      simp only [Slot.filed, Slot.difference, hnot, Bool.false_eq_true, if_false] at hmem
      split at hmem
      · simp at hmem
      · exact List.mem_singleton.mp hmem
    simp only [hlt, false_implies, and_true, iff_true]
    intro filed hmem
    rw [hfiled filed hmem]
    exact ⟨hnow, htotal⟩

end Atomic.Snapshot

/-- What is remembered was read just now or remembered before. -/
theorem Slot.join_remembered {V : Type} [BEq V] {last : Option (Option V)} {current before : V}
    (h : (Slot.remembered last current).join = some before) :
    before = current ∨ last.join = some before := by
  match last with
  | none => simp [Slot.remembered] at h
  | some none => exact .inl (by simpa [Slot.remembered, eq_comm] using h)
  | some (some prev) =>
      simp only [Slot.remembered] at h
      split at h
      · exact .inr h
      · exact .inl (Option.some.inj h).symm

theorem Slot.eq_some_of_join {V : Type} {last : Option (Option V)} {before : V}
    (h : last.join = some before) : last = some (some before) := by
  simpa [Option.join_eq_some_iff] using h

/-- What is read first is filed as it is. -/
theorem Slot.filed_of_join_eq_none {V : Type} [BEq V] [PartialOrd V] [Sub V]
    {last : Option (Option V)} {current : V} (h : last.join = none) :
    Slot.filed last current = [current] := by
  match last, h with
  | none, _ => rfl
  | some none, _ => rfl

/-! ## Every cell holds values that were recorded -/

namespace BucketMap

variable {K A : Type} [LinearOrder K] {cfg : Config K A} {property : A → Prop}

/-- What holds of all cells and of a new one holds of all after a bucket was obtained. -/
theorem cells_getOrCreate {m : BucketMap K A} (hcells : ∀ bucket, property (m.cells bucket))
    (hinit : property cfg.initBucket) (attrs : List K) (bucket : BucketRef) :
    property ((m.getOrCreate cfg attrs).1.cells bucket) := by
  have hinsert : ∀ normalized hash aliasKey,
      property ((m.insertCanon cfg normalized hash aliasKey).1.cells bucket) := by
    intro normalized hash aliasKey
    rw [insertCanon]
    split
    · exact hcells bucket
    · by_cases hsame : bucket = m.fresh
      · subst hsame
        simpa using hinit
      · simpa [Function.update_of_ne hsame] using hcells bucket
  rw [getOrCreate]
  split
  · exact hcells bucket
  · rw [insertPrepared]
    split
    · rw [(insertDup_frame cfg _ _ _).2.2.2.1]
      exact hinsert _ _ _
    · exact hinsert _ _ _

omit [LinearOrder K] in
/-- What holds of all cells after one was rewritten. -/
theorem cells_modifyCell {property' : A → Prop} {m : BucketMap K A}
    (hcells : ∀ bucket, property (m.cells bucket)) {f : A → A}
    (hother : ∀ cell, property cell → property' cell)
    (hf : ∀ cell, property cell → property' (f cell)) (found bucket : BucketRef) :
    property' ((m.modifyCell found f).cells bucket) := by
  by_cases hsame : bucket = found
  · subst hsame
    simpa [modifyCell] using hf _ (hcells bucket)
  · simpa [modifyCell, Function.update_of_ne hsame] using hother _ (hcells bucket)

end BucketMap

namespace SyncObserver

variable {K A T V : Type} [LinearOrder K] {cfg : Config K A} {inUse : Set (List K)}
  [Record A T V] [BEq V] [PartialOrd V] [Sub V] [IsInitial V] {m : BucketMap K A}
  {o : SyncObserver K V}

theorem slot_observe_eq (hmode : o.observeMode ≠ .destructive) (ts : SystemTime)
    (attrs : List K) :
    (o.observe cfg ts m).2.slot attrs =
      (m.walkedEntries.foldl (observing ts m.cells).step o).slot attrs := by
  have hvisit := BucketMap.visitBucket_eq_of_keeps cfg (observeEntry_keeps ts) m o
  rw [observe, if_neg hmode]
  simp only [hvisit]
  rfl

/-- What an observation files under the list of an entry. -/
theorem slot_observe_of_mem (hinv : BucketMap.Inv cfg inUse m)
    (hmode : o.observeMode ≠ .destructive) (ts : SystemTime) {e : CanonicalEntry K}
    (he : e ∈ m.walkedEntries) :
    (o.observe cfg ts m).2.slot e.attrs =
      (o.slot e.attrs).observe (Record.current (m.cells e.bucket)) :=
  (slot_observe_eq hmode ts e.attrs).trans
    ((observing ts m.cells).view_foldl_of_mem (BucketMap.nodup_walkedEntries hinv) he o)

theorem slot_observe_of_not_mem (cfg : Config K A) (hmode : o.observeMode ≠ .destructive)
    (ts : SystemTime) {attrs : List K} (hattrs : attrs ∉ m.walkedEntries.map CanonicalEntry.attrs) :
    (o.observe cfg ts m).2.slot attrs = o.slot attrs :=
  (slot_observe_eq hmode ts attrs).trans
    ((observing ts m.cells).view_foldl_of_not_mem hattrs o)

end SyncObserver

/-- The cell holds some of the recorded values, and nothing else. -/
def HoldsOf (boundaries : Boundaries UInt64) (recorded : List UInt64)
    (cell : Bucket UInt64 UInt64) : Prop :=
  ∃ values : List UInt64, values.Sublist recorded ∧
    cell = addAll (Bucket.fromCheckedBoundaries boundaries) values

namespace HoldsOf

variable {boundaries : Boundaries UInt64} {recorded : List UInt64} {cell : Bucket UInt64 UInt64}

theorem init : HoldsOf boundaries recorded (Bucket.fromCheckedBoundaries boundaries) :=
  ⟨[], List.nil_sublist _, rfl⟩

theorem mono (h : HoldsOf boundaries recorded cell) (more : List UInt64) :
    HoldsOf boundaries (recorded ++ more) cell := by
  obtain ⟨values, hvalues, rfl⟩ := h
  exact ⟨values, hvalues.trans (List.sublist_append_left _ _), rfl⟩

theorem add (h : HoldsOf boundaries recorded cell) (value : UInt64) :
    HoldsOf boundaries (recorded ++ [value]) (Record.add cell value) := by
  obtain ⟨values, hvalues, rfl⟩ := h
  exact ⟨values ++ [value], hvalues.append_right _, (BucketMap.addAll_concat _ _ _).symm⟩

theorem clear (h : HoldsOf boundaries recorded cell) :
    HoldsOf boundaries recorded (Record.clear cell) := by
  obtain ⟨values, _, rfl⟩ := h
  rw [clear_addAll]
  exact init

/-- What a snapshot of the cell says, while fewer values were recorded than a word can
count, and less in total. -/
theorem snapshot_spec (h : HoldsOf boundaries recorded cell) (hfew : recorded.length < 2 ^ 64)
    (hsum : (recorded.map UInt64.toNat).sum < 2 ^ 64) :
    cell.snapshot.Consistent ∧
      cell.snapshot.bucketCounts.length = boundaries.values.length + 1 ∧
      cell.snapshot.sum.toNat ≤ (recorded.map UInt64.toNat).sum := by
  obtain ⟨values, hvalues, rfl⟩ := h
  have hcomparable : ∀ value ∈ values, comparable value := fun value _ =>
    IntegerMeasure.comparable value
  have haggregate := isAggregate_foldl_add (C := UInt64) boundaries hcomparable
  have hle : (values.map UInt64.toNat).sum ≤ (recorded.map UInt64.toNat).sum :=
    (hvalues.map UInt64.toNat).sum_le_sum fun _ _ => Nat.zero_le _
  obtain ⟨order, horder, hadded⟩ := haggregate.sum_eq
  have hordered : (order.map UInt64.toNat).sum = (values.map UInt64.toNat).sum :=
    (horder.map UInt64.toNat).sum_eq
  have htotal : (0 : UInt64).toNat + (order.map UInt64.toNat).sum < 2 ^ 64 := by
    rw [hordered]
    simpa using lt_of_le_of_lt hle hsum
  refine ⟨?_, ?_, ?_⟩
  · exact (haggregate.toNat_count (lt_of_le_of_lt hvalues.length_le hfew)).2.symm
  · exact (congrArg List.length haggregate.bucketCounts_eq).trans (by simp)
  · have hnumber := toNat_foldl_add 0 order htotal
    rw [hordered] at hnumber
    refine le_trans (le_of_eq ?_) hle
    exact (congrArg UInt64.toNat hadded).trans (hnumber.trans (Nat.zero_add _))

end HoldsOf

/-! ## A histogram with a delta observer -/

/-- A histogram, its observer, and all values recorded so far. -/
structure Monitored (K : Type) where
  buckets : BucketMap K (Bucket UInt64 UInt64)
  observer : SyncObserver K (Snapshot UInt64)
  recorded : List UInt64

namespace Monitored

variable {K : Type}

inductive Op (K : Type)
  | call (call : Recording K UInt64)
  | observe (ts : SystemTime)

/-- The values that operations record. -/
def valuesOf (ops : List (Op K)) : List UInt64 :=
  ops.flatMap fun op =>
    match op with
    | .call call => Recording.valuesOf [call]
    | .observe _ => []

/-- What the observer remembers for the list of an entry. -/
def remembered (s : Monitored K) (e : CanonicalEntry K) : Option (Snapshot UInt64) :=
  (s.observer.slot e.attrs).last.join

def current (s : Monitored K) (e : CanonicalEntry K) : Snapshot UInt64 :=
  (s.buckets.cells e.bucket).snapshot

/-- Where an observation finds a greater count than it remembers, no bucket count and not
the sum is less than it remembers. -/
def Covered (s : Monitored K) : Op K → Prop
  | .call _ => True
  | .observe _ => ∀ e ∈ s.buckets.walkedEntries, ∀ before ∈ s.remembered e,
      before.count < (s.current e).count → before.Fits (s.current e)

instance (s : Monitored K) : ∀ op : Op K, Decidable (s.Covered op)
  | .call _ => .isTrue trivial
  | .observe _ =>
      inferInstanceAs (Decidable (∀ e ∈ s.buckets.walkedEntries, ∀ before ∈ s.remembered e,
        before.count < (s.current e).count → before.Fits (s.current e)))

variable [LinearOrder K] (cfg : Config K (Bucket UInt64 UInt64))

def new (observer : SyncObserver K (Snapshot UInt64)) : Monitored K where
  buckets := BucketMap.withStorage cfg
  observer := observer
  recorded := []

def step : StepFn (Monitored K) (Op K)
  | s, .call call => some
      { s with
        buckets := (Histogram.exec cfg s.buckets call.op).1
        recorded := s.recorded ++ Recording.valuesOf [call] }
  | s, .observe ts => some
      { s with
        buckets := (s.observer.observe cfg ts s.buckets).1
        observer := (s.observer.observe cfg ts s.buckets).2 }

/-- The snapshots that an observation pushes under a list. -/
def pushed (s : Monitored K) (ts : SystemTime) (attrs : List K) :
    List (Observation (Snapshot UInt64)) :=
  ((s.observer.observe cfg ts s.buckets).2.series attrs).drop (s.observer.series attrs).length

/-- The bucket counts of every snapshot that an observation pushes add up to its count,
its sum is no more than all that was recorded, and no smaller sum is subtracted from. -/
def WellFormed (s : Monitored K) : Op K → Prop
  | .call _ => True
  | .observe ts =>
      (∀ attrs, ∀ p ∈ s.pushed cfg ts attrs, p.value.Consistent ∧
        p.value.sum.toNat ≤ (s.recorded.map UInt64.toNat).sum) ∧
      ∀ e ∈ s.buckets.walkedEntries, ∀ before ∈ s.remembered e,
        before.count < (s.current e).count → before.sum ≤ (s.current e).sum

/-- What holds of a histogram and its observer at any time. -/
structure Faithful (boundaries : Boundaries UInt64) (s : Monitored K) : Prop where
  inv : BucketMap.Inv cfg Set.univ s.buckets
  observeMode : s.observer.observeMode ≠ .destructive
  cells : ∀ bucket, HoldsOf boundaries s.recorded (s.buckets.cells bucket)
  remembered : ∀ e before, s.remembered e = some before →
    ∃ cell, HoldsOf boundaries s.recorded cell ∧ before = cell.snapshot

variable {boundaries : Boundaries UInt64} {hasher : BuildHasher K} {layout : Layout}
  {s s' : Monitored K}

theorem faithful_new {observer : SyncObserver K (Snapshot UInt64)} {id : NameIdentity}
    {now : SystemTime} (hnew : SyncObserver.new id .histogram .delta now = .ok observer) :
    Faithful (Histogram.storage boundaries hasher layout) boundaries
      (new (Histogram.storage boundaries hasher layout) observer) := by
  obtain rfl := Except.ok.inj hnew
  exact ⟨BucketMap.inv_withStorage _ _, by simp [new], fun _ => HoldsOf.init,
    fun e before hbefore => by simp [remembered, new, SyncObserver.slot] at hbefore⟩

theorem Faithful.call
    (h : Faithful (Histogram.storage boundaries hasher layout) boundaries s)
    (call : Recording K UInt64) :
    Faithful (Histogram.storage boundaries hasher layout) boundaries
      { s with
        buckets := (Histogram.exec (Histogram.storage boundaries hasher layout) s.buckets call.op).1
        recorded := s.recorded ++ Recording.valuesOf [call] } where
  inv := by
    refine BucketMap.inv_execHistogram h.inv call.op (fun _ _ => trivial) fun cb => ?_
    cases call <;> simp [Recording.op]
  observeMode := h.observeMode
  remembered e before hbefore := by
    obtain ⟨cell, hcell, rfl⟩ := h.remembered e before hbefore
    exact ⟨cell, hcell.mono _, rfl⟩
  cells bucket := by
    cases call with
    | add value attrs =>
        have hadd : ∀ cell, HoldsOf boundaries s.recorded cell →
            HoldsOf boundaries (s.recorded ++ [value]) (Record.add cell value) :=
          fun cell hcell => hcell.add value
        simp only [Recording.op, Histogram.exec, BucketMap.add]
        split
        · exact BucketMap.cells_modifyCell h.cells (fun _ hcell => hcell.mono _) hadd _ _
        · exact BucketMap.cells_modifyCell (BucketMap.cells_getOrCreate h.cells HoldsOf.init attrs)
            (fun _ hcell => hcell.mono _) hadd _ _
    | take attrs =>
        refine HoldsOf.mono ?_ _
        simp only [Recording.op, Histogram.exec, Histogram.take]
        split
        · exact BucketMap.cells_modifyCell h.cells (fun _ hcell => hcell)
            (fun _ hcell => hcell.clear) _ _
        · exact h.cells bucket
    | clear =>
        refine HoldsOf.mono ?_ _
        exact BucketMap.cells_modifyCell h.cells (fun _ hcell => hcell)
          (fun _ hcell => hcell.clear) _ _

theorem Faithful.observe
    (h : Faithful (Histogram.storage boundaries hasher layout) boundaries s) (ts : SystemTime) :
    Faithful (Histogram.storage boundaries hasher layout) boundaries
      { s with
        buckets := (s.observer.observe (Histogram.storage boundaries hasher layout) ts s.buckets).1
        observer :=
          (s.observer.observe (Histogram.storage boundaries hasher layout) ts s.buckets).2 } := by
  obtain ⟨hkept, hwatched⟩ := SyncObserver.observe_of_keeps _ h.inv ts h.observeMode
  refine ⟨hkept.symm ▸ h.inv, fun hmode => h.observeMode (hwatched.observeMode.symm.trans hmode),
    fun bucket => hkept.symm ▸ h.cells bucket, fun e before hbefore => ?_⟩
  by_cases hmem : e.attrs ∈ s.buckets.walkedEntries.map CanonicalEntry.attrs
  · obtain ⟨walked, hwalked, hattrs⟩ := List.mem_map.mp hmem
    have hslot := SyncObserver.slot_observe_of_mem h.inv h.observeMode ts hwalked
    rw [hattrs] at hslot
    simp only [Monitored.remembered, hslot, Slot.observe] at hbefore
    rcases Slot.join_remembered hbefore with hnew | hold
    · exact ⟨_, h.cells walked.bucket, hnew⟩
    · exact h.remembered e before hold
  · have hslot := SyncObserver.slot_observe_of_not_mem
      (Histogram.storage boundaries hasher layout) h.observeMode ts hmem
    simp only [Monitored.remembered, hslot] at hbefore
    exact h.remembered e before hbefore

/-- What an observation pushes under the list of an entry. -/
theorem Faithful.map_pushed_of_mem
    (h : Faithful (Histogram.storage boundaries hasher layout) boundaries s) (ts : SystemTime)
    {e : CanonicalEntry K} (he : e ∈ s.buckets.walkedEntries) :
    (s.pushed (Histogram.storage boundaries hasher layout) ts e.attrs).map Observation.value =
      Slot.filed (s.observer.slot e.attrs).last (s.current e) := by
  have hvalues := congrArg Slot.values
    (SyncObserver.slot_observe_of_mem h.inv h.observeMode ts he)
  have hlength : (s.observer.series e.attrs).length =
      (s.observer.slot e.attrs).values.length := (List.length_map _).symm
  rw [pushed, List.map_drop, hlength]
  exact (congrArg (List.drop _) hvalues).trans List.drop_left

theorem Faithful.pushed_of_not_mem
    (h : Faithful (Histogram.storage boundaries hasher layout) boundaries s) (ts : SystemTime)
    {attrs : List K} (hattrs : attrs ∉ s.buckets.walkedEntries.map CanonicalEntry.attrs) :
    s.pushed (Histogram.storage boundaries hasher layout) ts attrs = [] := by
  have hvalues := congrArg Slot.values
    (SyncObserver.slot_observe_of_not_mem (Histogram.storage boundaries hasher layout)
      h.observeMode ts hattrs)
  refine List.drop_eq_nil_of_le (le_of_eq ?_)
  simpa [SyncObserver.slot] using congrArg List.length hvalues

/-- What one observation pushes is well-formed exactly if what it remembers is covered. -/
theorem Faithful.wellFormed_iff
    (h : Faithful (Histogram.storage boundaries hasher layout) boundaries s)
    (hfew : s.recorded.length < 2 ^ 64) (hsum : (s.recorded.map UInt64.toNat).sum < 2 ^ 64)
    (op : Op K) :
    s.WellFormed (Histogram.storage boundaries hasher layout) op ↔ s.Covered op := by
  cases op with
  | call call => exact Iff.rfl
  | observe ts =>
      have hentry : ∀ e ∈ s.buckets.walkedEntries,
          ((∀ p ∈ s.pushed (Histogram.storage boundaries hasher layout) ts e.attrs,
              p.value.Consistent ∧ p.value.sum.toNat ≤ (s.recorded.map UInt64.toNat).sum) ∧
            ∀ before ∈ s.remembered e, before.count < (s.current e).count →
              before.sum ≤ (s.current e).sum) ↔
          ∀ before ∈ s.remembered e, before.count < (s.current e).count →
            before.Fits (s.current e) := by
        intro e he
        obtain ⟨hnow, hlength, htotal⟩ := (h.cells e.bucket).snapshot_spec hfew hsum
        have hpushed := h.map_pushed_of_mem ts he
        have hall := List.forall_mem_map (f := Observation.value)
          (l := s.pushed (Histogram.storage boundaries hasher layout) ts e.attrs)
          (P := fun filed : Snapshot UInt64 => filed.Consistent ∧
            filed.sum.toNat ≤ (s.recorded.map UInt64.toNat).sum)
        rw [← hall, hpushed]
        cases hlast : s.remembered e with
        | none =>
            rw [Slot.filed_of_join_eq_none hlast, List.forall_mem_singleton]
            simpa using ⟨hnow, htotal⟩
        | some before =>
            obtain ⟨cell, hcell, rfl⟩ := h.remembered e before hlast
            obtain ⟨hbefore, hlength', _⟩ := hcell.snapshot_spec hfew hsum
            rw [Slot.eq_some_of_join hlast]
            simp only [Option.mem_some_iff, forall_eq']
            exact Snapshot.filed_iff hbefore hnow (hlength'.trans hlength.symm) htotal
      constructor
      · rintro ⟨hpushed, hsums⟩ e he
        exact (hentry e he).mp ⟨hpushed e.attrs, hsums e he⟩
      · intro hcovered
        refine ⟨fun attrs => ?_, fun e he => ((hentry e he).mpr (hcovered e he)).2⟩
        by_cases hmem : attrs ∈ s.buckets.walkedEntries.map CanonicalEntry.attrs
        · obtain ⟨e, he, rfl⟩ := List.mem_map.mp hmem
          exact ((hentry e he).mpr (hcovered e he)).1
        · simp [h.pushed_of_not_mem ts hmem]

theorem Faithful.step
    (h : Faithful (Histogram.storage boundaries hasher layout) boundaries s) {op : Op K}
    (hstep : Monitored.step (Histogram.storage boundaries hasher layout) s op = some s') :
    Faithful (Histogram.storage boundaries hasher layout) boundaries s' ∧
      s'.recorded = s.recorded ++ valuesOf [op] := by
  cases op with
  | call call =>
      obtain rfl := Option.some.inj hstep
      exact ⟨h.call call, by simp [valuesOf]⟩
  | observe ts =>
      obtain rfl := Option.some.inj hstep
      exact ⟨h.observe ts, by simp [valuesOf]⟩

theorem Faithful.along_wellFormed_iff
    (h : Faithful (Histogram.storage boundaries hasher layout) boundaries s) {ops : List (Op K)}
    (hfew : (s.recorded ++ valuesOf ops).length < 2 ^ 64)
    (hsum : ((s.recorded ++ valuesOf ops).map UInt64.toNat).sum < 2 ^ 64) :
    (Monitored.step (Histogram.storage boundaries hasher layout)).Along
        (WellFormed (Histogram.storage boundaries hasher layout)) s ops ↔
      (Monitored.step (Histogram.storage boundaries hasher layout)).Along Covered s ops := by
  induction ops generalizing s with
  | nil => exact Iff.rfl
  | cons op rest ih =>
      have hvalues : valuesOf (op :: rest) = valuesOf [op] ++ valuesOf rest := by
        simp [valuesOf]
      rw [hvalues, ← List.append_assoc] at hfew hsum
      have hhere := h.wellFormed_iff (by simp only [List.length_append] at hfew; omega)
        (by simp only [List.map_append, List.sum_append] at hsum; omega) op
      rw [StepFn.along_cons, StepFn.along_cons, hhere]
      refine and_congr_right fun _ => forall₂_congr fun next hstep => ?_
      obtain ⟨hnext, hrecorded⟩ := h.step hstep
      exact ih hnext (hrecorded ▸ hfew) (hrecorded ▸ hsum)

/-- In every run in which fewer than `2 ^ 64` values are recorded, and less than that in
total, every observation pushes well-formed snapshots if and only if every observation
covers what the observer remembers. -/
theorem deltas_wellFormed_iff {observer : SyncObserver K (Snapshot UInt64)} {id : NameIdentity}
    {now : SystemTime} (hnew : SyncObserver.new id .histogram .delta now = .ok observer)
    (ops : List (Op K)) (hfew : (valuesOf ops).length < 2 ^ 64)
    (hsum : ((valuesOf ops).map UInt64.toNat).sum < 2 ^ 64) :
    (Monitored.step (Histogram.storage boundaries hasher layout)).Along
        (WellFormed (Histogram.storage boundaries hasher layout))
        (new (Histogram.storage boundaries hasher layout) observer) ops ↔
      (Monitored.step (Histogram.storage boundaries hasher layout)).Along Covered
        (new (Histogram.storage boundaries hasher layout) observer) ops :=
  (faithful_new hnew).along_wellFormed_iff hfew hsum

end Monitored

/-! ## A histogram that was cleared and filled again -/

def latency : Config Nat (Bucket UInt64 UInt64) :=
  Histogram.storage ⟨[10], by simp, by simp⟩ ⟨fun _ => 0, AttrFingerprint.sum⟩ .stack

def latencyObserver : SyncObserver Nat (Snapshot UInt64) where
  startTime := 0
  seq := 0
  id := ⟨"latency", "", ""⟩
  series _ := []
  lastValues := some fun _ => none
  observeMode := .delta
  kind := .histogram

/-- One great value is observed, then cleared, and two small ones are recorded. -/
def refilled : List (Monitored.Op Nat) :=
  [.call (.add 100 []), .observe 1, .call .clear, .call (.add 1 []), .call (.add 1 []), .observe 2]

/-- The same without the call to `clear`. -/
def filledUp : List (Monitored.Op Nat) :=
  [.call (.add 100 []), .observe 1, .call (.add 1 []), .call (.add 1 []), .observe 2]

theorem deltas_wellFormed_iff_refilled :
    ((Monitored.step latency).Along (Monitored.WellFormed latency)
        (Monitored.new latency latencyObserver) refilled ↔
      (Monitored.step latency).Along Monitored.Covered
        (Monitored.new latency latencyObserver) refilled) ∧
    (Monitored.step latency).Along (Monitored.WellFormed latency)
      (Monitored.new latency latencyObserver) filledUp :=
  ⟨Monitored.deltas_wellFormed_iff rfl refilled (by decide) (by decide),
    (Monitored.deltas_wellFormed_iff rfl filledUp (by decide) (by decide)).mpr (by decide)⟩

/-- The second observation subtracts a sum of 100 from one of 2, and counts two values in
its buckets where it counts one. -/
theorem not_wellFormed_refilled :
    ¬ (Monitored.step latency).Along (Monitored.WellFormed latency)
        (Monitored.new latency latencyObserver) refilled := by
  intro halong
  obtain ⟨_, hafter⟩ := halong
  obtain ⟨_, hafter⟩ := hafter _ rfl
  obtain ⟨_, hafter⟩ := hafter _ rfl
  obtain ⟨_, hafter⟩ := hafter _ rfl
  obtain ⟨_, hafter⟩ := hafter _ rfl
  obtain ⟨⟨_, hsums⟩, _⟩ := hafter _ rfl
  have hle := hsums _ (List.mem_singleton_self _) _ rfl (by decide +kernel)
  exact absurd hle (by decide +kernel)

end Ohnotel
