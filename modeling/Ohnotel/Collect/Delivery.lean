/-
# Delivery

An export hands over all that an observer holds, so what was pushed is what was handed
over, export by export, and what is still held.  If every conversion finds what is there
and the channel takes every batch, what is handed over is in the batch of that export and
in no other.

The last export is the one that a shutdown makes, if one is due then.
-/

import Ohnotel.Collect.Timestamps

namespace Ohnotel.Periodic

open Foundation Atomic

variable {platform : Platform} {K V W : Type}

/-- The conversion succeeds, and finds nothing to emit only in an empty series. -/
def Registered.Converts (align : Option Duration) (r : Registered K W) : Prop :=
  ∃ found, r.wire align = some (.ok found) ∧
    (found = none → ∀ attrs, r.tracked.observer.series attrs = [])

/-- The payloads of what an observer handed over for the batch of a number. -/
def Registered.payloads (align : Option Duration) (n : Nat) (r : Registered K W) :
    List (Option W) :=
  (r.tracked.delivered.filter fun handed => handed.1 = n).map fun handed =>
    Worker.emitted (r.dyn.intoWire handed.2 align)

namespace Tracked

/-- What was handed over and what is held is all that was pushed. -/
structure Accounted (batches : Nat) (t : Tracked K V) : Prop where
  pushed : ∀ attrs, t.pushed attrs =
    (t.delivered.flatMap fun handed => handed.2.series attrs) ++ t.observer.series attrs
  increasing : t.delivered.Pairwise fun first second => first.1 < second.1
  numbered : ∀ handed ∈ t.delivered, handed.1 < batches

variable {t : Tracked K V} {batches : Nat}

theorem accounted_join (observer : SyncObserver K V) (startTime : SystemTime) (tick : Instant) :
    (join observer startTime tick).Accounted batches where
  pushed _ := rfl
  increasing := List.Pairwise.nil
  numbered := by simp [join]

theorem Accounted.observe {A T : Type} [LinearOrder K] [Record A T V] [BEq V] [PartialOrd V]
    [Sub V] [IsInitial V] (h : t.Accounted batches) (cfg : Ohnotel.Config K A) (ts : SystemTime)
    (service : Service) (shown : BucketMap.Walkable K A) :
    (t.observe cfg ts service shown).Accounted batches where
  pushed attrs := by
    have hobserved := SyncObserver.observed_observe ts cfg shown t.observer
    have hsplit : (t.observer.observe cfg ts shown.buckets).2.series attrs =
        t.observer.series attrs ++ ((t.observer.observe cfg ts shown.buckets).2.series attrs).drop
          (t.observer.series attrs).length := by
      rcases hobserved.series attrs with hsame | ⟨value, hadded⟩
      · rw [hsame, List.drop_length, List.append_nil]
      · rw [hadded, List.drop_left]
    simp only [Tracked.observe]
    rw [h.pushed attrs, List.append_assoc, ← hsplit]
  increasing := h.increasing
  numbered := h.numbered

/-- An export into no batch, of a series that holds nothing. -/
theorem Accounted.exportInto_none (h : t.Accounted batches) {batches' : Nat}
    (hle : batches ≤ batches') (hempty : ∀ attrs, t.observer.series attrs = []) :
    (t.exportInto none).Accounted batches' where
  pushed attrs := by
    simp only [exportInto, Option.map_none, Option.toList_none, List.append_nil]
    rw [h.pushed attrs, hempty attrs]
    rfl
  increasing := by simpa [exportInto] using h.increasing
  numbered handed hhanded := by
    simp only [exportInto, Option.map_none, Option.toList_none, List.append_nil] at hhanded
    exact (h.numbered handed hhanded).trans_le hle

/-- An export into the next batch. -/
theorem Accounted.exportInto_some (h : t.Accounted batches) :
    (t.exportInto (some batches)).Accounted (batches + 1) where
  pushed attrs := by
    simp only [exportInto, Option.map_some, Option.toList_some, List.flatMap_append,
      List.flatMap_singleton]
    rw [h.pushed attrs]
    exact (List.append_nil _).symm
  increasing := by
    refine List.pairwise_append.mpr ⟨h.increasing, List.pairwise_singleton _ _, ?_⟩
    intro first hfirst second hsecond
    obtain rfl := List.mem_singleton.mp hsecond
    exact h.numbered first hfirst
  numbered handed hhanded := by
    rcases List.mem_append.mp hhanded with hhanded | hhanded
    · exact (h.numbered handed hhanded).trans (Nat.lt_succ_self _)
    · obtain rfl := List.mem_singleton.mp hhanded
      exact Nat.lt_succ_self _

end Tracked

/-! ## What the batches hold -/

namespace Registered

variable {align : Option Duration} {n : Nat} {r : Registered K W}

theorem payloads_exportInto (batch : Option Nat) :
    ({ r with tracked := r.tracked.exportInto batch } : Registered K W).payloads align n =
      r.payloads align n ++
        if batch = some n then [Worker.emitted (r.wire align)] else [] := by
  cases batch with
  | none => simp [payloads, Tracked.exportInto]
  | some batch =>
      by_cases hbatch : batch = n
      · simp [payloads, Tracked.exportInto, wire, List.filter_append, hbatch]
      · simp [payloads, Tracked.exportInto, List.filter_append, hbatch]

/-- Nothing was given to a batch that is not there yet. -/
theorem payloads_eq_nil (h : r.tracked.Accounted n) : r.payloads align n = [] := by
  have hnone : (r.tracked.delivered.filter fun handed => handed.1 = n) = [] := by
    rw [List.filter_eq_nil_iff]
    intro handed hhanded
    simpa using (h.numbered handed hhanded).ne
  rw [payloads, hnone, List.map_nil]

end Registered

namespace Worker

variable [LinearOrder K]

/-- Every batch is what the observers gave to it, in their order, and everything that was
pushed is accounted for. -/
structure Accounted (w : Worker K W) : Prop where
  observers : ∀ r ∈ w.observers, r.tracked.Accounted w.batches.length
  batches : ∀ n batch, w.batches[n]? = some batch →
    batch.map some = w.observers.flatMap fun r => r.payloads w.align n

/-- If an export is due at a reading, then every conversion finds what is there and the
channel takes the batch. -/
def Exports (now : Instant) (answer : TrySend) (w : Worker K W) : Prop :=
  w.exportTimer.due now → answer = .sent ∧ ∀ r ∈ w.observers, r.Converts w.align

/-- The export that a step makes, if it makes one, succeeds. -/
def Delivers (platform : Platform) (w : Worker K W) : Event K W → Prop
  | .wake now afterObserve _ shown answer =>
      ∀ observed, w.maybeObserve platform now afterObserve shown = some observed →
        observed.Exports now answer
  | .add _ => True
  | .shutdown now _ answer => w.Exports now answer

variable {w w' : Worker K W}

omit [LinearOrder K] in
theorem accounted_new (config : Config) (start : CollectorTime) :
    (new config start : Worker K W).Accounted where
  observers := by simp [new]
  batches := by simp [new]

theorem Accounted.maybeObserve (h : w.Accounted) {now after : Instant}
    {shown : Nat → (dyn : DynObserver K W) → BucketMap.Walkable K dyn.Cell}
    (hobserve : w.maybeObserve platform now after shown = some w') : w'.Accounted := by
  rw [Worker.maybeObserve] at hobserve
  split at hobserve
  · obtain ⟨time, _, rfl⟩ := Option.map_eq_some_iff.mp hobserve
    constructor
    · intro r hr
      obtain ⟨n, hn, rfl⟩ := List.mem_mapIdx.mp hr
      exact (h.observers _ (List.getElem_mem hn)).observe _ _ _ _
    · intro n batch hbatch
      rw [h.batches n batch hbatch, List.flatMap, List.flatMap]
      refine congrArg List.flatten (List.ext_getElem? fun i => ?_)
      rw [List.getElem?_map, List.getElem?_map, List.getElem?_mapIdx, Option.map_map]
      rfl
  · obtain rfl := Option.some.inj hobserve
    exact h

omit [LinearOrder K] in
theorem Accounted.handleAdd (h : w.Accounted) {boxed : BoxedDynObserver K W}
    (hadd : w.handleAdd platform boxed = some w') : w'.Accounted := by
  obtain ⟨time, _, rfl⟩ := Option.map_eq_some_iff.mp hadd
  constructor
  · intro r hr
    rcases List.mem_append.mp hr with hr | hr
    · exact h.observers r hr
    · obtain rfl := List.mem_singleton.mp hr
      exact Tracked.accounted_join _ _ _
  · intro n batch hbatch
    rw [h.batches n batch hbatch]
    exact (List.flatMap_append.trans (List.append_nil _)).symm

omit [LinearOrder K] in
/-- What an export gives to the batches. -/
theorem payloads_batchOf (w : Worker K W) (n : Nat) (r : Registered K W) :
    ({ r with tracked := r.tracked.exportInto (w.batchOf .sent r) } : Registered K W).payloads
        w.align n =
      r.payloads w.align n ++
        if n = w.batches.length then (emitted (r.wire w.align)).toList.map some else [] := by
  rw [Registered.payloads_exportInto, batchOf]
  cases emitted (r.wire w.align) with
  | none => simp
  | some payload => simp [eq_comm]

omit [LinearOrder K] in
/-- An export that the channel takes adds its own batch to those before, or none. -/
theorem eq_batch_of_getElem? {n : Nat} {batch : List W}
    (hbatch : (if w.batch ≠ [] ∧ TrySend.sent = .sent then w.batches ++ [w.batch]
      else w.batches)[n]? = some batch) :
    n = w.batches.length ∧ batch = w.batch ∨
      n ≠ w.batches.length ∧ w.batches[n]? = some batch := by
  split at hbatch
  · rw [List.getElem?_append] at hbatch
    split at hbatch
    · rename_i hlt
      exact .inr ⟨hlt.ne, hbatch⟩
    · rw [List.getElem?_singleton] at hbatch
      split at hbatch
      · obtain rfl := Option.some.inj hbatch
        exact .inl ⟨by omega, rfl⟩
      · cases hbatch
  · exact .inr ⟨(List.getElem?_eq_some_iff.mp hbatch).1.ne, hbatch⟩

omit [LinearOrder K] in
/-- An observer whose conversion finds what is there gives all it holds to the batch. -/
theorem accounted_exportInto_batchOf {r : Registered K W} (hr : r ∈ w.observers)
    (h : r.tracked.Accounted w.batches.length) (hconverts : r.Converts w.align) :
    (r.tracked.exportInto (w.batchOf .sent r)).Accounted
      (if w.batch ≠ [] ∧ TrySend.sent = .sent then w.batches ++ [w.batch]
        else w.batches).length := by
  obtain ⟨found, hfound, hempty⟩ := hconverts
  cases found with
  | none =>
      have hnone : w.batchOf .sent r = none := by simp [batchOf, hfound, emitted]
      rw [hnone]
      exact h.exportInto_none (by split <;> simp) (hempty rfl)
  | some payload =>
      have hsome : w.batchOf .sent r = some w.batches.length := by
        simp [batchOf, hfound, emitted]
      have hemitted : w.batch ≠ [] := List.ne_nil_of_mem (a := payload)
        (List.mem_filterMap.mpr ⟨r, hr, by rw [hfound]; rfl⟩)
      rw [hsome, if_pos ⟨hemitted, rfl⟩, List.length_append]
      exact h.exportInto_some

omit [LinearOrder K] in
theorem Accounted.maybeExport (h : w.Accounted) {now after : Instant} {answer : TrySend}
    (hexports : w.Exports now answer)
    (hexport : w.maybeExport platform now after answer = some w') : w'.Accounted := by
  rcases maybeExport_cases hexport with ⟨_, rfl⟩ | ⟨hdue, rfl⟩
  · exact h
  · obtain ⟨rfl, hconverts⟩ := hexports hdue
    constructor
    · intro r hr
      obtain ⟨before, hbefore, rfl⟩ := List.mem_map.mp hr
      exact accounted_exportInto_batchOf hbefore (h.observers before hbefore)
        (hconverts before hbefore)
    · intro n batch hbatch
      have hgiven : (w.observers.map fun r => ({ r with
            tracked := r.tracked.exportInto (w.batchOf .sent r) } : Registered K W)).flatMap
              (fun r => r.payloads w.align n) =
            w.observers.flatMap fun r => r.payloads w.align n ++
              if n = w.batches.length then (emitted (r.wire w.align)).toList.map some else [] := by
        rw [List.flatMap_map]
        exact List.flatMap_congr fun r _ => w.payloads_batchOf n r
      refine Eq.trans ?_ hgiven.symm
      rcases eq_batch_of_getElem? hbatch with ⟨hn, rfl⟩ | ⟨hn, hbefore⟩
      · -- The batch of this export.
        rw [Worker.batch, List.filterMap_eq_flatMap_toList, List.map_flatMap]
        refine List.flatMap_congr fun r hr => ?_
        rw [if_pos hn, Registered.payloads_eq_nil (hn ▸ h.observers r hr), List.nil_append]
      · rw [h.batches n batch hbefore]
        refine List.flatMap_congr fun r _ => ?_
        rw [if_neg hn, List.append_nil]

theorem Accounted.step (h : w.Accounted) {event : Event K W} (hdelivers : w.Delivers platform event)
    (hstep : Worker.step platform w event = some w') : w'.Accounted := by
  cases moves_of_step hstep with
  | @wake _ _ _ _ _ observed _ hphase hclock hobserving hexporting hobserve hexport =>
      have hexported := (h.maybeObserve hobserve).maybeExport (hdelivers observed hobserve) hexport
      exact { hexported with }
  | add hphase hadd => exact h.handleAdd hadd
  | shutdown hphase hclock hexporting hexport =>
      exact { h.maybeExport hdelivers hexport with }

theorem accounted_run {config : Config} {start : CollectorTime} {events : List (Event K W)}
    (hdelivers : (Worker.step platform).Along (Delivers platform) (new config start) events)
    (hrun : (Worker.step platform).run (new config start) events = some w) : w.Accounted :=
  StepFn.invariant_of_step_along Accounted
    (fun _ _ _ _ haccounted hcondition hstep => haccounted.step hcondition hstep)
    (accounted_new config start) hdelivers hrun

/-- What an observer holds after the export that a shutdown makes. -/
theorem series_shutdown {now afterExport : Instant} {answer : TrySend}
    (hstep : Worker.step platform w (.shutdown now afterExport answer) = some w') :
    (∀ r ∈ w'.observers, ∀ attrs, r.tracked.observer.series attrs = []) ↔
      w.exportTimer.due now ∨ ∀ r ∈ w.observers, ∀ attrs, r.tracked.observer.series attrs = [] := by
  cases moves_of_step hstep with
  | shutdown hphase hclock hexporting hexport =>
      rcases maybeExport_cases hexport with ⟨hdue, rfl⟩ | ⟨hdue, rfl⟩
      · simp [hdue]
      · refine ⟨fun _ => .inl hdue, fun _ r hr attrs => ?_⟩
        obtain ⟨before, _, rfl⟩ := List.mem_map.mp hr
        rfl

/-- Everything that was pushed was handed over, each time for another batch, and every
batch is the payloads of what was handed over for it. -/
structure DeliveredOnce (w : Worker K W) : Prop where
  pushed : ∀ r ∈ w.observers, ∀ attrs, r.tracked.pushed attrs =
    r.tracked.delivered.flatMap fun handed => handed.2.series attrs
  apart : ∀ r ∈ w.observers, r.tracked.delivered.Pairwise fun first second =>
    first.1 < second.1
  numbered : ∀ r ∈ w.observers, ∀ handed ∈ r.tracked.delivered, handed.1 < w.batches.length
  batches : ∀ n batch, w.batches[n]? = some batch →
    batch.map some = w.observers.flatMap fun r => r.payloads w.align n

omit [LinearOrder K] in
theorem Accounted.deliveredOnce_iff (h : w.Accounted) :
    w.DeliveredOnce ↔ ∀ r ∈ w.observers, ∀ attrs, r.tracked.observer.series attrs = [] := by
  constructor
  · intro honce r hr attrs
    have hpushed := (h.observers r hr).pushed attrs
    rw [honce.pushed r hr attrs] at hpushed
    simpa using hpushed
  · intro hempty
    refine ⟨?_, fun r hr => (h.observers r hr).increasing,
      fun r hr => (h.observers r hr).numbered, h.batches⟩
    intro r hr attrs
    rw [(h.observers r hr).pushed attrs, hempty r hr attrs, List.append_nil]

/-- In every run whose exports succeed and that ends with a shutdown, everything that was
pushed is delivered exactly once if and only if the shutdown finds an export due, or
nothing held. -/
theorem deliveredOnce_iff_due {config : Config} {start : CollectorTime}
    {events : List (Event K W)} {now afterExport : Instant} {answer : TrySend}
    (hdelivers : (Worker.step platform).Along (Delivers platform) (new config start)
      (events ++ [.shutdown now afterExport answer]))
    (hrun : (Worker.step platform).run (new config start) events = some w)
    (hstop : Worker.step platform w (.shutdown now afterExport answer) = some w') :
    w'.DeliveredOnce ↔
      w.exportTimer.due now ∨ ∀ r ∈ w.observers, ∀ attrs, r.tracked.observer.series attrs = [] := by
  have hrun' := ((Worker.step platform).run_concat_eq_some).mpr ⟨w, hrun, hstop⟩
  exact (accounted_run hdelivers hrun').deliveredOnce_iff.trans (series_shutdown hstop)

end Worker

/-! ## A worker stopped between two exports -/

/-- An observer of a counter that exports the snapshots without attributes. -/
def forwarded : DynObserver Nat (List (Observation UInt64)) where
  Cell := UInt64
  Measure := UInt64
  Value := UInt64
  cfg := plain.cfg
  intoWire series _ :=
    some (.ok (if (series.series []).isEmpty then none else some (series.series [])))

def forwardedObserver : BoxedDynObserver Nat (List (Observation UInt64)) where
  dyn := forwarded
  observer := plainObserver.observer

def forwardAt (now : Instant) : Event Nat (List (Observation UInt64)) :=
  .wake now now now (fun _ dyn => touched dyn.cfg) .sent

/-- The observer joins at 10 and is observed there; the exports are at 0 and 100. -/
def observedAtTen : List (Event Nat (List (Observation UInt64))) :=
  [forwardAt 0, .add forwardedObserver, forwardAt 10]

theorem delivers_stopped (now : Instant) :
    (Worker.step roomy).Along (Worker.Delivers roomy) (Worker.new everyTen ⟨0, 0⟩)
      (observedAtTen ++ [.shutdown now now .sent]) := by
  refine (StepFn.along_cons_of_eq_some rfl).mpr ⟨?_, ?_⟩
  · intro observed hobserved _
    obtain rfl := Option.some.inj hobserved
    exact ⟨rfl, by simp [Worker.new]⟩
  refine (StepFn.along_cons_of_eq_some rfl).mpr ⟨trivial, ?_⟩
  refine (StepFn.along_cons_of_eq_some rfl).mpr ⟨?_, ?_⟩
  · intro observed hobserved hdue
    obtain rfl := Option.some.inj hobserved
    exact absurd hdue (by decide)
  · refine StepFn.along_cons.mpr ⟨fun _ => ⟨rfl, ?_⟩, fun _ _ => trivial⟩
    intro r hr
    obtain rfl := List.mem_singleton.mp hr
    exact ⟨some _, rfl, by simp⟩

/-- A shutdown at 100 finds an export due. -/
theorem deliveredOnce_iff_due_at_hundred :
    ∃ w w', (Worker.step roomy).run (Worker.new everyTen ⟨0, 0⟩) observedAtTen = some w ∧
      Worker.step roomy w (.shutdown 100 100 .sent) = some w' ∧
      (w'.DeliveredOnce ↔ w.exportTimer.due 100 ∨
        ∀ r ∈ w.observers, ∀ attrs, r.tracked.observer.series attrs = []) ∧
      w.exportTimer.due 100 ∧ w'.batches = [[[⟨10, 0, 0⟩]]] :=
  ⟨_, _, rfl, rfl, Worker.deliveredOnce_iff_due (delivers_stopped 100) rfl rfl, rfl, rfl⟩

/-- The snapshot of the observation at 10 is in no batch if the shutdown comes at 20. -/
theorem not_deliveredOnce_at_twenty :
    ∃ w, (Worker.step roomy).run (Worker.new everyTen ⟨0, 0⟩)
        (observedAtTen ++ [.shutdown 20 20 .sent]) = some w ∧
      (Worker.step roomy).Along (Worker.Delivers roomy) (Worker.new everyTen ⟨0, 0⟩)
        (observedAtTen ++ [.shutdown 20 20 .sent]) ∧
      ¬ w.DeliveredOnce := by
  refine ⟨_, rfl, delivers_stopped 20, fun honce => ?_⟩
  have hpushed := honce.pushed _ (List.mem_singleton_self _) []
  exact absurd hpushed (List.cons_ne_nil _ _)

end Ohnotel.Periodic
