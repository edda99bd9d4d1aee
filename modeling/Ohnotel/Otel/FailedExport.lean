/-
# Exports that fail

An export takes everything that is pending out of the observer and then converts it, one
snapshot after the other.  The first that cannot be represented ends the export, and what
was taken is gone: neither the observer nor the metric has it.  So a failed export keeps
what could be represented only if there was nothing of the kind.
-/

import Ohnotel.Otel.Intervals

namespace Ohnotel.Otel

open Foundation Atomic

variable {F A T V P : Type}

/-- The snapshots of a series, in the order in which its entries are visited. -/
def entries (order : List (List (KeyValue F))) (series : SeriesMap (KeyValue F) V) :
    List (List (KeyValue F) × Observation V) :=
  order.flatMap fun attrs => (series attrs).map fun snapshot => (attrs, snapshot)

section Conversion

variable (platform : Platform) (into : V → Except Error P) (startTime : SystemTime)
  (align : Option Duration)

/-- The time and the value of a snapshot have a place in the protocol. -/
structure Convertible (entry : List (KeyValue F) × Observation V) : Prop where
  time : ∃ time, entry.2.alignTs platform startTime align = some time ∧ Mappable time
  value : ∃ value, into entry.2.value = .ok value

/-- The data point of a snapshot. -/
structure DataPoint.Shows (entry : List (KeyValue F) × Observation V) (point : DataPoint F P) :
    Prop where
  attributes : point.attributes = mapAttrs entry.1
  start : (point.startTimeUnixNano.toNat : SystemTime) = startTime
  time : entry.2.alignTs platform startTime align = some ↑point.timeUnixNano.toNat
  value : into entry.2.value = .ok point.value

/-- The first snapshot that cannot be converted, and how the time of it is no panic. -/
def Stops (snapshots : List (List (KeyValue F) × Observation V)) : Prop :=
  ∃ earlier entry later, snapshots = earlier ++ entry :: later ∧
    (∀ other ∈ earlier, Convertible platform into startTime align other) ∧
    ¬ Convertible platform into startTime align entry ∧
    (entry.2.alignTs platform startTime align).isSome

variable {platform into startTime align}

variable (platform into startTime align) in
/-- What the loop does with its first snapshot, if it does not panic there. -/
inductive First (startNanos : UInt64) (entry : List (KeyValue F) × Observation V)
    (rest : List (List (KeyValue F) × Observation V)) : Prop
  | stops (err : Error) (hnot : ¬ Convertible platform into startTime align entry)
      (hconvert : convert platform into startTime startNanos align (entry :: rest) =
        some (.error err))
  | goesOn (point : DataPoint F P) (h : Convertible platform into startTime align entry)
      (hshows : (startNanos.toNat : SystemTime) = startTime →
        point.Shows platform into startTime align entry)
      (hconvert : convert platform into startTime startNanos align (entry :: rest) =
        (convert platform into startTime startNanos align rest).map fun later =>
          later.map (point :: ·))

theorem first_of_alignTs (startNanos : UInt64) {entry : List (KeyValue F) × Observation V}
    (rest : List (List (KeyValue F) × Observation V))
    (halign : (entry.2.alignTs platform startTime align).isSome) :
    First platform into startTime align startNanos entry rest := by
  obtain ⟨attrs, snapshot⟩ := entry
  obtain ⟨time, htime⟩ := Option.isSome_iff_exists.mp halign
  by_cases hmappable : Mappable time
  · obtain ⟨nanos, hnanos⟩ := mapTime_of_mappable hmappable
    cases hvalue : into snapshot.value with
    | error err =>
        refine .stops err (fun hconvertible => ?_) ?_
        · obtain ⟨value, hok⟩ := hconvertible.value
          simp [hvalue] at hok
        · simp only [convert, htime, hnanos, hvalue]
    | ok value =>
        refine .goesOn ⟨mapAttrs attrs, startNanos, nanos, value⟩
          ⟨⟨time, htime, hmappable⟩, value, hvalue⟩ (fun hstart => ?_) ?_
        · exact ⟨rfl, hstart, by rw [mapTime_eq_ok hnanos]; exact htime, hvalue⟩
        · simp only [convert, htime, hnanos, hvalue]
  · obtain ⟨err, herr⟩ := mapTime_of_not_mappable hmappable
    refine .stops err (fun hconvertible => ?_) ?_
    · obtain ⟨time', htime', hmappable'⟩ := hconvertible.time
      obtain rfl := Option.some.inj (htime.symm.trans htime')
      exact hmappable hmappable'
    · simp only [convert, htime, herr]

theorem stops_cons {entry : List (KeyValue F) × Observation V}
    {rest : List (List (KeyValue F) × Observation V)} :
    Stops platform into startTime align (entry :: rest) ↔
      (¬ Convertible platform into startTime align entry ∧
        (entry.2.alignTs platform startTime align).isSome) ∨
      (Convertible platform into startTime align entry ∧
        Stops platform into startTime align rest) := by
  constructor
  · rintro ⟨earlier, last, later, hsplit, hearlier, hlast, halign⟩
    cases earlier with
    | nil =>
        obtain ⟨rfl, -⟩ := List.cons.inj hsplit
        exact .inl ⟨hlast, halign⟩
    | cons first earlier =>
        obtain ⟨rfl, hrest⟩ := List.cons.inj hsplit
        exact .inr ⟨hearlier _ List.mem_cons_self, earlier, last, later, hrest,
          fun other hother => hearlier other (List.mem_cons_of_mem _ hother), hlast, halign⟩
  · rintro (⟨hentry, halign⟩ | ⟨hentry, earlier, last, later, rfl, hearlier, hlast, halign⟩)
    · exact ⟨[], entry, rest, rfl, by simp, hentry, halign⟩
    · refine ⟨entry :: earlier, last, later, rfl, ?_, hlast, halign⟩
      intro other hother
      rcases List.mem_cons.mp hother with rfl | hother
      · exact hentry
      · exact hearlier other hother

/-- The loop fails exactly at the first snapshot that cannot be converted. -/
theorem convert_eq_error_iff (startNanos : UInt64)
    (snapshots : List (List (KeyValue F) × Observation V)) :
    (∃ err, convert platform into startTime startNanos align snapshots = some (.error err)) ↔
      Stops platform into startTime align snapshots := by
  induction snapshots with
  | nil => simp [convert, Stops]
  | cons entry rest ih =>
      rw [stops_cons]
      cases halign : entry.2.alignTs platform startTime align with
      | none =>
          have hnot : ¬ Convertible platform into startTime align entry := by
            intro hconvertible
            obtain ⟨time, htime, _⟩ := hconvertible.time
            simp [halign] at htime
          simp [convert, halign, hnot]
      | some time =>
          have hfirst : First platform into startTime align startNanos entry rest :=
            first_of_alignTs startNanos rest (Option.isSome_of_eq_some halign)
          cases hfirst with
          | stops err hnot hconvert => simp [hconvert, hnot]
          | goesOn point hconvertible hshows hconvert =>
              simp only [hconvert, hconvertible, ← ih, not_true, false_and, false_or, true_and]
              cases convert platform into startTime startNanos align rest with
              | none => simp
              | some later => cases later <;> simp [Except.map]

/-- If the loop ends, every snapshot has its data point. -/
theorem shows_of_convert {startNanos : UInt64}
    (hstart : (startNanos.toNat : SystemTime) = startTime)
    {snapshots : List (List (KeyValue F) × Observation V)} {points : List (DataPoint F P)}
    (h : convert platform into startTime startNanos align snapshots = some (.ok points)) :
    List.Forall₂ (DataPoint.Shows platform into startTime align) snapshots points := by
  induction snapshots generalizing points with
  | nil =>
      obtain rfl := Except.ok.inj (Option.some.inj h)
      exact .nil
  | cons entry rest ih =>
      cases halign : entry.2.alignTs platform startTime align with
      | none => simp [convert, halign] at h
      | some time =>
          have hfirst : First platform into startTime align startNanos entry rest :=
            first_of_alignTs startNanos rest (Option.isSome_of_eq_some halign)
          cases hfirst with
          | stops err hnot hconvert => simp [hconvert] at h
          | goesOn point hconvertible hshows hconvert =>
              rw [hconvert] at h
              obtain ⟨later, hlater, hpoints⟩ := Option.map_eq_some_iff.mp h
              cases later with
              | error err => simp [Except.map] at hpoints
              | ok later =>
                  obtain rfl := Except.ok.inj hpoints
                  exact .cons (hshows hstart) (ih hlater)

end Conversion

theorem exists_mem_of_forall₂ {α β : Type} {related : α → β → Prop} {first : List α}
    {second : List β} (h : List.Forall₂ related first second) {a : α} (ha : a ∈ first) :
    ∃ b ∈ second, related a b := by
  induction h with
  | nil => simp at ha
  | cons hhead _ ih =>
      rcases List.mem_cons.mp ha with rfl | ha
      · exact ⟨_, List.mem_cons_self, hhead⟩
      · obtain ⟨b, hb, hrelated⟩ := ih ha
        exact ⟨b, List.mem_cons_of_mem _ hb, hrelated⟩

/-! ## What an export keeps -/

section Exports

variable (platform : Platform) (conversion : IntoWire F V P)

/-- A snapshot that could be exported if it were alone. -/
structure Representable (series : Series (KeyValue F) V) (align : Option Duration)
    (entry : List (KeyValue F) × Observation V) : Prop where
  start : Mappable series.startTime
  convertible : Convertible platform conversion.into series.startTime align entry

variable {platform conversion}

theorem intoWire_eq_error_iff {order : List (List (KeyValue F))} {align : Option Duration}
    {series : Series (KeyValue F) V} :
    (∃ err, conversion.intoWire platform order align series = some (.error err)) ↔
      order ≠ [] ∧ (¬ Mappable series.startTime ∨
        Stops platform conversion.into series.startTime align (entries order series.series)) := by
  rw [IntoWire.intoWire]
  cases order with
  | nil => simp
  | cons attrs order =>
      simp only [List.isEmpty_cons, Bool.false_eq_true, if_false, ne_eq, reduceCtorEq,
        not_false_eq_true, true_and]
      by_cases hmappable : Mappable series.startTime
      · obtain ⟨startNanos, hnanos⟩ := mapTime_of_mappable hmappable
        rw [hnanos, ← convert_eq_error_iff startNanos, or_iff_right (not_not_intro hmappable),
          entries]
        generalize (attrs :: order).flatMap _ = snapshots
        simp only
        split
        · rename_i hconvert
          simp [hconvert]
        · rename_i err hconvert
          simp [hconvert]
        · rename_i hconvert
          simp [hconvert]
        · rename_i points _ hconvert
          simp [hconvert]
      · obtain ⟨err, herr⟩ := mapTime_of_not_mappable hmappable
        rw [herr]
        exact ⟨fun _ => .inl hmappable, fun _ => ⟨_, rfl⟩⟩

/-- If an export returns, every snapshot has its data point. -/
theorem shows_of_intoWire {order : List (List (KeyValue F))} {align : Option Duration}
    {series : Series (KeyValue F) V} {found : Option (Metric F P)}
    (h : conversion.intoWire platform order align series = some (.ok found)) :
    List.Forall₂ (DataPoint.Shows platform conversion.into series.startTime align)
      (entries order series.series) (found.elim [] fun metric => metric.data.dataPoints) := by
  rcases conversion.convert_of_intoWire h with ⟨rfl, rfl⟩ | ⟨startNanos, hstart, hpoints⟩
  · exact .nil
  · exact shows_of_convert (mapTime_eq_ok hstart) hpoints

end Exports

namespace Exporter

/-- The observer holds the snapshot, and has not exported it. -/
def Pending (r : Exporter F V P) (entry : List (KeyValue F) × Observation V) : Prop :=
  entry.2 ∈ r.observer.series entry.1

/-- An export visits every entry of the series. -/
def Visits (r : Exporter F V P) (order : List (List (KeyValue F))) : Prop :=
  ∀ attrs, attrs ∈ order ↔ r.observer.series attrs ≠ []

theorem mem_entries_iff {r : Exporter F V P} {order : List (List (KeyValue F))}
    (hvisits : r.Visits order) {entry : List (KeyValue F) × Observation V} :
    entry ∈ entries order r.observer.series ↔ r.Pending entry := by
  obtain ⟨attrs, snapshot⟩ := entry
  simp only [entries, List.mem_flatMap, List.mem_map, Prod.mk.injEq]
  constructor
  · rintro ⟨attrs', _, snapshot', hmem, rfl, rfl⟩
    exact hmem
  · intro hpending
    exact ⟨attrs, (hvisits attrs).mpr (List.ne_nil_of_mem hpending), snapshot, hpending, rfl, rfl⟩

section Calls

variable [LinearOrder (KeyValue F)] [Record A T V] [BEq V] [PartialOrd V] [Sub V] [IsInitial V]
  (platform : Platform) (conversion : IntoWire F V P) (cfg : Config (KeyValue F) A)

/-- A data point of the snapshot is among those that were exported between two states. -/
def Delivered (r r' : Exporter F V P) (align : Option Duration)
    (entry : List (KeyValue F) × Observation V) : Prop :=
  ∃ point ∈ r'.dataPoints.drop r.dataPoints.length,
    point.Shows platform conversion.into r.observer.startTime align entry

/-- If the call is an export that fails, every snapshot that could be exported if it were
alone is delivered by it, or still pending. -/
def KeepsPending (r : Exporter F V P) : Call F A → Prop
  | .observe .. | .reset _ => True
  | .exportInto align order =>
      ∀ err r', conversion.intoWire platform order align r.observer.take.2 = some (.error err) →
        step platform conversion cfg r (.exportInto align order) = some r' →
        ∀ entry, r.Pending entry →
          Representable platform conversion r.observer.take.2 align entry →
            Delivered platform conversion r r' align entry ∨ r'.Pending entry

/-- If the call is an export that stops at a snapshot, no pending snapshot could be exported
if it were alone. -/
def Harmless (r : Exporter F V P) : Call F A → Prop
  | .observe .. | .reset _ => True
  | .exportInto align order =>
      Stops platform conversion.into r.observer.startTime align
          (entries order r.observer.series) →
        ∀ entry, r.Pending entry →
          ¬ Representable platform conversion r.observer.take.2 align entry

variable {platform conversion cfg}

/-- A failed export leaves an observer without snapshots, and delivers nothing. -/
theorem step_of_error {r : Exporter F V P} {align : Option Duration}
    {order : List (List (KeyValue F))} {err : Error}
    (herr : conversion.intoWire platform order align r.observer.take.2 = some (.error err)) :
    step platform conversion cfg r (.exportInto align order) =
      some { observer := r.observer.take.1, exported := r.exported } := by
  simp [step, herr]

theorem keepsPending_iff (r : Exporter F V P) (call : Call F A) :
    KeepsPending platform conversion cfg r call ↔ Harmless platform conversion r call := by
  cases call with
  | observe ts shown => exact Iff.rfl
  | reset startTime => exact Iff.rfl
  | exportInto align order =>
      constructor
      · intro hkeeps hstops entry hpending hrepresentable
        have hne : order ≠ [] := by
          rintro rfl
          obtain ⟨earlier, first, later, hsplit, _⟩ := hstops
          simp [entries] at hsplit
        obtain ⟨err, herr⟩ : ∃ err, conversion.intoWire platform order align r.observer.take.2 =
            some (.error err) := intoWire_eq_error_iff.mpr ⟨hne, .inr hstops⟩
        rcases hkeeps err _ herr (step_of_error herr) entry hpending hrepresentable with
          hdelivered | hkept
        · obtain ⟨point, hpoint, _⟩ := hdelivered
          have hnone : point ∈ r.dataPoints.drop r.dataPoints.length := hpoint
          simp at hnone
        · exact absurd hkept List.not_mem_nil
      · intro hharmless err r' herr _ entry hpending hrepresentable
        rcases (intoWire_eq_error_iff.mp ⟨err, herr⟩).2 with hstart | hstops
        · exact absurd hrepresentable.start hstart
        · exact absurd hrepresentable (hharmless hstops entry hpending)

/-- What is pending stays so until the next export, and if that returns it delivers it. -/
theorem delivered_of_pending {r r₁ r₂ : Exporter F V P} {later : List (Call F A)}
    (hobserves : ∀ call ∈ later, ∃ ts shown, call = .observe ts shown)
    (hrun : (step platform conversion cfg).run r later = some r₁) {align : Option Duration}
    {order : List (List (KeyValue F))} (hvisits : r₁.Visits order)
    {found : Option (Metric F P)}
    (hfound : conversion.intoWire platform order align r₁.observer.take.2 = some (.ok found))
    (hstep : step platform conversion cfg r₁ (.exportInto align order) = some r₂)
    {entry : List (KeyValue F) × Observation V} (hpending : r.Pending entry) :
    Delivered platform conversion r₁ r₂ align entry := by
  have hpending₁ : r₁.Pending entry := by
    refine StepFn.invariant_of_step (fun r => r.Pending entry) ?_ hpending hrun
    intro call hcall s s' hs hnext
    obtain ⟨ts, shown, rfl⟩ := hobserves call hcall
    obtain rfl := Option.some.inj hnext
    rcases (SyncObserver.observed_observe ts cfg shown s.observer).series entry.1 with
      hsame | ⟨value, hadded⟩
    · rw [Pending, hsame]
      exact hs
    · rw [Pending, hadded]
      exact List.mem_append_left _ hs
  have hmem : entry ∈ entries order r₁.observer.series := (mem_entries_iff hvisits).mpr hpending₁
  obtain ⟨point, hpoint, hshows⟩ := exists_mem_of_forall₂ (shows_of_intoWire hfound) hmem
  cases found with
  | none => exact absurd hpoint List.not_mem_nil
  | some metric =>
      simp only [step, hfound, Option.map_some, Option.some.injEq] at hstep
      subst hstep
      refine ⟨point, ?_, hshows⟩
      simpa [dataPoints] using hpoint

/-- In every run of calls to an observer, each export that fails keeps the pending snapshots
that could be exported if they were alone, exactly if it had no such snapshots whenever it
stopped at another.  What is still pending is delivered by the next export that returns. -/
theorem failed_exports_keep_iff (o : SyncObserver (KeyValue F) V) (calls : List (Call F A)) :
    ((step platform conversion cfg).Along (KeepsPending platform conversion cfg) ⟨o, []⟩ calls ↔
      (step platform conversion cfg).Along (Harmless platform conversion) ⟨o, []⟩ calls) ∧
    ∀ (r r₁ r₂ : Exporter F V P) (later : List (Call F A)) (align : Option Duration)
      (order : List (List (KeyValue F))) (found : Option (Metric F P)),
      (∀ call ∈ later, ∃ ts shown, call = .observe ts shown) →
      (step platform conversion cfg).run r later = some r₁ → r₁.Visits order →
      conversion.intoWire platform order align r₁.observer.take.2 = some (.ok found) →
      step platform conversion cfg r₁ (.exportInto align order) = some r₂ →
        ∀ entry, r.Pending entry → Delivered platform conversion r₁ r₂ align entry := by
  refine ⟨?_, ?_⟩
  · exact StepFn.along_congr (fun _ => True) (fun call _ r _ => keepsPending_iff r call)
      (fun _ _ _ _ _ _ _ => trivial) trivial
  · intro r r₁ r₂ later align order found hobserves hrun hvisits hfound hstep entry hpending
    exact delivered_of_pending hobserves hrun hvisits hfound hstep hpending

end Calls

end Exporter

/-! ## A counter that one set overflows -/

def host : KeyValue WholeFloat := ⟨"host", some (.string "a")⟩

/-- A count that the protocol has no place for. -/
def tooMany : UInt64 := 9223372036854775808

/-- A counter of a host. -/
def overflowed : BucketMap (KeyValue WholeFloat) UInt64 :=
  ((BucketMap.withStorage requests).exec requests (.add tooMany [host])).1

/-- And of one without attributes. -/
def overflowedBeside : BucketMap (KeyValue WholeFloat) UInt64 :=
  (overflowed.exec requests (.add 1 [])).1

/-- The host's counter was reset since. -/
def resetSince : BucketMap (KeyValue WholeFloat) UInt64 :=
  (overflowedBeside.exec requests (.reset [host])).1

theorem inv_overflowed : BucketMap.Inv requests Set.univ overflowed :=
  BucketMap.inv_exec (BucketMap.inv_withStorage _ _) (.add tooMany [host])
    (fun _ _ => trivial) (by simp)

theorem inv_overflowedBeside : BucketMap.Inv requests Set.univ overflowedBeside :=
  BucketMap.inv_exec inv_overflowed (.add 1 []) (fun _ _ => trivial) (by simp)

theorem inv_resetSince : BucketMap.Inv requests Set.univ resetSince :=
  BucketMap.inv_exec inv_overflowedBeside (.reset [host]) (fun _ _ => trivial) (by simp)

/-- The host's counter has no place in the protocol. -/
theorem not_convertible_tooMany {startTime : SystemTime}
    {entry : List (KeyValue WholeFloat) × Observation UInt64} (hvalue : entry.2.value = tooMany) :
    ¬ Convertible wide (numbers (F := WholeFloat) intoNumberU64).into startTime none entry := by
  intro h
  obtain ⟨value, hok⟩ := h.value
  have herr : (numbers (F := WholeFloat) intoNumberU64).into tooMany = .error .valueToI64 := rfl
  rw [hvalue, herr] at hok
  cases hok

/-- All that is pending after one observation of one set. -/
theorem pending_of_series {r : Exporter WholeFloat UInt64 (NumberValue WholeFloat)}
    (attrs : List (KeyValue WholeFloat)) {snapshot : Observation UInt64}
    (hseries : r.observer.series = Function.update (fun _ => []) attrs [snapshot])
    {entry : List (KeyValue WholeFloat) × Observation UInt64} (hpending : r.Pending entry) :
    entry.2 = snapshot := by
  rw [Exporter.Pending, hseries] at hpending
  by_cases hattrs : entry.1 = attrs
  · rwa [hattrs, Function.update_self, List.mem_singleton] at hpending
  · rw [Function.update_of_ne hattrs] at hpending
    exact absurd hpending List.not_mem_nil

/-- An export that fails when nothing else is pending, for a value or for a time before the
epoch, and what two observations left pending, delivered by one export. -/
theorem failed_exports_keep_alone :
    (Exporter.step wide (numbers intoNumberU64) requests).Along
        (Exporter.KeepsPending wide (numbers intoNumberU64) requests) ⟨deltaObserver, []⟩
        [.observe 10 (.ofInv inv_overflowed), .exportInto none [[host]]] ∧
      (Exporter.step wide (numbers intoNumberU64) requests).Along
        (Exporter.KeepsPending wide (numbers intoNumberU64) requests) ⟨deltaObserver, []⟩
        [.observe (-10) (.ofInv inv_counted), .exportInto none [[]]] ∧
      ∃ r₁ r₂, (Exporter.step wide (numbers intoNumberU64) requests).run ⟨deltaObserver, []⟩
          [.observe 10 (.ofInv inv_counted), .observe 20 (.ofInv inv_countedMore)] = some r₁ ∧
        Exporter.step wide (numbers intoNumberU64) requests r₁ (.exportInto none [[]]) =
          some r₂ ∧
        Exporter.Delivered wide (numbers intoNumberU64) r₁ r₂ none ([], ⟨10, 0, 5⟩) := by
  refine ⟨?_, ?_, ?_⟩
  · apply (Exporter.failed_exports_keep_iff deltaObserver _).1.mpr
    refine ⟨trivial, fun r hr => ⟨?_, fun _ _ => trivial⟩⟩
    obtain rfl := Option.some.inj hr
    intro _ entry hpending hrepresentable
    have hsnapshot : entry.2 = ⟨10, 0, tooMany⟩ := pending_of_series [host] rfl hpending
    exact not_convertible_tooMany (congrArg _ hsnapshot) hrepresentable.convertible
  · apply (Exporter.failed_exports_keep_iff deltaObserver _).1.mpr
    refine ⟨trivial, fun r hr => ⟨?_, fun _ _ => trivial⟩⟩
    obtain rfl := Option.some.inj hr
    intro _ entry hpending hrepresentable
    have hsnapshot : entry.2 = ⟨-10, 0, 5⟩ := pending_of_series [] rfl hpending
    obtain ⟨time, htime, hmappable⟩ := hrepresentable.convertible.time
    obtain rfl : -10 = time := by simpa [Observation.alignTs, hsnapshot] using htime
    exact absurd hmappable (by decide)
  · refine ⟨_, _, rfl, rfl, ?_⟩
    refine (Exporter.failed_exports_keep_iff deltaObserver []).2
      ⟨(deltaObserver.observe requests 10 counted).2, []⟩ _ _
      [.observe 20 (.ofInv inv_countedMore)] none [[]] _ ?_ rfl (fun attrs => ?_) rfl rfl _ ?_
    · intro call hcall
      exact ⟨20, _, List.mem_singleton.mp hcall⟩
    · have hseries : ((deltaObserver.observe requests 10 counted).2.observe requests 20
          countedMore).2.series = Function.update (fun _ => []) [] [⟨10, 0, 5⟩, ⟨20, 1, 3⟩] :=
        Function.update_idem ..
      change attrs ∈ [[]] ↔ ((deltaObserver.observe requests 10 counted).2.observe requests 20
        countedMore).2.series attrs ≠ []
      rw [hseries, List.mem_singleton]
      by_cases hattrs : attrs = []
      · simp [hattrs]
      · simp [hattrs]
    · exact List.mem_singleton_self _

/-- An export that fails, and one after the offending value is gone. -/
def failedOnce : List (Call WholeFloat UInt64) :=
  [.observe 10 (.ofInv inv_overflowedBeside), .exportInto none [[host], []],
    .observe 20 (.ofInv inv_resetSince), .exportInto none [[host]]]

/-- What was counted without attributes is not exported by the export that fails, and not
pending for the next one, which finds nothing new to observe. -/
theorem increment_lost :
    (∃ r, (Exporter.step wide (numbers intoNumberU64) requests).run ⟨deltaObserver, []⟩
        failedOnce = some r ∧
      r.exported.map (fun e => e.metric.data) =
        [.sum [⟨mapAttrs [host], 0, 20, .asInt 0⟩] .delta true] ∧
      r.observer.series = fun _ => []) ∧
    ¬ (Exporter.step wide (numbers intoNumberU64) requests).Along
      (Exporter.KeepsPending wide (numbers intoNumberU64) requests) ⟨deltaObserver, []⟩
      failedOnce := by
  refine ⟨⟨_, rfl, rfl, rfl⟩, fun halong => ?_⟩
  have hharmless := (Exporter.keepsPending_iff _ _).mp (halong.2 _ rfl).1
  have hstops : Stops wide (numbers (F := WholeFloat) intoNumberU64).into 0 none
      [([host], ⟨10, 0, tooMany⟩), ([], ⟨10, 0, 1⟩)] :=
    ⟨[], _, _, rfl, by simp, not_convertible_tooMany rfl, rfl⟩
  have hpending : (⟨10, 0, 1⟩ : Observation UInt64) ∈ [⟨10, 0, 1⟩] := List.mem_singleton_self _
  apply hharmless hstops ([], ⟨10, 0, 1⟩) hpending
  exact ⟨by decide, ⟨⟨10, rfl, by decide⟩, _, rfl⟩⟩

end Ohnotel.Otel
