/-
# The intervals of data points

An observer is observed, exported and reset in any order, and between two observations the
application may do anything to the map.  Every data point of a metric it was exported as
starts when the observer did, so the intervals of two points of one attribute list have
nothing in common only if one of them is empty.
-/

import Mathlib
import Ohnotel.AttributeOrder
import Ohnotel.Foundation.Intervals
import Ohnotel.Foundation.Transition
import Ohnotel.Observe.Stamps
import Ohnotel.Otel.Dto

namespace Ohnotel.Otel

open Foundation Atomic

variable {F A T V P : Type}

/-- An export that emitted a metric, with the times its snapshots were exported with. -/
structure Exported (F P : Type) where
  times : List (List (KeyValue F) × SystemTime)
  metric : Metric F P

/-- An observer, and what it was exported as since it was last reset. -/
structure Exporter (F V P : Type) where
  observer : SyncObserver (KeyValue F) V
  exported : List (Exported F P)

/-- The times that a data point claims its value for. -/
def DataPoint.interval (point : DataPoint F P) : Set SystemTime :=
  Set.Ioc ↑point.startTimeUnixNano.toNat ↑point.timeUnixNano.toNat

/-- A call to an observer.  An observation is shown a map; an export visits the entries of
the series in the order of their hash map. -/
inductive Call (F A : Type)
  | observe (ts : SystemTime) (shown : BucketMap.Walkable (KeyValue F) A)
  | exportInto (align : Option Duration) (order : List (List (KeyValue F)))
  | reset (startTime : SystemTime)

namespace Exporter

def dataPoints (r : Exporter F V P) : List (DataPoint F P) :=
  r.exported.flatMap fun e => e.metric.data.dataPoints

/-- The snapshots that were exported, with their attributes and their times. -/
def times (r : Exporter F V P) : List (List (KeyValue F) × SystemTime) :=
  r.exported.flatMap Exported.times

/-- Every point spans the time from the start of the observer to that of its snapshot. -/
def Spanning (r : Exporter F V P) : Prop :=
  List.Forall₂ (DataPoint.Spans r.observer.startTime) r.times r.dataPoints

variable [LinearOrder (KeyValue F)] [Record A T V] [BEq V] [PartialOrd V] [Sub V] [IsInitial V]
  (platform : Platform) (conversion : IntoWire F V P) (cfg : Config (KeyValue F) A)

/-- What a call does, unless it panics.  An export that fails has drained the series. -/
def step : StepFn (Exporter F V P) (Call F A)
  | r, .observe ts shown => some { r with observer := (r.observer.observe cfg ts shown.buckets).2 }
  | r, .exportInto align order =>
      (conversion.intoWire platform order align r.observer.take.2).map fun found =>
        { observer := r.observer.take.1
          exported :=
            match found with
            | .ok (some metric) =>
                r.exported ++ [⟨exportTimes platform order align r.observer.take.2, metric⟩]
            | .ok none | .error _ => r.exported }
  | r, .reset startTime => some { observer := r.observer.reset startTime, exported := [] }

variable {platform conversion cfg}

theorem Spanning.step {r r' : Exporter F V P} (h : r.Spanning) {call : Call F A}
    (hstep : Exporter.step platform conversion cfg r call = some r') : r'.Spanning := by
  cases call with
  | observe ts shown =>
      obtain rfl := Option.some.inj hstep
      have hstart := (SyncObserver.observed_observe ts cfg shown r.observer).startTime
      rw [Spanning]
      simp only [hstart]
      exact h
  | exportInto align order =>
      obtain ⟨found, hfound, rfl⟩ := Option.map_eq_some_iff.mp hstep
      match found, hfound with
      | .ok (some metric), hfound =>
          have hmade := IntoWire.spans_of_intoWire hfound
          rw [Spanning, times, dataPoints]
          simp only [List.flatMap_append, List.flatMap_singleton]
          exact List.rel_append h hmade
      | .ok none, hfound => exact h
      | .error err, hfound => exact h
  | reset startTime =>
      obtain rfl := Option.some.inj hstep
      exact .nil

omit [LinearOrder (KeyValue F)] in
theorem disjoint_iff_of_spans {startTime : SystemTime}
    {first second : List (KeyValue F) × SystemTime} {point point' : DataPoint F P}
    (h : DataPoint.Spans startTime first point) (h' : DataPoint.Spans startTime second point') :
    (first.1 = second.1 → Disjoint (Set.Ioc startTime first.2) (Set.Ioc startTime second.2)) ↔
      (point.attributes = point'.attributes → Disjoint point.interval point'.interval) := by
  have hattributes : point.attributes = point'.attributes ↔ first.1 = second.1 := by
    rw [h.attributes, h'.attributes]
    exact ⟨mapAttrs_injective, congrArg mapAttrs⟩
  rw [hattributes, DataPoint.interval, DataPoint.interval, h.start, h'.start, h.time, h'.time]

/-- In every run from an observer that was exported as nothing yet, the intervals of any
two points of one attribute list are disjoint if and only if at most one snapshot of each
list was exported with a time after the start of the observer. -/
theorem disjoint_iff_one_after_start {o : SyncObserver (KeyValue F) V} {calls : List (Call F A)}
    {r : Exporter F V P}
    (hrun : (step platform conversion cfg).run ⟨o, []⟩ calls = some r) :
    (r.dataPoints.Pairwise fun first second =>
        first.attributes = second.attributes → Disjoint first.interval second.interval) ↔
      ∀ attrs, (r.times.countP fun exported =>
        exported.1 = attrs ∧ r.observer.startTime < exported.2) ≤ 1 := by
  have hstart : Spanning (⟨o, []⟩ : Exporter F V P) := List.Forall₂.nil
  have hspanning : r.Spanning :=
    StepFn.invariant_of_step Spanning (fun _ _ _ _ h hstep => h.step hstep) hstart hrun
  rw [← pairwise_disjoint_Ioc_iff]
  exact (pairwise_iff_of_forall₂ disjoint_iff_of_spans hspanning).symm

end Exporter

/-! ## A counter observed twice -/

def requests : Config (KeyValue WholeFloat) UInt64 where
  hasher := ⟨fun _ => 0, AttrFingerprint.sum⟩
  initBucket := 0
  layout := .stack

def counted : BucketMap (KeyValue WholeFloat) UInt64 :=
  ((BucketMap.withStorage requests).exec requests (.add 5 [])).1

def countedMore : BucketMap (KeyValue WholeFloat) UInt64 := (counted.exec requests (.add 3 [])).1

theorem inv_counted : BucketMap.Inv requests Set.univ counted :=
  BucketMap.inv_exec (BucketMap.inv_withStorage _ _) (.add 5 []) (fun _ _ => trivial) (by simp)

theorem inv_countedMore : BucketMap.Inv requests Set.univ countedMore :=
  BucketMap.inv_exec inv_counted (.add 3 []) (fun _ _ => trivial) (by simp)

/-- A delta observer of the counter that starts at 0. -/
def deltaObserver : SyncObserver (KeyValue WholeFloat) UInt64 where
  startTime := 0
  seq := 0
  id := ⟨"requests", "", ""⟩
  series _ := []
  lastValues := some fun _ => none
  observeMode := .delta
  kind := .counter

/-- An export after each of two observations, at 10 and at 20. -/
def observedTwice : List (Call WholeFloat UInt64) :=
  [.observe 10 (.ofInv inv_counted), .exportInto none [[]], .observe 20 (.ofInv inv_countedMore),
    .exportInto none [[]]]

def wide : Platform := ⟨2 ^ 64, -2 ^ 64, 2 ^ 64, by decide⟩

def exportedTwice : Option (Exporter WholeFloat UInt64 (NumberValue WholeFloat)) :=
  (Exporter.step wide (numbers intoNumberU64) requests).run ⟨deltaObserver, []⟩ observedTwice

theorem exists_exportedTwice :
    ∃ r, exportedTwice = some r ∧
      r.exported.map (fun e => e.metric.data) =
        [.sum [⟨[], 0, 10, .asInt 5⟩] .delta true, .sum [⟨[], 0, 20, .asInt 3⟩] .delta true] :=
  ⟨_, rfl, rfl⟩

/-- The first observation falls on the start of the observer. -/
def observedAtStart : List (Call WholeFloat UInt64) :=
  [.observe 0 (.ofInv inv_counted), .exportInto none [[]], .observe 20 (.ofInv inv_countedMore),
    .exportInto none [[]]]

theorem exists_exportedAtStart :
    ∃ r, (Exporter.step wide (numbers intoNumberU64) requests).run ⟨deltaObserver, []⟩
        observedAtStart = some r ∧
      r.times = [([], 0), ([], 20)] ∧ r.observer.startTime = 0 :=
  ⟨_, rfl, rfl, rfl⟩

theorem disjoint_iff_one_after_start_twice :
    (∃ r, exportedTwice = some r ∧
      ((r.dataPoints.Pairwise fun first second =>
          first.attributes = second.attributes → Disjoint first.interval second.interval) ↔
        ∀ attrs, (r.times.countP fun exported =>
          exported.1 = attrs ∧ r.observer.startTime < exported.2) ≤ 1)) ∧
    ∃ r, (Exporter.step wide (numbers intoNumberU64) requests).run ⟨deltaObserver, []⟩
        observedAtStart = some r ∧ r.times.length = 2 ∧
      r.dataPoints.Pairwise fun first second =>
        first.attributes = second.attributes → Disjoint first.interval second.interval := by
  constructor
  · obtain ⟨r, hrun, _⟩ := exists_exportedTwice
    exact ⟨r, hrun, Exporter.disjoint_iff_one_after_start hrun⟩
  · obtain ⟨r, hrun, htimes, hstart⟩ := exists_exportedAtStart
    refine ⟨r, hrun, by rw [htimes]; rfl, (Exporter.disjoint_iff_one_after_start hrun).mpr ?_⟩
    intro attrs
    rw [htimes, hstart]
    simp [List.countP_cons]
    split <;> omega

/-- The second point claims the time of the first. -/
theorem overlapping_delta_points :
    ∃ r, exportedTwice = some r ∧
      r.exported.map (fun e => e.metric.data) =
        [.sum [⟨[], 0, 10, .asInt 5⟩] .delta true, .sum [⟨[], 0, 20, .asInt 3⟩] .delta true] ∧
      ¬ r.dataPoints.Pairwise fun first second =>
        first.attributes = second.attributes → Disjoint first.interval second.interval := by
  obtain ⟨r, hrun, hdata⟩ := exists_exportedTwice
  refine ⟨r, hrun, hdata, fun hdisjoint => ?_⟩
  have hpoints : r.dataPoints = [⟨[], 0, 10, .asInt 5⟩, ⟨[], 0, 20, .asInt 3⟩] := by
    have hflat : r.dataPoints =
        (r.exported.map fun e => e.metric.data).flatMap Data.dataPoints := by
      rw [List.flatMap_map]
      rfl
    rw [hflat, hdata]
    rfl
  rw [hpoints, List.pairwise_cons] at hdisjoint
  have hboth := hdisjoint.1 _ (List.mem_singleton_self _) rfl
  exact disjoint_Ioc_iff.mp hboth ⟨by decide, by decide⟩

end Ohnotel.Otel
