/-
# What the console is given

A series is converted into one metric, with a point for each snapshot of each attribute
list, in whatever order the hash map of the series has.  The conversion can only fail at a
number without a float.  The sender writes each metric of a batch on its own lines.

In a run of the worker no two snapshots of one attribute list are exported with one time.
So what is written is the same for every order of the hash maps.
-/

import Ohnotel.Collect.Timestamps
import Ohnotel.Console.Rendering
import Ohnotel.Foundation.Intervals

namespace Ohnotel.Console

open Foundation

variable {F T V W : Type}

/-! ## Conversion -/

/-- `map_temporality`. -/
def mapTemporality : Mode → Temporality
  | .direct => .cumulative
  | .delta | .destructive => .delta

/-- `to_number`. -/
def toNumber (toF64 : T → Option F) (value : T) : Except Error F :=
  match toF64 value with
  | some number => .ok number
  | none => .error .valueToF64

/-- The loop over the buckets. -/
def toBuckets (toF64 : T → Option F) (boundaries : List T) (bucketCounts : List UInt64) :
    Except Error (List (Bucket F)) :=
  bucketCounts.zipIdx.mapM fun counted => do
    let upperBound ← boundaries[counted.2]?.mapM (toNumber toF64)
    return { upperBound := upperBound, count := counted.1 }

/-- The value of a point of a histogram. -/
def toHistogram (toF64 : T → Option F) (snapshot : Atomic.Snapshot T) :
    Except Error (Histogram F) := do
  let buckets ← toBuckets toF64 snapshot.boundaries snapshot.bucketCounts
  let sum ← toNumber toF64 snapshot.sum
  let min ← snapshot.min.mapM (toNumber toF64)
  let max ← snapshot.max.mapM (toNumber toF64)
  return { count := snapshot.count, sum := sum, buckets := buckets, min := min, max := max }

/-- A computation that ends, or fails as `to_number` does. -/
def FailsAsNumber {α : Type} (found : Except Error α) : Prop :=
  ∀ err, found = .error err → err = .valueToF64

section Failing

variable {α β : Type}

theorem failsAsNumber_ok (value : α) : FailsAsNumber (.ok value : Except Error α) := by
  intro err h
  cases h

theorem FailsAsNumber.bind {found : Except Error α} (h : FailsAsNumber found)
    {next : α → Except Error β} (hnext : ∀ value, FailsAsNumber (next value)) :
    FailsAsNumber (found >>= next) := by
  cases found with
  | error err =>
      obtain rfl := h err rfl
      intro err' herr'
      cases herr'
      rfl
  | ok value => exact hnext value

theorem failsAsNumber_mapM {next : α → Except Error β} (hnext : ∀ value, FailsAsNumber (next value))
    (values : List α) : FailsAsNumber (values.mapM next) := by
  induction values with
  | nil => exact failsAsNumber_ok []
  | cons value rest ih =>
      rw [List.mapM_cons]
      apply (hnext value).bind
      intro found
      apply ih.bind
      intro later
      exact failsAsNumber_ok (found :: later)

theorem failsAsNumber_mapM_option {next : α → Except Error β}
    (hnext : ∀ value, FailsAsNumber (next value)) (value : Option α) :
    FailsAsNumber (value.mapM next) := by
  cases value with
  | none => exact failsAsNumber_ok none
  | some value =>
      apply (hnext value).bind
      intro found
      exact failsAsNumber_ok (some found)

theorem failsAsNumber_toNumber (toF64 : T → Option F) (value : T) :
    FailsAsNumber (toNumber toF64 value) := by
  unfold toNumber
  split
  · exact failsAsNumber_ok _
  · intro err h
    cases h
    rfl

theorem failsAsNumber_toHistogram (toF64 : T → Option F) (snapshot : Atomic.Snapshot T) :
    FailsAsNumber (toHistogram toF64 snapshot) := by
  have hnumber := failsAsNumber_toNumber toF64
  have hbuckets : FailsAsNumber
      (toBuckets toF64 snapshot.boundaries snapshot.bucketCounts) := by
    apply failsAsNumber_mapM
    intro counted
    apply (failsAsNumber_mapM_option hnumber _).bind
    intro upperBound
    exact failsAsNumber_ok _
  apply hbuckets.bind
  intro buckets
  apply (hnumber _).bind
  intro sum
  apply (failsAsNumber_mapM_option hnumber _).bind
  intro min
  apply (failsAsNumber_mapM_option hnumber _).bind
  intro max
  exact failsAsNumber_ok _

end Failing

/-- What differs between the two implementations of `into_wire`: the value of a point. -/
structure IntoWire (F V : Type) where
  into : V → Except Error (DataPointValue F)
  fails : ∀ value, FailsAsNumber (into value)

/-- `IntoWire` for a series of numbers. -/
def numbers (toF64 : T → Option F) : IntoWire F T where
  into value := (toNumber toF64 value).map .number
  fails value := by
    intro err h
    apply failsAsNumber_toNumber toF64 value
    cases hfound : toNumber toF64 value with
    | error found => rw [hfound] at h; cases h; rfl
    | ok number => rw [hfound] at h; cases h

/-- `IntoWire` for a series of snapshots of a histogram. -/
def histograms (toF64 : T → Option F) : IntoWire F (Atomic.Snapshot T) where
  into snapshot := (toHistogram toF64 snapshot).map .histogram
  fails snapshot := by
    intro err h
    apply failsAsNumber_toHistogram toF64 snapshot
    cases hfound : toHistogram toF64 snapshot with
    | error found => rw [hfound] at h; cases h; rfl
    | ok value => rw [hfound] at h; cases h

variable (platform : Platform)

/-- The point of a snapshot; `none` is a panic. -/
def dataPoint (conversion : IntoWire F V) (startTime : SystemTime) (align : Option Duration)
    (entry : List (KeyValue F) × Observation V) : Option (Except Error (DataPoint F)) :=
  (entry.2.alignTs platform startTime align).map fun time =>
    (conversion.into entry.2.value).map fun value =>
      { attributes := entry.1, startTime := startTime, time := time, value := value }

/-- The snapshots of a series, over its entries in some order. -/
def entries (order : List (List (KeyValue F))) (series : Series (KeyValue F) V) :
    List (List (KeyValue F) × Observation V) :=
  order.flatMap fun attrs => (series.series attrs).map fun snapshot => (attrs, snapshot)

/-- The metric of the points, if there are any. -/
def metricOf (series : Series (KeyValue F) V) (points : List (DataPoint F)) :
    Option (Metric F) :=
  if points.isEmpty then none
  else some
    { id := series.id
      kind := series.kind
      temporality := mapTemporality series.observeMode
      dataPoints := points }

/-- `into_wire`, over the entries of the series in some order. -/
def intoWire (conversion : IntoWire F V) (order : List (List (KeyValue F)))
    (align : Option Duration) (series : Series (KeyValue F) V) :
    Option (Except Error (Option (Metric F))) :=
  if order.isEmpty then some (.ok none)
  else
    (convertAll (dataPoint platform conversion series.startTime align)
      (entries order series)).map fun found => found.map (metricOf series)

/-! ## The order of the entries -/

section Order

variable [Formats F] {R : Type} [LinearOrder R] [OrderedFloat F R]

variable {platform} {conversion : IntoWire F V} {align : Option Duration}
  {series : Series (KeyValue F) V}

/-- Every snapshot of the series has a time to be exported with, another one than the
snapshots of its list before it. -/
structure Timed (platform : Platform) (align : Option Duration)
    (series : Series (KeyValue F) V) : Prop where
  total : ∀ attrs, ∀ s ∈ series.series attrs,
    s.alignTs platform series.startTime align ≠ none
  apart : ∀ attrs, (series.series attrs).Pairwise fun first second =>
    first.alignTs platform series.startTime align ≠
      second.alignTs platform series.startTime align

omit [Formats F] in
/-- The time and the attributes of a point are those of its snapshot. -/
theorem of_dataPoint {entry : List (KeyValue F) × Observation V} {point : DataPoint F}
    (h : dataPoint platform conversion series.startTime align entry = some (.ok point)) :
    entry.2.alignTs platform series.startTime align = some point.time ∧
      point.attributes = entry.1 := by
  obtain ⟨time, htime, hpoint⟩ := Option.map_eq_some_iff.mp h
  rw [htime]
  cases hvalue : conversion.into entry.2.value with
  | error err =>
      rw [hvalue] at hpoint
      cases hpoint
  | ok value =>
      rw [hvalue] at hpoint
      cases hpoint
      exact ⟨rfl, rfl⟩

omit [Formats F] in
/-- Points have one key if and only if their snapshots have one time and attributes that
compare equal. -/
theorem key_eq_iff {first second : List (KeyValue F) × Observation V} {point point' : DataPoint F}
    (h : dataPoint platform conversion series.startTime align first = some (.ok point))
    (h' : dataPoint platform conversion series.startTime align second = some (.ok point')) :
    point.key = point'.key ↔
      first.2.alignTs platform series.startTime align =
          second.2.alignTs platform series.startTime align ∧
        KeyValue.rankedAll first.1 = KeyValue.rankedAll second.1 := by
  obtain ⟨htime, hattributes⟩ := of_dataPoint h
  obtain ⟨htime', hattributes'⟩ := of_dataPoint h'
  have htimes : point.time = point'.time ↔
      first.2.alignTs platform series.startTime align =
        second.2.alignTs platform series.startTime align := by
    rw [← Option.some_inj, ← htime, ← htime']
  rw [← htimes, ← hattributes, ← hattributes', DataPoint.key, DataPoint.key, toLex_inj,
    Prod.mk.injEq]

omit [Formats F] in
/-- No two points have one time and attributes that compare equal. -/
theorem nodup_key (htimed : Timed platform align series) {order : List (List (KeyValue F))}
    (hkeys : (order.map (KeyValue.rankedAll (R := R))).Nodup) {points : List (DataPoint F)}
    (hpoints : convertAll (dataPoint platform conversion series.startTime align)
      (entries order series) = some (.ok points)) : (points.map DataPoint.key).Nodup := by
  have hentries : (entries order series).Pairwise fun first second =>
      ¬ (first.2.alignTs platform series.startTime align =
          second.2.alignTs platform series.startTime align ∧
        KeyValue.rankedAll first.1 = KeyValue.rankedAll second.1) := by
    apply List.pairwise_flatMap.mpr
    constructor
    · intro attrs _
      apply List.pairwise_map.mpr
      exact (htimed.apart attrs).imp fun hne heq => hne heq.1
    · apply (List.pairwise_map.mp hkeys).imp
      intro attrs attrs' hne first hfirst second hsecond heq
      obtain ⟨s, _, rfl⟩ := List.mem_map.mp hfirst
      obtain ⟨s', _, rfl⟩ := List.mem_map.mp hsecond
      exact hne heq.2
  apply List.pairwise_map.mpr
  exact (pairwise_iff_of_forall₂ (fun h h' => (key_eq_iff h h').not.symm)
    (convertAll_eq_ok_iff.mp hpoints)).mp hentries

omit [Formats F] in
theorem entries_perm {order others : List (List (KeyValue F))} (hperm : order.Perm others) :
    (entries order series).Perm (entries others series) := hperm.flatMap_right _

omit [Formats F] in
theorem total_of_timed (htimed : Timed platform align series)
    (order : List (List (KeyValue F))) :
    ∀ entry ∈ entries order series,
      dataPoint platform conversion series.startTime align entry ≠ none := by
  intro entry hentry hnone
  obtain ⟨attrs, _, hmem⟩ := List.mem_flatMap.mp hentry
  obtain ⟨s, hs, rfl⟩ := List.mem_map.mp hmem
  exact htimed.total attrs s hs (Option.map_eq_none_iff.mp hnone)

omit [Formats F] in
theorem fails_dataPoint {entry : List (KeyValue F) × Observation V} {err : Error}
    (h : dataPoint platform conversion series.startTime align entry = some (.error err)) :
    err = .valueToF64 := by
  obtain ⟨time, _, herr⟩ := Option.map_eq_some_iff.mp h
  apply conversion.fails entry.2.value
  cases hvalue : conversion.into entry.2.value with
  | error found =>
      rw [hvalue] at herr
      cases herr
      rfl
  | ok value =>
      rw [hvalue] at herr
      cases herr

/-- How an export ends, with the text that is written of the metric. -/
def rendered (found : Except Error (Option (Metric F))) : Except Error (Option Text) :=
  found.map fun metric => metric.map Metric.render

/-- A series whose snapshots have times of their own is converted into one text, or fails
in one way, for every order of its entries. -/
theorem rendered_perm (htimed : Timed platform align series)
    {order others : List (List (KeyValue F))}
    (hkeys : (order.map (KeyValue.rankedAll (R := R))).Nodup) (hperm : order.Perm others) :
    ∃ found found', intoWire platform conversion order align series = some found ∧
      intoWire platform conversion others align series = some found' ∧
      rendered found = rendered found' ∧
      ∀ metric, found = .ok (some metric) → (metric.dataPoints.map DataPoint.key).Nodup := by
  have hempty : others.isEmpty = order.isEmpty := by
    rw [Bool.eq_iff_iff, List.isEmpty_iff, List.isEmpty_iff]
    exact ⟨fun h => (h ▸ hperm).eq_nil, fun h => (h ▸ hperm.symm).eq_nil⟩
  unfold intoWire
  rw [hempty]
  split
  · refine ⟨_, _, rfl, rfl, rfl, fun metric h => ?_⟩
    cases h
  · rcases convertAll_perm (entries_perm hperm) (total_of_timed htimed order)
      (fun _ _ _ h => fails_dataPoint h) with ⟨points, points', hpoints, hpoints', hsame⟩ |
        ⟨hpoints, hpoints'⟩
    · rw [hpoints, hpoints']
      have hnodup := nodup_key htimed hkeys hpoints
      refine ⟨_, _, rfl, rfl, ?_, fun metric h => ?_⟩
      · have hemptyPoints : points'.isEmpty = points.isEmpty := by
          rw [Bool.eq_iff_iff, List.isEmpty_iff, List.isEmpty_iff]
          exact ⟨fun h => (h ▸ hsame).eq_nil, fun h => (h ▸ hsame.symm).eq_nil⟩
        show Except.ok _ = Except.ok _
        rw [metricOf, metricOf, hemptyPoints]
        split
        · rfl
        · exact congrArg _ (congrArg some (Metric.render_reordered hnodup hsame).symm)
      · have hmetric := Except.ok.inj h
        unfold metricOf at hmetric
        split at hmetric
        · cases hmetric
        · obtain rfl := Option.some_inj.mp hmetric
          exact hnodup
    · rw [hpoints, hpoints']
      refine ⟨_, _, rfl, rfl, rfl, fun metric h => ?_⟩
      cases h

end Order

end Ohnotel.Console

namespace Ohnotel.Periodic

open Foundation Atomic

/-! ## What an observer still holds -/

section Pending

variable {platform : Platform} {K V W : Type}

/-- What an observer holds is the last of what was pushed into it. -/
def Tracked.Pending (t : Tracked K V) : Prop :=
  ∀ attrs, t.observer.series attrs <:+ t.pushed attrs

theorem Tracked.Pending.observe {A T : Type} [LinearOrder K] [Record A T V] [BEq V]
    [PartialOrd V] [Sub V] [IsInitial V] {t : Tracked K V} (h : t.Pending)
    (cfg : Ohnotel.Config K A) (ts : SystemTime) (service : Service)
    (shown : BucketMap.Walkable K A) : (t.observe cfg ts service shown).Pending := by
  intro attrs
  have hobserved := SyncObserver.observed_observe ts cfg shown t.observer
  simp only [Tracked.observe]
  rcases hobserved.series attrs with hsame | ⟨value, hadded⟩
  · rw [hsame, List.drop_length, List.append_nil]
    exact h attrs
  · rw [hadded, List.drop_left]
    exact (List.suffix_append_self_iff).mpr (h attrs)

theorem Tracked.Pending.exportInto {t : Tracked K V} (batch : Option Nat) :
    (t.exportInto batch).Pending := fun _ => List.nil_suffix

namespace Worker

variable [LinearOrder K] {config : Config} {start : CollectorTime} {w w' : Worker K W}

theorem pending_step (h : ∀ r ∈ w.observers, r.tracked.Pending) {event : Event K W}
    (hstep : Worker.step platform w event = some w') :
    ∀ r ∈ w'.observers, r.tracked.Pending :=
  forall_observers_step (fun _ _ _ _ => List.nil_suffix) (fun _ _ _ _ hr => hr.observe _ _ _ _)
    (fun _ _ _ => Tracked.Pending.exportInto _) h hstep

theorem pending_run {events : List (Event K W)}
    (hrun : (Worker.step platform).run (new config start) events = some w) :
    ∀ r ∈ w.observers, r.tracked.Pending :=
  StepFn.invariant_of_step (fun w : Worker K W => ∀ r ∈ w.observers, r.tracked.Pending)
    (fun _ _ _ _ h hstep => pending_step h hstep) (by simp [new]) hrun

end Worker

end Pending

end Ohnotel.Periodic

namespace Ohnotel.Console

open Foundation Periodic

/-! ## The exports of a worker -/

section Exports

variable {F V W : Type} [Formats F] {R : Type} [LinearOrder R] [OrderedFloat F R]
  {platform : Platform}

omit [Formats F] in
theorem timed_take {period : Duration} {t : Tracked (KeyValue F) V}
    (hordered : ∀ attrs, t.ExportedInOrder platform period attrs) (hpending : t.Pending)
    {align : Option Duration} (halign : align ∈ [none, some period]) :
    Timed platform align t.observer.take.2 where
  total attrs s hs := by
    obtain ⟨time, htime, _⟩ := (hordered attrs).times align halign
    have hsome := htime s ((hpending attrs).subset hs)
    exact ne_of_eq_of_ne hsome (Option.some_ne_none _)
  apart attrs := by
    obtain ⟨time, htime, hincreasing⟩ := (hordered attrs).times align halign
    apply (hincreasing.sublist (hpending attrs).sublist).imp_of_mem
    intro first second hfirst hsecond hlt heq
    have hfirst' : first.alignTs platform t.observer.startTime align = some (time first) :=
      htime first ((hpending attrs).subset hfirst)
    have hsecond' : second.alignTs platform t.observer.startTime align = some (time second) :=
      htime second ((hpending attrs).subset hsecond)
    have hsame : some (time first) = some (time second) := by
      rw [← hfirst', ← hsecond']
      exact heq
    exact hlt.ne (Option.some_inj.mp hsame)

variable [LinearOrder (KeyValue F)] {config : Periodic.Config} {start : CollectorTime}
  {events : List (Event (KeyValue F) W)} {w : Worker (KeyValue F) W}

/-- In every run whose ticks can be represented, an export of an observer gives the console
one text for every order of its hash map, it does not panic, and it has no two points with
one time and one attribute set. -/
theorem exports_in_any_order
    (hfits : (Worker.step platform).Along (Worker.Representable platform) (Worker.new config start)
      events)
    (hrun : (Worker.step platform).run (Worker.new config start) events = some w) :
    ∀ r ∈ w.observers, r.tracked.served.length ≤ 2 ^ 64 →
      ∀ (conversion : IntoWire F r.dyn.Value) (order others : List (List (KeyValue F))),
        (order.map (KeyValue.rankedAll (R := R))).Nodup → order.Perm others →
          ∃ found found',
            intoWire platform conversion order w.align r.tracked.observer.take.2 = some found ∧
            intoWire platform conversion others w.align r.tracked.observer.take.2 = some found' ∧
            rendered found = rendered found' ∧
            ∀ metric, found = .ok (some metric) → (metric.dataPoints.map DataPoint.key).Nodup := by
  intro r hr hfew conversion order others hkeys hperm
  have hinv := Worker.onSchedule_run hfits hrun
  have hperiod : 0 < w.observeTimer.period := hinv.timer_period ▸ config.pollPeriod_pos
  have halign : w.align ∈ [none, some w.observeTimer.period] := by
    unfold Worker.align
    rw [hinv.timer_period, hinv.pollPeriod]
    split <;> simp
  have hordered := (hinv.observers r hr).exportedInOrder hinv.timer_start hperiod hfew
  exact rendered_perm (timed_take hordered (Worker.pending_run hrun r hr) halign) hkeys hperm

end Exports

/-! ## A counter with two series -/

def route : KeyValue WholeFloat := ⟨"route", some (.string "a")⟩

/-- A map with a series without attributes and one with the route. -/
def routed {A : Type} (cfg : Config (KeyValue WholeFloat) A) :
    BucketMap.Walkable (KeyValue WholeFloat) A :=
  let created := BucketMap.Walkable.ofInv
    (BucketMap.inv_getOrCreate (BucketMap.inv_withStorage cfg Set.univ) (Set.mem_univ [route]))
  { buckets := { created.buckets with noAttrTouched := true }
    nodup := created.nodup
    nonempty := created.nonempty
    noAttr := created.noAttr }

def routedObserver : BoxedDynObserver (KeyValue WholeFloat) Unit where
  dyn :=
    { Cell := UInt64
      Measure := UInt64
      Value := UInt64
      cfg := ⟨⟨fun _ => 0, AttrFingerprint.sum⟩, 7, .stack⟩
      intoWire := fun _ _ => some (.ok none) }
  observer :=
    { startTime := 0
      seq := 0
      id := ⟨"requests", "", ""⟩
      series := fun _ => []
      lastValues := none
      observeMode := .direct
      kind := .counter }

/-- The observer joins at 10 and is observed there. -/
def observedRoutes : List (Event (KeyValue WholeFloat) Unit) :=
  [.wake 0 0 0 (fun _ dyn => routed dyn.cfg) .sent, .add routedObserver,
    .wake 10 10 10 (fun _ dyn => routed dyn.cfg) .sent]

def wholeNumbers : IntoWire WholeFloat UInt64 := numbers fun value => some (.whole value.toNat)

theorem exports_in_any_order_routed :
    ∃ w, (Worker.step roomy).run (Worker.new everyTen ⟨0, 0⟩) observedRoutes = some w ∧
      ∃ r ∈ w.observers, ∃ conversion : IntoWire WholeFloat r.dyn.Value, ∃ found found',
        intoWire roomy conversion [[], [route]] w.align r.tracked.observer.take.2 = some found ∧
        intoWire roomy conversion [[route], []] w.align r.tracked.observer.take.2 = some found' ∧
        rendered found = rendered found' ∧
        rendered found = .ok (some
          ("CumulativeCounter requests\n  00:00:00.000  7\n" ++
            "                \x7broute=\"a\"\x7d 7").toList) := by
  have hfits : (Worker.step roomy).Along (Worker.Representable roomy) (Worker.new everyTen ⟨0, 0⟩)
      observedRoutes := by decide
  refine ⟨_, rfl, _, List.mem_singleton_self _, wholeNumbers, ?_⟩
  have hexported := exports_in_any_order (R := WholeFloat) hfits rfl _ (List.mem_singleton_self _)
    (by decide) wholeNumbers [[], [route]] [[route], []] (by decide) (by decide)
  obtain ⟨found, found', hfound, hfound', hsame, _⟩ := hexported
  refine ⟨found, found', hfound, hfound', hsame, ?_⟩
  rw [← Option.some_inj.mp hfound]
  rfl

end Ohnotel.Console
