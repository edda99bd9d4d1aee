/-
# What a backend is sent

The sender of OTLP puts every batch it is handed into one request.  A backend does not see
the counter or its observer: it has the metrics of the requests, each with its points, and
adds up the points that bear one name and one set of attributes.

What it ends up with is what the application had added to the set.
-/

import Ohnotel.Collect.Batches
import Ohnotel.Collect.Pipeline
import Ohnotel.Otel.FailedExport

namespace Ohnotel.Otel

open Foundation Atomic Periodic

variable {F : Type}

/-! ## Requests -/

/-- `proto::Metric`, whatever its points are. -/
inductive AnyMetric (F : Type)
  | numbers (metric : Metric F (NumberValue F))
  | histograms (metric : Metric F (HistogramValue F))

def AnyMetric.name : AnyMetric F → String
  | .numbers metric => metric.name
  | .histograms metric => metric.name

structure InstrumentationScope (F : Type) where
  name : String
  version : String
  attributes : List (Attribute F)

structure ScopeMetrics (F : Type) where
  scope : Option (InstrumentationScope F)
  metrics : List (AnyMetric F)
  schemaUrl : String

structure ResourceMetrics (F : Type) where
  resource : Option (List (Attribute F))
  scopeMetrics : List (ScopeMetrics F)
  schemaUrl : String

structure ExportMetricsServiceRequest (F : Type) where
  resourceMetrics : List (ResourceMetrics F)

structure Tonic (F : Type) where
  resource : Option (List (Attribute F))
  scope : Option (InstrumentationScope F)
  schemaUrl : String

/-- `Tonic::build_request`. -/
def Tonic.buildRequest (tonic : Tonic F) (metrics : List (AnyMetric F)) :
    ExportMetricsServiceRequest F where
  resourceMetrics :=
    [{ resource := tonic.resource
       scopeMetrics :=
         [{ scope := tonic.scope
            metrics := metrics
            schemaUrl := tonic.schemaUrl }]
       schemaUrl := tonic.schemaUrl }]

def ExportMetricsServiceRequest.metrics (request : ExportMetricsServiceRequest F) :
    List (AnyMetric F) :=
  request.resourceMetrics.flatMap fun resource => resource.scopeMetrics.flatMap ScopeMetrics.metrics

@[simp]
theorem metrics_buildRequest (tonic : Tonic F) (metrics : List (AnyMetric F)) :
    (tonic.buildRequest metrics).metrics = metrics := by
  simp [ExportMetricsServiceRequest.metrics, Tonic.buildRequest]

/-! ## What a backend adds up -/

/-- The number of a point, if it is whole. -/
def NumberValue.whole : NumberValue F → Int
  | .asInt value => value.toInt
  | .asDouble _ => 0

open Classical in
/-- What the points of a metric add up to that bear the attributes. -/
noncomputable def AnyMetric.sumOf (attrs : List (KeyValue F)) : AnyMetric F → Int
  | .numbers metric =>
      ((metric.data.dataPoints.filter fun point => point.attributes = mapAttrs attrs).map
        fun point => point.value.whole).sum
  | .histograms _ => 0

/-- What the points add up to that bear the name and the attributes. -/
noncomputable def sumOf (name : String) (attrs : List (KeyValue F))
    (requests : List (ExportMetricsServiceRequest F)) : Int :=
  (((requests.flatMap ExportMetricsServiceRequest.metrics).filter
    fun metric => metric.name = name).map (AnyMetric.sumOf attrs)).sum

/-! ## One series -/

section Series

variable {V P : Type} {platform : Platform}

theorem toInt_toInt64 {value : UInt64} (hlt : value.toNat < 2 ^ 63) :
    value.toInt64.toInt = value.toNat := by
  show value.toBitVec.toInt = value.toNat
  rw [BitVec.toInt_eq_toNat_of_lt]
  · rfl
  · show 2 * value.toNat < 2 ^ 64
    lia

theorem whole_of_intoNumberU64 {value : UInt64} {number : NumberValue F}
    (h : intoNumberU64 value = .ok number) : number.whole = value.toNat := by
  rw [intoNumberU64] at h
  split at h
  · next hlt =>
      obtain rfl := Except.ok.inj h
      exact toInt_toInt64 hlt
  · cases h

variable [LinearOrder (KeyValue F)]

open Classical in
/-- The points for a list of attributes show the snapshots that were filed under it. -/
theorem sum_points {startTime : SystemTime} {align : Option Duration}
    {snapshots : List (List (KeyValue F) × Observation UInt64)}
    {points : List (DataPoint F (NumberValue F))}
    (h : List.Forall₂ (DataPoint.Shows platform intoNumberU64 startTime align) snapshots points)
    (attrs : List (KeyValue F)) :
    ((points.filter fun point => point.attributes = mapAttrs attrs).map
        fun point => point.value.whole).sum =
      ((snapshots.filter fun entry => entry.1 = attrs).map
        fun entry => (entry.2.value.toNat : Int)).sum := by
  induction h with
  | nil => rfl
  | @cons entry point entries points hshows _ ih =>
      have hwhole := whole_of_intoNumberU64 hshows.value
      by_cases hsame : entry.1 = attrs
      · have hattributes : point.attributes = mapAttrs attrs :=
          hshows.attributes.trans (by rw [hsame])
        simp only [List.filter_cons, hattributes, hsame, decide_true, if_true, List.map_cons,
          List.sum_cons, ih, hwhole]
      · have hattributes : point.attributes ≠ mapAttrs attrs := fun heq =>
          hsame (mapAttrs_injective (hshows.attributes.symm.trans heq))
        simp only [List.filter_cons, hattributes, hsame, decide_false, Bool.false_eq_true,
          if_false, ih]

/-- A walk that meets the entries once meets those of a list of attributes together. -/
theorem filter_entries {order : List (List (KeyValue F))} (hnodup : order.Nodup)
    {series : SeriesMap (KeyValue F) V} {attrs : List (KeyValue F)}
    (hmem : series attrs ≠ [] → attrs ∈ order) :
    (entries order series).filter (fun entry => entry.1 = attrs) =
      (series attrs).map fun snapshot => (attrs, snapshot) := by
  have hsplit : ∀ order : List (List (KeyValue F)), order.Nodup →
      (entries order series).filter (fun entry => entry.1 = attrs) =
        if attrs ∈ order then (series attrs).map fun snapshot => (attrs, snapshot) else [] := by
    intro order hnodup
    induction order with
    | nil => rfl
    | cons first rest ih =>
        obtain ⟨hfirst, hrest⟩ := List.nodup_cons.mp hnodup
        have hhere : entries (first :: rest) series =
            (series first).map (fun snapshot => (first, snapshot)) ++ entries rest series :=
          List.flatMap_cons
        rw [hhere, List.filter_append, ih hrest]
        by_cases hsame : first = attrs
        · subst hsame
          simp [hfirst, List.filter_map, Function.comp_def]
        · simp [hsame, Ne.symm hsame, List.filter_map, Function.comp_def]
  rw [hsplit order hnodup]
  split
  · rfl
  · next hnot =>
      have hnothing : series attrs = [] := by
        by_contra hne
        exact hnot (hmem hne)
      rw [hnothing, List.map_nil]

omit [LinearOrder (KeyValue F)] in
/-- A metric bears the name of its series and has the data of its kind and mode. -/
theorem IntoWire.metric_of_intoWire {conversion : IntoWire F V P}
    {order : List (List (KeyValue F))} {align : Option Duration} {series : Series (KeyValue F) V}
    {metric : Metric F P}
    (h : conversion.intoWire platform order align series = some (.ok (some metric))) :
    metric.name = series.id.name ∧
      conversion.data series.kind (temporality series.observeMode) metric.data.dataPoints =
        some metric.data := by
  rw [IntoWire.intoWire] at h
  split at h
  case isTrue => simp at h
  case isFalse =>
    cases hstart : mapTime series.startTime with
    | error err => simp [hstart] at h
    | ok startNanos =>
        simp only [hstart] at h
        split at h
        · simp at h
        · simp at h
        · simp at h
        · obtain ⟨data, hdata, hmetric⟩ := Option.map_eq_some_iff.mp h
          obtain rfl := Option.some.inj (Except.ok.inj hmetric)
          refine ⟨rfl, ?_⟩
          rw [conversion.dataPoints_data hdata]
          exact hdata

end Series

/-! ## A counter that reports deltas -/

variable [LinearOrder (KeyValue F)]

/-- A counter that is exported to OTLP, the entries of each series in the order in which a
walk meets them. -/
def counter (platform : Platform)
    (order : Series (KeyValue F) UInt64 → List (List (KeyValue F)))
    (hasher : BuildHasher (KeyValue F)) (layout : Layout) :
    DynObserver (KeyValue F) (AnyMetric F) where
  Cell := UInt64
  Measure := UInt64
  Value := UInt64
  cfg := .withHasher UInt64 hasher layout
  intoWire series align :=
    ((numbers intoNumberU64).intoWire platform (order series) align series).map fun answer =>
      answer.map (Option.map .numbers)

variable {platform : Platform} {order : Series (KeyValue F) UInt64 → List (List (KeyValue F))}
  {hasher : BuildHasher (KeyValue F)} {layout : Layout}

omit [LinearOrder (KeyValue F)] in
instance : LawfulBEq (counter platform order hasher layout).Value :=
  inferInstanceAs (LawfulBEq UInt64)

/-- The walk meets every entry of the series, each once. -/
structure Walks (order : Series (KeyValue F) UInt64 → List (List (KeyValue F)))
    (series : Series (KeyValue F) UInt64) : Prop where
  nodup : (order series).Nodup
  mem : ∀ attrs, series.series attrs ≠ [] → attrs ∈ order series

omit [LinearOrder (KeyValue F)] in
theorem metric_of_counter {series : Series (KeyValue F) UInt64} {align : Option Duration}
    {wire : AnyMetric F}
    (h : (counter platform order hasher layout).intoWire series align =
      some (.ok (some wire))) :
    ∃ metric, wire = .numbers metric ∧
      (numbers intoNumberU64).intoWire platform (order series) align series =
        some (.ok (some metric)) := by
  obtain ⟨answer, hanswer, hwire⟩ := Option.map_eq_some_iff.mp h
  match answer, hwire with
  | .ok (some metric), rfl => exact ⟨metric, rfl, hanswer⟩

/-- The points of an export add up to the snapshots that were exported. -/
theorem sumOf_counter {series : Series (KeyValue F) UInt64} {align : Option Duration}
    {wire : AnyMetric F} (hwalks : Walks order series)
    (h : (counter platform order hasher layout).intoWire series align = some (.ok (some wire)))
    (attrs : List (KeyValue F)) :
    wire.sumOf attrs =
      (((series.series attrs).map fun snapshot => snapshot.value.toNat).sum : Nat) := by
  obtain ⟨metric, rfl, hmetric⟩ := metric_of_counter h
  have hshows := shows_of_intoWire hmetric
  rw [AnyMetric.sumOf]
  refine (sum_points hshows attrs).trans ?_
  rw [filter_entries hwalks.nodup (hwalks.mem attrs), List.map_map, Nat.cast_list_sum,
    List.map_map]
  rfl

/-- A delta observer of the counter that was observed and holds nothing more, the only one
whose series are exported under its name. -/
structure Reports (platform : Platform)
    (order : Series (KeyValue F) UInt64 → List (List (KeyValue F)))
    (hasher : BuildHasher (KeyValue F)) (layout : Layout)
    (w : Worker (KeyValue F) (AnyMetric F)) (t : Tracked (KeyValue F) UInt64) : Prop where
  alone : ∃ before after,
    w.observers = before ++ ⟨counter platform order hasher layout, t⟩ :: after ∧
    ∀ r ∈ before ++ after, ∀ handed ∈ r.tracked.delivered, ∀ metric,
      r.dyn.intoWire handed.2 w.align = some (.ok (some metric)) →
        metric.name ≠ t.observer.id.name
  walks : ∀ handed ∈ t.delivered, Walks order handed.2
  observeMode : t.observer.observeMode = .delta
  kind : t.observer.kind = .counter
  served : t.served ≠ []
  empty : ∀ attrs, t.observer.series attrs = []

theorem labelled_run {dyn : DynObserver (KeyValue F) (AnyMetric F)} {config : Periodic.Config}
    {batchCapacity : Option ℕ+} {start : CollectorTime} {turns : List (PipelineTurn dyn)}
    {last : Pipeline dyn}
    (hrun : (Pipeline.step platform).run (Pipeline.new dyn config batchCapacity start) turns =
      some last) : ∀ r ∈ last.dispatch.worker.observers, r.tracked.Labelled := by
  refine StepFn.invariant_of_step
    (fun s : Pipeline dyn => ∀ r ∈ s.dispatch.worker.observers, r.tracked.Labelled) ?_
    (fun r hr => (List.not_mem_nil hr).elim) hrun
  intro turn _ s s' h hstep
  cases turn with
  | add value attrs =>
      obtain rfl := Option.some_inj.mp hstep
      exact h
  | dispatch turn =>
      obtain ⟨dispatch, hdispatch, rfl⟩ := Option.map_eq_some_iff.mp hstep
      rcases Dispatch.worker_of_step hdispatch with ⟨event, rfl, hworker⟩ | ⟨_, hsame⟩
      · exact Worker.labelled_step h hworker
      · exact hsame ▸ h

/-- What a metric counts for. -/
noncomputable def countOf (name : String) (attrs : List (KeyValue F)) (metric : AnyMetric F) :
    Int :=
  if metric.name = name then metric.sumOf attrs else 0

omit [LinearOrder (KeyValue F)] in
theorem sumOf_requests (name : String) (attrs : List (KeyValue F)) (tonic : Tonic F)
    (batches : List (List (AnyMetric F))) :
    sumOf name attrs (batches.map tonic.buildRequest) =
      (batches.flatten.map (countOf name attrs)).sum := by
  have hmetrics : (batches.map tonic.buildRequest).flatMap ExportMetricsServiceRequest.metrics =
      batches.flatten := by
    rw [List.flatMap_map]
    simp [List.flatMap]
  rw [sumOf, hmetrics]
  induction batches.flatten with
  | nil => rfl
  | cons metric rest ih =>
      by_cases hname : metric.name = name
      · simp [countOf, hname, ih]
      · simp [countOf, hname, ih]

/-- What the series count for that an observer handed over. -/
noncomputable def countOfObserver (name : String) (attrs : List (KeyValue F))
    (align : Option Duration) (r : Registered (KeyValue F) (AnyMetric F)) : Int :=
  (r.tracked.delivered.map fun handed =>
    (Worker.emitted (r.dyn.intoWire handed.2 align)).elim 0 (countOf name attrs)).sum

omit [LinearOrder (KeyValue F)] in
/-- The series of the reporting observer are all that counts. -/
theorem Reports.sum_batches {w : Worker (KeyValue F) (AnyMetric F)}
    {t : Tracked (KeyValue F) UInt64} (h : Reports platform order hasher layout w t)
    (haccounted : w.Accounted) (attrs : List (KeyValue F)) :
    (w.batches.flatten.map (countOf t.observer.id.name attrs)).sum =
      countOfObserver t.observer.id.name attrs w.align
        ⟨counter platform order hasher layout, t⟩ := by
  obtain ⟨before, after, hobservers, hothers⟩ := h.alone
  have hnothing : ∀ others ⊆ before ++ after,
      (others.map (countOfObserver t.observer.id.name attrs w.align)).sum = 0 := by
    intro others hsub
    apply List.sum_eq_zero
    intro count hcount
    obtain ⟨r, hr, rfl⟩ := List.mem_map.mp hcount
    apply List.sum_eq_zero
    intro count hcount
    obtain ⟨handed, hhanded, rfl⟩ := List.mem_map.mp hcount
    cases hemitted : Worker.emitted (r.dyn.intoWire handed.2 w.align) with
    | none => rfl
    | some metric =>
        exact if_neg (hothers r (hsub hr) handed hhanded metric
          (Worker.eq_of_emitted_eq_some hemitted))
  have hall : (w.batches.flatten.map (countOf t.observer.id.name attrs)).sum =
      (w.observers.map (countOfObserver t.observer.id.name attrs w.align)).sum :=
    haccounted.sum_batches _
  rw [hall, hobservers, List.map_append, List.map_cons, List.sum_append, List.sum_cons,
    hnothing before (List.subset_append_left _ _), hnothing after (List.subset_append_right _ _),
    zero_add, add_zero]

omit [LinearOrder (KeyValue F)] in
/-- A payload in a batch is one that an observer handed over. -/
theorem exists_handed {w : Worker (KeyValue F) (AnyMetric F)} (h : w.Accounted)
    {batch : List (AnyMetric F)} (hbatch : batch ∈ w.batches) {metric : AnyMetric F}
    (hmetric : metric ∈ batch) :
    ∃ r ∈ w.observers, ∃ handed ∈ r.tracked.delivered,
      r.dyn.intoWire handed.2 w.align = some (.ok (some metric)) := by
  obtain ⟨n, hn⟩ := List.mem_iff_getElem?.mp hbatch
  have hmem : some metric ∈ batch.map some := List.mem_map_of_mem hmetric
  rw [h.batches n batch hn] at hmem
  obtain ⟨r, hr, hpayload⟩ := List.mem_flatMap.mp hmem
  obtain ⟨handed, hhanded, hemitted⟩ := List.mem_map.mp hpayload
  exact ⟨r, hr, handed, (List.mem_filter.mp hhanded).1, Worker.eq_of_emitted_eq_some hemitted⟩

/-- From the application to the backend: however additions, observations, exports, the task
and other metrics fall, once the task has ended by itself and the only delta observer of a
name holds nothing more, what a backend adds up under the name is for every attribute set
exactly what had been added to the set when the counter was last observed.  Every metric it
has under the name is a monotonic sum of deltas. -/
theorem backend_adds_up_what_was_added (tonic : Tonic F) {config : Periodic.Config}
    {batchCapacity : Option ℕ+} {start : CollectorTime}
    {turns : List (PipelineTurn (counter platform order hasher layout))}
    {last : Pipeline (counter platform order hasher layout)}
    (hfree : CollisionFree (.withHasher UInt64 hasher layout) (PipelineTurn.listsOf turns))
    (hflows : (Pipeline.step platform).Along (Pipeline.Flows platform)
      (Pipeline.new _ config batchCapacity start) turns)
    (hrun : (Pipeline.step platform).run (Pipeline.new _ config batchCapacity start) turns =
      some last)
    (hbounded : ∀ set, ((last.added set).map UInt64.toNat).sum < 2 ^ 64)
    (hfinished : last.dispatch.task = .finished) :
    ∀ t, Reports platform order hasher layout last.dispatch.worker t →
      (∀ set : Finset (KeyValue F), sumOf t.observer.id.name (set.sort (· ≤ ·))
        (last.dispatch.forwarded.map tonic.buildRequest) =
          (((last.seen set).map UInt64.toNat).sum : Nat)) ∧
      ∀ request ∈ last.dispatch.forwarded.map tonic.buildRequest, ∀ metric ∈ request.metrics,
        metric.name = t.observer.id.name → ∃ reported points,
          metric = .numbers reported ∧ reported.data = .sum points .delta true := by
  intro t hreports
  have hkeeps : Pipeline.Keeps (PipelineTurn.listsOf turns) counterMeter last :=
    (Pipeline.keeps_new config batchCapacity start).run hfree (subset_refl _) hflows hrun
      fun set _ => hbounded set
  obtain ⟨before, after, hobservers, hothers⟩ := hreports.alone
  have ht : ⟨counter platform order hasher layout, t⟩ ∈ last.dispatch.worker.observers :=
    hobservers ▸ List.mem_append_right before List.mem_cons_self
  have hlabelled : t.Labelled := labelled_run hrun _ ht
  rw [hkeeps.forwarded_eq hfinished]
  refine ⟨fun set => ?_, fun request hrequest metric hmetric hname => ?_⟩
  · have hcount : ∀ handed ∈ t.delivered,
        (Worker.emitted ((counter platform order hasher layout).intoWire handed.2
          last.dispatch.worker.align)).elim 0 (countOf t.observer.id.name (set.sort (· ≤ ·))) =
        (((handed.2.series (set.sort (· ≤ ·))).map
          fun snapshot => snapshot.value.toNat).sum : Nat) := by
      intro handed hhanded
      obtain ⟨payload, _, hwire, _, _⟩ := Pipeline.exists_payload hkeeps.accounted ht hhanded
      obtain ⟨metric, rfl, hmetric⟩ := metric_of_counter hwire
      have hname : metric.name = t.observer.id.name :=
        (IntoWire.metric_of_intoWire hmetric).1.trans (by rw [(hlabelled handed hhanded).1])
      rw [hwire]
      exact (if_pos hname).trans (sumOf_counter (hreports.walks handed hhanded) hwire _)
    have htotal := hkeeps.total_delivered ht hreports.observeMode hreports.served hreports.empty
      set ()
    have hvalues : (t.delivered.map fun handed => ((handed.2.series (set.sort (· ≤ ·))).map
        fun snapshot => snapshot.value.toNat).sum).sum =
        ((last.seen set).map UInt64.toNat).sum := by
      rw [List.map_flatMap, List.flatMap, List.sum_flatten, List.map_map] at htotal
      simp only [Function.comp_def, List.map_map] at htotal
      exact htotal
    rw [sumOf_requests, hreports.sum_batches hkeeps.accounted, ← hvalues, Nat.cast_list_sum,
      List.map_map]
    exact congrArg List.sum (List.map_congr_left hcount)
  · obtain ⟨batch, hbatch, rfl⟩ := List.mem_map.mp hrequest
    rw [metrics_buildRequest] at hmetric
    obtain ⟨r, hr, handed, hhanded, hwire⟩ := exists_handed hkeeps.accounted hbatch hmetric
    rw [hobservers] at hr
    rcases List.mem_append.mp hr with hbefore | hrest
    · exact absurd hname (hothers r (List.mem_append_left _ hbefore) handed hhanded metric hwire)
    · rcases List.mem_cons.mp hrest with rfl | hafter
      · obtain ⟨reported, rfl, hreported⟩ := metric_of_counter hwire
        have hdata := (IntoWire.metric_of_intoWire hreported).2
        obtain ⟨_, hkind, hmode⟩ := hlabelled handed hhanded
        rw [hkind, hmode, hreports.kind, hreports.observeMode] at hdata
        exact ⟨reported, _, rfl, (Option.some.inj hdata).symm⟩
      · exact absurd hname (hothers r (List.mem_append_right _ hafter) handed hhanded metric hwire)

/-! ## Five is added -/

/-- A walk over a series that has entries under no attributes at most. -/
def noAttrWalk (series : Series (KeyValue Nat) UInt64) : List (List (KeyValue Nat)) :=
  if (series.series []).isEmpty then [] else [[]]

def visits : DynObserver (KeyValue Nat) (AnyMetric Nat) :=
  counter roomy noAttrWalk ⟨fun _ => 0, AttrFingerprint.sum⟩ .stack

def visitsObserver : SyncObserver (KeyValue Nat) UInt64 where
  startTime := 0
  seq := 0
  id := ⟨"visits", "", ""⟩
  series := fun _ => []
  lastValues := some fun _ => none
  observeMode := .delta
  kind := .counter

def fiveVisits : BucketMap.Walkable (KeyValue Nat) visits.Cell where
  buckets := (BucketMap.withStorage visits.cfg).add visits.cfg (5 : UInt64) []
  nodup := List.nodup_nil
  nonempty := by
    simp [BucketMap.add, BucketMap.writeNoAttr, BucketMap.withStorage, BucketMap.modifyCell]
  noAttr := rfl

open Classical in
/-- What the observers are shown; those of the counter are shown its map. -/
noncomputable def shownVisits (_ : Nat) (dyn : DynObserver (KeyValue Nat) (AnyMetric Nat)) :
    BucketMap.Walkable (KeyValue Nat) dyn.Cell :=
  if h : dyn = visits then h ▸ fiveVisits
  else
    { buckets := BucketMap.withStorage dyn.cfg
      nodup := List.nodup_nil
      nonempty := by simp [BucketMap.withStorage]
      noAttr := rfl }

theorem shownVisits_visits (n : Nat) : shownVisits n visits = fiveVisits := by
  unfold shownVisits
  exact dif_pos rfl

/-- Five is added, a delta observer joins at 10 and is observed there. -/
noncomputable def visitsSeen : List (PipelineTurn visits) :=
  [.add (5 : UInt64) [], .dispatch (.worker (.wake 0 0 0 shownVisits .sent)),
    .dispatch (.worker (.add ⟨visits, visitsObserver⟩)),
    .dispatch (.worker (.wake 10 10 10 shownVisits .sent))]

/-- The shutdown at 100 exports, and the task sends the batch. -/
def visitsSent : List (PipelineTurn visits) :=
  [.dispatch (.worker (.shutdown 100 100 .sent)), .dispatch .recv, .dispatch .gate,
    .dispatch .sent, .dispatch .finish]

/-- The observer after it was observed. -/
def visitsTracked (startTime ts : SystemTime) (tick : Instant) (service : Service)
    (shown : BucketMap.Walkable (KeyValue Nat) visits.Cell) : Tracked (KeyValue Nat) UInt64 :=
  (Tracked.join visitsObserver startTime tick).observe visits.cfg ts service shown

def visitsPipeline (t : Tracked (KeyValue Nat) UInt64) : Pipeline visits where
  map := (BucketMap.withStorage visits.cfg).add visits.cfg (5 : UInt64) []
  dispatch :=
    { (Dispatch.new everyTen none ⟨0, 0⟩ true : Dispatch (KeyValue Nat) (AnyMetric Nat)) with
      worker :=
        { (Worker.new everyTen ⟨0, 0⟩ : Worker (KeyValue Nat) (AnyMetric Nat)) with
          phase := .receiving
          clock := 10
          observers := [⟨visits, t⟩]
          observeTimer := ((GridTimer.new 0 10).advance roomy 0).advance roomy 10
          exportTimer := (GridTimer.new 0 100).advance roomy 0 } }
  added := BucketMap.holding (fun _ => []) (5 : UInt64) []
  seen := BucketMap.holding (fun _ => []) (5 : UInt64) []

theorem run_visitsSeen :
    ∃ startTime ts tick service,
      (Pipeline.step roomy).run (Pipeline.new visits everyTen none ⟨0, 0⟩) visitsSeen =
        some (visitsPipeline (visitsTracked startTime ts tick service fiveVisits)) ∧
      startTime = 10 ∧ ts = 10 := by
  rw [← shownVisits_visits 0]
  exact ⟨_, _, _, _, rfl, by decide +kernel, by decide +kernel⟩

theorem run_visitsSent (tick : Instant) (service : Service) :
    ∃ last, (Pipeline.step roomy).run
        (visitsPipeline (visitsTracked 10 10 tick service fiveVisits)) visitsSent = some last ∧
      last.dispatch.worker.observers =
        [⟨visits, (visitsTracked 10 10 tick service fiveVisits).exportInto (some 0)⟩] ∧
      last.added = BucketMap.holding (fun _ => []) (5 : UInt64) [] ∧
      last.seen = BucketMap.holding (fun _ => []) (5 : UInt64) [] ∧
      last.dispatch.task = .finished :=
  ⟨_, rfl, rfl, rfl, rfl, rfl⟩

theorem flows_visitsSeen :
    (Pipeline.step roomy).Along (Pipeline.Flows roomy) (Pipeline.new visits everyTen none ⟨0, 0⟩)
      visitsSeen := by
  refine (StepFn.along_cons_of_eq_some rfl).mpr ⟨trivial, ?_⟩
  refine (StepFn.along_cons_of_eq_some rfl).mpr ⟨⟨?_, fun n => ?_⟩, ?_⟩
  · intro observed hobserved _
    obtain rfl := Option.some.inj hobserved
    exact ⟨rfl, fun r hr => (List.not_mem_nil hr).elim⟩
  · rw [shownVisits_visits]
    rfl
  refine (StepFn.along_cons_of_eq_some rfl).mpr ⟨⟨trivial, ?_⟩, ?_⟩
  · intro observer hobserver
    obtain rfl := eq_of_heq ((BoxedDynObserver.mk.injEq _ _ _ _).mp hobserver).2
    exact ⟨⟨"visits", "", ""⟩, .counter, .delta, 0, by decide, rfl⟩
  refine StepFn.along_cons.mpr ⟨⟨?_, fun n => ?_⟩, fun _ _ => trivial⟩
  · intro observed hobserved hdue
    obtain rfl := Option.some.inj hobserved
    exact absurd hdue (by decide)
  · rw [shownVisits_visits]
    rfl

theorem flows_visitsSent (tick : Instant) (service : Service) :
    (Pipeline.step roomy).Along (Pipeline.Flows roomy)
      (visitsPipeline (visitsTracked 10 10 tick service fiveVisits)) visitsSent := by
  refine (StepFn.along_cons_of_eq_some rfl).mpr ⟨⟨fun _ => ⟨rfl, ?_⟩, trivial⟩, ?_⟩
  · intro r hr
    obtain rfl := List.mem_singleton.mp hr
    exact ⟨some _, rfl, by simp⟩
  · refine (StepFn.along_cons_of_eq_some rfl).mpr ⟨trivial, ?_⟩
    refine (StepFn.along_cons_of_eq_some rfl).mpr ⟨trivial, ?_⟩
    refine (StepFn.along_cons_of_eq_some rfl).mpr ⟨trivial, ?_⟩
    exact StepFn.along_cons.mpr ⟨trivial, fun _ _ => trivial⟩

theorem collisionFree_visits :
    CollisionFree visits.cfg (PipelineTurn.listsOf (visitsSeen ++ visitsSent)) := by
  refine CollisionFree.of_perm [] fun attrs hattrs => ?_
  obtain ⟨value, hmem⟩ := hattrs
  simp only [visitsSeen, visitsSent, List.cons_append, List.nil_append, List.mem_cons,
    reduceCtorEq, List.not_mem_nil, or_false] at hmem
  rw [((PipelineTurn.add.injEq _ _ _ _).mp hmem).2]

/-- Five is added, and five is what a backend adds up. -/
theorem backend_adds_up_what_was_added_five :
    ∃ last : Pipeline visits,
      (Pipeline.step roomy).run (Pipeline.new visits everyTen none ⟨0, 0⟩)
        (visitsSeen ++ visitsSent) = some last ∧
      sumOf "visits" ((∅ : Finset (KeyValue Nat)).sort (· ≤ ·))
        (last.dispatch.forwarded.map (Tonic.buildRequest ⟨none, none, ""⟩)) = 5 := by
  obtain ⟨_, _, tick, service, hseen, rfl, rfl⟩ := run_visitsSeen
  obtain ⟨last, hsent, hobservers, hadded, hlast, hfinished⟩ := run_visitsSent tick service
  have hrun : (Pipeline.step roomy).run (Pipeline.new visits everyTen none ⟨0, 0⟩)
      (visitsSeen ++ visitsSent) = some last :=
    (StepFn.run_append_eq_some _).mpr ⟨_, hseen, hsent⟩
  have hflows : (Pipeline.step roomy).Along (Pipeline.Flows roomy)
      (Pipeline.new visits everyTen none ⟨0, 0⟩) (visitsSeen ++ visitsSent) := by
    refine StepFn.along_append.mpr ⟨flows_visitsSeen, fun middle hmiddle => ?_⟩
    obtain rfl := Option.some.inj (hseen.symm.trans hmiddle)
    exact flows_visitsSent tick service
  have hbounded : ∀ set, ((last.added set).map UInt64.toNat).sum < 2 ^ 64 := by
    intro set
    rw [hadded]
    by_cases hset : set = ∅
    · subst hset
      exact (by decide : 5 < 2 ^ 64)
    · simp [BucketMap.holding, Function.update_of_ne hset]
  have hreports : Reports roomy noAttrWalk ⟨fun _ => 0, AttrFingerprint.sum⟩ .stack
      last.dispatch.worker
      ((visitsTracked 10 10 tick service fiveVisits).exportInto (some 0)) :=
    { alone := ⟨[], [], hobservers, fun _ hr => (List.not_mem_nil hr).elim⟩
      walks := by
        intro handed hhanded
        obtain rfl := List.mem_singleton.mp hhanded
        refine ⟨List.nodup_singleton [], fun attrs hattrs => ?_⟩
        by_contra hnot
        exact hattrs (Function.update_of_ne (fun heq => hnot (List.mem_singleton.mpr heq)) _ _)
      observeMode := rfl
      kind := rfl
      served := List.cons_ne_nil _ _
      empty := fun _ => rfl }
  obtain ⟨htotal, _⟩ := backend_adds_up_what_was_added ⟨none, none, ""⟩ collisionFree_visits hflows
    hrun hbounded hfinished _ hreports
  refine ⟨last, hrun, (htotal ∅).trans ?_⟩
  rw [hlast]
  rfl

end Ohnotel.Otel
