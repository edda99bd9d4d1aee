/-
# What is rendered are lines of the format

The text that is rendered for a point consists of the lines of its samples, and the text
of a family of the lines that start it and those of its points, in the order of their
labels.
-/

import Ohnotel.Prometheus.Collector
import Ohnotel.Prometheus.Labels

namespace Ohnotel.Prometheus

open Foundation

variable {F : Type} [Formats F]

/-! ## Samples -/

/-- A sample of a bucket. -/
def DataPoint.bucketSample (point : DataPoint F) (name boundary : Text) (count : UInt64) :
    Sample where
  name := name ++ "_bucket".toList
  labels := point.labels ++ [("le".toList, boundary)]
  number := displayU64 count

/-- The samples of a point of a family. -/
def DataPoint.samples (point : DataPoint F) (name : Text) : List Sample :=
  match point.value with
  | .number value => [⟨name, point.labels, writeF64 value⟩]
  | .histogram h =>
      ((h.rows 0 0 h.boundaries).map fun row =>
        point.bucketSample name (writeF64 row.1) row.2) ++
      [point.bucketSample name "+Inf".toList h.count,
        ⟨name ++ "_sum".toList, point.labels, writeF64 h.sum⟩,
        ⟨name ++ "_count".toList, point.labels, displayU64 h.count⟩]

theorem labelsText_append_singleton (labels : List (Text × Text)) (label : Text × Text) :
    labelsText (labels ++ [label]) =
      (if (labelsText labels).isEmpty then [] else labelsText labels ++ [',']) ++
        labelPair label := by
  cases labels with
  | nil => simp [labelsText]
  | cons first rest =>
      have hne : ¬ (labelsText (first :: rest)).isEmpty = true := by
        simpa using labelsText_ne_nil (List.cons_ne_nil first rest)
      rw [if_neg hne]
      simp [labelsText]

/-- A bucket line is the line of a sample whose last label is `le`. -/
theorem bucketLine_eq (point : DataPoint F) (name boundary : Text)
    (hboundary : ∀ c ∈ boundary, IsNumberChar c) (count : UInt64) :
    bucketLine name (labelsText point.labels) boundary (displayU64 count) =
      (Line.sample (point.bucketSample name boundary count)).text ++ ['\n'] := by
  have hpair : labelPair ("le".toList, boundary) = "le=\"".toList ++ boundary ++ ['"'] := by
    simp [labelPair, escapeLabelValue_of_chars hboundary]
  have hne : ¬ (labelsText (point.labels ++ [("le".toList, boundary)])).isEmpty = true := by
    simpa using labelsText_ne_nil (List.append_ne_nil_of_right_ne_nil _ (List.cons_ne_nil _ _))
  rw [Line.text_sample, DataPoint.bucketSample, inBraces, if_neg hne,
    labelsText_append_singleton, hpair, bucketLine]
  simp

/-- What is rendered for a point are the lines of its samples. -/
theorem DataPoint.renderInto_eq (point : DataPoint F) (name : Text) :
    point.renderInto name (labelsText point.labels) =
      unlines '\n' ((point.samples name).map fun s => (Line.sample s).text) := by
  rw [DataPoint.renderInto, DataPoint.samples]
  cases point.value with
  | number value => simp [unlines_cons]
  | histogram h =>
      have hrows : ∀ rows : List (F × UInt64),
          (rows.flatMap fun row =>
            bucketLine name (labelsText point.labels) (writeF64 row.1) (displayU64 row.2)) =
          unlines '\n' (rows.map fun row =>
            (Line.sample (point.bucketSample name (writeF64 row.1) row.2)).text) := by
        intro rows
        induction rows with
        | nil => rfl
        | cons row rest ih =>
            rw [List.flatMap_cons, ih, bucketLine_eq point name _ (writeF64_chars row.1).2,
              List.map_cons, unlines_cons, List.append_assoc, List.singleton_append]
      have hlast := bucketLine_eq point name "+Inf".toList
        (isNumberChar_of_all (by decide)) h.count
      simp only [HistogramValue.renderInto, hrows, hlast, List.map_append, List.map_map,
        unlines_append, List.map_cons, List.map_nil, unlines_cons, unlines_nil]
      simp [Function.comp_def]

/-! ## Families -/

/-- The points of a family in the order in which they are rendered. -/
def Metric.sortedPoints (m : Metric F) : List (DataPoint F) :=
  sortOn (fun point => labelsText point.labels) m.points

/-- The family of a metric as it is to be read. -/
def Metric.family (m : Metric F) : Family where
  name := m.finalName
  kind := m.kind
  description := if m.id.description = "" then none else some m.id.description.toList
  samples := m.sortedPoints.flatMap fun point => point.samples m.finalName

/-- The metric has a name, its points are labelled, and no two of them alike. -/
structure Metric.Renderable (m : Metric F) : Prop where
  named : m.id.name ≠ ""
  labelled : ∀ point ∈ m.points, point.Labelled
  distinct : m.sortedPoints.Pairwise fun first second =>
    labelsText first.labels < labelsText second.labels

/-- The points with their labels can be had exactly if all points are labelled. -/
theorem renderPoints_eq_ok_iff {metric : Text} {points : List (DataPoint F)}
    {entries : List (Text × DataPoint F)} :
    renderPoints metric points = .ok entries ↔
      entries = points.map (fun point => (labelsText point.labels, point)) ∧
        ∀ point ∈ points, point.Labelled := by
  induction points generalizing entries with
  | nil => simp [renderPoints, eq_comm]
  | cons point rest ih =>
      rw [renderPoints, List.forall_mem_cons, List.map_cons]
      cases hlabels : renderLabels metric point.attrs point.value.reserved with
      | error err =>
          have hpoint : ¬ point.Labelled := by
            intro h
            simp [renderLabels_eq_ok_iff.mpr ⟨rfl, h⟩] at hlabels
          simp [hpoint]
      | ok text =>
          obtain ⟨rfl, hpoint⟩ := renderLabels_eq_ok_iff.mp hlabels
          cases hrest : renderPoints metric rest with
          | error err =>
              have hlater : ¬ ∀ point ∈ rest, point.Labelled := by
                intro h
                simp [ih.mpr ⟨rfl, h⟩] at hrest
              simp only [Except.map, reduceCtorEq, false_iff, not_and]
              exact fun _ _ => hlater
          | ok later =>
              obtain ⟨rfl, hlater⟩ := ih.mp hrest
              simp only [Except.map, Except.ok.injEq, hpoint, true_and]
              exact ⟨fun h => ⟨h.symm, hlater⟩, fun h => h.1.symm⟩

/-- The points with their labels, sorted by their labels. -/
theorem sortOn_labelled (m : Metric F) :
    sortOn Prod.fst (m.points.map fun point => (labelsText point.labels, point)) =
      m.sortedPoints.map fun point => (labelsText point.labels, point) :=
  (map_sortOn (by exact fun _ => rfl) m.points).symm

theorem renderHeader_eq (m : Metric F) :
    m.renderHeader m.finalName ++
        unlines '\n' (m.family.samples.map fun s => (Line.sample s).text) =
      unlines '\n' (m.family.lines.map Line.text) := by
  rw [Metric.renderHeader, Family.lines, List.map_append, unlines_append, List.map_cons,
    unlines_cons, List.map_map]
  by_cases hdescription : m.id.description = ""
  · simp [Metric.family, hdescription, Function.comp_def]
  · simp [Metric.family, hdescription, unlines_cons, Function.comp_def]

/-- A family is rendered exactly if it is renderable, and its text is that of its
lines. -/
theorem Metric.renderInto_eq_ok_iff {m : Metric F} {text : Text} :
    m.renderInto = .ok text ↔
      m.Renderable ∧ text = unlines '\n' (m.family.lines.map Line.text) := by
  rw [Metric.renderInto, Metric.familyName]
  by_cases hname : m.id.name = ""
  · have hrenderable : ¬ m.Renderable := fun h => h.named hname
    simp [hname, hrenderable]
  rw [if_neg hname]
  cases hpoints : renderPoints m.id.name.toList m.points with
  | error err =>
      have hrenderable : ¬ m.Renderable := by
        intro h
        simp [renderPoints_eq_ok_iff.mpr ⟨rfl, h.labelled⟩] at hpoints
      simp [hrenderable]
  | ok entries =>
      obtain ⟨rfl, hlabelled⟩ := renderPoints_eq_ok_iff.mp hpoints
      simp only [sortOn_labelled]
      cases hrepeat : firstRepeat Prod.fst
          (m.sortedPoints.map fun point => (labelsText point.labels, point)) with
      | some pair =>
          have hrenderable : ¬ m.Renderable := by
            intro h
            have hdistinct : (m.sortedPoints.map
                fun point => (labelsText point.labels, point)).Pairwise fun a b => a.1 < b.1 :=
              List.pairwise_map.mpr h.distinct
            simp [firstRepeat_eq_none hdistinct] at hrepeat
          simp [hrenderable]
      | none =>
          have hsorted := pairwise_sortOn (Prod.fst : Text × DataPoint F → Text)
            (m.points.map fun point => (labelsText point.labels, point))
          rw [sortOn_labelled] at hsorted
          have hdistinct := pairwise_lt_of_firstRepeat_eq_none hsorted hrepeat
          rw [List.pairwise_map] at hdistinct
          have htext : m.renderHeader m.finalName ++
              (m.sortedPoints.map fun point => (labelsText point.labels, point)).flatMap
                (fun entry => entry.2.renderInto m.finalName entry.1) =
              unlines '\n' (m.family.lines.map Line.text) := by
            rw [← renderHeader_eq, List.flatMap_map]
            simp only [DataPoint.renderInto_eq, unlines_flatMap, Metric.family, List.map_flatMap]
          simp only [htext, Except.ok.injEq]
          exact ⟨fun h => ⟨⟨hname, hlabelled, hdistinct⟩, h.symm⟩, fun h => h.2.symm⟩

/-! ## Errors -/

/-- An error over the attributes of one point. -/
inductive IsLabelError : PrometheusError → Prop
  | emptyLabelName (metric : Text) : IsLabelError (.emptyLabelName metric)
  | labelCollision (label metric : Text) : IsLabelError (.labelCollision label metric)

omit [Formats F] in
theorem collectLabels_error {metric : Text} {reserved : List Text} {attrs : List (KeyValue F)}
    {err : PrometheusError} (h : collectLabels metric reserved attrs = .error err) :
    IsLabelError err := by
  induction attrs with
  | nil => cases h
  | cons attr rest ih =>
      rw [collectLabels] at h
      cases hvalue : attr.value with
      | none =>
          simp only [hvalue] at h
          exact ih h
      | some value =>
          simp only [hvalue] at h
          by_cases hkey : attr.key = ""
          · rw [if_pos hkey] at h
            obtain rfl := Except.error.inj h
            exact .emptyLabelName metric
          rw [if_neg hkey] at h
          by_cases hreserved : sanitizeLabelName attr.key.toList ∈ reserved
          · rw [if_pos hreserved] at h
            obtain rfl := Except.error.inj h
            exact .labelCollision _ metric
          rw [if_neg hreserved] at h
          cases hrest : collectLabels metric reserved rest with
          | error later =>
              rw [hrest] at h
              obtain rfl : later = err := Except.error.inj h
              exact ih hrest
          | ok later => simp [hrest, Except.map] at h

theorem renderPoints_error {metric : Text} {points : List (DataPoint F)} {err : PrometheusError}
    (h : renderPoints metric points = .error err) : IsLabelError err := by
  induction points with
  | nil => cases h
  | cons point rest ih =>
      rw [renderPoints] at h
      cases hlabels : renderLabels metric point.attrs point.value.reserved with
      | error first =>
          rw [hlabels] at h
          obtain rfl : first = err := Except.error.inj h
          rw [renderLabels] at hlabels
          cases hcollect : collectLabels metric point.value.reserved point.attrs with
          | error cause =>
              rw [hcollect] at hlabels
              obtain rfl : cause = first := Except.error.inj hlabels
              exact collectLabels_error hcollect
          | ok labels =>
              simp only [hcollect] at hlabels
              cases hrepeat : firstRepeat Prod.fst (sortOn Prod.fst labels) with
              | some pair =>
                  simp only [hrepeat] at hlabels
                  obtain rfl := Except.error.inj hlabels
                  exact .labelCollision _ metric
              | none => simp [hrepeat] at hlabels
      | ok text =>
          simp only [hlabels] at h
          cases hrest : renderPoints metric rest with
          | error later =>
              rw [hrest] at h
              obtain rfl : later = err := Except.error.inj h
              exact ih hrest
          | ok later => simp [hrest, Except.map] at h

/-- Why a family is not rendered: it has no name, a point has bad labels, or two points
have the same. -/
theorem Metric.renderInto_error {m : Metric F} {err : PrometheusError}
    (h : m.renderInto = .error err) :
    (m.id.name = "" ∧ err = .emptyMetricName) ∨ IsLabelError err ∨
      (∀ point ∈ m.points, point.Labelled) ∧
        ∃ first second rest, m.points.Perm (first :: second :: rest) ∧
          labelsText first.labels = labelsText second.labels ∧
          err = .duplicateSeries (labelsText second.labels) m.id.name.toList := by
  rw [Metric.renderInto, Metric.familyName] at h
  by_cases hname : m.id.name = ""
  · rw [if_pos hname] at h
    exact .inl ⟨hname, (Except.error.inj h).symm⟩
  rw [if_neg hname] at h
  cases hpoints : renderPoints m.id.name.toList m.points with
  | error cause =>
      simp only [hpoints] at h
      obtain rfl : cause = err := Except.error.inj h
      exact .inr (.inl (renderPoints_error hpoints))
  | ok entries =>
      obtain ⟨rfl, hlabelled⟩ := renderPoints_eq_ok_iff.mp hpoints
      simp only [hpoints] at h
      cases hrepeat : firstRepeat Prod.fst (sortOn Prod.fst
          (m.points.map fun point => (labelsText point.labels, point))) with
      | none => simp [hrepeat] at h
      | some pair =>
          obtain ⟨first, second⟩ := pair
          simp only [hrepeat] at h
          obtain ⟨hsame, rest, hperm⟩ := exists_perm_of_firstRepeat hrepeat
          have hentries := (perm_sortOn Prod.fst _).symm.trans hperm
          have hlabel : ∀ entry ∈ first :: second :: rest,
              entry.1 = labelsText entry.2.labels := by
            intro entry hentry
            obtain ⟨point, _, rfl⟩ := List.mem_map.mp (hentries.mem_iff.mpr hentry)
            rfl
          have hfirst := hlabel first (by simp)
          have hsecond := hlabel second (by simp)
          refine .inr (.inr ⟨hlabelled, first.2, second.2, rest.map Prod.snd, ?_, ?_, ?_⟩)
          · simpa [Function.comp_def] using hentries.map Prod.snd
          · rw [← hfirst, ← hsecond, hsame]
          · rw [← hsecond]
            exact (Except.error.inj h).symm

/-! ## Well-formed families -/

/-- The samples of a point: one, or those of the buckets of a histogram, its sum and its
count. -/
theorem DataPoint.mem_samples_iff {point : DataPoint F} {name : Text} {s : Sample} :
    s ∈ point.samples name ↔
      (∃ value, point.value = .number value ∧ s = ⟨name, point.labels, writeF64 value⟩) ∨
      ∃ h, point.value = .histogram h ∧
        ((∃ row ∈ h.rows 0 0 h.boundaries, s = point.bucketSample name (writeF64 row.1) row.2) ∨
          s = point.bucketSample name "+Inf".toList h.count ∨
          s = ⟨name ++ "_sum".toList, point.labels, writeF64 h.sum⟩ ∨
          s = ⟨name ++ "_count".toList, point.labels, displayU64 h.count⟩) := by
  rw [DataPoint.samples]
  cases point.value with
  | number value => simp
  | histogram h => simp [eq_comm]

/-- The labels of a sample are those of its point, with `le` behind them in a bucket. -/
theorem DataPoint.labels_of_mem_samples {point : DataPoint F} {name : Text} {s : Sample}
    (hs : s ∈ point.samples name) :
    s.labels = point.labels ∨
      ∃ boundary, s.labels = point.labels ++ [("le".toList, boundary)] ∧
        "le".toList ∈ point.value.reserved := by
  rcases DataPoint.mem_samples_iff.mp hs with ⟨value, _, rfl⟩ | ⟨h, hvalue, hs⟩
  · exact .inl rfl
  · have hreserved : "le".toList ∈ point.value.reserved := by simp [hvalue, DataPointValue.reserved]
    rcases hs with ⟨row, _, rfl⟩ | rfl | rfl | rfl
    · exact .inr ⟨_, rfl, hreserved⟩
    · exact .inr ⟨_, rfl, hreserved⟩
    · exact .inl rfl
    · exact .inl rfl

/-- A sample is named after its family. -/
theorem DataPoint.name_of_mem_samples {point : DataPoint F} {name : Text} {s : Sample}
    (hs : s ∈ point.samples name) :
    s.name = name ∨ s.name ∈ sampleNames name .histogram := by
  rcases DataPoint.mem_samples_iff.mp hs with ⟨value, _, rfl⟩ | ⟨h, _, hs⟩
  · exact .inl rfl
  · right
    rcases hs with ⟨row, _, rfl⟩ | rfl | rfl | rfl <;>
      simp [sampleNames, suffixes, DataPoint.bucketSample]

theorem DataPoint.number_of_mem_samples {point : DataPoint F} {name : Text} {s : Sample}
    (hs : s ∈ point.samples name) : IsNumberText s.number := by
  rcases DataPoint.mem_samples_iff.mp hs with ⟨value, _, rfl⟩ | ⟨h, _, hs⟩
  · exact isNumberText_writeF64 value
  · rcases hs with ⟨row, _, rfl⟩ | rfl | rfl | rfl
    · exact isNumberText_displayU64 row.2
    · exact isNumberText_displayU64 h.count
    · exact isNumberText_writeF64 h.sum
    · exact isNumberText_displayU64 h.count

omit [Formats F] in
/-- The names of the samples of a family are metric names. -/
theorem isMetricName_of_mem_sampleNames {name sample : Text} (hname : IsMetricName name)
    {kind : Kind} (hsample : sample ∈ sampleNames name kind) : IsMetricName sample := by
  obtain ⟨suffix, hsuffix, rfl⟩ := List.mem_map.mp hsample
  apply isMetricName_append hname
  have hall : ∀ kind, ∀ suffix ∈ suffixes kind,
      (suffix.all fun c => startsMetricName c || c.isDigit) = true := by
    intro kind
    cases kind <;> decide
  exact hall kind suffix hsuffix

/-- Every name in the samples of a labelled point is well formed. -/
theorem DataPoint.Labelled.samples {point : DataPoint F} (h : point.Labelled) {name : Text}
    (hname : IsMetricName name) {s : Sample} (hs : s ∈ point.samples name) :
    IsMetricName s.name ∧ (∀ label ∈ s.labels, IsPublicLabelName label.1) ∧
      IsNumberText s.number := by
  refine ⟨?_, ?_, DataPoint.number_of_mem_samples hs⟩
  · rcases DataPoint.name_of_mem_samples hs with hsample | hsample
    · rw [hsample]
      exact hname
    · exact isMetricName_of_mem_sampleNames hname hsample
  · rcases DataPoint.labels_of_mem_samples hs with hlabels | ⟨boundary, hlabels, _⟩
    · rw [hlabels]
      exact h.names
    · rw [hlabels]
      intro label hlabel
      rcases List.mem_append.mp hlabel with hlabel | hlabel
      · exact h.names label hlabel
      · obtain rfl := List.mem_singleton.mp hlabel
        exact ⟨(by decide : IsLabelName "le".toList), by simp⟩

theorem Metric.mem_sortedPoints {m : Metric F} {point : DataPoint F} :
    point ∈ m.sortedPoints ↔ point ∈ m.points := mem_sortOn

/-- The names of a renderable family are well formed. -/
theorem Metric.Renderable.names {m : Metric F} (h : m.Renderable) :
    IsMetricName m.family.name ∧
      ∀ s ∈ m.family.samples, IsMetricName s.name ∧
        (∀ label ∈ s.labels, IsPublicLabelName label.1) ∧ IsNumberText s.number := by
  have hname := Metric.isMetricName_finalName h.named
  refine ⟨hname, fun s hs => ?_⟩
  obtain ⟨point, hpoint, hmem⟩ := List.mem_flatMap.mp hs
  exact (h.labelled point (mem_sortedPoints.mp hpoint)).samples hname hmem

/-- `le` is put behind the labels of histogram points only, and there it is reserved. -/
theorem DataPoint.Labelled.nodup_labels {point : DataPoint F} (h : point.Labelled) {name : Text}
    {s : Sample} (hs : s ∈ point.samples name) : (s.labels.map Prod.fst).Nodup := by
  have hnodup : (point.labels.map Prod.fst).Nodup :=
    List.pairwise_map.mpr (h.increasing.imp ne_of_lt)
  rcases DataPoint.labels_of_mem_samples hs with hlabels | ⟨boundary, hlabels, hreserved⟩
  · rw [hlabels]
    exact hnodup
  · have hnew : "le".toList ∉ point.labels.map Prod.fst := by
      intro hmem
      obtain ⟨label, hlabel, hle⟩ := List.mem_map.mp hmem
      exact h.unreserved label hlabel (hle ▸ hreserved)
    rw [hlabels, List.map_append, List.nodup_append]
    refine ⟨hnodup, List.nodup_singleton _, ?_⟩
    intro name hname other hother heq
    rw [heq, List.mem_singleton.mp hother] at hname
    exact hnew hname

theorem Metric.Renderable.nodup_labels {m : Metric F} (h : m.Renderable) {s : Sample}
    (hs : s ∈ m.family.samples) : (s.labels.map Prod.fst).Nodup := by
  obtain ⟨point, hpoint, hmem⟩ := List.mem_flatMap.mp hs
  exact (h.labelled point (mem_sortedPoints.mp hpoint)).nodup_labels hmem

theorem Metric.Renderable.wellFormed {m : Metric F} (h : m.Renderable) :
    m.family.WellFormed where
  name := h.names.1
  samples s hs :=
    { name := (h.names.2 s hs).1
      labels := fun label hlabel => ((h.names.2 s hs).2.1 label hlabel).1
      number := (h.names.2 s hs).2.2 }

end Ohnotel.Prometheus
