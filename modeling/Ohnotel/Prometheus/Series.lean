/-
# Every series once

A series is named by the name of its samples and the set of their labels.  If a collector
renders, no two samples are of one series, every sample belongs to one family, and every
family is started once.  If it refuses because two families collide or a series occurs
twice, then that is so.
-/

import Ohnotel.Prometheus.RoundTrip
import Ohnotel.Prometheus.Scraping

namespace Ohnotel.Prometheus

open Foundation

variable {F : Type} [Formats F]

/-! ## Series -/

/-- The samples have one name and one set of labels. -/
def Sample.SameSeries (s t : Sample) : Prop :=
  s.name = t.name ∧ ∀ label, label ∈ s.labels ↔ label ∈ t.labels

def Line.sample? : Line → Option Sample
  | .sample s => some s
  | .help _ _ | .type _ _ => none

def Line.type? : Line → Option (Text × Kind)
  | .type name kind => some (name, kind)
  | .help _ _ | .sample _ => none

/-- No series occurs twice, every sample belongs to one family, and every family is
started once. -/
structure Unambiguous (lines : List Line) : Prop where
  distinct : (lines.filterMap Line.sample?).Pairwise fun s t => ¬ s.SameSeries t
  owned : ∀ s ∈ lines.filterMap Line.sample?,
    ∃! family, family ∈ lines.filterMap Line.type? ∧ s.name ∈ sampleNames family.1 family.2
  started : ((lines.filterMap Line.type?).map Prod.fst).Nodup

/-! ## The samples of a point -/

/-- Labels are read off their text. -/
theorem labelsText_injective {first second : List (Text × Text)}
    (hfirst : ∀ label ∈ first, IsLabelName label.1)
    (hsecond : ∀ label ∈ second, IsLabelName label.1)
    (htext : labelsText first = labelsText second) : first = second := by
  by_cases hne : first = []
  · by_cases hne' : second = []
    · rw [hne, hne']
    · rw [hne] at htext
      exact absurd htext.symm (labelsText_ne_nil hne')
  · have hne' : second ≠ [] := by
      rintro rfl
      exact labelsText_ne_nil hne htext
    have hread := parseLabels_labelsText hne hfirst [] (Nat.le_add_right _ second.length)
    have hread' := parseLabels_labelsText hne' hsecond [] (Nat.le_add_left _ first.length)
    rw [htext, hread'] at hread
    exact (Prod.mk.inj (Option.some.inj hread)).1.symm

/-- A sample of a point is one of a bucket, or has the labels of the point and another
name. -/
theorem DataPoint.bucket_or_plain {point : DataPoint F} {name : Text} {s : Sample}
    (hs : s ∈ point.samples name) :
    (s.labels = point.labels ∧ s.name ≠ name ++ "_bucket".toList) ∨
      ∃ boundary count, s = point.bucketSample name boundary count ∧
        "le".toList ∈ point.value.reserved := by
  rcases DataPoint.mem_samples_iff.mp hs with ⟨value, _, rfl⟩ | ⟨h, hvalue, hs⟩
  · exact .inl ⟨rfl, by simp⟩
  · have hreserved : "le".toList ∈ point.value.reserved := by simp [hvalue, DataPointValue.reserved]
    rcases hs with ⟨row, _, rfl⟩ | rfl | rfl | rfl
    · exact .inr ⟨_, _, rfl, hreserved⟩
    · exact .inr ⟨_, _, rfl, hreserved⟩
    · exact .inl ⟨rfl, by simp⟩
    · exact .inl ⟨rfl, by simp⟩

section Labelled

variable {first second : DataPoint F} {name : Text}

/-- Labelled points with the same labels have them in the same order. -/
theorem DataPoint.Labelled.labels_eq (hfirst : first.Labelled) (hsecond : second.Labelled)
    (hsame : ∀ label, label ∈ first.labels ↔ label ∈ second.labels) :
    first.labels = second.labels :=
  eq_of_pairwise_lt hfirst.increasing hsecond.increasing hsame

/-- A label of a histogram point is not `le`. -/
theorem DataPoint.Labelled.ne_le (hfirst : first.Labelled)
    (hreserved : "le".toList ∈ first.value.reserved) (boundary : Text) :
    ("le".toList, boundary) ∉ first.labels :=
  fun hmem => hfirst.unreserved _ hmem hreserved

/-- Samples of buckets are of one series only if their points have the same labels and
the buckets the same boundary. -/
theorem DataPoint.Labelled.bucketSample_same (hfirst : first.Labelled)
    (hsecond : second.Labelled) (hreserved : "le".toList ∈ first.value.reserved)
    (hreserved' : "le".toList ∈ second.value.reserved) {boundary boundary' : Text}
    {count count' : UInt64}
    (hsame : (first.bucketSample name boundary count).SameSeries
      (second.bucketSample name boundary' count')) :
    first.labels = second.labels ∧ boundary = boundary' := by
  have hlabels : ∀ label, label ∈ first.labels ∨ label = ("le".toList, boundary) ↔
      label ∈ second.labels ∨ label = ("le".toList, boundary') := by
    simpa [bucketSample] using hsame.2
  have hle := hfirst.ne_le hreserved
  have hle' := hsecond.ne_le hreserved'
  constructor
  · apply hfirst.labels_eq hsecond
    intro label
    constructor
    · intro hmem
      refine ((hlabels label).mp (.inl hmem)).resolve_right ?_
      rintro rfl
      exact hle boundary' hmem
    · intro hmem
      refine ((hlabels label).mpr (.inl hmem)).resolve_right ?_
      rintro rfl
      exact hle' boundary hmem
  · have hlast := (hlabels ("le".toList, boundary)).mp (.inr rfl)
    exact (Prod.mk.inj (hlast.resolve_left (hle' boundary))).2

/-- Samples of one series are of points with the same labels. -/
theorem DataPoint.Labelled.labels_eq_of_sameSeries (hfirst : first.Labelled)
    (hsecond : second.Labelled) {s t : Sample} (hs : s ∈ first.samples name)
    (ht : t ∈ second.samples name) (hsame : s.SameSeries t) : first.labels = second.labels := by
  rcases DataPoint.bucket_or_plain hs with ⟨hlabels, hname⟩ | ⟨_, _, rfl, hreserved⟩
  · rcases DataPoint.bucket_or_plain ht with ⟨hlabels', _⟩ | ⟨_, _, rfl, _⟩
    · have hboth := hsame.2
      rw [hlabels, hlabels'] at hboth
      exact hfirst.labels_eq hsecond hboth
    · exact absurd hsame.1 hname
  · rcases DataPoint.bucket_or_plain ht with ⟨_, hname'⟩ | ⟨_, _, rfl, hreserved'⟩
    · exact absurd hsame.1.symm hname'
    · exact (hfirst.bucketSample_same hsecond hreserved hreserved' hsame).1

end Labelled

omit [Formats F] in
theorem HistogramValue.map_fst_rows (h : HistogramValue F) (idx : Nat) (cumulative : UInt64)
    (boundaries : List F) : (h.rows idx cumulative boundaries).map Prod.fst = boundaries := by
  induction boundaries generalizing idx cumulative with
  | nil => rfl
  | cons boundary rest ih => rw [rows, List.map_cons, ih]

/-- Numbers are told apart by what is written of them. -/
theorem writeF64_injective {first second : F} (hfirst : Formats.Finite first)
    (hsecond : Formats.Finite second) (htext : writeF64 first = writeF64 second) :
    first = second := by
  rw [writeF64_of_finite hfirst, writeF64_of_finite hsecond] at htext
  exact Formats.display_injective first second hfirst.1 hfirst.2 hsecond.1 hsecond.2 htext

theorem writeF64_ne_inf {value : F} (hvalue : Formats.Finite value) :
    writeF64 value ≠ "+Inf".toList := by
  intro htext
  rw [writeF64_of_finite hvalue] at htext
  have hplus := (Formats.display_digits value hvalue.1 hvalue.2).2 '+' (by rw [htext]; decide)
  exact absurd hplus (by decide)

/-- The samples of a point are of different series. -/
theorem DataPoint.Labelled.distinct {point : DataPoint F} (h : point.Labelled) {kind : Kind}
    (hfits : point.value.Fits kind) (name : Text) :
    (point.samples name).Pairwise fun s t => ¬ s.SameSeries t := by
  rw [DataPoint.samples]
  cases hvalue : point.value with
  | number value => exact List.pairwise_singleton _ _
  | histogram value =>
      rw [hvalue] at hfits
      obtain ⟨_, hnodup, hfinite⟩ := hfits
      have hreserved : "le".toList ∈ point.value.reserved := by
        simp [hvalue, DataPointValue.reserved]
      have hrow : ∀ row ∈ value.rows 0 0 value.boundaries, Formats.Finite row.1 := by
        intro row hrow
        apply hfinite
        rw [← value.map_fst_rows 0 0 value.boundaries]
        exact List.mem_map_of_mem hrow
      have hrows : (value.rows 0 0 value.boundaries).Pairwise fun a b => a.1 ≠ b.1 := by
        rw [← value.map_fst_rows 0 0 value.boundaries] at hnodup
        exact List.pairwise_map.mp hnodup
      refine List.pairwise_append.mpr ⟨List.pairwise_map.mpr ?_, ?_, ?_⟩
      · refine hrows.imp_of_mem fun {a b} ha hb hne hsame => hne ?_
        have htext := (h.bucketSample_same h hreserved hreserved hsame).2
        exact writeF64_injective (hrow a ha) (hrow b hb) htext
      · simp [Sample.SameSeries, DataPoint.bucketSample]
      · intro s hs t ht hsame
        obtain ⟨row, hmem, rfl⟩ := List.mem_map.mp hs
        simp only [List.mem_cons, List.not_mem_nil, or_false] at ht
        rcases ht with rfl | rfl | rfl
        · have htext := (h.bucketSample_same h hreserved hreserved hsame).2
          exact writeF64_ne_inf (hrow row hmem) htext
        · simpa [DataPoint.bucketSample] using hsame.1
        · simpa [DataPoint.bucketSample] using hsame.1

/-! ## The samples of a family -/

omit [Formats F] in
theorem mem_sampleNames_self (name : Text) (kind : Kind) : name ∈ sampleNames name kind := by
  cases kind <;> simp [sampleNames, suffixes]

omit [Formats F] in
theorem nodup_sampleNames (name : Text) (kind : Kind) : (sampleNames name kind).Nodup := by
  have hsuffixes : (suffixes kind).Nodup := by cases kind <;> decide
  exact hsuffixes.map fun _ _ h => List.append_cancel_left h

theorem DataPoint.name_mem_sampleNames {point : DataPoint F} {kind : Kind}
    (hfits : point.value.Fits kind) {name : Text} {s : Sample} (hs : s ∈ point.samples name) :
    s.name ∈ sampleNames name kind := by
  rcases DataPoint.name_of_mem_samples hs with hname | hname
  · rw [hname]
    exact mem_sampleNames_self name kind
  · cases hvalue : point.value with
    | number value =>
        rw [DataPoint.samples, hvalue, List.mem_singleton] at hs
        rw [hs]
        exact mem_sampleNames_self name kind
    | histogram value =>
        rw [hvalue] at hfits
        rw [hfits.1]
        exact hname

section Family

variable {m : Metric F}

theorem Metric.Renderable.distinct_samples (h : m.Renderable)
    (hfits : ∀ point ∈ m.points, point.value.Fits m.kind) :
    m.family.samples.Pairwise fun s t => ¬ s.SameSeries t := by
  refine List.pairwise_flatMap.mpr ⟨fun point hpoint => ?_, ?_⟩
  · have hmem := Metric.mem_sortedPoints.mp hpoint
    exact (h.labelled point hmem).distinct (hfits point hmem) m.finalName
  · refine h.distinct.imp_of_mem fun {first second} hfirst hsecond hlt s hs t ht hsame => ?_
    have hlabels := (h.labelled first (Metric.mem_sortedPoints.mp hfirst)).labels_eq_of_sameSeries
      (h.labelled second (Metric.mem_sortedPoints.mp hsecond)) hs ht hsame
    rw [hlabels] at hlt
    exact lt_irrefl _ hlt

theorem Metric.name_mem_sampleNames (hfits : ∀ point ∈ m.points, point.value.Fits m.kind)
    {s : Sample} (hs : s ∈ m.family.samples) : s.name ∈ sampleNames m.finalName m.kind := by
  obtain ⟨point, hpoint, hmem⟩ := List.mem_flatMap.mp hs
  exact DataPoint.name_mem_sampleNames (hfits point (Metric.mem_sortedPoints.mp hpoint)) hmem

end Family

/-! ## The families together -/

section Families

variable {families : List (Metric F)}

omit [Formats F] in
/-- The samples of different families have different names. -/
theorem disjoint_sampleNames (hnodup : (allSampleNames families).Nodup) :
    families.Pairwise fun first second => ∀ name ∈ sampleNames first.finalName first.kind,
      name ∉ sampleNames second.finalName second.kind :=
  (List.nodup_flatMap.mp hnodup).2.imp fun hdisjoint _ hname hname' => hdisjoint hname hname'

theorem samples_families (families : List (Metric F)) :
    ((families.map Metric.family).flatMap Family.lines).filterMap Line.sample? =
      families.flatMap fun m => m.family.samples := by
  have hlines : ∀ family : Family, family.lines.filterMap Line.sample? = family.samples := by
    intro family
    have hsamples : (family.samples.map Line.sample).filterMap Line.sample? = family.samples := by
      rw [List.filterMap_map]
      exact List.filterMap_some
    rw [Family.lines, List.filterMap_append, List.filterMap_cons_none rfl, hsamples]
    cases family.description <;> rfl
  rw [List.filterMap_flatMap, List.flatMap_map]
  simp only [hlines]

theorem types_families (families : List (Metric F)) :
    ((families.map Metric.family).flatMap Family.lines).filterMap Line.type? =
      families.map fun m => (m.finalName, m.kind) := by
  have hlines : ∀ family : Family, family.lines.filterMap Line.type? =
      [(family.name, family.kind)] := by
    intro family
    have hsamples : (family.samples.map Line.sample).filterMap Line.type? = [] := by
      rw [List.filterMap_map]
      exact List.filterMap_eq_nil_iff.mpr fun _ _ => rfl
    rw [Family.lines, List.filterMap_append, List.filterMap_cons_some (f := Line.type?) rfl,
      hsamples]
    cases family.description <;> rfl
  rw [List.filterMap_flatMap, List.flatMap_map]
  simp only [hlines]
  exact List.map_eq_flatMap.symm

/-- Families that can be presented make lines that are unambiguous. -/
theorem Presentable.unambiguous (h : Presentable families)
    (hincreasing : families.Pairwise fun first second => first.finalName < second.finalName)
    (hfits : ∀ m ∈ families, ∀ point ∈ m.points, point.value.Fits m.kind) :
    Unambiguous ((families.map Metric.family).flatMap Family.lines) where
  distinct := by
    rw [samples_families]
    refine List.pairwise_flatMap.mpr ⟨fun m hm => ?_, ?_⟩
    · exact (h.renderable m hm).distinct_samples (hfits m hm)
    · refine (disjoint_sampleNames h.nodup).imp_of_mem ?_
      intro first second hfirst hsecond hdisjoint s hs t ht hsame
      have hname := Metric.name_mem_sampleNames (hfits first hfirst) hs
      have hname' := Metric.name_mem_sampleNames (hfits second hsecond) ht
      rw [hsame.1] at hname
      exact hdisjoint _ hname hname'
  owned := by
    rw [samples_families, types_families]
    intro s hs
    obtain ⟨m, hm, hmem⟩ := List.mem_flatMap.mp hs
    have hname := Metric.name_mem_sampleNames (hfits m hm) hmem
    refine ⟨(m.finalName, m.kind), ⟨List.mem_map_of_mem hm, hname⟩, ?_⟩
    rintro _ ⟨hstarted, hname'⟩
    obtain ⟨other, hother, rfl⟩ := List.mem_map.mp hstarted
    by_contra hne
    have : Std.Symm fun first second : Metric F =>
        ∀ name ∈ sampleNames first.finalName first.kind,
          name ∉ sampleNames second.finalName second.kind :=
      ⟨fun _ _ hdisjoint name hname hname' => hdisjoint name hname' hname⟩
    have hdisjoint := (disjoint_sampleNames h.nodup).forall hm hother fun heq => hne (by rw [heq])
    exact hdisjoint s.name hname hname'
  started := by
    rw [types_families, List.map_map]
    exact List.pairwise_map.mpr (hincreasing.imp ne_of_lt)

end Families

/-! ## Collisions -/

/-- Metrics that differ in identity or kind have samples of one name. -/
def Collide (metrics : List (Metric F)) (name : Text) : Prop :=
  ∃ m ∈ metrics, ∃ other ∈ metrics, (m.id ≠ other.id ∨ m.kind ≠ other.kind) ∧
    name ∈ sampleNames m.finalName m.kind ∧ name ∈ sampleNames other.finalName other.kind

/-- Two points of the family of a metric have the same labels. -/
def Duplicated (metrics : List (Metric F)) (labels metric : Text) : Prop :=
  ∃ m ∈ metrics, m.id.name.toList = metric ∧
    ∃ first second rest, (pointsOf metrics m.finalName).Perm (first :: second :: rest) ∧
      first.labels = second.labels ∧ labels = labelsText first.labels

section Collisions

variable {metrics families : List (Metric F)}

omit [Formats F] in
/-- If no two families share the name of a sample, it is there at most once. -/
theorem count_allSampleNames_le (name : Text) (families : List (Metric F))
    (hapart : families.Pairwise fun first second =>
      name ∈ sampleNames first.finalName first.kind →
        name ∉ sampleNames second.finalName second.kind) :
    (allSampleNames families).count name ≤ 1 := by
  induction families with
  | nil => exact Nat.zero_le 1
  | cons family rest ih =>
      obtain ⟨hfirst, hrest⟩ := List.pairwise_cons.mp hapart
      have hcount : (allSampleNames (family :: rest)).count name =
          (sampleNames family.finalName family.kind).count name +
            (allSampleNames rest).count name := List.count_append
      have hone := List.nodup_iff_count_le_one.mp
        (nodup_sampleNames family.finalName family.kind) name
      by_cases hname : name ∈ sampleNames family.finalName family.kind
      · have hlater : name ∉ allSampleNames rest := by
          intro hmem
          obtain ⟨other, hother, hname'⟩ := List.mem_flatMap.mp hmem
          exact hfirst other hother hname hname'
        rw [hcount, List.count_eq_zero.mpr hlater]
        exact hone
      · rw [hcount, List.count_eq_zero.mpr hname, Nat.zero_add]
        exact ih hrest

omit [Formats F] in
/-- A sample that is refused belongs to two metrics. -/
theorem Merged.collide (h : Merged metrics families) {err : PrometheusError}
    (hcheck : checkSamples [] (allSampleNames families) = .error err) :
    ∃ name, err = .familyCollision name ∧ Collide metrics name := by
  obtain ⟨before, name, after, hnames, rfl, hbefore⟩ := checkSamples_error hcheck
  refine ⟨name, rfl, ?_⟩
  have hbefore : name ∈ before := hbefore.resolve_left List.not_mem_nil
  have htwice : 2 ≤ (allSampleNames families).count name := by
    have hpos : 0 < before.count name := List.count_pos_iff.mpr hbefore
    rw [hnames, List.count_append, List.count_cons_self]
    omega
  by_contra hnone
  have honce := count_allSampleNames_le name families (by
    refine h.increasing.imp_of_mem fun {first second} hfirst hsecond hlt hname hname' => hnone ?_
    obtain ⟨m, hm, hid, hkind⟩ := h.contributed first hfirst
    obtain ⟨other, hother, hid', hkind'⟩ := h.contributed second hsecond
    have hfinal := Metric.finalName_congr hid hkind
    have hfinal' := Metric.finalName_congr hid' hkind'
    refine ⟨m, hm, other, hother, ?_, ?_, ?_⟩
    · by_contra heq
      push Not at heq
      have hsame := Metric.finalName_congr heq.1 heq.2
      rw [← hfinal, ← hfinal', hsame] at hlt
      exact lt_irrefl _ hlt
    · rw [hfinal, hkind]
      exact hname
    · rw [hfinal', hkind']
      exact hname')
  omega

/-- A series that is refused is that of two points of one family. -/
theorem Merged.duplicated (h : Merged metrics families) {labels metric : Text}
    (hrender : renderFamilies families = .error (.duplicateSeries labels metric)) :
    Duplicated metrics labels metric := by
  obtain ⟨family, hfamily, hfailed⟩ := renderFamilies_error hrender
  rcases Metric.renderInto_error hfailed with ⟨_, herr⟩ | herr | ⟨hlabelled, hpoints⟩
  · cases herr
  · cases herr
  · obtain ⟨first, second, rest, hperm, htext, herr⟩ := hpoints
    obtain ⟨m, hm, hid, hkind⟩ := h.contributed family hfamily
    obtain ⟨rfl, rfl⟩ := PrometheusError.duplicateSeries.inj herr
    have hmem : ∀ point ∈ first :: second :: rest, point.Labelled := fun point hpoint =>
      hlabelled point (hperm.mem_iff.mpr hpoint)
    have hfirst := hmem first (by simp)
    have hsecond := hmem second (by simp)
    have hlabels : first.labels = second.labels :=
      labelsText_injective (fun label hlabel => (hfirst.names label hlabel).1)
        (fun label hlabel => (hsecond.names label hlabel).1) htext
    refine ⟨m, hm, by rw [hid], first, second, rest, ?_, hlabels, by rw [hlabels]⟩
    rw [Metric.finalName_congr hid hkind, ← h.points family hfamily]
    exact hperm

/-- Where an error of a collector comes from. -/
theorem render_error {sources : List (Scrape F)} {err : Error}
    (h : render sources = .error err) :
    mergeSources .empty sources = .error err ∨
      ∃ families cause, Merged (contributing sources) families ∧ err = .prometheus cause ∧
        (checkSamples [] (allSampleNames families) = .error cause ∨
          renderFamilies families = .error cause) := by
  rw [render] at h
  cases hmerge : mergeSources .empty sources with
  | error cause =>
      simp only [hmerge] at h
      exact .inl (congrArg Except.error (Except.error.inj h))
  | ok families =>
      have hinto := mergedInto_of_mergeSources hmerge
      simp only [hmerge, hinto.sampleNames_eq] at h
      refine .inr ⟨families.entries.map Prod.snd, ?_⟩
      cases hcheck : checkSamples [] (allSampleNames (families.entries.map Prod.snd)) with
      | error cause =>
          simp only [hcheck] at h
          exact ⟨cause, hinto.merged, (Except.error.inj h).symm, .inl rfl⟩
      | ok _ =>
          simp only [hcheck] at h
          cases hrender : renderFamilies (families.entries.map Prod.snd) with
          | error cause =>
              simp only [hrender] at h
              exact ⟨cause, hinto.merged, (Except.error.inj h).symm, .inr rfl⟩
          | ok out => simp [hrender] at h

/-- A family collision that is reported is one. -/
theorem collide_of_render {sources : List (Scrape F)}
    (hgenuine : ∀ source ∈ sources, Genuine source) {name : Text}
    (h : render sources = .error (.prometheus (.familyCollision name))) :
    Collide (contributing sources) name := by
  rcases render_error h with hmerge | ⟨families, cause, hmerged, hcause, hfailed⟩
  · have hresult := mergeSources_result mergedInto_empty sources
    rw [hmerge] at hresult
    cases hresult with
    | source _ failed => cases hgenuine _ failed
    | collision m other contributed earlier same different =>
        refine ⟨m, contributed, other, earlier, different, mem_sampleNames_self _ _, ?_⟩
        rw [same]
        exact mem_sampleNames_self _ _
  · obtain rfl := Error.prometheus.inj hcause
    rcases hfailed with hcheck | hrender
    · obtain ⟨found, herr, hcollide⟩ := hmerged.collide hcheck
      obtain rfl := PrometheusError.familyCollision.inj herr
      exact hcollide
    · obtain ⟨family, _, hfailed⟩ := renderFamilies_error hrender
      rcases Metric.renderInto_error hfailed with ⟨_, herr⟩ | herr | ⟨_, _, _, _, _, _, herr⟩
      · cases herr
      · cases herr
      · cases herr

/-- A duplicate series that is reported is one. -/
theorem duplicated_of_render {sources : List (Scrape F)}
    (hgenuine : ∀ source ∈ sources, Genuine source) {labels metric : Text}
    (h : render sources = .error (.prometheus (.duplicateSeries labels metric))) :
    Duplicated (contributing sources) labels metric := by
  rcases render_error h with hmerge | ⟨families, cause, hmerged, hcause, hfailed⟩
  · have hresult := mergeSources_result mergedInto_empty sources
    rw [hmerge] at hresult
    cases hresult with
    | source _ failed => cases hgenuine _ failed
  · obtain rfl := Error.prometheus.inj hcause
    rcases hfailed with hcheck | hrender
    · obtain ⟨found, herr, _⟩ := hmerged.collide hcheck
      cases herr
    · exact hmerged.duplicated hrender

end Collisions

/-- If a collector renders, no two samples are of one series, every sample belongs to one
family, and every family that was scraped is started once.  If it reports a collision,
metrics of different identity or kind do have samples of one name; if it reports a
duplicate series, two points of one family do have the same labels. -/
theorem render_unambiguous {sources : List (Scrape F)}
    (hgenuine : ∀ source ∈ sources, Genuine source) :
    (∀ out, render sources = .ok out →
      ∃ lines, parseLines out = some lines ∧ Unambiguous lines ∧
        ∀ m ∈ contributing sources, .type m.finalName m.kind ∈ lines) ∧
    (∀ name, render sources = .error (.prometheus (.familyCollision name)) →
      Collide (contributing sources) name) ∧
    ∀ labels metric, render sources = .error (.prometheus (.duplicateSeries labels metric)) →
      Duplicated (contributing sources) labels metric := by
  refine ⟨fun out hrender => ?_, fun _ => collide_of_render hgenuine,
    fun _ _ => duplicated_of_render hgenuine⟩
  obtain ⟨_, hconsistent, families, hmerged, hpresentable, rfl⟩ := render_eq_ok_iff.mp hrender
  refine ⟨(families.map Metric.family).flatMap Family.lines, ?_, ?_, fun m hm => ?_⟩
  · apply parseLines_unlines
    intro line hline
    obtain ⟨family, hfamily, hmem⟩ := List.mem_flatMap.mp hline
    obtain ⟨m, hm, rfl⟩ := List.mem_map.mp hfamily
    exact (hpresentable.renderable m hm).wellFormed.lines line hmem
  · refine hpresentable.unambiguous hmerged.increasing ?_
    refine hmerged.forall_points hconsistent (fun kind point => point.value.Fits kind) ?_
    exact fun m hm => hgenuine _ (mem_contributing.mp hm) m rfl
  · obtain ⟨family, hfamily, hid, hkind⟩ := hmerged.covered m hm
    refine List.mem_flatMap.mpr ⟨family.family, List.mem_map_of_mem hfamily, ?_⟩
    rw [Metric.finalName_congr hid hkind, hkind]
    exact List.mem_append_right _ List.mem_cons_self

/-- A histogram with one point. -/
def latency : Metric WholeFloat where
  id := ⟨"latency", "", ""⟩
  kind := .histogram
  points :=
    [⟨[⟨"path", some (.string "/")⟩],
      .histogram
        { boundaries := [.whole 1, .whole 5], bucketCounts := [2, 0, 1], count := 3,
          sum := .whole 12 }⟩]

/-- A gauge whose name is that of a sample of the histogram. -/
def latencySum : Metric WholeFloat where
  id := ⟨"latency.sum", "", ""⟩
  kind := .gauge
  points := [⟨[], .number (.whole 12)⟩]

/-- A gauge with two points that differ only in an attribute that has no value. -/
def uptime : Metric WholeFloat where
  id := ⟨"uptime", "", ""⟩
  kind := .gauge
  points :=
    [⟨[⟨"path", some (.string "/")⟩], .number (.whole 1)⟩,
      ⟨[⟨"path", some (.string "/")⟩, ⟨"host", none⟩], .number (.whole 2)⟩]

theorem render_unambiguous_latency :
    (∃ out lines, render [.ok (some latency)] = .ok out ∧ parseLines out = some lines ∧
      Unambiguous lines ∧ .type "latency".toList .histogram ∈ lines) ∧
    Collide (contributing [.ok (some latency), .ok (some latencySum)]) "latency_sum".toList ∧
    Duplicated (contributing [.ok (some uptime)]) "path=\"/\"".toList "uptime".toList := by
  have hlatency : Genuine (.ok (some latency)) := by
    let snapshot : Atomic.Snapshot UInt64 :=
      { boundaries := [1, 5], bucketCounts := [2, 0, 1], count := 3, sum := 12,
        min := some 1, max := some 7 }
    have hscrape : Shown.scrape ⟨latency.id, .histogram,
        [([⟨"path", some (.string "/")⟩], histogramValue wholeNumber snapshot latency.id)]⟩ =
        .ok (some latency) := rfl
    rw [← hscrape]
    refine Shown.genuine fun e he => ?_
    obtain rfl := List.mem_singleton.mp he
    refine histogramValue_convertible wholeNumber snapshot latency.id fun converted h => ?_
    obtain rfl := Except.ok.inj h
    decide
  have hnumbers : ∀ (id : NameIdentity) (shown : List (List (KeyValue WholeFloat) × UInt64)),
      Genuine (Shown.scrape ⟨id, .gauge,
        shown.map fun e => (e.1, numberValue wholeNumber e.2 id)⟩) := by
    intro id shown
    refine Shown.genuine fun e he => ?_
    obtain ⟨entry, -, rfl⟩ := List.mem_map.mp he
    exact numberValue_convertible wholeNumber Kind.noConfusion entry.2 id
  have hsum : Genuine (.ok (some latencySum)) := hnumbers latencySum.id [([], 12)]
  have huptime : Genuine (.ok (some uptime)) :=
    hnumbers uptime.id [([⟨"path", some (.string "/")⟩], 1),
      ([⟨"path", some (.string "/")⟩, ⟨"host", none⟩], 2)]
  refine ⟨?_, ?_, ?_⟩
  · obtain ⟨out, hout⟩ : ∃ out, render [.ok (some latency)] = .ok out := ⟨_, rfl⟩
    have hgenuine : ∀ source ∈ [Except.ok (some latency)], Genuine source := by simpa using hlatency
    obtain ⟨lines, hlines, hunambiguous, htypes⟩ := (render_unambiguous hgenuine).1 out hout
    exact ⟨out, lines, hout, hlines, hunambiguous, htypes latency List.mem_cons_self⟩
  · refine (render_unambiguous ?_).2.1 _ rfl
    simpa using ⟨hlatency, hsum⟩
  · refine (render_unambiguous ?_).2.2 _ _ rfl
    simpa using huptime

end Ohnotel.Prometheus
