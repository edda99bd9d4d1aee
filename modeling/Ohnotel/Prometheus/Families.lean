/-
# Merging metrics into families

The metrics that are scraped are merged into one family for each name.  That succeeds
exactly if every source could be scraped, every metric has a name, and metrics of one
family name have one identity and one kind; the families are then in the order of their
names, each with the points of all metrics of its name.
-/

import Ohnotel.Prometheus.Collector

namespace Ohnotel.Prometheus

open Foundation

variable {F : Type}

/-- The metrics that sources contribute. -/
def contributing (sources : List (Scrape F)) : List (Metric F) :=
  sources.filterMap fun source =>
    match source with
    | .ok metric => metric
    | .error _ => none

theorem mem_contributing {sources : List (Scrape F)} {m : Metric F} :
    m ∈ contributing sources ↔ .ok (some m) ∈ sources := by
  rw [contributing, List.mem_filterMap]
  constructor
  · rintro ⟨source, hsource, hm⟩
    cases source with
    | error err => cases hm
    | ok found =>
        obtain rfl : found = some m := hm
        exact hsource
  · exact fun hm => ⟨_, hm, rfl⟩

/-- Every metric has a name, and the name of its family tells its identity and kind. -/
structure Consistent (metrics : List (Metric F)) : Prop where
  named : ∀ m ∈ metrics, m.id.name ≠ ""
  agree : ∀ m ∈ metrics, ∀ other ∈ metrics, m.finalName = other.finalName →
    m.id = other.id ∧ m.kind = other.kind

/-- The points of all metrics of a family. -/
def pointsOf (metrics : List (Metric F)) (name : Text) : List (DataPoint F) :=
  (metrics.filter fun m => m.finalName = name).flatMap Metric.points

/-- The families that metrics are merged into. -/
structure Merged (metrics families : List (Metric F)) : Prop where
  increasing : families.Pairwise fun first second => first.finalName < second.finalName
  contributed : ∀ family ∈ families, ∃ m ∈ metrics, m.id = family.id ∧ m.kind = family.kind
  covered : ∀ m ∈ metrics, ∃ family ∈ families, m.id = family.id ∧ m.kind = family.kind
  points : ∀ family ∈ families, family.points = pointsOf metrics family.finalName

theorem Metric.finalName_congr {m other : Metric F} (hid : m.id = other.id)
    (hkind : m.kind = other.kind) : m.finalName = other.finalName := by
  simp only [Metric.finalName, hid, hkind]

theorem Metric.familyName_of_named {m : Metric F} (hname : m.id.name ≠ "") :
    m.familyName = .ok m.finalName := if_neg hname

theorem pointsOf_append (metrics : List (Metric F)) (m : Metric F) (name : Text) :
    pointsOf (metrics ++ [m]) name =
      pointsOf metrics name ++ if m.finalName = name then m.points else [] := by
  rw [pointsOf, pointsOf, List.filter_append, List.flatMap_append]
  by_cases hname : m.finalName = name
  · simp [hname]
  · simp [hname]

/-- The points of a family are those of metrics of its kind. -/
theorem Merged.forall_points {metrics families : List (Metric F)} (h : Merged metrics families)
    (hconsistent : Consistent metrics) (holds : Kind → DataPoint F → Prop)
    (hholds : ∀ m ∈ metrics, ∀ point ∈ m.points, holds m.kind point) :
    ∀ family ∈ families, ∀ point ∈ family.points, holds family.kind point := by
  intro family hfamily point hpoint
  rw [h.points family hfamily] at hpoint
  obtain ⟨m, hm, hmem⟩ := List.mem_flatMap.mp hpoint
  obtain ⟨hm, hname⟩ := List.mem_filter.mp hm
  obtain ⟨other, hother, hid, hkind⟩ := h.contributed family hfamily
  have hsame : m.finalName = other.finalName := by
    rw [Metric.finalName_congr hid hkind]
    simpa using hname
  rw [← hkind, ← (hconsistent.agree m hm other hother hsame).2]
  exact hholds m hm point hmem

/-- What the first loop has done with the metrics it has seen. -/
structure MergedInto (metrics : List (Metric F)) (families : SortedMap Text (Metric F)) :
    Prop where
  key : ∀ e ∈ families.entries, e.1 = e.2.finalName
  contributed : ∀ e ∈ families.entries, ∃ m ∈ metrics, m.id = e.2.id ∧ m.kind = e.2.kind
  covered : ∀ m ∈ metrics, ∃ e ∈ families.entries, m.id = e.2.id ∧ m.kind = e.2.kind
  points : ∀ e ∈ families.entries, e.2.points = pointsOf metrics e.1

section Merge

variable {metrics : List (Metric F)} {families next : SortedMap Text (Metric F)} {m : Metric F}

theorem mergedInto_empty : MergedInto ([] : List (Metric F)) .empty where
  key := by simp
  contributed := by simp
  covered := by simp
  points := by simp

theorem MergedInto.merged (h : MergedInto metrics families) :
    Merged metrics (families.entries.map Prod.snd) where
  increasing := by
    refine List.pairwise_map.mpr (families.increasing.imp_of_mem ?_)
    intro first second hfirst hsecond hlt
    rw [← h.key first hfirst, ← h.key second hsecond]
    exact hlt
  contributed family hfamily := by
    obtain ⟨e, he, rfl⟩ := List.mem_map.mp hfamily
    exact h.contributed e he
  covered m hm := by
    obtain ⟨e, he, hsame⟩ := h.covered m hm
    exact ⟨e.2, List.mem_map_of_mem he, hsame⟩
  points family hfamily := by
    obtain ⟨e, he, rfl⟩ := List.mem_map.mp hfamily
    rw [← h.key e he]
    exact h.points e he

/-- Putting the family of a metric, with the points of all metrics of its name, in the
place of the one that is there. -/
theorem MergedInto.insert (h : MergedInto metrics families) {family : Metric F}
    (hid : m.id = family.id) (hkind : m.kind = family.kind)
    (hpoints : family.points = pointsOf metrics m.finalName ++ m.points)
    (hsame : ∀ e ∈ families.entries, e.1 = m.finalName → e.2.id = m.id ∧ e.2.kind = m.kind) :
    MergedInto (metrics ++ [m]) (families.insert m.finalName family) where
  key e he := by
    rcases SortedMap.mem_entries_insert.mp he with rfl | ⟨hmem, _⟩
    · exact Metric.finalName_congr hid hkind
    · exact h.key e hmem
  contributed e he := by
    rcases SortedMap.mem_entries_insert.mp he with rfl | ⟨hmem, _⟩
    · exact ⟨m, by simp, hid, hkind⟩
    · obtain ⟨other, hother, heq⟩ := h.contributed e hmem
      exact ⟨other, List.mem_append_left _ hother, heq⟩
  covered other hother := by
    rcases List.mem_append.mp hother with hother | hother
    · obtain ⟨e, he, hotherId, hotherKind⟩ := h.covered other hother
      by_cases hkey : e.1 = m.finalName
      · obtain ⟨heId, heKind⟩ := hsame e he hkey
        exact ⟨(m.finalName, family), SortedMap.mem_entries_insert.mpr (.inl rfl),
          hotherId.trans (heId.trans hid), hotherKind.trans (heKind.trans hkind)⟩
      · exact ⟨e, SortedMap.mem_entries_insert.mpr (.inr ⟨he, hkey⟩), hotherId, hotherKind⟩
    · obtain rfl := List.mem_singleton.mp hother
      exact ⟨_, SortedMap.mem_entries_insert.mpr (.inl rfl), hid, hkind⟩
  points e he := by
    rw [pointsOf_append]
    rcases SortedMap.mem_entries_insert.mp he with rfl | ⟨hmem, hkey⟩
    · rw [if_pos rfl]
      exact hpoints
    · rw [if_neg (Ne.symm hkey), List.append_nil]
      exact h.points e hmem

/-- No metric has the name of a family that is not there yet. -/
theorem MergedInto.pointsOf_eq_nil (h : MergedInto metrics families) {name : Text}
    (hnone : families.lookup name = none) : pointsOf metrics name = [] := by
  have hfilter : metrics.filter (fun m => m.finalName = name) = [] := by
    refine List.filter_eq_nil_iff.mpr fun m hm => ?_
    obtain ⟨e, he, hid, hkind⟩ := h.covered m hm
    have hkey := SortedMap.lookup_eq_none_iff.mp hnone e he
    rw [h.key e he, ← Metric.finalName_congr hid hkind] at hkey
    simpa using hkey
  rw [pointsOf, hfilter, List.flatMap_nil]

/-- A round of the first loop that succeeds. -/
theorem MergedInto.mergeMetric (h : MergedInto metrics families)
    (hmerge : mergeMetric families m = .ok next) : MergedInto (metrics ++ [m]) next := by
  rw [Prometheus.mergeMetric] at hmerge
  by_cases hname : m.id.name = ""
  · simp [Metric.familyName, hname] at hmerge
  rw [Metric.familyName_of_named hname] at hmerge
  cases hlookup : families.lookup m.finalName with
  | none =>
      simp only [hlookup] at hmerge
      obtain rfl := Except.ok.inj hmerge
      refine h.insert rfl rfl (by simp [h.pointsOf_eq_nil hlookup]) ?_
      exact fun e he hkey => absurd hkey (SortedMap.lookup_eq_none_iff.mp hlookup e he)
  | some family =>
      have hentry := SortedMap.lookup_eq_some_iff.mp hlookup
      simp only [hlookup] at hmerge
      by_cases hsame : family.id ≠ m.id ∨ family.kind ≠ m.kind
      · simp [if_pos hsame] at hmerge
      rw [if_neg hsame] at hmerge
      obtain rfl := Except.ok.inj hmerge
      obtain ⟨hid, hkind⟩ : family.id = m.id ∧ family.kind = m.kind := by
        simpa [not_or] using hsame
      refine h.insert hid.symm hkind.symm ?_ fun e he hkey => ?_
      · rw [h.points _ hentry]
      · obtain rfl : e = (m.finalName, family) := SortedMap.entry_unique he hentry hkey
        exact ⟨hid, hkind⟩

/-- A round fails only over a metric without a name or over one whose family has another
identity or kind. -/
theorem mergeMetric_error {err : PrometheusError} (hmerge : mergeMetric families m = .error err) :
    m.id.name = "" ∧ err = .emptyMetricName ∨
      err = .familyCollision m.finalName ∧
        ∃ family, (m.finalName, family) ∈ families.entries ∧
          (family.id ≠ m.id ∨ family.kind ≠ m.kind) := by
  rw [mergeMetric] at hmerge
  by_cases hname : m.id.name = ""
  · rw [Metric.familyName, if_pos hname] at hmerge
    exact .inl ⟨hname, (Except.error.inj hmerge).symm⟩
  rw [Metric.familyName_of_named hname] at hmerge
  cases hlookup : families.lookup m.finalName with
  | none => simp [hlookup] at hmerge
  | some family =>
      simp only [hlookup] at hmerge
      by_cases hsame : family.id ≠ m.id ∨ family.kind ≠ m.kind
      · rw [if_pos hsame] at hmerge
        exact .inr ⟨(Except.error.inj hmerge).symm, family,
          SortedMap.lookup_eq_some_iff.mp hlookup, hsame⟩
      · simp [if_neg hsame] at hmerge

end Merge

/-- What the first loop returns: the merged families, or an error that a source or a
metric is the reason of. -/
inductive MergeResult (seen : List (Metric F)) (sources : List (Scrape F)) :
    Except Error (SortedMap Text (Metric F)) → Prop
  | ok (families : SortedMap Text (Metric F)) (scraped : ∀ source ∈ sources, ∃ m, source = .ok m)
      (named : ∀ m ∈ contributing sources, m.id.name ≠ "")
      (into : MergedInto (seen ++ contributing sources) families) :
      MergeResult seen sources (.ok families)
  | source (err : Error) (failed : .error err ∈ sources) : MergeResult seen sources (.error err)
  | unnamed (m : Metric F) (contributed : m ∈ contributing sources) (unnamed : m.id.name = "") :
      MergeResult seen sources (.error (.prometheus .emptyMetricName))
  | collision (m other : Metric F) (contributed : m ∈ contributing sources)
      (earlier : other ∈ seen ++ contributing sources) (same : m.finalName = other.finalName)
      (different : m.id ≠ other.id ∨ m.kind ≠ other.kind) :
      MergeResult seen sources (.error (.prometheus (.familyCollision m.finalName)))

theorem mergeSources_result {seen : List (Metric F)} {families : SortedMap Text (Metric F)}
    (h : MergedInto seen families) (sources : List (Scrape F)) :
    MergeResult seen sources (mergeSources families sources) := by
  induction sources generalizing seen families with
  | nil => exact .ok families (by simp) (by simp [contributing]) (by simpa [contributing] using h)
  | cons source rest ih =>
      match source with
      | .error err => exact .source err List.mem_cons_self
      | .ok none =>
          rw [mergeSources]
          have hrest := ih h
          generalize mergeSources families rest = result at hrest
          cases hrest with
          | ok families scraped named into =>
              exact .ok families (List.forall_mem_cons.mpr ⟨⟨none, rfl⟩, scraped⟩) named into
          | source err failed => exact .source err (List.mem_cons_of_mem _ failed)
          | unnamed m contributed unnamed => exact .unnamed m contributed unnamed
          | collision m other contributed earlier same different =>
              exact .collision m other contributed earlier same different
      | .ok (some metric) =>
          have hcontributing : contributing (.ok (some metric) :: rest) =
              metric :: contributing rest := rfl
          have happend : seen ++ (metric :: contributing rest) =
              seen ++ [metric] ++ contributing rest := by simp
          rw [mergeSources]
          cases hmerge : mergeMetric families metric with
          | error err =>
              rcases mergeMetric_error hmerge with ⟨hname, rfl⟩ | ⟨rfl, family, hentry, hdifferent⟩
              · exact .unnamed metric (by simp [hcontributing]) hname
              · obtain ⟨other, hother, hid, hkind⟩ := h.contributed _ hentry
                have hname : metric.finalName = other.finalName :=
                  (h.key _ hentry).trans (Metric.finalName_congr hid hkind).symm
                refine .collision metric other (by simp [hcontributing])
                  (List.mem_append_left _ hother) hname ?_
                rw [hid, hkind]
                exact hdifferent.imp Ne.symm Ne.symm
          | ok next =>
              have hrest := ih (h.mergeMetric hmerge)
              have hnamed : metric.id.name ≠ "" := by
                intro hname
                simp [mergeMetric, Metric.familyName, hname] at hmerge
              simp only
              generalize mergeSources next rest = result at hrest
              cases hrest with
              | ok families scraped named into =>
                  refine .ok families (List.forall_mem_cons.mpr ⟨⟨_, rfl⟩, scraped⟩) ?_ ?_
                  · rw [hcontributing]
                    exact List.forall_mem_cons.mpr ⟨hnamed, named⟩
                  · rw [hcontributing, happend]
                    exact into
              | source err failed => exact .source err (List.mem_cons_of_mem _ failed)
              | unnamed m contributed unnamed =>
                  exact .unnamed m (List.mem_cons_of_mem metric contributed) unnamed
              | collision m other contributed earlier same different =>
                  rw [← happend] at earlier
                  exact .collision m other (List.mem_cons_of_mem metric contributed) earlier same
                    different

/-- Metrics that are merged are consistent. -/
theorem MergedInto.consistent {metrics : List (Metric F)} {families : SortedMap Text (Metric F)}
    (h : MergedInto metrics families) (hnamed : ∀ m ∈ metrics, m.id.name ≠ "") :
    Consistent metrics where
  named := hnamed
  agree m hm other hother hname := by
    obtain ⟨e, he, hid, hkind⟩ := h.covered m hm
    obtain ⟨e', he', hid', hkind'⟩ := h.covered other hother
    have hkey : e.1 = e'.1 := by
      rw [h.key e he, h.key e' he', ← Metric.finalName_congr hid hkind,
        ← Metric.finalName_congr hid' hkind', hname]
    obtain rfl := SortedMap.entry_unique he he' hkey
    exact ⟨hid.trans hid'.symm, hkind.trans hkind'.symm⟩

/-- The first loop succeeds exactly if every source could be scraped and the metrics are
consistent. -/
theorem mergeSources_ok_iff (sources : List (Scrape F)) :
    (∃ families, mergeSources .empty sources = .ok families) ↔
      (∀ source ∈ sources, ∃ m, source = .ok m) ∧ Consistent (contributing sources) := by
  have hresult := mergeSources_result mergedInto_empty sources
  constructor
  · rintro ⟨families, hmerge⟩
    rw [hmerge] at hresult
    cases hresult with
    | ok _ scraped named into => exact ⟨scraped, into.consistent named⟩
  · rintro ⟨hscraped, hconsistent⟩
    generalize mergeSources .empty sources = result at hresult
    cases hresult with
    | ok families _ _ _ => exact ⟨families, rfl⟩
    | source err failed =>
        obtain ⟨m, hm⟩ := hscraped _ failed
        cases hm
    | unnamed m contributed unnamed => exact absurd unnamed (hconsistent.named m contributed)
    | collision m other contributed earlier same different =>
        obtain ⟨hid, hkind⟩ := hconsistent.agree m contributed other earlier same
        exact absurd different (by simp [hid, hkind])

/-- The families that the first loop has merged. -/
theorem mergedInto_of_mergeSources {sources : List (Scrape F)}
    {families : SortedMap Text (Metric F)} (hmerge : mergeSources .empty sources = .ok families) :
    MergedInto (contributing sources) families := by
  have hresult := mergeSources_result mergedInto_empty sources
  rw [hmerge] at hresult
  cases hresult with
  | ok _ _ _ into => exact into

/-- Metrics are merged into the same families, whoever merges them. -/
theorem Merged.unique {metrics families other : List (Metric F)} (h : Merged metrics families)
    (hother : Merged metrics other) : families = other := by
  have hmem : ∀ {first second : List (Metric F)}, Merged metrics first → Merged metrics second →
      ∀ family ∈ first, family ∈ second := by
    intro first second hfirst hsecond family hfamily
    obtain ⟨m, hm, hid, hkind⟩ := hfirst.contributed family hfamily
    obtain ⟨found, hfound, hid', hkind'⟩ := hsecond.covered m hm
    have hname : family.finalName = found.finalName :=
      Metric.finalName_congr (hid.symm.trans hid') (hkind.symm.trans hkind')
    have hpoints : family.points = found.points := by
      rw [hfirst.points family hfamily, hsecond.points found hfound, hname]
    have heq : family = found := by
      cases family
      cases found
      simp_all
    exact heq ▸ hfound
  exact eq_of_pairwise_lt h.increasing hother.increasing fun family =>
    ⟨hmem h hother family, hmem hother h family⟩

end Ohnotel.Prometheus
