/-
# What is rendered can be read back

A collector renders exactly if its sources could be scraped and are consistent, no two
samples of different families have one name, and every family can be rendered; the text
is then that of the lines of its families.  Reading the text gives the families back:
their names in increasing order, their kinds and descriptions, and of each sample its
name, its labels and its number.
-/

import Ohnotel.Prometheus.Families
import Ohnotel.Prometheus.Rendering

namespace Ohnotel.Prometheus

open Foundation

variable {F : Type}

/-! ## The checks of all sample names -/

theorem checkSamples_eq_ok_iff {emitted samples : List Text} :
    checkSamples emitted samples = .ok () ↔ samples.Nodup ∧ ∀ s ∈ samples, s ∉ emitted := by
  induction samples generalizing emitted with
  | nil => simp [checkSamples]
  | cons sample rest ih =>
      rw [checkSamples, List.nodup_cons, List.forall_mem_cons]
      by_cases hsample : sample ∈ emitted
      · simp [hsample]
      · rw [if_neg hsample, ih]
        constructor
        · rintro ⟨hnodup, hrest⟩
          refine ⟨⟨fun hmem => ?_, hnodup⟩, hsample, fun s hs => ?_⟩
          · exact hrest sample hmem List.mem_cons_self
          · exact fun hemitted => hrest s hs (List.mem_cons_of_mem sample hemitted)
        · rintro ⟨⟨hnew, hnodup⟩, _, hrest⟩
          refine ⟨hnodup, fun s hs hemitted => ?_⟩
          rcases List.mem_cons.mp hemitted with rfl | hemitted
          · exact hnew hs
          · exact hrest s hs hemitted

/-- A sample is refused if it was there before. -/
theorem checkSamples_error {emitted samples : List Text} {err : PrometheusError}
    (h : checkSamples emitted samples = .error err) :
    ∃ before s after, samples = before ++ s :: after ∧ err = .familyCollision s ∧
      (s ∈ emitted ∨ s ∈ before) := by
  induction samples generalizing emitted with
  | nil => cases h
  | cons sample rest ih =>
      rw [checkSamples] at h
      by_cases hsample : sample ∈ emitted
      · rw [if_pos hsample] at h
        exact ⟨[], sample, rest, rfl, (Except.error.inj h).symm, .inl hsample⟩
      · rw [if_neg hsample] at h
        obtain ⟨before, s, after, rfl, herr, hs⟩ := ih h
        refine ⟨sample :: before, s, after, rfl, herr, ?_⟩
        rcases hs with hs | hs
        · rcases List.mem_cons.mp hs with rfl | hs
          · exact .inr List.mem_cons_self
          · exact .inl hs
        · exact .inr (List.mem_cons_of_mem sample hs)

/-! ## Rendering as a whole -/

variable [Formats F]

/-- The names of the samples of all families, in the order in which they are checked. -/
def allSampleNames (families : List (Metric F)) : List Text :=
  families.flatMap fun family => sampleNames family.finalName family.kind

omit [Formats F] in
/-- The names that are checked are those of the samples of the merged families. -/
theorem MergedInto.sampleNames_eq {metrics : List (Metric F)}
    {families : SortedMap Text (Metric F)} (h : MergedInto metrics families) :
    (families.entries.flatMap fun e => sampleNames e.1 e.2.kind) =
      allSampleNames (families.entries.map Prod.snd) := by
  rw [allSampleNames, List.flatMap_map]
  exact List.flatMap_congr fun e he => by rw [h.key e he]

/-- The text of families. -/
def expositionOf (families : List Family) : Text :=
  unlines '\n' ((families.flatMap Family.lines).map Line.text)

theorem renderFamilies_eq_ok_iff {families : List (Metric F)} {out : Text} :
    renderFamilies families = .ok out ↔
      (∀ family ∈ families, family.Renderable) ∧
        out = expositionOf (families.map Metric.family) := by
  induction families generalizing out with
  | nil => simp [renderFamilies, expositionOf, eq_comm]
  | cons family rest ih =>
      rw [renderFamilies, List.forall_mem_cons]
      cases hfamily : family.renderInto with
      | error err =>
          have hrenderable : ¬ family.Renderable := by
            intro h
            simp [Metric.renderInto_eq_ok_iff.mpr ⟨h, rfl⟩] at hfamily
          simp [hrenderable]
      | ok text =>
          obtain ⟨hrenderable, rfl⟩ := Metric.renderInto_eq_ok_iff.mp hfamily
          cases hrest : renderFamilies rest with
          | error err =>
              have hlater : ¬ ∀ family ∈ rest, family.Renderable := by
                intro h
                simp [ih.mpr ⟨h, rfl⟩] at hrest
              simp only [Except.map, reduceCtorEq, false_iff, not_and]
              exact fun h => absurd h.2 hlater
          | ok later =>
              obtain ⟨hlater, rfl⟩ := ih.mp hrest
              have htext : expositionOf ((family :: rest).map Metric.family) =
                  unlines '\n' (family.family.lines.map Line.text) ++
                    expositionOf (rest.map Metric.family) := by
                rw [expositionOf, expositionOf, List.map_cons, List.flatMap_cons, List.map_append,
                  unlines_append]
              simp only [Except.map, Except.ok.injEq, htext]
              exact ⟨fun h => ⟨⟨hrenderable, hlater⟩, h.symm⟩, fun h => h.2.symm⟩

theorem renderFamilies_error {families : List (Metric F)} {err : PrometheusError}
    (h : renderFamilies families = .error err) :
    ∃ family ∈ families, family.renderInto = .error err := by
  induction families with
  | nil => cases h
  | cons family rest ih =>
      rw [renderFamilies] at h
      cases hfamily : family.renderInto with
      | error cause =>
          simp only [hfamily] at h
          obtain rfl : cause = err := Except.error.inj h
          exact ⟨family, List.mem_cons_self, hfamily⟩
      | ok text =>
          simp only [hfamily] at h
          cases hrest : renderFamilies rest with
          | error cause =>
              rw [hrest] at h
              obtain rfl : cause = err := Except.error.inj h
              obtain ⟨other, hother, hrender⟩ := ih hrest
              exact ⟨other, List.mem_cons_of_mem family hother, hrender⟩
          | ok later => simp [hrest, Except.map] at h

/-- The families can be told apart by their samples, and each can be rendered. -/
structure Presentable (families : List (Metric F)) : Prop where
  nodup : (allSampleNames families).Nodup
  renderable : ∀ family ∈ families, family.Renderable

/-- A collector renders exactly if its sources could be scraped, are consistent, and are
merged into families that can be presented. -/
theorem render_eq_ok_iff {sources : List (Scrape F)} {out : Text} :
    render sources = .ok out ↔
      (∀ source ∈ sources, ∃ m, source = .ok m) ∧ Consistent (contributing sources) ∧
        ∃ families, Merged (contributing sources) families ∧ Presentable families ∧
          out = expositionOf (families.map Metric.family) := by
  have hloop := mergeSources_ok_iff sources
  rw [render]
  cases hmerge : mergeSources .empty sources with
  | error err =>
      simp only [hmerge, reduceCtorEq, exists_false, false_iff] at hloop
      constructor
      · exact fun h => absurd h (by simp)
      · exact fun h => absurd ⟨h.1, h.2.1⟩ hloop
  | ok families =>
      obtain ⟨hscraped, hconsistent⟩ := hloop.mp ⟨families, hmerge⟩
      have hinto := mergedInto_of_mergeSources hmerge
      have hunique : ∀ {other}, Merged (contributing sources) other →
          other = families.entries.map Prod.snd := fun h => h.unique hinto.merged
      simp only [hinto.sampleNames_eq]
      cases hcheck : checkSamples [] (allSampleNames (families.entries.map Prod.snd)) with
      | error err =>
          have hnodup : ¬ (allSampleNames (families.entries.map Prod.snd)).Nodup := by
            intro h
            rw [checkSamples_eq_ok_iff.mpr ⟨h, fun _ _ => List.not_mem_nil⟩] at hcheck
            cases hcheck
          constructor
          · exact fun h => absurd h (by simp)
          · rintro ⟨_, _, other, hother, hpresentable, _⟩
            obtain rfl := hunique hother
            exact absurd hpresentable.nodup hnodup
      | ok _ =>
          have hnodup := (checkSamples_eq_ok_iff.mp hcheck).1
          cases hrender : renderFamilies (families.entries.map Prod.snd) with
          | error err =>
              constructor
              · exact fun h => absurd h (by simp)
              · rintro ⟨_, _, other, hother, hpresentable, _⟩
                obtain rfl := hunique hother
                simp [renderFamilies_eq_ok_iff.mpr ⟨hpresentable.renderable, rfl⟩] at hrender
          | ok text =>
              obtain ⟨hrenderable, rfl⟩ := renderFamilies_eq_ok_iff.mp hrender
              constructor
              · exact fun h => ⟨hscraped, hconsistent, _, hinto.merged, ⟨hnodup, hrenderable⟩,
                  (Except.ok.inj h).symm⟩
              · rintro ⟨_, _, other, hother, _, rfl⟩
                rw [hunique hother]

/-- Whatever the names, descriptions, attribute keys and values: if a collector renders,
its text is read back line by line as the families of the metrics it scraped, in
increasing order of their names, each with its kind, its description, and exactly the
samples of its points.  Metric names and label names are names, and no label name starts
with two underscores. -/
theorem render_round_trip {sources : List (Scrape F)} {out : Text}
    (hrender : render sources = .ok out) :
    ∃ families, Merged (contributing sources) families ∧
      parse out = some (families.map Metric.family) ∧
      ∀ family ∈ families.map Metric.family,
        IsMetricName family.name ∧
        ∀ s ∈ family.samples, IsMetricName s.name ∧
          (s.labels.map Prod.fst).Nodup ∧
          ∀ label ∈ s.labels, IsLabelName label.1 ∧ ¬ "__".toList <+: label.1 := by
  obtain ⟨_, _, families, hmerged, hpresentable, rfl⟩ := render_eq_ok_iff.mp hrender
  refine ⟨families, hmerged, ?_, ?_⟩
  · apply parse_families
    intro family hfamily
    obtain ⟨m, hm, rfl⟩ := List.mem_map.mp hfamily
    exact (hpresentable.renderable m hm).wellFormed
  · intro family hfamily
    obtain ⟨m, hm, rfl⟩ := List.mem_map.mp hfamily
    have hrenderable := hpresentable.renderable m hm
    refine ⟨hrenderable.names.1, fun s hs => ⟨(hrenderable.names.2 s hs).1, ?_, ?_⟩⟩
    · exact hrenderable.nodup_labels hs
    · exact (hrenderable.names.2 s hs).2.1

/-- A counter whose description and attribute try to start lines and labels of their
own. -/
def quoted : Metric WholeFloat where
  id := ⟨"requests", "all \\ of\n# TYPE them", ""⟩
  kind := .counter
  points := [⟨[⟨"__path", some (.string "a\",b=\"c\n")⟩, ⟨"unset", none⟩], .number (.whole 3)⟩]

def quotedText : Text :=
  "# HELP requests_total all \\\\ of\\n# TYPE them\n".toList ++
    "# TYPE requests_total counter\n".toList ++
    "requests_total".toList ++ '{' :: "label__path=\"a\\\",b=\\\"c\\n\"".toList ++
    '}' :: " 3\n".toList

theorem render_round_trip_quoted :
    render [.ok (some quoted), .ok none] = .ok quotedText ∧
      ∃ families, Merged (contributing [.ok (some quoted), .ok none]) families ∧
        parse quotedText = some (families.map Metric.family) ∧
        ∀ family ∈ families.map Metric.family,
          IsMetricName family.name ∧
          ∀ s ∈ family.samples, IsMetricName s.name ∧
            (s.labels.map Prod.fst).Nodup ∧
            ∀ label ∈ s.labels, IsLabelName label.1 ∧ ¬ "__".toList <+: label.1 := by
  have hrender : render [.ok (some quoted), .ok none] = .ok quotedText := by rfl
  exact ⟨hrender, render_round_trip hrender⟩

end Ohnotel.Prometheus
