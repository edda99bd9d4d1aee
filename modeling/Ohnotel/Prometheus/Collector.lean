/-
# Scraping and rendering

A Prometheus collector reads every registered source when it is asked to render.  The
metrics it scrapes are merged by the name of their family, the names of all samples are
checked against each other, and the families are rendered in the order of their names.
-/

import Ohnotel.Prometheus.Dto
import Ohnotel.BucketMap.Basic

namespace Ohnotel.Prometheus

open Foundation Atomic

variable {F : Type}

/-- What `Source::scrape` returns: the metric of a source, or nothing if nothing has been
recorded yet. -/
abbrev Scrape (F : Type) : Type := Except Error (Option (Metric F))

section Scrape

variable {A T V : Type} [Record A T V] (into : V → NameIdentity → Except Error (DataPointValue F))
  (id : NameIdentity)

/-- The callback that `scrape` passes to `visit_bucket`, with the points and the failure
it has captured.  It refuses no entry, so it never changes the source. -/
def scrapeEntry (state : List (DataPoint F) × Option Error) (e : CanonicalEntry (KeyValue F))
    (cell : A) : Bool × List (DataPoint F) × Option Error :=
  (true,
    match state.2 with
    | none =>
        match into (Record.current cell) id with
        | .ok value => (state.1 ++ [⟨e.attrs, value⟩], none)
        | .error err => (state.1, some err)
    | some _ => state)

/-- `SourceHandle::scrape`. -/
def scrape (kind : Kind) (cfg : Config (KeyValue F) A) (buckets : BucketMap (KeyValue F) A) :
    Scrape F :=
  let visited := (buckets.visitBucket cfg (scrapeEntry into id) ([], none)).2
  match visited.2 with
  | some err => .error err
  | none =>
      if visited.1.isEmpty then .ok none
      else .ok (some { id := id, kind := kind, points := visited.1 })

end Scrape

/-- One round of the first loop of `render`. -/
def mergeMetric (families : SortedMap Text (Metric F)) (metric : Metric F) :
    Except PrometheusError (SortedMap Text (Metric F)) :=
  match metric.familyName with
  | .error err => .error err
  | .ok name =>
      match families.lookup name with
      | some family =>
          if family.id ≠ metric.id ∨ family.kind ≠ metric.kind then
            .error (.familyCollision name)
          else
            .ok (families.insert name { family with points := family.points ++ metric.points })
      | none => .ok (families.insert name metric)

/-- The first loop of `render`. -/
def mergeSources (families : SortedMap Text (Metric F)) :
    List (Scrape F) → Except Error (SortedMap Text (Metric F))
  | [] => .ok families
  | .error err :: _ => .error err
  | .ok none :: rest => mergeSources families rest
  | .ok (some metric) :: rest =>
      match mergeMetric families metric with
      | .error err => .error (.prometheus err)
      | .ok merged => mergeSources merged rest

/-- What is put behind the name of a family to name its samples. -/
def suffixes : Kind → List Text
  | .histogram => [[], "_bucket".toList, "_sum".toList, "_count".toList]
  | .counter | .gauge => [[]]

/-- The names of the samples of a family. -/
def sampleNames (name : Text) (kind : Kind) : List Text := (suffixes kind).map (name ++ ·)

/-- The second loop of `render`, over the names of all samples in turn. -/
def checkSamples (emitted : List Text) : List Text → Except PrometheusError Unit
  | [] => .ok ()
  | sample :: rest =>
      if sample ∈ emitted then .error (.familyCollision sample)
      else checkSamples (sample :: emitted) rest

variable [Formats F]

/-- The third loop of `render`. -/
def renderFamilies : List (Metric F) → Except PrometheusError Text
  | [] => .ok []
  | family :: rest =>
      match family.renderInto with
      | .error err => .error err
      | .ok text => (renderFamilies rest).map (text ++ ·)

/-- `Collector::render`. -/
def render (sources : List (Scrape F)) : Except Error Text :=
  match mergeSources .empty sources with
  | .error err => .error err
  | .ok families =>
      let samples := families.entries.flatMap fun entry => sampleNames entry.1 entry.2.kind
      match checkSamples [] samples with
      | .error err => .error (.prometheus err)
      | .ok () =>
          match renderFamilies (families.entries.map Prod.snd) with
          | .error err => .error (.prometheus err)
          | .ok out => .ok out

end Ohnotel.Prometheus
