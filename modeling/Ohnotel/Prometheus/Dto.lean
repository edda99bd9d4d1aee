/-
# Rendering a metric family

A family is rendered in the text exposition format: a help line, if there is a
description, a type line, and the lines of its points in the order of their rendered
labels.  Names are mapped onto the alphabet of the format; descriptions and label values
are escaped, each in its own way.

Everything that is written is returned as a text to append; what can go wrong goes wrong
before anything is written.
-/

import Ohnotel.Foundation.Escaping
import Ohnotel.Foundation.Sorting
import Ohnotel.Observe.Basic
import Mathlib.Data.Char
import Mathlib.Data.List.Lex
import Mathlib.Order.Lex

namespace Ohnotel.Prometheus

open Foundation

/-- The counts of the buckets are not cumulative. -/
structure HistogramValue (F : Type) where
  boundaries : List F
  bucketCounts : List UInt64
  count : UInt64
  sum : F

inductive DataPointValue (F : Type)
  | number (value : F)
  | histogram (value : HistogramValue F)

structure DataPoint (F : Type) where
  attrs : List (KeyValue F)
  value : DataPointValue F

/-- `prometheus::dto::Metric`: what a source is rendered as. -/
structure Metric (F : Type) where
  id : NameIdentity
  kind : Kind
  points : List (DataPoint F)

/-! ## Names -/

def keptInMetricName (c : Char) : Bool := c.isAlphanum || c == '_' || c == ':'

def keptInLabelName (c : Char) : Bool := c.isAlphanum || c == '_'

/-- The loop of `sanitize_metric_name` and of `sanitize_label_name`. -/
def sanitize (kept : Char → Bool) : Text → Text
  | [] => []
  | c :: rest =>
      (if c.isDigit then ['_'] else []) ++ (c :: rest).map fun c => if kept c then c else '_'

def sanitizeMetricName (name : Text) : Text := sanitize keptInMetricName name

def sanitizeLabelName (name : Text) : Text :=
  let out := sanitize keptInLabelName name
  if "__".toList <+: out then "label".toList ++ out else out

/-- The name of the family of a metric whose own name is not empty. -/
def Metric.finalName {F : Type} (m : Metric F) : Text :=
  let name := sanitizeMetricName m.id.name.toList
  if m.kind = .counter ∧ ¬ "_total".toList <:+ name then name ++ "_total".toList else name

/-- `Metric::family_name`. -/
def Metric.familyName {F : Type} (m : Metric F) : Except PrometheusError Text :=
  if m.id.name = "" then .error .emptyMetricName else .ok m.finalName

def kindStr : Kind → Text
  | .counter => "counter".toList
  | .gauge => "gauge".toList
  | .histogram => "histogram".toList

/-! ## Escaping -/

def helpEscaping : Escaping Char where
  mark := '\\'
  code c := if c = '\\' then some '\\' else if c = '\n' then some 'n' else none
  decode c := if c = '\\' then some '\\' else if c = 'n' then some '\n' else none
  decode_code := by grind
  code_mark := rfl

def labelEscaping : Escaping Char where
  mark := '\\'
  code c :=
    if c = '\\' then some '\\' else if c = '"' then some '"' else if c = '\n' then some 'n'
    else none
  decode c :=
    if c = '\\' then some '\\' else if c = '"' then some '"' else if c = 'n' then some '\n'
    else none
  decode_code := by grind
  code_mark := rfl

/-- `escape_help_into`. -/
def escapeHelp (text : Text) : Text := helpEscaping.escape text

/-- `escape_label_value_into`. -/
def escapeLabelValue (text : Text) : Text := labelEscaping.escape text

/-! ## Numbers -/

variable {F : Type} [Formats F]

open Formats in
/-- `write_f64`. -/
def writeF64 (value : F) : Text :=
  if isNan value then "NaN".toList
  else if isInfinite value then (if isSignPositive value then "+Inf".toList else "-Inf".toList)
  else display value

/-- `Display` of a `u64`. -/
def displayU64 (value : UInt64) : Text := Nat.toDigits 10 value.toNat

/-- `u64::saturating_add`. -/
def saturatingAdd (a b : UInt64) : UInt64 :=
  UInt64.ofNat (min (a.toNat + b.toNat) (2 ^ 64 - 1))

/-! ## Labels -/

/-- What stands between the quotes, before escaping. -/
def labelText : Value F → Text
  | .string value => value.toList
  | value => value.display

omit [Formats F] in
/-- The first loop of `render_labels`: the attributes that have a value. -/
def collectLabels (metric : Text) (reserved : List Text) :
    List (KeyValue F) → Except PrometheusError (List (Text × Value F))
  | [] => .ok []
  | attr :: rest =>
      match attr.value with
      | none => collectLabels metric reserved rest
      | some value =>
          if attr.key = "" then .error (.emptyLabelName metric)
          else
            let name := sanitizeLabelName attr.key.toList
            if name ∈ reserved then .error (.labelCollision name metric)
            else (collectLabels metric reserved rest).map ((name, value) :: ·)

/-- One round of the second loop of `render_labels`. -/
def pushLabel (labels : Text) (label : Text × Value F) : Text :=
  (if labels.isEmpty then labels else labels ++ [',']) ++ label.1 ++ "=\"".toList ++
    escapeLabelValue (labelText label.2) ++ ['"']

/-- `render_labels`. -/
def renderLabels (metric : Text) (attrs : List (KeyValue F)) (reserved : List Text) :
    Except PrometheusError Text :=
  match collectLabels metric reserved attrs with
  | .error err => .error err
  | .ok labels =>
      let sorted := sortOn Prod.fst labels
      match firstRepeat Prod.fst sorted with
      | some (_, collision) => .error (.labelCollision collision.1 metric)
      | none => .ok (sorted.foldl pushLabel [])

/-! ## Histograms -/

omit [Formats F] in
/-- The bucket lines from the index `idx` on: each boundary with the count of the values
up to it. -/
def HistogramValue.rows (h : HistogramValue F) (idx : Nat) (cumulative : UInt64) :
    List F → List (F × UInt64)
  | [] => []
  | boundary :: rest =>
      let cumulative := saturatingAdd cumulative (h.bucketCounts.getD idx 0)
      (boundary, cumulative) :: rows h (idx + 1) cumulative rest

/-- The labels of a point between braces, if there are any. -/
def inBraces (labels : Text) : Text := if labels.isEmpty then [] else '{' :: labels ++ ['}']

/-- One `_bucket` line. -/
def bucketLine (name labels boundary count : Text) : Text :=
  name ++ "_bucket".toList ++ '{' :: (if labels.isEmpty then [] else labels ++ [',']) ++
    "le=\"".toList ++ boundary ++ ['"', '}', ' '] ++ count ++ ['\n']

/-- `HistogramValue::render_into`. -/
def HistogramValue.renderInto (h : HistogramValue F) (name labels : Text) : Text :=
  ((h.rows 0 0 h.boundaries).flatMap fun row =>
    bucketLine name labels (writeF64 row.1) (displayU64 row.2)) ++
  bucketLine name labels "+Inf".toList (displayU64 h.count) ++
  (name ++ "_sum".toList ++ inBraces labels ++ ' ' :: writeF64 h.sum ++ ['\n']) ++
  (name ++ "_count".toList ++ inBraces labels ++ ' ' :: displayU64 h.count ++ ['\n'])

/-! ## Families -/

omit [Formats F] in
/-- `le` is generated on the `_bucket` lines, so it is reserved for histogram points. -/
def DataPointValue.reserved : DataPointValue F → List Text
  | .number _ => []
  | .histogram _ => ["le".toList]

/-- The first loop of `render_into`: the points with their rendered labels. -/
def renderPoints (metric : Text) :
    List (DataPoint F) → Except PrometheusError (List (Text × DataPoint F))
  | [] => .ok []
  | point :: rest =>
      match renderLabels metric point.attrs point.value.reserved with
      | .error err => .error err
      | .ok labels => (renderPoints metric rest).map ((labels, point) :: ·)

/-- What is written for one point. -/
def DataPoint.renderInto (point : DataPoint F) (name labels : Text) : Text :=
  match point.value with
  | .number value => name ++ inBraces labels ++ ' ' :: writeF64 value ++ ['\n']
  | .histogram value => value.renderInto name labels

omit [Formats F] in
/-- The lines before the points. -/
def Metric.renderHeader (m : Metric F) (name : Text) : Text :=
  (if m.id.description = "" then []
    else "# HELP ".toList ++ name ++ ' ' :: escapeHelp m.id.description.toList ++ ['\n']) ++
  ("# TYPE ".toList ++ name ++ ' ' :: kindStr m.kind ++ ['\n'])

/-- `Metric::render_into`: what it appends. -/
def Metric.renderInto (m : Metric F) : Except PrometheusError Text :=
  match m.familyName with
  | .error err => .error err
  | .ok name =>
      match renderPoints m.id.name.toList m.points with
      | .error err => .error err
      | .ok points =>
          let sorted := sortOn Prod.fst points
          match firstRepeat Prod.fst sorted with
          | some (_, duplicate) => .error (.duplicateSeries duplicate.1 m.id.name.toList)
          | none =>
              .ok (m.renderHeader name ++
                sorted.flatMap fun entry => entry.2.renderInto name entry.1)

/-! ## Conversion from snapshots -/

section Conversion

variable {T : Type} (toF64 : T → Option F)

omit [Formats F] in
def toNumber (value : T) : Except Error F :=
  match toF64 value with
  | some number => .ok number
  | none => .error .valueToF64

omit [Formats F] in
/-- `into_data_point_value` of a measurement. -/
def numberValue (value : T) (_metric : NameIdentity) : Except Error (DataPointValue F) :=
  (toNumber toF64 value).map .number

/-- The boundaries of a snapshot as numbers. -/
def convertBoundaries (metric : Text) : List T → Except Error (List F)
  | [] => .ok []
  | boundary :: rest =>
      match toNumber toF64 boundary with
      | .error err => .error err
      | .ok boundary =>
          if Formats.isNan boundary ∨ Formats.isInfinite boundary then
            .error (.prometheus (.nonFiniteBoundary metric))
          else (convertBoundaries metric rest).map (boundary :: ·)

/-- `into_data_point_value` of the snapshot of a histogram. -/
def histogramValue (snapshot : Atomic.Snapshot T) (metric : NameIdentity) :
    Except Error (DataPointValue F) :=
  match convertBoundaries toF64 metric.name.toList snapshot.boundaries with
  | .error err => .error err
  | .ok boundaries =>
      (toNumber toF64 snapshot.sum).map fun sum =>
        .histogram
          { boundaries := boundaries
            bucketCounts := snapshot.bucketCounts
            count := snapshot.count
            sum := sum }

end Conversion

end Ohnotel.Prometheus
