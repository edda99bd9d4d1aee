/-
# What the console shows

A metric is shown as a heading and a line for each of its points, in the order of their
times and their attributes.  A line starts with the time, or with blanks if the line before
has the same time, and ends with the value.  The cells of histograms stand in columns, if
all points are histograms with the same number of buckets.

A time before the epoch has no time of day that could be shown.
-/

import Ohnotel.AttributeOrder
import Ohnotel.Collect.Timer
import Ohnotel.Foundation.Sorting

namespace Ohnotel

inductive Temporality
  | cumulative
  | delta
  deriving DecidableEq

namespace Console

open Foundation

structure Bucket (F : Type) where
  upperBound : Option F
  count : UInt64

structure Histogram (F : Type) where
  count : UInt64
  sum : F
  buckets : List (Bucket F)
  min : Option F
  max : Option F

inductive DataPointValue (F : Type)
  | number (value : F)
  | histogram (value : Histogram F)

structure DataPoint (F : Type) where
  attributes : List (KeyValue F)
  startTime : SystemTime
  time : SystemTime
  value : DataPointValue F

structure Metric (F : Type) where
  id : NameIdentity
  kind : Kind
  temporality : Temporality
  dataPoints : List (DataPoint F)

variable {F : Type}

def DataPoint.asHistogram (dp : DataPoint F) : Option (Histogram F) :=
  match dp.value with
  | .histogram h => some h
  | .number _ => none

/-! ## Times -/

/-- `{n:0width}`. -/
def padded (width n : Nat) : Text := (Nat.toDigits 10 n).leftpad width '0'

/-- `render_time`. -/
def renderTime (time : SystemTime) : Text :=
  if time < 0 then "??:??:??.???".toList
  else
    let secOfDay := time.toNat / 10 ^ 9 % 86400
    let h := secOfDay / 3600
    let m := secOfDay / 60 % 60
    let s := secOfDay % 60
    let ms := time.toNat % 10 ^ 9 / 10 ^ 6
    padded 2 h ++ ':' :: padded 2 m ++ ':' :: padded 2 s ++ '.' :: padded 3 ms

/-- `CONTINUATION_INDENT`. -/
def continuationIndent : Nat := 2 + 12 + 2

/-- The time column of a line that shows its time. -/
def timeText (time : SystemTime) : Text := "  ".toList ++ renderTime time ++ "  ".toList

/-- The time column, after a line with another time or with none. -/
def timeCol (lastTime : Option SystemTime) (time : SystemTime) : Text :=
  if lastTime = some time then List.replicate continuationIndent ' ' else timeText time

/-! ## Values -/

variable [Formats F]

def displayU64 (value : UInt64) : Text := Nat.toDigits 10 value.toNat

def Bucket.render (b : Bucket F) : Text :=
  match b.upperBound with
  | some ub => Formats.display ub ++ ':' :: displayU64 b.count
  | none => '∞' :: ':' :: displayU64 b.count

/-- The blanks after a cell of a column. -/
def padding (widths : Option (List Nat)) (i : Nat) (cell : Text) : Text :=
  match widths.bind (·[i]?) with
  | some w => List.replicate (w - cell.length) ' '
  | none => []

/-- The cells of the buckets from the index `i` on. -/
def renderCells (widths : Option (List Nat)) (i : Nat) : List (Bucket F) → Text
  | [] => []
  | b :: rest =>
      (if 0 < i then [' '] else []) ++ b.render ++ padding widths i b.render ++
        renderCells widths (i + 1) rest

/-- `Histogram::render`. -/
def Histogram.render (h : Histogram F) (widths : Option (List Nat)) : Text :=
  '[' :: renderCells widths 0 h.buckets ++ "]  count=".toList ++ displayU64 h.count ++
    " sum=".toList ++ Formats.display h.sum ++
    (match h.min with
      | some min => " min=".toList ++ Formats.display min
      | none => []) ++
    match h.max with
    | some max => " max=".toList ++ Formats.display max
    | none => []

/-- `render_attrs`. -/
def renderAttrs (attributes : List (KeyValue F)) : Text :=
  '{' :: ", ".toList.intercalate (attributes.map KeyValue.display) ++ ['}']

def attrsCol (attributes : List (KeyValue F)) : Text :=
  if attributes.isEmpty then [] else renderAttrs attributes ++ [' ']

def valueCol (widths : Option (List Nat)) : DataPointValue F → Text
  | .histogram h => h.render widths
  | .number n => Formats.display n

/-! ## Metrics -/

namespace Metric

def kindText : Kind → Text
  | .gauge => "Gauge".toList
  | .counter => "Counter".toList
  | .histogram => "Histogram".toList

def temporalityText : Temporality → Text
  | .cumulative => "Cumulative".toList
  | .delta => "Delta".toList

omit [Formats F] in
/-- `header`. -/
def header (m : Metric F) : Text :=
  match m.kind with
  | .gauge => kindText m.kind ++ ' ' :: m.id.name.toList
  | .counter | .histogram =>
      temporalityText m.temporality ++ kindText m.kind ++ ' ' :: m.id.name.toList

/-- What stands before the lines of the points. -/
def heading (m : Metric F) : Text :=
  m.header ++ (if m.id.unit = "" then [] else " unit=".toList ++ m.id.unit.toList) ++
    if m.id.description = "" then []
    else " description=".toList ++ Formats.debugStr F m.id.description

/-- One round of the loop of `histogram_column_widths`. -/
def widen (widths : List Nat) (dp : DataPoint F) : Option (List Nat) :=
  match dp.asHistogram with
  | none => none
  | some h =>
      if h.buckets.length ≠ widths.length then none
      else some (List.zipWith max widths (h.buckets.map fun b => b.render.length))

/-- `histogram_column_widths`. -/
def histogramColumnWidths (dataPoints : List (DataPoint F)) : Option (List Nat) :=
  match dataPoints.head?.bind DataPoint.asHistogram with
  | none => none
  | some first => dataPoints.foldlM widen (List.replicate first.buckets.length 0)

/-- The loop of `render`. -/
def renderPoints (widths : Option (List Nat)) : Option SystemTime → List (DataPoint F) → Text
  | _, [] => []
  | lastTime, dp :: rest =>
      '\n' :: timeCol lastTime dp.time ++ attrsCol dp.attributes ++ valueCol widths dp.value ++
        renderPoints widths (some dp.time) rest

end Metric

section Order

variable {R : Type} [LinearOrder R] [OrderedFloat F R]

omit [Formats F] in
/-- What points are ordered by: their time and then their attributes. -/
def DataPoint.key (dp : DataPoint F) : ℤ ×ₗ List (KeyValue R) :=
  toLex (dp.time, KeyValue.rankedAll dp.attributes)

omit [Formats F] in
/-- `sorted_points`. -/
def Metric.sortedPoints (m : Metric F) : List (DataPoint F) := sortOn DataPoint.key m.dataPoints

/-- `render`. -/
def Metric.render (m : Metric F) : Text :=
  m.heading ++ renderPoints (histogramColumnWidths m.dataPoints) none m.sortedPoints

end Order

end Console

end Ohnotel
