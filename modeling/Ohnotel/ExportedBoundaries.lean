/-
# Boundaries as they are exported

The boundaries of a histogram were checked to increase as integers.  Both exporters
convert them to floats, which have fewer digits: two boundaries can become one, and then
two bucket lines of the histogram bear the same `le` label.
-/

import Ohnotel.Foundation.Rounding
import Ohnotel.Otel.Dto
import Ohnotel.Prometheus.Histograms
import Ohnotel.Prometheus.Series

namespace Ohnotel

open Foundation Atomic

/-- The binary digits of a float. -/
def mantissaDigits : Nat := 53

theorem finite_whole (value : Int) : Formats.Finite (WholeFloat.whole value) := by
  simp [Formats.Finite, Formats.isNan, Formats.isInfinite]

section Conversion

variable {T : Type} [PartialOrd T] [IntegerMeasure T]

/-- `to_f64` of an integer: the nearest float. -/
def nearestFloat (value : T) : WholeFloat :=
  .whole (roundEven mantissaDigits (IntegerMeasure.toInt value))

def toF64 (value : T) : Option WholeFloat := some (nearestFloat value)

/-- The middle between two floats is between two boundaries. -/
def Apart (first second : T) : Prop :=
  Separated mantissaDigits (IntegerMeasure.toInt first) (IntegerMeasure.toInt second)

theorem finite_nearestFloat (value : T) : Formats.Finite (nearestFloat value) :=
  finite_whole _

theorem convertBoundaries_toF64 (metric : Text) (boundaries : List T) :
    Prometheus.convertBoundaries toF64 metric boundaries =
      .ok (boundaries.map nearestFloat) := by
  induction boundaries with
  | nil => rfl
  | cons boundary rest ih =>
      have hfinite : ¬ (Formats.isNan (nearestFloat boundary) ∨
          Formats.isInfinite (nearestFloat boundary)) := by
        simp [(finite_nearestFloat boundary).1, (finite_nearestFloat boundary).2]
      have hnumber : Prometheus.toNumber toF64 boundary = .ok (nearestFloat boundary) := rfl
      rw [Prometheus.convertBoundaries, hnumber, ih]
      exact if_neg hfinite

theorem mapM_toNumber_toF64 (err : Error) (boundaries : List T) :
    boundaries.mapM (Otel.toNumber toF64 err) = .ok (boundaries.map nearestFloat) := by
  induction boundaries with
  | nil => rfl
  | cons boundary rest ih =>
      rw [List.mapM_cons, ih]
      rfl

/-- Both exporters convert every snapshot of integers. -/
theorem prometheus_histogramValue_toF64 (snapshot : Snapshot T) (id : NameIdentity) :
    Prometheus.histogramValue toF64 snapshot id =
      .ok (.histogram
        { boundaries := snapshot.boundaries.map nearestFloat
          bucketCounts := snapshot.bucketCounts
          count := snapshot.count
          sum := nearestFloat snapshot.sum }) := by
  rw [Prometheus.histogramValue, convertBoundaries_toF64]
  rfl

theorem otel_histogramValue_toF64 (snapshot : Snapshot T) :
    Otel.histogramValue toF64 snapshot =
      .ok
        { count := snapshot.count
          sum := nearestFloat snapshot.sum
          bucketCounts := snapshot.bucketCounts
          explicitBounds := snapshot.boundaries.map nearestFloat
          min := snapshot.min.map nearestFloat
          max := snapshot.max.map nearestFloat } := by
  rw [Otel.histogramValue, mapM_toNumber_toF64]
  cases snapshot.min <;> cases snapshot.max <;> rfl

theorem WholeFloat.whole_lt_whole {first second : Int} :
    WholeFloat.whole first < .whole second ↔ first < second := by
  show toLex (1, first) < toLex (1, second) ↔ first < second
  simp [Prod.Lex.lt_iff]

/-- Converted boundaries increase exactly if the middle between two floats is between
each boundary and the next. -/
theorem pairwise_nearestFloat_iff {boundaries : List T} :
    (boundaries.map nearestFloat).Pairwise (· < ·) ↔ boundaries.IsChain Apart := by
  have hrounded : ((boundaries.map IntegerMeasure.toInt).map
      (roundEven mantissaDigits)).Pairwise (· < ·) ↔
      (boundaries.map IntegerMeasure.toInt).IsChain (Separated mantissaDigits) :=
    pairwise_roundEven_iff (by decide)
  rw [List.isChain_map, List.map_map, List.pairwise_map] at hrounded
  rw [List.pairwise_map]
  simp only [nearestFloat, WholeFloat.whole_lt_whole]
  exact hrounded

end Conversion

/-! ## The labels of the bucket lines -/

namespace Prometheus

/-- The last labels of the bucket lines of a point, which say up to where they count. -/
def DataPoint.leLabels (point : DataPoint WholeFloat) (name : Text) : List (Option (Text × Text)) :=
  ((point.samples name).filter fun sample => sample.name = name ++ "_bucket".toList).map
    fun sample => sample.labels.getLast?

def leLabel (boundary : Text) : Option (Text × Text) := some ("le".toList, boundary)

theorem DataPoint.leLabels_eq {point : DataPoint WholeFloat} {h : HistogramValue WholeFloat}
    (hpoint : point.value = .histogram h) (name : Text) :
    point.leLabels name =
      (h.boundaries.map fun boundary => leLabel (writeF64 boundary)) ++
        [leLabel "+Inf".toList] := by
  have hrows : ∀ rows : List (WholeFloat × UInt64),
      ((rows.map fun row => point.bucketSample name (writeF64 row.1) row.2).filter
        fun sample => sample.name = name ++ "_bucket".toList).map
          (fun sample => sample.labels.getLast?) =
        (rows.map Prod.fst).map fun boundary => leLabel (writeF64 boundary) := by
    intro rows
    induction rows with
    | nil => rfl
    | cons row rest ih => simpa [bucketSample, leLabel] using ih
  rw [leLabels, samples, hpoint]
  simp only [List.filter_append, List.map_append, hrows, h.map_fst_rows]
  simp [bucketSample, leLabel]

end Prometheus

section Accepted

variable {T : Type} [PartialOrd T] [IntegerMeasure T]

/-- The `le` labels of boundaries that were accepted are different exactly if the middle
between two floats is between each boundary and the next. -/
theorem nodup_leLabels_iff {boundaries : List T}
    (hincreasing : boundaries.Pairwise fun first second =>
      IntegerMeasure.toInt first < IntegerMeasure.toInt second)
    {point : Prometheus.DataPoint WholeFloat} {h : Prometheus.HistogramValue WholeFloat}
    (hpoint : point.value = .histogram h) (hbounds : h.boundaries = boundaries.map nearestFloat)
    (name : Text) :
    (point.leLabels name).Nodup ↔ boundaries.IsChain Apart := by
  have hrounded : ((boundaries.map IntegerMeasure.toInt).map (roundEven mantissaDigits)).Nodup ↔
      (boundaries.map IntegerMeasure.toInt).IsChain (Separated mantissaDigits) :=
    nodup_roundEven_iff (by decide) (List.pairwise_map.mpr hincreasing)
  rw [List.isChain_map] at hrounded
  have hlabel : Function.Injective fun value : Int =>
      Prometheus.leLabel (Prometheus.writeF64 (WholeFloat.whole value)) := by
    intro first second heq
    have htext := (Prod.mk.inj (Option.some.inj heq)).2
    exact WholeFloat.whole.inj
      (Prometheus.writeF64_injective (finite_whole first) (finite_whole second) htext)
  have hlabels : (boundaries.map nearestFloat).map (fun boundary =>
      Prometheus.leLabel (Prometheus.writeF64 boundary)) =
      ((boundaries.map IntegerMeasure.toInt).map (roundEven mantissaDigits)).map fun value =>
        Prometheus.leLabel (Prometheus.writeF64 (WholeFloat.whole value)) := by
    simp only [List.map_map]
    rfl
  have hlast : Prometheus.leLabel "+Inf".toList ∉
      (boundaries.map nearestFloat).map fun boundary =>
        Prometheus.leLabel (Prometheus.writeF64 boundary) := by
    simp only [List.map_map, List.mem_map, not_exists, not_and, Function.comp_apply]
    intro boundary _ heq
    exact Prometheus.writeF64_ne_inf (finite_nearestFloat boundary)
      (Prod.mk.inj (Option.some.inj heq)).2
  rw [Prometheus.DataPoint.leLabels_eq hpoint, hbounds, List.nodup_append_comm,
    List.singleton_append, List.nodup_cons, and_iff_right hlast, hlabels,
    List.nodup_map_iff hlabel]
  exact hrounded

/-- Boundaries that were accepted are converted by both exporters.  What they are converted
to increases, and no two bucket lines bear one `le` label, exactly if the middle between
two floats is between each boundary and the next. -/
theorem exported_increasing_iff {accepted : List T} {boundaries : Boundaries T}
    (haccepted : checkedBoundaries accepted = .ok boundaries) {snapshot : Snapshot T}
    (hsnapshot : snapshot.boundaries = boundaries.values) (id : NameIdentity) :
    ∃ shown sent, Prometheus.histogramValue toF64 snapshot id = .ok (.histogram shown) ∧
      Otel.histogramValue toF64 snapshot = .ok sent ∧
      (shown.boundaries.Pairwise (· < ·) ↔ accepted.IsChain Apart) ∧
      (sent.explicitBounds.Pairwise (· < ·) ↔ accepted.IsChain Apart) ∧
      ∀ (point : Prometheus.DataPoint WholeFloat) (name : Text),
        point.value = .histogram shown →
          ((point.leLabels name).Nodup ↔ accepted.IsChain Apart) := by
  obtain rfl := values_of_checkedBoundaries haccepted
  refine ⟨_, _, prometheus_histogramValue_toF64 snapshot id, otel_histogramValue_toF64 snapshot,
    ?_, ?_, fun point name hpoint => ?_⟩
  · rw [hsnapshot]
    exact pairwise_nearestFloat_iff
  · rw [hsnapshot]
    exact pairwise_nearestFloat_iff
  · exact nodup_leLabels_iff boundaries.pairwise_toInt hpoint
      (congrArg (List.map nearestFloat) hsnapshot) name

end Accepted

/-- The cell of a histogram in which one value was counted. -/
def countedOnce (boundaries : Boundaries UInt64) (value : UInt64) : Bucket UInt64 UInt64 :=
  (Bucket.fromCheckedBoundaries boundaries).add value

/-- Three boundaries that floats hold, with a number between them that they do not hold. -/
def heldSizes : Boundaries UInt64 :=
  ⟨[2 ^ 53 - 1, 2 ^ 53, 2 ^ 53 + 2], by decide, by decide⟩

theorem exported_increasing_held :
    ∃ shown sent,
      Prometheus.histogramValue toF64 (countedOnce heldSizes (2 ^ 53 + 1)).snapshot
        ⟨"sizes", "", ""⟩ = .ok (.histogram shown) ∧
      Otel.histogramValue toF64 (countedOnce heldSizes (2 ^ 53 + 1)).snapshot = .ok sent ∧
      shown.boundaries.Pairwise (· < ·) ∧ sent.explicitBounds.Pairwise (· < ·) ∧
      (Prometheus.DataPoint.leLabels ⟨[], .histogram shown⟩ "sizes".toList).Nodup := by
  have hrounded : (heldSizes.values.map nearestFloat).Pairwise (· < ·) := by decide
  have hapart := pairwise_nearestFloat_iff.mp hrounded
  have haccepted : checkedBoundaries [2 ^ 53 - 1, 2 ^ 53, 2 ^ 53 + 2] = .ok heldSizes := rfl
  have hsnapshot : (countedOnce heldSizes (2 ^ 53 + 1)).snapshot.boundaries =
      heldSizes.values := rfl
  obtain ⟨shown, sent, hshown, hsent, hincreasing, hbounds, hlabels⟩ :=
    exported_increasing_iff haccepted hsnapshot ⟨"sizes", "", ""⟩
  exact ⟨shown, sent, hshown, hsent, hincreasing.mpr hapart, hbounds.mpr hapart,
    (hlabels ⟨[], .histogram shown⟩ _ rfl).mpr hapart⟩

/-- A boundary that floats hold, and the next number, which they do not hold. -/
def sizes : Boundaries UInt64 := ⟨[2 ^ 53, 2 ^ 53 + 1], by decide, by decide⟩

def sizesText : Text := "# TYPE sizes histogram
sizes_bucket".toList ++
    '{' :: "le=\"9007199254740992\"".toList ++ '}' :: ' ' :: "0\nsizes_bucket".toList ++
    '{' :: "le=\"9007199254740992\"".toList ++ '}' :: ' ' :: "1\nsizes_bucket".toList ++
    '{' :: "le=\"+Inf\"".toList ++ '}' :: ' ' :: "1
sizes_sum 9007199254740992
sizes_count 1
".toList

set_option maxRecDepth 8000 in
/-- The two boundaries are accepted and exported as one: two bucket lines bear one label,
and count differently. -/
theorem boundaries_collide :
    checkedBoundaries [(2 ^ 53 : UInt64), 2 ^ 53 + 1] = .ok sizes ∧
      ∃ shown sent,
        Prometheus.histogramValue toF64 (countedOnce sizes (2 ^ 53 + 1)).snapshot
          ⟨"sizes", "", ""⟩ = .ok (.histogram shown) ∧
        Otel.histogramValue toF64 (countedOnce sizes (2 ^ 53 + 1)).snapshot = .ok sent ∧
        shown.boundaries = [.whole (2 ^ 53), .whole (2 ^ 53)] ∧
        sent.explicitBounds = [.whole (2 ^ 53), .whole (2 ^ 53)] ∧
        ¬ shown.boundaries.Pairwise (· < ·) ∧ ¬ sent.explicitBounds.Pairwise (· < ·) ∧
        Prometheus.Metric.renderInto
          { id := ⟨"sizes", "", ""⟩, kind := .histogram, points := [⟨[], .histogram shown⟩] } =
            .ok sizesText := by
  refine ⟨rfl, _, _, rfl, rfl, ?_, ?_, ?_, ?_, ?_⟩
  · rfl
  · rfl
  · decide
  · decide
  · rfl

end Ohnotel
