/-
# Conversion to OTLP

A series is converted into one metric with a data point for each snapshot.  A point bears
the attributes of its snapshot, the times between which its value was aggregated, and the
value.  The metric of a counter or a histogram says whether its points are cumulative.

What is the same in every message (flags, exemplars, metadata) is left out.
-/

import Ohnotel.Collect.Timer

namespace Ohnotel.Otel

open Foundation

/-! ## Attributes -/

mutual

/-- `any_value::Value`, which is always present. -/
inductive AnyValue (F : Type) : Type
  | stringValue (value : String)
  | boolValue (value : Bool)
  | intValue (value : Int64)
  | doubleValue (value : F)
  | arrayValue (values : List (AnyValue F))
  | kvlistValue (values : List (Attribute F))
  | bytesValue (value : List UInt8)

/-- The `KeyValue` of the protocol. -/
structure Attribute (F : Type) : Type where
  key : String
  value : Option (AnyValue F)

end

variable {F V P : Type}

mutual

/-- `From<&Value>`. -/
def mapValue : Value F → AnyValue F
  | .string value => .stringValue value
  | .bool value => .boolValue value
  | .int value => .intValue value
  | .double value => .doubleValue value
  | .arrayAny values => .arrayValue (mapValues values)
  | .arrayKv values => .kvlistValue (mapAttrs values)
  | .bytes values => .bytesValue values

def mapValues : List (Value F) → List (AnyValue F)
  | [] => []
  | value :: rest => mapValue value :: mapValues rest

/-- `From<&KeyValue>`. -/
def mapAttr : KeyValue F → Attribute F
  | ⟨key, none⟩ => ⟨key, none⟩
  | ⟨key, some value⟩ => ⟨key, some (mapValue value)⟩

/-- `map_attrs`. -/
def mapAttrs : List (KeyValue F) → List (Attribute F)
  | [] => []
  | attr :: rest => mapAttr attr :: mapAttrs rest

end

mutual

theorem mapValue_injective : ∀ {first second : Value F},
    mapValue first = mapValue second → first = second
  | .string _, second, h => by cases second <;> simp_all [mapValue]
  | .bool _, second, h => by cases second <;> simp_all [mapValue]
  | .int _, second, h => by cases second <;> simp_all [mapValue]
  | .double _, second, h => by cases second <;> simp_all [mapValue]
  | .bytes _, second, h => by cases second <;> simp_all [mapValue]
  | .arrayAny values, second, h => by
      cases second with
      | arrayAny others => rw [mapValues_injective (AnyValue.arrayValue.inj h)]
      | _ => simp [mapValue] at h
  | .arrayKv values, second, h => by
      cases second with
      | arrayKv others => rw [mapAttrs_injective (AnyValue.kvlistValue.inj h)]
      | _ => simp [mapValue] at h

theorem mapValues_injective : ∀ {first second : List (Value F)},
    mapValues first = mapValues second → first = second
  | [], [], _ => rfl
  | [], _ :: _, h => by simp [mapValues] at h
  | _ :: _, [], h => by simp [mapValues] at h
  | value :: earlier, other :: later, h => by
      obtain ⟨hvalue, hvalues⟩ := List.cons.inj h
      rw [mapValue_injective hvalue, mapValues_injective hvalues]

theorem mapAttr_injective : ∀ {first second : KeyValue F},
    mapAttr first = mapAttr second → first = second
  | ⟨_, none⟩, ⟨_, none⟩, h => by simpa [mapAttr] using h
  | ⟨_, none⟩, ⟨_, some _⟩, h => by simp [mapAttr] at h
  | ⟨_, some _⟩, ⟨_, none⟩, h => by simp [mapAttr] at h
  | ⟨_, some value⟩, ⟨_, some other⟩, h => by
      obtain ⟨rfl, hvalue⟩ := (Attribute.mk.injEq _ _ _ _).mp h
      rw [mapValue_injective (Option.some.inj hvalue)]

theorem mapAttrs_injective : ∀ {first second : List (KeyValue F)},
    mapAttrs first = mapAttrs second → first = second
  | [], [], _ => rfl
  | [], _ :: _, h => by simp [mapAttrs] at h
  | _ :: _, [], h => by simp [mapAttrs] at h
  | attr :: earlier, other :: later, h => by
      obtain ⟨hattr, hattrs⟩ := List.cons.inj h
      rw [mapAttr_injective hattr, mapAttrs_injective hattrs]

end

/-! ## Metrics -/

inductive AggregationTemporality
  | delta
  | cumulative
  deriving DecidableEq

def temporality : Mode → AggregationTemporality
  | .direct => .cumulative
  | .delta | .destructive => .delta

/-- A data point with a payload. -/
structure DataPoint (F P : Type) where
  attributes : List (Attribute F)
  startTimeUnixNano : UInt64
  timeUnixNano : UInt64
  value : P

inductive NumberValue (F : Type)
  | asInt (value : Int64)
  | asDouble (value : F)

structure HistogramValue (F : Type) where
  count : UInt64
  sum : F
  bucketCounts : List UInt64
  explicitBounds : List F
  min : Option F
  max : Option F

/-- `metric::Data`, of points of one kind of payload. -/
inductive Data (F P : Type)
  | sum (dataPoints : List (DataPoint F P)) (aggregationTemporality : AggregationTemporality)
      (isMonotonic : Bool)
  | gauge (dataPoints : List (DataPoint F P))
  | histogram (dataPoints : List (DataPoint F P))
      (aggregationTemporality : AggregationTemporality)

def Data.dataPoints : Data F P → List (DataPoint F P)
  | sum dataPoints _ _ | gauge dataPoints | histogram dataPoints _ => dataPoints

structure Metric (F P : Type) where
  name : String
  description : String
  unit : String
  data : Data F P

/-! ## Conversion -/

/-- `map_time`. -/
def mapTime (t : SystemTime) : Except Error UInt64 :=
  if t < 0 then .error .timeBeforeEpoch
  else if t.toNat < 2 ^ 64 then .ok (UInt64.ofNat t.toNat)
  else .error .timeOverflowsU64

/-- The time is not before the epoch, and its nanoseconds since then fit a word. -/
def Mappable (t : SystemTime) : Prop := 0 ≤ t ∧ t.toNat < 2 ^ 64

instance (t : SystemTime) : Decidable (Mappable t) := inferInstanceAs (Decidable (_ ∧ _))

theorem mapTime_eq_ok {t : SystemTime} {nanos : UInt64} (h : mapTime t = .ok nanos) :
    (nanos.toNat : SystemTime) = t := by
  rw [mapTime] at h
  split at h
  · simp at h
  · rename_i hepoch
    split at h
    · rename_i hlt
      obtain rfl := Except.ok.inj h
      rw [UInt64.toNat_ofNat_of_lt' hlt]
      exact Int.toNat_of_nonneg (not_lt.mp hepoch)
    · simp at h

theorem mapTime_of_mappable {t : SystemTime} (h : Mappable t) : ∃ nanos, mapTime t = .ok nanos := by
  rw [mapTime, if_neg (not_lt.mpr h.1), if_pos h.2]
  exact ⟨_, rfl⟩

theorem mapTime_of_not_mappable {t : SystemTime} (h : ¬ Mappable t) :
    ∃ err, mapTime t = .error err := by
  rw [mapTime]
  split
  · exact ⟨_, rfl⟩
  · rename_i hepoch
    rw [if_neg fun hlt => h ⟨not_lt.mp hepoch, hlt⟩]
    exact ⟨_, rfl⟩

variable (platform : Platform)

/-- The time a snapshot is exported with, under its attributes. -/
def exportTime (startTime : SystemTime) (align : Option Duration)
    (snapshot : List (KeyValue F) × Observation V) : Option (List (KeyValue F) × SystemTime) :=
  (snapshot.2.alignTs platform startTime align).map fun time => (snapshot.1, time)

/-- The loop over the snapshots; `none` is a panic. -/
def convert (into : V → Except Error P) (startTime : SystemTime) (startNanos : UInt64)
    (align : Option Duration) :
    List (List (KeyValue F) × Observation V) → Option (Except Error (List (DataPoint F P)))
  | [] => some (.ok [])
  | (attrs, snapshot) :: rest =>
      match snapshot.alignTs platform startTime align with
      | none => none
      | some time =>
          match mapTime time, into snapshot.value with
          | .error err, _ => some (.error err)
          | .ok _, .error err => some (.error err)
          | .ok nanos, .ok value =>
              (convert into startTime startNanos align rest).map fun later =>
                later.map (⟨mapAttrs attrs, startNanos, nanos, value⟩ :: ·)

/-- What differs between the two implementations of `into_wire`: the payload of a point,
and the data of a metric of a kind, if there can be one. -/
structure IntoWire (F V P : Type) where
  into : V → Except Error P
  data : Kind → AggregationTemporality → List (DataPoint F P) → Option (Data F P)
  dataPoints_data : ∀ {kind temporality points found},
    data kind temporality points = some found → found.dataPoints = points

/-- `into_wire`, over the entries of the series in some order. -/
def IntoWire.intoWire (conversion : IntoWire F V P) (order : List (List (KeyValue F)))
    (align : Option Duration) (series : Series (KeyValue F) V) :
    Option (Except Error (Option (Metric F P))) :=
  if order.isEmpty then some (.ok none)
  else
    match mapTime series.startTime with
    | .error err => some (.error err)
    | .ok startNanos =>
        match convert platform conversion.into series.startTime startNanos align
            (order.flatMap fun attrs => (series.series attrs).map fun snapshot =>
              (attrs, snapshot)) with
        | none => none
        | some (.error err) => some (.error err)
        | some (.ok []) => some (.ok none)
        | some (.ok points) =>
            (conversion.data series.kind (temporality series.observeMode) points).map fun data =>
              .ok (some
                { name := series.id.name
                  description := series.id.description
                  unit := series.id.unit
                  data := data })

variable {platform}

/-- A point that was made of a snapshot with an export time. -/
structure DataPoint.Spans (startTime : SystemTime) (exported : List (KeyValue F) × SystemTime)
    (point : DataPoint F P) : Prop where
  attributes : point.attributes = mapAttrs exported.1
  start : (point.startTimeUnixNano.toNat : SystemTime) = startTime
  time : (point.timeUnixNano.toNat : SystemTime) = exported.2

theorem convert_eq_ok {into : V → Except Error P} {startTime : SystemTime} {startNanos : UInt64}
    (hstart : (startNanos.toNat : SystemTime) = startTime) {align : Option Duration}
    {snapshots : List (List (KeyValue F) × Observation V)} {points : List (DataPoint F P)}
    (h : convert platform into startTime startNanos align snapshots = some (.ok points)) :
    List.Forall₂ (DataPoint.Spans startTime)
      (snapshots.filterMap (exportTime platform startTime align)) points := by
  induction snapshots generalizing points with
  | nil =>
      obtain rfl := Except.ok.inj (Option.some.inj h)
      exact .nil
  | cons first rest ih =>
      obtain ⟨attrs, snapshot⟩ := first
      rw [convert] at h
      cases htime : snapshot.alignTs platform startTime align with
      | none => simp [htime] at h
      | some time =>
          cases hnanos : mapTime time with
          | error err => simp [htime, hnanos] at h
          | ok nanos =>
              cases hvalue : into snapshot.value with
              | error err => simp [htime, hnanos, hvalue] at h
              | ok value =>
                  simp only [htime, hnanos, hvalue] at h
                  obtain ⟨later, hlater, hpoints⟩ := Option.map_eq_some_iff.mp h
                  cases later with
                  | error err => simp [Except.map] at hpoints
                  | ok later =>
                      obtain rfl := Except.ok.inj hpoints
                      rw [List.filterMap_cons, exportTime, htime]
                      exact .cons ⟨rfl, hstart, mapTime_eq_ok hnanos⟩ (ih hlater)

/-- The times that the snapshots of a series are exported with. -/
def exportTimes (platform : Platform) (order : List (List (KeyValue F))) (align : Option Duration)
    (series : Series (KeyValue F) V) : List (List (KeyValue F) × SystemTime) :=
  (order.flatMap fun attrs => (series.series attrs).map fun snapshot =>
    (attrs, snapshot)).filterMap (exportTime platform series.startTime align)

/-- The points that an export returned are those of its loop, if there was one. -/
theorem IntoWire.convert_of_intoWire {conversion : IntoWire F V P}
    {order : List (List (KeyValue F))} {align : Option Duration} {series : Series (KeyValue F) V}
    {found : Option (Metric F P)}
    (h : conversion.intoWire platform order align series = some (.ok found)) :
    order = [] ∧ found = none ∨
      ∃ startNanos, mapTime series.startTime = .ok startNanos ∧
        convert platform conversion.into series.startTime startNanos align
            (order.flatMap fun attrs => (series.series attrs).map fun snapshot =>
              (attrs, snapshot)) =
          some (.ok (found.elim [] fun metric => metric.data.dataPoints)) := by
  rw [intoWire] at h
  split at h
  case isTrue hempty =>
    exact .inl ⟨List.isEmpty_iff.mp hempty, (Except.ok.inj (Option.some.inj h)).symm⟩
  case isFalse =>
    cases hstart : mapTime series.startTime with
    | error err => simp [hstart] at h
    | ok startNanos =>
        refine .inr ⟨startNanos, rfl, ?_⟩
        simp only [hstart] at h
        split at h
        · simp at h
        · simp at h
        · rename_i hnothing
          obtain rfl := Except.ok.inj (Option.some.inj h)
          exact hnothing
        · rename_i points _ hpoints
          obtain ⟨data, hdata, hmetric⟩ := Option.map_eq_some_iff.mp h
          obtain rfl := Except.ok.inj hmetric
          rw [Option.elim_some, conversion.dataPoints_data hdata]
          exact hpoints

/-- Every point of a metric starts when its observer did. -/
theorem IntoWire.spans_of_intoWire {conversion : IntoWire F V P}
    {order : List (List (KeyValue F))} {align : Option Duration} {series : Series (KeyValue F) V}
    {metric : Metric F P}
    (h : conversion.intoWire platform order align series = some (.ok (some metric))) :
    List.Forall₂ (DataPoint.Spans series.startTime) (exportTimes platform order align series)
      metric.data.dataPoints := by
  rcases convert_of_intoWire h with ⟨_, hnone⟩ | ⟨startNanos, hstart, hpoints⟩
  · cases hnone
  · exact convert_eq_ok (mapTime_eq_ok hstart) hpoints

/-! ## The two implementations -/

/-- `IntoNumberDataPointValue` for `u64`. -/
def intoNumberU64 (value : UInt64) : Except Error (NumberValue F) :=
  if value.toNat < 2 ^ 63 then .ok (.asInt value.toInt64) else .error .valueToI64

/-- `IntoNumberDataPointValue` for `i64`. -/
def intoNumberI64 (value : Int64) : Except Error (NumberValue F) := .ok (.asInt value)

/-- `IntoNumberDataPointValue` for `f64`. -/
def intoNumberF64 (value : F) : Except Error (NumberValue F) := .ok (.asDouble value)

/-- `IntoWire` for a series of numbers. -/
def numbers (intoNumberValue : V → Except Error (NumberValue F)) :
    IntoWire F V (NumberValue F) where
  into := intoNumberValue
  data
    | .counter, temporality, points => some (.sum points temporality true)
    | .gauge, _, points => some (.gauge points)
    | .histogram, _, _ => none
  dataPoints_data {kind} _ _ _ h := by
    cases kind with
    | counter => exact Option.some.inj h ▸ rfl
    | gauge => exact Option.some.inj h ▸ rfl
    | histogram => simp at h

section Histogram

variable {T : Type} (toF64 : T → Option F)

/-- `to_f64().ok_or(..)`. -/
def toNumber (err : Error) (value : T) : Except Error F :=
  match toF64 value with
  | some number => .ok number
  | none => .error err

def histogramValue (snapshot : Atomic.Snapshot T) : Except Error (HistogramValue F) := do
  let sum ← toNumber toF64 .valueToF64 snapshot.sum
  let explicitBounds ← snapshot.boundaries.mapM (toNumber toF64 .boundaryToF64)
  let min ← snapshot.min.mapM (toNumber toF64 .valueToF64)
  let max ← snapshot.max.mapM (toNumber toF64 .valueToF64)
  return {
    count := snapshot.count
    sum := sum
    bucketCounts := snapshot.bucketCounts
    explicitBounds := explicitBounds
    min := min
    max := max }

/-- `IntoWire` for a series of snapshots of a histogram. -/
def histograms : IntoWire F (Atomic.Snapshot T) (HistogramValue F) where
  into := histogramValue toF64
  data _ temporality points := some (.histogram points temporality)
  dataPoints_data h := Option.some.inj h ▸ rfl

end Histogram

end Ohnotel.Otel
