/-
# What a histogram is rendered as

A histogram counts every value in one bucket, the first whose boundary is not below it.
What is rendered is cumulative: on the line of a boundary, how many of the values recorded
since the last take are not above it; on the line of `+Inf` and on that of the count, how
many there are.
-/

import Ohnotel.Atomic.Aggregate
import Ohnotel.AttributeOrder
import Ohnotel.Observe.Recordings
import Ohnotel.Prometheus.RoundTrip
import Ohnotel.Prometheus.Scraping

namespace Ohnotel.Prometheus

open Foundation Atomic

section Counts

variable {F T C : Type} [Measure T C] [IntegerMeasure T]

/-! ## Cumulative counts -/

/-- How many values are not above a boundary. -/
def countUpTo (values : List T) (boundary : T) : Nat :=
  values.countP fun value => IntegerMeasure.toInt value ≤ IntegerMeasure.toInt boundary

theorem countUpTo_le_length (values : List T) (boundary : T) :
    countUpTo values boundary ≤ values.length := List.countP_le_length

theorem countUpTo_mono (values : List T) {first second : T}
    (hle : IntegerMeasure.toInt first ≤ IntegerMeasure.toInt second) :
    countUpTo values first ≤ countUpTo values second := by
  apply List.countP_mono_left
  intro value _ hvalue
  simp only [decide_eq_true_eq] at hvalue ⊢
  exact hvalue.trans hle

/-- The counts of boundaries that increase do not decrease. -/
theorem pairwise_countUpTo (boundaries : Boundaries T) (values : List T) :
    (boundaries.values.map (countUpTo values)).Pairwise (· ≤ ·) :=
  List.pairwise_map.mpr
    (boundaries.pairwise_toInt.imp fun hlt => countUpTo_mono values hlt.le)

omit [IntegerMeasure T] in
theorem toNat_saturatingAdd_countP {values : List T} (hfew : values.length < 2 ^ 64)
    {p q r : T → Bool} (hsum : values.countP p + values.countP q = values.countP r) :
    saturatingAdd (UInt64.ofNat (values.countP p)) (UInt64.ofNat (values.countP q)) =
      UInt64.ofNat (values.countP r) := by
  have hle : values.countP r ≤ values.length := List.countP_le_length
  rw [saturatingAdd, toNat_ofNat_countP hfew, toNat_ofNat_countP hfew, hsum,
    Nat.min_eq_left (by omega)]

omit [IntegerMeasure T] in
theorem countP_bucketIndex_succ (boundaries : Boundaries T) (values : List T) (index : Nat) :
    (values.countP fun value => bucketIndex boundaries value < index) +
      (values.countP fun value => bucketIndex boundaries value = index) =
      values.countP fun value => bucketIndex boundaries value < index + 1 := by
  induction values with
  | nil => rfl
  | cons value rest ih =>
      simp only [List.countP_cons, decide_eq_true_eq]
      split <;> split <;> split <;> omega

/-- The values that were counted up to a bucket are those not above its boundary. -/
theorem countP_bucketIndex (boundaries : Boundaries T) (values : List T) {index : Nat}
    (hindex : index < boundaries.values.length) :
    (values.countP fun value => bucketIndex boundaries value < index + 1) =
      countUpTo values boundaries.values[index] := by
  apply List.countP_congr
  intro value _
  rw [decide_eq_true_eq, decide_eq_true_eq, Nat.lt_succ_iff]
  exact bucketIndex_le_iff boundaries value hindex

/-- The loop over the boundaries, from an index on: what it has added up by then are the
values counted in the buckets before. -/
theorem rows_eq {boundaries : Boundaries T} {values : List T} (hfew : values.length < 2 ^ 64)
    {h : HistogramValue F}
    (hcounts : h.bucketCounts = (List.range (boundaries.values.length + 1)).map fun index =>
      UInt64.ofNat (values.countP fun value => bucketIndex boundaries value = index))
    (index : Nat) (numbers : List F) (hlength : index + numbers.length = boundaries.values.length) :
    h.rows index (UInt64.ofNat (values.countP fun value => bucketIndex boundaries value < index))
        numbers =
      List.zipWith (fun boundary number => (number, UInt64.ofNat (countUpTo values boundary)))
        (boundaries.values.drop index) numbers := by
  induction numbers generalizing index with
  | nil => rw [HistogramValue.rows, List.zipWith_nil_right]
  | cons number rest ih =>
      rw [List.length_cons] at hlength
      have hindex : index < boundaries.values.length := by omega
      have hcount : h.bucketCounts.getD index 0 =
          UInt64.ofNat (values.countP fun value => bucketIndex boundaries value = index) := by
        have hrange : (List.range (boundaries.values.length + 1))[index]? = some index :=
          List.getElem?_range (by omega)
        rw [hcounts, List.getD_eq_getElem?_getD, List.getElem?_map, hrange]
        rfl
      have hcumulative := toNat_saturatingAdd_countP hfew
        (countP_bucketIndex_succ boundaries values index)
      rw [HistogramValue.rows, hcount, hcumulative, ih (index + 1) (by omega),
        List.drop_eq_getElem_cons hindex, List.zipWith_cons_cons,
        countP_bucketIndex boundaries values hindex]

/-! ## The samples of a point -/

variable [Formats F]

/-- The samples of a point that shows values: their counts up to each boundary, their
number, their sum, and their number again. -/
def DataPoint.countSamples (point : DataPoint F) (name : Text) (boundaries : List (T × F))
    (values : List T) (sum : F) : List Sample :=
  boundaries.map (fun boundary =>
    ⟨name ++ "_bucket".toList, point.labels ++ [("le".toList, writeF64 boundary.2)],
      Nat.toDigits 10 (countUpTo values boundary.1)⟩) ++
  [⟨name ++ "_bucket".toList, point.labels ++ [("le".toList, "+Inf".toList)],
      Nat.toDigits 10 values.length⟩,
    ⟨name ++ "_sum".toList, point.labels, writeF64 sum⟩,
    ⟨name ++ "_count".toList, point.labels, Nat.toDigits 10 values.length⟩]

omit [Measure T C] [IntegerMeasure T] [Formats F] in
theorem toNumber_eq_ok {toF64 : T → Option F} {value : T} {number : F}
    (h : toNumber toF64 value = .ok number) : toF64 value = some number := by
  rw [toNumber] at h
  cases hvalue : toF64 value with
  | none => simp [hvalue] at h
  | some found =>
      rw [hvalue] at h
      rw [Except.ok.inj h]

omit [Measure T C] [IntegerMeasure T] in
/-- Boundaries that convert do so one by one. -/
theorem map_of_convertBoundaries {toF64 : T → Option F} {metric : Text} {boundaries : List T}
    {numbers : List F} (h : convertBoundaries toF64 metric boundaries = .ok numbers) :
    boundaries.map toF64 = numbers.map some := by
  induction boundaries generalizing numbers with
  | nil =>
      obtain rfl := Except.ok.inj h
      rfl
  | cons boundary rest ih =>
      rw [convertBoundaries] at h
      cases hvalue : toNumber toF64 boundary with
      | error err => simp [hvalue] at h
      | ok number =>
          simp only [hvalue] at h
          by_cases hnumber : Formats.isNan number ∨ Formats.isInfinite number
          · simp [if_pos hnumber] at h
          rw [if_neg hnumber] at h
          cases hrest : convertBoundaries toF64 metric rest with
          | error err => simp [hrest, Except.map] at h
          | ok later =>
              rw [hrest] at h
              obtain rfl := Except.ok.inj h
              rw [List.map_cons, List.map_cons, ih hrest, toNumber_eq_ok hvalue]

/-- The samples of a point that an aggregate converts to. -/
theorem samples_of_isAggregate {boundaries : Boundaries T} {values : List T}
    {snapshot : Snapshot T} (h : IsAggregate boundaries values snapshot)
    (hfew : values.length < 2 ^ 64) {toF64 : T → Option F} {id : NameIdentity}
    {point : DataPoint F} (hvalue : histogramValue toF64 snapshot id = .ok point.value)
    (name : Text) :
    ∃ numbers sum, boundaries.values.map toF64 = numbers.map some ∧
      point.samples name =
        point.countSamples name (boundaries.values.zip numbers) values sum := by
  rw [histogramValue, h.boundaries_eq] at hvalue
  cases hnumbers : convertBoundaries toF64 id.name.toList boundaries.values with
  | error err => simp [hnumbers] at hvalue
  | ok numbers =>
      have hmap := map_of_convertBoundaries hnumbers
      have hlength : numbers.length = boundaries.values.length := by
        simpa using (congrArg List.length hmap).symm
      simp only [hnumbers] at hvalue
      cases hsum : toNumber toF64 snapshot.sum with
      | error err => simp [hsum, Except.map] at hvalue
      | ok sum =>
          rw [hsum] at hvalue
          refine ⟨numbers, sum, hmap, ?_⟩
          have hpoint := (Except.ok.inj hvalue).symm
          have hcount : displayU64 snapshot.count = Nat.toDigits 10 values.length := by
            rw [displayU64, (h.toNat_count hfew).1]
          have hrows := rows_eq hfew (h := ⟨numbers, snapshot.bucketCounts, snapshot.count, sum⟩)
            h.bucketCounts_eq 0 numbers (by omega)
          have hzero : UInt64.ofNat
              (values.countP fun value => bucketIndex boundaries value < 0) = 0 := by simp
          rw [hzero, List.drop_zero] at hrows
          rw [DataPoint.samples, hpoint]
          simp only [hrows, DataPoint.countSamples, DataPoint.bucketSample, hcount, List.zip,
            List.map_zipWith]
          congr 1
          congr 1
          funext boundary number
          rw [displayU64, countUpTo, toNat_ofNat_countP hfew]

/-! ## Rendering a histogram -/

/-- What a collector keeps of a histogram. -/
def histogramHandle (toF64 : T → Option F) (id : NameIdentity)
    (cfg : Config (KeyValue F) (Bucket T C)) (buckets : BucketMap (KeyValue F) (Bucket T C)) :
    SourceHandle F where
  into := histogramValue toF64
  id := id
  kind := .histogram
  cfg := cfg
  buckets := buckets

/-- Among the samples of its family, those of a point count the values: on the line of each
boundary the values up to it, and on two more lines all of them. -/
structure DataPoint.Counts (point : DataPoint F) (family : Metric F) (toF64 : T → Option F)
    (boundaries values : List T) : Prop where
  samples : ∃ numbers sum, boundaries.map toF64 = numbers.map some ∧
    point.countSamples family.finalName (boundaries.zip numbers) values sum <:+:
      family.family.samples
  increasing : (boundaries.map (countUpTo values)).Pairwise (· ≤ ·)
  bounded : ∀ boundary ∈ boundaries, countUpTo values boundary ≤ values.length

variable [LinearOrder (KeyValue F)]

omit [Formats F] in
/-- The cell behind a point of a histogram holds what was recorded for the point's set. -/
theorem isAggregate_of_walked {boundaries : Boundaries T} {hasher : BuildHasher (KeyValue F)}
    {layout : Layout} {inUse : Set (List (KeyValue F))}
    {m : BucketMap (KeyValue F) (Bucket T C)} {record : Finset (KeyValue F) → List T}
    (h : BucketMap.Records (Histogram.storage boundaries hasher layout) inUse m record)
    {e : CanonicalEntry (KeyValue F)} (he : e ∈ m.walkedEntries) :
    IsAggregate boundaries (record e.attrs.toFinset) (m.cells e.bucket).snapshot := by
  have hattrs : e.attrs = e.attrs.toFinset.sort (· ≤ ·) := by
    rw [← normalize_eq_sort]
    exact (BucketMap.normalize_of_mem_walkedEntries h.inv he).symm
  have hshown := (BucketMap.shownCell_eq_some_iff h.inv).mpr ⟨e, he, hattrs, rfl⟩
  rw [h.shown _ _ hshown]
  exact isAggregate_foldl_add boundaries fun value _ => IntegerMeasure.comparable value

/-- A histogram under boundaries that were accepted, after calls that use no two lists of
one fingerprint but reorderings: if a collector renders, the samples of each of its points
count the values recorded for the set of the point since its bucket was last taken or
cleared. -/
theorem render_counts_recorded {boundaries : List T} {hasher : BuildHasher (KeyValue F)}
    {layout : Layout} {cfg : Config (KeyValue F) (Bucket T C)}
    (haccepted : Histogram.withHasher boundaries hasher layout = .ok cfg)
    (calls : List (Recording (KeyValue F) T))
    (hfree : CollisionFree cfg (Recording.listsOf calls))
    (hfew : (Recording.valuesOf calls).length < 2 ^ 64) (toF64 : T → Option F)
    (id : NameIdentity) {sources : List (SourceHandle F)}
    (hsource : histogramHandle toF64 id cfg (Recording.perform cfg calls).1 ∈ sources)
    {out : Text} (hrender : render (sources.map SourceHandle.scrape) = .ok out) :
    ∃ families, Merged (contributing (sources.map SourceHandle.scrape)) families ∧
      parse out = some (families.map Metric.family) ∧
      ∀ m, (histogramHandle toF64 id cfg (Recording.perform cfg calls).1).scrape = .ok (some m) →
        ∃ family ∈ families, family.id = id ∧ family.kind = .histogram ∧
          ∀ point ∈ m.points, point.Counts family toF64 boundaries
            (Recording.recordedSince cfg calls point.attrs.toFinset) := by
  obtain ⟨checked, hchecked, rfl⟩ : ∃ checked : Boundaries T,
      checked.values = boundaries ∧ Histogram.storage checked hasher layout = cfg := by
    rw [Histogram.withHasher] at haccepted
    cases hchecked : checkedBoundaries boundaries with
    | error err => simp [hchecked, Except.map] at haccepted
    | ok checked =>
        rw [hchecked] at haccepted
        exact ⟨checked, values_of_checkedBoundaries hchecked, Except.ok.inj haccepted⟩
  subst hchecked
  obtain ⟨_, _, families, hmerged, hpresentable, rfl⟩ := render_eq_ok_iff.mp hrender
  refine ⟨families, hmerged, ?_, fun m hscrape => ?_⟩
  · apply parse_families
    intro family hfamily
    obtain ⟨m, hm, rfl⟩ := List.mem_map.mp hfamily
    exact (hpresentable.renderable m hm).wellFormed
  · obtain ⟨hid, hkind, hpoints⟩ := SourceHandle.points_of_scrape hscrape
    have hcontributed : m ∈ contributing (sources.map SourceHandle.scrape) :=
      mem_contributing.mpr (hscrape ▸ List.mem_map_of_mem hsource)
    obtain ⟨family, hfamily, hfamilyId, hfamilyKind⟩ := hmerged.covered m hcontributed
    refine ⟨family, hfamily, hfamilyId ▸ hid, hfamilyKind ▸ hkind, ?_⟩
    intro point hpoint
    obtain ⟨e, he, hattrs, hvalue⟩ := hpoints point hpoint
    have haggregate := isAggregate_of_walked (Recording.records_perform calls hfree) he
    rw [← hattrs] at haggregate
    have hlength := (Recording.recordedSince_sublist
      (Histogram.storage (C := C) checked hasher layout) calls point.attrs.toFinset).length_le
    obtain ⟨numbers, sum, hnumbers, hsamples⟩ :=
      samples_of_isAggregate haggregate (by omega) hvalue family.finalName
    refine ⟨⟨numbers, sum, hnumbers, ?_⟩, pairwise_countUpTo checked _,
      fun _ _ => countUpTo_le_length _ _⟩
    have hmem : point ∈ family.sortedPoints := by
      rw [Metric.mem_sortedPoints, hmerged.points family hfamily, pointsOf, List.mem_flatMap]
      refine ⟨m, List.mem_filter.mpr ⟨hcontributed, ?_⟩, hpoint⟩
      simpa using Metric.finalName_congr hfamilyId hfamilyKind
    rw [← hsamples]
    exact List.infix_of_mem_flatten (List.mem_map_of_mem hmem)

end Counts

/-- Two attributes, the first below the second. -/
def method : KeyValue WholeFloat := ⟨"method", some (.string "GET")⟩

def route : KeyValue WholeFloat := ⟨"route", some (.string "/")⟩

/-- A hasher that tells no attribute from another. -/
def blind : BuildHasher (KeyValue WholeFloat) := ⟨fun _ => 0, AttrFingerprint.sum⟩

def tenTwenty : Boundaries UInt64 := ⟨[10, 20], by decide, by decide⟩

/-- How response times are counted, and what a collector keeps of them after calls. -/
def responses : Config (KeyValue WholeFloat) (Bucket UInt64 UInt64) :=
  Histogram.storage tenTwenty blind .stack

def responsesAfter (calls : List (Recording (KeyValue WholeFloat) UInt64)) :
    SourceHandle WholeFloat :=
  histogramHandle wholeNumber ⟨"responses", "", ""⟩ responses (Recording.perform responses calls).1

def responsesText (labels ten twenty total sum : Text) : Text :=
  "# TYPE responses histogram
responses_bucket".toList ++
    '{' :: labels ++ ",le=\"10\"".toList ++ '}' :: ' ' :: ten ++ "\nresponses_bucket".toList ++
    '{' :: labels ++ ",le=\"20\"".toList ++ '}' :: ' ' :: twenty ++ "\nresponses_bucket".toList ++
    '{' :: labels ++ ",le=\"+Inf\"".toList ++ '}' :: ' ' :: total ++ "\nresponses_sum".toList ++
    '{' :: labels ++ '}' :: ' ' :: sum ++ "\nresponses_count".toList ++
    '{' :: labels ++ '}' :: ' ' :: total ++ ['\n']

/-- Values on both sides of the boundaries, and on one of them, after a take. -/
def timed : List (Recording (KeyValue WholeFloat) UInt64) :=
  [.add 5 [route, method], .take [route, method], .add 10 [route, method],
    .add 11 [route, method], .add 30 [route, method]]

def timedText : Text :=
  responsesText "method=\"GET\",route=\"/\"".toList ['1'] ['2'] ['3'] ['5', '1']

set_option maxRecDepth 8000 in
theorem render_counts_recorded_timed :
    render [(responsesAfter timed).scrape] = .ok timedText ∧
      Recording.recordedSince responses timed [route, method].toFinset = [10, 11, 30] ∧
      ∃ families, Merged (contributing [(responsesAfter timed).scrape]) families ∧
        parse timedText = some (families.map Metric.family) ∧
        ∀ m, (responsesAfter timed).scrape = .ok (some m) →
          ∃ family ∈ families, family.id = ⟨"responses", "", ""⟩ ∧ family.kind = .histogram ∧
            ∀ point ∈ m.points, point.Counts family wholeNumber [10, 20]
              (Recording.recordedSince responses timed point.attrs.toFinset) := by
  have hrender : render ([responsesAfter timed].map SourceHandle.scrape) = .ok timedText := by rfl
  have hfree : CollisionFree responses (Recording.listsOf timed) := by
    apply CollisionFree.of_perm [route, method]
    intro attrs hattrs
    have hlist : attrs = [route, method] := by
      simpa [Recording.listsOf, timed, Recording.op, HistogramOp.lists] using hattrs
    rw [hlist]
  have haccepted : Histogram.withHasher [10, 20] blind .stack = .ok responses := rfl
  refine ⟨hrender, by rfl, ?_⟩
  exact render_counts_recorded haccepted timed hfree (by decide) wholeNumber
    ⟨"responses", "", ""⟩ List.mem_cons_self hrender

/-- Lists of one fingerprint share a bucket: the point of `route` counts a value that was
recorded for `method`.  And a list with a repetition that was never written finds no
bucket: nothing is taken, and what was recorded before stays counted. -/
theorem counts_of_colliding_lists :
    (render [(responsesAfter [.add 1 [route, route], .add 2 [method, method]]).scrape] =
        .ok (responsesText "route=\"/\"".toList ['2'] ['2'] ['2'] ['3']) ∧
      Recording.recordedSince responses [.add 1 [route, route], .add 2 [method, method]] {route} =
        [1]) ∧
    render [(responsesAfter [.add 1 [route], .take [route, route]]).scrape] =
        .ok (responsesText "route=\"/\"".toList ['1'] ['1'] ['1'] ['1']) :=
  ⟨⟨by rfl, by rfl⟩, by rfl⟩

end Ohnotel.Prometheus
