/-
# What a scrape is shown

A scrape walks the map of a source and leaves it as it is.  Of every entry it is shown the
attributes and what the value of the bucket converts to; it returns the points of all
entries, or the first failure.
-/

import Ohnotel.Observe.Slots
import Ohnotel.Prometheus.Collector

namespace Ohnotel.Prometheus

open Foundation Atomic

variable {F : Type}

/-- An entry as it is shown to a scrape. -/
abbrev Entry (F : Type) : Type := List (KeyValue F) × Except Error (DataPointValue F)

/-- The points of entries, or the first failure. -/
def collectPoints : List (Entry F) → Except Error (List (DataPoint F))
  | [] => .ok []
  | (_, .error err) :: _ => .error err
  | (attrs, .ok value) :: rest => (collectPoints rest).map (⟨attrs, value⟩ :: ·)

/-- A source as it is shown to a scrape. -/
structure Shown (F : Type) where
  id : NameIdentity
  kind : Kind
  entries : List (Entry F)

def Shown.scrape (shown : Shown F) : Scrape F :=
  match collectPoints shown.entries with
  | .error err => .error err
  | .ok [] => .ok none
  | .ok (point :: rest) =>
      .ok (some { id := shown.id, kind := shown.kind, points := point :: rest })

section Scrape

variable {A T V : Type} [Record A T V] (into : V → NameIdentity → Except Error (DataPointValue F))
  (id : NameIdentity)

/-- What a scrape of a map is shown, in the order of the walk. -/
def shownSource (kind : Kind) (buckets : BucketMap (KeyValue F) A) : Shown F where
  id := id
  kind := kind
  entries := buckets.walkedEntries.map fun e =>
    (e.attrs, into (Record.current (buckets.cells e.bucket)) id)

/-- Nothing is collected after a failure. -/
theorem foldl_scrapeEntry_failed (points : List (DataPoint F)) (err : Error)
    (cells : BucketRef → A) (l : List (CanonicalEntry (KeyValue F))) :
    l.foldl (fun state e => (scrapeEntry into id state e (cells e.bucket)).2) (points, some err) =
      (points, some err) := by
  induction l with
  | nil => rfl
  | cons e rest ih => exact ih

/-- The walk of a scrape appends the points of the entries, as far as they convert. -/
theorem foldl_scrapeEntry (points : List (DataPoint F)) (cells : BucketRef → A)
    (l : List (CanonicalEntry (KeyValue F))) :
    match collectPoints (l.map fun e => (e.attrs, into (Record.current (cells e.bucket)) id)) with
    | .ok found =>
        l.foldl (fun state e => (scrapeEntry into id state e (cells e.bucket)).2) (points, none) =
          (points ++ found, none)
    | .error err =>
        (l.foldl (fun state e => (scrapeEntry into id state e (cells e.bucket)).2)
          (points, none)).2 = some err := by
  induction l generalizing points with
  | nil => simp [collectPoints]
  | cons e rest ih =>
      rw [List.map_cons, List.foldl_cons]
      cases hvalue : into (Record.current (cells e.bucket)) id with
      | error err =>
          have hstep : (scrapeEntry into id (points, none) e (cells e.bucket)).2 =
              (points, some err) := by
            simp only [scrapeEntry, hvalue]
          simp only [collectPoints, hstep, foldl_scrapeEntry_failed]
      | ok value =>
          have hstep : (scrapeEntry into id (points, none) e (cells e.bucket)).2 =
              (points ++ [⟨e.attrs, value⟩], none) := by
            simp only [scrapeEntry, hvalue]
          have hrest := ih (points ++ [⟨e.attrs, value⟩])
          simp only [collectPoints, hstep]
          cases hlater : collectPoints
              (rest.map fun e => (e.attrs, into (Record.current (cells e.bucket)) id)) with
          | error err =>
              simp only [hlater] at hrest
              exact hrest
          | ok found =>
              simp only [hlater] at hrest
              simpa [Except.map] using hrest

/-- A scrape returns what the source it is shown amounts to. -/
theorem scrape_eq (kind : Kind) (cfg : Config (KeyValue F) A)
    (buckets : BucketMap (KeyValue F) A) :
    Prometheus.scrape into id kind cfg buckets = (shownSource into id kind buckets).scrape := by
  have hvisit := BucketMap.visitBucket_eq_of_keeps cfg
    (fun state e cell => (rfl : (scrapeEntry into id state e cell).1 = true)) buckets ([], none)
  have hwalk := foldl_scrapeEntry into id [] buckets.cells buckets.walkedEntries
  simp only [Prometheus.scrape, hvisit, Shown.scrape, shownSource]
  generalize buckets.walkedEntries.foldl _ _ = visited at hwalk
  cases hpoints : collectPoints (buckets.walkedEntries.map fun e =>
      (e.attrs, into (Record.current (buckets.cells e.bucket)) id)) with
  | error err =>
      simp only [hpoints] at hwalk
      simp only [hwalk]
  | ok points =>
      simp only [hpoints] at hwalk
      rw [hwalk]
      cases points <;> rfl

/-- A scrape leaves its source as it is. -/
theorem scrape_keeps (cfg : Config (KeyValue F) A) (buckets : BucketMap (KeyValue F) A) :
    (buckets.visitBucket cfg (scrapeEntry into id) ([], none)).1 = buckets :=
  congrArg Prod.fst (BucketMap.visitBucket_eq_of_keeps cfg
    (fun state e cell => (rfl : (scrapeEntry into id state e cell).1 = true)) buckets ([], none))

end Scrape

/-- `SourceHandle`: a registered source, and what its values convert to. -/
structure SourceHandle (F : Type) : Type 1 where
  {Cell Measure Value : Type}
  [record : Record Cell Measure Value]
  into : Value → NameIdentity → Except Error (DataPointValue F)
  id : NameIdentity
  kind : Kind
  cfg : Config (KeyValue F) Cell
  buckets : BucketMap (KeyValue F) Cell

namespace SourceHandle

attribute [instance] record

def scrape (source : SourceHandle F) : Scrape F :=
  Prometheus.scrape source.into source.id source.kind source.cfg source.buckets

/-- What a scrape of the source is shown. -/
def shown (source : SourceHandle F) : Shown F :=
  shownSource source.into source.id source.kind source.buckets

theorem scrape_eq_shown (source : SourceHandle F) : source.scrape = source.shown.scrape :=
  scrape_eq source.into source.id source.kind source.cfg source.buckets

end SourceHandle

/-! ## What can be collected -/

theorem collectPoints_eq_ok_iff {entries : List (Entry F)} {points : List (DataPoint F)} :
    collectPoints entries = .ok points ↔
      entries = points.map fun point => (point.attrs, .ok point.value) := by
  induction entries generalizing points with
  | nil => cases points <;> simp [collectPoints]
  | cons e rest ih =>
      obtain ⟨attrs, value⟩ := e
      cases value with
      | error err => cases points <;> simp [collectPoints]
      | ok value =>
          cases hrest : collectPoints rest with
          | error err =>
              have hnone : ∀ later : List (DataPoint F),
                  rest ≠ later.map fun point => (point.attrs, .ok point.value) := by
                intro later heq
                simp [ih.mpr heq] at hrest
              cases points with
              | nil => simp [collectPoints, hrest, Except.map]
              | cons point later => simp [collectPoints, hrest, Except.map, hnone]
          | ok later =>
              have hentries := ih.mp hrest
              simp only [collectPoints, hrest, Except.map, Except.ok.injEq]
              constructor
              · rintro rfl
                rw [List.map_cons, hentries]
              · intro heq
                cases points with
                | nil => simp at heq
                | cons point others =>
                    obtain ⟨hfirst, hothers⟩ := List.cons.inj heq
                    obtain ⟨rfl, hvalue⟩ := Prod.mk.inj hfirst
                    obtain rfl := Except.ok.inj hvalue
                    rw [ih.mpr hothers] at hrest
                    rw [Except.ok.inj hrest]

theorem collectPoints_error {entries : List (Entry F)} {err : Error}
    (h : collectPoints entries = .error err) : ∃ e ∈ entries, e.2 = .error err := by
  induction entries with
  | nil => cases h
  | cons e rest ih =>
      obtain ⟨attrs, value⟩ := e
      cases value with
      | error cause =>
          obtain rfl := Except.error.inj h
          exact ⟨_, List.mem_cons_self, rfl⟩
      | ok value =>
          cases hrest : collectPoints rest with
          | ok later => simp [collectPoints, hrest, Except.map] at h
          | error cause =>
              rw [collectPoints, hrest] at h
              obtain rfl : cause = err := Except.error.inj h
              obtain ⟨e, he, hfailed⟩ := ih hrest
              exact ⟨e, List.mem_cons_of_mem _ he, hfailed⟩

/-- The points of a scrape are those of the entries that are walked. -/
theorem SourceHandle.points_of_scrape {source : SourceHandle F} {m : Metric F}
    (h : source.scrape = .ok (some m)) :
    m.id = source.id ∧ m.kind = source.kind ∧
      ∀ point ∈ m.points, ∃ e ∈ source.buckets.walkedEntries, point.attrs = e.attrs ∧
        source.into (Record.current (source.buckets.cells e.bucket)) source.id =
          .ok point.value := by
  rw [source.scrape_eq_shown, Shown.scrape] at h
  cases hpoints : collectPoints source.shown.entries with
  | error err => simp [hpoints] at h
  | ok points =>
      have hentries := collectPoints_eq_ok_iff.mp hpoints
      cases points with
      | nil => simp [hpoints] at h
      | cons first rest =>
          simp only [hpoints] at h
          obtain rfl := Option.some.inj (Except.ok.inj h)
          refine ⟨rfl, rfl, fun point hpoint => ?_⟩
          have hmem : (point.attrs, .ok point.value) ∈ source.shown.entries := by
            rw [hentries]
            exact List.mem_map_of_mem hpoint
          obtain ⟨e, he, heq⟩ := List.mem_map.mp hmem
          obtain ⟨hattrs, hvalue⟩ := Prod.mk.inj heq
          exact ⟨e, he, hattrs.symm, hvalue⟩

section Genuine

variable [Formats F]

/-- What a scrape can fail with. -/
inductive IsScrapeError : Error → Prop
  | value : IsScrapeError .valueToF64
  | boundary (metric : Text) : IsScrapeError (.prometheus (.nonFiniteBoundary metric))

/-- The points of histograms, and no others, are histograms; their boundaries are
numbers, no number twice. -/
def DataPointValue.Fits (kind : Kind) : DataPointValue F → Prop
  | .number _ => kind ≠ .histogram
  | .histogram h =>
      kind = .histogram ∧ h.boundaries.Nodup ∧ ∀ boundary ∈ h.boundaries, Formats.Finite boundary

/-- What a source can be scraped as. -/
def Genuine : Scrape F → Prop
  | .error err => IsScrapeError err
  | .ok found => ∀ m ∈ found, ∀ point ∈ m.points, point.value.Fits m.kind

/-- What the value of an entry may convert to. -/
def Convertible (kind : Kind) : Except Error (DataPointValue F) → Prop
  | .error err => IsScrapeError err
  | .ok value => value.Fits kind

/-- A source whose entries convert to what its kind demands is scraped so. -/
theorem Shown.genuine {shown : Shown F}
    (hentries : ∀ e ∈ shown.entries, Convertible shown.kind e.2) : Genuine shown.scrape := by
  rw [Shown.scrape]
  cases hpoints : collectPoints shown.entries with
  | error err =>
      obtain ⟨e, he, hfailed⟩ := collectPoints_error hpoints
      have hconvertible := hentries e he
      rw [hfailed] at hconvertible
      exact hconvertible
  | ok points =>
      have hfits : ∀ point ∈ points, point.value.Fits shown.kind := by
        intro point hpoint
        refine hentries (point.attrs, .ok point.value) ?_
        rw [collectPoints_eq_ok_iff.mp hpoints]
        exact List.mem_map_of_mem hpoint
      cases points with
      | nil => exact fun m hm => absurd hm (by simp)
      | cons point rest =>
          intro m hm
          obtain rfl := Option.some.inj hm
          exact hfits

/-- A source whose values all convert to what its kind demands. -/
theorem SourceHandle.genuine {source : SourceHandle F}
    (hinto : ∀ value, Convertible source.kind (source.into value source.id)) :
    Genuine source.scrape := by
  rw [source.scrape_eq_shown]
  apply Shown.genuine
  intro e he
  obtain ⟨entry, _, rfl⟩ := List.mem_map.mp he
  exact hinto _

section Conversion

variable {T : Type} (toF64 : T → Option F)

omit [Formats F] in
theorem toNumber_error {value : T} {err : Error} (h : toNumber toF64 value = .error err) :
    err = .valueToF64 := by
  rw [toNumber] at h
  cases hvalue : toF64 value with
  | none =>
      simp only [hvalue] at h
      exact (Except.error.inj h).symm
  | some number => simp [hvalue] at h

theorem numberValue_convertible {kind : Kind} (hkind : kind ≠ .histogram) (value : T)
    (metric : NameIdentity) : Convertible kind (numberValue toF64 value metric) := by
  rw [numberValue]
  cases hvalue : toNumber toF64 value with
  | ok number => exact hkind
  | error err =>
      rw [toNumber_error toF64 hvalue]
      exact .value

/-- The boundaries that a snapshot is converted with are numbers. -/
theorem convertBoundaries_result (metric : Text) (boundaries : List T) :
    match convertBoundaries toF64 metric boundaries with
    | .error err => IsScrapeError err
    | .ok converted => ∀ boundary ∈ converted, Formats.Finite boundary := by
  induction boundaries with
  | nil => simp [convertBoundaries]
  | cons boundary rest ih =>
      rw [convertBoundaries]
      cases hvalue : toNumber toF64 boundary with
      | error err =>
          rw [toNumber_error toF64 hvalue]
          exact .value
      | ok number =>
          simp only
          by_cases hnumber : Formats.isNan number ∨ Formats.isInfinite number
          · rw [if_pos hnumber]
            exact .boundary metric
          · rw [if_neg hnumber]
            cases hrest : convertBoundaries toF64 metric rest with
            | error err =>
                rw [hrest] at ih
                exact ih
            | ok later =>
                rw [hrest] at ih
                have hfinite : Formats.Finite number := by simpa [Formats.Finite] using hnumber
                exact List.forall_mem_cons.mpr ⟨hfinite, ih⟩

theorem histogramValue_convertible (snapshot : Atomic.Snapshot T) (metric : NameIdentity)
    (hnodup : ∀ converted,
      convertBoundaries toF64 metric.name.toList snapshot.boundaries = .ok converted →
        converted.Nodup) :
    Convertible .histogram (histogramValue toF64 snapshot metric) := by
  have hresult := convertBoundaries_result toF64 metric.name.toList snapshot.boundaries
  rw [histogramValue]
  cases hboundaries : convertBoundaries toF64 metric.name.toList snapshot.boundaries with
  | error err =>
      rw [hboundaries] at hresult
      exact hresult
  | ok converted =>
      rw [hboundaries] at hresult
      simp only
      cases hsum : toNumber toF64 snapshot.sum with
      | error err =>
          rw [toNumber_error toF64 hsum]
          exact .value
      | ok sum => exact ⟨rfl, hnodup converted hboundaries, hresult⟩

end Conversion

end Genuine

/-- A count is the whole number of its size. -/
def wholeNumber (value : UInt64) : Option WholeFloat := some (.whole value.toNat)

end Ohnotel.Prometheus
