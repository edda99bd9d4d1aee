/-
# Scraping beside writers

A scrape of a counter visits its map while threads write to it, and what it returns is
rendered together with what the other sources of its collector return.  Whoever reads the
texts of two scrapes of one collector finds every series of the first again in the second,
with the total of at least as many writes.
-/

import Ohnotel.AttributeOrder
import Ohnotel.Observe.Repeated
import Ohnotel.Prometheus.RoundTrip
import Ohnotel.Prometheus.Scraping

namespace Ohnotel.Prometheus

open Foundation Atomic

variable {F : Type}

/-! ## Scrapes as visits -/

/-- A collector that scrapes a source: the points and the failure that the callback has
captured, and what the scrapes have returned. -/
structure Scraper (F : Type) where
  captured : List (DataPoint F) × Option Error
  returned : List (Scrape F)

namespace Scraper

/-- A collector that has scraped nothing yet. -/
def new : Scraper F := ⟨([], none), []⟩

/-- What `scrape` makes of the points and the failure. -/
def result (id : NameIdentity) (kind : Kind) (captured : List (DataPoint F) × Option Error) :
    Scrape F :=
  match captured.2 with
  | some err => .error err
  | none =>
      if captured.1.isEmpty then .ok none
      else .ok (some { id := id, kind := kind, points := captured.1 })

variable (toF64 : UInt64 → Option F) (id : NameIdentity) (kind : Kind)

/-- The callback of a scrape of a counter. -/
def entry (s : Scraper F) (e : CanonicalEntry (KeyValue F)) (cell : UInt64) : Bool × Scraper F :=
  let answer := scrapeEntry (T := UInt64) (numberValue toF64) id s.captured e cell
  (answer.1, { s with captured := answer.2 })

/-- `SourceHandle::scrape` as a visit. -/
def visitor : Visitor (KeyValue F) UInt64 (Scraper F) Unit Empty where
  entry _ := entry toF64 id
  keeps _ _ _ _ := rfl
  close s := ⟨([], none), s.returned ++ [result id kind s.captured]⟩
  own op _ := op.elim

theorem close_visitor (s : Scraper F) :
    (visitor toF64 id kind).close s = ⟨([], none), s.returned ++ [result id kind s.captured]⟩ := rfl

/-- A visit that nothing interrupts is `scrape`. -/
theorem told_eq_scrape [LinearOrder (KeyValue F)] (cfg : Config (KeyValue F) UInt64)
    (m : BucketMap (KeyValue F) UInt64) (returned : List (Scrape F)) :
    (visitor toF64 id kind).close
        (m.visitBucket cfg ((visitor toF64 id kind).entry ()) ⟨([], none), returned⟩).2 =
      ⟨([], none), returned ++ [scrape (T := UInt64) (numberValue toF64) id kind cfg m]⟩ := by
  have hfold : ∀ (entries : List (CanonicalEntry (KeyValue F))) (s : Scraper F),
      entries.foldl (fun s e => (entry toF64 id s e (m.cells e.bucket)).2) s =
        { s with
          captured := entries.foldl
            (fun captured e => (scrapeEntry (T := UInt64) (numberValue toF64) id captured e
              (m.cells e.bucket)).2) s.captured } := by
    intro entries
    induction entries with
    | nil => exact fun _ => rfl
    | cons e rest ih => exact fun s => ih _
  have hvisit := BucketMap.visitBucket_eq_of_keeps cfg ((visitor toF64 id kind).keeps ()) m
    ⟨([], none), returned⟩
  have hscrape := BucketMap.visitBucket_eq_of_keeps cfg
    (fun captured e cell => (rfl :
      (scrapeEntry (T := UInt64) (numberValue toF64) id captured e cell).1 = true)) m ([], none)
  rw [Prometheus.scrape, hvisit, hscrape]
  exact congrArg (visitor toF64 id kind).close (hfold m.walkedEntries _)

/-! ## What a scrape returns -/

variable {ρ : Type}

/-- What the callback captures in one visit. -/
def capture (seen : List (Sighting ρ (KeyValue F))) : List (DataPoint F) × Option Error :=
  seen.foldl (fun captured x =>
    (scrapeEntry (T := UInt64) (numberValue toF64) id captured x.entry x.cell).2) ([], none)

/-- If every value could be converted, there is a point for each entry. -/
theorem map_capture {seen : List (Sighting ρ (KeyValue F))}
    (hok : (capture toF64 id seen).2 = none) :
    (seen.map fun x => (x.entry.attrs, numberValue toF64 x.cell id)) =
      (capture toF64 id seen).1.map fun point => (point.attrs, .ok point.value) := by
  induction seen using List.reverseRecOn with
  | nil => rfl
  | append_singleton seen x ih =>
      have hlast : capture toF64 id (seen ++ [x]) =
          (scrapeEntry (T := UInt64) (numberValue toF64) id (capture toF64 id seen) x.entry
            x.cell).2 := List.foldl_concat _ _ _ _
      rw [hlast] at hok ⊢
      cases hbefore : (capture toF64 id seen).2 with
      | some err => simp [scrapeEntry, hbefore] at hok
      | none =>
          have hcurrent : (Record.current x.cell : UInt64) = x.cell := rfl
          cases hvalue : numberValue toF64 x.cell id with
          | error err => simp [scrapeEntry, hbefore, hcurrent, hvalue] at hok
          | ok value =>
              simp only [scrapeEntry, hbefore, hcurrent, hvalue, List.map_append, ih hbefore,
                List.map_singleton]

theorem told_visitor (state : Scraper F) (seen : List (Sighting ρ (KeyValue F))) :
    (Visiting.told (visitor toF64 id kind) () state seen).returned = state.returned ∧
      (state.captured = ([], none) →
        (Visiting.told (visitor toF64 id kind) () state seen).captured =
          capture toF64 id seen) := by
  induction seen using List.reverseRecOn with
  | nil => exact ⟨rfl, fun hclean => hclean⟩
  | append_singleton seen x ih =>
      have hlast : Visiting.told (visitor toF64 id kind) () state (seen ++ [x]) =
          (entry toF64 id (Visiting.told (visitor toF64 id kind) () state seen) x.entry
            x.cell).2 := List.foldl_concat _ _ _ _
      rw [hlast, capture, List.foldl_concat]
      refine ⟨ih.1, fun hclean => ?_⟩
      rw [entry, ih.2 hclean]
      rfl

/-- What the completed scrapes have made of a collector. -/
theorem foldl_visits (visits : List (Unit × List (Sighting ρ (KeyValue F)))) :
    visits.foldl (fun state visit => (visitor toF64 id kind).close
        (Visiting.told (visitor toF64 id kind) visit.1 state visit.2)) new =
      ⟨([], none), visits.map fun visit => result id kind (capture toF64 id visit.2)⟩ := by
  induction visits using List.reverseRecOn with
  | nil => rfl
  | append_singleton visits visit ih =>
      have htold := told_visitor toF64 id kind
        ⟨([], none), visits.map fun visit => result id kind (capture toF64 id visit.2)⟩ visit.2
      rw [List.foldl_concat, ih, close_visitor, htold.1, htold.2 rfl, List.map_append,
        List.map_singleton]

/-- What a scrape has returned is a point for each entry, with what its value converts to. -/
theorem map_points {seen : List (Sighting ρ (KeyValue F))} {m : Metric F}
    (hresult : result id kind (capture toF64 id seen) = .ok (some m)) :
    m.id = id ∧ m.kind = kind ∧
      (seen.map fun x => (x.entry.attrs, numberValue toF64 x.cell id)) =
        m.points.map fun point => (point.attrs, .ok point.value) := by
  rw [result] at hresult
  cases hfailure : (capture toF64 id seen).2 with
  | some err => simp [hfailure] at hresult
  | none =>
      simp only [hfailure] at hresult
      split at hresult
      · simp at hresult
      · obtain rfl := Option.some_inj.mp (Except.ok.inj hresult)
        exact ⟨rfl, rfl, map_capture toF64 id hfailure⟩

/-- A scrape that succeeds has returned a metric if it was shown anything. -/
theorem exists_metric {seen : List (Sighting ρ (KeyValue F))} (hseen : seen ≠ [])
    {found : Option (Metric F)} (hresult : result id kind (capture toF64 id seen) = .ok found) :
    ∃ m, found = some m := by
  rw [result] at hresult
  cases hfailure : (capture toF64 id seen).2 with
  | some err => simp [hfailure] at hresult
  | none =>
      simp only [hfailure] at hresult
      split at hresult
      · next hempty =>
          have hmap := map_capture toF64 id hfailure
          rw [List.isEmpty_iff.mp hempty] at hmap
          exact absurd (List.map_eq_nil_iff.mp hmap) hseen
      · exact ⟨_, (Except.ok.inj hresult).symm⟩

/-- What the value of a counter converts to is a number. -/
theorem eq_number {cell : UInt64} {value : DataPointValue F}
    (hvalue : numberValue toF64 cell id = .ok value) :
    ∃ number, toF64 cell = some number ∧ value = .number number := by
  rw [numberValue, toNumber] at hvalue
  cases hnumber : toF64 cell with
  | none => simp [hnumber, Except.map] at hvalue
  | some number =>
      rw [hnumber] at hvalue
      exact ⟨number, rfl, (Except.ok.inj hvalue).symm⟩

/-- A point of a scrape is one of an entry it was shown. -/
theorem sighting_of_point {seen : List (Sighting ρ (KeyValue F))} {m : Metric F}
    (hresult : result id kind (capture toF64 id seen) = .ok (some m)) {point : DataPoint F}
    (hpoint : point ∈ m.points) :
    ∃ x ∈ seen, x.entry.attrs = point.attrs ∧ ∃ number, toF64 x.cell = some number ∧
      point.value = .number number := by
  have hmem : (point.attrs, .ok point.value) ∈
      seen.map fun x => (x.entry.attrs, numberValue toF64 x.cell id) := by
    rw [(map_points toF64 id kind hresult).2.2]
    exact List.mem_map_of_mem hpoint
  obtain ⟨x, hx, hpair⟩ := List.mem_map.mp hmem
  obtain ⟨hattrs, hvalue⟩ := Prod.mk.inj hpair
  exact ⟨x, hx, hattrs, eq_number toF64 id hvalue⟩

/-- An entry that a scrape was shown has a point. -/
theorem point_of_sighting {seen : List (Sighting ρ (KeyValue F))} {m : Metric F}
    (hresult : result id kind (capture toF64 id seen) = .ok (some m))
    {x : Sighting ρ (KeyValue F)} (hx : x ∈ seen) :
    ∃ point ∈ m.points, point.attrs = x.entry.attrs ∧ ∃ number, toF64 x.cell = some number ∧
      point.value = .number number := by
  have hmem : (x.entry.attrs, numberValue toF64 x.cell id) ∈
      m.points.map fun point => (point.attrs, .ok point.value) := by
    rw [← (map_points toF64 id kind hresult).2.2]
    exact List.mem_map_of_mem hx
  obtain ⟨point, hpoint, hpair⟩ := List.mem_map.mp hmem
  obtain ⟨hattrs, hvalue⟩ := Prod.mk.inj hpair
  exact ⟨point, hpoint, hattrs, eq_number toF64 id hvalue.symm⟩

end Scraper

/-! ## What is read from two texts -/

variable [Formats F]

/-- A text that was rendered is read as families, and has a sample for every number that was
scraped. -/
theorem read_of_render {sources : List (Scrape F)} {out : Text}
    (hrender : render sources = .ok out) :
    ∃ families, parse out = some families ∧ ∀ m, .ok (some m) ∈ sources → ∀ point ∈ m.points,
      ∀ number, point.value = .number number →
        ∃ family ∈ families, ⟨m.finalName, point.labels, writeF64 number⟩ ∈ family.samples := by
  obtain ⟨_, hconsistent, families, hmerged, hpresentable, rfl⟩ := render_eq_ok_iff.mp hrender
  refine ⟨families.map Metric.family, ?_, fun m hm point hpoint number hnumber => ?_⟩
  · apply parse_families
    intro family hfamily
    obtain ⟨m, hm, rfl⟩ := List.mem_map.mp hfamily
    exact (hpresentable.renderable m hm).wellFormed
  · have hcontributes := mem_contributing.mpr hm
    obtain ⟨family, hfamily, hid, hkind⟩ := hmerged.covered m hcontributes
    have hname : m.finalName = family.finalName := Metric.finalName_congr hid hkind
    refine ⟨family.family, List.mem_map_of_mem hfamily, ?_⟩
    have hmem : point ∈ family.points := by
      rw [hmerged.points family hfamily]
      exact List.mem_flatMap.mpr ⟨m, List.mem_filter.mpr ⟨hcontributes, by simpa using hname⟩,
        hpoint⟩
    apply List.mem_flatMap.mpr
    refine ⟨point, Metric.mem_sortedPoints.mpr hmem, ?_⟩
    exact DataPoint.mem_samples_iff.mpr (.inl ⟨number, hnumber, by rw [hname]⟩)

/-- The families that were read have the series of a set, with the number that its total
after the first so many writes converts to. -/
def ReadAfter [LinearOrder (KeyValue F)] (toF64 : UInt64 → Option F)
    (writes : List (Write (KeyValue F))) (families : List Family) (name : Text)
    (point : DataPoint F) (after : Nat) : Prop :=
  ∃ number, toF64 (Write.total point.attrs.toFinset (writes.take after)) = some number ∧
    ∃ family ∈ families, ⟨name, point.labels, writeF64 number⟩ ∈ family.samples

variable {ι ρ : Type} [DecidableEq ι] [DecidableEq ρ] [LinearOrder (KeyValue F)]

/-- Any number of threads write to a counter while any number of collectors scrape it, their
steps in any order.  Of two scrapes of one collector, each rendered with whatever its other
sources return, the later text has every series of the counter that the earlier one has,
with the total of at least as many writes: without subtractions, and as long as no total
reaches the bound of a word, it has not gone back. -/
theorem counters_never_go_back (toF64 : UInt64 → Option F) (id : NameIdentity) (kind : Kind)
    (hasher : BuildHasher (KeyValue F)) (layout : Layout)
    {turns : List (VisitTurn ι ρ (KeyValue F) Unit Empty)}
    {last : Visiting ι ρ (KeyValue F) (Scraper F) Unit}
    (hfree : CollisionFree (Config.withHasher UInt64 hasher layout) (VisitTurn.listsOf turns))
    (hrun : StepFn.run
      (Visiting.step (Scraper.visitor toF64 id kind) (Config.withHasher UInt64 hasher layout))
      (Visiting.init (Config.withHasher UInt64 hasher layout) ι fun _ => Scraper.new) turns =
        some last) :
    ∀ r, (last.visitors r).returned.Pairwise fun earlier later =>
      ∀ before after before' after' out out',
        render (before ++ earlier :: after) = .ok out →
        render (before' ++ later :: after') = .ok out' →
        ∃ families families', parse out = some families ∧ parse out' = some families' ∧
          ∀ m, earlier = .ok (some m) → ∀ point ∈ m.points, ∃ n n',
            n ≤ n' ∧ n' ≤ last.writers.recorded.length ∧
            ReadAfter toF64 (last.writers.recorded.map Recorded.write) families m.finalName
              point n ∧
            ReadAfter toF64 (last.writers.recorded.map Recorded.write) families' m.finalName
              point n' ∧
            ((∀ w ∈ last.writers.recorded, w.write.kind = .add) →
              Write.sum point.attrs.toFinset (last.writers.recorded.map Recorded.write) < 2 ^ 64 →
              Write.total point.attrs.toFinset
                  ((last.writers.recorded.map Recorded.write).take n) ≤
                Write.total point.attrs.toFinset
                  ((last.writers.recorded.map Recorded.write).take n')) := by
  intro r
  obtain ⟨horderly, hvisitors⟩ :=
    Visiting.repeats_run (Scraper.visitor toF64 id kind) hasher layout _ hfree hrun
  obtain ⟨base, visits, hlogged, hstate⟩ := hvisitors r
  have hreturned : (last.visitors r).returned =
      visits.map fun visit => Scraper.result id kind (Scraper.capture toF64 id visit.2) := by
    have hbase := hlogged.state.trans (Scraper.foldl_visits toF64 id kind visits)
    rcases hstate with hresting | ⟨input, seen, hvisiting⟩
    · rw [hresting, hbase]
    · rw [hvisiting, (Scraper.told_visitor toF64 id kind base seen).1, hbase]
  rw [hreturned, List.pairwise_map]
  refine hlogged.follows.imp_of_mem fun {earlier later} hearlier hlater hfollows => ?_
  intro before after before' after' out out' hrender hrender'
  obtain ⟨families, hparse, hread⟩ := read_of_render hrender
  obtain ⟨families', hparse', hread'⟩ := read_of_render hrender'
  refine ⟨families, families', hparse, hparse', fun m hm point hpoint => ?_⟩
  obtain ⟨x, hx, hattrs, number, hnumber, hvalue⟩ :=
    Scraper.sighting_of_point toF64 id kind hm hpoint
  obtain ⟨y, hy, hsame⟩ := hfollows.shown x hx
  -- The later scrape did not fail, and it was shown the entry again.
  obtain ⟨found, hfound⟩ := (render_eq_ok_iff.mp hrender').1 _
    (List.mem_append_right before' List.mem_cons_self)
  obtain ⟨m', rfl⟩ := Scraper.exists_metric toF64 id kind (List.ne_nil_of_mem hy) hfound
  obtain ⟨point', hpoint', hattrs', number', hnumber', hvalue'⟩ :=
    Scraper.point_of_sighting toF64 id kind hfound hy
  have hpoints : point'.attrs = point.attrs := hattrs'.trans (hsame.trans hattrs)
  have hlabels : point'.labels = point.labels := by
    rw [DataPoint.labels, hpoints]
    rfl
  have hname : m'.finalName = m.finalName := by
    obtain ⟨hid, hkind, _⟩ := Scraper.map_points toF64 id kind hm
    obtain ⟨hid', hkind', _⟩ := Scraper.map_points toF64 id kind hfound
    exact Metric.finalName_congr (hid'.trans hid.symm) (hkind'.trans hkind.symm)
  have hdated := horderly.dated
  have hcells : ∀ z ∈ last.sightings, z.entry.attrs = point.attrs → z.cell =
      Write.total point.attrs.toFinset
        ((last.writers.recorded.map Recorded.write).take z.after) := by
    intro z hz hentry
    rw [hdated.cell z hz, Sighting.set, hentry, List.map_take]
  have hseen := hlogged.sightings earlier hearlier x hx
  have hseen' := hlogged.sightings later hlater y hy
  have hafter := hfollows.after x hx y hy
  rw [hcells x hseen hattrs] at hnumber
  rw [hcells y hseen' (hsame.trans hattrs)] at hnumber'
  refine ⟨x.after, y.after, hafter, hdated.after y hseen', ⟨number, hnumber, ?_⟩,
    ⟨number', hnumber', ?_⟩, fun hadds hlt => ?_⟩
  · exact hread m (hm ▸ List.mem_append_right before List.mem_cons_self) point hpoint number hvalue
  · rw [← hlabels, ← hname]
    exact hread' m' (hfound ▸ List.mem_append_right before' List.mem_cons_self) point' hpoint'
      number' hvalue'
  · refine Write.total_take_le ?_ hlt hafter
    intro w hw
    obtain ⟨recorded, hrecorded, rfl⟩ := List.mem_map.mp hw
    exact hadds recorded hrecorded

/-! ## Two scrapes of one counter -/

def verb : KeyValue WholeFloat := ⟨"verb", some (.string "GET")⟩

def perVerb : Config (KeyValue WholeFloat) UInt64 :=
  .withHasher UInt64 ⟨fun _ => 0, AttrFingerprint.sum⟩ .stack

def asWhole (value : UInt64) : Option WholeFloat := some (.whole value.toNat)

def calls : NameIdentity := ⟨"calls", "", ""⟩

/-- A scrape between two additions, and one after them. -/
def scrapedTwice : List (VisitTurn Unit Unit (KeyValue WholeFloat) Unit Empty) :=
  [.writer (.call () ⟨.add, 5, [verb]⟩), .writer (.step ()), .writer (.step ()),
    .writer (.step ()), .writer (.step ()), .begin () (), .visit, .visit,
    .writer (.call () ⟨.add, 2, [verb]⟩), .writer (.step ()), .writer (.step ()),
    .begin () (), .visit, .visit]

def scrapedText (count : Char) : Text :=
  "# TYPE calls_total counter\ncalls_total".toList ++ '{' :: "verb=\"GET\"".toList ++
    '}' :: [' ', count, '\n']

/-- A reader finds 5 calls in the first text and 7 in the second. -/
theorem counters_never_go_back_twice :
    ∃ last earlier later,
      StepFn.run (Visiting.step (Scraper.visitor asWhole calls .counter) perVerb)
        (Visiting.init perVerb Unit fun _ => Scraper.new) scrapedTwice = some last ∧
      (last.visitors ()).returned = [earlier, later] ∧
      render [earlier] = .ok (scrapedText '5') ∧ render [later] = .ok (scrapedText '7') ∧
      ∃ families families', parse (scrapedText '5') = some families ∧
        parse (scrapedText '7') = some families' ∧
        ∀ m, earlier = .ok (some m) → ∀ point ∈ m.points, ∃ n n', n ≤ n' ∧
          ReadAfter asWhole (last.writers.recorded.map Recorded.write) families m.finalName point
            n ∧
          ReadAfter asWhole (last.writers.recorded.map Recorded.write) families' m.finalName point
            n' := by
  have hrun : ∃ last, StepFn.run (Visiting.step (Scraper.visitor asWhole calls .counter) perVerb)
        (Visiting.init perVerb Unit fun _ => Scraper.new) scrapedTwice = some last ∧
      ∃ earlier later, (last.visitors ()).returned = [earlier, later] ∧
        render [earlier] = .ok (scrapedText '5') ∧ render [later] = .ok (scrapedText '7') :=
    ⟨_, rfl, _, _, rfl, rfl, rfl⟩
  have hfree : CollisionFree perVerb (VisitTurn.listsOf scrapedTwice) := by
    apply CollisionFree.of_perm [verb]
    intro attrs hattrs
    have hlist : attrs = [verb] := by
      simpa [VisitTurn.listsOf, scrapedTwice, VisitTurn.lists, WriterTurn.turn, Turn.lists]
        using hattrs
    rw [hlist]
  obtain ⟨last, hrun, earlier, later, hreturned, hfirst, hsecond⟩ := hrun
  have hpairwise :=
    counters_never_go_back asWhole calls .counter perVerb.hasher .stack hfree hrun ()
  rw [hreturned] at hpairwise
  obtain ⟨families, families', hparse, hparse', hread⟩ :=
    List.rel_of_pairwise_cons hpairwise (List.mem_singleton_self later) [] [] [] [] _ _ hfirst
      hsecond
  refine ⟨last, earlier, later, hrun, hreturned, hfirst, hsecond, families, families', hparse,
    hparse', fun m hm point hpoint => ?_⟩
  obtain ⟨n, n', hle, _, hearlier, hlater, _⟩ := hread m hm point hpoint
  exact ⟨n, n', hle, hearlier, hlater⟩

end Ohnotel.Prometheus
