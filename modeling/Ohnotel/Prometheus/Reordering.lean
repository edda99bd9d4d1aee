/-
# The order does not matter

The order in which sources are registered, in which their entries are walked and in which
the attributes of an entry are listed makes no difference to what a collector renders.

What is the same up to order is related by `Multiset.Rel`; the lemmas follow it through a
scrape, the merging of metrics and the sorting of points.
-/

import Mathlib.Data.Multiset.Bind
import Ohnotel.Prometheus.RoundTrip
import Ohnotel.Prometheus.Scraping

namespace Ohnotel.Prometheus

open Foundation

variable {F : Type}

/-! ## What is reordered -/

/-- The same attributes in any order, and the same value. -/
def Entry.Reorders (e other : Entry F) : Prop := e.1.Perm other.1 ∧ e.2 = other.2

/-- The same entries in any order, each up to the order of its attributes. -/
structure Shown.Reorders (shown other : Shown F) : Prop where
  id : shown.id = other.id
  kind : shown.kind = other.kind
  entries : Multiset.Rel Entry.Reorders (shown.entries : Multiset (Entry F)) other.entries

/-- The same sources in any order, each up to the order of its entries. -/
def Reordered (sources others : List (Shown F)) : Prop :=
  Multiset.Rel Shown.Reorders (sources : Multiset (Shown F)) others

/-- Points of the same attributes in any order, and of the same value. -/
def DataPoint.Reorders (point other : DataPoint F) : Prop :=
  point.attrs.Perm other.attrs ∧ point.value = other.value

/-- Metrics of the same points in any order. -/
structure Metric.Reorders (m other : Metric F) : Prop where
  id : m.id = other.id
  kind : m.kind = other.kind
  points : Multiset.Rel DataPoint.Reorders (m.points : Multiset (DataPoint F)) other.points

theorem Shown.Reorders.symm {shown other : Shown F} (h : shown.Reorders other) :
    other.Reorders shown where
  id := h.id.symm
  kind := h.kind.symm
  entries := Multiset.rel_flip.mp (h.entries.mono fun _ _ _ _ he => ⟨he.1.symm, he.2.symm⟩)

theorem Reordered.symm {sources others : List (Shown F)} (h : Reordered sources others) :
    Reordered others sources :=
  Multiset.rel_flip.mp (h.mono fun _ _ _ _ hshown => hshown.symm)

section Lists

universe u v

variable {α β : Type u} {γ δ : Type v} {r : α → β → Prop} {p : γ → δ → Prop} {l : List α}
  {l' : List β}

/-- Lists of lists that are the same up to order, joined. -/
theorem rel_flatMap (h : Multiset.Rel r (l : Multiset α) l') {f : α → List γ} {g : β → List δ}
    (hfg : ∀ a b, r a b → Multiset.Rel p (f a : Multiset γ) (g b)) :
    Multiset.Rel p (l.flatMap f : Multiset γ) (l'.flatMap g) := by
  rw [← Multiset.coe_bind, ← Multiset.coe_bind]
  exact Multiset.rel_bind (fun a b hab => hfg a b hab) h

/-- What related elements have in common is the same up to order. -/
theorem perm_map_of_rel (h : Multiset.Rel r (l : Multiset α) l') {f : α → γ} {g : β → γ}
    (hfg : ∀ a ∈ l, ∀ b ∈ l', r a b → f a = g b) : (l.map f).Perm (l'.map g) := by
  apply Multiset.coe_eq_coe.mp
  rw [← Multiset.map_coe, ← Multiset.map_coe]
  apply Multiset.rel_eq.mp
  exact Multiset.rel_map.mpr (h.mono fun a ha b hb hab => hfg a ha b hb hab)

/-- Lists of the same images are joined alike, if an image tells what is joined. -/
theorem flatMap_eq_of_map_eq {f : α → γ} {g : α → List δ} {l l' : List α}
    (hmap : l'.map f = l.map f) (hfg : ∀ a b, f a = f b → g a = g b) :
    l'.flatMap g = l.flatMap g := by
  induction l generalizing l' with
  | nil => rw [List.map_eq_nil_iff.mp hmap]
  | cons a rest ih =>
      cases l' with
      | nil => simp at hmap
      | cons b later =>
          obtain ⟨hfirst, hrest⟩ := List.cons.inj hmap
          rw [List.flatMap_cons, List.flatMap_cons, hfg b a hfirst, ih hrest]

end Lists

/-! ## Scraping -/

/-- Entries that all convert do so in any order. -/
theorem collectPoints_reorders {entries others : List (Entry F)} {points : List (DataPoint F)}
    (h : Multiset.Rel Entry.Reorders (entries : Multiset (Entry F)) others)
    (hpoints : collectPoints entries = .ok points) :
    ∃ found, collectPoints others = .ok found ∧
      Multiset.Rel DataPoint.Reorders (points : Multiset (DataPoint F)) found := by
  have hentries := collectPoints_eq_ok_iff.mp hpoints
  cases hothers : collectPoints others with
  | error err =>
      obtain ⟨other, hother, hfailed⟩ := collectPoints_error hothers
      obtain ⟨e, he, hsame⟩ := Multiset.exists_mem_of_rel_of_mem (Multiset.rel_flip.mpr h) hother
      rw [hentries] at he
      obtain ⟨point, _, rfl⟩ := List.mem_map.mp he
      have hvalue : Except.ok point.value = other.2 := hsame.2
      rw [hfailed] at hvalue
      cases hvalue
  | ok found =>
      refine ⟨found, rfl, ?_⟩
      rw [hentries, collectPoints_eq_ok_iff.mp hothers, ← Multiset.map_coe, ← Multiset.map_coe,
        Multiset.rel_map] at h
      exact h.mono fun _ _ _ _ hsame => ⟨hsame.1, Except.ok.inj hsame.2⟩

/-- The metric of a source, if it was scraped and has one. -/
def scrapedMetric : Scrape F → List (Metric F)
  | .ok (some m) => [m]
  | .ok none | .error _ => []

theorem contributing_eq_flatMap (sources : List (Scrape F)) :
    contributing sources = sources.flatMap scrapedMetric := by
  rw [contributing, List.filterMap_eq_flatMap_toList]
  apply List.flatMap_congr
  intro source _
  cases source with
  | error err => rfl
  | ok found => cases found <;> rfl

theorem Shown.Reorders.scrape {shown other : Shown F} (h : shown.Reorders other)
    {found : Option (Metric F)} (hfound : shown.scrape = .ok found) :
    (∃ found', other.scrape = .ok found') ∧
      Multiset.Rel Metric.Reorders (scrapedMetric shown.scrape : Multiset (Metric F))
        (scrapedMetric other.scrape) := by
  cases hpoints : collectPoints shown.entries with
  | error err => simp [Shown.scrape, hpoints] at hfound
  | ok points =>
      obtain ⟨points', hpoints', hrel⟩ := collectPoints_reorders h.entries hpoints
      have hcard := Multiset.card_eq_card_of_rel hrel
      cases points with
      | nil =>
          obtain rfl : points' = [] := List.length_eq_zero_iff.mp hcard.symm
          simp [Shown.scrape, hpoints, hpoints', scrapedMetric]
      | cons point rest =>
          cases points' with
          | nil => simp at hcard
          | cons point' rest' =>
              have hmetric : Metric.Reorders ⟨shown.id, shown.kind, point :: rest⟩
                  ⟨other.id, other.kind, point' :: rest'⟩ := ⟨h.id, h.kind, hrel⟩
              refine ⟨by simp [Shown.scrape, hpoints'], ?_⟩
              simp only [Shown.scrape, hpoints, hpoints', scrapedMetric]
              exact Multiset.Rel.cons hmetric Multiset.Rel.zero

/-! ## Points -/

variable [Formats F]

/-- A labelled point is so in any order of its attributes, with the same labels. -/
theorem DataPoint.Labelled.reorders {point other : DataPoint F} (h : point.Labelled)
    (hsame : point.Reorders other) : other.Labelled ∧ other.labels = point.labels := by
  have hlabels : other.labels = point.labels :=
    sortOn_eq_of_perm (hsame.1.filterMap _) h.increasing
  refine ⟨⟨?_, ?_, ?_⟩, hlabels⟩
  · rw [hlabels]
    exact h.increasing
  · rw [hlabels]
    exact h.names
  · rw [hlabels, ← hsame.2]
    exact h.unreserved

/-- What the samples of a point are made of. -/
def DataPoint.shape (point : DataPoint F) : List (Text × Text) × DataPointValue F :=
  (point.labels, point.value)

theorem samples_eq_of_shape {point other : DataPoint F} (hshape : point.shape = other.shape)
    (name : Text) : point.samples name = other.samples name := by
  obtain ⟨hlabels, hvalue⟩ := Prod.mk.inj hshape
  simp only [DataPoint.samples, DataPoint.bucketSample, hlabels, hvalue]

/-- The shapes of sorted points are the sorted shapes of the points. -/
theorem Metric.map_shape_sortedPoints (m : Metric F) :
    m.sortedPoints.map DataPoint.shape =
      sortOn (fun shape => labelsText shape.1) (m.points.map DataPoint.shape) :=
  map_sortOn (by exact fun _ => rfl) m.points

/-- A renderable metric is so with its points in any order, and is the same family. -/
theorem Metric.Renderable.reorders {m other : Metric F} (h : m.Renderable)
    (hsame : m.Reorders other) : other.Renderable ∧ other.family = m.family := by
  have hlabelled : ∀ point ∈ other.points, point.Labelled := by
    intro point hpoint
    obtain ⟨before, hbefore, hreorders⟩ :=
      Multiset.exists_mem_of_rel_of_mem (Multiset.rel_flip.mpr hsame.points) hpoint
    exact ((h.labelled before hbefore).reorders hreorders).1
  have hshapes : (m.points.map DataPoint.shape).Perm (other.points.map DataPoint.shape) := by
    refine perm_map_of_rel hsame.points fun point hpoint point' _ hreorders => ?_
    have hlabels := ((h.labelled point hpoint).reorders hreorders).2
    rw [DataPoint.shape, DataPoint.shape, hlabels, hreorders.2]
  have hdistinct : (m.sortedPoints.map DataPoint.shape).Pairwise
      fun a b => labelsText a.1 < labelsText b.1 := List.pairwise_map.mpr h.distinct
  have hsorted : other.sortedPoints.map DataPoint.shape = m.sortedPoints.map DataPoint.shape := by
    rw [m.map_shape_sortedPoints] at hdistinct
    rw [m.map_shape_sortedPoints, other.map_shape_sortedPoints]
    exact sortOn_eq_of_perm hshapes hdistinct
  have hname := Metric.finalName_congr hsame.id hsame.kind
  refine ⟨⟨hsame.id ▸ h.named, hlabelled, ?_⟩, ?_⟩
  · rw [← hsorted, List.pairwise_map] at hdistinct
    exact hdistinct
  · have hsamples : (other.sortedPoints.flatMap fun point => point.samples other.finalName) =
        m.sortedPoints.flatMap fun point => point.samples m.finalName := by
      rw [hname]
      exact flatMap_eq_of_map_eq hsorted fun point point' hshape =>
        samples_eq_of_shape hshape other.finalName
    rw [Metric.family, Metric.family, hsamples, hname, hsame.id, hsame.kind]

/-! ## Families -/

omit [Formats F] in
/-- The points of a family are the same up to order if the metrics are. -/
theorem pointsOf_reorders {metrics others : List (Metric F)}
    (h : Multiset.Rel Metric.Reorders (metrics : Multiset (Metric F)) others) (name : Text) :
    Multiset.Rel DataPoint.Reorders (pointsOf metrics name : Multiset (DataPoint F))
      (pointsOf others name) := by
  have hpoints : ∀ metrics : List (Metric F), pointsOf metrics name =
      metrics.flatMap fun m => if m.finalName = name then m.points else [] := by
    intro metrics
    induction metrics with
    | nil => rfl
    | cons m rest ih =>
        rw [pointsOf, List.flatMap_cons, ← ih, List.filter_cons]
        split <;> simp_all [pointsOf]
  rw [hpoints, hpoints]
  refine rel_flatMap h fun m other hsame => ?_
  rw [Metric.finalName_congr hsame.id hsame.kind]
  split
  · exact hsame.points
  · exact Multiset.Rel.zero

omit [Formats F] in
theorem Consistent.reorders {metrics others : List (Metric F)} (hconsistent : Consistent metrics)
    (h : Multiset.Rel Metric.Reorders (metrics : Multiset (Metric F)) others) :
    Consistent others := by
  have hfrom : ∀ other ∈ others, ∃ m ∈ metrics, m.id = other.id ∧ m.kind = other.kind := by
    intro other hother
    obtain ⟨m, hm, hsame⟩ := Multiset.exists_mem_of_rel_of_mem (Multiset.rel_flip.mpr h) hother
    exact ⟨m, hm, hsame.id, hsame.kind⟩
  refine ⟨fun other hother => ?_, fun other hother second hsecond hname => ?_⟩
  · obtain ⟨m, hm, hid, _⟩ := hfrom other hother
    rw [← hid]
    exact hconsistent.named m hm
  · obtain ⟨m, hm, hid, hkind⟩ := hfrom other hother
    obtain ⟨m', hm', hid', hkind'⟩ := hfrom second hsecond
    rw [← Metric.finalName_congr hid hkind, ← Metric.finalName_congr hid' hkind'] at hname
    rw [← hid, ← hkind, ← hid', ← hkind']
    exact hconsistent.agree m hm m' hm' hname

/-- The family with the points that other metrics have for it. -/
def Metric.withPointsOf (others : List (Metric F)) (family : Metric F) : Metric F :=
  { family with points := pointsOf others family.finalName }

omit [Formats F] in
theorem Merged.reorders {metrics others families : List (Metric F)}
    (hmerged : Merged metrics families)
    (h : Multiset.Rel Metric.Reorders (metrics : Multiset (Metric F)) others) :
    Merged others (families.map (Metric.withPointsOf others)) where
  increasing := List.pairwise_map.mpr hmerged.increasing
  contributed family hfamily := by
    obtain ⟨before, hbefore, rfl⟩ := List.mem_map.mp hfamily
    obtain ⟨m, hm, hid, hkind⟩ := hmerged.contributed before hbefore
    obtain ⟨other, hother, hsame⟩ := Multiset.exists_mem_of_rel_of_mem h hm
    exact ⟨other, hother, hsame.id.symm.trans hid, hsame.kind.symm.trans hkind⟩
  covered other hother := by
    obtain ⟨m, hm, hsame⟩ := Multiset.exists_mem_of_rel_of_mem (Multiset.rel_flip.mpr h) hother
    obtain ⟨family, hfamily, hid, hkind⟩ := hmerged.covered m hm
    exact ⟨_, List.mem_map_of_mem hfamily, hsame.id.symm.trans hid, hsame.kind.symm.trans hkind⟩
  points family hfamily := by
    obtain ⟨before, _, rfl⟩ := List.mem_map.mp hfamily
    rfl

omit [Formats F] in
/-- Every family is the same up to the order of its points. -/
theorem Merged.withPointsOf_reorders {metrics others families : List (Metric F)}
    (hmerged : Merged metrics families)
    (h : Multiset.Rel Metric.Reorders (metrics : Multiset (Metric F)) others) :
    ∀ family ∈ families, family.Reorders (family.withPointsOf others) := by
  intro family hfamily
  refine ⟨rfl, rfl, ?_⟩
  rw [hmerged.points family hfamily]
  exact pointsOf_reorders h family.finalName

/-- What is rendered of sources is rendered of them in any order. -/
theorem render_reorders {sources others : List (Shown F)} (h : Reordered sources others)
    {out : Text} (hrender : render (sources.map Shown.scrape) = .ok out) :
    render (others.map Shown.scrape) = .ok out := by
  obtain ⟨hscraped, hconsistent, families, hmerged, hpresentable, rfl⟩ :=
    render_eq_ok_iff.mp hrender
  have hshown : ∀ shown ∈ sources, ∃ found, shown.scrape = .ok found :=
    fun shown hmem => hscraped _ (List.mem_map_of_mem hmem)
  have hmetrics : Multiset.Rel Metric.Reorders
      (contributing (sources.map Shown.scrape) : Multiset (Metric F))
      (contributing (others.map Shown.scrape)) := by
    rw [contributing_eq_flatMap, contributing_eq_flatMap, List.flatMap_map, List.flatMap_map]
    refine rel_flatMap (h.mono fun shown hmem other hother hsame => ?_) fun _ _ hrel => hrel
    obtain ⟨found, hfound⟩ := hshown shown hmem
    exact (hsame.scrape hfound).2
  have hfamilies : ∀ family ∈ families, (family.withPointsOf
      (contributing (others.map Shown.scrape))).Renderable ∧
      (family.withPointsOf (contributing (others.map Shown.scrape))).family = family.family :=
    fun family hfamily => (hpresentable.renderable family hfamily).reorders
      (hmerged.withPointsOf_reorders hmetrics family hfamily)
  refine render_eq_ok_iff.mpr ⟨?_, hconsistent.reorders hmetrics, _, hmerged.reorders hmetrics,
    ⟨?_, ?_⟩, ?_⟩
  · intro source hsource
    obtain ⟨other, hother, rfl⟩ := List.mem_map.mp hsource
    obtain ⟨shown, hmem, hsame⟩ :=
      Multiset.exists_mem_of_rel_of_mem (Multiset.rel_flip.mpr h) hother
    obtain ⟨found, hfound⟩ := hshown shown hmem
    exact (hsame.scrape hfound).1
  · rw [allSampleNames, List.flatMap_map]
    exact hpresentable.nodup
  · intro family hfamily
    obtain ⟨before, hbefore, rfl⟩ := List.mem_map.mp hfamily
    exact (hfamilies before hbefore).1
  · rw [List.map_map]
    exact congrArg expositionOf (List.map_congr_left fun family hfamily =>
      (hfamilies family hfamily).2.symm)

/-- Two collectors of the same sources, up to the order of the sources, of the entries
they are walked in and of the attributes these list, render the same or both fail. -/
theorem render_order_independent {sources others : List (SourceHandle F)}
    (h : Reordered (sources.map SourceHandle.shown) (others.map SourceHandle.shown)) (out : Text) :
    render (sources.map SourceHandle.scrape) = .ok out ↔
      render (others.map SourceHandle.scrape) = .ok out := by
  have hscrape : ∀ sources : List (SourceHandle F), sources.map SourceHandle.scrape =
      (sources.map SourceHandle.shown).map Shown.scrape := by
    intro sources
    rw [List.map_map]
    exact List.map_congr_left fun source _ => source.scrape_eq_shown
  rw [hscrape, hscrape]
  exact ⟨render_reorders h, render_reorders h.symm⟩

/-- A counter whose table is walked in the order of the given entries. -/
def walking (name : String) (entries : List (List (KeyValue WholeFloat) × UInt64)) :
    SourceHandle WholeFloat where
  Cell := UInt64
  Measure := UInt64
  Value := UInt64
  into := numberValue fun value : UInt64 => some (.whole value.toNat)
  id := ⟨name, "", ""⟩
  kind := .counter
  cfg := { hasher := ⟨fun _ => 0, AttrFingerprint.sum⟩, initBucket := 0, layout := .stack }
  buckets :=
    { canonical := ⟨entries.zipIdx.map fun e => (0, ⟨e.1.1, e.2 + 1, []⟩)⟩
      aliases := .empty
      noAttrEntry := ⟨[], 0, []⟩
      noAttrTouched := false
      count := UInt64.ofNat entries.length
      cells := fun bucket => (entries.getD (bucket - 1) ([], 0)).2
      fresh := entries.length + 1 }

def host (name : String) : KeyValue WholeFloat := ⟨"host", some (.string name)⟩

def path (name : String) : KeyValue WholeFloat := ⟨"path", some (.string name)⟩

def walkedText : Text :=
  "# TYPE hits_total counter\nhits_total".toList ++ '{' :: "host=\"a\",path=\"/\"".toList ++
    '}' :: " 3\nhits_total".toList ++ '{' :: "host=\"b\"".toList ++
    '}' :: " 4\n# TYPE idle_total counter\nidle_total 9\n".toList

theorem render_order_independent_walked :
    render ([walking "hits" [([path "/", host "a"], 3), ([host "b"], 4)],
      walking "idle" [([], 9)]].map SourceHandle.scrape) = .ok walkedText ∧
    render ([walking "idle" [([], 9)],
      walking "hits" [([host "b"], 4), ([host "a", path "/"], 3)]].map SourceHandle.scrape) =
        .ok walkedText := by
  have hrender : render ([walking "hits" [([path "/", host "a"], 3), ([host "b"], 4)],
      walking "idle" [([], 9)]].map SourceHandle.scrape) = .ok walkedText := by rfl
  refine ⟨hrender, (render_order_independent ?_ walkedText).mp hrender⟩
  have hentries : Multiset.Rel (Entry.Reorders (F := WholeFloat))
      (Multiset.ofList [([path "/", host "a"], .ok (.number (.whole 3))),
        ([host "b"], .ok (.number (.whole 4)))])
      (Multiset.ofList [([host "b"], .ok (.number (.whole 4))),
        ([host "a", path "/"], .ok (.number (.whole 3)))]) := by
    rw [Multiset.coe_eq_coe.mpr (List.Perm.swap _ _ [])]
    exact .cons ⟨.refl _, rfl⟩ (.cons ⟨.swap _ _ [], rfl⟩ .zero)
  have hhits : Shown.Reorders (walking "hits" [([path "/", host "a"], 3), ([host "b"], 4)]).shown
      (walking "hits" [([host "b"], 4), ([host "a", path "/"], 3)]).shown := ⟨rfl, rfl, hentries⟩
  have hidle : Shown.Reorders (walking "idle" [([], 9)]).shown (walking "idle" [([], 9)]).shown :=
    ⟨rfl, rfl, .cons ⟨.refl _, rfl⟩ .zero⟩
  rw [Reordered, List.map_cons, List.map_singleton, Multiset.coe_eq_coe.mpr (List.Perm.swap _ _ [])]
  exact .cons hidle (.cons hhits .zero)

end Ohnotel.Prometheus
