/-
# Rendering does not depend on the order of the points

The points of a metric come in the order of a hash map.  They are sorted before they are
rendered, and the widths of the columns are computed before that, from a loop that starts
with the first point and gives up at the first that does not fit.  Neither depends on the
order, so what is rendered does not: it is the heading and one segment for each point.
-/

import Ohnotel.Console.Dto
import Ohnotel.Foundation.AnyOrder

namespace Ohnotel.Console

open Foundation

variable {F : Type} [Formats F]

/-! ## Widths of columns -/

/-- How much room the cells of a histogram take. -/
def Histogram.widths (h : Histogram F) : List Nat := h.buckets.map fun b => b.render.length

namespace Metric

/-- What a point widens the columns to. -/
theorem widen_eq_some_iff {widths found : List Nat} {dp : DataPoint F} :
    widen widths dp = some found ↔
      ∃ h, dp.asHistogram = some h ∧ h.buckets.length = widths.length ∧
        List.zipWith max widths h.widths = found := by
  rw [widen]
  cases dp.asHistogram with
  | none => simp
  | some h => simp [Histogram.widths]

theorem length_of_widen {widths found : List Nat} {dp : DataPoint F}
    (h : widen widths dp = some found) : found.length = widths.length := by
  obtain ⟨histogram, _, hlength, rfl⟩ := widen_eq_some_iff.mp h
  simp [Histogram.widths, hlength]

theorem zipWith_max_right_comm (widths first second : List Nat) :
    List.zipWith max (List.zipWith max widths first) second =
      List.zipWith max (List.zipWith max widths second) first := by
  induction widths generalizing first second with
  | nil => simp
  | cons w rest ih =>
      cases first with
      | nil => cases second <;> simp
      | cons a first =>
          cases second with
          | nil => simp
          | cons b second =>
              rw [List.zipWith_cons_cons, List.zipWith_cons_cons, List.zipWith_cons_cons,
                List.zipWith_cons_cons, ih, Nat.max_right_comm]

/-- What two points widen the columns to. -/
theorem bind_widen_eq_some_iff {widths found : List Nat} {first second : DataPoint F} :
    (widen widths first).bind (widen · second) = some found ↔
      ∃ h h', first.asHistogram = some h ∧ second.asHistogram = some h' ∧
        h.buckets.length = widths.length ∧ h'.buckets.length = widths.length ∧
        List.zipWith max (List.zipWith max widths h.widths) h'.widths = found := by
  rw [Option.bind_eq_some_iff]
  constructor
  · rintro ⟨middle, hmiddle, hfound⟩
    obtain ⟨h', hsecond, hlength', hfound⟩ := widen_eq_some_iff.mp hfound
    rw [length_of_widen hmiddle] at hlength'
    obtain ⟨h, hfirst, hlength, rfl⟩ := widen_eq_some_iff.mp hmiddle
    exact ⟨h, h', hfirst, hsecond, hlength, hlength', hfound⟩
  · rintro ⟨h, h', hfirst, hsecond, hlength, hlength', hfound⟩
    have hmiddle := widen_eq_some_iff.mpr ⟨h, hfirst, hlength, rfl⟩
    refine ⟨_, hmiddle, widen_eq_some_iff.mpr ⟨h', hsecond, ?_, hfound⟩⟩
    exact hlength'.trans (length_of_widen hmiddle).symm

/-- Two points widen the columns in either order. -/
theorem widen_right_comm (widths : List Nat) (first second : DataPoint F) :
    (widen widths first).bind (widen · second) = (widen widths second).bind (widen · first) := by
  ext found
  rw [bind_widen_eq_some_iff, bind_widen_eq_some_iff]
  constructor
  all_goals
    rintro ⟨h, h', hfirst, hsecond, hlength, hlength', rfl⟩
    exact ⟨h', h, hsecond, hfirst, hlength', hlength, zipWith_max_right_comm _ _ _⟩

/-- All points that the columns were widened by are histograms with a bucket for each. -/
theorem histogram_of_foldlM_widen {dataPoints : List (DataPoint F)} {widths found : List Nat}
    (h : dataPoints.foldlM widen widths = some found) {dp : DataPoint F} (hdp : dp ∈ dataPoints) :
    ∃ histogram, dp.asHistogram = some histogram ∧ histogram.buckets.length = widths.length := by
  induction dataPoints generalizing widths with
  | nil => simp at hdp
  | cons first rest ih =>
      rw [List.foldlM_cons] at h
      obtain ⟨middle, hmiddle, hrest⟩ := Option.bind_eq_some_iff.mp h
      rcases List.mem_cons.mp hdp with rfl | hdp
      · obtain ⟨histogram, hhistogram, hlength, _⟩ := widen_eq_some_iff.mp hmiddle
        exact ⟨histogram, hhistogram, hlength⟩
      · obtain ⟨histogram, hhistogram, hlength⟩ := ih hrest hdp
        exact ⟨histogram, hhistogram, hlength.trans (length_of_widen hmiddle)⟩

/-- The number of columns need not be that of the first point: any other leads to none. -/
theorem histogramColumnWidths_eq_some_iff {dataPoints : List (DataPoint F)} {widths : List Nat} :
    histogramColumnWidths dataPoints = some widths ↔
      dataPoints ≠ [] ∧ ∃ n, dataPoints.foldlM widen (List.replicate n 0) = some widths := by
  cases dataPoints with
  | nil => simp [histogramColumnWidths]
  | cons first rest =>
      rw [histogramColumnWidths, List.head?_cons, Option.bind_some]
      constructor
      · intro h
        cases hfirst : first.asHistogram with
        | none => simp [hfirst] at h
        | some histogram =>
            rw [hfirst] at h
            exact ⟨List.cons_ne_nil _ _, _, h⟩
      · rintro ⟨_, n, h⟩
        obtain ⟨histogram, hfirst, hlength⟩ := histogram_of_foldlM_widen h List.mem_cons_self
        rw [List.length_replicate] at hlength
        obtain rfl := hlength
        rw [hfirst]
        exact h

/-- Which point is the first makes no difference. -/
theorem histogramColumnWidths_perm {dataPoints others : List (DataPoint F)}
    (hperm : dataPoints.Perm others) :
    histogramColumnWidths dataPoints = histogramColumnWidths others := by
  have hempty : dataPoints ≠ [] ↔ others ≠ [] := by
    rw [← List.length_pos_iff, ← List.length_pos_iff, hperm.length_eq]
  ext widths
  rw [histogramColumnWidths_eq_some_iff, histogramColumnWidths_eq_some_iff, hempty]
  simp only [foldlM_perm widen_right_comm hperm]

end Metric

/-! ## Segments -/

omit [Formats F] in
theorem colon_mem_renderTime (time : SystemTime) : ':' ∈ renderTime time := by
  rw [renderTime]
  split
  · decide
  · simp

omit [Formats F] in
/-- The time column with a time is not the blank one. -/
theorem timeText_ne_blank (time : SystemTime) :
    timeText time ≠ List.replicate continuationIndent ' ' := by
  intro hblank
  have hcolon : ':' ∈ timeText time :=
    List.mem_append_left _ (List.mem_append_right _ (colon_mem_renderTime time))
  rw [hblank] at hcolon
  exact absurd (List.eq_of_mem_replicate hcolon) (by decide)

omit [Formats F] in
theorem length_padded {width n : Nat} (hn : n < 10 ^ width) (hwidth : 0 < width) :
    (padded width n).length = width := by
  have hdigits := (Nat.length_toDigits_le_iff (by decide) hwidth).mpr hn
  rw [padded, List.length_leftpad, Nat.max_eq_left hdigits]

omit [Formats F] in
theorem length_renderTime (time : SystemTime) : (renderTime time).length = 12 := by
  rw [renderTime]
  split
  · rfl
  · have hhour : time.toNat / 10 ^ 9 % 86400 / 3600 < 10 ^ 2 := by omega
    have hminute : time.toNat / 10 ^ 9 % 86400 / 60 % 60 < 10 ^ 2 := by omega
    have hsecond : time.toNat / 10 ^ 9 % 86400 % 60 < 10 ^ 2 := by omega
    have hms : time.toNat % 10 ^ 9 / 10 ^ 6 < 10 ^ 3 := by omega
    simp only [List.length_append, List.length_cons, length_padded hhour (by decide),
      length_padded hminute (by decide), length_padded hsecond (by decide),
      length_padded hms (by decide)]

omit [Formats F] in
/-- The blanks take the room of a time. -/
theorem length_timeText (time : SystemTime) : (timeText time).length = continuationIndent := by
  rw [timeText, List.length_append, List.length_append, length_renderTime]
  rfl

/-- The line of a point, with its time if it is the first of its time. -/
def DataPoint.segment (widths : Option (List Nat)) (first : Bool) (dp : DataPoint F) : Text :=
  '\n' :: (if first then timeText dp.time else List.replicate continuationIndent ' ') ++
    attrsCol dp.attributes ++ valueCol widths dp.value

/-- The time column of a segment. -/
def timeColumn (segment : Text) : Text := (segment.drop 1).take continuationIndent

/-- A segment carries its time if it is told to, and only then. -/
theorem timeColumn_segment_eq_iff {widths : Option (List Nat)} {first : Bool} {dp : DataPoint F} :
    timeColumn (dp.segment widths first) = timeText dp.time ↔ first = true := by
  have hcolumn : timeColumn (dp.segment widths first) =
      if first then timeText dp.time else List.replicate continuationIndent ' ' := by
    rw [timeColumn, DataPoint.segment, List.cons_append, List.cons_append, List.drop_one,
      List.tail_cons, List.append_assoc]
    apply List.take_left'
    cases first with
    | true => exact length_timeText dp.time
    | false => exact List.length_replicate
  rw [hcolumn]
  cases first with
  | true => simp
  | false => simpa using (timeText_ne_blank dp.time).symm

namespace Metric

/-- The loop of `render` shows a time if the line before has another one. -/
theorem renderPoints_eq_writeGroups (widths : Option (List Nat)) (lastTime : Option SystemTime)
    (dataPoints : List (DataPoint F)) :
    renderPoints widths lastTime dataPoints =
      writeGroups DataPoint.time (DataPoint.segment widths) lastTime dataPoints := by
  induction dataPoints generalizing lastTime with
  | nil => rfl
  | cons dp rest ih =>
      have hcol : timeCol lastTime dp.time =
          if decide (lastTime ≠ some dp.time) then timeText dp.time
          else List.replicate continuationIndent ' ' := by
        rw [timeCol]
        by_cases hlast : lastTime = some dp.time
        · simp [hlast]
        · simp [hlast]
      rw [renderPoints, writeGroups, DataPoint.segment, ih, hcol]

/-- The segment of a point, given the points before it. -/
def shown (widths : Option (List Nat)) (pair : List (DataPoint F) × DataPoint F) : Text :=
  pair.2.segment widths (decide (∀ earlier ∈ pair.1, earlier.time ≠ pair.2.time))

section Order

variable {R : Type} [LinearOrder R] [OrderedFloat F R] {m : Metric F}

omit [Formats F] in
/-- In the order of the points no time is followed by an earlier one. -/
theorem pairwise_time_sortedPoints (m : Metric F) :
    m.sortedPoints.Pairwise fun first second => first.time ≤ second.time := by
  apply (pairwise_sortOn DataPoint.key m.dataPoints).imp
  intro first second hle
  rcases Prod.Lex.toLex_le_toLex.mp hle with hlt | ⟨heq, _⟩
  · exact hlt.le
  · exact heq.le

/-- What is rendered is the heading and a segment for each point. -/
theorem render_eq_flatMap_shown (m : Metric F) :
    m.render =
      m.heading ++
        (withEarlier m.sortedPoints).flatMap (shown (histogramColumnWidths m.dataPoints)) := by
  rw [render, renderPoints_eq_writeGroups, writeGroups_of_sorted (pairwise_time_sortedPoints m)]
  rfl

/-- The points in another order. -/
def reordered (m : Metric F) (others : List (DataPoint F)) : Metric F :=
  { m with dataPoints := others }

theorem render_reordered (hkeys : (m.dataPoints.map DataPoint.key).Nodup)
    {others : List (DataPoint F)} (hperm : m.dataPoints.Perm others) :
    (m.reordered others).render = m.render := by
  have hsorted : (m.reordered others).sortedPoints = m.sortedPoints :=
    sortOn_eq_of_nodup hkeys hperm
  have hwidths := histogramColumnWidths_perm hperm
  rw [render, render, hsorted, hwidths]
  rfl

/-- Rendering does not depend on the order of the points: it shows the heading, and then a
segment for each point in the order of times and attributes, with the time in the first of
each time and in no other. -/
theorem render_by_time_and_attributes (hkeys : (m.dataPoints.map DataPoint.key).Nodup) :
    (∀ others, m.dataPoints.Perm others → (m.reordered others).render = m.render) ∧
    m.sortedPoints.Perm m.dataPoints ∧
    (m.sortedPoints.Pairwise fun first second => first.key < second.key) ∧
    m.render =
      m.heading ++
        (withEarlier m.sortedPoints).flatMap (shown (histogramColumnWidths m.dataPoints)) ∧
    ∀ pair ∈ withEarlier m.sortedPoints,
      timeColumn (shown (histogramColumnWidths m.dataPoints) pair) = timeText pair.2.time ↔
        ∀ earlier ∈ pair.1, earlier.time ≠ pair.2.time := by
  refine ⟨fun _ => render_reordered hkeys, perm_sortOn _ _, pairwise_lt_sortOn hkeys,
    render_eq_flatMap_shown m, fun pair _ => ?_⟩
  rw [shown, timeColumn_segment_eq_iff, decide_eq_true_iff]

end Order

/-- A number and a histogram of one time, after a number from before the epoch. -/
theorem render_by_time_and_attributes_mixed :
    let m : Metric WholeFloat :=
      { id := { name := "requests", description := "", unit := "ms" }, kind := .counter,
        temporality := .delta,
        dataPoints :=
          [{ attributes := [⟨"route", some (.string "a")⟩], startTime := 0, time := 2000000000,
             value := .number (.whole 5) },
           { attributes := [], startTime := 0, time := 2000000000,
             value := .histogram
              { count := 3, sum := .whole 9, min := some (.whole 1), max := none,
                buckets := [⟨some (.whole 10), 3⟩, ⟨none, 0⟩] } },
           { attributes := [], startTime := 0, time := -1, value := .number (.whole 7) }] }
    (m.reordered m.dataPoints.reverse).render = m.render := by
  intro m
  have hkeys : (m.dataPoints.map DataPoint.key).Nodup := by decide
  have hperm : m.dataPoints.Perm m.dataPoints.reverse := (List.reverse_perm _).symm
  exact (render_by_time_and_attributes hkeys).1 _ hperm

end Metric

end Ohnotel.Console
