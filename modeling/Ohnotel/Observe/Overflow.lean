/-
# Observing in a build with overflow checks

An observer in delta mode takes its differences with the operator `-`.  In a build with
overflow checks the operator panics where a difference does not fit, in the middle of the
visit: the value that was read is remembered, nothing is pushed for it, and no later entry
is reached.  The visit holds the lock of the canonical table for writing, so the lock is
poisoned, and whoever takes it from then on panics.

The counter of the observations is checked as well, but after the visit.
-/

import Ohnotel.Atomic.Float
import Ohnotel.Observe.Stamps

namespace Ohnotel

open Foundation Atomic

/-! ## Differences that fit -/

/-- Subtraction, and when it does not overflow. -/
class CheckedSub (V : Type) extends Sub V where
  checkedSub : V → V → Option V
  eq_sub {first second difference : V} : checkedSub first second = some difference →
    difference = first - second

instance : CheckedSub UInt64 where
  checkedSub first second := if second ≤ first then some (first - second) else none
  eq_sub h := (Option.some.inj (Option.ite_none_right_eq_some.mp h).2).symm

instance : CheckedSub Int64 where
  checkedSub first second :=
    if Int64.minValue.toInt ≤ first.toInt - second.toInt ∧
        first.toInt - second.toInt ≤ Int64.maxValue.toInt then
      some (first - second)
    else none
  eq_sub h := (Option.some.inj (Option.ite_none_right_eq_some.mp h).2).symm

/-- Floats do not overflow. -/
instance : CheckedSub F64 where
  sub first second := ⟨(Float.ofBits first.bits - Float.ofBits second.bits).toBits⟩
  checkedSub first second :=
    some ⟨(Float.ofBits first.bits - Float.ofBits second.bits).toBits⟩
  eq_sub h := (Option.some.inj h).symm

/-- Of a snapshot only the sum can overflow: the counts saturate. -/
instance {T : Type} [CheckedSub T] : CheckedSub (Snapshot T) where
  checkedSub first second :=
    (CheckedSub.checkedSub first.sum second.sum).map fun sum => { first - second with sum := sum }
  eq_sub h := by
    obtain ⟨sum, hsum, rfl⟩ := Option.map_eq_some_iff.mp h
    rw [CheckedSub.eq_sub hsum]
    rfl

section Subtract

variable {V : Type} [CheckedSub V]

/-- The operator `-`; none if it panics. -/
def subtract (overflowChecks : Bool) (first second : V) : Option V :=
  if overflowChecks then CheckedSub.checkedSub first second else some (first - second)

theorem eq_sub_of_subtract {overflowChecks : Bool} {first second difference : V}
    (h : subtract overflowChecks first second = some difference) : difference = first - second := by
  cases overflowChecks with
  | true => exact CheckedSub.eq_sub h
  | false => exact (Option.some.inj h).symm

variable [BEq V] [PartialOrd V]

/-- Whether the difference to the value remembered can be taken. -/
def DifferenceFits (overflowChecks : Bool) (last : Option V) (current : V) : Prop :=
  ∀ prev ∈ last, (prev == current) = false → PartialOrd.lt prev current = true →
    (subtract overflowChecks current prev).isSome = true

theorem differenceFits_unchecked (last : Option V) (current : V) :
    DifferenceFits false last current := fun _ _ _ _ => rfl

end Subtract

/-- A count that grew has a difference. -/
theorem differenceFits_uint64 (overflowChecks : Bool) (last : Option UInt64) (current : UInt64) :
    DifferenceFits overflowChecks last current := by
  intro prev _ _ hlt
  have hcompare : compare prev current = .lt := by
    simpa [PartialOrd.lt, PartialOrd.partialCmp] using hlt
  have hless : prev < current := compareOfLessAndEq_eq_lt.mp hcompare
  cases overflowChecks with
  | true => simp [subtract, CheckedSub.checkedSub, UInt64.le_of_lt hless]
  | false => rfl

theorem differenceFits_f64 [BEq F64] (overflowChecks : Bool) (last : Option F64) (current : F64) :
    DifferenceFits overflowChecks last current := by
  intro prev _ _ _
  cases overflowChecks with
  | true => rfl
  | false => rfl

namespace SyncObserver

/-! ## An observation that may panic -/

/-- An observer after a call, and whether the call panicked. -/
structure Attempt (K V : Type) where
  observer : SyncObserver K V
  panicked : Bool

variable {K A T V : Type}

/-- The value an observer remembers for an attribute list. -/
def remembered (o : SyncObserver K V) (attrs : List K) : Option V :=
  o.lastValues.bind fun lastValues => lastValues attrs

theorem remembered_eq_slot (o : SyncObserver K V) (attrs : List K) :
    o.remembered attrs = (o.slot attrs).last.join := by
  cases hlast : o.lastValues <;> simp [remembered, slot, hlast]

/-- `self.seq += 1`. -/
def tryCount (overflowChecks : Bool) (o : SyncObserver K V) : Attempt K V :=
  if overflowChecks ∧ o.seq + 1 = 0 then ⟨o, true⟩ else ⟨{ o with seq := o.seq + 1 }, false⟩

theorem panicked_tryCount {overflowChecks : Bool} {o : SyncObserver K V} :
    (tryCount overflowChecks o).panicked = false ↔ ¬ (overflowChecks ∧ o.seq + 1 = 0) := by
  rw [tryCount]
  split
  · rename_i hoverflows
    simp [hoverflows]
  · rename_i hfits
    simp only [hfits, not_false_iff]

theorem labels_tryCount (overflowChecks : Bool) (o : SyncObserver K V) :
    (tryCount overflowChecks o).observer.labels = o.labels := by
  rw [tryCount]
  split <;> rfl

theorem observer_tryCount {overflowChecks : Bool} {o : SyncObserver K V}
    (h : (tryCount overflowChecks o).panicked = false) :
    (tryCount overflowChecks o).observer = { o with seq := o.seq + 1 } := by
  rw [tryCount] at h ⊢
  split at h
  · cases h
  · rename_i hfits
    rw [if_neg hfits]

variable [LinearOrder K] [Record A T V] [BEq V] [PartialOrd V] [CheckedSub V]

/-- The callback that `observe_impl` passes to `visit_bucket`.  A difference that overflows
does so after the value read has replaced the one before. -/
def tryObserveEntry (overflowChecks : Bool) (ts : SystemTime) (o : SyncObserver K V)
    (e : CanonicalEntry K) (cell : A) : Attempt K V :=
  let current := Record.current cell
  match o.lastValues with
  | none => ⟨o.push ts e.attrs current, false⟩
  | some lastValues =>
      let replaced :=
        { o with lastValues := some (Function.update lastValues e.attrs (some current)) }
      match lastValues e.attrs with
      | none => ⟨replaced.push ts e.attrs current, false⟩
      | some prev =>
          if prev == current then ⟨o, false⟩
          else if PartialOrd.lt prev current then
            match subtract overflowChecks current prev with
            | some difference => ⟨replaced.push ts e.attrs difference, false⟩
            | none => ⟨replaced, true⟩
          else ⟨replaced.push ts e.attrs current, false⟩

/-- The same for an entry of a visit.  A panic ends the visit. -/
def tryVisitEntry (overflowChecks : Bool) (ts : SystemTime) (attempt : Attempt K V)
    (e : CanonicalEntry K) (cell : A) : Bool × Attempt K V :=
  (true, if attempt.panicked then attempt
    else tryObserveEntry overflowChecks ts attempt.observer e cell)

theorem panicked_tryObserveEntry {overflowChecks : Bool} (ts : SystemTime)
    {o : SyncObserver K V} {e : CanonicalEntry K} {cell : A} :
    (tryObserveEntry overflowChecks ts o e cell).panicked = false ↔
      DifferenceFits overflowChecks (o.remembered e.attrs) (Record.current cell) := by
  rw [tryObserveEntry, remembered]
  cases hlast : o.lastValues with
  | none => simp [DifferenceFits]
  | some lastValues =>
      cases hprev : lastValues e.attrs with
      | none => simp [DifferenceFits, hprev]
      | some prev =>
          simp only [DifferenceFits, Option.bind_some, hprev, Option.mem_some_iff, forall_eq']
          by_cases hsame : (prev == Record.current cell) = true
          · simp [hsame]
          · by_cases hless : PartialOrd.lt prev (Record.current cell) = true
            · cases hdifference : subtract overflowChecks (Record.current cell) prev <;>
                simp [hsame, hless]
            · simp [hsame, hless]

/-- The callback does what it does without overflow checks, unless it panics. -/
theorem observer_tryObserveEntry {overflowChecks : Bool} {ts : SystemTime}
    {o : SyncObserver K V} {e : CanonicalEntry K} {cell : A}
    (h : (tryObserveEntry overflowChecks ts o e cell).panicked = false) :
    (tryObserveEntry overflowChecks ts o e cell).observer = (observeEntry ts o e cell).2 := by
  rw [tryObserveEntry, observeEntry] at *
  cases hlast : o.lastValues with
  | none => rfl
  | some lastValues =>
      cases hprev : lastValues e.attrs with
      | none => simp only [hprev]
      | some prev =>
          simp only [hlast, hprev] at h ⊢
          by_cases hsame : (prev == Record.current cell) = true
          · simp only [hsame, if_true]
          · by_cases hless : PartialOrd.lt prev (Record.current cell) = true
            · cases hdifference : subtract overflowChecks (Record.current cell) prev with
              | none => simp [hsame, hless, hdifference] at h
              | some difference =>
                  rw [eq_sub_of_subtract hdifference]
                  simp [hsame, hless]
            · simp [hsame, hless]

/-- Whatever comes of an entry, the observer keeps its labels and its count. -/
theorem labels_tryObserveEntry (overflowChecks : Bool) (ts : SystemTime) (o : SyncObserver K V)
    (e : CanonicalEntry K) (cell : A) :
    (tryObserveEntry overflowChecks ts o e cell).observer.labels = o.labels ∧
      (tryObserveEntry overflowChecks ts o e cell).observer.seq = o.seq := by
  rw [tryObserveEntry]
  cases o.lastValues with
  | none => exact ⟨rfl, rfl⟩
  | some lastValues =>
      dsimp only
      split
      · exact ⟨rfl, rfl⟩
      · split
        · exact ⟨rfl, rfl⟩
        · split
          · split <;> exact ⟨rfl, rfl⟩
          · exact ⟨rfl, rfl⟩

/-! ## The entries of a visit -/

/-- Whether every difference of an observation can be taken. -/
def DifferencesFit (overflowChecks : Bool) (m : BucketMap K A) (o : SyncObserver K V) : Prop :=
  ∀ e ∈ m.walkedEntries, DifferenceFits overflowChecks (o.remembered e.attrs)
    (Record.current (m.cells e.bucket))

section Walk

variable (overflowChecks : Bool) (ts : SystemTime) (cells : BucketRef → A)

/-- The walk of a visit over entries. -/
def tryWalk (entries : List (CanonicalEntry K)) (attempt : Attempt K V) : Attempt K V :=
  entries.foldl
    (fun attempt e => (tryVisitEntry overflowChecks ts attempt e (cells e.bucket)).2) attempt

variable {overflowChecks ts cells}

theorem tryWalk_of_panicked {attempt : Attempt K V} (h : attempt.panicked = true)
    (entries : List (CanonicalEntry K)) :
    tryWalk overflowChecks ts cells entries attempt = attempt := by
  induction entries with
  | nil => rfl
  | cons e rest ih =>
      rw [tryWalk, List.foldl_cons, tryVisitEntry, if_pos h]
      exact ih

theorem tryWalk_cons (e : CanonicalEntry K) (rest : List (CanonicalEntry K))
    (o : SyncObserver K V) :
    tryWalk overflowChecks ts cells (e :: rest) ⟨o, false⟩ =
      tryWalk overflowChecks ts cells rest
        (tryObserveEntry overflowChecks ts o e (cells e.bucket)) := rfl

variable (overflowChecks ts cells) in
theorem labels_tryWalk (entries : List (CanonicalEntry K)) (o : SyncObserver K V) :
    (tryWalk overflowChecks ts cells entries ⟨o, false⟩).observer.labels = o.labels ∧
      (tryWalk overflowChecks ts cells entries ⟨o, false⟩).observer.seq = o.seq := by
  induction entries generalizing o with
  | nil => exact ⟨rfl, rfl⟩
  | cons e rest ih =>
      obtain ⟨hlabels, hseq⟩ :=
        labels_tryObserveEntry overflowChecks ts o e (cells e.bucket)
      rw [tryWalk_cons]
      match hattempt : tryObserveEntry overflowChecks ts o e (cells e.bucket) with
      | ⟨observer, true⟩ =>
          rw [hattempt] at hlabels hseq
          rw [tryWalk_of_panicked rfl]
          exact ⟨hlabels, hseq⟩
      | ⟨observer, false⟩ =>
          rw [hattempt] at hlabels hseq
          exact ⟨(ih observer).1.trans hlabels, (ih observer).2.trans hseq⟩

variable (ts) in
/-- A walk over entries of different lists goes through exactly if every difference to
what was remembered before it can be taken. -/
theorem panicked_tryWalk {entries : List (CanonicalEntry K)}
    (hnodup : (entries.map CanonicalEntry.attrs).Nodup) {o : SyncObserver K V} :
    (tryWalk overflowChecks ts cells entries ⟨o, false⟩).panicked = false ↔
      ∀ e ∈ entries, DifferenceFits overflowChecks (o.remembered e.attrs)
        (Record.current (cells e.bucket)) := by
  induction entries generalizing o with
  | nil => simp [tryWalk]
  | cons e rest ih =>
      rw [List.map_cons, List.nodup_cons] at hnodup
      rw [tryWalk_cons, List.forall_mem_cons, ← panicked_tryObserveEntry ts]
      match hattempt : tryObserveEntry overflowChecks ts o e (cells e.bucket) with
      | ⟨observer, true⟩ =>
          rw [tryWalk_of_panicked rfl]
          simp
      | ⟨observer, false⟩ =>
          have hobserver : observer = (observeEntry ts o e (cells e.bucket)).2 := by
            rw [← observer_tryObserveEntry (congrArg Attempt.panicked hattempt), hattempt]
          rw [ih hnodup.2]
          simp only [true_and]
          apply forall₂_congr
          intro other hother
          have hne : other.attrs ≠ e.attrs := fun heq =>
            hnodup.1 (heq ▸ List.mem_map_of_mem hother)
          rw [remembered_eq_slot, remembered_eq_slot, hobserver,
            slot_observeEntry_of_ne ts o e (cells e.bucket) hne]

theorem observer_tryWalk {entries : List (CanonicalEntry K)} {o : SyncObserver K V}
    (h : (tryWalk overflowChecks ts cells entries ⟨o, false⟩).panicked = false) :
    (tryWalk overflowChecks ts cells entries ⟨o, false⟩).observer =
      entries.foldl (fun o e => (observeEntry ts o e (cells e.bucket)).2) o := by
  induction entries generalizing o with
  | nil => rfl
  | cons e rest ih =>
      rw [tryWalk_cons] at h ⊢
      match hattempt : tryObserveEntry overflowChecks ts o e (cells e.bucket) with
      | ⟨observer, true⟩ =>
          rw [hattempt, tryWalk_of_panicked rfl] at h
          cases h
      | ⟨observer, false⟩ =>
          have hobserver := observer_tryObserveEntry (congrArg Attempt.panicked hattempt)
          rw [hattempt] at h hobserver
          rw [ih h, List.foldl_cons, ← hobserver]

end Walk

end SyncObserver

/-! ## A map behind its lock -/

/-- A map that keeps its invariant. -/
abbrev BucketMap.Sound {K A : Type} [LinearOrder K] (cfg : Config K A) : Type :=
  { m : BucketMap K A // BucketMap.Inv cfg Set.univ m }

/-- A map, and whether the lock of its canonical table is poisoned. -/
structure Guarded {K A : Type} [LinearOrder K] (cfg : Config K A) where
  buckets : BucketMap.Sound cfg
  poisoned : Bool

namespace SyncObserver

variable {K A T V : Type} [LinearOrder K] [Record A T V] [BEq V] [PartialOrd V] [CheckedSub V]

section Visit

variable (cfg : Config K A)

/-- The visit of an observation walks all entries, and leaves the map as it is. -/
theorem visitBucket_tryVisitEntry (overflowChecks : Bool) (ts : SystemTime) (m : BucketMap K A)
    (o : SyncObserver K V) :
    m.visitBucket cfg (tryVisitEntry overflowChecks ts) (⟨o, false⟩ : Attempt K V) =
      (m, tryWalk overflowChecks ts m.cells m.walkedEntries ⟨o, false⟩) :=
  BucketMap.visitBucket_eq_of_keeps cfg (fun _ _ _ => rfl) m (⟨o, false⟩ : Attempt K V)

theorem inv_tryVisitEntry (overflowChecks : Bool) (ts : SystemTime) (m : BucketMap.Sound cfg)
    (o : SyncObserver K V) :
    BucketMap.Inv cfg Set.univ
      (m.1.visitBucket cfg (tryVisitEntry overflowChecks ts) ⟨o, false⟩).1 := by
  rw [visitBucket_tryVisitEntry]
  exact m.2

end Visit

variable [IsInitial V] {cfg : Config K A}

/-- `SyncObserver::observe_impl`. -/
def tryObserve (overflowChecks : Bool) (ts : SystemTime) (s : Guarded cfg)
    (o : SyncObserver K V) : Guarded cfg × Attempt K V :=
  if s.poisoned then (s, ⟨o, true⟩)
  else if o.observeMode = .destructive then
    let observed := o.observeDestructive ts s.buckets.1
    ({ s with buckets := ⟨observed.1, (BucketMap.take_spec s.buckets.2).1.inv⟩ },
      tryCount overflowChecks { observed.2 with seq := o.seq })
  else
    let visited := s.buckets.1.visitBucket cfg (tryVisitEntry overflowChecks ts) ⟨o, false⟩
    have hinv := inv_tryVisitEntry cfg overflowChecks ts s.buckets o
    let left := { s with buckets := ⟨visited.1, hinv⟩ }
    if visited.2.panicked then ({ left with poisoned := true }, visited.2)
    else (left, tryCount overflowChecks visited.2.observer)

variable {overflowChecks : Bool} {ts : SystemTime} {s : Guarded cfg} {o : SyncObserver K V}

theorem tryObserve_of_poisoned (h : s.poisoned = true) :
    o.tryObserve overflowChecks ts s = (s, ⟨o, true⟩) := if_pos h

/-- The observation of an observer that does not drain. -/
theorem tryObserve_of_keeps (hpoisoned : s.poisoned = false)
    (hmode : o.observeMode ≠ .destructive) :
    o.tryObserve overflowChecks ts s =
      let walked := tryWalk overflowChecks ts s.buckets.1.cells s.buckets.1.walkedEntries ⟨o, false⟩
      if walked.panicked then ({ s with poisoned := true }, walked)
      else (s, tryCount overflowChecks walked.observer) := by
  rw [tryObserve, if_neg (by simp [hpoisoned]), if_neg hmode]
  simp only [visitBucket_tryVisitEntry]

theorem tryObserve_of_fit (hpoisoned : s.poisoned = false)
    (hmode : o.observeMode ≠ .destructive)
    (hfit : DifferencesFit overflowChecks s.buckets.1 o) :
    o.tryObserve overflowChecks ts s =
      (s, tryCount overflowChecks (s.buckets.1.walkedEntries.foldl
        (fun o e => (observeEntry ts o e (s.buckets.1.cells e.bucket)).2) o)) := by
  have hwalked := (panicked_tryWalk ts (BucketMap.nodup_walkedEntries s.buckets.2)).mpr hfit
  rw [tryObserve_of_keeps hpoisoned hmode, ← observer_tryWalk hwalked]
  exact if_neg (by simp [hwalked])

variable (ts) in
theorem tryObserve_of_not_fit (hpoisoned : s.poisoned = false)
    (hmode : o.observeMode ≠ .destructive)
    (hfit : ¬ DifferencesFit overflowChecks s.buckets.1 o) :
    (o.tryObserve overflowChecks ts s).1 = { s with poisoned := true } ∧
      (o.tryObserve overflowChecks ts s).2.panicked = true := by
  have hwalked : (tryWalk overflowChecks ts s.buckets.1.cells s.buckets.1.walkedEntries
      ⟨o, false⟩).panicked = true := by
    rw [← Bool.not_eq_false,
      panicked_tryWalk ts (BucketMap.nodup_walkedEntries s.buckets.2)]
    exact hfit
  rw [tryObserve_of_keeps hpoisoned hmode]
  simp only [if_pos hwalked]
  exact ⟨trivial, hwalked⟩

variable (overflowChecks ts s) in
/-- Whatever comes of it, an observation that does not drain leaves the map as it is, and
the observer keeps its labels. -/
theorem tryObserve_keeps (hmode : o.observeMode ≠ .destructive) :
    (o.tryObserve overflowChecks ts s).1.buckets = s.buckets ∧
      (o.tryObserve overflowChecks ts s).2.observer.labels = o.labels := by
  cases hpoisoned : s.poisoned with
  | true =>
      rw [tryObserve_of_poisoned hpoisoned]
      exact ⟨rfl, rfl⟩
  | false =>
      have hlabels := (labels_tryWalk overflowChecks ts s.buckets.1.cells
        s.buckets.1.walkedEntries o).1
      rw [tryObserve_of_keeps hpoisoned hmode]
      dsimp only
      split
      · exact ⟨rfl, hlabels⟩
      · exact ⟨rfl, (labels_tryCount overflowChecks _).trans hlabels⟩

/-- An observation that does not panic is the observation of a build without checks. -/
theorem tryObserve_of_not_panicked
    (h : (o.tryObserve overflowChecks ts s).2.panicked = false) :
    (o.tryObserve overflowChecks ts s).1.buckets.1 = (o.observe cfg ts s.buckets.1).1 ∧
      (o.tryObserve overflowChecks ts s).1.poisoned = s.poisoned ∧
      (o.tryObserve overflowChecks ts s).2.observer = (o.observe cfg ts s.buckets.1).2 := by
  cases hpoisoned : s.poisoned with
  | true =>
      rw [tryObserve_of_poisoned hpoisoned] at h
      cases h
  | false =>
      by_cases hmode : o.observeMode = .destructive
      · have htried : o.tryObserve overflowChecks ts s = _ :=
          (if_neg (by simp [hpoisoned])).trans (if_pos hmode)
        have hseq : (o.observeDestructive ts s.buckets.1).2.seq = o.seq + 1 :=
          (observed_observeDestructive (BucketMap.Walkable.ofInv s.buckets.2) o).seq
        rw [htried] at h ⊢
        rw [observe, if_pos hmode, observer_tryCount h]
        exact ⟨rfl, hpoisoned, by rw [← hseq]⟩
      · by_cases hfit : DifferencesFit overflowChecks s.buckets.1 o
        · have hvisit := BucketMap.visitBucket_eq_of_keeps cfg (observeEntry_keeps ts)
            s.buckets.1 o
          rw [tryObserve_of_fit hpoisoned hmode hfit] at h ⊢
          rw [observe, if_neg hmode, observer_tryCount h]
          simp only [hvisit]
          exact ⟨trivial, hpoisoned, trivial⟩
        · rw [(tryObserve_of_not_fit ts hpoisoned hmode hfit).2] at h
          cases h

/-- Without checks nothing panics. -/
theorem panicked_tryObserve_unchecked (hpoisoned : s.poisoned = false) :
    (o.tryObserve false ts s).2.panicked = false := by
  have hcounted : ∀ o : SyncObserver K V, (tryCount false o).panicked = false :=
    fun o => panicked_tryCount.mpr (by simp)
  by_cases hmode : o.observeMode = .destructive
  · rw [tryObserve, if_neg (by simp [hpoisoned]), if_pos hmode]
    exact hcounted _
  · rw [tryObserve_of_fit hpoisoned hmode fun e _ => differenceFits_unchecked _ _]
    exact hcounted _

/-- An observer that was just reset has nothing to subtract from, and counts from zero. -/
theorem panicked_tryObserve_reset (hpoisoned : s.poisoned = false) (startTime : SystemTime) :
    ((o.reset startTime).tryObserve overflowChecks ts s).2.panicked = false := by
  have hcounted : ∀ o : SyncObserver K V, o.seq = 0 →
      (tryCount overflowChecks o).panicked = false :=
    fun o hseq => panicked_tryCount.mpr (by simp [hseq])
  have hforgotten : ∀ attrs, (o.reset startTime).remembered attrs = none := by
    intro attrs
    cases hlast : o.lastValues <;> simp [remembered, reset, hlast]
  by_cases hmode : (o.reset startTime).observeMode = .destructive
  · rw [tryObserve, if_neg (by simp [hpoisoned]), if_pos hmode]
    exact hcounted _ rfl
  · have hfit : DifferencesFit overflowChecks s.buckets.1 (o.reset startTime) := by
      intro e _ prev hprev
      rw [hforgotten] at hprev
      cases hprev
    have hwalked :=
      (panicked_tryWalk ts (BucketMap.nodup_walkedEntries s.buckets.2)).mpr hfit
    have hseq := (labels_tryWalk overflowChecks ts s.buckets.1.cells s.buckets.1.walkedEntries
      (o.reset startTime)).2
    rw [tryObserve_of_keeps hpoisoned hmode]
    simp only [hwalked, Bool.false_eq_true, if_false]
    exact hcounted _ hseq

end SyncObserver

end Ohnotel
