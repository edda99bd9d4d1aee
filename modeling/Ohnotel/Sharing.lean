/-
# Sharing a source

An application writes to a source and reads from it; observers observe it, are exported
and reset; Prometheus collectors scrape it.  An observer that does not drain the source,
and a collector, go through the same visit that can remove entries, but refuse none.  So
nobody else can tell whether they were there, unless one of them panics in its visit: then
whoever takes the lock of the canonical table afterwards panics too.
-/

import Ohnotel.AttributeOrder
import Ohnotel.Observe.Overflow
import Ohnotel.Prometheus.Scraping

namespace Ohnotel

open Foundation Atomic

variable {K A T V : Type}

/-! ## Calls to an observer -/

inductive ObserverCall
  | observe (ts : SystemTime)
  | exportSeries
  | reset (startTime : SystemTime)

/-- The source and the observer after a call, and what an export hands on; none if the
call panicked. -/
def SyncObserver.perform [LinearOrder K] [Record A T V] [BEq V] [PartialOrd V] [CheckedSub V]
    [IsInitial V] {cfg : Config K A} (overflowChecks : Bool) (s : Guarded cfg)
    (o : SyncObserver K V) :
    ObserverCall → (Guarded cfg × SyncObserver K V) × Option (Option (Series K V))
  | .observe ts =>
      let tried := o.tryObserve overflowChecks ts s
      ((tried.1, tried.2.observer), if tried.2.panicked then none else some none)
  | .exportSeries => ((s, o.take.1), some (some o.take.2))
  | .reset startTime => ((s, o.reset startTime), some none)

/-- An observer in direct or in delta mode. -/
abbrev NonDestructive (K V : Type) : Type :=
  { o : SyncObserver K V // o.observeMode ≠ .destructive }

/-- An observer that does not drain its source leaves the map as it is, and stays in its
mode. -/
theorem NonDestructive.perform_keeps [LinearOrder K] [Record A T V] [BEq V] [PartialOrd V]
    [CheckedSub V] [IsInitial V] {cfg : Config K A} (overflowChecks : Bool) (s : Guarded cfg)
    (o : NonDestructive K V) (call : ObserverCall) :
    (o.1.perform overflowChecks s call).1.1.buckets = s.buckets ∧
      (o.1.perform overflowChecks s call).1.2.observeMode ≠ .destructive := by
  cases call with
  | exportSeries => exact ⟨rfl, o.2⟩
  | reset startTime => exact ⟨rfl, o.2⟩
  | observe ts =>
      obtain ⟨hbuckets, hlabels⟩ := SyncObserver.tryObserve_keeps overflowChecks ts s o.2
      have hmode := congrArg SyncObserver.Labels.observeMode hlabels
      exact ⟨hbuckets, fun hdestructive => o.2 (hmode.symm.trans hdestructive)⟩

/-! ## Calls of an application -/

/-- Whether a call for an attribute list takes the lock of the canonical table: an alias is
answered without it. -/
def BucketMap.takesCanonical [LinearOrder K] (cfg : Config K A) (m : BucketMap K A)
    (attrs : List K) : Bool :=
  if attrs.isEmpty then false
  else if attrs.length = 1 ∨ attrs.IsChain (· ≤ ·) then true
  else (m.lookupDup cfg (AttrFingerprint.commutativeHash cfg.hasher attrs) attrs).isNone

/-- What an application can do with the map of its source, and what it gets back. -/
structure Application [LinearOrder K] (cfg : Config K A) : Type 1 where
  {Op Out : Type}
  takesCanonical : BucketMap.Sound cfg → Op → Bool
  exec : BucketMap.Sound cfg → Op → BucketMap.Sound cfg × Out

/-- A call of an application; none if it panicked.  The lock is taken before anything is
changed. -/
def Application.call [LinearOrder K] {cfg : Config K A} (app : Application cfg) (s : Guarded cfg)
    (op : app.Op) : Guarded cfg × Option app.Out :=
  if s.poisoned ∧ app.takesCanonical s.buckets op then (s, none)
  else
    let answer := app.exec s.buckets op
    ({ s with buckets := answer.1 }, some answer.2)

def ScalarOp.takesCanonical [LinearOrder K] (cfg : Config K A) (m : BucketMap K A) :
    ScalarOp K T → Bool
  | .add _ attrs | .sub _ attrs | .set _ attrs | .reset attrs => m.takesCanonical cfg attrs
  | .clear | .take | .visitBucket _ => true

def HistogramOp.takesCanonical [LinearOrder K] (cfg : Config K A) (m : BucketMap K A) :
    HistogramOp K T → Bool
  | .add _ attrs | .sub _ attrs | .takeBucket attrs => m.takesCanonical cfg attrs
  | .clear | .take | .visitBucket _ => true

/-- The application of a counter or a gauge: every operation but a visit, which can evict. -/
def Application.scalar [LinearOrder K] [Scalar A T] (cfg : Config K A) : Application cfg where
  Op := { op : ScalarOp K T // ∀ cb, op ≠ .visitBucket cb }
  Out := Ohnotel.Out K T
  takesCanonical m op := op.1.takesCanonical cfg m.1
  exec m op :=
    let performed := m.1.exec cfg op.1
    (⟨performed.1, BucketMap.inv_exec m.2 op.1 (fun _ _ => trivial) op.2⟩, performed.2)

/-- The application of a histogram. -/
def Application.histogram {C : Type} [LinearOrder K] [Measure T C] (cfg : Config K (Bucket T C)) :
    Application cfg where
  Op := { op : HistogramOp K T // ∀ cb, op ≠ .visitBucket cb }
  Out := HistogramOut K T
  takesCanonical m op := op.1.takesCanonical cfg m.1
  exec m op :=
    let performed := Histogram.exec cfg m.1 op.1
    (⟨performed.1, BucketMap.inv_execHistogram m.2 op.1 (fun _ _ => trivial) op.2⟩, performed.2)

/-! ## A source with everyone at it -/

/-- A map, the observer that is asked about, and others of the same source. -/
structure SharedSource [LinearOrder K] (cfg : Config K A) (V ι : Type) where
  source : Guarded cfg
  designated : SyncObserver K V
  others : ι → NonDestructive K V

namespace SharedSource

open Prometheus

variable {F ι : Type} [LinearOrder (KeyValue F)] {cfg : Config (KeyValue F) A}

/-- The source and the designated observer. -/
def core (s : SharedSource cfg V ι) : Guarded cfg × SyncObserver (KeyValue F) V :=
  (s.source, s.designated)

inductive Op (F V ι : Type) [LinearOrder (KeyValue F)] {cfg : Config (KeyValue F) A}
    (app : Application cfg) : Type
  | write (op : app.Op)
  | designated (call : ObserverCall)
  | other (i : ι) (call : ObserverCall)
  | scrape (into : V → NameIdentity → Except Error (DataPointValue F)) (id : NameIdentity)
      (kind : Kind)

inductive Out (F V : Type) [LinearOrder (KeyValue F)] {cfg : Config (KeyValue F) A}
    (app : Application cfg) : Type
  | returned (out : app.Out)
  | exported (series : Option (Series (KeyValue F) V))
  | scraped (found : Scrape F)

/-- The application and the observer that is asked about. -/
def Op.isOwn {app : Application cfg} : Op F V ι app → Bool
  | .write _ | .designated _ => true
  | .other _ _ | .scrape _ _ _ => false

variable [DecidableEq ι] [Record A T V] [BEq V] [PartialOrd V] [CheckedSub V] [IsInitial V]
  (overflowChecks : Bool) (app : Application cfg)

/-- Perform one operation; nothing is returned by one that panics. -/
def exec (s : SharedSource cfg V ι) : Op F V ι app → SharedSource cfg V ι × Option (Out F V app)
  | .write op =>
      let called := app.call s.source op
      ({ s with source := called.1 }, called.2.map .returned)
  | .designated call =>
      let performed := s.designated.perform overflowChecks s.source call
      ({ s with source := performed.1.1, designated := performed.1.2 }, performed.2.map .exported)
  | .other i call =>
      let performed := (s.others i).1.perform overflowChecks s.source call
      have hkeeps := (s.others i).perform_keeps overflowChecks s.source call
      ({ s with
          source := performed.1.1
          others := Function.update s.others i ⟨performed.1.2, hkeeps.2⟩ },
        performed.2.map .exported)
  | .scrape into id kind =>
      if s.source.poisoned then (s, none)
      else
        let visited := s.source.buckets.1.visitBucket cfg (scrapeEntry into id) ([], none)
        have hkeeps : visited.1 = s.source.buckets.1 := scrape_keeps into id cfg s.source.buckets.1
        ({ s with source := { s.source with buckets := ⟨visited.1, hkeeps ▸ s.source.buckets.2⟩ } },
          some (.scraped (scrape into id kind cfg s.source.buckets.1)))

/-- Whether an observer that is not asked about can take all its differences, if its
operation is an observation that finds the source usable. -/
def Fits (s : SharedSource cfg V ι) : Op F V ι app → Prop
  | .other i (.observe _) =>
      s.source.poisoned = false →
        SyncObserver.DifferencesFit overflowChecks s.source.buckets.1 (s.others i).1
  | _ => True

/-- Whether what the application gets back, what the designated observer exports, and what
is in the source and in the observer at the end are the same if the others are left out. -/
structure Unnoticed (s : SharedSource cfg V ι) (ops : List (Op F V ι app)) : Prop where
  buckets : (performAll (exec overflowChecks app) s ops).1.source.buckets =
    (performAll (exec overflowChecks app) s (ops.filter Op.isOwn)).1.source.buckets
  designated : (performAll (exec overflowChecks app) s ops).1.designated =
    (performAll (exec overflowChecks app) s (ops.filter Op.isOwn)).1.designated
  returned : returned Op.isOwn ops (performAll (exec overflowChecks app) s ops).2 =
    (performAll (exec overflowChecks app) s (ops.filter Op.isOwn)).2

variable {overflowChecks app}

/-- What an own operation does and returns is decided by the source and the designated
observer. -/
theorem exec_of_isOwn {op : Op F V ι app} (hown : op.isOwn = true) {s s' : SharedSource cfg V ι}
    (h : s.core = s'.core) :
    (exec overflowChecks app s op).1.core = (exec overflowChecks app s' op).1.core ∧
      (exec overflowChecks app s op).2 = (exec overflowChecks app s' op).2 := by
  obtain ⟨hsource, hdesignated⟩ := Prod.mk.inj h
  cases op with
  | write op => simp only [exec, core, hsource, hdesignated, and_self]
  | designated call => simp only [exec, core, hsource, hdesignated, and_self]
  | other i call => simp [Op.isOwn] at hown
  | scrape into id kind => simp [Op.isOwn] at hown

/-- The others leave the source alone, if their differences fit. -/
theorem exec_of_fits {op : Op F V ι app} (hother : op.isOwn = false) (s : SharedSource cfg V ι)
    (hfits : Fits overflowChecks app s op) : (exec overflowChecks app s op).1.core = s.core := by
  cases op with
  | write op => simp [Op.isOwn] at hother
  | designated call => simp [Op.isOwn] at hother
  | scrape into id kind =>
      cases hpoisoned : s.source.poisoned with
      | true => simp only [exec, hpoisoned, if_true]
      | false =>
          rw [exec, if_neg (by simp [hpoisoned])]
          simp only [core, scrape_keeps]
  | other i call =>
      cases call with
      | exportSeries => rfl
      | reset startTime => rfl
      | observe ts =>
          cases hpoisoned : s.source.poisoned with
          | true =>
              simp only [exec, core, SyncObserver.perform,
                SyncObserver.tryObserve_of_poisoned hpoisoned]
          | false =>
              simp only [exec, core, SyncObserver.perform,
                SyncObserver.tryObserve_of_fit hpoisoned (s.others i).2 (hfits hpoisoned)]

omit [DecidableEq ι] [IsInitial V] in
theorem fits_of_isOwn {op : Op F V ι app} (hown : op.isOwn = true) (s : SharedSource cfg V ι) :
    Fits overflowChecks app s op := by
  cases op with
  | write op => trivial
  | designated call => trivial
  | other i call => simp [Op.isOwn] at hown
  | scrape into id kind => simp [Op.isOwn] at hown

omit [DecidableEq ι] [IsInitial V] in
theorem fits_of_differenceFits
    (hfit : ∀ (last : Option V) (current : V), DifferenceFits overflowChecks last current)
    (s : SharedSource cfg V ι) (op : Op F V ι app) : Fits overflowChecks app s op := by
  cases op with
  | write op => trivial
  | designated call => trivial
  | scrape into id kind => trivial
  | other i call =>
      cases call with
      | observe ts => exact fun _ e _ => hfit _ _
      | exportSeries => trivial
      | reset startTime => trivial

variable {s : SharedSource cfg V ι} {ops : List (Op F V ι app)}

/-- Along a run whose differences fit, the others leave no trace. -/
theorem core_performAll_filter
    (halong : (performing (exec overflowChecks app)).Along (Fits overflowChecks app) s ops) :
    (performAll (exec overflowChecks app) s ops).1.core =
        (performAll (exec overflowChecks app) s (ops.filter Op.isOwn)).1.core ∧
      returned Op.isOwn ops (performAll (exec overflowChecks app) s ops).2 =
        (performAll (exec overflowChecks app) s (ops.filter Op.isOwn)).2 :=
  performAll_filter (fun _ hown _ _ => exec_of_isOwn hown)
    (fun _ hother s hfits => exec_of_fits hother s hfits) halong rfl

theorem unnoticed_of_along
    (halong : (performing (exec overflowChecks app)).Along (Fits overflowChecks app) s ops) :
    Unnoticed overflowChecks app s ops := by
  obtain ⟨hcore, hreturned⟩ := core_performAll_filter halong
  exact ⟨congrArg (fun core => core.1.buckets) hcore, congrArg Prod.snd hcore, hreturned⟩

theorem unnoticed_of_differenceFits
    (hfit : ∀ (last : Option V) (current : V), DifferenceFits overflowChecks last current)
    (s : SharedSource cfg V ι) (ops : List (Op F V ι app)) :
    Unnoticed overflowChecks app s ops :=
  unnoticed_of_along (StepFn.along_of_forall (fun op _ s => fits_of_differenceFits hfit s op) s)

/-- In a build without overflow checks nobody ever notices the others. -/
theorem readers_do_not_interfere (s : SharedSource cfg V ι) (ops : List (Op F V ι app)) :
    Unnoticed false app s ops :=
  unnoticed_of_differenceFits differenceFits_unchecked s ops

/-- Nor is anybody noticed at a counter of `u64` or of `f64`, however it is built. -/
theorem readers_do_not_interfere_uint64 {A T : Type} [Record A T UInt64]
    {cfg : Config (KeyValue F) A} {app : Application cfg} (s : SharedSource cfg UInt64 ι)
    (ops : List (Op F UInt64 ι app)) : Unnoticed overflowChecks app s ops :=
  unnoticed_of_differenceFits (differenceFits_uint64 overflowChecks) s ops

theorem readers_do_not_interfere_f64 {A T : Type} [Record A T F64] [BEq F64] [IsInitial F64]
    {cfg : Config (KeyValue F) A} {app : Application cfg} (s : SharedSource cfg F64 ι)
    (ops : List (Op F F64 ι app)) : Unnoticed overflowChecks app s ops :=
  unnoticed_of_differenceFits (differenceFits_f64 overflowChecks) s ops

/-! ## What a panic leaves behind -/

theorem poisoned_of_not_fits {op : Op F V ι app} (hfits : ¬ Fits overflowChecks app s op) :
    op.isOwn = false ∧ s.source.poisoned = false ∧
      (exec overflowChecks app s op).1.source.poisoned = true := by
  cases op with
  | write op => exact absurd trivial hfits
  | designated call => exact absurd trivial hfits
  | scrape into id kind => exact absurd trivial hfits
  | other i call =>
      cases call with
      | exportSeries => exact absurd trivial hfits
      | reset startTime => exact absurd trivial hfits
      | observe ts =>
          obtain ⟨hpoisoned, hdifferences⟩ := Classical.not_imp.mp hfits
          have hpanics := SyncObserver.tryObserve_of_not_fit ts hpoisoned (s.others i).2
            hdifferences
          exact ⟨rfl, hpoisoned, congrArg Guarded.poisoned hpanics.1⟩

/-- Calls that tell whether the lock is poisoned: once it is reset, the designated observer
has nothing to subtract from. -/
def probe : List (Op F V ι app) := [.designated (.reset 0), .designated (.observe 0)]

theorem performAll_probe (s : SharedSource cfg V ι) :
    (performAll (exec overflowChecks app) s probe).2 =
      [some (.exported none), if s.source.poisoned then none else some (.exported none)] := by
  cases hpoisoned : s.source.poisoned with
  | true =>
      simp [probe, performAll, exec, SyncObserver.perform,
        SyncObserver.tryObserve_of_poisoned hpoisoned]
  | false =>
      simp [probe, performAll, exec, SyncObserver.perform,
        SyncObserver.panicked_tryObserve_reset hpoisoned]

/-- After an observation that panics in its visit the probe panics, as it would not have
without it. -/
theorem fits_of_unnoticed {done : List (Op F V ι app)} {op : Op F V ι app}
    (halong : (performing (exec overflowChecks app)).Along (Fits overflowChecks app) s done)
    (hunnoticed : Unnoticed overflowChecks app s (done ++ op :: probe)) :
    Fits overflowChecks app (performAll (exec overflowChecks app) s done).1 op := by
  by_contra hfits
  obtain ⟨hother, hbefore, hafter⟩ := poisoned_of_not_fits hfits
  obtain ⟨hcore, hreturned⟩ := core_performAll_filter halong
  have hbefore' : (performAll (exec overflowChecks app) s
      (done.filter Op.isOwn)).1.source.poisoned = false :=
    (congrArg (fun core => core.1.poisoned) hcore).symm.trans hbefore
  have hown : (done ++ op :: probe).filter Op.isOwn = done.filter Op.isOwn ++ probe := by
    rw [List.filter_append, List.filter_cons_of_neg (by simp [hother])]
    rfl
  have hsame := hunnoticed.returned
  rw [hown, returned_performAll_append, hreturned, performAll_append] at hsame
  have hprobes := List.append_cancel_left hsame
  rw [performAll, returned, if_neg (by simp [hother]), performAll_probe, performAll_probe,
    hafter, hbefore'] at hprobes
  simp [returned, probe, Op.isOwn] at hprobes

/-- However the application and the designated observer go on from any point of a run,
they get back what they would without the others, and the source and the designated
observer hold what they would, if and only if every difference that an observer in delta
mode takes at a usable source fits. -/
theorem unnoticed_iff_along (overflowChecks : Bool) (app : Application cfg)
    (s : SharedSource cfg V ι) (ops : List (Op F V ι app)) :
    (∀ done, done <+: ops → ∀ rest : List (Op F V ι app), (∀ op ∈ rest, op.isOwn = true) →
        Unnoticed overflowChecks app s (done ++ rest)) ↔
      (performing (exec overflowChecks app)).Along (Fits overflowChecks app) s ops := by
  constructor
  · intro hunnoticed
    induction ops using List.reverseRecOn with
    | nil => trivial
    | append_singleton done op ih =>
        have halong := ih fun before hbefore => hunnoticed before
          (hbefore.trans (List.prefix_append done [op]))
        refine StepFn.along_concat.mpr ⟨halong, fun middle hmiddle => ?_⟩
        obtain rfl := Option.some.inj ((run_performing _ s done).symm.trans hmiddle)
        have hprobed := hunnoticed (done ++ [op]) List.prefix_rfl probe
          (by simp [probe, Op.isOwn])
        rw [List.append_assoc] at hprobed
        exact fits_of_unnoticed halong hprobed
  · intro halong done hdone rest hrest
    obtain ⟨later, rfl⟩ := hdone
    have hbefore := (StepFn.along_append.mp halong).1
    exact unnoticed_of_along (StepFn.along_append.mpr ⟨hbefore, fun middle _ =>
      StepFn.along_of_forall (fun op hop s => fits_of_isOwn (hrest op hop) s) middle⟩)

/-! ## A counter that leaps -/

def balances : Config (KeyValue WholeFloat) Int64 where
  hasher := ⟨fun _ => 0, AttrFingerprint.sum⟩
  initBucket := 0
  layout := .stack

def balanceObserver (mode : Mode) : SyncObserver (KeyValue WholeFloat) Int64 where
  startTime := 0
  seq := 0
  id := ⟨"balance", "", ""⟩
  series _ := []
  lastValues := if mode = .delta then some fun _ => none else none
  observeMode := mode
  kind := .counter

/-- An unused counter, an observer in direct mode and another in delta mode. -/
def balance : SharedSource balances Int64 Unit where
  source := ⟨⟨BucketMap.withStorage balances, BucketMap.inv_withStorage _ _⟩, false⟩
  designated := balanceObserver .direct
  others _ := ⟨balanceObserver .delta, by decide⟩

def deposit (value : Int64) : Op WholeFloat Int64 Unit (Application.scalar balances) :=
  .write ⟨.add value [⟨"host", none⟩], by simp⟩

/-- Between two observations in delta mode the counter leaps over more than its type
holds. -/
def leap : List (Op WholeFloat Int64 Unit (Application.scalar balances)) :=
  [deposit Int64.minValue, .other () (.observe 10), deposit Int64.maxValue,
    deposit Int64.maxValue, .other () (.observe 20), deposit 1, .designated (.observe 30)]

/-- The next call of the application panics. -/
theorem leap_noticed : ¬ Unnoticed true (Application.scalar balances) balance leap := by
  intro hunnoticed
  have houts := congrArg (List.map Option.isSome) hunnoticed.returned
  revert houts
  decide

end SharedSource

end Ohnotel
