/-
# The three modes of observation agree

One run of adds, observations and exports is made three times, each time with one
observer in another mode.  In delta and in destructive mode the values an observer
hands on for a set of attributes, or holds to hand on, add up to what was recorded
before the last observation; in direct mode the last value is that total.

What the three proofs share is stated for a `Meter`: a cell whose snapshots are read
as numbers that add up.  A counter is one, and so is each bucket count, the count and
the sum of a histogram.
-/

import Mathlib.Algebra.BigOperators.Group.List.Basic
import Mathlib.Data.List.DropRight
import Ohnotel.Atomic.Aggregate
import Ohnotel.Observe.Slots

namespace Ohnotel

open Foundation Atomic

/-! ## Runs -/

/-- What happens to a metric and to its observer. -/
inductive ObserverOp (K T : Type)
  | add (value : T) (attrs : List K)
  | observe (ts : SystemTime)
  | exportSeries

namespace ObserverOp

variable {K T : Type}

/-- The attribute lists that occur in an operation. -/
def lists : ObserverOp K T → List (List K)
  | .add _ attrs => [attrs]
  | .observe _ | .exportSeries => []

def isObserve : ObserverOp K T → Bool
  | .observe _ => true
  | .add _ _ | .exportSeries => false

/-- The attribute lists that occur in a run. -/
def listsOf (ops : List (ObserverOp K T)) : Set (List K) :=
  {attrs | attrs ∈ ops.flatMap lists}

/-- The operations up to the last observation. -/
def untilLastObserve (ops : List (ObserverOp K T)) : List (ObserverOp K T) :=
  ops.rdropWhile fun op => !op.isObserve

variable [LinearOrder K]

/-- The values an operation records for a set of attributes. -/
def recorded (set : Finset K) : ObserverOp K T → List T
  | .add value attrs => if attrs.toFinset = set then [value] else []
  | .observe _ | .exportSeries => []

/-- The values a run records for a set of attributes, in order. -/
def recordedIn (ops : List (ObserverOp K T)) (set : Finset K) : List T :=
  ops.flatMap (recorded set)

end ObserverOp

/-- A metric with its observer, and all the observer has handed on. -/
structure Observed (K A V : Type) where
  map : BucketMap K A
  observer : SyncObserver K V
  exported : List (Series K V)

namespace Observed

variable {K A T V : Type}

/-- The values handed on for a list of attributes, and then those still held. -/
def values (s : Observed K A V) (attrs : List K) : List V :=
  (s.exported.flatMap fun series => (series.series attrs).map Observation.value) ++
    (s.observer.slot attrs).values

variable [LinearOrder K] [Record A T V] [BEq V] [PartialOrd V] [Sub V] [IsInitial V]
  (cfg : Config K A)

def exec (s : Observed K A V) : ObserverOp K T → Observed K A V
  | .add value attrs => { s with map := s.map.add cfg value attrs }
  | .observe ts =>
      { s with
        map := (s.observer.observe cfg ts s.map).1
        observer := (s.observer.observe cfg ts s.map).2 }
  | .exportSeries =>
      { s with
        observer := s.observer.take.1
        exported := s.exported ++ [s.observer.take.2] }

/-- A new metric with a new observer, taken through a run. -/
def observeAs (id : NameIdentity) (kind : Kind) (mode : Mode) (now : SystemTime)
    (ops : List (ObserverOp K T)) : Except Error (Observed K A V) :=
  (SyncObserver.new id kind mode now).map fun observer =>
    ops.foldl (exec cfg)
      { map := BucketMap.withStorage cfg, observer := observer, exported := [] }

end Observed

/-! ## Cells that add up -/

/-- What a list of values adds to one number. -/
def totalOf {I T : Type} (weight : I → T → Nat) (i : I) (values : List T) : Nat :=
  (values.map (weight i)).sum

/-- No total reaches the bound of a word. -/
def Bounded {I T : Type} (weight : I → T → Nat) (values : List T) : Prop :=
  ∀ i, totalOf weight i values < 2 ^ 64

section Totals

variable {I T : Type} {weight : I → T → Nat}

@[simp]
theorem totalOf_nil (i : I) : totalOf weight i [] = 0 := rfl

@[simp]
theorem totalOf_append (i : I) (first second : List T) :
    totalOf weight i (first ++ second) = totalOf weight i first + totalOf weight i second := by
  simp [totalOf]

theorem Bounded.of_append {first second : List T} (h : Bounded weight (first ++ second)) :
    Bounded weight first := by
  intro i
  have hboth := h i
  rw [totalOf_append] at hboth
  omega

end Totals

/-- A cell after values were added to it. -/
def addAll {A T V : Type} [Record A T V] (init : A) (values : List T) : A :=
  values.foldl Record.add init

section Bucket

variable {T C : Type} [Measure T C]

/-- The boundaries of a cell stay those it was made with. -/
theorem boundaries_addAll (bucket : Bucket T C) (values : List T) :
    (addAll bucket values).boundaries = bucket.boundaries := by
  induction values generalizing bucket with
  | nil => rfl
  | cons value rest ih =>
      have hadd : (Record.add bucket value : Bucket T C).boundaries = bucket.boundaries := by
        show (Bucket.add bucket value).boundaries = bucket.boundaries
        rw [Bucket.add]
        split <;> rfl
      rw [addAll, List.foldl_cons]
      exact (ih _).trans hadd

/-- Clearing a cell makes it a new one. -/
theorem clear_addAll {boundaries : Boundaries T} (values : List T) :
    Record.clear (addAll (Bucket.fromCheckedBoundaries (C := C) boundaries) values) =
      Bucket.fromCheckedBoundaries boundaries :=
  congrArg Bucket.fromCheckedBoundaries (boundaries_addAll _ values)

end Bucket

/-- Numbers read off the snapshots of a cell that add up, as long as no total reaches
the bound of a word. -/
structure Meter (I : Type) {A T V : Type} [Record A T V] [BEq V] [PartialOrd V] [Sub V]
    [IsInitial V] (init : A) where
  weight : I → T → Nat
  part : I → V → Nat
  part_current : ∀ values, Bounded weight values → ∀ i,
    part i (Record.current (addAll init values)) = totalOf weight i values
  /-- What is filed for a change is what was added since. -/
  part_difference : ∀ before since, Bounded weight (before ++ since) →
    Record.current (addAll init before) ≠ Record.current (addAll init (before ++ since)) → ∀ i,
    part i (Slot.difference (Record.current (addAll init before))
      (Record.current (addAll init (before ++ since)))) = totalOf weight i since
  total_of_isInitial : ∀ values, Bounded weight values →
    IsInitial.isInitial (Record.current (addAll init values)) = true → ∀ i,
    totalOf weight i values = 0
  clear_addAll : ∀ values, Record.clear (addAll init values) = init

/-! ## What a map holds -/

namespace BucketMap

variable {K A T V : Type} [LinearOrder K] {cfg : Config K A} {inUse : Set (List K)}
  [Record A T V]

/-- The map holds, for each set, exactly the values listed for it. -/
structure Holds (cfg : Config K A) (inUse : Set (List K)) (m : BucketMap K A)
    (held : Finset K → List T) : Prop where
  inv : Inv cfg inUse m
  shownCell : ∀ set, m.shownCell set =
    if held set = [] then none else some (addAll cfg.initBucket (held set))
  noAttrCell : m.noAttrCell = addAll cfg.initBucket (held ∅)

theorem addAll_concat (init : A) (values : List T) (value : T) :
    addAll init (values ++ [value]) = Record.add (addAll init values) value := by
  simp [addAll]

/-- The values held for each set after one more was added. -/
def holding (held : Finset K → List T) (value : T) (attrs : List K) : Finset K → List T :=
  Function.update held attrs.toFinset (held attrs.toFinset ++ [value])

theorem holds_withStorage : Holds (T := T) cfg inUse (withStorage cfg) fun _ => [] where
  inv := inv_withStorage cfg inUse
  shownCell set := by
    rw [if_pos rfl, BucketMap.shownCell]
    split <;> rfl
  noAttrCell := rfl

/-- A set for which nothing is held stands for a new cell. -/
theorem getD_held (init : A) (values : List T) :
    (if values = [] then none else some (addAll init values)).getD init = addAll init values := by
  split
  · rename_i hnil
    rw [hnil]
    rfl
  · rfl

theorem Holds.shows {m : BucketMap K A} {held : Finset K → List T}
    (h : Holds cfg inUse m held) :
    Shows cfg inUse m fun set =>
      if held set = [] then none else some (addAll cfg.initBucket (held set)) where
  inv := h.inv
  shownCell := funext h.shownCell
  noAttrCell := h.noAttrCell.trans (getD_held _ _).symm

theorem Holds.add (hfree : CollisionFree cfg inUse) {m : BucketMap K A}
    {held : Finset K → List T} (h : Holds cfg inUse m held) (value : T) {attrs : List K}
    (hattrs : attrs ∈ inUse) :
    Holds cfg inUse (m.add cfg value attrs) (holding held value attrs) := by
  have hshows := h.shows.write hfree hattrs fun cell => Record.add cell value
  simp only [getD_held, ← addAll_concat] at hshows
  have hshown : ∀ set, (m.add cfg value attrs).shownCell set =
      if holding held value attrs set = [] then none
      else some (addAll cfg.initBucket (holding held value attrs set)) := by
    intro set
    refine (congrFun hshows.shownCell set).trans ?_
    rw [holding]
    by_cases hsame : set = attrs.toFinset
    · subst hsame
      rw [Function.update_self, Function.update_self, if_neg (by simp)]
    · rw [Function.update_of_ne hsame, Function.update_of_ne hsame]
  have hcell := hshows.noAttrCell
  rw [← hshows.shownCell] at hcell
  exact ⟨hshows.inv, hshown, hcell.trans ((congrArg (Option.getD · _) (hshown ∅)).trans
    (getD_held _ _))⟩

/-- A drained map holds nothing, if clearing a cell makes it a new one. -/
theorem Holds.take {m : BucketMap K A} {held : Finset K → List T}
    (h : Holds cfg inUse m held)
    (hclear : ∀ values : List T, Record.clear (addAll cfg.initBucket values) = cfg.initBucket) :
    Holds (T := T) cfg inUse m.take.1 fun _ => [] := by
  have hshows := h.shows.drained (take_spec h.inv).1 (by rw [getD_held, hclear])
  exact ⟨hshows.inv, congrFun hshows.shownCell, hshows.noAttrCell⟩

end BucketMap

/-! ## The rule for runs -/

namespace ObserverOp

variable {K T : Type} [LinearOrder K]

@[simp]
theorem recordedIn_nil (set : Finset K) : recordedIn ([] : List (ObserverOp K T)) set = [] := rfl

@[simp]
theorem recordedIn_append (first second : List (ObserverOp K T)) (set : Finset K) :
    recordedIn (first ++ second) set = recordedIn first set ++ recordedIn second set := by
  simp [recordedIn]

theorem recordedIn_concat_add (ops : List (ObserverOp K T)) (value : T) (attrs : List K) :
    recordedIn (ops ++ [.add value attrs]) =
      BucketMap.holding (recordedIn ops) value attrs := by
  funext set
  rw [recordedIn_append, BucketMap.holding]
  by_cases hset : set = attrs.toFinset
  · subst hset
    simp [recordedIn, recorded]
  · rw [Function.update_of_ne hset]
    simp [recordedIn, recorded, Ne.symm hset]

/-- What is recorded before the last observation comes first. -/
theorem exists_recordedIn_eq (ops : List (ObserverOp K T)) :
    ∃ since : Finset K → List T, ∀ set,
      recordedIn ops set = recordedIn (untilLastObserve ops) set ++ since set := by
  obtain ⟨rest, hrest⟩ := List.rdropWhile_prefix (fun op => !isObserve op) ops
  refine ⟨recordedIn rest, fun set => ?_⟩
  rw [← recordedIn_append, untilLastObserve, hrest]

end ObserverOp

namespace Observed

open ObserverOp

variable {K A T V : Type} [LinearOrder K] [Record A T V] [BEq V] [PartialOrd V] [Sub V]
  [IsInitial V] {cfg : Config K A} {inUse : Set (List K)}

/-- A property of what was recorded, of what was recorded before the last
observation, and of the state holds after every run if each operation keeps it. -/
theorem run_rule (invariant : (Finset K → List T) → (Finset K → List T) → Observed K A V → Prop)
    {start : Observed K A V} (hstart : invariant (fun _ => []) (fun _ => []) start)
    {ops : List (ObserverOp K T)}
    (hadd : ∀ held before s value, ∀ attrs ∈ ObserverOp.listsOf ops, invariant held before s →
      invariant (BucketMap.holding held value attrs) before (s.exec cfg (.add value attrs)))
    (hobserve : ∀ earlier later, ops = earlier ++ later → ∀ before s ts,
      invariant (recordedIn earlier) before s →
      invariant (recordedIn earlier) (recordedIn earlier) (s.exec cfg (.observe (T := T) ts)))
    (hexport : ∀ held before s, invariant held before s →
      invariant held before (s.exec cfg (.exportSeries (T := T)))) :
    invariant (recordedIn ops) (recordedIn (untilLastObserve ops))
      (ops.foldl (exec cfg) start) := by
  have hrun : ∀ earlier later, ops = earlier ++ later →
      invariant (recordedIn earlier) (recordedIn (untilLastObserve earlier))
        (earlier.foldl (exec cfg) start) := by
    intro earlier
    induction earlier using List.reverseRecOn with
    | nil => exact fun _ _ => hstart
    | append_singleton earlier op ih =>
        intro later hops
        have hbefore := ih (op :: later) (by simpa using hops)
        rw [List.foldl_append, List.foldl_cons, List.foldl_nil]
        cases op with
        | add value attrs =>
            have hlast : untilLastObserve (earlier ++ [.add value attrs]) =
                untilLastObserve earlier := List.rdropWhile_concat_pos _ _ _ rfl
            rw [recordedIn_concat_add, hlast]
            exact hadd _ _ _ value attrs (by simp [ObserverOp.listsOf, hops, lists]) hbefore
        | observe ts =>
            have hlast : untilLastObserve (earlier ++ [.observe (T := T) ts]) =
                earlier ++ [.observe ts] := List.rdropWhile_concat_neg _ _ _ (by simp [isObserve])
            have hsame : recordedIn (earlier ++ [.observe (T := T) ts]) = recordedIn earlier := by
              funext set
              simp [recordedIn, recorded]
            rw [hlast, hsame]
            exact hobserve earlier _ (by simpa using hops) _ _ ts hbefore
        | exportSeries =>
            have hlast : untilLastObserve (earlier ++ [.exportSeries (T := T) (K := K)]) =
                untilLastObserve earlier := List.rdropWhile_concat_pos _ _ _ rfl
            have hsame : recordedIn (earlier ++ [.exportSeries (T := T)]) = recordedIn earlier := by
              funext set
              simp [recordedIn, recorded]
            rw [hlast, hsame]
            exact hexport _ _ _ hbefore
  exact hrun ops [] (by simp)

/-! ## What every mode keeps -/

variable (cfg) in
/-- An export moves values, in order, from those held to those handed on. -/
theorem values_exportSeries (s : Observed K A V) :
    (s.exec cfg (.exportSeries (T := T))).values = s.values := by
  funext attrs
  simp [values, exec, SyncObserver.take, SyncObserver.slot]

/-- The observer is in its mode and files under the sorted lists of sets only. -/
structure Files (mode : Mode) (s : Observed K A V) : Prop where
  observeMode : s.observer.observeMode = mode
  canonical : ∀ attrs, s.values attrs ≠ [] → normalize attrs = attrs

theorem Files.exportSeries {mode : Mode} {s : Observed K A V} (h : Files mode s) :
    Files mode (s.exec cfg (.exportSeries (T := T))) where
  observeMode := h.observeMode
  canonical attrs hattrs := by
    rw [values_exportSeries] at hattrs
    exact h.canonical attrs hattrs

/-- What an observation adds to the values of a set whose cell holds `current`. -/
def filedFor (s : Observed K A V) (set : Finset K) (current : V) : List V :=
  Slot.filed (s.observer.slot (set.sort (· ≤ ·))).last current

/-- What an observation that does not drain does to the whole. -/
theorem exec_observe {s : Observed K A V} {mode : Mode} (hmode : mode ≠ .destructive)
    (hfiles : Files mode s) {held : Finset K → List T}
    (hholds : BucketMap.Holds cfg inUse s.map held) (ts : SystemTime) :
    BucketMap.Holds cfg inUse (s.exec cfg (.observe (T := T) ts)).map held ∧
      Files mode (s.exec cfg (.observe (T := T) ts)) ∧
      ∀ set, (s.exec cfg (.observe (T := T) ts)).values (set.sort (· ≤ ·)) =
          s.values (set.sort (· ≤ ·)) ++ (if held set = [] then [] else
            s.filedFor set (Record.current (addAll cfg.initBucket (held set)))) ∧
        ((s.exec cfg (.observe (T := T) ts)).observer.slot (set.sort (· ≤ ·))).last =
          if held set = [] then (s.observer.slot (set.sort (· ≤ ·))).last
          else Slot.remembered (s.observer.slot (set.sort (· ≤ ·))).last
            (Record.current (addAll cfg.initBucket (held set))) := by
  obtain ⟨hmap, hwatched⟩ := SyncObserver.observe_of_keeps cfg hholds.inv ts
    (hfiles.observeMode ▸ hmode : s.observer.observeMode ≠ .destructive)
  have hmap' : (s.exec cfg (.observe (T := T) ts)).map = s.map := hmap
  refine ⟨hmap' ▸ hholds,
    ⟨hwatched.observeMode.trans hfiles.observeMode, fun attrs hattrs => ?_⟩, fun set => ?_⟩
  · by_contra hne
    have hsame : (s.exec cfg (.observe (T := T) ts)).values attrs = s.values attrs :=
      congrArg _ (congrArg Slot.values (hwatched.elsewhere attrs hne))
    exact hne (hfiles.canonical attrs (hsame ▸ hattrs))
  · have hslot : (s.exec cfg (.observe (T := T) ts)).observer.slot (set.sort (· ≤ ·)) = _ :=
      hwatched.slot set
    rw [hholds.shownCell set] at hslot
    by_cases hheld : held set = []
    · rw [if_pos hheld] at hslot
      simp only [if_pos hheld, List.append_nil, values, hslot]
      exact ⟨rfl, trivial⟩
    · rw [if_neg hheld] at hslot
      simp only [if_neg hheld, values, hslot, Slot.observe, ← List.append_assoc]
      exact ⟨rfl, trivial⟩

/-! ## Direct -/

/-- The last value filed for a set is what a cell reports that recorded the values
added before the last observation. -/
structure DirectInv (cfg : Config K A) (inUse : Set (List K)) (held before : Finset K → List T)
    (s : Observed K A V) : Prop where
  holds : BucketMap.Holds cfg inUse s.map held
  files : Files .direct s
  grown : ∀ set, ∃ since, held set = before set ++ since
  last : ∀ set : Finset K, (s.observer.slot (set.sort (· ≤ ·))).last = none
  latest : ∀ set, (s.values (set.sort (· ≤ ·))).getLast? =
    if before set = [] then none
    else some (Record.current (addAll cfg.initBucket (before set)))

theorem grown_holding {held before : Finset K → List T}
    (hgrown : ∀ set, ∃ since, held set = before set ++ since) (value : T) (attrs : List K)
    (set : Finset K) :
    ∃ since, BucketMap.holding held value attrs set = before set ++ since := by
  obtain ⟨since, hsince⟩ := hgrown set
  by_cases hset : set = attrs.toFinset
  · subst hset
    exact ⟨since ++ [value], by simp [BucketMap.holding, hsince]⟩
  · exact ⟨since, by rw [BucketMap.holding, Function.update_of_ne hset, hsince]⟩

theorem DirectInv.add (hfree : CollisionFree cfg inUse) {held before : Finset K → List T}
    {s : Observed K A V} (h : DirectInv cfg inUse held before s) (value : T) {attrs : List K}
    (hattrs : attrs ∈ inUse) :
    DirectInv cfg inUse (BucketMap.holding held value attrs) before
      (s.exec cfg (.add value attrs)) where
  holds := h.holds.add hfree value hattrs
  files := ⟨h.files.observeMode, h.files.canonical⟩
  grown := grown_holding h.grown value attrs
  last := h.last
  latest := h.latest

theorem DirectInv.exportSeries {held before : Finset K → List T} {s : Observed K A V}
    (h : DirectInv cfg inUse held before s) :
    DirectInv cfg inUse held before (s.exec cfg (.exportSeries (T := T))) where
  holds := h.holds
  files := h.files.exportSeries
  grown := h.grown
  last := h.last
  latest set := by
    rw [values_exportSeries]
    exact h.latest set

theorem DirectInv.observe {held before : Finset K → List T} {s : Observed K A V}
    (h : DirectInv cfg inUse held before s) (ts : SystemTime) :
    DirectInv cfg inUse held held (s.exec cfg (.observe (T := T) ts)) := by
  obtain ⟨hholds, hfiles, hset⟩ := exec_observe (by decide) h.files h.holds ts
  refine ⟨hholds, hfiles, fun set => ⟨[], by simp⟩, fun set => ?_, fun set => ?_⟩
  · rw [(hset set).2, h.last set]
    simp [Slot.remembered]
  · rw [(hset set).1]
    by_cases hheld : held set = []
    · have hbefore : before set = [] := by
        obtain ⟨since, hsince⟩ := h.grown set
        exact (List.append_eq_nil_iff.mp (hsince ▸ hheld)).1
      rw [if_pos hheld, if_pos hheld, List.append_nil, h.latest set, if_pos hbefore]
    · simp [hheld, filedFor, h.last set, Slot.filed]

/-! ## Delta -/

/-- The values filed for a set add up to what was recorded before the last
observation, whose value is remembered. -/
structure DeltaInv (cfg : Config K A) (inUse : Set (List K)) {I : Type}
    (meter : Meter (V := V) I cfg.initBucket) (held before : Finset K → List T)
    (s : Observed K A V) : Prop where
  holds : BucketMap.Holds cfg inUse s.map held
  files : Files .delta s
  grown : ∀ set, ∃ since, held set = before set ++ since
  last : ∀ set : Finset K, (s.observer.slot (set.sort (· ≤ ·))).last =
    some (if before set = [] then none
      else some (Record.current (addAll cfg.initBucket (before set))))
  total : ∀ set i, ((s.values (set.sort (· ≤ ·))).map (meter.part i)).sum =
    totalOf meter.weight i (before set)

variable {I : Type} {meter : Meter (V := V) I cfg.initBucket}

theorem DeltaInv.add (hfree : CollisionFree cfg inUse) {held before : Finset K → List T}
    {s : Observed K A V} (h : DeltaInv cfg inUse meter held before s) (value : T)
    {attrs : List K} (hattrs : attrs ∈ inUse) :
    DeltaInv cfg inUse meter (BucketMap.holding held value attrs) before
      (s.exec cfg (.add value attrs)) where
  holds := h.holds.add hfree value hattrs
  files := ⟨h.files.observeMode, h.files.canonical⟩
  grown := grown_holding h.grown value attrs
  last := h.last
  total := h.total

theorem DeltaInv.exportSeries {held before : Finset K → List T} {s : Observed K A V}
    (h : DeltaInv cfg inUse meter held before s) :
    DeltaInv cfg inUse meter held before (s.exec cfg (.exportSeries (T := T))) where
  holds := h.holds
  files := h.files.exportSeries
  grown := h.grown
  last := h.last
  total set i := by
    rw [values_exportSeries]
    exact h.total set i

omit [LinearOrder K] in
/-- What is filed for a set is what was added to it since. -/
theorem sum_filed [LawfulBEq V] {before since : List T} (hne : before ++ since ≠ [])
    (hbounded : Bounded meter.weight (before ++ since)) (i : I) :
    ((Slot.filed (some (if before = [] then none
        else some (Record.current (addAll cfg.initBucket before))))
      (Record.current (addAll cfg.initBucket (before ++ since)))).map (meter.part i)).sum =
      totalOf meter.weight i since := by
  by_cases hbefore : before = []
  · subst hbefore
    simpa [Slot.filed] using meter.part_current since hbounded i
  · simp only [if_neg hbefore, Slot.filed]
    by_cases hsame : Record.current (addAll cfg.initBucket before) =
        Record.current (addAll cfg.initBucket (before ++ since))
    · -- Equal snapshots, so nothing was added that counts.
      have hearlier := meter.part_current before hbounded.of_append i
      rw [hsame, meter.part_current _ hbounded i, totalOf_append] at hearlier
      simp only [hsame, beq_self_eq_true, if_true, List.map_nil, List.sum_nil]
      omega
    · rw [if_neg (mt beq_iff_eq.mp hsame), List.map_singleton, List.sum_singleton]
      exact meter.part_difference before since hbounded hsame i

theorem DeltaInv.observe [LawfulBEq V] {held before : Finset K → List T}
    {s : Observed K A V}
    (hbounded : ∀ set, Bounded meter.weight (held set))
    (h : DeltaInv cfg inUse meter held before s) (ts : SystemTime) :
    DeltaInv cfg inUse meter held held (s.exec cfg (.observe (T := T) ts)) := by
  obtain ⟨hholds, hfiles, hset⟩ := exec_observe (by decide) h.files h.holds ts
  refine ⟨hholds, hfiles, fun set => ⟨[], by simp⟩, fun set => ?_, fun set i => ?_⟩
  · obtain ⟨since, hsince⟩ := h.grown set
    rw [(hset set).2, h.last set]
    by_cases hheld : held set = []
    · have hbefore : before set = [] := (List.append_eq_nil_iff.mp (hsince ▸ hheld)).1
      rw [if_pos hheld, if_pos hheld, if_pos hbefore]
    · rw [if_neg hheld, if_neg hheld]
      by_cases hbefore : before set = []
      · simp [hbefore, Slot.remembered]
      · simp only [if_neg hbefore, Slot.remembered]
        split
        · rename_i hsame
          rw [beq_iff_eq.mp hsame]
        · rfl
  · obtain ⟨since, hsince⟩ := h.grown set
    rw [(hset set).1, List.map_append, List.sum_append, h.total set i, hsince, totalOf_append]
    congr 1
    by_cases hheld : before set ++ since = []
    · rw [if_pos hheld, (List.append_eq_nil_iff.mp hheld).2]
      rfl
    · rw [if_neg hheld, filedFor, h.last set]
      exact sum_filed hheld (hsince ▸ hbounded set) i

/-! ## Destructive -/

/-- The map holds what was added since the last observation, and the values filed
for a set add up to what was recorded before it. -/
structure DestructiveInv (cfg : Config K A) (inUse : Set (List K)) {I : Type}
    (meter : Meter (V := V) I cfg.initBucket) (held before : Finset K → List T)
    (s : Observed K A V) : Prop where
  holds : ∃ since : Finset K → List T, (∀ set, held set = before set ++ since set) ∧
    BucketMap.Holds cfg inUse s.map since
  files : Files .destructive s
  total : ∀ set i, ((s.values (set.sort (· ≤ ·))).map (meter.part i)).sum =
    totalOf meter.weight i (before set)

theorem DestructiveInv.add (hfree : CollisionFree cfg inUse) {held before : Finset K → List T}
    {s : Observed K A V} (h : DestructiveInv cfg inUse meter held before s) (value : T)
    {attrs : List K} (hattrs : attrs ∈ inUse) :
    DestructiveInv cfg inUse meter (BucketMap.holding held value attrs) before
      (s.exec cfg (.add value attrs)) := by
  obtain ⟨since, hsince, hholds⟩ := h.holds
  refine ⟨⟨_, fun set => ?_, hholds.add hfree value hattrs⟩,
    ⟨h.files.observeMode, h.files.canonical⟩, h.total⟩
  by_cases hset : set = attrs.toFinset
  · subst hset
    simp [BucketMap.holding, hsince]
  · rw [BucketMap.holding, BucketMap.holding, Function.update_of_ne hset,
      Function.update_of_ne hset, hsince]

theorem DestructiveInv.exportSeries {held before : Finset K → List T} {s : Observed K A V}
    (h : DestructiveInv cfg inUse meter held before s) :
    DestructiveInv cfg inUse meter held before (s.exec cfg (.exportSeries (T := T))) where
  holds := h.holds
  files := h.files.exportSeries
  total set i := by
    rw [values_exportSeries]
    exact h.total set i

/-- What a draining observation files for a set adds up to what the map held. -/
theorem sum_drainedValues {m : BucketMap K A} {since : Finset K → List T}
    (hholds : BucketMap.Holds cfg inUse m since) {set : Finset K}
    (hbounded : Bounded meter.weight (since set)) (i : I) :
    ((SyncObserver.drainedValues m set).map (meter.part i)).sum =
      totalOf meter.weight i (since set) := by
  rw [SyncObserver.drainedValues, hholds.shownCell set]
  by_cases hsince : since set = []
  · rw [if_pos hsince, hsince]
    rfl
  · simp only [if_neg hsince]
    split
    · rename_i hinitial
      exact (meter.total_of_isInitial _ hbounded hinitial.1 i).symm
    · simpa using meter.part_current _ hbounded i

theorem DestructiveInv.observe {held before : Finset K → List T} {s : Observed K A V}
    (hbounded : ∀ set, Bounded meter.weight (held set))
    (h : DestructiveInv cfg inUse meter held before s) (ts : SystemTime) :
    DestructiveInv cfg inUse meter held held (s.exec cfg (.observe (T := T) ts)) := by
  obtain ⟨since, hsince, hholds⟩ := h.holds
  have hdrains : s.observer.observe cfg ts s.map =
      SyncObserver.observeDestructive ts s.map s.observer := if_pos h.files.observeMode
  have hvalues : ∀ attrs, (s.exec cfg (.observe (T := T) ts)).values attrs =
      (s.exported.flatMap fun series => (series.series attrs).map Observation.value) ++
        ((SyncObserver.observeDestructive ts s.map s.observer).2.slot attrs).values := by
    intro attrs
    rw [← hdrains]
    rfl
  refine ⟨⟨fun _ => [], fun set => (List.append_nil _).symm, ?_⟩, ⟨?_, fun attrs hattrs => ?_⟩,
    fun set i => ?_⟩
  · have htaken := hholds.take meter.clear_addAll
    rw [exec, hdrains]
    exact htaken
  · rw [exec, hdrains]
    exact (SyncObserver.mode_observeDestructive ts s.map s.observer).trans h.files.observeMode
  · by_contra hne
    rw [hvalues, SyncObserver.slot_observeDestructive_elsewhere hholds.inv ts _ hne] at hattrs
    exact hne (h.files.canonical attrs hattrs)
  · have hpart : Bounded meter.weight (since set) := by
      intro j
      have hall := hbounded set j
      rw [hsince set, totalOf_append] at hall
      omega
    rw [hvalues, SyncObserver.slot_observeDestructive hholds.inv, ← List.append_assoc,
      List.map_append, List.sum_append, sum_drainedValues hholds hpart, hsince, totalOf_append]
    congr 1
    exact h.total set i

/-! ## Whole runs -/

section Runs

variable (id : NameIdentity) {kind : Kind} (now : SystemTime) {ops : List (ObserverOp K T)}

theorem bounded_beginning {weight : I → T → Nat}
    (hbounded : ∀ set, Bounded weight (recordedIn ops set)) {earlier later : List (ObserverOp K T)}
    (hops : ops = earlier ++ later) (set : Finset K) : Bounded weight (recordedIn earlier set) := by
  have hall := hbounded set
  rw [hops, recordedIn_append] at hall
  exact hall.of_append

theorem observeAs_direct (hfree : CollisionFree cfg (ObserverOp.listsOf ops))
    (hkind : kind ≠ .gauge) :
    ∃ final, observeAs cfg id kind .direct now ops = .ok final ∧
      DirectInv cfg (ObserverOp.listsOf ops) (recordedIn ops)
        (recordedIn (untilLastObserve ops)) final := by
  obtain ⟨o, hnew, hmode, hslot⟩ := SyncObserver.exists_new (K := K) (V := V) id hkind .direct now
  refine ⟨_, by rw [observeAs, hnew]; rfl, ?_⟩
  refine run_rule (DirectInv cfg (ObserverOp.listsOf ops)) ?_
    (fun _ _ _ value attrs hattrs h => h.add hfree value hattrs)
    (fun _ _ _ _ _ ts h => h.observe ts) fun _ _ _ h => h.exportSeries
  exact
    { holds := BucketMap.holds_withStorage
      files := ⟨hmode, fun attrs hattrs => by simp [values, hslot] at hattrs⟩
      grown := fun _ => ⟨[], rfl⟩
      last := fun _ => by simp [hslot]
      latest := fun _ => by simp [values, hslot] }

theorem observeAs_delta [LawfulBEq V] (meter : Meter (V := V) I cfg.initBucket)
    (hfree : CollisionFree cfg (ObserverOp.listsOf ops)) (hkind : kind ≠ .gauge)
    (hbounded : ∀ set, Bounded meter.weight (recordedIn ops set)) :
    ∃ final, observeAs cfg id kind .delta now ops = .ok final ∧
      DeltaInv cfg (ObserverOp.listsOf ops) meter (recordedIn ops)
        (recordedIn (untilLastObserve ops)) final := by
  obtain ⟨o, hnew, hmode, hslot⟩ := SyncObserver.exists_new (K := K) (V := V) id hkind .delta now
  refine ⟨_, by rw [observeAs, hnew]; rfl, ?_⟩
  refine run_rule (DeltaInv cfg (ObserverOp.listsOf ops) meter) ?_
    (fun _ _ _ value attrs hattrs h => h.add hfree value hattrs)
    (fun _ _ hops _ _ ts h => h.observe (bounded_beginning hbounded hops) ts)
    fun _ _ _ h => h.exportSeries
  exact
    { holds := BucketMap.holds_withStorage
      files := ⟨hmode, fun attrs hattrs => by simp [values, hslot] at hattrs⟩
      grown := fun _ => ⟨[], rfl⟩
      last := fun _ => by simp [hslot]
      total := fun _ _ => by simp [values, hslot] }

theorem observeAs_destructive (meter : Meter (V := V) I cfg.initBucket)
    (hfree : CollisionFree cfg (ObserverOp.listsOf ops)) (hkind : kind ≠ .gauge)
    (hbounded : ∀ set, Bounded meter.weight (recordedIn ops set)) :
    ∃ final, observeAs cfg id kind .destructive now ops = .ok final ∧
      DestructiveInv cfg (ObserverOp.listsOf ops) meter (recordedIn ops)
        (recordedIn (untilLastObserve ops)) final := by
  obtain ⟨o, hnew, hmode, hslot⟩ :=
    SyncObserver.exists_new (K := K) (V := V) id hkind .destructive now
  refine ⟨_, by rw [observeAs, hnew]; rfl, ?_⟩
  refine run_rule (DestructiveInv cfg (ObserverOp.listsOf ops) meter) ?_
    (fun _ _ _ value attrs hattrs h => h.add hfree value hattrs)
    (fun _ _ hops _ _ ts h => h.observe (bounded_beginning hbounded hops) ts)
    fun _ _ _ h => h.exportSeries
  exact
    { holds := ⟨fun _ => [], fun _ => rfl, BucketMap.holds_withStorage⟩
      files := ⟨hmode, fun attrs hattrs => by simp [values, hslot] at hattrs⟩
      total := fun _ _ => by simp [values, hslot] }

end Runs

end Observed

end Ohnotel
