/-
# Adds beside a draining observer

Threads add to a counter while one destructive observer observes it, time after time.
An add is two steps: it obtains a bucket and then adds to it, or it adds to the bucket
of the empty list and then raises the flag.  An observation swaps out the canonical
table, deals with the bucket of the empty list in three steps, and then reads the
buckets it swapped out one by one.  While it is at the bucket of the empty list it
holds both locks of the map, so no bucket is obtained meanwhile.
-/

import Mathlib.Data.UInt
import Ohnotel.Foundation.Tally
import Ohnotel.Observe.Modes

namespace Ohnotel.Draining

open Foundation Atomic

/-- What a thread has yet to do for the add it is at. -/
inductive Adder (K : Type)
  | idle
  | obtained (attrs : List K) (bucket : BucketRef) (value : UInt64)
  | touching

/-- What the observer has yet to do for the observation it is at. -/
inductive Drain (K : Type)
  | idle
  | swapped (ts : SystemTime) (table : HashTable (CanonicalEntry K))
  | loaded (ts : SystemTime) (table : HashTable (CanonicalEntry K)) (value : UInt64)
  | flagged (ts : SystemTime) (table : HashTable (CanonicalEntry K)) (noAttrVal : Option UInt64)
  | reading (ts : SystemTime) (rest : List (CanonicalEntry K)) (noAttrVal : Option UInt64)

/-- `take` keeps both locks from its first step to its last. -/
def Drain.locked {K : Type} : Drain K → Bool
  | .swapped _ _ | .loaded _ _ _ | .flagged _ _ _ => true
  | .idle | .reading _ _ _ => false

/-- The metric, its observer and the threads. -/
structure Shared (ι K : Type) extends Observed K UInt64 UInt64 where
  adders : ι → Adder K
  drain : Drain K

/-- Whose turn it is. -/
inductive Label (ι K : Type)
  /-- The first step of an add. -/
  | add (t : ι) (value : UInt64) (attrs : List K)
  /-- Its second step. -/
  | finishAdd (t : ι)
  /-- The first step of an observation. -/
  | observe (ts : SystemTime)
  /-- Its next step. -/
  | drainStep
  | exportSeries

section Step

variable {ι K : Type} [DecidableEq ι] [LinearOrder K] (cfg : Config K UInt64)

/-- A counter nobody has added to, with its observer. -/
def init (observer : SyncObserver K UInt64) : Shared ι K where
  map := BucketMap.withStorage cfg
  observer := observer
  exported := []
  adders _ := .idle
  drain := .idle

/-- A thread begins an add. -/
def beginAdd (s : Shared ι K) (t : ι) (value : UInt64) (attrs : List K) : Option (Shared ι K) :=
  if attrs.isEmpty then
    some
      { s with
        map := s.map.modifyCell s.map.noAttrEntry.bucket fun cell => Record.add cell value
        adders := Function.update s.adders t .touching }
  else if s.drain.locked then none
  else
    let found := s.map.getOrCreate cfg attrs
    some
      { s with
        map := found.1
        adders := Function.update s.adders t (.obtained attrs found.2 value) }

/-- The observer takes the next step of its observation. -/
def drainStep (s : Shared ι K) : Option (Shared ι K) :=
  match s.drain with
  | .idle => none
  | .swapped ts table =>
      some { s with drain := .loaded ts table (Record.current s.map.noAttrCell) }
  | .loaded ts table value =>
      some
        { s with
          map := { s.map with noAttrTouched := false }
          drain := .flagged ts table (if s.map.noAttrTouched then some value else none) }
  | .flagged ts table noAttrVal =>
      some
        { s with
          map := s.map.modifyCell s.map.noAttrEntry.bucket Record.clear
          drain := .reading ts table.elems noAttrVal }
  | .reading ts (entry :: rest) noAttrVal =>
      some
        { s with
          observer := s.observer.observeDrained ts
            (entry.attrs, Record.current (s.map.cells entry.bucket))
          drain := .reading ts rest noAttrVal }
  | .reading ts [] noAttrVal =>
      some { s with observer := s.observer.observeNoAttr ts noAttrVal, drain := .idle }

def step : StepFn (Shared ι K) (Label ι K) := fun s label =>
  match label with
  | .add t value attrs =>
      match s.adders t with
      | .idle => beginAdd cfg s t value attrs
      | .obtained _ _ _ | .touching => none
  | .finishAdd t =>
      match s.adders t with
      | .idle => none
      | .obtained _ bucket value =>
          some
            { s with
              map := s.map.modifyCell bucket fun cell => Record.add cell value
              adders := Function.update s.adders t .idle }
      | .touching =>
          some
            { s with
              map := { s.map with noAttrTouched := true }
              adders := Function.update s.adders t .idle }
  | .observe ts =>
      match s.drain with
      | .idle =>
          some
            { s with
              map := { s.map with canonical := HashTable.empty, aliases := HashTable.empty }
              drain := .swapped ts s.map.canonical }
      | _ => none
  | .drainStep => drainStep s
  -- An export needs the observer to itself.
  | .exportSeries =>
      match s.drain with
      | .idle =>
          some
            { s with
              observer := s.observer.take.1
              exported := s.exported ++ [s.observer.take.2] }
      | _ => none

/-- What each step does, by what it finds. -/
inductive Moves (s : Shared ι K) : Label ι K → Shared ι K → Prop
  | addNoAttr {t : ι} (value : UInt64) (hidle : s.adders t = .idle) :
      Moves s (.add t value [])
        { s with
          map := s.map.modifyCell s.map.noAttrEntry.bucket fun cell => Record.add cell value
          adders := Function.update s.adders t .touching }
  | obtain {t : ι} (value : UInt64) {attrs : List K} (hidle : s.adders t = .idle)
      (hne : attrs ≠ []) (hunlocked : s.drain.locked = false) :
      Moves s (.add t value attrs)
        { s with
          map := (s.map.getOrCreate cfg attrs).1
          adders := Function.update s.adders t
            (.obtained attrs (s.map.getOrCreate cfg attrs).2 value) }
  | addTo {t : ι} {attrs : List K} {bucket : BucketRef} {value : UInt64}
      (hobtained : s.adders t = .obtained attrs bucket value) :
      Moves s (.finishAdd t)
        { s with
          map := s.map.modifyCell bucket fun cell => Record.add cell value
          adders := Function.update s.adders t .idle }
  | touch {t : ι} (htouching : s.adders t = .touching) :
      Moves s (.finishAdd t)
        { s with
          map := { s.map with noAttrTouched := true }
          adders := Function.update s.adders t .idle }
  | swap (ts : SystemTime) (hidle : s.drain = .idle) :
      Moves s (.observe ts)
        { s with
          map := { s.map with canonical := HashTable.empty, aliases := HashTable.empty }
          drain := .swapped ts s.map.canonical }
  | load {ts : SystemTime} {table : HashTable (CanonicalEntry K)}
      (hswapped : s.drain = .swapped ts table) :
      Moves s .drainStep { s with drain := .loaded ts table (Record.current s.map.noAttrCell) }
  | swapFlag {ts : SystemTime} {table : HashTable (CanonicalEntry K)} {value : UInt64}
      (hloaded : s.drain = .loaded ts table value) :
      Moves s .drainStep
        { s with
          map := { s.map with noAttrTouched := false }
          drain := .flagged ts table (if s.map.noAttrTouched then some value else none) }
  | clear {ts : SystemTime} {table : HashTable (CanonicalEntry K)} {noAttrVal : Option UInt64}
      (hflagged : s.drain = .flagged ts table noAttrVal) :
      Moves s .drainStep
        { s with
          map := s.map.modifyCell s.map.noAttrEntry.bucket Record.clear
          drain := .reading ts table.elems noAttrVal }
  | read {ts : SystemTime} {entry : CanonicalEntry K} {rest : List (CanonicalEntry K)}
      {noAttrVal : Option UInt64} (hreading : s.drain = .reading ts (entry :: rest) noAttrVal) :
      Moves s .drainStep
        { s with
          observer := s.observer.observeDrained ts
            (entry.attrs, Record.current (s.map.cells entry.bucket))
          drain := .reading ts rest noAttrVal }
  | close {ts : SystemTime} {noAttrVal : Option UInt64}
      (hreading : s.drain = .reading ts [] noAttrVal) :
      Moves s .drainStep
        { s with observer := s.observer.observeNoAttr ts noAttrVal, drain := .idle }
  | handOn (hidle : s.drain = .idle) :
      Moves s .exportSeries
        { s with
          observer := s.observer.take.1
          exported := s.exported ++ [s.observer.take.2] }

theorem moves_of_step {s next : Shared ι K} {label : Label ι K}
    (hstep : step cfg s label = some next) : Moves cfg s label next := by
  cases label with
  | add t value attrs =>
      simp only [step] at hstep
      split at hstep
      · rename_i hidle
        simp only [beginAdd] at hstep
        split at hstep
        · rename_i hempty
          obtain rfl := List.isEmpty_iff.mp hempty
          obtain rfl := Option.some_inj.mp hstep
          exact .addNoAttr value hidle
        · rename_i hempty
          split at hstep
          · simp at hstep
          · rename_i hlocked
            obtain rfl := Option.some_inj.mp hstep
            exact .obtain value hidle (by simpa using hempty) (by simpa using hlocked)
      · simp at hstep
      · simp at hstep
  | finishAdd t =>
      simp only [step] at hstep
      split at hstep
      · simp at hstep
      · rename_i hobtained
        obtain rfl := Option.some_inj.mp hstep
        exact .addTo hobtained
      · rename_i htouching
        obtain rfl := Option.some_inj.mp hstep
        exact .touch htouching
  | observe ts =>
      simp only [step] at hstep
      split at hstep
      · rename_i hidle
        obtain rfl := Option.some_inj.mp hstep
        exact .swap ts hidle
      · simp at hstep
  | drainStep =>
      simp only [step, drainStep] at hstep
      split at hstep
      · simp at hstep
      · rename_i hswapped
        obtain rfl := Option.some_inj.mp hstep
        exact .load hswapped
      · rename_i hloaded
        obtain rfl := Option.some_inj.mp hstep
        exact .swapFlag hloaded
      · rename_i hflagged
        obtain rfl := Option.some_inj.mp hstep
        exact .clear hflagged
      · rename_i hreading
        obtain rfl := Option.some_inj.mp hstep
        exact .read hreading
      · rename_i hreading
        obtain rfl := Option.some_inj.mp hstep
        exact .close hreading
  | exportSeries =>
      simp only [step] at hstep
      split at hstep
      · rename_i hidle
        obtain rfl := Option.some_inj.mp hstep
        exact .handOn hidle
      · simp at hstep

/-! ## Steps taken in a row -/

/-- The two steps of an add, taken in a row, are the add. -/
theorem run_add_alone {s : Shared ι K} {t : ι} (hidle : s.adders t = .idle)
    (hunlocked : s.drain.locked = false) (value : UInt64) (attrs : List K) :
    (step cfg).run s [.add t value attrs, .finishAdd t] =
      some { s with map := s.map.add cfg value attrs } := by
  have hadders :
      ∀ adder, Function.update (Function.update s.adders t adder) t .idle = s.adders := by
    intro adder
    rw [Function.update_idem, ← hidle, Function.update_eq_self]
  cases hempty : attrs.isEmpty with
  | true =>
      simp only [StepFn.run_cons, StepFn.run_nil, step, hidle, beginAdd, hempty, if_true,
        Option.bind_some, Function.update_self, hadders]
      rw [BucketMap.add, if_pos hempty]
      rfl
  | false =>
      simp only [StepFn.run_cons, StepFn.run_nil, step, hidle, beginAdd, hempty, hunlocked,
        Bool.false_eq_true, if_false, Option.bind_some, Function.update_self, hadders]
      rw [BucketMap.add, if_neg (by simp [hempty])]
      rfl

theorem run_reading {s : Shared ι K} (ts : SystemTime) (entries : List (CanonicalEntry K))
    (noAttrVal : Option UInt64) (hdrain : s.drain = .reading ts entries noAttrVal) :
    (step cfg).run s (List.replicate (entries.length + 1) .drainStep) =
      some
        { s with
          observer := ((entries.map fun e => (e.attrs, Record.current (s.map.cells e.bucket))).foldl
            (SyncObserver.observeDrained ts) s.observer).observeNoAttr ts noAttrVal
          drain := .idle } := by
  induction entries generalizing s with
  | nil => simp [List.replicate_succ, step, drainStep, hdrain]
  | cons entry rest ih =>
      rw [List.length_cons, List.replicate_succ, StepFn.run_cons]
      have hstep : step cfg s .drainStep =
          some
            { s with
              observer := s.observer.observeDrained ts
                (entry.attrs, Record.current (s.map.cells entry.bucket))
              drain := .reading ts rest noAttrVal } := by
        simp only [step, drainStep, hdrain]
      rw [hstep, Option.bind_some, ih rfl]
      rfl

/-- The steps of an observation, taken in a row, are the observation. -/
theorem run_observe_alone {s : Shared ι K} (hidle : s.drain = .idle)
    (hmode : s.observer.observeMode = .destructive) (ts : SystemTime) :
    (step cfg).run s
        (.observe ts :: List.replicate (s.map.canonical.elems.length + 4) .drainStep) =
      some { s with toObserved := s.toObserved.exec cfg (.observe (T := UInt64) ts) } := by
  have hobserve : s.observer.observe cfg ts s.map =
      SyncObserver.observeDestructive ts s.map s.observer := if_pos hmode
  rw [show s.map.canonical.elems.length + 4 = s.map.canonical.elems.length + 1 + 1 + 1 + 1 from rfl]
  rw [List.replicate_succ, List.replicate_succ, List.replicate_succ]
  simp only [StepFn.run_cons, step, hidle, drainStep, Option.bind_some]
  rw [run_reading cfg ts s.map.canonical.elems _ rfl, Observed.exec, hobserve]
  rfl

end Step

end Ohnotel.Draining
