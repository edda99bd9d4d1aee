/-
# A histogram cell under concurrency

The threads of a histogram cell share a pointer to its current content, which sits
behind a sequence lock.  An `add` loads the pointer and writes to what it found
there, field by field; a `take` swaps in a fresh content and reads the old one
through its lock; a `snapshot` loads the pointer and reads.  Contents are never
reused, so a pointer is a number.

The state also remembers what has happened: which adds have begun and finished on
each content, and which reads have returned.  Adds are numbered as they load the
pointer.  Nothing the code does depends on this record.
-/

import Ohnotel.Atomic.Histogram
import Ohnotel.Foundation.Projection
import Ohnotel.Lock

namespace Ohnotel.Atomic

open Foundation SeqLock

/-- The atomic words of a content. -/
inductive Field
  | sum
  | min
  | max
  | bucket (index : Nat)
  | count
  deriving DecidableEq

/-- What a field holds. -/
abbrev Field.Value (C : Type) : Field → Type
  | .sum | .min | .max => C
  | .bucket _ | .count => UInt64

/-- The words of a content, by name. -/
def State.field {C : Type} (s : State C) : ∀ field : Field, field.Value C
  | .sum => s.sum
  | .min => s.min
  | .max => s.max
  | .bucket index => s.bucketCounts.getD index 0
  | .count => s.count

/-- The fields that recording a value writes, in order. -/
def addFields (index : Nat) : List Field :=
  [.sum, .min, .max, .bucket index, .count]

theorem nodup_addFields (index : Nat) : (addFields index).Nodup := by
  simp [addFields]

section Measure

variable {T C : Type} [Measure T C]

/-- The write that recording a value makes to a field. -/
def Field.record : (field : Field) → T → field.Value C → field.Value C
  | .sum, value => fun cell => Record.add cell value
  | .min, value => fun cell => Scalar.fetchMin cell value
  | .max, value => fun cell => Scalar.fetchMax cell value
  | .bucket _, _ => fun count => count + 1
  | .count, _ => fun count => count + 1

/-- Load bucket counts one after the other. -/
def loadBuckets (next : List UInt64 → ReadProg (Field.Value C) (Snapshot T)) :
    List Nat → ReadProg (Field.Value C) (Snapshot T)
  | [] => next []
  | index :: rest =>
      .load (.bucket index) fun count => loadBuckets (fun counts => next (count :: counts)) rest

/-- `State::snapshot`, as the loads it makes: the least and the greatest are loaded
only where something was counted. -/
def snapshotProg (boundaries : Boundaries T) : ReadProg (Field.Value C) (Snapshot T) :=
  .load .count fun count =>
    loadBuckets (fun bucketCounts =>
      .load .sum fun sum =>
        if count == 0 then
          .ret ⟨boundaries.values, bucketCounts, count, Scalar.get sum, none, none⟩
        else
          .load .min fun min =>
            .load .max fun max =>
              .ret ⟨boundaries.values, bucketCounts, count, Scalar.get sum,
                some (Scalar.get min), some (Scalar.get max)⟩)
      (List.range (boundaries.values.length + 1))

omit [Measure T C] in
theorem eval_loadBuckets (next : List UInt64 → ReadProg (Field.Value C) (Snapshot T))
    (indices : List Nat) (inner : ∀ field, Field.Value C field) :
    (loadBuckets next indices).eval inner =
      (next (indices.map fun index => inner (.bucket index))).eval inner := by
  induction indices generalizing next with
  | nil => rfl
  | cons index rest ih => exact ih _

/-- What a read returns if no field changes meanwhile. -/
theorem eval_snapshotProg (boundaries : Boundaries T) (inner : ∀ field, Field.Value C field) :
    (snapshotProg boundaries).eval inner =
      { boundaries := boundaries.values
        bucketCounts := (List.range (boundaries.values.length + 1)).map fun index =>
          inner (.bucket index)
        count := inner .count
        sum := Scalar.get (inner .sum)
        min := if inner .count == 0 then none else some (Scalar.get (inner .min))
        max := if inner .count == 0 then none else some (Scalar.get (inner .max)) } := by
  rw [snapshotProg, ReadProg.eval, eval_loadBuckets, ReadProg.eval]
  split <;> simp_all [ReadProg.eval]

/-- The loads of a read make up the snapshot of the content. -/
theorem eval_snapshotProg_field (boundaries : Boundaries T) (s : State C)
    (hsized : s.bucketCounts.length = boundaries.values.length + 1) :
    (snapshotProg boundaries).eval s.field = s.snapshot boundaries := by
  rw [eval_snapshotProg, State.snapshot, ← hsized]
  congr 1
  apply List.ext_getElem
  · simp
  · intro index hleft hright
    simp [State.field, List.getD_eq_getElem?_getD, List.getElem?_eq_getElem hright]

namespace Concurrent

variable {ι : Type}

/-- An add: the number it got, the content it found, and what it records. -/
structure Added (T : Type) where
  id : Nat
  obj : Nat
  value : T
  deriving DecidableEq

/-- Where a thread is.  A read remembers how many adds had finished on its content
when it was called. -/
inductive Pc (T : Type)
  | idle
  | loaded (added : Added T)
  | adding (added : Added T) (left : List Field)
  | reading (obj : Nat) (drains : Bool) (since : Nat)

/-- A read that has returned: a `take` if it drains, else a `snapshot`. -/
structure Returned (T : Type) where
  obj : Nat
  drains : Bool
  since : Nat
  snapshot : Snapshot T

structure Shared (ι T C : Type) where
  locks : Nat → SeqLock.State ι (Field.Value C) (Snapshot T)
  current : Nat
  next : Nat
  pcs : ι → Pc T
  calls : Nat
  begun : List (Added T)
  finished : List (Added T)
  returned : List (Returned T)

/-- One atomic step of a thread. -/
inductive Label (ι T : Type)
  | add (t : ι) (value : T)
  | write (t : ι)
  | modify (t : ι)
  | finish (t : ι)
  | snapshot (t : ι)
  | take (t : ι)
  | step (t : ι)

/-- The adds of a record that are on one content. -/
def on (obj : Nat) (record : List (Added T)) : List (Added T) :=
  record.filter fun added => added.obj = obj

/-- A content nothing was recorded in, as a new lock holds it. -/
def fresh (ι : Type) (boundaries : Boundaries T) :
    SeqLock.State ι (Field.Value C) (Snapshot T) :=
  SeqLock.init ι (Snapshot T) (State.new T (boundaries.values.length + 1)).field

def init (ι : Type) (boundaries : Boundaries T) : Shared ι T C where
  locks _ := fresh ι boundaries
  current := 0
  next := 1
  pcs _ := .idle
  calls := 0
  begun := []
  finished := []
  returned := []

variable [DecidableEq ι] (boundaries : Boundaries T)

/-- A read is called on the current content. -/
def call (s : Shared ι T C) (t : ι) (drains : Bool) : Option (Shared ι T C) :=
  (SeqLock.step (s.locks s.current) (.read t (snapshotProg boundaries))).map fun lock =>
    { s with
      locks := Function.update s.locks s.current lock
      pcs := Function.update s.pcs t
        (.reading s.current drains (on s.current s.finished).length) }

def step (s : Shared ι T C) : Label ι T → Option (Shared ι T C)
  | .add t value =>
      match s.pcs t with
      | .idle =>
          if comparable value then
            some { s with
              pcs := Function.update s.pcs t (.loaded ⟨s.calls, s.current, value⟩)
              calls := s.calls + 1 }
          else some s
      | _ => none
  | .write t =>
      match s.pcs t with
      | .loaded added =>
          (SeqLock.step (s.locks added.obj) (.write t)).map fun lock =>
            { s with
              locks := Function.update s.locks added.obj lock
              pcs := Function.update s.pcs t
                (.adding added (addFields (bucketIndex boundaries added.value)))
              begun := s.begun ++ [added] }
      | _ => none
  | .modify t =>
      match s.pcs t with
      | .adding added (field :: left) =>
          (SeqLock.step (s.locks added.obj) (.modify t field (field.record added.value))).map
            fun lock =>
              { s with
                locks := Function.update s.locks added.obj lock
                pcs := Function.update s.pcs t (.adding added left) }
      | _ => none
  | .finish t =>
      match s.pcs t with
      | .adding added [] =>
          (SeqLock.step (s.locks added.obj) (.finish t)).map fun lock =>
            { s with
              locks := Function.update s.locks added.obj lock
              pcs := Function.update s.pcs t .idle
              finished := s.finished ++ [added] }
      | _ => none
  | .snapshot t =>
      match s.pcs t with
      | .idle => call boundaries s t false
      | _ => none
  | .take t =>
      match s.pcs t with
      | .idle =>
          (call boundaries s t true).map fun called =>
            { called with current := s.next, next := s.next + 1 }
      | _ => none
  | .step t =>
      match s.pcs t with
      | .reading obj drains since =>
          (SeqLock.step (s.locks obj) (.step t)).map fun lock =>
            match lock.pcs t with
            | .returned snapshot =>
                { s with
                  locks := Function.update s.locks obj lock
                  pcs := Function.update s.pcs t .idle
                  returned := s.returned ++ [⟨obj, drains, since, snapshot⟩] }
            | _ => { s with locks := Function.update s.locks obj lock }
      | _ => none

/-! ## What a step can do -/

variable {boundaries} {s s' : Shared ι T C} {t : ι}

theorem step_add {value : T} : step boundaries s (.add t value) = some s' ↔
    s.pcs t = .idle ∧
      s' = if comparable value then
        { s with
          pcs := Function.update s.pcs t (.loaded ⟨s.calls, s.current, value⟩)
          calls := s.calls + 1 } else s := by
  cases hpc : s.pcs t with
  | idle =>
      simp only [step, hpc, true_and]
      split <;> simp [eq_comm]
  | loaded | adding | reading => simp [step, hpc]

theorem step_write : step boundaries s (.write t) = some s' ↔
    ∃ added lock, s.pcs t = .loaded added ∧
      SeqLock.step (s.locks added.obj) (.write t) = some lock ∧
      s' = { s with
        locks := Function.update s.locks added.obj lock
        pcs := Function.update s.pcs t
          (.adding added (addFields (bucketIndex boundaries added.value)))
        begun := s.begun ++ [added] } := by
  cases hpc : s.pcs t with
  | loaded added => simp [step, hpc, Option.map_eq_some_iff, @eq_comm _ _ s']
  | idle | adding | reading => simp [step, hpc]

theorem step_modify : step boundaries s (.modify t) = some s' ↔
    ∃ added field left lock, s.pcs t = .adding added (field :: left) ∧
      SeqLock.step (s.locks added.obj) (.modify t field (field.record added.value)) =
        some lock ∧
      s' = { s with
        locks := Function.update s.locks added.obj lock
        pcs := Function.update s.pcs t (.adding added left) } := by
  cases hpc : s.pcs t with
  | adding added left =>
      cases left with
      | nil => simp [step, hpc]
      | cons field left => simp [step, hpc, Option.map_eq_some_iff, @eq_comm _ _ s']
  | idle | loaded | reading => simp [step, hpc]

theorem step_finish : step boundaries s (.finish t) = some s' ↔
    ∃ added lock, s.pcs t = .adding added [] ∧
      SeqLock.step (s.locks added.obj) (.finish t) = some lock ∧
      s' = { s with
        locks := Function.update s.locks added.obj lock
        pcs := Function.update s.pcs t .idle
        finished := s.finished ++ [added] } := by
  cases hpc : s.pcs t with
  | adding added left =>
      cases left with
      | nil => simp [step, hpc, Option.map_eq_some_iff, @eq_comm _ _ s']
      | cons field left => simp [step, hpc]
  | idle | loaded | reading => simp [step, hpc]

theorem call_eq_some {drains : Bool} : call boundaries s t drains = some s' ↔
    ∃ lock, SeqLock.step (s.locks s.current) (.read t (snapshotProg boundaries)) = some lock ∧
      s' = { s with
        locks := Function.update s.locks s.current lock
        pcs := Function.update s.pcs t
          (.reading s.current drains (on s.current s.finished).length) } := by
  simp only [call, Option.map_eq_some_iff, @eq_comm _ _ s']

theorem step_snapshot : step boundaries s (.snapshot t) = some s' ↔
    s.pcs t = .idle ∧ call boundaries s t false = some s' := by
  cases hpc : s.pcs t <;> simp [step, hpc]

theorem step_take : step boundaries s (.take t) = some s' ↔
    s.pcs t = .idle ∧ ∃ called, call boundaries s t true = some called ∧
      s' = { called with current := s.next, next := s.next + 1 } := by
  cases hpc : s.pcs t <;> simp [step, hpc, Option.map_eq_some_iff, @eq_comm _ _ s']

/-- A read takes a step; if it is the last, the read returns. -/
theorem step_step : step boundaries s (.step t) = some s' ↔
    ∃ obj drains since lock, s.pcs t = .reading obj drains since ∧
      SeqLock.step (s.locks obj) (.step t) = some lock ∧
      ((∃ snapshot, lock.pcs t = .returned snapshot ∧
          s' = { s with
            locks := Function.update s.locks obj lock
            pcs := Function.update s.pcs t .idle
            returned := s.returned ++ [⟨obj, drains, since, snapshot⟩] }) ∨
        ((∀ snapshot, lock.pcs t ≠ .returned snapshot) ∧
          s' = { s with locks := Function.update s.locks obj lock })) := by
  cases hpc : s.pcs t with
  | reading obj drains since =>
      simp only [step, hpc, Option.map_eq_some_iff]
      constructor
      · rintro ⟨lock, hlock, heq⟩
        refine ⟨obj, drains, since, lock, rfl, hlock, ?_⟩
        cases hread : lock.pcs t with
        | returned snapshot => exact Or.inl ⟨snapshot, rfl, by simpa [hread] using heq.symm⟩
        | idle | writing | loadEnd | loadStart | inner =>
            exact Or.inr ⟨by simp, by simpa [hread] using heq.symm⟩
      · rintro ⟨_, _, _, lock, heq, hlock, hcases⟩
        cases heq
        refine ⟨lock, hlock, ?_⟩
        rcases hcases with ⟨snapshot, hread, rfl⟩ | ⟨hread, rfl⟩
        · rw [hread]
        · cases hpcT : lock.pcs t with
          | returned snapshot => exact absurd hpcT (hread snapshot)
          | idle | writing | loadEnd | loadStart | inner => rfl
  | idle | loaded | adding => simp [step, hpc]

end Concurrent

end Measure

end Ohnotel.Atomic
