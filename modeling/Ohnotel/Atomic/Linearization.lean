/-
# Threads that share an atomic float

The other modules take the operations on a scalar cell to be atomic.  Those that change a
float are not: they are a loop of a load and weak exchanges.  This module takes the loop
apart.  Threads call `update_with`, `swap`, `store` and `load` on one word, an access of the
word is one step, and a weak exchange may fail although the word is the expected one.

An access leaves the word alone and the call unfinished, or it does all that the call does.
So the steps are moves of an atomic object, and the calls are linearizable.  The operations
of `AtomicF64` make at most one call each; made one after the other, the calls are the
operations of the scalar that the other modules use.
-/

import Ohnotel.Atomic.Float
import Ohnotel.Foundation.Linearization
import Ohnotel.Foundation.Projection

open Foundation

namespace Ohnotel.Atomic.AtomicF64

variable {ι W : Type}

/-- What a thread calls on the word. -/
inductive Call (W : Type)
  | updateWith (f : W → W)
  | swap (value : W)
  | store (value : W)
  | load

/-- What a call does to the word if no other thread interferes, and what it returns. -/
def perform (word : W) : Call W → W × Option W
  | .updateWith f => (f word, none)
  | .swap value => (value, some word)
  | .store value => (value, none)
  | .load => (word, some word)

/-- Where a thread stands. -/
inductive Pc (W : Type)
  | idle
  | called (id : Nat) (call : Call W)
  /-- In the loop, about to exchange `old` for `f old`. -/
  | exchanging (id : Nat) (f : W → W) (old : W)
  | returning (call : Completed (Call W) (Option W))

/-- The word, the number of calls made so far, and the threads. -/
structure Shared (ι W : Type) where
  word : W
  calls : Nat
  pcs : ι → Pc W

inductive Label (ι W : Type)
  | invoke (t : ι) (call : Call W)
  /-- The next access of the word; `fails` if it is an exchange that fails spuriously. -/
  | access (t : ι) (fails : Bool)
  | respond (t : ι)

def start (ι : Type) (word : W) : Shared ι W := ⟨word, 0, fun _ => .idle⟩

section Steps

variable [DecidableEq W]

/-- The body of the loop up to the exchange. -/
def loop (id : Nat) (f : W → W) (old : W) : Pc W :=
  if f old = old then .returning ⟨id, .updateWith f, none⟩ else .exchanging id f old

/-- One access of the word, and where it leaves the thread. -/
def access (word : W) (fails : Bool) : Pc W → Option (W × Pc W)
  | .idle => none
  | .called id (.updateWith f) => some (word, loop id f word)
  | .called id (.swap value) => some (value, .returning ⟨id, .swap value, some word⟩)
  | .called id (.store value) => some (value, .returning ⟨id, .store value, none⟩)
  | .called id .load => some (word, .returning ⟨id, .load, some word⟩)
  | .exchanging id f old =>
      if word = old ∧ fails = false then some (f old, .returning ⟨id, .updateWith f, none⟩)
      else some (word, loop id f word)
  | .returning _ => none

variable [DecidableEq ι]

def step (s : Shared ι W) : Label ι W → Option (Shared ι W)
  | .invoke t call =>
      match s.pcs t with
      | .idle => some
          { s with
            calls := s.calls + 1
            pcs := Function.update s.pcs t (.called s.calls call) }
      | _ => none
  | .access t fails =>
      (access s.word fails (s.pcs t)).map fun after =>
        { s with
          word := after.1
          pcs := Function.update s.pcs t after.2 }
  | .respond t =>
      match s.pcs t with
      | .returning _ => some { s with pcs := Function.update s.pcs t .idle }
      | _ => none

/-- What a caller sees of a step. -/
def seen (s : Shared ι W) : Label ι W → Option (CallEvent (Call W) (Option W))
  | .invoke _ call => some (.invoke s.calls call)
  | .access _ _ => none
  | .respond t =>
      match s.pcs t with
      | .returning call => some (.respond call.id call.out)
      | _ => none

end Steps

/-! ## The steps are moves of an atomic object -/

section Refinement

variable [DecidableEq W] [DecidableEq ι]

/-- What is traced of a step: a call takes effect at its last access. -/
def event (s : Shared ι W) : Label ι W → Option (TraceEvent (Call W) (Option W))
  | .invoke _ call => some (.invoke s.calls call)
  | .access t fails =>
      match access s.word fails (s.pcs t) with
      | some (_, .returning call) => some (.effect call)
      | _ => none
  | .respond t =>
      match s.pcs t with
      | .returning call => some (.respond call.id call.out)
      | _ => none

def Pc.phase : Pc W → Phase (Call W) (Option W)
  | idle => .idle
  | called id call => .pending id call
  | exchanging id f _ => .pending id (.updateWith f)
  | returning call => .effected call

/-- The atomic object that the word and the threads stand for. -/
def Shared.object (s : Shared ι W) : AtomicObject ι (Call W) (Option W) W :=
  ⟨s.word, s.calls, fun t => (s.pcs t).phase⟩

omit [DecidableEq W] [DecidableEq ι] in
@[simp]
theorem phases_object (s : Shared ι W) (t : ι) : s.object.phases t = (s.pcs t).phase := rfl

omit [DecidableEq ι] in
theorem loop_cases (id : Nat) (f : W → W) (word : W) :
    (loop id f word).phase = .pending id (.updateWith f) ∨
      f word = word ∧ loop id f word = .returning ⟨id, .updateWith f, none⟩ := by
  by_cases hf : f word = word
  · exact .inr ⟨hf, by rw [loop, if_pos hf]⟩
  · exact .inl (by rw [loop, if_neg hf]; rfl)

omit [DecidableEq ι] in
/-- An access leaves the word alone and the call unfinished, or does all that the call
does. -/
theorem access_cases {word word' : W} {fails : Bool} {pc pc' : Pc W}
    (haccess : access word fails pc = some (word', pc')) :
    ∃ id call, pc.phase = .pending id call ∧
      (word' = word ∧ pc'.phase = .pending id call ∨
        word' = (perform word call).1 ∧ pc' = .returning ⟨id, call, (perform word call).2⟩) := by
  have hloop : ∀ id f, some (word, loop id f word) = some (word', pc') →
      word' = word ∧ pc'.phase = .pending id (.updateWith f) ∨
        word' = f word ∧ pc' = .returning ⟨id, .updateWith f, none⟩ := by
    intro id f h
    obtain ⟨rfl, rfl⟩ := Prod.mk.inj (Option.some.inj h)
    -- An early return leaves the word as it is, and so would the function.
    rcases loop_cases id f word with hpending | ⟨hsame, hreturning⟩
    · exact .inl ⟨rfl, hpending⟩
    · exact .inr ⟨hsame.symm, hreturning⟩
  cases pc with
  | idle => cases haccess
  | returning call => cases haccess
  | called id call =>
      refine ⟨id, call, rfl, ?_⟩
      cases call with
      | updateWith f => exact hloop id f haccess
      | swap value =>
          obtain ⟨rfl, rfl⟩ := Prod.mk.inj (Option.some.inj haccess)
          exact .inr ⟨rfl, rfl⟩
      | store value =>
          obtain ⟨rfl, rfl⟩ := Prod.mk.inj (Option.some.inj haccess)
          exact .inr ⟨rfl, rfl⟩
      | load =>
          obtain ⟨rfl, rfl⟩ := Prod.mk.inj (Option.some.inj haccess)
          exact .inr ⟨rfl, rfl⟩
  | exchanging id f old =>
      refine ⟨id, .updateWith f, rfl, ?_⟩
      rw [access] at haccess
      split at haccess
      case isTrue h =>
        obtain ⟨rfl, rfl⟩ := Prod.mk.inj (Option.some.inj haccess)
        -- The word is `old`, whatever it was in between.
        exact .inr ⟨by rw [perform, h.1], rfl⟩
      case isFalse => exact hloop id f haccess

omit [DecidableEq W] in
theorem object_update (word : W) (calls : Nat) (pcs : ι → Pc W) (t : ι) (pc : Pc W) :
    (⟨word, calls, Function.update pcs t pc⟩ : Shared ι W).object =
      ⟨word, calls, Function.update (fun t => (pcs t).phase) t pc.phase⟩ := by
  rw [Shared.object]
  congr 1
  funext t'
  exact Function.apply_update (fun _ => Pc.phase) pcs t pc t'

/-- Every step of the threads is a move of the atomic object. -/
theorem moves_of_step {s s' : Shared ι W} {label : Label ι W} (hstep : step s label = some s') :
    Moves perform s.object (event s label) s'.object := by
  cases label with
  | invoke t call =>
      cases hpc : s.pcs t with
      | idle =>
          simp only [step, hpc, Option.some.injEq] at hstep
          subst hstep
          rw [object_update]
          exact .invoke t call (by rw [phases_object, hpc, Pc.phase])
      | called id call => simp [step, hpc] at hstep
      | exchanging id f old => simp [step, hpc] at hstep
      | returning call => simp [step, hpc] at hstep
  | access t fails =>
      obtain ⟨⟨word, pc⟩, haccess, rfl⟩ := Option.map_eq_some_iff.mp hstep
      obtain ⟨id, call, hphase, ⟨rfl, hpending⟩ | ⟨rfl, rfl⟩⟩ := access_cases haccess
      · have hevent : event s (.access t fails) = none := by
          rw [event, haccess]
          cases pc with
          | returning call => cases hpending
          | idle | called | exchanging => rfl
        rw [hevent, object_update, hpending, ← hphase, Function.update_eq_self]
        exact .stutter
      · have hevent : event s (.access t fails) =
            some (.effect ⟨id, call, (perform s.word call).2⟩) := by
          rw [event, haccess]
        rw [hevent, object_update]
        exact .effect t id call hphase
  | respond t =>
      cases hpc : s.pcs t with
      | returning call =>
          simp only [step, hpc, Option.some.injEq] at hstep
          subst hstep
          have hevent : event s (.respond t) = some (.respond call.id call.out) := by
            rw [event, hpc]
          rw [hevent, object_update]
          exact .respond t call (by rw [phases_object, hpc, Pc.phase])
      | idle => simp [step, hpc] at hstep
      | called id call => simp [step, hpc] at hstep
      | exchanging id f old => simp [step, hpc] at hstep

/-- The trace accounts for every state that a run reaches. -/
theorem accounted (word : W) {labels : List (Label ι W)} {last : Shared ι W}
    (hrun : StepFn.run step (start ι word) labels = some last) :
    Accounted perform word (StepFn.trace step event (start ι word) labels) last.object := by
  apply StepFn.run_induction (motive := fun labels last =>
    Accounted perform word (StepFn.trace step event (start ι word) labels) last.object) _ _ hrun
  · exact Accounted.start word 0
  · intro labels s label s' hrun ih hstep
    rw [StepFn.trace_concat hrun hstep]
    exact ih.moves (moves_of_step hstep)

/-- Callers see the trace without the effects. -/
theorem history_trace (s : Shared ι W) (labels : List (Label ι W)) :
    history (StepFn.trace step event s labels) = StepFn.trace step seen s labels := by
  rw [history, StepFn.filterMap_trace]
  congr 1
  funext s label
  cases label with
  | invoke t call => rfl
  | access t fails =>
      rw [event, seen]
      split <;> rfl
  | respond t =>
      rw [event, seen]
      cases s.pcs t <;> rfl

end Refinement

/-- The calls on an atomic float are linearizable, at every point of every run: one order of
calls agrees with what the callers saw and leads to the word.  Its calls are those that
responded and those whose last access was made. -/
theorem linearizable [DecidableEq W] [DecidableEq ι] (word : W) {labels : List (Label ι W)}
    {last : Shared ι W} (hrun : StepFn.run step (start ι word) labels = some last) :
    ∃ order, Linearization perform (StepFn.trace step seen (start ι word) labels) word
        last.word order ∧
      ∀ call ∈ order, .respond call.id call.out ∈ StepFn.trace step seen (start ι word) labels ∨
        ∃ t, last.pcs t = .returning call := by
  have h := accounted word hrun
  rw [← history_trace]
  refine ⟨_, h.linearization, ?_⟩
  intro call hcall
  apply (h.answered call (mem_effects_iff.mp hcall)).imp respond_mem_history_iff.mpr
  rintro ⟨t, ht⟩
  refine ⟨t, ?_⟩
  rw [phases_object] at ht
  cases hpc : last.pcs t with
  | returning other =>
      rw [hpc, Pc.phase] at ht
      rw [Phase.effected.inj ht]
  | idle | called | exchanging => simp [hpc, Pc.phase] at ht

/-- While one thread adds two, another stores four in between and has an exchange fail; the
last call returns early. -/
def race : List (Label (Fin 3) UInt64) :=
  [.invoke 0 (.updateWith (· + 2)), .access 0 false, .invoke 1 (.store 4), .access 1 false,
    .access 0 false, .access 0 true, .respond 1, .access 0 false, .respond 0,
    .invoke 2 (.updateWith (max · 5)), .invoke 1 (.swap 9), .access 2 false, .access 1 false,
    .respond 2, .respond 1]

theorem linearizable_race :
    ∃ last, StepFn.run step (start (Fin 3) 1) race = some last ∧ last.word = 9 ∧
      ∃ order, Linearization perform (StepFn.trace step seen (start (Fin 3) 1) race) 1
          last.word order ∧
        ∀ call ∈ order, .respond call.id call.out ∈ StepFn.trace step seen (start (Fin 3) 1) race ∨
          ∃ t, last.pcs t = .returning call :=
  ⟨_, rfl, rfl, linearizable 1 rfl⟩

/-! ## The operations of `AtomicF64` -/

/-- `Record::add`. -/
def add (value : F64) : Option (Call F64) :=
  if value.isNan then none else some (.updateWith value.plus)

/-- `Record::sub`. -/
def sub (value : F64) : Option (Call F64) := add value.neg

/-- `Record::clear`. -/
def clear : Call F64 := .store F64.zero

/-- `Scalar::load`. -/
def load : Call F64 := .load

/-- `Record::current`. -/
def current : Call F64 := load

/-- `Scalar::fetch_min`. -/
def fetchMin (value : F64) : Option (Call F64) :=
  if value.isNan then none else some (.updateWith value.orLess)

/-- `Scalar::fetch_max`. -/
def fetchMax (value : F64) : Option (Call F64) :=
  if value.isNan then none else some (.updateWith value.orMore)

/-- `Scalar::swap`. -/
def swap (value : F64) : Call F64 := .swap value

/-- `Scalar::store`. -/
def store (value : F64) : Option (Call F64) :=
  if value.isNan then none else some (.store value)

/-- `Scalar::reset`. -/
def reset : Call F64 := swap F64.zero

/-- An operation of `AtomicF64` with its argument. -/
inductive Operation
  | add (value : F64)
  | sub (value : F64)
  | clear
  | current
  | fetchMin (value : F64)
  | fetchMax (value : F64)
  | swap (value : F64)
  | load
  | store (value : F64)
  | reset

namespace Operation

/-- The call that the operation makes; what is not a number is ignored. -/
def call : Operation → Option (Call F64)
  | add value => AtomicF64.add value
  | sub value => AtomicF64.sub value
  | clear => some AtomicF64.clear
  | current => some AtomicF64.current
  | fetchMin value => AtomicF64.fetchMin value
  | fetchMax value => AtomicF64.fetchMax value
  | swap value => some (AtomicF64.swap value)
  | load => some AtomicF64.load
  | store value => AtomicF64.store value
  | reset => some AtomicF64.reset

/-- The operation of the scalar. -/
def exec (cell : F64) : Operation → F64 × Option F64
  | add value => (Record.add cell value, none)
  | sub value => (Record.sub cell value, none)
  | clear => (Record.clear cell, none)
  | current => (cell, some (Record.current cell))
  | fetchMin value => (Scalar.fetchMin cell value, none)
  | fetchMax value => (Scalar.fetchMax cell value, none)
  | swap value => ((Scalar.swap cell value).2, some (Scalar.swap cell value).1)
  | load => (cell, some (Scalar.load cell))
  | store value => (Scalar.store cell value, none)
  | reset => ((Scalar.reset cell).2, some (Scalar.reset cell).1)

/-- Operations that make their calls one after the other are those of the scalar. -/
theorem exec_eq (cell : F64) (operation : Operation) :
    operation.exec cell = operation.call.elim (cell, none) (perform cell) := by
  have hguarded : ∀ (value : F64) (update : F64 → F64) (call : Call F64),
      perform cell call = (update cell, none) →
      (F64.unlessNan value update cell, none) =
        (if value.isNan then none else some call).elim (cell, none) (perform cell) := by
    intro value update call hcall
    rw [F64.unlessNan]
    split
    · rfl
    · exact hcall.symm
  cases operation with
  | add value => exact hguarded value _ _ rfl
  | sub value => exact hguarded value.neg _ _ rfl
  | fetchMin value => exact hguarded value _ _ rfl
  | fetchMax value => exact hguarded value _ _ rfl
  | store value => exact hguarded value _ _ rfl
  | clear | current | swap | load | reset => rfl

end Operation

end Ohnotel.Atomic.AtomicF64
