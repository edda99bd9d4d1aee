/-
# Linearization

Calls that overlap are told in a history of their invocations and responses.  A
linearization puts them in one order that keeps what the history says of real time, in
which they can be performed one after the other with the same results.

If every call takes effect at an instant between its invocation and its response, then the
order of those instants is a linearization.  The module supplies traces with these
instants and this fact.  It also supplies the object that performs each call at one
instant, so that a program is shown linearizable by showing that its steps are moves of
such an object.  It knows nothing of the program that is run.
-/

import Mathlib.Data.List.Basic
import Mathlib.Logic.Function.Basic

namespace Foundation

universe u v w x

/-- A call, and what it returned. -/
structure Completed (Op : Type u) (Out : Type v) where
  id : Nat
  op : Op
  out : Out

/-- What can be seen of calls. -/
inductive CallEvent (Op : Type u) (Out : Type v)
  | invoke (id : Nat) (op : Op)
  | respond (id : Nat) (out : Out)

/-- What can be seen of calls, and when each took effect. -/
inductive TraceEvent (Op : Type u) (Out : Type v)
  | invoke (id : Nat) (op : Op)
  | effect (call : Completed Op Out)
  | respond (id : Nat) (out : Out)

variable {Op : Type u} {Out : Type v} {W : Type w}

namespace TraceEvent

def seen : TraceEvent Op Out → Option (CallEvent Op Out)
  | invoke id op => some (.invoke id op)
  | effect _ => none
  | respond id out => some (.respond id out)

def call : TraceEvent Op Out → Option (Completed Op Out)
  | effect call => some call
  | invoke .. | respond .. => none

end TraceEvent

/-- What can be seen of a trace. -/
def history (trace : List (TraceEvent Op Out)) : List (CallEvent Op Out) :=
  trace.filterMap TraceEvent.seen

/-- The calls of a trace, in the order in which they took effect. -/
def effects (trace : List (TraceEvent Op Out)) : List (Completed Op Out) :=
  trace.filterMap TraceEvent.call

/-- Performed one after the other, calls return what they returned and lead from one state
to another. -/
def Sequential (apply : W → Op → W × Out) : W → List (Completed Op Out) → W → Prop
  | state, [], last => state = last
  | state, call :: rest, last =>
      (apply state call.op).2 = call.out ∧ Sequential apply (apply state call.op).1 rest last

theorem Sequential.concat {apply : W → Op → W × Out} {first state : W}
    {calls : List (Completed Op Out)} (h : Sequential apply first calls state)
    {call : Completed Op Out} (hout : (apply state call.op).2 = call.out) :
    Sequential apply first (calls ++ [call]) (apply state call.op).1 := by
  induction calls generalizing first with
  | nil =>
      obtain rfl : first = state := h
      exact ⟨hout, rfl⟩
  | cons earlier rest ih => exact ⟨h.1, ih h.2⟩

/-- An order of calls that agrees with a history. -/
structure Linearization (apply : W → Op → W × Out) (history : List (CallEvent Op Out))
    (first last : W) (order : List (Completed Op Out)) : Prop where
  sequential : Sequential apply first order last
  once : (order.map Completed.id).Nodup
  invoked : ∀ call ∈ order, .invoke call.id call.op ∈ history
  completed : ∀ id out, .respond id out ∈ history → ∃ op, ⟨id, op, out⟩ ∈ order
  realTime : ∀ earlier ∈ order, ∀ later ∈ order,
    [.respond earlier.id earlier.out, .invoke later.id later.op].Sublist history →
      [earlier, later].Sublist order

/-! ## Traces -/

/-- Every call takes effect once, after its invocation and before its response. -/
inductive Ordered : List (TraceEvent Op Out) → Prop
  | nil : Ordered []
  | invoke {trace : List (TraceEvent Op Out)} (h : Ordered trace) (id : Nat) (op : Op)
      (fresh : ∀ other, .invoke id other ∉ trace) : Ordered (trace ++ [.invoke id op])
  | effect {trace : List (TraceEvent Op Out)} (h : Ordered trace) (call : Completed Op Out)
      (invoked : .invoke call.id call.op ∈ trace)
      (fresh : ∀ other, .effect other ∈ trace → other.id ≠ call.id) :
      Ordered (trace ++ [.effect call])
  | respond {trace : List (TraceEvent Op Out)} (h : Ordered trace) (call : Completed Op Out)
      (effected : .effect call ∈ trace) : Ordered (trace ++ [.respond call.id call.out])

@[simp]
theorem mem_effects_iff {trace : List (TraceEvent Op Out)} {call : Completed Op Out} :
    call ∈ effects trace ↔ .effect call ∈ trace := by
  simp only [effects, List.mem_filterMap]
  constructor
  · rintro ⟨event, hmem, hcall⟩
    cases event with
    | effect other =>
        obtain rfl := Option.some.inj hcall
        exact hmem
    | invoke id op => simp [TraceEvent.call] at hcall
    | respond id out => simp [TraceEvent.call] at hcall
  · exact fun hmem => ⟨_, hmem, rfl⟩

@[simp]
theorem invoke_mem_history_iff {trace : List (TraceEvent Op Out)} {id : Nat} {op : Op} :
    .invoke id op ∈ history trace ↔ .invoke id op ∈ trace := by
  simp only [history, List.mem_filterMap]
  constructor
  · rintro ⟨event, hmem, hseen⟩
    cases event <;> simp_all [TraceEvent.seen]
  · exact fun hmem => ⟨_, hmem, rfl⟩

@[simp]
theorem respond_mem_history_iff {trace : List (TraceEvent Op Out)} {id : Nat} {out : Out} :
    .respond id out ∈ history trace ↔ .respond id out ∈ trace := by
  simp only [history, List.mem_filterMap]
  constructor
  · rintro ⟨event, hmem, hseen⟩
    cases event <;> simp_all [TraceEvent.seen]
  · exact fun hmem => ⟨_, hmem, rfl⟩

theorem history_concat (trace : List (TraceEvent Op Out)) (event : TraceEvent Op Out) :
    history (trace ++ [event]) = history trace ++ event.seen.toList := by
  rw [history, List.filterMap_append]
  cases event <;> rfl

theorem effects_concat (trace : List (TraceEvent Op Out)) (event : TraceEvent Op Out) :
    effects (trace ++ [event]) = effects trace ++ event.call.toList := by
  rw [effects, List.filterMap_append]
  cases event <;> rfl

theorem history_concat_of_seen {trace : List (TraceEvent Op Out)} {event : TraceEvent Op Out}
    (h : event.seen = none) : history (trace ++ [event]) = history trace := by
  rw [history_concat, h, Option.toList_none, List.append_nil]

theorem effects_concat_of_call {trace : List (TraceEvent Op Out)} {event : TraceEvent Op Out}
    (h : event.call = none) : effects (trace ++ [event]) = effects trace := by
  rw [effects_concat, h, Option.toList_none, List.append_nil]

/-- Where a pair can stand in a list with one more element. -/
theorem pair_sublist_concat {α : Type u} {first second last : α} {l : List α} :
    [first, second].Sublist (l ++ [last]) ↔
      [first, second].Sublist l ∨ first ∈ l ∧ second = last := by
  constructor
  · intro h
    obtain ⟨left, right, hsplit, hleft, hright⟩ := List.sublist_append_iff.mp h
    cases right with
    | nil =>
        rw [List.append_nil] at hsplit
        subst hsplit
        exact .inl hleft
    | cons head tail =>
        -- The last element matches at most one of the pair, and then the second.
        obtain ⟨rfl, rfl⟩ : head = last ∧ tail = [] := by simpa using hright
        have hpair : [first] ++ [second] = left ++ [head] := hsplit
        obtain ⟨hfirst, hsecond⟩ := List.append_inj' hpair rfl
        subst hfirst
        exact .inr ⟨List.singleton_sublist.mp hleft, List.singleton_injective hsecond⟩
  · rintro (h | ⟨hmem, rfl⟩)
    · exact h.trans (List.sublist_append_left l [last])
    · exact (List.singleton_sublist.mpr hmem).append (List.Sublist.refl [second])

namespace Ordered

variable {trace : List (TraceEvent Op Out)}

/-- A call that took effect was invoked. -/
theorem invoked (h : Ordered trace) {call : Completed Op Out} (hcall : .effect call ∈ trace) :
    .invoke call.id call.op ∈ trace := by
  induction h with
  | nil => simp at hcall
  | invoke _ id op _ ih =>
      simp only [List.mem_append, List.mem_singleton, reduceCtorEq, or_false] at hcall
      exact List.mem_append_left _ (ih hcall)
  | effect _ other hinvoked _ ih =>
      rcases List.mem_append.mp hcall with hcall | hcall
      · exact List.mem_append_left _ (ih hcall)
      · obtain rfl := TraceEvent.effect.inj (List.mem_singleton.mp hcall)
        exact List.mem_append_left _ hinvoked
  | respond _ other _ ih =>
      simp only [List.mem_append, List.mem_singleton, reduceCtorEq, or_false] at hcall
      exact List.mem_append_left _ (ih hcall)

/-- A call that responded took effect. -/
theorem effected (h : Ordered trace) {id : Nat} {out : Out} (hrespond : .respond id out ∈ trace) :
    ∃ op, .effect ⟨id, op, out⟩ ∈ trace := by
  induction h with
  | nil => simp at hrespond
  | invoke _ other op _ ih =>
      simp only [List.mem_append, List.mem_singleton, reduceCtorEq, or_false] at hrespond
      exact (ih hrespond).imp fun _ => List.mem_append_left _
  | effect _ call _ _ ih =>
      simp only [List.mem_append, List.mem_singleton, reduceCtorEq, or_false] at hrespond
      exact (ih hrespond).imp fun _ => List.mem_append_left _
  | respond _ call heffected ih =>
      rcases List.mem_append.mp hrespond with hrespond | hrespond
      · exact (ih hrespond).imp fun _ => List.mem_append_left _
      · obtain ⟨rfl, rfl⟩ := TraceEvent.respond.inj (List.mem_singleton.mp hrespond)
        exact ⟨call.op, List.mem_append_left _ heffected⟩

theorem nodup_effects (h : Ordered trace) : ((effects trace).map Completed.id).Nodup := by
  induction h with
  | nil => exact List.nodup_nil
  | invoke _ id op _ ih =>
      rw [effects_concat_of_call rfl]
      exact ih
  | effect _ call _ fresh ih =>
      rw [effects_concat, List.map_append, List.nodup_append]
      refine ⟨ih, List.pairwise_singleton _ call.id, ?_⟩
      intro id hid _ hlast
      obtain rfl := List.mem_singleton.mp hlast
      obtain ⟨other, hother, rfl⟩ := List.mem_map.mp hid
      exact fresh other (mem_effects_iff.mp hother)
  | respond _ call _ ih =>
      rw [effects_concat_of_call rfl]
      exact ih

/-- If a call responded before another was invoked, it took effect before the other. -/
theorem effects_sublist (h : Ordered trace) {earlier later : Completed Op Out}
    (hearlier : .effect earlier ∈ trace) (hlater : .effect later ∈ trace)
    (hbefore : [.respond earlier.id earlier.out, .invoke later.id later.op].Sublist
      (history trace)) : [earlier, later].Sublist (effects trace) := by
  induction h with
  | nil => simp at hearlier
  | invoke h id op fresh ih =>
      simp only [List.mem_append, List.mem_singleton, reduceCtorEq, or_false] at hearlier hlater
      rw [effects_concat_of_call rfl]
      rw [history_concat] at hbefore
      rcases pair_sublist_concat.mp hbefore with hbefore | ⟨_, hlast⟩
      · exact ih hearlier hlater hbefore
      -- The later call took effect, so it was invoked before this.
      · obtain ⟨rfl, rfl⟩ := CallEvent.invoke.inj hlast
        exact absurd (h.invoked hlater) (fresh later.op)
  | @effect trace h call _ fresh ih =>
      rw [history_concat_of_seen rfl] at hbefore
      rw [effects_concat]
      -- The earlier call responded, so its effect is not this one.
      have hresponded : .respond earlier.id earlier.out ∈ trace :=
        respond_mem_history_iff.mp (hbefore.subset List.mem_cons_self)
      have hold : .effect earlier ∈ trace := by
        rcases List.mem_append.mp hearlier with hold | hnew
        · exact hold
        · obtain rfl := TraceEvent.effect.inj (List.mem_singleton.mp hnew)
          obtain ⟨op, heffect⟩ := h.effected hresponded
          exact absurd rfl (fresh ⟨earlier.id, op, earlier.out⟩ heffect)
      apply pair_sublist_concat.mpr
      rcases List.mem_append.mp hlater with hlater | hlater
      · exact .inl (ih hold hlater hbefore)
      · exact .inr ⟨mem_effects_iff.mpr hold,
          TraceEvent.effect.inj (List.mem_singleton.mp hlater)⟩
  | respond _ call _ ih =>
      simp only [List.mem_append, List.mem_singleton, reduceCtorEq, or_false] at hearlier hlater
      rw [effects_concat_of_call rfl]
      rw [history_concat] at hbefore
      rcases pair_sublist_concat.mp hbefore with hbefore | ⟨_, hlast⟩
      · exact ih hearlier hlater hbefore
      · cases hlast

/-- The order in which calls took effect is a linearization, if they can be performed in
it. -/
theorem linearization (h : Ordered trace) {apply : W → Op → W × Out} {first last : W}
    (hsequential : Sequential apply first (effects trace) last) :
    Linearization apply (history trace) first last (effects trace) where
  sequential := hsequential
  once := h.nodup_effects
  invoked call hcall := invoke_mem_history_iff.mpr (h.invoked (mem_effects_iff.mp hcall))
  completed id out hrespond := by
    obtain ⟨op, heffect⟩ := h.effected (respond_mem_history_iff.mp hrespond)
    exact ⟨op, mem_effects_iff.mpr heffect⟩
  realTime earlier hearlier later hlater hbefore :=
    h.effects_sublist (mem_effects_iff.mp hearlier) (mem_effects_iff.mp hlater) hbefore

end Ordered

/-! ## Atomic objects -/

/-- What a thread is doing with an object. -/
inductive Phase (Op : Type u) (Out : Type v)
  | idle
  | pending (id : Nat) (op : Op)
  | effected (call : Completed Op Out)

/-- An object that threads call, and that performs each call at one instant. -/
structure AtomicObject (ι : Type x) (Op : Type u) (Out : Type v) (W : Type w) where
  state : W
  /-- How many calls were made; it is the id of the next. -/
  calls : Nat
  phases : ι → Phase Op Out

variable {ι : Type x}

/-- One move of an atomic object, and what is traced of it. -/
inductive Moves [DecidableEq ι] (apply : W → Op → W × Out) (object : AtomicObject ι Op Out W) :
    Option (TraceEvent Op Out) → AtomicObject ι Op Out W → Prop
  | invoke (t : ι) (op : Op) (hphase : object.phases t = .idle) :
      Moves apply object (some (.invoke object.calls op))
        { object with
          calls := object.calls + 1
          phases := Function.update object.phases t (.pending object.calls op) }
  | stutter : Moves apply object none object
  | effect (t : ι) (id : Nat) (op : Op) (hphase : object.phases t = .pending id op) :
      Moves apply object (some (.effect ⟨id, op, (apply object.state op).2⟩))
        { object with
          state := (apply object.state op).1
          phases := Function.update object.phases t
            (.effected ⟨id, op, (apply object.state op).2⟩) }
  | respond (t : ι) (call : Completed Op Out) (hphase : object.phases t = .effected call) :
      Moves apply object (some (.respond call.id call.out))
        { object with phases := Function.update object.phases t .idle }

/-- What the trace says of a call that a thread is making. -/
def Phase.Told (trace : List (TraceEvent Op Out)) : Phase Op Out → Prop
  | idle => True
  | pending id op =>
      .invoke id op ∈ trace ∧ ∀ call, .effect call ∈ trace → call.id ≠ id
  | effected call => .effect call ∈ trace

/-- What is said of a call still holds after an event, unless the event is the call's
effect. -/
theorem Phase.Told.concat {trace : List (TraceEvent Op Out)} {phase : Phase Op Out}
    (h : phase.Told trace) {event : TraceEvent Op Out}
    (hother : ∀ call, event = .effect call → ∀ id op, phase = .pending id op → call.id ≠ id) :
    phase.Told (trace ++ [event]) := by
  cases phase with
  | idle => trivial
  | pending id op =>
      refine ⟨List.mem_append_left _ h.1, ?_⟩
      intro call hcall
      rcases List.mem_append.mp hcall with hcall | hcall
      · exact h.2 call hcall
      · exact hother call (List.mem_singleton.mp hcall).symm id op rfl
  | effected call => exact List.mem_append_left _ h

/-- A trace accounts for the state of an atomic object. -/
structure Accounted (apply : W → Op → W × Out) (first : W) (trace : List (TraceEvent Op Out))
    (object : AtomicObject ι Op Out W) : Prop where
  ordered : Ordered trace
  sequential : Sequential apply first (effects trace) object.state
  numbered : ∀ id op, .invoke id op ∈ trace → id < object.calls
  told : ∀ t, (object.phases t).Told trace
  alone : ∀ t t' id op op', object.phases t = .pending id op →
    object.phases t' = .pending id op' → t = t'
  answered : ∀ call, .effect call ∈ trace →
    .respond call.id call.out ∈ trace ∨ ∃ t, object.phases t = .effected call

namespace Accounted

variable {apply : W → Op → W × Out} {first : W} {trace : List (TraceEvent Op Out)}
  {object : AtomicObject ι Op Out W}

theorem start (first : W) (calls : Nat) :
    Accounted apply first [] (⟨first, calls, fun _ => .idle⟩ : AtomicObject ι Op Out W) where
  ordered := .nil
  sequential := rfl
  numbered _ _ hmem := absurd hmem List.not_mem_nil
  told _ := trivial
  alone _ _ _ _ _ h := nomatch h
  answered _ hmem := absurd hmem List.not_mem_nil

theorem numbered_concat (h : Accounted apply first trace object) {event : TraceEvent Op Out}
    (hevent : ∀ id op, event ≠ .invoke id op) (id : Nat) (op : Op)
    (hmem : .invoke id op ∈ trace ++ [event]) : id < object.calls := by
  rcases List.mem_append.mp hmem with hmem | hmem
  · exact h.numbered id op hmem
  · exact absurd (List.mem_singleton.mp hmem).symm (hevent id op)

/-- No thread is pending with a number that was not given yet. -/
theorem ne_pending_calls (h : Accounted apply first trace object) (t : ι) (op : Op) :
    object.phases t ≠ .pending object.calls op := by
  intro hphase
  have htold := h.told t
  rw [hphase] at htold
  exact Nat.lt_irrefl _ (h.numbered object.calls op htold.1)

section Moves

variable [DecidableEq ι]

/-- An event of one thread, if it is no effect of another's call. -/
theorem told_concat (h : Accounted apply first trace object) {event : TraceEvent Op Out} {t : ι}
    {phase : Phase Op Out} (hself : phase.Told (trace ++ [event]))
    (hother : ∀ call, event = .effect call → ∀ t' id op, t' ≠ t →
      object.phases t' = .pending id op → call.id ≠ id) (t' : ι) :
    (Function.update object.phases t phase t').Told (trace ++ [event]) := by
  by_cases ht : t' = t
  · subst ht
    rw [Function.update_self]
    exact hself
  · rw [Function.update_of_ne ht]
    exact (h.told t').concat fun call hcall id op => hother call hcall t' id op ht

/-- A call is answered after an event of a thread, if that thread did not wait to answer
it. -/
theorem answered_concat (h : Accounted apply first trace object) {event : TraceEvent Op Out}
    {t : ι} {phase : Phase Op Out}
    (hself : ∀ call, object.phases t = .effected call → event = .respond call.id call.out)
    (call : Completed Op Out) (hcall : .effect call ∈ trace) :
    .respond call.id call.out ∈ trace ++ [event] ∨
      ∃ t', Function.update object.phases t phase t' = .effected call := by
  rcases h.answered call hcall with hresponded | ⟨t', ht'⟩
  · exact .inl (List.mem_append_left _ hresponded)
  · by_cases ht : t' = t
    · subst ht
      exact .inl (List.mem_append_right _ (List.mem_singleton.mpr (hself call ht').symm))
    · exact .inr ⟨t', by rw [Function.update_of_ne ht, ht']⟩

/-- A thread that is pending after another phase was set was so before. -/
theorem pending_of_update {phases : ι → Phase Op Out} {t t' : ι} {phase : Phase Op Out}
    (hphase : ∀ id op, phase ≠ .pending id op) {id : Nat} {op : Op}
    (h : Function.update phases t phase t' = .pending id op) : phases t' = .pending id op := by
  by_cases ht : t' = t
  · subst ht
    rw [Function.update_self] at h
    exact absurd h (hphase id op)
  · rw [Function.update_of_ne ht] at h
    exact h

theorem alone_update (h : Accounted apply first trace object) {t : ι} {phase : Phase Op Out}
    (hphase : ∀ id op, phase ≠ .pending id op) (s s' : ι) (id : Nat) (op op' : Op)
    (hs : Function.update object.phases t phase s = .pending id op)
    (hs' : Function.update object.phases t phase s' = .pending id op') : s = s' :=
  h.alone s s' id op op' (pending_of_update hphase hs) (pending_of_update hphase hs')

theorem invoke (h : Accounted apply first trace object) {t : ι}
    (hphase : object.phases t = .idle) (op : Op) :
    Accounted apply first (trace ++ [.invoke object.calls op])
      { object with
        calls := object.calls + 1
        phases := Function.update object.phases t (.pending object.calls op) } := by
  have hfresh : ∀ other, .invoke object.calls other ∉ trace :=
    fun other hmem => Nat.lt_irrefl _ (h.numbered _ other hmem)
  constructor
  case ordered => exact h.ordered.invoke _ op hfresh
  case sequential =>
    rw [effects_concat_of_call rfl]
    exact h.sequential
  case numbered =>
    intro id other hmem
    rcases List.mem_append.mp hmem with hmem | hmem
    · exact Nat.lt_succ_of_lt (h.numbered id other hmem)
    · obtain ⟨rfl, _⟩ := TraceEvent.invoke.inj (List.mem_singleton.mp hmem)
      exact Nat.lt_succ_self _
  case told =>
    apply h.told_concat
    · refine ⟨List.mem_append_right _ (List.mem_singleton_self _), ?_⟩
      intro call hcall hid
      simp only [List.mem_append, List.mem_singleton, reduceCtorEq, or_false] at hcall
      exact hfresh call.op (hid ▸ h.ordered.invoked hcall)
    · intro call hcall
      cases hcall
  case alone =>
    intro s s' id op₁ op₂ hs hs'
    by_cases hst : s = t <;> by_cases hst' : s' = t
    · exact hst.trans hst'.symm
    · subst hst
      simp only [Function.update_self, Phase.pending.injEq, Function.update_of_ne hst'] at hs hs'
      exact absurd (hs.1 ▸ hs') (h.ne_pending_calls s' op₂)
    · subst hst'
      simp only [Function.update_self, Phase.pending.injEq, Function.update_of_ne hst] at hs hs'
      exact absurd (hs'.1 ▸ hs) (h.ne_pending_calls s op₁)
    · simp only [Function.update_of_ne hst, Function.update_of_ne hst'] at hs hs'
      exact h.alone s s' id op₁ op₂ hs hs'
  case answered =>
    intro call hcall
    simp only [List.mem_append, List.mem_singleton, reduceCtorEq, or_false] at hcall
    apply h.answered_concat _ call hcall
    intro other hother
    cases hphase.symm.trans hother

theorem effect (h : Accounted apply first trace object) {t : ι} {id : Nat} {op : Op}
    (hphase : object.phases t = .pending id op) :
    Accounted apply first (trace ++ [.effect ⟨id, op, (apply object.state op).2⟩])
      { object with
        state := (apply object.state op).1
        phases := Function.update object.phases t
          (.effected ⟨id, op, (apply object.state op).2⟩) } := by
  have htold := h.told t
  rw [hphase] at htold
  constructor
  case ordered => exact h.ordered.effect _ htold.1 htold.2
  case sequential =>
    rw [effects_concat]
    exact h.sequential.concat rfl
  case numbered => exact h.numbered_concat (by simp)
  case told =>
    apply h.told_concat
    · exact List.mem_append_right _ (List.mem_singleton_self _)
    · intro call hcall t' id' op' ht hphase'
      obtain rfl := TraceEvent.effect.inj hcall
      rintro rfl
      exact ht (h.alone t' t id op' op hphase' hphase)
  case alone => exact h.alone_update (by simp)
  case answered =>
    intro call hcall
    rcases List.mem_append.mp hcall with hcall | hcall
    · apply h.answered_concat _ call hcall
      intro other hother
      cases hphase.symm.trans hother
    · obtain rfl := TraceEvent.effect.inj (List.mem_singleton.mp hcall)
      exact .inr ⟨t, Function.update_self ..⟩

theorem respond (h : Accounted apply first trace object) {t : ι} {call : Completed Op Out}
    (hphase : object.phases t = .effected call) :
    Accounted apply first (trace ++ [.respond call.id call.out])
      { object with phases := Function.update object.phases t .idle } := by
  have htold := h.told t
  rw [hphase] at htold
  constructor
  case ordered => exact h.ordered.respond call htold
  case sequential =>
    rw [effects_concat_of_call rfl]
    exact h.sequential
  case numbered => exact h.numbered_concat (by simp)
  case told =>
    apply h.told_concat
    · trivial
    · intro other hother
      cases hother
  case alone => exact h.alone_update (by simp)
  case answered =>
    intro other hother
    simp only [List.mem_append, List.mem_singleton, reduceCtorEq, or_false] at hother
    apply h.answered_concat _ other hother
    intro waiting hwaiting
    obtain rfl := Phase.effected.inj (hphase.symm.trans hwaiting)
    rfl

/-- One step: the trace accounts for the state after a move. -/
theorem moves (h : Accounted apply first trace object) {event : Option (TraceEvent Op Out)}
    {next : AtomicObject ι Op Out W} (hmove : Moves apply object event next) :
    Accounted apply first (trace ++ event.toList) next := by
  cases hmove with
  | invoke t op hphase => exact h.invoke hphase op
  | stutter =>
      rw [Option.toList_none, List.append_nil]
      exact h
  | effect t id op hphase => exact h.effect hphase
  | respond t call hphase => exact h.respond hphase

end Moves

/-- The calls of an atomic object are linearizable. -/
theorem linearization (h : Accounted apply first trace object) :
    Linearization apply (history trace) first object.state (effects trace) :=
  h.ordered.linearization h.sequential

end Accounted

end Foundation
