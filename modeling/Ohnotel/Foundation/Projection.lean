/-
# Runs of a component

A system that contains a component as part of its state moves the component by the
component's own steps, or leaves it alone.  The component then sees a run of its own,
the trace of the system's run, and what is known about runs of the component holds of
the trace.  This module supplies the trace, the projection theorem, and the way back:
a prefix of the trace is the trace of a prefix.

`onto` names the component's label in a step of the system, if it has one.
-/

import Ohnotel.Foundation.Transition

namespace Foundation

namespace StepFn

universe u v w x y

variable {S : Type u} {L : Type v} {P : Type w} {K : Type x}

/-- The labels of the component in a run of the system. -/
def trace (step : StepFn S L) (onto : S → L → Option K) : S → List L → List K
  | _, [] => []
  | state, label :: rest =>
      match step state label with
      | none => []
      | some next => (onto state label).toList ++ trace step onto next rest

variable {step : StepFn S L} {onto : S → L → Option K}

theorem trace_cons {state next : S} {label : L} (hstep : step state label = some next)
    (rest : List L) :
    step.trace onto state (label :: rest) =
      (onto state label).toList ++ step.trace onto next rest := by
  rw [trace, hstep]

theorem trace_append {state middle : S} {first : List L}
    (hrun : step.run state first = some middle) (second : List L) :
    step.trace onto state (first ++ second) =
      step.trace onto state first ++ step.trace onto middle second := by
  induction first generalizing state with
  | nil =>
      obtain rfl : state = middle := by simpa using hrun
      rfl
  | cons label rest ih =>
      obtain ⟨next, hstep, hrest⟩ := Option.bind_eq_some_iff.mp hrun
      rw [List.cons_append, trace_cons hstep, trace_cons hstep, ih hrest, List.append_assoc]

theorem trace_concat {state middle last : S} {labels : List L} {label : L}
    (hrun : step.run state labels = some middle) (hstep : step middle label = some last) :
    step.trace onto state (labels ++ [label]) =
      step.trace onto state labels ++ (onto middle label).toList := by
  rw [trace_append hrun, trace_cons hstep, trace, List.append_nil]

/-- A trace of fewer labels, or of labels that say less. -/
theorem filterMap_trace {V : Type y} (see : K → Option V) (state : S) (labels : List L) :
    (step.trace onto state labels).filterMap see =
      step.trace (fun state label => (onto state label).bind see) state labels := by
  induction labels generalizing state with
  | nil => rfl
  | cons label rest ih =>
      cases hstep : step state label with
      | none => simp only [trace, hstep, List.filterMap_nil]
      | some next =>
          rw [trace_cons hstep, trace_cons hstep, List.filterMap_append, ih]
          cases honto : onto state label with
          | none => rfl
          | some found => cases hsee : see found <;> simp [hsee]

/-- A prefix of the trace is the trace of a prefix. -/
theorem exists_prefix_of_trace_eq {state last : S} {labels : List L} {first second : List K}
    (hrun : step.run state labels = some last)
    (htrace : step.trace onto state labels = first ++ second) :
    ∃ before after middle, labels = before ++ after ∧ step.run state before = some middle ∧
      step.run middle after = some last ∧ step.trace onto state before = first := by
  induction labels generalizing state first with
  | nil =>
      obtain ⟨rfl, rfl⟩ := List.append_eq_nil_iff.mp htrace.symm
      exact ⟨[], [], state, rfl, rfl, hrun, rfl⟩
  | cons label rest ih =>
      obtain ⟨next, hstep, hrest⟩ := Option.bind_eq_some_iff.mp hrun
      rw [trace_cons hstep] at htrace
      rcases List.append_eq_append_iff.mp htrace with ⟨found, rfl, hlater⟩ | ⟨left, hhere, _⟩
      · obtain ⟨before, after, middle, rfl, hbefore, hafter, hfound⟩ := ih hrest hlater
        refine ⟨label :: before, after, middle, rfl, ?_, hafter, ?_⟩
        · rw [run_cons, hstep]
          exact hbefore
        · rw [trace_cons hstep, hfound]
      · cases hfirst : first with
        | nil => exact ⟨[], label :: rest, state, rfl, rfl, hrun, rfl⟩
        | cons head tail =>
            refine ⟨[label], rest, next, rfl, ?_, hrest, ?_⟩
            · rw [run_cons, hstep]
              rfl
            -- The step has at most one label of the component, so all of it is in `first`.
            · rw [trace_cons hstep, trace, List.append_nil, hhere, hfirst]
              cases honto : onto state label with
              | none => simp [honto, hfirst] at hhere
              | some found =>
                  rw [honto, hfirst] at hhere
                  simp only [Option.toList_some, List.cons_append, List.cons.injEq] at hhere
                  rw [(List.append_eq_nil_iff.mp hhere.2.symm).2, List.append_nil]

/-- The component sees a run of its own. -/
theorem run_trace {component : StepFn P K} {proj : S → P}
    (hproj : ∀ state label next, step state label = some next →
      component.run (proj state) (onto state label).toList = some (proj next))
    {state last : S} {labels : List L} (hrun : step.run state labels = some last) :
    component.run (proj state) (step.trace onto state labels) = some (proj last) := by
  induction labels generalizing state with
  | nil =>
      obtain rfl : state = last := by simpa using hrun
      rfl
  | cons label rest ih =>
      obtain ⟨next, hstep, hrest⟩ := Option.bind_eq_some_iff.mp hrun
      rw [trace_cons hstep, run_append, hproj state label next hstep]
      exact ih hrest

end StepFn

end Foundation
