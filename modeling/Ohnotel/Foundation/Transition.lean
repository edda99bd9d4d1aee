/-
# Runs of a labelled step function

A program whose atomic steps may be ordered in any way is a partial function
from a state and a label to the next state; the label says whose turn it is and
carries every choice the step leaves open.  A run is a list of labels.  This
module supplies the few rules by which facts about one step become facts about
every run: an invariant rule, the same rule for runs whose steps all meet a
condition, and an induction that still sees the labels already taken.

Nothing here knows which program is being run.
-/

import Mathlib.Data.List.Induction

namespace Foundation

universe u v

variable {S : Type u} {L : Type v}

/-- One labelled transition; `none` when the label is not enabled. -/
abbrev StepFn (S : Type u) (L : Type v) : Type (max u v) := S → L → Option S

namespace StepFn

variable (step : StepFn S L)

/-- Take the labels in order, stopping with `none` at the first one that is not
enabled. -/
def run : S → List L → Option S
  | state, [] => some state
  | state, label :: rest => (step state label).bind fun next => run next rest

/-- Every step of the run, as far as it is enabled, meets `condition` in the
state it is taken from. -/
def Along (condition : S → L → Prop) : S → List L → Prop
  | _, [] => True
  | state, label :: rest =>
      condition state label ∧
        ∀ next, step state label = some next → Along condition next rest

@[simp]
theorem run_nil (state : S) : step.run state [] = some state := rfl

@[simp]
theorem run_cons (state : S) (label : L) (rest : List L) :
    step.run state (label :: rest) =
      (step state label).bind fun next => step.run next rest := rfl

/-- A run of a concatenation is a run of its first part followed by a run of
its second. -/
theorem run_append (state : S) (first second : List L) :
    step.run state (first ++ second) =
      (step.run state first).bind fun middle => step.run middle second := by
  induction first generalizing state with
  | nil => rfl
  | cons label rest ih =>
      simp only [List.cons_append, run_cons]
      cases step state label with
      | none => rfl
      | some next => exact ih next

theorem run_append_eq_some {state last : S} {first second : List L} :
    step.run state (first ++ second) = some last ↔
      ∃ middle, step.run state first = some middle ∧
        step.run middle second = some last := by
  rw [run_append, Option.bind_eq_some_iff]

/-- A run ending with `label` reaches a state from which `label` is enabled. -/
theorem run_concat_eq_some {state last : S} {labels : List L} {label : L} :
    step.run state (labels ++ [label]) = some last ↔
      ∃ middle, step.run state labels = some middle ∧ step middle label = some last := by
  simp [run_append_eq_some]

variable {step}

@[simp]
theorem along_nil (condition : S → L → Prop) (state : S) :
    step.Along condition state [] := trivial

@[simp]
theorem along_cons {condition : S → L → Prop} {state : S} {label : L} {rest : List L} :
    step.Along condition state (label :: rest) ↔
      condition state label ∧
        ∀ next, step state label = some next → step.Along condition next rest := Iff.rfl

theorem along_cons_of_eq_some {condition : S → L → Prop} {state next : S} {label : L}
    {rest : List L} (hstep : step state label = some next) :
    step.Along condition state (label :: rest) ↔
      condition state label ∧ step.Along condition next rest := by
  rw [along_cons]
  apply and_congr_right
  intro _
  constructor
  · exact fun hlater => hlater next hstep
  · intro hnext other hother
    obtain rfl : next = other := Option.some_inj.mp (hstep.symm.trans hother)
    exact hnext

/-- A weaker condition holds along the run too. -/
theorem Along.imp {condition weaker : S → L → Prop}
    (himp : ∀ state label, condition state label → weaker state label) {state : S}
    {labels : List L} (halong : step.Along condition state labels) :
    step.Along weaker state labels := by
  induction labels generalizing state with
  | nil => trivial
  | cons label rest ih =>
      exact ⟨himp state label halong.1, fun next hstep => ih (halong.2 next hstep)⟩

theorem along_and {first second : S → L → Prop} {state : S} {labels : List L} :
    step.Along (fun state label => first state label ∧ second state label) state labels ↔
      step.Along first state labels ∧ step.Along second state labels := by
  constructor
  · exact fun halong => ⟨halong.imp fun _ _ => And.left, halong.imp fun _ _ => And.right⟩
  · intro hboth
    induction labels generalizing state with
    | nil => trivial
    | cons label rest ih =>
        obtain ⟨⟨hfirst, hfirstLater⟩, hsecond, hsecondLater⟩ := hboth
        exact ⟨⟨hfirst, hsecond⟩, fun next hstep =>
          ih ⟨hfirstLater next hstep, hsecondLater next hstep⟩⟩

/-- Two conditions that say the same in every state with an invariant hold along the
same runs, if the steps that meet them preserve the invariant. -/
theorem along_congr {first second : S → L → Prop} (invariant : S → Prop) {labels : List L}
    (hiff : ∀ label ∈ labels, ∀ state, invariant state →
      (first state label ↔ second state label))
    (hstep : ∀ label ∈ labels, ∀ state next, invariant state → first state label →
      step state label = some next → invariant next)
    {state : S} (hstart : invariant state) :
    step.Along first state labels ↔ step.Along second state labels := by
  induction labels generalizing state with
  | nil => exact Iff.rfl
  | cons label rest ih =>
      have hhere : label ∈ label :: rest := List.mem_cons_self
      rw [along_cons, along_cons, ← hiff label hhere state hstart]
      apply and_congr_right
      intro hfirst
      apply forall₂_congr
      intro next htaken
      apply ih
      · exact fun later hlater => hiff later (List.mem_cons_of_mem label hlater)
      · exact fun later hlater => hstep later (List.mem_cons_of_mem label hlater)
      · exact hstep label hhere state next hstart hfirst htaken

instance decidableAlong {condition : S → L → Prop}
    [∀ state label, Decidable (condition state label)] :
    ∀ (state : S) (labels : List L), Decidable (step.Along condition state labels)
  | _, [] => .isTrue trivial
  | state, label :: rest =>
      match hstep : step state label with
      | none => decidable_of_iff (condition state label) (by simp [hstep])
      | some next =>
          have : Decidable (step.Along condition next rest) := decidableAlong next rest
          decidable_of_iff (condition state label ∧ step.Along condition next rest)
            (along_cons_of_eq_some hstep).symm

/-- The conditions along a concatenation are those along its two parts. -/
theorem along_append {condition : S → L → Prop} {state : S} {first second : List L} :
    step.Along condition state (first ++ second) ↔
      step.Along condition state first ∧
        ∀ middle, step.run state first = some middle →
          step.Along condition middle second := by
  induction first generalizing state with
  | nil => simp
  | cons label rest ih =>
      simp only [List.cons_append, along_cons, run_cons, Option.bind_eq_some_iff]
      constructor
      · rintro ⟨hhere, hlater⟩
        refine ⟨⟨hhere, fun next hstep => (ih.mp (hlater next hstep)).1⟩, ?_⟩
        rintro middle ⟨next, hstep, hrun⟩
        exact (ih.mp (hlater next hstep)).2 middle hrun
      · rintro ⟨⟨hhere, hfirst⟩, hsecond⟩
        exact ⟨hhere, fun next hstep => ih.mpr
          ⟨hfirst next hstep, fun middle hrun => hsecond middle ⟨next, hstep, hrun⟩⟩⟩

theorem along_concat {condition : S → L → Prop} {state : S} {labels : List L} {label : L} :
    step.Along condition state (labels ++ [label]) ↔
      step.Along condition state labels ∧
        ∀ middle, step.run state labels = some middle → condition middle label := by
  simp [along_append]

/-- Induction over a completed run that keeps the labels already taken in view.
The motive relates the labels to the state they lead to. -/
theorem run_induction {start : S} {motive : List L → S → Prop}
    (nil : motive [] start)
    (concat : ∀ labels state label next, step.run start labels = some state →
      motive labels state → step state label = some next →
      motive (labels ++ [label]) next)
    {labels : List L} {last : S} (hrun : step.run start labels = some last) :
    motive labels last := by
  induction labels using List.reverseRecOn generalizing last with
  | nil =>
      obtain rfl : start = last := by simpa using hrun
      exact nil
  | append_singleton labels label ih =>
      obtain ⟨middle, hbefore, hstep⟩ := (step.run_concat_eq_some).mp hrun
      exact concat labels middle label last hbefore (ih hbefore) hstep

/-- A property that every step of a run preserves, if the step meets `condition`,
holds at the end of the run when all its steps meet it. -/
theorem invariant_of_step_along (invariant : S → Prop) {condition : S → L → Prop}
    {start last : S} {labels : List L}
    (hstep : ∀ label ∈ labels, ∀ state next, invariant state → condition state label →
      step state label = some next → invariant next)
    (hstart : invariant start) (halong : step.Along condition start labels)
    (hrun : step.run start labels = some last) : invariant last := by
  induction labels generalizing start with
  | nil =>
      obtain rfl : start = last := by simpa using hrun
      exact hstart
  | cons label rest ih =>
      obtain ⟨next, htaken, hrest⟩ := Option.bind_eq_some_iff.mp hrun
      apply ih
      · exact fun later hlater => hstep later (List.mem_cons_of_mem label hlater)
      · exact hstep label List.mem_cons_self start next hstart halong.1 htaken
      · exact halong.2 next htaken
      · exact hrest

/-- A condition that the labels meet in every state holds along every run. -/
theorem along_of_forall {condition : S → L → Prop} {labels : List L}
    (hall : ∀ label ∈ labels, ∀ state, condition state label) (start : S) :
    step.Along condition start labels := by
  induction labels generalizing start with
  | nil => trivial
  | cons label rest ih =>
      exact ⟨hall label List.mem_cons_self start, fun next _ =>
        ih (fun later hlater => hall later (List.mem_cons_of_mem label hlater)) next⟩

theorem along_true (start : S) (labels : List L) :
    step.Along (fun _ _ => True) start labels := along_of_forall (fun _ _ _ => trivial) start

/-- A property that every step of a run preserves holds at the end of the run. -/
theorem invariant_of_step (invariant : S → Prop) {start last : S} {labels : List L}
    (hstep : ∀ label ∈ labels, ∀ state next, invariant state → step state label = some next →
      invariant next)
    (hstart : invariant start) (hrun : step.run start labels = some last) : invariant last :=
  invariant_of_step_along invariant (fun label hlabel state next hinv _ =>
    hstep label hlabel state next hinv) hstart (along_true start labels) hrun

end StepFn

/-! ## Operations that return something -/

section Perform

universe w

variable {Op : Type u} {Out : Type v} {G : Type w}

/-- Perform operations in order and collect what each returns. -/
def performAll (exec : S → Op → S × Out) : S → List Op → S × List Out
  | state, [] => (state, [])
  | state, op :: rest =>
      let first := exec state op
      let later := performAll exec first.1 rest
      (later.1, first.2 :: later.2)

/-- Keep a record of operations and of what they returned. -/
def trackAll (track : G → Op → Out → G) : G → List Op → List Out → G
  | record, op :: ops, out :: outs => trackAll track (track record op out) ops outs
  | record, _, _ => record

/-- A relation between state and record that every operation preserves holds after
any operations. -/
theorem performAll_track (invariant : S → G → Prop) {exec : S → Op → S × Out}
    {track : G → Op → Out → G} {ops : List Op}
    (hstep : ∀ op ∈ ops, ∀ state record, invariant state record →
      invariant (exec state op).1 (track record op (exec state op).2))
    {state : S} {record : G} (hstart : invariant state record) :
    invariant (performAll exec state ops).1
      (trackAll track record ops (performAll exec state ops).2) := by
  induction ops generalizing state record with
  | nil => exact hstart
  | cons op rest ih =>
      apply ih
      · exact fun later hlater => hstep later (List.mem_cons_of_mem op hlater)
      · exact hstep op List.mem_cons_self state record hstart

/-- What the chosen ones of some operations returned. -/
def returned (chosen : Op → Bool) : List Op → List Out → List Out
  | op :: ops, out :: outs =>
      if chosen op then out :: returned chosen ops outs else returned chosen ops outs
  | _, _ => []

/-- Operations, as the steps of a run. -/
def performing (exec : S → Op → S × Out) : StepFn S Op := fun state op => some (exec state op).1

theorem run_performing (exec : S → Op → S × Out) (state : S) (ops : List Op) :
    (performing exec).run state ops = some (performAll exec state ops).1 := by
  induction ops generalizing state with
  | nil => rfl
  | cons op rest ih => exact ih (exec state op).1

theorem performAll_append (exec : S → Op → S × Out) (state : S) (first second : List Op) :
    performAll exec state (first ++ second) =
      ((performAll exec (performAll exec state first).1 second).1,
        (performAll exec state first).2 ++
          (performAll exec (performAll exec state first).1 second).2) := by
  induction first generalizing state with
  | nil => rfl
  | cons op rest ih => rw [List.cons_append, performAll, ih]; rfl

/-- What the chosen operations return, the chosen ones before the others. -/
theorem returned_performAll_append (chosen : Op → Bool) (exec : S → Op → S × Out) (state : S)
    (first second : List Op) :
    returned chosen (first ++ second) (performAll exec state (first ++ second)).2 =
      returned chosen first (performAll exec state first).2 ++
        returned chosen second (performAll exec (performAll exec state first).1 second).2 := by
  rw [performAll_append]
  induction first generalizing state with
  | nil => rfl
  | cons op rest ih =>
      have hrest := ih (exec state op).1
      simp only [List.cons_append, performAll, returned] at hrest ⊢
      split <;> simp [hrest]

/-- If a view of the state decides what the chosen operations do to it and return, and the
others leave it alone wherever they meet a condition, then the others can be left out of
every run along which they do. -/
theorem performAll_filter {W : Type w} {exec : S → Op → S × Out} {chosen : Op → Bool}
    {view : S → W} {condition : S → Op → Prop}
    (hchosen : ∀ op, chosen op = true → ∀ state state', view state = view state' →
      view (exec state op).1 = view (exec state' op).1 ∧ (exec state op).2 = (exec state' op).2)
    (hother : ∀ op, chosen op = false → ∀ state, condition state op →
      view (exec state op).1 = view state)
    {ops : List Op} {state state' : S} (halong : (performing exec).Along condition state ops)
    (h : view state = view state') :
    view (performAll exec state ops).1 =
        view (performAll exec state' (ops.filter chosen)).1 ∧
      returned chosen ops (performAll exec state ops).2 =
        (performAll exec state' (ops.filter chosen)).2 := by
  induction ops generalizing state state' with
  | nil => exact ⟨h, rfl⟩
  | cons op rest ih =>
      obtain ⟨hhere, hlater⟩ := halong
      have hrest := hlater _ rfl
      cases hop : chosen op with
      | true =>
          obtain ⟨hnext, hout⟩ := hchosen op hop state state' h
          obtain ⟨hlast, houts⟩ := ih hrest hnext
          rw [List.filter_cons_of_pos hop]
          refine ⟨hlast, ?_⟩
          simp only [performAll, returned, hop, if_true]
          rw [hout, houts]
      | false =>
          obtain ⟨hlast, houts⟩ := ih hrest ((hother op hop state hhere).trans h)
          rw [List.filter_cons_of_neg (by simp [hop])]
          refine ⟨hlast, ?_⟩
          simp only [performAll, returned, hop, Bool.false_eq_true, if_false]
          exact houts

end Perform

end Foundation
