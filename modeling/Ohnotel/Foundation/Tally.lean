/-
# Tallies along a run

A step may cost something, in any commutative monoid.  When every step balances, what
it costs and what is there after it against what was there before and what the label
brings, the whole run balances: the tally of the costs accounts for whatever is
missing at the end.  Where steps are only paid for, the whole run is paid for.
-/

import Mathlib.Algebra.BigOperators.Group.List.Basic
import Mathlib.Algebra.GroupWithZero.Nat
import Ohnotel.Foundation.Transition

namespace Foundation

namespace StepFn

universe u v w

variable {S : Type u} {L : Type v} {M : Type w}

/-- What the steps of a run cost, as far as it is enabled. -/
def tally [Add M] [Zero M] (step : StepFn S L) (cost : S → L → M) : S → List L → M
  | _, [] => 0
  | state, label :: rest =>
      cost state label +
        match step state label with
        | none => 0
        | some next => tally step cost next rest

variable {step : StepFn S L}

/-- If every step balances, the run balances. -/
theorem tally_balance [AddCommMonoid M] {invariant : S → Prop} {potential : S → M}
    {cost : S → L → M} {gain : L → M} {labels : List L}
    (hkeep : ∀ label ∈ labels, ∀ state next, invariant state → step state label = some next →
      invariant next)
    (hbalance : ∀ label ∈ labels, ∀ state next, invariant state → step state label = some next →
      potential next + cost state label = potential state + gain label)
    {start last : S} (hstart : invariant start) (hrun : step.run start labels = some last) :
    potential last + step.tally cost start labels = potential start + (labels.map gain).sum := by
  induction labels generalizing start with
  | nil =>
      obtain rfl : start = last := by simpa using hrun
      rfl
  | cons label rest ih =>
      obtain ⟨next, hstep, hrest⟩ := Option.bind_eq_some_iff.mp hrun
      have hnext := hkeep label List.mem_cons_self start next hstart hstep
      have hlater := ih (fun l hl => hkeep l (List.mem_cons_of_mem label hl))
        (fun l hl => hbalance l (List.mem_cons_of_mem label hl)) hnext hrest
      have hhere := hbalance label List.mem_cons_self start next hstart hstep
      simp only [tally, hstep, List.map_cons, List.sum_cons]
      calc potential last + (cost start label + step.tally cost next rest)
          = potential last + step.tally cost next rest + cost start label := by
            rw [add_comm (cost start label), add_assoc]
        _ = potential next + cost start label + (rest.map gain).sum := by
            rw [hlater, add_right_comm]
        _ = potential start + (gain label + (rest.map gain).sum) := by
            rw [hhere, add_assoc]

/-- A run whose steps all cost nothing costs nothing. -/
theorem tally_eq_zero [AddMonoid M] {cost : S → L → M} {start : S} {labels : List L}
    (hfree : step.Along (fun state label => cost state label = 0) start labels) :
    step.tally cost start labels = 0 := by
  induction labels generalizing start with
  | nil => rfl
  | cons label rest ih =>
      obtain ⟨hhere, hlater⟩ := hfree
      rw [tally, hhere, zero_add]
      cases hstep : step start label with
      | none => rfl
      | some next => exact ih (hlater next hstep)

/-- Amortized counting.  If every step that is counted is paid for, by the credit in hand,
by what its label brings or by what the step gains where it is taken, then the whole run is,
and some credit may be left. -/
theorem exists_credit {credit : S → Nat → Prop} {counted : L → Bool} {brings : L → Nat}
    {gain : S → L → Nat} {labels : List L}
    (hpaid : ∀ label ∈ labels, ∀ state available next, credit state available →
      step state label = some next →
      ∃ left, credit next left ∧
        left + (if counted label then 1 else 0) ≤ available + brings label + gain state label)
    {start last : S} {available : Nat} (hstart : credit start available)
    (hrun : step.run start labels = some last) :
    ∃ left, credit last left ∧ left + labels.countP counted ≤
      available + (labels.map brings).sum + step.tally gain start labels := by
  induction labels generalizing start available with
  | nil =>
      obtain rfl : start = last := by simpa using hrun
      exact ⟨available, hstart, Nat.le_refl available⟩
  | cons label rest ih =>
      obtain ⟨next, hstep, hrest⟩ := Option.bind_eq_some_iff.mp hrun
      obtain ⟨left, hleft, hhere⟩ :=
        hpaid label List.mem_cons_self start available next hstart hstep
      obtain ⟨final, hfinal, hlater⟩ :=
        ih (fun l hl => hpaid l (List.mem_cons_of_mem label hl)) hleft hrest
      refine ⟨final, hfinal, ?_⟩
      rw [List.countP_cons, List.map_cons, List.sum_cons]
      simp only [tally, hstep]
      omega

/-- A run whose steps pay out of the credit in hand only. -/
theorem exists_credit_left {credit : S → Nat → Prop} {counted : L → Bool} {labels : List L}
    (hpaid : ∀ label ∈ labels, ∀ state available next, credit state available →
      step state label = some next →
      ∃ left, credit next left ∧ left + (if counted label then 1 else 0) ≤ available)
    {start last : S} {available : Nat} (hstart : credit start available)
    (hrun : step.run start labels = some last) :
    ∃ left, credit last left ∧ left + labels.countP counted ≤ available := by
  have hnothing : step.tally (fun _ _ => 0) start labels = 0 :=
    tally_eq_zero ((step.along_true start labels).imp fun _ _ _ => rfl)
  have hbrings : (labels.map fun _ => 0).sum = 0 := by simp
  obtain ⟨left, hleft, hcount⟩ :=
    @exists_credit _ _ step credit counted (fun _ => 0) (fun _ _ => 0) labels hpaid _ _ _ hstart
      hrun
  rw [hnothing, hbrings] at hcount
  exact ⟨left, hleft, hcount⟩

end StepFn

end Foundation
