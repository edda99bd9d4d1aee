/-
# Whom a reader waits for

A reader starts over if `end` was not `start` when it loaded them, or if `start` has moved
once it has loaded the fields.  Both are the work of writers: a write is in progress, one has
finished between the two loads, or one has begun since.  So every step of a reader is one its
call needs, or a write pays for it; other readers do not matter.

While nobody writes nothing is paid, and a read returns what is there after the steps it
needs.
-/

import Mathlib.Tactic.Ring
import Ohnotel.Foundation.Tally
import Ohnotel.Lock

namespace Ohnotel

open Foundation

namespace SeqLock

variable {ι F : Type} {V : F → Type} {R : Type}

/-- The program loads at most so many fields, whatever it finds in them. -/
def ReadProg.Within : Nat → ReadProg V R → Prop
  | _, .ret _ => True
  | 0, .load _ _ => False
  | n + 1, .load _ next => ∀ value, (next value).Within n

section Counting

variable [DecidableEq ι]

def Label.isStepOf (t : ι) : Label ι V R → Bool
  | .step other => other = t
  | .write _ | .modify _ _ _ | .finish _ | .read _ _ => false

def Label.isReadOf (t : ι) : Label ι V R → Bool
  | .read other _ => other = t
  | .write _ | .modify _ _ _ | .finish _ | .step _ => false

/-- The steps that a label pays for, if reads load at most `n` fields: those of one round for
a call of the reader and for a write that begins, and two loads for a write that finishes. -/
def Label.brings (n : Nat) (t : ι) : Label ι V R → Nat
  | .read other _ => if other = t then n + 3 else 0
  | .write _ => n + 3
  | .finish _ => 2
  | .modify _ _ _ | .step _ => 0

/-- The two loads of a round of the reader that meets a write in progress. -/
def meets (t : ι) (s : State ι V R) : Label ι V R → Nat
  | .step other =>
      match s.pcs other with
      | .loadStart _ _ => if other = t ∧ s.start ≠ s.finish then 2 else 0
      | _ => 0
  | .write _ | .modify _ _ _ | .finish _ | .read _ _ => 0

theorem meets_eq_zero {t : ι} {s : State ι V R} (hsame : s.start = s.finish)
    (label : Label ι V R) : meets t s label = 0 := by
  cases label with
  | step other => cases hpc : s.pcs other <;> simp [meets, hpc, hsame]
  | write | modify | finish | read => rfl

theorem sum_brings (n : Nat) (t : ι) (labels : List (Label ι V R)) :
    (labels.map (Label.brings n t)).sum =
      (n + 3) * (labels.countP (Label.isReadOf t) + starts labels) + 2 * finishes labels := by
  induction labels with
  | nil => rfl
  | cons label rest ih =>
      have hstarts : starts (label :: rest) = starts rest + if label.isWrite then 1 else 0 :=
        List.countP_cons
      have hfinishes : finishes (label :: rest) = finishes rest + if label.isFinish then 1 else 0 :=
        List.countP_cons
      rw [List.map_cons, List.sum_cons, ih, List.countP_cons, hstarts, hfinishes]
      cases label with
      | read other prog =>
          by_cases hother : other = t
          · simp only [Label.brings, Label.isReadOf, Label.isWrite, Label.isFinish, hother,
              decide_true, if_true, Bool.false_eq_true, if_false]
            ring
          · simp [Label.brings, Label.isReadOf, Label.isWrite, Label.isFinish, hother]
      | write other =>
          simp only [Label.brings, Label.isReadOf, Label.isWrite, Label.isFinish, if_true,
            Bool.false_eq_true, if_false]
          ring
      | finish other =>
          simp only [Label.brings, Label.isReadOf, Label.isWrite, Label.isFinish, if_true,
            Bool.false_eq_true, if_false]
          ring
      | modify other field f => simp [Label.brings, Label.isReadOf, Label.isWrite, Label.isFinish]
      | step other => simp [Label.brings, Label.isReadOf, Label.isWrite, Label.isFinish]

end Counting

/-! ## What a read can still afford -/

/-- So many steps are enough to end the call, if no write interferes any more.  What has been
loaded may be out of date already. -/
def Affords (n : Nat) (s : State ι V R) (available : Nat) : Pc V R → Prop
  | .idle | .writing | .returned _ => True
  | .loadEnd prog => prog.Within n ∧ n + 3 ≤ available
  | .loadStart prog e1 =>
      prog.Within n ∧ (if e1 = s.finish then n + 2 else n + 4) ≤ available
  | .inner prog s1 left => prog.Within n ∧ ∃ loads, left.Within loads ∧
      loads + 1 + (if s1 = s.start then 0 else n + 3) ≤ available

/-- Where a read of at most `n` loads stands that has not returned. -/
def Underway (n : Nat) : Pc V R → Prop
  | .idle | .writing | .returned _ => False
  | .loadEnd prog | .loadStart prog _ => prog.Within n
  | .inner prog _ left => prog.Within n ∧ ∃ loads ≤ n, left.Within loads

/-- A round that is lost already and another one are enough. -/
theorem Underway.affords {n : Nat} {pc : Pc V R} (h : Underway n pc) (s : State ι V R) :
    Affords n s (2 * n + 4) pc := by
  cases pc with
  | idle | writing | returned => trivial
  | loadEnd prog => exact ⟨h, by omega⟩
  | loadStart prog e1 =>
      refine ⟨h, ?_⟩
      split <;> omega
  | inner prog s1 left =>
      obtain ⟨hprog, loads, hle, hleft⟩ := h
      refine ⟨hprog, loads, hleft, ?_⟩
      split <;> omega

/-- A read that has not returned goes on, whatever it finds. -/
theorem Underway.exists_advance {n : Nat} {pc : Pc V R} (h : Underway n pc) (s : State ι V R) :
    ∃ pc', advance s pc = some pc' := by
  cases pc with
  | idle | writing | returned => exact h.elim
  | loadEnd prog => exact ⟨_, rfl⟩
  | loadStart prog e1 =>
      rw [SeqLock.advance]
      split <;> exact ⟨_, rfl⟩
  | inner prog s1 left =>
      cases left with
      | load field next => exact ⟨_, rfl⟩
      | ret result =>
          rw [SeqLock.advance]
          split <;> exact ⟨_, rfl⟩

theorem Underway.advance {n : Nat} {s : State ι V R} {pc pc' : Pc V R} (h : Underway n pc)
    (hadvance : SeqLock.advance s pc = some pc') :
    Underway n pc' ∨ ∃ result, pc' = .returned result := by
  cases advances_of_advance hadvance with
  | loadEnd prog => exact .inl h
  | busy hne => exact .inl h
  | loadStart prog => exact .inl ⟨h, n, le_rfl, h⟩
  | load prog s1 field next =>
      obtain ⟨hprog, loads, hle, hleft⟩ := h
      cases loads with
      | zero => exact hleft.elim
      | succ loads => exact .inl ⟨hprog, loads, by omega, hleft _⟩
  | ret prog result => exact .inr ⟨result, rfl⟩
  | changed hne => exact .inl h.1

/-- A step of the reader costs one, which it can afford, unless it meets a write. -/
theorem Affords.advance [DecidableEq ι] {n : Nat} {s : State ι V R} {available : Nat} {t : ι}
    {pc' : Pc V R} (h : Affords n s available (s.pcs t))
    (hadvance : SeqLock.advance s (s.pcs t) = some pc') :
    ∃ left, Affords n s left pc' ∧ left + 1 ≤ available + meets t s (.step t) := by
  generalize hpc : s.pcs t = pc at h hadvance
  cases advances_of_advance hadvance with
  | loadEnd prog =>
      obtain ⟨hprog, hle⟩ := h
      refine ⟨available - 1, ⟨hprog, ?_⟩, by omega⟩
      rw [if_pos rfl]
      omega
  | @busy prog e1 hne =>
      obtain ⟨hprog, hle⟩ := h
      by_cases he1 : e1 = s.finish
      · have hmeets : meets t s (.step t) = 2 := by simp [meets, hpc, he1 ▸ hne]
        rw [if_pos he1] at hle
        exact ⟨available + 1, ⟨hprog, by omega⟩, by omega⟩
      · rw [if_neg he1] at hle
        exact ⟨available - 1, ⟨hprog, by omega⟩, by omega⟩
  | loadStart prog =>
      obtain ⟨hprog, hle⟩ := h
      have hle' : n + 2 ≤ available := by
        split at hle <;> omega
      refine ⟨available - 1, ⟨hprog, n, hprog, ?_⟩, by omega⟩
      rw [if_pos rfl]
      omega
  | load prog s1 field next =>
      obtain ⟨hprog, loads, hleft, hle⟩ := h
      cases loads with
      | zero => exact hleft.elim
      | succ loads => exact ⟨available - 1, ⟨hprog, loads, hleft _, by omega⟩, by omega⟩
  | ret prog result =>
      obtain ⟨_, loads, _, hle⟩ := h
      exact ⟨available - 1, trivial, by omega⟩
  | @changed prog s1 result hne =>
      obtain ⟨hprog, loads, _, hle⟩ := h
      rw [if_neg hne] at hle
      exact ⟨available - 1, ⟨hprog, by omega⟩, by omega⟩

/-- A write that begins may cost a round. -/
theorem Affords.write {n : Nat} {s s' : State ι V R} {available : Nat} {pc : Pc V R}
    (h : Affords n s available pc) (hfinish : s'.finish = s.finish) :
    Affords n s' (available + (n + 3)) pc := by
  cases pc with
  | idle | writing | returned => trivial
  | loadEnd prog => exact ⟨h.1, Nat.le_add_right_of_le h.2⟩
  | loadStart prog e1 =>
      obtain ⟨hprog, hcost⟩ := h
      rw [← hfinish] at hcost
      exact ⟨hprog, Nat.le_add_right_of_le hcost⟩
  | inner prog s1 left =>
      obtain ⟨hprog, loads, hleft, hcost⟩ := h
      refine ⟨hprog, loads, hleft, ?_⟩
      split <;> omega

/-- A write that finishes may cost the two loads of the counters. -/
theorem Affords.finish {n : Nat} {s s' : State ι V R} {available : Nat} {pc : Pc V R}
    (h : Affords n s available pc) (hstart : s'.start = s.start) :
    Affords n s' (available + 2) pc := by
  cases pc with
  | idle | writing | returned => trivial
  | loadEnd prog => exact ⟨h.1, Nat.le_add_right_of_le h.2⟩
  | loadStart prog e1 =>
      obtain ⟨hprog, hcost⟩ := h
      refine ⟨hprog, ?_⟩
      split at hcost <;> split <;> omega
  | inner prog s1 left =>
      obtain ⟨hprog, loads, hleft, hcost⟩ := h
      rw [← hstart] at hcost
      exact ⟨hprog, loads, hleft, Nat.le_add_right_of_le hcost⟩

section Runs

variable [DecidableEq ι] [DecidableEq F]

/-- Every step of a reader is paid for. -/
theorem affords_step {n : Nat} {s s' : State ι V R} {label : Label ι V R} {t : ι}
    {available : Nat} (h : Affords n s available (s.pcs t))
    (hwithin : ∀ prog, label = .read t prog → prog.Within n) (hstep : step s label = some s') :
    ∃ left, Affords n s' left (s'.pcs t) ∧
      left + (if label.isStepOf t then 1 else 0) ≤
        available + label.brings n t + meets t s label := by
  cases label with
  | write other =>
      obtain ⟨_, rfl⟩ := step_write.mp hstep
      refine ⟨available + (n + 3), ?_, Nat.le_refl _⟩
      by_cases hother : other = t
      · simp only [hother, Function.update_self]
        trivial
      · simp only [Function.update_of_ne (Ne.symm hother)]
        exact h.write rfl
  | modify other field f =>
      obtain ⟨_, rfl⟩ := step_modify.mp hstep
      exact ⟨available, h, Nat.le_refl _⟩
  | finish other =>
      obtain ⟨_, rfl⟩ := step_finish.mp hstep
      refine ⟨available + 2, ?_, Nat.le_refl _⟩
      by_cases hother : other = t
      · simp only [hother, Function.update_self]
        trivial
      · simp only [Function.update_of_ne (Ne.symm hother)]
        exact h.finish rfl
  | read other prog =>
      obtain ⟨_, rfl⟩ := step_read.mp hstep
      by_cases hother : other = t
      · subst hother
        refine ⟨available + (n + 3), ?_, by simp [Label.isStepOf, Label.brings, meets]⟩
        simp only [Function.update_self]
        exact ⟨hwithin prog rfl, Nat.le_add_left _ _⟩
      · refine ⟨available, ?_, Nat.le_add_right_of_le (Nat.le_add_right _ _)⟩
        simp only [Function.update_of_ne (Ne.symm hother)]
        exact h
  | step other =>
      obtain ⟨pc, hadvance, rfl⟩ := step_step.mp hstep
      by_cases hother : other = t
      · subst hother
        obtain ⟨left, hleft, hcost⟩ := h.advance hadvance
        refine ⟨left, ?_, by simpa [Label.isStepOf, Label.brings] using hcost⟩
        simp only [Function.update_self]
        exact hleft
      · have hcost : (if (Label.step other : Label ι V R).isStepOf t then 1 else 0) = 0 := by
          simp [Label.isStepOf, hother]
        refine ⟨available, ?_, by omega⟩
        simp only [Function.update_of_ne (Ne.symm hother)]
        exact h

omit [DecidableEq ι] [DecidableEq F] in
/-- The counters differ only while a write is in progress. -/
theorem Counts.not_quiet {labels : List (Label ι V R)} {s : State ι V R}
    (hcounts : Counts labels s) (hne : s.start ≠ s.finish) : ¬ Quiet s := by
  intro hquiet
  obtain ⟨active, hactive, hsum⟩ := hcounts.writers
  have hnone : active = ∅ :=
    Finset.eq_empty_of_forall_notMem fun t ht => hquiet t ((hactive t).mp ht)
  rw [hnone, Finset.card_empty, Nat.add_zero] at hsum
  exact hne (by rw [hcounts.start, hcounts.finish, hsum])

/-- Readers wait for writers only.  In every run, with reads of at most `n` loads, a reader
takes at most `n + 3` steps for each of its calls and each write that begins, two for each
write that finishes, and two for each of its rounds that meets a write in progress. -/
theorem steps_le {inner : ∀ field, V field} {labels : List (Label ι V R)} {last : State ι V R}
    {n : Nat} {t : ι} (hwithin : ∀ prog, .read t prog ∈ labels → prog.Within n)
    (hrun : StepFn.run step (init ι R inner) labels = some last) :
    labels.countP (Label.isStepOf t) ≤
        (n + 3) * (labels.countP (Label.isReadOf t) + starts labels) + 2 * finishes labels +
          StepFn.tally step (meets t) (init ι R inner) labels ∧
      ∀ before label after s, labels = before ++ label :: after →
        StepFn.run step (init ι R inner) before = some s → meets t s label ≠ 0 → ¬ Quiet s := by
  constructor
  · have hpaid : ∀ label ∈ labels, ∀ (s : State ι V R) (available : Nat) (s' : State ι V R),
        Affords n s available (s.pcs t) → step s label = some s' →
        ∃ left, Affords n s' left (s'.pcs t) ∧
          left + (if Label.isStepOf t label then 1 else 0) ≤
            available + Label.brings n t label + meets t s label := by
      intro label hlabel s available s' hafford hstep
      exact affords_step hafford (fun prog hread => hwithin prog (hread ▸ hlabel)) hstep
    have hstart : Affords n (init ι R inner) 0 ((init ι R inner).pcs t) := trivial
    obtain ⟨left, _, hcount⟩ := StepFn.exists_credit hpaid hstart hrun
    rw [sum_brings] at hcount
    omega
  · intro before label after s _ hbefore hmeets
    exact (counts_of_run hbefore).not_quiet fun hsame => hmeets (meets_eq_zero hsame label)

theorem within_pairReader : pairReader.Within 2 := fun _ _ => trivial

/-- A read that starts over because a round of it meets a write in progress. -/
def pairRun : List (Label Bool (fun _ : Bool => UInt64) (UInt64 × UInt64)) :=
  .read false pairReader :: pairSteps ++ [.step false]

theorem steps_le_pair :
    ∃ last, StepFn.run step (init Bool _ fun _ => 0) pairRun = some last ∧
      pairRun.countP (Label.isStepOf false) = 7 ∧
      pairRun.countP (Label.isStepOf false) ≤
        5 * (pairRun.countP (Label.isReadOf false) + starts pairRun) + 2 * finishes pairRun +
          StepFn.tally step (meets false) (init Bool _ fun _ => 0) pairRun := by
  obtain ⟨last, hrun⟩ : ∃ last, StepFn.run step (init Bool _ fun _ => 0) pairRun = some last :=
    ⟨_, rfl⟩
  have hwithin : ∀ prog, .read false prog ∈ pairRun → prog.Within 2 := by
    intro prog hprog
    simp only [pairRun, pairSteps, List.cons_append, List.nil_append, List.mem_cons,
      Label.read.injEq, true_and, reduceCtorEq, List.not_mem_nil, or_false] at hprog
    rw [hprog]
    exact within_pairReader
  exact ⟨last, hrun, by decide, (steps_le hwithin hrun).1⟩

/-- A read goes on until it returns, whoever takes the step. -/
theorem Underway.step {n : Nat} {s s' : State ι V R} {label : Label ι V R} {t : ι}
    (h : Underway n (s.pcs t)) (hcall : ¬ label.isCallOf t) (hstep : step s label = some s') :
    Underway n (s'.pcs t) ∨ label = .step t ∧ ∃ result, s'.pcs t = .returned result := by
  cases label with
  | write other =>
      obtain ⟨_, rfl⟩ := step_write.mp hstep
      have hother : t ≠ other := by
        rintro rfl
        simp [Label.isCallOf] at hcall
      simp only [Function.update_of_ne hother]
      exact .inl h
  | modify other field f =>
      obtain ⟨_, rfl⟩ := step_modify.mp hstep
      exact .inl h
  | finish other =>
      obtain ⟨hwriting, rfl⟩ := step_finish.mp hstep
      have hother : t ≠ other := by
        rintro rfl
        rw [hwriting] at h
        exact h
      simp only [Function.update_of_ne hother]
      exact .inl h
  | read other prog =>
      obtain ⟨_, rfl⟩ := step_read.mp hstep
      have hother : t ≠ other := by
        rintro rfl
        simp [Label.isCallOf] at hcall
      simp only [Function.update_of_ne hother]
      exact .inl h
  | step other =>
      obtain ⟨pc, hadvance, rfl⟩ := step_step.mp hstep
      by_cases hother : other = t
      · subst hother
        simp only [Function.update_self]
        exact (h.advance hadvance).imp_right fun hreturned => ⟨trivial, hreturned⟩
      · simp only [Function.update_of_ne (Ne.symm hother)]
        exact .inl h

/-! ## A read while nobody writes -/

omit [DecidableEq ι] [DecidableEq F] in
/-- Where a read of `prog` stands that was called in a quiet state `s`, and how many steps it
has left at most. -/
inductive Undisturbed (s : State ι V R) (prog : ReadProg V R) (n : Nat) : Nat → Pc V R → Prop
  | loadEnd : Undisturbed s prog n (n + 3) (.loadEnd prog)
  | loadStart : Undisturbed s prog n (n + 2) (.loadStart prog s.finish)
  | inner {loads left} (hle : loads ≤ n) (hleft : left.Within loads)
      (heval : left.eval s.inner = prog.eval s.inner) :
      Undisturbed s prog n (loads + 1) (.inner prog s.start left)
  | returned : Undisturbed s prog n 0 (.returned (prog.eval s.inner))

/-- Nothing but the threads has changed, and no thread writes. -/
structure Still (s state : State ι V R) : Prop where
  start : state.start = s.start
  finish : state.finish = s.finish
  inner : state.inner = s.inner
  quiet : Quiet state

omit [DecidableEq ι] [DecidableEq F] in
theorem Undisturbed.advance {s state : State ι V R} {prog : ReadProg V R} {n left : Nat}
    {pc pc' : Pc V R} (h : Undisturbed s prog n left pc) (hwithin : prog.Within n)
    (hsame : s.start = s.finish) (hstill : Still s state)
    (hadvance : SeqLock.advance state pc = some pc') :
    ∃ fewer, Undisturbed s prog n fewer pc' ∧ fewer + 1 ≤ left := by
  cases h with
  | loadEnd =>
      obtain rfl := Option.some_inj.mp hadvance
      rw [hstill.finish]
      exact ⟨n + 2, .loadStart, Nat.le_refl _⟩
  | loadStart =>
      rw [SeqLock.advance, hstill.start, if_neg (not_not.mpr hsame)] at hadvance
      obtain rfl := Option.some_inj.mp hadvance
      exact ⟨n + 1, .inner le_rfl hwithin rfl, Nat.le_refl _⟩
  | @inner loads rest hle hrest heval =>
      cases rest with
      | ret result =>
          rw [SeqLock.advance, hstill.start, if_pos rfl] at hadvance
          obtain rfl := Option.some_inj.mp hadvance
          rw [ReadProg.eval] at heval
          rw [heval]
          exact ⟨0, .returned, Nat.le_add_left 1 loads⟩
      | load field next =>
          obtain rfl := Option.some_inj.mp hadvance
          cases loads with
          | zero => exact hrest.elim
          | succ loads =>
              rw [hstill.inner]
              exact ⟨loads + 1, .inner (by omega) (hrest _) heval, Nat.le_refl _⟩
  | returned => cases hadvance

omit [DecidableEq F] in
theorem Still.update {s state : State ι V R} {t : ι} {pc : Pc V R} (h : Still s state)
    (hpc : pc ≠ .writing) :
    Still s { state with pcs := Function.update state.pcs t pc } where
  start := h.start
  finish := h.finish
  inner := h.inner
  quiet other hwriting :=
    h.quiet other ((update_eq_writing_iff (h.quiet t) hpc other).mp hwriting)

/-- One step of any thread, as long as none begins a write. -/
theorem Undisturbed.step {s state next : State ι V R} {prog : ReadProg V R} {n left : Nat}
    {t : ι} {label : Label ι V R} (h : Undisturbed s prog n left (state.pcs t))
    (hwithin : prog.Within n) (hsame : s.start = s.finish) (hstill : Still s state)
    (hwrite : label.isWrite = false) (hcall : ¬ label.isCallOf t)
    (hstep : SeqLock.step state label = some next) :
    ∃ fewer, (Still s next ∧ Undisturbed s prog n fewer (next.pcs t)) ∧
      fewer + (if label.isStepOf t then 1 else 0) ≤ left := by
  cases label with
  | write other => cases hwrite
  | modify other field f => exact absurd (step_modify.mp hstep).1 (hstill.quiet other)
  | finish other => exact absurd (step_finish.mp hstep).1 (hstill.quiet other)
  | read other prog' =>
      obtain ⟨_, rfl⟩ := step_read.mp hstep
      have hother : t ≠ other := by
        rintro rfl
        simp [Label.isCallOf] at hcall
      refine ⟨left, ⟨hstill.update (by simp), ?_⟩, Nat.le_refl _⟩
      simp only [Function.update_of_ne hother]
      exact h
  | step other =>
      obtain ⟨pc, hadvance, rfl⟩ := step_step.mp hstep
      have hpc := (advance_ne_writing hadvance).2
      by_cases hother : other = t
      · subst hother
        obtain ⟨fewer, hfewer, hle⟩ := h.advance hwithin hsame hstill hadvance
        refine ⟨fewer, ⟨hstill.update hpc, ?_⟩, by simpa [Label.isStepOf] using hle⟩
        simp only [Function.update_self]
        exact hfewer
      · refine ⟨left, ⟨hstill.update hpc, ?_⟩, by simp [Label.isStepOf, hother]⟩
        simp only [Function.update_of_ne (Ne.symm hother)]
        exact h

omit [DecidableEq ι] [DecidableEq F] in
theorem Undisturbed.returned_or_underway {s : State ι V R} {prog : ReadProg V R} {n left : Nat}
    {pc : Pc V R} (h : Undisturbed s prog n left pc) (hwithin : prog.Within n) :
    pc = .returned (prog.eval s.inner) ∨ 0 < left ∧ Underway n pc := by
  cases h with
  | returned => exact .inl rfl
  | loadEnd => exact .inr ⟨Nat.succ_pos _, hwithin⟩
  | loadStart => exact .inr ⟨Nat.succ_pos _, hwithin⟩
  | inner hle hleft heval => exact .inr ⟨Nat.succ_pos _, hwithin, _, hle, hleft⟩

/-- A read that is called while no thread is within a write, and is not overtaken by one that
begins, takes at most `n + 3` steps of its own, whatever the other readers do.  It can go on
until it returns, and it returns what the lock held when it was called. -/
theorem read_returns_of_quiet {inner : ∀ field, V field} {pre rest : List (Label ι V R)}
    {s last : State ι V R} {t : ι} {prog : ReadProg V R} {n : Nat}
    (hpre : StepFn.run SeqLock.step (init ι R inner) pre = some s) (hquiet : Quiet s)
    (hrun : StepFn.run SeqLock.step s (.read t prog :: rest) = some last)
    (hnone : starts rest = 0) (honeRead : ∀ label ∈ rest, ¬ label.isCallOf t)
    (hwithin : prog.Within n) :
    rest.countP (Label.isStepOf t) ≤ n + 3 ∧
      (last.pcs t = .returned (prog.eval s.inner) ∨
        rest.countP (Label.isStepOf t) < n + 3 ∧
          ∃ next, SeqLock.step last (.step t) = some next) := by
  obtain ⟨called, hcall, hrest⟩ := Option.bind_eq_some_iff.mp hrun
  obtain ⟨_, rfl⟩ := step_read.mp hcall
  have hsame : s.start = s.finish := by
    by_contra hne
    exact (counts_of_run hpre).not_quiet hne hquiet
  have hpaid : ∀ label ∈ rest, ∀ (state : State ι V R) (left : Nat) (next : State ι V R),
      Still s state ∧ Undisturbed s prog n left (state.pcs t) →
      SeqLock.step state label = some next →
      ∃ fewer, (Still s next ∧ Undisturbed s prog n fewer (next.pcs t)) ∧
        fewer + (if Label.isStepOf t label then 1 else 0) ≤ left := by
    rintro label hlabel state left next ⟨hstill, hundisturbed⟩ hstep
    have hwrite : label.isWrite = false := by
      simpa using List.countP_eq_zero.mp hnone label hlabel
    exact hundisturbed.step hwithin hsame hstill hwrite (honeRead label hlabel) hstep
  have hstart : Still s { s with pcs := Function.update s.pcs t (.loadEnd prog) } ∧
      Undisturbed s prog n (n + 3) (Function.update s.pcs t (.loadEnd prog) t) := by
    have hhere : Still s s := ⟨rfl, rfl, rfl, hquiet⟩
    rw [Function.update_self]
    exact ⟨hhere.update (by simp), .loadEnd⟩
  obtain ⟨left, ⟨_, hundisturbed⟩, hcount⟩ := StepFn.exists_credit_left hpaid hstart hrest
  refine ⟨by omega, ?_⟩
  rcases hundisturbed.returned_or_underway hwithin with hreturned | ⟨hpos, hunderway⟩
  · exact .inl hreturned
  · obtain ⟨pc, hadvance⟩ := hunderway.exists_advance last
    exact .inr ⟨by omega, _, step_step.mpr ⟨pc, hadvance, rfl⟩⟩

/-- Thread 1 has written, and reads while thread 0 does. -/
def pairWrite : List (Label Bool (fun _ : Bool => UInt64) (UInt64 × UInt64)) :=
  [.write true, .modify true false (· + 1), .modify true true (· + 1), .finish true]

def pairReads : List (Label Bool (fun _ : Bool => UInt64) (UInt64 × UInt64)) :=
  [.step false, .read true pairReader, .step false, .step true, .step false, .step false,
    .step false]

theorem read_returns_of_quiet_pair :
    ∃ s last, StepFn.run SeqLock.step (init Bool _ fun _ => 0) pairWrite = some s ∧
      StepFn.run SeqLock.step s (.read false pairReader :: pairReads) = some last ∧
      last.pcs false = .returned (pairReader.eval s.inner) ∧ pairReader.eval s.inner = (1, 1) := by
  obtain ⟨s, last, hpre, hrun, hwriter, hreader, hone⟩ :
      ∃ s last, StepFn.run SeqLock.step (init Bool _ fun _ => 0) pairWrite = some s ∧
        StepFn.run SeqLock.step s (.read false pairReader :: pairReads) = some last ∧
        s.pcs true = .idle ∧ s.pcs false = .idle ∧ pairReader.eval s.inner = (1, 1) :=
    ⟨_, _, rfl, rfl, rfl, rfl, rfl⟩
  have hquiet : Quiet s := by
    intro t
    cases t with
    | false => simp [hreader]
    | true => simp [hwriter]
  have hcalls : ∀ label ∈ pairReads, ¬ label.isCallOf false := by
    simp [pairReads, Label.isCallOf]
  obtain ⟨_, hreturned | ⟨hfew, _⟩⟩ :=
    read_returns_of_quiet hpre hquiet hrun (by decide) hcalls within_pairReader
  · exact ⟨s, last, hpre, hrun, hreturned, hone⟩
  · exact absurd hfew (by decide)

end Runs

end SeqLock

end Ohnotel
