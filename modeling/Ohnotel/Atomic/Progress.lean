/-
# How often an update is tried again

The loop of `update_with` goes round again if an exchange fails: the word is no longer the
one it loaded, or the exchange fails for no reason.  So every access of a thread is one its
call needs, or it is paid for by a failure without a reason or by another thread that has
changed the word.

Who changes the word has done with it all that its call does.  So while one thread keeps
trying, calls of others come to their end.
-/

import Ohnotel.Atomic.Linearization
import Ohnotel.Foundation.Tally

open Foundation

namespace Ohnotel.Atomic.AtomicF64

variable {ι W : Type}

/-- The accesses that a call makes if nothing interferes, at most. -/
def Call.accesses : Call W → Nat
  | .updateWith _ => 2
  | .swap _ | .store _ | .load => 1

section Counting

variable [DecidableEq ι]

def Label.isAccessOf (t : ι) : Label ι W → Bool
  | .access other _ => other = t
  | .invoke _ _ | .respond _ => false

/-- The accesses a step of the thread pays for: those its call needs, and one for an exchange
that fails for no reason. -/
def Label.brings (t : ι) : Label ι W → Nat
  | .invoke other call => if other = t then call.accesses else 0
  | .access other fails => if other = t ∧ fails = true then 1 else 0
  | .respond _ => 0

variable [DecidableEq W]

/-- Whether another thread changes the word and ends its call with it. -/
def overtaken (t : ι) (s : Shared ι W) : Label ι W → Nat
  | .access other fails =>
      match access s.word fails (s.pcs other) with
      | some (word, .returning _) => if other ≠ t ∧ word ≠ s.word then 1 else 0
      | _ => 0
  | .invoke _ _ | .respond _ => 0

end Counting

/-! ## One step -/

section Steps

variable [DecidableEq W]

/-- The accesses that are still to be made if nothing interferes any more, at most. -/
def Pc.left (word : W) : Pc W → Nat
  | idle | returning _ => 0
  | called _ call => call.accesses
  | exchanging _ _ old => if word = old then 1 else 2

/-- Another word may make an exchange fail that would not have failed. -/
theorem left_word_le (word word' : W) (pc : Pc W) :
    pc.left word' ≤ pc.left word + if word' ≠ word then 1 else 0 := by
  cases pc with
  | idle | returning | called => exact Nat.le_add_right _ _
  | exchanging id f old =>
      by_cases hsame : word' = word
      · subst hsame
        exact Nat.le_add_right _ _
      · rw [if_pos hsame, Pc.left, Pc.left]
        split <;> split <;> omega

/-- After the body of the loop there is at most the exchange of the word just loaded. -/
theorem left_loop_le (id : Nat) (f : W → W) (word : W) : (loop id f word).left word ≤ 1 := by
  by_cases hf : f word = word
  · rw [loop, if_pos hf, Pc.left]
    exact Nat.zero_le 1
  · rw [loop, if_neg hf, Pc.left, if_pos rfl]

/-- An access uses up one of those that were left, unless the exchange fails for no
reason. -/
theorem left_access {word word' : W} {fails : Bool} {pc pc' : Pc W}
    (haccess : access word fails pc = some (word', pc')) :
    pc'.left word' + 1 ≤ pc.left word + if fails = true then 1 else 0 := by
  cases pc with
  | idle | returning => cases haccess
  | called id call =>
      cases call with
      | updateWith f =>
          obtain ⟨rfl, rfl⟩ := Prod.mk.inj (Option.some.inj haccess)
          have hloop := left_loop_le id f word
          show _ ≤ 2 + _
          omega
      | swap value | store value | load =>
          obtain ⟨rfl, rfl⟩ := Prod.mk.inj (Option.some.inj haccess)
          exact Nat.le_add_right 1 _
  | exchanging id f old =>
      rw [access] at haccess
      split at haccess
      case isTrue h =>
        obtain ⟨rfl, rfl⟩ := Prod.mk.inj (Option.some.inj haccess)
        rw [Pc.left, Pc.left, if_pos h.1]
        exact Nat.le_add_right 1 _
      case isFalse hfailed =>
        obtain ⟨rfl, rfl⟩ := Prod.mk.inj (Option.some.inj haccess)
        have hloop := left_loop_le id f word
        rw [Pc.left]
        by_cases hsame : word = old
        · have hfails : fails = true := by simpa [hsame] using hfailed
          rw [if_pos hsame, if_pos hfails]
          omega
        · rw [if_neg hsame]
          omega

variable [DecidableEq ι]

/-- Who changes the word ends a call. -/
theorem le_overtaken {s : Shared ι W} {t other : ι} {fails : Bool} {word : W} {pc : Pc W}
    (haccess : access s.word fails (s.pcs other) = some (word, pc)) (hother : other ≠ t) :
    (if word ≠ s.word then 1 else 0) ≤ overtaken t s (.access other fails) := by
  by_cases hword : word = s.word
  · rw [if_neg (not_not.mpr hword)]
    exact Nat.zero_le _
  · obtain ⟨id, call, _, ⟨hsame, _⟩ | ⟨_, rfl⟩⟩ := access_cases haccess
    · exact absurd hsame hword
    · simp [overtaken, haccess, hother]

/-- Every access of a thread is paid for: by what its call needs, by an exchange that fails
for no reason, or by another thread that ends a call. -/
theorem left_step {s s' : Shared ι W} {label : Label ι W} (hstep : step s label = some s')
    (t : ι) :
    (s'.pcs t).left s'.word + (if label.isAccessOf t then 1 else 0) ≤
      (s.pcs t).left s.word + label.brings t + overtaken t s label := by
  cases label with
  | invoke other call =>
      cases hpc : s.pcs other with
      | idle =>
          simp only [step, hpc, Option.some.injEq] at hstep
          subst hstep
          by_cases hother : other = t
          · subst hother
            simp only [Label.isAccessOf, Label.brings, Function.update_self, hpc, Pc.left,
              Bool.false_eq_true, if_false, if_true]
            omega
          · simp only [Label.isAccessOf, Function.update_of_ne (Ne.symm hother),
              Bool.false_eq_true, if_false]
            omega
      | called | exchanging | returning => simp [step, hpc] at hstep
  | respond other =>
      cases hpc : s.pcs other with
      | returning call =>
          simp only [step, hpc, Option.some.injEq] at hstep
          subst hstep
          by_cases hother : other = t
          · subst hother
            simp only [Label.isAccessOf, Function.update_self, Pc.left, Bool.false_eq_true,
              if_false]
            omega
          · simp only [Label.isAccessOf, Function.update_of_ne (Ne.symm hother),
              Bool.false_eq_true, if_false]
            omega
      | idle | called | exchanging => simp [step, hpc] at hstep
  | access other fails =>
      obtain ⟨⟨word, pc⟩, haccess, rfl⟩ := Option.map_eq_some_iff.mp hstep
      by_cases hother : other = t
      · subst hother
        have hleft := left_access haccess
        simp only [Label.isAccessOf, Label.brings, Function.update_self, decide_true, if_true,
          true_and] at hleft ⊢
        omega
      · have hleft := left_word_le s.word word (s.pcs t)
        have hchanged := le_overtaken haccess hother
        simp only [Label.isAccessOf, hother, Function.update_of_ne (Ne.symm hother), decide_false,
          Bool.false_eq_true, if_false]
        omega

/-- No thread tries again for nothing.  In every run a thread accesses the word as often as
its calls need, and once more for each of its exchanges that fails without a reason and for
each call of another thread that changes the word and is done.  So if one thread keeps
trying, calls of others come to their end. -/
theorem accesses_le (word : W) {labels : List (Label ι W)} {last : Shared ι W}
    (hrun : StepFn.run step (start ι word) labels = some last) (t : ι) :
    labels.countP (Label.isAccessOf t) ≤
      (labels.map (Label.brings t)).sum +
        StepFn.tally step (overtaken t) (start ι word) labels := by
  have hpaid : ∀ label ∈ labels, ∀ (state : Shared ι W) (available : Nat) (next : Shared ι W),
      available = (state.pcs t).left state.word → step state label = some next →
      ∃ left, left = (next.pcs t).left next.word ∧
        left + (if Label.isAccessOf t label then 1 else 0) ≤
          available + Label.brings t label + overtaken t state label := by
    rintro label _ state _ next rfl hstep
    exact ⟨_, rfl, left_step hstep t⟩
  have hstart : 0 = (((start ι word).pcs t).left (start ι word).word) := rfl
  obtain ⟨left, _, hcount⟩ := StepFn.exists_credit hpaid hstart hrun
  omega

/-- In `race` thread 0 makes four accesses: two that its call needs, one more because thread
1 has stored, and one because its exchange fails. -/
theorem accesses_le_race :
    race.countP (Label.isAccessOf 0) = 4 ∧ (race.map (Label.brings 0)).sum = 3 ∧
      race.countP (Label.isAccessOf 0) ≤ (race.map (Label.brings 0)).sum +
        StepFn.tally step (overtaken 0) (start (Fin 3) 1) race :=
  ⟨by decide, by decide, accesses_le 1 rfl 0⟩

end Steps

end Ohnotel.Atomic.AtomicF64
