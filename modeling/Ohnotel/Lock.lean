/-
# The sequence lock

Writers announce themselves by incrementing `start`, change the fields of `inner` by
atomic steps, and increment `end`; nothing keeps them apart from one another.  A
reader loads `end` and then `start`, loads fields only if the two agree, and accepts
what it has loaded only if `start` has not moved.

What makes this sound is counting.  `start` has been incremented once for every
write begun and `end` once for every write finished, so when the older value of
`end` equals the later one of `start`, every write begun so far had finished by
then; and while `start` stands still no write begins.  The instant a read is true of
is the one at which it loaded `start` for the first time.

The counters are 64-bit words.  What is assumed of them is that during a read
`start` does not run a whole round ahead of `end`.
-/

import Mathlib.Data.Finset.Card
import Mathlib.Data.UInt
import Ohnotel.Foundation.Transition

namespace Ohnotel

open Foundation

namespace SeqLock

variable {ι F : Type} {V : F → Type} {R : Type}

/-- What a reader does with `inner`: it loads fields one at a time, and what it has
loaded may decide what it loads next. -/
inductive ReadProg (V : F → Type) (R : Type)
  | ret (result : R)
  | load (field : F) (next : V field → ReadProg V R)

/-- The result of loading every field from the same content. -/
def ReadProg.eval : ReadProg V R → (∀ field, V field) → R
  | .ret result, _ => result
  | .load field next, inner => (next (inner field)).eval inner

/-- Where a thread is: between calls, within a write, or within a read.  A reader
keeps its program to start over with. -/
inductive Pc (V : F → Type) (R : Type)
  | idle
  | writing
  | loadEnd (prog : ReadProg V R)
  | loadStart (prog : ReadProg V R) (e1 : UInt64)
  | inner (prog : ReadProg V R) (s1 : UInt64) (left : ReadProg V R)
  | returned (result : R)

/-- A thread that may start a call. -/
def Pc.Free : Pc V R → Prop
  | .idle | .returned _ => True
  | .writing | .loadEnd _ | .loadStart _ _ | .inner _ _ _ => False

instance (pc : Pc V R) : Decidable pc.Free := by
  cases pc <;> unfold Pc.Free <;> infer_instance

/-- The lock with the threads that use it.  `finish` is the counter `end`. -/
structure State (ι : Type) (V : F → Type) (R : Type) where
  start : UInt64
  finish : UInt64
  inner : ∀ field, V field
  pcs : ι → Pc V R

/-- One atomic step of a thread: a write begins, changes a field, finishes; a read is
called, and goes on. -/
inductive Label (ι : Type) (V : F → Type) (R : Type)
  | write (t : ι)
  | modify (t : ι) (field : F) (f : V field → V field)
  | finish (t : ι)
  | read (t : ι) (prog : ReadProg V R)
  | step (t : ι)

variable [DecidableEq ι] [DecidableEq F]

/-- The next step of a read. -/
def advance (s : State ι V R) : Pc V R → Option (Pc V R)
  | .loadEnd prog => some (.loadStart prog s.finish)
  | .loadStart prog e1 =>
      if s.start ≠ e1 then some (.loadEnd prog) else some (.inner prog s.start prog)
  | .inner prog s1 (.load field next) => some (.inner prog s1 (next (s.inner field)))
  | .inner prog s1 (.ret result) =>
      if s1 = s.start then some (.returned result) else some (.loadEnd prog)
  | .idle | .writing | .returned _ => none

def step (s : State ι V R) : Label ι V R → Option (State ι V R)
  | .write t =>
      if (s.pcs t).Free then
        some { s with start := s.start + 1, pcs := Function.update s.pcs t .writing }
      else none
  | .modify t field f =>
      match s.pcs t with
      | .writing => some { s with inner := Function.update s.inner field (f (s.inner field)) }
      | _ => none
  | .finish t =>
      match s.pcs t with
      | .writing => some { s with finish := s.finish + 1, pcs := Function.update s.pcs t .idle }
      | _ => none
  | .read t prog =>
      if (s.pcs t).Free then some { s with pcs := Function.update s.pcs t (.loadEnd prog) }
      else none
  | .step t =>
      (advance s (s.pcs t)).map fun pc => { s with pcs := Function.update s.pcs t pc }

omit [DecidableEq ι] [DecidableEq F] in
/-- `SeqLock::new`, with no thread using the lock. -/
def init (ι R : Type) (inner : ∀ field, V field) : State ι V R where
  start := 0
  finish := 0
  inner := inner
  pcs _ := .idle

/-! ## What a step can do -/

theorem step_write {s s' : State ι V R} {t : ι} : step s (.write t) = some s' ↔
    (s.pcs t).Free ∧
      s' = { s with start := s.start + 1, pcs := Function.update s.pcs t .writing } := by
  simp only [step]
  split
  · rename_i hfree
    simp [hfree, eq_comm]
  · rename_i hbusy
    simp [hbusy]

theorem step_modify {s s' : State ι V R} {t : ι} {field : F} {f : V field → V field} :
    step s (.modify t field f) = some s' ↔
      s.pcs t = .writing ∧
        s' = { s with inner := Function.update s.inner field (f (s.inner field)) } := by
  cases hpc : s.pcs t <;> simp [step, hpc, eq_comm]

theorem step_finish {s s' : State ι V R} {t : ι} : step s (.finish t) = some s' ↔
    s.pcs t = .writing ∧
      s' = { s with finish := s.finish + 1, pcs := Function.update s.pcs t .idle } := by
  cases hpc : s.pcs t <;> simp [step, hpc, eq_comm]

theorem step_read {s s' : State ι V R} {t : ι} {prog : ReadProg V R} :
    step s (.read t prog) = some s' ↔
      (s.pcs t).Free ∧ s' = { s with pcs := Function.update s.pcs t (.loadEnd prog) } := by
  simp only [step]
  split
  · rename_i hfree
    simp [hfree, eq_comm]
  · rename_i hbusy
    simp [hbusy]

theorem step_step {s s' : State ι V R} {t : ι} : step s (.step t) = some s' ↔
    ∃ pc, advance s (s.pcs t) = some pc ∧ s' = { s with pcs := Function.update s.pcs t pc } := by
  simp only [step, Option.map_eq_some_iff, @eq_comm _ _ s']

/-- What a read does next: it loads a counter or a field, or it starts again because a
counter has changed. -/
inductive Advances (s : State ι V R) : Pc V R → Pc V R → Prop
  | loadEnd (prog) : Advances s (.loadEnd prog) (.loadStart prog s.finish)
  | busy {prog e1} (hne : s.start ≠ e1) : Advances s (.loadStart prog e1) (.loadEnd prog)
  | loadStart (prog) : Advances s (.loadStart prog s.start) (.inner prog s.start prog)
  | load (prog s1 field next) :
      Advances s (.inner prog s1 (.load field next)) (.inner prog s1 (next (s.inner field)))
  | ret (prog result) : Advances s (.inner prog s.start (.ret result)) (.returned result)
  | changed {prog s1 result} (hne : s1 ≠ s.start) :
      Advances s (.inner prog s1 (.ret result)) (.loadEnd prog)

omit [DecidableEq ι] [DecidableEq F] in
theorem advances_of_advance {s : State ι V R} {pc pc' : Pc V R}
    (hadvance : advance s pc = some pc') : Advances s pc pc' := by
  cases pc with
  | idle | writing | returned _ => simp [advance] at hadvance
  | loadEnd prog =>
      obtain rfl := Option.some_inj.mp hadvance
      exact .loadEnd prog
  | loadStart prog e1 =>
      rw [advance] at hadvance
      by_cases hsame : s.start = e1
      · subst hsame
        rw [if_neg (not_not.mpr rfl)] at hadvance
        obtain rfl := Option.some_inj.mp hadvance
        exact .loadStart prog
      · rw [if_pos hsame] at hadvance
        obtain rfl := Option.some_inj.mp hadvance
        exact .busy hsame
  | inner prog s1 left =>
      cases left with
      | load field next =>
          obtain rfl := Option.some_inj.mp hadvance
          exact .load prog s1 field next
      | ret result =>
          rw [advance] at hadvance
          by_cases hsame : s1 = s.start
          · subst hsame
            rw [if_pos rfl] at hadvance
            obtain rfl := Option.some_inj.mp hadvance
            exact .ret prog result
          · rw [if_neg hsame] at hadvance
            obtain rfl := Option.some_inj.mp hadvance
            exact .changed hsame

omit [DecidableEq ι] [DecidableEq F] in
/-- A read goes on from within a read, and never into a write. -/
theorem advance_ne_writing {s : State ι V R} {pc pc' : Pc V R}
    (hadvance : advance s pc = some pc') : pc ≠ .writing ∧ pc' ≠ .writing := by
  cases advances_of_advance hadvance <;> simp

/-! ## Counting writes -/

def Label.isWrite : Label ι V R → Bool
  | .write _ => true
  | .modify _ _ _ | .finish _ | .read _ _ | .step _ => false

def Label.isFinish : Label ι V R → Bool
  | .finish _ => true
  | .write _ | .modify _ _ _ | .read _ _ | .step _ => false

omit [DecidableEq ι] [DecidableEq F] in
/-- How many writes a run has begun. -/
def starts (labels : List (Label ι V R)) : Nat := labels.countP Label.isWrite

omit [DecidableEq ι] [DecidableEq F] in
/-- How many writes a run has finished. -/
def finishes (labels : List (Label ι V R)) : Nat := labels.countP Label.isFinish

omit [DecidableEq ι] [DecidableEq F] in
theorem starts_append (first second : List (Label ι V R)) :
    starts (first ++ second) = starts first + starts second :=
  List.countP_append

omit [DecidableEq ι] [DecidableEq F] in
theorem finishes_append (first second : List (Label ι V R)) :
    finishes (first ++ second) = finishes first + finishes second :=
  List.countP_append

omit [DecidableEq ι] [DecidableEq F] in
/-- No thread is within a write. -/
def Quiet (s : State ι V R) : Prop := ∀ t, s.pcs t ≠ .writing

/-- The counters count: `start` the writes begun, `finish` those finished, and the
difference the threads within one. -/
structure Counts (labels : List (Label ι V R)) (s : State ι V R) : Prop where
  start : s.start = UInt64.ofNat (starts labels)
  finish : s.finish = UInt64.ofNat (finishes labels)
  writers : ∃ active : Finset ι, (∀ t, t ∈ active ↔ s.pcs t = .writing) ∧
    starts labels = finishes labels + active.card

omit [DecidableEq ι] [DecidableEq F] in
/-- A step that begins and finishes no write. -/
theorem Counts.frame {labels : List (Label ι V R)} {label : Label ι V R}
    {s s' : State ι V R} (hcounts : Counts labels s) (hwrite : label.isWrite = false)
    (hfinish : label.isFinish = false) (hstart' : s'.start = s.start)
    (hfinish' : s'.finish = s.finish)
    (hpcs : ∀ t, s'.pcs t = .writing ↔ s.pcs t = .writing) : Counts (labels ++ [label]) s' := by
  have hstarts : starts (labels ++ [label]) = starts labels := by
    simp [starts, hwrite]
  have hfinishes : finishes (labels ++ [label]) = finishes labels := by
    simp [finishes, hfinish]
  obtain ⟨active, hactive, hsum⟩ := hcounts.writers
  refine ⟨?_, ?_, active, fun t => ?_, ?_⟩
  · rw [hstart', hstarts, hcounts.start]
  · rw [hfinish', hfinishes, hcounts.finish]
  · rw [hactive, hpcs]
  · rw [hstarts, hfinishes, hsum]

omit [DecidableEq ι] [DecidableEq F] in
theorem Pc.Free.ne_writing {pc : Pc V R} (hfree : pc.Free) : pc ≠ .writing := by
  rintro rfl
  exact hfree

omit [DecidableEq F] in
/-- Moving a thread from one place outside a write to another. -/
theorem update_eq_writing_iff {s : State ι V R} {t : ι} {pc : Pc V R}
    (hbefore : s.pcs t ≠ .writing) (hafter : pc ≠ .writing) (other : ι) :
    Function.update s.pcs t pc other = .writing ↔ s.pcs other = .writing := by
  by_cases hother : other = t
  · subst hother
    simp [hbefore, hafter]
  · simp [hother]

theorem counts_step {labels : List (Label ι V R)} {label : Label ι V R} {s s' : State ι V R}
    (hcounts : Counts labels s) (hstep : step s label = some s') :
    Counts (labels ++ [label]) s' := by
  cases label with
  | write t =>
      obtain ⟨hfree, rfl⟩ := step_write.mp hstep
      obtain ⟨active, hactive, hsum⟩ := hcounts.writers
      have hout : t ∉ active := fun hin => hfree.ne_writing ((hactive t).mp hin)
      refine ⟨?_, ?_, insert t active, fun other => ?_, ?_⟩
      · simp only [starts_append, hcounts.start, UInt64.ofNat_add]
        rfl
      · simp only [finishes_append, hcounts.finish]
        rfl
      · by_cases hother : other = t
        · subst hother
          simp
        · simp [hother, hactive]
      · rw [starts_append, finishes_append, Finset.card_insert_of_notMem hout, hsum]
        rfl
  | finish t =>
      obtain ⟨hwriting, rfl⟩ := step_finish.mp hstep
      obtain ⟨active, hactive, hsum⟩ := hcounts.writers
      have hin : t ∈ active := (hactive t).mpr hwriting
      refine ⟨?_, ?_, active.erase t, fun other => ?_, ?_⟩
      · simp only [starts_append, hcounts.start]
        rfl
      · simp only [finishes_append, hcounts.finish, UInt64.ofNat_add]
        rfl
      · by_cases hother : other = t
        · subst hother
          simp
        · simp [hother, hactive]
      · have hcard := Finset.card_erase_add_one hin
        rw [starts_append, finishes_append, hsum, ← hcard]
        show finishes labels + _ + 0 = finishes labels + 1 + _
        omega
  | modify t field f =>
      obtain ⟨_, rfl⟩ := step_modify.mp hstep
      exact hcounts.frame rfl rfl rfl rfl fun other => Iff.rfl
  | read t prog =>
      obtain ⟨hfree, rfl⟩ := step_read.mp hstep
      exact hcounts.frame rfl rfl rfl rfl (update_eq_writing_iff hfree.ne_writing (by simp))
  | step t =>
      obtain ⟨pc, hadvance, rfl⟩ := step_step.mp hstep
      obtain ⟨hbefore, hafter⟩ := advance_ne_writing hadvance
      exact hcounts.frame rfl rfl rfl rfl (update_eq_writing_iff hbefore hafter)

theorem counts_of_run {inner : ∀ field, V field} {labels : List (Label ι V R)}
    {last : State ι V R} (hrun : StepFn.run step (init ι R inner) labels = some last) :
    Counts labels last := by
  apply StepFn.run_induction (motive := Counts) _ _ hrun
  · exact ⟨rfl, rfl, ∅, fun t => by simp [init], rfl⟩
  · exact fun _ _ _ _ _ hcounts hstep => counts_step hcounts hstep

omit [DecidableEq ι] [DecidableEq F] in
/-- As many writes finished as begun: no thread is within one. -/
theorem Counts.quiet {labels : List (Label ι V R)} {s : State ι V R} (hcounts : Counts labels s)
    (heq : starts labels = finishes labels) : Quiet s := by
  obtain ⟨active, hactive, hsum⟩ := hcounts.writers
  have hnone : active = ∅ := Finset.card_eq_zero.mp (by omega)
  intro t hwriting
  simpa [hnone] using (hactive t).mpr hwriting

omit [DecidableEq ι] [DecidableEq F] in
theorem Counts.finishes_le {labels : List (Label ι V R)} {s : State ι V R}
    (hcounts : Counts labels s) : finishes labels ≤ starts labels := by
  obtain ⟨active, _, hsum⟩ := hcounts.writers
  omega

/-! ## While no write begins -/

/-- From a quiet state, as long as no write begins, the content stays what it is. -/
theorem inner_eq_of_quiet {s last : State ι V R} {labels : List (Label ι V R)}
    (hquiet : Quiet s) (hnone : starts labels = 0)
    (hrun : StepFn.run step s labels = some last) : last.inner = s.inner ∧ Quiet last := by
  have hlabels : ∀ label ∈ labels, label.isWrite = false := by
    simpa [starts, List.countP_eq_zero] using hnone
  apply StepFn.invariant_of_step (fun state => state.inner = s.inner ∧ Quiet state) _
    ⟨rfl, hquiet⟩ hrun
  rintro label hlabel state next ⟨hinner, hstill⟩ hstep
  cases label with
  | write t => simpa [Label.isWrite] using hlabels _ hlabel
  | modify t field f => exact absurd (step_modify.mp hstep).1 (hstill t)
  | finish t => exact absurd (step_finish.mp hstep).1 (hstill t)
  | read t prog =>
      obtain ⟨hfree, rfl⟩ := step_read.mp hstep
      exact ⟨hinner, fun other hwriting => hstill other
        ((update_eq_writing_iff hfree.ne_writing (by simp) other).mp hwriting)⟩
  | step t =>
      obtain ⟨pc, hadvance, rfl⟩ := step_step.mp hstep
      obtain ⟨hbefore, hafter⟩ := advance_ne_writing hadvance
      exact ⟨hinner, fun other hwriting => hstill other
        ((update_eq_writing_iff hbefore hafter other).mp hwriting)⟩

/-! ## The effect of the writes that have finished -/

def Label.isFinishOf (t : ι) : Label ι V R → Bool
  | .finish other => other = t
  | .write _ | .modify _ _ _ | .read _ _ | .step _ => false

/-- What the writes that a run has finished, and no others, make of a content: their
changes in the order of the run. -/
def finishedEffect : List (Label ι V R) → (∀ field, V field) → ∀ field, V field
  | [], inner => inner
  | .modify t field f :: rest, inner =>
      finishedEffect rest
        (if rest.any (Label.isFinishOf t) then Function.update inner field (f (inner field))
          else inner)
  | .write _ :: rest, inner | .finish _ :: rest, inner | .read _ _ :: rest, inner
  | .step _ :: rest, inner => finishedEffect rest inner

/-- A thread that was within a write and is not any more has finished it. -/
theorem any_isFinishOf_of_quiet {s last : State ι V R} {labels : List (Label ι V R)} {t : ι}
    (hwriting : s.pcs t = .writing) (hquiet : Quiet last)
    (hrun : StepFn.run step s labels = some last) :
    labels.any (Label.isFinishOf t) = true := by
  by_contra hnone
  have hlabels : ∀ label ∈ labels, label.isFinishOf t = false := by simpa using hnone
  refine hquiet t (StepFn.invariant_of_step (fun state => state.pcs t = .writing) ?_ hwriting hrun)
  intro label hlabel state next hhere hstep
  have hother : ∀ {other : ι} {pc : Pc V R}, state.pcs other ≠ .writing →
      Function.update state.pcs other pc t = .writing := by
    intro other pc hne
    rw [Function.update_of_ne (by rintro rfl; exact hne hhere)]
    exact hhere
  cases label with
  | write other =>
      obtain ⟨hfree, rfl⟩ := step_write.mp hstep
      exact hother hfree.ne_writing
  | modify other field f =>
      obtain ⟨_, rfl⟩ := step_modify.mp hstep
      exact hhere
  | finish other =>
      obtain ⟨_, rfl⟩ := step_finish.mp hstep
      have hne : t ≠ other := by
        rintro rfl
        simpa [Label.isFinishOf] using hlabels _ hlabel
      exact (Function.update_of_ne hne _ _).trans hhere
  | read other prog =>
      obtain ⟨hfree, rfl⟩ := step_read.mp hstep
      exact hother hfree.ne_writing
  | step other =>
      obtain ⟨pc, hadvance, rfl⟩ := step_step.mp hstep
      exact hother (advance_ne_writing hadvance).1

/-- In a quiet state the content is the effect of the writes that have finished. -/
theorem inner_eq_finishedEffect {s last : State ι V R} {labels : List (Label ι V R)}
    (hquiet : Quiet last) (hrun : StepFn.run step s labels = some last) :
    last.inner = finishedEffect labels s.inner := by
  induction labels generalizing s with
  | nil =>
      obtain rfl : s = last := by simpa using hrun
      rfl
  | cons label rest ih =>
      obtain ⟨next, hstep, hrest⟩ := Option.bind_eq_some_iff.mp hrun
      rw [ih hrest]
      cases label with
      | write t =>
          obtain ⟨_, rfl⟩ := step_write.mp hstep
          rfl
      | modify t field f =>
          obtain ⟨hwriting, rfl⟩ := step_modify.mp hstep
          have hstill : ({ s with inner := Function.update s.inner field (f (s.inner field)) } :
              State ι V R).pcs t = .writing := hwriting
          rw [finishedEffect, if_pos (any_isFinishOf_of_quiet hstill hquiet hrest)]
      | finish t =>
          obtain ⟨_, rfl⟩ := step_finish.mp hstep
          rfl
      | read t prog =>
          obtain ⟨_, rfl⟩ := step_read.mp hstep
          rfl
      | step t =>
          obtain ⟨pc, _, rfl⟩ := step_step.mp hstep
          rfl

/-! ## A read -/

/-- The read that was called at the end of `base` has loaded `start` at the end of
`done`, and found there what it had loaded from `end` before. -/
structure Matched (base done : List (Label ι V R)) (s instant : State ι V R)
    (s1 : UInt64) : Prop where
  reached : StepFn.run step s done = some instant
  start : instant.start = s1
  finish : ∃ earlier later, done = earlier ++ later ∧
    s1 = UInt64.ofNat (finishes (base ++ earlier))

/-- What a read has seen so far.  `s` is the state it was called in, `during` the
steps of all threads since. -/
def Reading (base : List (Label ι V R)) (s : State ι V R) (prog : ReadProg V R)
    (during : List (Label ι V R)) : Pc V R → Prop
  | .loadEnd p => p = prog
  | .loadStart p e1 => p = prog ∧ ∃ earlier later, during = earlier ++ later ∧
      e1 = UInt64.ofNat (finishes (base ++ earlier))
  | .inner p s1 left => p = prog ∧ ∃ done mid instant, during = done ++ mid ∧
      Matched base done s instant s1 ∧
      (Quiet instant → starts mid = 0 → left.eval instant.inner = prog.eval instant.inner)
  | .returned _ => True
  | .idle | .writing => False

omit [DecidableEq ι] [DecidableEq F] in
theorem starts_eq_zero_of_append {first second : List (Label ι V R)}
    (hnone : starts (first ++ second) = 0) : starts first = 0 := by
  rw [starts_append] at hnone
  omega

/-- A step of another thread adds nothing to what a read has seen. -/
theorem Reading.extend {base : List (Label ι V R)} {s : State ι V R} {prog : ReadProg V R}
    {during : List (Label ι V R)} {pc : Pc V R} (hreading : Reading base s prog during pc)
    (label : Label ι V R) : Reading base s prog (during ++ [label]) pc := by
  cases pc with
  | idle => exact hreading
  | writing => exact hreading
  | loadEnd p => exact hreading
  | loadStart p e1 =>
      obtain ⟨hprog, earlier, later, rfl, he1⟩ := hreading
      exact ⟨hprog, earlier, later ++ [label], List.append_assoc _ _ _, he1⟩
  | inner p s1 left =>
      obtain ⟨hprog, done, mid, instant, rfl, hmatched, heval⟩ := hreading
      exact ⟨hprog, done, mid ++ [label], instant, List.append_assoc _ _ _, hmatched,
        fun hquiet hnone => heval hquiet (starts_eq_zero_of_append hnone)⟩
  | returned result => trivial

/-- A step of the read itself. -/
theorem Reading.advance {base during : List (Label ι V R)} {s state : State ι V R}
    {prog : ReadProg V R} {pc pc' : Pc V R} {label : Label ι V R}
    (hcounts : Counts (base ++ during) state) (hrun : StepFn.run step s during = some state)
    (hreading : Reading base s prog during pc)
    (hstep : SeqLock.advance state pc = some pc') :
    Reading base s prog (during ++ [label]) pc' := by
  cases advances_of_advance hstep with
  | loadEnd p => exact ⟨hreading, during, [label], rfl, hcounts.finish⟩
  | busy hne => exact hreading.1
  | loadStart p =>
      obtain ⟨hprog, hloaded⟩ := hreading
      exact ⟨hprog, during, [label], state, rfl, ⟨hrun, rfl, hloaded⟩, fun _ _ => by rw [hprog]⟩
  | load p s1 field next =>
      obtain ⟨hprog, done, mid, instant, rfl, hmatched, heval⟩ := hreading
      obtain ⟨middle, hmiddle, hmid⟩ := (StepFn.run_append_eq_some step).mp hrun
      obtain rfl : instant = middle := Option.some_inj.mp (hmatched.reached.symm.trans hmiddle)
      refine ⟨hprog, done, mid ++ [label], instant, List.append_assoc _ _ _, hmatched, ?_⟩
      intro hquiet hnone
      have hmidNone := starts_eq_zero_of_append hnone
      -- The field still holds what it held at the instant.
      rw [(inner_eq_of_quiet hquiet hmidNone hmid).1]
      exact heval hquiet hmidNone
  | ret p result => trivial
  | changed hne => exact hreading.1

def Label.isCallOf (t : ι) : Label ι V R → Bool
  | .write other | .read other _ => other = t
  | .modify _ _ _ | .finish _ | .step _ => false

/-- What a read has seen, at the end of any run of steps after its call in which its
thread calls nothing else. -/
theorem reading_of_run {base during : List (Label ι V R)} {s s' last : State ι V R} {t : ι}
    {prog : ReadProg V R} (hcounts : Counts base s)
    (hcall : step s (.read t prog) = some s') (hnone : ∀ label ∈ during, ¬ label.isCallOf t)
    (hrun : StepFn.run step s' during = some last) :
    Counts (base ++ [.read t prog] ++ during) last ∧
      Reading (base ++ [.read t prog]) s' prog during (last.pcs t) := by
  have hbase := counts_step hcounts hcall
  generalize base ++ [Label.read t prog] = called at hbase ⊢
  suffices h : Counts (called ++ during) last ∧ ((∀ label ∈ during, ¬ label.isCallOf t) →
      Reading called s' prog during (last.pcs t)) from ⟨h.1, h.2 hnone⟩
  refine StepFn.run_induction (motive := fun labels state =>
    Counts (called ++ labels) state ∧ ((∀ label ∈ labels, ¬ label.isCallOf t) →
      Reading called s' prog labels (state.pcs t))) ?_ ?_ hrun
  · refine ⟨by simpa using hbase, fun _ => ?_⟩
    obtain ⟨_, rfl⟩ := step_read.mp hcall
    simp only [Function.update_self]
    rfl
  · intro labels state label next hbefore hind hstep
    obtain ⟨hcountsHere, hreading⟩ := hind
    refine ⟨by rw [← List.append_assoc]; exact counts_step hcountsHere hstep, fun hquiet => ?_⟩
    have hhere := hreading fun earlier hin => hquiet earlier (List.mem_append_left _ hin)
    have hlabel : ¬ label.isCallOf t :=
      hquiet label (List.mem_append_right _ (List.mem_singleton.mpr rfl))
    have hother : ∀ {other : ι} {pc : Pc V R}, other ≠ t →
        Reading called s' prog (labels ++ [label]) (Function.update state.pcs other pc t) := by
      intro other pc hne
      rw [Function.update_of_ne hne.symm]
      exact hhere.extend label
    cases label with
    | write other =>
        obtain ⟨_, rfl⟩ := step_write.mp hstep
        exact hother (by simpa [Label.isCallOf] using hlabel)
    | modify other field f =>
        obtain ⟨_, rfl⟩ := step_modify.mp hstep
        exact hhere.extend _
    | finish other =>
        obtain ⟨hwriting, rfl⟩ := step_finish.mp hstep
        apply hother
        rintro rfl
        rw [hwriting] at hhere
        exact hhere
    | read other prog' =>
        obtain ⟨_, rfl⟩ := step_read.mp hstep
        exact hother (by simpa [Label.isCallOf] using hlabel)
    | step other =>
        obtain ⟨pc, hadvance, rfl⟩ := step_step.mp hstep
        by_cases hsame : other = t
        · subst hsame
          simp only [Function.update_self]
          exact hhere.advance hcountsHere hbefore hadvance
        · exact hother hsame

omit [DecidableEq ι] [DecidableEq F] in
/-- Counts a round apart are equal when they are less than a round apart. -/
theorem eq_of_ofNat_eq {first second : Nat} (hle : first ≤ second)
    (hlt : second < first + 2 ^ 64) (hsame : UInt64.ofNat first = UInt64.ofNat second) :
    first = second := by
  have htoNat := congrArg UInt64.toNat hsame
  rw [UInt64.toNat_ofNat', UInt64.toNat_ofNat'] at htoNat
  omega

omit [DecidableEq ι] [DecidableEq F] in
/-- A read returns from its last load of `start`. -/
theorem advance_eq_returned {s : State ι V R} {pc : Pc V R} {result : R}
    (hadvance : advance s pc = some (.returned result)) :
    ∃ prog s1, pc = .inner prog s1 (.ret result) ∧ s1 = s.start := by
  cases advances_of_advance hadvance with
  | ret prog _ => exact ⟨prog, s.start, rfl, rfl⟩

/-- Reads are not torn.  A read that returns has loaded every field from the content
the lock had at one instant between its call and its return; no thread was within a
write at that instant, and the content was the effect of exactly the writes that had
finished.

`hlap` says that the counters do not lap one another during the read: the writes in
progress at its call and those begun since are fewer than `2 ^ 64`. -/
theorem read_not_torn {inner : ∀ field, V field} {pre during : List (Label ι V R)} {t : ι}
    {prog : ReadProg V R} {result : R} {last : State ι V R}
    (hrun : StepFn.run step (init ι R inner) (pre ++ .read t prog :: during ++ [.step t]) =
      some last)
    (hreturned : last.pcs t = .returned result)
    (honeRead : ∀ label ∈ during, ¬ label.isCallOf t)
    (hlap : starts (pre ++ .read t prog :: during) < finishes pre + 2 ^ 64) :
    ∃ mid after instant, during = mid ++ after ∧
      StepFn.run step (init ι R inner) (pre ++ .read t prog :: mid) = some instant ∧
      Quiet instant ∧ result = prog.eval instant.inner ∧
      instant.inner = finishedEffect (pre ++ .read t prog :: mid) inner := by
  obtain ⟨before, hbefore, hlast⟩ := (StepFn.run_concat_eq_some step).mp hrun
  obtain ⟨s, hpre, hread⟩ := (StepFn.run_append_eq_some step).mp hbefore
  obtain ⟨s', hcall, hduring⟩ := Option.bind_eq_some_iff.mp hread
  obtain ⟨hcounts, hreading⟩ := reading_of_run (counts_of_run hpre) hcall honeRead hduring
  obtain ⟨pc, hadvance, rfl⟩ := step_step.mp hlast
  obtain rfl : pc = .returned result := by simpa using hreturned
  obtain ⟨prog', s1, hpc, hs1⟩ := advance_eq_returned hadvance
  rw [hpc] at hreading
  obtain ⟨rfl, done, mid, instant, rfl, hmatched, heval⟩ := hreading
  obtain ⟨earlier, later, rfl, hfinish⟩ := hmatched.finish
  have hreached : StepFn.run step (init ι R inner) (pre ++ .read t prog' :: (earlier ++ later)) =
      some instant := by
    rw [StepFn.run_append, hpre]
    exact (congrArg (Option.bind · _) hcall).trans hmatched.reached
  -- As many writes had finished at the load of `end` as have begun by the last load.
  have hinstant := counts_of_run hreached
  have hfew : finishes (pre ++ [.read t prog'] ++ earlier) =
      starts (pre ++ [.read t prog'] ++ (earlier ++ later ++ mid)) := by
    have hle := hcounts.finishes_le
    apply eq_of_ofNat_eq
    · simp only [finishes_append] at hle ⊢
      omega
    · simp only [List.append_assoc, List.singleton_append, finishes_append] at hlap ⊢
      omega
    · rw [← hfinish, hs1, hcounts.start]
  have hquiet : Quiet instant := by
    apply hinstant.quiet
    have hle := hinstant.finishes_le
    rw [← List.singleton_append, ← List.append_assoc] at hle ⊢
    simp only [starts_append, finishes_append] at hfew hle ⊢
    omega
  have hnone : starts mid = 0 := by
    have hle := hinstant.finishes_le
    rw [← List.singleton_append, ← List.append_assoc] at hle
    simp only [starts_append, finishes_append] at hfew hle
    omega
  exact ⟨earlier ++ later, mid, instant, rfl, hreached, hquiet, heval hquiet hnone,
    inner_eq_finishedEffect hquiet hreached⟩

/-- The reader of a lock around two words. -/
def pairReader : ReadProg (fun _ : Bool => UInt64) (UInt64 × UInt64) :=
  .load false fun x => .load true fun y => .ret (x, y)

/-- A read that starts over because its first round meets thread 1 within a write. -/
def pairSteps : List (Label Bool (fun _ : Bool => UInt64) (UInt64 × UInt64)) :=
  [.write true, .modify true false (· + 1), .step false, .step false, .modify true true (· + 1),
    .finish true, .step false, .step false, .step false, .step false]

theorem read_not_torn_pair :
    ∃ mid after instant, pairSteps = mid ++ after ∧
      StepFn.run step (init Bool _ fun _ => 0) (.read false pairReader :: mid) = some instant ∧
      Quiet instant ∧ ((1, 1) : UInt64 × UInt64) = pairReader.eval instant.inner ∧
      instant.inner = finishedEffect (.read false pairReader :: mid) fun _ => 0 := by
  let labels := .read false pairReader :: pairSteps ++ [.step false]
  have hruns : (StepFn.run step (init Bool _ fun _ => 0) labels).isSome := rfl
  exact @read_not_torn Bool Bool _ _ _ _ _ [] pairSteps false pairReader (1, 1)
    ((StepFn.run step (init Bool _ fun _ => 0) labels).get hruns) (Option.some_get hruns).symm rfl
    (by simp [pairSteps, Label.isCallOf]) (by decide)

end SeqLock

end Ohnotel
