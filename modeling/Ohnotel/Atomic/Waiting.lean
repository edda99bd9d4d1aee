/-
# Whom a take waits for

A take swaps in a fresh content and reads the old one.  An add that comes later finds the
fresh content, so the old one is written to only by adds that had loaded the pointer before
the swap.  Once those are done nobody disturbs the read any more, however many adds, takes
and snapshots follow, and it ends after a number of steps that depends on the number of
buckets only.
-/

import Ohnotel.Atomic.ExactlyOnce
import Ohnotel.Lock.Progress

namespace Ohnotel.Atomic

open Foundation SeqLock

variable {T C : Type} [Measure T C]

/-! ## What a snapshot loads -/

omit [Measure T C] in
theorem within_loadBuckets {next : List UInt64 → ReadProg (Field.Value C) (Snapshot T)}
    {n : Nat} (hnext : ∀ counts, (next counts).Within n) (indices : List Nat) :
    (loadBuckets next indices).Within (indices.length + n) := by
  induction indices generalizing next with
  | nil =>
      rw [loadBuckets, List.length_nil, Nat.zero_add]
      exact hnext []
  | cons index rest ih =>
      rw [List.length_cons, Nat.succ_add]
      intro count
      exact ih fun counts => hnext (count :: counts)

/-- The counts of the buckets, and four other words. -/
theorem within_snapshotProg (boundaries : Boundaries T) :
    (snapshotProg boundaries : ReadProg (Field.Value C) (Snapshot T)).Within
      (boundaries.values.length + 5) := by
  have hbuckets : (List.range (boundaries.values.length + 1)).length + 3 + 1 =
      boundaries.values.length + 5 := by
    rw [List.length_range]
  rw [← hbuckets]
  intro count
  apply within_loadBuckets
  intro bucketCounts sum
  dsimp only
  split
  · trivial
  · exact fun _ _ => trivial

namespace Concurrent

variable {ι : Type} [DecidableEq ι] {boundaries : Boundaries T} {s s' : Shared ι T C}

/-! ## Reads that have not returned -/

/-- A thread within a read is within the read of the lock. -/
def Underway (boundaries : Boundaries T) (s : Shared ι T C) : Prop :=
  ∀ t obj drains since, s.pcs t = .reading obj drains since →
    SeqLock.Underway (boundaries.values.length + 5) ((s.locks obj).pcs t)

omit [DecidableEq ι] in
/-- A read takes a step of a lock only by a step of its thread. -/
theorem eq_step_of_onto {label : Label ι T} {obj : Nat} {t : ι}
    (honto : onto boundaries obj s label = some (.step t)) : label = .step t := by
  obtain ⟨found, hfound, hsame⟩ := Option.bind_eq_some_iff.mp honto
  have hown : found.2 = .step t := by
    split at hsame
    · exact Option.some_inj.mp hsame
    · cases hsame
  cases label with
  | add t' value => cases hfound
  | write t' | modify t' | finish t' | step t' =>
      rw [lockLabel] at hfound
      split at hfound
      · obtain rfl := Option.some_inj.mp hfound
        first
          | exact congrArg Label.step (SeqLock.Label.step.inj hown)
          | cases hown
      · cases hfound
  | snapshot t' | take t' =>
      obtain rfl := Option.some_inj.mp hfound
      cases hown

theorem Underway.step {label : Label ι T} (h : Underway boundaries s)
    (hstep : Concurrent.step boundaries s label = some s') : Underway boundaries s' := by
  intro t obj drains since hpc
  have hlock := lock_of_step hstep obj
  rcases reading_of_step hstep hpc with hbefore | ⟨hcalled, _⟩
  · have hcall := not_isCallOf_of_reading hstep hbefore obj
    cases honto : onto boundaries obj s label with
    | none =>
        rw [honto] at hlock
        rw [← Option.some_inj.mp hlock]
        exact h t obj drains since hbefore
    | some own =>
        rw [honto] at hlock hcall
        obtain ⟨lock, hown, hnil⟩ := Option.bind_eq_some_iff.mp hlock
        obtain rfl := Option.some_inj.mp hnil
        have hgoes := (h t obj drains since hbefore).step
          (hcall own (List.mem_singleton_self own)) hown
        rcases hgoes with hunderway | ⟨rfl, result, hreturned⟩
        · exact hunderway
        · -- The step that returns ends the read of the thread too.
          obtain rfl := eq_step_of_onto honto
          obtain ⟨obj', _, _, lock, hreading, _, hcases⟩ := step_step.mp hstep
          obtain ⟨rfl, _, _⟩ := (Pc.reading.injEq _ _ _ _ _ _).mp (hbefore.symm.trans hreading)
          rcases hcases with ⟨_, _, rfl⟩ | ⟨hnot, rfl⟩
          · simp at hpc
          · simp only [Function.update_self] at hreturned
            exact absurd hreturned (hnot result)
  · rw [hcalled] at hlock
    obtain ⟨lock, hown, hnil⟩ := Option.bind_eq_some_iff.mp hlock
    obtain rfl := Option.some_inj.mp hnil
    obtain ⟨_, hread⟩ := step_read.mp hown
    rw [hread]
    simp only [Function.update_self]
    exact within_snapshotProg boundaries

theorem underway_of_run {labels : List (Label ι T)} {last : Shared ι T C}
    (hrun : StepFn.run (step boundaries) (init ι boundaries) labels = some last) :
    Underway boundaries last := by
  refine StepFn.invariant_of_step (Underway boundaries) ?_ ?_ hrun
  · exact fun label _ state next h hstep => h.step hstep
  · intro t obj drains since hpc
    cases hpc

/-! ## Contents that are left alone -/

omit [DecidableEq ι] in
def Label.thread : Label ι T → ι
  | .add t _ | .write t | .modify t | .finish t | .snapshot t | .take t | .step t => t

omit [DecidableEq ι] in
/-- The thread of the label calls something. -/
def Label.IsCall : Label ι T → Prop
  | .add _ _ | .snapshot _ | .take _ => True
  | .write _ | .modify _ | .finish _ | .step _ => False

def Label.isStepOf (t : ι) : Label ι T → Bool
  | .step other => other = t
  | .add _ _ | .write _ | .modify _ | .finish _ | .snapshot _ | .take _ => false

/-- A step moves its own thread only. -/
theorem pcs_of_step {label : Label ι T} {t : ι} (hstep : step boundaries s label = some s')
    (hne : label.thread ≠ t) : s'.pcs t = s.pcs t := by
  have hmoved : ∀ (t' : ι) (pc : Pc T), t' ≠ t → Function.update s.pcs t' pc t = s.pcs t :=
    fun t' pc hother => Function.update_of_ne (Ne.symm hother) pc s.pcs
  cases label with
  | add t' value =>
      obtain ⟨_, rfl⟩ := step_add.mp hstep
      split
      · exact hmoved t' _ hne
      · rfl
  | write t' =>
      obtain ⟨added, lock, _, _, rfl⟩ := step_write.mp hstep
      exact hmoved t' _ hne
  | modify t' =>
      obtain ⟨added, field, left, lock, _, _, rfl⟩ := step_modify.mp hstep
      exact hmoved t' _ hne
  | finish t' =>
      obtain ⟨added, lock, _, _, rfl⟩ := step_finish.mp hstep
      exact hmoved t' _ hne
  | snapshot t' =>
      obtain ⟨_, hcall⟩ := step_snapshot.mp hstep
      obtain ⟨lock, _, rfl⟩ := call_eq_some.mp hcall
      exact hmoved t' _ hne
  | take t' =>
      obtain ⟨_, called, hcall, rfl⟩ := step_take.mp hstep
      obtain ⟨lock, _, rfl⟩ := call_eq_some.mp hcall
      exact hmoved t' _ hne
  | step t' =>
      obtain ⟨obj, drains, since, lock, _, _, ⟨_, _, rfl⟩ | ⟨_, rfl⟩⟩ := step_step.mp hstep
      · exact hmoved t' _ hne
      · rfl

/-- The content was swapped out, and no thread has an add in hand for it. -/
structure Abandoned (obj : Nat) (s : Shared ι T C) : Prop where
  lt_next : obj < s.next
  ne_current : obj ≠ s.current
  free : ∀ t added, (s.pcs t).Carries added → added.obj ≠ obj

theorem Abandoned.step {obj : Nat} {label : Label ι T} (h : Abandoned obj s)
    (hstep : Concurrent.step boundaries s label = some s') : Abandoned obj s' := by
  have hlt := h.lt_next
  have hcurrent := h.ne_current
  have hfree := h.free
  cases label with
  | add t value =>
      obtain ⟨_, rfl⟩ := step_add.mp hstep
      split
      · constructor <;> grind [Function.update_apply, Pc.Carries]
      · exact h
  | write t =>
      obtain ⟨added, lock, hpc, _, rfl⟩ := step_write.mp hstep
      constructor <;> grind [Function.update_apply, Pc.Carries]
  | modify t =>
      obtain ⟨added, field, left, lock, hpc, _, rfl⟩ := step_modify.mp hstep
      constructor <;> grind [Function.update_apply, Pc.Carries]
  | finish t =>
      obtain ⟨added, lock, hpc, _, rfl⟩ := step_finish.mp hstep
      constructor <;> grind [Function.update_apply, Pc.Carries]
  | snapshot t =>
      obtain ⟨_, hcall⟩ := step_snapshot.mp hstep
      obtain ⟨lock, _, rfl⟩ := call_eq_some.mp hcall
      constructor <;> grind [Function.update_apply, Pc.Carries]
  | take t =>
      obtain ⟨_, called, hcall, rfl⟩ := step_take.mp hstep
      obtain ⟨lock, _, rfl⟩ := call_eq_some.mp hcall
      constructor <;> grind [Function.update_apply, Pc.Carries]
  | step t =>
      obtain ⟨obj', drains, since, lock, _, _, ⟨_, _, rfl⟩ | ⟨_, rfl⟩⟩ := step_step.mp hstep
      all_goals constructor <;> grind [Function.update_apply, Pc.Carries]

/-- The lock of an abandoned content is only read, by reads that were called before. -/
theorem Abandoned.onto {obj : Nat} {label : Label ι T} (h : Abandoned obj s)
    (hstep : Concurrent.step boundaries s label = some s') :
    Concurrent.onto boundaries obj s label = none ∨
      ∃ t, Concurrent.onto boundaries obj s label = some (.step t) := by
  cases label with
  | add t value => exact .inl rfl
  | write t =>
      obtain ⟨added, lock, hpc, _, _⟩ := step_write.mp hstep
      have hne := h.free t added (by rw [hpc]; rfl)
      exact .inl (by simp [Concurrent.onto, lockLabel, hpc, hne])
  | modify t =>
      obtain ⟨added, field, left, lock, hpc, _, _⟩ := step_modify.mp hstep
      have hne := h.free t added (by rw [hpc]; rfl)
      exact .inl (by simp [Concurrent.onto, lockLabel, hpc, hne])
  | finish t =>
      obtain ⟨added, lock, hpc, _, _⟩ := step_finish.mp hstep
      have hne := h.free t added (by rw [hpc]; rfl)
      exact .inl (by simp [Concurrent.onto, lockLabel, hpc, hne])
  | snapshot t | take t =>
      have hne := h.ne_current.symm
      exact .inl (by simp [Concurrent.onto, lockLabel, hne])
  | step t =>
      obtain ⟨obj', drains, since, lock, hpc, _, _⟩ := step_step.mp hstep
      by_cases hobj : obj' = obj
      · exact .inr ⟨t, by simp [Concurrent.onto, lockLabel, hpc, hobj]⟩
      · exact .inl (by simp [Concurrent.onto, lockLabel, hpc, hobj])

/-! ## A read of an abandoned content -/

/-- The thread has returned from its read of the content, or it can afford the steps that are
left of it. -/
structure Waits (boundaries : Boundaries T) (obj : Nat) (t : ι) (s : Shared ι T C)
    (available : Nat) : Prop where
  abandoned : Abandoned obj s
  even : (s.locks obj).start = (s.locks obj).finish
  reading : s.pcs t = .idle ∨ (∃ drains since, s.pcs t = .reading obj drains since) ∧
    Affords (boundaries.values.length + 5) (s.locks obj) available ((s.locks obj).pcs t)

/-- A thread that reads, or has returned and calls nothing, can only take steps of its
read. -/
theorem reading_of_thread {label : Label ι T} {obj : Nat} {t : ι}
    (hstep : step boundaries s label = some s') (hthread : label.thread = t)
    (hcall : ¬ label.IsCall)
    (hreading : s.pcs t = .idle ∨ ∃ drains since, s.pcs t = .reading obj drains since) :
    label = .step t ∧ s.pcs t ≠ .idle := by
  subst hthread
  cases label with
  | add t value | snapshot t | take t => exact absurd trivial hcall
  | write t =>
      obtain ⟨_, _, hpc, _, _⟩ := step_write.mp hstep
      simp [Label.thread, hpc] at hreading
  | modify t =>
      obtain ⟨_, _, _, _, hpc, _, _⟩ := step_modify.mp hstep
      simp [Label.thread, hpc] at hreading
  | finish t =>
      obtain ⟨_, _, hpc, _, _⟩ := step_finish.mp hstep
      simp [Label.thread, hpc] at hreading
  | step t =>
      obtain ⟨_, _, _, _, hpc, _, _⟩ := step_step.mp hstep
      exact ⟨rfl, by simp [Label.thread, hpc]⟩

theorem Waits.step {obj : Nat} {t : ι} {label : Label ι T} {available : Nat}
    (h : Waits boundaries obj t s available) (hcall : label.thread = t → ¬ label.IsCall)
    (hstep : Concurrent.step boundaries s label = some s') :
    ∃ left, Waits boundaries obj t s' left ∧
      left + (if label.isStepOf t then 1 else 0) ≤ available := by
  have habandoned := h.abandoned.step hstep
  have hlock := lock_of_step hstep obj
  have hother : label.thread ≠ t → label.isStepOf t = false ∧ s'.pcs t = s.pcs t := by
    intro hne
    refine ⟨?_, pcs_of_step hstep hne⟩
    cases label with
    | step t' => exact decide_eq_false hne
    | add | write | modify | finish | snapshot | take => rfl
  rcases h.abandoned.onto hstep with honto | ⟨t', honto⟩
  · -- The lock of the content stands still, and so does the thread.
    rw [honto] at hlock
    have hsame : s'.locks obj = s.locks obj := (Option.some_inj.mp hlock).symm
    have hne : label.thread ≠ t := by
      intro hthread
      obtain ⟨rfl, hbusy⟩ := reading_of_thread hstep hthread (hcall hthread)
        (h.reading.imp_right And.left)
      obtain ⟨drains, since, hpc⟩ := (h.reading.resolve_left hbusy).1
      simp [Concurrent.onto, lockLabel, hpc] at honto
    obtain ⟨hcount, hpcs⟩ := hother hne
    refine ⟨available, ⟨habandoned, hsame ▸ h.even, ?_⟩, by rw [hcount]; exact le_rfl⟩
    rw [hpcs, hsame]
    exact h.reading
  · rw [honto] at hlock
    obtain ⟨lock, hown, hnil⟩ := Option.bind_eq_some_iff.mp hlock
    obtain rfl := Option.some_inj.mp hnil
    obtain rfl := eq_step_of_onto honto
    have heven : (s'.locks obj).start = (s'.locks obj).finish := by
      obtain ⟨pc, _, hmoved⟩ := SeqLock.step_step.mp hown
      rw [hmoved]
      exact h.even
    rcases h.reading with hidle | ⟨hreading, hafford⟩
    · have hne : t' ≠ t := by
        rintro rfl
        have hstuck : s.pcs t' = .idle ∨ ∃ drains since, s.pcs t' = .reading obj drains since :=
          .inl hidle
        exact (reading_of_thread hstep rfl id hstuck).2 hidle
      obtain ⟨hcount, hpcs⟩ := hother hne
      exact ⟨available, ⟨habandoned, heven, .inl (hpcs.trans hidle)⟩, by rw [hcount]; exact le_rfl⟩
    · obtain ⟨left, hleft, hcost⟩ := affords_step hafford (by simp) hown
      rw [meets_eq_zero h.even] at hcost
      refine ⟨left, ⟨habandoned, heven, ?_⟩, hcost⟩
      by_cases hthread : t' = t
      · subst hthread
        obtain ⟨obj', drains, since, lock, hpc, _, ⟨_, _, rfl⟩ | ⟨_, rfl⟩⟩ := step_step.mp hstep
        · exact .inl (Function.update_self ..)
        · exact .inr ⟨hreading, hleft⟩
      · rw [(hother hthread).2]
        exact .inr ⟨hreading, hleft⟩

/-- A take waits for nobody but the adds that had loaded its content before it was swapped
out.  Once none of them is left it takes at most so many steps as the buckets demand,
whatever adds, takes and snapshots others begin meanwhile, and it can go on until it has
returned. -/
theorem take_returns {labels rest : List (Label ι T)} {reached last : Shared ι T C} {t : ι}
    {obj since : Nat}
    (hrun : StepFn.run (step boundaries) (init ι boundaries) labels = some reached)
    (hreading : reached.pcs t = .reading obj true since)
    (hdone : ∀ t' added, (reached.pcs t').Carries added → added.obj ≠ obj)
    (hrest : StepFn.run (step boundaries) reached rest = some last)
    (hcalls : ∀ label ∈ rest, label.thread = t → ¬ label.IsCall) :
    rest.countP (Label.isStepOf t) ≤ 2 * boundaries.values.length + 14 ∧
      (last.pcs t = .idle ∨ ∃ next, step boundaries last (.step t) = some next) := by
  have hsound := sound_of_run hrun
  obtain ⟨hlt, hne⟩ := hsound.retired.draining t obj since hreading
  have hquiet : Quiet (reached.locks obj) := by
    intro t' hwriting
    obtain ⟨added, left, hpc, hobj⟩ := (hsound.writing t' obj).mp hwriting
    exact hdone t' added (by rw [hpc]; rfl) hobj
  have heven : (reached.locks obj).start = (reached.locks obj).finish := by
    by_contra hdiffer
    exact (counts_of_run (run_lockTrace obj hrun)).not_quiet hdiffer hquiet
  have hafford := (underway_of_run hrun t obj true since hreading).affords (reached.locks obj)
  have hwaits : Waits boundaries obj t reached (2 * (boundaries.values.length + 5) + 4) :=
    ⟨⟨hlt, hne, hdone⟩, heven, .inr ⟨⟨true, since, hreading⟩, hafford⟩⟩
  have hpaid : ∀ label ∈ rest, ∀ (state : Shared ι T C) (available : Nat) (next : Shared ι T C),
      Waits boundaries obj t state available → step boundaries state label = some next →
      ∃ left, Waits boundaries obj t next left ∧
        left + (if Label.isStepOf t label then 1 else 0) ≤ available :=
    fun label hlabel _ _ _ h hstep => h.step (hcalls label hlabel) hstep
  obtain ⟨left, hleft, hcount⟩ := StepFn.exists_credit_left hpaid hwaits hrest
  refine ⟨by omega, hleft.reading.imp_right ?_⟩
  rintro ⟨⟨drains, since', hpc⟩, _⟩
  have hwhole : StepFn.run (step boundaries) (init ι boundaries) (labels ++ rest) = some last := by
    rw [StepFn.run_append, hrun]
    exact hrest
  obtain ⟨pc, hadvance⟩ :=
    (underway_of_run hwhole t obj drains since' hpc).exists_advance (last.locks obj)
  have hlock : SeqLock.step (last.locks obj) (.step t) = some _ :=
    SeqLock.step_step.mpr ⟨pc, hadvance, rfl⟩
  simp only [step, hpc, hlock, Option.map_some]
  exact ⟨_, rfl⟩

/-- What follows the call of the take in `addsAndTake`, and the last step of it. -/
def besideTake : List (Label Bool UInt64) := addsAndTake.drop 9 ++ [.step false]

/-- In `addsAndTake` thread `false` takes eight steps while thread `true` adds to the fresh
content, and one more after that. -/
theorem take_returns_beside_add :
    ∃ reached last, StepFn.run (step oneBoundary) (init Bool oneBoundary) (addsAndTake.take 9) =
        some reached ∧
      StepFn.run (step oneBoundary) reached besideTake = some last ∧
      besideTake.countP (Label.isStepOf false) = 9 ∧
      (last.pcs false = .idle ∨ ∃ next, step oneBoundary last (.step false) = some next) := by
  obtain ⟨reached, hrun, hreading, hidle, hruns⟩ :
      ∃ reached, StepFn.run (step oneBoundary) (init Bool oneBoundary) (addsAndTake.take 9) =
          some reached ∧
        reached.pcs false = .reading 0 true 1 ∧ reached.pcs true = .idle ∧
        (StepFn.run (step oneBoundary) reached
          besideTake).isSome := by
    refine ⟨_, rfl, rfl, rfl, ?_⟩
    decide +kernel
  obtain ⟨last, hrest⟩ := Option.isSome_iff_exists.mp hruns
  have hdone : ∀ t' added, (reached.pcs t').Carries added → added.obj ≠ 0 := by
    intro t' added hcarries
    cases t' with
    | false =>
        rw [hreading] at hcarries
        exact hcarries.elim
    | true =>
        rw [hidle] at hcarries
        exact hcarries.elim
  have hcalls : ∀ label ∈ besideTake,
      label.thread = false → ¬ label.IsCall := by
    simp [besideTake, addsAndTake, Label.thread, Label.IsCall]
  have hreturns := take_returns hrun hreading hdone hrest hcalls
  exact ⟨reached, last, hrun, hrest, by decide, hreturns.2⟩

end Concurrent

end Ohnotel.Atomic
