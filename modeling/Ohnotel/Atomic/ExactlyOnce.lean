/-
# Adds are counted exactly once

What several threads that add to, take and read one histogram cell can rely on.  A
read returns the aggregate of the adds that had finished on its content at one
instant during the read.  Contents are retired one after the other, each by one
`take`, so no add is in two takes, nor in a take and in the content current after
it.  An add that no swap interrupts had finished before its content was retired,
and the `take` that retires the content reads it only after that.

As for the lock alone, what is assumed is that during a read fewer adds than a word
can count are in progress on its content or begin there.
-/

import Ohnotel.Atomic.Bookkeeping

namespace Ohnotel.Atomic.Concurrent

open Foundation SeqLock

variable {T C ι : Type} [Measure T C] [DecidableEq ι] {boundaries : Boundaries T}
  {s s' last : Shared ι T C} {labels : List (Label ι T)}

/-! ## Contents are retired once -/

/-- A content that is not current was retired by one `take`, which has returned or is
still reading it. -/
structure Retired (s : Shared ι T C) : Prop where
  current_lt : s.current < s.next
  drained : ∀ ret ∈ s.returned, ret.drains → ret.obj < s.next ∧ ret.obj ≠ s.current
  draining : ∀ t obj since, s.pcs t = .reading obj true since →
    obj < s.next ∧ obj ≠ s.current
  drained_one : s.returned.Pairwise fun first second =>
    first.drains → second.drains → first.obj ≠ second.obj
  draining_one : ∀ t t' obj since since', s.pcs t = .reading obj true since →
    s.pcs t' = .reading obj true since' → t = t'
  apart : ∀ t obj since, s.pcs t = .reading obj true since →
    ∀ ret ∈ s.returned, ret.drains → ret.obj ≠ obj
  accounted : ∀ obj, obj < s.next → obj = s.current ∨
    (∃ t since, s.pcs t = .reading obj true since) ∨
    ∃ ret ∈ s.returned, ret.drains ∧ ret.obj = obj

/-- Adds are on contents that exist. -/
structure Allocated (s : Shared ι T C) : Prop where
  begun : ∀ added ∈ s.begun, added.obj < s.next
  loaded : ∀ t added, s.pcs t = .loaded added → added.obj < s.next

omit [DecidableEq ι] in
theorem retired_init : Retired (init ι boundaries : Shared ι T C) := by
  constructor <;> simp [init]

omit [Measure T C] in
/-- A step that retires nothing and ends no `take`. -/
theorem Retired.frame {t : ι} {pc : Pc T} (h : Retired s) (hcurrent : s'.current = s.current)
    (hnext : s'.next = s.next) (hreturned : s'.returned = s.returned)
    (hpcs : s'.pcs = Function.update s.pcs t pc)
    (hbefore : ∀ obj since, s.pcs t ≠ .reading obj true since)
    (hafter : ∀ obj since, pc ≠ .reading obj true since) : Retired s' := by
  have hsame : ∀ t' obj since, s'.pcs t' = .reading obj true since ↔
      s.pcs t' = .reading obj true since := by
    intro t' obj since
    rw [hpcs]
    by_cases hself : t' = t
    · subst hself
      simp [hbefore, hafter]
    · rw [Function.update_of_ne hself]
  constructor <;> simp only [hcurrent, hnext, hreturned, hsame]
  · exact h.current_lt
  · exact h.drained
  · exact h.draining
  · exact h.drained_one
  · exact h.draining_one
  · exact h.apart
  · exact h.accounted

/-- A `take` retires the current content. -/
theorem Retired.take {t : ι} (h : Retired s) (hstep : step boundaries s (.take t) = some s') :
    Retired s' := by
  obtain ⟨hpc, called, hcall, rfl⟩ := step_take.mp hstep
  obtain ⟨lock, _, rfl⟩ := call_eq_some.mp hcall
  have hlt := h.current_lt
  refine ⟨?_, ?_, ?_, h.drained_one, ?_, ?_, ?_⟩
  · exact Nat.lt_succ_self _
  · intro ret hin hdrains
    have := h.drained ret hin hdrains
    exact ⟨by simp only; omega, by simp only; omega⟩
  · intro t' obj since hpc'
    have := h.draining t' obj since
    grind [Function.update_apply]
  · intro t' t'' obj since since' hpc' hpc''
    have := h.draining t' obj since
    have := h.draining t'' obj since'
    have := h.draining_one t' t'' obj since since'
    grind [Function.update_apply]
  · intro t' obj since hpc' ret hin hdrains
    have := h.drained ret hin hdrains
    have := h.apart t' obj since
    grind [Function.update_apply]
  · intro obj hobj
    rcases Nat.lt_succ_iff_lt_or_eq.mp hobj with hold | hnew
    · rcases h.accounted obj hold with rfl | ⟨t', since, hpc'⟩ | hdrained
      · exact Or.inr (Or.inl ⟨t, _, Function.update_self ..⟩)
      · refine Or.inr (Or.inl ⟨t', since, ?_⟩)
        rw [← hpc']
        exact Function.update_of_ne (by rintro rfl; simp [hpc] at hpc') ..
      · exact Or.inr (Or.inr hdrained)
    · exact Or.inl hnew

omit [Measure T C] in
/-- A read returns. -/
theorem Retired.return {t : ι} {obj since : Nat} {drains : Bool} {snapshot : Snapshot T}
    (h : Retired s) (hpc : s.pcs t = .reading obj drains since)
    (hcurrent : s'.current = s.current) (hnext : s'.next = s.next)
    (hpcs : s'.pcs = Function.update s.pcs t .idle)
    (hreturned : s'.returned = s.returned ++ [⟨obj, drains, since, snapshot⟩]) :
    Retired s' := by
  have hsame : ∀ t' obj' since', s'.pcs t' = .reading obj' true since' →
      t' ≠ t ∧ s.pcs t' = .reading obj' true since' := by
    intro t' obj' since' hpc'
    rw [hpcs] at hpc'
    by_cases hself : t' = t
    · subst hself
      simp at hpc'
    · rw [Function.update_of_ne hself] at hpc'
      exact ⟨hself, hpc'⟩
  refine ⟨?_, ?_, ?_, ?_, ?_, ?_, ?_⟩
  · rw [hcurrent, hnext]
    exact h.current_lt
  · rw [hcurrent, hnext, hreturned]
    intro ret hin hdrains
    rcases List.mem_append.mp hin with hin | hin
    · exact h.drained ret hin hdrains
    · obtain rfl := List.mem_singleton.mp hin
      obtain rfl : drains = true := hdrains
      exact h.draining t obj since hpc
  · rw [hcurrent, hnext]
    exact fun t' obj' since' hpc' => h.draining t' obj' since' (hsame t' obj' since' hpc').2
  · rw [hreturned, List.pairwise_append]
    refine ⟨h.drained_one, List.pairwise_singleton _ _, ?_⟩
    intro first hfirst second hsecond hdrains hdrains'
    obtain rfl := List.mem_singleton.mp hsecond
    obtain rfl : drains = true := hdrains'
    exact h.apart t obj since hpc first hfirst hdrains
  · intro t' t'' obj' since' since'' hpc' hpc''
    exact h.draining_one t' t'' obj' since' since'' (hsame _ _ _ hpc').2 (hsame _ _ _ hpc'').2
  · rw [hreturned]
    intro t' obj' since' hpc' ret hin hdrains
    obtain ⟨hne, hpc'⟩ := hsame t' obj' since' hpc'
    rcases List.mem_append.mp hin with hin | hin
    · exact h.apart t' obj' since' hpc' ret hin hdrains
    · obtain rfl := List.mem_singleton.mp hin
      obtain rfl : drains = true := hdrains
      rintro rfl
      exact hne (h.draining_one t' t _ _ _ hpc' hpc)
  · rw [hcurrent, hnext, hreturned, hpcs]
    intro obj' hlt
    rcases h.accounted obj' hlt with hcur | ⟨t', since', hpc'⟩ | ⟨ret, hin, hret⟩
    · exact Or.inl hcur
    · by_cases hself : t' = t
      · subst hself
        rw [hpc] at hpc'
        cases hpc'
        exact Or.inr (Or.inr ⟨_, List.mem_append_right _ (List.mem_singleton.mpr rfl), rfl, rfl⟩)
      · exact Or.inr (Or.inl ⟨t', since', by rw [Function.update_of_ne hself, hpc']⟩)
    · exact Or.inr (Or.inr ⟨ret, List.mem_append_left _ hin, hret⟩)

theorem Retired.step {label : Label ι T} (h : Retired s)
    (hstep : Concurrent.step boundaries s label = some s') : Retired s' := by
  cases label with
  | add t value =>
      obtain ⟨hpc, rfl⟩ := step_add.mp hstep
      split
      · exact h.frame rfl rfl rfl rfl (by simp [hpc]) (by simp)
      · exact h
  | write t =>
      obtain ⟨added, lock, hpc, _, rfl⟩ := step_write.mp hstep
      exact h.frame rfl rfl rfl rfl (by simp [hpc]) (by simp)
  | modify t =>
      obtain ⟨added, field, left, lock, hpc, _, rfl⟩ := step_modify.mp hstep
      exact h.frame rfl rfl rfl rfl (by simp [hpc]) (by simp)
  | finish t =>
      obtain ⟨added, lock, hpc, _, rfl⟩ := step_finish.mp hstep
      exact h.frame rfl rfl rfl rfl (by simp [hpc]) (by simp)
  | snapshot t =>
      obtain ⟨hpc, hcall⟩ := step_snapshot.mp hstep
      obtain ⟨lock, _, rfl⟩ := call_eq_some.mp hcall
      exact h.frame rfl rfl rfl rfl (by simp [hpc]) (by simp)
  | take t => exact h.take hstep
  | step t =>
      obtain ⟨obj, drains, since, lock, hpc, _, hcases⟩ := step_step.mp hstep
      rcases hcases with ⟨_, _, rfl⟩ | ⟨_, rfl⟩
      · exact h.return hpc rfl rfl rfl rfl
      · exact ⟨h.current_lt, h.drained, h.draining, h.drained_one, h.draining_one, h.apart,
          h.accounted⟩

theorem Allocated.step {label : Label ι T} (h : Allocated s) (hretired : Retired s)
    (hstep : Concurrent.step boundaries s label = some s') : Allocated s' := by
  have hlt := hretired.current_lt
  have hbegun := h.begun
  have hloaded := h.loaded
  cases label with
  | add t value =>
      obtain ⟨_, rfl⟩ := step_add.mp hstep
      split
      · constructor <;> grind [Function.update_apply]
      · exact h
  | write t =>
      obtain ⟨added, _, hpc, _, rfl⟩ := step_write.mp hstep
      constructor <;> grind [Function.update_apply]
  | modify t =>
      obtain ⟨_, _, _, _, _, _, rfl⟩ := step_modify.mp hstep
      constructor <;> grind [Function.update_apply]
  | finish t =>
      obtain ⟨_, _, _, _, rfl⟩ := step_finish.mp hstep
      constructor <;> grind [Function.update_apply]
  | snapshot t =>
      obtain ⟨_, hcall⟩ := step_snapshot.mp hstep
      obtain ⟨_, _, rfl⟩ := call_eq_some.mp hcall
      constructor <;> grind [Function.update_apply]
  | take t =>
      obtain ⟨_, _, hcall, rfl⟩ := step_take.mp hstep
      obtain ⟨_, _, rfl⟩ := call_eq_some.mp hcall
      constructor <;> grind [Function.update_apply]
  | step t =>
      obtain ⟨_, _, _, _, _, _, hcases⟩ := step_step.mp hstep
      rcases hcases with ⟨_, _, rfl⟩ | ⟨_, rfl⟩
      · constructor <;> grind [Function.update_apply]
      · exact ⟨h.begun, h.loaded⟩

/-- The invariants of every run. -/
structure Sound (boundaries : Boundaries T) (s : Shared ι T C) : Prop where
  numbered : Numbered boundaries s
  writing : Writing s
  content : Content boundaries s
  retired : Retired s
  allocated : Allocated s

theorem sound_of_run (hrun : StepFn.run (step boundaries) (init ι boundaries) labels =
    some last) : Sound boundaries last := by
  refine StepFn.invariant_of_step (Sound boundaries) ?_
    ⟨numbered_init, writing_init, content_init, retired_init, ⟨by simp [init], by simp [init]⟩⟩ hrun
  intro label _ state next h hstep
  exact ⟨h.numbered.step hstep, h.writing.step hstep, h.content.step h.numbered hstep,
    h.retired.step hstep, h.allocated.step h.retired hstep⟩

/-! ## What a read returns -/

/-- A thread within a read takes steps of that read and no others. -/
theorem not_isCallOf_of_reading {label : Label ι T} {t : ι} {obj since : Nat} {drains : Bool}
    (hstep : step boundaries s label = some s') (hpc : s.pcs t = .reading obj drains since)
    (obj' : Nat) : ∀ own ∈ (onto boundaries obj' s label).toList, ¬ own.isCallOf t := by
  intro own hown
  have hlabel : lockLabel boundaries s label = some (obj', own) := by
    rw [Option.mem_toList, onto] at hown
    obtain ⟨found, hfound, hsame⟩ := Option.bind_eq_some_iff.mp hown
    grind
  cases label with
  | add t' value => simp [lockLabel] at hlabel
  | write t' =>
      obtain ⟨added, _, hpc', _, _⟩ := step_write.mp hstep
      simp only [lockLabel, hpc', Option.some.injEq, Prod.mk.injEq] at hlabel
      obtain ⟨_, rfl⟩ := hlabel
      have hne : t' ≠ t := by
        rintro rfl
        simp [hpc] at hpc'
      simpa [Label.isCallOf] using hne
  | modify t' =>
      obtain ⟨added, field, left, _, hpc', _, _⟩ := step_modify.mp hstep
      simp only [lockLabel, hpc', Option.some.injEq, Prod.mk.injEq] at hlabel
      obtain ⟨_, rfl⟩ := hlabel
      simp [Label.isCallOf]
  | finish t' =>
      obtain ⟨added, _, hpc', _, _⟩ := step_finish.mp hstep
      simp only [lockLabel, hpc', Option.some.injEq, Prod.mk.injEq] at hlabel
      obtain ⟨_, rfl⟩ := hlabel
      simp [Label.isCallOf]
  | snapshot t' =>
      obtain ⟨hpc', _⟩ := step_snapshot.mp hstep
      simp only [lockLabel, Option.some.injEq, Prod.mk.injEq] at hlabel
      obtain ⟨_, rfl⟩ := hlabel
      have hne : t' ≠ t := by
        rintro rfl
        simp [hpc] at hpc'
      simpa [Label.isCallOf] using hne
  | take t' =>
      obtain ⟨hpc', _⟩ := step_take.mp hstep
      simp only [lockLabel, Option.some.injEq, Prod.mk.injEq] at hlabel
      obtain ⟨_, rfl⟩ := hlabel
      have hne : t' ≠ t := by
        rintro rfl
        simp [hpc] at hpc'
      simpa [Label.isCallOf] using hne
  | step t' =>
      obtain ⟨obj'', drains', since', _, hpc', _, _⟩ := step_step.mp hstep
      simp only [lockLabel, hpc', Option.some.injEq, Prod.mk.injEq] at hlabel
      obtain ⟨_, rfl⟩ := hlabel
      simp [Label.isCallOf]

/-- A call puts its own thread into a read, of the current content. -/
theorem reading_of_call {t t' : ι} {obj since : Nat} {drains drains' : Bool}
    (hcall : call boundaries s t' drains' = some s') (hpc : s'.pcs t = .reading obj drains since) :
    s.pcs t = .reading obj drains since ∨
      t = t' ∧ obj = s.current ∧ since = (on obj s.finished).length := by
  obtain ⟨_, _, rfl⟩ := call_eq_some.mp hcall
  by_cases hself : t = t'
  · subst hself
    simp only [Function.update_self, Pc.reading.injEq] at hpc
    obtain ⟨rfl, _, rfl⟩ := hpc
    exact Or.inr ⟨rfl, rfl, rfl⟩
  · exact Or.inl (by simpa only [Function.update_of_ne hself] using hpc)

/-- A thread is within a read because it was before, or because it has just called one
on the current content. -/
theorem reading_of_step {label : Label ι T} {t : ι} {obj since : Nat} {drains : Bool}
    (hstep : step boundaries s label = some s') (hpc : s'.pcs t = .reading obj drains since) :
    s.pcs t = .reading obj drains since ∨
      onto boundaries obj s label = some (.read t (snapshotProg boundaries)) ∧
        since = (on obj s.finished).length := by
  cases label with
  | add t' value =>
      obtain ⟨hpc', rfl⟩ := step_add.mp hstep
      split at hpc
      · exact Or.inl (by grind [Function.update_apply])
      · exact Or.inl hpc
  | write t' =>
      obtain ⟨added, _, hpc', _, rfl⟩ := step_write.mp hstep
      exact Or.inl (by grind [Function.update_apply])
  | modify t' =>
      obtain ⟨added, field, left, _, hpc', _, rfl⟩ := step_modify.mp hstep
      exact Or.inl (by grind [Function.update_apply])
  | finish t' =>
      obtain ⟨added, _, hpc', _, rfl⟩ := step_finish.mp hstep
      exact Or.inl (by grind [Function.update_apply])
  | snapshot t' =>
      obtain ⟨_, hcall⟩ := step_snapshot.mp hstep
      rcases reading_of_call hcall hpc with hbefore | ⟨rfl, rfl, hsince⟩
      · exact Or.inl hbefore
      · exact Or.inr ⟨by simp [onto, lockLabel], hsince⟩
  | take t' =>
      obtain ⟨_, called, hcall, rfl⟩ := step_take.mp hstep
      rcases reading_of_call hcall hpc with hbefore | ⟨rfl, rfl, hsince⟩
      · exact Or.inl hbefore
      · exact Or.inr ⟨by simp [onto, lockLabel], hsince⟩
  | step t' =>
      obtain ⟨_, _, _, _, hpc', _, hcases⟩ := step_step.mp hstep
      rcases hcases with ⟨_, _, rfl⟩ | ⟨_, rfl⟩
      · exact Or.inl (by grind [Function.update_apply])
      · exact Or.inl hpc

/-- Where a read in progress was called. -/
structure CalledAt (boundaries : Boundaries T) (labels : List (Label ι T))
    (s : Shared ι T C) (t : ι) (obj since : Nat) (before during : List (Label ι T))
    (call : Label ι T) (s0 s1 : Shared ι T C) : Prop where
  labels_eq : labels = before ++ call :: during
  reached : StepFn.run (step boundaries) (init ι boundaries) before = some s0
  called : step boundaries s0 call = some s1
  continued : StepFn.run (step boundaries) s1 during = some s
  read : onto boundaries obj s0 call = some (.read t (snapshotProg boundaries))
  since_eq : since = (on obj s0.finished).length
  noCall : ∀ own ∈ lockTrace boundaries obj s1 during, ¬ own.isCallOf t

theorem calledAt_of_run {t : ι} {obj since : Nat} {drains : Bool}
    (hrun : StepFn.run (step boundaries) (init ι boundaries) labels = some last)
    (hpc : last.pcs t = .reading obj drains since) :
    ∃ before during call s0 s1,
      CalledAt boundaries labels last t obj since before during call s0 s1 := by
  revert hpc
  refine StepFn.run_induction (motive := fun labels (last : Shared ι T C) =>
    last.pcs t = .reading obj drains since → ∃ before during call s0 s1,
      CalledAt boundaries labels last t obj since before during call s0 s1) ?_ ?_ hrun
  · simp [init]
  · intro labels state label next hbefore ih hstep hpc
    rcases reading_of_step hstep hpc with hpcBefore | ⟨hread, hsince⟩
    · obtain ⟨before, during, call, s0, s1, h⟩ := ih hpcBefore
      refine ⟨before, during ++ [label], call, s0, s1, ?_, h.reached, h.called, ?_, h.read,
        h.since_eq, ?_⟩
      · rw [h.labels_eq, List.append_assoc, List.cons_append]
      · exact (StepFn.run_concat_eq_some _).mpr ⟨state, h.continued, hstep⟩
      · intro own hown
        rw [lockTrace, StepFn.trace_concat h.continued hstep] at hown
        rcases List.mem_append.mp hown with hold | hnew
        · exact h.noCall own hold
        · exact not_isCallOf_of_reading hstep hpcBefore obj own hnew
    · exact ⟨labels, [], label, state, next, rfl, hbefore, hstep, rfl, hread, hsince,
        fun own hown => absurd hown List.not_mem_nil⟩

/-- A step adds at most one element to each record; only a read that returns adds to that
of the results. -/
structure Appends (boundaries : Boundaries T) (s : Shared ι T C) (label : Label ι T)
    (s' : Shared ι T C) : Prop where
  begun : s'.begun = s.begun ∨ ∃ added, s'.begun = s.begun ++ [added]
  finished : s'.finished = s.finished ∨ ∃ added, s'.finished = s.finished ++ [added]
  returned : s'.returned = s.returned ∨
    ∃ t obj drains since lock snapshot, label = .step t ∧ s.pcs t = .reading obj drains since ∧
      SeqLock.step (s.locks obj) (.step t) = some lock ∧ lock.pcs t = .returned snapshot ∧
      s'.returned = s.returned ++ [⟨obj, drains, since, snapshot⟩]

theorem appends_of_step {label : Label ι T} (hstep : step boundaries s label = some s') :
    Appends boundaries s label s' := by
  cases label with
  | add t value =>
      obtain ⟨_, rfl⟩ := step_add.mp hstep
      split <;> exact ⟨.inl rfl, .inl rfl, .inl rfl⟩
  | write t =>
      obtain ⟨added, _, _, _, rfl⟩ := step_write.mp hstep
      exact ⟨.inr ⟨added, rfl⟩, .inl rfl, .inl rfl⟩
  | modify t =>
      obtain ⟨_, _, _, _, _, _, rfl⟩ := step_modify.mp hstep
      exact ⟨.inl rfl, .inl rfl, .inl rfl⟩
  | finish t =>
      obtain ⟨added, _, _, _, rfl⟩ := step_finish.mp hstep
      exact ⟨.inl rfl, .inr ⟨added, rfl⟩, .inl rfl⟩
  | snapshot t =>
      obtain ⟨_, hcall⟩ := step_snapshot.mp hstep
      obtain ⟨_, _, rfl⟩ := call_eq_some.mp hcall
      exact ⟨.inl rfl, .inl rfl, .inl rfl⟩
  | take t =>
      obtain ⟨_, _, hcall, rfl⟩ := step_take.mp hstep
      obtain ⟨_, _, rfl⟩ := call_eq_some.mp hcall
      exact ⟨.inl rfl, .inl rfl, .inl rfl⟩
  | step t =>
      obtain ⟨obj, drains, since, lock, hpc, hlock, hcases⟩ := step_step.mp hstep
      rcases hcases with ⟨snapshot, hreturned, rfl⟩ | ⟨_, rfl⟩
      · exact ⟨.inl rfl, .inl rfl,
          .inr ⟨t, obj, drains, since, lock, snapshot, rfl, hpc, hlock, hreturned, rfl⟩⟩
      · exact ⟨.inl rfl, .inl rfl, .inl rfl⟩

/-- The record of finished adds only grows. -/
theorem finished_prefix_of_step {label : Label ι T} (hstep : step boundaries s label = some s') :
    s.finished <+: s'.finished := by
  rcases (appends_of_step hstep).finished with hsame | ⟨added, hnew⟩
  · rw [hsame]
  · rw [hnew]
    exact List.prefix_append _ _

theorem finished_prefix_of_run (hrun : StepFn.run (step boundaries) s labels = some last) :
    s.finished <+: last.finished := by
  refine StepFn.invariant_of_step (fun state => s.finished <+: state.finished) ?_
    (List.prefix_refl _) hrun
  intro label _ state next hgrown hstep
  exact hgrown.trans (finished_prefix_of_step hstep)

theorem on_prefix_of_run (hrun : StepFn.run (step boundaries) s labels = some last)
    (obj : Nat) : on obj s.finished <+: on obj last.finished :=
  (finished_prefix_of_run hrun).filter _

/-- A read that returns has read the aggregate of the adds that had finished on its
content at an instant after its call. -/
theorem aggregate_of_returned {t : ι} {obj since : Nat} {drains : Bool} {lock}
    {snapshot : Snapshot T}
    (hrun : StepFn.run (step boundaries) (init ι boundaries) labels = some s)
    (hpc : s.pcs t = .reading obj drains since)
    (hlock : SeqLock.step (s.locks obj) (.step t) = some lock)
    (hreturned : lock.pcs t = .returned snapshot)
    (hlap : (on obj s.begun).length < since + 2 ^ 64) :
    ∃ n, since ≤ n ∧ n ≤ (on obj s.finished).length ∧
      IsAggregate boundaries (((on obj s.finished).take n).map Added.value) snapshot := by
  obtain ⟨before, during, call, s0, s1, h⟩ := calledAt_of_run hrun hpc
  have htrace : lockTrace boundaries obj (init ι boundaries : Shared ι T C) labels =
      lockTrace boundaries obj (init ι boundaries) before ++
        .read t (snapshotProg boundaries) :: lockTrace boundaries obj s1 during := by
    rw [h.labels_eq, lockTrace, StepFn.trace_append h.reached, StepFn.trace_cons h.called, h.read]
    rfl
  have hlockRun := run_lockTrace obj hrun
  obtain ⟨hbegun, _⟩ := counts_lockTrace obj hrun
  obtain ⟨_, hfinished⟩ := counts_lockTrace obj h.reached
  rw [htrace] at hlockRun hbegun
  have hnoneBegun : (on obj (init ι boundaries : Shared ι T C).begun).length = 0 := rfl
  have hnoneFinished : (on obj (init ι boundaries : Shared ι T C).finished).length = 0 := rfl
  obtain ⟨mid, after, instant, hmid, hinstant, hquiet, hresult, _⟩ :=
    read_not_torn ((StepFn.run_concat_eq_some _).mpr ⟨_, hlockRun, hlock⟩) hreturned h.noCall
      (by
        have hsince := h.since_eq
        omega)
  -- The instant of the lock's run is reached by a prefix of the whole run.
  obtain ⟨earlier, later, state, rfl, hearlier, hlater, hgrown⟩ :=
    StepFn.exists_prefix_of_trace_eq h.continued hmid
  have hstate : StepFn.run (step boundaries) (init ι boundaries) (before ++ call :: earlier) =
      some state := by
    rw [StepFn.run_append, h.reached, Option.bind_some, StepFn.run_cons, h.called]
    exact hearlier
  have hsame : state.locks obj = instant := by
    have hstateLock := run_lockTrace obj hstate
    rw [lockTrace, StepFn.trace_append h.reached, StepFn.trace_cons h.called, h.read, hgrown]
      at hstateLock
    exact Option.some_inj.mp (hstateLock.symm.trans hinstant)
  subst hsame
  have hsound := sound_of_run hstate
  have haggregate := aggregate_of_quiet hsound.numbered hsound.writing hsound.content hquiet
  have hcalled : StepFn.run (step boundaries) s0 (call :: earlier) = some state := by
    rw [StepFn.run_cons, h.called]
    exact hearlier
  refine ⟨(on obj state.finished).length, ?_, (on_prefix_of_run hlater obj).length_le, ?_⟩
  · rw [h.since_eq]
    exact (on_prefix_of_run hcalled obj).length_le
  · rw [← List.prefix_iff_eq_take.mp (on_prefix_of_run hlater obj), hresult]
    exact haggregate

/-- Where a step of a read is taken, the adds in progress on the content at the call and
those begun there since are fewer than a word can count. -/
def NoLap (s : Shared ι T C) : Label ι T → Prop
  | .step t =>
      match s.pcs t with
      | .reading obj _ since => (on obj s.begun).length < since + 2 ^ 64
      | _ => True
  | _ => True

/-- The adds in a returned snapshot are the first to have finished on its content, and
among them all that had finished there before the read was called. -/
def Read (boundaries : Boundaries T) (s : Shared ι T C) (ret : Returned T) (n : Nat) : Prop :=
  ret.since ≤ n ∧ n ≤ (on ret.obj s.finished).length ∧
    IsAggregate boundaries (((on ret.obj s.finished).take n).map Added.value) ret.snapshot

omit [DecidableEq ι] in
theorem Read.mono {ret : Returned T} {n : Nat} (h : Read boundaries s ret n)
    (hgrown : s.finished <+: s'.finished) : Read boundaries s' ret n := by
  obtain ⟨hsince, hle, haggregate⟩ := h
  obtain ⟨later, hlater⟩ := hgrown.filter fun added : Added T => added.obj = ret.obj
  have hon : on ret.obj s'.finished = on ret.obj s.finished ++ later := hlater.symm
  refine ⟨hsince, ?_, ?_⟩
  · rw [hon, List.length_append]
    omega
  · rwa [hon, List.take_append_of_le_length hle]

theorem read_of_run
    (hrun : StepFn.run (step boundaries) (init ι boundaries) labels = some last)
    (hlap : StepFn.Along (step boundaries) NoLap (init ι boundaries) labels) :
    ∀ ret ∈ last.returned, ∃ n, Read boundaries last ret n := by
  revert hlap
  refine StepFn.run_induction (motive := fun labels (last : Shared ι T C) =>
    StepFn.Along (step boundaries) NoLap (init ι boundaries) labels →
      ∀ ret ∈ last.returned, ∃ n, Read boundaries last ret n) ?_ ?_ hrun
  · simp [init]
  · intro labels state label next hbefore ih hstep hlap ret hin
    obtain ⟨hearlier, hhere⟩ := StepFn.along_concat.mp hlap
    have hgrown := finished_prefix_of_step hstep
    have hold : ret ∈ state.returned → ∃ n, Read boundaries next ret n := by
      intro hin
      obtain ⟨n, hread⟩ := ih hearlier ret hin
      exact ⟨n, hread.mono hgrown⟩
    rcases (appends_of_step hstep).returned with
      hsame | ⟨t, obj, drains, since, lock, snapshot, rfl, hpc, hlock, hreturned, hnew⟩
    · exact hold (hsame ▸ hin)
    · rw [hnew] at hin
      rcases List.mem_append.mp hin with hin | hin
      · exact hold hin
      · obtain rfl := List.mem_singleton.mp hin
        have hfew : (on obj state.begun).length < since + 2 ^ 64 := by
          have := hhere state hbefore
          simpa only [NoLap, hpc] using this
        obtain ⟨n, hsince, hle, haggregate⟩ :=
          aggregate_of_returned hbefore hpc hlock hreturned hfew
        have hread : Read boundaries state ⟨obj, drains, since, snapshot⟩ n :=
          ⟨hsince, hle, haggregate⟩
        exact ⟨n, hread.mono hgrown⟩

/-! ## An add that no swap interrupts -/

/-- The add finished on its content before any `take` of the content was called. -/
def FinishedInTime (s : Shared ι T C) (added : Added T) : Prop :=
  added ∈ s.finished ∧
    (∀ t since, s.pcs t = .reading added.obj true since →
      added ∈ (on added.obj s.finished).take since) ∧
    ∀ ret ∈ s.returned, ret.drains → ret.obj = added.obj →
      added ∈ (on added.obj s.finished).take ret.since

omit [Measure T C] [DecidableEq ι] in
theorem mem_take_of_prefix {added : Added T} {since obj : Nat}
    (hin : added ∈ (on obj s.finished).take since) (hgrown : s.finished <+: s'.finished) :
    added ∈ (on obj s'.finished).take since :=
  ((hgrown.filter _).take since).subset hin

omit [Measure T C] in
theorem FinishedInTime.frame {t : ι} {pc : Pc T} {added : Added T} (h : FinishedInTime s added)
    (hgrown : s.finished <+: s'.finished) (hpcs : s'.pcs = Function.update s.pcs t pc)
    (hpc : ∀ since, pc = .reading added.obj true since →
      added ∈ (on added.obj s.finished).take since)
    (hreturned : ∀ ret ∈ s'.returned, ret ∈ s.returned ∨
      s.pcs t = .reading ret.obj ret.drains ret.since) : FinishedInTime s' added := by
  obtain ⟨hin, hreading, hdrained⟩ := h
  refine ⟨hgrown.subset hin, fun t' since hpc' => ?_, fun ret hret hdrains hobj => ?_⟩
  · apply mem_take_of_prefix _ hgrown
    rw [hpcs] at hpc'
    by_cases hself : t' = t
    · subst hself
      rw [Function.update_self] at hpc'
      exact hpc since hpc'
    · rw [Function.update_of_ne hself] at hpc'
      exact hreading t' since hpc'
  · apply mem_take_of_prefix _ hgrown
    rcases hreturned ret hret with hold | hnew
    · exact hdrained ret hold hdrains hobj
    · rw [hobj, hdrains] at hnew
      exact hreading t ret.since hnew

theorem FinishedInTime.step {label : Label ι T} {added : Added T} (h : FinishedInTime s added)
    (hstep : Concurrent.step boundaries s label = some s') : FinishedInTime s' added := by
  have hself : ∀ t, ∀ since, s.pcs t = .reading added.obj true since →
      added ∈ (on added.obj s.finished).take since := h.2.1
  have hall : added ∈ (on added.obj s.finished).take (on added.obj s.finished).length := by
    rw [List.take_length]
    exact mem_on.mpr ⟨h.1, rfl⟩
  cases label with
  | add t value =>
      obtain ⟨_, rfl⟩ := step_add.mp hstep
      split
      · exact h.frame (List.prefix_refl _) rfl (by simp) fun ret hret => Or.inl hret
      · exact h
  | write t =>
      obtain ⟨_, _, _, _, rfl⟩ := step_write.mp hstep
      exact h.frame (List.prefix_refl _) rfl (by simp) fun ret hret => Or.inl hret
  | modify t =>
      obtain ⟨_, _, _, _, _, _, rfl⟩ := step_modify.mp hstep
      exact h.frame (List.prefix_refl _) rfl (by simp) fun ret hret => Or.inl hret
  | finish t =>
      obtain ⟨_, _, _, _, rfl⟩ := step_finish.mp hstep
      exact h.frame (List.prefix_append _ _) rfl (by simp) fun ret hret => Or.inl hret
  | snapshot t =>
      obtain ⟨_, hcall⟩ := step_snapshot.mp hstep
      obtain ⟨_, _, rfl⟩ := call_eq_some.mp hcall
      exact h.frame (List.prefix_refl _) rfl (by simp) fun ret hret => Or.inl hret
  | take t =>
      obtain ⟨_, _, hcall, rfl⟩ := step_take.mp hstep
      obtain ⟨_, _, rfl⟩ := call_eq_some.mp hcall
      refine h.frame (List.prefix_refl _) rfl ?_ fun ret hret => Or.inl hret
      intro since hpc
      simp only [Pc.reading.injEq, true_and] at hpc
      obtain ⟨hobj, rfl⟩ := hpc
      rw [hobj]
      exact hall
  | step t =>
      obtain ⟨obj, drains, since, lock, hpc, _, hcases⟩ := step_step.mp hstep
      rcases hcases with ⟨snapshot, _, rfl⟩ | ⟨_, rfl⟩
      · refine h.frame (List.prefix_refl _) rfl (by simp) fun ret hret => ?_
        rcases List.mem_append.mp hret with hold | hnew
        · exact Or.inl hold
        · obtain rfl := List.mem_singleton.mp hnew
          exact Or.inr hpc
      · exact h

/-- The thread performs the add, and its content is current. -/
def InHand (t : ι) (added : Added T) (s : Shared ι T C) : Prop :=
  s.current = added.obj ∧
    (s.pcs t = .loaded added ∨ ∃ left, s.pcs t = .adding added left)

theorem InHand.step {t : ι} {added : Added T} {label : Label ι T} (h : InHand t added s)
    (hfinish : label ≠ .finish t) (htake : ∀ t', label ≠ .take t')
    (hstep : Concurrent.step boundaries s label = some s') : InHand t added s' := by
  obtain ⟨hcurrent, hpc⟩ := h
  have hother : ∀ {t' : ι} {pc : Pc T}, t ≠ t' →
      (Function.update s.pcs t' pc t = .loaded added ∨
        ∃ left, Function.update s.pcs t' pc t = .adding added left) := by
    intro t' pc hne
    simpa only [Function.update_of_ne hne] using hpc
  cases label with
  | add t' value =>
      obtain ⟨hidle, rfl⟩ := step_add.mp hstep
      split
      · exact ⟨hcurrent, hother (by rintro rfl; simp [hidle] at hpc)⟩
      · exact ⟨hcurrent, hpc⟩
  | write t' =>
      obtain ⟨other, _, hloaded, _, rfl⟩ := step_write.mp hstep
      refine ⟨hcurrent, ?_⟩
      by_cases hself : t = t'
      · subst hself
        obtain rfl : other = added := by simpa [hloaded] using hpc
        exact Or.inr ⟨_, Function.update_self ..⟩
      · exact hother hself
  | modify t' =>
      obtain ⟨other, field, left, _, hadding, _, rfl⟩ := step_modify.mp hstep
      refine ⟨hcurrent, ?_⟩
      by_cases hself : t = t'
      · subst hself
        obtain rfl : other = added := by simpa [hadding] using hpc
        exact Or.inr ⟨_, Function.update_self ..⟩
      · exact hother hself
  | finish t' =>
      obtain ⟨other, _, _, _, rfl⟩ := step_finish.mp hstep
      exact ⟨hcurrent, hother (by rintro rfl; exact hfinish rfl)⟩
  | snapshot t' =>
      obtain ⟨hidle, hcall⟩ := step_snapshot.mp hstep
      obtain ⟨_, _, rfl⟩ := call_eq_some.mp hcall
      exact ⟨hcurrent, hother (by rintro rfl; simp [hidle] at hpc)⟩
  | take t' => exact absurd rfl (htake t')
  | step t' =>
      obtain ⟨_, _, _, _, hreading, _, hcases⟩ := step_step.mp hstep
      rcases hcases with ⟨_, _, rfl⟩ | ⟨_, rfl⟩
      · exact ⟨hcurrent, hother (by rintro rfl; simp [hreading] at hpc)⟩
      · exact ⟨hcurrent, hpc⟩

/-- An add that no swap interrupts finishes in time. -/
theorem finishedInTime_of_run {pre during post : List (Label ι T)} {t : ι} {value : T}
    (hpre : StepFn.run (step boundaries) (init ι boundaries) pre = some s)
    (hcomparable : comparable value) (hduring : ∀ label ∈ during, label ≠ .finish t ∧
      ∀ t', label ≠ .take t')
    (hrun : StepFn.run (step boundaries) s (.add t value :: during ++ .finish t :: post) =
      some last) : FinishedInTime last ⟨s.calls, s.current, value⟩ := by
  obtain ⟨ready, hready, hpost⟩ := (StepFn.run_append_eq_some _).mp hrun
  obtain ⟨called, hcall, hcalled⟩ := Option.bind_eq_some_iff.mp hready
  obtain ⟨hidle, rfl⟩ := step_add.mp hcall
  rw [if_pos hcomparable] at hcalled
  have hhand : InHand t ⟨s.calls, s.current, value⟩ ready := by
    refine StepFn.invariant_of_step (InHand t ⟨s.calls, s.current, value⟩) ?_ ?_ hcalled
    · intro label hlabel state next hinv hstep
      exact hinv.step (hduring label hlabel).1 (hduring label hlabel).2 hstep
    · exact ⟨rfl, Or.inl (Function.update_self ..)⟩
  obtain ⟨done, hfinish, hlast⟩ := Option.bind_eq_some_iff.mp hpost
  have hdone : StepFn.run (step boundaries) (init ι boundaries)
      (pre ++ (.add t value :: during ++ [.finish t])) = some done := by
    rw [StepFn.run_append, hpre, Option.bind_some]
    exact (StepFn.run_concat_eq_some _).mpr ⟨ready, hready, hfinish⟩
  have hsound := sound_of_run hdone
  obtain ⟨added, _, hpc, _, rfl⟩ := step_finish.mp hfinish
  obtain rfl : added = ⟨s.calls, s.current, value⟩ := by
    simpa [hpc] using hhand.2
  refine StepFn.invariant_of_step (fun state => FinishedInTime state ⟨s.calls, s.current, value⟩)
    (fun _ _ _ _ hinv hstep => hinv.step hstep) ?_ hlast
  -- No `take` of the current content has been called yet.
  refine ⟨List.mem_append_right _ (List.mem_singleton.mpr rfl), ?_, ?_⟩
  · intro t' since hpc'
    exact absurd hhand.1.symm (hsound.retired.draining t' _ since hpc').2
  · intro ret hin hdrains hobj
    exact absurd (hobj.trans hhand.1.symm) (hsound.retired.drained ret hin hdrains).2

/-! ## Where adds are counted -/

/-- What the returned snapshots contain.  No two adds have the same number, so lists of
adds that share none share no recorded value. -/
structure Counted (boundaries : Boundaries T) (s : Shared ι T C)
    (contents : Returned T → List (Added T)) : Prop where
  numbered : ∀ first ∈ s.begun, ∀ second ∈ s.begun, first.id = second.id → first = second
  recorded : ∀ ret ∈ s.returned, (contents ret).Nodup ∧ contents ret ⊆ on ret.obj s.finished
  aggregate : ∀ ret ∈ s.returned,
    IsAggregate boundaries ((contents ret).map Added.value) ret.snapshot
  balanced : ∀ ret ∈ s.returned, ret.snapshot.count = ret.snapshot.bucketCounts.sum ∧
    ((contents ret).length < 2 ^ 64 → ret.snapshot.count.toNat = (contents ret).length ∧
      ret.snapshot.count.toNat = (ret.snapshot.bucketCounts.map UInt64.toNat).sum)
  apart : s.returned.Pairwise fun first second => first.drains → second.drains →
    (contents first).Disjoint (contents second)
  apart_current : ∀ ret ∈ s.returned, ret.drains →
    (contents ret).Disjoint (on s.current s.begun)
  current : Quiet (s.locks s.current) →
    IsAggregate boundaries ((on s.current s.finished).map Added.value)
      ((snapshotProg boundaries).eval (s.locks s.current).inner)

/-- The add is in one place: the current content, or the one `take` that retired its
content, unless that is still reading. -/
def InOnePlace (s : Shared ι T C) (contents : Returned T → List (Added T))
    (added : Added T) : Prop :=
  (added ∈ on s.current s.finished ∧ ∀ ret ∈ s.returned, ret.drains → added ∉ contents ret) ∨
    (added ∉ on s.current s.begun ∧ (∃ t since, s.pcs t = .reading added.obj true since) ∧
      ∀ ret ∈ s.returned, ret.drains → added ∉ contents ret) ∨
    (added ∉ on s.current s.begun ∧ ∃ earlier ret later,
      s.returned = earlier ++ ret :: later ∧ ret.drains ∧ ret.obj = added.obj ∧
        added ∈ contents ret ∧
        ∀ other ∈ earlier ++ later, other.drains → added ∉ contents other)

omit [DecidableEq ι] in
/-- What is read of contents that are each retired once is counted once. -/
theorem counted_of_read {n : Returned T → Nat} (hsound : Sound boundaries s)
    (hread : ∀ ret ∈ s.returned, Read boundaries s ret (n ret)) :
    Counted boundaries s fun ret => (on ret.obj s.finished).take (n ret) := by
  have hsub : ∀ (ret : Returned T) added, added ∈ (on ret.obj s.finished).take (n ret) →
      added ∈ s.begun ∧ added.obj = ret.obj := by
    intro ret added hin
    obtain ⟨hfinished, hobj⟩ := mem_on.mp ((List.take_sublist _ _).subset hin)
    exact ⟨hsound.numbered.finished_begun added hfinished, hobj⟩
  refine ⟨hsound.numbered.begun_one, ?_, ?_, ?_, ?_, ?_, ?_⟩
  · intro ret _
    have hnodup : (on ret.obj s.finished).Nodup := hsound.numbered.finished_nodup.filter _
    exact ⟨(List.take_sublist _ _).nodup hnodup, (List.take_sublist _ _).subset⟩
  · exact fun ret hin => (hread ret hin).2.2
  · intro ret hin
    have haggregate := (hread ret hin).2.2
    refine ⟨haggregate.count_eq_sum, fun hfew => ?_⟩
    simpa using haggregate.toNat_count (by simpa using hfew)
  · apply hsound.retired.drained_one.imp
    intro first second hne hdrains hdrains' added hfirst hsecond
    exact hne hdrains hdrains'
      ((hsub first added hfirst).2.symm.trans (hsub second added hsecond).2)
  · intro ret hin hdrains added hret hcurrent
    have hobj := (mem_on.mp hcurrent).2
    exact (hsound.retired.drained ret hin hdrains).2 ((hsub ret added hret).2.symm.trans hobj)
  · exact aggregate_of_quiet hsound.numbered hsound.writing hsound.content

omit [DecidableEq ι] in
/-- What finished in time is in one place. -/
theorem inOnePlace_of_finishedInTime {n : Returned T → Nat} {added : Added T}
    (hsound : Sound boundaries s) (hread : ∀ ret ∈ s.returned, Read boundaries s ret (n ret))
    (hin : FinishedInTime s added) :
    InOnePlace s (fun ret => (on ret.obj s.finished).take (n ret)) added := by
  obtain ⟨hfinished, _, hdrained⟩ := hin
  have hnotIn : ∀ ret : Returned T, ret.obj ≠ added.obj →
      added ∉ (on ret.obj s.finished).take (n ret) := by
    intro ret hne hmem
    exact hne (mem_on.mp ((List.take_sublist _ _).subset hmem)).2.symm
  have hlt : added.obj < s.next :=
    hsound.allocated.begun added (hsound.numbered.finished_begun added hfinished)
  rcases hsound.retired.accounted added.obj hlt with hcurrent | ⟨t, since, hpc⟩ |
    ⟨ret, hret, hdrains, hobj⟩
  · refine Or.inl ⟨mem_on.mpr ⟨hfinished, hcurrent⟩, fun ret hret hdrains => hnotIn ret ?_⟩
    rw [hcurrent]
    exact (hsound.retired.drained ret hret hdrains).2
  · refine Or.inr (Or.inl ⟨?_, ⟨t, since, hpc⟩, fun ret hret hdrains => hnotIn ret ?_⟩)
    · exact fun hmem => (hsound.retired.draining t _ since hpc).2 (mem_on.mp hmem).2
    · exact hsound.retired.apart t _ since hpc ret hret hdrains
  · obtain ⟨earlier, later, hsplit⟩ := List.append_of_mem hret
    refine Or.inr (Or.inr ⟨?_, earlier, ret, later, hsplit, hdrains, hobj, ?_, ?_⟩)
    · intro hmem
      exact (hsound.retired.drained ret hret hdrains).2 (hobj.trans (mem_on.mp hmem).2)
    · have htaken := hdrained ret hret hdrains hobj
      rw [← hobj] at htaken
      exact (List.take_sublist_take_left (hread ret hret).1).subset htaken
    · intro other hother hdrainsOther
      have hone := hsound.retired.drained_one
      rw [hsplit, List.pairwise_append, List.pairwise_cons] at hone
      apply hnotIn other
      rw [← hobj]
      rcases List.mem_append.mp hother with hearlier | hlater
      · exact hone.2.2 other hearlier ret List.mem_cons_self hdrainsOther hdrains
      · exact (hone.2.1.1 other hlater hdrains hdrainsOther).symm

/-- Adds are counted once.  Every snapshot that has been returned is the aggregate of a
set of adds, its bucket counts adding up to its count; the sets of two takes share no
add, nor do those of a take and the content current after it; and an add that
finished with no swap since it loaded the pointer is in one place. -/
theorem adds_counted_once
    (hrun : StepFn.run (step boundaries) (init ι boundaries) labels = some last)
    (hlap : StepFn.Along (step boundaries) NoLap (init ι boundaries) labels) :
    ∃ contents, Counted boundaries last contents ∧
      ∀ pre t value during post s,
        labels = pre ++ (.add t value :: during ++ .finish t :: post) →
        StepFn.run (step boundaries) (init ι boundaries) pre = some s → comparable value →
        (∀ label ∈ during, label ≠ .finish t ∧ ∀ t', label ≠ .take t') →
        InOnePlace last contents ⟨s.calls, s.current, value⟩ := by
  have hsound := sound_of_run hrun
  choose! n hread using read_of_run hrun hlap
  refine ⟨fun ret => (on ret.obj last.finished).take (n ret), counted_of_read hsound hread, ?_⟩
  intro pre t value during post s hlabels hpre hcomparable hduring
  apply inOnePlace_of_finishedInTime hsound hread
  rw [hlabels, StepFn.run_append, hpre, Option.bind_some] at hrun
  exact finishedInTime_of_run hpre hcomparable hduring hrun

/-- While fewer steps are taken than a word can count, nothing laps. -/
theorem along_noLap_of_length (hfew : s.begun.length + labels.length < 2 ^ 64) :
    StepFn.Along (step boundaries) NoLap s labels := by
  induction labels generalizing s with
  | nil => trivial
  | cons label rest ih =>
      rw [List.length_cons] at hfew
      have hhere : NoLap s label := by
        unfold NoLap
        split
        · split
          · rename_i obj _ _ _
            have : (on obj s.begun).length ≤ s.begun.length := List.length_filter_le _ _
            omega
          · trivial
        · trivial
      refine ⟨hhere, fun next hstep => ih ?_⟩
      have hgrows : next.begun.length ≤ s.begun.length + 1 := by
        rcases (appends_of_step hstep).begun with hsame | ⟨added, hnew⟩
        · rw [hsame]
          exact Nat.le_succ _
        · rw [hnew, List.length_append, List.length_singleton]
      omega

def oneBoundary : Boundaries UInt64 := ⟨[1], by simp, by simp⟩

/-- Thread `false` records 5, and then takes while thread `true` records 0 in what the
`take` left current. -/
def addsAndTake : List (Label Bool UInt64) :=
  [.add false 5, .write false, .modify false, .modify false, .modify false, .modify false,
    .modify false, .finish false, .take false, .add true 0, .write true, .step false,
    .step false, .modify true, .step false, .step false, .step false, .step false,
    .modify true, .step false, .step false, .modify true, .modify true, .modify true,
    .finish true]

theorem adds_counted_once_beside_take :
    ∃ last contents,
      StepFn.run (step oneBoundary) (init Bool oneBoundary) addsAndTake = some last ∧
      Counted oneBoundary last contents ∧ InOnePlace last contents ⟨0, 0, 5⟩ ∧
      InOnePlace last contents ⟨1, 1, 0⟩ := by
  have hruns : (StepFn.run (step oneBoundary) (init Bool oneBoundary) addsAndTake).isSome := by
    decide +kernel
  obtain ⟨last, hrun⟩ := Option.isSome_iff_exists.mp hruns
  obtain ⟨contents, hcounted, hplace⟩ :=
    adds_counted_once hrun (along_noLap_of_length (by decide))
  refine ⟨last, contents, hrun, hcounted, ?_, ?_⟩
  · exact hplace [] false 5 (addsAndTake.tail.take 6) (addsAndTake.drop 8) _ rfl rfl rfl
      (by simp [addsAndTake])
  · have hpre : (StepFn.run (step oneBoundary) (init Bool oneBoundary)
        (addsAndTake.take 9)).map (fun s => (s.calls, s.current)) = some (1, 1) := by
      decide +kernel
    obtain ⟨s, hs, hcalls⟩ := Option.map_eq_some_iff.mp hpre
    obtain ⟨hid, hobj⟩ := Prod.mk.inj hcalls
    have hsecond := hplace (addsAndTake.take 9) true 0 ((addsAndTake.drop 10).take 14) [] s rfl hs
      rfl (by simp [addsAndTake])
    rwa [hid, hobj] at hsecond

/-! ## A lap of the counter -/

/-- The steps of one `add` by thread `true`. -/
def addSteps : List (Label Bool UInt64) :=
  [.add true 0, .write true, .modify true, .modify true, .modify true, .modify true,
    .modify true, .finish true]

/-- Thread `false` reads the content 0 while thread `true` is between adds to it. -/
structure Between (s : Shared Bool UInt64 UInt64) (own : SeqLock.Pc (Field.Value UInt64)
    (Snapshot UInt64)) (start : UInt64) : Prop where
  current : s.current = 0
  reading : s.pcs false = .reading 0 false 0
  idle : s.pcs true = .idle
  own_eq : (s.locks 0).pcs false = own
  free : ((s.locks 0).pcs true).Free
  start_eq : (s.locks 0).start = start

/-- An `add` leaves the read where it is and increments `start`. -/
theorem between_add {s : Shared Bool UInt64 UInt64}
    {own : SeqLock.Pc (Field.Value UInt64) (Snapshot UInt64)} {start : UInt64}
    (h : Between s own start) :
    ∃ s', StepFn.run (step oneBoundary) s addSteps = some s' ∧ Between s' own (start + 1) := by
  obtain ⟨hcurrent, hreading, hidle, hown, hfree, hstart⟩ := h
  simp only [addSteps, StepFn.run_cons, StepFn.run_nil, step, hidle, hcurrent, comparable,
    PartialOrd.partialCmp, Option.isSome_some, if_true, Option.bind_some, Function.update_self,
    SeqLock.step, hfree, Option.map_some, addFields, Function.update_idem, Option.some.injEq,
    exists_eq_left']
  refine ⟨rfl, ?_, ?_, ?_, ?_, ?_⟩
  · simpa using hreading
  · simp
  · simpa using hown
  · simp [SeqLock.Pc.Free]
  · simpa using hstart

theorem between_adds (n : Nat) {s : Shared Bool UInt64 UInt64}
    {own : SeqLock.Pc (Field.Value UInt64) (Snapshot UInt64)} {start : UInt64}
    (h : Between s own start) :
    ∃ s', StepFn.run (step oneBoundary) s (List.replicate n addSteps).flatten = some s' ∧
      Between s' own (start + UInt64.ofNat n) := by
  induction n generalizing s start with
  | zero => exact ⟨s, rfl, by simpa using h⟩
  | succ n ih =>
      obtain ⟨next, hnext, hbetween⟩ := between_add h
      obtain ⟨s', hs', hlast⟩ := ih hbetween
      refine ⟨s', ?_, ?_⟩
      · rw [List.replicate_succ, List.flatten_cons, StepFn.run_append, hnext]
        exact hs'
      · rwa [UInt64.add_assoc, UInt64.add_comm 1, ← UInt64.ofNat_one, ← UInt64.ofNat_add] at hlast

/-- Thread `false` loads the count, thread `true` adds once, and thread `false` loads the
other fields. -/
def tornLoads : List (Label Bool UInt64) :=
  .snapshot false :: .step false :: .step false :: .step false :: addSteps ++
    [.step false, .step false, .step false]

/-- If as many adds as a word can count begin during a read, the read accepts fields it
has loaded from different contents. -/
theorem torn_after_lap :
    ¬ ∀ (labels : List (Label Bool UInt64)) (last : Shared Bool UInt64 UInt64),
      StepFn.run (step oneBoundary) (init Bool oneBoundary) labels = some last →
        ∀ ret ∈ last.returned, ret.snapshot.count = ret.snapshot.bucketCounts.sum := by
  intro hbalanced
  have hloads : ∃ s, StepFn.run (step oneBoundary) (init Bool oneBoundary) tornLoads = some s ∧
      Between s (.inner (snapshotProg oneBoundary) 0 (.ret ⟨[1], [1, 0], 0, 0, none, none⟩)) 1 :=
    ⟨_, rfl, ⟨rfl, rfl, rfl, rfl, trivial, rfl⟩⟩
  obtain ⟨s, hs, hbetween⟩ := hloads
  obtain ⟨s', hs', hlapped⟩ := between_adds (2 ^ 64 - 1) hbetween
  have hstart : (1 + UInt64.ofNat (2 ^ 64 - 1) : UInt64) = 0 := by decide
  rw [hstart] at hlapped
  have hlast : ∃ last, step oneBoundary s' (.step false) = some last ∧
      ⟨0, false, 0, ⟨[1], [1, 0], 0, 0, none, none⟩⟩ ∈ last.returned := by
    simp [step, hlapped.reading, SeqLock.step, hlapped.own_eq, advance, hlapped.start_eq]
  obtain ⟨last, hstep, hin⟩ := hlast
  have hrun : StepFn.run (step oneBoundary) (init Bool oneBoundary)
      (tornLoads ++ (List.replicate (2 ^ 64 - 1) addSteps).flatten ++ [.step false]) =
        some last := by
    rw [StepFn.run_concat_eq_some]
    exact ⟨s', (StepFn.run_append_eq_some _).mpr ⟨s, hs, hs'⟩, hstep⟩
  exact absurd (hbalanced _ last hrun _ hin) (by decide)

end Ohnotel.Atomic.Concurrent
