/-
# What the record of a histogram cell says

Four invariants of every run.  Each content's lock sees a run of its own, and the
record counts what the lock counts.  Adds are told apart by their numbers.  The
threads within a write of a lock are those that perform an add on its content.  And
every field holds what the adds recorded that have written to it.

Together they say that a content no thread writes to is the aggregate of the adds
that have finished on it.
-/

import Mathlib.Data.List.Nodup
import Ohnotel.Atomic.Aggregate
import Ohnotel.Atomic.Concurrent

namespace Ohnotel.Atomic.Concurrent

open Foundation SeqLock

variable {T C ι : Type} [Measure T C] [DecidableEq ι] {boundaries : Boundaries T}
  {s s' : Shared ι T C}

/-! ## What each lock sees -/

/-- The lock that a step moves, and how. -/
def lockLabel (boundaries : Boundaries T) (s : Shared ι T C) :
    Label ι T → Option (Nat × SeqLock.Label ι (Field.Value C) (Snapshot T))
  | .add _ _ => none
  | .write t =>
      match s.pcs t with
      | .loaded added => some (added.obj, .write t)
      | _ => none
  | .modify t =>
      match s.pcs t with
      | .adding added (field :: _) =>
          some (added.obj, .modify t field (field.record added.value))
      | _ => none
  | .finish t =>
      match s.pcs t with
      | .adding added [] => some (added.obj, .finish t)
      | _ => none
  | .snapshot t | .take t => some (s.current, .read t (snapshotProg boundaries))
  | .step t =>
      match s.pcs t with
      | .reading obj _ _ => some (obj, .step t)
      | _ => none

def onto (boundaries : Boundaries T) (obj : Nat) (s : Shared ι T C) (label : Label ι T) :
    Option (SeqLock.Label ι (Field.Value C) (Snapshot T)) :=
  (lockLabel boundaries s label).bind fun found => if found.1 = obj then some found.2 else none

/-- A step moves one lock at most, by one of the lock's own steps. -/
theorem locks_of_step {label : Label ι T} (hstep : step boundaries s label = some s') :
    (lockLabel boundaries s label = none ∧ s'.locks = s.locks) ∨
      ∃ obj own lock, lockLabel boundaries s label = some (obj, own) ∧
        SeqLock.step (s.locks obj) own = some lock ∧
        s'.locks = Function.update s.locks obj lock := by
  cases label with
  | add t value =>
      obtain ⟨_, rfl⟩ := step_add.mp hstep
      exact Or.inl ⟨rfl, by split <;> rfl⟩
  | write t =>
      obtain ⟨added, lock, hpc, hlock, rfl⟩ := step_write.mp hstep
      exact Or.inr ⟨added.obj, _, lock, by rw [lockLabel, hpc], hlock, rfl⟩
  | modify t =>
      obtain ⟨added, field, left, lock, hpc, hlock, rfl⟩ := step_modify.mp hstep
      exact Or.inr ⟨added.obj, _, lock, by rw [lockLabel, hpc], hlock, rfl⟩
  | finish t =>
      obtain ⟨added, lock, hpc, hlock, rfl⟩ := step_finish.mp hstep
      exact Or.inr ⟨added.obj, _, lock, by rw [lockLabel, hpc], hlock, rfl⟩
  | snapshot t =>
      obtain ⟨_, hcall⟩ := step_snapshot.mp hstep
      obtain ⟨lock, hlock, rfl⟩ := call_eq_some.mp hcall
      exact Or.inr ⟨s.current, _, lock, rfl, hlock, rfl⟩
  | take t =>
      obtain ⟨_, called, hcall, rfl⟩ := step_take.mp hstep
      obtain ⟨lock, hlock, rfl⟩ := call_eq_some.mp hcall
      exact Or.inr ⟨s.current, _, lock, rfl, hlock, rfl⟩
  | step t =>
      obtain ⟨obj, drains, since, lock, hpc, hlock, hcases⟩ := step_step.mp hstep
      refine Or.inr ⟨obj, _, lock, by rw [lockLabel, hpc], hlock, ?_⟩
      rcases hcases with ⟨_, _, rfl⟩ | ⟨_, rfl⟩ <;> rfl

theorem lock_of_step {label : Label ι T} (hstep : step boundaries s label = some s')
    (obj : Nat) :
    StepFn.run SeqLock.step (s.locks obj) (onto boundaries obj s label).toList =
      some (s'.locks obj) := by
  rcases locks_of_step hstep with ⟨hnone, hlocks⟩ | ⟨found, own, lock, hsome, hlock, hlocks⟩
  · simp [onto, hnone, hlocks]
  · by_cases hobj : found = obj
    · subst hobj
      simp [onto, hsome, hlock, hlocks]
    · simp [onto, hsome, hlocks, hobj, Ne.symm hobj]

@[simp]
theorem on_append (obj : Nat) (first second : List (Added T)) :
    on obj (first ++ second) = on obj first ++ on obj second :=
  List.filter_append _ _

/-- The record counts what the lock counts. -/
theorem counts_of_step {label : Label ι T} (hstep : step boundaries s label = some s')
    (obj : Nat) :
    (on obj s'.begun).length =
        (on obj s.begun).length + starts (onto boundaries obj s label).toList ∧
      (on obj s'.finished).length =
        (on obj s.finished).length + finishes (onto boundaries obj s label).toList := by
  cases label with
  | add t value =>
      obtain ⟨_, rfl⟩ := step_add.mp hstep
      split <;> simp [onto, lockLabel, starts, finishes]
  | write t =>
      obtain ⟨added, lock, hpc, hlock, rfl⟩ := step_write.mp hstep
      by_cases hobj : added.obj = obj <;>
        simp [onto, lockLabel, hpc, starts, finishes, Label.isWrite, Label.isFinish, on, hobj]
  | modify t =>
      obtain ⟨added, field, left, lock, hpc, hlock, rfl⟩ := step_modify.mp hstep
      by_cases hobj : added.obj = obj <;>
        simp [onto, lockLabel, hpc, starts, finishes, Label.isWrite, Label.isFinish, hobj]
  | finish t =>
      obtain ⟨added, lock, hpc, hlock, rfl⟩ := step_finish.mp hstep
      by_cases hobj : added.obj = obj <;>
        simp [onto, lockLabel, hpc, starts, finishes, Label.isWrite, Label.isFinish, on, hobj]
  | snapshot t =>
      obtain ⟨_, hcall⟩ := step_snapshot.mp hstep
      obtain ⟨lock, hlock, rfl⟩ := call_eq_some.mp hcall
      by_cases hobj : s.current = obj <;>
        simp [onto, lockLabel, starts, finishes, Label.isWrite, Label.isFinish, hobj]
  | take t =>
      obtain ⟨_, called, hcall, rfl⟩ := step_take.mp hstep
      obtain ⟨lock, hlock, rfl⟩ := call_eq_some.mp hcall
      by_cases hobj : s.current = obj <;>
        simp [onto, lockLabel, starts, finishes, Label.isWrite, Label.isFinish, hobj]
  | step t =>
      obtain ⟨found, drains, since, lock, hpc, hlock, hcases⟩ := step_step.mp hstep
      have hrecord : s'.begun = s.begun ∧ s'.finished = s.finished := by
        rcases hcases with ⟨_, _, rfl⟩ | ⟨_, rfl⟩ <;> exact ⟨rfl, rfl⟩
      rw [hrecord.1, hrecord.2]
      by_cases hobj : found = obj <;>
        simp [onto, lockLabel, hpc, starts, finishes, Label.isWrite, Label.isFinish, hobj]

/-- The labels of one content's lock in a run. -/
abbrev lockTrace (boundaries : Boundaries T) (obj : Nat) (s : Shared ι T C)
    (labels : List (Label ι T)) : List (SeqLock.Label ι (Field.Value C) (Snapshot T)) :=
  StepFn.trace (step boundaries) (onto boundaries obj) s labels

theorem run_lockTrace {labels : List (Label ι T)} {last : Shared ι T C} (obj : Nat)
    (hrun : StepFn.run (step boundaries) s labels = some last) :
    StepFn.run SeqLock.step (s.locks obj) (lockTrace boundaries obj s labels) =
      some (last.locks obj) :=
  StepFn.run_trace (fun _ _ _ hstep => lock_of_step hstep obj) hrun

theorem counts_lockTrace {labels : List (Label ι T)} {last : Shared ι T C} (obj : Nat)
    (hrun : StepFn.run (step boundaries) s labels = some last) :
    (on obj last.begun).length =
        (on obj s.begun).length + starts (lockTrace boundaries obj s labels) ∧
      (on obj last.finished).length =
        (on obj s.finished).length + finishes (lockTrace boundaries obj s labels) := by
  induction labels generalizing s with
  | nil =>
      obtain rfl : s = last := by simpa using hrun
      exact ⟨rfl, rfl⟩
  | cons label rest ih =>
      obtain ⟨next, hstep, hrest⟩ := Option.bind_eq_some_iff.mp hrun
      obtain ⟨hbegun, hfinished⟩ := counts_of_step hstep obj
      obtain ⟨hbegunRest, hfinishedRest⟩ := ih hrest
      simp only [lockTrace, StepFn.trace_cons hstep, starts_append, finishes_append] at *
      omega

/-! ## Adds are told apart by their numbers -/

/-- The add a thread has in hand. -/
def Pc.Carries : Pc T → Added T → Prop
  | .loaded own, added | .adding own _, added => own = added
  | .idle, _ | .reading _ _ _, _ => False

/-- What the numbers mean.  No two adds have the same; an add that has begun is either
finished or in the hands of the one thread that performs it. -/
structure Numbered (boundaries : Boundaries T) (s : Shared ι T C) : Prop where
  begun_lt : ∀ added ∈ s.begun, added.id < s.calls
  begun_one : ∀ first ∈ s.begun, ∀ second ∈ s.begun, first.id = second.id → first = second
  finished_begun : ∀ added ∈ s.finished, added ∈ s.begun
  finished_nodup : s.finished.Nodup
  carried_lt : ∀ t added, (s.pcs t).Carries added → added.id < s.calls
  carried_one : ∀ t t' first second, (s.pcs t).Carries first → (s.pcs t').Carries second →
    first.id = second.id → t = t'
  loaded : ∀ t added, s.pcs t = .loaded added → ∀ other ∈ s.begun, other.id ≠ added.id
  adding : ∀ t added left, s.pcs t = .adding added left → added ∈ s.begun ∧
    added ∉ s.finished ∧ left <:+ addFields (bucketIndex boundaries added.value)
  unfinished : ∀ added ∈ s.begun, added ∉ s.finished → ∃ t left, s.pcs t = .adding added left

omit [DecidableEq ι] in
theorem numbered_init : Numbered boundaries (init ι boundaries : Shared ι T C) := by
  constructor <;> simp [init, Pc.Carries]

omit [Measure T C] in
/-- Moving a thread that performs other adds takes this one out of nobody's hands. -/
theorem exists_adding_update {added : Added T} {t : ι} {pc : Pc T}
    (hother : ∀ left, s.pcs t ≠ .adding added left)
    (hadding : ∃ t' left, s.pcs t' = .adding added left) :
    ∃ t' left, Function.update s.pcs t pc t' = .adding added left := by
  obtain ⟨t', left, hpc⟩ := hadding
  refine ⟨t', left, ?_⟩
  rw [Function.update_of_ne, hpc]
  rintro rfl
  exact hother left hpc

/-- A step that concerns no add. -/
theorem Numbered.frame {t : ι} {pc : Pc T} (h : Numbered boundaries s)
    (hcalls : s'.calls = s.calls) (hbegun : s'.begun = s.begun)
    (hfinished : s'.finished = s.finished) (hpcs : s'.pcs = Function.update s.pcs t pc)
    (hbefore : ∀ added, ¬ (s.pcs t).Carries added) (hafter : ∀ added, ¬ pc.Carries added) :
    Numbered boundaries s' := by
  have hsame : ∀ t' added, (s'.pcs t').Carries added → s'.pcs t' = s.pcs t' := by
    intro t' added hcarries
    by_cases hself : t' = t
    · subst hself
      rw [hpcs, Function.update_self] at hcarries
      exact absurd hcarries (hafter added)
    · rw [hpcs, Function.update_of_ne hself]
  have hcarries : ∀ t' added, (s'.pcs t').Carries added → (s.pcs t').Carries added := by
    intro t' added hcarries
    rwa [← hsame t' added hcarries]
  constructor
  · rw [hbegun, hcalls]
    exact h.begun_lt
  · rw [hbegun]
    exact h.begun_one
  · rw [hbegun, hfinished]
    exact h.finished_begun
  · rw [hfinished]
    exact h.finished_nodup
  · rw [hcalls]
    exact fun t' added hc => h.carried_lt t' added (hcarries t' added hc)
  · exact fun t' t'' first second hfirst hsecond =>
      h.carried_one t' t'' first second (hcarries t' first hfirst) (hcarries t'' second hsecond)
  · rw [hbegun]
    exact fun t' added hpc => h.loaded t' added
      (by rw [← hsame t' added (by rw [hpc]; rfl), hpc])
  · rw [hbegun, hfinished]
    exact fun t' added left hpc => h.adding t' added left
      (by rw [← hsame t' added (by rw [hpc]; rfl), hpc])
  · rw [hbegun, hfinished, hpcs]
    intro added hin hout
    apply exists_adding_update _ (h.unfinished added hin hout)
    intro left hpc
    exact hbefore added (by rw [hpc]; rfl)

theorem Numbered.step {label : Label ι T} (h : Numbered boundaries s)
    (hstep : Concurrent.step boundaries s label = some s') : Numbered boundaries s' := by
  cases label with
  | add t value =>
      obtain ⟨hpc, rfl⟩ := step_add.mp hstep
      split
      · refine ⟨?_, ?_, ?_, ?_, ?_, ?_, ?_, ?_, fun added hin hout => ?_⟩
        on_goal 9 => exact exists_adding_update (by simp [hpc]) (h.unfinished added hin hout)
        all_goals grind [Numbered, Pc.Carries, Function.update_apply]
      · exact h
  | write t =>
      obtain ⟨added, lock, hpc, hlock, rfl⟩ := step_write.mp hstep
      refine ⟨?_, ?_, ?_, ?_, ?_, ?_, ?_, ?_, fun other hin hout => ?_⟩
      on_goal 9 =>
        rcases List.mem_append.mp hin with hin | hin
        · exact exists_adding_update (by simp [hpc]) (h.unfinished other hin hout)
        · obtain rfl := List.mem_singleton.mp hin
          exact ⟨t, _, Function.update_self ..⟩
      all_goals grind [Numbered, Pc.Carries, Function.update_apply]
  | modify t =>
      obtain ⟨added, field, left, lock, hpc, hlock, rfl⟩ := step_modify.mp hstep
      have hleft := (h.adding t added _ hpc).2.2
      have hsuffix : left <:+ addFields (bucketIndex boundaries added.value) :=
        (List.suffix_cons field left).trans hleft
      refine ⟨?_, ?_, ?_, ?_, ?_, ?_, ?_, ?_, fun other hin hout => ?_⟩
      on_goal 9 =>
        by_cases hsame : other = added
        · subst hsame
          exact ⟨t, left, Function.update_self ..⟩
        · apply exists_adding_update _ (h.unfinished other hin hout)
          simp [hpc, Ne.symm hsame]
      all_goals grind [Numbered, Pc.Carries, Function.update_apply]
  | finish t =>
      obtain ⟨added, lock, hpc, hlock, rfl⟩ := step_finish.mp hstep
      refine ⟨?_, ?_, ?_, ?_, ?_, ?_, ?_, ?_, fun other hin hout => ?_⟩
      on_goal 9 =>
        apply exists_adding_update _ (h.unfinished other hin (by grind))
        grind
      all_goals grind [Numbered, Pc.Carries, Function.update_apply]
  | snapshot t =>
      obtain ⟨hpc, hcall⟩ := step_snapshot.mp hstep
      obtain ⟨lock, _, rfl⟩ := call_eq_some.mp hcall
      exact h.frame rfl rfl rfl rfl (by simp [hpc, Pc.Carries]) (by simp [Pc.Carries])
  | take t =>
      obtain ⟨hpc, called, hcall, rfl⟩ := step_take.mp hstep
      obtain ⟨lock, _, rfl⟩ := call_eq_some.mp hcall
      exact h.frame rfl rfl rfl rfl (by simp [hpc, Pc.Carries]) (by simp [Pc.Carries])
  | step t =>
      obtain ⟨obj, drains, since, lock, hpc, hlock, hcases⟩ := step_step.mp hstep
      rcases hcases with ⟨_, _, rfl⟩ | ⟨_, rfl⟩
      · exact h.frame rfl rfl rfl rfl (by simp [hpc, Pc.Carries]) (by simp [Pc.Carries])
      · refine h.frame (by rfl) (by rfl) (by rfl) (Function.update_eq_self t s.pcs).symm ?_ ?_ <;>
          simp [hpc, Pc.Carries]

/-! ## Who is within a write -/

/-- The threads within a write of a lock are those that perform an add on its content. -/
def Writing (s : Shared ι T C) : Prop :=
  ∀ t obj, (s.locks obj).pcs t = .writing ↔
    ∃ added left, s.pcs t = .adding added left ∧ added.obj = obj

omit [Measure T C] [DecidableEq ι] in
theorem Writing.ne_writing {t : ι} (h : Writing s)
    (hother : ∀ added left, s.pcs t ≠ .adding added left) (obj : Nat) :
    (s.locks obj).pcs t ≠ .writing := by
  intro hwriting
  obtain ⟨added, left, hpc, _⟩ := (h t obj).mp hwriting
  exact hother added left hpc

omit [Measure T C] in
/-- One thread and one lock move together. -/
theorem Writing.move {obj : Nat} {t : ι} {pc : Pc T} {lock} (h : Writing s)
    (hlocks : s'.locks = Function.update s.locks obj lock)
    (hpcs : s'.pcs = Function.update s.pcs t pc)
    (hothers : ∀ t', t' ≠ t → (lock.pcs t' = .writing ↔ (s.locks obj).pcs t' = .writing))
    (hself : lock.pcs t = .writing ↔ ∃ added left, pc = .adding added left ∧ added.obj = obj)
    (helse : ∀ obj', obj' ≠ obj → ((s.locks obj').pcs t = .writing ↔
      ∃ added left, pc = .adding added left ∧ added.obj = obj')) : Writing s' := by
  intro t' obj'
  rw [hlocks, hpcs]
  by_cases hthread : t' = t
  · subst hthread
    rw [Function.update_self]
    by_cases hobj : obj' = obj
    · subst hobj
      rw [Function.update_self, hself]
    · rw [Function.update_of_ne hobj, helse obj' hobj]
  · rw [Function.update_of_ne hthread, ← h t' obj']
    by_cases hobj : obj' = obj
    · subst hobj
      rw [Function.update_self, hothers t' hthread]
    · rw [Function.update_of_ne hobj]

omit [Measure T C] in
/-- A thread moves outside any write. -/
theorem Writing.frame {obj : Nat} {t : ι} {pc : Pc T} {lock} (h : Writing s)
    (hlocks : s'.locks = Function.update s.locks obj lock)
    (hpcs : s'.pcs = Function.update s.pcs t pc)
    (hlock : ∀ t', lock.pcs t' = .writing ↔ (s.locks obj).pcs t' = .writing)
    (hbefore : ∀ added left, s.pcs t ≠ .adding added left)
    (hafter : ∀ added left, pc ≠ .adding added left) : Writing s' := by
  apply h.move hlocks hpcs (fun t' _ => hlock t')
  · simp [hlock, h.ne_writing hbefore obj, hafter]
  · intro obj' _
    simp [h.ne_writing hbefore obj', hafter]

theorem writing_call {t : ι} {drains : Bool} (h : Writing s) (hpc : s.pcs t = .idle)
    (hcall : call boundaries s t drains = some s') : Writing s' := by
  obtain ⟨lock, hlock, rfl⟩ := call_eq_some.mp hcall
  obtain ⟨hfree, rfl⟩ := SeqLock.step_read.mp hlock
  exact h.frame rfl rfl (update_eq_writing_iff hfree.ne_writing (by simp)) (by simp [hpc])
    (by simp)

omit [DecidableEq ι] in
theorem writing_init : Writing (init ι boundaries : Shared ι T C) := by
  simp [Writing, init, fresh, SeqLock.init]

theorem Writing.step {label : Label ι T} (h : Writing s)
    (hstep : Concurrent.step boundaries s label = some s') : Writing s' := by
  cases label with
  | add t value =>
      obtain ⟨hpc, rfl⟩ := step_add.mp hstep
      split
      · exact h.frame (Function.update_eq_self 0 s.locks).symm rfl (fun _ => Iff.rfl)
          (by simp [hpc]) (by simp)
      · exact h
  | write t =>
      obtain ⟨added, lock, hpc, hlock, rfl⟩ := step_write.mp hstep
      obtain ⟨_, rfl⟩ := SeqLock.step_write.mp hlock
      apply h.move rfl rfl
      · intro t' hne
        simp [hne]
      · simp
      · intro obj' hne
        simp [h t obj', hpc, Ne.symm hne]
  | modify t =>
      obtain ⟨added, field, left, lock, hpc, hlock, rfl⟩ := step_modify.mp hstep
      obtain ⟨hwriting, rfl⟩ := SeqLock.step_modify.mp hlock
      apply h.move rfl rfl
      · exact fun _ _ => Iff.rfl
      · simp [hwriting]
      · intro obj' hne
        simp [h t obj', hpc, Ne.symm hne]
  | finish t =>
      obtain ⟨added, lock, hpc, hlock, rfl⟩ := step_finish.mp hstep
      obtain ⟨_, rfl⟩ := SeqLock.step_finish.mp hlock
      apply h.move rfl rfl
      · intro t' hne
        simp [hne]
      · simp
      · intro obj' hne
        simp [h t obj', hpc, Ne.symm hne]
  | snapshot t =>
      obtain ⟨hpc, hcall⟩ := step_snapshot.mp hstep
      exact writing_call h hpc hcall
  | take t =>
      obtain ⟨hpc, called, hcall, rfl⟩ := step_take.mp hstep
      exact fun t' obj' => writing_call h hpc hcall t' obj'
  | step t =>
      obtain ⟨obj, drains, since, lock, hpc, hlock, hcases⟩ := step_step.mp hstep
      obtain ⟨pc, hadvance, rfl⟩ := SeqLock.step_step.mp hlock
      have hne := advance_ne_writing hadvance
      rcases hcases with ⟨_, _, rfl⟩ | ⟨_, rfl⟩
      · exact h.frame rfl rfl (update_eq_writing_iff hne.1 hne.2) (by simp [hpc]) (by simp)
      · exact h.frame rfl (Function.update_eq_self t s.pcs).symm
          (update_eq_writing_iff hne.1 hne.2) (by simp [hpc]) (by simp [hpc])

/-! ## What a content holds -/

/-- The add has written to the field. -/
def Done (boundaries : Boundaries T) (s : Shared ι T C) (obj : Nat) (field : Field)
    (added : Added T) : Prop :=
  added ∈ on obj s.begun ∧ field ∈ addFields (bucketIndex boundaries added.value) ∧
    ∀ t left, s.pcs t = .adding added left → field ∉ left

/-- Each field holds what the adds that have written to it recorded, in the order in
which they did. -/
def Content (boundaries : Boundaries T) (s : Shared ι T C) : Prop :=
  ∀ obj field, ∃ order : List (Added T),
    (s.locks obj).inner field =
      (order.map Added.value).foldl (fun cell value => field.record value cell)
        ((fresh ι boundaries : SeqLock.State ι (Field.Value C) (Snapshot T)).inner field) ∧
      order.Nodup ∧ ∀ added, added ∈ order ↔ Done boundaries s obj field added

omit [DecidableEq ι] in
theorem content_init : Content boundaries (init ι boundaries : Shared ι T C) := by
  intro obj field
  exact ⟨[], rfl, List.nodup_nil, fun added => by simp [Done, init, on]⟩

omit [DecidableEq ι] in
theorem Content.frame (h : Content boundaries s)
    (hinner : ∀ obj, (s'.locks obj).inner = (s.locks obj).inner)
    (hdone : ∀ obj field added, Done boundaries s' obj field added ↔
      Done boundaries s obj field added) : Content boundaries s' := by
  intro obj field
  simp only [hinner, hdone]
  exact h obj field

omit [DecidableEq ι] in
theorem mem_on {obj : Nat} {added : Added T} {record : List (Added T)} :
    added ∈ on obj record ↔ added ∈ record ∧ added.obj = obj := by
  simp [on]

/-- What another add has written to is not changed by moving a thread. -/
theorem done_update_iff {t : ι} {pc : Pc T} {added : Added T}
    (hbegun : added ∈ s'.begun ↔ added ∈ s.begun)
    (hpcs : s'.pcs = Function.update s.pcs t pc)
    (hbefore : ∀ left, s.pcs t ≠ .adding added left)
    (hafter : ∀ left, pc ≠ .adding added left) (obj : Nat) (field : Field) :
    Done boundaries s' obj field added ↔ Done boundaries s obj field added := by
  have hsame : ∀ t' left, s'.pcs t' = .adding added left ↔ s.pcs t' = .adding added left := by
    intro t' left
    rw [hpcs]
    by_cases hself : t' = t
    · subst hself
      simp [hbefore, hafter]
    · rw [Function.update_of_ne hself]
  simp only [Done, mem_on, hbegun, hsame]

omit [DecidableEq ι] in
/-- An add in hand has written to the fields that are not left. -/
theorem Numbered.done_iff {t : ι} {added : Added T} {left : List Field}
    (hnum : Numbered boundaries s) (hpc : s.pcs t = .adding added left) (obj : Nat)
    (field : Field) :
    Done boundaries s obj field added ↔
      added.obj = obj ∧ field ∈ addFields (bucketIndex boundaries added.value) ∧
        field ∉ left := by
  have hin := (hnum.adding t added left hpc).1
  have hpast : (∀ t' left', s.pcs t' = .adding added left' → field ∉ left') ↔ field ∉ left := by
    constructor
    · exact fun hpast => hpast t left hpc
    · intro hout t' left' hpc'
      obtain rfl : t' = t := hnum.carried_one t' t added added (by rw [hpc']; rfl)
        (by rw [hpc]; rfl) rfl
      rw [hpc] at hpc'
      cases hpc'
      exact hout
  simp only [Done, mem_on, hpast, hin, true_and]

omit [DecidableEq ι] in
/-- A finished add has written to all its fields. -/
theorem Numbered.done_iff_of_finished {added : Added T} (hnum : Numbered boundaries s)
    (hin : added ∈ s.finished) (obj : Nat) (field : Field) :
    Done boundaries s obj field added ↔
      added.obj = obj ∧ field ∈ addFields (bucketIndex boundaries added.value) := by
  have hpast : ∀ t left, s.pcs t = .adding added left → field ∉ left := by
    intro t left hpc
    exact absurd hin (hnum.adding t added left hpc).2.1
  simp only [Done, mem_on, hnum.finished_begun added hin, true_and, and_iff_left hpast]

omit [Measure T C] [DecidableEq ι] in
theorem inner_update {obj : Nat} {lock} (hinner : lock.inner = (s.locks obj).inner)
    (obj' : Nat) : (Function.update s.locks obj lock obj').inner = (s.locks obj').inner := by
  by_cases hobj : obj' = obj
  · subst hobj
    rw [Function.update_self, hinner]
  · rw [Function.update_of_ne hobj]

/-- What the fields hold after one more write. -/
theorem content_modify {t : ι} {added : Added T} {field : Field} {left : List Field}
    {inner : ∀ field, Field.Value C field} (hnum : Numbered boundaries s)
    (hnum' : Numbered boundaries s') (h : Content boundaries s)
    (hpc : s.pcs t = .adding added (field :: left)) (hbegun : s'.begun = s.begun)
    (hpcs : s'.pcs = Function.update s.pcs t (.adding added left))
    (hinner : inner = Function.update (s.locks added.obj).inner field
      (field.record added.value ((s.locks added.obj).inner field)))
    (hself : (s'.locks added.obj).inner = inner)
    (hothers : ∀ obj, obj ≠ added.obj → (s'.locks obj).inner = (s.locks obj).inner) :
    Content boundaries s' := by
  have hsuffix := (hnum.adding t added _ hpc).2.2
  have hnotLeft : field ∉ left :=
    (List.nodup_cons.mp (hsuffix.sublist.nodup (nodup_addFields _))).1
  have hpc' : s'.pcs t = .adding added left := by rw [hpcs, Function.update_self]
  have hother : ∀ other, other ≠ added → ∀ obj field',
      (Done boundaries s' obj field' other ↔ Done boundaries s obj field' other) := by
    intro other hne
    apply done_update_iff (by rw [hbegun]) hpcs
    · simp [hpc, Ne.symm hne]
    · simp [Ne.symm hne]
  intro obj field'
  obtain ⟨order, hcontent, hnodup, hmem⟩ := h obj field'
  by_cases hhere : obj = added.obj ∧ field' = field
  · obtain ⟨rfl, rfl⟩ := hhere
    have hbefore : ¬ Done boundaries s added.obj field' added := by
      simp [hnum.done_iff hpc]
    refine ⟨order ++ [added], ?_, ?_, fun other => ?_⟩
    · rw [hself, hinner, Function.update_self, hcontent]
      simp
    · rw [List.nodup_append]
      refine ⟨hnodup, List.nodup_singleton _, ?_⟩
      intro other hin _ hlast hsame
      obtain rfl := List.mem_singleton.mp hlast
      subst hsame
      exact hbefore ((hmem other).mp hin)
    · rw [List.mem_append, List.mem_singleton, hmem]
      by_cases hne : other = added
      · subst hne
        simpa [hnum'.done_iff hpc', hnotLeft] using hsuffix.subset List.mem_cons_self
      · rw [hother other hne]
        simp [hne]
  · refine ⟨order, ?_, hnodup, fun other => ?_⟩
    · rw [← hcontent]
      by_cases hobj : obj = added.obj
      · subst hobj
        rw [hself, hinner, Function.update_of_ne fun hfield => hhere ⟨rfl, hfield⟩]
      · rw [hothers obj hobj]
    · rw [hmem]
      by_cases hne : other = added
      · subst hne
        rw [hnum.done_iff hpc, hnum'.done_iff hpc', List.mem_cons]
        grind
      · rw [hother other hne]

theorem Content.step {label : Label ι T} (hnum : Numbered boundaries s)
    (h : Content boundaries s) (hstep : Concurrent.step boundaries s label = some s') :
    Content boundaries s' := by
  have hnum' := hnum.step hstep
  cases label with
  | add t value =>
      obtain ⟨hpc, rfl⟩ := step_add.mp hstep
      split
      · refine h.frame (fun _ => rfl) fun obj field added => ?_
        exact done_update_iff (by rfl) rfl (by simp [hpc]) (by simp) obj field
      · exact h
  | write t =>
      obtain ⟨added, lock, hpc, hlock, rfl⟩ := step_write.mp hstep
      obtain ⟨_, rfl⟩ := SeqLock.step_write.mp hlock
      refine h.frame (inner_update rfl) fun obj field other => ?_
      by_cases hne : other = added
      · subst hne
        have hnew : other ∉ s.begun := fun hin => hnum.loaded t other hpc other hin rfl
        rw [hnum'.done_iff (Function.update_self ..)]
        simp [Done, mem_on, hnew]
      · exact done_update_iff (by simp [hne]) rfl (by simp [hpc]) (by simp [Ne.symm hne]) obj field
  | modify t =>
      obtain ⟨added, field, left, lock, hpc, hlock, rfl⟩ := step_modify.mp hstep
      obtain ⟨_, rfl⟩ := SeqLock.step_modify.mp hlock
      refine content_modify hnum hnum' h hpc rfl rfl rfl ?_ fun obj hne => ?_
      · simp only [Function.update_self]
      · simp only [Function.update_of_ne hne]
  | finish t =>
      obtain ⟨added, lock, hpc, hlock, rfl⟩ := step_finish.mp hstep
      obtain ⟨_, rfl⟩ := SeqLock.step_finish.mp hlock
      refine h.frame (inner_update rfl) fun obj field other => ?_
      by_cases hne : other = added
      · subst hne
        rw [hnum'.done_iff_of_finished (by simp), hnum.done_iff hpc]
        simp
      · exact done_update_iff (by rfl) rfl (by simp [hpc, Ne.symm hne]) (by simp) obj field
  | snapshot t =>
      obtain ⟨hpc, hcall⟩ := step_snapshot.mp hstep
      obtain ⟨lock, hlock, rfl⟩ := call_eq_some.mp hcall
      obtain ⟨_, rfl⟩ := SeqLock.step_read.mp hlock
      refine h.frame (inner_update rfl) fun obj field added => ?_
      exact done_update_iff (by rfl) rfl (by simp [hpc]) (by simp) obj field
  | take t =>
      obtain ⟨hpc, called, hcall, rfl⟩ := step_take.mp hstep
      obtain ⟨lock, hlock, rfl⟩ := call_eq_some.mp hcall
      obtain ⟨_, rfl⟩ := SeqLock.step_read.mp hlock
      refine h.frame (inner_update rfl) fun obj field added => ?_
      exact done_update_iff (by rfl) rfl (by simp [hpc]) (by simp) obj field
  | step t =>
      obtain ⟨obj, drains, since, lock, hpc, hlock, hcases⟩ := step_step.mp hstep
      obtain ⟨pc, _, rfl⟩ := SeqLock.step_step.mp hlock
      rcases hcases with ⟨_, _, rfl⟩ | ⟨_, rfl⟩
      · refine h.frame (inner_update rfl) fun obj field added => ?_
        exact done_update_iff (by rfl) rfl (by simp [hpc]) (by simp) obj field
      · exact h.frame (inner_update rfl) fun _ _ _ => Iff.rfl

theorem foldl_succ {A : Type} (list : List A) (start : UInt64) :
    list.foldl (fun count _ => count + 1) start = start + UInt64.ofNat list.length := by
  induction list generalizing start with
  | nil => simp
  | cons head rest ih =>
      rw [List.foldl_cons, ih, List.length_cons, UInt64.ofNat_add, UInt64.add_assoc,
        UInt64.add_comm 1]
      rfl

omit [DecidableEq ι] in
/-- In a content no thread writes to, each field holds what the finished adds that
write to it recorded. -/
theorem field_of_quiet (hnum : Numbered boundaries s) (hwriting : Writing s)
    (hcontent : Content boundaries s) {obj : Nat} (hquiet : Quiet (s.locks obj))
    (field : Field) :
    ∃ order : List (Added T),
      order.Perm ((on obj s.finished).filter fun added =>
        field ∈ addFields (bucketIndex boundaries added.value)) ∧
      (s.locks obj).inner field =
        (order.map Added.value).foldl (fun cell value => field.record value cell)
          ((fresh ι boundaries : SeqLock.State ι (Field.Value C) (Snapshot T)).inner field) := by
  obtain ⟨order, hinner, hnodup, hmem⟩ := hcontent obj field
  refine ⟨order, ?_, hinner⟩
  have hnodupOn : (on obj s.finished).Nodup := hnum.finished_nodup.filter _
  apply (List.perm_ext_iff_of_nodup hnodup (hnodupOn.filter _)).mpr
  intro added
  rw [hmem, List.mem_filter, decide_eq_true_eq]
  constructor
  · intro hdone
    obtain ⟨hbegun, hobj⟩ := mem_on.mp hdone.1
    refine ⟨mem_on.mpr ⟨?_, hobj⟩, hdone.2.1⟩
    by_contra hunfinished
    obtain ⟨t, left, hpc⟩ := hnum.unfinished added hbegun hunfinished
    exact hquiet t ((hwriting t obj).mpr ⟨added, left, hpc, hobj⟩)
  · rintro ⟨hin, hfield⟩
    obtain ⟨hfinished, hobj⟩ := mem_on.mp hin
    exact (hnum.done_iff_of_finished hfinished obj field).mpr ⟨hobj, hfield⟩

theorem countP_map_value (boundaries : Boundaries T) (index : Nat) (record : List (Added T)) :
    (record.map Added.value).countP (fun value => bucketIndex boundaries value = index) =
      (record.filter fun added =>
        Field.bucket index ∈ addFields (bucketIndex boundaries added.value)).length := by
  rw [List.countP_map, List.countP_eq_length_filter]
  congr 2
  funext added
  simp [addFields, eq_comm]

omit [DecidableEq ι] in
/-- A content no thread writes to is the aggregate of the adds that have finished
on it. -/
theorem aggregate_of_quiet (hnum : Numbered boundaries s) (hwriting : Writing s)
    (hcontent : Content boundaries s) {obj : Nat} (hquiet : Quiet (s.locks obj)) :
    IsAggregate boundaries ((on obj s.finished).map Added.value)
      ((snapshotProg boundaries).eval (s.locks obj).inner) := by
  have hfield := field_of_quiet hnum hwriting hcontent hquiet
  have hall : ∀ field : Field, (∀ index, field ∈ addFields index) →
      ∃ order : List T, order.Perm ((on obj s.finished).map Added.value) ∧
        (s.locks obj).inner field = order.foldl (fun cell value => field.record value cell)
          ((fresh ι boundaries : SeqLock.State ι (Field.Value C) (Snapshot T)).inner field) := by
    intro field hevery
    obtain ⟨order, hperm, hinner⟩ := hfield field
    rw [List.filter_eq_self.mpr fun added _ => decide_eq_true (hevery _)] at hperm
    exact ⟨order.map Added.value, hperm.map _, hinner⟩
  rw [eval_snapshotProg]
  refine ⟨rfl, ?_, ?_, ?_, ?_, ?_⟩
  · apply List.map_congr_left
    intro index _
    obtain ⟨order, hperm, hinner⟩ := hfield (.bucket index)
    have hfresh : ((fresh ι boundaries : SeqLock.State ι (Field.Value C) (Snapshot T)).inner
        (.bucket index)) = (0 : UInt64) := by
      show (List.replicate _ 0).getD index 0 = (0 : UInt64)
      rw [List.getD_eq_getElem?_getD, List.getElem?_replicate]
      split <;> rfl
    rw [hinner, hfresh, countP_map_value, ← hperm.length_eq, ← List.length_map Added.value]
    exact (foldl_succ _ _).trans (UInt64.zero_add _)
  · obtain ⟨order, hperm, hinner⟩ := hall .count (by simp [addFields])
    rw [hinner, ← hperm.length_eq]
    exact (foldl_succ _ _).trans (UInt64.zero_add _)
  · obtain ⟨order, hperm, hinner⟩ := hall .sum (by simp [addFields])
    exact ⟨order, hperm, congrArg Scalar.get hinner⟩
  · obtain ⟨order, hperm, hinner⟩ := hall .min (by simp [addFields])
    refine ⟨order, hperm, ?_⟩
    rw [hinner]
    rfl
  · obtain ⟨order, hperm, hinner⟩ := hall .max (by simp [addFields])
    refine ⟨order, hperm, ?_⟩
    rw [hinner]
    rfl

end Ohnotel.Atomic.Concurrent
