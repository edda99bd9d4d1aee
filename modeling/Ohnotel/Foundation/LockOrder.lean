/-
# Locks taken in order

Threads take and release locks that may be shared or exclusive.  A thread that asks for
a lock exclusively waits until nobody holds it; one that asks for a share waits until
nobody holds it exclusively, and also as long as anybody is waiting for it exclusively,
which is the least an implementation may grant.

If every lock has a rank and every thread only ever asks for a lock of a higher rank
than all it holds, some thread can always go on: the one that waits for the lock of the
highest rank waits for a holder that waits for nothing higher.  Every step uses up one
action, so every run ends, and where it cannot be extended all threads are done.

A program is put together from sections, each a lock held around a program of higher
ranks.
-/

import Mathlib.Algebra.BigOperators.Group.Finset.Basic
import Mathlib.Data.Finset.Max
import Mathlib.Data.Fintype.Basic
import Mathlib.Algebra.Order.BigOperators.Group.Finset
import Ohnotel.Foundation.Transition

namespace Foundation

universe u v

/-- How a lock is held. -/
inductive Hold
  | shared
  | exclusive
  deriving DecidableEq

/-- What a thread does with locks. -/
inductive LockAction (L : Type u)
  | acquire (l : L) (how : Hold)
  | release (l : L)
  deriving DecidableEq

/-- A thread: the locks it holds, the latest first, and what it has still to do. -/
structure Locker (L : Type u) where
  held : List (L × Hold)
  rest : List (LockAction L)

namespace Locker

variable {L : Type u} {ι : Type v}

/-- The thread has done all it had to do and holds nothing. -/
def Done (thread : Locker L) : Prop := thread.held = [] ∧ thread.rest = []

/-- A thread that has its program before it. -/
def start (program : List (LockAction L)) : Locker L where
  held := []
  rest := program

variable [DecidableEq L]

/-- Nobody holds the lock, or, for a share, nobody holds it exclusively or is waiting to. -/
def Granted (threads : ι → Locker L) (l : L) : Hold → Prop
  | .exclusive => ∀ t, ∀ lock ∈ (threads t).held, lock.1 ≠ l
  | .shared => ∀ t, (l, .exclusive) ∉ (threads t).held ∧
      (threads t).rest.head? ≠ some (.acquire l .exclusive)

instance [Fintype ι] (threads : ι → Locker L) (l : L) : ∀ how, Decidable (Granted threads l how)
  | .exclusive => inferInstanceAs (Decidable (∀ t, ∀ lock ∈ (threads t).held, lock.1 ≠ l))
  | .shared => inferInstanceAs (Decidable (∀ t, (l, Hold.exclusive) ∉ (threads t).held ∧
      (threads t).rest.head? ≠ some (.acquire l .exclusive)))

/-- The next step of one of the threads. -/
def step [Fintype ι] [DecidableEq ι] (threads : ι → Locker L) (t : ι) : Option (ι → Locker L) :=
  match (threads t).rest with
  | [] => none
  | .acquire l how :: rest =>
      if Granted threads l how then
        some (Function.update threads t ⟨(l, how) :: (threads t).held, rest⟩)
      else none
  | .release l :: rest =>
      some (Function.update threads t ⟨(threads t).held.eraseP fun lock => lock.1 = l, rest⟩)

/-! ## Programs in order -/

/-- From the locks held, the program asks for locks of rising rank only, releases what it
holds, and ends holding nothing. -/
def Ordered (rank : L → Nat) : List (L × Hold) → List (LockAction L) → Prop
  | held, [] => held = []
  | held, .acquire l how :: rest =>
      (∀ lock ∈ held, rank lock.1 < rank l) ∧ Ordered rank ((l, how) :: held) rest
  | held, .release l :: rest =>
      (∃ lock ∈ held, lock.1 = l) ∧ Ordered rank (held.eraseP fun lock => lock.1 = l) rest

/-- A lock held around a program. -/
def lockSection (l : L) (how : Hold) (body : List (LockAction L)) : List (LockAction L) :=
  .acquire l how :: body ++ [.release l]

/-- The program can be run by a thread that holds nothing but locks of lower ranks, and
leaves it holding what it held. -/
def Above (rank : L → Nat) (bound : Nat) (program : List (LockAction L)) : Prop :=
  ∀ held rest, (∀ lock ∈ held, rank lock.1 < bound) → Ordered rank held rest →
    Ordered rank held (program ++ rest)

variable {rank : L → Nat}

theorem Above.mono {bound lower : Nat} {program : List (LockAction L)}
    (h : Above rank bound program) (hle : lower ≤ bound) : Above rank lower program :=
  fun held rest hheld hrest => h held rest (fun lock hlock => lt_of_lt_of_le (hheld lock hlock) hle)
    hrest

theorem Above.nil (bound : Nat) : Above rank bound [] := fun _ _ _ hrest => hrest

theorem Above.append {bound : Nat} {first second : List (LockAction L)}
    (hfirst : Above rank bound first) (hsecond : Above rank bound second) :
    Above rank bound (first ++ second) := by
  intro held rest hheld hrest
  rw [List.append_assoc]
  exact hfirst held _ hheld (hsecond held rest hheld hrest)

theorem Above.flatten {bound : Nat} {programs : List (List (LockAction L))}
    (h : ∀ program ∈ programs, Above rank bound program) :
    Above rank bound programs.flatten := by
  induction programs with
  | nil => exact Above.nil bound
  | cons first rest ih =>
      rw [List.flatten_cons]
      exact (h first List.mem_cons_self).append
        (ih fun program hprogram => h program (List.mem_cons_of_mem _ hprogram))

theorem Above.flatMap {α : Type*} {bound : Nat} {elements : List α}
    {program : α → List (LockAction L)}
    (h : ∀ element ∈ elements, Above rank bound (program element)) :
    Above rank bound (elements.flatMap program) := by
  apply Above.flatten
  intro found hfound
  obtain ⟨element, helement, rfl⟩ := List.mem_map.mp hfound
  exact h element helement

/-- A section may stand where its lock may be asked for, if what is inside may stand above
that lock. -/
theorem Above.lockSection {bound : Nat} {l : L} {how : Hold} {body : List (LockAction L)}
    (hrank : bound ≤ rank l) (hbody : Above rank (rank l + 1) body) :
    Above rank bound (lockSection l how body) := by
  intro held rest hheld hrest
  have hbelow : ∀ lock ∈ held, rank lock.1 < rank l := fun lock hlock =>
    lt_of_lt_of_le (hheld lock hlock) hrank
  have hrelease : Ordered rank ((l, how) :: held) (.release l :: rest) := by
    refine ⟨⟨(l, how), List.mem_cons_self, rfl⟩, ?_⟩
    rwa [List.eraseP_cons_of_pos (by simp)]
  have hinside := hbody ((l, how) :: held) (.release l :: rest) (fun lock hlock => by
    rcases List.mem_cons.mp hlock with rfl | hold
    · exact Nat.lt_succ_self _
    · exact Nat.lt_succ_of_lt (hbelow lock hold)) hrelease
  refine ⟨hbelow, ?_⟩
  show Ordered rank ((l, how) :: held) (body ++ [.release l] ++ rest)
  rw [List.append_assoc]
  exact hinside

theorem Above.ordered {program : List (LockAction L)} (h : Above rank 0 program) :
    Ordered rank [] program := by
  have hprogram := h [] [] (by simp) rfl
  rwa [List.append_nil] at hprogram

/-! ## Nobody waits for ever -/

/-- A thread that has nothing left to do holds nothing. -/
theorem done_of_rest_eq_nil {thread : Locker L} (h : Ordered rank thread.held thread.rest)
    (hrest : thread.rest = []) : thread.Done := by
  rw [hrest] at h
  exact ⟨h, hrest⟩

section Runs

variable [Fintype ι] [DecidableEq ι]

theorem ordered_step {threads next : ι → Locker L} {t : ι}
    (h : ∀ t, Ordered rank (threads t).held (threads t).rest)
    (hstep : step threads t = some next) (other : ι) :
    Ordered rank (next other).held (next other).rest := by
  have hhere := h t
  unfold step at hstep
  split at hstep
  · cases hstep
  · next l how rest hrest =>
      rw [hrest] at hhere
      split at hstep
      · obtain rfl := Option.some_inj.mp hstep
        by_cases hother : other = t
        · rw [hother, Function.update_self]
          exact hhere.2
        · rw [Function.update_of_ne hother]
          exact h other
      · cases hstep
  · next l rest hrest =>
      rw [hrest] at hhere
      obtain rfl := Option.some_inj.mp hstep
      by_cases hother : other = t
      · rw [hother, Function.update_self]
        exact hhere.2
      · rw [Function.update_of_ne hother]
        exact h other

/-- What is left to do, all threads together. -/
def left (threads : ι → Locker L) : Nat := ∑ t, (threads t).rest.length

omit [DecidableEq L] in
theorem left_update (threads : ι → Locker L) (t : ι) {thread : Locker L}
    (hlength : (threads t).rest.length = thread.rest.length + 1) :
    left threads = left (Function.update threads t thread) + 1 := by
  have hothers : ∑ other ∈ Finset.univ.erase t,
      (Function.update threads t thread other).rest.length =
      ∑ other ∈ Finset.univ.erase t, (threads other).rest.length :=
    Finset.sum_congr rfl fun other hother => by
      rw [Function.update_of_ne (Finset.ne_of_mem_erase hother)]
  rw [left, left, ← Finset.add_sum_erase _ _ (Finset.mem_univ t),
    ← Finset.add_sum_erase _ _ (Finset.mem_univ t), hothers, Function.update_self, hlength]
  omega

/-- Every step uses up one action. -/
theorem left_step {threads next : ι → Locker L} {t : ι} (hstep : step threads t = some next) :
    left threads = left next + 1 := by
  unfold step at hstep
  split at hstep
  · cases hstep
  · next l how rest hrest =>
      split at hstep
      · obtain rfl := Option.some_inj.mp hstep
        exact left_update threads t (by rw [hrest]; rfl)
      · cases hstep
  · next l rest hrest =>
      obtain rfl := Option.some_inj.mp hstep
      exact left_update threads t (by rw [hrest]; rfl)

/-- The lock a thread asks for next. -/
def wants (thread : Locker L) : Option L :=
  match thread.rest with
  | .acquire l _ :: _ => some l
  | .release _ :: _ | [] => none

/-- A thread that cannot go on and is not done waits for a lock that a thread holds. -/
theorem exists_holder {threads : ι → Locker L} {t : ι} (hstuck : step threads t = none)
    (hrest : (threads t).rest ≠ []) (hall : ∀ t, step threads t = none) :
    ∃ l, wants (threads t) = some l ∧ ∃ other, ∃ lock ∈ (threads other).held, lock.1 = l := by
  have hexclusive : ∀ other l rest, (threads other).rest = .acquire l .exclusive :: rest →
      ∃ holder, ∃ lock ∈ (threads holder).held, lock.1 = l := by
    intro other l rest hother
    have hnone := hall other
    simp only [step, hother] at hnone
    split at hnone
    · cases hnone
    · next hrefused =>
        simpa [Granted] using hrefused
  unfold step at hstuck
  split at hstuck
  · next hnil => exact absurd hnil hrest
  · next l how rest hhere =>
      refine ⟨l, by rw [wants, hhere], ?_⟩
      cases how with
      | exclusive => exact hexclusive t l rest hhere
      | shared =>
          split at hstuck
          · cases hstuck
          · next hrefused =>
              simp only [Granted, not_forall, not_and_or, not_not] at hrefused
              obtain ⟨other, hheld | hwaiting⟩ := hrefused
              · exact ⟨other, _, hheld, rfl⟩
              -- Whoever is waiting for it exclusively waits for a holder too.
              · cases hother : (threads other).rest with
                | nil => simp [hother] at hwaiting
                | cons action rest' =>
                    rw [hother, List.head?_cons, Option.some_inj] at hwaiting
                    exact hexclusive other l rest' (hwaiting ▸ hother)
  · cases hstuck

/-- As long as a thread is not done, some thread can go on. -/
theorem exists_step {threads : ι → Locker L}
    (h : ∀ t, Ordered rank (threads t).held (threads t).rest)
    (hleft : ∃ t, ¬ (threads t).Done) : ∃ t, (step threads t).isSome := by
  by_contra hnone
  have hall : ∀ t, step threads t = none := by
    intro t
    by_contra hsome
    exact hnone ⟨t, Option.isSome_iff_ne_none.mpr hsome⟩
  -- Of the threads that are not done, take one that waits for a lock of the highest rank.
  let height : ι → Nat := fun t => ((wants (threads t)).map fun l => rank l).getD 0
  obtain ⟨t, ht, hhighest⟩ := Finset.exists_max_image
    (Finset.univ.filter fun t => (threads t).rest ≠ []) height (by
      obtain ⟨t, ht⟩ := hleft
      refine ⟨t, Finset.mem_filter.mpr ⟨Finset.mem_univ t, fun hrest => ht ?_⟩⟩
      exact done_of_rest_eq_nil (h t) hrest)
  have hrest : (threads t).rest ≠ [] := (Finset.mem_filter.mp ht).2
  obtain ⟨l, hwants, holder, lock, hlock, hl⟩ := exists_holder (hall t) hrest hall
  have hholder : (threads holder).rest ≠ [] := by
    intro hnil
    have hdone := done_of_rest_eq_nil (h holder) hnil
    rw [hdone.1] at hlock
    cases hlock
  obtain ⟨higher, hhigher, _⟩ := exists_holder (hall holder) hholder hall
  have hrank : rank l < rank higher := by
    have hordered := h holder
    cases hprogram : (threads holder).rest with
    | nil => exact absurd hprogram hholder
    | cons action rest =>
        cases action with
        | acquire found how =>
            obtain rfl : found = higher := by simpa [wants, hprogram] using hhigher
            rw [hprogram] at hordered
            exact hl ▸ hordered.1 lock hlock
        | release found => simp [wants, hprogram] at hhigher
  have hle := hhighest holder (Finset.mem_filter.mpr ⟨Finset.mem_univ _, hholder⟩)
  simp only [height, hwants, hhigher, Option.map_some, Option.getD_some] at hle
  exact absurd hrank (not_lt.mpr hle)

/-- Whatever the order of the steps: a run of threads in order has no more steps than the
threads have actions, and until all threads are done some thread can go on. -/
theorem run_progresses {threads last : ι → Locker L}
    (h : ∀ t, Ordered rank (threads t).held (threads t).rest) {turns : List ι}
    (hrun : StepFn.run step threads turns = some last) :
    turns.length + left last = left threads ∧
      ((∀ t, (last t).Done) ∨ ∃ t, (step last t).isSome) := by
  have hboth : turns.length + left last = left threads ∧
      ∀ t, Ordered rank (last t).held (last t).rest := by
    refine StepFn.run_induction (motive := fun turns s => turns.length + left s = left threads ∧
      ∀ t, Ordered rank (s t).held (s t).rest) ⟨by simp, h⟩ ?_ hrun
    rintro turns s t next _ ⟨hlength, hordered⟩ hstep
    refine ⟨?_, ordered_step hordered hstep⟩
    have hused := left_step hstep
    rw [List.length_append, List.length_singleton]
    omega
  refine ⟨hboth.1, ?_⟩
  by_cases hdone : ∀ t, (last t).Done
  · exact Or.inl hdone
  · exact Or.inr (exists_step hboth.2 (not_forall.mp hdone))

/-! ## What a lock is for -/

/-- A lock that is held exclusively is held by nobody else. -/
def Exclusive (threads : ι → Locker L) : Prop :=
  ∀ t other l, t ≠ other → (l, Hold.exclusive) ∈ (threads t).held →
    ∀ lock ∈ (threads other).held, lock.1 ≠ l

omit [DecidableEq L] [Fintype ι] in
theorem Exclusive.acquire {threads : ι → Locker L} (h : Exclusive threads) {t : ι} {l : L}
    {how : Hold} (hgranted : Granted threads l how) (rest : List (LockAction L)) :
    Exclusive (Function.update threads t ⟨(l, how) :: (threads t).held, rest⟩) := by
  -- Nobody else holds it exclusively, and if it is now held so, nobody else holds it.
  have hothers : ∀ other found, found ∈ (threads other).held → found.1 = l →
      found.2 = .shared ∧ how = .shared := by
    intro other found hfound hl
    cases how with
    | exclusive => exact absurd hl (hgranted other found hfound)
    | shared =>
        refine ⟨?_, rfl⟩
        cases hhow : found.2 with
        | shared => rfl
        | exclusive =>
            refine absurd ?_ (hgranted other).1
            rw [← hl, ← hhow]
            exact hfound
  intro first second m hne hfirst lock hlock
  by_cases hf : first = t
  · subst hf
    rw [Function.update_self] at hfirst
    rw [Function.update_of_ne (Ne.symm hne)] at hlock
    rcases List.mem_cons.mp hfirst with hnew | hold
    · intro hsame
      rw [Prod.mk.injEq] at hnew
      have hboth := hothers second lock hlock (hsame.trans hnew.1)
      rw [hboth.2] at hnew
      cases hnew.2
    · exact h first second m hne hold lock hlock
  · rw [Function.update_of_ne hf] at hfirst
    by_cases hs : second = t
    · subst hs
      rw [Function.update_self] at hlock
      rcases List.mem_cons.mp hlock with rfl | hold
      · intro hsame
        have hboth := hothers first (m, .exclusive) hfirst hsame.symm
        cases hboth.1
      · exact h first second m hne hfirst lock hold
    · rw [Function.update_of_ne hs] at hlock
      exact h first second m hne hfirst lock hlock

omit [DecidableEq L] [Fintype ι] in
theorem Exclusive.release {threads : ι → Locker L} (h : Exclusive threads) {t : ι}
    {thread : Locker L} (hheld : thread.held ⊆ (threads t).held) :
    Exclusive (Function.update threads t thread) := by
  have hsubset : ∀ other, (Function.update threads t thread other).held ⊆
      (threads other).held := by
    intro other
    by_cases hother : other = t
    · rw [hother, Function.update_self]
      exact hheld
    · rw [Function.update_of_ne hother]
      exact List.Subset.refl _
  intro first second l hne hfirst lock hlock
  exact h first second l hne (hsubset first hfirst) lock (hsubset second hlock)

theorem exclusive_step {threads next : ι → Locker L} {t : ι} (h : Exclusive threads)
    (hstep : step threads t = some next) : Exclusive next := by
  unfold step at hstep
  split at hstep
  · cases hstep
  · next l how rest hrest =>
      split at hstep
      · next hgranted =>
          obtain rfl := Option.some_inj.mp hstep
          exact h.acquire hgranted rest
      · cases hstep
  · next l rest hrest =>
      obtain rfl := Option.some_inj.mp hstep
      exact h.release List.eraseP_subset

/-- In every run that starts with no lock held, a lock held exclusively is held by nobody
else. -/
theorem run_exclusive {programs : ι → List (LockAction L)} {last : ι → Locker L} {turns : List ι}
    (hrun : StepFn.run step (fun t => start (programs t)) turns = some last) : Exclusive last := by
  refine StepFn.invariant_of_step Exclusive (fun _ _ _ _ h hstep => exclusive_step h hstep) ?_ hrun
  intro first _ l _ hfirst
  cases hfirst

end Runs

end Locker

end Foundation
