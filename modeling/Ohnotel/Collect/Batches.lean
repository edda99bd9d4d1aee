/-
# What is in the batches

An observer keeps the identity, the kind and the mode it was made with, through resets,
observations and exports.  So every series that it has handed over bears the labels of the
observer as it is now.

What all batches hold is what all observers handed over: a sum over the payloads can be
taken batch by batch or observer by observer.
-/

import Mathlib.Algebra.BigOperators.Fin
import Ohnotel.Collect.Delivery

namespace Ohnotel

open Foundation Atomic

namespace Periodic

variable {K V W : Type}

/-- The series that were handed over bear the labels of their observer. -/
def Tracked.Labelled (t : Tracked K V) : Prop :=
  ∀ handed ∈ t.delivered, handed.2.id = t.observer.id ∧ handed.2.kind = t.observer.kind ∧
    handed.2.observeMode = t.observer.observeMode

namespace Worker

variable [LinearOrder K] {platform : Platform} {w w' : Worker K W}

theorem labelled_step {event : Event K W} (h : ∀ r ∈ w.observers, r.tracked.Labelled)
    (hstep : step platform w event = some w') : ∀ r ∈ w'.observers, r.tracked.Labelled := by
  refine forall_observers_step ?_ ?_ ?_ h hstep
  · intro boxed startTime tick handed hhanded
    cases hhanded
  · intro r ts service shown hr handed hhanded
    have hlabels := SyncObserver.labels_observe r.dyn.cfg ts shown.buckets r.tracked.observer
    obtain ⟨hid, hkind, hmode⟩ := (SyncObserver.Labels.mk.injEq _ _ _ _ _ _).mp hlabels
    show handed.2.id = (r.tracked.observer.observe r.dyn.cfg ts shown.buckets).2.id ∧ _
    rw [hid]
    refine ⟨(hr handed hhanded).1, ?_, ?_⟩
    · exact (hr handed hhanded).2.1.trans hkind.symm
    · exact (hr handed hhanded).2.2.trans hmode.symm
  · intro r batch hr handed hhanded
    rcases List.mem_append.mp hhanded with hold | hnew
    · exact hr handed hold
    · obtain ⟨n, _, rfl⟩ := Option.map_eq_some_iff.mp (Option.mem_toList.mp hnew)
      exact ⟨rfl, rfl, rfl⟩

/-! ## Sums over the batches -/

omit [LinearOrder K] in
/-- Each of the numbered entries counts for its own number. -/
theorem sum_filter_numbered {M X : Type} [AddCommMonoid M] {n : Nat} {numbered : List (Nat × X)}
    (hlt : ∀ entry ∈ numbered, entry.1 < n) (count : Nat × X → M) :
    ∑ i : Fin n, ((numbered.filter fun entry => entry.1 = i.1).map count).sum =
      (numbered.map count).sum := by
  induction numbered with
  | nil => simp
  | cons entry rest ih =>
      have hentry := hlt entry List.mem_cons_self
      have hfirst : ∀ i : Fin n,
          (((entry :: rest).filter fun entry => entry.1 = i.1).map count).sum =
            (if i = ⟨entry.1, hentry⟩ then count entry else 0) +
              ((rest.filter fun entry => entry.1 = i.1).map count).sum := by
        intro i
        by_cases hsame : entry.1 = i
        · have hi : i = ⟨entry.1, hentry⟩ := Fin.ext hsame.symm
          rw [List.filter_cons_of_pos (by simpa using hsame), List.map_cons, List.sum_cons,
            if_pos hi]
        · have hi : i ≠ ⟨entry.1, hentry⟩ := fun h => hsame (by rw [h])
          rw [List.filter_cons_of_neg (by simpa using hsame), if_neg hi, zero_add]
      simp only [hfirst, Finset.sum_add_distrib, Finset.sum_ite_eq', Finset.mem_univ, if_true]
      rw [ih fun other hother => hlt other (List.mem_cons_of_mem _ hother), List.map_cons,
        List.sum_cons]

omit [LinearOrder K] in
/-- What the payloads of all batches count for is what the series count for that the
observers handed over. -/
theorem Accounted.sum_batches {M : Type} [AddCommMonoid M] (h : w.Accounted) (count : W → M) :
    (w.batches.flatten.map count).sum =
      (w.observers.map fun r => (r.tracked.delivered.map fun handed =>
        (emitted (r.dyn.intoWire handed.2 w.align)).elim 0 count).sum).sum := by
  have hbatch : ∀ i : Fin w.batches.length, (w.batches[i.1].map count).sum =
      ∑ j : Fin w.observers.length,
        ((w.observers[j.1].payloads w.align i).map fun payload => payload.elim 0 count).sum := by
    intro i
    have hpayloads := h.batches i _ (List.getElem?_eq_getElem i.2)
    have hcount : w.batches[i.1].map count =
        (w.batches[i.1].map some).map fun payload => payload.elim 0 count := by
      rw [List.map_map]
      rfl
    rw [hcount, hpayloads, List.map_flatMap, List.flatMap, List.sum_flatten, List.map_map,
      ← Fin.sum_univ_fun_getElem]
    rfl
  rw [List.map_flatten, List.sum_flatten, List.map_map, ← Fin.sum_univ_fun_getElem,
    ← Fin.sum_univ_fun_getElem]
  simp only [Function.comp_apply, hbatch]
  rw [Finset.sum_comm]
  refine Finset.sum_congr rfl fun j _ => ?_
  have hnumbered := (h.observers _ (List.getElem_mem j.2)).numbered
  rw [← sum_filter_numbered hnumbered]
  refine Finset.sum_congr rfl fun i _ => ?_
  rw [Registered.payloads, List.map_map]
  rfl

end Worker

end Periodic

end Ohnotel
