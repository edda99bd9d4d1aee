/-
# Who waits for whom

The calls of the program reduced to the locks they take.  A call that writes takes the
locks of a map one after the other, never two at a time: what it does next depends on
what it found, and what it finds depends on everybody else.  Drains and visits take the
alias lock inside the canonical lock.  A scrape visits every source under the lock of
its collector, and a registration tells the collectors under the lock of the registry.

The locks have an order, and every call takes them in that order, whatever it finds on
the way.  So no set of calls, made by any threads in any order, ever waits for itself.
-/

import Ohnotel.BucketMap.Interleaving
import Ohnotel.Collect.Destructive
import Ohnotel.Foundation.LockOrder

namespace Ohnotel

open Foundation Locker

/-- The locks of the program: those of collections, of push and of pull collectors, and
the two of every map. -/
inductive Lock (κ μ : Type)
  | registry (collection : κ)
  | destructiveIds (collector : κ)
  | sources (collector : κ)
  | canonical (map : μ)
  | aliases (map : μ)
  deriving DecidableEq

variable {κ μ K A : Type}

namespace Lock

/-- The order the locks are taken in. -/
def rank : Lock κ μ → Nat
  | .registry _ => 0
  | .destructiveIds _ => 1
  | .sources _ => 2
  | .canonical _ => 3
  | .aliases _ => 4

end Lock

/-- The locks that the step of a call takes from this place. -/
def Pc.locks (map : μ) : Pc K A → List (LockAction (Lock κ μ))
  | .lookup _ (.canon :: _) _ => lockSection (.canonical map) .shared []
  | .lookup _ (.dup :: _) _ => lockSection (.aliases map) .shared []
  | .insertCanon _ _ => lockSection (.canonical map) .exclusive []
  | .insertDup _ _ _ => lockSection (.aliases map) .exclusive []
  | .idle | .lookup _ [] _ | .record _ _ | .recordNoAttr _ | .touchNoAttr => []

/-- The locks a call takes from a place to its end, each step on the map as it is by
then. -/
inductive Path [LinearOrder K] (cfg : Config K A) (map : μ) :
    Pc K A → List (LockAction (Lock κ μ)) → Prop
  | /-- The call has returned. -/
    back : Path cfg map .idle []
  | /-- The call takes one more step. -/
    step {pc pc' : Pc K A} {m m' : BucketMap K A} {later : List (LockAction (Lock κ μ))}
      (hadvance : Shared.advance cfg m pc = some (m', pc')) (hlater : Path cfg map pc' later) :
      Path cfg map pc (pc.locks map ++ later)

/-- `clear` and `take`. -/
def drainLocks (map : μ) : List (LockAction (Lock κ μ)) :=
  lockSection (.canonical map) .exclusive (lockSection (.aliases map) .exclusive [])

/-- `visit_bucket`: an entry that is refused and has aliases takes them out of the alias
table. -/
def visitLocks (map : μ) (entries : List (CanonicalEntry K)) (refused : CanonicalEntry K → Bool) :
    List (LockAction (Lock κ μ)) :=
  lockSection (.canonical map) .exclusive (entries.flatMap fun e =>
    if refused e && !e.aliases.isEmpty then lockSection (.aliases map) .exclusive [] else [])

/-- `render` of a pull collector: every source is visited under the lock of the sources,
the error of a source ending the loop. -/
def renderLocks (collector : κ) (scraped : List (μ × List (CanonicalEntry K))) :
    List (LockAction (Lock κ μ)) :=
  lockSection (.sources collector) .exclusive
    (scraped.flatMap fun source => visitLocks source.1 source.2 fun _ => false)

/-- `add_handle` of a pull collector. -/
def addHandleLocks (collector : κ) : List (LockAction (Lock κ μ)) :=
  lockSection (.sources collector) .exclusive []

/-- `add` of a push collector: only a destructive observer is noted. -/
def addLocks (collector : κ) (mode : Mode) : List (LockAction (Lock κ μ)) :=
  match mode with
  | .destructive => lockSection (.destructiveIds collector) .exclusive []
  | .direct | .delta => []

/-- A collector as a member of a collection: `add_source` of a push collector takes no
lock, that of a pull collector is `add_handle`. -/
inductive Listener (κ : Type)
  | push
  | pull (collector : κ)

def Listener.locks : Listener κ → List (LockAction (Lock κ μ))
  | .push => []
  | .pull collector => addHandleLocks collector

/-- `Collection::add`, which tells some of its collectors, or returns before it takes the
lock. -/
def collectionAddLocks (collection : κ) (told : Option (List (Listener κ))) :
    List (LockAction (Lock κ μ)) :=
  match told with
  | none => []
  | some told => lockSection (.registry collection) .exclusive (told.flatMap Listener.locks)

/-- The calls of the program, each with the locks it may take. -/
inductive Takes [LinearOrder K] (cfg : Config K A) : List (LockAction (Lock κ μ)) → Prop
  | /-- `add`, `sub`, `set`, `reset` and the writes of histograms and of bound
    instruments. -/
    write (map : μ) (attrs : List K) (f : A → A) {taken : List (LockAction (Lock κ μ))}
      (h : Path cfg map (Shared.start attrs f) taken) : Takes cfg taken
  | /-- `get`, which looks up and gives up at its first hit. -/
    get (map : μ) (attrs : List K) (f : A → A) (tried : List Probe)
      (h : tried <+: Shared.probes attrs) :
      Takes cfg (tried.flatMap fun p => (Pc.lookup attrs [p] f).locks map)
  | drain (map : μ) : Takes cfg (drainLocks map)
  | visit (map : μ) (entries : List (CanonicalEntry K)) (refused : CanonicalEntry K → Bool) :
      Takes cfg (visitLocks map entries refused)
  | render (collector : κ) (scraped : List (μ × List (CanonicalEntry K))) :
      Takes cfg (renderLocks collector scraped)
  | addHandle (collector : κ) : Takes cfg (addHandleLocks collector)
  | add (collector : κ) (mode : Mode) : Takes cfg (addLocks collector mode)
  | collectionAdd (collection : κ) (told : Option (List (Listener κ))) :
      Takes cfg (collectionAddLocks collection told)

/-! ## Every call keeps to the order -/

section Order

variable [DecidableEq κ] [DecidableEq μ]

theorem above_locks (map : μ) (pc : Pc K A) :
    Above Lock.rank 3 (pc.locks map : List (LockAction (Lock κ μ))) := by
  cases pc with
  | lookup attrs left f =>
      cases left with
      | nil => exact .nil 3
      | cons p left =>
          cases p with
          | canon => exact .lockSection (le_refl 3) (.nil _)
          | dup => exact .lockSection (by decide : 3 ≤ 4) (.nil _)
  | insertCanon prepared f => exact .lockSection (le_refl 3) (.nil _)
  | insertDup key bucket f => exact .lockSection (by decide : 3 ≤ 4) (.nil _)
  | idle => exact .nil 3
  | record bucket f => exact .nil 3
  | recordNoAttr f => exact .nil 3
  | touchNoAttr => exact .nil 3

theorem above_visitLocks (map : μ) (entries : List (CanonicalEntry K))
    (refused : CanonicalEntry K → Bool) :
    Above Lock.rank 3 (visitLocks map entries refused : List (LockAction (Lock κ μ))) := by
  refine .lockSection (le_refl _) (.flatMap fun e _ => ?_)
  split
  · exact .lockSection (le_refl 4) (.nil _)
  · exact .nil _

theorem above_addHandleLocks (collector : κ) :
    Above Lock.rank 2 (addHandleLocks collector : List (LockAction (Lock κ μ))) :=
  .lockSection (le_refl 2) (.nil _)

variable [LinearOrder K] {cfg : Config K A}

theorem Path.above {map : μ} {pc : Pc K A} {taken : List (LockAction (Lock κ μ))}
    (h : Path cfg map pc taken) : Above Lock.rank 3 taken := by
  induction h with
  | back => exact .nil 3
  | step hadvance hlater ih => exact (above_locks map _).append ih

/-- Whatever a call finds on its way, it takes the locks in their order. -/
theorem Takes.above {taken : List (LockAction (Lock κ μ))} (h : Takes cfg taken) :
    Above Lock.rank 0 taken := by
  cases h with
  | write map attrs f hpath => exact hpath.above.mono (by decide)
  | get map attrs f tried htried =>
      exact (Above.flatMap fun p _ => above_locks map _).mono (by decide : 0 ≤ 3)
  | drain map =>
      exact .lockSection (by decide : 0 ≤ 3) (.lockSection (le_refl 4) (.nil _))
  | visit map entries refused => exact (above_visitLocks map entries refused).mono (by decide)
  | render collector scraped =>
      exact .lockSection (by decide : 0 ≤ 2)
        (.flatMap fun source _ => above_visitLocks source.1 source.2 _)
  | addHandle collector => exact (above_addHandleLocks collector).mono (by decide)
  | add collector mode =>
      cases mode with
      | destructive => exact .lockSection (by decide : 0 ≤ 1) (.nil _)
      | direct => exact .nil 0
      | delta => exact .nil 0
  | collectionAdd collection told =>
      cases told with
      | none => exact .nil 0
      | some told =>
          refine .lockSection (le_refl _) (.flatMap fun listener _ => ?_)
          cases listener with
          | push => exact .nil 1
          | pull collector => exact (above_addHandleLocks collector).mono (show 0 + 1 ≤ 2 by decide)

/-- Any number of threads make any calls, one after the other, and their steps fall in any
order: a lock held exclusively is held by nobody else; until every thread has made all its
calls, some thread can go on, even where a reader has to let waiting writers pass; and no
run has more steps than the calls have. -/
theorem calls_never_wait_for_themselves {ι : Type} [Fintype ι] [DecidableEq ι]
    {calls : ι → List (List (LockAction (Lock κ μ)))}
    (hcalls : ∀ t, ∀ taken ∈ calls t, Takes cfg taken) {turns : List ι}
    {last : ι → Locker (Lock κ μ)}
    (hrun : StepFn.run step (fun t => start (calls t).flatten) turns = some last) :
    Exclusive last ∧ ((∀ t, (last t).Done) ∨ ∃ t, (step last t).isSome) ∧
      turns.length + left last = ∑ t, (calls t).flatten.length := by
  have hordered : ∀ t, Ordered Lock.rank (start (calls t).flatten).held
      (start (calls t).flatten).rest := fun t =>
    (Above.flatten fun taken htaken => (hcalls t taken htaken).above).ordered
  have hprogress := run_progresses hordered hrun
  exact ⟨run_exclusive hrun, hprogress.2, hprogress.1⟩

/-- A call that enters a set in another order than its sorted one misses in both tables,
while another thread drains the map: the drain holds the canonical lock and is granted the
alias lock as soon as the call has given it up. -/
theorem calls_never_wait_for_themselves_draining :
    let cfg : Config Nat UInt64 :=
      Config.withHasher UInt64 ⟨UInt64.ofNat, AttrFingerprint.sum⟩ Layout.stack
    let taken : List (LockAction (Lock Unit Unit)) :=
      lockSection (.aliases ()) .shared [] ++ lockSection (.canonical ()) .shared [] ++
        lockSection (.canonical ()) .exclusive [] ++ lockSection (.aliases ()) .exclusive []
    let calls : Bool → List (List (LockAction (Lock Unit Unit))) := fun writes =>
      [if writes then taken else drainLocks ()]
    Path cfg () (Shared.start [2, 1] fun cell => cell + 5) taken ∧
      ∃ last, StepFn.run step (fun t => start (calls t).flatten)
          [true, false, true, false] = some last ∧
        Exclusive last ∧ ((∀ t, (last t).Done) ∨ ∃ t, (step last t).isSome) := by
  intro cfg taken calls
  let m : BucketMap Nat UInt64 := BucketMap.withStorage cfg
  have hpath : Path cfg () (Shared.start [2, 1] fun cell => cell + 5) taken := by
    obtain ⟨found, hfound, rfl⟩ : ∃ found : List (LockAction (Lock Unit Unit)),
        Path cfg () (Shared.start [2, 1] fun cell => cell + 5) found ∧ found = taken :=
      ⟨_, .step (m := m) rfl (.step (m := m) rfl (.step (m := m) rfl (.step (m := m) rfl
        (.step (m := m) rfl (.step (m := m) rfl .back))))), rfl⟩
    exact hfound
  have hcalls : ∀ t, ∀ taken ∈ calls t, Takes cfg taken := by
    intro writes found hfound
    rw [List.mem_singleton.mp hfound]
    cases writes with
    | true => exact .write () [2, 1] (fun cell => cell + 5) hpath
    | false => exact .drain ()
  obtain ⟨last, hrun⟩ : ∃ last, StepFn.run step (fun t => start (calls t).flatten)
      [true, false, true, false] = some last := ⟨_, rfl⟩
  have hprogress := calls_never_wait_for_themselves hcalls hrun
  exact ⟨hpath, last, hrun, hprogress.1, hprogress.2.1⟩

end Order

end Ohnotel
