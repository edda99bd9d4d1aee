/-
# Destructive observers of one collector

A destructive observer empties what it observes, so two of them for one identity would take
values from each other.  A periodic collector has two doors: `add`, which remembers the
identities it was given in destructive mode, and `add_source`, through which a collection
hands on a source and which asks nobody.  A collection remembers a source under its
identity and its type.

The identities that have a destructive observer are exactly those that were given in
destructive mode through some door.  They stay apart as long as no other door, or the same
collection under another type, is asked for one of them again.
-/

import Mathlib.Data.Finset.Insert
import Ohnotel.Collect

namespace Ohnotel.Periodic

open Foundation

variable {ι B K V : Type}

/-! ## The two doors of a collector -/

/-- The identities that are observed in destructive mode. -/
def destructivelyObserved (observers : List (B × SyncObserver K V)) : List NameIdentity :=
  (observers.filter fun observer => observer.2.observeMode = .destructive).map fun observer =>
    observer.2.id

/-- `Inner`: the identities registered in destructive mode, and the observers that were
handed to the worker, with what they observe. -/
structure Inner (B K V : Type) where
  destructiveIds : Finset NameIdentity
  observers : List (B × SyncObserver K V)

namespace Inner

def new : Inner B K V where
  destructiveIds := ∅
  observers := []

/-- `Collector::add_boxed_observer`, for each of the observers. -/
def addObservers (s : Inner B K V) (observers : List (B × SyncObserver K V)) : Inner B K V :=
  { s with observers := s.observers ++ observers }

/-- `Collector::add`. -/
def add (s : Inner B K V) (call : AddCall B) : Inner B K V × Except Error (Source B) :=
  match SyncObserver.new call.source.id call.source.kind call.mode call.now with
  | .error err => (s, .error err)
  | .ok observer =>
      if call.mode = .destructive then
        if call.source.id ∈ s.destructiveIds then (s, .error .duplicateDestructive)
        else
          let s := { s with destructiveIds := insert call.source.id s.destructiveIds }
          (s.addObservers [(call.source.buckets, observer)], .ok call.source)
      else (s.addObservers [(call.source.buckets, observer)], .ok call.source)

/-- `AddSource::add_source`. -/
def addSource (s : Inner B K V) (call : AddCall B) : Inner B K V × Except Error Unit :=
  match SyncObserver.new call.source.id call.source.kind call.mode call.now with
  | .error err => (s, .error err)
  | .ok observer => (s.addObservers [(call.source.buckets, observer)], .ok ())

def observedIds (s : Inner B K V) : List NameIdentity := destructivelyObserved s.observers

end Inner

/-! ## Collections of collectors -/

/-- The registry has a source of the identity in destructive mode, of whatever type. -/
def HasDestructive (registry : Registry B) (id : NameIdentity) : Prop :=
  ∃ key entry, registry.lookup key = some entry ∧ key.id = id ∧ entry.mode = .destructive

/-- A place in the tuple of a collection. -/
inductive Member
  | this
  | other
  deriving DecidableEq

/-- A collection that the collector is part of. -/
structure Shared (B : Type) where
  members : List Member
  registry : Registry B
  part : .this ∈ members

namespace Shared

/-- The collectors of a tuple before a call, from the place `index` on.  The others answer
the call as they please. -/
def collectors (answer : Nat → Except Error Unit) :
    Nat → List Member → List (Collector B (Registration B K V))
  | _, [] => []
  | index, .this :: rest => Collector.push B K V :: collectors answer (index + 1) rest
  | index, .other :: rest =>
      { Collector.prometheus B K V with
        build := fun source _ _ =>
          (answer index).map fun _ => .handle source.id source.buckets source.kind } ::
        collectors answer (index + 1) rest

/-- What the collector has built in a call, in all its places. -/
def built : List Member → List (Collector B (Registration B K V)) → List (B × SyncObserver K V)
  | .this :: members, c :: rest =>
      (c.held.filterMap fun
        | .observer buckets observer => some (buckets, observer)
        | .handle _ _ _ => none) ++ built members rest
  | .other :: members, _ :: rest => built members rest
  | _, _ => []

def asCollection (c : Shared B) (answer : Nat → Except Error Unit) :
    Collection B (Registration B K V) where
  collectors := collectors answer 0 c.members
  registry := c.registry

/-- `Collection::add`. -/
def add (c : Shared B) (s : Inner B K V) (call : AddCall B) (answer : Nat → Except Error Unit) :
    (Shared B × Inner B K V) × Except Error (Source B) :=
  let added := (c.asCollection answer).add call
  (({ c with registry := added.1.registry },
      s.addObservers (built c.members added.1.collectors)), added.2)

end Shared

/-- A collector, and the collections it is part of.  `direct` are the identities that
`add_source` itself was given in destructive mode; nothing in the code keeps them. -/
structure Registrations (ι B K V : Type) where
  inner : Inner B K V
  collections : ι → Shared B
  direct : List NameIdentity

/-- A call that registers a source; `answer` is what the other collectors of a collection
return. -/
inductive Registering (ι B : Type)
  | add (call : AddCall B)
  | addSource (call : AddCall B)
  | collect (i : ι) (call : AddCall B) (answer : Nat → Except Error Unit)

def Registering.call : Registering ι B → AddCall B
  | .add call | .addSource call | .collect _ call _ => call

variable [DecidableEq ι]

namespace Registrations

/-- A collector nothing was given to, in collections that know of no source. -/
structure Fresh (s : Registrations ι B K V) : Prop where
  inner : s.inner = .new
  registries : ∀ i, (s.collections i).registry = ∅
  direct : s.direct = []

/-- Perform a call; of what it returns only whether it is an error. -/
def exec (s : Registrations ι B K V) : Registering ι B → Registrations ι B K V × Except Error Unit
  | .add call =>
      let added := s.inner.add call
      ({ s with inner := added.1 }, added.2.map fun _ => ())
  | .addSource call =>
      let added := s.inner.addSource call
      let direct := if call.mode = .destructive then s.direct ++ [call.source.id] else s.direct
      ({ s with inner := added.1, direct := direct }, added.2)
  | .collect i call answer =>
      let added := (s.collections i).add s.inner call answer
      ({ s with
          inner := added.1.2
          collections := Function.update s.collections i added.1.1 },
        added.2.map fun _ => ())

/-- A call, whatever it returns, as a step that is always enabled. -/
def step : StepFn (Registrations ι B K V) (Registering ι B) := fun s r => some (s.exec r).1

/-- The identities that are observed in destructive mode. -/
def observedIds (s : Registrations ι B K V) : List NameIdentity := s.inner.observedIds

/-- The identity was given in destructive mode: to `add`, to a collection, or to
`add_source` itself. -/
def Given (s : Registrations ι B K V) (id : NameIdentity) : Prop :=
  id ∈ s.inner.destructiveIds ∨ (∃ i, HasDestructive (s.collections i).registry id) ∨ id ∈ s.direct

/-- The door refuses a destructive call: `add` an identity in its set, a collection if it
has several collectors, or the source in another mode; `add_source` refuses none. -/
def Refused (s : Registrations ι B K V) : Registering ι B → Prop
  | .add call => call.source.id ∈ s.inner.destructiveIds
  | .addSource _ => False
  | .collect i call _ =>
      (s.collections i).members.length ≠ 1 ∨
        ∃ entry ∈ (s.collections i).registry.lookup call.source.key, entry.mode ≠ .destructive

/-- A collection answers a destructive call with the source it already has. -/
def Answered (s : Registrations ι B K V) : Registering ι B → Prop
  | .add _ | .addSource _ => False
  | .collect i call _ =>
      (s.collections i).members.length = 1 ∧
        ∃ entry ∈ (s.collections i).registry.lookup call.source.key, entry.mode = .destructive

/-- After the call no identity has two destructive observers. -/
def Apart (s : Registrations ι B K V) (r : Registering ι B) : Prop :=
  (s.exec r).1.observedIds.Nodup

/-- And if the call was to register another for an identity that has one, it was rejected,
and no observer was added. -/
structure Exclusive (s : Registrations ι B K V) (r : Registering ι B) : Prop where
  apart : s.Apart r
  rejected : r.call.mode = .destructive → r.call.source.id ∈ s.observedIds →
    (∃ err, (s.exec r).2 = .error err) ∧ (s.exec r).1.inner.observers = s.inner.observers

/-- A destructive call is refused by its door, or its identity is new to all doors. -/
def Guarded (s : Registrations ι B K V) (r : Registering ι B) : Prop :=
  r.call.mode = .destructive → s.Refused r ∨ ¬ s.Given r.call.source.id

/-- Or it is answered. -/
def Screened (s : Registrations ι B K V) (r : Registering ι B) : Prop :=
  r.call.mode = .destructive → s.Refused r ∨ s.Answered r ∨ ¬ s.Given r.call.source.id

end Registrations

/-! ## What each door does -/

theorem observer_of_new {call : AddCall B} {observer : SyncObserver K V}
    (h : SyncObserver.new call.source.id call.source.kind call.mode call.now = .ok observer) :
    observer.id = call.source.id ∧ observer.observeMode = call.mode := by
  unfold SyncObserver.new at h
  split at h
  · simp at h
  · obtain rfl := Except.ok.inj h
    exact ⟨rfl, rfl⟩

/-- What a push collector makes of a source is an observer of it. -/
theorem observer_of_push {call : AddCall B} {built : Registration B K V}
    (h : (Collector.push B K V).build call.source call.mode call.now = .ok built) :
    ∃ observer, SyncObserver.new call.source.id call.source.kind call.mode call.now =
        .ok observer ∧
      built = .observer call.source.buckets observer := by
  simp only [Collector.push] at h
  cases hnew : (SyncObserver.new call.source.id call.source.kind call.mode call.now :
      Except Error (SyncObserver K V)) with
  | error err =>
      rw [hnew] at h
      cases h
  | ok observer =>
      rw [hnew] at h
      exact ⟨observer, rfl, (Except.ok.inj h).symm⟩

theorem exists_observer_of_destructive {call : AddCall B} (hmode : call.mode = .destructive) :
    ∃ observer : SyncObserver K V,
      SyncObserver.new call.source.id call.source.kind call.mode call.now = .ok observer := by
  unfold SyncObserver.new
  rw [if_neg (by simp [hmode])]
  exact ⟨_, rfl⟩

theorem destructivelyObserved_append (first second : List (B × SyncObserver K V)) :
    destructivelyObserved (first ++ second) =
      destructivelyObserved first ++ destructivelyObserved second := by
  simp [destructivelyObserved]

/-- What a call builds is in the mode of the call. -/
theorem destructivelyObserved_of_mode {mode : Mode} (hmode : mode ≠ .destructive)
    {observers : List (B × SyncObserver K V)}
    (hobservers : ∀ observer ∈ observers, observer.2.observeMode = mode) :
    destructivelyObserved observers = [] := by
  rw [destructivelyObserved, List.map_eq_nil_iff, List.filter_eq_nil_iff]
  intro observer hobserver
  simpa [hobservers observer hobserver] using hmode

/-- A new entry is all that an insertion adds. -/
theorem hasDestructive_insert {registry : Registry B} {key : RegistryKey}
    (hnone : registry.lookup key = none) (entry : RegistryEntry B) (id : NameIdentity) :
    HasDestructive (registry.insert key entry) id ↔
      HasDestructive registry id ∨ key.id = id ∧ entry.mode = .destructive := by
  constructor
  · rintro ⟨found, inserted, hlookup, hid, hmode⟩
    by_cases hfound : found = key
    · subst hfound
      rw [AList.lookup_insert] at hlookup
      obtain rfl := Option.some.inj hlookup
      exact .inr ⟨hid, hmode⟩
    · rw [AList.lookup_insert_ne hfound] at hlookup
      exact .inl ⟨found, inserted, hlookup, hid, hmode⟩
  · rintro (⟨found, held, hlookup, hid, hmode⟩ | ⟨hid, hmode⟩)
    · have hfound : found ≠ key := by
        rintro rfl
        rw [hnone] at hlookup
        cases hlookup
      exact ⟨found, held, by rw [AList.lookup_insert_ne hfound, hlookup], hid, hmode⟩
    · exact ⟨key, entry, AList.lookup_insert .., hid, hmode⟩

namespace Inner

variable {s : Inner B K V} {call : AddCall B}

theorem observedIds_addObservers (observers : List (B × SyncObserver K V)) :
    (s.addObservers observers).observedIds = s.observedIds ++ destructivelyObserved observers :=
  destructivelyObserved_append _ _

/-- A source in another mode changes nothing about the destructive observers. -/
theorem add_of_keeps (hmode : call.mode ≠ .destructive) :
    (s.add call).1.observedIds = s.observedIds ∧
      (s.add call).1.destructiveIds = s.destructiveIds := by
  rw [add]
  split
  · exact ⟨rfl, rfl⟩
  · rename_i observer hnew
    rw [if_neg hmode, observedIds_addObservers, destructivelyObserved_of_mode hmode
      (by simp [(observer_of_new hnew).2]), List.append_nil]
    exact ⟨rfl, rfl⟩

theorem addSource_of_keeps (hmode : call.mode ≠ .destructive) :
    (s.addSource call).1.observedIds = s.observedIds ∧
      (s.addSource call).1.destructiveIds = s.destructiveIds := by
  rw [addSource]
  split
  · exact ⟨rfl, rfl⟩
  · rename_i observer hnew
    rw [observedIds_addObservers, destructivelyObserved_of_mode hmode
      (by simp [(observer_of_new hnew).2]), List.append_nil]
    exact ⟨rfl, rfl⟩

theorem destructivelyObserved_singleton {observer : SyncObserver K V}
    (hmode : call.mode = .destructive)
    (hnew : SyncObserver.new call.source.id call.source.kind call.mode call.now = .ok observer) :
    destructivelyObserved [(call.source.buckets, observer)] = [call.source.id] := by
  obtain ⟨hid, hobserved⟩ := observer_of_new hnew
  simp [destructivelyObserved, hid, hobserved, hmode]

theorem addSource_destructive (hmode : call.mode = .destructive) :
    (s.addSource call).2 = .ok () ∧
      (s.addSource call).1.observedIds = s.observedIds ++ [call.source.id] ∧
      (s.addSource call).1.destructiveIds = s.destructiveIds := by
  obtain ⟨observer, hnew⟩ := exists_observer_of_destructive (K := K) (V := V) hmode
  rw [addSource, hnew]
  refine ⟨rfl, ?_, rfl⟩
  rw [observedIds_addObservers, destructivelyObserved_singleton hmode hnew]

theorem add_of_notMem (hmode : call.mode = .destructive)
    (hnotMem : call.source.id ∉ s.destructiveIds) :
    (s.add call).2 = .ok call.source ∧
      (s.add call).1.observedIds = s.observedIds ++ [call.source.id] ∧
      (s.add call).1.destructiveIds = insert call.source.id s.destructiveIds := by
  obtain ⟨observer, hnew⟩ := exists_observer_of_destructive (K := K) (V := V) hmode
  rw [add, hnew]
  simp only [if_pos hmode, if_neg hnotMem, observedIds_addObservers,
    destructivelyObserved_singleton hmode hnew]
  exact ⟨trivial, rfl, rfl⟩

theorem add_of_mem (hmode : call.mode = .destructive) (hmem : call.source.id ∈ s.destructiveIds) :
    s.add call = (s, .error .duplicateDestructive) := by
  obtain ⟨observer, hnew⟩ := exists_observer_of_destructive (K := K) (V := V) hmode
  rw [add, hnew]
  simp only [if_pos hmode, if_pos hmem]

end Inner

namespace Shared

variable {c : Shared B} {s : Inner B K V} {call : AddCall B} {answer : Nat → Except Error Unit}

theorem length_collectors (answer : Nat → Except Error Unit) (index : Nat) (members : List Member) :
    (collectors answer index members : List (Collector B (Registration B K V))).length =
      members.length := by
  induction members generalizing index with
  | nil => rfl
  | cons member rest ih =>
      cases member with
      | this => exact congrArg (· + 1) (ih (index + 1))
      | other => exact congrArg (· + 1) (ih (index + 1))

/-- The door that a collection goes through is the collector's own `add_source`. -/
theorem addSource_eq_push (s : Inner B K V) (call : AddCall B) :
    s.addSource call =
      match (Collector.push B K V).addSource call.source call.mode call.now with
      | .error err => (s, .error err)
      | .ok told => (s.addObservers (built [.this] [told]), .ok ()) := by
  rw [Inner.addSource, Collector.addSource]
  simp only [Collector.push]
  cases (SyncObserver.new call.source.id call.source.kind call.mode call.now :
      Except Error (SyncObserver K V)) with
  | error err => rfl
  | ok observer => rfl

/-- Before a call nothing was built in it. -/
theorem built_collectors (answer : Nat → Except Error Unit) (index : Nat)
    (members : List Member) :
    built members (collectors answer index members : List (Collector B (Registration B K V))) =
      [] := by
  induction members generalizing index with
  | nil => rfl
  | cons member rest ih =>
      cases member with
      | this => exact ih (index + 1)
      | other => exact ih (index + 1)

/-- Whatever the collectors answer, what this one has built is in the mode of the call. -/
theorem mode_of_mem_built {index : Nat} {members : List Member}
    {after : List (Collector B (Registration B K V))}
    (htold : List.Forall₂ (fun c after => after = c ∨ c.Told call after)
      (collectors answer index members) after) :
    ∀ observer ∈ built members after, observer.2.observeMode = call.mode := by
  induction members generalizing index after with
  | nil =>
      cases htold
      simp [built]
  | cons member rest ih =>
      cases member with
      | other =>
          cases htold with
          | cons _ hrest => exact ih hrest
      | this =>
          cases htold with
          | cons hfirst hrest =>
              intro observer hobserver
              rcases List.mem_append.mp hobserver with hheld | hlater
              · rcases hfirst with rfl | ⟨registration, hbuilt, rfl⟩
                · simp [Collector.push] at hheld
                · obtain ⟨made, hnew, rfl⟩ := observer_of_push hbuilt
                  obtain rfl : observer = (call.source.buckets, made) := by
                    simpa [Collector.push] using hheld
                  exact (observer_of_new hnew).2
              · exact ih hrest observer hlater

/-- Every entry is filed under the key of its source. -/
def WellKeyed (c : Shared B) : Prop :=
  ∀ key entry, c.registry.lookup key = some entry → entry.source.key = key

theorem WellKeyed.asCollection (h : c.WellKeyed) (answer : Nat → Except Error Unit) :
    (c.asCollection answer : Collection B (Registration B K V)).WellKeyed := h

theorem WellKeyed.add (h : c.WellKeyed) : (c.add s call answer).1.1.WellKeyed :=
  Collection.WellKeyed.add (h.asCollection (K := K) (V := V) answer)

theorem add_of_keeps (h : c.WellKeyed) (hmode : call.mode ≠ .destructive) :
    (c.add s call answer).1.2.observedIds = s.observedIds ∧
      (c.add s call answer).1.2.destructiveIds = s.destructiveIds := by
  have htold := Collection.forall₂_add (h.asCollection (K := K) (V := V) answer) call
  rw [add, Inner.observedIds_addObservers,
    destructivelyObserved_of_mode hmode (mode_of_mem_built htold), List.append_nil]
  exact ⟨rfl, rfl⟩

/-- A source in another mode is no destructive entry. -/
theorem hasDestructive_add (h : c.WellKeyed) (hmode : call.mode ≠ .destructive)
    (id : NameIdentity) :
    HasDestructive (c.add s call answer).1.1.registry id ↔ HasDestructive c.registry id := by
  have hregistry := Collection.registry_add (h.asCollection (K := K) (V := V) answer) call
  rcases hregistry with hsame | ⟨hnone, hinsert⟩
  · rw [add]
    simp only [hsame]
    exact Iff.rfl
  · rw [add]
    simp only [hinsert]
    rw [hasDestructive_insert hnone]
    simp [hmode, asCollection]

/-- A collection that leaves its collectors alone stays as it is. -/
theorem add_of_same {result : Except Error (Source B)}
    (h : (c.asCollection answer : Collection B (Registration B K V)).add call =
      (c.asCollection answer, result)) :
    c.add s call answer = ((c, s), result) := by
  rw [add, h]
  simp [asCollection, built_collectors, Inner.addObservers]

/-- The members of a collection that takes a source in destructive mode. -/
theorem members_of_length (c : Shared B) (hone : c.members.length = 1) : c.members = [.this] := by
  obtain ⟨member, hmember⟩ := List.length_eq_one_iff.mp hone
  have hpart := c.part
  rw [hmember, List.mem_singleton] at hpart
  rw [hmember, hpart]

section Destructive

variable (hmode : call.mode = .destructive)

include hmode

theorem add_of_members (hmembers : c.members.length ≠ 1) :
    c.add s call answer = ((c, s), .error .destructiveWithMultipleCollectors) := by
  refine add_of_same (if_pos ⟨hmode, ?_⟩)
  rwa [asCollection, length_collectors]

theorem add_of_otherMode {entry : RegistryEntry B} (hmembers : c.members.length = 1)
    (hlookup : c.registry.lookup call.source.key = some entry)
    (hother : entry.mode ≠ .destructive) :
    c.add s call answer = ((c, s), .error .modeMismatch) := by
  apply add_of_same
  rw [Collection.add, if_neg (by simp [asCollection, length_collectors, hmembers])]
  simp only [asCollection, hlookup]
  rw [if_pos (by rwa [hmode])]

theorem add_of_entry (h : c.WellKeyed) {entry : RegistryEntry B} (hmembers : c.members.length = 1)
    (hlookup : c.registry.lookup call.source.key = some entry)
    (hentry : entry.mode = .destructive) :
    c.add s call answer = ((c, s), .ok entry.source) := by
  apply add_of_same
  rw [Collection.add, if_neg (by simp [asCollection, length_collectors, hmembers])]
  have hdowncast := (h.asCollection (K := K) (V := V) answer).downcast hlookup
  simp only [asCollection, hlookup]
  rw [if_neg (by rw [hmode, hentry]; exact not_not.mpr rfl), hdowncast]

theorem add_of_none (hmembers : c.members.length = 1)
    (hlookup : c.registry.lookup call.source.key = none) :
    (c.add s call answer).2 = .ok call.source ∧
      (c.add s call answer).1.2.observedIds = s.observedIds ++ [call.source.id] ∧
      (c.add s call answer).1.2.destructiveIds = s.destructiveIds ∧
      (c.add s call answer).1.1.registry =
        c.registry.insert call.source.key ⟨.destructive, call.source⟩ := by
  obtain ⟨observer, hnew⟩ := exists_observer_of_destructive (K := K) (V := V) hmode
  have hreaches : (c.asCollection answer : Collection B (Registration B K V)).Reaches call :=
    ⟨by simp [asCollection, length_collectors, hmembers], hlookup⟩
  have hcollectors : (c.asCollection answer).collectors = [Collector.push B K V] := by
    simp [asCollection, members_of_length c hmembers, collectors]
  have hpush : (Collector.push B K V).addSource call.source call.mode call.now =
      .ok { Collector.push B K V with held := [.observer call.source.buckets observer] } := by
    show ((SyncObserver.new _ _ _ _).map _).map _ = _
    rw [hnew]
    rfl
  have hregister : (c.asCollection answer).register call =
      ({ collectors :=
           [{ Collector.push B K V with held := [.observer call.source.buckets observer] }]
         registry := c.registry.insert call.source.key ⟨call.mode, call.source⟩ },
        .ok call.source) := by
    rw [Collection.register, hcollectors]
    simp only [registerAll, hpush, asCollection]
  have hbuilt : built c.members
      [{ Collector.push B K V with held := [.observer call.source.buckets observer] }] =
        [(call.source.buckets, observer)] := by
    simp [members_of_length c hmembers, built]
  rw [add, Collection.add_of_reaches hreaches, hregister]
  simp only [hbuilt, Inner.observedIds_addObservers,
    Inner.destructivelyObserved_singleton hmode hnew, hmode]
  exact ⟨trivial, trivial, rfl, trivial⟩

end Destructive

end Shared

/-! ## What a call does -/

namespace Registrations

variable {s : Registrations ι B K V} {r : Registering ι B}

def WellKeyed (s : Registrations ι B K V) : Prop := ∀ i, (s.collections i).WellKeyed

theorem WellKeyed.exec (hkeyed : s.WellKeyed) : (s.exec r).1.WellKeyed := by
  cases r with
  | add call => exact hkeyed
  | addSource call => exact hkeyed
  | collect i call answer =>
      intro j
      by_cases hj : j = i
      · subst hj
        simp only [Registrations.exec, Function.update_self]
        exact (hkeyed j).add
      · simp only [Registrations.exec, Function.update_of_ne hj]
        exact hkeyed j

/-- What some collection has after one of them has changed. -/
theorem exists_update {collections : ι → Shared B} (p : Shared B → Prop) {i : ι} {c : Shared B}
    {added : Prop} (h : p c ↔ p (collections i) ∨ added) :
    (∃ j, p (Function.update collections i c j)) ↔ (∃ j, p (collections j)) ∨ added := by
  constructor
  · rintro ⟨j, hj⟩
    by_cases hji : j = i
    · subst hji
      rw [Function.update_self] at hj
      exact (h.mp hj).imp_left fun hold => ⟨j, hold⟩
    · rw [Function.update_of_ne hji] at hj
      exact .inl ⟨j, hj⟩
  · rintro (⟨j, hj⟩ | hadded)
    · by_cases hji : j = i
      · subst hji
        exact ⟨j, by rw [Function.update_self]; exact h.mpr (.inl hj)⟩
      · exact ⟨j, by rwa [Function.update_of_ne hji]⟩
    · exact ⟨i, by rw [Function.update_self]; exact h.mpr (.inr hadded)⟩

/-- A call in another mode changes nothing about the destructive observers. -/
theorem exec_of_keeps (hkeyed : s.WellKeyed) (hmode : r.call.mode ≠ .destructive) :
    (s.exec r).1.observedIds = s.observedIds ∧ ∀ id, (s.exec r).1.Given id ↔ s.Given id := by
  cases r with
  | add call =>
      obtain ⟨hobserved, hids⟩ : _ ∧ (s.inner.add call).1.destructiveIds = _ :=
        Inner.add_of_keeps hmode
      exact ⟨hobserved, fun id => by simp only [exec, Given, hids]⟩
  | addSource call =>
      obtain ⟨hobserved, hids⟩ : _ ∧ (s.inner.addSource call).1.destructiveIds = _ :=
        Inner.addSource_of_keeps hmode
      have hdirect : (s.exec (.addSource call)).1.direct = s.direct := if_neg hmode
      refine ⟨hobserved, fun id => ?_⟩
      rw [Given, hdirect]
      simp only [exec, Given, hids]
  | collect i call answer =>
      obtain ⟨hobserved, hids⟩ :
          _ ∧ ((s.collections i).add s.inner call answer).1.2.destructiveIds = _ :=
        Shared.add_of_keeps (hkeyed i) hmode
      refine ⟨hobserved, fun id => ?_⟩
      have hregistry : HasDestructive ((s.collections i).add s.inner call answer).1.1.registry id ↔
          HasDestructive (s.collections i).registry id ∨ False := by
        rw [or_false]
        exact Shared.hasDestructive_add (hkeyed i) hmode id
      simp only [exec, Given, hids, exists_update (fun c => HasDestructive c.registry id) hregistry,
        or_false]

theorem exec_collect_of_same {i : ι} {call : AddCall B} {answer : Nat → Except Error Unit}
    {result : Except Error (Source B)}
    (h : (s.collections i).add s.inner call answer = ((s.collections i, s.inner), result)) :
    s.exec (.collect i call answer) = (s, result.map fun _ => ()) := by
  simp only [exec, h, Function.update_eq_self]

theorem exec_of_refused (hmode : r.call.mode = .destructive) (hrefused : s.Refused r) :
    ∃ err, s.exec r = (s, .error err) := by
  cases r with
  | add call =>
      have hadd : s.inner.add call = (s.inner, .error .duplicateDestructive) :=
        Inner.add_of_mem hmode hrefused
      exact ⟨.duplicateDestructive, by simp only [exec, hadd]; rfl⟩
  | addSource call => exact absurd hrefused id
  | collect i call answer =>
      by_cases hmembers : (s.collections i).members.length = 1
      · obtain ⟨entry, hlookup, hother⟩ := hrefused.resolve_left (not_not.mpr hmembers)
        exact ⟨_, exec_collect_of_same (Shared.add_of_otherMode hmode hmembers hlookup hother)⟩
      · exact ⟨_, exec_collect_of_same (Shared.add_of_members hmode hmembers)⟩

theorem exec_of_answered (hkeyed : s.WellKeyed) (hmode : r.call.mode = .destructive)
    (hanswered : s.Answered r) : s.exec r = (s, .ok ()) := by
  cases r with
  | add call => exact absurd hanswered id
  | addSource call => exact absurd hanswered id
  | collect i call answer =>
      obtain ⟨hmembers, entry, hlookup, hentry⟩ := hanswered
      exact exec_collect_of_same
        (Shared.add_of_entry hmode (hkeyed i) hmembers hlookup hentry)

/-- A destructive call that is neither refused nor answered adds an observer, and its door
takes note of the identity. -/
theorem exec_of_accepted (hmode : r.call.mode = .destructive) (hrefused : ¬ s.Refused r)
    (hanswered : ¬ s.Answered r) :
    (s.exec r).2 = .ok () ∧ (s.exec r).1.observedIds = s.observedIds ++ [r.call.source.id] ∧
      ∀ id, (s.exec r).1.Given id ↔ s.Given id ∨ r.call.source.id = id := by
  cases r with
  | add call =>
      obtain ⟨hok, hobserved, hids⟩ :
          (s.inner.add call).2 = _ ∧ _ ∧ (s.inner.add call).1.destructiveIds = _ :=
        Inner.add_of_notMem hmode hrefused
      refine ⟨by simp only [exec, hok]; rfl, hobserved, fun id => ?_⟩
      simp only [exec, Given, hids, Finset.mem_insert, Registering.call, eq_comm (a := id)]
      tauto
  | addSource call =>
      obtain ⟨hok, hobserved, hids⟩ :
          _ ∧ _ ∧ (s.inner.addSource call).1.destructiveIds = _ :=
        Inner.addSource_destructive hmode
      have hdirect : (s.exec (.addSource call)).1.direct = s.direct ++ [call.source.id] :=
        if_pos hmode
      refine ⟨hok, hobserved, fun id => ?_⟩
      rw [Given, hdirect]
      simp only [exec, Given, hids, List.mem_append, List.mem_singleton, Registering.call,
        eq_comm (a := id)]
      tauto
  | collect i call answer =>
      obtain ⟨hmembers, hother⟩ := not_or.mp hrefused
      have hone := not_not.mp hmembers
      have hlookup : (s.collections i).registry.lookup call.source.key = none := by
        by_contra hsome
        obtain ⟨entry, hentry⟩ := Option.ne_none_iff_exists'.mp hsome
        have hdestructive : entry.mode = .destructive :=
          not_not.mp fun hne => hother ⟨entry, hentry, hne⟩
        exact hanswered ⟨hone, entry, hentry, hdestructive⟩
      obtain ⟨hok, hobserved, hids, hregistry⟩ :
          ((s.collections i).add s.inner call answer).2 = _ ∧ _ ∧
            ((s.collections i).add s.inner call answer).1.2.destructiveIds = _ ∧ _ :=
        Shared.add_of_none hmode hone hlookup
      refine ⟨by simp only [exec, hok]; rfl, hobserved, fun id => ?_⟩
      have hadded : HasDestructive ((s.collections i).add s.inner call answer).1.1.registry id ↔
          HasDestructive (s.collections i).registry id ∨ call.source.id = id := by
        rw [hregistry, hasDestructive_insert hlookup]
        simp [Source.key]
      simp only [exec, Given, hids, Registering.call,
        exists_update (fun c => HasDestructive c.registry id) hadded]
      tauto

/-! ## Runs -/

/-- What the doors have taken note of are the identities that are observed. -/
structure Bookkept (s : Registrations ι B K V) : Prop where
  wellKeyed : s.WellKeyed
  given : ∀ id, s.Given id ↔ id ∈ s.observedIds

omit [DecidableEq ι] in
theorem Fresh.bookkept (h : s.Fresh) : s.Bookkept where
  wellKeyed i key entry hlookup := by simp [h.registries i] at hlookup
  given id := by
    simp [Given, observedIds, HasDestructive, h.inner, h.registries, h.direct, Inner.new,
      Inner.observedIds, destructivelyObserved]

/-- A call is refused, or answered, or adds an observer of its identity, or is in another
mode; whatever it is, the doors keep up with the observers. -/
theorem Bookkept.exec (h : s.Bookkept) : (s.exec r).1.Bookkept := by
  refine ⟨h.wellKeyed.exec, fun id => ?_⟩
  by_cases hmode : r.call.mode = .destructive
  · by_cases hrefused : s.Refused r
    · obtain ⟨err, hexec⟩ := exec_of_refused hmode hrefused
      rw [hexec]
      exact h.given id
    · by_cases hanswered : s.Answered r
      · rw [exec_of_answered h.wellKeyed hmode hanswered]
        exact h.given id
      · obtain ⟨_, hobserved, hgiven⟩ := exec_of_accepted hmode hrefused hanswered
        rw [hgiven, hobserved, h.given, List.mem_append, List.mem_singleton, eq_comm]
  · obtain ⟨hobserved, hgiven⟩ := exec_of_keeps h.wellKeyed hmode
    rw [hgiven, hobserved]
    exact h.given id

/-- Identities stay apart in a call exactly if it is refused or answered, or its identity
is new to all doors. -/
theorem apart_iff (h : s.Bookkept) (hapart : s.observedIds.Nodup) :
    s.Apart r ↔ s.Screened r := by
  by_cases hmode : r.call.mode = .destructive
  · by_cases hrefused : s.Refused r
    · obtain ⟨err, hexec⟩ := exec_of_refused hmode hrefused
      simp [Apart, Screened, hexec, hapart, hrefused]
    · by_cases hanswered : s.Answered r
      · simp [Apart, Screened, exec_of_answered h.wellKeyed hmode hanswered, hapart, hanswered]
      · obtain ⟨_, hobserved, _⟩ := exec_of_accepted hmode hrefused hanswered
        rw [Apart, Screened, hobserved, h.given, ← List.concat_eq_append, List.nodup_concat]
        simp [hmode, hrefused, hanswered, hapart]
  · have hobserved := (exec_of_keeps h.wellKeyed hmode).1
    simp [Apart, Screened, hobserved, hapart, hmode]

/-- Of the calls that are stopped only the refused ones return an error. -/
theorem exclusive_iff (h : s.Bookkept) (hapart : s.observedIds.Nodup) :
    s.Exclusive r ↔ s.Guarded r := by
  constructor
  · intro hexclusive hmode
    by_contra hnot
    obtain ⟨hrefused, hgiven⟩ := not_or.mp hnot
    have hobserved := (h.given _).mp (not_not.mp hgiven)
    obtain ⟨⟨err, herr⟩, _⟩ := hexclusive.rejected hmode hobserved
    have hok : (s.exec r).2 = .ok () := by
      by_cases hanswered : s.Answered r
      · rw [exec_of_answered h.wellKeyed hmode hanswered]
      · exact (exec_of_accepted hmode hrefused hanswered).1
    rw [hok] at herr
    cases herr
  · intro hguarded
    refine ⟨(apart_iff h hapart).mpr fun hmode => (hguarded hmode).imp_right .inr, ?_⟩
    intro hmode hobserved
    have hrefused := (hguarded hmode).resolve_right (not_not.mpr ((h.given _).mpr hobserved))
    obtain ⟨err, hexec⟩ := exec_of_refused hmode hrefused
    rw [hexec]
    exact ⟨⟨err, rfl⟩, rfl⟩

/-- A property of the calls that keeps the identities apart can be replaced along a run by
what it amounts to while they are apart. -/
theorem along_iff_along (hfresh : s.Fresh)
    {property condition : Registrations ι B K V → Registering ι B → Prop}
    (hapart : ∀ s r, property s r → s.Apart r)
    (hiff : ∀ s r, s.Bookkept → s.observedIds.Nodup → (property s r ↔ condition s r))
    (calls : List (Registering ι B)) :
    step.Along property s calls ↔ step.Along condition s calls := by
  have hdistinct : s.observedIds.Nodup := by
    rw [observedIds, hfresh.inner]
    exact List.nodup_nil
  apply StepFn.along_congr (fun s : Registrations ι B K V => s.Bookkept ∧ s.observedIds.Nodup)
    ?_ ?_ ⟨hfresh.bookkept, hdistinct⟩
  · exact fun r _ s h => hiff s r h.1 h.2
  · rintro r - s next ⟨h, _⟩ hproperty hstep
    obtain rfl := Option.some.inj hstep
    exact ⟨h.exec, hapart s r hproperty⟩

/-- Whatever is registered, through either door and through any collections: no identity
ever gets a second destructive observer, and every call that is to register one is
rejected, exactly if every destructive call is refused or has an identity that is new to
all doors.  If calls that are answered may pass as well, the identities still stay apart,
exactly then; such a call registers nothing. -/
theorem along_exclusive_iff (hfresh : s.Fresh) (calls : List (Registering ι B)) :
    (step.Along Exclusive s calls ↔ step.Along Guarded s calls) ∧
    (step.Along Apart s calls ↔ step.Along Screened s calls) ∧
    step.Along (fun s r => r.call.mode = .destructive → s.Answered r → s.exec r = (s, .ok ()))
      s calls := by
  refine ⟨along_iff_along hfresh (fun _ _ h => h.apart) (fun _ _ => exclusive_iff) calls,
    along_iff_along hfresh (fun _ _ h => h) (fun _ _ => apart_iff) calls, ?_⟩
  refine (StepFn.along_congr Bookkept ?_ ?_ hfresh.bookkept).mp (StepFn.along_true s calls)
  · exact fun r _ s h => iff_of_true trivial fun hmode => exec_of_answered h.wellKeyed hmode
  · rintro r - s next h - hstep
    obtain rfl := Option.some.inj hstep
    exact h.exec

/-- A collector and a collection of it alone. -/
def alone : Registrations Unit Nat Nat UInt64 where
  inner := .new
  collections _ := ⟨[.this], ∅, List.mem_singleton_self _⟩
  direct := []

theorem fresh_alone : alone.Fresh := ⟨rfl, fun _ => rfl, rfl⟩

/-- Counters of unsigned and of signed numbers, of one name. -/
def unsigned : AddCall Nat := ⟨⟨⟨"requests", "", ""⟩, 0, .counter, 1⟩, .destructive, 0⟩

def signed : AddCall Nat := ⟨⟨⟨"requests", "", ""⟩, 1, .counter, 2⟩, .destructive, 1⟩

theorem not_given_alone (id : NameIdentity) : ¬ alone.Given id := by
  simp [Given, HasDestructive, alone, Inner.new]

/-- What the collector was given directly it refuses the second time; what the collection
has it answers. -/
theorem along_exclusive_alone :
    (step.Along Exclusive alone [.add unsigned, .add signed] ∧
      ((alone.exec (.add unsigned)).1.exec (.add signed)).2 = .error .duplicateDestructive) ∧
    (step.Along Apart alone
        [.collect () unsigned fun _ => .ok (), .collect () unsigned fun _ => .ok ()] ∧
      ((alone.exec (.collect () unsigned fun _ => .ok ())).1.exec
        (.collect () unsigned fun _ => .ok ())).2 = .ok ()) := by
  refine ⟨⟨(along_exclusive_iff fresh_alone _).1.mpr ?_, rfl⟩,
    ⟨(along_exclusive_iff fresh_alone _).2.1.mpr ?_, rfl⟩⟩
  · refine ⟨fun _ => .inr (not_given_alone _), fun next hnext => ⟨fun _ => .inl ?_, ?_⟩⟩
    · obtain rfl := Option.some.inj hnext
      exact Finset.mem_insert_self _ _
    · exact fun _ _ => trivial
  · refine ⟨fun _ => .inr (.inr (not_given_alone _)), fun next hnext =>
      ⟨fun _ => .inr (.inl ?_), ?_⟩⟩
    · obtain rfl := Option.some.inj hnext
      exact ⟨rfl, _, rfl, rfl⟩
    · exact fun _ _ => trivial

/-- A counter that was added to the collector directly, and then to its collection; and
two counters of one name and different types that were added to the collection.  Both
times both calls succeed, and the name has two destructive observers. -/
theorem two_destructive_observers :
    (let added := alone.exec (.add unsigned)
      let again := added.1.exec (.collect () unsigned fun _ => .ok ())
      added.2 = .ok () ∧ again.2 = .ok () ∧
        again.1.observedIds = [⟨"requests", "", ""⟩, ⟨"requests", "", ""⟩]) ∧
    (let added := alone.exec (.collect () unsigned fun _ => .ok ())
      let again := added.1.exec (.collect () signed fun _ => .ok ())
      added.2 = .ok () ∧ again.2 = .ok () ∧
        again.1.observedIds = [⟨"requests", "", ""⟩, ⟨"requests", "", ""⟩]) ∧
    ¬ step.Along Exclusive alone [.add unsigned, .collect () unsigned fun _ => .ok ()] := by
  refine ⟨⟨rfl, rfl, rfl⟩, ⟨rfl, rfl, rfl⟩, fun halong => ?_⟩
  have hdistinct : (alone.exec (.add unsigned)).1.Apart (.collect () unsigned fun _ => .ok ()) :=
    (halong.2 _ rfl).1.apart
  revert hdistinct
  rw [Apart]
  decide

end Registrations

end Ohnotel.Periodic
