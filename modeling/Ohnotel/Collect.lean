/-
# Registering a source with several collectors

A collection hands every source it is given to each of its collectors in turn, and
remembers the source under its identity and its type.  A pull collector keeps a handle
of any source; a push collector builds an observer and may reject the source.  The
collectors are told one after the other, up to the first that rejects the source, and
nothing takes back what those before it have kept.  A call therefore leaves all or
nothing behind exactly when the collectors agree, or the first of them rejects.
-/

import Ohnotel.Observe.Basic
import Mathlib.Data.List.AList

namespace Ohnotel

open Foundation

/-- The identity of a type. -/
abbrev TypeId : Type := Nat

/-- `MetricSource`, with its type.  `buckets` is the map that the clones of a source
share. -/
structure Source (B : Type) where
  id : NameIdentity
  typeId : TypeId
  kind : Kind
  buckets : B
  deriving DecidableEq

structure RegistryKey where
  id : NameIdentity
  typeId : TypeId
  deriving DecidableEq

/-- What a collection remembers of a source; the source's own type is forgotten. -/
structure RegistryEntry (B : Type) where
  mode : Mode
  source : Source B

abbrev Registry (B : Type) : Type := AList fun _ : RegistryKey => RegistryEntry B

/-- The key a source is registered under. -/
def Source.key {B : Type} (source : Source B) : RegistryKey where
  id := source.id
  typeId := source.typeId

/-- `downcast_ref`: the source, if it has the given type. -/
def RegistryEntry.downcast {B : Type} (entry : RegistryEntry B) (typeId : TypeId) :
    Option (Source B) :=
  if entry.source.typeId = typeId then some entry.source else none

/-- A collector: what its `add_source` builds for a source, or why it rejects it, and
what it has built so far. -/
structure Collector (B R : Type) where
  build : Source B → Mode → SystemTime → Except Error R
  held : List R

/-- What a pull or a push collector keeps of a source. -/
inductive Registration (B K V : Type)
  | handle (id : NameIdentity) (buckets : B) (kind : Kind)
  | observer (buckets : B) (observer : SyncObserver K V)

/-- A Prometheus collector keeps a handle, whatever the mode. -/
def Collector.prometheus (B K V : Type) : Collector B (Registration B K V) where
  build source _ _ := .ok (.handle source.id source.buckets source.kind)
  held := []

/-- A push collector keeps an observer. -/
def Collector.push (B K V : Type) : Collector B (Registration B K V) where
  build source mode now :=
    (SyncObserver.new source.id source.kind mode now).map (.observer source.buckets)
  held := []

variable {B R : Type}

/-- `AddSource::add_source`. -/
def Collector.addSource (c : Collector B R) (source : Source B) (mode : Mode)
    (now : SystemTime) : Except Error (Collector B R) :=
  (c.build source mode now).map fun built => { c with held := c.held ++ [built] }

/-- `RegisterAll::register_all`: the collectors as it leaves them, and what it returns. -/
def registerAll (source : Source B) (mode : Mode) (now : SystemTime) :
    List (Collector B R) → List (Collector B R) × Except Error Unit
  | [] => ([], .ok ())
  | c :: rest =>
      match c.addSource source mode now with
      | .error err => (c :: rest, .error err)
      | .ok added =>
          let later := registerAll source mode now rest
          (added :: later.1, later.2)

/-- One call of `Collection::add`; the observers it builds start at `now`. -/
structure AddCall (B : Type) where
  source : Source B
  mode : Mode
  now : SystemTime

/-! ## Telling the collectors -/

namespace Collector

/-- The collector accepts the source of the call. -/
def Accepts (c : Collector B R) (call : AddCall B) : Prop :=
  ∃ built, c.build call.source call.mode call.now = .ok built

/-- What the collector makes of the source of an entry. -/
def Registers (c : Collector B R) (entry : RegistryEntry B) (built : R) : Prop :=
  ∃ now, c.build entry.source entry.mode now = .ok built

/-- The collector has accepted the source of the call. -/
def Told (call : AddCall B) (c told : Collector B R) : Prop :=
  ∃ built, c.build call.source call.mode call.now = .ok built ∧
    told = { c with held := c.held ++ [built] }

theorem addSource_of_accepts {c : Collector B R} {call : AddCall B} (h : c.Accepts call) :
    ∃ told, c.Told call told ∧ c.addSource call.source call.mode call.now = .ok told := by
  obtain ⟨built, hbuilt⟩ := h
  exact ⟨_, ⟨built, hbuilt, rfl⟩, by rw [addSource, hbuilt]; rfl⟩

theorem addSource_of_not_accepts {c : Collector B R} {call : AddCall B} (h : ¬ c.Accepts call) :
    ∃ err, c.addSource call.source call.mode call.now = .error err := by
  cases hbuild : c.build call.source call.mode call.now with
  | ok built => exact absurd ⟨built, hbuild⟩ h
  | error err => exact ⟨err, by rw [addSource, hbuild]; rfl⟩

end Collector

section RegisterAll

variable {collectors : List (Collector B R)} {call : AddCall B}

theorem registerAll_of_accepts (haccepts : ∀ c ∈ collectors, c.Accepts call) :
    ∃ told, (∀ after ∈ told, ∃ c ∈ collectors, c.Told call after) ∧
      registerAll call.source call.mode call.now collectors = (told, .ok ()) := by
  induction collectors with
  | nil => exact ⟨[], by simp, rfl⟩
  | cons c rest ih =>
      obtain ⟨first, hfirst, hadd⟩ := Collector.addSource_of_accepts (haccepts c List.mem_cons_self)
      obtain ⟨later, hlater, hrest⟩ := ih fun other hother =>
        haccepts other (List.mem_cons_of_mem c hother)
      refine ⟨first :: later, ?_, by simp only [registerAll, hadd, hrest]⟩
      intro after hafter
      rcases List.mem_cons.mp hafter with rfl | hafter
      · exact ⟨c, List.mem_cons_self, hfirst⟩
      · obtain ⟨other, hother, htold⟩ := hlater after hafter
        exact ⟨other, List.mem_cons_of_mem c hother, htold⟩

/-- Whatever it returns, each collector has accepted the source or is as it was. -/
theorem forall₂_registerAll (call : AddCall B) (collectors : List (Collector B R)) :
    List.Forall₂ (fun c after => after = c ∨ c.Told call after) collectors
      (registerAll call.source call.mode call.now collectors).1 := by
  have hsame : ∀ rest : List (Collector B R),
      List.Forall₂ (fun c after => after = c ∨ c.Told call after) rest rest :=
    fun rest => List.forall₂_same.mpr fun _ _ => .inl rfl
  induction collectors with
  | nil => exact .nil
  | cons c rest ih =>
      rw [registerAll]
      by_cases haccepts : c.Accepts call
      · obtain ⟨told, htold, hadd⟩ := Collector.addSource_of_accepts haccepts
        rw [hadd]
        exact .cons (.inr htold) ih
      · obtain ⟨err, hadd⟩ := Collector.addSource_of_not_accepts haccepts
        rw [hadd]
        exact hsame (c :: rest)

/-- One collector that rejects the source is enough for an error. -/
theorem registerAll_of_rejects {c : Collector B R} (hmem : c ∈ collectors)
    (hrejects : ¬ c.Accepts call) :
    ∃ err, (registerAll call.source call.mode call.now collectors).2 = .error err := by
  induction collectors with
  | nil => simp at hmem
  | cons first rest ih =>
      rw [registerAll]
      by_cases hfirst : first.Accepts call
      · obtain ⟨told, _, hadd⟩ := Collector.addSource_of_accepts hfirst
        have hrest : c ∈ rest := by
          rcases List.mem_cons.mp hmem with rfl | hrest
          · exact absurd hfirst hrejects
          · exact hrest
        rw [hadd]
        exact ih hrest
      · obtain ⟨err, hadd⟩ := Collector.addSource_of_not_accepts hfirst
        exact ⟨err, by rw [hadd]⟩

theorem registerAll_of_first_rejects {c : Collector B R} (hfirst : c ∈ collectors.head?)
    (hrejects : ¬ c.Accepts call) :
    ∃ err, registerAll call.source call.mode call.now collectors = (collectors, .error err) := by
  obtain ⟨rest, rfl⟩ := List.head?_eq_some_iff.mp hfirst
  obtain ⟨err, hadd⟩ := Collector.addSource_of_not_accepts hrejects
  exact ⟨err, by simp only [registerAll, hadd]⟩

/-- The first collector keeps what it has accepted, whatever the others do. -/
theorem registerAll_of_first_accepts {c : Collector B R} (rest : List (Collector B R))
    (haccepts : c.Accepts call) :
    ∃ told ∈ (registerAll call.source call.mode call.now (c :: rest)).1, c.Told call told := by
  obtain ⟨told, htold, hadd⟩ := Collector.addSource_of_accepts haccepts
  refine ⟨told, ?_, htold⟩
  rw [registerAll, hadd]
  exact List.mem_cons_self

end RegisterAll

/-! ## The collection -/

structure Collection (B R : Type) where
  collectors : List (Collector B R)
  registry : Registry B

namespace Collection

/-- `Collection::new`. -/
def new (collectors : List (Collector B R)) : Collection B R where
  collectors := collectors
  registry := ∅

/-- What `add` does with a source it does not return early for. -/
def register (s : Collection B R) (call : AddCall B) :
    Collection B R × Except Error (Source B) :=
  let told := registerAll call.source call.mode call.now s.collectors
  match told.2 with
  | .error err => ({ s with collectors := told.1 }, .error err)
  | .ok () =>
      ({ collectors := told.1
         registry := s.registry.insert call.source.key ⟨call.mode, call.source⟩ },
        .ok call.source)

/-- `Collection::add`. -/
def add (s : Collection B R) (call : AddCall B) : Collection B R × Except Error (Source B) :=
  if call.mode = .destructive ∧ s.collectors.length ≠ 1 then
    (s, .error .destructiveWithMultipleCollectors)
  else
    match s.registry.lookup call.source.key with
    | some entry =>
        if entry.mode ≠ call.mode then (s, .error .modeMismatch)
        else
          match entry.downcast call.source.typeId with
          | some existing => (s, .ok existing)
          | none => s.register call
    | none => s.register call

/-- A call, whatever it returns, as a step that is always enabled. -/
def step : StepFn (Collection B R) (AddCall B) := fun s call => some (s.add call).1

/-- Perform calls in order. -/
def addAll (s : Collection B R) (calls : List (AddCall B)) : Collection B R :=
  calls.foldl (fun s call => (s.add call).1) s

/-! ## What each call preserves -/

/-- The collectors hold one registration for every entry of the registry, in the order
in which they were entered, and no other. -/
def Exact (s : Collection B R) : Prop :=
  ∀ c ∈ s.collectors,
    List.Forall₂ (fun entry built => c.Registers entry.2 built) s.registry.entries.reverse c.held

/-- Every entry is filed under the key of its source. -/
def WellKeyed (s : Collection B R) : Prop :=
  ∀ key entry, s.registry.lookup key = some entry → entry.source.key = key

/-- The call is handed on to the collectors. -/
def Reaches (s : Collection B R) (call : AddCall B) : Prop :=
  ¬ (call.mode = .destructive ∧ s.collectors.length ≠ 1) ∧
    s.registry.lookup call.source.key = none

/-- If the call is handed on to the collectors, then all of them accept the source, or
the first of them rejects it. -/
def Settled (s : Collection B R) (call : AddCall B) : Prop :=
  s.Reaches call →
    (∀ c ∈ s.collectors, c.Accepts call) ∨ ∃ c ∈ s.collectors.head?, ¬ c.Accepts call

/-- The call leaves all of a registration behind or nothing. -/
structure AllOrNothing (s : Collection B R) (call : AddCall B) : Prop where
  exact : (s.add call).1.Exact
  error : ∀ err, (s.add call).2 = .error err → (s.add call).1 = s
  repeated : ∀ entry, s.registry.lookup call.source.key = some entry →
    ∀ source, (s.add call).2 = .ok source → (s.add call).1 = s ∧ source = entry.source

section Calls

variable {s : Collection B R} {call : AddCall B}

theorem WellKeyed.downcast (h : s.WellKeyed) {entry : RegistryEntry B}
    (hlookup : s.registry.lookup call.source.key = some entry) :
    entry.downcast call.source.typeId = some entry.source :=
  if_pos (congrArg RegistryKey.typeId (h _ _ hlookup))

/-- A call whose source is registered, or that is rejected beforehand, changes nothing;
if it returns a source, that is the registered one. -/
theorem add_of_not_reaches (h : s.WellKeyed) (hreaches : ¬ s.Reaches call) :
    (s.add call).1 = s ∧
      ∀ source, (s.add call).2 = .ok source →
        ∃ entry, s.registry.lookup call.source.key = some entry ∧ source = entry.source := by
  rw [add]
  by_cases hdestructive : call.mode = .destructive ∧ s.collectors.length ≠ 1
  · simp [hdestructive]
  · rw [if_neg hdestructive]
    cases hlookup : s.registry.lookup call.source.key with
    | none => exact absurd ⟨hdestructive, hlookup⟩ hreaches
    | some entry =>
        by_cases hmode : entry.mode = call.mode
        · simp [hmode, h.downcast hlookup]
        · simp [hmode]

theorem add_of_reaches (hreaches : s.Reaches call) : s.add call = s.register call := by
  rw [add, if_neg hreaches.1, hreaches.2]

theorem not_reaches_of_lookup {entry : RegistryEntry B}
    (hlookup : s.registry.lookup call.source.key = some entry) : ¬ s.Reaches call := by
  simp [Reaches, hlookup]

/-- If all collectors accept the source, it is registered with each of them. -/
theorem register_of_accepts (haccepts : ∀ c ∈ s.collectors, c.Accepts call) :
    ∃ told, (∀ after ∈ told, ∃ c ∈ s.collectors, c.Told call after) ∧
      s.register call =
        ({ collectors := told
           registry := s.registry.insert call.source.key ⟨call.mode, call.source⟩ },
          .ok call.source) := by
  obtain ⟨told, htold, hall⟩ := registerAll_of_accepts haccepts
  exact ⟨told, htold, by simp only [register, hall]⟩

/-- If the first collector rejects the source, nothing changes. -/
theorem register_of_first_rejects {c : Collector B R} (hfirst : c ∈ s.collectors.head?)
    (hrejects : ¬ c.Accepts call) : ∃ err, s.register call = (s, .error err) := by
  obtain ⟨err, hall⟩ := registerAll_of_first_rejects hfirst hrejects
  exact ⟨err, by simp only [register, hall]⟩

/-- Registering with collectors that all accept keeps their registrations in step with
the registry. -/
theorem Exact.register (h : s.Exact) (hreaches : s.Reaches call)
    (haccepts : ∀ c ∈ s.collectors, c.Accepts call) : (s.register call).1.Exact := by
  obtain ⟨told, htold, hregister⟩ := register_of_accepts haccepts
  rw [hregister]
  intro after hafter
  obtain ⟨before, hbefore, built, hbuilt, rfl⟩ := htold after hafter
  have hentries : (s.registry.insert call.source.key ⟨call.mode, call.source⟩).entries.reverse =
      s.registry.entries.reverse ++ [⟨call.source.key, call.mode, call.source⟩] := by
    rw [AList.entries_insert_of_notMem (AList.lookup_eq_none.mp hreaches.2), List.reverse_cons]
  rw [hentries]
  exact List.rel_append (h before hbefore) (.cons ⟨call.now, hbuilt⟩ .nil)

/-- If the first collector accepts the source and another rejects it, the first keeps
a registration that the registry knows nothing of. -/
theorem Exact.not_register (h : s.Exact) {first c : Collector B R}
    (hfirst : first ∈ s.collectors.head?) (haccepts : first.Accepts call)
    (hmem : c ∈ s.collectors) (hrejects : ¬ c.Accepts call) : ¬ (s.register call).1.Exact := by
  obtain ⟨rest, hcollectors⟩ := List.head?_eq_some_iff.mp hfirst
  obtain ⟨err, herr⟩ := registerAll_of_rejects hmem hrejects
  obtain ⟨told, htold, built, hbuilt, rfl⟩ :=
    registerAll_of_first_accepts rest haccepts
  rw [← hcollectors] at htold
  have hregister : (s.register call).1 =
      { s with collectors := (registerAll call.source call.mode call.now s.collectors).1 } := by
    simp only [Collection.register, herr]
  intro hexact
  have hbefore := (h first (hcollectors ▸ List.mem_cons_self)).length_eq
  have hafter := (hexact _ (by rw [hregister]; exact htold)).length_eq
  rw [hregister, hbefore, List.length_append, List.length_singleton] at hafter
  omega

/-- A call leaves all or nothing behind if and only if the collectors agree on it, or
the first of them rejects it, or they are not asked. -/
theorem allOrNothing_iff (hkeyed : s.WellKeyed) (hexact : s.Exact) :
    s.AllOrNothing call ↔ s.Settled call := by
  constructor
  · intro hall hreaches
    by_contra hnot
    obtain ⟨hsome, hfirst⟩ := not_or.mp hnot
    push Not at hsome hfirst
    obtain ⟨c, hmem, hrejects⟩ := hsome
    obtain ⟨first, hhead⟩ := Option.isSome_iff_exists.mp
      (List.isSome_head?.mpr (List.ne_nil_of_mem hmem))
    have hexact' := hall.exact
    rw [add_of_reaches hreaches] at hexact'
    exact hexact.not_register hhead (hfirst first hhead) hmem hrejects hexact'
  · intro hsettled
    by_cases hreaches : s.Reaches call
    · have hnew : ∀ entry, s.registry.lookup call.source.key ≠ some entry := by
        simp [hreaches.2]
      rcases hsettled hreaches with haccepts | ⟨first, hhead, hrejects⟩
      · obtain ⟨told, _, hregister⟩ := register_of_accepts haccepts
        exact
          { exact := by
              rw [add_of_reaches hreaches]
              exact hexact.register hreaches haccepts
            error := by simp [add_of_reaches hreaches, hregister]
            repeated := fun entry hlookup => absurd hlookup (hnew entry) }
      · obtain ⟨err, hregister⟩ := register_of_first_rejects hhead hrejects
        exact
          { exact := by rw [add_of_reaches hreaches, hregister]; exact hexact
            error := by simp [add_of_reaches hreaches, hregister]
            repeated := fun entry hlookup => absurd hlookup (hnew entry) }
    · obtain ⟨hsame, hreturned⟩ := add_of_not_reaches hkeyed hreaches
      exact
        { exact := by rw [hsame]; exact hexact
          error := fun _ _ => hsame
          repeated := by
            intro entry hlookup source hok
            obtain ⟨found, hfound, rfl⟩ := hreturned source hok
            obtain rfl : entry = found := Option.some_inj.mp (hlookup.symm.trans hfound)
            exact ⟨hsame, rfl⟩ }

/-- What the registry holds under a key, and what a call returns for it. -/
theorem lookup_register {source : Source B} (hok : (s.register call).2 = .ok source) :
    source = call.source ∧ (s.register call).1.registry =
      s.registry.insert call.source.key ⟨call.mode, call.source⟩ := by
  revert hok
  rw [register]
  cases (registerAll call.source call.mode call.now s.collectors).2 with
  | error err => simp
  | ok _ => exact fun hok => ⟨(Except.ok.inj hok).symm, rfl⟩

/-- The registry changes by the entry of a source that was not registered, or not at
all. -/
theorem registry_add (h : s.WellKeyed) (call : AddCall B) :
    (s.add call).1.registry = s.registry ∨
      s.registry.lookup call.source.key = none ∧
        (s.add call).1.registry =
          s.registry.insert call.source.key ⟨call.mode, call.source⟩ := by
  by_cases hreaches : s.Reaches call
  · rw [add_of_reaches hreaches, register]
    cases (registerAll call.source call.mode call.now s.collectors).2 with
    | error err => exact .inl rfl
    | ok _ => exact .inr ⟨hreaches.2, rfl⟩
  · exact .inl (congrArg registry (add_of_not_reaches h hreaches).1)

theorem forall₂_add (h : s.WellKeyed) (call : AddCall B) :
    List.Forall₂ (fun c after => after = c ∨ c.Told call after) s.collectors
      (s.add call).1.collectors := by
  by_cases hreaches : s.Reaches call
  · have htold := forall₂_registerAll call s.collectors
    rw [add_of_reaches hreaches, register]
    revert htold
    generalize registerAll call.source call.mode call.now s.collectors = told
    cases told.2 with
    | error err => exact id
    | ok _ => exact id
  · rw [(add_of_not_reaches h hreaches).1]
    exact List.forall₂_same.mpr fun _ _ => .inl rfl

theorem WellKeyed.add (h : s.WellKeyed) : (s.add call).1.WellKeyed := by
  intro key entry hlookup
  rcases registry_add h call with hsame | ⟨_, hinsert⟩
  · exact h key entry (hsame ▸ hlookup)
  · rw [hinsert] at hlookup
    by_cases hkey : key = call.source.key
    · subst hkey
      rw [AList.lookup_insert] at hlookup
      rw [← Option.some_inj.mp hlookup]
    · rw [AList.lookup_insert_ne hkey] at hlookup
      exact h key entry hlookup

/-- An entry stays as it is. -/
theorem lookup_add (h : s.WellKeyed) {key : RegistryKey} {entry : RegistryEntry B}
    (hlookup : s.registry.lookup key = some entry) :
    (s.add call).1.registry.lookup key = some entry := by
  rcases registry_add h call with hsame | ⟨hnone, hinsert⟩
  · rw [hsame, hlookup]
  · have hkey : key ≠ call.source.key := by
      rintro rfl
      simp [hnone] at hlookup
    rw [hinsert, AList.lookup_insert_ne hkey, hlookup]

/-- The source a call returns is the one that is then registered under its key. -/
theorem lookup_add_of_ok (h : s.WellKeyed) {source : Source B}
    (hok : (s.add call).2 = .ok source) :
    ∃ entry, (s.add call).1.registry.lookup call.source.key = some entry ∧
      source = entry.source := by
  by_cases hreaches : s.Reaches call
  · rw [add_of_reaches hreaches] at hok ⊢
    obtain ⟨rfl, hregistry⟩ := lookup_register hok
    exact ⟨_, by rw [hregistry, AList.lookup_insert], rfl⟩
  · obtain ⟨hsame, hreturned⟩ := add_of_not_reaches h hreaches
    rw [hsame]
    exact hreturned source hok

theorem wellKeyed_addAll (h : s.WellKeyed) (calls : List (AddCall B)) :
    (s.addAll calls).WellKeyed := by
  induction calls generalizing s with
  | nil => exact h
  | cons call rest ih => exact ih h.add

theorem lookup_addAll (h : s.WellKeyed) {key : RegistryKey} {entry : RegistryEntry B}
    (hlookup : s.registry.lookup key = some entry) (calls : List (AddCall B)) :
    (s.addAll calls).registry.lookup key = some entry := by
  induction calls generalizing s with
  | nil => exact hlookup
  | cons call rest ih => exact ih h.add (lookup_add h hlookup)

/-- A later call with the same key that returns a source returns the one an earlier
call returned, and changes nothing. -/
theorem add_again (h : s.WellKeyed) {again : AddCall B} (hkey : again.source.key = call.source.key)
    {first second : Source B} (hfirst : (s.add call).2 = .ok first) (between : List (AddCall B))
    (hsecond : (((s.add call).1.addAll between).add again).2 = .ok second) :
    second = first ∧
      (((s.add call).1.addAll between).add again).1 = (s.add call).1.addAll between := by
  obtain ⟨entry, hlookup, rfl⟩ := lookup_add_of_ok h hfirst
  have hlater := lookup_addAll h.add hlookup between
  rw [← hkey] at hlater
  obtain ⟨hsame, hreturned⟩ :=
    add_of_not_reaches (wellKeyed_addAll h.add between) (not_reaches_of_lookup hlater)
  obtain ⟨found, hfound, rfl⟩ := hreturned second hsecond
  obtain rfl : entry = found := Option.some_inj.mp (hlater.symm.trans hfound)
  exact ⟨rfl, hsame⟩

end Calls

/-! ## Runs -/

variable {collectors : List (Collector B R)}

theorem wellKeyed_new : (new collectors).WellKeyed := by
  intro key entry hlookup
  simp [new] at hlookup

theorem exact_new (hfresh : ∀ c ∈ collectors, c.held = []) : (new collectors).Exact := by
  intro c hc
  rw [hfresh c hc]
  exact .nil

/-- The first of the builders accepts nothing that another rejects. -/
def StrictestFirst (builds : List (Source B → Mode → SystemTime → Except Error R)) : Prop :=
  ∀ first ∈ builds.head?, ∀ build ∈ builds, ∀ source mode now built,
    first source mode now = .ok built → ∃ other, build source mode now = .ok other

theorem builds_registerAll (call : AddCall B) (collectors : List (Collector B R)) :
    (registerAll call.source call.mode call.now collectors).1.map Collector.build =
      collectors.map Collector.build := by
  induction collectors with
  | nil => rfl
  | cons c rest ih =>
      by_cases haccepts : c.Accepts call
      · obtain ⟨told, ⟨built, _, rfl⟩, hadd⟩ := Collector.addSource_of_accepts haccepts
        simp only [registerAll, hadd, List.map_cons, ih]
      · obtain ⟨err, hadd⟩ := Collector.addSource_of_not_accepts haccepts
        simp only [registerAll, hadd, List.map_cons]

/-- No call changes what a collector accepts. -/
theorem builds_add (s : Collection B R) (call : AddCall B) (h : s.WellKeyed) :
    (s.add call).1.collectors.map Collector.build = s.collectors.map Collector.build := by
  by_cases hreaches : s.Reaches call
  · rw [add_of_reaches hreaches, ← builds_registerAll call s.collectors, register]
    cases (registerAll call.source call.mode call.now s.collectors).2 with
    | error err => rfl
    | ok _ => rfl
  · rw [(add_of_not_reaches h hreaches).1]

theorem settled_of_strictest_first {s : Collection B R} {call : AddCall B}
    (hstrictest : StrictestFirst (s.collectors.map Collector.build)) : s.Settled call := by
  intro _
  cases hcollectors : s.collectors with
  | nil => exact .inl (by simp)
  | cons first rest =>
      rw [hcollectors] at hstrictest
      by_cases haccepts : first.Accepts call
      · obtain ⟨built, hbuilt⟩ := haccepts
        exact .inl fun c hc => hstrictest first.build rfl c.build
          (List.mem_map_of_mem hc) call.source call.mode call.now built hbuilt
      · exact .inr ⟨first, rfl, haccepts⟩

/-- With the strictest collector first, no call leaves part of a registration behind. -/
theorem along_settled_of_strictest_first
    (hstrictest : StrictestFirst (collectors.map Collector.build)) (calls : List (AddCall B)) :
    step.Along Settled (new collectors) calls := by
  suffices h : ∀ s : Collection B R, s.WellKeyed →
      StrictestFirst (s.collectors.map Collector.build) → step.Along Settled s calls from
    h _ wellKeyed_new hstrictest
  induction calls with
  | nil => exact fun _ _ _ => trivial
  | cons call rest ih =>
      intro s hkeyed hs
      refine ⟨settled_of_strictest_first hs, ?_⟩
      intro next hstep
      obtain rfl : (s.add call).1 = next := Option.some_inj.mp hstep
      apply ih
      · exact hkeyed.add
      · rw [builds_add s call hkeyed]
        exact hs

/-- A push collector is at least as strict as any push or Prometheus collector. -/
theorem strictestFirst_push {K V : Type} {rest : List (Collector B (Registration B K V))}
    (hrest : ∀ c ∈ rest, c = Collector.push B K V ∨ c = Collector.prometheus B K V) :
    StrictestFirst ((Collector.push B K V :: rest).map Collector.build) := by
  intro first hfirst build hbuild source mode now built hbuilt
  obtain rfl : (Collector.push B K V).build = first := Option.some_inj.mp hfirst
  obtain ⟨c, hc, rfl⟩ := List.mem_map.mp hbuild
  rcases List.mem_cons.mp hc with rfl | hc
  · exact ⟨built, hbuilt⟩
  · rcases hrest c hc with rfl | rfl
    · exact ⟨built, hbuilt⟩
    · exact ⟨_, rfl⟩

/-- A tuple of different collectors that hold nothing yet, and any calls of `add`, failing ones
included: every call leaves all of a registration behind or nothing if and only if
every call that is handed on to the collectors is accepted by all of them or rejected by
the first.  Whether or not that is so, a repeated call that returns a source registers
nothing and returns the source that was registered first. -/
theorem all_or_nothing_iff (hfresh : ∀ c ∈ collectors, c.held = []) :
    (new collectors).Exact ∧
    (∀ calls, step.Along AllOrNothing (new collectors) calls ↔
      step.Along Settled (new collectors) calls) ∧
    ∀ before call between again, again.source.key = call.source.key →
      let s := (new collectors).addAll before
      let later := (s.add call).1.addAll between
      ∀ first second, (s.add call).2 = .ok first → (later.add again).2 = .ok second →
        second = first ∧ (later.add again).1 = later := by
  refine ⟨exact_new hfresh, fun calls => ?_, ?_⟩
  · refine StepFn.along_congr (fun s : Collection B R => s.WellKeyed ∧ s.Exact)
      (fun call _ s hs => allOrNothing_iff hs.1 hs.2) ?_ ⟨wellKeyed_new, exact_new hfresh⟩
    rintro call - s next ⟨hkeyed, _⟩ hall hstep
    obtain rfl : (s.add call).1 = next := Option.some_inj.mp hstep
    exact ⟨hkeyed.add, hall.exact⟩
  · intro before call between again hkey s later first second hfirst hsecond
    exact add_again (wellKeyed_addAll wellKeyed_new before) hkey hfirst between hsecond

/-- A push collector before a Prometheus collector: a gauge is rejected in delta mode,
then registered in direct mode, and a second gauge of the same name and type is not. -/
theorem all_or_nothing_iff_push_first :
    let gauge (buckets : Nat) : Source Nat := ⟨⟨"queue.depth", "", ""⟩, 0, .gauge, buckets⟩
    let s := new [Collector.push Nat Nat UInt64, Collector.prometheus Nat Nat UInt64]
    let calls : List (AddCall Nat) := [⟨gauge 1, .delta, 0⟩, ⟨gauge 1, .direct, 1⟩]
    step.Along AllOrNothing s calls ∧
      ((s.addAll calls).add ⟨gauge 2, .direct, 2⟩).2 = .ok (gauge 1) := by
  intro gauge s calls
  have hreturned : ((s.addAll calls).add ⟨gauge 2, .direct, 2⟩).2 = .ok (gauge 1) := by
    decide +kernel
  have hfirst : StrictestFirst (s.collectors.map Collector.build) :=
    strictestFirst_push (by simp)
  have hall : _ ∧ (∀ calls, step.Along AllOrNothing s calls ↔ step.Along Settled s calls) ∧ _ :=
    all_or_nothing_iff (by simp [Collector.push, Collector.prometheus])
  exact ⟨(hall.2.1 calls).mpr (along_settled_of_strictest_first hfirst calls), hreturned⟩

/-- A Prometheus collector before a push collector: a gauge rejected in delta mode leaves
a handle behind, and once it is registered in direct mode there are two handles for one
entry. -/
theorem handle_left_behind :
    let gauge : Source Nat := ⟨⟨"queue.depth", "", ""⟩, 0, .gauge, 1⟩
    let s := new [Collector.prometheus Nat Nat UInt64, Collector.push Nat Nat UInt64]
    let rejected := s.add ⟨gauge, .delta, 0⟩
    let retried := rejected.1.add ⟨gauge, .direct, 1⟩
    rejected.2 = .error .deltaForGauge ∧ rejected.1.registry.keys = [] ∧
      rejected.1.collectors.map (fun c => c.held.length) = [1, 0] ∧
      retried.2 = .ok gauge ∧ retried.1.registry.keys = [gauge.key] ∧
      retried.1.collectors.map (fun c => c.held.length) = [2, 1] ∧
      ¬ step.Along AllOrNothing s [⟨gauge, .delta, 0⟩, ⟨gauge, .direct, 1⟩] := by
  intro gauge s rejected retried
  refine ⟨rfl, rfl, rfl, rfl, rfl, rfl, ?_⟩
  intro halong
  have hsame := halong.1.error _ rfl
  have hheld : s.collectors.map (fun c => c.held.length) = [1, 0] := by
    conv_lhs => rw [← hsame]
    rfl
  exact absurd hheld (by decide)

end Collection
end Ohnotel
