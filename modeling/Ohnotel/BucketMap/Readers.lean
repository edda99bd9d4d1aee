/-
# Reads beside writers

Any number of threads ask a map of counters for single sets while any number of threads
write to it.  A read is no step of its own either: it searches the two tables one after
the other, each under a lock of its own, and loads the counter when it has given the locks
up.  A write may come between any two of these.

A number that a read returns is the total of its set at that moment, and what a read misses
had not been written when it began.  No read falls behind another that has returned before.
-/

import Ohnotel.BucketMap.Spelled

namespace Ohnotel

open Foundation Atomic

/-! ## Readers -/

/-- A call of `get`, with how many writes had been made and how many calls of `get` had
returned when it began. -/
structure Asked (K : Type) where
  attrs : List K
  begun : Nat
  earlier : Nat
  deriving DecidableEq

/-- A call that has returned: whose, its answer, and how many writes had been made then. -/
structure Got (ρ K : Type) extends Asked K where
  reader : ρ
  value : Option UInt64
  ended : Nat
  deriving DecidableEq

/-- Where a reader is within a call. -/
inductive Reading (K : Type)
  | idle
  | lookup (asked : Asked K) (left : List Probe)
  | load (asked : Asked K) (bucket : BucketRef)

/-- A map with its writers and its readers, and what the readers were answered. -/
structure Readers (ι ρ K : Type) where
  writers : Writers ι K
  reading : ρ → Reading K
  returned : List (Got ρ K)

/-- A writer takes a step, or a reader starts a call or continues one. -/
inductive ReadTurn (ι ρ K : Type)
  | write (turn : WriterTurn ι K)
  | get (r : ρ) (attrs : List K)
  | step (r : ρ)

namespace ReadTurn

variable {ι ρ K : Type}

/-- The writer's turn, if it is one. -/
def writerTurn : ReadTurn ι ρ K → Option (WriterTurn ι K)
  | .write turn => some turn
  | .get _ _ | .step _ => none

/-- The attribute lists that occur in a turn. -/
def lists : ReadTurn ι ρ K → List (List K)
  | .write turn => turn.turn.lists
  | .get _ attrs => [attrs]
  | .step _ => []

/-- The attribute lists that occur in a run. -/
def listsOf (turns : List (ReadTurn ι ρ K)) : Set (List K) :=
  {attrs | attrs ∈ turns.flatMap lists}

/-- The lists that writers were called with. -/
def called (turns : List (ReadTurn ι ρ K)) : List (List K) :=
  (calls (turns.filterMap writerTurn)).map fun c => c.2.attrs

end ReadTurn

namespace Readers

variable {ι ρ K : Type}

/-- The map they all share. -/
def map (s : Readers ι ρ K) : BucketMap K UInt64 := s.writers.shared.map

/-- The writes that were made. -/
def done (s : Readers ι ρ K) : List (Write K) := s.writers.recorded.map Recorded.write

section Steps

variable [DecidableEq ρ]

/-- A reader goes on within its call. -/
def place (s : Readers ι ρ K) (r : ρ) (reading : Reading K) : Readers ι ρ K :=
  { s with reading := Function.update s.reading r reading }

/-- A reader's call returns. -/
def answer (s : Readers ι ρ K) (r : ρ) (asked : Asked K) (value : Option UInt64) :
    Readers ι ρ K :=
  { s with
    reading := Function.update s.reading r .idle
    returned := s.returned ++ [⟨asked, r, value, s.writers.recorded.length⟩] }

@[simp]
theorem reading_place (s : Readers ι ρ K) (r : ρ) (reading : Reading K) :
    (s.place r reading).reading r = reading := Function.update_self _ _ _

@[simp]
theorem reading_answer (s : Readers ι ρ K) (r : ρ) (asked : Asked K) (value : Option UInt64) :
    (s.answer r asked value).reading r = .idle := Function.update_self _ _ _

variable [DecidableEq ι] [LinearOrder K] (cfg : Config K UInt64)

/-- The first step of a call: the empty list has its bucket at hand. -/
def start (s : Readers ι ρ K) (attrs : List K) : Reading K :=
  let asked : Asked K := ⟨attrs, s.writers.recorded.length, s.returned.length⟩
  if attrs.isEmpty then .load asked s.map.noAttrEntry.bucket
  else .lookup asked (Shared.probes attrs)

/-- One step. -/
def step (s : Readers ι ρ K) : ReadTurn ι ρ K → Option (Readers ι ρ K)
  | .write turn =>
      (Writers.step cfg s.writers turn).map fun writers => { s with writers := writers }
  | .get r attrs =>
      match s.reading r with
      | .idle => some (s.place r (s.start attrs))
      | _ => none
  | .step r =>
      match s.reading r with
      | .idle => none
      | .lookup asked (p :: left) =>
          match Shared.probe cfg s.map asked.attrs p with
          | some bucket => some (s.place r (.load asked bucket))
          | none => some (s.place r (.lookup asked left))
      | .lookup asked [] => some (s.answer r asked none)
      | .load asked bucket => some (s.answer r asked (some (Scalar.get (s.map.cells bucket))))

/-- A new map, idle writers and idle readers. -/
def init (ι ρ : Type) : Readers ι ρ K where
  writers := Writers.init cfg ι
  reading _ := .idle
  returned := []

/-! ## What a step can do -/

variable {cfg}

/-- The turns that change the state, each with what it requires. -/
inductive Stepped (cfg : Config K UInt64) (s : Readers ι ρ K) :
    ReadTurn ι ρ K → Readers ι ρ K → Prop
  | /-- A writer takes a step. -/
    write (turn : WriterTurn ι K) (writers : Writers ι K)
      (hstep : Writers.step cfg s.writers turn = some writers) :
      Stepped cfg s (.write turn) { s with writers := writers }
  | /-- A call begins. -/
    get (r : ρ) (attrs : List K) (hidle : s.reading r = .idle) :
      Stepped cfg s (.get r attrs) (s.place r (s.start attrs))
  | /-- A lookup finds the bucket. -/
    hit (r : ρ) (asked : Asked K) (p : Probe) (left : List Probe) (bucket : BucketRef)
      (hreading : s.reading r = .lookup asked (p :: left))
      (hhit : Shared.probe cfg s.map asked.attrs p = some bucket) :
      Stepped cfg s (.step r) (s.place r (.load asked bucket))
  | /-- A lookup finds nothing. -/
    miss (r : ρ) (asked : Asked K) (p : Probe) (left : List Probe)
      (hreading : s.reading r = .lookup asked (p :: left))
      (hmiss : Shared.probe cfg s.map asked.attrs p = none) :
      Stepped cfg s (.step r) (s.place r (.lookup asked left))
  | /-- A call gives up. -/
    giveUp (r : ρ) (asked : Asked K) (hreading : s.reading r = .lookup asked []) :
      Stepped cfg s (.step r) (s.answer r asked none)
  | /-- A call returns what it has loaded. -/
    load (r : ρ) (asked : Asked K) (bucket : BucketRef)
      (hreading : s.reading r = .load asked bucket) :
      Stepped cfg s (.step r) (s.answer r asked (some (s.map.cells bucket)))

theorem stepped_of_step {s s' : Readers ι ρ K} {turn : ReadTurn ι ρ K}
    (hstep : step cfg s turn = some s') : Stepped cfg s turn s' := by
  cases turn with
  | write turn =>
      obtain ⟨writers, hwriters, rfl⟩ := Option.map_eq_some_iff.mp hstep
      exact .write turn writers hwriters
  | get r attrs =>
      simp only [step] at hstep
      split at hstep
      · next hidle =>
          obtain rfl := Option.some_inj.mp hstep
          exact .get r attrs hidle
      · cases hstep
  | step r =>
      simp only [step] at hstep
      split at hstep
      · cases hstep
      · next asked p left hreading =>
          split at hstep
          · next bucket hhit =>
              obtain rfl := Option.some_inj.mp hstep
              exact .hit r asked p left bucket hreading hhit
          · next hmiss =>
              obtain rfl := Option.some_inj.mp hstep
              exact .miss r asked p left hreading hmiss
      · next asked hreading =>
          obtain rfl := Option.some_inj.mp hstep
          exact .giveUp r asked hreading
      · next asked bucket hreading =>
          obtain rfl := Option.some_inj.mp hstep
          exact .load r asked bucket hreading

end Steps

/-! ## What a call is bound to find -/

section Calls

variable [LinearOrder K] {cfg : Config K UInt64} {inUse : Set (List K)} {s s' : Readers ι ρ K}

/-- The writes that had been made when a call began, or an answer that had returned, bind it
to find the set. -/
def Owed (s : Readers ι ρ K) (asked : Asked K) : Prop :=
  (Live ((s.done.take asked.begun).map Write.attrs) asked.attrs ∧
    Readable ((s.done.take asked.begun).map Write.attrs) asked.attrs) ∨
  ∃ g ∈ s.returned.take asked.earlier, g.attrs = asked.attrs ∧ g.value.isSome

/-- The call began with what was there then. -/
structure Began (s : Readers ι ρ K) (asked : Asked K) : Prop where
  begun : asked.begun ≤ s.writers.recorded.length
  earlier : asked.earlier ≤ s.returned.length
  ended : ∀ g ∈ s.returned.take asked.earlier, g.ended ≤ asked.begun

/-- What a reader relies on: as long as it owes an answer one of the lookups it has left will
find it, and a bucket it has is that of its set. -/
def Knows (cfg : Config K UInt64) (inUse : Set (List K)) (s : Readers ι ρ K) : Reading K → Prop
  | .idle => True
  | .lookup asked left => Began s asked ∧ asked.attrs ≠ [] ∧ asked.attrs ∈ inUse ∧
      (s.Owed asked → ∃ p ∈ left, BucketMap.Found cfg s.map asked.attrs p)
  | .load asked bucket => Began s asked ∧
      s.map.home asked.attrs.toFinset = some bucket ∧
      (asked.attrs ≠ [] → asked.attrs ∈ inUse ∧ BucketMap.Known cfg s.map asked.attrs)

/-- What holds of an answer from then on. -/
structure Right (cfg : Config K UInt64) (inUse : Set (List K)) (s : Readers ι ρ K)
    (g : Got ρ K) : Prop where
  began : Began s g.toAsked
  span : g.begun ≤ g.ended ∧ g.ended ≤ s.writers.recorded.length
  total : ∀ v, g.value = some v → v = Write.total g.attrs.toFinset (s.done.take g.ended)
  known : g.value.isSome → g.attrs ≠ [] →
    g.attrs ∈ inUse ∧ BucketMap.Known cfg s.map g.attrs
  missed : g.value = none → g.attrs ≠ [] ∧ ¬ s.Owed g.toAsked

/-- What is there stays there. -/
structure Grows (cfg : Config K UInt64) (s s' : Readers ι ρ K) : Prop where
  recorded : s.writers.recorded <+: s'.writers.recorded
  returned : s.returned <+: s'.returned
  found : ∀ attrs p, BucketMap.Found cfg s.map attrs p → BucketMap.Found cfg s'.map attrs p
  home : ∀ set bucket, s.map.home set = some bucket → s'.map.home set = some bucket

theorem Grows.known (h : Grows cfg s s') {attrs : List K}
    (hknown : BucketMap.Known cfg s.map attrs) : BucketMap.Known cfg s'.map attrs := by
  obtain ⟨p, hfound⟩ := BucketMap.known_iff_found.mp hknown
  exact BucketMap.known_iff_found.mpr ⟨p, h.found attrs p hfound⟩

theorem Grows.done (h : Grows cfg s s') {n : Nat} (hn : n ≤ s.writers.recorded.length) :
    s'.done.take n = s.done.take n := by
  obtain ⟨more, hmore⟩ := h.recorded
  rw [Readers.done, Readers.done, ← hmore, List.map_append,
    List.take_append_of_le_length (by simpa using hn)]

theorem Grows.taken (h : Grows cfg s s') {n : Nat} (hn : n ≤ s.returned.length) :
    s'.returned.take n = s.returned.take n := by
  obtain ⟨more, hmore⟩ := h.returned
  rw [← hmore, List.take_append_of_le_length hn]

theorem Began.grows {asked : Asked K} (h : Began s asked) (hgrows : Grows cfg s s') :
    Began s' asked where
  begun := h.begun.trans hgrows.recorded.length_le
  earlier := h.earlier.trans hgrows.returned.length_le
  ended := by
    rw [hgrows.taken h.earlier]
    exact h.ended

theorem Began.owed_iff {asked : Asked K} (h : Began s asked) (hgrows : Grows cfg s s') :
    s'.Owed asked ↔ s.Owed asked := by
  rw [Owed, Owed, hgrows.done h.begun, hgrows.taken h.earlier]

theorem Knows.grows {reading : Reading K} (h : Knows cfg inUse s reading)
    (hgrows : Grows cfg s s') : Knows cfg inUse s' reading := by
  cases reading with
  | idle => trivial
  | lookup asked left =>
      obtain ⟨hbegan, hne, huse, howed⟩ := h
      refine ⟨hbegan.grows hgrows, hne, huse, fun howes => ?_⟩
      obtain ⟨p, hp, hfound⟩ := howed ((hbegan.owed_iff hgrows).mp howes)
      exact ⟨p, hp, hgrows.found _ p hfound⟩
  | load asked bucket =>
      obtain ⟨hbegan, hhome, hknown⟩ := h
      refine ⟨hbegan.grows hgrows, hgrows.home _ _ hhome, fun hne => ?_⟩
      exact ⟨(hknown hne).1, hgrows.known (hknown hne).2⟩

theorem Right.grows {g : Got ρ K} (h : Right cfg inUse s g) (hgrows : Grows cfg s s') :
    Right cfg inUse s' g where
  began := h.began.grows hgrows
  span := ⟨h.span.1, h.span.2.trans hgrows.recorded.length_le⟩
  total v hv := by
    rw [hgrows.done h.span.2]
    exact h.total v hv
  known hsome hne := ⟨(h.known hsome hne).1, hgrows.known (h.known hsome hne).2⟩
  missed hnone := ⟨(h.missed hnone).1, fun howes =>
    (h.missed hnone).2 ((h.began.owed_iff hgrows).mp howes)⟩

/-- What a run of writers and readers keeps. -/
structure Kept (cfg : Config K UInt64) (inUse : Set (List K)) (s : Readers ι ρ K) : Prop where
  sound : Writers.Sound cfg inUse s.writers
  spelled : Writers.Spelled cfg s.writers
  lists : ∀ w ∈ s.done, w.attrs ∈ inUse
  readers : ∀ r, Knows cfg inUse s (s.reading r)
  returned : ∀ g ∈ s.returned, Right cfg inUse s g

/-- A state that has grown keeps it if its writers do, and the readers and the answers that
are new. -/
theorem Kept.grows (h : Kept cfg inUse s) (hgrows : Grows cfg s s')
    (hsound : Writers.Sound cfg inUse s'.writers) (hspelled : Writers.Spelled cfg s'.writers)
    (hlists : ∀ w ∈ s'.done, w.attrs ∈ inUse)
    (hreaders : ∀ r, s'.reading r = s.reading r ∨ Knows cfg inUse s' (s'.reading r))
    (hreturned : ∀ g ∈ s'.returned, g ∈ s.returned ∨ Right cfg inUse s' g) :
    Kept cfg inUse s' where
  sound := hsound
  spelled := hspelled
  lists := hlists
  readers r := by
    rcases hreaders r with hsame | hnew
    · rw [hsame]
      exact (h.readers r).grows hgrows
    · exact hnew
  returned g hg := by
    rcases hreturned g hg with hold | hnew
    · exact (h.returned g hold).grows hgrows
    · exact hnew

/-- What a call that begins now owes is there to be found. -/
theorem Kept.known_of_owed (h : Kept cfg inUse s) (hfree : CollisionFree cfg inUse)
    {attrs : List K} (hne : attrs ≠ [])
    (howed : s.Owed ⟨attrs, s.writers.recorded.length, s.returned.length⟩) :
    BucketMap.Known cfg s.map attrs := by
  rcases howed with ⟨hlive, hreadable⟩ | ⟨g, hg, rfl, hsome⟩
  · have hall : s.done.take s.writers.recorded.length = s.done :=
      List.take_of_length_le (by simp [done])
    rw [hall] at hlive hreadable
    refine Writers.known_of_readable hfree h.sound ?_ hne hlive hreadable
    intro list hlist
    obtain ⟨w, hw, rfl⟩ := List.mem_map.mp hlist
    refine ⟨h.lists w hw, fun hne => ?_⟩
    obtain ⟨r, hr, rfl⟩ := List.mem_map.mp hw
    exact h.spelled.recorded r hr hne
  · rw [List.take_length] at hg
    exact ((h.returned g hg).known hsome hne).2

end Calls

section Runs

variable [DecidableEq ι] [DecidableEq ρ] [LinearOrder K] {cfg : Config K UInt64}
  {inUse : Set (List K)} {s s' : Readers ι ρ K}

omit [DecidableEq ρ] in
theorem grows_write (hfree : CollisionFree cfg inUse) (hsound : Writers.Sound cfg inUse s.writers)
    {turn : WriterTurn ι K} {writers : Writers ι K}
    (hstep : Writers.step cfg s.writers turn = some writers) :
    Grows cfg s { s with writers := writers } where
  recorded := (Writers.leaves_of_step hsound hstep).recorded
  returned := List.prefix_rfl
  found _ _ := Writers.found_of_step hsound hstep
  home set bucket hbucket := by
    cases hsound.moved hfree hstep with
    | call t w hidle => exact hbucket
    | flag t hpending => exact hbucket
    | prepare t w m' pc' hpending hgrown hcounted hserves =>
        exact (hgrown.home set bucket hbucket).1
    | write t w target pc' hpending hhome hserves => exact hbucket

omit [DecidableEq ι] in
theorem grows_place (s : Readers ι ρ K) (r : ρ) (reading : Reading K) :
    Grows cfg s (s.place r reading) :=
  ⟨List.prefix_rfl, List.prefix_rfl, fun _ _ h => h, fun _ _ h => h⟩

variable (cfg) in
omit [DecidableEq ι] in
theorem grows_answer (s : Readers ι ρ K) (r : ρ) (asked : Asked K) (value : Option UInt64) :
    Grows cfg s (s.answer r asked value) :=
  ⟨List.prefix_rfl, List.prefix_append _ _, fun _ _ h => h, fun _ _ h => h⟩

omit [DecidableEq ι] in
/-- A reader goes on and relies on what is there. -/
theorem Kept.place (h : Kept cfg inUse s) (r : ρ) {reading : Reading K}
    (hreading : Knows cfg inUse s reading) : Kept cfg inUse (s.place r reading) := by
  refine h.grows (grows_place s r reading) h.sound h.spelled h.lists (fun other => ?_)
    fun g hg => Or.inl hg
  by_cases hother : other = r
  · right
    subst hother
    rw [reading_place]
    exact hreading.grows (grows_place s other reading)
  · exact Or.inl (Function.update_of_ne hother _ _)

omit [DecidableEq ι] in
/-- A call returns an answer that is right. -/
theorem Kept.answer (h : Kept cfg inUse s) {r : ρ} {asked : Asked K} {value : Option UInt64}
    (hbegan : Began s asked)
    (htotal : ∀ v, value = some v → v = Write.total asked.attrs.toFinset s.done)
    (hknown : value.isSome → asked.attrs ≠ [] →
      asked.attrs ∈ inUse ∧ BucketMap.Known cfg s.map asked.attrs)
    (hmissed : value = none → asked.attrs ≠ [] ∧ ¬ s.Owed asked) :
    Kept cfg inUse (s.answer r asked value) := by
  have hgrows := grows_answer cfg s r asked value
  refine h.grows hgrows h.sound h.spelled h.lists (fun other => ?_) fun g hg => ?_
  · by_cases hother : other = r
    · right
      subst hother
      rw [reading_answer]
      trivial
    · exact Or.inl (Function.update_of_ne hother _ _)
  · rcases List.mem_append.mp hg with hold | hnew
    · exact Or.inl hold
    · obtain rfl := List.mem_singleton.mp hnew
      right
      refine ⟨hbegan.grows hgrows, ⟨hbegan.begun, le_rfl⟩, fun v hv => ?_, hknown, fun hnone => ?_⟩
      · have hall : s.done.take s.writers.recorded.length = s.done :=
          List.take_of_length_le (by simp [done])
        show v = Write.total _ (s.done.take s.writers.recorded.length)
        rw [hall]
        exact htotal v hv
      · exact ⟨(hmissed hnone).1, fun howes =>
          (hmissed hnone).2 ((hbegan.owed_iff hgrows).mp howes)⟩

omit [DecidableEq ι] [DecidableEq ρ] in
/-- A call that begins finds what it owes. -/
theorem Kept.start (h : Kept cfg inUse s) (hfree : CollisionFree cfg inUse) {attrs : List K}
    (hattrs : attrs ∈ inUse) : Knows cfg inUse s (s.start attrs) := by
  have hbegan : Began s ⟨attrs, s.writers.recorded.length, s.returned.length⟩ := by
    refine ⟨le_rfl, le_rfl, fun g hg => ?_⟩
    exact (h.returned g (List.mem_of_mem_take hg)).span.2
  rw [Readers.start]
  split
  · next hempty =>
      obtain rfl : attrs = [] := by simpa using hempty
      exact ⟨hbegan, BucketMap.home_empty s.map, fun hne => absurd rfl hne⟩
  · next hnonempty =>
      have hne : attrs ≠ [] := by simpa using hnonempty
      refine ⟨hbegan, hne, hattrs, fun howed => ?_⟩
      exact BucketMap.exists_probe hfree h.sound.ok.inv hne hattrs (h.known_of_owed hfree hne howed)

theorem Kept.step (hfree : CollisionFree cfg inUse) (hinit : cfg.initBucket = 0)
    {turn : ReadTurn ι ρ K} (h : Kept cfg inUse s) (hlists : ∀ attrs ∈ turn.lists, attrs ∈ inUse)
    (hstep : Readers.step cfg s turn = some s') : Kept cfg inUse s' := by
  have hinv : BucketMap.Inv cfg inUse s.map := h.sound.ok.inv
  cases stepped_of_step hstep with
  | write turn writers hwriters =>
      refine h.grows (grows_write hfree h.sound hwriters)
        (h.sound.step hfree hinit hlists hwriters) (h.spelled.step h.sound hwriters) ?_
        (fun _ => Or.inl rfl) fun _ hg => Or.inl hg
      intro w hw
      obtain ⟨r, hr, rfl⟩ := List.mem_map.mp hw
      rcases Writers.recorded_of_step hwriters hr with hold | ⟨hpending, _⟩
      · exact h.lists _ (List.mem_map_of_mem hold)
      · exact (h.sound.threads r.thread).2 r.write hpending
  | get r attrs hidle => exact h.place r (h.start hfree (hlists attrs (List.mem_singleton_self _)))
  | hit r asked p left bucket hreading hhit =>
      have hknows := h.readers r
      rw [hreading] at hknows
      obtain ⟨hbegan, hne, huse, -⟩ := hknows
      have hfound := (BucketMap.probe_isSome_iff hinv).mp (by rw [hhit]; rfl)
      exact h.place r ⟨hbegan, Writers.home_of_probe hfree hinv huse hhit, fun _ =>
        ⟨huse, BucketMap.known_iff_found.mpr ⟨p, hfound⟩⟩⟩
  | miss r asked p left hreading hmiss =>
      have hknows := h.readers r
      rw [hreading] at hknows
      obtain ⟨hbegan, hne, huse, howed⟩ := hknows
      refine h.place r ⟨hbegan, hne, huse, fun howes => ?_⟩
      obtain ⟨found, hmem, hfound⟩ := howed howes
      rcases List.mem_cons.mp hmem with rfl | hleft
      · have hsome := (BucketMap.probe_isSome_iff hinv).mpr hfound
        rw [hmiss] at hsome
        cases hsome
      · exact ⟨found, hleft, hfound⟩
  | giveUp r asked hreading =>
      have hknows := h.readers r
      rw [hreading] at hknows
      obtain ⟨hbegan, hne, huse, howed⟩ := hknows
      refine h.answer hbegan nofun nofun fun _ => ⟨hne, fun howes => ?_⟩
      obtain ⟨_, hmem, _⟩ := howed howes
      cases hmem
  | load r asked bucket hreading =>
      have hknows := h.readers r
      rw [hreading] at hknows
      obtain ⟨hbegan, hhome, hknown⟩ := hknows
      refine h.answer hbegan (fun v hv => ?_) (fun _ => hknown) nofun
      obtain rfl := Option.some_inj.mp hv
      exact h.sound.value _ bucket hhome

omit [DecidableEq ι] [DecidableEq ρ] in
theorem kept_init (hinit : cfg.initBucket = 0) : Kept cfg inUse (init cfg ι ρ) where
  sound := Writers.sound_init ι inUse hinit
  spelled := Writers.spelled_init
  lists := by simp [done, init, Writers.init]
  readers _ := trivial
  returned := by simp [init]

theorem kept_run (hfree : CollisionFree cfg inUse) (hinit : cfg.initBucket = 0)
    {turns : List (ReadTurn ι ρ K)} (hlists : ReadTurn.listsOf turns ⊆ inUse)
    {last : Readers ι ρ K} (hrun : StepFn.run (Readers.step cfg) (init cfg ι ρ) turns = some last) :
    Kept cfg inUse last := by
  refine StepFn.invariant_of_step (Kept cfg inUse) (fun turn hturn _ _ hs hstep => ?_)
    (kept_init hinit) hrun
  exact hs.step hfree hinit
    (fun attrs hattrs => hlists (List.mem_flatMap.mpr ⟨turn, hturn, hattrs⟩)) hstep

/-- The writers take a run of their own: readers do not hold them up. -/
theorem run_writers {turns : List (ReadTurn ι ρ K)} {last : Readers ι ρ K}
    (hrun : StepFn.run (Readers.step cfg) (init cfg ι ρ) turns = some last) :
    StepFn.run (Writers.step cfg) (Writers.init cfg ι) (turns.filterMap ReadTurn.writerTurn) =
      some last.writers := by
  refine StepFn.run_induction (motive := fun turns s =>
    StepFn.run (Writers.step cfg) (Writers.init cfg ι) (turns.filterMap ReadTurn.writerTurn) =
      some s.writers) rfl ?_ hrun
  intro turns s turn next _ ih hstep
  rw [List.filterMap_append, StepFn.run_append, ih]
  cases stepped_of_step hstep with
  | write turn writers hwriters =>
      show StepFn.run (Writers.step cfg) s.writers [turn] = some writers
      simp [hwriters]
  | get | hit | miss | giveUp | load => rfl

/-! ## A read that nothing interrupts -/

omit [DecidableEq ι] [LinearOrder K] in
@[simp]
theorem place_place (s : Readers ι ρ K) (r : ρ) (first second : Reading K) :
    (s.place r first).place r second = s.place r second := by
  rw [place, place, Function.update_idem, place]

omit [DecidableEq ι] [LinearOrder K] in
@[simp]
theorem answer_place (s : Readers ι ρ K) (r : ρ) (reading : Reading K) (asked : Asked K)
    (value : Option UInt64) :
    (s.place r reading).answer r asked value = s.answer r asked value := by
  rw [answer, place, Function.update_idem, answer]

theorem run_load (s : Readers ι ρ K) (r : ρ) (asked : Asked K) (bucket : BucketRef) :
    StepFn.run (Readers.step cfg) (s.place r (.load asked bucket)) [.step r] =
      some (s.answer r asked (some (Scalar.get (s.map.cells bucket)))) := by
  simp only [StepFn.run_cons, StepFn.run_nil, Readers.step, reading_place, answer_place]
  rfl

variable (cfg) in
/-- The lookups that are left, one after the other. -/
theorem run_lookup (s : Readers ι ρ K) (r : ρ) (asked : Asked K) (left : List Probe) :
    ∃ n, StepFn.run (Readers.step cfg) (s.place r (.lookup asked left))
      (List.replicate n (.step r)) =
        some (s.answer r asked ((left.findSome? (Shared.probe cfg s.map asked.attrs)).map
          fun bucket => Scalar.get (s.map.cells bucket))) := by
  induction left with
  | nil =>
      refine ⟨1, ?_⟩
      simp only [List.replicate_one, StepFn.run_cons, StepFn.run_nil, Readers.step, reading_place,
        answer_place]
      rfl
  | cons p left ih =>
      have hhere : Readers.step cfg (s.place r (.lookup asked (p :: left))) (.step r) =
          match Shared.probe cfg s.map asked.attrs p with
          | some bucket => some (s.place r (.load asked bucket))
          | none => some (s.place r (.lookup asked left)) := by
        simp only [Readers.step, reading_place, place_place]
        rfl
      cases hprobe : Shared.probe cfg s.map asked.attrs p with
      | some bucket =>
          refine ⟨2, ?_⟩
          rw [List.replicate_succ, StepFn.run_cons, hhere, hprobe, List.findSome?_cons, hprobe]
          exact run_load s r asked bucket
      | none =>
          obtain ⟨n, hn⟩ := ih
          refine ⟨n + 1, ?_⟩
          rw [List.replicate_succ, StepFn.run_cons, hhere, hprobe, List.findSome?_cons, hprobe]
          exact hn

/-- A call of `get` that takes its steps one right after the other answers what
`BucketMap::get` does. -/
theorem run_get_alone {s : Readers ι ρ K} {r : ρ} (hidle : s.reading r = .idle)
    (attrs : List K) :
    ∃ n, StepFn.run (Readers.step cfg) s (.get r attrs :: List.replicate n (.step r)) =
      some (s.answer r ⟨attrs, s.writers.recorded.length, s.returned.length⟩
        (s.map.get cfg attrs)) := by
  have hget : Readers.step cfg s (.get r attrs) = some (s.place r (s.start attrs)) := by
    simp only [Readers.step, hidle]
  by_cases hne : attrs = []
  · subst hne
    refine ⟨1, ?_⟩
    rw [StepFn.run_cons, hget]
    exact run_load s r _ _
  · have hempty : attrs.isEmpty = false := by simpa using hne
    obtain ⟨n, hn⟩ := run_lookup cfg s r
      ⟨attrs, s.writers.recorded.length, s.returned.length⟩ (Shared.probes attrs)
    refine ⟨n, ?_⟩
    rw [StepFn.run_cons, hget, start, hempty, BucketMap.get, hempty,
      Shared.getBucket_eq_probes cfg s.map hne]
    cases hfound : (Shared.probes attrs).findSome? (Shared.probe cfg s.map attrs) with
    | some bucket =>
        rw [hfound] at hn
        exact hn
    | none =>
        rw [hfound] at hn
        exact hn

/-! ## What the readers are answered -/

omit [DecidableEq ι] [DecidableEq ρ] in
/-- What a call of `get` may count on, whoever writes and reads meanwhile: a number is the
total of its set at the moment the call returned, and the set was called for in a way that
makes the list readable; nothing is found only of a list that was not yet readable when the
call began.  A call that begins after another has returned sees no fewer writes, and finds
what the other has found. -/
structure Regular (called : List (List K)) (s : Readers ι ρ K) (g : Got ρ K) : Prop where
  span : g.begun ≤ g.ended ∧ g.ended ≤ s.done.length
  total : ∀ v, g.value = some v → v = Write.total g.attrs.toFinset (s.done.take g.ended)
  found : g.value.isSome → g.attrs = [] ∨ Live called g.attrs ∧ Readable called g.attrs
  missed : g.value = none → g.attrs ≠ [] ∧
    ¬ (Live ((s.done.take g.begun).map Write.attrs) g.attrs ∧
      Readable ((s.done.take g.begun).map Write.attrs) g.attrs)
  later : ∀ e ∈ s.returned.take g.earlier, e.ended ≤ g.begun ∧
    (e.attrs = g.attrs → e.value.isSome → g.value.isSome)

/-- Any number of threads write to a map of counters while any number of threads ask it for
sets, their steps in any order: every answer is regular.  Without subtractions, and as long
as no total reaches the bound of a word, a call that begins after another has returned gives
no smaller number for the set. -/
theorem gets_regular (hasher : BuildHasher K) (layout : Layout) {turns : List (ReadTurn ι ρ K)}
    {last : Readers ι ρ K}
    (hfree : CollisionFree (Config.withHasher UInt64 hasher layout) (ReadTurn.listsOf turns))
    (hrun : StepFn.run (Readers.step (Config.withHasher UInt64 hasher layout))
      (init (Config.withHasher UInt64 hasher layout) ι ρ) turns = some last) :
    ∀ g ∈ last.returned, Regular (ReadTurn.called turns) last g ∧
      ((∀ w ∈ last.done, w.kind = .add) → Write.sum g.attrs.toFinset last.done < 2 ^ 64 →
        ∀ e ∈ last.returned.take g.earlier, e.attrs.toFinset = g.attrs.toFinset →
          ∀ v v', e.value = some v → g.value = some v' → v ≤ v') := by
  have hcalled : ∀ list ∈ ReadTurn.called turns, list ∈ ReadTurn.listsOf turns := by
    intro list hlist
    obtain ⟨c, hc, rfl⟩ := List.mem_map.mp hlist
    obtain ⟨turn, hturn, hcall⟩ := List.mem_filterMap.mp hc
    obtain ⟨read, hread, hwriter⟩ := List.mem_filterMap.mp hturn
    refine List.mem_flatMap.mpr ⟨read, hread, ?_⟩
    cases read with
    | get | step => cases hwriter
    | write found =>
        obtain rfl := Option.some_inj.mp hwriter
        cases found with
        | step t => cases hcall
        | call t w =>
            obtain rfl := Option.some_inj.mp hcall
            exact List.mem_singleton_self _
  have hwritten : ∀ c ∈ calls (turns.filterMap ReadTurn.writerTurn),
      c.2.attrs ∈ {list | list ∈ ReadTurn.called turns} := by
    intro c hc
    exact List.mem_map.mpr ⟨c, hc, rfl⟩
  have hkept := kept_run hfree rfl subset_rfl hrun
  obtain ⟨hsmall, hfollows⟩ :=
    Writers.run_sound (hfree.mono hcalled) rfl hwritten (run_writers hrun)
  have hhome : ∀ set bucket, last.map.home set = some bucket → set ≠ ∅ →
      ∃ list ∈ ReadTurn.called turns, list.toFinset = set := by
    intro set bucket hbucket hne
    obtain ⟨c, hc, hset⟩ := hfollows.called set bucket hbucket hne
    exact ⟨c.2.attrs, List.mem_map_of_mem hc, hset⟩
  intro g hg
  have hright := hkept.returned g hg
  refine ⟨⟨⟨hright.span.1, by simpa [done] using hright.span.2⟩, hright.total, ?_, ?_, ?_⟩, ?_⟩
  · intro hsome
    by_cases hne : g.attrs = []
    · exact Or.inl hne
    · obtain ⟨huse, hknown⟩ := hright.known hsome hne
      exact Or.inr (Writers.readable_of_known hfree huse hcalled hsmall hhome
        hkept.sound.ok.inv hne hknown)
  · exact fun hnone => ⟨(hright.missed hnone).1, fun howed => (hright.missed hnone).2 (.inl howed)⟩
  · intro e he
    refine ⟨hright.began.ended e he, fun hsame hsome => ?_⟩
    by_contra hnone
    have hnone : g.value = none := Option.not_isSome_iff_eq_none.mp hnone
    exact (hright.missed hnone).2 (.inr ⟨e, he, hsame, hsome⟩)
  · intro hadds hbound e he hset v v' hv hv'
    have hearlier := hkept.returned e (List.mem_of_mem_take he)
    rw [hearlier.total v hv, hright.total v' hv', hset]
    have hle : e.ended ≤ g.ended := (hright.began.ended e he).trans hright.span.1
    exact Write.total_take_le hadds hbound hle

/-- A write has entered its set and not yet the ordering it was given: a read of that ordering
misses, a read of the sorted list finds a counter that nothing was added to.  Once the write
is made both find it. -/
theorem gets_regular_meanwhile :
    let cfg := Config.withHasher UInt64 ⟨UInt64.ofNat, AttrFingerprint.sum⟩ Layout.stack
    let write (t : Bool) (steps : Nat) : List (ReadTurn Bool Bool Nat) :=
      List.replicate steps (.write (.step t))
    let read (r : Bool) (attrs : List Nat) (steps : Nat) : List (ReadTurn Bool Bool Nat) :=
      .get r attrs :: List.replicate steps (.step r)
    let turns := .write (.call true ⟨.add, 5, [2, 1]⟩) :: write true 4 ++
      read true [2, 1] 3 ++ read false [1, 2] 2 ++ write true 2 ++ read true [2, 1] 2 ++
      .write (.call false ⟨.add, 2, [1, 2]⟩) :: write false 2 ++ read false [1, 2] 2
    ∃ last, StepFn.run (Readers.step cfg) (init cfg Bool Bool) turns = some last ∧
      last.returned.map (fun g => (g.attrs, g.value)) =
        [([2, 1], none), ([1, 2], some 0), ([2, 1], some 5), ([1, 2], some 7)] ∧
      ∀ g ∈ last.returned, Regular (ReadTurn.called turns) last g := by
  intro cfg write read turns
  have hfree : CollisionFree cfg (ReadTurn.listsOf turns) := by
    apply CollisionFree.of_perm [1, 2]
    have hall : ∀ attrs ∈ turns.flatMap ReadTurn.lists, attrs.Perm [1, 2] := by decide
    exact hall
  have hanswers : (StepFn.run (Readers.step cfg) (init cfg Bool Bool) turns).map
      (fun s => s.returned.map fun g => (g.attrs, g.value)) =
        some [([2, 1], none), ([1, 2], some 0), ([2, 1], some 5), ([1, 2], some 7)] := by
    decide +kernel
  obtain ⟨last, hrun, hlast⟩ := Option.map_eq_some_iff.mp hanswers
  exact ⟨last, hrun, hlast, fun g hg => (gets_regular cfg.hasher cfg.layout hfree hrun g hg).1⟩

end Runs

end Readers

end Ohnotel
