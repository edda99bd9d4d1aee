/-
# Many writers and no drain

Any number of threads add to and subtract from one map of counters, each call taking
its steps in its own time, and nothing drains the map meanwhile.  Several threads may
miss in the lookup, enter one set through different orderings of it, and race between
the two tables.

The canonical table decides: whatever a call finds or inserts, the bucket it goes on
to write to is the one the canonical table has for its set, and stays it.  The
running total of the writes is then a matter of one bucket per set.
-/

import Mathlib.Algebra.BigOperators.Group.List.Basic
import Ohnotel.BucketMap.Cardinality
import Ohnotel.BucketMap.Interleaving
import Ohnotel.Foundation.Keyed

namespace Ohnotel

open Foundation Atomic

/-! ## The bucket of a set -/

namespace BucketMap

variable {K A : Type} [LinearOrder K] {cfg : Config K A} {inUse : Set (List K)}

/-- The bucket of any set, the one without attributes included. -/
def home (m : BucketMap K A) (set : Finset K) : Option BucketRef :=
  if set = ∅ then some m.noAttrEntry.bucket else m.bucketOf set

theorem home_empty (m : BucketMap K A) : m.home ∅ = some m.noAttrEntry.bucket := if_pos rfl

theorem home_of_ne {set : Finset K} (hne : set ≠ ∅) (m : BucketMap K A) :
    m.home set = m.bucketOf set := if_neg hne

theorem home_of_bucketOf {m : BucketMap K A} (hinv : Inv cfg inUse m) {set : Finset K}
    {bucket : BucketRef} (hbucket : m.bucketOf set = some bucket) : m.home set = some bucket := by
  have hne : set ≠ ∅ := by
    rintro rfl
    simp [bucketOf_empty hinv.canon] at hbucket
  rw [home_of_ne hne, hbucket]

/-- Two sets never share a bucket. -/
theorem home_injective {m : BucketMap K A} (hinv : Inv cfg inUse m) {first second : Finset K}
    {bucket : BucketRef} (hfirst : m.home first = some bucket)
    (hsecond : m.home second = some bucket) : first = second := by
  by_cases hf : first = ∅ <;> by_cases hs : second = ∅
  · rw [hf, hs]
  · rw [hf, home_empty] at hfirst
    rw [home_of_ne hs] at hsecond
    exact absurd (Option.some_inj.mp hfirst).symm (bucketOf_ne_noAttr hinv hsecond)
  · rw [hs, home_empty] at hsecond
    rw [home_of_ne hf] at hfirst
    exact absurd (Option.some_inj.mp hsecond).symm (bucketOf_ne_noAttr hinv hfirst)
  · rw [home_of_ne hf] at hfirst
    rw [home_of_ne hs] at hsecond
    exact bucketOf_injective hinv hfirst hsecond

theorem home_congr {m m' : BucketMap K A} (hmap : m'.bucketOf = m.bucketOf)
    (hnoAttr : m'.noAttrEntry = m.noAttrEntry) : m'.home = m.home := by
  funext set
  rw [home, home, hmap, hnoAttr]

/-- How the buckets of a map change while nothing is written: none moves, and at most
one set gets one, in its initial state. -/
structure Grown (cfg : Config K A) (m : BucketMap K A) (set : Finset K) (m' : BucketMap K A) :
    Prop where
  home : ∀ other bucket, m.home other = some bucket →
    m'.home other = some bucket ∧ m'.cells bucket = m.cells bucket
  created : ∀ other bucket, m.home other = none → m'.home other = some bucket →
    other = set ∧ m'.cells bucket = cfg.initBucket

theorem Grown.of_eq {m m' : BucketMap K A} {set : Finset K} (hmap : m'.bucketOf = m.bucketOf)
    (hcells : m'.cells = m.cells) (hnoAttr : m'.noAttrEntry = m.noAttrEntry) :
    Grown cfg m set m' where
  home other bucket hbucket := ⟨by rw [home_congr hmap hnoAttr, hbucket], by rw [hcells]⟩
  created other bucket hnone hbucket := by
    rw [home_congr hmap hnoAttr, hnone] at hbucket
    cases hbucket

theorem home_lt_fresh {m : BucketMap K A} (hinv : Inv cfg inUse m) {set : Finset K}
    {bucket : BucketRef} (hbucket : m.home set = some bucket) : bucket < m.fresh := by
  by_cases hset : set = ∅
  · rw [hset, home_empty] at hbucket
    exact Option.some_inj.mp hbucket ▸ hinv.buckets.noAttr_allocated
  · rw [home_of_ne hset] at hbucket
    exact bucketOf_lt_fresh hinv hbucket

/-- `insert_canon` creates at most the bucket of the set it is given. -/
theorem InsertedCanon.grown {m m' : BucketMap K A} {attrs : List K}
    {aliasKey : Option (AliasKey K)} {bucket : BucketRef} (hinv : Inv cfg inUse m)
    (h : InsertedCanon cfg inUse m attrs aliasKey m' bucket) :
    Grown cfg m attrs.toFinset m' where
  home other found hfound := by
    refine ⟨?_, h.obtains.cells_of_lt (home_lt_fresh hinv hfound)⟩
    by_cases hother : other = ∅
    · rw [hother, home_empty] at hfound ⊢
      rw [h.noAttrEntry, hfound]
    · rw [home_of_ne hother] at hfound ⊢
      exact h.obtains.bucketOf_mono hfound
  created other found hnone hfound := by
    have hother : other ≠ ∅ := by
      rintro rfl
      simp [home_empty] at hnone
    rw [home_of_ne hother] at hnone hfound
    cases h.obtains with
    | present _ hmap _ _ _ =>
        rw [hmap, hnone] at hfound
        cases hfound
    | created _ _ hmap hcells _ _ =>
        by_cases hset : other = attrs.toFinset
        · rw [hmap, hset, Function.update_self] at hfound
          obtain rfl := Option.some_inj.mp hfound
          exact ⟨hset, by rw [hcells, Function.update_self]⟩
        · rw [hmap, Function.update_of_ne hset, hnone] at hfound
          cases hfound

end BucketMap

/-! ## Writers -/

/-- What a writer calls. -/
inductive WriteKind
  | add
  | sub
  deriving DecidableEq

/-- A call of a writer. -/
structure Write (K : Type) where
  kind : WriteKind
  value : UInt64
  attrs : List K
  deriving DecidableEq

namespace Write

variable {K : Type}

/-- What the call does to its bucket. -/
def onCell (w : Write K) (cell : UInt64) : UInt64 :=
  match w.kind with
  | .add => Record.add cell w.value
  | .sub => Record.sub cell w.value

/-- What the call contributes, modulo 2^64. -/
def delta (w : Write K) : UInt64 :=
  match w.kind with
  | .add => w.value
  | .sub => -w.value

theorem onCell_eq (w : Write K) (cell : UInt64) : w.onCell cell = cell + w.delta := by
  unfold onCell delta
  split
  · exact add_uint64 cell w.value
  · rw [sub_uint64, UInt64.sub_eq_add_neg]

variable [LinearOrder K]

/-- The set the call is about. -/
def set (w : Write K) : Finset K := w.attrs.toFinset

/-- The adds minus the subs of a set, modulo 2^64. -/
def total (set : Finset K) (writes : List (Write K)) : UInt64 :=
  ((writes.filter fun w => w.set = set).map delta).sum

theorem total_concat (set : Finset K) (writes : List (Write K)) (w : Write K) :
    total set (writes ++ [w]) = total set writes + if w.set = set then w.delta else 0 := by
  unfold total
  rw [List.filter_append, List.map_append, List.sum_append]
  by_cases h : w.set = set
  · simp [h]
  · simp [h]

theorem total_eq_zero {set : Finset K} {writes : List (Write K)}
    (h : ∀ w ∈ writes, w.set ≠ set) : total set writes = 0 := by
  unfold total
  rw [List.filter_eq_nil_iff.mpr fun w hw => by simpa using h w hw]
  rfl

theorem total_perm (set : Finset K) {first second : List (Write K)} (h : first.Perm second) :
    total set first = total set second :=
  ((h.filter _).map _).sum_eq

end Write

/-- A `fetch_add` or `fetch_sub` that was performed: whose, for which call, and on
which bucket. -/
structure Recorded (ι K : Type) where
  thread : ι
  write : Write K
  bucket : BucketRef

/-- A shared map with what its writers have done so far and what each of them still
has to write. -/
structure Writers (ι K : Type) where
  shared : Shared ι K UInt64
  pending : ι → Option (Write K)
  recorded : List (Recorded ι K)

/-- A thread starts a call or continues one. -/
inductive WriterTurn (ι K : Type)
  | call (t : ι) (w : Write K)
  | step (t : ι)

/-- The turn of the shared map. -/
def WriterTurn.turn {ι K : Type} : WriterTurn ι K → Turn ι K UInt64 UInt64
  | .call t w => .call t w.attrs w.onCell
  | .step t => .step t

/-- The calls of a run with the threads that made them. -/
def calls {ι K : Type} (turns : List (WriterTurn ι K)) : List (ι × Write K) :=
  turns.filterMap fun turn =>
    match turn with
    | .call t w => some (t, w)
    | .step _ => none

namespace Writers

variable {ι K : Type} [DecidableEq ι] [LinearOrder K] (cfg : Config K UInt64)

/-- The bucket the thread writes to, if its next step is a write. -/
def target (m : BucketMap K UInt64) : Pc K UInt64 → Option BucketRef
  | .record bucket _ => some bucket
  | .recordNoAttr _ => some m.noAttrEntry.bucket
  | .idle | .lookup _ _ _ | .insertCanon _ _ | .insertDup _ _ _ | .touchNoAttr => none

/-- One step, noting what is written. -/
def step (s : Writers ι K) (turn : WriterTurn ι K) : Option (Writers ι K) :=
  (Shared.step cfg s.shared turn.turn).map fun shared =>
    match turn with
    | .call t w => { s with shared := shared, pending := Function.update s.pending t (some w) }
    | .step t =>
        match target s.shared.map (s.shared.pcs t), s.pending t with
        | some bucket, some w =>
            { shared := shared
              pending := Function.update s.pending t none
              recorded := s.recorded ++ [⟨t, w, bucket⟩] }
        | _, _ => { s with shared := shared }

/-- A new map and idle writers. -/
def init (ι : Type) : Writers ι K where
  shared := Shared.init cfg ι
  pending _ := none
  recorded := []

/-! ## What a thread is about to write -/

variable {cfg} {inUse : Set (List K)}

/-- The thread's place fits the write it still has to make, and a bucket it has is the
one its set has. -/
def Serves (cfg : Config K UInt64) (m : BucketMap K UInt64) :
    Pc K UInt64 → Option (Write K) → Prop
  | .idle, none | .touchNoAttr, none => True
  | .lookup attrs _ f, some w => attrs = w.attrs ∧ f = w.onCell
  | .insertCanon prepared f, some w => w.attrs ≠ [] ∧
      prepared = BucketMap.prepare cfg w.attrs
        (AttrFingerprint.commutativeHash cfg.hasher w.attrs) (BucketMap.canonHash cfg w.attrs) ∧
      f = w.onCell
  | .insertDup key bucket f, some w =>
      key.rawAttrs = w.attrs ∧ m.bucketOf w.set = some bucket ∧ f = w.onCell
  | .record bucket f, some w => m.home w.set = some bucket ∧ f = w.onCell
  | .recordNoAttr f, some w => w.set = ∅ ∧ f = w.onCell
  | _, _ => False

/-- A thread with its write still to make, for a list in use. -/
def Waits (cfg : Config K UInt64) (inUse : Set (List K)) (m : BucketMap K UInt64)
    (pc : Pc K UInt64) (pending : Option (Write K)) : Prop :=
  Serves cfg m pc pending ∧ ∀ w ∈ pending, w.attrs ∈ inUse

/-- A bucket, once obtained, stays the set's. -/
theorem Serves.grown {m m' : BucketMap K UInt64} {pc : Pc K UInt64}
    {pending : Option (Write K)} {set : Finset K} (hinv : BucketMap.Inv cfg inUse m)
    (h : Serves cfg m pc pending) (hgrown : BucketMap.Grown cfg m set m') :
    Serves cfg m' pc pending := by
  cases pending with
  | none => cases pc <;> exact h
  | some w =>
      cases pc with
      | insertDup key bucket f =>
          obtain ⟨hkey, hbucket, hf⟩ := h
          have hne : w.set ≠ ∅ := by
            intro hempty
            simp [hempty, BucketMap.bucketOf_empty hinv.canon] at hbucket
          have hhome := (hgrown.home w.set bucket (BucketMap.home_of_bucketOf hinv hbucket)).1
          rw [BucketMap.home_of_ne hne] at hhome
          exact ⟨hkey, hhome, hf⟩
      | record bucket f => exact ⟨(hgrown.home _ _ h.1).1, h.2⟩
      | idle => exact h
      | lookup attrs left f => exact h
      | insertCanon prepared f => exact h
      | recordNoAttr f => exact h
      | touchNoAttr => exact h

theorem Waits.grown {m m' : BucketMap K UInt64} {pc : Pc K UInt64}
    {pending : Option (Write K)} {set : Finset K} (hinv : BucketMap.Inv cfg inUse m)
    (h : Waits cfg inUse m pc pending) (hgrown : BucketMap.Grown cfg m set m') :
    Waits cfg inUse m' pc pending :=
  ⟨h.1.grown hinv hgrown, h.2⟩

/-- What a thread waits for does not depend on the content of the buckets. -/
theorem Waits.modifyCell {m : BucketMap K UInt64} {pc : Pc K UInt64}
    {pending : Option (Write K)} (h : Waits cfg inUse m pc pending) (bucket : BucketRef)
    (f : UInt64 → UInt64) : Waits cfg inUse (m.modifyCell bucket f) pc pending := by
  refine ⟨?_, h.2⟩
  cases pending with
  | none => cases pc <;> exact h.1
  | some w => cases pc <;> exact h.1

theorem serves_start (w : Write K) (m : BucketMap K UInt64) :
    Serves cfg m (Shared.start w.attrs w.onCell) (some w) := by
  cases hattrs : w.attrs with
  | nil =>
      have hset : w.set = ∅ := by simp [Write.set, hattrs]
      exact ⟨hset, rfl⟩
  | cons kv rest => exact ⟨hattrs.symm, rfl⟩

/-- A bucket that one of the lookups finds is the bucket of the set. -/
theorem home_of_probe (hfree : CollisionFree cfg inUse) {m : BucketMap K UInt64}
    (hinv : BucketMap.Inv cfg inUse m) {attrs : List K} (hattrs : attrs ∈ inUse) {p : Probe}
    {bucket : BucketRef} (hhit : Shared.probe cfg m attrs p = some bucket) :
    m.home attrs.toFinset = some bucket := by
  apply BucketMap.home_of_bucketOf hinv
  cases p with
  | canon => exact (BucketMap.bucketOf_of_lookupCanon hinv.canon hhit).2
  | dup => exact BucketMap.bucketOf_of_lookupDup hfree hinv hattrs hhit

/-- What a step of a thread with a write to make does: it prepares the write, leaving
every bucket and its content alone, or makes it, on the bucket of its set. -/
theorem advance_cases (hfree : CollisionFree cfg inUse) {m m' : BucketMap K UInt64}
    {pc pc' : Pc K UInt64} {w : Write K} (hinv : BucketMap.Inv cfg inUse m)
    (hok : Shared.ThreadOk cfg inUse m pc) (hserves : Serves cfg m pc (some w))
    (hattrs : w.attrs ∈ inUse) (hstep : Shared.advance cfg m pc = some (m', pc')) :
    (target m pc = none ∧ BucketMap.Grown cfg m w.set m' ∧
        (m.Counted → m'.Counted) ∧ Serves cfg m' pc' (some w)) ∨
      ∃ bucket, target m pc = some bucket ∧ m.home w.set = some bucket ∧
        m' = m.modifyCell bucket w.onCell ∧ Serves cfg m' pc' none := by
  cases pc with
  | idle => exact hserves.elim
  | touchNoAttr => exact hserves.elim
  | lookup attrs left f =>
      obtain ⟨rfl, rfl⟩ := hserves
      left
      cases left with
      | nil =>
          simp only [Shared.advance, Option.some.injEq, Prod.mk.injEq] at hstep
          obtain ⟨rfl, rfl⟩ := hstep
          exact ⟨rfl, .of_eq rfl rfl rfl, id, hok.1, rfl, rfl⟩
      | cons p left =>
          simp only [Shared.advance] at hstep
          split at hstep
          · next bucket hhit =>
              simp only [Option.some.injEq, Prod.mk.injEq] at hstep
              obtain ⟨rfl, rfl⟩ := hstep
              exact ⟨rfl, .of_eq rfl rfl rfl, id, home_of_probe hfree hinv hattrs hhit, rfl⟩
          · simp only [Option.some.injEq, Prod.mk.injEq] at hstep
            obtain ⟨rfl, rfl⟩ := hstep
            exact ⟨rfl, .of_eq rfl rfl rfl, id, rfl, rfl⟩
  | insertCanon prepared f =>
      obtain ⟨hne, rfl, rfl⟩ := hserves
      have hspec := BucketMap.insertCanon_aliasOf_spec hinv hne hattrs
      have hbucket := hspec.obtains.bucketOf_eq
      left
      rw [BucketMap.prepare_eq] at hstep
      cases halias : BucketMap.aliasOf cfg w.attrs with
      | none =>
          simp only [Shared.advance, halias, Option.some.injEq,
            Prod.mk.injEq] at hstep hspec hbucket
          obtain ⟨rfl, rfl⟩ := hstep
          exact ⟨rfl, hspec.grown hinv, fun h => h.insertCanon _ _ _,
            BucketMap.home_of_bucketOf hspec.inv hbucket, rfl⟩
      | some key =>
          simp only [Shared.advance, halias, Option.some.injEq,
            Prod.mk.injEq] at hstep hspec hbucket
          obtain ⟨rfl, rfl⟩ := hstep
          exact ⟨rfl, hspec.grown hinv, fun h => h.insertCanon _ _ _,
            (BucketMap.eq_of_aliasOf_eq_some halias).2.2, hbucket, rfl⟩
  | insertDup key bucket f =>
      obtain ⟨_, hbucket, rfl⟩ := hserves
      left
      simp only [Shared.advance, Option.some.injEq, Prod.mk.injEq] at hstep
      obtain ⟨rfl, rfl⟩ := hstep
      obtain ⟨hnoAttr, _, _, hcells, _⟩ := BucketMap.insertDup_frame cfg m key bucket
      have hmap := BucketMap.bucketOf_insertDup cfg m key bucket
      refine ⟨rfl, .of_eq hmap hcells hnoAttr, fun h => h.insertDup key bucket, ?_, rfl⟩
      rw [BucketMap.home_congr hmap hnoAttr]
      exact BucketMap.home_of_bucketOf hinv hbucket
  | record bucket f =>
      obtain ⟨hhome, rfl⟩ := hserves
      right
      simp only [Shared.advance, Option.some.injEq, Prod.mk.injEq] at hstep
      obtain ⟨rfl, rfl⟩ := hstep
      exact ⟨bucket, rfl, hhome, rfl, trivial⟩
  | recordNoAttr f =>
      obtain ⟨hset, rfl⟩ := hserves
      right
      simp only [Shared.advance, Option.some.injEq, Prod.mk.injEq] at hstep
      obtain ⟨rfl, rfl⟩ := hstep
      exact ⟨m.noAttrEntry.bucket, rfl, by rw [hset, BucketMap.home_empty], rfl, trivial⟩

/-- A thread that has made its write has at most the flag left to raise. -/
theorem advance_of_none {m m' : BucketMap K UInt64} {pc pc' : Pc K UInt64}
    (hserves : Serves cfg m pc none) (hstep : Shared.advance cfg m pc = some (m', pc')) :
    target m pc = none ∧ m' = { m with noAttrTouched := true } ∧ pc' = .idle := by
  cases pc with
  | idle => simp [Shared.advance] at hstep
  | touchNoAttr =>
      simp only [Shared.advance, Option.some.injEq, Prod.mk.injEq] at hstep
      exact ⟨rfl, hstep.1.symm, hstep.2.symm⟩
  | lookup attrs left f => exact hserves.elim
  | insertCanon prepared f => exact hserves.elim
  | insertDup key bucket f => exact hserves.elim
  | record bucket f => exact hserves.elim
  | recordNoAttr f => exact hserves.elim

/-! ## What every state of a run satisfies -/

/-- Every thread serves its own write, every write was made on the bucket of its set,
and a bucket holds the total of the writes made to its set. -/
structure Sound (cfg : Config K UInt64) (inUse : Set (List K)) (s : Writers ι K) : Prop where
  ok : Shared.Ok cfg inUse s.shared
  counted : s.shared.map.Counted
  threads : ∀ t, Waits cfg inUse s.shared.map (s.shared.pcs t) (s.pending t)
  home : ∀ r ∈ s.recorded, s.shared.map.home r.write.set = some r.bucket
  value : ∀ set bucket, s.shared.map.home set = some bucket →
    s.shared.map.cells bucket = Write.total set (s.recorded.map Recorded.write)

/-- What one step of the writers can do. -/
inductive Moved (cfg : Config K UInt64) (s : Writers ι K) :
    WriterTurn ι K → Writers ι K → Prop
  | /-- A call starts. -/
    call (t : ι) (w : Write K) (hidle : s.shared.pcs t = .idle) :
      Moved cfg s (.call t w)
        { s with
          shared := { map := s.shared.map
                      pcs := Function.update s.shared.pcs t (Shared.start w.attrs w.onCell) }
          pending := Function.update s.pending t (some w) }
  | /-- A write under no attributes raises the flag. -/
    flag (t : ι) (hpending : s.pending t = none) :
      Moved cfg s (.step t)
        { s with
          shared := { map := { s.shared.map with noAttrTouched := true }
                      pcs := Function.update s.shared.pcs t .idle } }
  | /-- A thread comes closer to its write. -/
    prepare (t : ι) (w : Write K) (m' : BucketMap K UInt64) (pc' : Pc K UInt64)
      (hpending : s.pending t = some w) (hgrown : BucketMap.Grown cfg s.shared.map w.set m')
      (hcounted : s.shared.map.Counted → m'.Counted) (hserves : Serves cfg m' pc' (some w)) :
      Moved cfg s (.step t)
        { s with shared := { map := m', pcs := Function.update s.shared.pcs t pc' } }
  | /-- A thread makes its write. -/
    write (t : ι) (w : Write K) (bucket : BucketRef) (pc' : Pc K UInt64)
      (hpending : s.pending t = some w) (hhome : s.shared.map.home w.set = some bucket)
      (hserves : Serves cfg (s.shared.map.modifyCell bucket w.onCell) pc' none) :
      Moved cfg s (.step t)
        { shared := { map := s.shared.map.modifyCell bucket w.onCell
                      pcs := Function.update s.shared.pcs t pc' }
          pending := Function.update s.pending t none
          recorded := s.recorded ++ [⟨t, w, bucket⟩] }

theorem Sound.moved (hfree : CollisionFree cfg inUse) {s s' : Writers ι K}
    {turn : WriterTurn ι K} (h : Sound cfg inUse s) (hstep : step cfg s turn = some s') :
    Moved cfg s turn s' := by
  obtain ⟨shared, hshared, rfl⟩ := Option.map_eq_some_iff.mp hstep
  cases turn with
  | call t w =>
      simp only [WriterTurn.turn, Shared.step] at hshared
      split at hshared
      · next hidle =>
          obtain rfl := Option.some_inj.mp hshared
          exact .call t w hidle
      · cases hshared
  | step t =>
      obtain ⟨⟨m', pc'⟩, hadvance, rfl⟩ := Option.map_eq_some_iff.mp hshared
      have hserves := (h.threads t).1
      cases hpending : s.pending t with
      | none =>
          rw [hpending] at hserves
          obtain ⟨htarget, rfl, rfl⟩ := advance_of_none hserves hadvance
          simp only [htarget]
          exact .flag t hpending
      | some w =>
          rw [hpending] at hserves
          rcases advance_cases hfree h.ok.inv (h.ok.threads t) hserves
            ((h.threads t).2 w hpending) hadvance with
            ⟨htarget, hgrown, hcounted, hserves'⟩ | ⟨bucket, htarget, hhome, rfl, hserves'⟩
          · simp only [htarget]
            exact .prepare t w m' pc' hpending hgrown hcounted hserves'
          · simp only [htarget, hpending]
            exact .write t w bucket pc' hpending hhome hserves'

omit [DecidableEq ι] in
/-- A thread that is about to enter an alias has the bucket of the canonical entry. -/
theorem Sound.insertsLive {s : Writers ι K} (h : Sound cfg inUse s) (turn : WriterTurn ι K) :
    Shared.InsertsLive s.shared turn.turn := by
  cases turn with
  | call t w => trivial
  | step t =>
      have hserves := (h.threads t).1
      simp only [WriterTurn.turn, Shared.InsertsLive]
      split
      · next key bucket f hpc =>
          rw [hpc] at hserves
          cases hpending : s.pending t with
          | none => exact (hpending ▸ hserves).elim
          | some w =>
              rw [hpending] at hserves
              left
              rw [hserves.1]
              exact hserves.2.1
      · trivial

omit [LinearOrder K] in
/-- Changing the place of one thread and what it has to write. -/
theorem threads_update {P : Pc K UInt64 → Option (Write K) → Prop} {s : Writers ι K} {t : ι}
    {pc' : Pc K UInt64} {pending' : Option (Write K)}
    (hothers : ∀ other, P (s.shared.pcs other) (s.pending other)) (hhere : P pc' pending')
    (other : ι) :
    P (Function.update s.shared.pcs t pc' other) (Function.update s.pending t pending' other) := by
  by_cases hother : other = t
  · subst hother
    simpa using hhere
  · simpa [hother] using hothers other

omit [LinearOrder K] in
/-- Changing the place of one thread alone. -/
theorem threads_update_pc {P : Pc K UInt64 → Option (Write K) → Prop} {s : Writers ι K} {t : ι}
    {pc' : Pc K UInt64} (hothers : ∀ other, P (s.shared.pcs other) (s.pending other))
    (hhere : P pc' (s.pending t)) (other : ι) :
    P (Function.update s.shared.pcs t pc' other) (s.pending other) := by
  have hupdated := threads_update (t := t) hothers hhere other
  rwa [Function.update_eq_self] at hupdated

omit [DecidableEq ι] in
/-- Before its bucket is created nothing was written to a set. -/
theorem Sound.total_eq_zero {s : Writers ι K} (h : Sound cfg inUse s) {set : Finset K}
    (hnone : s.shared.map.home set = none) :
    Write.total set (s.recorded.map Recorded.write) = 0 := by
  apply Write.total_eq_zero
  intro w hw hset
  obtain ⟨r, hr, rfl⟩ := List.mem_map.mp hw
  have hhome := h.home r hr
  rw [hset, hnone] at hhome
  cases hhome

omit [DecidableEq ι] in
/-- A bucket that is created holds the total of its set, which has no writes yet. -/
theorem Sound.value_grown (hinit : cfg.initBucket = 0) {s : Writers ι K}
    (h : Sound cfg inUse s) {created : Finset K} {m' : BucketMap K UInt64}
    (hgrown : BucketMap.Grown cfg s.shared.map created m') (set : Finset K) (bucket : BucketRef)
    (hbucket : m'.home set = some bucket) :
    m'.cells bucket = Write.total set (s.recorded.map Recorded.write) := by
  cases hold : s.shared.map.home set with
  | some found =>
      obtain ⟨hfound, hcell⟩ := hgrown.home set found hold
      obtain rfl := Option.some_inj.mp (hfound.symm.trans hbucket)
      exact hcell.trans (h.value set found hold)
  | none =>
      obtain ⟨_, hcell⟩ := hgrown.created set bucket hold hbucket
      exact hcell.trans (hinit.trans (h.total_eq_zero hold).symm)

omit [DecidableEq ι] in
/-- A write changes the total of its own set, by as much as the cell of its bucket. -/
theorem Sound.value_write {s : Writers ι K} (h : Sound cfg inUse s) (t : ι) {w : Write K}
    {bucket : BucketRef} (hhome : s.shared.map.home w.set = some bucket) (set : Finset K)
    (found : BucketRef) (hfound : s.shared.map.home set = some found) :
    (s.shared.map.modifyCell bucket w.onCell).cells found =
      Write.total set ((s.recorded ++ [(⟨t, w, bucket⟩ : Recorded ι K)]).map Recorded.write) := by
  rw [List.map_append, List.map_singleton, Write.total_concat, ← h.value set found hfound]
  by_cases hset : w.set = set
  · obtain rfl : bucket = found := by
      rw [hset] at hhome
      exact Option.some_inj.mp (hhome.symm.trans hfound)
    rw [if_pos hset]
    exact (Function.update_self _ _ _).trans (w.onCell_eq _)
  · have hne : found ≠ bucket := by
      rintro rfl
      exact hset (BucketMap.home_injective h.ok.inv hhome hfound)
    rw [if_neg hset, add_zero]
    exact Function.update_of_ne hne _ _

/-- Every step keeps the invariant. -/
theorem Sound.step (hfree : CollisionFree cfg inUse) (hinit : cfg.initBucket = 0)
    {s s' : Writers ι K} {turn : WriterTurn ι K} (h : Sound cfg inUse s)
    (hlists : ∀ attrs ∈ turn.turn.lists, attrs ∈ inUse)
    (hstep : step cfg s turn = some s') : Sound cfg inUse s' := by
  have hok : Shared.Ok cfg inUse s'.shared := by
    obtain ⟨shared, hshared, rfl⟩ := Option.map_eq_some_iff.mp hstep
    have hnext := Shared.step_ok hfree h.ok hlists (h.insertsLive turn) hshared
    cases turn with
    | call t w => exact hnext
    | step t =>
        dsimp only
        split
        · exact hnext
        · exact hnext
  cases h.moved hfree hstep with
  | call t w hidle =>
      have hattrs : w.attrs ∈ inUse := hlists _ (List.mem_singleton_self _)
      exact
        { ok := hok
          counted := h.counted
          threads := threads_update h.threads ⟨serves_start w _, by simpa using hattrs⟩
          home := h.home
          value := h.value }
  | flag t hpending =>
      have hgrown : BucketMap.Grown cfg s.shared.map ∅
          { s.shared.map with noAttrTouched := true } := .of_eq rfl rfl rfl
      exact
        { ok := hok
          counted := h.counted.congr rfl rfl
          threads := threads_update_pc
            (fun other => (h.threads other).grown h.ok.inv hgrown)
            (by rw [hpending]; exact ⟨trivial, by simp⟩)
          home := h.home
          value := h.value }
  | prepare t w m' pc' hpending hgrown hcounted hserves =>
      exact
        { ok := hok
          counted := hcounted h.counted
          threads := threads_update_pc
            (fun other => (h.threads other).grown h.ok.inv hgrown)
            ⟨by rw [hpending]; exact hserves, (h.threads t).2⟩
          home := fun r hr => (hgrown.home _ _ (h.home r hr)).1
          value := h.value_grown hinit hgrown }
  | write t w bucket pc' hpending hhome hserves =>
      exact
        { ok := hok
          counted := h.counted.modifyCell _ _
          threads := threads_update (fun other => (h.threads other).modifyCell bucket w.onCell)
            ⟨hserves, by simp⟩
          home := fun r hr => by
            rcases List.mem_append.mp hr with hold | hnew
            · exact h.home r hold
            · obtain rfl := List.mem_singleton.mp hnew
              exact hhome
          value := h.value_write t hhome }

omit [DecidableEq ι] in
variable (ι) in
theorem sound_init (inUse : Set (List K)) (hinit : cfg.initBucket = 0) :
    Sound cfg inUse (init cfg ι) where
  ok := Shared.ok_init ι cfg inUse
  counted := BucketMap.counted_withStorage cfg
  threads _ := ⟨trivial, by simp [init]⟩
  home := by simp [init]
  value _ _ _ := hinit

omit [DecidableEq ι] in
/-- A thread that is in no call has no write to make. -/
theorem Sound.pending_eq_none {s : Writers ι K} (h : Sound cfg inUse s) {t : ι}
    (hidle : s.shared.pcs t = .idle) : s.pending t = none := by
  have hserves := (h.threads t).1
  rw [hidle] at hserves
  cases hpending : s.pending t with
  | none => rfl
  | some found => exact (hpending ▸ hserves).elim

/-! ## What was called and what was written -/

/-- Every call was made or is still waiting, in the order of its thread, and only
called sets have buckets. -/
structure Follows (turns : List (WriterTurn ι K)) (s : Writers ι K) : Prop where
  inOrder : ∀ t, ((s.recorded.filter fun r => r.thread = t).map Recorded.write) ++
      (s.pending t).toList = ((calls turns).filter fun c => c.1 = t).map Prod.snd
  called : ∀ set bucket, s.shared.map.home set = some bucket → set ≠ ∅ →
    ∃ c ∈ calls turns, c.2.set = set

omit [DecidableEq ι] [LinearOrder K] in
theorem calls_concat (turns : List (WriterTurn ι K)) (turn : WriterTurn ι K) :
    calls (turns ++ [turn]) = calls turns ++ calls [turn] := List.filterMap_append

omit [DecidableEq ι] [LinearOrder K] in
theorem calls_concat_step (turns : List (WriterTurn ι K)) (t : ι) :
    calls (turns ++ [.step t]) = calls turns := by
  simp [calls]

theorem Follows.pending {turns : List (WriterTurn ι K)} {s : Writers ι K} (h : Follows turns s)
    {t : ι} {w : Write K} (hpending : s.pending t = some w) : (t, w) ∈ calls turns := by
  have hmem : w ∈ ((calls turns).filter fun c => c.1 = t).map Prod.snd := by
    rw [← h.inOrder t, hpending]
    exact List.mem_append_right _ (List.mem_singleton_self w)
  obtain ⟨c, hc, rfl⟩ := List.mem_map.mp hmem
  obtain ⟨hcalled, ht⟩ := List.mem_filter.mp hc
  obtain rfl : c.1 = t := by simpa using ht
  exact hcalled

theorem Follows.step {turns : List (WriterTurn ι K)} {s s' : Writers ι K}
    {turn : WriterTurn ι K} (hsound : Sound cfg inUse s) (h : Follows turns s)
    (hmoved : Moved cfg s turn s') : Follows (turns ++ [turn]) s' := by
  have hlater : ∀ set, (∃ c ∈ calls turns, c.2.set = set) →
      ∃ c ∈ calls (turns ++ [turn]), c.2.set = set := by
    rintro set ⟨c, hc, hset⟩
    exact ⟨c, by rw [calls_concat]; exact List.mem_append_left _ hc, hset⟩
  cases hmoved with
  | call t w hidle =>
      have hnone := hsound.pending_eq_none hidle
      refine ⟨fun other => ?_,
        fun set bucket hbucket hne => hlater set (h.called set bucket hbucket hne)⟩
      have hbefore := h.inOrder other
      rw [calls_concat, List.filter_append, List.map_append, ← hbefore]
      by_cases hother : other = t
      · subst hother
        simp [calls, hnone]
      · simp [calls, hother, Ne.symm hother]
  | flag t hpending =>
      refine ⟨fun other => ?_,
        fun set bucket hbucket hne => hlater set (h.called set bucket hbucket hne)⟩
      rw [calls_concat_step]
      exact h.inOrder other
  | prepare t w m' pc' hpending hgrown _ _ =>
      refine ⟨fun other => ?_, fun set bucket hbucket hne => hlater set ?_⟩
      · rw [calls_concat_step]
        exact h.inOrder other
      · cases hold : s.shared.map.home set with
        | some found => exact h.called set found hold hne
        | none =>
            obtain ⟨rfl, _⟩ := hgrown.created set bucket hold hbucket
            exact ⟨(t, w), h.pending hpending, rfl⟩
  | write t w bucket pc' hpending _ _ =>
      refine ⟨fun other => ?_,
        fun set found hfound hne => hlater set (h.called set found hfound hne)⟩
      have hbefore := h.inOrder other
      rw [calls_concat_step, ← hbefore]
      by_cases hother : other = t
      · subst hother
        simp [hpending]
      · simp [hother, Ne.symm hother]

/-- A run of sound writers keeps the invariant and follows its calls. -/
theorem run_sound (hfree : CollisionFree cfg inUse) (hinit : cfg.initBucket = 0)
    {turns : List (WriterTurn ι K)} {last : Writers ι K}
    (hlists : ∀ c ∈ calls turns, c.2.attrs ∈ inUse)
    (hrun : StepFn.run (step cfg) (init cfg ι) turns = some last) :
    Sound cfg inUse last ∧ Follows turns last := by
  revert hlists
  refine StepFn.run_induction (motive := fun turns s =>
    (∀ c ∈ calls turns, c.2.attrs ∈ inUse) → Sound cfg inUse s ∧ Follows turns s) ?_ ?_ hrun
  · intro _
    refine ⟨sound_init ι inUse hinit,
      ⟨fun t => by simp [calls, init], fun set bucket hbucket hne => ?_⟩⟩
    rw [BucketMap.home_of_ne hne] at hbucket
    cases hbucket
  · intro turns s turn next _ ih hstep hlists
    obtain ⟨hsound, hfollows⟩ := ih fun c hc => hlists c (by
      rw [calls_concat]
      exact List.mem_append_left _ hc)
    have hhere : ∀ attrs ∈ turn.turn.lists, attrs ∈ inUse := by
      intro attrs hattrs
      cases turn with
      | call t w =>
          obtain rfl := List.mem_singleton.mp hattrs
          apply hlists (t, w)
          rw [calls_concat]
          exact List.mem_append_right _ (List.mem_singleton_self _)
      | step t => cases hattrs
    exact ⟨hsound.step hfree hinit hhere hstep, hfollows.step hsound (hsound.moved hfree hstep)⟩

/-! ## What the writers agree on -/

/-- The sets with an entry in the canonical table, one for each entry. -/
def entrySets (m : BucketMap K UInt64) : List (Finset K) :=
  m.canonical.elems.map fun e => e.attrs.toFinset

/-- What holds in every state: calls with one set wrote to one bucket, the bucket of
the one entry of the set, and the counter is the number of sets. -/
structure Agree (s : Writers ι K) : Prop where
  same_bucket : ∀ first ∈ s.recorded, ∀ second ∈ s.recorded,
    first.write.set = second.write.set → first.bucket = second.bucket
  one_entry : (entrySets s.shared.map).Nodup
  entry : ∀ r ∈ s.recorded, r.write.set ≠ ∅ →
    ∃ e ∈ s.shared.map.canonical.elems, e.attrs.toFinset = r.write.set ∧ e.bucket = r.bucket
  count : s.shared.map.count = UInt64.ofNat (entrySets s.shared.map).toFinset.card

/-- What holds once all calls have finished: each of them wrote once, the sets in the
table are the called ones, and every bucket holds the adds minus the subs of its set. -/
structure Finished (turns : List (WriterTurn ι K)) (s : Writers ι K) : Prop where
  written : (s.recorded.map fun r => (r.thread, r.write)).Perm (calls turns)
  sets : (entrySets s.shared.map).toFinset =
    ((calls turns).map fun c => c.2.set).toFinset.erase ∅
  value : ∀ e ∈ s.shared.map.canonical.elems, s.shared.map.cells e.bucket =
    Write.total e.attrs.toFinset ((calls turns).map Prod.snd)
  noAttr : s.shared.map.noAttrCell = Write.total ∅ ((calls turns).map Prod.snd)

omit [DecidableEq ι] in
theorem Sound.mem_entrySets {s : Writers ι K} (h : Sound cfg inUse s) {set : Finset K} :
    set ∈ entrySets s.shared.map ↔ set ≠ ∅ ∧ ∃ bucket, s.shared.map.home set = some bucket := by
  constructor
  · intro hset
    obtain ⟨e, he, rfl⟩ := List.mem_map.mp hset
    refine ⟨?_, e.bucket, BucketMap.home_of_bucketOf h.ok.inv
      (BucketMap.bucketOf_toFinset_of_mem h.ok.inv.canon he)⟩
    simpa using h.ok.inv.canon.nonempty e he
  · rintro ⟨hne, bucket, hbucket⟩
    rw [BucketMap.home_of_ne hne, BucketMap.bucketOf_eq_some_iff h.ok.inv.canon] at hbucket
    obtain ⟨e, he, hattrs, _⟩ := hbucket
    exact List.mem_map.mpr ⟨e, he, by rw [hattrs, Finset.sort_toFinset]⟩

omit [DecidableEq ι] in
theorem Sound.agree {s : Writers ι K} (h : Sound cfg inUse s) : Agree s := by
  have hnodup : (entrySets s.shared.map).Nodup := by
    refine h.ok.inv.canon.nodup.of_map.map_on ?_
    intro e he e' he' hsets
    apply BucketMap.entry_eq_of_attrs_eq h.ok.inv.canon.nodup he he'
    rw [← h.ok.inv.canon.canonical e he, ← h.ok.inv.canon.canonical e' he']
    exact normalize_eq_normalize_iff.mpr hsets
  refine ⟨fun first hfirst second hsecond hset => ?_, hnodup, fun r hr hne => ?_, ?_⟩
  · have hhome := h.home first hfirst
    rw [hset, h.home second hsecond] at hhome
    exact (Option.some_inj.mp hhome).symm
  · have hhome := h.home r hr
    rw [BucketMap.home_of_ne hne, BucketMap.bucketOf_eq_some_iff h.ok.inv.canon] at hhome
    obtain ⟨e, he, hattrs, hbucket⟩ := hhome
    exact ⟨e, he, by rw [hattrs, Finset.sort_toFinset], hbucket⟩
  · rw [List.toFinset_card_of_nodup hnodup, entrySets, List.length_map]
    exact h.counted

theorem Sound.finished {turns : List (WriterTurn ι K)} {s : Writers ι K}
    (h : Sound cfg inUse s) (hfollows : Follows turns s)
    (hidle : ∀ t, s.shared.pcs t = .idle) : Finished turns s := by
  have hwritten : (s.recorded.map fun r => (r.thread, r.write)).Perm (calls turns) := by
    apply perm_of_forall_filter_eq
    intro t
    rw [← hfollows.inOrder t, h.pending_eq_none (hidle t), Option.toList_none, List.append_nil,
      List.filter_map, List.map_map]
    rfl
  have htotal : ∀ set, Write.total set (s.recorded.map Recorded.write) =
      Write.total set ((calls turns).map Prod.snd) := by
    intro set
    rw [← Write.total_perm set (hwritten.map Prod.snd), List.map_map]
    rfl
  refine ⟨hwritten, ?_, fun e he => ?_, ?_⟩
  · ext set
    rw [List.mem_toFinset, h.mem_entrySets, Finset.mem_erase, List.mem_toFinset, List.mem_map]
    apply and_congr_right
    intro hne
    constructor
    · rintro ⟨bucket, hbucket⟩
      exact hfollows.called set bucket hbucket hne
    · rintro ⟨c, hc, rfl⟩
      obtain ⟨r, hr, rfl⟩ := List.mem_map.mp (hwritten.mem_iff.mpr hc)
      exact ⟨r.bucket, h.home r hr⟩
  · rw [← htotal]
    exact h.value _ _ (BucketMap.home_of_bucketOf h.ok.inv
      (BucketMap.bucketOf_toFinset_of_mem h.ok.inv.canon he))
  · rw [← htotal]
    exact h.value _ _ (BucketMap.home_empty _)

/-- Any number of threads add and subtract, their steps in any order, and nothing is
drained: in every state two calls with one set have written to one bucket, each set
has one canonical entry and the counter is the number of sets; and when all calls have
finished, each set's value is the total of its adds minus its subs. -/
theorem writers_agree (hasher : BuildHasher K) (layout : Layout)
    {turns : List (WriterTurn ι K)} {last : Writers ι K}
    (hfree : CollisionFree (Config.withHasher UInt64 hasher layout)
      {attrs | ∃ c ∈ calls turns, c.2.attrs = attrs})
    (hrun : StepFn.run (step (Config.withHasher UInt64 hasher layout))
      (init (Config.withHasher UInt64 hasher layout) ι) turns = some last) :
    Agree last ∧ ((∀ t, last.shared.pcs t = .idle) → Finished turns last) := by
  obtain ⟨hsound, hfollows⟩ := run_sound hfree rfl (fun c hc => ⟨c, hc, rfl⟩) hrun
  exact ⟨hsound.agree, hsound.finished hfollows⟩

/-- Two threads race to enter one set, each under an ordering of its own: both miss in
the lookups, and one of them finds the entry of the other. -/
theorem writers_agree_race :
    let cfg := Config.withHasher UInt64 ⟨UInt64.ofNat, AttrFingerprint.sum⟩ Layout.stack
    let turns : List (WriterTurn Bool Nat) :=
      [.call true ⟨.add, 5, [2, 1]⟩, .call false ⟨.sub, 2, [1, 2]⟩, .step true, .step false,
        .step true, .step false, .step true, .step false, .step true, .step false, .step true,
        .step false, .step true]
    ∃ last, StepFn.run (step cfg) (init cfg Bool) turns = some last ∧ Agree last ∧
      Finished turns last ∧ last.shared.map.cells 1 = 3 := by
  intro cfg turns
  have hfree : CollisionFree cfg {attrs | ∃ c ∈ calls turns, c.2.attrs = attrs} := by
    apply CollisionFree.of_perm [2, 1]
    rintro attrs ⟨c, hc, rfl⟩
    have hall : ∀ c ∈ calls turns, c.2.attrs.Perm [2, 1] := by decide
    exact hall c hc
  have hagree := writers_agree ⟨UInt64.ofNat, AttrFingerprint.sum⟩ Layout.stack hfree rfl
  refine ⟨_, rfl, hagree.1, hagree.2 ?_, by decide +kernel⟩
  intro t
  cases t <;> rfl

end Writers

end Ohnotel
