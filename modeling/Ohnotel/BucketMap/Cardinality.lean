/-
# The cardinality counter

A map keeps the number of its canonical entries by hand, in a machine word beside
the table.  An insertion raises it, a visit lowers it by the number of entries it
evicts, and `clear` sets it back to zero.  `take` empties the table as `clear` does
but leaves the counter alone, so from then on the two disagree.

Nothing here depends on how lists are hashed, compared or aliased.
-/

import Ohnotel.BucketMap.Drains

namespace Ohnotel

open Foundation Atomic

/-- A call on a map.  A visit's callback decides from a state of its own; `set` and
`reset` exist only where a cell is a scalar. -/
inductive BucketMapCall (K A T σ : Type)
  | add (value : T) (attrs : List K)
  | sub (value : T) (attrs : List K)
  | set [Scalar A T] (value : T) (attrs : List K)
  | reset [Scalar A T] (attrs : List K)
  | getOrCreate (attrs : List K)
  | visitBucket (cb : σ → CanonicalEntry K → A → Bool × σ) (state : σ)
  | clear
  | take

namespace BucketMap

variable {K A T V σ : Type}

/-- The number of entries in the canonical table. -/
def entries (m : BucketMap K A) : Nat := m.canonical.elems.length

/-- The counter is the number of entries, as a machine word. -/
def Counted (m : BucketMap K A) : Prop := m.count = UInt64.ofNat m.entries

instance (m : BucketMap K A) : Decidable (Counted m) :=
  inferInstanceAs (Decidable (m.count = UInt64.ofNat m.entries))

section Calls

variable [LinearOrder K] [Record A T V] (cfg : Config K A)

/-- The map after a call. -/
def perform (m : BucketMap K A) : BucketMapCall K A T σ → BucketMap K A
  | .add value attrs => m.add cfg value attrs
  | .sub value attrs => m.sub cfg value attrs
  | @BucketMapCall.set _ _ _ _ _ value attrs => m.set cfg value attrs
  | @BucketMapCall.reset _ _ _ _ _ attrs => (m.reset cfg attrs).1
  | .getOrCreate attrs => (m.getOrCreate cfg attrs).1
  | .visitBucket cb state => (m.visitBucket cfg cb state).1
  | .clear => m.clear
  | .take => m.take.1

/-- The map after some calls, made in order. -/
def performCalls (m : BucketMap K A) (calls : List (BucketMapCall K A T σ)) :
    BucketMap K A :=
  calls.foldl (perform cfg) m

/-- What a visit subtracts from the counter. -/
def evictions (m : BucketMap K A) (cb : σ → CanonicalEntry K → A → Bool × σ) (state : σ) :
    UInt64 :=
  (m.canonical.retain (visitEntry cfg cb m.cells)
    { state := state, aliases := m.aliases, evicted := 0 }).2.evicted

end Calls

/-! ## Insertions -/

theorem Counted.congr {m m' : BucketMap K A} (h : Counted m) (hcount : m'.count = m.count)
    (hentries : m'.entries = m.entries) : Counted m' := by
  rw [Counted, hcount, hentries]
  exact h

section Insertions

variable [LinearOrder K] {cfg : Config K A} {m : BucketMap K A}

omit [LinearOrder K] in
theorem entries_reserve (cfg : Config K A) (m : BucketMap K A) :
    (m.canonical.reserve cfg.layout (rehashCanon cfg)).elems.length = m.entries :=
  (HashTable.elems_reserve_perm cfg.layout (rehashCanon cfg) m.canonical).length_eq

/-- An insertion adds an entry and counts it, or does neither. -/
theorem Counted.insertCanon (h : Counted m) (normalized : List K) (hash : UInt64)
    (aliasKey : Option (AliasKey K)) :
    Counted (m.insertCanon cfg normalized hash aliasKey).1 := by
  simp only [BucketMap.insertCanon]
  split
  · -- Occupied: the entry is rewritten in place.
    refine Counted.congr (m := m) h rfl ?_
    have hlength := congrArg List.length
      (HashTable.map_elems_modify (fun _ => ()) (f := CanonicalEntry.extendAliases aliasKey)
        (fun _ => rfl) (m.canonical.reserve cfg.layout (rehashCanon cfg)) hash
        fun entry => entry.attrs == normalized)
    rw [List.length_map, List.length_map, entries_reserve] at hlength
    exact hlength
  · -- Vacant: one entry more, and one more on the counter.
    have hlength := (HashTable.elems_insert_perm cfg.layout hash
      { attrs := normalized, bucket := m.fresh, aliases := aliasKey.toList }
      (m.canonical.reserve cfg.layout (rehashCanon cfg))).length_eq
    rw [List.length_cons, entries_reserve] at hlength
    show m.count + 1 = UInt64.ofNat (List.length _)
    rw [hlength, UInt64.ofNat_add, h]
    rfl

omit [LinearOrder K] in
theorem Counted.insertDup (h : Counted m) (key : AliasKey K) (bucket : BucketRef) :
    Counted (m.insertDup cfg key bucket) := by
  simp only [BucketMap.insertDup]
  split
  · exact h.congr rfl rfl
  · exact h.congr rfl rfl

theorem Counted.getOrCreate (h : Counted m) (attrs : List K) :
    Counted (m.getOrCreate cfg attrs).1 := by
  unfold BucketMap.getOrCreate
  split
  · exact h
  · unfold insertPrepared
    split
    · exact (h.insertCanon _ _ _).insertDup _ _
    · exact h.insertCanon _ _ _

omit [LinearOrder K] in
theorem Counted.modifyCell (h : Counted m) (bucket : BucketRef) (f : A → A) :
    Counted (m.modifyCell bucket f) :=
  h.congr rfl rfl

omit [LinearOrder K] in
theorem Counted.writeNoAttr (h : Counted m) (f : A → A) : Counted (m.writeNoAttr f) :=
  h.congr rfl rfl

theorem Counted.updateBucket (h : Counted m) (attrs : List K) (f : A → A) :
    Counted (m.updateBucket cfg attrs f) :=
  (h.getOrCreate attrs).modifyCell _ f

end Insertions

/-! ## Drains -/

section Visits

variable (cfg : Config K A) (m : BucketMap K A)
  (cb : σ → CanonicalEntry K → A → Bool × σ) (state : σ)

/-- Every entry got one of the two answers. -/
theorem entries_eq_answered :
    m.entries = (answered true (m.walkVerdicts cb state).1).length +
      (answered false (m.walkVerdicts cb state).1).length := by
  have hwalked := congrArg List.length (verdicts_map_fst cb m.cells state m.canonical.elems)
  rw [List.length_map] at hwalked
  rw [entries, ← hwalked, walkVerdicts, answered, answered, List.length_map, List.length_map,
    ← List.countP_eq_length_filter, ← List.countP_eq_length_filter,
    List.length_eq_countP_add_countP fun answer => answer.2 == true]
  simp

/-- A visit counts the entries its callback refuses. -/
theorem evictions_eq :
    m.evictions cfg cb state =
      UInt64.ofNat (answered false (m.walkVerdicts cb state).1).length := by
  have hwalk := (retainList_visitEntry cfg cb m.cells
    { state := state, aliases := m.aliases, evicted := 0 } m.canonical.elems).2.2.2
  rw [← HashTable.retain_state] at hwalk
  exact hwalk.trans (UInt64.zero_add _)

theorem Counted.afterWalk {m : BucketMap K A} (h : Counted m) :
    Counted (m.afterWalk cfg cb state) := by
  have hcount : (m.afterWalk cfg cb state).count = m.count - m.evictions cfg cb state := by
    show (if m.evictions cfg cb state > 0 then m.count - m.evictions cfg cb state
      else m.count) = _
    split
    · rfl
    · next hzero =>
        rw [UInt64.le_zero_iff.mp (UInt64.not_lt.mp hzero), UInt64.sub_zero]
  have hentries : (m.afterWalk cfg cb state).entries =
      (answered true (m.walkVerdicts cb state).1).length :=
    congrArg List.length (afterWalk_tables cfg m cb state).1
  rw [Counted, hcount, hentries, evictions_eq, h, entries_eq_answered m cb state,
    UInt64.ofNat_add, UInt64.add_sub_cancel]

/-- While the counter is exact, a visit does not take more from it than it holds. -/
theorem Counted.evictions_le {m : BucketMap K A} (h : Counted m) (hsize : m.entries < 2 ^ 64) :
    m.evictions cfg cb state ≤ m.count := by
  have hsplit := entries_eq_answered m cb state
  rw [evictions_eq, h]
  exact (UInt64.ofNat_le_iff_le (lt_of_le_of_lt (by omega) hsize) hsize).mpr (by omega)

variable [Record A T V]

theorem Counted.clearNoAttr {m : BucketMap K A} (h : Counted m) : Counted m.clearNoAttr :=
  h.congr rfl rfl

theorem Counted.visitBucket {m : BucketMap K A} (h : Counted m) :
    Counted (m.visitBucket cfg cb state).1 := by
  have hwalked := h.afterWalk cfg cb state
  rw [visitBucket_eq]
  split
  · dsimp only
    split
    · exact hwalked
    · exact hwalked.clearNoAttr
  · exact hwalked

end Visits

section Runs

variable [LinearOrder K] [Record A T V] {cfg : Config K A}

/-- Of an exact counter, only `take` can make an inexact one, and it does so unless
there was nothing to take. -/
theorem Counted.perform_iff {m : BucketMap K A} (h : Counted m) (call : BucketMapCall K A T σ) :
    Counted (m.perform cfg call) ↔ (call = .take → UInt64.ofNat m.entries = 0) := by
  cases call with
  | add value attrs =>
      suffices hkept : Counted (m.add cfg value attrs) by simpa [perform] using hkept
      unfold BucketMap.add
      split
      · exact h.writeNoAttr _
      · exact h.updateBucket attrs _
  | sub value attrs =>
      suffices hkept : Counted (m.sub cfg value attrs) by simpa [perform] using hkept
      unfold BucketMap.sub
      split
      · exact h.writeNoAttr _
      · exact h.updateBucket attrs _
  | @set scalar value attrs =>
      suffices hkept : Counted (m.set cfg value attrs) by simpa [perform] using hkept
      unfold BucketMap.set
      split
      · exact h.writeNoAttr _
      · exact h.updateBucket attrs _
  | @reset scalar attrs =>
      suffices hkept : Counted (m.reset cfg attrs).1 by simpa [perform] using hkept
      unfold BucketMap.reset
      split
      · exact h.modifyCell _ _
      · exact (h.getOrCreate attrs).modifyCell _ _
  | getOrCreate attrs => simpa [perform] using h.getOrCreate attrs
  | visitBucket cb state => simpa [perform] using h.visitBucket cfg cb state
  | clear =>
      have hcleared : Counted m.clear := rfl
      simpa [perform] using hcleared
  | take =>
      have hleft : Counted (m.perform cfg (BucketMapCall.take : BucketMapCall K A T σ)) ↔
          m.count = 0 := Iff.rfl
      rw [hleft, h]
      simp

theorem performCalls_concat (m : BucketMap K A) (calls : List (BucketMapCall K A T σ))
    (call : BucketMapCall K A T σ) :
    m.performCalls cfg (calls ++ [call]) = (m.performCalls cfg calls).perform cfg call :=
  List.foldl_concat ..

theorem Counted.performCalls {m : BucketMap K A} (h : Counted m)
    {calls : List (BucketMapCall K A T σ)}
    (hempty : ∀ before, before ++ [.take] <+: calls →
      UInt64.ofNat (m.performCalls cfg before).entries = 0) :
    Counted (m.performCalls cfg calls) := by
  induction calls using List.reverseRecOn with
  | nil => exact h
  | append_singleton calls call ih =>
      rw [performCalls_concat]
      have hcalls := ih fun before hbefore => hempty before (hbefore.trans (List.prefix_append _ _))
      apply (hcalls.perform_iff call).mpr
      intro htake
      exact hempty calls (by rw [htake])

omit [LinearOrder K] [Record A T V] in
theorem counted_withStorage (cfg : Config K A) : Counted (withStorage cfg) := rfl

/-- In a run of calls the counter is exact in every state exactly when every `take`
finds the canonical table empty, and a visit from a state it is exact in does not
take it below zero. -/
theorem counted_iff_takes_empty (cfg : Config K A) (calls : List (BucketMapCall K A T σ)) :
    ((∀ before, before <+: calls → Counted ((withStorage cfg).performCalls cfg before)) ↔
      ∀ before, before ++ [.take] <+: calls →
        UInt64.ofNat ((withStorage cfg).performCalls cfg before).entries = 0) ∧
    ∀ before, before <+: calls → Counted ((withStorage cfg).performCalls cfg before) →
      ((withStorage cfg).performCalls cfg before).entries < 2 ^ 64 →
      ∀ (cb : σ → CanonicalEntry K → A → Bool × σ) state,
        ((withStorage cfg).performCalls cfg before).evictions cfg cb state ≤
          ((withStorage cfg).performCalls cfg before).count := by
  refine ⟨⟨?_, ?_⟩, ?_⟩
  · intro hall before htake
    have hbefore := hall before ((List.prefix_append _ _).trans htake)
    have hafter := hall _ htake
    rw [performCalls_concat] at hafter
    exact (hbefore.perform_iff .take).mp hafter rfl
  · intro hempty before hbefore
    apply (counted_withStorage cfg).performCalls
    exact fun earlier hearlier => hempty earlier (hearlier.trans hbefore)
  · intro before _ hcounted hsize cb state
    exact hcounted.evictions_le cfg cb state hsize

end Runs

/-- One addition and a `take`: the table is empty and the counter says one. -/
theorem take_leaves_count :
    let cfg : Config Nat UInt64 :=
      Config.withHasher UInt64 ⟨UInt64.ofNat, AttrFingerprint.sum⟩ Layout.stack
    let m := (withStorage cfg).performCalls cfg
      ([.add 1 [1], .take] : List (BucketMapCall Nat UInt64 UInt64 Unit))
    m.count = 1 ∧ m.entries = 0 ∧ ¬ Counted m := by
  decide

end BucketMap

end Ohnotel
