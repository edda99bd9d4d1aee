/-
# What an observation adds to a series

Whatever it is shown, an observation adds at most one snapshot under each attribute list.
It bears the time of the observation and the observer's sequence number, which then goes
up by one.  The observer's start time stays, and so do its identity, its kind and its mode.
-/

import Ohnotel.Observe.Slots

namespace Ohnotel

open Foundation Atomic

namespace SyncObserver

variable {K A T V : Type}

/-- Under the given lists and no others, at most one snapshot was added. -/
structure Files (ts : SystemTime) (lists : List (List K)) (o o' : SyncObserver K V) : Prop where
  startTime : o'.startTime = o.startTime
  seq : o'.seq = o.seq
  series : ∀ attrs, o'.series attrs = o.series attrs ∨
    attrs ∈ lists ∧ ∃ value, o'.series attrs = o.series attrs ++ [⟨ts, o.seq, value⟩]

/-- What an observation does to the observer. -/
structure Observed (ts : SystemTime) (o o' : SyncObserver K V) : Prop where
  startTime : o'.startTime = o.startTime
  seq : o'.seq = o.seq + 1
  series : ∀ attrs, o'.series attrs = o.series attrs ∨
    ∃ value, o'.series attrs = o.series attrs ++ [⟨ts, o.seq, value⟩]

variable {ts : SystemTime}

theorem Files.refl (lists : List (List K)) (o : SyncObserver K V) : Files ts lists o o where
  startTime := rfl
  seq := rfl
  series _ := .inl rfl

/-- What is filed first and what is filed then, under other lists. -/
theorem Files.trans {first second : List (List K)} {o middle o' : SyncObserver K V}
    (hfirst : Files ts first o middle) (hsecond : Files ts second middle o')
    (hdisjoint : first.Disjoint second) : Files ts (first ++ second) o o' where
  startTime := hsecond.startTime.trans hfirst.startTime
  seq := hsecond.seq.trans hfirst.seq
  series attrs := by
    rcases hfirst.series attrs with hkept | ⟨hmem, value, hadded⟩
    · rcases hsecond.series attrs with hkept' | ⟨hmem', value, hadded⟩
      · exact .inl (hkept'.trans hkept)
      · rw [hkept, hfirst.seq] at hadded
        exact .inr ⟨List.mem_append_right _ hmem', value, hadded⟩
    · rcases hsecond.series attrs with hkept' | ⟨hmem', _⟩
      · exact .inr ⟨List.mem_append_left _ hmem, value, hkept'.trans hadded⟩
      · exact absurd hmem' (hdisjoint hmem)

/-- A walk that files under the list of each element in turn. -/
theorem Files.foldl {E : Type} {key : E → List K}
    {step : SyncObserver K V → E → SyncObserver K V}
    (hstep : ∀ o element, Files ts [key element] o (step o element)) {elements : List E}
    (hnodup : (elements.map key).Nodup) (o : SyncObserver K V) :
    Files ts (elements.map key) o (elements.foldl step o) := by
  induction elements generalizing o with
  | nil => exact .refl _ o
  | cons first rest ih =>
      rw [List.map_cons, List.nodup_cons] at hnodup
      exact (hstep o first).trans (ih hnodup.2 _) (List.singleton_disjoint.mpr hnodup.1)

/-- The number goes up when all is filed. -/
theorem Files.observed {lists : List (List K)} {o o' : SyncObserver K V}
    (h : Files ts lists o o') : Observed ts o { o' with seq := o'.seq + 1 } where
  startTime := h.startTime
  seq := congrArg (· + 1) h.seq
  series attrs := (h.series attrs).imp_right And.right

variable [LinearOrder K]

theorem files_push (o : SyncObserver K V) (attrs : List K) (value : V) :
    Files ts [attrs] o (o.push ts attrs value) where
  startTime := rfl
  seq := rfl
  series other := by
    by_cases hsame : other = attrs
    · subst hsame
      exact .inr ⟨List.mem_singleton_self _, value, Function.update_self _ _ _⟩
    · exact .inl (Function.update_of_ne hsame _ _)

section Record

variable [Record A T V] [BEq V] [PartialOrd V] [Sub V] [IsInitial V]

omit [IsInitial V] in
theorem files_observeEntry (ts : SystemTime) (o : SyncObserver K V) (e : CanonicalEntry K)
    (cell : A) :
    Files ts [e.attrs] o (observeEntry ts o e cell).2 := by
  rw [observeEntry]
  cases o.lastValues with
  | none => exact files_push o _ _
  | some lastValues =>
      -- Remembering a value changes nothing that is told of here.
      have hremember : ∀ value,
          Files ts [e.attrs] o (({ o with lastValues := some (Function.update lastValues e.attrs
            (some (Record.current cell))) } : SyncObserver K V).push ts e.attrs value) :=
        fun value => ⟨rfl, rfl, (files_push o e.attrs value).series⟩
      cases hprev : lastValues e.attrs with
      | none =>
          simp only [hprev]
          exact hremember _
      | some prev =>
          simp only [hprev]
          split
          · exact .refl _ o
          · exact hremember _

omit [Record A T V] [BEq V] [PartialOrd V] [Sub V] in
theorem files_observeDrained (ts : SystemTime) (o : SyncObserver K V) (drained : List K × V) :
    Files ts [drained.1] o (observeDrained ts o drained) := by
  rw [observeDrained]
  split
  · exact .refl _ o
  · exact files_push o _ _

omit [BEq V] [PartialOrd V] [Sub V] in
theorem observed_observeDestructive (m : BucketMap.Walkable K A) (o : SyncObserver K V) :
    Observed ts o (observeDestructive ts m.buckets o).2 := by
  have hkeys : (m.buckets.take.1.readTable m.buckets.take.2.1).map Prod.fst =
      m.buckets.canonical.elems.map CanonicalEntry.attrs := by
    rw [BucketMap.readTable, List.map_map]
    rfl
  have htable := Files.foldl (files_observeDrained ts) (hkeys ▸ m.nodup) o
  rw [hkeys] at htable
  rw [observeDestructive]
  cases m.buckets.take.2.2 with
  | none => exact htable.observed
  | some value =>
      exact (htable.trans (files_push _ [] value) (by simpa using m.nonempty)).observed

/-- An observation files under each list at most once. -/
theorem observed_observe (ts : SystemTime) (cfg : Config K A) (m : BucketMap.Walkable K A)
    (o : SyncObserver K V) : Observed ts o (o.observe cfg ts m.buckets).2 := by
  by_cases hmode : o.observeMode = .destructive
  · rw [observe, if_pos hmode]
    exact observed_observeDestructive m o
  · have hvisit := BucketMap.visitBucket_eq_of_keeps cfg (observeEntry_keeps ts) m.buckets o
    have hwalk := Files.foldl
      (fun o e => files_observeEntry ts o e (m.buckets.cells e.bucket))
      m.nodup_walkedEntries o
    rw [observe, if_neg hmode]
    simp only [hvisit]
    exact hwalk.observed

end Record

end SyncObserver

/-! ## What an observation keeps -/

namespace SyncObserver

variable {K A T V : Type}

/-- What an observer puts on every series. -/
structure Labels where
  id : NameIdentity
  kind : Kind
  observeMode : Mode

def labels (o : SyncObserver K V) : Labels := ⟨o.id, o.kind, o.observeMode⟩

/-- A walk keeps the labels if each of its steps does. -/
theorem labels_foldl {E : Type} {step : SyncObserver K V → E → SyncObserver K V}
    (hstep : ∀ o element, (step o element).labels = o.labels) (elements : List E)
    (o : SyncObserver K V) : (elements.foldl step o).labels = o.labels := by
  induction elements generalizing o with
  | nil => rfl
  | cons first rest ih => rw [List.foldl_cons, ih, hstep]

variable [LinearOrder K]

theorem labels_observeNoAttr (ts : SystemTime) (o : SyncObserver K V) (noAttrVal : Option V) :
    (o.observeNoAttr ts noAttrVal).labels = o.labels := by
  cases noAttrVal with
  | none => rfl
  | some value => rfl

variable [Record A T V] [BEq V] [PartialOrd V] [Sub V]

theorem labels_observeEntry (ts : SystemTime) (o : SyncObserver K V) (e : CanonicalEntry K)
    (cell : A) : (observeEntry ts o e cell).2.labels = o.labels := by
  rw [observeEntry]
  cases o.lastValues with
  | none => rfl
  | some lastValues =>
      dsimp only
      split
      · rfl
      · split
        · rfl
        · rfl

variable [IsInitial V]

theorem labels_observe (cfg : Config K A) (ts : SystemTime) (m : BucketMap K A)
    (o : SyncObserver K V) : (o.observe cfg ts m).2.labels = o.labels := by
  rw [observe]
  split
  · have hdrained : ∀ (o : SyncObserver K V) (drained : List K × V),
        (observeDrained ts o drained).labels = o.labels := by
      intro o drained
      rw [observeDrained]
      split
      · rfl
      · rfl
    exact (labels_observeNoAttr ts _ _).trans (labels_foldl hdrained _ o)
  · rw [BucketMap.visitBucket_eq_of_keeps cfg (observeEntry_keeps ts) m o]
    exact labels_foldl (fun o e => labels_observeEntry ts o e (m.cells e.bucket)) m.walkedEntries o

end SyncObserver

/-! ## Maps that an application makes -/

namespace BucketMap

variable {K A T : Type} [LinearOrder K] {cfg : Config K A} {inUse : Set (List K)}

/-- A call that evicts nothing keeps the invariant, whether or not lists collide. -/
theorem inv_exec [Scalar A T] {m : BucketMap K A} (hinv : Inv cfg inUse m) (op : ScalarOp K T)
    (hlists : ∀ attrs ∈ op.lists, attrs ∈ inUse) (hvisit : ∀ cb, op ≠ .visitBucket cb) :
    Inv cfg inUse (m.exec cfg op).1 := by
  cases op with
  | add value attrs => exact inv_write hinv (hlists attrs List.mem_cons_self) _
  | sub value attrs => exact inv_write hinv (hlists attrs List.mem_cons_self) _
  | set value attrs => exact inv_write hinv (hlists attrs List.mem_cons_self) _
  | reset attrs =>
      have hattrs := hlists attrs List.mem_cons_self
      simp only [exec, reset]
      split <;> dsimp only
      · exact hinv.modifyCell _ _
      · exact (inv_getOrCreate hinv hattrs).modifyCell _ _
  | clear => exact (clear_spec hinv).inv
  | take => exact (take_spec hinv).1.inv
  | visitBucket cb => exact absurd rfl (hvisit cb)

/-- Likewise for a histogram. -/
theorem inv_execHistogram {C : Type} [Measure T C] {cfg : Config K (Bucket T C)}
    {m : BucketMap K (Bucket T C)} (hinv : Inv cfg inUse m) (op : HistogramOp K T)
    (hlists : ∀ attrs ∈ op.lists, attrs ∈ inUse) (hvisit : ∀ cb, op ≠ .visitBucket cb) :
    Inv cfg inUse (Histogram.exec cfg m op).1 := by
  cases op with
  | add value attrs => exact inv_write hinv (hlists attrs List.mem_cons_self) _
  | sub value attrs => exact inv_write hinv (hlists attrs List.mem_cons_self) _
  | takeBucket attrs =>
      simp only [Histogram.exec, Histogram.take]
      split <;> dsimp only
      · exact hinv.modifyCell _ _
      · exact hinv
  | clear => exact (clear_spec hinv).inv
  | take => exact (take_spec hinv).1.inv
  | visitBucket cb => exact absurd rfl (hvisit cb)

end BucketMap

end Ohnotel
