/-
# The bucket map refines the finite map

Every run of operations on a bucket map, whatever its hasher and the layout of its
tables, returns what some run of the finite map returns and ends in a state that
the abstraction sends to that run's last state.  One operation is handled by one
lemma; the induction over a run only strings them together.
-/

import Ohnotel.BucketMap.Drains
import Ohnotel.BucketMap.Operations

namespace Ohnotel

open Foundation Atomic

/-- A measurement that `impl_atomic_integer!` is applied to: its cell is the
primitive under wrapping arithmetic, starting at zero. -/
class AtomicInteger (T : Type) [Add T] [Sub T] [OfNat T 0] extends Measure T T where
  add_eq : ∀ cell value : T, Record.add cell value = cell + value
  sub_eq : ∀ cell value : T, Record.sub cell value = cell - value
  clear_eq : ∀ cell : T, Record.clear cell = 0
  current_eq : ∀ cell : T, Record.current cell = cell
  store_eq : ∀ cell value : T, Scalar.store cell value = value
  reset_eq : ∀ cell : T, Scalar.reset cell = (cell, 0)
  ofValue_default : ofValue default = (0 : T)

instance : AtomicInteger UInt64 where
  add_eq _ _ := rfl
  sub_eq _ _ := rfl
  clear_eq _ := rfl
  current_eq _ := rfl
  store_eq _ _ := rfl
  reset_eq _ := rfl
  ofValue_default := rfl

instance : AtomicInteger Int64 where
  add_eq _ _ := rfl
  sub_eq _ _ := rfl
  clear_eq _ := rfl
  current_eq _ := rfl
  store_eq _ _ := rfl
  reset_eq _ := rfl
  ofValue_default := rfl

namespace BucketMap

variable {K T : Type} [LinearOrder K] {cfg : Config K T}

/-- The finite map a bucket map stands for. -/
def toSetMap (m : BucketMap K T) : SetMap K T where
  cells := m.valueOf
  finite := by
    apply ((m.canonical.elems.map fun e => e.attrs.toFinset).toFinset.finite_toSet).subset
    intro set hset
    obtain ⟨value, hvalue⟩ := Option.isSome_iff_exists.mp hset
    obtain ⟨bucket, hbucket, _⟩ := Option.map_eq_some_iff.mp hvalue
    obtain ⟨e, he, _⟩ := Option.map_eq_some_iff.mp hbucket
    have hattrs : e.attrs = set.sort (· ≤ ·) := by simpa using List.find?_some he
    have hset : e.attrs.toFinset = set := by rw [hattrs, Finset.sort_toFinset]
    simpa using ⟨e, List.mem_of_find?_eq_some he, hset⟩
  noAttr := m.noAttrCell
  touched := m.noAttrTouched

variable {inUse : Set (List K)}

/-! ## Writes -/

section Integer

variable [Add T] [Sub T] [OfNat T 0] [AtomicInteger T]

omit [Add T] [Sub T] [OfNat T 0] [AtomicInteger T] in
theorem toSetMap_writeNoAttr {m : BucketMap K T} (hinv : Inv cfg inUse m) (f : T → T) :
    (m.writeNoAttr f).toSetMap = m.toSetMap.writeNoAttr f := by
  obtain ⟨_, hvalue, hcell, htouched⟩ := writeNoAttr_spec hinv f
  exact SetMap.ext_cells hvalue hcell htouched

omit [Add T] [Sub T] [AtomicInteger T] in
theorem toSetMap_updateBucket (hinit : cfg.initBucket = 0) (hfree : CollisionFree cfg inUse)
    {m : BucketMap K T} (hinv : Inv cfg inUse m) {attrs : List K} (hne : attrs ≠ [])
    (hattrs : attrs ∈ inUse) (f : T → T) :
    (m.updateBucket cfg attrs f).toSetMap = m.toSetMap.update attrs.toFinset f := by
  have hspec := updateBucket_spec hfree hinv hne hattrs f
  apply SetMap.ext_cells
  · show (m.updateBucket cfg attrs f).valueOf = _
    rw [hspec.valueOf, hinit]
    rfl
  · exact hspec.noAttrCell
  · exact hspec.noAttrTouched

omit [Add T] [Sub T] [AtomicInteger T] in
/-- The shape `add`, `sub` and `set` share. -/
theorem write_refines (hinit : cfg.initBucket = 0) (hfree : CollisionFree cfg inUse)
    {m : BucketMap K T} (hinv : Inv cfg inUse m) {attrs : List K} (hattrs : attrs ∈ inUse)
    (f : T → T) :
    Inv cfg inUse (if attrs.isEmpty then m.writeNoAttr f else m.updateBucket cfg attrs f) ∧
      (if attrs.isEmpty then m.writeNoAttr f else m.updateBucket cfg attrs f).toSetMap =
        m.toSetMap.write attrs f := by
  cases hempty : attrs.isEmpty with
  | true =>
      simp only [SetMap.write, hempty, if_true]
      exact ⟨(writeNoAttr_spec hinv f).1, toSetMap_writeNoAttr hinv f⟩
  | false =>
      have hne : attrs ≠ [] := by simpa using hempty
      simp only [SetMap.write, hempty, Bool.false_eq_true, if_false]
      exact ⟨(updateBucket_spec hfree hinv hne hattrs f).inv,
        toSetMap_updateBucket hinit hfree hinv hne hattrs f⟩

theorem reset_refines (hinit : cfg.initBucket = 0) (hfree : CollisionFree cfg inUse)
    {m : BucketMap K T} (hinv : Inv cfg inUse m) {attrs : List K} (hattrs : attrs ∈ inUse) :
    Inv cfg inUse (m.reset cfg attrs).1 ∧
      m.toSetMap.Step (.reset attrs) (.value (m.reset cfg attrs).2)
        (m.reset cfg attrs).1.toSetMap := by
  simp only [reset, SetMap.Step, SetMap.valueAt, AtomicInteger.reset_eq]
  cases hempty : attrs.isEmpty with
  | true =>
      obtain ⟨hvalue, hcell⟩ := valueOf_modifyCell_noAttr hinv fun _ => (0 : T)
      simp only [if_true]
      exact ⟨hinv.modifyCell _ _, rfl, SetMap.ext_cells hvalue hcell rfl⟩
  | false =>
      have hne : attrs ≠ [] := by simpa using hempty
      have hspec := getOrCreate_spec hfree hinv hne hattrs
      have hvalue := (hspec.valueOf_eq hinv).1
      have hbucket := hspec.obtains.bucketOf_eq
      have hcell : (m.getOrCreate cfg attrs).1.cells (m.getOrCreate cfg attrs).2 =
          (m.valueOf attrs.toFinset).getD 0 := by
        have hhere := congrFun hvalue attrs.toFinset
        rw [Function.update_self, valueOf, hbucket, hinit] at hhere
        exact Option.some_inj.mp hhere
      simp only [Bool.false_eq_true, if_false, hcell]
      exact ⟨hspec.inv.modifyCell _ _, rfl,
        toSetMap_updateBucket hinit hfree hinv hne hattrs fun _ => 0⟩

/-! ## Drains -/

theorem toSetMap_drained {m m' : BucketMap K T} (h : Drained cfg inUse m m') :
    m'.toSetMap = SetMap.empty :=
  SetMap.ext_cells h.valueOf (h.noAttrCell.trans (AtomicInteger.clear_eq _)) h.noAttrTouched

omit [Add T] [Sub T] [OfNat T 0] [AtomicInteger T] in
/-- The canonical table enumerates the present sets. -/
theorem enumerates_elems {m : BucketMap K T} (hinv : Inv cfg inUse m) :
    m.toSetMap.Enumerates
      (m.canonical.elems.map fun e => (e.attrs.toFinset, m.cells e.bucket)) := by
  constructor
  · rw [List.map_map]
    have hinj : ∀ e ∈ m.canonical.elems, ∀ e' ∈ m.canonical.elems,
        e.attrs.toFinset = e'.attrs.toFinset → e = e' := by
      intro e he e' he' hset
      apply entry_eq_of_attrs_eq hinv.canon.nodup he he'
      rw [← hinv.canon.canonical e he, ← hinv.canon.canonical e' he']
      exact normalize_eq_normalize_iff.mpr hset
    exact (List.Nodup.of_map _ hinv.canon.nodup).map_on hinj
  · intro set value
    show _ ↔ m.valueOf set = some value
    rw [valueOf, Option.map_eq_some_iff, List.mem_map]
    constructor
    · rintro ⟨e, he, hpair⟩
      obtain ⟨rfl, rfl⟩ := Prod.mk.inj hpair
      exact ⟨e.bucket, bucketOf_toFinset_of_mem hinv.canon he, rfl⟩
    · rintro ⟨bucket, hbucket, rfl⟩
      obtain ⟨e, he, hattrs, rfl⟩ := (bucketOf_eq_some_iff hinv.canon).mp hbucket
      exact ⟨e, he, by rw [hattrs, Finset.sort_toFinset]⟩

omit [Add T] [Sub T] [OfNat T 0] [AtomicInteger T] in
/-- Shown to a callback, an entry is its own list of attributes. -/
theorem shown_of_mem {m : BucketMap K T} (hinv : Inv cfg inUse m) {e : CanonicalEntry K}
    (he : e ∈ m.canonical.elems) :
    SetMap.shown (e.attrs.toFinset, m.cells e.bucket) = (e.attrs, m.cells e.bucket) := by
  rw [SetMap.shown, ← normalize_eq_sort, hinv.canon.canonical e he]

theorem take_refines {m : BucketMap K T} (hinv : Inv cfg inUse m) :
    Inv cfg inUse m.take.1 ∧
      m.toSetMap.Step .take
        (.taken (m.take.1.readTable m.take.2.1) m.take.2.2)
        m.take.1.toSetMap := by
  obtain ⟨hdrained, _, hnoAttr⟩ := take_spec hinv
  refine ⟨hdrained.inv, ⟨_, enumerates_elems hinv, ?_⟩, toSetMap_drained hdrained⟩
  have hentries : m.take.1.readTable m.take.2.1 =
      (m.canonical.elems.map fun e => (e.attrs.toFinset, m.cells e.bucket)).map SetMap.shown := by
    rw [readTable_take hinv, readTable, List.map_map]
    apply List.map_congr_left
    intro e he
    rw [AtomicInteger.current_eq]
    exact (shown_of_mem hinv he).symm
  rw [hentries, hnoAttr]
  simp only [AtomicInteger.current_eq]
  rfl

/-! ## Visits -/

theorem visitBucket_refines (hfree : CollisionFree cfg inUse) {m : BucketMap K T}
    (hinv : Inv cfg inUse m) (cb : Callback K T) :
    Inv cfg inUse (m.visitBucket cfg (logCalls cb) []).1 ∧
      m.toSetMap.Step (.visitBucket cb) (.visited (m.visitBucket cfg (logCalls cb) []).2)
        (m.visitBucket cfg (logCalls cb) []).1.toSetMap := by
  have hvisited := visitBucket_spec hfree hinv cb
  refine ⟨hvisited.inv, _, _, enumerates_elems hinv, ?_, rfl, ?_⟩
  · rw [hvisited.calls_eq]
    congr 1
    have hshown : (m.canonical.elems.map fun e =>
        (e.attrs.toFinset, m.cells e.bucket)).map SetMap.shown =
        m.readTable m.canonical := by
      rw [readTable, List.map_map]
      apply List.map_congr_left
      intro e he
      rw [AtomicInteger.current_eq]
      exact shown_of_mem hinv he
    rw [hshown, shownNoAttr, AtomicInteger.current_eq]
    rfl
  · apply SetMap.ext_cells
    · funext set
      by_cases hrefused : SetMap.Refused (m.visitBucket cfg (logCalls cb) []).2
          (set.sort (· ≤ ·))
      · rw [SetMap.cells_evict_of_refused hrefused]
        exact hvisited.valueOf_refused set hrefused
      · rw [SetMap.cells_evict_of_not_refused hrefused]
        exact hvisited.valueOf_kept set hrefused
    · by_cases hrefused : SetMap.Refused (m.visitBucket cfg (logCalls cb) []).2 []
      · rw [(SetMap.noAttr_evict_of_refused hrefused).1]
        exact (hvisited.noAttr_refused hrefused).1.trans (AtomicInteger.clear_eq _)
      · rw [(SetMap.noAttr_evict_of_not_refused hrefused).1]
        exact (hvisited.noAttr_kept hrefused).1
    · by_cases hrefused : SetMap.Refused (m.visitBucket cfg (logCalls cb) []).2 []
      · rw [(SetMap.noAttr_evict_of_refused hrefused).2]
        exact (hvisited.noAttr_refused hrefused).2
      · rw [(SetMap.noAttr_evict_of_not_refused hrefused).2]
        exact (hvisited.noAttr_kept hrefused).2

/-! ## Runs -/

/-- Each operation preserves the invariant and does what the finite map does. -/
theorem exec_refines (hinit : cfg.initBucket = 0) (hfree : CollisionFree cfg inUse)
    {m : BucketMap K T} (hinv : Inv cfg inUse m) (op : ScalarOp K T)
    (hlists : ∀ attrs ∈ op.lists, attrs ∈ inUse) :
    Inv cfg inUse (m.exec cfg op).1 ∧
      m.toSetMap.Step op (m.exec cfg op).2 (m.exec cfg op).1.toSetMap := by
  cases op with
  | add value attrs =>
      have hwrite := write_refines hinit hfree hinv (hlists attrs (by simp [ScalarOp.lists]))
        (· + value)
      simp only [exec, add, AtomicInteger.add_eq]
      exact ⟨hwrite.1, rfl, hwrite.2⟩
  | sub value attrs =>
      have hwrite := write_refines hinit hfree hinv (hlists attrs (by simp [ScalarOp.lists]))
        (· - value)
      simp only [exec, sub, AtomicInteger.sub_eq]
      exact ⟨hwrite.1, rfl, hwrite.2⟩
  | set value attrs =>
      have hwrite := write_refines hinit hfree hinv (hlists attrs (by simp [ScalarOp.lists]))
        fun _ => value
      simp only [exec, set, AtomicInteger.store_eq]
      exact ⟨hwrite.1, rfl, hwrite.2⟩
  | reset attrs => exact reset_refines hinit hfree hinv (hlists attrs (by simp [ScalarOp.lists]))
  | clear =>
      have hdrained := clear_spec hinv
      exact ⟨hdrained.inv, rfl, toSetMap_drained hdrained⟩
  | take => exact take_refines hinv
  | visitBucket cb => exact visitBucket_refines hfree hinv cb

theorem execAll_refines (hinit : cfg.initBucket = 0) (hfree : CollisionFree cfg inUse)
    {m : BucketMap K T} (hinv : Inv cfg inUse m) (ops : List (ScalarOp K T))
    (hlists : ∀ op ∈ ops, ∀ attrs ∈ op.lists, attrs ∈ inUse) :
    SetMap.Runs m.toSetMap ops (m.execAll cfg ops).2 (m.execAll cfg ops).1.toSetMap := by
  induction ops generalizing m with
  | nil => exact .nil _
  | cons op rest ih =>
      obtain ⟨hinv', hstep⟩ :=
        exec_refines hinit hfree hinv op (hlists op (List.mem_cons_self ..))
      exact .cons hstep (ih hinv' fun op' hop' => hlists op' (List.mem_cons_of_mem op hop'))

omit [Add T] [Sub T] [AtomicInteger T] in
theorem toSetMap_withStorage (hinit : cfg.initBucket = 0) :
    (withStorage cfg).toSetMap = SetMap.empty :=
  SetMap.ext_cells rfl hinit rfl

end Integer

end BucketMap

/-- A new map taken through `ops` returns what the finite map returns and ends
standing for the finite map's last state. -/
def BucketMap.ActsAsSetMap {K T : Type} [LinearOrder K] [Add T] [Sub T] [OfNat T 0]
    [AtomicInteger T] (hasher : BuildHasher K) (layout : Layout)
    (ops : List (ScalarOp K T)) : Prop :=
  let cfg := Config.withHasher T hasher layout
  let final := (withStorage cfg).execAll cfg ops
  SetMap.Runs SetMap.empty ops final.2 final.1.toSetMap

theorem BucketMap.actsAsSetMap_of_collisionFree {K T : Type} [LinearOrder K] [Add T] [Sub T]
    [OfNat T 0] [AtomicInteger T] {hasher : BuildHasher K} {layout : Layout}
    {ops : List (ScalarOp K T)}
    (hfree : CollisionFree (Config.withHasher T hasher layout) (listsOf ops)) :
    ActsAsSetMap hasher layout ops := by
  have hinit : (Config.withHasher T hasher layout).initBucket = 0 :=
    AtomicInteger.ofValue_default
  have hruns := execAll_refines hinit hfree (inv_withStorage _ (listsOf ops)) ops
    fun op hop attrs hattrs => List.mem_flatMap.mpr ⟨op, hop, hattrs⟩
  rw [toSetMap_withStorage hinit] at hruns
  exact hruns

/-- Both integer measurements: any calls with any attribute lists, under any hasher
whose fingerprints do not collide on those lists, act on the finite map. -/
theorem bucketMap_refines_setMap {K : Type} [LinearOrder K] (hasher : BuildHasher K)
    (layout : Layout) :
    (∀ ops : List (ScalarOp K UInt64),
        CollisionFree (Config.withHasher UInt64 hasher layout) (listsOf ops) →
          BucketMap.ActsAsSetMap hasher layout ops) ∧
      ∀ ops : List (ScalarOp K Int64),
        CollisionFree (Config.withHasher Int64 hasher layout) (listsOf ops) →
          BucketMap.ActsAsSetMap hasher layout ops :=
  ⟨fun _ => BucketMap.actsAsSetMap_of_collisionFree,
    fun _ => BucketMap.actsAsSetMap_of_collisionFree⟩

/-- Two orders of one list, a visit that evicts their bucket, and a write after it. -/
theorem bucketMap_refines_setMap_shuffled :
    BucketMap.ActsAsSetMap (T := UInt64) ⟨UInt64.ofNat, AttrFingerprint.sum⟩ Layout.stack
      [.add 5 [2, 1], .sub 3 [1, 2], .visitBucket fun _ _ value => value != 2, .set 7 [2, 1],
        .take] := by
  apply (bucketMap_refines_setMap _ _).1
  apply CollisionFree.of_perm [1, 2]
  show ∀ attrs ∈ [[2, 1], [1, 2], [2, 1]], attrs.Perm [1, 2]
  decide

end Ohnotel
