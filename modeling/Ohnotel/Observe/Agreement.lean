/-
# Counters and histograms add up

The two cells whose snapshots are numbers that add up, and what that makes of the
three modes: for every set of attributes, what delta mode files, what destructive mode
files and the last value of direct mode are one total, which is what was recorded
before the last observation.
-/

import Ohnotel.Observe.Modes

namespace Ohnotel

open Foundation Atomic

/-! ## The cell of a counter -/

theorem toNat_foldl_add (start : UInt64) (values : List UInt64)
    (hbounded : start.toNat + (values.map UInt64.toNat).sum < 2 ^ 64) :
    (values.foldl Record.add start).toNat = start.toNat + (values.map UInt64.toNat).sum := by
  induction values generalizing start with
  | nil => rfl
  | cons value rest ih =>
      rw [List.map_cons, List.sum_cons, ← Nat.add_assoc] at hbounded ⊢
      have hfirst : (Record.add start value : UInt64).toNat = start.toNat + value.toNat := by
        rw [add_uint64, UInt64.toNat_add]
        exact Nat.mod_eq_of_lt (by omega)
      rw [List.foldl_cons, ih (Record.add start value) (by rw [hfirst]; exact hbounded), hfirst]

theorem lt_uint64 {first second : UInt64} (hlt : first.toNat < second.toNat) :
    PartialOrd.lt first second = true := by
  have hcompare : compare first second = .lt :=
    compareOfLessAndEq_eq_lt.mpr (UInt64.lt_iff_toNat_lt.mpr hlt)
  simp [PartialOrd.lt, PartialOrd.partialCmp, hcompare]

theorem toNat_sub_of_le {first second : UInt64} (hle : second.toNat ≤ first.toNat) :
    (first - second).toNat = first.toNat - second.toNat :=
  UInt64.toNat_sub_of_le _ _ (UInt64.le_iff_toNat_le.mpr hle)

theorem toNat_saturatingSub (first second : UInt64) :
    (saturatingSub first second).toNat = first.toNat - second.toNat := by
  rw [saturatingSub]
  split
  · rename_i hlt
    have hlt' := UInt64.lt_iff_toNat_lt.mp hlt
    rw [Nat.sub_eq_zero_of_le hlt'.le]
    rfl
  · rename_i hle
    exact toNat_sub_of_le (UInt64.le_iff_toNat_le.mp (UInt64.not_lt.mp hle))

/-- The value of a counter is the total of what was added. -/
theorem toNat_addAll_zero {values : List UInt64}
    (hbounded : (values.map UInt64.toNat).sum < 2 ^ 64) :
    (Record.current (addAll (0 : UInt64) values)).toNat = (values.map UInt64.toNat).sum := by
  have hsum := toNat_foldl_add 0 values (by simpa using hbounded)
  simpa [addAll] using hsum

/-- The total before a change is part of the total after it. -/
theorem totalOf_le {I T : Type} (weight : I → T → Nat) (i : I) (before since : List T) :
    totalOf weight i before ≤ totalOf weight i (before ++ since) := by
  rw [totalOf_append]
  exact Nat.le_add_right _ _

/-- A counter adds up. -/
def counterMeter : Meter Unit (Measure.ofValue (Measure.default : UInt64) : UInt64) where
  weight _ value := value.toNat
  part _ value := value.toNat
  part_current values hbounded _ := toNat_addAll_zero (hbounded ())
  part_difference before since hbounded hne _ := by
    have hbefore := toNat_addAll_zero (hbounded.of_append ())
    have hboth := toNat_addAll_zero (hbounded ())
    have hle := totalOf_le (fun _ : Unit => UInt64.toNat) () before since
    have hlt := lt_of_le_of_ne (hbefore.trans_le (hle.trans_eq hboth.symm)) fun hsame =>
      hne (UInt64.toNat_inj.mp hsame)
    refine (congrArg UInt64.toNat (if_pos (lt_uint64 hlt))).trans ?_
    refine (toNat_sub_of_le hlt.le).trans ?_
    rw [hbefore, hboth, List.map_append, List.sum_append, Nat.add_sub_cancel_left]
    rfl
  total_of_isInitial values hbounded hinitial _ := by
    have hzero : Record.current (addAll (0 : UInt64) values) = 0 := beq_iff_eq.mp hinitial
    have hsum := toNat_addAll_zero (hbounded ())
    rw [hzero] at hsum
    exact hsum.symm
  clear_addAll _ := rfl

/-! ## The cell of a histogram -/

/-- The numbers in a histogram's snapshot that add up. -/
inductive Part
  | bucketCount (index : Nat)
  | count
  | sum
  deriving DecidableEq

namespace Part

/-- What recording a value adds to a number. -/
def weight (boundaries : Boundaries UInt64) : Part → UInt64 → Nat
  | .bucketCount index, value => if bucketIndex boundaries value = index then 1 else 0
  | .count, _ => 1
  | .sum, value => value.toNat

/-- A number of a snapshot.  A bucket that does not exist counts nothing. -/
def read : Part → Snapshot UInt64 → Nat
  | .bucketCount index, snapshot => (snapshot.bucketCounts.getD index 0).toNat
  | .count, snapshot => snapshot.count.toNat
  | .sum, snapshot => snapshot.sum.toNat

variable {boundaries : Boundaries UInt64}

theorem totalOf_count (values : List UInt64) :
    totalOf (weight boundaries) .count values = values.length := by
  show (values.map fun _ => 1).sum = values.length
  simp

theorem totalOf_bucketCount (index : Nat) (values : List UInt64) :
    totalOf (weight boundaries) (.bucketCount index) values =
      values.countP fun value => bucketIndex boundaries value = index := by
  induction values with
  | nil => rfl
  | cons value rest ih =>
      have hcons : totalOf (weight boundaries) (.bucketCount index) (value :: rest) =
          weight boundaries (.bucketCount index) value +
            totalOf (weight boundaries) (.bucketCount index) rest := List.sum_cons
      rw [hcons, ih, List.countP_cons, weight, Nat.add_comm]
      simp

theorem totalOf_sum (values : List UInt64) :
    totalOf (weight boundaries) .sum values = (values.map UInt64.toNat).sum := rfl

/-- What the cell of a histogram shows after it recorded values. -/
def shownAfter (boundaries : Boundaries UInt64) (values : List UInt64) : Snapshot UInt64 :=
  Record.current (addAll (Bucket.fromCheckedBoundaries boundaries : Bucket UInt64 UInt64) values)

variable (boundaries) in
theorem isAggregate_shownAfter (values : List UInt64) :
    IsAggregate boundaries values (shownAfter boundaries values) :=
  isAggregate_foldl_add boundaries fun _ _ => rfl

theorem length_bucketCounts (values : List UInt64) :
    (shownAfter boundaries values).bucketCounts.length = boundaries.values.length + 1 := by
  rw [(isAggregate_shownAfter boundaries values).bucketCounts_eq, List.length_map,
    List.length_range]

/-- A histogram's snapshot shows the totals of what was recorded. -/
theorem read_shownAfter {values : List UInt64} (hbounded : Bounded (weight boundaries) values)
    (part : Part) :
    part.read (shownAfter boundaries values) = totalOf (weight boundaries) part values := by
  have haggregate := isAggregate_shownAfter boundaries values
  have hfew : values.length < 2 ^ 64 := by
    have hcount := hbounded .count
    rwa [totalOf_count] at hcount
  cases part with
  | bucketCount index =>
      rw [totalOf_bucketCount, read, haggregate.bucketCounts_eq]
      by_cases hindex : index < boundaries.values.length + 1
      · have hhere := toNat_ofNat_countP hfew fun value => bucketIndex boundaries value = index
        simpa [List.getElem?_range hindex] using hhere
      · have hnone : (List.range (boundaries.values.length + 1))[index]? = none :=
          List.getElem?_eq_none (by simpa using hindex)
        rw [List.getD_eq_getElem?_getD, List.getElem?_map, hnone, eq_comm]
        apply List.countP_eq_zero.mpr
        intro value _ hhere
        have hle := bucketIndex_le boundaries value
        have heq : bucketIndex boundaries value = index := by simpa using hhere
        omega
  | count =>
      rw [totalOf_count]
      exact (haggregate.toNat_count hfew).1
  | sum =>
      have hvalues : ∀ value ∈ values, comparable value := fun _ _ => rfl
      have hstate := (state_foldl_add (C := UInt64) boundaries hvalues).2
      have hsum : (shownAfter boundaries values).sum = values.foldl Record.add 0 :=
        congrArg State.sum hstate
      have hsmall := hbounded .sum
      rw [totalOf_sum] at hsmall ⊢
      rw [read, hsum, toNat_foldl_add 0 values (by simpa using hsmall)]
      exact Nat.zero_add _

/-- A difference shows, part by part, the difference of what the two snapshots show. -/
theorem read_sub {first second : Snapshot UInt64}
    (hlength : first.bucketCounts.length = second.bucketCounts.length) (part : Part)
    (hle : part.read second ≤ part.read first) :
    part.read (first - second) = part.read first - part.read second := by
  cases part with
  | bucketCount index =>
      show ((List.zipWith saturatingSub first.bucketCounts second.bucketCounts).getD
        index 0).toNat = _
      rw [read, read, List.getD_eq_getElem?_getD, List.getD_eq_getElem?_getD,
        List.getD_eq_getElem?_getD, List.getElem?_zipWith]
      by_cases hindex : index < first.bucketCounts.length
      · rw [List.getElem?_eq_getElem hindex, List.getElem?_eq_getElem (hlength ▸ hindex)]
        exact toNat_saturatingSub _ _
      · rw [List.getElem?_eq_none (Nat.not_lt.mp hindex)]
        simp
  | count => exact toNat_saturatingSub _ _
  | sum => exact toNat_sub_of_le hle

/-- A bucket counts no more than there are values. -/
theorem bounded {values : List UInt64} (hsum : (values.map UInt64.toNat).sum < 2 ^ 64)
    (hcount : values.length < 2 ^ 64) : Bounded (weight boundaries) values
  | .bucketCount index => by
      rw [totalOf_bucketCount]
      exact lt_of_le_of_lt List.countP_le_length hcount
  | .count => by rwa [totalOf_count]
  | .sum => hsum

end Part

/-- A histogram adds up. -/
def histogramMeter (boundaries : Boundaries UInt64) :
    Meter Part (Bucket.fromCheckedBoundaries boundaries : Bucket UInt64 UInt64) where
  weight := Part.weight boundaries
  part := Part.read
  part_current _ hbounded part := Part.read_shownAfter hbounded part
  part_difference before since hbounded hne part := by
    have hbefore := Part.read_shownAfter hbounded.of_append
    have hboth := Part.read_shownAfter hbounded
    have hsince : since ≠ [] := by
      intro hnil
      rw [hnil, List.append_nil] at hne
      exact hne rfl
    -- Snapshots are compared by their counts, and the count has grown.
    have hlt : PartialOrd.lt (Part.shownAfter boundaries before)
        (Part.shownAfter boundaries (before ++ since)) = true := by
      apply lt_uint64
      refine (hbefore .count).trans_lt (lt_of_lt_of_eq ?_ (hboth .count).symm)
      rw [totalOf_append, Part.totalOf_count, Part.totalOf_count]
      exact Nat.lt_add_of_pos_right (List.length_pos_iff.mpr hsince)
    refine (congrArg part.read (if_pos hlt)).trans ?_
    rw [← Part.shownAfter, ← Part.shownAfter, Part.read_sub, hbefore, hboth, totalOf_append,
      Nat.add_sub_cancel_left]
    · rw [Part.length_bucketCounts, Part.length_bucketCounts]
    · rw [hbefore, hboth]
      exact totalOf_le _ _ _ _
  total_of_isInitial values hbounded hinitial part := by
    have hcount := Part.read_shownAfter hbounded .count
    have hzero : (Part.shownAfter boundaries values).count = 0 := beq_iff_eq.mp hinitial
    rw [Part.read, hzero, Part.totalOf_count] at hcount
    have hnil : values = [] := List.length_eq_zero_iff.mp hcount.symm
    rw [hnil]
    rfl
  clear_addAll values := clear_addAll values

/-! ## The three modes -/

/-- What the three modes file for one set amounts to one total: the sum in delta and
in destructive mode, the last value in direct mode.  Where one of them files nothing,
the others file nothing or zeros. -/
structure AgreeOn {V : Type} (part : V → Nat) (total : Nat) (direct delta destructive : List V) :
    Prop where
  last_eq : (direct.getLast?.map part).getD 0 = total
  sum_delta : (delta.map part).sum = total
  sum_destructive : (destructive.map part).sum = total
  absent : direct = [] ∨ delta = [] ∨ destructive = [] →
    (∀ value ∈ direct.getLast?, part value = 0) ∧ (∀ value ∈ delta, part value = 0) ∧
      ∀ value ∈ destructive, part value = 0

theorem AgreeOn.of_totals {V : Type} {part : V → Nat} {total : Nat}
    {direct delta destructive : List V}
    (hdirect : (direct.getLast?.map part).getD 0 = total)
    (hdelta : (delta.map part).sum = total)
    (hdestructive : (destructive.map part).sum = total) :
    AgreeOn part total direct delta destructive := by
  refine ⟨hdirect, hdelta, hdestructive, fun habsent => ?_⟩
  have hzero : total = 0 := by
    rcases habsent with hnil | hnil | hnil
    · rw [← hdirect, hnil]
      rfl
    · rw [← hdelta, hnil]
      rfl
    · rw [← hdestructive, hnil]
      rfl
  have hall : ∀ values : List V, (values.map part).sum = 0 → ∀ value ∈ values, part value = 0 :=
    fun values hsum value hvalue =>
      List.sum_eq_zero_iff_forall_eq_nat.mp hsum _ (List.mem_map_of_mem hvalue)
  refine ⟨fun value hvalue => ?_, hall _ (hdelta.trans hzero), hall _ (hdestructive.trans hzero)⟩
  rw [Option.mem_def.mp hvalue, hzero] at hdirect
  exact hdirect

open ObserverOp Observed

section Agree

variable {K A T V : Type} [LinearOrder K] [Record A T V] [BEq V] [LawfulBEq V] [PartialOrd V]
  [Sub V] [IsInitial V]

/-- Three observers of one kind of cell, one in each mode. -/
theorem Meter.modes_agree {I : Type} {init : A} (meter : Meter (V := V) I init)
    (hasher : Mode → BuildHasher K) (layout : Mode → Layout) (id : NameIdentity) {kind : Kind}
    (hkind : kind ≠ .gauge) (now : Mode → SystemTime) {ops : List (ObserverOp K T)}
    (hfree : ∀ mode, CollisionFree (Config.mk (hasher mode) init (layout mode))
      (ObserverOp.listsOf ops))
    (hbounded : ∀ set, Bounded meter.weight (recordedIn ops set)) :
    ∃ final : Mode → Observed K A V,
      (∀ mode, observeAs (Config.mk (hasher mode) init (layout mode)) id kind mode (now mode)
        ops = .ok (final mode)) ∧
        (∀ mode attrs, (final mode).values attrs ≠ [] → normalize attrs = attrs) ∧
        ∀ set i, AgreeOn (meter.part i)
          (totalOf meter.weight i (recordedIn (untilLastObserve ops) set))
          ((final .direct).values (set.sort (· ≤ ·))) ((final .delta).values (set.sort (· ≤ ·)))
          ((final .destructive).values (set.sort (· ≤ ·))) := by
  obtain ⟨direct, hdirect, hdirectInv⟩ :=
    observeAs_direct (V := V) id (now .direct) (hfree .direct) hkind
  obtain ⟨delta, hdelta, hdeltaInv⟩ :=
    observeAs_delta id (now .delta) meter (hfree .delta) hkind hbounded
  obtain ⟨destructive, hdestructive, hdestructiveInv⟩ :=
    observeAs_destructive id (now .destructive) meter (hfree .destructive) hkind hbounded
  refine ⟨fun | .direct => direct | .delta => delta | .destructive => destructive, ?_, ?_, ?_⟩
  · intro mode
    cases mode with
    | direct => exact hdirect
    | delta => exact hdelta
    | destructive => exact hdestructive
  · intro mode
    cases mode with
    | direct => exact hdirectInv.files.canonical
    | delta => exact hdeltaInv.files.canonical
    | destructive => exact hdestructiveInv.files.canonical
  · intro set i
    apply AgreeOn.of_totals _ (hdeltaInv.total set i) (hdestructiveInv.total set i)
    rw [hdirectInv.latest set]
    -- The observations so far saw a beginning of the run, whose totals are bounded too.
    obtain ⟨since, hsince⟩ := exists_recordedIn_eq ops
    have hbefore : Bounded meter.weight (recordedIn (untilLastObserve ops) set) :=
      (hsince set ▸ hbounded set).of_append
    split
    · rename_i hnil
      rw [hnil]
      rfl
    · exact meter.part_current _ hbefore i

end Agree

variable {K : Type} [LinearOrder K]

/-- One run of adds, observations and exports on a counter and on a histogram, observed
in each of the three modes: for every set of attributes, the empty one included, the
values filed in delta mode, those filed in destructive mode and the last value in
direct mode amount to the total recorded before the last observation.  Nothing is filed
under a list that is not the sorted list of a set. -/
theorem observation_modes_agree (hasher : Mode → BuildHasher K) (layout : Mode → Layout)
    (id : NameIdentity) (now : Mode → SystemTime) (ops : List (ObserverOp K UInt64))
    (hsums : ∀ set, ((recordedIn ops set).map UInt64.toNat).sum < 2 ^ 64) :
    ((∀ mode, CollisionFree (Config.withHasher UInt64 (hasher mode) (layout mode))
        (ObserverOp.listsOf ops)) →
      ∃ final : Mode → Observed K UInt64 UInt64,
        (∀ mode, observeAs (Config.withHasher UInt64 (hasher mode) (layout mode)) id .counter
          mode (now mode) ops = .ok (final mode)) ∧
        (∀ mode attrs, (final mode).values attrs ≠ [] → normalize attrs = attrs) ∧
        ∀ set, AgreeOn UInt64.toNat
          ((recordedIn (untilLastObserve ops) set).map UInt64.toNat).sum
          ((final .direct).values (set.sort (· ≤ ·))) ((final .delta).values (set.sort (· ≤ ·)))
          ((final .destructive).values (set.sort (· ≤ ·)))) ∧
    ∀ boundaries : Boundaries UInt64,
      (∀ mode, CollisionFree (Histogram.storage boundaries (hasher mode) (layout mode))
        (ObserverOp.listsOf ops)) →
      (∀ set, (recordedIn ops set).length < 2 ^ 64) →
      ∃ final : Mode → Observed K (Bucket UInt64 UInt64) (Snapshot UInt64),
        (∀ mode, observeAs (Histogram.storage boundaries (hasher mode) (layout mode)) id
          .histogram mode (now mode) ops = .ok (final mode)) ∧
        (∀ mode attrs, (final mode).values attrs ≠ [] → normalize attrs = attrs) ∧
        ∀ set part, AgreeOn (Part.read part)
          (totalOf (Part.weight boundaries) part (recordedIn (untilLastObserve ops) set))
          ((final .direct).values (set.sort (· ≤ ·))) ((final .delta).values (set.sort (· ≤ ·)))
          ((final .destructive).values (set.sort (· ≤ ·))) := by
  constructor
  · intro hfree
    obtain ⟨final, hfinal, hcanonical, hagree⟩ := counterMeter.modes_agree hasher layout id
      (by decide : Kind.counter ≠ .gauge) now hfree fun set _ => hsums set
    exact ⟨final, hfinal, hcanonical, fun set => hagree set ()⟩
  · intro boundaries hfree hcounts
    exact (histogramMeter boundaries).modes_agree hasher layout id
      (by decide : Kind.histogram ≠ .gauge) now hfree
      fun set => Part.bounded (hsums set) (hcounts set)

/-- Two orders of one set and no attributes at all, an export between two observations,
and an add after the last one: the set amounts to 9 in every mode, in 2 measurements. -/
theorem observation_modes_agree_shuffled :
    let hasher : BuildHasher Nat := ⟨UInt64.ofNat, AttrFingerprint.sum⟩
    let id : NameIdentity := ⟨"requests", "", ""⟩
    let ops : List (ObserverOp Nat UInt64) :=
      [.add 5 [2, 1], .add 3 [], .observe 10, .exportSeries, .add 4 [1, 2], .observe 20, .add 8 [1]]
    let boundaries : Boundaries UInt64 := ⟨[4], by decide, by decide⟩
    let key := ({1, 2} : Finset Nat).sort (· ≤ ·)
    (∃ final : Mode → Observed Nat UInt64 UInt64,
      (∀ mode, observeAs (Config.withHasher UInt64 hasher Layout.stack) id .counter mode 0 ops =
        .ok (final mode)) ∧
      AgreeOn UInt64.toNat 9 ((final .direct).values key) ((final .delta).values key)
        ((final .destructive).values key)) ∧
    ∃ final : Mode → Observed Nat (Bucket UInt64 UInt64) (Snapshot UInt64),
      (∀ mode, observeAs (Histogram.storage boundaries hasher Layout.stack) id .histogram mode 0
        ops = .ok (final mode)) ∧
      AgreeOn (Part.read .count) 2 ((final .direct).values key) ((final .delta).values key)
        ((final .destructive).values key) := by
  intro hasher id ops boundaries key
  have hfree : ∀ {A : Type} (cfg : Config Nat A), cfg.hasher = hasher →
      CollisionFree cfg (ObserverOp.listsOf ops) := by
    intro A cfg hcfg first hfirst second hsecond hfp
    rw [hcfg] at hfp
    have hall : ∀ first ∈ ops.flatMap ObserverOp.lists, ∀ second ∈ ops.flatMap ObserverOp.lists,
        AttrFingerprint.commutativeHash hasher first =
          AttrFingerprint.commutativeHash hasher second → first.Perm second := by
      decide +kernel
    exact hall first hfirst second hsecond hfp
  have hsums : ∀ set, ((recordedIn ops set).map UInt64.toNat).sum < 2 ^ 64 := by
    intro set
    simp only [ops, recordedIn, recorded, List.flatMap_cons, List.flatMap_nil]
    split_ifs <;> decide
  have hcounts : ∀ set, (recordedIn ops set).length < 2 ^ 64 := by
    intro set
    simp only [ops, recordedIn, recorded, List.flatMap_cons, List.flatMap_nil]
    split_ifs <;> decide
  obtain ⟨hcounter, hhistogram⟩ := observation_modes_agree (fun _ => hasher)
    (fun _ => Layout.stack) id (fun _ => 0) ops hsums
  obtain ⟨counter, hrun, _, hagree⟩ := hcounter fun _ => hfree _ rfl
  obtain ⟨histogram, hrun', _, hagree'⟩ := hhistogram boundaries (fun _ => hfree _ rfl) hcounts
  have htotal : ((recordedIn (untilLastObserve ops) {1, 2}).map UInt64.toNat).sum = 9 := by
    decide +kernel
  have htotal' : totalOf (Part.weight boundaries) .count
      (recordedIn (untilLastObserve ops) {1, 2}) = 2 := by
    decide +kernel
  have hagreeAll := hagree {1, 2}
  have hagreeAll' := hagree' {1, 2} .count
  rw [htotal] at hagreeAll
  rw [htotal'] at hagreeAll'
  exact ⟨⟨counter, hrun, hagreeAll⟩, histogram, hrun', hagreeAll'⟩

end Ohnotel
