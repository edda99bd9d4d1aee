/-
# Exported times

A snapshot is exported with the time of its observation, or with one counted off from the
start of its observer, a period for each observation before.  The counted time is never
later than the recorded one; how far it lags behind is how long ago the ticks were that
went by without an observation.
-/

import Ohnotel.Collect.Schedule

namespace Ohnotel.Periodic

open Foundation Atomic

variable {platform : Platform} {K V W : Type}

/-- The time counted off from a start while the number of the snapshot fits, and the
recorded one from then on. -/
def countedTs (startTs : SystemTime) (period : Duration) (s : Observation V) : SystemTime :=
  if s.seqId.toNat < 2 ^ 32 then startTs + ↑(period * s.seqId.toNat) else s.ts

namespace Tracked

/-- The times that the snapshots of a list can be exported with: none of them before the
observer's start, the counted not after the recorded ones, and both increasing. -/
structure ExportedInOrder (platform : Platform) (period : Duration) (t : Tracked K V)
    (attrs : List K) : Prop where
  start_le : ∀ s ∈ t.pushed attrs, t.observer.startTime ≤ s.ts
  aligned : ∀ s ∈ t.pushed attrs, s.seqId.toNat < 2 ^ 32 → ∃ aligned,
    s.alignTs platform t.observer.startTime (some period) = some aligned ∧
      t.observer.startTime ≤ aligned ∧ aligned ≤ s.ts
  increasing : (t.pushed attrs).Pairwise fun first second => first.seqId < second.seqId
  once : ∀ s ∈ t.pushed attrs, s.seqId.toNat < t.served.length
  times : ∀ align ∈ [none, some period], ∃ time : Observation V → SystemTime,
    (∀ s ∈ t.pushed attrs, s.alignTs platform t.observer.startTime align = some (time s)) ∧
      (t.pushed attrs).Pairwise fun first second => time first < time second

variable {start : CollectorTime} {timer : GridTimer} {t : Tracked K V}

section Times

variable (h : t.OnSchedule platform start timer) (hstart : timer.start = start.instant)
  (hperiod : 0 < timer.period)

include h hstart hperiod

/-- The recorded time of an observation is as late as the observations before it take. -/
theorem OnSchedule.startTime_add_le {i : Nat} {service : Service}
    (hservice : t.served[i]? = some service) :
    t.observer.startTime + ↑(timer.period * i) ≤ start.reported service.now ∧
      timer.period * i ≤ Duration.max := by
  obtain ⟨hnow, hafter, hfits, _⟩ := h.timely service (List.mem_of_getElem? hservice)
  obtain ⟨hgrid, hle⟩ := h.tick_ge hperiod hservice
  have hjoined := h.joined.1
  have hlater := (GridTimer.lt_tickAfter hperiod (hgrid.1.trans (hnow.trans hafter))).1
  have hmax := platform.instantMax_le
  rw [hstart] at hjoined
  rw [h.startTime, CollectorTime.reported, CollectorTime.reported, Nat.mul_comm]
  constructor <;> lia

theorem OnSchedule.alignTs_eq (hfew : t.served.length ≤ 2 ^ 64) {attrs : List K}
    {s : Observation V} (hs : s ∈ t.pushed attrs) (hseq : s.seqId.toNat < 2 ^ 32) :
    s.alignTs platform t.observer.startTime (some timer.period) =
        some (t.observer.startTime + ↑(timer.period * s.seqId.toNat)) ∧
      t.observer.startTime + ↑(timer.period * s.seqId.toNat) ≤ s.ts := by
  obtain ⟨service, hservice, hts⟩ := (h.stamped hfew attrs).service s hs
  obtain ⟨hle, hmax⟩ := h.startTime_add_le hstart hperiod hservice
  obtain ⟨_, _, _, hsystem⟩ := h.timely service (List.mem_of_getElem? hservice)
  rw [← hts] at hle hsystem
  refine ⟨?_, hle⟩
  simp only [Observation.alignTs, if_pos hseq]
  exact if_pos ⟨hmax, hle.trans hsystem⟩

/-- Recorded times increase with the numbers of the snapshots. -/
theorem OnSchedule.ts_lt (hfew : t.served.length ≤ 2 ^ 64) {attrs : List K}
    {first second : Observation V} (hfirst : first ∈ t.pushed attrs)
    (hsecond : second ∈ t.pushed attrs) (hlt : first.seqId < second.seqId) :
    first.ts < second.ts := by
  obtain ⟨service, hservice, hts⟩ := (h.stamped hfew attrs).service first hfirst
  obtain ⟨later, hlater, hts'⟩ := (h.stamped hfew attrs).service second hsecond
  have htick := h.now_lt_tick hperiod (UInt64.lt_iff_toNat_lt.mp hlt) hservice hlater
  have hnow := (h.timely later (List.mem_of_getElem? hlater)).1
  obtain ⟨hnow', _⟩ := h.timely service (List.mem_of_getElem? hservice)
  have hgrid := (h.tick_ge hperiod hservice).1.1
  rw [hstart] at hgrid
  rw [hts, hts', CollectorTime.reported, CollectorTime.reported]
  lia

theorem OnSchedule.countedTs_lt (hfew : t.served.length ≤ 2 ^ 64) {attrs : List K}
    {first second : Observation V} (hfirst : first ∈ t.pushed attrs)
    (hsecond : second ∈ t.pushed attrs) (hlt : first.seqId < second.seqId) :
    countedTs t.observer.startTime timer.period first <
      countedTs t.observer.startTime timer.period second := by
  have hts := h.ts_lt hstart hperiod hfew hfirst hsecond hlt
  have hnumbers := UInt64.lt_iff_toNat_lt.mp hlt
  by_cases hseq : second.seqId.toNat < 2 ^ 32
  · rw [countedTs, countedTs, if_pos (hnumbers.trans hseq), if_pos hseq]
    exact Int.add_lt_add_left
      (Int.ofNat_lt.mpr (Nat.mul_lt_mul_of_pos_left hnumbers hperiod)) _
  · rw [countedTs, countedTs, if_neg hseq]
    by_cases hseq' : first.seqId.toNat < 2 ^ 32
    · -- The first time is still counted, and not after the one recorded with it.
      rw [if_pos hseq']
      exact lt_of_le_of_lt (h.alignTs_eq hstart hperiod hfew hfirst hseq').2 hts
    · rw [if_neg hseq']
      exact hts

theorem OnSchedule.exportedInOrder (hfew : t.served.length ≤ 2 ^ 64) (attrs : List K) :
    t.ExportedInOrder platform timer.period attrs where
  start_le s hs := by
    obtain ⟨service, hservice, hts⟩ := (h.stamped hfew attrs).service s hs
    have hle := (h.startTime_add_le hstart hperiod hservice).1
    rw [hts]
    lia
  aligned s hs hseq := by
    obtain ⟨haligned, hle⟩ := h.alignTs_eq hstart hperiod hfew hs hseq
    exact ⟨_, haligned, Int.le_add_of_nonneg_right (Int.natCast_nonneg _), hle⟩
  increasing := (h.stamped hfew attrs).increasing
  once s hs := (h.stamped hfew attrs).lt_length hs
  times align halign := by
    have hincreasing := (h.stamped hfew attrs).increasing
    rcases List.mem_cons.mp halign with rfl | halign
    · refine ⟨Observation.ts, fun s hs => rfl, hincreasing.imp_of_mem fun hfirst hsecond hlt => ?_⟩
      exact h.ts_lt hstart hperiod hfew hfirst hsecond hlt
    · obtain rfl := List.mem_singleton.mp halign
      refine ⟨countedTs t.observer.startTime timer.period, fun s hs => ?_,
        hincreasing.imp_of_mem fun hfirst hsecond hlt => ?_⟩
      · by_cases hseq : s.seqId.toNat < 2 ^ 32
        · rw [countedTs, if_pos hseq]
          exact (h.alignTs_eq hstart hperiod hfew hs hseq).1
        · rw [countedTs, if_neg hseq]
          simp only [Observation.alignTs, if_neg hseq]
      · exact h.countedTs_lt hstart hperiod hfew hfirst hsecond hlt

/-- A snapshot that was made within a period of its tick is exported within a period of the
time recorded, exactly if its number is the number of periods from the observer's start to
the tick, and exactly if every observation before it was over before the next tick. -/
theorem OnSchedule.lag_lt_iff (hfew : t.served.length ≤ 2 ^ 64) {attrs : List K}
    {s : Observation V} (hs : s ∈ t.pushed attrs) (hseq : s.seqId.toNat < 2 ^ 32) :
    ∃ service aligned, t.served[s.seqId.toNat]? = some service ∧
      s.ts = start.reported service.now ∧
      s.alignTs platform t.observer.startTime (some timer.period) = some aligned ∧
      (service.now < service.tick + timer.period →
        (s.ts - aligned < timer.period ↔
          start.reported service.tick =
            t.observer.startTime + ↑(s.seqId.toNat * timer.period)) ∧
        (s.ts - aligned < timer.period ↔
          ∀ earlier ∈ t.served.take s.seqId.toNat,
            earlier.after < earlier.tick + timer.period)) := by
  obtain ⟨service, hservice, hts⟩ := (h.stamped hfew attrs).service s hs
  obtain ⟨haligned, _⟩ := h.alignTs_eq hstart hperiod hfew hs hseq
  refine ⟨service, _, hservice, hts, haligned, fun htimely => ?_⟩
  obtain ⟨hgrid, hle⟩ := h.tick_ge hperiod hservice
  have hjoined := h.joined.1
  have hnow := (h.timely service (List.mem_of_getElem? hservice)).1
  have hticks : start.reported service.tick =
        t.observer.startTime + ↑(s.seqId.toNat * timer.period) ↔
      service.tick = t.joined + s.seqId.toNat * timer.period := by
    rw [hstart] at hjoined
    rw [h.startTime, CollectorTime.reported, CollectorTime.reported]
    constructor <;> (intro; lia)
  have hlag : s.ts - (t.observer.startTime + ↑(timer.period * s.seqId.toNat)) < timer.period ↔
      service.tick = t.joined + s.seqId.toNat * timer.period := by
    -- Ticks are whole periods apart, so one that is later is so by a period.
    obtain ⟨n, hn⟩ := h.joined.dvd_sub hgrid
    rw [hts, h.startTime, CollectorTime.reported, CollectorTime.reported]
    rw [hstart] at hjoined
    constructor
    · intro hlt
      have hbound : timer.period * n < timer.period * (s.seqId.toNat + 1) := by
        rw [Nat.mul_succ]
        lia
      have hnumber := Nat.lt_succ_iff.mp (Nat.lt_of_mul_lt_mul_left hbound)
      have hperiods := Nat.mul_le_mul_left timer.period hnumber
      rw [Nat.mul_comm s.seqId.toNat] at hle ⊢
      lia
    · intro heq
      rw [Nat.mul_comm] at heq
      lia
  rw [hticks, hlag]
  exact ⟨Iff.rfl, h.tick_eq_iff hperiod hservice⟩

end Times

end Tracked

/-! ## Every run -/

namespace Worker

variable [LinearOrder K] {config : Config} {start : CollectorTime} {events : List (Event K W)}
  {w : Worker K W}

/-- In every run whose ticks can be represented, a snapshot made within a period of its
tick is aligned to within a period of its time exactly if its number is the number of
periods to the tick, and exactly if no tick had been missed since its observer joined. -/
theorem lag_lt_iff_no_tick_missed
    (hfits : (Worker.step platform).Along (Representable platform) (new config start) events)
    (hrun : (Worker.step platform).run (new config start) events = some w) :
    ∀ r ∈ w.observers, r.tracked.served.length ≤ 2 ^ 64 → ∀ attrs, ∀ s ∈ r.tracked.pushed attrs,
      s.seqId.toNat < 2 ^ 32 → ∃ service aligned,
        r.tracked.served[s.seqId.toNat]? = some service ∧
        s.ts = start.reported service.now ∧
        s.alignTs platform r.tracked.observer.startTime (some config.pollPeriod) = some aligned ∧
        (service.now < service.tick + config.pollPeriod →
          (s.ts - aligned < config.pollPeriod ↔
            start.reported service.tick =
              r.tracked.observer.startTime + ↑(s.seqId.toNat * config.pollPeriod)) ∧
          (s.ts - aligned < config.pollPeriod ↔
            ∀ earlier ∈ r.tracked.served.take s.seqId.toNat,
              earlier.after < earlier.tick + config.pollPeriod)) := by
  intro r hr hfew attrs s hs hseq
  have hinv := onSchedule_run hfits hrun
  have hperiod : 0 < w.observeTimer.period := hinv.timer_period ▸ config.pollPeriod_pos
  rw [← hinv.timer_period]
  exact (hinv.observers r hr).lag_lt_iff hinv.timer_start hperiod hfew hs hseq

/-- In every run whose ticks can be represented, the times that the snapshots of an
observer are exported with are in order, as long as its observations can be numbered. -/
theorem exported_times_in_order
    (hfits : (Worker.step platform).Along (Representable platform) (new config start) events)
    (hrun : (Worker.step platform).run (new config start) events = some w) :
    ∀ r ∈ w.observers, r.tracked.served.length ≤ 2 ^ 64 → ∀ attrs,
      r.tracked.ExportedInOrder platform config.pollPeriod attrs := by
  intro r hr hfew attrs
  have hinv := onSchedule_run hfits hrun
  have hperiod : 0 < w.observeTimer.period := hinv.timer_period ▸ config.pollPeriod_pos
  rw [← hinv.timer_period]
  exact (hinv.observers r hr).exportedInOrder hinv.timer_start hperiod hfew attrs

end Worker

/-! ## A worker that misses ticks -/

/-- A map in which nothing but the value of no attributes was ever written. -/
def touched {A : Type} (cfg : Ohnotel.Config Nat A) : BucketMap.Walkable Nat A where
  buckets := { BucketMap.withStorage cfg with noAttrTouched := true }
  nodup := List.nodup_nil
  nonempty := by simp [BucketMap.withStorage]
  noAttr := rfl

/-- An observer of a counter. -/
def plain : DynObserver Nat Unit where
  Cell := UInt64
  Measure := UInt64
  Value := UInt64
  cfg := { hasher := ⟨fun _ => 0, AttrFingerprint.sum⟩, initBucket := 0, layout := .stack }
  intoWire _ _ := some (.ok none)

def plainObserver : BoxedDynObserver Nat Unit where
  dyn := plain
  observer :=
    { startTime := 0
      seq := 0
      id := ⟨"requests", "", ""⟩
      series := fun _ => []
      lastValues := none
      observeMode := .direct
      kind := .counter }

/-- A round at one reading. -/
def wakeAt (now after : Instant) : Event Nat Unit :=
  .wake now after after (fun _ dyn => touched dyn.cfg) .sent

def everyTen : Config := ⟨10, 100, true, by decide, by decide, by decide⟩

def roomy : Platform := ⟨2 ^ 66, -2 ^ 66, 2 ^ 66, by decide⟩

/-- The observer joins at 10, and is observed at 10 and, late, at 45 for the tick at 20.  The
next tick is at 50. -/
def stalled : List (Event Nat Unit) :=
  [wakeAt 0 0, .add plainObserver, wakeAt 10 10, wakeAt 45 45, wakeAt 50 50]

def afterStall : Option (Worker Nat Unit) :=
  (Worker.step roomy).run (Worker.new everyTen ⟨0, 0⟩) stalled

theorem stalled_representable :
    (Worker.step roomy).Along (Worker.Representable roomy) (Worker.new everyTen ⟨0, 0⟩)
      stalled := by
  decide

/-- The observer joins at 10 and is observed at 10, 20 and, a little late, at 32. -/
def punctual : List (Event Nat Unit) :=
  [wakeAt 0 0, .add plainObserver, wakeAt 10 10, wakeAt 20 20, wakeAt 32 32]

def afterPunctual : Option (Worker Nat Unit) :=
  (Worker.step roomy).run (Worker.new everyTen ⟨0, 0⟩) punctual

theorem punctual_representable :
    (Worker.step roomy).Along (Worker.Representable roomy) (Worker.new everyTen ⟨0, 0⟩)
      punctual := by
  decide

/-- The snapshot at 32 has the number 2 and was made for the tick at 30. -/
theorem exists_afterPunctual :
    ∃ w, afterPunctual = some w ∧ ∃ r ∈ w.observers, r.tracked.served.length ≤ 2 ^ 64 ∧
      r.tracked.observer.startTime = 10 ∧ r.tracked.served[2]? = some ⟨30, 32, 32⟩ ∧
      ∃ s ∈ r.tracked.pushed [], s.ts = 32 ∧ s.seqId = 2 := by
  refine ⟨_, rfl, _, List.mem_singleton_self _, by decide +kernel, rfl, by decide +kernel,
    ⟨32, 2, (0 : UInt64)⟩, ?_, rfl, rfl⟩
  exact List.mem_of_getElem? (rfl : _[2]? = _)

/-- The snapshot at 50 after the stall, and the one at 32, which is aligned to 30. -/
theorem lag_lt_iff_no_tick_missed_stalled :
    (∃ w, afterStall = some w ∧ ∃ r ∈ w.observers, ∃ s ∈ r.tracked.pushed [], ∃ service aligned,
      r.tracked.served[s.seqId.toNat]? = some service ∧
      s.ts = CollectorTime.reported ⟨0, 0⟩ service.now ∧
      s.alignTs roomy r.tracked.observer.startTime (some 10) = some aligned ∧
      (service.now < service.tick + 10 →
        (s.ts - aligned < 10 ↔
          CollectorTime.reported ⟨0, 0⟩ service.tick =
            r.tracked.observer.startTime + ↑(s.seqId.toNat * 10)) ∧
        (s.ts - aligned < 10 ↔
          ∀ earlier ∈ r.tracked.served.take s.seqId.toNat,
            earlier.after < earlier.tick + 10))) ∧
    ∃ w, afterPunctual = some w ∧ ∃ r ∈ w.observers, ∃ s ∈ r.tracked.pushed [], ∃ aligned,
      s.ts = 32 ∧ s.alignTs roomy r.tracked.observer.startTime (some 10) = some aligned ∧
        s.ts - aligned < 10 := by
  refine ⟨⟨_, rfl, _, List.mem_singleton_self _, ⟨50, 2, (0 : UInt64)⟩, ?_, ?_⟩, ?_⟩
  · exact List.mem_of_getElem? (rfl : _[2]? = _)
  · exact Worker.lag_lt_iff_no_tick_missed stalled_representable rfl _ (List.mem_singleton_self _)
      (by decide +kernel) [] _ (List.mem_of_getElem? (rfl : _[2]? = _)) (by decide)
  · obtain ⟨w, hrun, r, hr, hfew, hstart, htick, s, hs, hts, hseq⟩ := exists_afterPunctual
    obtain ⟨service, aligned, hservice, _, haligned, hlag⟩ :=
      Worker.lag_lt_iff_no_tick_missed punctual_representable hrun r hr hfew [] s hs
        (hseq ▸ by decide)
    rw [hseq] at hservice
    obtain rfl : ⟨30, 32, 32⟩ = service := Option.some.inj (htick.symm.trans hservice)
    refine ⟨w, hrun, r, hr, s, hs, aligned, hts, haligned, ?_⟩
    exact (hlag (by decide)).1.mpr (by rw [hstart, hseq]; decide)

/-- The snapshot for the tick at 50 has the number 2 and is aligned to 30. -/
theorem lag_after_missed_ticks :
    ∃ w, afterStall = some w ∧ ∃ r ∈ w.observers, ∃ s ∈ r.tracked.pushed [], ∃ service aligned,
      r.tracked.served[s.seqId.toNat]? = some service ∧
      s.alignTs roomy r.tracked.observer.startTime (some 10) = some aligned ∧
      s.seqId.toNat < 2 ^ 32 ∧ service.now < service.tick + 10 ∧ ¬ s.ts - aligned < 10 := by
  refine ⟨_, rfl, _, List.mem_singleton_self _, ⟨50, 2, (0 : UInt64)⟩, ?_, ⟨50, 50, 50⟩, 30, ?_,
    ?_, ?_⟩
  · exact List.mem_of_getElem? (rfl : _[2]? = _)
  · decide +kernel
  · decide +kernel
  · decide

theorem exported_times_in_order_stalled :
    ∃ w, afterStall = some w ∧ ∃ r ∈ w.observers,
      (r.tracked.pushed []).length = 3 ∧ r.tracked.ExportedInOrder roomy 10 [] := by
  refine ⟨_, rfl, _, List.mem_singleton_self _, rfl, ?_⟩
  exact Worker.exported_times_in_order stalled_representable rfl _ (List.mem_singleton_self _)
    (by decide +kernel) []

/-! ## A worker that outlasts the numbers -/

def everyOne : Config := ⟨1, 2 ^ 65, true, by decide, by decide, by decide⟩

/-- A round at every tick. -/
def untiring (rounds : Nat) : List (Event Nat Unit) :=
  [wakeAt 0 0, .add plainObserver] ++ (List.range rounds).map fun i => wakeAt (i + 1) (i + 1)

/-- An observer that pushed a snapshot at each of its observations. -/
structure Counting (rounds : Nat) (t : Tracked Nat UInt64) : Prop where
  observeMode : t.observer.observeMode = .direct
  lastValues : t.observer.lastValues = none
  seq : t.observer.seq = UInt64.ofNat rounds
  pushed : (t.pushed []).map Observation.seqId = (List.range rounds).map UInt64.ofNat

/-- The worker after so many rounds. -/
structure Untired (rounds : Nat) (w : Worker Nat Unit) : Prop where
  phase : w.phase = .receiving
  clock : w.clock = rounds
  start : w.start = ⟨0, 0⟩
  observeTimer : w.observeTimer = ⟨0, 1, rounds + 1⟩
  exportTimer : w.exportTimer = ⟨0, 2 ^ 65, 2 ^ 65⟩
  observers : ∃ t : Tracked Nat UInt64, w.observers = [⟨plain, t⟩] ∧ Counting rounds t

theorem observe_touched {o : SyncObserver Nat UInt64} (hmode : o.observeMode = .direct)
    (hlast : o.lastValues = none) (ts : SystemTime) :
    (o.observe plain.cfg ts (touched plain.cfg).buckets).2 =
      { o.push ts [] 0 with seq := o.seq + 1 } := by
  obtain ⟨startTime, seq, id, series, lastValues, mode, kind⟩ := o
  obtain rfl : mode = .direct := hmode
  obtain rfl : lastValues = none := hlast
  rfl

theorem Counting.observe {rounds : Nat} {t : Tracked Nat UInt64} (h : Counting rounds t)
    (ts : SystemTime) (service : Service) :
    Counting (rounds + 1) (t.observe plain.cfg ts service (touched plain.cfg)) := by
  have hobserved := observe_touched h.observeMode h.lastValues ts
  refine ⟨?_, ?_, ?_, ?_⟩
  · exact (congrArg SyncObserver.observeMode hobserved).trans h.observeMode
  · exact (congrArg SyncObserver.lastValues hobserved).trans h.lastValues
  · refine (congrArg SyncObserver.seq hobserved).trans ?_
    rw [UInt64.ofNat_add, ← h.seq]
    rfl
  · simp only [Tracked.observe, List.map_append, h.pushed, List.range_succ]
    refine congrArg (_ ++ ·) ?_
    rw [hobserved]
    simp [SyncObserver.push, h.seq]

/-- One more round, while the next export is not due. -/
theorem Untired.wake {rounds : Nat} {w : Worker Nat Unit} (h : Untired rounds w)
    (hfew : rounds ≤ 2 ^ 64) :
    w.Representable roomy (wakeAt (rounds + 1) (rounds + 1)) ∧
      ∃ w', Worker.step roomy w (wakeAt (rounds + 1) (rounds + 1)) = some w' ∧
        Untired (rounds + 1) w' := by
  obtain ⟨t, hobservers, hcounting⟩ := h.observers
  have htick : w.observeTimer.tickAfter (rounds + 1) = rounds + 2 := by
    simp [GridTimer.tickAfter, h.observeTimer]
  have hmax : rounds + 2 ≤ roomy.instantMax := by
    have : roomy.instantMax = 2 ^ 66 := rfl
    lia
  have hadvance : w.observeTimer.advance roomy (rounds + 1) = ⟨0, 1, rounds + 2⟩ := by
    rw [GridTimer.advance, GridTimer.next_eq_tickAfter (htick.symm ▸ hmax), htick, h.observeTimer]
  have hdue : w.observeTimer.due (rounds + 1) = true := by simp [GridTimer.due, h.observeTimer]
  have htime : w.start.atInstant roomy (rounds + 1) = some ⟨rounds + 1, rounds + 1⟩ := by
    have hsystem : rounds + 1 ≤ roomy.systemMax := by
      have : roomy.systemMax = 2 ^ 66 := rfl
      lia
    simp [CollectorTime.atInstant, h.start, hsystem]
  have hobserve : w.maybeObserve roomy (rounds + 1) (rounds + 1) (fun _ dyn => touched dyn.cfg) =
      some { w with
        observers := [⟨plain, t.observe plain.cfg (rounds + 1)
          ⟨rounds + 1, rounds + 1, rounds + 1⟩ (touched plain.cfg)⟩]
        observeTimer := ⟨0, 1, rounds + 2⟩ } := by
    rw [Worker.maybeObserve, if_pos hdue, htime, hadvance, hobservers, h.observeTimer]
    rfl
  have hnotDue : ¬ (⟨0, 2 ^ 65, 2 ^ 65⟩ : GridTimer).due (rounds + 1) = true := by
    have : rounds + 1 < 2 ^ 65 := by omega
    simp only [GridTimer.due, decide_eq_true_eq]
    lia
  have hexport : ∀ v : Worker Nat Unit, v.exportTimer = ⟨0, 2 ^ 65, 2 ^ 65⟩ →
      v.maybeExport roomy (rounds + 1) (rounds + 1) .sent = some v := by
    intro v hv
    rw [Worker.maybeExport, hv, if_neg hnotDue]
  have hstep := Worker.step_wake (by simp [h.phase]) (by rw [h.clock]; lia) (le_refl _)
    (le_refl _) hobserve (hexport _ h.exportTimer)
  refine ⟨fun _ => htick.symm ▸ hmax, _, hstep, ?_⟩
  exact ⟨rfl, rfl, h.start, rfl, h.exportTimer, _, rfl, hcounting.observe _ _⟩

theorem untired_untiring {rounds : Nat} (hfew : rounds ≤ 2 ^ 64 + 1) :
    (Worker.step roomy).Along (Worker.Representable roomy) (Worker.new everyOne ⟨0, 0⟩)
        (untiring rounds) ∧
      ∃ w, (Worker.step roomy).run (Worker.new everyOne ⟨0, 0⟩) (untiring rounds) = some w ∧
        Untired rounds w := by
  induction rounds with
  | zero =>
      refine ⟨by decide, _, rfl, ?_, ?_, ?_, ?_, ?_, ?_⟩
      · rfl
      · rfl
      · rfl
      · decide +kernel
      · decide +kernel
      · exact ⟨_, rfl, rfl, rfl, rfl, rfl⟩
  | succ rounds ih =>
      obtain ⟨hfits, w, hrun, huntired⟩ := ih (by omega)
      obtain ⟨hrepresentable, w', hstep, huntired'⟩ := huntired.wake (by omega)
      have hmore : untiring (rounds + 1) =
          untiring rounds ++ [wakeAt (rounds + 1) (rounds + 1)] := by
        simp [untiring, List.range_succ]
      rw [hmore]
      refine ⟨StepFn.along_concat.mpr ⟨hfits, ?_⟩, w',
        (StepFn.run_concat_eq_some _).mpr ⟨w, hrun, hstep⟩, huntired'⟩
      intro other hother
      obtain rfl : w = other := Option.some.inj (hrun.symm.trans hother)
      exact hrepresentable

/-- After `2 ^ 64` observations the numbers start again. -/
theorem numbers_wrap_around :
    ∃ (events : List (Event Nat Unit)) (w : Worker Nat Unit),
      (Worker.step roomy).Along (Worker.Representable roomy) (Worker.new everyOne ⟨0, 0⟩) events ∧
      (Worker.step roomy).run (Worker.new everyOne ⟨0, 0⟩) events = some w ∧
      ∃ r ∈ w.observers, ∃ attrs,
        ¬ (r.tracked.pushed attrs).Pairwise fun first second => first.seqId < second.seqId := by
  obtain ⟨hfits, w, hrun, huntired⟩ := untired_untiring (le_refl (2 ^ 64 + 1))
  obtain ⟨t, hobservers, hcounting⟩ := huntired.observers
  refine ⟨_, w, hfits, hrun, ⟨plain, t⟩, hobservers ▸ List.mem_singleton_self _, [], ?_⟩
  intro hincreasing
  have hnumbers : ((t.pushed []).map Observation.seqId).Pairwise (· < ·) :=
    List.pairwise_map.mpr hincreasing
  rw [hcounting.pushed, List.pairwise_map] at hnumbers
  have hlt : UInt64.ofNat 0 < UInt64.ofNat (2 ^ 64) := by
    simpa using List.pairwise_iff_getElem.mp hnumbers 0 (2 ^ 64) (by simp) (by simp)
      (Nat.two_pow_pos 64)
  exact absurd hlt (by decide)

end Ohnotel.Periodic
