/-
# From the worker to the sender

The worker offers each batch to a bounded channel and goes on; a batch the channel has no
room for is discarded.  A task takes the batches out, one at a time and in order, and
hands each to the sender, unless the sender's gate is closed.  Dropping the collector
stops the worker first and then aborts the task, whatever the task has still to do; the
runtime may end the task at any time.

What the channel accepted is accounted for in every state: what the task has settled, what
it has in hand, and what is queued.  A task that ends by itself has settled everything.
-/

import Mathlib.Data.PNat.Defs
import Ohnotel.Collect.Delivery

namespace Ohnotel.Periodic

open Foundation Atomic

/-- `DEFAULT_BATCH_CAPACITY`. -/
def defaultBatchCapacity : ℕ+ := 64

/-- Where the loop of `process_send` is. -/
inductive Task (W : Type)
  | receiving
  | gating (batch : List W)
  | sending
  | finished
  | aborted
  deriving DecidableEq

/-- The batch that the task has received and neither handed over nor dropped. -/
def Task.inHand {W : Type} : Task W → List (List W)
  | .gating batch => [batch]
  | .receiving | .sending | .finished | .aborted => []

/-- The task is over, and its end of the channel is closed. -/
def Task.isGone {W : Type} : Task W → Bool
  | .finished | .aborted => true
  | .receiving | .gating _ | .sending => false

/-- A collector with its worker, its channel and the task, and what the task did with each
batch: hand it to the inner sender, or drop it at the gate. -/
structure Dispatch (K W : Type) : Type 1 where
  worker : Worker K W
  capacity : ℕ+
  queue : List (List W)
  enabled : Bool
  task : Task W
  settled : List (Bool × List W)

/-- A step of the worker, of the task, of whoever holds the gate, or of the end. -/
inductive DispatchTurn (K W : Type) : Type 1
  | worker (event : Event K W)
  | recv
  | gate
  | sent
  | finish
  | setEnabled (enabled : Bool)
  | abort
  | shutdownRuntime

variable {K W : Type}

/-- The step is one of `process_send`. -/
def DispatchTurn.isTask : DispatchTurn K W → Bool
  | .recv | .gate | .sent | .finish => true
  | .worker _ | .setEnabled _ | .abort | .shutdownRuntime => false

/-- The answer of the batch channel that a step of the worker goes by. -/
def Event.answer : Event K W → Option TrySend
  | .wake _ _ _ _ answer => some answer
  | .shutdown _ _ answer => some answer
  | .add _ => none

namespace Dispatch

/-- What `Collector::new` sets up. -/
def new (config : Config) (batchCapacity : Option ℕ+) (start : CollectorTime) (enabled : Bool) :
    Dispatch K W where
  worker := Worker.new config start
  capacity := batchCapacity.getD defaultBatchCapacity
  queue := []
  enabled := enabled
  task := .receiving
  settled := []

/-- `try_send` on the channel as it is. -/
def trySend (s : Dispatch K W) : TrySend :=
  if s.task.isGone then .closed else if s.queue.length < s.capacity then .sent else .full

/-- The batches that the inner sender was handed. -/
def forwarded (s : Dispatch K W) : List (List W) :=
  (s.settled.filter Prod.fst).map Prod.snd

variable [LinearOrder K] (platform : Platform)

/-- One step. -/
def step : StepFn (Dispatch K W) (DispatchTurn K W)
  | s, .worker event =>
      if ∀ answer ∈ event.answer, answer = s.trySend then
        (Worker.step platform s.worker event).map fun worker =>
          { s with
            worker := worker
            queue := s.queue ++ worker.batches.drop s.worker.batches.length }
      else none
  | s, .recv =>
      match s.task, s.queue with
      | .receiving, batch :: rest => some { s with task := .gating batch, queue := rest }
      | _, _ => none
  | s, .gate =>
      match s.task with
      | .gating batch =>
          some { s with
            task := if s.enabled then .sending else .receiving
            settled := s.settled ++ [(s.enabled, batch)] }
      | _ => none
  | s, .sent =>
      match s.task with
      | .sending => some { s with task := .receiving }
      | _ => none
  | s, .finish =>
      -- All senders of the channel are gone, and nothing is left in it.
      match s.task, s.queue, s.worker.phase with
      | .receiving, [], .stopped => some { s with task := .finished }
      | _, _, _ => none
  | s, .setEnabled enabled => some { s with enabled := enabled }
  | s, .abort =>
      -- The task is aborted where it waits: for a batch, or for the inner sender.
      match s.task, s.worker.phase with
      | .receiving, .stopped | .sending, .stopped => some { s with task := .aborted }
      | _, _ => none
  | s, .shutdownRuntime =>
      match s.task with
      | .receiving | .sending => some { s with task := .aborted }
      | _ => none

/-! ## What a step does to the batches -/

variable {platform}

omit [LinearOrder K] in
theorem batches_maybeExport {now after : Instant} {answer : TrySend} {w w' : Worker K W}
    (hexport : w.maybeExport platform now after answer = some w') :
    w'.batches = w.batches ∨ answer = .sent ∧ ∃ batch, w'.batches = w.batches ++ [batch] := by
  rcases Worker.maybeExport_cases hexport with ⟨_, rfl⟩ | ⟨_, rfl⟩
  · exact Or.inl rfl
  · by_cases hsent : w.batch ≠ [] ∧ answer = .sent
    · right
      exact ⟨hsent.2, w.batch, if_pos hsent⟩
    · left
      exact if_neg hsent

theorem batches_maybeObserve {now after : Instant}
    {shown : Nat → (dyn : DynObserver K W) → BucketMap.Walkable K dyn.Cell} {w w' : Worker K W}
    (hobserve : w.maybeObserve platform now after shown = some w') : w'.batches = w.batches := by
  rw [Worker.maybeObserve] at hobserve
  split at hobserve
  · obtain ⟨time, _, rfl⟩ := Option.map_eq_some_iff.mp hobserve
    rfl
  · obtain rfl := Option.some_inj.mp hobserve
    rfl

/-- A step of the worker adds at most one batch to those the channel accepted, and only if
the channel says so. -/
theorem batches_step {w w' : Worker K W} {event : Event K W}
    (hstep : Worker.step platform w event = some w') :
    w'.batches = w.batches ∨
      event.answer = some .sent ∧ ∃ batch, w'.batches = w.batches ++ [batch] := by
  cases Worker.moves_of_step hstep with
  | wake hphase hclock hobserving hexporting hobserve hexport =>
      have hbatches := batches_maybeExport hexport
      rw [batches_maybeObserve hobserve] at hbatches
      exact hbatches.imp_right fun h => ⟨congrArg some h.1, h.2⟩
  | add hphase hadd =>
      obtain ⟨time, _, rfl⟩ := Option.map_eq_some_iff.mp hadd
      exact Or.inl rfl
  | shutdown hphase hclock hexporting hexport =>
      exact (batches_maybeExport hexport).imp_right fun h => ⟨congrArg some h.1, h.2⟩

/-- Every batch that the channel accepted is settled, in hand or queued, in this order, and
no more are queued than there is room for.  A task that ended by itself left nothing. -/
structure Ledger (s : Dispatch K W) : Prop where
  batches : s.worker.batches = s.settled.map Prod.snd ++ s.task.inHand ++ s.queue
  bounded : s.queue.length ≤ s.capacity
  finished : s.task = .finished → s.queue = []
  stopped : s.task = .finished → s.worker.phase = .stopped

omit [LinearOrder K] in
theorem ledger_new (config : Config) (batchCapacity : Option ℕ+) (start : CollectorTime)
    (enabled : Bool) : Ledger (new config batchCapacity start enabled : Dispatch K W) where
  batches := rfl
  bounded := Nat.zero_le _
  finished _ := rfl
  stopped := by simp [new]

omit [LinearOrder K] in
theorem Ledger.settled {s : Dispatch K W} (h : Ledger s) (hfinished : s.task = .finished) :
    s.worker.batches = s.settled.map Prod.snd := by
  rw [h.batches, h.finished hfinished, hfinished]
  simp [Task.inHand]

theorem Ledger.worker {s : Dispatch K W} (h : Ledger s) {event : Event K W} {worker : Worker K W}
    (hanswer : ∀ answer ∈ event.answer, answer = s.trySend)
    (hstep : Worker.step platform s.worker event = some worker) :
    Ledger { s with
      worker := worker
      queue := s.queue ++ worker.batches.drop s.worker.batches.length } := by
  have hstopped : s.task = .finished → False := by
    -- A worker that has stopped takes no more steps.
    intro hfinished
    have hphase := h.stopped hfinished
    cases event <;> simp [Worker.step, hphase] at hstep
  rcases batches_step hstep with hsame | ⟨hsent, batch, hadded⟩
  · have hnone : worker.batches.drop s.worker.batches.length = [] := by
      rw [hsame, List.drop_length]
    rw [hnone, List.append_nil]
    exact ⟨hsame.trans h.batches, h.bounded, h.finished, fun hf => (hstopped hf).elim⟩
  · have hroom : s.queue.length < s.capacity := by
      have htold := hanswer .sent hsent
      unfold trySend at htold
      split at htold
      · cases htold
      · split at htold
        · assumption
        · cases htold
    have hnew : worker.batches.drop s.worker.batches.length = [batch] := by
      rw [hadded, List.drop_left]
    rw [hnew]
    refine ⟨?_, ?_, fun hf => (hstopped hf).elim, fun hf => (hstopped hf).elim⟩
    · rw [hadded, h.batches, List.append_assoc]
    · rw [List.length_append, List.length_singleton]
      exact hroom

theorem Ledger.step {s s' : Dispatch K W} {turn : DispatchTurn K W} (h : Ledger s)
    (hstep : step platform s turn = some s') : Ledger s' := by
  have hbatches := h.batches
  have hbounded := h.bounded
  cases turn with
  | worker event =>
      simp only [Dispatch.step] at hstep
      split at hstep
      · next hanswer =>
          obtain ⟨worker, hworker, rfl⟩ := Option.map_eq_some_iff.mp hstep
          exact h.worker hanswer hworker
      · cases hstep
  | recv =>
      simp only [Dispatch.step] at hstep
      split at hstep
      · next batch rest htask hqueue =>
          obtain rfl := Option.some_inj.mp hstep
          refine ⟨?_, ?_, by simp, by simp⟩
          · rw [hbatches, htask, hqueue]
            simp [Task.inHand]
          · rw [hqueue] at hbounded
            exact Nat.le_of_succ_le hbounded
      · cases hstep
  | gate =>
      simp only [Dispatch.step] at hstep
      split at hstep
      · next batch htask =>
          obtain rfl := Option.some_inj.mp hstep
          refine ⟨?_, hbounded, ?_, ?_⟩
          · rw [hbatches, htask]
            cases s.enabled <;> simp [Task.inHand]
          · cases s.enabled <;> simp
          · cases s.enabled <;> simp
      · cases hstep
  | sent =>
      simp only [Dispatch.step] at hstep
      split at hstep
      · next htask =>
          obtain rfl := Option.some_inj.mp hstep
          exact ⟨by rw [hbatches, htask]; rfl, hbounded, by simp, by simp⟩
      · cases hstep
  | finish =>
      simp only [Dispatch.step] at hstep
      split at hstep
      · next htask hqueue hphase =>
          obtain rfl := Option.some_inj.mp hstep
          exact ⟨by rw [hbatches, htask]; rfl, hbounded, fun _ => hqueue, fun _ => hphase⟩
      · cases hstep
  | setEnabled enabled =>
      obtain rfl := Option.some_inj.mp hstep
      exact ⟨hbatches, hbounded, h.finished, h.stopped⟩
  | abort =>
      simp only [Dispatch.step] at hstep
      split at hstep
      · next htask _ =>
          obtain rfl := Option.some_inj.mp hstep
          exact ⟨by rw [hbatches, htask]; rfl, hbounded, by simp, by simp⟩
      · next htask _ =>
          obtain rfl := Option.some_inj.mp hstep
          exact ⟨by rw [hbatches, htask]; rfl, hbounded, by simp, by simp⟩
      · cases hstep
  | shutdownRuntime =>
      simp only [Dispatch.step] at hstep
      split at hstep
      · next htask =>
          obtain rfl := Option.some_inj.mp hstep
          exact ⟨by rw [hbatches, htask]; rfl, hbounded, by simp, by simp⟩
      · next htask =>
          obtain rfl := Option.some_inj.mp hstep
          exact ⟨by rw [hbatches, htask]; rfl, hbounded, by simp, by simp⟩
      · cases hstep

/-- The room of the channel is what it was set up with. -/
theorem capacity_step {s s' : Dispatch K W} {turn : DispatchTurn K W}
    (hstep : step platform s turn = some s') : s'.capacity = s.capacity := by
  cases turn with
  | worker event =>
      simp only [step] at hstep
      split at hstep
      · obtain ⟨worker, _, rfl⟩ := Option.map_eq_some_iff.mp hstep
        rfl
      · cases hstep
  | recv | gate | sent | finish | shutdownRuntime | abort =>
      simp only [step] at hstep
      split at hstep
      all_goals first
        | cases hstep; done
        | obtain rfl := Option.some_inj.mp hstep; rfl
  | setEnabled enabled =>
      obtain rfl := Option.some_inj.mp hstep
      rfl

/-- Nothing was dropped at the gate. -/
structure Opened (s : Dispatch K W) : Prop where
  enabled : s.enabled = true
  settled : ∀ x ∈ s.settled, x.1 = true

theorem Opened.step {s s' : Dispatch K W} {turn : DispatchTurn K W} (h : Opened s)
    (hopen : turn ≠ .setEnabled false) (hstep : step platform s turn = some s') : Opened s' := by
  cases turn with
  | worker event =>
      simp only [Dispatch.step] at hstep
      split at hstep
      · obtain ⟨worker, _, rfl⟩ := Option.map_eq_some_iff.mp hstep
        exact ⟨h.enabled, h.settled⟩
      · cases hstep
  | gate =>
      simp only [Dispatch.step] at hstep
      split at hstep
      · obtain rfl := Option.some_inj.mp hstep
        refine ⟨h.enabled, fun x hx => ?_⟩
        rcases List.mem_append.mp hx with hold | hnew
        · exact h.settled x hold
        · rw [List.mem_singleton.mp hnew]
          exact h.enabled
      · cases hstep
  | recv | sent | finish | shutdownRuntime | abort =>
      simp only [Dispatch.step] at hstep
      split at hstep
      all_goals first
        | cases hstep; done
        | obtain rfl := Option.some_inj.mp hstep; exact ⟨h.enabled, h.settled⟩
  | setEnabled enabled =>
      obtain rfl := Option.some_inj.mp hstep
      cases enabled with
      | true => exact ⟨rfl, h.settled⟩
      | false => exact absurd rfl hopen

omit [LinearOrder K] in
theorem Opened.forwarded {s : Dispatch K W} (h : Opened s) :
    s.forwarded = s.settled.map Prod.snd := by
  rw [Dispatch.forwarded, List.filter_eq_self.mpr h.settled]

/-! ## Runs -/

variable {config : Config} {batchCapacity : Option ℕ+} {start : CollectorTime} {enabled : Bool}
  {turns : List (DispatchTurn K W)} {last : Dispatch K W}

theorem ledger_run
    (hrun : (step platform).run (new config batchCapacity start enabled) turns = some last) :
    Ledger last :=
  StepFn.invariant_of_step Ledger (fun _ _ _ _ h hstep => h.step hstep)
    (ledger_new config batchCapacity start enabled) hrun

theorem opened_run (hopen : ∀ turn ∈ turns, turn ≠ .setEnabled false)
    (hrun : (step platform).run (new config batchCapacity start true) turns = some last) :
    Opened last :=
  StepFn.invariant_of_step Opened (fun turn hturn _ _ h hstep => h.step (hopen turn hturn) hstep)
    ⟨rfl, by simp [new]⟩ hrun

/-- However the steps of the worker, of the task, of the gate and of the end fall: the
batches that the channel accepted are, in order, those that were settled, the one in hand
and those queued, never more than there is room for.  What the inner sender was handed are
accepted batches, in order and each once; with the gate open they are all that was
settled.  A task that ended by itself has settled everything. -/
theorem accepted_settled_in_order
    (hrun : (step platform).run (new config batchCapacity start enabled) turns = some last) :
    last.worker.batches = last.settled.map Prod.snd ++ last.task.inHand ++ last.queue ∧
    last.queue.length ≤ (batchCapacity.getD defaultBatchCapacity : ℕ+) ∧
    last.forwarded.Sublist last.worker.batches ∧
    (enabled = true → (∀ turn ∈ turns, turn ≠ .setEnabled false) →
      last.forwarded = last.settled.map Prod.snd) ∧
    (last.task = .finished → last.worker.batches = last.settled.map Prod.snd) := by
  have hledger := ledger_run hrun
  have hcapacity : last.capacity = batchCapacity.getD defaultBatchCapacity :=
    StepFn.invariant_of_step
      (fun s : Dispatch K W => s.capacity = batchCapacity.getD defaultBatchCapacity)
      (fun _ _ _ _ h hstep => (capacity_step hstep).trans h) rfl hrun
  refine ⟨hledger.batches, hcapacity ▸ hledger.bounded, ?_, fun henabled hopen => ?_,
    hledger.settled⟩
  · rw [hledger.batches, List.append_assoc]
    exact (List.filter_sublist.map _).trans (List.sublist_append_left _ _)
  · subst henabled
    exact (opened_run hopen hrun).forwarded

/-- The worker of `observedAtTen` up to a shutdown at 100, when its only batch is due. -/
def shutAtHundred : List (DispatchTurn Nat (List (Observation UInt64))) :=
  observedAtTen.map .worker ++ [.worker (.shutdown 100 100 .sent)]

/-- The gate is closed while the batch is on its way. -/
theorem accepted_settled_in_order_dropped :
    ∃ last, (step roomy).run (new everyTen none ⟨0, 0⟩ true)
        (shutAtHundred ++ [.recv, .setEnabled false, .gate, .finish]) = some last ∧
      last.worker.batches = last.settled.map Prod.snd ++ last.task.inHand ++ last.queue ∧
      last.settled = [(false, [[⟨10, 0, 0⟩]])] ∧ last.forwarded = [] := by
  obtain ⟨last, hrun, hsettled, hforwarded⟩ :
      ∃ last, (step roomy).run (new everyTen none ⟨0, 0⟩ true)
          (shutAtHundred ++ [.recv, .setEnabled false, .gate, .finish]) = some last ∧
        last.settled = [(false, [[⟨10, 0, 0⟩]])] ∧ last.forwarded = [] := ⟨_, rfl, rfl, rfl⟩
  exact ⟨last, hrun, (accepted_settled_in_order hrun).1, hsettled, hforwarded⟩

/-! ## A task that is left alone -/

variable (platform) in
/-- The gate is found open or closed, and after that the task is waiting for the next
batch. -/
theorem run_gating {s : Dispatch K W} {batch : List W} (htask : s.task = .gating batch) :
    ∃ turns : List (DispatchTurn K W), turns.length ≤ 2 ∧ (∀ turn ∈ turns, turn.isTask = true) ∧
      (step platform).run s turns = some { s with
        task := .receiving
        settled := s.settled ++ [(s.enabled, batch)] } := by
  cases henabled : s.enabled with
  | true =>
      refine ⟨[.gate, .sent], by simp, by simp [DispatchTurn.isTask], ?_⟩
      simp [step, htask, henabled]
  | false =>
      refine ⟨[.gate], by simp, by simp [DispatchTurn.isTask], ?_⟩
      simp [step, htask, henabled]

variable (platform) in
/-- With the worker gone, the task empties the channel by itself: three steps for a batch at
most, and one to end. -/
theorem run_receiving (queue : List (List W)) {s : Dispatch K W} (hqueue : s.queue = queue)
    (htask : s.task = .receiving) (hphase : s.worker.phase = .stopped) :
    ∃ turns : List (DispatchTurn K W), turns.length ≤ 3 * queue.length + 1 ∧
      (∀ turn ∈ turns, turn.isTask = true) ∧
      (step platform).run s turns = some { s with
        task := .finished
        queue := []
        settled := s.settled ++ queue.map fun batch => (s.enabled, batch) } := by
  induction queue generalizing s with
  | nil =>
      refine ⟨[.finish], by simp, by simp [DispatchTurn.isTask], ?_⟩
      have hstep : step platform s .finish = some { s with task := .finished } := by
        simp only [step, htask, hqueue, hphase]
      rw [StepFn.run_cons, hstep]
      simp [← hqueue]
  | cons batch rest ih =>
      have hrecv : step platform s .recv =
          some { s with task := .gating batch, queue := rest } := by
        simp only [step, htask, hqueue]
      obtain ⟨round, hlength, hown, hrun⟩ := run_gating platform
        (s := { s with task := .gating batch, queue := rest }) rfl
      obtain ⟨later, hlength', hown', hrun'⟩ := ih
        (s := { s with
          task := .receiving
          queue := rest
          settled := s.settled ++ [(s.enabled, batch)] }) rfl rfl hphase
      refine ⟨.recv :: (round ++ later), ?_, ?_, ?_⟩
      · simp only [List.length_cons, List.length_append]
        omega
      · intro turn hturn
        rcases List.mem_cons.mp hturn with rfl | hturn
        · rfl
        · exact (List.mem_append.mp hturn).elim (hown turn) (hown' turn)
      · rw [StepFn.run_cons, hrecv]
        show (step platform).run _ (round ++ later) = _
        rw [StepFn.run_append, hrun]
        show (step platform).run _ later = _
        rw [hrun', List.map_cons, List.append_assoc]
        rfl

/-- In any reachable state in which the worker has stopped and nothing has ended the task,
the task's own steps, three for each batch in the channel and three more at most, settle
every batch that the channel accepted and end the task. -/
theorem task_settles_rest
    (hrun : (step platform).run (new config batchCapacity start enabled) turns = some last)
    (hphase : last.worker.phase = .stopped) (htask : last.task.isGone = false) :
    ∃ own done, own.length ≤ 3 * last.queue.length + 3 ∧
      (∀ turn ∈ own, DispatchTurn.isTask turn = true) ∧
      (step platform).run last own = some done ∧ done.task = .finished ∧
      done.worker = last.worker ∧ done.settled.map Prod.snd = last.worker.batches := by
  have hbatches := (ledger_run hrun).batches
  cases hhere : last.task with
  | receiving =>
      obtain ⟨own, hlength, hown, hdone⟩ := run_receiving platform last.queue rfl hhere hphase
      refine ⟨own, _, by omega, hown, hdone, by rfl, by rfl, ?_⟩
      rw [hbatches, hhere]
      simp [Task.inHand, Function.comp_def]
  | sending =>
      obtain ⟨own, hlength, hown, hdone⟩ := run_receiving platform last.queue
        (s := { last with task := .receiving }) rfl rfl hphase
      have hsent : step platform last .sent = some { last with task := .receiving } := by
        simp only [step, hhere]
      refine ⟨.sent :: own, { last with
        task := .finished
        queue := []
        settled := last.settled ++ last.queue.map fun batch => (last.enabled, batch) },
        ?_, List.forall_mem_cons.mpr ⟨rfl, hown⟩, ?_, rfl, rfl, ?_⟩
      · rw [List.length_cons]
        omega
      · rw [StepFn.run_cons, hsent]
        exact hdone
      · rw [hbatches, hhere]
        simp [Task.inHand, Function.comp_def]
  | gating batch =>
      obtain ⟨round, hround, hroundOwn, hreceiving⟩ := run_gating platform hhere
      obtain ⟨own, hlength, hown, hdone⟩ := run_receiving platform last.queue
        (s := { last with
          task := .receiving
          settled := last.settled ++ [(last.enabled, batch)] }) rfl rfl hphase
      refine ⟨round ++ own, { last with
        task := .finished
        queue := []
        settled := last.settled ++ [(last.enabled, batch)] ++
          last.queue.map fun batch => (last.enabled, batch) }, ?_, ?_, ?_, rfl, rfl, ?_⟩
      · rw [List.length_append]
        omega
      · intro turn hturn
        exact (List.mem_append.mp hturn).elim (hroundOwn turn) (hown turn)
      · rw [StepFn.run_append, hreceiving]
        exact hdone
      · rw [hbatches, hhere]
        simp [Task.inHand, Function.comp_def]
  | finished => simp [hhere, Task.isGone] at htask
  | aborted => simp [hhere, Task.isGone] at htask

/-- One batch is left in the channel by the shutdown. -/
theorem task_settles_rest_at_hundred :
    ∃ last, (step roomy).run (new everyTen none ⟨0, 0⟩ true) shutAtHundred = some last ∧
      last.queue.length = 1 ∧
      ∃ own done, own.length ≤ 3 * last.queue.length + 3 ∧
        (∀ turn ∈ own, DispatchTurn.isTask turn = true) ∧
        (step roomy).run last own = some done ∧ done.task = .finished ∧
        done.worker = last.worker ∧ done.settled.map Prod.snd = last.worker.batches := by
  obtain ⟨last, hrun, hqueue, hphase, htask⟩ :
      ∃ last, (step roomy).run (new everyTen none ⟨0, 0⟩ true) shutAtHundred = some last ∧
        last.queue.length = 1 ∧ last.worker.phase = .stopped ∧ last.task.isGone = false :=
    ⟨_, rfl, rfl, rfl, rfl⟩
  exact ⟨last, hrun, hqueue, task_settles_rest hrun hphase htask⟩

/-! ## From observation to sender -/

/-- The steps of the worker in a run. -/
def workerEvents (turns : List (DispatchTurn K W)) : List (Event K W) :=
  turns.filterMap fun turn =>
    match turn with
    | .worker event => some event
    | _ => none

/-- A step is one of the worker, or none that the worker notices. -/
theorem worker_of_step {s s' : Dispatch K W} {turn : DispatchTurn K W}
    (hstep : step platform s turn = some s') :
    (∃ event, turn = .worker event ∧ Worker.step platform s.worker event = some s'.worker) ∨
      (∀ event, turn ≠ .worker event) ∧ s'.worker = s.worker := by
  cases turn with
  | worker event =>
      simp only [step] at hstep
      split at hstep
      · obtain ⟨worker, hworker, rfl⟩ := Option.map_eq_some_iff.mp hstep
        exact Or.inl ⟨event, rfl, hworker⟩
      · cases hstep
  | recv | gate | sent | finish | shutdownRuntime | abort =>
      have hsame : s'.worker = s.worker := by
        simp only [step] at hstep
        split at hstep
        all_goals first
          | cases hstep; done
          | obtain rfl := Option.some_inj.mp hstep; rfl
      exact Or.inr ⟨by simp, hsame⟩
  | setEnabled enabled =>
      obtain rfl := Option.some_inj.mp hstep
      exact Or.inr ⟨by simp, rfl⟩

/-- The worker takes a run of its own. -/
theorem run_worker
    (hrun : (step platform).run (new config batchCapacity start enabled) turns = some last) :
    (Worker.step platform).run (Worker.new config start) (workerEvents turns) =
      some last.worker := by
  refine StepFn.run_induction (motive := fun turns s =>
    (Worker.step platform).run (Worker.new config start) (workerEvents turns) = some s.worker)
    rfl ?_ hrun
  intro turns s turn next _ ih hstep
  have happend : workerEvents (turns ++ [turn]) = workerEvents turns ++ workerEvents [turn] :=
    List.filterMap_append
  rw [happend]
  rcases worker_of_step hstep with ⟨event, rfl, hworker⟩ | ⟨hnone, hsame⟩
  · exact (StepFn.run_concat_eq_some _).mpr ⟨s.worker, ih, hworker⟩
  · have hevents : workerEvents [turn] = [] := by
      cases turn with
      | worker event => exact absurd rfl (hnone event)
      | recv | gate | sent | finish | setEnabled | shutdownRuntime | abort => rfl
    rw [hevents, List.append_nil, hsame]
    exact ih

/-- Only a shutdown stops the worker. -/
theorem exists_shutdown {w w' : Worker K W} {event : Event K W}
    (hstep : Worker.step platform w event = some w') (hphase : w'.phase = .stopped) :
    ∃ now afterExport answer, event = .shutdown now afterExport answer := by
  cases event with
  | wake now afterObserve afterExport shown answer =>
      simp only [Worker.step] at hstep
      split at hstep
      · obtain ⟨observed, _, rfl⟩ := Option.map_eq_some_iff.mp hstep
        cases hphase
      · cases hstep
  | add boxed =>
      simp only [Worker.step, Worker.handleAdd] at hstep
      split at hstep
      · next hreceiving =>
          obtain ⟨time, _, rfl⟩ := Option.map_eq_some_iff.mp hstep
          simp [hreceiving] at hphase
      · cases hstep
  | shutdown now afterExport answer => exact ⟨now, afterExport, answer, rfl⟩

/-- Where every conversion finds what is there and the channel takes every batch, the gate
is never closed and the task ends by itself, the sender was handed every batch, in order
and once; and everything that any observer pushed is in exactly one of them if and only if
the shutdown found an export due, or nothing held. -/
theorem everything_reaches_sender
    (hrun : (step platform).run (new config batchCapacity start true) turns = some last)
    (hopen : ∀ turn ∈ turns, turn ≠ .setEnabled false)
    (hdelivers : (Worker.step platform).Along (Worker.Delivers platform) (Worker.new config start)
      (workerEvents turns))
    (hfinished : last.task = .finished) :
    last.forwarded = last.worker.batches ∧
    ∃ events now afterExport answer w,
      workerEvents turns = events ++ [.shutdown now afterExport answer] ∧
      (Worker.step platform).run (Worker.new config start) events = some w ∧
      (last.worker.DeliveredOnce ↔ w.exportTimer.due now ∨
        ∀ r ∈ w.observers, ∀ attrs, r.tracked.observer.series attrs = []) := by
  have hledger := ledger_run hrun
  refine ⟨(opened_run hopen hrun).forwarded.trans (hledger.settled hfinished).symm, ?_⟩
  have hworker := run_worker hrun
  have honce := (Worker.accounted_run hdelivers hworker).deliveredOnce_iff
  rcases List.eq_nil_or_concat (workerEvents turns) with hnil | ⟨events, event, hevents⟩
  · -- A worker that took no step has not stopped.
    have hstopped := hledger.stopped hfinished
    rw [hnil] at hworker
    rw [← Option.some_inj.mp hworker] at hstopped
    cases hstopped
  · rw [List.concat_eq_append] at hevents
    rw [hevents] at hworker
    obtain ⟨w, hbefore, hlast⟩ := (StepFn.run_concat_eq_some _).mp hworker
    obtain ⟨now, afterExport, answer, rfl⟩ := exists_shutdown hlast (hledger.stopped hfinished)
    exact ⟨events, now, afterExport, answer, w, hevents, hbefore,
      honce.trans (Worker.series_shutdown hlast)⟩

/-- The batch of the shutdown at 100 reaches the sender. -/
theorem everything_reaches_sender_at_hundred :
    ∃ last : Dispatch Nat (List (Observation UInt64)),
      (step roomy).run (new everyTen none ⟨0, 0⟩ true)
        (shutAtHundred ++ [.recv, .gate, .sent, .finish]) = some last ∧
      last.forwarded = last.worker.batches ∧ last.forwarded = [[[⟨10, 0, 0⟩]]] := by
  obtain ⟨last, hrun, hforwarded, hfinished⟩ :
      ∃ last : Dispatch Nat (List (Observation UInt64)),
        (step roomy).run (new everyTen none ⟨0, 0⟩ true)
          (shutAtHundred ++ [.recv, .gate, .sent, .finish]) = some last ∧
        last.forwarded = [[[⟨10, 0, 0⟩]]] ∧ last.task = .finished := ⟨_, rfl, rfl, rfl⟩
  have hopen : ∀ turn ∈ shutAtHundred ++ [.recv, .gate, .sent, .finish],
      turn ≠ .setEnabled false := by
    intro turn hturn
    rintro rfl
    simp [shutAtHundred, observedAtTen] at hturn
  exact ⟨last, hrun,
    (everything_reaches_sender hrun hopen (delivers_stopped 100) hfinished).1, hforwarded⟩

end Dispatch

end Ohnotel.Periodic
