/-
# The loop of the worker

After every round the worker waits for a command, until the nearer of its deadlines at the
latest.  It handles the command that ended the wait and those that came meanwhile, and
begins the next round.  The commands stand in a queue that any handle of the collector may
add to at any time.

A worker of this kind is the worker of the rounds: what its loop does is a run of rounds and
commands.  What is added here is when they happen.
-/

import Ohnotel.Collect.Timestamps
import Ohnotel.Foundation.Projection

namespace Ohnotel.Periodic

open Foundation

/-- What the handles of a collector send to its worker. -/
inductive CollectorCmd (K W : Type) : Type 1
  | add (boxed : BoxedDynObserver K W)
  | shutdown

/-- What tells one observer from another: what stands behind it, and its labels. -/
structure Card (K W : Type) : Type 1 where
  dyn : DynObserver K W
  labels : SyncObserver.Labels

def BoxedDynObserver.card {K W : Type} (boxed : BoxedDynObserver K W) : Card K W :=
  ⟨boxed.dyn, boxed.observer.labels⟩

def Registered.card {K W : Type} (r : Registered K W) : Card K W :=
  ⟨r.dyn, r.tracked.observer.labels⟩

theorem card_observe {K W : Type} [LinearOrder K] (r : Registered K W) (ts : SystemTime)
    (service : Service) (shown : BucketMap.Walkable K r.dyn.Cell) :
    (r.observe ts service shown).card = r.card :=
  congrArg (Card.mk r.dyn)
    (SyncObserver.labels_observe r.dyn.cfg ts shown.buckets r.tracked.observer)

/-- Where `Worker::block` is: before a round, in `recv_timeout`, at a command, in the loop
that takes the commands that are there, or past its end. -/
inductive Place (K W : Type) : Type 1
  | polling
  | waiting (deadline : Instant)
  | handling (cmd : CollectorCmd K W)
  | emptying
  | returned

/-- A worker with the queue of its commands.  `clock` is the latest reading, and `woke` the
one at the end of the last wait; no step reads that. -/
structure Loop (K W : Type) : Type 1 where
  worker : Worker K W
  queue : List (CollectorCmd K W)
  place : Place K W
  clock : Instant
  woke : Instant

/-- A step of a handle, or of the loop with its readings of the clock. -/
inductive LoopTurn (K W : Type) : Type 1
  | send (cmd : CollectorCmd K W)
  | round (now afterObserve afterExport paused : Instant)
      (shown : Nat → (dyn : DynObserver K W) → BucketMap.Walkable K dyn.Cell) (answer : TrySend)
  | timeout (at' : Instant)
  | receive (at' : Instant)
  | tryReceive
  | handleAdd
  | handleShutdown (now afterExport : Instant) (answer : TrySend)

variable {K W : Type}

/-- The command that the worker has taken out of the queue and not handled. -/
def Place.inHand : Place K W → List (CollectorCmd K W)
  | .handling cmd => [cmd]
  | .polling | .waiting _ | .emptying | .returned => []

def Place.isReturned : Place K W → Bool
  | .returned => true
  | .polling | .waiting _ | .handling _ | .emptying => false

/-- The command that an event of the worker handles. -/
def Event.cmd : Event K W → Option (CollectorCmd K W)
  | .wake _ _ _ _ _ => none
  | .add boxed => some (.add boxed)
  | .shutdown _ _ _ => some .shutdown

namespace LoopTurn

def isRound : LoopTurn K W → Bool
  | .round _ _ _ _ _ _ => true
  | _ => false

/-- The end of a wait by a command. -/
def isReceive : LoopTurn K W → Bool
  | .receive _ => true
  | _ => false

def sent : LoopTurn K W → Option (CollectorCmd K W)
  | .send cmd => some cmd
  | _ => none

end LoopTurn

namespace Loop

/-- The worker's thread at its beginning. -/
def new (config : Config) (start : CollectorTime) : Loop K W where
  worker := Worker.new config start
  queue := []
  place := .polling
  clock := start.instant
  woke := start.instant

/-- When a wait that begins at a reading may time out. -/
def waitUntil (w : Worker K W) (now : Instant) : Instant :=
  let deadline := min w.observeTimer.deadline w.exportTimer.deadline
  let timeout := deadline - now
  now + timeout

variable [LinearOrder K] (platform : Platform)

/-- One step.  A command that is there ends a wait, so a wait times out only with an empty
queue; and nothing can be sent to a worker that has returned. -/
def step : StepFn (Loop K W) (LoopTurn K W)
  | l, .send cmd =>
      if l.place.isReturned then none else some { l with queue := l.queue ++ [cmd] }
  | l, .round now afterObserve afterExport paused shown answer =>
      match l.place with
      | .polling =>
          if l.clock ≤ now ∧ afterExport ≤ paused then
            (Worker.step platform l.worker (.wake now afterObserve afterExport shown answer)).map
              fun worker =>
                { l with
                  worker := worker
                  place := .waiting (waitUntil worker paused)
                  clock := paused }
          else none
      | _ => none
  | l, .timeout at' =>
      match l.place, l.queue with
      | .waiting deadline, [] =>
          if deadline ≤ at' then some { l with place := .polling, clock := at', woke := at' }
          else none
      | _, _ => none
  | l, .receive at' =>
      match l.place, l.queue with
      | .waiting _, cmd :: rest =>
          if l.clock ≤ at' then
            some { l with place := .handling cmd, queue := rest, clock := at', woke := at' }
          else none
      | _, _ => none
  | l, .tryReceive =>
      match l.place, l.queue with
      | .emptying, cmd :: rest => some { l with place := .handling cmd, queue := rest }
      | .emptying, [] => some { l with place := .polling }
      | _, _ => none
  | l, .handleAdd =>
      match l.place with
      | .handling (.add boxed) =>
          (Worker.step platform l.worker (.add boxed)).map fun worker =>
            { l with worker := worker, place := .emptying }
      | _ => none
  | l, .handleShutdown now afterExport answer =>
      match l.place with
      | .handling .shutdown =>
          if l.clock ≤ now then
            (Worker.step platform l.worker (.shutdown now afterExport answer)).map fun worker =>
              { l with worker := worker, place := .returned, clock := afterExport }
          else none
      | _ => none

/-- The event of the worker in a step. -/
def onto : Loop K W → LoopTurn K W → Option (Event K W)
  | _, .round now afterObserve afterExport _ shown answer =>
      some (.wake now afterObserve afterExport shown answer)
  | l, .handleAdd =>
      match l.place with
      | .handling (.add boxed) => some (.add boxed)
      | _ => none
  | _, .handleShutdown now afterExport answer => some (.shutdown now afterExport answer)
  | _, .send _ | _, .timeout _ | _, .receive _ | _, .tryReceive => none

/-! ## What a step does -/

/-- The steps, one by one. -/
inductive Moves : Loop K W → LoopTurn K W → Loop K W → Prop
  | send {l : Loop K W} {cmd : CollectorCmd K W} (hplace : l.place.isReturned = false) :
      Moves l (.send cmd) { l with queue := l.queue ++ [cmd] }
  | round {l : Loop K W} {now afterObserve afterExport paused : Instant}
      {shown : Nat → (dyn : DynObserver K W) → BucketMap.Walkable K dyn.Cell} {answer : TrySend}
      {worker : Worker K W} (hplace : l.place = .polling) (hclock : l.clock ≤ now)
      (hpaused : afterExport ≤ paused)
      (hworker : Worker.step platform l.worker
        (.wake now afterObserve afterExport shown answer) = some worker) :
      Moves l (.round now afterObserve afterExport paused shown answer)
        { l with
          worker := worker
          place := .waiting (waitUntil worker paused)
          clock := paused }
  | timeout {l : Loop K W} {deadline at' : Instant} (hplace : l.place = .waiting deadline)
      (hqueue : l.queue = []) (hdeadline : deadline ≤ at') :
      Moves l (.timeout at') { l with place := .polling, clock := at', woke := at' }
  | receive {l : Loop K W} {deadline at' : Instant} {cmd : CollectorCmd K W}
      {rest : List (CollectorCmd K W)} (hplace : l.place = .waiting deadline)
      (hqueue : l.queue = cmd :: rest) (hclock : l.clock ≤ at') :
      Moves l (.receive at')
        { l with place := .handling cmd, queue := rest, clock := at', woke := at' }
  | another {l : Loop K W} {cmd : CollectorCmd K W} {rest : List (CollectorCmd K W)}
      (hplace : l.place = .emptying) (hqueue : l.queue = cmd :: rest) :
      Moves l .tryReceive { l with place := .handling cmd, queue := rest }
  | empty {l : Loop K W} (hplace : l.place = .emptying) (hqueue : l.queue = []) :
      Moves l .tryReceive { l with place := .polling }
  | handleAdd {l : Loop K W} {boxed : BoxedDynObserver K W} {worker : Worker K W}
      (hplace : l.place = .handling (.add boxed))
      (hworker : Worker.step platform l.worker (.add boxed) = some worker) :
      Moves l .handleAdd { l with worker := worker, place := .emptying }
  | handleShutdown {l : Loop K W} {now afterExport : Instant} {answer : TrySend}
      {worker : Worker K W} (hplace : l.place = .handling .shutdown) (hclock : l.clock ≤ now)
      (hworker : Worker.step platform l.worker (.shutdown now afterExport answer) = some worker) :
      Moves l (.handleShutdown now afterExport answer)
        { l with worker := worker, place := .returned, clock := afterExport }

variable {platform}

theorem moves_of_step {l l' : Loop K W} {turn : LoopTurn K W}
    (hstep : step platform l turn = some l') : Moves platform l turn l' := by
  cases turn with
  | send cmd =>
      simp only [step] at hstep
      split at hstep
      · cases hstep
      · next hplace =>
          obtain rfl := Option.some_inj.mp hstep
          exact .send (Bool.eq_false_iff.mpr hplace)
  | round now afterObserve afterExport paused shown answer =>
      simp only [step] at hstep
      split at hstep
      · next hplace =>
          split at hstep
          · next hclock =>
              obtain ⟨worker, hworker, rfl⟩ := Option.map_eq_some_iff.mp hstep
              exact .round hplace hclock.1 hclock.2 hworker
          · cases hstep
      · cases hstep
  | timeout at' =>
      simp only [step] at hstep
      split at hstep
      · next deadline hplace hqueue =>
          split at hstep
          · next hdeadline =>
              obtain rfl := Option.some_inj.mp hstep
              exact .timeout hplace hqueue hdeadline
          · cases hstep
      · cases hstep
  | receive at' =>
      simp only [step] at hstep
      split at hstep
      · next deadline cmd rest hplace hqueue =>
          split at hstep
          · next hclock =>
              obtain rfl := Option.some_inj.mp hstep
              exact .receive hplace hqueue hclock
          · cases hstep
      · cases hstep
  | tryReceive =>
      simp only [step] at hstep
      split at hstep
      · next cmd rest hplace hqueue =>
          obtain rfl := Option.some_inj.mp hstep
          exact .another hplace hqueue
      · next hplace hqueue =>
          obtain rfl := Option.some_inj.mp hstep
          exact .empty hplace hqueue
      · cases hstep
  | handleAdd =>
      simp only [step] at hstep
      split at hstep
      · next boxed hplace =>
          obtain ⟨worker, hworker, rfl⟩ := Option.map_eq_some_iff.mp hstep
          exact .handleAdd hplace hworker
      · cases hstep
  | handleShutdown now afterExport answer =>
      simp only [step] at hstep
      split at hstep
      · next hplace =>
          split at hstep
          · next hclock =>
              obtain ⟨worker, hworker, rfl⟩ := Option.map_eq_some_iff.mp hstep
              exact .handleShutdown hplace hclock hworker
          · cases hstep
      · cases hstep

/-! ## The worker in the loop -/

/-- A step of the loop is a step of the worker, or leaves it alone. -/
theorem run_worker_of_step {l l' : Loop K W} {turn : LoopTurn K W}
    (hstep : step platform l turn = some l') :
    (Worker.step platform).run l.worker (l.onto turn).toList = some l'.worker := by
  cases moves_of_step hstep with
  | round hplace hclock hpaused hworker =>
      rw [onto, Option.toList_some, StepFn.run_cons, hworker]
      rfl
  | handleAdd hplace hworker =>
      rw [onto, hplace, Option.toList_some, StepFn.run_cons, hworker]
      rfl
  | handleShutdown hplace hclock hworker =>
      rw [onto, Option.toList_some, StepFn.run_cons, hworker]
      rfl
  | send | timeout | receive | another | empty => rfl

/-- What the commands have led to: the observers of the added ones, in order, are what is
registered, and a shutdown is the last that is handled. -/
structure Handled (cmds : List (CollectorCmd K W)) (l : Loop K W) : Prop where
  cmds : ∃ added : List (BoxedDynObserver K W),
    cmds = added.map .add ++ (if l.place.isReturned then [.shutdown] else []) ∧
      l.worker.observers.map Registered.card = added.map BoxedDynObserver.card

theorem card_step {w w' : Worker K W} {event : Event K W}
    (hstep : Worker.step platform w event = some w') :
    w'.observers.map Registered.card = w.observers.map Registered.card ++
      match event with
      | .add boxed => [boxed.card]
      | .wake _ _ _ _ _ | .shutdown _ _ _ => [] := by
  have hexported : ∀ {v v' : Worker K W} {now after : Instant} {answer : TrySend},
      v.maybeExport platform now after answer = some v' →
      v'.observers.map Registered.card = v.observers.map Registered.card := by
    intro v v' now after answer hexport
    rcases Worker.maybeExport_cases hexport with ⟨_, rfl⟩ | ⟨_, rfl⟩
    · rfl
    · rw [Worker.exported, List.map_map]
      rfl
  cases Worker.moves_of_step hstep with
  | wake hphase hclock hobserving hexporting hobserve hexport =>
      rw [List.append_nil]
      refine (hexported hexport).trans ?_
      rw [Worker.maybeObserve] at hobserve
      split at hobserve
      · obtain ⟨time, _, rfl⟩ := Option.map_eq_some_iff.mp hobserve
        apply List.ext_getElem
        · simp
        · intro n _ _
          simp [card_observe]
      · obtain rfl := Option.some_inj.mp hobserve
        rfl
  | add hphase hadd =>
      obtain ⟨time, _, rfl⟩ := Option.map_eq_some_iff.mp hadd
      rw [List.map_append]
      rfl
  | shutdown hphase hclock hexporting hexport =>
      have hsame := hexported hexport
      rw [List.append_nil]
      exact hsame

/-- One step, on what was handled before it. -/
theorem Handled.step {l l' : Loop K W} {turn : LoopTurn K W} {cmds : List (CollectorCmd K W)}
    (h : Handled cmds l) (hstep : step platform l turn = some l') :
    Handled (cmds ++ ((l.onto turn).bind Event.cmd).toList) l' ∧
      ((l.onto turn).bind Event.cmd).toList ++ l'.place.inHand ++ l'.queue =
        l.place.inHand ++ l.queue ++ turn.sent.toList := by
  obtain ⟨added, rfl, hcard⟩ := h.cmds
  cases moves_of_step hstep with
  | send hplace =>
      refine ⟨⟨added, ?_, hcard⟩, ?_⟩
      · simp [onto]
      · simp [onto, LoopTurn.sent]
  | round hplace hclock hpaused hworker =>
      refine ⟨⟨added, ?_, ?_⟩, ?_⟩
      · simp [onto, Event.cmd, hplace, Place.isReturned]
      · rw [card_step hworker, hcard, List.append_nil]
      · simp [onto, Event.cmd, LoopTurn.sent, hplace, Place.inHand]
  | timeout hplace hqueue hdeadline =>
      refine ⟨⟨added, ?_, hcard⟩, ?_⟩
      · simp [onto, hplace, Place.isReturned]
      · simp [onto, LoopTurn.sent, hplace, Place.inHand]
  | receive hplace hqueue hclock =>
      refine ⟨⟨added, ?_, hcard⟩, ?_⟩
      · simp [onto, hplace, Place.isReturned]
      · simp [onto, LoopTurn.sent, hplace, hqueue, Place.inHand]
  | another hplace hqueue =>
      refine ⟨⟨added, ?_, hcard⟩, ?_⟩
      · simp [onto, hplace, Place.isReturned]
      · simp [onto, LoopTurn.sent, hplace, hqueue, Place.inHand]
  | empty hplace hqueue =>
      refine ⟨⟨added, ?_, hcard⟩, ?_⟩
      · simp [onto, hplace, Place.isReturned]
      · simp [onto, LoopTurn.sent, hplace, Place.inHand]
  | @handleAdd boxed worker hplace hworker =>
      refine ⟨⟨added ++ [boxed], ?_, ?_⟩, ?_⟩
      · simp [onto, Event.cmd, hplace, Place.isReturned]
      · rw [card_step hworker, hcard, List.map_append]
        rfl
      · simp [onto, Event.cmd, LoopTurn.sent, hplace, Place.inHand]
  | handleShutdown hplace hclock hworker =>
      refine ⟨⟨added, ?_, ?_⟩, ?_⟩
      · simp [onto, Event.cmd, hplace, Place.isReturned]
      · rw [card_step hworker, hcard, List.append_nil]
      · simp [onto, Event.cmd, LoopTurn.sent, hplace, Place.inHand]

variable {config : Config} {start : CollectorTime} {turns : List (LoopTurn K W)}
  {last : Loop K W}

/-- Whoever sends commands to the worker and whenever: what its loop does is a run of rounds
and of the commands it handled.  These, the one it is at and those in the queue are the
commands that were sent, in order and each once.  The observers it has are those of the
added ones, in order and with their identities, kinds and modes, and a worker that has
returned has handled all that was sent before the shutdown, and that. -/
theorem commands_handled_in_order
    (hrun : (step platform).run (new config start) turns = some last) :
    ∃ events, (Worker.step platform).run (Worker.new config start) events = some last.worker ∧
      turns.filterMap LoopTurn.sent =
        events.filterMap Event.cmd ++ last.place.inHand ++ last.queue ∧
      ∃ added : List (BoxedDynObserver K W),
        events.filterMap Event.cmd =
          added.map .add ++ (if last.place.isReturned then [.shutdown] else []) ∧
        last.worker.observers.map Registered.card = added.map BoxedDynObserver.card := by
  refine ⟨(step platform).trace onto (new config start) turns, ?_, ?_⟩
  · exact StepFn.run_trace (fun _ _ _ hstep => run_worker_of_step hstep) hrun
  · refine StepFn.run_induction (motive := fun turns last =>
      turns.filterMap LoopTurn.sent =
          ((step platform).trace onto (new config start) turns).filterMap Event.cmd ++
            last.place.inHand ++ last.queue ∧
        ∃ added : List (BoxedDynObserver K W),
          ((step platform).trace onto (new config start) turns).filterMap Event.cmd =
            added.map .add ++ (if last.place.isReturned then [.shutdown] else []) ∧
          last.worker.observers.map Registered.card = added.map BoxedDynObserver.card) ?_ ?_ hrun
    · exact ⟨rfl, [], rfl, rfl⟩
    · intro turns l turn l' hbefore ⟨hsent, hhandled⟩ hstep
      obtain ⟨hnext, hqueue⟩ := Handled.step ⟨hhandled⟩ hstep
      have htrace : ((step platform).trace onto (new config start)
          (turns ++ [turn])).filterMap Event.cmd =
            ((step platform).trace onto (new config start) turns).filterMap Event.cmd ++
              ((l.onto turn).bind Event.cmd).toList := by
        rw [StepFn.trace_concat hbefore hstep, List.filterMap_append]
        cases l.onto turn with
        | none => rfl
        | some event => cases hcmd : event.cmd <;> simp [hcmd]
      rw [htrace]
      refine ⟨?_, hnext.cmds⟩
      rw [List.filterMap_append, hsent, List.append_assoc, List.append_assoc]
      have hlast : [turn].filterMap LoopTurn.sent = turn.sent.toList := by
        cases hturn : turn.sent <;> simp [hturn]
      rw [hlast, List.append_assoc, List.append_assoc]
      simpa using hqueue.symm

/-- A round at one reading, and the wait after it. -/
def roundAt (now paused : Instant) : LoopTurn Nat Unit :=
  .round now now now paused (fun _ dyn => touched dyn.cfg) .sent

/-- The observer joins at 10 and is observed for the ticks at 10 and 20, each time a little
late. -/
def keptUp : List (LoopTurn Nat Unit) :=
  [roundAt 0 1, .send (.add plainObserver), .receive 4, .handleAdd, .tryReceive, roundAt 4 5,
    .timeout 11, roundAt 11 12, .timeout 20, roundAt 21 21, .send .shutdown, .receive 22,
    .handleShutdown 22 22 .sent]

theorem commands_handled_in_order_keptUp :
    ∃ last, (step roomy).run (new everyTen ⟨0, 0⟩) keptUp = some last ∧
      last.place.isReturned = true ∧ ∃ events,
        (Worker.step roomy).run (Worker.new everyTen ⟨0, 0⟩) events = some last.worker ∧
        keptUp.filterMap LoopTurn.sent =
          events.filterMap Event.cmd ++ last.place.inHand ++ last.queue := by
  have hrun : ∃ last, (step roomy).run (new everyTen ⟨0, 0⟩) keptUp = some last ∧
      last.place.isReturned = true := ⟨_, rfl, rfl⟩
  obtain ⟨last, hrun, hreturned⟩ := hrun
  obtain ⟨events, hworker, hsent, _⟩ := commands_handled_in_order hrun
  exact ⟨last, hrun, hreturned, events, hworker, hsent⟩

end Loop

end Ohnotel.Periodic
