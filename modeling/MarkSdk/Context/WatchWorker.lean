import Mathlib.Data.List.Basic
import Mathlib.Logic.Function.Basic
import MarkSdk.Lib.Runs

/-!
The background worker of a context watch.

Any threads may submit tasks, stop the worker and cancel futures at the same
time. Tasks wait in one queue. A thread that runs them is started when there
is none, and ends by itself when it has waited for a while in vain. Who tests
whether there is a thread, and who says that there is none any more, does so
under the lock of the worker.

A step is what one thread does between two points where others may run.
-/

namespace MarkSdk

/-! ### Futures -/

inductive FutureState : Type
  | pending | running | cancelled | finished
  deriving DecidableEq

/-- `future.cancel()`: only what has not begun can be cancelled. -/
def FutureState.cancel : FutureState → FutureState
  | .pending => .cancelled
  | state => state

def FutureState.isDone : FutureState → Bool
  | .cancelled | .finished => true
  | _ => false

/-! ### Places -/

/-- Where a call of `submit` or `stop` is. The future of a submission has the
number of its call. -/
inductive CallPc : Type
  | idle
  /-- in `submit`, before the lock -/
  | submitting
  /-- in `submit`, with the lock -/
  | submitLocked
  /-- behind `_queue.put`, with the lock -/
  | put
  /-- before the lock is given back -/
  | unlocking
  | returned
  /-- in `stop`, before the lock -/
  | stopping
  /-- in `stop`, with the lock -/
  | stopLocked
  /-- `_stopped` is set and the thread read, with the lock -/
  | flagged (thread : Option Nat)
  /-- in the loop that empties the queue -/
  | draining (thread : Option Nat)
  /-- with a future out of the queue, before its `cancel` -/
  | cancelling (thread : Option Nat) (future : Nat)
  /-- behind the loop -/
  | drained (thread : Option Nat)
  /-- in `thread.join` -/
  | joining (thread : Nat)
  /-- `stop` has returned, and its thread had ended -/
  | stopped
  deriving DecidableEq

/-- Where a thread is that was started with `_run`. -/
inductive RunPc : Type
  /-- not started yet -/
  | new
  /-- in `_queue.get` -/
  | waiting
  /-- behind `queue.Empty`, before the lock -/
  | idle
  /-- with the lock, before the test of the queue -/
  | looking
  /-- the queue was not empty, before the lock is given back -/
  | resuming
  /-- with a task, before the test of `_stopped` -/
  | got (future : Nat)
  /-- behind that test, before `set_running_or_notify_cancel` -/
  | passed (future : Nat)
  /-- before `future.cancel()` -/
  | dropping (future : Nat)
  | running (future : Nat)
  /-- with the wake-up of `stop`, before the lock -/
  | woken
  /-- with that and the lock -/
  | wokenLocked
  /-- `_thread` is `None`, before the lock is given back -/
  | leaving
  | ended
  deriving DecidableEq

/-- In the loop of `_run`. -/
def RunPc.inLoop : RunPc → Bool
  | .new | .leaving | .ended => false
  | _ => true

inductive WatchParty : Type
  | call (c : Nat)
  | thread (w : Nat)
  deriving DecidableEq

structure WatchWorker where
  /-- `_queue`; nothing stands for the wake-up of `stop` -/
  queue : List (Option Nat) := []
  lock : Option WatchParty := none
  /-- `_thread` -/
  thread : Option Nat := none
  stopped : Bool := false
  calls : Nat → CallPc := fun _ => .idle
  threads : Nat → RunPc := fun _ => .new
  /-- how many threads were started -/
  started : Nat := 0
  futures : Nat → FutureState := fun _ => .pending
  /-- the futures of all calls of `submit` -/
  asked : List Nat := []
  /-- the futures in the order of `_queue.put` -/
  submitted : List Nat := []
  /-- the futures in the order in which their functions were called -/
  ran : List Nat := []

inductive WatchAction : Type
  | submit (c : Nat)
  | stop (c : Nat)
  /-- `future.cancel()` by whoever has the future -/
  | cancel (future : Nat)
  /-- the next step of a call -/
  | call (c : Nat)
  /-- a `stop` that does not wait for its thread, or not any longer -/
  | giveUp (c : Nat)
  /-- the next step of a thread -/
  | thread (w : Nat)
  /-- `_queue.get` has waited in vain -/
  | timeOut (w : Nat)
  deriving DecidableEq

namespace WatchWorker

def setCall (s : WatchWorker) (c : Nat) (pc : CallPc) : WatchWorker :=
  { s with calls := Function.update s.calls c pc }

def setThread (s : WatchWorker) (w : Nat) (pc : RunPc) : WatchWorker :=
  { s with threads := Function.update s.threads w pc }

def setFuture (s : WatchWorker) (f : Nat) (state : FutureState) : WatchWorker :=
  { s with futures := Function.update s.futures f state }

def cancel (s : WatchWorker) (f : Nat) : WatchWorker := s.setFuture f (s.futures f).cancel

/-- `thread is not None and thread.is_alive()` -/
def alive (s : WatchWorker) : Bool :=
  match s.thread with
  | none => false
  | some w => s.threads w ≠ .new ∧ s.threads w ≠ .ended

/-- The next step of a call; none for one that waits for the lock or a thread. -/
def callStep (s : WatchWorker) (c : Nat) : WatchWorker :=
  match s.calls c with
  -- `submit`
  | .submitting => if s.lock = none then { s.setCall c .submitLocked with lock := some (.call c) } else s
  | .submitLocked =>
      if s.stopped then (s.cancel c).setCall c .unlocking
      else { s.setCall c .put with queue := s.queue ++ [some c], submitted := s.submitted ++ [c] }
  | .put =>
      if s.alive then s.setCall c .unlocking
      else
        { (s.setThread s.started .waiting).setCall c .unlocking with
          thread := some s.started
          started := s.started + 1 }
  | .unlocking => { s.setCall c .returned with lock := none }
  -- `stop`
  | .stopping => if s.lock = none then { s.setCall c .stopLocked with lock := some (.call c) } else s
  | .stopLocked => { s.setCall c (.flagged s.thread) with stopped := true }
  | .flagged thread => { s.setCall c (.draining thread) with lock := none }
  | .draining thread =>
      match s.queue with
      | [] => s.setCall c (.drained thread)
      | none :: queue => { s with queue }
      | some f :: queue => { s.setCall c (.cancelling thread f) with queue }
  | .cancelling thread f => (s.cancel f).setCall c (.draining thread)
  | .drained none => s.setCall c .stopped
  | .drained (some w) => { s.setCall c (.joining w) with queue := s.queue ++ [none] }
  | .joining w => if s.threads w = .ended then s.setCall c .stopped else s
  | .idle | .returned | .stopped => s

/-- The next step of a thread; none for one that waits for the lock or a task. -/
def threadStep (s : WatchWorker) (w : Nat) : WatchWorker :=
  match s.threads w with
  | .waiting =>
      match s.queue with
      | [] => s
      | none :: queue => { s.setThread w .woken with queue }
      | some f :: queue => { s.setThread w (.got f) with queue }
  | .idle => if s.lock = none then { s.setThread w .looking with lock := some (.thread w) } else s
  | .looking =>
      if s.queue = [] then { s.setThread w .leaving with thread := none } else s.setThread w .resuming
  | .resuming => { s.setThread w .waiting with lock := none }
  | .woken => if s.lock = none then { s.setThread w .wokenLocked with lock := some (.thread w) } else s
  | .wokenLocked => { s.setThread w .leaving with thread := none }
  | .leaving => { s.setThread w .ended with lock := none }
  | .got f => if s.stopped then s.setThread w (.dropping f) else s.setThread w (.passed f)
  | .passed f =>
      if s.futures f = .pending then
        { (s.setFuture f .running).setThread w (.running f) with ran := s.ran ++ [f] }
      else (s.cancel f).setThread w .waiting
  | .dropping f => (s.cancel f).setThread w .waiting
  -- `set_result` or `set_exception`
  | .running f => (s.setFuture f .finished).setThread w .waiting
  | .new | .ended => s

def step (act : WatchAction) (s : WatchWorker) : WatchWorker :=
  match act with
  | .submit c =>
      if s.calls c = .idle then { s.setCall c .submitting with asked := s.asked ++ [c] } else s
  | .stop c => if s.calls c = .idle then s.setCall c .stopping else s
  | .cancel f => s.cancel f
  | .call c => s.callStep c
  | .giveUp c =>
      match s.calls c with
      | .joining _ => s.setCall c .returned
      | _ => s
  | .thread w => s.threadStep w
  | .timeOut w => if s.threads w = .waiting ∧ s.queue = [] then s.setThread w .idle else s

end WatchWorker

end MarkSdk
