import FalconKV.AtomicCalls.Ledgers
import FalconKV.Common.Crew

/-! # Tasks of a bridge

A put in the background becomes a task in the queue of its bridge. Two worker threads take
tasks, write the batch of a task and run its callback. To close a bridge is to wait until
the queue is empty, to set a flag, to wait for the workers and to take the client down. A
task is a number.
-/
namespace FalconKV
open AtomicCalls

inductive BridgeWorker
  | waiting
  | taken (task : ℕ)
  | ran (task : ℕ)
  | left
  deriving DecidableEq, Repr

structure BridgeState where
  /-- how many tasks have been put into the queue -/
  nextTask : ℕ
  taskQueue : List ℕ
  stopped : Bool
  workers : List BridgeWorker
  /-- `impl_` is set -/
  impl : Bool

inductive BridgeCall
  | submitTask
  | notifyOne
  | notifyAll
  /-- the test of `DrainQueue` that finds the queue empty -/
  | drainQueue
  | setStopped
  | join
  | closeImpl
  /-- the RPC server and the store -/
  | closeStore
  | takeTask (i : ℕ)
  | batchPutSync (i : ℕ)
  | callback (i : ℕ)

/-- Work on a task is answered with the task and whether `impl_` was there. -/
abbrev BridgeCall.Res : BridgeCall → Type
  | submitTask => ℕ
  | setStopped => Bool
  | takeTask _ => Option ℕ
  | batchPutSync _ | callback _ => ℕ × Bool
  | notifyOne | notifyAll | drainQueue | join | closeImpl | closeStore => Unit

abbrev bridgeCalls : Signature := ⟨BridgeCall,BridgeCall.Res⟩

abbrev BridgeProg := Prog bridgeCalls

namespace BridgeState

def create : BridgeState := ⟨0,[],false,[.waiting,.waiting],true⟩

def setWorker (s : BridgeState) (i : ℕ) (w : BridgeWorker) : BridgeState :=
  { s with workers := s.workers.set i w }

def takeTask (s : BridgeState) (i : ℕ) : Option (Option ℕ × BridgeState) :=
  if s.workers[i]? = some .waiting then
    match s.taskQueue with
    | task :: rest => some (some task,{ s with taskQueue := rest }.setWorker i (.taken task))
    | [] => if s.stopped then some (none,s.setWorker i .left) else none
  else none

def batchPutSync (s : BridgeState) (i : ℕ) : Option ((ℕ × Bool) × BridgeState) :=
  match s.workers[i]? with
  | some (.taken task) => some ((task,s.impl),s.setWorker i (.ran task))
  | _ => none

def callback (s : BridgeState) (i : ℕ) : Option ((ℕ × Bool) × BridgeState) :=
  match s.workers[i]? with
  | some (.ran task) => some ((task,s.impl),s.setWorker i .waiting)
  | _ => none

def step (op : BridgeCall) (_ : Unit) (s : BridgeState) : Option (op.Res × BridgeState) :=
  match op with
  | .submitTask => some (s.nextTask,{ s with
      nextTask := s.nextTask + 1
      taskQueue := s.taskQueue ++ [s.nextTask] })
  | .notifyOne | .notifyAll => some ((),s)
  | .drainQueue => if s.taskQueue.isEmpty then some ((),s) else none
  | .setStopped => some (s.stopped,{ s with stopped := true })
  | .join => if s.workers.all (· == .left) then some ((),{ s with workers := [] }) else none
  | .closeImpl => some ((),{ s with impl := false })
  | .closeStore => some ((),s)
  | .takeTask i => s.takeTask i
  | .batchPutSync i => s.batchPutSync i
  | .callback i => s.callback i

end BridgeState

def bridgeMachine : Machine bridgeCalls BridgeState := ⟨Unit,BridgeState.step⟩

namespace BridgeOps

abbrev ask (op : BridgeCall) : BridgeProg op.Res := Prog.perform (E := bridgeCalls) op

def fireAndForgetPut : BridgeProg Unit := do
  let _ ← ask .submitTask
  ask .notifyOne

/-- A call that finds the flag set has nothing to do. -/
def close : BridgeProg Unit := do
  ask .drainQueue
  let stopped ← ask .setStopped
  if stopped then pure ()
  else do
    ask .notifyAll
    ask .join
    ask .closeImpl
    ask .closeStore

/-- One round of `WorkerLoop`. -/
def workerRound (i : ℕ) : BridgeProg Unit := do
  let task ← ask (.takeTask i)
  match task with
  | none => pure ()
  | some _ => do
    let _ ← ask (.batchPutSync i)
    let _ ← ask (.callback i)
    pure ()

end BridgeOps

inductive BridgeOp
  | fireAndForgetPut
  | close
  | workerRound (i : ℕ)
  deriving DecidableEq

/-- A thread answers with what it was started as. -/
def BridgeOp.run : BridgeOp → BridgeProg BridgeOp
  | fireAndForgetPut => (fun _ => fireAndForgetPut) <$> BridgeOps.fireAndForgetPut
  | close => (fun _ => close) <$> BridgeOps.close
  | workerRound i => (fun _ => workerRound i) <$> BridgeOps.workerRound i

def BridgeCall.ends (op : BridgeCall) (r : op.Res) : Bool :=
  match op, r with
  | setStopped, stopped => stopped
  | closeStore, _ => true
  | _, _ => false

/-- The bridge with a record of whether a call of `Close` has come to its end. -/
def closingMachine : Machine bridgeCalls (BridgeState × Bool) :=
  bridgeMachine.withRecord fun op r _ closed => closed || op.ends r

abbrev BridgeRun (ok : BridgeState × Bool → BridgeCall → Prop)
    (tr : List (Event bridgeCalls (BridgeState × Bool)))
    (Q : Pool bridgeCalls (BridgeState × Bool) BridgeOp) : Prop :=
  Run closingMachine (fun p => ∃ op, p = BridgeOp.run op) ok ⟨(.create,false),[]⟩ tr Q

end FalconKV
