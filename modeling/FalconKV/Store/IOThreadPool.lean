import FalconKV.AtomicCalls.Ledgers
import FalconKV.Common.Crew
import FalconKV.Common.Status

/-! # The pool of I/O threads

A caller puts its tasks into the queue one by one and then waits for their futures in turn.
A worker tests whether the pool is running, waits for a task, and runs it. To stop the pool
is to clear the flag, to wait for the workers and to discard what is left in the queue. A
wait may end once its condition holds, so that notifications are left out. A task is a number
here; it returns a status.
-/
namespace FalconKV
open AtomicCalls

inductive PoolWorker
  | atLoop
  | waiting
  | inTask (slot : ℕ)
  | left
  deriving DecidableEq, Repr

inductive TaskResult
  | pending
  | done (s : Status)
  | broken
  deriving DecidableEq, Repr

structure PackagedTask where
  task : ℕ
  result : TaskResult
  deriving DecidableEq, Repr

structure IOThreadPool where
  running : Bool
  workers : List PoolWorker
  /-- positions in `packaged` -/
  taskQueue : List ℕ
  packaged : List PackagedTask

inductive PoolCall
  | push (task : ℕ)
  | get (slot : ℕ)
  | exchangeRunning
  | join
  | drain
  | loadRunning (i : ℕ)
  | takeTask (i : ℕ)
  | runTask (i : ℕ)

abbrev PoolCall.Res : PoolCall → Type
  | push _ => ℕ
  | get _ => Except String Status
  | exchangeRunning | loadRunning _ => Bool
  | join | drain => Unit
  | takeTask _ => Option ℕ
  | runTask _ => ℕ × ℕ × Status

abbrev poolCalls : Signature := ⟨PoolCall,PoolCall.Res⟩

abbrev PoolProg := Prog poolCalls

namespace IOThreadPool

/-- The pool after `Start`. -/
def create (numThreads : ℕ) : IOThreadPool :=
  ⟨true,List.replicate (if 0 < numThreads then numThreads else 4) .atLoop,[],[]⟩

def setWorker (s : IOThreadPool) (i : ℕ) (w : PoolWorker) : IOThreadPool :=
  { s with workers := s.workers.set i w }

def push (s : IOThreadPool) (task : ℕ) : IOThreadPool := { s with
  taskQueue := s.taskQueue ++ [s.packaged.length]
  packaged := s.packaged ++ [⟨task,.pending⟩] }

def drain (s : IOThreadPool) : IOThreadPool := { s with
  taskQueue := []
  packaged := s.packaged.mapIdx fun slot p =>
    if slot ∈ s.taskQueue then { p with result := .broken } else p }

def fulfil (s : IOThreadPool) (slot : ℕ) (status : Status) : IOThreadPool :=
  { s with packaged := s.packaged.modify slot fun p => { p with result := .done status } }

def get (s : IOThreadPool) (slot : ℕ) : Option (Except String Status) :=
  match (s.packaged[slot]?).map PackagedTask.result with
  | some (.done status) => some (.ok status)
  | some .broken => some (.error "std::future_error: Broken promise")
  | _ => none

def loadRunning (s : IOThreadPool) (i : ℕ) : Option (Bool × IOThreadPool) :=
  if s.workers[i]? = some .atLoop then
    some (s.running,s.setWorker i (if s.running then .waiting else .left))
  else none

def takeTask (s : IOThreadPool) (i : ℕ) : Option (Option ℕ × IOThreadPool) :=
  if s.workers[i]? = some .waiting then
    match s.taskQueue with
    | slot :: rest => some (some slot,{ s with taskQueue := rest }.setWorker i (.inTask slot))
    | [] => if s.running then none else some (none,s.setWorker i .left)
  else none

def runTask (s : IOThreadPool) (i : ℕ) (status : Status) : Option ((ℕ × ℕ × Status) × IOThreadPool) :=
  match s.workers[i]? with
  | some (.inTask slot) => (s.packaged[slot]?).map fun p =>
    ((slot,p.task,status),(s.fulfil slot status).setWorker i .atLoop)
  | _ => none

def step (op : PoolCall) (status : Status) (s : IOThreadPool) : Option (op.Res × IOThreadPool) :=
  match op with
  | .push task => some (s.packaged.length,s.push task)
  | .get slot => (s.get slot).map fun r => (r,s)
  | .exchangeRunning => some (s.running,{ s with running := false })
  | .join => if s.workers.all (· == .left) then some ((),{ s with workers := [] }) else none
  | .drain => some ((),s.drain)
  | .loadRunning i => s.loadRunning i
  | .takeTask i => s.takeTask i
  | .runTask i => s.runTask i status

end IOThreadPool

def poolMachine : Machine poolCalls IOThreadPool := ⟨Status,IOThreadPool.step⟩

namespace PoolOps

abbrev ask (op : PoolCall) : PoolProg op.Res := Prog.perform (E := poolCalls) op

/-- `futures[i].get()` for one after the other; an exception leaves the function. -/
def getAll : List ℕ → List Status → PoolProg (Except String (List Status))
  | [], results => pure (.ok results)
  | slot :: futures, results => do
    let r ← ask (.get slot)
    match r with
    | .error e => pure (.error e)
    | .ok status => getAll futures (results ++ [status])

def submitAndWait (tasks : List ℕ) : PoolProg (Except String (List Status)) :=
  if tasks.length = 0 then pure (.ok [])
  else do
    let futures ← Prog.mapEach (fun task => ask (.push task)) tasks
    getAll futures []

def stop : PoolProg Unit := do
  let running ← ask .exchangeRunning
  if !running then pure ()
  else do
    ask .join
    ask .drain

/-- One round of `WorkerLoop`. -/
def workerRound (i : ℕ) : PoolProg Unit := do
  let running ← ask (.loadRunning i)
  if !running then pure ()
  else do
    let task ← ask (.takeTask i)
    match task with
    | none => pure ()
    | some _ => do
      let _ ← ask (.runTask i)
      pure ()

end PoolOps

inductive PoolOp
  | submitAndWait (tasks : List ℕ)
  | stop
  | workerRound (i : ℕ)

inductive PoolReply
  | submitAndWait (tasks : List ℕ) (results : Except String (List Status))
  | stop
  | workerRound
  deriving DecidableEq

def PoolOp.run : PoolOp → PoolProg PoolReply
  | submitAndWait tasks => PoolReply.submitAndWait tasks <$> PoolOps.submitAndWait tasks
  | stop => (fun _ => PoolReply.stop) <$> PoolOps.stop
  | workerRound i => (fun _ => PoolReply.workerRound) <$> PoolOps.workerRound i

abbrev PoolRun (ok : IOThreadPool → PoolCall → Prop) (numThreads : ℕ)
    (tr : List (Event poolCalls IOThreadPool)) (Q : Pool poolCalls IOThreadPool PoolReply) : Prop :=
  Run poolMachine (fun p => ∃ op, p = PoolOp.run op) ok ⟨.create numThreads,[]⟩ tr Q

end FalconKV
