import Mathlib.Logic.Function.Basic
import FalconKV.AtomicCalls.Waiting

/-! # The Python extension and its bridges

Calls of the extension come from Python threads, which hold the GIL when they enter. The
bridges stand in a table behind a mutex of its own; each of them has two worker threads
that take the tasks of its queue. A bridge that was erased from the table stays an object
here, since a call that looked it up before may still use it.
-/
namespace FalconKV
open AtomicCalls

inductive PyThread
  | call (n : ℕ)
  | worker (handle i : ℕ)
  deriving DecidableEq, Repr

inductive WorkerPhase
  | waiting
  | inTask
  | returned
  deriving DecidableEq, Repr

structure FalconKVBridge where
  taskQueue : List ℕ
  stopped : Bool
  workers : List WorkerPhase

def FalconKVBridge.create : FalconKVBridge := ⟨[],false,[.waiting,.waiting]⟩

structure PyExtension where
  gil : Option PyThread
  /-- the call that holds `g_bridges_mutex` -/
  bridgesMutex : Option ℕ
  /-- the keys of `g_bridges` -/
  registered : List ℕ
  /-- the bridges by their handles, also those that were erased -/
  objects : ℕ → Option FalconKVBridge
  nextHandle : ℕ
  nextCall : ℕ

def PyExtension.create : PyExtension := ⟨none,none,[],fun _ => none,1,0⟩

inductive PyCall
  /-- a Python thread that holds the GIL calls a function of the module -/
  | enter
  | leave (n : ℕ)
  /-- the arguments are parsed, or a list of them is converted -/
  | convert (n : ℕ)
  | releaseGil (t : PyThread)
  | acquireGil (t : PyThread)
  | lockBridges (n : ℕ)
  | unlockBridges (n : ℕ)
  | newBridge (n : ℕ)
  | insertBridge (n handle : ℕ)
  | findBridge (n handle : ℕ)
  | eraseBridge (n handle : ℕ)
  /-- `BatchExistSync`, `BatchPutSync` or `BatchGetSync` of the bridge -/
  | runSync (n handle : ℕ)
  | submitTask (n handle count : ℕ)
  | drainQueue (n handle : ℕ)
  | setStopped (n handle : ℕ)
  | join (n handle : ℕ)
  | takeTask (handle i : ℕ)
  | batchPutSync (handle i : ℕ)
  | refCountDown (handle i : ℕ)
  | endTask (handle i : ℕ)
  | endWorker (handle i : ℕ)

abbrev PyCall.Res : PyCall → Type
  | enter | takeTask .. => ℕ
  | convert _ | findBridge .. | setStopped .. => Bool
  | newBridge _ => Option ℕ
  | _ => Unit

abbrev pyCalls : Signature := ⟨PyCall,PyCall.Res⟩

namespace PyExtension

def bridge (s : PyExtension) (handle : ℕ) : FalconKVBridge :=
  (s.objects handle).getD ⟨[],true,[]⟩

def modify (s : PyExtension) (handle : ℕ) (f : FalconKVBridge → FalconKVBridge) : PyExtension :=
  { s with objects := Function.update s.objects handle ((s.objects handle).map f) }

def setWorker (s : PyExtension) (handle i : ℕ) (phase : WorkerPhase) : PyExtension :=
  s.modify handle fun b => { b with workers := b.workers.set i phase }

def workerPhase (s : PyExtension) (handle i : ℕ) : Option WorkerPhase :=
  (s.bridge handle).workers[i]?

def takeTask (s : PyExtension) (handle i : ℕ) : Option (ℕ × PyExtension) :=
  match (s.bridge handle).taskQueue with
  | [] => none
  | count :: rest =>
    if s.workerPhase handle i = some .waiting then
      some (count,(s.modify handle fun b => { b with taskQueue := rest }).setWorker handle i .inTask)
    else none

def step (op : PyCall) (succeeds : Bool) (s : PyExtension) : Option (op.Res × PyExtension) :=
  match op with
  | .enter =>
    if s.gil.isSome then none
    else some (s.nextCall,{ s with gil := some (.call s.nextCall), nextCall := s.nextCall + 1 })
  | .leave _ => some ((),{ s with gil := none })
  | .convert _ => some (succeeds,s)
  | .releaseGil _ => some ((),{ s with gil := none })
  | .acquireGil t => if s.gil.isSome then none else some ((),{ s with gil := some t })
  | .lockBridges n =>
    if s.bridgesMutex.isSome then none else some ((),{ s with bridgesMutex := some n })
  | .unlockBridges _ => some ((),{ s with bridgesMutex := none })
  | .newBridge _ =>
    if succeeds then
      some (some s.nextHandle,{ s with
        objects := Function.update s.objects s.nextHandle (some .create),
        nextHandle := s.nextHandle + 1 })
    else some (none,s)
  | .insertBridge _ handle => some ((),{ s with registered := handle :: s.registered })
  | .findBridge _ handle => some (s.registered.contains handle,s)
  | .eraseBridge _ handle => some ((),{ s with registered := s.registered.erase handle })
  | .runSync .. => some ((),s)
  | .submitTask _ handle count =>
    some ((),s.modify handle fun b => { b with taskQueue := b.taskQueue ++ [count] })
  | .drainQueue _ handle =>
    if (s.bridge handle).taskQueue.isEmpty then some ((),s) else none
  | .setStopped _ handle =>
    some ((s.bridge handle).stopped,s.modify handle fun b => { b with stopped := true })
  | .join _ handle =>
    if (s.bridge handle).workers.all (· == .returned) then some ((),s) else none
  | .takeTask handle i => s.takeTask handle i
  | .batchPutSync .. => some ((),s)
  | .refCountDown .. => some ((),s)
  | .endTask handle i => some ((),s.setWorker handle i .waiting)
  | .endWorker handle i =>
    if (s.bridge handle).stopped && (s.bridge handle).taskQueue.isEmpty &&
        s.workerPhase handle i == some .waiting then
      some ((),s.setWorker handle i .returned)
    else none

end PyExtension

def pyMachine : Machine pyCalls PyExtension := ⟨Bool,PyExtension.step⟩

abbrev PyProg := Prog pyCalls

abbrev invokePy (op : PyCall) : PyProg op.Res := Prog.perform (E := pyCalls) op

namespace FalconKVBridge

def close (n handle : ℕ) : PyProg Unit := do
  invokePy (.drainQueue n handle)
  let stopped ← invokePy (.setStopped n handle)
  if stopped then pure () else invokePy (.join n handle)

/-- One round of `WorkerLoop`: the task writes its batch, then calls back. -/
def workerRound (callback : ℕ → ℕ → ℕ → PyProg Unit) (handle i : ℕ) : PyProg Unit := do
  let count ← invokePy (.takeTask handle i)
  invokePy (.batchPutSync handle i)
  callback handle i count
  invokePy (.endTask handle i)

end FalconKVBridge

namespace PyExtension

def bridgeToHandle (n handle : ℕ) : PyProg Unit := do
  invokePy (.lockBridges n)
  invokePy (.insertBridge n handle)
  invokePy (.unlockBridges n)

def handleToBridge (n handle : ℕ) : PyProg Bool := do
  let parsed ← invokePy (.convert n)
  if !parsed then pure false
  else do
    invokePy (.lockBridges n)
    let found ← invokePy (.findBridge n handle)
    invokePy (.unlockBridges n)
    pure found

def withArguments (body : ℕ → PyProg Unit) : PyProg Unit := do
  let n ← invokePy .enter
  let parsed ← invokePy (.convert n)
  if !parsed then invokePy (.leave n) else body n

def init : PyProg Unit := withArguments fun n => do
  let created ← invokePy (.newBridge n)
  match created with
  | none => invokePy (.leave n)
  | some handle => do
    bridgeToHandle n handle
    invokePy (.leave n)

def onBridge (handle : ℕ) (body : ℕ → PyProg Unit) : PyProg Unit := withArguments fun n => do
  let found ← handleToBridge n handle
  if !found then invokePy (.leave n)
  else do
    let converted ← invokePy (.convert n)
    if !converted then invokePy (.leave n) else body n

def syncCall (handle : ℕ) : PyProg Unit := onBridge handle fun n => do
  invokePy (.releaseGil (.call n))
  invokePy (.runSync n handle)
  invokePy (.acquireGil (.call n))
  invokePy (.leave n)

def batchExistSync (handle : ℕ) : PyProg Unit := syncCall handle
def batchPutSync (handle : ℕ) : PyProg Unit := syncCall handle
def batchGetSync (handle : ℕ) : PyProg Unit := syncCall handle

def fireAndForgetPut (handle count : ℕ) : PyProg Unit := onBridge handle fun n => do
  invokePy (.submitTask n handle count)
  invokePy (.leave n)

def handOver (t : PyThread) (switches : Bool) : PyProg Unit :=
  if switches then do
    invokePy (.releaseGil t)
    invokePy (.acquireGil t)
  else pure ()

def fireAndForgetCallback (switches : ℕ → Bool) (handle i count : ℕ) : PyProg Unit := do
  invokePy (.acquireGil (.worker handle i))
  Prog.forEach (fun j => do
    handOver (.worker handle i) (switches j)
    invokePy (.refCountDown handle i)) (List.range count)
  invokePy (.releaseGil (.worker handle i))

def closeFound (n handle : ℕ) (found : Bool) : PyProg Unit :=
  if found then do
    invokePy (.releaseGil (.call n))
    FalconKVBridge.close n handle
    FalconKVBridge.close n handle
    invokePy (.eraseBridge n handle)
    invokePy (.acquireGil (.call n))
  else pure ()

def close (handle : ℕ) : PyProg Unit := withArguments fun n => do
  let parsed ← invokePy (.convert n)
  if !parsed then invokePy (.leave n)
  else do
    invokePy (.lockBridges n)
    let found ← invokePy (.findBridge n handle)
    closeFound n handle found
    invokePy (.unlockBridges n)
    invokePy (.leave n)

end PyExtension

inductive PyStart
  | init
  | batchExistSync (handle : ℕ)
  | batchPutSync (handle : ℕ)
  | batchGetSync (handle : ℕ)
  | fireAndForgetPut (handle count : ℕ)
  | close (handle : ℕ)
  | task (switches : ℕ → Bool) (handle i : ℕ)
  | endWorker (handle i : ℕ)

def PyStart.run : PyStart → PyProg Unit
  | init => PyExtension.init
  | batchExistSync handle => PyExtension.batchExistSync handle
  | batchPutSync handle => PyExtension.batchPutSync handle
  | batchGetSync handle => PyExtension.batchGetSync handle
  | fireAndForgetPut handle count => PyExtension.fireAndForgetPut handle count
  | close handle => PyExtension.close handle
  | task switches handle i =>
    FalconKVBridge.workerRound (PyExtension.fireAndForgetCallback switches) handle i
  | endWorker handle i => invokePy (.endWorker handle i)

abbrev PyRun (ok : PyExtension → PyCall → Prop) (tr : List (Event pyCalls PyExtension))
    (P : Pool pyCalls PyExtension Unit) : Prop :=
  Run pyMachine (fun p => ∃ start : PyStart, p = start.run) ok ⟨.create,[]⟩ tr P

inductive PyResource
  | gil
  | bridgesMutex
  /-- the worker threads of a bridge -/
  | workers (handle : ℕ)
  deriving DecidableEq, Repr

def PyCall.caller? : PyCall → Option PyThread
  | acquireGil t => some t
  | lockBridges n | drainQueue n _ | join n _ => some (.call n)
  | _ => none

/-- A worker thread holds the resource that its bridge waits for in `join`. -/
def PyResource.heldBy (s : PyExtension) (t : PyThread) : PyResource → Prop
  | gil => s.gil = some t
  | bridgesMutex => ∃ n, t = .call n ∧ s.bridgesMutex = some n
  | workers handle => ∃ i, t = .worker handle i

def PyCall.asks : PyCall → Option PyResource
  | acquireGil _ => some .gil
  | lockBridges _ => some .bridgesMutex
  | drainQueue _ handle | join _ handle => some (.workers handle)
  | _ => none

def pyClaims : Claims pyCalls PyExtension PyResource where
  holds := fun s op a => ∃ t, PyCall.caller? op = some t ∧ a.heldBy s t
  asks := PyCall.asks

/-- No call takes the GIL to enter while another call holds the table. -/
def PyExtension.entersFree (s : PyExtension) : PyCall → Bool
  | .enter => s.bridgesMutex.isNone
  | _ => true

end FalconKV
