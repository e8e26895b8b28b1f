import Mathlib.Logic.Function.Basic
import FalconKV.Scheduler.Proxy
import FalconKV.Scheduler.Service

/-! # One scheduler and the proxies that call it

A remote call of a proxy is a message that arrives or is lost, a handler that takes it up,
and a wait that ends with the answer or with a failure, which may come at any time. Messages
and answers overtake each other.
-/
namespace FalconKV
open AtomicCalls

structure SchedulerSystem where
  scheduler : FalconKVScheduler
  proxy : ℕ → SchedulerProxy
  nextCall : ℕ
  /-- messages that no handler has taken up yet -/
  requests : List (ℕ × SchedulerOp)
  /-- answers to `RequestIO` that no client has got -/
  responses : List (ℕ × IOResponseData)
  /-- the other calls that were answered -/
  acks : List ℕ

def SchedulerSystem.create : SchedulerSystem := ⟨.create,fun _ => .initial,0,[],[],[]⟩

inductive SystemCall
  | atScheduler (op : SchedulerCall)
  | atProxy (i : ℕ) (op : ProxyCall)
  | send (message : SchedulerOp)
  | awaitResponse (id : ℕ) (arrived : Bool)
  | awaitAck (id : ℕ) (arrived : Bool)
  /-- `cntl.Failed()` is found to be true -/
  | callFailed (id : ℕ) (message : SchedulerOp) (arrived : Bool)
  | receive
  | sendResponse (id : ℕ) (response : IOResponseData)
  | sendAck (id : ℕ)

abbrev SystemCall.Res : SystemCall → Type
  | atScheduler op => op.Res
  | atProxy _ op => op.Res
  | send _ => ℕ × Bool
  | awaitResponse .. => Option IOResponseData
  | awaitAck .. => Bool
  | receive => ℕ × SchedulerOp
  | _ => Unit

abbrev systemCalls : Signature := ⟨SystemCall,SystemCall.Res⟩

structure SystemChoice where
  now : ℕ := 0
  proxy : ProxyChoice := {}
  succeeds : Bool := true
  index : ℕ := 0

namespace SchedulerSystem

def step (op : SystemCall) (c : SystemChoice) (x : SchedulerSystem) :
    Option (op.Res × SchedulerSystem) :=
  match op with
  | .atScheduler op =>
    (x.scheduler.step op c.now).map fun y => (y.1,{ x with scheduler := y.2 })
  | .atProxy i op =>
    ((x.proxy i).step op c.proxy).map fun y => (y.1,{ x with proxy := Function.update x.proxy i y.2 })
  | .send message =>
    some ((x.nextCall,c.succeeds),{ x with
      nextCall := x.nextCall + 1
      requests := if c.succeeds then x.requests ++ [(x.nextCall,message)] else x.requests })
  | .awaitResponse id arrived =>
    if arrived && c.succeeds then
      (x.responses.find? fun y => y.1 == id).map fun y =>
        (some y.2,{ x with responses := x.responses.erase y })
    else some (none,x)
  | .awaitAck id arrived =>
    if arrived && c.succeeds then
      if id ∈ x.acks then some (true,{ x with acks := x.acks.erase id }) else none
    else some (false,x)
  | .callFailed .. => some ((),x)
  | .receive =>
    (x.requests[c.index]?).map fun y => (y,{ x with requests := x.requests.eraseIdx c.index })
  | .sendResponse id response => some ((),{ x with responses := x.responses ++ [(id,response)] })
  | .sendAck id => some ((),{ x with acks := x.acks ++ [id] })

end SchedulerSystem

def systemMachine : Machine systemCalls SchedulerSystem := ⟨SystemChoice,SchedulerSystem.step⟩

abbrev SystemProg := Prog systemCalls

namespace SchedulerSystem

abbrev call (op : SystemCall) : SystemProg op.Res := Prog.perform (E := systemCalls) op

def atProxy (i : ℕ) : (op : ProxyCall) → SystemProg op.Res
  | .requestRpc request => do
    let (id,arrived) ← call (.send (.request request))
    let resp ← call (.awaitResponse id arrived)
    match resp with
    | some resp => pure (some resp)
    | none => do
      call (.callFailed id (.request request) arrived)
      pure none
  | .reportRpc report => callAck (.report report)
  | .storeReportRpc report => callAck (.storeReport report)
  | op => call (.atProxy i op)
where
  callAck (message : SchedulerOp) : SystemProg Bool := do
    let (id,arrived) ← call (.send message)
    let ok ← call (.awaitAck id arrived)
    if ok then pure true
    else do
      call (.callFailed id message arrived)
      pure false

def runProxy {α : Type} (i : ℕ) (p : ProxyProg α) : SystemProg α := p.interp (atProxy i)

def runScheduler {α : Type} (p : SchedulerProg α) : SystemProg α :=
  p.interp fun op => call (.atScheduler op)

/-- A handler of the scheduler, from its message to its answer. -/
def serve : SystemProg Unit := do
  let (id,message) ← call .receive
  match message with
  | .request data => do
    let resp ← runScheduler (SchedulerServiceImpl.requestIO data)
    call (.sendResponse id resp)
  | message => do
    runScheduler message.run
    call (.sendAck id)

/-- The two halves around an IO of a client: the report carries the ticket of the answer. -/
def pair (cfg : ProxyConfig) (request : IORequestData) (report : IOCompletionData) : ProxyProg Unit := do
  let resp ← SchedulerProxy.requestIO cfg request
  SchedulerProxy.reportIOCompletion cfg { report with ticket := resp.ticket }

end SchedulerSystem

/-- What may be started: handlers of the scheduler, and at any proxy its construction and
destruction, pairs, reports of a store, and rounds of the probe. -/
inductive SystemOp
  | serve
  | construct (i : ℕ)
  | pair (i : ℕ) (request : IORequestData) (report : IOCompletionData)
  | storeReport (i : ℕ) (report : StoreIOReport)
  | isBypassMode (i : ℕ)
  | probeRound (i : ℕ)
  | destroy (i : ℕ)

def SystemOp.run (cfg : ProxyConfig) : SystemOp → SystemProg Unit
  | serve => SchedulerSystem.serve
  | construct i => SchedulerSystem.runProxy i SchedulerProxy.construct
  | pair i request report =>
    SchedulerSystem.runProxy i (SchedulerSystem.pair cfg request report)
  | storeReport i report => SchedulerSystem.runProxy i (SchedulerProxy.storeReportIOAsync report)
  | isBypassMode i => SchedulerSystem.runProxy i ((fun _ => ()) <$> SchedulerProxy.isBypassMode)
  | probeRound i => SchedulerSystem.runProxy i SchedulerProxy.probeRound
  | destroy i => SchedulerSystem.runProxy i SchedulerProxy.destroy

abbrev SystemRun (cfg : ProxyConfig) (ok : SchedulerSystem → SystemCall → Prop) :
    List (Event systemCalls SchedulerSystem) → Pool systemCalls SchedulerSystem Unit → Prop :=
  Run systemMachine (fun p => ∃ op : SystemOp, p = op.run cfg) ok ⟨.create,[]⟩

/-- No call is under way: none is being made or served, and no message is on its way. -/
def SchedulerSystem.Quiet (P : Pool systemCalls SchedulerSystem Unit) : Prop :=
  P.Returned ∧ P.state.requests = []

/-- The accumulators hold nothing. -/
def SchedulerSystem.Idle (x : SchedulerSystem) : Prop :=
  x.scheduler.ssdActive = [] ∧ x.scheduler.netActive = []

end FalconKV
