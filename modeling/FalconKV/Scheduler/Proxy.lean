import FalconKV.AtomicCalls.Machine
import FalconKV.Scheduler.Accumulators

/-! # The proxy of the scheduler in a client or a store

While the scheduler cannot be reached the proxy admits every request itself, and one
thread probes for the scheduler. The mutex, the thread object and the atomics are
explicit; a call that cannot take place yet, like the lock of a held mutex, blocks.
-/
namespace FalconKV
open AtomicCalls

namespace SchedulerProxy

inductive State
  | connected | disconnected | bypass
  deriving DecidableEq, Repr

/-- `reconnect_thread_`: without a thread, between two rounds of its loop, within a round,
returned. All but the first are joinable. -/
inductive ReconnectThread
  | none | atLoop | inRound | finished
  deriving DecidableEq, Repr

def ReconnectThread.joinable (t : ReconnectThread) : Bool := t != .none

@[simp] theorem joinable_none : ReconnectThread.none.joinable = false := rfl
@[simp] theorem joinable_atLoop : ReconnectThread.atLoop.joinable = true := rfl
@[simp] theorem joinable_inRound : ReconnectThread.inRound.joinable = true := rfl
@[simp] theorem joinable_finished : ReconnectThread.finished.joinable = true := rfl

end SchedulerProxy

open SchedulerProxy

structure ProxyConfig where
  maxConsecutiveFailures : ℤ

structure SchedulerProxy where
  state : SchedulerProxy.State
  consecutiveFailures : ℤ
  stopped : Bool
  mutexHeld : Bool
  reconnectStarted : Bool
  reconnectThread : ReconnectThread
  /-- `stub_` is not null -/
  stub : Bool
  /-- `g_bypass_ticket_counter` -/
  bypassTickets : ℕ
  /-- `std::terminate` was called -/
  terminated : Bool
  deriving DecidableEq, Repr

def SchedulerProxy.initial : SchedulerProxy := ⟨.disconnected,0,false,false,false,.none,false,0,false⟩

/-- Who takes the reconnect mutex; for `StartReconnectProbe`, whether its caller has just
stored BYPASS. -/
inductive LockSite
  | starter (afterBypass : Bool)
  | probe
  | destructor
  deriving DecidableEq, Repr

inductive ProxyCall
  | loadState (reporting : Option ℕ)
  | storeState (value : SchedulerProxy.State) (byProbe : Bool)
  | fetchAddFailures
  | storeFailures (value : ℤ)
  | loadStopped
  | storeStopped
  | loadStub (reporting : Option ℕ)
  /-- `Connect` -/
  | connect
  | heartbeat
  | requestRpc (request : IORequestData)
  | reportRpc (report : IOCompletionData)
  | storeReportRpc (report : StoreIOReport)
  | nowNanos
  | nextBypassTicket
  | lockReconnect (site : LockSite)
  | unlockReconnect (site : LockSite)
  | loadStarted (afterBypass : Bool)
  | storeStarted (value : Bool)
  /-- assignment of a new thread to `reconnect_thread_` -/
  | assignThread (afterBypass : Bool)
  | beginRound
  | endRound
  | endThread
  | joinable
  | join

abbrev ProxyCall.Res : ProxyCall → Type
  | loadState _ => SchedulerProxy.State
  | fetchAddFailures => ℤ
  | loadStopped | loadStub _ | connect | heartbeat | reportRpc _ | storeReportRpc _ | loadStarted _
  | joinable => Bool
  | requestRpc _ => Option IOResponseData
  | nowNanos | nextBypassTicket => ℕ
  | _ => Unit

abbrev proxyCalls : Signature := ⟨ProxyCall,ProxyCall.Res⟩

structure ProxyChoice where
  succeeds : Bool := true
  response : IOResponseData := ⟨0,0,0⟩
  now : ℕ := 0

namespace SchedulerProxy

def step (op : ProxyCall) (c : ProxyChoice) (s : SchedulerProxy) : Option (op.Res × SchedulerProxy) :=
  if s.terminated then none
  else match op with
  | .loadState _ => some (s.state,s)
  | .storeState value _ => some ((),{ s with state := value })
  | .fetchAddFailures =>
    some (s.consecutiveFailures,
      { s with consecutiveFailures := Int.bmod (s.consecutiveFailures + 1) (2^32) })
  | .storeFailures value => some ((),{ s with consecutiveFailures := value })
  | .loadStopped => some (s.stopped,s)
  | .storeStopped => some ((),{ s with stopped := true })
  | .loadStub _ => some (s.stub,s)
  | .connect => some (c.succeeds,{ s with stub := c.succeeds })
  | .heartbeat | .reportRpc _ | .storeReportRpc _ => some (c.succeeds,s)
  | .requestRpc _ => some (if c.succeeds then some c.response else none,s)
  | .nowNanos => some (c.now,s)
  | .nextBypassTicket =>
    some (s.bypassTickets ||| 2^63,{ s with bypassTickets := (s.bypassTickets + 1) % 2^64 })
  | .lockReconnect _ => if s.mutexHeld then none else some ((),{ s with mutexHeld := true })
  | .unlockReconnect _ => some ((),{ s with mutexHeld := false })
  | .loadStarted _ => some (s.reconnectStarted,s)
  | .storeStarted value => some ((),{ s with reconnectStarted := value })
  | .assignThread _ =>
    if s.reconnectThread.joinable then some ((),{ s with terminated := true })
    else some ((),{ s with reconnectThread := .atLoop })
  | .beginRound =>
    if s.reconnectThread = .atLoop then some ((),{ s with reconnectThread := .inRound }) else none
  | .endRound => some ((),{ s with reconnectThread := .atLoop })
  | .endThread => some ((),{ s with reconnectThread := .finished })
  | .joinable => some (s.reconnectThread.joinable,s)
  | .join =>
    if s.reconnectThread = .finished then some ((),{ s with reconnectThread := .none }) else none

end SchedulerProxy

def proxyMachine : Machine proxyCalls SchedulerProxy := ⟨ProxyChoice,SchedulerProxy.step⟩

abbrev ProxyProg := Prog proxyCalls

abbrev invokeProxy (op : ProxyCall) : ProxyProg op.Res := Prog.perform (E := proxyCalls) op

namespace SchedulerProxy

def probeScheduler : ProxyProg Bool := do
  let ok ← invokeProxy .connect
  if !ok then pure false else invokeProxy .heartbeat

def makeBypassResponse : ProxyProg IOResponseData := do
  let now ← invokeProxy .nowNanos
  let ticket ← invokeProxy .nextBypassTicket
  pure ⟨0,now,ticket⟩

def startReconnectProbe (afterBypass : Bool) : ProxyProg Unit := do
  invokeProxy (.lockReconnect (.starter afterBypass))
  let started ← invokeProxy (.loadStarted afterBypass)
  if started then invokeProxy (.unlockReconnect (.starter afterBypass))
  else do
    invokeProxy (.storeStarted true)
    invokeProxy (.assignThread afterBypass)
    invokeProxy (.unlockReconnect (.starter afterBypass))

/-- One round of the loop of the reconnect thread, which sleeps between the two looks at `stopped_`. -/
def probeRound : ProxyProg Unit := do
  invokeProxy .beginRound
  let stopped ← invokeProxy .loadStopped
  if stopped then invokeProxy .endThread
  else do
    let stopped ← invokeProxy .loadStopped
    if stopped then invokeProxy .endThread
    else do
      let ok ← probeScheduler
      if ok then do
        invokeProxy (.storeState .connected true)
        invokeProxy (.storeFailures 0)
        invokeProxy (.lockReconnect .probe)
        invokeProxy (.storeStarted false)
        invokeProxy (.unlockReconnect .probe)
        invokeProxy .endThread
      else invokeProxy .endRound

def countFailure (cfg : ProxyConfig) : ProxyProg Unit := do
  let failures ← invokeProxy .fetchAddFailures
  if cfg.maxConsecutiveFailures ≤ failures + 1 then do
    invokeProxy (.storeState .bypass false)
    startReconnectProbe true
  else pure ()

def sendRequest (cfg : ProxyConfig) (request : IORequestData) : ProxyProg IOResponseData := do
  let stub ← invokeProxy (.loadStub none)
  if !stub then do
    startReconnectProbe false
    makeBypassResponse
  else do
    let resp ← invokeProxy (.requestRpc request)
    match resp with
    | none => do
      countFailure cfg
      makeBypassResponse
    | some resp => do
      invokeProxy (.storeFailures 0)
      pure resp

def requestIO (cfg : ProxyConfig) (request : IORequestData) : ProxyProg IOResponseData := do
  let s ← invokeProxy (.loadState none)
  match s with
  | .bypass => makeBypassResponse
  | .disconnected => do
    let ok ← probeScheduler
    if ok then do
      invokeProxy (.storeState .connected false)
      sendRequest cfg request
    else do
      startReconnectProbe false
      makeBypassResponse
  | .connected => sendRequest cfg request

def reportIOCompletion (cfg : ProxyConfig) (report : IOCompletionData) : ProxyProg Unit := do
  let s ← invokeProxy (.loadState (some report.ticket))
  if s = .bypass then pure ()
  else do
    let stub ← invokeProxy (.loadStub (some report.ticket))
    if !stub then pure ()
    else do
      let ok ← invokeProxy (.reportRpc report)
      if ok then invokeProxy (.storeFailures 0) else countFailure cfg

def storeReportIOAsync (report : StoreIOReport) : ProxyProg Unit := do
  let s ← invokeProxy (.loadState none)
  if s = .bypass then pure ()
  else do
    let stub ← invokeProxy (.loadStub none)
    if !stub then pure ()
    else do
      let _ ← invokeProxy (.storeReportRpc report)
      pure ()

def isBypassMode : ProxyProg Bool := do
  let s ← invokeProxy (.loadState none)
  pure (s == .bypass)

def construct : ProxyProg Unit := do
  let ok ← probeScheduler
  if ok then invokeProxy (.storeState .connected false)
  else do
    invokeProxy (.storeState .bypass false)
    startReconnectProbe true

def destroy : ProxyProg Unit := do
  invokeProxy .storeStopped
  invokeProxy (.lockReconnect .destructor)
  let joinable ← invokeProxy .joinable
  if joinable then do
    invokeProxy .join
    invokeProxy (.unlockReconnect .destructor)
  else invokeProxy (.unlockReconnect .destructor)

end SchedulerProxy

inductive ProxyOp
  | request (data : IORequestData)
  | report (data : IOCompletionData)
  | storeReport (data : StoreIOReport)
  | isBypassMode
  | probeRound
  | destroy

def ProxyOp.run (cfg : ProxyConfig) : ProxyOp → ProxyProg Unit
  | request data => (fun _ => ()) <$> SchedulerProxy.requestIO cfg data
  | report data => SchedulerProxy.reportIOCompletion cfg data
  | storeReport data => SchedulerProxy.storeReportIOAsync data
  | isBypassMode => (fun _ => ()) <$> SchedulerProxy.isBypassMode
  | probeRound => SchedulerProxy.probeRound
  | destroy => SchedulerProxy.destroy

end FalconKV
