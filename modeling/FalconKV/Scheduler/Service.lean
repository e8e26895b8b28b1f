import FalconKV.AtomicCalls.Machine
import FalconKV.Scheduler.Accumulators

/-! # The handlers of the IO scheduler

Each accumulator has a lock of its own, and the ticket counter is atomic. The arrival
of a report and the departure of an answer are calls too, which change nothing.
-/
namespace FalconKV
open AtomicCalls

inductive SchedulerCall
  /-- `Decide`: the clock is read and the ticket counter advanced -/
  | decide (request : IORequestData)
  | ssdStart (ticket startTsNs ioSize : ℕ) (channel : ℤ)
  | netStart (ticket startTsNs ioSize : ℕ) (channel : ℤ) (nodeAddr : String)
  /-- the answer of a `RequestIO` leaves -/
  | respond (request : IORequestData) (response : IOResponseData)
  | receiveReport (report : IOCompletionData)
  /-- `OnIODone`; whether the report is that of a store -/
  | ssdDone (ticket : ℕ) (fromStore : Bool)
  | netDone (ticket : ℕ) (fromStore : Bool)
  /-- the answer of a `ReportIOCompletion` leaves -/
  | acknowledge (report : IOCompletionData)

abbrev SchedulerCall.Res : SchedulerCall → Type
  | decide _ => IOResponseData
  | _ => Unit

abbrev schedulerCalls : Signature := ⟨SchedulerCall,SchedulerCall.Res⟩

namespace FalconKVScheduler

def step (op : SchedulerCall) (nowNanos : ℕ) (s : FalconKVScheduler) :
    Option (op.Res × FalconKVScheduler) :=
  match op with
  | .decide _ =>
    some (⟨0,nowNanos,s.ticketCounter⟩,{ s with ticketCounter := (s.ticketCounter + 1) % 2^64 })
  | .ssdStart ticket startTsNs ioSize channel =>
    some ((),{ s with
      ssdActive := SSDBandwidthAccumulator.onIOStart ticket startTsNs ioSize channel s.ssdActive })
  | .netStart ticket startTsNs ioSize channel nodeAddr =>
    some ((),{ s with
      netActive := NetBandwidthAccumulator.onIOStart ticket startTsNs ioSize channel nodeAddr
        s.netActive })
  | .ssdDone ticket _ =>
    some ((),{ s with ssdActive := SSDBandwidthAccumulator.onIODone ticket s.ssdActive })
  | .netDone ticket _ =>
    some ((),{ s with netActive := NetBandwidthAccumulator.onIODone ticket s.netActive })
  | .respond .. | .receiveReport _ | .acknowledge _ => some ((),s)

end FalconKVScheduler

def schedulerMachine : Machine schedulerCalls FalconKVScheduler := ⟨ℕ,FalconKVScheduler.step⟩

abbrev SchedulerProg := Prog schedulerCalls

abbrev invokeScheduler (op : SchedulerCall) : SchedulerProg op.Res :=
  Prog.perform (E := schedulerCalls) op

namespace FalconKVScheduler

def handleRequestIO (request : IORequestData) : SchedulerProg IOResponseData := do
  let resp ← invokeScheduler (.decide request)
  invokeScheduler (.ssdStart resp.ticket resp.permittedTsNs request.ioSize request.ioChannel)
  invokeScheduler (.netStart resp.ticket resp.permittedTsNs request.ioSize request.ioChannel
    request.remoteNodeAddr)
  pure resp

def handleIOCompletion (report : IOCompletionData) (fromStore : Bool) : SchedulerProg Unit := do
  invokeScheduler (.ssdDone report.ticket fromStore)
  invokeScheduler (.netDone report.ticket fromStore)

end FalconKVScheduler

namespace SchedulerServiceImpl
open FalconKVScheduler

def requestIO (request : IORequestData) : SchedulerProg IOResponseData := do
  let result ← handleRequestIO request
  invokeScheduler (.respond request result)
  pure result

def reportIOCompletion (request : IOCompletionData) : SchedulerProg Unit := do
  invokeScheduler (.receiveReport request)
  handleIOCompletion request false
  invokeScheduler (.acknowledge request)

def storeReportIO (request : StoreIOReport) : SchedulerProg Unit :=
  handleIOCompletion request.toCompletion true

end SchedulerServiceImpl

inductive SchedulerOp
  | request (data : IORequestData)
  | report (data : IOCompletionData)
  | storeReport (data : StoreIOReport)

def SchedulerOp.run : SchedulerOp → SchedulerProg Unit
  | request data => (fun _ => ()) <$> SchedulerServiceImpl.requestIO data
  | report data => SchedulerServiceImpl.reportIOCompletion data
  | storeReport data => SchedulerServiceImpl.storeReportIO data

abbrev Grant := IORequestData × IOResponseData

inductive Accumulator
  | ssd | net
  deriving DecidableEq, Repr

namespace Accumulator

def tracks : Accumulator → ℤ → Bool
  | ssd, channel => SSDBandwidthAccumulator.consumesSSD channel
  | net, channel => NetBandwidthAccumulator.isTX channel || NetBandwidthAccumulator.isRX channel

/-- What the accumulator keeps of a granted IO. -/
def entry : Accumulator → Grant → ActiveIO
  | ssd, g => ⟨g.2.ticket,g.2.permittedTsNs,g.1.ioSize,g.1.ioChannel,none⟩
  | net, g => ⟨g.2.ticket,g.2.permittedTsNs,g.1.ioSize,g.1.ioChannel,some g.1.remoteNodeAddr⟩

def active : Accumulator → FalconKVScheduler → List ActiveIO
  | ssd, s => s.ssdActive
  | net, s => s.netActive

def starts : Accumulator → SchedulerCall → Option ActiveIO
  | ssd, .ssdStart ticket startTsNs ioSize channel => some ⟨ticket,startTsNs,ioSize,channel,none⟩
  | net, .netStart ticket startTsNs ioSize channel nodeAddr =>
    some ⟨ticket,startTsNs,ioSize,channel,some nodeAddr⟩
  | _, _ => none

/-- The ticket with which a call is the `OnIODone` of the accumulator, and its origin. -/
def finishes : Accumulator → SchedulerCall → Option (ℕ × Bool)
  | ssd, .ssdDone ticket fromStore => some (ticket,fromStore)
  | net, .netDone ticket fromStore => some (ticket,fromStore)
  | _, _ => none

variable {A : Accumulator}

@[simp] theorem entry_ticket (g : Grant) : (A.entry g).ticket = g.2.ticket := by cases A <;> rfl
@[simp] theorem entry_channel (g : Grant) : (A.entry g).channel = g.1.ioChannel := by cases A <;> rfl

inductive ActiveStep (A : Accumulator) (ios ios' : List ActiveIO) (op : SchedulerCall) : Prop
  | start (io : ActiveIO) (hop : A.starts op = some io)
      (h : ios' = pushActive (A.tracks io.channel) io ios)
  | finish (t : ℕ) (fromStore : Bool) (hop : A.finishes op = some (t,fromStore))
      (h : ios' = eraseActive t ios)
  | keep (hstart : A.starts op = none) (hfinish : A.finishes op = none) (h : ios' = ios)

theorem active_step {s s' : FalconKVScheduler} {op : SchedulerCall} {now : ℕ} {r : op.Res}
    (hs : s.step op now = some (r,s')) : A.ActiveStep (A.active s) (A.active s') op := by
  cases op with
  | ssdStart ticket startTsNs ioSize channel =>
    cases hs
    cases A with
    | ssd => exact .start _ rfl rfl
    | net => exact .keep rfl rfl rfl
  | netStart ticket startTsNs ioSize channel nodeAddr =>
    cases hs
    cases A with
    | ssd => exact .keep rfl rfl rfl
    | net => exact .start _ rfl rfl
  | ssdDone ticket fromStore =>
    cases hs
    cases A with
    | ssd => exact .finish ticket fromStore rfl rfl
    | net => exact .keep rfl rfl rfl
  | netDone ticket fromStore =>
    cases hs
    cases A with
    | ssd => exact .keep rfl rfl rfl
    | net => exact .finish ticket fromStore rfl rfl
  | _ =>
    cases hs
    cases A <;> exact .keep rfl rfl rfl

end Accumulator

end FalconKV
