import Mathlib.Data.Int.Notation
import Mathlib.Data.List.Perm.Basic
import Mathlib.Data.Nat.Notation
import FalconKV.Common.Status

/-! # The IO scheduler and what it takes to be running

The policy admits every request and numbers it. Two accumulators keep the requests on
the channels that concern them until a report with the same ticket comes in. The
bandwidth estimates that they derive from these lists are left out.
-/
namespace FalconKV

structure IORequestData where
  clientId : ℕ
  ioChannel : ℤ
  storeId : ℕ
  ioSize : ℕ
  priority : ℕ
  requestTsNs : ℕ
  remoteNodeAddr : String
  deriving DecidableEq, Repr

structure IOResponseData where
  status : ℤ
  permittedTsNs : ℕ
  ticket : ℕ
  deriving DecidableEq, Repr

structure IOCompletionData where
  clientId : ℕ
  ticket : ℕ
  ioStartTsNs : ℕ
  ioDoneTsNs : ℕ
  ioSize : ℕ
  ioChannel : ℤ
  ioStatus : ℤ
  storeId : ℕ
  remoteNodeAddr : String
  deriving DecidableEq, Repr

structure StoreIOReport where
  storeId : ℕ
  ioChannel : ℤ
  sourceClientId : ℕ
  ioSize : ℕ
  requestTsNs : ℕ
  doneTsNs : ℕ
  sourceNodeAddr : String
  deriving DecidableEq, Repr

def StoreIOReport.toCompletion (r : StoreIOReport) : IOCompletionData where
  clientId := r.sourceClientId
  ticket := 0
  ioStartTsNs := r.requestTsNs
  ioDoneTsNs := r.doneTsNs
  ioSize := r.ioSize
  ioChannel := r.ioChannel
  ioStatus := 0
  storeId := r.storeId
  remoteNodeAddr := r.sourceNodeAddr

structure ActiveIO where
  ticket : ℕ
  startTsNs : ℕ
  ioSize : ℕ
  channel : ℤ
  nodeAddr : Option String
  deriving DecidableEq, Repr

def pushActive (tracked : Bool) (io : ActiveIO) (ios : List ActiveIO) : List ActiveIO :=
  if !tracked then ios else ios ++ [io]

def eraseActive (ticket : ℕ) (ios : List ActiveIO) : List ActiveIO :=
  ios.eraseP fun io => io.ticket == ticket

namespace SSDBandwidthAccumulator

def consumesSSD (channel : ℤ) : Bool := channel == 0 || channel == 1 || channel == 3

def onIOStart (ticket startTsNs ioSize : ℕ) (channel : ℤ) : List ActiveIO → List ActiveIO :=
  pushActive (consumesSSD channel) ⟨ticket,startTsNs,ioSize,channel,none⟩

def onIODone (ticket : ℕ) : List ActiveIO → List ActiveIO := eraseActive ticket

end SSDBandwidthAccumulator

namespace NetBandwidthAccumulator

def isTX (channel : ℤ) : Bool := channel == 2
def isRX (channel : ℤ) : Bool := channel == 3

def onIOStart (ticket startTsNs ioSize : ℕ) (channel : ℤ) (nodeAddr : String) :
    List ActiveIO → List ActiveIO :=
  pushActive (isTX channel || isRX channel) ⟨ticket,startTsNs,ioSize,channel,some nodeAddr⟩

def onIODone (ticket : ℕ) : List ActiveIO → List ActiveIO := eraseActive ticket

end NetBandwidthAccumulator

structure FalconKVScheduler where
  ticketCounter : ℕ
  ssdActive : List ActiveIO
  netActive : List ActiveIO
  deriving DecidableEq, Repr

def FalconKVScheduler.create : FalconKVScheduler := ⟨0,[],[]⟩

variable {io : ActiveIO} {ios : List ActiveIO} {t u : ℕ} {tracked : Bool}

theorem mem_pushActive {x : ActiveIO} : x ∈ pushActive tracked io ios ↔
    x ∈ ios ∨ tracked = true ∧ x = io := by
  cases tracked <;> simp [pushActive]

theorem eraseActive_sublist (t : ℕ) (ios : List ActiveIO) : (eraseActive t ios).Sublist ios :=
  List.eraseP_sublist

theorem mem_of_mem_eraseActive {x : ActiveIO} (h : x ∈ eraseActive t ios) : x ∈ ios :=
  (eraseActive_sublist t ios).subset h

/-- Other tickets stay. -/
theorem mem_eraseActive_of_ne {x : ActiveIO} (hne : x.ticket ≠ t) : x ∈ eraseActive t ios ↔ x ∈ ios :=
  List.mem_eraseP_of_neg (by simpa using hne)

theorem eraseActive_of_forall_ne (h : ∀ x ∈ ios, x.ticket ≠ t) : eraseActive t ios = ios :=
  List.eraseP_of_forall_not fun x hx => by simpa using h x hx

/-- The tickets lose one occurrence of the finished one. -/
theorem map_ticket_eraseActive (t : ℕ) (ios : List ActiveIO) :
    (eraseActive t ios).map ActiveIO.ticket = (ios.map ActiveIO.ticket).erase t := by
  induction ios with
  | nil => rfl
  | cons x ios ih =>
    by_cases hx : x.ticket = t
    · simp [eraseActive, hx]
    · have hx' : (x.ticket == t) = false := by simpa using hx
      rw [eraseActive, List.eraseP_cons, hx', List.map_cons, List.erase_cons_tail (by simpa using hx)]
      simp only [cond_false, List.map_cons]
      exact congrArg (x.ticket :: ·) ih

theorem map_ticket_pushActive (tracked : Bool) (io : ActiveIO) (ios : List ActiveIO) :
    (pushActive tracked io ios).map ActiveIO.ticket =
      ios.map ActiveIO.ticket ++ if tracked then [io.ticket] else [] := by
  cases tracked <;> simp [pushActive]

/-- When no ticket occurs twice, a finished ticket is gone. -/
theorem not_mem_eraseActive (hnodup : (ios.map ActiveIO.ticket).Nodup) :
    t ∉ (eraseActive t ios).map ActiveIO.ticket := by
  rw [map_ticket_eraseActive]
  exact hnodup.not_mem_erase

end FalconKV
