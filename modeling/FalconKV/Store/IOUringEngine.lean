import FalconKV.AtomicCalls.Machine
import FalconKV.Common.CircularBuffer
import FalconKV.Common.Status

/-! # The io_uring engine of a store

All calls of one engine share one ring. A request is tagged with its position in the
vector of its call; the call that a request belongs to, and the list of all completions,
are kept beside the ring and read by no program.
-/
namespace FalconKV
open AtomicCalls

structure UringIORequest where
  offset : ℕ
  size : ℕ
  /-- its address -/
  buffer : ℕ
  fd : ℤ
  deriving DecidableEq, Repr

structure UringIOResult where
  index : ℤ
  status : Status
  deriving DecidableEq, Repr

inductive UringOp
  | write | read
  deriving DecidableEq, Repr

structure Sqe where
  call : ℕ
  userData : ℕ
  op : UringOp
  request : UringIORequest
  deriving DecidableEq, Repr

/-- A completion queue entry: the engine reads the `user_data` of its request, and `res`. -/
structure Cqe where
  sqe : Sqe
  res : ℤ
  deriving DecidableEq, Repr

def Cqe.blank : Cqe := ⟨⟨0,0,.write,⟨0,0,0,0⟩⟩,0⟩

/-- `struct io_uring`, and who uses it. -/
structure IOUring where
  sqEntries : ℕ
  sq : List Sqe
  inFlight : List Sqe
  cq : CircularBuffer Cqe
  /-- the requests of the calls made so far -/
  calls : List (List UringIORequest)
  /-- every completion so far -/
  completed : List Cqe

/-- The number of entries that `io_uring_queue_init_params` makes room for. -/
def roundupPowOfTwo (n : ℕ) : ℕ := if n ≤ 1 then 1 else 2 ^ ((n - 1).log2 + 1)

def IOUring.create (queueDepth : ℕ) : IOUring where
  sqEntries := roundupPowOfTwo queueDepth
  sq := []
  inFlight := []
  cq := .create (2 * roundupPowOfTwo queueDepth) .blank
  calls := []
  completed := []

inductive UringCall
  /-- a call of the engine begins -/
  | enter (requests : List UringIORequest)
  /-- `io_uring_get_sqe` and `io_uring_prep_*`; whether there was a free entry -/
  | getSqe (call userData : ℕ) (op : UringOp) (request : UringIORequest)
  | submit (call : ℕ)
  | waitCqe (call : ℕ)
  | cqeSeen (call : ℕ)
  /-- the kernel completes a request -/
  | complete

abbrev UringCall.Res : UringCall → Type
  | enter _ => ℕ
  | getSqe .. => Bool
  | submit _ => Except ℤ ℕ
  | waitCqe _ => Option Cqe
  | _ => Unit

abbrev uringCalls : Signature := ⟨UringCall,UringCall.Res⟩

structure KernelChoice where
  error : Option ℤ := none
  index : ℕ := 0
  res : ℤ := 0

namespace IOUring

def step (faulty : Bool) (op : UringCall) (c : KernelChoice) (s : IOUring) :
    Option (op.Res × IOUring) :=
  match op with
  | .enter requests => some (s.calls.length,{ s with calls := s.calls ++ [requests] })
  | .getSqe call userData op request =>
    if s.sq.length < s.sqEntries then
      some (true,{ s with sq := s.sq ++ [⟨call,userData,op,request⟩] })
    else some (false,s)
  | .submit _ =>
    match c.error with
    | some e => if faulty then some (.error e,s) else none
    | none => some (.ok s.sq.length,{ s with sq := [], inFlight := s.inFlight ++ s.sq })
  | .waitCqe _ =>
    match c.error with
    | some _ => if faulty then some (none,s) else none
    | none => s.cq.front?.map fun q => (some q,s)
  | .cqeSeen _ => some ((),{ s with cq := s.cq.advance })
  | .complete =>
    if s.cq.hasRoom then
      (s.inFlight[c.index]?).map fun sqe => ((),{ s with
        inFlight := s.inFlight.eraseIdx c.index
        cq := s.cq.push ⟨sqe,c.res⟩
        completed := s.completed ++ [⟨sqe,c.res⟩] })
    else none

end IOUring

def uringMachine (faulty : Bool) : Machine uringCalls IOUring := ⟨KernelChoice,IOUring.step faulty⟩

abbrev UringProg := Prog uringCalls

abbrev invokeRing (op : UringCall) : UringProg op.Res := Prog.perform (E := uringCalls) op

/-- `Init` accepts no depth of zero. -/
structure IOUringEngine where
  available : Bool
  queueDepth : ℕ
  strerror : ℤ → String
  depth_pos : available = true → 0 < queueDepth

namespace IOUringEngine

def verb : UringOp → String
  | .write => "write"
  | .read => "read"

def resultOf (engine : IOUringEngine) (op : UringOp) (requests : List UringIORequest) (q : Cqe) :
    UringIOResult :=
  let size := ((requests[q.sqe.userData]?).map UringIORequest.size).getD 0
  if q.res < 0 then
    ⟨int32 q.sqe.userData,.ioError ("io_uring " ++ verb op ++ " failed: " ++ engine.strerror (-q.res))⟩
  else if q.res < size then
    ⟨int32 q.sqe.userData,.ioError ("Short " ++ verb op ++ " via io_uring: expected " ++ toString size ++
      " got " ++ toString q.res)⟩
  else ⟨int32 q.sqe.userData,.OK⟩

def record (engine : IOUringEngine) (op : UringOp) (requests : List UringIORequest)
    (results : List UringIOResult) (q : Cqe) : List UringIOResult :=
  results.set q.sqe.userData (engine.resultOf op requests q)

def recordFailure (engine : IOUringEngine) (error : ℤ) (results : List UringIOResult) (i : ℕ) :
    List UringIOResult :=
  results.set i ⟨int32 i,.ioError ("io_uring_submit failed: " ++ engine.strerror (-error))⟩

/-- Fill in entries for the requests from `i` on, `room` at most; how many were filled in. -/
def prepare (op : UringOp) (fd : ℤ) (requests : List UringIORequest) (call i : ℕ) : ℕ → UringProg ℕ
  | 0 => pure 0
  | room + 1 =>
    match requests[i]? with
    | none => pure 0
    | some request => do
      let effectiveFd := if 0 ≤ request.fd then request.fd else fd
      let got ← invokeRing (.getSqe call i op { request with fd := effectiveFd })
      if !got then pure 0
      else do
        let more ← prepare op fd requests call (i + 1) room
        pure (more + 1)

def reap (engine : IOUringEngine) (op : UringOp) (requests : List UringIORequest) (call : ℕ) :
    ℕ → List UringIOResult → UringProg (List UringIOResult)
  | 0, results => pure results
  | c + 1, results => do
    let cqe ← invokeRing (.waitCqe call)
    match cqe with
    | none => reap engine op requests call c results
    | some q => do
      invokeRing (.cqeSeen call)
      reap engine op requests call c (engine.record op requests results q)

def subBatches (engine : IOUringEngine) (op : UringOp) (fd : ℤ) (requests : List UringIORequest)
    (call : ℕ) : ℕ → ℕ → List UringIOResult → UringProg (List UringIOResult)
  | 0, _, results => pure results
  | rounds + 1, idx, results =>
    if requests.length ≤ idx then pure results
    else do
      let submitted ← prepare op fd requests call idx engine.queueDepth
      if submitted = 0 then pure results
      else do
        let ret ← invokeRing (.submit call)
        match ret with
        | .error e =>
          subBatches engine op fd requests call rounds (idx + submitted)
            ((List.range' idx submitted).foldl (engine.recordFailure e) results)
        | .ok _ => do
          let results ← reap engine op requests call submitted results
          subBatches engine op fd requests call rounds (idx + submitted) results

/-- `BatchWrite` and `BatchRead` differ in what they prepare and in their messages. -/
def batch (engine : IOUringEngine) (op : UringOp) (fd : ℤ) (requests : List UringIORequest) :
    UringProg (ℕ × List UringIOResult) := do
  let call ← invokeRing (.enter requests)
  if !engine.available then
    pure (call,(List.range requests.length).map fun i : ℕ =>
      ⟨int32 i,.ioError "io_uring engine not available"⟩)
  else do
    let results ← subBatches engine op fd requests call requests.length 0
      (List.replicate requests.length ⟨0,.OK⟩)
    pure (call,results)

def batchWrite (engine : IOUringEngine) (fd : ℤ) (requests : List UringIORequest) :
    UringProg (ℕ × List UringIOResult) := engine.batch .write fd requests

def batchRead (engine : IOUringEngine) (fd : ℤ) (requests : List UringIORequest) :
    UringProg (ℕ × List UringIOResult) := engine.batch .read fd requests

end IOUringEngine

inductive UringStart
  | batchWrite (fd : ℤ) (requests : List UringIORequest)
  | batchRead (fd : ℤ) (requests : List UringIORequest)
  | complete

def UringStart.run (engine : IOUringEngine) : UringStart → UringProg (Option (ℕ × List UringIOResult))
  | batchWrite fd requests => some <$> engine.batchWrite fd requests
  | batchRead fd requests => some <$> engine.batchRead fd requests
  | complete => (fun _ => none) <$> invokeRing .complete

abbrev UringPool := Pool uringCalls IOUring (Option (ℕ × List UringIOResult))

/-- Any number of calls of one engine and a kernel that never fails a call, interleaved at
single calls of liburing. -/
abbrev UringRun (engine : IOUringEngine) (ok : IOUring → UringCall → Prop) :
    List (Event uringCalls IOUring) → UringPool → Prop :=
  Run (uringMachine false) (fun p => ∃ start : UringStart, p = start.run engine) ok
    ⟨.create engine.queueDepth,[]⟩

end FalconKV
