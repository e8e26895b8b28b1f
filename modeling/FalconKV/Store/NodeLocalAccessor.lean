import FalconKV.AtomicCalls.Environment
import FalconKV.Store.Calls
import FalconKV.Store.FlakyRing

/-! # Reading the data files of a node

The accessor of a client opens the files of the stores of its node and reads from them, one slot
or many. Many are read through io_uring, by a pool of threads, or one after the other. The files
do not change, and the kernel fails no call of liburing.
-/
namespace FalconKV
open AtomicCalls

/-- What a read of an open file gives: the count or the negative `errno`, and the bytes that reach
the buffer. -/
structure ReadOutcome where
  count : ℤ
  bytes : Bytes

/-- The files as `open` and reads find them. A read depends on the file descriptor, on the place in
the file and, if it bypasses the page cache, on the address of the buffer. -/
structure DataFiles where
  openBuffered : String → ℤ
  openDirect : String → ℤ
  readAt : ℤ → ℕ → ℕ → ℕ → ReadOutcome
  strerror : ℤ → String

structure FdEntry where
  directFd : ℤ
  bufferedFd : ℤ
  deriving DecidableEq, Repr

def DataFiles.opened (files : DataFiles) (dataFile : String) : FdEntry :=
  if files.openBuffered dataFile < 0 then ⟨-1,-1⟩
  else ⟨if files.openDirect dataFile < 0 then -1 else files.openDirect dataFile,files.openBuffered dataFile⟩

def DataFiles.pread (files : DataFiles) (request : UringIORequest) : ReadOutcome :=
  if int64 request.offset < 0 then ⟨-22,fun _ => 0⟩
  else files.readAt request.fd (int64 request.offset).toNat request.buffer request.size

def currentPosition : ℕ := 2^64 - 1

structure NodeWorld where
  storeFiles : AList fun _ : ℕ => String
  fdCache : AList fun _ : String => FdEntry
  ring : IOUring
  /-- where each open file stands -/
  position : ℤ → ℕ
  /-- every read so far; no call looks at it -/
  served : List (UringIORequest × ReadOutcome)

inductive NodeCall
  | getBufferedFd (storeId : ℕ)
  | getDirectFd (storeId : ℕ)
  | pread (request : UringIORequest)
  /-- in which order the threads of the pool run their tasks -/
  | runTasks (count : ℕ)
  | ring (op : UringCall)

abbrev NodeCall.Res : NodeCall → Type
  | getBufferedFd _ => ℤ
  | getDirectFd _ => ℤ
  | pread _ => Transferred
  | runTasks _ => List ℕ
  | ring op => op.Res

abbrev nodeCalls : Signature := ⟨NodeCall,NodeCall.Res⟩

structure NodeChoice where
  posted : List ℕ := []
  order : List ℕ := []

namespace NodeWorld

def getOrCreate (files : DataFiles) (x : NodeWorld) (dataFile : String) : FdEntry × NodeWorld :=
  match x.fdCache.lookup dataFile with
  | some entry => (entry,x)
  | none => (files.opened dataFile,{ x with fdCache := x.fdCache.insert dataFile (files.opened dataFile) })

def getStoreFilePath (x : NodeWorld) (storeId : ℕ) : String := (x.storeFiles.lookup storeId).getD ""

/-- A file descriptor of a store, or -1; `FdCache::GetFd` prefers the direct one. -/
def getFd (files : DataFiles) (direct : Bool) (x : NodeWorld) (storeId : ℕ) : ℤ × NodeWorld :=
  let path := x.getStoreFilePath storeId
  if path = "" then (-1,x)
  else
    let (entry,x) := x.getOrCreate files path
    (if direct && decide (0 ≤ entry.directFd) then entry.directFd else entry.bufferedFd,x)

/-- The kernel reads: at the offset, or where the file stands, which moves it on. -/
def serve (files : DataFiles) (x : NodeWorld) (request : UringIORequest) : ReadOutcome × (ℤ → ℕ) :=
  if request.offset = currentPosition then
    let outcome := files.readAt request.fd (x.position request.fd) request.buffer request.size
    (outcome,Function.update x.position request.fd (x.position request.fd + outcome.count.toNat))
  else (files.pread request,x.position)

def complete (files : DataFiles) (x : NodeWorld) (index : ℕ) : Option NodeWorld :=
  (x.ring.inFlight[index]?).bind fun sqe =>
    let (outcome,position) := x.serve files sqe.request
    (x.ring.step false .complete ⟨none,index,outcome.count⟩).map fun y =>
      { x with ring := y.2, position, served := x.served ++ [(sqe.request,outcome)] }

def completeAll (files : DataFiles) : List ℕ → NodeWorld → Option NodeWorld
  | [], x => some x
  | index :: posted, x => (x.complete files index).bind (completeAll files posted)

def step (files : DataFiles) (op : NodeCall) (c : NodeChoice) (x : NodeWorld) :
    Option (op.Res × NodeWorld) :=
  match op with
  | .getBufferedFd storeId => some (x.getFd files false storeId)
  | .getDirectFd storeId => some (x.getFd files true storeId)
  | .pread request =>
    let outcome := files.pread request
    some (⟨if outcome.count < 0 then -1 else outcome.count,files.strerror (-outcome.count)⟩,
      { x with served := x.served ++ [(request,outcome)] })
  | .runTasks count => if c.order.Perm (List.range count) then some (c.order,x) else none
  | .ring op => (completeAll files c.posted x).bind fun x =>
    (x.ring.step false op {}).map fun y => (y.1,{ x with ring := y.2 })

end NodeWorld

def nodeMachine (files : DataFiles) : Machine nodeCalls NodeWorld := ⟨NodeChoice,NodeWorld.step files⟩

abbrev NodeProg := Prog nodeCalls

structure NodeLocalReadRequest where
  storeId : ℕ
  offset : ℕ
  /-- its address -/
  buffer : ℕ
  size : ℕ
  deriving DecidableEq, Repr

structure NodeLocalAccessor where
  ioUringEngine : Option IOUringEngine
  ioPool : Bool
  pageSize : ℕ

def isAligned (value alignment : ℕ) : Bool := value &&& subU64 alignment 1 == 0

namespace NodeLocalAccessor

abbrev call (op : NodeCall) : NodeProg op.Res := Prog.perform (E := nodeCalls) op

def ring {α : Type} (p : UringProg α) : NodeProg α := p.interp fun op => call (.ring op)

variable (acc : NodeLocalAccessor)

def useDirect (bufFd directFd : ℤ) (request : NodeLocalReadRequest) : Bool :=
  decide (0 ≤ directFd) && directFd != bufFd && isAligned request.offset acc.pageSize &&
    isAligned request.size acc.pageSize && isAligned request.buffer acc.pageSize

def resolvedWith (bufFd directFd : ℤ) (request : NodeLocalReadRequest) : UringIORequest where
  offset := request.offset
  size := request.size
  buffer := request.buffer
  fd := if acc.useDirect bufFd directFd request then directFd else bufFd

def noFile (request : NodeLocalReadRequest) : Status :=
  .ioError ("NodeLocalAccessor: no file for store_id " ++ toString request.storeId)

def resolve (request : NodeLocalReadRequest) : NodeProg (Except Status UringIORequest) := do
  let bufFd ← call (.getBufferedFd request.storeId)
  if bufFd < 0 then pure (.error (noFile request))
  else do
    let directFd ← call (.getDirectFd request.storeId)
    pure (.ok (acc.resolvedWith bufFd directFd request))

def read (request : NodeLocalReadRequest) : NodeProg Status := do
  let resolved ← acc.resolve request
  match resolved with
  | .error s => pure s
  | .ok io => do
    let nread ← call (.pread io)
    if nread.count < 0 then
      pure (.ioError ("NodeLocalAccessor: pread failed for store_id " ++ toString request.storeId))
    else if nread.count < request.size then
      pure (.ioError ("NodeLocalAccessor: partial read for store_id " ++ toString request.storeId))
    else pure .OK

def readTask (io : UringIORequest) : NodeProg Status := do
  let nread ← call (.pread io)
  if nread.count < 0 then pure (.ioError ("NodeLocalAccessor: pread failed, errno=" ++ nread.error))
  else if nread.count < io.size then
    pure (.ioError ("NodeLocalAccessor: partial read, expected=" ++ toString io.size ++ " got=" ++
      toString nread.count))
  else pure .OK

def scatter (results : List Status) (new : List (ℕ × Status)) : List Status :=
  new.foldl (fun results x => results.set x.1 x.2) results

/-- `IOThreadPool::SubmitAndWait`: the tasks are run in any order, and each result is its own. -/
def submitAndWait (tasks : List (NodeProg Status)) : NodeProg (List Status) := do
  let order ← call (.runTasks tasks.length)
  let done ← Prog.mapEach (fun i => do
    let s ← (tasks[i]?).getD (pure .OK)
    pure (i,s)) order
  pure (scatter (List.replicate tasks.length .OK) done)

def valid (resolved : List (Except Status UringIORequest)) : List (UringIORequest × ℕ) :=
  resolved.zipIdx.filterMap fun x => x.1.toOption.map fun io => (io,x.2)

def statusOf : Except Status UringIORequest → Status
  | .error s => s
  | .ok _ => .OK

def engineRead (engine : IOUringEngine) (uringReqs : List UringIORequest) : NodeProg (List Status) := do
  let r ← ring (engine.batchRead (-1) uringReqs)
  pure (r.2.map UringIOResult.status)

def readValid (resolved : List (Except Status UringIORequest))
    (readAll : List UringIORequest → NodeProg (List Status)) : NodeProg (List Status) := do
  let statuses ← readAll ((valid resolved).map Prod.fst)
  pure (scatter (resolved.map statusOf) (((valid resolved).map Prod.snd).zip statuses))

def readEach (requests : List NodeLocalReadRequest) (resolved : List (Except Status UringIORequest)) :
    NodeProg (List Status) :=
  Prog.mapEach (fun x => match x.2 with
    | .error s => pure s
    | .ok _ => acc.read x.1) (requests.zip resolved)

def batchRead (requests : List NodeLocalReadRequest) : NodeProg (List Status) :=
  if requests.isEmpty then pure []
  else do
    let resolved ← Prog.mapEach acc.resolve requests
    match acc.ioUringEngine.filter IOUringEngine.available with
    | some engine =>
      if (valid resolved).isEmpty then pure (resolved.map statusOf)
      else readValid resolved (engineRead engine)
    | none =>
      if acc.ioPool then readValid resolved fun ios => submitAndWait (ios.map readTask)
      else acc.readEach requests resolved

end NodeLocalAccessor

end FalconKV
