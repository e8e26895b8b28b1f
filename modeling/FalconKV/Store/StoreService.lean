import Mathlib.Data.Multiset.AddSub
import FalconKV.Store.Programs

/-! # The handlers of the store service that hand out data

`BatchGetByKey` answers with copies; a pair of handlers gives a client buffers to read
from over HIXL, under a lease, and takes them back. The memory and the registrations of
the service are counted, next to the releases of something that was not there. What is
held under `hixl_mutex_` is one atomic call. Reports to the scheduler are left out.
-/
namespace FalconKV
open AtomicCalls

/-- What is given back by `AlignedAllocator::Free`, or by `DeregisterMem`. -/
inductive Resource
  | buffer (ptr : ℕ)
  | handle (handle : ℕ)
  deriving DecidableEq

structure Allocation where
  ptr : ℕ
  bytes : Bytes

structure HixlReadLease where
  buffers : List ℕ
  handles : List ℕ
  deriving DecidableEq

def HixlReadLease.resources (lease : HixlReadLease) : List Resource :=
  lease.handles.map .handle ++ lease.buffers.map .buffer

structure RemoteSegment where
  offset : ℕ
  size : ℕ

structure HixlItem where
  offset : ℕ
  allocation : Allocation
  size : ℕ

inductive ServiceCall
  | store (op : StoreCall)
  | allocate (size : ℕ)
  | freeBuffer (ptr : ℕ)
  | ensureHixlInitialized (engineAddr : String)
  /-- the section that registers the buffers and adds the lease -/
  | grantLease (storeId : ℕ) (buffers : List ℕ)
  | takeLease (token : String)
  | deregister (handles : List ℕ)

abbrev ServiceCall.Res : ServiceCall → Type
  | store op => op.Res
  | allocate _ => Option Allocation
  | freeBuffer _ => Unit
  | ensureHixlInitialized _ => Status
  | grantLease .. => Option String
  | takeLease _ => Option HixlReadLease
  | deregister _ => Unit

abbrev serviceCalls : Signature := ⟨ServiceCall,ServiceCall.Res⟩

abbrev ServiceProg := Prog serviceCalls

structure ServiceChoice where
  store : StoreChoice := {}
  allocation : Option Allocation := none
  hixlStatus : ℕ := 0
  registrations : List (Option ℕ) := []

structure StoreService where
  store : Store
  live : Multiset Resource
  strayReleases : ℕ
  hixlInitialized : Bool
  hixlLeases : List (String × HixlReadLease)
  hixlNextToken : ℕ

def StoreService.create (store : Store) : StoreService := ⟨store,0,0,false,[],1⟩

def registerMem : List (Option ℕ) → List ℕ → Option (List ℕ × Bool)
  | _, [] => some ([],true)
  | [], _ :: _ => none
  | none :: _, _ :: _ => some ([],false)
  | some handle :: outcomes, _ :: buffers =>
    (registerMem outcomes buffers).map fun x => (handle :: x.1,x.2)

namespace StoreService

def release (s : StoreService) (r : Resource) : StoreService :=
  if r ∈ s.live then { s with live := s.live.erase r }
  else { s with strayReleases := s.strayReleases + 1 }

def releaseAll (s : StoreService) (rs : List Resource) : StoreService := rs.foldl release s

def acquire (s : StoreService) (rs : List Resource) : StoreService := { s with live := rs + s.live }

def token (storeId counter : ℕ) : String := toString storeId ++ "-" ++ toString counter

def findLease (s : StoreService) (tok : String) : Option HixlReadLease :=
  (s.hixlLeases.find? fun x => x.1 == tok).map Prod.snd

/-- `fetch_add`, and `emplace`, which leaves an entry with the same token alone. -/
def addLease (s : StoreService) (storeId : ℕ) (lease : HixlReadLease) : StoreService :=
  let tok := token storeId s.hixlNextToken
  { s with
    hixlNextToken := (s.hixlNextToken + 1) % 2 ^ 64
    hixlLeases := if (s.findLease tok).isSome then s.hixlLeases else (tok,lease) :: s.hixlLeases }

def grantLease (s : StoreService) (c : ServiceChoice) (storeId : ℕ) (buffers : List ℕ) :
    Option (Option String × StoreService) :=
  (registerMem c.registrations buffers).map fun (handles,registered) =>
    let s := s.acquire (handles.map .handle)
    if registered then
      (some (token storeId s.hixlNextToken),s.addLease storeId ⟨buffers,handles⟩)
    else (none,s.releaseAll (HixlReadLease.resources ⟨buffers,handles⟩))

def takeLease (s : StoreService) (tok : String) : Option HixlReadLease × StoreService :=
  (s.findLease tok,{ s with hixlLeases := s.hixlLeases.eraseP fun x => x.1 == tok })

def allocate (s : StoreService) (c : ServiceChoice) : Option (Option Allocation × StoreService) :=
  match c.allocation with
  | none => some (none,s)
  | some a =>
    if .buffer a.ptr ∈ s.live then none else some (some a,s.acquire [.buffer a.ptr])

def ensureHixlInitialized (s : StoreService) (c : ServiceChoice) (engineAddr : String) :
    Status × StoreService :=
  if s.hixlInitialized then (.OK,s)
  else if engineAddr.isEmpty then (.invalidArg "store hixl_engine_addr is empty",s)
  else if c.hixlStatus ≠ 0 then
    (.rpcError ("HIXL Initialize failed: " ++ toString c.hixlStatus),s)
  else (.OK,{ s with hixlInitialized := true })

def step (op : ServiceCall) (c : ServiceChoice) (s : StoreService) : Option (op.Res × StoreService) :=
  match op with
  | .store op => (s.store.step op c.store).map fun x => (x.1,{ s with store := x.2 })
  | .allocate _ => s.allocate c
  | .freeBuffer ptr => some ((),s.release (.buffer ptr))
  | .ensureHixlInitialized engineAddr => some (s.ensureHixlInitialized c engineAddr)
  | .grantLease storeId buffers => s.grantLease c storeId buffers
  | .takeLease tok => some (s.takeLease tok)
  | .deregister handles =>
    some ((),if s.hixlInitialized then s.releaseAll (handles.map .handle) else s)

def destroy (s : StoreService) : StoreService :=
  let s' := s.hixlLeases.foldl (fun s x =>
    (if s.hixlInitialized then s.releaseAll (x.2.handles.map .handle) else s).releaseAll
      (x.2.buffers.map .buffer)) s
  { s' with hixlLeases := [] }

end StoreService

def storeServiceMachine : Machine serviceCalls StoreService := ⟨ServiceChoice,StoreService.step⟩

structure HixlBatchReadResponse where
  status : ℤ
  token : String
  remoteEngine : String
  /-- `remote_addr`, `size` and `status` of each segment -/
  segments : List (ℕ × ℕ × ℤ)

/-- Three lists that are filled side by side. -/
structure BatchGetByKeyResponse where
  status : ℤ
  dataSegments : List (List UInt8)
  sizes : List ℕ
  statuses : List ℤ

namespace BatchGetByKeyResponse

def addDataSegment (r : BatchGetByKeyResponse) (segment : List UInt8) : BatchGetByKeyResponse :=
  { r with dataSegments := r.dataSegments ++ [segment] }

def addSize (r : BatchGetByKeyResponse) (size : ℕ) : BatchGetByKeyResponse :=
  { r with sizes := r.sizes ++ [size] }

def addStatus (r : BatchGetByKeyResponse) (status : ℤ) : BatchGetByKeyResponse :=
  { r with statuses := r.statuses ++ [status] }

end BatchGetByKeyResponse

namespace StoreServiceOps

abbrev call (op : ServiceCall) : ServiceProg op.Res := Prog.perform (E := serviceCalls) op

def onStore {α : Type} (p : StoreProg α) : ServiceProg α :=
  p.interp (F := serviceCalls) fun op => call (.store op)

def keySize (hits : List StoreKeyRecord) (key : Key) : Option ℕ :=
  hits.foldl (fun size rec => if rec.key = key then some rec.size else size) none

def copied (buffer : Option Bytes) (size : ℕ) : List UInt8 :=
  match buffer with
  | none => []
  | some bytes => (List.range size).map bytes

def serveKey (hits : List StoreKeyRecord) (key : Key) (response : BatchGetByKeyResponse) (allOk : Bool) :
    ServiceProg (BatchGetByKeyResponse × Bool) :=
  match keySize hits key with
  | none => do
    let response := response.addDataSegment []
    let response := response.addSize 0
    let response := response.addStatus Code.notFound.toNat
    pure (response,false)
  | some dataSize => do
    let allocated ← call (.allocate dataSize)
    match allocated with
    | none =>
      let response := response.addDataSegment []
      let response := response.addSize 0
      let response := response.addStatus (-1)
      pure (response,false)
    | some a => do
      let (result,buffer) ← onStore (StoreOps.get key (some a.bytes) dataSize)
      if !result.status.isOk then do
        call (.freeBuffer a.ptr)
        let response := response.addDataSegment []
        let response := response.addSize 0
        let response := response.addStatus result.status.code.toNat
        pure (response,false)
      else do
        let response := response.addDataSegment (copied buffer result.size)
        let response := response.addSize result.size
        let response := response.addStatus 0
        call (.freeBuffer a.ptr)
        pure (response,allOk)

def serveKeys (hits : List StoreKeyRecord) : List Key → BatchGetByKeyResponse → Bool →
    ServiceProg (BatchGetByKeyResponse × Bool)
  | [], response, allOk => pure (response,allOk)
  | key :: keys, response, allOk => do
    let (response,allOk) ← serveKey hits key response allOk
    serveKeys hits keys response allOk

def batchGetByKey (keys : List Key) : ServiceProg BatchGetByKeyResponse := do
  let (hits,_) ← onStore (StoreOps.batchContains keys)
  let (response,allOk) ← serveKeys hits keys ⟨0,[],[],[]⟩ true
  pure { response with status := if allOk then 0 else 1 }

def freeBuffers (buffers : List ℕ) : ServiceProg Unit :=
  Prog.forEach (fun ptr => call (.freeBuffer ptr)) buffers

def allocateItems : List RemoteSegment → List HixlItem → ServiceProg (Option (List HixlItem))
  | [], items => pure (some items)
  | seg :: segments, items => do
    let allocated ← call (.allocate seg.size)
    match allocated with
    | none => do
      freeBuffers (items.map fun item => item.allocation.ptr)
      pure none
    | some a => allocateItems segments (items ++ [⟨seg.offset,a,seg.size⟩])

def HixlItem.toRead (item : HixlItem) : ReadItem :=
  ⟨item.offset,some item.allocation.bytes,item.size,""⟩

def failedLease (status : ℤ) : HixlBatchReadResponse := ⟨status,"","",[]⟩

def prepareHixlBatchRead (cfg : StoreConfig) (engineAddr : String) (segments : List RemoteSegment) :
    ServiceProg HixlBatchReadResponse := do
  let init ← call (.ensureHixlInitialized engineAddr)
  if !init.isOk then pure (failedLease init.code.toNat)
  else do
    let allocated ← allocateItems segments []
    match allocated with
    | none => pure (failedLease (-1))
    | some items => do
      let buffers := items.map fun item => item.allocation.ptr
      let (s,_) ← onStore (StoreOps.batchRead cfg (items.map HixlItem.toRead))
      if !s.isOk then do
        freeBuffers buffers
        pure (failedLease s.code.toNat)
      else do
        let granted ← call (.grantLease cfg.storeId buffers)
        match granted with
        | none => pure (failedLease Code.rpcError.toNat)
        | some tok =>
          pure ⟨0,tok,engineAddr,items.map fun item => (item.allocation.ptr,item.size,0)⟩

def releaseHixlRead (tok : String) : ServiceProg ℤ := do
  let found ← call (.takeLease tok)
  match found with
  | none => pure Code.notFound.toNat
  | some lease => do
    call (.deregister lease.handles)
    freeBuffers lease.buffers
    pure 0

end StoreServiceOps

/-- A request to the service, or an operation that another thread of the store runs. -/
inductive ServiceOp
  | store (op : StoreOp)
  | batchGetByKey (keys : List Key)
  | prepareHixlBatchRead (segments : List RemoteSegment)
  | releaseHixlRead (token : String)

inductive ServiceReply
  | store (reply : StoreReply)
  | batchGetByKey (keys : List Key) (response : BatchGetByKeyResponse)
  | prepareHixlBatchRead (response : HixlBatchReadResponse)
  | releaseHixlRead (token : String) (status : ℤ)

def ServiceOp.run (cfg : StoreConfig) (engineAddr : String) : ServiceOp → ServiceProg ServiceReply
  | store op => ServiceReply.store <$> StoreServiceOps.onStore (op.run cfg)
  | batchGetByKey keys =>
    ServiceReply.batchGetByKey keys <$> StoreServiceOps.batchGetByKey keys
  | prepareHixlBatchRead segments =>
    ServiceReply.prepareHixlBatchRead <$> StoreServiceOps.prepareHixlBatchRead cfg engineAddr segments
  | releaseHixlRead tok =>
    ServiceReply.releaseHixlRead tok <$> StoreServiceOps.releaseHixlRead tok

end FalconKV
