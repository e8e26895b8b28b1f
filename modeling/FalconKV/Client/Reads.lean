import FalconKV.Client.Exist
import FalconKV.Store.LastPuts

/-! # Clients that read slots through cached descriptors

Any number of stores and clients. A client puts into its own store, learns from it and from
Meta where keys are, remembers this in its cache of descriptors, and reads the slots that the
cache names: in its own store, in the data file of another store of its node, or over RPC. The
cache, the maps of addresses and files and the calls inside a store are atomic. Meta may answer
anything, and the scheduler only delays.
-/
namespace FalconKV
open AtomicCalls

structure BufferInfo where
  dataPtr : Option Bytes
  size : ℕ

/-- The stores, the clients and how they reach each other. -/
structure Deployment where
  cfg : ℕ → StoreConfig
  nodeId : ℕ → ℕ
  cacheCapacity : ℕ → ℕ
  /-- `local_store_` -/
  localStore : ℕ → Option ℕ
  /-- whether the `NodeLocalAccessor` of a client has an io_uring engine -/
  nodeUring : ℕ → Bool
  /-- the store whose data file has this path -/
  dataFile : String → Option ℕ
  /-- the store that serves at an address -/
  serving : String → Option ℕ
  /-- the order in which a map lists the store ids that were put into it -/
  groups : List ℕ → List ℕ

/-- A client that has done nothing yet. -/
def Deployment.client (D : Deployment) (client : ℕ) : FalconKVClientImpl :=
  .create (D.nodeId client) (D.cacheCapacity client)

structure ReadWorld where
  store : ℕ → Store
  client : ℕ → FalconKVClientImpl
  /-- no call reads it -/
  lastPut : ℕ → LastPuts

inductive ClientCall
  /-- a call of an operation of store `i` -/
  | atStore (i : ℕ) (op : StoreCall)
  /-- a call in store `i`, or on its data file, that reads for a client -/
  | forClient (i : ℕ) (op : StoreCall)
  | cacheLookup (client : ℕ) (keys : List Key)
  | cacheInsert (client : ℕ) (desc : KeyDescriptor)
  | metaBatchExist (client : ℕ) (keys : List Key)
  | metaBatchLookup (client : ℕ) (keys : List Key)
  | registerStoreFile (client storeId : ℕ) (dataFile : String)
  | getStoreFilePath (client storeId : ℕ)
  | setStoreAddr (client storeId : ℕ) (addr : String)
  | getStoreAddr (client storeId : ℕ)
  | openFile (path : String)
  /-- the request of a `BatchRead`; the store that it reaches -/
  | request (addr : String)
  /-- whether its answer comes back -/
  | response

abbrev ClientCall.Res : ClientCall → Type
  | atStore _ op => op.Res
  | forClient _ op => op.Res
  | cacheLookup .. => List KeyDescriptor × List Key
  | cacheInsert .. => Unit
  | metaBatchExist .. => List KeyRecord
  | metaBatchLookup .. => List KeyRecord
  | registerStoreFile .. => Unit
  | getStoreFilePath .. => Option String
  | setStoreAddr .. => Unit
  | getStoreAddr .. => Option String
  | openFile _ => Option ℕ
  | request _ => Option ℕ
  | response => Bool

abbrev clientCalls : Signature := ⟨ClientCall,ClientCall.Res⟩

/-- What the surroundings decide in one call: those of the store, whether a file can be opened
or a message arrives, the clock, and the answer of Meta. -/
structure ClientChoice where
  store : StoreChoice := {}
  succeeds : Bool := true
  now : ℕ := 0
  records : List KeyRecord := []

namespace ReadWorld

def init (D : Deployment) : ReadWorld := ⟨fun i => .init (D.cfg i),D.client,fun _ _ => none⟩

def setStore (x : ReadWorld) (i : ℕ) (op : StoreCall) (s : Store) : ReadWorld where
  store := Function.update x.store i s
  client := x.client
  lastPut := Function.update x.lastPut i (LastPut.note op (x.lastPut i))

def setClient (x : ReadWorld) (client : ℕ) (value : FalconKVClientImpl) : ReadWorld :=
  { x with client := Function.update x.client client value }

def step (D : Deployment) (op : ClientCall) (c : ClientChoice) (x : ReadWorld) :
    Option (op.Res × ReadWorld) :=
  match op with
  | .atStore i op => ((x.store i).step op c.store).map fun y => (y.1,x.setStore i op y.2)
  | .forClient i op => ((x.store i).step op c.store).map fun y => (y.1,x.setStore i op y.2)
  | .cacheLookup client keys =>
    some (((x.client client).keyDescCache.batchLookup c.now keys).1,
      x.setClient client { x.client client with
        keyDescCache := ((x.client client).keyDescCache.batchLookup c.now keys).2 })
  | .cacheInsert client desc => some ((),x.setClient client ((x.client client).cacheDesc desc))
  | .metaBatchExist .. => some (c.records,x)
  | .metaBatchLookup .. => some (c.records,x)
  | .registerStoreFile client storeId dataFile =>
    some ((),x.setClient client { x.client client with
      storeFiles := (x.client client).storeFiles.insert storeId dataFile })
  | .getStoreFilePath client storeId => some ((x.client client).storeFiles.lookup storeId,x)
  | .setStoreAddr client storeId addr =>
    some ((),x.setClient client { x.client client with
      storeAddrMap := (x.client client).storeAddrMap.insert storeId addr })
  | .getStoreAddr client storeId => some ((x.client client).storeAddrMap.lookup storeId,x)
  | .openFile path => some (if c.succeeds then D.dataFile path else none,x)
  | .request addr => some (if c.succeeds then D.serving addr else none,x)
  | .response => some (c.succeeds,x)

end ReadWorld

def clientMachine (D : Deployment) : Machine clientCalls ReadWorld := ⟨ClientChoice,ReadWorld.step D⟩

abbrev ClientProg := Prog clientCalls

structure Fetch where
  desc : KeyDescriptor
  buffer : BufferInfo
  index : ℕ

/-- An entry of `bytes_read`, and the buffer after the call. -/
structure Fetched where
  count : ℤ
  buffer : Option Bytes

namespace Fetch

def item (f : Fetch) : ReadItem := ⟨f.desc.offset,f.buffer.dataPtr,f.buffer.size,f.desc.key⟩

def remoteItem (f : Fetch) : ReadItem := { f.item with buffer := some fun _ => 0 }

def done (f : Fetch) (ok : Bool) (bytes : Option Bytes) : ℕ × Fetched :=
  (f.index,⟨if ok then int32 f.buffer.size else -1,bytes⟩)

def failed (f : Fetch) : ℕ × Fetched := f.done false f.buffer.dataPtr

end Fetch

def place (results : List Fetched) (new : List (ℕ × Fetched)) : List Fetched :=
  new.foldl (fun results x => results.set x.1 x.2) results

namespace ClientOps

abbrev call (op : ClientCall) : ClientProg op.Res := Prog.perform (E := clientCalls) op

def atStore {α : Type} (i : ℕ) (p : StoreProg α) : ClientProg α :=
  p.interp fun op => call (.atStore i op)

def forClient {α : Type} (i : ℕ) (p : StoreProg α) : ClientProg α :=
  p.interp fun op => call (.forClient i op)

variable (D : Deployment) (client : ℕ)

def putDesc (storeId : ℕ) (x : (Key × BufferInfo) × StorePutResult) : KeyDescriptor where
  key := x.1.1
  storeId := storeId
  offset := x.2.offset
  size := x.1.2.size
  accessType := .localDirect

def rememberPut (i : ℕ) (x : (Key × BufferInfo) × StorePutResult) : ClientProg Unit :=
  if x.2.status.isOk && decide (0 < x.2.allocSize) then
    call (.cacheInsert client (putDesc (D.cfg i).storeId x))
  else pure ()

def batchPut (keys : List Key) (buffers : List BufferInfo) : ClientProg (List Status) :=
  if keys.length ≠ buffers.length then pure [.invalidArg "keys and buffers size mismatch"]
  else match D.localStore client with
    | none => pure [.ioError "local store not set"]
    | some i => do
      let results ← atStore i (StoreOps.batchPut (D.cfg i) keys (buffers.map BufferInfo.dataPtr)
        (buffers.map BufferInfo.size))
      Prog.forEach (rememberPut D client i) ((keys.zip buffers).zip results)
      pure (results.map StorePutResult.status)

def learnFile (rec : KeyRecord) : ClientProg Unit :=
  if ((D.client client).remoteDesc rec).accessType = .nodeDirect ∧ rec.dataFile ≠ "" then
    call (.registerStoreFile client rec.storeId rec.dataFile)
  else pure ()

def learnAddr (rec : KeyRecord) : ClientProg Unit :=
  if rec.storeAddr ≠ "" then call (.setStoreAddr client rec.storeId rec.storeAddr) else pure ()

def learn (rec : KeyRecord) : ClientProg Unit := do
  learnFile D client rec
  learnAddr client rec
  call (.cacheInsert client ((D.client client).remoteDesc rec))

def unlessEmpty (missingKeys : List Key) (ask : ClientProg (List KeyRecord)) :
    ClientProg (List KeyRecord) :=
  if missingKeys.isEmpty then pure [] else ask

def localHits (keys : List Key) : ClientProg (List KeyDescriptor × List Key) :=
  match D.localStore client with
  | none => pure ([],keys)
  | some i => do
    let (hits,misses) ← atStore i (StoreOps.batchContains keys)
    pure (hits.map (FalconKVClientImpl.localDesc (D.cfg i).storeId),misses)

def batchExist (keys : List Key) : ClientProg (ℤ × List KeyDescriptor) :=
  if keys.isEmpty then pure (0,[])
  else do
    let (hits,missingKeys) ← localHits D client keys
    Prog.forEach (fun desc => call (.cacheInsert client desc)) hits
    let records ← unlessEmpty missingKeys (call (.metaBatchExist client missingKeys))
    let found := records.filter FalconKVClientImpl.isHit
    Prog.forEach (learn D client) found
    let hitDescs := hits ++ found.map (D.client client).remoteDesc
    pure (int32 hitDescs.length,hitDescs)

def readLocal (i : ℕ) (fetches : List Fetch) : ClientProg (List (ℕ × Fetched)) := do
  let (status,buffers) ← forClient i (StoreOps.batchRead (D.cfg i) (fetches.map Fetch.item))
  pure ((fetches.zip buffers).map fun x => x.1.done status.isOk x.2)

/-- One request of `NodeLocalAccessor::BatchRead`, on the data file of store `i`. -/
def readFile (i : ℕ) (f : Fetch) : ClientProg (Status × Option Bytes) :=
  if D.nodeUring client then do
    let (s,bytes) ← call (.forClient i (.uringRead f.desc.offset f.buffer.size f.desc.key))
    pure (s,some bytes)
  else do
    let (r,bytes) ← call (.forClient i (.pread f.desc.offset f.buffer.size f.desc.key))
    if r.count < 0 then
      pure (.ioError ("NodeLocalAccessor: pread failed, errno=" ++ r.error),some bytes)
    else if r.count < f.buffer.size then
      pure (.ioError ("NodeLocalAccessor: partial read, expected=" ++ toString f.buffer.size ++
        " got=" ++ toString r.count),some bytes)
    else pure (.OK,some bytes)

/-- The file of the store, opened; with `O_DIRECT` or not makes no difference to the bytes. -/
def storeFile (f : Fetch) : ClientProg (Option ℕ) := do
  let path ← call (.getStoreFilePath client f.desc.storeId)
  match path with
  | none => pure none
  | some path => call (.openFile path)

def readOpened (x : Fetch × Option ℕ) : ClientProg (ℕ × Fetched) :=
  match x.2 with
  | none => pure x.1.failed
  | some i => do
    let (s,bytes) ← readFile D client i x.1
    pure (x.1.done s.isOk bytes)

def readNode (fetches : List Fetch) : ClientProg (List (ℕ × Fetched)) := do
  let files ← Prog.mapEach (storeFile client) fetches
  Prog.mapEach (readOpened D client) (fetches.zip files)

def remoteAddr (desc : KeyDescriptor) : ClientProg String :=
  if desc.storeAddr ≠ "" then pure desc.storeAddr
  else do
    let addr ← call (.getStoreAddr client desc.storeId)
    pure (addr.getD "")

def readRpc (addr : String) (fetches : List Fetch) : ClientProg (List (ℕ × Fetched)) := do
  let site ← call (.request addr)
  match site with
  | none => pure (fetches.map Fetch.failed)
  | some i => do
    let (status,buffers) ← forClient i (StoreOps.batchRead (D.cfg i) (fetches.map Fetch.remoteItem))
    let arrives ← call .response
    if arrives && status.isOk then
      pure ((fetches.zip buffers).map fun x => x.1.done (decide (0 < int32 x.1.buffer.size)) x.2)
    else pure (fetches.map Fetch.failed)

def readRemote (fetches : List Fetch) (storeId : ℕ) : ClientProg (List (ℕ × Fetched)) :=
  match fetches.filter fun f => f.desc.storeId == storeId with
  | [] => pure []
  | first :: rest => do
    let addr ← remoteAddr client first.desc
    if addr = "" then pure ((first :: rest).map Fetch.failed) else readRpc D addr (first :: rest)

def fetchesOf (items : List (KeyDescriptor × BufferInfo)) (type : AccessType) : List Fetch :=
  (items.zipIdx.map fun x => (⟨x.1.1,x.1.2,x.2⟩ : Fetch)).filter fun f => f.desc.accessType == type

def localReads (fetches : List Fetch) : ClientProg (List (ℕ × Fetched)) :=
  match D.localStore client with
  | none => pure []
  | some i => readLocal D i fetches

def batchGet (items : List (KeyDescriptor × BufferInfo)) : ClientProg (List Fetched) := do
  let localResults ← localReads D client (fetchesOf items .localDirect)
  let nodeResults ← readNode D client (fetchesOf items .nodeDirect)
  let remotes := fetchesOf items .remoteRpc
  let remoteResults ← Prog.mapEach (readRemote D client remotes)
    (D.groups (remotes.map fun f => f.desc.storeId))
  let bytesRead := items.map fun x => (⟨0,x.2.dataPtr⟩ : Fetched)
  pure (place (place (place bytesRead localResults) nodeResults) remoteResults.flatten)

def emplace (hits : AList fun _ : Key => KeyDescriptor) (desc : KeyDescriptor) :
    AList fun _ : Key => KeyDescriptor :=
  if desc.key ∈ hits then hits else hits.insert desc.key desc

def validReads (hitMap : AList fun _ : Key => KeyDescriptor) (keys : List Key)
    (buffers : List BufferInfo) : List ((KeyDescriptor × BufferInfo) × ℕ) :=
  (keys.zip buffers).zipIdx.filterMap fun x =>
    (hitMap.lookup x.1.1).map fun desc => ((desc,x.1.2),x.2)

def batchGetSync (keys : List Key) (buffers : List BufferInfo) : ClientProg (List Fetched) :=
  if keys.length ≠ buffers.length then pure (keys.map fun _ => ⟨-1,none⟩)
  else do
    let (hitDescs,missingKeys) ← call (.cacheLookup client keys)
    let records ← unlessEmpty missingKeys (call (.metaBatchLookup client missingKeys))
    let found := records.filter fun rec => rec.key != ""
    Prog.forEach (learn D client) found
    let hitMap := (hitDescs ++ found.map (D.client client).remoteDesc).foldl emplace ∅
    let valid := validReads hitMap keys buffers
    let results ← batchGet D client (valid.map Prod.fst)
    pure (place (buffers.map fun buffer => ⟨-1,buffer.dataPtr⟩) ((valid.map Prod.snd).zip results))

end ClientOps

inductive ClientReply
  | store (i : ℕ) (reply : StoreReply)
  | batchPut (statuses : List Status)
  | batchExist (hitCount : ℤ) (hitDescs : List KeyDescriptor)
  | batchGetSync (keys : List Key) (buffers : List BufferInfo) (results : List Fetched)

inductive ClientOp
  | store (i : ℕ) (op : StoreOp)
  | batchPut (client : ℕ) (keys : List Key) (buffers : List BufferInfo)
  | batchExist (client : ℕ) (keys : List Key)
  | batchGetSync (client : ℕ) (keys : List Key) (buffers : List BufferInfo)

def ClientOp.run (D : Deployment) : ClientOp → ClientProg ClientReply
  | store i op => ClientReply.store i <$> ClientOps.atStore i (op.run (D.cfg i))
  | batchPut client keys buffers => ClientReply.batchPut <$> ClientOps.batchPut D client keys buffers
  | batchExist client keys =>
    (fun r => ClientReply.batchExist r.1 r.2) <$> ClientOps.batchExist D client keys
  | batchGetSync client keys buffers =>
    ClientReply.batchGetSync keys buffers <$> ClientOps.batchGetSync D client keys buffers

abbrev ClientEvent := Event clientCalls ReadWorld
abbrev ClientPool := Pool clientCalls ReadWorld ClientReply

/-- Any number of operations of any stores and clients, interleaved at their atomic calls. -/
abbrev ClientRun (D : Deployment) (ok : ReadWorld → ClientCall → Prop) :
    List ClientEvent → ClientPool → Prop :=
  Run (clientMachine D) (fun p => ∃ op : ClientOp, p = op.run D) ok ⟨.init D,[]⟩

structure SlotRead where
  site : ℕ
  offset : ℕ
  size : ℕ
  reader : Key
  bytes : Bytes

def ClientCall.completed : (op : ClientCall) → op.Res → Option SlotRead
  | .forClient i (.pread offset size reader), r =>
    if r.1.count = size then some ⟨i,offset,size,reader,r.2⟩ else none
  | .forClient i (.uringRead offset size reader), r =>
    if Status.isOk r.1 then some ⟨i,offset,size,reader,r.2⟩ else none
  | _, _ => none

def SlotRead.Right (x : ReadWorld) (read : SlotRead) : Prop :=
  ∃ put, x.lastPut read.site read.reader = some put ∧ (read.size ≤ put.value.length →
    bytesOf read.bytes read.size = put.value.take read.size)

/-- Whenever `BatchGetSync` returns a positive count for a key, it has filled the buffer by a read
for this key, and what it has read is right. -/
def NoWrongKey (tr : List ClientEvent) (P : ClientPool) : Prop :=
  ∀ (i : ℕ) keys buffers results, P.replies[i]? = some (some (.batchGetSync keys buffers results)) →
    ∀ (j : ℕ) key buffer fetched, keys[j]? = some key → buffers[j]? = some buffer →
      results[j]? = some fetched → 0 < fetched.count →
        ∃ e ∈ tr, e.thread = i ∧ ∃ read, e.op.completed e.res = some read ∧ read.reader = key ∧
          read.size = buffer.size ∧ fetched.buffer = some read.bytes ∧ read.Right e.before

end FalconKV
