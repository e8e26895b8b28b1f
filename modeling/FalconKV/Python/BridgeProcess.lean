import Mathlib.Data.Fintype.Defs
import FalconKV.AtomicCalls.Dismantling
import FalconKV.Client.ScheduledIO
import FalconKV.Store.StoreService

/-! # A bridge with all its threads

A bridge owns a client, an RPC server and a store. Beside the threads that call its API there are
its workers, the handlers of the server, and the background threads of the client and the store;
reports to the scheduler are sent by detached threads. To close the bridge is to take down one
part after the other. A call that a thread makes goes through parts; what they have inside is as
elsewhere, without the queue of commits. Destructors that find nothing left to do are left out.
-/
namespace FalconKV
open AtomicCalls

inductive ProcessPart
  | clientImpl | nodeUringEngine | nodePool | clientProxy | remoteReadBackend
  | storeRpcServer | storeService
  | store | evictManager | pendingEvictQueue | ioUringEngine | ioPool | storeProxy | metaSyncClient
  | metaIndex | allocator | bufferPool | dataFdBuffered | dataFd
  deriving DecidableEq

inductive ProcessCrew
  | worker | handler
  /-- a detached thread of `StoreReportIOAsync` -/
  | report
  | metaReconnect | nodePool | clientProbe
  | evict | pendingEvict | ioPool | storeProbe | reconnect | asyncCommit
  deriving DecidableEq

instance : Fintype ProcessPart where
  elems := {.clientImpl,.nodeUringEngine,.nodePool,.clientProxy,.remoteReadBackend,.storeRpcServer,
    .storeService,.store,.evictManager,.pendingEvictQueue,.ioUringEngine,.ioPool,.storeProxy,
    .metaSyncClient,.metaIndex,.allocator,.bufferPool,.dataFdBuffered,.dataFd}
  complete := fun p => by cases p <;> decide

instance : Fintype ProcessCrew where
  elems := {.worker,.handler,.report,.metaReconnect,.nodePool,.clientProbe,.evict,.pendingEvict,.ioPool,
    .storeProbe,.reconnect,.asyncCommit}
  complete := fun k => by cases k <;> decide

namespace ProcessCrew

def home : ProcessCrew → Finset ProcessPart
  | worker | report => ∅
  | handler => {.storeRpcServer}
  | metaReconnect => {.clientImpl}
  | nodePool => {.nodePool}
  | clientProbe => {.clientProxy}
  | evict => {.evictManager}
  | pendingEvict => {.pendingEvictQueue}
  | ioPool => {.ioPool}
  | storeProbe => {.storeProxy}
  | reconnect | asyncCommit => {.metaSyncClient}

end ProcessCrew

def storeParts : Finset ProcessPart :=
  {.store,.evictManager,.pendingEvictQueue,.ioUringEngine,.ioPool,.metaSyncClient,.metaIndex,.allocator,
    .dataFdBuffered,.dataFd}

def clientParts : Finset ProcessPart :=
  {.clientImpl,.nodeUringEngine,.nodePool,.clientProxy,.remoteReadBackend}

def processPlan : SitePlan ProcessCrew ProcessPart where
  needs := fun k => match k with
    | .worker => clientParts ∪ storeParts
    | .handler => {.storeRpcServer,.storeService,.storeProxy} ∪ storeParts
    | .report => {.storeProxy}
    | .evict => {.evictManager,.metaIndex,.metaSyncClient,.pendingEvictQueue,.allocator}
    | .pendingEvict => {.pendingEvictQueue,.allocator}
    | .reconnect => {.metaSyncClient,.metaIndex}
    | k => k.home
  starts := fun k => match k with
    | .worker => {.clientProbe}
    | .handler => {.report}
    | _ => ∅
  visited := fun k => k == .handler
  hosted := fun p => match p with
    | .clientImpl => {.metaReconnect}
    | .nodePool => {.nodePool}
    | .clientProxy => {.clientProbe}
    | .storeRpcServer => {.handler}
    | .evictManager => {.evict}
    | .pendingEvictQueue => {.pendingEvict}
    | .ioPool => {.ioPool}
    | .storeProxy => {.storeProbe,.report}
    | .metaSyncClient => {.reconnect,.asyncCommit}
    | _ => ∅
  always := {.clientImpl,.nodePool,.remoteReadBackend,.store,.evictManager,.pendingEvictQueue,.ioPool,
    .metaSyncClient,.metaIndex,.allocator,.bufferPool,.dataFdBuffered}
  needs_host := by decide

structure QueuedPut where
  keys : List Key
  buffers : List BufferInfo

inductive ProcessCall
  /-- a call of an operation of the client, of a worker or of the API -/
  | client (byWorker : Bool) (op : scheduledCalls.Op)
  /-- a call of a handler -/
  | service (op : ServiceCall)
  /-- a call of a background thread at what the store consists of, or of the thread that closes -/
  | component (caller : Option ProcessCrew) (op : StoreCall)
  | submitTask (task : QueuedPut)
  | takeTask
  /-- the test of `DrainQueue` that finds the queue empty -/
  | drainQueue
  | setStopped
  /-- a thread begins to run, or the server begins to serve a request -/
  | enter (k : ProcessCrew)
  | leave (k : ProcessCrew)
  /-- the flag of a crew, read by one of it or by the thread that closes -/
  | loadRunning (k : ProcessCrew) (byCrew : Bool)
  | exchangeRunning (k : ProcessCrew)
  | storeRunning (k : ProcessCrew)
  /-- `join`, for all threads that are joinable -/
  | join (k : ProcessCrew)
  /-- what a background thread does at home: the usage of the store against a watermark, a probe, an
  attempt to connect or to register, a wait for a task -/
  | atHome (k : ProcessCrew)
  | takeCommits
  /-- `StoreReportIOAsync`, which launches a thread -/
  | storeReportIOAsync
  | storeReportRpc
  /-- the test of a pointer or descriptor that may have been reset -/
  | held (p : ProcessPart)
  /-- `Close`, `CloseAll`, `Clear`, `fsync` and the like, of something that is then destroyed -/
  | close (p : ProcessPart)
  /-- `~StoreServiceImpl` -/
  | endService
  | destroy (p : ProcessPart)

abbrev ProcessCall.Res : ProcessCall → Type
  | client _ op => scheduledCalls.Res op
  | service op => op.Res
  | component _ op => op.Res
  | takeTask => Option QueuedPut
  | takeCommits => Option (List StoreKeyRecord)
  | setStopped | loadRunning .. | exchangeRunning _ | atHome _ | held _ => Bool
  | _ => Unit

abbrev processCalls : Signature := ⟨ProcessCall,ProcessCall.Res⟩

abbrev ProcessProg := Prog processCalls

/-- What the surroundings decide: for the calls of operations what they decide elsewhere, whether
a call to the scheduler starts a probe, the answer at home, and what commits are queued. -/
structure ProcessChoice where
  scheduled : ScheduledChoice := {}
  service : ServiceChoice := {}
  probing : Bool := false
  answer : Bool := true
  commits : Option (List StoreKeyRecord) := none

structure ProcessConfig where
  deployment : Deployment
  client : ℕ
  /-- the store of the bridge, which is the local store of its client -/
  store : ℕ
  schedulerEnabled : Bool
  /-- `listen_port > 0` -/
  listening : Bool
  storeSchedulerEnabled : Bool
  directIoEnabled : Bool
  ioThreads : ℕ
  hixlEngineAddr : String
  /-- Meta could be reached when the store was initialized, so that commits are sent -/
  connected : Bool
  /-- the proxies could not reach the scheduler, and probe for it -/
  probing : Bool

/-- `site.begun` is `stopped_`. -/
structure BridgeProcess where
  site : Site ProcessCrew ProcessPart
  world : ScheduledWorld
  service : StoreService
  taskQueue : List QueuedPut

namespace ProcessConfig
variable (cfg : ProcessConfig)

def storeConfig : StoreConfig := cfg.deployment.cfg cfg.store

def poolThreads : ℕ := if 0 < cfg.ioThreads then cfg.ioThreads else 4

def has : ProcessPart → Bool
  | .nodeUringEngine => cfg.deployment.nodeUring cfg.client
  | .clientProxy => cfg.schedulerEnabled
  | .storeRpcServer | .storeService => cfg.listening
  | .ioUringEngine => cfg.storeConfig.ioUringEnabled
  | .storeProxy => cfg.storeSchedulerEnabled
  | .dataFd => cfg.directIoEnabled
  | _ => true

def launched : ProcessCrew → ℕ
  | .worker => 2
  | .handler | .report => 0
  | .nodePool | .ioPool => cfg.poolThreads
  | .clientProbe => if cfg.schedulerEnabled && cfg.probing then 1 else 0
  | .storeProbe => if cfg.storeSchedulerEnabled && cfg.probing then 1 else 0
  | .asyncCommit => if cfg.connected then 1 else 0
  | .metaReconnect | .evict | .pendingEvict | .reconnect => 1

/-- The site after the constructor. -/
def site : Site ProcessCrew ProcessPart where
  begun := false
  has := cfg.has
  gone := fun _ => false
  flag := fun k => match k with
    | .handler => cfg.listening
    | .asyncCommit => cfg.connected
    | _ => true
  starting := cfg.launched
  inside := fun _ => 0

end ProcessConfig

namespace BridgeProcess

def create (cfg : ProcessConfig) : BridgeProcess where
  site := cfg.site
  world := .init cfg.deployment
  service := .create (.init cfg.storeConfig)
  taskQueue := []

def startProbe (x : BridgeProcess) (op : scheduledCalls.Op) (probing : Bool) : BridgeProcess :=
  match op with
  | .inr (.atScheduler _) =>
    if probing && x.site.held .clientProxy then { x with site := x.site.start .clientProbe } else x
  | _ => x

def atClient (cfg : ProcessConfig) (op : scheduledCalls.Op) (c : ProcessChoice) (x : BridgeProcess) :
    Option (scheduledCalls.Res op × BridgeProcess) :=
  (x.world.step cfg.deployment op c.scheduled).map fun y =>
    (y.1,({ x with world := y.2 }).startProbe op c.probing)

def atStore (cfg : ProcessConfig) (op : StoreCall) (c : ProcessChoice) (x : BridgeProcess) :
    Option (op.Res × BridgeProcess) :=
  ((x.world.clients.store cfg.store).step op c.scheduled.client.store).map fun y =>
    (y.1,{ x with world := { x.world with clients := x.world.clients.setStore cfg.store op y.2 } })

def atService (cfg : ProcessConfig) (op : ServiceCall) (c : ProcessChoice) (x : BridgeProcess) :
    Option (op.Res × BridgeProcess) :=
  match op with
  | .store op => x.atStore cfg op c
  | op => (x.service.step op c.service).map fun y => (y.1,{ x with service := y.2 })

def takeTask (x : BridgeProcess) : Option (Option QueuedPut × BridgeProcess) :=
  match x.taskQueue with
  | task :: rest => some (some task,{ x with taskQueue := rest })
  | [] => if x.site.begun then some (none,x) else none

/-- A call that sets `stopped_` for the first time takes the bridge down. -/
def setStopped (x : BridgeProcess) : Bool × BridgeProcess :=
  (x.site.begun,if x.site.begun then x else { x with site := { x.site with begun := true } })

def exchangeRunning (x : BridgeProcess) (k : ProcessCrew) : Bool × BridgeProcess :=
  (x.site.flag k,if x.site.flag k then { x with site := x.site.lower k } else x)

def storeReportIOAsync (x : BridgeProcess) (launches : Bool) : BridgeProcess :=
  if launches && x.site.held .storeProxy then { x with site := x.site.start .report } else x

def step (cfg : ProcessConfig) (op : ProcessCall) (c : ProcessChoice) (x : BridgeProcess) :
    Option (op.Res × BridgeProcess) :=
  match op with
  | .client _ op => x.atClient cfg op c
  | .service op => x.atService cfg op c
  | .component _ op => x.atStore cfg op c
  | .submitTask task => some ((),{ x with taskQueue := x.taskQueue ++ [task] })
  | .takeTask => x.takeTask
  | .drainQueue => if x.taskQueue.isEmpty then some ((),x) else none
  | .setStopped => some x.setStopped
  | .enter k => (x.site.enter processPlan k).map fun site => ((),{ x with site := site })
  | .leave k => some ((),{ x with site := x.site.leave k })
  | .loadRunning k _ => some (x.site.flag k,x)
  | .exchangeRunning k => some (x.exchangeRunning k)
  | .storeRunning k => some ((),{ x with site := x.site.lower k })
  | .join k => if x.site.Left processPlan k then some ((),x) else none
  | .atHome _ => some (c.answer,x)
  | .takeCommits => some (c.commits,x)
  | .storeReportIOAsync => some ((),x.storeReportIOAsync c.answer)
  | .storeReportRpc => some ((),x)
  | .held p => some (x.site.held p,x)
  | .close _ => some ((),x)
  | .endService => some ((),{ x with service := x.service.destroy })
  | .destroy p => some ((),{ x with site := x.site.destroy p })

end BridgeProcess

def processMachine (cfg : ProcessConfig) : Machine processCalls BridgeProcess :=
  ⟨ProcessChoice,BridgeProcess.step cfg⟩

namespace ProcessOps

abbrev ask (op : ProcessCall) : ProcessProg op.Res := Prog.perform (E := processCalls) op

def atClient {α : Type} (byWorker : Bool) (p : ScheduledProg α) : ProcessProg α :=
  p.interp fun op => ask (.client byWorker op)

variable (cfg : ProcessConfig)

def batchPutSync (byWorker : Bool) (task : QueuedPut) : ProcessProg Unit := do
  let _ ← atClient byWorker
    (ScheduledOps.batchPut cfg.deployment cfg.schedulerEnabled cfg.client task.keys task.buffers)
  pure ()

def batchGetSync (keys : List Key) (buffers : List BufferInfo) : ProcessProg Unit := do
  let _ ← atClient false
    (ScheduledOps.batchGetSync cfg.deployment cfg.schedulerEnabled cfg.client keys buffers)
  pure ()

def batchExistSync (keys : List Key) : ProcessProg Unit := do
  let _ ← atClient false (ScheduledOps.work (ClientOps.batchExist cfg.deployment cfg.client keys))
  pure ()

/-- A thread that runs; each loop is followed for as many rounds as one likes. -/
def thread (k : ProcessCrew) (p : ProcessProg Unit) : ProcessProg Unit := do
  ask (.enter k)
  p

def workerLoop : ℕ → ProcessProg Unit
  | 0 => pure ()
  | rounds + 1 => do
    let task ← ask .takeTask
    match task with
    | none => ask (.leave .worker)
    | some task => do
      batchPutSync cfg true task
      workerLoop rounds

/-- A handler tells the scheduler what it has read, if the store has a proxy. -/
def serve (op : ServiceOp) (reports : Bool) : ProcessProg Unit := do
  let _ ← (op.run cfg.storeConfig cfg.hixlEngineAddr).interp fun op => ask (.service op)
  if reports then do
    ask .storeReportIOAsync
    ask (.leave .handler)
  else ask (.leave .handler)

def report : ProcessProg Unit := do
  ask .storeReportRpc
  ask (.leave .report)

def atComponent {α : Type} (caller : Option ProcessCrew) (p : StoreProg α) : ProcessProg α :=
  p.interp fun op => ask (.component caller op)

def whileRunning (k : ProcessCrew) (body : ProcessProg Unit) : ProcessProg Unit := do
  let running ← ask (.loadRunning k true)
  if running then body else ask (.leave k)

/-- `EvictLoop`: at its head, or within the loop that goes on down to the low watermark. Of the tests
while it sleeps there is one, the one after it. -/
def evictLoop : ℕ → Bool → ProcessProg Unit
  | 0, _ => pure ()
  | rounds + 1, false => whileRunning .evict (whileRunning .evict do
      let above ← ask (.atHome .evict)
      evictLoop rounds above)
  | rounds + 1, true => do
    let running ← ask (.loadRunning .evict true)
    if !running then evictLoop rounds false
    else do
      let above ← ask (.atHome .evict)
      if !above then evictLoop rounds false
      else do
        let evicted ← atComponent (some .evict) (StoreOps.tryEvictBatchLRU cfg.storeConfig)
        evictLoop rounds evicted

def pendingEvictLoop : ℕ → ProcessProg Unit
  | 0 => pure ()
  | rounds + 1 => whileRunning .pendingEvict do
    let _ ← atComponent (some .pendingEvict) StoreOps.flushExpired
    pendingEvictLoop rounds

/-- `WorkerLoop` of a pool, whose tasks are calls of those who wait for them: the flag and the queue
after a wait. -/
def poolLoop (k : ProcessCrew) : ℕ → ProcessProg Unit
  | 0 => pure ()
  | rounds + 1 => whileRunning k do
    let running ← ask (.loadRunning k true)
    let empty ← ask (.atHome k)
    if !running && empty then ask (.leave k) else poolLoop k rounds

/-- The loop of a probe, which ends when the scheduler answers, and that of a `MetaRpcClient`. -/
def homeLoop (k : ProcessCrew) : ℕ → ProcessProg Unit
  | 0 => pure ()
  | rounds + 1 => whileRunning k (whileRunning k do
      let goesOn ← ask (.atHome k)
      if goesOn then homeLoop k rounds else ask (.leave k))

def commitBatches : List (List StoreKeyRecord) → ProcessProg Unit
  | [] => pure ()
  | batch :: batches => do
    let s ← ask (.component (some .reconnect) (.syncCommit cfg.storeConfig.storeId batch))
    if s.isOk then commitBatches batches else pure ()

def registerStore : ℕ → ProcessProg Bool
  | 0 => pure false
  | attempts + 1 => do
    let ok ← ask (.atHome .reconnect)
    if ok then pure true else registerStore attempts

def fullResync : ProcessProg Unit := do
  let ok ← registerStore 3
  if !ok then pure ()
  else do
    let entries ← ask (.component (some .reconnect) .getAllCommittedEntries)
    commitBatches cfg (entries.toChunks 256)

/-- `ReconnectLoop` of the store: is it connected, and if not, can it connect? -/
def reconnectLoop : ℕ → ProcessProg Unit
  | 0 => pure ()
  | rounds + 1 => whileRunning .reconnect (whileRunning .reconnect do
      let connected ← ask (.atHome .reconnect)
      if connected then reconnectLoop rounds
      else do
        let ok ← ask (.atHome .reconnect)
        if ok then do
          fullResync cfg
          reconnectLoop rounds
        else reconnectLoop rounds)

/-- `AsyncCommitLoop`: it ends when nothing is queued and the flag is not set. -/
def asyncCommitLoop : ℕ → ProcessProg Unit
  | 0 => pure ()
  | rounds + 1 => whileRunning .asyncCommit do
    let batch ← ask .takeCommits
    match batch with
    | none => ask (.leave .asyncCommit)
    | some merged => do
      let _ ← ask (.component (some .asyncCommit) (.syncCommit cfg.storeConfig.storeId merged))
      asyncCommitLoop rounds

def ifHeld (p : ProcessPart) (body : ProcessProg Unit) : ProcessProg Unit := do
  let there ← ask (.held p)
  if there then body else pure ()

def reset (p : ProcessPart) (destructor : ProcessProg Unit) : ProcessProg Unit :=
  ifHeld p do
    destructor
    ask (.destroy p)

/-- `Stop` of the eviction manager, the queue and a pool. -/
def stop (k : ProcessCrew) (after : ProcessProg Unit) : ProcessProg Unit := do
  let running ← ask (.exchangeRunning k)
  if running then do
    ask (.join k)
    after
  else pure ()

def stopLoop (k : ProcessCrew) : ProcessProg Unit := do
  let running ← ask (.loadRunning k false)
  if running then do
    ask (.storeRunning k)
    ask (.join k)
  else pure ()

def stopAndJoin (k : ProcessCrew) : ProcessProg Unit := do
  ask (.storeRunning k)
  ask (.join k)

def stopPool (k : ProcessCrew) (p : ProcessPart) : ProcessProg Unit := do
  stop k (ask (.close p))
  stop k (ask (.close p))

/-- `FalconKVClientImpl::Close`: the loop of the Meta client, the engines of the accessor and its
descriptors, the cache, and the clients of the stores. -/
def closeClient : ProcessProg Unit := do
  stopLoop .metaReconnect
  reset .nodeUringEngine (ask (.close .nodeUringEngine))
  reset .nodePool (stopPool .nodePool .nodePool)
  ask (.close .clientImpl)

def endClient : ProcessProg Unit := do
  closeClient
  closeClient
  reset .clientProxy (stopAndJoin .clientProbe)
  reset .remoteReadBackend (pure ())

def flushAll : StoreProg Unit := do
  let remaining ← invoke .takeAll
  Prog.forEach (fun e => invoke (.free (int64 e.offset) e.allocSize)) remaining

/-- What the store has beside its data file is taken down in `FalconKVStore::Close`, of a store that
is running. -/
def closeStore : ProcessProg Unit := do
  reset .evictManager (stop .evict (pure ()))
  reset .pendingEvictQueue (stop .pendingEvict (atComponent none flushAll))
  reset .ioUringEngine (ask (.close .ioUringEngine))
  reset .ioPool (stopPool .ioPool .ioPool)
  reset .storeProxy (stopAndJoin .storeProbe)
  ifHeld .metaSyncClient (stopLoop .reconnect)
  reset .metaSyncClient do
    stopLoop .asyncCommit
    stopLoop .reconnect
  reset .metaIndex (pure ())
  reset .allocator (pure ())
  reset .bufferPool (pure ())
  reset .dataFdBuffered (ask (.close .dataFdBuffered))
  reset .dataFd (pure ())

/-- `FalconKVBridge::Close`. -/
def close : ProcessProg Unit := do
  ask .drainQueue
  let stopped ← ask .setStopped
  if stopped then pure ()
  else do
    ask (.join .worker)
    reset .clientImpl endClient
    reset .storeRpcServer (stopAndJoin .handler)
    reset .storeService (ask .endService)
    reset .store closeStore

end ProcessOps

/-- What runs in the process. -/
inductive ProcessOp
  | batchPutSync (task : QueuedPut)
  | batchGetSync (keys : List Key) (buffers : List BufferInfo)
  | batchExistSync (keys : List Key)
  | fireAndForgetPut (task : QueuedPut)
  | close
  | worker (rounds : ℕ)
  | handler (op : ServiceOp) (reports : Bool)
  | report
  | evict (rounds : ℕ)
  | pendingEvict (rounds : ℕ)
  | reconnect (rounds : ℕ)
  | asyncCommit (rounds : ℕ)
  | pool (k : ProcessCrew) (rounds : ℕ)
  /-- the threads of the probes and of the client of Meta -/
  | atHome (k : ProcessCrew) (rounds : ℕ)

def ProcessOp.run (cfg : ProcessConfig) : ProcessOp → ProcessProg Unit
  | batchPutSync task => ProcessOps.batchPutSync cfg false task
  | batchGetSync keys buffers => ProcessOps.batchGetSync cfg keys buffers
  | batchExistSync keys => ProcessOps.batchExistSync cfg keys
  | fireAndForgetPut task => ProcessOps.ask (.submitTask task)
  | close => ProcessOps.close
  | worker rounds => ProcessOps.thread .worker (ProcessOps.workerLoop cfg rounds)
  | handler op reports => ProcessOps.thread .handler (ProcessOps.serve cfg op reports)
  | report => ProcessOps.thread .report ProcessOps.report
  | evict rounds => ProcessOps.thread .evict (ProcessOps.evictLoop cfg rounds false)
  | pendingEvict rounds => ProcessOps.thread .pendingEvict (ProcessOps.pendingEvictLoop rounds)
  | reconnect rounds => ProcessOps.thread .reconnect (ProcessOps.reconnectLoop cfg rounds)
  | asyncCommit rounds => ProcessOps.thread .asyncCommit (ProcessOps.asyncCommitLoop cfg rounds)
  | pool k rounds => ProcessOps.thread k (ProcessOps.poolLoop k rounds)
  | atHome k rounds => ProcessOps.thread k (ProcessOps.homeLoop k rounds)

end FalconKV
