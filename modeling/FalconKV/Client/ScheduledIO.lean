import FalconKV.AtomicCalls.Projections
import FalconKV.Client.OneByOne
import FalconKV.Client.ReadRuns
import FalconKV.Scheduler.Service

/-! # Clients that ask the scheduler

A client with a scheduler asks it before each batch of reads or writes, and reports to it after
the batch. The scheduler can be reached: its handlers run within the calls of the clients, and
interleave at their atomic calls like everything else. Stores report the reads that they serve.
-/
namespace FalconKV
open AtomicCalls

inductive AdmissionCall
  | atScheduler (op : SchedulerCall)
  | getCurrentTimeNs

abbrev AdmissionCall.Res : AdmissionCall → Type
  | atScheduler op => op.Res
  | getCurrentTimeNs => ℕ

abbrev admissionCalls : Signature := ⟨AdmissionCall,AdmissionCall.Res⟩

abbrev scheduledCalls : Signature := clientCalls.sum admissionCalls

structure ScheduledWorld where
  scheduler : FalconKVScheduler
  clients : ReadWorld

structure ScheduledChoice where
  now : ℕ := 0
  client : ClientChoice := {}

namespace ScheduledWorld

def init (D : Deployment) : ScheduledWorld := ⟨.create,.init D⟩

def step (D : Deployment) (op : scheduledCalls.Op) (c : ScheduledChoice) (x : ScheduledWorld) :
    Option (scheduledCalls.Res op × ScheduledWorld) :=
  match op with
  | .inl op => (x.clients.step D op c.client).map fun y => (y.1,{ x with clients := y.2 })
  | .inr (.atScheduler op) =>
    (x.scheduler.step op c.now).map fun y => (y.1,{ x with scheduler := y.2 })
  | .inr .getCurrentTimeNs => some (c.now,x)

end ScheduledWorld

def scheduledMachine (D : Deployment) : Machine scheduledCalls ScheduledWorld :=
  ⟨ScheduledChoice,ScheduledWorld.step D⟩

abbrev ScheduledProg := Prog scheduledCalls

def totalSize (buffers : List BufferInfo) : ℕ := (buffers.map BufferInfo.size).sum % 2^64

namespace ScheduledOps

abbrev call (op : AdmissionCall) : ScheduledProg op.Res := Prog.perform (E := scheduledCalls) (.inr op)

abbrev work {α : Type} (p : ClientProg α) : ScheduledProg α := p.shown

def runScheduler {α : Type} (p : SchedulerProg α) : ScheduledProg α :=
  p.interp fun op => call (.atScheduler op)

variable (D : Deployment) (enabled : Bool) (client : ℕ)

def requestIO (request : IORequestData) : ScheduledProg IOResponseData :=
  if enabled then runScheduler ( SchedulerServiceImpl.requestIO request) else pure ⟨0,0,0⟩

def reportIOCompletion (report : IOCompletionData) : ScheduledProg Unit :=
  if enabled then runScheduler (SchedulerServiceImpl.reportIOCompletion report) else pure ()

/-- An IO between its request and its report. -/
def admitted {α : Type} (request : IORequestData) (report : IOCompletionData) (succeeded : α → Bool)
    (io : ClientProg α) : ScheduledProg α := do
  let requestTs ← call .getCurrentTimeNs
  let resp ← requestIO enabled { request with requestTsNs := requestTs }
  let startTs ← call .getCurrentTimeNs
  let results ← work io
  let doneTs ← call .getCurrentTimeNs
  reportIOCompletion enabled { report with
    ticket := resp.ticket
    ioStartTsNs := startTs
    ioDoneTsNs := doneTs
    ioStatus := if succeeded results then 0 else -1 }
  pure results

def ioRequest (channel : ℤ) (storeId size : ℕ) (addr : String) : IORequestData :=
  ⟨0,channel,storeId,size,0,0,addr⟩

def ioReport (channel : ℤ) (storeId size : ℕ) (addr : String) : IOCompletionData :=
  ⟨0,0,0,0,size,channel,0,storeId,addr⟩

def writeBatch (i : ℕ) (keys : List Key) (buffers : List BufferInfo) :
    ScheduledProg (List StorePutResult) :=
  admitted enabled (ioRequest 1 (D.cfg i).storeId (totalSize buffers) "")
    (ioReport 1 (D.cfg i).storeId (totalSize buffers) "")
    (fun results => results.all fun r => r.status.isOk)
    (ClientOps.atStore i (StoreOps.batchPut (D.cfg i) keys (buffers.map BufferInfo.dataPtr)
      (buffers.map BufferInfo.size)))

def batchPut (keys : List Key) (buffers : List BufferInfo) : ScheduledProg (List Status) :=
  if keys.length ≠ buffers.length then pure [.invalidArg "keys and buffers size mismatch"]
  else match D.localStore client with
    | none => pure [.ioError "local store not set"]
    | some i => do
      let results ← writeBatch D enabled i keys buffers
      work (Prog.forEach (ClientOps.rememberPut D client i) ((keys.zip buffers).zip results))
      pure (results.map StorePutResult.status)

def readLocal (i : ℕ) (fetches : List Fetch) : ScheduledProg (List (ℕ × Fetched)) :=
  if fetches.isEmpty then pure []
  else do
    let size := totalSize (fetches.map Fetch.buffer)
    let (status,buffers) ← admitted enabled (ioRequest 0 (D.cfg i).storeId size "")
      (ioReport 0 (D.cfg i).storeId size "") (fun r => r.1.isOk)
      (ClientOps.forClient i (StoreOps.batchRead (D.cfg i) (fetches.map Fetch.item)))
    pure ((fetches.zip buffers).map fun x => x.1.done status.isOk x.2)

def localReads (fetches : List Fetch) : ScheduledProg (List (ℕ × Fetched)) :=
  match D.localStore client with
  | none => pure []
  | some i => readLocal D enabled i fetches

/-- The status of one request of `NodeLocalAccessor::BatchRead`, and its buffer. -/
def readOpened (x : Fetch × Option ℕ) : ClientProg (Status × Option Bytes) :=
  match x.2 with
  | none =>
    pure (.ioError ("NodeLocalAccessor: no file for store_id " ++ toString x.1.desc.storeId),
      x.1.buffer.dataPtr)
  | some i => ClientOps.readFile D client i x.1

def nodeBatchRead (fetches : List Fetch) : ClientProg (List (Status × Option Bytes)) := do
  let files ← Prog.mapEach (ClientOps.storeFile client) fetches
  Prog.mapEach (readOpened D client) (fetches.zip files)

/-- `LOCAL_SSD_READ`, in the files of other stores; the request names no store. -/
def readNode (fetches : List Fetch) : ScheduledProg (List (ℕ × Fetched)) :=
  if fetches.isEmpty then pure []
  else do
    let size := totalSize (fetches.map Fetch.buffer)
    let results ← admitted enabled (ioRequest 0 0 size "") (ioReport 0 0 size "")
      (fun results => results.all fun r => r.1.isOk) (nodeBatchRead D client fetches)
    pure ((fetches.zip results).map fun x => x.1.done x.2.1.isOk x.2.2)

def readRpc (addr : String) (storeId : ℕ) (fetches : List Fetch) : ScheduledProg (List (ℕ × Fetched)) := do
  let size := totalSize (fetches.map Fetch.buffer)
  let r ← admitted enabled (ioRequest 2 storeId size addr) (ioReport 2 storeId size addr)
    (fun r => r.1.isOk) (ClientOps.remoteBatchRead D addr fetches)
  pure (ClientOps.received fetches r)

def readRemote (fetches : List Fetch) (storeId : ℕ) : ScheduledProg (List (ℕ × Fetched)) :=
  match fetches.filter fun f => f.desc.storeId == storeId with
  | [] => pure []
  | first :: rest => do
    let addr ← work (ClientOps.remoteAddr client first.desc)
    if addr = "" then pure ((first :: rest).map Fetch.failed)
    else readRpc D enabled addr storeId (first :: rest)

def batchGet (items : List (KeyDescriptor × BufferInfo)) : ScheduledProg (List Fetched) := do
  let localResults ← localReads D enabled client (ClientOps.fetchesOf items .localDirect)
  let nodeResults ← readNode D enabled client (ClientOps.fetchesOf items .nodeDirect)
  let remotes := ClientOps.fetchesOf items .remoteRpc
  let remoteResults ← Prog.mapEach (readRemote D enabled client remotes)
    (D.groups (remotes.map fun f => f.desc.storeId))
  let bytesRead := items.map fun x => (⟨0,x.2.dataPtr⟩ : Fetched)
  pure (place (place (place bytesRead localResults) nodeResults) remoteResults.flatten)

def findDescs (keys : List Key) : ClientProg (List KeyDescriptor) := do
  let (hitDescs,missingKeys) ← ClientOps.call (.cacheLookup client keys)
  let records ← ClientOps.unlessEmpty missingKeys (ClientOps.call (.metaBatchLookup client missingKeys))
  let found := records.filter fun rec => rec.key != ""
  Prog.forEach (ClientOps.learn D client) found
  pure (hitDescs ++ found.map (D.client client).remoteDesc)

def batchGetSync (keys : List Key) (buffers : List BufferInfo) : ScheduledProg (List Fetched) :=
  if keys.length ≠ buffers.length then pure (keys.map fun _ => ⟨-1,none⟩)
  else do
    let descs ← work (findDescs D client keys)
    let valid := ClientOps.validReads (descs.foldl ClientOps.emplace ∅) keys buffers
    let results ← batchGet D enabled client (valid.map Prod.fst)
    pure (place (buffers.map fun buffer => ⟨-1,buffer.dataPtr⟩) ((valid.map Prod.snd).zip results))

end ScheduledOps

def ClientOp.runScheduled (D : Deployment) (enabled : Bool) : ClientOp → ScheduledProg ClientReply
  | batchPut client keys buffers =>
    ClientReply.batchPut <$> ScheduledOps.batchPut D enabled client keys buffers
  | batchGetSync client keys buffers =>
    ClientReply.batchGetSync keys buffers <$> ScheduledOps.batchGetSync D enabled client keys buffers
  | op => ScheduledOps.work (op.run D)

namespace ScheduledOps

variable {α β : Type} {D : Deployment} {enabled : Bool} {client i : ℕ}

theorem shows_runScheduler {p : SchedulerProg α} {f : α → ScheduledProg β} {q : ClientProg β}
    (hf : ∀ a, (f a).Shows q) : (runScheduler p >>= f).Shows q := by
  induction p with
  | ret a => exact hf a
  | call op k ih => exact ih

theorem shows_requestIO {request : IORequestData} {f : IOResponseData → ScheduledProg β}
    {q : ClientProg β} (hf : ∀ resp, (f resp).Shows q) : ( requestIO enabled request >>= f).Shows q := by
  cases enabled with
  | false => exact hf _
  | true => exact shows_runScheduler hf

theorem shows_reportIOCompletion {report : IOCompletionData} {f : Unit → ScheduledProg β}
    {q : ClientProg β} (hf : ∀ u, (f u).Shows q) :
    (reportIOCompletion enabled report >>= f).Shows q := by
  cases enabled with
  | false => exact hf _
  | true => exact shows_runScheduler hf

/-- Of an IO that is asked for and reported, the IO is left. -/
theorem shows_admitted {request : IORequestData} {report : IOCompletionData} {succeeded : α → Bool}
    {io : ClientProg α} : (admitted enabled request report succeeded io).Shows io := by
  have hends : (admitted enabled request report succeeded io).Shows (io >>= Prog.ret) := by
    apply Prog.shows_call
    intro requestTs
    apply shows_requestIO
    intro resp
    apply Prog.shows_call
    intro startTs
    apply Prog.shows_bind (Prog.shows_shown io)
    intro results
    apply Prog.shows_call
    intro doneTs
    apply shows_reportIOCompletion
    intro _
    rfl
  rwa [Prog.bind_ret] at hends

theorem shows_batchPut (keys : List Key) (buffers : List BufferInfo) :
    (batchPut D enabled client keys buffers).Shows (ClientOps.batchPut D client keys buffers) := by
  unfold batchPut ClientOps.batchPut
  by_cases hlength : keys.length ≠ buffers.length
  · rw [if_pos hlength, if_pos hlength]
    rfl
  · rw [if_neg hlength, if_neg hlength]
    cases D.localStore client with
    | none => rfl
    | some i =>
      apply Prog.shows_bind shows_admitted
      intro results
      exact Prog.shows_bind (Prog.shows_shown _) fun _ => rfl

theorem shows_localReads (fetches : List Fetch) :
    (localReads D enabled client fetches).Shows (ClientOps.localReads D client fetches) := by
  unfold localReads ClientOps.localReads
  cases D.localStore client with
  | none => rfl
  | some i =>
    cases fetches with
    | nil => rfl
    | cons f fetches => exact Prog.shows_bind shows_admitted fun r => rfl

/-- The answers of the single requests, put together. -/
theorem mapEach_readOpened (fetches : List Fetch) (files : List (Option ℕ)) :
    Prog.mapEach (ClientOps.readOpened D client) (fetches.zip files) =
      Prog.mapEach (readOpened D client) (fetches.zip files) >>= fun results =>
        pure ((fetches.zip results).map fun x => x.1.done x.2.1.isOk x.2.2) := by
  induction fetches generalizing files with
  | nil => rfl
  | cons f fetches ih =>
    cases files with
    | nil => rfl
    | cons file files =>
      rw [List.zip_cons_cons,Prog.mapEach_cons,Prog.mapEach_cons,ih]
      cases file with
      | none => simp [readOpened, ClientOps.readOpened, Fetch.failed]
      | some i => simp [readOpened, ClientOps.readOpened]

theorem readNode_eq (fetches : List Fetch) : ClientOps.readNode D client fetches =
    nodeBatchRead D client fetches >>= fun results =>
      pure ((fetches.zip results).map fun x => x.1.done x.2.1.isOk x.2.2) := by
  rw [nodeBatchRead,Prog.bind_bind]
  exact congrArg _ (funext fun files => mapEach_readOpened fetches files)

theorem shows_readNode (fetches : List Fetch) :
    (readNode D enabled client fetches).Shows (ClientOps.readNode D client fetches) := by
  rw [readNode_eq]
  cases fetches with
  | nil => rfl
  | cons f fetches => exact Prog.shows_bind shows_admitted fun results => rfl

theorem shows_readRpc (addr : String) (storeId : ℕ) (fetches : List Fetch) :
    (readRpc D enabled addr storeId fetches).Shows (ClientOps.readRpc D addr fetches) := by
  rw [ClientOps.readRpc_eq]
  exact Prog.shows_bind shows_admitted fun r => rfl

theorem shows_readRemote (fetches : List Fetch) (storeId : ℕ) :
    (readRemote D enabled client fetches storeId).Shows (ClientOps.readRemote D client fetches storeId) := by
  unfold readRemote ClientOps.readRemote
  cases fetches.filter fun f => f.desc.storeId == storeId with
  | nil => rfl
  | cons first rest =>
    apply Prog.shows_bind (Prog.shows_shown _)
    intro addr
    by_cases haddr : addr = ""
    · rw [if_pos haddr, if_pos haddr]
      rfl
    · rw [if_neg haddr, if_neg haddr]
      exact shows_readRpc addr storeId _

theorem shows_batchGet (items : List (KeyDescriptor × BufferInfo)) :
    (batchGet D enabled client items).Shows (ClientOps.batchGet D client items) := by
  apply Prog.shows_bind (shows_localReads _)
  intro localResults
  apply Prog.shows_bind (shows_readNode _)
  intro nodeResults
  exact Prog.shows_bind (Prog.shows_mapEach (shows_readRemote _) _) fun remoteResults => rfl

theorem batchGetSync_eq (keys : List Key) (buffers : List BufferInfo) :
    ClientOps.batchGetSync D client keys buffers =
      if keys.length ≠ buffers.length then pure (keys.map fun _ => ⟨-1,none⟩)
      else findDescs D client keys >>= fun descs =>
        let valid := ClientOps.validReads (descs.foldl ClientOps.emplace ∅) keys buffers
        ClientOps.batchGet D client (valid.map Prod.fst) >>= fun results =>
          pure (place (buffers.map fun buffer => ⟨-1,buffer.dataPtr⟩)
            ((valid.map Prod.snd).zip results)) := by
  simp [ClientOps.batchGetSync, findDescs]

theorem shows_batchGetSync (keys : List Key) (buffers : List BufferInfo) :
    (batchGetSync D enabled client keys buffers).Shows
      (ClientOps.batchGetSync D client keys buffers) := by
  rw [batchGetSync_eq]
  unfold batchGetSync
  by_cases hlength : keys.length ≠ buffers.length
  · rw [if_pos hlength, if_pos hlength]
    rfl
  · rw [if_neg hlength, if_neg hlength]
    apply Prog.shows_bind (Prog.shows_shown _)
    intro descs
    exact Prog.shows_bind (shows_batchGet _) fun results => rfl

theorem shows_runScheduled (op : ClientOp) : (op.runScheduled D enabled).Shows (op.run D) := by
  cases op with
  | batchPut client keys buffers => exact Prog.shows_bind (shows_batchPut keys buffers) fun _ => rfl
  | batchGetSync client keys buffers =>
    exact Prog.shows_bind (shows_batchGetSync keys buffers) fun _ => rfl
  | store | batchExist => exact Prog.shows_shown _

end ScheduledOps

theorem scheduledMachine_projects (D : Deployment) :
    (scheduledMachine D).Projects (clientMachine D) ScheduledWorld.clients := by
  constructor
  · intro op c r x x' hs
    obtain ⟨y,hy,he⟩ := Option.map_eq_some_iff.mp hs
    cases he
    exact ⟨c.client,hy⟩
  · intro op c r x x' hs
    cases op with
    | atScheduler op =>
      obtain ⟨y,-,he⟩ := Option.map_eq_some_iff.mp hs
      cases he
      rfl
    | getCurrentTimeNs =>
      cases hs
      rfl

def atClients (ok : ReadWorld → ClientCall → Prop) (x : ScheduledWorld) : scheduledCalls.Op → Prop
  | .inl op => ok x.clients op
  | .inr _ => True

/-- Any number of operations of stores and of clients, each with or without a scheduler. -/
abbrev ScheduledRun (D : Deployment) (ok : ReadWorld → ClientCall → Prop) :
    List (Event scheduledCalls ScheduledWorld) → Pool scheduledCalls ScheduledWorld ClientReply → Prop :=
  Run (scheduledMachine D) (fun p => ∃ (op : ClientOp) (enabled : Bool), p = op.runScheduled D enabled)
    (atClients ok) ⟨.init D,[]⟩

/-- Without what is asked of the scheduler, and whatever it answers, a run of clients that ask it is
a run of clients that do not: it makes the same calls with the same answers, and every operation
that has returned has returned the same. -/
theorem scheduled_projects {D : Deployment} {ok : ReadWorld → ClientCall → Prop}
    {tr : List (Event scheduledCalls ScheduledWorld)}
    {P : Pool scheduledCalls ScheduledWorld ClientReply} (hrun : ScheduledRun D ok tr P) :
    ∃ P' : ClientPool, ClientRun D ok (tr.filterMap (Event.shown ScheduledWorld.clients)) P' ∧
      P'.state = P.state.clients ∧ P'.threads.length = P.threads.length ∧
      ∀ (i : ℕ) (reply : ClientReply), P.replies[i]? = some (some reply) →
        P'.replies[i]? = some (some reply) := by
  have hstart : ∀ p, (∃ (op : ClientOp) (enabled : Bool), p = op.runScheduled D enabled) →
      ∃ q, (∃ op : ClientOp, q = op.run D) ∧ p.Shows q := by
    rintro p ⟨op,enabled,rfl⟩
    exact ⟨_,⟨op,rfl⟩,ScheduledOps.shows_runScheduled op⟩
  obtain ⟨ts,hts,hshown⟩ := hrun.project (scheduledMachine_projects D) hstart fun _ _ hok => hok
  exact ⟨_,hshown,rfl,hts.length_eq.symm,fun i reply hi => replies_of_shows hts hi⟩

namespace ScheduledIO

def putFirst : ClientOp := .batchPut 0 ["a"] [⟨Release.value 1,8⟩]

end ScheduledIO

open ScheduledIO in
/-- A put with a scheduler, and without it. -/
theorem scheduled_projects_put : ∃ (tr : List (Event scheduledCalls ScheduledWorld))
    (P : Pool scheduledCalls ScheduledWorld ClientReply) (P' : ClientPool),
      ScheduledRun ClientOps.twoStores (fun _ _ => True) tr P ∧ tr.length = 17 ∧
      ClientRun ClientOps.twoStores (fun _ _ => True) (tr.filterMap (Event.shown ScheduledWorld.clients)) P' ∧
      P'.replies[0]? = some (some (.batchPut [.OK])) := by
  have hstart : ∀ p ∈ [putFirst.runScheduled ClientOps.twoStores true],
      ∃ (op : ClientOp) (enabled : Bool), p = op.runScheduled ClientOps.twoStores enabled := by
    intro p hp
    exact ⟨putFirst,true,List.mem_singleton.mp hp⟩
  have hfollow : (Pool.follow (M := scheduledMachine ClientOps.twoStores) (fun _ _ => true)
      (List.replicate 17 (0,{})) ⟨.init ClientOps.twoStores,[putFirst.runScheduled ClientOps.twoStores true]⟩).map
        (fun y => (y.1.length,y.2.replies)) = some (17,[some (.batchPut [.OK])]) := rfl
  obtain ⟨tr,P,hrun,hP⟩ := run_of_schedule _ hstart hfollow
  obtain ⟨hlength,hreplies⟩ := Prod.mk.inj hP
  have hscheduled : ScheduledRun ClientOps.twoStores (fun _ _ => True) tr P := by
    apply hrun.ok_mono
    rintro x (op | op) _ <;> trivial
  obtain ⟨P',hplain,-,-,hreturned⟩ := scheduled_projects hscheduled
  refine ⟨tr,P,P',hscheduled,hlength,hplain,hreturned 0 _ ?_⟩
  rw [hreplies]
  rfl

end FalconKV
