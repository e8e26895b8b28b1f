import FalconKV.AtomicCalls.Ledgers
import FalconKV.Meta.SyncClient

/-! # The background threads of a Meta client

A client has two background loops, one that commits what is queued and one that reconnects.
A loop has a flag and a thread. Connecting and the loops are programs over the calls of a
cluster and of the loops.
-/
namespace FalconKV
open AtomicCalls

inductive ClientLoop
  | asyncCommit
  | reconnect
  deriving DecidableEq, Repr

inductive ClientThread
  | absent
  | atLoop
  | inRound
  | returned
  deriving DecidableEq, Repr

structure ClientLoopState where
  running : Bool
  thread : ClientThread
  deriving DecidableEq, Repr

structure MetaClient where
  cluster : Cluster
  metaAddr : String
  loop : ClientLoop → ClientLoopState

inductive MetaClientCall
  | atCluster (op : ClusterCall)
  | setMetaAddr (addr : String)
  | loadMetaAddr
  | loadRunning (l : ClientLoop)
  | storeRunning (l : ClientLoop) (value : Bool)
  | startThread (l : ClientLoop)
  | notifyAll (l : ClientLoop)
  /-- `join`, if the thread is joinable -/
  | joinThread (l : ClientLoop)
  /-- the test of the flag by the thread, which leaves its loop if the flag is false -/
  | beginRound (l : ClientLoop)
  /-- the same after the wait of the reconnect loop -/
  | testRunning (l : ClientLoop)
  /-- the wait for commits and what follows with the mutex held -/
  | takeCommits
  | endRound (l : ClientLoop)

abbrev MetaClientCall.Res : MetaClientCall → Type
  | atCluster op => op.Res
  | loadMetaAddr => String
  | loadRunning _ | beginRound _ | testRunning _ => Bool
  | takeCommits => Option (List PendingCommit)
  | setMetaAddr _ | storeRunning .. | startThread _ | notifyAll _ | joinThread _ | endRound _ => Unit

abbrev metaClientCalls : Signature := ⟨MetaClientCall,MetaClientCall.Res⟩

abbrev MetaClientProg := Prog metaClientCalls

namespace MetaClient

def create (cluster : Cluster) : MetaClient := ⟨cluster,"",fun _ => ⟨false,.absent⟩⟩

def setLoop (s : MetaClient) (l : ClientLoop) (x : ClientLoopState) : MetaClient :=
  { s with loop := Function.update s.loop l x }

@[simp] theorem loop_setLoop (s : MetaClient) (l : ClientLoop) (x : ClientLoopState) :
    (s.setLoop l x).loop l = x := Function.update_self ..

theorem loop_setLoop_ne {s : MetaClient} {l l' : ClientLoop} {x : ClientLoopState} (h : l' ≠ l) :
    (s.setLoop l x).loop l' = s.loop l' := Function.update_of_ne h ..

def setThread (s : MetaClient) (l : ClientLoop) (thread : ClientThread) : MetaClient :=
  s.setLoop l { s.loop l with thread := thread }

def goOn (s : MetaClient) (l : ClientLoop) : Bool × MetaClient :=
  ((s.loop l).running,s.setThread l (if (s.loop l).running then .inRound else .returned))

/-- The commit thread of node `i` waits until something is queued or the flag is false. It
returns if the flag is false and nothing is queued, else it takes the whole queue. -/
def takeCommits (i : ℕ) (s : MetaClient) : Option (Option (List PendingCommit) × MetaClient) :=
  if (s.cluster.node i).pendingCommits.isEmpty then
    if (s.loop .asyncCommit).running then none
    else some (none,s.setThread .asyncCommit .returned)
  else some (some (s.cluster.node i).pendingCommits,{ s with
    cluster := s.cluster.setNode i { s.cluster.node i with pendingCommits := [] } })

def step (i : ℕ) (op : MetaClientCall) (c : ClusterChoice) (s : MetaClient) :
    Option (op.Res × MetaClient) :=
  match op with
  | .atCluster op => (s.cluster.step false op c).map fun x => (x.1,{ s with cluster := x.2 })
  | .setMetaAddr addr => some ((),{ s with metaAddr := addr })
  | .loadMetaAddr => some (s.metaAddr,s)
  | .loadRunning l => some ((s.loop l).running,s)
  | .storeRunning l value => some ((),s.setLoop l { s.loop l with running := value })
  | .startThread l =>
    if (s.loop l).thread = .absent then some ((),s.setThread l .atLoop) else none
  | .notifyAll _ => some ((),s)
  | .joinThread l =>
    match (s.loop l).thread with
    | .absent | .returned => some ((),s.setThread l .absent)
    | _ => none
  | .beginRound l => if (s.loop l).thread = .atLoop then some (s.goOn l) else none
  | .testRunning l => if (s.loop l).thread = .inRound then some (s.goOn l) else none
  | .takeCommits => if (s.loop .asyncCommit).thread = .inRound then s.takeCommits i else none
  | .endRound l => if (s.loop l).thread = .inRound then some ((),s.setThread l .atLoop) else none

/-- The flag of the client of node `i`. -/
def connected (s : MetaClient) (i : ℕ) : Bool := (s.cluster.node i).connected

/-- The thread was started and has not returned. -/
def Runs (s : MetaClient) (l : ClientLoop) : Prop :=
  (s.loop l).thread = .atLoop ∨ (s.loop l).thread = .inRound

end MetaClient

def metaClientMachine (i : ℕ) : Machine metaClientCalls MetaClient :=
  ⟨ClusterChoice,MetaClient.step i⟩

namespace MetaClientOps

abbrev ask (op : MetaClientCall) : MetaClientProg op.Res := Prog.perform (E := metaClientCalls) op

def lift {α : Type} (p : ClusterProg α) : MetaClientProg α := p.interp fun op => ask (.atCluster op)

def startLoop (l : ClientLoop) : MetaClientProg Unit := do
  let running ← ask (.loadRunning l)
  if running then pure ()
  else do
    ask (.storeRunning l true)
    ask (.startThread l)

def stopLoop (l : ClientLoop) : MetaClientProg Unit := do
  let running ← ask (.loadRunning l)
  if !running then pure ()
  else do
    ask (.storeRunning l false)
    ask (.notifyAll l)
    ask (.joinThread l)

def startAsyncCommitThread : MetaClientProg Unit := startLoop .asyncCommit

def stopAsyncCommitThread : MetaClientProg Unit := stopLoop .asyncCommit

def startReconnectLoop : MetaClientProg Unit := startLoop .reconnect

def stopReconnectLoop : MetaClientProg Unit := stopLoop .reconnect

def destroy : MetaClientProg Unit := do
  stopAsyncCommitThread
  stopReconnectLoop

def tryConnect (i : ℕ) (addr : String) : MetaClientProg Status :=
  if addr.isEmpty then pure .OK
  else do
    let ok ← ask (.atCluster (.initChannel i))
    if ok then do
      ask (.atCluster (.storeConnected i true true))
      pure .OK
    else pure (.rpcError ("MetaSyncClient: failed to connect to meta at " ++ addr))

/-- No lock protects `meta_addr_`: a call reads back what it has stored itself. -/
def connect (i : ℕ) (info : StoreInfo) (addr : String) : MetaClientProg Status := do
  ask (.setMetaAddr addr)
  if addr.isEmpty then pure .OK
  else do
    let s ← tryConnect i addr
    if s.isOk then do
      lift (MetaSyncClient.fullResync i info)
      startAsyncCommitThread
      pure .OK
    else pure .OK

def reconnectRound (i : ℕ) (info : StoreInfo) : MetaClientProg Unit := do
  let running ← ask (.beginRound .reconnect)
  if !running then pure ()
  else do
    let running ← ask (.testRunning .reconnect)
    if !running then pure ()
    else do
      let connected ← ask (.atCluster (.loadConnected i false))
      if connected then ask (.endRound .reconnect)
      else do
        let addr ← ask .loadMetaAddr
        let s ← tryConnect i addr
        if s.isOk then do
          lift (MetaSyncClient.fullResync i info)
          ask (.endRound .reconnect)
        else ask (.endRound .reconnect)

def commitRound (i : ℕ) : MetaClientProg Unit := do
  let running ← ask (.beginRound .asyncCommit)
  if !running then pure ()
  else do
    let batch ← ask .takeCommits
    match batch with
    | none => pure ()
    | some [] => ask (.endRound .asyncCommit)
    | some (first :: rest) => do
      let merged := (first :: rest).flatMap PendingCommit.records
      let _ ← lift (MetaSyncClient.syncCommit i first.storeId merged [])
      ask (.endRound .asyncCommit)

end MetaClientOps

/-- What may be started on the client of node `i`, the rounds of its loops, and what the
store of the node, the other nodes and Meta do. -/
inductive MetaClientOp
  | connect (info : StoreInfo) (addr : String)
  | startReconnectLoop
  | stopReconnectLoop
  | destroy
  | commitRound
  | reconnectRound (info : StoreInfo)
  | syncCommit (storeId : ℕ) (records : List StoreKeyRecord)
  | asyncCommit (storeId : ℕ) (records : List StoreKeyRecord)
  | syncRemove (storeId : ℕ) (keys : List Key)
  | registerStore (info : StoreInfo)
  | around (op : ClusterOp)

/-- The rounds of the loops of node `i` are not among what is around its client. -/
def MetaClientOp.Admitted (i : ℕ) : MetaClientOp → Prop
  | around (.commitRound j) | around (.reconnectRound j _) => j ≠ i
  | _ => True

/-- A thread answers nothing. -/
def MetaClientOp.run (cfg : ℕ → StoreConfig) (i : ℕ) : MetaClientOp → MetaClientProg Unit
  | connect info addr => (fun _ => ()) <$> MetaClientOps.connect i info addr
  | startReconnectLoop => MetaClientOps.startReconnectLoop
  | stopReconnectLoop => MetaClientOps.stopReconnectLoop
  | destroy => MetaClientOps.destroy
  | commitRound => MetaClientOps.commitRound i
  | reconnectRound info => MetaClientOps.reconnectRound i info
  | syncCommit storeId records =>
    (fun _ => ()) <$> MetaClientOps.lift (MetaSyncClient.syncCommit i storeId records [])
  | asyncCommit storeId records => MetaClientOps.lift (MetaSyncClient.asyncCommit i storeId records)
  | syncRemove storeId keys =>
    (fun _ => ()) <$> MetaClientOps.lift (MetaSyncClient.syncRemove i storeId keys)
  | registerStore info => (fun _ => ()) <$> MetaClientOps.lift (MetaSyncClient.registerStore i info)
  | around op => (fun _ => ()) <$> MetaClientOps.lift (op.run cfg)

/-- Any threads around a new client of node `i`. -/
abbrev MetaClientRun (cfg : ℕ → StoreConfig) (i : ℕ) (cluster : Cluster)
    (tr : List (Event metaClientCalls MetaClient)) (Q : Pool metaClientCalls MetaClient Unit) : Prop :=
  Run (metaClientMachine i) (fun p => ∃ op : MetaClientOp, op.Admitted i ∧ p = op.run cfg i)
    (fun _ _ => True) ⟨.create cluster,[]⟩ tr Q

end FalconKV
