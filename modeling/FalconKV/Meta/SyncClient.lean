import FalconKV.Meta.Cluster

/-! # The Meta client of a store, and the handlers it calls

The texts of failed remote calls end with what brpc says of the failure, which is left out.
-/
namespace FalconKV
open AtomicCalls

abbrev ClusterProg := Prog clusterCalls

abbrev invokeCluster (op : ClusterCall) : ClusterProg op.Res := Prog.perform (E := clusterCalls) op

namespace MetaService

def syncCommit (incarnation storeId : ℕ) (descs : List KeyDesc) : ClusterProg (Option Status) := do
  let now ← invokeCluster .steadyNowMs
  let n ← invokeCluster .shardCount
  Prog.forEach (fun shard => invokeCluster
    (.commitShard incarnation shard storeId now (descs.map (KeyDesc.toKeyRecord storeId))))
    (List.range n)
  pure (some .OK)

def syncRemove (incarnation storeId : ℕ) (keys : List Key) : ClusterProg (Option Status) := do
  let n ← invokeCluster .shardCount
  Prog.forEach (fun shard => invokeCluster (.removeShard incarnation shard storeId keys))
    (List.range n)
  pure (some .OK)

def storeRegister (incarnation : ℕ) (info : StoreInfo) : ClusterProg (Option Status) :=
  invokeCluster (.register incarnation info)

end MetaService

def rpc (carries : List KeyDesc) (serve : ℕ → ClusterProg (Option Status)) :
    ClusterProg (Option Status) := do
  let request ← invokeCluster (.deliver carries)
  match request with
  | none => pure none
  | some (incarnation,answers) => do
    let served ← serve incarnation
    match served with
    | none => pure none
    | some s => do
      let ok ← invokeCluster (.answer incarnation answers)
      pure (if ok then some s else none)

namespace MetaSyncClient

def commitStatus (s : Status) : Status :=
  if s.isOk then .OK else .corruption ("SyncCommit failed with status: " ++ toString s.code.toNat)

/-- The caller goes on with the records `later` if the commit succeeds. -/
def syncCommit (i storeId : ℕ) (records later : List StoreKeyRecord) : ClusterProg Status := do
  let c ← invokeCluster (.loadConnected i (!records.isEmpty))
  if !c then pure .OK
  else do
    let carries := records.map StoreKeyRecord.desc
    let first ← rpc carries fun incarnation => MetaService.syncCommit incarnation storeId carries
    match first with
    | some s => pure (commitStatus s)
    | none => do
      invokeCluster (.storeConnected i false false)
      let retry ← rpc carries fun incarnation => MetaService.syncCommit incarnation storeId carries
      match retry with
      | none => do
        invokeCluster (.giveUp i ((records ++ later).map StoreKeyRecord.desc))
        pure (.rpcError "SyncCommit RPC failed")
      | some s => do
        invokeCluster (.storeConnected i true false)
        pure (commitStatus s)

def asyncCommit (i storeId : ℕ) (records : List StoreKeyRecord) : ClusterProg Unit :=
  if records.isEmpty then pure () else invokeCluster (.pushCommit i ⟨storeId,records⟩)

def commitRound (i : ℕ) : ClusterProg Unit := do
  let batch ← invokeCluster (.drainCommits i)
  match batch with
  | [] => pure ()
  | first :: rest => do
    let merged := (first :: rest).flatMap PendingCommit.records
    let _ ← syncCommit i first.storeId merged []
    pure ()

def syncRemove (i storeId : ℕ) (keys : List Key) : ClusterProg Status := do
  let c ← invokeCluster (.loadConnected i false)
  if !c then pure .OK
  else do
    let r ← rpc [] fun incarnation => MetaService.syncRemove incarnation storeId keys
    match r with
    | none => do
      invokeCluster (.storeConnected i false false)
      pure (.rpcError "SyncRemove RPC failed")
    | some s =>
      pure (if s.isOk then .OK
        else .corruption ("SyncRemove failed with status: " ++ toString s.code.toNat))

def registerStore (i : ℕ) (info : StoreInfo) : ClusterProg Status := do
  let c ← invokeCluster (.loadConnected i true)
  if !c then pure .OK
  else do
    let r ← rpc [] fun incarnation => MetaService.storeRegister incarnation info
    match r with
    | none => do
      invokeCluster (.storeConnected i false false)
      pure (.rpcError "RegisterStore RPC failed")
    | some s =>
      pure (if s.isOk then .OK else .corruption ("RegisterStore failed: " ++ s.msg))

def registerAttempts (i : ℕ) (info : StoreInfo) : ℕ → Status → ClusterProg Status
  | 0, s => pure s
  | attempts + 1, _ => do
    let s ← registerStore i info
    if s.isOk then pure s else registerAttempts i info attempts s

/-- Consecutive batches of `n` elements; the fuel is the number of elements. -/
def batches {α : Type} (n : ℕ) : ℕ → List α → List (List α)
  | 0, _ => []
  | _, [] => []
  | fuel + 1, x :: xs => (x :: xs).take n :: batches n fuel ((x :: xs).drop n)

def pushBatches (i storeId : ℕ) : List (List StoreKeyRecord) → ClusterProg Unit
  | [] => pure ()
  | batch :: rest => do
    let s ← syncCommit i storeId batch rest.flatten
    if !s.isOk then pure () else pushBatches i storeId rest

def fullResync (i : ℕ) (info : StoreInfo) : ClusterProg Unit := do
  let s ← registerAttempts i info 3 .OK
  if !s.isOk then invokeCluster (.storeConnected i false true)
  else do
    let entries ← invokeCluster (.committedEntries i)
    pushBatches i info.storeId (batches 256 entries.length entries)

/-- `TryConnect` and what its callers do next; the address of Meta is not empty. -/
def tryConnect (i : ℕ) (info : StoreInfo) : ClusterProg Unit := do
  let ok ← invokeCluster (.initChannel i)
  if ok then do
    invokeCluster (.storeConnected i true true)
    fullResync i info
  else pure ()

def reconnectRound (i : ℕ) (info : StoreInfo) : ClusterProg Unit := do
  let c ← invokeCluster (.loadConnected i false)
  if c then pure () else tryConnect i info

end MetaSyncClient

def atNode (i : ℕ) : (op : StoreCall) → ClusterProg op.Res
  | .syncCommit storeId records => MetaSyncClient.syncCommit i storeId records []
  | .asyncCommit storeId records => MetaSyncClient.asyncCommit i storeId records
  | .syncRemove storeId keys => MetaSyncClient.syncRemove i storeId keys
  | op => invokeCluster (.atStore i op)

inductive ClusterOp
  | store (i : ℕ) (op : StoreOp)
  | commitRound (i : ℕ)
  | reconnectRound (i : ℕ) (info : StoreInfo)
  /-- a commit or a removal that Meta serves after its caller has given up -/
  | lateCommit (storeId : ℕ) (descs : List KeyDesc)
  | lateRemove (storeId : ℕ) (keys : List Key)
  | restartMeta

def ClusterOp.run (cfg : ℕ → StoreConfig) : ClusterOp → ClusterProg (Option StoreReply)
  | store i op => some <$> (op.run (cfg i)).interp (atNode i)
  | commitRound i => (fun _ => none) <$> MetaSyncClient.commitRound i
  | reconnectRound i info => (fun _ => none) <$> MetaSyncClient.reconnectRound i info
  | lateCommit storeId descs => do
    let request ← invokeCluster (.deliver descs)
    match request with
    | none => pure none
    | some (incarnation,_) => do
      let _ ← MetaService.syncCommit incarnation storeId descs
      pure none
  | lateRemove storeId keys => do
    let request ← invokeCluster (.deliver [])
    match request with
    | none => pure none
    | some (incarnation,_) => do
      let _ ← MetaService.syncRemove incarnation storeId keys
      pure none
  | restartMeta => do
    invokeCluster .restartMeta
    pure none

abbrev ClusterEvent := Event clusterCalls Cluster
abbrev ClusterPool := Pool clusterCalls Cluster (Option StoreReply)

/-- Any of the admitted threads, started at any time, in any interleaving of their calls. -/
abbrev ClusterRun (cfg : ℕ → StoreConfig) (reliable : Bool) (admitted : ClusterOp → Prop)
    (ok : Cluster → ClusterCall → Prop) (P : ClusterPool) (tr : List ClusterEvent)
    (P' : ClusterPool) : Prop :=
  Run (clusterMachine reliable) (fun p => ∃ op, admitted op ∧ p = ClusterOp.run cfg op) ok P tr P'

/-- A schedule of threads that start when nothing else runs. -/
theorem clusterRun_of_schedule (cfg : ℕ → StoreConfig) (reliable : Bool)
    (admitted : ClusterOp → Prop) (check : Cluster → ClusterCall → Bool) (w : Cluster)
    (ops : List ClusterOp) (sched : List (ℕ × ClusterChoice)) {γ : Type}
    {f : List ClusterEvent × ClusterPool → γ} {v : γ} (hops : ∀ op ∈ ops, admitted op)
    (h : (Pool.follow (M := clusterMachine reliable) check sched
      ⟨w,ops.map (ClusterOp.run cfg)⟩).map f = some v) :
    ∃ tr P, ClusterRun cfg reliable admitted (fun w op => check w op = true) ⟨w,[]⟩ tr P ∧
      f (tr,P) = v := by
  refine run_of_schedule _ ?_ h
  intro p hp
  obtain ⟨op,hop,rfl⟩ := List.mem_map.mp hp
  exact ⟨op,hops op hop,rfl⟩

namespace MetaService

variable {reliable : Bool} {w : Cluster} {storeId : ℕ}

theorem wp_visitCommits (now : ℕ) (records : List KeyRecord) (shards : List ℕ) :
    wp (clusterMachine reliable) (fun _ _ => True)
      (fun _ w' => w' = { w with
        directory := shards.foldl (MetaManager.visitCommit storeId now records) w.directory })
      (Prog.forEach (fun shard => invokeCluster
        (.commitShard w.incarnation shard storeId now records)) shards) w := by
  induction shards generalizing w with
  | nil => rfl
  | cons shard shards ih =>
    refine wp_perform trivial fun c r w₁ h => ?_
    cases h
    rw [if_pos rfl]
    exact ih (w := { w with directory := _ })

theorem wp_syncCommit (descs : List KeyDesc) :
    wp (clusterMachine reliable) (fun _ _ => True)
      (fun s w' => s = some .OK ∧ ∃ now, w' = { w with
        directory := w.directory.syncCommit storeId now (descs.map (KeyDesc.toKeyRecord storeId)) })
      (syncCommit w.incarnation storeId descs) w := by
  refine wp_perform trivial fun c now w₁ h => ?_
  cases h
  refine wp_perform trivial fun c n w₁ h => ?_
  cases h
  exact wp_bind.mpr (wp_mono (wp_visitCommits _ _ _) fun _ _ h => ⟨rfl,_,h⟩)

end MetaService

end FalconKV
