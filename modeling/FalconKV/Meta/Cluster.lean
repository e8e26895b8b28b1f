import FalconKV.Meta.MetaManager
import FalconKV.Store.Programs

/-! # Stores and the Meta server they share

A remote call is made of atomic steps: the request reaches Meta or is lost, the handler
visits one shard after the other, and the answer comes back or does not. A handler
belongs to one incarnation of Meta; a restart of Meta leaves it without effect.
-/
namespace FalconKV
open AtomicCalls

structure KeyDesc where
  key : Key
  offset : ℕ
  size : ℕ
  deriving DecidableEq, Repr

def StoreKeyRecord.desc (rec : StoreKeyRecord) : KeyDesc := ⟨rec.key,rec.offset,rec.size⟩

def KeyDesc.toKeyRecord (storeId : ℕ) (desc : KeyDesc) : KeyRecord :=
  { KeyRecord.blank with key := desc.key, storeId := storeId, offset := desc.offset, size := desc.size }

structure PendingCommit where
  storeId : ℕ
  records : List StoreKeyRecord

structure Node where
  store : Store
  connected : Bool
  pendingCommits : List PendingCommit

structure Cluster where
  directory : MetaManager
  /-- how often Meta was restarted -/
  incarnation : ℕ
  node : ℕ → Node

inductive Duty
  /-- bring a record to Meta -/
  | commit (desc : KeyDesc)
  /-- take a key out of the index that Meta has dropped -/
  | drop (key : Key)
  /-- register the store, and bring every record to Meta -/
  | resync
  /-- the store is registered: bring every record to Meta -/
  | listing
  deriving DecidableEq, Repr

def commits (records : List StoreKeyRecord) : List Duty :=
  records.map fun rec => .commit rec.desc

inductive ClusterCall
  /-- a call inside one store -/
  | atStore (i : ℕ) (op : StoreCall)
  /-- `connected_.load()`; whether the caller skips a commit or a registration when it is false -/
  | loadConnected (i : ℕ) (skips : Bool)
  /-- `connected_.store(value)`; whether a full resync begins with it, or is given up -/
  | storeConnected (i : ℕ) (value resync : Bool)
  | initChannel (i : ℕ)
  | pushCommit (i : ℕ) (commit : PendingCommit)
  | drainCommits (i : ℕ)
  /-- `GetAllCommittedEntries`, as a full resync calls it -/
  | committedEntries (i : ℕ)
  /-- the request of a remote call; the records it carries -/
  | deliver (carries : List KeyDesc)
  | steadyNowMs
  | shardCount
  | commitShard (incarnation shard storeId now : ℕ) (records : List KeyRecord)
  | removeShard (incarnation shard storeId : ℕ) (keys : List Key)
  | register (incarnation : ℕ) (info : StoreInfo)
  | answer (incarnation : ℕ) (arrives : Bool)
  /-- the error log of a commit whose retry failed too, and on what is given up with it -/
  | giveUp (i : ℕ) (descs : List KeyDesc)
  | restartMeta

abbrev ClusterCall.Res : ClusterCall → Type
  | atStore _ op => op.Res
  | loadConnected .. => Bool
  | storeConnected .. => Unit
  | initChannel _ => Bool
  | pushCommit .. => Unit
  | drainCommits _ => List PendingCommit
  | committedEntries _ => List StoreKeyRecord
  | deliver _ => Option (ℕ × Bool)
  | steadyNowMs => ℕ
  | shardCount => ℕ
  | commitShard .. => Unit
  | removeShard .. => Unit
  | register .. => Option Status
  | answer .. => Bool
  | giveUp .. => Unit
  | restartMeta => Unit

abbrev clusterCalls : Signature := ⟨ClusterCall,ClusterCall.Res⟩

/-- What the surroundings decide in one call: those of the store, whether a request
arrives and its answer will, and whether a channel can be made. -/
structure ClusterChoice where
  store : StoreChoice := {}
  arrives : Bool := true
  answers : Bool := true
  channel : Bool := true
  now : ℕ := 0

namespace Cluster

/-- New stores next to a new Meta. -/
def init (hash : Key → ℕ) (shardCount : ℕ) (h : 0 < shardCount) (cfg : ℕ → StoreConfig)
    (connected : Bool) : Cluster where
  directory := .create hash shardCount h
  incarnation := 0
  node := fun i => ⟨.init (cfg i),connected,[]⟩

def setNode (w : Cluster) (i : ℕ) (n : Node) : Cluster :=
  { w with node := Function.update w.node i n }

@[simp] theorem node_setNode (w : Cluster) (i : ℕ) (n : Node) : (w.setNode i n).node i = n := by
  simp [setNode]

theorem node_setNode_ne {i j : ℕ} (w : Cluster) (n : Node) (h : j ≠ i) :
    (w.setNode i n).node j = w.node j := by
  simp [setNode, h]

def step (reliable : Bool) (op : ClusterCall) (c : ClusterChoice) (w : Cluster) :
    Option (op.Res × Cluster) :=
  match op with
  | .atStore i op =>
    ((w.node i).store.step op c.store).map fun x => (x.1,w.setNode i { w.node i with store := x.2 })
  | .loadConnected i _ => some ((w.node i).connected,w)
  | .storeConnected i value _ => some ((),w.setNode i { w.node i with connected := value })
  | .initChannel _ => some (c.channel,w)
  | .pushCommit i commit =>
    some ((),w.setNode i
      { w.node i with pendingCommits := (w.node i).pendingCommits ++ [commit] })
  | .drainCommits i =>
    some ((w.node i).pendingCommits,w.setNode i { w.node i with pendingCommits := [] })
  | .committedEntries i => some ((w.node i).store.index.getAllCommittedEntries,w)
  | .deliver _ =>
    if reliable && !(c.arrives && c.answers) then none
    else some (if c.arrives then some (w.incarnation,c.answers) else none,w)
  | .steadyNowMs => some (c.now,w)
  | .shardCount => some (w.directory.shardCount,w)
  | .commitShard incarnation shard storeId now records =>
    some ((),if incarnation = w.incarnation then
      { w with directory := w.directory.visitCommit storeId now records shard } else w)
  | .removeShard incarnation shard _ keys =>
    some ((),if incarnation = w.incarnation then
      { w with directory := w.directory.visitRemove keys shard } else w)
  | .register incarnation info =>
    if incarnation = w.incarnation then
      some (some (w.directory.registerStore info).1,
        { w with directory := (w.directory.registerStore info).2 })
    else some (none,w)
  | .answer incarnation arrives => some (arrives && incarnation == w.incarnation,w)
  | .giveUp .. => some ((),w)
  | .restartMeta =>
    if reliable then none
    else some ((),{ w with
      directory := .create w.directory.hash w.directory.shardCount w.directory.shardCount_pos
      incarnation := w.incarnation + 1 })

end Cluster

def clusterMachine (reliable : Bool) : Machine clusterCalls Cluster :=
  ⟨ClusterChoice,Cluster.step reliable⟩

end FalconKV
