import FalconKV.Meta.Promises

/-! # How the client of a store meets its duties

Over a reliable network the Meta client of a store brings every commit it is given to
Meta, directly or through its queue, and every removal it confirms was served by Meta.
A record without a key is the exception: the handler leaves it out.
-/
namespace FalconKV
open AtomicCalls

structure Placing where
  node : ℕ
  storeId : ℕ
  hash : Key → ℕ
  shardCount : ℕ
  shardCount_pos : 0 < shardCount

namespace Placing

def shardOf (p : Placing) (key : Key) : ℕ := p.hash key % p.shardCount

theorem shardOf_lt (p : Placing) (key : Key) : p.shardOf key < p.shardCount :=
  Nat.mod_lt _ p.shardCount_pos

def commitsIn (p : Placing) (descs : List KeyDesc) (shard : ℕ) : Multiset Duty :=
  ((descs : Multiset KeyDesc).filter fun d => d.key ≠ "" ∧ p.shardOf d.key = shard).map Duty.commit

def dropsIn (p : Placing) (keys : List Key) (shard : ℕ) : Multiset Duty :=
  ((keys : Multiset Key).filter fun k => p.shardOf k = shard).map Duty.drop

end Placing

def nameless (descs : List KeyDesc) : Multiset Duty :=
  ((descs : Multiset KeyDesc).filter fun d => d.key = "").map Duty.commit

namespace Delivery

def guar (p : Placing) : (op : ClusterCall) → op.Res → Prop
  | .loadConnected .., c => c = true
  | .drainCommits i, batch => i = p.node → ∀ x ∈ batch, x.storeId = p.storeId
  | .deliver _, request => request = some (0,true)
  | .shardCount, n => n = p.shardCount
  | .answer incarnation arrives, ok => incarnation = 0 → arrives = true → ok = true
  | _, _ => True

def rule (p : Placing) : (op : ClusterCall) → op.Res → Multiset Duty → Multiset Duty → Prop
  | .atStore i op, r, used, made =>
    i = p.node ∧ op.isLocal = true ∧ Promise.rule p.storeId op r used made
  | .pushCommit i commit, _, used, made =>
    i = p.node ∧ commit.storeId = p.storeId ∧ made = 0 ∧ used = commits commit.records
  | .drainCommits i, batch, used, made =>
    i = p.node ∧ used = 0 ∧ made = commits (batch.flatMap PendingCommit.records)
  | .commitShard incarnation shard storeId _ records, _, used, made =>
    incarnation = 0 ∧ storeId = p.storeId ∧ made = 0 ∧ ∃ descs : List KeyDesc,
      records = descs.map (KeyDesc.toKeyRecord storeId) ∧ used = p.commitsIn descs shard
  | .removeShard incarnation shard _ keys, _, used, made =>
    incarnation = 0 ∧ used = 0 ∧ made = p.dropsIn keys shard
  | .answer .., _, used, made => made = 0 ∧ ∃ descs, used = nameless descs
  | .storeConnected .., _, _, _ | .register .., _, _, _ | .giveUp .., _, _, _
  | .restartMeta, _, _, _ => False
  | _, _, used, made => used = 0 ∧ made = 0

end Delivery

def deliveries (p : Placing) : Discipline clusterCalls (Multiset Duty) :=
  ⟨Delivery.guar p,Delivery.rule p⟩

variable {p : Placing} {α : Type}

/-- The duties of a request are those of its shards. -/
theorem split_commitsIn (descs : List KeyDesc) :
    Split (fun shard g => g = p.commitsIn descs shard) (List.range p.shardCount)
      (((descs : Multiset KeyDesc).filter fun d => d.key ≠ "").map Duty.commit) := by
  have h := split_classes (fun d : KeyDesc => p.shardOf d.key) Duty.commit
    ((descs : Multiset KeyDesc).filter fun d => d.key ≠ "") (fun d => p.shardOf_lt d.key)
  refine h.mono ?_
  rintro shard - g rfl
  rw [Multiset.filter_filter, Placing.commitsIn]
  simp only [and_comm]

theorem split_dropsIn (keys : List Key) :
    Split (fun shard g => g = p.dropsIn keys shard) (List.range p.shardCount)
      (keys.map Duty.drop : List Duty) := by
  have h := split_classes p.shardOf Duty.drop (keys : Multiset Key) p.shardOf_lt
  rwa [Multiset.map_coe] at h

theorem commits_eq_named_add_nameless (descs : List KeyDesc) :
    ((descs.map Duty.commit : List Duty) : Multiset Duty) =
      ((descs : Multiset KeyDesc).filter fun d => d.key ≠ "").map Duty.commit + nameless descs := by
  rw [nameless, ← Multiset.map_add, add_comm, Multiset.filter_add_not, Multiset.map_coe]

theorem uses_serveCommit (descs : List KeyDesc) :
    Uses (deliveries p) (fun s g => s = some .OK ∧ g = nameless descs)
      (MetaService.syncCommit 0 p.storeId descs) (descs.map Duty.commit : List Duty) := by
  refine uses_idle (fun _ => ⟨rfl,rfl⟩) fun now _ => ?_
  refine uses_idle (fun _ => ⟨rfl,rfl⟩) fun n hn => ?_
  obtain rfl : n = p.shardCount := hn
  have hshards : Uses (deliveries p) (fun _ g => g = 0) (Prog.forEach (fun shard => invokeCluster
      (.commitShard 0 shard p.storeId now (descs.map (KeyDesc.toKeyRecord p.storeId))))
      (List.range p.shardCount))
      (((descs : Multiset KeyDesc).filter fun d => d.key ≠ "").map Duty.commit) := by
    refine uses_forEach ((split_commitsIn descs).mono ?_)
    rintro shard - g rfl _ _
    exact ⟨_,0,0,⟨rfl,rfl,rfl,descs,rfl,rfl⟩,(add_zero _).symm,rfl⟩
  refine uses_bind_frame (commits_eq_named_add_nameless descs) hshards ?_
  rintro _ _ rfl
  exact ⟨rfl,zero_add _⟩

theorem uses_serveRemove (keys : List Key) :
    Uses (deliveries p) (fun s g => s = some .OK ∧ g = (keys.map Duty.drop : List Duty))
      (MetaService.syncRemove 0 p.storeId keys) 0 := by
  refine uses_idle (fun _ => ⟨rfl,rfl⟩) fun n hn => ?_
  obtain rfl : n = p.shardCount := hn
  have hshards : Uses (deliveries p) (fun _ g => g = (keys.map Duty.drop : List Duty))
      (Prog.forEach (fun shard => invokeCluster (.removeShard 0 shard p.storeId keys))
        (List.range p.shardCount)) 0 := by
    refine uses_forEach_makes (split_dropsIn keys) ?_
    rintro shard _ rfl _ _
    exact ⟨0,_,0,⟨rfl,rfl,rfl⟩,rfl,add_zero _⟩
  exact uses_bind (uses_mono hshards fun _ _ hg => ⟨rfl,hg⟩)

/-- A call whose handler answers OK and leaves duties that the answer does not settle. -/
theorem uses_rpc {carries : List KeyDesc} {serve : ℕ → ClusterProg (Option Status)}
    {post : Option Status → Multiset Duty → Prop} {g : Multiset Duty} (descs : List KeyDesc) (left : Multiset Duty)
    (hserve : Uses (deliveries p) (fun s g' => s = some .OK ∧ g' = nameless descs + left) (serve 0) g)
    (hpost : post (some .OK) left) : Uses (deliveries p) post (rpc carries serve) g := by
  refine uses_idle (fun _ => ⟨rfl,rfl⟩) fun request hrequest => ?_
  obtain rfl : request = some (0,true) := hrequest
  refine uses_bind (uses_mono hserve ?_)
  rintro _ _ ⟨rfl,rfl⟩
  refine uses_perform fun ok hok => ⟨_,0,left,⟨rfl,descs,rfl⟩,rfl,?_⟩
  obtain rfl : ok = true := hok rfl rfl
  rw [zero_add]
  exact hpost

namespace MetaSyncClient

variable {i : ℕ}

theorem commits_eq (records : List StoreKeyRecord) :
    commits records = (records.map StoreKeyRecord.desc).map Duty.commit := by
  rw [commits, List.map_map]
  rfl

theorem uses_syncCommit (records later : List StoreKeyRecord) :
    Uses (deliveries p) (fun _ g => g = 0) (syncCommit i p.storeId records later)
      (commits records) := by
  refine uses_idle (fun _ => ⟨rfl,rfl⟩) fun c hc => ?_
  obtain rfl : c = true := hc
  rw [commits_eq]
  refine uses_bind (uses_rpc (records.map StoreKeyRecord.desc) 0 ?_ rfl)
  refine uses_mono (uses_serveCommit _) ?_
  rintro s g ⟨rfl,rfl⟩
  exact ⟨rfl,(add_zero _).symm⟩

theorem uses_asyncCommit (hi : i = p.node) (records : List StoreKeyRecord) :
    Uses (deliveries p) (fun _ g => g = 0) (asyncCommit i p.storeId records) (commits records) := by
  unfold asyncCommit
  split
  · next hempty =>
    rw [List.isEmpty_iff.mp hempty]
    exact rfl
  · intro _ _
    exact ⟨_,0,0,⟨hi,rfl,rfl,rfl⟩,(add_zero _).symm,rfl⟩

theorem uses_commitRound (hi : i = p.node) :
    Uses (deliveries p) (fun _ g => g = 0) (commitRound i) 0 := by
  refine uses_perform fun batch hbatch => ⟨0,_,0,⟨hi,rfl,rfl⟩,rfl,?_⟩
  rw [add_zero]
  cases batch with
  | nil => exact rfl
  | cons first rest =>
    have hid : first.storeId = p.storeId := hbatch hi first List.mem_cons_self
    dsimp only
    rw [hid]
    exact uses_bind (uses_mono (uses_syncCommit _ _) fun _ _ h => h)

theorem uses_syncRemove (keys : List Key) :
    Uses (deliveries p) (fun s g => g = Promise.dropped keys s) (syncRemove i p.storeId keys) 0 := by
  refine uses_idle (fun _ => ⟨rfl,rfl⟩) fun c hc => ?_
  obtain rfl : c = true := hc
  refine uses_bind (uses_rpc [] (keys.map Duty.drop : List Duty) ?_ rfl)
  refine uses_mono (uses_serveRemove _) ?_
  rintro s g ⟨rfl,rfl⟩
  exact ⟨rfl,(zero_add _).symm⟩

theorem uses_reconnectRound (info : StoreInfo) :
    Uses (deliveries p) (fun _ g => g = 0) (reconnectRound i info) 0 := by
  refine uses_idle (fun _ => ⟨rfl,rfl⟩) fun c hc => ?_
  obtain rfl : c = true := hc
  exact rfl

end MetaSyncClient

/-- The threads of one store: its operations, its commit thread and its reconnect thread. -/
def ClusterOp.isOf (i : ℕ) : ClusterOp → Prop
  | store j _ | commitRound j | reconnectRound j _ => j = i
  | _ => False

theorem uses_clusterOp {cfg : ℕ → StoreConfig} (hid : (cfg p.node).storeId = p.storeId)
    (hsync : (cfg p.node).metaSync = true) {op : ClusterOp} (hop : op.isOf p.node) :
    Uses (deliveries p) (fun _ g => g = 0) (op.run cfg) 0 := by
  cases op with
  | store i op =>
    obtain rfl : i = p.node := hop
    have hop := StoreOps.fulfils_run hsync op
    rw [StoreOps.Fulfils, hid] at hop
    refine uses_bind (uses_mono (uses_interp ?_ hop) fun _ _ h => h)
    exact uses_atNode (fun _ _ _ _ hop hr => ⟨rfl,hop,hr⟩)
      (fun records => MetaSyncClient.uses_syncCommit records []) (MetaSyncClient.uses_asyncCommit rfl)
      MetaSyncClient.uses_syncRemove
  | commitRound i =>
    exact uses_bind (uses_mono (MetaSyncClient.uses_commitRound hop) fun _ _ h => h)
  | reconnectRound i info =>
    exact uses_bind (uses_mono (MetaSyncClient.uses_reconnectRound info) fun _ _ h => h)
  | _ => exact hop.elim

end FalconKV
