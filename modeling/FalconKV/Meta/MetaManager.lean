import Mathlib.Data.List.AList
import Mathlib.Logic.Function.Basic
import FalconKV.Common.Status

/-! # The directory of the Meta server

The records of all stores lie in one map that is cut into shards, each with a lock of
its own. A commit or a removal visits the shards one after the other; what it does to
one shard is one critical section.
-/
namespace FalconKV

structure KeyRecord where
  key : Key
  storeId : ℕ
  offset : ℕ
  size : ℕ
  stat : ℕ
  accessTimeMs : ℕ
  createTimeMs : ℕ
  clientId : String
  nodeId : ℕ
  dataFile : String
  storeAddr : String
  deriving DecidableEq, Repr

def KeyRecord.blank : KeyRecord := ⟨"",0,0,0,0,0,0,"",0,"",""⟩

structure StoreInfo where
  storeId : ℕ
  nodeId : ℕ
  storeAddr : String
  dataFile : String
  deriving DecidableEq, Repr

/-- `hash` is `std::hash<std::string>`. -/
structure MetaManager where
  hash : Key → ℕ
  shardCount : ℕ
  shardCount_pos : 0 < shardCount
  shards : ℕ → AList fun _ : Key => KeyRecord
  stores : AList fun _ : ℕ => StoreInfo

namespace MetaManager

def create (hash : Key → ℕ) (shardCount : ℕ) (h : 0 < shardCount) : MetaManager :=
  ⟨hash,shardCount,h,fun _ => ∅,∅⟩

def shardOf (m : MetaManager) (key : Key) : ℕ := m.hash key % m.shardCount

def find (m : MetaManager) (key : Key) : Option KeyRecord := (m.shards (m.shardOf key)).lookup key

/-- Whether `BatchExist` reports the key. -/
def reports (m : MetaManager) (key : Key) : Bool := (m.find key).any fun rec => rec.stat == 1

def registerStore (m : MetaManager) (info : StoreInfo) : Status × MetaManager :=
  if info.storeId = 0 then (.invalidArg "store_id must be non-zero",m)
  else (.OK,{ m with stores := m.stores.insert info.storeId info })

def committed (old : Option KeyRecord) (storeId now : ℕ) (rec : KeyRecord) : KeyRecord :=
  let entry := old.getD .blank
  { entry with
    key := rec.key
    storeId := storeId
    offset := rec.offset
    size := rec.size
    stat := 1
    accessTimeMs := now
    createTimeMs := if entry.createTimeMs = 0 then now else entry.createTimeMs
    clientId := rec.clientId }

def commitEntry (storeId now : ℕ) (records : AList fun _ : Key => KeyRecord) (rec : KeyRecord) :
    AList fun _ : Key => KeyRecord :=
  records.insert rec.key (committed (records.lookup rec.key) storeId now rec)

def commitGroup (m : MetaManager) (records : List KeyRecord) (shard : ℕ) : List KeyRecord :=
  records.filter fun rec => rec.key ≠ "" && m.shardOf rec.key == shard

def removeGroup (m : MetaManager) (keys : List Key) (shard : ℕ) : List Key :=
  keys.filter fun key => m.shardOf key == shard

def commitShard (m : MetaManager) (shard storeId now : ℕ) (group : List KeyRecord) : MetaManager :=
  { m with
    shards := Function.update m.shards shard
      (group.foldl (commitEntry storeId now) (m.shards shard)) }

def removeShard (m : MetaManager) (shard : ℕ) (group : List Key) : MetaManager :=
  { m with
    shards := Function.update m.shards shard
      (group.foldl (fun records key => records.erase key) (m.shards shard)) }

def visitCommit (storeId now : ℕ) (records : List KeyRecord) (m : MetaManager) (shard : ℕ) :
    MetaManager :=
  if (m.commitGroup records shard).isEmpty then m
  else m.commitShard shard storeId now (m.commitGroup records shard)

def visitRemove (keys : List Key) (m : MetaManager) (shard : ℕ) : MetaManager :=
  if (m.removeGroup keys shard).isEmpty then m
  else m.removeShard shard (m.removeGroup keys shard)

def syncCommit (m : MetaManager) (storeId now : ℕ) (records : List KeyRecord) : MetaManager :=
  (List.range m.shardCount).foldl (visitCommit storeId now records) m

/-- The store that asks for the removal plays no part in it. -/
def syncRemove (m : MetaManager) (_storeId : ℕ) (keys : List Key) : MetaManager :=
  (List.range m.shardCount).foldl (visitRemove keys) m

variable {m : MetaManager} {key : Key} {shard storeId now : ℕ}

@[simp] theorem find_create (hash : Key → ℕ) (n : ℕ) (h : 0 < n) :
    (create hash n h).find key = none := rfl

theorem shardOf_lt (m : MetaManager) (key : Key) : m.shardOf key < m.shardCount :=
  Nat.mod_lt _ m.shardCount_pos

@[simp] theorem shardOf_commitShard (group : List KeyRecord) :
    (m.commitShard shard storeId now group).shardOf key = m.shardOf key := rfl

@[simp] theorem shardOf_removeShard (group : List Key) :
    (m.removeShard shard group).shardOf key = m.shardOf key := rfl

theorem find_registerStore (info : StoreInfo) : (m.registerStore info).2.find key = m.find key := by
  unfold registerStore
  split <;> rfl

/-- A registration forgets no store. -/
theorem lookup_registerStore (info : StoreInfo) (h : (m.stores.lookup storeId).isSome = true) :
    ((m.registerStore info).2.stores.lookup storeId).isSome = true := by
  unfold registerStore
  split
  · exact h
  · by_cases hid : storeId = info.storeId
    · rw [hid, AList.lookup_insert]
      rfl
    · rwa [AList.lookup_insert_ne hid]

theorem lookup_registered {info : StoreInfo} (h : (m.registerStore info).1.isOk = true) :
    (m.registerStore info).2.stores.lookup info.storeId = some info := by
  unfold registerStore at h ⊢
  split
  · next hzero =>
    rw [if_pos hzero] at h
    cases h
  · exact AList.lookup_insert _

def latest : List KeyRecord → List KeyRecord
  | [] => []
  | rec :: group => if rec.key ∈ group.map KeyRecord.key then latest group else rec :: latest group

theorem latest_sublist (group : List KeyRecord) : (latest group).Sublist group := by
  induction group with
  | nil => exact .slnil
  | cons rec group ih =>
    unfold latest
    split
    · exact ih.cons rec
    · exact ih.cons_cons rec

theorem latest_subset_cons {rec rec' : KeyRecord} {group : List KeyRecord} (h : rec' ∈ latest group) :
    rec' ∈ latest (rec :: group) := by
  unfold latest
  split
  · exact h
  · exact List.mem_cons_of_mem rec h

/-- What a commit leaves under a key: the entry of its latest record, if there is one. -/
theorem lookup_commitEntries (group : List KeyRecord) (records : AList fun _ : Key => KeyRecord) :
    (key ∉ group.map KeyRecord.key ∧
      (group.foldl (commitEntry storeId now) records).lookup key = records.lookup key) ∨
    ∃ rec ∈ latest group, rec.key = key ∧ ∃ old,
      (group.foldl (commitEntry storeId now) records).lookup key =
        some (committed old storeId now rec) := by
  induction group generalizing records with
  | nil => exact .inl ⟨by simp,rfl⟩
  | cons rec group ih =>
    rcases ih (commitEntry storeId now records rec) with ⟨hnot,heq⟩ | ⟨rec',hmem,hkey,old,heq⟩
    · by_cases hk : key = rec.key
      · subst hk
        refine .inr ⟨rec,?_,rfl,records.lookup rec.key,heq.trans ?_⟩
        · rw [latest, if_neg hnot]
          exact List.mem_cons_self
        · simp [commitEntry]
      · refine .inl ⟨?_,heq.trans ?_⟩
        · simpa [hk] using hnot
        · simp [commitEntry, AList.lookup_insert_ne hk]
    · exact .inr ⟨rec',latest_subset_cons hmem,hkey,old,heq⟩

theorem lookup_eraseKeys (group : List Key) (records : AList fun _ : Key => KeyRecord) :
    (group.foldl (fun records key => records.erase key) records).lookup key =
      if key ∈ group then none else records.lookup key := by
  induction group generalizing records with
  | nil => simp
  | cons k group ih =>
    rw [List.foldl_cons, ih]
    by_cases hk : key = k
    · subst hk
      simp
    · simp [hk, AList.lookup_erase_ne hk]

/-- A commit in a shard, for a group of records that belong there. -/
theorem find_commitShard (m : MetaManager) (key : Key) (storeId now : ℕ) {group : List KeyRecord}
    (hg : ∀ rec ∈ group, m.shardOf rec.key = shard) :
    (key ∉ group.map KeyRecord.key ∧
      (m.commitShard shard storeId now group).find key = m.find key) ∨
    ∃ rec ∈ latest group, rec.key = key ∧ ∃ old,
      (m.commitShard shard storeId now group).find key =
        some (committed old storeId now rec) := by
  by_cases hs : m.shardOf key = shard
  · have hfind : (m.commitShard shard storeId now group).find key =
        (group.foldl (commitEntry storeId now) (m.shards shard)).lookup key := by
      simp [find, commitShard, shardOf, ← hs]
    have hold : m.find key = (m.shards shard).lookup key := by rw [find, hs]
    rw [hfind, hold]
    exact lookup_commitEntries group (m.shards shard)
  · refine .inl ⟨?_,?_⟩
    · intro hmem
      obtain ⟨rec,hrec,rfl⟩ := List.mem_map.mp hmem
      exact hs (hg rec hrec)
    · have hsame : (m.commitShard shard storeId now group).shards (m.shardOf key) =
          m.shards (m.shardOf key) := Function.update_of_ne hs _ _
      rw [find, shardOf_commitShard, hsame, find]

theorem find_removeShard {group : List Key} (hg : ∀ k ∈ group, m.shardOf k = shard) :
    (m.removeShard shard group).find key = if key ∈ group then none else m.find key := by
  by_cases hs : m.shardOf key = shard
  · have hfind : (m.removeShard shard group).find key =
        (group.foldl (fun records key => records.erase key) (m.shards shard)).lookup key := by
      simp [find, removeShard, shardOf, ← hs]
    rw [hfind, lookup_eraseKeys, find, hs]
  · have hnot : key ∉ group := fun hmem => hs (hg key hmem)
    have hsame : (m.removeShard shard group).shards (m.shardOf key) = m.shards (m.shardOf key) :=
      Function.update_of_ne hs _ _
    rw [if_neg hnot, find, shardOf_removeShard, hsame, find]

theorem mem_removeGroup {keys : List Key} {k : Key} :
    k ∈ m.removeGroup keys shard ↔ k ∈ keys ∧ m.shardOf k = shard := by
  simp [removeGroup]

theorem mem_commitGroup {records : List KeyRecord} {rec : KeyRecord} :
    rec ∈ m.commitGroup records shard ↔ rec ∈ records ∧ rec.key ≠ "" ∧ m.shardOf rec.key = shard := by
  simp [commitGroup]

theorem shard_of_mem_commitGroup (m : MetaManager) (records : List KeyRecord) (shard : ℕ) :
    ∀ rec ∈ m.commitGroup records shard, m.shardOf rec.key = shard :=
  fun _ hr => (mem_commitGroup.mp hr).2.2

@[simp] theorem shardOf_visitCommit (records : List KeyRecord) :
    (visitCommit storeId now records m shard).shardOf key = m.shardOf key := by
  unfold visitCommit
  split <;> rfl

@[simp] theorem shardOf_visitRemove (keys : List Key) :
    (visitRemove keys m shard).shardOf key = m.shardOf key := by
  unfold visitRemove
  split <;> rfl

theorem hash_visitCommit (m : MetaManager) (storeId now shard : ℕ) (records : List KeyRecord) :
    (visitCommit storeId now records m shard).hash = m.hash := by
  unfold visitCommit
  split <;> rfl

theorem shardCount_visitCommit (m : MetaManager) (storeId now shard : ℕ)
    (records : List KeyRecord) :
    (visitCommit storeId now records m shard).shardCount = m.shardCount := by
  unfold visitCommit
  split <;> rfl

theorem stores_visitCommit (m : MetaManager) (storeId now shard : ℕ) (records : List KeyRecord) :
    (visitCommit storeId now records m shard).stores = m.stores := by
  unfold visitCommit
  split <;> rfl

theorem stores_visitRemove (m : MetaManager) (keys : List Key) (shard : ℕ) :
    (visitRemove keys m shard).stores = m.stores := by
  unfold visitRemove
  split <;> rfl

theorem hash_visitRemove (m : MetaManager) (keys : List Key) (shard : ℕ) :
    (visitRemove keys m shard).hash = m.hash := by
  unfold visitRemove
  split <;> rfl

theorem shardCount_visitRemove (m : MetaManager) (keys : List Key) (shard : ℕ) :
    (visitRemove keys m shard).shardCount = m.shardCount := by
  unfold visitRemove
  split <;> rfl

theorem find_visitRemove (keys : List Key) : (visitRemove keys m shard).find key =
    if key ∈ m.removeGroup keys shard then none else m.find key := by
  unfold visitRemove
  split
  · next hempty =>
    rw [List.isEmpty_iff.mp hempty, if_neg List.not_mem_nil]
  · exact find_removeShard fun k hk => (mem_removeGroup.mp hk).2

theorem find_visitRemoves (keys : List Key) (shards : List ℕ) :
    (shards.foldl (visitRemove keys) m).find key =
      if key ∈ keys ∧ m.shardOf key ∈ shards then none else m.find key := by
  induction shards generalizing m with
  | nil => simp
  | cons shard shards ih =>
    rw [List.foldl_cons, ih, find_visitRemove, shardOf_visitRemove]
    simp only [mem_removeGroup, List.mem_cons]
    by_cases hk : key ∈ keys <;> by_cases hs : m.shardOf key = shard <;>
      by_cases hr : m.shardOf key ∈ shards <;> simp [hk, hs, hr]

/-- A whole removal erases its keys, whosever records they are. -/
theorem find_syncRemove (keys : List Key) :
    (m.syncRemove storeId keys).find key = if key ∈ keys then none else m.find key := by
  have hall : m.shardOf key ∈ List.range m.shardCount := List.mem_range.mpr (m.shardOf_lt key)
  rw [syncRemove, find_visitRemoves]
  simp [hall]

def CommitsTo (m m' : MetaManager) (storeId now : ℕ) (records : List KeyRecord) (key : Key) : Prop :=
  (key ∉ records.map KeyRecord.key ∧ m'.find key = m.find key) ∨
  ∃ rec ∈ records, rec.key = key ∧ ∃ old, m'.find key = some (committed old storeId now rec)

theorem find_visitCommit_group (m : MetaManager) (key : Key) (shard storeId now : ℕ)
    (records : List KeyRecord) :
    (key ∉ (m.commitGroup records shard).map KeyRecord.key ∧
      (visitCommit storeId now records m shard).find key = m.find key) ∨
    ∃ rec ∈ latest (m.commitGroup records shard), rec.key = key ∧ ∃ old,
      (visitCommit storeId now records m shard).find key = some (committed old storeId now rec) := by
  unfold visitCommit
  split
  · next hempty =>
    refine .inl ⟨?_,rfl⟩
    simp [List.isEmpty_iff.mp hempty]
  · exact find_commitShard m key storeId now (shard_of_mem_commitGroup m records shard)

theorem find_visitCommit (m : MetaManager) (shard storeId now : ℕ) (records : List KeyRecord)
    (hkey : key ≠ "") :
    (m.shardOf key ≠ shard ∧ (visitCommit storeId now records m shard).find key = m.find key) ∨
    m.CommitsTo (visitCommit storeId now records m shard) storeId now records key := by
  rcases find_visitCommit_group m key shard storeId now records with
    ⟨hnot,heq⟩ | ⟨rec,hrec,hk,old,heq⟩
  · by_cases hs : m.shardOf key = shard
    · refine .inr (.inl ⟨fun hmem => ?_,heq⟩)
      obtain ⟨rec,hrec,rfl⟩ := List.mem_map.mp hmem
      exact hnot (List.mem_map_of_mem (mem_commitGroup.mpr ⟨hrec,hkey,hs⟩))
    · exact .inl ⟨hs,heq⟩
  · have hmem : rec ∈ records := (mem_commitGroup.mp ((latest_sublist _).subset hrec)).1
    exact .inr (.inr ⟨rec,hmem,hk,old,heq⟩)

theorem find_visitCommits (records : List KeyRecord) (shards : List ℕ) (hkey : key ≠ "") :
    (m.shardOf key ∉ shards ∧
      (shards.foldl (visitCommit storeId now records) m).find key = m.find key) ∨
    m.CommitsTo (shards.foldl (visitCommit storeId now records) m) storeId now records key := by
  induction shards generalizing m with
  | nil => exact .inl ⟨by simp,rfl⟩
  | cons shard shards ih =>
    have hrest := ih (m := visitCommit storeId now records m shard)
    rw [shardOf_visitCommit] at hrest
    rcases find_visitCommit m shard storeId now records hkey with ⟨hne,hfirst⟩ | ⟨hnot,hfirst⟩ | ⟨rec,hrec,hk,old,hfirst⟩
    · rcases hrest with ⟨hnots,hlast⟩ | ⟨hnot,hlast⟩ | hlast
      · exact .inl ⟨by simp [hne, hnots],hlast.trans hfirst⟩
      · exact .inr (.inl ⟨hnot,hlast.trans hfirst⟩)
      · exact .inr (.inr hlast)
    · rcases hrest with ⟨-,hlast⟩ | ⟨-,hlast⟩ | hlast
      · exact .inr (.inl ⟨hnot,hlast.trans hfirst⟩)
      · exact .inr (.inl ⟨hnot,hlast.trans hfirst⟩)
      · exact .inr (.inr hlast)
    · rcases hrest with ⟨-,hlast⟩ | ⟨-,hlast⟩ | hlast
      · exact .inr (.inr ⟨rec,hrec,hk,old,hlast.trans hfirst⟩)
      · exact .inr (.inr ⟨rec,hrec,hk,old,hlast.trans hfirst⟩)
      · exact .inr (.inr hlast)

theorem find_syncCommit (records : List KeyRecord) (hkey : key ≠ "") :
    m.CommitsTo (m.syncCommit storeId now records) storeId now records key := by
  have hall : m.shardOf key ∈ List.range m.shardCount := List.mem_range.mpr (m.shardOf_lt key)
  exact (find_visitCommits records _ hkey).resolve_left fun h => h.1 hall

theorem stores_syncCommit (records : List KeyRecord) :
    (m.syncCommit storeId now records).stores = m.stores := by
  have hall : ∀ (shards : List ℕ) (m : MetaManager),
      (shards.foldl (visitCommit storeId now records) m).stores = m.stores := by
    intro shards
    induction shards with
    | nil => exact fun _ => rfl
    | cons shard shards ih =>
      intro m
      rw [List.foldl_cons, ih, stores_visitCommit]
  exact hall _ m

/-- No commit ever makes a record without a key. -/
theorem find_empty_visitCommit (records : List KeyRecord) :
    (visitCommit storeId now records m shard).find "" = m.find "" := by
  rcases find_visitCommit_group m "" shard storeId now records with ⟨-,heq⟩ | ⟨rec,hrec,hk,-⟩
  · exact heq
  · exact absurd hk (mem_commitGroup.mp ((latest_sublist _).subset hrec)).2.1

theorem find_empty_syncCommit (records : List KeyRecord) :
    (m.syncCommit storeId now records).find "" = m.find "" := by
  have hall : ∀ (shards : List ℕ) (m : MetaManager),
      (shards.foldl (visitCommit storeId now records) m).find "" = m.find "" := by
    intro shards
    induction shards with
    | nil => exact fun _ => rfl
    | cons shard shards ih =>
      intro m
      rw [List.foldl_cons, ih, find_empty_visitCommit]
  exact hall _ m

end MetaManager

end FalconKV
