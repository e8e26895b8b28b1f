import Mathlib.Data.List.TakeWhile
import FalconKV.Client.KeyDescCache
import FalconKV.Meta.Lookups
import FalconKV.Store.MetaIndex

/-! # Which keys of a list are present

The client asks its store for all keys and Meta for those the store does not have, and
answers how many descriptors it has got. Callers take the answer for the length of the
longest prefix of the list whose keys are all present.
-/
namespace FalconKV

/-- `storeFiles` belongs to the `NodeLocalAccessor`. -/
structure FalconKVClientImpl where
  nodeId : ℕ
  keyDescCache : KeyDescCache
  storeAddrMap : AList fun _ : ℕ => String
  storeFiles : AList fun _ : ℕ => String

namespace FalconKVClientImpl

def create (nodeId cacheCapacity : ℕ) : FalconKVClientImpl := ⟨nodeId,.create cacheCapacity,∅,∅⟩

def cacheDesc (client : FalconKVClientImpl) (desc : KeyDescriptor) : FalconKVClientImpl :=
  { client with keyDescCache := client.keyDescCache.insert desc.key desc }

def localDesc (storeId : ℕ) (rec : StoreKeyRecord) : KeyDescriptor :=
  { key := rec.key, storeId := storeId, offset := rec.offset, size := rec.size
    accessType := .localDirect }

def accessTypeOf (client : FalconKVClientImpl) (rec : KeyRecord) : AccessType :=
  if rec.nodeId ≠ 0 ∧ rec.nodeId = client.nodeId then .nodeDirect else .remoteRpc

def remoteDesc (client : FalconKVClientImpl) (rec : KeyRecord) : KeyDescriptor :=
  { key := rec.key, storeId := rec.storeId, offset := rec.offset, size := rec.size
    accessTimeMs := rec.accessTimeMs, storeAddr := rec.storeAddr
    accessType := client.accessTypeOf rec }

def learn (client : FalconKVClientImpl) (rec : KeyRecord) : FalconKVClientImpl :=
  let desc := client.remoteDesc rec
  let client := if desc.accessType = .nodeDirect ∧ rec.dataFile ≠ "" then
    { client with storeFiles := client.storeFiles.insert rec.storeId rec.dataFile } else client
  let client := if rec.storeAddr ≠ "" then
    { client with storeAddrMap := client.storeAddrMap.insert rec.storeId rec.storeAddr } else client
  client.cacheDesc desc

def isHit (rec : KeyRecord) : Bool := rec.key != "" && rec.stat == 1

/-- `localStore` is the index of the client's own store, if it has one, and its id; `directory`
is Meta, if the client is connected to it and the call does not fail. -/
def batchExist (client : FalconKVClientImpl) (localStore : Option (ℕ × StoreMetaIndex))
    (directory : Option MetaManager) (now : ℕ) (keys : List Key) :
    (ℤ × List KeyDescriptor) × FalconKVClientImpl × Option (ℕ × StoreMetaIndex) :=
  if keys.isEmpty then ((0,[]),client,localStore)
  else
    let (hits,missingKeys,localStore) := match localStore with
      | some (storeId,index) =>
        let ((storeHits,missingKeys),index) := index.batchContains now keys
        (storeHits.map (localDesc storeId),missingKeys,some (storeId,index))
      | none => ([],keys,none)
    let client := hits.foldl cacheDesc client
    let records := if missingKeys.isEmpty then []
      else MetaRpcClient.records missingKeys
        (directory.map fun m => MetaServiceImpl.batchExist m now missingKeys)
    let found := records.filter isHit
    let hitDescs := hits ++ found.map client.remoteDesc
    ((int32 hitDescs.length,hitDescs),found.foldl learn client,localStore)

/-- `batched_contains`: the answer of `BatchExist`. -/
def batchedContains (client : FalconKVClientImpl) (localStore : Option (ℕ × StoreMetaIndex))
    (directory : Option MetaManager) (now : ℕ) (keys : List Key) : ℤ :=
  (client.batchExist localStore directory now keys).1.1

/-- Committed in the local store, or in the Meta that answers. -/
def present (localStore : Option (ℕ × StoreMetaIndex)) (directory : Option MetaManager) (key : Key) :
    Bool :=
  (localStore.any fun s => s.2.isCommitted key) || directory.any fun m => m.reports key

/-- The length of the longest prefix whose keys are all present. -/
def prefixLength (here : Key → Bool) (keys : List Key) : ℕ := (keys.takeWhile here).length

/-- The present positions behind the first missing one. -/
def strayHits (here : Key → Bool) (keys : List Key) : ℕ := (keys.dropWhile here).countP here

section
variable {client : FalconKVClientImpl} {localStore : Option (ℕ × StoreMetaIndex)}
  {directory : Option MetaManager} {now : ℕ} {keys : List Key}

theorem countP_eq_prefixLength_add (here : Key → Bool) (keys : List Key) :
    keys.countP here = prefixLength here keys + strayHits here keys := by
  have hsplit := congrArg (List.countP here) (List.takeWhile_append_dropWhile (p := here) (l := keys))
  have hall : (keys.takeWhile here).countP here = (keys.takeWhile here).length :=
    List.countP_eq_length.mpr fun key hkey => List.mem_takeWhile_imp hkey
  rw [List.countP_append, hall] at hsplit
  exact hsplit.symm

theorem countP_add_countP_filter (p q : Key → Bool) (keys : List Key) :
    keys.countP p + (keys.filter fun key => !p key).countP q = keys.countP fun key => p key || q key := by
  induction keys with
  | nil => rfl
  | cons key keys ih =>
    by_cases hp : p key
    · simp [hp, ← ih]
      omega
    · by_cases hq : q key
      · simp [hp, hq, ← ih]
        omega
      · simp [hp, hq, ← ih]

/-- The hits among the records that come back for a key list, by position. -/
theorem length_filter_records (hd : ∀ m ∈ directory, m.Keyed) :
    ((MetaRpcClient.records keys (directory.map fun m =>
        MetaServiceImpl.batchExist m now keys)).filter isHit).length =
      keys.countP fun key => directory.any fun m => m.reports key := by
  cases directory with
  | none =>
    have hnone : ∀ key : Key, isHit ((fun _ => KeyRecord.blank) key) = false := fun _ => rfl
    simp [MetaRpcClient.records, isHit, KeyRecord.blank]
  | some m =>
    simp only [MetaRpcClient.records, Option.map_some, Option.any_some, ← List.countP_eq_length_filter,
      List.countP_map]
    apply List.countP_congr
    intro key hmem
    simpa [isHit] using MetaRpcClient.hit_iff (hd m rfl) hmem rfl

/-- Every present position is counted once. -/
theorem length_batchExist (client : FalconKVClientImpl) (localStore : Option (ℕ × StoreMetaIndex))
    (now : ℕ) (keys : List Key) (hd : ∀ m ∈ directory, m.Keyed) :
    (client.batchExist localStore directory now keys).1.2.length =
      keys.countP (present localStore directory) := by
  have hremote : ∀ missing : List Key,
      ((if missing.isEmpty then [] else MetaRpcClient.records missing (directory.map fun m =>
        MetaServiceImpl.batchExist m now missing)).filter isHit).length =
      missing.countP fun key => directory.any fun m => m.reports key := by
    intro missing
    split
    · next hempty =>
      rw [List.isEmpty_iff.mp hempty]
      rfl
    · exact length_filter_records hd
  unfold batchExist
  split
  · next hempty =>
    rw [List.isEmpty_iff.mp hempty]
    rfl
  · cases localStore with
    | none =>
      simp only [List.nil_append, List.length_map, hremote]
      rfl
    | some s =>
      obtain ⟨storeId,index⟩ := s
      obtain ⟨hhits,hmisses⟩ := index.batchContains_fst now keys
      simp only [List.length_append, List.length_map, hremote, hhits, hmisses]
      exact countP_add_countP_filter _ _ keys

theorem batchedContains_eq (client : FalconKVClientImpl) (localStore : Option (ℕ × StoreMetaIndex))
    (now : ℕ) (keys : List Key) (hd : ∀ m ∈ directory, m.Keyed) :
    client.batchedContains localStore directory now keys =
      int32 (keys.countP (present localStore directory)) := by
  rw [← length_batchExist client localStore now keys hd]
  unfold batchedContains batchExist
  split <;> rfl

/-- The answer is the length of the longest present prefix exactly if this is below `2^31` and
the number of present positions behind it is a multiple of `2^32`: for shorter lists, if
nothing behind the first missing key is present. -/
theorem batchedContains_eq_prefixLength_iff (client : FalconKVClientImpl)
    (localStore : Option (ℕ × StoreMetaIndex)) (now : ℕ) (keys : List Key)
    (hd : ∀ m ∈ directory, m.Keyed) :
    client.batchedContains localStore directory now keys =
        prefixLength (present localStore directory) keys ↔
      prefixLength (present localStore directory) keys < 2^31 ∧
        2^32 ∣ strayHits (present localStore directory) keys := by
  rw [batchedContains_eq client localStore now keys hd, countP_eq_prefixLength_add]
  generalize prefixLength (present localStore directory) keys = n
  generalize strayHits (present localStore directory) keys = strays
  unfold int32
  constructor
  · intro h
    split at h <;> omega
  · rintro ⟨hlt,c,rfl⟩
    have hmod : (n + 2^32 * c) % 2^32 = n := by omega
    rw [hmod, if_pos hlt]

end

/-- Node 7 has `a` in its own store, and Meta knows of `b`. -/
def client : FalconKVClientImpl := .create 7 100

def ownStore : Option (ℕ × StoreMetaIndex) :=
  some (1,StoreMetaIndex.create.put "a" ⟨"a",0,4096,4096,1,5⟩)

def directory : MetaManager :=
  (MetaManager.create String.length 4 (by decide)).visitCommit 2 5
    [{ KeyRecord.blank with key := "b", size := 4096 }] 1

theorem keyed_directory : directory.Keyed :=
  (MetaManager.keyed_create String.length 4 (by decide)).visitCommit _

theorem batchedContains_eq_prefixLength_iff_found :
    (∀ m ∈ some directory, m.Keyed) ∧
      client.batchedContains ownStore (some directory) 9 ["b","a","b","c"] =
        prefixLength (present ownStore (some directory)) ["b","a","b","c"] ∧
      prefixLength (present ownStore (some directory)) ["b","a","b","c"] = 3 := by
  have hd : ∀ m ∈ some directory, m.Keyed := by
    rintro m ⟨⟩
    exact keyed_directory
  refine ⟨hd,(batchedContains_eq_prefixLength_iff client ownStore 9 _ hd).mpr ?_,by decide⟩
  exact ⟨by decide,by decide⟩

/-- The first key is missing, the second one is counted. -/
theorem exists_batchedContains_ne_prefixLength :
    ∃ (client : FalconKVClientImpl) (localStore : Option (ℕ × StoreMetaIndex)) (now : ℕ)
      (keys : List Key), client.batchedContains localStore none now keys ≠
        prefixLength (present localStore none) keys :=
  ⟨client,ownStore,9,["c","a"],by decide⟩

end FalconKVClientImpl

end FalconKV
