import FalconKV.Common.KeyedFold
import FalconKV.Meta.Lookups

/-! # The shards and one unsharded map

A call sorts its items by shard and visits the shards in order. The items of one key keep
their order, and items of different shards touch different keys: no answer shows the shards.
-/
namespace FalconKV

/-- A call of the directory. -/
inductive MetaCall
  | registerStore (info : StoreInfo)
  | syncCommit (storeId : ℕ) (records : List KeyRecord)
  | syncRemove (storeId : ℕ) (keys : List Key)
  | batchExist (keys : List Key)
  | batchLookup (keys : List Key)

inductive MetaReply
  | status (s : Status)
  | records (records : List KeyRecord)
  deriving DecidableEq

def KeyRecord.hit (admits : ℕ → Bool) (now : ℕ) (rec : KeyRecord) : Option KeyRecord :=
  if admits rec.stat then some { rec with accessTimeMs := now } else none

def KeyRecord.touched (admits : ℕ → Bool) (now : ℕ) (rec : KeyRecord) : KeyRecord :=
  (rec.hit admits now).getD rec

namespace MetaManager

def positionGroup (m : MetaManager) (keys : List Key) (shard : ℕ) : List ℕ :=
  (List.range keys.length).filter fun i => m.shardOf (keys.getD i "") == shard

def readPosition (admits : ℕ → Bool) (now : ℕ) (keys : List Key)
    (x : (AList fun _ : Key => KeyRecord) × List KeyRecord) (i : ℕ) :
    (AList fun _ : Key => KeyRecord) × List KeyRecord :=
  match (x.1.lookup (keys.getD i "")).bind (KeyRecord.hit admits now) with
  | none => x
  | some rec => (x.1.insert (keys.getD i "") rec,x.2.set i rec)

def visitRead (admits : ℕ → Bool) (now : ℕ) (keys : List Key) (x : MetaManager × List KeyRecord)
    (shard : ℕ) : MetaManager × List KeyRecord :=
  let group := x.1.positionGroup keys shard
  if group.isEmpty then x
  else
    let y := group.foldl (readPosition admits now keys) (x.1.shards shard,x.2)
    ({ x.1 with shards := Function.update x.1.shards shard y.1 },y.2)

def fill (m : MetaManager) (rec : KeyRecord) : KeyRecord :=
  if rec.key = "" then rec else m.withStore rec

def readShards (m : MetaManager) (admits : ℕ → Bool) (now : ℕ) (keys : List Key) :
    List KeyRecord × MetaManager :=
  let x := (List.range m.shardCount).foldl (visitRead admits now keys)
    (m,List.replicate keys.length .blank)
  (x.2.map x.1.fill,x.1)

def serve (m : MetaManager) (now : ℕ) : MetaCall → MetaReply × MetaManager
  | .registerStore info => (.status (m.registerStore info).1,(m.registerStore info).2)
  | .syncCommit storeId records => (.status .OK,m.syncCommit storeId now records)
  | .syncRemove storeId keys => (.status .OK,m.syncRemove storeId keys)
  | .batchExist keys =>
    let x := m.readShards (fun stat => stat == 1) now keys
    (.records x.1,x.2)
  | .batchLookup keys =>
    let x := m.readShards (fun stat => stat != 2) now keys
    (.records x.1,x.2)

/-- What a sequence of calls is answered, each with the reading of its clock. -/
def serveAll (m : MetaManager) : List (ℕ × MetaCall) → List MetaReply
  | [] => []
  | (now,call) :: calls => (m.serve now call).1 :: (m.serve now call).2.serveAll calls

end MetaManager

/-- A directory without shards: what it binds to a key, and the stores. -/
structure UnshardedMeta where
  find : Key → Option KeyRecord
  stores : ℕ → Option StoreInfo

namespace UnshardedMeta

def empty : UnshardedMeta := ⟨fun _ => none,fun _ => none⟩

def commitRecord (storeId now : ℕ) (u : UnshardedMeta) (rec : KeyRecord) : UnshardedMeta :=
  if rec.key = "" then u
  else { u with
    find := Function.update u.find rec.key
      (some (MetaManager.committed (u.find rec.key) storeId now rec)) }

def removeKey (u : UnshardedMeta) (key : Key) : UnshardedMeta :=
  { u with find := Function.update u.find key none }

def withStore (u : UnshardedMeta) (rec : KeyRecord) : KeyRecord :=
  let info := (u.stores rec.storeId).getD ⟨0,0,"",""⟩
  { rec with nodeId := info.nodeId, dataFile := info.dataFile, storeAddr := info.storeAddr }

def fill (u : UnshardedMeta) (rec : KeyRecord) : KeyRecord :=
  if rec.key = "" then rec else u.withStore rec

def readKey (u : UnshardedMeta) (admits : ℕ → Bool) (now : ℕ) (key : Key) : KeyRecord × UnshardedMeta :=
  match (u.find key).bind (KeyRecord.hit admits now) with
  | none => (.blank,u)
  | some rec => (u.fill rec,{ u with find := Function.update u.find key (some rec) })

def read (admits : ℕ → Bool) (now : ℕ) : List Key → UnshardedMeta → List KeyRecord × UnshardedMeta
  | [], u => ([],u)
  | key :: keys, u =>
    let x := u.readKey admits now key
    let y := read admits now keys x.2
    (x.1 :: y.1,y.2)

def serve (u : UnshardedMeta) (now : ℕ) : MetaCall → MetaReply × UnshardedMeta
  | .registerStore info =>
    if info.storeId = 0 then (.status (.invalidArg "store_id must be non-zero"),u)
    else (.status .OK,{ u with stores := Function.update u.stores info.storeId (some info) })
  | .syncCommit storeId records => (.status .OK,records.foldl (commitRecord storeId now) u)
  | .syncRemove _ keys => (.status .OK,keys.foldl removeKey u)
  | .batchExist keys =>
    let x := read (fun stat => stat == 1) now keys u
    (.records x.1,x.2)
  | .batchLookup keys =>
    let x := read (fun stat => stat != 2) now keys u
    (.records x.1,x.2)

def serveAll (u : UnshardedMeta) : List (ℕ × MetaCall) → List MetaReply
  | [] => []
  | (now,call) :: calls => (u.serve now call).1 :: (u.serve now call).2.serveAll calls

end UnshardedMeta

namespace MetaManager
variable {m : MetaManager} {shard storeId now : ℕ} {admits : ℕ → Bool} {keys : List Key}

abbrev commitAct (storeId now : ℕ) (rec : KeyRecord) (old : Option KeyRecord) : Option KeyRecord :=
  some (committed old storeId now rec)

abbrev readAct (admits : ℕ → Bool) (now : ℕ) (old : Option KeyRecord) : Option KeyRecord :=
  old.map (KeyRecord.touched admits now)

/-- A shard is worked on by a keyed fold over items that belong there. -/
theorem find_updateShard {α : Type} {keyOf : α → Key} {act : α → Option KeyRecord → Option KeyRecord}
    {group : List α} {records : AList fun _ : Key => KeyRecord}
    (hr : (fun key => records.lookup key) =
      group.foldl (keyedStep keyOf act) fun key => (m.shards shard).lookup key)
    (hg : ∀ a ∈ group, m.shardOf (keyOf a) = shard) :
    ({ m with shards := Function.update m.shards shard records } : MetaManager).find =
      group.foldl (keyedStep keyOf act) m.find := by
  funext key
  by_cases hs : m.shardOf key = shard
  · have hnew : ({ m with shards := Function.update m.shards shard records } : MetaManager).find key =
        records.lookup key := by
      have hupdate : Function.update m.shards shard records (m.shardOf key) = records := by
        rw [hs, Function.update_self]
      exact congrArg (AList.lookup key) hupdate
    have hold : (m.shards shard).lookup key = m.find key := by rw [find, hs]
    rw [hnew, congrFun hr key, foldl_keyedStep_apply, foldl_keyedStep_apply, hold]
  · have hsame : ({ m with shards := Function.update m.shards shard records } : MetaManager).find key =
        m.find key := congrArg (AList.lookup key) (Function.update_of_ne hs _ _)
    rw [hsame, foldl_keyedStep_of_ne]
    rintro a ha rfl
    exact hs (hg a ha)

/-- A fold over an association list whose rounds are keyed steps. -/
theorem lookup_foldl {α : Type} {keyOf : α → Key} {act : α → Option KeyRecord → Option KeyRecord}
    {step : (AList fun _ : Key => KeyRecord) → α → AList fun _ : Key => KeyRecord}
    (h : ∀ records a, (fun key => (step records a).lookup key) =
      keyedStep keyOf act (fun key => records.lookup key) a)
    (group : List α) (records : AList fun _ : Key => KeyRecord) :
    (fun key => (group.foldl step records).lookup key) =
      group.foldl (keyedStep keyOf act) fun key => records.lookup key :=
  (List.foldl_hom (fun records key => AList.lookup key records) fun records a => (h records a).symm).symm

theorem lookup_commitEntry (records : AList fun _ : Key => KeyRecord) (rec : KeyRecord) :
    (fun key => (commitEntry storeId now records rec).lookup key) =
      keyedStep KeyRecord.key (commitAct storeId now) (fun key => records.lookup key) rec := by
  funext key
  rw [keyedStep_apply, commitEntry]
  split
  · next hk => rw [hk, AList.lookup_insert]
  · next hk => rw [AList.lookup_insert_ne (Ne.symm hk)]

theorem lookup_erase (records : AList fun _ : Key => KeyRecord) (key : Key) :
    (fun key' => (records.erase key).lookup key') =
      keyedStep id (fun _ _ => none) (fun key' => records.lookup key') key := by
  funext key'
  rw [keyedStep_apply]
  split
  · next hk =>
    obtain rfl : key = key' := hk
    exact AList.lookup_erase key records
  · next hk => exact AList.lookup_erase_ne (Ne.symm hk)

theorem find_visitCommit_eq (records : List KeyRecord) :
    (visitCommit storeId now records m shard).find =
      (m.commitGroup records shard).foldl (keyedStep KeyRecord.key (commitAct storeId now)) m.find := by
  unfold visitCommit
  split
  · next hempty => rw [List.isEmpty_iff.mp hempty, List.foldl_nil]
  · exact find_updateShard (lookup_foldl lookup_commitEntry _ _)
      (shard_of_mem_commitGroup m records shard)

theorem find_visitRemove_eq (keys : List Key) : (visitRemove keys m shard).find =
    (m.removeGroup keys shard).foldl (keyedStep id fun _ _ => none) m.find := by
  unfold visitRemove
  split
  · next hempty => rw [List.isEmpty_iff.mp hempty, List.foldl_nil]
  · exact find_updateShard (lookup_foldl lookup_erase _ _) fun k hk => (mem_removeGroup.mp hk).2

/-- All visits of a call, when the items of a shard are those whose keys belong there. -/
theorem find_visits {α : Type} {keyOf : α → Key} {act : α → Option KeyRecord → Option KeyRecord}
    {visit : MetaManager → ℕ → MetaManager} (items : List α)
    (hfind : ∀ m shard, (visit m shard).find =
      (items.filter fun a => m.shardOf (keyOf a) = shard).foldl (keyedStep keyOf act) m.find)
    (hshard : ∀ m shard, (visit m shard).shardOf = m.shardOf) (m : MetaManager) :
    ((List.range m.shardCount).foldl visit m).find = items.foldl (keyedStep keyOf act) m.find := by
  have hall : ∀ (shards : List ℕ) (m' : MetaManager), m'.shardOf = m.shardOf →
      (shards.foldl visit m').find = shards.foldl (fun f c =>
        (items.filter fun a => m.shardOf (keyOf a) = c).foldl (keyedStep keyOf act) f) m'.find := by
    intro shards
    induction shards with
    | nil => exact fun _ _ => rfl
    | cons shard shards ih =>
      intro m' hm'
      rw [List.foldl_cons, ih _ ((hshard m' shard).trans hm'), hfind, hm', List.foldl_cons]
  rw [hall _ m rfl]
  exact foldl_classes_eq m.shardOf items List.nodup_range fun key => List.mem_range.mpr (m.shardOf_lt key)

theorem find_syncCommit_eq (m : MetaManager) (storeId now : ℕ) (records : List KeyRecord) :
    (m.syncCommit storeId now records).find =
      (records.filter fun rec => rec.key ≠ "").foldl (keyedStep KeyRecord.key (commitAct storeId now))
        m.find := by
  refine find_visits _ (fun m shard => ?_) (fun m shard => ?_) m
  · rw [find_visitCommit_eq, commitGroup, List.filter_filter]
    congr 1
    refine List.filter_congr fun rec _ => ?_
    by_cases hs : m.shardOf rec.key = shard <;> simp [hs]
  · funext key
    exact shardOf_visitCommit records

theorem find_syncRemove_eq (m : MetaManager) (storeId : ℕ) (keys : List Key) :
    (m.syncRemove storeId keys).find = keys.foldl (keyedStep id fun _ _ => none) m.find := by
  refine find_visits _ (fun m shard => ?_) (fun m shard => ?_) m
  · rw [find_visitRemove_eq, removeGroup]
    congr 1
  · funext key
    exact shardOf_visitRemove keys

/-- A record that is looked up twice is found again as it was found. -/
theorem bind_hit_readAct (old : Option KeyRecord) :
    (readAct admits now old).bind (KeyRecord.hit admits now) = old.bind (KeyRecord.hit admits now) := by
  cases old with
  | none => rfl
  | some rec =>
    by_cases ha : admits rec.stat = true
    · simp [readAct, KeyRecord.touched, KeyRecord.hit, ha]
    · simp [readAct, KeyRecord.touched, KeyRecord.hit, ha]

theorem bind_hit_keyedStep {α : Type} {keyOf : α → Key} (a : α) (f : Key → Option KeyRecord) (key : Key) :
    (keyedStep keyOf (fun _ => readAct admits now) f a key).bind (KeyRecord.hit admits now) =
      (f key).bind (KeyRecord.hit admits now) := by
  rw [keyedStep_apply]
  split
  · exact bind_hit_readAct (f key)
  · rfl

theorem bind_hit_foldl {α : Type} {keyOf : α → Key} (items : List α) (f : Key → Option KeyRecord) (key : Key) :
    (items.foldl (keyedStep keyOf fun _ => readAct admits now) f key).bind (KeyRecord.hit admits now) =
      (f key).bind (KeyRecord.hit admits now) := by
  induction items generalizing f with
  | nil => rfl
  | cons a items ih => rw [List.foldl_cons, ih, bind_hit_keyedStep]

def writeHit (found : ℕ → Option KeyRecord) (results : List KeyRecord) (i : ℕ) : List KeyRecord :=
  match found i with
  | none => results
  | some rec => results.set i rec

theorem getElem?_writeHits (found : ℕ → Option KeyRecord) (positions : List ℕ) (results : List KeyRecord)
    (i : ℕ) : (positions.foldl (writeHit found) results)[i]? =
      if i ∈ positions then results[i]?.map fun old => (found i).getD old else results[i]? := by
  induction positions generalizing results with
  | nil => simp
  | cons j positions ih =>
    have hone : (writeHit found results j)[i]? =
        if i = j then results[i]?.map fun old => (found i).getD old else results[i]? := by
      unfold writeHit
      split
      · next hnone => by_cases hij : i = j <;> simp [hij, hnone]
      · next rec hsome =>
        by_cases hij : i = j
        · subst hij
          rw [if_pos rfl, List.getElem?_set_self', hsome]
          rfl
        · rw [if_neg hij, List.getElem?_set_ne (Ne.symm hij)]
    rw [List.foldl_cons, ih, hone]
    by_cases hij : i = j
    · by_cases hmem : i ∈ positions <;> simp [hij, Function.comp_def] <;> cases found j <;> simp
    · simp [hij]

theorem readPosition_lookup (admits : ℕ → Bool) (now : ℕ) (keys : List Key)
    (x : (AList fun _ : Key => KeyRecord) × List KeyRecord) (i : ℕ) :
    (fun key => (readPosition admits now keys x i).1.lookup key) =
      keyedStep (fun i => keys.getD i "") (fun _ => readAct admits now) (fun key => x.1.lookup key) i := by
  funext key
  rw [keyedStep_apply, readPosition]
  split
  · next hnone =>
    split
    · next hk =>
      rw [hk] at hnone
      cases hold : x.1.lookup key with
      | none => rfl
      | some rec =>
        rw [hold] at hnone
        have hmiss : rec.hit admits now = none := hnone
        simp [readAct, KeyRecord.touched, hmiss]
    · rfl
  · next new hsome =>
    split
    · next hk =>
      rw [hk] at hsome
      obtain ⟨rec,hold,hhit⟩ := Option.bind_eq_some_iff.mp hsome
      rw [hk, AList.lookup_insert, hold]
      simp [readAct, KeyRecord.touched, hhit]
    · next hk => exact AList.lookup_insert_ne (Ne.symm hk)

theorem readPosition_results (x : (AList fun _ : Key => KeyRecord) × List KeyRecord) (i : ℕ) :
    (readPosition admits now keys x i).2 =
      writeHit (fun i => (x.1.lookup (keys.getD i "")).bind (KeyRecord.hit admits now)) x.2 i := by
  cases hfound : (x.1.lookup (keys.getD i "")).bind (KeyRecord.hit admits now) with
  | none => simp only [readPosition, writeHit, hfound]
  | some rec => simp only [readPosition, writeHit, hfound]

/-- A visited shard: its records are touched, and those found are written to their positions. -/
theorem foldl_readPosition (group : List ℕ) (x : (AList fun _ : Key => KeyRecord) × List KeyRecord) :
    (fun key => (group.foldl (readPosition admits now keys) x).1.lookup key) =
      group.foldl (keyedStep (fun i => keys.getD i "") fun _ => readAct admits now)
        (fun key => x.1.lookup key) ∧
    (group.foldl (readPosition admits now keys) x).2 = group.foldl (writeHit fun i =>
      (x.1.lookup (keys.getD i "")).bind (KeyRecord.hit admits now)) x.2 := by
  induction group generalizing x with
  | nil => exact ⟨rfl,rfl⟩
  | cons i group ih =>
    obtain ⟨hlookup,hresults⟩ := ih (readPosition admits now keys x i)
    have hfirst := readPosition_lookup admits now keys x i
    refine ⟨?_,?_⟩
    · rw [List.foldl_cons, hlookup, hfirst, List.foldl_cons]
    · rw [List.foldl_cons, hresults, List.foldl_cons, readPosition_results]
      refine congrArg (fun found => group.foldl (writeHit found) _) (funext fun j => ?_)
      rw [congrFun hfirst (keys.getD j "")]
      exact bind_hit_keyedStep i _ _

theorem shardOf_visitRead (x : MetaManager × List KeyRecord) (shard : ℕ) :
    (visitRead admits now keys x shard).1.shardOf = x.1.shardOf := by
  unfold visitRead
  dsimp only
  split <;> rfl

theorem stores_visitRead (x : MetaManager × List KeyRecord) (shard : ℕ) :
    (visitRead admits now keys x shard).1.stores = x.1.stores := by
  unfold visitRead
  dsimp only
  split <;> rfl

theorem mem_positionGroup {i : ℕ} : i ∈ m.positionGroup keys shard ↔
    i < keys.length ∧ m.shardOf (keys.getD i "") = shard := by
  simp [positionGroup]

theorem find_visitRead_eq (x : MetaManager × List KeyRecord) (shard : ℕ) :
    (visitRead admits now keys x shard).1.find = (x.1.positionGroup keys shard).foldl
      (keyedStep (fun i => keys.getD i "") fun _ => readAct admits now) x.1.find := by
  unfold visitRead
  dsimp only
  split
  · next hempty => rw [List.isEmpty_iff.mp hempty, List.foldl_nil]
  · exact find_updateShard (foldl_readPosition _ _).1 fun i hi => (mem_positionGroup.mp hi).2

theorem results_visitRead_eq (x : MetaManager × List KeyRecord) (shard : ℕ) :
    (visitRead admits now keys x shard).2 = (x.1.positionGroup keys shard).foldl (writeHit fun i =>
      (x.1.find (keys.getD i "")).bind (KeyRecord.hit admits now)) x.2 := by
  unfold visitRead
  dsimp only
  split
  · next hempty => rw [List.isEmpty_iff.mp hempty, List.foldl_nil]
  · refine (foldl_readPosition _ _).2.trans (List.foldl_ext _ _ _ fun results i hi => ?_)
    obtain ⟨-,hs⟩ := mem_positionGroup.mp hi
    simp only [writeHit, find, hs]

/-- The visits of the shards so far: the items of these shards, and nothing else. -/
theorem foldl_visitRead (admits : ℕ → Bool) (now : ℕ) (keys : List Key) (shards : List ℕ)
    (x : MetaManager × List KeyRecord) :
    (shards.foldl (visitRead admits now keys) x).1.shardOf = x.1.shardOf ∧
    (shards.foldl (visitRead admits now keys) x).1.stores = x.1.stores ∧
    (shards.foldl (visitRead admits now keys) x).1.find = shards.foldl (fun f c =>
      (x.1.positionGroup keys c).foldl
        (keyedStep (fun i => keys.getD i "") fun _ => readAct admits now) f) x.1.find ∧
    (shards.foldl (visitRead admits now keys) x).2 = (shards.flatMap (x.1.positionGroup keys)).foldl
      (writeHit fun i => (x.1.find (keys.getD i "")).bind (KeyRecord.hit admits now)) x.2 := by
  induction shards generalizing x with
  | nil => exact ⟨rfl,rfl,rfl,rfl⟩
  | cons shard shards ih =>
    obtain ⟨hshard,hstores,hfind,hresults⟩ := ih (visitRead admits now keys x shard)
    have hgroup : (visitRead admits now keys x shard).1.positionGroup keys = x.1.positionGroup keys := by
      funext c
      unfold positionGroup
      rw [shardOf_visitRead]
    refine ⟨?_,?_,?_,?_⟩
    · rw [List.foldl_cons, hshard, shardOf_visitRead]
    · rw [List.foldl_cons, hstores, stores_visitRead]
    · rw [List.foldl_cons, hfind, hgroup, find_visitRead_eq, List.foldl_cons]
    · rw [List.foldl_cons, hresults, hgroup, results_visitRead_eq, List.flatMap_cons, List.foldl_append]
      refine congrArg (fun found => (shards.flatMap (x.1.positionGroup keys)).foldl (writeHit found) _)
        (funext fun j => ?_)
      rw [find_visitRead_eq]
      exact bind_hit_foldl _ _ _

theorem map_getD_range (keys : List Key) :
    (List.range keys.length).map (fun i => keys.getD i "") = keys := by
  refine List.ext_getElem (by simp) fun i hi hi' => ?_
  simp [List.getD_eq_getElem?_getD, List.getElem?_eq_getElem hi']

theorem stores_readShards (m : MetaManager) (admits : ℕ → Bool) (now : ℕ) (keys : List Key) :
    (m.readShards admits now keys).2.stores = m.stores :=
  (foldl_visitRead admits now keys (List.range m.shardCount)
    (m,List.replicate keys.length .blank)).2.1

theorem find_readShards (m : MetaManager) (admits : ℕ → Bool) (now : ℕ) (keys : List Key) :
    (m.readShards admits now keys).2.find =
      keys.foldl (keyedStep id fun _ => readAct admits now) m.find := by
  have hfind := (foldl_visitRead admits now keys (List.range m.shardCount)
    (m,List.replicate keys.length .blank)).2.2.1
  have hkeys : keys.foldl (keyedStep id fun _ => readAct admits now) m.find = (List.range keys.length).foldl
      (keyedStep (fun i => keys.getD i "") fun _ => readAct admits now) m.find := by
    conv_lhs => rw [← map_getD_range keys, List.foldl_map]
    rfl
  rw [hkeys]
  refine hfind.trans ?_
  exact foldl_classes_eq m.shardOf (List.range keys.length) List.nodup_range
    fun key => List.mem_range.mpr (m.shardOf_lt key)

/-- What the visits of all shards answer: position by position what is found there. -/
theorem readShards_fst (m : MetaManager) (admits : ℕ → Bool) (now : ℕ) (keys : List Key) :
    (m.readShards admits now keys).1 =
      keys.map fun key => m.fill (((m.find key).bind (KeyRecord.hit admits now)).getD .blank) := by
  obtain ⟨-,hstores,-,hresults⟩ := foldl_visitRead admits now keys
    (List.range m.shardCount) (m,List.replicate keys.length .blank)
  have hfill : ((List.range m.shardCount).foldl (visitRead admits now keys)
      (m,List.replicate keys.length .blank)).1.fill = m.fill := by
    funext rec
    unfold fill withStore
    rw [hstores]
  unfold readShards
  dsimp only
  rw [hfill, hresults]
  refine List.ext_getElem? fun i => ?_
  rw [List.getElem?_map, getElem?_writeHits, List.getElem?_map]
  by_cases hi : i < keys.length
  · have hmem : i ∈ (List.range m.shardCount).flatMap (m.positionGroup keys) :=
      List.mem_flatMap.mpr ⟨m.shardOf (keys.getD i ""),List.mem_range.mpr (m.shardOf_lt _),
        mem_positionGroup.mpr ⟨hi,rfl⟩⟩
    rw [if_pos hmem]
    simp [hi]
  · have hnot : i ∉ (List.range m.shardCount).flatMap (m.positionGroup keys) := by
      intro hmem
      obtain ⟨shard,-,hgroup⟩ := List.mem_flatMap.mp hmem
      exact hi (mem_positionGroup.mp hgroup).1
    rw [if_neg hnot]
    simp [hi]

/-- The shards answer as the lookup key by key does. -/
theorem readShards_eq_answerFor (m : MetaManager) (admits : ℕ → Bool) (now : ℕ) (keys : List Key) :
    (m.readShards admits now keys).1 = keys.map (m.answerFor admits now) := by
  rw [readShards_fst]
  refine List.map_congr_left fun key _ => ?_
  unfold answerFor
  cases hfind : m.find key with
  | none => rfl
  | some rec =>
    by_cases ha : admits rec.stat = true
    · simp [KeyRecord.hit, ha, fill]
    · simp [KeyRecord.hit, ha]
      rfl

end MetaManager

namespace UnshardedMeta
variable {u : UnshardedMeta} {admits : ℕ → Bool} {now : ℕ}

structure Merges (m : MetaManager) (u : UnshardedMeta) : Prop where
  find : m.find = u.find
  stores : ∀ storeId, m.stores.lookup storeId = u.stores storeId

theorem foldl_commitRecord (storeId now : ℕ) (records : List KeyRecord) (u : UnshardedMeta) :
    records.foldl (commitRecord storeId now) u = ⟨(records.filter fun rec => rec.key ≠ "").foldl
      (keyedStep KeyRecord.key (MetaManager.commitAct storeId now)) u.find,u.stores⟩ := by
  induction records generalizing u with
  | nil => rfl
  | cons rec records ih =>
    rw [List.foldl_cons, ih]
    by_cases hkey : rec.key = ""
    · simp [commitRecord, hkey]
    · simp [commitRecord, hkey, keyedStep]

theorem foldl_removeKey (keys : List Key) (u : UnshardedMeta) :
    keys.foldl removeKey u = ⟨keys.foldl (keyedStep id fun _ _ => none) u.find,u.stores⟩ := by
  induction keys generalizing u with
  | nil => rfl
  | cons key keys ih =>
    rw [List.foldl_cons, ih]
    rfl

theorem readKey_snd (u : UnshardedMeta) (key : Key) : (u.readKey admits now key).2 =
    ⟨keyedStep id (fun _ => MetaManager.readAct admits now) u.find key,u.stores⟩ := by
  have hkeep : ∀ old, u.find key = old → u = ⟨Function.update u.find key old,u.stores⟩ := by
    rintro _ rfl
    rw [Function.update_eq_self]
  unfold readKey keyedStep
  cases hold : u.find key with
  | none => simpa [hold, MetaManager.readAct] using hkeep none hold
  | some rec =>
    by_cases ha : admits rec.stat = true
    · simp [hold, MetaManager.readAct, KeyRecord.touched, KeyRecord.hit, ha]
    · simpa [hold, MetaManager.readAct, KeyRecord.touched, KeyRecord.hit, ha] using hkeep (some rec) hold

theorem readKey_fst (u : UnshardedMeta) (key : Key) : (u.readKey admits now key).1 =
    u.fill (((u.find key).bind (KeyRecord.hit admits now)).getD .blank) := by
  unfold readKey
  split
  · next hnone =>
    rw [hnone]
    rfl
  · next rec hsome =>
    rw [hsome]
    rfl

theorem read_eq (keys : List Key) (u : UnshardedMeta) : read admits now keys u =
    (keys.map fun key => u.fill (((u.find key).bind (KeyRecord.hit admits now)).getD .blank),
      ⟨keys.foldl (keyedStep id fun _ => MetaManager.readAct admits now) u.find,u.stores⟩) := by
  induction keys generalizing u with
  | nil => rfl
  | cons key keys ih =>
    rw [read, ih, readKey_snd, readKey_fst, List.map_cons, List.foldl_cons]
    refine congrArg (fun answers => (_ :: answers,_)) (List.map_congr_left fun key' _ => ?_)
    rw [MetaManager.bind_hit_keyedStep]
    rfl

variable {m : MetaManager}

theorem Merges.fill (h : Merges m u) : m.fill = u.fill := by
  funext rec
  unfold MetaManager.fill UnshardedMeta.fill MetaManager.withStore UnshardedMeta.withStore
  rw [h.stores]

theorem Merges.read (h : Merges m u) (admits : ℕ → Bool) (now : ℕ) (keys : List Key) :
    (m.readShards admits now keys).1 = (UnshardedMeta.read admits now keys u).1 ∧
      Merges (m.readShards admits now keys).2 (UnshardedMeta.read admits now keys u).2 := by
  rw [read_eq, MetaManager.readShards_fst, h.fill, h.find]
  refine ⟨rfl,?_,fun storeId => ?_⟩
  · rw [MetaManager.find_readShards, h.find]
  · rw [MetaManager.stores_readShards, h.stores]

theorem stores_syncRemove (m : MetaManager) (storeId : ℕ) (keys : List Key) :
    (m.syncRemove storeId keys).stores = m.stores := by
  have hall : ∀ (shards : List ℕ) (m : MetaManager),
      (shards.foldl (MetaManager.visitRemove keys) m).stores = m.stores := by
    intro shards
    induction shards with
    | nil => exact fun _ => rfl
    | cons shard shards ih =>
      intro m
      rw [List.foldl_cons, ih, MetaManager.stores_visitRemove]
  exact hall _ m

theorem Merges.registerStore (h : Merges m u) (now : ℕ) (info : StoreInfo) :
    (m.serve now (.registerStore info)).1 = (u.serve now (.registerStore info)).1 ∧
      Merges (m.serve now (.registerStore info)).2 (u.serve now (.registerStore info)).2 := by
  unfold MetaManager.serve UnshardedMeta.serve MetaManager.registerStore
  dsimp only
  split
  · exact ⟨rfl,h⟩
  · refine ⟨rfl,h.find,fun storeId => ?_⟩
    by_cases hid : storeId = info.storeId
    · subst hid
      rw [AList.lookup_insert]
      exact (Function.update_self info.storeId (some info) u.stores).symm
    · rw [AList.lookup_insert_ne hid, h.stores]
      exact (Function.update_of_ne hid (some info) u.stores).symm

/-- One call: the same answer, and the directories still bind the same. -/
theorem Merges.serve (h : Merges m u) (now : ℕ) (call : MetaCall) :
    (m.serve now call).1 = (u.serve now call).1 ∧ Merges (m.serve now call).2 (u.serve now call).2 := by
  cases call with
  | registerStore info => exact h.registerStore now info
  | syncCommit storeId records =>
    refine ⟨rfl,?_,fun id => ?_⟩
    · exact (MetaManager.find_syncCommit_eq m storeId now records).trans (by
        rw [h.find, UnshardedMeta.serve, foldl_commitRecord])
    · rw [UnshardedMeta.serve, foldl_commitRecord]
      exact (congrArg (AList.lookup id) (MetaManager.stores_syncCommit records)).trans (h.stores id)
  | syncRemove storeId keys =>
    refine ⟨rfl,?_,fun id => ?_⟩
    · exact (MetaManager.find_syncRemove_eq m storeId keys).trans (by
        rw [h.find, UnshardedMeta.serve, foldl_removeKey])
    · rw [UnshardedMeta.serve, foldl_removeKey]
      exact (congrArg (AList.lookup id) (stores_syncRemove m storeId keys)).trans (h.stores id)
  | batchExist keys =>
    obtain ⟨hanswer,hmerges⟩ := h.read (fun stat => stat == 1) now keys
    exact ⟨congrArg MetaReply.records hanswer,hmerges⟩
  | batchLookup keys =>
    obtain ⟨hanswer,hmerges⟩ := h.read (fun stat => stat != 2) now keys
    exact ⟨congrArg MetaReply.records hanswer,hmerges⟩

theorem Merges.serveAll (h : Merges m u) (calls : List (ℕ × MetaCall)) :
    m.serveAll calls = u.serveAll calls := by
  induction calls generalizing m u with
  | nil => rfl
  | cons call calls ih =>
    obtain ⟨now,call⟩ := call
    obtain ⟨hanswer,hnext⟩ := h.serve now call
    rw [MetaManager.serveAll, UnshardedMeta.serveAll, hanswer, ih hnext]

end UnshardedMeta

/-- Whatever the shards and the hash, a directory answers as one map does. -/
theorem serveAll_eq_unsharded (hash : Key → ℕ) (shardCount : ℕ) (h : 0 < shardCount)
    (calls : List (ℕ × MetaCall)) :
    (MetaManager.create hash shardCount h).serveAll calls = UnshardedMeta.empty.serveAll calls := by
  have hmerges : UnshardedMeta.Merges (MetaManager.create hash shardCount h) .empty :=
    ⟨funext fun _ => MetaManager.find_create hash shardCount h,fun _ => rfl⟩
  exact hmerges.serveAll calls

/-- Two shards, a commit with a repeated and an empty key, and a lookup of keys of both. -/
theorem serveAll_eq_unsharded_two :
    (MetaManager.create String.length 2 Nat.two_pos).serveAll
      [(1,.registerStore ⟨7,3,"addr","file"⟩),
        (2,.syncCommit 7 [{ KeyRecord.blank with key := "a", offset := 1 },.blank,
          { KeyRecord.blank with key := "bc" },{ KeyRecord.blank with key := "a", offset := 2 }]),
        (3,.batchExist ["bc","a","","a"])] =
      [.status .OK,.status .OK,.records [⟨"bc",7,0,0,1,3,2,"",3,"file","addr"⟩,
        ⟨"a",7,2,0,1,3,2,"",3,"file","addr"⟩,.blank,⟨"a",7,2,0,1,3,2,"",3,"file","addr"⟩]] := by
  rw [serveAll_eq_unsharded]
  rfl

end FalconKV
