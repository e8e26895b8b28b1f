import FalconKV.AtomicCalls.Histories
import FalconKV.Meta.RecordTimes

/-! # Calls of the directory side by side

A call of the directory locks one shard after the other, and the map of the stores once for each
field that it fills in. Other calls come in between. A step is one critical section, or a reading
of the clock. Two lookups may hold the lock of a shard at once, where they write nothing but the
time of the last access; here one of them comes first.
-/
namespace FalconKV
open AtomicCalls

inductive MetaStep
  | nowMs
  /-- a critical section, and the results that its call has so far -/
  | enter (now : ℕ) (s : MetaSection) (results : List KeyRecord)
  | getStoreNodeId (storeId : ℕ)
  | getStoreDataFile (storeId : ℕ)
  | getStoreAddr (storeId : ℕ)

abbrev MetaStep.Res : MetaStep → Type
  | nowMs => ℕ
  | enter .. => List KeyRecord
  | getStoreNodeId _ => ℕ
  | getStoreDataFile _ => String
  | getStoreAddr _ => String

abbrev metaSteps : Signature := ⟨MetaStep,MetaStep.Res⟩

/-- Of a store that is not registered. -/
def StoreInfo.unknown : StoreInfo := ⟨0,0,"",""⟩

namespace MetaManager

def storeInfo (m : MetaManager) (storeId : ℕ) : StoreInfo := (m.stores.lookup storeId).getD .unknown

def readSection (m : MetaManager) (now : ℕ) (s : MetaSection) (results : List KeyRecord) : List KeyRecord :=
  match s with
  | .exist shard keys => (visitRead (fun stat => stat == 1) now keys (m,results) shard).2
  | .lookup shard keys => (visitRead (fun stat => stat != 2) now keys (m,results) shard).2
  | _ => results

def stepOf (op : MetaStep) (clock : ℕ) (m : MetaManager) : Option (op.Res × MetaManager) :=
  match op with
  | .nowMs => some (clock,m)
  | .enter now s results => some (m.readSection now s results,m.enter now s)
  | .getStoreNodeId storeId => some ((m.storeInfo storeId).nodeId,m)
  | .getStoreDataFile storeId => some ((m.storeInfo storeId).dataFile,m)
  | .getStoreAddr storeId => some ((m.storeInfo storeId).storeAddr,m)

end MetaManager

def metaMachine : Machine metaSteps MetaManager := ⟨ℕ,MetaManager.stepOf⟩

abbrev MetaProg := Prog metaSteps
abbrev MetaEvent := Event metaSteps MetaManager

namespace MetaOps

abbrev step (op : MetaStep) : MetaProg op.Res := Prog.perform (E := metaSteps) op

def visitShards (sect : ℕ → MetaSection) (now : ℕ) : List ℕ → List KeyRecord → MetaProg (List KeyRecord)
  | [], results => pure results
  | shard :: shards, results => do
    let results ← step (.enter now (sect shard) results)
    visitShards sect now shards results

def fill (rec : KeyRecord) : MetaProg KeyRecord :=
  if rec.key = "" then pure rec
  else do
    let nodeId ← step (.getStoreNodeId rec.storeId)
    let dataFile ← step (.getStoreDataFile rec.storeId)
    let storeAddr ← step (.getStoreAddr rec.storeId)
    pure { rec with nodeId := nodeId, dataFile := dataFile, storeAddr := storeAddr }

def registerStore (info : StoreInfo) : MetaProg Status :=
  if info.storeId = 0 then pure (.invalidArg "store_id must be non-zero")
  else do
    let _ ← step (.enter 0 (.register info) [])
    pure .OK

variable (shardCount : ℕ)

def read (sect : ℕ → MetaSection) (keys : List Key) : MetaProg (List KeyRecord) := do
  let now ← step .nowMs
  let results ← visitShards sect now (List.range shardCount) (keys.map fun _ => .blank)
  Prog.mapEach fill results

def batchExist (keys : List Key) : MetaProg (List KeyRecord) :=
  read shardCount (fun shard => .exist shard keys) keys

def batchLookup (keys : List Key) : MetaProg (List KeyRecord) :=
  read shardCount (fun shard => .lookup shard keys) keys

def syncCommit (storeId : ℕ) (records : List KeyRecord) : MetaProg Status := do
  let now ← step .nowMs
  let _ ← visitShards (fun shard => .commit shard storeId records) now (List.range shardCount) []
  pure .OK

/-- No clock is read. -/
def syncRemove (keys : List Key) : MetaProg Status := do
  let _ ← visitShards (fun shard => .remove shard keys) 0 (List.range shardCount) []
  pure .OK

def serve : MetaCall → MetaProg MetaReply
  | .registerStore info => do
    let s ← registerStore info
    pure (.status s)
  | .syncCommit storeId records => do
    let s ← syncCommit shardCount storeId records
    pure (.status s)
  | .syncRemove _ keys => do
    let s ← syncRemove shardCount keys
    pure (.status s)
  | .batchExist keys => do
    let records ← batchExist shardCount keys
    pure (.records records)
  | .batchLookup keys => do
    let records ← batchLookup shardCount keys
    pure (.records records)

/-- A thread that serves one call. -/
def run (call : MetaCall) : MetaProg (MetaCall × MetaReply) := do
  let reply ← serve shardCount call
  pure (call,reply)

end MetaOps

namespace MetaSection

/-- Whether the section commits, removes or looks up the key. -/
def touches (shardOf : Key → ℕ) (key : Key) : MetaSection → Bool
  | register _ => false
  | commit shard _ records =>
    shardOf key == shard && (key != "" && (records.map KeyRecord.key).contains key)
  | remove shard keys => shardOf key == shard && keys.contains key
  | exist shard keys => shardOf key == shard && keys.contains key
  | lookup shard keys => shardOf key == shard && keys.contains key

def act (shardOf : Key → ℕ) (now : ℕ) (s : MetaSection) (key : Key) (old : Option KeyRecord) :
    Option KeyRecord :=
  if s.touches shardOf key then
    match s with
    | register _ => old
    | commit _ storeId records =>
      (records.filter fun rec => rec.key = key).getLast?.elim old fun rec =>
        some (MetaManager.committed old storeId now rec)
    | remove .. => none
    | exist .. => MetaManager.readAct (fun stat => stat == 1) now old
    | lookup .. => MetaManager.readAct (fun stat => stat != 2) now old
  else old

end MetaSection

namespace MetaStep

def entered : MetaStep → Option (ℕ × MetaSection)
  | enter now s _ => some (now,s)
  | _ => none

def touches (shardOf : Key → ℕ) (key : Key) (op : MetaStep) : Bool :=
  op.entered.any fun x => x.2.touches shardOf key

def act (shardOf : Key → ℕ) (op : MetaStep) (key : Key) (old : Option KeyRecord) : Option KeyRecord :=
  op.entered.elim old fun x => x.2.act shardOf x.1 key old

def actStore (op : MetaStep) (storeId : ℕ) (old : Option StoreInfo) : Option StoreInfo :=
  match op with
  | enter _ (.register info) _ => if info.storeId = storeId ∧ storeId ≠ 0 then some info else old
  | _ => old

end MetaStep

/-- The record of a key after a history, from an empty directory. -/
def bound (shardOf : Key → ℕ) (tr : List MetaEvent) (key : Key) : Option KeyRecord :=
  AtomicCalls.register (MetaStep.act shardOf) none key tr

/-- The registration of a store that stands after a history. -/
def registered (tr : List MetaEvent) (storeId : ℕ) : Option StoreInfo :=
  AtomicCalls.register MetaStep.actStore none storeId tr

/-- The call commits, removes or looks up the key. -/
def MetaCall.names (key : Key) : MetaCall → Bool
  | registerStore _ => false
  | syncCommit _ records => key != "" && (records.map KeyRecord.key).contains key
  | syncRemove _ keys => keys.contains key
  | batchExist keys => keys.contains key
  | batchLookup keys => keys.contains key

namespace MetaManager
variable {m m' : MetaManager} {key : Key} {now shard storeId : ℕ} {s : MetaSection}

theorem find_enter_commit (records : List KeyRecord) : (m.enter now (.commit shard storeId records)).find key =
    (MetaSection.commit shard storeId records).act m.shardOf now key (m.find key) := by
  have hfind : (m.enter now (.commit shard storeId records)).find key =
      ((m.commitGroup records shard).filter fun rec => rec.key = key).getLast?.elim (m.find key)
        fun rec => some (committed (m.find key) storeId now rec) :=
    find_visitCommit_last m storeId now shard records key
  rw [hfind]
  unfold MetaSection.act
  split
  · next htouch =>
    simp only [MetaSection.touches, Bool.and_eq_true, beq_iff_eq, bne_iff_ne] at htouch
    obtain ⟨hshard,hne,-⟩ := htouch
    have hgroup : ((m.commitGroup records shard).filter fun rec => rec.key = key) =
        records.filter fun rec => rec.key = key := by
      rw [commitGroup, List.filter_filter]
      apply List.filter_congr
      intro rec _
      by_cases hk : rec.key = key
      · simp [hk, hne, hshard]
      · simp [hk]
    rw [hgroup]
  · next htouch =>
    have hnone : ((m.commitGroup records shard).filter fun rec => rec.key = key) = [] := by
      apply List.filter_eq_nil_iff.mpr
      intro rec hrec hk
      obtain ⟨hmem,hne,hshard⟩ := mem_commitGroup.mp hrec
      obtain rfl := of_decide_eq_true hk
      apply htouch
      simp only [MetaSection.touches, Bool.and_eq_true, beq_iff_eq, bne_iff_ne, List.contains_iff_mem]
      exact ⟨hshard,hne,List.mem_map_of_mem hmem⟩
    rw [hnone]
    rfl

theorem find_enter_remove (keys : List Key) : (m.enter now (.remove shard keys)).find key =
    (MetaSection.remove shard keys).act m.shardOf now key (m.find key) := by
  have hfind : (m.enter now (.remove shard keys)).find key =
      if key ∈ m.removeGroup keys shard then none else m.find key := find_visitRemove keys
  rw [hfind]
  by_cases htouch : (MetaSection.remove shard keys).touches m.shardOf key = true
  · simp only [MetaSection.act, htouch, if_true]
    simp only [MetaSection.touches, Bool.and_eq_true, beq_iff_eq, List.contains_iff_mem] at htouch
    exact if_pos (mem_removeGroup.mpr ⟨htouch.2,htouch.1⟩)
  · simp only [MetaSection.act, htouch]
    apply if_neg
    intro hmem
    obtain ⟨hkeys,hshard⟩ := mem_removeGroup.mp hmem
    apply htouch
    simp [MetaSection.touches, hkeys, hshard]

/-- A lookup touches a record once, however often its key is in the list. -/
theorem readAct_readAct (admits : ℕ → Bool) (now : ℕ) (old : Option KeyRecord) :
    readAct admits now (readAct admits now old) = readAct admits now old := by
  cases old with
  | none => rfl
  | some rec => by_cases ha : admits rec.stat = true <;> simp [readAct, KeyRecord.touched, KeyRecord.hit, ha]

/-- Items that all do the same, which is done when it is done once. -/
theorem foldl_keyedStep_same {α : Type} {keyOf : α → Key} {act : Option KeyRecord → Option KeyRecord}
    (hact : ∀ old, act (act old) = act old) (items : List α) (f : Key → Option KeyRecord) (key : Key) :
    items.foldl (keyedStep keyOf fun _ => act) f key =
      if ∃ a ∈ items, keyOf a = key then act (f key) else f key := by
  induction items generalizing f with
  | nil => simp
  | cons a items ih =>
    rw [List.foldl_cons, ih, keyedStep_apply]
    by_cases ha : keyOf a = key
    · by_cases hrest : ∃ b ∈ items, keyOf b = key <;> simp [ha, hrest, hact]
    · by_cases hrest : ∃ b ∈ items, keyOf b = key <;> simp [ha, hrest]

theorem exists_mem_positionGroup {keys : List Key} :
    (∃ i ∈ m.positionGroup keys shard, keys.getD i "" = key) ↔ m.shardOf key = shard ∧ key ∈ keys := by
  constructor
  · rintro ⟨i,hi,rfl⟩
    obtain ⟨hlt,hshard⟩ := mem_positionGroup.mp hi
    exact ⟨hshard,by simp [hlt]⟩
  · rintro ⟨hshard,hmem⟩
    obtain ⟨i,hlt,rfl⟩ := List.getElem_of_mem hmem
    have hget : keys.getD i "" = keys[i] := by simp [hlt]
    exact ⟨i,mem_positionGroup.mpr ⟨hlt,by rw [hget, hshard]⟩,hget⟩

theorem find_visitRead (admits : ℕ → Bool) (now : ℕ) (keys : List Key) (results : List KeyRecord) :
    (visitRead admits now keys (m,results) shard).1.find key =
      if m.shardOf key == shard && keys.contains key then readAct admits now (m.find key) else m.find key := by
  rw [find_visitRead_eq, foldl_keyedStep_same (readAct_readAct admits now)]
  apply if_congr _ rfl rfl
  rw [exists_mem_positionGroup]
  simp

theorem find_enter (m : MetaManager) (now : ℕ) (s : MetaSection) (key : Key) :
    (m.enter now s).find key = s.act m.shardOf now key (m.find key) := by
  cases s with
  | register info => exact find_registerStore info
  | commit shard storeId records => exact find_enter_commit records
  | remove shard keys => exact find_enter_remove keys
  | exist shard keys => exact find_visitRead _ now keys []
  | lookup shard keys => exact find_visitRead _ now keys []

theorem stores_enter (m : MetaManager) (now : ℕ) (s : MetaSection) (results : List KeyRecord) (storeId : ℕ) :
    (m.enter now s).stores.lookup storeId =
      (MetaStep.enter now s results).actStore storeId (m.stores.lookup storeId) := by
  cases s with
  | register info =>
    simp only [MetaManager.enter, MetaManager.registerStore, MetaStep.actStore]
    by_cases hzero : info.storeId = 0
    · have hnot : ¬(info.storeId = storeId ∧ storeId ≠ 0) := by
        rintro ⟨rfl,hne⟩
        exact hne hzero
      rw [if_pos hzero, if_neg hnot]
    · rw [if_neg hzero]
      by_cases hid : info.storeId = storeId
      · subst hid
        rw [if_pos ⟨rfl,hzero⟩]
        exact AList.lookup_insert _
      · rw [if_neg fun h => hid h.1]
        exact AList.lookup_insert_ne (Ne.symm hid)
  | commit shard id records => exact congrArg (AList.lookup storeId) (stores_visitCommit m id now shard records)
  | remove shard keys => exact congrArg (AList.lookup storeId) (stores_visitRemove m keys shard)
  | exist shard keys => exact congrArg (AList.lookup storeId) (stores_visitRead (m,[]) shard)
  | lookup shard keys => exact congrArg (AList.lookup storeId) (stores_visitRead (m,[]) shard)

theorem registers_find (shardOf : Key → ℕ) : Registers metaMachine (fun m _ => m.shardOf = shardOf)
    (fun m key => m.find key) (MetaStep.act shardOf) := by
  intro m op c r m' hshard hs key
  cases op with
  | enter now s results =>
    cases hs
    have hfind := find_enter m now s key
    rw [hshard] at hfind
    exact hfind
  | _ =>
    cases hs
    rfl

theorem registers_stores : Registers metaMachine (fun _ _ => True)
    (fun m storeId => m.stores.lookup storeId) MetaStep.actStore := by
  intro m op c r m' _ hs storeId
  cases op with
  | enter now s results =>
    cases hs
    exact stores_enter m now s results storeId
  | _ =>
    cases hs
    rfl

theorem shardOf_stepOf {op : MetaStep} {c : ℕ} {r : op.Res} (hs : m.stepOf op c = some (r,m')) :
    m'.shardOf = m.shardOf := by
  cases op with
  | enter now s results =>
    cases hs
    exact shardOf_enter m now s
  | _ =>
    cases hs
    rfl

end MetaManager

end FalconKV
