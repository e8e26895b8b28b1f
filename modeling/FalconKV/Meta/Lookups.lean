import FalconKV.Meta.MetaManager

/-! # Looking keys up at Meta

A lookup answers one record for each position of its key list, an empty one for a miss.
The service sends these over the wire, and the client of Meta sorts what comes back by
key again.
-/
namespace FalconKV

namespace MetaManager

/-- Every record lies under its own key, and none under the empty key. -/
def Keyed (m : MetaManager) : Prop := ∀ key rec, m.find key = some rec → rec.key = key ∧ key ≠ ""

/-- `GetStoreNodeId`, `GetStoreDataFile` and `GetStoreAddr` of the record's store. -/
def withStore (m : MetaManager) (rec : KeyRecord) : KeyRecord :=
  let info := (m.stores.lookup rec.storeId).getD ⟨0,0,"",""⟩
  { rec with nodeId := info.nodeId, dataFile := info.dataFile, storeAddr := info.storeAddr }

/-- The answer for one key; `admits` tells which states of a record count. -/
def answerFor (m : MetaManager) (admits : ℕ → Bool) (now : ℕ) (key : Key) : KeyRecord :=
  match m.find key with
  | none => .blank
  | some rec =>
    if !admits rec.stat then .blank
    else if rec.key = "" then { rec with accessTimeMs := now }
    else m.withStore { rec with accessTimeMs := now }

def batchExist (m : MetaManager) (now : ℕ) (keys : List Key) : List KeyRecord :=
  keys.map (m.answerFor (fun stat => stat == 1) now)

/-- Only evicted records are left out. -/
def batchLookup (m : MetaManager) (now : ℕ) (keys : List Key) : List KeyRecord :=
  keys.map (m.answerFor (fun stat => stat != 2) now)

end MetaManager

/-- `KeyRecordToProto` and `ProtoToKeyRecord`: the fields that a `KeyDesc` carries, and the
state of a committed record. -/
def KeyRecord.overWire (rec : KeyRecord) : KeyRecord :=
  { KeyRecord.blank with
    key := rec.key
    storeId := rec.storeId
    offset := rec.offset
    size := rec.size
    stat := 1
    nodeId := rec.nodeId
    dataFile := rec.dataFile
    storeAddr := rec.storeAddr }

namespace MetaServiceImpl

def emptyDesc : KeyRecord := KeyRecord.blank.overWire

def batchExist (m : MetaManager) (now : ℕ) (keys : List Key) : List KeyRecord :=
  (m.batchExist now keys).map fun rec =>
    if rec.key ≠ "" ∧ rec.stat = 1 then rec.overWire else emptyDesc

def batchLookup (m : MetaManager) (now : ℕ) (keys : List Key) : List KeyRecord :=
  (m.batchLookup now keys).map fun rec => if rec.key ≠ "" then rec.overWire else emptyDesc

end MetaServiceImpl

namespace MetaRpcClient

def hitMap (descs : List KeyRecord) : AList fun _ : Key => KeyRecord :=
  descs.foldl (fun hits rec => if rec.key = "" then hits else hits.insert rec.key rec) ∅

/-- The records for a key list from the answer, in the order of the list; `none` when there
is no connection, or the call fails. -/
def records (keys : List Key) (answer : Option (List KeyRecord)) : List KeyRecord :=
  match answer with
  | none => keys.map fun _ => .blank
  | some descs => keys.map fun key => ((hitMap descs).lookup key).getD .blank

end MetaRpcClient

namespace MetaManager
variable {m : MetaManager} {key : Key} {shard storeId now : ℕ}

theorem keyed_create (hash : Key → ℕ) (n : ℕ) (h : 0 < n) : (create hash n h).Keyed := by
  intro key rec hf
  cases hf

theorem Keyed.visitCommit (h : m.Keyed) (records : List KeyRecord) :
    (MetaManager.visitCommit storeId now records m shard).Keyed := by
  intro key rec hf
  rcases find_visitCommit_group m key shard storeId now records with ⟨-,heq⟩ | ⟨new,hnew,hkey,old,heq⟩
  · exact h key rec (heq ▸ hf)
  · have hgroup := mem_commitGroup.mp ((latest_sublist _).subset hnew)
    rw [heq] at hf
    cases hf
    exact ⟨hkey,hkey ▸ hgroup.2.1⟩

/-- The answer of `BatchExist` for a key has the key if Meta reports it, and none otherwise. -/
theorem Keyed.key_answerFor (h : m.Keyed) (now : ℕ) (key : Key) :
    (m.answerFor (fun stat => stat == 1) now key).key = if m.reports key then key else "" := by
  unfold MetaManager.answerFor reports
  cases hf : m.find key with
  | none => rfl
  | some rec =>
    obtain ⟨hkey,hne⟩ := h key rec hf
    have hnonempty : rec.key ≠ "" := hkey.trans_ne hne
    by_cases hstat : rec.stat = 1
    · simp only [hstat, Option.any_some, beq_self_eq_true, Bool.not_true, Bool.false_eq_true, if_true,
        if_false, if_neg hnonempty]
      exact hkey
    · simp [hstat, KeyRecord.blank]

end MetaManager

namespace MetaServiceImpl
variable {m : MetaManager} {key : Key} {now : ℕ} {keys : List Key} {rec : KeyRecord}

theorem mem_batchExist (h : m.Keyed) (hrec : rec ∈ batchExist m now keys) (hkey : rec.key ≠ "") :
    rec.key ∈ keys ∧ m.reports rec.key = true := by
  obtain ⟨answer,hanswer,rfl⟩ := List.mem_map.mp hrec
  obtain ⟨key,hmem,rfl⟩ := List.mem_map.mp hanswer
  split at hkey
  · next hhit =>
    rw [if_pos hhit]
    have heq : (KeyRecord.overWire (m.answerFor (fun stat => stat == 1) now key)).key =
        if m.reports key then key else "" := h.key_answerFor now key
    rw [heq] at hkey ⊢
    by_cases hrep : m.reports key = true
    · rw [if_pos hrep]
      exact ⟨hmem,hrep⟩
    · rw [if_neg hrep] at hkey
      exact absurd rfl hkey
  · exact absurd rfl hkey

theorem stat_of_mem_batchExist (hrec : rec ∈ batchExist m now keys) : rec.stat = 1 := by
  obtain ⟨answer,-,rfl⟩ := List.mem_map.mp hrec
  split <;> rfl

theorem exists_mem_batchExist (h : m.Keyed) (now : ℕ) (hmem : key ∈ keys) (hrep : m.reports key = true) :
    ∃ rec ∈ batchExist m now keys, rec.key = key := by
  have hkey := h.key_answerFor now key
  rw [if_pos hrep] at hkey
  have hne : key ≠ "" := by
    unfold MetaManager.reports at hrep
    cases hf : m.find key with
    | none => rw [hf] at hrep; cases hrep
    | some rec => exact (h key rec hf).2
  have hstat : (m.answerFor (fun stat => stat == 1) now key).stat = 1 := by
    unfold MetaManager.answerFor MetaManager.reports at *
    cases hf : m.find key with
    | none => rw [hf] at hrep; cases hrep
    | some rec =>
      have hone : rec.stat = 1 := by simpa [hf] using hrep
      by_cases hrk : rec.key = "" <;> simp [hone, hrk, MetaManager.withStore]
  refine ⟨_,List.mem_map_of_mem (List.mem_map_of_mem hmem),?_⟩
  rw [if_pos ⟨hkey.trans_ne hne,hstat⟩]
  exact hkey

end MetaServiceImpl

namespace MetaRpcClient
variable {key : Key}

/-- The last record that came back for a key; the empty key finds nothing. -/
theorem lookup_hitMap (key : Key) (descs : List KeyRecord) :
    ((key = "" ∨ key ∉ descs.map KeyRecord.key) ∧ (hitMap descs).lookup key = none) ∨
      ∃ rec ∈ descs, rec.key = key ∧ key ≠ "" ∧ (hitMap descs).lookup key = some rec := by
  have hfold : ∀ (descs : List KeyRecord) (hits : AList fun _ : Key => KeyRecord),
      ((key = "" ∨ key ∉ descs.map KeyRecord.key) ∧
        (descs.foldl (fun hits rec => if rec.key = "" then hits else hits.insert rec.key rec) hits).lookup
          key = hits.lookup key) ∨
      ∃ rec ∈ descs, rec.key = key ∧ key ≠ "" ∧
        (descs.foldl (fun hits rec => if rec.key = "" then hits else hits.insert rec.key rec) hits).lookup
          key = some rec := by
    intro descs
    induction descs with
    | nil => exact fun hits => .inl ⟨.inr List.not_mem_nil,rfl⟩
    | cons desc descs ih =>
      intro hits
      rw [List.foldl_cons]
      rcases ih (if desc.key = "" then hits else hits.insert desc.key desc) with
        ⟨hnot,heq⟩ | ⟨rec,hrec,hrest⟩
      · by_cases hempty : desc.key = ""
        · rw [if_pos hempty] at heq ⊢
          refine .inl ⟨?_,heq⟩
          by_cases hk : key = "" <;> simp_all
        · rw [if_neg hempty] at heq ⊢
          by_cases hk : desc.key = key
          · subst hk
            exact .inr ⟨desc,List.mem_cons_self,rfl,hempty,heq.trans (AList.lookup_insert _)⟩
          · refine .inl ⟨?_,heq.trans (AList.lookup_insert_ne (Ne.symm hk))⟩
            simpa [Ne.symm hk] using hnot
      · exact .inr ⟨rec,List.mem_cons_of_mem _ hrec,hrest⟩
  exact hfold descs ∅

/-- The record for a key of the list is a hit exactly if Meta reports the key. -/
theorem hit_iff {m : MetaManager} (h : m.Keyed) {keys : List Key} {now : ℕ} (hmem : key ∈ keys)
    {rec : KeyRecord}
    (hrec : ((hitMap (MetaServiceImpl.batchExist m now keys)).lookup key).getD .blank = rec) :
    (rec.key ≠ "" ∧ rec.stat = 1) ↔ m.reports key = true := by
  subst hrec
  rcases lookup_hitMap key (MetaServiceImpl.batchExist m now keys) with
    ⟨hnot,heq⟩ | ⟨rec,hrec,rfl,hne,heq⟩
  · rw [heq]
    constructor
    · intro hblank
      exact absurd rfl hblank.1
    · intro hrep
      obtain ⟨rec,hrec,rfl⟩ := MetaServiceImpl.exists_mem_batchExist h now hmem hrep
      rcases hnot with hempty | hnot
      · unfold MetaManager.reports at hrep
        cases hf : m.find rec.key with
        | none => rw [hf] at hrep; cases hrep
        | some found => exact absurd hempty (h _ found hf).2
      · exact absurd (List.mem_map_of_mem hrec) hnot
  · rw [heq]
    exact ⟨fun _ => (MetaServiceImpl.mem_batchExist h hrec hne).2,
      fun _ => ⟨hne,MetaServiceImpl.stat_of_mem_batchExist hrec⟩⟩

end MetaRpcClient

end FalconKV
