import FalconKV.Meta.RecordTimes

/-! # Answers of Meta over the wire

The service puts the records it finds into messages and leaves out what has its default. Its
client reads the messages of a `BatchLookup` by position, and those of a `BatchExist` by key.
-/
namespace FalconKV

/-- The message `KeyDesc`: a field that is not set reads as its default. The access type, which
the client of Meta does not read, is left out. -/
structure KeyDescProto where
  key : Option Key := none
  storeId : Option ℕ := none
  offset : Option ℕ := none
  size : Option ℕ := none
  dataFile : Option String := none
  nodeId : Option ℕ := none
  storeAddr : Option String := none
  deriving DecidableEq, Repr

structure BatchExistResponse where
  hitCount : ℤ
  keyDescs : List KeyDescProto

structure BatchLookupResponse where
  keyDescs : List KeyDescProto

namespace MetaServiceImpl

def keyRecordToProto (rec : KeyRecord) : KeyDescProto where
  key := some rec.key
  storeId := some rec.storeId
  offset := some rec.offset
  size := some rec.size
  nodeId := if rec.nodeId ≠ 0 then some rec.nodeId else none
  dataFile := if rec.dataFile ≠ "" then some rec.dataFile else none
  storeAddr := if rec.storeAddr ≠ "" then some rec.storeAddr else none

def counts (rec : KeyRecord) : Bool := rec.key ≠ "" && rec.stat == 1

/-- Every record gets a message, which stays empty for a miss. -/
def serveExist (m : MetaManager) (now : ℕ) (keys : List Key) : BatchExistResponse × MetaManager :=
  let x := m.readShards (fun stat => stat == 1) now keys
  (⟨int32 (x.1.countP counts),x.1.map fun rec => if counts rec then keyRecordToProto rec else {}⟩,x.2)

def serveLookup (m : MetaManager) (now : ℕ) (keys : List Key) : BatchLookupResponse × MetaManager :=
  let x := m.readShards (fun stat => stat != 2) now keys
  (⟨x.1.map fun rec => if rec.key ≠ "" then keyRecordToProto rec else {}⟩,x.2)

end MetaServiceImpl

namespace MetaRpcClient

def protoToKeyRecord (desc : KeyDescProto) : KeyRecord :=
  { KeyRecord.blank with
    key := desc.key.getD ""
    storeId := desc.storeId.getD 0
    offset := desc.offset.getD 0
    size := desc.size.getD 0
    stat := 1
    nodeId := desc.nodeId.getD KeyRecord.blank.nodeId
    dataFile := desc.dataFile.getD KeyRecord.blank.dataFile
    storeAddr := desc.storeAddr.getD KeyRecord.blank.storeAddr }

/-- The response is `none` when there is no connection, or the call fails. -/
def batchExist (keys : List Key) (response : Option BatchExistResponse) : List KeyRecord :=
  records keys (response.map fun r => r.keyDescs.map protoToKeyRecord)

def batchLookup (keys : List Key) (response : Option BatchLookupResponse) : List KeyRecord :=
  match response with
  | none => keys.map fun _ => .blank
  | some r =>
    if r.keyDescs.length = keys.length then r.keyDescs.map protoToKeyRecord
    else records keys (some (r.keyDescs.map protoToKeyRecord))

end MetaRpcClient

/-- Records that name the same key, place, size and store. -/
structure KeyRecord.SameAnswer (rec rec' : KeyRecord) : Prop where
  key : rec.key = rec'.key
  storeId : rec.storeId = rec'.storeId
  offset : rec.offset = rec'.offset
  size : rec.size = rec'.size
  nodeId : rec.nodeId = rec'.nodeId
  dataFile : rec.dataFile = rec'.dataFile
  storeAddr : rec.storeAddr = rec'.storeAddr

namespace KeyRecord
variable {rec rec' rec'' : KeyRecord}

theorem SameAnswer.refl (rec : KeyRecord) : rec.SameAnswer rec := ⟨rfl,rfl,rfl,rfl,rfl,rfl,rfl⟩

theorem SameAnswer.symm (h : rec.SameAnswer rec') : rec'.SameAnswer rec :=
  ⟨h.key.symm,h.storeId.symm,h.offset.symm,h.size.symm,h.nodeId.symm,h.dataFile.symm,h.storeAddr.symm⟩

theorem SameAnswer.trans (h : rec.SameAnswer rec') (h' : rec'.SameAnswer rec'') : rec.SameAnswer rec'' :=
  ⟨h.key.trans h'.key,h.storeId.trans h'.storeId,h.offset.trans h'.offset,h.size.trans h'.size,
    h.nodeId.trans h'.nodeId,h.dataFile.trans h'.dataFile,h.storeAddr.trans h'.storeAddr⟩

theorem sameAnswers_trans {xs ys zs : List KeyRecord} (h : List.Forall₂ SameAnswer xs ys)
    (h' : List.Forall₂ SameAnswer ys zs) : List.Forall₂ SameAnswer xs zs := by
  induction h generalizing zs with
  | nil => exact h'
  | cons hxy _ ih =>
    cases h' with
    | cons hyz hrest => exact .cons (hxy.trans hyz) (ih hrest)

theorem sameAnswers_symm {xs ys : List KeyRecord} (h : List.Forall₂ SameAnswer xs ys) :
    List.Forall₂ SameAnswer ys xs := (h.imp fun _ _ h => h.symm).flip

theorem sameAnswer_overWire (rec : KeyRecord) : rec.overWire.SameAnswer rec := ⟨rfl,rfl,rfl,rfl,rfl,rfl,rfl⟩

/-- What is left out of a message is what its absence says. -/
theorem protoToKeyRecord_toProto (rec : KeyRecord) :
    MetaRpcClient.protoToKeyRecord (MetaServiceImpl.keyRecordToProto rec) = rec.overWire := by
  have hnode : (if rec.nodeId ≠ 0 then some rec.nodeId else none).getD 0 = rec.nodeId := by
    by_cases hzero : rec.nodeId = 0 <;> simp [hzero]
  have htext : ∀ text : String, (if text ≠ "" then some text else none).getD "" = text := by
    intro text
    by_cases hempty : text = "" <;> simp [hempty]
  simp only [MetaRpcClient.protoToKeyRecord, MetaServiceImpl.keyRecordToProto, overWire, blank, hnode, htext,
    Option.getD_some]

theorem protoToKeyRecord_ite (P : Prop) [Decidable P] (rec : KeyRecord) :
    MetaRpcClient.protoToKeyRecord (if P then MetaServiceImpl.keyRecordToProto rec else {}) =
      if P then rec.overWire else MetaServiceImpl.emptyDesc := by
  split
  · exact protoToKeyRecord_toProto rec
  · rfl

end KeyRecord

namespace MetaServiceImpl

/-- The messages of `BatchExist`, read back. -/
theorem keyDescs_serveExist (m : MetaManager) (now : ℕ) (keys : List Key) :
    (serveExist m now keys).1.keyDescs.map MetaRpcClient.protoToKeyRecord = batchExist m now keys := by
  simp only [serveExist, batchExist, MetaManager.batchExist, MetaManager.readShards_eq_answerFor,
    List.map_map]
  refine List.map_congr_left fun key _ => ?_
  simp only [Function.comp_apply, KeyRecord.protoToKeyRecord_ite, counts, Bool.and_eq_true,
    decide_eq_true_eq, beq_iff_eq]

theorem keyDescs_serveLookup (m : MetaManager) (now : ℕ) (keys : List Key) :
    (serveLookup m now keys).1.keyDescs.map MetaRpcClient.protoToKeyRecord = batchLookup m now keys := by
  simp only [serveLookup, batchLookup, MetaManager.batchLookup, MetaManager.readShards_eq_answerFor,
    List.map_map]
  refine List.map_congr_left fun key _ => ?_
  simp only [Function.comp_apply, KeyRecord.protoToKeyRecord_ite]

end MetaServiceImpl

namespace MetaManager
variable {m : MetaManager} {key : Key} {now : ℕ} {admits : ℕ → Bool}

def Filed (m : MetaManager) : Prop :=
  ∀ key rec, m.find key = some rec → rec.key = key ∧ key ≠ "" ∧ rec.stat = 1

theorem Filed.keyed (h : m.Filed) : m.Keyed := fun key rec hfind =>
  ⟨(h key rec hfind).1,(h key rec hfind).2.1⟩

theorem filed_create (hash : Key → ℕ) (n : ℕ) (h : 0 < n) : (create hash n h).Filed :=
  fun _ _ hfind => absurd hfind (by simp)

theorem Filed.visitRead (h : m.Filed) (admits : ℕ → Bool) (now : ℕ) (keys : List Key) (shard : ℕ) :
    (visitRead admits now keys (m,[]) shard).1.Filed := by
  intro key rec hfind
  rw [find_visitRead_eq] at hfind
  refine List.foldlRecOn (motive := fun f : Key → Option KeyRecord => ∀ rec, f key = some rec →
    rec.key = key ∧ key ≠ "" ∧ rec.stat = 1) _ _ (h key) ?_ rec hfind
  intro f hf i _ rec hrec
  rw [keyedStep_apply] at hrec
  split at hrec
  · obtain ⟨old,hold,rfl⟩ := Option.map_eq_some_iff.mp hrec
    have hfiled := hf old hold
    unfold KeyRecord.touched KeyRecord.hit
    split
    · exact hfiled
    · exact hfiled
  · exact hf rec hrec

theorem Filed.enter (h : m.Filed) (now : ℕ) (s : MetaSection) : (m.enter now s).Filed := by
  cases s with
  | register info =>
    intro key rec hfind
    exact h key rec ((find_registerStore info).symm.trans hfind)
  | commit shard storeId records =>
    intro key rec hfind
    rcases find_visitCommit_group m key shard storeId now records with
      ⟨-,heq⟩ | ⟨new,hnew,hkey,old,heq⟩
    · exact h key rec (heq.symm.trans hfind)
    · have hgroup := mem_commitGroup.mp ((latest_sublist _).subset hnew)
      obtain rfl := Option.some.inj (heq.symm.trans hfind)
      exact ⟨hkey,hkey ▸ hgroup.2.1,rfl⟩
  | remove shard keys =>
    intro key rec hfind
    have heq : (visitRemove keys m shard).find key =
        if key ∈ m.removeGroup keys shard then none else m.find key := find_visitRemove keys
    by_cases hmem : key ∈ m.removeGroup keys shard
    · rw [if_pos hmem] at heq
      cases heq.symm.trans hfind
    · rw [if_neg hmem] at heq
      exact h key rec (heq.symm.trans hfind)
  | exist shard keys => exact h.visitRead _ now keys shard
  | lookup shard keys => exact h.visitRead _ now keys shard

theorem Filed.run (h : m.Filed) (steps : List (ℕ × MetaSection)) : (m.run steps).Filed := by
  induction steps generalizing m with
  | nil => exact h
  | cons x steps ih => exact ih (h.enter x.1 x.2)

/-- A miss, or the record of the key. -/
theorem Keyed.answerFor_cases (h : m.Keyed) (admits : ℕ → Bool) (now : ℕ) (key : Key) :
    m.answerFor admits now key = .blank ∨ (m.answerFor admits now key).key = key ∧ key ≠ "" ∧
      admits (m.answerFor admits now key).stat = true := by
  unfold answerFor
  cases hfind : m.find key with
  | none => exact .inl rfl
  | some rec =>
    obtain ⟨hkey,hne⟩ := h key rec hfind
    have hrec : rec.key ≠ "" := hkey.trans_ne hne
    by_cases hadmits : admits rec.stat = true
    · simp only [hadmits, Bool.not_true, Bool.false_eq_true, if_false, if_neg hrec]
      exact .inr ⟨hkey,hne,hadmits⟩
    · simp only [hadmits, Bool.not_false, if_true]
      exact .inl trivial

/-- With committed records only, both tests of the state let every record pass. -/
theorem Filed.sameAnswer (h : m.Filed) (now now' : ℕ) (key : Key) :
    (m.answerFor (fun stat => stat == 1) now key).SameAnswer
      (m.answerFor (fun stat => stat != 2) now' key) := by
  unfold answerFor
  cases hfind : m.find key with
  | none => exact .refl _
  | some rec =>
    obtain ⟨hkey,hne,hstat⟩ := h key rec hfind
    have hrec : rec.key ≠ "" := hkey.trans_ne hne
    simp only [hstat, if_neg hrec, beq_self_eq_true, Bool.not_true, Bool.false_eq_true, if_false]
    exact ⟨rfl,rfl,rfl,rfl,rfl,rfl,rfl⟩

end MetaManager

namespace MetaRpcClient
variable {m : MetaManager}

/-- The map finds a record that says what the answer for the key says, whichever of its positions
it is from. -/
theorem sameAnswer_hitMap (h : m.Keyed) (now : ℕ) {keys : List Key} {key : Key} (hmem : key ∈ keys) :
    (((hitMap (MetaServiceImpl.batchExist m now keys)).lookup key).getD .blank).SameAnswer
      (m.answerFor (fun stat => stat == 1) now key) := by
  rcases lookup_hitMap key (MetaServiceImpl.batchExist m now keys) with
    ⟨hnot,heq⟩ | ⟨rec,hrec,hreckey,hne,heq⟩
  · rcases h.answerFor_cases (fun stat => stat == 1) now key with hblank | ⟨hkey,hne,hstat⟩
    · rw [heq, hblank]
      exact .refl _
    · have hdesc : (m.answerFor (fun stat => stat == 1) now key).overWire ∈
          MetaServiceImpl.batchExist m now keys := by
        refine List.mem_map.mpr ⟨_,List.mem_map_of_mem hmem,if_pos ⟨hkey.trans_ne hne,?_⟩⟩
        exact beq_iff_eq.mp hstat
      rcases hnot with hempty | hnot
      · exact absurd hempty hne
      · exact absurd (List.mem_map.mpr ⟨_,hdesc,hkey⟩) hnot
  · obtain ⟨answer,hanswer,rfl⟩ := List.mem_map.mp hrec
    obtain ⟨key',-,rfl⟩ := List.mem_map.mp hanswer
    rw [heq, Option.getD_some]
    split at hreckey
    · next hhit =>
      rw [if_pos hhit]
      obtain hblank | ⟨hkey',-,-⟩ := h.answerFor_cases (fun stat => stat == 1) now key'
      · rw [hblank] at hhit
        exact absurd rfl hhit.1
      · obtain rfl : key' = key := hkey'.symm.trans hreckey
        exact KeyRecord.sameAnswer_overWire _
    · exact absurd hreckey.symm hne

theorem sameAnswer_batchExist (h : m.Keyed) (now : ℕ) (keys : List Key) :
    List.Forall₂ KeyRecord.SameAnswer
      (batchExist keys (some (MetaServiceImpl.serveExist m now keys).1))
      (m.readShards (fun stat => stat == 1) now keys).1 := by
  unfold batchExist
  rw [Option.map_some, MetaServiceImpl.keyDescs_serveExist, MetaManager.readShards_eq_answerFor]
  exact List.forall₂_map_left_iff.mpr (List.forall₂_map_right_iff.mpr
    (List.forall₂_same.mpr fun key hmem => sameAnswer_hitMap h now hmem))

theorem sameAnswer_batchLookup (h : m.Keyed) (now : ℕ) (keys : List Key) :
    List.Forall₂ KeyRecord.SameAnswer
      (batchLookup keys (some (MetaServiceImpl.serveLookup m now keys).1))
      (m.readShards (fun stat => stat != 2) now keys).1 := by
  have hlength : (MetaServiceImpl.serveLookup m now keys).1.keyDescs.length = keys.length := by
    simp [MetaServiceImpl.serveLookup, MetaManager.readShards_eq_answerFor]
  simp only [batchLookup, if_pos hlength, MetaServiceImpl.keyDescs_serveLookup,
    MetaServiceImpl.batchLookup, MetaManager.batchLookup, MetaManager.readShards_eq_answerFor, List.map_map]
  refine List.forall₂_map_left_iff.mpr (List.forall₂_map_right_iff.mpr
    (List.forall₂_same.mpr fun key _ => ?_))
  rcases h.answerFor_cases (fun stat => stat != 2) now key with hblank | ⟨hkey,hne,-⟩
  · rw [Function.comp_apply, hblank]
    exact ⟨rfl,rfl,rfl,rfl,rfl,rfl,rfl⟩
  · rw [Function.comp_apply, if_pos (hkey.trans_ne hne)]
    exact KeyRecord.sameAnswer_overWire _

end MetaRpcClient

/-- Both calls of the client give one record for each key, and at each position what Meta itself
answers there. -/
structure RoundTrips (m : MetaManager) (now : ℕ) (keys : List Key) : Prop where
  exist_length : (MetaRpcClient.batchExist keys (some (MetaServiceImpl.serveExist m now keys).1)).length =
    keys.length
  lookup_length : (MetaRpcClient.batchLookup keys (some (MetaServiceImpl.serveLookup m now keys).1)).length =
    keys.length
  exist : List.Forall₂ KeyRecord.SameAnswer
    (MetaRpcClient.batchExist keys (some (MetaServiceImpl.serveExist m now keys).1))
    (m.readShards (fun stat => stat == 1) now keys).1
  lookup : List.Forall₂ KeyRecord.SameAnswer
    (MetaRpcClient.batchLookup keys (some (MetaServiceImpl.serveLookup m now keys).1))
    (m.readShards (fun stat => stat != 2) now keys).1

theorem MetaManager.Keyed.roundTrips {m : MetaManager} (h : m.Keyed) (now : ℕ) (keys : List Key) :
    RoundTrips m now keys := by
  have hexist := MetaRpcClient.sameAnswer_batchExist h now keys
  have hlookup := MetaRpcClient.sameAnswer_batchLookup h now keys
  refine ⟨hexist.length_eq.trans ?_,hlookup.length_eq.trans ?_,hexist,hlookup⟩
  · rw [readShards_eq_answerFor, List.length_map]
  · rw [readShards_eq_answerFor, List.length_map]

/-- What arrives at the client is what Meta answers, in every state that Meta can be in, and in
every state whose records lie under their keys; the two calls agree where Meta can be. -/
theorem roundTrips_of_run :
    (∀ (hash : Key → ℕ) (shardCount : ℕ) (h : 0 < shardCount) (steps : List (ℕ × MetaSection)),
      let m := (MetaManager.create hash shardCount h).run steps
      ∀ now now' keys, RoundTrips m now keys ∧ List.Forall₂ KeyRecord.SameAnswer
        (MetaRpcClient.batchExist keys (some (MetaServiceImpl.serveExist m now keys).1))
        (MetaRpcClient.batchLookup keys (some (MetaServiceImpl.serveLookup m now' keys).1))) ∧
    ∀ m : MetaManager, m.Keyed → ∀ now keys, RoundTrips m now keys := by
  refine ⟨?_,fun m h now keys => h.roundTrips now keys⟩
  intro hash shardCount h steps m now now' keys
  have hfiled : m.Filed := (MetaManager.filed_create hash shardCount h).run steps
  have hround := hfiled.keyed.roundTrips now keys
  have hround' := hfiled.keyed.roundTrips now' keys
  have hagree : List.Forall₂ KeyRecord.SameAnswer (m.readShards (fun stat => stat == 1) now keys).1
      (m.readShards (fun stat => stat != 2) now' keys).1 := by
    rw [MetaManager.readShards_eq_answerFor, MetaManager.readShards_eq_answerFor]
    exact List.forall₂_map_left_iff.mpr (List.forall₂_map_right_iff.mpr
      (List.forall₂_same.mpr fun key _ => hfiled.sameAnswer now now' key))
  exact ⟨hround,KeyRecord.sameAnswers_trans hround.exist
    (KeyRecord.sameAnswers_trans hagree (KeyRecord.sameAnswers_symm hround'.lookup))⟩

/-- A store without a data file, and a list with a repeated, an empty and a missing key. -/
theorem roundTrips_of_run_four :
    let m := (MetaManager.create (fun _ => 5) 2 Nat.two_pos).run [(1,.register ⟨7,3,"addr",""⟩),
      (2,.commit 1 7 [{ KeyRecord.blank with key := "a", offset := 64, size := 8 }])]
    RoundTrips m 3 ["a","","b","a"] ∧
      MetaRpcClient.batchExist ["a","b"] (some (MetaServiceImpl.serveExist m 3 ["a","b"]).1) =
        [⟨"a",7,64,8,1,0,0,"",3,"","addr"⟩,.blank] := by
  intro m
  have hkeyed : m.Keyed :=
    ((MetaManager.filed_create (fun _ => 5) 2 Nat.two_pos).run
      [(1,.register ⟨7,3,"addr",""⟩),
        (2,.commit 1 7 [{ KeyRecord.blank with key := "a", offset := 64, size := 8 }])]).keyed
  exact ⟨roundTrips_of_run.2 m hkeyed 3 ["a","","b","a"],by decide⟩

end FalconKV
