import Mathlib.Data.Set.Insert
import FalconKV.Meta.Lookups

/-! # The identity of a store

A bridge computes the id of its store from its node and its worker, in 32 bits. Meta knows a
store by this id only: a lookup answers what was registered last under the id of the record.
-/
namespace FalconKV

/-- What a bridge that was started with a worker number tells Meta about its store. -/
structure BridgeStore where
  nodeId : ℕ
  workerId : ℕ
  ssdPath : String
  storeRpcHost : String
  listenPort : ℕ
  nodeId_lt : nodeId < 2^32
  workerId_lt : workerId < 2^31
  deriving DecidableEq

namespace BridgeStore

/-- `node_id * 10 + worker_id`, in `uint32_t`. -/
def storeId (s : BridgeStore) : ℕ := u32 (u32 (s.nodeId * 10) + s.workerId)

def dataFile (s : BridgeStore) : String := s.ssdPath ++ "/kv_data_" ++ toString s.storeId

def storeAddr (s : BridgeStore) : String :=
  if s.listenPort > 0 then s.storeRpcHost ++ ":" ++ toString s.listenPort else "" ++ ":" ++ toString 0

def info (s : BridgeStore) : StoreInfo := ⟨s.storeId,s.nodeId,s.storeAddr,s.dataFile⟩

def number (s : BridgeStore) : ℕ := s.nodeId * 10 + s.workerId

variable {s t : BridgeStore}

theorem storeId_eq (s : BridgeStore) : s.storeId = s.number % 2^32 := by
  unfold storeId number u32
  omega

theorem workerId_eq_of_storeId (hid : s.storeId = t.storeId) (hnode : s.nodeId = t.nodeId) :
    s.workerId = t.workerId := by
  have hs := s.workerId_lt
  have ht := t.workerId_lt
  rw [storeId_eq, storeId_eq, number, number, hnode] at hid
  omega

end BridgeStore

structure RouteState where
  directory : MetaManager
  registered : List BridgeStore
  committer : Key → Option BridgeStore
  accepted : Bool

inductive RouteRun (stores : Set BridgeStore) : RouteState → Prop
  | start (hash : Key → ℕ) (shardCount : ℕ) (h : 0 < shardCount) :
      RouteRun stores ⟨.create hash shardCount h,[],fun _ => none,true⟩
  | register {x : RouteState} {s : BridgeStore} (hrun : RouteRun stores x) (hs : s ∈ stores) :
      RouteRun stores { x with
        directory := (x.directory.registerStore s.info).2
        registered := s :: x.registered
        accepted := x.accepted && (x.directory.registerStore s.info).1.isOk }
  | commit {x : RouteState} {s : BridgeStore} (now : ℕ) (records : List KeyRecord)
      (hrun : RouteRun stores x) (hs : s ∈ x.registered) :
      RouteRun stores { x with
        directory := x.directory.syncCommit s.storeId now records
        committer := fun key =>
          if key ∈ records.map KeyRecord.key ∧ key ≠ "" then some s else x.committer key }

structure Routed (x : RouteState) : Prop where
  accepted : x.accepted = true
  routes : ∀ key s now, x.committer key = some s → ∃ rec, x.directory.batchLookup now [key] = [rec] ∧
    rec.key = key ∧ rec.nodeId = s.nodeId ∧ rec.dataFile = s.dataFile ∧ rec.storeAddr = s.storeAddr

/-- The stores are routed in all their runs. -/
def Routes (stores : Set BridgeStore) : Prop := ∀ x, RouteRun stores x → Routed x

/-- `10 * node_id + worker_id` is no multiple of 2^32, and that of two stores does not differ by
one. -/
structure Separated (stores : Set BridgeStore) : Prop where
  nonzero : ∀ s ∈ stores, s.number % 2^32 ≠ 0
  apart : ∀ s ∈ stores, ∀ t ∈ stores, s ≠ t → s.number % 2^32 ≠ t.number % 2^32

structure RouteInv (stores : Set BridgeStore) (x : RouteState) : Prop where
  accepted : x.accepted = true
  member : ∀ s ∈ x.registered, s ∈ stores
  known : ∀ s ∈ x.registered, x.directory.stores.lookup s.storeId = some s.info
  keys : ∀ key s, x.committer key = some s → s ∈ x.registered ∧ key ≠ "" ∧
    ∃ rec, x.directory.find key = some rec ∧ rec.key = key ∧ rec.stat = 1 ∧ rec.storeId = s.storeId

variable {stores : Set BridgeStore} {x : RouteState} {s t : BridgeStore}

theorem Separated.storeId_ne_zero (h : Separated stores) (hs : s ∈ stores) : s.storeId ≠ 0 := by
  rw [BridgeStore.storeId_eq]
  exact h.nonzero s hs

theorem Separated.eq_of_storeId (h : Separated stores) (hs : s ∈ stores) (ht : t ∈ stores)
    (hid : s.storeId = t.storeId) : s = t := by
  by_contra hne
  rw [BridgeStore.storeId_eq, BridgeStore.storeId_eq] at hid
  exact h.apart s hs t ht hne hid

/-- The answer for a committed record of a known store. -/
theorem batchLookup_of_find {m : MetaManager} {key : Key} {rec : KeyRecord} {info : StoreInfo} {now : ℕ}
    (hfind : m.find key = some rec) (hkey : rec.key ≠ "") (hstat : rec.stat = 1)
    (hinfo : m.stores.lookup rec.storeId = some info) : m.batchLookup now [key] =
      [{ rec with
        accessTimeMs := now
        nodeId := info.nodeId
        dataFile := info.dataFile
        storeAddr := info.storeAddr }] := by
  simp [MetaManager.batchLookup, MetaManager.answerFor, MetaManager.withStore, hfind, hstat, hkey, hinfo]

namespace RouteInv

theorem register (h : RouteInv stores x) (hsep : Separated stores) (hs : s ∈ stores) :
    RouteInv stores { x with
      directory := (x.directory.registerStore s.info).2
      registered := s :: x.registered
      accepted := x.accepted && (x.directory.registerStore s.info).1.isOk } := by
  have hnonzero : s.info.storeId ≠ 0 := hsep.storeId_ne_zero hs
  have hregister : x.directory.registerStore s.info = (.OK,
      { x.directory with stores := x.directory.stores.insert s.storeId s.info }) := if_neg hnonzero
  rw [hregister]
  refine ⟨?_,?_,?_,?_⟩
  · rw [h.accepted]
    rfl
  · intro t ht
    rcases List.mem_cons.mp ht with rfl | ht
    · exact hs
    · exact h.member t ht
  · intro t ht
    rcases List.mem_cons.mp ht with rfl | ht
    · exact AList.lookup_insert _
    · by_cases hid : t.storeId = s.storeId
      · obtain rfl := hsep.eq_of_storeId (h.member t ht) hs hid
        exact AList.lookup_insert _
      · exact (AList.lookup_insert_ne hid).trans (h.known t ht)
  · intro key t hkey
    obtain ⟨ht,hne,hrec⟩ := h.keys key t hkey
    exact ⟨List.mem_cons_of_mem s ht,hne,hrec⟩

theorem commit (h : RouteInv stores x) (now : ℕ) (records : List KeyRecord) (hs : s ∈ x.registered) :
    RouteInv stores { x with
      directory := x.directory.syncCommit s.storeId now records
      committer := fun key =>
        if key ∈ records.map KeyRecord.key ∧ key ≠ "" then some s else x.committer key } := by
  refine ⟨h.accepted,h.member,?_,?_⟩
  · intro t ht
    have hsame : (x.directory.syncCommit s.storeId now records).stores = x.directory.stores :=
      MetaManager.stores_syncCommit records
    rw [hsame]
    exact h.known t ht
  · intro key t hkey
    dsimp only at hkey ⊢
    split at hkey
    · next hmem =>
      obtain rfl := Option.some.inj hkey
      refine ⟨hs,hmem.2,?_⟩
      rcases MetaManager.find_syncCommit records hmem.2 with ⟨hnot,-⟩ | ⟨rec,-,rfl,old,hfind⟩
      · exact absurd hmem.1 hnot
      · exact ⟨_,hfind,rfl,rfl,rfl⟩
    · next hnot =>
      obtain ⟨ht,hne,rec,hrec,hfields⟩ := h.keys key t hkey
      refine ⟨ht,hne,rec,?_,hfields⟩
      rcases MetaManager.find_syncCommit records hne with ⟨-,hsame⟩ | ⟨new,hnew,rfl,-⟩
      · exact hsame.trans hrec
      · exact absurd ⟨List.mem_map_of_mem hnew,hne⟩ hnot

theorem routed (h : RouteInv stores x) : Routed x := by
  refine ⟨h.accepted,fun key s now hkey => ?_⟩
  obtain ⟨hs,hne,rec,hfind,rfl,hstat,hid⟩ := h.keys key s hkey
  have hinfo := h.known s hs
  rw [← hid] at hinfo
  exact ⟨_,batchLookup_of_find hfind hne hstat hinfo,rfl,rfl,rfl,rfl⟩

end RouteInv

theorem RouteRun.inv (hsep : Separated stores) (hrun : RouteRun stores x) : RouteInv stores x := by
  induction hrun with
  | start hash shardCount h =>
    refine ⟨rfl,fun s hs => absurd hs List.not_mem_nil,fun s hs => absurd hs List.not_mem_nil,?_⟩
    intro key s hkey
    cases hkey
  | register _ hs ih => exact ih.register hsep hs
  | commit now records _ hs ih => exact ih.commit now records hs

/-- A registration with the id 0 is rejected. -/
theorem not_routed_of_zero (hs : s ∈ stores) (hzero : s.storeId = 0) :
    ¬ Routes stores := by
  have hstart : RouteRun stores ⟨.create (fun _ => 0) 1 Nat.one_pos,[],fun _ => none,true⟩ :=
    .start (fun _ => 0) 1 Nat.one_pos
  intro hroutes
  have haccepted := (hroutes _ (hstart.register hs)).accepted
  have hid : s.info.storeId = 0 := hzero
  rw [MetaManager.registerStore, if_pos hid] at haccepted
  cases haccepted

/-- What is committed under an id leads to whoever is known by it. -/
theorem batchLookup_syncCommit {m : MetaManager} {storeId : ℕ} {info : StoreInfo} {key : Key}
    (hkey : key ≠ "") (hinfo : m.stores.lookup storeId = some info) :
    ∃ rec, (m.syncCommit storeId 0 [{ KeyRecord.blank with key := key }]).batchLookup 0 [key] = [rec] ∧
      rec.nodeId = info.nodeId := by
  have hcommits : m.CommitsTo (m.syncCommit storeId 0 [{ KeyRecord.blank with key := key }]) storeId 0
      [{ KeyRecord.blank with key := key }] key := MetaManager.find_syncCommit _ hkey
  rcases hcommits with ⟨hnot,-⟩ | ⟨new,-,rfl,old,hfind⟩
  · exact absurd List.mem_cons_self hnot
  · rw [← MetaManager.stores_syncCommit ] at hinfo
    exact ⟨_,batchLookup_of_find hfind hkey rfl hinfo,rfl⟩

/-- A store registers with the id of another one, which commits then: the lookup leads to the node
of the store that registered last. -/
theorem not_routed_of_collision (hs : s ∈ stores) (ht : t ∈ stores) (hid : s.storeId = t.storeId)
    (hnonzero : t.storeId ≠ 0) (hnode : s.nodeId ≠ t.nodeId) : ¬ Routes stores := by
  have hstart : RouteRun stores ⟨.create (fun _ => 0) 1 Nat.one_pos,[],fun _ => none,true⟩ :=
    .start (fun _ => 0) 1 Nat.one_pos
  have hrun := ((hstart.register hs).register ht).commit 0 [{ KeyRecord.blank with key := "k" }]
    (List.mem_cons_of_mem t List.mem_cons_self)
  intro hroutes
  obtain ⟨rec,hlookup,-,hnodeId,-⟩ := (hroutes _ hrun).routes "k" s 0 rfl
  have hknown : ∀ m : MetaManager, (m.registerStore t.info).2.stores.lookup s.storeId = some t.info := by
    intro m
    have hinfo : t.info.storeId ≠ 0 := hnonzero
    have haccepted : (m.registerStore t.info).1.isOk = true := by
      rw [MetaManager.registerStore, if_neg hinfo]
      rfl
    rw [hid]
    exact MetaManager.lookup_registered haccepted
  have hkey : "k" ≠ "" := by decide
  obtain ⟨rec',hlookup',hnodeId'⟩ := batchLookup_syncCommit hkey (hknown _)
  obtain rfl : rec' = rec := List.singleton_injective (hlookup'.symm.trans hlookup)
  exact hnode (hnodeId.symm.trans hnodeId')

/-- The stores of different pairs of a node and a worker are routed exactly if they are
separated. -/
theorem routed_iff_separated (stores : Set BridgeStore)
    (hpairs : ∀ s ∈ stores, ∀ t ∈ stores, s.nodeId = t.nodeId → s.workerId = t.workerId → s = t) :
    Routes stores ↔ Separated stores := by
  constructor
  · intro hroutes
    have hnonzero : ∀ s ∈ stores, s.storeId ≠ 0 := by
      intro s hs hzero
      exact not_routed_of_zero hs hzero hroutes
    refine ⟨fun s hs => s.storeId_eq ▸ hnonzero s hs,fun s hs t ht hne heq => ?_⟩
    rw [← BridgeStore.storeId_eq, ← BridgeStore.storeId_eq] at heq
    by_cases hnode : s.nodeId = t.nodeId
    · exact hne (hpairs s hs t ht hnode (BridgeStore.workerId_eq_of_storeId heq hnode))
    · exact not_routed_of_collision hs ht heq (hnonzero t ht) hnode hroutes
  · exact fun hsep x hrun => (hrun.inv hsep).routed

/-- Up to ten workers on a node, and nodes that are numbered from 1 on. -/
theorem separated_of_workers (h : ∀ s ∈ stores, 0 < s.nodeId ∧ s.nodeId < 429496729 ∧ s.workerId < 10)
    (hpairs : ∀ s ∈ stores, ∀ t ∈ stores, s.nodeId = t.nodeId → s.workerId = t.workerId → s = t) :
    Separated stores := by
  have hnumber : ∀ s ∈ stores, s.number % 2^32 = s.number := by
    intro s hs
    obtain ⟨-,hnode,hworker⟩ := h s hs
    refine Nat.mod_eq_of_lt ?_
    unfold BridgeStore.number
    omega
  constructor
  · intro s hs
    obtain ⟨hpos,-,-⟩ := h s hs
    rw [hnumber s hs, BridgeStore.number]
    omega
  · intro s hs t ht hne heq
    obtain ⟨-,-,hworker⟩ := h s hs
    obtain ⟨-,-,hworker'⟩ := h t ht
    rw [hnumber s hs, hnumber t ht, BridgeStore.number, BridgeStore.number] at heq
    exact hne (hpairs s hs t ht (by omega) (by omega))

namespace BridgeStore

def ofPair (nodeId workerId : ℕ) : BridgeStore :=
  ⟨nodeId % 2^32,workerId % 2^31,"/data","127.0.0.1",8901,Nat.mod_lt nodeId (Nat.two_pow_pos 32),
    Nat.mod_lt workerId (Nat.two_pow_pos 31)⟩

end BridgeStore

theorem routed_iff_separated_pair : ∃ stores : Set BridgeStore,
    stores = {.ofPair 1 0,.ofPair 2 9} ∧ Routes stores := by
  have hpairs : ∀ s ∈ ({.ofPair 1 0,.ofPair 2 9} : Set BridgeStore),
      ∀ t ∈ ({.ofPair 1 0,.ofPair 2 9} : Set BridgeStore),
      s.nodeId = t.nodeId → s.workerId = t.workerId → s = t := by
    rintro s (rfl | rfl) t (rfl | rfl) hnode - <;> first | rfl | cases hnode
  refine ⟨_,rfl,(routed_iff_separated _ hpairs).mpr (separated_of_workers ?_ hpairs)⟩
  rintro s (rfl | rfl) <;> decide

/-- The eleventh worker of node 1 and the first worker of node 2 have the id 20. -/
theorem exists_stores_not_routed : ∃ stores : Set BridgeStore,
    (∀ s ∈ stores, ∀ t ∈ stores, s.nodeId = t.nodeId → s.workerId = t.workerId → s = t) ∧
      ¬ Routes stores := by
  refine ⟨{.ofPair 1 10,.ofPair 2 0},?_,?_⟩
  · rintro s (rfl | rfl) t (rfl | rfl) hnode - <;> first | rfl | cases hnode
  · exact not_routed_of_collision (.inl rfl) (.inr rfl) (by decide) (by decide) (by decide)

end FalconKV
