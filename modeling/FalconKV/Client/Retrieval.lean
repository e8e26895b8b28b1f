import FalconKV.Client.OneByOne
import FalconKV.Client.ReadLengths
import FalconKV.Meta.RoundTrip

/-! # Retrieving stored values

A client that gets some keys finds descriptors of a part of them in its cache and asks Meta about
the others, learns how to reach their stores, and reads each key in one of three ways. As long as
the cache and Meta name the places where the stores have the keys, every key gets its value.
-/
namespace FalconKV
open AtomicCalls Conditions

/-- Every read is completed, every file opens and every address is reached. -/
def Conditions.undisturbed : Conditions := ⟨fun _ _ _ => true,fun _ => true,fun _ => true⟩

/-- A `BatchLookup` is answered from this state of Meta. -/
def MetaManager.answers (m : MetaManager) : ClientCall → ClientChoice → Bool
  | .metaBatchLookup _ keys, c =>
    c.records == MetaRpcClient.batchLookup keys (some (MetaServiceImpl.serveLookup m c.now keys).1)
  | _, _ => true

def Store.Places (s : Store) (key : Key) (offset size : ℕ) : Prop :=
  ∃ rec, s.index.find key = some rec ∧ rec.offset = offset ∧ rec.size = size

/-- The client gets by this descriptor to the store that it names, and the key is where it says. -/
def Truthful (D : Deployment) (x : ReadWorld) (client : ℕ) (desc : KeyDescriptor) : Prop :=
  ∃ i, (D.cfg i).storeId = desc.storeId ∧
    undisturbed.siteOf D x client desc = some i ∧ (x.store i).Places desc.key desc.offset desc.size

def TrueRecord (D : Deployment) (x : ReadWorld) (rec : KeyRecord) : Prop :=
  ∃ i, (D.cfg i).storeId = rec.storeId ∧ (x.store i).Places rec.key rec.offset rec.size ∧
    (rec.dataFile ≠ "" ∧ D.dataFile rec.dataFile = some i) ∧
    rec.storeAddr ≠ "" ∧ D.serving rec.storeAddr = some i

def MetaManager.current (m : MetaManager) (key : Key) : Option KeyRecord :=
  (m.find key).filter fun rec => rec.stat != 2

/-- All that Meta reports is true. -/
structure Directory (D : Deployment) (x : ReadWorld) (m : MetaManager) : Prop where
  keyed : m.Keyed
  truthful : ∀ key rec, m.current key = some rec → TrueRecord D x (m.withStore rec)

variable {D : Deployment} {x y z : ReadWorld} {client i : ℕ} {m : MetaManager} {key : Key}
  {desc : KeyDescriptor} {rec : KeyRecord}

namespace MetaManager

/-- The record that arrives at a client. -/
def sent (m : MetaManager) (now : ℕ) (rec : KeyRecord) : KeyRecord :=
  (m.withStore { rec with accessTimeMs := now }).overWire

end MetaManager

theorem Directory.sent (h : Directory D x m) (now : ℕ) (hrec : m.current key = some rec) :
    TrueRecord D x (m.sent now rec) := h.truthful key rec hrec

structure Grown (D : Deployment) (client : ℕ) (x y : ReadWorld) : Prop where
  store : y.store = x.store
  truthful : ∀ desc, Truthful D x client desc → Truthful D y client desc

theorem Grown.refl (x : ReadWorld) : Grown D client x x := ⟨rfl,fun _ h => h⟩

theorem Grown.trans (h : Grown D client x y) (h' : Grown D client y z) : Grown D client x z :=
  ⟨h'.store.trans h.store,fun desc hdesc => h'.truthful desc (h.truthful desc hdesc)⟩

namespace ClientOps

variable {items : List (KeyDescriptor × BufferInfo)} {item : KeyDescriptor × BufferInfo}

end ClientOps

def threeStores : Deployment where
  cfg := fun i => ⟨i + 1,64,8,0,false,false⟩
  nodeId := fun _ => 1
  cacheCapacity := fun _ => 4
  localStore := fun _ => some 0
  nodeUring := fun _ => false
  dataFile := fun path => if path = "d1" then some 1 else if path = "d2" then some 2 else none
  serving := fun addr => if addr = "s1" then some 1 else if addr = "s2" then some 2 else none
  groups := List.eraseDups

def holding (i : ℕ) (key : Key) (offset : ℕ) : Store :=
  { Store.init (threeStores.cfg i) with
    index := StoreMetaIndex.create.put key ⟨key,offset,4,8,1,0⟩
    file := fun k => UInt8.ofNat (100 * i + k) }

def holdings : ReadWorld where
  store := fun i => if i = 0 then holding 0 "a" 0 else if i = 1 then holding 1 "b" 8 else holding 2 "c" 16
  client := fun client => (threeStores.client client).cacheDesc
    { key := "a", storeId := 1, size := 4, accessType := .localDirect }
  lastPut := fun _ _ => none

def announced : MetaManager :=
  (MetaManager.create (fun _ => 0) 1 Nat.one_pos).run [(1,.register ⟨2,1,"s1","d1"⟩),(1,.register ⟨3,2,"s2","d2"⟩),
    (2,.commit 0 2 [{ KeyRecord.blank with key := "b", offset := 8, size := 4 }]),
    (3,.commit 0 3 [{ KeyRecord.blank with key := "c", offset := 16, size := 4 }])]

end FalconKV
