import FalconKV.Meta.Cluster
import FalconKV.Store.Steps

/-! # What a store and Meta have under a key -/
namespace FalconKV
open AtomicCalls

namespace Cluster

/-- What the index of a store has under a key. -/
def held (w : Cluster) (i : ℕ) (key : Key) : Option KeyDesc :=
  ((w.node i).store.index.find key).map StoreKeyRecord.desc

/-- What Meta has under a key. -/
def known (w : Cluster) (key : Key) : Option KeyDesc :=
  (w.directory.find key).map fun rec => ⟨key,rec.offset,rec.size⟩

/-- The commits that wait in the queue of a store. -/
def queue (w : Cluster) (i : ℕ) : Multiset Duty :=
  commits ((w.node i).pendingCommits.flatMap PendingCommit.records)

/-- Meta has exactly the committed entries of the index of store `i`. -/
def Agrees (w : Cluster) (i storeId : ℕ) : Prop :=
  ∀ desc : KeyDesc,
    (∃ rec, w.directory.find desc.key = some rec ∧ rec.storeId = storeId ∧
      rec.offset = desc.offset ∧ rec.size = desc.size) ↔
    ∃ rec ∈ (w.node i).store.index.getAllCommittedEntries, rec.desc = desc

variable {i : ℕ} {s : Store}

theorem held_setNode (w : Cluster) (i : ℕ) (n : Node) (key : Key) :
    (w.setNode i n).held i key = (n.store.index.find key).map StoreKeyRecord.desc := by
  rw [held, node_setNode]

/-- The records that a full resync pushes are those that are held. -/
theorem mem_entries_of_held {w : Cluster} {key : Key} {desc : KeyDesc}
    (h : (w.node i).store.index.Sound) (hd : w.held i key = some desc) :
    ∃ rec ∈ (w.node i).store.index.getAllCommittedEntries, rec.desc = desc := by
  obtain ⟨rec,hrec,rfl⟩ := Option.map_eq_some_iff.mp hd
  refine ⟨rec,h.mem_entries.mpr ?_,rfl⟩
  rwa [h.keyed hrec]

theorem held_of_mem_entries {w : Cluster} {rec : StoreKeyRecord}
    (h : (w.node i).store.index.Sound)
    (hrec : rec ∈ (w.node i).store.index.getAllCommittedEntries) :
    w.held i rec.key = some rec.desc := congrArg (Option.map _) (h.mem_entries.mp hrec)

/-- A new state of the store itself leaves the client alone. -/
theorem connected_setStore (w : Cluster) (i j : ℕ) (s : Store) :
    ((w.setNode i { w.node i with store := s }).node j).connected = (w.node j).connected := by
  by_cases hj : j = i
  · subst hj
    rw [node_setNode]
  · rw [node_setNode_ne w _ hj]

theorem queue_setStore (w : Cluster) (i : ℕ) (s : Store) :
    (w.setNode i { w.node i with store := s }).queue i = w.queue i := by
  rw [queue, node_setNode, queue]

theorem held_put (w : Cluster) {key : Key} {record : StoreKeyRecord}
    (h : (w.node i).store.index.Sound) (hkey : record.key = key)
    (hs : s.index = (w.node i).store.index.put key record) (k : Key) :
    (w.setNode i { w.node i with store := s }).held i k =
      if k = key then some record.desc else w.held i k := by
  rw [held_setNode, hs, StoreMetaIndex.find_put, h.stored_eq hkey]
  split
  · rfl
  · rfl

theorem held_remove (w : Cluster) {key : Key} (hs : s.index = ((w.node i).store.index.remove key).2)
    (k : Key) : (w.setNode i { w.node i with store := s }).held i k =
      if k = key then none else w.held i k := by
  rw [held_setNode, hs, StoreMetaIndex.find_remove]
  split
  · rfl
  · rfl

/-- Access times are no part of what is committed. -/
theorem held_keep (w : Cluster) (h : (w.node i).store.index.SameRecords s.index) (k : Key) :
    (w.setNode i { w.node i with store := s }).held i k = w.held i k := by
  have hmap := congrArg (Option.map StoreKeyRecord.desc) (h.find k)
  rw [Option.map_map, Option.map_map] at hmap
  rw [held_setNode]
  exact hmap

theorem connected_setQueue (w : Cluster) (i j : ℕ) (q : List PendingCommit) :
    ((w.setNode i { w.node i with pendingCommits := q }).node j).connected =
      (w.node j).connected := by
  by_cases hj : j = i
  · subst hj
    rw [node_setNode]
  · rw [node_setNode_ne w _ hj]

end Cluster

end FalconKV
