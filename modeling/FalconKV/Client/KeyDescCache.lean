import Mathlib.Data.List.Nodup
import FalconKV.Common.Status

/-! # The client's cache of key descriptors

One descriptor for each key, in the order of their last use, within a capacity. Nothing
takes out a descriptor whose key is evicted or removed at its store.
-/
namespace FalconKV

inductive AccessType
  | localDirect | nodeDirect | remoteRpc
  deriving DecidableEq, Repr

structure KeyDescriptor where
  key : Key
  storeId : ℕ := 0
  offset : ℕ := 0
  size : ℕ := 0
  accessTimeMs : ℕ := 0
  storeAddr : String := ""
  accessType : AccessType := .remoteRpc
  deriving DecidableEq, Repr

/-- `lru_list_`, from the least recently used descriptor on; `cache_` finds them by key. -/
structure KeyDescCache where
  capacity : ℕ
  descs : List KeyDescriptor
  nodup : (descs.map KeyDescriptor.key).Nodup

namespace KeyDescCache

def create (capacity : ℕ) : KeyDescCache := ⟨capacity,[],List.nodup_nil⟩

def find (c : KeyDescCache) (key : Key) : Option KeyDescriptor :=
  c.descs.find? fun desc => desc.key == key

def others (descs : List KeyDescriptor) (key : Key) : List KeyDescriptor :=
  descs.filter fun desc => desc.key != key

def evictIfNeeded (capacity : ℕ) : List KeyDescriptor → List KeyDescriptor
  | [] => []
  | desc :: descs => if capacity ≤ descs.length + 1 then evictIfNeeded capacity descs else desc :: descs

theorem evictIfNeeded_sublist (capacity : ℕ) (descs : List KeyDescriptor) :
    (evictIfNeeded capacity descs).Sublist descs := by
  induction descs with
  | nil => exact .slnil
  | cons desc descs ih =>
    unfold evictIfNeeded
    split
    · exact ih.cons desc
    · exact List.Sublist.refl _

/-- A list of other keys' descriptors takes one more. -/
theorem nodup_append {descs : List KeyDescriptor} {desc : KeyDescriptor}
    (h : (descs.map KeyDescriptor.key).Nodup) (hnot : desc.key ∉ descs.map KeyDescriptor.key) :
    ((descs ++ [desc]).map KeyDescriptor.key).Nodup := by
  rw [List.map_append, List.map_singleton, List.nodup_append_comm]
  exact List.nodup_cons.mpr ⟨hnot,h⟩

theorem not_mem_others (descs : List KeyDescriptor) (key : Key) :
    key ∉ (others descs key).map KeyDescriptor.key := by
  intro hmem
  obtain ⟨desc,hdesc,hkey⟩ := List.mem_map.mp hmem
  have hne := (List.mem_filter.mp hdesc).2
  simp [hkey] at hne

theorem nodup_others {descs : List KeyDescriptor} (h : (descs.map KeyDescriptor.key).Nodup) (key : Key) :
    ((others descs key).map KeyDescriptor.key).Nodup := h.sublist (List.filter_sublist.map _)

theorem nodup_moved (c : KeyDescCache) (key : Key) (desc : KeyDescriptor) :
    ((others c.descs key ++ [{ desc with key := key }]).map KeyDescriptor.key).Nodup :=
  nodup_append (nodup_others c.nodup key) (not_mem_others c.descs key)

theorem nodup_added {c : KeyDescCache} {key : Key} (desc : KeyDescriptor)
    (h : key ∉ c.descs.map KeyDescriptor.key) :
    ((evictIfNeeded c.capacity c.descs ++ [{ desc with key := key }]).map KeyDescriptor.key).Nodup := by
  have hsub := (evictIfNeeded_sublist c.capacity c.descs).map KeyDescriptor.key
  exact nodup_append (c.nodup.sublist hsub) fun hmem => h (hsub.subset hmem)

def insert (c : KeyDescCache) (key : Key) (desc : KeyDescriptor) : KeyDescCache :=
  if h : key ∈ c.descs.map KeyDescriptor.key then
    ⟨c.capacity,others c.descs key ++ [{ desc with key := key }],c.nodup_moved key desc⟩
  else ⟨c.capacity,evictIfNeeded c.capacity c.descs ++ [{ desc with key := key }],nodup_added desc h⟩

/-- A descriptor that is found becomes the most recent one. -/
def lookup (c : KeyDescCache) (now : ℕ) (key : Key) : Option KeyDescriptor × KeyDescCache :=
  match c.find key with
  | none => (none,c)
  | some found =>
    let desc := { found with key := key, accessTimeMs := now }
    (some desc,⟨c.capacity,others c.descs key ++ [desc],c.nodup_moved key desc⟩)

def batchLookup (c : KeyDescCache) (now : ℕ) :
    List Key → (List KeyDescriptor × List Key) × KeyDescCache
  | [] => (([],[]),c)
  | key :: keys =>
    match c.lookup now key with
    | (some desc,c) =>
      let ((hits,misses),c) := c.batchLookup now keys
      ((desc :: hits,misses),c)
    | (none,c) =>
      let ((hits,misses),c) := c.batchLookup now keys
      ((hits,key :: misses),c)

end KeyDescCache

end FalconKV
