import FalconKV.Client.LinkedDescCache

/-! # Runs of the descriptor cache

Any sequence of calls answers and leaves what it does on an LRU map, where a batch is the fold
of its single calls; what is found under a key are the fields that were inserted last.
-/
namespace FalconKV

inductive CacheOp
  | insert (key : Key) (desc : KeyDescriptor)
  | batchInsert (items : List (Key × KeyDescriptor))
  | lookup (now : ℕ) (key : Key)
  | batchLookup (now : ℕ) (keys : List Key)
  | invalidate (key : Key)
  | batchInvalidate (keys : List Key)
  | clear

inductive CacheReply
  | done
  | desc (found : Option KeyDescriptor)
  | batch (hitDescs : List KeyDescriptor) (missingKeys : List Key)
  deriving DecidableEq, Repr

namespace LinkedDescCache

def apply (c : LinkedDescCache) : CacheOp → CacheReply × LinkedDescCache
  | .insert key desc => (.done,c.insert key desc)
  | .batchInsert items => (.done,c.batchInsert items)
  | .lookup now key => (.desc (c.lookup now key).1,(c.lookup now key).2)
  | .batchLookup now keys =>
    let x := c.batchLookup now keys
    (.batch x.1.1 x.1.2,x.2)
  | .invalidate key => (.done,c.invalidate key)
  | .batchInvalidate keys => (.done,c.batchInvalidate keys)
  | .clear => (.done,c.clear)

def applyAll (c : LinkedDescCache) : List CacheOp → List CacheReply × LinkedDescCache
  | [] => ([],c)
  | op :: ops =>
    let x := c.apply op
    let y := x.2.applyAll ops
    (x.1 :: y.1,y.2)

end LinkedDescCache

namespace DescMap

abbrev Map := LruMap Key KeyDescriptor

def stamp (now : ℕ) (desc : KeyDescriptor) : KeyDescriptor := { desc with accessTimeMs := now }

def insert (l : Map) (key : Key) (desc : KeyDescriptor) : Map := LruMap.insert l key { desc with key := key }

def lookup (l : Map) (now : ℕ) (key : Key) : Option KeyDescriptor × Map :=
  ((l.find key).map (stamp now),l.use key (stamp now))

def lookupNext (now : ℕ) (x : (List KeyDescriptor × List Key) × Map) (key : Key) :
    (List KeyDescriptor × List Key) × Map :=
  match lookup x.2 now key with
  | (some desc,l) => ((x.1.1 ++ [desc],x.1.2),l)
  | (none,l) => ((x.1.1,x.1.2 ++ [key]),l)

def apply (l : Map) : CacheOp → CacheReply × Map
  | .insert key desc => (.done,insert l key desc)
  | .batchInsert items => (.done,items.foldl (fun l item => insert l item.1 item.2) l)
  | .lookup now key => (.desc (lookup l now key).1,(lookup l now key).2)
  | .batchLookup now keys =>
    let x := keys.foldl (lookupNext now) (([],[]),l)
    (.batch x.1.1 x.1.2,x.2)
  | .invalidate key => (.done,l.erase key)
  | .batchInvalidate keys => (.done,keys.foldl LruMap.erase l)
  | .clear => (.done,l.clear)

def applyAll (l : Map) : List CacheOp → List CacheReply × Map
  | [] => ([],l)
  | op :: ops =>
    let x := apply l op
    let y := applyAll x.2 ops
    (x.1 :: y.1,y.2)

end DescMap

namespace LinkedDescCache
variable {c : LinkedDescCache} {l : DescMap.Map}

theorem Refines.batchInsert (h : c.Refines l) (items : List (Key × KeyDescriptor)) :
    (c.batchInsert items).Refines (items.foldl (fun l item => DescMap.insert l item.1 item.2) l) := by
  rw [batchInsert_eq_foldl]
  induction items generalizing c l with
  | nil => exact h
  | cons item items ih => exact ih (h.insert item.1 item.2)

theorem Refines.batchInvalidate (h : c.Refines l) (keys : List Key) :
    (c.batchInvalidate keys).Refines (keys.foldl LruMap.erase l) := by
  rw [batchInvalidate_eq_foldl]
  induction keys generalizing c l with
  | nil => exact h
  | cons key keys ih => exact ih (h.invalidate key)

theorem Refines.lookupNext (h : c.Refines l) (now : ℕ) (key : Key) (answer : List KeyDescriptor × List Key) :
    (LinkedDescCache.lookupNext now (answer,c) key).1 = (DescMap.lookupNext now (answer,l) key).1 ∧
      (LinkedDescCache.lookupNext now (answer,c) key).2.Refines
        (DescMap.lookupNext now (answer,l) key).2 := by
  obtain ⟨hanswer,hnext⟩ := h.lookup now key
  unfold LinkedDescCache.lookupNext DescMap.lookupNext DescMap.lookup DescMap.stamp
  generalize c.lookup now key = x at hanswer hnext
  obtain ⟨found,c'⟩ := x
  dsimp only at hanswer hnext ⊢
  rw [hanswer]
  cases l.find key with
  | none => exact ⟨rfl,hnext⟩
  | some desc => exact ⟨rfl,hnext⟩

theorem Refines.batchLookup (h : c.Refines l) (now : ℕ) (keys : List Key) :
    (c.batchLookup now keys).1 = (keys.foldl (DescMap.lookupNext now) (([],[]),l)).1 ∧
      (c.batchLookup now keys).2.Refines (keys.foldl (DescMap.lookupNext now) (([],[]),l)).2 := by
  rw [batchLookup_eq_foldl h]
  generalize (([],[]) : List KeyDescriptor × List Key) = answer
  induction keys generalizing c l answer with
  | nil => exact ⟨rfl,h⟩
  | cons key keys ih =>
    obtain ⟨hanswer,hnext⟩ := h.lookupNext now key answer
    have hrest := ih hnext (LinkedDescCache.lookupNext now (answer,c) key).1
    rw [hanswer] at hrest
    rw [List.foldl_cons, List.foldl_cons]
    have hpair : LinkedDescCache.lookupNext now (answer,c) key =
        ((DescMap.lookupNext now (answer,l) key).1,(LinkedDescCache.lookupNext now (answer,c) key).2) :=
      Prod.ext hanswer rfl
    rw [hpair]
    exact hrest

/-- One call: the same answer, and still one map. -/
theorem Refines.apply (h : c.Refines l) (op : CacheOp) :
    (c.apply op).1 = (DescMap.apply l op).1 ∧ (c.apply op).2.Refines (DescMap.apply l op).2 := by
  cases op with
  | insert key desc => exact ⟨rfl,h.insert key desc⟩
  | batchInsert items => exact ⟨rfl,h.batchInsert items⟩
  | lookup now key =>
    obtain ⟨hanswer,hnext⟩ := h.lookup now key
    exact ⟨congrArg CacheReply.desc hanswer,hnext⟩
  | batchLookup now keys =>
    obtain ⟨hanswer,hnext⟩ := h.batchLookup now keys
    refine ⟨?_,hnext⟩
    rw [LinkedDescCache.apply, DescMap.apply, hanswer]
  | invalidate key => exact ⟨rfl,h.invalidate key⟩
  | batchInvalidate keys => exact ⟨rfl,h.batchInvalidate keys⟩
  | clear => exact ⟨rfl,h.clear⟩

theorem Refines.applyAll (h : c.Refines l) (ops : List CacheOp) :
    (c.applyAll ops).1 = (DescMap.applyAll l ops).1 ∧
      (c.applyAll ops).2.Refines (DescMap.applyAll l ops).2 := by
  induction ops generalizing c l with
  | nil => exact ⟨rfl,h⟩
  | cons op ops ih =>
    obtain ⟨hanswer,hnext⟩ := h.apply op
    obtain ⟨hanswers,hlast⟩ := ih hnext
    refine ⟨?_,hlast⟩
    rw [LinkedDescCache.applyAll, DescMap.applyAll, hanswer, hanswers]

theorem refines_create (capacity : ℕ) : (create capacity).Refines (LruMap.empty capacity) :=
  ⟨linked_create capacity,rfl,rfl⟩

end LinkedDescCache

namespace CacheOp

/-- The descriptor that was inserted last under each key and was not invalidated since. -/
def note (last : Key → Option KeyDescriptor) : CacheOp → Key → Option KeyDescriptor
  | insert key desc => Function.update last key (some { desc with key := key })
  | batchInsert items => items.foldl (fun last item =>
      Function.update last item.1 (some { item.2 with key := item.1 })) last
  | invalidate key => Function.update last key none
  | batchInvalidate keys => keys.foldl (fun last key => Function.update last key none) last
  | clear => fun _ => none
  | lookup .. | batchLookup .. => last

def lastInserted (ops : List CacheOp) : Key → Option KeyDescriptor := ops.foldl note fun _ => none

end CacheOp

namespace DescMap

def Remembers (l : Map) (last : Key → Option KeyDescriptor) : Prop :=
  ∀ key desc, l.find key = some desc → ∃ desc', last key = some desc' ∧ desc.timeless = desc'.timeless

variable {l : Map} {last : Key → Option KeyDescriptor}

theorem remembers_empty (capacity : ℕ) : Remembers (LruMap.empty capacity) fun _ => none := by
  intro key desc hfind
  cases hfind

theorem Remembers.insert (h : Remembers l last) (key : Key) (desc : KeyDescriptor) :
    Remembers (DescMap.insert l key desc) (Function.update last key (some { desc with key := key })) := by
  intro key' desc' hfind
  rcases LruMap.find_of_insert hfind with ⟨rfl,rfl⟩ | ⟨hne,hold⟩
  · exact ⟨_,Function.update_self _ _ _,rfl⟩
  · rw [Function.update_of_ne hne]
    exact h key' desc' hold

theorem Remembers.erase (h : Remembers l last) (key : Key) :
    Remembers (l.erase key) (Function.update last key none) := by
  intro key' desc' hfind
  obtain ⟨hne,hold⟩ := LruMap.find_of_erase hfind
  rw [Function.update_of_ne hne]
  exact h key' desc' hold

theorem Remembers.lookup (h : Remembers l last) (now : ℕ) (key : Key) :
    Remembers (DescMap.lookup l now key).2 last := by
  intro key' desc' hfind
  rcases LruMap.find_of_use hfind with ⟨rfl,desc,hold,rfl⟩ | ⟨-,hold⟩
  · obtain ⟨desc',hlast,heq⟩ := h key' desc hold
    exact ⟨desc',hlast,heq⟩
  · exact h key' desc' hold

theorem Remembers.batchLookup (h : Remembers l last) (now : ℕ) (keys : List Key)
    (answer : List KeyDescriptor × List Key) :
    Remembers (keys.foldl (lookupNext now) (answer,l)).2 last := by
  induction keys generalizing l answer with
  | nil => exact h
  | cons key keys ih =>
    have hnext : (lookupNext now (answer,l) key).2 = (DescMap.lookup l now key).2 := by
      unfold lookupNext DescMap.lookup
      cases l.find key <;> rfl
    exact ih (hnext ▸ h.lookup now key) (lookupNext now (answer,l) key).1

theorem Remembers.apply (h : Remembers l last) (op : CacheOp) :
    Remembers (DescMap.apply l op).2 (op.note last) := by
  cases op with
  | insert key desc => exact h.insert key desc
  | batchInsert items =>
    unfold DescMap.apply CacheOp.note
    dsimp only
    induction items generalizing l last with
    | nil => exact h
    | cons item items ih => exact ih (h.insert item.1 item.2)
  | lookup now key => exact h.lookup now key
  | batchLookup now keys => exact h.batchLookup now keys ([],[])
  | invalidate key => exact h.erase key
  | batchInvalidate keys =>
    unfold DescMap.apply CacheOp.note
    dsimp only
    induction keys generalizing l last with
    | nil => exact h
    | cons key keys ih => exact ih (h.erase key)
  | clear =>
    intro key desc hfind
    cases hfind

theorem capacity_foldl {α : Type} {f : Map → α → Map} (hf : ∀ l a, (f l a).capacity = l.capacity)
    (xs : List α) (l : Map) : (xs.foldl f l).capacity = l.capacity := by
  induction xs generalizing l with
  | nil => rfl
  | cons x xs ih => rw [List.foldl_cons, ih, hf]

theorem capacity_apply (l : Map) (op : CacheOp) : (apply l op).2.capacity = l.capacity := by
  cases op with
  | insert key desc => exact LruMap.capacity_insert l key _
  | batchInsert items => exact capacity_foldl (fun l item => LruMap.capacity_insert l item.1 _) items l
  | lookup now key => exact LruMap.capacity_use l key _
  | batchLookup now keys =>
    unfold apply
    dsimp only
    generalize (([],[]) : List KeyDescriptor × List Key) = answer
    induction keys generalizing l answer with
    | nil => rfl
    | cons key keys ih =>
      have hnext : (lookupNext now (answer,l) key).2.capacity = l.capacity := by
        unfold lookupNext lookup
        cases l.find key <;> exact LruMap.capacity_use l key _
      exact (ih _ (lookupNext now (answer,l) key).1).trans hnext
  | invalidate key => rfl
  | batchInvalidate keys => exact capacity_foldl (f := LruMap.erase) (fun _ _ => rfl) keys l
  | clear => rfl

theorem capacity_applyAll (l : Map) (ops : List CacheOp) : (applyAll l ops).2.capacity = l.capacity := by
  induction ops generalizing l with
  | nil => rfl
  | cons op ops ih => exact (ih (apply l op).2).trans (capacity_apply l op)

theorem Remembers.applyAll (h : Remembers l last) (ops : List CacheOp) :
    Remembers (DescMap.applyAll l ops).2 (ops.foldl CacheOp.note last) := by
  induction ops generalizing l last with
  | nil => exact h
  | cons op ops ih => exact ih (h.apply op)

end DescMap

/-- The cache after the calls `ops` behaves as an LRU map of its capacity. -/
structure ActsAsLruMap (capacity : ℕ) (ops : List CacheOp) (replies : List CacheReply)
    (c : LinkedDescCache) : Prop where
  /-- `cache_` and `lru_list_` are in bijection, and no key occurs twice -/
  linked : c.Linked
  size : c.size = c.lruList.length ∧ c.size ≤ max capacity 1
  /-- the same answers and the same entries in the same order as on the map -/
  refines : replies = (DescMap.applyAll (LruMap.empty capacity) ops).1 ∧
    c.entries = (DescMap.applyAll (LruMap.empty capacity) ops).2.entries
  /-- a new key drops the least recently used keys that are in its way, and no others -/
  evicts : ∀ key desc, key ∉ c.lruList.map LinkedDescCache.keyOf →
    (c.insert key desc).lruList.map LinkedDescCache.keyOf =
      (c.lruList.map LinkedDescCache.keyOf).drop (c.size + 1 - max capacity 1) ++ [key]
  found : ∀ now key desc, (c.lookup now key).1 = some desc →
    ∃ desc', CacheOp.lastInserted ops key = some desc' ∧ desc.timeless = desc'.timeless
  batchInsert : ∀ items, c.batchInsert items = items.foldl (fun c item => c.insert item.1 item.2) c
  batchLookup : ∀ now keys, c.batchLookup now keys =
    keys.foldl (LinkedDescCache.lookupNext now) (([],[]),c)
  batchInvalidate : ∀ keys, c.batchInvalidate keys = keys.foldl LinkedDescCache.invalidate c

namespace LinkedDescCache
variable {c : LinkedDescCache} {l : DescMap.Map}

theorem Refines.evicts (h : c.Refines l) {key : Key} (hnot : key ∉ c.lruList.map keyOf) (desc : KeyDescriptor) :
    (c.insert key desc).lruList.map keyOf =
      (c.lruList.map keyOf).drop (c.size + 1 - max c.capacity 1) ++ [key] := by
  have hkey : key ∉ l.keys := h.keys ▸ hnot
  have hsurplus : l.surplus = c.size + 1 - max c.capacity 1 := by
    rw [LruMap.surplus, h.entries, LinkedDescCache.entries, List.length_map, h.capacity, h.linked.size_eq]
  rw [← (h.insert key desc).keys, ← h.keys, LruMap.keys, LruMap.entries_insert_of_notMem hkey, hsurplus,
    List.map_append, LruMap.keys, List.map_drop]
  rfl

end LinkedDescCache

open LinkedDescCache

/-- The descriptor cache is an LRU map, in all its runs. -/
theorem keyDescCache_actsAsLruMap (capacity : ℕ) (ops : List CacheOp) :
    ActsAsLruMap capacity ops ((LinkedDescCache.create capacity).applyAll ops).1
      ((LinkedDescCache.create capacity).applyAll ops).2 := by
  obtain ⟨hreplies,hrefines⟩ := (refines_create capacity).applyAll ops
  have hremembers := (DescMap.remembers_empty capacity).applyAll ops
  have hmap := DescMap.capacity_applyAll (LruMap.empty capacity) ops
  have hcapacity := hrefines.capacity.symm.trans hmap
  have hsize := hrefines.linked.size_eq
  refine ⟨hrefines.linked,⟨hsize,?_⟩,⟨hreplies,hrefines.entries.symm⟩,?_,?_,fun items => batchInsert_eq_foldl items _,
    fun now keys => batchLookup_eq_foldl hrefines now keys,fun keys => batchInvalidate_eq_foldl keys _⟩
  · have hbound := (DescMap.applyAll (LruMap.empty capacity) ops).2.bounded
    rw [hrefines.entries, LinkedDescCache.entries, List.length_map, hmap] at hbound
    exact hsize ▸ hbound
  · intro key desc hnot
    have hdropped := hrefines.evicts hnot desc
    rw [hcapacity] at hdropped
    exact hdropped
  · intro now key desc hfound
    rw [(hrefines.lookup now key).1] at hfound
    obtain ⟨desc',hfind,rfl⟩ := Option.map_eq_some_iff.mp hfound
    exact hremembers key desc' hfind

end FalconKV
