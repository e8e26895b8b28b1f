import Mathlib.Data.List.AList
import FalconKV.Client.KeyDescCache
import FalconKV.Common.LruMap

/-! # The list and the map of the descriptor cache

`cache_` maps a key to an iterator into `lru_list_`. An iterator stays with its node when the
node is moved, so it is the node's identity here. Nothing in the data ties the two structures
together: that they describe one map is what the operations have to keep.
-/
namespace FalconKV

def KeyDescriptor.timeless (desc : KeyDescriptor) : KeyDescriptor := { desc with accessTimeMs := 0 }

def KeyDescriptor.assign (existing desc : KeyDescriptor) : KeyDescriptor :=
  { desc with key := existing.key }

structure DescNode where
  iter : ℕ
  desc : KeyDescriptor

/-- `nextIter` was not given to a node yet. -/
structure LinkedDescCache where
  capacity : ℕ
  lruList : List DescNode
  cache : AList fun _ : Key => ℕ
  nextIter : ℕ

namespace LinkedDescCache

def create (capacity : ℕ) : LinkedDescCache := ⟨capacity,[],∅,0⟩

def size (c : LinkedDescCache) : ℕ := c.cache.keys.length

def deref (c : LinkedDescCache) (iter : ℕ) : Option KeyDescriptor :=
  (c.lruList.find? fun node => node.iter == iter).map DescNode.desc

def spliceToBack (c : LinkedDescCache) (iter : ℕ) : LinkedDescCache :=
  { c with lruList := c.lruList.filter (fun node => node.iter ≠ iter) ++
      c.lruList.filter fun node => node.iter = iter }

def modify (c : LinkedDescCache) (iter : ℕ) (f : KeyDescriptor → KeyDescriptor) : LinkedDescCache :=
  { c with lruList := c.lruList.map fun node =>
      if node.iter = iter then { node with desc := f node.desc } else node }

def eraseNode (c : LinkedDescCache) (iter : ℕ) : LinkedDescCache :=
  { c with lruList := c.lruList.filter fun node => node.iter ≠ iter }

def eraseKey (c : LinkedDescCache) (key : Key) : LinkedDescCache :=
  { c with cache := c.cache.erase key }

def evictLoop (capacity : ℕ) : List DescNode → (AList fun _ : Key => ℕ) →
    List DescNode × AList fun _ : Key => ℕ
  | [], cache => ([],cache)
  | node :: nodes, cache =>
    if capacity ≤ cache.keys.length then evictLoop capacity nodes (cache.erase node.desc.key)
    else (node :: nodes,cache)

def evictIfNeeded (c : LinkedDescCache) : LinkedDescCache :=
  let x := evictLoop c.capacity c.lruList c.cache
  { c with lruList := x.1, cache := x.2 }

def emplaceBack (c : LinkedDescCache) (key : Key) (desc : KeyDescriptor) : LinkedDescCache :=
  { c with
    lruList := c.lruList ++ [⟨c.nextIter,KeyDescriptor.assign { key := key } desc⟩]
    cache := c.cache.insert key c.nextIter
    nextIter := c.nextIter + 1 }

def lookup (c : LinkedDescCache) (now : ℕ) (key : Key) : Option KeyDescriptor × LinkedDescCache :=
  match c.cache.lookup key with
  | none => (none,c)
  | some iter =>
    let c := (c.spliceToBack iter).modify iter fun desc => { desc with accessTimeMs := now }
    (c.deref iter,c)

/-- The hits and the misses, with one clock reading for the whole call. -/
def batchLookup (c : LinkedDescCache) (now : ℕ) :
    List Key → (List KeyDescriptor × List Key) × LinkedDescCache
  | [] => (([],[]),c)
  | key :: keys =>
    match c.cache.lookup key with
    | some iter =>
      let c := (c.spliceToBack iter).modify iter fun desc => { desc with accessTimeMs := now }
      let ((hitDescs,missingKeys),c') := c.batchLookup now keys
      (((c.deref iter).toList ++ hitDescs,missingKeys),c')
    | none =>
      let ((hitDescs,missingKeys),c') := c.batchLookup now keys
      ((hitDescs,key :: missingKeys),c')

def insert (c : LinkedDescCache) (key : Key) (desc : KeyDescriptor) : LinkedDescCache :=
  match c.cache.lookup key with
  | some iter => (c.modify iter fun existing => existing.assign desc).spliceToBack iter
  | none => c.evictIfNeeded.emplaceBack key desc

def batchInsert (c : LinkedDescCache) : List (Key × KeyDescriptor) → LinkedDescCache
  | [] => c
  | (key,desc) :: items =>
    match c.cache.lookup key with
    | some iter =>
      ((c.modify iter fun existing => existing.assign desc).spliceToBack iter).batchInsert items
    | none => (c.evictIfNeeded.emplaceBack key desc).batchInsert items

def invalidate (c : LinkedDescCache) (key : Key) : LinkedDescCache :=
  match c.cache.lookup key with
  | some iter => (c.eraseNode iter).eraseKey key
  | none => c

def batchInvalidate (c : LinkedDescCache) : List Key → LinkedDescCache
  | [] => c
  | key :: keys =>
    match c.cache.lookup key with
    | some iter => ((c.eraseNode iter).eraseKey key).batchInvalidate keys
    | none => c.batchInvalidate keys

def clear (c : LinkedDescCache) : LinkedDescCache := { c with lruList := [], cache := ∅ }

def keyOf (node : DescNode) : Key := node.desc.key

structure Linked (c : LinkedDescCache) : Prop where
  iters : (c.lruList.map DescNode.iter).Nodup
  keys : (c.lruList.map keyOf).Nodup
  fresh : ∀ node ∈ c.lruList, node.iter < c.nextIter
  cache : ∀ key iter, c.cache.lookup key = some iter ↔
    ∃ node ∈ c.lruList, node.iter = iter ∧ keyOf node = key

variable {c : LinkedDescCache} {key key' : Key} {iter now : ℕ} {node : DescNode}
  {pre post : List DescNode}

theorem linked_create (capacity : ℕ) : (create capacity).Linked := by
  refine ⟨List.nodup_nil,List.nodup_nil,by simp [create],fun key iter => ?_⟩
  simp [create]

theorem Linked.keys_cache (h : c.Linked) : c.cache.keys.Perm (c.lruList.map keyOf) := by
  refine (List.perm_ext_iff_of_nodup c.cache.keys_nodup h.keys).mpr fun key => ?_
  rw [← AList.mem_keys, ← AList.lookup_isSome, Option.isSome_iff_exists]
  constructor
  · rintro ⟨iter,hiter⟩
    obtain ⟨node,hnode,-,rfl⟩ := (h.cache key iter).mp hiter
    exact List.mem_map_of_mem hnode
  · intro hmem
    obtain ⟨node,hnode,rfl⟩ := List.mem_map.mp hmem
    exact ⟨node.iter,(h.cache _ _).mpr ⟨node,hnode,rfl,rfl⟩⟩

theorem Linked.size_eq (h : c.Linked) : c.size = c.lruList.length := by
  rw [size, h.keys_cache.length_eq, List.length_map]

/-- Where the iterator of a key leads. -/
theorem Linked.split (h : c.Linked) (hiter : c.cache.lookup key = some iter) :
    ∃ pre node post, c.lruList = pre ++ node :: post ∧ node.iter = iter ∧ keyOf node = key := by
  obtain ⟨node,hnode,hi,hk⟩ := (h.cache key iter).mp hiter
  obtain ⟨pre,post,hsplit⟩ := List.append_of_mem hnode
  exact ⟨pre,node,post,hsplit,hi,hk⟩

theorem Linked.iter_ne (h : c.Linked) (hsplit : c.lruList = pre ++ node :: post) :
    ∀ other ∈ pre ++ post, other.iter ≠ node.iter := by
  have hnodup := h.iters
  rw [hsplit, List.map_append, List.map_cons, List.nodup_middle, List.nodup_cons, ← List.map_append] at hnodup
  intro other hother heq
  exact hnodup.1 (heq ▸ List.mem_map_of_mem hother)

theorem Linked.key_ne (h : c.Linked) (hsplit : c.lruList = pre ++ node :: post) :
    ∀ other ∈ pre ++ post, keyOf other ≠ keyOf node := by
  have hnodup := h.keys
  rw [hsplit, List.map_append, List.map_cons, List.nodup_middle, List.nodup_cons, ← List.map_append] at hnodup
  intro other hother heq
  exact hnodup.1 (heq ▸ List.mem_map_of_mem hother)

theorem Linked.notMem (h : c.Linked) (hnone : c.cache.lookup key = none) : key ∉ c.lruList.map keyOf := by
  intro hmem
  obtain ⟨node,hnode,rfl⟩ := List.mem_map.mp hmem
  have hsome := (h.cache (keyOf node) node.iter).mpr ⟨node,hnode,rfl,rfl⟩
  rw [hnone] at hsome
  cases hsome

theorem filter_ne_split (hne : ∀ other ∈ pre ++ post, other.iter ≠ node.iter) :
    (pre ++ node :: post).filter (fun other => other.iter ≠ node.iter) = pre ++ post := by
  have hpre : pre.filter (fun other => other.iter ≠ node.iter) = pre :=
    List.filter_eq_self.mpr fun other h => by simpa using hne other (List.mem_append_left _ h)
  have hpost : post.filter (fun other => other.iter ≠ node.iter) = post :=
    List.filter_eq_self.mpr fun other h => by simpa using hne other (List.mem_append_right _ h)
  rw [List.filter_append, List.filter_cons_of_neg (by simp), hpre, hpost]

theorem filter_eq_split (hne : ∀ other ∈ pre ++ post, other.iter ≠ node.iter) :
    (pre ++ node :: post).filter (fun other => other.iter = node.iter) = [node] := by
  have hpre : pre.filter (fun other => other.iter = node.iter) = [] :=
    List.filter_eq_nil_iff.mpr fun other h => by simpa using hne other (List.mem_append_left _ h)
  have hpost : post.filter (fun other => other.iter = node.iter) = [] :=
    List.filter_eq_nil_iff.mpr fun other h => by simpa using hne other (List.mem_append_right _ h)
  rw [List.filter_append, List.filter_cons_of_pos (by simp), hpre, hpost, List.nil_append]

theorem map_modify_of_ne {nodes : List DescNode} {f : KeyDescriptor → KeyDescriptor}
    (hne : ∀ other ∈ nodes, other.iter ≠ iter) :
    nodes.map (fun node => if node.iter = iter then { node with desc := f node.desc } else node) = nodes :=
  (List.map_congr_left fun other h => if_neg (hne other h)).trans (List.map_id nodes)

def renewed (c : LinkedDescCache) (nodes : List DescNode) (node : DescNode) (desc : KeyDescriptor) :
    LinkedDescCache := { c with lruList := nodes ++ [{ node with desc := desc }] }

theorem modify_spliceToBack (h : c.Linked) (hsplit : c.lruList = pre ++ node :: post)
    (f : KeyDescriptor → KeyDescriptor) : (c.spliceToBack node.iter).modify node.iter f =
      c.renewed (pre ++ post) node (f node.desc) := by
  have hne := h.iter_ne hsplit
  unfold spliceToBack modify renewed
  dsimp only
  rw [hsplit, filter_ne_split hne, filter_eq_split hne, List.map_append, map_modify_of_ne hne,
    List.map_singleton, if_pos rfl]

theorem spliceToBack_modify (h : c.Linked) (hsplit : c.lruList = pre ++ node :: post)
    (f : KeyDescriptor → KeyDescriptor) : (c.modify node.iter f).spliceToBack node.iter =
      c.renewed (pre ++ post) node (f node.desc) := by
  have hne := h.iter_ne hsplit
  have hpre := fun other hmem => hne other (List.mem_append_left post hmem)
  have hpost := fun other hmem => hne other (List.mem_append_right pre hmem)
  have hmap : (pre ++ node :: post).map (fun other =>
      if other.iter = node.iter then { other with desc := f other.desc } else other) =
      pre ++ ({ node with desc := f node.desc } : DescNode) :: post := by
    rw [List.map_append, List.map_cons, if_pos rfl, map_modify_of_ne hpre, map_modify_of_ne hpost]
  unfold spliceToBack modify renewed
  dsimp only
  rw [hsplit, hmap]
  have hne' : ∀ other ∈ pre ++ post, other.iter ≠ (⟨node.iter,f node.desc⟩ : DescNode).iter := hne
  have hfilter := filter_ne_split hne'
  have hself := filter_eq_split hne'
  dsimp only at hfilter hself
  rw [hfilter, hself]

theorem deref_renewed (hne : ∀ other ∈ pre ++ post, other.iter ≠ node.iter) (desc : KeyDescriptor) :
    (c.renewed (pre ++ post) node desc).deref node.iter = some desc := by
  have hnone : (pre ++ post).find? (fun other => other.iter == node.iter) = none :=
    List.find?_eq_none.mpr fun other hmem => by simpa using hne other hmem
  unfold deref renewed
  dsimp only
  rw [List.find?_append, hnone]
  simp

theorem Linked.renewed (h : c.Linked) (hsplit : c.lruList = pre ++ node :: post) {desc : KeyDescriptor}
    (hkey : desc.key = node.desc.key) : (c.renewed (pre ++ post) node desc).Linked := by
  have hperm : (pre ++ post ++ [{ node with desc := desc }]).Perm
      (({ node with desc := desc } : DescNode) :: (pre ++ post)) := List.perm_append_singleton _ _
  have hold : c.lruList.Perm (node :: (pre ++ post)) := hsplit ▸ List.perm_middle
  have hiters : ((pre ++ post ++ [{ node with desc := desc }]).map DescNode.iter).Perm
      (c.lruList.map DescNode.iter) := (hperm.map _).trans (hold.map DescNode.iter).symm
  have hkeys : ((pre ++ post ++ [{ node with desc := desc }]).map keyOf).Perm (c.lruList.map keyOf) := by
    refine (hperm.map _).trans (List.Perm.trans ?_ (hold.map keyOf).symm)
    rw [List.map_cons, List.map_cons, keyOf, hkey, keyOf]
  have hmem : ∀ p : ℕ → Key → Prop, (∃ other ∈ pre ++ post ++ [{ node with desc := desc }],
      p other.iter (keyOf other)) ↔ ∃ other ∈ c.lruList, p other.iter (keyOf other) := by
    intro p
    constructor
    · rintro ⟨other,hother,hp⟩
      rcases List.mem_cons.mp (hperm.mem_iff.mp hother) with rfl | hrest
      · refine ⟨node,hold.mem_iff.mpr List.mem_cons_self,?_⟩
        rwa [keyOf, ← hkey]
      · exact ⟨other,hold.mem_iff.mpr (List.mem_cons_of_mem _ hrest),hp⟩
    · rintro ⟨other,hother,hp⟩
      rcases List.mem_cons.mp (hold.mem_iff.mp hother) with rfl | hrest
      · refine ⟨_,hperm.mem_iff.mpr List.mem_cons_self,?_⟩
        rwa [keyOf, hkey]
      · exact ⟨other,hperm.mem_iff.mpr (List.mem_cons_of_mem _ hrest),hp⟩
  refine ⟨hiters.nodup_iff.mpr h.iters,hkeys.nodup_iff.mpr h.keys,?_,?_⟩
  · intro other hother
    obtain ⟨old,hmemold,heq⟩ := (hmem fun iter _ => iter = other.iter).mp ⟨other,hother,rfl⟩
    exact heq ▸ h.fresh old hmemold
  · intro key iter
    exact (h.cache key iter).trans (hmem fun i k => i = iter ∧ k = key).symm

theorem Linked.erased (h : c.Linked) (hsplit : c.lruList = pre ++ node :: post) :
    ({ c with lruList := pre ++ post, cache := c.cache.erase (keyOf node) } : LinkedDescCache).Linked := by
  have hsub : (pre ++ post).Sublist c.lruList := by
    rw [hsplit]
    exact List.Sublist.append_left (List.sublist_cons_self node post) pre
  refine ⟨h.iters.sublist (hsub.map _),h.keys.sublist (hsub.map _),
    fun other hother => h.fresh other (hsub.subset hother),fun key iter => ?_⟩
  by_cases hk : key = keyOf node
  · subst hk
    rw [AList.lookup_erase]
    refine iff_of_false (fun hnone => Option.some_ne_none iter hnone.symm) ?_
    rintro ⟨other,hother,-,heq⟩
    exact h.key_ne hsplit other hother heq
  · rw [AList.lookup_erase_ne hk, h.cache]
    constructor
    · rintro ⟨other,hother,hi,heq⟩
      rw [hsplit] at hother
      rcases List.mem_append.mp hother with hpre | hpost
      · exact ⟨other,List.mem_append_left _ hpre,hi,heq⟩
      · rcases List.mem_cons.mp hpost with rfl | hpost
        · exact absurd heq.symm hk
        · exact ⟨other,List.mem_append_right _ hpost,hi,heq⟩
    · rintro ⟨other,hother,hi,heq⟩
      exact ⟨other,hsub.subset hother,hi,heq⟩

/-- What a full cache drops: from the front, until there is room for one more. -/
theorem evictLoop_eq (h : c.Linked) : ∃ cache, evictLoop c.capacity c.lruList c.cache =
    (c.lruList.drop (c.lruList.length + 1 - max c.capacity 1),cache) ∧
    ({ c with lruList := c.lruList.drop (c.lruList.length + 1 - max c.capacity 1), cache := cache } :
      LinkedDescCache).Linked := by
  obtain ⟨capacity,lruList,cache,nextIter⟩ := c
  induction lruList generalizing cache with
  | nil => exact ⟨cache,by simp [evictLoop],by simpa using h⟩
  | cons node nodes ih =>
    have hsize := h.size_eq
    simp only [size, List.length_cons] at hsize
    dsimp only [evictLoop] at ih ⊢
    split
    · next hfull =>
      have hsplit : node :: nodes = [] ++ node :: nodes := rfl
      have hrest := h.erased hsplit
      obtain ⟨cache',heq,hlinked⟩ := ih (cache.erase node.desc.key) hrest
      have hdrop : (node :: nodes).drop ((node :: nodes).length + 1 - max capacity 1) =
          nodes.drop (nodes.length + 1 - max capacity 1) := by
        have hcount : (node :: nodes).length + 1 - max capacity 1 =
            (nodes.length + 1 - max capacity 1) + 1 := by
          rw [List.length_cons]
          omega
        rw [hcount, List.drop_succ_cons]
      rw [hdrop]
      exact ⟨cache',heq,hlinked⟩
    · next hroom =>
      have hzero : (node :: nodes).length + 1 - max capacity 1 = 0 := by
        rw [List.length_cons]
        omega
      rw [hzero, List.drop_zero]
      exact ⟨cache,rfl,h⟩

theorem Linked.emplaceBack (h : c.Linked) (hkey : key ∉ c.lruList.map keyOf) (desc : KeyDescriptor) :
    (c.emplaceBack key desc).Linked := by
  have hiter : c.nextIter ∉ c.lruList.map DescNode.iter := by
    intro hmem
    obtain ⟨node,hnode,heq⟩ := List.mem_map.mp hmem
    exact Nat.lt_irrefl _ (heq ▸ h.fresh node hnode)
  unfold LinkedDescCache.emplaceBack
  refine ⟨?_,?_,?_,?_⟩
  · dsimp only
    rw [List.map_append, List.map_singleton, List.nodup_append_comm]
    exact List.nodup_cons.mpr ⟨hiter,h.iters⟩
  · dsimp only
    rw [List.map_append, List.map_singleton, List.nodup_append_comm]
    exact List.nodup_cons.mpr ⟨hkey,h.keys⟩
  · intro node hnode
    rcases List.mem_append.mp hnode with hold | hnew
    · exact Nat.lt_succ_of_lt (h.fresh node hold)
    · rw [List.mem_singleton.mp hnew]
      exact Nat.lt_succ_self c.nextIter
  · intro key' iter
    dsimp only
    by_cases hk : key' = key
    · subst hk
      rw [AList.lookup_insert]
      constructor
      · intro heq
        exact ⟨_,List.mem_append_right _ List.mem_cons_self,Option.some.inj heq,rfl⟩
      · rintro ⟨node,hnode,rfl,heq⟩
        rcases List.mem_append.mp hnode with hold | hnew
        · exact absurd (heq ▸ List.mem_map_of_mem hold) hkey
        · rw [List.mem_singleton.mp hnew]
    · rw [AList.lookup_insert_ne hk, h.cache]
      constructor
      · rintro ⟨node,hnode,hi,heq⟩
        exact ⟨node,List.mem_append_left _ hnode,hi,heq⟩
      · rintro ⟨node,hnode,hi,heq⟩
        rcases List.mem_append.mp hnode with hold | hnew
        · exact ⟨node,hold,hi,heq⟩
        · rw [List.mem_singleton.mp hnew] at heq
          exact absurd heq.symm hk

def entries (c : LinkedDescCache) : List (Key × KeyDescriptor) :=
  c.lruList.map fun node => (keyOf node,node.desc)

theorem entries_renewed (nodes : List DescNode) (node : DescNode) (desc : KeyDescriptor) :
    (c.renewed nodes node desc).entries =
      nodes.map (fun node => (keyOf node,node.desc)) ++ [(desc.key,desc)] := List.map_append

structure Refines (c : LinkedDescCache) (l : LruMap Key KeyDescriptor) : Prop where
  linked : c.Linked
  capacity : l.capacity = c.capacity
  entries : l.entries = c.entries

variable {l : LruMap Key KeyDescriptor} {desc : KeyDescriptor}

theorem Refines.keys (h : c.Refines l) : l.keys = c.lruList.map keyOf := by
  rw [LruMap.keys, h.entries, LinkedDescCache.entries, List.map_map]
  rfl

theorem Refines.find_none (h : c.Refines l) (hnone : c.cache.lookup key = none) : l.find key = none := by
  rw [LruMap.find_eq_none, h.keys]
  exact h.linked.notMem hnone

theorem Refines.find_some (h : c.Refines l) (hnode : node ∈ c.lruList) :
    l.find (keyOf node) = some node.desc := by
  rw [LruMap.find_eq_some, h.entries]
  exact List.mem_map.mpr ⟨node,hnode,rfl⟩

/-- The entries of the other keys are the other nodes. -/
theorem Refines.others (h : c.Refines l) (hsplit : c.lruList = pre ++ node :: post) :
    LruMap.others (keyOf node) l.entries = (pre ++ post).map fun node => (keyOf node,node.desc) := by
  have hne := h.linked.key_ne hsplit
  rw [h.entries, LinkedDescCache.entries, hsplit, List.map_append, List.map_cons, LruMap.others_split,
    ← List.map_append]
  refine LruMap.others_of_notMem ?_
  intro hmem
  rw [List.map_map] at hmem
  obtain ⟨other,hother,heq⟩ := List.mem_map.mp hmem
  exact hne other hother heq

theorem Refines.lookup (h : c.Refines l) (now : ℕ) (key : Key) :
    (c.lookup now key).1 = (l.find key).map (fun desc => { desc with accessTimeMs := now }) ∧
      (c.lookup now key).2.Refines (l.use key fun desc => { desc with accessTimeMs := now }) := by
  unfold LinkedDescCache.lookup
  cases hlookup : c.cache.lookup key with
  | none =>
    have hfind := h.find_none hlookup
    rw [LruMap.use_of_none hfind, hfind]
    exact ⟨rfl,h⟩
  | some iter =>
    obtain ⟨pre,node,post,hsplit,rfl,rfl⟩ := h.linked.split hlookup
    have hmem : node ∈ c.lruList := by
      rw [hsplit]
      simp
    have hfind := h.find_some hmem
    dsimp only
    rw [modify_spliceToBack h.linked hsplit, deref_renewed (h.linked.iter_ne hsplit), hfind]
    refine ⟨rfl,h.linked.renewed hsplit rfl,?_,?_⟩
    · rw [LruMap.capacity_use, h.capacity]
      rfl
    · rw [LruMap.entries_use hfind, h.others hsplit, entries_renewed]
      rfl

theorem Refines.insert (h : c.Refines l) (key : Key) (desc : KeyDescriptor) :
    (c.insert key desc).Refines (l.insert key { desc with key := key }) := by
  unfold LinkedDescCache.insert
  cases hlookup : c.cache.lookup key with
  | none =>
    obtain ⟨cache,hevict,hlinked⟩ := evictLoop_eq h.linked
    have hnot := h.linked.notMem hlookup
    have hkey : key ∉ l.keys := h.keys ▸ hnot
    have hlength : l.surplus = c.lruList.length + 1 - max c.capacity 1 := by
      rw [LruMap.surplus, h.entries, LinkedDescCache.entries, List.length_map, h.capacity]
    dsimp only
    rw [evictIfNeeded, hevict]
    refine ⟨hlinked.emplaceBack ?_ desc,?_,?_⟩
    · exact fun hmem => hnot (((List.drop_sublist _ _).map keyOf).subset hmem)
    · rw [LruMap.capacity_insert, h.capacity]
      rfl
    · rw [LruMap.entries_insert_of_notMem hkey, hlength, h.entries, LinkedDescCache.entries, ← List.map_drop,
        LinkedDescCache.entries, emplaceBack, List.map_append]
      rfl
  | some iter =>
    obtain ⟨pre,node,post,hsplit,rfl,rfl⟩ := h.linked.split hlookup
    have hkey : keyOf node ∈ l.keys := by
      rw [h.keys, hsplit]
      simp
    dsimp only
    rw [spliceToBack_modify h.linked hsplit]
    refine ⟨h.linked.renewed hsplit rfl,?_,?_⟩
    · rw [LruMap.capacity_insert, h.capacity]
      rfl
    · rw [LruMap.entries_insert_of_mem hkey, h.others hsplit, entries_renewed]
      rfl

theorem Refines.invalidate (h : c.Refines l) (key : Key) : (c.invalidate key).Refines (l.erase key) := by
  unfold LinkedDescCache.invalidate
  cases hlookup : c.cache.lookup key with
  | none =>
    have hkey : key ∉ l.keys := h.keys ▸ h.linked.notMem hlookup
    have hsame : LruMap.others key l.entries = l.entries := LruMap.others_of_notMem hkey
    exact ⟨h.linked,h.capacity,hsame.trans h.entries⟩
  | some iter =>
    obtain ⟨pre,node,post,hsplit,rfl,rfl⟩ := h.linked.split hlookup
    have hnodes : (c.eraseNode node.iter).eraseKey (keyOf node) =
        { c with lruList := pre ++ post, cache := c.cache.erase (keyOf node) } := by
      unfold eraseNode eraseKey
      rw [hsplit, filter_ne_split (h.linked.iter_ne hsplit)]
    dsimp only
    rw [hnodes]
    exact ⟨h.linked.erased hsplit,h.capacity,h.others hsplit⟩

theorem Refines.clear (h : c.Refines l) : c.clear.Refines l.clear := by
  refine ⟨⟨List.nodup_nil,List.nodup_nil,by simp [LinkedDescCache.clear],fun key iter => ?_⟩,h.capacity,rfl⟩
  simp [LinkedDescCache.clear]

theorem batchInsert_eq_foldl (items : List (Key × KeyDescriptor)) (c : LinkedDescCache) :
    c.batchInsert items = items.foldl (fun c item => c.insert item.1 item.2) c := by
  induction items generalizing c with
  | nil => rfl
  | cons item items ih =>
    obtain ⟨key,desc⟩ := item
    rw [List.foldl_cons, ← ih]
    cases hlookup : c.cache.lookup key with
    | none => simp only [batchInsert, LinkedDescCache.insert, hlookup]
    | some iter => simp only [batchInsert, LinkedDescCache.insert, hlookup]

theorem batchInvalidate_eq_foldl (keys : List Key) (c : LinkedDescCache) :
    c.batchInvalidate keys = keys.foldl LinkedDescCache.invalidate c := by
  induction keys generalizing c with
  | nil => rfl
  | cons key keys ih =>
    rw [List.foldl_cons, ← ih]
    cases hlookup : c.cache.lookup key with
    | none => simp only [batchInvalidate, LinkedDescCache.invalidate, hlookup]
    | some iter => simp only [batchInvalidate, LinkedDescCache.invalidate, hlookup]

def lookupNext (now : ℕ) (x : (List KeyDescriptor × List Key) × LinkedDescCache) (key : Key) :
    (List KeyDescriptor × List Key) × LinkedDescCache :=
  match x.2.lookup now key with
  | (some desc,c) => ((x.1.1 ++ [desc],x.1.2),c)
  | (none,c) => ((x.1.1,x.1.2 ++ [key]),c)

theorem foldl_lookupNext (now : ℕ) (keys : List Key) (hits : List KeyDescriptor) (misses : List Key)
    (h : c.Refines l) : keys.foldl (lookupNext now) ((hits,misses),c) =
      ((hits ++ (c.batchLookup now keys).1.1,misses ++ (c.batchLookup now keys).1.2),
        (c.batchLookup now keys).2) := by
  induction keys generalizing c l hits misses with
  | nil => simp [batchLookup]
  | cons key keys ih =>
    obtain ⟨hanswer,hnext⟩ := h.lookup now key
    rw [List.foldl_cons]
    cases hlookup : c.cache.lookup key with
    | none =>
      have hmiss : c.lookup now key = (none,c) := by simp only [LinkedDescCache.lookup, hlookup]
      rw [lookupNext, hmiss]
      dsimp only
      rw [ih hits (misses ++ [key]) h]
      simp only [batchLookup, hlookup, List.append_assoc, List.singleton_append]
    | some iter =>
      obtain ⟨pre,node,post,hsplit,-,rfl⟩ := h.linked.split hlookup
      have hmem : node ∈ c.lruList := by
        rw [hsplit]
        simp
      have hfind := h.find_some hmem
      have hhit : c.lookup now (keyOf node) =
          (((c.spliceToBack iter).modify iter fun desc => { desc with accessTimeMs := now }).deref iter,
            (c.spliceToBack iter).modify iter fun desc => { desc with accessTimeMs := now }) := by
        simp only [LinkedDescCache.lookup, hlookup]
      rw [hhit, hfind] at hanswer
      rw [hhit] at hnext
      dsimp only at hanswer hnext
      rw [lookupNext, hhit]
      dsimp only
      rw [hanswer]
      dsimp only [Option.map_some]
      rw [ih _ misses hnext]
      simp only [batchLookup, hlookup, hanswer, Option.map_some, Option.toList_some, List.append_assoc]

theorem batchLookup_eq_foldl (h : c.Refines l) (now : ℕ) (keys : List Key) :
    c.batchLookup now keys = keys.foldl (lookupNext now) (([],[]),c) := by
  rw [foldl_lookupNext now keys [] [] h]
  simp

end LinkedDescCache

end FalconKV
