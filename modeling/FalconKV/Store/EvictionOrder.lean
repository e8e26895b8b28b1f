import FalconKV.AtomicCalls.Environment
import FalconKV.Store.Serial

/-! # Eviction takes the coldest record

The recency list of the index has the keys of its map. Forced eviction run alone takes
records from the cold end of that list, one by one, and changes nothing else.
-/
namespace FalconKV
open AtomicCalls

namespace StoreMetaIndex
variable {m : StoreMetaIndex} {key k : Key} {rec record : StoreKeyRecord} {now : ℕ}

def Linked (m : StoreMetaIndex) : Prop := ∀ k, k ∈ m.lru.items ↔ (m.find k).isSome = true

/-- An index whose records are committed, each under its own key, and all in the recency list. -/
structure Tracked (m : StoreMetaIndex) : Prop where
  sound : m.Sound
  linked : m.Linked

theorem tracked_create : create.Tracked := ⟨sound_create,fun k => by simp [create, find]⟩

theorem lru_touchRecord : (m.touchRecord key rec now).lru = (m.lru.remove key).pushFront key := rfl

theorem Tracked.get (h : m.Tracked) : (m.get key now).2.Tracked := by
  refine ⟨h.sound.get,fun k => ?_⟩
  rw [h.sound.get_eq]
  cases hf : m.find key with
  | none => exact h.linked k
  | some rec =>
    dsimp only
    rw [lru_touchRecord, RecencyList.mem_pushFront, RecencyList.mem_remove, find_touchRecord]
    by_cases hk : k = key
    · simp [hk]
    · simp [hk, h.linked k]

theorem Tracked.batchContains (h : m.Tracked) (keys : List Key) :
    (m.batchContains now keys).2.Tracked := by
  induction keys generalizing m with
  | nil => exact h
  | cons key keys ih =>
    have hg : (m.get key now).2.Tracked := h.get
    unfold StoreMetaIndex.batchContains
    cases hget : m.get key now with
    | mk found m' =>
      rw [hget] at hg
      cases found with
      | none => exact ih hg
      | some rec => exact ih hg

theorem Tracked.put (h : m.Tracked) (hkey : record.key = key) (hstat : record.stat = 1) :
    (m.put key record).Tracked := by
  refine ⟨h.sound.put hkey hstat,fun k => ?_⟩
  rw [find_put]
  unfold StoreMetaIndex.put
  cases hf : m.find key with
  | none =>
    dsimp only
    rw [if_pos hstat, setRecord, link, RecencyList.mem_pushFront, h.linked k]
    by_cases hk : k = key <;> simp [hk]
  | some rec =>
    dsimp only
    rw [if_pos hstat, if_pos (h.sound.committed hf), link, setRecord, unlink,
      RecencyList.mem_pushFront, RecencyList.mem_remove, h.linked k]
    by_cases hk : k = key <;> simp [hk]

theorem Sound.lru_remove (h : m.Sound) (hf : m.find key = some rec) :
    (m.remove key).2.lru = m.lru.remove key := by
  unfold StoreMetaIndex.remove
  rw [hf]
  dsimp only
  rw [if_pos (h.committed hf)]
  rfl

theorem Tracked.remove (h : m.Tracked) : (m.remove key).2.Tracked := by
  refine ⟨h.sound.remove,fun k => ?_⟩
  rw [find_remove]
  cases hf : m.find key with
  | none =>
    rw [extents_remove_of_none hf, h.linked k]
    by_cases hk : k = key <;> simp [hk, hf]
  | some rec =>
    rw [h.sound.lru_remove hf, RecencyList.mem_remove, h.linked k]
    by_cases hk : k = key <;> simp [hk]

theorem Linked.find_of_mem (h : m.Linked) (hk : k ∈ m.lru.coldest) : ∃ rec, m.find k = some rec :=
  Option.isSome_iff_exists.mp ((h k).mp (RecencyList.mem_coldest.mp hk))

/-- The map has as many records as the list has keys. -/
theorem Linked.card_extents (h : m.Linked) : m.extents.card = m.lru.coldest.length := by
  have hmem : ∀ k, k ∈ m.index.keys ↔ k ∈ m.lru.coldest := by
    intro k
    rw [RecencyList.mem_coldest, h k, ← AList.mem_keys, ← AList.lookup_isSome]
    rfl
  have hperm := (List.perm_ext_iff_of_nodup m.index.keys_nodup m.lru.nodup_coldest).mpr hmem
  rw [← hperm.length_eq]
  simp [extents, AList.keys, List.keys]

theorem takeBySize_take (neededBytes : ℕ) (l : List StoreKeyRecord) (maxCount : ℕ)
    (result : EvictCandidates) :
    ∃ n, (takeBySize neededBytes l maxCount result).entries = result.entries ++ l.take n := by
  induction l generalizing maxCount result with
  | nil => exact ⟨0,by simp [takeBySize]⟩
  | cons rec rest ih =>
    cases maxCount with
    | zero => exact ⟨0,by simp [takeBySize]⟩
    | succ maxCount =>
      by_cases hn : result.totalAllocSize < neededBytes
      · obtain ⟨n,hn'⟩ :=
          ih maxCount ⟨result.entries ++ [rec],u32 (result.totalAllocSize + rec.allocSize)⟩
        refine ⟨n + 1,?_⟩
        rw [takeBySize, if_pos hn, hn', List.take_succ_cons]
        simp
      · exact ⟨0,by simp [takeBySize, hn]⟩

/-- The keys of the candidates are the cold end of the list. -/
theorem Tracked.candidates (h : m.Tracked) (neededBytes maxCount : ℕ) :
    (m.getLRUCandidatesBySize neededBytes maxCount).entries.map StoreKeyRecord.key <+:
      m.lru.coldest := by
  have hkeys : ∀ ks : List Key, (∀ k ∈ ks, k ∈ m.lru.coldest) →
      (ks.filterMap m.find).map StoreKeyRecord.key = ks := by
    intro ks
    induction ks with
    | nil => exact fun _ => rfl
    | cons k ks ih =>
      intro hks
      obtain ⟨rec,hf⟩ := h.linked.find_of_mem (hks k List.mem_cons_self)
      rw [List.filterMap_cons_some hf, List.map_cons, h.sound.keyed hf,
        ih fun k' hk' => hks k' (List.mem_cons_of_mem _ hk')]
  obtain ⟨n,hn⟩ := takeBySize_take neededBytes (m.lru.coldest.filterMap m.find) maxCount ⟨[],0⟩
  rw [getLRUCandidatesBySize, hn, List.nil_append, List.map_take, hkeys _ fun _ hk => hk]
  exact List.take_prefix n _

/-- Something is taken if anything is there and asked for. -/
theorem Tracked.candidates_ne_nil (h : m.Tracked) (neededBytes maxCount : ℕ)
    (hne : m.lru.coldest ≠ []) (hneed : 0 < neededBytes) (hmax : 0 < maxCount) :
    (m.getLRUCandidatesBySize neededBytes maxCount).entries ≠ [] := by
  obtain ⟨k,ks,hcold⟩ := List.exists_cons_of_ne_nil hne
  obtain ⟨rec,hf⟩ := h.linked.find_of_mem (k := k) (by simp [hcold])
  obtain ⟨maxCount,rfl⟩ := Nat.exists_eq_succ_of_ne_zero (Nat.ne_of_gt hmax)
  rw [getLRUCandidatesBySize, hcold, List.filterMap_cons_some hf, takeBySize, if_pos hneed]
  obtain ⟨n,hn⟩ := takeBySize_take neededBytes (ks.filterMap m.find) maxCount
    ⟨[] ++ [rec],u32 (0 + rec.allocSize)⟩
  rw [hn]
  simp

theorem candidates_eq_nil {neededBytes maxCount : ℕ} (h : m.lru.coldest = []) :
    (m.getLRUCandidatesBySize neededBytes maxCount).entries = [] := by
  rw [getLRUCandidatesBySize, h]
  rfl

def EvictsTo (m m' : StoreMetaIndex) (gone : List Key) : Prop :=
  m.lru.coldest = gone ++ m'.lru.coldest ∧
    ∀ k, m'.find k = if k ∈ gone then none else m.find k

variable {m' m'' : StoreMetaIndex} {gone gone' : List Key}

theorem EvictsTo.refl (m : StoreMetaIndex) : m.EvictsTo m [] := ⟨rfl,fun k => by simp⟩

theorem EvictsTo.trans (h : m.EvictsTo m' gone) (h' : m'.EvictsTo m'' gone') :
    m.EvictsTo m'' (gone ++ gone') := by
  refine ⟨by rw [h.1, h'.1, List.append_assoc],fun k => ?_⟩
  rw [h'.2, h.2]
  by_cases hg' : k ∈ gone' <;> by_cases hg : k ∈ gone <;> simp [hg, hg']

/-- No key that has left is still in the list. -/
theorem EvictsTo.mem_items (he : m.EvictsTo m' gone) :
    k ∈ m'.lru.items ↔ k ∈ m.lru.items ∧ k ∉ gone := by
  have hn : (gone ++ m'.lru.coldest).Nodup := he.1 ▸ m.lru.nodup_coldest
  have hdisjoint := (List.nodup_append.mp hn).2.2
  rw [← RecencyList.mem_coldest, ← RecencyList.mem_coldest, he.1, List.mem_append]
  constructor
  · intro hk
    exact ⟨.inr hk,fun hgone => hdisjoint k hgone k hk rfl⟩
  · rintro ⟨hgone | hk,hnot⟩
    · exact absurd hgone hnot
    · exact hk

theorem Tracked.evictsTo (h : m.Tracked) (he : m.EvictsTo m' gone) : m'.Tracked := by
  constructor
  · apply h.sound.of_find
    intro k rec hf
    rw [he.2] at hf
    split at hf
    · cases hf
    · exact .inr hf
  · intro k
    rw [he.mem_items, h.linked k, he.2]
    by_cases hgone : k ∈ gone <;> simp [hgone]

/-- If the coldest key leaves the list with its record, it is evicted. -/
theorem evictsTo_of_remove {rest : List Key} (hlru : (m.remove key).2.lru = m.lru.remove key)
    (hcold : m.lru.coldest = key :: rest) :
    m.EvictsTo (m.remove key).2 [key] ∧ (m.remove key).2.lru.coldest = rest := by
  have hrest : (m.remove key).2.lru.coldest = rest := by
    rw [hlru]
    exact RecencyList.coldest_remove hcold
  refine ⟨⟨by rw [hrest, hcold]; rfl,fun k => ?_⟩,hrest⟩
  rw [find_remove]
  by_cases hk : k = key <;> simp [hk]

/-- The coldest key leaves. -/
theorem Tracked.evictsTo_remove {rest : List Key} (h : m.Tracked) (hcold : m.lru.coldest = key :: rest) :
    m.EvictsTo (m.remove key).2 [key] ∧ (m.remove key).2.lru.coldest = rest := by
  obtain ⟨rec,hf⟩ := h.linked.find_of_mem (k := key) (by simp [hcold])
  exact evictsTo_of_remove (h.sound.lru_remove hf) hcold

end StoreMetaIndex

namespace SlotAllocator

structure SameShape (a a' : SlotAllocator) : Prop where
  slotSize : a'.slotSize = a.slotSize
  totalSlots : a'.totalSlots = a.totalSlots
  totalBytes : a'.totalBytes = a.totalBytes
  initialized : a'.initialized = a.initialized
  autoDetected : a'.autoDetected = a.autoDetected

theorem SameShape.refl (a : SlotAllocator) : a.SameShape a := ⟨rfl,rfl,rfl,rfl,rfl⟩

theorem SameShape.trans {a a' a'' : SlotAllocator} (h : a.SameShape a') (h' : a'.SameShape a'') :
    a.SameShape a'' :=
  ⟨h'.slotSize.trans h.slotSize,h'.totalSlots.trans h.totalSlots,h'.totalBytes.trans h.totalBytes,
    h'.initialized.trans h.initialized,h'.autoDetected.trans h.autoDetected⟩

theorem sameShape_free (a : SlotAllocator) (offset : ℤ) (n : ℕ) : a.SameShape (a.free offset n) := by
  rw [free_frame]
  exact ⟨rfl,rfl,rfl,rfl,rfl⟩

end SlotAllocator

def StoreCall.onIndex : StoreCall → Bool
  | indexGet _ | indexBatchContains _ | indexPut .. | indexRemove .. => true
  | _ => false

def StoreCall.takesSlots : StoreCall → Bool
  | alloc _ | batchAlloc .. => true
  | _ => false

namespace Store
variable {s s' : Store} {op : StoreCall} {c : StoreChoice} {r : op.Res}

theorem index_of_not_onIndex (hop : op.onIndex = false) (hs : s.step op c = some (r,s')) :
    s'.index = s.index := by
  cases op with
  | indexGet | indexBatchContains | indexPut | indexRemove => cases hop
  | pwrite | uringWrite | pread =>
    obtain ⟨file,rfl⟩ := onFile_frame hs rfl
    rfl
  | _ =>
    cases hs
    rfl

theorem shape_of_not_takesSlots (hop : op.takesSlots = false) (hs : s.step op c = some (r,s')) :
    s.allocator.SameShape s'.allocator := by
  cases op with
  | alloc | batchAlloc => cases hop
  | free offset n =>
    cases hs
    exact SlotAllocator.sameShape_free s.allocator offset n
  | pwrite | uringWrite | pread =>
    obtain ⟨file,rfl⟩ := onFile_frame hs rfl
    exact .refl _
  | _ =>
    cases hs
    exact .refl _

theorem tracked_step {used made : Multiset Holding} (h : s.index.Tracked)
    (hs : s.step op c = some (r,s')) (hr : Custody.rule op r used made) : s'.index.Tracked := by
  cases op with
  | indexGet key =>
    cases hs
    exact h.get
  | indexBatchContains keys =>
    cases hs
    exact h.batchContains keys
  | indexPut key record data =>
    obtain ⟨-,hkey,hstat,-⟩ := hr
    cases hs
    exact h.put hkey hstat
  | indexRemove key snapshot =>
    cases hs
    exact h.remove
  | _ =>
    rw [index_of_not_onIndex rfl hs]
    exact h

def evictsColdest (s : Store) : StoreCall → Bool
  | .indexRemove key (some _) => s.index.lru.coldest.head? == some key
  | op => !op.onIndex

abbrev Ages {α : Type} (post : α → Store → Prop) (p : StoreProg α) (s : Store) : Prop :=
  wp storeMachine (fun t op => t.evictsColdest op = true) post p s

theorem evictsColdest_of_not_onIndex (h : op.onIndex = false) (s : Store) :
    s.evictsColdest op = true := by
  cases op with
  | indexRemove => cases h
  | _ => simp [evictsColdest, h]

theorem isPut_of_evictsColdest (h : s.evictsColdest op = true) : op.isPut = false := by
  cases op with
  | indexPut => cases h
  | _ => rfl

/-- One such call. -/
theorem evictsTo_step (ht : s.index.Tracked) (hok : s.evictsColdest op = true)
    (hs : s.step op c = some (r,s')) : ∃ gone, s.index.EvictsTo s'.index gone := by
  cases hop : op.onIndex with
  | false =>
    rw [index_of_not_onIndex hop hs]
    exact ⟨[],.refl _⟩
  | true =>
    cases op with
    | indexRemove key snapshot =>
      cases snapshot with
      | none => cases hok
      | some snapshot =>
        obtain ⟨rest,hcold⟩ := List.head?_eq_some_iff.mp (beq_iff_eq.mp hok)
        cases hs
        exact ⟨[key],(ht.evictsTo_remove hcold).1⟩
    | indexGet | indexBatchContains | indexPut => cases hok
    | _ => cases hop

/-- The bytes that forced eviction is asked for. -/
def evictTarget (s : Store) (size : ℕ) : ℕ := max size (u32 (s.allocator.getTotalBytes / 20))

/-- What reclaiming does to the store `s`: `gone` are the keys that it evicts. -/
structure Reclaims (s t : Store) (gone : List Key) : Prop where
  index : s.index.EvictsTo t.index gone
  shape : s.allocator.SameShape t.allocator

theorem Reclaims.trans {t u : Store} {gone gone' : List Key} (h : Reclaims s t gone)
    (h' : Reclaims t u gone') : Reclaims s u (gone ++ gone') :=
  ⟨h.index.trans h'.index,h.shape.trans h'.shape⟩

theorem Reclaims.refl (s : Store) : Reclaims s s [] := ⟨.refl _,.refl _⟩

theorem Reclaims.length_le {t : Store} {gone : List Key} (h : Reclaims s t gone) :
    t.index.lru.coldest.length ≤ s.index.lru.coldest.length := by
  rw [h.index.1, List.length_append]
  omega

def aside (op : StoreCall) : Prop := op.onIndex = false ∧ op.takesSlots = false

theorem reclaims_of_aside {t : Store} (h : Reclaims s t []) (hop : aside op)
    (hs : t.step op c = some (r,s')) : Reclaims s s' [] := by
  have hindex : t.index.EvictsTo s'.index [] := by
    rw [index_of_not_onIndex hop.1 hs]
    exact .refl _
  have hstep : Reclaims t s' [] := ⟨hindex,shape_of_not_takesSlots hop.2 hs⟩
  exact h.trans hstep

theorem ages_aside {α : Type} {p : StoreProg α} (hp : p.Makes aside) :
    Ages (fun _ t => Reclaims s t []) p s :=
  wp_of_makes (I := fun t => Reclaims s t []) hp (fun t _ hop => evictsColdest_of_not_onIndex hop.1 t)
    (fun h hop hs => reclaims_of_aside h hop hs) (.refl s)

end Store

namespace StoreOps
open Store

variable {cfg : StoreConfig} {s : Store}

theorem aside_of_flushesOnly {α : Type} {p : StoreProg α} (hp : FlushesOnly p) : p.Makes aside := by
  refine hp.mono fun op h => ?_
  cases op with
  | indexGet | indexBatchContains | indexPut | indexRemove | alloc | batchAlloc => cases h
  | _ => exact ⟨rfl,rfl⟩

theorem aside_flushExpired : flushExpired.Makes aside := aside_of_flushesOnly flushesOnly_flushExpired

theorem aside_flushAllForced : flushAllForced.Makes aside :=
  aside_of_flushesOnly flushesOnly_flushAllForced

/-- Candidates that are the cold end of the list leave in its order. -/
theorem ages_dropCandidates {candidates : List StoreKeyRecord} (hs : s.index.Tracked)
    (hpre : candidates.map StoreKeyRecord.key <+: s.index.lru.coldest) :
    Ages (fun _ t => Reclaims s t (candidates.map StoreKeyRecord.key))
      (Prog.forEach dropCandidate candidates) s := by
  induction candidates generalizing s with
  | nil => exact .refl s
  | cons rec candidates ih =>
    obtain ⟨rest,hrest⟩ := hpre
    have hcold : s.index.lru.coldest =
        rec.key :: (candidates.map StoreKeyRecord.key ++ rest) := hrest.symm
    obtain ⟨hout,hleft⟩ := hs.evictsTo_remove hcold
    refine wp_bind.mpr (wp_perform (by simp [evictsColdest, hcold]) fun c r s₁ h₁ => ?_)
    refine ⟨rfl,fun c r s₂ h₂ => ?_⟩
    cases h₁
    cases h₂
    have hstep : Reclaims s { s with
        index := (s.index.remove rec.key).2
        pending := s.pending.enqueue rec.key rec.offset rec.allocSize c.now } [rec.key] :=
      ⟨hout,.refl _⟩
    refine wp_ret.mpr (wp_mono (ih (hs.evictsTo hstep.index) ⟨rest,?_⟩) fun _ t ht => ?_)
    · exact hleft.symm
    · exact hstep.trans ht

/-- A round takes the cold end of the list, or nothing. -/
theorem ages_forceEvictRounds (neededBytes rounds totalEvicted : ℕ) (hs : s.index.Tracked) :
    Ages (fun _ t => ∃ gone, Reclaims s t gone)
      (forceEvictRounds cfg neededBytes rounds totalEvicted) s := by
  induction rounds generalizing totalEvicted s with
  | zero => exact ⟨[],.refl s⟩
  | succ rounds ih =>
    unfold forceEvictRounds
    split
    · exact ⟨[],.refl s⟩
    · refine wp_perform rfl fun c candidates s' h => ?_
      cases h
      split
      · exact ⟨[],.refl s⟩
      · refine wp_bind.mpr (wp_mono (ages_aside (aside_of_flushesOnly (flushesOnly_notifyRemove _))) fun status s₁ h₁ => ?_)
        split
        · exact ⟨[],h₁⟩
        · have hpre := hs.candidates (neededBytes - totalEvicted) 64
          rw [h₁.index.1, List.nil_append] at hpre
          refine wp_bind.mpr (wp_mono (ages_dropCandidates (hs.evictsTo h₁.index) hpre)
            fun _ s₂ h₂ => ?_)
          have h₁₂ := h₁.trans h₂
          refine wp_mono (ih _ (hs.evictsTo h₁₂.index)) ?_
          rintro _ t ⟨gone,h₃⟩
          exact ⟨_,h₁₂.trans h₃⟩

theorem ages_forceEvict (neededBytes : ℕ) (hs : s.index.Tracked) :
    Ages (fun _ t => ∃ gone, Reclaims s t gone) (forceEvict cfg neededBytes) s :=
  ages_forceEvictRounds neededBytes 5 0 hs

end StoreOps

end FalconKV
