import FalconKV.Store.Custody
import FalconKV.Store.Steps

/-! # The books of a store

Every slot that the allocator ever handed out is owned by one record of the index,
waits in the pending queue, is held by a thread, is free, or was lost when a record
was overwritten. `Books` says so, and every call that follows the discipline of
`Custody` keeps it.
-/
namespace FalconKV
open AtomicCalls

/-- The slots of the index records. -/
def StoreMetaIndex.offsets (m : StoreMetaIndex) : Multiset ℕ := m.extents.map StoreKeyRecord.offset

def Holding.OfSize (n : ℕ) : Holding → Prop
  | .blank _ m | .filled _ m _ _ => m = n
  | .leaving _ | .reclaimed _ => True

namespace Store

def overwritten (s : Store) : StoreCall → Multiset ℕ
  | .indexPut key _ _ => ((s.index.find key).map StoreKeyRecord.offset).toList
  | _ => 0

theorem overwritten_of_not_put {s : Store} {op : StoreCall} (h : op.isPut = false) :
    s.overwritten op = 0 := by
  cases op with
  | indexPut key record data => cases h
  | _ => rfl

/-- An eviction removes the record that its candidate list was made from. -/
def snapshotCurrent (s : Store) : StoreCall → Bool
  | .indexRemove key (some snapshot) =>
    (s.index.find key).any fun rec => rec.offset == snapshot.offset
  | _ => true

/-- An insertion finds its key absent. -/
def keyAbsent (s : Store) : StoreCall → Bool
  | .indexPut key _ _ => (s.index.find key).isNone
  | _ => true

theorem overwritten_of_keyAbsent {s : Store} {op : StoreCall} (h : s.keyAbsent op = true) :
    s.overwritten op = 0 := by
  cases op with
  | indexPut key record data =>
    have hf : s.index.find key = none := Option.isNone_iff_eq_none.mp h
    simp [overwritten, hf]
  | _ => rfl

structure Books (s : Store) (held : Multiset Holding) (lost : Multiset ℕ) : Prop where
  wf : s.allocator.WF
  sound : s.index.Sound
  balance : s.index.offsets + s.pending.offsets + held.map Holding.offset + lost +
    s.allocator.spare = s.allocator.handedOut
  used : s.allocator.usedSlots + s.allocator.freeStack.length = s.allocator.nextSlot
  recordSize : ∀ rec ∈ s.index.extents, rec.allocSize = s.allocator.slotSize
  heldSize : ∀ h ∈ held, h.OfSize s.allocator.slotSize

variable {s s' : Store} {held : Multiset Holding} {lost : Multiset ℕ}

theorem books_init {cfg : StoreConfig} (hcap : cfg.capacityBytes < 2^63) :
    Books (init cfg) 0 0 where
  wf := SlotAllocator.wf_create hcap
  sound := StoreMetaIndex.sound_create
  balance := by simp [init, StoreMetaIndex.offsets]
  used := by
    simp only [init, SlotAllocator.create]
    split <;> rfl
  recordSize := by simp [init]
  heldSize := by simp

namespace Books

theorem nodup (h : Books s held lost) : (s.index.offsets + s.pending.offsets +
    held.map Holding.offset + lost + s.allocator.spare).Nodup := by
  rw [h.balance]
  exact h.wf.nodup_handedOut

theorem offset_lt (h : Books s held lost) {o : ℕ} (ho : o ∈ s.allocator.handedOut) : o < 2^63 := by
  obtain ⟨i,hi,rfl⟩ := SlotAllocator.mem_handedOut.mp ho
  exact h.wf.range i (hi.trans_le h.wf.next_le)

/-- `used_slots_` counts the slots that are in use, including those that were lost. -/
theorem used_eq (h : Books s held lost) : s.allocator.usedSlots = s.index.offsets.card +
    s.pending.offsets.card + held.card + lost.card := by
  have hb := congrArg Multiset.card h.balance
  have hu := h.used
  simp only [Multiset.card_add, Multiset.card_map, SlotAllocator.card_spare,
    SlotAllocator.card_handedOut] at hb
  omega

/-- As long as the slot size is not known, nothing is in use. -/
theorem empty (h : Books s held lost) (hi : s.allocator.initialized = false) :
    s.index.extents = 0 ∧ held = 0 := by
  have hn := (h.wf.empty hi).1
  have hb := congrArg Multiset.card h.balance
  simp only [Multiset.card_add, Multiset.card_map, SlotAllocator.card_spare,
    SlotAllocator.card_handedOut, hn, StoreMetaIndex.offsets] at hb
  constructor
  · exact Multiset.card_eq_zero.mp (by omega)
  · exact Multiset.card_eq_zero.mp (by omega)

/-- Slots that the allocator grants are held by the caller. -/
theorem grant {a' : SlotAllocator} {offs : Multiset ℕ} {new : Multiset Holding}
    (h : Books s held lost) (hg : s.allocator.Grants a' offs) (hnew : new.map Holding.offset = offs)
    (hsize : ∀ x ∈ new, x.OfSize a'.slotSize) :
    Books { s with allocator := a' } (new + held) lost := by
  have hbooks := hg.books
  have hcard := congrArg Multiset.card hbooks
  simp only [Multiset.card_add, SlotAllocator.card_spare, SlotAllocator.card_handedOut] at hcard
  have hused := h.used
  have hnext := hg.wf.next_le
  have hslots := hg.wf.slots_lt
  have hkeep : s.index.extents = 0 ∧ held = 0 ∨ a'.slotSize = s.allocator.slotSize := by
    cases hi : s.allocator.initialized with
    | false => exact .inl (h.empty hi)
    | true => exact .inr (hg.keep hi).2.1
  refine ⟨hg.wf,h.sound,?_,?_,?_,?_⟩
  · refine Multiset.add_right_inj (s := s.allocator.spare) |>.mp ?_
    rw [add_comm s.allocator.spare a'.handedOut, hbooks, ← h.balance, Multiset.map_add, hnew]
    abel
  · dsimp only
    rw [hg.used, u32_of_lt (by omega)]
    omega
  · intro rec hrec
    rcases hkeep with ⟨he,-⟩ | hk
    · rw [he] at hrec
      cases hrec
    · rw [h.recordSize rec hrec, hk]
  · intro x hx
    rcases Multiset.mem_add.mp hx with hx | hx
    · exact hsize x hx
    · rcases hkeep with ⟨-,he⟩ | hk
      · rw [he] at hx
        cases hx
      · dsimp only
        rw [hk]
        exact h.heldSize x hx

variable {rest : Multiset Holding}

theorem mem_handedOut {x : Holding} (h : Books s held lost) (hx : x ∈ held) :
    x.offset ∈ s.allocator.handedOut := by
  rw [← h.balance]
  simp only [Multiset.mem_add]
  exact .inl (.inl (.inr (Multiset.mem_map_of_mem _ hx)))

/-- A slot that is held goes back to the allocator. -/
theorem release {x : Holding} (n : ℕ) (h : Books s ({x} + rest) lost) :
    Books { s with allocator := s.allocator.free x.offset n } rest lost := by
  have hpos : 0 < s.allocator.usedSlots := by
    have := h.used_eq
    simp only [Multiset.card_add, Multiset.card_singleton] at this
    omega
  obtain ⟨hwf,hhand,hspare,hcount,i,-,hfree⟩ :=
    SlotAllocator.free_spec n h.wf (h.mem_handedOut (x := x) (by simp)) hpos
  have hsize : (s.allocator.free x.offset n).slotSize = s.allocator.slotSize := by rw [hfree]
  refine ⟨hwf,h.sound,?_,?_,?_,?_⟩
  · have hb := h.balance
    rw [Multiset.map_add, Multiset.map_singleton] at hb
    dsimp only
    rw [hhand, hspare, ← hb]
    abel
  · have hused := h.used
    have hstack : (s.allocator.free x.offset n).freeStack.length =
        s.allocator.freeStack.length + 1 := by rw [hfree]; rfl
    have hnext : (s.allocator.free x.offset n).nextSlot = s.allocator.nextSlot := by rw [hfree]
    dsimp only
    omega
  · dsimp only
    rw [hsize]
    exact h.recordSize
  · dsimp only
    rw [hsize]
    exact fun y hy => h.heldSize y (by simp [hy])

/-- The thread does something to slots that it holds. -/
theorem exchange {used made : Multiset Holding} {file : Bytes} (h : Books s (used + rest) lost)
    (hoff : made.map Holding.offset = used.map Holding.offset)
    (hsize : ∀ x ∈ made, x.OfSize s.allocator.slotSize) :
    Books { s with file := file } (made + rest) lost where
  wf := h.wf
  sound := h.sound
  balance := by
    have hb := h.balance
    rw [Multiset.map_add, ← hoff, ← Multiset.map_add] at hb
    exact hb
  used := h.used
  recordSize := h.recordSize
  heldSize := by
    intro x hx
    rcases Multiset.mem_add.mp hx with hx | hx
    · exact hsize x hx
    · exact h.heldSize x (by simp [hx])

/-- The index changes in what the books do not mention. -/
theorem lookup {m : StoreMetaIndex} (h : Books s held lost) (hm : m.extents = s.index.extents)
    (hs : m.Sound) : Books { s with index := m } held lost where
  wf := h.wf
  sound := hs
  balance := by
    dsimp only [StoreMetaIndex.offsets]
    rw [hm]
    exact h.balance
  used := h.used
  recordSize := by
    dsimp only
    rw [hm]
    exact h.recordSize
  heldSize := h.heldSize

theorem enqueue {o : ℕ} (key : Key) (n now : ℕ) (h : Books s ({.leaving o} + rest) lost) :
    Books { s with pending := s.pending.enqueue key o n now } rest lost where
  wf := h.wf
  sound := h.sound
  balance := by
    rw [← h.balance, PendingEvictQueue.offsets_enqueue, Multiset.map_add, Multiset.map_singleton]
    simp only [Holding.offset]
    abel
  used := h.used
  recordSize := h.recordSize
  heldSize := fun x hx => h.heldSize x (by simp [hx])

theorem take {taken : List EvictEntry} {q : PendingEvictQueue} (h : Books s held lost)
    (hq : s.pending.offsets = (taken.map EvictEntry.offset : List ℕ) + q.offsets) :
    Books { s with pending := q }
      ((taken.map fun e => Holding.reclaimed e.offset : List Holding) + held) lost where
  wf := h.wf
  sound := h.sound
  balance := by
    have hb := h.balance
    have hm : Multiset.map Holding.offset
        (taken.map fun e => Holding.reclaimed e.offset : List Holding) =
        (taken.map EvictEntry.offset : List ℕ) := by simp [Function.comp_def, Holding.offset]
    rw [hq] at hb
    dsimp only
    rw [← hb, Multiset.map_add, hm]
    abel
  used := h.used
  recordSize := h.recordSize
  heldSize := by
    intro x hx
    rcases Multiset.mem_add.mp hx with hx | hx
    · obtain ⟨e,-,rfl⟩ := List.mem_map.mp (Multiset.mem_coe.mp hx)
      trivial
    · exact h.heldSize x hx

/-- The slot of a record that leaves the index is held by the caller. -/
theorem remove (key : Key) (h : Books s held lost) :
    Books { s with index := (s.index.remove key).2 }
      ((((s.index.remove key).1.map fun rec => Holding.leaving rec.offset).toList : Multiset Holding)
        + held) lost := by
  rw [StoreMetaIndex.remove_fst]
  cases hf : s.index.find key with
  | none =>
    rw [StoreMetaIndex.extents_remove_of_none hf]
    have hz : ((Option.map (fun rec : StoreKeyRecord => Holding.leaving rec.offset) none).toList :
        Multiset Holding) + held = held := by simp
    rw [hz]
    exact h
  | some rec =>
    have he := StoreMetaIndex.extents_remove_of_some hf
    refine ⟨h.wf,h.sound.remove,?_,h.used,?_,?_⟩
    · have hb := h.balance
      dsimp only
      rw [← hb, StoreMetaIndex.offsets, StoreMetaIndex.offsets, he]
      simp only [Option.map_some, Option.toList_some, Multiset.coe_singleton, Multiset.map_add,
        Multiset.map_singleton, StoreKeyRecord.timeless, Holding.offset]
      abel
    · intro r hr
      exact h.recordSize r (by rw [he]; exact Multiset.mem_add.mpr (.inr hr))
    · intro x hx
      rcases Multiset.mem_add.mp hx with hx | hx
      · simp only [Option.map_some, Option.toList_some, Multiset.coe_singleton,
          Multiset.mem_singleton] at hx
        rw [hx]
        trivial
      · exact h.heldSize x hx

/-- A written slot becomes a record; the slot of an overwritten record is lost. -/
theorem put {key : Key} {record : StoreKeyRecord} {d : Bytes} {size : ℕ} (data : Option Bytes)
    (h : Books s ({.filled record.offset record.allocSize d size} + rest) lost)
    (hkey : record.key = key) (hstat : record.stat = 1) :
    Books { s with index := s.index.put key record } rest
      (s.overwritten (.indexPut key record data) + lost) := by
  have hsize : record.allocSize = s.allocator.slotSize :=
    h.heldSize (.filled record.offset record.allocSize d size) (by simp)
  have hb := h.balance
  simp only [Multiset.map_add, Multiset.map_singleton, StoreMetaIndex.offsets,
    Holding.offset] at hb
  refine ⟨h.wf,h.sound.put hkey hstat,?_,h.used,?_,fun x hx => h.heldSize x (by simp [hx])⟩
  · simp only [overwritten, StoreMetaIndex.offsets]
    rw [← hb]
    cases hf : s.index.find key with
    | none =>
      rw [StoreMetaIndex.extents_put_of_none hf]
      simp only [Option.map_none, Option.toList_none, Multiset.coe_nil, Multiset.map_add,
        Multiset.map_singleton, StoreKeyRecord.timeless]
      abel
    | some old =>
      have he := congrArg (Multiset.map StoreKeyRecord.offset)
        (StoreMetaIndex.extents_put_of_some record hf)
      simp only [Multiset.map_add, Multiset.map_singleton, StoreKeyRecord.timeless,
        StoreMetaIndex.stored] at he
      simp only [Option.map_some, Option.toList_some, Multiset.coe_singleton]
      calc Multiset.map StoreKeyRecord.offset (s.index.put key record).extents +
            s.pending.offsets + Multiset.map Holding.offset rest + ({old.offset} + lost) +
            s.allocator.spare
          = ({old.offset} + Multiset.map StoreKeyRecord.offset (s.index.put key record).extents) +
            (s.pending.offsets + Multiset.map Holding.offset rest + lost + s.allocator.spare) := by
              abel
        _ = _ := by
          rw [he]
          abel
  · intro r hr
    rcases StoreMetaIndex.mem_extents_put hr with rfl | hr
    · exact hsize
    · exact h.recordSize r hr

theorem alloc {size : ℕ} {r : Allocated} {a' : SlotAllocator} (h : Books s held lost)
    (he : s.allocator.alloc size = (r,a')) :
    Books { s with allocator := a' } (grantedOf r + held) lost := by
  rcases SlotAllocator.alloc_spec h.wf he with ⟨hneg,-,hg⟩ | ⟨o,ho,hn,-,-,hg⟩
  · rw [grantedOf, if_pos hneg]
    exact h.grant hg (by simp) (by simp)
  · have hpos : ¬ r.offset < 0 := by omega
    rw [grantedOf, if_neg hpos]
    refine h.grant hg ?_ ?_
    · rw [Multiset.map_singleton, Holding.offset, ho, Int.toNat_natCast]
    · intro x hx
      rw [Multiset.mem_singleton.mp hx]
      exact hn

theorem batchAlloc {size count n : ℕ} {offs : List ℤ} {a' : SlotAllocator} (h : Books s held lost)
    (he : s.allocator.batchAlloc size count = ((offs,n),a')) :
    Books { s with allocator := a' }
      ((offs.map fun o => Holding.blank o.toNat n : List Holding) + held) lost := by
  rcases SlotAllocator.batchAlloc_spec h.wf he with ⟨rfl,hg⟩ | ⟨os,rfl,-,hn,-,-,hg⟩
  · exact h.grant hg (by simp) (by simp)
  · refine h.grant hg ?_ ?_
    · simp [Function.comp_def, Holding.offset]
    · intro x hx
      obtain ⟨o,-,rfl⟩ := List.mem_map.mp (Multiset.mem_coe.mp hx)
      exact hn

/-- A write moves a held slot from blank to filled. -/
theorem write {offset n size : ℕ} {data : Option Bytes} {b : Bool} {file : Bytes}
    (h : Books s ({.blank offset n} + rest) lost) :
    Books { s with file := file } ({.afterWrite offset n data size b} + rest) lost := by
  refine h.exchange ?_ ?_
  · rw [Multiset.map_singleton, Multiset.map_singleton, Holding.offset_afterWrite]
    rfl
  · intro x hx
    have hblank : n = s.allocator.slotSize := h.heldSize (.blank offset n) (by simp)
    rw [Multiset.mem_singleton.mp hx]
    cases b <;> cases data <;> exact hblank

theorem step_of_not_put {op : StoreCall} {c : StoreChoice} {r : op.Res}
    {used made : Multiset Holding} (h : Books s (used + rest) lost) (hop : op.isPut = false)
    (hs : s.step op c = some (r,s')) (hr : Custody.rule op r used made) :
    Books s' (made + rest) lost := by
  cases op with
  | getWallTimeMs | getLRUCandidates | getLRUCandidatesBySize | getAllCommittedEntries
  | getTotalBytes | syncCommit | asyncCommit | syncRemove =>
    obtain ⟨rfl,rfl⟩ := hr
    cases hs
    exact h
  | indexGet key =>
    obtain ⟨rfl,rfl⟩ := hr
    cases hs
    exact h.lookup StoreMetaIndex.extents_get h.sound.get
  | indexBatchContains keys =>
    obtain ⟨rfl,rfl⟩ := hr
    cases hs
    exact h.lookup (StoreMetaIndex.extents_batchContains keys) (h.sound.batchContains keys)
  | indexPut key record data => cases hop
  | indexRemove key snapshot =>
    obtain ⟨rfl,rfl⟩ := hr
    cases hs
    rw [zero_add] at h
    exact h.remove key
  | alloc size =>
    obtain ⟨rfl,rfl⟩ := hr
    cases hs
    rw [zero_add] at h
    exact h.alloc (r := (s.allocator.alloc size).1) rfl
  | batchAlloc size count =>
    obtain ⟨rfl,rfl⟩ := hr
    cases hs
    rw [zero_add] at h
    exact h.batchAlloc (n := (s.allocator.batchAlloc size count).1.2) rfl
  | free offset n =>
    obtain ⟨rfl,x,rfl,-,rfl⟩ := hr
    cases hs
    rw [zero_add]
    exact h.release n
  | enqueue key offset n =>
    obtain ⟨rfl,rfl⟩ := hr
    cases hs
    rw [zero_add]
    exact h.enqueue key n c.now
  | takeExpired now =>
    obtain ⟨rfl,rfl⟩ := hr
    cases hs
    rw [zero_add] at h
    exact h.take (PendingEvictQueue.offsets_takeExpired now)
  | takeAll =>
    obtain ⟨rfl,rfl⟩ := hr
    cases hs
    rw [zero_add] at h
    exact h.take PendingEvictQueue.offsets_takeAll
  | pwrite offset data size =>
    obtain ⟨n,rfl,rfl⟩ := hr
    obtain ⟨file,rfl⟩ := pwrite_frame hs
    exact h.write
  | uringWrite offset data size =>
    obtain ⟨n,rfl,rfl⟩ := hr
    obtain ⟨file,rfl⟩ := uringWrite_frame hs
    exact h.write
  | pread offset size reader =>
    obtain ⟨rfl,rfl⟩ := hr
    obtain ⟨x,-,hx⟩ := Option.map_eq_some_iff.mp hs
    cases hx
    exact h
  | uringRead offset size reader =>
    obtain ⟨rfl,rfl⟩ := hr
    cases hs
    exact h

/-- A call that follows the discipline keeps the books. -/
theorem step {op : StoreCall} {c : StoreChoice} {r : op.Res} {used made : Multiset Holding}
    (h : Books s (used + rest) lost) (hs : s.step op c = some (r,s'))
    (hr : Custody.rule op r used made) : Books s' (made + rest) (s.overwritten op + lost) := by
  cases hop : op.isPut with
  | false =>
    rw [overwritten_of_not_put hop, zero_add]
    exact h.step_of_not_put hop hs hr
  | true =>
    cases op with
    | indexPut key record data =>
      obtain ⟨rfl,hkey,hstat,d,-,rfl⟩ := hr
      cases hs
      rw [zero_add]
      exact h.put data hkey hstat
    | _ => cases hop

theorem held_lt {x : Holding} (h : Books s held lost) (hx : x ∈ held) : x.offset < 2^63 :=
  h.offset_lt (h.mem_handedOut hx)

theorem guar_alloc {size : ℕ} {r : Allocated} {a' : SlotAllocator} (h : Books s held lost)
    (he : s.allocator.alloc size = (r,a')) (hr : 0 ≤ r.offset) :
    r.offset < 2^63 ∧ 0 < r.allocSize := by
  have hafter := h.alloc he
  rw [grantedOf, if_neg (not_lt.mpr hr)] at hafter
  have hlt := hafter.held_lt (x := .blank r.offset.toNat r.allocSize) (by simp)
  simp only [Holding.offset] at hlt
  rcases SlotAllocator.alloc_spec h.wf he with ⟨hneg,-,-⟩ | ⟨o,-,hn,hi,-,hg⟩
  · omega
  · have hpos := hg.wf.pos hi
    omega

theorem guar_batchAlloc {size count n : ℕ} {offs : List ℤ} {a' : SlotAllocator}
    (h : Books s held lost) (he : s.allocator.batchAlloc size count = ((offs,n),a')) :
    offs.length ≤ count ∧ ∀ o ∈ offs, 0 ≤ o ∧ o < 2^63 ∧ 0 < n := by
  have hafter := h.batchAlloc he
  rcases SlotAllocator.batchAlloc_spec h.wf he with ⟨rfl,-⟩ | ⟨os,rfl,hlen,hn,hi,-,hg⟩
  · simp
  · refine ⟨by simpa using hlen,fun o ho => ?_⟩
    have hpos := hg.wf.pos hi
    have hlt := hafter.held_lt (x := .blank o.toNat n)
      (Multiset.mem_add.mpr (.inl (List.mem_map.mpr ⟨o,ho,rfl⟩)))
    obtain ⟨o,-,rfl⟩ := List.mem_map.mp ho
    simp only [Holding.offset, Int.toNat_natCast] at hlt
    omega

theorem guar_take {taken : List EvictEntry} {q : PendingEvictQueue} (h : Books s held lost)
    (hq : s.pending.offsets = (taken.map EvictEntry.offset : List ℕ) + q.offsets) :
    ∀ e ∈ taken, e.offset < 2^63 := by
  intro e he
  exact (h.take hq).held_lt (x := .reclaimed e.offset)
    (Multiset.mem_add.mpr (.inl (List.mem_map.mpr ⟨e,he,rfl⟩)))

theorem guar_pwrite {c : StoreChoice} {offset size : ℕ} {data : Option Bytes} {r : Transferred}
    (hs : s.pwrite c offset data size = some (r,s')) (hr : r.count = size) : data.isSome := by
  unfold pwrite at hs
  split at hs
  · rfl
  · cases hs
  · split at hs
    · cases hs
      dsimp only at hr
      omega
    · cases hs

theorem guar_uringWrite {c : StoreChoice} {offset size : ℕ} {data : Option Bytes} {r : Status}
    (hs : s.uringWrite c offset data size = some (r,s')) (hr : r.isOk = true) : data.isSome := by
  unfold uringWrite at hs
  split at hs
  · rfl
  · cases hs
  · cases hs
    cases hr

/-- A store that keeps its books answers as the discipline assumes. -/
theorem guar {op : StoreCall} {c : StoreChoice} {r : op.Res} (h : Books s held lost)
    (hok : s.snapshotCurrent op = true) (hs : s.step op c = some (r,s')) : Custody.guar op r := by
  cases op with
  | alloc size =>
    cases hs
    exact h.guar_alloc rfl
  | batchAlloc size count =>
    cases hs
    exact h.guar_batchAlloc rfl
  | takeExpired now =>
    cases hs
    exact h.guar_take (PendingEvictQueue.offsets_takeExpired now)
  | takeAll =>
    cases hs
    exact h.guar_take PendingEvictQueue.offsets_takeAll
  | indexRemove key snapshot =>
    cases hs
    cases snapshot with
    | none => trivial
    | some snapshot =>
      obtain ⟨rec,hrec,hoff⟩ := (Option.any_eq_true _ _).mp hok
      rw [StoreMetaIndex.remove_fst]
      exact ⟨rec,hrec,beq_iff_eq.mp hoff⟩
  | pwrite offset data size => exact fun hr => guar_pwrite hs hr
  | uringWrite offset data size => exact fun hr => guar_uringWrite hs hr
  | _ => trivial

end Books

/-- The calls of a run that keep slots apart: evictions act on current snapshots, and
no record is overwritten. -/
def wellTimed (s : Store) (op : StoreCall) : Bool := s.snapshotCurrent op && s.keyAbsent op

/-- Whatever is in use is owned once, and nothing is ever lost. -/
theorem keeps_books : Keeps storeMachine custody (fun s op => s.wellTimed op = true)
    fun _ s held => Books s held 0 where
  guar := by
    intro tr s op c r s' held h hok hs
    exact h.guar (Bool.and_eq_true_iff.mp hok).1 hs
  step := by
    intro tr i s op c r s' used made rest h hok hs hr
    have hstep := h.step hs hr
    rw [overwritten_of_keyAbsent (Bool.and_eq_true_iff.mp hok).2, zero_add] at hstep
    exact hstep

end Store

end FalconKV
