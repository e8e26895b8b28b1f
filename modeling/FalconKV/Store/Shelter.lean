import FalconKV.Store.Contents

/-! # Slots that keep their bytes

A slot is sheltered as long as it is neither spare nor in the hands of a thread that has
allocated or reclaimed it: its key is in the index, on its way into the queue, in the queue,
or was overwritten. Its bytes do not change, and only a flush ends this.
-/
namespace FalconKV
open AtomicCalls

def leavingOf (held : Multiset Holding) : Multiset ℕ :=
  (held.filter fun x => x.isLeaving = true).map Holding.offset

theorem leavingOf_add (held held' : Multiset Holding) :
    leavingOf (held + held') = leavingOf held + leavingOf held' := by
  rw [leavingOf, Multiset.filter_add, Multiset.map_add]
  rfl

theorem leavingOf_eq_zero {held : Multiset Holding} (h : ∀ x ∈ held, x.isLeaving = false) :
    leavingOf held = 0 := by
  rw [leavingOf, Multiset.filter_eq_nil.mpr fun x hx => by simp [h x hx]]
  rfl

theorem leavingOf_leaving (o : ℕ) : leavingOf {.leaving o} = {o} := rfl

def StoreCall.taken : (op : StoreCall) → op.Res → List ℕ
  | .takeExpired _, entries => entries.map EvictEntry.offset
  | .takeAll, entries => entries.map EvictEntry.offset
  | _, _ => []

def StoreCall.enqueued : StoreCall → Multiset ℕ
  | .enqueue _ offset _ => {offset}
  | _ => 0

namespace Store

variable {s s' : Store} {op : StoreCall} {c : StoreChoice} {r : op.Res}
  {used made rest held : Multiset Holding} {lost : Multiset ℕ} {o : ℕ}

def sheltered (s : Store) (held : Multiset Holding) (lost : Multiset ℕ) : Multiset ℕ :=
  s.index.offsets + s.pending.offsets + leavingOf held + lost

theorem mem_sheltered : o ∈ s.sheltered held lost ↔
    o ∈ s.index.offsets ∨ o ∈ s.pending.offsets ∨ o ∈ leavingOf held ∨ o ∈ lost := by
  simp only [sheltered, Multiset.mem_add, or_assoc]

/-- What thread holds besides is apart from the sheltered slots. -/
theorem Books.apart_sheltered {x : Holding} (h : Books s held lost)
    (ho : o ∈ s.sheltered held lost) (hx : x ∈ held) (hleaving : x.isLeaving = false) :
    o + s.allocator.slotSize ≤ x.offset ∨ x.offset + s.allocator.slotSize ≤ o := by
  have hheld : held.map Holding.offset = leavingOf held +
      (held.filter fun x => ¬ x.isLeaving = true).map Holding.offset := by
    rw [leavingOf, ← Multiset.map_add, Multiset.filter_add_not]
  have hsum : s.index.offsets + s.pending.offsets + held.map Holding.offset + lost =
      s.sheltered held lost + (held.filter fun x => ¬ x.isLeaving = true).map Holding.offset := by
    rw [hheld, sheltered]
    abel
  have hnodup := (Multiset.nodup_add.mp h.nodup).1
  rw [hsum] at hnodup
  have hmem : x.offset ∈ (held.filter fun x => ¬ x.isLeaving = true).map Holding.offset :=
    Multiset.mem_map_of_mem _ (Multiset.mem_filter.mpr ⟨hx,by simp [hleaving]⟩)
  have hne : o ≠ x.offset := by
    rintro rfl
    exact Multiset.disjoint_left.mp (Multiset.nodup_add.mp hnodup).2.2 ho hmem
  have hout : o ∈ s.allocator.handedOut := by
    rw [← h.balance, hsum]
    simp only [Multiset.mem_add]
    exact .inl (.inl ho)
  exact SlotAllocator.apart_of_ne hout (h.mem_handedOut hx) hne

/-- A call changes no byte of a sheltered slot. -/
theorem Books.file_sheltered {i : ℕ} (h : Books s (used + rest) lost)
    (hwrite : s.writeFits op = true) (hs : s.step op c = some (r,s'))
    (hr : Custody.rule op r used made) (ho : o ∈ s.sheltered (used + rest) lost)
    (hi : i < s.allocator.slotSize) : s'.file (o + i) = s.file (o + i) := by
  apply file_step hs
  intro hw
  obtain ⟨x,hx,hleaving,hlo,hhi⟩ := writes_used hwrite hr hw
  have hapart := h.apart_sheltered ho (Multiset.mem_add.mpr (.inl hx)) hleaving
  omega

theorem mem_offsets_step (hs : s.step op c = some (r,s')) (ho : o ∈ s.index.offsets) :
    o ∈ s'.index.offsets ∨ o ∈ s.overwritten op ∨
      ∃ key snapshot rec, op = .indexRemove key snapshot ∧ s.index.find key = some rec ∧
        rec.offset = o := by
  cases index_step hs with
  | keep _ _ h =>
    left
    rwa [StoreMetaIndex.offsets, h.extents]
  | put key record data h =>
    rw [h, StoreMetaIndex.offsets]
    cases hf : s.index.find key with
    | none =>
      left
      rw [StoreMetaIndex.extents_put_of_none hf, Multiset.map_add]
      exact Multiset.mem_add.mpr (.inr ho)
    | some old =>
      have hsum := congrArg (Multiset.map StoreKeyRecord.offset)
        (StoreMetaIndex.extents_put_of_some record hf)
      simp only [Multiset.map_add, Multiset.map_singleton, StoreKeyRecord.timeless] at hsum
      have hmem : o ∈ {old.offset} + (s.index.put key record).extents.map StoreKeyRecord.offset := by
        rw [hsum]
        exact Multiset.mem_add.mpr (.inr ho)
      rcases Multiset.mem_add.mp hmem with hold | hnew
      · right
        left
        simpa [overwritten, hf] using hold
      · exact .inl hnew
  | remove key snapshot h =>
    cases hf : s.index.find key with
    | none =>
      left
      rwa [h, StoreMetaIndex.extents_remove_of_none hf]
    | some rec =>
      rw [StoreMetaIndex.offsets, StoreMetaIndex.extents_remove_of_some hf, Multiset.map_add,
        Multiset.map_singleton, StoreKeyRecord.timeless] at ho
      rcases Multiset.mem_add.mp ho with hrec | hrest
      · exact .inr (.inr ⟨key,snapshot,rec,rfl,hf,(Multiset.mem_singleton.mp hrec).symm⟩)
      · left
        rwa [h]

/-- What a call changes about the queue. -/
theorem pending_balance (hs : s.step op c = some (r,s')) :
    (op.taken r : Multiset ℕ) + s'.pending.offsets = op.enqueued + s.pending.offsets := by
  cases op with
  | enqueue key offset n =>
    cases hs
    rw [PendingEvictQueue.offsets_enqueue]
    exact zero_add _
  | takeExpired now =>
    cases hs
    exact (PendingEvictQueue.offsets_takeExpired now).symm.trans (zero_add _).symm
  | takeAll =>
    cases hs
    exact PendingEvictQueue.offsets_takeAll.symm.trans (zero_add _).symm
  | pwrite | uringWrite | pread =>
    obtain ⟨file,rfl⟩ := onFile_frame hs rfl
    rfl
  | _ =>
    cases hs
    rfl

theorem mem_pending_step (hs : s.step op c = some (r,s')) (ho : o ∈ s.pending.offsets)
    (htaken : o ∉ op.taken r) : o ∈ s'.pending.offsets := by
  have hmem : o ∈ (op.taken r : Multiset ℕ) + s'.pending.offsets := by
    rw [pending_balance hs]
    exact Multiset.mem_add.mpr (.inr ho)
  exact (Multiset.mem_add.mp hmem).resolve_left htaken

/-- A slot on its way into the queue is used only to enqueue it. -/
theorem mem_pending_of_leaving (hs : s.step op c = some (r,s')) (hr : Custody.rule op r used made)
    (ho : o ∈ leavingOf used) : o ∈ s'.pending.offsets := by
  have hnone : ∀ {h : Holding}, h.isLeaving = false → used = {h} → o ∉ leavingOf used := by
    rintro h hl rfl hmem
    rw [leavingOf_eq_zero fun x hx => by rwa [Multiset.mem_singleton.mp hx]] at hmem
    cases hmem
  cases op with
  | enqueue key offset n =>
    obtain ⟨-,rfl⟩ := hr
    rw [leavingOf_leaving] at ho
    cases hs
    rw [PendingEvictQueue.offsets_enqueue]
    exact Multiset.mem_add.mpr (.inl ho)
  | free offset n =>
    obtain ⟨-,h,-,hl,hu⟩ := hr
    exact absurd ho (hnone hl hu)
  | pwrite offset data size =>
    obtain ⟨n,hu,-⟩ := hr
    exact absurd ho (hnone rfl hu)
  | uringWrite offset data size =>
    obtain ⟨n,hu,-⟩ := hr
    exact absurd ho (hnone rfl hu)
  | indexPut key record data =>
    obtain ⟨-,-,-,d,-,hu⟩ := hr
    exact absurd ho (hnone rfl hu)
  | _ =>
    obtain ⟨rfl,-⟩ := hr
    cases ho

/-- A sheltered slot stays sheltered, unless a flush takes it. -/
theorem mem_sheltered_step (hs : s.step op c = some (r,s')) (hr : Custody.rule op r used made)
    (ho : o ∈ s.sheltered (used + rest) lost) (htaken : o ∉ op.taken r) :
    o ∈ s'.sheltered (made + rest) (s.overwritten op + lost) := by
  rw [mem_sheltered, leavingOf_add, Multiset.mem_add] at ho ⊢
  rw [Multiset.mem_add]
  rcases ho with hindex | hpending | (hused | hrest) | hlost
  · rcases mem_offsets_step hs hindex with hkept | hover | ⟨key,snapshot,rec,rfl,hf,rfl⟩
    · exact .inl hkept
    · exact .inr (.inr (.inr (.inl hover)))
    · obtain ⟨-,rfl⟩ := hr
      have hfound : r = some rec := by
        cases hs
        rw [← hf]
        exact StoreMetaIndex.remove_fst
      rw [hfound]
      have hmade : rec.offset ∈ leavingOf {.leaving rec.offset} := by simp [leavingOf_leaving]
      exact .inr (.inr (.inl (.inl hmade)))
  · exact .inr (.inl (mem_pending_step hs hpending htaken))
  · exact .inr (.inl (mem_pending_of_leaving hs hr hused))
  · exact .inr (.inr (.inl (.inr hrest)))
  · exact .inr (.inr (.inr (.inr hlost)))

/-- Only an `Enqueue` puts a slot into the queue. -/
theorem mem_pending_of_step (hs : s.step op c = some (r,s')) (ho : o ∈ s'.pending.offsets)
    (hop : ∀ key n, op ≠ .enqueue key o n) : o ∈ s.pending.offsets := by
  have hmem : o ∈ op.enqueued + s.pending.offsets := by
    rw [← pending_balance hs]
    exact Multiset.mem_add.mpr (.inr ho)
  apply (Multiset.mem_add.mp hmem).resolve_left
  intro hnew
  cases op with
  | enqueue key offset n =>
    obtain rfl := Multiset.mem_singleton.mp hnew
    exact hop key n rfl
  | _ => cases hnew

theorem mem_pending_of_taken (hs : s.step op c = some (r,s')) (ho : o ∈ op.taken r) :
    o ∈ s.pending.offsets := by
  cases op with
  | takeExpired now =>
    cases hs
    rw [PendingEvictQueue.offsets_takeExpired now]
    exact Multiset.mem_add.mpr (.inl ho)
  | takeAll =>
    cases hs
    rw [PendingEvictQueue.offsets_takeAll]
    exact Multiset.mem_add.mpr (.inl ho)
  | _ => cases ho

theorem Books.not_mem_pending {x : Holding} (h : Books s held lost) (hx : x ∈ held) :
    x.offset ∉ s.pending.offsets := by
  intro hmem
  have hown := (Multiset.nodup_add.mp (Multiset.nodup_add.mp h.nodup).1).1
  exact Multiset.disjoint_left.mp (Multiset.nodup_add.mp hown).2.2
    (Multiset.mem_add.mpr (.inr hmem)) (Multiset.mem_map_of_mem _ hx)

/-- The allocator has its slot size as long as a slot is in use. -/
theorem Books.slotSize_step {x : ℕ} (h : Books s held lost) (ho : o ∈ s.sheltered held lost)
    (hs : s.step op c = some (r,s')) (hx : x ≤ s.allocator.slotSize) :
    x ≤ s'.allocator.slotSize := by
  have hout : o ∈ s.allocator.handedOut := by
    rw [← h.balance]
    simp only [Multiset.mem_add]
    rcases mem_sheltered.mp ho with hi | hp | hl | hlost
    · exact .inl (.inl (.inl (.inl hi)))
    · exact .inl (.inl (.inl (.inr hp)))
    · exact .inl (.inl (.inr (Multiset.map_subset_map (Multiset.filter_subset _ held) hl)))
    · exact .inl (.inr hlost)
  obtain ⟨slot,hlt,-⟩ := SlotAllocator.mem_handedOut.mp hout
  have hi := h.wf.initialized_of_next_pos (by omega)
  rw [(sizeKept_step hs hi).2]
  exact hx

end Store

end FalconKV
