import FalconKV.Store.Serial

/-! # Extents of distinct records are disjoint

A record owns one slot, and its value stays inside, as long as every value that is
written fits the slot it is written into. `BatchAlloc` sees the size of one key only, so
this is asked of the sizes of a batch.
-/
namespace FalconKV
open AtomicCalls

def Holding.Fits : Holding → Prop
  | .filled _ n _ size => size ≤ n
  | _ => True

def StoreCall.Writes (i : ℕ) : StoreCall → Prop
  | .pwrite offset _ size | .uringWrite offset _ size => offset ≤ i ∧ i < offset + size
  | _ => False

namespace Store

variable {cfg : StoreConfig} {s s' : Store} {op : StoreCall} {c : StoreChoice} {r : op.Res}
  {used made rest held : Multiset Holding} {lost : Multiset ℕ}

/-- A call puts at most one record into the index. -/
theorem mem_extents_step {rec : StoreKeyRecord} (hs : s.step op c = some (r,s'))
    (hrec : rec ∈ s'.index.extents) : rec ∈ s.index.extents ∨
    ∃ key record data, op = .indexPut key record data ∧ rec = (s.index.stored key record).timeless := by
  cases index_step hs with
  | put key record data h =>
    rw [h] at hrec
    rcases StoreMetaIndex.mem_extents_put hrec with hrec | hrec
    · exact .inr ⟨key,record,data,rfl,hrec⟩
    · exact .inl hrec
  | remove key snapshot h =>
    rw [h] at hrec
    left
    cases hf : s.index.find key with
    | none =>
      rw [StoreMetaIndex.extents_remove_of_none hf] at hrec
      exact hrec
    | some old =>
      rw [StoreMetaIndex.extents_remove_of_some hf]
      exact Multiset.mem_add.mpr (.inr hrec)
  | keep _ _ h =>
    rw [h.extents] at hrec
    exact .inl hrec

structure Fitting (s : Store) (held : Multiset Holding) : Prop where
  records : ∀ rec ∈ s.index.extents, rec.size ≤ rec.allocSize
  holdings : ∀ h ∈ held, h.Fits

theorem fitting_init : Fitting (init cfg) 0 := ⟨by simp [init],by simp⟩

theorem fits_afterWrite {offset n size : ℕ} {data : Option Bytes} {b : Bool} (h : size ≤ n) :
    (Holding.afterWrite offset n data size b).Fits := by
  cases b <;> cases data <;> first | exact h | trivial

/-- What a call makes fits, if what it writes does. -/
theorem fits_made (hbooks : Books s (used + rest) lost) (hwrite : s.writeFits op = true)
    (hr : Custody.rule op r used made) : ∀ x ∈ made, x.Fits := by
  have hblank : ∀ {offset n : ℕ}, used = {.blank offset n} → n = s.allocator.slotSize := by
    rintro offset n rfl
    exact hbooks.heldSize (.blank offset n) (by simp)
  intro x hx
  cases op with
  | pwrite offset data size =>
    obtain ⟨n,hu,rfl⟩ := hr
    rw [Multiset.mem_singleton.mp hx, hblank hu]
    exact fits_afterWrite (of_decide_eq_true hwrite)
  | uringWrite offset data size =>
    obtain ⟨n,hu,rfl⟩ := hr
    rw [Multiset.mem_singleton.mp hx, hblank hu]
    exact fits_afterWrite (of_decide_eq_true hwrite)
  | alloc size =>
    obtain ⟨-,rfl⟩ := hr
    unfold grantedOf at hx
    split at hx
    · cases hx
    · rw [Multiset.mem_singleton.mp hx]
      trivial
  | batchAlloc size count =>
    obtain ⟨-,rfl⟩ := hr
    obtain ⟨o,-,rfl⟩ := List.mem_map.mp (Multiset.mem_coe.mp hx)
    trivial
  | takeExpired now =>
    obtain ⟨-,rfl⟩ := hr
    obtain ⟨e,-,rfl⟩ := List.mem_map.mp (Multiset.mem_coe.mp hx)
    trivial
  | takeAll =>
    obtain ⟨-,rfl⟩ := hr
    obtain ⟨e,-,rfl⟩ := List.mem_map.mp (Multiset.mem_coe.mp hx)
    trivial
  | indexRemove key snapshot =>
    obtain ⟨-,rfl⟩ := hr
    cases r with
    | none => cases hx
    | some rec =>
      rw [Multiset.mem_singleton.mp hx]
      trivial
  | indexPut key record data | enqueue key offset n | free offset n =>
    obtain ⟨rfl,-⟩ := hr
    cases hx
  | _ =>
    obtain ⟨-,rfl⟩ := hr
    cases hx

theorem Fitting.step (h : Fitting s (used + rest)) (hbooks : Books s (used + rest) lost)
    (hwrite : s.writeFits op = true) (hs : s.step op c = some (r,s'))
    (hr : Custody.rule op r used made) : Fitting s' (made + rest) where
  records := by
    intro rec hrec
    rcases mem_extents_step hs hrec with hold | ⟨key,record,data,rfl,rfl⟩
    · exact h.records rec hold
    · obtain ⟨-,-,-,d,-,rfl⟩ := hr
      exact h.holdings (.filled record.offset record.allocSize d record.size) (by simp)
  holdings := by
    intro x hx
    rcases Multiset.mem_add.mp hx with hx | hx
    · exact fits_made hbooks hwrite hr x hx
    · exact h.holdings x (by simp [hx])

def Tidy (s : Store) (held : Multiset Holding) : Prop := (∃ lost, Books s held lost) ∧ Fitting s held

def wellSized (s : Store) (op : StoreCall) : Bool := s.snapshotCurrent op && s.writeFits op

theorem keeps_tidy : Keeps storeMachine custody (fun s op => s.wellSized op = true)
    fun _ s held => Tidy s held where
  guar := by
    rintro tr s op c r s' held ⟨⟨lost,hbooks⟩,-⟩ hok hs
    exact hbooks.guar (Bool.and_eq_true_iff.mp hok).1 hs
  step := by
    rintro tr i s op c r s' used made rest ⟨⟨lost,hbooks⟩,hfit⟩ hok hs hr
    exact ⟨⟨_,hbooks.step hs hr⟩,hfit.step hbooks (Bool.and_eq_true_iff.mp hok).2 hs hr⟩

theorem overwrite_of_outside {file d : Bytes} {offset size i : ℕ}
    (h : i < offset ∨ offset + size ≤ i) : overwrite file offset d size i = file i := by
  have hnot : ¬ (offset ≤ i ∧ i < offset + size) := by omega
  simp only [overwrite, if_neg hnot]

theorem pwrite_outside {offset size i : ℕ} {data : Option Bytes} {r : Transferred}
    (hs : s.pwrite c offset data size = some (r,s')) (hi : i < offset ∨ offset + size ≤ i) :
    s'.file i = s.file i := by
  unfold pwrite at hs
  split at hs
  · cases hs
    exact overwrite_of_outside hi
  · cases hs
  · split at hs
    · cases hs
      exact overwrite_of_outside hi
    · cases hs

theorem uringWrite_outside {offset size i : ℕ} {data : Option Bytes} {r : Status}
    (hs : s.uringWrite c offset data size = some (r,s')) (hi : i < offset ∨ offset + size ≤ i) :
    s'.file i = s.file i := by
  unfold uringWrite at hs
  split at hs
  · cases hs
    exact overwrite_of_outside hi
  · cases hs
  · cases hs
    exact overwrite_of_outside hi

theorem file_step {i : ℕ} (hs : s.step op c = some (r,s')) (hi : ¬ op.Writes i) :
    s'.file i = s.file i := by
  cases op with
  | pwrite offset data size =>
    simp only [StoreCall.Writes] at hi
    exact pwrite_outside hs (by omega)
  | uringWrite offset data size =>
    simp only [StoreCall.Writes] at hi
    exact uringWrite_outside hs (by omega)
  | pread offset size reader =>
    obtain ⟨x,-,hx⟩ := Option.map_eq_some_iff.mp hs
    cases hx
    rfl
  | _ =>
    cases hs
    rfl

/-- A call writes only into the slots that it is paid with. -/
theorem writes_used {i : ℕ} (hwrite : s.writeFits op = true) (hr : Custody.rule op r used made)
    (hi : op.Writes i) : ∃ x ∈ used, x.isLeaving = false ∧ x.offset ≤ i ∧
      i < x.offset + s.allocator.slotSize := by
  cases op with
  | pwrite offset data size =>
    obtain ⟨n,rfl,-⟩ := hr
    have hle : size ≤ s.allocator.slotSize := of_decide_eq_true hwrite
    simp only [StoreCall.Writes] at hi
    exact ⟨.blank offset n,by simp,rfl,hi.1,by simp only [Holding.offset]; omega⟩
  | uringWrite offset data size =>
    obtain ⟨n,rfl,-⟩ := hr
    have hle : size ≤ s.allocator.slotSize := of_decide_eq_true hwrite
    simp only [StoreCall.Writes] at hi
    exact ⟨.blank offset n,by simp,rfl,hi.1,by simp only [Holding.offset]; omega⟩
  | _ => cases hi

namespace Books

theorem record_mem {key : Key} {rec : StoreKeyRecord} (h : Books s held lost)
    (hrec : s.index.find key = some rec) : rec.offset ∈ s.allocator.handedOut := by
  have hmem := StoreMetaIndex.mem_offsets hrec
  rw [← h.balance]
  simp [hmem]

theorem record_allocSize {key : Key} {rec : StoreKeyRecord} (h : Books s held lost)
    (hrec : s.index.find key = some rec) : rec.allocSize = s.allocator.slotSize :=
  h.recordSize rec.timeless (StoreMetaIndex.mem_extents.mpr ⟨key,rec,hrec,rfl⟩)

theorem initialized_of_record {key : Key} {rec : StoreKeyRecord} (h : Books s held lost)
    (hrec : s.index.find key = some rec) : s.allocator.initialized = true := by
  obtain ⟨slot,hlt,-⟩ := SlotAllocator.mem_handedOut.mp (h.record_mem hrec)
  exact h.wf.initialized_of_next_pos (by omega)

/-- The slot of a record is not held by a thread. -/
theorem apart_held {key : Key} {rec : StoreKeyRecord} {x : Holding} (h : Books s held lost)
    (hrec : s.index.find key = some rec) (hx : x ∈ held) :
    rec.offset + s.allocator.slotSize ≤ x.offset ∨ x.offset + s.allocator.slotSize ≤ rec.offset := by
  have hne : rec.offset ≠ x.offset := by
    intro heq
    have hown := (Multiset.nodup_add.mp (Multiset.nodup_add.mp h.nodup).1).1
    have hdisjoint := (Multiset.nodup_add.mp hown).2.2
    have hleft : rec.offset ∈ s.index.offsets + s.pending.offsets :=
      Multiset.mem_add.mpr (.inl (StoreMetaIndex.mem_offsets hrec))
    apply Multiset.disjoint_left.mp hdisjoint hleft
    rw [heq]
    exact Multiset.mem_map_of_mem Holding.offset hx
  exact SlotAllocator.apart_of_ne (h.record_mem hrec) (h.mem_handedOut hx) hne

/-- Two records do not share a slot. -/
theorem apart_records {key key' : Key} {rec rec' : StoreKeyRecord} (h : Books s held lost)
    (hne : key ≠ key') (hrec : s.index.find key = some rec) (hrec' : s.index.find key' = some rec') :
    rec.offset + s.allocator.slotSize ≤ rec'.offset ∨
      rec'.offset + s.allocator.slotSize ≤ rec.offset := by
  have hoff : rec.offset ≠ rec'.offset := by
    intro heq
    have hnodup : s.index.offsets.Nodup := by
      have hown := (Multiset.nodup_add.mp (Multiset.nodup_add.mp h.nodup).1).1
      exact (Multiset.nodup_add.mp (Multiset.nodup_add.mp hown).1).1
    have hother : (s.index.remove key).2.find key' = some rec' := by
      rw [StoreMetaIndex.find_remove, if_neg hne.symm]
      exact hrec'
    rw [StoreMetaIndex.offsets, StoreMetaIndex.extents_remove_of_some hrec, Multiset.map_add,
      Multiset.map_singleton, Multiset.singleton_add, Multiset.nodup_cons] at hnodup
    apply hnodup.1
    rw [StoreKeyRecord.timeless, heq]
    exact StoreMetaIndex.mem_offsets hother
  exact SlotAllocator.apart_of_ne (h.record_mem hrec) (h.record_mem hrec') hoff

end Books

theorem Fitting.size_le {key : Key} {rec : StoreKeyRecord} (h : Fitting s held)
    (hrec : s.index.find key = some rec) : rec.size ≤ rec.allocSize :=
  h.records rec.timeless (StoreMetaIndex.mem_extents.mpr ⟨key,rec,hrec,rfl⟩)

/-- The call changes no byte of a value in the index. -/
def sparesLive (s : Store) (op : StoreCall) : Prop :=
  ∀ (c : StoreChoice) r s', s.step op c = some (r,s') →
    ∀ key rec, s.index.find key = some rec → ∀ i < rec.size, s'.file (rec.offset + i) =
      s.file (rec.offset + i)

theorem Tidy.sparesLive (h : Tidy s (used + rest)) (hwrite : s.writeFits op = true)
    (hr : Custody.rule op r used made) : s.sparesLive op := by
  obtain ⟨⟨lost,hbooks⟩,hfit⟩ := h
  intro c r' s' hs key rec hrec i hi
  apply file_step hs
  intro hw
  obtain ⟨x,hx,-,hlo,hhi⟩ := writes_used hwrite hr hw
  have hapart := hbooks.apart_held hrec (Multiset.mem_add.mpr (.inl hx))
  have hsize := hfit.size_le hrec
  have hslot := hbooks.record_allocSize hrec
  omega

/-- No write leaves its slot: the sizes of the batch fit, or the value at hand does. -/
abbrev writesInSlot : SerialCondition := orElse (fun s op => op.SizesFit s) writeFits

/-- An operation that runs alone makes all its calls as `wellSized` asks. -/
theorem exec_wellSized {op : StoreOp} {reply : StoreReply} (hsound : s.index.Sound)
    (he : Exec storeMachine (writesInSlot op s) (op.run cfg) s reply s') :
    Exec storeMachine (fun t call => t.wellSized call = true) (op.run cfg) s reply s' := by
  apply (he.of_wp (StoreOps.solo_run op hsound)).1.ok_mono
  rintro t call ⟨⟨hcurrent,-,hfits⟩,hcond⟩
  exact Bool.and_eq_true_iff.mpr ⟨hcurrent,hcond.elim hfits id⟩

theorem Tidy.sound (h : Tidy s held) : s.index.Sound := by
  obtain ⟨⟨lost,hbooks⟩,-⟩ := h
  exact hbooks.sound

theorem tidy_of_serialRun (hcap : cfg.capacityBytes < 2^63) (h : SerialRun cfg writesInSlot s) :
    Tidy s 0 := by
  induction h with
  | refl => exact ⟨⟨0,books_init hcap⟩,fitting_init⟩
  | tail _ hstep ih =>
    obtain ⟨op,reply,he⟩ := hstep
    have hdischarge : Discharges (op.run cfg) 0 := StoreOps.discharges_run op
    obtain ⟨g,rfl,htidy⟩ := exec_uses keeps_tidy hdischarge ih
      (exec_wellSized ih.sound he)
    exact htidy

end Store

/-- Every value lies in a slot of its own. -/
structure ExtentsSafe (s : Store) : Prop where
  size_le : ∀ {key rec}, s.index.find key = some rec → rec.size ≤ rec.allocSize
  ownSlot : ∀ {key rec}, s.index.find key = some rec → ∃ slot < s.allocator.totalSlots,
    rec.offset = slot * s.allocator.slotSize ∧
      rec.offset + rec.size ≤ (slot + 1) * s.allocator.slotSize
  below : ∀ {key rec}, s.index.find key = some rec →
    rec.offset + rec.size ≤ s.allocator.totalBytes
  disjoint : ∀ {key key' rec rec'}, key ≠ key' → s.index.find key = some rec →
    s.index.find key' = some rec' → rec.offset ≠ rec'.offset ∧
      (rec.offset + rec.size ≤ rec'.offset ∨ rec'.offset + rec'.size ≤ rec.offset)

theorem extentsSafe_of_tidy {s : Store} {held : Multiset Holding} (h : s.Tidy held) :
    ExtentsSafe s := by
  obtain ⟨⟨lost,hbooks⟩,hfit⟩ := h
  have hslot : ∀ {key rec}, s.index.find key = some rec → ∃ slot < s.allocator.totalSlots,
      rec.offset = slot * s.allocator.slotSize ∧
        rec.offset + rec.size ≤ (slot + 1) * s.allocator.slotSize := by
    intro key rec hrec
    obtain ⟨slot,hlt,heq⟩ := SlotAllocator.mem_handedOut.mp (hbooks.record_mem hrec)
    have hsize := hfit.size_le hrec
    have halloc := hbooks.record_allocSize hrec
    refine ⟨slot,hlt.trans_le hbooks.wf.next_le,heq.symm,?_⟩
    rw [Nat.succ_mul]
    omega
  constructor
  · exact fun hrec => hfit.size_le hrec
  · exact hslot
  · intro key rec hrec
    obtain ⟨slot,hlt,-,hend⟩ := hslot hrec
    rw [hbooks.wf.bytes (hbooks.initialized_of_record hrec)]
    exact hend.trans (Nat.mul_le_mul_right _ hlt)
  · intro key key' rec rec' hne hrec hrec'
    have hapart := hbooks.apart_records hne hrec hrec'
    have hsize := hfit.size_le hrec
    have hsize' := hfit.size_le hrec'
    have halloc := hbooks.record_allocSize hrec
    have halloc' := hbooks.record_allocSize hrec'
    have hpos := hbooks.wf.pos (hbooks.initialized_of_record hrec)
    exact ⟨by omega,by omega⟩

/-- In every state between operations the extents are safe, and whatever operation comes
next, none of its calls touches a value in the index. -/
theorem extentsSafe_of_serialRun {cfg : StoreConfig} {s : Store} (hcap : cfg.capacityBytes < 2^63)
    (h : SerialRun cfg Store.writesInSlot s) : ExtentsSafe s ∧
    ∀ (op : StoreOp) reply s', Exec storeMachine (Store.writesInSlot op s) (op.run cfg) s reply s' →
      Exec storeMachine Store.sparesLive (op.run cfg) s reply s' := by
  have htidy := Store.tidy_of_serialRun hcap h
  constructor
  · exact extentsSafe_of_tidy htidy
  · intro op reply s' he
    have hdischarge : Discharges (op.run cfg) 0 := StoreOps.discharges_run op
    apply exec_safe Store.keeps_tidy ?_ hdischarge htidy
    · exact Store.exec_wellSized htidy.sound he
    · intro t call r used made rest ht hok hr
      exact ht.sparesLive (Bool.and_eq_true_iff.mp hok).2 hr

open Release

/-- A batch whose second value is shorter, next to a key that is already there. -/
theorem extentsSafe_of_serialRun_batch : ∃ s, SerialRun twoSlots Store.writesInSlot s ∧
    ExtentsSafe s ∧ s.index.index.entries.map (fun e => (e.2.offset,e.2.size)) = [(8,5),(0,8)] := by
  obtain ⟨s,hrun,hs⟩ := Store.serialRun_of_script twoSlots Store.writeFits
    (undisturbed [.batchPut ["a","b"] [value 1,value 2] [8,5]])
    (f := fun s => s.index.index.entries.map fun e => (e.2.offset,e.2.size))
    (v := [(8,5),(0,8)]) rfl
  have hfits : SerialRun twoSlots Store.writesInSlot s :=
    Store.serialRun_mono (fun _ _ _ _ => .inr) hrun
  exact ⟨s,hfits,(extentsSafe_of_serialRun (by decide) hfits).1,hs⟩

/-- The allocator accepts the size of the first key, and the second value is written over the
end of its slot. -/
theorem exists_serialRun_not_extentsSafe : ∃ s, SerialRun twoSlots (fun _ _ _ _ => True) s ∧
    (s.index.find "b").map (fun rec => (rec.size,rec.allocSize)) = some (16,8) ∧
    ¬ ExtentsSafe s := by
  obtain ⟨s,hrun,hs⟩ := Store.serialRun_of_script twoSlots (fun _ _ => true)
    (undisturbed [.batchPut ["a","b"] [value 1,value 2] [8,16]])
    (f := fun s => (s.index.find "b").map fun rec => (rec.size,rec.allocSize))
    (v := some (16,8)) rfl
  refine ⟨s,Store.serialRun_mono (fun _ _ _ _ _ => trivial) hrun,hs,?_⟩
  intro hsafe
  obtain ⟨rec,hrec,hsize⟩ := Option.map_eq_some_iff.mp hs
  obtain ⟨hsize,halloc⟩ := Prod.mk.inj hsize
  have hle := hsafe.size_le hrec
  omega

end FalconKV
