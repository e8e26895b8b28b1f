import FalconKV.Common.SlotRequests
import FalconKV.Store.RejectedSizes

/-! # Slots granted one by one and together

An allocator that has room answers each request by its size alone, and `BatchAlloc` hands out
the slots that the same number of requests would get.
-/
namespace FalconKV

namespace SlotAllocator
variable {a a' : SlotAllocator} {size n : ℕ}

structure Exact (a : SlotAllocator) : Prop where
  wf : a.WF
  used : a.usedSlots + a.freeStack.length = a.nextSlot

theorem Exact.grants {offs : Multiset ℕ} (h : a.Exact) (hg : a.Grants a' offs) :
    a'.Exact ∧ a'.usedSlots = a.usedSlots + offs.card := by
  have hcard := congrArg Multiset.card hg.books
  simp only [Multiset.card_add, card_spare, card_handedOut] at hcard
  have hused := h.used
  have hnext := hg.wf.next_le
  have hslots := hg.wf.slots_lt
  have hcount : a'.usedSlots = a.usedSlots + offs.card := by
    rw [hg.used, u32_of_lt (by omega)]
  exact ⟨⟨hg.wf,by omega⟩,hcount⟩

theorem Exact.lazyInit (h : a.Exact) (hs : a.initialized = true ∨ 0 < size) :
    (a.lazyInit size).Exact ∧ (a.lazyInit size).usedSlots = a.usedSlots := by
  have hg : a.Grants (a.lazyInit size) 0 := .after_lazyInit h.wf (.nothing (h.wf.lazyInit hs))
  obtain ⟨hexact,hused⟩ := h.grants hg
  exact ⟨hexact,by simpa using hused⟩

theorem alloc_lazyInit (hs : 0 < size) : a.alloc size = (a.lazyInit size).alloc size := by
  have hne : (size == 0) = false := by simpa using hs.ne'
  simp [alloc, hne, lazyInit_of_initialized size (a.lazyInit_initialized size)]

/-- The first size that an allocator sees is accepted. -/
theorem initialized_of_rejected (h : (a.lazyInit size).sizeOk size = false) :
    a.initialized = true := by
  by_contra hno
  have hno : a.initialized = false := by simpa using hno
  simp [SlotAllocator.lazyInit, hno, SlotAllocator.sizeOk] at h

/-- An accepted size gets the next slot. -/
theorem Exact.alloc (h : a.Exact) (hi : a.initialized = true) (hok : a.sizeOk size = true)
    (hroom : 0 < a.available) : ∃ (o : ℕ) (a' : SlotAllocator),
      a.alloc size = (⟨o,a.slotSize⟩,a') ∧ a'.Exact ∧ a.SameShape a' ∧
      a'.available + 1 = a.available ∧ a'.usedSlots = a.usedSlots + 1 := by
  cases hf : a.freeStack with
  | cons slot rest =>
    have hlt : slot < a.totalSlots := h.wf.stack_lt slot (by simp [hf])
    have hg := Grants.pop h.wf hi hf
    obtain ⟨hexact,hused⟩ := h.grants hg
    refine ⟨slot * a.slotSize,_,?_,hexact,⟨rfl,rfl,rfl,rfl,rfl⟩,?_,by simpa using hused⟩
    · simp [SlotAllocator.alloc, hi, lazyInit_of_initialized size hi, hok, hf, h.wf.offsetOf_eq hlt]
    · simp only [available, hf, List.length_cons]
      omega
  | nil =>
    have hlt : a.nextSlot < a.totalSlots := by
      simp only [available, hf, List.length_nil] at hroom
      omega
    have hg := Grants.bump h.wf hi hlt
    obtain ⟨hexact,hused⟩ := h.grants hg
    refine ⟨a.nextSlot * a.slotSize,_,?_,hexact,⟨rfl,rfl,rfl,rfl,rfl⟩,?_,by simpa using hused⟩
    · simp [SlotAllocator.alloc, hi, lazyInit_of_initialized size hi, hok, hf, hlt,
        h.wf.offsetOf_eq hlt]
    · simp only [available]
      omega

theorem SameShape.sizeOk (h : a.SameShape a') : a'.sizeOk size = a.sizeOk size := by
  rw [SlotAllocator.sizeOk, SlotAllocator.sizeOk, h.autoDetected, h.slotSize]

def allocs (a : SlotAllocator) : List ℕ → List Allocated × SlotAllocator
  | [] => ([],a)
  | size :: sizes =>
    ((a.alloc size).1 :: ((a.alloc size).2.allocs sizes).1,((a.alloc size).2.allocs sizes).2)

structure Allots (a : SlotAllocator) (sizes : List ℕ) : Prop where
  exact : (a.allocs sizes).2.Exact
  shape : a.SameShape (a.allocs sizes).2
  used : (a.allocs sizes).2.usedSlots = a.usedSlots + sizes.countP a.sizeOk
  answers : (a.allocs sizes).1.map (fun r => decide (0 ≤ r.offset)) = sizes.map a.sizeOk
  slots : ∀ r ∈ (a.allocs sizes).1, 0 ≤ r.offset → r.allocSize = a.slotSize

theorem Exact.allots {sizes : List ℕ} (h : a.Exact) (hi : a.initialized = true)
    (hroom : sizes.length ≤ a.available) : a.Allots sizes := by
  induction sizes generalizing a with
  | nil => exact ⟨h,.refl a,rfl,rfl,by simp [allocs]⟩
  | cons size sizes ih =>
    rw [List.length_cons] at hroom
    cases hok : a.sizeOk size with
    | true =>
      obtain ⟨o,a₁,he,h₁,hshape,havail,hused⟩ := h.alloc hi hok (by omega)
      obtain ⟨hexact,hshape',hused',hanswers,hslots⟩ := ih h₁ (hshape.initialized.trans hi) (by omega)
      have hsame : a₁.sizeOk = a.sizeOk := funext fun _ => hshape.sizeOk
      rw [hsame] at hused' hanswers
      rw [hshape.slotSize] at hslots
      refine ⟨?_,?_,?_,?_,?_⟩ <;> simp only [allocs, he]
      · exact hexact
      · exact hshape.trans hshape'
      · rw [hused', hused, List.countP_cons_of_pos hok]
        omega
      · simp [hanswers, hok]
      · exact List.forall_mem_cons.mpr ⟨fun _ => rfl,hslots⟩
    | false =>
      have he : a.alloc size = (⟨-1,0⟩,a) := Rejects.alloc (.inr ⟨hi,hok⟩)
      obtain ⟨hexact,hshape,hused,hanswers,hslots⟩ := ih h hi (by omega)
      refine ⟨?_,?_,?_,?_,?_⟩ <;> simp only [allocs, he]
      · exact hexact
      · exact hshape
      · rw [hused, List.countP_cons_of_neg (by simp [hok])]
      · simp [hanswers, hok]
      · exact List.forall_mem_cons.mpr ⟨fun h => by simp at h,hslots⟩

end SlotAllocator

end FalconKV
