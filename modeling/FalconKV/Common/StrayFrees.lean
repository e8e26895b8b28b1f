import FalconKV.Common.SlotRequests

/-! # Offsets that `Free` is given

`Free` looks at the offset alone: it turns away what cannot be a slot of the file, and has no
record of which slots are outstanding. Callers that only free what they hold, or what is turned
away, keep the count of used slots exact and never see a slot twice.
-/
namespace FalconKV

namespace SlotAllocator
variable {a a' : SlotAllocator} {size slot totalBytes slotSize : ℕ} {offset : ℤ}
  {slots : Multiset ℕ} {outstanding : Multiset ℤ}

/-- What the checks of `Free` turn away; its slot number is only as wide as an index. -/
def Refused (a : SlotAllocator) (offset : ℤ) : Prop :=
  offset < 0 ∨ a.initialized = false ∨ offset.toNat % a.slotSize ≠ 0 ∨
    (a.totalSlots ≤ offset.toNat / a.slotSize ∧ offset.toNat / a.slotSize < 2^32)

theorem free_of_refused (h : a.Refused offset) (allocSize : ℕ) : a.free offset allocSize = a := by
  unfold free
  rcases h with hneg | hno | halign | ⟨hrange,hwidth⟩
  · rw [if_pos hneg]
  · simp [hno]
  · simp [halign]
  · simp [u32_of_lt hwidth, hrange]

structure Lent (a : SlotAllocator) (slots : Multiset ℕ) : Prop where
  slotted : a.Slotted
  books : (a.freeStack : Multiset ℕ) + slots = Multiset.range a.nextSlot
  used : a.usedSlots = slots.card

theorem lent_create (totalBytes : ℕ) (hs : slotSize < 2^32) : (create totalBytes slotSize).Lent 0 := by
  refine ⟨slotted_create totalBytes hs,?_,?_⟩ <;>
  · unfold create
    split <;> rfl

theorem Lent.card_le (h : a.Lent slots) : slots.card ≤ a.nextSlot := by
  have hcard := congrArg Multiset.card h.books
  rw [Multiset.card_add, Multiset.card_range] at hcard
  omega

theorem Lent.lt_nextSlot (h : a.Lent slots) (hslot : slot ∈ slots) : slot < a.nextSlot := by
  rw [← Multiset.mem_range, ← h.books]
  exact Multiset.mem_add.mpr (.inr hslot)

theorem Lent.nodup (h : a.Lent slots) : slots.Nodup := by
  apply Multiset.nodup_of_le _ (Multiset.nodup_range a.nextSlot)
  rw [← h.books]
  exact Multiset.le_add_left _ _

/-- Nothing is out of an allocator that is not initialised. -/
theorem Lent.eq_zero (h : a.Lent slots) (hi : a.initialized = false) : slots = 0 := by
  have hcard := h.card_le
  rw [(h.slotted.blank hi).2.1] at hcard
  exact Multiset.card_eq_zero.mp (by omega)

theorem Lent.lazyInit (h : a.Lent slots) (hsize : size < 2^32) (hstart : a.initialized = true ∨ 0 < size) :
    (a.lazyInit size).Lent slots := by
  have hslotted := h.slotted.lazyInit hsize hstart
  cases hi : a.initialized with
  | true =>
    rw [lazyInit_of_initialized size hi]
    exact h
  | false =>
    obtain ⟨hstack,hnext,hused⟩ := h.slotted.blank hi
    obtain rfl := h.eq_zero hi
    simp only [SlotAllocator.lazyInit, hi, Bool.false_eq_true, if_false] at hslotted ⊢
    exact ⟨hslotted,by simp [hstack],hused⟩

theorem Lent.takes (h : a.Lent slots) (hi : a.initialized = true) (ht : a.Takes slot a') :
    a'.Lent (slots + {slot}) := by
  obtain ⟨hslotted,-⟩ := h.slotted.takes hi ht
  have hbooks : (a'.freeStack : Multiset ℕ) + (slots + {slot}) = Multiset.range a'.nextSlot := by
    have hold := h.books
    cases ht with
    | pop hf =>
      rw [hf, ← Multiset.cons_coe, Multiset.cons_add] at hold
      rw [← add_assoc, add_comm, Multiset.singleton_add]
      exact hold
    | bump hempty _ =>
      rw [hempty, Multiset.coe_nil, zero_add] at hold
      rw [hempty, Multiset.coe_nil, zero_add, Multiset.range_succ, hold, add_comm,
        Multiset.singleton_add]
  have hcard := congrArg Multiset.card hbooks
  rw [Multiset.card_add, Multiset.card_add, Multiset.card_singleton, Multiset.card_range] at hcard
  have hnext := hslotted.next_le
  have hwidth := hslotted.slots_lt
  have hused := h.used
  refine ⟨hslotted,hbooks,?_⟩
  have hcount : a'.usedSlots = u32 (a.usedSlots + 1) := by cases ht <;> rfl
  rw [hcount, hused, u32_of_lt (by omega), Multiset.card_add, Multiset.card_singleton]

theorem Lent.takeSlots (h : a.Lent slots) (hsize : size < 2^32) (n : ℕ) :
    (a.takeSlots size n).2.Lent (slots + ((a.takeSlots size n).1 : Multiset ℕ)) := by
  have hnone : a.Lent (slots + (([] : List ℕ) : Multiset ℕ)) := by simpa using h
  apply takeSlots_induction (motive := fun a taken => a.Lent (slots + (taken : Multiset ℕ))) size n []
    _ _ hnone
  · intro a taken hlent hstart
    exact hlent.lazyInit hsize hstart
  · intro a taken slot a' hlent hi ht
    have hnext := hlent.takes hi ht
    rw [add_assoc, ← Multiset.coe_singleton, Multiset.coe_add] at hnext
    exact hnext

/-- Different slots have different offsets, wherever they wrap. -/
theorem Slotted.offsetOf_inj (h : a.Slotted) {i j : ℕ} (hi : i < a.totalSlots) (hj : j < a.totalSlots)
    (hpos : 0 < a.slotSize) (heq : a.offsetOf i = a.offsetOf j) : i = j := by
  have hslots := h.slots_lt
  have hsize := h.size_lt
  have hprod : ∀ k < a.totalSlots, k * a.slotSize < 2^64 := by
    intro k hk
    have hle : k * a.slotSize ≤ (2^32 - 1) * (2^32 - 1) := Nat.mul_le_mul (by omega) (by omega)
    omega
  have hi64 := hprod i hi
  have hj64 := hprod j hj
  have hsame : i * a.slotSize = j * a.slotSize := by
    simp only [offsetOf, int64] at heq
    split at heq <;> split at heq <;> omega
  exact Nat.eq_of_mul_eq_mul_right hpos hsame

/-- A slot that is out goes back on the stack. -/
theorem Lent.free (h : a.Lent (slot ::ₘ slots)) (hoffset : 0 ≤ a.offsetOf slot) (allocSize : ℕ) :
    (a.free (a.offsetOf slot) allocSize).Lent slots ∧
      (a.free (a.offsetOf slot) allocSize).slotSize = a.slotSize := by
  have hslot := (h.lt_nextSlot (Multiset.mem_cons_self slot slots)).trans_le h.slotted.next_le
  have hinit : a.initialized = true := by
    by_contra hno
    have hnone := h.eq_zero (by simpa using hno)
    exact Multiset.cons_ne_zero hnone
  have hpos := h.slotted.pos hinit
  have hsmall : a.offsetOf slot = (slot * a.slotSize : ℕ) := by
    have hslots := h.slotted.slots_lt
    have hsize := h.slotted.size_lt
    have hle : slot * a.slotSize ≤ (2^32 - 1) * (2^32 - 1) := Nat.mul_le_mul (by omega) (by omega)
    simp only [offsetOf, int64] at hoffset ⊢
    split at hoffset <;> split <;> omega
  have hfree : a.free (a.offsetOf slot) allocSize =
      { a with freeStack := slot :: a.freeStack, usedSlots := predU32 a.usedSlots } := by
    have hneg : ¬ ((slot * a.slotSize : ℕ) : ℤ) < 0 := by omega
    have hindex : u32 (slot * a.slotSize / a.slotSize) = slot := by
      rw [Nat.mul_div_cancel _ hpos]
      exact u32_of_lt (hslot.trans h.slotted.slots_lt)
    rw [hsmall]
    simp only [SlotAllocator.free, if_neg hneg, Int.toNat_natCast, hinit, hindex, Nat.mul_mod_left]
    simp [hslot]
  have hslotted := h.slotted.free (a.offsetOf slot) allocSize
  have hbooks := h.books
  have hused := h.used
  rw [hfree] at hslotted ⊢
  refine ⟨⟨hslotted,?_,?_⟩,rfl⟩
  · rw [← hbooks, ← Multiset.cons_coe, Multiset.cons_add, Multiset.add_cons]
  · rw [Multiset.card_cons] at hused
    have hpred := predU32_add_one (n := a.usedSlots) (by omega)
    dsimp only
    omega

/-- An allocator with the offsets that its callers hold, if they only give `Free` those or what
it turns away. -/
inductive Held (totalBytes slotSize : ℕ) : SlotAllocator → Multiset ℤ → Prop
  | create : Held totalBytes slotSize (create totalBytes slotSize) 0
  | alloc {a : SlotAllocator} {outstanding : Multiset ℤ} (h : Held totalBytes slotSize a outstanding)
      (size : ℕ) (hsize : size < 2^32) : Held totalBytes slotSize (a.alloc size).2
        (outstanding + (granted (a.alloc size).1.offset : Multiset ℤ))
  | batchAlloc {a : SlotAllocator} {outstanding : Multiset ℤ}
      (h : Held totalBytes slotSize a outstanding) (size count : ℕ) (hsize : size < 2^32) :
      Held totalBytes slotSize (a.batchAlloc size count).2
        (outstanding + ((a.batchAlloc size count).1.1 : Multiset ℤ))
  | returned {a : SlotAllocator} {outstanding : Multiset ℤ} (h : Held totalBytes slotSize a outstanding)
      {offset : ℤ} (hmem : offset ∈ outstanding) (hoffset : 0 ≤ offset) (allocSize : ℕ) :
      Held totalBytes slotSize (a.free offset allocSize) (outstanding.erase offset)
  | refused {a : SlotAllocator} {outstanding : Multiset ℤ} (h : Held totalBytes slotSize a outstanding)
      {offset : ℤ} (hrefused : a.Refused offset) (allocSize : ℕ) :
      Held totalBytes slotSize (a.free offset allocSize) outstanding

theorem Lent.map_offsetOf (h : a.Lent slots) {n : ℕ} :
    slots.map (a.takeSlots size n).2.offsetOf = slots.map a.offsetOf := by
  cases hi : a.initialized with
  | true =>
    apply Multiset.map_congr rfl
    intro slot _
    rw [offsetOf, offsetOf, takeSlots_slotSize hi]
  | false => rw [h.eq_zero hi, Multiset.map_zero, Multiset.map_zero]

theorem Held.lent (hs : slotSize < 2^32) (h : Held totalBytes slotSize a outstanding) :
    ∃ slots, a.Lent slots ∧ outstanding = slots.map a.offsetOf := by
  induction h with
  | create => exact ⟨0,lent_create totalBytes hs,rfl⟩
  | @alloc a outstanding _ size hsize ih =>
    obtain ⟨slots,hlent,rfl⟩ := ih
    obtain ⟨hoffset,hstate⟩ := hlent.slotted.alloc_eq_takeSlots hsize
    refine ⟨slots + ((a.takeSlots size 1).1 : Multiset ℕ),?_,?_⟩
    · rw [hstate]
      exact hlent.takeSlots hsize 1
    · rw [hstate, hoffset, Multiset.map_add, hlent.map_offsetOf, Multiset.map_coe]
  | @batchAlloc a outstanding _ size count hsize ih =>
    obtain ⟨slots,hlent,rfl⟩ := ih
    obtain ⟨hoffsets,hstate⟩ := batchAlloc_eq_takeSlots size count hlent.slotted.used_lt
    refine ⟨slots + ((a.takeSlots size count).1 : Multiset ℕ),?_,?_⟩
    · rw [hstate]
      exact hlent.takeSlots hsize count
    · rw [hstate, hoffsets, Multiset.map_add, hlent.map_offsetOf, Multiset.map_coe]
  | @returned a outstanding _ offset hmem hoffset allocSize ih =>
    obtain ⟨slots,hlent,rfl⟩ := ih
    obtain ⟨slot,hslot,rfl⟩ := Multiset.mem_map.mp hmem
    obtain ⟨rest,rfl⟩ := Multiset.exists_cons_of_mem hslot
    obtain ⟨hrest,hsize⟩ := hlent.free hoffset allocSize
    refine ⟨rest,hrest,?_⟩
    rw [Multiset.map_cons, Multiset.erase_cons_head]
    apply Multiset.map_congr rfl
    intro slot _
    rw [offsetOf, offsetOf, hsize]
  | @refused a outstanding _ offset hrefused allocSize ih =>
    rw [free_of_refused hrefused allocSize]
    exact ih

/-- What cannot be a slot of the file is ignored in every state. If nothing else but outstanding
offsets is freed, the count of used slots is that of the outstanding offsets, so it does not
wrap, and no slot is handed out while it is outstanding. -/
theorem free_ignores_refused (hs : slotSize < 2^32) (h : Held totalBytes slotSize a outstanding) :
    (∀ (b : SlotAllocator) (offset : ℤ) (allocSize : ℕ), b.Refused offset →
      b.free offset allocSize = b) ∧
    outstanding.Nodup ∧ a.usedSlots = outstanding.card ∧ a.usedSlots ≤ a.totalSlots ∧
    ∃ slots : Multiset ℕ, outstanding = slots.map a.offsetOf ∧
      (a.freeStack : Multiset ℕ) + slots = Multiset.range a.nextSlot := by
  obtain ⟨slots,hlent,rfl⟩ := h.lent hs
  have hinside : ∀ slot ∈ slots, slot < a.totalSlots :=
    fun slot hslot => (hlent.lt_nextSlot hslot).trans_le hlent.slotted.next_le
  have hcard := hlent.card_le
  have hnext := hlent.slotted.next_le
  have hused := hlent.used
  refine ⟨fun b offset allocSize hrefused => free_of_refused hrefused allocSize,?_,?_,by omega,
    slots,rfl,hlent.books⟩
  · apply Multiset.Nodup.map_on _ hlent.nodup
    intro i hi j hj heq
    have hinit : a.initialized = true := by
      by_contra hno
      rw [hlent.eq_zero (by simpa using hno)] at hi
      exact Multiset.notMem_zero i hi
    exact hlent.slotted.offsetOf_inj (hinside i hi) (hinside j hj) (hlent.slotted.pos hinit) heq
  · rw [Multiset.card_map]
    exact hused

/-- One slot is held, and an offset beyond the file and a misaligned one are freed. -/
theorem free_ignores_refused_beyond : ∃ a, Held 16 8 a {0} ∧ ({0} : Multiset ℤ).Nodup ∧
    a.usedSlots = ({0} : Multiset ℤ).card ∧ a.usedSlots ≤ a.totalSlots := by
  have hfirst : Held 16 8 _ {0} := .alloc .create 8 (by decide)
  have hbeyond : Refused ((create 16 8).alloc 8).2 16 := .inr (.inr (.inr (by decide)))
  have hmisaligned : Refused (((create 16 8).alloc 8).2.free 16 8) 3 := .inr (.inr (.inl (by decide)))
  have hheld := (hfirst.refused hbeyond 8).refused hmisaligned 8
  obtain ⟨-,hnodup,hused,hle,-⟩ := free_ignores_refused (by decide) hheld
  exact ⟨_,hheld,hnodup,hused,hle⟩

/-- A slot that is freed twice is on the stack twice: the count of used slots wraps, and two
requests get the same offset. -/
theorem exists_held_freed_twice : ∃ a, Held 16 8 a 0 ∧ (0 : ℤ) ∉ (0 : Multiset ℤ) ∧
    a.usedSlots = 0 ∧ (a.free 0 8).usedSlots = 2^32 - 1 ∧
    ((a.free 0 8).alloc 8).1.offset = 0 ∧ (((a.free 0 8).alloc 8).2.alloc 8).1.offset = 0 := by
  have hfirst : Held 16 8 _ {0} := .alloc .create 8 (by decide)
  have hheld := hfirst.returned (Multiset.mem_singleton_self 0) le_rfl 8
  exact ⟨_,hheld,by simp,by decide,by decide,by decide,by decide⟩

end SlotAllocator

end FalconKV
