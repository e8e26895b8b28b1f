import Mathlib.Logic.Relation
import FalconKV.Common.SlotAllocator

/-! # Runs of the slot allocator

Any sequence of `Alloc`, `BatchAlloc` and `Free` in which a caller only frees what is
outstanding. Outstanding slots and the free stack then partition the slots below the
bump pointer, and the counter of used slots is exact.
-/
namespace FalconKV

/-- An allocation of an admissible size fails when the stack and the rest of the file are
both used up. -/
theorem SlotAllocator.alloc_fails_iff {a : SlotAllocator} {size : ℕ} (h : a.WF)
    (hinit : a.initialized = true ∨ 0 < size) (hok : (a.lazyInit size).sizeOk size = true) :
    (a.alloc size).1.offset < 0 ↔
      (a.lazyInit size).freeStack = [] ∧ (a.lazyInit size).totalSlots ≤ (a.lazyInit size).nextSlot := by
  have hw := h.lazyInit hinit
  have hz := not_deferred hinit
  have hok' : (!(a.lazyInit size).sizeOk size) = false := by simp [hok]
  simp only [alloc, hz, hok', Bool.false_eq_true, ↓reduceIte]
  split
  · next slot rest hf =>
    rw [hw.offsetOf_eq (hw.stack_lt slot (by simp [hf])), hf]
    refine iff_of_false ?_ (by simp)
    dsimp only
    omega
  · next hf =>
    split
    · next hn =>
      rw [hw.offsetOf_eq hn]
      simp only [hf, true_and]
      omega
    · next hn =>
      simp only [hf, true_and]
      omega

theorem SlotAllocator.alloc_totalSlots {a : SlotAllocator} {size : ℕ}
    (hinit : a.initialized = true ∨ 0 < size) :
    (a.alloc size).2.totalSlots = (a.lazyInit size).totalSlots := by
  have hz := not_deferred hinit
  simp only [alloc, hz, Bool.false_eq_true, ↓reduceIte]
  split
  · rfl
  · split
    · rfl
    · split <;> rfl

/-- An allocator next to the offsets that callers hold. -/
structure Lending where
  allocator : SlotAllocator
  outstanding : Multiset ℤ

namespace Lending
open SlotAllocator

def create (totalBytes slotSize : ℕ) : Lending := ⟨.create totalBytes slotSize,0⟩

def lent (r : Allocated) : Multiset ℤ := if r.offset < 0 then 0 else {r.offset}

inductive Step : Lending → Lending → Prop
  | alloc (x : Lending) (size : ℕ) : Step x
      ⟨(x.allocator.alloc size).2,x.outstanding + lent (x.allocator.alloc size).1⟩
  | batchAlloc (x : Lending) (size count : ℕ) : Step x
      ⟨(x.allocator.batchAlloc size count).2,
        x.outstanding + ((x.allocator.batchAlloc size count).1.1 : Multiset ℤ)⟩
  | free (x : Lending) {offset : ℤ} (allocSize : ℕ) (hout : offset ∈ x.outstanding) :
      Step x ⟨x.allocator.free offset allocSize,x.outstanding.erase offset⟩

structure Balanced (x : Lending) : Prop where
  wf : x.allocator.WF
  books : ∃ offs : Multiset ℕ, x.outstanding = offs.map (fun o : ℕ => (o : ℤ)) ∧
    x.allocator.handedOut = x.allocator.spare + offs ∧ x.allocator.usedSlots = offs.card

variable {x y : Lending}

theorem balanced_create {totalBytes : ℕ} (slotSize : ℕ) (h : totalBytes < 2^63) :
    (create totalBytes slotSize).Balanced := by
  refine ⟨wf_create h,0,rfl,by simp [create],?_⟩
  simp only [create, SlotAllocator.create]
  split <;> rfl

/-- What a grant does to the books, with the counter below its width. -/
theorem Balanced.grants {a : SlotAllocator} {offs : Multiset ℕ} (h : x.Balanced)
    (hg : Grants x.allocator a offs) :
    Balanced ⟨a,x.outstanding + offs.map (fun o : ℕ => (o : ℤ))⟩ := by
  obtain ⟨os,hout,hbooks,hused⟩ := h.books
  have hnew : a.handedOut = a.spare + (os + offs) := by
    have hg := hg.books
    rw [hbooks] at hg
    have hcancel : x.allocator.spare + a.handedOut = x.allocator.spare + (a.spare + (os + offs)) := by
      rw [add_comm, hg]
      abel
    exact add_left_cancel hcancel
  refine ⟨hg.wf,os + offs,?_,hnew,?_⟩
  · rw [Multiset.map_add, ← hout]
  · have hcard := congrArg Multiset.card hnew
    rw [card_handedOut, Multiset.card_add, card_spare, Multiset.card_add] at hcard
    have hnext := hg.wf.next_le
    have hslots := hg.wf.slots_lt
    have hsmall : os.card + offs.card < 2^32 := by omega
    rw [hg.used, hused, u32_of_lt hsmall, Multiset.card_add]

theorem Balanced.lazyInit (h : x.Balanced) (size : ℕ) (hinit : x.allocator.initialized = true ∨ 0 < size) :
    Balanced ⟨x.allocator.lazyInit size,x.outstanding⟩ := by
  obtain ⟨os,hout,hbooks,hused⟩ := h.books
  obtain ⟨hhanded,hspare,hcount⟩ := h.wf.lazyInit_books size
  exact ⟨h.wf.lazyInit hinit,os,hout,by rw [hhanded, hspare, hbooks],hcount.trans hused⟩

theorem Balanced.step (h : x.Balanced) (hs : Step x y) : y.Balanced := by
  cases hs with
  | alloc size =>
    rcases alloc_spec h.wf (Prod.mk.eta (p := x.allocator.alloc size)).symm with
      ⟨hneg,-,hg⟩ | ⟨o,ho,-,-,-,hg⟩
    · have hlent : lent (x.allocator.alloc size).1 = 0 := if_pos hneg
      rw [hlent]
      exact h.grants hg
    · have hlent : lent (x.allocator.alloc size).1 = {(o : ℤ)} := by
        rw [lent, if_neg (by omega), ho]
      rw [hlent]
      exact h.grants hg
  | batchAlloc size count =>
    obtain ⟨⟨⟨offs,n⟩,a⟩,he⟩ : ∃ r, x.allocator.batchAlloc size count = r := ⟨_,rfl⟩
    rw [he]
    rcases batchAlloc_spec h.wf he with ⟨rfl,hg⟩ | ⟨os,rfl,-,-,-,-,hg⟩
    · exact h.grants hg
    · exact h.grants hg
  | @free offset allocSize hmem =>
    obtain ⟨os,hout,hbooks,hused⟩ := h.books
    rw [hout] at hmem ⊢
    obtain ⟨o,ho,rfl⟩ := Multiset.mem_map.mp hmem
    obtain ⟨rest,rfl⟩ := Multiset.exists_cons_of_mem ho
    have hin : o ∈ x.allocator.handedOut := by
      rw [hbooks]
      exact Multiset.mem_add.mpr (.inr ho)
    rw [Multiset.card_cons] at hused
    obtain ⟨hwf,hhanded,hspare,hcount,-⟩ := free_spec allocSize h.wf hin (by omega)
    refine ⟨hwf,rest,?_,?_,?_⟩
    · rw [Multiset.map_cons, Multiset.erase_cons_head]
    · rw [hhanded, hspare, hbooks, ← Multiset.singleton_add]
      abel
    · dsimp only
      omega

theorem Balanced.run (h : x.Balanced) (hr : Relation.ReflTransGen Step x y) : y.Balanced := by
  induction hr with
  | refl => exact h
  | tail _ hs ih => exact ih.step hs

/-- The slots of the outstanding offsets. -/
theorem Balanced.slots (h : x.Balanced) : ∃ slots : Multiset ℕ,
    x.outstanding = slots.map (fun i => ((i * x.allocator.slotSize : ℕ) : ℤ)) ∧
    (x.allocator.freeStack : Multiset ℕ) + slots = Multiset.range x.allocator.nextSlot := by
  obtain ⟨offs,hout,hbooks,-⟩ := h.books
  cases hn : x.allocator.nextSlot with
  | zero =>
    have hcard := congrArg Multiset.card hbooks
    rw [card_handedOut, hn, Multiset.card_add, card_spare] at hcard
    have hnil : x.allocator.freeStack = [] := List.length_eq_zero_iff.mp (by omega)
    have hoffs : offs = 0 := Multiset.card_eq_zero.mp (by omega)
    exact ⟨0,by rw [hout, hoffs]; rfl,by rw [hnil]; rfl⟩
  | succ n =>
    have hpos := h.wf.pos (h.wf.initialized_of_next_pos (by omega))
    have hinj : Function.Injective (· * x.allocator.slotSize) :=
      fun i j hij => Nat.eq_of_mul_eq_mul_right hpos hij
    -- every outstanding offset starts a slot
    have hback : (offs.map (· / x.allocator.slotSize)).map (· * x.allocator.slotSize) = offs := by
      rw [Multiset.map_map]
      refine (Multiset.map_congr rfl fun o ho => ?_).trans (Multiset.map_id offs)
      have hin : o ∈ x.allocator.handedOut := by
        rw [hbooks]
        exact Multiset.mem_add.mpr (.inr ho)
      obtain ⟨i,-,rfl⟩ := mem_handedOut.mp hin
      simp [Nat.mul_div_cancel _ hpos]
    generalize offs.map (· / x.allocator.slotSize) = slots at hback
    subst hback
    refine ⟨slots,by rw [hout, Multiset.map_map]; rfl,?_⟩
    rw [handedOut, spare, ← Multiset.map_add] at hbooks
    rw [← hn]
    exact (Multiset.map_injective hinj hbooks).symm

theorem Balanced.nodup (h : x.Balanced) : x.outstanding.Nodup := by
  obtain ⟨offs,hout,hbooks,-⟩ := h.books
  have hnodup : offs.Nodup := by
    refine Multiset.nodup_of_le ?_ h.wf.nodup_handedOut
    rw [hbooks]
    exact Multiset.le_add_left _ _
  rw [hout]
  exact hnodup.map Nat.cast_injective

theorem Balanced.card (h : x.Balanced) : x.outstanding.card = x.allocator.usedSlots ∧
    x.allocator.freeStack.length + x.allocator.usedSlots = x.allocator.nextSlot := by
  obtain ⟨offs,hout,hbooks,hused⟩ := h.books
  have hcard := congrArg Multiset.card hbooks
  rw [card_handedOut, Multiset.card_add, card_spare] at hcard
  exact ⟨by rw [hout, Multiset.card_map, hused],by omega⟩

end Lending

/-- After any run, the outstanding offsets are different slots of the file, they and the
free stack are exactly the slots below the bump pointer, the counter of used slots is
exact, and an admissible request fails exactly when all slots are outstanding. -/
theorem balanced_of_runs {totalBytes slotSize : ℕ} {x : Lending} (hbytes : totalBytes < 2^63)
    (hrun : Relation.ReflTransGen Lending.Step (.create totalBytes slotSize) x) :
    x.outstanding.Nodup ∧
    (∃ slots : Multiset ℕ,
      x.outstanding = slots.map (fun i => ((i * x.allocator.slotSize : ℕ) : ℤ)) ∧
      (x.allocator.freeStack : Multiset ℕ) + slots = Multiset.range x.allocator.nextSlot) ∧
    (∀ offset ∈ x.outstanding, 0 ≤ offset ∧ (x.allocator.slotSize : ℤ) ∣ offset ∧
      offset < (x.allocator.totalSlots * x.allocator.slotSize : ℕ)) ∧
    x.allocator.usedSlots = x.outstanding.card ∧ x.allocator.usedSlots ≤ x.allocator.totalSlots ∧
    ∀ size, (x.allocator.initialized = true ∨ 0 < size) →
      (x.allocator.lazyInit size).sizeOk size = true →
      ((x.allocator.alloc size).1.offset < 0 ↔
        x.outstanding.card = (x.allocator.alloc size).2.totalSlots) := by
  have h := (Lending.balanced_create slotSize hbytes).run hrun
  obtain ⟨slots,hout,hslots⟩ := h.slots
  obtain ⟨hcard,hsum⟩ := h.card
  have hnext := h.wf.next_le
  refine ⟨h.nodup,⟨slots,hout,hslots⟩,?_,hcard.symm,by omega,?_⟩
  · intro offset hoffset
    rw [hout] at hoffset
    obtain ⟨i,hi,rfl⟩ := Multiset.mem_map.mp hoffset
    have hlt : i < x.allocator.nextSlot := by
      rw [← Multiset.mem_range, ← hslots]
      exact Multiset.mem_add.mpr (.inr hi)
    have hpos := h.wf.pos (h.wf.initialized_of_next_pos (by omega))
    have hbelow : i * x.allocator.slotSize < x.allocator.totalSlots * x.allocator.slotSize :=
      Nat.mul_lt_mul_of_pos_right (hlt.trans_le hnext) hpos
    exact ⟨Int.natCast_nonneg _,Int.natCast_dvd_natCast.mpr (Dvd.intro_left i rfl),
      Int.ofNat_lt.mpr hbelow⟩
  · intro size hinit hok
    rw [SlotAllocator.alloc_fails_iff h.wf hinit hok,
      SlotAllocator.alloc_totalSlots hinit, hcard]
    obtain ⟨-,-,hused⟩ := h.wf.lazyInit_books size
    have hw := h.wf.lazyInit hinit
    have hbooks := h.lazyInit size hinit
    obtain ⟨-,hsum⟩ := hbooks.card
    dsimp only at hsum
    rw [hused] at hsum
    have hnext := hw.next_le
    rw [← List.length_eq_zero_iff]
    omega

/-- A slot of 8 bytes that is freed and handed out again. -/
theorem balanced_of_runs_reused : ∃ x : Lending,
    Relation.ReflTransGen Lending.Step (.create 16 0) x ∧ x.outstanding = {0} ∧
      x.allocator.usedSlots ≤ x.allocator.totalSlots ∧
      ((x.allocator.alloc 8).1.offset < 0 ↔ x.outstanding.card = (x.allocator.alloc 8).2.totalSlots) := by
  have hfree : Lending.Step ⟨⟨8,2,1,16,1,true,true,[]⟩,{0}⟩ ⟨⟨8,2,0,16,1,true,true,[0]⟩,0⟩ :=
    .free ⟨⟨8,2,1,16,1,true,true,[]⟩,{0}⟩ 8 (Multiset.mem_singleton_self 0)
  have hrun : Relation.ReflTransGen Lending.Step (.create 16 0) ⟨⟨8,2,1,16,1,true,true,[]⟩,{0}⟩ :=
    .head (.alloc _ 8) (.head hfree (.single (.alloc _ 8)))
  obtain ⟨-,-,-,-,hle,hfails⟩ := balanced_of_runs (by decide) hrun
  exact ⟨_,hrun,rfl,hle,hfails 8 (.inl rfl) rfl⟩

end FalconKV
