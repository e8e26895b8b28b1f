import Mathlib.Data.Multiset.Range
import Mathlib.Algebra.Order.Group.Multiset
import Mathlib.Tactic.Abel
import FalconKV.Common.Status

/-! # The slot allocator of a store

One data file is cut into slots of one size. Slots that were freed are kept on a
stack and handed out first; the rest is handed out from a bump pointer. The size is
either configured or taken from the first request.
-/
namespace FalconKV

structure SlotAllocator where
  slotSize : ℕ
  totalSlots : ℕ
  usedSlots : ℕ
  totalBytes : ℕ
  nextSlot : ℕ
  initialized : Bool
  autoDetected : Bool
  freeStack : List ℕ
  deriving DecidableEq, Repr

/-- Answer of `alloc`: the byte offset, `-1` on failure, and `*out_alloc_size`. -/
structure Allocated where
  offset : ℤ
  allocSize : ℕ
  deriving DecidableEq, Repr

namespace SlotAllocator

def slotCount (totalBytes slotSize : ℕ) : ℕ :=
  if u32 (totalBytes / slotSize) = 0 then 1 else u32 (totalBytes / slotSize)

def create (totalBytes slotSize : ℕ) : SlotAllocator :=
  if 0 < slotSize then
    { slotSize := slotSize
      totalSlots := slotCount totalBytes slotSize
      usedSlots := 0
      totalBytes := slotCount totalBytes slotSize * slotSize
      nextSlot := 0
      initialized := true
      autoDetected := false
      freeStack := [] }
  else
    { slotSize := slotSize
      totalSlots := 0
      usedSlots := 0
      totalBytes := totalBytes
      nextSlot := 0
      initialized := false
      autoDetected := false
      freeStack := [] }

/-- Lazy initialisation: take the slot size from the first request. -/
def lazyInit (a : SlotAllocator) (size : ℕ) : SlotAllocator :=
  if a.initialized then a
  else
    { a with
      slotSize := size
      totalSlots := slotCount a.totalBytes size
      totalBytes := slotCount a.totalBytes size * size
      nextSlot := 0
      initialized := true
      autoDetected := true }

/-- The size check: exact when auto-detected, an upper bound when configured. -/
def sizeOk (a : SlotAllocator) (size : ℕ) : Bool :=
  if a.autoDetected then size == a.slotSize else decide (size ≤ a.slotSize)

def offsetOf (a : SlotAllocator) (slot : ℕ) : ℤ := int64 (slot * a.slotSize)

def alloc (a : SlotAllocator) (size : ℕ) : Allocated × SlotAllocator :=
  if !a.initialized && size == 0 then (⟨-1,0⟩,a)
  else
    let a := a.lazyInit size
    if !a.sizeOk size then (⟨-1,0⟩,a)
    else
      match a.freeStack with
      | slot :: rest =>
        (⟨a.offsetOf slot,a.slotSize⟩,{ a with freeStack := rest, usedSlots := u32 (a.usedSlots + 1) })
      | [] =>
        if a.nextSlot < a.totalSlots then
          (⟨a.offsetOf a.nextSlot,a.slotSize⟩,
            { a with nextSlot := a.nextSlot + 1, usedSlots := u32 (a.usedSlots + 1) })
        else (⟨-1,0⟩,a)

/-- Up to `count` slots in one critical section: first from the stack, then from
the bump pointer. The answer also has `*out_alloc_size`, unset on a rejected size. -/
def batchAlloc (a : SlotAllocator) (size count : ℕ) : (List ℤ × ℕ) × SlotAllocator :=
  if count = 0 then (([],0),a)
  else if !a.initialized && size == 0 then (([],0),a)
  else
    let a := a.lazyInit size
    if !a.sizeOk size then (([],0),a)
    else
      let reused := a.freeStack.take count
      let fresh := List.range' a.nextSlot (min (count - reused.length) (a.totalSlots - a.nextSlot))
      (((reused ++ fresh).map a.offsetOf,a.slotSize),
        { a with
          freeStack := a.freeStack.drop count
          nextSlot := a.nextSlot + fresh.length
          usedSlots := u32 (a.usedSlots + (reused ++ fresh).length) })

def free (a : SlotAllocator) (offset : ℤ) (_allocSize : ℕ) : SlotAllocator :=
  if offset < 0 then a
  else if !a.initialized then a
  else if offset.toNat % a.slotSize ≠ 0 then a
  else
    let slot := u32 (offset.toNat / a.slotSize)
    if a.totalSlots ≤ slot then a
    else { a with freeStack := slot :: a.freeStack, usedSlots := predU32 a.usedSlots }

def getTotalBytes (a : SlotAllocator) : ℕ := a.totalBytes

/-- A request that is not turned away before the allocator is initialised. -/
theorem not_deferred {a : SlotAllocator} {size : ℕ} (h : a.initialized = true ∨ 0 < size) :
    (!a.initialized && size == 0) = false := by
  rcases h with hi | hs
  · simp [hi]
  · simp [hs.ne']

theorem initialized_or_pos {a : SlotAllocator} {size : ℕ} (h : ¬(!a.initialized && size == 0) = true) :
    a.initialized = true ∨ 0 < size := by
  cases hi : a.initialized with
  | true => exact .inl rfl
  | false =>
    right
    simp only [hi, Bool.not_false, Bool.true_and, beq_iff_eq] at h
    omega

/-- A slot that is given back changes the stack and the counter. -/
theorem free_frame (a : SlotAllocator) (offset : ℤ) (allocSize : ℕ) :
    a.free offset allocSize = { a with
      freeStack := (a.free offset allocSize).freeStack
      usedSlots := (a.free offset allocSize).usedSlots } := by
  unfold free
  split
  · rfl
  · split
    · rfl
    · split
      · rfl
      · dsimp only
        split <;> rfl

/-- The offsets below the bump pointer; `spare` are those of them that are on the stack. Allocation and
release are described by these two multisets. -/
def handedOut (a : SlotAllocator) : Multiset ℕ := (Multiset.range a.nextSlot).map (· * a.slotSize)
def spare (a : SlotAllocator) : Multiset ℕ := (a.freeStack : Multiset ℕ).map (· * a.slotSize)

structure WF (a : SlotAllocator) : Prop where
  next_le : a.nextSlot ≤ a.totalSlots
  slots_lt : a.totalSlots < 2^32
  used_lt : a.usedSlots < 2^32
  stack_lt : ∀ i ∈ a.freeStack, i < a.totalSlots
  pos : a.initialized = true → 0 < a.slotSize
  bytes : a.initialized = true → a.totalBytes = a.totalSlots * a.slotSize
  range : ∀ i < a.totalSlots, i * a.slotSize < 2^63
  capacity : a.initialized = false → a.totalBytes < 2^63
  empty : a.initialized = false →
    a.nextSlot = 0 ∧ a.usedSlots = 0 ∧ a.freeStack = [] ∧ a.totalSlots = 0

variable {a a' : SlotAllocator}

theorem slotCount_pos (totalBytes slotSize : ℕ) : 0 < slotCount totalBytes slotSize := by
  unfold slotCount
  split <;> omega

theorem slotCount_lt (totalBytes slotSize : ℕ) : slotCount totalBytes slotSize < 2^32 := by
  have h := u32_lt (totalBytes / slotSize)
  unfold slotCount
  split <;> omega

/-- No slot of the file starts beyond a signed 64-bit offset. -/
theorem slotCount_range {totalBytes slotSize i : ℕ} (h : totalBytes < 2^63)
    (hi : i < slotCount totalBytes slotSize) : i * slotSize < 2^63 := by
  unfold slotCount at hi
  split at hi
  · obtain rfl : i = 0 := by omega
    omega
  · have hq := u32_le (totalBytes / slotSize)
    have hm : i * slotSize ≤ totalBytes / slotSize * slotSize := Nat.mul_le_mul_right _ (by omega)
    have hd := Nat.div_mul_le_self totalBytes slotSize
    omega

theorem wf_create {totalBytes slotSize : ℕ} (h : totalBytes < 2^63) :
    (create totalBytes slotSize).WF := by
  unfold create
  split
  · next hs =>
    exact ⟨by simp,slotCount_lt _ _,by simp,by simp,fun _ => hs,fun _ => rfl,
      fun i hi => slotCount_range h hi,by simp,by simp⟩
  · exact ⟨by simp,by simp,by simp,by simp,by simp,by simp,by simp,fun _ => h,by simp⟩

@[simp] theorem handedOut_create (totalBytes slotSize : ℕ) :
    (create totalBytes slotSize).handedOut = 0 := by
  unfold create
  split <;> rfl

@[simp] theorem spare_create (totalBytes slotSize : ℕ) :
    (create totalBytes slotSize).spare = 0 := by
  unfold create
  split <;> rfl

@[simp] theorem lazyInit_initialized (size : ℕ) : (a.lazyInit size).initialized = true := by
  unfold lazyInit
  split
  · assumption
  · rfl

theorem lazyInit_of_initialized (size : ℕ) (h : a.initialized = true) : a.lazyInit size = a := by
  simp [lazyInit, h]

theorem WF.lazyInit {size : ℕ} (h : a.WF) (hs : a.initialized = true ∨ 0 < size) :
    (a.lazyInit size).WF := by
  cases hi : a.initialized with
  | true => rwa [lazyInit_of_initialized _ hi]
  | false =>
    obtain ⟨_,_,hf,_⟩ := h.empty hi
    have hs : 0 < size := hs.resolve_left (by simp [hi])
    simp only [SlotAllocator.lazyInit, hi, Bool.false_eq_true, ↓reduceIte]
    exact ⟨by simp,slotCount_lt _ _,h.used_lt,by simp [hf],fun _ => hs,fun _ => rfl,
      fun i hi' => slotCount_range (h.capacity hi) hi',by simp,by simp⟩

/-- Taking the slot size from a request hands nothing out. -/
theorem WF.lazyInit_books (h : a.WF) (size : ℕ) : (a.lazyInit size).handedOut = a.handedOut ∧
    (a.lazyInit size).spare = a.spare ∧ (a.lazyInit size).usedSlots = a.usedSlots := by
  cases hi : a.initialized with
  | true => simp [lazyInit_of_initialized _ hi]
  | false =>
    obtain ⟨hn,_,hf,_⟩ := h.empty hi
    simp [SlotAllocator.lazyInit, hi, handedOut, spare, hn, hf]

structure Grants (a a' : SlotAllocator) (offs : Multiset ℕ) : Prop where
  wf : a'.WF
  books : a'.handedOut + a.spare = a.handedOut + a'.spare + offs
  used : a'.usedSlots = u32 (a.usedSlots + offs.card)
  keep : a.initialized = true → a'.initialized = true ∧ a'.slotSize = a.slotSize ∧
    a'.totalSlots = a.totalSlots ∧ a'.autoDetected = a.autoDetected

theorem Grants.nothing (h : a.WF) : Grants a a 0 :=
  ⟨h,by simp,by simp [u32_of_lt h.used_lt],fun hi => ⟨hi,rfl,rfl,rfl⟩⟩

theorem Grants.after_lazyInit {size : ℕ} {offs : Multiset ℕ} (h : a.WF)
    (hg : Grants (a.lazyInit size) a' offs) : Grants a a' offs := by
  obtain ⟨hh,hs,hu⟩ := h.lazyInit_books size
  refine ⟨hg.wf,?_,?_,?_⟩
  · rw [← hh, ← hs]
    exact hg.books
  · rw [← hu]
    exact hg.used
  · intro hi
    rw [← lazyInit_of_initialized size hi]
    exact hg.keep (by simp)

theorem WF.offsetOf_eq {slot : ℕ} (h : a.WF) (hs : slot < a.totalSlots) :
    a.offsetOf slot = (slot * a.slotSize : ℕ) := int64_of_lt (h.range slot hs)

/-- A slot from the stack. -/
theorem Grants.pop {slot : ℕ} {rest : List ℕ} (h : a.WF) (hi : a.initialized = true)
    (hf : a.freeStack = slot :: rest) :
    Grants a { a with freeStack := rest, usedSlots := u32 (a.usedSlots + 1) }
      {slot * a.slotSize} where
  wf := { h with
    used_lt := u32_lt _
    stack_lt := fun i hi => h.stack_lt i (by simp [hf, hi])
    empty := by simp [hi] }
  books := by
    simp only [handedOut, spare, hf, ← Multiset.cons_coe, Multiset.map_cons]
    rw [← Multiset.singleton_add, add_assoc]
    exact congrArg (_ + ·) (add_comm _ _)
  used := by simp
  keep := fun hi => ⟨hi,rfl,rfl,rfl⟩

/-- A slot from the bump pointer. -/
theorem Grants.bump (h : a.WF) (hi : a.initialized = true) (hn : a.nextSlot < a.totalSlots) :
    Grants a { a with nextSlot := a.nextSlot + 1, usedSlots := u32 (a.usedSlots + 1) }
      {a.nextSlot * a.slotSize} where
  wf := { h with
    used_lt := u32_lt _
    next_le := hn
    empty := by simp [hi] }
  books := by
    simp only [handedOut, spare, Multiset.range_succ, Multiset.map_cons]
    rw [← Multiset.singleton_add, add_assoc, add_comm]
  used := by simp
  keep := fun hi => ⟨hi,rfl,rfl,rfl⟩

/-- `alloc` grants one slot of a size that it admits, or nothing. -/
theorem alloc_spec {size : ℕ} {r : Allocated} (h : a.WF) (he : a.alloc size = (r,a')) :
    (r.offset < 0 ∧ r.allocSize = 0 ∧ Grants a a' 0) ∨
    ∃ o : ℕ, r.offset = o ∧ r.allocSize = a'.slotSize ∧ a'.initialized = true ∧
      a'.sizeOk size = true ∧ Grants a a' {o} := by
  unfold alloc at he
  split at he
  · obtain ⟨rfl,rfl⟩ := Prod.mk.inj he
    exact .inl ⟨by simp,rfl,.nothing h⟩
  · next hz =>
    have hs := initialized_or_pos hz
    have hw := h.lazyInit hs
    have hi : (a.lazyInit size).initialized = true := lazyInit_initialized size
    dsimp only at he
    split at he
    · obtain ⟨rfl,rfl⟩ := Prod.mk.inj he
      exact .inl ⟨by simp,rfl,.after_lazyInit h (.nothing hw)⟩
    · next hok =>
      have hok : (a.lazyInit size).sizeOk size = true := by simpa using hok
      split at he
      · next slot rest hf =>
        obtain ⟨rfl,rfl⟩ := Prod.mk.inj he
        exact .inr ⟨_,hw.offsetOf_eq (hw.stack_lt slot (by simp [hf])),rfl,hi,hok,
          .after_lazyInit h (.pop hw hi hf)⟩
      · split at he
        · next hn =>
          obtain ⟨rfl,rfl⟩ := Prod.mk.inj he
          exact .inr ⟨_,hw.offsetOf_eq hn,rfl,hi,hok,.after_lazyInit h (.bump hw hi hn)⟩
        · obtain ⟨rfl,rfl⟩ := Prod.mk.inj he
          exact .inl ⟨by simp,rfl,.after_lazyInit h (.nothing hw)⟩

/-- Slots from the stack and then from the bump pointer, in one step. -/
theorem Grants.batch (count : ℕ) (h : a.WF) (hi : a.initialized = true) :
    let reused := a.freeStack.take count
    let fresh := List.range' a.nextSlot (min (count - reused.length) (a.totalSlots - a.nextSlot))
    Grants a
      { a with
        freeStack := a.freeStack.drop count
        nextSlot := a.nextSlot + fresh.length
        usedSlots := u32 (a.usedSlots + (reused ++ fresh).length) }
      ((reused ++ fresh).map (· * a.slotSize) : List ℕ) ∧
    (reused ++ fresh).map a.offsetOf =
      ((reused ++ fresh).map (· * a.slotSize)).map (fun o : ℕ => (o : ℤ)) := by
  intro reused fresh
  have hlen : fresh.length ≤ a.totalSlots - a.nextSlot := by
    simp only [fresh, List.length_range']
    exact Nat.min_le_right _ _
  have hnext := h.next_le
  refine ⟨⟨{ h with
    used_lt := u32_lt _
    next_le := by dsimp only; omega
    stack_lt := fun i hi => h.stack_lt i (List.mem_of_mem_drop hi)
    empty := by simp [hi] },?_,by simp,fun hi => ⟨hi,rfl,rfl,rfl⟩⟩,?_⟩
  · have hrange : Multiset.range (a.nextSlot + fresh.length) =
        Multiset.range a.nextSlot + (fresh : Multiset ℕ) := by
      have hf : fresh = List.range' a.nextSlot fresh.length := by simp [fresh]
      rw [hf, List.length_range', ← Multiset.coe_range, ← Multiset.coe_range, Multiset.coe_add,
        List.range_eq_range', List.range_eq_range', ← List.range'_append_1]
      simp
    have hstack : (a.freeStack : Multiset ℕ) =
        (reused : Multiset ℕ) + (a.freeStack.drop count : List ℕ) := by
      rw [Multiset.coe_add, List.take_append_drop]
    simp only [handedOut, spare, hrange, hstack, Multiset.map_add, ← Multiset.map_coe,
      ← Multiset.coe_add]
    abel
  · rw [List.map_map]
    refine List.map_congr_left fun i hmem => ?_
    rcases List.mem_append.mp hmem with hr | hf
    · exact h.offsetOf_eq (h.stack_lt i (List.mem_of_mem_take hr))
    · have := (List.mem_range'_1.mp hf).2
      simp only [fresh, List.length_range'] at hlen
      exact h.offsetOf_eq (by omega)

theorem batchAlloc_spec {size count n : ℕ} {offs : List ℤ} (h : a.WF)
    (he : a.batchAlloc size count = ((offs,n),a')) :
    (offs = [] ∧ Grants a a' 0) ∨
    ∃ os : List ℕ, offs = os.map (fun o : ℕ => (o : ℤ)) ∧ os.length ≤ count ∧ n = a'.slotSize ∧
      a'.initialized = true ∧ a'.sizeOk size = true ∧ Grants a a' (os : Multiset ℕ) := by
  unfold batchAlloc at he
  split at he
  · obtain ⟨⟨rfl,rfl⟩,rfl⟩ := (Prod.mk.inj he).imp_left Prod.mk.inj
    exact .inl ⟨rfl,.nothing h⟩
  · split at he
    · obtain ⟨⟨rfl,rfl⟩,rfl⟩ := (Prod.mk.inj he).imp_left Prod.mk.inj
      exact .inl ⟨rfl,.nothing h⟩
    · next hz =>
      have hs := initialized_or_pos hz
      have hw := h.lazyInit hs
      have hi : (a.lazyInit size).initialized = true := lazyInit_initialized size
      dsimp only at he
      split at he
      · obtain ⟨⟨rfl,rfl⟩,rfl⟩ := (Prod.mk.inj he).imp_left Prod.mk.inj
        exact .inl ⟨rfl,.after_lazyInit h (.nothing hw)⟩
      · next hok =>
        have hok : (a.lazyInit size).sizeOk size = true := by simpa using hok
        obtain ⟨⟨rfl,rfl⟩,rfl⟩ := (Prod.mk.inj he).imp_left Prod.mk.inj
        obtain ⟨hg,hoffs⟩ := Grants.batch count hw hi
        refine .inr ⟨_,hoffs,?_,rfl,hi,hok,.after_lazyInit h hg⟩
        simp only [List.length_map, List.length_append, List.length_take, List.length_range']
        omega

theorem mem_handedOut {o : ℕ} : o ∈ a.handedOut ↔ ∃ i < a.nextSlot, i * a.slotSize = o := by
  simp [handedOut]

theorem mem_spare {o : ℕ} : o ∈ a.spare ↔ ∃ i ∈ a.freeStack, i * a.slotSize = o := by
  simp [spare]

theorem WF.initialized_of_next_pos (h : a.WF) (hn : 0 < a.nextSlot) : a.initialized = true := by
  cases hi : a.initialized with
  | true => rfl
  | false =>
    have := (h.empty hi).1
    omega

theorem WF.nodup_handedOut (h : a.WF) : a.handedOut.Nodup := by
  cases hn : a.nextSlot with
  | zero => simp [handedOut, hn]
  | succ n =>
    have hpos := h.pos (h.initialized_of_next_pos (by omega))
    exact (Multiset.nodup_range _).map fun i j hij => Nat.eq_of_mul_eq_mul_right hpos hij

@[simp] theorem card_handedOut : a.handedOut.card = a.nextSlot := by simp [handedOut]
@[simp] theorem card_spare : a.spare.card = a.freeStack.length := by simp [spare]

/-- Two slots do not overlap. -/
theorem apart_of_ne {o o' : ℕ} (ho : o ∈ a.handedOut) (ho' : o' ∈ a.handedOut) (hne : o ≠ o') :
    o + a.slotSize ≤ o' ∨ o' + a.slotSize ≤ o := by
  obtain ⟨i,-,rfl⟩ := mem_handedOut.mp ho
  obtain ⟨j,-,rfl⟩ := mem_handedOut.mp ho'
  rcases Nat.lt_trichotomy i j with hlt | rfl | hgt
  · have hle : (i + 1) * a.slotSize ≤ j * a.slotSize := Nat.mul_le_mul_right _ hlt
    rw [Nat.succ_mul] at hle
    exact .inl hle
  · exact absurd rfl hne
  · have hle : (j + 1) * a.slotSize ≤ i * a.slotSize := Nat.mul_le_mul_right _ hgt
    rw [Nat.succ_mul] at hle
    exact .inr hle

theorem count_handedOut (hpos : 0 < a.slotSize) (slot : ℕ) :
    a.handedOut.count (slot * a.slotSize) = if slot < a.nextSlot then 1 else 0 := by
  have hinj : Function.Injective (· * a.slotSize) :=
    fun i j hij => Nat.eq_of_mul_eq_mul_right hpos hij
  rw [handedOut, Multiset.count_map_eq_count' _ _ hinj,
    Multiset.count_eq_of_nodup (Multiset.nodup_range _)]
  simp only [Multiset.mem_range]

theorem count_spare (hpos : 0 < a.slotSize) (slot : ℕ) :
    a.spare.count (slot * a.slotSize) = a.freeStack.count slot := by
  have hinj : Function.Injective (· * a.slotSize) :=
    fun i j hij => Nat.eq_of_mul_eq_mul_right hpos hij
  rw [spare, Multiset.count_map_eq_count' _ _ hinj, Multiset.coe_count]

/-- Releasing an offset that was handed out puts its slot on the stack. -/
theorem free_spec {o : ℕ} (n : ℕ) (h : a.WF) (hin : o ∈ a.handedOut) (hused : 0 < a.usedSlots) :
    (a.free o n).WF ∧ (a.free o n).handedOut = a.handedOut ∧ (a.free o n).spare = {o} + a.spare ∧
      (a.free o n).usedSlots + 1 = a.usedSlots ∧
      ∃ i, i * a.slotSize = o ∧ a.free o n =
        { a with freeStack := i :: a.freeStack, usedSlots := predU32 a.usedSlots } := by
  obtain ⟨i,hi,rfl⟩ := mem_handedOut.mp hin
  have hinit := h.initialized_of_next_pos (by omega)
  have hpos := h.pos hinit
  have hlt : i < a.totalSlots := hi.trans_le h.next_le
  have hslot : u32 (i * a.slotSize / a.slotSize) = i := by
    rw [Nat.mul_div_cancel _ hpos]
    exact u32_of_lt (hlt.trans h.slots_lt)
  have hfree : a.free (i * a.slotSize : ℕ) n =
      { a with freeStack := i :: a.freeStack, usedSlots := predU32 a.usedSlots } := by
    have hneg : ¬ ((i * a.slotSize : ℕ) : ℤ) < 0 := by omega
    simp only [free, if_neg hneg, Int.toNat_natCast, hinit, hslot, Nat.mul_mod_left]
    simp [hlt]
  refine ⟨?_,?_,?_,?_,i,rfl,hfree⟩
  · rw [hfree]
    exact { h with
      used_lt := predU32_lt h.used_lt
      stack_lt := by
        intro j hj
        rcases List.mem_cons.mp hj with rfl | hj
        · exact hlt
        · exact h.stack_lt j hj
      empty := by simp [hinit] }
  · rw [hfree]
    rfl
  · rw [hfree]
    simp [spare, ← Multiset.cons_coe]
  · rw [hfree]
    exact predU32_add_one hused

end SlotAllocator

end FalconKV
