import FalconKV.Common.SlotAllocator

/-! # Requests to the slot allocator, one by one and together

`Alloc` and `BatchAlloc` check a request and initialise the allocator in two copies of the same
code, and take slots in loops of their own. Both do the same as one slot taken after the other;
how many slots there are, and where they lie, follows from that for every run.
-/
namespace FalconKV

namespace SlotAllocator
variable {a a' : SlotAllocator} {size n slot outAllocSize totalBytes slotSize : ℕ}

/-- `Alloc` with what `*out_alloc_size` was before; it answers the offset and what is there after. -/
def allocOut (a : SlotAllocator) (size outAllocSize : ℕ) : (ℤ × ℕ) × SlotAllocator :=
  if !a.initialized && size == 0 then ((-1,outAllocSize),a)
  else
    let a := a.lazyInit size
    if !a.sizeOk size then ((-1,outAllocSize),a)
    else
      match a.freeStack with
      | slot :: rest =>
        ((a.offsetOf slot,a.slotSize),{ a with freeStack := rest, usedSlots := u32 (a.usedSlots + 1) })
      | [] =>
        if a.nextSlot < a.totalSlots then
          ((a.offsetOf a.nextSlot,a.slotSize),
            { a with nextSlot := a.nextSlot + 1, usedSlots := u32 (a.usedSlots + 1) })
        else ((-1,outAllocSize),a)

def drainLoop (count : ℕ) (offsetOf : ℕ → ℤ) : List ℕ → List ℤ → List ℕ × List ℤ
  | [], offsets => ([],offsets)
  | slot :: rest, offsets =>
    if offsets.length < count then drainLoop count offsetOf rest (offsets ++ [offsetOf slot])
    else (slot :: rest,offsets)

/-- `while (next_slot_ < total_slots_ && offsets.size() < count)`, with the number of slots left. -/
def bumpLoop (count : ℕ) (offsetOf : ℕ → ℤ) : ℕ → ℕ → List ℤ → ℕ × List ℤ
  | 0, nextSlot, offsets => (nextSlot,offsets)
  | left + 1, nextSlot, offsets =>
    if offsets.length < count then
      bumpLoop count offsetOf left (nextSlot + 1) (offsets ++ [offsetOf nextSlot])
    else (nextSlot,offsets)

structure BatchAllocated where
  allocated : ℕ
  offsets : List ℤ
  outAllocSize : ℕ

/-- `BatchAlloc` with what `offsets` and `*out_alloc_size` were before. -/
def batchAllocOut (a : SlotAllocator) (size count : ℕ) (offsets : List ℤ) (outAllocSize : ℕ) :
    BatchAllocated × SlotAllocator :=
  if count = 0 then (⟨0,offsets,outAllocSize⟩,a)
  else if !a.initialized && size == 0 then (⟨0,offsets,outAllocSize⟩,a)
  else
    let a := a.lazyInit size
    if !a.sizeOk size then (⟨0,offsets,outAllocSize⟩,a)
    else
      let drained := drainLoop count a.offsetOf a.freeStack []
      let bumped := bumpLoop count a.offsetOf (a.totalSlots - a.nextSlot) a.nextSlot drained.2
      let allocated := u32 bumped.2.length
      (⟨allocated,bumped.2,a.slotSize⟩,
        { a with
          freeStack := drained.1
          nextSlot := bumped.1
          usedSlots := u32 (a.usedSlots + allocated) })

/-- `Alloc` until `count` slots are granted or one is refused, with one variable for
`*out_alloc_size`. -/
def allocUpTo (a : SlotAllocator) (size : ℕ) : ℕ → ℕ → (List ℤ × ℕ) × SlotAllocator
  | 0, outAllocSize => (([],outAllocSize),a)
  | count + 1, outAllocSize =>
    let ((offset,outAllocSize),a) := a.allocOut size outAllocSize
    if offset = -1 then (([],outAllocSize),a)
    else
      let ((offsets,outAllocSize),a) := a.allocUpTo size count outAllocSize
      ((offset :: offsets,outAllocSize),a)

def takeSlot (a : SlotAllocator) (size : ℕ) : Option ℕ × SlotAllocator :=
  if !a.initialized && size == 0 then (none,a)
  else
    let a := a.lazyInit size
    if !a.sizeOk size then (none,a)
    else
      match a.freeStack with
      | slot :: rest => (some slot,{ a with freeStack := rest, usedSlots := u32 (a.usedSlots + 1) })
      | [] =>
        if a.nextSlot < a.totalSlots then
          (some a.nextSlot,{ a with nextSlot := a.nextSlot + 1, usedSlots := u32 (a.usedSlots + 1) })
        else (none,a)

def takeSlots (a : SlotAllocator) (size : ℕ) : ℕ → List ℕ × SlotAllocator
  | 0 => ([],a)
  | n + 1 =>
    match a.takeSlot size with
    | (none,a) => ([],a)
    | (some slot,a) => (slot :: (a.takeSlots size n).1,(a.takeSlots size n).2)

inductive Takes (a : SlotAllocator) : ℕ → SlotAllocator → Prop
  | pop {slot : ℕ} {rest : List ℕ} (h : a.freeStack = slot :: rest) :
      Takes a slot { a with freeStack := rest, usedSlots := u32 (a.usedSlots + 1) }
  | bump (hempty : a.freeStack = []) (hnext : a.nextSlot < a.totalSlots) :
      Takes a a.nextSlot { a with nextSlot := a.nextSlot + 1, usedSlots := u32 (a.usedSlots + 1) }

/-- A request is turned away, or it takes a slot of an allocator that is initialised by then, or
there is none left. -/
theorem takeSlot_cases (a : SlotAllocator) (size : ℕ) :
    (a.takeSlot size = (none,a) ∧ (a.initialized = false ∧ size = 0 ∨
      a.initialized = true ∧ a.sizeOk size = false)) ∨
    ((a.initialized = true ∨ 0 < size) ∧ (a.lazyInit size).sizeOk size = true ∧
      ((a.takeSlot size = (none,a.lazyInit size) ∧ (a.lazyInit size).freeStack = [] ∧
          (a.lazyInit size).totalSlots ≤ (a.lazyInit size).nextSlot) ∨
        ∃ slot a', a.takeSlot size = (some slot,a') ∧ (a.lazyInit size).Takes slot a')) := by
  by_cases hzero : a.initialized = false ∧ size = 0
  · left
    exact ⟨by simp [takeSlot, hzero],.inl hzero⟩
  · have hstart : a.initialized = true ∨ 0 < size := by
      by_cases hi : a.initialized = true
      · exact .inl hi
      · right
        have hne : size ≠ 0 := fun hs => hzero ⟨by simpa using hi,hs⟩
        omega
    have hcond := not_deferred hstart
    by_cases hok : (a.lazyInit size).sizeOk size = true
    · right
      refine ⟨hstart,hok,?_⟩
      cases hf : (a.lazyInit size).freeStack with
      | cons slot rest =>
        right
        exact ⟨slot,_,by simp [takeSlot, hcond, hok, hf],.pop hf⟩
      | nil =>
        by_cases hn : (a.lazyInit size).nextSlot < (a.lazyInit size).totalSlots
        · right
          exact ⟨_,_,by simp [takeSlot, hcond, hok, hf, hn],.bump hf hn⟩
        · left
          exact ⟨by simp [takeSlot, hcond, hok, hf, hn],rfl,by omega⟩
    · left
      have hi : a.initialized = true := by
        by_contra hi
        simp [lazyInit, hi, sizeOk] at hok
      rw [lazyInit_of_initialized size hi] at hok
      refine ⟨?_,.inr ⟨hi,by simpa using hok⟩⟩
      simp [takeSlot, hi, lazyInit_of_initialized size hi, hok]

theorem Takes.slotSize_eq (h : a.Takes slot a') : a'.slotSize = a.slotSize := by cases h <;> rfl

theorem Takes.initialized_eq (h : a.Takes slot a') : a'.initialized = a.initialized := by
  cases h <;> rfl

theorem Takes.sizeOk_eq (h : a.Takes slot a') : a'.sizeOk size = a.sizeOk size := by
  cases h <;> rfl

/-- `Alloc` answers with the offset of the slot that it takes. -/
theorem alloc_eq_takeSlot : a.alloc size =
    (((a.takeSlot size).1.elim ⟨-1,0⟩ fun slot =>
      ⟨(a.takeSlot size).2.offsetOf slot,(a.takeSlot size).2.slotSize⟩),(a.takeSlot size).2) := by
  unfold alloc takeSlot
  by_cases hcond : (!a.initialized && size == 0) = true
  · simp [hcond]
  · by_cases hok : (a.lazyInit size).sizeOk size = true
    · cases hf : (a.lazyInit size).freeStack with
      | cons slot rest => simp [hcond, hok, hf, offsetOf]
      | nil =>
        by_cases hn : (a.lazyInit size).nextSlot < (a.lazyInit size).totalSlots <;>
          simp [hcond, hok, hf, hn, offsetOf]
    · simp [hcond, hok]

theorem allocOut_eq_takeSlot : a.allocOut size outAllocSize =
    (((a.takeSlot size).1.elim (-1,outAllocSize) fun slot =>
      ((a.takeSlot size).2.offsetOf slot,(a.takeSlot size).2.slotSize)),(a.takeSlot size).2) := by
  unfold allocOut takeSlot
  by_cases hcond : (!a.initialized && size == 0) = true
  · simp [hcond]
  · by_cases hok : (a.lazyInit size).sizeOk size = true
    · cases hf : (a.lazyInit size).freeStack with
      | cons slot rest => simp [hcond, hok, hf, offsetOf]
      | nil =>
        by_cases hn : (a.lazyInit size).nextSlot < (a.lazyInit size).totalSlots <;>
          simp [hcond, hok, hf, hn, offsetOf]
    · simp [hcond, hok]

def nextSlots (a : SlotAllocator) (n : ℕ) : List ℕ :=
  a.freeStack.take n ++
    List.range' a.nextSlot (min (n - (a.freeStack.take n).length) (a.totalSlots - a.nextSlot))

def taking (a : SlotAllocator) (n : ℕ) : SlotAllocator :=
  { a with
    freeStack := a.freeStack.drop n
    nextSlot := a.nextSlot + min (n - (a.freeStack.take n).length) (a.totalSlots - a.nextSlot)
    usedSlots := u32 (a.usedSlots + (a.nextSlots n).length) }

theorem Takes.nextSlots_eq (h : a.Takes slot a') :
    a.nextSlots (n + 1) = slot :: a'.nextSlots n ∧ a.taking (n + 1) = a'.taking n := by
  have hcount : ∀ k, u32 (u32 (a.usedSlots + 1) + k) = u32 (a.usedSlots + (k + 1)) := by
    intro k
    simp only [u32]
    omega
  cases h with
  | pop hf =>
    constructor
    · simp [nextSlots, hf]
    · simp [nextSlots, taking, hf, hcount, add_assoc]
  | bump hempty hn =>
    have hmin : min (n + 1) (a.totalSlots - a.nextSlot) =
        min n (a.totalSlots - (a.nextSlot + 1)) + 1 := by omega
    constructor
    · simp [nextSlots, hempty, hmin, List.range'_succ]
    · simp [nextSlots, taking, hempty, hcount, hmin, add_assoc, add_comm 1]

/-- One slot after the other gives the slots that come next. -/
theorem takeSlots_eq (hi : a.initialized = true) (hok : a.sizeOk size = true)
    (hused : a.usedSlots < 2^32) : a.takeSlots size n = (a.nextSlots n,a.taking n) := by
  induction n generalizing a with
  | zero => simp [takeSlots, nextSlots, taking, u32_of_lt hused]
  | succ n ih =>
    rcases takeSlot_cases a size with ⟨-,hno | hno⟩ | ⟨-,-,⟨hnone,hempty,hfull⟩ | ⟨slot,a',hsome,htakes⟩⟩
    · simp [hi] at hno
    · simp [hok] at hno
    · rw [lazyInit_of_initialized size hi] at hnone hempty hfull
      have hleft : a.totalSlots - a.nextSlot = 0 := by omega
      simp only [takeSlots, hnone, nextSlots, taking, hempty, hleft, List.take_nil, List.drop_nil,
        List.length_nil, Nat.min_zero, List.range'_zero, List.append_nil, Nat.add_zero, u32_of_lt hused]
      rw [← hempty]
    · rw [lazyInit_of_initialized size hi] at htakes
      obtain ⟨hnext,htaking⟩ := htakes.nextSlots_eq (n := n)
      have hused' : a'.usedSlots < 2^32 := by cases htakes <;> exact u32_lt _
      have hrest := ih (htakes.initialized_eq.trans hi) (htakes.sizeOk_eq.trans hok) hused'
      rw [takeSlots, hsome, hnext, htaking]
      simp only [hrest]

theorem drainLoop_eq (count : ℕ) (offsetOf : ℕ → ℤ) (stack : List ℕ) (offsets : List ℤ) :
    drainLoop count offsetOf stack offsets = (stack.drop (count - offsets.length),
      offsets ++ (stack.take (count - offsets.length)).map offsetOf) := by
  induction stack generalizing offsets with
  | nil => simp [drainLoop]
  | cons slot rest ih =>
    rw [drainLoop]
    by_cases hroom : offsets.length < count
    · have hsucc : count - offsets.length = count - (offsets.length + 1) + 1 := by omega
      rw [if_pos hroom, ih, hsucc]
      simp
    · have hzero : count - offsets.length = 0 := by omega
      simp [hroom, hzero]

theorem bumpLoop_eq (count : ℕ) (offsetOf : ℕ → ℤ) (left nextSlot : ℕ) (offsets : List ℤ) :
    bumpLoop count offsetOf left nextSlot offsets =
      (nextSlot + min (count - offsets.length) left,
        offsets ++ (List.range' nextSlot (min (count - offsets.length) left)).map offsetOf) := by
  induction left generalizing nextSlot offsets with
  | zero => simp [bumpLoop]
  | succ left ih =>
    rw [bumpLoop]
    by_cases hroom : offsets.length < count
    · have hsucc : min (count - offsets.length) (left + 1) =
          min (count - (offsets.length + 1)) left + 1 := by omega
      rw [if_pos hroom, ih, hsucc, List.range'_succ]
      simp [add_assoc, add_comm 1]
    · have hzero : count - offsets.length = 0 := by omega
      simp [hroom, hzero]

theorem length_nextSlots_le : (a.nextSlots n).length ≤ n := by
  simp only [nextSlots, List.length_append, List.length_take, List.length_range']
  omega

/-- Where the first slot is refused, so is a batch; otherwise the loops take slots from an
initialised allocator. -/
theorem takeSlots_succ (size n : ℕ) (hused : a.usedSlots < 2^32) :
    (a.takeSlots size (n + 1) = ([],a) ∧ (a.initialized = false ∧ size = 0 ∨
      a.initialized = true ∧ a.sizeOk size = false)) ∨
    ((a.initialized = true ∨ 0 < size) ∧ (a.lazyInit size).sizeOk size = true ∧
      a.takeSlots size (n + 1) =
        ((a.lazyInit size).nextSlots (n + 1),(a.lazyInit size).taking (n + 1))) := by
  rcases takeSlot_cases a size with ⟨hnone,hno⟩ | ⟨hstart,hok,-⟩
  · exact .inl ⟨by rw [takeSlots, hnone],hno⟩
  · right
    have hused' : (a.lazyInit size).usedSlots < 2^32 := by
      unfold lazyInit
      split <;> exact hused
    have hinit : (a.lazyInit size).initialized = true := lazyInit_initialized size
    -- the second copy of the initialisation finds the allocator initialised
    have hsame : a.takeSlot size = (a.lazyInit size).takeSlot size := by
      simp [takeSlot, not_deferred hstart, lazyInit_of_initialized size hinit]
    refine ⟨hstart,hok,?_⟩
    rw [← takeSlots_eq hinit hok hused', takeSlots, takeSlots, hsame]

theorem offsetOf_taking : (a.taking n).offsetOf = a.offsetOf := rfl

theorem batchAlloc_eq_takeSlots (size n : ℕ) (hused : a.usedSlots < 2^32) :
    (a.batchAlloc size n).1.1 = (a.takeSlots size n).1.map (a.takeSlots size n).2.offsetOf ∧
      (a.batchAlloc size n).2 = (a.takeSlots size n).2 := by
  cases n with
  | zero => simp [batchAlloc, takeSlots]
  | succ n =>
    rcases takeSlots_succ size n hused with ⟨htake,hno⟩ | ⟨hstart,hok,htake⟩
    · rw [htake]
      rcases hno with ⟨hi,rfl⟩ | ⟨hi,hok⟩
      · simp [batchAlloc, hi]
      · simp [batchAlloc, hi, lazyInit_of_initialized size hi, hok]
    · rw [htake, offsetOf_taking]
      simp [batchAlloc, not_deferred hstart, hok, nextSlots, taking]

theorem batchAllocOut_eq_takeSlots (size : ℕ) (hused : a.usedSlots < 2^32) (hn : n < 2^32) (offsets : List ℤ)
    (outAllocSize : ℕ) :
    (a.takeSlots size n = ([],a) ∧
      a.batchAllocOut size n offsets outAllocSize = (⟨0,offsets,outAllocSize⟩,a)) ∨
    a.batchAllocOut size n offsets outAllocSize =
      (⟨(a.takeSlots size n).1.length,(a.takeSlots size n).1.map (a.takeSlots size n).2.offsetOf,
        (a.takeSlots size n).2.slotSize⟩,(a.takeSlots size n).2) := by
  cases n with
  | zero =>
    left
    exact ⟨rfl,by simp [batchAllocOut]⟩
  | succ n =>
    rcases takeSlots_succ size n hused with ⟨htake,hno⟩ | ⟨hstart,hok,htake⟩
    · refine .inl ⟨htake,?_⟩
      rcases hno with ⟨hi,rfl⟩ | ⟨hi,hok⟩
      · simp [batchAllocOut, hi]
      · simp [batchAllocOut, hi, lazyInit_of_initialized size hi, hok]
    · right
      rw [htake, offsetOf_taking]
      let b := a.lazyInit size
      have hslots : ((b.freeStack.take (n + 1)).map b.offsetOf ++
          (List.range' b.nextSlot (min (n + 1 - (b.freeStack.take (n + 1)).length)
            (b.totalSlots - b.nextSlot))).map b.offsetOf) = (b.nextSlots (n + 1)).map b.offsetOf := by
        rw [nextSlots, List.map_append]
      have hlen : u32 (b.nextSlots (n + 1)).length = (b.nextSlots (n + 1)).length :=
        u32_of_lt (length_nextSlots_le.trans_lt hn)
      simp only [batchAllocOut, Nat.add_one_ne_zero, if_false, not_deferred hstart, Bool.false_eq_true,
        hok, Bool.not_true, drainLoop_eq, bumpLoop_eq, List.length_nil, List.nil_append,
        List.length_map, Nat.sub_zero]
      change (BatchAllocated.mk (u32 (List.length (_ ++ _))) _ _,_) = _
      rw [hslots, List.length_map, hlen]
      rfl

structure Slotted (a : SlotAllocator) : Prop where
  slots_lt : a.totalSlots < 2^32
  size_lt : a.slotSize < 2^32
  used_lt : a.usedSlots < 2^32
  next_le : a.nextSlot ≤ a.totalSlots
  stack_lt : ∀ slot ∈ a.freeStack, slot < a.totalSlots
  pos : a.initialized = true → 0 < a.slotSize
  blank : a.initialized = false → a.freeStack = [] ∧ a.nextSlot = 0 ∧ a.usedSlots = 0

theorem slotted_create (totalBytes : ℕ) (hs : slotSize < 2^32) :
    (create totalBytes slotSize).Slotted := by
  unfold create
  split
  · next hpos => exact ⟨slotCount_lt _ _,hs,by simp,by simp,by simp,fun _ => hpos,by simp⟩
  · exact ⟨by simp,hs,by simp,by simp,by simp,by simp,by simp⟩

theorem Slotted.lazyInit (h : a.Slotted) (hsize : size < 2^32) (hstart : a.initialized = true ∨ 0 < size) :
    (a.lazyInit size).Slotted := by
  cases hi : a.initialized with
  | true =>
    rw [lazyInit_of_initialized size hi]
    exact h
  | false =>
    obtain ⟨hstack,-,hused⟩ := h.blank hi
    have hpos : 0 < size := hstart.resolve_left (by simp [hi])
    simp only [SlotAllocator.lazyInit, hi, Bool.false_eq_true, if_false]
    exact ⟨slotCount_lt _ _,hsize,h.used_lt,Nat.zero_le _,by simp [hstack],fun _ => hpos,by simp⟩

theorem Slotted.takes (h : a.Slotted) (hi : a.initialized = true) (ht : a.Takes slot a') :
    a'.Slotted ∧ slot < a'.totalSlots := by
  cases ht with
  | pop hf =>
    refine ⟨{ h with
      used_lt := u32_lt _
      stack_lt := fun i hmem => h.stack_lt i (by simp [hf, hmem])
      blank := by simp [hi] },?_⟩
    exact h.stack_lt slot (by simp [hf])
  | bump _ hn =>
    exact ⟨{ h with
      used_lt := u32_lt _
      next_le := hn
      blank := by simp [hi] },hn⟩

theorem Slotted.free (h : a.Slotted) (offset : ℤ) (allocSize : ℕ) : (a.free offset allocSize).Slotted := by
  unfold SlotAllocator.free
  split
  · exact h
  · split
    · exact h
    · next hi =>
      split
      · exact h
      · dsimp only
        split
        · exact h
        · next hslot =>
          exact { h with
            used_lt := predU32_lt h.used_lt
            stack_lt := by
              intro i hmem
              rcases List.mem_cons.mp hmem with rfl | hmem
              · exact Nat.lt_of_not_le hslot
              · exact h.stack_lt i hmem
            blank := by simp_all }

/-- The offset of a slot is not the answer for a failure, wherever it wraps. -/
theorem Slotted.offsetOf_ne (h : a.Slotted) (hslot : slot < a.totalSlots) : a.offsetOf slot ≠ -1 := by
  have hslots := h.slots_lt
  have hsize := h.size_lt
  have hprod : slot * a.slotSize ≤ (2^32 - 2) * (2^32 - 1) := Nat.mul_le_mul (by omega) (by omega)
  simp only [offsetOf, int64]
  split <;> omega

theorem takeSlots_slotSize (hi : a.initialized = true) :
    (a.takeSlots size n).2.slotSize = a.slotSize := by
  induction n generalizing a with
  | zero => rfl
  | succ n ih =>
    rw [takeSlots]
    rcases takeSlot_cases a size with ⟨hnone,-⟩ | ⟨-,-,⟨hnone,-⟩ | ⟨slot,a',hsome,htakes⟩⟩
    · rw [hnone]
    · rw [hnone, lazyInit_of_initialized size hi]
    · rw [lazyInit_of_initialized size hi] at htakes
      rw [hsome]
      exact (ih (htakes.initialized_eq.trans hi)).trans htakes.slotSize_eq

/-- Requests one by one, up to the first that is refused, take one slot after the other. -/
theorem Slotted.allocUpTo_eq (h : a.Slotted) (hsize : size < 2^32) :
    a.allocUpTo size n outAllocSize =
      (((a.takeSlots size n).1.map (a.takeSlots size n).2.offsetOf,
        if (a.takeSlots size n).1 = [] then outAllocSize else (a.takeSlots size n).2.slotSize),
        (a.takeSlots size n).2) := by
  induction n generalizing a outAllocSize with
  | zero => rfl
  | succ n ih =>
    rw [allocUpTo, takeSlots, allocOut_eq_takeSlot]
    rcases takeSlot_cases a size with ⟨hnone,-⟩ | ⟨hstart,-,⟨hnone,-⟩ | ⟨slot,a',hsome,htakes⟩⟩
    · simp [hnone]
    · simp [hnone]
    · have hinit : a'.initialized = true := htakes.initialized_eq.trans (lazyInit_initialized size)
      obtain ⟨hslotted,hslot⟩ := (h.lazyInit hsize hstart).takes (lazyInit_initialized size) htakes
      have hoffset : (a'.takeSlots size n).2.offsetOf slot = a'.offsetOf slot := by
        rw [offsetOf, offsetOf, takeSlots_slotSize hinit]
      have hwrites : (if (a'.takeSlots size n).1 = [] then a'.slotSize
          else (a'.takeSlots size n).2.slotSize) = (a'.takeSlots size n).2.slotSize := by
        rw [takeSlots_slotSize hinit, ite_self]
      rw [hsome]
      dsimp only [Option.elim]
      rw [if_neg (hslotted.offsetOf_ne hslot), ih hslotted, hwrites, List.map_cons, hoffset]
      rfl

structure Cut (a : SlotAllocator) (totalBytes slotSize : ℕ) (slots : List ℕ) : Prop where
  slotted : a.Slotted
  before : a.initialized = false → a.totalBytes = totalBytes ∧ slotSize = 0 ∧ slots = []
  after : a.initialized = true → a.totalSlots = slotCount totalBytes a.slotSize ∧
    a.totalBytes = a.totalSlots * a.slotSize ∧ (0 < slotSize → a.slotSize = slotSize)
  inside : ∀ slot ∈ slots, slot < a.totalSlots

variable {slots : List ℕ} {handed : List ℤ}

theorem cut_create (hs : slotSize < 2^32) : (create totalBytes slotSize).Cut totalBytes slotSize [] := by
  refine ⟨slotted_create totalBytes hs,?_,?_,by simp⟩
  · intro hi
    unfold create at hi ⊢
    split
    · next hpos => simp [hpos] at hi
    · exact ⟨rfl,by omega,rfl⟩
  · intro hi
    unfold create at hi ⊢
    split
    · exact ⟨rfl,rfl,fun _ => rfl⟩
    · next hpos => simp [hpos] at hi

theorem Cut.lazyInit (h : a.Cut totalBytes slotSize slots) (hsize : size < 2^32)
    (hstart : a.initialized = true ∨ 0 < size) : (a.lazyInit size).Cut totalBytes slotSize slots := by
  have hslotted := h.slotted.lazyInit hsize hstart
  cases hi : a.initialized with
  | true =>
    rw [lazyInit_of_initialized size hi]
    exact h
  | false =>
    obtain ⟨hbytes,hzero,rfl⟩ := h.before hi
    refine ⟨hslotted,by simp,?_,by simp⟩
    intro _
    simp only [SlotAllocator.lazyInit, hi, Bool.false_eq_true, if_false, hbytes]
    exact ⟨trivial,trivial,by omega⟩

theorem Cut.takes (h : a.Cut totalBytes slotSize slots) (hi : a.initialized = true)
    (ht : a.Takes slot a') : a'.Cut totalBytes slotSize (slots ++ [slot]) := by
  obtain ⟨hslotted,hslot⟩ := h.slotted.takes hi ht
  have hafter := h.after hi
  have htotal : a'.totalSlots = a.totalSlots := by cases ht <;> rfl
  refine ⟨hslotted,?_,?_,?_⟩
  · intro hno
    rw [ht.initialized_eq, hi] at hno
    cases hno
  · intro _
    cases ht <;> exact hafter
  · intro slot' hmem
    rcases List.mem_append.mp hmem with hmem | hmem
    · rw [htotal]
      exact h.inside slot' hmem
    · rw [List.mem_singleton.mp hmem]
      exact hslot

/-- What the first initialisation and every slot taken keep holds of the slots a batch takes. -/
theorem takeSlots_induction {motive : SlotAllocator → List ℕ → Prop} (size n : ℕ) (slots : List ℕ)
    (hinit : ∀ a slots, motive a slots → a.initialized = true ∨ 0 < size →
      motive (a.lazyInit size) slots)
    (htakes : ∀ a slots slot a', motive a slots → a.initialized = true → a.Takes slot a' →
      motive a' (slots ++ [slot]))
    (h : motive a slots) : motive (a.takeSlots size n).2 (slots ++ (a.takeSlots size n).1) := by
  induction n generalizing a slots with
  | zero =>
    rw [SlotAllocator.takeSlots, List.append_nil]
    exact h
  | succ n ih =>
    rw [SlotAllocator.takeSlots]
    rcases takeSlot_cases a size with ⟨hnone,-⟩ | ⟨hstart,-,⟨hnone,-⟩ | ⟨slot,a',hsome,ht⟩⟩
    · rw [hnone, List.append_nil]
      exact h
    · rw [hnone, List.append_nil]
      exact hinit a slots h hstart
    · have hstarted := hinit a slots h hstart
      have hnext := ih _ (htakes _ slots slot a' hstarted (lazyInit_initialized size) ht)
      rw [List.append_assoc] at hnext
      rw [hsome]
      exact hnext

theorem Cut.takeSlots (h : a.Cut totalBytes slotSize slots) (hsize : size < 2^32) (n : ℕ) :
    (a.takeSlots size n).2.Cut totalBytes slotSize (slots ++ (a.takeSlots size n).1) := by
  apply takeSlots_induction (motive := fun a slots => a.Cut totalBytes slotSize slots) size n slots _ _ h
  · intro a slots hcut hstart
    exact hcut.lazyInit hsize hstart
  · intro a slots slot a' hcut hi ht
    exact hcut.takes hi ht

theorem Cut.free (h : a.Cut totalBytes slotSize slots) (offset : ℤ) (allocSize : ℕ) :
    (a.free offset allocSize).Cut totalBytes slotSize slots := by
  have hslotted := h.slotted.free offset allocSize
  rw [free_frame] at hslotted ⊢
  exact ⟨hslotted,h.before,h.after,h.inside⟩

/-- The offset of a successful `Alloc`. -/
def granted (offset : ℤ) : List ℤ := if offset = -1 then [] else [offset]

theorem Slotted.alloc_eq_takeSlots (h : a.Slotted) (hsize : size < 2^32) :
    granted (a.alloc size).1.offset = (a.takeSlots size 1).1.map (a.takeSlots size 1).2.offsetOf ∧
      (a.alloc size).2 = (a.takeSlots size 1).2 := by
  rw [alloc_eq_takeSlot, SlotAllocator.takeSlots]
  rcases takeSlot_cases a size with ⟨hnone,-⟩ | ⟨hstart,-,⟨hnone,-⟩ | ⟨slot,a',hsome,htakes⟩⟩
  · rw [hnone]
    exact ⟨rfl,rfl⟩
  · rw [hnone]
    exact ⟨rfl,rfl⟩
  · obtain ⟨hslotted,hslot⟩ := (h.lazyInit hsize hstart).takes (lazyInit_initialized size) htakes
    rw [hsome]
    exact ⟨if_neg (hslotted.offsetOf_ne hslot),rfl⟩

/-- An allocator after any calls, with every offset that they handed out. -/
inductive Served (totalBytes slotSize : ℕ) : SlotAllocator → List ℤ → Prop
  | create : Served totalBytes slotSize (create totalBytes slotSize) []
  | alloc {a : SlotAllocator} {handed : List ℤ} (h : Served totalBytes slotSize a handed) (size : ℕ)
      (hsize : size < 2^32) :
      Served totalBytes slotSize (a.alloc size).2 (handed ++ granted (a.alloc size).1.offset)
  | batchAlloc {a : SlotAllocator} {handed : List ℤ} (h : Served totalBytes slotSize a handed)
      (size count : ℕ) (hsize : size < 2^32) :
      Served totalBytes slotSize (a.batchAlloc size count).2 (handed ++ (a.batchAlloc size count).1.1)
  | free {a : SlotAllocator} {handed : List ℤ} (h : Served totalBytes slotSize a handed) (offset : ℤ)
      (allocSize : ℕ) : Served totalBytes slotSize (a.free offset allocSize) handed

/-- Offsets stay what they are when more slots are taken. -/
theorem Cut.map_offsetOf (h : a.Cut totalBytes slotSize slots) :
    slots.map (a.takeSlots size n).2.offsetOf = slots.map a.offsetOf := by
  cases hi : a.initialized with
  | true =>
    apply List.map_congr_left
    intro slot _
    rw [offsetOf, offsetOf, takeSlots_slotSize hi]
  | false => rw [(h.before hi).2.2, List.map_nil, List.map_nil]

theorem Served.cut (hs : slotSize < 2^32) (h : Served totalBytes slotSize a handed) :
    ∃ slots, a.Cut totalBytes slotSize slots ∧ handed = slots.map a.offsetOf := by
  induction h with
  | create => exact ⟨[],cut_create hs,rfl⟩
  | @alloc a handed _ size hsize ih =>
    obtain ⟨slots,hcut,rfl⟩ := ih
    obtain ⟨hoffset,hstate⟩ := hcut.slotted.alloc_eq_takeSlots hsize
    refine ⟨slots ++ (a.takeSlots size 1).1,?_,?_⟩
    · rw [hstate]
      exact hcut.takeSlots hsize 1
    · rw [hstate, hoffset, List.map_append, hcut.map_offsetOf]
  | @batchAlloc a handed _ size count hsize ih =>
    obtain ⟨slots,hcut,rfl⟩ := ih
    obtain ⟨hoffsets,hstate⟩ := batchAlloc_eq_takeSlots size count hcut.slotted.used_lt
    refine ⟨slots ++ (a.takeSlots size count).1,?_,?_⟩
    · rw [hstate]
      exact hcut.takeSlots hsize count
    · rw [hstate, hoffsets, List.map_append, hcut.map_offsetOf]
  | @free a handed _ offset allocSize ih =>
    obtain ⟨slots,hcut,rfl⟩ := ih
    have hsize : (a.free offset allocSize).slotSize = a.slotSize := by rw [free_frame]
    refine ⟨slots,hcut.free offset allocSize,?_⟩
    apply List.map_congr_left
    intro slot _
    rw [offsetOf, offsetOf, hsize]

/-- A batch is answered like the requests one by one up to the first failure. The size of a slot
is written into `*out_alloc_size` even if none is granted, and the offsets of a batch that is
turned away are left as they were. -/
theorem batchAllocOut_eq_allocUpTo (h : Served totalBytes slotSize a handed) (hs : slotSize < 2^32)
    (hsize : size < 2^32) (hn : n < 2^32) (offsets : List ℤ) (outAllocSize : ℕ) :
    let batch := a.batchAllocOut size n offsets outAllocSize
    let single := a.allocUpTo size n outAllocSize
    batch.2 = single.2 ∧ batch.1.allocated = single.1.1.length ∧
    (batch.1.offsets = single.1.1 ∨ batch.1.offsets = offsets ∧ single.1.1 = []) ∧
    (single.1.1 ≠ [] → batch.1.outAllocSize = single.1.2) := by
  intro batch single
  obtain ⟨slots,hcut,-⟩ := h.cut hs
  have hsingle : single = _ := hcut.slotted.allocUpTo_eq hsize
  rcases batchAllocOut_eq_takeSlots size hcut.slotted.used_lt hn offsets outAllocSize with
    ⟨htake,hbatch⟩ | hbatch
  · have hbatch : batch = _ := hbatch
    rw [hbatch, hsingle, htake]
    exact ⟨rfl,rfl,.inr ⟨rfl,rfl⟩,fun hne => absurd rfl hne⟩
  · have hbatch : batch = _ := hbatch
    rw [hbatch, hsingle]
    refine ⟨rfl,by simp,.inl rfl,?_⟩
    intro hne
    have hslots : (a.takeSlots size n).1 ≠ [] := fun hnil => hne (by simp [hnil])
    dsimp only
    rw [if_neg hslots]

/-- The third slot is refused. -/
theorem batchAllocOut_eq_allocUpTo_short :
    let batch := (create 20 0).batchAllocOut 8 3 [] 0
    let single := (create 20 0).allocUpTo 8 3 0
    batch.2 = single.2 ∧ batch.1.allocated = single.1.1.length ∧
    (batch.1.offsets = single.1.1 ∨ batch.1.offsets = [] ∧ single.1.1 = []) ∧
    (single.1.1 ≠ [] → batch.1.outAllocSize = single.1.2) :=
  have hserved : Served 20 0 _ _ := .create
  batchAllocOut_eq_allocUpTo hserved (by decide) (by decide) (by decide) [] 0

/-- With the only slot in use, a batch writes the size that a single request leaves alone. -/
theorem exists_served_batch_writes : ∃ a handed, Served 8 8 a handed ∧
    (a.batchAllocOut 8 1 [] 0).1.outAllocSize ≠ (a.allocUpTo 8 1 0).1.2 :=
  ⟨_,_,.alloc .create 8 (by decide),by decide⟩

/-- As long as the number of slots fits its 32 bits, the file is cut into as many slots as it
has room for, but at least one, and every offset handed out is that of a whole slot. -/
theorem capacity_of_served (h : Served totalBytes slotSize a handed) (hs : slotSize < 2^32)
    (hinit : a.initialized = true) (hquotient : totalBytes / a.slotSize < 2^32) :
    0 < a.slotSize ∧ (0 < slotSize → a.slotSize = slotSize) ∧
    a.totalSlots = max 1 (totalBytes / a.slotSize) ∧
    totalBytes < (a.totalSlots + 1) * a.slotSize ∧
    ∀ offset ∈ handed, (∃ slot < a.totalSlots, offset = int64 (slot * a.slotSize)) ∧
      offset + a.slotSize ≤ max totalBytes a.slotSize := by
  obtain ⟨slots,hcut,rfl⟩ := h.cut hs
  obtain ⟨htotal,-,hsame⟩ := hcut.after hinit
  have hpos := hcut.slotted.pos hinit
  have hslots : a.totalSlots = max 1 (totalBytes / a.slotSize) := by
    rw [htotal, slotCount, u32_of_lt hquotient]
    generalize totalBytes / a.slotSize = quotient
    split <;> omega
  have hle : a.totalSlots * a.slotSize ≤ max totalBytes a.slotSize := by
    rw [hslots]
    rcases Nat.le_total 1 (totalBytes / a.slotSize) with hone | hone
    · rw [max_eq_right hone]
      exact (Nat.div_mul_le_self _ _).trans (le_max_left _ _)
    · rw [max_eq_left hone, one_mul]
      exact le_max_right _ _
  refine ⟨hpos,hsame,hslots,?_,?_⟩
  · have hdiv : totalBytes / a.slotSize < a.totalSlots + 1 := by omega
    exact (Nat.div_lt_iff_lt_mul hpos).mp hdiv
  · intro offset hmem
    obtain ⟨slot,hslot,rfl⟩ := List.mem_map.mp hmem
    have hlt := hcut.inside slot hslot
    refine ⟨⟨slot,hlt,rfl⟩,?_⟩
    have hend : (slot + 1) * a.slotSize ≤ a.totalSlots * a.slotSize := Nat.mul_le_mul_right _ hlt
    have hint : a.offsetOf slot ≤ (slot * a.slotSize : ℕ) := by
      simp only [offsetOf, int64]
      split <;> omega
    rw [Nat.succ_mul] at hend
    omega

/-- A file with room for two and a half slots. -/
theorem capacity_of_served_detected : ∃ a handed, Served 20 0 a handed ∧ handed = [0] ∧
    0 < a.slotSize ∧ (0 < 0 → a.slotSize = 0) ∧ a.totalSlots = max 1 (20 / a.slotSize) ∧
    20 < (a.totalSlots + 1) * a.slotSize ∧
    ∀ offset ∈ handed, (∃ slot < a.totalSlots, offset = int64 (slot * a.slotSize)) ∧
      offset + a.slotSize ≤ max (20 : ℕ) a.slotSize := by
  have hserved : Served 20 0 _ _ := .alloc .create 8 (by decide)
  exact ⟨_,_,hserved,by decide,capacity_of_served hserved (by decide) (by decide) (by decide)⟩

/-- A file that is smaller than a slot still has one. -/
theorem not_capacity_of_served : ¬ ∀ totalBytes slotSize : ℕ, totalBytes < 2^64 → 0 < slotSize →
    slotSize < 2^32 → (create totalBytes slotSize).totalSlots = totalBytes / slotSize ∧
      ∀ a handed, Served totalBytes slotSize a handed →
        ∀ offset ∈ handed, offset + a.slotSize ≤ totalBytes := by
  intro h
  have hslots := (h 4 8 (by decide) (by decide) (by decide)).1
  revert hslots
  decide

end SlotAllocator

end FalconKV
