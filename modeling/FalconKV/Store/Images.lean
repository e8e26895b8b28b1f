import FalconKV.Store.SameKey
import FalconKV.Store.SlotSequences

/-! # Stores up to access times

An image of a store leaves out when its records were last used, and in which order. As long as
no slot has to be reclaimed, `Put` is a function on images.
-/
namespace FalconKV
open AtomicCalls

structure Image where
  records : Key → Option StoreKeyRecord
  allocator : SlotAllocator
  pending : PendingEvictQueue
  file : Bytes

def Store.image (s : Store) : Image := ⟨s.entry,s.allocator,s.pending,s.file⟩

namespace Image

def absent (x : Image) (item : PutItem) : Bool := (x.records item.key).isNone

def write (x : Image) (w : PutItem × Allocated) : Image :=
  { x with file := overwrite x.file w.2.offset.toNat (w.1.data.getD fun _ => 0) w.1.size }

def record (x : Image) (w : PutItem × Allocated) : Image :=
  { x with
    records := Function.update x.records w.1.key
      (some (StoreOps.committedRecord w.1 w.2.offset.toNat w.2.allocSize 0)) }

def commit (x : Image) (w : PutItem × Allocated) : Image := (x.write w).record w

/-- Store `w.1` in the slot that the allocator granted when it became `a`. -/
def store (x : Image) (a : SlotAllocator) (w : PutItem × Allocated) : Image :=
  { x with allocator := a }.commit w

def put (x : Image) (item : PutItem) : Bool × Image :=
  if x.absent item then
    if (x.allocator.alloc item.size).1.offset < 0 then
      (false,{ x with allocator := (x.allocator.alloc item.size).2 })
    else (true,x.store (x.allocator.alloc item.size).2 (item,(x.allocator.alloc item.size).1))
  else (true,x)

def puts (x : Image) : List PutItem → List Bool × Image
  | [] => ([],x)
  | item :: items => ((x.put item).1 :: ((x.put item).2.puts items).1,((x.put item).2.puts items).2)

/-- The bytes under the records. -/
def contents (x : Image) : KeyBindings :=
  fun key => (x.records key).map fun rec => bytesOf (fun i => x.file (rec.offset + i)) rec.size

/-- The items of a batch whose keys are absent. -/
def absents (x : Image) (items : List PutItem) : List PutItem := items.filter x.absent

/-- The allocator once it knows a slot size, if the batch needs slots. -/
def slotsFor (x : Image) (items : List PutItem) : SlotAllocator :=
  match x.absents items with
  | [] => x.allocator
  | first :: _ => x.allocator.lazyInit first.size

def accepts (x : Image) (item : PutItem) : Bool := x.allocator.sizeOk item.size

def HasRoom (x : Image) (items : List PutItem) : Prop :=
  (x.absents items).length ≤ (x.slotsFor items).available

end Image

/-- A `Put` of the item can write. -/
def PutItem.HasData (item : PutItem) : Prop := item.data.isSome = true ∧ 0 < item.size

namespace Image

structure Fit (x : Image) (items : List PutItem) : Prop where
  exact : x.allocator.Exact
  room : x.HasRoom items
  data : ∀ item ∈ x.absents items, item.HasData

variable {x : Image} {item : PutItem} {items : List PutItem} {w : PutItem × Allocated}

theorem absents_of_present (h : x.absent item = false) :
    x.absents (item :: items) = x.absents items := List.filter_cons_of_neg (by simp [h])

theorem absents_of_absent (h : x.absent item = true) :
    x.absents (item :: items) = item :: x.absents items := List.filter_cons_of_pos h

theorem put_of_present (h : x.absent item = false) : x.put item = (true,x) := by simp [put, h]

theorem slotsFor_of_initialized (hi : x.allocator.initialized = true) :
    x.slotsFor items = x.allocator := by
  unfold slotsFor
  split
  · rfl
  · exact SlotAllocator.lazyInit_of_initialized _ hi

theorem absent_store (a : SlotAllocator) : (x.store a w).absent item =
    (x.absent item && decide (item.key ≠ w.1.key)) := by
  by_cases hk : item.key = w.1.key
  · simp [store, commit, record, absent, hk]
  · simp [store, commit, record, write, absent, hk]

inductive Outcome (x : Image) (item : PutItem) (items : List PutItem) : Prop
  | rejected (hi : x.allocator.initialized = true) (hok : x.accepts item = false)
      (hput : x.put item = (false,x))
  | stored (o : ℕ) (a : SlotAllocator)
      (hok : (x.allocator.lazyInit item.size).sizeOk item.size = true)
      (he : x.allocator.alloc item.size = (⟨o,(x.allocator.lazyInit item.size).slotSize⟩,a))
      (hput : x.put item = (true,x.store a (item,⟨o,(x.allocator.lazyInit item.size).slotSize⟩)))
      (hexact : a.Exact) (hshape : (x.allocator.lazyInit item.size).SameShape a)
      (hused : a.usedSlots = x.allocator.usedSlots + 1)
      (hroom : (x.absents items).length ≤ a.available)

theorem Fit.outcome (h : x.Fit (item :: items)) (habs : x.absent item = true) :
    x.Outcome item items := by
  have habsents : x.absents (item :: items) = item :: x.absents items := absents_of_absent habs
  have hpos : 0 < item.size := (h.data item (by simp [habsents])).2
  have hinit := x.allocator.lazyInit_initialized item.size
  have hroom : (x.absents items).length + 1 ≤ (x.allocator.lazyInit item.size).available := by
    have hroom := h.room
    rw [HasRoom, slotsFor, habsents] at hroom
    simpa using hroom
  cases hok : (x.allocator.lazyInit item.size).sizeOk item.size with
  | true =>
    obtain ⟨hexact,hsame⟩ := h.exact.lazyInit (.inr hpos)
    obtain ⟨o,a,he,hexact,hshape,havail,hused⟩ := hexact.alloc hinit hok (by omega)
    rw [← SlotAllocator.alloc_lazyInit hpos] at he
    have hneg : ¬ ((o : ℤ) < 0) := by omega
    refine .stored o a hok he ?_ hexact hshape (by omega) (by omega)
    simp [put, habs, he, hneg]
  | false =>
    have hi : x.allocator.initialized = true := SlotAllocator.initialized_of_rejected hok
    rw [SlotAllocator.lazyInit_of_initialized _ hi] at hok
    have hr : x.allocator.Rejects item.size := .inr ⟨hi,hok⟩
    refine .rejected hi hok ?_
    simp [put, habs, hr.alloc]

/-- Storing an item makes its key present. -/
theorem absents_store (a : SlotAllocator) (w : PutItem × Allocated) :
    (x.store a w).absents items = (x.absents items).filter fun y => y.key ≠ w.1.key := by
  rw [absents, absents, List.filter_filter]
  refine List.filter_congr fun y _ => ?_
  rw [absent_store, Bool.and_comm]

/-- The items that follow can still be stored. -/
theorem Fit.put (h : x.Fit (item :: items)) : (x.put item).2.Fit items := by
  cases habs : x.absent item with
  | false =>
    have hroom := h.room
    have hdata := h.data
    rw [HasRoom, slotsFor, absents_of_present habs] at hroom
    rw [absents_of_present habs] at hdata
    rw [put_of_present habs]
    exact ⟨h.exact,hroom,hdata⟩
  | true =>
    have hdata : ∀ y ∈ x.absents items, y.HasData := fun y hy =>
      h.data y (by rw [absents_of_absent habs]; exact List.mem_cons_of_mem _ hy)
    cases h.outcome habs with
    | rejected hi hok hput =>
      have hroom := h.room
      rw [HasRoom, slotsFor_of_initialized hi, absents_of_absent habs, List.length_cons] at hroom
      rw [hput]
      refine ⟨h.exact,?_,hdata⟩
      rw [HasRoom, slotsFor_of_initialized hi]
      exact Nat.le_of_succ_le hroom
    | stored o a hok he hput hexact hshape hused hroom =>
      rw [hput]
      refine ⟨hexact,?_,fun y hy => ?_⟩
      · have hinit : ∀ w, (x.store a w).allocator.initialized = true :=
          fun _ => hshape.initialized.trans (x.allocator.lazyInit_initialized item.size)
        rw [HasRoom, slotsFor_of_initialized (hinit _), absents_store]
        exact (List.length_filter_le _ _).trans hroom
      · rw [absents_store] at hy
        exact hdata y (List.mem_filter.mp hy).1

end Image

/-- No slot waits and no record is there. -/
def Store.Spent (s : Store) : Prop := s.pending.entries = [] ∧ s.index.lru.coldest = []

namespace StoreOps
open Store

variable {cfg : StoreConfig} {s : Store} {size : ℕ}

def Undisturbed (s : Store) (accepted : List Bool) (answers : List StorePutResult) : Prop :=
  (∀ ok ∈ accepted, ok = true) ∨ (∀ r ∈ answers, r.status.isOk = true) ∨
    (s.Spent ∧ accepted.Pairwise fun ok ok' => ok = true → ok' = true)

end StoreOps

end FalconKV
