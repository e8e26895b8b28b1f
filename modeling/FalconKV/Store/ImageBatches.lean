import FalconKV.Store.Images

/-! # Batches on images

A batch checks all keys before it stores any, and lets the allocator see the size of the first
key only. It does what the puts do one after the other iff no item that needs a slot comes after
one that is stored under its key, and all sizes are accepted if the first one is.
-/
namespace FalconKV
open AtomicCalls

namespace Image
variable {x : Image} {item : PutItem} {items : List PutItem}

def sized (x : Image) (items : List PutItem) : Image := { x with allocator := x.slotsFor items }

/-- The size that the allocator sees when `item` needs a slot: that of the first item that needs
one, if this is accepted. -/
def asked (x : Image) (items : List PutItem) (item : PutItem) : ℕ :=
  match x.absents items with
  | [] => item.size
  | first :: _ => if (x.sized items).accepts first then first.size else item.size

def grants (x : Image) (items : List PutItem) : List Allocated × SlotAllocator :=
  (x.slotsFor items).allocs ((x.absents items).map (x.asked items))

/-- All sizes are accepted if the first one is, and no item that needs a slot has the key of one
that is stored before it. -/
structure Agrees (x : Image) (items : List PutItem) : Prop where
  sizes : ∀ first ∈ (x.absents items).head?, (x.sized items).accepts first = true →
    ∀ item ∈ x.absents items, (x.sized items).accepts item = true
  keys : (x.absents items).Pairwise fun y z => (x.sized items).accepts y = true → y.key ≠ z.key

/-- When sizes agree, each item is judged by its own one. -/
theorem Agrees.asked (h : x.Agrees items) (hitem : item ∈ x.absents items) :
    (x.slotsFor items).sizeOk (x.asked items item) = (x.sized items).accepts item := by
  have hsizes := h.sizes
  unfold Image.asked
  split
  · rfl
  · next first rest hneed =>
    rw [hneed] at hsizes hitem
    split
    · next hok => rw [hsizes first rfl hok item hitem, ← hok, accepts, sized]
    · rfl

theorem initialized_slotsFor (hne : x.absents items ≠ []) :
    (x.slotsFor items).initialized = true := by
  unfold slotsFor
  split
  · next hnil => exact absurd hnil hne
  · exact x.allocator.lazyInit_initialized _

theorem Fit.sized (hfit : x.Fit items) (hne : x.absents items ≠ []) :
    (x.sized items).Fit items := by
  have hexact : (x.slotsFor items).Exact := by
    have hdata := hfit.data
    unfold slotsFor
    split
    · exact hfit.exact
    · next first rest hneed =>
      exact (hfit.exact.lazyInit (.inr (hdata first (by simp [hneed])).2)).1
  refine ⟨hexact,?_,hfit.data⟩
  rw [HasRoom, slotsFor_of_initialized (initialized_slotsFor hne)]
  exact hfit.room

/-- What the allocations of a batch do. -/
theorem Fit.allots (hfit : x.Fit items) (hne : x.absents items ≠ []) :
    (x.slotsFor items).Allots ((x.absents items).map (x.asked items)) := by
  refine (hfit.sized hne).exact.allots (initialized_slotsFor hne) ?_
  rw [List.length_map]
  exact hfit.room

/-- The items that get a slot are those whose sizes the allocator accepts. -/
theorem Fit.answers (hfit : x.Fit items) :
    (x.grants items).1.map (fun r => decide (0 ≤ r.offset)) =
      (x.absents items).map fun item => (x.slotsFor items).sizeOk (x.asked items item) := by
  by_cases hne : x.absents items = []
  · simp [grants, hne, SlotAllocator.allocs]
  · have hanswers := (hfit.allots hne).answers
    rw [List.map_map] at hanswers
    exact hanswers

end Image

end FalconKV
