import FalconKV.Store.RejectedBatches

/-! # When a batch ends like its puts

From a store that has room, `BatchPut` and the puts of its items in list order are both
functions on images as long as nothing is reclaimed for a rejected size, and the functions
are compared in `Store.ImageBatches`. Batches that start with rejected sizes are compared in
`Store.RejectedBatches`.
-/
namespace FalconKV
open AtomicCalls

namespace Image
variable {x : Image} {items : List PutItem}

end Image

namespace Store
variable {cfg : StoreConfig} {s t t' : Store} {items : List PutItem}
  {results answers : List StorePutResult}

/-- A store on which no operation is running, after any operations. -/
def AtRest (s : Store) : Prop := ∃ lost, Quiescent lost s

theorem atRest_of_serialRun (hcap : cfg.capacityBytes < 2^63)
    (h : SerialRun cfg (fun _ _ _ _ => True) s) : s.AtRest := by
  obtain ⟨⟨lost,hbooks⟩,htracked⟩ := settled_of_serialRun hcap h
  exact ⟨lost,hbooks,htracked⟩

/-- In a store without records every key is absent. -/
theorem Spent.absent (h : s.Spent) (hs : s.index.Tracked) (item : PutItem) :
    s.image.absent item = true := by
  have hnone : s.index.find item.key = none := by
    by_contra hsome
    have hmem := (hs.linked item.key).mpr (Option.isSome_iff_ne_none.mpr hsome)
    have hcold := RecencyList.mem_coldest.mpr hmem
    rw [h.2] at hcold
    cases hcold
  simp [Image.absent, image, entry, hnone]

structure Uniform (s : Store) (items : List PutItem) : Prop where
  data : ∀ item ∈ s.image.absents items, item.HasData
  agrees : s.image.Agrees items

/-- A batch whose first size is rejected: the keys that are present come first, no size is rejected
after one that is not, and what is not rejected has data and a key of its own, in a store that
knows its slot size and has no record that is larger than its slot. -/
structure Graded (s : Store) (items : List PutItem) : Prop where
  present : items.Pairwise fun y z => s.image.absent y = true → s.image.absent z = true
  sizes : (s.image.absents items).Pairwise fun y z =>
    s.allocator.Rejects z.size → s.allocator.Rejects y.size
  keys : (s.image.absents items).Pairwise fun y z =>
    ¬ s.allocator.Rejects y.size → y.key ≠ z.key
  data : ∀ item ∈ s.image.absents items, ¬ s.allocator.Rejects item.size →
    item.HasData ∧ s.allocator.initialized = true ∧ s.RecordsFit

/-- The first item that needs a slot decides. -/
structure Regular (s : Store) (items : List PutItem) : Prop where
  uniform : ∀ first ∈ (s.image.absents items).head?, ¬ s.allocator.Rejects first.size →
    s.Uniform items
  graded : ∀ first ∈ (s.image.absents items).head?, s.allocator.Rejects first.size → s.Graded items

section
variable (hs : s.AtRest) (hfit : s.image.Fit items)
include hs hfit

end

end Store

open Release Store

end FalconKV
