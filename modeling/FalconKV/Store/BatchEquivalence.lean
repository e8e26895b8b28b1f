import FalconKV.Store.ImageBatches

/-! # A batch and its puts one after the other

On a store that has room for the batch, `BatchPut` is the function on images of
`Store.ImageBatches`, unless it reclaims slots for a first size that is rejected.
-/
namespace FalconKV
open AtomicCalls

namespace StoreOps
open Store

variable {cfg : StoreConfig} {s : Store} {items : List PutItem}

/-- What phase 1 settles for each item when those that need a slot are answered with `slots`. -/
def assigned : List (PutItem × Bool) → List Allocated → List StorePutResult
  | [], _ => []
  | (_,true) :: items, slots => ⟨.OK,0,0⟩ :: assigned items slots
  | (item,false) :: items, [] => outOfSpace item.key :: assigned items []
  | (item,false) :: items, a :: slots =>
    (if a.offset < 0 then outOfSpace item.key else ⟨.OK,a.offset.toNat,a.allocSize⟩) ::
      assigned items slots

theorem image_lookedUp {keys : List Key} {t : Store} (h : LookedUp keys s t) :
    t.image = s.image := by
  have hentry : t.entry = s.entry := funext h.records.find
  rw [image, image, hentry, h.rest]

end StoreOps

end FalconKV
