import FalconKV.Store.PutCosts

/-! # What rejected sizes evict

Where removals are confirmed, a size that is rejected evicts the cold end of the recency list, as
far as the slot sizes of the records say. An outline of a store has what this depends on.
-/
namespace FalconKV
open AtomicCalls

namespace StoreMetaIndex
variable {m : StoreMetaIndex}

def takenBySize (neededBytes : ℕ) : List ℕ → ℕ → ℕ → ℕ × ℕ
  | [], _, total => (0,total)
  | _, 0, total => (0,total)
  | size :: sizes, maxCount + 1, total =>
    if total < neededBytes then
      ((takenBySize neededBytes sizes maxCount (u32 (total + size))).1 + 1,
        (takenBySize neededBytes sizes maxCount (u32 (total + size))).2)
    else (0,total)

def forcedCount (neededBytes : ℕ) : ℕ → ℕ → List ℕ → ℕ
  | 0, _, _ => 0
  | rounds + 1, total, sizes =>
    if neededBytes ≤ total then 0
    else
      (takenBySize (neededBytes - total) sizes 64 0).1 + forcedCount neededBytes rounds
        (u32 (total + (takenBySize (neededBytes - total) sizes 64 0).2))
        (sizes.drop (takenBySize (neededBytes - total) sizes 64 0).1)

def coldSizes (m : StoreMetaIndex) : List ℕ :=
  (m.lru.coldest.filterMap m.find).map StoreKeyRecord.allocSize

end StoreMetaIndex

namespace StoreOps
open Store StoreMetaIndex

variable {cfg : StoreConfig} {s : Store} {size : ℕ}

def forcedKeys (s : Store) (size : ℕ) : List Key :=
  s.index.lru.coldest.take (forcedCount (s.evictTarget size) 5 0 s.index.coldSizes)

structure Forced (s : Store) (size : ℕ) (a : Allocated) (t : Store) : Prop where
  refused : a = ⟨-1,0⟩
  reclaims : Reclaims s t (forcedKeys s size)
  flushed : t.pending.entries = []
  file : t.file = s.file

end StoreOps

end FalconKV
