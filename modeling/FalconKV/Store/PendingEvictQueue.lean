import Mathlib.Algebra.Order.Group.Multiset
import FalconKV.Common.Status

/-! # Slots that wait for their grace period -/
namespace FalconKV

structure EvictEntry where
  key : Key
  offset : ℕ
  allocSize : ℕ
  enqueueTimeMs : ℕ
  deriving DecidableEq, Repr

structure PendingEvictQueue where
  gracePeriodMs : ℕ
  entries : List EvictEntry
  deriving DecidableEq, Repr

namespace PendingEvictQueue

def create (gracePeriodMs : ℕ) : PendingEvictQueue := ⟨gracePeriodMs,[]⟩

def enqueue (q : PendingEvictQueue) (key : Key) (offset allocSize now : ℕ) : PendingEvictQueue :=
  { q with entries := q.entries ++ [⟨key,offset,allocSize,now⟩] }

def expired (q : PendingEvictQueue) (now : ℕ) (e : EvictEntry) : Bool :=
  decide (q.gracePeriodMs ≤ subU64 now e.enqueueTimeMs)

def takeExpired (q : PendingEvictQueue) (now : ℕ) : List EvictEntry × PendingEvictQueue :=
  (q.entries.filter (q.expired now),
    { q with entries := q.entries.filter fun e => !q.expired now e })

def takeAll (q : PendingEvictQueue) : List EvictEntry × PendingEvictQueue :=
  (q.entries,{ q with entries := [] })

variable {q : PendingEvictQueue}

/-- The offsets of the slots in the queue. -/
def offsets (q : PendingEvictQueue) : Multiset ℕ := (q.entries.map EvictEntry.offset : List ℕ)

@[simp] theorem offsets_create (g : ℕ) : (create g).offsets = 0 := rfl

theorem offsets_enqueue (key : Key) (offset allocSize now : ℕ) :
    (q.enqueue key offset allocSize now).offsets = {offset} + q.offsets := by
  rw [offsets, enqueue, List.map_append, ← Multiset.coe_add, add_comm]
  rfl

theorem offsets_takeExpired (now : ℕ) :
    q.offsets = ((q.takeExpired now).1.map EvictEntry.offset : List ℕ) +
      (q.takeExpired now).2.offsets := by
  have h := Multiset.filter_add_not (fun e => q.expired now e = true) (q.entries : Multiset EvictEntry)
  have h' := congrArg (Multiset.map EvictEntry.offset) h
  rw [Multiset.map_add] at h'
  simpa [offsets, takeExpired] using h'.symm

theorem offsets_takeAll :
    q.offsets = (q.takeAll.1.map EvictEntry.offset : List ℕ) + q.takeAll.2.offsets := by
  simp [offsets, takeAll]

end PendingEvictQueue

end FalconKV
