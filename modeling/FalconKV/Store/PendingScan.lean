import FalconKV.Store.PendingEvictQueue

/-! # The locked scan of the queue, in place

The scan moves what has expired out of the vector and what has not to its front, then
drops the tail. A moved-from string may hold anything, and an entry that stays where it is
is moved onto itself: its key is lost, its numbers are not.
-/
namespace FalconKV

namespace EvictEntry

/-- What is left of an entry that was moved from; `left` is what becomes of its string. -/
def movedFrom (left : Key → Key) (e : EvictEntry) : EvictEntry := { e with key := left e.key }

/-- Offset, size and time of an entry. -/
def unkeyed (e : EvictEntry) : ℕ × ℕ × ℕ := (e.offset,e.allocSize,e.enqueueTimeMs)

@[simp] theorem unkeyed_movedFrom (left : Key → Key) (e : EvictEntry) :
    (e.movedFrom left).unkeyed = e.unkeyed := rfl

end EvictEntry

/-- The vector in the course of a scan, the end of its kept part, and `to_free`. -/
structure Scan where
  entries : List EvictEntry
  keepFrom : ℕ
  toFree : List EvictEntry
  deriving DecidableEq, Repr

namespace PendingEvictQueue

/-- One iteration. The kept entry is written first and its source is left moved from, which
are one and the same element when nothing has expired before. -/
def scanEntry (q : PendingEvictQueue) (left : Key → Key) (now : ℕ) (s : Scan) (i : ℕ) : Scan :=
  match s.entries[i]? with
  | none => s
  | some e =>
    if q.expired now e then
      { s with entries := s.entries.set i (e.movedFrom left), toFree := s.toFree ++ [e] }
    else
      { s with
        entries := (s.entries.set s.keepFrom e).set i (e.movedFrom left)
        keepFrom := s.keepFrom + 1 }

def scanUpTo (q : PendingEvictQueue) (left : Key → Key) (now : ℕ) (i : ℕ) : Scan :=
  (List.range i).foldl (q.scanEntry left now) ⟨q.entries,0,[]⟩

/-- The scan under the lock: `to_free`, and the queue cut down to what was kept. -/
def scan (q : PendingEvictQueue) (left : Key → Key) (now : ℕ) : List EvictEntry × PendingEvictQueue :=
  let s := q.scanUpTo left now q.entries.length
  (s.toFree,{ q with entries := s.entries.take s.keepFrom })

/-- Writing an element `k ≤ i` and then element `i`, with values that agree, adds the value to
the first `k` elements. -/
theorem take_set_set {α : Type} {l : List α} {k i : ℕ} (hk : k ≤ i) (hi : i < l.length) (x : α) :
    ((l.set k x).set i x).take (k + 1) = l.take k ++ [x] := by
  have hlast : ((l.set k x).set i x)[k]? = some x := by
    rcases Nat.lt_or_eq_of_le hk with hlt | rfl
    · rw [List.getElem?_set_ne (by omega), List.getElem?_set_self (by omega)]
    · rw [List.getElem?_set_self (by rwa [List.length_set])]
  rw [List.take_add_one, hlast, List.take_set_of_le hk, List.take_set_of_le le_rfl]
  rfl

structure Scanned (q : PendingEvictQueue) (now i : ℕ) (s : Scan) : Prop where
  rest : s.entries.drop i = q.entries.drop i
  freed : s.toFree = (q.entries.take i).filter (q.expired now)
  bound : s.keepFrom ≤ i
  kept : (s.entries.take s.keepFrom).map EvictEntry.unkeyed =
    ((q.entries.take i).filter fun e => !q.expired now e).map EvictEntry.unkeyed

variable {q : PendingEvictQueue} {now i : ℕ} {s : Scan} {left : Key → Key}

theorem Scanned.step (h : Scanned q now i s) (hi : i < q.entries.length) :
    Scanned q now (i + 1) (q.scanEntry left now s i) := by
  have hlen : i < s.entries.length := by
    have hdrop := congrArg List.length h.rest
    rw [List.length_drop, List.length_drop] at hdrop
    omega
  -- the loop has not written to entry `i` yet
  have hget : s.entries[i]? = some q.entries[i] := by
    have hhead := congrArg List.head? h.rest
    rw [List.head?_drop, List.head?_drop] at hhead
    rw [hhead, List.getElem?_eq_getElem hi]
  have hrest : s.entries.drop (i + 1) = q.entries.drop (i + 1) := by
    rw [← List.drop_drop, ← List.drop_drop, h.rest]
  have htake : q.entries.take (i + 1) = q.entries.take i ++ [q.entries[i]] := by
    rw [List.take_add_one, List.getElem?_eq_getElem hi, Option.toList_some]
  have hbound := h.bound
  unfold scanEntry
  rw [hget]
  dsimp only
  cases hexp : q.expired now q.entries[i] with
  | true =>
    rw [if_pos rfl]
    constructor
    · rw [List.drop_set_of_lt (Nat.lt_succ_self i), hrest]
    · rw [htake, List.filter_append, ← h.freed]
      simp [hexp]
    · exact hbound.trans (Nat.le_succ i)
    · rw [htake, List.filter_append, List.take_set_of_le hbound, h.kept]
      simp [hexp]
  | false =>
    rw [if_neg Bool.false_ne_true]
    constructor
    · rw [List.drop_set_of_lt (Nat.lt_succ_self i), List.drop_set_of_lt (Nat.lt_succ_of_le hbound), hrest]
    · rw [htake, List.filter_append, ← h.freed]
      simp [hexp]
    · exact Nat.succ_le_succ hbound
    · have hfront := take_set_set (l := s.entries.map EvictEntry.unkeyed) hbound
        (by rwa [List.length_map]) q.entries[i].unkeyed
      rw [htake, List.filter_append, List.map_append, ← h.kept, List.map_take, List.map_set,
        List.map_set, EvictEntry.unkeyed_movedFrom, hfront, List.map_take]
      simp [hexp]

theorem scanned_upTo (hi : i ≤ q.entries.length) : Scanned q now i (q.scanUpTo left now i) := by
  induction i with
  | zero => exact ⟨rfl,by simp [scanUpTo],le_rfl,by simp [scanUpTo]⟩
  | succ i ih =>
    have hlast : q.scanUpTo left now (i + 1) = q.scanEntry left now (q.scanUpTo left now i) i := by
      rw [scanUpTo, List.range_succ, List.foldl_append]
      rfl
    rw [hlast]
    exact (ih (Nat.le_of_succ_le hi)).step (by omega)

/-- The scan frees what has expired, with its keys. -/
theorem scan_fst (left : Key → Key) (now : ℕ) : (q.scan left now).1 = (q.takeExpired now).1 := by
  have hall : Scanned q now q.entries.length (q.scanUpTo left now q.entries.length) :=
    scanned_upTo le_rfl
  have h := hall.freed
  rwa [List.take_length] at h

/-- What it leaves is the rest, in its order and with its numbers. -/
theorem scan_snd (left : Key → Key) (now : ℕ) :
    (q.scan left now).2.entries.map EvictEntry.unkeyed =
      (q.takeExpired now).2.entries.map EvictEntry.unkeyed := by
  have hall : Scanned q now q.entries.length (q.scanUpTo left now q.entries.length) :=
    scanned_upTo le_rfl
  have h := hall.kept
  rwa [List.take_length] at h

@[simp] theorem gracePeriodMs_scan (left : Key → Key) (now : ℕ) :
    (q.scan left now).2.gracePeriodMs = q.gracePeriodMs := rfl

end PendingEvictQueue

end FalconKV
