import FalconKV.Store.Serial

/-! # No slot is lost

Operations run one after the other, and no batch lists a key twice that it has to
insert. Then every slot of the data file is owned by one record, waits in the pending
queue once, or can be allocated.
-/
namespace FalconKV
open AtomicCalls

namespace Store

variable {cfg : StoreConfig} {s s' : Store}

/-- No insertion overwrites a record: the batch lists no absent key twice, or the record
is absent anyhow when it is inserted. -/
abbrev insertsAbsent : SerialCondition := orElse (fun s op => op.DistinctAbsent s) keyAbsent

theorem exec_wellTimed {op : StoreOp} {reply : StoreReply} (hs : s.index.Sound)
    (he : Exec storeMachine (insertsAbsent op s) (op.run cfg) s reply s') :
    Exec storeMachine (fun t call => t.wellTimed call = true) (op.run cfg) s reply s' := by
  refine (he.of_wp (StoreOps.solo_run op hs)).1.ok_mono ?_
  rintro t call ⟨⟨hcurrent,habsent,-⟩,hcond⟩
  exact Bool.and_eq_true_iff.mpr ⟨hcurrent,hcond.elim habsent id⟩

/-- An operation that runs alone gives back every slot that it does not put to use. -/
theorem Books.serialStep (h : Books s 0 0) (hs : SerialStep cfg insertsAbsent s s') :
    Books s' 0 0 := by
  obtain ⟨op,reply,he⟩ := hs
  have hdischarge : Discharges (op.run cfg) 0 := StoreOps.discharges_run op
  obtain ⟨g,rfl,hbooks⟩ := exec_uses keeps_books hdischarge h (exec_wellTimed h.sound he)
  exact hbooks

theorem books_of_serialRun (hcap : cfg.capacityBytes < 2^63)
    (h : SerialRun cfg insertsAbsent s) : Books s 0 0 := by
  induction h with
  | refl => exact books_init hcap
  | tail _ hstep ih => exact ih.serialStep hstep

end Store

namespace Store

def recordsAt (s : Store) (slot : ℕ) : ℕ := s.index.offsets.count (slot * s.allocator.slotSize)

def pendingAt (s : Store) (slot : ℕ) : ℕ := s.pending.offsets.count (slot * s.allocator.slotSize)

def freeAt (s : Store) (slot : ℕ) : ℕ :=
  s.allocator.freeStack.count slot + if s.allocator.nextSlot ≤ slot then 1 else 0

end Store

/-- Every slot is in one place. -/
structure Conserved (s : Store) : Prop where
  onePlace : ∀ slot < s.allocator.totalSlots, s.recordsAt slot + s.pendingAt slot + s.freeAt slot = 1
  recordSlot : ∀ o ∈ s.index.offsets, ∃ slot < s.allocator.totalSlots, slot * s.allocator.slotSize = o
  pendingSlot : ∀ o ∈ s.pending.offsets,
    ∃ slot < s.allocator.totalSlots, slot * s.allocator.slotSize = o
  used : s.allocator.usedSlots = s.index.index.entries.length + s.pending.entries.length

theorem conserved_of_serialRun {cfg : StoreConfig} {s : Store} (hcap : cfg.capacityBytes < 2^63)
    (h : SerialRun cfg Store.insertsAbsent s) : Conserved s := by
  have hbooks := Store.books_of_serialRun hcap h
  have hbalance := hbooks.balance
  simp only [Multiset.map_zero, add_zero] at hbalance
  have hslot : ∀ o ∈ s.allocator.handedOut,
      ∃ slot < s.allocator.totalSlots, slot * s.allocator.slotSize = o := by
    intro o ho
    obtain ⟨slot,hs,rfl⟩ := SlotAllocator.mem_handedOut.mp ho
    exact ⟨slot,hs.trans_le hbooks.wf.next_le,rfl⟩
  refine ⟨fun slot hs => ?_,fun o ho => hslot o ?_,fun o ho => hslot o ?_,?_⟩
  · have hinit : s.allocator.initialized = true := by
      by_contra hno
      have hempty := (hbooks.wf.empty (by simpa using hno)).2.2.2
      omega
    have hpos := hbooks.wf.pos hinit
    have hcount := congrArg (Multiset.count (slot * s.allocator.slotSize)) hbalance
    rw [Multiset.count_add, Multiset.count_add, SlotAllocator.count_handedOut hpos,
      SlotAllocator.count_spare hpos] at hcount
    rw [Store.recordsAt, Store.pendingAt, Store.freeAt, ← add_assoc, hcount]
    by_cases hnext : slot < s.allocator.nextSlot
    · rw [if_pos hnext, if_neg (not_le.mpr hnext)]
    · rw [if_neg hnext, if_pos (not_lt.mp hnext)]
  · rw [← hbalance]
    simp [ho]
  · rw [← hbalance]
    simp [ho]
  · have hused := hbooks.used_eq
    simpa [StoreMetaIndex.offsets, StoreMetaIndex.extents, PendingEvictQueue.offsets] using hused

open Release

/-- A key is stored and evicted, and a batch of two gets its slot back. -/
theorem conserved_of_serialRun_evicted : ∃ s, SerialRun twoSlots Store.insertsAbsent s ∧
    Conserved s ∧ s.index.index.entries.map Sigma.fst = ["b","a"] := by
  obtain ⟨s,hrun,hs⟩ := Store.serialRun_of_script twoSlots Store.keyAbsent
    (undisturbed [.put "k" (value 1) 8,.evictPass,.batchPut ["a","b"] [value 2,value 3] [8,8]])
    (f := fun s => s.index.index.entries.map Sigma.fst) (v := ["b","a"]) rfl
  have habsent : SerialRun twoSlots Store.insertsAbsent s :=
    Store.serialRun_mono (fun _ _ _ _ => .inr) hrun
  exact ⟨s,habsent,conserved_of_serialRun (by decide) habsent,hs⟩

/-- A batch that lists one absent key twice takes two slots for one record. -/
theorem exists_serialRun_not_conserved : ∃ s, SerialRun twoSlots (fun _ _ _ _ => True) s ∧
    s.allocator.usedSlots = 2 ∧ s.index.index.entries.length = 1 ∧ s.pending.entries = [] ∧
    ¬ Conserved s := by
  obtain ⟨s,hrun,hs⟩ := Store.serialRun_of_script twoSlots (fun _ _ => true)
    (undisturbed [.batchPut ["k","k"] [value 1,value 2] [8,8]])
    (f := fun s => (s.allocator.usedSlots,s.index.index.entries.length,s.pending.entries))
    (v := (2,1,[])) rfl
  obtain ⟨hused,hindex,hpending⟩ : s.allocator.usedSlots = 2 ∧ s.index.index.entries.length = 1 ∧
      s.pending.entries = [] := by simpa using hs
  refine ⟨s,Store.serialRun_mono (fun _ _ _ _ _ => trivial) hrun,hused,hindex,hpending,?_⟩
  intro hconserved
  have hcount := hconserved.used
  rw [hused, hindex, hpending] at hcount
  cases hcount

end FalconKV
