import FalconKV.Store.ImageBatches

/-! # Slots that puts take

Where all writes are full and there is room, an item of an accepted size takes at most one
slot. A rejected one takes none, and gives slots back if there is a record to evict.
-/
namespace FalconKV
open AtomicCalls

namespace Store
variable {cfg : StoreConfig} {s t : Store} {lost : Multiset ℕ} {item : PutItem}
  {items : List PutItem} {r : StorePutResult}

structure Quiescent (lost : Multiset ℕ) (s : Store) : Prop where
  books : s.Books 0 lost
  tracked : s.index.Tracked

theorem keeps_quiescent (lost : Multiset ℕ) :
    Keeps storeMachine custody (fun s op => s.wellTimed op = true)
      fun _ s held => Books s held lost ∧ s.index.Tracked where
  guar := by
    intro tr s op c r s' held h hok hs
    exact h.1.guar (Bool.and_eq_true_iff.mp hok).1 hs
  step := by
    intro tr i s op c r s' used made rest h hok hs hr
    have hstep := h.1.step hs hr
    rw [overwritten_of_keyAbsent (Bool.and_eq_true_iff.mp hok).2, zero_add] at hstep
    exact ⟨hstep,tracked_step h.2 hs hr⟩

theorem Quiescent.put (h : Quiescent lost s)
    (he : Exec obliging (fun _ _ => True) (StoreOps.put cfg item) s r t) : Quiescent lost t := by
  have hsolo : Solo True False _ (StoreOps.put cfg item) s := StoreOps.solo_put item h.books.sound
  have hcalls : Exec storeMachine (fun s op => s.wellTimed op = true) _ s r t :=
    (he.of_under.of_under.of_wp hsolo).1.ok_mono fun _ _ hok =>
      Bool.and_eq_true_iff.mpr ⟨hok.1.1,hok.1.2.1 trivial⟩
  obtain ⟨g,rfl,hbooks,htracked⟩ :=
    exec_uses (keeps_quiescent lost) (StoreOps.discharges_put item) ⟨h.books,h.tracked⟩ hcalls
  exact ⟨hbooks,htracked⟩

theorem Quiescent.exact (h : Quiescent lost s) : s.allocator.Exact := ⟨h.books.wf,h.books.used⟩

theorem Quiescent.used_eq (h : Quiescent lost s) : s.allocator.usedSlots =
    s.index.lru.coldest.length + s.pending.entries.length + lost.card := by
  have hcount := h.books.used_eq
  simp only [StoreMetaIndex.offsets, Multiset.card_map, h.tracked.linked.card_extents,
    PendingEvictQueue.offsets, Multiset.coe_card, List.length_map, Multiset.card_zero] at hcount
  omega

structure Costs (n : ℕ) (s t : Store) : Prop where
  shape : s.allocator.SameShape t.allocator
  used : t.allocator.usedSlots ≤ s.allocator.usedSlots + n

theorem available_eq (h : Quiescent lost s) :
    s.allocator.available + s.allocator.usedSlots = s.allocator.totalSlots := by
  have hused := h.books.used
  have hnext := h.books.wf.next_le
  simp only [SlotAllocator.available]
  omega

theorem Costs.available {n : ℕ} (hc : Costs n s t) (hs : Quiescent lost s) (ht : Quiescent lost t) :
    s.allocator.available ≤ t.allocator.available + n := by
  have hbefore := available_eq hs
  have hafter := available_eq ht
  have hused := hc.used
  rw [hc.shape.totalSlots] at hafter
  omega

end Store

end FalconKV
