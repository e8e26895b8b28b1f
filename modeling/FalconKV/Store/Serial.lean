import Mathlib.Logic.Relation
import FalconKV.Store.Release

/-! # Operations that run one at a time

Without interleaving, a candidate list is still current when it is acted on. What can
go wrong is left to two facts about a batch, `DistinctAbsent` and `BatchFits`: under
the one no insertion overwrites a record, under the other every write stays in its slot.
-/
namespace FalconKV
open AtomicCalls

namespace SlotAllocator

/-- The slots that the next allocations can get. -/
def available (a : SlotAllocator) : ℕ := a.freeStack.length + (a.totalSlots - a.nextSlot)

variable {a a' : SlotAllocator} {size : ℕ}

theorem le_slotSize_of_sizeOk (h : a.sizeOk size = true) : size ≤ a.slotSize := by
  unfold sizeOk at h
  split at h
  · exact (beq_iff_eq.mp h).le
  · exact of_decide_eq_true h

def SizeKept (a a' : SlotAllocator) : Prop :=
  a.initialized = true → a'.initialized = true ∧ a'.slotSize = a.slotSize

theorem sizeKept_lazyInit (a : SlotAllocator) (size : ℕ) : a.SizeKept (a.lazyInit size) := by
  intro hi
  rw [lazyInit_of_initialized size hi]
  exact ⟨hi,rfl⟩

theorem alloc_sizes {r : Allocated} (he : a.alloc size = (r,a')) : a.SizeKept a' ∧
    (0 ≤ r.offset → a'.initialized = true ∧ size ≤ a'.slotSize) := by
  unfold alloc at he
  split at he
  · obtain ⟨rfl,rfl⟩ := Prod.mk.inj he
    exact ⟨fun hi => ⟨hi,rfl⟩,fun h => by simp at h⟩
  · dsimp only at he
    have hi : (a.lazyInit size).initialized = true := lazyInit_initialized size
    split at he
    · obtain ⟨rfl,rfl⟩ := Prod.mk.inj he
      exact ⟨sizeKept_lazyInit a size,fun h => by simp at h⟩
    · next hok =>
      have hle := le_slotSize_of_sizeOk (by simpa using hok)
      split at he
      · obtain ⟨rfl,rfl⟩ := Prod.mk.inj he
        exact ⟨sizeKept_lazyInit a size,fun _ => ⟨hi,hle⟩⟩
      · split at he
        · obtain ⟨rfl,rfl⟩ := Prod.mk.inj he
          exact ⟨sizeKept_lazyInit a size,fun _ => ⟨hi,hle⟩⟩
        · obtain ⟨rfl,rfl⟩ := Prod.mk.inj he
          exact ⟨sizeKept_lazyInit a size,fun h => by simp at h⟩

def BatchFits (a : SlotAllocator) : List ℕ → Prop
  | [] => True
  | first :: rest =>
    (a.initialized = true ∨ 0 < first) → (a.lazyInit first).sizeOk first = true →
      ∀ size ∈ (first :: rest).take (min (u32 (first :: rest).length) (a.lazyInit first).available),
        size ≤ (a.lazyInit first).slotSize

theorem batchAlloc_sizes {count n : ℕ} {offs : List ℤ}
    (he : a.batchAlloc size count = ((offs,n),a')) : a.SizeKept a' ∧
    (offs ≠ [] → (a.initialized = true ∨ 0 < size) ∧ (a.lazyInit size).sizeOk size = true ∧
      offs.length ≤ min count (a.lazyInit size).available ∧ a'.initialized = true ∧
      a'.slotSize = (a.lazyInit size).slotSize) := by
  unfold batchAlloc at he
  split at he
  · obtain ⟨⟨rfl,rfl⟩,rfl⟩ := (Prod.mk.inj he).imp_left Prod.mk.inj
    exact ⟨fun hi => ⟨hi,rfl⟩,fun h => absurd rfl h⟩
  · split at he
    · obtain ⟨⟨rfl,rfl⟩,rfl⟩ := (Prod.mk.inj he).imp_left Prod.mk.inj
      exact ⟨fun hi => ⟨hi,rfl⟩,fun h => absurd rfl h⟩
    · next hz =>
      have hs := SlotAllocator.initialized_or_pos hz
      dsimp only at he
      split at he
      · obtain ⟨⟨rfl,rfl⟩,rfl⟩ := (Prod.mk.inj he).imp_left Prod.mk.inj
        exact ⟨sizeKept_lazyInit a size,fun h => absurd rfl h⟩
      · next hok =>
        obtain ⟨⟨rfl,rfl⟩,rfl⟩ := (Prod.mk.inj he).imp_left Prod.mk.inj
        refine ⟨sizeKept_lazyInit a size,fun _ => ⟨hs,by simpa using hok,?_,
          lazyInit_initialized size,rfl⟩⟩
        simp only [available, List.length_map, List.length_append, List.length_take,
          List.length_range']
        omega

end SlotAllocator

namespace Store

def writeFits (s : Store) : StoreCall → Bool
  | .pwrite _ _ size => decide (size ≤ s.allocator.slotSize)
  | .uringWrite _ _ size => decide (size ≤ s.allocator.slotSize)
  | _ => true

/-- What is asked of the calls of an operation that runs alone; `D` and `F` say whether
insertions must not overwrite and writes must fit. -/
def SerialOk (D F : Prop) (s : Store) (op : StoreCall) : Prop :=
  s.snapshotCurrent op = true ∧ (D → s.keyAbsent op = true) ∧ (F → s.writeFits op = true)

structure Shrinks (s s' : Store) : Prop where
  sound : s.index.Sound → s'.index.Sound
  absent : ∀ key, s.index.find key = none → s'.index.find key = none
  sizes : s.allocator.SizeKept s'.allocator

theorem Shrinks.refl (s : Store) : Shrinks s s := ⟨id,fun _ => id,fun hi => ⟨hi,rfl⟩⟩

theorem Shrinks.trans {s₁ s₂ s₃ : Store} (h : Shrinks s₁ s₂) (h' : Shrinks s₂ s₃) :
    Shrinks s₁ s₃ := by
  refine ⟨h'.sound ∘ h.sound,fun key hk => h'.absent key (h.absent key hk),fun hi => ?_⟩
  obtain ⟨hi₂,hs₂⟩ := h.sizes hi
  obtain ⟨hi₃,hs₃⟩ := h'.sizes hi₂
  exact ⟨hi₃,hs₃.trans hs₂⟩

/-- A size that fits keeps fitting. -/
theorem Shrinks.fits {s s' : Store} {size : ℕ} (h : Shrinks s s')
    (hs : s.allocator.initialized = true ∧ size ≤ s.allocator.slotSize) :
    s'.allocator.initialized = true ∧ size ≤ s'.allocator.slotSize := by
  obtain ⟨hi,heq⟩ := h.sizes hs.1
  exact ⟨hi,heq ▸ hs.2⟩

theorem free_kept (a : SlotAllocator) (offset : ℤ) (n : ℕ) : a.SizeKept (a.free offset n) := by
  intro hi
  rw [SlotAllocator.free_frame]
  exact ⟨hi,rfl⟩

variable {s s' : Store} {op : StoreCall} {c : StoreChoice} {r : op.Res}

theorem sizeKept_step (hs : s.step op c = some (r,s')) : s.allocator.SizeKept s'.allocator := by
  cases op with
  | alloc size =>
    cases hs
    exact (SlotAllocator.alloc_sizes (r := (s.allocator.alloc size).1) rfl).1
  | batchAlloc size count =>
    cases hs
    exact (SlotAllocator.batchAlloc_sizes (n := (s.allocator.batchAlloc size count).1.2) rfl).1
  | free offset n =>
    cases hs
    exact free_kept s.allocator offset n
  | pwrite | uringWrite | pread =>
    obtain ⟨file,rfl⟩ := onFile_frame hs rfl
    exact fun hi => ⟨hi,rfl⟩
  | _ =>
    cases hs
    exact fun hi => ⟨hi,rfl⟩

theorem shrinks_step (hput : op.isPut = false) (hs : s.step op c = some (r,s')) :
    Shrinks s s' := by
  have hsize := sizeKept_step hs
  cases index_step hs with
  | put key record data h => cases hput
  | remove k snapshot h =>
    refine ⟨fun hsound => ?_,fun key hk => ?_,hsize⟩
    · rw [h]
      exact hsound.remove
    · rw [h, StoreMetaIndex.find_remove]
      split
      · rfl
      · exact hk
  | keep _ _ h => exact ⟨h.sound,fun _ hk => h.find_eq_none hk,hsize⟩

variable {D F : Prop} {α β : Type} {post : β → Store → Prop}

abbrev Solo (D F : Prop) (post : α → Store → Prop) (p : StoreProg α) (s : Store) : Prop :=
  wp storeMachine (SerialOk D F) post p s

def plain : StoreCall → Bool
  | .indexRemove _ (some _) | .indexPut .. | .pwrite .. | .uringWrite .. => false
  | _ => true

theorem serialOk_of_plain (h : plain op = true) : SerialOk D F s op := by
  cases op with
  | indexRemove key snapshot =>
    cases snapshot with
    | none => exact ⟨rfl,fun _ => rfl,fun _ => rfl⟩
    | some snapshot => cases h
  | indexPut | pwrite | uringWrite => cases h
  | _ => exact ⟨rfl,fun _ => rfl,fun _ => rfl⟩

/-- One call, with what it does. -/
theorem solo_invoke {k : op.Res → StoreProg β} (hok : SerialOk D F s op)
    (h : ∀ (c : StoreChoice) r s', s.step op c = some (r,s') → Solo D F post (k r) s') :
    Solo D F post (invoke op >>= k) s := ⟨hok,h⟩

theorem solo_call {k : op.Res → StoreProg β} (hok : SerialOk D F s op) (hput : op.isPut = false)
    (h : ∀ r s', Shrinks s s' → Solo D F post (k r) s') : Solo D F post (invoke op >>= k) s :=
  solo_invoke hok fun _ r s' hs => h r s' (shrinks_step hput hs)

theorem solo_plain {k : op.Res → StoreProg β} (hop : plain op = true)
    (h : ∀ r s', Shrinks s s' → Solo D F post (k r) s') :
    Solo D F post (invoke op >>= k) s := by
  refine solo_call (serialOk_of_plain hop) ?_ h
  cases op with
  | indexPut => cases hop
  | _ => rfl

/-- From a program that only shrinks `s`, go on with what it leaves. -/
theorem solo_then {p : StoreProg α} {k : α → StoreProg β}
    (hp : Solo D F (fun _ s' => Shrinks s s') p s)
    (h : ∀ a s', Shrinks s s' → Solo D F post (k a) s') : Solo D F post (p >>= k) s :=
  wp_bind.mpr (wp_mono hp h)

/-- What has shrunk so far goes on shrinking. -/
theorem solo_trans {p : StoreProg α} {s₀ : Store} (h₀ : Shrinks s₀ s)
    (h : Solo D F (fun _ s' => Shrinks s s') p s) : Solo D F (fun _ s' => Shrinks s₀ s') p s :=
  wp_mono h fun _ _ => h₀.trans

end Store

namespace StoreOps
open Store

variable {cfg : StoreConfig} {D F : Prop} {α : Type} {s : Store}

theorem solo_free {offset : ℤ} {n : ℕ} :
    Solo D F (fun _ s' => Shrinks s s') (invoke (.free offset n)) s :=
  solo_plain rfl fun _ _ h => h

theorem solo_frees {γ : Type} (offset : γ → ℤ) (n : γ → ℕ) (xs : List γ) :
    Solo D F (fun _ s' => Shrinks s s')
      (Prog.forEach (fun x => invoke (.free (offset x) (n x))) xs) s :=
  wp_forEach (I := fun _ t => Shrinks s t) (.refl s) fun _ _ _ h => solo_trans h solo_free

theorem solo_freeEntries (entries : List EvictEntry) :
    Solo D F (fun _ s' => Shrinks s s') (freeEntries entries) s :=
  solo_then (solo_frees _ _ entries) fun _ _ h => h

theorem solo_flushExpired : Solo D F (fun _ s' => Shrinks s s') flushExpired s :=
  solo_plain rfl fun _ _ h₁ => solo_trans h₁ <| solo_plain rfl fun entries _ h₂ =>
    solo_trans h₂ (solo_freeEntries entries)

theorem solo_flushAllForced : Solo D F (fun _ s' => Shrinks s s') flushAllForced s :=
  solo_plain rfl fun entries _ h => solo_trans h (solo_freeEntries entries)

/-- The candidates that are left stay current while the others are dropped. -/
theorem solo_dropCandidates {candidates : List StoreKeyRecord}
    (hsnap : s.index.Snapshot candidates) :
    Solo D F (fun _ s' => Shrinks s s') (Prog.forEach dropCandidate candidates) s := by
  refine wp_mono (wp_forEach (I := fun rest t => Shrinks s t ∧ t.index.Snapshot rest)
    ⟨.refl s,hsnap⟩ ?_) fun _ _ h => h.1
  rintro rec rest t ⟨hst,hsnap⟩
  have hfound := hsnap.found rec List.mem_cons_self
  have hcurrent : t.snapshotCurrent (.indexRemove rec.key (some rec)) = true := by
    simp [snapshotCurrent, hfound]
  refine solo_invoke ⟨hcurrent,fun _ => rfl,fun _ => rfl⟩ fun c r t₁ h₁ => ?_
  have hs₁ := hst.trans (shrinks_step rfl h₁)
  have hrest : t₁.index.Snapshot rest := by
    cases h₁
    exact hsnap.tail
  refine solo_invoke (serialOk_of_plain rfl) fun c r t₂ h₂ => ?_
  have hs₂ := hs₁.trans (shrinks_step rfl h₂)
  cases h₂
  exact ⟨hs₂,hrest⟩

/-- The Meta client does not touch the store. -/
theorem solo_notifyRemove (keys : List Key) :
    Solo D F (fun _ s' => s' = s) (notifyRemove cfg keys) s := by
  unfold notifyRemove
  split
  · refine ⟨serialOk_of_plain rfl,fun c r s' hs => ?_⟩
    cases hs
    rfl
  · rfl

theorem solo_evictEntries {candidates : List StoreKeyRecord} (hsnap : s.index.Snapshot candidates) :
    Solo D F (fun _ s' => Shrinks s s') (evictEntries cfg candidates) s := by
  unfold evictEntries
  split
  · exact .refl s
  · refine wp_bind.mpr (wp_mono (solo_notifyRemove _) ?_)
    rintro status s' rfl
    split
    · exact .refl s'
    · exact solo_then (solo_dropCandidates hsnap) fun _ _ h => h

theorem solo_tryEvictBatchLRU (hs : s.index.Sound) :
    Solo D F (fun _ s' => Shrinks s s') (tryEvictBatchLRU cfg) s := by
  refine solo_invoke (serialOk_of_plain rfl) fun c candidates s' h => ?_
  cases h
  split
  · exact .refl s
  · exact solo_evictEntries (hs.getLRUCandidates 16)

theorem solo_forceEvictRounds (neededBytes rounds totalEvicted : ℕ) (hs : s.index.Sound) :
    Solo D F (fun _ s' => Shrinks s s') (forceEvictRounds cfg neededBytes rounds totalEvicted)
      s := by
  induction rounds generalizing totalEvicted s with
  | zero => exact .refl s
  | succ rounds ih =>
    unfold forceEvictRounds
    split
    · exact .refl s
    · refine solo_invoke (serialOk_of_plain rfl) fun c candidates s' h => ?_
      cases h
      split
      · exact .refl s
      · refine wp_bind.mpr (wp_mono (solo_notifyRemove _) ?_)
        rintro status s' rfl
        split
        · exact .refl s'
        · refine solo_then (solo_dropCandidates (hs.getLRUCandidatesBySize _ 64)) fun _ t h => ?_
          exact solo_trans h (ih _ (h.sound hs))

theorem solo_forceEvict (neededBytes : ℕ) (hs : s.index.Sound) :
    Solo D F (fun _ s' => Shrinks s s') (forceEvict cfg neededBytes) s :=
  solo_forceEvictRounds neededBytes 5 0 hs

def GrantedFor (size : ℕ) (s : Store) (a : Allocated) (s' : Store) : Prop :=
  Shrinks s s' ∧
  (0 ≤ a.offset → s'.allocator.initialized = true ∧ size ≤ s'.allocator.slotSize)

theorem GrantedFor.trans {size : ℕ} {s₀ s s' : Store} {a : Allocated} (h₀ : Shrinks s₀ s)
    (h : GrantedFor size s a s') : GrantedFor size s₀ a s' := ⟨h₀.trans h.1,h.2⟩

theorem solo_alloc (size : ℕ) : Solo D F (GrantedFor size s) (invoke (.alloc size)) s := by
  refine solo_invoke (serialOk_of_plain rfl) fun c r s' h => ⟨shrinks_step rfl h,?_⟩
  cases h
  exact (SlotAllocator.alloc_sizes (r := (s.allocator.alloc size).1) rfl).2

/-- A failed allocation is retried. -/
theorem solo_alloc_or (size : ℕ) {retry : StoreProg Allocated}
    (h : ∀ s', Shrinks s s' → Solo D F (GrantedFor size s') retry s') :
    Solo D F (GrantedFor size s)
      (invoke (.alloc size) >>= fun a => if 0 ≤ a.offset then pure a else retry) s := by
  refine wp_bind.mpr (wp_mono (solo_alloc size) fun a s' ha => ?_)
  split
  · exact ha
  · exact wp_mono (h s' ha.1) fun _ _ => GrantedFor.trans ha.1

/-- What has shrunk before an allocation. -/
theorem solo_then_alloc {size : ℕ} {p : StoreProg α} {k : α → StoreProg Allocated}
    (hp : Solo D F (fun _ s' => Shrinks s s') p s)
    (h : ∀ a s', Shrinks s s' → Solo D F (GrantedFor size s') (k a) s') :
    Solo D F (GrantedFor size s) (p >>= k) s :=
  solo_then hp fun a s' hs => wp_mono (h a s' hs) fun _ _ => GrantedFor.trans hs

theorem solo_allocReclaiming (size : ℕ) (hs : s.index.Sound) :
    Solo D F (GrantedFor size s) (allocReclaiming cfg size) s := by
  refine solo_then_alloc solo_flushExpired fun _ s₁ h₁ => solo_alloc_or size fun s₂ h₂ => ?_
  have hs₂ := (h₁.trans h₂).sound hs
  refine solo_plain rfl fun totalBytes s₃ h₃ => ?_
  refine wp_mono ?_ fun _ _ => GrantedFor.trans h₃
  refine solo_then_alloc (solo_forceEvict _ (h₃.sound hs₂)) fun _ s₄ _ => ?_
  refine solo_then_alloc solo_flushExpired fun _ s₅ _ => solo_alloc_or size fun s₆ _ => ?_
  exact solo_then_alloc solo_flushAllForced fun _ s₇ _ => solo_alloc size

theorem solo_write {offset size : ℕ} {data : Option Bytes}
    (hfit : F → size ≤ s.allocator.slotSize) :
    Solo D F (fun _ s' => Shrinks s s') (write offset data size) s := by
  unfold write
  split
  · exact .refl s
  · have hok : SerialOk D F s (.pwrite offset data size) :=
      ⟨rfl,fun _ => rfl,fun hF => decide_eq_true (hfit hF)⟩
    refine solo_call hok rfl fun r s' h => ?_
    split <;> exact h

theorem solo_writeItem {item : WriteItem} (hfit : F → item.size ≤ s.allocator.slotSize) :
    Solo D F (fun _ s' => Shrinks s s') (writeItem cfg item) s := by
  unfold writeItem
  split
  · have hok : SerialOk D F s (.uringWrite item.offset item.data item.size) :=
      ⟨rfl,fun _ => rfl,fun hF => decide_eq_true (hfit hF)⟩
    exact solo_call hok rfl fun r s' h => h
  · exact solo_write hfit

theorem solo_notifyCommit (records : List StoreKeyRecord) :
    Solo D F (fun _ s' => Shrinks s s') (notifyCommit cfg records) s := by
  unfold notifyCommit
  split
  · exact solo_plain rfl fun _ _ h => h
  · exact .refl s

theorem solo_putInto {item : PutItem} {a : Allocated}
    (hfit : item.size ≤ s.allocator.slotSize) (habs : s.index.find item.key = none) :
    Solo D F (fun _ _ => True) (putInto cfg item a) s := by
  refine solo_then (solo_write fun _ => hfit) fun status s₁ h₁ => ?_
  split
  · exact solo_then solo_free fun _ _ _ => trivial
  · refine solo_plain rfl fun now s₂ h₂ => ?_
    have habs₂ : s₂.index.find item.key = none := (h₁.trans h₂).absent _ habs
    have hok : SerialOk D F s₂ (.indexPut item.key
        (committedRecord item a.offset.toNat a.allocSize now) item.data) :=
      ⟨rfl,fun _ => Option.isNone_iff_eq_none.mpr habs₂,fun _ => rfl⟩
    refine solo_invoke hok fun _ _ s₃ _ => ?_
    exact solo_then (solo_notifyCommit _) fun _ _ _ => trivial

/-- The key that `put` did not find is still absent when it inserts it. -/
theorem solo_put (item : PutItem) (hs : s.index.Sound) :
    Solo D F (fun _ _ => True) (put cfg item) s := by
  refine solo_invoke (serialOk_of_plain rfl) fun c found s₁ h => ?_
  have h₁ := shrinks_step rfl h
  split
  · trivial
  · next hnot =>
    have habs : s.index.find item.key = none := by
      cases h
      rw [hs.get_eq] at hnot
      cases hf : s.index.find item.key with
      | none => rfl
      | some rec => simp [hf] at hnot
    refine wp_bind.mpr (wp_mono (solo_alloc_or item.size fun s₂ h₂ =>
      solo_allocReclaiming item.size (h₂.sound (h₁.sound hs))) fun a s' ha => ?_)
    split
    · trivial
    · next hneg =>
      have hsize := (ha.2 (not_lt.mp hneg)).2
      exact solo_putInto hsize (ha.1.absent _ (h₁.absent _ habs))

def absentIn (s : Store) (key : Key) : Bool := (s.index.find key).isNone

structure SameView (s s' : Store) : Prop where
  shrinks : Shrinks s s'
  allocator : s'.allocator = s.allocator
  absent : absentIn s' = absentIn s

theorem solo_present (items : List PutItem) (hs : s.index.Sound) :
    Solo D F (fun present s' => SameView s s' ∧
        present = items.map fun item => !absentIn s item.key)
      (Prog.mapEach (fun item => do
        let found ← invoke (.indexGet item.key)
        pure found.isSome) items) s := by
  refine wp_mono (wp_mapEach (I := fun rest present t => SameView s t ∧
    present ++ rest.map (fun item => !absentIn s item.key) =
      items.map fun item => !absentIn s item.key) ⟨⟨.refl s,rfl,rfl⟩,rfl⟩ ?_) ?_
  · rintro item rest present t ⟨hview,hp⟩
    refine solo_invoke (serialOk_of_plain rfl) fun c found t' h => ?_
    have hshrinks := hview.shrinks.trans (shrinks_step rfl h)
    have hfound : found.isSome = !absentIn s item.key := by
      rw [← hview.absent]
      cases h
      rw [(hview.shrinks.sound hs).get_eq, absentIn]
      cases t.index.find item.key <;> rfl
    have habsent : absentIn t' = absentIn t := by
      cases h
      funext key
      have htime := congrArg Option.isNone (StoreMetaIndex.find_get_timeless
        t.index item.key c.now key)
      simpa [absentIn] using htime
    refine ⟨⟨hshrinks,?_,habsent.trans hview.absent⟩,?_⟩
    · cases h
      exact hview.allocator
    · rw [← hp, hfound]
      simp
  · rintro present t ⟨hview,hp⟩
    exact ⟨hview,by simpa using hp⟩

def Ready (F : Prop) (s : Store) (x : (PutItem × Bool) × StorePutResult) : Prop :=
  toWrite x.2 = true → x.1.2 = false ∧
    (F → s.allocator.initialized = true ∧ x.1.1.size ≤ s.allocator.slotSize)

theorem Ready.shrinks {x : (PutItem × Bool) × StorePutResult} {s s' : Store} (h : Ready F s x)
    (hs : Shrinks s s') : Ready F s' x :=
  fun hw => ⟨(h hw).1,fun hF => hs.fits ((h hw).2 hF)⟩

/-- The keys that get the slots which were granted together. -/
def Served (F : Prop) (s : Store) (n : ℕ) (items : List (PutItem × Bool)) : Prop :=
  ∀ x ∈ (items.filter fun x => !x.2).take n,
    F → s.allocator.initialized = true ∧ x.1.size ≤ s.allocator.slotSize

theorem solo_assignSlots {allocSize : ℕ} {offsets : List ℤ} (items : List (PutItem × Bool))
    (hs : s.index.Sound) (hserved : Served F s offsets.length items) :
    Solo D F (fun results s' => Shrinks s s' ∧ results.length = items.length ∧
      ∀ x ∈ items.zip results, Ready F s' x) (assignSlots cfg allocSize offsets items) s := by
  induction items generalizing offsets s with
  | nil =>
    unfold assignSlots
    exact ⟨.refl s,rfl,by simp⟩
  | cons x items ih =>
    obtain ⟨item,present⟩ := x
    -- the slot of the first key is known in `s₁`, and the others get theirs after that
    have hcons : ∀ {s₁ s₂ : Store} {present : Bool} {r : StorePutResult}
        {results : List StorePutResult}, Shrinks s s₁ → Ready F s₁ ((item,present),r) →
        (Shrinks s₁ s₂ ∧ results.length = items.length ∧ ∀ x ∈ items.zip results, Ready F s₂ x) →
        Shrinks s s₂ ∧ (r :: results).length = ((item,present) :: items).length ∧
          ∀ x ∈ ((item,present) :: items).zip (r :: results), Ready F s₂ x := by
      rintro s₁ s₂ present r results h₁ hr ⟨h₂,hl,hx⟩
      exact ⟨h₁.trans h₂,congrArg (· + 1) hl,List.forall_mem_cons.mpr ⟨hr.shrinks h₂,hx⟩⟩
    cases present with
    | true =>
      have hno : Ready F s ((item,true),⟨.OK,0,0⟩) := fun hw => by cases hw
      unfold assignSlots
      exact wp_bind.mpr (wp_mono (ih hs hserved) fun results s' h => hcons (.refl s) hno h)
    | false =>
      cases offsets with
      | cons o offsets =>
        have hhead : Ready F s ((item,false),⟨.OK,o.toNat,allocSize⟩) :=
          fun _ => ⟨rfl,hserved (item,false) (by simp)⟩
        have htail : Served F s offsets.length items := fun y hy => hserved y (by simp [hy])
        unfold assignSlots
        exact wp_bind.mpr (wp_mono (ih hs htail) fun results s' h => hcons (.refl s) hhead h)
      | nil =>
        unfold assignSlots
        refine wp_bind.mpr (wp_mono (solo_allocReclaiming item.size hs) fun a s₁ ha => ?_)
        refine wp_bind.mpr (wp_mono (ih (ha.1.sound hs) fun y hy => by simp at hy)
          fun results s' h => hcons ha.1 ?_ h)
        intro hw
        split at hw
        · cases hw
        · next hneg => exact ⟨rfl,fun _ => ha.2 (not_lt.mp hneg)⟩

def SizesFit (s : Store) (items : List (PutItem × Bool)) : Prop :=
  s.allocator.BatchFits ((items.filter fun x => !x.2).map fun x => x.1.size)

theorem solo_allocateBatch (items : List (PutItem × Bool)) (hs : s.index.Sound)
    (hfit : F → SizesFit s items) :
    Solo D F (fun results s' => Shrinks s s' ∧ results.length = items.length ∧
      ∀ x ∈ items.zip results, Ready F s' x) (allocateBatch cfg items) s := by
  unfold allocateBatch
  split
  · exact solo_assignSlots items hs fun y hy => by simp at hy
  · next first rest hneed =>
    refine solo_invoke (serialOk_of_plain rfl) fun c r s₁ h => ?_
    have h₁ := shrinks_step rfl h
    refine wp_mono (solo_assignSlots items (h₁.sound hs) ?_) fun results s' h' =>
      ⟨h₁.trans h'.1,h'.2⟩
    intro x hx hF
    have he : s.allocator.batchAlloc first.1.size (u32 (first :: rest).length) =
        ((r.1,r.2),s₁.allocator) := by
      cases h
      rfl
    have hne : r.1 ≠ [] := by
      intro hnil
      simp [hnil] at hx
    obtain ⟨hinit,hok,hlen,hinit',hslot⟩ := (SlotAllocator.batchAlloc_sizes he).2 hne
    have hfits := hfit hF
    rw [SizesFit, hneed] at hfits
    rw [hneed] at hx
    refine ⟨hinit',?_⟩
    rw [hslot]
    have htake : x.1.size ∈ ((first :: rest).take (min (u32 (first :: rest).length)
        (s.allocator.lazyInit first.1.size).available)).map fun x => x.1.size :=
      List.mem_map_of_mem (List.take_subset_take_left _ hlen hx)
    refine hfits hinit hok x.1.size ?_
    rw [List.map_take] at htake
    simpa using htake

def Writable (D F : Prop) (s : Store) (writes : List (PutItem × StorePutResult)) : Prop :=
  (∀ x ∈ writes, F → s.allocator.initialized = true ∧ x.1.size ≤ s.allocator.slotSize) ∧
  (D → (writes.map fun x => x.1.key).Nodup ∧ ∀ x ∈ writes, s.index.find x.1.key = none)

theorem Writable.shrinks {writes : List (PutItem × StorePutResult)} {s s' : Store}
    (h : Writable D F s writes) (hs : Shrinks s s') : Writable D F s' writes :=
  ⟨fun x hx hF => hs.fits (h.1 x hx hF),
    fun hD => ⟨(h.2 hD).1,fun x hx => hs.absent _ ((h.2 hD).2 x hx)⟩⟩

theorem solo_batchWrite {writes : List (PutItem × StorePutResult)} (hw : Writable D F s writes) :
    Solo D F (fun _ s' => Shrinks s s')
      (batchWrite cfg (writes.map fun x => ⟨x.2.offset,x.1.data,x.1.size⟩)) s := by
  unfold batchWrite
  rw [Prog.mapEach_map]
  refine solo_then (wp_mono (wp_mapEach (I := fun rest (_ : List Status) t =>
    Shrinks s t ∧ Writable D F t rest) ⟨.refl s,hw⟩ ?_) fun _ _ h => h.1) fun _ _ h => h
  rintro x rest _ t ⟨hst,hw⟩
  refine wp_mono (solo_writeItem fun hF => (hw.1 x (by simp) hF).2) fun _ t' ht' =>
    ⟨hst.trans ht',?_⟩
  refine Writable.shrinks ⟨fun y hy => hw.1 y (by simp [hy]),fun hD => ?_⟩ ht'
  obtain ⟨hnodup,habs⟩ := hw.2 hD
  exact ⟨(List.nodup_cons.mp hnodup).2,fun y hy => habs y (by simp [hy])⟩

/-- Inserting the first of several distinct absent keys leaves the others absent. -/
theorem solo_commit {writes : List (PutItem × StorePutResult)} (hw : Writable D F s writes) :
    Solo D F (fun _ _ => True) (Prog.mapEach commitOne writes) s := by
  refine wp_mono (wp_mapEach (I := fun rest (_ : List StoreKeyRecord) t =>
    D → (rest.map fun x => x.1.key).Nodup ∧ ∀ x ∈ rest, t.index.find x.1.key = none)
    hw.2 ?_) fun _ _ _ => trivial
  rintro x rest _ t hrest
  refine solo_plain rfl fun now t₁ h₁ => ?_
  have hok : SerialOk D F t₁ (.indexPut x.1.key
      (committedRecord x.1 x.2.offset x.2.allocSize now) x.1.data) :=
    ⟨rfl,fun hD => Option.isNone_iff_eq_none.mpr (h₁.absent _ ((hrest hD).2 x (by simp))),
      fun _ => rfl⟩
  refine solo_invoke hok fun _ _ t₂ h₂ hD => ?_
  obtain ⟨hnodup,habs⟩ := hrest hD
  obtain ⟨hnot,hnodup⟩ := List.nodup_cons.mp hnodup
  refine ⟨hnodup,fun y hy => ?_⟩
  have hne : y.1.key ≠ x.1.key := fun heq => hnot (List.mem_map.mpr ⟨y,hy,heq⟩)
  cases h₂
  dsimp only
  rw [StoreMetaIndex.find_put, if_neg hne]
  exact h₁.absent _ (habs y (by simp [hy]))

theorem solo_writeAndCommit {pairs : List (PutItem × StorePutResult)}
    (hw : Writable D F s (pairs.filter fun x => toWrite x.2)) :
    Solo D F (fun _ _ => True) (writeAndCommit cfg pairs) s := by
  refine solo_then (solo_batchWrite hw) fun status s₁ h₁ => ?_
  split
  · exact solo_then (solo_frees _ _ _) fun _ _ _ => trivial
  · refine wp_bind.mpr (wp_mono (solo_commit (hw.shrinks h₁)) fun records s₂ _ => ?_)
    have hnotify : Solo D F (fun _ _ => True) (notifyAsync cfg records) s₂ := by
      unfold notifyAsync
      split
      · exact solo_plain rfl fun _ _ _ => trivial
      · trivial
    exact wp_bind.mpr (wp_mono hnotify fun _ _ _ => trivial)

theorem solo_batchPutItems (items : List PutItem) (hs : s.index.Sound)
    (hD : D → ((items.map PutItem.key).filter (absentIn s)).Nodup)
    (hF : F → s.allocator.BatchFits
      ((items.filter fun item => absentIn s item.key).map PutItem.size)) :
    Solo D F (fun _ _ => True) (batchPutItems cfg items) s := by
  refine wp_bind.mpr (wp_mono (solo_present items hs) ?_)
  rintro present s₁ ⟨hview,rfl⟩
  set present := items.map fun item => !absentIn s item.key with hpresent
  have hzip : items.zip present = items.map fun item => (item,!absentIn s item.key) := by
    rw [hpresent, ← List.map_prod_left_eq_zip]
  have hfit : F → SizesFit s₁ (items.zip present) := by
    intro hf
    have hsizes := hF hf
    rw [SizesFit, hview.allocator, hzip, List.filter_map, List.map_map]
    simpa [Function.comp_def] using hsizes
  refine wp_bind.mpr (wp_mono (solo_allocateBatch _ (hview.shrinks.sound hs) hfit) ?_)
  rintro results s₂ ⟨h₂,hl,hready⟩
  rw [hzip, List.length_map] at hl
  have habsent : ∀ x ∈ (items.zip results).filter (fun x => toWrite x.2),
      absentIn s x.1.key = true ∧
      (F → s₂.allocator.initialized = true ∧ x.1.size ≤ s₂.allocator.slotSize) := by
    intro x hx
    obtain ⟨hx,hw⟩ := List.mem_filter.mp hx
    have hmem : ((x.1,!absentIn s x.1.key),x.2) ∈ (items.zip present).zip results := by
      rw [hzip, List.zip_map_left]
      exact List.mem_map.mpr ⟨x,hx,rfl⟩
    obtain ⟨hp,hfits⟩ := hready _ hmem hw
    exact ⟨by simpa using hp,hfits⟩
  refine solo_writeAndCommit ⟨fun x hx => (habsent x hx).2,fun hd => ⟨?_,fun x hx => ?_⟩⟩
  · set writes := (items.zip results).filter fun x => toWrite x.2 with hwrites
    have hsub : (writes.map fun x => x.1.key).Sublist (items.map PutItem.key) := by
      have hfst : (items.zip results).map Prod.fst = items := List.map_fst_zip hl.ge
      have hs : (writes.map Prod.fst).Sublist items := by
        have := (List.filter_sublist (l := items.zip results)
          (p := fun x => toWrite x.2)).map Prod.fst
        rwa [hfst] at this
      simpa [Function.comp_def] using hs.map PutItem.key
    have hall : (writes.map fun x => x.1.key).filter (absentIn s) =
        writes.map fun x => x.1.key := by
      refine List.filter_eq_self.mpr fun key hk => ?_
      obtain ⟨x,hx,rfl⟩ := List.mem_map.mp hk
      exact (habsent x hx).1
    rw [← hall]
    exact (hsub.filter _).nodup (hD hd)
  · have hnone := Option.isNone_iff_eq_none.mp (habsent x hx).1
    exact (hview.shrinks.trans h₂).absent _ hnone

end StoreOps

/-- The keys of a batch that are absent from `s` differ from each other. -/
def StoreOp.DistinctAbsent (s : Store) : StoreOp → Prop
  | batchPut keys _ _ => (keys.filter (StoreOps.absentIn s)).Nodup
  | _ => True

def StoreOp.SizesFit (s : Store) : StoreOp → Prop
  | batchPut keys _ sizes =>
    s.allocator.BatchFits (((keys.zip sizes).filter fun x => StoreOps.absentIn s x.1).map Prod.snd)
  | _ => True

instance (s : Store) (op : StoreOp) : Decidable (op.DistinctAbsent s) := by
  cases op <;> unfold StoreOp.DistinctAbsent <;> infer_instance

namespace StoreOps
open Store

theorem solo_batchPut {cfg : StoreConfig} {s : Store} {keys : List Key}
    {dataPtrs : List (Option Bytes)} {sizes : List ℕ} (hs : s.index.Sound) :
    Solo ((StoreOp.batchPut keys dataPtrs sizes).DistinctAbsent s)
      ((StoreOp.batchPut keys dataPtrs sizes).SizesFit s) (fun _ _ => True)
      (batchPut cfg keys dataPtrs sizes) s := by
  unfold batchPut
  split
  · trivial
  · next hlen =>
    have hlen : keys.length = dataPtrs.length ∧ keys.length = sizes.length := by omega
    refine solo_batchPutItems _ hs (fun hD => ?_) fun hF => ?_
    · rw [map_key_putItems hlen.1 hlen.2]
      exact hD
    · rw [StoreOp.SizesFit, ← map_size_putItems hlen.1 hlen.2, List.filter_map, List.map_map] at hF
      exact hF

theorem solo_remove {cfg : StoreConfig} {D F : Prop} {s : Store} (key : Key) :
    Solo D F (fun _ _ => True) (remove cfg key) s := by
  refine wp_bind.mpr (wp_mono (solo_notifyRemove _) fun status s₁ _ => ?_)
  split
  · trivial
  · refine solo_plain rfl fun rec s₂ _ => ?_
    split
    · trivial
    · exact solo_plain rfl fun _ _ _ => trivial

theorem solo_get {D F : Prop} {s : Store} (key : Key) (buffer : Option Bytes) (bufferSize : ℕ) :
    Solo D F (fun _ _ => True) (get key buffer bufferSize) s := by
  refine solo_plain rfl fun record s₁ _ => ?_
  split
  · trivial
  · next record =>
    split
    · trivial
    · have hread : Solo D F (fun _ _ => True) (read record.offset buffer record.size key) s₁ := by
        unfold read
        split
        · trivial
        · refine solo_plain rfl fun r s₂ _ => ?_
          obtain ⟨r,bytes⟩ := r
          dsimp only
          split
          · trivial
          · split <;> trivial
      refine wp_bind.mpr (wp_mono hread fun r s₂ _ => ?_)
      obtain ⟨status,buffer⟩ := r
      dsimp only
      split <;> trivial

/-- Run alone, an operation evicts only current candidates; its insertions do not overwrite
and its writes fit if its keys and sizes allow it. -/
theorem solo_run {cfg : StoreConfig} {s : Store} (op : StoreOp) (hs : s.index.Sound) :
    Solo (op.DistinctAbsent s) (op.SizesFit s) (fun _ _ => True) (op.run cfg) s := by
  have hmap : ∀ {α : Type} {p : StoreProg α} {f : α → StoreReply} {post : α → Store → Prop},
      Solo (op.DistinctAbsent s) (op.SizesFit s) post p s →
      Solo (op.DistinctAbsent s) (op.SizesFit s) (fun _ _ => True) (f <$> p) s := by
    intro α p f post h
    exact wp_bind.mpr (wp_mono h fun _ _ _ => trivial)
  cases op with
  | put key data size => exact hmap (solo_put ⟨key,data,size⟩ hs)
  | batchPut keys dataPtrs sizes => exact hmap (solo_batchPut hs)
  | get key buffer bufferSize => exact hmap (solo_get key buffer bufferSize)
  | contains key => exact solo_plain rfl fun _ _ _ => trivial
  | batchContains keys => exact solo_plain rfl fun _ _ _ => trivial
  | remove key => exact hmap (solo_remove key)
  | evictPass => exact hmap (solo_tryEvictBatchLRU hs)
  | flushExpired => exact hmap solo_flushExpired
  | flushAllForced => exact hmap solo_flushAllForced

end StoreOps

abbrev SerialCondition := StoreOp → Store → Store → StoreCall → Prop

def SerialStep (cfg : StoreConfig) (cond : SerialCondition) (s s' : Store) : Prop :=
  ∃ (op : StoreOp) (reply : StoreReply), Exec storeMachine (cond op s) (op.run cfg) s reply s'

/-- What operations that run one after the other make of a new store. -/
abbrev SerialRun (cfg : StoreConfig) (cond : SerialCondition) (s : Store) : Prop :=
  Relation.ReflTransGen (SerialStep cfg cond) (.init cfg) s

def orElse (start : Store → StoreOp → Prop) (check : Store → StoreCall → Bool) : SerialCondition :=
  fun op s t call => start s op ∨ check t call = true

namespace Store

variable {cfg : StoreConfig} {cond : SerialCondition} {s : Store}

theorem serialRun_mono {cond' : SerialCondition}
    (hc : ∀ op s t call, cond op s t call → cond' op s t call) (h : SerialRun cfg cond s) :
    SerialRun cfg cond' s := by
  induction h with
  | refl => exact .refl
  | @tail s₁ s₂ _ hstep ih =>
    obtain ⟨op,reply,he⟩ := hstep
    exact ih.tail ⟨op,reply,he.ok_mono fun t call => hc op s₁ t call⟩

def follow (cfg : StoreConfig) (check : Store → StoreCall → Bool) :
    List (StoreOp × List StoreChoice) → Store → Option Store
  | [], s => some s
  | (op,choices) :: script, s =>
    (execWith storeMachine check (op.run cfg) choices s).bind fun x => follow cfg check script x.2

/-- A script that can be followed is a serial run. -/
theorem serialRun_of_script (cfg : StoreConfig) (check : Store → StoreCall → Bool)
    (script : List (StoreOp × List StoreChoice)) {γ : Type} {f : Store → γ} {v : γ}
    (h : (follow cfg check script (init cfg)).map f = some v) :
    ∃ s, SerialRun cfg (fun _ _ t call => check t call = true) s ∧ f s = v := by
  have hrun : ∀ (script : List (StoreOp × List StoreChoice)) (s s' : Store),
      follow cfg check script s = some s' →
        Relation.ReflTransGen (SerialStep cfg fun _ _ t call => check t call = true) s s' := by
    intro script
    induction script with
    | nil =>
      intro s s' h
      cases h
      exact .refl
    | cons x script ih =>
      intro s s' h
      obtain ⟨⟨reply,s₁⟩,hexec,hrest⟩ := Option.bind_eq_some_iff.mp h
      exact .head ⟨x.1,reply,exec_of_execWith hexec⟩ (ih s₁ s' hrest)
  obtain ⟨s,hfollow,hv⟩ := Option.map_eq_some_iff.mp h
  exact ⟨s,hrun script (init cfg) s hfollow,hv⟩

end Store

/-- A script in which no call fails and the clock stands still. -/
def Release.undisturbed (ops : List StoreOp) : List (StoreOp × List StoreChoice) :=
  ops.map fun op => (op,List.replicate 24 {})

end FalconKV
