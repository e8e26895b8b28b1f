import FalconKV.Store.BatchAcks
import FalconKV.Store.Space

/-! # What a size that is never accepted costs

`Alloc` answers a size that it rejects as it answers a full file, and the caller then goes
through all levels of reclaiming. This is free of effects only if there is nothing to
reclaim.
-/
namespace FalconKV
open AtomicCalls

namespace SlotAllocator
variable {a a' : SlotAllocator} {size : ℕ}

/-- The size is rejected however many slots are free. -/
def Rejects (a : SlotAllocator) (size : ℕ) : Prop :=
  (a.initialized = false ∧ size = 0) ∨ (a.initialized = true ∧ a.sizeOk size = false)

theorem Rejects.alloc (h : a.Rejects size) : a.alloc size = (⟨-1,0⟩,a) := by
  rcases h with ⟨hinit,rfl⟩ | ⟨hinit,hok⟩
  · simp [SlotAllocator.alloc, hinit]
  · simp [SlotAllocator.alloc, hinit, lazyInit_of_initialized size hinit, hok]

theorem Rejects.batchAlloc (h : a.Rejects size) (count : ℕ) :
    a.batchAlloc size count = (([],0),a) := by
  unfold SlotAllocator.batchAlloc
  split
  · rfl
  · rcases h with ⟨hinit,rfl⟩ | ⟨hinit,hok⟩
    · simp [hinit]
    · simp [hinit, lazyInit_of_initialized size hinit, hok]

theorem SameShape.rejects (h : a.SameShape a') (hr : a.Rejects size) : a'.Rejects size := by
  unfold Rejects sizeOk at hr ⊢
  rw [h.initialized, h.autoDetected, h.slotSize]
  exact hr

end SlotAllocator

namespace PendingEvictQueue
variable {q : PendingEvictQueue}

theorem takeExpired_nil (h : q.entries = []) (now : ℕ) : q.takeExpired now = ([],q) := by
  simp only [takeExpired, h, List.filter_nil]
  rw [← h]

theorem takeAll_nil (h : q.entries = []) : q.takeAll = ([],q) := by
  simp only [takeAll, h]
  rw [← h]

end PendingEvictQueue

def StoreCall.toMeta : StoreCall → Bool
  | syncCommit .. | asyncCommit .. | syncRemove .. => true
  | _ => false

namespace Store

/-- No slot waits, and no record is there or asked for. -/
def NothingToReclaim (s : Store) (size : ℕ) : Prop :=
  s.pending.entries = [] ∧ (s.index.lru.coldest = [] ∨ s.evictTarget size = 0)

instance (s : Store) (size : ℕ) : Decidable (s.NothingToReclaim size) :=
  inferInstanceAs (Decidable (_ ∧ _))

abbrev LeavesAll {α : Type} (post : α → Store → Prop) (p : StoreProg α) (s : Store) : Prop :=
  wp storeMachine (fun _ op => op.toMeta = false) post p s

/-- A call of `Put` that fails and has no effect. -/
abbrev CostsNothing (p : StoreProg StorePutResult) (s : Store) : Prop :=
  LeavesAll (fun r t => r.status.isOk = false ∧ t = s) p s

variable {s : Store} {size : ℕ}

/-- Every call can take place, and be confirmed. -/
theorem confirming_total (op : StoreCall) (s : Store) :
    ∃ c r s', confirming.step op c s = some (r,s') := by
  have hsome : (confirming.step op { transfer := .short (-1) "" } s).isSome = true := by
    cases op with
    | pwrite offset data size | pread offset size reader =>
      have hlt : (-1 : ℤ) < size := by omega
      simp [confirming, Machine.under, removesConfirmed, Store.step, Store.pwrite, Store.pread, hlt]
    | uringWrite offset data size => cases data <;> rfl
    | _ => rfl
  obtain ⟨⟨r,s'⟩,hstep⟩ := Option.isSome_iff_exists.mp hsome
  exact ⟨_,r,s',hstep⟩

theorem exists_exec_confirming {α : Type} (p : StoreProg α) (s : Store) :
    ∃ a t, Exec confirming (fun _ _ => True) p s a t :=
  exists_exec p.makes_true (fun op _ => confirming_total op) s

variable {keys : List Key} {t : Store}

theorem LookedUp.length_coldest (h : LookedUp keys s t)
    (hs : s.index.Tracked) : t.index.lru.coldest.length = s.index.lru.coldest.length := by
  rw [← h.tracked.linked.card_extents, ← hs.linked.card_extents, h.records.extents]

theorem LookedUp.coldest_eq_nil (h : LookedUp keys s t) (hs : s.index.Tracked) :
    t.index.lru.coldest = [] ↔ s.index.lru.coldest = [] := by
  rw [← List.length_eq_zero_iff, h.length_coldest hs, List.length_eq_zero_iff]

theorem LookedUp.nothingToReclaim (h : LookedUp keys s t)
    (hs : s.index.Tracked) : t.NothingToReclaim size ↔ s.NothingToReclaim size := by
  have htarget : t.evictTarget size = s.evictTarget size := by
    rw [h.rest]
    rfl
  have hpending : t.pending = s.pending := by rw [h.rest]
  rw [NothingToReclaim, NothingToReclaim, h.coldest_eq_nil hs, htarget, hpending]

end Store

namespace StoreOps
open Store

variable {cfg : StoreConfig} {s : Store} {size : ℕ}

theorem leavesAll_flushExpired (hp : s.pending.entries = []) :
    LeavesAll (fun _ t => t = s) flushExpired s := by
  refine wp_perform rfl fun c now s₁ h₁ => ?_
  cases h₁
  refine wp_perform rfl fun c entries s₂ h₂ => ?_
  cases h₂
  rw [PendingEvictQueue.takeExpired_nil hp]
  rfl

theorem leavesAll_flushAllForced (hp : s.pending.entries = []) :
    LeavesAll (fun _ t => t = s) flushAllForced s := by
  refine wp_perform rfl fun c entries s₁ h₁ => ?_
  cases h₁
  rw [PendingEvictQueue.takeAll_nil hp]
  rfl

theorem leavesAll_forceEvict {neededBytes : ℕ}
    (h : s.index.lru.coldest = [] ∨ neededBytes = 0) :
    LeavesAll (fun _ t => t = s) (forceEvict cfg neededBytes) s := by
  unfold forceEvict forceEvictRounds
  split
  · exact rfl
  · next hneed =>
    refine wp_perform rfl fun c candidates s₁ h₁ => ?_
    cases h₁
    have hcold := h.resolve_right (by omega)
    rw [StoreMetaIndex.candidates_eq_nil hcold]
    exact rfl

/-- `Alloc` answers a rejected size with `-1` and changes nothing. -/
theorem step_alloc_rejected (hr : s.allocator.Rejects size) (c : StoreChoice) (a : Allocated)
    (t : Store) (h : s.step (.alloc size) c = some (a,t)) : a = ⟨-1,0⟩ ∧ t = s := by
  cases h
  rw [hr.alloc]
  exact ⟨rfl,rfl⟩

variable {M : Machine storeCalls Store} {ok : Store → StoreCall → Prop}

theorem wp_alloc_rejected {post : Allocated → Store → Prop} (hM : M.Within storeMachine)
    (hr : s.allocator.Rejects size) (hok : ok s (.alloc size)) (h : post ⟨-1,0⟩ s) :
    wp M ok post (invoke (.alloc size)) s := by
  refine ⟨hok,fun c a t ha => ?_⟩
  obtain ⟨c',ha⟩ := hM ha
  obtain ⟨rfl,rfl⟩ := step_alloc_rejected hr c' a t ha
  exact h

/-- The retry after a rejection starts where the allocation started. -/
theorem wp_alloc_or_rejected {retry : StoreProg Allocated} {post : Allocated → Store → Prop}
    (hM : M.Within storeMachine) (hr : s.allocator.Rejects size) (hok : ok s (.alloc size))
    (h : wp M ok post retry s) :
    wp M ok post (invoke (.alloc size) >>= fun a => if 0 ≤ a.offset then pure a else retry) s := by
  refine wp_bind.mpr (wp_alloc_rejected hM hr hok ?_)
  rw [if_neg (by simp)]
  exact h

theorem leavesAll_allocReclaiming (hr : s.allocator.Rejects size) (h : s.NothingToReclaim size) :
    LeavesAll (fun a t => a.offset < 0 ∧ t = s) (allocReclaiming cfg size) s := by
  obtain ⟨hpending,hevict⟩ := h
  refine wp_bind.mpr (wp_mono (leavesAll_flushExpired hpending) ?_)
  rintro _ t rfl
  refine wp_alloc_or_rejected (Machine.Within.refl _) hr rfl (wp_perform rfl fun c totalBytes t₁ h₁ => ?_)
  cases h₁
  refine wp_bind.mpr (wp_mono (leavesAll_forceEvict hevict) ?_)
  rintro _ t₁ rfl
  refine wp_bind.mpr (wp_mono (leavesAll_flushExpired hpending) ?_)
  rintro _ t₂ rfl
  refine wp_alloc_or_rejected (Machine.Within.refl _) hr rfl
    (wp_bind.mpr (wp_mono (leavesAll_flushAllForced hpending) ?_))
  rintro _ t₃ rfl
  exact wp_alloc_rejected (Machine.Within.refl _) hr rfl ⟨by simp,rfl⟩

theorem reclaims_flush {p : StoreProg ℕ} (hp : p.Makes aside) :
    wp storeMachine (fun _ _ => True) (fun _ t => Reclaims s t []) p s :=
  wp_ok_mono (ages_aside hp) fun _ _ _ => trivial

theorem reclaims_forceEvict (neededBytes : ℕ) (hs : s.index.Tracked) :
    wp storeMachine (fun _ _ => True) (fun _ t => ∃ gone, Reclaims s t gone)
      (forceEvict cfg neededBytes) s :=
  wp_ok_mono (ages_forceEvict neededBytes hs) fun _ _ _ => trivial

def Fruitless (s : Store) (a : Allocated) (t : Store) : Prop :=
  a = ⟨-1,0⟩ ∧ (∃ gone, Reclaims s t gone) ∧ t.pending.entries = []

theorem fruitless_allocReclaiming (hs : s.index.Tracked) (hr : s.allocator.Rejects size) :
    wp storeMachine (fun _ _ => True) (Fruitless s) (allocReclaiming cfg size) s := by
  refine wp_bind.mpr (wp_mono (reclaims_flush aside_flushExpired) fun _ s₁ h₁ => ?_)
  refine wp_alloc_or_rejected (Machine.Within.refl _) (h₁.shape.rejects hr) trivial ?_
  refine wp_perform trivial fun c totalBytes s₂ h => ?_
  cases h
  refine wp_bind.mpr (wp_mono (reclaims_forceEvict _ (hs.evictsTo h₁.index)) ?_)
  rintro _ s₂ ⟨gone,h₂⟩
  refine wp_bind.mpr (wp_mono (reclaims_flush aside_flushExpired) fun _ s₃ h₃ => ?_)
  have h₀₃ := (h₁.trans h₂).trans h₃
  refine wp_alloc_or_rejected (Machine.Within.refl _) (h₀₃.shape.rejects hr) trivial ?_
  refine wp_bind.mpr (wp_mono (wp_and (reclaims_flush aside_flushAllForced) pending_flushAllForced) ?_)
  rintro _ s₄ ⟨h₄,hempty⟩
  exact wp_alloc_rejected (Machine.Within.refl _) ((h₀₃.trans h₄).shape.rejects hr) trivial
    ⟨rfl,⟨_,h₀₃.trans h₄⟩,hempty⟩

/-- Where removals are confirmed, a rejected size evicts something, if there is anything. -/
theorem evicting_allocReclaiming (hs : s.index.Tracked) (hr : s.allocator.Rejects size)
    (hcold : s.index.lru.coldest ≠ []) (htarget : s.evictTarget size ≠ 0) :
    wp confirming (fun _ _ => True)
      (fun _ t => t.index.lru.coldest.length < s.index.lru.coldest.length)
      (allocReclaiming cfg size) s := by
  refine wp_bind.mpr (wp_mono (wp_under (reclaims_flush aside_flushExpired)) fun _ s₁ h₁ => ?_)
  refine wp_alloc_or_rejected Machine.under_within (h₁.shape.rejects hr) trivial ?_
  refine wp_perform_under trivial (fun _ => rfl) fun c _ => ?_
  have htracked := hs.evictsTo h₁.index
  have hcold₁ : s.index.lru.coldest = s₁.index.lru.coldest := h₁.index.1
  have htarget₁ : 0 < s₁.evictTarget size := by
    rw [evictTarget, SlotAllocator.getTotalBytes, h₁.shape.totalBytes]
    exact Nat.pos_of_ne_zero htarget
  have hevict : wp confirming (fun _ _ => True)
      (fun _ t => (∃ gone, Reclaims s₁ t gone) ∧
        t.index.lru.coldest.length < s₁.index.lru.coldest.length)
      (forceEvict cfg (max size (u32 (s₁.allocator.getTotalBytes / 20)))) s₁ :=
    wp_and (wp_under (reclaims_forceEvict _ htracked))
      (forceEvict_progress htracked htarget₁ (hcold₁ ▸ hcold))
  refine wp_bind.mpr (wp_mono hevict ?_)
  rintro _ s₂ ⟨⟨gone,h₂⟩,hless⟩
  refine wp_bind.mpr (wp_mono (wp_under (reclaims_flush aside_flushExpired)) fun _ s₃ h₃ => ?_)
  have h₀₃ := (h₁.trans h₂).trans h₃
  refine wp_alloc_or_rejected Machine.under_within (h₀₃.shape.rejects hr) trivial ?_
  refine wp_bind.mpr (wp_mono (wp_under (reclaims_flush aside_flushAllForced)) fun _ s₄ h₄ => ?_)
  refine wp_alloc_rejected Machine.under_within ((h₀₃.trans h₄).shape.rejects hr) trivial ?_
  have h₃' := h₃.length_le
  have h₄' := h₄.length_le
  rw [hcold₁]
  omega

def rejectedAnswer (x : PutItem × Bool) : StorePutResult :=
  if x.2 then ⟨.OK,0,0⟩ else outOfSpace x.1.key

def AllRejected (s : Store) (items : List (PutItem × Bool)) : Prop :=
  ∀ x ∈ items, x.2 = false → s.allocator.Rejects x.1.size

variable {items : List (PutItem × Bool)} {n : ℕ}

theorem leavesAll_assignSlots (hr : AllRejected s items)
    (h : ∀ x ∈ items, x.2 = false → s.NothingToReclaim x.1.size) :
    LeavesAll (fun results t => results = items.map rejectedAnswer ∧ t = s)
      (assignSlots cfg n [] items) s := by
  induction items with
  | nil =>
    unfold assignSlots
    exact ⟨rfl,rfl⟩
  | cons x items ih =>
    obtain ⟨item,present⟩ := x
    have hrest := ih (fun y hy => hr y (List.mem_cons_of_mem _ hy))
      fun y hy => h y (List.mem_cons_of_mem _ hy)
    cases present with
    | true =>
      unfold assignSlots
      refine wp_bind.mpr (wp_mono hrest ?_)
      rintro results t ⟨rfl,rfl⟩
      exact ⟨rfl,rfl⟩
    | false =>
      have hhead := @leavesAll_allocReclaiming cfg s item.size
        (hr (item,false) List.mem_cons_self rfl) (h (item,false) List.mem_cons_self rfl)
      unfold assignSlots
      refine wp_bind.mpr (wp_mono hhead ?_)
      rintro a t ⟨hneg,rfl⟩
      refine wp_bind.mpr (wp_mono hrest ?_)
      rintro results t' ⟨rfl,rfl⟩
      exact ⟨by simp [rejectedAnswer, hneg],rfl⟩

structure FruitlessBatch (s : Store) (items : List (PutItem × Bool)) (results : List StorePutResult)
    (t : Store) : Prop where
  answers : results = items.map rejectedAnswer
  reclaims : ∃ gone, Reclaims s t gone
  flushed : (∃ x ∈ items, x.2 = false) → t.pending.entries = []
  idle : (∀ x ∈ items, x.2 = true) → t = s

theorem fruitless_assignSlots (hs : s.index.Tracked) (hr : AllRejected s items) :
    wp storeMachine (fun _ _ => True) (FruitlessBatch s items) (assignSlots cfg n [] items) s := by
  induction items generalizing s with
  | nil =>
    unfold assignSlots
    refine ⟨rfl,⟨[],.refl s⟩,?_,fun _ => rfl⟩
    rintro ⟨x,hx,-⟩
    exact absurd hx List.not_mem_nil
  | cons x items ih =>
    obtain ⟨item,present⟩ := x
    have hr' : AllRejected s items := fun y hy => hr y (List.mem_cons_of_mem _ hy)
    cases present with
    | true =>
      unfold assignSlots
      refine wp_bind.mpr (wp_mono (ih hs hr') ?_)
      rintro results t ⟨rfl,hreclaims,hflushed,hidle⟩
      refine ⟨rfl,hreclaims,?_,fun hall => hidle fun y hy => hall y (List.mem_cons_of_mem _ hy)⟩
      rintro ⟨y,hy,habs⟩
      rcases List.mem_cons.mp hy with rfl | hy
      · cases habs
      · exact hflushed ⟨y,hy,habs⟩
    | false =>
      unfold assignSlots
      refine wp_bind.mpr (wp_mono (fruitless_allocReclaiming hs
        (hr (item,false) List.mem_cons_self rfl)) ?_)
      rintro a s₁ ⟨rfl,⟨gone,h₁⟩,hempty⟩
      have hr₁ : AllRejected s₁ items := fun y hy habs => h₁.shape.rejects (hr' y hy habs)
      refine wp_bind.mpr (wp_mono (ih (hs.evictsTo h₁.index) hr₁) ?_)
      rintro results t ⟨rfl,⟨gone',h₂⟩,hflushed,hidle⟩
      refine ⟨by simp [rejectedAnswer],⟨_,h₁.trans h₂⟩,fun _ => ?_,fun hall => ?_⟩
      · by_cases habs : ∃ y ∈ items, y.2 = false
        · exact hflushed habs
        · rw [hidle fun y hy => ?_]
          · exact hempty
          · by_contra hne
            exact habs ⟨y,hy,by simpa using hne⟩
      · cases hall (item,false) List.mem_cons_self

/-- Where removals are confirmed, one rejected size that asks for bytes evicts something. -/
theorem evicting_assignSlots (hs : s.index.Tracked) (hr : AllRejected s items)
    (hcold : s.index.lru.coldest ≠ [])
    (htarget : ∃ x ∈ items, x.2 = false ∧ s.evictTarget x.1.size ≠ 0) :
    wp confirming (fun _ _ => True)
      (fun _ t => t.index.lru.coldest.length < s.index.lru.coldest.length)
      (assignSlots cfg n [] items) s := by
  induction items generalizing s with
  | nil =>
    obtain ⟨x,hx,-⟩ := htarget
    cases hx
  | cons x items ih =>
    obtain ⟨item,present⟩ := x
    have hr' : AllRejected s items := fun y hy => hr y (List.mem_cons_of_mem _ hy)
    obtain ⟨y,hy,habs,hne⟩ := htarget
    cases present with
    | true =>
      have hy : y ∈ items := by
        rcases List.mem_cons.mp hy with rfl | hy
        · cases habs
        · exact hy
      unfold assignSlots
      exact wp_bind.mpr (wp_mono (ih hs hr' hcold ⟨y,hy,habs,hne⟩) fun _ _ h => h)
    | false =>
      have hitem := hr (item,false) List.mem_cons_self rfl
      have hhead : wp confirming (fun _ _ => True) (Fruitless s) (allocReclaiming cfg item.size) s :=
        wp_under (fruitless_allocReclaiming hs hitem)
      have htail : ∀ {s₁ : Store} {gone : List Key}, Reclaims s s₁ gone → AllRejected s₁ items :=
        fun h z hz hza => h.shape.rejects (hr' z hz hza)
      have hlast : ∀ {s₁ : Store} {gone : List Key}, Reclaims s s₁ gone →
          wp confirming (fun _ _ => True)
            (fun _ t => t.index.lru.coldest.length ≤ s₁.index.lru.coldest.length)
            (assignSlots cfg n [] items) s₁ := by
        intro s₁ gone h₁
        refine wp_mono (wp_under (fruitless_assignSlots (hs.evictsTo h₁.index) (htail h₁))) ?_
        rintro _ t ⟨-,⟨gone',h₂⟩,-,-⟩
        exact h₂.length_le
      unfold assignSlots
      rcases List.mem_cons.mp hy with rfl | hy
      · refine wp_bind.mpr (wp_mono (wp_and hhead (evicting_allocReclaiming hs hitem hcold hne)) ?_)
        rintro a s₁ ⟨⟨-,⟨gone,h₁⟩,-⟩,hless⟩
        refine wp_bind.mpr (wp_mono (hlast h₁) fun _ t hle => ?_)
        exact Nat.lt_of_le_of_lt hle hless
      · refine wp_bind.mpr (wp_mono hhead ?_)
        rintro a s₁ ⟨-,⟨gone,h₁⟩,-⟩
        have hle₁ := h₁.length_le
        by_cases hcold₁ : s₁.index.lru.coldest = []
        · refine wp_bind.mpr (wp_mono (hlast h₁) fun _ t hle => ?_)
          rw [hcold₁, List.length_nil] at hle
          exact Nat.lt_of_le_of_lt hle (List.length_pos_of_ne_nil hcold)
        · have hne₁ : s₁.evictTarget y.1.size ≠ 0 := by
            rw [evictTarget, SlotAllocator.getTotalBytes, h₁.shape.totalBytes]
            exact hne
          refine wp_bind.mpr (wp_mono (ih (hs.evictsTo h₁.index) (htail h₁) hcold₁ ⟨y,hy,habs,hne₁⟩)
            fun _ t hless => ?_)
          exact Nat.lt_of_lt_of_le hless hle₁

theorem wp_put_rejected {item : PutItem} {post : StorePutResult → Store → Prop}
    (hM : M.Within storeMachine) (hs : s.index.Sound) (habs : s.index.find item.key = none)
    (hr : s.allocator.Rejects item.size) (hget : ok s (.indexGet item.key))
    (halloc : ok s (.alloc item.size))
    (h : wp M ok (fun a t => a.offset < 0 ∧ post (outOfSpace item.key) t)
      (allocReclaiming cfg item.size) s) : wp M ok post (put cfg item) s := by
  refine wp_perform hget fun c found t hstep => ?_
  obtain ⟨c',hstep⟩ := hM hstep
  obtain ⟨hfound,ht⟩ := Prod.mk.inj (Option.some.inj hstep)
  rw [hs.get_eq, habs] at hfound ht
  subst found t
  refine wp_bind.mpr (wp_alloc_or_rejected hM hr halloc (wp_mono h ?_))
  rintro a t ⟨hneg,hpost⟩
  rw [if_pos hneg]
  exact hpost

theorem wp_put_present {item : PutItem} (hs : s.index.Sound)
    (hk : s.index.find item.key ≠ none) :
    wp storeMachine (fun _ _ => True) (fun r _ => r.status.isOk = true) (put cfg item) s := by
  obtain ⟨record,hrecord⟩ := Option.ne_none_iff_exists'.mp hk
  refine wp_perform trivial fun c found t hstep => ?_
  obtain ⟨hfound,-⟩ := Prod.mk.inj (Option.some.inj hstep)
  rw [hs.get_eq, hrecord] at hfound
  subst found
  rfl

/-- What a program that leaves the store alone did not find there. -/
theorem nothingToReclaim_of_leavesAll {α : Type} {p : StoreProg α} {post : α → Store → Prop}
    (h : LeavesAll post p s) (hpost : ∀ a t, post a t → t.pending = s.pending)
    (hflush : wp confirming (fun _ _ => True) (fun _ t => t.pending.entries = []) p s)
    (hevict : s.index.lru.coldest ≠ [] → s.evictTarget size ≠ 0 →
      wp confirming (fun _ _ => True) (fun a t => ¬ post a t) p s) :
    s.NothingToReclaim size := by
  obtain ⟨a,t,he⟩ := exists_exec_confirming p s
  have hend := he.ends (wp_under h)
  refine ⟨hpost a t hend ▸ he.ends hflush,?_⟩
  by_contra hsome
  obtain ⟨hcold,htarget⟩ := not_or.mp hsome
  exact he.ends (hevict hcold htarget) hend

theorem costsNothing_put_iff {item : PutItem} (hs : s.index.Tracked)
    (hr : s.allocator.Rejects item.size) :
    CostsNothing (put cfg item) s ↔
      s.index.find item.key = none ∧ s.NothingToReclaim item.size := by
  constructor
  · intro h
    have habs : s.index.find item.key = none := by
      by_contra hk
      obtain ⟨r,t,he⟩ := exists_exec_confirming (put cfg item) s
      have hbad := (he.ends (wp_under h)).1
      rw [he.ends (wp_under (wp_put_present hs.sound hk))] at hbad
      cases hbad
    refine ⟨habs,nothingToReclaim_of_leavesAll h ?_ ?_ ?_⟩
    · rintro r t ⟨-,rfl⟩
      rfl
    · refine wp_put_rejected Machine.under_within hs.sound habs hr trivial trivial ?_
      refine wp_mono (wp_under (fruitless_allocReclaiming hs hr)) ?_
      rintro a t ⟨rfl,-,hempty⟩
      exact ⟨by simp,hempty⟩
    · intro hcold htarget
      refine wp_put_rejected Machine.under_within hs.sound habs hr trivial trivial ?_
      refine wp_mono (wp_and (wp_under (fruitless_allocReclaiming hs hr))
        (evicting_allocReclaiming hs hr hcold htarget)) ?_
      rintro a t ⟨⟨rfl,-,-⟩,hless⟩
      refine ⟨by simp,?_⟩
      rintro ⟨-,rfl⟩
      exact lt_irrefl _ hless
  · rintro ⟨habs,hnothing⟩
    exact wp_put_rejected (Machine.Within.refl _) hs.sound habs hr rfl rfl
      (wp_mono (leavesAll_allocReclaiming hr hnothing) fun _ _ h => ⟨h.1,rfl,h.2⟩)

/-- A key of a batch that fails and has no effect. -/
abbrev KeyCostsNothing (p : StoreProg (List StorePutResult)) (s : Store) : Prop :=
  LeavesAll (fun results t => (∀ r ∈ results, r.status.isOk = false) ∧ t = s) p s

theorem keyCostsNothing_iff {item : PutItem} {offsets : List ℤ} (hs : s.index.Tracked)
    (hr : s.allocator.Rejects item.size) :
    KeyCostsNothing (assignSlots cfg n offsets [(item,false)]) s ↔
      offsets = [] ∧ s.NothingToReclaim item.size := by
  have hall : AllRejected s [(item,false)] := by
    intro x hx _
    rw [List.mem_singleton.mp hx]
    exact hr
  cases offsets with
  | cons o offsets =>
    refine iff_of_false ?_ fun h => List.cons_ne_nil _ _ h.1
    intro h
    have hok : ∀ r ∈ [StorePutResult.mk .OK o.toNat n], r.status.isOk = false := h.1
    cases hok _ List.mem_cons_self
  | nil =>
    constructor
    · intro h
      refine ⟨rfl,nothingToReclaim_of_leavesAll h ?_ ?_ ?_⟩
      · rintro r t ⟨-,rfl⟩
        rfl
      · exact wp_mono (wp_under (fruitless_assignSlots hs hall)) fun _ _ h =>
          h.flushed ⟨_,List.mem_cons_self,rfl⟩
      · intro hcold htarget
        refine wp_mono (evicting_assignSlots hs hall hcold ⟨_,List.mem_cons_self,rfl,htarget⟩) ?_
        rintro results t hless ⟨-,rfl⟩
        exact lt_irrefl _ hless
    · rintro ⟨-,hnothing⟩
      refine wp_mono (leavesAll_assignSlots hall fun x hx _ => ?_) ?_
      · rw [List.mem_singleton.mp hx]
        exact hnothing
      · rintro results t ⟨rfl,rfl⟩
        exact ⟨by simp [rejectedAnswer, outOfSpace],rfl⟩

/-- Nothing is granted at once when all sizes are rejected. -/
theorem wp_allocateBatch_rejected {post : List StorePutResult → Store → Prop}
    (hM : M.Within storeMachine)
    (hr : ∀ first ∈ (items.filter fun x => !x.2).head?, s.allocator.Rejects first.1.size)
    (hok : ∀ size count, ok s (.batchAlloc size count))
    (h : wp M ok post (assignSlots cfg 0 [] items) s) :
    wp M ok post (allocateBatch cfg items) s := by
  unfold allocateBatch
  split
  · exact h
  · next first rest hneed =>
    have hfirst : s.allocator.Rejects first.1.size := hr first (by rw [hneed]; rfl)
    refine wp_perform (hok _ _) fun c r t hstep => ?_
    obtain ⟨c',hstep⟩ := hM hstep
    obtain ⟨rfl,rfl⟩ := Prod.mk.inj (Option.some.inj hstep)
    rw [hfirst.batchAlloc]
    exact h

theorem writeAndCommit_nothing {pairs : List (PutItem × StorePutResult)}
    (h : ∀ x ∈ pairs, toWrite x.2 = false) :
    writeAndCommit cfg pairs = .ret (pairs.map Prod.snd) := by
  have hnone : pairs.filter (fun x => toWrite x.2) = [] := by
    rw [List.filter_eq_nil_iff]
    intro x hx
    rw [h x hx]
    exact Bool.false_ne_true
  have hnotify : notifyAsync cfg [] = .ret () := by simp [notifyAsync]
  have hok : Status.OK.isOk = true := rfl
  simp [writeAndCommit, hnone, batchWrite, lastError, hok, hnotify]

def withPresence (s : Store) (items : List PutItem) : List (PutItem × Bool) :=
  items.map fun item => (item,!absentIn s item.key)

theorem wp_batchPutItems_rejected {items : List PutItem} {post : List StorePutResult → Store → Prop}
    (hM : M.Within storeMachine) (hs : s.index.Tracked)
    (hr : AllRejected s (withPresence s items)) (hget : ∀ t key, ok t (.indexGet key))
    (hok : ∀ t size count, ok t (.batchAlloc size count))
    (h : ∀ t, LookedUp (items.map PutItem.key) s t →
      wp M ok (fun results t' => results = (withPresence s items).map rejectedAnswer ∧
        post results t') (assignSlots cfg 0 [] (withPresence s items)) t) :
    wp M ok post (batchPutItems cfg items) s := by
  have hlookup : ∀ (t : Store) (op : StoreCall), (∃ key, op = .indexGet key) → ok t op := by
    rintro t op ⟨key,rfl⟩
    exact hget t key
  refine wp_bind.mpr (wp_mono (wp_ok_mono (wp_within hM (wp_present items hs)) hlookup) ?_)
  rintro present t ⟨hlooked,rfl⟩
  rw [← List.map_prod_left_eq_zip]
  have hr' : ∀ first ∈ ((withPresence s items).filter fun x => !x.2).head?,
      t.allocator.Rejects first.1.size := by
    intro first hfirst
    obtain ⟨hmem,habs⟩ := List.mem_filter.mp (List.mem_of_mem_head? hfirst)
    rw [hlooked.rest]
    exact hr first hmem (by simpa using habs)
  refine wp_bind.mpr (wp_allocateBatch_rejected hM hr' (hok t) (wp_mono (h t hlooked) ?_))
  rintro results t' ⟨rfl,hpost⟩
  have hlen : ((withPresence s items).map rejectedAnswer).length = items.length := by
    simp [withPresence]
  rw [writeAndCommit_nothing ?_, List.map_snd_zip hlen.le]
  · exact hpost
  · intro x hx
    obtain ⟨y,-,hy⟩ := List.mem_map.mp (List.of_mem_zip hx).2
    rw [← hy, rejectedAnswer]
    split <;> rfl

/-- A batch that fails for every size that is rejected, and has only the effects of its lookups. -/
abbrev BatchCostsNothing (items : List PutItem) (p : StoreProg (List StorePutResult)) (s : Store) :
    Prop :=
  LeavesAll (fun results t => results.length = items.length ∧
    (∀ x ∈ items.zip results, s.allocator.Rejects x.1.size → x.2.status.isOk = false) ∧
    s.index.SameRecords t.index ∧ t.allocator = s.allocator ∧ t.pending = s.pending) p s

theorem batchPut_of_items (items : List PutItem) :
    batchPut cfg (items.map PutItem.key) (items.map PutItem.data) (items.map PutItem.size) =
      batchPutItems cfg items := by
  have hitems : putItems (items.map PutItem.key) (items.map PutItem.data)
      (items.map PutItem.size) = items := by
    rw [putItems, List.zip_map', List.zip_map', List.map_map]
    exact List.map_id items
  simp [batchPut, hitems]

theorem mem_withPresence {items : List PutItem} {x : PutItem × Bool}
    (hx : x ∈ withPresence s items) :
    x.1 ∈ items ∧ (x.2 = false → s.index.find x.1.key = none) := by
  obtain ⟨item,hitem,rfl⟩ := List.mem_map.mp hx
  refine ⟨hitem,fun habs => ?_⟩
  rw [Bool.not_eq_false_eq_eq_true] at habs
  exact Option.isNone_iff_eq_none.mp habs

theorem withPresence_of_mem {items : List PutItem} {item : PutItem} (hitem : item ∈ items)
    (habs : s.index.find item.key = none) : (item,false) ∈ withPresence s items := by
  refine List.mem_map.mpr ⟨item,hitem,?_⟩
  rw [absentIn, habs]
  rfl

theorem batchCostsNothing_iff {items : List PutItem} (hs : s.InOrder)
    (hr : ∀ item ∈ items, s.index.find item.key = none → s.allocator.Rejects item.size) :
    BatchCostsNothing items (batchPutItems cfg items) s ↔
      (∀ item ∈ items, s.allocator.Rejects item.size → s.index.find item.key = none) ∧
      ∀ item ∈ items, s.index.find item.key = none → s.NothingToReclaim item.size := by
  have hall : AllRejected s (withPresence s items) := fun x hx habs =>
    hr x.1 (mem_withPresence hx).1 ((mem_withPresence hx).2 habs)
  have hallOf : ∀ {t : Store}, LookedUp (items.map PutItem.key) s t →
      AllRejected t (withPresence s items) := by
    intro t ht x hx habs
    rw [ht.rest]
    exact hall x hx habs
  constructor
  · intro h
    refine ⟨fun item hitem hrejects => ?_,fun item hitem habs => ?_⟩
    · by_contra hk
      obtain ⟨results,t,he⟩ := exists_exec_confirming (batchPutItems cfg items) s
      obtain ⟨hl,hanswer⟩ := he.ends (wp_under (answered_batchPutItems items hs))
      obtain ⟨r,hzip⟩ := exists_answer hl hitem
      have hok := (hanswer _ hzip).1 (Option.isSome_iff_ne_none.mpr hk)
      rw [(he.ends (wp_under h)).2.1 _ hzip hrejects] at hok
      cases hok
    · have hmem := withPresence_of_mem hitem habs
      refine nothingToReclaim_of_leavesAll h ?_ ?_ ?_
      · exact fun results t h => h.2.2.2.2
      · refine wp_batchPutItems_rejected Machine.under_within hs.tracked hall (fun _ _ => trivial)
          (fun _ _ _ => trivial) fun t ht => ?_
        exact wp_mono (wp_under (fruitless_assignSlots ht.tracked (hallOf ht))) fun _ _ h =>
          ⟨h.answers,h.flushed ⟨_,hmem,rfl⟩⟩
      · intro hcold htarget
        refine wp_batchPutItems_rejected Machine.under_within hs.tracked hall (fun _ _ => trivial)
          (fun _ _ _ => trivial) fun t ht => ?_
        have hcold' : t.index.lru.coldest ≠ [] := by
          rw [← List.length_pos_iff, ht.length_coldest hs.tracked]
          exact List.length_pos_iff.mpr hcold
        have htarget' : t.evictTarget item.size ≠ 0 := by
          rw [ht.rest]
          exact htarget
        refine wp_mono (wp_and (wp_under (fruitless_assignSlots ht.tracked (hallOf ht)))
          (evicting_assignSlots ht.tracked (hallOf ht) hcold' ⟨_,hmem,rfl,htarget'⟩)) ?_
        rintro results t' ⟨hend,hless⟩
        obtain ⟨gone,hgone⟩ := hend.reclaims
        refine ⟨hend.answers,fun hcosts => ?_⟩
        have hsame := hcosts.2.2.1.extents
        have hlinked := (ht.tracked.evictsTo hgone.index).linked
        rw [ht.length_coldest hs.tracked, ← hlinked.card_extents,
          ← hs.tracked.linked.card_extents, hsame] at hless
        exact lt_irrefl _ hless
  · rintro ⟨habsent,hnothing⟩
    have hbatch : LeavesAll (fun results t => results = (withPresence s items).map rejectedAnswer ∧
        LookedUp (items.map PutItem.key) s t) (batchPutItems cfg items) s := by
      refine wp_batchPutItems_rejected (Machine.Within.refl _) hs.tracked hall (fun _ _ => rfl)
        (fun _ _ _ => rfl) fun t ht => ?_
      have hnone : ∀ x ∈ withPresence s items, x.2 = false → t.NothingToReclaim x.1.size := by
        intro x hx habs
        obtain ⟨hitem,hnone⟩ := mem_withPresence hx
        exact (ht.nothingToReclaim hs.tracked).mpr (hnothing x.1 hitem (hnone habs))
      refine wp_mono (leavesAll_assignSlots (hallOf ht) hnone) ?_
      rintro results t' ⟨rfl,rfl⟩
      exact ⟨rfl,rfl,ht⟩
    refine wp_mono hbatch ?_
    rintro results t ⟨rfl,ht⟩
    refine ⟨by simp [withPresence],fun x hx hrejects => ?_,ht.records,by rw [ht.rest],
      by rw [ht.rest]⟩
    rw [withPresence, List.map_map, ← List.map_prod_left_eq_zip] at hx
    obtain ⟨item,hitem,rfl⟩ := List.mem_map.mp hx
    have habs := habsent item hitem hrejects
    simp [rejectedAnswer, absentIn, habs, outOfSpace]

end StoreOps

open Store StoreOps in
/-- A size that the allocator always rejects is free of effects iff the key is absent and there
is nothing to reclaim: for `Put`, for one key of a batch, where in addition no slot may be left
of those that were granted together, and for a batch of such keys. -/
theorem costsNothing_iff_nothingToReclaim {cfg : StoreConfig} {s : Store} (hs : s.InOrder) :
    (∀ item : PutItem, s.allocator.Rejects item.size →
      (CostsNothing (put cfg item) s ↔
        s.index.find item.key = none ∧ s.NothingToReclaim item.size)) ∧
    (∀ (allocSize : ℕ) (offsets : List ℤ) (item : PutItem), s.allocator.Rejects item.size →
      (KeyCostsNothing (assignSlots cfg allocSize offsets [(item,false)]) s ↔
        offsets = [] ∧ s.NothingToReclaim item.size)) ∧
    ∀ items : List PutItem,
      (∀ item ∈ items, s.index.find item.key = none → s.allocator.Rejects item.size) →
      (BatchCostsNothing items (batchPut cfg (items.map PutItem.key) (items.map PutItem.data)
          (items.map PutItem.size)) s ↔
        (∀ item ∈ items, s.allocator.Rejects item.size → s.index.find item.key = none) ∧
        ∀ item ∈ items, s.index.find item.key = none → s.NothingToReclaim item.size) := by
  refine ⟨fun item hr => costsNothing_put_iff hs.tracked hr,
    fun _ _ item hr => keyCostsNothing_iff hs.tracked hr,fun items hr => ?_⟩
  rw [batchPut_of_items]
  exact batchCostsNothing_iff hs hr

open Release Store StoreOps in
/-- On a fresh store nothing can be reclaimed. -/
theorem costsNothing_iff_nothingToReclaim_fresh :
    (Store.init twoSlots).allocator.Rejects 9 ∧
      CostsNothing (put twoSlots ⟨"a",value 1,9⟩) (Store.init twoSlots) := by
  have hr : (Store.init twoSlots).allocator.Rejects 9 := .inr ⟨rfl,rfl⟩
  have hs : (Store.init twoSlots).InOrder := Store.inOrder_init (by decide)
  exact ⟨hr,((costsNothing_iff_nothingToReclaim hs).1 _ hr).mpr ⟨rfl,rfl,.inl rfl⟩⟩

open Release Store StoreOps in
/-- A size that is too large is answered with `NoSpace`, after "a" was evicted for it. -/
theorem exists_exec_not_costsNothing : ∃ s r s',
    SerialRun twoSlots (fun _ _ _ _ => True) s ∧ s.allocator.Rejects 9 ∧
    Exec storeMachine (fun _ _ => True) (put twoSlots ⟨"c",value 3,9⟩) s r s' ∧
    r = outOfSpace "c" ∧ (s.index.find "a").isSome = true ∧ s'.index.find "a" = none ∧
    ¬ CostsNothing (put twoSlots ⟨"c",value 3,9⟩) s := by
  obtain ⟨s,hrun,hs⟩ := Store.serialRun_of_script twoSlots (fun _ _ => true) storedTwo
    (f := fun s => (execWith storeMachine (fun _ _ => true) (put twoSlots ⟨"c",value 3,9⟩)
      (List.replicate 40 {}) s).map fun x => (s.allocator.initialized,s.allocator.sizeOk 9,x.1,
        (s.index.find "a").isSome,(x.2.index.find "a").isNone))
    (v := some (true,false,outOfSpace "c",true,true)) rfl
  obtain ⟨⟨r,s'⟩,hexec,hout⟩ := Option.map_eq_some_iff.mp hs
  obtain ⟨hinit,hout⟩ := Prod.mk.inj hout
  obtain ⟨hsize,hout⟩ := Prod.mk.inj hout
  obtain ⟨hr,hout⟩ := Prod.mk.inj hout
  obtain ⟨hsome,hnone⟩ := Prod.mk.inj hout
  have he : Exec storeMachine (fun _ _ => True) (put twoSlots ⟨"c",value 3,9⟩) s r s' :=
    (exec_of_execWith hexec).ok_mono fun _ _ _ => trivial
  have hgone : s'.index.find "a" = none := Option.isNone_iff_eq_none.mp hnone
  refine ⟨s,r,s',Store.serialRun_mono (fun _ _ _ _ _ => trivial) hrun,.inr ⟨hinit,hsize⟩,he,hr,hsome,
    hgone,fun h => ?_⟩
  have hsame := (he.ends h).2
  rw [hsame] at hgone
  rw [hgone] at hsome
  cases hsome

end FalconKV
