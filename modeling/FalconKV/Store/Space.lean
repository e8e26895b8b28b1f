import FalconKV.Store.Conservation
import FalconKV.Store.EvictionOrder
import FalconKV.Store.SingleKey
import FalconKV.Common.SlotRuns

/-! # Put finds room

A store that loses no slot has room for one more value whenever Meta confirms removals:
a full file whose slots do not wait in the pending queue has a record, forced eviction
takes at least one, and flushing the queue gives its slot back.
-/
namespace FalconKV
open AtomicCalls

/-- A size that the allocator accepts when a slot is free. -/
def SlotAllocator.Admits (a : SlotAllocator) (size : ℕ) : Prop :=
  0 < size ∧ (a.lazyInit size).sizeOk size = true

theorem SlotAllocator.SameShape.admits {a a' : SlotAllocator} {size : ℕ} (h : a.SameShape a')
    (hi : a.initialized = true) (hs : a.Admits size) : a'.Admits size := by
  have hi' := h.initialized.trans hi
  refine ⟨hs.1,?_⟩
  have hok := hs.2
  rw [lazyInit_of_initialized size hi] at hok
  rw [lazyInit_of_initialized size hi', sizeOk, h.autoDetected, h.slotSize]
  exact hok

/-- A failing allocation of an admitted size takes nothing. -/
theorem SlotAllocator.WF.alloc_fails {a : SlotAllocator} {size : ℕ} (h : a.WF) (hs : a.Admits size)
    (hfail : (a.alloc size).1.offset < 0) :
    a.initialized = true ∧ a.freeStack = [] ∧ a.nextSlot = a.totalSlots ∧ (a.alloc size).2 = a := by
  obtain ⟨hfree,hnext⟩ := (alloc_fails_iff h (.inr hs.1) hs.2).mp hfail
  have hinit : a.initialized = true := by
    by_contra hno
    have hno : a.initialized = false := by simpa using hno
    have hpos := slotCount_pos a.totalBytes size
    simp only [SlotAllocator.lazyInit, hno, Bool.false_eq_true, ↓reduceIte] at hnext
    omega
  have hok := hs.2
  rw [lazyInit_of_initialized size hinit] at hfree hnext hok
  have hle := h.next_le
  refine ⟨hinit,hfree,by omega,?_⟩
  have hnot : ¬ a.nextSlot < a.totalSlots := by omega
  simp [alloc, hinit, lazyInit_of_initialized size hinit, hok, hfree, hnot]

namespace Store

/-- Every slot in use belongs to one committed record or to one pending entry. -/
structure Owned (s : Store) : Prop where
  books : Books s 0 0
  tracked : s.index.Tracked
  slots : s.allocator.initialized = true → 0 < s.allocator.totalSlots

variable {s s' : Store} {op : StoreCall} {c : StoreChoice} {r : op.Res} {α : Type} {size : ℕ}

theorem slots_lazyInit {a : SlotAllocator} (size : ℕ) (h : a.initialized = true → 0 < a.totalSlots) :
    0 < (a.lazyInit size).totalSlots := by
  unfold SlotAllocator.lazyInit
  split
  · next hi => exact h hi
  · exact SlotAllocator.slotCount_pos _ _

theorem slots_step (h : s.allocator.initialized = true → 0 < s.allocator.totalSlots)
    (hs : s.step op c = some (r,s')) :
    s'.allocator.initialized = true → 0 < s'.allocator.totalSlots := by
  cases hop : op.takesSlots with
  | false =>
    have hshape := shape_of_not_takesSlots hop hs
    rw [hshape.initialized, hshape.totalSlots]
    exact h
  | true =>
    cases op with
    | alloc size =>
      cases hs
      intro hi
      dsimp only at hi ⊢
      unfold SlotAllocator.alloc at hi ⊢
      split at hi
      · next hz => simp [hz, h hi]
      · next hz =>
        rw [if_neg hz]
        have hpos := slots_lazyInit size h
        dsimp only
        split
        · exact hpos
        · split
          · exact hpos
          · split <;> exact hpos
    | batchAlloc size count =>
      cases hs
      intro hi
      dsimp only at hi ⊢
      unfold SlotAllocator.batchAlloc at hi ⊢
      split at hi
      · next hz => simp [hz, h hi]
      · next hz =>
        rw [if_neg hz]
        split at hi
        · next hz' => simp [hz', h hi]
        · next hz' =>
          rw [if_neg hz']
          have hpos := slots_lazyInit size h
          dsimp only
          split <;> exact hpos
    | _ => cases hop

theorem keeps_owned : Keeps storeMachine custody (fun s op => s.wellTimed op = true)
    fun _ s held => Books s held 0 ∧ s.index.Tracked ∧
      (s.allocator.initialized = true → 0 < s.allocator.totalSlots) where
  guar := fun tr _ _ _ _ _ _ h hok hs => keeps_books.guar tr h.1 hok hs
  step := fun tr i _ _ _ _ _ _ _ _ h hok hs hr =>
    ⟨keeps_books.step tr i h.1 hok hs hr,tracked_step h.2.1 hs hr,slots_step h.2.2 hs⟩

theorem owned_init {cfg : StoreConfig} (hcap : cfg.capacityBytes < 2^63) : (init cfg).Owned where
  books := books_init hcap
  tracked := StoreMetaIndex.tracked_create
  slots := by
    intro hi
    simp only [init, SlotAllocator.create] at hi ⊢
    split at hi
    · next hs =>
      rw [if_pos hs]
      exact SlotAllocator.slotCount_pos _ _
    · cases hi

/-- Operations that run one after the other, and overwrite nothing, leave every slot owned. -/
theorem owned_of_serialRun {cfg : StoreConfig} (hcap : cfg.capacityBytes < 2^63)
    (h : SerialRun cfg insertsAbsent s) : s.Owned := by
  induction h with
  | refl => exact owned_init hcap
  | tail _ hstep ih =>
    obtain ⟨op,reply,he⟩ := hstep
    have hdischarge : Discharges (op.run cfg) 0 := StoreOps.discharges_run op
    obtain ⟨g,rfl,hbooks,htracked,hslots⟩ := exec_uses keeps_owned hdischarge
      ⟨ih.books,ih.tracked,ih.slots⟩ (exec_wellTimed ih.books.sound he)
    exact ⟨hbooks,htracked,hslots⟩

theorem keeps_books_reclaiming (lost : Multiset ℕ) :
    Keeps storeMachine custody (fun s op => s.snapshotCurrent op = true ∧ op.isPut = false)
      fun _ s held => Books s held lost where
  guar := fun _ _ _ _ _ _ _ h hok hs => h.guar hok.1 hs
  step := fun _ _ _ _ _ _ _ _ _ _ h hok hs hr => h.step_of_not_put hok.2 hs hr

/-- A program that inserts nothing and gives back what it takes keeps the books. -/
theorem wp_books {p : StoreProg α} {lost : Multiset ℕ} {post post' : α → Store → Prop}
    (hp : Discharges p 0) (hsolo : Solo False False post p s) (hages : Ages post' p s)
    (h : Books s 0 lost) : wp storeMachine (fun _ _ => True) (fun _ t => Books t 0 lost) p s := by
  refine wp_of_exec fun a t he => ?_
  have hcalls := ((he.of_wp hsolo).1.of_wp hages).1
  have hok : Exec storeMachine (fun s op => s.snapshotCurrent op = true ∧ op.isPut = false) p s a t :=
    hcalls.ok_mono fun _ _ hok => ⟨hok.2.1.1,isPut_of_evictsColdest hok.1⟩
  obtain ⟨g,rfl,hbooks⟩ := exec_uses (keeps_books_reclaiming lost) hp h hok
  exact hbooks

end Store

def removesConfirmed : StoreCall → StoreChoice → Bool
  | .syncRemove .., c => c.status.isOk
  | _, _ => true

def Transfer.isFull : Transfer → Bool
  | full => true
  | short .. => false

def writesFull : StoreCall → StoreChoice → Bool
  | .pwrite .., c | .uringWrite .., c => c.transfer.isFull
  | _, _ => true

theorem Store.pwrite_of_isFull {s s' : Store} {c : StoreChoice} {offset size : ℕ} {d : Bytes}
    {r : Transferred} (hfull : c.transfer.isFull = true)
    (hs : s.pwrite c offset (some d) size = some (r,s')) :
    r.count = size ∧ s' = { s with file := overwrite s.file offset d size } := by
  unfold pwrite at hs
  split at hs
  · next hdata =>
    cases hdata
    cases hs
    exact ⟨rfl,rfl⟩
  · next hdata => cases hdata
  · next hshort =>
    rw [hshort] at hfull
    cases hfull

def confirming : Machine storeCalls Store := storeMachine.under removesConfirmed

/-- Removals are confirmed and writes are full. -/
def obliging : Machine storeCalls Store := confirming.under writesFull

namespace StoreOps
open Store

variable {cfg : StoreConfig} {s : Store} {size : ℕ}

theorem reclaimed_flushExpired (hb : Books s 0 0) :
    wp storeMachine (fun _ _ => True) (fun _ t => Books t 0 0 ∧ Reclaims s t []) flushExpired s := by
  have hages : Ages (fun _ t => Reclaims s t []) flushExpired s := ages_aside aside_flushExpired
  exact wp_and (wp_books discharges_flushExpired solo_flushExpired hages hb)
    (wp_ok_mono hages fun _ _ _ => trivial)

theorem reclaimed_forceEvict (neededBytes : ℕ) (hb : Books s 0 0) (ht : s.index.Tracked) :
    wp storeMachine (fun _ _ => True) (fun _ t => Books t 0 0 ∧ ∃ gone, Reclaims s t gone)
      (forceEvict cfg neededBytes) s := by
  have hages : Ages (fun _ t => ∃ gone, Reclaims s t gone) (forceEvict cfg neededBytes) s :=
    ages_forceEvict neededBytes ht
  exact wp_and (wp_books (discharges_forceEvict _) (solo_forceEvict _ ht.sound) hages hb)
    (wp_ok_mono hages fun _ _ _ => trivial)

theorem pending_freeEntries (entries : List EvictEntry) :
    wp storeMachine (fun _ _ => True) (fun _ t => t.pending = s.pending) (freeEntries entries) s := by
  have hfree : ∀ (e : EvictEntry) (rest : List EvictEntry) (t : Store), t.pending = s.pending →
      wp storeMachine (fun _ _ => True) (fun _ t' => t'.pending = s.pending)
        (invoke (.free (int64 e.offset) e.allocSize)) t := by
    intro e rest t ht
    refine ⟨trivial,fun c r t' hs => ?_⟩
    cases hs
    exact ht
  have hloop : wp storeMachine (fun _ _ => True) (fun _ t => t.pending = s.pending)
      (Prog.forEach (fun e => invoke (.free (int64 e.offset) e.allocSize)) entries) s :=
    wp_forEach (I := fun _ (t : Store) => t.pending = s.pending) rfl hfree
  exact wp_bind.mpr (wp_mono hloop fun _ _ h => h)

/-- Nothing waits any more. -/
theorem pending_flushAllForced :
    wp storeMachine (fun _ _ => True) (fun _ t => t.pending.entries = []) flushAllForced s := by
  refine wp_perform trivial fun c entries s₁ h₁ => ?_
  refine wp_mono (pending_freeEntries _) fun _ t ht => ?_
  cases h₁
  rw [ht]
  rfl

theorem reclaimed_flushAllForced (hb : Books s 0 0) :
    wp storeMachine (fun _ _ => True) (fun _ t => Books t 0 0 ∧ Reclaims s t [] ∧
      t.pending.entries = []) flushAllForced s := by
  have hages : Ages (fun _ t => Reclaims s t []) flushAllForced s := ages_aside aside_flushAllForced
  have hbooks := wp_books discharges_flushAllForced solo_flushAllForced hages hb
  exact wp_and hbooks (wp_and (wp_ok_mono hages fun _ _ _ => trivial) pending_flushAllForced)

/-- If something can be evicted, and removals are confirmed, something is. -/
theorem forceEvict_progress {neededBytes : ℕ} (ht : s.index.Tracked) (hneed : 0 < neededBytes)
    (hcold : s.index.lru.coldest ≠ []) :
    wp confirming (fun _ _ => True)
      (fun _ t => t.index.lru.coldest.length < s.index.lru.coldest.length)
      (forceEvict cfg neededBytes) s := by
  unfold forceEvict forceEvictRounds
  rw [if_neg (by omega)]
  refine wp_perform_under trivial (fun _ => rfl) fun c _ => ?_
  have hne := ht.candidates_ne_nil (neededBytes - 0) 64 hcold (by omega) (by omega)
  have hpre := ht.candidates (neededBytes - 0) 64
  generalize s.index.getLRUCandidatesBySize (neededBytes - 0) 64 = candidates at hne hpre
  have hempty : candidates.entries.isEmpty = false := by simpa using hne
  rw [hempty]
  have hnotify : wp confirming (fun _ _ => True) (fun status t => status.isOk = true ∧ t = s)
      (notifyRemove cfg (candidates.entries.map StoreKeyRecord.key)) s := by
    unfold notifyRemove
    split
    · refine ⟨trivial,fun c status t h => ?_⟩
      obtain ⟨hallow,h⟩ := Machine.under_step h
      cases h
      exact ⟨hallow,rfl⟩
    · exact ⟨rfl,rfl⟩
  refine wp_bind.mpr (wp_mono hnotify ?_)
  rintro status t ⟨hok,rfl⟩
  rw [hok]
  have hdrop := ages_dropCandidates ht hpre
  refine wp_bind.mpr (wp_mono (wp_under (wp_ok_mono hdrop fun _ _ _ => trivial)) fun _ t₁ h₁ => ?_)
  have hrest : Ages (fun _ t => ∃ gone, Reclaims t₁ t gone)
      (forceEvictRounds cfg neededBytes 4 (u32 (0 + candidates.totalAllocSize))) t₁ :=
    ages_forceEvictRounds _ 4 _ (ht.evictsTo h₁.index)
  refine wp_mono (wp_under (wp_ok_mono hrest fun _ _ _ => trivial)) ?_
  rintro _ t₂ ⟨gone,h₂⟩
  have hlen := congrArg List.length h₁.index.1
  have hlen' := congrArg List.length h₂.index.1
  have hpos := List.length_pos_of_ne_nil hne
  simp only [List.length_append, List.length_map] at hlen hlen'
  omega

/-- When an allocation fails, every slot of the file belongs to a record or waits. -/
theorem full_of_alloc_fails (hb : Books s 0 0) (ht : s.index.Tracked) (hsize : s.allocator.Admits size)
    (hfail : (s.allocator.alloc size).1.offset < 0) : s.allocator.initialized = true ∧
      s.index.lru.coldest.length + s.pending.entries.length = s.allocator.totalSlots ∧
      { s with allocator := (s.allocator.alloc size).2 } = s := by
  obtain ⟨hinit,hfree,hnext,hsame⟩ := hb.wf.alloc_fails hsize hfail
  have hused := hb.used
  have hcount := hb.used_eq
  rw [hfree, hnext] at hused
  simp only [StoreMetaIndex.offsets, Multiset.card_map, ht.linked.card_extents,
    PendingEvictQueue.offsets, Multiset.coe_card, List.length_map, Multiset.card_zero] at hcount
  rw [List.length_nil] at hused
  refine ⟨hinit,by omega,?_⟩
  rw [hsame]

/-- A retry may rely on a full file. -/
theorem alloc_or_succeeds {retry : StoreProg Allocated} (hb : Books s 0 0) (ht : s.index.Tracked)
    (hsize : s.allocator.Admits size)
    (hretry : s.allocator.initialized = true →
      s.index.lru.coldest.length + s.pending.entries.length = s.allocator.totalSlots →
      wp confirming (fun _ _ => True) (fun a _ => 0 ≤ a.offset) retry s) :
    wp confirming (fun _ _ => True) (fun a _ => 0 ≤ a.offset)
      (invoke (.alloc size) >>= fun a => if 0 ≤ a.offset then pure a else retry) s := by
  refine wp_perform_under trivial (fun _ => rfl) fun c _ => ?_
  split
  · next hpos => exact hpos
  · next hneg =>
    obtain ⟨hinit,hfull,hsame⟩ := full_of_alloc_fails hb ht hsize (not_le.mp hneg)
    dsimp only at hsame ⊢
    rw [hsame]
    exact hretry hinit hfull

/-- One of the four attempts succeeds. -/
theorem allocForPut_succeeds (hs : s.Owned) (hsize : s.allocator.Admits size) :
    wp confirming (fun _ _ => True) (fun a _ => 0 ≤ a.offset) (allocForPut cfg size) s := by
  refine alloc_or_succeeds hs.books hs.tracked hsize fun hinit _ => ?_
  have hadmits : ∀ {t : Store} {gone : List Key}, Reclaims s t gone →
      t.index.Tracked ∧ t.allocator.Admits size :=
    fun ht => ⟨hs.tracked.evictsTo ht.index,ht.shape.admits hinit hsize⟩
  refine wp_bind.mpr (wp_mono (wp_under (reclaimed_flushExpired hs.books)) ?_)
  rintro _ s₁ ⟨hb₁,h₁⟩
  obtain ⟨ht₁,hsize₁⟩ := hadmits h₁
  refine alloc_or_succeeds hb₁ ht₁ hsize₁ fun _ hfull => ?_
  refine wp_perform_under trivial (fun _ => rfl) fun c _ => ?_
  have htarget : 0 < max size (u32 (s₁.allocator.getTotalBytes / 20)) :=
    Nat.lt_of_lt_of_le hsize.1 (Nat.le_max_left _ _)
  have hevict : wp confirming (fun _ _ => True)
      (fun _ t => (Books t 0 0 ∧ ∃ gone, Reclaims s₁ t gone) ∧ (s₁.index.lru.coldest ≠ [] →
        t.index.lru.coldest.length < s₁.index.lru.coldest.length))
      (forceEvict cfg (max size (u32 (s₁.allocator.getTotalBytes / 20)))) s₁ := by
    have hbooks : wp confirming (fun _ _ => True) (fun _ t => Books t 0 0 ∧ ∃ gone, Reclaims s₁ t gone)
        (forceEvict cfg (max size (u32 (s₁.allocator.getTotalBytes / 20)))) s₁ :=
      wp_under (reclaimed_forceEvict _ hb₁ ht₁)
    by_cases hcold : s₁.index.lru.coldest = []
    · exact wp_mono hbooks fun _ t ht => ⟨ht,fun hne => absurd hcold hne⟩
    · exact wp_mono (wp_and hbooks (forceEvict_progress ht₁ htarget hcold)) fun _ t ht =>
        ⟨ht.1,fun _ => ht.2⟩
  refine wp_bind.mpr (wp_mono hevict ?_)
  rintro _ s₂ ⟨⟨hb₂,gone,h₂⟩,hprogress⟩
  refine wp_bind.mpr (wp_mono (wp_under (reclaimed_flushExpired hb₂)) ?_)
  rintro _ s₃ ⟨hb₃,h₃⟩
  have h₀₃ := (h₁.trans h₂).trans h₃
  obtain ⟨ht₃,hsize₃⟩ := hadmits h₀₃
  refine alloc_or_succeeds hb₃ ht₃ hsize₃ fun _ _ => ?_
  refine wp_bind.mpr (wp_mono (wp_under (reclaimed_flushAllForced hb₃)) ?_)
  rintro _ s₄ ⟨hb₄,h₄,hempty⟩
  obtain ⟨ht₄,hsize₄⟩ := hadmits (h₀₃.trans h₄)
  refine ⟨trivial,fun c a s' h => ?_⟩
  obtain ⟨-,h⟩ := Machine.under_step h
  cases h
  by_contra hneg
  -- all slots belong to records now, but forced eviction has taken one if there was any
  obtain ⟨hinit₄,hfull₄,-⟩ := full_of_alloc_fails hb₄ ht₄ hsize₄ (not_le.mp hneg)
  have hpos := hs.slots hinit
  have hslots := (h₀₃.trans h₄).shape.totalSlots
  have hslots₁ := h₁.shape.totalSlots
  have hcold₂ := congrArg List.length h₂.index.1
  have hcold₃ := congrArg List.length h₃.index.1
  have hcold₄ := congrArg List.length h₄.index.1
  simp only [List.length_append, List.length_nil] at hcold₂ hcold₃ hcold₄
  rw [hempty, List.length_nil] at hfull₄
  have hne : s₁.index.lru.coldest ≠ [] := List.ne_nil_of_length_pos (by omega)
  have hless := hprogress hne
  omega

/-- A write that fails blames the file or its arguments. -/
theorem write_status {offset : ℕ} {data : Option Bytes} :
    wp confirming (fun _ _ => True) (fun status _ => status.code ≠ .noSpace)
      (write offset data size) s := by
  unfold write
  split
  · simp [Status.invalidArg]
  · refine wp_perform trivial fun c r s' _ => ?_
    split <;> simp [Status.ioError, Status.OK]

/-- A full write of data succeeds. -/
theorem write_isOk {offset : ℕ} {data : Option Bytes} (hdata : data.isSome = true) (hsize : 0 < size) :
    wp obliging (fun _ _ => True) (fun status _ => status = .OK) (write offset data size) s := by
  obtain ⟨d,rfl⟩ := Option.isSome_iff_exists.mp hdata
  unfold write
  split
  · next h =>
    simp only [Option.isNone_some, Bool.false_or, beq_iff_eq] at h
    omega
  · refine wp_perform trivial fun c r s' h => ?_
    obtain ⟨hfull,h⟩ := Machine.under_step h
    obtain ⟨-,h⟩ := Machine.under_step h
    have hcount : r.count = size := (pwrite_of_isFull hfull h).1
    rw [if_neg (not_not.mpr hcount)]
    rfl

theorem wp_notifyCommit {M : Machine storeCalls Store} {β : Type} {post : β → Store → Prop}
    {records : List StoreKeyRecord} {k : Unit → StoreProg β}
    (h : ∀ t, wp M (fun _ _ => True) post (k ()) t) :
    wp M (fun _ _ => True) post (notifyCommit cfg records >>= k) s := by
  unfold notifyCommit
  split
  · exact ⟨trivial,fun _ _ t _ => h t⟩
  · exact h s

/-- `putInto` answers what the write answered. -/
theorem wp_putInto {M : Machine storeCalls Store} {P : Status → Prop} {item : PutItem} {a : Allocated}
    (hwrite : wp M (fun _ _ => True) (fun status _ => P status)
      (write a.offset.toNat item.data item.size) s) (hok : P .OK) :
    wp M (fun _ _ => True) (fun r _ => P r.status) (putInto cfg item a) s := by
  refine wp_bind.mpr (wp_mono hwrite fun status s₁ hstatus => ?_)
  split
  · exact ⟨trivial,fun _ _ _ _ => hstatus⟩
  · exact ⟨trivial,fun _ _ _ _ => ⟨trivial,fun _ _ _ _ => wp_notifyCommit fun _ => hok⟩⟩

/-- `put` of an absent key answers what the write into its slot answers. -/
theorem wp_put_owned {M : Machine storeCalls Store} {P : Status → Prop} {item : PutItem}
    (hget : ∀ c r s', M.step (.indexGet item.key) c s = some (r,s') → r = none ∧ s' = s)
    (halloc : wp M (fun _ _ => True) (fun a _ => 0 ≤ a.offset) (allocForPut cfg item.size) s)
    (hwrite : ∀ (a : Allocated) t, wp M (fun _ _ => True) (fun status _ => P status)
      (write a.offset.toNat item.data item.size) t) (hok : P .OK) :
    wp M (fun _ _ => True) (fun r _ => P r.status) (put cfg item) s := by
  refine wp_perform trivial fun c found s' h => ?_
  obtain ⟨rfl,rfl⟩ := hget c found s' h
  refine wp_bind.mpr (wp_mono halloc fun a t ha => ?_)
  rw [if_neg (not_lt.mpr ha)]
  exact wp_putInto (hwrite a t) hok

end StoreOps

def StoreCall.hasData : StoreCall → Bool
  | pwrite _ data _ | uringWrite _ data _ => data.isSome
  | _ => true

/-- In obliging surroundings no call gets stuck. -/
theorem obliging_step (op : StoreCall) (hop : op.hasData = true) (s : Store) :
    ∃ c r s', obliging.step op c s = some (r,s') := by
  cases op with
  | pwrite offset data size | uringWrite offset data size =>
    obtain ⟨d,rfl⟩ := Option.isSome_iff_exists.mp hop
    exact ⟨{},_,_,rfl⟩
  | _ => exact ⟨{},_,_,rfl⟩

namespace StoreOps

variable {cfg : StoreConfig}

theorem hasData_of_reclaims {op : StoreCall} (h : reclaims op = true) : op.hasData = true := by
  cases op with
  | pwrite | uringWrite => cases h
  | _ => rfl

abbrev WritesData {α : Type} (p : StoreProg α) : Prop :=
  Prog.Makes (E := storeCalls) (fun op => op.hasData = true) p

theorem writesData_write {offset size : ℕ} {data : Option Bytes} (h : data.isSome = true) :
    WritesData (write offset data size) := by
  unfold write
  split
  · trivial
  · refine Prog.makes_call_bind h fun r => ?_
    split <;> trivial

theorem writesData_put {item : PutItem} (h : item.data.isSome = true) : WritesData (put cfg item) := by
  refine Prog.makes_call_bind rfl fun found => ?_
  split
  · trivial
  · have halloc : WritesData (allocForPut cfg item.size) :=
      (reclaimsOnly_allocForPut _).mono fun _ => hasData_of_reclaims
    refine halloc.bind fun a => ?_
    split
    · trivial
    · refine (writesData_write h).bind fun status => ?_
      split
      · exact Prog.makes_call_bind rfl fun _ => trivial
      · refine Prog.makes_call_bind rfl fun now => Prog.makes_call_bind rfl fun _ => ?_
        unfold notifyCommit
        split
        · exact Prog.makes_call_bind rfl fun _ => trivial
        · trivial

end StoreOps

/-- If Meta confirms removals and the write is full, a put of an absent key succeeds; and no
space is the answer only if Meta did not confirm a removal. -/
theorem put_isOk_of_owned {cfg : StoreConfig} {s : Store} {item : PutItem} (hs : s.Owned)
    (habsent : s.index.find item.key = none) (hsize : s.allocator.Admits item.size) :
    (item.data.isSome = true →
      (∃ r s', Exec obliging (fun _ _ => True) (StoreOps.put cfg item) s r s') ∧
      ∀ r s', Exec obliging (fun _ _ => True) (StoreOps.put cfg item) s r s' → r.status = .OK) ∧
    ∀ r s', Exec confirming (fun _ _ => True) (StoreOps.put cfg item) s r s' →
      r.status.code ≠ .noSpace := by
  have hget : ∀ c r s', confirming.step (.indexGet item.key) c s = some (r,s') → r = none ∧ s' = s := by
    intro c r s' h
    obtain ⟨-,h⟩ := Machine.under_step h
    cases h
    rw [StoreMetaIndex.get_of_none habsent]
    exact ⟨rfl,rfl⟩
  have halloc : wp confirming (fun _ _ => True) (fun a _ => 0 ≤ a.offset)
      (StoreOps.allocForPut cfg item.size) s := StoreOps.allocForPut_succeeds hs hsize
  refine ⟨fun hdata => ⟨exists_exec (StoreOps.writesData_put hdata) obliging_step s,?_⟩,?_⟩
  · intro r s' he
    refine he.ends (StoreOps.wp_put_owned ?_ (wp_under halloc)
      (fun _ _ => StoreOps.write_isOk hdata hsize.1) rfl)
    exact fun c r s' h => hget c r s' (Machine.under_step h).2
  · intro r s' he
    exact he.ends (StoreOps.wp_put_owned (P := fun status => status.code ≠ .noSpace) hget halloc
      (fun _ _ => StoreOps.write_status) (by simp [Status.OK]))

open Release in
/-- Both slots of a file hold values, and a third key is stored. -/
theorem put_isOk_of_owned_full : ∃ s, SerialRun twoSlots Store.insertsAbsent s ∧
    s.allocator.usedSlots = 2 ∧ s.pending.entries = [] ∧
    ∃ r s', Exec obliging (fun _ _ => True) (StoreOps.put twoSlots ⟨"c",value 3,8⟩) s r s' ∧
      r.status = .OK := by
  obtain ⟨s,hrun,hs⟩ := Store.serialRun_of_script twoSlots Store.keyAbsent
    (undisturbed [.put "a" (value 1) 8,.put "b" (value 2) 8])
    (f := fun s => (s.allocator.usedSlots,s.pending.entries,(s.index.find "c").isSome,
      (s.allocator.lazyInit 8).sizeOk 8)) (v := (2,[],false,true)) rfl
  obtain ⟨hused,hpending,hfind,hok⟩ : s.allocator.usedSlots = 2 ∧ s.pending.entries = [] ∧
      s.index.find "c" = none ∧ (s.allocator.lazyInit 8).sizeOk 8 = true := by simpa using hs
  have habsent : SerialRun twoSlots Store.insertsAbsent s :=
    Store.serialRun_mono (fun _ _ _ _ => .inr) hrun
  have howned := Store.owned_of_serialRun (by decide) habsent
  have hput := (@put_isOk_of_owned twoSlots s ⟨"c",value 3,8⟩ howned hfind ⟨by decide,hok⟩).1 rfl
  obtain ⟨⟨r,s',he⟩,hstatus⟩ := hput
  exact ⟨s,habsent,hused,hpending,r,s',he,hstatus r s' he⟩

end FalconKV
