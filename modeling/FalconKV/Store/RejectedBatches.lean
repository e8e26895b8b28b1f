import FalconKV.Store.BatchEquivalence
import FalconKV.Store.Outlines
import FalconKV.Store.SingleKey

/-! # Batches that start with rejected sizes

A batch whose first size is rejected makes the calls that its puts make, as long as the keys that
are present come first and no size is rejected after an accepted one. Both leave stores that differ
in access times and in which slots are free.
-/
namespace FalconKV
open AtomicCalls

namespace Store
variable {s t s' t' : Store} {keys keys' : List Key} {size : ℕ} {a a' : Allocated} {lost : Multiset ℕ}

structure Akin (s t : Store) : Prop where
  entry : t.entry = s.entry
  coldest : t.index.lru.coldest = s.index.lru.coldest
  file : t.file = s.file
  shape : s.allocator.SameShape t.allocator

theorem coldSizes_eq (s : Store) : s.index.coldSizes =
    (s.index.lru.coldest.filterMap s.entry).map StoreKeyRecord.allocSize := by
  have hentries : s.index.lru.coldest.filterMap s.entry =
      (s.index.lru.coldest.filterMap s.index.find).map StoreKeyRecord.timeless := by
    rw [List.map_filterMap]
    rfl
  rw [hentries, List.map_map]
  rfl

theorem Akin.forcedKeys (h : Akin s t) : StoreOps.forcedKeys t size = StoreOps.forcedKeys s size := by
  rw [StoreOps.forcedKeys, StoreOps.forcedKeys, coldSizes_eq, coldSizes_eq, h.coldest, h.entry,
    evictTarget, evictTarget, SlotAllocator.getTotalBytes, SlotAllocator.getTotalBytes,
    h.shape.totalBytes]

theorem entry_of_reclaims {gone : List Key} (h : Reclaims s t gone) (key : Key) :
    t.entry key = if key ∈ gone then none else s.entry key := by
  rw [entry, h.index.2]
  split
  · rfl
  · rfl

/-- The same size evicts the same keys. -/
theorem Akin.forced (h : Akin s t) (hs : StoreOps.Forced s size a s')
    (ht : StoreOps.Forced t size a' t') : Akin s' t' := by
  have hreclaims := ht.reclaims
  rw [h.forcedKeys] at hreclaims
  constructor
  · funext key
    rw [entry_of_reclaims hreclaims, entry_of_reclaims hs.reclaims, h.entry]
  · have hsplit := hreclaims.index.1
    rw [h.coldest, hs.reclaims.index.1] at hsplit
    exact (List.append_cancel_left hsplit).symm
  · rw [ht.file, hs.file, h.file]
  · have hback := hs.reclaims.shape
    have hforth := h.shape.trans hreclaims.shape
    exact ⟨hforth.slotSize.trans hback.slotSize.symm,hforth.totalSlots.trans hback.totalSlots.symm,
      hforth.totalBytes.trans hback.totalBytes.symm,hforth.initialized.trans hback.initialized.symm,
      hforth.autoDetected.trans hback.autoDetected.symm⟩

theorem Quiescent.lookedUp (h : Quiescent lost s) (hl : LookedUp keys s t) : Quiescent lost t := by
  have hextents := hl.records.extents
  have hrest := hl.rest
  refine ⟨⟨?_,hl.tracked.sound,?_,?_,?_,?_⟩,hl.tracked⟩
  · rw [hrest]
    exact h.books.wf
  · have hbalance := h.books.balance
    rw [hrest]
    simp only [StoreMetaIndex.offsets] at hbalance ⊢
    rw [hextents]
    exact hbalance
  · rw [hrest]
    exact h.books.used
  · rw [hextents, hrest]
    exact h.books.recordSize
  · rw [hrest]
    exact h.books.heldSize

theorem Quiescent.allocReclaiming {cfg : StoreConfig} (h : Quiescent lost s)
    (he : Exec obliging (fun _ _ => True) (StoreOps.allocReclaiming cfg size) s ⟨-1,0⟩ t) :
    Quiescent lost t := by
  have hsolo : Solo False False _ (StoreOps.allocReclaiming cfg size) s :=
    StoreOps.solo_allocReclaiming size h.books.sound
  have hages := @StoreOps.ages_allocReclaiming cfg s size ⟨h.tracked,h.books.wf.pos⟩
  have hcalls := (he.of_under.of_under.of_wp hsolo).1.of_wp hages
  have hok : Exec storeMachine (fun s op => s.snapshotCurrent op = true ∧ op.isPut = false) _ s
      (⟨-1,0⟩ : Allocated) t :=
    hcalls.1.ok_mono fun _ _ hok => ⟨hok.2.1.1,isPut_of_evictsColdest hok.1⟩
  obtain ⟨g,hgranted,hbooks⟩ := exec_uses (keeps_books_reclaiming lost)
    (StoreOps.countsSlots_custody.uses_allocReclaiming size) h.books hok
  obtain rfl : g = 0 := hgranted.1
  exact ⟨hbooks,hcalls.2.1.tracked⟩

/-- Where no slot waits, the slots that are used can be seen from the records. -/
theorem Quiescent.used_eq_of_akin (hs : Quiescent lost s) (ht : Quiescent lost t) (h : Akin s t)
    (hpending : s.pending.entries = []) (hpending' : t.pending.entries = []) :
    t.allocator.usedSlots = s.allocator.usedSlots := by
  rw [hs.used_eq, ht.used_eq, hpending, hpending', h.coldest]

theorem find_of_absent {item : PutItem} (h : s.image.absent item = true) :
    s.index.find item.key = none := by
  cases hf : s.index.find item.key with
  | none => rfl
  | some rec => simp [Image.absent, image, entry, hf] at h

/-- A key that is absent stays so when records leave. -/
theorem absent_of_reclaims {gone : List Key} {item : PutItem} (h : Reclaims s t gone)
    (habs : s.image.absent item = true) : t.image.absent item = true := by
  have hentry : t.entry item.key = none := by
    rw [entry_of_reclaims h]
    split
    · rfl
    · exact Option.isNone_iff_eq_none.mp habs
  exact Option.isNone_iff_eq_none.mpr hentry

def RecordsFit (s : Store) : Prop := ∀ key rec, s.entry key = some rec → rec.size ≤ rec.allocSize

theorem RecordsFit.reclaims {gone : List Key} (h : s.RecordsFit) (hr : Reclaims s t gone) :
    t.RecordsFit := by
  intro key rec hrec
  rw [entry_of_reclaims hr] at hrec
  split at hrec
  · cases hrec
  · exact h key rec hrec

end Store

namespace StoreOps
open Store

variable {cfg : StoreConfig} {s s' t u : Store} {keys : List Key} {item : PutItem}
  {items refused : List PutItem} {lost : Multiset ℕ} {answers results : List StorePutResult} {n : ℕ}
  {rest : List (PutItem × Bool)}

structure Even (lost : Multiset ℕ) (s t : Store) : Prop where
  akin : Akin s t
  left : Quiescent lost s
  right : Quiescent lost t

structure Junction (cfg : StoreConfig) (lost : Multiset ℕ) (s : Store)
    (present refused taken : List PutItem) (answers : List StorePutResult) (u : Store)
    (results : List StorePutResult) (v : Store) where
  looked : Store
  left : Store
  right : Store
  granted : Store
  later : List StorePutResult
  assigned : List StorePutResult
  puts : Exec obliging (fun _ _ => True) (Prog.mapEach (put cfg) taken) left later u
  assigns : Exec obliging (fun _ _ => True)
    (assignSlots cfg 0 [] (taken.map fun item => (item,false))) right assigned granted
  writes : Exec obliging (fun _ _ => True) (writeAndCommit cfg ((present ++ (refused ++ taken)).zip
    (present.map (fun _ => ⟨.OK,0,0⟩) ++ (refused.map (fun item => outOfSpace item.key) ++ assigned))))
    granted results v
  answers : answers.map (fun r => r.status.isOk) = present.map (fun _ => true) ++
    (refused.map (fun _ => false) ++ later.map fun r => r.status.isOk)
  lookups : LookedUp (present.map PutItem.key) s looked
  even : Even lost left right
  reclaims : ∃ gone, Reclaims looked left gone
  flushed : left.pending.entries = [] ∧ right.pending.entries = []

structure Takes (s : Store) (taken : List PutItem) : Prop where
  initialized : s.allocator.initialized = true
  absent : ∀ item ∈ taken, s.image.absent item = true
  sizes : ∀ item ∈ taken, s.allocator.sizeOk item.size = true
  keys : taken.Pairwise fun y z => y.key ≠ z.key
  room : taken.length ≤ s.allocator.available
  data : ∀ item ∈ taken, item.HasData

variable {taken : List PutItem}

theorem Takes.absents (h : Takes s taken) : s.image.absents taken = taken :=
  List.filter_eq_self.mpr h.absent

/-- What a put does to the contents when no other key leaves. -/
theorem contents_put {r : StorePutResult} (hs : Quiescent lost s) (hintact : Intact s 0)
    (habs : s.image.absent item = true) (hr : r.status.isOk = true)
    (hkept : ∀ key, key ≠ item.key → t.entry key = s.entry key)
    (he : Exec obliging (fun _ _ => True) (put cfg item) s r t) : Intact t 0 ∧
      t.contents = s.contents.bind item.key (bytesOf (item.data.getD fun _ => 0) item.size) := by
  have hsound := hs.books.sound
  have hnone : s.contents item.key = none := contents_eq_none (find_of_absent habs)
  have hsized : Exec storeMachine (fun t call => t.wellSized call = true) (put cfg item) s r t := by
    apply (he.of_under.of_under.of_wp (solo_put (D := True) (F := True) item hsound)).1.ok_mono
    rintro t call ⟨⟨hcurrent,-,hfits⟩,-⟩
    exact Bool.and_eq_true_iff.mpr ⟨hcurrent,hfits trivial⟩
  obtain ⟨m',hmirror⟩ := hsized.withRecord Mirror.note s.contents
  obtain ⟨g,rfl,hmirrored⟩ := exec_uses keeps_mirrored (discharges_put item) ⟨hintact,rfl⟩ hmirror
  have hstep := (hmirror.of_wp (tracks_put item.key item.data item.size hsound)).2
  have hcontents : t.contents = m' := hmirrored.contents
  dsimp only at hstep
  rw [← hcontents] at hstep
  refine ⟨hmirrored.intact,?_⟩
  generalize hafter : t.contents = after at hstep
  generalize hdata : item.data = data at hstep ⊢
  cases hstep with
  | present hkey =>
    rw [hnone] at hkey
    cases hkey
  | refused _ _ hfail =>
    rw [hr] at hfail
    cases hfail
  | @stored _ d _ _ m'' _ hroom =>
    funext key
    rw [Bindings.bind_apply, Bindings.bind_apply]
    split
    · rfl
    · next hne =>
      have hsame : t.contents key = m'' key := by
        rw [hafter, Bindings.bind_apply, if_neg hne]
      have hsome : (t.contents key).isSome = (s.contents key).isSome := by
        have hentry := congrArg Option.isSome (hkept key hne)
        simpa [entry, contents] using hentry
      rw [hsame] at hsome
      cases hold : s.contents key with
      | none => exact hroom.eq_none hold
      | some value =>
        rw [hold] at hsome
        obtain ⟨value',hvalue⟩ := Option.isSome_iff_exists.mp hsome
        rw [hvalue, ← hold]
        exact (hroom.eq_some hvalue).symm

theorem Takes.allots (h : Takes s taken) (hs : Quiescent lost s) :
    s.allocator.Allots (taken.map PutItem.size) := by
  apply hs.exact.allots h.initialized
  rw [List.length_map]
  exact h.room

/-- The items can still be stored when records have left. -/
theorem Takes.of_shape (h : Takes s taken) (hshape : s.allocator.SameShape t.allocator)
    (habs : ∀ item ∈ taken, t.image.absent item = true)
    (hroom : s.allocator.available ≤ t.allocator.available) : Takes t taken where
  initialized := hshape.initialized.trans h.initialized
  absent := habs
  sizes := fun item hitem => hshape.sizeOk.trans (h.sizes item hitem)
  keys := h.keys
  room := h.room.trans hroom
  data := h.data

theorem available_le (hs : Quiescent lost s) (ht : Quiescent lost t)
    (hshape : s.allocator.SameShape t.allocator)
    (hused : t.allocator.usedSlots ≤ s.allocator.usedSlots) :
    s.allocator.available ≤ t.allocator.available := by
  have hbefore := available_eq hs
  have hafter := available_eq ht
  rw [hshape.totalSlots] at hafter
  omega

section
variable {present : List PutItem} {v : Store}

/-- What can be stored at the start can be stored where the puts and the batch have come to. -/
theorem Junction.takes (j : Junction cfg lost s present refused taken answers u results v)
    (hs : Quiescent lost s) (h : Takes s taken) : Takes j.left taken ∧ Takes j.right taken := by
  obtain ⟨gone,hgone⟩ := j.reclaims
  have hshape : s.allocator.SameShape j.left.allocator := by
    have hlooked := hgone.shape
    rw [j.lookups.rest] at hlooked
    exact hlooked
  have hleft : Takes j.left taken := by
    apply h.of_shape hshape
    · intro item hitem
      apply absent_of_reclaims hgone
      rw [image_lookedUp j.lookups]
      exact h.absent item hitem
    · apply available_le hs j.even.left hshape
      have hle := hgone.length_le
      have hlen := j.lookups.length_coldest hs.tracked
      rw [j.even.left.used_eq, hs.used_eq, j.flushed.1, List.length_nil]
      omega
  have hused := j.even.left.used_eq_of_akin j.even.right j.even.akin j.flushed.1 j.flushed.2
  refine ⟨hleft,hleft.of_shape j.even.akin.shape ?_ ?_⟩
  · intro item hitem
    have hentry := congrFun j.even.akin.entry item.key
    exact (congrArg Option.isNone hentry).trans (hleft.absent item hitem)
  · exact available_le j.even.left j.even.right j.even.akin.shape hused.le

end

end StoreOps

end FalconKV
