import FalconKV.Store.EvictionOrder

/-! # The phases of a batch

Looking the keys of a batch up makes those that are present the most recent ones, so that
they are evicted after all others. Phase 1 then settles every key: a present key is ok, and
an absent one is ok iff phase 2 is going to write it.
-/
namespace FalconKV
open AtomicCalls

namespace StoreMetaIndex
variable {m m' : StoreMetaIndex} {key k : Key} {keys gone : List Key} {now : ℕ}

def Ranked (m : StoreMetaIndex) (keys : List Key) : Prop :=
  ∃ cold hot, m.lru.coldest = cold ++ hot ∧ (∀ k ∈ cold, k ∉ keys) ∧ ∀ k ∈ hot, k ∈ keys

theorem ranked_nil (m : StoreMetaIndex) : m.Ranked [] :=
  ⟨m.lru.coldest,[],by simp,by simp,by simp⟩

def orderAfter (m : StoreMetaIndex) (keys : List Key) : List Key :=
  keys.foldl (fun coldest key =>
    if (m.find key).isSome then coldest.filter (· ≠ key) ++ [key] else coldest) m.lru.coldest

theorem Tracked.coldest_get (h : m.Tracked) : (m.get key now).2.lru.coldest =
    if (m.find key).isSome then m.lru.coldest.filter (· ≠ key) ++ [key] else m.lru.coldest := by
  rw [h.sound.get_eq]
  cases hf : m.find key with
  | none => rfl
  | some rec =>
    dsimp only
    rw [lru_touchRecord, RecencyList.coldest_touch]
    rfl

theorem Tracked.ranked_get (h : m.Tracked) (hr : m.Ranked keys) :
    (m.get key now).2.Ranked (keys ++ [key]) := by
  obtain ⟨cold,hot,hsplit,hcold,hhot⟩ := hr
  rw [h.sound.get_eq]
  cases hf : m.find key with
  | none =>
    refine ⟨cold,hot,hsplit,fun k hk hmem => ?_,fun k hk => List.mem_append_left _ (hhot k hk)⟩
    rcases List.mem_append.mp hmem with hmem | hmem
    · exact hcold k hk hmem
    · have hin : k ∈ m.lru.items := by
        rw [← RecencyList.mem_coldest, hsplit]
        exact List.mem_append_left _ hk
      have hsome := (h.linked k).mp hin
      rw [List.mem_singleton.mp hmem, hf] at hsome
      cases hsome
  | some rec =>
    refine ⟨cold.filter (· ≠ key),hot.filter (· ≠ key) ++ [key],?_,fun k hk hmem => ?_,
      fun k hk => ?_⟩
    · dsimp only
      rw [lru_touchRecord, RecencyList.coldest_touch, hsplit, List.filter_append,
        List.append_assoc]
    · obtain ⟨hk,hne⟩ := List.mem_filter.mp hk
      rcases List.mem_append.mp hmem with hmem | hmem
      · exact hcold k hk hmem
      · exact of_decide_eq_true hne (List.mem_singleton.mp hmem)
    · rcases List.mem_append.mp hk with hk | hk
      · exact List.mem_append_left _ (hhot k (List.mem_filter.mp hk).1)
      · exact List.mem_append_right _ hk

theorem Ranked.evictsTo (h : m.Ranked keys) (he : m.EvictsTo m' gone) : m'.Ranked keys := by
  obtain ⟨cold,hot,hsplit,hcold,hhot⟩ := h
  rw [he.1] at hsplit
  rcases List.append_eq_append_iff.mp hsplit with ⟨cold',rfl,hrest⟩ | ⟨hot',rfl,rfl⟩
  · exact ⟨cold',hot,hrest,fun k hk => hcold k (List.mem_append_right _ hk),hhot⟩
  · exact ⟨[],m'.lru.coldest,rfl,by simp,fun k hk => hhot k (List.mem_append_right _ hk)⟩

/-- If the coldest key is a listed one, there are no others. -/
theorem Ranked.of_head (h : m.Ranked keys) (hl : m.Linked) (hhead : m.lru.coldest.head? = some key)
    (hkey : key ∈ keys) (hk : (m.find k).isSome = true) : k ∈ keys := by
  obtain ⟨cold,hot,hsplit,hcold,hhot⟩ := h
  cases cold with
  | nil =>
    have hmem := RecencyList.mem_coldest.mpr ((hl k).mpr hk)
    rw [hsplit, List.nil_append] at hmem
    exact hhot k hmem
  | cons a cold =>
    rw [hsplit, List.cons_append, List.head?_cons, Option.some_inj] at hhead
    exact absurd hkey (hhead ▸ hcold a List.mem_cons_self)

end StoreMetaIndex

namespace SlotAllocator
variable {a a' : SlotAllocator} {size : ℕ}

def Sized (a : SlotAllocator) : Prop := a.initialized = true → 0 < a.slotSize

theorem SameShape.sized (h : a.SameShape a') (hs : a.Sized) : a'.Sized := by
  intro hi
  rw [h.slotSize]
  exact hs (h.initialized ▸ hi)

theorem Sized.lazyInit (h : a.Sized) (hi : a.initialized = true ∨ 0 < size) :
    0 < (a.lazyInit size).slotSize := by
  unfold SlotAllocator.lazyInit
  split
  · next hinit => exact h hinit
  · next hinit => exact hi.resolve_left hinit

theorem Sized.alloc {r : Allocated} (h : a.Sized) (he : a.alloc size = (r,a')) :
    a'.Sized ∧ (0 ≤ r.offset → 0 < r.allocSize) := by
  unfold SlotAllocator.alloc at he
  split at he
  · obtain ⟨rfl,rfl⟩ := Prod.mk.inj he
    exact ⟨h,fun h => by simp at h⟩
  · next hz =>
    have hpos := h.lazyInit (SlotAllocator.initialized_or_pos hz)
    dsimp only at he
    split at he
    · obtain ⟨rfl,rfl⟩ := Prod.mk.inj he
      exact ⟨fun _ => hpos,fun h => by simp at h⟩
    · split at he
      · obtain ⟨rfl,rfl⟩ := Prod.mk.inj he
        exact ⟨fun _ => hpos,fun _ => hpos⟩
      · split at he
        · obtain ⟨rfl,rfl⟩ := Prod.mk.inj he
          exact ⟨fun _ => hpos,fun _ => hpos⟩
        · obtain ⟨rfl,rfl⟩ := Prod.mk.inj he
          exact ⟨fun _ => hpos,fun h => by simp at h⟩

theorem Sized.batchAlloc {count n : ℕ} {offs : List ℤ} (h : a.Sized)
    (he : a.batchAlloc size count = ((offs,n),a')) : a'.Sized ∧ (offs ≠ [] → 0 < n) := by
  unfold SlotAllocator.batchAlloc at he
  split at he
  · obtain ⟨⟨rfl,rfl⟩,rfl⟩ := (Prod.mk.inj he).imp_left Prod.mk.inj
    exact ⟨h,fun hne => absurd rfl hne⟩
  · split at he
    · obtain ⟨⟨rfl,rfl⟩,rfl⟩ := (Prod.mk.inj he).imp_left Prod.mk.inj
      exact ⟨h,fun hne => absurd rfl hne⟩
    · next hz =>
      have hpos := h.lazyInit (SlotAllocator.initialized_or_pos hz)
      dsimp only at he
      split at he
      · obtain ⟨⟨rfl,rfl⟩,rfl⟩ := (Prod.mk.inj he).imp_left Prod.mk.inj
        exact ⟨fun _ => hpos,fun hne => absurd rfl hne⟩
      · obtain ⟨⟨rfl,rfl⟩,rfl⟩ := (Prod.mk.inj he).imp_left Prod.mk.inj
        exact ⟨fun _ => hpos,fun _ => hpos⟩

end SlotAllocator

namespace Store
variable {s t : Store} {keys : List Key} {gone : List Key}

structure LookedUp (keys : List Key) (s t : Store) : Prop where
  records : s.index.SameRecords t.index
  tracked : t.index.Tracked
  ranked : t.index.Ranked keys
  order : t.index.lru.coldest = s.index.orderAfter keys
  rest : t = { s with index := t.index }

theorem LookedUp.get (h : LookedUp keys s t) (key : Key) (now : ℕ) :
    LookedUp (keys ++ [key]) s { t with index := (t.index.get key now).2 } where
  records :=
    { sound := fun hs => (h.records.sound hs).get
      extents := StoreMetaIndex.extents_get.trans h.records.extents
      find := fun k => (StoreMetaIndex.find_get_timeless t.index key now k).trans (h.records.find k) }
  tracked := h.tracked.get
  ranked := h.tracked.ranked_get h.ranked
  order := by
    have hsome : (t.index.find key).isSome = (s.index.find key).isSome := by
      have hfind := congrArg Option.isSome (h.records.find key)
      simpa using hfind
    rw [h.tracked.coldest_get, hsome, h.order, StoreMetaIndex.orderAfter, StoreMetaIndex.orderAfter,
      List.foldl_append]
    rfl
  rest := by rw [h.rest]

/-- Looking up does not change which keys are present. -/
theorem LookedUp.isSome_find (h : LookedUp keys s t) (key : Key) :
    (t.index.find key).isSome = (s.index.find key).isSome := by
  have hfind := congrArg Option.isSome (h.records.find key)
  simpa using hfind

/-- What phase 1 relies on. -/
structure InOrder (s : Store) : Prop where
  tracked : s.index.Tracked
  sized : s.allocator.Sized

theorem inOrder_init {cfg : StoreConfig} (hcap : cfg.capacityBytes < 2^63) : (init cfg).InOrder :=
  ⟨StoreMetaIndex.tracked_create,(books_init hcap).wf.pos⟩

theorem keeps_inOrder : Keeps storeMachine custody (fun s op => s.snapshotCurrent op = true)
    fun _ s held => (∃ lost, Books s held lost) ∧ s.index.Tracked where
  guar := by
    rintro tr s op c r s' held ⟨⟨lost,hbooks⟩,-⟩ hok hs
    exact hbooks.guar hok hs
  step := by
    rintro tr i s op c r s' used made rest ⟨⟨lost,hbooks⟩,htracked⟩ hok hs hr
    exact ⟨⟨_,hbooks.step hs hr⟩,tracked_step htracked hs hr⟩

/-- Operations that follow each other leave the books in balance and every key in the list. -/
theorem settled_of_serialRun {cfg : StoreConfig} (hcap : cfg.capacityBytes < 2^63)
    (h : SerialRun cfg (fun _ _ _ _ => True) s) : (∃ lost, Books s 0 lost) ∧ s.index.Tracked := by
  induction h with
  | refl => exact ⟨⟨0,books_init hcap⟩,StoreMetaIndex.tracked_create⟩
  | tail _ hstep ih =>
    obtain ⟨op,reply,he⟩ := hstep
    have hdischarge : Discharges (op.run cfg) 0 := StoreOps.discharges_run op
    have hcalls := (he.of_wp (StoreOps.solo_run op ih.2.sound)).1.ok_mono fun _ _ hok => hok.1.1
    obtain ⟨g,rfl,hend⟩ := exec_uses keeps_inOrder hdischarge ih hcalls
    exact hend

/-- Every store that operations make of a new one, one after the other, is in order. -/
theorem inOrder_of_serialRun {cfg : StoreConfig} (hcap : cfg.capacityBytes < 2^63)
    (h : SerialRun cfg (fun _ _ _ _ => True) s) : s.InOrder := by
  obtain ⟨⟨lost,hbooks⟩,htracked⟩ := settled_of_serialRun hcap h
  exact ⟨htracked,hbooks.wf.pos⟩

theorem Reclaims.inOrder (h : Reclaims s t gone) (hs : s.InOrder) : t.InOrder :=
  ⟨hs.tracked.evictsTo h.index,h.shape.sized hs.sized⟩

end Store

namespace StoreOps
open Store

variable {cfg : StoreConfig} {s : Store} {size : ℕ}

theorem wp_present (items : List PutItem) (hs : s.index.Tracked) :
    wp storeMachine (fun _ op => ∃ key, op = .indexGet key)
      (fun present t => LookedUp (items.map PutItem.key) s t ∧
        present = items.map fun item => !absentIn s item.key)
      (Prog.mapEach (fun item => do
        let found ← invoke (.indexGet item.key)
        pure found.isSome) items) s := by
  have hloop : wp storeMachine (fun _ op => ∃ key, op = .indexGet key)
      (fun _ t => LookedUp (items.map PutItem.key) s t)
      (Prog.mapEach (fun item => do
        let found ← invoke (.indexGet item.key)
        pure found.isSome) items) s := by
    refine wp_mono (wp_mapEach (I := fun rest (_ : List Bool) t => ∃ done, items = done ++ rest ∧
      LookedUp (done.map PutItem.key) s t) ⟨[],rfl,?_⟩ ?_) ?_
    · exact ⟨.refl _,hs,StoreMetaIndex.ranked_nil _,rfl,rfl⟩
    · rintro item rest _ t ⟨done,hsplit,ht⟩
      refine wp_perform ⟨_,rfl⟩ fun c found t' h => ?_
      cases h
      refine ⟨done ++ [item],by rw [hsplit, List.append_assoc]; rfl,?_⟩
      rw [List.map_append]
      exact ht.get item.key c.now
    · rintro _ t ⟨done,hsplit,ht⟩
      rw [hsplit, List.append_nil]
      exact ht
  have hpresent : Solo False False (fun present s' => SameView s s' ∧
      present = items.map fun item => !absentIn s item.key) _ s := solo_present items hs.sound
  exact wp_mono (wp_and hloop hpresent) fun _ _ h => ⟨h.1,h.2.2⟩

theorem ages_reclaim {p : StoreProg ℕ} (hp : Ages (fun _ t => ∃ gone, Reclaims s t gone) p s)
    (hs : s.InOrder) : Ages (fun _ t => t.InOrder) p s :=
  wp_mono hp fun _ _ ⟨_,h⟩ => h.inOrder hs

/-- A slot that is granted has a size. -/
theorem ages_alloc (hs : s.InOrder) :
    Ages (fun a t => t.InOrder ∧ (0 ≤ a.offset → 0 < a.allocSize)) (invoke (.alloc size)) s := by
  refine ⟨rfl,fun c a t h => ?_⟩
  cases h
  obtain ⟨hsized,hpos⟩ := hs.sized.alloc (r := (s.allocator.alloc size).1) rfl
  exact ⟨⟨hs.tracked,hsized⟩,hpos⟩

theorem ages_alloc_or {retry : StoreProg Allocated} (hs : s.InOrder)
    (h : ∀ t : Store, t.InOrder →
      Ages (fun a t' => t'.InOrder ∧ (0 ≤ a.offset → 0 < a.allocSize)) retry t) :
    Ages (fun a t => t.InOrder ∧ (0 ≤ a.offset → 0 < a.allocSize))
      (invoke (.alloc size) >>= fun a => if 0 ≤ a.offset then pure a else retry) s := by
  refine wp_bind.mpr (wp_mono (ages_alloc hs) fun a t ha => ?_)
  split
  · exact ha
  · exact h t ha.1

theorem ages_allocReclaiming (hs : s.InOrder) :
    Ages (fun a t => t.InOrder ∧ (0 ≤ a.offset → 0 < a.allocSize)) (allocReclaiming cfg size) s := by
  have hflush : ∀ {t : Store}, t.InOrder → Ages (fun _ t' => t'.InOrder) flushExpired t := fun ht =>
    ages_reclaim (wp_mono (ages_aside aside_flushExpired) fun _ _ h => ⟨[],h⟩) ht
  have hforced : ∀ {t : Store}, t.InOrder → Ages (fun _ t' => t'.InOrder) flushAllForced t := fun ht =>
    ages_reclaim (wp_mono (ages_aside aside_flushAllForced) fun _ _ h => ⟨[],h⟩) ht
  refine wp_bind.mpr (wp_mono (hflush hs) fun _ s₁ h₁ => ages_alloc_or h₁ fun s₂ h₂ => ?_)
  refine wp_perform rfl fun c totalBytes s₃ h => ?_
  cases h
  refine wp_bind.mpr (wp_mono (ages_reclaim (ages_forceEvict _ h₂.tracked) h₂) fun _ s₄ h₄ => ?_)
  refine wp_bind.mpr (wp_mono (hflush h₄) fun _ s₅ h₅ => ages_alloc_or h₅ fun s₆ h₆ => ?_)
  exact wp_bind.mpr (wp_mono (hforced h₆) fun _ s₇ h₇ => ages_alloc h₇)

/-- A present key is ok and not written; an absent one is ok iff it is going to be written. -/
def Settled (x : (PutItem × Bool) × StorePutResult) : Prop :=
  if x.1.2 then x.2 = ⟨.OK,0,0⟩ else x.2.status.isOk = toWrite x.2

theorem settled_slot {item : PutItem} {offset allocSize : ℕ} (h : 0 < allocSize) :
    Settled ((item,false),⟨.OK,offset,allocSize⟩) := by
  have hne : allocSize ≠ 0 := by omega
  simp [Settled, toWrite, hne]

theorem settled_outOfSpace (item : PutItem) : Settled ((item,false),outOfSpace item.key) := by
  simp [Settled, toWrite, outOfSpace]

theorem ages_assignSlots {allocSize : ℕ} {offsets : List ℤ} (items : List (PutItem × Bool))
    (hs : s.InOrder) (hoffs : offsets ≠ [] → 0 < allocSize) :
    Ages (fun results t => t.InOrder ∧ results.length = items.length ∧
      ∀ x ∈ items.zip results, Settled x) (assignSlots cfg allocSize offsets items) s := by
  induction items generalizing offsets s with
  | nil =>
    unfold assignSlots
    exact ⟨hs,rfl,by simp⟩
  | cons x items ih =>
    obtain ⟨item,present⟩ := x
    have hcons : ∀ {t : Store} {present : Bool} {r : StorePutResult} {results : List StorePutResult},
        Settled ((item,present),r) →
        (t.InOrder ∧ results.length = items.length ∧ ∀ x ∈ items.zip results, Settled x) →
        t.InOrder ∧ (r :: results).length = ((item,present) :: items).length ∧
          ∀ x ∈ ((item,present) :: items).zip (r :: results), Settled x := by
      rintro t present r results hr ⟨ht,hl,hx⟩
      exact ⟨ht,congrArg (· + 1) hl,List.forall_mem_cons.mpr ⟨hr,hx⟩⟩
    cases present with
    | true =>
      unfold assignSlots
      exact wp_bind.mpr (wp_mono (ih hs hoffs) fun results t h => hcons rfl h)
    | false =>
      cases offsets with
      | cons o offsets =>
        have hpos := hoffs (List.cons_ne_nil o offsets)
        unfold assignSlots
        exact wp_bind.mpr (wp_mono (ih hs fun _ => hpos) fun results t h =>
          hcons (settled_slot hpos) h)
      | nil =>
        unfold assignSlots
        refine wp_bind.mpr (wp_mono (ages_allocReclaiming hs) fun a s₁ ha => ?_)
        refine wp_bind.mpr (wp_mono (ih ha.1 fun h => absurd rfl h) fun results t h => hcons ?_ h)
        split
        · exact settled_outOfSpace item
        · next hneg => exact settled_slot (ha.2 (not_lt.mp hneg))

theorem ages_allocateBatch (items : List (PutItem × Bool)) (hs : s.InOrder) :
    Ages (fun results t => t.InOrder ∧ results.length = items.length ∧
      ∀ x ∈ items.zip results, Settled x) (allocateBatch cfg items) s := by
  unfold allocateBatch
  split
  · exact ages_assignSlots items hs fun h => absurd rfl h
  · next first rest hneed =>
    refine wp_perform rfl fun c r s₁ h => ?_
    have he : s.allocator.batchAlloc first.1.size (u32 (first :: rest).length) =
        ((r.1,r.2),s₁.allocator) := by
      cases h
      rfl
    obtain ⟨hsized,hpos⟩ := hs.sized.batchAlloc he
    have horder : s₁.InOrder := by
      refine ⟨?_,hsized⟩
      cases h
      exact hs.tracked
    exact ages_assignSlots items horder hpos

theorem aside_write (offset size : ℕ) (data : Option Bytes) : (write offset data size).Makes aside := by
  unfold write
  split
  · trivial
  · refine Prog.makes_call_bind ⟨rfl,rfl⟩ fun r => ?_
    split <;> trivial

theorem aside_writeItem (item : WriteItem) : (writeItem cfg item).Makes aside := by
  unfold writeItem
  split
  · exact Prog.makes_perform ⟨rfl,rfl⟩
  · exact aside_write _ _ _

def insertsOnly (pairs : List (PutItem × StorePutResult)) (op : StoreCall) : Prop :=
  op.onIndex = false ∨ ∃ x ∈ pairs, toWrite x.2 = true ∧
    ∃ record data, op = .indexPut x.1.key record data

variable {pairs : List (PutItem × StorePutResult)}

theorem wp_aside {α : Type} {p : StoreProg α} (hp : p.Makes aside) :
    wp storeMachine (fun _ op => insertsOnly pairs op) (fun _ t => t.index = s.index) p s :=
  wp_of_makes (I := fun t : Store => t.index = s.index) hp (fun _ _ h => Or.inl h.1)
    (fun h hop hs => (index_of_not_onIndex hop.1 hs).trans h) rfl

theorem aside_batchWrite (items : List WriteItem) : (batchWrite cfg items).Makes aside :=
  (Prog.makes_mapEach aside_writeItem items).bind fun _ => trivial

def Committed (s : Store) (done : List (PutItem × StorePutResult)) (t : Store) : Prop :=
  ∀ k, (t.index.find k).isSome = true ↔ (s.index.find k).isSome = true ∨ ∃ x ∈ done, x.1.key = k

theorem wp_commitOne {x : PutItem × StorePutResult} {done : List (PutItem × StorePutResult)}
    {t : Store} (hx : x ∈ pairs) (hw : toWrite x.2 = true) (ht : Committed s done t) :
    wp storeMachine (fun _ op => insertsOnly pairs op) (fun _ t' => Committed s (done ++ [x]) t')
      (commitOne x) t := by
  refine wp_perform (.inl rfl) fun c now t₁ h₁ => ?_
  cases h₁
  refine wp_perform (.inr ⟨x,hx,hw,_,_,rfl⟩) fun c _ t₂ h₂ k => ?_
  cases h₂
  dsimp only
  rw [StoreMetaIndex.find_put]
  have hk := ht k
  by_cases hkey : k = x.1.key
  · simp [hkey]
  · rw [if_neg hkey, hk]
    simp [Ne.symm hkey]

/-- Either no write is kept, or all of them are recorded. -/
theorem wp_writeAndCommit :
    wp storeMachine (fun _ op => insertsOnly pairs op)
      (fun results t => (∃ status : Status, status.isOk = false ∧ t.index = s.index ∧
          results = pairs.map fun x => if toWrite x.2 then ⟨status,0,0⟩ else x.2) ∨
        (results = pairs.map Prod.snd ∧ Committed s (pairs.filter fun x => toWrite x.2) t))
      (writeAndCommit cfg pairs) s := by
  refine wp_bind.mpr (wp_mono (wp_aside (aside_batchWrite _)) fun status s₁ h₁ => ?_)
  split
  · next hbad =>
    have hfree : ∀ x : PutItem × StorePutResult,
        Prog.Makes (E := storeCalls) aside (invoke (.free (int64 x.2.offset) x.2.allocSize)) :=
      fun x => Prog.makes_perform ⟨rfl,rfl⟩
    refine wp_bind.mpr (wp_mono (wp_aside (Prog.makes_forEach hfree _)) fun _ s₂ h₂ => ?_)
    exact .inl ⟨status,by simpa using hbad,h₂.trans h₁,rfl⟩
  · have hstart : Committed s [] s₁ := by
      intro k
      rw [h₁]
      simp
    have hcommit : wp storeMachine (fun _ op => insertsOnly pairs op)
        (fun _ t => Committed s (pairs.filter fun x => toWrite x.2) t)
        (Prog.mapEach commitOne (pairs.filter fun x => toWrite x.2)) s₁ := by
      refine wp_mono (wp_mapEach (I := fun rest (_ : List StoreKeyRecord) t =>
        ∃ done, pairs.filter (fun x => toWrite x.2) = done ++ rest ∧ Committed s done t)
        ⟨[],rfl,hstart⟩ ?_) ?_
      · rintro x rest _ t ⟨done,hsplit,ht⟩
        have hmem : x ∈ pairs.filter fun x => toWrite x.2 := by simp [hsplit]
        obtain ⟨hx,hw⟩ := List.mem_filter.mp hmem
        exact wp_mono (wp_commitOne hx hw ht) fun _ t' ht' => ⟨done ++ [x],by simp [hsplit],ht'⟩
      · rintro _ t ⟨done,hsplit,ht⟩
        rw [hsplit, List.append_nil]
        exact ht
    refine wp_bind.mpr (wp_mono hcommit fun records s₂ h₂ => ?_)
    have hnotify : (notifyAsync cfg records).Makes aside := by
      unfold notifyAsync
      split
      · exact Prog.makes_perform ⟨rfl,rfl⟩
      · trivial
    refine wp_bind.mpr (wp_mono (wp_aside hnotify) fun _ s₃ h₃ => .inr ⟨rfl,fun k => ?_⟩)
    rw [h₃]
    exact h₂ k

end StoreOps

end FalconKV
