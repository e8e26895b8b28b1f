import FalconKV.Store.Books

/-! # Slots are released once

For every run of operations on one store, the calls that take slots out of the index
and the allocator are counted against those that bring them back. As long as every
eviction still finds the record of its snapshot and no insertion overwrites a record,
nothing is released twice and nothing live is released.
-/
namespace FalconKV
open AtomicCalls

abbrev StoreEvent := Event storeCalls Store
abbrev StorePool := Pool storeCalls Store StoreReply

/-- Any number of operations of the store, interleaved at their atomic calls. -/
abbrev StoreRun (cfg : StoreConfig) (ok : Store → StoreCall → Prop) (P : StorePool)
    (tr : List StoreEvent) (P' : StorePool) : Prop :=
  Run storeMachine (fun p => ∃ op : StoreOp, p = op.run cfg) ok P tr P'

/-- An initialised store on which no operation runs. -/
def Store.idle (cfg : StoreConfig) : StorePool := ⟨.init cfg,[]⟩

/-- A schedule of operations that starts on an idle store. -/
theorem storeRun_of_schedule (cfg : StoreConfig) (check : Store → StoreCall → Bool)
    (ops : List StoreOp) (sched : List (ℕ × StoreChoice)) {γ : Type}
    {f : List StoreEvent × StorePool → γ} {v : γ}
    (h : (Pool.follow (M := storeMachine) check sched ⟨.init cfg,ops.map (StoreOp.run cfg)⟩).map f =
      some v) :
    ∃ tr P, StoreRun cfg (fun s op => check s op = true) (Store.idle cfg) tr P ∧
      f (tr,P) = v := by
  refine run_of_schedule _ ?_ h
  intro p hp
  obtain ⟨op,-,rfl⟩ := List.mem_map.mp hp
  exact ⟨op,rfl⟩

namespace StoreEvent

def departed (e : StoreEvent) : Multiset ℕ :=
  match e.op, e.res with
  | .indexRemove _ _, rec => (rec.map StoreKeyRecord.offset).toList
  | op, _ => e.before.overwritten op

def enqueued (e : StoreEvent) : Multiset ℕ :=
  match e.op with
  | .enqueue _ offset _ => {offset}
  | _ => 0

/-- The slots that the call takes from the allocator. -/
def granted (e : StoreEvent) : Multiset ℕ :=
  match e.op, e.res with
  | .alloc _, a => if a.offset < 0 then 0 else {a.offset.toNat}
  | .batchAlloc _ _, r => (r.1.map Int.toNat : List ℕ)
  | _, _ => 0

def released (e : StoreEvent) : Multiset ℕ :=
  match e.op with
  | .free offset _ => {offset.toNat}
  | _ => 0

end StoreEvent

/-- What the calls of a run add up to. -/
def total (f : StoreEvent → Multiset ℕ) (tr : List StoreEvent) : Multiset ℕ := (tr.map f).sum

@[simp] theorem total_nil (f : StoreEvent → Multiset ℕ) : total f [] = 0 := rfl
@[simp] theorem total_append (f : StoreEvent → Multiset ℕ) (tr : List StoreEvent) (e : StoreEvent) :
    total f (tr ++ [e]) = total f tr + f e := by simp [total]

def onTheWay (held : Multiset Holding) : Multiset ℕ :=
  (held.filter fun h => h.isLeaving = true).map Holding.offset

@[simp] theorem onTheWay_zero : onTheWay 0 = 0 := rfl
@[simp] theorem onTheWay_add (g g' : Multiset Holding) :
    onTheWay (g + g') = onTheWay g + onTheWay g' := by simp [onTheWay]
@[simp] theorem onTheWay_leaving (offset : ℕ) : onTheWay {.leaving offset} = {offset} := rfl

theorem onTheWay_of_forall {g : Multiset Holding} (h : ∀ x ∈ g, x.isLeaving = false) :
    onTheWay g = 0 := by
  have hf : g.filter (fun x => x.isLeaving = true) = 0 :=
    Multiset.filter_eq_nil.mpr fun x hx => by simp [h x hx]
  rw [onTheWay, hf, Multiset.map_zero]

theorem onTheWay_singleton {x : Holding} (h : x.isLeaving = false) : onTheWay {x} = 0 :=
  onTheWay_of_forall fun y hy => by rw [Multiset.mem_singleton.mp hy, h]

theorem onTheWay_map {γ : Type} {f : γ → Holding} (h : ∀ x, (f x).isLeaving = false) (xs : List γ) :
    onTheWay (xs.map f : List Holding) = 0 := by
  refine onTheWay_of_forall fun y hy => ?_
  obtain ⟨x,-,rfl⟩ := List.mem_map.mp (Multiset.mem_coe.mp hy)
  exact h x

namespace Store

variable {s s' : Store} {op : StoreCall} {c : StoreChoice} {r : op.Res} {i : ℕ}
  {used made rest held : Multiset Holding} {lost : Multiset ℕ}

/-- Between the index and the queue, a slot is in the hands of one thread. -/
theorem onTheWay_step (s' : Store) (i : ℕ) (hr : Custody.rule op r used made) (hkey : s.keyAbsent op = true) :
    StoreEvent.departed ⟨i,s,op,r,s'⟩ + onTheWay used =
      StoreEvent.enqueued ⟨i,s,op,r,s'⟩ + onTheWay made := by
  cases op with
  | indexRemove key snapshot =>
    obtain ⟨rfl,rfl⟩ := hr
    cases r <;> rfl
  | enqueue key offset n =>
    obtain ⟨rfl,rfl⟩ := hr
    exact add_comm _ _
  | indexPut key record data =>
    obtain ⟨rfl,-,-,d,-,rfl⟩ := hr
    have hlost := overwritten_of_keyAbsent hkey
    rw [onTheWay_singleton rfl]
    simp [StoreEvent.departed, StoreEvent.enqueued, hlost]
  | free offset n =>
    obtain ⟨rfl,x,-,hl,rfl⟩ := hr
    rw [onTheWay_singleton hl]
    rfl
  | alloc size =>
    obtain ⟨rfl,rfl⟩ := hr
    have hz : onTheWay (grantedOf r) = 0 := by
      unfold grantedOf
      split
      · rfl
      · exact onTheWay_singleton rfl
    rw [hz]
    rfl
  | batchAlloc size count =>
    obtain ⟨rfl,rfl⟩ := hr
    rw [onTheWay_map fun _ => rfl]
    rfl
  | takeExpired now =>
    obtain ⟨rfl,rfl⟩ := hr
    rw [onTheWay_map fun _ => rfl]
    rfl
  | takeAll =>
    obtain ⟨rfl,rfl⟩ := hr
    rw [onTheWay_map fun _ => rfl]
    rfl
  | pwrite offset data size =>
    obtain ⟨n,rfl,rfl⟩ := hr
    rw [onTheWay_singleton rfl, onTheWay_singleton (by simp)]
    rfl
  | uringWrite offset data size =>
    obtain ⟨n,rfl,rfl⟩ := hr
    rw [onTheWay_singleton rfl, onTheWay_singleton (by simp)]
    rfl
  | _ =>
    obtain ⟨rfl,rfl⟩ := hr
    rfl

/-- What the allocator handed out and took back, in one call. -/
theorem granted_step (h : Books s (used + rest) lost) (hs : s.step op c = some (r,s'))
    (hr : Custody.rule op r used made) :
    StoreEvent.granted ⟨i,s,op,r,s'⟩ + s.allocator.handedOut + s'.allocator.spare =
      StoreEvent.released ⟨i,s,op,r,s'⟩ + s'.allocator.handedOut + s.allocator.spare := by
  cases op with
  | alloc size =>
    have he : s.allocator.alloc size = (r,s'.allocator) := by
      cases hs
      rfl
    rcases SlotAllocator.alloc_spec h.wf he with ⟨hneg,-,hg⟩ | ⟨o,ho,-,-,-,hg⟩
    · simp only [StoreEvent.granted, StoreEvent.released, if_pos hneg, zero_add, hg.books, add_zero]
    · have hpos : ¬ r.offset < 0 := by omega
      have hnat : r.offset.toNat = o := by omega
      simp only [StoreEvent.granted, StoreEvent.released, if_neg hpos, hnat, zero_add, hg.books]
      abel
  | batchAlloc size count =>
    have he : s.allocator.batchAlloc size count = ((r.1,r.2),s'.allocator) := by
      cases hs
      rfl
    rcases SlotAllocator.batchAlloc_spec h.wf he with ⟨hnil,hg⟩ | ⟨os,hos,-,-,-,-,hg⟩
    · simp only [StoreEvent.granted, StoreEvent.released, hnil, List.map_nil, Multiset.coe_nil,
        zero_add, hg.books, add_zero]
    · have hmap : (os.map fun o : ℕ => (o : ℤ)).map Int.toNat = os := by
        simp [Function.comp_def]
      simp only [StoreEvent.granted, StoreEvent.released, hos, hmap, zero_add, hg.books]
      abel
  | free offset n =>
    obtain ⟨rfl,x,rfl,-,rfl⟩ := hr
    cases hs
    have hpos : 0 < s.allocator.usedSlots := by
      have := h.used_eq
      simp only [Multiset.card_add, Multiset.card_singleton] at this
      omega
    obtain ⟨-,hhand,hspare,-⟩ :=
      SlotAllocator.free_spec n h.wf (h.mem_handedOut (x := x) (by simp)) hpos
    simp only [StoreEvent.granted, StoreEvent.released, Int.toNat_natCast, hhand, hspare]
    abel
  | pwrite | uringWrite | pread =>
    obtain ⟨file,rfl⟩ := onFile_frame hs rfl
    rfl
  | _ =>
    cases hs
    rfl

structure Ledger (s₀ : Store) (tr : List StoreEvent) (s : Store) (held : Multiset Holding) :
    Prop where
  books : Books s held 0
  leaving : total StoreEvent.departed tr = total StoreEvent.enqueued tr + onTheWay held
  granted : total StoreEvent.granted tr + s.allocator.spare + s₀.allocator.handedOut =
    total StoreEvent.released tr + s.allocator.handedOut + s₀.allocator.spare

theorem ledger_start {s₀ : Store} (h : Books s₀ 0 0) : Ledger s₀ [] s₀ 0 :=
  ⟨h,by simp,by simp [add_comm]⟩

theorem keeps_ledger (s₀ : Store) :
    Keeps storeMachine custody (fun s op => s.wellTimed op = true) (Ledger s₀) where
  guar := by
    intro tr s op c r s' held h hok hs
    exact keeps_books.guar tr h.books hok hs
  step := by
    intro tr i s op c r s' used made rest h hok hs hr
    refine ⟨keeps_books.step tr i h.books hok hs hr,?_,?_⟩
    · have hl := h.leaving
      have hstep := onTheWay_step s' i hr (Bool.and_eq_true_iff.mp hok).2
      rw [onTheWay_add] at hl ⊢
      rw [total_append, total_append, hl]
      calc total StoreEvent.enqueued tr + (onTheWay used + onTheWay rest) +
            StoreEvent.departed ⟨i,s,op,r,s'⟩
          = total StoreEvent.enqueued tr + onTheWay rest +
            (StoreEvent.departed ⟨i,s,op,r,s'⟩ + onTheWay used) := by abel
        _ = _ := by
          rw [hstep]
          abel
    · have hg := h.granted
      have hstep := granted_step (i := i) h.books hs hr
      rw [total_append, total_append]
      refine add_right_cancel (b := s.allocator.spare + s.allocator.handedOut) ?_
      calc total StoreEvent.granted tr + StoreEvent.granted ⟨i,s,op,r,s'⟩ + s'.allocator.spare +
            s₀.allocator.handedOut + (s.allocator.spare + s.allocator.handedOut)
          = (total StoreEvent.granted tr + s.allocator.spare + s₀.allocator.handedOut) +
            (StoreEvent.granted ⟨i,s,op,r,s'⟩ + s.allocator.handedOut + s'.allocator.spare) := by
              abel
        _ = _ := by
          rw [hg, hstep]
          abel

theorem discharges_start {cfg : StoreConfig} : ∀ p, (∃ op : StoreOp, p = op.run cfg) →
    Uses custody (fun _ (g : Multiset Holding) => g = 0) p 0 := by
  rintro p ⟨op,rfl⟩
  exact StoreOps.discharges_run op

/-- In every pool that a well-timed run reaches, for what its threads hold. -/
theorem ledger_of_run {cfg : StoreConfig} {tr : List StoreEvent} {P : StorePool}
    (hcap : cfg.capacityBytes < 2^63)
    (h : StoreRun cfg (fun s op => s.wellTimed op = true) (Store.idle cfg) tr P) :
    ∃ held, Ledger (init cfg) tr P.state held ∧ (P.Returned → held = 0) := by
  have hidle : ∃ gs : List (Multiset Holding),
      List.Forall₂ (Uses custody fun _ g => g = 0) (Store.idle cfg).threads gs ∧
        Ledger (init cfg) [] (Store.idle cfg).state gs.sum :=
    ⟨[],.nil,ledger_start (books_init hcap)⟩
  obtain ⟨gs,hgs,hledger⟩ := Run.shares (keeps_ledger (init cfg)) discharges_start hidle h
  exact ⟨gs.sum,hledger,fun hret => hret.sum_eq_zero hgs⟩

end Store

/-- No slot is released twice, and none that is in use. -/
structure SlotsSafe (tr : List StoreEvent) (P : StorePool) : Prop where
  /-- Every slot that left the index was enqueued once, unless a thread is just about to. -/
  enqueuedOnce : ∃ underway : Multiset ℕ, underway.Nodup ∧
    total StoreEvent.departed tr = total StoreEvent.enqueued tr + underway ∧
    (P.Returned → underway = 0)
  /-- The slot of a record is not in the pending queue. -/
  liveNotPending : ∀ key rec, P.state.index.find key = some rec →
    rec.offset ∉ P.state.pending.offsets
  stackNodup : P.state.allocator.freeStack.Nodup
  /-- The slots that were taken from the allocator and not given back are distinct, hold all
  records and pending entries, and are not on the stack. -/
  stackFree : ∃ inUse : Multiset ℕ, inUse.Nodup ∧
    total StoreEvent.granted tr = total StoreEvent.released tr + inUse ∧
    P.state.index.offsets + P.state.pending.offsets ≤ inUse ∧
    ∀ slot ∈ P.state.allocator.freeStack, slot * P.state.allocator.slotSize ∉ inUse

theorem StoreMetaIndex.mem_offsets {m : StoreMetaIndex} {key : Key} {rec : StoreKeyRecord}
    (h : m.find key = some rec) : rec.offset ∈ m.offsets :=
  Multiset.mem_map.mpr ⟨rec.timeless,mem_extents.mpr ⟨key,rec,h,rfl⟩,rfl⟩

theorem slotsSafe_of_run {cfg : StoreConfig} {tr : List StoreEvent} {P : StorePool}
    (hcap : cfg.capacityBytes < 2^63)
    (h : StoreRun cfg (fun s op => s.wellTimed op = true) (Store.idle cfg) tr P) :
    SlotsSafe tr P := by
  obtain ⟨held,⟨hbooks,hleaving,hgranted⟩,hreturned⟩ := Store.ledger_of_run hcap h
  have hnodup := hbooks.nodup
  have hbalance := hbooks.balance
  rw [add_zero] at hnodup hbalance
  set inUse := P.state.index.offsets + P.state.pending.offsets + held.map Holding.offset with huse
  obtain ⟨huseNodup,hspareNodup,hdisjoint⟩ := Multiset.nodup_add.mp hnodup
  obtain ⟨hownNodup,hheldNodup,-⟩ := Multiset.nodup_add.mp huseNodup
  obtain ⟨-,-,hlive⟩ := Multiset.nodup_add.mp hownNodup
  have hpos : ∀ slot ∈ P.state.allocator.freeStack,
      slot * P.state.allocator.slotSize ∈ P.state.allocator.spare := fun slot hs =>
    SlotAllocator.mem_spare.mpr ⟨slot,hs,rfl⟩
  refine ⟨⟨onTheWay held,?_,hleaving,fun hret => by rw [hreturned hret]; rfl⟩,?_,?_,
    ⟨inUse,huseNodup,?_,Multiset.le_add_right _ _,?_⟩⟩
  · exact Multiset.nodup_of_le (Multiset.map_le_map (Multiset.filter_le _ _)) hheldNodup
  · intro key rec hrec hpend
    exact Multiset.disjoint_left.mp hlive (StoreMetaIndex.mem_offsets hrec) hpend
  · have hcoe : (P.state.allocator.freeStack : Multiset ℕ).Nodup :=
      Multiset.Nodup.of_map _ hspareNodup
    exact Multiset.coe_nodup.mp hcoe
  · refine add_right_cancel (b := P.state.allocator.spare) ?_
    have hinit : (Store.init cfg).allocator.handedOut = 0 := SlotAllocator.handedOut_create _ _
    have hspare : (Store.init cfg).allocator.spare = 0 := SlotAllocator.spare_create _ _
    rw [hinit, hspare, add_zero, add_zero, ← hbalance] at hgranted
    rw [hgranted]
    abel
  · intro slot hs hin
    exact Multiset.disjoint_left.mp hdisjoint hin (hpos slot hs)

namespace Release

def singleSlot : StoreConfig := ⟨0,8,8,0,false,false⟩

def twoSlots : StoreConfig := ⟨0,16,8,0,false,false⟩

def value (b : UInt8) : Option Bytes := some fun _ => b

def inOrder (threads : List ℕ) : List (ℕ × StoreChoice) := threads.map fun i => (i,{})

end Release

open Release

/-- A key is stored and evicted, and its slot is flushed and stored into again. -/
theorem slotsSafe_of_run_evicted : ∃ tr P,
    StoreRun twoSlots (fun s op => s.wellTimed op = true) (Store.idle twoSlots) tr P ∧
    SlotsSafe tr P ∧ (P.state.index.find "l").map StoreKeyRecord.offset = some 0 := by
  obtain ⟨tr,P,hrun,hP⟩ := storeRun_of_schedule twoSlots Store.wellTimed
    [.put "k" (value 1) 8,.evictPass,.flushAllForced,.put "l" (value 2) 8]
    (inOrder [0,0,0,0,0,1,1,1,2,2,3,3,3,3,3])
    (f := fun x => (x.2.state.index.find "l").map StoreKeyRecord.offset) (v := some 0) rfl
  exact ⟨tr,P,hrun,slotsSafe_of_run (by decide) hrun,hP⟩

/-- The background pass and a `Put` that forces eviction take the same candidate, and both enqueue
its slot: the slot that the `Put` takes is still on the stack. -/
theorem exists_run_not_slotsSafe : ∃ tr P,
    StoreRun singleSlot (fun _ _ => True) (Store.idle singleSlot) tr P ∧
    P.replies[2]? = some (some (.put "l" ⟨.OK,0,8⟩)) ∧
    (P.state.index.find "l").map StoreKeyRecord.offset = some 0 ∧
    P.state.allocator.freeStack = [0] ∧ ¬ SlotsSafe tr P := by
  obtain ⟨tr,P,hrun,hP⟩ := storeRun_of_schedule singleSlot (fun _ _ => true)
    [.put "k" (value 1) 8,.evictPass,.put "l" (value 2) 8]
    (inOrder ([0,0,0,0,0,1] ++ List.replicate 8 2 ++ [1,1] ++ List.replicate 9 2))
    (f := fun x => (x.2.replies[2]?,(x.2.state.index.find "l").map StoreKeyRecord.offset,
      x.2.state.allocator.freeStack,x.2.state.allocator.slotSize))
    (v := (some (some (.put "l" ⟨.OK,0,8⟩)),some 0,[0],8)) rfl
  obtain ⟨hreply,hP⟩ := Prod.mk.inj hP
  obtain ⟨hlive,hP⟩ := Prod.mk.inj hP
  obtain ⟨hstack,hsize⟩ := Prod.mk.inj hP
  have hok := hrun.ok_mono fun _ _ _ => trivial
  refine ⟨tr,P,hok,hreply,hlive,hstack,?_⟩
  intro hsafe
  obtain ⟨inUse,-,-,hle,hfree⟩ := hsafe.stackFree
  obtain ⟨rec,hrec,hoffset⟩ := Option.map_eq_some_iff.mp hlive
  have hindexed : rec.offset ∈ P.state.index.offsets + P.state.pending.offsets :=
    Multiset.mem_add.mpr (.inl (StoreMetaIndex.mem_offsets hrec))
  have hnot := hfree 0 (by rw [hstack]; exact List.mem_singleton_self 0)
  rw [hsize, Nat.zero_mul, ← hoffset] at hnot
  exact hnot (Multiset.mem_of_le hle hindexed)

end FalconKV
