import FalconKV.Store.BatchPhases
import FalconKV.Store.Release

/-! # What a batch acknowledges

A key that is present when a batch starts is acknowledged at once; making room for the
other keys may evict it again, but only when nothing else is left to evict.
-/
namespace FalconKV
open AtomicCalls

/-- Answers that are computed one by one, next to the items they are for. -/
theorem zip_map_answers {α β γ : Type} {xs : List α} {ys : List β} (hl : ys.length = xs.length)
    (f : α × β → γ) : xs.zip ((xs.zip ys).map f) = (xs.zip ys).map fun x => (x.1,f x) := by
  have hfst : (xs.zip ys).map Prod.fst = xs := List.map_fst_zip hl.ge
  rw [← List.zip_map', hfst]

theorem exists_answer {α β : Type} {xs : List α} {ys : List β} {x : α}
    (hl : ys.length = xs.length) (hx : x ∈ xs) : ∃ y, (x,y) ∈ xs.zip ys := by
  have hfst : (xs.zip ys).map Prod.fst = xs := List.map_fst_zip hl.ge
  rw [← hfst] at hx
  obtain ⟨⟨x,y⟩,hy,rfl⟩ := List.mem_map.mp hx
  exact ⟨y,hy⟩

/-- When a record is evicted, the index holds a key that is not in the batch. -/
def evictsBesides (keys : List Key) (s : Store) : StoreCall → Prop
  | .indexRemove _ (some _) => ∃ key ∉ keys, (s.index.find key).isSome = true
  | _ => True

/-- Every key of the batch that was acknowledged is in the index. -/
def AcksPresent (keys : List Key) (results : List StorePutResult) (s : Store) : Prop :=
  ∀ x ∈ keys.zip results, x.2.status.isOk = true → (s.index.find x.1).isSome = true

instance (keys : List Key) (results : List StorePutResult) (s : Store) :
    Decidable (AcksPresent keys results s) :=
  inferInstanceAs (Decidable (∀ x ∈ keys.zip results, _ → _))

namespace StoreOps
open Store

variable {cfg : StoreConfig} {s t : Store} {keys : List Key}

/-- The calls of a batch for `keys` that was started on `s`: evictions take present keys, those
of the batch last, and insertions are of absent keys. -/
def orderly (keys : List Key) (s t : Store) : StoreCall → Prop
  | .indexRemove key (some _) => (s.index.find key).isSome = true ∧
      (t.index.find key).isSome = true ∧
      (key ∈ keys → ∀ k, (t.index.find k).isSome = true → k ∈ keys)
  | .indexRemove _ none => False
  | .indexPut key .. => s.index.find key = none
  | _ => True

theorem orderly_of_not_onIndex {op : StoreCall} (h : op.onIndex = false) : orderly keys s t op := by
  cases op with
  | indexPut | indexRemove => cases h
  | _ => trivial

structure MakingRoom (keys : List Key) (s t : Store) : Prop where
  tracked : t.index.Tracked
  ranked : t.index.Ranked keys
  subset : ∀ k, (t.index.find k).isSome = true → (s.index.find k).isSome = true

theorem MakingRoom.step {op : StoreCall} {c : StoreChoice} {r : op.Res} {t' : Store}
    (h : MakingRoom keys s t) (hok : t.evictsColdest op = true) (hs : t.step op c = some (r,t')) :
    MakingRoom keys s t' := by
  obtain ⟨gone,he⟩ := evictsTo_step h.tracked hok hs
  refine ⟨h.tracked.evictsTo he,h.ranked.evictsTo he,fun k hk => h.subset k ?_⟩
  rw [he.2] at hk
  split at hk
  · cases hk
  · exact hk

theorem MakingRoom.orderly {op : StoreCall} (h : MakingRoom keys s t)
    (hok : t.evictsColdest op = true) : orderly keys s t op := by
  cases op with
  | indexRemove key snapshot =>
    cases snapshot with
    | none => cases hok
    | some snapshot =>
      have hhead : t.index.lru.coldest.head? = some key := beq_iff_eq.mp hok
      have hmem : key ∈ t.index.lru.coldest := List.mem_of_head? hhead
      have hsome := (h.tracked.linked key).mp (RecencyList.mem_coldest.mp hmem)
      exact ⟨h.subset key hsome,hsome,
        fun hkey k hk => h.ranked.of_head h.tracked.linked hhead hkey hk⟩
  | indexPut => cases hok
  | _ => trivial

def Answered (items : List PutItem) (s : Store) (results : List StorePutResult) (t : Store) : Prop :=
  results.length = items.length ∧ ∀ x ∈ items.zip results,
    ((s.index.find x.1.key).isSome = true → x.2.status.isOk = true) ∧
    (x.2.status.isOk = true →
      (s.index.find x.1.key).isSome = true ∨ (t.index.find x.1.key).isSome = true)

/-- What phase 1 settles, for each key with the slot it got. -/
theorem settled_of_zip {items : List PutItem} {results : List StorePutResult}
    (h : ∀ x ∈ (items.map fun item => (item,!absentIn s item.key)).zip results, Settled x)
    {x : PutItem × StorePutResult} (hx : x ∈ items.zip results) :
    Settled ((x.1,!absentIn s x.1.key),x.2) := by
  refine h _ ?_
  rw [List.zip_map_left]
  exact List.mem_map.mpr ⟨x,hx,rfl⟩

theorem isSome_of_not_absentIn {key : Key} (h : absentIn s key = false) :
    (s.index.find key).isSome = true := by
  rw [absentIn, Option.isNone_eq_false_iff] at h
  exact h

/-- Phase 2 writes absent keys. -/
theorem Settled.absent {item : PutItem} {r : StorePutResult}
    (h : Settled ((item,!absentIn s item.key),r)) (hw : toWrite r = true) :
    s.index.find item.key = none := by
  cases habs : absentIn s item.key with
  | true => exact Option.isNone_iff_eq_none.mp habs
  | false =>
    rw [habs] at h
    have hr : r = ⟨.OK,0,0⟩ := h
    rw [hr] at hw
    cases hw

theorem Settled.isOk {item : PutItem} {r : StorePutResult}
    (h : Settled ((item,!absentIn s item.key),r)) :
    ((s.index.find item.key).isSome = true → r.status.isOk = true ∧ toWrite r = false) ∧
    (r.status.isOk = true → (s.index.find item.key).isSome = true ∨ toWrite r = true) := by
  cases habs : absentIn s item.key with
  | true =>
    have hnone : s.index.find item.key = none := Option.isNone_iff_eq_none.mp habs
    rw [habs] at h
    have hr : r.status.isOk = toWrite r := h
    refine ⟨fun hsome => ?_,fun hok => .inr (hr ▸ hok)⟩
    rw [hnone] at hsome
    cases hsome
  | false =>
    rw [habs] at h
    have hr : r = ⟨.OK,0,0⟩ := h
    rw [hr]
    exact ⟨fun _ => ⟨rfl,rfl⟩,fun _ => .inl (isSome_of_not_absentIn habs)⟩

theorem answered_writeAndCommit {items : List PutItem} {results : List StorePutResult}
    (hl : results.length = items.length)
    (hsettled : ∀ x ∈ items.zip results, Settled ((x.1,!absentIn s x.1.key),x.2)) :
    wp storeMachine (orderly keys s) (fun results' t' => Answered items s results' t')
      (writeAndCommit cfg (items.zip results)) t := by
  have hanswer : ∀ (f : PutItem × StorePutResult → StorePutResult) (t' : Store),
      (∀ x ∈ items.zip results,
        ((s.index.find x.1.key).isSome = true → (f x).status.isOk = true) ∧
        ((f x).status.isOk = true →
          (s.index.find x.1.key).isSome = true ∨ (t'.index.find x.1.key).isSome = true)) →
      Answered items s ((items.zip results).map f) t' := by
    intro f t' hf
    refine ⟨by simp [hl],fun x hx => ?_⟩
    rw [zip_map_answers hl] at hx
    obtain ⟨y,hy,rfl⟩ := List.mem_map.mp hx
    exact hf y hy
  have hcalls : ∀ (u : Store) (op : StoreCall), insertsOnly (items.zip results) op →
      orderly keys s u op := by
    rintro u op (hop | ⟨x,hx,hw,record,data,rfl⟩)
    · exact orderly_of_not_onIndex hop
    · exact (hsettled x hx).absent hw
  refine wp_mono (wp_ok_mono wp_writeAndCommit hcalls) ?_
  rintro results' t' (⟨status,hbad,hindex,rfl⟩ | ⟨rfl,hcommit⟩)
  · refine hanswer _ t' fun x hx => ?_
    obtain ⟨hpresent,hok⟩ := (hsettled x hx).isOk
    split
    · next hw =>
      refine ⟨fun hsome => ?_,fun h => absurd h (by simp [hbad])⟩
      have hnot := (hpresent hsome).2
      rw [hw] at hnot
      cases hnot
    · next hw => exact ⟨fun hsome => (hpresent hsome).1,fun h => .inl ((hok h).resolve_right hw)⟩
  · refine hanswer Prod.snd t' fun x hx => ?_
    obtain ⟨hpresent,hok⟩ := (hsettled x hx).isOk
    refine ⟨fun hsome => (hpresent hsome).1,fun h => (hok h).imp id fun hw => ?_⟩
    exact (hcommit x.1.key).mpr (.inr ⟨x,List.mem_filter.mpr ⟨hx,hw⟩,rfl⟩)

/-- What a batch does and answers when it runs alone. -/
theorem answered_batchPutItems (items : List PutItem) (hs : s.InOrder) :
    wp storeMachine (orderly (items.map PutItem.key) s)
      (fun results t => Answered items s results t) (batchPutItems cfg items) s := by
  have hlookup : ∀ (t : Store) (op : StoreCall), (∃ key, op = .indexGet key) →
      orderly (items.map PutItem.key) s t op := by
    rintro t op ⟨key,rfl⟩
    trivial
  refine wp_bind.mpr (wp_mono (wp_ok_mono (wp_present items hs.tracked) hlookup) ?_)
  rintro present s₁ ⟨hlooked,rfl⟩
  rw [← List.map_prod_left_eq_zip]
  have horder : s₁.InOrder := by
    refine ⟨hlooked.tracked,?_⟩
    rw [hlooked.rest]
    exact hs.sized
  have hroom : MakingRoom (items.map PutItem.key) s s₁ :=
    ⟨hlooked.tracked,hlooked.ranked,fun k hk => by rwa [hlooked.isSome_find] at hk⟩
  refine wp_bind.mpr (wp_mono (wp_invariant (ages_allocateBatch _ horder)
    (fun h hok hs => MakingRoom.step h hok hs) (fun _ _ h hok => MakingRoom.orderly h hok) hroom) ?_)
  rintro results s₂ ⟨⟨-,hl,hsettled⟩,-⟩
  rw [List.length_map] at hl
  exact answered_writeAndCommit hl fun x hx => settled_of_zip hsettled hx

theorem answered_batchPut {dataPtrs : List (Option Bytes)} {sizes : List ℕ} (hs : s.InOrder)
    (hlen : keys.length = dataPtrs.length ∧ keys.length = sizes.length) :
    wp storeMachine (orderly keys s)
      (fun results t => Answered (putItems keys dataPtrs sizes) s results t)
      (batchPut cfg keys dataPtrs sizes) s := by
  have hbatch := @answered_batchPutItems cfg s (putItems keys dataPtrs sizes) hs
  rw [map_key_putItems hlen.1 hlen.2] at hbatch
  unfold batchPut
  rw [if_neg (by omega)]
  exact hbatch

def PresentKept (keys : List Key) (s t : Store) : Prop :=
  ∀ key ∈ keys, (s.index.find key).isSome = true → (t.index.find key).isSome = true

variable {op : StoreCall} {c : StoreChoice} {r : op.Res} {t' : Store}

/-- While there are other records to evict, those of the batch that were present are kept. -/
theorem find_kept {k : Key} (hok : orderly keys s t op) (hbesides : evictsBesides keys t op)
    (hs : t.step op c = some (r,t')) (hk : k ∈ keys) (hsome : (s.index.find k).isSome = true) :
    (t'.index.find k).map StoreKeyRecord.timeless =
      (t.index.find k).map StoreKeyRecord.timeless := by
  cases index_step hs with
  | put key record data hput =>
    have hne : k ≠ key := by
      rintro rfl
      have hnone : s.index.find k = none := hok
      rw [hnone] at hsome
      cases hsome
    rw [hput, StoreMetaIndex.find_put, if_neg hne]
  | remove key snapshot hrem =>
    cases snapshot with
    | none => exact hok.elim
    | some snapshot =>
      obtain ⟨k',hnot,hk'⟩ := hbesides
      have hne : k ≠ key := by
        rintro rfl
        exact hnot (hok.2.2 hk k' hk')
      rw [hrem, StoreMetaIndex.find_remove, if_neg hne]
  | keep _ _ hsame => exact hsame.find k

theorem PresentKept.step (h : PresentKept keys s t) (hok : orderly keys s t op)
    (hbesides : evictsBesides keys t op) (hs : t.step op c = some (r,t')) :
    PresentKept keys s t' := by
  intro k hk hsome
  have hfind := congrArg Option.isSome (find_kept hok hbesides hs hk hsome)
  rw [Option.isSome_map, Option.isSome_map] at hfind
  rw [hfind]
  exact h k hk hsome

/-- A key that was evicted does not come back. -/
theorem not_presentKept_step (hok : orderly keys s t op) (h : ¬ PresentKept keys s t)
    (hs : t.step op c = some (r,t')) : ¬ PresentKept keys s t' := by
  intro hkept
  refine h fun k hk hsome => ?_
  have hnew := hkept k hk hsome
  cases index_step hs with
  | put key record data hput =>
    rw [hput, StoreMetaIndex.find_put] at hnew
    have hne : k ≠ key := by
      rintro rfl
      have hnone : s.index.find k = none := hok
      rw [hnone] at hsome
      cases hsome
    rwa [if_neg hne] at hnew
  | remove key snapshot hrem =>
    rw [hrem, StoreMetaIndex.find_remove] at hnew
    split at hnew
    · cases hnew
    · exact hnew
  | keep _ _ hsame =>
    have hfind := congrArg Option.isSome (hsame.find k)
    rw [Option.isSome_map, Option.isSome_map] at hfind
    rwa [hfind] at hnew

/-- When nothing else is left, a present key of the batch is evicted. -/
theorem not_presentKept_of_evicts (hok : orderly keys s t op) (hbad : ¬ evictsBesides keys t op)
    (hs : t.step op c = some (r,t')) : ¬ PresentKept keys s t' := by
  cases op with
  | indexRemove key snapshot =>
    cases snapshot with
    | none => exact hok.elim
    | some snapshot =>
      obtain ⟨hsome,hthere,-⟩ := hok
      have hkey : key ∈ keys := by
        by_contra hnot
        exact hbad ⟨key,hnot,hthere⟩
      intro hkept
      have hgone := hkept key hkey hsome
      cases hs
      dsimp only at hgone
      rw [StoreMetaIndex.find_remove, if_pos rfl] at hgone
      cases hgone
  | _ => exact absurd trivial hbad

theorem Answered.presentKept {items : List PutItem} {results : List StorePutResult}
    (h : Answered items s results t) (hacks : AcksPresent (items.map PutItem.key) results t) :
    PresentKept (items.map PutItem.key) s t := by
  intro key hk hsome
  obtain ⟨item,hitem,rfl⟩ := List.mem_map.mp hk
  obtain ⟨r,hr⟩ := exists_answer h.1 hitem
  refine hacks (item.key,r) ?_ ((h.2 _ hr).1 hsome)
  rw [List.zip_map_left]
  exact List.mem_map.mpr ⟨(item,r),hr,rfl⟩

theorem Answered.acksPresent {items : List PutItem} {results : List StorePutResult}
    (h : Answered items s results t) (hkept : PresentKept (items.map PutItem.key) s t) :
    AcksPresent (items.map PutItem.key) results t := by
  intro x hx hok
  rw [List.zip_map_left] at hx
  obtain ⟨y,hy,rfl⟩ := List.mem_map.mp hx
  have hmem : y.1.key ∈ items.map PutItem.key :=
    List.mem_map_of_mem (List.of_mem_zip hy).1
  exact ((h.2 y hy).2 hok).elim (hkept _ hmem) id

end StoreOps

open StoreOps in
/-- Run alone, a batch has all acknowledged keys in the index when it returns, iff it never
evicts a record when only keys of the batch are left. -/
theorem acksPresent_iff_evictsBesides {cfg : StoreConfig} {s s' : Store} {keys : List Key}
    {dataPtrs : List (Option Bytes)} {sizes : List ℕ} {results : List StorePutResult}
    (hs : s.InOrder)
    (he : Exec storeMachine (fun _ _ => True) (batchPut cfg keys dataPtrs sizes) s results s') :
    AcksPresent keys results s' ↔
      Exec storeMachine (evictsBesides keys) (batchPut cfg keys dataPtrs sizes) s results s' := by
  by_cases hlen : keys.length = dataPtrs.length ∧ keys.length = sizes.length
  · have hkeys : (putItems keys dataPtrs sizes).map PutItem.key = keys :=
      map_key_putItems hlen.1 hlen.2
    have hbatch := @answered_batchPut cfg s keys dataPtrs sizes hs hlen
    obtain ⟨hcalls,hanswered⟩ := he.of_wp hbatch
    constructor
    · intro hacks
      refine hcalls.of_not_spoilt (B := fun t => ¬ PresentKept keys s t)
        (fun hok hbad hs => not_presentKept_of_evicts hok.1 hbad hs)
        (fun hok hbad hs => not_presentKept_step hok.1 hbad hs) (not_not.mpr ?_)
      rw [← hkeys] at hacks ⊢
      exact hanswered.presentKept hacks
    · intro hbesides
      have hkept : PresentKept keys s s' := (hbesides.of_wp hbatch).1.keeps
        (fun hok h hs => h.step hok.1 hok.2 hs) fun _ _ h => h
      rw [← hkeys] at hkept ⊢
      exact hanswered.acksPresent hkept
  · have hne : keys.length ≠ dataPtrs.length ∨ keys.length ≠ sizes.length := by omega
    unfold batchPut at he ⊢
    rw [if_pos hne] at he ⊢
    cases he
    refine ⟨fun _ => .ret _ _,fun _ x hx hok => ?_⟩
    obtain ⟨k,-,hk⟩ := List.mem_map.mp (List.of_mem_zip hx).2
    rw [← hk] at hok
    cases hok

open Release

def Release.storedTwo : List (StoreOp × List StoreChoice) :=
  undisturbed [.put "a" (value 1) 8,.put "b" (value 2) 8]

def Release.batchAlone (keys : List Key) (s : Store) : Option (List StorePutResult × Store) :=
  execWith storeMachine (fun _ _ => true)
    (StoreOps.batchPut twoSlots keys (keys.map fun _ => value 3) (keys.map fun _ => 8))
    (List.replicate 40 {}) s

/-- A present key and a new one: the key that is not in the batch is evicted. -/
theorem acksPresent_iff_evictsBesides_pair : ∃ s results s',
    SerialRun twoSlots (fun _ _ _ _ => True) s ∧ AcksPresent ["a","c"] results s' ∧
    Exec storeMachine (evictsBesides ["a","c"])
      (StoreOps.batchPut twoSlots ["a","c"] [value 3,value 3] [8,8]) s results s' := by
  obtain ⟨s,hrun,hs⟩ := Store.serialRun_of_script twoSlots (fun _ _ => true) storedTwo
    (f := fun s => (batchAlone ["a","c"] s).map fun x => decide (AcksPresent ["a","c"] x.1 x.2))
    (v := some true) rfl
  obtain ⟨⟨results,s'⟩,hexec,hacks⟩ := Option.map_eq_some_iff.mp hs
  have hserial : SerialRun twoSlots (fun _ _ _ _ => True) s :=
    Store.serialRun_mono (fun _ _ _ _ _ => trivial) hrun
  have he := (exec_of_execWith hexec).ok_mono fun _ _ _ => trivial
  have hacks : AcksPresent ["a","c"] results s' := of_decide_eq_true hacks
  exact ⟨s,results,s',hserial,hacks,(acksPresent_iff_evictsBesides
    (Store.inOrder_of_serialRun (by decide) hserial) he).mp hacks⟩

/-- Both present keys are in the batch: one of them is evicted for the new one. -/
theorem exists_exec_not_acksPresent : ∃ s results s',
    SerialRun twoSlots (fun _ _ _ _ => True) s ∧
    Exec storeMachine (fun _ _ => True)
      (StoreOps.batchPut twoSlots ["a","b","c"] [value 3,value 3,value 3] [8,8,8]) s results s' ∧
    results.map (fun r => r.status.isOk) = [true,true,true] ∧ s'.index.find "a" = none ∧
    ¬ AcksPresent ["a","b","c"] results s' := by
  obtain ⟨s,hrun,hs⟩ := Store.serialRun_of_script twoSlots (fun _ _ => true) storedTwo
    (f := fun s => (batchAlone ["a","b","c"] s).map fun x => (x.1.map fun r => r.status.isOk,
      (x.2.index.find "a").isNone,decide (AcksPresent ["a","b","c"] x.1 x.2)))
    (v := some ([true,true,true],true,false)) rfl
  obtain ⟨⟨results,s'⟩,hexec,hout⟩ := Option.map_eq_some_iff.mp hs
  obtain ⟨hok,hout⟩ := Prod.mk.inj hout
  obtain ⟨hnone,hacks⟩ := Prod.mk.inj hout
  exact ⟨s,results,s',Store.serialRun_mono (fun _ _ _ _ _ => trivial) hrun,
    (exec_of_execWith hexec).ok_mono fun _ _ _ => trivial,hok,Option.isNone_iff_eq_none.mp hnone,
    of_decide_eq_false hacks⟩

end FalconKV
