import FalconKV.Meta.SyncClient
import FalconKV.Store.Custody
import FalconKV.Store.Steps

/-! # What an operation owes to Meta

A record that an operation inserts has to be committed to Meta, and a key that Meta has
dropped has to be taken out of the index. Every operation of a store with a Meta client
does so before it returns, as far as the calls of the client allow it to.
-/
namespace FalconKV
open AtomicCalls

namespace Promise

def dropped (keys : List Key) (s : Status) : Multiset Duty :=
  if s.isOk then ((keys.map Duty.drop : List Duty) : Multiset Duty) else 0

theorem dropped_of_ok {keys : List Key} {s : Status} (h : s.isOk = true) :
    dropped keys s = (keys.map Duty.drop : List Duty) := if_pos h

theorem dropped_of_failed {keys : List Key} {s : Status} (h : s.isOk = false) :
    dropped keys s = 0 := if_neg (by simp [h])

def rule (storeId : ℕ) : (op : StoreCall) → op.Res → Multiset Duty → Multiset Duty → Prop
  | .indexPut key record _, _, used, made =>
    used = 0 ∧ record.key = key ∧ record.stat = 1 ∧ made = {.commit record.desc}
  | .indexRemove key _, _, used, made => made = 0 ∧ used = {.drop key}
  | .syncCommit id records, _, used, made => made = 0 ∧ id = storeId ∧ used = commits records
  | .asyncCommit id records, _, used, made => made = 0 ∧ id = storeId ∧ used = commits records
  | .syncRemove id keys, s, used, made =>
    used = 0 ∧ id = storeId ∧ made = dropped keys s
  | _, _, used, made => used = 0 ∧ made = 0

end Promise

def promises (storeId : ℕ) : Discipline storeCalls (Multiset Duty) :=
  ⟨fun _ _ => True,Promise.rule storeId⟩

namespace StoreOps
open Promise

variable {cfg : StoreConfig} {α β : Type} {post : β → Multiset Duty → Prop}

abbrev Fulfils (cfg : StoreConfig) (p : StoreProg α) (g : Multiset Duty) : Prop :=
  Uses (promises cfg.storeId) (fun _ g' => g' = 0) p g

/-- A program without duties, then the rest. -/
theorem owes_then {p : StoreProg α} {k : α → StoreProg β} {g : Multiset Duty}
    (hp : Fulfils cfg p 0) (h : ∀ a, Uses (promises cfg.storeId) post (k a) g) :
    Uses (promises cfg.storeId) post (p >>= k) g := uses_bind_keep hp h

theorem fulfils_frees {γ : Type} (offset : γ → ℤ) (n : γ → ℕ) (xs : List γ) :
    Fulfils cfg (Prog.forEach (fun x => invoke (.free (offset x) (n x))) xs) 0 :=
  uses_forEach (split_zero fun _ _ => uses_idle (fun _ => ⟨rfl,rfl⟩) fun _ _ => rfl)

theorem fulfils_freeEntries (entries : List EvictEntry) : Fulfils cfg (freeEntries entries) 0 :=
  owes_then (fulfils_frees _ _ entries) fun _ => rfl

theorem fulfils_flushExpired : Fulfils cfg flushExpired 0 :=
  uses_idle (fun _ => ⟨rfl,rfl⟩) fun _ _ => uses_idle (fun _ => ⟨rfl,rfl⟩) fun entries _ =>
    fulfils_freeEntries entries

theorem fulfils_flushAllForced : Fulfils cfg flushAllForced 0 :=
  uses_idle (fun _ => ⟨rfl,rfl⟩) fun entries _ => fulfils_freeEntries entries

theorem fulfils_dropCandidate (rec : StoreKeyRecord) :
    Fulfils cfg (dropCandidate rec) {.drop rec.key} := by
  intro _ _
  refine ⟨{.drop rec.key},0,0,⟨rfl,rfl⟩,rfl,?_⟩
  exact uses_idle (fun _ => ⟨rfl,rfl⟩) fun _ _ => rfl

theorem fulfils_dropCandidates (candidates : List StoreKeyRecord) :
    Fulfils cfg (Prog.forEach dropCandidate candidates)
      (candidates.map fun rec => Duty.drop rec.key : List Duty) := by
  refine uses_forEach ((split_singletons _ candidates).mono ?_)
  rintro rec - _ rfl
  exact fulfils_dropCandidate rec

theorem uses_notifyRemove (hsync : cfg.metaSync = true) (keys : List Key) :
    Uses (promises cfg.storeId) (fun s g => g = dropped keys s) (notifyRemove cfg keys) 0 := by
  unfold notifyRemove
  rw [if_pos hsync]
  intro s _
  exact ⟨0,_,0,⟨rfl,rfl,rfl⟩,rfl,by rw [add_zero]; rfl⟩

/-- What was announced is dropped before anything else. -/
theorem fulfils_notified {β : Type} (hsync : cfg.metaSync = true) (candidates : List StoreKeyRecord)
    (failed : β) {next : StoreProg β} (h : Fulfils cfg next 0) :
    Fulfils cfg (notifyRemove cfg (candidates.map StoreKeyRecord.key) >>= fun s =>
      if !s.isOk then pure failed
      else Prog.forEach dropCandidate candidates >>= fun _ => next) 0 := by
  refine uses_bind (uses_mono (uses_notifyRemove hsync _) ?_)
  rintro s _ rfl
  split
  · next hs => exact dropped_of_failed (by simpa using hs)
  · next hs =>
    rw [dropped_of_ok (by simpa using hs), List.map_map]
    refine uses_bind (uses_mono (fulfils_dropCandidates candidates) ?_)
    rintro _ _ rfl
    exact h

theorem fulfils_evictEntries (hsync : cfg.metaSync = true) (candidates : List StoreKeyRecord) :
    Fulfils cfg (evictEntries cfg candidates) 0 := by
  unfold evictEntries
  split
  · exact rfl
  · exact fulfils_notified hsync candidates false rfl

theorem fulfils_tryEvictBatchLRU (hsync : cfg.metaSync = true) :
    Fulfils cfg (tryEvictBatchLRU cfg) 0 := by
  refine uses_idle (fun _ => ⟨rfl,rfl⟩) fun candidates _ => ?_
  split
  · exact rfl
  · exact fulfils_evictEntries hsync candidates

theorem fulfils_forceEvictRounds (hsync : cfg.metaSync = true)
    (neededBytes rounds totalEvicted : ℕ) :
    Fulfils cfg (forceEvictRounds cfg neededBytes rounds totalEvicted) 0 := by
  induction rounds generalizing totalEvicted with
  | zero => exact rfl
  | succ rounds ih =>
    unfold forceEvictRounds
    split
    · exact rfl
    · refine uses_idle (fun _ => ⟨rfl,rfl⟩) fun candidates _ => ?_
      split
      · exact rfl
      · exact fulfils_notified hsync candidates.entries totalEvicted (ih _)

theorem fulfils_alloc_or (size : ℕ) {retry : StoreProg Allocated} (h : Fulfils cfg retry 0) :
    Fulfils cfg (invoke (.alloc size) >>= fun a => if 0 ≤ a.offset then pure a else retry) 0 := by
  refine uses_idle (fun _ => ⟨rfl,rfl⟩) fun a _ => ?_
  split
  · exact rfl
  · exact h

theorem fulfils_allocReclaiming (hsync : cfg.metaSync = true) (size : ℕ) :
    Fulfils cfg (allocReclaiming cfg size) 0 := by
  refine owes_then fulfils_flushExpired fun _ => fulfils_alloc_or size ?_
  refine uses_idle (fun _ => ⟨rfl,rfl⟩) fun totalBytes _ => ?_
  refine owes_then (fulfils_forceEvictRounds hsync _ 5 0) fun _ => ?_
  refine owes_then fulfils_flushExpired fun _ => fulfils_alloc_or size ?_
  refine owes_then fulfils_flushAllForced fun _ => ?_
  exact uses_idle (fun _ => ⟨rfl,rfl⟩) fun _ _ => rfl

theorem fulfils_write (offset : ℕ) (data : Option Bytes) (size : ℕ) :
    Fulfils cfg (write offset data size) 0 := by
  unfold write
  split
  · exact rfl
  · refine uses_idle (fun _ => ⟨rfl,rfl⟩) fun r _ => ?_
    split <;> rfl

theorem fulfils_writeItem (item : WriteItem) : Fulfils cfg (writeItem cfg item) 0 := by
  unfold writeItem
  split
  · exact uses_idle (fun _ => ⟨rfl,rfl⟩) fun _ _ => rfl
  · exact fulfils_write _ _ _

/-- Insert a record and owe its commit. -/
theorem owes_indexPut {item : PutItem} {offset allocSize now : ℕ} {k : Unit → StoreProg β}
    {g : Multiset Duty}
    (h : Uses (promises cfg.storeId) post (k ())
      ({.commit (committedRecord item offset allocSize now).desc} + g)) :
    Uses (promises cfg.storeId) post (invoke (.indexPut item.key
      (committedRecord item offset allocSize now) item.data) >>= k) g :=
  fun _ _ => ⟨0,_,g,⟨rfl,rfl,rfl,rfl⟩,(zero_add g).symm,h⟩

theorem fulfils_notifyCommit (hsync : cfg.metaSync = true) (records : List StoreKeyRecord) :
    Fulfils cfg (notifyCommit cfg records) (commits records) := by
  unfold notifyCommit
  rw [if_pos hsync]
  intro _ _
  exact ⟨commits records,0,0,⟨rfl,rfl,rfl⟩,(add_zero _).symm,rfl⟩

theorem fulfils_putInto (hsync : cfg.metaSync = true) (item : PutItem) (a : Allocated) :
    Fulfils cfg (putInto cfg item a) 0 := by
  refine owes_then (fulfils_write _ _ _) fun s => ?_
  split
  · exact uses_idle (fun _ => ⟨rfl,rfl⟩) fun _ _ => rfl
  · refine uses_idle (fun _ => ⟨rfl,rfl⟩) fun now _ => owes_indexPut ?_
    rw [add_zero]
    exact uses_bind (uses_mono (fulfils_notifyCommit hsync [_]) fun _ _ h => h)

theorem fulfils_put (hsync : cfg.metaSync = true) (item : PutItem) :
    Fulfils cfg (put cfg item) 0 := by
  refine uses_idle (fun _ => ⟨rfl,rfl⟩) fun found _ => ?_
  split
  · exact rfl
  · refine owes_then (fulfils_alloc_or _ (fulfils_allocReclaiming hsync _)) fun a => ?_
    split
    · exact rfl
    · exact fulfils_putInto hsync item a

theorem fulfils_assignSlots (hsync : cfg.metaSync = true) {allocSize : ℕ} {offsets : List ℤ}
    (items : List (PutItem × Bool)) :
    Fulfils cfg (assignSlots cfg allocSize offsets items) 0 := by
  induction items generalizing offsets with
  | nil =>
    unfold assignSlots
    exact rfl
  | cons x items ih =>
    obtain ⟨item,present⟩ := x
    cases present with
    | true =>
      unfold assignSlots
      exact owes_then ih fun _ => rfl
    | false =>
      cases offsets with
      | cons o offsets =>
        unfold assignSlots
        exact owes_then ih fun _ => rfl
      | nil =>
        unfold assignSlots
        exact owes_then (fulfils_allocReclaiming hsync _) fun a => owes_then ih fun _ => rfl

theorem fulfils_allocateBatch (hsync : cfg.metaSync = true) (items : List (PutItem × Bool)) :
    Fulfils cfg (allocateBatch cfg items) 0 := by
  unfold allocateBatch
  split
  · exact fulfils_assignSlots hsync items
  · exact uses_idle (fun _ => ⟨rfl,rfl⟩) fun r _ => fulfils_assignSlots hsync items

theorem fulfils_batchWrite (items : List WriteItem) : Fulfils cfg (batchWrite cfg items) 0 := by
  have heach : Fulfils cfg (Prog.mapEach (writeItem cfg) items) 0 := by
    induction items with
    | nil => exact rfl
    | cons item items ih => exact owes_then (fulfils_writeItem item) fun _ => owes_then ih fun _ => rfl
  exact owes_then heach fun _ => rfl

/-- The records that phase 3 inserts are those whose commit it owes. -/
theorem uses_commit (writes : List (PutItem × StorePutResult)) :
    Uses (promises cfg.storeId) (fun records g => g = (commits records : Multiset Duty))
      (Prog.mapEach commitOne writes) 0 := by
  induction writes with
  | nil => exact rfl
  | cons x writes ih =>
    have hone : Uses (promises cfg.storeId) (fun rec g => g = {.commit rec.desc}) (commitOne x) 0 :=
      uses_idle (fun _ => ⟨rfl,rfl⟩) fun now _ => owes_indexPut (add_zero _)
    refine uses_bind (uses_mono hone ?_)
    rintro rec _ rfl
    refine uses_bind_frame (zero_add _).symm ih ?_
    rintro records _ rfl
    change _ = ((Duty.commit rec.desc :: commits records : List Duty) : Multiset Duty)
    rw [← Multiset.cons_coe, ← Multiset.singleton_add, add_comm]

theorem fulfils_notifyAsync (hsync : cfg.metaSync = true) (records : List StoreKeyRecord) :
    Fulfils cfg (notifyAsync cfg records) (commits records) := by
  unfold notifyAsync
  split
  · intro _ _
    exact ⟨commits records,0,0,⟨rfl,rfl,rfl⟩,(add_zero _).symm,rfl⟩
  · next hempty =>
    have hnil : records = [] := by simpa [hsync] using hempty
    rw [hnil]
    rfl

theorem fulfils_writeAndCommit (hsync : cfg.metaSync = true)
    (pairs : List (PutItem × StorePutResult)) : Fulfils cfg (writeAndCommit cfg pairs) 0 := by
  refine owes_then (fulfils_batchWrite _) fun s => ?_
  split
  · exact owes_then (fulfils_frees _ _ _) fun _ => rfl
  · refine uses_bind (uses_mono (uses_commit _) ?_)
    rintro records _ rfl
    exact uses_bind (uses_mono (fulfils_notifyAsync hsync records) fun _ _ h => h)

theorem fulfils_batchPutItems (hsync : cfg.metaSync = true) (items : List PutItem) :
    Fulfils cfg (batchPutItems cfg items) 0 := by
  have hpresent : ∀ items : List PutItem, Fulfils cfg (Prog.mapEach (fun item => do
      let found ← invoke (.indexGet item.key)
      pure found.isSome) items) 0 := by
    intro items
    induction items with
    | nil => exact rfl
    | cons item items ih =>
      exact uses_idle (fun _ => ⟨rfl,rfl⟩) fun found _ => owes_then ih fun _ => rfl
  refine owes_then (hpresent items) fun present => ?_
  exact owes_then (fulfils_allocateBatch hsync _) fun results => fulfils_writeAndCommit hsync _

theorem fulfils_read (offset : ℕ) (buffer : Option Bytes) (size : ℕ) (reader : Key) :
    Fulfils cfg (read offset buffer size reader) 0 := by
  unfold read
  split
  · exact rfl
  · refine uses_idle (fun _ => ⟨rfl,rfl⟩) fun (r,bytes) _ => ?_
    dsimp only
    split
    · exact rfl
    · split <;> rfl

theorem fulfils_get (key : Key) (buffer : Option Bytes) (bufferSize : ℕ) :
    Fulfils cfg (get key buffer bufferSize) 0 := by
  refine uses_idle (fun _ => ⟨rfl,rfl⟩) fun record _ => ?_
  cases record with
  | none => exact rfl
  | some record =>
    dsimp only
    split
    · exact rfl
    · refine owes_then (fulfils_read _ _ _ _) fun (s,buffer) => ?_
      dsimp only
      split <;> rfl

theorem fulfils_remove (hsync : cfg.metaSync = true) (key : Key) :
    Fulfils cfg (remove cfg key) 0 := by
  refine uses_bind (uses_mono (uses_notifyRemove hsync [key]) ?_)
  rintro s _ rfl
  split
  · next hs => exact dropped_of_failed (by simpa using hs)
  · next hs =>
    rw [dropped_of_ok (by simpa using hs)]
    refine uses_perform fun record _ => ⟨{.drop key},0,0,⟨rfl,rfl⟩,rfl,?_⟩
    split
    · exact rfl
    · exact uses_idle (fun _ => ⟨rfl,rfl⟩) fun _ _ => rfl

/-- Every operation of a store with a Meta client. -/
theorem fulfils_run (hsync : cfg.metaSync = true) (op : StoreOp) : Fulfils cfg (op.run cfg) 0 := by
  cases op with
  | put key data size => exact owes_then (fulfils_put hsync ⟨key,data,size⟩) fun _ => rfl
  | batchPut keys dataPtrs sizes =>
    refine owes_then ?_ fun _ => rfl
    unfold batchPut
    split
    · exact rfl
    · exact fulfils_batchPutItems hsync _
  | get key buffer bufferSize => exact owes_then (fulfils_get key buffer bufferSize) fun _ => rfl
  | contains key => exact uses_idle (fun _ => ⟨rfl,rfl⟩) fun _ _ => rfl
  | batchContains keys => exact uses_idle (fun _ => ⟨rfl,rfl⟩) fun _ _ => rfl
  | remove key => exact owes_then (fulfils_remove hsync key) fun _ => rfl
  | evictPass => exact owes_then (fulfils_tryEvictBatchLRU hsync) fun _ => rfl
  | flushExpired => exact owes_then fulfils_flushExpired fun _ => rfl
  | flushAllForced => exact owes_then fulfils_flushAllForced fun _ => rfl

end StoreOps

def StoreCall.isLocal : StoreCall → Bool
  | syncCommit .. | asyncCommit .. | syncRemove .. => false
  | _ => true

theorem Promise.idle_of_local {storeId : ℕ} {op : StoreCall} {r : op.Res}
    {used made : Multiset Duty} (hr : Promise.rule storeId op r used made)
    (hlocal : op.isLocal = true) (hput : op.isPut = false) (hrem : op.isRemove = false) :
    used = 0 ∧ made = 0 := by
  cases op with
  | indexPut key record data => cases hput
  | indexRemove key snapshot => cases hrem
  | syncCommit | asyncCommit | syncRemove => cases hlocal
  | _ => exact hr

/-- What a store promises of its calls holds of the calls that are made in its node, if
the client does what the calls to it promise. -/
theorem uses_atNode {D : Discipline clusterCalls (Multiset Duty)} {i storeId : ℕ}
    (hlocal : ∀ op r used made, op.isLocal = true → Promise.rule storeId op r used made →
      D.rule (.atStore i op) r used made)
    (hcommit : ∀ records, Uses D (fun _ g => g = 0)
      (MetaSyncClient.syncCommit i storeId records []) (commits records))
    (hasync : ∀ records, Uses D (fun _ g => g = 0)
      (MetaSyncClient.asyncCommit i storeId records) (commits records))
    (hremove : ∀ keys, Uses D (fun s g => g = Promise.dropped keys s)
      (MetaSyncClient.syncRemove i storeId keys) 0)
    (op : StoreCall) (g : Multiset Duty) (P : op.Res → Multiset Duty → Prop)
    (h : ∀ r, (promises storeId).guar op r → ∃ used made rest,
      (promises storeId).rule op r used made ∧ g = used + rest ∧ P r (made + rest)) :
    Uses D P (atNode i op) g := by
  have hhere : op.isLocal = true → Uses D P (invokeCluster (.atStore i op)) g := by
    intro hop r _
    obtain ⟨used,made,rest,hrule,hg,hP⟩ := h r trivial
    exact ⟨used,made,rest,hlocal op r used made hop hrule,hg,hP⟩
  cases op with
  | syncCommit id records =>
    obtain ⟨_,_,rest,⟨rfl,rfl,rfl⟩,hg,-⟩ := h .OK trivial
    refine uses_mono (uses_frame_of hg (hcommit records)) ?_
    rintro s _ ⟨_,rfl,rfl⟩
    obtain ⟨_,_,rest',⟨rfl,-,rfl⟩,hg',hP⟩ := h s trivial
    rwa [add_left_cancel (hg.symm.trans hg')]
  | asyncCommit id records =>
    obtain ⟨_,_,rest,⟨rfl,rfl,rfl⟩,hg,hP⟩ := h () trivial
    refine uses_mono (uses_frame_of hg (hasync records)) ?_
    rintro _ _ ⟨_,rfl,rfl⟩
    exact hP
  | syncRemove id keys =>
    obtain ⟨_,_,rest,⟨rfl,rfl,rfl⟩,hg,-⟩ := h .OK trivial
    refine uses_mono (uses_frame_of hg (hremove keys)) ?_
    rintro s _ ⟨_,rfl,rfl⟩
    obtain ⟨_,_,rest',⟨rfl,-,rfl⟩,hg',hP⟩ := h s trivial
    rwa [add_left_cancel (hg.symm.trans hg')]
  | _ => exact hhere rfl

end FalconKV
