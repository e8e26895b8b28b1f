import FalconKV.AtomicCalls.Ledgers
import FalconKV.Client.Positions

/-! # Slots that clients are told of

The store of a client, its cache and Meta tell its operations in which slots the values of keys are,
and Meta under which paths and addresses the stores of others are. An operation reads, remembers and
passes on nothing else. This is a matter of the programs alone.
-/
namespace FalconKV
open AtomicCalls

namespace KeyDescCache

/-- What does not depend on the time of the last access stays true of all descriptors. -/
theorem forall_batchLookup {P : KeyDescriptor → Prop} (hP : ∀ desc now, P desc → P { desc with accessTimeMs := now })
    {c : KeyDescCache} (h : ∀ desc ∈ c.descs, P desc) (now : ℕ) (keys : List Key) :
    (∀ desc ∈ (c.batchLookup now keys).1.1, P desc) ∧ ∀ desc ∈ (c.batchLookup now keys).2.descs, P desc := by
  induction keys generalizing c with
  | nil =>
    constructor
    · intro desc hdesc
      cases hdesc
    · exact h
  | cons key keys ih =>
    have hfst := lookup_fst c now key
    cases hfind : c.find key with
    | none =>
      have hsame : c.lookup now key = (none,c) := by
        unfold lookup
        split
        · rfl
        · next found hsome => cases hfind.symm.trans hsome
      rw [batchLookup, hsame]
      exact ih h
    | some found =>
      have hfound : c.descs.find? (fun desc => desc.key == key) = some found := hfind
      have hkey : found.key = key := by simpa using List.find?_some hfound
      have hstamp : P (stamp now key found) := by
        subst hkey
        exact hP found now (h found (List.mem_of_find?_eq_some hfound))
      have hdescs : ∀ desc ∈ (c.lookup now key).2.descs, P desc := by
        rw [descs_lookup now hfind]
        intro desc hdesc
        rcases List.mem_append.mp hdesc with hold | hnew
        · exact h desc (List.mem_of_mem_filter hold)
        · rwa [List.mem_singleton.mp hnew]
      obtain ⟨hhits,hrest⟩ := ih hdescs
      rcases hlookup : c.lookup now key with ⟨answer,c'⟩
      rw [hlookup] at hfst hhits hrest
      rw [hfind] at hfst
      obtain rfl := hfst
      rw [batchLookup, hlookup]
      exact ⟨List.forall_mem_cons.mpr ⟨hstamp,hhits⟩,hrest⟩

theorem forall_insert {P : KeyDescriptor → Prop} {c : KeyDescCache} (h : ∀ desc ∈ c.descs, P desc)
    {desc : KeyDescriptor} (hdesc : P desc) : ∀ desc' ∈ (c.insert desc.key desc).descs, P desc' := by
  have hold : ∀ desc' ∈ others c.descs desc.key, P desc' := fun desc' hmem => h desc' (List.mem_of_mem_filter hmem)
  have hkept : ∀ desc' ∈ evictIfNeeded c.capacity c.descs, P desc' :=
    fun desc' hmem => h desc' ((evictIfNeeded_sublist _ _).subset hmem)
  intro desc' hmem
  unfold insert at hmem
  split at hmem
  · rcases List.mem_append.mp hmem with hmem | hmem
    · exact hold desc' hmem
    · rwa [List.mem_singleton.mp hmem]
  · rcases List.mem_append.mp hmem with hmem | hmem
    · exact hkept desc' hmem
    · rwa [List.mem_singleton.mp hmem]

end KeyDescCache

structure Mention where
  site : ℕ → Bool
  key : Key
  offset : ℕ

def Mention.outdatedBy (m : Mention) : ClientCall → Bool
  | .atStore i op | .forClient i op => m.site i && LastPut.outdates m.key m.offset op
  | _ => false

def ReadWorld.Serves (x : ReadWorld) (m : Mention) : Prop :=
  ∀ i, m.site i = true → LastPut.Stands (x.lastPut i) m.key m.offset

namespace Deployment
variable (D : Deployment)

def means (client : ℕ) (desc : KeyDescriptor) (i : ℕ) : Bool :=
  if desc.accessType = .localDirect then D.localStore client == some i
  else (D.cfg i).storeId == desc.storeId

def mention (client : ℕ) (desc : KeyDescriptor) : Mention := ⟨D.means client desc,desc.key,desc.offset⟩

def remoteMention (client : ℕ) (rec : KeyRecord) : Mention :=
  D.mention client ((D.client client).remoteDesc rec)

def found : (op : ClientCall) → op.Res → List KeyRecord
  | .metaBatchExist _ _, records => records.filter FalconKVClientImpl.isHit
  | .metaBatchLookup _ _, records => records.filter fun rec => rec.key != ""
  | _, _ => []

def tells (op : ClientCall) (r : op.Res) : List Mention :=
  match op with
  | .atStore i (.indexPut key record _) => [⟨fun j => i == j,key,record.offset⟩]
  | .atStore i (.indexBatchContains _) => r.1.map fun rec => ⟨fun j => i == j,rec.key,rec.offset⟩
  | .cacheLookup client _ => r.1.map (D.mention client)
  | .metaBatchExist client keys => (found (.metaBatchExist client keys) r).map (D.remoteMention client)
  | .metaBatchLookup client keys => (found (.metaBatchLookup client keys) r).map (D.remoteMention client)
  | _ => []

def tellsFiles (op : ClientCall) (r : op.Res) : List (ℕ × String) :=
  match op with
  | .getStoreFilePath _ storeId => (r.map fun path => (storeId,path)).toList
  | op => ((found op r).filter fun rec => rec.dataFile != "").map fun rec => (rec.storeId,rec.dataFile)

def tellsAddrs (op : ClientCall) (r : op.Res) : List (ℕ × String) :=
  match op with
  | .getStoreAddr _ storeId => (r.map fun addr => (storeId,addr)).toList
  | .cacheLookup _ _ => (r.1.filter fun desc => desc.storeAddr != "").map fun desc => (desc.storeId,desc.storeAddr)
  | op => ((found op r).filter fun rec => rec.storeAddr != "").map fun rec => (rec.storeId,rec.storeAddr)

abbrev Calls := List (Answered clientCalls)

def ToldFile (calls : Calls) (storeId : ℕ) (path : String) : Prop :=
  ∃ a ∈ calls, (storeId,path) ∈ tellsFiles a.op a.res

def ToldAddr (calls : Calls) (storeId : ℕ) (addr : String) : Prop :=
  ∃ a ∈ calls, (storeId,addr) ∈ tellsAddrs a.op a.res

structure Told (calls : Calls) (client : ℕ) (desc : KeyDescriptor) : Prop where
  mention : ∃ a ∈ calls, D.mention client desc ∈ D.tells a.op a.res
  addr : desc.storeAddr ≠ "" → ToldAddr calls desc.storeId desc.storeAddr

def Directs (calls : Calls) (client : ℕ) (desc : KeyDescriptor) (i : ℕ) : Prop :=
  match desc.accessType with
  | .localDirect => D.localStore client = some i
  | .nodeDirect => ∃ path, ToldFile calls desc.storeId path ∧ (⟨.openFile path,some i⟩ : Answered clientCalls) ∈ calls
  | .remoteRpc => ∃ addr, ToldAddr calls desc.storeId addr ∧ (⟨.request addr,some i⟩ : Answered clientCalls) ∈ calls

def Traced (calls : Calls) (i : ℕ) (reader : Key) (offset : ℕ) : Prop :=
  ∃ client desc, D.Told calls client desc ∧ desc.key = reader ∧ desc.offset = offset ∧ D.Directs calls client desc i

def need (op : ClientCall) (calls : Calls) : Prop :=
  match op with
  | .forClient i (.pread offset _ reader) => D.Traced calls i reader offset
  | .forClient i (.uringRead offset _ reader) => D.Traced calls i reader offset
  | .cacheInsert client desc => D.Told calls client desc
  | .registerStoreFile _ storeId path => ToldFile calls storeId path
  | .setStoreAddr _ storeId addr => ToldAddr calls storeId addr
  | _ => True

def heeding : Ledger clientCalls Calls := Ledger.demanding D.need fun op r => [⟨op,r⟩]

def isClients : ClientCall → Bool
  | .atStore .. => false
  | _ => true

def doneWith (m : Mention) (t : ℕ) : List ClientEvent → Bool
  | [] => true
  | e :: tr => if m.outdatedBy e.op then tr.all fun e => e.thread != t || !isClients e.op else doneWith m t tr

/-- No slot is outdated while an operation that was told of it still goes on in its client. -/
def awaited : List ClientEvent → Bool
  | [] => true
  | e :: tr => (D.tells e.op e.res).all (fun m => doneWith m e.thread tr) && awaited tr

/-- No call outdates a slot that the cache of a client names. -/
def Spares (x : ReadWorld) (op : ClientCall) : Prop :=
  ∀ client, ∀ desc ∈ (x.client client).keyDescCache.descs, (D.mention client desc).outdatedBy op = false

def asksMeta : ClientCall → Bool
  | .metaBatchExist .. | .metaBatchLookup .. => true
  | _ => false

/-- The stores that are meant had the key in their index with this slot, and no call has outdated it since. -/
def Listed (m : Mention) (tr : List ClientEvent) : Prop :=
  ∃ tr₁ e tr₂, tr = tr₁ ++ e :: tr₂ ∧
    (∀ i, m.site i = true → ∃ rec, (e.before.store i).index.find m.key = some rec ∧ rec.offset = m.offset) ∧
    ∀ e' ∈ e :: tr₂, m.outdatedBy e'.op = false

def FileOf (x : ℕ × String) : Prop := ∀ i, D.dataFile x.2 = some i → (D.cfg i).storeId = x.1

def AddrOf (x : ℕ × String) : Prop := ∀ i, D.serving x.2 = some i → (D.cfg i).storeId = x.1

/-- Meta names slots that are still listed, and the files and addresses of the right stores. -/
structure Truthful (tr : List ClientEvent) : Prop where
  slots : ∀ tr₁ e tr₂, tr = tr₁ ++ e :: tr₂ → asksMeta e.op = true →
    ∀ m ∈ D.tells e.op e.res, Listed m (tr₁ ++ [e])
  files : ∀ e ∈ tr, asksMeta e.op = true → ∀ x ∈ tellsFiles e.op e.res, D.FileOf x
  addrs : ∀ e ∈ tr, asksMeta e.op = true → ∀ x ∈ tellsAddrs e.op e.res, D.AddrOf x

variable {D} {calls calls' : Calls} {client i storeId : ℕ} {desc : KeyDescriptor} {path addr : String}

theorem not_outdated_of_doneWith {m : Mention} {tr : List ClientEvent} {e : ClientEvent}
    (h : doneWith m e.thread (tr ++ [e]) = true) (he : isClients e.op = true) :
    ∀ e' ∈ tr, m.outdatedBy e'.op = false := by
  induction tr with
  | nil =>
    intro e' he'
    cases he'
  | cons e₁ tr ih =>
    rw [List.cons_append, doneWith] at h
    split at h
    · have hlast := List.all_eq_true.mp h e (List.mem_append_right _ (List.mem_singleton_self e))
      simp [he] at hlast
    · next hkeeps => exact List.forall_mem_cons.mpr ⟨Bool.eq_false_of_not_eq_true hkeeps,ih h⟩

theorem doneWith_left {m : Mention} {t : ℕ} {tr tr' : List ClientEvent}
    (h : doneWith m t (tr ++ tr') = true) : doneWith m t tr = true := by
  induction tr with
  | nil => rfl
  | cons e tr ih =>
    rw [List.cons_append, doneWith] at h
    rw [doneWith]
    split at h
    · next hout =>
      rw [if_pos hout]
      rw [List.all_append] at h
      exact (Bool.and_eq_true_iff.mp h).1
    · next hout =>
      rw [if_neg hout]
      exact ih h

theorem awaited_left {tr tr' : List ClientEvent} (h : D.awaited (tr ++ tr') = true) : D.awaited tr = true := by
  induction tr with
  | nil => rfl
  | cons e tr ih =>
    obtain ⟨hhead,htail⟩ := Bool.and_eq_true_iff.mp h
    refine Bool.and_eq_true_iff.mpr ⟨List.all_eq_true.mpr ?_,ih htail⟩
    intro m hm
    exact doneWith_left (List.all_eq_true.mp hhead m hm)

/-- What the thread of a client's call was told has not been outdated since. -/
theorem not_outdated_of_awaited {m : Mention} {tr₁ tr₂ : List ClientEvent} {e₁ e : ClientEvent}
    (h : D.awaited (tr₁ ++ e₁ :: tr₂ ++ [e]) = true) (he : isClients e.op = true)
    (hthread : e₁.thread = e.thread) (hm : m ∈ D.tells e₁.op e₁.res) :
    ∀ e' ∈ tr₂, m.outdatedBy e'.op = false := by
  induction tr₁ with
  | nil =>
    obtain ⟨hhead,-⟩ := Bool.and_eq_true_iff.mp h
    have hdone := List.all_eq_true.mp hhead m hm
    rw [hthread] at hdone
    exact not_outdated_of_doneWith hdone he
  | cons e' tr₁ ih => exact ih (Bool.and_eq_true_iff.mp h).2

theorem Truthful.left {tr tr' : List ClientEvent} (h : D.Truthful (tr ++ tr')) : D.Truthful tr where
  slots := by
    intro tr₁ e tr₂ htr
    subst htr
    exact h.slots tr₁ e (tr₂ ++ tr') (by simp)
  files := fun e he => h.files e (List.mem_append_left _ he)
  addrs := fun e he => h.addrs e (List.mem_append_left _ he)

theorem ToldFile.mono (h : ToldFile calls storeId path) (hsub : calls ⊆ calls') :
    ToldFile calls' storeId path := by
  obtain ⟨a,ha,htold⟩ := h
  exact ⟨a,hsub ha,htold⟩

theorem ToldAddr.mono (h : ToldAddr calls storeId addr) (hsub : calls ⊆ calls') :
    ToldAddr calls' storeId addr := by
  obtain ⟨a,ha,htold⟩ := h
  exact ⟨a,hsub ha,htold⟩

theorem Told.mono (h : D.Told calls client desc) (hsub : calls ⊆ calls') : D.Told calls' client desc := by
  obtain ⟨⟨a,ha,htold⟩,haddr⟩ := h
  exact ⟨⟨a,hsub ha,htold⟩,fun hne => (haddr hne).mono hsub⟩

theorem Directs.mono (h : D.Directs calls client desc i) (hsub : calls ⊆ calls') :
    D.Directs calls' client desc i := by
  unfold Directs at h ⊢
  split at h
  · exact h
  · obtain ⟨path,htold,hopened⟩ := h
    exact ⟨path,htold.mono hsub,hsub hopened⟩
  · obtain ⟨addr,htold,hreached⟩ := h
    exact ⟨addr,htold.mono hsub,hsub hreached⟩

end Deployment

namespace Mentions
open Deployment
variable {D : Deployment} {α β : Type} {calls calls' : Calls} {client i : ℕ} {desc : KeyDescriptor}
  {post : α → Calls → Prop}

/-- One call, which is remembered. -/
theorem kept_call {op : ClientCall} {k : op.Res → ClientProg α} (hneed : D.need op calls)
    (h : ∀ r, D.heeding.Kept post (k r) (calls ++ [⟨op,r⟩])) :
    D.heeding.Kept post (ClientOps.call op >>= k) calls := Ledger.kept_demand hneed h

theorem kept_ask {op : ClientCall} {post : op.Res → Calls → Prop} (hneed : D.need op calls)
    (h : ∀ r, post r (calls ++ [⟨op,r⟩])) : D.heeding.Kept post (ClientOps.call op) calls :=
  kept_call (k := pure) hneed h

/-- The last call of an operation. -/
theorem kept_last {op : ClientCall} (hneed : D.need op calls) :
    D.heeding.Kept (fun _ _ => True) (ClientOps.call op) calls := kept_ask hneed fun _ => trivial

theorem heeding_grows {op : ClientCall} {r : op.Res} (h : D.heeding.rule op r calls calls') : calls ⊆ calls' :=
  Ledger.demanding_grows h

/-- What a program leaves, and what comes after it. -/
theorem kept_then {p : ClientProg β} {f : β → ClientProg α} {mid : β → Calls → Prop}
    (hp : D.heeding.Kept mid p calls)
    (h : ∀ b calls', calls ⊆ calls' → mid b calls' → D.heeding.Kept post (f b) calls') :
    D.heeding.Kept post (p >>= f) calls :=
  Ledger.kept_bind (Ledger.kept_mono (Ledger.kept_growing heeding_grows hp) fun b calls' hb => h b calls' hb.1 hb.2)

/-- A loop whose rounds need what there is before it. -/
theorem kept_forEach {γ : Type} {f : γ → ClientProg Unit} {xs : List γ}
    (hf : ∀ x ∈ xs, ∀ calls', calls ⊆ calls' → D.heeding.Kept (fun _ _ => True) (f x) calls')
    (hsub : calls ⊆ calls') : D.heeding.Kept (fun _ _ => True) (Prog.forEach f xs) calls' := by
  induction xs generalizing calls' with
  | nil => trivial
  | cons x xs ih =>
    obtain ⟨hx,hxs⟩ := List.forall_mem_cons.mp hf
    apply kept_then (hx calls' hsub)
    intro _ calls'' hsub' _
    exact ih hxs (List.Subset.trans hsub hsub')

theorem kept_each {γ : Type} {f : γ → ClientProg β} {xs : List γ}
    (hf : ∀ x ∈ xs, ∀ calls', calls ⊆ calls' → D.heeding.Kept (fun _ _ => True) (f x) calls') :
    D.heeding.Kept (fun _ _ => True) (Prog.mapEach f xs) calls :=
  Ledger.kept_mono (Ledger.kept_mapEach_growing heeding_grows (fun _ _ _ _ h _ => h) hf (List.Subset.refl calls))
    fun _ _ _ => trivial

def siteCalls (i : ℕ) : Ledger storeCalls Calls :=
  Ledger.noting (fun _ _ => True) fun op r => [⟨.atStore i op,r⟩]

theorem kept_any (p : StoreProg α) (calls : Calls) : (siteCalls i).Kept (fun _ _ => True) p calls :=
  Ledger.kept_trivial (fun _ _ => trivial) p

theorem kept_atStore {q : α → Calls → Prop} {p : StoreProg α} (h : (siteCalls i).Kept q p calls) :
    D.heeding.Kept q (ClientOps.atStore i p) calls := by
  refine Ledger.kept_interp ?_ h
  intro op calls P hop r _
  obtain ⟨_,rfl,hP⟩ := hop r trivial
  exact ⟨_,⟨trivial,rfl⟩,hP⟩

def RecordedAt (i : ℕ) (calls : Calls) (key : Key) (r : StorePutResult) : Prop :=
  ∃ record data, (⟨.atStore i (.indexPut key record data),()⟩ : Answered clientCalls) ∈ calls ∧
    record.offset = r.offset

def Recorded (i : ℕ) (calls : Calls) (key : Key) (r : StorePutResult) : Prop :=
  r.status.isOk = true → 0 < r.allocSize → RecordedAt i calls key r

theorem RecordedAt.mono {key : Key} {r : StorePutResult} (h : RecordedAt i calls key r)
    (hsub : calls ⊆ calls') : RecordedAt i calls' key r := by
  obtain ⟨record,data,hmem,hoffset⟩ := h
  exact ⟨record,data,hsub hmem,hoffset⟩

theorem kept_commitOne (x : PutItem × StorePutResult) (calls : Calls) :
    (siteCalls i).Kept (fun _ calls => RecordedAt i calls x.1.key x.2) (StoreOps.commitOne x) calls := by
  apply Ledger.kept_note
  intro now _
  apply Ledger.kept_note
  intro _ _
  exact ⟨_,_,List.mem_append_right _ (List.mem_singleton_self _),rfl⟩

theorem toWrite_of_put {r : StorePutResult} (hok : r.status.isOk = true) (hsize : 0 < r.allocSize) :
    StoreOps.toWrite r = true := by
  have hne : (r.allocSize == 0) = false := beq_eq_false_iff_ne.mpr hsize.ne'
  rw [StoreOps.toWrite, hok, hne, Bool.and_false]
  rfl

theorem exists_getElem? {α β : Type} {R : α → β → Prop} {xs : List α} {ys : List β} (h : List.Forall₂ R xs ys)
    {j : ℕ} {y : β} (hy : ys[j]? = some y) : ∃ x, xs[j]? = some x ∧ R x y := by
  induction h generalizing j with
  | nil => cases hy
  | @cons x y' xs ys hxy hrest ih =>
    cases j with
    | zero =>
      cases hy
      exact ⟨x,rfl,hxy⟩
    | succ j => exact ih hy

theorem kept_writeAndCommit {cfg : StoreConfig} (pairs : List (PutItem × StorePutResult)) (calls : Calls) :
    (siteCalls i).Kept (fun results calls =>
        List.Forall₂ (fun x r => Recorded i calls x.1.key r) pairs results)
      (StoreOps.writeAndCommit cfg pairs) calls := by
  apply Ledger.kept_then
  intro s calls
  dsimp only
  cases hs : s.isOk with
  | false =>
    apply Ledger.kept_then
    intro _ calls
    apply List.forall₂_map_right_iff.mpr
    apply List.forall₂_same.mpr
    intro x _ hok hsize
    by_cases hx : StoreOps.toWrite x.2 = true
    · rw [if_pos hx] at hok
      cases hs.symm.trans hok
    · rw [if_neg hx] at hok hsize
      exact absurd (toWrite_of_put hok hsize) hx
  | true =>
    have hcommit : (siteCalls i).Kept (fun records calls => List.Forall₂ (fun x _ =>
          RecordedAt i calls x.1.key x.2) (pairs.filter fun x => StoreOps.toWrite x.2) records)
        (Prog.mapEach StoreOps.commitOne (pairs.filter fun x => StoreOps.toWrite x.2)) calls :=
      Ledger.kept_mapEach (fun x _ _ _ h hsub => h.mono hsub) (fun x _ calls => kept_commitOne x calls) calls
    apply Ledger.kept_bind
    apply Ledger.kept_mono hcommit
    intro records calls hrecords
    apply Ledger.kept_bind
    apply Ledger.kept_mono (Ledger.kept_grows (kept_any _ calls))
    rintro _ calls' ⟨hsub,-⟩
    apply List.forall₂_map_right_iff.mpr
    apply List.forall₂_same.mpr
    intro x hx hok hsize
    have hwrite : x ∈ pairs.filter fun x => StoreOps.toWrite x.2 :=
      List.mem_filter.mpr ⟨hx,toWrite_of_put hok hsize⟩
    obtain ⟨record,-,hrecorded⟩ := Ledger.exists_of_mem_right hrecords.flip hwrite
    exact RecordedAt.mono hrecorded hsub

theorem kept_batchPutItems {cfg : StoreConfig} (items : List PutItem) (calls : Calls) :
    (siteCalls i).Kept (fun results calls => ∀ (j : ℕ) r, results[j]? = some r →
        ∃ item, items[j]? = some item ∧ Recorded i calls item.key r)
      (StoreOps.batchPutItems cfg items) calls := by
  apply Ledger.kept_then
  intro present calls
  apply Ledger.kept_then
  intro results calls
  apply Ledger.kept_mono (kept_writeAndCommit (items.zip results) calls)
  intro answers calls hanswers j r hr
  obtain ⟨x,hx,hrecorded⟩ := exists_getElem? hanswers hr
  obtain ⟨hitem,-⟩ := List.getElem?_zip_eq_some.mp hx
  exact ⟨x.1,hitem,hrecorded⟩

theorem kept_storePut {cfg : StoreConfig} (keys : List Key) (dataPtrs : List (Option Bytes)) (sizes : List ℕ)
    (calls : Calls) : (siteCalls i).Kept (fun results calls => ∀ (j : ℕ) r, results[j]? = some r →
        ∃ key, keys[j]? = some key ∧ Recorded i calls key r)
      (StoreOps.batchPut cfg keys dataPtrs sizes) calls := by
  unfold StoreOps.batchPut
  split
  · intro j r hr
    rw [List.getElem?_map] at hr
    obtain ⟨key,hkey,rfl⟩ := Option.map_eq_some_iff.mp hr
    refine ⟨key,hkey,fun hok => ?_⟩
    cases hok
  · apply Ledger.kept_mono (kept_batchPutItems (StoreOps.putItems keys dataPtrs sizes) calls)
    intro results calls hresults j r hr
    obtain ⟨item,hitem,hrecorded⟩ := hresults j r hr
    rw [StoreOps.putItems, List.getElem?_map] at hitem
    obtain ⟨x,hx,rfl⟩ := Option.map_eq_some_iff.mp hitem
    obtain ⟨hkey,-⟩ := List.getElem?_zip_eq_some.mp hx
    exact ⟨x.1,hkey,hrecorded⟩

/-- The descriptors of a client's own store. -/
theorem mention_local (hlocal : D.localStore client = some i) (hdesc : desc.accessType = .localDirect) :
    D.mention client desc = ⟨fun j => i == j,desc.key,desc.offset⟩ := by
  have hmeans : D.means client desc = fun j => i == j := by
    funext j
    rw [means, if_pos hdesc, hlocal]
    rfl
  rw [mention, hmeans]

theorem told_putDesc {x : (Key × BufferInfo) × StorePutResult} {storeId : ℕ}
    (hlocal : D.localStore client = some i) (h : RecordedAt i calls x.1.1 x.2) :
    D.Told calls client (ClientOps.putDesc storeId x) := by
  obtain ⟨record,data,hmem,hoffset⟩ := h
  constructor
  · refine ⟨_,hmem,?_⟩
    rw [mention_local hlocal rfl]
    dsimp only [ClientOps.putDesc]
    rw [← hoffset]
    exact List.mem_singleton_self _
  · intro hne
    cases hne rfl

theorem kept_rememberPut {x : (Key × BufferInfo) × StorePutResult} (hlocal : D.localStore client = some i)
    (h : Recorded i calls x.1.1 x.2) :
    D.heeding.Kept (fun _ _ => True) (ClientOps.rememberPut D client i x) calls := by
  unfold ClientOps.rememberPut
  split
  · next hput =>
    obtain ⟨hok,hsize⟩ := Bool.and_eq_true_iff.mp hput
    exact kept_last (told_putDesc hlocal (h hok (of_decide_eq_true hsize)))
  · trivial

theorem kept_batchPut (keys : List Key) (buffers : List BufferInfo) (calls : Calls) :
    D.heeding.Kept (fun _ _ => True) (ClientOps.batchPut D client keys buffers) calls := by
  unfold ClientOps.batchPut
  split
  · trivial
  · split
    · trivial
    · next i hlocal =>
      apply kept_then (kept_atStore (kept_storePut keys _ _ calls))
      intro results calls _ hresults
      refine kept_then (kept_forEach ?_ (List.Subset.refl calls)) fun _ _ _ _ => trivial
      intro x hx calls' hsub
      obtain ⟨j,hj⟩ := List.mem_iff_getElem?.mp hx
      obtain ⟨hleft,hr⟩ := List.getElem?_zip_eq_some.mp hj
      obtain ⟨hkey,-⟩ := List.getElem?_zip_eq_some.mp hleft
      obtain ⟨key,hkey',hrecorded⟩ := hresults j x.2 hr
      obtain rfl := Option.some.inj (hkey.symm.trans hkey')
      apply kept_rememberPut hlocal
      intro hok hsize
      exact (hrecorded hok hsize).mono hsub

structure Learnt (D : Deployment) (calls : Calls) (client : ℕ) (rec : KeyRecord) : Prop where
  mention : ∃ a ∈ calls, D.remoteMention client rec ∈ D.tells a.op a.res
  file : rec.dataFile ≠ "" → ToldFile calls rec.storeId rec.dataFile
  addr : rec.storeAddr ≠ "" → ToldAddr calls rec.storeId rec.storeAddr

variable {rec : KeyRecord}

theorem Learnt.told (h : Learnt D calls client rec) : D.Told calls client ((D.client client).remoteDesc rec) :=
  ⟨h.mention,h.addr⟩

theorem Learnt.mono (h : Learnt D calls client rec) (hsub : calls ⊆ calls') : Learnt D calls' client rec := by
  obtain ⟨⟨a,ha,htold⟩,hfile,haddr⟩ := h
  exact ⟨⟨a,hsub ha,htold⟩,fun hne => (hfile hne).mono hsub,fun hne => (haddr hne).mono hsub⟩

/-- A record that Meta has answered with. -/
theorem learnt_of_found {op : ClientCall} {r : op.Res}
    (htells : D.tells op r = (found op r).map (D.remoteMention client))
    (hfiles : tellsFiles op r =
      ((found op r).filter fun rec => rec.dataFile != "").map fun rec => (rec.storeId,rec.dataFile))
    (haddrs : tellsAddrs op r =
      ((found op r).filter fun rec => rec.storeAddr != "").map fun rec => (rec.storeId,rec.storeAddr))
    (h : (⟨op,r⟩ : Answered clientCalls) ∈ calls) (hrec : rec ∈ found op r) : Learnt D calls client rec := by
  constructor
  · refine ⟨_,h,?_⟩
    rw [htells]
    exact List.mem_map_of_mem hrec
  · intro hne
    refine ⟨_,h,?_⟩
    rw [hfiles]
    exact List.mem_map.mpr ⟨rec,List.mem_filter.mpr ⟨hrec,bne_iff_ne.mpr hne⟩,rfl⟩
  · intro hne
    refine ⟨_,h,?_⟩
    rw [haddrs]
    exact List.mem_map.mpr ⟨rec,List.mem_filter.mpr ⟨hrec,bne_iff_ne.mpr hne⟩,rfl⟩

theorem kept_learn (h : Learnt D calls client rec) :
    D.heeding.Kept (fun _ _ => True) (ClientOps.learn D client rec) calls := by
  have hfile : D.heeding.Kept (fun _ _ => True) (ClientOps.learnFile D client rec) calls := by
    unfold ClientOps.learnFile
    split
    · next hcond => exact kept_last (h.file hcond.2)
    · trivial
  apply kept_then hfile
  intro _ calls₁ hsub₁ _
  have haddr : D.heeding.Kept (fun _ _ => True) (ClientOps.learnAddr client rec) calls₁ := by
    unfold ClientOps.learnAddr
    split
    · next hne => exact kept_last ((h.addr hne).mono hsub₁)
    · trivial
  apply kept_then haddr
  intro _ calls₂ hsub₂ _
  exact kept_last (h.told.mono (List.Subset.trans hsub₁ hsub₂))

theorem kept_localHits (keys : List Key) (calls : Calls) :
    D.heeding.Kept (fun x calls => ∀ desc ∈ x.1, D.Told calls client desc)
      (ClientOps.localHits D client keys) calls := by
  unfold ClientOps.localHits
  split
  · intro desc hdesc
    cases hdesc
  · next i hlocal =>
    have hone : (siteCalls i).Kept (fun r calls =>
        (⟨.atStore i (.indexBatchContains keys),r⟩ : Answered clientCalls) ∈ calls)
        (StoreOps.batchContains keys) calls := by
      apply Ledger.kept_note (k := pure)
      intro r _
      exact List.mem_append_right _ (List.mem_singleton_self _)
    apply kept_then (kept_atStore hone)
    rintro ⟨hits,misses⟩ calls _ hcall desc hdesc
    obtain ⟨rec,hrec,rfl⟩ := List.mem_map.mp hdesc
    constructor
    · refine ⟨_,hcall,?_⟩
      rw [mention_local hlocal rfl]
      exact List.mem_map_of_mem hrec
    · intro hne
      cases hne rfl

/-- Meta is asked, and what it answers is remembered. -/
theorem kept_unlessEmpty {ask : ClientProg (List KeyRecord)} {missing : List Key}
    {Q : List KeyRecord → Calls → Prop} (hnone : ∀ calls, Q [] calls)
    (h : D.heeding.Kept Q ask calls) : D.heeding.Kept Q (ClientOps.unlessEmpty missing ask) calls := by
  unfold ClientOps.unlessEmpty
  split
  · exact hnone calls
  · exact h

theorem kept_batchExist (keys : List Key) (calls : Calls) :
    D.heeding.Kept (fun _ _ => True) (ClientOps.batchExist D client keys) calls := by
  unfold ClientOps.batchExist
  split
  · trivial
  apply kept_then (kept_localHits keys calls)
  rintro ⟨hits,missing⟩ calls₁ _ hhits
  refine kept_then (kept_forEach ?_ (List.Subset.refl calls₁)) ?_
  · intro desc hdesc calls' hsub
    exact kept_last ((hhits desc hdesc).mono hsub)
  intro _ calls₂ _ _
  have hask : D.heeding.Kept (fun records calls => ∀ rec ∈ records.filter FalconKVClientImpl.isHit,
      Learnt D calls client rec) (ClientOps.call (.metaBatchExist client missing)) calls₂ := by
    refine kept_ask trivial ?_
    intro records rec hrec
    exact learnt_of_found rfl rfl rfl (List.mem_append_right _ (List.mem_singleton_self _)) hrec
  apply kept_then (kept_unlessEmpty (fun _ rec hrec => by cases hrec) hask)
  intro records calls₃ _ hlearnt
  refine kept_then (kept_forEach ?_ (List.Subset.refl calls₃)) fun _ _ _ _ => trivial
  intro rec hrec calls' hsub
  exact kept_learn ((hlearnt rec hrec).mono hsub)

def Reached (D : Deployment) (client i : ℕ) (calls : Calls) (fetches : List Fetch) : Prop :=
  ∀ f ∈ fetches, D.Told calls client f.desc ∧ D.Directs calls client f.desc i

def ReadsOne (items : List ReadItem) : StoreCall → Prop
  | .pread offset _ reader | .uringRead offset _ reader =>
    ∃ item ∈ items, item.offset = offset ∧ item.reader = reader
  | _ => False

theorem makes_batchRead (cfg : StoreConfig) (items : List ReadItem) :
    Prog.Makes (E := storeCalls) (ReadsOne items) (StoreOps.batchRead cfg items) := by
  refine (Prog.makes_mapEach_of_mem ?_).bind fun _ => trivial
  intro item hitem
  unfold StoreOps.readItem
  split
  · exact Prog.makes_call_bind ⟨item,hitem,rfl,rfl⟩ fun _ => trivial
  · unfold StoreOps.read
    split
    · trivial
    · apply Prog.makes_call_bind ⟨item,hitem,rfl,rfl⟩
      rintro ⟨r,bytes⟩
      dsimp only
      split
      · trivial
      · split <;> trivial

theorem needs_read {fetches : List Fetch} {item : Fetch → ReadItem}
    (hitem : ∀ f, (item f).offset = f.desc.offset ∧ (item f).reader = f.desc.key)
    (h : Reached D client i calls fetches) {op : StoreCall} (hop : ReadsOne (fetches.map item) op) :
    D.need (.forClient i op) calls := by
  have htraced : ∀ {offset : ℕ} {reader : Key},
      (∃ x ∈ fetches.map item, x.offset = offset ∧ x.reader = reader) → D.Traced calls i reader offset := by
    rintro _ _ ⟨_,hx,rfl,rfl⟩
    obtain ⟨f,hf,rfl⟩ := List.mem_map.mp hx
    obtain ⟨htold,hleads⟩ := h f hf
    exact ⟨client,f.desc,htold,(hitem f).2.symm,(hitem f).1.symm,hleads⟩
  cases op with
  | pread offset size reader => exact htraced hop
  | uringRead offset size reader => exact htraced hop
  | _ => cases hop

theorem Reached.mono {fetches : List Fetch} (h : Reached D client i calls fetches) (hsub : calls ⊆ calls') :
    Reached D client i calls' fetches := by
  intro f hf
  obtain ⟨htold,hleads⟩ := h f hf
  exact ⟨htold.mono hsub,hleads.mono hsub⟩

/-- A batch of slots of one store. -/
theorem kept_forClient_batchRead {fetches : List Fetch} {item : Fetch → ReadItem} {cfg : StoreConfig}
    (hitem : ∀ f, (item f).offset = f.desc.offset ∧ (item f).reader = f.desc.key)
    (h : Reached D client i calls fetches) :
    D.heeding.Kept (fun _ calls' => calls ⊆ calls')
      (ClientOps.forClient i (StoreOps.batchRead cfg (fetches.map item))) calls := by
  apply Ledger.kept_of_needs ?_ (List.Subset.refl calls)
  apply Prog.makes_interp ?_ (makes_batchRead cfg (fetches.map item))
  intro op hop
  apply Prog.makes_perform
  intro calls' hsub
  exact needs_read hitem (h.mono hsub) hop

theorem kept_localReads {fetches : List Fetch} (htold : ∀ f ∈ fetches, D.Told calls client f.desc)
    (hlocal : ∀ f ∈ fetches, f.desc.accessType = .localDirect) :
    D.heeding.Kept (fun _ _ => True) (ClientOps.localReads D client fetches) calls := by
  unfold ClientOps.localReads
  split
  · trivial
  · next i hstore =>
    have hreached : Reached D client i calls fetches := by
      intro f hf
      refine ⟨htold f hf,?_⟩
      rw [Directs, hlocal f hf]
      exact hstore
    exact kept_then (kept_forClient_batchRead (fun _ => ⟨rfl,rfl⟩) hreached) fun _ _ _ _ => trivial

/-- The file that was opened is the one that the thread was told for the store id. -/
theorem kept_storeFile (f : Fetch) (calls : Calls) :
    D.heeding.Kept (fun file calls => ∀ i, file = some i → ∃ path, ToldFile calls f.desc.storeId path ∧
      (⟨.openFile path,some i⟩ : Answered clientCalls) ∈ calls) (ClientOps.storeFile client f) calls := by
  refine kept_call trivial ?_
  intro path
  cases path with
  | none =>
    intro i hi
    cases hi
  | some path =>
    refine kept_ask trivial ?_
    rintro file i rfl
    refine ⟨path,⟨⟨.getStoreFilePath client f.desc.storeId,some path⟩,?_,?_⟩,?_⟩
    · exact List.mem_append_left _ (List.mem_append_right _ (List.mem_singleton_self _))
    · exact List.mem_singleton_self _
    · exact List.mem_append_right _ (List.mem_singleton_self _)

theorem kept_readFile {f : Fetch} (htold : D.Told calls client f.desc) (hleads : D.Directs calls client f.desc i) :
    D.heeding.Kept (fun _ _ => True) (ClientOps.readFile D client i f) calls := by
  have htraced : D.Traced calls i f.desc.key f.desc.offset := ⟨client,f.desc,htold,rfl,rfl,hleads⟩
  unfold ClientOps.readFile
  split
  · exact kept_call htraced fun _ => trivial
  · refine kept_call htraced ?_
    rintro ⟨r,bytes⟩
    dsimp only
    split
    · trivial
    · split <;> trivial

theorem kept_readNode {fetches : List Fetch} (htold : ∀ f ∈ fetches, D.Told calls client f.desc)
    (hnode : ∀ f ∈ fetches, f.desc.accessType = .nodeDirect) :
    D.heeding.Kept (fun _ _ => True) (ClientOps.readNode D client fetches) calls := by
  have hfiles : D.heeding.Kept (fun files calls => List.Forall₂ (fun f file => ∀ i, file = some i →
      ∃ path, ToldFile calls f.desc.storeId path ∧ (⟨.openFile path,some i⟩ : Answered clientCalls) ∈ calls)
      fetches files) (Prog.mapEach (ClientOps.storeFile client) fetches) calls := by
    apply Ledger.kept_mapEach_growing heeding_grows ?_ ?_ (List.Subset.refl calls)
    · intro f file calls calls' h hsub i hi
      obtain ⟨path,htold,hopened⟩ := h i hi
      exact ⟨path,htold.mono hsub,hsub hopened⟩
    · intro f _ calls' _
      exact kept_storeFile f calls'
  apply kept_then hfiles
  intro files calls₁ hsub₁ hopened
  have hone : ∀ x ∈ fetches.zip files, ∀ calls', calls₁ ⊆ calls' →
      D.heeding.Kept (fun _ _ => True) (ClientOps.readOpened D client x) calls' := by
    rintro ⟨f,file⟩ hx calls' hsub
    cases file with
    | none => trivial
    | some i =>
      have hf := (List.of_mem_zip hx).1
      obtain ⟨path,hpath,hmem⟩ := List.forall₂_zip hopened hx i rfl
      have hleads : D.Directs calls' client f.desc i := by
        rw [Directs, hnode f hf]
        exact ⟨path,hpath.mono hsub,hsub hmem⟩
      exact kept_then (kept_readFile ((htold f hf).mono (List.Subset.trans hsub₁ hsub)) hleads)
        fun _ _ _ _ => trivial
  exact kept_each hone

/-- The address is one that the thread was told for the store id. -/
theorem kept_remoteAddr (htold : D.Told calls client desc) :
    D.heeding.Kept (fun addr calls => addr ≠ "" → ToldAddr calls desc.storeId addr)
      (ClientOps.remoteAddr client desc) calls := by
  unfold ClientOps.remoteAddr
  split
  · next hne => exact htold.addr
  · refine kept_call trivial ?_
    intro addr hne
    cases addr with
    | none => cases hne rfl
    | some addr =>
      refine ⟨⟨.getStoreAddr client desc.storeId,some addr⟩,?_,List.mem_singleton_self _⟩
      exact List.mem_append_right _ (List.mem_singleton_self _)

theorem kept_readRpc {fetches : List Fetch} {addr : String} {storeId : ℕ}
    (htold : ∀ f ∈ fetches, D.Told calls client f.desc)
    (hremote : ∀ f ∈ fetches, f.desc.accessType = .remoteRpc ∧ f.desc.storeId = storeId)
    (haddr : ToldAddr calls storeId addr) :
    D.heeding.Kept (fun _ _ => True) (ClientOps.readRpc D addr fetches) calls := by
  refine kept_call trivial ?_
  intro site
  cases site with
  | none => trivial
  | some i =>
    have hsub := List.subset_append_left calls [(⟨.request addr,some i⟩ : Answered clientCalls)]
    have hreached : Reached D client i (calls ++ [⟨.request addr,some i⟩]) fetches := by
      intro f hf
      obtain ⟨htype,hid⟩ := hremote f hf
      refine ⟨(htold f hf).mono hsub,?_⟩
      rw [Directs, htype, hid]
      exact ⟨addr,haddr.mono hsub,List.mem_append_right _ (List.mem_singleton_self _)⟩
    apply kept_then (kept_forClient_batchRead (fun _ => ⟨rfl,rfl⟩) hreached)
    rintro ⟨status,buffers⟩ calls' _ _
    refine kept_call trivial ?_
    intro arrives
    split <;> trivial

theorem kept_readRemote {fetches : List Fetch} (htold : ∀ f ∈ fetches, D.Told calls client f.desc)
    (hremote : ∀ f ∈ fetches, f.desc.accessType = .remoteRpc) (storeId : ℕ) :
    D.heeding.Kept (fun _ _ => True) (ClientOps.readRemote D client fetches storeId) calls := by
  unfold ClientOps.readRemote
  split
  · trivial
  · next first rest hgroup =>
    have hmem : ∀ f ∈ first :: rest, f ∈ fetches ∧ f.desc.storeId = storeId := by
      intro f hf
      rw [← hgroup] at hf
      obtain ⟨hf,hid⟩ := List.mem_filter.mp hf
      exact ⟨hf,beq_iff_eq.mp hid⟩
    obtain ⟨hfirst,hid⟩ := hmem first List.mem_cons_self
    apply kept_then (kept_remoteAddr (htold first hfirst))
    intro addr calls' hsub haddr
    split
    · trivial
    · next hne =>
      have htoldAddr := haddr hne
      rw [hid] at htoldAddr
      have htoldAll : ∀ f ∈ first :: rest, D.Told calls' client f.desc :=
        fun f hf => (htold f (hmem f hf).1).mono hsub
      exact kept_readRpc htoldAll (fun f hf => ⟨hremote f (hmem f hf).1,(hmem f hf).2⟩) htoldAddr

theorem kept_batchGet {items : List (KeyDescriptor × BufferInfo)}
    (h : ∀ item ∈ items, D.Told calls client item.1) :
    D.heeding.Kept (fun _ _ => True) (ClientOps.batchGet D client items) calls := by
  have hfetch : ∀ type, ∀ f ∈ ClientOps.fetchesOf items type,
      D.Told calls client f.desc ∧ f.desc.accessType = type := by
    intro type f hf
    obtain ⟨hf,htype⟩ := List.mem_filter.mp hf
    obtain ⟨x,hx,rfl⟩ := List.mem_map.mp hf
    exact ⟨h x.1 (List.fst_mem_of_mem_zipIdx hx),beq_iff_eq.mp htype⟩
  apply kept_then (kept_localReads (fun f hf => (hfetch _ f hf).1) fun f hf => (hfetch _ f hf).2)
  intro _ calls₁ hsub₁ _
  apply kept_then (kept_readNode (fun f hf => (hfetch _ f hf).1.mono hsub₁) fun f hf => (hfetch _ f hf).2)
  intro _ calls₂ hsub₂ _
  have hsub := List.Subset.trans hsub₁ hsub₂
  refine kept_then (kept_each ?_) fun _ _ _ _ => trivial
  intro storeId _ calls' hsub'
  exact kept_readRemote (fun f hf => (hfetch _ f hf).1.mono (List.Subset.trans hsub hsub'))
    (fun f hf => (hfetch _ f hf).2) storeId

theorem kept_batchGetSync (keys : List Key) (buffers : List BufferInfo) (calls : Calls) :
    D.heeding.Kept (fun _ _ => True) (ClientOps.batchGetSync D client keys buffers) calls := by
  unfold ClientOps.batchGetSync
  split
  · trivial
  refine kept_call trivial ?_
  rintro ⟨hits,missing⟩
  have hhits : ∀ desc ∈ hits,
      D.Told (calls ++ [⟨.cacheLookup client keys,(hits,missing)⟩]) client desc := by
    intro desc hdesc
    have hmem := List.mem_append_right calls
      (List.mem_singleton_self (⟨.cacheLookup client keys,(hits,missing)⟩ : Answered clientCalls))
    constructor
    · exact ⟨_,hmem,List.mem_map_of_mem hdesc⟩
    · intro hne
      exact ⟨_,hmem,List.mem_map.mpr ⟨desc,List.mem_filter.mpr ⟨hdesc,bne_iff_ne.mpr hne⟩,rfl⟩⟩
  dsimp only
  have hask : D.heeding.Kept (fun records calls => ∀ rec ∈ records.filter fun rec => rec.key != "",
      Learnt D calls client rec) (ClientOps.call (.metaBatchLookup client missing))
      (calls ++ [⟨.cacheLookup client keys,(hits,missing)⟩]) := by
    refine kept_ask trivial ?_
    intro records rec hrec
    exact learnt_of_found rfl rfl rfl (List.mem_append_right _ (List.mem_singleton_self _)) hrec
  apply kept_then (kept_unlessEmpty (fun _ rec hrec => by cases hrec) hask)
  intro records calls₁ hsub₁ hlearnt
  refine kept_then (kept_forEach ?_ (List.Subset.refl calls₁)) ?_
  · intro rec hrec calls' hsub
    exact kept_learn ((hlearnt rec hrec).mono hsub)
  intro _ calls₂ hsub₂ _
  refine kept_then (kept_batchGet ?_) fun _ _ _ _ => trivial
  intro item hitem
  obtain ⟨valid,hvalid,rfl⟩ := List.mem_map.mp hitem
  obtain ⟨x,-,hx⟩ := List.mem_filterMap.mp hvalid
  obtain ⟨desc,hdesc,rfl⟩ := Option.map_eq_some_iff.mp hx
  rw [ClientOps.lookup_foldl_emplace, AList.lookup_empty, Option.none_or] at hdesc
  rcases List.mem_append.mp (List.mem_of_find?_eq_some hdesc) with hcached | hfound
  · exact (hhits desc hcached).mono (List.Subset.trans hsub₁ hsub₂)
  · obtain ⟨rec,hrec,rfl⟩ := List.mem_map.mp hfound
    exact ((hlearnt rec hrec).mono hsub₂).told

/-- Every operation reads, remembers and passes on only what it was told. -/
theorem kept_run (op : ClientOp) : D.heeding.Kept (fun _ _ => True) (op.run D) [] := by
  cases op with
  | store i op =>
    apply kept_then (kept_atStore (kept_any _ []))
    exact fun _ _ _ _ => trivial
  | batchPut client keys buffers => exact kept_then (kept_batchPut keys buffers []) fun _ _ _ _ => trivial
  | batchExist client keys => exact kept_then (kept_batchExist keys []) fun _ _ _ _ => trivial
  | batchGetSync client keys buffers =>
    exact kept_then (kept_batchGetSync keys buffers []) fun _ _ _ _ => trivial

end Mentions

end FalconKV
