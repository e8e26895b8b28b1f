import FalconKV.AtomicCalls.Environment
import FalconKV.Client.Reads
import FalconKV.Store.ReadFraming
import FalconKV.Store.Space

/-! # Reading one slot

A client reads one slot in the way that its descriptor says: by its key from its own store, from
the data file of another store of its node, or over RPC. While nothing is written, whether a read
succeeds depends on the place that is read only.
-/
namespace FalconKV
open AtomicCalls

namespace ClientOps
variable (D : Deployment) (client : ℕ)

def readFromFile (f : Fetch) : ClientProg (Status × Option Bytes) := do
  let file ← storeFile client f
  match file with
  | none =>
    pure (.ioError ("NodeLocalAccessor: no file for store_id " ++ toString f.desc.storeId),f.buffer.dataPtr)
  | some i => do
    let (r,bytes) ← call (.forClient i (.pread f.desc.offset f.buffer.size f.desc.key))
    if r.count < 0 then
      pure (.ioError ("NodeLocalAccessor: pread failed for store_id " ++ toString f.desc.storeId),some bytes)
    else if r.count < f.buffer.size then
      pure (.ioError ("NodeLocalAccessor: partial read for store_id " ++ toString f.desc.storeId),some bytes)
    else pure (.OK,some bytes)

def remoteBatchRead (addr : String) (fetches : List Fetch) : ClientProg (Status × List (Option Bytes)) := do
  let site ← call (.request addr)
  match site with
  | none => pure (.rpcError "Store BatchRead RPC failed: ",fetches.map fun f => f.buffer.dataPtr)
  | some i => do
    let (status,buffers) ← forClient i (StoreOps.batchRead (D.cfg i) (fetches.map Fetch.remoteItem))
    let arrives ← call .response
    if !arrives then pure (.rpcError "Store BatchRead RPC failed: ",fetches.map fun f => f.buffer.dataPtr)
    else if !status.isOk then
      pure (.ioError ("Store BatchRead failed with status: " ++ toString status.code.toNat),
        fetches.map fun f => f.buffer.dataPtr)
    else pure (.OK,buffers)

/-- What `BatchGet` makes of its answer. -/
def received (fetches : List Fetch) (r : Status × List (Option Bytes)) : List (ℕ × Fetched) :=
  if r.1.isOk then (fetches.zip r.2).map fun x => x.1.done (decide (0 < int32 x.1.buffer.size)) x.2
  else fetches.map Fetch.failed

theorem readRpc_eq (addr : String) (fetches : List Fetch) :
    readRpc D addr fetches = (remoteBatchRead D addr fetches >>= fun r => pure (received fetches r)) := by
  unfold readRpc remoteBatchRead
  rw [Prog.bind_bind]
  congr 1
  funext site
  cases site with
  | none => rfl
  | some i =>
    simp only [Prog.bind_bind]
    congr 1
    funext r
    congr 1
    funext arrives
    cases arrives with
    | false => rfl
    | true =>
      cases hok : r.1.isOk with
      | false => rfl
      | true => rfl

def doRead (desc : KeyDescriptor) (buffer : BufferInfo) : ClientProg (Status × Option Bytes) :=
  match desc.accessType with
  | .localDirect =>
    match D.localStore client with
    | none => pure (.ioError "local store not set for ACCESS_LOCAL_DIRECT",buffer.dataPtr)
    | some i => do
      let (result,bytes) ← forClient i (StoreOps.get desc.key buffer.dataPtr buffer.size)
      pure (result.status,bytes)
  | .nodeDirect => readFromFile client ⟨desc,buffer,0⟩
  | .remoteRpc => do
    let storeAddr ← remoteAddr client desc
    if storeAddr = "" then
      pure (.rpcError ("no RPC client for store " ++ toString desc.storeId),buffer.dataPtr)
    else do
      let (status,buffers) ← remoteBatchRead D storeAddr [⟨desc,buffer,0⟩]
      if !status.isOk then pure (status,buffers.headD buffer.dataPtr)
      else if int32 buffer.size ≤ 0 then
        pure (.ioError "remote read returned no data",buffers.headD buffer.dataPtr)
      else pure (.OK,buffers.headD buffer.dataPtr)

end ClientOps

/-- Which reads are completed, at a place of a data file, which files can be opened, and at which
addresses calls get an answer. -/
structure Conditions where
  reads : ℕ → ℕ → ℕ → Bool
  opens : String → Bool
  reaches : String → Bool

def Conditions.allows (w : Conditions) : ClientCall → ClientChoice → Bool
  | .forClient i op, c => readsAs (w.reads i) op c.store
  | .openFile path, c => c.succeeds == w.opens path
  | .request addr, c => c.succeeds == w.reaches addr
  | .response, c => c.succeeds
  | _, _ => true

/-- The clients and stores while these conditions last. -/
abbrev steadyMachine (D : Deployment) (w : Conditions) : Machine clientCalls ReadWorld :=
  (clientMachine D).under w.allows

namespace StoreOps
variable {cfg : StoreConfig} {reads : ℕ → ℕ → Bool} {s : Store}

/-- `Get` reads what the record of the key names. -/
theorem wp_get_steady {key : Key} {record : StoreKeyRecord} (hfind : s.index.find key = some record)
    (hstat : record.stat = 1) {buffer : Option Bytes} (hbuffer : buffer.isSome = true) (hsize : 0 < record.size) :
    wp (steadyStore reads) (fun _ _ => True)
      (fun r _ => r.1.status.isOk = reads record.offset record.size ∧
        (r.1.status.isOk = true → Fills s.file ⟨record.offset,buffer,record.size,key⟩ r.2))
      (get key buffer record.size) s := by
  apply wp_perform_under trivial (fun _ => rfl)
  intro c _
  rw [StoreMetaIndex.get_of_some hfind hstat]
  dsimp only
  rw [if_neg (Nat.lt_irrefl _)]
  apply wp_bind.mpr
  apply wp_mono (wp_and (wp_under (wp_read_fills ⟨record.offset,buffer,record.size,key⟩))
    (@wp_read_isOk reads _ ⟨record.offset,buffer,record.size,key⟩ hbuffer hsize))
  rintro ⟨status,bytes⟩ s₂ ⟨⟨-,hfills⟩,hok⟩
  dsimp only at hfills hok ⊢
  rw [← hok]
  cases hstatus : status.isOk with
  | false => exact ⟨hstatus,fun h => by cases hstatus.symm.trans h⟩
  | true => exact ⟨rfl,fun _ => hfills hstatus⟩

/-- The record that `Get` reads into a buffer of this size. -/
def recordFor (s : Store) (key : Key) (bufferSize : ℕ) : Option StoreKeyRecord :=
  (s.index.find key).filter fun record =>
    decide (record.stat = 1) && decide (0 < record.size) && decide (record.size ≤ bufferSize)

theorem mem_recordFor {key : Key} {bufferSize : ℕ} {record : StoreKeyRecord}
    (h : recordFor s key bufferSize = some record) : s.index.find key = some record ∧ record.stat = 1 ∧
      0 < record.size ∧ record.size ≤ bufferSize := by
  obtain ⟨hfind,hrest⟩ := Option.filter_eq_some_iff.mp h
  simp only [Bool.and_eq_true, decide_eq_true_eq] at hrest
  exact ⟨hfind,hrest.1.1,hrest.1.2,hrest.2⟩

/-- `Get` reads the record of the key or fails. -/
theorem wp_get_recordFor {key : Key} {buffer : Option Bytes} {bufferSize : ℕ} (hbuffer : buffer.isSome = true) :
    wp (steadyStore reads) (fun _ _ => True)
      (fun r _ => r.1.status.isOk =
          (recordFor s key bufferSize).any (fun record => reads record.offset record.size) ∧
        (r.1.status.isOk = true → ∃ record, recordFor s key bufferSize = some record ∧
          Fills s.file ⟨record.offset,buffer,record.size,key⟩ r.2))
      (get key buffer bufferSize) s := by
  apply wp_perform_under trivial (fun _ => rfl)
  intro c _
  cases hfind : s.index.find key with
  | none =>
    have hnone : recordFor s key bufferSize = none := by simp [recordFor, hfind]
    rw [StoreMetaIndex.get_of_none hfind, hnone]
    exact ⟨rfl,fun h => by cases h⟩
  | some record =>
    by_cases hstat : record.stat = 1
    · rw [StoreMetaIndex.get_of_some hfind hstat]
      dsimp only
      split
      · next hlarge =>
        have hnone : recordFor s key bufferSize = none := by
          simp only [recordFor, hfind, Option.filter_some]
          rw [if_neg (by simp; omega)]
        rw [hnone]
        exact ⟨rfl,fun h => by cases h⟩
      · next hfits =>
        by_cases hsize : 0 < record.size
        · have hsome : recordFor s key bufferSize = some record := by
            simp [recordFor, hfind, hstat, hsize, not_lt.mp hfits]
          rw [hsome, Option.any_some]
          apply wp_bind.mpr
          apply wp_mono (wp_and (wp_under (wp_read_fills ⟨record.offset,buffer,record.size,key⟩))
            (@wp_read_isOk reads _ ⟨record.offset,buffer,record.size,key⟩ hbuffer hsize))
          rintro ⟨status,bytes⟩ s₂ ⟨⟨-,hfills⟩,hok⟩
          dsimp only at hfills hok ⊢
          rw [← hok]
          cases hstatus : status.isOk with
          | false => exact ⟨hstatus,fun h => by cases hstatus.symm.trans h⟩
          | true => exact ⟨rfl,fun _ => ⟨record,rfl,hfills hstatus⟩⟩
        · -- an empty record is not read
          have hnone : recordFor s key bufferSize = none := by simp [recordFor, hfind, hsize]
          have hempty : (buffer.isNone || record.size == 0) = true := by
            rw [Nat.eq_zero_of_not_pos hsize, beq_self_eq_true, Bool.or_true]
          rw [hnone, read, if_pos hempty]
          exact ⟨rfl,fun h => by cases h⟩
    · have hnone : recordFor s key bufferSize = none := by simp [recordFor, hfind, hstat]
      have hget : s.index.get key c.now = (none,s.index) := by simp [StoreMetaIndex.get, hfind, hstat]
      rw [hget, hnone]
      exact ⟨rfl,fun h => by cases h⟩

/-- A read that is completed; the buffer behind it may get anything. -/
theorem exec_read {offset size : ℕ} {buffer : Option Bytes} {reader : Key} (hbuffer : buffer.isSome = true)
    (hsize : 0 < size) (hreads : reads offset size = true) (garbage : Bytes) :
    Exec (steadyStore reads) (fun _ _ => True) (read offset buffer size reader) s
      (.OK,some (readInto s.file offset size garbage)) s := by
  have hvalid : ¬ (buffer.isNone || size == 0) = true := by
    obtain ⟨b,rfl⟩ := Option.isSome_iff_exists.mp hbuffer
    simp [hsize.ne']
  have hstep : (steadyStore reads).step (.pread offset size reader) { transfer := .full, garbage } s =
      some ((⟨size,""⟩,readInto s.file offset size garbage),s) := if_pos (beq_iff_eq.mpr hreads.symm)
  have hneg : ¬ (size : ℤ) < 0 := by omega
  unfold read
  rw [if_neg hvalid]
  apply Exec.perform trivial hstep
  dsimp only
  rw [if_neg hneg, if_neg (lt_irrefl _)]
  exact .ret _ _

theorem exists_exec_get_garbage {key : Key} {buffer : Option Bytes} {bufferSize : ℕ} {record : StoreKeyRecord}
    (hrecord : recordFor s key bufferSize = some record) (hbuffer : buffer.isSome = true)
    (hreads : reads record.offset record.size = true) (garbage : Bytes) :
    ∃ s', Exec (steadyStore reads) (fun _ _ => True) (get key buffer bufferSize) s
      (⟨.OK,record.size⟩,some (readInto s.file record.offset record.size garbage)) s' := by
  obtain ⟨hfind,hstat,hsize,hfits⟩ := mem_recordFor hrecord
  have hstep : (steadyStore reads).step (.indexGet key) {} s =
      some (some { record with accessTimeMs := 0 },{ s with index := s.index.touchRecord key record 0 }) := by
    have hget : s.index.get key 0 = _ := StoreMetaIndex.get_of_some hfind hstat
    exact congrArg (fun x => some (x.1,{ s with index := x.2 })) hget
  refine ⟨{ s with index := s.index.touchRecord key record 0 },.perform trivial hstep ?_⟩
  dsimp only
  rw [if_neg (not_lt.mpr hfits)]
  exact (exec_read hbuffer hsize hreads garbage).then (.ret _ _)
end StoreOps

structure ReadWorld.Same (x y : ReadWorld) : Prop where
  store : y.store = x.store
  client : y.client = x.client

theorem ReadWorld.Same.refl (x : ReadWorld) : x.Same x := ⟨rfl,rfl⟩

theorem ReadWorld.Same.trans {x y z : ReadWorld} (h : x.Same y) (h' : y.Same z) : x.Same z :=
  ⟨h'.store.trans h.store,h'.client.trans h.client⟩

namespace Conditions
variable (w : Conditions) (D : Deployment) (x : ReadWorld) (client : ℕ)

def addrOf (desc : KeyDescriptor) : String :=
  if desc.storeAddr ≠ "" then desc.storeAddr
  else ((x.client client).storeAddrMap.lookup desc.storeId).getD ""

def fileOf (desc : KeyDescriptor) : Option ℕ :=
  ((x.client client).storeFiles.lookup desc.storeId).bind fun path =>
    if w.opens path then D.dataFile path else none

def serverAt (addr : String) : Option ℕ := if w.reaches addr then D.serving addr else none

def siteOf (desc : KeyDescriptor) : Option ℕ :=
  match desc.accessType with
  | .localDirect => D.localStore client
  | .nodeDirect => w.fileOf D x client desc
  | .remoteRpc => if addrOf x client desc = "" then none else w.serverAt D (addrOf x client desc)

def readable (desc : KeyDescriptor) (size : ℕ) : Bool :=
  (w.siteOf D x client desc).any fun i => w.reads i desc.offset size

def bytesAt (desc : KeyDescriptor) (size : ℕ) : Option (List UInt8) :=
  (w.siteOf D x client desc).map fun i => bytesOf (fun k => (x.store i).file (desc.offset + k)) size

structure Reads (desc : KeyDescriptor) (size : ℕ) (ok : Bool) (buffer : Option Bytes) : Prop where
  isOk : ok = w.readable D x client desc size
  bytes : ok = true → ∃ b, buffer = some b ∧ w.bytesAt D x client desc size = some (bytesOf b size)

end Conditions

namespace ClientOps
open Conditions
variable {D : Deployment} {w : Conditions} {x y : ReadWorld} {client i : ℕ}

section
variable {desc : KeyDescriptor}

theorem siteOf_local (h : desc.accessType = .localDirect) : w.siteOf D x client desc = D.localStore client := by
  rw [siteOf, h]

theorem siteOf_node (h : desc.accessType = .nodeDirect) :
    w.siteOf D x client desc = w.fileOf D x client desc := by
  rw [siteOf, h]

theorem siteOf_remote (h : desc.accessType = .remoteRpc) : w.siteOf D x client desc =
    if addrOf x client desc = "" then none else w.serverAt D (addrOf x client desc) := by
  rw [siteOf, h]

end

theorem forClient_step {op : StoreCall} {c : ClientChoice} {r : op.Res}
    (hstep : (steadyMachine D w).step (.forClient i op) c x = some (r,y)) :
    ∃ s, (steadyStore (w.reads i)).step op c.store (x.store i) = some (r,s) ∧ y = x.setStore i op s := by
  obtain ⟨hallow,hstep⟩ := Machine.under_step hstep
  obtain ⟨⟨r',s⟩,hs,he⟩ := Option.map_eq_some_iff.mp hstep
  obtain ⟨rfl,rfl⟩ := Prod.mk.inj he
  refine ⟨s,?_,rfl⟩
  rw [← hs]
  exact if_pos hallow

/-- A program of a store, run for a client. -/
theorem wp_forClient {α : Type} {p : StoreProg α} {post : α → Store → Prop}
    (h : wp (steadyStore (w.reads i)) (fun _ _ => True) post p (x.store i)) :
    wp (steadyMachine D w) (fun _ _ => True)
      (fun a y => post a (y.store i) ∧ (∀ j, j ≠ i → y.store j = x.store j) ∧ y.client = x.client)
      (forClient i p) x := by
  induction p generalizing x with
  | ret a => exact ⟨h,fun _ _ => rfl,rfl⟩
  | call op k ih =>
    refine ⟨trivial,fun c r y hstep => ?_⟩
    obtain ⟨s,hs,rfl⟩ := forClient_step hstep
    have hset : (x.setStore i op s).store i = s := by
      simp only [ReadWorld.setStore, Function.update_self]
    have hnext := h.2 c.store r s hs
    rw [← hset] at hnext
    apply wp_mono (ih r hnext)
    rintro a z ⟨hpost,hothers,hclient⟩
    refine ⟨hpost,fun j hj => ?_,hclient⟩
    rw [hothers j hj]
    exact Function.update_of_ne hj _ _

theorem exists_exec_forClient {α : Type} {p : StoreProg α} {s s' : Store} {a : α}
    (he : Exec (steadyStore (w.reads i)) (fun _ _ => True) p s a s') (hs : x.store i = s) :
    ∃ y, Exec (steadyMachine D w) (fun _ _ => True) (forClient i p) x a y := by
  induction he generalizing x with
  | ret a s => exact ⟨x,.ret a x⟩
  | @call op k c r s s₁ s' a _ hstep _ ih =>
    have hset : (x.setStore i op s₁).store i = s₁ := by
      simp only [ReadWorld.setStore, Function.update_self]
    obtain ⟨y,he⟩ := ih hset
    obtain ⟨hallow,hs₁⟩ := Machine.under_step hstep
    subst hs
    have hclient : (steadyMachine D w).step (.forClient i op) { store := c } x = some (r,x.setStore i op s₁) := by
      apply (if_pos hallow).trans
      exact congrArg (Option.map fun y => (y.1,x.setStore i op y.2)) hs₁
    exact ⟨y,.perform trivial hclient he⟩

/-- A program that only reads. -/
theorem wp_forClient_same {α : Type} {p : StoreProg α} {Q : α → Prop} (hsame : x.Same y)
    (h : wp (steadyStore (w.reads i)) (fun _ _ => True) (fun a s' => s' = x.store i ∧ Q a) p (x.store i)) :
    wp (steadyMachine D w) (fun _ _ => True) (fun a z => x.Same z ∧ Q a) (forClient i p) y := by
  rw [← hsame.store] at h
  apply wp_mono (wp_forClient h)
  rintro a z ⟨⟨hstore,hQ⟩,hothers,hclient⟩
  refine ⟨hsame.trans ⟨?_,hclient⟩,hQ⟩
  funext j
  by_cases hj : j = i
  · rw [hj, hstore]
  · exact hothers j hj

theorem same_setStore {op : StoreCall} {s : Store} (hsame : x.Same y) (hs : s = y.store i) :
    x.Same (y.setStore i op s) := by
  refine hsame.trans ⟨?_,rfl⟩
  rw [hs]
  exact Function.update_eq_self i y.store

/-- One `pread` for a client. -/
theorem wp_pread_steady {α : Type} {post : α → ReadWorld → Prop} {f : Fetch}
    {k : Transferred × Bytes → ClientProg α} (hsame : x.Same y)
    (h : ∀ (r : Transferred × Bytes) z, x.Same z → (r.1.count < f.buffer.size ↔ w.reads i f.desc.offset f.buffer.size = false) →
      (w.reads i f.desc.offset f.buffer.size = true → Fills (x.store i).file f.item (some r.2)) →
        wp (steadyMachine D w) (fun _ _ => True) post (k r) z) :
    wp (steadyMachine D w) (fun _ _ => True) post
      (call (.forClient i (.pread f.desc.offset f.buffer.size f.desc.key)) >>= k) y := by
  apply wp_perform trivial
  intro c r z hstep
  obtain ⟨s,hstore,rfl⟩ := forClient_step hstep
  obtain ⟨hset,hshort,hbytes⟩ := StoreOps.pread_steady hstore
  apply h _ _ (same_setStore hsame hset) hshort
  intro hreads
  rw [← hsame.store]
  exact ⟨_,rfl,hbytes hreads⟩

theorem wp_uringRead_steady {α : Type} {post : α → ReadWorld → Prop} {f : Fetch}
    {k : Status × Bytes → ClientProg α} (hsame : x.Same y)
    (h : ∀ (r : Status × Bytes) z, x.Same z → r.1.isOk = w.reads i f.desc.offset f.buffer.size →
      (r.1.isOk = true → Fills (x.store i).file f.item (some r.2)) →
        wp (steadyMachine D w) (fun _ _ => True) post (k r) z) :
    wp (steadyMachine D w) (fun _ _ => True) post
      (call (.forClient i (.uringRead f.desc.offset f.buffer.size f.desc.key)) >>= k) y := by
  apply wp_perform trivial
  intro c r z hstep
  obtain ⟨s,hstore,rfl⟩ := forClient_step hstep
  obtain ⟨hset,hok,hbytes⟩ := StoreOps.uringRead_steady hstore
  apply h _ _ (same_setStore hsame hset) hok
  intro hreads
  rw [← hsame.store]
  exact ⟨_,rfl,hbytes hreads⟩

theorem wp_storeFile (hsame : x.Same y) (f : Fetch) :
    wp (steadyMachine D w) (fun _ _ => True) (fun file z => x.Same z ∧ file = w.fileOf D x client f.desc)
      (storeFile client f) y := by
  apply wp_perform_under trivial (fun _ => rfl)
  intro c _
  rw [hsame.client, fileOf]
  cases hpath : (x.client client).storeFiles.lookup f.desc.storeId with
  | none => exact ⟨hsame,rfl⟩
  | some path =>
    apply wp_perform_under trivial (fun _ => rfl)
    intro c hallow
    rw [eq_of_beq hallow]
    exact ⟨hsame,rfl⟩

theorem wp_remoteAddr (hsame : x.Same y) (desc : KeyDescriptor) :
    wp (steadyMachine D w) (fun _ _ => True) (fun addr z => x.Same z ∧ addr = addrOf x client desc)
      (remoteAddr client desc) y := by
  unfold remoteAddr addrOf
  split
  · exact ⟨hsame,rfl⟩
  · apply wp_perform_under trivial (fun _ => rfl)
    intro c _
    rw [hsame.client]
    exact ⟨hsame,rfl⟩

/-- A remote batch is answered if the address is reached and every slot can be read there. -/
theorem wp_remoteBatchRead (hsame : x.Same y) (addr : String) {fetches : List Fetch}
    (hsizes : ∀ f ∈ fetches, 0 < f.buffer.size) :
    wp (steadyMachine D w) (fun _ _ => True)
      (fun r z => x.Same z ∧
        r.1.isOk = ((w.serverAt D addr).any fun i =>
          fetches.all fun f => w.reads i f.desc.offset f.buffer.size) ∧
        r.2.length = fetches.length ∧
        (r.1.isOk = true → ∃ i, w.serverAt D addr = some i ∧
          List.Forall₂ (fun f buffer => Fills (x.store i).file f.item buffer) fetches r.2))
      (remoteBatchRead D addr fetches) y := by
  apply wp_perform_under trivial (fun _ => rfl)
  intro c hallow
  have hserver : (if c.succeeds then D.serving addr else none) = w.serverAt D addr := by
    rw [eq_of_beq hallow]
    rfl
  rw [hserver]
  cases hsite : w.serverAt D addr with
  | none => exact ⟨hsame,rfl,List.length_map _,fun h => by cases h⟩
  | some i =>
    have hitems : ∀ item ∈ fetches.map Fetch.remoteItem, item.buffer.isSome = true ∧ 0 < item.size := by
      intro item hitem
      obtain ⟨f,hf,rfl⟩ := List.mem_map.mp hitem
      exact ⟨rfl,hsizes f hf⟩
    apply wp_bind.mpr
    apply wp_mono (wp_forClient_same hsame (wp_mono (StoreOps.wp_batchRead_steady hitems)
      fun r s h => ⟨h.1.1,And.intro h.1.2 h.2⟩))
    rintro ⟨status,buffers⟩ z ⟨hsame,hfills,hok,hlength⟩
    apply wp_perform_under trivial (fun _ => rfl)
    intro c hallow
    have harrives : c.succeeds = true := hallow
    rw [harrives]
    rw [List.all_map] at hok
    rw [List.length_map] at hlength
    cases hstatus : status.isOk with
    | false =>
      rw [hstatus] at hok
      exact ⟨hsame,hok,List.length_map _,fun h => by cases h⟩
    | true =>
      rw [hstatus] at hok
      exact ⟨hsame,hok,hlength,fun _ => ⟨i,rfl,(List.forall₂_map_left_iff (f := Fetch.remoteItem)).mp (hfills hstatus)⟩⟩

/-- A slot of the client's own store is read by its place, as in a batch; any other by `DoRead`. -/
def readSlot (D : Deployment) (client : ℕ) (desc : KeyDescriptor) (buffer : BufferInfo) :
    ClientProg (Status × Option Bytes) :=
  match desc.accessType with
  | .localDirect =>
    match D.localStore client with
    | none => pure (.ioError "local store not set for ACCESS_LOCAL_DIRECT",buffer.dataPtr)
    | some i => forClient i (StoreOps.readItem (D.cfg i) (Fetch.item ⟨desc,buffer,0⟩))
  | _ => doRead D client desc buffer

variable {desc : KeyDescriptor} {buffer : BufferInfo}

/-- A read at the place of the descriptor. -/
theorem reads_of_fills {ok : Bool} {bytes : Option Bytes} (hsite : w.siteOf D x client desc = some i)
    (hok : ok = w.reads i desc.offset buffer.size)
    (hfills : ok = true → Fills (x.store i).file (Fetch.item ⟨desc,buffer,0⟩) bytes) :
    w.Reads D x client desc buffer.size ok bytes := by
  constructor
  · rw [readable, hsite, Option.any_some]
    exact hok
  · intro htrue
    obtain ⟨b,hb,hbytes⟩ := hfills htrue
    refine ⟨b,hb,?_⟩
    rw [bytesAt, hsite, Option.map_some]
    exact congrArg some hbytes.symm

theorem reads_of_none {bytes : Option Bytes} (hsite : w.siteOf D x client desc = none) :
    w.Reads D x client desc buffer.size false bytes := by
  constructor
  · rw [readable, hsite, Option.any_none]
  · intro h
    cases h

theorem wp_readFromFile (hnode : desc.accessType = .nodeDirect) :
    wp (steadyMachine D w) (fun _ _ => True)
      (fun r _ => w.Reads D x client desc buffer.size r.1.isOk r.2)
      (readFromFile client ⟨desc,buffer,0⟩) x := by
  have hsite : w.siteOf D x client desc = w.fileOf D x client desc := siteOf_node hnode
  apply wp_bind.mpr
  apply wp_mono (wp_storeFile (.refl x) ⟨desc,buffer,0⟩)
  rintro file y ⟨hsame,rfl⟩
  dsimp only
  cases hfile : w.fileOf D x client desc with
  | none => exact reads_of_none (hsite.trans hfile)
  | some i =>
    apply wp_pread_steady (f := ⟨desc,buffer,0⟩) hsame
    rintro ⟨r,bytes⟩ z - hshort hfills
    dsimp only at hshort hfills ⊢
    have hfailed : r.count < buffer.size → ∀ {bytes},
        w.Reads D x client desc buffer.size false bytes := fun hless =>
      reads_of_fills (hsite.trans hfile) (hshort.mp hless).symm (fun h => by cases h)
    split
    · next hneg => exact hfailed (by omega)
    split
    · next hless => exact hfailed hless
    · next hge =>
      have hreads : w.reads i desc.offset buffer.size = true := by
        rw [← Bool.not_eq_false]
        exact mt hshort.mpr hge
      exact reads_of_fills (hsite.trans hfile) hreads.symm fun _ => hfills hreads

/-- `DoRead` of a slot of another store. -/
theorem wp_doRead (hother : desc.accessType ≠ .localDirect) (hsize : 0 < buffer.size)
    (hlarge : buffer.size < 2^31) :
    wp (steadyMachine D w) (fun _ _ => True)
      (fun r _ => w.Reads D x client desc buffer.size r.1.isOk r.2) (doRead D client desc buffer) x := by
  unfold doRead
  cases htype : desc.accessType with
  | localDirect => exact absurd htype hother
  | nodeDirect => exact wp_readFromFile htype
  | remoteRpc =>
    have hsite : w.siteOf D x client desc =
        if addrOf x client desc = "" then none else w.serverAt D (addrOf x client desc) := siteOf_remote htype
    apply wp_bind.mpr
    apply wp_mono (wp_remoteAddr (.refl x) desc)
    rintro addr y ⟨hsame,rfl⟩
    dsimp only
    split
    · next hempty =>
      rw [if_pos hempty] at hsite
      exact reads_of_none hsite
    · next haddr =>
      rw [if_neg haddr] at hsite
      apply wp_bind.mpr
      have hsizes : ∀ f ∈ [(⟨desc,buffer,0⟩ : Fetch)], 0 < f.buffer.size := by simpa using hsize
      apply wp_mono (wp_remoteBatchRead hsame _ hsizes)
      rintro ⟨status,buffers⟩ z ⟨-,hok,-,hfills⟩
      have hpos : ¬ int32 buffer.size ≤ 0 := by
        rw [int32_of_lt hlarge]
        omega
      have hreads : w.Reads D x client desc buffer.size status.isOk (buffers.headD buffer.dataPtr) := by
        cases hserver : w.serverAt D (addrOf x client desc) with
        | none =>
          rw [hserver] at hok hsite
          dsimp only at hok
          rw [hok]
          exact reads_of_none hsite
        | some i =>
          rw [hserver] at hok hsite
          refine reads_of_fills hsite (by simpa using hok) fun htrue => ?_
          obtain ⟨i',hi',hall⟩ := hfills htrue
          obtain rfl : i = i' := Option.some.inj (hserver.symm.trans hi')
          obtain ⟨b,_,hb,-,rfl⟩ := List.forall₂_cons_left_iff.mp hall
          exact hb
      dsimp only
      cases hstatus : status.isOk with
      | false =>
        rw [hstatus] at hreads
        simpa [hstatus] using hreads
      | true =>
        rw [hstatus] at hreads
        simp only [Bool.not_true, Bool.false_eq_true, if_false, if_neg hpos]
        exact hreads

theorem wp_readSlot (hbuffer : buffer.dataPtr.isSome = true) (hsize : 0 < buffer.size)
    (hlarge : buffer.size < 2^31) :
    wp (steadyMachine D w) (fun _ _ => True)
      (fun r _ => w.Reads D x client desc buffer.size r.1.isOk r.2) (readSlot D client desc buffer) x := by
  unfold readSlot
  cases htype : desc.accessType with
  | localDirect =>
    have hsite : w.siteOf D x client desc = D.localStore client := siteOf_local htype
    dsimp only
    cases hlocal : D.localStore client with
    | none => exact reads_of_none (hsite.trans hlocal)
    | some i =>
      have hread := @StoreOps.wp_readItem_steady (D.cfg i) (w.reads i) (x.store i)
        (Fetch.item ⟨desc,buffer,0⟩) hbuffer hsize
      apply wp_mono (wp_forClient_same (.refl x) (wp_mono hread fun r s h => ⟨h.1.1,And.intro h.2 h.1.2⟩))
      rintro r y ⟨-,hok,hfills⟩
      exact reads_of_fills (hsite.trans hlocal) hok hfills
  | nodeDirect | remoteRpc =>
    have hother : desc.accessType ≠ .localDirect := by
      rw [htype]
      decide
    exact wp_doRead hother hsize hlarge

/-- The descriptor of a slot of the client's own store names the record of its key, and the buffer has
its size. -/
def NamesRecord (D : Deployment) (x : ReadWorld) (client : ℕ) (desc : KeyDescriptor) (buffer : BufferInfo) :
    Prop :=
  desc.accessType = .localDirect → ∀ i, D.localStore client = some i →
    ∃ record, (x.store i).index.find desc.key = some record ∧ record.stat = 1 ∧
      record.offset = desc.offset ∧ record.size = buffer.size

/-- Then `DoRead` reads the slot. -/
theorem wp_doRead_of_namesRecord (hrecord : NamesRecord D x client desc buffer)
    (hbuffer : buffer.dataPtr.isSome = true) (hsize : 0 < buffer.size) (hlarge : buffer.size < 2^31) :
    wp (steadyMachine D w) (fun _ _ => True)
      (fun r _ => w.Reads D x client desc buffer.size r.1.isOk r.2) (doRead D client desc buffer) x := by
  by_cases hlocal : desc.accessType = .localDirect
  · have hsite : w.siteOf D x client desc = D.localStore client := siteOf_local hlocal
    unfold doRead
    rw [hlocal]
    dsimp only
    cases hstore : D.localStore client with
    | none => exact reads_of_none (hsite.trans hstore)
    | some i =>
      obtain ⟨record,hfind,hstat,hoffset,hlength⟩ := hrecord hlocal i hstore
      rw [← hlength] at hsize
      have hget := @StoreOps.wp_get_steady (w.reads i) (x.store i) desc.key record hfind hstat
        buffer.dataPtr hbuffer hsize
      rw [hlength, hoffset] at hget
      apply wp_bind.mpr
      apply wp_mono (wp_forClient hget)
      rintro ⟨result,bytes⟩ y ⟨⟨hok,hfills⟩,-⟩
      exact reads_of_fills (hsite.trans hstore) hok hfills
  · exact wp_doRead hlocal hsize hlarge

/-- A part of the data file of a store. -/
structure SlotPlace where
  site : ℕ
  offset : ℕ
  size : ℕ

namespace SlotPlace

def completes (w : Conditions) (p : SlotPlace) : Bool := w.reads p.site p.offset p.size

def contents (x : ReadWorld) (p : SlotPlace) : List UInt8 :=
  bytesOf (fun k => (x.store p.site).file (p.offset + k)) p.size

end SlotPlace

/-- Where `DoRead` reads: the record of the key in the client's own store, and in any other store what
the descriptor says. -/
def doReadPlace (D : Deployment) (w : Conditions) (x : ReadWorld) (client : ℕ) (desc : KeyDescriptor)
    (buffer : BufferInfo) : Option SlotPlace :=
  match desc.accessType with
  | .localDirect => (D.localStore client).bind fun i =>
    (StoreOps.recordFor (x.store i) desc.key buffer.size).map fun record => ⟨i,record.offset,record.size⟩
  | _ => (w.siteOf D x client desc).map fun i => ⟨i,desc.offset,buffer.size⟩

/-- A read of a place that has succeeded or not, and the buffer that it leaves. -/
structure ReadsPlace (w : Conditions) (x : ReadWorld) (place : Option SlotPlace) (ok : Bool)
    (buffer : Option Bytes) : Prop where
  isOk : ok = place.any fun p => p.completes w
  fills : ok = true → ∃ p b, place = some p ∧ buffer = some b ∧ bytesOf b p.size = p.contents x

theorem doReadPlace_local (hlocal : desc.accessType = .localDirect) (hstore : D.localStore client = some i) :
    doReadPlace D w x client desc buffer = (StoreOps.recordFor (x.store i) desc.key buffer.size).map
      fun record => ⟨i,record.offset,record.size⟩ := by
  simp only [doReadPlace, hlocal, hstore, Option.bind_some]

theorem doReadPlace_other (hother : desc.accessType ≠ .localDirect) : doReadPlace D w x client desc buffer =
    (w.siteOf D x client desc).map fun i => ⟨i,desc.offset,buffer.size⟩ := by
  unfold doReadPlace
  split
  · next hlocal => exact absurd hlocal hother
  · rfl

theorem wp_doRead_place (hbuffer : buffer.dataPtr.isSome = true) (hsize : 0 < buffer.size)
    (hlarge : buffer.size < 2^31) :
    wp (steadyMachine D w) (fun _ _ => True)
      (fun r _ => ReadsPlace w x (doReadPlace D w x client desc buffer) r.1.isOk r.2)
      (doRead D client desc buffer) x := by
  by_cases hlocal : desc.accessType = .localDirect
  · unfold doRead
    rw [hlocal]
    dsimp only
    cases hstore : D.localStore client with
    | none =>
      have hnone : doReadPlace D w x client desc buffer = none := by simp [doReadPlace, hlocal, hstore]
      rw [hnone]
      exact ⟨rfl,fun h => by cases h⟩
    | some i =>
      rw [doReadPlace_local hlocal hstore]
      apply wp_bind.mpr
      apply wp_mono (wp_forClient (StoreOps.wp_get_recordFor hbuffer))
      rintro ⟨result,bytes⟩ y ⟨⟨hok,hfills⟩,-⟩
      refine ⟨?_,fun htrue => ?_⟩
      · rw [Option.any_map]
        exact hok
      · obtain ⟨record,hrecord,b,hb,hbytes⟩ := hfills htrue
        exact ⟨_,b,by rw [hrecord, Option.map_some],hb,hbytes⟩
  · rw [doReadPlace_other hlocal]
    apply wp_mono (wp_doRead hlocal hsize hlarge)
    rintro ⟨status,bytes⟩ y ⟨hok,hbytes⟩
    refine ⟨?_,fun htrue => ?_⟩
    · rw [Option.any_map]
      exact hok
    · obtain ⟨b,hb,hat⟩ := hbytes htrue
      obtain ⟨i,hsite,hcontents⟩ := Option.map_eq_some_iff.mp hat
      exact ⟨_,b,by rw [hsite, Option.map_some],hb,hcontents.symm⟩

def OfRead : ClientCall → Prop
  | .forClient _ op => match op with
    | .pread .. | .uringRead .. | .indexGet _ => True
    | _ => False
  | .getStoreFilePath .. | .openFile _ | .getStoreAddr .. | .request _ | .response => True
  | _ => False

theorem exists_step {op : ClientCall} (c : ClientChoice)
    (h : ((steadyMachine D w).step op c x).isSome = true) :
    ∃ c r y, (steadyMachine D w).step op c x = some (r,y) := by
  obtain ⟨⟨r,y⟩,hy⟩ := Option.isSome_iff_exists.mp h
  exact ⟨c,r,y,hy⟩

def toComplete (reads : Bool) : ClientChoice := { store := { transfer := if reads then .full else .short (-1) "" } }

theorem total_ofRead (op : ClientCall) (hop : OfRead op) (x : ReadWorld) :
    ∃ c r y, (steadyMachine D w).step op c x = some (r,y) := by
  cases op with
  | forClient i op =>
    cases op with
    | pread offset size reader =>
      have hshort : (-1 : ℤ) < size := by omega
      apply exists_step (toComplete (w.reads i offset size))
      cases hreads : w.reads i offset size with
      | false => simp [steadyMachine, Machine.under, Conditions.allows, readsAs, toComplete, Transfer.isFull, hreads,
          clientMachine, ReadWorld.step, Store.step, Store.pread, hshort]
      | true => simp [steadyMachine, Machine.under, Conditions.allows, readsAs, toComplete, Transfer.isFull, hreads,
          clientMachine, ReadWorld.step, Store.step, Store.pread]
    | uringRead offset size reader =>
      apply exists_step (toComplete (w.reads i offset size))
      cases hreads : w.reads i offset size with
      | false => simp [steadyMachine, Machine.under, Conditions.allows, readsAs, toComplete, Transfer.isFull, hreads,
          clientMachine, ReadWorld.step, Store.step]
      | true => simp [steadyMachine, Machine.under, Conditions.allows, readsAs, toComplete, Transfer.isFull, hreads,
          clientMachine, ReadWorld.step, Store.step]
    | indexGet => exact ⟨{},_,_,rfl⟩
    | _ => cases hop
  | openFile path => exact ⟨{ succeeds := w.opens path },_,_,if_pos (beq_self_eq_true _)⟩
  | request addr => exact ⟨{ succeeds := w.reaches addr },_,_,if_pos (beq_self_eq_true _)⟩
  | getStoreFilePath | getStoreAddr | response => exact ⟨{},_,_,rfl⟩
  | _ => cases hop

theorem makes_forClient {α : Type} {p : StoreProg α} (hp : p.Makes fun op => OfRead (.forClient i op)) :
    (forClient i p).Makes OfRead := by
  apply Prog.makes_interp _ hp
  intro op hop
  exact Prog.makes_perform hop

theorem makes_read {offset size : ℕ} {bytes : Option Bytes} {reader : Key} :
    (StoreOps.read offset bytes size reader).Makes fun op => OfRead (.forClient i op) := by
  unfold StoreOps.read
  split
  · trivial
  · refine Prog.makes_call_bind trivial ?_
    rintro ⟨r,bytes⟩
    dsimp only
    split
    · trivial
    split
    · trivial
    · trivial

theorem makes_readItem {cfg : StoreConfig} (item : ReadItem) :
    (StoreOps.readItem cfg item).Makes fun op => OfRead (.forClient i op) := by
  unfold StoreOps.readItem
  split
  · exact Prog.makes_call_bind trivial fun _ => trivial
  · exact makes_read

theorem makes_get (key : Key) (bytes : Option Bytes) (size : ℕ) :
    (StoreOps.get key bytes size).Makes fun op => OfRead (.forClient i op) := by
  refine Prog.makes_call_bind trivial fun record => ?_
  cases record with
  | none => trivial
  | some record =>
    dsimp only
    split
    · trivial
    · refine makes_read.bind ?_
      rintro ⟨status,bytes⟩
      dsimp only
      split
      · trivial
      · trivial

theorem makes_batchRead {cfg : StoreConfig} (items : List ReadItem) :
    (StoreOps.batchRead cfg items).Makes fun op => OfRead (.forClient i op) :=
  (Prog.makes_mapEach makes_readItem items).bind fun _ => trivial

theorem makes_storeFile (f : Fetch) : (storeFile client f).Makes OfRead := by
  refine Prog.makes_call_bind trivial fun path => ?_
  cases path with
  | none => trivial
  | some path => exact Prog.makes_call_bind trivial fun _ => trivial

theorem makes_readFromFile (f : Fetch) : (readFromFile client f).Makes OfRead := by
  refine (makes_storeFile f).bind fun file => ?_
  cases file with
  | none => trivial
  | some i =>
    refine Prog.makes_call_bind trivial ?_
    rintro ⟨r,bytes⟩
    dsimp only
    split
    · trivial
    split
    · trivial
    · trivial

theorem makes_readFile (f : Fetch) : (readFile D client i f).Makes OfRead := by
  unfold readFile
  split
  · exact Prog.makes_call_bind trivial fun _ => trivial
  · refine Prog.makes_call_bind trivial ?_
    rintro ⟨r,bytes⟩
    dsimp only
    split
    · trivial
    split
    · trivial
    · trivial

theorem makes_remoteAddr (desc : KeyDescriptor) : (remoteAddr client desc).Makes OfRead := by
  unfold remoteAddr
  split
  · trivial
  · exact Prog.makes_call_bind trivial fun _ => trivial

theorem makes_remoteBatchRead (addr : String) (fetches : List Fetch) :
    (remoteBatchRead D addr fetches).Makes OfRead := by
  refine Prog.makes_call_bind trivial fun site => ?_
  cases site with
  | none => trivial
  | some i =>
    refine (makes_forClient (makes_batchRead _)).bind ?_
    rintro ⟨status,buffers⟩
    refine Prog.makes_call_bind trivial fun arrives => ?_
    split
    · trivial
    split
    · trivial
    · trivial

theorem makes_doRead (desc : KeyDescriptor) (buffer : BufferInfo) :
    (doRead D client desc buffer).Makes OfRead := by
  unfold doRead
  split
  · split
    · trivial
    · exact (makes_forClient (makes_get _ _ _)).bind fun _ => trivial
  · exact makes_readFromFile _
  · refine (makes_remoteAddr desc).bind fun addr => ?_
    split
    · trivial
    · refine (makes_remoteBatchRead addr _).bind ?_
      rintro ⟨status,buffers⟩
      dsimp only
      split
      · trivial
      split
      · trivial
      · trivial

theorem makes_readSlot (desc : KeyDescriptor) (buffer : BufferInfo) :
    (readSlot D client desc buffer).Makes OfRead := by
  unfold readSlot
  split
  · split
    · trivial
    · exact makes_forClient (makes_readItem _)
  · exact makes_doRead desc buffer

/-- A read that can succeed. -/
def Succeeds (D : Deployment) (w : Conditions) (x : ReadWorld) (p : ClientProg (Status × Option Bytes)) : Prop :=
  ∃ r y, Exec (steadyMachine D w) (fun _ _ => True) p x r y ∧ r.1.isOk = true

theorem succeeds_iff_isOk {p : ClientProg (Status × Option Bytes)} {ok : Bool} (hp : p.Makes OfRead)
    (h : wp (steadyMachine D w) (fun _ _ => True) (fun r _ => r.1.isOk = ok) p x) :
    Succeeds D w x p ↔ ok = true := by
  constructor
  · rintro ⟨r,y,he,hok⟩
    rw [← he.ends h]
    exact hok
  · intro hreadable
    obtain ⟨r,y,he⟩ := exists_exec hp total_ofRead x
    exact ⟨r,y,he,(he.ends h).trans hreadable⟩

theorem succeeds_iff {p : ClientProg (Status × Option Bytes)} {size : ℕ} (hp : p.Makes OfRead)
    (h : wp (steadyMachine D w) (fun _ _ => True) (fun r _ => w.Reads D x client desc size r.1.isOk r.2) p x) :
    Succeeds D w x p ↔ w.readable D x client desc size = true :=
  succeeds_iff_isOk hp (wp_mono h fun _ _ hread => hread.isOk)

/-- `DoRead` of a place that can be read, which may leave anything behind it in the buffer. -/
theorem exists_exec_doRead (hbuffer : buffer.dataPtr.isSome = true) (hsize : 0 < buffer.size)
    (hlarge : buffer.size < 2^31) {p : SlotPlace} (hplace : doReadPlace D w x client desc buffer = some p)
    (hreads : p.completes w = true) (garbage : Bytes) :
    ∃ r y b, Exec (steadyMachine D w) (fun _ _ => True) (doRead D client desc buffer) x r y ∧
      r.2 = some b ∧ bytesOf b p.size = p.contents x ∧ p.size ≤ buffer.size ∧
      ∀ k, p.size ≤ k → k < buffer.size → b k = garbage k := by
  by_cases hlocal : desc.accessType = .localDirect
  · cases hstore : D.localStore client with
    | none => simp [doReadPlace, hlocal, hstore] at hplace
    | some i =>
      rw [doReadPlace_local hlocal hstore] at hplace
      obtain ⟨record,hrecord,rfl⟩ := Option.map_eq_some_iff.mp hplace
      obtain ⟨s,hget⟩ := StoreOps.exists_exec_get_garbage hrecord hbuffer hreads garbage
      obtain ⟨y,he⟩ := exists_exec_forClient (D := D) (x := x) hget rfl
      have hdoRead : Exec (steadyMachine D w) (fun _ _ => True) (doRead D client desc buffer) x
          (.OK,some (readInto (x.store i).file record.offset record.size garbage)) y := by
        unfold doRead
        rw [hlocal, hstore]
        exact he.then (.ret _ _)
      refine ⟨_,y,_,hdoRead,rfl,bytesOf_readInto _ _ _ _,(StoreOps.mem_recordFor hrecord).2.2.2,?_⟩
      intro k hk _
      have hbehind : ¬ (k : ℤ) < record.size := by
        dsimp only at hk
        omega
      rw [readInto, if_neg hbehind]
  · have hmakes : (doRead D client desc buffer).Makes OfRead := makes_doRead desc buffer
    obtain ⟨r,y,he⟩ := exists_exec hmakes (total_ofRead (D := D) (w := w)) x
    have hread := he.ends (wp_doRead_place hbuffer hsize hlarge)
    have hok : r.1.isOk = true := by
      rw [hread.isOk, hplace]
      exact hreads
    obtain ⟨p',b,hp',hb,hbytes⟩ := hread.fills hok
    obtain rfl : p = p' := Option.some.inj (hplace.symm.trans hp')
    rw [doReadPlace_other hlocal] at hplace
    obtain ⟨i,-,rfl⟩ := Option.map_eq_some_iff.mp hplace
    refine ⟨r,y,b,he,hb,hbytes,le_refl _,?_⟩
    intro k hk hlt
    dsimp only at hk
    omega

end ClientOps

end FalconKV
