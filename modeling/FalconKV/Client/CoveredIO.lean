import Mathlib.Algebra.Order.BigOperators.Group.List
import Mathlib.Algebra.Order.Group.Nat
import FalconKV.Client.ScheduledIO

/-! # What a client's request to the scheduler covers

A request names a channel, a number of bytes and for an RPC the address of the other node. Every
transfer of the batch that it stands for is on this channel and has no more bytes; what a client
does outside its batches moves no bytes.
-/
namespace FalconKV
open AtomicCalls

/-- The call moves bytes for a client. -/
def ClientCall.transfers : ClientCall → Bool
  | .atStore _ (.pwrite ..) | .atStore _ (.uringWrite ..) => true
  | .forClient _ (.pread ..) | .forClient _ (.uringRead ..) => true
  | .request _ => true
  | _ => false

def IORequestData.Covers (request : IORequestData) : ClientCall → Prop
  | .atStore _ (.pwrite _ _ size) | .atStore _ (.uringWrite _ _ size) =>
    request.ioChannel = 1 ∧ size ≤ request.ioSize
  | .forClient _ (.pread _ size _) | .forClient _ (.uringRead _ size _) =>
    (request.ioChannel = 0 ∨ request.ioChannel = 2) ∧ size ≤ request.ioSize
  | .request addr => request.ioChannel = 2 ∧ request.remoteNodeAddr = addr
  | _ => True

def ClientCall.Still (op : ClientCall) : Prop := op.transfers = false

def IORequestData.Allows (request : IORequestData) (op : ClientCall) : Prop :=
  op.transfers = true → request.Covers op

/-- Some accumulator tracks the channel of a request that covers a transfer. -/
theorem IORequestData.Covers.tracked {request : IORequestData} {op : ClientCall} (h : request.Covers op)
    (htransfer : op.transfers = true) : ∃ A : Accumulator, A.tracks request.ioChannel = true := by
  have hchannel : request.ioChannel = 0 ∨ request.ioChannel = 1 ∨ request.ioChannel = 2 := by
    cases op with
    | atStore i op =>
      cases op with
      | pwrite | uringWrite => exact .inr (.inl h.1)
      | _ => cases htransfer
    | forClient i op =>
      cases op with
      | pread | uringRead => exact h.1.imp_right .inr
      | _ => cases htransfer
    | request addr => exact .inr (.inr h.1)
    | _ => cases htransfer
  rcases hchannel with h | h | h
  · exact ⟨.ssd,by rw [h]; rfl⟩
  · exact ⟨.ssd,by rw [h]; rfl⟩
  · exact ⟨.net,by rw [h]; rfl⟩

namespace ScheduledOps

variable {α : Type} {D : Deployment} {client i : ℕ} {request : IORequestData}

variable {fetches : List Fetch} {buffers : List BufferInfo} {keys : List Key}

theorem size_le_totalSize (hsum : (buffers.map BufferInfo.size).sum < 2^64) {buffer : BufferInfo}
    (hmem : buffer ∈ buffers) : buffer.size ≤ totalSize buffers := by
  rw [totalSize, Nat.mod_eq_of_lt hsum]
  exact List.le_sum_of_mem (List.mem_map_of_mem hmem)

def bytesIn (items : List (KeyDescriptor × BufferInfo)) : ℕ := (items.map fun x => x.2.size).sum

theorem sum_fetchesOf_le (items : List (KeyDescriptor × BufferInfo)) (type : AccessType) :
    (((ClientOps.fetchesOf items type).map Fetch.buffer).map BufferInfo.size).sum ≤ bytesIn items := by
  have hall : ((items.zipIdx.map fun x => (⟨x.1.1,x.1.2,x.2⟩ : Fetch)).map Fetch.buffer).map
      BufferInfo.size = items.map fun x => x.2.size := by
    rw [List.map_map,List.map_map]
    conv_rhs => rw [← List.zipIdx_map_fst 0 items, List.map_map]
    rfl
  rw [bytesIn, ← hall]
  exact List.Sublist.sum_le_sum ((List.filter_sublist.map _).map _) fun _ _ => Nat.zero_le _

/-- The bytes that are asked for cover each slot. -/
theorem size_le_ioSize (hsum : ((fetches.map Fetch.buffer).map BufferInfo.size).sum < 2^64) :
    ∀ f ∈ fetches, f.buffer.size ≤ totalSize (fetches.map Fetch.buffer) :=
  fun _ hf => size_le_totalSize hsum (List.mem_map_of_mem hf)

/-- Only a part of the buffers is read into. -/
theorem bytesIn_validReads_le (hitMap : AList fun _ : Key => KeyDescriptor)
    (hlength : keys.length = buffers.length) :
    bytesIn ((ClientOps.validReads hitMap keys buffers).map Prod.fst) ≤ (buffers.map BufferInfo.size).sum := by
  have hsub : ∀ xs : List ((Key × BufferInfo) × ℕ), ((xs.filterMap fun x =>
      (hitMap.lookup x.1.1).map fun desc => ((desc,x.1.2),x.2)).map fun x => x.1.2.size).Sublist
        (xs.map fun x => x.1.2.size) := by
    intro xs
    induction xs with
    | nil => exact .slnil
    | cons x xs ih =>
      rw [List.filterMap_cons]
      cases hitMap.lookup x.1.1 with
      | none => exact ih.cons _
      | some desc => exact ih.cons_cons _
  have hall : ((keys.zip buffers).zipIdx.map fun x => x.1.2.size) = buffers.map BufferInfo.size := by
    have hfst := List.zipIdx_map_fst 0 (keys.zip buffers)
    have hsnd : (keys.zip buffers).map Prod.snd = buffers := List.map_snd_zip hlength.ge
    calc ((keys.zip buffers).zipIdx.map fun x => x.1.2.size)
        = (((keys.zip buffers).zipIdx.map Prod.fst).map Prod.snd).map BufferInfo.size := by
          rw [List.map_map,List.map_map]
          rfl
      _ = buffers.map BufferInfo.size := by rw [hfst, hsnd]
  rw [bytesIn,List.map_map, ← hall]
  exact List.Sublist.sum_le_sum (hsub _) fun _ _ => Nat.zero_le _

theorem allows_forClient {p : StoreProg α} (hp : p.Makes fun op => request.Allows (.forClient i op)) :
    (ClientOps.forClient i p).Makes request.Allows := by
  apply Prog.makes_interp _ hp
  intro op hop
  exact Prog.makes_perform hop

/-- Reads of slots that a request for reads covers. -/
theorem allows_read {offset size : ℕ} {buffer : Option Bytes} {reader : Key}
    (hchannel : request.ioChannel = 0 ∨ request.ioChannel = 2) (hsize : size ≤ request.ioSize) :
    (StoreOps.read offset buffer size reader).Makes fun op => request.Allows (.forClient i op) := by
  unfold StoreOps.read
  split
  · trivial
  · refine Prog.makes_call_bind (fun _ => ⟨hchannel,hsize⟩) ?_
    rintro ⟨r,bytes⟩
    dsimp only
    split
    · trivial
    split
    · trivial
    · trivial

theorem allows_batchRead {cfg : StoreConfig} {items : List ReadItem}
    (hchannel : request.ioChannel = 0 ∨ request.ioChannel = 2)
    (hsize : ∀ item ∈ items, item.size ≤ request.ioSize) :
    (ClientOps.forClient i (StoreOps.batchRead cfg items)).Makes request.Allows := by
  apply allows_forClient
  refine (Prog.makes_mapEach_of_mem fun item hitem => ?_).bind fun _ => trivial
  unfold StoreOps.readItem
  split
  · exact Prog.makes_call_bind (fun _ => ⟨hchannel,hsize item hitem⟩) fun _ => trivial
  · exact allows_read hchannel (hsize item hitem)

theorem allows_readFile {f : Fetch} (hchannel : request.ioChannel = 0 ∨ request.ioChannel = 2)
    (hsize : f.buffer.size ≤ request.ioSize) : (ClientOps.readFile D client i f).Makes request.Allows := by
  unfold ClientOps.readFile
  split
  · exact Prog.makes_call_bind (fun _ => ⟨hchannel,hsize⟩) fun _ => trivial
  · refine Prog.makes_call_bind (fun _ => ⟨hchannel,hsize⟩) ?_
    rintro ⟨r,bytes⟩
    dsimp only
    split
    · trivial
    split
    · trivial
    · trivial

theorem still_storeFile (f : Fetch) : (ClientOps.storeFile client f).Makes ClientCall.Still := by
  refine Prog.makes_call_bind rfl fun path => ?_
  cases path with
  | none => trivial
  | some path => exact Prog.makes_call_bind rfl fun _ => trivial

/-- What moves no bytes needs no request. -/
theorem allows_of_still {p : ClientProg α} (hp : p.Makes ClientCall.Still) : p.Makes request.Allows := by
  apply hp.mono
  intro op hop htransfer
  cases htransfer.symm.trans hop

theorem allows_nodeBatchRead (hchannel : request.ioChannel = 0 ∨ request.ioChannel = 2)
    (hsize : ∀ f ∈ fetches, f.buffer.size ≤ request.ioSize) :
    (nodeBatchRead D client fetches).Makes request.Allows := by
  apply (allows_of_still (Prog.makes_mapEach still_storeFile fetches)).bind
  intro files
  apply Prog.makes_mapEach_of_mem
  rintro ⟨f,file⟩ hmem
  cases file with
  | none => trivial
  | some i => exact allows_readFile hchannel (hsize f (List.of_mem_zip hmem).1)

theorem allows_remoteBatchRead {addr : String} (hchannel : request.ioChannel = 2)
    (haddr : request.remoteNodeAddr = addr) (hsize : ∀ f ∈ fetches, f.buffer.size ≤ request.ioSize) :
    (ClientOps.remoteBatchRead D addr fetches).Makes request.Allows := by
  apply Prog.makes_call_bind fun _ => ⟨hchannel,haddr⟩
  intro site
  cases site with
  | none => trivial
  | some i =>
    have hread : (ClientOps.forClient i
        (StoreOps.batchRead (D.cfg i) (fetches.map Fetch.remoteItem))).Makes request.Allows := by
      apply allows_batchRead (.inr hchannel)
      intro item hitem
      obtain ⟨f,hf,rfl⟩ := List.mem_map.mp hitem
      exact hsize f hf
    apply hread.bind
    rintro ⟨status,buffers⟩
    apply Prog.makes_call_bind fun htransfer => by cases htransfer
    intro arrives
    split
    · trivial
    split
    · trivial
    · trivial

theorem allows_atStore {p : StoreProg α} (hp : p.Makes fun op => request.Allows (.atStore i op)) :
    (ClientOps.atStore i p).Makes request.Allows := by
  apply Prog.makes_interp _ hp
  intro op hop
  exact Prog.makes_perform hop

/-- Reclaiming slots moves no bytes. -/
theorem allows_reclaims {p : StoreProg α} (hp : StoreOps.ReclaimsOnly p) :
    p.Makes fun op => request.Allows (.atStore i op) := by
  apply hp.mono
  intro op hop htransfer
  have hstill : ClientCall.transfers (.atStore i op) = false := by
    cases op <;> first | rfl | cases hop
  cases htransfer.symm.trans hstill

theorem allows_assignSlots {cfg : StoreConfig} (allocSize : ℕ) (offsets : List ℤ)
    (items : List (PutItem × Bool)) :
    (StoreOps.assignSlots cfg allocSize offsets items).Makes fun op => request.Allows (.atStore i op) := by
  induction items generalizing offsets with
  | nil => cases offsets <;> trivial
  | cons x items ih =>
    obtain ⟨item,present⟩ := x
    cases present with
    | true =>
      unfold StoreOps.assignSlots
      exact (ih offsets).bind fun _ => trivial
    | false =>
      cases offsets with
      | cons offset offsets =>
        unfold StoreOps.assignSlots
        exact (ih offsets).bind fun _ => trivial
      | nil =>
        unfold StoreOps.assignSlots
        apply (allows_reclaims (StoreOps.reclaimsOnly_allocReclaiming item.size)).bind
        exact fun a => (ih []).bind fun _ => trivial

theorem allows_allocateBatch {cfg : StoreConfig} (items : List (PutItem × Bool)) :
    (StoreOps.allocateBatch cfg items).Makes fun op => request.Allows (.atStore i op) := by
  unfold StoreOps.allocateBatch
  split
  · exact allows_assignSlots 0 [] items
  · apply Prog.makes_call_bind fun htransfer => by cases htransfer
    exact fun r => allows_assignSlots r.2 r.1 items

theorem allows_writeItem {cfg : StoreConfig} {item : WriteItem} (hchannel : request.ioChannel = 1)
    (hsize : item.size ≤ request.ioSize) :
    (StoreOps.writeItem cfg item).Makes fun op => request.Allows (.atStore i op) := by
  unfold StoreOps.writeItem
  split
  · exact Prog.makes_perform fun _ => ⟨hchannel,hsize⟩
  · unfold StoreOps.write
    split
    · trivial
    · refine Prog.makes_call_bind (fun _ => ⟨hchannel,hsize⟩) fun r => ?_
      split <;> trivial

theorem allows_writeAndCommit {cfg : StoreConfig} {pairs : List (PutItem × StorePutResult)}
    (hchannel : request.ioChannel = 1) (hsize : ∀ x ∈ pairs, x.1.size ≤ request.ioSize) :
    (StoreOps.writeAndCommit cfg pairs).Makes fun op => request.Allows (.atStore i op) := by
  have hstill : ∀ {op : StoreCall}, ClientCall.transfers (.atStore i op) = false →
      request.Allows (.atStore i op) := by
    intro op hstill htransfer
    cases htransfer.symm.trans hstill
  have hwrite : (StoreOps.batchWrite cfg ((pairs.filter fun x => StoreOps.toWrite x.2).map
      fun x => ⟨x.2.offset,x.1.data,x.1.size⟩)).Makes fun op => request.Allows (.atStore i op) := by
    refine (Prog.makes_mapEach_of_mem fun item hitem => ?_).bind fun _ => trivial
    obtain ⟨x,hx,rfl⟩ := List.mem_map.mp hitem
    exact allows_writeItem hchannel (hsize x (List.mem_of_mem_filter hx))
  apply hwrite.bind
  intro status
  split
  · refine (Prog.makes_forEach (fun x => ?_) _).bind fun _ => trivial
    exact Prog.makes_perform (hstill rfl)
  · refine (Prog.makes_mapEach (fun x => ?_) _).bind fun records => ?_
    · refine Prog.makes_call_bind (hstill rfl) fun now => ?_
      exact Prog.makes_call_bind (hstill rfl) fun _ => trivial
    · refine Prog.Makes.bind ?_ fun _ => trivial
      unfold StoreOps.notifyAsync
      split
      · exact Prog.makes_perform (hstill rfl)
      · trivial

theorem allows_batchPut {cfg : StoreConfig} {keys : List Key} {dataPtrs : List (Option Bytes)}
    {sizes : List ℕ} (hchannel : request.ioChannel = 1) (hsize : ∀ size ∈ sizes, size ≤ request.ioSize) :
    (StoreOps.batchPut cfg keys dataPtrs sizes).Makes fun op => request.Allows (.atStore i op) := by
  unfold StoreOps.batchPut
  split
  · trivial
  · refine (Prog.makes_mapEach (fun item => ?_) _).bind fun present => ?_
    · refine Prog.makes_call_bind (fun htransfer => ?_) fun _ => trivial
      cases htransfer
    · apply (allows_allocateBatch _).bind
      intro results
      apply allows_writeAndCommit hchannel
      rintro ⟨item,result⟩ hmem
      obtain ⟨x,hx,rfl⟩ := List.mem_map.mp (List.of_mem_zip hmem).1
      exact hsize x.2.2 (List.of_mem_zip (List.of_mem_zip hx).2).2

theorem still_remoteAddr (desc : KeyDescriptor) :
    (ClientOps.remoteAddr client desc).Makes ClientCall.Still := by
  unfold ClientOps.remoteAddr
  split
  · trivial
  · exact Prog.makes_call_bind rfl fun _ => trivial

theorem still_learn (rec : KeyRecord) : (ClientOps.learn D client rec).Makes ClientCall.Still := by
  have hfile : (ClientOps.learnFile D client rec).Makes ClientCall.Still := by
    unfold ClientOps.learnFile
    split
    · exact Prog.makes_perform rfl
    · trivial
  have haddr : (ClientOps.learnAddr client rec).Makes ClientCall.Still := by
    unfold ClientOps.learnAddr
    split
    · exact Prog.makes_perform rfl
    · trivial
  exact hfile.bind fun _ => haddr.bind fun _ => Prog.makes_perform rfl

theorem still_unlessEmpty (missingKeys : List Key) {ask : ClientProg (List KeyRecord)}
    (hask : ask.Makes ClientCall.Still) : (ClientOps.unlessEmpty missingKeys ask).Makes ClientCall.Still := by
  unfold ClientOps.unlessEmpty
  split
  · trivial
  · exact hask

theorem still_call {op : ClientCall} (hop : op.transfers = false) :
    (ClientOps.call op).Makes ClientCall.Still := Prog.makes_perform hop

theorem still_findDescs (keys : List Key) : (findDescs D client keys).Makes ClientCall.Still := by
  have hcached : (ClientOps.call (.cacheLookup client keys)).Makes ClientCall.Still := still_call rfl
  apply hcached.bind
  rintro ⟨hitDescs,missingKeys⟩
  apply (still_unlessEmpty missingKeys (still_call rfl)).bind
  intro records
  exact (Prog.makes_forEach still_learn _).bind fun _ => trivial

theorem still_batchExist (keys : List Key) : (ClientOps.batchExist D client keys).Makes ClientCall.Still := by
  unfold ClientOps.batchExist
  split
  · trivial
  · have hlocal : (ClientOps.localHits D client keys).Makes ClientCall.Still := by
      unfold ClientOps.localHits
      split
      · trivial
      · exact Prog.makes_call_bind rfl fun _ => trivial
    apply hlocal.bind
    rintro ⟨hits,missingKeys⟩
    refine (Prog.makes_forEach (fun desc => still_call rfl) hits).bind fun _ => ?_
    apply (still_unlessEmpty missingKeys (still_call rfl)).bind
    intro records
    exact (Prog.makes_forEach still_learn _).bind fun _ => trivial

end ScheduledOps

end FalconKV
