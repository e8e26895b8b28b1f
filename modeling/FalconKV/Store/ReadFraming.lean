import FalconKV.AtomicCalls.Environment
import FalconKV.Store.Space

/-! # How slots travel in one answer

The server reads every segment of a request into a buffer of its own and appends the buffers to
one attachment, next to the list of their lengths. The client cuts the attachment at these
lengths. The report to the scheduler, which no answer shows, is left out.
-/
namespace FalconKV
open AtomicCalls

structure BatchReadSegment where
  offset : ℕ
  size : ℕ
  deriving DecidableEq, Repr

/-- The response with the attachment of its call. -/
structure BatchReadReply where
  status : ℤ
  bytesRead : List ℕ
  attachment : List UInt8
  deriving DecidableEq, Repr

namespace StoreServiceImpl

/-- `memory i` is what `AlignedAllocator::Allocate` returns for segment `i`. -/
def allocate (memory : ℕ → Option Bytes) (x : BatchReadSegment × ℕ) : Option ReadItem :=
  (memory x.2).map fun buf => ⟨x.1.offset,some buf,x.1.size,""⟩

def attach (items : List ReadItem) (buffers : List (Option Bytes)) : List UInt8 :=
  ((items.zip buffers).map fun x => bytesOf (x.2.getD fun _ => 0) x.1.size).flatten

def batchRead (cfg : StoreConfig) (memory : ℕ → Option Bytes) (segments : List BatchReadSegment) :
    StoreProg BatchReadReply :=
  match segments.zipIdx.mapM (allocate memory) with
  | none => pure ⟨-1,[],[]⟩
  | some items => do
    let (s,buffers) ← StoreOps.batchRead cfg items
    if !s.isOk then pure ⟨s.code.toNat,items.map fun _ => 0,[]⟩
    else pure ⟨0,items.map ReadItem.size,attach items buffers⟩

end StoreServiceImpl

/-- `copy_to` of an attachment: up to `n` bytes from `pos` on, as many as there are. -/
def copyTo (attachment : List UInt8) (buffer : Bytes) (n pos : ℕ) : Bytes :=
  fun i => if i < n then attachment[pos + i]?.getD (buffer i) else buffer i

namespace StoreRpcClient

def decode (attachment : List UInt8) : List (ℕ × ℕ × Bytes) → ℕ → List (ℤ × Bytes)
  | [], _ => []
  | (bytesRead,size,buffer) :: rest, attOffset =>
    if bytesRead = 0 then (-1,buffer) :: decode attachment rest attOffset
    else
      let toCopy := min bytesRead size
      (int32 toCopy,copyTo attachment buffer toCopy attOffset) ::
        decode attachment rest (attOffset + bytesRead)

/-- What the call does with the answer; it is `none` if the call has failed. -/
def receive (sizes : List ℕ) (buffers : List Bytes) (reply : Option BatchReadReply) :
    Status × List ℤ × List Bytes :=
  match reply with
  | none => (.rpcError "Store BatchRead RPC failed: ",sizes.map fun _ => -1,buffers)
  | some reply =>
    if reply.status ≠ 0 then
      (.ioError ("Store BatchRead failed with status: " ++ toString reply.status),
        sizes.map fun _ => -1,buffers)
    else if reply.bytesRead.length ≠ sizes.length then
      (.ioError "BatchRead segment count mismatch",sizes.map fun _ => -1,buffers)
    else
      let decoded := decode reply.attachment (reply.bytesRead.zip (sizes.zip buffers)) 0
      (.OK,decoded.map Prod.fst,decoded.map Prod.snd)

/-- `results` is what the caller passes; `call` is the remote call, `none` if it fails. -/
def batchRead (connected : Bool) (offsets sizes : List ℕ) (buffers : List Bytes) (results : List ℤ)
    (call : List BatchReadSegment → Option BatchReadReply) : Status × List ℤ × List Bytes :=
  if !connected then (.rpcError "not connected",results,buffers)
  else if offsets.length ≠ sizes.length ∨ offsets.length ≠ buffers.length then
    (.invalidArg "BatchRead parameter size mismatch",results,buffers)
  else if offsets.length = 0 then (.OK,[],buffers)
  else receive sizes buffers (call (List.zipWith BatchReadSegment.mk offsets sizes))

end StoreRpcClient

/-- A segment as the server sent it, the size that was asked for, and the buffer for it. -/
structure Chunk where
  sent : List UInt8
  size : ℕ
  buffer : Bytes

namespace Chunk

/-- As many bytes as were sent and asked for, from the beginning of the segment. -/
def received (x : Chunk) : Bytes := copyTo x.sent x.buffer (min x.sent.length x.size) 0

def result (x : Chunk) : ℤ := if x.sent.length = 0 then -1 else int32 (min x.sent.length x.size)

end Chunk

theorem copyTo_append (before sent behind : List UInt8) (buffer : Bytes) {n : ℕ} (h : n ≤ sent.length) :
    copyTo (before ++ sent ++ behind) buffer n before.length = copyTo sent buffer n 0 := by
  funext i
  unfold copyTo
  by_cases hi : i < n
  · have hget : (before ++ sent ++ behind)[before.length + i]? = sent[0 + i]? := by
      rw [List.append_assoc, List.getElem?_append_right (by omega), List.getElem?_append_left (by omega)]
      congr 1
      omega
    rw [if_pos hi, if_pos hi, hget]
  · rw [if_neg hi, if_neg hi]

/-- Behind the segments that are cut off already, the cursor stands at the beginning of the next. -/
theorem decode_append (before : List UInt8) (xs : List Chunk) :
    StoreRpcClient.decode (before ++ (xs.map Chunk.sent).flatten)
        (xs.map fun x => (x.sent.length,x.size,x.buffer)) before.length =
      xs.map fun x => (x.result,x.received) := by
  induction xs generalizing before with
  | nil => rfl
  | cons x xs ih =>
    simp only [List.map_cons, List.flatten_cons, StoreRpcClient.decode, ← List.append_assoc]
    have hrest := ih (before ++ x.sent)
    rw [List.length_append] at hrest
    by_cases hzero : x.sent.length = 0
    · have hreceived : x.received = x.buffer := by
        funext i
        have hnone : ¬ i < min x.sent.length x.size := by omega
        rw [Chunk.received, copyTo, if_neg hnone]
      rw [if_pos hzero, Chunk.result, if_pos hzero, hreceived, ← hrest, hzero, Nat.add_zero]
    · have hcopy : copyTo (before ++ x.sent ++ (xs.map Chunk.sent).flatten) x.buffer
          (min x.sent.length x.size) before.length = x.received :=
        copyTo_append _ _ _ _ (min_le_left _ _)
      rw [if_neg hzero, Chunk.result, if_neg hzero, hcopy, hrest]

/-- A client that gets segments of any lengths. -/
theorem receive_chunks (xs : List Chunk) :
    StoreRpcClient.receive (xs.map Chunk.size) (xs.map Chunk.buffer)
        (some ⟨0,xs.map fun x => x.sent.length,(xs.map Chunk.sent).flatten⟩) =
      (.OK,xs.map Chunk.result,xs.map Chunk.received) := by
  have hzip : (xs.map fun x => x.sent.length).zip ((xs.map Chunk.size).zip (xs.map Chunk.buffer)) =
      xs.map fun x => (x.sent.length,x.size,x.buffer) := by
    simp only [List.zip_map']
  have hdecode := decode_append [] xs
  rw [List.nil_append, List.length_nil] at hdecode
  simp only [StoreRpcClient.receive, List.length_map, ne_eq, not_true_eq_false, if_false, hzip, hdecode,
    List.map_map]
  rfl

def Fills (file : Bytes) (item : ReadItem) (buffer : Option Bytes) : Prop :=
  ∃ b, buffer = some b ∧ bytesOf b item.size = bytesOf (fun i => file (item.offset + i)) item.size

theorem bytesOf_readInto (file garbage : Bytes) (offset size : ℕ) :
    bytesOf (readInto file offset size garbage) size = bytesOf (fun i => file (offset + i)) size := by
  refine bytesOf_congr fun i hi => ?_
  have hlt : (i : ℤ) < size := by omega
  rw [readInto, if_pos hlt]

namespace StoreOps
variable {cfg : StoreConfig} {s : Store}

/-- A read that succeeds fills its buffer; no read changes the store. -/
theorem wp_read_fills (item : ReadItem) :
    wp storeMachine (fun _ _ => True) (fun r s' => s' = s ∧ (r.1.isOk = true → Fills s.file item r.2))
      (read item.offset item.buffer item.size item.reader) s := by
  unfold read
  split
  · exact ⟨rfl,fun hok => by cases hok⟩
  · refine wp_perform trivial fun c r s₁ hstep => ?_
    obtain ⟨⟨r',bytes⟩,hread,he⟩ := Option.map_eq_some_iff.mp hstep
    obtain ⟨rfl,rfl⟩ := Prod.mk.inj he
    dsimp only
    split
    · exact ⟨rfl,fun hok => by cases hok⟩
    · split
      · exact ⟨rfl,fun hok => by cases hok⟩
      · next hcount => exact ⟨rfl,fun _ => ⟨bytes,rfl,bytesOf_pread hread hcount⟩⟩

/-- The same by either way. -/
theorem wp_readItem_fills (item : ReadItem) :
    wp storeMachine (fun _ _ => True) (fun r s' => s' = s ∧ (r.1.isOk = true → Fills s.file item r.2))
      (readItem cfg item) s := by
  unfold readItem
  split
  · refine wp_perform trivial fun c r s₁ hstep => ?_
    obtain ⟨rfl,rfl⟩ := Prod.mk.inj (Option.some.inj hstep)
    refine ⟨rfl,fun hok => ?_⟩
    cases htransfer : c.transfer with
    | full => exact ⟨_,rfl,by simpa [Store.uringRead, htransfer] using bytesOf_readInto _ _ _ _⟩
    | short count error => simp [htransfer] at hok
  · exact wp_read_fills item

theorem wp_batchRead_fills (items : List ReadItem) :
    wp storeMachine (fun _ _ => True)
      (fun r s' => s' = s ∧ (r.1.isOk = true → List.Forall₂ (Fills s.file) items r.2))
      (batchRead cfg items) s := by
  have hloop : wp storeMachine (fun _ _ => True) (fun results s' => s' = s ∧
      List.Forall₂ (fun item r => r.1.isOk = true → Fills s.file item r.2) items results)
      (Prog.mapEach (readItem cfg) items) s := by
    refine wp_mapEach_forall₂ rfl fun item _ s₁ hs => ?_
    subst hs
    exact wp_readItem_fills item
  refine wp_bind.mpr (wp_mono hloop fun results s₁ h => ?_)
  obtain ⟨rfl,hresults⟩ := h
  refine ⟨rfl,fun hok => ?_⟩
  rw [lastError_isOk] at hok
  clear hloop
  induction hresults with
  | nil => exact .nil
  | cons hr _ ih =>
    obtain ⟨hhead,htail⟩ := List.forall_mem_cons.mp hok
    exact .cons (hr hhead) (ih htail)

end StoreOps

def readsAs (reads : ℕ → ℕ → Bool) : StoreCall → StoreChoice → Bool
  | .pread offset size _, c => c.transfer.isFull == reads offset size
  | .uringRead offset size _, c => c.transfer.isFull == reads offset size
  | _, _ => true

abbrev steadyStore (reads : ℕ → ℕ → Bool) : Machine storeCalls Store := storeMachine.under (readsAs reads)

namespace StoreOps
variable {cfg : StoreConfig} {reads : ℕ → ℕ → Bool} {s : Store}

theorem pread_steady {offset size : ℕ} {reader : Key} {c : StoreChoice} {r : Transferred × Bytes} {s' : Store}
    (hs : (steadyStore reads).step (.pread offset size reader) c s = some (r,s')) :
    s' = s ∧ (r.1.count < size ↔ reads offset size = false) ∧ (reads offset size = true →
      bytesOf r.2 size = bytesOf (fun i => s.file (offset + i)) size) := by
  obtain ⟨hallow,hs⟩ := Machine.under_step hs
  obtain ⟨⟨r',bytes⟩,hread,he⟩ := Option.map_eq_some_iff.mp hs
  obtain ⟨rfl,rfl⟩ := Prod.mk.inj he
  have hfull : r'.count < size ↔ reads offset size = false := by
    rw [← eq_of_beq hallow]
    unfold Store.pread at hread
    cases htransfer : c.transfer with
    | full =>
      rw [htransfer] at hread
      cases hread
      simp [Transfer.isFull]
    | short count error =>
      rw [htransfer] at hread
      dsimp only at hread
      split at hread
      · next hshort =>
        cases hread
        simpa [Transfer.isFull] using hshort
      · cases hread
  refine ⟨rfl,hfull,fun hreads => bytesOf_pread hread fun hshort => ?_⟩
  rw [hfull, hreads] at hshort
  cases hshort

theorem uringRead_steady {offset size : ℕ} {reader : Key} {c : StoreChoice} {r : Status × Bytes} {s' : Store}
    (hs : (steadyStore reads).step (.uringRead offset size reader) c s = some (r,s')) :
    s' = s ∧ r.1.isOk = reads offset size ∧ (r.1.isOk = true →
      bytesOf r.2 size = bytesOf (fun i => s.file (offset + i)) size) := by
  obtain ⟨hallow,hs⟩ := Machine.under_step hs
  have hbytes := Store.bytesOf_uringRead hs
  obtain ⟨rfl,rfl⟩ := Prod.mk.inj (Option.some.inj hs)
  refine ⟨rfl,?_,hbytes⟩
  rw [← eq_of_beq hallow]
  cases htransfer : c.transfer with
  | full => simp [Store.uringRead, htransfer, Transfer.isFull]
  | short count error => simp [Store.uringRead, htransfer, Transfer.isFull]

theorem wp_read_isOk {item : ReadItem} (hbuffer : item.buffer.isSome = true) (hsize : 0 < item.size) :
    wp (steadyStore reads) (fun _ _ => True) (fun r _ => r.1.isOk = reads item.offset item.size)
      (read item.offset item.buffer item.size item.reader) s := by
  have hvalid : ¬ (item.buffer.isNone || item.size == 0) = true := by
    obtain ⟨b,hb⟩ := Option.isSome_iff_exists.mp hbuffer
    rw [hb]
    simp only [Option.isNone_some, Bool.false_or, beq_iff_eq]
    omega
  unfold read
  rw [if_neg hvalid]
  apply wp_perform trivial
  rintro c ⟨r,bytes⟩ s₁ hstep
  obtain ⟨-,hshort,-⟩ := pread_steady hstep
  dsimp only at hshort ⊢
  split
  · next hneg => exact (hshort.mp (by omega)).symm
  split
  · next hless => exact (hshort.mp hless).symm
  · next hge => exact (Bool.not_eq_false _ ▸ mt hshort.mpr hge).symm

/-- A slot can be read or it cannot, by either way. -/
theorem wp_readItem_steady {item : ReadItem} (hbuffer : item.buffer.isSome = true) (hsize : 0 < item.size) :
    wp (steadyStore reads) (fun _ _ => True)
      (fun r s' => (s' = s ∧ (r.1.isOk = true → Fills s.file item r.2)) ∧
        r.1.isOk = reads item.offset item.size)
      (readItem cfg item) s := by
  have hisOk : wp (steadyStore reads) (fun _ _ => True) (fun r _ => r.1.isOk = reads item.offset item.size)
      (readItem cfg item) s := by
    unfold readItem
    split
    · apply wp_perform trivial
      rintro c r s₁ hstep
      exact (uringRead_steady hstep).2.1
    · exact wp_read_isOk hbuffer hsize
  exact wp_and (wp_under (wp_readItem_fills item)) hisOk

/-- A batch can be read if all its slots can be. -/
theorem wp_batchRead_steady {items : List ReadItem}
    (hitems : ∀ item ∈ items, item.buffer.isSome = true ∧ 0 < item.size) :
    wp (steadyStore reads) (fun _ _ => True)
      (fun r s' => (s' = s ∧ (r.1.isOk = true → List.Forall₂ (Fills s.file) items r.2)) ∧
        r.1.isOk = items.all (fun item => reads item.offset item.size) ∧ r.2.length = items.length)
      (batchRead cfg items) s := by
  apply wp_and (wp_under (wp_batchRead_fills items))
  have hloop : wp (steadyStore reads) (fun _ _ => True) (fun results s' => s' = s ∧
      List.Forall₂ (fun item r => r.1.isOk = reads item.offset item.size) items results)
      (Prog.mapEach (readItem cfg) items) s := by
    apply wp_mapEach_forall₂ (I := fun s' => s' = s) rfl
    rintro item hitem s₁ rfl
    apply wp_mono (wp_readItem_steady (hitems item hitem).1 (hitems item hitem).2)
    rintro r s₂ ⟨⟨hsame,-⟩,hok⟩
    exact ⟨hsame,hok⟩
  apply wp_bind.mpr
  apply wp_mono hloop
  rintro results s₁ ⟨-,hresults⟩
  refine ⟨?_,by rw [List.length_map]; exact hresults.length_eq.symm⟩
  rw [Bool.eq_iff_iff, lastError_isOk, List.all_eq_true]
  clear hloop hitems
  induction hresults with
  | nil => simp
  | cons hr _ ih => rw [List.map_cons, List.forall_mem_cons, List.forall_mem_cons, ih, hr]

end StoreOps

namespace StoreServiceImpl

/-- The items of a request, where all buffers could be allocated. -/
theorem segments_of_allocate {memory : ℕ → Option Bytes} {segments : List BatchReadSegment} {k : ℕ}
    {items : List ReadItem} (h : (segments.zipIdx k).mapM (allocate memory) = some items) :
    items.map (fun item => (⟨item.offset,item.size⟩ : BatchReadSegment)) = segments := by
  induction segments generalizing k items with
  | nil =>
    cases h
    rfl
  | cons seg segments ih =>
    rw [List.zipIdx_cons, List.mapM_cons] at h
    obtain ⟨item,hitem,hmore⟩ := Option.bind_eq_some_iff.mp h
    obtain ⟨rest,hrest,heq⟩ := Option.bind_eq_some_iff.mp hmore
    have hsegments := ih hrest
    obtain ⟨buf,-,rfl⟩ := Option.map_eq_some_iff.mp hitem
    cases heq
    rw [List.map_cons, hsegments]

theorem attach_of_fills {file : Bytes} {items : List ReadItem} {buffers : List (Option Bytes)}
    (h : List.Forall₂ (Fills file) items buffers) : attach items buffers =
      (items.map fun item => bytesOf (fun i => file (item.offset + i)) item.size).flatten := by
  induction h with
  | nil => rfl
  | cons hfill _ ih =>
    obtain ⟨b,rfl,hbytes⟩ := hfill
    unfold attach at ih ⊢
    rw [List.zip_cons_cons, List.map_cons, List.flatten_cons, ih, List.map_cons, List.flatten_cons]
    exact congrArg (· ++ _) hbytes

/-- Where a buffer can be allocated for each segment, none of the items is without one. -/
theorem allocate_isSome {memory : ℕ → Option Bytes} {segments : List BatchReadSegment} {k : ℕ}
    (h : ∀ i < segments.length, (memory (k + i)).isSome = true) :
    ∃ items, (segments.zipIdx k).mapM (allocate memory) = some items ∧
      ∀ item ∈ items, item.buffer.isSome = true := by
  induction segments generalizing k with
  | nil => exact ⟨[],rfl,by simp⟩
  | cons seg segments ih =>
    obtain ⟨buf,hbuf⟩ := Option.isSome_iff_exists.mp (h 0 (by simp))
    have hmore : ∀ i < segments.length, (memory (k + 1 + i)).isSome = true := by
      intro i hi
      have hnext := h (i + 1) (by simpa using hi)
      rwa [show k + (i + 1) = k + 1 + i by omega] at hnext
    obtain ⟨items,hitems,hbuffers⟩ := ih hmore
    rw [add_zero] at hbuf
    refine ⟨⟨seg.offset,some buf,seg.size,""⟩ :: items,?_,?_⟩
    · simp [List.zipIdx_cons, List.mapM_cons, allocate, hbuf, hitems]
    · exact List.forall_mem_cons.mpr ⟨rfl,hbuffers⟩

/-- If there is memory and the reads of the segments are completed, the answer reports success and
carries the bytes of all segments. -/
theorem wp_batchRead {cfg : StoreConfig} {memory : ℕ → Option Bytes} {segments : List BatchReadSegment}
    {reads : ℕ → ℕ → Bool} {s : Store} (hmemory : ∀ i < segments.length, (memory i).isSome = true)
    (hsegments : ∀ seg ∈ segments, 0 < seg.size ∧ reads seg.offset seg.size = true) :
    wp (steadyStore reads) (fun _ _ => True)
      (fun reply _ => reply = ⟨0,segments.map BatchReadSegment.size,
        (segments.map fun seg => bytesOf (fun i => s.file (seg.offset + i)) seg.size).flatten⟩)
      (batchRead cfg memory segments) s := by
  obtain ⟨items,hitems,hbuffers⟩ := allocate_isSome (k := 0) (by simpa using hmemory)
  have hsame := segments_of_allocate hitems
  have hitem : ∀ item ∈ items, 0 < item.size ∧ reads item.offset item.size = true := by
    intro item hitem
    exact hsegments ⟨item.offset,item.size⟩ (hsame ▸ List.mem_map_of_mem hitem)
  unfold batchRead
  rw [hitems]
  apply wp_bind.mpr
  apply wp_mono (StoreOps.wp_batchRead_steady fun item h => ⟨hbuffers item h,(hitem item h).1⟩)
  rintro r s₁ ⟨⟨-,hfills⟩,hok,-⟩
  have htrue : r.1.isOk = true := by
    rw [hok, List.all_eq_true]
    exact fun item h => (hitem item h).2
  dsimp only
  rw [htrue]
  rw [← hsame, attach_of_fills (hfills htrue)]
  simp only [Bool.not_true, Bool.false_eq_true, if_false, List.map_map]
  rfl

end StoreServiceImpl

theorem int32_of_lt {n : ℕ} (h : n < 2^31) : int32 n = n := by
  have hmod : n % 2^32 = n := Nat.mod_eq_of_lt (by omega)
  simp only [int32, hmod, if_pos h]

def chunkOf (file : Bytes) (x : BatchReadSegment × Bytes) : Chunk :=
  ⟨bytesOf (fun i => file (x.1.offset + i)) x.1.size,x.1.size,x.2⟩

theorem Chunk.received_apply (x : Chunk) (j : ℕ) : x.received j =
    if j < min x.sent.length x.size then x.sent.getD j 0 else x.buffer j := by
  unfold received copyTo
  split
  · next hj =>
    have hlt : j < x.sent.length := by omega
    simp [hlt]
  · rfl

theorem received_chunkOf (file : Bytes) (x : BatchReadSegment × Bytes) :
    (chunkOf file x).received = overwrite x.2 0 (fun j => file (x.1.offset + j)) x.1.size := by
  funext j
  rw [Chunk.received_apply]
  by_cases hj : j < x.1.size
  · simp [chunkOf, overwrite, hj, bytesOf]
  · simp [chunkOf, overwrite, hj]

theorem result_chunkOf (file : Bytes) {x : BatchReadSegment × Bytes} (hpos : 1 ≤ x.1.size)
    (hlt : x.1.size ≤ 2^31 - 1) : (chunkOf file x).result = x.1.size := by
  have hne : ¬ x.1.size = 0 := by omega
  simp only [Chunk.result, chunkOf, length_bytesOf, if_neg hne, min_self]
  exact int32_of_lt (by omega)

/-- A call that gets segments of any lengths, over all branches of the client. -/
theorem batchRead_chunks (xs : List Chunk) (offsets : List ℕ) (results : List ℤ)
    (call : List BatchReadSegment → Option BatchReadReply) (hlength : offsets.length = xs.length)
    (hcall : call (List.zipWith BatchReadSegment.mk offsets (xs.map Chunk.size)) =
      some ⟨0,xs.map fun x => x.sent.length,(xs.map Chunk.sent).flatten⟩) :
    StoreRpcClient.batchRead true offsets (xs.map Chunk.size) (xs.map Chunk.buffer) results call =
      (.OK,xs.map Chunk.result,xs.map Chunk.received) := by
  unfold StoreRpcClient.batchRead
  have hsizes : ¬ (offsets.length ≠ (xs.map Chunk.size).length ∨
      offsets.length ≠ (xs.map Chunk.buffer).length) := by simp [hlength]
  rw [if_neg (by decide), if_neg hsizes]
  split
  · next hzero =>
    have hnil : xs = [] := List.length_eq_zero_iff.mp (hlength ▸ hzero)
    subst hnil
    rfl
  · rw [hcall]
    exact receive_chunks xs

/-- If the store's reads of the segments succeed and the server gets its buffers, the answer reports
success and what the server sends of its file arrives at the client's buffers, segment by segment; and
of segments of any lengths, each buffer gets its own, as far as it was asked for. -/
theorem batchRead_framing :
    (∀ (cfg : StoreConfig) (memory : ℕ → Option Bytes) (segments : List BatchReadSegment)
      (reads : ℕ → ℕ → Bool) (buffers : List Bytes) (results : List ℤ) (s s' : Store)
      (reply : BatchReadReply) (call : List BatchReadSegment → Option BatchReadReply),
      (∀ seg ∈ segments, 1 ≤ seg.size ∧ seg.size ≤ 2^31 - 1) → buffers.length = segments.length →
      (∀ i < segments.length, (memory i).isSome = true) →
      (∀ seg ∈ segments, reads seg.offset seg.size = true) →
      Exec (steadyStore reads) (fun _ _ => True) (StoreServiceImpl.batchRead cfg memory segments) s
        reply s' → call segments = some reply →
      reply.status = 0 ∧ StoreRpcClient.batchRead true (segments.map BatchReadSegment.offset)
          (segments.map BatchReadSegment.size) buffers results call =
        (.OK,segments.map fun seg => (seg.size : ℤ),List.zipWith (fun seg buffer =>
          overwrite buffer 0 (fun j => s.file (seg.offset + j)) seg.size) segments buffers)) ∧
    ∀ (xs : List Chunk) (offsets : List ℕ) (results : List ℤ)
      (call : List BatchReadSegment → Option BatchReadReply),
      offsets.length = xs.length →
      call (List.zipWith BatchReadSegment.mk offsets (xs.map Chunk.size)) =
        some ⟨0,xs.map fun x => x.sent.length,(xs.map Chunk.sent).flatten⟩ →
      StoreRpcClient.batchRead true offsets (xs.map Chunk.size) (xs.map Chunk.buffer) results call =
          (.OK,xs.map Chunk.result,xs.map Chunk.received) ∧
        ∀ x ∈ xs, ∀ j, x.received j =
          if j < min x.sent.length x.size then x.sent.getD j 0 else x.buffer j := by
  constructor
  · intro cfg memory segments reads buffers results s s' reply call hsizes hlength hmemory hreads he hcall
    have hsegments : ∀ seg ∈ segments, 0 < seg.size ∧ reads seg.offset seg.size = true :=
      fun seg hseg => ⟨(hsizes seg hseg).1,hreads seg hseg⟩
    obtain rfl := he.ends (StoreServiceImpl.wp_batchRead hmemory hsegments)
    refine ⟨rfl,?_⟩
    let xs := (segments.zip buffers).map (chunkOf s.file)
    have hzip : (segments.zip buffers).map Prod.fst = segments := List.map_fst_zip hlength.ge
    have hsize : xs.map Chunk.size = segments.map BatchReadSegment.size := by
      conv_rhs => rw [← hzip]
      simp only [xs, List.map_map]
      rfl
    have hbuffer : xs.map Chunk.buffer = buffers := by
      conv_rhs => rw [← List.map_snd_zip hlength.le]
      simp only [xs, List.map_map]
      rfl
    have hsent : xs.map Chunk.sent = segments.map fun seg =>
        bytesOf (fun i => s.file (seg.offset + i)) seg.size := by
      conv_rhs => rw [← hzip]
      simp only [xs, List.map_map]
      rfl
    have hlengths : xs.map (fun x => x.sent.length) = segments.map BatchReadSegment.size := by
      rw [← hsize, List.map_map, List.map_map]
      exact List.map_congr_left fun x _ => length_bytesOf _ _
    have hrequest : List.zipWith BatchReadSegment.mk (segments.map BatchReadSegment.offset)
        (xs.map Chunk.size) = segments := by
      rw [hsize, List.zipWith_map, List.zipWith_self]
      exact List.map_id segments
    have hdone := batchRead_chunks xs (segments.map BatchReadSegment.offset) results call (by simp [xs, hlength]) (by rw [hrequest, hcall, hsent, hlengths])
    rw [hsize, hbuffer] at hdone
    rw [hdone]
    have hresult : xs.map Chunk.result = segments.map fun seg => (seg.size : ℤ) := by
      conv_rhs => rw [← hzip, List.map_map]
      rw [List.map_map]
      refine List.map_congr_left fun x hx => ?_
      obtain ⟨hpos,hlt⟩ := hsizes x.1 (List.of_mem_zip hx).1
      exact result_chunkOf s.file hpos hlt
    have hreceived : xs.map Chunk.received = List.zipWith (fun seg buffer =>
        overwrite buffer 0 (fun j => s.file (seg.offset + j)) seg.size) segments buffers := by
      rw [List.map_map]
      exact (List.map_congr_left fun x _ => received_chunkOf s.file x).trans List.map_zip_eq_zipWith
    rw [hresult, hreceived]
  · intro xs offsets results call hlength hcall
    exact ⟨batchRead_chunks xs offsets results call hlength hcall,fun x _ j => x.received_apply j⟩

/-- A file of `0, 1, 2, …`, of which three segments are read while nothing beyond them can be, and an
answer with an empty, a short and a long segment. -/
theorem batchRead_framing_segments :
    (∃ reply s', Exec (steadyStore fun offset _ => decide (offset < 16)) (fun _ _ => True)
        (StoreServiceImpl.batchRead ⟨0,64,8,0,false,false⟩ (fun _ => some fun _ => 9)
          [⟨3,2⟩,⟨7,1⟩,⟨12,3⟩])
        { Store.init ⟨0,64,8,0,false,false⟩ with file := fun i => .ofNat i } reply s' ∧
      reply = ⟨0,[2,1,3],[3,4,7,12,13,14]⟩ ∧
      StoreRpcClient.batchRead true [3,7,12] [2,1,3] [fun _ => 0,fun _ => 0,fun _ => 0] []
          (fun _ => some reply) =
        (.OK,[2,1,3],[overwrite (fun _ => 0) 0 (fun j => .ofNat (3 + j)) 2,
          overwrite (fun _ => 0) 0 (fun j => .ofNat (7 + j)) 1,
          overwrite (fun _ => 0) 0 (fun j => .ofNat (12 + j)) 3])) ∧
    (StoreRpcClient.batchRead true [0,0,0] [4,4,1] [fun _ => 0,fun _ => 0,fun _ => 0] []
      fun _ => some ⟨0,[0,1,2],[5,6,7]⟩).2.1 = [-1,1,1] := by
  constructor
  · have hrun : (execWith (steadyStore fun offset _ => decide (offset < 16)) (fun _ _ => true)
        (StoreServiceImpl.batchRead ⟨0,64,8,0,false,false⟩ (fun _ => some fun _ => 9)
          [⟨3,2⟩,⟨7,1⟩,⟨12,3⟩])
        [{},{},{}] { Store.init ⟨0,64,8,0,false,false⟩ with file := fun i => .ofNat i }).map Prod.fst =
          some ⟨0,[2,1,3],[3,4,7,12,13,14]⟩ := by decide
    obtain ⟨⟨reply,s'⟩,hexec,hreply⟩ := Option.map_eq_some_iff.mp hrun
    have he := (exec_of_execWith hexec).ok_mono fun (_ : Store) (_ : StoreCall) _ => trivial
    refine ⟨reply,s',he,hreply,?_⟩
    exact (batchRead_framing.1 _ _ [⟨3,2⟩,⟨7,1⟩,⟨12,3⟩] _ _ [] _ s' reply _ (by decide) rfl
      (fun _ _ => rfl) (by decide) he rfl).2
  · have hthree := (batchRead_framing.2 [⟨[],4,fun _ => 0⟩,⟨[5],4,fun _ => 0⟩,⟨[6,7],1,fun _ => 0⟩]
      [0,0,0] [] (fun _ => some ⟨0,[0,1,2],[5,6,7]⟩) rfl rfl).1
    exact congrArg (fun y => y.2.1) hthree

end FalconKV
