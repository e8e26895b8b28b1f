import FalconKV.Client.ReadRuns
import FalconKV.Store.ReadFraming

/-! # How much a client reads

`Get` refuses a buffer that is too short and fills a longer one only as far as the value goes.
`BatchGetSync` fills the whole buffer, whatever its size, and returns this size.
-/
namespace FalconKV
open AtomicCalls

/-- A value is read into a buffer of `size` bytes: the first `written` bytes of the buffer are set,
and `count` is returned. -/
structure ReadLaw (value : List UInt8) (size : ℕ) (count : ℤ) (written : ℕ) (bytes : Bytes) : Prop where
  fits : value.length ≤ size
  returned : count = value.length
  filled : written = value.length
  contents : bytesOf bytes written = value
  /-- the test for a chunk that is not full -/
  chunk : 0 < count ∧ count < size ↔ value.length < size

/-- A buffer that is filled as a whole. -/
theorem readLaw_full_iff {value : List UInt8} {size : ℕ} {count : ℤ} {bytes : Bytes} (hpos : 0 < count)
    (hcount : count = size) :
    ReadLaw value size count size bytes ↔ size = value.length ∧ bytesOf bytes size = value := by
  constructor
  · exact fun h => ⟨h.filled,h.contents⟩
  · rintro ⟨hsize,hbytes⟩
    refine ⟨hsize.ge,hcount.trans (congrArg Nat.cast hsize),hsize,hbytes,?_⟩
    constructor
    · rintro ⟨-,hshort⟩
      omega
    · exact fun hshort => ⟨hpos,by omega⟩

namespace SlotReads
variable {D : Deployment} {client i : ℕ} {fetches : List Fetch} {notes : List SlotRead}
  {items : List (KeyDescriptor × BufferInfo)} {results : List Fetched}

def AllDone (fetches : List Fetch) (xs : List (ℕ × Fetched)) : Prop :=
  ∀ x ∈ xs, ∃ f ∈ fetches, ∃ ok bytes, x = f.done ok bytes

theorem allDone_failed (fetches : List Fetch) : AllDone fetches (fetches.map Fetch.failed) := by
  intro x hx
  obtain ⟨f,hf,rfl⟩ := List.mem_map.mp hx
  exact ⟨f,hf,false,_,rfl⟩

theorem allDone_batch (buffers : List (Option Bytes)) (ok : Fetch → Bool) :
    AllDone fetches ((fetches.zip buffers).map fun x => x.1.done (ok x.1) x.2) := by
  intro x hx
  obtain ⟨⟨f,bytes⟩,hzip,rfl⟩ := List.mem_map.mp hx
  exact ⟨f,(List.of_mem_zip hzip).1,ok f,bytes,rfl⟩

theorem done_localReads (fetches : List Fetch) (notes : List SlotRead) :
    ledger.Kept (fun xs _ => AllDone fetches xs) (ClientOps.localReads D client fetches) notes := by
  unfold ClientOps.localReads
  split
  · intro x hx
    cases hx
  · apply Ledger.kept_then
    rintro ⟨status,buffers⟩ notes
    exact allDone_batch buffers fun _ => status.isOk

theorem done_readNode (fetches : List Fetch) (notes : List SlotRead) :
    ledger.Kept (fun xs _ => AllDone fetches xs) (ClientOps.readNode D client fetches) notes := by
  apply Ledger.kept_then
  intro files notes
  have hone : ∀ x ∈ fetches.zip files, ∀ notes, ledger.Kept
      (fun y _ => ∃ ok bytes, y = x.1.done ok bytes) (ClientOps.readOpened D client x) notes := by
    rintro ⟨f,file⟩ _ notes
    cases file with
    | none => exact ⟨false,_,rfl⟩
    | some i =>
      apply Ledger.kept_then
      rintro ⟨status,bytes⟩ notes
      exact ⟨status.isOk,bytes,rfl⟩
  refine Ledger.kept_mono (Ledger.kept_mapEach (fun _ _ _ _ h _ => h) hone notes) ?_
  intro ys notes hall y hy
  obtain ⟨x,hx,hdone⟩ := Ledger.exists_of_mem_right hall hy
  exact ⟨x.1,(List.of_mem_zip hx).1,hdone⟩

theorem done_readRpc (addr : String) (fetches : List Fetch) (notes : List SlotRead) :
    ledger.Kept (fun xs _ => AllDone fetches xs) (ClientOps.readRpc D addr fetches) notes := by
  apply Ledger.kept_then
  intro site notes
  cases site with
  | none => exact allDone_failed fetches
  | some i =>
    apply Ledger.kept_then
    rintro ⟨status,buffers⟩ notes
    apply Ledger.kept_then
    intro arrives notes
    split
    · exact allDone_batch buffers fun f => decide (0 < int32 f.buffer.size)
    · exact allDone_failed fetches

theorem done_readRemote (fetches : List Fetch) (storeId : ℕ) (notes : List SlotRead) :
    ledger.Kept (fun xs _ => AllDone fetches xs) (ClientOps.readRemote D client fetches storeId) notes := by
  have hgroup : ∀ {xs}, AllDone (fetches.filter fun f => f.desc.storeId == storeId) xs →
      AllDone fetches xs := by
    intro xs h x hx
    obtain ⟨f,hf,hdone⟩ := h x hx
    exact ⟨f,List.mem_of_mem_filter hf,hdone⟩
  unfold ClientOps.readRemote
  split
  · intro x hx
    cases hx
  · next first rest hfirst =>
    rw [hfirst] at hgroup
    apply Ledger.kept_then
    intro addr notes
    split
    · exact hgroup (allDone_failed (first :: rest))
    · exact Ledger.kept_mono (done_readRpc addr (first :: rest) notes) fun _ _ => hgroup

def Sized (items : List (KeyDescriptor × BufferInfo)) (results : List Fetched) : Prop :=
  ∀ (j : ℕ) y, results[j]? = some y → 0 < y.count →
    ∃ item, items[j]? = some item ∧ y.count = int32 item.2.size

theorem Sized.place {type : AccessType} {xs : List (ℕ × Fetched)} (h : Sized items results)
    (hxs : AllDone (ClientOps.fetchesOf items type) xs) : Sized items (place results xs) := by
  have hcounts : ∀ x ∈ xs, ∃ f ∈ ClientOps.fetchesOf items type, x.1 = f.index ∧
      (0 < x.2.count → x.2.count = int32 f.buffer.size) := by
    intro x hx
    obtain ⟨f,hf,ok,bytes,rfl⟩ := hxs x hx
    refine ⟨f,hf,rfl,fun hpos => ?_⟩
    cases ok with
    | false => cases hpos
    | true => rfl
  exact at_positions_place (Q := fun item y => y.count = int32 item.2.size) h hcounts

theorem sized_batchGet (items : List (KeyDescriptor × BufferInfo)) (notes : List SlotRead) :
    ledger.Kept (fun results _ => Sized items results) (ClientOps.batchGet D client items) notes := by
  refine Ledger.kept_bind (Ledger.kept_mono (done_localReads _ notes) ?_)
  intro localResults notes hlocal
  refine Ledger.kept_bind (Ledger.kept_mono (done_readNode _ notes) ?_)
  intro nodeResults notes hnode
  refine Ledger.kept_bind (Ledger.kept_mono (Ledger.kept_mapEach (fun _ _ _ _ h _ => h)
    (fun storeId _ notes => done_readRemote _ storeId notes) notes) ?_)
  intro remoteResults notes hremote
  have hstart : Sized items (items.map fun x => ⟨0,x.2.dataPtr⟩) := by
    intro j y hy hpos
    obtain ⟨x,-,rfl⟩ := exists_of_getElem?_map hy
    cases hpos
  have hremotes : AllDone (ClientOps.fetchesOf items .remoteRpc) remoteResults.flatten := by
    intro x hx
    obtain ⟨xs,hxs,hmem⟩ := List.mem_flatten.mp hx
    obtain ⟨_,-,hall⟩ := Ledger.exists_of_mem_right hremote hxs
    exact hall x hmem
  exact ((hstart.place hlocal).place hnode).place hremotes

def SizedFor : ClientReply → Prop
  | .batchGetSync keys buffers results => ∀ (j : ℕ) key buffer y, keys[j]? = some key →
    buffers[j]? = some buffer → results[j]? = some y → 0 < y.count → y.count = int32 buffer.size
  | _ => True

theorem sizedFor_of_run {ok : ReadWorld → ClientCall → Prop} {tr : List ClientEvent} {P : ClientPool}
    (hrun : ClientRun D ok tr P) {t : ℕ} {reply : ClientReply} (hreply : P.replies[t]? = some (some reply)) :
    SizedFor reply := by
  have hsize : ∀ op : ClientOp, ledger.Kept (fun reply _ => SizedFor reply) (op.run D) [] := by
    apply kept_run (fun _ _ _ => trivial) (fun _ _ => trivial) (fun _ _ _ => trivial)
    intro client keys buffers
    exact at_keys_batchGetSync (Q := fun _ buffer y _ => y.count = int32 buffer.size) sized_batchGet
      keys buffers []
  obtain ⟨notes,-,hsized⟩ := noted_of_run hsize hrun hreply
  exact hsized

end SlotReads

/-- The read with which thread `t` has filled a buffer for a key. -/
structure FilledBy (tr : List ClientEvent) (t : ℕ) (key : Key) (buffer : BufferInfo) (fetched : Fetched)
    (e : ClientEvent) (read : SlotRead) : Prop where
  mem : e ∈ tr
  thread : e.thread = t
  completed : e.op.completed e.res = some read
  reader : read.reader = key
  size : read.size = buffer.size
  bytes : fetched.buffer = some read.bytes

/-- The bytes of a completed read stood in the data file. -/
theorem bytesOf_slotRead {D : Deployment} {x x' : ReadWorld} {op : ClientCall} {c : ClientChoice} {r : op.Res}
    {read : SlotRead} (hs : (clientMachine D).step op c x = some (r,x')) (hread : op.completed r = some read) :
    bytesOf read.bytes read.size =
      bytesOf (fun k => (x.store read.site).file (read.offset + k)) read.size := by
  cases op with
  | forClient i op =>
    obtain ⟨y,hy,hyr⟩ := Option.map_eq_some_iff.mp hs
    obtain ⟨rfl,-⟩ := Prod.mk.inj hyr
    cases op with
    | pread offset size reader =>
      obtain ⟨hcount,he⟩ := Option.ite_none_right_eq_some.mp hread
      cases he
      exact Store.bytesOf_pread hy hcount
    | uringRead offset size reader =>
      obtain ⟨hisOk,he⟩ := Option.ite_none_right_eq_some.mp hread
      cases he
      exact Store.bytesOf_uringRead hy hisOk
    | _ => cases hread
  | _ => cases hread

theorem int32_of_pos {n : ℕ} (hn : n < 2^32) (hpos : 0 < int32 n) : int32 n = n := by
  apply int32_of_lt
  by_contra hlarge
  have hmod : n % 2^32 = n := Nat.mod_eq_of_lt hn
  rw [int32, hmod, if_neg hlarge] at hpos
  omega

/-- A `BatchGetSync` that succeeds reads a stored value as `Get` does exactly if the buffer is as long
as the value, and the value stands where the descriptor says. -/
theorem readLaw_iff {D : Deployment} {ok : ReadWorld → ClientCall → Prop} {tr : List ClientEvent}
    {P : ClientPool} (hrun : ClientRun D ok tr P) {t : ℕ} {keys : List Key} {buffers : List BufferInfo}
    {results : List Fetched}
    (hreply : P.replies[t]? = some (some (.batchGetSync keys buffers results))) {j : ℕ} {key : Key}
    {buffer : BufferInfo} {fetched : Fetched} (hkey : keys[j]? = some key) (hbuffer : buffers[j]? = some buffer)
    (hfetched : results[j]? = some fetched) (hpos : 0 < fetched.count) (hsize : buffer.size < 2^32) :
    (∃ e read, FilledBy tr t key buffer fetched e read) ∧
    ∀ e read value, FilledBy tr t key buffer fetched e read →
      (e.before.store read.site).contents key = some value →
        (ReadLaw value buffer.size fetched.count read.size read.bytes ↔ buffer.size = value.length ∧
          bytesOf (fun k => (e.before.store read.site).file (read.offset + k)) value.length = value) := by
  constructor
  · obtain ⟨e,he,hthread,read,hdone,hreader,hlength,hbytes⟩ :=
      SlotReads.exists_read_of_run hrun hreply hkey hbuffer hfetched hpos
    exact ⟨e,read,he,hthread,hdone,hreader,hlength,hbytes⟩
  · intro e read value hfilled _
    have hcount := SlotReads.sizedFor_of_run hrun hreply j key buffer fetched hkey hbuffer hfetched hpos
    have hsame : fetched.count = buffer.size := by
      rw [hcount] at hpos ⊢
      exact int32_of_pos hsize hpos
    obtain ⟨tr₁,tr₂,htr⟩ := List.append_of_mem hfilled.mem
    obtain ⟨-,-,-,-,c,hstep⟩ := hrun.at_event htr
    have hbytes := bytesOf_slotRead hstep hfilled.completed
    rw [hfilled.size] at hbytes
    rw [hfilled.size, readLaw_full_iff hpos hsame, hbytes]
    constructor
    · rintro ⟨hlength,hvalue⟩
      exact ⟨hlength,by rw [← hlength]; exact hvalue⟩
    · rintro ⟨hlength,hvalue⟩
      exact ⟨hlength,by rw [hlength]; exact hvalue⟩

section
open ClientOps Release

/-- The size of the buffer and the count of a `BatchGetSync` of one key. -/
def sizeAndCount : ClientReply → Option (Key × ℕ × ℤ)
  | .batchGetSync [key] [buffer] [fetched] => some (key,buffer.size,fetched.count)
  | _ => none

/-- A client puts a value of `n` bytes, and reads it into a buffer of eight bytes. -/
def putAndGet (n : ℕ) : Option (List ClientEvent × ClientPool) :=
  Pool.follow (M := clientMachine twoStores) (fun _ _ => true) (inTurn (List.replicate 6 0 ++ [1,1]))
    ⟨.init twoStores,[.batchPut 0 ["a"] [⟨value 1,n⟩],.batchGetSync 0 ["a"] [⟨value 0,8⟩]].map
      (ClientOp.run twoStores)⟩

def storedWhenRead (n : ℕ) (tr : List ClientEvent) : List (Option (List UInt8) × List UInt8) :=
  tr.filterMap fun e => (e.op.completed e.res).map fun read =>
    ((e.before.store read.site).contents read.reader,
      bytesOf (fun k => (e.before.store read.site).file (read.offset + k)) n)

theorem gets_eight (n : ℕ) (stored : List UInt8)
    (h : (putAndGet n).map (fun y => (y.2.replies[1]?.join.bind sizeAndCount,storedWhenRead n y.1)) =
      some (some ("a",8,8),[(some stored,stored)])) : ∃ tr P buffer fetched,
    ClientRun twoStores (fun _ _ => True) tr P ∧
    P.replies[1]? = some (some (.batchGetSync ["a"] [buffer] [fetched])) ∧ buffer.size = 8 ∧
    fetched.count = 8 ∧ ∀ e ∈ tr, ∀ read, e.op.completed e.res = some read →
      (e.before.store read.site).contents read.reader = some stored ∧
      bytesOf (fun k => (e.before.store read.site).file (read.offset + k)) n = stored := by
  obtain ⟨tr,P,hrun,hread⟩ := clientRun_of_schedule twoStores (fun _ _ => true) _ _ h
  obtain ⟨hreply,hstored⟩ := Prod.mk.inj hread
  obtain ⟨reply,hreply,hsome⟩ := Option.bind_eq_some_iff.mp hreply
  unfold sizeAndCount at hsome
  split at hsome
  · next key buffer fetched =>
    simp only [Option.some.injEq, Prod.mk.injEq] at hsome
    obtain ⟨rfl,hsize,hcount⟩ := hsome
    refine ⟨tr,P,buffer,fetched,hrun.ok_mono fun _ _ _ => trivial,Option.join_eq_some_iff.mp hreply,hsize,
      hcount,?_⟩
    intro e he read hdone
    have hmem : ((e.before.store read.site).contents read.reader,
        bytesOf (fun k => (e.before.store read.site).file (read.offset + k)) n) ∈ storedWhenRead n tr :=
      List.mem_filterMap.mpr ⟨e,he,by rw [hdone]; rfl⟩
    rw [hstored, List.mem_singleton] at hmem
    exact Prod.mk.inj hmem
  · cases hsome

/-- A value of eight bytes. -/
theorem readLaw_eight : ∃ tr P buffer fetched e read, ClientRun twoStores (fun _ _ => True) tr P ∧
    FilledBy tr 1 "a" buffer fetched e read ∧
    ReadLaw (List.replicate 8 1) buffer.size fetched.count read.size read.bytes := by
  obtain ⟨tr,P,buffer,fetched,hrun,hreply,hsize,hcount,hstored⟩ :=
    gets_eight 8 (List.replicate 8 1) rfl
  have hpos : 0 < fetched.count := by
    rw [hcount]
    decide
  have hlt : buffer.size < 2^32 := by
    rw [hsize]
    decide
  obtain ⟨⟨e,read,hfilled⟩,hlaw⟩ := readLaw_iff hrun hreply (j := 0) rfl rfl rfl hpos hlt
  obtain ⟨hcontents,hbytes⟩ := hstored e hfilled.mem read hfilled.completed
  rw [hfilled.reader] at hcontents
  exact ⟨tr,P,buffer,fetched,e,read,hrun,hfilled,
    (hlaw e read _ hfilled hcontents).mpr ⟨hsize,hbytes⟩⟩

/-- A value of four bytes: the count is eight, and four bytes behind the value are read too. -/
theorem exists_run_not_readLaw : ∃ tr P buffer fetched e read, ClientRun twoStores (fun _ _ => True) tr P ∧
    P.replies[1]? = some (some (.batchGetSync ["a"] [buffer] [fetched])) ∧ buffer.size = 8 ∧
    fetched.count = 8 ∧ FilledBy tr 1 "a" buffer fetched e read ∧
    (e.before.store read.site).contents "a" = some (List.replicate 4 1) ∧
    ¬ ReadLaw (List.replicate 4 1) buffer.size fetched.count read.size read.bytes := by
  obtain ⟨tr,P,buffer,fetched,hrun,hreply,hsize,hcount,hstored⟩ :=
    gets_eight 4 (List.replicate 4 1) rfl
  have hpos : 0 < fetched.count := by
    rw [hcount]
    decide
  obtain ⟨e,he,hthread,read,hdone,hreader,hlength,hbytes⟩ :=
    SlotReads.exists_read_of_run hrun hreply (j := 0) rfl rfl rfl hpos
  have hcontents := (hstored e he read hdone).1
  rw [hreader] at hcontents
  refine ⟨tr,P,buffer,fetched,e,read,hrun,hreply,hsize,hcount,
    ⟨he,hthread,hdone,hreader,hlength,hbytes⟩,hcontents,?_⟩
  intro hlaw
  have hreturned := hlaw.returned
  rw [hcount] at hreturned
  exact absurd hreturned (by decide)

end

end FalconKV
