import FalconKV.Store.Calls

/-! # The operations of a store as programs of atomic calls -/
namespace FalconKV
open AtomicCalls

abbrev StoreProg := Prog storeCalls

abbrev invoke (op : StoreCall) : StoreProg op.Res := Prog.perform (E := storeCalls) op

structure WriteItem where
  offset : ℕ
  data : Option Bytes
  size : ℕ

/-- `buffer` is where the bytes go; `reader` is the key they are read for. -/
structure ReadItem where
  offset : ℕ
  buffer : Option Bytes
  size : ℕ
  reader : Key

structure StorePutResult where
  status : Status
  offset : ℕ
  allocSize : ℕ
  deriving DecidableEq, Repr

structure StoreGetResult where
  status : Status
  size : ℕ
  deriving DecidableEq, Repr

structure PutItem where
  key : Key
  data : Option Bytes
  size : ℕ

namespace StoreOps

def write (offset : ℕ) (data : Option Bytes) (size : ℕ) : StoreProg Status :=
  if data.isNone || size == 0 then pure (.invalidArg "Write: null data or zero size")
  else do
    let r ← invoke (.pwrite offset data size)
    if r.count ≠ size then
      pure (.ioError ("Write failed at offset " ++ toString offset ++ ": " ++ r.error))
    else pure .OK

/-- `buffer` is null, or has some contents before the call. -/
def read (offset : ℕ) (buffer : Option Bytes) (size : ℕ) (reader : Key) :
    StoreProg (Status × Option Bytes) :=
  if buffer.isNone || size == 0 then pure (.invalidArg "Read: null buffer or zero size",buffer)
  else do
    let (r,bytes) ← invoke (.pread offset size reader)
    if r.count < 0 then
      pure (.ioError ("Read failed at offset " ++ toString offset ++ ": " ++ r.error),some bytes)
    else if r.count < size then
      pure (.ioError ("Short read at offset " ++ toString offset ++ ": expected " ++ toString size ++
        " got " ++ toString r.count),some bytes)
    else pure (.OK,some bytes)

def lastError (statuses : List Status) : Status :=
  statuses.foldl (fun last s => if s.isOk then last else s) .OK

def writeItem (cfg : StoreConfig) (item : WriteItem) : StoreProg Status :=
  if cfg.ioUringEnabled then invoke (.uringWrite item.offset item.data item.size)
  else write item.offset item.data item.size

def batchWrite (cfg : StoreConfig) (items : List WriteItem) : StoreProg Status := do
  let statuses ← Prog.mapEach (writeItem cfg) items
  pure (lastError statuses)

def readItem (cfg : StoreConfig) (item : ReadItem) : StoreProg (Status × Option Bytes) :=
  if cfg.ioUringEnabled then do
    let (s,bytes) ← invoke (.uringRead item.offset item.size item.reader)
    pure (s,some bytes)
  else read item.offset item.buffer item.size item.reader

def batchRead (cfg : StoreConfig) (items : List ReadItem) :
    StoreProg (Status × List (Option Bytes)) := do
  let results ← Prog.mapEach (readItem cfg) items
  pure (lastError (results.map Prod.fst),results.map Prod.snd)

def freeEntries (entries : List EvictEntry) : StoreProg ℕ := do
  Prog.forEach (fun e => invoke (.free (int64 e.offset) e.allocSize)) entries
  pure (entries.map EvictEntry.allocSize).sum

/-- Also one round of `PendingEvictQueue::EvictLoop`. The clock is read before the lock is taken. -/
def flushExpired : StoreProg ℕ := do
  let now ← invoke .getWallTimeMs
  let toFree ← invoke (.takeExpired now)
  freeEntries toFree

def flushAllForced : StoreProg ℕ := do
  let remaining ← invoke .takeAll
  freeEntries remaining

def notifyRemove (cfg : StoreConfig) (keys : List Key) : StoreProg Status :=
  if cfg.metaSync then invoke (.syncRemove cfg.storeId keys) else pure .OK

def dropCandidate (rec : StoreKeyRecord) : StoreProg Unit := do
  let _ ← invoke (.indexRemove rec.key (some rec))
  invoke (.enqueue rec.key rec.offset rec.allocSize)

def evictEntries (cfg : StoreConfig) (candidates : List StoreKeyRecord) : StoreProg Bool :=
  if candidates.isEmpty then pure false
  else do
    let s ← notifyRemove cfg (candidates.map StoreKeyRecord.key)
    if !s.isOk then pure false
    else do
      Prog.forEach dropCandidate candidates
      pure true

def tryEvictBatchLRU (cfg : StoreConfig) : StoreProg Bool := do
  let candidates ← invoke (.getLRUCandidates 16)
  if candidates.isEmpty then pure false else evictEntries cfg candidates

def forceEvictRounds (cfg : StoreConfig) (neededBytes : ℕ) : ℕ → ℕ → StoreProg ℕ
  | 0, totalEvicted => pure totalEvicted
  | rounds + 1, totalEvicted =>
    if neededBytes ≤ totalEvicted then pure totalEvicted
    else do
      let candidates ← invoke (.getLRUCandidatesBySize (neededBytes - totalEvicted) 64)
      if candidates.entries.isEmpty then pure totalEvicted
      else do
        let s ← notifyRemove cfg (candidates.entries.map StoreKeyRecord.key)
        if !s.isOk then pure totalEvicted
        else do
          Prog.forEach dropCandidate candidates.entries
          forceEvictRounds cfg neededBytes rounds (u32 (totalEvicted + candidates.totalAllocSize))

def forceEvict (cfg : StoreConfig) (neededBytes : ℕ) : StoreProg ℕ :=
  forceEvictRounds cfg neededBytes 5 0

def allocReclaiming (cfg : StoreConfig) (size : ℕ) : StoreProg Allocated := do
  let _ ← flushExpired
  let a ← invoke (.alloc size)
  if 0 ≤ a.offset then pure a
  else do
    let totalBytes ← invoke .getTotalBytes
    let _ ← forceEvict cfg (max size (u32 (totalBytes / 20)))
    let _ ← flushExpired
    let a ← invoke (.alloc size)
    if 0 ≤ a.offset then pure a
    else do
      let _ ← flushAllForced
      invoke (.alloc size)

def committedRecord (item : PutItem) (offset allocSize now : ℕ) : StoreKeyRecord where
  key := item.key
  offset := offset
  size := item.size
  allocSize := allocSize
  stat := 1
  accessTimeMs := now

def outOfSpace (key : Key) : StorePutResult := ⟨.noSpace ("Store out of space for key: " ++ key),0,0⟩

def notifyCommit (cfg : StoreConfig) (records : List StoreKeyRecord) : StoreProg Unit :=
  if cfg.metaSync then do
    let _ ← invoke (.syncCommit cfg.storeId records)
    pure ()
  else pure ()

def putInto (cfg : StoreConfig) (item : PutItem) (a : Allocated) : StoreProg StorePutResult := do
  let s ← write a.offset.toNat item.data item.size
  if !s.isOk then do
    invoke (.free a.offset a.allocSize)
    pure ⟨s,a.offset.toNat,a.allocSize⟩
  else do
    let now ← invoke .getWallTimeMs
    let record := committedRecord item a.offset.toNat a.allocSize now
    invoke (.indexPut item.key record item.data)
    notifyCommit cfg [record]
    pure ⟨.OK,a.offset.toNat,a.allocSize⟩

def allocForPut (cfg : StoreConfig) (size : ℕ) : StoreProg Allocated := do
  let a ← invoke (.alloc size)
  if 0 ≤ a.offset then pure a else allocReclaiming cfg size

def put (cfg : StoreConfig) (item : PutItem) : StoreProg StorePutResult := do
  let found ← invoke (.indexGet item.key)
  if found.isSome then pure ⟨.OK,0,0⟩
  else do
    let a ← allocForPut cfg item.size
    if a.offset < 0 then pure (outOfSpace item.key) else putInto cfg item a

/-- Hand out the slots that were granted together, in the order of the keys that need
one; the keys that come after them get theirs one by one. -/
def assignSlots (cfg : StoreConfig) (allocSize : ℕ) :
    List ℤ → List (PutItem × Bool) → StoreProg (List StorePutResult)
  | _, [] => pure []
  | offsets, (_,true) :: rest => do
    let results ← assignSlots cfg allocSize offsets rest
    pure (⟨.OK,0,0⟩ :: results)
  | offset :: offsets, (_,false) :: rest => do
    let results ← assignSlots cfg allocSize offsets rest
    pure (⟨.OK,offset.toNat,allocSize⟩ :: results)
  | [], (item,false) :: rest => do
    let a ← allocReclaiming cfg item.size
    let result := if a.offset < 0 then outOfSpace item.key else ⟨.OK,a.offset.toNat,a.allocSize⟩
    let results ← assignSlots cfg allocSize [] rest
    pure (result :: results)

def allocateBatch (cfg : StoreConfig) (items : List (PutItem × Bool)) :
    StoreProg (List StorePutResult) :=
  match items.filter fun x => !x.2 with
  | [] => assignSlots cfg 0 [] items
  | first :: rest => do
    let (offsets,allocSize) ← invoke (.batchAlloc first.1.size (u32 (first :: rest).length))
    assignSlots cfg allocSize offsets items

def toWrite (r : StorePutResult) : Bool :=
  r.status.isOk && !(r.offset == 0 && r.allocSize == 0)

def commitOne (x : PutItem × StorePutResult) : StoreProg StoreKeyRecord := do
  let now ← invoke .getWallTimeMs
  let record := committedRecord x.1 x.2.offset x.2.allocSize now
  invoke (.indexPut x.1.key record x.1.data)
  pure record

def notifyAsync (cfg : StoreConfig) (records : List StoreKeyRecord) : StoreProg Unit :=
  if cfg.metaSync && !records.isEmpty then invoke (.asyncCommit cfg.storeId records) else pure ()

def writeAndCommit (cfg : StoreConfig) (pairs : List (PutItem × StorePutResult)) :
    StoreProg (List StorePutResult) := do
  let writes := pairs.filter fun x => toWrite x.2
  let s ← batchWrite cfg (writes.map fun x => ⟨x.2.offset,x.1.data,x.1.size⟩)
  if !s.isOk then do
    Prog.forEach (fun x => invoke (.free (int64 x.2.offset) x.2.allocSize)) writes
    pure (pairs.map fun x => if toWrite x.2 then ⟨s,0,0⟩ else x.2)
  else do
    let records ← Prog.mapEach commitOne writes
    notifyAsync cfg records
    pure (pairs.map Prod.snd)

def putItems (keys : List Key) (dataPtrs : List (Option Bytes)) (sizes : List ℕ) : List PutItem :=
  (keys.zip (dataPtrs.zip sizes)).map fun x => ⟨x.1,x.2.1,x.2.2⟩

theorem map_key_putItems {keys : List Key} {dataPtrs : List (Option Bytes)} {sizes : List ℕ}
    (hd : keys.length = dataPtrs.length) (hs : keys.length = sizes.length) :
    (putItems keys dataPtrs sizes).map PutItem.key = keys := by
  have hfst : (keys.zip (dataPtrs.zip sizes)).map Prod.fst = keys :=
    List.map_fst_zip (by rw [List.length_zip]; omega)
  rw [putItems, List.map_map]
  exact hfst

theorem map_size_putItems {keys : List Key} {dataPtrs : List (Option Bytes)} {sizes : List ℕ}
    (hd : keys.length = dataPtrs.length) (hs : keys.length = sizes.length) :
    (putItems keys dataPtrs sizes).map (fun item => (item.key,item.size)) = keys.zip sizes := by
  have hsnd : (dataPtrs.zip sizes).map Prod.snd = sizes := List.map_snd_zip (by omega)
  conv_rhs => rw [← hsnd, List.zip_map_right]
  rw [putItems, List.map_map]
  rfl

def batchPutItems (cfg : StoreConfig) (items : List PutItem) : StoreProg (List StorePutResult) := do
  let present ← Prog.mapEach (fun item => do
    let found ← invoke (.indexGet item.key)
    pure found.isSome) items
  let results ← allocateBatch cfg (items.zip present)
  writeAndCommit cfg (items.zip results)

def batchPut (cfg : StoreConfig) (keys : List Key) (dataPtrs : List (Option Bytes))
    (sizes : List ℕ) : StoreProg (List StorePutResult) :=
  if keys.length ≠ dataPtrs.length ∨ keys.length ≠ sizes.length then
    pure (keys.map fun _ => ⟨.invalidArg "keys/data_ptrs/sizes size mismatch",0,0⟩)
  else batchPutItems cfg (putItems keys dataPtrs sizes)

def get (key : Key) (buffer : Option Bytes) (bufferSize : ℕ) :
    StoreProg (StoreGetResult × Option Bytes) := do
  let record ← invoke (.indexGet key)
  match record with
  | none => pure (⟨.notFound ("Key not found in store: " ++ key),0⟩,buffer)
  | some record =>
    if bufferSize < record.size then
      pure (⟨.invalidArg ("Buffer too small for key: " ++ key),0⟩,buffer)
    else do
      let (s,buffer) ← read record.offset buffer record.size key
      if !s.isOk then pure (⟨s,0⟩,buffer) else pure (⟨.OK,record.size⟩,buffer)

def contains (key : Key) : StoreProg Bool := do
  let found ← invoke (.indexGet key)
  pure found.isSome

def batchContains (keys : List Key) : StoreProg (List StoreKeyRecord × List Key) :=
  invoke (.indexBatchContains keys)

def remove (cfg : StoreConfig) (key : Key) : StoreProg Status := do
  let s ← notifyRemove cfg [key]
  if !s.isOk then pure s
  else do
    let record ← invoke (.indexRemove key none)
    match record with
    | none => pure (.notFound ("Key not found for removal: " ++ key))
    | some record => do
      invoke (.enqueue key record.offset record.allocSize)
      pure .OK

def flushes : StoreCall → Bool
  | .getWallTimeMs | .takeExpired _ | .takeAll | .free .. | .syncRemove .. => true
  | _ => false

def evicts : StoreCall → Bool
  | .getLRUCandidates _ | .getLRUCandidatesBySize .. | .indexRemove .. | .enqueue .. => true
  | op => flushes op

def reclaims : StoreCall → Bool
  | .alloc _ | .getTotalBytes => true
  | op => evicts op

abbrev FlushesOnly {α : Type} (p : StoreProg α) : Prop :=
  Prog.Makes (E := storeCalls) (fun op => flushes op = true) p

abbrev EvictsOnly {α : Type} (p : StoreProg α) : Prop :=
  Prog.Makes (E := storeCalls) (fun op => evicts op = true) p

abbrev ReclaimsOnly {α : Type} (p : StoreProg α) : Prop :=
  Prog.Makes (E := storeCalls) (fun op => reclaims op = true) p

theorem evicts_of_flushes {op : StoreCall} (h : flushes op = true) : evicts op = true := by
  cases op <;> first | rfl | exact h

theorem reclaims_of_evicts {op : StoreCall} (h : evicts op = true) : reclaims op = true := by
  cases op <;> first | rfl | exact h

theorem flushesOnly_freeEntries (entries : List EvictEntry) : FlushesOnly (freeEntries entries) := by
  have hfree : ∀ e : EvictEntry, FlushesOnly (invoke (.free (int64 e.offset) e.allocSize)) :=
    fun _ => Prog.makes_perform rfl
  exact (Prog.makes_forEach hfree entries).bind fun _ => trivial

theorem flushesOnly_flushExpired : FlushesOnly flushExpired :=
  Prog.makes_call_bind rfl fun _ => Prog.makes_call_bind rfl flushesOnly_freeEntries

theorem flushesOnly_flushAllForced : FlushesOnly flushAllForced :=
  Prog.makes_call_bind rfl flushesOnly_freeEntries

variable {cfg : StoreConfig}

theorem flushesOnly_notifyRemove (keys : List Key) : FlushesOnly (notifyRemove cfg keys) := by
  unfold notifyRemove
  split
  · exact Prog.makes_perform rfl
  · trivial

theorem evictsOnly_notifyRemove (keys : List Key) : EvictsOnly (notifyRemove cfg keys) :=
  (flushesOnly_notifyRemove keys).mono fun _ => evicts_of_flushes

theorem evictsOnly_dropCandidates (candidates : List StoreKeyRecord) :
    EvictsOnly (Prog.forEach dropCandidate candidates) := by
  refine Prog.makes_forEach (fun rec => ?_) candidates
  exact Prog.makes_call_bind rfl fun _ => Prog.makes_perform rfl

theorem evictsOnly_tryEvictBatchLRU : EvictsOnly (tryEvictBatchLRU cfg) := by
  refine Prog.makes_call_bind rfl fun candidates => ?_
  split
  · trivial
  · unfold evictEntries
    split
    · trivial
    · refine (evictsOnly_notifyRemove _).bind fun status => ?_
      split
      · trivial
      · exact (evictsOnly_dropCandidates candidates).bind fun _ => trivial

theorem evictsOnly_forceEvictRounds (neededBytes rounds totalEvicted : ℕ) :
    EvictsOnly (forceEvictRounds cfg neededBytes rounds totalEvicted) := by
  induction rounds generalizing totalEvicted with
  | zero => trivial
  | succ rounds ih =>
    unfold forceEvictRounds
    split
    · trivial
    · refine Prog.makes_call_bind rfl fun candidates => ?_
      split
      · trivial
      · refine (evictsOnly_notifyRemove _).bind fun status => ?_
        split
        · trivial
        · exact (evictsOnly_dropCandidates candidates.entries).bind fun _ => ih _

theorem evictsOnly_forceEvict (neededBytes : ℕ) : EvictsOnly (forceEvict cfg neededBytes) :=
  evictsOnly_forceEvictRounds neededBytes 5 0

theorem reclaimsOnly_alloc_or (size : ℕ) {retry : StoreProg Allocated} (h : ReclaimsOnly retry) :
    ReclaimsOnly (invoke (.alloc size) >>= fun a => if 0 ≤ a.offset then pure a else retry) := by
  refine Prog.makes_call_bind rfl fun a => ?_
  split
  · trivial
  · exact h

theorem reclaimsOnly_allocReclaiming (size : ℕ) : ReclaimsOnly (allocReclaiming cfg size) := by
  have hflush : ∀ {p : StoreProg ℕ}, FlushesOnly p → ReclaimsOnly p := fun hp =>
    hp.mono fun _ h => reclaims_of_evicts (evicts_of_flushes h)
  have hforce : ∀ neededBytes, ReclaimsOnly (forceEvict cfg neededBytes) := fun neededBytes =>
    (evictsOnly_forceEvict neededBytes).mono fun _ => reclaims_of_evicts
  refine (hflush flushesOnly_flushExpired).bind fun _ => reclaimsOnly_alloc_or size ?_
  refine Prog.makes_call_bind rfl fun totalBytes => (hforce _).bind fun _ => ?_
  refine (hflush flushesOnly_flushExpired).bind fun _ => reclaimsOnly_alloc_or size ?_
  exact (hflush flushesOnly_flushAllForced).bind fun _ => Prog.makes_perform rfl

theorem reclaimsOnly_allocForPut (size : ℕ) : ReclaimsOnly (allocForPut cfg size) :=
  reclaimsOnly_alloc_or size (reclaimsOnly_allocReclaiming size)

end StoreOps

inductive StoreOp
  | put (key : Key) (data : Option Bytes) (size : ℕ)
  | batchPut (keys : List Key) (dataPtrs : List (Option Bytes)) (sizes : List ℕ)
  | get (key : Key) (buffer : Option Bytes) (bufferSize : ℕ)
  | contains (key : Key)
  | batchContains (keys : List Key)
  | remove (key : Key)
  | evictPass
  | flushExpired
  | flushAllForced

/-- What an operation returned, next to the keys it was called for. -/
inductive StoreReply
  | put (key : Key) (result : StorePutResult)
  | batchPut (keys : List Key) (results : List StorePutResult)
  | get (key : Key) (result : StoreGetResult) (buffer : Option Bytes)
  | contains (key : Key) (found : Bool)
  | batchContains (hits : List StoreKeyRecord) (misses : List Key)
  | remove (key : Key) (status : Status)
  | evictPass (evicted : Bool)
  | flushed (reclaimed : ℕ)

def StoreOp.run (cfg : StoreConfig) : StoreOp → StoreProg StoreReply
  | put key data size => StoreReply.put key <$> StoreOps.put cfg ⟨key,data,size⟩
  | batchPut keys dataPtrs sizes =>
    StoreReply.batchPut keys <$> StoreOps.batchPut cfg keys dataPtrs sizes
  | get key buffer bufferSize =>
    (fun r => StoreReply.get key r.1 r.2) <$> StoreOps.get key buffer bufferSize
  | contains key => StoreReply.contains key <$> StoreOps.contains key
  | batchContains keys =>
    (fun r => StoreReply.batchContains r.1 r.2) <$> StoreOps.batchContains keys
  | remove key => StoreReply.remove key <$> StoreOps.remove cfg key
  | evictPass => StoreReply.evictPass <$> StoreOps.tryEvictBatchLRU cfg
  | flushExpired => StoreReply.flushed <$> StoreOps.flushExpired
  | flushAllForced => StoreReply.flushed <$> StoreOps.flushAllForced

end FalconKV
