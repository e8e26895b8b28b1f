import FalconKV.AtomicCalls.Machine
import FalconKV.Common.SlotAllocator
import FalconKV.Store.MetaIndex
import FalconKV.Store.PendingEvictQueue

/-! # The atomic calls of an open store

Every call takes the lock of one component, or is one system call on the data file,
or one call of the Meta client. Some calls carry labels that no step reads: what a
record stores, which snapshot a removal acts on, and for which key a read is made.
-/
namespace FalconKV
open AtomicCalls

/-- The memory behind a pointer. -/
abbrev Bytes := ℕ → UInt8

structure StoreConfig where
  storeId : ℕ
  capacityBytes : ℕ
  slotSizeBytes : ℕ
  evictGracePeriodMs : ℕ
  ioUringEnabled : Bool
  /-- `meta_sync_client_` is not null -/
  metaSync : Bool

structure Store where
  index : StoreMetaIndex
  allocator : SlotAllocator
  pending : PendingEvictQueue
  file : Bytes

/-- A freshly initialised store. -/
def Store.init (cfg : StoreConfig) : Store where
  index := .create
  allocator := .create cfg.capacityBytes cfg.slotSizeBytes
  pending := .create cfg.evictGracePeriodMs
  file := fun _ => 0

structure Transferred where
  count : ℤ
  error : String
  deriving DecidableEq, Repr

inductive StoreCall
  | getWallTimeMs
  | indexGet (key : Key)
  | indexBatchContains (keys : List Key)
  | indexPut (key : Key) (record : StoreKeyRecord) (data : Option Bytes)
  | indexRemove (key : Key) (snapshot : Option StoreKeyRecord)
  | getLRUCandidates (maxCount : ℕ)
  | getLRUCandidatesBySize (neededBytes maxCount : ℕ)
  | getAllCommittedEntries
  | alloc (size : ℕ)
  | batchAlloc (size count : ℕ)
  | free (offset : ℤ) (allocSize : ℕ)
  | getTotalBytes
  | enqueue (key : Key) (offset allocSize : ℕ)
  | takeExpired (now : ℕ)
  | takeAll
  | pwrite (offset : ℕ) (data : Option Bytes) (size : ℕ)
  | uringWrite (offset : ℕ) (data : Option Bytes) (size : ℕ)
  | pread (offset size : ℕ) (reader : Key)
  | uringRead (offset size : ℕ) (reader : Key)
  | syncCommit (storeId : ℕ) (records : List StoreKeyRecord)
  | asyncCommit (storeId : ℕ) (records : List StoreKeyRecord)
  | syncRemove (storeId : ℕ) (keys : List Key)

abbrev StoreCall.Res : StoreCall → Type
  | getWallTimeMs => ℕ
  | indexGet _ => Option StoreKeyRecord
  | indexBatchContains _ => List StoreKeyRecord × List Key
  | indexPut .. => Unit
  | indexRemove .. => Option StoreKeyRecord
  | getLRUCandidates _ => List StoreKeyRecord
  | getLRUCandidatesBySize .. => EvictCandidates
  | getAllCommittedEntries => List StoreKeyRecord
  | alloc _ => Allocated
  | batchAlloc .. => List ℤ × ℕ
  | free .. => Unit
  | getTotalBytes => ℕ
  | enqueue .. => Unit
  | takeExpired _ => List EvictEntry
  | takeAll => List EvictEntry
  | pwrite .. => Transferred
  | uringWrite .. => Status
  | pread .. => Transferred × Bytes
  | uringRead .. => Status × Bytes
  | syncCommit .. => Status
  | asyncCommit .. => Unit
  | syncRemove .. => Status

abbrev storeCalls : Signature := ⟨StoreCall,StoreCall.Res⟩

inductive Transfer
  | full
  | short (count : ℤ) (error : String)

/-- What the surroundings decide in one call: the clock, the outcome of a transfer
and the bytes it leaves behind when it fails, the answer of the Meta client. -/
structure StoreChoice where
  now : ℕ := 0
  transfer : Transfer := .full
  garbage : Bytes := fun _ => 0
  status : Status := .OK

def overwrite (file : Bytes) (offset : ℕ) (data : Bytes) (size : ℕ) : Bytes :=
  fun i => if offset ≤ i ∧ i < offset + size then data (i - offset) else file i

/-- A buffer after a transfer of `size` bytes: what was not read is arbitrary. -/
def readInto (file : Bytes) (offset : ℕ) (count : ℤ) (garbage : Bytes) : Bytes :=
  fun i => if (i : ℤ) < count then file (offset + i) else garbage i

namespace Store

/-- A write through a null pointer cannot be full; a failed one may leave anything in its range. -/
def pwrite (s : Store) (c : StoreChoice) (offset : ℕ) (data : Option Bytes) (size : ℕ) :
    Option (Transferred × Store) :=
  match c.transfer, data with
  | .full, some d => some (⟨size,""⟩,{ s with file := overwrite s.file offset d size })
  | .full, none => none
  | .short count error, _ =>
    if count < size then
      some (⟨count,error⟩,{ s with file := overwrite s.file offset c.garbage size })
    else none

/-- One request of an engine batch; its status is ok iff it completed in full. -/
def uringWrite (s : Store) (c : StoreChoice) (offset : ℕ) (data : Option Bytes) (size : ℕ) :
    Option (Status × Store) :=
  match c.transfer, data with
  | .full, some d => some (.OK,{ s with file := overwrite s.file offset d size })
  | .full, none => none
  | .short _ error, _ =>
    some (.ioError error,{ s with file := overwrite s.file offset c.garbage size })

def pread (s : Store) (c : StoreChoice) (offset size : ℕ) : Option (Transferred × Bytes) :=
  match c.transfer with
  | .full => some (⟨size,""⟩,readInto s.file offset size c.garbage)
  | .short count error =>
    if count < size then some (⟨count,error⟩,readInto s.file offset count c.garbage) else none

def uringRead (s : Store) (c : StoreChoice) (offset size : ℕ) : Status × Bytes :=
  match c.transfer with
  | .full => (.OK,readInto s.file offset size c.garbage)
  | .short count error => (.ioError error,readInto s.file offset count c.garbage)

def step (op : StoreCall) (c : StoreChoice) (s : Store) : Option (op.Res × Store) :=
  match op with
  | .getWallTimeMs => some (c.now,s)
  | .indexGet key => some ((s.index.get key c.now).1,{ s with index := (s.index.get key c.now).2 })
  | .indexBatchContains keys =>
    some ((s.index.batchContains c.now keys).1,
      { s with index := (s.index.batchContains c.now keys).2 })
  | .indexPut key record _ => some ((),{ s with index := s.index.put key record })
  | .indexRemove key _ => some ((s.index.remove key).1,{ s with index := (s.index.remove key).2 })
  | .getLRUCandidates maxCount => some (s.index.getLRUCandidates maxCount,s)
  | .getLRUCandidatesBySize neededBytes maxCount =>
    some (s.index.getLRUCandidatesBySize neededBytes maxCount,s)
  | .getAllCommittedEntries => some (s.index.getAllCommittedEntries,s)
  | .alloc size =>
    some ((s.allocator.alloc size).1,{ s with allocator := (s.allocator.alloc size).2 })
  | .batchAlloc size count =>
    some ((s.allocator.batchAlloc size count).1,
      { s with allocator := (s.allocator.batchAlloc size count).2 })
  | .free offset allocSize => some ((),{ s with allocator := s.allocator.free offset allocSize })
  | .getTotalBytes => some (s.allocator.getTotalBytes,s)
  | .enqueue key offset allocSize =>
    some ((),{ s with pending := s.pending.enqueue key offset allocSize c.now })
  | .takeExpired now =>
    some ((s.pending.takeExpired now).1,{ s with pending := (s.pending.takeExpired now).2 })
  | .takeAll => some (s.pending.takeAll.1,{ s with pending := s.pending.takeAll.2 })
  | .pwrite offset data size => s.pwrite c offset data size
  | .uringWrite offset data size => s.uringWrite c offset data size
  | .pread offset size _ => (s.pread c offset size).map fun r => (r,s)
  | .uringRead offset size _ => some (s.uringRead c offset size,s)
  | .syncCommit .. => some (c.status,s)
  | .asyncCommit .. => some ((),s)
  | .syncRemove .. => some (c.status,s)

end Store

/-- The store with a Meta client that may answer anything. -/
def storeMachine : Machine storeCalls Store := ⟨StoreChoice,Store.step⟩

@[simp] theorem storeMachine_step : storeMachine.step = Store.step := rfl

end FalconKV
