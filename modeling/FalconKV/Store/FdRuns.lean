import FalconKV.AtomicCalls.Borrowing
import FalconKV.Store.FdCache

/-! # Descriptors that are in use

The accessor of a client looks descriptors up and reads and writes through them afterwards, when
the cache does not know of it any more. What a call has looked up is lent to it until it returns.
-/
namespace FalconKV
open AtomicCalls

/-- What a call of the accessor holds: the path of a store's file, or a descriptor for it. -/
inductive FdRef
  | path (storeId : ℕ) (dataFile : String)
  | fd (storeId : ℕ) (fd : ℤ)
  deriving DecidableEq

inductive FdCall
  | registerStoreFile (storeId : ℕ) (dataFile : String)
  | getStoreFilePath (storeId : ℕ)
  /-- `FdCache::GetFd`; the store for which it is called -/
  | getFd (storeId : ℕ) (dataFile : String)
  | getBufferedFd (storeId : ℕ) (dataFile : String)
  | pread (storeId : ℕ) (fd : ℤ) (offset size : ℕ)
  | pwrite (storeId : ℕ) (fd : ℤ) (offset size : ℕ)
  /-- in which order the threads of the pool make their reads -/
  | schedule (count : ℕ)
  /-- a call of liburing, for reads of these stores through these descriptors -/
  | ring (reads : List (ℕ × ℤ)) (op : UringCall)
  /-- the call returns that has looked these descriptors up -/
  | leave (storeId : ℕ) (fds : List ℤ)
  | evictIdle (now idleThresholdMs : ℕ)
  | closeAll
  /-- the rest of the process -/
  | openElsewhere (path : String) (direct : Bool)
  | closeElsewhere (fd : ℕ)

abbrev FdCall.Res : FdCall → Type
  | registerStoreFile .. => Bool
  | getStoreFilePath _ => String
  | getFd .. => ℤ
  | getBufferedFd .. => ℤ
  | pread .. => Transferred
  | pwrite .. => Transferred
  | schedule _ => List ℕ
  | ring _ op => op.Res
  | leave .. => Unit
  | evictIdle .. => Unit
  | closeAll => Unit
  | openElsewhere .. => ℤ
  | closeElsewhere _ => Unit

abbrev fdCalls : Signature := ⟨FdCall,FdCall.Res⟩

structure FdRunChoice extends FdChoice where
  transferred : Transferred := ⟨0,""⟩
  order : List ℕ := []
  call : ℕ := 0
  got : Bool := true
  submitted : Except ℤ ℕ := .ok 0
  cqe : Option Cqe := none

def FdRunChoice.ringAnswer (c : FdRunChoice) : (op : UringCall) → op.Res
  | .enter _ => c.call
  | .getSqe .. => c.got
  | .submit _ => c.submitted
  | .waitCqe _ => c.cqe
  | .cqeSeen _ => ()
  | .complete => ()

namespace FdWorld

def registerStoreFile (x : FdWorld) (storeId : ℕ) (dataFile : String) : Bool × FdWorld :=
  if x.storeFiles.lookup storeId = some dataFile then (false,x)
  else (true,{ x with
    storeFiles := x.storeFiles.insert storeId dataFile
    registered := x.registered ++ [(storeId,dataFile)] })

def step (op : FdCall) (c : FdRunChoice) (x : FdWorld) : Option (op.Res × FdWorld) :=
  match op with
  | .registerStoreFile storeId dataFile => some (x.registerStoreFile storeId dataFile)
  | .getStoreFilePath storeId => some ((x.storeFiles.lookup storeId).getD "",x)
  | .getFd _ dataFile => (x.lookUp c.toFdChoice dataFile).map fun y => (y.1.bestFd,y.2)
  | .getBufferedFd _ dataFile => (x.lookUp c.toFdChoice dataFile).map fun y => (y.1.bufferedFd,y.2)
  | .pread .. => some (c.transferred,x)
  | .pwrite .. => some (c.transferred,x)
  | .schedule count => if c.order.Perm (List.range count) then some (c.order,x) else none
  | .ring _ op => some (c.ringAnswer op,x)
  | .leave .. => some ((),x)
  | .evictIdle now idleThresholdMs => some ((),x.evictIdle now idleThresholdMs)
  | .closeAll => some ((),x.closeAll)
  | .openElsewhere path direct => x.openFile c.buffered ⟨path,direct,false⟩
  | .closeElsewhere fd =>
    if (x.table fd).any fun file => !file.byCache then
      some ((),{ x with table := Function.update x.table fd none })
    else none

end FdWorld

def fdMachine : Machine fdCalls FdWorld := ⟨FdRunChoice,FdWorld.step⟩

abbrev FdProg := Prog fdCalls
abbrev FdEvent := Event fdCalls FdWorld

namespace FdOps

abbrev call (op : FdCall) : FdProg op.Res := Prog.perform (E := fdCalls) op

def getBufferedFd (storeId : ℕ) : FdProg ℤ := do
  let path ← call (.getStoreFilePath storeId)
  if path = "" then pure (-1) else call (.getBufferedFd storeId path)

def getDirectFd (storeId : ℕ) : FdProg ℤ := do
  let path ← call (.getStoreFilePath storeId)
  if path = "" then pure (-1) else call (.getFd storeId path)

variable (acc : NodeLocalAccessor)

structure Selected where
  fd : ℤ
  held : List ℤ

def select (request : NodeLocalReadRequest) : FdProg (Option Selected) := do
  let bufFd ← getBufferedFd request.storeId
  if bufFd < 0 then pure none
  else do
    let directFd ← getDirectFd request.storeId
    pure (some ⟨if acc.useDirect bufFd directFd request then directFd else bufFd,[bufFd,directFd]⟩)

def leave (request : NodeLocalReadRequest) (selected : Option Selected) : FdProg Unit :=
  match selected with
  | none => pure ()
  | some s => call (.leave request.storeId s.held)

def transferStatus (verb : String) (request : NodeLocalReadRequest) (count : ℤ) : Status :=
  if count < 0 then
    .ioError ("NodeLocalAccessor: p" ++ verb ++ " failed for store_id " ++ toString request.storeId)
  else if count < request.size then
    .ioError ("NodeLocalAccessor: partial " ++ verb ++ " for store_id " ++ toString request.storeId)
  else .OK

def read (request : NodeLocalReadRequest) : FdProg Status := do
  let selected ← select acc request
  match selected with
  | none => pure (NodeLocalAccessor.noFile request)
  | some s => do
    let nread ← call (.pread request.storeId s.fd request.offset request.size)
    leave request (some s)
    pure (transferStatus "read" request nread.count)

def write (request : NodeLocalReadRequest) : FdProg Status := do
  let selected ← select acc request
  match selected with
  | none => pure (NodeLocalAccessor.noFile request)
  | some s => do
    let written ← call (.pwrite request.storeId s.fd request.offset request.size)
    leave request (some s)
    pure (transferStatus "write" request written.count)

def readTask (x : NodeLocalReadRequest × Option Selected) : FdProg Status :=
  match x.2 with
  | none => pure (NodeLocalAccessor.noFile x.1)
  | some s => do
    let nread ← call (.pread x.1.storeId s.fd x.1.offset x.1.size)
    if nread.count < 0 then pure (.ioError ("NodeLocalAccessor: pread failed, errno=" ++ nread.error))
    else if nread.count < x.1.size then
      pure (.ioError ("NodeLocalAccessor: partial read, expected=" ++ toString x.1.size ++ " got=" ++
        toString nread.count))
    else pure .OK

def readAgain (x : NodeLocalReadRequest × Option Selected) : FdProg Status :=
  if x.2.isNone then pure (NodeLocalAccessor.noFile x.1) else read acc x.1

def runTasks (tasks : List (NodeLocalReadRequest × Option Selected)) : FdProg (List Status) := do
  let order ← call (.schedule tasks.length)
  let done ← Prog.mapEach (fun i => do
    let s ← ((tasks[i]?).map readTask).getD (pure .OK)
    pure (i,s)) order
  pure (NodeLocalAccessor.scatter (List.replicate tasks.length .OK) done)

def uringRead (request : NodeLocalReadRequest) (s : Selected) : ℕ × UringIORequest :=
  (request.storeId,⟨request.offset,request.size,request.buffer,s.fd⟩)

def uringReads (tasks : List (NodeLocalReadRequest × Option Selected)) : List ((ℕ × UringIORequest) × ℕ) :=
  tasks.zipIdx.filterMap fun x => x.1.2.map fun s => (uringRead x.1.1 s,x.2)

def resolvedStatus (x : NodeLocalReadRequest × Option Selected) : Status :=
  if x.2.isNone then NodeLocalAccessor.noFile x.1 else .OK

def engineRead (engine : IOUringEngine) (reads : List (ℕ × UringIORequest)) :
    FdProg (ℕ × List UringIOResult) :=
  (engine.batchRead (-1) (reads.map Prod.snd)).interp fun op =>
    call (.ring (reads.map fun read => (read.1,read.2.fd)) op)

def readThroughRing (engine : IOUringEngine) (tasks : List (NodeLocalReadRequest × Option Selected)) :
    FdProg (List Status) :=
  if (uringReads tasks).isEmpty then pure (tasks.map resolvedStatus)
  else do
    let r ← engineRead engine ((uringReads tasks).map Prod.fst)
    pure (NodeLocalAccessor.scatter (tasks.map resolvedStatus)
      (((uringReads tasks).map Prod.snd).zip (r.2.map UringIOResult.status)))

def readSelected (tasks : List (NodeLocalReadRequest × Option Selected)) : FdProg (List Status) :=
  match acc.ioUringEngine.filter IOUringEngine.available with
  | some engine => readThroughRing engine tasks
  | none => if acc.ioPool then runTasks tasks else Prog.mapEach (readAgain acc) tasks

/-- All files are looked up first. -/
def batchRead (requests : List NodeLocalReadRequest) : FdProg (List Status) :=
  if requests.isEmpty then pure []
  else do
    let selected ← Prog.mapEach (select acc) requests
    let statuses ← readSelected acc (requests.zip selected)
    Prog.forEach (fun x => leave x.1 x.2) (requests.zip selected)
    pure statuses

end FdOps

/-- What a thread of the process may do. The rest of the process is threads too. -/
inductive FdOp
  | registerStoreFile (storeId : ℕ) (dataFile : String)
  | read (acc : NodeLocalAccessor) (request : NodeLocalReadRequest)
  | write (acc : NodeLocalAccessor) (request : NodeLocalReadRequest)
  | batchRead (acc : NodeLocalAccessor) (requests : List NodeLocalReadRequest)
  | evictIdle (now idleThresholdMs : ℕ)
  | close
  | openElsewhere (path : String) (direct : Bool)
  | closeElsewhere (fd : ℕ)

def FdOp.run : FdOp → FdProg (List Status)
  | registerStoreFile storeId dataFile => do
    let _ ← FdOps.call (.registerStoreFile storeId dataFile)
    pure []
  | read acc request => do
    let s ← FdOps.read acc request
    pure [s]
  | write acc request => do
    let s ← FdOps.write acc request
    pure [s]
  | batchRead acc requests => FdOps.batchRead acc requests
  | evictIdle now idleThresholdMs => do
    FdOps.call (.evictIdle now idleThresholdMs)
    pure []
  | close => do
    FdOps.call .closeAll
    pure []
  | openElsewhere path direct => do
    let _ ← FdOps.call (.openElsewhere path direct)
    pure []
  | closeElsewhere fd => do
    FdOps.call (.closeElsewhere fd)
    pure []

structure FdLookup where
  dataFile : String
  direct : Bool
  fd : ℤ

def FdCall.lookup : (op : FdCall) → op.Res → Option FdLookup
  | .getFd _ dataFile, r => some ⟨dataFile,true,r⟩
  | .getBufferedFd _ dataFile, r => some ⟨dataFile,false,r⟩
  | _, _ => none

/-- The calls that close descriptors of the cache. -/
def FdCall.closes : FdCall → Bool
  | .evictIdle .. => true
  | .closeAll => true
  | _ => false

namespace FdWorld
variable {x y : FdWorld} {op : FdCall} {c : FdRunChoice} {r : op.Res}

theorem Tight.congr (h : x.Tight) (htable : y.table = x.table) (hmap : y.fdMap = x.fdMap)
    (hstray : y.strayCloses = x.strayCloses) : y.Tight where
  entries := by
    intro path entry hentry
    rw [hmap] at hentry
    obtain ⟨hdirect,hbuffered,htogether,hlowest⟩ := h.entries path entry hentry
    rw [← htable] at hdirect hbuffered
    exact ⟨hdirect,hbuffered,htogether,hlowest⟩
  covers := by
    intro fd file hfile hcache
    rw [htable] at hfile
    rw [hmap]
    exact h.covers fd file hfile hcache
  noStray := hstray.trans h.noStray

/-- The descriptors of the rest of the process are no concern of the cache. -/
theorem Tight.elsewhere (h : x.Tight) (hmap : y.fdMap = x.fdMap) (hstray : y.strayCloses = x.strayCloses)
    (hsame : ∀ fd file, file.byCache = true → (y.table fd = some file ↔ x.table fd = some file)) :
    y.Tight where
  entries := by
    intro path entry hentry
    rw [hmap] at hentry
    obtain ⟨hdirect,hbuffered,htogether,hlowest⟩ := h.entries path entry hentry
    exact ⟨fun hpos => (hsame _ _ rfl).mpr (hdirect hpos),
      fun hpos => (hsame _ _ rfl).mpr (hbuffered hpos),htogether,hlowest⟩
  covers := by
    intro fd file hfile hcache
    rw [hmap]
    exact h.covers fd file ((hsame fd file hcache).mp hfile) hcache
  noStray := hstray.trans h.noStray

theorem openElsewhere_same {got : Option ℕ} {path : String} {direct : Bool} {fd : ℤ}
    (h : x.openFile got ⟨path,direct,false⟩ = some (fd,y)) (n : ℕ) (file : OpenFile)
    (hcache : file.byCache = true) : y.table n = some file ↔ x.table n = some file := by
  have hopens := opens_of_openFile h
  constructor
  · intro hn
    rcases hopens.added n file hn with hold | ⟨rfl,-⟩
    · exact hold
    · cases hcache
  · exact hopens.kept n file

theorem closeElsewhere_same {fd : ℕ} (h : (x.table fd).any (fun file => !file.byCache) = true) (n : ℕ)
    (file : OpenFile) (hcache : file.byCache = true) :
    Function.update x.table fd none n = some file ↔ x.table n = some file := by
  by_cases hn : n = fd
  · subst hn
    rw [Function.update_self]
    constructor
    · intro hnone
      cases hnone
    · intro hn
      rw [hn, Option.any_some, hcache] at h
      cases h
  · rw [Function.update_of_ne hn]

theorem registerStoreFile_same (x : FdWorld) (storeId : ℕ) (dataFile : String) :
    (x.registerStoreFile storeId dataFile).2.table = x.table ∧
      (x.registerStoreFile storeId dataFile).2.fdMap = x.fdMap ∧
      (x.registerStoreFile storeId dataFile).2.strayCloses = x.strayCloses := by
  unfold registerStoreFile
  split <;> exact ⟨rfl,rfl,rfl⟩

theorem Tight.step (h : x.Tight) (hs : x.step op c = some (r,y)) : y.Tight := by
  cases op with
  | registerStoreFile storeId dataFile =>
    obtain rfl : (x.registerStoreFile storeId dataFile).2 = y := congrArg Prod.snd (Option.some.inj hs)
    obtain ⟨htable,hmap,hstray⟩ := registerStoreFile_same x storeId dataFile
    exact h.congr htable hmap hstray
  | getFd storeId dataFile =>
    obtain ⟨⟨entry,y'⟩,hlook,he⟩ := Option.map_eq_some_iff.mp hs
    cases he
    exact (h.lookUp hlook).tight
  | getBufferedFd storeId dataFile =>
    obtain ⟨⟨entry,y'⟩,hlook,he⟩ := Option.map_eq_some_iff.mp hs
    cases he
    exact (h.lookUp hlook).tight
  | schedule count =>
    unfold FdWorld.step at hs
    dsimp only at hs
    split at hs
    · cases hs
      exact h
    · cases hs
  | evictIdle now idleThresholdMs =>
    cases hs
    exact (h.evictIdle now idleThresholdMs).tight
  | closeAll =>
    cases hs
    exact h.closeAll.1
  | openElsewhere path direct =>
    have hopens := opens_of_openFile hs
    exact h.elsewhere hopens.fdMap hopens.strayCloses (openElsewhere_same hs)
  | closeElsewhere fd =>
    unfold FdWorld.step at hs
    dsimp only at hs
    split at hs
    · next hother =>
      cases hs
      exact h.elsewhere rfl rfl (closeElsewhere_same hother)
    · cases hs
  | _ =>
    cases hs
    exact h

/-- The descriptor of an entry that a lookup answers. -/
def answer (entry : FdEntry) (direct : Bool) : ℤ := if direct then entry.bestFd else entry.bufferedFd

/-- A lookup that has failed answers -1. -/
theorem LookedUp.lowest_answer {dataFile : String} {entry : TimedFdEntry}
    (h : LookedUp x y dataFile entry) (direct : Bool) : -1 ≤ answer entry.toFdEntry direct := by
  obtain ⟨hdirect,hbuffered⟩ := (h.tight.entries dataFile entry h.lookup).lowest
  unfold answer FdEntry.bestFd
  split
  · split
    · exact hdirect
    · exact hbuffered
  · exact hbuffered

/-- A lookup answers what stands in the entry that it leaves. -/
theorem Tight.lookup_step (h : x.Tight) (hs : x.step op c = some (r,y)) {a : FdLookup}
    (ha : op.lookup r = some a) :
    ∃ entry, LookedUp x y a.dataFile entry ∧ a.fd = answer entry.toFdEntry a.direct := by
  cases op with
  | getFd storeId dataFile =>
    obtain ⟨⟨entry,y'⟩,hlook,he⟩ := Option.map_eq_some_iff.mp hs
    cases he
    cases ha
    exact ⟨entry,h.lookUp hlook,rfl⟩
  | getBufferedFd storeId dataFile =>
    obtain ⟨⟨entry,y'⟩,hlook,he⟩ := Option.map_eq_some_iff.mp hs
    cases he
    cases ha
    exact ⟨entry,h.lookUp hlook,rfl⟩
  | _ => cases ha

theorem LookedUp.open {dataFile : String} {entry : TimedFdEntry} (h : LookedUp x y dataFile entry)
    {direct : Bool} (hpos : 0 ≤ answer entry.toFdEntry direct) :
    ∃ mode, y.table (answer entry.toFdEntry direct).toNat = some ⟨dataFile,mode,true⟩ ∧
      (mode = true → direct = true) := by
  have hopen := h.tight.entries dataFile entry h.lookup
  unfold answer FdEntry.bestFd at hpos ⊢
  split
  · next hdirect =>
    rw [if_pos hdirect] at hpos
    split
    · next hd => exact ⟨true,hopen.direct hd,fun _ => hdirect⟩
    · next hd =>
      rw [if_neg hd] at hpos
      exact ⟨false,hopen.buffered hpos,fun hmode => by cases hmode⟩
  · next hdirect =>
    rw [if_neg hdirect] at hpos
    exact ⟨false,hopen.buffered hpos,fun hmode => by cases hmode⟩

/-- The cache leaves the descriptors of the rest of the process alone. -/
theorem Tight.others_kept (h : x.Tight) (hs : x.step op c = some (r,y)) {fd : ℕ} {file : OpenFile}
    (hfile : x.table fd = some file) (hother : file.byCache = false) (hop : op ≠ .closeElsewhere fd) :
    y.table fd = some file := by
  have hround : ∀ {p : TimedFdEntry → Bool} {z : FdWorld}, Evicted p x.fdMap.entries x z →
      z.table fd = some file := by
    intro p z hz
    rcases hz.table fd with hsame | ⟨-,e,he,-,hmem⟩
    · exact hsame.trans hfile
    · obtain ⟨mode,htable,-⟩ := (h.entries _ _ (lookup_of_mem_entries.mpr he)).table_of_mem hmem
      rw [hfile] at htable
      cases htable
      cases hother
  cases op with
  | registerStoreFile storeId dataFile =>
    obtain rfl : (x.registerStoreFile storeId dataFile).2 = y := congrArg Prod.snd (Option.some.inj hs)
    rw [(registerStoreFile_same x storeId dataFile).1]
    exact hfile
  | getFd storeId dataFile =>
    obtain ⟨⟨entry,y'⟩,hlook,he⟩ := Option.map_eq_some_iff.mp hs
    cases he
    exact (h.lookUp hlook).kept fd file hfile
  | getBufferedFd storeId dataFile =>
    obtain ⟨⟨entry,y'⟩,hlook,he⟩ := Option.map_eq_some_iff.mp hs
    cases he
    exact (h.lookUp hlook).kept fd file hfile
  | schedule count =>
    unfold FdWorld.step at hs
    dsimp only at hs
    split at hs
    · cases hs
      exact hfile
    · cases hs
  | evictIdle now idleThresholdMs =>
    cases hs
    exact hround (h.evictIdle now idleThresholdMs)
  | closeAll =>
    cases hs
    have hgone := hround (h.evictAll fun _ => true)
    rw [x.closeAll_eq]
    exact hgone
  | openElsewhere path direct => exact (opens_of_openFile hs).kept fd file hfile
  | closeElsewhere n =>
    unfold FdWorld.step at hs
    dsimp only at hs
    split at hs
    · cases hs
      have hne : fd ≠ n := by
        rintro rfl
        exact hop rfl
      dsimp only
      rwa [Function.update_of_ne hne]
    · cases hs
  | _ =>
    cases hs
    exact hfile

/-- What the cache has done in a run is in order. -/
structure Accounted (tr : List FdEvent) (x : FdWorld) : Prop where
  tight : x.Tight
  /-- a descriptor that a lookup answers is open on the file, and direct only if it may be -/
  answers : ∀ e ∈ tr, ∀ a, e.op.lookup e.res = some a → a.fd = -1 ∨ 0 ≤ a.fd ∧
    ∃ mode, e.after.table a.fd.toNat = some ⟨a.dataFile,mode,true⟩ ∧ (mode = true → a.direct = true)
  others : ∀ e ∈ tr, ∀ fd file, e.before.table fd = some file → file.byCache = false →
    e.op ≠ .closeElsewhere fd → e.after.table fd = some file
  /-- `CloseAll` leaves nothing of the cache open -/
  closed : ∀ e ∈ tr, e.op = .closeAll → ∀ fd file, e.after.table fd = some file → file.byCache = false

end FdWorld

/-- Whatever the threads of a process do with the cache and with other files, in any order: the
descriptors that the cache has opened and not closed are those of its entries, each in one place,
and no other descriptor is closed by it. -/
theorem fds_accounted {α : Type} {start : FdProg α → Prop} {table : ℕ → Option OpenFile}
    {tr : List FdEvent} {P : Pool fdCalls FdWorld α}
    (htable : ∀ fd file, table fd = some file → file.byCache = false)
    (hr : Run fdMachine start (fun _ _ => True) ⟨.init table,[]⟩ tr P) : P.state.Accounted tr := by
  apply hr.invariant FdWorld.Accounted
  · exact ⟨FdWorld.tight_init htable,by simp,by simp,by simp⟩
  · intro tr i x op c r y h _ hs
    have hlast : ∀ {e : FdEvent} {Q : FdEvent → Prop}, (∀ e ∈ tr, Q e) → Q ⟨i,x,op,r,y⟩ →
        e ∈ tr ++ [⟨i,x,op,r,y⟩] → Q e := by
      intro e Q hold hnew he
      rcases List.mem_append.mp he with he | he
      · exact hold e he
      · obtain rfl := List.mem_singleton.mp he
        exact hnew
    refine ⟨h.tight.step hs,fun e he => ?_,fun e he => ?_,fun e he => ?_⟩
    · refine hlast h.answers ?_ he
      intro a ha
      obtain ⟨entry,hlooked,hfd⟩ := h.tight.lookup_step hs ha
      have hlowest := hlooked.lowest_answer a.direct
      rw [hfd]
      by_cases hpos : 0 ≤ FdWorld.answer entry.toFdEntry a.direct
      · exact .inr ⟨hpos,hlooked.open hpos⟩
      · left
        omega
    · refine hlast h.others ?_ he
      intro fd file hfile hother hop
      exact h.tight.others_kept hs hfile hother hop
    · refine hlast h.closed ?_ he
      rintro hop fd file hfile
      dsimp only at hop
      subst hop
      cases hs
      exact (h.tight.closeAll.2.2 fd file hfile).2

def plainAccessor : NodeLocalAccessor := ⟨none,false,4096⟩

/-- A process in which nothing is open registers a file, reads a page of it and closes the cache;
the descriptors that lookups gave, and whether they are open at the end. -/
theorem fds_accounted_page : ∃ tr P,
    Run fdMachine (fun p => ∃ op : FdOp, p = op.run) (fun _ _ => True) ⟨.init fun _ => none,[]⟩ tr P ∧
      tr.filterMap (fun e => (e.op.lookup e.res).map FdLookup.fd) = [5,6] ∧
      P.state.Accounted tr ∧ P.state.table 5 = none ∧ P.state.table 6 = none := by
  have hsched : (Pool.follow (M := fdMachine) (fun _ _ => true)
      [(0,{}),(1,{}),(1,{ buffered := some 5, direct := some 6 }),(1,{}),(1,{}),
        (1,{ transferred := ⟨4096,""⟩ }),(1,{}),(2,{})]
      ⟨.init fun _ => none,[FdOp.registerStoreFile 1 "d",.read plainAccessor ⟨1,0,0,4096⟩,.close].map
        FdOp.run⟩).map
      (fun x => (x.1.filterMap fun e => (e.op.lookup e.res).map FdLookup.fd,
        x.2.state.table 5,x.2.state.table 6)) = some ([5,6],none,none) := by decide
  obtain ⟨tr,P,hr,hv⟩ := run_of_schedule (fun p => ∃ op : FdOp, p = op.run) (by simp) hsched
  obtain ⟨hfds,hfive,hsix⟩ : _ ∧ _ ∧ _ := by simpa using hv
  have hr : Run fdMachine (fun p => ∃ op : FdOp, p = op.run) (fun _ _ => True) ⟨.init fun _ => none,[]⟩ tr P :=
    hr.ok_mono fun _ _ _ => trivial
  exact ⟨tr,P,hr,hfds,fds_accounted (by simp) hr,hfive,hsix⟩

namespace FdWorld
variable {x y : FdWorld} {op : FdCall} {c : FdRunChoice} {r : op.Res}

/-- What closes no descriptor leaves every entry its descriptors. -/
theorem Tight.entry_kept (h : x.Tight) (hop : op.closes = false) (hs : x.step op c = some (r,y))
    {dataFile : String} {entry : TimedFdEntry} (hentry : x.fdMap.lookup dataFile = some entry) :
    ∃ entry', y.fdMap.lookup dataFile = some entry' ∧ entry'.toFdEntry = entry.toFdEntry := by
  have hlooked : ∀ {path : String} {new : TimedFdEntry} {z : FdWorld}, LookedUp x z path new →
      ∃ entry', z.fdMap.lookup dataFile = some entry' ∧ entry'.toFdEntry = entry.toFdEntry := by
    intro path new z hz
    by_cases hpath : dataFile = path
    · subst hpath
      exact ⟨new,hz.lookup,hz.stable entry hentry⟩
    · exact ⟨entry,(hz.others dataFile hpath).trans hentry,rfl⟩
  have hsame : y.fdMap = x.fdMap →
      ∃ entry', y.fdMap.lookup dataFile = some entry' ∧ entry'.toFdEntry = entry.toFdEntry := by
    intro hmap
    rw [hmap]
    exact ⟨entry,hentry,rfl⟩
  cases op with
  | registerStoreFile storeId path =>
    obtain rfl : (x.registerStoreFile storeId path).2 = y := congrArg Prod.snd (Option.some.inj hs)
    exact hsame (registerStoreFile_same x storeId path).2.1
  | getFd storeId path =>
    obtain ⟨⟨new,y'⟩,hlook,he⟩ := Option.map_eq_some_iff.mp hs
    cases he
    exact hlooked (h.lookUp hlook)
  | getBufferedFd storeId path =>
    obtain ⟨⟨new,y'⟩,hlook,he⟩ := Option.map_eq_some_iff.mp hs
    cases he
    exact hlooked (h.lookUp hlook)
  | schedule count =>
    unfold FdWorld.step at hs
    dsimp only at hs
    split at hs
    · cases hs
      exact hsame rfl
    · cases hs
  | evictIdle now idleThresholdMs => cases hop
  | closeAll => cases hop
  | openElsewhere path direct => exact hsame (opens_of_openFile hs).fdMap
  | closeElsewhere fd =>
    unfold FdWorld.step at hs
    dsimp only at hs
    split at hs
    · cases hs
      exact hsame rfl
    · cases hs
  | _ =>
    cases hs
    exact hsame rfl

def Remembers (tr : List FdEvent) (x : FdWorld) : Prop :=
  ∀ e ∈ tr, ∀ a, e.op.lookup e.res = some a →
    ∃ entry, x.fdMap.lookup a.dataFile = some entry ∧ a.fd = answer entry.toFdEntry a.direct

end FdWorld

/-- Two lookups of the same file in the same mode have the same answer. -/
def SameAnswers (e e' : FdEvent) : Prop :=
  ∀ a a', e.op.lookup e.res = some a → e'.op.lookup e'.res = some a' → a'.dataFile = a.dataFile →
    a'.direct = a.direct → a'.fd = a.fd

/-- As long as the cache closes nothing, all lookups of a file have the same answer: also of one that
could not be opened, even if it could be opened by now. -/
theorem lookups_stable {α : Type} {start : FdProg α → Prop} {table : ℕ → Option OpenFile}
    {tr₀ tr : List FdEvent} {P Q : Pool fdCalls FdWorld α}
    (htable : ∀ fd file, table fd = some file → file.byCache = false)
    (hr₀ : Run fdMachine start (fun _ _ => True) ⟨.init table,[]⟩ tr₀ P)
    (hr : Run fdMachine start (fun _ op => op.closes = false) P tr Q) : tr.Pairwise SameAnswers := by
  have hP := (fds_accounted htable hr₀).tight
  apply And.right (a := Q.state.Tight ∧ FdWorld.Remembers tr Q.state)
  apply hr.invariant fun tr x => (x.Tight ∧ FdWorld.Remembers tr x) ∧ tr.Pairwise SameAnswers
  · exact ⟨⟨hP,by simp [FdWorld.Remembers]⟩,.nil⟩
  · rintro tr i x op c r y ⟨⟨htight,hold⟩,hpairs⟩ hop hs
    have hkept : FdWorld.Remembers tr y := by
      intro e he a ha
      obtain ⟨entry,hentry,hfd⟩ := hold e he a ha
      obtain ⟨entry',hentry',hsame⟩ := htight.entry_kept hop hs hentry
      refine ⟨entry',hentry',?_⟩
      rw [hsame]
      exact hfd
    have hnew : ∀ a, op.lookup r = some a →
        ∃ entry, y.fdMap.lookup a.dataFile = some entry ∧ a.fd = FdWorld.answer entry.toFdEntry a.direct := by
      intro a ha
      obtain ⟨entry,hlooked,hfd⟩ := htight.lookup_step hs ha
      exact ⟨entry,hlooked.lookup,hfd⟩
    refine ⟨⟨htight.step hs,?_⟩,?_⟩
    · intro e he a ha
      rcases List.mem_append.mp he with he | he
      · exact hkept e he a ha
      · obtain rfl := List.mem_singleton.mp he
        exact hnew a ha
    · apply List.pairwise_append.mpr ⟨hpairs,List.pairwise_singleton _ _,?_⟩
      intro e he e' he' a a' ha ha' hfile hdirect
      obtain rfl := List.mem_singleton.mp he'
      obtain ⟨entry,hentry,hfd⟩ := hkept e he a ha
      obtain ⟨entry',hentry',hfd'⟩ := hnew a' ha'
      rw [hfile, hentry] at hentry'
      cases hentry'
      rw [hfd, hfd', hdirect]

/-- A file that is missing when it is first read, and there when it is read again. -/
theorem lookups_stable_late : ∃ tr Q,
    Run fdMachine (fun p => ∃ op : FdOp, p = op.run) (fun _ op => op.closes = false)
      ⟨.init fun _ => none,[]⟩ tr Q ∧
      tr.filterMap (fun e => (e.op.lookup e.res).map FdLookup.fd) = [-1,-1] ∧ tr.Pairwise SameAnswers := by
  have hsched : (Pool.follow (M := fdMachine) (fun _ (op : FdCall) => !op.closes)
      [(0,{}),(1,{}),(1,{ buffered := none }),(2,{}),(2,{ buffered := some 5 })]
      ⟨.init fun _ => none,[FdOp.registerStoreFile 1 "d",.read plainAccessor ⟨1,0,0,4096⟩,
        .read plainAccessor ⟨1,0,0,4096⟩].map FdOp.run⟩).map
      (fun x => x.1.filterMap fun e => (e.op.lookup e.res).map FdLookup.fd) = some [-1,-1] := by decide
  obtain ⟨tr,Q,hr,hfds⟩ := run_of_schedule (fun p => ∃ op : FdOp, p = op.run) (by simp) hsched
  have hr : Run fdMachine (fun p => ∃ op : FdOp, p = op.run) (fun _ op => op.closes = false)
      ⟨.init fun _ => none,[]⟩ tr Q := hr.ok_mono fun _ _ h => by simpa using h
  exact ⟨tr,Q,hr,hfds,lookups_stable (by simp) .refl hr⟩

end FalconKV
