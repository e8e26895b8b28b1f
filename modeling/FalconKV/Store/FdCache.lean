import Mathlib.Data.List.AList
import Mathlib.Logic.Function.Basic
import FalconKV.Store.NodeLocalAccessor

/-! # The cache of open data files

A process has one table of file descriptors. The cache opens a data file at most twice, with the
page cache and without, and remembers the descriptors, or that the file could not be opened. The
rest of the process opens and closes files too, and a descriptor that was closed is given out again.
A call of the cache holds its mutex from beginning to end: its system calls are one step.
-/
namespace FalconKV
open AtomicCalls

/-- An entry of the descriptor table. -/
structure OpenFile where
  path : String
  /-- opened with `O_DIRECT` -/
  direct : Bool
  /-- opened by the cache, not by the rest of the process -/
  byCache : Bool
  deriving DecidableEq, Repr

namespace FdEntry

def bestFd (entry : FdEntry) : ℤ := if 0 ≤ entry.directFd then entry.directFd else entry.bufferedFd

def fds (entry : FdEntry) : List ℕ :=
  ([entry.directFd,entry.bufferedFd].filter fun fd => decide (0 ≤ fd)).map Int.toNat

end FdEntry

structure TimedFdEntry extends FdEntry where
  lastAccessMs : ℕ
  deriving DecidableEq, Repr

structure FdWorld where
  table : ℕ → Option OpenFile
  fdMap : AList fun _ : String => TimedFdEntry
  storeFiles : AList fun _ : ℕ => String
  /-- every registration so far; no call looks at it -/
  registered : List (ℕ × String)
  /-- how often the cache has closed a descriptor that it had not opened, or had closed before -/
  strayCloses : ℕ

/-- The descriptors that the two calls of `open` give, and the reading of the clock. -/
structure FdChoice where
  buffered : Option ℕ := none
  direct : Option ℕ := none
  now : ℕ := 0

namespace FdWorld

def init (table : ℕ → Option OpenFile) : FdWorld := ⟨table,∅,∅,[],0⟩

def openFile (x : FdWorld) (got : Option ℕ) (file : OpenFile) : Option (ℤ × FdWorld) :=
  match got with
  | none => some (-1,x)
  | some fd =>
    if (x.table fd).isNone then some (fd,{ x with table := Function.update x.table fd (some file) })
    else none

/-- `close`, as the cache calls it. -/
def close (x : FdWorld) (fd : ℕ) : FdWorld :=
  { x with
    table := Function.update x.table fd none
    strayCloses := x.strayCloses + if (x.table fd).any OpenFile.byCache then 0 else 1 }

def lookUp (x : FdWorld) (c : FdChoice) (dataFile : String) : Option (TimedFdEntry × FdWorld) :=
  let remember (x : FdWorld) (entry : TimedFdEntry) :=
    (entry,{ x with fdMap := x.fdMap.insert dataFile entry })
  match x.fdMap.lookup dataFile with
  | some entry => some (remember x { entry with lastAccessMs := c.now })
  | none => (x.openFile c.buffered ⟨dataFile,false,true⟩).bind fun (bufFd,y) =>
    if bufFd < 0 then some (remember y ⟨⟨-1,-1⟩,c.now⟩)
    else (y.openFile c.direct ⟨dataFile,true,true⟩).map fun (directFd,z) =>
      remember z ⟨⟨directFd,bufFd⟩,c.now⟩

def closeEntry (x : FdWorld) (entry : TimedFdEntry) : FdWorld := entry.fds.foldl close x

def isIdle (now idleThresholdMs : ℕ) (entry : TimedFdEntry) : Bool :=
  decide (idleThresholdMs < subU64 now entry.lastAccessMs)

def evict (x : FdWorld) (dataFile : String) (entry : TimedFdEntry) : FdWorld :=
  { x.closeEntry entry with fdMap := x.fdMap.erase dataFile }

def evictIdle (x : FdWorld) (now idleThresholdMs : ℕ) : FdWorld :=
  x.fdMap.entries.foldl (fun x e => if isIdle now idleThresholdMs e.2 then x.evict e.1 e.2 else x) x

def closeAll (x : FdWorld) : FdWorld :=
  { x.fdMap.entries.foldl (fun x e => x.closeEntry e.2) x with fdMap := ∅ }

structure EntryOpen (x : FdWorld) (dataFile : String) (entry : TimedFdEntry) : Prop where
  direct : 0 ≤ entry.directFd → x.table entry.directFd.toNat = some ⟨dataFile,true,true⟩
  buffered : 0 ≤ entry.bufferedFd → x.table entry.bufferedFd.toNat = some ⟨dataFile,false,true⟩
  together : 0 ≤ entry.directFd → 0 ≤ entry.bufferedFd
  lowest : -1 ≤ entry.directFd ∧ -1 ≤ entry.bufferedFd

structure Tight (x : FdWorld) : Prop where
  entries : ∀ dataFile entry, x.fdMap.lookup dataFile = some entry → x.EntryOpen dataFile entry
  covers : ∀ fd file, x.table fd = some file → file.byCache = true →
    ∃ entry, x.fdMap.lookup file.path = some entry ∧
      (if file.direct then entry.directFd else entry.bufferedFd) = (fd : ℤ)
  noStray : x.strayCloses = 0

variable {x y : FdWorld} {c : FdChoice} {dataFile : String} {entry : TimedFdEntry} {fd : ℕ}

theorem tight_init {table : ℕ → Option OpenFile}
    (h : ∀ fd file, table fd = some file → file.byCache = false) : (init table).Tight where
  entries := by
    intro dataFile entry hentry
    cases hentry
  covers := by
    intro fd file hfile hcache
    rw [h fd file hfile] at hcache
    cases hcache
  noStray := rfl

theorem mem_fds {entry : FdEntry} : fd ∈ entry.fds ↔
    (entry.directFd = fd ∨ entry.bufferedFd = fd) := by
  have hcast : ∀ n : ℤ, (0 ≤ n ∧ n.toNat = fd) ↔ n = fd := by
    intro n
    omega
  simp only [FdEntry.fds, List.mem_map, List.mem_filter, List.mem_cons, List.not_mem_nil, or_false,
    decide_eq_true_eq]
  constructor
  · rintro ⟨n,⟨rfl | rfl,hpos⟩,hn⟩
    · exact .inl ((hcast _).mp ⟨hpos,hn⟩)
    · exact .inr ((hcast _).mp ⟨hpos,hn⟩)
  · rintro (h | h)
    · obtain ⟨hpos,hn⟩ := (hcast _).mpr h
      exact ⟨_,⟨.inl rfl,hpos⟩,hn⟩
    · obtain ⟨hpos,hn⟩ := (hcast _).mpr h
      exact ⟨_,⟨.inr rfl,hpos⟩,hn⟩

/-- The descriptors of an entry are of its file. -/
theorem EntryOpen.table_of_mem (h : x.EntryOpen dataFile entry) (hfd : fd ∈ entry.fds) :
    ∃ direct, x.table fd = some ⟨dataFile,direct,true⟩ ∧
      (if direct then entry.directFd else entry.bufferedFd) = (fd : ℤ) := by
  rcases mem_fds.mp hfd with hdirect | hbuffered
  · have hopen := h.direct (by omega)
    rw [hdirect, Int.toNat_natCast] at hopen
    exact ⟨true,hopen,hdirect⟩
  · have hopen := h.buffered (by omega)
    rw [hbuffered, Int.toNat_natCast] at hopen
    exact ⟨false,hopen,hbuffered⟩

theorem EntryOpen.nodup (h : x.EntryOpen dataFile entry) : entry.fds.Nodup := by
  unfold FdEntry.fds
  by_cases hd : 0 ≤ entry.directFd
  · have hb := h.together hd
    have hne : entry.directFd.toNat ≠ entry.bufferedFd.toNat := by
      intro heq
      have hdirect := h.direct hd
      rw [heq, h.buffered hb] at hdirect
      cases hdirect
    simp [hd, hb, hne]
  · by_cases hb : 0 ≤ entry.bufferedFd <;> simp [hd, hb]

structure SameRest (x y : FdWorld) : Prop where
  storeFiles : y.storeFiles = x.storeFiles
  registered : y.registered = x.registered

theorem SameRest.refl (x : FdWorld) : SameRest x x := ⟨rfl,rfl⟩

theorem SameRest.trans {z : FdWorld} (h : SameRest x y) (h' : SameRest y z) : SameRest x z :=
  ⟨h'.storeFiles.trans h.storeFiles,h'.registered.trans h.registered⟩

structure Opens (x y : FdWorld) (file : OpenFile) (fd : ℤ) : Prop where
  table : 0 ≤ fd → y.table fd.toNat = some file
  kept : ∀ n other, x.table n = some other → y.table n = some other
  added : ∀ n other, y.table n = some other → x.table n = some other ∨ other = file ∧ fd = n
  fdMap : y.fdMap = x.fdMap
  strayCloses : y.strayCloses = x.strayCloses
  rest : SameRest x y

theorem lowest_of_openFile {got : Option ℕ} {file : OpenFile} {r : ℤ}
    (h : x.openFile got file = some (r,y)) : -1 ≤ r := by
  unfold openFile at h
  cases got with
  | none =>
    cases h
    exact le_rfl
  | some fd =>
    dsimp only at h
    split at h
    · cases h
      omega
    · cases h

theorem opens_of_openFile {got : Option ℕ} {file : OpenFile} {r : ℤ} (h : x.openFile got file = some (r,y)) :
    Opens x y file r := by
  unfold openFile at h
  cases got with
  | none =>
    cases h
    have hneg : ¬ (0 : ℤ) ≤ -1 := by decide
    exact ⟨fun hpos => absurd hpos hneg,fun _ _ h => h,fun _ _ h => .inl h,rfl,rfl,.refl x⟩
  | some fd =>
    dsimp only at h
    split at h
    · next hfree =>
      have hnone := Option.isNone_iff_eq_none.mp hfree
      cases h
      constructor
      · intro _
        simp
      · intro n other hn
        have hne : n ≠ fd := by
          rintro rfl
          rw [hnone] at hn
          cases hn
        dsimp only
        rwa [Function.update_of_ne hne]
      · intro n other hn
        dsimp only at hn
        by_cases hfd : n = fd
        · subst hfd
          rw [Function.update_self] at hn
          exact .inr ⟨(Option.some.inj hn).symm,rfl⟩
        · rw [Function.update_of_ne hfd] at hn
          exact .inl hn
      · rfl
      · rfl
      · exact ⟨rfl,rfl⟩
    · cases h

/-- Beside what was open, `y` has open what the new entry of a file names. -/
structure Opened (x y : FdWorld) (dataFile : String) (new : TimedFdEntry) : Prop where
  entry : y.EntryOpen dataFile new
  kept : ∀ n other, x.table n = some other → y.table n = some other
  added : ∀ n other, y.table n = some other → x.table n = some other ∨
    other.path = dataFile ∧ (if other.direct then new.directFd else new.bufferedFd) = (n : ℤ)
  fdMap : y.fdMap = x.fdMap.insert dataFile new
  strayCloses : y.strayCloses = x.strayCloses
  rest : SameRest x y

/-- A file that is not in the map is opened; otherwise its entry is dated anew. -/
theorem lookUp_cases (h : x.lookUp c dataFile = some (entry,y)) :
    (∃ old, x.fdMap.lookup dataFile = some old ∧ entry = { old with lastAccessMs := c.now } ∧
      y = { x with fdMap := x.fdMap.insert dataFile entry }) ∨
    x.fdMap.lookup dataFile = none ∧ Opened x y dataFile entry := by
  unfold lookUp at h
  dsimp only at h
  cases hlook : x.fdMap.lookup dataFile with
  | some old =>
    rw [hlook] at h
    cases h
    exact .inl ⟨old,rfl,rfl,rfl⟩
  | none =>
    rw [hlook] at h
    obtain ⟨⟨bufFd,x₁⟩,hbuf,h⟩ := Option.bind_eq_some_iff.mp h
    have hb := opens_of_openFile hbuf
    have hneg : ¬ (0 : ℤ) ≤ -1 := by decide
    refine .inr ⟨rfl,?_⟩
    dsimp only at h
    split at h
    · next hfail =>
      cases h
      refine ⟨⟨fun hpos => absurd hpos hneg,fun hpos => absurd hpos hneg,id,le_rfl,le_rfl⟩,hb.kept,?_,?_,hb.strayCloses,?_⟩
      · intro n other hn
        rcases hb.added n other hn with hold | ⟨-,rfl⟩
        · exact .inl hold
        · omega
      · simp only [hb.fdMap]
      · exact ⟨hb.rest.storeFiles,hb.rest.registered⟩
    · next hopen =>
      obtain ⟨⟨directFd,x₂⟩,hdirect,h⟩ := Option.map_eq_some_iff.mp h
      have hd := opens_of_openFile hdirect
      cases h
      have hbuffered : 0 ≤ bufFd := not_lt.mp hopen
      have hlowest : -1 ≤ directFd ∧ -1 ≤ bufFd := ⟨lowest_of_openFile hdirect,by omega⟩
      refine ⟨⟨hd.table,fun hpos => hd.kept _ _ (hb.table hpos),fun _ => hbuffered,hlowest⟩,
        ?_,?_,?_,?_,?_⟩
      · intro n other hn
        exact hd.kept n other (hb.kept n other hn)
      · intro n other hn
        rcases hd.added n other hn with hn | ⟨rfl,rfl⟩
        · rcases hb.added n other hn with hn | ⟨rfl,rfl⟩
          · exact .inl hn
          · exact .inr ⟨rfl,rfl⟩
        · exact .inr ⟨rfl,rfl⟩
      · simp only [hd.fdMap, hb.fdMap]
      · exact hd.strayCloses.trans hb.strayCloses
      · have hrest := hb.rest.trans hd.rest
        exact ⟨hrest.storeFiles,hrest.registered⟩

structure LookedUp (x y : FdWorld) (dataFile : String) (entry : TimedFdEntry) : Prop where
  tight : y.Tight
  lookup : y.fdMap.lookup dataFile = some entry
  others : ∀ other, other ≠ dataFile → y.fdMap.lookup other = x.fdMap.lookup other
  kept : ∀ n file, x.table n = some file → y.table n = some file
  /-- an entry that was there keeps its descriptors -/
  stable : ∀ old, x.fdMap.lookup dataFile = some old → entry.toFdEntry = old.toFdEntry
  rest : SameRest x y

theorem Tight.lookUp (h : x.Tight) (hs : x.lookUp c dataFile = some (entry,y)) :
    LookedUp x y dataFile entry := by
  have hothers : ∀ other, other ≠ dataFile →
      (x.fdMap.insert dataFile entry).lookup other = x.fdMap.lookup other :=
    fun other hne => AList.lookup_insert_ne hne
  rcases lookUp_cases hs with ⟨old,hold,rfl,rfl⟩ | ⟨hnone,hopened⟩
  · refine ⟨⟨?_,?_,h.noStray⟩,AList.lookup_insert _,hothers,fun _ _ h => h,?_,⟨rfl,rfl⟩⟩
    · intro path entry hentry
      by_cases hpath : path = dataFile
      · subst hpath
        rw [AList.lookup_insert] at hentry
        cases hentry
        have hopen := h.entries path old hold
        exact ⟨hopen.direct,hopen.buffered,hopen.together,hopen.lowest⟩
      · rw [hothers path hpath] at hentry
        have hopen := h.entries path entry hentry
        exact ⟨hopen.direct,hopen.buffered,hopen.together,hopen.lowest⟩
    · intro fd file hfile hcache
      obtain ⟨entry,hentry,hfd⟩ := h.covers fd file hfile hcache
      by_cases hpath : file.path = dataFile
      · rw [hpath, hold] at hentry
        cases hentry
        rw [hpath]
        exact ⟨_,AList.lookup_insert _,hfd⟩
      · exact ⟨entry,(hothers _ hpath).trans hentry,hfd⟩
    · intro old' hold'
      rw [hold] at hold'
      cases hold'
      rfl
  · refine ⟨⟨?_,?_,hopened.strayCloses.trans h.noStray⟩,?_,?_,hopened.kept,?_,hopened.rest⟩
    · intro path entry' hentry
      rw [hopened.fdMap] at hentry
      by_cases hpath : path = dataFile
      · subst hpath
        rw [AList.lookup_insert] at hentry
        cases hentry
        exact hopened.entry
      · rw [hothers path hpath] at hentry
        have hopen := h.entries path entry' hentry
        exact ⟨fun hpos => hopened.kept _ _ (hopen.direct hpos),
          fun hpos => hopened.kept _ _ (hopen.buffered hpos),hopen.together,hopen.lowest⟩
    · intro fd file hfile hcache
      rw [hopened.fdMap]
      rcases hopened.added fd file hfile with hold | ⟨hpath,hfd⟩
      · obtain ⟨entry',hentry,hfd⟩ := h.covers fd file hold hcache
        have hpath : file.path ≠ dataFile := by
          rintro hpath
          rw [hpath, hnone] at hentry
          cases hentry
        exact ⟨entry',(hothers _ hpath).trans hentry,hfd⟩
      · rw [hpath]
        exact ⟨entry,AList.lookup_insert _,hfd⟩
    · rw [hopened.fdMap]
      exact AList.lookup_insert _
    · intro other hne
      rw [hopened.fdMap]
      exact hothers other hne
    · intro old hold
      rw [hnone] at hold
      cases hold

theorem foldl_close (fds : List ℕ) (x : FdWorld) : (fds.foldl close x).fdMap = x.fdMap ∧
    SameRest x (fds.foldl close x) ∧
    ∀ n, (fds.foldl close x).table n = if n ∈ fds then none else x.table n := by
  induction fds generalizing x with
  | nil => exact ⟨rfl,.refl x,fun n => by simp⟩
  | cons fd fds ih =>
    obtain ⟨hmap,hrest,htable⟩ := ih (x.close fd)
    refine ⟨hmap,⟨hrest.storeFiles,hrest.registered⟩,fun n => ?_⟩
    rw [List.foldl_cons, htable]
    by_cases hn : n = fd
    · subst hn
      simp [close]
    · simp [close, hn]

/-- Descriptors that the cache has opened, each closed once, are no stray closes. -/
theorem strayCloses_foldl {fds : List ℕ} (hnodup : fds.Nodup)
    (hopen : ∀ fd ∈ fds, (x.table fd).any OpenFile.byCache = true) :
    (fds.foldl close x).strayCloses = x.strayCloses := by
  induction fds generalizing x with
  | nil => rfl
  | cons fd fds ih =>
    obtain ⟨hfd,hnodup⟩ := List.nodup_cons.mp hnodup
    have hone : (x.close fd).strayCloses = x.strayCloses := by
      simp [close, hopen fd List.mem_cons_self]
    rw [List.foldl_cons, ih hnodup, hone]
    intro n hn
    have hne : n ≠ fd := by
      rintro rfl
      exact hfd hn
    have hsame : (x.close fd).table n = x.table n := Function.update_of_ne hne _ _
    rw [hsame]
    exact hopen n (List.mem_cons_of_mem fd hn)

theorem table_closeEntry (x : FdWorld) (entry : TimedFdEntry) (n : ℕ) :
    (x.closeEntry entry).table n = if n ∈ entry.fds then none else x.table n :=
  (foldl_close entry.fds x).2.2 n

theorem Tight.strayCloses_closeEntry (h : x.Tight) (hentry : x.fdMap.lookup dataFile = some entry) :
    (x.closeEntry entry).strayCloses = 0 := by
  have hopen := h.entries dataFile entry hentry
  have hall : ∀ fd ∈ entry.fds, (x.table fd).any OpenFile.byCache = true := by
    intro fd hfd
    obtain ⟨direct,htable,-⟩ := hopen.table_of_mem hfd
    rw [htable]
    rfl
  exact (strayCloses_foldl hopen.nodup hall).trans h.noStray

/-- Descriptors that stay open are not those of the entry that is closed. -/
theorem Tight.evict (h : x.Tight) (hentry : x.fdMap.lookup dataFile = some entry) :
    (x.evict dataFile entry).Tight := by
  have hopen := h.entries dataFile entry hentry
  have htable : ∀ n, (x.evict dataFile entry).table n = if n ∈ entry.fds then none else x.table n :=
    table_closeEntry x entry
  have hmap : (x.evict dataFile entry).fdMap = x.fdMap.erase dataFile := rfl
  have hkept : ∀ {n file}, x.table n = some file → file.path ≠ dataFile →
      (x.evict dataFile entry).table n = some file := by
    intro n file hn hpath
    rw [htable, if_neg, hn]
    intro hmem
    obtain ⟨direct,hn',-⟩ := hopen.table_of_mem hmem
    rw [hn] at hn'
    cases hn'
    exact hpath rfl
  refine ⟨?_,?_,h.strayCloses_closeEntry hentry⟩
  · intro path other hother
    have hpath : path ≠ dataFile := by
      rintro rfl
      rw [hmap, AList.lookup_erase] at hother
      cases hother
    rw [hmap, AList.lookup_erase_ne hpath] at hother
    have hopen' := h.entries path other hother
    exact ⟨fun hpos => hkept (hopen'.direct hpos) hpath,fun hpos => hkept (hopen'.buffered hpos) hpath,
      hopen'.together,hopen'.lowest⟩
  · intro n file hn hcache
    rw [htable] at hn
    split at hn
    · cases hn
    · next hmem =>
      obtain ⟨other,hother,hfd⟩ := h.covers n file hn hcache
      by_cases hpath : file.path = dataFile
      · rw [hpath, hentry] at hother
        cases hother
        -- the entry names this descriptor
        refine absurd (mem_fds.mpr ?_) hmem
        cases hdirect : file.direct with
        | true =>
          rw [hdirect] at hfd
          exact .inl hfd
        | false =>
          rw [hdirect] at hfd
          exact .inr hfd
      · rw [hmap, AList.lookup_erase_ne hpath]
        exact ⟨other,hother,hfd⟩

def evictEach (p : TimedFdEntry → Bool) (entries : List (Σ _ : String, TimedFdEntry)) (x : FdWorld) : FdWorld :=
  entries.foldl (fun x e => if p e.2 then x.evict e.1 e.2 else x) x

theorem evictEach_cons (p : TimedFdEntry → Bool) (e : Σ _ : String, TimedFdEntry)
    (entries : List (Σ _ : String, TimedFdEntry)) (x : FdWorld) :
    evictEach p (e :: entries) x = evictEach p entries (if p e.2 then x.evict e.1 e.2 else x) := rfl

structure Evicted (p : TimedFdEntry → Bool) (entries : List (Σ _ : String, TimedFdEntry))
    (x y : FdWorld) : Prop where
  tight : y.Tight
  rest : SameRest x y
  lookup : ∀ path entry, y.fdMap.lookup path = some entry ↔
    x.fdMap.lookup path = some entry ∧ ¬ (⟨path,entry⟩ ∈ entries ∧ p entry = true)
  /-- only descriptors of evicted entries are closed -/
  table : ∀ n, y.table n = x.table n ∨ y.table n = none ∧ ∃ e ∈ entries, p e.2 = true ∧ n ∈ e.2.fds

theorem Tight.evictEach (h : x.Tight) (p : TimedFdEntry → Bool) {entries : List (Σ _ : String, TimedFdEntry)}
    (hnodup : (entries.map Sigma.fst).Nodup)
    (hentries : ∀ e ∈ entries, x.fdMap.lookup e.1 = some e.2) :
    Evicted p entries x (evictEach p entries x) := by
  induction entries generalizing x with
  | nil => exact ⟨h,.refl x,by simp [FdWorld.evictEach],fun n => .inl rfl⟩
  | cons e entries ih =>
    obtain ⟨hnot,hnodup⟩ := List.nodup_cons.mp hnodup
    have he := hentries e List.mem_cons_self
    have hrest := fun e' he' => hentries e' (List.mem_cons_of_mem e he')
    rw [evictEach_cons]
    by_cases hp : p e.2 = true
    · rw [if_pos hp]
      have hfst : ∀ e' ∈ entries, e'.1 ≠ e.1 := by
        rintro e' he' heq
        exact hnot (heq ▸ List.mem_map_of_mem he')
      have hmap : (x.evict e.1 e.2).fdMap = x.fdMap.erase e.1 := rfl
      have hround := ih (h.evict he) hnodup fun e' he' => by
        rw [hmap, AList.lookup_erase_ne (hfst e' he')]
        exact hrest e' he'
      refine ⟨hround.tight,⟨?_,?_⟩,fun path entry => ?_,fun n => ?_⟩
      · exact hround.rest.storeFiles.trans (foldl_close e.2.fds x).2.1.storeFiles
      · exact hround.rest.registered.trans (foldl_close e.2.fds x).2.1.registered
      · refine (hround.lookup path entry).trans ?_
        rw [hmap]
        by_cases hpath : path = e.1
        · subst hpath
          rw [AList.lookup_erase, he]
          constructor
          · rintro ⟨hnone,-⟩
            cases hnone
          · rintro ⟨hsome,hout⟩
            cases hsome
            exact absurd ⟨List.mem_cons_self,hp⟩ hout
        · rw [AList.lookup_erase_ne hpath]
          have hne : (⟨path,entry⟩ : Σ _ : String, TimedFdEntry) ≠ e := by
            rintro rfl
            exact hpath rfl
          simp [hne]
      · rcases hround.table n with hsame | ⟨hnone,e',he',hpe,hn⟩
        · have hclosed := table_closeEntry x e.2 n
          rw [hsame]
          by_cases hn : n ∈ e.2.fds
          · rw [if_pos hn] at hclosed
            exact .inr ⟨hclosed,e,List.mem_cons_self,hp,hn⟩
          · rw [if_neg hn] at hclosed
            exact .inl hclosed
        · exact .inr ⟨hnone,e',List.mem_cons_of_mem e he',hpe,hn⟩
    · rw [if_neg hp]
      have hround := ih h hnodup hrest
      refine ⟨hround.tight,hround.rest,fun path entry => ?_,fun n => ?_⟩
      · refine (hround.lookup path entry).trans ?_
        constructor
        · rintro ⟨hlook,hout⟩
          refine ⟨hlook,?_⟩
          rintro ⟨hmem,hentry⟩
          rcases List.mem_cons.mp hmem with rfl | hmem
          · exact hp hentry
          · exact hout ⟨hmem,hentry⟩
        · rintro ⟨hlook,hout⟩
          exact ⟨hlook,fun hin => hout ⟨List.mem_cons_of_mem e hin.1,hin.2⟩⟩
      · rcases hround.table n with hsame | ⟨hnone,e',he',hpe,hn⟩
        · exact .inl hsame
        · exact .inr ⟨hnone,e',List.mem_cons_of_mem e he',hpe,hn⟩

theorem lookup_of_mem_entries {path : String} :
    x.fdMap.lookup path = some entry ↔ (⟨path,entry⟩ : Σ _ : String, TimedFdEntry) ∈ x.fdMap.entries :=
  AList.mem_lookup_iff

theorem Tight.evictAll (h : x.Tight) (p : TimedFdEntry → Bool) :
    Evicted p x.fdMap.entries x (FdWorld.evictEach p x.fdMap.entries x) :=
  h.evictEach p x.fdMap.nodupKeys fun _ he => lookup_of_mem_entries.mpr he

theorem Tight.evictIdle (h : x.Tight) (now idleThresholdMs : ℕ) :
    Evicted (isIdle now idleThresholdMs) x.fdMap.entries x (x.evictIdle now idleThresholdMs) :=
  h.evictAll (isIdle now idleThresholdMs)

/-- To close all entries is to evict all of them. -/
theorem foldl_closeEntry (entries : List (Σ _ : String, TimedFdEntry)) (x y : FdWorld)
    (hxy : y = { x with fdMap := y.fdMap }) :
    let closed := entries.foldl (fun x e => x.closeEntry e.2) x
    closed = { FdWorld.evictEach (fun _ => true) entries y with fdMap := closed.fdMap } := by
  induction entries generalizing x y with
  | nil =>
    rw [hxy]
    rfl
  | cons e entries ih =>
    rw [evictEach_cons, if_pos rfl, List.foldl_cons]
    apply ih
    have hclose : ∀ (fds : List ℕ) (x y : FdWorld), y = { x with fdMap := y.fdMap } →
        fds.foldl close y = { fds.foldl close x with fdMap := (fds.foldl close y).fdMap } := by
      intro fds
      induction fds with
      | nil => exact fun _ _ h => h
      | cons fd fds ih =>
        intro x y hxy
        apply ih
        rw [hxy]
        rfl
    have heq := hclose e.2.fds x y hxy
    unfold FdWorld.evict closeEntry
    rw [heq]

theorem closeAll_eq (x : FdWorld) :
    x.closeAll = { FdWorld.evictEach (fun _ => true) x.fdMap.entries x with fdMap := ∅ } := by
  have heq := foldl_closeEntry x.fdMap.entries x x rfl
  unfold FdWorld.closeAll
  rw [heq]

theorem Tight.closeAll (h : x.Tight) : x.closeAll.Tight ∧ SameRest x x.closeAll ∧
    ∀ fd file, x.closeAll.table fd = some file → x.table fd = some file ∧ file.byCache = false := by
  have hround := h.evictAll fun _ => true
  have hclosed := x.closeAll_eq
  have hnone : ∀ fd file, x.closeAll.table fd = some file → file.byCache = false := by
    intro fd file hfile
    cases hcache : file.byCache with
    | false => rfl
    | true =>
      rw [hclosed] at hfile
      obtain ⟨entry,hentry,-⟩ := hround.tight.covers fd file hfile hcache
      obtain ⟨hlook,hout⟩ := (hround.lookup _ _).mp hentry
      exact absurd ⟨lookup_of_mem_entries.mp hlook,rfl⟩ hout
  refine ⟨⟨?_,?_,?_⟩,?_,?_⟩
  · intro path entry hentry
    cases hentry
  · intro fd file hfile hcache
    rw [hnone fd file hfile] at hcache
    cases hcache
  · rw [hclosed]
    exact hround.tight.noStray
  · rw [hclosed]
    exact ⟨hround.rest.storeFiles,hround.rest.registered⟩
  · intro fd file hfile
    refine ⟨?_,hnone fd file hfile⟩
    rw [hclosed] at hfile
    rcases hround.table fd with hsame | ⟨hgone,-⟩
    · exact hsame.symm.trans hfile
    · exact absurd (hgone.symm.trans hfile) (Option.some_ne_none _).symm

end FdWorld

end FalconKV
