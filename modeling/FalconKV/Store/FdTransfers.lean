import FalconKV.Store.FdRuns

/-! # Reads and writes go through open descriptors

A descriptor that the accessor has looked up is used after the cache has let go of its mutex. It
is still that of the file of its store if no eviction closes what a call in progress has looked up.
-/
namespace FalconKV
open AtomicCalls

def fdRefs (storeId : ℕ) (fd : ℤ) : Multiset FdRef := if 0 ≤ fd then {.fd storeId fd} else 0

def heldFds (storeId : ℕ) (fds : List ℤ) : Multiset FdRef := (fds.map (fdRefs storeId)).sum

/-- The store and the descriptor of a read or a write. A call of liburing goes through all the
descriptors of its batch, and an entry that is filled in through its own. -/
def FdCall.transfers : FdCall → List (ℕ × ℤ)
  | .pread storeId fd _ _ => [(storeId,fd)]
  | .pwrite storeId fd _ _ => [(storeId,fd)]
  | .ring reads (.getSqe _ i _ request) => reads ++ ((reads[i]?).map fun read => (read.1,request.fd)).toList
  | .ring reads _ => reads
  | _ => []

/-- The path of a file is exchanged for a descriptor, which is held until the call returns. -/
def fdBorrowing : Borrowing fdCalls FdRef where
  lends
    | .getStoreFilePath storeId, path => if path = "" then 0 else {.path storeId path}
    | .getFd storeId _, fd => fdRefs storeId fd
    | .getBufferedFd storeId _, fd => fdRefs storeId fd
    | _, _ => 0
  uses
    | .getFd storeId path => {.path storeId path}
    | .getBufferedFd storeId path => {.path storeId path}
    | op => (op.transfers.map fun x => FdRef.fd x.1 x.2 : List FdRef)
  returns
    | .getFd storeId path => {.path storeId path}
    | .getBufferedFd storeId path => {.path storeId path}
    | .leave storeId fds => heldFds storeId fds
    | _ => 0

def FdCall.evicts : FdCall → TimedFdEntry → Bool
  | .evictIdle now idleThresholdMs, entry => FdWorld.isIdle now idleThresholdMs entry
  | .closeAll, _ => true
  | _, _ => false

/-- The call closes no descriptor that is lent. -/
def FdCall.Spares (x : FdWorld × Multiset FdRef) (op : FdCall) : Prop :=
  ∀ storeId fd, .fd storeId fd ∈ x.2 → ∀ path entry, x.1.fdMap.lookup path = some entry →
    op.evicts entry = true → fd.toNat ∉ entry.fds

namespace FdOps
variable {acc : NodeLocalAccessor} {held : Multiset FdRef} {request : NodeLocalReadRequest}

theorem mem_fdRefs {storeId : ℕ} {fd : ℤ} {ref : FdRef} :
    ref ∈ fdRefs storeId fd ↔ 0 ≤ fd ∧ ref = .fd storeId fd := by
  unfold fdRefs
  split
  · next h => simp [h]
  · next h => simp [h]

theorem mem_heldFds {storeId : ℕ} {fd : ℤ} {fds : List ℤ} (hmem : fd ∈ fds) (hpos : 0 ≤ fd) :
    .fd storeId fd ∈ heldFds storeId fds := by
  unfold heldFds
  induction fds with
  | nil => cases hmem
  | cons fd' fds ih =>
    rw [List.map_cons, List.sum_cons]
    rcases List.mem_cons.mp hmem with rfl | hmem
    · exact Multiset.mem_add.mpr (.inl (mem_fdRefs.mpr ⟨hpos,rfl⟩))
    · exact Multiset.mem_add.mpr (.inr (ih hmem))

abbrev Holds {α : Type} (post : α → Multiset FdRef → Prop) (p : FdProg α) (held : Multiset FdRef) : Prop :=
  Uses fdBorrowing.discipline post p held

/-- A path is looked up and used at once. -/
theorem holds_getBufferedFd (storeId : ℕ) :
    Holds (fun fd g => g = fdRefs storeId fd + held) (getBufferedFd storeId) held := by
  apply Borrowing.uses_lend rfl (Multiset.zero_subset held)
  intro path
  dsimp only [fdBorrowing]
  split
  · exact rfl
  · rw [← Prog.bind_ret (call _)]
    apply Borrowing.uses_call held rfl
    · intro ref href
      exact Multiset.mem_add.mpr (.inl href)
    · intro fd
      exact rfl

theorem holds_getDirectFd (storeId : ℕ) :
    Holds (fun fd g => g = fdRefs storeId fd + held) (getDirectFd storeId) held := by
  apply Borrowing.uses_lend rfl (Multiset.zero_subset held)
  intro path
  dsimp only [fdBorrowing]
  split
  · exact rfl
  · rw [← Prog.bind_ret (call _)]
    apply Borrowing.uses_call held rfl
    · intro ref href
      exact Multiset.mem_add.mpr (.inl href)
    · intro fd
      exact rfl

def Looked (request : NodeLocalReadRequest) (selected : Option Selected) (g : Multiset FdRef) : Prop :=
  match selected with
  | none => g = 0
  | some s => g = heldFds request.storeId s.held ∧ s.fd ∈ s.held ∧ 0 ≤ s.fd

theorem holds_select : Holds (Looked request) (select acc request) 0 := by
  apply uses_bind
  apply uses_mono (holds_getBufferedFd request.storeId)
  rintro bufFd _ rfl
  split
  · next hneg =>
    have hnone : fdRefs request.storeId bufFd = 0 := if_neg (by omega)
    rw [hnone]
    exact add_zero 0
  · next hpos =>
    apply uses_bind
    apply uses_mono (holds_getDirectFd request.storeId)
    rintro directFd _ rfl
    refine ⟨?_,?_,?_⟩
    · rw [add_zero, add_comm]
      simp [heldFds]
    · dsimp only
      split <;> simp
    · dsimp only
      split
      · next hdirect =>
        simp only [NodeLocalAccessor.useDirect, Bool.and_eq_true, decide_eq_true_eq] at hdirect
        exact hdirect.1.1.1.1
      · omega

theorem holds_leave {selected : Option Selected} {g : Multiset FdRef} (h : Looked request selected g) :
    Holds (fun _ g' => g' = 0) (leave request selected) g := by
  cases selected with
  | none => exact h
  | some s =>
    rw [leave, ← Prog.bind_ret (call _)]
    apply Borrowing.uses_call 0
    · rw [add_zero]
      exact h.1
    · exact Multiset.zero_subset g
    · intro _
      exact rfl

/-- A read or a write through the selected descriptor, and the return of the call. -/
theorem holds_transfer {op : FdCall} {s : Selected} {status : op.Res → Status} {g : Multiset FdRef}
    (huses : fdBorrowing.uses op = {.fd request.storeId s.fd}) (hreturns : fdBorrowing.returns op = 0)
    (hlends : ∀ r, fdBorrowing.lends op r = 0) (h : Looked request (some s) g) :
    Holds (fun _ g' => g' = 0) (do
      let r ← call op
      leave request (some s)
      pure (status r)) g := by
  apply Borrowing.uses_lend hreturns
  · rw [huses, h.1]
    intro ref href
    obtain rfl := Multiset.mem_singleton.mp href
    exact mem_heldFds h.2.1 h.2.2
  · intro r
    rw [hlends r, zero_add]
    apply uses_bind
    apply uses_mono (holds_leave h)
    rintro _ _ rfl
    exact rfl

theorem holds_read : Holds (fun _ g => g = 0) (read acc request) 0 := by
  apply uses_bind
  apply uses_mono holds_select
  rintro selected g h
  cases selected with
  | none => exact h
  | some s => exact holds_transfer rfl rfl (fun _ => rfl) h

theorem holds_write : Holds (fun _ g => g = 0) (write acc request) 0 := by
  apply uses_bind
  apply uses_mono holds_select
  rintro selected g h
  cases selected with
  | none => exact h
  | some s => exact holds_transfer rfl rfl (fun _ => rfl) h

def TaskHeld (held : Multiset FdRef) (x : NodeLocalReadRequest × Option Selected) : Prop :=
  ∀ s, x.2 = some s → 0 ≤ s.fd ∧ .fd x.1.storeId s.fd ∈ held

theorem taskHeld_of_split {tasks : List (NodeLocalReadRequest × Option Selected)} {g : Multiset FdRef}
    (h : Split (fun x g => Looked x.1 x.2 g) tasks g) : ∀ x ∈ tasks, TaskHeld g x := by
  induction h with
  | nil => simp
  | @cons x xs g g' hx _ ih =>
    intro y hy s hs
    rcases List.mem_cons.mp hy with rfl | hy
    · rw [hs] at hx
      obtain ⟨rfl,hmem,hpos⟩ := hx
      exact ⟨hpos,Multiset.mem_add.mpr (.inl (mem_heldFds hmem hpos))⟩
    · obtain ⟨hpos,hmem⟩ := ih y hy s hs
      exact ⟨hpos,Multiset.mem_add.mpr (.inr hmem)⟩

theorem holds_readTask {x : NodeLocalReadRequest × Option Selected} (h : TaskHeld held x) :
    Holds (fun _ g => g = held) (readTask x) held := by
  obtain ⟨request,selected⟩ := x
  cases selected with
  | none => exact rfl
  | some s =>
    apply Borrowing.uses_lend rfl
    · intro ref href
      obtain rfl := Multiset.mem_singleton.mp href
      exact (h s rfl).2
    · intro nread
      have hnone : fdBorrowing.lends (.pread request.storeId s.fd request.offset request.size) nread + held =
          held := zero_add held
      rw [hnone]
      split
      · exact rfl
      · split <;> exact rfl

theorem holds_runTasks {tasks : List (NodeLocalReadRequest × Option Selected)}
    (h : ∀ x ∈ tasks, TaskHeld held x) : Holds (fun _ g => g = held) (runTasks tasks) held := by
  apply Borrowing.uses_lend rfl (Multiset.zero_subset held)
  intro order
  have hnone : fdBorrowing.lends (.schedule tasks.length) order + held = held := zero_add held
  rw [hnone]
  apply uses_bind
  apply uses_mono (Borrowing.uses_mapEach_keep ?_)
  · rintro done _ rfl
    exact rfl
  · intro i _
    apply uses_bind
    have htask : Holds (fun _ g => g = held) (((tasks[i]?).map readTask).getD (pure .OK)) held := by
      cases hi : tasks[i]? with
      | none => exact rfl
      | some x => exact holds_readTask (h x (List.mem_of_getElem? hi))
    apply uses_mono htask
    rintro s _ rfl
    exact rfl

def Prepares (fd : ℤ) (requests : List UringIORequest) : UringCall → Prop
  | .getSqe _ i _ io => ∃ request, requests[i]? = some request ∧
      io = { request with fd := if 0 ≤ request.fd then request.fd else fd }
  | _ => True

section
variable {engine : IOUringEngine} {uringOp : UringOp} {fd : ℤ} {requests : List UringIORequest}

theorem makes_prepare (n i room : ℕ) :
    (IOUringEngine.prepare uringOp fd requests n i room).Makes (Prepares fd requests) := by
  induction room generalizing i with
  | zero => trivial
  | succ room ih =>
    unfold IOUringEngine.prepare
    split
    · trivial
    · next request hrequest =>
      apply Prog.Makes.bind (Prog.makes_perform ⟨request,hrequest,rfl⟩)
      intro got
      split
      · trivial
      · exact (ih (i + 1)).bind fun _ => trivial

theorem makes_reap (n count : ℕ) (results : List UringIOResult) :
    (engine.reap uringOp requests n count results).Makes (Prepares fd requests) := by
  induction count generalizing results with
  | zero => trivial
  | succ count ih =>
    apply Prog.Makes.bind (Prog.makes_perform trivial)
    intro cqe
    cases cqe with
    | none => exact ih results
    | some q => exact (Prog.makes_perform trivial).bind fun _ => ih _

theorem makes_subBatches (n rounds idx : ℕ) (results : List UringIOResult) :
    (engine.subBatches uringOp fd requests n rounds idx results).Makes (Prepares fd requests) := by
  induction rounds generalizing idx results with
  | zero => trivial
  | succ rounds ih =>
    unfold IOUringEngine.subBatches
    split
    · trivial
    apply (makes_prepare _ _ _).bind
    intro submitted
    split
    · trivial
    apply Prog.Makes.bind (Prog.makes_perform trivial)
    intro ret
    cases ret with
    | error e => exact ih _ _
    | ok m => exact (makes_reap _ _ _).bind fun _ => ih _ _

theorem makes_batch : (engine.batch uringOp fd requests).Makes (Prepares fd requests) := by
  apply Prog.Makes.bind (Prog.makes_perform trivial)
  intro n
  split
  · trivial
  · exact (makes_subBatches _ _ _ _).bind fun _ => trivial

end

/-- Whatever liburing is called for in a batch, its descriptors are held. -/
theorem uses_ring {reads : List (ℕ × UringIORequest)} {op : UringCall}
    (hheld : ∀ read ∈ reads, 0 ≤ read.2.fd ∧ .fd read.1 read.2.fd ∈ held)
    (hop : Prepares (-1) (reads.map Prod.snd) op) :
    fdBorrowing.uses (.ring (reads.map fun read => (read.1,read.2.fd)) op) ⊆ held := by
  have hall : ∀ x ∈ reads.map fun read => (read.1,read.2.fd), FdRef.fd x.1 x.2 ∈ held := by
    intro x hx
    obtain ⟨read,hread,rfl⟩ := List.mem_map.mp hx
    exact (hheld read hread).2
  intro ref href
  obtain ⟨x,hx,rfl⟩ := List.mem_map.mp (Multiset.mem_coe.mp href)
  cases op with
  | getSqe n i uringOp io =>
    rcases List.mem_append.mp hx with hx | hx
    · exact hall x hx
    · obtain ⟨y,hy,rfl⟩ := Option.map_eq_some_iff.mp (Option.mem_toList.mp hx)
      rw [List.getElem?_map] at hy
      obtain ⟨read,hread,rfl⟩ := Option.map_eq_some_iff.mp hy
      obtain ⟨request,hrequest,rfl⟩ := hop
      rw [List.getElem?_map, hread] at hrequest
      obtain rfl := Option.some.inj hrequest
      obtain ⟨hpos,hmem⟩ := hheld read (List.mem_of_getElem? hread)
      dsimp only
      rw [if_pos hpos]
      exact hmem
  | _ => exact hall x hx

theorem holds_engineRead {engine : IOUringEngine} {reads : List (ℕ × UringIORequest)}
    (hheld : ∀ read ∈ reads, 0 ≤ read.2.fd ∧ .fd read.1 read.2.fd ∈ held) :
    Holds (fun _ g => g = held) (engineRead engine reads) held := by
  have hring : ∀ {α : Type} {p : UringProg α}, p.Makes (Prepares (-1) (reads.map Prod.snd)) →
      Holds (fun _ g => g = held)
        (p.interp fun op => call (.ring (reads.map fun read => (read.1,read.2.fd)) op)) held := by
    intro α p hp
    induction p with
    | ret a => exact rfl
    | call op k ih =>
      apply Borrowing.uses_lend rfl (uses_ring hheld hp.1)
      intro r
      have hnone : fdBorrowing.lends (.ring (reads.map fun read => (read.1,read.2.fd)) op) r + held =
          held := zero_add held
      rw [hnone]
      exact ih r (hp.2 r)
  exact hring makes_batch

theorem mem_uringReads {tasks : List (NodeLocalReadRequest × Option Selected)} {read : ℕ × UringIORequest}
    (h : read ∈ (uringReads tasks).map Prod.fst) :
    ∃ request s, (request,some s) ∈ tasks ∧ read = uringRead request s := by
  obtain ⟨⟨read',i⟩,hmem,rfl⟩ := List.mem_map.mp h
  obtain ⟨⟨⟨request,selected⟩,j⟩,htask,hsome⟩ := List.mem_filterMap.mp hmem
  obtain ⟨s,hs,he⟩ := Option.map_eq_some_iff.mp hsome
  cases he
  cases hs
  exact ⟨request,s,List.fst_mem_of_mem_zipIdx htask,rfl⟩

theorem holds_readThroughRing {engine : IOUringEngine}
    {tasks : List (NodeLocalReadRequest × Option Selected)} (h : ∀ x ∈ tasks, TaskHeld held x) :
    Holds (fun _ g => g = held) (readThroughRing engine tasks) held := by
  unfold readThroughRing
  split
  · exact rfl
  have hheld : ∀ read ∈ (uringReads tasks).map Prod.fst, 0 ≤ read.2.fd ∧ .fd read.1 read.2.fd ∈ held := by
    intro read hread
    obtain ⟨request,s,htask,rfl⟩ := mem_uringReads hread
    exact h _ htask s rfl
  apply uses_bind
  apply uses_mono (holds_engineRead hheld)
  rintro r _ rfl
  exact rfl

theorem holds_readAgain (x : NodeLocalReadRequest × Option Selected) :
    Holds (fun _ g => g = held) (readAgain acc x) held := by
  unfold readAgain
  split
  · exact rfl
  · apply uses_mono (uses_frame_of (zero_add held).symm holds_read)
    rintro s _ ⟨g,rfl,rfl⟩
    exact zero_add held

theorem holds_batchRead (requests : List NodeLocalReadRequest) :
    Holds (fun _ g => g = 0) (batchRead acc requests) 0 := by
  unfold batchRead
  split
  · exact rfl
  have hselects : Holds (fun selected g => selected.length = requests.length ∧
      Split (fun x g => Looked x.1 x.2 g) (requests.zip selected) g)
      (Prog.mapEach (select acc) requests) 0 := by
    apply uses_mapEach
    apply split_zero
    intro request _
    exact holds_select
  apply uses_bind
  apply uses_mono hselects
  rintro selected g ⟨-,hsplit⟩
  have hheld := taskHeld_of_split hsplit
  apply uses_bind
  have hreads : Holds (fun _ g' => g' = g) (readSelected acc (requests.zip selected)) g := by
    unfold readSelected
    split
    · exact holds_readThroughRing hheld
    split
    · exact holds_runTasks hheld
    · exact Borrowing.uses_mapEach_keep fun x _ => holds_readAgain x
  apply uses_mono hreads
  rintro statuses _ rfl
  apply uses_bind
  apply uses_mono (uses_forEach (hsplit.mono fun x _ g h => holds_leave h))
  rintro _ _ rfl
  exact rfl

end FdOps

/-- A call that neither lends nor takes anything back, as a whole thread. -/
theorem fair_idle {op : FdCall} {v : op.Res → List Status} (huses : fdBorrowing.uses op = 0)
    (hreturns : fdBorrowing.returns op = 0) (hlends : ∀ r, fdBorrowing.lends op r = 0) :
    fdBorrowing.Fair (FdOps.call op >>= fun r => Prog.ret (v r)) := by
  apply Borrowing.uses_lend hreturns
  · rw [huses]
    exact Multiset.zero_subset 0
  · intro r
    rw [hlends r]
    exact add_zero 0

/-- Every thread uses only what it has looked up, and gives everything back. -/
theorem fair_fdOp (op : FdOp) : fdBorrowing.Fair op.run := by
  have hone : ∀ {p : FdProg Status}, FdOps.Holds (fun _ g => g = 0) p 0 →
      fdBorrowing.Fair (p >>= fun s => pure [s]) := by
    intro p hp
    apply uses_bind
    apply uses_mono hp
    rintro s _ rfl
    exact rfl
  cases op with
  | read acc request => exact hone FdOps.holds_read
  | write acc request => exact hone FdOps.holds_write
  | batchRead acc requests => exact FdOps.holds_batchRead requests
  | _ => exact fair_idle rfl rfl fun _ => rfl

namespace FdWorld
variable {x y : FdWorld} {op : FdCall} {c : FdRunChoice} {r : op.Res}

def Live (x : FdWorld) : FdRef → Prop
  | .path storeId dataFile => (storeId,dataFile) ∈ x.registered
  | .fd storeId fd => 0 ≤ fd ∧ ∃ file, x.table fd.toNat = some file ∧ file.byCache = true ∧
      (storeId,file.path) ∈ x.registered

structure Registered (x : FdWorld) : Prop where
  mem : ∀ storeId dataFile, x.storeFiles.lookup storeId = some dataFile → (storeId,dataFile) ∈ x.registered
  lookup : ∀ storeId dataFile, (storeId,dataFile) ∈ x.registered →
    ∃ current, x.storeFiles.lookup storeId = some current

structure Lent (x : FdWorld × Multiset FdRef) : Prop where
  tight : x.1.Tight
  known : x.1.Registered
  live : ∀ ref ∈ x.2, x.1.Live ref

structure Carries (x y : FdWorld) (closed : ℕ → Prop) : Prop where
  known : x.Registered → y.Registered
  registered : x.registered ⊆ y.registered
  table : ∀ n file, x.table n = some file → file.byCache = true → ¬ closed n → y.table n = some file

theorem Carries.of_same {closed : ℕ → Prop} (hrest : SameRest x y)
    (htable : ∀ n file, x.table n = some file → file.byCache = true → ¬ closed n →
      y.table n = some file) : Carries x y closed where
  known := by
    intro h
    constructor
    · intro storeId dataFile hlook
      rw [hrest.storeFiles] at hlook
      rw [hrest.registered]
      exact h.mem storeId dataFile hlook
    · intro storeId dataFile hmem
      rw [hrest.registered] at hmem
      rw [hrest.storeFiles]
      exact h.lookup storeId dataFile hmem
  registered := by
    rw [hrest.registered]
    exact List.Subset.refl _
  table := htable

theorem carries_registerStoreFile (x : FdWorld) (storeId : ℕ) (dataFile : String) (closed : ℕ → Prop) :
    Carries x (x.registerStoreFile storeId dataFile).2 closed := by
  have htable := (registerStoreFile_same x storeId dataFile).1
  refine ⟨?_,?_,fun n file hn _ _ => by rw [htable, hn]⟩
  · intro h
    unfold FdWorld.registerStoreFile
    split
    · exact h
    constructor
    · intro storeId' dataFile' hlook
      dsimp only at hlook ⊢
      by_cases hid : storeId' = storeId
      · subst hid
        rw [AList.lookup_insert] at hlook
        cases hlook
        exact List.mem_append_right _ (List.mem_singleton_self _)
      · rw [AList.lookup_insert_ne hid] at hlook
        exact List.mem_append_left _ (h.mem storeId' dataFile' hlook)
    · intro storeId' dataFile' hmem
      dsimp only at hmem ⊢
      by_cases hid : storeId' = storeId
      · subst hid
        exact ⟨dataFile,AList.lookup_insert _⟩
      · rw [AList.lookup_insert_ne hid]
        rcases List.mem_append.mp hmem with hold | hnew
        · exact h.lookup storeId' dataFile' hold
        · cases List.mem_singleton.mp hnew
          exact absurd rfl hid
  · unfold FdWorld.registerStoreFile
    split
    · exact List.Subset.refl _
    · exact List.subset_append_left _ _

def closedBy (x : FdWorld) (op : FdCall) (n : ℕ) : Prop :=
  ∃ path entry, x.fdMap.lookup path = some entry ∧ op.evicts entry = true ∧ n ∈ entry.fds

theorem Tight.carries (h : x.Tight) (hs : x.step op c = some (r,y)) : Carries x y (x.closedBy op) := by
  have hround : ∀ {p : TimedFdEntry → Bool} {z : FdWorld}, Evicted p x.fdMap.entries x z →
      (∀ entry, p entry = op.evicts entry) → ∀ n file, x.table n = some file → ¬ x.closedBy op n →
        z.table n = some file := by
    intro p z hz hp n file hn hopen
    rcases hz.table n with hsame | ⟨-,e,he,hpe,hmem⟩
    · exact hsame.trans hn
    · rw [hp] at hpe
      exact absurd ⟨e.1,e.2,lookup_of_mem_entries.mpr he,hpe,hmem⟩ hopen
  cases op with
  | registerStoreFile storeId dataFile =>
    obtain rfl : (x.registerStoreFile storeId dataFile).2 = y := congrArg Prod.snd (Option.some.inj hs)
    exact carries_registerStoreFile x storeId dataFile _
  | getFd storeId dataFile =>
    obtain ⟨⟨entry,y'⟩,hlook,he⟩ := Option.map_eq_some_iff.mp hs
    cases he
    have hlooked := h.lookUp hlook
    exact .of_same hlooked.rest fun n file hn _ _ => hlooked.kept n file hn
  | getBufferedFd storeId dataFile =>
    obtain ⟨⟨entry,y'⟩,hlook,he⟩ := Option.map_eq_some_iff.mp hs
    cases he
    have hlooked := h.lookUp hlook
    exact .of_same hlooked.rest fun n file hn _ _ => hlooked.kept n file hn
  | schedule count =>
    unfold FdWorld.step at hs
    dsimp only at hs
    split at hs
    · cases hs
      exact .of_same (.refl x) fun n file hn _ _ => hn
    · cases hs
  | evictIdle now idleThresholdMs =>
    cases hs
    have hevicted := h.evictIdle now idleThresholdMs
    exact .of_same hevicted.rest fun n file hn _ hopen => hround hevicted (fun _ => rfl) n file hn hopen
  | closeAll =>
    cases hs
    have hevicted := h.evictAll fun _ => true
    rw [x.closeAll_eq]
    refine .of_same ⟨hevicted.rest.storeFiles,hevicted.rest.registered⟩ fun n file hn _ hopen => ?_
    exact hround hevicted (fun _ => rfl) n file hn hopen
  | openElsewhere path direct =>
    have hopens := opens_of_openFile hs
    exact .of_same hopens.rest fun n file hn _ _ => hopens.kept n file hn
  | closeElsewhere fd =>
    unfold FdWorld.step at hs
    dsimp only at hs
    split at hs
    · next hother =>
      cases hs
      exact .of_same ⟨rfl,rfl⟩ fun n file hn hcache _ => (closeElsewhere_same hother n file hcache).mpr hn
    · cases hs
  | _ =>
    cases hs
    exact .of_same (.refl x) fun n file hn _ _ => hn

theorem Live.carried {ref : FdRef} {closed : ℕ → Prop} (h : x.Live ref) (hc : Carries x y closed)
    (hopen : ∀ storeId fd, ref = .fd storeId fd → ¬ closed fd.toNat) : y.Live ref := by
  cases ref with
  | path storeId dataFile => exact hc.registered h
  | fd storeId fd =>
    obtain ⟨hpos,file,hfile,hcache,hreg⟩ := h
    exact ⟨hpos,file,hc.table _ file hfile hcache (hopen storeId fd rfl),hcache,hc.registered hreg⟩

theorem Lent.step {x : FdWorld × Multiset FdRef} (h : Lent x) (huses : fdBorrowing.uses op ⊆ x.2)
    (hok : op.Spares x) (hs : x.1.step op c = some (r,y)) : Lent (y,fdBorrowing.note op r x.1 x.2) := by
  have hcarries := h.tight.carries hs
  have hold : ∀ ref ∈ x.2, y.Live ref := by
    intro ref href
    refine (h.live ref href).carried hcarries ?_
    rintro storeId fd rfl ⟨path,entry,hentry,hevicts,hmem⟩
    exact hok storeId fd href path entry hentry hevicts hmem
  refine ⟨h.tight.step hs,hcarries.known h.known,fun ref href => ?_⟩
  rcases Multiset.mem_add.mp href with hnew | hkept
  · -- a path that stands in the map, or the answer of a lookup
    have hlooked : ∀ {storeId : ℕ} {a : FdLookup}, op.lookup r = some a →
        .path storeId a.dataFile ∈ x.2 → ref ∈ fdRefs storeId a.fd → y.Live ref := by
      intro storeId a ha hpath hmem
      obtain ⟨hpos,rfl⟩ := FdOps.mem_fdRefs.mp hmem
      obtain ⟨entry,hentry,hfd⟩ := h.tight.lookup_step hs ha
      rw [hfd] at hpos ⊢
      obtain ⟨mode,htable,-⟩ := hentry.open hpos
      exact ⟨hpos,_,htable,rfl,hold _ hpath⟩
    cases op with
    | getStoreFilePath storeId =>
      cases hs
      dsimp only [fdBorrowing] at hnew
      split at hnew
      · cases hnew
      · next hne =>
        obtain rfl := Multiset.mem_singleton.mp hnew
        cases hlook : x.1.storeFiles.lookup storeId with
        | none =>
          rw [hlook] at hne
          exact absurd rfl hne
        | some path => exact h.known.mem storeId path hlook
    | getFd storeId dataFile => exact hlooked (a := ⟨dataFile,true,r⟩) rfl (huses (Multiset.mem_singleton_self _)) hnew
    | getBufferedFd storeId dataFile =>
      exact hlooked (a := ⟨dataFile,false,r⟩) rfl (huses (Multiset.mem_singleton_self _)) hnew
    | _ => cases hnew
  · exact hold ref (Multiset.mem_of_le (Multiset.sub_le_self _ _) hkept)

end FdWorld

/-- The descriptor is open, by the cache, on a file that was registered for the store; if no other file
was ever registered for the store, on the one that is registered for it. -/
def FdWorld.OpenFor (x : FdWorld) (storeId : ℕ) (fd : ℤ) : Prop :=
  0 ≤ fd ∧ ∃ file, x.table fd.toNat = some file ∧ file.byCache = true ∧
    (storeId,file.path) ∈ x.registered ∧
    ((∀ other, (storeId,other) ∈ x.registered → other = file.path) →
      x.storeFiles.lookup storeId = some file.path)

def FdWorld.OpenOrKnown (x : FdWorld) : FdRef → Prop
  | .path storeId dataFile => (storeId,dataFile) ∈ x.registered
  | .fd storeId fd => x.OpenFor storeId fd

theorem FdWorld.Lent.openFor {x : FdWorld × Multiset FdRef} {storeId : ℕ} {fd : ℤ} (h : FdWorld.Lent x)
    (hlive : x.1.Live (.fd storeId fd)) : x.1.OpenFor storeId fd := by
  obtain ⟨hpos,file,hfile,hcache,hreg⟩ := hlive
  refine ⟨hpos,file,hfile,hcache,hreg,fun honly => ?_⟩
  obtain ⟨current,hcurrent⟩ := h.known.lookup storeId file.path hreg
  rw [hcurrent, honly current (h.known.mem storeId current hcurrent)]

theorem FdWorld.Lent.openOrKnown {x : FdWorld × Multiset FdRef} {ref : FdRef} (h : FdWorld.Lent x)
    (href : ref ∈ x.2) : x.1.OpenOrKnown ref := by
  have hlive := h.live ref href
  cases ref with
  | path storeId dataFile => exact hlive
  | fd storeId fd => exact h.openFor hlive

/-- If no eviction closes what a call in progress has looked up, every read and every write of the
accessor, through the ring or not, goes through an open descriptor of the file of its store. -/
theorem transfers_live {table : ℕ → Option OpenFile} {tr : List (Event fdCalls (FdWorld × Multiset FdRef))}
    {P : Pool fdCalls (FdWorld × Multiset FdRef) (List Status)}
    (htable : ∀ fd file, table fd = some file → file.byCache = false)
    (hr : Run (fdMachine.withRecord fdBorrowing.note) (fun p => ∃ op : FdOp, p = op.run)
      (fun x op => op.Spares x) ⟨(.init table,0),[]⟩ tr P) :
    ∀ e ∈ tr, ∀ storeId fd, (storeId,fd) ∈ e.op.transfers → e.before.1.OpenFor storeId fd := by
  have hinit : FdWorld.Lent (.init table,0) := by
    refine ⟨FdWorld.tight_init htable,⟨?_,by simp [FdWorld.init]⟩,by simp⟩
    intro storeId dataFile hlook
    cases hlook
  have hfair : ∀ p : FdProg (List Status), (∃ op : FdOp, p = op.run) → fdBorrowing.Fair p := by
    rintro p ⟨op,rfl⟩
    exact fair_fdOp op
  obtain ⟨-,huses,-⟩ := Borrowing.run FdWorld.OpenOrKnown hinit FdWorld.Lent.openOrKnown
    (fun h huses hok hs => h.step huses hok hs) hfair hr
  intro e he storeId fd htransfer
  have hmem : FdRef.fd storeId fd ∈ fdBorrowing.uses e.op := by
    have hcoe : FdRef.fd storeId fd ∈ e.op.transfers.map fun x => FdRef.fd x.1 x.2 :=
      List.mem_map.mpr ⟨(storeId,fd),htransfer,rfl⟩
    cases hop : e.op with
    | getFd => rw [hop] at htransfer; cases htransfer
    | getBufferedFd => rw [hop] at htransfer; cases htransfer
    | _ =>
      rw [hop] at hcoe
      exact hcoe
  exact huses e he _ hmem

def uringAccessor : NodeLocalAccessor := ⟨some ⟨true,8,fun _ => "",fun _ => by decide⟩,true,4096⟩

/-- Two stores with a file each: one is read alone, beside a batch for both through the ring, and the
cache is closed when the calls have returned. What the reads go through, last of a batch its entries. -/
theorem transfers_live_two : ∃ tr P,
    Run (fdMachine.withRecord fdBorrowing.note) (fun p => ∃ op : FdOp, p = op.run)
      (fun x op => op.Spares x) ⟨(.init fun _ => none,0),[]⟩ tr P ∧
      tr.filterMap (fun e => e.op.transfers.getLast?) =
        [(1,5),(2,8),(1,5),(1,5),(1,5),(1,5),(1,5),(1,5),(1,5)] ∧
      ∀ e ∈ tr, ∀ storeId fd, (storeId,fd) ∈ e.op.transfers → e.before.1.OpenFor storeId fd := by
  have hsched : (Pool.follow (M := fdMachine.withRecord fdBorrowing.note)
      (fun x (op : FdCall) => !op.closes || x.2.card == 0)
      ([(0,{}),(1,{}),(2,{}),(2,{ buffered := some 5, direct := some 6 }),(3,{}),(2,{}),
        (3,{ buffered := some 7, direct := some 8 }),(3,{}),(3,{}),(3,{}),(3,{}),(3,{}),(3,{}),
        (3,{}),(3,{}),(3,{}),(3,{}),(2,{}),(2,{ transferred := ⟨100,""⟩ }),
        (3,{ cqe := some ⟨⟨0,1,.read,⟨0,100,0,5⟩⟩,100⟩ }),(3,{}),
        (3,{ cqe := some ⟨⟨0,0,.read,⟨0,4096,0,8⟩⟩,4096⟩ }),(3,{}),(2,{}),(3,{}),(3,{}),(4,{})])
      ⟨(.init fun _ => none,0),[FdOp.registerStoreFile 1 "c",.registerStoreFile 2 "d",
        .read plainAccessor ⟨1,0,0,100⟩,.batchRead uringAccessor [⟨2,0,0,4096⟩,⟨1,0,0,100⟩],
        .close].map FdOp.run⟩).map
      (fun x => x.1.filterMap fun e => e.op.transfers.getLast?) =
        some [(1,5),(2,8),(1,5),(1,5),(1,5),(1,5),(1,5),(1,5),(1,5)] := by decide +kernel
  obtain ⟨tr,P,hr,hfds⟩ := run_of_schedule (fun p => ∃ op : FdOp, p = op.run) (by simp) hsched
  have hspares : ∀ (x : FdWorld × Multiset FdRef) (op : FdCall),
      (!op.closes || x.2.card == 0) = true → op.Spares x := by
    intro x op h storeId fd hlent path entry _ hevicts
    rcases Bool.or_eq_true_iff.mp h with hop | hnone
    · cases op with
      | evictIdle now idleThresholdMs => cases hop
      | closeAll => cases hop
      | _ => cases hevicts
    · rw [Multiset.card_eq_zero.mp (beq_iff_eq.mp hnone)] at hlent
      cases hlent
  have hr : Run (fdMachine.withRecord fdBorrowing.note) (fun p => ∃ op : FdOp, p = op.run)
      (fun x op => op.Spares x) ⟨(.init fun _ => none,0),[]⟩ tr P := hr.ok_mono hspares
  exact ⟨tr,P,hr,hfds,transfers_live (by simp) hr⟩

end FalconKV
