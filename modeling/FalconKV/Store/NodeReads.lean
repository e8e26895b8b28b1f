import FalconKV.Store.NodeEngines

/-! # Many reads at once and one read

`BatchRead` gives every request the status that `Read` gives it alone, and fills the same buffers
with the same bytes, whichever engine serves it: unless io_uring completes a request with the
offset that it takes for the position of the file.
-/
namespace FalconKV
open AtomicCalls

namespace NodeWorld
variable {files : DataFiles} {x y z : NodeWorld} {direct : Bool} {storeId : ℕ}

/-- What the cache has for a data file, or would open. -/
def entry (files : DataFiles) (x : NodeWorld) (dataFile : String) : FdEntry :=
  (x.fdCache.lookup dataFile).getD (files.opened dataFile)

structure Looked (files : DataFiles) (x y : NodeWorld) : Prop where
  storeFiles : y.storeFiles = x.storeFiles
  entries : ∀ dataFile, y.entry files dataFile = x.entry files dataFile
  ring : y.ring = x.ring

theorem Looked.refl (x : NodeWorld) : Looked files x x := ⟨rfl,fun _ => rfl,rfl⟩

theorem Looked.trans (h : Looked files x y) (h' : Looked files y z) : Looked files x z :=
  ⟨h'.storeFiles.trans h.storeFiles,fun dataFile => (h'.entries dataFile).trans (h.entries dataFile),
    h'.ring.trans h.ring⟩

theorem getOrCreate_fst (dataFile : String) :
    (x.getOrCreate files dataFile).1 = x.entry files dataFile := by
  unfold getOrCreate entry
  cases x.fdCache.lookup dataFile <;> rfl

theorem looked_getOrCreate (dataFile : String) :
    Looked files x (x.getOrCreate files dataFile).2 ∧ (x.getOrCreate files dataFile).2.served = x.served := by
  unfold getOrCreate
  cases hf : x.fdCache.lookup dataFile with
  | some entry => exact ⟨.refl x,rfl⟩
  | none =>
    refine ⟨⟨rfl,fun other => ?_,rfl⟩,rfl⟩
    unfold entry
    by_cases hother : other = dataFile
    · subst hother
      simp [hf]
    · rw [AList.lookup_insert_ne hother]

theorem looked_getFd (x : NodeWorld) (direct : Bool) (storeId : ℕ) (files : DataFiles) :
    Looked files x (x.getFd files direct storeId).2 ∧ (x.getFd files direct storeId).2.served = x.served := by
  unfold getFd
  dsimp only
  split
  · exact ⟨.refl x,rfl⟩
  · exact looked_getOrCreate _

theorem Looked.getFd (h : Looked files x y) :
    (y.getFd files direct storeId).1 = (x.getFd files direct storeId).1 := by
  have hpath : y.getStoreFilePath storeId = x.getStoreFilePath storeId := by
    rw [getStoreFilePath, getStoreFilePath, h.storeFiles]
  unfold NodeWorld.getFd
  rw [hpath]
  dsimp only
  split
  · rfl
  · rw [getOrCreate_fst, getOrCreate_fst, h.entries]

def delivered (x y : NodeWorld) : List (UringIORequest × ReadOutcome) :=
  (y.served.drop x.served.length).filter isFull

end NodeWorld

namespace NodeLocalAccessor
open NodeWorld
variable {files : DataFiles} {acc : NodeLocalAccessor} {x y z : NodeWorld}
  {request : NodeLocalReadRequest} {requests : List NodeLocalReadRequest}

def target (files : DataFiles) (acc : NodeLocalAccessor) (x : NodeWorld) (request : NodeLocalReadRequest) :
    Option UringIORequest :=
  if (x.getFd files false request.storeId).1 < 0 then none
  else some (acc.resolvedWith (x.getFd files false request.storeId).1
    (x.getFd files true request.storeId).1 request)

theorem target_looked (h : Looked files x y) (request : NodeLocalReadRequest) :
    acc.target files y request = acc.target files x request := by
  rw [target, target, h.getFd, h.getFd]

theorem offset_target {io : UringIORequest} (h : acc.target files x request = some io) :
    io.offset = request.offset ∧ io.size = request.size ∧ 0 ≤ io.fd := by
  unfold target at h
  split at h
  · cases h
  · next hfd =>
    cases h
    refine ⟨rfl,rfl,?_⟩
    dsimp only [resolvedWith]
    split
    · next hdirect =>
      simp only [useDirect, Bool.and_eq_true, decide_eq_true_eq] at hdirect
      exact hdirect.1.1.1.1
    · omega

def toExcept (request : NodeLocalReadRequest) : Option UringIORequest → Except Status UringIORequest
  | none => .error (noFile request)
  | some io => .ok io

theorem wp_getBufferedFd {α : Type} {post : α → NodeWorld → Prop} {storeId : ℕ} {k : ℤ → NodeProg α}
    (h : wp (nodeMachine files) (fun _ _ => True) post (k (x.getFd files false storeId).1)
      (x.getFd files false storeId).2) :
    wp (nodeMachine files) (fun _ _ => True) post (call (.getBufferedFd storeId) >>= k) x := by
  apply wp_perform trivial
  intro c fd y hstep
  have hfd : x.getFd files false storeId = (fd,y) := Option.some.inj hstep
  rwa [hfd] at h

theorem wp_getDirectFd {α : Type} {post : α → NodeWorld → Prop} {storeId : ℕ} {k : ℤ → NodeProg α}
    (h : wp (nodeMachine files) (fun _ _ => True) post (k (x.getFd files true storeId).1)
      (x.getFd files true storeId).2) :
    wp (nodeMachine files) (fun _ _ => True) post (call (.getDirectFd storeId) >>= k) x := by
  apply wp_perform trivial
  intro c fd y hstep
  have hfd : x.getFd files true storeId = (fd,y) := Option.some.inj hstep
  rwa [hfd] at h

theorem wp_resolve (request : NodeLocalReadRequest) :
    wp (nodeMachine files) (fun _ _ => True)
      (fun r y => r = toExcept request (acc.target files x request) ∧ Looked files x y ∧ y.served = x.served)
      (acc.resolve request) x := by
  apply wp_getBufferedFd
  obtain ⟨hlooked,hserved⟩ := looked_getFd x false request.storeId files
  rw [target]
  split
  · exact ⟨rfl,hlooked,hserved⟩
  · apply wp_getDirectFd
    obtain ⟨hlooked',hserved'⟩ :=
      looked_getFd (x.getFd files false request.storeId).2 true request.storeId files
    refine ⟨?_,hlooked.trans hlooked',hserved'.trans hserved⟩
    rw [hlooked.getFd]
    rfl

theorem wp_resolveAll (requests : List NodeLocalReadRequest) :
    wp (nodeMachine files) (fun _ _ => True)
      (fun resolved y => resolved = requests.map (fun request => toExcept request (acc.target files x request)) ∧
        Looked files x y ∧ y.served = x.served)
      (Prog.mapEach acc.resolve requests) x := by
  induction requests generalizing x with
  | nil => exact ⟨rfl,.refl x,rfl⟩
  | cons request requests ih =>
    apply wp_bind.mpr
    apply wp_mono (wp_resolve request)
    rintro r y ⟨rfl,hlooked,hserved⟩
    apply wp_bind.mpr
    apply wp_mono ih
    rintro resolved z ⟨rfl,hlooked',hserved'⟩
    refine ⟨?_,hlooked.trans hlooked',hserved'.trans hserved⟩
    simp only [target_looked hlooked, List.map_cons]

/-- `Read` reads once, if it finds a file, and tells whether in full. -/
theorem wp_read (request : NodeLocalReadRequest) :
    wp (nodeMachine files) (fun _ _ => True)
      (fun s y => Looked files x y ∧
        y.served = x.served ++ (acc.target files x request).toList.map (fun io => (io,files.pread io)) ∧
        s.isOk = (acc.target files x request).any fun io => isFull (io,files.pread io))
      (acc.read request) x := by
  apply wp_bind.mpr
  apply wp_mono (wp_resolve request)
  rintro _ y ⟨rfl,hlooked,hserved⟩
  cases htarget : acc.target files x request with
  | none => exact ⟨hlooked,by simp [hserved],rfl⟩
  | some io =>
    have hsize := (offset_target htarget).2.1
    have hmore : Looked files x { y with served := y.served ++ [(io,files.pread io)] } :=
      ⟨hlooked.storeFiles,hlooked.entries,hlooked.ring⟩
    apply wp_bind.mpr
    apply wp_pread
    rw [hsize]
    intro nread hfull
    split
    · next hneg =>
      refine ⟨hmore,by simp [hserved],?_⟩
      have hnot : isFull (io,files.pread io) = false := by
        rw [Bool.eq_false_iff]
        exact fun h => (hfull.mpr h).1 hneg
      exact hnot.symm
    split
    · next hshort =>
      refine ⟨hmore,by simp [hserved],?_⟩
      have hnot : isFull (io,files.pread io) = false := by
        rw [Bool.eq_false_iff]
        exact fun h => (hfull.mpr h).2 hshort
      exact hnot.symm
    · next hneg hshort =>
      exact ⟨hmore,by simp [hserved],(hfull.mp ⟨hneg,hshort⟩).symm⟩

def targetsFrom (files : DataFiles) (acc : NodeLocalAccessor) (x : NodeWorld) (k : ℕ)
    (requests : List NodeLocalReadRequest) : List (UringIORequest × ℕ) :=
  (requests.zipIdx k).filterMap fun r => (acc.target files x r.1).map fun io => (io,r.2)

abbrev targets (files : DataFiles) (acc : NodeLocalAccessor) (x : NodeWorld)
    (requests : List NodeLocalReadRequest) : List (UringIORequest × ℕ) :=
  acc.targetsFrom files x 0 requests

theorem mem_targets {io : UringIORequest} {i : ℕ} : (io,i) ∈ acc.targets files x requests ↔
    ∃ request, requests[i]? = some request ∧ acc.target files x request = some io := by
  simp only [targets, targetsFrom, List.mem_filterMap, Option.map_eq_some_iff, Prod.mk.injEq, Prod.exists,
    List.mk_mem_zipIdx_iff_getElem?]
  constructor
  · rintro ⟨request,i,hrequest,io,htarget,rfl,rfl⟩
    exact ⟨request,hrequest,htarget⟩
  · rintro ⟨request,hrequest,htarget⟩
    exact ⟨request,i,hrequest,io,htarget,rfl,rfl⟩

theorem targets_cons (k : ℕ) : acc.targetsFrom files x k (request :: requests) =
    (acc.target files x request).toList.map (fun io => (io,k)) ++ acc.targetsFrom files x (k + 1) requests := by
  rw [targetsFrom, List.zipIdx_cons]
  cases htarget : acc.target files x request with
  | none => rw [List.filterMap_cons_none (by simp [htarget])]; rfl
  | some io => rw [List.filterMap_cons_some (by rw [htarget]; rfl)]; rfl

theorem map_fst_targetsFrom (k : ℕ) : (acc.targetsFrom files x k requests).map Prod.fst =
    requests.filterMap (acc.target files x) := by
  induction requests generalizing k with
  | nil => rfl
  | cons request requests ih =>
    rw [targets_cons, List.map_append, ih, List.filterMap_cons]
    cases acc.target files x request <;> rfl

theorem nodup_targetsFrom (files : DataFiles) (acc : NodeLocalAccessor) (x : NodeWorld) (k : ℕ)
    (requests : List NodeLocalReadRequest) : ((acc.targetsFrom files x k requests).map Prod.snd).Nodup ∧
      ∀ i ∈ (acc.targetsFrom files x k requests).map Prod.snd, k ≤ i := by
  induction requests generalizing k with
  | nil => exact ⟨List.nodup_nil,by simp [targetsFrom]⟩
  | cons request requests ih =>
    obtain ⟨hnodup,hle⟩ := ih (k + 1)
    rw [targets_cons]
    cases acc.target files x request with
    | none => exact ⟨hnodup,fun i hi => Nat.le_of_succ_le (hle i hi)⟩
    | some io =>
      simp only [Option.toList_some, List.map_cons, List.map_nil, List.cons_append, List.nil_append]
      refine ⟨List.nodup_cons.mpr ⟨fun hk => ?_,hnodup⟩,?_⟩
      · exact absurd (hle k hk) (Nat.not_succ_le_self k)
      · intro i hi
        rcases List.mem_cons.mp hi with rfl | hi
        · exact le_rfl
        · exact Nat.le_of_succ_le (hle i hi)

structure BatchReads (files : DataFiles) (acc : NodeLocalAccessor) (x : NodeWorld)
    (requests : List NodeLocalReadRequest) (results : List Status) (y : NodeWorld) : Prop where
  length : results.length = requests.length
  reads : ∃ new : List (ℕ × UringIORequest × ReadOutcome), y.served = x.served ++ new.map Prod.snd ∧
    (new.map Prod.fst).Perm ((acc.targets files x requests).map Prod.snd) ∧
    ∀ d ∈ new, (d.2.1,d.1) ∈ acc.targets files x requests ∧ Faithful files d.2 ∧
      (results[d.1]?).map Status.isOk = some (isFull d.2)
  noFile : ∀ (i : ℕ) request, requests[i]? = some request → acc.target files x request = none →
    (results[i]?).map Status.isOk = some false

theorem valid_map (requests : List NodeLocalReadRequest) :
    valid (requests.map fun request => toExcept request (acc.target files x request)) =
      acc.targets files x requests := by
  rw [valid, List.zipIdx_map, List.filterMap_map]
  apply List.filterMap_congr
  intro r _
  simp only [Function.comp_apply, Prod.map_fst, Prod.map_snd, id_eq]
  cases acc.target files x r.1 <;> rfl

theorem map_getD_range (indices : List ℕ) :
    ((List.range indices.length).map fun j => indices.getD j 0) = indices := by
  apply List.ext_getElem (by simp)
  intro j hj hj'
  simp [hj']

theorem notMem_targets {request : NodeLocalReadRequest} {i : ℕ} (hrequest : requests[i]? = some request)
    (htarget : acc.target files x request = none) : i ∉ (acc.targets files x requests).map Prod.snd := by
  intro hi
  obtain ⟨⟨io,i⟩,hmem,rfl⟩ := List.mem_map.mp hi
  obtain ⟨request',hrequest',htarget'⟩ := mem_targets.mp hmem
  rw [hrequest] at hrequest'
  cases hrequest'
  rw [htarget] at htarget'
  cases htarget'

/-- Through its index vector, each result goes to the position of its request. -/
theorem batchReads_scatter {statuses : List Status} (hserved : y.served = x.served)
    (h : EngineReads files ((acc.targets files x requests).map Prod.fst) y z statuses) :
    BatchReads files acc x requests
      (scatter (requests.map fun request => statusOf (toExcept request (acc.target files x request)))
        (((acc.targets files x requests).map Prod.snd).zip statuses)) z := by
  obtain ⟨new,hnew,hperm,hreads⟩ := h.reads
  have hlength := h.length
  rw [List.length_map] at hlength hperm
  obtain ⟨hnodup,-⟩ := nodup_targetsFrom files acc x 0 requests
  -- the position that the index vector has for the `j`-th valid request
  have hindex : ∀ {d : ℕ × UringIORequest × ReadOutcome}, d ∈ new → ∃ i,
      (acc.targets files x requests)[d.1]? = some (d.2.1,i) ∧
        ((acc.targets files x requests).map Prod.snd).getD d.1 0 = i := by
    intro d hd
    obtain ⟨⟨io,i⟩,hget,hio⟩ := Option.map_eq_some_iff.mp ((List.getElem?_map ..).symm.trans (hreads d hd).1)
    dsimp only at hio
    subst hio
    refine ⟨i,hget,?_⟩
    rw [List.getD_eq_getElem?_getD, List.getElem?_map, hget]
    rfl
  have hzip : (((acc.targets files x requests).map Prod.snd).zip statuses).map Prod.fst =
      (acc.targets files x requests).map Prod.snd :=
    List.map_fst_zip (by rw [List.length_map, hlength])
  refine ⟨by rw [length_scatter, List.length_map],⟨new.map fun d =>
    (((acc.targets files x requests).map Prod.snd).getD d.1 0,d.2),?_,?_,?_⟩,?_⟩
  · rw [hnew, hserved, List.map_map]
    rfl
  · have hall := map_getD_range ((acc.targets files x requests).map Prod.snd)
    rw [List.length_map] at hall
    have hmap := hperm.map fun j => ((acc.targets files x requests).map Prod.snd).getD j 0
    rw [hall, List.map_map] at hmap
    rw [List.map_map]
    exact hmap
  · intro d' hd'
    obtain ⟨d,hd,rfl⟩ := List.mem_map.mp hd'
    obtain ⟨i,hget,hi⟩ := hindex hd
    obtain ⟨-,hfaithful,hok⟩ := hreads d hd
    obtain ⟨s,hs,hsok⟩ := Option.map_eq_some_iff.mp hok
    have hmem : (d.2.1,i) ∈ acc.targets files x requests := List.mem_of_getElem? hget
    obtain ⟨request,hrequest,-⟩ := mem_targets.mp hmem
    have hpair : (i,s) ∈ ((acc.targets files x requests).map Prod.snd).zip statuses := by
      apply List.mem_of_getElem? (i := d.1)
      rw [List.getElem?_zip_eq_some, List.getElem?_map, hget]
      exact ⟨rfl,hs⟩
    dsimp only
    rw [hi]
    refine ⟨hmem,hfaithful,?_⟩
    rw [getElem?_scatter (by rwa [hzip]) hpair]
    · exact congrArg some hsok
    · rw [List.length_map]
      exact (List.getElem?_eq_some_iff.mp hrequest).1
  · intro i request hrequest htarget
    have hnot : i ∉ (((acc.targets files x requests).map Prod.snd).zip statuses).map Prod.fst := by
      rw [hzip]
      exact notMem_targets hrequest htarget
    rw [getElem?_scatter_of_notMem hnot, List.getElem?_map, hrequest]
    simp only [Option.map_some, htarget, toExcept, statusOf, noFile, Status.isOk_ioError]

/-- One after the other, from position `k` on. -/
theorem wp_readEach (k : ℕ) (hz : Looked files x z) :
    wp (nodeMachine files) (fun _ _ => True)
      (fun results y => results.length = requests.length ∧
        (∃ new : List (ℕ × UringIORequest × ReadOutcome), y.served = z.served ++ new.map Prod.snd ∧
          new.map Prod.fst = (acc.targetsFrom files x k requests).map Prod.snd ∧
          ∀ d ∈ new, k ≤ d.1 ∧ (d.2.1,d.1) ∈ acc.targetsFrom files x k requests ∧ d.2.2 = files.pread d.2.1 ∧
            (results[d.1 - k]?).map Status.isOk = some (isFull d.2)) ∧
        ∀ (i : ℕ) request, requests[i]? = some request → acc.target files x request = none →
          (results[i]?).map Status.isOk = some false)
      (acc.readEach requests (requests.map fun request => toExcept request (acc.target files x request))) z := by
  induction requests generalizing k z with
  | nil => exact ⟨rfl,⟨[],by simp,rfl,by simp⟩,by simp⟩
  | cons request requests ih =>
    unfold readEach at ih ⊢
    rw [List.map_cons, List.zip_cons_cons, targets_cons]
    apply wp_bind.mpr
    cases htarget : acc.target files x request with
    | none =>
      apply wp_bind.mpr
      apply wp_mono (ih (k + 1) hz)
      rintro results y ⟨hlength,⟨new,hserved,hnew,hreads⟩,hnone⟩
      refine ⟨by simp [hlength],⟨new,hserved,hnew,?_⟩,?_⟩
      · intro d hd
        obtain ⟨hle,hmem,houtcome,hok⟩ := hreads d hd
        have hsub : d.1 - k = d.1 - (k + 1) + 1 := by omega
        exact ⟨by omega,hmem,houtcome,by rw [hsub, List.getElem?_cons_succ]; exact hok⟩
      · intro i other hother hnot
        cases i with
        | zero => rfl
        | succ i => exact hnone i other hother hnot
    | some io =>
      apply wp_mono (wp_read request)
      rintro s y ⟨hlooked,hserved₁,hok₁⟩
      rw [target_looked hz, htarget] at hserved₁ hok₁
      apply wp_bind.mpr
      apply wp_mono (ih (k + 1) (hz.trans hlooked))
      rintro results y ⟨hlength,⟨new,hserved,hnew,hreads⟩,hnone⟩
      refine ⟨by simp [hlength],⟨(k,io,files.pread io) :: new,?_,by simp [hnew],?_⟩,?_⟩
      · rw [hserved, hserved₁]
        simp
      · intro d hd
        rcases List.mem_cons.mp hd with rfl | hd
        · exact ⟨le_rfl,by simp,rfl,by simpa using hok₁⟩
        · obtain ⟨hle,hmem,houtcome,hok⟩ := hreads d hd
          have hsub : d.1 - k = d.1 - (k + 1) + 1 := by omega
          exact ⟨by omega,List.mem_append_right _ hmem,houtcome,by rw [hsub, List.getElem?_cons_succ]; exact hok⟩
      · intro i other hother hnot
        cases i with
        | zero =>
          cases hother
          rw [htarget] at hnot
          cases hnot
        | succ i => exact hnone i other hother hnot

theorem batchReads_of_exec {results : List Status} (hidle : x.ring.Idle) (hentries : 0 < x.ring.sqEntries)
    (he : Exec (nodeMachine files) (fun _ _ => True) (acc.batchRead requests) x results y) :
    BatchReads files acc x requests results y := by
  unfold batchRead at he
  split at he
  · next hempty =>
    cases he
    rw [List.isEmpty_iff.mp hempty]
    exact ⟨rfl,⟨[],by simp,by simp [targetsFrom],by simp⟩,by simp⟩
  obtain ⟨_,y₁,hresolve,hrest⟩ := he.of_bind
  obtain ⟨rfl,hlooked,hserved⟩ := hresolve.ends (wp_resolveAll requests)
  rw [valid_map] at hrest
  split at hrest
  · next engine hengine =>
    have havailable := (Option.filter_eq_some_iff.mp hengine).2
    split at hrest
    · next hnone =>
      cases hrest
      rw [List.isEmpty_iff] at hnone
      refine ⟨by simp,⟨[],by simp [hserved],by rw [hnone]; rfl,by simp⟩,?_⟩
      intro i request hrequest htarget
      rw [List.map_map, List.getElem?_map, hrequest]
      simp [htarget, toExcept, statusOf, noFile]
    · obtain ⟨statuses,z,hengineRead,hret⟩ := hrest.of_bind
      cases hret
      rw [valid_map] at hengineRead ⊢
      rw [List.map_map]
      refine batchReads_scatter hserved (engineReads_of_exec havailable ?_ ?_ ?_ hengineRead)
      · rwa [hlooked.ring]
      · rwa [hlooked.ring]
      · intro io hio
        obtain ⟨⟨io,i⟩,hmem,rfl⟩ := List.mem_map.mp hio
        obtain ⟨request,-,htarget⟩ := mem_targets.mp hmem
        exact (offset_target htarget).2.2
  · split at hrest
    · obtain ⟨statuses,z,hpool,hret⟩ := hrest.of_bind
      cases hret
      rw [valid_map] at hpool ⊢
      rw [List.map_map]
      exact batchReads_scatter hserved (hpool.ends (wp_submitAndWait _))
    · obtain ⟨hlength,⟨new,hnew,hpositions,hreads⟩,hnone⟩ := hrest.ends (wp_readEach 0 hlooked)
      refine ⟨hlength,⟨new,by rw [hnew, hserved],.of_eq hpositions,?_⟩,hnone⟩
      intro d hd
      obtain ⟨-,hmem,houtcome,hok⟩ := hreads d hd
      exact ⟨hmem,fun _ => houtcome,hok⟩

/-- At the offset that io_uring takes for a position `pread` refuses to read. -/
theorem isFull_pread {io : UringIORequest} (hoffset : io.offset = currentPosition) :
    isFull (io,files.pread io) = false := by
  have hrefused : files.pread io = ⟨-22,fun _ => 0⟩ := by
    rw [DataFiles.pread, hoffset]
    rfl
  rw [isFull, hrefused, decide_eq_false_iff_not]
  dsimp only
  omega

/-- The kernel has served the request from where the file stands, and filled the buffer. -/
def Strayed (d : UringIORequest × ReadOutcome) : Prop := d.1.offset = currentPosition ∧ isFull d = true

def IsPlain : NodeCall → Prop
  | .ring _ => False
  | _ => True

theorem makes_resolve (request : NodeLocalReadRequest) : (acc.resolve request).Makes IsPlain := by
  refine Prog.makes_call_bind trivial fun bufFd => ?_
  split
  · trivial
  · exact Prog.makes_call_bind trivial fun _ => trivial

theorem makes_read (request : NodeLocalReadRequest) : (acc.read request).Makes IsPlain := by
  refine (makes_resolve request).bind fun resolved => ?_
  split
  · trivial
  · refine Prog.makes_call_bind trivial fun nread => ?_
    split
    · trivial
    split
    · trivial
    · trivial

section
variable {d : UringIORequest × ReadOutcome} {reads : List (UringIORequest × ReadOutcome)}

theorem isFull_of_not_strayed (h : Faithful files d) (hd : ¬ Strayed d) :
    isFull d = isFull (d.1,files.pread d.1) := by
  by_cases hoffset : d.1.offset = currentPosition
  · rw [isFull_pread hoffset]
    exact Bool.eq_false_iff.mpr fun hfull => hd ⟨hoffset,hfull⟩
  · rw [← h hoffset]

theorem filter_isFull (h : ∀ d ∈ reads, Faithful files d ∧ ¬ Strayed d) :
    reads.filter isFull = (reads.map fun d => (d.1,files.pread d.1)).filter isFull := by
  induction reads with
  | nil => rfl
  | cons d reads ih =>
    obtain ⟨hfaithful,hd⟩ := h d List.mem_cons_self
    rw [List.map_cons, List.filter_cons, List.filter_cons, ih fun d' hd' => h d' (List.mem_cons_of_mem _ hd'),
      ← isFull_of_not_strayed hfaithful hd]
    split
    · next hfull =>
      have hoffset : d.1.offset ≠ currentPosition := fun hoffset => hd ⟨hoffset,hfull⟩
      rw [← hfaithful hoffset]
    · rfl

end

/-- `Read` returns. -/
theorem exists_exec_read (files : DataFiles) (acc : NodeLocalAccessor) (x : NodeWorld)
    (request : NodeLocalReadRequest) :
    ∃ s z, Exec (nodeMachine files) (fun _ _ => True) (acc.read request) x s z := by
  refine exists_exec (makes_read request) (fun op hop x => ?_) x
  cases op with
  | getBufferedFd | getDirectFd | pread => exact ⟨{},_,_,rfl⟩
  | runTasks count => exact ⟨{ order := List.range count },_,_,if_pos (List.Perm.refl _)⟩
  | ring => cases hop

theorem Exec.delivered_read {s : Status}
    (he : Exec (nodeMachine files) (fun _ _ => True) (acc.read request) x s z) :
    x.delivered z = ((acc.target files x request).toList.map fun io => (io,files.pread io)).filter isFull := by
  obtain ⟨-,hserved,-⟩ := he.ends (wp_read request)
  rw [delivered, hserved, List.drop_left]

/-- Each request ends as a `Read` of it on its own does, whatever the others do, and what reaches
the buffers is what these reads would bring there. -/
structure Agrees (files : DataFiles) (acc : NodeLocalAccessor) (x : NodeWorld)
    (requests : List NodeLocalReadRequest) (results : List Status) (y : NodeWorld) : Prop where
  length : results.length = requests.length
  isOk : ∀ (i : ℕ) request result, requests[i]? = some request → results[i]? = some result →
    ∀ s z, Exec (nodeMachine files) (fun _ _ => True) (acc.read request) x s z → result.isOk = s.isOk
  delivers : ∀ zs, List.Forall₂ (fun request z =>
    ∃ s, Exec (nodeMachine files) (fun _ _ => True) (acc.read request) x s z) requests zs →
      (x.delivered y).Perm (zs.flatMap x.delivered)

theorem flatMap_delivered {zs : List NodeWorld} (h : List.Forall₂ (fun request z =>
    ∃ s, Exec (nodeMachine files) (fun _ _ => True) (acc.read request) x s z) requests zs) :
    zs.flatMap x.delivered =
      ((requests.filterMap (acc.target files x)).map fun io => (io,files.pread io)).filter isFull := by
  induction h with
  | nil => rfl
  | @cons request z requests zs hread _ ih =>
    obtain ⟨s,he⟩ := hread
    rw [List.flatMap_cons, Exec.delivered_read he, ih, List.filterMap_cons]
    cases acc.target files x request with
    | none => rfl
    | some io => rw [← List.filter_append]; rfl

theorem BatchReads.perm_targets {new : List (ℕ × UringIORequest × ReadOutcome)}
    (hpositions : (new.map Prod.fst).Perm ((acc.targets files x requests).map Prod.snd))
    (hmem : ∀ d ∈ new, (d.2.1,d.1) ∈ acc.targets files x requests) :
    (new.map fun d => (d.2.1,d.1)).Perm (acc.targets files x requests) := by
  obtain ⟨hnodup,-⟩ := nodup_targetsFrom files acc x 0 requests
  have hnew : (new.map fun d => (d.2.1,d.1)).Nodup := by
    apply List.Nodup.of_map Prod.snd
    rw [List.map_map]
    exact hpositions.nodup_iff.mpr hnodup
  refine (List.subperm_of_subset hnew ?_).perm_of_length_le ?_
  · intro r hr
    obtain ⟨d,hd,rfl⟩ := List.mem_map.mp hr
    exact hmem d hd
  · have hlength := hpositions.length_eq
    rw [List.length_map, List.length_map] at hlength
    rw [List.length_map, hlength]

/-- A batch differs from the single reads exactly if io_uring has filled a buffer from where a file
stands. -/
theorem agrees_iff_not_strayed {results : List Status} (hidle : x.ring.Idle) (hentries : 0 < x.ring.sqEntries)
    (he : Exec (nodeMachine files) (fun _ _ => True) (acc.batchRead requests) x results y) :
    Agrees files acc x requests results y ↔ ∀ d ∈ y.served.drop x.served.length, ¬ Strayed d := by
  obtain ⟨hlength,⟨new,hserved,hpositions,hreads⟩,hnone⟩ := batchReads_of_exec hidle hentries he
  have hdrop : y.served.drop x.served.length = new.map Prod.snd := by rw [hserved, List.drop_left]
  rw [hdrop]
  constructor
  · intro h d hd hstrayed
    obtain ⟨⟨i,d⟩,hmem,rfl⟩ := List.mem_map.mp hd
    obtain ⟨htargets,-,hok⟩ := hreads _ hmem
    obtain ⟨request,hrequest,htarget⟩ := mem_targets.mp htargets
    obtain ⟨result,hresult,hfull⟩ := Option.map_eq_some_iff.mp hok
    obtain ⟨s,z,hread⟩ := exists_exec_read files acc x request
    have hsame := h.isOk i request result hrequest hresult s z hread
    obtain ⟨-,-,hs⟩ := hread.ends (wp_read request)
    rw [htarget, Option.any_some, isFull_pread hstrayed.1] at hs
    rw [hs, hfull, hstrayed.2] at hsame
    cases hsame
  · intro h
    have hall : ∀ d ∈ new.map Prod.snd, Faithful files d ∧ ¬ Strayed d := by
      intro d hd
      refine ⟨?_,h d hd⟩
      obtain ⟨d,hmem,rfl⟩ := List.mem_map.mp hd
      exact (hreads d hmem).2.1
    refine ⟨hlength,?_,?_⟩
    · intro i request result hrequest hresult s z hread
      obtain ⟨-,-,hs⟩ := hread.ends (wp_read request)
      cases htarget : acc.target files x request with
      | none =>
        have hfails := hnone i request hrequest htarget
        rw [hresult, Option.map_some, Option.some_inj] at hfails
        rw [hs, hfails, htarget, Option.any_none]
      | some io =>
        have hio : (io,i) ∈ acc.targets files x requests := mem_targets.mpr ⟨request,hrequest,htarget⟩
        obtain ⟨d,hd,hd'⟩ := List.mem_map.mp ((BatchReads.perm_targets hpositions fun d hd =>
          (hreads d hd).1).mem_iff.mpr hio)
        cases hd'
        obtain ⟨-,hfaithful,hok⟩ := hreads d hd
        rw [hresult, Option.map_some, Option.some_inj] at hok
        rw [hs, htarget, Option.any_some, hok]
        exact isFull_of_not_strayed hfaithful (h d.2 (List.mem_map_of_mem hd))
    · intro zs hzs
      have hperm := (BatchReads.perm_targets hpositions fun d hd => (hreads d hd).1).map Prod.fst
      rw [List.map_map, map_fst_targetsFrom] at hperm
      rw [delivered, hdrop, filter_isFull hall, flatMap_delivered hzs, List.map_map]
      have hpreads := hperm.map fun io => (io,files.pread io)
      rw [List.map_map] at hpreads
      exact hpreads.filter isFull

section

/-- A data file of 8192 bytes. -/
def pages : DataFiles where
  openBuffered _ := 3
  openDirect _ := -1
  readAt _ position _ size := ⟨(min size (8192 - position) : ℕ),fun _ => 7⟩
  strerror _ := ""

/-- A node where it is the file of store 1. -/
def pagesNode : NodeWorld := ⟨(∅ : AList fun _ : ℕ => String).insert 1 "pages",∅,.create 4,fun _ => 0,[]⟩

def uring : NodeLocalAccessor := ⟨some SharedRing.engine,false,4096⟩

def readThrough (requests : List NodeLocalReadRequest) (choices : List NodeChoice) :
    Option (List Status × NodeWorld) :=
  execWith (nodeMachine pages) (fun _ _ => true) (uring.batchRead requests)
    choices pagesNode

/-- The second page of store 1, and a page of store 2, which has no file. -/
theorem agrees_page_and_absent : ∃ y,
    Exec (nodeMachine pages) (fun _ _ => True) (uring.batchRead [⟨1,4096,0,4096⟩,⟨2,0,0,4096⟩]) pagesNode
      [.OK,.ioError "NodeLocalAccessor: no file for store_id 2"] y ∧
      Agrees pages uring pagesNode [⟨1,4096,0,4096⟩,⟨2,0,0,4096⟩]
        [.OK,.ioError "NodeLocalAccessor: no file for store_id 2"] y := by
  have hrun : (readThrough [⟨1,4096,0,4096⟩,⟨2,0,0,4096⟩]
      [{},{},{},{},{},{},{ posted := [0] },{}]).map (fun x =>
      (x.1,x.2.served.map fun d => d.1.offset)) =
        some ([.OK,.ioError "NodeLocalAccessor: no file for store_id 2"],[4096]) := rfl
  obtain ⟨⟨r,y⟩,hexec,hout⟩ := Option.map_eq_some_iff.mp hrun
  obtain ⟨rfl,hserved⟩ := Prod.mk.inj hout
  have he := (exec_of_execWith hexec).ok_mono fun _ _ _ => trivial
  refine ⟨y,he,(agrees_iff_not_strayed (IOUring.idle_create 4) (by decide) he).mpr ?_⟩
  intro d hd hstrayed
  have hmem : d.1.offset ∈ y.served.map fun d => d.1.offset :=
    List.mem_map_of_mem (List.mem_of_mem_drop hd)
  dsimp only at hserved
  rw [hserved, List.mem_singleton, hstrayed.1] at hmem
  revert hmem
  decide

/-- The offset is no offset: `Read` fails, and io_uring reads the first page. -/
theorem exists_exec_not_agrees : ∃ y,
    Exec (nodeMachine pages) (fun _ _ => True) (uring.batchRead [⟨1,2^64 - 1,0,4096⟩]) pagesNode [.OK] y ∧
      ¬ Agrees pages uring pagesNode [⟨1,2^64 - 1,0,4096⟩] [.OK] y := by
  have hrun : (readThrough [⟨1,2^64 - 1,0,4096⟩] [{},{},{},{},{},{ posted := [0] },{}]).map Prod.fst = some [.OK] := rfl
  obtain ⟨⟨r,y⟩,hexec,rfl⟩ := Option.map_eq_some_iff.mp hrun
  refine ⟨y,(exec_of_execWith hexec).ok_mono fun _ _ _ => trivial,?_⟩
  intro h
  have halone : (execWith (nodeMachine pages) (fun _ _ => true) (uring.read ⟨1,2^64 - 1,0,4096⟩) [{},{},{}]
      pagesNode).map Prod.fst =
        some (.ioError ("NodeLocalAccessor: pread failed for store_id " ++ toString 1)) := rfl
  obtain ⟨⟨s,z⟩,hread,rfl⟩ := Option.map_eq_some_iff.mp halone
  have hsame := h.isOk 0 _ _ rfl rfl _ z ((exec_of_execWith hread).ok_mono fun _ _ _ => trivial)
  cases hsame

end

end NodeLocalAccessor

end FalconKV
