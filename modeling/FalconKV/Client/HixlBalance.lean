import FalconKV.Client.HixlReads

/-! # What a HIXL read leaves behind

A read that is on its way keeps a list of what it has done with the engine and the lease.
Every way out gives back the handles and the lease, but for one: at a segment of the
response that cannot be used the handles of the segments before it stay registered.
-/
namespace FalconKV.HixlBalance
open AtomicCalls

inductive Deed
  | registered (handle : ℕ)
  | refused
  | deregistered (handle : ℕ)
  | prepared (response : HixlBatchReadResponse)
  | released (token : String)
  | transferred

def deeds (op : HixlReadCall) (r : op.Res) : List Deed :=
  match op, r with
  | .registerMem .., (code,handle) => if code = 0 then [.registered handle] else [.refused]
  | .deregisterMem handle, _ => [.deregistered handle]
  | .prepareHixlBatchRead .., some response =>
    if response.status = 0 then [.prepared response] else []
  | .releaseHixlRead token, _ => [.released token]
  | .transferSync .., code => if code = (0 : ℕ) then [.transferred] else []
  | .batchRead _, some reply => if reply.status = 0 then [.transferred] else []
  | _, _ => []

def deedsOf (i : ℕ) (tr : List (Event hixlReadCalls HixlRemoteReadBackend)) : List Deed :=
  (callsOf i tr).flatMap fun c => deeds c.op c.res

namespace Deed

def registrations : Deed → List ℕ
  | registered handle => [handle]
  | _ => []

def deregistrations : Deed → List ℕ
  | deregistered handle => [handle]
  | _ => []

def leases : Deed → List String
  | prepared response => [response.token]
  | _ => []

def releases : Deed → List String
  | released token => [token]
  | _ => []

end Deed

/-- Each handle was deregistered once, each lease released once, and the results are of the
segments that were asked for, with no count unless something was read. -/
structure Settled (request : RemoteReadRequest) (results : List ℤ) (done : List Deed) : Prop where
  handles : done.flatMap Deed.deregistrations = done.flatMap Deed.registrations
  lease : done.flatMap Deed.releases = done.flatMap Deed.leases
  results_length : results.length = request.offsets.length
  positive : (∃ n ∈ results, 0 < n) → .transferred ∈ done

/-- The response has a segment that cannot be used behind others that can, and all
registrations before it have succeeded. -/
def StopsLate (request : RemoteReadRequest) (done : List Deed) : Prop :=
  .refused ∉ done ∧ ∃ response before seg after, .prepared response ∈ done ∧
    response.segments.length = request.offsets.length ∧
    response.segments = before ++ seg :: after ∧ before ≠ [] ∧
    (∀ x ∈ before, HixlReadOps.usable x = true) ∧ HixlReadOps.usable seg = false

def doing : Ledger hixlReadCalls (List Deed) := Ledger.noting (fun _ _ => True) deeds

variable {cfg : HixlReadConfig} {request : RemoteReadRequest} {response : HixlBatchReadResponse}
  {done : List Deed} {results : List ℤ} {handles : List ℕ}

theorem not_positive_failed (request : RemoteReadRequest) :
    ¬∃ n ∈ request.offsets.map fun _ => (-1 : ℤ), 0 < n := by
  rintro ⟨n,hn,hpos⟩
  obtain ⟨_,-,rfl⟩ := List.mem_map.mp hn
  exact absurd hpos (by decide)

theorem settled_failed (request : RemoteReadRequest)
    (hhandles : done.flatMap Deed.deregistrations = done.flatMap Deed.registrations)
    (hlease : done.flatMap Deed.releases = done.flatMap Deed.leases) :
    Settled request (request.offsets.map fun _ => -1) done where
  handles := hhandles
  lease := hlease
  results_length := List.length_map _
  positive hpos := absurd hpos (not_positive_failed request)

/-- Nothing was prepared. -/
theorem not_stopsLate_of_unprepared (h : ∀ response, .prepared response ∉ done) :
    ¬StopsLate request done := by
  rintro ⟨-,response,_,_,_,hmem,-⟩
  exact h response hmem

def returned (response : HixlBatchReadResponse) (handles : List ℕ) (between : List Deed) : List Deed :=
  .prepared response :: (handles.map .registered ++ between ++ handles.map .deregistered ++
    [.released response.token])

def abandoned (response : HixlBatchReadResponse) (handles : List ℕ) : List Deed :=
  .prepared response :: (handles.map .registered ++ [.released response.token])

def Between (between : List Deed) : Prop := ∀ d ∈ between, d = .refused ∨ d = .transferred

theorem between_flatMap {α : Type} {between : List Deed} (h : Between between) (f : Deed → List α)
    (hrefused : f .refused = []) (htransferred : f .transferred = []) : between.flatMap f = [] := by
  apply List.flatMap_eq_nil_iff.mpr
  intro d hd
  rcases h d hd with rfl | rfl
  · exact hrefused
  · exact htransferred

@[simp] theorem flatMap_nothing {α : Type} (handles : List ℕ) :
    (handles.flatMap fun _ => ([] : List α)) = [] :=
  List.flatMap_eq_nil_iff.mpr fun _ _ => rfl

theorem returned_handles {between : List Deed} (h : Between between) :
    (returned response handles between).flatMap Deed.deregistrations =
      (returned response handles between).flatMap Deed.registrations := by
  have hderegistrations := between_flatMap h Deed.deregistrations rfl rfl
  have hregistrations := between_flatMap h Deed.registrations rfl rfl
  simp [returned, List.flatMap_map, Deed.registrations, Deed.deregistrations, hderegistrations,
    hregistrations]

theorem returned_lease {between : List Deed} (h : Between between) :
    (returned response handles between).flatMap Deed.releases =
      (returned response handles between).flatMap Deed.leases := by
  have hreleases := between_flatMap h Deed.releases rfl rfl
  have hleases := between_flatMap h Deed.leases rfl rfl
  simp [returned, List.flatMap_map, Deed.leases, Deed.releases, hreleases, hleases]

/-- The handles are given back only if there are none. -/
theorem abandoned_handles : (abandoned response handles).flatMap Deed.deregistrations =
    (abandoned response handles).flatMap Deed.registrations ↔ handles = [] := by
  simp [abandoned, List.flatMap_map, Deed.registrations, Deed.deregistrations, eq_comm]

theorem abandoned_lease : (abandoned response handles).flatMap Deed.releases =
    (abandoned response handles).flatMap Deed.leases := by
  simp [abandoned, List.flatMap_map, Deed.leases, Deed.releases]

theorem prepared_mem_returned {between : List Deed} (h : Between between)
    {response' : HixlBatchReadResponse} (hmem : .prepared response' ∈ returned response handles between) :
    response' = response := by
  have hnot : Deed.prepared response' ∉ between := by
    intro hd
    rcases h _ hd with heq | heq <;> cases heq
  simpa [returned, hnot] using hmem

/-- With everything given back there is no late stop, if a registration has failed or every
segment could be used. -/
theorem settled_returned {between : List Deed} (h : Between between)
    (hall : .refused ∈ between ∨ ∀ seg ∈ response.segments, HixlReadOps.usable seg = true) :
    ¬StopsLate request (returned response handles between) := by
  rintro ⟨hrefused,response',before,seg,after,hmem,-,hsplit,-,-,hseg⟩
  rcases hall with hin | hall
  · exact hrefused (by simp [returned, hin])
  · rw [prepared_mem_returned h hmem] at hsplit
    have husable := hall seg (by simp [hsplit])
    rw [hseg] at husable
    cases husable

theorem kept_deregisterAll (handles : List ℕ) (done : List Deed) :
    doing.Kept (fun _ done' => done' = done ++ handles.map .deregistered)
      (HixlReadOps.deregisterAll handles) done := by
  induction handles generalizing done with
  | nil => exact (List.append_nil done).symm
  | cons handle handles ih =>
    apply Ledger.kept_note
    intro _ _
    refine Ledger.kept_mono (ih _) ?_
    rintro _ _ rfl
    rw [List.append_assoc]
    rfl

/-- How the loop over the buffers leaves things: registered up to the end, stopped at a
segment behind usable ones, or refused. -/
theorem kept_registerBuffers (request : RemoteReadRequest) (response : HixlBatchReadResponse)
    (rest : List ((Allocation × ℕ) × ℕ × ℕ × ℤ)) (handles : List ℕ) (descs : List TransferOpDesc) :
    doing.Kept (fun r done => match r with
        | .ok (handles',_) =>
          done = .prepared response :: handles'.map .registered ∧
            ∀ x ∈ rest, HixlReadOps.usable x.2 = true
        | .error (_,results) => results = (request.offsets.map fun _ => -1) ∧ ∃ handles' : List ℕ,
          (done = abandoned response handles' ∧ ∃ before x after, rest = before ++ x :: after ∧
            (∀ y ∈ before, HixlReadOps.usable y.2 = true) ∧ HixlReadOps.usable x.2 = false ∧
            handles'.length = handles.length + before.length) ∨
          done = returned response handles' [.refused])
      (HixlReadOps.registerBuffers request response.token rest handles descs)
      (.prepared response :: handles.map .registered) := by
  induction rest generalizing handles descs with
  | nil => exact ⟨rfl,by simp⟩
  | cons x rest ih =>
    obtain ⟨⟨buffer,size⟩,seg⟩ := x
    unfold HixlReadOps.registerBuffers
    cases hseg : HixlReadOps.usable seg with
    | false =>
      apply Ledger.kept_note
      intro _ _
      exact ⟨rfl,handles,.inl ⟨by simp [abandoned, deeds],[],_,rest,rfl,by simp,hseg,by simp⟩⟩
    | true =>
      apply Ledger.kept_note
      rintro ⟨code,handle⟩ _
      dsimp only
      by_cases hcode : code = 0
      · rw [if_neg (by simpa using hcode)]
        have hnext := ih (handles ++ [handle]) (descs ++ [⟨buffer.ptr,seg.1,seg.2.1⟩])
        have hdone : (Deed.prepared response :: handles.map .registered) ++
            deeds (.registerMem buffer.ptr size) (code,handle) =
            .prepared response :: (handles ++ [handle]).map .registered := by
          simp [deeds, hcode]
        rw [hdone]
        refine Ledger.kept_mono hnext ?_
        intro r done hpost
        cases r with
        | ok x => exact ⟨hpost.1,List.forall_mem_cons.mpr ⟨hseg,hpost.2⟩⟩
        | error x =>
          obtain ⟨hresults,handles',hway⟩ := hpost
          refine ⟨hresults,handles',hway.imp_left ?_⟩
          rintro ⟨rfl,before,x,after,rfl,hbefore,hx,hlength⟩
          refine ⟨rfl,_ :: before,x,after,rfl,List.forall_mem_cons.mpr ⟨hseg,hbefore⟩,hx,?_⟩
          rw [hlength,List.length_append,List.length_singleton,List.length_cons]
          omega
      · rw [if_pos hcode]
        refine Ledger.kept_bind (Ledger.kept_mono (kept_deregisterAll _ _) ?_)
        rintro _ _ rfl
        apply Ledger.kept_note
        intro _ _
        exact ⟨rfl,handles,.inr (by simp [returned, deeds, hcode])⟩

theorem settled_iff_returned (handles : List ℕ) (between : List Deed) (hdone : done = returned response handles between)
    (h : Between between)
    (hall : .refused ∈ between ∨ ∀ seg ∈ response.segments, HixlReadOps.usable seg = true)
    (hresults : results.length = request.offsets.length)
    (hpositive : (∃ n ∈ results, 0 < n) → .transferred ∈ between) :
    Settled request results done ↔ ¬StopsLate request done := by
  subst hdone
  have hsettled : Settled request results (returned response handles between) :=
    ⟨returned_handles h,returned_lease h,hresults,fun hpos => by simp [returned, hpositive hpos]⟩
  exact ⟨fun _ => settled_returned h hall,fun _ => hsettled⟩

/-- The same for the ways out that report a failure. -/
theorem settled_iff_failed (handles : List ℕ) (between : List Deed) (hdone : done = returned response handles between)
    (h : Between between)
    (hall : .refused ∈ between ∨ ∀ seg ∈ response.segments, HixlReadOps.usable seg = true) :
    Settled request (request.offsets.map fun _ => -1) done ↔ ¬StopsLate request done :=
  settled_iff_returned handles between hdone h hall (List.length_map _)
    fun hpos => absurd hpos (not_positive_failed request)

theorem kept_transfer (cfg : HixlReadConfig) (hsizes : request.sizes.length = request.offsets.length)
    (hall : ∀ seg ∈ response.segments, HixlReadOps.usable seg = true) (handles : List ℕ)
    (descs : List TransferOpDesc) :
    doing.Kept (fun x done => Settled request x.2 done ↔ ¬StopsLate request done)
      (HixlReadOps.transfer cfg request response handles descs)
      (.prepared response :: handles.map .registered) := by
  apply Ledger.kept_note
  intro conn _
  split
  · refine Ledger.kept_bind (Ledger.kept_mono (kept_deregisterAll _ _) ?_)
    rintro _ _ rfl
    apply Ledger.kept_note
    intro _ _
    apply settled_iff_failed handles [] _ (by simp [Between]) (.inr hall)
    simp [returned, deeds]
  · apply Ledger.kept_note
    intro code _
    refine Ledger.kept_bind (Ledger.kept_mono (kept_deregisterAll _ _) ?_)
    rintro _ _ rfl
    apply Ledger.kept_note
    intro _ _
    split
    · next hcode =>
      apply settled_iff_failed handles [] _ (by simp [Between]) (.inr hall)
      simp [returned, deeds, hcode]
    · next hcode =>
      have hzero : code = 0 := not_not.mp hcode
      apply settled_iff_returned handles [.transferred] _
        (by simp [Between]) (.inr hall) _ fun _ => List.mem_singleton_self _
      · simp [returned, deeds, hzero]
      · rw [List.length_map,hsizes]

/-- Only at a segment behind others does the loop leave handles. -/
theorem settled_iff_abandoned {before after : List (ℕ × ℕ × ℤ)} {seg : ℕ × ℕ × ℤ}
    (hlength : response.segments.length = request.offsets.length)
    (hsplit : response.segments = before ++ seg :: after)
    (hbefore : ∀ x ∈ before, HixlReadOps.usable x = true) (hseg : HixlReadOps.usable seg = false)
    (hhandles : handles.length = before.length) :
    Settled request (request.offsets.map fun _ => -1) (abandoned response handles) ↔
      ¬StopsLate request (abandoned response handles) := by
  constructor
  · intro hsettled
    have hnil := abandoned_handles.mp hsettled.handles
    rw [hnil,List.length_nil,eq_comm,List.length_eq_zero_iff] at hhandles
    rw [hhandles,List.nil_append] at hsplit
    rintro ⟨-,response',before',seg',after',hmem,-,hsplit',hne,hbefore',-⟩
    have heq : response' = response := by simpa [abandoned] using hmem
    rw [heq,hsplit] at hsplit'
    obtain ⟨first,before',rfl⟩ := List.exists_cons_of_ne_nil hne
    -- the first segment is the unusable one
    have hfirst : seg = first := (List.cons.inj hsplit').1
    have husable := hbefore' first List.mem_cons_self
    rw [← hfirst,hseg] at husable
    cases husable
  · intro hnot
    have hnil : handles = [] := by
      apply List.length_eq_zero_iff.mp
      rw [hhandles,List.length_eq_zero_iff]
      by_contra hne
      exact hnot ⟨by simp [abandoned],response,before,seg,after,by simp [abandoned],hlength,hsplit,
        hne,hbefore,hseg⟩
    exact settled_failed request (abandoned_handles.mpr hnil) abandoned_lease

theorem kept_readPrepared (cfg : HixlReadConfig) (hsizes : request.sizes.length = request.offsets.length)
    (hbuffers : request.buffers.length = request.offsets.length) (response : HixlBatchReadResponse) :
    doing.Kept (fun x done => Settled request x.2 done ↔ ¬StopsLate request done)
      (HixlReadOps.readPrepared cfg request response) [.prepared response] := by
  unfold HixlReadOps.readPrepared
  split
  · next hne =>
    apply Ledger.kept_note
    intro _ _
    have hsettled : Settled request (request.offsets.map fun _ => -1)
        [.prepared response,.released response.token] := settled_failed request rfl rfl
    refine ⟨fun _ => ?_,fun _ => hsettled⟩
    rintro ⟨-,response',_,_,_,hmem,hlength,-⟩
    have heq : response' = response := by simpa [deeds] using hmem
    rw [heq] at hlength
    exact hne hlength
  · next heq =>
    have hlength : response.segments.length = request.offsets.length := not_not.mp heq
    have hsegments : ((request.buffers.zip request.sizes).zip response.segments).map Prod.snd =
        response.segments := by
      apply List.map_snd_zip
      rw [List.length_zip,hbuffers,hsizes,hlength,min_self]
    refine Ledger.kept_bind (Ledger.kept_mono (kept_registerBuffers request response _ [] []) ?_)
    intro r done hpost
    cases r with
    | ok x =>
      obtain ⟨handles,descs⟩ := x
      obtain ⟨rfl,hall⟩ := hpost
      apply kept_transfer cfg hsizes
      rw [← hsegments]
      exact List.forall_mem_map.mpr hall
    | error x =>
      obtain ⟨s,results⟩ := x
      obtain ⟨hresults,handles,hway⟩ := hpost
      have hresults : results = request.offsets.map fun _ => -1 := hresults
      subst hresults
      rcases hway with ⟨rfl,before,x,after,hsplit,hbefore,hx,hcount⟩ | hdone
      · rw [hsplit,List.map_append,List.map_cons] at hsegments
        refine settled_iff_abandoned hlength hsegments.symm (List.forall_mem_map.mpr hbefore) hx ?_
        rw [hcount,List.length_map,List.length_nil,Nat.zero_add]
      · exact settled_iff_failed handles [.refused] hdone (by simp [Between]) (.inl (by simp))

theorem length_decode (attachment : List UInt8) (xs : List (ℕ × ℕ × Bytes)) (pos : ℕ) :
    (StoreRpcClient.decode attachment xs pos).length = xs.length := by
  induction xs generalizing pos with
  | nil => rfl
  | cons x xs ih =>
    obtain ⟨bytesRead,size,buffer⟩ := x
    unfold StoreRpcClient.decode
    split
    · rw [List.length_cons,ih,List.length_cons]
    · dsimp only
      rw [List.length_cons,ih,List.length_cons]

theorem replicate_eq_map {α β : Type} (xs : List α) (ys : List β) (h : xs.length = ys.length) (n : ℤ) :
    (xs.map fun _ => n) = ys.map fun _ => n := by
  rw [List.map_const',List.map_const',h]

/-- One result for each segment; without an answer that is ok none is positive. -/
theorem receive_results {buffers : List Bytes} (hsizes : request.sizes.length = request.offsets.length)
    (hbuffers : buffers.length = request.offsets.length) (reply : Option BatchReadReply) :
    (StoreRpcClient.receive request.sizes buffers reply).2.1.length = request.offsets.length ∧
      ((∃ n ∈ (StoreRpcClient.receive request.sizes buffers reply).2.1, 0 < n) →
        ∃ r, reply = some r ∧ r.status = 0) := by
  have hfailed := replicate_eq_map request.sizes request.offsets hsizes (-1)
  have hnot := not_positive_failed request
  cases reply with
  | none =>
    simp only [StoreRpcClient.receive, hfailed]
    exact ⟨List.length_map _,fun hpos => absurd hpos hnot⟩
  | some r =>
    unfold StoreRpcClient.receive
    dsimp only
    split
    · rw [hfailed]
      exact ⟨List.length_map _,fun hpos => absurd hpos hnot⟩
    · next hstatus =>
      split
      · rw [hfailed]
        exact ⟨List.length_map _,fun hpos => absurd hpos hnot⟩
      · next hcount =>
        refine ⟨?_,fun _ => ⟨r,rfl,not_not.mp hstatus⟩⟩
        rw [List.length_map,length_decode,List.length_zip,List.length_zip,hsizes,hbuffers,
          not_not.mp hcount,hsizes,min_self,min_self]

theorem validate_ok (h : request.validate.isOk = true) :
    request.sizes.length = request.offsets.length ∧ request.buffers.length = request.offsets.length := by
  unfold RemoteReadRequest.validate at h
  dsimp only at h
  split at h
  · cases h
  · next hlengths =>
    omega

theorem settled_nothing (request : RemoteReadRequest) :
    Settled request (request.offsets.map fun _ => -1) [] := settled_failed request rfl rfl

theorem kept_brpcBatchRead (cfg : HixlReadConfig) (request : RemoteReadRequest) :
    doing.Kept (fun x done => Settled request x.2 done ∧ ∀ response, .prepared response ∉ done)
      (HixlReadOps.brpcBatchRead cfg request) [] := by
  have hnone : ∀ response, Deed.prepared response ∉ [] := fun _ => List.not_mem_nil
  unfold HixlReadOps.brpcBatchRead
  split
  · exact ⟨settled_nothing request,hnone⟩
  next hvalid =>
  obtain ⟨hsizes,hbuffers⟩ := validate_ok (by simpa using hvalid)
  split
  · exact ⟨settled_nothing request,hnone⟩
  apply Ledger.kept_note
  intro created _
  split
  · exact ⟨settled_nothing request,hnone⟩
  split
  · next hzero => exact ⟨⟨rfl,rfl,hzero.symm,by simp⟩,hnone⟩
  next hsome =>
  apply Ledger.kept_note
  intro reply _
  have hbytes : (request.buffers.map Allocation.bytes).length = request.offsets.length := by
    rw [List.length_map,hbuffers]
  have hreceive : StoreRpcClient.batchRead true request.offsets request.sizes
      (request.buffers.map Allocation.bytes) [] (fun _ => reply) =
      StoreRpcClient.receive request.sizes (request.buffers.map Allocation.bytes) reply := by
    simp [StoreRpcClient.batchRead, hsizes, hbuffers, hsome]
  obtain ⟨hlength,hpositive⟩ := receive_results hsizes hbytes reply
  have hdone : ∀ d ∈ deeds (.batchRead request.segments) reply, d = .transferred := by
    cases reply with
    | none => simp [deeds]
    | some r =>
      intro d hd
      simp only [deeds] at hd
      split at hd
      · exact List.mem_singleton.mp hd
      · cases hd
  have hbetween : Between (deeds (.batchRead request.segments) reply) :=
    fun d hd => .inr (hdone d hd)
  have hdeeds : [] ++ deeds (.getOrCreate request.storeAddr) created ++
      deeds (.batchRead request.segments) reply = deeds (.batchRead request.segments) reply := rfl
  rw [hdeeds,hreceive]
  refine ⟨⟨?_,?_,hlength,?_⟩,?_⟩
  · rw [between_flatMap hbetween _ rfl rfl,between_flatMap hbetween _ rfl rfl]
  · rw [between_flatMap hbetween _ rfl rfl,between_flatMap hbetween _ rfl rfl]
  · intro hpos
    obtain ⟨r,rfl,hstatus⟩ := hpositive hpos
    simp [deeds, hstatus]
  · intro response hmem
    cases hdone _ hmem

theorem settled_iff_of_unprepared (hsettled : Settled request results done)
    (h : ∀ response, .prepared response ∉ done) :
    Settled request results done ↔ ¬StopsLate request done :=
  ⟨fun _ => not_stopsLate_of_unprepared h,fun _ => hsettled⟩

theorem kept_orFallback (cfg : HixlReadConfig) (request : RemoteReadRequest) (s : Status) :
    doing.Kept (fun x done => Settled request x.2 done ↔ ¬StopsLate request done)
      (HixlReadOps.orFallback cfg request s) [] := by
  unfold HixlReadOps.orFallback
  split
  · exact Ledger.kept_mono (kept_brpcBatchRead cfg request) fun _ _ h =>
      settled_iff_of_unprepared h.1 h.2
  · exact settled_iff_of_unprepared (settled_nothing request) fun _ => List.not_mem_nil

theorem kept_batchRead (cfg : HixlReadConfig) (request : RemoteReadRequest) :
    doing.Kept (fun x done => Settled request x.2 done ↔ ¬StopsLate request done)
      (HixlReadOps.batchRead cfg request) [] := by
  have hfailed : Settled request (request.offsets.map fun _ => -1) [] ↔ ¬StopsLate request [] :=
    settled_iff_of_unprepared (settled_nothing request) fun _ => List.not_mem_nil
  unfold HixlReadOps.batchRead
  split
  · exact hfailed
  next hvalid =>
  obtain ⟨hsizes,hbuffers⟩ := validate_ok (by simpa using hvalid)
  split
  · exact hfailed
  apply Ledger.kept_note
  intro init _
  split
  · exact kept_orFallback cfg request init
  apply Ledger.kept_note
  intro created _
  split
  · exact hfailed
  apply Ledger.kept_note
  intro response _
  cases response with
  | none => exact kept_orFallback cfg request _
  | some r =>
    by_cases hstatus : r.status = 0
    · have hprepared : StoreRpcClient.prepared (some r) = .ok r := by
        simp [StoreRpcClient.prepared, hstatus]
      have hdeeds : [] ++ deeds (.ensureHixlInitialized cfg.hixlLocalEngine) init ++
          deeds (.getOrCreate request.storeAddr) created ++ deeds (.prepareHixlBatchRead
            request.segments request.clientId request.sourceNodeAddr) (some r) = [.prepared r] := by
        simp [deeds, hstatus]
      rw [hprepared,hdeeds]
      exact kept_readPrepared cfg hsizes hbuffers r
    · have hprepared : StoreRpcClient.prepared (some r) =
          .error (.rpcError ("PrepareHixlBatchRead failed with status: " ++ toString r.status)) := by
        simp [StoreRpcClient.prepared, hstatus]
      have hdeeds : [] ++ deeds (.ensureHixlInitialized cfg.hixlLocalEngine) init ++
          deeds (.getOrCreate request.storeAddr) created ++ deeds (.prepareHixlBatchRead
            request.segments request.clientId request.sourceNodeAddr) (some r) = [] := by
        simp [deeds, hstatus]
      rw [hprepared,hdeeds]
      exact kept_orFallback cfg request _

/-- Whatever engine and store answer, a read leaves everything settled, unless the response
has a segment that cannot be used behind others whose buffers have been registered. -/
theorem batchRead_settled_iff {backend : HixlRemoteReadBackend}
    {tr : List (Event hixlReadCalls HixlRemoteReadBackend)}
    {Q : Pool hixlReadCalls HixlRemoteReadBackend (RemoteReadRequest × Status × List ℤ)}
    (h : Run hixlReadMachine (fun p => ∃ request, p = Prod.mk request <$> HixlReadOps.batchRead cfg request)
      (fun _ _ => True) ⟨backend,[]⟩ tr Q) {i : ℕ} {status : Status}
    (hi : Q.threads[i]? = some (.ret (request,status,results))) :
    Settled request results (deedsOf i tr) ↔ ¬StopsLate request (deedsOf i tr) := by
  have hstart : ∀ p, (∃ request, p = Prod.mk request <$> HixlReadOps.batchRead cfg request) →
      doing.Kept (fun x done => Settled x.1 x.2.2 done ↔ ¬StopsLate x.1 done) p [] := by
    rintro _ ⟨request,rfl⟩
    exact Ledger.kept_bind (Ledger.kept_mono (kept_batchRead cfg request) fun _ _ h => h)
  exact Ledger.run_noting (fun _ _ => trivial) hstart h hi

def sampleConfig : HixlReadConfig := ⟨true,"local",false,5000,1⟩

def sampleRequest : RemoteReadRequest :=
  ⟨"store",1,"client",[0,8],[4,4],[⟨1,fun _ => 0⟩,⟨2,fun _ => 0⟩]⟩

def sampleSchedule (segments : List (ℕ × ℕ × ℤ)) (n : ℕ) : List (ℕ × HixlReadChoice) :=
  (0,{}) :: (0,{}) :: (0,{ response := some ⟨0,"1-1","remote",segments⟩ }) :: (0,{ handle := 7 }) ::
    List.replicate n (0,{})

def outcome (x : List (Event hixlReadCalls HixlRemoteReadBackend) ×
    Pool hixlReadCalls HixlRemoteReadBackend (RemoteReadRequest × Status × List ℤ)) :
    Option (RemoteReadRequest × Status × List ℤ) × List ℕ × List ℕ :=
  (x.2.threads[0]?.bind Prog.value,(deedsOf 0 x.1).flatMap Deed.registrations,
    (deedsOf 0 x.1).flatMap Deed.deregistrations)

theorem sample_starts : ∀ p ∈ [Prod.mk sampleRequest <$> HixlReadOps.batchRead sampleConfig sampleRequest],
    ∃ request, p = Prod.mk request <$> HixlReadOps.batchRead sampleConfig request := by
  intro p hp
  exact ⟨sampleRequest,List.mem_singleton.mp hp⟩

theorem batchRead_settled_sample : ∃ (tr : List (Event hixlReadCalls HixlRemoteReadBackend))
    (Q : Pool hixlReadCalls HixlRemoteReadBackend (RemoteReadRequest × Status × List ℤ)) (results : List ℤ),
    Q.threads[0]? = some (.ret (sampleRequest,Status.OK,results)) ∧ results = [4,4] ∧
    (Settled sampleRequest results (deedsOf 0 tr) ↔ ¬StopsLate sampleRequest (deedsOf 0 tr)) := by
  have hfollow : (Pool.follow (M := hixlReadMachine) (fun _ _ => true)
      (sampleSchedule [(16,4,0),(32,4,0)] 6)
      ⟨⟨false⟩,[Prod.mk sampleRequest <$> HixlReadOps.batchRead sampleConfig sampleRequest]⟩).map
        outcome = some (some (sampleRequest,.OK,[4,4]),[7,0],[7,0]) := rfl
  obtain ⟨tr,Q,hrun,hQ⟩ := run_of_schedule _ sample_starts hfollow
  have hvalue : Q.threads[0]?.bind Prog.value = some (sampleRequest,.OK,[4,4]) :=
    congrArg Prod.fst hQ
  obtain ⟨p,hp,hret⟩ := Option.bind_eq_some_iff.mp hvalue
  obtain rfl := Prog.value_eq_some.mp hret
  exact ⟨tr,Q,[4,4],hp,rfl,batchRead_settled_iff (hrun.ok_mono fun _ _ _ => trivial) hp⟩

/-- The second segment of a response is empty. -/
theorem exists_handle_left : ∃ tr Q status results, Run hixlReadMachine
    (fun p => ∃ request, p = Prod.mk request <$> HixlReadOps.batchRead sampleConfig request)
      (fun _ _ => True) ⟨⟨false⟩,[]⟩ tr Q ∧
    Q.threads[0]? = some (.ret (sampleRequest,status,results)) ∧
    ¬Settled sampleRequest results (deedsOf 0 tr) := by
  have hfollow : (Pool.follow (M := hixlReadMachine) (fun _ _ => true)
      (sampleSchedule [(16,4,0),(32,0,0)] 1)
      ⟨⟨false⟩,[Prod.mk sampleRequest <$> HixlReadOps.batchRead sampleConfig sampleRequest]⟩).map
        outcome = some (some (sampleRequest,.ioError "HIXL prepare returned invalid segment",[-1,-1]),
          [7],[]) := rfl
  obtain ⟨tr,Q,hrun,hQ⟩ := run_of_schedule _ sample_starts hfollow
  obtain ⟨hvalue,hdeeds⟩ := Prod.mk.inj hQ
  obtain ⟨hregistered,hderegistered⟩ := Prod.mk.inj hdeeds
  obtain ⟨p,hp,hret⟩ := Option.bind_eq_some_iff.mp hvalue
  obtain rfl := Prog.value_eq_some.mp hret
  refine ⟨tr,Q,_,_,hrun.ok_mono fun _ _ _ => trivial,hp,?_⟩
  intro hsettled
  have hhandles := hsettled.handles
  rw [hregistered,hderegistered] at hhandles
  cases hhandles

end FalconKV.HixlBalance
