import FalconKV.AtomicCalls.Ledgers
import FalconKV.Store.StoreService

/-! # The answers of BatchGetByKey

The lists of a response are filled one entry for each key, whatever the lookup, the
allocator and the store answer. A thread keeps the calls that it has made: an entry with
status zero goes back to a buffer that was allocated for the key and to a read for it.
-/
namespace FalconKV
open AtomicCalls

/-- The thread keeps its calls. -/
def calls : Ledger serviceCalls (List (Answered serviceCalls)) :=
  Ledger.noting (fun _ _ => True) fun op r => [⟨op,r⟩]

def storeCallsMade : Ledger storeCalls (List (Answered serviceCalls)) :=
  Ledger.noting (fun _ _ => True) fun op r => [⟨.store op,r⟩]

theorem entered_calls {made notes : List (Answered serviceCalls)} (h : calls.Entered [] made notes) :
    notes = made :=
  calc notes = made.flatMap fun c => [c] := Ledger.entered_noting h
    _ = made := List.flatMap_singleton' made

theorem kept_onStore {α : Type} {post : α → List (Answered serviceCalls) → Prop} {p : StoreProg α}
    {made : List (Answered serviceCalls)} (h : storeCallsMade.Kept post p made) :
    calls.Kept post (StoreServiceOps.onStore p) made := by
  refine Ledger.kept_interp ?_ h
  intro op made P hop r hr
  exact hop r hr

namespace KeyReads

def ReadFor (key : Key) (size : ℕ) (segment : List UInt8) (made : List (Answered serviceCalls)) : Prop :=
  ∃ offset r bytes, ⟨.store (.pread offset size key),(r,bytes)⟩ ∈ made ∧ (size : ℤ) ≤ r.count ∧
    segment = StoreServiceOps.copied (some bytes) size

structure Entry where
  segment : List UInt8
  size : ℕ
  status : ℤ

structure ServedTo (hits : List StoreKeyRecord) (made : List (Answered serviceCalls)) (key : Key)
    (e : Entry) : Prop where
  ok : e.status = 0 → e.size = e.segment.length ∧ ReadFor key e.size e.segment made ∧
    ∃ n, StoreServiceOps.keySize hits key = some n ∧ e.segment.length ≤ n ∧
      ∃ a, ⟨.allocate n,some a⟩ ∈ made
  failed : e.status ≠ 0 → e.segment = [] ∧ e.size = 0
  missing : StoreServiceOps.keySize hits key = none → e.status = Code.notFound.toNat

/-- One entry for each key, in the order of the keys. -/
structure Aligned (hits : List StoreKeyRecord) (made : List (Answered serviceCalls)) (keys : List Key)
    (response : BatchGetByKeyResponse) : Prop where
  segments_length : response.dataSegments.length = keys.length
  sizes_length : response.sizes.length = keys.length
  statuses_length : response.statuses.length = keys.length
  served : ∀ (i : ℕ) key segment size status, keys[i]? = some key →
    response.dataSegments[i]? = some segment → response.sizes[i]? = some size →
    response.statuses[i]? = some status → ServedTo hits made key ⟨segment,size,status⟩
  status_eq_zero : response.status = 0 ↔ ∀ status ∈ response.statuses, status = 0

variable {hits : List StoreKeyRecord} {made made' : List (Answered serviceCalls)} {key : Key}
  {keys : List Key} {e : Entry} {response : BatchGetByKeyResponse} {allOk : Bool}

theorem ReadFor.mono {size : ℕ} {segment : List UInt8} (h : ReadFor key size segment made)
    (hsub : made ⊆ made') : ReadFor key size segment made' := by
  obtain ⟨offset,r,bytes,hmem,hrest⟩ := h
  exact ⟨offset,r,bytes,hsub hmem,hrest⟩

theorem ServedTo.mono (h : ServedTo hits made key e) (hsub : made ⊆ made') :
    ServedTo hits made' key e where
  ok hzero := by
    obtain ⟨hsize,hread,n,hn,hle,a,ha⟩ := h.ok hzero
    exact ⟨hsize,hread.mono hsub,n,hn,hle,a,hsub ha⟩
  failed := h.failed
  missing := h.missing

theorem servedTo_failed {status : ℤ} (hstatus : status ≠ 0)
    (hmissing : StoreServiceOps.keySize hits key = none → status = Code.notFound.toNat) :
    ServedTo hits made key ⟨[],0,status⟩ where
  ok hzero := absurd hzero hstatus
  failed _ := ⟨rfl,rfl⟩
  missing := hmissing

theorem length_copied (bytes : Bytes) (size : ℕ) :
    (StoreServiceOps.copied (some bytes) size).length = size := by
  simp [StoreServiceOps.copied]

/-- A code other than ok has a number of its own. -/
theorem toNat_ne_zero {s : Status} (h : s.isOk = false) : (s.code.toNat : ℤ) ≠ 0 := by
  have hcode : ∀ c : Code, c ≠ .ok → (c.toNat : ℤ) ≠ 0 := by
    intro c hc
    cases c <;> first | exact absurd rfl hc | decide
  exact hcode s.code fun hok => by simp [Status.isOk, hok] at h

theorem kept_read (offset : ℕ) (bytes : Bytes) (size : ℕ) (key : Key)
    (made : List (Answered serviceCalls)) :
    storeCallsMade.Kept (fun r made => r.1.isOk = true →
        ReadFor key size (StoreServiceOps.copied r.2 size) made)
      (StoreOps.read offset (some bytes) size key) made := by
  unfold StoreOps.read
  split
  · intro hok
    cases hok
  · apply Ledger.kept_note
    rintro ⟨r,read⟩ _
    dsimp only
    split
    · intro hok
      cases hok
    · split
      · intro hok
        cases hok
      · next hge =>
        intro _
        exact ⟨offset,r,read,by simp,not_lt.mp hge,rfl⟩

/-- A get that is ok has read a record that fits into the buffer. -/
theorem kept_get (key : Key) (bytes : Bytes) (bufferSize : ℕ) (made : List (Answered serviceCalls)) :
    storeCallsMade.Kept (fun r made => r.1.status.isOk = true →
        r.1.size ≤ bufferSize ∧ ReadFor key r.1.size (StoreServiceOps.copied r.2 r.1.size) made)
      (StoreOps.get key (some bytes) bufferSize) made := by
  apply Ledger.kept_note
  intro record _
  cases record with
  | none =>
    intro hok
    cases hok
  | some record =>
    dsimp only
    split
    · intro hok
      cases hok
    · next hfits =>
      refine Ledger.kept_bind (Ledger.kept_mono (kept_read record.offset bytes record.size key _) ?_)
      rintro ⟨status,buffer⟩ made₁ hread
      dsimp only
      cases hok : status.isOk with
      | false =>
        intro hget
        rw [hok] at hget
        cases hget
      | true => exact fun _ => ⟨not_lt.mp hfits,hread hok⟩

def append (response : BatchGetByKeyResponse) (e : Entry) : BatchGetByKeyResponse :=
  ((response.addDataSegment e.segment).addSize e.size).addStatus e.status

theorem allOk_failed {status : ℤ} (hstatus : status ≠ 0) (allOk : Bool) :
    false = (allOk && status == 0) := by
  rw [beq_false_of_ne hstatus,Bool.and_false]

theorem kept_serveKey (key : Key) (response : BatchGetByKeyResponse) (allOk : Bool)
    (made : List (Answered serviceCalls)) :
    calls.Kept (fun x made => ∃ e, x = (append response e,allOk && e.status == 0) ∧
      ServedTo hits made key e) (StoreServiceOps.serveKey hits key response allOk) made := by
  unfold StoreServiceOps.serveKey
  split
  · exact ⟨⟨[],0,Code.notFound.toNat⟩,Prod.ext rfl (allOk_failed (by decide) allOk),
      servedTo_failed (by decide) fun _ => rfl⟩
  · next n hn =>
    have hsome : StoreServiceOps.keySize hits key ≠ none := by
      rw [hn]
      exact Option.some_ne_none n
    apply Ledger.kept_note
    intro allocated _
    cases allocated with
    | none =>
      exact ⟨⟨[],0,-1⟩,Prod.ext rfl (allOk_failed (by decide) allOk),
        servedTo_failed (by decide) fun hnone => absurd hnone hsome⟩
    | some a =>
      refine Ledger.kept_bind (Ledger.kept_mono (Ledger.kept_grows
        (kept_onStore (kept_get key a.bytes n _))) ?_)
      rintro ⟨result,buffer⟩ made₁ ⟨hsub,hget⟩
      have hallocated : (⟨.allocate n,some a⟩ : Answered serviceCalls) ∈ made₁ := hsub (by simp)
      dsimp only
      cases hok : result.status.isOk with
      | false =>
        apply Ledger.kept_note
        intro _ _
        have hstatus := toNat_ne_zero hok
        exact ⟨⟨[],0,result.status.code.toNat⟩,Prod.ext rfl (allOk_failed hstatus allOk),
          servedTo_failed hstatus fun hnone => absurd hnone hsome⟩
      | true =>
        obtain ⟨hle,hread⟩ := hget hok
        apply Ledger.kept_note
        intro _ _
        have hlength : result.size = (StoreServiceOps.copied buffer result.size).length := by
          obtain ⟨_,_,_,_,_,hcopied⟩ := hread
          rw [hcopied,length_copied]
        refine ⟨⟨StoreServiceOps.copied buffer result.size,result.size,0⟩,?_,?_⟩
        · simp [append]
        · refine ServedTo.mono ?_ (List.subset_append_left made₁ _)
          refine ⟨fun _ => ⟨hlength,hread,n,hn,?_,a,hallocated⟩,fun hne => absurd rfl hne,
            fun hnone => absurd hnone hsome⟩
          rwa [← hlength]

theorem foldl_append (entries : List Entry) (response : BatchGetByKeyResponse) :
    entries.foldl append response = {
      status := response.status
      dataSegments := response.dataSegments ++ entries.map Entry.segment
      sizes := response.sizes ++ entries.map Entry.size
      statuses := response.statuses ++ entries.map Entry.status } := by
  induction entries generalizing response with
  | nil => simp
  | cons e entries ih =>
    rw [List.foldl_cons,ih]
    simp [append, BatchGetByKeyResponse.addDataSegment, BatchGetByKeyResponse.addSize,
      BatchGetByKeyResponse.addStatus]

theorem kept_serveKeys (keys : List Key) (response : BatchGetByKeyResponse) (allOk : Bool)
    (made : List (Answered serviceCalls)) :
    calls.Kept (fun x made => ∃ entries, List.Forall₂ (ServedTo hits made) keys entries ∧
        x = (entries.foldl append response,allOk && entries.all fun e => e.status == 0))
      (StoreServiceOps.serveKeys hits keys response allOk) made := by
  induction keys generalizing response allOk made with
  | nil => exact ⟨[],.nil,by simp⟩
  | cons key keys ih =>
    refine Ledger.kept_bind (Ledger.kept_mono (kept_serveKey key response allOk made) ?_)
    rintro _ made₁ ⟨e,rfl,he⟩
    refine Ledger.kept_mono (Ledger.kept_grows (ih (append response e) _ made₁)) ?_
    rintro _ made₂ ⟨hsub,entries,hentries,rfl⟩
    refine ⟨e :: entries,.cons (he.mono hsub) hentries,?_⟩
    rw [List.foldl_cons,List.all_cons,Bool.and_assoc]

theorem aligned_of_entries {entries : List Entry} (h : List.Forall₂ (ServedTo hits made) keys entries) :
    Aligned hits made keys { entries.foldl append ⟨0,[],[],[]⟩ with
      status := if (entries.all fun e => e.status == 0) then 0 else 1 } := by
  have hlength := h.length_eq
  rw [foldl_append]
  refine ⟨by simp [hlength],by simp [hlength],by simp [hlength],?_,?_⟩
  · intro i key segment size status hkey hsegment hsize hstatus
    simp only [List.nil_append, List.getElem?_map, Option.map_eq_some_iff] at hsegment hsize hstatus
    obtain ⟨e,he,rfl⟩ := hsegment
    obtain ⟨e₁,he₁,rfl⟩ := hsize
    obtain ⟨e₂,he₂,rfl⟩ := hstatus
    obtain rfl : e = e₁ := Option.some.inj (he.symm.trans he₁)
    obtain rfl : e = e₂ := Option.some.inj (he.symm.trans he₂)
    have hzip : (key,e) ∈ keys.zip entries := by
      apply List.mem_of_getElem? (i := i)
      rw [List.getElem?_zip_eq_some]
      exact ⟨hkey,he⟩
    exact List.forall₂_zip h hzip
  · simp only [List.nil_append, List.forall_mem_map]
    cases hall : entries.all fun e => e.status == 0 with
    | true =>
      simp only [List.all_eq_true, beq_iff_eq] at hall
      exact ⟨fun _ => hall,fun _ => rfl⟩
    | false =>
      simp only [List.all_eq_false, beq_iff_eq] at hall
      obtain ⟨e,he,hne⟩ := hall
      constructor
      · intro hone
        cases hone
      · exact fun hzero => absurd (hzero e he) hne

theorem kept_batchGetByKey (keys : List Key) :
    calls.Kept (fun response made => ∃ hits misses,
        ⟨.store (.indexBatchContains keys),(hits,misses)⟩ ∈ made ∧ Aligned hits made keys response)
      (StoreServiceOps.batchGetByKey keys) [] := by
  apply Ledger.kept_note
  rintro ⟨hits,misses⟩ _
  refine Ledger.kept_bind (Ledger.kept_mono (Ledger.kept_grows (kept_serveKeys keys _ _ _)) ?_)
  rintro _ made ⟨hsub,entries,hentries,rfl⟩
  refine ⟨hits,misses,hsub (by simp),?_⟩
  rw [Bool.true_and]
  exact aligned_of_entries hentries

variable {cfg : StoreConfig} {engineAddr : String} {service : StoreService}
  {tr : List (Event serviceCalls StoreService)} {Q : Pool serviceCalls StoreService ServiceReply}

/-- Whatever else runs, the answer has one entry for each key: data that was read for it
into a buffer allocated for it, or no data and a status. -/
theorem batchGetByKey_aligned
    (h : Run storeServiceMachine (fun p => ∃ op, p = ServiceOp.run cfg engineAddr op)
      (fun _ _ => True) ⟨service,[]⟩ tr Q) {i : ℕ} {keys : List Key} {response : BatchGetByKeyResponse}
    (hi : Q.threads[i]? = some (.ret (.batchGetByKey keys response))) :
    ∃ hits misses, ⟨.store (.indexBatchContains keys),(hits,misses)⟩ ∈ callsOf i tr ∧
      Aligned hits (callsOf i tr) keys response := by
  have hstart : ∀ p, (∃ op, p = ServiceOp.run cfg engineAddr op) →
      calls.Kept (fun reply made => ∀ keys response, reply = .batchGetByKey keys response →
        ∃ hits misses, ⟨.store (.indexBatchContains keys),(hits,misses)⟩ ∈ made ∧
          Aligned hits made keys response) p [] := by
    rintro _ ⟨op,rfl⟩
    cases op with
    | batchGetByKey keys =>
      refine Ledger.kept_bind (Ledger.kept_mono (kept_batchGetByKey keys) ?_)
      intro response made hresponse _ _ heq
      cases heq
      exact hresponse
    | store op =>
      apply Ledger.kept_then
      intro _ _ _ _ heq
      cases heq
    | prepareHixlBatchRead segments =>
      apply Ledger.kept_then
      intro _ _ _ _ heq
      cases heq
    | releaseHixlRead tok =>
      apply Ledger.kept_then
      intro _ _ _ _ heq
      cases heq
  obtain ⟨made,hentered,hpost⟩ := Ledger.run_kept (fun _ _ => trivial) hstart h i _ hi
  rw [entered_calls hentered] at hpost
  exact hpost keys response rfl

def sampleConfig : StoreConfig := ⟨1,8,8,0,false,false⟩

def sampleOps : List ServiceOp :=
  [.store (.put "a" (some fun _ => 7) 4),.batchGetByKey ["a","b","a"],.store (.remove "a")]

def sampleSchedule : List (ℕ × ServiceChoice) :=
  [(0,{}),(0,{}),(0,{}),(0,{}),(0,{}),(1,{}),(1,{ allocation := some ⟨1,fun _ => 0⟩ }),(1,{}),(1,{}),
    (1,{}),(2,{}),(2,{}),(1,{ allocation := some ⟨1,fun _ => 0⟩ }),(1,{}),(1,{})]

def statusesOf (Q : Pool serviceCalls StoreService ServiceReply) (i : ℕ) : Option (List Key × List ℤ) :=
  match Q.threads[i]? with
  | some (.ret (.batchGetByKey keys response)) => some (keys,response.statuses)
  | _ => none

theorem exists_of_statusesOf {i : ℕ} {keys : List Key} {statuses : List ℤ}
    (h : statusesOf Q i = some (keys,statuses)) : ∃ response,
      Q.threads[i]? = some (.ret (.batchGetByKey keys response)) ∧ response.statuses = statuses := by
  unfold statusesOf at h
  split at h
  · next keys' response hi =>
    cases h
    exact ⟨response,hi,rfl⟩
  · cases h

theorem batchGetByKey_aligned_sample : ∃ hits made response,
    response.statuses = [0,2,2] ∧ Aligned hits made ["a","b","a"] response := by
  have hops : ∀ p ∈ sampleOps.map (ServiceOp.run sampleConfig ""),
      ∃ op, p = ServiceOp.run sampleConfig "" op := by
    intro p hp
    obtain ⟨op,-,rfl⟩ := List.mem_map.mp hp
    exact ⟨op,rfl⟩
  have hfollow : (Pool.follow (M := storeServiceMachine) (fun _ _ => true) sampleSchedule
      ⟨.create (.init sampleConfig),sampleOps.map (ServiceOp.run sampleConfig "")⟩).map
        (fun x => statusesOf x.2 1) = some (some (["a","b","a"],[0,2,2])) := rfl
  obtain ⟨tr,Q,hrun,hQ⟩ := run_of_schedule _ hops hfollow
  obtain ⟨response,hi,hstatuses⟩ := exists_of_statusesOf hQ
  obtain ⟨hits,_,_,haligned⟩ := batchGetByKey_aligned (hrun.ok_mono fun _ _ _ => trivial) hi
  exact ⟨hits,_,response,hstatuses,haligned⟩

end KeyReads

end FalconKV
