import Mathlib.Data.List.Perm.Subperm
import FalconKV.Python.Connector

/-! # What a read of the connector releases

Objects are allocated in one loop and released in two others. A read that raises nothing
releases every object that it does not return, and what it returns are the objects before
the first that was not read. Whatever was allocated when something raises stays allocated.
-/
namespace FalconKV.ConnectorReads
open AtomicCalls

/-- What a call does for the read; `failed` stands for an exception and for an object or a
tensor that is `None`. -/
inductive Deed
  | allocated (obj : ℕ)
  | read (reads : List ℤ)
  | released (obj : ℕ)
  | failed

def deeds (op : ConnectorCall) (r : op.Res) : List Deed :=
  match op, r with
  | .allocate, .ok (some obj) => [.allocated obj]
  | .allocate, _ => [.failed]
  | .tensor _, .ok (some _) => []
  | .tensor _, _ => [.failed]
  | .batchGetSync .., .ok reads => [.read reads]
  | .batchGetSync .., .error _ => [.failed]
  | .reshapePartialChunk .., .error _ => [.failed]
  | .refCountDown _ obj, _ => [.released obj]
  | _, _ => []

def deedsOf (i : ℕ) (tr : List (Event connectorCalls Connector)) : List Deed :=
  (callsOf i tr).flatMap fun c => deeds c.op c.res

namespace Deed

def allocations : Deed → List ℕ
  | allocated obj => [obj]
  | _ => []

def releases : Deed → List ℕ
  | released obj => [obj]
  | _ => []

end Deed

def returned : Except String (List ℕ) → List ℕ
  | .ok objs => objs
  | .error _ => []

/-- Each object that was allocated is returned or was released, once, and what is returned
are the objects up to the first one that was not read. -/
structure Handled (result : Except String (List ℕ)) (done : List Deed) : Prop where
  once : ∀ obj, .allocated obj ∈ done →
    (done.flatMap Deed.releases).count obj + (returned result).count obj = 1
  own : ∀ obj ∈ done.flatMap Deed.releases ++ returned result, .allocated obj ∈ done
  longest : ∀ objs, result = .ok objs → ∃ reads, .read reads ∈ done ∧
    objs = (done.flatMap Deed.allocations).take (reads.takeWhile (0 < ·)).length

/-- Something failed when there were objects already. -/
def FailsLate (done : List Deed) : Prop := .failed ∈ done ∧ ∃ obj, .allocated obj ∈ done

def guar (op : ConnectorCall) (r : op.Res) : Prop :=
  match op, r with
  | .batchGetSync keys _ _, .ok reads => reads.length = keys.length
  | .reshapePartialChunk obj _, .ok obj' => obj' = obj
  | _, _ => True

def doing : Ledger connectorCalls (List Deed) := Ledger.noting guar deeds

variable {done : List Deed} {result : Except String (List ℕ)} {objs : List ℕ} {reads : List ℤ} {n : ℕ}

theorem mem_allocations {obj : ℕ} : obj ∈ done.flatMap Deed.allocations ↔ .allocated obj ∈ done := by
  constructor
  · intro h
    obtain ⟨d,hd,hobj⟩ := List.mem_flatMap.mp h
    cases d with
    | allocated obj' =>
      obtain rfl := List.mem_singleton.mp hobj
      exact hd
    | read _ => cases hobj
    | released _ => cases hobj
    | failed => cases hobj
  · intro h
    exact List.mem_flatMap.mpr ⟨_,h,List.mem_singleton_self obj⟩

def pick (nRead : ℤ) (obj : ℕ) : Option ℕ := if nRead ≤ 0 then none else some obj

def dropped : List ℤ → List ℕ → List ℕ
  | nRead :: reads, obj :: objs =>
    if nRead ≤ 0 then obj :: dropped reads objs else dropped reads objs
  | _, _ => []

def beforeGap (results : List (Option ℕ)) : List ℕ :=
  (results.takeWhile Option.isSome).filterMap id

def afterGap (results : List (Option ℕ)) : List ℕ :=
  (results.dropWhile Option.isSome).filterMap id

theorem beforeGap_append_afterGap (results : List (Option ℕ)) :
    beforeGap results ++ afterGap results = results.filterMap id := by
  rw [beforeGap,afterGap,← List.filterMap_append,List.takeWhile_append_dropWhile]

theorem beforeGap_pick (reads : List ℤ) (objs : List ℕ) :
    beforeGap (List.zipWith pick reads objs) = objs.take (reads.takeWhile (0 < ·)).length := by
  induction reads generalizing objs with
  | nil => simp [beforeGap]
  | cons nRead reads ih =>
    cases objs with
    | nil => simp [beforeGap]
    | cons obj objs =>
      by_cases hread : nRead ≤ 0
      · have hpos : ¬0 < nRead := by omega
        simp [beforeGap, pick, hread, hpos]
      · have hpos : 0 < nRead := by omega
        simpa [beforeGap, pick, hread, hpos] using ih objs

theorem dropped_append_perm (h : reads.length = objs.length) :
    (dropped reads objs ++ (List.zipWith pick reads objs).filterMap id).Perm objs := by
  induction reads generalizing objs with
  | nil =>
    obtain rfl := List.length_eq_zero_iff.mp h.symm
    exact .nil
  | cons nRead reads ih =>
    cases objs with
    | nil => cases h
    | cons obj objs =>
      have hrest := ih (Nat.succ.inj h)
      by_cases hread : nRead ≤ 0
      · simpa [dropped, pick, hread] using hrest
      · have hmiddle : (dropped reads objs ++ obj :: (List.zipWith pick reads objs).filterMap id).Perm
            (obj :: (dropped reads objs ++ (List.zipWith pick reads objs).filterMap id)) :=
          List.perm_middle
        simpa [dropped, pick, hread] using hmiddle.trans (hrest.cons obj)

def Failed (done : List Deed) : Prop :=
  .failed ∈ done ∧ (done.flatMap Deed.allocations = [] ∧ done.flatMap Deed.releases = [] ∨
    (done.flatMap Deed.releases).length < (done.flatMap Deed.allocations).length)

def acquired (objs : List ℕ) (reads : List ℤ) (released : List ℕ) : List Deed :=
  objs.map .allocated ++ .read reads :: released.map .released

@[simp] theorem allocations_allocated (objs : List ℕ) :
    (objs.map Deed.allocated).flatMap Deed.allocations = objs := by
  rw [List.flatMap_map]
  exact List.flatMap_singleton' objs

@[simp] theorem releases_allocated (objs : List ℕ) :
    (objs.map Deed.allocated).flatMap Deed.releases = [] := by
  rw [List.flatMap_map]
  exact List.flatMap_eq_nil_iff.mpr fun _ _ => rfl

@[simp] theorem allocations_released (objs : List ℕ) :
    (objs.map Deed.released).flatMap Deed.allocations = [] := by
  rw [List.flatMap_map]
  exact List.flatMap_eq_nil_iff.mpr fun _ _ => rfl

@[simp] theorem releases_released (objs : List ℕ) :
    (objs.map Deed.released).flatMap Deed.releases = objs := by
  rw [List.flatMap_map]
  exact List.flatMap_singleton' objs

@[simp] theorem allocations_acquired (objs : List ℕ) (reads : List ℤ) (released : List ℕ) :
    (acquired objs reads released).flatMap Deed.allocations = objs := by
  simp [acquired, Deed.allocations]

@[simp] theorem releases_acquired (objs : List ℕ) (reads : List ℤ) (released : List ℕ) :
    (acquired objs reads released).flatMap Deed.releases = released := by
  simp [acquired, Deed.releases]

theorem failed_allocated (objs : List ℕ) : Failed (objs.map .allocated ++ [.failed]) := by
  constructor
  · simp
  · cases objs with
    | nil => exact .inl ⟨rfl,rfl⟩
    | cons obj objs =>
      right
      simp [Deed.allocations, Deed.releases]

theorem failed_acquired {released : List ℕ} (h : released.length < objs.length) :
    Failed (acquired objs reads released ++ [.failed]) := by
  constructor
  · simp
  · right
    simpa [Deed.allocations, Deed.releases] using h

theorem not_handled_of_failed {e : String} (h : Failed done)
    (hnodup : (done.flatMap Deed.allocations).Nodup) :
    Handled (.error e) done ↔ ¬FailsLate done := by
  obtain ⟨hfailed,hway⟩ := h
  constructor
  · rintro hhandled ⟨-,obj,hobj⟩
    have hsub : done.flatMap Deed.allocations ⊆ done.flatMap Deed.releases := by
      intro obj' hobj'
      apply List.count_pos_iff.mp
      have honce := hhandled.once obj' (mem_allocations.mp hobj')
      simp only [returned, List.count_nil] at honce
      omega
    rcases hway with ⟨hnil,-⟩ | hlt
    · have hmem := mem_allocations.mpr hobj
      rw [hnil] at hmem
      cases hmem
    · have hle := (List.subperm_of_subset hnodup hsub).length_le
      omega
  · intro hearly
    have hnone : ∀ obj, .allocated obj ∉ done := fun obj hobj => hearly ⟨hfailed,obj,hobj⟩
    have hnil : done.flatMap Deed.allocations = [] := by
      apply List.eq_nil_iff_forall_not_mem.mpr
      intro obj hobj
      exact hnone obj (mem_allocations.mp hobj)
    rcases hway with ⟨-,hreleases⟩ | hlt
    · exact {
        once := fun obj hobj => absurd hobj (hnone obj)
        own := by simp [hreleases, returned]
        longest := by simp }
    · rw [hnil] at hlt
      cases hlt

theorem handled_acquired (h : reads.length = objs.length) (hnodup : objs.Nodup) :
    Handled (.ok (beforeGap (List.zipWith pick reads objs)))
      (acquired objs reads (dropped reads objs ++ afterGap (List.zipWith pick reads objs))) := by
  have hperm : (dropped reads objs ++ afterGap (List.zipWith pick reads objs) ++
      beforeGap (List.zipWith pick reads objs)).Perm objs := by
    have hrest : (afterGap (List.zipWith pick reads objs) ++ beforeGap (List.zipWith pick reads objs)).Perm
        ((List.zipWith pick reads objs).filterMap id) := by
      rw [← beforeGap_append_afterGap]
      exact List.perm_append_comm
    rw [List.append_assoc]
    exact (hrest.append_left _).trans (dropped_append_perm h)
  refine ⟨?_,?_,?_⟩
  · intro obj hobj
    have hmem : obj ∈ objs := by
      rw [← allocations_acquired objs reads]
      exact mem_allocations.mpr hobj
    rw [releases_acquired,returned,← List.count_append,hperm.count_eq]
    exact List.count_eq_one_of_mem hnodup hmem
  · intro obj hobj
    apply mem_allocations.mp
    rw [releases_acquired] at hobj
    rw [allocations_acquired]
    exact hperm.mem_iff.mp hobj
  · intro objs' hobjs'
    obtain rfl := Except.ok.inj hobjs'
    refine ⟨reads,by simp [acquired],?_⟩
    rw [allocations_acquired]
    exact beforeGap_pick reads objs

theorem not_failsLate_acquired (objs : List ℕ) (reads : List ℤ) (released : List ℕ) :
    ¬FailsLate (acquired objs reads released) := by
  rintro ⟨hmem,-⟩
  simp [acquired] at hmem

theorem kept_allocateAll (keys : List String) (bufs : List (ℕ × ℕ × ℕ)) :
    doing.Kept (fun x done => match x with
      | .ok bufs' => bufs'.length = bufs.length + keys.length ∧
        done = (bufs'.map Prod.fst).map .allocated
      | .error _ => Failed done) (ConnectorOps.allocateAll keys bufs)
      ((bufs.map Prod.fst).map .allocated) := by
  induction keys generalizing bufs with
  | nil => exact ⟨rfl,rfl⟩
  | cons key keys ih =>
    apply Ledger.kept_note
    intro allocated _
    match allocated with
    | .error e => exact failed_allocated _
    | .ok none => exact failed_allocated _
    | .ok (some obj) =>
      have hdone : (bufs.map Prod.fst).map Deed.allocated ++ deeds .allocate (.ok (some obj)) =
          (bufs.map Prod.fst ++ [obj]).map .allocated := by
        rw [List.map_append]
        rfl
      rw [hdone]
      unfold ConnectorOps.bufferOf
      apply Ledger.kept_note
      intro tensor _
      match tensor with
      | .error e => exact failed_allocated _
      | .ok none => exact failed_allocated _
      | .ok (some buffer) =>
        have hbufs : (bufs.map Prod.fst ++ [obj]).map Deed.allocated ++ [] =
            ((bufs ++ [(obj,buffer)]).map Prod.fst).map .allocated := by simp
        have hrest := ih (bufs ++ [(obj,buffer)])
        rw [← hbufs] at hrest
        apply Ledger.kept_mono hrest
        intro x done hx
        cases x with
        | error e => exact hx
        | ok bufs' =>
          refine ⟨?_,hx.2⟩
          rw [hx.1,List.length_append,List.length_singleton,List.length_cons]
          omega

/-- `earlier` are the objects that the loop has released already. -/
theorem kept_collect (all : List ℕ) (allReads : List ℤ) {reads : List ℤ} {bufs : List (ℕ × ℕ × ℕ)}
    (hlength : reads.length = bufs.length) (results : List (Option ℕ)) (earlier : List ℕ)
    (hearlier : earlier.length + bufs.length ≤ all.length) :
    doing.Kept (fun x done => match x with
      | .ok results' => results' = results ++ List.zipWith pick reads (bufs.map Prod.fst) ∧
        done = acquired all allReads (earlier ++ dropped reads (bufs.map Prod.fst))
      | .error _ => Failed done) (ConnectorOps.collect n reads bufs results)
      (acquired all allReads earlier) := by
  induction reads generalizing bufs results earlier with
  | nil =>
    constructor
    · simp
    · simp [dropped]
  | cons nRead reads ih =>
    match bufs with
    | [] => cases hlength
    | (obj,ptr,size) :: bufs =>
      have hrest : reads.length = bufs.length := Nat.succ.inj hlength
      simp only [List.length_cons] at hearlier
      unfold ConnectorOps.collect
      split
      · next hread =>
        apply Ledger.kept_note
        intro _ _
        have hdone : acquired all allReads earlier ++ deeds (.refCountDown n obj) () =
            acquired all allReads (earlier ++ [obj]) := by
          simp [acquired, deeds]
        have hnext := ih hrest (results ++ [none]) (earlier ++ [obj])
          (by rw [List.length_append,List.length_singleton]; omega)
        rw [← hdone] at hnext
        apply Ledger.kept_mono hnext
        intro x done hx
        cases x with
        | error e => exact hx
        | ok results' => simpa [pick, dropped, hread] using hx
      next hread =>
      have hpicked : ∀ {obj' : ℕ}, obj' = obj → doing.Kept (fun x done => match x with
          | .ok results' => results' = results ++
            List.zipWith pick (nRead :: reads) (((obj,ptr,size) :: bufs).map Prod.fst) ∧
            done = acquired all allReads
              (earlier ++ dropped (nRead :: reads) (((obj,ptr,size) :: bufs).map Prod.fst))
          | .error _ => Failed done) (ConnectorOps.collect n reads bufs (results ++ [some obj']))
          (acquired all allReads earlier) := by
        intro obj' heq
        rw [heq]
        apply Ledger.kept_mono (ih hrest (results ++ [some obj]) earlier (by omega))
        intro x done hx
        cases x with
        | error e => exact hx
        | ok results' => simpa [pick, dropped, hread] using hx
      split
      · apply Ledger.kept_note
        intro reshaped hreshaped
        match reshaped with
        | .error e => exact failed_acquired (by omega)
        | .ok obj' =>
          have hnone : acquired all allReads earlier ++
              deeds (.reshapePartialChunk obj nRead) (.ok obj') = acquired all allReads earlier :=
            List.append_nil _
          rw [hnone]
          exact hpicked hreshaped
      · exact hpicked rfl

theorem kept_batchedGet (keys : List String) :
    doing.Kept (fun x done => match x with
      | .ok results => ∃ objs reads, reads.length = objs.length ∧
        results = List.zipWith pick reads objs ∧ done = acquired objs reads (dropped reads objs)
      | .error _ => Failed done) (ConnectorOps.batchedGet n keys) [] := by
  apply Ledger.kept_bind
  apply Ledger.kept_mono (kept_allocateAll keys [])
  intro x done hx
  match x with
  | .error e => exact hx
  | .ok bufs =>
    obtain ⟨hlength,rfl⟩ := hx
    rw [List.length_nil,Nat.zero_add] at hlength
    apply Ledger.kept_note
    intro reads hreads
    match reads with
    | .error e => exact failed_allocated _
    | .ok reads =>
      have hcount : reads.length = bufs.length := Eq.trans hreads hlength.symm
      apply Ledger.kept_mono (kept_collect (bufs.map Prod.fst) reads hcount [] [] (by simp))
      intro x done hx
      match x with
      | .error e => exact hx
      | .ok results =>
        refine ⟨bufs.map Prod.fst,reads,?_,hx.1,hx.2⟩
        rw [hcount,List.length_map]

theorem kept_release (results : List (Option ℕ)) (done : List Deed) :
    doing.Kept (fun _ done' => done' = done ++ (results.filterMap id).map .released)
      (Prog.forEach (ConnectorOps.release n) results) done := by
  induction results generalizing done with
  | nil => exact (List.append_nil done).symm
  | cons r results ih =>
    cases r with
    | none => exact ih done
    | some obj =>
      apply Ledger.kept_note
      intro _ _
      apply Ledger.kept_mono (ih _)
      rintro _ _ rfl
      simp [deeds]

theorem kept_untilGap (results : List (Option ℕ)) (done : List Deed) :
    doing.Kept (fun kept done' => kept = beforeGap results ∧
      done' = done ++ (afterGap results).map .released) (ConnectorOps.untilGap n results) done := by
  induction results with
  | nil =>
    constructor
    · rfl
    · simp [afterGap]
  | cons r results ih =>
    cases r with
    | none =>
      apply Ledger.kept_bind
      apply Ledger.kept_mono (kept_release results done)
      rintro _ _ rfl
      constructor
      · simp [beforeGap]
      · simp [afterGap]
    | some obj =>
      apply Ledger.kept_bind
      apply Ledger.kept_mono ih
      rintro _ _ ⟨rfl,rfl⟩
      constructor
      · simp [beforeGap]
      · simp [afterGap]

theorem kept_batchedGetNonBlocking (keys : List String) :
    doing.Kept (fun result done => (done.flatMap Deed.allocations).Nodup →
      (Handled result done ↔ ¬FailsLate done)) (ConnectorOps.batchedGetNonBlocking n keys) [] := by
  apply Ledger.kept_bind
  apply Ledger.kept_mono (kept_batchedGet keys)
  intro x done hx
  match x with
  | .error e => exact fun hnodup => not_handled_of_failed hx hnodup
  | .ok results =>
    obtain ⟨objs,reads,hlength,rfl,rfl⟩ := hx
    apply Ledger.kept_bind
    apply Ledger.kept_mono (kept_untilGap _ _)
    rintro _ _ ⟨rfl,rfl⟩ hnodup
    have hdone : acquired objs reads (dropped reads objs) ++
        (afterGap (List.zipWith pick reads objs)).map .released =
        acquired objs reads (dropped reads objs ++ afterGap (List.zipWith pick reads objs)) := by
      simp [acquired]
    rw [hdone] at hnodup ⊢
    rw [allocations_acquired] at hnodup
    exact ⟨fun _ => not_failsLate_acquired _ _ _,fun _ => handled_acquired hlength hnodup⟩

abbrev documentedMachine : Machine connectorCalls Connector :=
  connectorMachine.under ConnectorCall.documented

theorem guar_of_documented {op : ConnectorCall} {c : ConnectorChoice} {r : op.Res} {s s' : Connector}
    (h : documentedMachine.step op c s = some (r,s')) : guar op r := by
  obtain ⟨hallow,hs⟩ := Machine.under_step h
  cases op with
  | batchGetSync keys ptrs sizes =>
    obtain ⟨rfl,-⟩ := Prod.mk.inj (Option.some.inj hs)
    cases hreads : c.reads with
    | error e => trivial
    | ok reads =>
      have hcount : reads.length = keys.length := by
        simpa [ConnectorCall.documented, hreads] using hallow
      exact hcount
  | reshapePartialChunk obj nRead =>
    obtain ⟨rfl,-⟩ := Prod.mk.inj (Option.some.inj hs)
    cases hreshaped : c.reshaped with
    | error e => trivial
    | ok obj' =>
      have hsame : obj' = obj := by simpa [ConnectorCall.documented, hreshaped] using hallow
      exact hsame
  | _ => trivial

/-- An object is new when it is allocated. -/
theorem allocations_step {op : ConnectorCall} {c : ConnectorChoice} {r : op.Res} {s s' : Connector}
    (h : connectorMachine.step op c s = some (r,s')) :
    (deeds op r).flatMap Deed.allocations = [] ∧ s'.nextObject = s.nextObject ∨
      (deeds op r).flatMap Deed.allocations = [s.nextObject] ∧
        s'.nextObject = s.nextObject + 1 := by
  cases op with
  | allocate =>
    simp only [connectorMachine, Connector.step] at h
    split at h
    · obtain ⟨rfl,rfl⟩ := Prod.mk.inj (Option.some.inj h)
      exact .inl ⟨rfl,rfl⟩
    · obtain ⟨rfl,rfl⟩ := Prod.mk.inj (Option.some.inj h)
      exact .inl ⟨rfl,rfl⟩
    · obtain ⟨rfl,rfl⟩ := Prod.mk.inj (Option.some.inj h)
      exact .inr ⟨rfl,rfl⟩
  | tensor obj =>
    obtain ⟨-,rfl⟩ := Prod.mk.inj (Option.some.inj h)
    left
    rcases r with e | _ | buffer <;> exact ⟨rfl,rfl⟩
  | batchGetSync keys ptrs sizes =>
    obtain ⟨-,rfl⟩ := Prod.mk.inj (Option.some.inj h)
    left
    rcases r with e | reads <;> exact ⟨rfl,rfl⟩
  | reshapePartialChunk obj nRead =>
    obtain ⟨-,rfl⟩ := Prod.mk.inj (Option.some.inj h)
    left
    rcases r with e | obj' <;> exact ⟨rfl,rfl⟩
  | fireAndForgetPut n keys ptrs sizes objs =>
    left
    rcases queues_of_fireAndForgetPut h with ⟨⟨e,rfl⟩,rfl⟩ | ⟨rfl,rfl⟩
    · exact ⟨rfl,rfl⟩
    · exact ⟨rfl,rfl⟩
  | takeTask =>
    left
    simp only [connectorMachine, Connector.step] at h
    split at h
    · cases h
    · obtain ⟨-,rfl⟩ := Prod.mk.inj (Option.some.inj h)
      exact ⟨rfl,rfl⟩
  | batchPutSync keys ptrs sizes =>
    obtain rfl := eq_of_batchPutSync h
    exact .inl ⟨rfl,rfl⟩
  | enter | refCountUp _ _ | refCountDown _ _ | runTask _ =>
    obtain ⟨-,rfl⟩ := Prod.mk.inj (Option.some.inj h)
    exact .inl ⟨rfl,rfl⟩

variable {connector : Connector} {tr : List (Event connectorCalls Connector)}
  {Q : Pool connectorCalls Connector ConnectorReply}

theorem nodup_allocations (h : Run documentedMachine (fun p => ∃ op, p = ConnectorOp.run op)
      (fun _ _ => True) ⟨connector,[]⟩ tr Q) (i : ℕ) :
    ((deedsOf i tr).flatMap Deed.allocations).Nodup := by
  have hcounts : Counts documentedMachine (fun _ _ => True)
      (fun op r => (deeds op r).flatMap Deed.allocations) Connector.nextObject :=
    fun _ hs => allocations_step (Machine.under_step hs).2
  rw [deedsOf,List.flatMap_assoc]
  exact h.nodup_callsOf hcounts i

/-- A read handles all its objects, unless something fails when there are objects. -/
theorem batchedGetNonBlocking_handled_iff
    (h : Run documentedMachine (fun p => ∃ op, p = ConnectorOp.run op) (fun _ _ => True)
      ⟨connector,[]⟩ tr Q) {i : ℕ}
    (hi : Q.threads[i]? = some (.ret (.batchedGetNonBlocking result))) :
    Handled result (deedsOf i tr) ↔ ¬FailsLate (deedsOf i tr) := by
  have hstart : ∀ p, (∃ op, p = ConnectorOp.run op) → doing.Kept (fun reply done => ∀ result,
      reply = .batchedGetNonBlocking result → (done.flatMap Deed.allocations).Nodup →
        (Handled result done ↔ ¬FailsLate done)) p [] := by
    rintro _ ⟨op,rfl⟩
    cases op with
    | batchedGetNonBlocking keys =>
      apply Ledger.kept_note
      intro n _
      apply Ledger.kept_bind
      apply Ledger.kept_mono (kept_batchedGetNonBlocking keys)
      intro result done hdone result' heq
      cases heq
      exact hdone
    | batchedGet keys | get key | batchedPut faf keys objs | put faf key obj =>
      apply Ledger.kept_note
      intro n _
      apply Ledger.kept_then
      intro _ _ _ heq
      cases heq
    | backgroundPut =>
      apply Ledger.kept_then
      intro _ _ _ heq
      cases heq
  have hpost := Ledger.run_noting (fun _ hs => guar_of_documented hs) hstart h hi
  exact hpost result rfl (nodup_allocations h i)

def outcome (x : List (Event connectorCalls Connector) ×
    Pool connectorCalls Connector ConnectorReply) : Option ConnectorReply × List ℕ × List ℕ :=
  (x.2.threads[0]?.bind Prog.value,(deedsOf 0 x.1).flatMap Deed.allocations,
    (deedsOf 0 x.1).flatMap Deed.releases)

theorem sample_starts (keys : List String) :
    ∀ p ∈ [(ConnectorOp.batchedGetNonBlocking keys).run], ∃ op, p = ConnectorOp.run op := by
  intro p hp
  exact ⟨_,List.mem_singleton.mp hp⟩

def sampleSchedule : List (ℕ × ConnectorChoice) :=
  [(0,{}),(0,{}),(0,{}),(0,{}),(0,{}),(0,{}),(0,{}),(0,{}),(0,{}),(0,{ reads := .ok [4,0,4,2] }),
    (0,{}),(0,{ reshaped := .ok 3 }),(0,{}),(0,{})]

theorem batchedGetNonBlocking_handled_sample : ∃ (tr : List (Event connectorCalls Connector))
    (Q : Pool connectorCalls Connector ConnectorReply),
    Q.threads[0]? = some (.ret (.batchedGetNonBlocking (.ok [0]))) ∧
    (deedsOf 0 tr).flatMap Deed.allocations = [0,1,2,3] ∧
    (deedsOf 0 tr).flatMap Deed.releases = [1,2,3] ∧
    (Handled (.ok [0]) (deedsOf 0 tr) ↔ ¬FailsLate (deedsOf 0 tr)) := by
  have hfollow : (Pool.follow (M := documentedMachine) (fun _ _ => true) sampleSchedule
      ⟨.create,[(ConnectorOp.batchedGetNonBlocking ["a","b","c","d"]).run]⟩).map outcome =
      some (some (.batchedGetNonBlocking (.ok [0])),[0,1,2,3],[1,2,3]) := rfl
  obtain ⟨tr,Q,hrun,hQ⟩ := run_of_schedule _ (sample_starts _) hfollow
  obtain ⟨hvalue,hdeeds⟩ := Prod.mk.inj hQ
  obtain ⟨hallocated,hreleased⟩ := Prod.mk.inj hdeeds
  obtain ⟨p,hp,hret⟩ := Option.bind_eq_some_iff.mp hvalue
  obtain rfl := Prog.value_eq_some.mp hret
  exact ⟨tr,Q,hp,hallocated,hreleased,
    batchedGetNonBlocking_handled_iff (hrun.ok_mono fun _ _ _ => trivial) hp⟩

/-- The pool has one object only. -/
theorem exists_object_left : ∃ tr Q result, Run documentedMachine (fun p => ∃ op, p = ConnectorOp.run op)
      (fun _ _ => True) ⟨.create,[]⟩ tr Q ∧
    Q.threads[0]? = some (.ret (.batchedGetNonBlocking result)) ∧
    ¬Handled result (deedsOf 0 tr) := by
  have hfollow : (Pool.follow (M := documentedMachine) (fun _ _ => true)
      [(0,{}),(0,{}),(0,{}),(0,{ allocated := .ok false })]
      ⟨.create,[(ConnectorOp.batchedGetNonBlocking ["a","b"]).run]⟩).map outcome =
      some (some (.batchedGetNonBlocking
        (.error "'NoneType' object has no attribute 'tensor'")),[0],[]) := rfl
  obtain ⟨tr,Q,hrun,hQ⟩ := run_of_schedule _ (sample_starts _) hfollow
  obtain ⟨hvalue,hdeeds⟩ := Prod.mk.inj hQ
  obtain ⟨hallocated,hreleased⟩ := Prod.mk.inj hdeeds
  obtain ⟨p,hp,hret⟩ := Option.bind_eq_some_iff.mp hvalue
  obtain rfl := Prog.value_eq_some.mp hret
  refine ⟨tr,Q,_,hrun.ok_mono fun _ _ _ => trivial,hp,?_⟩
  intro hhandled
  have hmem : 0 ∈ (deedsOf 0 tr).flatMap Deed.allocations := by
    rw [hallocated]
    exact List.mem_singleton_self 0
  have honce := hhandled.once 0 (mem_allocations.mp hmem)
  rw [hreleased] at honce
  cases honce

end FalconKV.ConnectorReads
