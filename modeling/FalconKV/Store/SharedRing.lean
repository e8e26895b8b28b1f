import Mathlib.Algebra.Order.Sub.Basic
import Mathlib.Data.Multiset.Bind
import Mathlib.Data.Multiset.OrderedMonoid
import Mathlib.Tactic.Abel
import FalconKV.AtomicCalls.Discipline
import FalconKV.Store.IOUringEngine

/-! # Calls that share one ring

Every call of the engine is followed with the requests that it has put into the ring and
the completions that it has taken out. What is in the ring is what the calls have put in
and not taken out; a call that waits while the ring holds nothing of another call gets a
completion of its own.
-/
namespace FalconKV
open AtomicCalls

namespace IOUring

/-- The requests that are prepared, submitted, or completed and not taken out. -/
def held (s : IOUring) : List Sqe := s.sq ++ s.inFlight ++ s.cq.contents.map Cqe.sqe

/-- A call that prepares a request finds a free entry, and a call that waits for a completion
finds no request of another call in the ring. -/
def undivided (s : IOUring) : UringCall → Bool
  | .getSqe .. => s.sq.length < s.sqEntries
  | .waitCqe call => s.held.all fun sqe => sqe.call == call
  | _ => true

def Completes (s : IOUring) (call i : ℕ) : Prop :=
  ∃ q ∈ s.completed, q.sqe.call = call ∧ q.sqe.userData = i ∧ (q.sqe.request.size : ℤ) ≤ q.res

/-- A result is OK exactly if its request was completed in full. -/
structure Reported (s : IOUring) (call : ℕ) (results : List UringIOResult) : Prop where
  length : (s.calls[call]?).map List.length = some results.length
  isOk : ∀ i (h : i < results.length), results[i].status.isOk = true ↔ s.Completes call i

end IOUring

/-- The completion that a call gets. -/
def UringCall.got : (op : UringCall) → op.Res → Option (ℕ × Cqe)
  | .waitCqe call, q => q.map fun q => (call,q)
  | _, _ => none

/-- Every call gets completions of its own, with a tag below the number of its requests, and
consumes them only. -/
structure OwnOnly (e : Event uringCalls IOUring) : Prop where
  gets : ∀ call q, UringCall.got e.op e.res = some (call,q) → q.sqe.call = call ∧
    ∃ requests, e.before.calls[call]? = some requests ∧ q.sqe.userData < requests.length
  consumes : ∀ call, e.op = .cqeSeen call → ∃ q, e.before.cq.front? = some q ∧ q.sqe.call = call

structure CallView where
  call : ℕ
  requests : List UringIORequest
  prepared : List Sqe
  reaped : List Cqe
  /-- the completion that it looks at -/
  peeked : Option Cqe

namespace CallView

def inRing (v : CallView) : Multiset Sqe :=
  (v.prepared : Multiset Sqe) - (v.reaped.map Cqe.sqe : List Sqe)

structure Fits (v : CallView) : Prop where
  call : ∀ sqe ∈ v.prepared, sqe.call = v.call
  tags : v.prepared.map Sqe.userData = List.range v.prepared.length
  sizes : ∀ sqe ∈ v.prepared, (v.requests[sqe.userData]?).map UringIORequest.size =
    some sqe.request.size
  reaped : ((v.reaped.map Cqe.sqe : List Sqe) : Multiset Sqe) ≤ v.prepared

def prepare (v : CallView) (op : UringOp) (request : UringIORequest) : CallView :=
  { v with prepared := v.prepared ++ [⟨v.call,v.prepared.length,op,request⟩] }

def peek (v : CallView) (q : Cqe) : CallView := { v with peeked := some q }

def take (v : CallView) (q : Cqe) : CallView :=
  { v with peeked := none, reaped := v.reaped ++ [q] }

end CallView

def following : Discipline uringCalls (Multiset CallView) where
  guar
    | .getSqe .., r => r = true
    | .submit _, r => r.isOk = true
    | .waitCqe _, r => r.isSome = true
    | _, _ => True
  rule
    | .enter requests, call, used, made => used = 0 ∧ made = {⟨call,requests,[],[],none⟩}
    | .getSqe call userData op request, _, used, made => ∃ v : CallView, v.call = call ∧
      v.peeked = none ∧ v.prepared.length = userData ∧
      (v.requests[userData]?).map UringIORequest.size = some request.size ∧
      used = {v} ∧ made = {v.prepare op request}
    | .waitCqe call, some q, used, made => ∃ v : CallView, v.call = call ∧
      used = {v} ∧ made = {v.peek q}
    | .cqeSeen call, _, used, made => ∃ (v : CallView) (q : Cqe), v.call = call ∧ v.peeked = some q ∧
      used = {v} ∧ made = {v.take q}
    | _, _, used, made => used = 0 ∧ made = 0

namespace IOUringEngine
variable {op : UringOp} {fd : ℤ}

abbrev Views {α : Type} (call : ℕ) (requests : List UringIORequest) (post : α → CallView → Prop) (a : α)
    (g : Multiset CallView) : Prop :=
  ∃ v : CallView, g = {v} ∧ v.call = call ∧ v.requests = requests ∧ v.peeked = none ∧ post a v

theorem uses_prepare {requests : List UringIORequest} {call : ℕ} (room : ℕ) {v : CallView}
    (hcall : v.call = call) (hrequests : v.requests = requests) (hpeeked : v.peeked = none) :
    Uses following (Views call requests fun submitted v' =>
      v'.reaped = v.reaped ∧ v'.prepared.length = v.prepared.length + submitted ∧
        submitted = min room (requests.length - v.prepared.length))
      (prepare op fd requests call v.prepared.length room) {v} := by
  induction room generalizing v with
  | zero => exact ⟨v,rfl,hcall,hrequests,hpeeked,rfl,rfl,by simp⟩
  | succ room ih =>
    unfold prepare
    split
    · next hnone =>
      have hle := List.getElem?_eq_none_iff.mp hnone
      exact ⟨v,rfl,hcall,hrequests,hpeeked,rfl,rfl,by omega⟩
    · next request hsome =>
      obtain ⟨hlt,-⟩ := List.getElem?_eq_some_iff.mp hsome
      refine uses_perform ?_
      rintro _ rfl
      refine ⟨{v},{v.prepare op _},0,⟨v,hcall,hpeeked,rfl,?_,rfl,rfl⟩,rfl,?_⟩
      · rw [hrequests, hsome]
        rfl
      · rw [add_zero]
        have hlength : (v.prepare op { request with fd := if 0 ≤ request.fd then request.fd else fd }).prepared.length =
            v.prepared.length + 1 := by simp [CallView.prepare]
        have hrest := ih (v := v.prepare op { request with fd := if 0 ≤ request.fd then request.fd else fd })
          hcall hrequests hpeeked
        rw [hlength] at hrest
        refine uses_bind (uses_mono hrest ?_)
        rintro more _ ⟨v',rfl,hcall',hrequests',hpeeked',hreaped,hprepared,hmore⟩
        exact ⟨v',rfl,hcall',hrequests',hpeeked',hreaped,by omega,by omega⟩

theorem uses_reap {engine : IOUringEngine} {requests : List UringIORequest} {call : ℕ} (n : ℕ)
    {results : List UringIOResult} {v : CallView} (hcall : v.call = call)
    (hrequests : v.requests = requests) (hpeeked : v.peeked = none)
    (hresults : results = v.reaped.foldl (engine.record op requests)
      (List.replicate requests.length ⟨0,.OK⟩)) :
    Uses following (Views call requests fun results' v' =>
      v'.prepared = v.prepared ∧ v'.reaped.length = v.reaped.length + n ∧
        results' = v'.reaped.foldl (engine.record op requests)
          (List.replicate requests.length ⟨0,.OK⟩))
      (engine.reap op requests call n results) {v} := by
  induction n generalizing v results with
  | zero => exact ⟨v,rfl,hcall,hrequests,hpeeked,rfl,rfl,hresults⟩
  | succ n ih =>
    refine uses_perform ?_
    rintro (_ | q) hq
    · cases hq
    · refine ⟨{v},{v.peek q},0,⟨v,hcall,rfl,rfl⟩,rfl,?_⟩
      refine uses_perform fun _ _ => ⟨{v.peek q},{v.take q},0,⟨v.peek q,q,hcall,rfl,rfl,rfl⟩,rfl,?_⟩
      rw [add_zero]
      refine uses_mono (ih (v := v.take q) hcall hrequests rfl ?_) ?_
      · rw [hresults]
        simp [CallView.take]
      · rintro results' _ ⟨v',rfl,hcall',hrequests',hpeeked',hprepared,hreaped,hresults'⟩
        refine ⟨v',rfl,hcall',hrequests',hpeeked',hprepared,?_,hresults'⟩
        rw [hreaped]
        simp [CallView.take, Nat.add_right_comm, Nat.add_assoc]

/-- A call that has gone through all its requests. -/
theorem uses_subBatches {engine : IOUringEngine} (havailable : engine.available = true)
    {requests : List UringIORequest} {call : ℕ} (rounds : ℕ) {results : List UringIOResult}
    {v : CallView} (hcall : v.call = call) (hrequests : v.requests = requests)
    (hpeeked : v.peeked = none) (hreaped : v.reaped.length = v.prepared.length)
    (hresults : results = v.reaped.foldl (engine.record op requests)
      (List.replicate requests.length ⟨0,.OK⟩))
    (hrounds : requests.length ≤ v.prepared.length + rounds)
    (hidx : v.prepared.length ≤ requests.length) :
    Uses following (Views call requests fun results' v' =>
      v'.prepared.length = requests.length ∧ v'.reaped.length = requests.length ∧
        results' = v'.reaped.foldl (engine.record op requests)
          (List.replicate requests.length ⟨0,.OK⟩))
      (engine.subBatches op fd requests call rounds v.prepared.length results) {v} := by
  induction rounds generalizing v results with
  | zero =>
    refine ⟨v,rfl,hcall,hrequests,hpeeked,?_,?_,hresults⟩ <;> omega
  | succ rounds ih =>
    unfold subBatches
    split
    · refine ⟨v,rfl,hcall,hrequests,hpeeked,?_,?_,hresults⟩ <;> omega
    next hlt =>
    have hdepth := engine.depth_pos havailable
    refine uses_bind (uses_mono (uses_prepare engine.queueDepth hcall hrequests hpeeked) ?_)
    rintro submitted _ ⟨v₁,rfl,hcall₁,hrequests₁,hpeeked₁,hreaped₁,hprepared₁,hsubmitted⟩
    rw [if_neg (by omega)]
    refine uses_perform ?_
    rintro (e | taken) hret
    · cases hret
    · refine ⟨0,0,{v₁},⟨rfl,rfl⟩,(zero_add _).symm,?_⟩
      rw [zero_add]
      have hresults₁ : results = v₁.reaped.foldl (engine.record op requests)
          (List.replicate requests.length ⟨0,.OK⟩) := by rw [hreaped₁, hresults]
      refine uses_bind (uses_mono (uses_reap submitted hcall₁ hrequests₁ hpeeked₁ hresults₁) ?_)
      rintro results₂ _ ⟨v₂,rfl,hcall₂,hrequests₂,hpeeked₂,hprepared₂,hreaped₂,hresults₂⟩
      have hlength : v.prepared.length + submitted = v₂.prepared.length := by
        rw [hprepared₂, hprepared₁]
      rw [hlength]
      have hreaped₃ : v₂.reaped.length = v₂.prepared.length := by
        rw [hreaped₂, hreaped₁, hreaped, hlength]
      exact ih hcall₂ hrequests₂ hpeeked₂ hreaped₃ hresults₂ (by omega) (by omega)

def Returns (engine : IOUringEngine) (op : UringOp) (v : CallView) (results : List UringIOResult) :
    Prop :=
  v.reaped.length = v.prepared.length ∧
  if engine.available then v.prepared.length = v.requests.length ∧
    results = v.reaped.foldl (engine.record op v.requests)
      (List.replicate v.requests.length ⟨0,.OK⟩)
  else v.prepared = [] ∧ results = (List.range v.requests.length).map fun i : ℕ =>
    ⟨int32 i,.ioError "io_uring engine not available"⟩

def Replies (engine : IOUringEngine) : Option (ℕ × List UringIOResult) → Multiset CallView → Prop
  | none, g => g = 0
  | some (call,results), g => ∃ (v : CallView) (op : UringOp), g = {v} ∧ v.call = call ∧
    engine.Returns op v results

theorem uses_batch (engine : IOUringEngine) (op : UringOp) (fd : ℤ) (requests : List UringIORequest) :
    Uses following (fun r g => engine.Replies (some r) g) (engine.batch op fd requests) 0 := by
  refine uses_perform fun call _ => ?_
  refine ⟨0,{⟨call,requests,[],[],none⟩},0,⟨rfl,rfl⟩,rfl,?_⟩
  rw [add_zero]
  cases havailable : engine.available with
  | false =>
    refine ⟨⟨call,requests,[],[],none⟩,op,rfl,rfl,rfl,?_⟩
    rw [havailable]
    exact ⟨rfl,rfl⟩
  | true =>
    have hrun : Uses following (Views call requests fun results v' =>
        v'.prepared.length = requests.length ∧ v'.reaped.length = requests.length ∧
          results = v'.reaped.foldl (engine.record op requests)
            (List.replicate requests.length ⟨0,.OK⟩))
        (engine.subBatches op fd requests call requests.length 0
          (List.replicate requests.length ⟨0,.OK⟩)) {⟨call,requests,[],[],none⟩} :=
      uses_subBatches havailable requests.length (v := ⟨call,requests,[],[],none⟩) rfl rfl rfl rfl rfl
        (Nat.le_add_left _ _) (Nat.zero_le _)
    refine uses_bind (uses_mono hrun ?_)
    rintro results _ ⟨v,rfl,hcall,rfl,-,hprepared,hreaped,hresults⟩
    refine ⟨v,op,rfl,hcall,hreaped.trans hprepared.symm,?_⟩
    rw [if_pos havailable]
    exact ⟨hprepared,hresults⟩

theorem uses_start (engine : IOUringEngine) (start : UringStart) :
    Uses following engine.Replies (start.run engine) 0 := by
  cases start with
  | batchWrite fd requests => exact uses_bind (uses_batch engine .write fd requests)
  | batchRead fd requests => exact uses_bind (uses_batch engine .read fd requests)
  | complete => exact uses_idle (fun _ => ⟨rfl,rfl⟩) fun _ _ => rfl

end IOUringEngine

structure Sharing (s : IOUring) (views : Multiset CallView) : Prop where
  apart : (views.map CallView.call).Nodup
  named : ∀ v ∈ views, s.calls[v.call]? = some v.requests
  fits : ∀ v ∈ views, v.Fits
  window : s.cq.WF
  held : (s.held : Multiset Sqe) = views.bind CallView.inRing
  completed : (s.completed : Multiset Cqe) =
    s.cq.contents + views.bind fun v => (v.reaped : Multiset Cqe)
  peeked : ∀ v ∈ views, ∀ q, v.peeked = some q → s.cq.front? = some q ∧ q.sqe.call = v.call

section
variable {s : IOUring} {v : CallView} {rest : Multiset CallView} {q : Cqe}

namespace CallView

theorem mem_prepared_of_mem_inRing {sqe : Sqe} (h : sqe ∈ v.inRing) : sqe ∈ v.prepared :=
  Multiset.mem_coe.mp (Multiset.mem_of_le (Multiset.sub_le_self _ _) h)

theorem Fits.mem_prepared (h : v.Fits) (hq : q ∈ v.reaped) : q.sqe ∈ v.prepared :=
  Multiset.mem_coe.mp (Multiset.mem_of_le h.reaped (Multiset.mem_coe.mpr (List.mem_map_of_mem hq)))

theorem inRing_prepare (h : v.Fits) (op : UringOp) (request : UringIORequest) :
    (v.prepare op request).inRing = v.inRing + {⟨v.call,v.prepared.length,op,request⟩} := by
  have hsum : ((v.prepare op request).prepared : Multiset Sqe) =
      v.prepared + {⟨v.call,v.prepared.length,op,request⟩} := rfl
  rw [inRing, hsum]
  exact tsub_add_eq_add_tsub h.reaped |>.symm

theorem inRing_take (h : q.sqe ∈ v.inRing) : {q.sqe} + (v.take q).inRing = v.inRing := by
  have hsum : (((v.take q).reaped.map Cqe.sqe : List Sqe) : Multiset Sqe) =
      (v.reaped.map Cqe.sqe : List Sqe) + {q.sqe} := by
    simp [take, ← Multiset.coe_add]
  have htake : (v.take q).inRing = v.inRing - {q.sqe} := by
    rw [inRing, hsum, ← tsub_tsub]
    rfl
  rw [htake]
  exact add_tsub_cancel_of_le (Multiset.singleton_le.mpr h)

theorem Fits.prepare (h : v.Fits) (op : UringOp) {request : UringIORequest}
    (hsize : (v.requests[v.prepared.length]?).map UringIORequest.size = some request.size) :
    (v.prepare op request).Fits where
  call := by
    intro sqe hsqe
    rcases List.mem_append.mp hsqe with hsqe | hsqe
    · exact h.call sqe hsqe
    · rw [List.mem_singleton.mp hsqe]
      rfl
  tags := by
    simp only [CallView.prepare, List.map_append, List.map_singleton, List.length_append,
      List.length_singleton, List.range_succ, h.tags]
  sizes := by
    intro sqe hsqe
    rcases List.mem_append.mp hsqe with hsqe | hsqe
    · exact h.sizes sqe hsqe
    · rw [List.mem_singleton.mp hsqe]
      exact hsize
  reaped := by
    refine h.reaped.trans ?_
    have hle : (v.prepared : Multiset Sqe) ≤ v.prepared + {⟨v.call,v.prepared.length,op,request⟩} :=
      Multiset.le_add_right _ _
    exact hle

theorem Fits.take (h : v.Fits) (hq : q.sqe ∈ v.inRing) : (v.take q).Fits where
  call := h.call
  tags := h.tags
  sizes := h.sizes
  reaped := by
    have hsum : (((v.take q).reaped.map Cqe.sqe : List Sqe) : Multiset Sqe) =
        (v.reaped.map Cqe.sqe : List Sqe) + {q.sqe} := by
      simp [CallView.take, ← Multiset.coe_add]
    have hall : (v.reaped.map Cqe.sqe : List Sqe) + v.inRing = (v.prepared : Multiset Sqe) :=
      add_tsub_cancel_of_le h.reaped
    rw [hsum]
    refine le_trans ?_ hall.le
    exact add_le_add le_rfl (Multiset.singleton_le.mpr hq)

/-- All that it has put in was taken out. -/
theorem Fits.reaped_eq (h : v.Fits) (hreaped : v.reaped.length = v.prepared.length) :
    ((v.reaped.map Cqe.sqe : List Sqe) : Multiset Sqe) = v.prepared :=
  Multiset.eq_of_le_of_card_le h.reaped (by simp [hreaped])

theorem Fits.inRing_eq_zero (h : v.Fits) (hreaped : v.reaped.length = v.prepared.length) : v.inRing = 0 := by
  rw [inRing, h.reaped_eq hreaped, tsub_self]

end CallView

/-- One view is replaced. -/
theorem forall_replaced {P : CallView → Prop} {v' : CallView} (hv : P v')
    (h : ∀ u ∈ v ::ₘ rest, P u) : ∀ u ∈ v' ::ₘ rest, P u := by
  intro u hu
  rcases Multiset.mem_cons.mp hu with rfl | hu
  · exact hv
  · exact h u (Multiset.mem_cons_of_mem hu)

namespace Sharing

/-- What is in the ring belongs to one of the calls. -/
theorem owner (h : Sharing s rest) {sqe : Sqe} (hsqe : sqe ∈ s.held) :
    ∃ u ∈ rest, sqe ∈ u.inRing := by
  have hmem : sqe ∈ rest.bind CallView.inRing := by
    rw [← h.held]
    exact Multiset.mem_coe.mpr hsqe
  exact Multiset.mem_bind.mp hmem

theorem view_unique (h : Sharing s rest) {u : CallView} (hu : u ∈ rest) (hv : v ∈ rest)
    (hcall : u.call = v.call) : u = v := Multiset.inj_on_of_nodup_map h.apart u hu v hv hcall

/-- What is in the ring under the name of a call is what the call has there. -/
theorem mem_inRing (h : Sharing s rest) (hv : v ∈ rest) {sqe : Sqe} (hsqe : sqe ∈ s.held)
    (hcall : sqe.call = v.call) : sqe ∈ v.inRing := by
  obtain ⟨u,hu,hin⟩ := h.owner hsqe
  have hname := (h.fits u hu).call sqe (CallView.mem_prepared_of_mem_inRing hin)
  rwa [h.view_unique hu hv (hname.symm.trans hcall)] at hin

theorem mem_held_of_front? (h : Sharing s rest) (hq : s.cq.front? = some q) : q.sqe ∈ s.held := by
  apply List.mem_append_right
  rw [CircularBuffer.contents_of_front? h.window hq]
  exact List.mem_map_of_mem List.mem_cons_self

theorem enter (h : Sharing s rest) (requests : List UringIORequest) :
    Sharing { s with calls := s.calls ++ [requests] }
      (⟨s.calls.length,requests,[],[],none⟩ ::ₘ rest) where
  apart := by
    rw [Multiset.map_cons, Multiset.nodup_cons]
    refine ⟨fun hin => ?_,h.apart⟩
    obtain ⟨u,hu,heq⟩ := Multiset.mem_map.mp hin
    obtain ⟨hlt,-⟩ := List.getElem?_eq_some_iff.mp (h.named u hu)
    rw [heq] at hlt
    exact Nat.lt_irrefl _ hlt
  named := by
    intro u hu
    rcases Multiset.mem_cons.mp hu with rfl | hu
    · exact List.getElem?_concat_length
    · obtain ⟨hlt,-⟩ := List.getElem?_eq_some_iff.mp (h.named u hu)
      exact (List.getElem?_append_left hlt).trans (h.named u hu)
  fits := by
    intro u hu
    rcases Multiset.mem_cons.mp hu with rfl | hu
    · exact ⟨by simp,rfl,by simp,le_rfl⟩
    · exact h.fits u hu
  window := h.window
  held := by
    rw [Multiset.cons_bind]
    exact h.held.trans (zero_add _).symm
  completed := by
    rw [Multiset.cons_bind]
    exact h.completed.trans (congrArg _ (zero_add _).symm)
  peeked := by
    intro u hu q hq
    rcases Multiset.mem_cons.mp hu with rfl | hu
    · cases hq
    · exact h.peeked u hu q hq

theorem prepare (h : Sharing s (v ::ₘ rest)) (hpeeked : v.peeked = none) (op : UringOp)
    {request : UringIORequest}
    (hsize : (v.requests[v.prepared.length]?).map UringIORequest.size = some request.size) :
    Sharing { s with sq := s.sq ++ [⟨v.call,v.prepared.length,op,request⟩] }
      (v.prepare op request ::ₘ rest) where
  apart := by simpa [CallView.prepare] using h.apart
  named := forall_replaced (h.named v (Multiset.mem_cons_self _ _)) h.named
  fits := forall_replaced ((h.fits v (Multiset.mem_cons_self _ _)).prepare op hsize) h.fits
  window := h.window
  held := by
    have hmore : (IOUring.held { s with sq := s.sq ++ [⟨v.call,v.prepared.length,op,request⟩] } :
        Multiset Sqe) = {⟨v.call,v.prepared.length,op,request⟩} + (s.held : Multiset Sqe) := by
      simp only [IOUring.held, ← Multiset.coe_add, Multiset.coe_singleton]
      abel
    rw [hmore, h.held, Multiset.cons_bind, Multiset.cons_bind,
      CallView.inRing_prepare (h.fits v (Multiset.mem_cons_self _ _))]
    abel
  completed := by
    have hall := h.completed
    rw [Multiset.cons_bind] at hall ⊢
    exact hall
  peeked := by
    refine forall_replaced ?_ h.peeked
    intro q hq
    rw [CallView.prepare, hpeeked] at hq
    cases hq

/-- The kernel takes up the first requests in the submission queue. -/
theorem submitSome (h : Sharing s rest) (accepted : ℕ) : Sharing { s with
    sq := s.sq.drop accepted
    inFlight := s.inFlight ++ s.sq.take accepted } rest where
  apart := h.apart
  named := h.named
  fits := h.fits
  window := h.window
  held := by
    have hall : ((s.sq.take accepted : List Sqe) : Multiset Sqe) + s.sq.drop accepted = s.sq := by
      rw [Multiset.coe_add, List.take_append_drop]
    rw [← h.held]
    simp only [IOUring.held, ← Multiset.coe_add, ← hall]
    abel
  completed := h.completed
  peeked := h.peeked

theorem submit (h : Sharing s rest) : Sharing { s with sq := [], inFlight := s.inFlight ++ s.sq } rest := by
  simpa using h.submitSome s.sq.length

theorem peek (h : Sharing s (v ::ₘ rest)) (hq : s.cq.front? = some q) (hcall : q.sqe.call = v.call) :
    Sharing s (v.peek q ::ₘ rest) where
  apart := by simpa [CallView.peek] using h.apart
  named := forall_replaced (h.named v (Multiset.mem_cons_self _ _)) h.named
  fits := by
    have hv := h.fits v (Multiset.mem_cons_self _ _)
    exact forall_replaced ⟨hv.call,hv.tags,hv.sizes,hv.reaped⟩ h.fits
  window := h.window
  held := by
    have hall := h.held
    rw [Multiset.cons_bind] at hall ⊢
    exact hall
  completed := by
    have hall := h.completed
    rw [Multiset.cons_bind] at hall ⊢
    exact hall
  peeked := by
    refine forall_replaced ?_ h.peeked
    rintro q' hq'
    cases hq'
    exact ⟨hq,hcall⟩

/-- Nobody else looks at the completion that a call takes. -/
theorem take (h : Sharing s (v ::ₘ rest)) (hpeeked : v.peeked = some q) :
    Sharing { s with cq := s.cq.advance } (v.take q ::ₘ rest) := by
  have hv : v ∈ v ::ₘ rest := Multiset.mem_cons_self _ _
  obtain ⟨hfront,hcall⟩ := h.peeked v hv q hpeeked
  have hcontents := CircularBuffer.contents_of_front? h.window hfront
  have hin : q.sqe ∈ v.inRing := h.mem_inRing hv (h.mem_held_of_front? hfront) hcall
  constructor
  · simpa [CallView.take] using h.apart
  · exact forall_replaced (h.named v hv) h.named
  · exact forall_replaced ((h.fits v hv).take hin) h.fits
  · exact h.window.advance hfront
  · have hall := h.held
    rw [Multiset.cons_bind, ← CallView.inRing_take hin] at hall
    have hless : (s.held : Multiset Sqe) = {q.sqe} +
        (IOUring.held { s with cq := s.cq.advance } : Multiset Sqe) := by
      simp only [IOUring.held, hcontents, List.map_cons, ← Multiset.coe_add, ← Multiset.cons_coe,
        ← Multiset.singleton_add]
      abel
    rw [hless, add_assoc] at hall
    rw [Multiset.cons_bind]
    exact add_left_cancel hall
  · have hall := h.completed
    rw [Multiset.cons_bind, hcontents, ← Multiset.cons_coe, ← Multiset.singleton_add] at hall
    have hmore : ((v.take q).reaped : Multiset Cqe) = v.reaped + {q} := rfl
    rw [Multiset.cons_bind, hmore]
    refine hall.trans ?_
    simp only
    abel
  · intro u hu q' hq'
    rcases Multiset.mem_cons.mp hu with rfl | hu
    · cases hq'
    · obtain ⟨hfront',hcall'⟩ := h.peeked u (Multiset.mem_cons_of_mem hu) q' hq'
      rw [hfront] at hfront'
      cases hfront'
      have hnodup := h.apart
      rw [Multiset.map_cons, Multiset.nodup_cons] at hnodup
      exact absurd (hcall.symm.trans hcall' ▸ Multiset.mem_map_of_mem _ hu) hnodup.1

/-- The kernel moves a request from the one queue to the other. -/
theorem complete (h : Sharing s rest) {i : ℕ} {sqe : Sqe} (hi : s.inFlight[i]? = some sqe) (res : ℤ)
    (hroom : s.cq.hasRoom = true) : Sharing { s with
      inFlight := s.inFlight.eraseIdx i
      cq := s.cq.push ⟨sqe,res⟩
      completed := s.completed ++ [⟨sqe,res⟩] } rest where
  apart := h.apart
  named := h.named
  fits := h.fits
  window := h.window.push hroom
  held := by
    rw [← h.held]
    obtain ⟨hlt,hget⟩ := List.getElem?_eq_some_iff.mp hi
    have hperm := Multiset.coe_eq_coe.mpr (List.getElem_cons_eraseIdx_perm hlt)
    rw [hget, ← Multiset.cons_coe, ← Multiset.singleton_add] at hperm
    simp only [IOUring.held, CircularBuffer.contents_push h.window hroom, List.map_append,
      List.map_singleton, ← Multiset.coe_add, Multiset.coe_singleton, ← hperm]
    abel
  completed := by
    simp only [CircularBuffer.contents_push h.window hroom, ← Multiset.coe_add, Multiset.coe_singleton,
      h.completed]
    abel
  peeked := by
    intro u hu q hq
    obtain ⟨hfront,hcall⟩ := h.peeked u hu q hq
    exact ⟨CircularBuffer.front?_push h.window hroom hfront,hcall⟩

end Sharing

section
variable {α β : Type} (f : β → ℕ) (g : β → α)

theorem length_foldl_set (qs : List β) (xs : List α) :
    (qs.foldl (fun xs q => xs.set (f q) (g q)) xs).length = xs.length := by
  induction qs generalizing xs with
  | nil => rfl
  | cons q qs ih => rw [List.foldl_cons, ih, List.length_set]

theorem getElem?_foldl_set_of_notMem {qs : List β} {i : ℕ} (hi : i ∉ qs.map f) (xs : List α) :
    (qs.foldl (fun xs q => xs.set (f q) (g q)) xs)[i]? = xs[i]? := by
  induction qs generalizing xs with
  | nil => rfl
  | cons q qs ih =>
    rw [List.map_cons, List.mem_cons, not_or] at hi
    rw [List.foldl_cons, ih hi.2, List.getElem?_set_ne (Ne.symm hi.1)]

/-- Entries at different positions are all there at the end. -/
theorem getElem?_foldl_set {qs : List β} (hnodup : (qs.map f).Nodup) {q : β} (hq : q ∈ qs)
    {xs : List α} (hlt : f q < xs.length) :
    (qs.foldl (fun xs q => xs.set (f q) (g q)) xs)[f q]? = some (g q) := by
  induction qs generalizing xs with
  | nil => cases hq
  | cons p qs ih =>
    rw [List.map_cons, List.nodup_cons] at hnodup
    rw [List.foldl_cons]
    rcases List.mem_cons.mp hq with rfl | hq
    · rw [getElem?_foldl_set_of_notMem f g hnodup.1, List.getElem?_set_self hlt]
    · exact ih hnodup.2 hq (by rwa [List.length_set])

end

theorem isOk_resultOf (engine : IOUringEngine) (op : UringOp) {requests : List UringIORequest} {size : ℕ}
    (hsize : (requests[q.sqe.userData]?).map UringIORequest.size = some size) :
    (engine.resultOf op requests q).status.isOk = true ↔ (size : ℤ) ≤ q.res := by
  unfold IOUringEngine.resultOf
  rw [hsize]
  dsimp only [Option.getD_some]
  split
  · simp only [Status.isOk_ioError, Bool.false_eq_true, false_iff]
    omega
  split
  · simp only [Status.isOk_ioError, Bool.false_eq_true, false_iff]
    omega
  · simp only [Status.isOk_OK, true_iff]
    omega

namespace Sharing

/-- The completions of the requests of a call that has nothing left in the ring. -/
theorem completes_iff (h : Sharing s (v ::ₘ rest)) (hreaped : v.reaped.length = v.prepared.length)
    (i : ℕ) : s.Completes v.call i ↔
      ∃ q ∈ v.reaped, q.sqe.userData = i ∧ (q.sqe.request.size : ℤ) ≤ q.res := by
  have hv := Multiset.mem_cons_self v rest
  have hfits := h.fits v hv
  have hnone := hfits.inRing_eq_zero hreaped
  have hmem : ∀ q : Cqe, q ∈ s.completed ↔ q ∈ s.cq.contents ∨ ∃ u ∈ v ::ₘ rest, q ∈ u.reaped := by
    intro q
    rw [← Multiset.mem_coe, h.completed, Multiset.mem_add, Multiset.mem_bind]
    simp only [Multiset.mem_coe]
  constructor
  · rintro ⟨q,hq,hcall,htag,hsize⟩
    rcases (hmem q).mp hq with hq | ⟨u,hu,hq⟩
    · have hin := h.mem_inRing hv (List.mem_append_right _ (List.mem_map_of_mem hq)) hcall
      rw [hnone] at hin
      cases hin
    · have hname := (h.fits u hu).call q.sqe ((h.fits u hu).mem_prepared hq)
      rw [h.view_unique hu hv (hname.symm.trans hcall)] at hq
      exact ⟨q,hq,htag,hsize⟩
  · rintro ⟨q,hq,htag,hsize⟩
    exact ⟨q,(hmem q).mpr (.inr ⟨v,hv,hq⟩),hfits.call q.sqe (hfits.mem_prepared hq),htag,hsize⟩

theorem reported (h : Sharing s (v ::ₘ rest)) {engine : IOUringEngine} {op : UringOp}
    {results : List UringIOResult} (hreturns : engine.Returns op v results) :
    s.Reported v.call results := by
  have hv := Multiset.mem_cons_self v rest
  have hfits := h.fits v hv
  obtain ⟨hreaped,hresults⟩ := hreturns
  have hcompletes := h.completes_iff hreaped
  split at hresults
  · obtain ⟨hprepared,hfold⟩ := hresults
    have hlength : results.length = v.requests.length := by
      rw [hfold]
      exact (length_foldl_set _ _ _ _).trans List.length_replicate
    -- the tags of the completions are the positions, each once
    have htags : (v.reaped.map fun q => q.sqe.userData).Perm (List.range v.requests.length) := by
      have hperm := (Multiset.coe_eq_coe.mp (hfits.reaped_eq hreaped)).map Sqe.userData
      rw [hfits.tags, hprepared, List.map_map] at hperm
      exact hperm
    refine ⟨by rw [h.named v hv, hlength]; rfl,fun i hi => ?_⟩
    have htag : i ∈ v.reaped.map fun q => q.sqe.userData :=
      htags.mem_iff.mpr (List.mem_range.mpr (hlength ▸ hi))
    obtain ⟨q,hq,rfl⟩ := List.mem_map.mp htag
    have hnodup : (v.reaped.map fun q => q.sqe.userData).Nodup := htags.nodup_iff.mpr List.nodup_range
    have hresult : results[q.sqe.userData]? = some (engine.resultOf op v.requests q) := by
      rw [hfold]
      exact getElem?_foldl_set _ _ hnodup hq (by simpa [hlength] using hi)
    have hget : results[q.sqe.userData] = engine.resultOf op v.requests q := by
      rw [List.getElem?_eq_getElem hi] at hresult
      exact Option.some.inj hresult
    rw [hget, isOk_resultOf engine op (hfits.sizes q.sqe (hfits.mem_prepared hq)), hcompletes]
    constructor
    · exact fun hsize => ⟨q,hq,rfl,hsize⟩
    · rintro ⟨q',hq',htag',hsize⟩
      rwa [List.inj_on_of_nodup_map hnodup hq' hq htag'] at hsize
  · obtain ⟨hprepared,hfailed⟩ := hresults
    have hnone : v.reaped = [] := by
      rw [hprepared] at hreaped
      exact List.eq_nil_of_length_eq_zero hreaped
    refine ⟨by rw [h.named v hv, hfailed]; simp,fun i hi => ?_⟩
    rw [hcompletes, hnone]
    simp [hfailed]

end Sharing

/-- A call of the ring that is neither a wait nor a consumption. -/
theorem ownOnly_of_other {e : Event uringCalls IOUring} (hgot : UringCall.got e.op e.res = none)
    (hseen : ∀ call, e.op ≠ .cqeSeen call) : OwnOnly e where
  gets := by
    intro call q hq
    rw [hgot] at hq
    cases hq
  consumes := fun call hop => absurd hop (hseen call)

theorem Sharing.ownOnly_waitCqe (h : Sharing s (v ::ₘ rest)) (i : ℕ) (hq : s.cq.front? = some q)
    (hcall : q.sqe.call = v.call) : OwnOnly ⟨i,s,.waitCqe v.call,some q,s⟩ where
  gets := by
    rintro call q' hgot
    cases hgot
    have hv := Multiset.mem_cons_self v rest
    have hin := CallView.mem_prepared_of_mem_inRing (h.mem_inRing hv (h.mem_held_of_front? hq) hcall)
    refine ⟨hcall,v.requests,h.named v hv,?_⟩
    have hsize := (h.fits v hv).sizes q.sqe hin
    obtain ⟨request,hrequest,-⟩ := Option.map_eq_some_iff.mp hsize
    exact (List.getElem?_eq_some_iff.mp hrequest).1
  consumes := fun _ hop => nomatch hop

theorem Sharing.ownOnly_cqeSeen (h : Sharing s (v ::ₘ rest)) (i : ℕ) (hpeeked : v.peeked = some q)
    (s' : IOUring) : OwnOnly ⟨i,s,.cqeSeen v.call,(),s'⟩ where
  gets := fun _ _ hgot => nomatch hgot
  consumes := by
    intro call hop
    cases hop
    exact ⟨q,h.peeked v (Multiset.mem_cons_self _ _) q hpeeked⟩

theorem keeps_sharing : Keeps (uringMachine false) following (fun s op => s.undivided op = true)
    fun tr s views => (∀ e ∈ tr, OwnOnly e) ∧ Sharing s views where
  guar := by
    rintro tr s op c r s' views ⟨-,h⟩ hok hs
    cases op with
    | getSqe call userData op request =>
      simp only [uringMachine, IOUring.step] at hs
      rw [if_pos (of_decide_eq_true hok)] at hs
      cases hs
      rfl
    | submit call =>
      simp only [uringMachine, IOUring.step] at hs
      split at hs
      · cases hs
      · cases hs
        rfl
    | waitCqe call =>
      simp only [uringMachine, IOUring.step] at hs
      split at hs
      · cases hs
      · obtain ⟨q,-,he⟩ := Option.map_eq_some_iff.mp hs
        cases he
        rfl
    | _ => trivial
  step := by
    rintro tr i s op c r s' used made rest ⟨htr,h⟩ hok hs hr
    have hboth : OwnOnly ⟨i,s,op,r,s'⟩ ∧ Sharing s' (made + rest) := by
      cases op with
      | enter requests =>
        obtain ⟨rfl,rfl⟩ := hr
        cases hs
        rw [zero_add] at h
        exact ⟨ownOnly_of_other rfl fun _ hop => (nomatch hop),h.enter requests⟩
      | getSqe call userData op request =>
        obtain ⟨v,rfl,hpeeked,rfl,hsize,rfl,rfl⟩ := hr
        simp only [uringMachine, IOUring.step] at hs
        rw [if_pos (of_decide_eq_true hok)] at hs
        cases hs
        rw [Multiset.singleton_add] at h ⊢
        exact ⟨ownOnly_of_other rfl fun _ hop => (nomatch hop),h.prepare hpeeked op hsize⟩
      | submit call =>
        obtain ⟨rfl,rfl⟩ := hr
        simp only [uringMachine, IOUring.step] at hs
        split at hs
        · cases hs
        · cases hs
          rw [zero_add] at h ⊢
          exact ⟨ownOnly_of_other rfl fun _ hop => (nomatch hop),h.submit⟩
      | waitCqe call =>
        simp only [uringMachine, IOUring.step] at hs
        split at hs
        · cases hs
        · obtain ⟨q,hq,he⟩ := Option.map_eq_some_iff.mp hs
          cases he
          obtain ⟨v,rfl,rfl,rfl⟩ := hr
          rw [Multiset.singleton_add] at h ⊢
          have hcall : q.sqe.call = v.call := by
            simpa using List.all_eq_true.mp hok q.sqe (h.mem_held_of_front? hq)
          exact ⟨h.ownOnly_waitCqe i hq hcall,h.peek hq hcall⟩
      | cqeSeen call =>
        obtain ⟨v,q,rfl,hpeeked,rfl,rfl⟩ := hr
        cases hs
        rw [Multiset.singleton_add] at h ⊢
        exact ⟨h.ownOnly_cqeSeen i hpeeked _,h.take hpeeked⟩
      | complete =>
        obtain ⟨rfl,rfl⟩ := hr
        simp only [uringMachine, IOUring.step] at hs
        split at hs
        · next hroom =>
          obtain ⟨sqe,hsqe,he⟩ := Option.map_eq_some_iff.mp hs
          cases he
          rw [zero_add] at h ⊢
          exact ⟨ownOnly_of_other rfl fun _ hop => (nomatch hop),h.complete hsqe c.res hroom⟩
        · cases hs
    refine ⟨?_,hboth.2⟩
    intro e he
    rcases List.mem_append.mp he with he | he
    · exact htr e he
    · rw [List.mem_singleton.mp he]
      exact hboth.1

end

/-- In every run in which a call that prepares a request finds a free entry, and a call that
waits for a completion finds no request of another call in the ring, each call gets and
consumes its own completions only, and returns OK for the requests completed in full. -/
theorem reported_of_undivided {engine : IOUringEngine} {tr : List (Event uringCalls IOUring)}
    {P : UringPool} (hrun : UringRun engine (fun s op => s.undivided op = true) tr P) :
    (∀ e ∈ tr, OwnOnly e) ∧
      ∀ call results, some (some (call,results)) ∈ P.replies → P.state.Reported call results := by
  have hinit : Sharing (IOUring.create engine.queueDepth) 0 :=
    ⟨by simp,by simp,by simp,CircularBuffer.wf_create _ _,rfl,rfl,by simp⟩
  obtain ⟨gs,hgs,htr,h⟩ := hrun.shares keeps_sharing
    (fun p hp => by obtain ⟨start,rfl⟩ := hp; exact engine.uses_start start)
    ⟨[],.nil,by simp,hinit⟩
  refine ⟨htr,fun call results hreply => ?_⟩
  obtain ⟨g,rest,⟨v,op,rfl,rfl,hreturns⟩,hsum⟩ := exists_share hgs hreply
  rw [hsum, Multiset.singleton_add] at h
  exact h.reported hreturns

namespace SharedRing

def engine : IOUringEngine := ⟨true,4,fun _ => "",fun _ => by decide⟩

def starts : List UringStart :=
  [.batchRead (-1) [⟨0,4096,0,5⟩],.batchRead (-1) [⟨4096,4096,8192,5⟩],.complete,.complete]

theorem uringRun_of_schedule (check : IOUring → UringCall → Bool)
    (turns : List (ℕ × KernelChoice)) {γ : Type}
    {f : List (Event uringCalls IOUring) × UringPool → γ} {v : γ}
    (h : (Pool.follow (M := uringMachine false) check turns
      ⟨.create engine.queueDepth,starts.map (UringStart.run engine)⟩).map f = some v) :
    ∃ tr P, UringRun engine (fun s op => check s op = true) tr P ∧ f (tr,P) = v := by
  refine run_of_schedule _ ?_ h
  intro p hp
  obtain ⟨start,-,rfl⟩ := List.mem_map.mp hp
  exact ⟨start,rfl⟩

def outcome (P : UringPool) : List (Option (Option (ℕ × List UringIOResult))) × List (ℕ × ℕ × ℤ) :=
  (P.replies,P.state.completed.map fun q => (q.sqe.call,q.sqe.userData,q.res))

def gotten (tr : List (Event uringCalls IOUring)) : List (ℕ × Cqe) :=
  tr.filterMap fun e => UringCall.got e.op e.res

def read : List UringIOResult := [⟨0,.OK⟩]

def turns (thread count : ℕ) : List (ℕ × KernelChoice) := List.replicate count (thread,{})

end SharedRing

open SharedRing

/-- The second call enters while the first one waits, and fills in its entry before the first
one takes its completion out. -/
theorem reported_of_undivided_overlapping : ∃ tr P,
    UringRun SharedRing.engine (fun s op => s.undivided op = true) tr P ∧ (∀ e ∈ tr, OwnOnly e) ∧
      P.state.Reported 0 SharedRing.read ∧ P.state.Reported 1 SharedRing.read := by
  obtain ⟨tr,P,hrun,hP⟩ := uringRun_of_schedule IOUring.undivided
    (turns 0 3 ++ turns 1 1 ++ [(2,{ res := 4096 })] ++ turns 0 1 ++ turns 1 1 ++ turns 0 1 ++
      turns 1 1 ++ [(3,{ res := 4096 })] ++ turns 1 2)
    (f := fun y => outcome y.2)
    (v := ([some (some (0,read)),some (some (1,read)),some none,some none],[(0,0,4096),(1,0,4096)])) rfl
  obtain ⟨hreplies,-⟩ := Prod.mk.inj hP
  obtain ⟨howns,hreported⟩ := reported_of_undivided hrun
  refine ⟨tr,P,hrun,howns,hreported 0 read ?_,hreported 1 read ?_⟩
  · exact hreplies ▸ List.mem_cons_self
  · exact hreplies ▸ List.mem_cons_of_mem _ List.mem_cons_self

/-- The first call takes the completion of the second one, and returns OK for a page that was
never read. -/
theorem exists_run_not_reported : ∃ tr P, UringRun SharedRing.engine (fun _ _ => True) tr P ∧
    some (some (0,SharedRing.read)) ∈ P.replies ∧ ¬ P.state.Reported 0 SharedRing.read ∧
      ¬ ∀ e ∈ tr, OwnOnly e := by
  obtain ⟨tr,P,hrun,hP⟩ := uringRun_of_schedule (fun _ _ => true)
    (turns 0 2 ++ turns 1 2 ++ turns 0 1 ++ [(2,{ index := 1, res := 4096 })] ++ turns 0 2)
    (f := fun y => (outcome y.2,gotten y.1))
    (v := (([some (some (0,read)),none,some none,none],[(1,0,4096)]),
      [(0,⟨⟨1,0,.read,⟨4096,4096,8192,5⟩⟩,4096⟩)])) rfl
  obtain ⟨houtcome,hgot⟩ := Prod.mk.inj hP
  obtain ⟨hreplies,hcompleted⟩ := Prod.mk.inj houtcome
  refine ⟨tr,P,hrun.ok_mono fun _ _ _ => trivial,hreplies ▸ List.mem_cons_self,?_,?_⟩
  · intro h
    obtain ⟨q,hq,hcall,-⟩ := (h.isOk 0 (by decide)).mp rfl
    have hin : (q.sqe.call,q.sqe.userData,q.res) ∈
        P.state.completed.map fun q => (q.sqe.call,q.sqe.userData,q.res) := List.mem_map_of_mem hq
    rw [hcompleted, hcall] at hin
    simp at hin
  · intro h
    have hin : ((0,⟨⟨1,0,.read,⟨4096,4096,8192,5⟩⟩,4096⟩) : ℕ × Cqe) ∈ gotten tr := by
      rw [hgot]
      exact List.mem_singleton_self _
    obtain ⟨e,he,hgets⟩ := List.mem_filterMap.mp hin
    exact absurd ((h e he).gets _ _ hgets).1 (by decide)

end FalconKV
