import FalconKV.AtomicCalls.Environment
import FalconKV.Store.SharedRing

/-! # One call over a library that fails

An entry is refused, a submission fails or takes fewer entries than there are, a wait fails, and
the kernel completes requests in any order with any result. A call accounts for all that it put
into the ring only if none of its sub-batches is refused its first entry, and no submission and
no wait fails.
-/
namespace FalconKV
open AtomicCalls

/-- What liburing and the kernel decide in one call: the requests that are completed before it
takes effect, with their results, and whether it fails. -/
structure LiburingChoice where
  posted : List (ℕ × ℤ) := []
  refuse : Bool := false
  error : Option ℤ := none
  accepted : ℕ := 0

namespace IOUring

def post : List (ℕ × ℤ) → IOUring → Option IOUring
  | [], s => some s
  | (index,res) :: posted, s => (s.step false .complete ⟨none,index,res⟩).bind fun x => post posted x.2

/-- `io_uring_submit` returns how many entries were taken up; a failed one leaves them all. -/
def submitSome (s : IOUring) (c : LiburingChoice) : Option (Except ℤ ℕ × IOUring) :=
  match c.error with
  | some e => some (.error e,s)
  | none =>
    if c.accepted ≤ s.sq.length then
      some (.ok c.accepted,{ s with
        sq := s.sq.drop c.accepted
        inFlight := s.inFlight ++ s.sq.take c.accepted })
    else none

def flakyCall (op : UringCall) (c : LiburingChoice) (s : IOUring) : Option (op.Res × IOUring) :=
  match op with
  | .getSqe call userData op request =>
    if c.refuse then some (false,s) else s.step true (.getSqe call userData op request) {}
  | .submit _ => s.submitSome c
  | op => s.step true op { error := c.error }

def flakyStep (op : UringCall) (c : LiburingChoice) (s : IOUring) : Option (op.Res × IOUring) :=
  (post c.posted s).bind (flakyCall op c)

end IOUring

/-- What goes wrong in a call: its sub-batch gets no entry, or `liburing` reports an error. -/
inductive RingFault
  | noEntry
  | submitFailed (error : ℤ)
  | waitFailed
  deriving DecidableEq, Repr

structure RingLog where
  filled : ℕ := 0
  reaped : List Cqe := []
  faults : List RingFault := []
  deriving DecidableEq, Repr

def RingLog.note : (op : UringCall) → op.Res → IOUring → RingLog → RingLog
  | .getSqe .., true, _, log => { log with filled := log.filled + 1 }
  | .getSqe .., false, _, log =>
    if log.filled = 0 then { log with faults := log.faults ++ [.noEntry] } else log
  | .submit _, .ok _, _, log => { log with filled := 0 }
  | .submit _, .error e, _, log => { log with filled := 0, faults := log.faults ++ [.submitFailed e] }
  | .waitCqe _, some q, _, log => { log with reaped := log.reaped ++ [q] }
  | .waitCqe _, none, _, log => { log with faults := log.faults ++ [.waitFailed] }
  | _, _, _, log => log

abbrev flakyMachine : Machine uringCalls (IOUring × RingLog) :=
  (⟨LiburingChoice,IOUring.flakyStep⟩ : Machine uringCalls IOUring).withRecord RingLog.note

section
variable {s s' : IOUring} {v : CallView} {rest : Multiset CallView} {c : LiburingChoice}

theorem Sharing.post {posted : List (ℕ × ℤ)} (h : Sharing s rest) (hs : IOUring.post posted s = some s') :
    Sharing s' rest := by
  induction posted generalizing s with
  | nil =>
    cases hs
    exact h
  | cons p posted ih =>
    obtain ⟨⟨r,s₁⟩,hone,hmore⟩ := Option.bind_eq_some_iff.mp hs
    simp only [IOUring.step] at hone
    split at hone
    · next hroom =>
      obtain ⟨sqe,hsqe,he⟩ := Option.map_eq_some_iff.mp hone
      cases he
      exact ih (h.complete hsqe p.2 hroom) hmore
    · cases hone

/-- A call finds the ring as completions have left it. -/
theorem flaky_inv {op : UringCall} {r : op.Res} {x x' : IOUring × RingLog}
    (h : flakyMachine.step op c x = some (r,x')) : x'.2 = RingLog.note op r x.1 x.2 ∧
      ∃ s, IOUring.post c.posted x.1 = some s ∧ IOUring.flakyCall op c s = some (r,x'.1) := by
  obtain ⟨hstep,hnote⟩ := Machine.withRecord_step h
  obtain ⟨s,hpost,hop⟩ := Option.bind_eq_some_iff.mp hstep
  exact ⟨hnote,s,hpost,hop⟩

end

structure Serving (rest : Multiset CallView) (call : ℕ) (requests : List UringIORequest) (v : CallView)
    (x : IOUring × RingLog) : Prop where
  sharing : Sharing x.1 (v ::ₘ rest)
  alone : ∀ u ∈ rest, u.inRing = 0
  call : v.call = call
  requests : v.requests = requests
  peeked : v.peeked = none
  reaped : x.2.reaped = v.reaped

namespace Serving
variable {rest : Multiset CallView} {call : ℕ} {requests : List UringIORequest} {v : CallView}
  {x x' : IOUring × RingLog} {c : LiburingChoice}

theorem getSqe {op : UringOp} {request : UringIORequest} {r : Bool} (h : Serving rest call requests v x)
    (hsize : (requests[v.prepared.length]?).map UringIORequest.size = some request.size)
    (hstep : flakyMachine.step (.getSqe call v.prepared.length op request) c x = some (r,x')) :
    (r = true ∧ Serving rest call requests (v.prepare op request) x' ∧
      x'.2.filled = x.2.filled + 1 ∧ x'.2.faults = x.2.faults) ∨
    (r = false ∧ Serving rest call requests v x' ∧
      x'.2.faults = if x.2.filled = 0 then x.2.faults ++ [.noEntry] else x.2.faults) := by
  obtain ⟨hnote,s,hpost,hop⟩ := flaky_inv hstep
  have hs := h.sharing.post hpost
  have hrefused : ∀ {t}, r = false → t = x'.1 → t = s →
      (r = false ∧ Serving rest call requests v x' ∧
        x'.2.faults = if x.2.filled = 0 then x.2.faults ++ [.noEntry] else x.2.faults) := by
    rintro t rfl rfl ht
    refine ⟨rfl,⟨by rwa [ht],h.alone,h.call,h.requests,h.peeked,?_⟩,?_⟩
    · rw [hnote, ← h.reaped, RingLog.note]
      split <;> rfl
    · rw [hnote, RingLog.note]
      split <;> rfl
  simp only [IOUring.flakyCall, IOUring.step] at hop
  split at hop
  · right
    cases hop
    exact hrefused rfl rfl rfl
  split at hop
  · left
    obtain ⟨rfl,ht⟩ := Prod.mk.inj (Option.some.inj hop)
    refine ⟨rfl,⟨?_,h.alone,h.call,h.requests,h.peeked,?_⟩,?_,?_⟩
    · rw [← ht, ← h.call]
      exact hs.prepare h.peeked op (by rwa [h.requests])
    · rw [hnote]
      exact h.reaped
    · rw [hnote]
      rfl
    · rw [hnote]
      rfl
  · right
    cases hop
    exact hrefused rfl rfl rfl

theorem submit {r : Except ℤ ℕ} (h : Serving rest call requests v x)
    (hstep : flakyMachine.step (.submit call) c x = some (r,x')) :
    Serving rest call requests v x' ∧ x'.2.filled = 0 ∧
      ((∃ e, r = .error e ∧ x'.2.faults = x.2.faults ++ [.submitFailed e]) ∨
        ∃ taken, r = .ok taken ∧ x'.2.faults = x.2.faults) := by
  obtain ⟨hnote,s,hpost,hop⟩ := flaky_inv hstep
  have hs := h.sharing.post hpost
  simp only [IOUring.flakyCall, IOUring.submitSome] at hop
  split at hop
  · next e _ =>
    obtain ⟨rfl,ht⟩ := Prod.mk.inj (Option.some.inj hop)
    refine ⟨⟨by rwa [← ht],h.alone,h.call,h.requests,h.peeked,?_⟩,?_,.inl ⟨e,rfl,?_⟩⟩
    all_goals rw [hnote]
    · exact h.reaped
    · rfl
    · rfl
  split at hop
  · obtain ⟨rfl,ht⟩ := Prod.mk.inj (Option.some.inj hop)
    refine ⟨⟨?_,h.alone,h.call,h.requests,h.peeked,?_⟩,?_,.inr ⟨_,rfl,?_⟩⟩
    · rw [← ht]
      exact hs.submitSome c.accepted
    all_goals rw [hnote]
    · exact h.reaped
    · rfl
    · rfl
  · cases hop

/-- Whatever is in the ring belongs to the call. -/
theorem own (h : Serving rest call requests v x) {sqe : Sqe} (hsqe : sqe ∈ x.1.held) : sqe ∈ v.inRing := by
  obtain ⟨u,hu,hin⟩ := h.sharing.owner hsqe
  rcases Multiset.mem_cons.mp hu with rfl | hu
  · exact hin
  · rw [h.alone u hu] at hin
    exact absurd hin (Multiset.notMem_zero sqe)

/-- A wait fails, or the completion that it gets is taken out by the next call. -/
theorem waitCqe {r : Option Cqe} (h : Serving rest call requests v x)
    (hstep : flakyMachine.step (.waitCqe call) c x = some (r,x')) : x'.2.filled = x.2.filled ∧
    ((r = none ∧ Serving rest call requests v x' ∧ x'.2.faults = x.2.faults ++ [.waitFailed]) ∨
      ∃ q, r = some q ∧ q.sqe ∈ v.inRing ∧ ∀ {c' : LiburingChoice} {r' x''},
        flakyMachine.step (.cqeSeen call) c' x' = some (r',x'') →
          Serving rest call requests (v.take q) x'' ∧ x''.2.filled = x.2.filled ∧
            x''.2.faults = x.2.faults) := by
  obtain ⟨hnote,s,hpost,hop⟩ := flaky_inv hstep
  have hs := h.sharing.post hpost
  simp only [IOUring.flakyCall, IOUring.step] at hop
  split at hop
  · rw [if_pos trivial] at hop
    obtain ⟨rfl,ht⟩ := Prod.mk.inj (Option.some.inj hop)
    refine ⟨by rw [hnote]; rfl,.inl ⟨rfl,⟨by rwa [← ht],h.alone,h.call,h.requests,h.peeked,?_⟩,?_⟩⟩
    all_goals rw [hnote]
    · exact h.reaped
    · rfl
  · obtain ⟨q,hq,he⟩ := Option.map_eq_some_iff.mp hop
    obtain ⟨rfl,rfl⟩ := Prod.mk.inj he
    have hposted : Serving rest call requests v (x'.1,x.2) := ⟨hs,h.alone,h.call,h.requests,h.peeked,h.reaped⟩
    have hin := hposted.own (hs.mem_held_of_front? hq)
    have hcall := (hs.fits v (Multiset.mem_cons_self _ _)).call q.sqe (CallView.mem_prepared_of_mem_inRing hin)
    refine ⟨by rw [hnote]; rfl,.inr ⟨q,rfl,hin,?_⟩⟩
    intro c' r' x'' hseen
    obtain ⟨hnote',s',hpost',hop'⟩ := flaky_inv hseen
    have ht : { s' with cq := s'.cq.advance } = x''.1 := (Prod.mk.inj (Option.some.inj hop')).2
    have htaken := ((hs.peek hq hcall).post hpost').take rfl
    refine ⟨⟨by rwa [← ht],h.alone,h.call,h.requests,rfl,?_⟩,?_,?_⟩
    all_goals rw [hnote', hnote]
    · exact congrArg (· ++ [q]) h.reaped
    · rfl
    · rfl

end Serving

abbrev unset (requests : List UringIORequest) : List UringIOResult :=
  List.replicate requests.length ⟨0,.OK⟩

structure ReapBalance (engine : IOUringEngine) (op : UringOp) (requests : List UringIORequest) (v : CallView)
    (due : ℕ) (faults : List RingFault) (results : List UringIOResult) : Prop where
  reaped_le : v.reaped.length ≤ due
  all_iff : faults = [] ↔ v.reaped.length = due
  length : results.length = requests.length
  untouched : ∀ i, v.prepared.length ≤ i → results[i]? = (unset requests)[i]?
  folded : faults = [] → results = v.reaped.foldl (engine.record op requests) (unset requests)

section
variable {engine : IOUringEngine} {op : UringOp} {requests : List UringIORequest} {v : CallView} {due : ℕ}
  {faults : List RingFault} {results : List UringIOResult}

/-- One that is not got. -/
theorem ReapBalance.miss (h : ReapBalance engine op requests v due faults results) (fault : RingFault) :
    ReapBalance engine op requests v (due + 1) (faults ++ [fault]) results where
  reaped_le := Nat.le_succ_of_le h.reaped_le
  all_iff := by
    have hle := h.reaped_le
    constructor
    · simp
    · omega
  length := h.length
  untouched := h.untouched
  folded := by simp

theorem ReapBalance.take (h : ReapBalance engine op requests v due faults results) {q : Cqe} (hfits : v.Fits)
    (hq : q.sqe ∈ v.prepared) : ReapBalance engine op requests (v.take q) (due + 1) faults
      (engine.record op requests results q) where
  reaped_le := by
    have hle := h.reaped_le
    simp only [CallView.take, List.length_append, List.length_singleton]
    omega
  all_iff := by
    rw [h.all_iff]
    simp only [CallView.take, List.length_append, List.length_singleton]
    omega
  length := by rw [IOUringEngine.record, List.length_set, h.length]
  untouched := by
    intro i hi
    have htag : q.sqe.userData < v.prepared.length := by
      rw [← List.mem_range, ← hfits.tags]
      exact List.mem_map_of_mem hq
    have hi' : v.prepared.length ≤ i := hi
    rw [IOUringEngine.record, List.getElem?_set_ne (by omega), h.untouched i hi']
  folded := by
    intro hnone
    simp only [CallView.take, List.foldl_append, List.foldl_cons, List.foldl_nil]
    rw [← h.folded hnone]

end

namespace IOUringEngine
variable {engine : IOUringEngine} {op : UringOp} {fd : ℤ} {requests : List UringIORequest} {call : ℕ}
  {rest : Multiset CallView} {v : CallView} {x : IOUring × RingLog} {results : List UringIOResult}

theorem wp_prepare (room : ℕ) (h : Serving rest call requests v x)
    (hidx : v.prepared.length ≤ requests.length) :
    wp flakyMachine (fun _ _ => True)
      (fun submitted y => ∃ v', Serving rest call requests v' y ∧ v'.reaped = v.reaped ∧
        v'.prepared.length = v.prepared.length + submitted ∧ v'.prepared.length ≤ requests.length ∧
        (0 < x.2.filled + submitted → y.2.faults = x.2.faults) ∧
        (0 < room → v.prepared.length < requests.length → x.2.filled + submitted = 0 → y.2.faults ≠ []))
      (prepare op fd requests call v.prepared.length room) x := by
  induction room generalizing v x with
  | zero => exact ⟨v,h,rfl,rfl,hidx,fun _ => rfl,by simp⟩
  | succ room ih =>
    unfold prepare
    split
    · next hnone =>
      have hle := List.getElem?_eq_none_iff.mp hnone
      exact ⟨v,h,rfl,rfl,hidx,fun _ => rfl,fun _ hlt => absurd hlt (by omega)⟩
    · next request hsome =>
      obtain ⟨hlt,-⟩ := List.getElem?_eq_some_iff.mp hsome
      apply wp_perform trivial
      intro c r y hstep
      rcases h.getSqe (by rw [hsome]; rfl) hstep with ⟨rfl,hmore,hfilled,hfaults⟩ | ⟨rfl,hsame,hfaults⟩
      · have hlength : ∀ request', (v.prepare op request').prepared.length = v.prepared.length + 1 := by
          simp [CallView.prepare]
        have hrest := ih hmore (by rw [hlength]; exact hlt)
        rw [hlength] at hrest
        apply wp_bind.mpr
        apply wp_mono hrest
        rintro more z ⟨v',hserving,hreaped,hprepared,hle,hclean,-⟩
        rw [hfilled, hfaults] at hclean
        refine ⟨v',hserving,hreaped,by omega,hle,fun _ => hclean (by omega),fun _ _ hzero => ?_⟩
        omega
      · refine ⟨v,hsame,rfl,rfl,hidx,fun hpos => ?_,fun _ _ hzero => ?_⟩
        · rw [hfaults, if_neg (by omega)]
        · rw [hfaults, if_pos (by omega)]
          simp

theorem wp_reap (n : ℕ) (h : Serving rest call requests v x) {due : ℕ}
    (hbalance : ReapBalance engine op requests v due x.2.faults results) :
    wp flakyMachine (fun _ _ => True)
      (fun results' y => ∃ v', Serving rest call requests v' y ∧ v'.prepared = v.prepared ∧
        y.2.filled = x.2.filled ∧ ReapBalance engine op requests v' (due + n) y.2.faults results')
      (reap engine op requests call n results) x := by
  induction n generalizing v x results due with
  | zero => exact ⟨v,h,rfl,rfl,hbalance⟩
  | succ n ih =>
    have hdue : due + (n + 1) = due + 1 + n := by omega
    rw [hdue]
    unfold reap
    apply wp_perform trivial
    intro c r y hstep
    obtain ⟨hfilled,⟨rfl,hsame,hfaults⟩ | ⟨q,rfl,hin,hseen⟩⟩ := h.waitCqe hstep
    · have hmiss := hbalance.miss .waitFailed
      rw [← hfaults] at hmiss
      rw [← hfilled]
      exact ih hsame hmiss
    · apply wp_perform trivial
      intro c' r' z hstep'
      obtain ⟨htaken,hfilled',hfaults⟩ := hseen hstep'
      have hfits := h.sharing.fits v (Multiset.mem_cons_self _ _)
      have htake := hbalance.take hfits (CallView.mem_prepared_of_mem_inRing hin)
      rw [← hfaults] at htake
      rw [← hfilled']
      exact ih htaken htake

/-- The requests of a submission that fails. -/
theorem reapBalance_submitFailed {due submitted : ℕ} {faults : List RingFault} (error : ℤ)
    {v' : CallView} (h : ReapBalance engine op requests v due faults results) (hreaped : v'.reaped = v.reaped)
    (hprepared : v'.prepared.length = v.prepared.length + submitted) (hpos : 0 < submitted) :
    ReapBalance engine op requests v' (due + submitted) (faults ++ [.submitFailed error])
      ((List.range' v.prepared.length submitted).foldl (engine.recordFailure error) results) where
  reaped_le := by
    rw [hreaped]
    exact h.reaped_le.trans (Nat.le_add_right _ _)
  all_iff := by
    have hle := h.reaped_le
    rw [hreaped]
    constructor
    · simp
    · omega
  length := (length_foldl_set id _ _ _).trans h.length
  untouched := by
    intro i hi
    have hnot : i ∉ (List.range' v.prepared.length submitted).map id := by
      rw [List.map_id, List.mem_range'_1]
      omega
    exact (getElem?_foldl_set_of_notMem id _ hnot _).trans (h.untouched i (by omega))
  folded := by simp

def Ends (engine : IOUringEngine) (op : UringOp) (requests : List UringIORequest) (v : CallView)
    (faults : List RingFault) (results : List UringIOResult) : Prop :=
  (v.prepared.length = requests.length ∧ ReapBalance engine op requests v v.prepared.length faults results) ∨
    (v.prepared.length < requests.length ∧ faults ≠ [] ∧
      results[v.prepared.length]? = (unset requests)[v.prepared.length]?)

theorem wp_subBatches (havailable : engine.available = true) (rounds : ℕ)
    (h : Serving rest call requests v x) (hfilled : x.2.filled = 0)
    (hbalance : ReapBalance engine op requests v v.prepared.length x.2.faults results)
    (hidx : v.prepared.length ≤ requests.length) (hrounds : requests.length ≤ v.prepared.length + rounds) :
    wp flakyMachine (fun _ _ => True)
      (fun results' y => ∃ v', Serving rest call requests v' y ∧ results'.length = requests.length ∧
        engine.Ends op requests v' y.2.faults results')
      (engine.subBatches op fd requests call rounds v.prepared.length results) x := by
  induction rounds generalizing v x results with
  | zero => exact ⟨v,h,hbalance.length,.inl ⟨by omega,hbalance⟩⟩
  | succ rounds ih =>
    have hdepth := engine.depth_pos havailable
    unfold subBatches
    split
    · exact ⟨v,h,hbalance.length,.inl ⟨by omega,hbalance⟩⟩
    apply wp_bind.mpr
    apply wp_mono (wp_prepare engine.queueDepth h hidx)
    rintro submitted y ⟨v₁,h₁,hreaped,hprepared,hle,hclean,hrefused⟩
    rw [hfilled, Nat.zero_add] at hclean hrefused
    split
    · next hzero =>
      subst hzero
      rw [Nat.add_zero] at hprepared
      refine ⟨v₁,h₁,hbalance.length,.inr ⟨by omega,hrefused hdepth (by omega) rfl,?_⟩⟩
      exact hbalance.untouched _ (by omega)
    · next hsome =>
      have hpos : 0 < submitted := by omega
      have hsame := hclean hpos
      apply wp_perform trivial
      intro c r z hstep
      obtain ⟨h₂,hfilled₂,⟨e,rfl,hfaults⟩ | ⟨taken,rfl,hfaults⟩⟩ := h₁.submit hstep
      · have hfailed := reapBalance_submitFailed e hbalance hreaped hprepared hpos
        rw [← hsame, ← hfaults, ← hprepared] at hfailed
        rw [← hprepared]
        exact ih h₂ hfilled₂ hfailed hle (by omega)
      · have hbalance₂ : ReapBalance engine op requests v₁ v.prepared.length z.2.faults results := by
          rw [hfaults, hsame]
          have hmore : ∀ i, v₁.prepared.length ≤ i → results[i]? = (unset requests)[i]? :=
            fun i hi => hbalance.untouched i (by omega)
          exact ⟨by rw [hreaped]; exact hbalance.reaped_le,by rw [hreaped]; exact hbalance.all_iff,
            hbalance.length,hmore,by rw [hreaped]; exact hbalance.folded⟩
        apply wp_bind.mpr
        apply wp_mono (wp_reap submitted h₂ hbalance₂)
        rintro results' u ⟨v₃,h₃,hprepared₃,hfilled₃,hbalance₃⟩
        have hlength : v.prepared.length + submitted = v₃.prepared.length := by
          rw [hprepared₃, hprepared]
        rw [hlength] at hbalance₃ ⊢
        exact ih h₃ (hfilled₃.trans hfilled₂) hbalance₃ (by omega) (by omega)

end IOUringEngine

/-- The engine accounts for a call: it reports OK only for requests whose completion in full it
has got, and leaves nothing of the call in the ring. -/
structure Honest (requests : List UringIORequest) (call : ℕ) (results : List UringIOResult)
    (y : IOUring × RingLog) : Prop where
  length : results.length = requests.length
  reaped : ∀ i (h : i < results.length), results[i].status.isOk = true →
    ∃ q ∈ y.2.reaped, q.sqe.call = call ∧ q.sqe.userData = i ∧
      ∃ request, requests[i]? = some request ∧ (request.size : ℤ) ≤ q.res
  nothingLeft : ∀ sqe ∈ y.1.held, sqe.call ≠ call

section
variable {engine : IOUringEngine} {op : UringOp} {fd : ℤ} {requests : List UringIORequest} {call : ℕ}
  {rest : Multiset CallView} {v : CallView} {x y : IOUring × RingLog} {results : List UringIOResult}

/-- What it has put in and not taken out. -/
theorem Serving.left_of_lt (h : Serving rest call requests v y)
    (hlt : v.reaped.length < v.prepared.length) : ∃ sqe ∈ y.1.held, sqe.call = call := by
  have hfits := h.sharing.fits v (Multiset.mem_cons_self _ _)
  have hcard : 0 < Multiset.card v.inRing := by
    have hsub := Multiset.card_sub hfits.reaped
    rw [CallView.inRing, hsub, Multiset.coe_card, Multiset.coe_card, List.length_map]
    omega
  obtain ⟨sqe,hsqe⟩ := Multiset.card_pos_iff_exists_mem.mp hcard
  refine ⟨sqe,?_,(hfits.call sqe (CallView.mem_prepared_of_mem_inRing hsqe)).trans h.call⟩
  rw [← Multiset.mem_coe, h.sharing.held, Multiset.cons_bind]
  exact Multiset.mem_add.mpr (.inl hsqe)

theorem Serving.held_eq_nil (h : Serving rest call requests v y)
    (hreaped : v.reaped.length = v.prepared.length) : y.1.held = [] := by
  apply List.eq_nil_iff_forall_not_mem.mpr
  intro sqe hsqe
  have hin := h.own hsqe
  rw [(h.sharing.fits v (Multiset.mem_cons_self _ _)).inRing_eq_zero hreaped] at hin
  exact Multiset.notMem_zero sqe hin

/-- A call that has got all that it put in. -/
theorem Serving.honest (h : Serving rest call requests v y) (hreturns : engine.Returns op v results) :
    Honest requests call results y := by
  have hv : v ∈ v ::ₘ rest := Multiset.mem_cons_self _ _
  have hfits := h.sharing.fits v hv
  have hreported := h.sharing.reported hreturns
  have hlength : results.length = requests.length := by
    have hsome := hreported.length
    rw [h.sharing.named v hv, h.requests] at hsome
    exact (Option.some.inj hsome).symm
  refine ⟨hlength,?_,by simp [h.held_eq_nil hreturns.1]⟩
  intro i hi hok
  obtain ⟨q,hq,htag,hsize⟩ :=
    (h.sharing.completes_iff hreturns.1 i).mp ((hreported.isOk i hi).mp hok)
  have hin := hfits.mem_prepared hq
  have hrequest := hfits.sizes q.sqe hin
  rw [htag, h.requests] at hrequest
  obtain ⟨request,hget,hsame⟩ := Option.map_eq_some_iff.mp hrequest
  refine ⟨q,?_,(hfits.call q.sqe hin).trans h.call,htag,request,hget,?_⟩
  · rwa [h.reaped]
  · rwa [hsame]

/-- Earlier calls have taken out all that they put in. -/
def IOUring.Idle (s : IOUring) : Prop := s.held = [] ∧ ∃ views, Sharing s views

theorem IOUring.idle_create (queueDepth : ℕ) : (IOUring.create queueDepth).Idle :=
  ⟨rfl,0,by simp,by simp,by simp,CircularBuffer.wf_create _ _,rfl,rfl,by simp⟩

/-- The end of a call decides. -/
theorem Serving.honest_iff (h : Serving rest call requests v y) (havailable : engine.available = true)
    (hlength : results.length = requests.length) (hends : engine.Ends op requests v y.2.faults results) :
    (Honest requests call results y ↔ y.2.faults = []) ∧ (y.2.faults = [] → y.1.Idle) := by
  rcases hends with ⟨hall,hbalance⟩ | ⟨hlt,hfaults,huntouched⟩
  · refine ⟨⟨?_,?_⟩,fun hnone => ⟨h.held_eq_nil (hbalance.all_iff.mp hnone),_,h.sharing⟩⟩
    · intro hhonest
      rw [hbalance.all_iff]
      by_contra hne
      have hle := hbalance.reaped_le
      obtain ⟨sqe,hsqe,hcall⟩ := h.left_of_lt (by omega)
      exact hhonest.nothingLeft sqe hsqe hcall
    · intro hnone
      have hreturns : engine.Returns op v results := by
        refine ⟨hbalance.all_iff.mp hnone,?_⟩
        rw [if_pos havailable, h.requests]
        exact ⟨hall,hbalance.folded hnone⟩
      exact h.honest hreturns
  · refine ⟨⟨fun hhonest => ?_,fun hnone => absurd hnone hfaults⟩,fun hnone => absurd hnone hfaults⟩
    -- the first request that got no entry is reported OK
    have hi : v.prepared.length < results.length := by omega
    have hok : results[v.prepared.length].status.isOk = true := by
      rw [List.getElem?_eq_getElem hi, List.getElem?_replicate_of_lt hlt] at huntouched
      rw [Option.some.inj huntouched]
      rfl
    obtain ⟨q,hq,-,htag,-⟩ := hhonest.reaped _ hi hok
    have hfits := h.sharing.fits v (Multiset.mem_cons_self _ _)
    rw [h.reaped] at hq
    have hmem : q.sqe.userData ∈ List.range v.prepared.length := by
      rw [← hfits.tags]
      exact List.mem_map_of_mem (hfits.mem_prepared hq)
    rw [htag, List.mem_range] at hmem
    exact absurd hmem (Nat.lt_irrefl _)

/-- A call and how it ends, from a ring in which earlier calls have left nothing. -/
theorem wp_batch_ends {s : IOUring} {views : Multiset CallView} (hheld : s.held = [])
    (hsharing : Sharing s views) :
    wp flakyMachine (fun _ _ => True)
      (fun r y => ∃ v, Serving views r.1 requests v y ∧
        if engine.available then r.2.length = requests.length ∧ engine.Ends op requests v y.2.faults r.2
        else engine.Returns op v r.2 ∧ y.2.faults = [])
      (engine.batch op fd requests) (s,{}) := by
  have hquiet : ∀ u ∈ views, u.inRing = 0 := by
    have hnone := hsharing.held
    rw [hheld] at hnone
    intro u hu
    apply Multiset.eq_zero_of_forall_notMem
    intro sqe hsqe
    have hmem : sqe ∈ views.bind CallView.inRing := Multiset.mem_bind.mpr ⟨u,hu,hsqe⟩
    rw [← hnone] at hmem
    exact Multiset.notMem_zero sqe hmem
  apply wp_perform trivial
  intro c call x hstep
  obtain ⟨hnote,s₁,hpost,hop⟩ := flaky_inv hstep
  obtain ⟨rfl,ht⟩ := Prod.mk.inj (Option.some.inj hop)
  have hserving : Serving views s₁.calls.length requests ⟨s₁.calls.length,requests,[],[],none⟩ x := by
    refine ⟨?_,hquiet,rfl,rfl,rfl,by rw [hnote]; rfl⟩
    rw [← ht]
    exact (hsharing.post hpost).enter requests
  have hclean : x.2 = {} := hnote
  cases havailable : engine.available with
  | false =>
    refine ⟨_,hserving,⟨rfl,?_⟩,by rw [hclean]⟩
    rw [havailable]
    exact ⟨rfl,rfl⟩
  | true =>
    have hbalance : ReapBalance engine op requests ⟨s₁.calls.length,requests,[],[],none⟩ 0 x.2.faults
        (unset requests) := by
      rw [hclean]
      exact ⟨le_rfl,by simp,List.length_replicate,fun _ _ => rfl,fun _ => rfl⟩
    have hfilled : x.2.filled = 0 := by rw [hclean]
    apply wp_bind.mpr
    exact wp_mono (IOUringEngine.wp_subBatches havailable requests.length hserving hfilled hbalance
      (Nat.zero_le _) (Nat.le_add_left _ _)) fun _ _ h => h

theorem wp_batch {s : IOUring} (hs : s.Idle) :
    wp flakyMachine (fun _ _ => True)
      (fun r y => (Honest requests r.1 r.2 y ↔ y.2.faults = []) ∧ (y.2.faults = [] → y.1.Idle))
      (engine.batch op fd requests) (s,{}) := by
  obtain ⟨hheld,views,hsharing⟩ := hs
  apply wp_mono (wp_batch_ends hheld hsharing)
  rintro ⟨call,results⟩ y ⟨v,hserving,hends⟩
  split at hends
  · next havailable => exact hserving.honest_iff havailable hends.1 hends.2
  · obtain ⟨hreturns,hfaults⟩ := hends
    exact ⟨iff_of_true (hserving.honest hreturns) hfaults,
      fun _ => ⟨hserving.held_eq_nil hreturns.1,_,hserving.sharing⟩⟩

/-- A call alone on an idle ring accounts for itself exactly if no sub-batch is refused its first
entry, and no submission and no wait fails; then the ring is idle again. -/
theorem honest_iff_no_fault {s : IOUring} (hs : s.Idle)
    (he : Exec flakyMachine (fun _ _ => True) (engine.batch op fd requests) (s,{}) (call,results) y) :
    (Honest requests call results y ↔ y.2.faults = []) ∧ (y.2.faults = [] → y.1.Idle) :=
  he.ends (wp_batch hs)

def readPage (choices : List LiburingChoice) : Option ((ℕ × List UringIOResult) × IOUring × RingLog) :=
  execWith flakyMachine (fun _ _ => true) (SharedRing.engine.batchRead (-1) [⟨0,4096,0,5⟩]) choices
    (.create 4,{})

/-- A page that is read. -/
theorem honest_iff_no_fault_page : ∃ y,
    Exec flakyMachine (fun _ _ => True) (SharedRing.engine.batch .read (-1) [⟨0,4096,0,5⟩]) (.create 4,{})
      (0,[⟨0,.OK⟩]) y ∧ (Honest [⟨0,4096,0,5⟩] 0 [⟨0,.OK⟩] y ↔ y.2.faults = []) ∧
        (y.2.faults = [] → y.1.Idle) := by
  have hrun : (readPage [{},{},{ accepted := 1 },{ posted := [(0,4096)] },{}]).map Prod.fst =
      some (0,[⟨0,.OK⟩]) := rfl
  obtain ⟨⟨r,y⟩,hexec,rfl⟩ := Option.map_eq_some_iff.mp hrun
  have he := (exec_of_execWith hexec).ok_mono fun _ _ _ => trivial
  exact ⟨y,he,honest_iff_no_fault (IOUring.idle_create 4) he⟩

/-- The wait for a page fails: it is reported OK, though nothing was read, and its completion comes
when the call has returned. -/
theorem exists_exec_not_honest : ∃ y,
    Exec flakyMachine (fun _ _ => True) (SharedRing.engine.batch .read (-1) [⟨0,4096,0,5⟩]) (.create 4,{})
      (0,[⟨0,.OK⟩]) y ∧ y.1.inFlight = [⟨0,0,.read,⟨0,4096,0,5⟩⟩] ∧
    ¬ Honest [⟨0,4096,0,5⟩] 0 [⟨0,.OK⟩] y := by
  have hrun : (readPage [{},{},{ accepted := 1 },{ error := some (-4) }]).map
      (fun x => (x.1,x.2.1.inFlight,x.2.2.reaped)) =
        some ((0,[⟨0,.OK⟩]),[⟨0,0,.read,⟨0,4096,0,5⟩⟩],[]) := rfl
  obtain ⟨⟨r,y⟩,hexec,hout⟩ := Option.map_eq_some_iff.mp hrun
  obtain ⟨rfl,hout⟩ := Prod.mk.inj hout
  obtain ⟨hflight,hreaped⟩ := Prod.mk.inj hout
  dsimp only at hflight hreaped
  refine ⟨y,(exec_of_execWith hexec).ok_mono fun _ _ _ => trivial,hflight,?_⟩
  intro hhonest
  obtain ⟨q,hq,-⟩ := hhonest.reaped 0 (by decide) rfl
  rw [hreaped] at hq
  cases hq

end

end FalconKV
