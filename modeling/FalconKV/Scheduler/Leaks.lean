import Mathlib.Tactic.Abel
import FalconKV.AtomicCalls.Discipline
import FalconKV.Scheduler.System

/-! # What is left behind at the scheduler

Every IO that an accumulator holds is owed a report by somebody: the handler that entered
it, the answer under way, the client that got the answer, or the report under way. A client
that gives up a call, or finds its proxy in bypass, drops its debt, and the IO stays.
-/
namespace FalconKV
open AtomicCalls

inductive Due
  /-- to enter the IO with this ticket -/
  | granted (t : ℕ)
  /-- to see to it that this ticket is reported -/
  | owing (t : ℕ)
  /-- to take the answer to a request -/
  | waiting
  /-- to answer a request -/
  | serving
  deriving DecidableEq

namespace Due

def owedTicket : Due → Option ℕ
  | owing t => some t
  | _ => none

def localPays : (op : ProxyCall) → op.Res → Multiset Due
  | .loadState (some t), s => if s = .bypass then {.owing t} else 0
  | .loadStub (some t), ok => if ok then 0 else {.owing t}
  | _, _ => 0

def localIncurs : (op : ProxyCall) → op.Res → Multiset Due
  | .nextBypassTicket, t => {.owing t}
  | _, _ => 0

def proxyPays : (op : ProxyCall) → op.Res → Multiset Due
  | .reportRpc report, _ => {.owing report.ticket}
  | op, r => localPays op r

def proxyIncurs : (op : ProxyCall) → op.Res → Multiset Due
  | .requestRpc _, some resp => {.owing resp.ticket}
  | op, r => localIncurs op r

def schedulerPays (A : Accumulator) (op : SchedulerCall) : Multiset Due :=
  match A.starts op, A.finishes op with
  | some io, _ => {.granted io.ticket}
  | none, some (t,false) => {.owing t}
  | none, _ => 0

def schedulerIncurs (A : Accumulator) : (op : SchedulerCall) → op.Res → Multiset Due
  | .decide _, resp => {.granted resp.ticket}
  | op, _ => match A.starts op with
    | some io => {.owing io.ticket}
    | none => 0

def pays (A : Accumulator) : (op : SystemCall) → op.Res → Multiset Due
  | .atScheduler op, _ => schedulerPays A op
  | .atProxy _ op, r => localPays op r
  | .send (.report report), (_,arrived) => if arrived then {.owing report.ticket} else 0
  | .awaitResponse .., some _ => {.waiting}
  | .callFailed _ (.request _) arrived, _ => if arrived then {.waiting} else 0
  | .callFailed _ (.report report) arrived, _ => if arrived then 0 else {.owing report.ticket}
  | .sendResponse _ response, _ => {.serving} + {.owing response.ticket}
  | _, _ => 0

def incurs (A : Accumulator) : (op : SystemCall) → op.Res → Multiset Due
  | .atScheduler op, r => schedulerIncurs A op r
  | .atProxy _ op, r => localIncurs op r
  | .send (.request _), (_,arrived) => if arrived then {.waiting} else 0
  | .awaitResponse .., some resp => {.owing resp.ticket}
  | .receive, (_,.request _) => {.serving}
  | .receive, (_,.report report) => {.owing report.ticket}
  | _, _ => 0

end Due

def dues (A : Accumulator) : Discipline systemCalls (Multiset Due) where
  guar
    | .awaitResponse _ arrived, r => arrived = false → r = none
    | .awaitAck _ arrived, r => arrived = false → r = false
    | _, _ => True
  rule := fun op r used made => used = Due.pays A op r ∧ made = Due.incurs A op r

def proxyDues : Discipline proxyCalls (Multiset Due) where
  guar := fun _ _ => True
  rule := fun op r used made => used = Due.proxyPays op r ∧ made = Due.proxyIncurs op r

def schedulerDues (A : Accumulator) : Discipline schedulerCalls (Multiset Due) where
  guar := fun _ _ => True
  rule := fun op r used made => used = Due.schedulerPays A op ∧ made = Due.schedulerIncurs A op r

def ProxyCall.Plain : ProxyCall → Prop
  | .requestRpc _ | .reportRpc _ | .nextBypassTicket | .loadState (some _) | .loadStub (some _) => False
  | _ => True

theorem proxyDues_plain (op : ProxyCall) (r : op.Res) (h : op.Plain) : proxyDues.rule op r 0 0 := by
  rcases op with (_ | t) | _ | _ | _ | _ | _ | (_ | t) | _ | _ | _ | _ | _ | _ | _ | _ | _ | _ | _ |
    _ | _ | _ | _ | _ | _
  all_goals first | exact ⟨rfl,rfl⟩ | cases h

namespace SchedulerProxy
open Prog

theorem makes_probeScheduler : probeScheduler.Makes ProxyCall.Plain := by
  apply makes_call_bind trivial
  rintro (_ | _)
  · trivial
  · exact makes_perform trivial

theorem makes_startReconnectProbe (afterBypass : Bool) :
    (startReconnectProbe afterBypass).Makes ProxyCall.Plain := by
  apply makes_call_bind trivial
  intro _
  apply makes_call_bind trivial
  rintro (_ | _)
  · apply makes_call_bind trivial
    intro _
    apply makes_call_bind trivial
    intro _
    exact makes_perform trivial
  · exact makes_perform trivial

theorem makes_countFailure (cfg : ProxyConfig) : (countFailure cfg).Makes ProxyCall.Plain := by
  apply makes_call_bind trivial
  intro failures
  split
  · apply makes_call_bind trivial
    intro _
    exact makes_startReconnectProbe true
  · trivial

theorem makes_probeRound : probeRound.Makes ProxyCall.Plain := by
  apply makes_call_bind trivial
  intro _
  apply makes_call_bind trivial
  rintro (_ | _)
  · apply makes_call_bind trivial
    rintro (_ | _)
    · apply makes_probeScheduler.bind
      rintro (_ | _)
      · exact makes_perform trivial
      · exact ⟨trivial,fun _ => ⟨trivial,fun _ => ⟨trivial,fun _ => ⟨trivial,fun _ => ⟨trivial,
          fun _ => ⟨trivial,fun _ => trivial⟩⟩⟩⟩⟩⟩
    · exact makes_perform trivial
  · exact makes_perform trivial

theorem makes_construct : construct.Makes ProxyCall.Plain := by
  apply makes_probeScheduler.bind
  rintro (_ | _)
  · apply makes_call_bind trivial
    intro _
    exact makes_startReconnectProbe true
  · exact makes_perform trivial

theorem makes_destroy : destroy.Makes ProxyCall.Plain := by
  apply makes_call_bind trivial
  intro _
  apply makes_call_bind trivial
  intro _
  apply makes_call_bind trivial
  rintro (_ | _)
  · exact makes_perform trivial
  · apply makes_call_bind trivial
    intro _
    exact makes_perform trivial

theorem makes_isBypassMode : isBypassMode.Makes ProxyCall.Plain :=
  makes_call_bind trivial fun _ => trivial

theorem makes_storeReportIOAsync (report : StoreIOReport) :
    (storeReportIOAsync report).Makes ProxyCall.Plain := by
  apply makes_call_bind trivial
  intro s
  split
  · trivial
  · apply makes_call_bind trivial
    rintro (_ | _)
    · trivial
    · exact makes_call_bind trivial fun _ => trivial

abbrev Owes (resp : IOResponseData) (g : Multiset Due) : Prop := g = {.owing resp.ticket}

theorem keepsDues_of_plain {α : Type} {p : ProxyProg α} {g : Multiset Due} (hp : p.Makes ProxyCall.Plain) :
    Uses proxyDues (fun _ g' => g' = g) p g := uses_of_makes hp proxyDues_plain

/-- What touches no ticket may go first. -/
theorem uses_after {α β : Type} {p : ProxyProg α} {f : α → ProxyProg β}
    {post : β → Multiset Due → Prop} {g : Multiset Due} (hp : p.Makes ProxyCall.Plain)
    (hf : ∀ a, Uses proxyDues post (f a) g) : Uses proxyDues post (p >>= f) g := by
  apply uses_bind (uses_mono (keepsDues_of_plain hp) _)
  rintro a _ rfl
  exact hf a

theorem uses_makeBypassResponse : Uses proxyDues Owes makeBypassResponse 0 := by
  refine uses_after (makes_perform trivial) ?_
  intro now
  refine uses_perform fun t _ => ⟨0,{.owing t},0,⟨rfl,rfl⟩,rfl,?_⟩
  rfl

theorem uses_sendRequest (cfg : ProxyConfig) (request : IORequestData) :
    Uses proxyDues Owes (sendRequest cfg request) 0 := by
  refine uses_after (makes_perform trivial) ?_
  rintro (_ | _)
  · exact uses_after (makes_startReconnectProbe false) fun _ => uses_makeBypassResponse
  · apply uses_perform
    rintro (_ | resp) -
    · refine ⟨0,0,0,⟨rfl,rfl⟩,rfl,?_⟩
      exact uses_after (makes_countFailure cfg) fun _ => uses_makeBypassResponse
    · refine ⟨0,{.owing resp.ticket},0,⟨rfl,rfl⟩,rfl,?_⟩
      exact uses_after (makes_perform trivial) fun _ => add_zero _

theorem uses_requestIO (cfg : ProxyConfig) (request : IORequestData) :
    Uses proxyDues Owes ( requestIO cfg request) 0 := by
  refine uses_after (makes_perform trivial) ?_
  rintro (_ | _ | _)
  · exact uses_sendRequest cfg request
  · apply uses_after makes_probeScheduler
    rintro (_ | _)
    · exact uses_after (makes_startReconnectProbe false) fun _ => uses_makeBypassResponse
    · exact uses_after (makes_perform trivial) fun _ => uses_sendRequest cfg request
  · exact uses_makeBypassResponse

/-- A report settles its ticket or drops it. -/
theorem uses_reportIOCompletion (cfg : ProxyConfig) (report : IOCompletionData) :
    Uses proxyDues (fun _ g => g = 0) (reportIOCompletion cfg report) {.owing report.ticket} := by
  apply uses_perform
  intro s _
  by_cases hs : s = .bypass
  · refine ⟨{.owing report.ticket},0,0,⟨(if_pos hs).symm,rfl⟩,rfl,?_⟩
    rw [if_pos hs]
    rfl
  · refine ⟨0,0,_,⟨(if_neg hs).symm,rfl⟩,(zero_add _).symm,?_⟩
    rw [if_neg hs, zero_add]
    apply uses_perform
    rintro (_ | _) -
    · exact ⟨{.owing report.ticket},0,0,⟨rfl,rfl⟩,rfl,rfl⟩
    · refine ⟨0,0,{.owing report.ticket},⟨rfl,rfl⟩,rfl,?_⟩
      apply uses_perform
      rintro (_ | _) -
      · exact ⟨{.owing report.ticket},0,0,⟨rfl,rfl⟩,rfl,keepsDues_of_plain (makes_countFailure cfg)⟩
      · exact ⟨{.owing report.ticket},0,0,⟨rfl,rfl⟩,rfl,keepsDues_of_plain (makes_perform trivial)⟩

end SchedulerProxy

namespace SchedulerSystem
open SchedulerProxy

variable {A : Accumulator} {α : Type} {post : α → Multiset Due → Prop} {g : Multiset Due}

theorem uses_requestRpc (i : ℕ) (request : IORequestData)
    {Q : Option IOResponseData → Multiset Due → Prop} (hnone : Q none g)
    (hsome : ∀ resp, Q (some resp) ({.owing resp.ticket} + g)) :
    Uses (dues A) Q (atProxy i (.requestRpc request)) g := by
  refine uses_perform ?_
  rintro ⟨id,_ | _⟩ -
  · refine ⟨0,0,g,⟨rfl,rfl⟩,(zero_add g).symm,?_⟩
    rw [zero_add]
    refine uses_perform fun resp hlost => ?_
    obtain rfl : resp = none := hlost rfl
    refine ⟨0,0,g,⟨rfl,rfl⟩,(zero_add g).symm,?_⟩
    rw [zero_add]
    exact uses_idle (fun _ => ⟨rfl,rfl⟩) fun _ _ => hnone
  · refine ⟨0,{.waiting},g,⟨rfl,rfl⟩,(zero_add g).symm,?_⟩
    refine uses_perform ?_
    rintro (_ | resp) -
    · refine ⟨0,0,{.waiting} + g,⟨rfl,rfl⟩,(zero_add _).symm,?_⟩
      rw [zero_add]
      refine uses_perform fun _ _ => ⟨{.waiting},0,g,⟨rfl,rfl⟩,rfl,?_⟩
      rw [zero_add]
      exact hnone
    · refine ⟨{.waiting},{.owing resp.ticket},g,⟨rfl,rfl⟩,rfl,?_⟩
      exact hsome resp

theorem uses_reportRpc (i : ℕ) (report : IOCompletionData) {Q : Bool → Multiset Due → Prop}
    (h : ∀ ok, Q ok g) :
    Uses (dues A) Q (atProxy i (.reportRpc report)) ({.owing report.ticket} + g) := by
  refine uses_perform ?_
  rintro ⟨id,_ | _⟩ -
  · refine ⟨0,0,_,⟨rfl,rfl⟩,(zero_add _).symm,?_⟩
    rw [zero_add]
    refine uses_perform fun ok hlost => ?_
    obtain rfl : ok = false := hlost rfl
    refine ⟨0,0,_,⟨rfl,rfl⟩,(zero_add _).symm,?_⟩
    rw [zero_add]
    refine uses_perform fun _ _ => ⟨{.owing report.ticket},0,g,⟨rfl,rfl⟩,rfl,?_⟩
    rw [zero_add]
    exact h false
  · refine ⟨{.owing report.ticket},0,g,⟨rfl,rfl⟩,rfl,?_⟩
    rw [zero_add]
    refine uses_idle (fun _ => ⟨rfl,rfl⟩) ?_
    rintro (_ | _) -
    · exact uses_idle (fun _ => ⟨rfl,rfl⟩) fun _ _ => h false
    · exact h true

/-- The report of a store carries no ticket of a client. -/
theorem uses_storeReportRpc (i : ℕ) (report : StoreIOReport) {Q : Bool → Multiset Due → Prop}
    (h : ∀ ok, Q ok g) : Uses (dues A) Q (atProxy i (.storeReportRpc report)) g := by
  refine uses_idle (fun _ => ⟨rfl,rfl⟩) ?_
  rintro ⟨id,arrived⟩ -
  refine uses_idle (fun _ => ⟨rfl,rfl⟩) ?_
  rintro (_ | _) -
  · exact uses_idle (fun _ => ⟨rfl,rfl⟩) fun _ _ => h false
  · exact h true

theorem uses_runProxy {i : ℕ} {p : ProxyProg α} (hp : Uses proxyDues post p g) :
    Uses (dues A) post (runProxy i p) g := by
  refine uses_interp ?_ hp
  intro op g Q hop
  cases op with
  | requestRpc request =>
    refine uses_requestRpc i request ?_ fun resp => ?_
    · obtain ⟨_,_,rest,⟨rfl,rfl⟩,rfl,hnone⟩ := hop none trivial
      exact hnone
    · obtain ⟨_,_,rest,⟨rfl,rfl⟩,hg,hsome⟩ := hop (some resp) trivial
      rw [hg.trans (zero_add rest)]
      exact hsome
  | reportRpc report =>
    obtain ⟨_,_,rest,⟨rfl,rfl⟩,rfl,htrue⟩ := hop true trivial
    refine uses_reportRpc i report fun ok => ?_
    obtain ⟨_,_,rest',⟨rfl,rfl⟩,heq,hok⟩ := hop ok trivial
    rw [add_left_cancel heq, ← zero_add rest']
    exact hok
  | storeReportRpc report =>
    refine uses_storeReportRpc i report fun ok => ?_
    obtain ⟨_,_,rest,⟨rfl,rfl⟩,rfl,hok⟩ := hop ok trivial
    exact hok
  | _ => exact hop

theorem uses_runScheduler {p : SchedulerProg α} (hp : Uses (schedulerDues A) post p g) :
    Uses (dues A) post (runScheduler p) g := by
  refine uses_interp ?_ hp
  intro op g Q hop
  exact hop

/-- A handler of a request enters the IO and leaves its ticket with the answer. -/
theorem uses_handleRequest (request : IORequestData) :
    Uses (schedulerDues A) Owes (SchedulerServiceImpl.requestIO request) 0 := by
  cases A with
  | ssd =>
    refine uses_perform fun resp _ => ⟨0,{.granted resp.ticket},0,⟨rfl,rfl⟩,rfl,?_⟩
    refine uses_perform fun _ _ => ⟨{.granted resp.ticket},{.owing resp.ticket},0,⟨rfl,rfl⟩,rfl,?_⟩
    refine uses_idle (fun _ => ⟨rfl,rfl⟩) fun _ _ => ?_
    exact uses_idle (fun _ => ⟨rfl,rfl⟩) fun _ _ => add_zero _
  | net =>
    refine uses_perform fun resp _ => ⟨0,{.granted resp.ticket},0,⟨rfl,rfl⟩,rfl,?_⟩
    refine uses_idle (fun _ => ⟨rfl,rfl⟩) fun _ _ => ?_
    refine uses_perform fun _ _ => ⟨{.granted resp.ticket},{.owing resp.ticket},0,⟨rfl,rfl⟩,rfl,?_⟩
    exact uses_idle (fun _ => ⟨rfl,rfl⟩) fun _ _ => add_zero _

theorem uses_handleReport (report : IOCompletionData) :
    Uses (schedulerDues A) (fun _ g => g = 0) (SchedulerOp.run (.report report))
      {.owing report.ticket} := by
  cases A with
  | ssd =>
    refine uses_idle (fun _ => ⟨rfl,rfl⟩) fun _ _ => ?_
    refine uses_perform fun _ _ => ⟨{.owing report.ticket},0,0,⟨rfl,rfl⟩,rfl,?_⟩
    refine uses_idle (fun _ => ⟨rfl,rfl⟩) fun _ _ => ?_
    exact uses_idle (k := pure) (fun _ => ⟨rfl,rfl⟩) fun _ _ => rfl
  | net =>
    refine uses_idle (fun _ => ⟨rfl,rfl⟩) fun _ _ => ?_
    refine uses_idle (fun _ => ⟨rfl,rfl⟩) fun _ _ => ?_
    refine uses_perform fun _ _ => ⟨{.owing report.ticket},0,0,⟨rfl,rfl⟩,rfl,?_⟩
    exact uses_idle (k := pure) (fun _ => ⟨rfl,rfl⟩) fun _ _ => rfl

theorem uses_handleStoreReport (report : StoreIOReport) :
    Uses (schedulerDues A) (fun _ g => g = 0) (SchedulerOp.run (.storeReport report)) 0 := by
  cases A <;>
  · refine uses_idle (fun _ => ⟨rfl,rfl⟩) fun _ _ => ?_
    exact uses_idle (k := pure) (fun _ => ⟨rfl,rfl⟩) fun _ _ => rfl

theorem uses_serve : Uses (dues A) (fun _ g => g = 0) serve 0 := by
  refine uses_perform ?_
  rintro ⟨id,request | report | report⟩ -
  · refine ⟨0,{.serving},0,⟨rfl,rfl⟩,rfl,?_⟩
    refine uses_bind_frame (add_comm ({.serving} : Multiset Due) 0) (uses_runScheduler (uses_handleRequest request)) ?_
    rintro resp _ rfl
    refine uses_perform fun _ _ => ⟨_,0,0,⟨rfl,rfl⟩,?_,rfl⟩
    rw [add_zero, add_comm]
    rfl
  · refine ⟨0,{.owing report.ticket},0,⟨rfl,rfl⟩,rfl,?_⟩
    refine uses_bind (uses_mono (uses_runScheduler (uses_handleReport report)) ?_)
    rintro _ _ rfl
    exact uses_idle (k := pure) (fun _ => ⟨rfl,rfl⟩) fun _ _ => rfl
  · refine ⟨0,0,0,⟨rfl,rfl⟩,rfl,?_⟩
    refine uses_bind (uses_mono (uses_runScheduler (uses_handleStoreReport report)) ?_)
    rintro _ _ rfl
    exact uses_idle (k := pure) (fun _ => ⟨rfl,rfl⟩) fun _ _ => rfl

/-- Both halves of a pair. -/
theorem uses_pair (cfg : ProxyConfig) (request : IORequestData) (report : IOCompletionData) :
    Uses proxyDues (fun _ g => g = 0) (pair cfg request report) 0 := by
  refine uses_bind (uses_mono ( uses_requestIO cfg request) ?_)
  rintro resp _ rfl
  exact uses_reportIOCompletion cfg _

theorem uses_systemOp (cfg : ProxyConfig) (op : SystemOp) :
    Uses (dues A) (fun _ g => g = 0) (op.run cfg) 0 := by
  cases op with
  | serve => exact uses_serve
  | construct i => exact uses_runProxy (keepsDues_of_plain makes_construct)
  | pair i request report => exact uses_runProxy (uses_pair cfg request report)
  | storeReport i report => exact uses_runProxy (keepsDues_of_plain (makes_storeReportIOAsync report))
  | isBypassMode i => exact uses_runProxy (uses_after makes_isBypassMode fun _ => rfl)
  | probeRound i => exact uses_runProxy (keepsDues_of_plain makes_probeRound)
  | destroy i => exact uses_runProxy (keepsDues_of_plain makes_destroy)

end SchedulerSystem

def SchedulerOp.carries : SchedulerOp → Multiset Due
  | request _ => {.serving}
  | report data => {.owing data.ticket}
  | storeReport _ => 0

def IOResponseData.carries (response : IOResponseData) : Multiset Due :=
  {.serving} + {.owing response.ticket}

def owed (all : Multiset Due) : Multiset ℕ := all.filterMap Due.owedTicket

def Accumulator.tickets (A : Accumulator) (s : FalconKVScheduler) : Multiset ℕ :=
  ((A.active s).map ActiveIO.ticket : List ℕ)

namespace SchedulerSystem

def underway (x : SchedulerSystem) : Multiset Due :=
  (x.requests.map fun m => m.2.carries).sum + (x.responses.map fun y => y.2.carries).sum

def holds (x : SchedulerSystem) (t : ℕ) : Bool :=
  (x.scheduler.ssdActive.any fun io => io.ticket == t) ||
    x.scheduler.netActive.any fun io => io.ticket == t

/-- The call gives up no request that arrived, and no report of an IO that is still held. -/
def abandonsNothing (x : SchedulerSystem) : SystemCall → Bool
  | .callFailed _ (.request _) arrived => !arrived
  | .callFailed _ (.report report) arrived => arrived || !x.holds report.ticket
  | .atProxy i (.loadState (some t)) => (x.proxy i).state != .bypass || !x.holds t
  | .atProxy i (.loadStub (some t)) => (x.proxy i).stub || !x.holds t
  | _ => true

end SchedulerSystem

structure AccountedFor (A : Accumulator) (s : FalconKVScheduler) (all : Multiset Due) : Prop where
  active : A.tickets s ≤ owed all
  waits : all.count .serving ≤ all.count .waiting

section
variable {A : Accumulator} {s : FalconKVScheduler} {x : SchedulerSystem} {rest : Multiset Due} {t : ℕ}

theorem owed_add (all all' : Multiset Due) : owed (all + all') = owed all + owed all' :=
  Multiset.filterMap_add _ all all'
@[simp] theorem owed_granted : owed {.granted t} = 0 := rfl
@[simp] theorem owed_owing : owed {.owing t} = {t} := rfl
@[simp] theorem owed_waiting : owed {.waiting} = 0 := rfl
@[simp] theorem owed_serving : owed {.serving} = 0 := rfl

namespace Accumulator

theorem schedulerDues_start {op : SchedulerCall} {io : ActiveIO} (r : op.Res)
    (h : A.starts op = some io) :
    Due.schedulerPays A op = {.granted io.ticket} ∧ Due.schedulerIncurs A op r = {.owing io.ticket} := by
  cases A <;> cases op <;> cases h <;> exact ⟨rfl,rfl⟩

theorem schedulerDues_finish {op : SchedulerCall} {fromStore : Bool} (r : op.Res)
    (h : A.finishes op = some (t,fromStore)) :
    Due.schedulerPays A op = (if fromStore then 0 else {.owing t}) ∧
      Due.schedulerIncurs A op r = 0 := by
  cases A <;> cases op <;> cases h <;> cases fromStore <;> exact ⟨rfl,rfl⟩

/-- A call that does not concern the accumulator makes at most a grant. -/
theorem schedulerDues_keep {op : SchedulerCall} (r : op.Res) (hstart : A.starts op = none)
    (hfinish : A.finishes op = none) : Due.schedulerPays A op = 0 ∧
      (Due.schedulerIncurs A op r = 0 ∨ ∃ t, Due.schedulerIncurs A op r = {.granted t}) := by
  cases op with
  | decide request => exact ⟨by cases A <;> rfl,.inr ⟨_,rfl⟩⟩
  | respond | receiveReport | acknowledge => exact ⟨by cases A <;> rfl,.inl (by cases A <;> rfl)⟩
  | ssdStart | netStart | ssdDone | netDone =>
    cases A <;> first | exact ⟨rfl,.inl rfl⟩ | (cases hstart; done) | cases hfinish

theorem not_mem_tickets (h : (!x.holds t) = true) : t ∉ A.tickets x.scheduler := by
  rw [Bool.not_eq_true', SchedulerSystem.holds, Bool.or_eq_false_iff] at h
  intro hin
  obtain ⟨io,hio,rfl⟩ := List.mem_map.mp (Multiset.mem_coe.mp hin)
  cases A with
  | ssd => simpa using List.any_eq_false.mp h.1 io hio
  | net => simpa using List.any_eq_false.mp h.2 io hio

end Accumulator

namespace AccountedFor
open Accumulator

/-- A debt for an IO that is not held can be dropped. -/
theorem drop (h : AccountedFor A s ({.owing t} + rest)) (hfree : t ∉ A.tickets s) : AccountedFor A s rest where
  active := by
    have hle := h.active
    rwa [owed_add, owed_owing, Multiset.singleton_add, Multiset.le_cons_of_notMem hfree] at hle
  waits := by simpa using h.waits

theorem incur (t : ℕ) (h : AccountedFor A s rest) : AccountedFor A s ({.owing t} + rest) where
  active := by
    rw [owed_add]
    exact h.active.trans (Multiset.le_add_left _ _)
  waits := by simpa using h.waits

/-- A question and somebody who waits for the answer come together, and go together. -/
theorem ask (h : AccountedFor A s rest) : AccountedFor A s ({.waiting} + ({.serving} + rest)) where
  active := by
    rw [owed_add, owed_add, owed_waiting, owed_serving, zero_add, zero_add]
    exact h.active
  waits := by simpa using h.waits

theorem answer (h : AccountedFor A s ({.waiting} + ({.serving} + rest))) : AccountedFor A s rest where
  active := by
    have hle := h.active
    rwa [owed_add, owed_add, owed_waiting, owed_serving, zero_add, zero_add] at hle
  waits := by simpa using h.waits

theorem start {io : ActiveIO} {s' : FalconKVScheduler} (h : AccountedFor A s ({.granted io.ticket} + rest))
    (hs : A.active s' = pushActive (A.tracks io.channel) io (A.active s)) :
    AccountedFor A s' ({.owing io.ticket} + rest) where
  active := by
    have hle := h.active
    rw [owed_add, owed_granted, zero_add] at hle
    rw [owed_add, owed_owing, tickets, hs, map_ticket_pushActive, ← Multiset.coe_add, add_comm]
    apply add_le_add _ hle
    split
    · exact le_rfl
    · exact Multiset.zero_le _
  waits := by simpa using h.waits

theorem finish {s' : FalconKVScheduler} (h : AccountedFor A s ({.owing t} + rest))
    (hs : A.active s' = eraseActive t (A.active s)) : AccountedFor A s' rest where
  active := by
    have hle := h.active
    rw [owed_add, owed_owing, Multiset.singleton_add] at hle
    rw [tickets, hs, map_ticket_eraseActive, ← Multiset.coe_erase, Multiset.erase_le_iff_le_cons]
    exact hle
  waits := by simpa using h.waits

/-- What a store reports has nobody who owes it, and may only go. -/
theorem finish_unowed {s' : FalconKVScheduler} (h : AccountedFor A s rest)
    (hs : A.active s' = eraseActive t (A.active s)) : AccountedFor A s' rest where
  active := by
    rw [tickets, hs, map_ticket_eraseActive, ← Multiset.coe_erase]
    exact (Multiset.erase_le t _).trans h.active
  waits := h.waits

theorem keep {s' : FalconKVScheduler} (h : AccountedFor A s rest) (hs : A.active s' = A.active s) :
    AccountedFor A s' rest where
  active := by
    rw [tickets, hs]
    exact h.active
  waits := h.waits

theorem grant (t : ℕ) (h : AccountedFor A s rest) : AccountedFor A s ({.granted t} + rest) where
  active := by
    rw [owed_add, owed_granted, zero_add]
    exact h.active
  waits := by simpa using h.waits

theorem atScheduler {op : SchedulerCall} {now : ℕ} {r : op.Res} {s' : FalconKVScheduler}
    (hs : s.step op now = some (r,s')) (h : AccountedFor A s (Due.schedulerPays A op + rest)) :
    AccountedFor A s' (Due.schedulerIncurs A op r + rest) := by
  cases active_step (A := A) hs with
  | start io hop hact =>
    obtain ⟨hpays,hincurs⟩ := schedulerDues_start r hop
    rw [hpays] at h
    rw [hincurs]
    exact h.start hact
  | finish t fromStore hop hact =>
    obtain ⟨hpays,hincurs⟩ := schedulerDues_finish r hop
    rw [hpays] at h
    rw [hincurs, zero_add]
    cases fromStore with
    | false => exact h.finish hact
    | true =>
      rw [if_pos rfl, zero_add] at h
      exact h.finish_unowed hact
  | keep hstart hfinish hact =>
    obtain ⟨hpays,hincurs⟩ := schedulerDues_keep r hstart hfinish
    rw [hpays, zero_add] at h
    rcases hincurs with hincurs | ⟨t,hincurs⟩
    · rw [hincurs, zero_add]
      exact h.keep hact
    · rw [hincurs]
      exact (h.keep hact).grant t

theorem atProxy {i : ℕ} {op : ProxyCall} {c : ProxyChoice} {r : op.Res} {p' : SchedulerProxy}
    (hok : x.abandonsNothing (.atProxy i op) = true) (hs : (x.proxy i).step op c = some (r,p'))
    (h : AccountedFor A x.scheduler (Due.localPays op r + rest)) :
    AccountedFor A x.scheduler (Due.localIncurs op r + rest) := by
  unfold SchedulerProxy.step at hs
  split at hs
  · cases hs
  cases op with
  | loadState reporting =>
    cases reporting with
    | none => exact h
    | some t =>
      cases hs
      rw [show Due.localIncurs (.loadState (some t)) (x.proxy i).state = 0 from rfl, zero_add]
      simp only [Due.localPays] at h
      split at h
      · next hb =>
        simp only [SchedulerSystem.abandonsNothing, hb, bne_self_eq_false, Bool.false_or] at hok
        exact h.drop (not_mem_tickets hok)
      · rwa [zero_add] at h
  | loadStub reporting =>
    cases reporting with
    | none => exact h
    | some t =>
      cases hs
      rw [show Due.localIncurs (.loadStub (some t)) (x.proxy i).stub = 0 from rfl, zero_add]
      simp only [Due.localPays] at h
      split at h
      · rwa [zero_add] at h
      · next hb =>
        simp only [SchedulerSystem.abandonsNothing, hb, Bool.false_or] at hok
        exact h.drop (not_mem_tickets hok)
  | nextBypassTicket =>
    cases hs
    have hrest : AccountedFor A x.scheduler (0 + rest) := h
    rw [zero_add] at hrest
    exact hrest.incur _
  | _ => exact h

end AccountedFor

namespace SchedulerSystem

theorem sum_map_eraseIdx {α : Type} {xs : List α} {i : ℕ} {y : α} (f : α → Multiset Due)
    (h : xs[i]? = some y) : f y + ((xs.eraseIdx i).map f).sum = (xs.map f).sum := by
  obtain ⟨hlt,rfl⟩ := List.getElem?_eq_some_iff.mp h
  have hperm := ((List.getElem_cons_eraseIdx_perm hlt).map f).sum_eq
  rwa [List.map_cons, List.sum_cons] at hperm

theorem sum_map_snoc {α : Type} (f : α → Multiset Due) (xs : List α) (y : α) :
    ((xs ++ [y]).map f).sum = (xs.map f).sum + f y := by
  rw [List.map_append, List.sum_append, List.map_singleton, List.sum_singleton]

variable {message : SchedulerOp} {arrived : Bool} {id : ℕ} {response : IOResponseData}

theorem underway_send (n : ℕ) : underway { x with
    nextCall := n, requests := x.requests ++ [(id,message)] } = message.carries + x.underway := by
  rw [underway, sum_map_snoc, add_comm _ message.carries, add_assoc]
  rfl

theorem underway_sendResponse : underway { x with responses := x.responses ++ [(id,response)] } =
    response.carries + x.underway := by
  rw [underway, sum_map_snoc, add_comm _ response.carries, add_left_comm]
  rfl

theorem underway_receive {i : ℕ} {m : ℕ × SchedulerOp} (h : x.requests[i]? = some m) :
    x.underway = m.2.carries + underway { x with requests := x.requests.eraseIdx i } := by
  rw [underway, ← sum_map_eraseIdx _ h, add_assoc]
  rfl

theorem underway_awaitResponse {y : ℕ × IOResponseData} (h : y ∈ x.responses) :
    x.underway = y.2.carries + underway { x with responses := x.responses.erase y } := by
  have hsum := ((List.perm_cons_erase h).map fun y => y.2.carries).sum_eq
  rw [underway, hsum, List.map_cons, List.sum_cons, add_left_comm]
  rfl

end SchedulerSystem

namespace AccountedFor
open SchedulerSystem

variable {message : SchedulerOp} {arrived : Bool} {id : ℕ} {response : IOResponseData}

theorem send (n : ℕ)
    (h : AccountedFor A s (Due.pays A (.send message) (id,arrived) + (rest + x.underway))) :
    AccountedFor A s (Due.incurs A (.send message) (id,arrived) + (rest + underway { x with
      nextCall := n
      requests := if arrived then x.requests ++ [(id,message)] else x.requests })) := by
  cases arrived with
  | false => cases message <;> exact h
  | true =>
    rw [if_pos rfl, underway_send, add_left_comm rest]
    cases message with
    | request data =>
      have hrest : AccountedFor A s (0 + (rest + x.underway)) := h
      rw [zero_add] at hrest
      exact hrest.ask
    | report data =>
      have hgoal : AccountedFor A s (0 + ({.owing data.ticket} + (rest + x.underway))) := by
        rw [zero_add]
        exact h
      exact hgoal
    | storeReport data =>
      have hgoal : AccountedFor A s (0 + (0 + (rest + x.underway))) := by
        rw [zero_add]
        exact h
      exact hgoal

theorem awaitResponse {y : ℕ × IOResponseData} (hy : y ∈ x.responses)
    (h : AccountedFor A s ({.waiting} + (rest + x.underway))) : AccountedFor A s ({.owing y.2.ticket} +
      (rest + underway { x with responses := x.responses.erase y })) := by
  rw [underway_awaitResponse hy, IOResponseData.carries, add_left_comm rest, add_assoc] at h
  rw [← add_left_comm, ← add_left_comm]
  exact h.answer

theorem callFailed (hok : x.abandonsNothing (.callFailed id message arrived) = true)
    (h : AccountedFor A x.scheduler (Due.pays A (.callFailed id message arrived) () + rest)) :
    AccountedFor A x.scheduler (0 + rest) := by
  rw [zero_add]
  have hzero : ∀ {all : Multiset Due}, AccountedFor A x.scheduler (0 + all) → AccountedFor A x.scheduler all := by
    intro all hall
    rwa [zero_add] at hall
  cases message with
  | request data =>
    cases arrived with
    | false => exact hzero h
    | true => cases hok
  | report data =>
    cases arrived with
    | false => exact h.drop (Accumulator.not_mem_tickets hok)
    | true => exact hzero h
  | storeReport data => exact hzero h

theorem receive {i : ℕ} {m : ℕ × SchedulerOp} (hm : x.requests[i]? = some m)
    (h : AccountedFor A s (0 + (rest + x.underway))) : AccountedFor A s (Due.incurs A .receive m +
      (rest + underway { x with requests := x.requests.eraseIdx i })) := by
  have hincurs : Due.incurs A .receive m = m.2.carries := by
    obtain ⟨id,request | report | report⟩ := m <;> rfl
  rw [underway_receive hm, zero_add, add_left_comm] at h
  rwa [hincurs]

theorem sendResponse (h : AccountedFor A s (response.carries + (rest + x.underway))) :
    AccountedFor A s (0 + (rest + underway { x with responses := x.responses ++ [(id,response)] })) := by
  rw [underway_sendResponse, zero_add, add_left_comm]
  exact h

end AccountedFor

theorem keeps_accountedFor (A : Accumulator) : Keeps systemMachine (dues A)
    (fun x op => x.abandonsNothing op = true) fun _ x held => AccountedFor A x.scheduler (held + x.underway) where
  guar := by
    intro _ x op c r x' held _ _ hs
    cases op with
    | awaitResponse id arrived =>
      rintro rfl
      cases hs
      rfl
    | awaitAck id arrived =>
      rintro rfl
      cases hs
      rfl
    | _ => trivial
  step := by
    rintro _ _ x op c r x' _ _ rest h hok hs ⟨rfl,rfl⟩
    rw [add_assoc] at h ⊢
    cases op with
    | atScheduler op =>
      obtain ⟨y,hy,he⟩ := Option.map_eq_some_iff.mp hs
      obtain ⟨rfl,rfl⟩ := Prod.mk.inj he
      exact h.atScheduler hy
    | atProxy i op =>
      obtain ⟨y,hy,he⟩ := Option.map_eq_some_iff.mp hs
      obtain ⟨rfl,rfl⟩ := Prod.mk.inj he
      have hx := AccountedFor.atProxy hok hy h
      exact hx
    | send message =>
      cases hs
      exact h.send _
    | awaitResponse id arrived =>
      simp only [systemMachine, SchedulerSystem.step] at hs
      split at hs
      · obtain ⟨y,hy,he⟩ := Option.map_eq_some_iff.mp hs
        obtain ⟨rfl,rfl⟩ := Prod.mk.inj he
        exact h.awaitResponse (List.mem_of_find?_eq_some hy)
      · cases hs
        exact h
    | awaitAck id arrived =>
      simp only [systemMachine, SchedulerSystem.step] at hs
      split at hs
      · split at hs <;> cases hs
        exact h
      · cases hs
        exact h
    | callFailed id message arrived =>
      cases hs
      exact h.callFailed hok
    | receive =>
      obtain ⟨m,hm,he⟩ := Option.map_eq_some_iff.mp hs
      obtain ⟨rfl,rfl⟩ := Prod.mk.inj he
      exact h.receive hm
    | sendResponse id response =>
      cases hs
      exact h.sendResponse
    | sendAck id =>
      cases hs
      exact h

theorem count_waiting_underway (x : SchedulerSystem) : x.underway.count .waiting = 0 := by
  have hmessage : ∀ m : SchedulerOp, m.carries.count .waiting = 0 := by
    rintro (data | data | data) <;> simp [SchedulerOp.carries]
  have hanswer : ∀ y : IOResponseData, y.carries.count .waiting = 0 := by
    intro y
    simp [IOResponseData.carries]
  rw [SchedulerSystem.underway, Multiset.count_add, Nat.add_eq_zero_iff]
  constructor
  · induction x.requests with
    | nil => rfl
    | cons m requests ih => simp [Multiset.count_add, hmessage, ih]
  · induction x.responses with
    | nil => rfl
    | cons y responses ih => simp [Multiset.count_add, hanswer, ih]

theorem length_le_count_serving (x : SchedulerSystem) :
    x.responses.length ≤ x.underway.count .serving := by
  have hanswer : ∀ y : IOResponseData, y.carries.count .serving = 1 := by
    intro y
    simp [IOResponseData.carries]
  have hlength : ∀ responses : List (ℕ × IOResponseData),
      (responses.map fun y : ℕ × IOResponseData => y.2.carries).sum.count .serving = responses.length := by
    intro responses
    induction responses with
    | nil => rfl
    | cons y responses ih => simp [Multiset.count_add, hanswer, ih, Nat.add_comm]
  rw [SchedulerSystem.underway, Multiset.count_add, hlength]
  exact Nat.le_add_left _ _

theorem AccountedFor.idle (h : AccountedFor A x.scheduler x.underway) (hrequests : x.requests = []) :
    A.active x.scheduler = [] := by
  have hwaits := h.waits
  rw [count_waiting_underway] at hwaits
  have hlength := length_le_count_serving x
  have hresponses : x.responses = [] := List.eq_nil_of_length_eq_zero (by omega)
  have hnothing : x.underway = 0 := by
    rw [SchedulerSystem.underway, hrequests, hresponses]
    rfl
  have hle := h.active
  rw [hnothing] at hle
  have hempty : A.tickets x.scheduler = 0 := Multiset.le_zero.mp hle
  exact List.map_eq_nil_iff.mp ((Multiset.coe_eq_zero _).mp hempty)

end

/-- In every run in which no client gives up a request that arrived, or the report of an IO
that is still held, nothing is active once no call is under way. -/
theorem idle_of_abandonsNothing {cfg : ProxyConfig} {tr : List (Event systemCalls SchedulerSystem)}
    {P : Pool systemCalls SchedulerSystem Unit}
    (hrun : SystemRun cfg (fun x op => x.abandonsNothing op = true) tr P)
    (hquiet : SchedulerSystem.Quiet P) : P.state.Idle := by
  have hidle : ∀ A : Accumulator, A.active P.state.scheduler = [] := by
    intro A
    have hinit : AccountedFor A FalconKVScheduler.create 0 := by
      cases A <;> exact ⟨le_rfl,le_rfl⟩
    obtain ⟨gs,hgs,h⟩ := hrun.shares (keeps_accountedFor A)
      (fun p hp => by obtain ⟨op,rfl⟩ := hp; exact SchedulerSystem.uses_systemOp cfg op) ⟨[],.nil,hinit⟩
    rw [hquiet.1.sum_eq_zero hgs, zero_add] at h
    exact h.idle hquiet.2
  exact ⟨hidle .ssd,hidle .net⟩

namespace Leaks

def cfg : ProxyConfig := ⟨3⟩

def localRead : IORequestData := ⟨7,0,1,4096,0,0,""⟩
def localReadDone : IOCompletionData := ⟨7,0,0,5,4096,0,0,1,""⟩

def programs : List SystemOp := [.construct 0,.pair 0 localRead localReadDone,.serve,.serve]

/-- Whose turn it is, and whether what was asked comes through. -/
theorem systemRun_of_schedule (check : SchedulerSystem → SystemCall → Bool)
    (turns : List (ℕ × Bool)) {γ : Type}
    {f : List (Event systemCalls SchedulerSystem) × Pool systemCalls SchedulerSystem Unit → γ} {v : γ}
    (h : (Pool.follow (M := systemMachine) check
      (turns.map fun t => (t.1,({ succeeds := t.2 } : SystemChoice)))
      ⟨.create,programs.map (SystemOp.run cfg)⟩).map f = some v) :
    ∃ tr P, SystemRun cfg (fun x op => check x op = true) tr P ∧ f (tr,P) = v := by
  refine run_of_schedule _ ?_ h
  intro p hp
  obtain ⟨op,-,rfl⟩ := List.mem_map.mp hp
  exact ⟨op,rfl⟩

def outcome (P : Pool systemCalls SchedulerSystem Unit) :
    List (Option Unit) × List (ℕ × SchedulerOp) × ℕ × List ℕ :=
  (P.replies,P.state.requests,P.state.scheduler.ticketCounter,
    P.state.scheduler.ssdActive.map ActiveIO.ticket)

theorem quiet_of_outcome {P : Pool systemCalls SchedulerSystem Unit} {n : ℕ} {tickets : List ℕ}
    (h : outcome P = ([some (),some (),some (),some ()],[],n,tickets)) :
    SchedulerSystem.Quiet P ∧ P.state.scheduler.ticketCounter = n ∧
      P.state.scheduler.ssdActive.map ActiveIO.ticket = tickets := by
  obtain ⟨hreplies,hrest⟩ := Prod.mk.inj h
  obtain ⟨hrequests,hrest⟩ := Prod.mk.inj hrest
  obtain ⟨hcounter,htickets⟩ := Prod.mk.inj hrest
  refine ⟨⟨?_,hrequests⟩,hcounter,htickets⟩
  intro r hr
  rw [hreplies] at hr
  simp only [List.mem_cons, List.not_mem_nil, or_false, or_self] at hr
  rw [hr]
  rfl

def turns (thread count : ℕ) : List (ℕ × Bool) := List.replicate count (thread,true)

end Leaks

open Leaks

/-- The answer comes, and its ticket is reported. -/
theorem idle_of_abandonsNothing_pair : ∃ tr P,
    SystemRun Leaks.cfg (fun x op => x.abandonsNothing op = true) tr P ∧ SchedulerSystem.Quiet P ∧
      P.state.scheduler.ticketCounter = 1 ∧ P.state.Idle := by
  obtain ⟨tr,P,hrun,hP⟩ := systemRun_of_schedule SchedulerSystem.abandonsNothing
    (turns 0 3 ++ turns 1 3 ++ turns 2 6 ++ turns 1 5 ++ turns 3 6 ++ turns 1 2)
    (f := fun y => outcome y.2) (v := ([some (),some (),some (),some ()],[],1,[])) rfl
  obtain ⟨hquiet,hcounter,-⟩ := quiet_of_outcome hP
  exact ⟨tr,P,hrun,hquiet,hcounter,idle_of_abandonsNothing hrun hquiet⟩

/-- The request is admitted, the answer is lost, and the client reports a ticket of its own. -/
theorem exists_run_not_idle : ∃ tr P, SystemRun Leaks.cfg (fun _ _ => True) tr P ∧
    SchedulerSystem.Quiet P ∧ ¬ P.state.Idle := by
  obtain ⟨tr,P,hrun,hP⟩ := systemRun_of_schedule (fun _ _ => true)
    (turns 0 3 ++ turns 1 3 ++ turns 2 6 ++ [(1,false)] ++ turns 1 7 ++ turns 3 6 ++ turns 1 2)
    (f := fun y => outcome y.2) (v := ([some (),some (),some (),some ()],[],1,[0])) rfl
  obtain ⟨hquiet,-,htickets⟩ := quiet_of_outcome hP
  refine ⟨tr,P,hrun.ok_mono fun _ _ _ => trivial,hquiet,fun hidle => ?_⟩
  rw [hidle.1] at htickets
  cases htickets

end FalconKV
