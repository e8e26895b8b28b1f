import Mathlib.Algebra.Order.Group.Multiset
import FalconKV.AtomicCalls.Discipline
import FalconKV.Scheduler.Proxy

/-! # What the threads of a proxy are in the middle of

The reconnect mutex is with one thread, a round of the probe is run by one thread, and a
thread that has stored BYPASS goes on to `StartReconnectProbe`. Each of these is a duty
that a call gives to its thread or takes from it.
-/
namespace FalconKV
open AtomicCalls

inductive ProxyDuty
  /-- BYPASS was stored, `reconnect_started_` not found set, and no thread started yet -/
  | unlooked
  /-- BYPASS was stored, and a probe was found or started -/
  | looked
  /-- the reconnect mutex -/
  | holding
  /-- the mutex, with `reconnect_started_` found clear -/
  | clear
  /-- the mutex, with `reconnect_started_` set and no thread started yet -/
  | marked
  /-- a round of the probe, before its probe has succeeded -/
  | probing
  | sawStopped
  /-- CONNECTED was stored by the probe, the mutex not taken yet -/
  | announced
  | told
  /-- the mutex, in the destructor -/
  | joining
  deriving DecidableEq

namespace ProxyDuty

def unlookedIf (afterBypass : Bool) : Multiset ProxyDuty := if afterBypass then {unlooked} else 0
def lookedIf (afterBypass : Bool) : Multiset ProxyDuty := if afterBypass then {looked} else 0

@[simp, grind =] theorem count_unlookedIf (d : ProxyDuty) (b : Bool) :
    (unlookedIf b).count d = if d = unlooked then b.toNat else 0 := by
  cases b <;> simp [unlookedIf, Multiset.count_singleton]

@[simp, grind =] theorem count_lookedIf (d : ProxyDuty) (b : Bool) :
    (lookedIf b).count d = if d = looked then b.toNat else 0 := by
  cases b <;> simp [lookedIf, Multiset.count_singleton]

@[simp] theorem mem_unlookedIf {d : ProxyDuty} {b : Bool} : d ∈ unlookedIf b ↔ b = true ∧ d = unlooked := by
  cases b <;> simp [unlookedIf]

@[simp] theorem mem_lookedIf {d : ProxyDuty} {b : Bool} : d ∈ lookedIf b ↔ b = true ∧ d = looked := by
  cases b <;> simp [lookedIf]

def rule : (op : ProxyCall) → op.Res → Multiset ProxyDuty → Multiset ProxyDuty → Prop
  | .storeState .bypass _, _, used, made => used = 0 ∧ made = {unlooked}
  | .storeState .connected true, _, used, made => used = {probing} ∧ made = {announced}
  | .loadStopped, r, used, made => used = 0 ∧ made = if r then {sawStopped} else 0
  | .lockReconnect (.starter _), _, used, made => used = 0 ∧ made = {holding}
  | .lockReconnect .probe, _, used, made => used = {announced} ∧ made = {holding} + {told}
  | .lockReconnect .destructor, _, used, made => used = 0 ∧ made = {holding} + {joining}
  | .unlockReconnect (.starter b), _, used, made => used = {holding} + lookedIf b ∧ made = 0
  | .unlockReconnect .probe, _, used, made => used = {holding} ∧ made = 0
  | .unlockReconnect .destructor, _, used, made => used = {holding} + {joining} ∧ made = 0
  | .loadStarted b, r, used, made =>
    if r then used = {holding} + unlookedIf b ∧ made = {holding} + lookedIf b
    else used = {holding} ∧ made = {clear}
  | .storeStarted true, _, used, made => used = {clear} ∧ made = {marked}
  | .storeStarted false, _, used, made => used = {holding} ∧ made = {holding}
  | .assignThread b, _, used, made => used = {marked} + unlookedIf b ∧ made = {holding} + lookedIf b
  | .beginRound, _, used, made => used = 0 ∧ made = {probing}
  | .endRound, _, used, made => used = {probing} ∧ made = 0
  | .endThread, _, used, made => (used = {told} ∨ used = {probing} + {sawStopped}) ∧ made = 0
  | .join, _, used, made => used = {holding} + {joining} ∧ made = {holding} + {joining}
  | _, _, used, made => used = 0 ∧ made = 0

end ProxyDuty

def proxyDuties : Discipline proxyCalls (Multiset ProxyDuty) := ⟨fun _ _ => True,ProxyDuty.rule⟩

namespace SchedulerProxy
open ProxyDuty

abbrev Does {α : Type} (p : ProxyProg α) (g : Multiset ProxyDuty) : Prop :=
  Uses proxyDuties (fun _ g' => g' = 0) p g

variable {cfg : ProxyConfig} {α β : Type} {post : β → Multiset ProxyDuty → Prop}

/-- A call that is no part of any duty. -/
theorem uses_plain {op : ProxyCall} {k : op.Res → ProxyProg β} {g : Multiset ProxyDuty}
    (hrule : ∀ r, rule op r 0 0) (h : ∀ r, Uses proxyDuties post (k r) g) :
    Uses proxyDuties post (invokeProxy op >>= k) g :=
  uses_idle hrule fun r _ => h r

/-- A call that takes all that is held. -/
theorem uses_change {op : ProxyCall} {k : op.Res → ProxyProg β} {g : Multiset ProxyDuty}
    (h : ∀ r, ∃ made, rule op r g made ∧ Uses proxyDuties post (k r) made) :
    Uses proxyDuties post (invokeProxy op >>= k) g := by
  refine uses_perform fun r _ => ?_
  obtain ⟨made,hrule,hk⟩ := h r
  exact ⟨g,made,0,hrule,(add_zero g).symm,by rwa [add_zero]⟩

/-- A call that adds to what is held. -/
theorem uses_gain {op : ProxyCall} {k : op.Res → ProxyProg β} {g : Multiset ProxyDuty}
    (made : Multiset ProxyDuty) (hrule : ∀ r, rule op r 0 made)
    (h : ∀ r, Uses proxyDuties post (k r) (made + g)) :
    Uses proxyDuties post (invokeProxy op >>= k) g :=
  uses_perform fun r _ => ⟨0,made,g,hrule r,(zero_add g).symm,h r⟩

theorem does_return : Does (pure () : ProxyProg Unit) 0 := rfl

theorem does_probeScheduler : Does probeScheduler 0 := by
  refine uses_plain (fun _ => ⟨rfl,rfl⟩) fun ok => ?_
  cases ok with
  | false => exact (rfl : (0 : Multiset ProxyDuty) = 0)
  | true => exact uses_plain (k := pure) (fun _ => ⟨rfl,rfl⟩) fun _ => rfl

theorem does_makeBypassResponse : Does makeBypassResponse 0 := by
  refine uses_plain (fun _ => ⟨rfl,rfl⟩) fun now => ?_
  exact uses_plain (fun _ => ⟨rfl,rfl⟩) fun _ => rfl

theorem does_startReconnectProbe (afterBypass : Bool) :
    Does (startReconnectProbe afterBypass) (unlookedIf afterBypass) := by
  refine uses_gain {holding} (fun _ => ⟨rfl,rfl⟩) fun _ => ?_
  refine uses_perform fun started _ => ?_
  cases started with
  | true =>
    refine ⟨_,{holding} + lookedIf afterBypass,0,⟨rfl,rfl⟩,(add_zero _).symm,?_⟩
    rw [add_zero]
    exact uses_change (k := pure) fun _ => ⟨0,⟨rfl,rfl⟩,rfl⟩
  | false =>
    refine ⟨{holding},{clear},_,⟨rfl,rfl⟩,rfl,?_⟩
    refine uses_perform fun _ _ => ⟨{clear},{marked},_,⟨rfl,rfl⟩,rfl,?_⟩
    refine uses_change fun _ => ⟨_,⟨rfl,rfl⟩,?_⟩
    exact uses_change (k := pure) fun _ => ⟨0,⟨rfl,rfl⟩,rfl⟩

theorem does_probeRound : Does probeRound 0 := by
  refine uses_change fun _ => ⟨_,⟨rfl,rfl⟩,?_⟩
  have hlook : ∀ k : Bool → ProxyProg Unit, Does (k true) ({sawStopped} + {probing}) →
      Does (k false) {probing} → Does (invokeProxy .loadStopped >>= k) {probing} := by
    intro k htrue hfalse
    refine uses_perform fun stopped _ => ?_
    cases stopped with
    | true => exact ⟨0,{sawStopped},{probing},⟨rfl,rfl⟩,rfl,htrue⟩
    | false => exact ⟨0,0,{probing},⟨rfl,rfl⟩,rfl,hfalse⟩
  have hend : ∀ g, (g = {told} ∨ g = {probing} + {sawStopped}) → Does (invokeProxy .endThread) g :=
    fun g hg => uses_change (k := pure) fun _ => ⟨0,⟨hg,rfl⟩,rfl⟩
  refine hlook _ (hend _ (.inr (add_comm _ _))) (hlook _ (hend _ (.inr (add_comm _ _))) ?_)
  refine uses_bind_frame (zero_add _).symm does_probeScheduler ?_
  rintro ok _ rfl
  rw [zero_add]
  cases ok with
  | false => exact uses_change (k := pure) fun _ => ⟨0,⟨rfl,rfl⟩,rfl⟩
  | true =>
    refine uses_change fun _ => ⟨{announced},⟨rfl,rfl⟩,?_⟩
    refine uses_plain (fun _ => ⟨rfl,rfl⟩) fun _ => ?_
    refine uses_change fun _ => ⟨{holding} + {told},⟨rfl,rfl⟩,?_⟩
    refine uses_perform fun _ _ => ⟨{holding},{holding},{told},⟨rfl,rfl⟩,rfl,?_⟩
    refine uses_perform fun _ _ => ⟨{holding},0,{told},⟨rfl,rfl⟩,rfl,?_⟩
    rw [zero_add]
    exact hend _ (.inl rfl)

theorem does_countFailure : Does (countFailure cfg) 0 := by
  refine uses_plain (fun _ => ⟨rfl,rfl⟩) fun failures => ?_
  split
  · exact uses_change fun _ => ⟨_,⟨rfl,rfl⟩,does_startReconnectProbe true⟩
  · exact does_return

theorem does_sendRequest (request : IORequestData) : Does (sendRequest cfg request) 0 := by
  refine uses_plain (fun _ => ⟨rfl,rfl⟩) fun stub => ?_
  cases stub with
  | false => exact uses_bind_keep (does_startReconnectProbe false) fun _ => does_makeBypassResponse
  | true =>
    refine uses_plain (fun _ => ⟨rfl,rfl⟩) fun resp => ?_
    cases resp with
    | none => exact uses_bind_keep does_countFailure fun _ => does_makeBypassResponse
    | some resp => exact uses_plain (fun _ => ⟨rfl,rfl⟩) fun _ => rfl

theorem does_requestIO (request : IORequestData) : Does ( requestIO cfg request) 0 := by
  refine uses_plain (fun _ => ⟨rfl,rfl⟩) fun s => ?_
  cases s with
  | bypass => exact does_makeBypassResponse
  | connected => exact does_sendRequest request
  | disconnected =>
    refine uses_bind_keep does_probeScheduler fun ok => ?_
    cases ok with
    | true => exact uses_plain (fun _ => ⟨rfl,rfl⟩) fun _ => does_sendRequest request
    | false =>
      exact uses_bind_keep (does_startReconnectProbe false) fun _ => does_makeBypassResponse

theorem does_reportIOCompletion (report : IOCompletionData) :
    Does (reportIOCompletion cfg report) 0 := by
  refine uses_plain (fun _ => ⟨rfl,rfl⟩) fun s => ?_
  split
  · exact does_return
  · refine uses_plain (fun _ => ⟨rfl,rfl⟩) fun stub => ?_
    split
    · exact does_return
    · refine uses_plain (fun _ => ⟨rfl,rfl⟩) fun ok => ?_
      split
      · exact uses_plain (k := pure) (fun _ => ⟨rfl,rfl⟩) fun _ => rfl
      · exact does_countFailure

theorem does_storeReportIOAsync (report : StoreIOReport) : Does (storeReportIOAsync report) 0 := by
  refine uses_plain (fun _ => ⟨rfl,rfl⟩) fun s => ?_
  split
  · exact does_return
  · refine uses_plain (fun _ => ⟨rfl,rfl⟩) fun stub => ?_
    split
    · exact does_return
    · exact uses_plain (fun _ => ⟨rfl,rfl⟩) fun _ => does_return

theorem does_construct : Does construct 0 := by
  refine uses_bind_keep does_probeScheduler fun ok => ?_
  cases ok with
  | true => exact uses_plain (k := pure) (fun _ => ⟨rfl,rfl⟩) fun _ => rfl
  | false => exact uses_change fun _ => ⟨_,⟨rfl,rfl⟩,does_startReconnectProbe true⟩

theorem does_destroy : Does destroy 0 := by
  refine uses_plain (fun _ => ⟨rfl,rfl⟩) fun _ => ?_
  refine uses_change fun _ => ⟨_,⟨rfl,rfl⟩,?_⟩
  refine uses_plain (fun _ => ⟨rfl,rfl⟩) fun joinable => ?_
  have hunlock : Does (invokeProxy (.unlockReconnect .destructor)) ({holding} + {joining}) :=
    uses_change (k := pure) fun _ => ⟨0,⟨rfl,rfl⟩,rfl⟩
  cases joinable with
  | false => exact hunlock
  | true => exact uses_change fun _ => ⟨_,⟨rfl,rfl⟩,hunlock⟩

theorem does_run (op : ProxyOp) : Does (op.run cfg) 0 := by
  cases op with
  | request data => exact uses_bind_keep ( does_requestIO data) fun _ => does_return
  | report data => exact does_reportIOCompletion data
  | storeReport data => exact does_storeReportIOAsync data
  | isBypassMode => exact uses_plain (fun _ => ⟨rfl,rfl⟩) fun _ => does_return
  | probeRound => exact does_probeRound
  | destroy => exact does_destroy

end SchedulerProxy

end FalconKV
