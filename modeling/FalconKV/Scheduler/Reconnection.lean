import FalconKV.Scheduler.ProbeDuties

/-! # Losing the scheduler and finding it again

Beside the proxy runs a record of who is between two of its steps. Three things are asked
of a proxy: that it survives the next loss of the scheduler, that somebody looks for the
scheduler while its state is BYPASS, and that its destructor returns. Each fails in one
order of steps only, and holds in every run without it.
-/
namespace FalconKV
open AtomicCalls

structure ProxyRecord where
  /-- threads between their store of BYPASS and the end of their `StartReconnectProbe` -/
  starting : ℕ
  /-- probes between their store of CONNECTED and the lock of the mutex -/
  announcing : ℕ
  /-- destructors that have the mutex -/
  joining : ℕ
  /-- the thread that was started last has stored CONNECTED -/
  found : Bool
  /-- a probe has reset `reconnect_started_`, and its thread was not joined -/
  recovered : Bool
  deriving DecidableEq

namespace ProxyRecord

def empty : ProxyRecord := ⟨0,0,0,false,false⟩

def note : (op : ProxyCall) → op.Res → SchedulerProxy → ProxyRecord → ProxyRecord
  | .storeState .bypass _, _, _, x => { x with starting := x.starting + 1 }
  | .storeState .connected true, _, _, x => { x with announcing := x.announcing + 1, found := true }
  | .lockReconnect .probe, _, _, x => { x with announcing := x.announcing - 1 }
  | .lockReconnect .destructor, _, _, x => { x with joining := x.joining + 1 }
  | .unlockReconnect (.starter true), _, _, x => { x with starting := x.starting - 1 }
  | .unlockReconnect .destructor, _, _, x => { x with joining := x.joining - 1 }
  | .storeStarted false, _, _, x => { x with recovered := true }
  | .assignThread _, _, s, x => { x with found := s.reconnectThread.joinable && x.found }
  | .join, _, _, x => { x with recovered := false }
  | _, _, _, x => x

end ProxyRecord

abbrev ProxyState := SchedulerProxy × ProxyRecord

def proxyRecorded : Machine proxyCalls ProxyState := proxyMachine.withRecord ProxyRecord.note

/-- A proxy from its construction on, with any number of calls, rounds of its probe and
the destructor, interleaved. -/
abbrev ProxyRun (cfg : ProxyConfig) (ok : ProxyState → ProxyCall → Prop) :
    List (Event proxyCalls ProxyState) → Pool proxyCalls ProxyState Unit → Prop :=
  Run proxyRecorded (fun p => ∃ op : ProxyOp, p = op.run cfg) ok
    ⟨(SchedulerProxy.initial,.empty),[SchedulerProxy.construct]⟩

namespace ProxyState

def firstOutage (x : ProxyState) : ProxyCall → Bool
  | .loadStarted _ => x.1.reconnectStarted || !x.2.recovered
  | _ => true

def Searching (x : ProxyState) : Prop :=
  x.1.reconnectThread = .atLoop ∨ (x.1.reconnectThread = .inRound ∧ x.2.found = false)

/-- Who comes to start a probe after its store of BYPASS does not find the flag of a thread
that has stored CONNECTED before. -/
def probeExpected (x : ProxyState) : ProxyCall → Bool
  | .loadStarted true =>
    !(x.1.reconnectStarted && x.2.found && x.1.state == .bypass && !x.1.stopped)
  | _ => true

/-- While a started proxy is in BYPASS, somebody looks for the scheduler, unless a thread
that has stored BYPASS still comes to start a probe. -/
def BypassAttended (x : ProxyState) : Prop :=
  x.1.state = .bypass → x.1.stopped = false → x.1.terminated = false → x.2.starting = 0 → x.Searching

/-- No probe succeeds while a destructor has the mutex, and no destructor takes it between
the success of a probe and its own lock. -/
def joinsIdle (x : ProxyState) : ProxyCall → Bool
  | .storeState .connected true => x.2.joining == 0
  | .lockReconnect .destructor => x.2.announcing == 0
  | _ => true

end ProxyState

/-- The destructor waits for the thread, and the thread for the mutex that the destructor has. -/
def ProxyDeadlock (P : Pool proxyCalls ProxyState Unit) : Prop :=
  P.state.1.mutexHeld = true ∧ P.state.1.reconnectThread ≠ .finished ∧
    .join ∈ P.pending ∧ .lockReconnect .probe ∈ P.pending

open ProxyState

open ProxyDuty in
inductive ProxyTurn (x : ProxyState) :
    ProxyCall → ProxyState → Multiset ProxyDuty → Multiset ProxyDuty → Prop
  | fallBack (b : Bool) : ProxyTurn x (.storeState .bypass b)
      ({ x.1 with state := .bypass },{ x.2 with starting := x.2.starting + 1 }) 0 {unlooked}
  | announce : ProxyTurn x (.storeState .connected true)
      ({ x.1 with state := .connected },
        { x.2 with announcing := x.2.announcing + 1, found := true }) {probing} {announced}
  | storeState (value : SchedulerProxy.State) (b : Bool) (hvalue : value ≠ .bypass)
      (hb : value ≠ .connected ∨ b = false) :
      ProxyTurn x (.storeState value b) ({ x.1 with state := value },x.2) 0 0
  | seeStopped (hstopped : x.1.stopped = true) : ProxyTurn x .loadStopped x 0 {sawStopped}
  | stop : ProxyTurn x .storeStopped ({ x.1 with stopped := true },x.2) 0 0
  | lockStarter (b : Bool) (hfree : x.1.mutexHeld = false) :
      ProxyTurn x (.lockReconnect (.starter b)) ({ x.1 with mutexHeld := true },x.2) 0 {holding}
  | lockProbe (hfree : x.1.mutexHeld = false) : ProxyTurn x (.lockReconnect .probe)
      ({ x.1 with mutexHeld := true },{ x.2 with announcing := x.2.announcing - 1 })
      {announced} ({holding} + {told})
  | lockDestructor (hfree : x.1.mutexHeld = false) : ProxyTurn x (.lockReconnect .destructor)
      ({ x.1 with mutexHeld := true },{ x.2 with joining := x.2.joining + 1 })
      0 ({holding} + {joining})
  | unlock : ProxyTurn x (.unlockReconnect (.starter false)) ({ x.1 with mutexHeld := false },x.2)
      {holding} 0
  | unlockLooked : ProxyTurn x (.unlockReconnect (.starter true))
      ({ x.1 with mutexHeld := false },{ x.2 with starting := x.2.starting - 1 })
      ({holding} + {looked}) 0
  | unlockProbe : ProxyTurn x (.unlockReconnect .probe) ({ x.1 with mutexHeld := false },x.2)
      {holding} 0
  | unlockDestructor : ProxyTurn x (.unlockReconnect .destructor)
      ({ x.1 with mutexHeld := false },{ x.2 with joining := x.2.joining - 1 })
      ({holding} + {joining}) 0
  | findStarted (b : Bool) (hstarted : x.1.reconnectStarted = true) :
      ProxyTurn x (.loadStarted b) x ({holding} + unlookedIf b) ({holding} + lookedIf b)
  | findClear (b : Bool) (hstarted : x.1.reconnectStarted = false) :
      ProxyTurn x (.loadStarted b) x {holding} {clear}
  | mark : ProxyTurn x (.storeStarted true) ({ x.1 with reconnectStarted := true },x.2)
      {clear} {marked}
  | reset : ProxyTurn x (.storeStarted false)
      ({ x.1 with reconnectStarted := false },{ x.2 with recovered := true }) {holding} {holding}
  | terminate (b : Bool) (hjoinable : x.1.reconnectThread.joinable = true) :
      ProxyTurn x (.assignThread b) ({ x.1 with terminated := true },x.2)
        ({marked} + unlookedIf b) ({holding} + lookedIf b)
  | assign (b : Bool) (hjoinable : x.1.reconnectThread.joinable = false) :
      ProxyTurn x (.assignThread b)
        ({ x.1 with reconnectThread := .atLoop },{ x.2 with found := false })
        ({marked} + unlookedIf b) ({holding} + lookedIf b)
  | beginRound (hthread : x.1.reconnectThread = .atLoop) :
      ProxyTurn x .beginRound ({ x.1 with reconnectThread := .inRound },x.2) 0 {probing}
  | endRound : ProxyTurn x .endRound ({ x.1 with reconnectThread := .atLoop },x.2) {probing} 0
  | endThread (used : Multiset ProxyDuty) (hused : used = {told} ∨ used = {probing} + {sawStopped}) :
      ProxyTurn x .endThread ({ x.1 with reconnectThread := .finished },x.2) used 0
  | join (hthread : x.1.reconnectThread = .finished) : ProxyTurn x .join
      ({ x.1 with reconnectThread := .none },{ x.2 with recovered := false })
      ({holding} + {joining}) ({holding} + {joining})
  | other (op : ProxyCall) (failures : ℤ) (stub : Bool) (tickets : ℕ) :
      ProxyTurn x op ({ x.1 with consecutiveFailures := failures, stub := stub, bypassTickets := tickets },
        x.2) 0 0

section
variable {x x' : ProxyState} {op : ProxyCall} {c : ProxyChoice} {r : op.Res}
  {used made rest held : Multiset ProxyDuty}

theorem proxyTurn_storeState {value : SchedulerProxy.State} {b : Bool}
    (hr : ProxyDuty.rule (.storeState value b) () used made) :
    ProxyTurn x (.storeState value b)
      ({ x.1 with state := value },ProxyRecord.note (.storeState value b) () x.1 x.2) used made := by
  cases value with
  | bypass =>
    obtain ⟨rfl,rfl⟩ := hr
    exact .fallBack b
  | disconnected =>
    obtain ⟨rfl,rfl⟩ := hr
    exact .storeState _ b (by decide) (.inl (by decide))
  | connected =>
    cases b with
    | true =>
      obtain ⟨rfl,rfl⟩ := hr
      exact .announce
    | false =>
      obtain ⟨rfl,rfl⟩ := hr
      exact .storeState _ _ (by decide) (.inr rfl)

theorem proxyTurn_lockReconnect {site : LockSite} (hfree : x.1.mutexHeld = false)
    (hr : ProxyDuty.rule (.lockReconnect site) () used made) :
    ProxyTurn x (.lockReconnect site)
      ({ x.1 with mutexHeld := true },ProxyRecord.note (.lockReconnect site) () x.1 x.2) used made := by
  cases site with
  | starter b =>
    obtain ⟨rfl,rfl⟩ := hr
    exact .lockStarter b hfree
  | probe =>
    obtain ⟨rfl,rfl⟩ := hr
    exact .lockProbe hfree
  | destructor =>
    obtain ⟨rfl,rfl⟩ := hr
    exact .lockDestructor hfree

theorem proxyTurn_unlockReconnect {site : LockSite}
    (hr : ProxyDuty.rule (.unlockReconnect site) () used made) :
    ProxyTurn x (.unlockReconnect site)
      ({ x.1 with mutexHeld := false },ProxyRecord.note (.unlockReconnect site) () x.1 x.2) used made := by
  cases site with
  | starter b =>
    cases b with
    | true =>
      obtain ⟨rfl,rfl⟩ := hr
      exact .unlockLooked
    | false =>
      obtain ⟨rfl,rfl⟩ := hr
      exact .unlock
  | probe =>
    obtain ⟨rfl,rfl⟩ := hr
    exact .unlockProbe
  | destructor =>
    obtain ⟨rfl,rfl⟩ := hr
    exact .unlockDestructor

theorem proxyTurn_loadStarted {b : Bool}
    (hr : ProxyDuty.rule (.loadStarted b) x.1.reconnectStarted used made) :
    ProxyTurn x (.loadStarted b) (x.1,ProxyRecord.note (.loadStarted b) x.1.reconnectStarted x.1 x.2)
      used made := by
  by_cases hstarted : x.1.reconnectStarted = true
  · simp only [ProxyDuty.rule, if_pos hstarted] at hr
    obtain ⟨rfl,rfl⟩ := hr
    exact .findStarted b hstarted
  · simp only [ProxyDuty.rule, if_neg hstarted] at hr
    obtain ⟨rfl,rfl⟩ := hr
    exact .findClear b (by simpa using hstarted)

/-- The assignment ends the process if the old thread was not joined. -/
theorem proxyTurn_assignThread {b : Bool} {s : SchedulerProxy}
    (hstep : (if x.1.reconnectThread.joinable then some ((),{ x.1 with terminated := true })
      else some ((),{ x.1 with reconnectThread := .atLoop })) = some ((),s))
    (hr : ProxyDuty.rule (.assignThread b) () used made) :
    ProxyTurn x (.assignThread b) (s,ProxyRecord.note (.assignThread b) () x.1 x.2) used made := by
  obtain ⟨rfl,rfl⟩ := hr
  split at hstep
  · next hjoinable =>
    cases hstep
    have hkept : ProxyRecord.note (.assignThread b) () x.1 x.2 = x.2 := by
      simp [ProxyRecord.note, hjoinable]
    rw [hkept]
    exact .terminate b hjoinable
  · next hjoinable =>
    cases hstep
    have hfree : x.1.reconnectThread.joinable = false := by simpa using hjoinable
    have hkept : ProxyRecord.note (.assignThread b) () x.1 x.2 = { x.2 with found := false } := by
      simp [ProxyRecord.note, hfree]
    rw [hkept]
    exact .assign b hfree

theorem proxyTurn_of_step (hs : proxyRecorded.step op c x = some (r,x'))
    (hr : ProxyDuty.rule op r used made) :
    x.1.terminated = false ∧ ProxyTurn x op x' used made := by
  obtain ⟨hstep,hnote⟩ := Machine.withRecord_step hs
  obtain ⟨s',record'⟩ := x'
  have hnote : record' = ProxyRecord.note op r x.1 x.2 := hnote
  have hstep : SchedulerProxy.step op c x.1 = some (r,s') := hstep
  rw [hnote]
  unfold SchedulerProxy.step at hstep
  split at hstep
  · cases hstep
  next hlive =>
  refine ⟨by simpa using hlive,?_⟩
  cases op with
  | storeState value b =>
    cases hstep
    exact proxyTurn_storeState hr
  | loadStopped =>
    cases hstep
    obtain ⟨rfl,rfl⟩ := hr
    split
    · next hstopped => exact .seeStopped hstopped
    · exact .other ..
  | storeStopped =>
    cases hstep
    obtain ⟨rfl,rfl⟩ := hr
    exact .stop
  | lockReconnect site =>
    by_cases hheld : x.1.mutexHeld = true
    · simp only [if_pos hheld] at hstep
      cases hstep
    · simp only [if_neg hheld] at hstep
      cases hstep
      exact proxyTurn_lockReconnect (by simpa using hheld) hr
  | unlockReconnect site =>
    cases hstep
    exact proxyTurn_unlockReconnect hr
  | loadStarted b =>
    cases hstep
    exact proxyTurn_loadStarted hr
  | storeStarted value =>
    cases hstep
    cases value with
    | true =>
      obtain ⟨rfl,rfl⟩ := hr
      exact .mark
    | false =>
      obtain ⟨rfl,rfl⟩ := hr
      exact .reset
  | assignThread b => exact proxyTurn_assignThread hstep hr
  | beginRound =>
    obtain ⟨rfl,rfl⟩ := hr
    by_cases hthread : x.1.reconnectThread = .atLoop
    · simp only [if_pos hthread] at hstep
      cases hstep
      exact .beginRound hthread
    · simp only [if_neg hthread] at hstep
      cases hstep
  | endRound =>
    cases hstep
    obtain ⟨rfl,rfl⟩ := hr
    exact .endRound
  | endThread =>
    cases hstep
    obtain ⟨hused,rfl⟩ := hr
    exact .endThread used hused
  | join =>
    obtain ⟨rfl,rfl⟩ := hr
    by_cases hthread : x.1.reconnectThread = .finished
    · simp only [if_pos hthread] at hstep
      cases hstep
      exact .join hthread
    · simp only [if_neg hthread] at hstep
      cases hstep
  | _ =>
    cases hstep
    obtain ⟨rfl,rfl⟩ := hr
    exact .other ..

open ProxyDuty

structure Guarded (s : SchedulerProxy) (held : Multiset ProxyDuty) : Prop where
  mutex : held.count .holding + held.count .clear + held.count .marked = s.mutexHeld.toNat
  round : held.count .probing + held.count .announced + held.count .told =
    if s.reconnectThread = .inRound then 1 else 0

namespace Guarded
variable {s : SchedulerProxy} {d : ProxyDuty}

theorem turn (h : Guarded x.1 (used + rest)) (ht : ProxyTurn x op x' used made) :
    Guarded x'.1 (made + rest) := by
  obtain ⟨hmutex,hround⟩ := h
  have hheld := x.1.mutexHeld.toNat_le
  simp only [Multiset.count_add] at hmutex hround
  cases ht with
  | endThread _ hused =>
    rcases hused with rfl | rfl <;> constructor <;>
      grind [Multiset.count_add, Multiset.count_singleton, Multiset.count_zero]
  | _ => constructor <;> grind [Multiset.count_add, Multiset.count_singleton, Multiset.count_zero,
      SchedulerProxy.ReconnectThread.joinable]

/-- Who has the mutex has it alone. -/
theorem alone (h : Guarded s (used + rest)) (hd : d ∈ used) (hmutex : d = holding ∨ d = clear ∨ d = marked) :
    holding ∉ rest ∧ clear ∉ rest ∧ marked ∉ rest := by
  have hsum := h.mutex
  have hheld := s.mutexHeld.toNat_le
  have hpos : 0 < used.count d := Multiset.count_pos.mpr hd
  simp only [Multiset.count_add] at hsum
  simp only [← Multiset.count_eq_zero]
  rcases hmutex with rfl | rfl | rfl <;> omega

theorem inRound (h : Guarded s held) (hd : probing ∈ held ∨ announced ∈ held ∨ told ∈ held) :
    s.reconnectThread = .inRound := by
  have hsum := h.round
  simp only [← Multiset.count_pos] at hd
  split at hsum
  · next hthread => exact hthread
  · omega

/-- A round is run alone. -/
theorem oneRound (h : Guarded s (used + rest)) (hd : d ∈ used)
    (hround : d = probing ∨ d = announced ∨ d = told) :
    probing ∉ rest ∧ announced ∉ rest ∧ told ∉ rest := by
  have hsum := h.round
  have hpos : 0 < used.count d := Multiset.count_pos.mpr hd
  simp only [Multiset.count_add] at hsum
  simp only [← Multiset.count_eq_zero]
  split at hsum <;> rcases hround with rfl | rfl | rfl <;> omega

end Guarded

/-- A thread object that is joinable is guarded by `reconnect_started_` until a probe
resets it; nobody who is about to assign it finds it joinable. -/
structure Survives (x : ProxyState) (held : Multiset ProxyDuty) : Prop where
  guarded : Guarded x.1 held
  recovered : x.1.reconnectThread.joinable = true →
    x.1.reconnectStarted = true ∨ x.2.recovered = true
  clear : clear ∈ held → x.1.reconnectThread.joinable = false
  marked : marked ∈ held → x.1.reconnectThread.joinable = false ∧ x.1.reconnectStarted = true
  live : x.1.terminated = false

/-- The duties of one who starts the probe are not given by another call. -/
theorem ProxyTurn.clear_mem (ht : ProxyTurn x op x' used made) (h : clear ∈ made) :
    holding ∈ used ∧ x' = x ∧ x.1.reconnectStarted = false ∧ ∃ b, op = .loadStarted b := by
  cases ht with
  | findClear b hstarted => exact ⟨by simp,rfl,hstarted,b,rfl⟩
  | _ => simp at h

theorem ProxyTurn.marked_mem (ht : ProxyTurn x op x' used made) (h : marked ∈ made) :
    clear ∈ used ∧ x' = ({ x.1 with reconnectStarted := true },x.2) := by
  cases ht with
  | mark => exact ⟨by simp,rfl⟩
  | _ => simp at h

theorem Survives.turn (h : Survives x (used + rest)) (hok : x.firstOutage op = true)
    (ht : ProxyTurn x op x' used made) : Survives x' (made + rest) where
  guarded := h.guarded.turn ht
  recovered := by
    intro hjoinable
    cases ht with
    | mark => exact .inl rfl
    | reset => exact .inr rfl
    | assign b _ => exact .inl (h.marked (by simp)).2
    | beginRound hthread => exact h.recovered (by rw [hthread]; rfl)
    | endRound => exact h.recovered (by rw [h.guarded.inRound (.inl (by simp))]; rfl)
    | endThread _ hused =>
      apply h.recovered
      rw [h.guarded.inRound (by rcases hused with rfl | rfl <;> simp)]
      rfl
    | join => cases hjoinable
    | _ => exact h.recovered hjoinable
  clear := by
    intro hclear
    rcases Multiset.mem_add.mp hclear with hmade | hrest
    · obtain ⟨-,rfl,hstarted,b,rfl⟩ := ht.clear_mem hmade
      simp only [ProxyState.firstOutage, hstarted] at hok
      by_contra hjoinable
      rcases h.recovered (by simpa using hjoinable) with hr | hr
      · simp [hstarted] at hr
      · simp [hr] at hok
    · have hfree := h.clear (Multiset.mem_add.mpr (.inr hrest))
      cases ht with
      | assign b _ => exact absurd hrest (h.guarded.alone (d := .marked) (by simp) (by simp)).2.1
      | beginRound hthread => simp [hthread] at hfree
      | endRound => simp [h.guarded.inRound (.inl (by simp))] at hfree
      | endThread _ hused =>
        rw [h.guarded.inRound (by rcases hused with rfl | rfl <;> simp)] at hfree
        cases hfree
      | join => rfl
      | _ => exact hfree
  marked := by
    intro hmarked
    rcases Multiset.mem_add.mp hmarked with hmade | hrest
    · obtain ⟨hused,rfl⟩ := ht.marked_mem hmade
      exact ⟨h.clear (Multiset.mem_add.mpr (.inl hused)),rfl⟩
    · obtain ⟨hfree,hstarted⟩ := h.marked (Multiset.mem_add.mpr (.inr hrest))
      cases ht with
      | reset => exact absurd hrest (h.guarded.alone (d := .holding) (by simp) (by simp)).2.2
      | assign b _ => exact absurd hrest (h.guarded.alone (d := .marked) (by simp) (by simp)).2.2
      | mark => exact ⟨hfree,rfl⟩
      | beginRound hthread => simp [hthread] at hfree
      | endRound => simp [h.guarded.inRound (.inl (by simp))] at hfree
      | endThread _ hused =>
        rw [h.guarded.inRound (by rcases hused with rfl | rfl <;> simp)] at hfree
        cases hfree
      | join => exact ⟨rfl,hstarted⟩
      | _ => exact ⟨hfree,hstarted⟩
  live := by
    cases ht with
    | terminate b hjoinable =>
      rw [(h.marked (by simp)).1] at hjoinable
      cases hjoinable
    | _ => exact h.live

/-- A probe that has not stored CONNECTED runs, or whoever stored BYPASS is about to see to it. -/
structure Attended (x : ProxyState) (held : Multiset ProxyDuty) : Prop where
  guarded : Guarded x.1 held
  starting : x.2.starting = held.count unlooked + held.count looked
  stopped : sawStopped ∈ held → x.1.stopped = true
  probing : probing ∈ held ∨ x.1.reconnectThread = .atLoop → x.2.found = false
  announced : announced ∈ held ∨ told ∈ held → x.2.found = true
  started : x.1.reconnectStarted = true → marked ∈ held ∨ x.2.found = true ∨ x.Searching ∨
    x.1.stopped = true ∨ x.1.terminated = true
  searched : x.1.state = .bypass → x.Searching ∨ unlooked ∈ held ∨ x.1.stopped = true ∨
    x.1.terminated = true

/-- Once the probe was started, somebody is marked to start it, it has found, it searches, or the proxy
stops. -/
theorem Attended.started_turn (h : Attended x (used + rest)) (ht : ProxyTurn x op x' used made)
    (hstarted : x'.1.reconnectStarted = true) : marked ∈ made + rest ∨ x'.2.found = true ∨
      x'.Searching ∨ x'.1.stopped = true ∨ x'.1.terminated = true := by
  cases ht with
  | mark => exact .inl (by simp)
  | announce => exact .inr (.inl rfl)
  | assign => exact .inr (.inr (.inl (.inl rfl)))
  | terminate => exact .inr (.inr (.inr (.inr rfl)))
  | stop => exact .inr (.inr (.inr (.inl rfl)))
  | reset => cases hstarted
  | beginRound hthread => exact .inr (.inr (.inl (.inr ⟨rfl,h.probing (.inr hthread)⟩)))
  | endRound => exact .inr (.inr (.inl (.inl rfl)))
  | endThread _ hused =>
    rcases hused with rfl | rfl
    · exact .inr (.inl (h.announced (.inr (by simp))))
    · exact .inr (.inr (.inr (.inl (h.stopped (by simp)))))
  | join hthread => simpa [ProxyState.Searching, hthread] using h.started hstarted
  | _ => simpa [ProxyState.Searching] using h.started hstarted

/-- In BYPASS the probe searches or will be looked for, or the proxy stops. -/
theorem Attended.searched_turn (h : Attended x (used + rest)) (hok : x.probeExpected op = true)
    (ht : ProxyTurn x op x' used made) (hstate : x'.1.state = .bypass) :
    x'.Searching ∨ unlooked ∈ made + rest ∨ x'.1.stopped = true ∨ x'.1.terminated = true := by
  cases ht with
  | fallBack => exact .inr (.inl (by simp))
  | announce => cases hstate
  | storeState _ _ hvalue => exact absurd hstate hvalue
  | stop => exact .inr (.inr (.inl rfl))
  | findStarted b hstarted =>
    cases b with
    | false => simpa using h.searched hstate
    | true =>
      have halone := h.guarded.alone (d := .holding) (by simp) (by simp)
      rcases h.started hstarted with hmarked | hfound | hsearching | hstopped
      · simp [halone] at hmarked
      · exact .inr (.inr (.inl (by simpa [ProxyState.probeExpected, hstarted, hfound, hstate] using hok)))
      · exact .inl hsearching
      · exact .inr (.inr hstopped)
  | terminate => exact .inr (.inr (.inr rfl))
  | assign => exact .inl (.inl rfl)
  | beginRound hthread => exact .inl (.inr ⟨rfl,h.probing (.inr hthread)⟩)
  | endRound => exact .inl (.inl rfl)
  | endThread _ hused =>
    rcases hused with rfl | rfl
    · have hthread := h.guarded.inRound (.inr (.inr (by simp)))
      have hfound := h.announced (.inr (by simp))
      simpa [ProxyState.Searching, hthread, hfound] using h.searched hstate
    · exact .inr (.inr (.inl (h.stopped (by simp))))
  | join hthread => simpa [ProxyState.Searching, hthread] using h.searched hstate
  | _ => simpa [ProxyState.Searching] using h.searched hstate

theorem Attended.turn (h : Attended x (used + rest)) (hok : x.probeExpected op = true)
    (ht : ProxyTurn x op x' used made) : Attended x' (made + rest) where
  guarded := h.guarded.turn ht
  starting := by
    have hstarting := h.starting
    simp only [Multiset.count_add] at hstarting
    cases ht with
    | endThread _ hused =>
      rcases hused with rfl | rfl <;> simpa [Multiset.count_singleton] using hstarting
    | _ => grind [Multiset.count_add, Multiset.count_singleton, Multiset.count_zero]
  stopped := by
    intro hsaw
    rcases Multiset.mem_add.mp hsaw with hmade | hrest
    · cases ht with
      | seeStopped hstopped => exact hstopped
      | _ => simp at hmade
    · have hstopped := h.stopped (Multiset.mem_add.mpr (.inr hrest))
      cases ht with
      | stop => rfl
      | _ => exact hstopped
  probing := by
    intro hprobing
    cases ht with
    | announce =>
      have hround := h.guarded.oneRound (d := .probing) (by simp) (by simp)
      have hthread := h.guarded.inRound (.inl (by simp))
      simp [hround, hthread] at hprobing
    | assign => rfl
    | beginRound hthread => exact h.probing (.inr hthread)
    | endRound => exact h.probing (.inl (by simp))
    | endThread _ hused =>
      rcases hused with rfl | rfl
      · simp [h.guarded.oneRound (d := .told) (by simp) (by simp)] at hprobing
      · simp [h.guarded.oneRound (d := .probing) (by simp) (by simp)] at hprobing
    | join => exact h.probing (.inl (by simpa using hprobing))
    | _ => exact h.probing (by simpa using hprobing)
  announced := by
    intro hfound
    cases ht with
    | announce => rfl
    | assign b hjoinable =>
      rw [h.guarded.inRound (.inr (by simpa using hfound))] at hjoinable
      cases hjoinable
    | lockProbe => exact h.announced (.inl (by simp))
    | endThread used _ =>
      have hrest : ProxyDuty.announced ∈ rest ∨ told ∈ rest := by simpa using hfound
      exact h.announced (hrest.imp (fun hm => Multiset.mem_add.mpr (.inr hm))
        fun hm => Multiset.mem_add.mpr (.inr hm))
    | _ => exact h.announced (by simpa using hfound)
  started := h.started_turn ht
  searched := h.searched_turn hok ht

structure Apart (x : ProxyState) (held : Multiset ProxyDuty) : Prop where
  announcing : x.2.announcing = held.count announced
  joining : x.2.joining = held.count joining
  apart : x.2.joining = 0 ∨ x.2.announcing = 0

theorem Apart.turn (h : Apart x (used + rest)) (hok : x.joinsIdle op = true)
    (ht : ProxyTurn x op x' used made) : Apart x' (made + rest) := by
  obtain ⟨hannouncing,hjoining,hapart⟩ := h
  simp only [Multiset.count_add] at hannouncing hjoining
  cases ht with
  | announce =>
    have hnone : x.2.joining = 0 := by simpa [ProxyState.joinsIdle] using hok
    constructor <;> grind [Multiset.count_add, Multiset.count_singleton, Multiset.count_zero]
  | lockDestructor =>
    have hnone : x.2.announcing = 0 := by simpa [ProxyState.joinsIdle] using hok
    constructor <;> grind [Multiset.count_add, Multiset.count_singleton, Multiset.count_zero]
  | lockProbe | unlockDestructor =>
    constructor <;> grind [Multiset.count_add, Multiset.count_singleton, Multiset.count_zero]
  | endThread _ hused =>
    rcases hused with rfl | rfl <;>
      exact ⟨by simpa [Multiset.count_singleton] using hannouncing,
        by simpa [Multiset.count_singleton] using hjoining,hapart⟩
  -- the other turns change neither count
  | _ => exact ⟨by simpa [Multiset.count_singleton] using hannouncing,
      by simpa [Multiset.count_singleton, add_comm] using hjoining,hapart⟩

end

section
open ProxyDuty
variable {cfg : ProxyConfig} {ok : ProxyState → ProxyCall → Prop}
  {tr : List (Event proxyCalls ProxyState)} {P : Pool proxyCalls ProxyState Unit}

/-- What every turn keeps holds in every state a run reaches. -/
theorem proxyRun_shares {Inv : ProxyState → Multiset ProxyDuty → Prop}
    (hinit : Inv (SchedulerProxy.initial,.empty) 0)
    (hturn : ∀ {x x' op used made rest}, Inv x (used + rest) → ok x op →
      ProxyTurn x op x' used made → Inv x' (made + rest))
    (hrun : ProxyRun cfg ok tr P) :
    ∃ gs, List.Forall₂ (Uses proxyDuties fun _ g => g = 0) P.threads gs ∧ Inv P.state gs.sum := by
  have hkeeps : Keeps proxyRecorded proxyDuties ok fun _ => Inv := by
    constructor
    · intros
      trivial
    · intro _ _ x op c r x' used made rest h hok hs hr
      exact hturn h hok (proxyTurn_of_step hs hr).2
  refine hrun.shares hkeeps ?_ ⟨[0],.cons SchedulerProxy.does_construct .nil,hinit⟩
  rintro p ⟨op,rfl⟩
  exact SchedulerProxy.does_run op

theorem guarded_initial : Guarded SchedulerProxy.initial 0 := ⟨rfl,rfl⟩

/-- A proxy survives every run in which no `StartReconnectProbe` finds the flag clear that
a probe has reset. -/
theorem live_of_firstOutage (hrun : ProxyRun cfg (fun x op => x.firstOutage op = true) tr P) :
    P.state.1.terminated = false := by
  have hinit : Survives (SchedulerProxy.initial,.empty) 0 := by
    refine ⟨guarded_initial,?_,?_,?_,rfl⟩
    · intro h
      cases h
    · intro h
      simp at h
    · intro h
      simp at h
  obtain ⟨gs,-,h⟩ := proxyRun_shares hinit Survives.turn hrun
  exact h.live

/-- In every run in which whoever stored BYPASS does not find the flag of a thread that had
stored CONNECTED, BYPASS is attended in every state. -/
theorem bypassAttended_of_probeExpected
    (hrun : ProxyRun cfg (fun x op => x.probeExpected op = true) tr P) : P.state.BypassAttended := by
  have hinit : Attended (SchedulerProxy.initial,.empty) 0 := by
    constructor
    · exact guarded_initial
    · rfl
    · intro h
      simp at h
    · intro _
      rfl
    · intro h
      simp at h
    · intro h
      cases h
    · intro h
      cases h
  obtain ⟨gs,-,h⟩ := proxyRun_shares hinit Attended.turn hrun
  intro hstate hstopped hlive hnone
  have hstarting := h.starting
  rw [hnone] at hstarting
  have hunlooked : unlooked ∉ gs.sum := by
    rw [← Multiset.count_eq_zero]
    omega
  rcases h.searched hstate with hs | hu | hs | ht
  · exact hs
  · exact absurd hu hunlooked
  · simp [hstopped] at hs
  · simp [hlive] at ht

/-- The destructor cannot deadlock in a run in which it does not take the mutex between the
success of a probe and its lock, and no probe succeeds while the destructor has it. -/
theorem not_proxyDeadlock_of_joinsIdle
    (hrun : ProxyRun cfg (fun x op => x.joinsIdle op = true) tr P) : ¬ ProxyDeadlock P := by
  have hinit : Apart (SchedulerProxy.initial,.empty) 0 := ⟨rfl,rfl,.inl rfl⟩
  obtain ⟨gs,hgs,h⟩ := proxyRun_shares hinit Apart.turn hrun
  rintro ⟨-,-,hjoin,hlock⟩
  obtain ⟨used,made,rest,⟨rfl,-⟩,hsum⟩ := exists_used hgs hjoin (r := ()) trivial
  have hjoining : 0 < gs.sum.count joining := by
    rw [hsum, Multiset.count_pos]
    simp
  obtain ⟨used,made,rest,⟨rfl,-⟩,hsum⟩ := exists_used hgs hlock (r := ()) trivial
  have hannounced : 0 < gs.sum.count announced := by
    rw [hsum, Multiset.count_pos]
    simp
  have hannouncing := h.announcing
  have hjoins := h.joining
  rcases h.apart with hnone | hnone <;> omega

end

namespace Reconnection

def cfg : ProxyConfig := ⟨3⟩
def read : IORequestData := ⟨7,0,1,4096,0,0,""⟩

/-- Thread `i` makes `n` calls, of which those to other processes succeed or all fail. -/
def turns (i n : ℕ) (succeeds : Bool) : List (ℕ × ProxyChoice) :=
  List.replicate n (i,{ succeeds := succeeds })

/-- A schedule of the constructor and of what was started next to it. -/
theorem proxyRun_of_schedule (check : ProxyState → ProxyCall → Bool) (ops : List ProxyOp)
    (sched : List (ℕ × ProxyChoice)) {γ : Type}
    {f : List (Event proxyCalls ProxyState) × Pool proxyCalls ProxyState Unit → γ} {v : γ}
    (h : (Pool.follow (M := proxyRecorded) check sched
      ⟨(SchedulerProxy.initial,.empty),SchedulerProxy.construct :: ops.map (ProxyOp.run cfg)⟩).map f =
        some v) :
    ∃ tr P, ProxyRun cfg (fun x op => check x op = true) tr P ∧ f (tr,P) = v := by
  obtain ⟨⟨tr,P⟩,hfollow,hv⟩ := Option.map_eq_some_iff.mp h
  have hspawn : ProxyRun cfg (fun x op => check x op = true) []
      ⟨(SchedulerProxy.initial,.empty),[SchedulerProxy.construct] ++ ops.map (ProxyOp.run cfg)⟩ := by
    apply run_spawnAll
    intro p hp
    obtain ⟨op,-,rfl⟩ := List.mem_map.mp hp
    exact ⟨op,rfl⟩
  exact ⟨tr,P,hspawn.trans (run_of_follow _ hfollow),hv⟩

end Reconnection

open Reconnection

/-- The scheduler is not there at first and is found by the probe. -/
theorem live_of_firstOutage_found : ∃ tr P, ProxyRun cfg (fun x op => x.firstOutage op = true) tr P ∧
    P.state.1.terminated = false ∧ P.state.1.state = .connected ∧ P.state.2.recovered = true := by
  obtain ⟨tr,P,hrun,hP⟩ := proxyRun_of_schedule firstOutage [.probeRound]
    (turns 0 7 false ++ turns 1 11 true)
    (f := fun y => (y.2.state.1.state,y.2.state.2.recovered)) (v := (.connected,true)) rfl
  obtain ⟨hstate,hrecovered⟩ := Prod.mk.inj hP
  exact ⟨tr,P,hrun,live_of_firstOutage hrun,hstate,hrecovered⟩

/-- The scheduler is lost once more: the third failed request ends the process. -/
theorem exists_run_terminated : ∃ tr P, ProxyRun cfg (fun _ _ => True) tr P ∧
    P.state.1.terminated = true := by
  obtain ⟨tr,P,hrun,hP⟩ := proxyRun_of_schedule (fun _ _ => true)
    [.probeRound,.request read,.request read,.request read]
    (turns 0 7 false ++ turns 1 11 true ++ turns 2 6 false ++ turns 3 6 false ++ turns 4 9 false)
    (f := fun y => y.2.state.1.terminated) (v := true) rfl
  exact ⟨tr,P,hrun.ok_mono fun _ _ _ => trivial,hP⟩

/-- A proxy that did not find the scheduler has a thread that looks for it. -/
theorem bypassAttended_of_probeExpected_initial : ∃ tr P,
    ProxyRun cfg (fun x op => x.probeExpected op = true) tr P ∧ P.state.BypassAttended ∧
      P.state.1 = ⟨.bypass,0,false,false,true,.inRound,true,1,false⟩ := by
  obtain ⟨tr,P,hrun,hP⟩ := proxyRun_of_schedule probeExpected [.request read,.probeRound]
    (turns 0 7 false ++ turns 1 3 false ++ turns 2 4 true)
    (f := fun y => y.2.state.1) (v := ⟨.bypass,0,false,false,true,.inRound,true,1,false⟩) rfl
  exact ⟨tr,P,hrun,bypassAttended_of_probeExpected hrun,hP⟩

/-- Three requests fail while the probe that has stored CONNECTED still has the flag set:
every thread returns, and nobody looks for the scheduler. -/
theorem exists_run_not_bypassAttended : ∃ tr P, ProxyRun cfg (fun _ _ => True) tr P ∧ P.Returned ∧
    ¬ P.state.BypassAttended := by
  obtain ⟨tr,P,hrun,hP⟩ := proxyRun_of_schedule (fun _ _ => true)
    [.probeRound,.request read,.request read,.request read]
    (turns 0 7 false ++ turns 1 7 true ++ turns 2 6 false ++ turns 3 6 false ++ turns 4 10 false ++
      turns 1 4 true)
    (f := fun y => (y.2.replies,y.2.state.1.state,y.2.state.1.reconnectThread,y.2.state.1.stopped,
      y.2.state.1.terminated,y.2.state.2.starting))
    (v := (List.replicate 5 (some ()),.bypass,.finished,false,false,0)) rfl
  obtain ⟨hreplies,hrest⟩ := Prod.mk.inj hP
  obtain ⟨hstate,hrest⟩ := Prod.mk.inj hrest
  obtain ⟨hthread,hrest⟩ := Prod.mk.inj hrest
  obtain ⟨hstopped,hrest⟩ := Prod.mk.inj hrest
  obtain ⟨hlive,hstarting⟩ := Prod.mk.inj hrest
  refine ⟨tr,P,hrun.ok_mono fun _ _ _ => trivial,?_,?_⟩
  · intro r hr
    rw [hreplies] at hr
    rw [List.eq_of_mem_replicate hr]
    rfl
  · intro h
    have hthread : P.state.1.reconnectThread = .finished := hthread
    rcases h hstate hstopped hlive hstarting with hs | ⟨hs,-⟩
    · rw [hthread] at hs
      cases hs
    · rw [hthread] at hs
      cases hs

/-- The destructor joins a thread that has found the scheduler and returned. -/
theorem not_proxyDeadlock_of_joinsIdle_joined : ∃ tr P,
    ProxyRun cfg (fun x op => x.joinsIdle op = true) tr P ∧ ¬ ProxyDeadlock P ∧
      P.state.1.reconnectThread = .none ∧ P.replies = [some (),some (),some ()] := by
  obtain ⟨tr,P,hrun,hP⟩ := proxyRun_of_schedule joinsIdle [.probeRound,.destroy]
    (turns 0 7 false ++ turns 1 11 true ++ turns 2 5 true)
    (f := fun y => (y.2.state.1.reconnectThread,y.2.replies))
    (v := (.none,[some (),some (),some ()])) rfl
  obtain ⟨hthread,hreplies⟩ := Prod.mk.inj hP
  exact ⟨tr,P,hrun,not_proxyDeadlock_of_joinsIdle hrun,hthread,hreplies⟩

/-- The destructor takes the mutex while the probe succeeds. -/
theorem exists_run_proxyDeadlock : ∃ tr P, ProxyRun cfg (fun _ _ => True) tr P ∧ ProxyDeadlock P := by
  obtain ⟨tr,P,hrun,hP⟩ := proxyRun_of_schedule (fun _ _ => true) [.probeRound,.destroy]
    (turns 0 7 false ++ turns 1 5 true ++ turns 2 3 true ++ turns 1 2 true)
    (f := fun y => (y.2.state.1.mutexHeld,y.2.state.1.reconnectThread,y.2.pending))
    (v := (true,.inRound,[.lockReconnect .probe,.join])) rfl
  obtain ⟨hmutex,hrest⟩ := Prod.mk.inj hP
  obtain ⟨hthread,hpending⟩ := Prod.mk.inj hrest
  refine ⟨tr,P,hrun.ok_mono fun _ _ _ => trivial,hmutex,?_,?_,?_⟩
  · rw [hthread]
    decide
  · rw [hpending]
    exact List.mem_cons_of_mem _ (List.mem_singleton_self _)
  · rw [hpending]
    exact List.mem_cons_self

end FalconKV
