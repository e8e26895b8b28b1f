import Mathlib.Algebra.Order.Group.Multiset
import Mathlib.Tactic.Abel
import FalconKV.AtomicCalls.Discipline
import FalconKV.Scheduler.Service

/-! # Which IOs the accumulators hold

Beside the scheduler runs a record of what was decided, answered and reported. A
handler holds the grant it has still to enter, or the ticket it has still to take out;
with these an accumulator is the answered grants less those that were reported.
-/
namespace FalconKV
open AtomicCalls

structure ServiceRecord where
  decided : List Grant
  granted : List Grant
  reported : List ℕ
  processed : List ℕ
  deriving DecidableEq

namespace ServiceRecord

def empty : ServiceRecord := ⟨[],[],[],[]⟩

def note : (op : SchedulerCall) → op.Res → FalconKVScheduler → ServiceRecord → ServiceRecord
  | .decide request, r, _, x => { x with decided := x.decided ++ [(request,r)] }
  | .respond request response, _, _, x => { x with granted := x.granted ++ [(request,response)] }
  | .receiveReport report, _, _, x => { x with reported := x.reported ++ [report.ticket] }
  | .acknowledge report, _, _, x => { x with processed := x.processed ++ [report.ticket] }
  | _, _, _, x => x

end ServiceRecord

abbrev ServiceState := FalconKVScheduler × ServiceRecord

def serviceMachine : Machine schedulerCalls ServiceState :=
  schedulerMachine.withRecord ServiceRecord.note

namespace ServiceState

/-- A report carries the ticket of an IO that was granted. -/
def carriesGrant (x : ServiceState) : SchedulerCall → Bool
  | .receiveReport report => x.2.granted.any fun g => g.2.ticket == report.ticket
  | _ => true

/-- The ticket counter has not come round to a ticket that was given out. -/
def freshTicket (x : ServiceState) : SchedulerCall → Bool
  | .decide _ => x.2.decided.all fun g => g.2.ticket != x.1.ticketCounter
  | _ => true

def sparesClients (x : ServiceState) : SchedulerCall → Bool
  | .ssdDone ticket true => x.1.ssdActive.all fun io => io.ticket != ticket
  | .netDone ticket true => x.1.netActive.all fun io => io.ticket != ticket
  | _ => true

/-- An accumulator holds every answered grant on its channels that was not reported, and
what it holds was decided, on its channels, and not processed; each ticket once. -/
structure ActiveExact (x : ServiceState) (A : Accumulator) : Prop where
  once : ((A.active x.1).map ActiveIO.ticket).Nodup
  complete : ∀ g ∈ x.2.granted, A.tracks g.1.ioChannel = true → g.2.ticket ∉ x.2.reported →
    A.entry g ∈ A.active x.1
  sound : ∀ io ∈ A.active x.1, ∃ g ∈ x.2.decided, A.tracks g.1.ioChannel = true ∧
    io = A.entry g ∧ g.2.ticket ∉ x.2.processed

end ServiceState

inductive Carried
  | starting (g : Grant)
  | started (g : Grant)
  | reporting (t : ℕ)
  | finished (t : ℕ)
  deriving DecidableEq

namespace Carried

def startingGrant : Carried → Option Grant
  | starting g => some g
  | _ => none

def startedGrant : Carried → Option Grant
  | started g => some g
  | _ => none

def rule (A : Accumulator) : (op : SchedulerCall) → op.Res → Multiset Carried → Multiset Carried → Prop
  | .decide request, r, used, made => used = 0 ∧ made = {.starting (request,r)}
  | .respond request response, _, used, made => used = {.started (request,response)} ∧ made = 0
  | .receiveReport report, _, used, made => used = 0 ∧ made = {.reporting report.ticket}
  | .acknowledge report, _, used, made => used = {.finished report.ticket} ∧ made = 0
  | op, _, used, made =>
    match A.starts op, A.finishes op with
    | some io, _ => ∃ g, A.entry g = io ∧ used = {.starting g} ∧ made = {.started g}
    | none, some (t,false) => used = {.reporting t} ∧ made = {.finished t}
    | none, _ => used = 0 ∧ made = 0

end Carried

def carrying (A : Accumulator) : Discipline schedulerCalls (Multiset Carried) :=
  ⟨fun _ _ => True,Carried.rule A⟩

theorem uses_request (A : Accumulator) (request : IORequestData) :
    Uses (carrying A) (fun _ g => g = 0) (SchedulerOp.run (.request request)) 0 := by
  refine uses_perform fun r _ => ⟨0,{.starting (request,r)},0,⟨rfl,rfl⟩,rfl,?_⟩
  cases A with
  | ssd =>
    refine uses_perform fun _ _ => ⟨{.starting (request,r)},{.started (request,r)},0,⟨(request,r),rfl,rfl,rfl⟩,rfl,?_⟩
    refine uses_perform fun _ _ => ⟨0,0,_,⟨rfl,rfl⟩,(zero_add _).symm,?_⟩
    exact uses_perform fun _ _ => ⟨{.started (request,r)},0,0,⟨rfl,rfl⟩,rfl,rfl⟩
  | net =>
    refine uses_perform fun _ _ => ⟨0,0,_,⟨rfl,rfl⟩,(zero_add _).symm,?_⟩
    refine uses_perform fun _ _ => ⟨{.starting (request,r)},{.started (request,r)},0,⟨(request,r),rfl,rfl,rfl⟩,rfl,?_⟩
    exact uses_perform fun _ _ => ⟨{.started (request,r)},0,0,⟨rfl,rfl⟩,rfl,rfl⟩

theorem uses_report (A : Accumulator) (report : IOCompletionData) :
    Uses (carrying A) (fun _ g => g = 0) (SchedulerOp.run (.report report)) 0 := by
  refine uses_perform fun _ _ => ⟨0,{.reporting report.ticket},0,⟨rfl,rfl⟩,rfl,?_⟩
  cases A with
  | ssd =>
    refine uses_perform fun _ _ => ⟨{.reporting report.ticket},{.finished report.ticket},0,⟨rfl,rfl⟩,rfl,?_⟩
    refine uses_perform fun _ _ => ⟨0,0,_,⟨rfl,rfl⟩,(zero_add _).symm,?_⟩
    exact uses_perform fun _ _ => ⟨{.finished report.ticket},0,0,⟨rfl,rfl⟩,rfl,rfl⟩
  | net =>
    refine uses_perform fun _ _ => ⟨0,0,_,⟨rfl,rfl⟩,(zero_add _).symm,?_⟩
    refine uses_perform fun _ _ => ⟨{.reporting report.ticket},{.finished report.ticket},0,⟨rfl,rfl⟩,rfl,?_⟩
    exact uses_perform fun _ _ => ⟨{.finished report.ticket},0,0,⟨rfl,rfl⟩,rfl,rfl⟩

/-- A store report goes with no grant. -/
theorem uses_storeReport (A : Accumulator) (report : StoreIOReport) :
    Uses (carrying A) (fun _ g => g = 0) (SchedulerOp.run (.storeReport report)) 0 := by
  cases A <;>
  · refine uses_perform fun _ _ => ⟨0,0,0,⟨rfl,rfl⟩,rfl,?_⟩
    exact uses_perform fun _ _ => ⟨0,0,0,⟨rfl,rfl⟩,rfl,rfl⟩

theorem uses_schedulerOp (A : Accumulator) (op : SchedulerOp) :
    Uses (carrying A) (fun _ g => g = 0) op.run 0 := by
  cases op with
  | request request => exact uses_request A request
  | report report => exact uses_report A report
  | storeReport report => exact uses_storeReport A report

def starting (held : Multiset Carried) : Multiset Grant := held.filterMap Carried.startingGrant
def started (held : Multiset Carried) : Multiset Grant := held.filterMap Carried.startedGrant

section
variable {A : Accumulator} {x : ServiceState} {held rest : Multiset Carried} {g : Grant} {t : ℕ}

@[simp] theorem starting_cons_starting : starting (.starting g ::ₘ rest) = g ::ₘ starting rest :=
  Multiset.filterMap_cons_some _ _ _ rfl
@[simp] theorem starting_cons_started : starting (.started g ::ₘ rest) = starting rest :=
  Multiset.filterMap_cons_none _ _ rfl
@[simp] theorem starting_cons_reporting : starting (.reporting t ::ₘ rest) = starting rest :=
  Multiset.filterMap_cons_none _ _ rfl
@[simp] theorem starting_cons_finished : starting (.finished t ::ₘ rest) = starting rest :=
  Multiset.filterMap_cons_none _ _ rfl
@[simp] theorem started_cons_starting : started (.starting g ::ₘ rest) = started rest :=
  Multiset.filterMap_cons_none _ _ rfl
@[simp] theorem started_cons_started : started (.started g ::ₘ rest) = g ::ₘ started rest :=
  Multiset.filterMap_cons_some _ _ _ rfl
@[simp] theorem started_cons_reporting : started (.reporting t ::ₘ rest) = started rest :=
  Multiset.filterMap_cons_none _ _ rfl
@[simp] theorem started_cons_finished : started (.finished t ::ₘ rest) = started rest :=
  Multiset.filterMap_cons_none _ _ rfl

structure Balance (A : Accumulator) (x : ServiceState) (held : Multiset Carried) : Prop where
  tickets : (x.2.decided.map fun g => g.2.ticket).Nodup
  grants : (x.2.decided : Multiset Grant) = starting held + (started held + (x.2.granted : Multiset Grant))
  once : ((A.active x.1).map ActiveIO.ticket).Nodup
  complete : ∀ g ∈ started held + (x.2.granted : Multiset Grant),
    A.tracks g.1.ioChannel = true → g.2.ticket ∉ x.2.reported → A.entry g ∈ A.active x.1
  sound : ∀ io ∈ A.active x.1, ∃ g ∈ started held + (x.2.granted : Multiset Grant),
    A.tracks g.1.ioChannel = true ∧ io = A.entry g
  promised : ∀ t ∈ x.2.reported, ∃ g ∈ x.2.granted, g.2.ticket = t
  gone : ∀ t, .finished t ∈ held ∨ t ∈ x.2.processed →
    t ∈ x.2.reported ∧ t ∉ (A.active x.1).map ActiveIO.ticket
  reporting : ∀ t, .reporting t ∈ held → t ∈ x.2.reported
  answered : ∀ t ∈ x.2.reported, .reporting t ∈ held ∨ .finished t ∈ held ∨ t ∈ x.2.processed

namespace Balance

theorem create : Balance A (.create,.empty) 0 where
  tickets := List.nodup_nil
  grants := rfl
  once := by cases A <;> exact List.nodup_nil
  complete := by simp [ServiceRecord.empty, started]
  sound := by cases A <;> simp [Accumulator.active, FalconKVScheduler.create]
  promised := by simp [ServiceRecord.empty]
  gone := by simp [ServiceRecord.empty]
  reporting := by simp
  answered := by simp [ServiceRecord.empty]

/-- A grant that has not been entered shares its ticket with none that has. -/
theorem ticket_ne (h : Balance A x (.starting g ::ₘ rest)) {g' : Grant}
    (hg' : g' ∈ started rest + (x.2.granted : Multiset Grant)) : g.2.ticket ≠ g'.2.ticket := by
  have hgrants := h.grants
  rw [starting_cons_starting, started_cons_starting, Multiset.cons_add] at hgrants
  have hnodup : ((x.2.decided : Multiset Grant).map fun g => g.2.ticket).Nodup := h.tickets
  rw [hgrants, Multiset.map_cons, Multiset.nodup_cons] at hnodup
  intro heq
  apply hnodup.1
  rw [heq]
  exact Multiset.mem_map_of_mem _ (Multiset.mem_add.mpr (.inr hg'))

theorem decide (request : IORequestData) (response : IOResponseData) (h : Balance A x rest)
    (hfresh : ∀ g ∈ x.2.decided, g.2.ticket ≠ response.ticket) {s' : FalconKVScheduler}
    (hs : A.active s' = A.active x.1) :
    Balance A (s',{ x.2 with decided := x.2.decided ++ [(request,response)] })
      (.starting (request,response) ::ₘ rest) where
  tickets := by
    rw [List.map_append]
    apply List.Nodup.append h.tickets (List.nodup_singleton _)
    intro t ht ht'
    obtain ⟨g,hg,rfl⟩ := List.mem_map.mp ht
    exact hfresh g hg (List.mem_singleton.mp ht')
  grants := by
    rw [starting_cons_starting, started_cons_starting, Multiset.cons_add, ← h.grants,
      ← Multiset.coe_add, add_comm]
    rfl
  once := by
    rw [hs]
    exact h.once
  complete := by
    rw [started_cons_starting, hs]
    exact h.complete
  sound := by
    rw [started_cons_starting, hs]
    exact h.sound
  promised := h.promised
  gone := by
    intro t ht
    rw [hs]
    exact h.gone t (by simpa using ht)
  reporting := fun t ht => h.reporting t (by simpa using ht)
  answered := fun t ht => by simpa using h.answered t ht

theorem start (h : Balance A x (.starting g ::ₘ rest)) {s' : FalconKVScheduler}
    (hs : A.active s' = pushActive (A.tracks g.1.ioChannel) (A.entry g) (A.active x.1)) :
    Balance A (s',x.2) (.started g ::ₘ rest) where
  tickets := h.tickets
  grants := by
    rw [h.grants]
    simp
  once := by
    rw [hs, map_ticket_pushActive]
    apply List.Nodup.append h.once (by split <;> simp)
    intro t ht ht'
    obtain ⟨io,hio,rfl⟩ := List.mem_map.mp ht
    obtain ⟨g',hg',-,rfl⟩ := h.sound io hio
    rw [started_cons_starting] at hg'
    have hne := h.ticket_ne hg'
    split at ht'
    · rw [List.mem_singleton, Accumulator.entry_ticket, Accumulator.entry_ticket] at ht'
      exact hne ht'.symm
    · cases ht'
  complete := by
    intro g' hg' htracks hnot
    rw [hs, mem_pushActive]
    rw [started_cons_started, Multiset.cons_add, Multiset.mem_cons] at hg'
    rcases hg' with rfl | hg'
    · exact .inr ⟨htracks,rfl⟩
    · left
      apply h.complete g' _ htracks hnot
      rwa [started_cons_starting]
  sound := by
    intro io hio
    rw [hs, mem_pushActive] at hio
    rw [started_cons_started, Multiset.cons_add]
    rcases hio with hio | ⟨htracks,rfl⟩
    · obtain ⟨g',hg',hrest⟩ := h.sound io hio
      rw [started_cons_starting] at hg'
      exact ⟨g',Multiset.mem_cons_of_mem hg',hrest⟩
    · exact ⟨g,Multiset.mem_cons_self _ _,htracks,rfl⟩
  promised := h.promised
  gone := by
    intro t ht
    obtain ⟨hrep,hgone⟩ := h.gone t (by simpa using ht)
    refine ⟨hrep,?_⟩
    rw [hs, map_ticket_pushActive, List.mem_append]
    rintro (hin | hin)
    · exact hgone hin
    · obtain ⟨g',hg',rfl⟩ := h.promised t hrep
      split at hin
      · rw [List.mem_singleton, Accumulator.entry_ticket] at hin
        exact h.ticket_ne (Multiset.mem_add.mpr (.inr (Multiset.mem_coe.mpr hg'))) hin.symm
      · cases hin
  reporting := fun t ht => h.reporting t (by simpa using ht)
  answered := fun t ht => by simpa using h.answered t ht

/-- The report of the ticket `t` takes out the one IO that has it. -/
theorem finish (h : Balance A x (.reporting t ::ₘ rest)) {s' : FalconKVScheduler}
    (hs : A.active s' = eraseActive t (A.active x.1)) :
    Balance A (s',x.2) (.finished t ::ₘ rest) where
  tickets := h.tickets
  grants := by
    rw [h.grants]
    simp
  once := by
    rw [hs, map_ticket_eraseActive]
    exact h.once.erase t
  complete := by
    intro g hg htracks hnot
    have hne : (A.entry g).ticket ≠ t := by
      rintro rfl
      apply hnot
      rw [← A.entry_ticket g]
      exact h.reporting _ (Multiset.mem_cons_self _ _)
    rw [hs, mem_eraseActive_of_ne hne]
    exact h.complete g (by simpa using hg) htracks hnot
  sound := by
    intro io hio
    rw [hs] at hio
    simpa using h.sound io (mem_of_mem_eraseActive hio)
  promised := h.promised
  gone := by
    intro u hu
    rw [hs]
    by_cases hut : u = t
    · rw [hut]
      exact ⟨h.reporting t (Multiset.mem_cons_self _ _),not_mem_eraseActive h.once⟩
    · obtain ⟨hrep,hgone⟩ := h.gone u (by simpa [hut] using hu)
      refine ⟨hrep,fun hin => hgone ?_⟩
      rw [map_ticket_eraseActive] at hin
      exact List.mem_of_mem_erase hin
  reporting := fun u hu => h.reporting u (Multiset.mem_cons_of_mem (by simpa using hu))
  answered := fun u hu => by
    by_cases hut : u = t
    · simp [hut]
    · simpa [hut] using h.answered u hu

/-- A call that does not concern the accumulator. -/
theorem keep (h : Balance A x held) {s' : FalconKVScheduler} (hs : A.active s' = A.active x.1) :
    Balance A (s',x.2) held where
  tickets := h.tickets
  grants := h.grants
  once := by
    rw [hs]
    exact h.once
  complete := by
    rw [hs]
    exact h.complete
  sound := by
    rw [hs]
    exact h.sound
  promised := h.promised
  gone := by
    rw [hs]
    exact h.gone
  reporting := h.reporting
  answered := h.answered

theorem respond (h : Balance A x (.started g ::ₘ rest)) :
    Balance A (x.1,{ x.2 with granted := x.2.granted ++ [g] }) rest := by
  have hsum : started rest + ((x.2.granted ++ [g] : List Grant) : Multiset Grant) =
      started (.started g ::ₘ rest) + (x.2.granted : Multiset Grant) := by
    rw [started_cons_started, ← Multiset.coe_add, Multiset.coe_singleton, ← Multiset.singleton_add]
    abel
  constructor
  · exact h.tickets
  · rw [hsum, h.grants, starting_cons_started]
  · exact h.once
  · rw [hsum]
    exact h.complete
  · rw [hsum]
    exact h.sound
  · intro t ht
    obtain ⟨g',hg',heq⟩ := h.promised t ht
    exact ⟨g',List.mem_append_left _ hg',heq⟩
  · exact fun t ht => h.gone t (ht.imp_left Multiset.mem_cons_of_mem)
  · exact fun t ht => h.reporting t (Multiset.mem_cons_of_mem ht)
  · exact fun t ht => by simpa using h.answered t ht

theorem receive (h : Balance A x rest) (hpromise : ∃ g ∈ x.2.granted, g.2.ticket = t) :
    Balance A (x.1,{ x.2 with reported := x.2.reported ++ [t] }) (.reporting t ::ₘ rest) where
  tickets := h.tickets
  grants := by simpa using h.grants
  once := h.once
  complete := fun g hg htracks hnot => h.complete g (by simpa using hg) htracks
    fun hin => hnot (List.mem_append_left _ hin)
  sound := fun io hio => by simpa using h.sound io hio
  promised := by
    intro u hu
    rcases List.mem_append.mp hu with hu | hu
    · exact h.promised u hu
    · rw [List.mem_singleton.mp hu]
      exact hpromise
  gone := fun u hu => by
    obtain ⟨hrep,hgone⟩ := h.gone u (by simpa using hu)
    exact ⟨List.mem_append_left _ hrep,hgone⟩
  reporting := fun u hu => by
    rcases Multiset.mem_cons.mp hu with hu | hu
    · cases hu
      exact List.mem_append_right _ (List.mem_singleton_self _)
    · exact List.mem_append_left _ (h.reporting u hu)
  answered := fun u hu => by
    rcases List.mem_append.mp hu with hu | hu
    · exact (h.answered u hu).imp Multiset.mem_cons_of_mem (Or.imp_left Multiset.mem_cons_of_mem)
    · simp [List.mem_singleton.mp hu]

theorem acknowledge (h : Balance A x (.finished t ::ₘ rest)) :
    Balance A (x.1,{ x.2 with processed := x.2.processed ++ [t] }) rest where
  tickets := h.tickets
  grants := by simpa using h.grants
  once := h.once
  complete := fun g hg => h.complete g (by simpa using hg)
  sound := fun io hio => by simpa using h.sound io hio
  promised := h.promised
  gone := fun u hu => by
    apply h.gone u
    rcases hu with hu | hu
    · exact .inl (Multiset.mem_cons_of_mem hu)
    · rcases List.mem_append.mp hu with hu | hu
      · exact .inr hu
      · simp [List.mem_singleton.mp hu]
  reporting := fun u hu => h.reporting u (Multiset.mem_cons_of_mem hu)
  answered := fun u hu => by
    rcases h.answered u hu with hm | hm | hm
    · exact .inl (by simpa using hm)
    · rcases Multiset.mem_cons.mp hm with hm | hm
      · cases hm
        exact .inr (.inr (List.mem_append_right _ (List.mem_singleton_self _)))
      · exact .inr (.inl hm)
    · exact .inr (.inr (List.mem_append_left _ hm))

end Balance

namespace ServiceState

/-- What the calls of a run have to keep to. -/
def undisturbed (x : ServiceState) (op : SchedulerCall) : Bool :=
  x.carriesGrant op && x.freshTicket op && x.sparesClients op

/-- The report of a store leaves the accumulator alone. -/
theorem sparesClients_finishes {op : SchedulerCall} (h : x.sparesClients op = true)
    (hop : A.finishes op = some (t,true)) : eraseActive t (A.active x.1) = A.active x.1 := by
  refine eraseActive_of_forall_ne ?_
  cases A <;> cases op <;> cases hop <;> simpa [sparesClients, Accumulator.active] using h

end ServiceState

open ServiceState

def SchedulerCall.isWork : SchedulerCall → Bool
  | ssdStart .. | netStart .. | ssdDone .. | netDone .. => true
  | _ => false

theorem rule_of_isWork {op : SchedulerCall} {r : op.Res} {used made : Multiset Carried}
    (hwork : op.isWork = true) (hr : Carried.rule A op r used made) :
    match A.starts op, A.finishes op with
    | some io, _ => ∃ g, A.entry g = io ∧ used = {.starting g} ∧ made = {.started g}
    | none, some (t,false) => used = {.reporting t} ∧ made = {.finished t}
    | none, _ => used = 0 ∧ made = 0 := by
  cases op <;> first | exact hr | cases hwork

theorem Balance.work {op : SchedulerCall} {r : op.Res} {used made : Multiset Carried}
    {s' : FalconKVScheduler} (now : ℕ) (h : Balance A x (used + rest)) (hwork : op.isWork = true)
    (hok : x.undisturbed op = true) (hs : x.1.step op now = some (r,s'))
    (hr : Carried.rule A op r used made) : Balance A (s',x.2) (made + rest) := by
  have hr := rule_of_isWork hwork hr
  cases Accumulator.active_step (A := A) hs with
  | start io hop hact =>
    rw [hop] at hr
    obtain ⟨g,rfl,rfl,rfl⟩ := hr
    rw [Accumulator.entry_channel] at hact
    rw [Multiset.singleton_add] at h ⊢
    exact h.start hact
  | finish t fromStore hop hact =>
    have hstart : A.starts op = none := by
      cases A <;> cases op <;> first | rfl | cases hop
    rw [hstart, hop] at hr
    cases fromStore with
    | false =>
      obtain ⟨rfl,rfl⟩ := hr
      rw [Multiset.singleton_add] at h ⊢
      exact h.finish hact
    | true =>
      obtain ⟨rfl,rfl⟩ := hr
      simp only [undisturbed, Bool.and_eq_true] at hok
      rw [sparesClients_finishes hok.2 hop] at hact
      exact h.keep hact
  | keep hstart hfinish hact =>
    rw [hstart, hfinish] at hr
    obtain ⟨rfl,rfl⟩ := hr
    exact h.keep hact

theorem keeps_balance (A : Accumulator) : Keeps serviceMachine (carrying A)
    (fun x op => x.undisturbed op = true) fun _ => Balance A where
  guar := by
    intros
    trivial
  step := by
    intro _ _ x op now r x' used made rest h hok hs hr
    obtain ⟨hstep,hnote⟩ := Machine.withRecord_step hs
    obtain ⟨s',record'⟩ := x'
    have hnote : record' = ServiceRecord.note op r x.1 x.2 := hnote
    rw [hnote]
    have hok' := hok
    simp only [undisturbed, Bool.and_eq_true] at hok'
    obtain ⟨⟨hpromise,hfresh⟩,-⟩ := hok'
    cases op with
    | decide request =>
      obtain ⟨rfl,rfl⟩ := hr
      cases hstep
      rw [zero_add] at h
      rw [Multiset.singleton_add]
      refine h.decide request _ ?_ (by cases A <;> rfl)
      simpa [freshTicket] using hfresh
    | respond request response =>
      obtain ⟨rfl,rfl⟩ := hr
      cases hstep
      rw [Multiset.singleton_add] at h
      rw [zero_add]
      exact h.respond
    | receiveReport report =>
      obtain ⟨rfl,rfl⟩ := hr
      cases hstep
      rw [zero_add] at h
      rw [Multiset.singleton_add]
      exact h.receive (by simpa [carriesGrant] using hpromise)
    | acknowledge report =>
      obtain ⟨rfl,rfl⟩ := hr
      cases hstep
      rw [Multiset.singleton_add] at h
      rw [zero_add]
      exact h.acknowledge
    | _ => exact h.work now rfl hok hstep hr

end

/-- Any number of handlers at one scheduler, interleaved at their atomic calls. -/
abbrev ServiceRun (ok : ServiceState → SchedulerCall → Prop)
    (tr : List (Event schedulerCalls ServiceState)) (P : Pool schedulerCalls ServiceState Unit) :
    Prop :=
  Run serviceMachine (fun p => ∃ op : SchedulerOp, p = op.run) ok ⟨(.create,.empty),[]⟩ tr P

theorem Balance.activeExact {A : Accumulator} {x : ServiceState} {held : Multiset Carried}
    (h : Balance A x held) : x.ActiveExact A where
  once := h.once
  complete := fun g hg => h.complete g (Multiset.mem_add.mpr (.inr hg))
  sound := by
    intro io hio
    obtain ⟨g,hg,htracks,rfl⟩ := h.sound io hio
    refine ⟨g,?_,htracks,rfl,fun hin => (h.gone _ (.inr hin)).2 ?_⟩
    · rw [← Multiset.mem_coe, h.grants]
      exact Multiset.mem_add.mpr (.inr hg)
    · rw [← A.entry_ticket g]
      exact List.mem_map_of_mem hio

/-- In every run in which reports carry the tickets of granted IOs, no ticket is given out
twice and the report of a store finds no IO with the ticket 0, both accumulators are exact;
when no handler is at work, they hold just the granted IOs that were not processed. -/
theorem activeExact_of_undisturbed {tr : List (Event schedulerCalls ServiceState)}
    {P : Pool schedulerCalls ServiceState Unit}
    (hrun : ServiceRun (fun x op => x.undisturbed op = true) tr P) (A : Accumulator) :
    P.state.ActiveExact A ∧ (P.Returned → ∀ io, io ∈ A.active P.state.1 ↔
      ∃ g ∈ P.state.2.granted, A.tracks g.1.ioChannel = true ∧ io = A.entry g ∧
        g.2.ticket ∉ P.state.2.processed) := by
  obtain ⟨gs,hgs,h⟩ := hrun.shares (keeps_balance A)
    (fun p hp => by obtain ⟨op,rfl⟩ := hp; exact uses_schedulerOp A op) ⟨[],.nil,.create⟩
  refine ⟨h.activeExact,fun hret io => ?_⟩
  rw [hret.sum_eq_zero hgs] at h
  constructor
  · intro hio
    obtain ⟨g,hg,htracks,rfl⟩ := h.sound io hio
    have hg : g ∈ P.state.2.granted := by simpa [started] using hg
    obtain ⟨-,-,-,-,hnot⟩ := h.activeExact.sound _ hio
    refine ⟨g,hg,htracks,rfl,fun hin => (h.gone _ (.inr hin)).2 ?_⟩
    rw [← A.entry_ticket g]
    exact List.mem_map_of_mem hio
  · rintro ⟨g,hg,htracks,rfl,hnot⟩
    refine h.activeExact.complete g hg htracks fun hrep => hnot ?_
    simpa using h.answered _ hrep

namespace ActiveSets

def localRead : IORequestData := ⟨7,0,1,4096,0,0,""⟩

/-- The report of a store that served a read of another node. -/
def served : StoreIOReport := ⟨1,3,9,4096,0,5,"10.0.0.2:8901"⟩

def completion (ticket : ℕ) : IOCompletionData := ⟨7,ticket,0,5,4096,0,0,1,""⟩

/-- A schedule of handlers that are all started at the beginning. -/
theorem serviceRun_of_schedule (check : ServiceState → SchedulerCall → Bool) (ops : List SchedulerOp)
    (threads : List ℕ) {γ : Type}
    {f : List (Event schedulerCalls ServiceState) × Pool schedulerCalls ServiceState Unit → γ} {v : γ}
    (h : (Pool.follow (M := serviceMachine) check (threads.map fun i => (i,(10 : ℕ)))
      ⟨(.create,.empty),ops.map SchedulerOp.run⟩).map f = some v) :
    ∃ tr P, ServiceRun (fun x op => check x op = true) tr P ∧ f (tr,P) = v := by
  refine run_of_schedule _ ?_ h
  intro p hp
  obtain ⟨op,-,rfl⟩ := List.mem_map.mp hp
  exact ⟨op,rfl⟩

end ActiveSets

open ActiveSets

/-- A store report comes in after the IO with the ticket 0 was reported. -/
theorem activeExact_of_undisturbed_served : ∃ tr P,
    ServiceRun (fun x op => x.undisturbed op = true) tr P ∧ P.state.ActiveExact .ssd ∧
      P.state.1.ssdActive = [⟨1,10,4096,0,none⟩] := by
  obtain ⟨tr,P,hrun,hP⟩ := serviceRun_of_schedule ServiceState.undisturbed
    [.request localRead,.request localRead,.report (completion 0),.storeReport served]
    [0,0,0,0,1,1,1,1,2,2,2,2,3,3] (f := fun y => y.2.state.1.ssdActive) rfl
  exact ⟨tr,P,hrun,(activeExact_of_undisturbed hrun .ssd).1,hP⟩

/-- The report of a store takes out the first IO that the scheduler granted. -/
theorem exists_run_not_activeExact : ∃ tr P,
    ServiceRun (fun x op => (x.carriesGrant op && x.freshTicket op) = true) tr P ∧
      ¬ P.state.ActiveExact .ssd := by
  obtain ⟨tr,P,hrun,hP⟩ := serviceRun_of_schedule (fun x op => x.carriesGrant op && x.freshTicket op)
    [.request localRead,.storeReport served] [0,0,0,0,1,1]
    (f := fun y => (y.2.state.1.ssdActive,y.2.state.2.granted,y.2.state.2.reported))
    (v := ([],[(localRead,⟨0,10,0⟩)],[])) rfl
  obtain ⟨hactive,hrest⟩ := Prod.mk.inj hP
  obtain ⟨hgranted,hreported⟩ := Prod.mk.inj hrest
  refine ⟨tr,P,hrun,fun h => ?_⟩
  have hin := h.complete (localRead,⟨0,10,0⟩) (by rw [hgranted]; exact List.mem_singleton_self _) rfl
    (by rw [hreported]; exact List.not_mem_nil)
  rw [show Accumulator.active .ssd P.state.1 = [] from hactive] at hin
  cases hin

end FalconKV
