import FalconKV.AtomicCalls.Stages
import FalconKV.Client.CoveredIO

/-! # IO on the books of the scheduler

Clients with a scheduler read and write only while the scheduler knows of it: an accumulator then
holds an entry with the channel of the transfer, with at least its bytes, and for an RPC with the
address of the other node. At any time the accumulators hold what the threads have asked for and
not reported yet, and nothing once all operations have returned.
-/
namespace FalconKV
open AtomicCalls

inductive IOStage
  | free
  | decided (g : Grant)
  | ssdStarted (g : Grant)
  | granted (g : Grant)
  | ssdFinished (g : Grant)

namespace IOStage

def grant : IOStage → Option Grant
  | free => none
  | decided g | ssdStarted g | granted g | ssdFinished g => some g

def booked (A : Accumulator) : IOStage → Option Grant
  | free | decided _ => none
  | ssdStarted g => if A = .ssd then some g else none
  | granted g => some g
  | ssdFinished g => if A = .net then some g else none

def after : IOStage → Answered scheduledCalls → IOStage
  | .free, ⟨.inr (.atScheduler (.decide request)),r⟩ => .decided (request,r)
  | .decided g, ⟨.inr (.atScheduler (.ssdStart ..)),_⟩ => .ssdStarted g
  | .ssdStarted g, ⟨.inr (.atScheduler (.netStart ..)),_⟩ => .granted g
  | .granted g, ⟨.inr (.atScheduler (.ssdDone ..)),_⟩ => .ssdFinished g
  | .ssdFinished _, ⟨.inr (.atScheduler (.netDone ..)),_⟩ => .free
  | l, _ => l

def need : scheduledCalls.Op → IOStage → Prop
  | .inl op, l => op.transfers = true → ∃ g, l = .granted g ∧ g.1.Covers op
  | .inr (.atScheduler (.decide _)), l => l = .free
  | .inr (.atScheduler (.ssdStart ticket startTsNs ioSize channel)), l =>
    ∃ g, l = .decided g ∧ Accumulator.ssd.entry g = ⟨ticket,startTsNs,ioSize,channel,none⟩
  | .inr (.atScheduler (.netStart ticket startTsNs ioSize channel nodeAddr)), l =>
    ∃ g, l = .ssdStarted g ∧ Accumulator.net.entry g = ⟨ticket,startTsNs,ioSize,channel,some nodeAddr⟩
  | .inr (.atScheduler (.ssdDone _ true)), l | .inr (.atScheduler (.netDone _ true)), l => l = .free
  | .inr (.atScheduler (.ssdDone ticket false)), l => ∃ g, l = .granted g ∧ g.2.ticket = ticket
  | .inr (.atScheduler (.netDone ticket false)), l => ∃ g, l = .ssdFinished g ∧ g.2.ticket = ticket
  | .inr _, _ => True

end IOStage

abbrev ioStages : Staging scheduledCalls IOStage := ⟨.free,IOStage.after,IOStage.need⟩

namespace IOStage
variable {A : Accumulator} {l : IOStage} {g : Grant} {op : SchedulerCall} {r : op.Res} {io : ActiveIO} {t : ℕ}

theorem grant_of_booked (h : l.booked A = some g) : l.grant = some g := by
  cases l <;> cases A <;> first | exact h | cases h

/-- The call with which an accumulator is told of an IO. -/
theorem booked_start (hneed : need (.inr (.atScheduler op)) l) (hstart : A.starts op = some io) :
    ∃ g, A.entry g = io ∧ l.grant = some g ∧ l.booked A = none ∧
      (l.after ⟨.inr (.atScheduler op),r⟩).booked A = some g := by
  cases op with
  | ssdStart ticket startTsNs ioSize channel =>
    cases A with
    | net => cases hstart
    | ssd =>
      obtain ⟨g,rfl,hentry⟩ := hneed
      exact ⟨g,hentry.trans (Option.some.inj hstart),rfl,rfl,rfl⟩
  | netStart ticket startTsNs ioSize channel nodeAddr =>
    cases A with
    | ssd => cases hstart
    | net =>
      obtain ⟨g,rfl,hentry⟩ := hneed
      exact ⟨g,hentry.trans (Option.some.inj hstart),rfl,rfl,rfl⟩
  | _ => cases A <;> cases hstart

/-- The call with which a client's report reaches an accumulator. -/
theorem booked_finish (hneed : need (.inr (.atScheduler op)) l) (hfinish : A.finishes op = some (t,false)) :
    ∃ g, g.2.ticket = t ∧ l.booked A = some g ∧
      (l.after ⟨.inr (.atScheduler op),r⟩).booked A = none := by
  cases op with
  | ssdDone ticket fromStore =>
    cases A with
    | net => cases hfinish
    | ssd =>
      cases hfinish
      obtain ⟨g,rfl,hticket⟩ := hneed
      exact ⟨g,hticket,rfl,rfl⟩
  | netDone ticket fromStore =>
    cases A with
    | ssd => cases hfinish
    | net =>
      cases hfinish
      obtain ⟨g,rfl,hticket⟩ := hneed
      exact ⟨g,hticket,rfl,rfl⟩
  | _ => cases A <;> cases hfinish

/-- The report of a store reaches an accumulator in a thread that has no grant. -/
theorem booked_storeDone (hneed : need (.inr (.atScheduler op)) l) (hfinish : A.finishes op = some (t,true)) :
    (l.after ⟨.inr (.atScheduler op),r⟩).booked A = l.booked A := by
  cases op with
  | ssdDone ticket fromStore =>
    cases A with
    | net => cases hfinish
    | ssd =>
      cases hfinish
      obtain rfl := hneed
      rfl
  | netDone ticket fromStore =>
    cases A with
    | ssd => cases hfinish
    | net =>
      cases hfinish
      obtain rfl := hneed
      rfl
  | _ => cases A <;> cases hfinish

/-- The other calls at the scheduler are of no concern to the accumulator. -/
theorem booked_keep (hneed : need (.inr (.atScheduler op)) l) (hstart : A.starts op = none)
    (hfinish : A.finishes op = none) :
    (l.after ⟨.inr (.atScheduler op),r⟩).booked A = l.booked A := by
  cases op with
  | decide request =>
    obtain rfl := hneed
    rfl
  | ssdStart ticket startTsNs ioSize channel =>
    cases A with
    | ssd => cases hstart
    | net =>
      obtain ⟨g,rfl,-⟩ := hneed
      rfl
  | netStart ticket startTsNs ioSize channel nodeAddr =>
    cases A with
    | net => cases hstart
    | ssd =>
      obtain ⟨g,rfl,-⟩ := hneed
      rfl
  | ssdDone ticket fromStore =>
    cases A with
    | ssd => cases hfinish
    | net =>
      cases fromStore with
      | false =>
        obtain ⟨g,rfl,-⟩ := hneed
        rfl
      | true =>
        obtain rfl := hneed
        rfl
  | netDone ticket fromStore =>
    cases A with
    | net => cases hfinish
    | ssd =>
      cases fromStore with
      | false =>
        obtain ⟨g,rfl,-⟩ := hneed
        rfl
      | true =>
        obtain rfl := hneed
        rfl
  | respond | receiveReport | acknowledge => cases l <;> rfl

/-- Only the decision gives a thread a grant. -/
theorem grant_after (hdecide : ∀ request, op ≠ .decide request)
    (h : (l.after ⟨.inr (.atScheduler op),r⟩).grant = some g) : l.grant = some g := by
  cases op with
  | decide request => exact absurd rfl (hdecide request)
  | _ => cases l <;> first | exact h | cases h

end IOStage

structure IOBooks (A : Accumulator) (held : ℕ → Option Grant) (ios : List ActiveIO) : Prop where
  once : (ios.map ActiveIO.ticket).Nodup
  mem : ∀ io, io ∈ ios ↔ ∃ i g, held i = some g ∧ A.tracks g.1.ioChannel = true ∧ io = A.entry g

structure TicketsApart (held : ℕ → Option Grant) (next : ℕ) : Prop where
  given : ∀ i g, held i = some g → g.2.ticket < next
  apart : ∀ i j g g', held i = some g → held j = some g' → g.2.ticket = g'.2.ticket → i = j

section
variable {A : Accumulator} {held granted : ℕ → Option Grant} {ios : List ActiveIO} {next i : ℕ} {g : Grant}

theorem TicketsApart.decide (h : TicketsApart granted next) (request : IORequestData) {resp : IOResponseData}
    (hticket : resp.ticket = next) :
    TicketsApart (Function.update granted i (some (request,resp))) (next + 1) := by
  have hold : ∀ {j g}, Function.update granted i (some (request,resp)) j = some g → j ≠ i →
      granted j = some g := by
    intro j g hj hne
    rwa [Function.update_of_ne hne] at hj
  have hnew : ∀ {g}, Function.update granted i (some (request,resp)) i = some g → g.2.ticket = next := by
    intro g hi
    rw [Function.update_self] at hi
    rw [← Option.some.inj hi]
    exact hticket
  constructor
  · intro j g hj
    by_cases hne : j = i
    · subst hne
      rw [hnew hj]
      exact Nat.lt_succ_self _
    · exact Nat.lt_succ_of_lt (h.given j g (hold hj hne))
  · intro j j' g g' hj hj' heq
    by_cases hne : j = i <;> by_cases hne' : j' = i
    · rw [hne, hne']
    · subst hne
      have hlt := h.given j' g' (hold hj' hne')
      have hticket := hnew hj
      omega
    · subst hne'
      have hlt := h.given j g (hold hj hne)
      have hticket := hnew hj'
      omega
    · exact h.apart j j' g g' (hold hj hne) (hold hj' hne') heq

/-- A part of the grants. -/
theorem TicketsApart.mono {granted' : ℕ → Option Grant} (h : TicketsApart granted next)
    (hsub : ∀ j g, granted' j = some g → granted j = some g) : TicketsApart granted' next := by
  constructor
  · intro j g hj
    exact h.given j g (hsub j g hj)
  · intro j j' g g' hj hj' heq
    exact h.apart j j' g g' (hsub j g hj) (hsub j' g' hj') heq

namespace IOBooks

theorem start (h : IOBooks A held ios) (hapart : TicketsApart granted next)
    (hheld : ∀ j g, held j = some g → granted j = some g) (hi : granted i = some g) (hnone : held i = none) :
    IOBooks A (Function.update held i (some g)) (pushActive (A.tracks g.1.ioChannel) (A.entry g) ios) := by
  have hfresh : (A.entry g).ticket ∉ ios.map ActiveIO.ticket := by
    intro hmem
    obtain ⟨io,hio,hticket⟩ := List.mem_map.mp hmem
    obtain ⟨j,g',hj,-,rfl⟩ := (h.mem io).mp hio
    rw [Accumulator.entry_ticket,Accumulator.entry_ticket] at hticket
    obtain rfl := hapart.apart j i g' g (hheld j g' hj) hi hticket
    rw [hnone] at hj
    cases hj
  constructor
  · rw [map_ticket_pushActive]
    by_cases htracks : A.tracks g.1.ioChannel = true
    · rw [if_pos htracks]
      apply List.nodup_append'.mpr ⟨h.once,List.nodup_singleton _,?_⟩
      intro t ht ht'
      rw [List.mem_singleton.mp ht'] at ht
      exact hfresh ht
    · rw [if_neg htracks,List.append_nil]
      exact h.once
  · intro io
    rw [mem_pushActive,h.mem io]
    constructor
    · rintro (⟨j,g',hj,htracks,rfl⟩ | ⟨htracks,rfl⟩)
      · have hne : j ≠ i := by
          rintro rfl
          rw [hnone] at hj
          cases hj
        exact ⟨j,g',by rwa [Function.update_of_ne hne],htracks,rfl⟩
      · exact ⟨i,g,Function.update_self ..,htracks,rfl⟩
    · rintro ⟨j,g',hj,htracks,rfl⟩
      by_cases hne : j = i
      · subst hne
        rw [Function.update_self] at hj
        obtain rfl := Option.some.inj hj
        exact .inr ⟨htracks,rfl⟩
      · rw [Function.update_of_ne hne] at hj
        exact .inl ⟨j,g',hj,htracks,rfl⟩

theorem finish (h : IOBooks A held ios) (hapart : TicketsApart granted next)
    (hheld : ∀ j g, held j = some g → granted j = some g) (hi : held i = some g) :
    IOBooks A (Function.update held i none) (eraseActive g.2.ticket ios) := by
  have herase : ∀ io, io ∈ eraseActive g.2.ticket ios ↔ io ∈ ios ∧ io.ticket ≠ g.2.ticket := by
    intro io
    constructor
    · intro hio
      refine ⟨mem_of_mem_eraseActive hio,fun hticket => ?_⟩
      apply not_mem_eraseActive h.once (t := g.2.ticket)
      exact List.mem_map.mpr ⟨io,hio,hticket⟩
    · rintro ⟨hio,hne⟩
      exact (mem_eraseActive_of_ne hne).mpr hio
  constructor
  · exact ((eraseActive_sublist _ _).map ActiveIO.ticket).nodup h.once
  · intro io
    rw [herase io,h.mem io]
    constructor
    · rintro ⟨⟨j,g',hj,htracks,rfl⟩,hticket⟩
      have hne : j ≠ i := by
        rintro rfl
        obtain rfl := Option.some.inj (hi.symm.trans hj)
        exact hticket (Accumulator.entry_ticket _)
      exact ⟨j,g',by rwa [Function.update_of_ne hne],htracks,rfl⟩
    · rintro ⟨j,g',hj,htracks,rfl⟩
      have hne : j ≠ i := by
        rintro rfl
        rw [Function.update_self] at hj
        cases hj
      rw [Function.update_of_ne hne] at hj
      refine ⟨⟨j,g',hj,htracks,rfl⟩,fun hticket => hne ?_⟩
      rw [Accumulator.entry_ticket] at hticket
      exact hapart.apart j i g' g (hheld j g' hj) (hheld i g hi) hticket

end IOBooks

end

namespace ScheduledOps
open IOStage

variable {α β : Type} {D : Deployment} {client i : ℕ} {request : IORequestData} {g : Grant} {l : IOStage}

abbrev Ends (l : IOStage) {α : Type} (_ : α) (l' : IOStage) : Prop := l' = l

theorem after_client (l : IOStage) {op : ClientCall} (r : op.Res) :
    l.after ⟨.inl op,r⟩ = l := by
  cases l <;> rfl

/-- Work that moves no bytes, in any stage. -/
theorem kept_work {p : ClientProg α} (hp : p.Makes ClientCall.Still) :
    ioStages.ledger.Kept (Ends l) (work p) l := by
  apply Staging.kept_within (P := fun op : scheduledCalls.Op => ∃ o : ClientCall, op = Sum.inl o ∧ o.Still)
  · apply Prog.makes_interp ?_ hp
    intro op hop
    exact Prog.makes_perform ⟨op,rfl,hop⟩
  · rintro _ ⟨op,rfl,hop⟩
    refine ⟨fun htransfer => ?_,fun r => after_client l r⟩
    cases htransfer.symm.trans hop

/-- Work under a grant whose request covers it. -/
theorem kept_io {p : ClientProg α} (hp : p.Makes g.1.Allows) :
    ioStages.ledger.Kept (Ends (.granted g)) (work p) (.granted g) := by
  apply Staging.kept_within (P := fun op : scheduledCalls.Op => ∃ o : ClientCall, op = Sum.inl o ∧ g.1.Allows o)
  · apply Prog.makes_interp ?_ hp
    intro op hop
    exact Prog.makes_perform ⟨op,rfl,hop⟩
  · rintro _ ⟨op,rfl,hop⟩
    exact ⟨fun htransfer => ⟨g,rfl,hop htransfer⟩,fun r => rfl⟩

theorem kept_requestIO (request : IORequestData) :
    ioStages.ledger.Kept (fun resp l => l = .granted (request,resp)) ( requestIO true request) .free := by
  intro resp _
  refine ⟨.decided (request,resp),⟨rfl,rfl⟩,fun _ _ => ?_⟩
  refine ⟨.ssdStarted (request,resp),⟨⟨_,rfl,rfl⟩,rfl⟩,fun _ _ => ?_⟩
  refine ⟨.granted (request,resp),⟨⟨_,rfl,rfl⟩,rfl⟩,fun _ _ => ?_⟩
  exact ⟨.granted (request,resp),⟨trivial,rfl⟩,rfl⟩

theorem kept_reportIOCompletion {report : IOCompletionData} (hticket : g.2.ticket = report.ticket) :
    ioStages.ledger.Kept (Ends .free) (reportIOCompletion true report) (.granted g) := by
  intro _ _
  refine ⟨.granted g,⟨trivial,rfl⟩,fun _ _ => ?_⟩
  refine ⟨.ssdFinished g,⟨⟨g,rfl,hticket⟩,rfl⟩,fun _ _ => ?_⟩
  refine ⟨.free,⟨⟨g,rfl,hticket⟩,rfl⟩,fun _ _ => ?_⟩
  exact ⟨.free,⟨trivial,rfl⟩,rfl⟩

/-- Whoever asks for an IO may do it, and reports it. -/
theorem kept_admitted {report : IOCompletionData} {succeeded : α → Bool} {io : ClientProg α}
    (hio : io.Makes request.Allows) :
    ioStages.ledger.Kept (Ends .free) (admitted true request report succeeded io) .free := by
  apply Staging.kept_call trivial
  intro requestTs
  apply Ledger.kept_bind
  apply Ledger.kept_mono ( kept_requestIO _)
  rintro resp _ rfl
  apply Staging.kept_call trivial
  intro startTs
  apply Staging.kept_before (kept_io ?_)
  · intro results
    apply Staging.kept_call trivial
    intro doneTs
    apply Staging.kept_before (kept_reportIOCompletion rfl)
    intro _
    rfl
  · apply hio.mono
    intro op hop htransfer
    have hcovers := hop htransfer
    cases op with
    | atStore i op => cases op <;> exact hcovers
    | forClient i op => cases op <;> exact hcovers
    | _ => exact hcovers

section
variable {fetches : List Fetch} {items : List (KeyDescriptor × BufferInfo)} {keys : List Key}
  {buffers : List BufferInfo}

theorem kept_readLocal (hsum : ((fetches.map Fetch.buffer).map BufferInfo.size).sum < 2^64) :
    ioStages.ledger.Kept (Ends .free) (readLocal D true i fetches) .free := by
  unfold readLocal
  split
  · rfl
  · apply Staging.kept_before (kept_admitted ?_)
    · rintro ⟨status,buffers⟩
      rfl
    · apply allows_batchRead (.inl rfl)
      intro item hitem
      obtain ⟨f,hf,rfl⟩ := List.mem_map.mp hitem
      exact size_le_ioSize hsum f hf

theorem kept_localReads (hsum : ((fetches.map Fetch.buffer).map BufferInfo.size).sum < 2^64) :
    ioStages.ledger.Kept (Ends .free) (localReads D true client fetches) .free := by
  unfold localReads
  cases D.localStore client with
  | none => rfl
  | some i => exact kept_readLocal hsum

theorem kept_readNode (hsum : ((fetches.map Fetch.buffer).map BufferInfo.size).sum < 2^64) :
    ioStages.ledger.Kept (Ends .free) (readNode D true client fetches) .free := by
  unfold readNode
  split
  · rfl
  · refine Staging.kept_before (kept_admitted ?_) fun _ => rfl
    exact allows_nodeBatchRead (.inl rfl) (size_le_ioSize hsum)

theorem kept_readRpc {addr : String} {storeId : ℕ}
    (hsum : ((fetches.map Fetch.buffer).map BufferInfo.size).sum < 2^64) :
    ioStages.ledger.Kept (Ends .free) (readRpc D true addr storeId fetches) .free := by
  refine Staging.kept_before (kept_admitted ?_) fun _ => rfl
  exact allows_remoteBatchRead rfl rfl (size_le_ioSize hsum)

theorem kept_readRemote (storeId : ℕ)
    (hsum : ((fetches.map Fetch.buffer).map BufferInfo.size).sum < 2^64) :
    ioStages.ledger.Kept (Ends .free) (readRemote D true client fetches storeId) .free := by
  have hgroup : (((fetches.filter fun f => f.desc.storeId == storeId).map Fetch.buffer).map
      BufferInfo.size).sum < 2^64 :=
    (List.Sublist.sum_le_sum ((List.filter_sublist.map _).map _) fun _ _ => Nat.zero_le _).trans_lt hsum
  unfold readRemote
  split
  · rfl
  · next first rest heq =>
    rw [heq] at hgroup
    apply Staging.kept_before (kept_work (still_remoteAddr first.desc))
    intro addr
    split
    · rfl
    · exact kept_readRpc hgroup

theorem kept_batchGet (hsum : bytesIn items < 2^64) :
    ioStages.ledger.Kept (Ends .free) (batchGet D true client items) .free := by
  have hpart : ∀ type, (((ClientOps.fetchesOf items type).map Fetch.buffer).map BufferInfo.size).sum < 2^64 :=
    fun type => (sum_fetchesOf_le items type).trans_lt hsum
  apply Staging.kept_before (kept_localReads (hpart .localDirect))
  intro localResults
  apply Staging.kept_before (kept_readNode (hpart .nodeDirect))
  intro nodeResults
  have hremote : ∀ storeId ∈ D.groups ((ClientOps.fetchesOf items .remoteRpc).map fun f => f.desc.storeId),
      ioStages.ledger.Kept (Ends .free)
        (readRemote D true client (ClientOps.fetchesOf items .remoteRpc) storeId) .free :=
    fun storeId _ => kept_readRemote storeId (hpart .remoteRpc)
  exact Staging.kept_before (Staging.kept_mapEach hremote) fun _ => rfl

theorem kept_batchGetSync (hsum : (buffers.map BufferInfo.size).sum < 2^64) :
    ioStages.ledger.Kept (Ends .free) (batchGetSync D true client keys buffers) .free := by
  unfold batchGetSync
  split
  · rfl
  · next hlength =>
    apply Staging.kept_before (kept_work (still_findDescs keys))
    intro descs
    refine Staging.kept_before (kept_batchGet ?_) fun _ => rfl
    exact (bytesIn_validReads_le _ (not_not.mp hlength)).trans_lt hsum

theorem kept_batchPut (hsum : (buffers.map BufferInfo.size).sum < 2^64) :
    ioStages.ledger.Kept (Ends .free) (batchPut D true client keys buffers) .free := by
  unfold batchPut
  split
  · rfl
  · cases D.localStore client with
    | none => rfl
    | some i =>
      have hwrite : ioStages.ledger.Kept (Ends .free) (writeBatch D true i keys buffers) .free := by
        apply kept_admitted
        apply allows_atStore
        apply allows_batchPut rfl
        intro size hsize
        obtain ⟨buffer,hbuffer,rfl⟩ := List.mem_map.mp hsize
        exact size_le_totalSize hsum hbuffer
      apply Staging.kept_before hwrite
      intro results
      refine Staging.kept_before (kept_work ?_) fun _ => rfl
      apply Prog.makes_forEach
      intro x
      unfold ClientOps.rememberPut
      split
      · exact Prog.makes_perform rfl
      · trivial

end

theorem kept_storeReport (report : StoreIOReport) :
    ioStages.ledger.Kept (Ends .free) (runScheduler (SchedulerServiceImpl.storeReportIO report)) .free := by
  intro _ _
  refine ⟨.free,⟨rfl,rfl⟩,fun _ _ => ?_⟩
  exact ⟨.free,⟨rfl,rfl⟩,rfl⟩

end ScheduledOps

def ClientOp.OfClient : ClientOp → Prop
  | .store .. => False
  | .batchExist .. => True
  | .batchPut _ _ buffers | .batchGetSync _ _ buffers => (buffers.map BufferInfo.size).sum < 2^64

def BookedStart (D : Deployment) (p : ScheduledProg (Option ClientReply)) : Prop :=
  (∃ op : ClientOp, op.OfClient ∧ p = some <$> op.runScheduled D true) ∨
    ∃ report, p = (fun _ => none) <$> ScheduledOps.runScheduler (SchedulerServiceImpl.storeReportIO report)

def ScheduledWorld.inOrder (x : ScheduledWorld) : scheduledCalls.Op → Bool
  | .inr (.atScheduler (.decide _)) => decide (x.scheduler.ticketCounter + 1 < 2^64)
  | .inr (.atScheduler (.ssdDone ticket true)) => x.scheduler.ssdActive.all fun io => io.ticket != ticket
  | .inr (.atScheduler (.netDone ticket true)) => x.scheduler.netActive.all fun io => io.ticket != ticket
  | _ => true

abbrev BookedRun (D : Deployment) : List (Event scheduledCalls ScheduledWorld) →
    Pool scheduledCalls ScheduledWorld (Option ClientReply) → Prop :=
  Run (scheduledMachine D) (BookedStart D) (fun x op => x.inOrder op = true) ⟨.init D,[]⟩

theorem ScheduledOps.kept_start {D : Deployment} {p : ScheduledProg (Option ClientReply)}
    (hp : BookedStart D p) : ioStages.ledger.Kept (Ends .free) p .free := by
  rcases hp with ⟨op,hop,rfl⟩ | ⟨report,rfl⟩
  · have hrun : ioStages.ledger.Kept (Ends .free) (op.runScheduled D true) .free := by
      cases op with
      | store => cases hop
      | batchExist client keys =>
        exact kept_work ((still_batchExist keys).bind fun _ => trivial)
      | batchPut client keys buffers => exact Staging.kept_before (kept_batchPut hop) fun _ => rfl
      | batchGetSync client keys buffers =>
        exact Staging.kept_before (kept_batchGetSync hop) fun _ => rfl
    exact Staging.kept_before hrun fun _ => rfl
  · exact Staging.kept_before (kept_storeReport report) fun _ => rfl

/-- The books of both accumulators, and the tickets that are out. -/
structure BooksInOrder (σ : ℕ → IOStage) (s : FalconKVScheduler) : Prop where
  books : ∀ A : Accumulator, IOBooks A (fun i => (σ i).booked A) (A.active s)
  tickets : TicketsApart (fun i => (σ i).grant) s.ticketCounter

theorem update_comp {γ : Type} (f : IOStage → γ) (σ : ℕ → IOStage) (i : ℕ) (l : IOStage) :
    (fun j => f (Function.update σ i l j)) = Function.update (fun j => f (σ j)) i (f l) := by
  funext j
  by_cases hj : j = i
  · subst hj
    rw [Function.update_self,Function.update_self]
  · rw [Function.update_of_ne hj,Function.update_of_ne hj]

namespace BooksInOrder
variable {σ : ℕ → IOStage} {s s' : FalconKVScheduler} {i : ℕ} {A : Accumulator}

theorem init : BooksInOrder (fun _ => .free) .create := by
  refine ⟨fun A => ⟨?_,fun io => ?_⟩,⟨fun _ _ h => ?_,fun _ _ _ _ h => ?_⟩⟩
  · cases A <;> exact .nil
  · constructor
    · intro h
      cases A <;> cases h
    · rintro ⟨_,_,h,-⟩
      cases h
  · cases h
  · cases h

theorem booked_grant (A : Accumulator) : ∀ j g, (σ j).booked A = some g → (σ j).grant = some g :=
  fun _ _ => IOStage.grant_of_booked

/-- What a call at the scheduler does to the books of one accumulator. -/
theorem books_step {op : SchedulerCall} {now : ℕ} {r : op.Res} (h : BooksInOrder σ s)
    (hneed : IOStage.need (.inr (.atScheduler op)) (σ i))
    (hspare : ∀ t, A.finishes op = some (t,true) → ∀ io ∈ A.active s, io.ticket ≠ t)
    (hs : s.step op now = some (r,s')) :
    IOBooks A (Function.update (fun j => (σ j).booked A) i
      (((σ i).after ⟨.inr (.atScheduler op),r⟩).booked A)) (A.active s') := by
  cases Accumulator.active_step (A := A) hs with
  | start io hstart hios =>
    obtain ⟨g,rfl,hgrant,hnone,hafter⟩ := IOStage.booked_start (r := r) hneed hstart
    rw [hios, hafter, Accumulator.entry_channel]
    exact (h.books A).start h.tickets (booked_grant A) hgrant hnone
  | finish t fromStore hfinish hios =>
    cases fromStore with
    | false =>
      obtain ⟨g,rfl,hbooked,hafter⟩ := IOStage.booked_finish (r := r) hneed hfinish
      rw [hios, hafter]
      exact (h.books A).finish h.tickets (booked_grant A) hbooked
    | true =>
      rw [hios, IOStage.booked_storeDone hneed hfinish, eraseActive_of_forall_ne (hspare t hfinish)]
      exact (Function.update_eq_self i fun j => (σ j).booked A).symm ▸ h.books A
  | keep hstart hfinish hios =>
    rw [hios, IOStage.booked_keep hneed hstart hfinish]
    exact (Function.update_eq_self i fun j => (σ j).booked A).symm ▸ h.books A

/-- Only the decision gives out a ticket. -/
theorem tickets_step {op : SchedulerCall} {now : ℕ} {r : op.Res} (h : BooksInOrder σ s)
    (hneed : IOStage.need (.inr (.atScheduler op)) (σ i))
    (hroom : ∀ request, op = .decide request → s.ticketCounter + 1 < 2^64)
    (hs : s.step op now = some (r,s')) :
    TicketsApart (Function.update (fun j => (σ j).grant) i
      ((σ i).after ⟨.inr (.atScheduler op),r⟩).grant) s'.ticketCounter := by
  by_cases hdecide : ∃ request, op = .decide request
  · obtain ⟨request,rfl⟩ := hdecide
    have hfree : σ i = .free := hneed
    have hcounter : (s.ticketCounter + 1) % 2^64 = s.ticketCounter + 1 :=
      Nat.mod_eq_of_lt (hroom request rfl)
    cases hs
    rw [hfree]
    dsimp only
    rw [hcounter]
    exact h.tickets.decide request rfl
  · have hkept : s'.ticketCounter = s.ticketCounter := by
      cases op with
      | decide request => exact absurd ⟨request,rfl⟩ hdecide
      | _ => cases hs; rfl
    rw [hkept]
    apply h.tickets.mono
    intro j g hj
    by_cases hne : j = i
    · subst hne
      rw [Function.update_self] at hj
      exact IOStage.grant_after (fun request heq => hdecide ⟨request,heq⟩) hj
    · rwa [Function.update_of_ne hne] at hj

end BooksInOrder

theorem booksInOrder_step {D : Deployment} {σ : ℕ → IOStage} {i : ℕ} {x x' : ScheduledWorld}
    {op : scheduledCalls.Op} {c : ScheduledChoice} {r : scheduledCalls.Res op}
    (h : BooksInOrder σ x.scheduler) (hneed : IOStage.need op (σ i)) (hok : x.inOrder op = true)
    (hs : (scheduledMachine D).step op c x = some (r,x')) :
    BooksInOrder (Function.update σ i ((σ i).after ⟨op,r⟩)) x'.scheduler := by
  rcases op with op | op
  · obtain ⟨y,-,he⟩ := Option.map_eq_some_iff.mp hs
    cases he
    rw [ScheduledOps.after_client,Function.update_eq_self]
    exact h
  cases op with
  | getCurrentTimeNs =>
    cases hs
    have hsame : (σ i).after ⟨.inr .getCurrentTimeNs,c.now⟩ = σ i := by cases σ i <;> rfl
    rw [hsame,Function.update_eq_self]
    exact h
  | atScheduler op =>
    obtain ⟨y,hstep,he⟩ := Option.map_eq_some_iff.mp hs
    cases he
    constructor
    · intro A
      rw [update_comp (IOStage.booked A)]
      apply h.books_step hneed ?_ hstep
      intro t hfinish io hio heq
      cases op with
      | ssdDone ticket fromStore =>
        cases A with
        | net => cases hfinish
        | ssd =>
          cases hfinish
          simpa [heq] using List.all_eq_true.mp hok io hio
      | netDone ticket fromStore =>
        cases A with
        | ssd => cases hfinish
        | net =>
          cases hfinish
          simpa [heq] using List.all_eq_true.mp hok io hio
      | _ => cases A <;> cases hfinish
    · rw [update_comp IOStage.grant]
      apply h.tickets_step hneed ?_ hstep
      rintro request rfl
      exact of_decide_eq_true hok

/-- What the threads have asked for, each as far as its calls so far have brought it. -/
abbrev ioStageOf (tr : List (Event scheduledCalls ScheduledWorld)) (i : ℕ) : IOStage :=
  ioStages.stage (callsOf i tr)

/-- While a call moves bytes, an accumulator holds the entry of a request that speaks of this call. -/
def TransfersBooked (tr : List (Event scheduledCalls ScheduledWorld)) : Prop :=
  ∀ (tr₁ tr₂ : List (Event scheduledCalls ScheduledWorld)) (e : Event scheduledCalls ScheduledWorld)
    (op : ClientCall), tr = tr₁ ++ e :: tr₂ → e.op = .inl op → op.transfers = true →
      ∃ (A : Accumulator) (g : Grant), ioStageOf tr₁ e.thread = .granted g ∧ g.1.Covers op ∧
        A.tracks g.1.ioChannel = true ∧ A.entry g ∈ A.active e.before.scheduler

/-- Whoever has returned has reported what it asked for. -/
theorem free_of_returned {D : Deployment} {tr : List (Event scheduledCalls ScheduledWorld)}
    {P : Pool scheduledCalls ScheduledWorld (Option ClientReply)} (hrun : BookedRun D tr P)
    (hreturned : P.Returned) (i : ℕ) : ioStageOf tr i = .free := by
  rcases Nat.lt_or_ge i P.threads.length with hi | hi
  · obtain ⟨p,hp⟩ : ∃ p, P.threads[i]? = some p := ⟨_,List.getElem?_eq_getElem hi⟩
    have hkept := Staging.run_stage (fun p hp => ScheduledOps.kept_start hp) hrun hp
    obtain ⟨a,rfl⟩ := hreturned.ret (List.mem_of_getElem? hp)
    exact hkept
  · have hnone := callsOf_eq_nil hrun.thread_lt hi
    rw [ioStageOf, hnone]
    rfl

/-- In every run of clients that have a scheduler, no byte is moved that is not on its books; the
accumulators hold at any time what the threads have asked for and not reported, each once and under
tickets of their own; and nothing when all operations have returned. -/
theorem transfers_booked {D : Deployment} {tr : List (Event scheduledCalls ScheduledWorld)}
    {P : Pool scheduledCalls ScheduledWorld (Option ClientReply)} (hrun : BookedRun D tr P) :
    TransfersBooked tr ∧ BooksInOrder (ioStageOf tr) P.state.scheduler ∧
      (P.Returned → ∀ A : Accumulator, A.active P.state.scheduler = []) := by
  have hbooks : ∀ {tr P}, BookedRun D tr P → BooksInOrder (ioStageOf tr) P.state.scheduler := by
    intro tr P hrun
    apply Staging.run_stages (fun p hp => ScheduledOps.kept_start hp)
      (fun σ x => BooksInOrder σ x.scheduler) BooksInOrder.init ?_ hrun
    intro σ i x op c r x' h hneed hok hs
    exact booksInOrder_step h hneed hok hs
  refine ⟨?_,hbooks hrun,?_⟩
  · intro tr₁ tr₂ e op htr hop htransfer
    obtain ⟨P₁,hrun₁,hstate,-⟩ := hrun.at_event htr
    have hneed := Staging.run_need (fun p hp => ScheduledOps.kept_start hp) hrun htr
    rw [hop] at hneed
    obtain ⟨g,hstage,hcovers⟩ := hneed htransfer
    obtain ⟨A,htracks⟩ := hcovers.tracked htransfer
    refine ⟨A,g,hstage,hcovers,htracks,?_⟩
    rw [← hstate]
    apply (((hbooks hrun₁).books A).mem _).mpr
    exact ⟨e.thread,g,congrArg (IOStage.booked A) hstage,htracks,rfl⟩
  · intro hreturned A
    apply List.eq_nil_iff_forall_not_mem.mpr
    intro io hio
    obtain ⟨i,g,hbooked,-⟩ := (((hbooks hrun).books A).mem io).mp hio
    have hfree : ioStageOf tr i = .free := free_of_returned hrun hreturned i
    rw [hfree] at hbooked
    cases hbooked

namespace BookedIO

def getSecond : ClientOp := .batchGetSync 1 ["a"] [⟨Release.value 0,8⟩]

def programs : List (ScheduledProg (Option ClientReply)) :=
  [some <$> ScheduledIO.putFirst.runScheduled ClientOps.twoStores true,
    some <$> getSecond.runScheduled ClientOps.twoStores true,
    (fun _ => none) <$> ScheduledOps.runScheduler (SchedulerServiceImpl.storeReportIO ⟨1,3,0,8,0,0,""⟩)]

def turns : List (ℕ × ScheduledChoice) :=
  (List.replicate 17 0 ++ List.replicate 13 1 ++ [2,2]).map fun i =>
    (i,{ client := { records := [ClientOps.atFirst] } })

end BookedIO

open ScheduledIO BookedIO

/-- The read is not reported yet. -/
theorem transfers_booked_two : ∃ tr P, BookedRun ClientOps.twoStores tr P ∧ TransfersBooked tr ∧
    BooksInOrder (ioStageOf tr) P.state.scheduler ∧
    P.state.scheduler = ⟨2,[],[⟨1,0,8,2,some "first"⟩]⟩ := by
  have hstart : ∀ p ∈ programs, BookedStart ClientOps.twoStores p := by
    have hsmall : 8 < 2^64 := by decide
    intro p hp
    rcases List.mem_cons.mp hp with rfl | hp
    · exact .inl ⟨putFirst,hsmall,rfl⟩
    rcases List.mem_cons.mp hp with rfl | hp
    · exact .inl ⟨getSecond,hsmall,rfl⟩
    obtain rfl := List.mem_singleton.mp hp
    exact .inr ⟨_,rfl⟩
  have hfollow : (Pool.follow (M := scheduledMachine ClientOps.twoStores) ScheduledWorld.inOrder turns
      ⟨.init ClientOps.twoStores,programs⟩).map (fun y => y.2.state.scheduler) =
        some ⟨2,[],[⟨1,0,8,2,some "first"⟩]⟩ := rfl
  obtain ⟨tr,P,hrun,hP⟩ := run_of_schedule (BookedStart ClientOps.twoStores) hstart hfollow
  obtain ⟨hbooked,hbooks,-⟩ := transfers_booked hrun
  exact ⟨tr,P,hrun,hbooked,hbooks,hP⟩

end FalconKV
