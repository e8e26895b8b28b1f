import FalconKV.Client.Positions
import FalconKV.Python.BridgeProcess

/-! # Closing a bridge

`Close` stops the threads and destroys the parts in an order in which nothing is used any more
when it is destroyed: the workers and the client, the server, the background threads of the store,
and then what they worked on. The reports to the scheduler are another matter: their threads are
detached, and nothing waits for them. If they are done when the proxy of the store is destroyed,
no thread ever goes through a part that is gone, and in the end nobody is left, and nothing.
-/
namespace FalconKV
open AtomicCalls

def StoreCall.parts : StoreCall → Finset ProcessPart
  | getWallTimeMs => ∅
  | indexGet _ | indexBatchContains _ | indexPut .. | indexRemove .. | getAllCommittedEntries => {.metaIndex}
  | getLRUCandidates _ | getLRUCandidatesBySize .. => {.evictManager,.metaIndex}
  | alloc _ | batchAlloc .. | free .. | getTotalBytes => {.allocator}
  | enqueue .. | takeExpired _ | takeAll => {.pendingEvictQueue}
  | pwrite .. | pread .. => {.ioPool,.dataFdBuffered,.dataFd}
  | uringWrite .. | uringRead .. => {.ioUringEngine,.dataFdBuffered,.dataFd}
  | syncCommit .. | asyncCommit .. | syncRemove .. => {.metaSyncClient}

def StoreCall.partsIn (own i : ℕ) (op : StoreCall) : Finset ProcessPart :=
  if i = own then {.store} ∪ op.parts else ∅

def ClientCall.parts (own : ℕ) : ClientCall → Finset ProcessPart
  | atStore i op => {.clientImpl} ∪ op.partsIn own i
  | forClient i op => {.clientImpl,.nodeUringEngine,.nodePool,.remoteReadBackend} ∪ op.partsIn own i
  | request _ | response => {.clientImpl,.remoteReadBackend}
  | _ => {.clientImpl}

def scheduledParts (own : ℕ) : scheduledCalls.Op → Finset ProcessPart
  | .inl op => op.parts own
  | .inr (.atScheduler _) => {.clientProxy}
  | .inr .getCurrentTimeNs => ∅

def ServiceCall.parts : ServiceCall → Finset ProcessPart
  | store op => {.storeService,.store} ∪ op.parts
  | _ => {.storeService}

namespace ProcessPart

def holder : ProcessPart → Finset ProcessPart
  | clientImpl | storeRpcServer | storeService | store => ∅
  | nodeUringEngine | nodePool | clientProxy | remoteReadBackend => {.clientImpl}
  | _ => {.store}

def dismissed : ProcessPart → Finset ProcessCrew
  | storeProxy => {.report}
  | _ => ∅

end ProcessPart

def ProcessCrew.rooms (k : ProcessCrew) : Finset ProcessPart :=
  match k with
  | evict => {.evictManager,.allocator}
  | k => k.home

def ProcessCall.role (cfg : ProcessConfig) : (op : ProcessCall) → op.Res → Role ProcessCrew ProcessPart
  | client false op, _ => ⟨scheduledParts cfg.store op,.visit⟩
  | client true op, _ => ⟨scheduledParts cfg.store op,.work .worker⟩
  | service op, _ => ⟨op.parts,.work .handler⟩
  | component (some k) op, _ => ⟨op.parts,.work k⟩
  | component none op, _ => ⟨op.parts,.tend⟩
  | submitTask _, _ | drainQueue, _ => ⟨∅,.idle⟩
  | takeTask, _ => ⟨∅,.work .worker⟩
  | setStopped, stopped => ⟨∅,if stopped then .idle else .takeDown⟩
  | enter k, _ => ⟨∅,.enter k⟩
  | leave k, _ => ⟨∅,.leave k⟩
  | loadRunning k true, _ => ⟨k.home,.work k⟩
  | loadRunning k false, running => ⟨k.home,if running then .tend else .seeDown k⟩
  | exchangeRunning k, running => ⟨k.home,if running then .lower k else .seeDown k⟩
  | storeRunning k, _ => ⟨k.home,.lower k⟩
  | join k, _ => ⟨k.home,.wait k⟩
  | atHome k, _ => ⟨k.rooms,.work k⟩
  | takeCommits, _ => ⟨{.metaSyncClient},.work .asyncCommit⟩
  | storeReportIOAsync, _ => ⟨{.storeProxy},.work .handler⟩
  | storeReportRpc, _ => ⟨{.storeProxy},.work .report⟩
  | held p, there => ⟨p.holder,.find p there⟩
  | close p, _ => ⟨{p},.tend⟩
  | endService, _ => ⟨{.storeService},.tend⟩
  | destroy p, _ => ⟨insert p p.holder,.destroy p p.dismissed⟩

/-- The API is not called any more when a thread closes, and reports are not under way when the
proxy goes. -/
def BridgeProcess.Orderly (x : BridgeProcess) : ProcessCall → Prop
  | .client false _ => x.site.begun = false
  | .destroy p => ∀ k ∈ p.dismissed, x.site.Left processPlan k
  | _ => True

instance (x : BridgeProcess) : DecidablePred x.Orderly := fun op => match op with
  | .client false _ => inferInstanceAs (Decidable (_ = false))
  | .destroy p => inferInstanceAs (Decidable (∀ k ∈ p.dismissed, _))
  | .client true _ | .service _ | .component .. | .submitTask _ | .takeTask | .drainQueue | .setStopped
  | .enter _ | .leave _ | .loadRunning .. | .exchangeRunning _ | .storeRunning _ | .join _ | .atHome _
  | .takeCommits | .storeReportIOAsync | .storeReportRpc | .held _ | .close _ | .endService => isTrue trivial

namespace BridgeShutdown

abbrev dismantling (cfg : ProcessConfig) : Dismantling processCalls ProcessCrew ProcessPart :=
  ⟨processPlan,ProcessCall.role cfg⟩

variable {cfg : ProcessConfig} {x x' : BridgeProcess} {c : ProcessChoice} {op : ProcessCall}

theorem startProbe_site (x : BridgeProcess) (op : scheduledCalls.Op) (probing : Bool) :
    (x.startProbe op probing).site = x.site ∨ x.site.held .clientProxy = true ∧
      (x.startProbe op probing).site = x.site.start .clientProbe := by
  unfold BridgeProcess.startProbe
  split
  · split
    · next h =>
      obtain ⟨-,hheld⟩ := Bool.and_eq_true_iff.mp h
      exact .inr ⟨hheld,rfl⟩
    · exact .inl rfl
  · exact .inl rfl

theorem atClient_site {op : scheduledCalls.Op} {r : scheduledCalls.Res op}
    (h : x.atClient cfg op c = some (r,x')) :
    x'.site = x.site ∨ x.site.held .clientProxy = true ∧ x'.site = x.site.start .clientProbe := by
  obtain ⟨y,-,hy⟩ := Option.map_eq_some_iff.mp h
  obtain ⟨-,rfl⟩ := Prod.mk.inj hy
  exact startProbe_site ..

theorem atStore_site {op : StoreCall} {r : op.Res} (h : x.atStore cfg op c = some (r,x')) :
    x'.site = x.site := by
  obtain ⟨y,-,hy⟩ := Option.map_eq_some_iff.mp h
  obtain ⟨-,rfl⟩ := Prod.mk.inj hy
  rfl

theorem atService_site {op : ServiceCall} {r : op.Res} (h : x.atService cfg op c = some (r,x')) :
    x'.site = x.site := by
  unfold BridgeProcess.atService at h
  split at h
  · exact atStore_site h
  · obtain ⟨y,-,hy⟩ := Option.map_eq_some_iff.mp h
    obtain ⟨-,rfl⟩ := Prod.mk.inj hy
    rfl

theorem takeTask_site {r : Option QueuedPut} (h : x.takeTask = some (r,x')) : x'.site = x.site := by
  unfold BridgeProcess.takeTask at h
  split at h
  · cases h
    rfl
  · split at h
    · cases h
      rfl
    · cases h

/-- The crews that a call may add to are there with a part that is. -/
theorem held_of_hosted {p q : ProcessPart} {k : ProcessCrew} (hk : k ∈ processPlan.hosted p)
    (hhost : ∀ p, k ∈ processPlan.hosted p → p = q) (hq : x.site.held q = true) : x.site.held p = true := by
  rw [hhost p hk]
  exact hq

theorem moves {r : op.Res} (hok : x.Orderly op) (h : BridgeProcess.step cfg op c x = some (r,x')) :
    (op.role cfg r).deed.Moves processPlan x.site x'.site := by
  cases op with
  | client byWorker op =>
    have hsite := atClient_site h
    have hhost : ∀ p, .clientProbe ∈ processPlan.hosted p → p = .clientProxy := by decide
    have hstart : .clientProbe ∈ processPlan.starts .worker := by decide
    cases byWorker with
    | false =>
      refine ⟨hok,hsite.imp id fun hs => ?_⟩
      exact ⟨_,_,hstart,fun p hp => held_of_hosted hp hhost hs.1,hs.2⟩
    | true =>
      refine hsite.imp id fun hs => ?_
      exact ⟨_,hstart,fun p hp => held_of_hosted hp hhost hs.1,hs.2⟩
  | service op => exact .inl (atService_site h)
  | component caller op =>
    have hsite := atStore_site h
    cases caller with
    | none => exact hsite
    | some k => exact .inl hsite
  | takeTask => exact .inl (takeTask_site h)
  | drainQueue =>
    have hdrain : (if x.taskQueue.isEmpty then some ((),x) else none) = some (r,x') := h
    split at hdrain
    · cases hdrain
      rfl
    · cases hdrain
  | setStopped =>
    obtain ⟨rfl,rfl⟩ := Prod.mk.inj (Option.some.inj h)
    cases hbegun : x.site.begun with
    | false => exact ⟨hbegun,rfl⟩
    | true => exact rfl
  | enter k =>
    obtain ⟨site,hsite,hx⟩ := Option.map_eq_some_iff.mp h
    obtain ⟨-,rfl⟩ := Prod.mk.inj hx
    exact hsite
  | loadRunning k byCrew =>
    obtain ⟨rfl,rfl⟩ := Prod.mk.inj (Option.some.inj h)
    cases byCrew with
    | true => exact .inl rfl
    | false =>
      cases hflag : x.site.flag k with
      | true => rfl
      | false => exact ⟨hflag,rfl⟩
  | exchangeRunning k =>
    obtain ⟨rfl,rfl⟩ := Prod.mk.inj (Option.some.inj h)
    cases hflag : x.site.flag k with
    | true => exact rfl
    | false => exact ⟨hflag,rfl⟩
  | join k =>
    have hjoin : (if x.site.Left processPlan k then some ((),x) else none) = some (r,x') := h
    split at hjoin
    · next hleft =>
      cases hjoin
      exact ⟨hleft,rfl⟩
    · cases hjoin
  | storeReportIOAsync =>
    obtain ⟨-,rfl⟩ := Prod.mk.inj (Option.some.inj h)
    have hstart : .report ∈ processPlan.starts .handler := by decide
    have hhost : ∀ p, .report ∈ processPlan.hosted p → p = .storeProxy := by decide
    unfold BridgeProcess.storeReportIOAsync
    split
    · next hlaunch =>
      obtain ⟨-,hheld⟩ := Bool.and_eq_true_iff.mp hlaunch
      exact .inr ⟨_,hstart,fun p hp => held_of_hosted hp hhost hheld,rfl⟩
    · exact .inl rfl
  | held p =>
    obtain ⟨rfl,rfl⟩ := Prod.mk.inj (Option.some.inj h)
    exact ⟨rfl,rfl⟩
  | destroy p =>
    obtain ⟨-,rfl⟩ := Prod.mk.inj (Option.some.inj h)
    exact ⟨hok,rfl⟩
  | atHome k | takeCommits | storeReportRpc =>
    obtain ⟨-,rfl⟩ := Prod.mk.inj (Option.some.inj h)
    exact .inl rfl
  | submitTask | leave | storeRunning | close | endService =>
    obtain ⟨-,rfl⟩ := Prod.mk.inj (Option.some.inj h)
    rfl

/-- When the constructor returns nobody has done anything yet. -/
theorem fresh_site (cfg : ProcessConfig) : cfg.site.Fresh processPlan where
  begun := rfl
  gone := fun _ => rfl
  always := by
    intro p hp
    cases p <;> first | rfl | exact absurd hp (by decide)
  inside := fun _ => rfl
  flag := by
    intro k hk
    cases k with
    | handler => exact ⟨rfl,by decide⟩
    | asyncCommit =>
      have hconnected : cfg.connected = false := hk
      exact ⟨if_neg (Bool.eq_false_iff.mp hconnected),by decide⟩
    | _ => cases hk
  hosted := by
    intro p hp k hk
    cases p with
    | clientProxy =>
      have hscheduler : cfg.schedulerEnabled = false := hp
      obtain rfl := Finset.mem_singleton.mp hk
      exact ⟨by simp [ProcessConfig.site, ProcessConfig.launched, hscheduler],rfl,nofun⟩
    | storeRpcServer =>
      obtain rfl := Finset.mem_singleton.mp hk
      exact ⟨rfl,rfl,fun _ => hp⟩
    | storeProxy =>
      have hscheduler : cfg.storeSchedulerEnabled = false := hp
      obtain rfl | hk := Finset.mem_insert.mp hk
      · exact ⟨by simp [ProcessConfig.site, ProcessConfig.launched, hscheduler],rfl,nofun⟩
      · obtain rfl := Finset.mem_singleton.mp hk
        exact ⟨rfl,rfl,nofun⟩
    | nodeUringEngine | storeService | ioUringEngine | dataFd => exact absurd hk (Finset.notMem_empty k)
    | _ => cases hp

theorem storeCall_parts (op : StoreCall) : op.parts ⊆ storeParts := by
  cases op <;> exact of_decide_eq_true rfl

theorem partsIn_subset (own i : ℕ) (op : StoreCall) : op.partsIn own i ⊆ storeParts := by
  unfold StoreCall.partsIn
  split
  · exact Finset.union_subset (by decide) (storeCall_parts op)
  · exact Finset.empty_subset _

theorem clientCall_parts (own : ℕ) (op : ClientCall) : op.parts own ⊆ clientParts ∪ storeParts := by
  have hclient : ∀ parts ⊆ clientParts, parts ⊆ clientParts ∪ storeParts :=
    fun _ h => h.trans Finset.subset_union_left
  cases op with
  | atStore i op =>
    apply Finset.union_subset (hclient _ (by decide))
    exact (partsIn_subset own i op).trans Finset.subset_union_right
  | forClient i op =>
    apply Finset.union_subset (hclient _ (by decide))
    exact (partsIn_subset own i op).trans Finset.subset_union_right
  | _ => exact hclient _ (of_decide_eq_true rfl)

theorem scheduledParts_subset (own : ℕ) (op : scheduledCalls.Op) :
    scheduledParts own op ⊆ clientParts ∪ storeParts := by
  match op with
  | .inl op => exact clientCall_parts own op
  | .inr (.atScheduler _) => exact of_decide_eq_true rfl
  | .inr .getCurrentTimeNs => exact Finset.empty_subset _

theorem fair_atClient {α β : Type} (p : ScheduledProg α) (f : α → β) :
    (dismantling cfg).Fair (do
      let a ← ProcessOps.atClient false p
      pure (f a)) := by
  apply Dismantling.fair_visit
  apply Prog.Makes.bind
  · apply Prog.makes_interp _ p.makes_true
    exact fun op _ => Prog.makes_perform fun _ => ⟨_,rfl⟩
  · exact fun _ => trivial

theorem staffed_workerLoop (rounds : ℕ) : (dismantling cfg).Staffed .worker (ProcessOps.workerLoop cfg rounds) := by
  induction rounds with
  | zero => exact Dismantling.staffed_pure
  | succ rounds ih =>
    have htake : (dismantling cfg).WorkOf .worker .takeTask := fun _ => ⟨_,Finset.empty_subset _,rfl⟩
    apply Dismantling.staffed_bind (Prog.makes_perform htake)
    intro task
    cases task with
    | none => exact Dismantling.staffed_leave fun _ => rfl
    | some task =>
      apply Dismantling.staffed_bind
      · apply Prog.Makes.bind
        · apply Prog.makes_interp _ (Prog.makes_true _)
          exact fun op _ => Prog.makes_perform fun _ => ⟨_,scheduledParts_subset cfg.store op,rfl⟩
        · exact fun _ => trivial
      · exact fun _ => ih

theorem serviceCall_parts (op : ServiceCall) : op.parts ⊆ processPlan.needs .handler := by
  cases op with
  | store op =>
    apply Finset.union_subset (by decide)
    exact (storeCall_parts op).trans Finset.subset_union_right
  | _ => exact of_decide_eq_true rfl

theorem staffed_serve (op : ServiceOp) (reports : Bool) :
    (dismantling cfg).Staffed .handler (ProcessOps.serve cfg op reports) := by
  have hleave : (dismantling cfg).Staffed .handler (ProcessOps.ask (.leave .handler)) :=
    Dismantling.staffed_leave fun _ => rfl
  apply Dismantling.staffed_bind
  · apply Prog.makes_interp _ (Prog.makes_true _)
    exact fun op _ => Prog.makes_perform fun _ => ⟨_,serviceCall_parts op,rfl⟩
  · intro _
    cases reports with
    | true =>
      have hproxy : {.storeProxy} ⊆ processPlan.needs .handler := by decide
      have hreport : (dismantling cfg).WorkOf .handler .storeReportIOAsync := fun _ => ⟨_,hproxy,rfl⟩
      exact Dismantling.staffed_bind (Prog.makes_perform hreport) fun _ => hleave
    | false => exact hleave

theorem staffed_report : (dismantling cfg).Staffed .report ProcessOps.report := by
  have hproxy : {.storeProxy} ⊆ processPlan.needs .report := by decide
  have hrpc : (dismantling cfg).WorkOf .report .storeReportRpc := fun _ => ⟨_,hproxy,rfl⟩
  apply Dismantling.staffed_bind (Prog.makes_perform hrpc)
  exact fun _ => Dismantling.staffed_leave fun _ => rfl

variable {k : ProcessCrew} {body : ProcessProg Unit}

theorem workOf_loadRunning (k : ProcessCrew) : (dismantling cfg).WorkOf k (.loadRunning k true) := by
  have hhome : ∀ k, k.home ⊆ processPlan.needs k := by decide
  exact fun _ => ⟨_,hhome k,rfl⟩

theorem workOf_atHome (k : ProcessCrew) : (dismantling cfg).WorkOf k (.atHome k) := by
  have hrooms : ∀ k, k.rooms ⊆ processPlan.needs k := by decide
  exact fun _ => ⟨_,hrooms k,rfl⟩

theorem staffed_whileRunning (h : (dismantling cfg).Staffed k body) :
    (dismantling cfg).Staffed k (ProcessOps.whileRunning k body) := by
  apply Dismantling.staffed_bind (Prog.makes_perform (workOf_loadRunning k))
  intro running
  cases running with
  | true => exact h
  | false => exact Dismantling.staffed_leave fun _ => rfl

theorem makes_atComponent {α : Type} {P : StoreCall → Prop} {p : StoreProg α}
    (hp : Prog.Makes (E := storeCalls) P p) (hparts : ∀ op, P op → op.parts ⊆ processPlan.needs k) :
    (ProcessOps.atComponent (some k) p).Makes ((dismantling cfg).WorkOf k) := by
  apply Prog.makes_interp _ hp
  exact fun op hop => Prog.makes_perform fun _ => ⟨_,hparts op hop,rfl⟩

theorem parts_of_evicts {op : StoreCall} (h : StoreOps.evicts op = true) : op.parts ⊆ processPlan.needs .evict := by
  cases op <;> first | exact of_decide_eq_true rfl | cases h

theorem staffed_evictLoop (rounds : ℕ) (above : Bool) :
    (dismantling cfg).Staffed .evict (ProcessOps.evictLoop cfg rounds above) := by
  induction rounds generalizing above with
  | zero => exact Dismantling.staffed_pure
  | succ rounds ih =>
    cases above with
    | false =>
      apply staffed_whileRunning
      apply staffed_whileRunning
      exact Dismantling.staffed_bind (Prog.makes_perform (workOf_atHome _)) fun _ => ih _
    | true =>
      apply Dismantling.staffed_bind (Prog.makes_perform (workOf_loadRunning _))
      intro running
      cases running with
      | false => exact ih _
      | true =>
        apply Dismantling.staffed_bind (Prog.makes_perform (workOf_atHome _))
        intro above
        cases above with
        | false => exact ih _
        | true =>
          have hevicts : (ProcessOps.atComponent (some .evict) (StoreOps.tryEvictBatchLRU cfg.storeConfig)).Makes
              ((dismantling cfg).WorkOf .evict) :=
            makes_atComponent StoreOps.evictsOnly_tryEvictBatchLRU fun _ => parts_of_evicts
          exact Dismantling.staffed_bind hevicts fun _ => ih _

theorem staffed_pendingEvictLoop (rounds : ℕ) :
    (dismantling cfg).Staffed .pendingEvict (ProcessOps.pendingEvictLoop rounds) := by
  induction rounds with
  | zero => exact Dismantling.staffed_pure
  | succ rounds ih =>
    apply staffed_whileRunning
    have hflush : Prog.Makes (E := storeCalls) (fun op => op.parts ⊆ processPlan.needs .pendingEvict)
        StoreOps.flushExpired := by
      apply Prog.makes_call_bind (Finset.empty_subset _)
      intro now
      apply Prog.makes_call_bind (of_decide_eq_true rfl)
      intro toFree
      apply Prog.Makes.bind
      · exact Prog.makes_forEach (fun _ => Prog.makes_perform (of_decide_eq_true rfl)) _
      · exact fun _ => trivial
    exact Dismantling.staffed_bind (makes_atComponent hflush fun _ => id) fun _ => ih

theorem staffed_poolLoop (rounds : ℕ) : (dismantling cfg).Staffed k (ProcessOps.poolLoop k rounds) := by
  induction rounds with
  | zero => exact Dismantling.staffed_pure
  | succ rounds ih =>
    apply staffed_whileRunning
    apply Dismantling.staffed_bind (Prog.makes_perform (workOf_loadRunning k))
    intro running
    apply Dismantling.staffed_bind (Prog.makes_perform (workOf_atHome k))
    intro empty
    split
    · exact Dismantling.staffed_leave fun _ => rfl
    · exact ih

theorem staffed_homeLoop (rounds : ℕ) : (dismantling cfg).Staffed k (ProcessOps.homeLoop k rounds) := by
  induction rounds with
  | zero => exact Dismantling.staffed_pure
  | succ rounds ih =>
    apply staffed_whileRunning
    apply staffed_whileRunning
    apply Dismantling.staffed_bind (Prog.makes_perform (workOf_atHome k))
    intro goesOn
    split
    · exact ih
    · exact Dismantling.staffed_leave fun _ => rfl

theorem workOf_component {op : StoreCall} (hop : op.parts ⊆ processPlan.needs k) :
    (dismantling cfg).WorkOf k (.component (some k) op) := fun _ => ⟨_,hop,rfl⟩

theorem works_commitBatches (batches : List (List StoreKeyRecord)) :
    (ProcessOps.commitBatches cfg batches).Makes ((dismantling cfg).WorkOf .reconnect) := by
  induction batches with
  | nil => trivial
  | cons batch batches ih =>
    apply Prog.makes_call_bind (workOf_component (of_decide_eq_true rfl))
    intro s
    split
    · exact ih
    · trivial

theorem works_registerStore (attempts : ℕ) :
    (ProcessOps.registerStore attempts).Makes ((dismantling cfg).WorkOf .reconnect) := by
  induction attempts with
  | zero => trivial
  | succ attempts ih =>
    apply Prog.makes_call_bind (workOf_atHome _)
    intro ok
    split
    · trivial
    · exact ih

theorem works_fullResync : (ProcessOps.fullResync cfg).Makes ((dismantling cfg).WorkOf .reconnect) := by
  apply (works_registerStore 3).bind
  intro ok
  split
  · trivial
  · exact Prog.makes_call_bind (workOf_component (of_decide_eq_true rfl)) fun _ => works_commitBatches _

theorem staffed_reconnectLoop (rounds : ℕ) :
    (dismantling cfg).Staffed .reconnect (ProcessOps.reconnectLoop cfg rounds) := by
  induction rounds with
  | zero => exact Dismantling.staffed_pure
  | succ rounds ih =>
    apply staffed_whileRunning
    apply staffed_whileRunning
    apply Dismantling.staffed_bind (Prog.makes_perform (workOf_atHome _))
    intro connected
    split
    · exact ih
    · apply Dismantling.staffed_bind (Prog.makes_perform (workOf_atHome _))
      intro ok
      split
      · exact Dismantling.staffed_bind works_fullResync fun _ => ih
      · exact ih

theorem staffed_asyncCommitLoop (rounds : ℕ) :
    (dismantling cfg).Staffed .asyncCommit (ProcessOps.asyncCommitLoop cfg rounds) := by
  induction rounds with
  | zero => exact Dismantling.staffed_pure
  | succ rounds ih =>
    have hqueue : {.metaSyncClient} ⊆ processPlan.needs .asyncCommit := by decide
    have htake : (dismantling cfg).WorkOf .asyncCommit .takeCommits := fun _ => ⟨_,hqueue,rfl⟩
    apply staffed_whileRunning
    apply Dismantling.staffed_bind (Prog.makes_perform htake)
    intro batch
    cases batch with
    | none => exact Dismantling.staffed_leave fun _ => rfl
    | some merged =>
      have hcommit : (dismantling cfg).WorkOf .asyncCommit
          (.component (some .asyncCommit) (.syncCommit cfg.storeConfig.storeId merged)) :=
        workOf_component (of_decide_eq_true rfl)
      exact Dismantling.staffed_bind (Prog.makes_perform hcommit) fun _ => ih

theorem fair_thread (h : (dismantling cfg).Staffed k body) : (dismantling cfg).Fair (ProcessOps.thread k body) :=
  Dismantling.fair_enter (fun _ => rfl) fun _ => h

def stopped (e : Estimate ProcessCrew ProcessPart) (crews : Finset ProcessCrew) :
    Estimate ProcessCrew ProcessPart :=
  { e with lowered := e.lowered ∪ crews, left := e.left ∪ crews }

def closed (e : Estimate ProcessCrew ProcessPart) (p : ProcessPart) : Estimate ProcessCrew ProcessPart :=
  (stopped e (processPlan.hosted p)).lose p

def Stoppable (e : Estimate ProcessCrew ProcessPart) (k : ProcessCrew) : Prop :=
  Disjoint k.home e.lost ∧ processPlan.Ended e.left {k} ∧ (k ∉ e.lowered ∨ k ∈ e.left)

def Closable (e : Estimate ProcessCrew ProcessPart) (p : ProcessPart) : Prop :=
  Disjoint p.holder e.lost ∧ processPlan.Ended e.left (processPlan.hosted p) ∧
    ∀ k, p ∈ processPlan.needs k → k ∈ e.left ∪ processPlan.hosted p

instance (left crews : Finset ProcessCrew) : Decidable (processPlan.Ended left crews) :=
  inferInstanceAs (Decidable (∀ k ∈ crews, ∀ j, k ∈ processPlan.starts j → j ∈ left))

instance (e : Estimate ProcessCrew ProcessPart) : DecidablePred (Stoppable e) :=
  fun _ => inferInstanceAs (Decidable (_ ∧ _ ∧ _))

instance (e : Estimate ProcessCrew ProcessPart) : DecidablePred (Closable e) :=
  fun p => inferInstanceAs (Decidable (_ ∧ _ ∧ ∀ k, p ∈ processPlan.needs k → _))

variable {e e₁ : Estimate ProcessCrew ProcessPart} {p : ProcessPart} {after destructor : ProcessProg Unit}
  {crews : Finset ProcessCrew}

theorem brings_close (hp : p ∉ e.lost) : (dismantling cfg).Brings e e (ProcessOps.ask (.close p)) :=
  Dismantling.brings_perform (fun _ => rfl) (Finset.disjoint_singleton_left.mpr hp) rfl

theorem brings_destroy (hparts : Disjoint (insert p p.holder) e.lost)
    (hended : processPlan.Ended e.left p.dismissed)
    (hneeds : ∀ k, p ∈ processPlan.needs k → k ∈ e.left ∪ p.dismissed) :
    (dismantling cfg).Brings e ((e.leave p.dismissed).lose p) (ProcessOps.ask (.destroy p)) :=
  Dismantling.brings_perform (fun _ => rfl) hparts ⟨hended,hneeds,rfl⟩

theorem brings_stopAndJoin (h : Stoppable e k) :
    (dismantling cfg).Brings e (stopped e {k}) (ProcessOps.stopAndJoin k) := by
  obtain ⟨hhome,hended,-⟩ := h
  have hlower : (dismantling cfg).Brings e (e.lower k) (ProcessOps.ask (.storeRunning k)) :=
    Dismantling.brings_perform (fun _ => rfl) hhome rfl
  have hjoin : (dismantling cfg).Brings (e.lower k) (stopped e {k}) (ProcessOps.ask (.join k)) :=
    Dismantling.brings_perform (fun _ => rfl) hhome ⟨hended,rfl⟩
  exact hlower.bind fun _ => hjoin

/-- A crew whose flag is not set is not waited for. -/
theorem carries_seeDown (h : Stoppable e k) : Deed.Carries processPlan e (e.leave {k}) (.seeDown k) := by
  obtain ⟨-,-,hdown⟩ := h
  exact ⟨hdown,rfl⟩

/-- The second estimate also allows for a lowered flag. -/
theorem brings_leave : (dismantling cfg).Brings (e.leave {k}) (stopped e {k}) (pure ()) :=
  Dismantling.brings_pure.le ⟨Finset.subset_union_left,subset_rfl,subset_rfl,subset_rfl⟩

theorem brings_stopLoop (h : Stoppable e k) :
    (dismantling cfg).Brings e (stopped e {k}) (ProcessOps.stopLoop k) := by
  apply Dismantling.brings_call
  intro running
  cases running with
  | true => exact ⟨h.1,e,rfl,brings_stopAndJoin h⟩
  | false => exact ⟨h.1,_,carries_seeDown h,brings_leave⟩

theorem brings_stop (h : Stoppable e k)
    (hafter : (dismantling cfg).Brings (stopped e {k}) (stopped e {k}) after) :
    (dismantling cfg).Brings e (stopped e {k}) (ProcessOps.stop k after) := by
  apply Dismantling.brings_call
  intro running
  cases running with
  | true =>
    have hjoin : (dismantling cfg).Brings (e.lower k) (stopped e {k}) (ProcessOps.ask (.join k)) :=
      Dismantling.brings_perform (fun _ => rfl) h.1 ⟨h.2.1,rfl⟩
    exact ⟨h.1,_,rfl,hjoin.bind fun _ => hafter⟩
  | false => exact ⟨h.1,_,carries_seeDown h,brings_leave⟩

/-- The second `Stop` of a pool finds its flag down. -/
theorem brings_stopPool (h : Stoppable e k) (hp : p ∉ e.lost) :
    (dismantling cfg).Brings e (stopped e {k}) (ProcessOps.stopPool k p) := by
  have hagain : Stoppable (stopped e {k}) k := by
    refine ⟨h.1,fun j hj i hi => ?_,.inr (Finset.mem_union_right _ (Finset.mem_singleton_self k))⟩
    exact Finset.mem_union_left _ (h.2.1 j hj i hi)
  apply (brings_stop h (brings_close hp)).bind
  intro _
  apply (brings_stop hagain (brings_close hp)).le
  have hidem : ∀ xs : Finset ProcessCrew, xs ∪ {k} ∪ {k} = xs ∪ {k} := fun xs => by
    rw [Finset.union_assoc, Finset.union_self]
  exact ⟨(hidem _).subset,(hidem _).superset,subset_rfl,subset_rfl⟩

/-- The test of a pointer. -/
theorem brings_ifHeld (hholder : Disjoint p.holder e.lost)
    (hended : processPlan.Ended e.left (processPlan.hosted p))
    (hfound : (dismantling cfg).Brings (e.find p) e₁ body)
    (hlack : ((e.leave (processPlan.hosted p)).lose p).Le e₁) :
    (dismantling cfg).Brings e e₁ (ProcessOps.ifHeld p body) := by
  apply Dismantling.brings_call
  intro there
  cases there with
  | true => exact ⟨hholder,_,rfl,hfound⟩
  | false => exact ⟨hholder,_,.inr ⟨hended,rfl⟩,Dismantling.brings_pure.le hlack⟩

/-- `reset` of a part that stops the crews that it hosts. -/
theorem brings_reset (h : Closable e p) (hsub : crews ⊆ processPlan.hosted p)
    (hcrews : processPlan.hosted p ⊆ crews ∪ p.dismissed)
    (hd : (dismantling cfg).Brings (e.find p) (stopped (e.find p) crews) destructor) :
    (dismantling cfg).Brings e (closed e p) (ProcessOps.reset p destructor) := by
  obtain ⟨hholder,hended,hneeds⟩ := h
  have hdismissed : ∀ p : ProcessPart, p.dismissed ⊆ processPlan.hosted p := by decide
  have hall : e.left ∪ processPlan.hosted p ⊆ e.left ∪ crews ∪ p.dismissed := by
    rw [Finset.union_assoc]
    exact Finset.union_subset_union_right hcrews
  apply brings_ifHeld hholder hended
  · have hparts : Disjoint (insert p p.holder) (stopped (e.find p) crews).lost := by
      rw [Finset.disjoint_insert_left]
      exact ⟨Finset.notMem_erase p _,hholder.mono_right (Finset.erase_subset p _)⟩
    have hended' : processPlan.Ended (stopped (e.find p) crews).left p.dismissed :=
      fun k hk j hj => Finset.mem_union_left _ (hended k (hdismissed p hk) j hj)
    apply hd.bind
    intro _
    apply (brings_destroy hparts hended' fun k hk => hall (hneeds k hk)).le
    refine ⟨Finset.union_subset_union_right hsub,hall,?_,?_⟩
    · exact Finset.insert_subset (Finset.mem_insert_self p _) (Finset.insert_erase_subset p _)
    · exact Finset.insert_subset_insert p (Finset.erase_subset p _)
  · exact ⟨Finset.subset_union_left,subset_rfl,subset_rfl,subset_rfl⟩

/-- The same if the part hosts nobody. -/
theorem brings_resetAlone (h : Closable e p) (hhosted : processPlan.hosted p = ∅)
    (hd : (dismantling cfg).Brings (e.find p) (e.find p) destructor) :
    (dismantling cfg).Brings e (closed e p) (ProcessOps.reset p destructor) := by
  have hnone : ∀ xs : Finset ProcessCrew, xs ∪ processPlan.hosted p = xs := fun xs => by
    rw [hhosted, Finset.union_empty]
  apply brings_reset h subset_rfl Finset.subset_union_left (hd.le _)
  exact ⟨(hnone _).superset,(hnone _).subset,subset_rfl,subset_rfl⟩

/-- `reset` of something that there is, and which closes what it has. -/
theorem brings_resetWhole (halways : p ∈ processPlan.always) (hlost : p ∉ e.lost)
    (hholder : Disjoint p.holder e.lost)
    (hd : (dismantling cfg).Brings (e.find p) e₁ destructor)
    (hneeds : ∀ k, p ∈ processPlan.needs k → k ∈ e₁.left) (hparts : Disjoint (insert p p.holder) e₁.lost)
    (hdismissed : p.dismissed = ∅) (hsub : e₁.absent ⊆ e₁.lost) :
    (dismantling cfg).Brings e (e₁.lose p) (ProcessOps.reset p destructor) := by
  apply Dismantling.brings_call
  intro there
  cases there with
  | true =>
    refine ⟨hholder,_,rfl,hd.bind fun _ => ?_⟩
    have hended : processPlan.Ended e₁.left p.dismissed := by
      rw [hdismissed]
      exact fun _ hk => absurd hk (Finset.notMem_empty _)
    apply (brings_destroy hparts hended fun k hk => Finset.mem_union_left _ (hneeds k hk)).le
    exact ⟨subset_rfl,Finset.subset_union_left,subset_rfl,subset_rfl⟩
  | false =>
    refine ⟨hholder,_,.inl ⟨halways,hlost,?_⟩,Dismantling.brings_pure⟩
    exact Finset.insert_subset_insert p hsub

def clientClosed (e : Estimate ProcessCrew ProcessPart) : Estimate ProcessCrew ProcessPart :=
  closed (closed (stopped e {.metaReconnect}) .nodeUringEngine) .nodePool

/-- `Close` of the client can be called as often as one likes. -/
theorem brings_closeClient (hloop : Stoppable e .metaReconnect)
    (huring : Closable (stopped e {.metaReconnect}) .nodeUringEngine)
    (hpool : Closable (closed (stopped e {.metaReconnect}) .nodeUringEngine) .nodePool)
    (hstop : Stoppable ((closed (stopped e {.metaReconnect}) .nodeUringEngine).find .nodePool) .nodePool)
    (hclient : .clientImpl ∉ (clientClosed e).lost) :
    (dismantling cfg).Brings e (clientClosed e) ProcessOps.closeClient := by
  apply (brings_stopLoop hloop).bind
  intro _
  apply (brings_resetAlone huring rfl (brings_close (Finset.notMem_erase _ _))).bind
  intro _
  apply (brings_reset hpool subset_rfl Finset.subset_union_left (brings_stopPool hstop (Finset.notMem_erase _ _))).bind
  intro _
  exact brings_close hclient

def workersGone : Estimate ProcessCrew ProcessPart := ⟨∅,{.worker},∅,∅⟩

def clientGone : Estimate ProcessCrew ProcessPart :=
  ⟨{.metaReconnect,.nodePool,.clientProbe},{.worker,.metaReconnect,.nodePool,.clientProbe},
    clientParts,clientParts⟩

def serverGone : Estimate ProcessCrew ProcessPart :=
  ⟨insert .handler clientGone.lowered,insert .handler clientGone.left,
    {.storeRpcServer,.storeService} ∪ clientParts,{.storeRpcServer,.storeService} ∪ clientParts⟩

theorem brings_endClient : (dismantling cfg).Brings (workersGone.find .clientImpl)
    (closed (closed (clientClosed (clientClosed (workersGone.find .clientImpl))) .clientProxy) .remoteReadBackend)
    ProcessOps.endClient := by
  apply (brings_closeClient (by decide) (by decide) (by decide) (by decide) (by decide)).bind
  intro _
  apply (brings_closeClient (by decide) (by decide) (by decide) (by decide) (by decide)).bind
  intro _
  apply (brings_reset (by decide) subset_rfl Finset.subset_union_left (brings_stopAndJoin (by decide))).bind
  intro _
  exact brings_resetAlone (by decide) rfl Dismantling.brings_pure

theorem brings_flushAll (hqueue : .pendingEvictQueue ∉ e.lost) (hallocator : .allocator ∉ e.lost) :
    (dismantling cfg).Brings e e (ProcessOps.atComponent none ProcessOps.flushAll) := by
  have hfree : ∀ entries : List EvictEntry, (dismantling cfg).Brings e e
      (ProcessOps.atComponent none
        (Prog.forEach (fun x => invoke (.free (int64 x.offset) x.allocSize)) entries)) := by
    intro entries
    induction entries with
    | nil => exact Dismantling.brings_pure
    | cons x entries ih =>
      apply Dismantling.brings_call
      exact fun _ => ⟨Finset.disjoint_singleton_left.mpr hallocator,e,rfl,ih⟩
  apply Dismantling.brings_call
  exact fun entries => ⟨Finset.disjoint_singleton_left.mpr hqueue,e,rfl,hfree entries⟩

def storeOrder : List ProcessPart :=
  [.evictManager,.pendingEvictQueue,.ioUringEngine,.ioPool,.storeProxy,.metaSyncClient,.metaIndex,
    .allocator,.bufferPool,.dataFdBuffered,.dataFd]

def storeClosed (n : ℕ) : Estimate ProcessCrew ProcessPart := (storeOrder.take n).foldl closed serverGone

def notReconnecting : Estimate ProcessCrew ProcessPart :=
  { stopped (storeClosed 5) {.reconnect} with lost := insert .metaSyncClient (storeClosed 5).lost }

theorem brings_stopReconnect : (dismantling cfg).Brings (storeClosed 5) notReconnecting
    (ProcessOps.ifHeld .metaSyncClient (ProcessOps.stopLoop .reconnect)) := by
  have hstop : Stoppable ((storeClosed 5).find .metaSyncClient) .reconnect := by decide
  exact brings_ifHeld (by decide) (by decide) ((brings_stopLoop hstop).le (by decide)) (by decide)

theorem brings_endSyncClient : (dismantling cfg).Brings notReconnecting (storeClosed 6)
    (ProcessOps.reset .metaSyncClient do
      ProcessOps.stopLoop .asyncCommit
      ProcessOps.stopLoop .reconnect) := by
  have hcommit : Stoppable (notReconnecting.find .metaSyncClient) .asyncCommit := by decide
  have hreconnect : Stoppable (stopped (notReconnecting.find .metaSyncClient) {.asyncCommit}) .reconnect := by
    decide
  have hloops : (dismantling cfg).Brings (notReconnecting.find .metaSyncClient)
      (stopped (stopped (notReconnecting.find .metaSyncClient) {.asyncCommit}) {.reconnect}) (do
        ProcessOps.stopLoop .asyncCommit
        ProcessOps.stopLoop .reconnect) :=
    (brings_stopLoop hcommit).bind fun _ => brings_stopLoop hreconnect
  have hboth : processPlan.hosted .metaSyncClient ⊆ {.reconnect,.asyncCommit} ∪ ProcessPart.dismissed .metaSyncClient := by
    decide
  exact (brings_reset (by decide) (by decide) hboth (hloops.le (by decide))).le (by decide)

theorem brings_closeStore : (dismantling cfg).Brings serverGone (storeClosed 11) ProcessOps.closeStore := by
  have hevict : (dismantling cfg).Brings serverGone (storeClosed 1)
      (ProcessOps.reset .evictManager (ProcessOps.stop .evict (pure ()))) :=
    brings_reset (by decide) subset_rfl Finset.subset_union_left (brings_stop (by decide) Dismantling.brings_pure)
  have hqueue : (dismantling cfg).Brings (storeClosed 1) (storeClosed 2) (ProcessOps.reset .pendingEvictQueue
      (ProcessOps.stop .pendingEvict (ProcessOps.atComponent none ProcessOps.flushAll))) :=
    brings_reset (by decide) subset_rfl Finset.subset_union_left
      (brings_stop (by decide) (brings_flushAll (by decide) (by decide)))
  have huring : (dismantling cfg).Brings (storeClosed 2) (storeClosed 3)
      (ProcessOps.reset .ioUringEngine (ProcessOps.ask (.close .ioUringEngine))) :=
    brings_resetAlone (by decide) rfl (brings_close (Finset.notMem_erase _ _))
  have hpool : (dismantling cfg).Brings (storeClosed 3) (storeClosed 4)
      (ProcessOps.reset .ioPool (ProcessOps.stopPool .ioPool .ioPool)) :=
    brings_reset (by decide) subset_rfl Finset.subset_union_left
      (brings_stopPool (by decide) (Finset.notMem_erase _ _))
  have hproxy : (dismantling cfg).Brings (storeClosed 4) (storeClosed 5)
      (ProcessOps.reset .storeProxy (ProcessOps.stopAndJoin .storeProbe)) :=
    brings_reset (by decide) (by decide) (by decide) (brings_stopAndJoin (by decide))
  have hindex : (dismantling cfg).Brings (storeClosed 6) (storeClosed 7)
      (ProcessOps.reset .metaIndex (pure ())) :=
    brings_resetAlone (by decide) rfl Dismantling.brings_pure
  have hallocator : (dismantling cfg).Brings (storeClosed 7) (storeClosed 8)
      (ProcessOps.reset .allocator (pure ())) :=
    brings_resetAlone (by decide) rfl Dismantling.brings_pure
  have hbuffers : (dismantling cfg).Brings (storeClosed 8) (storeClosed 9)
      (ProcessOps.reset .bufferPool (pure ())) :=
    brings_resetAlone (by decide) rfl Dismantling.brings_pure
  have hbuffered : (dismantling cfg).Brings (storeClosed 9) (storeClosed 10)
      (ProcessOps.reset .dataFdBuffered (ProcessOps.ask (.close .dataFdBuffered))) :=
    brings_resetAlone (by decide) rfl (brings_close (Finset.notMem_erase _ _))
  have hfd : (dismantling cfg).Brings (storeClosed 10) (storeClosed 11)
      (ProcessOps.reset .dataFd (pure ())) :=
    brings_resetAlone (by decide) rfl Dismantling.brings_pure
  apply hevict.bind
  intro _
  apply hqueue.bind
  intro _
  apply huring.bind
  intro _
  apply hpool.bind
  intro _
  apply hproxy.bind
  intro _
  apply brings_stopReconnect.bind
  intro _
  apply brings_endSyncClient.bind
  intro _
  apply hindex.bind
  intro _
  apply hallocator.bind
  intro _
  apply hbuffers.bind
  intro _
  apply hbuffered.bind
  exact fun _ => hfd

def allGone : Estimate ProcessCrew ProcessPart := (storeClosed 11).lose .store

theorem brings_closeAll : (dismantling cfg).Brings ⟨∅,∅,∅,∅⟩ allGone (do
    ProcessOps.ask (.join .worker)
    ProcessOps.reset .clientImpl ProcessOps.endClient
    ProcessOps.reset .storeRpcServer (ProcessOps.stopAndJoin .handler)
    ProcessOps.reset .storeService (ProcessOps.ask .endService)
    ProcessOps.reset .store ProcessOps.closeStore) := by
  have hended : processPlan.Ended ∅ {.worker} := by decide
  have hjoin : (dismantling cfg).Brings ⟨∅,∅,∅,∅⟩ workersGone (ProcessOps.ask (.join .worker)) :=
    Dismantling.brings_perform (fun _ => rfl) (Finset.disjoint_empty_right _) ⟨hended,rfl⟩
  have hclient : (dismantling cfg).Brings workersGone clientGone
      (ProcessOps.reset .clientImpl ProcessOps.endClient) := by
    apply Dismantling.Brings.le
    · exact brings_resetWhole (by decide) (by decide) (by decide) brings_endClient (by decide) (by decide) rfl
        (by decide)
    · decide
  have hserver : (dismantling cfg).Brings clientGone (closed clientGone .storeRpcServer)
      (ProcessOps.reset .storeRpcServer (ProcessOps.stopAndJoin .handler)) :=
    brings_reset (by decide) subset_rfl Finset.subset_union_left (brings_stopAndJoin (by decide))
  have hservice : (dismantling cfg).Brings (closed clientGone .storeRpcServer) serverGone
      (ProcessOps.reset .storeService (ProcessOps.ask .endService)) := by
    have hend : (dismantling cfg).Brings ((closed clientGone .storeRpcServer).find .storeService)
        ((closed clientGone .storeRpcServer).find .storeService) (ProcessOps.ask .endService) :=
      Dismantling.brings_perform (fun _ => rfl) (by decide) rfl
    exact (brings_resetAlone (by decide) rfl hend).le (by decide)
  have hstore : (dismantling cfg).Brings serverGone allGone (ProcessOps.reset .store ProcessOps.closeStore) := by
    have hclose : (dismantling cfg).Brings (serverGone.find .store) (storeClosed 11) ProcessOps.closeStore :=
      brings_closeStore.of_le (by decide)
    exact brings_resetWhole (by decide) (by decide) (by decide) hclose (by decide) (by decide) rfl (by decide)
  apply hjoin.bind
  intro _
  apply hclient.bind
  intro _
  apply hserver.bind
  intro _
  apply hservice.bind
  exact fun _ => hstore

/-- A thread that closes the bridge, unless another one has begun to. -/
theorem fair_close : (dismantling cfg).Fair ProcessOps.close := by
  have hidle : ∀ r, ((dismantling cfg).discipline).rule ProcessCall.drainQueue r 0 0 := fun _ => .idle
  apply uses_idle hidle
  intro _ _
  apply uses_perform
  intro stopped _
  cases stopped with
  | true => exact ⟨0,0,0,.idle,(add_zero _).symm,Dismantling.finished_zero⟩
  | false =>
    refine ⟨0,_,0,.takeDown,(add_zero _).symm,?_⟩
    rw [add_zero]
    exact brings_closeAll.finished (by decide) (by decide)

theorem fair_run (op : ProcessOp) : (dismantling cfg).Fair (op.run cfg) := by
  cases op with
  | batchPutSync task => exact fair_atClient _ _
  | batchGetSync keys buffers => exact fair_atClient _ _
  | batchExistSync keys => exact fair_atClient _ _
  | fireAndForgetPut task => exact fun _ _ => ⟨0,0,0,.idle,(add_zero _).symm,Dismantling.finished_zero⟩
  | close => exact fair_close
  | worker rounds => exact fair_thread (staffed_workerLoop rounds)
  | handler op reports => exact fair_thread (staffed_serve op reports)
  | report => exact fair_thread staffed_report
  | evict rounds => exact fair_thread (staffed_evictLoop rounds false)
  | pendingEvict rounds => exact fair_thread (staffed_pendingEvictLoop rounds)
  | reconnect rounds => exact fair_thread (staffed_reconnectLoop rounds)
  | asyncCommit rounds => exact fair_thread (staffed_asyncCommitLoop rounds)
  | pool k rounds => exact fair_thread (staffed_poolLoop rounds)
  | atHome k rounds => exact fair_thread (staffed_homeLoop rounds)

end BridgeShutdown

open BridgeShutdown in
/-- If the API is left alone while a thread closes, and reports are done in time, no call goes
through a part that has been destroyed; and when all have returned after the bridge was closed, no
crew has anybody left, and no part is there. -/
theorem closed_in_order {cfg : ProcessConfig} {tr : List (Event processCalls BridgeProcess)}
    {P : Pool processCalls BridgeProcess Unit}
    (h : Run (processMachine cfg) (fun p => ∃ op : ProcessOp, p = op.run cfg) BridgeProcess.Orderly
      ⟨.create cfg,[]⟩ tr P) :
    (∀ e ∈ tr, ∀ p ∈ (e.op.role cfg e.res).parts, e.before.site.gone p = false) ∧
      (P.Returned → P.state.site.begun = true →
        (∀ k, P.state.site.Left processPlan k) ∧ ∀ p, P.state.site.held p = false) := by
  have hfair : ∀ p, (∃ op : ProcessOp, p = op.run cfg) → (dismantling cfg).Fair p := by
    rintro _ ⟨op,rfl⟩
    exact fair_run op
  have hmoves : ∀ {x op c r x'}, BridgeProcess.Orderly x op → (processMachine cfg).step op c x = some (r,x') →
      ((dismantling cfg).role op r).deed.Moves (dismantling cfg).plan x.site x'.site :=
    fun hok hs => moves hok hs
  exact Dismantling.run hmoves hfair (fresh_site cfg) h

def oneThreadEach : ProcessConfig where
  deployment := { oneServer with localStore := fun _ => some 0 }
  client := 0
  store := 0
  schedulerEnabled := false
  listening := true
  storeSchedulerEnabled := true
  directIoEnabled := true
  ioThreads := 1
  hixlEngineAddr := ""
  connected := false
  probing := false

def allThreads : List ProcessOp :=
  [.close,.worker 2,.worker 2,.atHome .metaReconnect 2,.pool .nodePool 2,.handler (.releaseHixlRead "") true,
    .report,.evict 2,.pendingEvict 2,.pool .ioPool 2,.reconnect 2,
    .fireAndForgetPut ⟨["a"],[⟨some fun _ => 1,4⟩]⟩]

def closingTurns : List (ℕ × ℕ) :=
  [(1,1),(2,1),(3,1),(4,1),(7,1),(8,1),(9,1),(10,1),(11,1),(1,10),(5,4),(6,3),(0,2),(1,2),(2,2),(0,4),
    (3,2),(0,4),(4,2),(0,23),(7,2),(0,4),(8,2),(0,6),(9,2),(0,11),(10,2),(0,17)]

def inTurns (turns : List (ℕ × ℕ)) : List (ℕ × ProcessChoice) :=
  turns.flatMap fun x => List.replicate x.2 (x.1,{})

def destroyed (tr : List (Event processCalls BridgeProcess)) : List ProcessPart :=
  tr.filterMap fun e => match e.op with
    | .destroy p => some p
    | _ => none

/-- A run in which everybody returns. -/
theorem closed_in_order_all : ∃ (tr : List (Event processCalls BridgeProcess))
    (P : Pool processCalls BridgeProcess Unit),
    destroyed tr = [.nodePool,.remoteReadBackend,.clientImpl,.storeRpcServer,.storeService,.evictManager,
      .pendingEvictQueue,.ioPool,.storeProxy,.metaSyncClient,.metaIndex,.allocator,.bufferPool,
      .dataFdBuffered,.dataFd,.store] ∧
    (∀ e ∈ tr, ∀ p ∈ (e.op.role oneThreadEach e.res).parts, e.before.site.gone p = false) ∧
    (∀ k, P.state.site.Left processPlan k) ∧ ∀ p, P.state.site.held p = false := by
  have hops : ∀ p ∈ allThreads.map (ProcessOp.run oneThreadEach), ∃ op : ProcessOp, p = op.run oneThreadEach := by
    intro p hp
    obtain ⟨op,-,rfl⟩ := List.mem_map.mp hp
    exact ⟨op,rfl⟩
  have hfollow : (Pool.follow (M := processMachine oneThreadEach) (fun x op => decide (x.Orderly op))
      (inTurns closingTurns) ⟨.create oneThreadEach,allThreads.map (ProcessOp.run oneThreadEach)⟩).map
        (fun x => (destroyed x.1,x.2.replies.all Option.isSome,x.2.state.site.begun)) =
      some ([.nodePool,.remoteReadBackend,.clientImpl,.storeRpcServer,.storeService,.evictManager,
        .pendingEvictQueue,.ioPool,.storeProxy,.metaSyncClient,.metaIndex,.allocator,.bufferPool,
        .dataFdBuffered,.dataFd,.store],true,true) := by decide +kernel
  obtain ⟨tr,P,hrun,hP⟩ := run_of_schedule _ hops hfollow
  obtain ⟨hdestroyed,hrest⟩ := Prod.mk.inj hP
  obtain ⟨hreplies,hbegun⟩ := Prod.mk.inj hrest
  have hreturned : P.Returned := List.all_eq_true.mp hreplies
  obtain ⟨hsafe,hclosed⟩ := closed_in_order (hrun.ok_mono fun _ _ hcheck => of_decide_eq_true hcheck)
  exact ⟨tr,P,hdestroyed,hsafe,hclosed hreturned hbegun⟩

def lateTurns : List (ℕ × ℕ) := (closingTurns.map fun x => if x.1 = 6 then (6,1) else x) ++ [(6,2)]

/-- Nothing waits for the thread of a report, so it may go through a proxy that is gone. -/
theorem exists_run_report_late : ∃ (tr : List (Event processCalls BridgeProcess))
    (P : Pool processCalls BridgeProcess Unit),
    Run (processMachine oneThreadEach) (fun p => ∃ op : ProcessOp, p = op.run oneThreadEach)
      (fun x op => (∀ p, op ≠ .destroy p) → x.Orderly op) ⟨.create oneThreadEach,[]⟩ tr P ∧
    P.Returned ∧ ∃ e ∈ tr, e.op = .storeReportRpc ∧ e.before.site.gone .storeProxy = true := by
  have hops : ∀ p ∈ allThreads.map (ProcessOp.run oneThreadEach), ∃ op : ProcessOp, p = op.run oneThreadEach := by
    intro p hp
    obtain ⟨op,-,rfl⟩ := List.mem_map.mp hp
    exact ⟨op,rfl⟩
  have hfollow : (Pool.follow (M := processMachine oneThreadEach) (fun x op => match op with
      | .destroy _ => true
      | op => decide (x.Orderly op))
      (inTurns lateTurns) ⟨.create oneThreadEach,allThreads.map (ProcessOp.run oneThreadEach)⟩).map
        (fun x => (x.1.any fun e => match e.op with
          | .storeReportRpc => e.before.site.gone .storeProxy
          | _ => false,x.2.replies.all Option.isSome)) = some (true,true) := by decide +kernel
  obtain ⟨tr,P,hrun,hP⟩ := run_of_schedule _ hops hfollow
  obtain ⟨hlate,hreplies⟩ := Prod.mk.inj hP
  refine ⟨tr,P,hrun.ok_mono ?_,List.all_eq_true.mp hreplies,?_⟩
  · intro x op hcheck hop
    split at hcheck
    · next p => exact absurd rfl (hop p)
    · exact of_decide_eq_true hcheck
  · obtain ⟨e,he,hgone⟩ := List.any_eq_true.mp hlate
    split at hgone
    · next hop => exact ⟨e,he,hop,hgone⟩
    · cases hgone

end FalconKV
