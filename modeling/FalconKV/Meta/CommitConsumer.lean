import FalconKV.AtomicCalls.Environment
import FalconKV.Meta.ClientLoops

/-! # Who takes the commits that are queued

Only a call of `Connect` whose channel could be made starts the commit thread. A client that
is connected later, by its reconnect loop, stays without one.
-/
namespace FalconKV.CommitConsumer
open AtomicCalls MetaClientOps

inductive Deed
  /-- a call of `Connect` has begun -/
  | began
  /-- a channel was made -/
  | inited
  /-- `commit_running_` was found true -/
  | found
  | raised
  | lowered
  | started
  deriving DecidableEq

def deeds (op : MetaClientCall) (r : op.Res) : List Deed :=
  match op, r with
  | .setMetaAddr _, _ => [.began]
  | .atCluster (.initChannel _), ok => if ok then [.inited] else []
  | .loadRunning .asyncCommit, running => if running then [.found] else []
  | .storeRunning .asyncCommit true, _ => [.raised]
  | .storeRunning .asyncCommit false, _ => [.lowered]
  | .startThread .asyncCommit, _ => [.started]
  | _, _ => []

def Deed.MadeBy : Deed → MetaClientCall → Prop
  | began, op => ∃ addr, op = .setMetaAddr addr
  | inited, op => ∃ j, op = .atCluster (.initChannel j)
  | found, op => op = .loadRunning .asyncCommit
  | raised, op => op = .storeRunning .asyncCommit true
  | lowered, op => op = .storeRunning .asyncCommit false
  | started, op => op = .startThread .asyncCommit

theorem madeBy_of_mem {op : MetaClientCall} {r : op.Res} {d : Deed} (hd : d ∈ deeds op r) :
    d.MadeBy op := by
  unfold deeds at hd
  split at hd
  · obtain rfl := List.mem_singleton.mp hd
    exact ⟨_,rfl⟩
  · split at hd
    · obtain rfl := List.mem_singleton.mp hd
      exact ⟨_,rfl⟩
    · cases hd
  · split at hd
    · obtain rfl := List.mem_singleton.mp hd
      rfl
    · cases hd
  · obtain rfl := List.mem_singleton.mp hd
    rfl
  · obtain rfl := List.mem_singleton.mp hd
    rfl
  · obtain rfl := List.mem_singleton.mp hd
    rfl
  · cases hd

/-- The calls of a cluster program note nothing but channels. -/
theorem eq_inited_of_mem {op : ClusterCall} {r : op.Res} {d : Deed}
    (hd : d ∈ deeds (.atCluster op) r) : d = .inited := by
  have hmade := madeBy_of_mem hd
  cases d with
  | inited => rfl
  | began =>
    obtain ⟨_,heq⟩ := hmade
    cases heq
  | found | raised | lowered | started => cases hmade

def allDeeds (tr : List (Event metaClientCalls MetaClient)) : List Deed :=
  tr.flatMap fun e => deeds e.op e.res

def deedsOf (j : ℕ) (tr : List (Event metaClientCalls MetaClient)) : List Deed :=
  (callsOf j tr).flatMap fun c => deeds c.op c.res

theorem deedsOf_subset (j : ℕ) (tr : List (Event metaClientCalls MetaClient)) :
    deedsOf j tr ⊆ allDeeds tr :=
  (callsOf_flatMap_sublist j tr fun c => deeds c.op c.res).subset

/-- No call of `Connect` is in progress, and the commit thread was not told to stop. -/
structure Settled (tr : List (Event metaClientCalls MetaClient))
    (Q : Pool metaClientCalls MetaClient Unit) : Prop where
  connect : ∀ j q, Q.threads[j]? = some q → .began ∈ deedsOf j tr → q.value = some ()
  shutdown : .lowered ∉ allDeeds tr

/-- A call of `Connect` has made its channel. -/
def InitialConnect (tr : List (Event metaClientCalls MetaClient)) : Prop :=
  ∃ j, .began ∈ deedsOf j tr ∧ .inited ∈ deedsOf j tr

variable {done new : List Deed} {i : ℕ} {s s' : MetaClient}

structure Sound (done : List Deed) (s : MetaClient) : Prop where
  running : (s.loop .asyncCommit).running = true ↔ .raised ∈ done
  found : .found ∈ done → .raised ∈ done
  started : .started ∈ done → .raised ∈ done
  absent : .started ∉ done → (s.loop .asyncCommit).thread = .absent
  runs : .started ∈ done → s.Runs .asyncCommit

theorem sound_create (cluster : Cluster) : Sound [] (.create cluster) :=
  ⟨by simp [MetaClient.create],nofun,nofun,fun _ => rfl,nofun⟩

/-- Deeds that leave the flag and the thread alone. -/
theorem Sound.note (h : Sound done s) (hnew : ∀ d ∈ new, d = .began ∨ d = .inited)
    (hloop : s'.loop .asyncCommit = s.loop .asyncCommit) : Sound (done ++ new) s' := by
  have hmem : ∀ d, d ≠ .began → d ≠ .inited → (d ∈ done ++ new ↔ d ∈ done) := by
    intro d hbegan hinited
    constructor
    · intro hd
      rcases List.mem_append.mp hd with hd | hd
      · exact hd
      · rcases hnew d hd with heq | heq
        · exact absurd heq hbegan
        · exact absurd heq hinited
    · exact List.mem_append_left new
  have hraised : .raised ∈ done ++ new ↔ .raised ∈ done := hmem .raised nofun nofun
  have hfound : .found ∈ done ++ new ↔ .found ∈ done := hmem .found nofun nofun
  have hstarted : .started ∈ done ++ new ↔ .started ∈ done := hmem .started nofun nofun
  constructor
  · rw [hloop,hraised]
    exact h.running
  · rw [hfound,hraised]
    exact h.found
  · rw [hstarted,hraised]
    exact h.started
  · rw [hloop,hstarted]
    exact h.absent
  · rw [hstarted,MetaClient.Runs,hloop]
    exact h.runs

theorem Sound.nothing (h : Sound done s) (hnew : new = []) : Sound (done ++ new) s := by
  rwa [hnew,List.append_nil]

section
variable {thread next : ClientThread}

/-- A thread that runs finds its flag set. -/
theorem Sound.goes_on (h : Sound done s) (hthread : (s.loop .asyncCommit).thread = thread)
    (hne : thread ≠ .absent) : .started ∈ done ∧ (s.loop .asyncCommit).running = true := by
  have hstarted : .started ∈ done := by
    by_contra hnot
    exact hne (hthread ▸ h.absent hnot)
  exact ⟨hstarted,h.running.mpr (h.started hstarted)⟩

theorem Sound.setThread (h : Sound done s) (hthread : (s.loop .asyncCommit).thread = thread)
    (hne : thread ≠ .absent) (hnext : next = .atLoop ∨ next = .inRound) :
    Sound done (s.setThread .asyncCommit next) := by
  obtain ⟨hstarted,-⟩ := h.goes_on hthread hne
  refine ⟨?_,h.found,h.started,fun hnot => absurd hstarted hnot,fun _ => ?_⟩
  · rw [MetaClient.setThread,MetaClient.loop_setLoop]
    exact h.running
  · rwa [MetaClient.Runs,MetaClient.setThread,MetaClient.loop_setLoop]

theorem Sound.goOn (h : Sound done s) (hthread : (s.loop .asyncCommit).thread = thread)
    (hne : thread ≠ .absent) : Sound done (s.goOn .asyncCommit).2 := by
  obtain ⟨-,hrunning⟩ := h.goes_on hthread hne
  rw [MetaClient.goOn,hrunning]
  exact h.setThread hthread hne (.inr rfl)

end

theorem Sound.raise (h : Sound done s) :
    Sound (done ++ [.raised])
      (s.setLoop .asyncCommit { s.loop .asyncCommit with running := true }) := by
  have hmem : .raised ∈ done ++ [.raised] := List.mem_append_right _ (List.mem_singleton_self _)
  have hstarted : .started ∈ done ++ [.raised] ↔ .started ∈ done := by simp
  refine ⟨?_,fun _ => hmem,fun _ => hmem,?_,?_⟩
  · rw [MetaClient.loop_setLoop]
    exact ⟨fun _ => hmem,fun _ => rfl⟩
  · rw [hstarted,MetaClient.loop_setLoop]
    exact h.absent
  · rw [hstarted,MetaClient.Runs,MetaClient.loop_setLoop]
    exact h.runs

theorem Sound.start (h : Sound done s) (hraised : .raised ∈ done) :
    Sound (done ++ [.started]) (s.setThread .asyncCommit .atLoop) := by
  have hmem : .started ∈ done ++ [.started] := List.mem_append_right _ (List.mem_singleton_self _)
  have hraised' : .raised ∈ done ++ [.started] := List.mem_append_left _ hraised
  refine ⟨?_,fun _ => hraised',fun _ => hraised',fun hnot => absurd hmem hnot,fun _ => ?_⟩
  · rw [MetaClient.setThread,MetaClient.loop_setLoop]
    exact ⟨fun _ => hraised',fun _ => h.running.mpr hraised⟩
  · rw [MetaClient.Runs,MetaClient.setThread,MetaClient.loop_setLoop]
    exact .inl rfl

/-- A load of the flag. -/
theorem Sound.load (h : Sound done s) :
    Sound (done ++ if (s.loop .asyncCommit).running then [.found] else []) s := by
  cases hrunning : (s.loop .asyncCommit).running with
  | false => simpa using h
  | true =>
    have hraised := h.running.mp hrunning
    have hraised' : .raised ∈ done ++ [.found] := List.mem_append_left _ hraised
    have hstarted : .started ∈ done ++ [.found] ↔ .started ∈ done := by simp
    rw [if_pos rfl]
    refine ⟨⟨fun _ => hraised',fun _ => hrunning⟩,fun _ => hraised',fun _ => hraised',?_,?_⟩
    · rw [hstarted]
      exact h.absent
    · rw [hstarted]
      exact h.runs

/-- A thread that runs is not joined, so a join finds none. -/
theorem Sound.join {c : ClusterChoice} {r : Unit} (h : Sound done s)
    (hs : (metaClientMachine i).step (.joinThread .asyncCommit) c s = some (r,s')) : Sound done s' := by
  by_cases hstarted : .started ∈ done
  · rcases h.runs hstarted with hthread | hthread <;>
      simp [metaClientMachine, MetaClient.step, hthread] at hs
  · have hthread := h.absent hstarted
    simp only [metaClientMachine, MetaClient.step, hthread] at hs
    obtain ⟨rfl,rfl⟩ := Prod.mk.inj (Option.some.inj hs)
    have hloop : (s.setThread .asyncCommit .absent).loop .asyncCommit = s.loop .asyncCommit := by
      rw [MetaClient.setThread,MetaClient.loop_setLoop,← hthread]
    rw [← List.append_nil done]
    exact h.note nofun hloop

/-- Only a call of `Connect` sets the flag, and starts the thread when its channel was made
and it has set the flag. -/
def needs (op : MetaClientCall) (done : List Deed) : Prop :=
  match op with
  | .storeRunning .asyncCommit true => .began ∈ done
  | .startThread .asyncCommit => .began ∈ done ∧ .inited ∈ done ∧ .raised ∈ done
  | _ => True

theorem needs_mono {op : MetaClientCall} (h : needs op done) (hsub : done ⊆ new) :
    needs op new := by
  unfold needs at h ⊢
  split
  · exact hsub h
  · exact ⟨hsub h.1,hsub h.2.1,hsub h.2.2⟩
  · trivial

theorem sound_step {op : MetaClientCall} {c : ClusterChoice} {r : op.Res} (h : Sound done s)
    (hneeds : needs op done) (hlow : .lowered ∉ deeds op r)
    (hs : (metaClientMachine i).step op c s = some (r,s')) : Sound (done ++ deeds op r) s' := by
  cases op with
  | atCluster op =>
    obtain ⟨x,-,heq⟩ := Option.map_eq_some_iff.mp hs
    obtain ⟨rfl,rfl⟩ := Prod.mk.inj heq
    have hloop : ({ s with cluster := x.2 } : MetaClient).loop .asyncCommit = s.loop .asyncCommit := rfl
    exact h.note (fun d hd => .inr (eq_inited_of_mem hd)) hloop
  | setMetaAddr addr =>
    obtain ⟨rfl,rfl⟩ := Prod.mk.inj (Option.some.inj hs)
    exact h.note (fun d hd => .inl (List.mem_singleton.mp hd)) rfl
  | loadMetaAddr | notifyAll l =>
    obtain ⟨rfl,rfl⟩ := Prod.mk.inj (Option.some.inj hs)
    exact h.note nofun rfl
  | loadRunning l =>
    obtain ⟨rfl,rfl⟩ := Prod.mk.inj (Option.some.inj hs)
    cases l with
    | asyncCommit => exact h.load
    | reconnect => exact h.note nofun rfl
  | storeRunning l value =>
    obtain ⟨rfl,rfl⟩ := Prod.mk.inj (Option.some.inj hs)
    cases l with
    | asyncCommit =>
      cases value with
      | true => exact h.raise
      | false => exact absurd (List.mem_singleton_self _) hlow
    | reconnect => exact h.note nofun (MetaClient.loop_setLoop_ne nofun)
  | startThread l =>
    simp only [metaClientMachine, MetaClient.step] at hs
    split at hs
    · obtain ⟨rfl,rfl⟩ := Prod.mk.inj (Option.some.inj hs)
      cases l with
      | asyncCommit => exact h.start hneeds.2.2
      | reconnect => exact h.note nofun (MetaClient.loop_setLoop_ne nofun)
    · cases hs
  | joinThread l =>
    cases l with
    | asyncCommit =>
      exact (h.join hs).nothing rfl
    | reconnect =>
      simp only [metaClientMachine, MetaClient.step] at hs
      split at hs
      · obtain ⟨rfl,rfl⟩ := Prod.mk.inj (Option.some.inj hs)
        exact h.note nofun (MetaClient.loop_setLoop_ne nofun)
      · obtain ⟨rfl,rfl⟩ := Prod.mk.inj (Option.some.inj hs)
        exact h.note nofun (MetaClient.loop_setLoop_ne nofun)
      · cases hs
  | beginRound l | testRunning l =>
    simp only [metaClientMachine, MetaClient.step] at hs
    split at hs
    · next hthread =>
      obtain ⟨rfl,rfl⟩ := Prod.mk.inj (Option.some.inj hs)
      cases l with
      | asyncCommit => exact (h.goOn hthread nofun).nothing rfl
      | reconnect => exact h.note nofun (MetaClient.loop_setLoop_ne nofun)
    · cases hs
  | takeCommits =>
    simp only [metaClientMachine, MetaClient.step] at hs
    split at hs
    · next hthread =>
      obtain ⟨-,hrunning⟩ := h.goes_on hthread nofun
      simp only [MetaClient.takeCommits, hrunning, if_true] at hs
      split at hs
      · cases hs
      · obtain ⟨rfl,rfl⟩ := Prod.mk.inj (Option.some.inj hs)
        exact h.note nofun rfl
    · cases hs
  | endRound l =>
    simp only [metaClientMachine, MetaClient.step] at hs
    split at hs
    · next hthread =>
      obtain ⟨rfl,rfl⟩ := Prod.mk.inj (Option.some.inj hs)
      cases l with
      | asyncCommit => exact (h.setThread hthread nofun (.inl rfl)).nothing rfl
      | reconnect => exact h.note nofun (MetaClient.loop_setLoop_ne nofun)
    · cases hs

abbrev doing : Ledger metaClientCalls (List Deed) := .demanding needs deeds

/-- A call of `Connect` whose channel was made has found the flag set or has started the
thread. Whoever has set the flag has started the thread. -/
structure Finished (done : List Deed) : Prop where
  connect : .began ∈ done → .inited ∈ done → .found ∈ done ∨ .started ∈ done
  raised : .raised ∈ done → .started ∈ done

def Aside : MetaClientCall → Prop
  | .setMetaAddr _ | .storeRunning .asyncCommit true | .startThread .asyncCommit => False
  | _ => True

theorem deeds_aside {op : MetaClientCall} (hop : Aside op) (r : op.Res) :
    .began ∉ deeds op r ∧ .raised ∉ deeds op r := by
  constructor
  · intro hd
    obtain ⟨addr,rfl⟩ := madeBy_of_mem hd
    exact hop
  · intro hd
    have hmade := madeBy_of_mem hd
    obtain rfl : op = .storeRunning .asyncCommit true := hmade
    exact hop

theorem needs_aside {op : MetaClientCall} (hop : Aside op) : needs op done := by
  unfold needs
  split
  · exact hop.elim
  · exact hop.elim
  · trivial

theorem kept_aside {α : Type} {p : MetaClientProg α} (hp : p.Makes Aside) (hbegan : .began ∉ done)
    (hraised : .raised ∉ done) : doing.Kept (fun _ done => Finished done) p done := by
  induction p generalizing done with
  | ret a => exact ⟨fun hmem => absurd hmem hbegan,fun hmem => absurd hmem hraised⟩
  | call op k ih =>
    intro r _
    obtain ⟨hb,hr⟩ := deeds_aside hp.1 r
    refine ⟨_,⟨needs_aside hp.1,rfl⟩,ih r (hp.2 r) ?_ ?_⟩
    · simp [hbegan, hb]
    · simp [hraised, hr]

theorem makes_lift {α : Type} (p : ClusterProg α) : (lift p).Makes Aside := by
  have hop : ∀ op : ClusterCall, True → (ask (.atCluster op)).Makes Aside :=
    fun _ _ => Prog.makes_perform trivial
  exact Prog.makes_interp hop p.makes_true

/-- What follows a cluster program finds some more channels noted. -/
theorem kept_lift {α β : Type} {p : ClusterProg α} {f : α → MetaClientProg β}
    {post : β → List Deed → Prop}
    (h : ∀ a more, (∀ d ∈ more, d = .inited) → doing.Kept post (f a) (done ++ more)) :
    doing.Kept post (lift p >>= f) done := by
  induction p generalizing done with
  | ret a =>
    have hret := h a [] nofun
    rwa [List.append_nil] at hret
  | call op k ih =>
    apply Ledger.kept_demand trivial
    intro r
    apply ih r
    intro a more hmore
    rw [List.append_assoc]
    apply h
    intro d hd
    rcases List.mem_append.mp hd with hd | hd
    · exact eq_inited_of_mem hd
    · exact hmore d hd

theorem kept_startAsyncCommitThread (hbegan : .began ∈ done) (hinited : .inited ∈ done)
    (hraised : .raised ∉ done) :
    doing.Kept (fun _ done => Finished done) startAsyncCommitThread done := by
  apply Ledger.kept_demand trivial
  intro running
  cases running with
  | true =>
    have hfound : .found ∈ done ++ [.found] := List.mem_append_right _ (List.mem_singleton_self _)
    have hnot : .raised ∉ done ++ [.found] := by simpa using hraised
    exact ⟨fun _ _ => .inl hfound,fun hmem => absurd hmem hnot⟩
  | false =>
    have hraise : needs (.storeRunning .asyncCommit true) (done ++ []) := List.mem_append_left _ hbegan
    apply Ledger.kept_demand hraise
    intro _
    have hstart : needs (.startThread .asyncCommit) (done ++ [] ++ [.raised]) := by
      simp [needs, hbegan, hinited]
    apply Ledger.kept_demand hstart
    intro _
    have hstarted : .started ∈ done ++ [] ++ [.raised] ++ [.started] :=
      List.mem_append_right _ (List.mem_singleton_self _)
    exact ⟨fun _ _ => .inr hstarted,fun _ => hstarted⟩

theorem kept_connect (i : ℕ) (info : StoreInfo) (addr : String) :
    doing.Kept (fun _ done => Finished done) (connect i info addr) [] := by
  apply Ledger.kept_demand trivial
  intro _
  have hbegan : Finished [.began] := ⟨nofun,nofun⟩
  by_cases haddr : addr.isEmpty
  · rw [if_pos haddr]
    exact hbegan
  · rw [if_neg haddr,tryConnect,if_neg haddr]
    apply Ledger.kept_bind
    apply Ledger.kept_demand trivial
    intro ok
    cases ok with
    | false => exact hbegan
    | true =>
      apply Ledger.kept_demand trivial
      intro _
      -- the connection is there: the resync, then the thread
      apply kept_lift
      intro _ more hmore
      have hraised : .raised ∉ [.began,.inited] ++ more := by
        intro hmem
        rcases List.mem_append.mp hmem with hmem | hmem
        · cases hmem with | tail _ hmem => cases hmem with | tail _ hmem => cases hmem
        · cases hmore _ hmem
      apply Ledger.kept_bind
      exact kept_startAsyncCommitThread List.mem_cons_self
        (List.mem_cons_of_mem _ List.mem_cons_self) hraised

variable {cfg : ℕ → StoreConfig} {cluster : Cluster} {tr : List (Event metaClientCalls MetaClient)}
  {Q : Pool metaClientCalls MetaClient Unit}

theorem makes_startReconnectLoop : startReconnectLoop.Makes Aside := by
  apply Prog.makes_call_bind trivial
  intro running
  cases running with
  | true => trivial
  | false => exact Prog.makes_call_bind trivial fun _ => Prog.makes_perform trivial

theorem makes_stopLoop (l : ClientLoop) : (stopLoop l).Makes Aside := by
  apply Prog.makes_call_bind trivial
  intro running
  cases running with
  | false => trivial
  | true =>
    apply Prog.makes_call_bind
    · cases l <;> trivial
    · intro _
      exact Prog.makes_call_bind trivial fun _ => Prog.makes_perform trivial

theorem makes_commitRound (i : ℕ) : (commitRound i).Makes Aside := by
  apply Prog.makes_call_bind trivial
  intro running
  cases running with
  | false => trivial
  | true =>
    apply Prog.makes_call_bind trivial
    rintro (_ | _ | _)
    · trivial
    · exact Prog.makes_perform trivial
    · exact (makes_lift _).bind fun _ => Prog.makes_perform trivial

theorem makes_tryConnect (i : ℕ) (addr : String) : (tryConnect i addr).Makes Aside := by
  unfold tryConnect
  split
  · trivial
  · apply Prog.makes_call_bind trivial
    intro ok
    cases ok with
    | false => trivial
    | true => exact Prog.makes_call_bind trivial fun _ => trivial

theorem makes_reconnectRound (i : ℕ) (info : StoreInfo) : (reconnectRound i info).Makes Aside := by
  apply Prog.makes_call_bind trivial
  intro running
  cases running with
  | false => trivial
  | true =>
    apply Prog.makes_call_bind trivial
    intro running
    cases running with
    | false => trivial
    | true =>
      apply Prog.makes_call_bind trivial
      intro connected
      cases connected with
      | true => exact Prog.makes_perform trivial
      | false =>
        apply Prog.makes_call_bind trivial
        intro addr
        apply (makes_tryConnect i addr).bind
        intro status
        split
        · exact (makes_lift _).bind fun _ => Prog.makes_perform trivial
        · exact Prog.makes_perform trivial

theorem kept_start (p : MetaClientProg Unit)
    (hp : ∃ op : MetaClientOp, op.Admitted i ∧ p = op.run cfg i) :
    doing.Kept (fun _ done => Finished done) p [] := by
  obtain ⟨op,-,rfl⟩ := hp
  cases op with
  | connect info addr =>
    apply Ledger.kept_bind
    exact kept_connect i info addr
  | startReconnectLoop =>
    exact kept_aside makes_startReconnectLoop nofun nofun
  | stopReconnectLoop => exact kept_aside (makes_stopLoop .reconnect) nofun nofun
  | destroy =>
    have hmakes : destroy.Makes Aside :=
      (makes_stopLoop .asyncCommit).bind fun _ => makes_stopLoop .reconnect
    exact kept_aside hmakes nofun nofun
  | commitRound => exact kept_aside (makes_commitRound i) nofun nofun
  | reconnectRound info => exact kept_aside (makes_reconnectRound i info) nofun nofun
  | asyncCommit storeId records => exact kept_aside (makes_lift _) nofun nofun
  | syncCommit | syncRemove | registerStore | around =>
    exact kept_aside ((makes_lift _).bind fun _ => trivial) nofun nofun

theorem sound_run (h : MetaClientRun cfg i cluster tr Q) (hlow : .lowered ∉ allDeeds tr) :
    Sound (allDeeds tr) Q.state := by
  have hcreate : .lowered ∉ allDeeds [] → Sound (allDeeds []) (.create cluster) :=
    fun _ => sound_create cluster
  have hrun : .lowered ∉ allDeeds tr → Sound (allDeeds tr) Q.state := by
    apply Ledger.run_invariant_demanding kept_start
      (fun tr s => .lowered ∉ allDeeds tr → Sound (allDeeds tr) s) hcreate ?_ h
    intro tr j s op c r s' hsound hneeds _ hs hlow
    rw [allDeeds,List.flatMap_append,List.flatMap_singleton] at hlow ⊢
    obtain ⟨hold,hnew⟩ : .lowered ∉ allDeeds tr ∧ .lowered ∉ deeds op r := by
      simpa [allDeeds] using hlow
    exact sound_step (hsound hold) (needs_mono hneeds (deedsOf_subset j tr)) hnew hs
  exact hrun hlow

theorem exists_deedOf (h : MetaClientRun cfg i cluster tr Q) {d : Deed} (hd : d ∈ allDeeds tr) :
    ∃ j q, Q.threads[j]? = some q ∧ ∃ c ∈ callsOf j tr, d ∈ deeds c.op c.res := by
  obtain ⟨e,he,hd⟩ := List.mem_flatMap.mp hd
  have hlt := h.thread_lt e he
  exact ⟨e.thread,_,List.getElem?_eq_getElem hlt,e.answered,mem_callsOf.mpr ⟨e,he,rfl,rfl⟩,hd⟩

theorem needs_of_raised {op : MetaClientCall} {r : op.Res} (hd : .raised ∈ deeds op r)
    (hneeds : needs op done) : .began ∈ done := by
  have hmade := madeBy_of_mem hd
  obtain rfl : op = .storeRunning .asyncCommit true := hmade
  exact hneeds

theorem needs_of_started {op : MetaClientCall} {r : op.Res} (hd : .started ∈ deeds op r)
    (hneeds : needs op done) : .began ∈ done ∧ .inited ∈ done := by
  have hmade := madeBy_of_mem hd
  obtain rfl : op = .startThread .asyncCommit := hmade
  exact ⟨hneeds.1,hneeds.2.1⟩

theorem finished (h : MetaClientRun cfg i cluster tr Q) (hsettled : Settled tr Q) {j : ℕ}
    {q : MetaClientProg Unit} (hj : Q.threads[j]? = some q) (hbegan : .began ∈ deedsOf j tr) :
    Finished (deedsOf j tr) := by
  obtain rfl := Prog.value_eq_some.mp (hsettled.connect j q hj hbegan)
  exact Ledger.run_demanding kept_start h hj

theorem initialConnect_of_runs (h : MetaClientRun cfg i cluster tr Q) (hsettled : Settled tr Q)
    (hruns : Q.state.Runs .asyncCommit) : InitialConnect tr := by
  have hsound := sound_run h hsettled.shutdown
  have hstarted : .started ∈ allDeeds tr := by
    by_contra hnot
    have habsent := hsound.absent hnot
    rw [MetaClient.Runs,habsent] at hruns
    rcases hruns with heq | heq <;> cases heq
  obtain ⟨j,q,hj,c,hc,hd⟩ := exists_deedOf h hstarted
  obtain ⟨before,hneeds,hsub⟩ := Ledger.run_needed kept_start h hj hc
  obtain ⟨hbegan,hinited⟩ := needs_of_started hd hneeds
  exact ⟨j,hsub hbegan,hsub hinited⟩

theorem runs_of_initialConnect (h : MetaClientRun cfg i cluster tr Q) (hsettled : Settled tr Q)
    (hconnect : InitialConnect tr) : Q.state.Runs .asyncCommit := by
  have hsound := sound_run h hsettled.shutdown
  obtain ⟨j,hbegan,hinited⟩ := hconnect
  obtain ⟨c,hc,-⟩ := List.mem_flatMap.mp hbegan
  obtain ⟨e,he,rfl,-⟩ := mem_callsOf.mp hc
  have hj : Q.threads[e.thread]? = some _ := List.getElem?_eq_getElem (h.thread_lt e he)
  apply hsound.runs
  rcases (finished h hsettled hj hbegan).connect hbegan hinited with hfound | hstarted
  · -- another call of `Connect` has set the flag before
    have hraised := hsound.found (deedsOf_subset _ tr hfound)
    obtain ⟨k,q,hk,c,hc,hd⟩ := exists_deedOf h hraised
    obtain ⟨before,hneeds,hsub⟩ := Ledger.run_needed kept_start h hk hc
    have hbegan := hsub (needs_of_raised hd hneeds)
    have hraised : .raised ∈ deedsOf k tr := List.mem_flatMap.mpr ⟨c,hc,hd⟩
    exact deedsOf_subset k tr ((finished h hsettled hk hbegan).raised hraised)
  · exact deedsOf_subset _ tr hstarted

/-- While no call of `Connect` is in progress, a connected client has its commit thread if and
only if the channel of a call of `Connect` could be made. -/
theorem commit_thread_runs_iff (h : MetaClientRun cfg i cluster tr Q) (hsettled : Settled tr Q) :
    (Q.state.connected i = true → Q.state.Runs .asyncCommit) ↔
      (Q.state.connected i = true → InitialConnect tr) := by
  constructor
  · intro hruns hconnected
    exact initialConnect_of_runs h hsettled (hruns hconnected)
  · intro hinitial hconnected
    exact runs_of_initialConnect h hsettled (hinitial hconnected)

theorem settled_of_returned (hreturned : Q.Returned) (hlow : .lowered ∉ allDeeds tr) :
    Settled tr Q := by
  refine ⟨?_,hlow⟩
  intro j q hj _
  obtain ⟨_,rfl⟩ := hreturned.ret (List.mem_of_getElem? hj)
  rfl

def config : ℕ → StoreConfig := fun _ => ⟨1,8,8,0,false,false⟩

def fresh : Cluster := .init (fun _ => 0) 1 Nat.one_pos config false

def info : StoreInfo := ⟨1,0,"store:1","data"⟩

def queued : List StoreKeyRecord := [⟨"a",0,8,8,1,0⟩]

def turns (js : List ℕ) : List (ℕ × ClusterChoice) := js.map fun j => (j,{})

def noChannel : ClusterChoice := { channel := false }

theorem sample_starts (ops : List MetaClientOp) (hops : ∀ op ∈ ops, op.Admitted 0) :
    ∀ p ∈ ops.map (MetaClientOp.run config 0),
      ∃ op : MetaClientOp, op.Admitted 0 ∧ p = op.run config 0 := by
  intro p hp
  obtain ⟨op,hop,rfl⟩ := List.mem_map.mp hp
  exact ⟨op,hops op hop,rfl⟩

/-- The first connection succeeds, and the thread takes what is queued. -/
theorem commit_thread_runs_iff_sample : ∃ tr Q, MetaClientRun config 0 fresh tr Q ∧ Settled tr Q ∧
    Q.state.connected 0 = true ∧ Q.state.Runs .asyncCommit := by
  have hfollow : (Pool.follow (M := metaClientMachine 0) (fun _ _ => true)
      (turns (List.replicate 11 0 ++ List.replicate 3 1 ++ [2]))
      ⟨.create fresh,[MetaClientOp.connect info "meta:1",.startReconnectLoop,.asyncCommit 1 queued].map
        (MetaClientOp.run config 0)⟩).map
        (fun x => (x.2.replies,allDeeds x.1,deedsOf 0 x.1,x.2.state.connected 0)) =
      some ([some (),some (),some ()],[.began,.inited,.raised,.started],
        [.began,.inited,.raised,.started],true) := rfl
  have hops : ∀ op ∈ [MetaClientOp.connect info "meta:1",.startReconnectLoop,.asyncCommit 1 queued],
      op.Admitted 0 := by simp [MetaClientOp.Admitted]
  obtain ⟨tr,Q,hrun,hQ⟩ := run_of_schedule _ (sample_starts _ hops) hfollow
  obtain ⟨hreplies,hrest⟩ := Prod.mk.inj hQ
  obtain ⟨hdeeds,hrest⟩ := Prod.mk.inj hrest
  obtain ⟨hfirst,hconnected⟩ := Prod.mk.inj hrest
  dsimp only at hreplies hdeeds hfirst hconnected
  have hrun' : MetaClientRun config 0 fresh tr Q := hrun.ok_mono fun _ _ _ => trivial
  have hsettled : Settled tr Q := by
    apply settled_of_returned
    · rw [Pool.Returned,hreplies]
      decide
    · rw [hdeeds]
      decide
  have hinitial : InitialConnect tr := by
    refine ⟨0,?_,?_⟩ <;> rw [hfirst] <;> decide
  exact ⟨tr,Q,hrun',hsettled,hconnected,
    (commit_thread_runs_iff hrun' hsettled).mpr (fun _ => hinitial) hconnected⟩

/-- The first connection fails and a later one succeeds: what is queued stays. -/
theorem exists_no_consumer : ∃ tr Q, MetaClientRun config 0 fresh tr Q ∧ Settled tr Q ∧
    Q.state.connected 0 = true ∧ ¬Q.state.Runs .asyncCommit ∧
    (Q.state.cluster.node 0).pendingCommits = [⟨1,queued⟩] := by
  have hfollow : (Pool.follow (M := metaClientMachine 0) (fun _ _ => true)
      (turns [0] ++ [(0,noChannel)] ++ turns (List.replicate 3 1 ++ List.replicate 12 2 ++ [3]))
      ⟨.create fresh,[MetaClientOp.connect info "meta:1",.startReconnectLoop,.reconnectRound info,
        .asyncCommit 1 queued].map (MetaClientOp.run config 0)⟩).map
        (fun x => (x.2.replies,allDeeds x.1,x.2.state.connected 0,x.2.state.loop .asyncCommit,
          (x.2.state.cluster.node 0).pendingCommits)) =
      some ([some (),some (),some (),some ()],[.began,.inited],true,⟨false,.absent⟩,
        [⟨1,queued⟩]) := rfl
  have hops : ∀ op ∈ [MetaClientOp.connect info "meta:1",.startReconnectLoop,.reconnectRound info,
      .asyncCommit 1 queued], op.Admitted 0 := by simp [MetaClientOp.Admitted]
  obtain ⟨tr,Q,hrun,hQ⟩ := run_of_schedule _ (sample_starts _ hops) hfollow
  obtain ⟨hreplies,hrest⟩ := Prod.mk.inj hQ
  obtain ⟨hdeeds,hrest⟩ := Prod.mk.inj hrest
  obtain ⟨hconnected,hrest⟩ := Prod.mk.inj hrest
  obtain ⟨hloop,hqueue⟩ := Prod.mk.inj hrest
  dsimp only at hreplies hdeeds hconnected hloop hqueue
  have hsettled : Settled tr Q := by
    apply settled_of_returned
    · rw [Pool.Returned,hreplies]
      decide
    · rw [hdeeds]
      decide
  have hnone : ¬Q.state.Runs .asyncCommit := by
    rw [MetaClient.Runs,hloop]
    decide
  exact ⟨tr,Q,hrun.ok_mono fun _ _ _ => trivial,hsettled,hconnected,hnone,hqueue⟩

end FalconKV.CommitConsumer
