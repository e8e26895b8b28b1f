import FalconKV.Store.NodeLocalAccessor

/-! # The engines of a node

Whether the requests go through the ring, which completes them in any order, or to the tasks of a
pool, which run in any order: every request is read once, and each position gets the result of the
read of its own request.
-/
namespace FalconKV
open AtomicCalls

def isFull (d : UringIORequest × ReadOutcome) : Bool := decide ((d.1.size : ℤ) ≤ d.2.count)

def Faithful (files : DataFiles) (d : UringIORequest × ReadOutcome) : Prop :=
  d.1.offset ≠ currentPosition → d.2 = files.pread d.1

structure EngineReads (files : DataFiles) (ios : List UringIORequest) (x y : NodeWorld)
    (statuses : List Status) : Prop where
  length : statuses.length = ios.length
  reads : ∃ new : List (ℕ × UringIORequest × ReadOutcome), y.served = x.served ++ new.map Prod.snd ∧
    (new.map Prod.fst).Perm (List.range ios.length) ∧
    ∀ d ∈ new, ios[d.1]? = some d.2.1 ∧ Faithful files d.2 ∧
      (statuses[d.1]?).map Status.isOk = some (isFull d.2)

namespace NodeLocalAccessor
variable {files : DataFiles} {x : NodeWorld}

theorem length_scatter (results : List Status) (new : List (ℕ × Status)) :
    (scatter results new).length = results.length := length_foldl_set Prod.fst Prod.snd new results

theorem getElem?_scatter {results : List Status} {new : List (ℕ × Status)}
    (hnodup : (new.map Prod.fst).Nodup) {i : ℕ} {s : Status} (hs : (i,s) ∈ new) (hi : i < results.length) :
    (scatter results new)[i]? = some s := getElem?_foldl_set Prod.fst Prod.snd hnodup hs hi

theorem getElem?_scatter_of_notMem {new : List (ℕ × Status)} {i : ℕ} (hi : i ∉ new.map Prod.fst)
    (results : List Status) : (scatter results new)[i]? = results[i]? :=
  getElem?_foldl_set_of_notMem Prod.fst Prod.snd hi results

/-- The answer of `pread` is as long as the buffer exactly if the read has filled it. -/
theorem wp_pread {post : Transferred → NodeWorld → Prop} {io : UringIORequest}
    (h : ∀ nread : Transferred, (¬ nread.count < 0 ∧ ¬ nread.count < io.size ↔
      isFull (io,files.pread io) = true) → post nread { x with served := x.served ++ [(io,files.pread io)] }) :
    wp (nodeMachine files) (fun _ _ => True) post (call (.pread io)) x := by
  refine ⟨trivial,fun c r y hstep => ?_⟩
  cases hstep
  apply h
  rw [isFull, decide_eq_true_iff]
  dsimp only
  split
  · omega
  · omega

theorem wp_readTask (io : UringIORequest) :
    wp (nodeMachine files) (fun _ _ => True)
      (fun s y => s.isOk = isFull (io,files.pread io) ∧ y = { x with served := x.served ++ [(io,files.pread io)] })
      (readTask io) x := by
  apply wp_bind.mpr
  apply wp_pread
  intro nread hfull
  split
  · next hneg =>
    refine ⟨?_,rfl⟩
    have hnot : isFull (io,files.pread io) = false := by
      rw [Bool.eq_false_iff]
      exact fun h => (hfull.mpr h).1 hneg
    rw [hnot]
    rfl
  split
  · next hshort =>
    refine ⟨?_,rfl⟩
    have hnot : isFull (io,files.pread io) = false := by
      rw [Bool.eq_false_iff]
      exact fun h => (hfull.mpr h).2 hshort
    rw [hnot]
    rfl
  · next hneg hshort =>
    refine ⟨?_,rfl⟩
    rw [hfull.mp ⟨hneg,hshort⟩]
    rfl

theorem wp_runTasks {ios : List UringIORequest} {order : List ℕ} (horder : ∀ i ∈ order, i < ios.length) :
    wp (nodeMachine files) (fun _ _ => True)
      (fun done y => ∃ new : List (ℕ × UringIORequest × ReadOutcome), y.served = x.served ++ new.map Prod.snd ∧
        new.map Prod.fst = order ∧ done.map Prod.fst = order ∧
        ∀ d ∈ new, ios[d.1]? = some d.2.1 ∧ d.2.2 = files.pread d.2.1 ∧
          ∃ s, (d.1,s) ∈ done ∧ s.isOk = isFull d.2)
      (Prog.mapEach (fun i => do
        let s ← ((ios.map readTask)[i]?).getD (pure .OK)
        pure (i,s)) order) x := by
  induction order generalizing x with
  | nil => exact ⟨[],by simp,rfl,rfl,by simp⟩
  | cons i order ih =>
    have hi := horder i List.mem_cons_self
    apply wp_bind.mpr
    apply wp_bind.mpr
    rw [List.getElem?_map, List.getElem?_eq_getElem hi]
    apply wp_mono (wp_readTask ios[i])
    rintro s _ ⟨hs,rfl⟩
    apply wp_bind.mpr
    apply wp_mono (ih fun j hj => horder j (List.mem_cons_of_mem _ hj))
    rintro done y ⟨new,hserved,hnew,hdone,hreads⟩
    refine ⟨(i,ios[i],files.pread ios[i]) :: new,?_,by simp [hnew],by simp [hdone],?_⟩
    · rw [hserved]
      simp
    · intro d hd
      rcases List.mem_cons.mp hd with rfl | hd
      · exact ⟨List.getElem?_eq_getElem hi,rfl,s,List.mem_cons_self,hs⟩
      · obtain ⟨hio,houtcome,s',hs',hok⟩ := hreads d hd
        exact ⟨hio,houtcome,s',List.mem_cons_of_mem _ hs',hok⟩

theorem wp_submitAndWait (ios : List UringIORequest) :
    wp (nodeMachine files) (fun _ _ => True) (fun statuses y => EngineReads files ios x y statuses)
      (submitAndWait (ios.map readTask)) x := by
  apply wp_perform trivial
  intro c order y hstep
  simp only [nodeMachine, NodeWorld.step, List.length_map] at hstep
  split at hstep
  · next hperm =>
    cases hstep
    apply wp_bind.mpr
    apply wp_mono (wp_runTasks fun i hi => List.mem_range.mp (hperm.mem_iff.mp hi))
    rintro done y ⟨new,hserved,hnew,hdone,hreads⟩
    refine ⟨by rw [length_scatter, List.length_replicate, List.length_map],new,hserved,hnew ▸ hperm,?_⟩
    intro d hd
    obtain ⟨hio,houtcome,s,hs,hok⟩ := hreads d hd
    have hnodup : (done.map Prod.fst).Nodup := by
      rw [hdone]
      exact hperm.nodup_iff.mpr List.nodup_range
    have hlt : d.1 < ios.length := (List.getElem?_eq_some_iff.mp hio).1
    refine ⟨hio,fun _ => houtcome,?_⟩
    rw [getElem?_scatter hnodup hs (by simpa using hlt)]
    exact congrArg some hok
  · cases hstep

theorem faithful_serve (request : UringIORequest) :
    Faithful files (request,(x.serve files request).1) := by
  intro hoffset
  dsimp only at hoffset ⊢
  rw [NodeWorld.serve, if_neg hoffset]

/-- What a completion does. -/
theorem complete_inv {index : ℕ} {y : NodeWorld} (h : x.complete files index = some y) :
    ∃ sqe outcome, x.ring.inFlight[index]? = some sqe ∧ Faithful files (sqe.request,outcome) ∧
      x.ring.step false .complete ⟨none,index,outcome.count⟩ = some ((),y.ring) ∧
      y.ring = { x.ring with
        inFlight := x.ring.inFlight.eraseIdx index
        cq := x.ring.cq.push ⟨sqe,outcome.count⟩
        completed := x.ring.completed ++ [⟨sqe,outcome.count⟩] } ∧
      y.served = x.served ++ [(sqe.request,outcome)] := by
  obtain ⟨sqe,hsqe,hserve⟩ := Option.bind_eq_some_iff.mp h
  have hfaithful : Faithful files (sqe.request,(x.serve files sqe.request).1) := faithful_serve sqe.request
  revert hserve hfaithful
  generalize x.serve files sqe.request = served
  intro hserve hfaithful
  obtain ⟨outcome,position⟩ := served
  obtain ⟨⟨u,s⟩,hstep,rfl⟩ := Option.map_eq_some_iff.mp hserve
  refine ⟨sqe,outcome,hsqe,hfaithful,hstep,?_,rfl⟩
  simp only [IOUring.step] at hstep
  split at hstep
  · rw [hsqe] at hstep
    exact (Prod.mk.inj (Option.some.inj hstep)).2.symm
  · cases hstep

/-- What the kernel completes before a call it could have posted to any caller. -/
theorem exists_post {posted : List ℕ} {y : NodeWorld} (h : NodeWorld.completeAll files posted x = some y) :
    (∃ posted', IOUring.post posted' x.ring = some y.ring) ∧ y.ring.sq = x.ring.sq ∧
      y.ring.sqEntries = x.ring.sqEntries := by
  induction posted generalizing x with
  | nil =>
    cases h
    exact ⟨⟨[],rfl⟩,rfl,rfl⟩
  | cons index posted ih =>
    obtain ⟨x₁,hone,hrest⟩ := Option.bind_eq_some_iff.mp h
    obtain ⟨⟨posted',hpost⟩,hsq,hentries⟩ := ih hrest
    obtain ⟨sqe,outcome,-,-,hstep,hring,-⟩ := complete_inv hone
    refine ⟨⟨(index,outcome.count) :: posted',?_⟩,?_⟩
    · exact Option.bind_eq_some_iff.mpr ⟨_,hstep,hpost⟩
    · rw [hsq, hentries, hring]
      exact ⟨rfl,rfl⟩

structure Faultless (x : IOUring × RingLog) : Prop where
  faults : x.2.faults = []
  filled : x.1.sq.length = x.2.filled
  entries : 0 < x.1.sqEntries

/-- A call over this kernel is one over a library that may fail. -/
theorem flaky_of_ring {op : UringCall} {c : NodeChoice} {r : op.Res} {y : NodeWorld} {log : RingLog}
    (hstep : (nodeMachine files).step (.ring op) c x = some (r,y)) (hx : Faultless (x.ring,log)) :
    ∃ c', flakyMachine.step op c' (x.ring,log) = some (r,y.ring,RingLog.note op r x.ring log) ∧
      Faultless (y.ring,RingLog.note op r x.ring log) := by
  obtain ⟨x₁,hposted,hring⟩ := Option.bind_eq_some_iff.mp hstep
  obtain ⟨⟨r',s⟩,hop,he⟩ := Option.map_eq_some_iff.mp hring
  cases he
  obtain ⟨⟨posted,hpost⟩,hsq,hentries⟩ := exists_post hposted
  have hboth : IOUring.flakyCall op { posted, accepted := x₁.ring.sq.length } x₁.ring = some (r',s) ∧
      Faultless (s,RingLog.note op r' x.ring log) := by
    obtain ⟨hfaults,hfilled,hpos⟩ := hx
    dsimp only at hfaults hfilled hpos
    rw [← hsq] at hfilled
    rw [← hentries] at hpos
    cases op with
    | getSqe call userData op request =>
      refine ⟨hop,?_⟩
      simp only [IOUring.step] at hop
      split at hop
      · cases hop
        exact ⟨hfaults,by simp [RingLog.note, hfilled],hpos⟩
      · next hfull =>
        cases hop
        have hsome : log.filled ≠ 0 := by omega
        rw [RingLog.note, if_neg hsome]
        exact ⟨hfaults,hfilled,hpos⟩
    | submit call =>
      cases hop
      refine ⟨?_,hfaults,rfl,hpos⟩
      simp [IOUring.flakyCall, IOUring.submitSome]
    | waitCqe call =>
      refine ⟨hop,?_⟩
      obtain ⟨q,-,he⟩ := Option.map_eq_some_iff.mp hop
      cases he
      exact ⟨hfaults,hfilled,hpos⟩
    | complete =>
      refine ⟨hop,?_⟩
      simp only [IOUring.step] at hop
      split at hop
      · obtain ⟨_,-,he⟩ := Option.map_eq_some_iff.mp hop
        cases he
        exact ⟨hfaults,hfilled,hpos⟩
      · cases hop
    | enter | cqeSeen =>
      refine ⟨hop,?_⟩
      cases hop
      exact ⟨hfaults,hfilled,hpos⟩
  refine ⟨({ posted, accepted := x₁.ring.sq.length } : LiburingChoice),?_,hboth.2⟩
  exact Option.map_eq_some_iff.mpr ⟨(r',s),Option.bind_eq_some_iff.mpr ⟨x₁.ring,hpost,hboth.1⟩,rfl⟩

theorem exec_flaky {α : Type} {p : UringProg α} {a : α} {y : NodeWorld} {log : RingLog}
    (he : Exec (nodeMachine files) (fun _ _ => True) (ring p) x a y) (hx : Faultless (x.ring,log)) :
    ∃ log', Exec flakyMachine (fun _ _ => True) p (x.ring,log) a (y.ring,log') ∧ Faultless (y.ring,log') := by
  induction p generalizing x log with
  | ret b =>
    cases he
    exact ⟨log,.ret _ _,hx⟩
  | call op k ih =>
    cases he with
    | call _ hstep hrest =>
      obtain ⟨c',hflaky,hnext⟩ := flaky_of_ring hstep hx
      obtain ⟨log',hexec,hfaults⟩ := ih _ hrest hnext
      exact ⟨log',.call trivial hflaky hexec,hfaults⟩

def Prepares (ios : List UringIORequest) : NodeCall → Prop
  | .ring (.getSqe _ i _ request) => ios[i]? = some request
  | .ring .complete => False
  | .ring _ => True
  | _ => False

theorem makes_ring {α : Type} {P : NodeCall → Prop} {p : UringProg α} (hp : p.Makes fun op => P (.ring op)) :
    (ring p).Makes P := by
  apply Prog.makes_interp _ hp
  intro op hop
  exact Prog.makes_perform hop

section
variable {ios : List UringIORequest} {op : UringOp} {call : ℕ}

/-- A request with a file descriptor of its own keeps it. -/
theorem makes_prepare (hfds : ∀ io ∈ ios, 0 ≤ io.fd) (i room : ℕ) :
    (IOUringEngine.prepare op (-1) ios call i room).Makes fun op => Prepares ios (.ring op) := by
  induction room generalizing i with
  | zero => trivial
  | succ room ih =>
    unfold IOUringEngine.prepare
    split
    · trivial
    · next io hio =>
      have hfd := hfds io (List.mem_of_getElem? hio)
      refine Prog.makes_call_bind ?_ fun got => ?_
      · have hown : ({ io with fd := if 0 ≤ io.fd then io.fd else -1 } : UringIORequest) = io := by
          rw [if_pos hfd]
        rw [hown]
        exact hio
      · split
        · trivial
        · exact (ih (i + 1)).bind fun _ => trivial

theorem makes_reap (engine : IOUringEngine) (n : ℕ) (results : List UringIOResult) :
    (engine.reap op ios call n results).Makes fun op => Prepares ios (.ring op) := by
  induction n generalizing results with
  | zero => trivial
  | succ n ih =>
    refine Prog.makes_call_bind trivial fun cqe => ?_
    cases cqe with
    | none => exact ih results
    | some q => exact Prog.makes_call_bind trivial fun _ => ih _

theorem makes_subBatches (engine : IOUringEngine) (hfds : ∀ io ∈ ios, 0 ≤ io.fd) (rounds idx : ℕ)
    (results : List UringIOResult) :
    (engine.subBatches op (-1) ios call rounds idx results).Makes fun op => Prepares ios (.ring op) := by
  induction rounds generalizing idx results with
  | zero => trivial
  | succ rounds ih =>
    unfold IOUringEngine.subBatches
    split
    · trivial
    · refine (makes_prepare hfds idx _).bind fun submitted => ?_
      split
      · trivial
      · refine Prog.makes_call_bind trivial fun ret => ?_
        cases ret with
        | error e => exact ih _ _
        | ok taken => exact (makes_reap engine _ _).bind fun _ => ih _ _

theorem makes_batch (engine : IOUringEngine) (hfds : ∀ io ∈ ios, 0 ≤ io.fd) :
    (engine.batch op (-1) ios).Makes fun op => Prepares ios (.ring op) := by
  refine Prog.makes_call_bind trivial fun call => ?_
  split
  · trivial
  · exact (makes_subBatches engine hfds _ _ _).bind fun _ => trivial

end

def toCqe (d : Sqe × ReadOutcome) : Cqe := ⟨d.1,d.2.count⟩

/-- The ring has the requests under their positions, and what was completed since `x₀` was read. -/
structure Conforms (files : DataFiles) (ios : List UringIORequest) (x₀ x : NodeWorld) : Prop where
  queued : ∀ sqe ∈ x.ring.sq ++ x.ring.inFlight, ios[sqe.userData]? = some sqe.request
  reads : ∃ new : List (Sqe × ReadOutcome), x.ring.completed = x₀.ring.completed ++ new.map toCqe ∧
    x.served = x₀.served ++ new.map (fun d => (d.1.request,d.2)) ∧
    ∀ d ∈ new, ios[d.1.userData]? = some d.1.request ∧ Faithful files (d.1.request,d.2)

section
variable {ios : List UringIORequest} {x₀ y : NodeWorld}

theorem Conforms.completeAll {posted : List ℕ} (h : Conforms files ios x₀ x)
    (hx : NodeWorld.completeAll files posted x = some y) : Conforms files ios x₀ y := by
  induction posted generalizing x with
  | nil =>
    cases hx
    exact h
  | cons index posted ih =>
    obtain ⟨x₁,hone,hrest⟩ := Option.bind_eq_some_iff.mp hx
    obtain ⟨sqe,outcome,hsqe,hfaithful,-,hring,hone⟩ := complete_inv hone
    obtain ⟨new,hcompleted,hserved,hreads⟩ := h.reads
    have hrequest := h.queued sqe (List.mem_append_right _ (List.mem_of_getElem? hsqe))
    refine ih ⟨?_,new ++ [(sqe,outcome)],?_,?_,?_⟩ hrest
    · intro other hother
      rw [hring] at hother
      rcases List.mem_append.mp hother with hsq | hflight
      · exact h.queued other (List.mem_append_left _ hsq)
      · exact h.queued other (List.mem_append_right _ (List.mem_of_mem_eraseIdx hflight))
    · rw [hring]
      simp [hcompleted, toCqe]
    · simp [hone, hserved]
    · intro d hd
      rcases List.mem_append.mp hd with hd | hd
      · exact hreads d hd
      · rw [List.mem_singleton.mp hd]
        exact ⟨hrequest,hfaithful⟩

theorem Conforms.step {op : NodeCall} {c : NodeChoice} {r : op.Res} (h : Conforms files ios x₀ x)
    (hop : Prepares ios op) (hstep : (nodeMachine files).step op c x = some (r,y)) :
    Conforms files ios x₀ y := by
  cases op with
  | ring op =>
    obtain ⟨x₁,hposted,hring⟩ := Option.bind_eq_some_iff.mp hstep
    obtain ⟨⟨r',s⟩,hcall,he⟩ := Option.map_eq_some_iff.mp hring
    cases he
    have h₁ := h.completeAll hposted
    cases op with
    | getSqe call i op request =>
      simp only [IOUring.step] at hcall
      split at hcall
      · cases hcall
        refine ⟨?_,h₁.reads⟩
        intro sqe hsqe
        simp only [List.append_assoc, List.mem_append, List.mem_singleton] at hsqe
        rcases hsqe with hsq | rfl | hflight
        · exact h₁.queued sqe (List.mem_append_left _ hsq)
        · exact hop
        · exact h₁.queued sqe (List.mem_append_right _ hflight)
      · cases hcall
        exact h₁
    | submit call =>
      cases hcall
      refine ⟨?_,h₁.reads⟩
      intro sqe hsqe
      apply h₁.queued sqe
      simpa [or_comm] using hsqe
    | waitCqe call =>
      obtain ⟨q,-,he⟩ := Option.map_eq_some_iff.mp hcall
      cases he
      exact h₁
    | complete => cases hop
    | enter | cqeSeen =>
      cases hcall
      exact ⟨h₁.queued,h₁.reads⟩
  | getBufferedFd | getDirectFd | pread | runTasks => cases hop

end

section
variable {ios : List UringIORequest} {y : NodeWorld} {engine : IOUringEngine}

/-- What a call has got back are the completions since it began. -/
theorem reaped_perm {views : Multiset CallView} {v : CallView} {s t : IOUring} {new : List Cqe}
    (hs : Sharing s views) (ht : Sharing t (v ::ₘ views)) (hheld : s.held = []) (hheld' : t.held = [])
    (hcompleted : t.completed = s.completed ++ new) : new.Perm v.reaped := by
  have hempty : ∀ {u : IOUring}, u.held = [] → u.cq.contents = [] := by
    intro u hu
    have hmap := (List.append_eq_nil_iff.mp hu).2
    exact List.map_eq_nil_iff.mp hmap
  have hbefore := hs.completed
  have hafter := ht.completed
  rw [hempty hheld, Multiset.coe_nil, zero_add] at hbefore
  rw [hempty hheld', Multiset.coe_nil, zero_add, Multiset.cons_bind, hcompleted, ← Multiset.coe_add, hbefore,
    add_comm] at hafter
  exact Multiset.coe_eq_coe.mp (add_right_cancel hafter)

theorem Faultless.of_idle (hidle : x.ring.Idle) (hentries : 0 < x.ring.sqEntries) :
    Faultless (x.ring,({} : RingLog)) := by
  have hempty : x.ring.sq = [] :=
    (List.append_eq_nil_iff.mp (List.append_eq_nil_iff.mp hidle.1).1).1
  exact ⟨rfl,by simp [hempty],hentries⟩

/-- A call of the engine over a kernel that fails no call. -/
theorem engineReads_of_exec {statuses : List Status} (havailable : engine.available = true)
    (hidle : x.ring.Idle) (hentries : 0 < x.ring.sqEntries) (hfds : ∀ io ∈ ios, 0 ≤ io.fd)
    (he : Exec (nodeMachine files) (fun _ _ => True) (engineRead engine ios) x statuses y) :
    EngineReads files ios x y statuses := by
  obtain ⟨⟨call,results⟩,y₁,hbatch,hret⟩ := he.of_bind
  cases hret
  obtain ⟨hheld,views,hsharing⟩ := hidle
  have hempty : x.ring.sq = [] := (List.append_eq_nil_iff.mp (List.append_eq_nil_iff.mp hheld).1).1
  have hflight : x.ring.inFlight = [] := (List.append_eq_nil_iff.mp (List.append_eq_nil_iff.mp hheld).1).2
  -- what the call did to the ring
  obtain ⟨log,hflaky,⟨hfaults,-,-⟩⟩ := exec_flaky hbatch (.of_idle ⟨hheld,views,hsharing⟩ hentries)
  obtain ⟨v,hserving,hends⟩ := hflaky.ends (wp_batch_ends hheld hsharing)
  rw [if_pos havailable] at hends
  obtain ⟨hlength,⟨hprepared,hbalance⟩ | ⟨-,hfaulty,-⟩⟩ := hends
  swap
  · exact absurd hfaults hfaulty
  have hreaped := hbalance.all_iff.mp hfaults
  have hfits := hserving.sharing.fits v (Multiset.mem_cons_self _ _)
  have hreturns : engine.Returns .read v results := by
    refine ⟨hreaped,?_⟩
    rw [if_pos havailable, hserving.requests]
    exact ⟨hprepared,hbalance.folded hfaults⟩
  have hreported := hserving.sharing.reported hreturns
  -- what the kernel read for it
  have hstart : Conforms files ios x x := ⟨by simp [hempty, hflight],[],by simp,by simp,by simp⟩
  have hkeeps : wp (nodeMachine files) (fun _ _ => True) (fun _ z => Conforms files ios x z)
      (ring (engine.batchRead (-1) ios)) x :=
    wp_of_makes (makes_ring (makes_batch engine hfds)) (fun _ _ _ => trivial)
      (fun h hop hstep => h.step hop hstep) hstart
  obtain ⟨new,hcompleted,hserved,hreads⟩ := (hbatch.ends hkeeps).reads
  have hperm := reaped_perm hsharing hserving.sharing hheld (hserving.held_eq_nil hreaped) hcompleted
  have htags : (v.reaped.map fun q => q.sqe.userData).Perm (List.range ios.length) := by
    have hall := (Multiset.coe_eq_coe.mp (hfits.reaped_eq hreaped)).map Sqe.userData
    rw [hfits.tags, hprepared, List.map_map] at hall
    exact hall
  refine ⟨by rw [List.length_map, hlength],new.map fun d => (d.1.userData,d.1.request,d.2),?_,?_,?_⟩
  · rw [hserved, List.map_map]
    rfl
  · have hnew := (hperm.map fun q => q.sqe.userData).trans htags
    rw [List.map_map] at hnew ⊢
    exact hnew
  · intro d hd
    obtain ⟨d,hmem,rfl⟩ := List.mem_map.mp hd
    obtain ⟨hio,hfaithful⟩ := hreads d hmem
    refine ⟨hio,hfaithful,?_⟩
    have hlt : d.1.userData < results.length := by
      rw [hlength]
      exact (List.getElem?_eq_some_iff.mp hio).1
    have hq : toCqe d ∈ v.reaped := hperm.mem_iff.mp (List.mem_map_of_mem hmem)
    have hok : results[d.1.userData].status.isOk = isFull (d.1.request,d.2) := by
      rw [Bool.eq_iff_iff, hreported.isOk _ hlt, hserving.sharing.completes_iff hreaped, isFull,
        decide_eq_true_iff]
      constructor
      · rintro ⟨q,hq',htag,hsize⟩
        have hsame : q = toCqe d := List.inj_on_of_nodup_map
          (htags.nodup_iff.mpr List.nodup_range) hq' hq htag
        rwa [hsame] at hsize
      · exact fun hsize => ⟨toCqe d,hq,rfl,hsize⟩
    rw [List.getElem?_map, List.getElem?_eq_getElem hlt]
    exact congrArg some hok

end

end NodeLocalAccessor

end FalconKV
