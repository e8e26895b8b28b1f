import FalconKV.Store.Leases

/-! # Leases over whole runs

As long as the counter of tokens has not come round, everything that the service has and no
request is working on belongs to one lease. Once it has, a lease that was kept all the
while hides the new one with the same token.
-/
namespace FalconKV.Leases
open AtomicCalls

variable {cfg : StoreConfig} {engineAddr : String} {store : Store}
  {tr : List (Event serviceCalls StoreService)} {Q : Pool serviceCalls StoreService ServiceReply}

/-- What holds of the leases after a run. -/
structure LeasesOwned (storeId : ℕ) (tr : List (Event serviceCalls StoreService))
    (Q : Pool serviceCalls StoreService ServiceReply) : Prop where
  /-- Everything is in a lease or held by a request that has not returned. -/
  accounted : ∃ held, Owned storeId tr Q.state held ∧ (Q.Returned → held.1 = 0)
  buffers_once : (Q.state.hixlLeases.flatMap fun x => x.2.buffers).Nodup
  granted_once : (granted tr).Nodup
  taken_once : (taken tr).Nodup
  taken_granted : taken tr ⊆ granted tr
  prepared : ∀ (i : ℕ) response, Q.threads[i]? = some (.ret (.prepareHixlBatchRead response)) →
    Prepared response (deedsOf i tr)
  released : ∀ (i : ℕ) tok status, Q.threads[i]? = some (.ret (.releaseHixlRead tok status)) →
    Released tok status (deedsOf i tr)
  destroyed : Q.Returned → Q.state.destroy = { Q.state with live := 0, hixlLeases := [] }

theorem nodup_buffers {storeId : ℕ} {s : StoreService} {held : Held} (h : Owned storeId tr s held) :
    (s.hixlLeases.flatMap fun x => x.2.buffers).Nodup := by
  apply List.nodup_iff_count_le_one.mpr
  intro ptr
  have hle := h.buffers ptr
  have hcount : ∀ leases : List (String × HixlReadLease),
      (leases.map fun x => (x.2.resources : Multiset Resource)).sum.count (.buffer ptr) =
        (leases.flatMap fun x => x.2.buffers).count ptr := by
    intro leases
    induction leases with
    | nil => rfl
    | cons y leases ih =>
      have hhandles : (y.2.handles.map Resource.handle).count (.buffer ptr) = 0 := by
        apply List.count_eq_zero.mpr
        simp
      have hinjective : Function.Injective Resource.buffer := fun _ _ heq => Resource.buffer.inj heq
      rw [List.map_cons,List.sum_cons,Multiset.count_add,ih,List.flatMap_cons,List.count_append,
        HixlReadLease.resources,Multiset.coe_count,List.count_append,hhandles,zero_add,
        List.count_map_of_injective _ _ hinjective]
  have hsum := hcount s.hixlLeases
  rw [h.live,Multiset.count_add,leased,hsum] at hle
  omega

theorem owned_create (storeId : ℕ) (store : Store) : Owned storeId [] (.create store) 0 where
  live := rfl
  stray := rfl
  buffers _ := Nat.zero_le 1
  engine hpos := absurd hpos (Nat.lt_irrefl 0)
  handles _ hmem := absurd hmem (Multiset.notMem_zero _)
  counter := rfl
  granted_eq := rfl
  tokens := rfl

/-- What the requests have done, from their own programs. -/
theorem run_doing (h : Run storeServiceMachine (fun p => ∃ op, p = ServiceOp.run cfg engineAddr op)
      (fun _ _ => True) ⟨.create store,[]⟩ tr Q) {i : ℕ} {reply : ServiceReply}
    (hi : Q.threads[i]? = some (.ret reply)) :
    (∀ response, reply = .prepareHixlBatchRead response → Prepared response (deedsOf i tr)) ∧
      ∀ tok status, reply = .releaseHixlRead tok status → Released tok status (deedsOf i tr) := by
  have hstart : ∀ p, (∃ op, p = ServiceOp.run cfg engineAddr op) → doing.Kept (fun reply done =>
      (∀ response, reply = .prepareHixlBatchRead response → Prepared response done) ∧
        ∀ tok status, reply = .releaseHixlRead tok status → Released tok status done) p [] := by
    rintro _ ⟨op,rfl⟩
    cases op with
    | store op =>
      apply Ledger.kept_then
      intro _ _
      constructor <;> intros <;> contradiction
    | batchGetByKey keys =>
      apply Ledger.kept_then
      intro _ _
      constructor <;> intros <;> contradiction
    | prepareHixlBatchRead segments =>
      refine Ledger.kept_bind (Ledger.kept_mono (kept_prepareHixlBatchRead cfg engineAddr segments) ?_)
      intro response done hdone
      constructor
      · intro _ heq
        cases heq
        exact hdone
      · intros
        contradiction
    | releaseHixlRead tok =>
      refine Ledger.kept_bind (Ledger.kept_mono (kept_releaseHixlRead tok) ?_)
      intro status done hdone
      constructor
      · intros
        contradiction
      · intro _ _ heq
        cases heq
        exact hdone
  exact Ledger.run_noting (fun _ _ => trivial) hstart h hi

theorem leases_owned (h : Run storeServiceMachine (fun p => ∃ op, p = ServiceOp.run cfg engineAddr op)
      (fun _ _ => True) ⟨.create store,[]⟩ tr Q) (hgranted : (granted tr).length ≤ 2 ^ 64) :
    LeasesOwned cfg.storeId tr Q := by
  have hstart : ∀ p, (∃ op, p = ServiceOp.run cfg engineAddr op) →
      Uses (discipline cfg.storeId) done p 0 := by
    rintro _ ⟨op,rfl⟩
    exact uses_serviceOp cfg engineAddr op
  obtain ⟨gs,hgs,hacc⟩ := Run.shares (keeps cfg.storeId) hstart
    ⟨[],.nil,fun _ => owned_create cfg.storeId store⟩ h
  have howned := hacc hgranted
  have hzero : Q.Returned → gs.sum.1 = 0 := by
    intro hret
    apply hret.sum hgs (Q := fun held => held.1 = 0) rfl
    · intro g g' hg hg'
      rw [Prod.fst_add,hg,hg',add_zero]
    · exact fun _ _ hg => hg
  have hnodup : (granted tr).Nodup := by
    rw [howned.granted_eq]
    exact nodup_tokens cfg.storeId hgranted
  have hle : (taken tr : Multiset String) ≤ granted tr := by
    rw [howned.tokens]
    exact Multiset.le_add_right _ _
  exact {
    accounted := ⟨gs.sum,howned,hzero⟩
    buffers_once := nodup_buffers howned
    granted_once := hnodup
    taken_once := Multiset.coe_nodup.mp (Multiset.nodup_of_le hle (Multiset.coe_nodup.mpr hnodup))
    taken_granted := Multiset.coe_subset.mp (Multiset.subset_of_le hle)
    prepared := fun i response hi => (run_doing h hi).1 response rfl
    released := fun i tok status hi => (run_doing h hi).2 tok status rfl
    destroyed := by
      intro hret
      have hheld : gs.sum = (0,gs.sum.2) := Prod.ext (hzero hret) rfl
      rw [hheld] at howned
      exact howned.destroy }

def sampleConfig : StoreConfig := ⟨1,8,8,0,false,false⟩

def Rests (s : StoreService) : Prop :=
  ∃ tr ts, Run storeServiceMachine (fun p => ∃ op, p = ServiceOp.run sampleConfig "engine" op)
    (fun _ _ => True) ⟨.create (.init sampleConfig),[]⟩ tr ⟨s,ts⟩ ∧
    ∀ p ∈ ts, ∃ reply, p = .ret reply

theorem rests_create : Rests (.create (.init sampleConfig)) := ⟨[],[],.refl,by simp⟩

theorem Rests.exec {s s' : StoreService} (h : Rests s) (op : ServiceOp) {reply : ServiceReply}
    (he : Exec storeServiceMachine (fun _ _ => True) (op.run sampleConfig "engine") s reply s') :
    Rests s' := by
  obtain ⟨tr,ts,hrun,hts⟩ := h
  obtain ⟨tr',hrun'⟩ := hrun.then_exec ⟨op,rfl⟩ he
  refine ⟨tr',_,hrun',?_⟩
  intro p hp
  rcases List.mem_append.mp hp with hp | hp
  · exact hts p hp
  · exact ⟨reply,List.mem_singleton.mp hp⟩

/-- A lease of nothing that is released at once only moves the counter. -/
theorem Rests.renew {s : StoreService} (h : Rests s) (hinit : s.hixlInitialized = true)
    (hnone : s.findLease (StoreService.token 1 s.hixlNextToken) = none) :
    Rests { s with hixlNextToken := (s.hixlNextToken + 1) % 2 ^ 64 } := by
  have hensure : storeServiceMachine.step (.ensureHixlInitialized "engine") ({} : ServiceChoice) s =
      some (Status.OK,s) := by
    simp only [storeServiceMachine, StoreService.step, StoreService.ensureHixlInitialized, hinit,
      if_true]
  have hgrant : storeServiceMachine.step (.grantLease 1 []) ({} : ServiceChoice) s =
      some (some (StoreService.token 1 s.hixlNextToken),{ s with
        hixlNextToken := (s.hixlNextToken + 1) % 2 ^ 64
        hixlLeases := (StoreService.token 1 s.hixlNextToken,⟨[],[]⟩) :: s.hixlLeases }) := by
    have hacquire : s.acquire [] = s := by simp [StoreService.acquire]
    simp only [storeServiceMachine, StoreService.step, StoreService.grantLease, registerMem,
      Option.map_some, List.map_nil, hacquire, if_true, StoreService.addLease, hnone]
    rfl
  have hleased := h.exec (.prepareHixlBatchRead []) (.call trivial hensure (.call trivial hgrant (.ret _ _)))
  have htake : storeServiceMachine.step (.takeLease (StoreService.token 1 s.hixlNextToken))
      ({} : ServiceChoice) { s with
        hixlNextToken := (s.hixlNextToken + 1) % 2 ^ 64
        hixlLeases := (StoreService.token 1 s.hixlNextToken,⟨[],[]⟩) :: s.hixlLeases } =
      some (some ⟨[],[]⟩,{ s with hixlNextToken := (s.hixlNextToken + 1) % 2 ^ 64 }) := by
    simp [storeServiceMachine, StoreService.step, StoreService.takeLease, StoreService.findLease]
  have hderegister : storeServiceMachine.step (.deregister []) ({} : ServiceChoice)
      { s with hixlNextToken := (s.hixlNextToken + 1) % 2 ^ 64 } =
      some ((),{ s with hixlNextToken := (s.hixlNextToken + 1) % 2 ^ 64 }) := by
    simp [storeServiceMachine, StoreService.step, StoreService.releaseAll]
  exact hleased.exec (.releaseHixlRead (StoreService.token 1 s.hixlNextToken))
    (.call trivial htake (.call trivial hderegister (.ret _ _)))

def leaseOne : ServiceOp := .prepareHixlBatchRead [⟨0,4⟩]

def leaseChoices (ptr handle : ℕ) : List ServiceChoice :=
  [{},{ allocation := some ⟨ptr,fun _ => 0⟩ },{},{ registrations := [some handle] }]

def leased₁ : StoreService where
  store := .init sampleConfig
  live := [Resource.handle 11,.buffer 1]
  strayReleases := 0
  hixlInitialized := true
  hixlLeases := [(StoreService.token 1 1,⟨[1],[11]⟩)]
  hixlNextToken := 2

theorem rests_leased₁ : Rests leased₁ := by
  have he : execWith storeServiceMachine (fun _ _ => true) (leaseOne.run sampleConfig "engine")
      (leaseChoices 1 11) (.create (.init sampleConfig)) = some (_,leased₁) := rfl
  exact rests_create.exec leaseOne ((exec_of_execWith he).ok_mono fun _ _ _ => trivial)

theorem rests_renewed {n : ℕ} (hn : n ≤ 2 ^ 64 - 1) :
    Rests { leased₁ with hixlNextToken := (2 + n) % 2 ^ 64 } := by
  induction n with
  | zero => exact rests_leased₁
  | succ n ih =>
    have hnone : ({ leased₁ with hixlNextToken := (2 + n) % 2 ^ 64 } : StoreService).findLease
        (StoreService.token 1 ((2 + n) % 2 ^ 64)) = none := by
      have hne : StoreService.token 1 1 ≠ StoreService.token 1 ((2 + n) % 2 ^ 64) := by
        intro heq
        have hmod := token_injective heq
        omega
      have hother := beq_false_of_ne hne
      simp only [StoreService.findLease, leased₁, List.find?_cons, hother]
      rfl
    have hnext := (ih (by omega)).renew rfl hnone
    have hcounter : ((2 + n) % 2 ^ 64 + 1) % 2 ^ 64 = (2 + (n + 1)) % 2 ^ 64 := by omega
    rw [hcounter] at hnext
    exact hnext

def leaseStatus : ServiceProg ServiceReply → Option ℤ
  | .ret (.prepareHixlBatchRead response) => some response.status
  | .ret (.releaseHixlRead _ status) => some status
  | _ => none

def leaseSchedule : List (ℕ × ServiceChoice) :=
  [(0,{}),(0,{ allocation := some ⟨1,fun _ => 0⟩ }),(0,{}),(0,{ registrations := [some 11] }),
    (2,{}),(1,{}),(2,{}),(2,{})]

/-- A lease that two requests want to release. -/
theorem leases_owned_sample : ∃ tr Q, (granted tr).length = 1 ∧
    Q.threads.map leaseStatus = [some 0,some 2,some 0] ∧ LeasesOwned 1 tr Q := by
  have hops : ∀ p ∈ [leaseOne,.releaseHixlRead "1-1",.releaseHixlRead "1-1"].map
      (ServiceOp.run sampleConfig "engine"), ∃ op, p = ServiceOp.run sampleConfig "engine" op := by
    intro p hp
    obtain ⟨op,-,rfl⟩ := List.mem_map.mp hp
    exact ⟨op,rfl⟩
  have hfollow : (Pool.follow (M := storeServiceMachine) (fun _ _ => true) leaseSchedule
      ⟨.create (.init sampleConfig),[leaseOne,.releaseHixlRead "1-1",.releaseHixlRead "1-1"].map
        (ServiceOp.run sampleConfig "engine")⟩).map
        (fun x => ((granted x.1).length,x.2.threads.map leaseStatus)) =
      some (1,[some 0,some 2,some 0]) := rfl
  obtain ⟨tr,Q,hrun,hQ⟩ := run_of_schedule _ hops hfollow
  obtain ⟨hlength,hstatuses⟩ := Prod.mk.inj hQ
  dsimp only at hlength hstatuses
  exact ⟨tr,Q,hlength,hstatuses,
    leases_owned (hrun.ok_mono fun _ _ _ => trivial) (by omega)⟩

def leaked : StoreService :=
  { leased₁ with live := [Resource.handle 12,.buffer 2,.handle 11,.buffer 1] }

theorem rests_leaked : Rests leaked := by
  have hround : Rests { leased₁ with hixlNextToken := 1 } := by
    have hn := rests_renewed (Nat.le_refl (2 ^ 64 - 1))
    rwa [show (2 + (2 ^ 64 - 1)) % 2 ^ 64 = 1 by decide] at hn
  have he : execWith storeServiceMachine (fun _ _ => true) (leaseOne.run sampleConfig "engine")
      (leaseChoices 2 12) { leased₁ with hixlNextToken := 1 } = some (_,leaked) := rfl
  exact hround.exec leaseOne ((exec_of_execWith he).ok_mono fun _ _ _ => trivial)

/-- After 2^64 leases a buffer belongs to no lease and to no request. -/
theorem exists_leaked_lease : ∃ tr Q, Run storeServiceMachine
    (fun p => ∃ op, p = ServiceOp.run sampleConfig "engine" op) (fun _ _ => True)
    ⟨.create (.init sampleConfig),[]⟩ tr Q ∧ Q.Returned ∧
    ¬∃ held, Owned sampleConfig.storeId tr Q.state held ∧ (Q.Returned → held.1 = 0) := by
  obtain ⟨tr,ts,hrun,hts⟩ := rests_leaked
  have hret : Pool.Returned ⟨leaked,ts⟩ := by
    intro reply hreply
    obtain ⟨p,hp,rfl⟩ := List.mem_map.mp hreply
    obtain ⟨a,rfl⟩ := hts p hp
    rfl
  refine ⟨tr,_,hrun,hret,?_⟩
  rintro ⟨held,howned,hzero⟩
  have hlive := howned.live
  rw [hzero hret,add_zero] at hlive
  have hthere : leaked.live.count (.buffer 2) = 1 := by decide
  have hleased : (leased leaked).count (.buffer 2) = 0 := by decide
  have hcount := congrArg (Multiset.count (Resource.buffer 2)) hlive
  rw [hthere,hleased] at hcount
  cases hcount

end FalconKV.Leases
