import Mathlib.Data.List.AList
import FalconKV.AtomicCalls.Borrowing
import FalconKV.AtomicCalls.Stages
import FalconKV.Client.HixlReads

/-! # The clients of the stores, by address

The manager keeps a client for each address and answers with plain pointers. A read that has got
one goes through it without the lock, so it has to be there until the read returns. What the
services answer is left open.
-/
namespace FalconKV
open AtomicCalls

/-- The address for which `channel_` was initialized, and `connected_`. -/
structure StoreRpcClient where
  addr : String
  connected : Bool
  deriving DecidableEq

inductive RpcClientCall
  | getOrCreate (addr : String)
  /-- a call through a client, in a read from this address -/
  | through (addr : String) (rpc : Option ℕ) (op : HixlReadCall)
  /-- a call that goes through no client -/
  | engine (op : HixlReadCall)
  /-- a read from this address returns, that has looked these clients up -/
  | leave (addr : String) (rpcs : List ℕ)
  | closeAll

abbrev RpcClientCall.Res : RpcClientCall → Type
  | getOrCreate _ => Option ℕ
  | through _ _ op => op.Res
  | engine op => op.Res
  | leave .. => Unit
  | closeAll => Unit

abbrev rpcClientCalls : Signature := ⟨RpcClientCall,RpcClientCall.Res⟩

abbrev RpcClientProg := Prog rpcClientCalls

structure RpcClientChoice where
  /-- where a new client is allocated -/
  ptr : ℕ := 0
  /-- its channel can be initialized -/
  initialized : Bool := true
  answer : HixlReadChoice := {}

structure StoreRpcClientManager where
  clients : AList fun _ : String => ℕ
  heap : ℕ → Option StoreRpcClient
  backend : HixlRemoteReadBackend

namespace StoreRpcClientManager

def init : StoreRpcClientManager := ⟨∅,fun _ => none,⟨false⟩⟩

def connect (addr : String) (initialized : Bool) : Option StoreRpcClient :=
  if addr.isEmpty || !initialized then none else some ⟨addr,true⟩

def isConnected (m : StoreRpcClientManager) (ptr : ℕ) : Bool := (m.heap ptr).any StoreRpcClient.connected

def assign (m : StoreRpcClientManager) (addr : String) (ptr : ℕ) (client : StoreRpcClient) :
    StoreRpcClientManager :=
  let heap := match m.clients.lookup addr with
    | some old => Function.update m.heap old none
    | none => m.heap
  { m with clients := m.clients.insert addr ptr, heap := Function.update heap ptr (some client) }

def getOrCreate (m : StoreRpcClientManager) (c : RpcClientChoice) (addr : String) :
    Option (Option ℕ × StoreRpcClientManager) :=
  if addr.isEmpty then some (none,m)
  else match (m.clients.lookup addr).filter m.isConnected with
    | some ptr => some (some ptr,m)
    | none =>
      if (m.heap c.ptr).isSome then none
      else match connect addr c.initialized with
        | none => some (none,m)
        | some client => some (some c.ptr,m.assign addr c.ptr client)

def closeAll (m : StoreRpcClientManager) : StoreRpcClientManager :=
  { m with
    clients := ∅
    heap := fun ptr => if ptr ∈ m.clients.entries.map Sigma.snd then none else m.heap ptr }

def step (op : RpcClientCall) (c : RpcClientChoice) (m : StoreRpcClientManager) :
    Option (op.Res × StoreRpcClientManager) :=
  match op with
  | .getOrCreate addr => m.getOrCreate c addr
  | .through _ _ op => (m.backend.step op c.answer).map fun y => (y.1,m)
  | .engine op => (m.backend.step op c.answer).map fun y => (y.1,{ m with backend := y.2 })
  | .leave .. => some ((),m)
  | .closeAll => some ((),m.closeAll)

end StoreRpcClientManager

def rpcClientMachine : Machine rpcClientCalls StoreRpcClientManager :=
  ⟨RpcClientChoice,StoreRpcClientManager.step⟩

namespace RpcClientOps
variable {α : Type}

abbrev call (op : RpcClientCall) : RpcClientProg op.Res := Prog.perform (E := rpcClientCalls) op

/-- A read that keeps the client which it has looked up last in `rpc`, and goes through it; with
all that it has looked up. -/
def withClients (addr : String) : HixlReadProg α → Option ℕ → List ℕ → RpcClientProg (α × List ℕ)
  | .ret a, _, held => pure (a,held)
  | .call op k, rpc, held =>
    match op, k with
    | .getOrCreate a, k => do
      let rpc ← call (.getOrCreate a)
      withClients addr (k rpc.isSome) rpc (rpc.toList ++ held)
    | .batchRead segments, k => do
      let r ← call (.through addr rpc (.batchRead segments))
      withClients addr (k r) rpc held
    | .prepareHixlBatchRead segments clientId sourceNodeAddr, k => do
      let r ← call (.through addr rpc (.prepareHixlBatchRead segments clientId sourceNodeAddr))
      withClients addr (k r) rpc held
    | .releaseHixlRead tok, k => do
      let r ← call (.through addr rpc (.releaseHixlRead tok))
      withClients addr (k r) rpc held
    | .ensureHixlInitialized localEngine, k => do
      let r ← call (.engine (.ensureHixlInitialized localEngine))
      withClients addr (k r) rpc held
    | .registerMem ptr size, k => do
      let r ← call (.engine (.registerMem ptr size))
      withClients addr (k r) rpc held
    | .deregisterMem handle, k => do
      let r ← call (.engine (.deregisterMem handle))
      withClients addr (k r) rpc held
    | .connect remoteEngine timeoutMs, k => do
      let r ← call (.engine (.connect remoteEngine timeoutMs))
      withClients addr (k r) rpc held
    | .transferSync remoteEngine descs timeoutMs, k => do
      let r ← call (.engine (.transferSync remoteEngine descs timeoutMs))
      withClients addr (k r) rpc held

def read (addr : String) (p : HixlReadProg α) : RpcClientProg α := do
  let (x,held) ← withClients addr p none []
  call (.leave addr held)
  pure x

end RpcClientOps

/-- A read with either backend, or `Close` of the client. -/
inductive RpcClientOp
  | brpcBatchRead (cfg : HixlReadConfig) (request : RemoteReadRequest)
  | hixlBatchRead (cfg : HixlReadConfig) (request : RemoteReadRequest)
  | close

def RpcClientOp.run : RpcClientOp → RpcClientProg (Option (Status × List ℤ))
  | brpcBatchRead cfg request =>
    some <$> RpcClientOps.read request.storeAddr (HixlReadOps.brpcBatchRead cfg request)
  | hixlBatchRead cfg request =>
    some <$> RpcClientOps.read request.storeAddr (HixlReadOps.batchRead cfg request)
  | close => (fun _ => none) <$> RpcClientOps.call .closeAll

namespace RpcClients

def looking (addr : String) : Staging hixlReadCalls Bool where
  initial := false
  after := fun l a => match a with
    | ⟨.getOrCreate _,created⟩ => created
    | _ => l
  need := fun op l => match op with
    | .getOrCreate a => a = addr
    | .batchRead _ => l = true
    | .prepareHixlBatchRead .. => l = true
    | .releaseHixlRead _ => l = true
    | _ => True

variable {α : Type} {addr : String} {cfg : HixlReadConfig} {request : RemoteReadRequest}

def Keeps (op : HixlReadCall) : Prop :=
  match op with
  | .getOrCreate _ => False
  | _ => True

theorem kept_connected {p : HixlReadProg α} (hp : p.Makes Keeps) :
    (looking addr).ledger.Kept (fun _ l => l = true) p true := by
  apply Staging.kept_within hp
  intro op hop
  cases op with
  | getOrCreate => cases hop
  | batchRead => exact ⟨rfl,fun _ => rfl⟩
  | prepareHixlBatchRead => exact ⟨rfl,fun _ => rfl⟩
  | releaseHixlRead => exact ⟨rfl,fun _ => rfl⟩
  | _ => exact ⟨trivial,fun _ => rfl⟩

theorem keeps_deregisterAll (handles : List ℕ) : (HixlReadOps.deregisterAll handles).Makes Keeps :=
  Prog.makes_forEach (fun _ => Prog.makes_perform trivial) handles

theorem keeps_registerBuffers (tok : String) (items : List ((Allocation × ℕ) × ℕ × ℕ × ℤ)) (handles : List ℕ)
    (descs : List TransferOpDesc) :
    (HixlReadOps.registerBuffers request tok items handles descs).Makes Keeps := by
  induction items generalizing handles descs with
  | nil => trivial
  | cons item items ih =>
    obtain ⟨⟨buffer,size⟩,seg⟩ := item
    rw [HixlReadOps.registerBuffers]
    split
    · exact Prog.makes_call_bind trivial fun _ => trivial
    apply Prog.makes_call_bind trivial
    rintro ⟨code,handle⟩
    dsimp only
    split
    · apply (keeps_deregisterAll handles).bind
      intro _
      exact Prog.makes_call_bind trivial fun _ => trivial
    · exact ih _ _

theorem keeps_readPrepared (response : HixlBatchReadResponse) :
    (HixlReadOps.readPrepared cfg request response).Makes Keeps := by
  unfold HixlReadOps.readPrepared
  split
  · exact Prog.makes_call_bind trivial fun _ => trivial
  apply (keeps_registerBuffers _ _ _ _).bind
  rintro (_ | ⟨handles,descs⟩)
  · trivial
  apply Prog.makes_call_bind trivial
  intro conn
  split
  · apply (keeps_deregisterAll handles).bind
    intro _
    exact Prog.makes_call_bind trivial fun _ => trivial
  · apply Prog.makes_call_bind trivial
    intro code
    apply (keeps_deregisterAll handles).bind
    intro _
    apply Prog.makes_call_bind trivial
    intro _
    split
    · trivial
    · trivial

theorem kept_brpcBatchRead (cfg : HixlReadConfig) (request : RemoteReadRequest) (l : Bool) :
    (looking request.storeAddr).ledger.Kept (fun _ _ => True) (HixlReadOps.brpcBatchRead cfg request) l := by
  unfold HixlReadOps.brpcBatchRead
  split
  · trivial
  split
  · trivial
  apply Staging.kept_call rfl
  intro created
  split
  · trivial
  next hcreated =>
  have hlooked : created = true := by simpa using hcreated
  split
  · trivial
  exact Staging.kept_call hlooked fun _ => trivial

theorem kept_orFallback (s : Status) (l : Bool) :
    (looking request.storeAddr).ledger.Kept (fun _ _ => True) (HixlReadOps.orFallback cfg request s) l := by
  unfold HixlReadOps.orFallback
  split
  · exact kept_brpcBatchRead cfg request l
  · trivial

theorem kept_batchRead (cfg : HixlReadConfig) (request : RemoteReadRequest) :
    (looking request.storeAddr).ledger.Kept (fun _ _ => True) (HixlReadOps.batchRead cfg request) false := by
  unfold HixlReadOps.batchRead
  split
  · trivial
  split
  · trivial
  apply Staging.kept_call trivial
  intro init
  split
  · exact kept_orFallback init _
  apply Staging.kept_call rfl
  intro created
  split
  · trivial
  next hcreated =>
  have hlooked : created = true := by simpa using hcreated
  apply Staging.kept_call hlooked
  intro response
  split
  · exact kept_orFallback _ _
  next r _ =>
    have hstage : (looking request.storeAddr).after ((looking request.storeAddr).after
        ((looking request.storeAddr).after false ⟨.ensureHixlInitialized cfg.hixlLocalEngine,init⟩)
        ⟨.getOrCreate request.storeAddr,created⟩) ⟨.prepareHixlBatchRead request.segments request.clientId
          request.sourceNodeAddr,response⟩ = true := hlooked
    rw [hstage]
    exact Ledger.kept_mono (kept_connected (keeps_readPrepared r)) fun _ _ _ => trivial

abbrev Ref : Type := String × Option ℕ

def lending : Borrowing rpcClientCalls Ref where
  lends := fun op r => match op, r with
    | .getOrCreate a, some ptr => {(a,some ptr)}
    | _, _ => 0
  uses := fun op => match op with
    | .through a rpc _ => {(a,rpc)}
    | _ => 0
  returns := fun op => match op with
    | .leave a rpcs => rpcs.map fun ptr => (a,some ptr)
    | _ => 0

def refs (addr : String) (held : List ℕ) : Multiset Ref := held.map fun ptr => (addr,some ptr)

theorem mem_refs {held : List ℕ} {ptr : ℕ} (h : ptr ∈ held) : (addr,some ptr) ∈ refs addr held :=
  Multiset.mem_coe.mpr (List.mem_map.mpr ⟨ptr,h,rfl⟩)

theorem uses_through {rpc : Option ℕ} {held : List ℕ} (hrpc : ∀ ptr ∈ rpc, ptr ∈ held)
    (hsome : rpc.isSome = true) (op : HixlReadCall) : lending.uses (.through addr rpc op) ⊆ refs addr held := by
  intro ref href
  obtain rfl := Multiset.mem_singleton.mp href
  obtain ⟨ptr,rfl⟩ := Option.isSome_iff_exists.mp hsome
  exact mem_refs (hrpc ptr rfl)

/-- If a read looks up before it goes, it only goes through clients that it holds. -/
theorem uses_withClients (p : HixlReadProg α) (rpc : Option ℕ) (held : List ℕ)
    (hp : (looking addr).ledger.Kept (fun _ _ => True) p rpc.isSome) (hrpc : ∀ ptr ∈ rpc, ptr ∈ held) :
    Uses lending.discipline (fun x g => g = refs addr x.2) (RpcClientOps.withClients addr p rpc held)
      (refs addr held) := by
  induction p generalizing rpc held with
  | ret a => rfl
  | call op k ih =>
    have hstay : ∀ (r : op.Res), (looking addr).after rpc.isSome ⟨op,r⟩ = rpc.isSome →
        Uses lending.discipline (fun x g => g = refs addr x.2) (RpcClientOps.withClients addr (k r) rpc held)
          (0 + refs addr held) := by
      intro r hafter
      obtain ⟨l,⟨-,rfl⟩,hk⟩ := hp r trivial
      rw [hafter] at hk
      rw [zero_add]
      exact ih r rpc held hk hrpc
    cases op with
    | getOrCreate a =>
      obtain ⟨-,⟨rfl,-⟩,-⟩ := hp false trivial
      apply Borrowing.uses_lend rfl (Multiset.zero_subset _)
      intro r
      obtain ⟨l,⟨-,rfl⟩,hk⟩ := hp r.isSome trivial
      have hheld : lending.lends (.getOrCreate a) r + refs a held = refs a (r.toList ++ held) := by
        cases r with
        | none => exact zero_add _
        | some ptr => exact Multiset.singleton_add _ _
      rw [hheld]
      apply ih r.isSome r _ hk
      intro ptr hptr
      exact List.mem_append_left _ (Option.mem_toList.mpr hptr)
    | batchRead segments =>
      obtain ⟨-,⟨hneed,-⟩,-⟩ := hp none trivial
      exact Borrowing.uses_lend rfl (uses_through hrpc hneed _) fun r => hstay r rfl
    | prepareHixlBatchRead segments clientId sourceNodeAddr =>
      obtain ⟨-,⟨hneed,-⟩,-⟩ := hp none trivial
      exact Borrowing.uses_lend rfl (uses_through hrpc hneed _) fun r => hstay r rfl
    | releaseHixlRead tok =>
      obtain ⟨-,⟨hneed,-⟩,-⟩ := hp none trivial
      exact Borrowing.uses_lend rfl (uses_through hrpc hneed _) fun r => hstay r rfl
    | _ => exact Borrowing.uses_lend rfl (Multiset.zero_subset _) fun r => hstay r rfl

theorem fair_read {p : HixlReadProg α} (hp : (looking addr).ledger.Kept (fun _ _ => True) p false) :
    lending.Fair (RpcClientOps.read addr p) := by
  have hreads := uses_withClients p none [] hp fun _ h => by cases h
  apply uses_bind (uses_mono hreads ?_)
  rintro ⟨x,held⟩ _ rfl
  apply Borrowing.uses_call 0 (add_zero _).symm (Multiset.zero_subset _)
  intro _
  rfl

theorem fair_run (op : RpcClientOp) : lending.Fair op.run := by
  cases op with
  | brpcBatchRead cfg request =>
    apply uses_bind (uses_mono (fair_read (kept_brpcBatchRead cfg request false)) ?_)
    rintro _ _ rfl
    rfl
  | hixlBatchRead cfg request =>
    apply uses_bind (uses_mono (fair_read (kept_batchRead cfg request)) ?_)
    rintro _ _ rfl
    rfl
  | close =>
    apply Borrowing.uses_lend rfl (Multiset.zero_subset _)
    intro _
    rfl

variable {m m' : StoreRpcClientManager} {c : RpcClientChoice}

structure Own (m : StoreRpcClientManager) : Prop where
  kept : ∀ addr ptr, m.clients.lookup addr = some ptr → m.heap ptr = some ⟨addr,true⟩
  owned : ∀ ptr client, m.heap ptr = some client → m.clients.lookup client.addr = some ptr

theorem own_init : Own .init where
  kept := fun _ _ h => nomatch h
  owned := fun _ _ h => nomatch h

theorem Own.connected (h : Own m) {ptr : ℕ} {client : StoreRpcClient} (hptr : m.heap ptr = some client) :
    client.connected = true := by
  have hsame := h.kept client.addr ptr (h.owned ptr client hptr)
  rw [hptr] at hsame
  exact congrArg StoreRpcClient.connected (Option.some.inj hsame)

/-- A client that is kept is answered again: nothing ever disconnects it. -/
theorem Own.filter_lookup (h : Own m) (addr : String) :
    (m.clients.lookup addr).filter m.isConnected = m.clients.lookup addr := by
  cases hlook : m.clients.lookup addr with
  | none => rfl
  | some ptr =>
    apply Option.filter_some_pos
    rw [StoreRpcClientManager.isConnected, h.kept addr ptr hlook]
    rfl

/-- A new client for an address that has none. -/
theorem Own.assign (h : Own m) {ptr : ℕ} (hnone : m.clients.lookup addr = none) (hfree : m.heap ptr = none) :
    Own (m.assign addr ptr ⟨addr,true⟩) := by
  have hheap : (m.assign addr ptr ⟨addr,true⟩).heap = Function.update m.heap ptr (some ⟨addr,true⟩) := by
    simp only [StoreRpcClientManager.assign, hnone]
  have hclients : (m.assign addr ptr ⟨addr,true⟩).clients = m.clients.insert addr ptr := rfl
  constructor
  · intro a q hlook
    rw [hclients] at hlook
    rw [hheap]
    by_cases ha : a = addr
    · subst ha
      rw [AList.lookup_insert] at hlook
      cases hlook
      exact Function.update_self _ _ _
    · rw [AList.lookup_insert_ne ha] at hlook
      have hq := h.kept a q hlook
      have hne : q ≠ ptr := by
        rintro rfl
        cases hfree.symm.trans hq
      rw [Function.update_of_ne hne]
      exact hq
  · intro q client hq
    rw [hheap] at hq
    rw [hclients]
    by_cases hne : q = ptr
    · subst hne
      rw [Function.update_self] at hq
      cases hq
      exact AList.lookup_insert _
    · rw [Function.update_of_ne hne] at hq
      have hlook := h.owned q client hq
      have haddr : client.addr ≠ addr := by
        intro heq
        rw [heq, hnone] at hlook
        cases hlook
      rw [AList.lookup_insert_ne haddr]
      exact hlook

/-- What a lookup answers is kept for its address, and so is what was kept before. -/
theorem Own.getOrCreate (h : Own m) {r : Option ℕ} (hs : m.getOrCreate c addr = some (r,m')) :
    Own m' ∧ (∀ ptr ∈ r, m'.clients.lookup addr = some ptr) ∧
      ∀ a ptr, m.clients.lookup a = some ptr → m'.clients.lookup a = some ptr := by
  rw [StoreRpcClientManager.getOrCreate, h.filter_lookup] at hs
  have hnothing : Own m ∧ (∀ ptr ∈ (none : Option ℕ), m.clients.lookup addr = some ptr) ∧
      ∀ a ptr, m.clients.lookup a = some ptr → m.clients.lookup a = some ptr :=
    ⟨h,(fun _ hmem => nomatch hmem),fun _ _ hlook => hlook⟩
  split at hs
  · cases hs
    exact hnothing
  · split at hs
    · next ptr hlook =>
      cases hs
      refine ⟨h,?_,fun _ _ hkept => hkept⟩
      rintro _ ⟨⟩
      exact hlook
    · next hnone =>
      split at hs
      · cases hs
      · next hfree =>
        split at hs
        · cases hs
          exact hnothing
        · next client hconnect =>
          cases hs
          obtain rfl : client = ⟨addr,true⟩ := by
            unfold StoreRpcClientManager.connect at hconnect
            split at hconnect
            · cases hconnect
            · exact (Option.some.inj hconnect).symm
          have hunused : m.heap c.ptr = none := by simpa using hfree
          refine ⟨h.assign hnone hunused,?_,?_⟩
          · rintro _ ⟨⟩
            exact AList.lookup_insert _
          · intro a ptr hlook
            have hne : a ≠ addr := by
              rintro rfl
              cases hnone.symm.trans hlook
            exact (AList.lookup_insert_ne hne).trans hlook

theorem Own.closeAll (h : Own m) : Own m.closeAll := by
  have hempty : ∀ ptr, m.closeAll.heap ptr = none := by
    intro ptr
    cases hptr : m.heap ptr with
    | none => exact ite_eq_left_iff.mpr fun _ => hptr
    | some client =>
      have hentry := AList.mem_lookup_iff.mp (h.owned ptr client hptr)
      exact if_pos (List.mem_map_of_mem (f := Sigma.snd) hentry)
  constructor
  · intro addr ptr hlook
    cases hlook
  · intro ptr client hptr
    cases (hempty ptr).symm.trans hptr

/-- One call keeps this up, and nothing but `CloseAll` takes a client away. -/
theorem Own.step (h : Own m) {op : RpcClientCall} {r : op.Res} (hs : m.step op c = some (r,m')) :
    Own m' ∧ (op ≠ .closeAll → ∀ a ptr, m.clients.lookup a = some ptr → m'.clients.lookup a = some ptr) := by
  cases op with
  | getOrCreate addr =>
    obtain ⟨hown,-,hkept⟩ := h.getOrCreate hs
    exact ⟨hown,fun _ => hkept⟩
  | through addr rpc op =>
    obtain ⟨y,-,heq⟩ := Option.map_eq_some_iff.mp hs
    cases heq
    exact ⟨h,fun _ _ _ hlook => hlook⟩
  | engine op =>
    obtain ⟨y,-,heq⟩ := Option.map_eq_some_iff.mp hs
    cases heq
    exact ⟨⟨h.kept,h.owned⟩,fun _ _ _ hlook => hlook⟩
  | leave addr rpcs =>
    cases hs
    exact ⟨h,fun _ _ _ hlook => hlook⟩
  | closeAll =>
    cases hs
    exact ⟨h.closeAll,fun hne => absurd rfl hne⟩

abbrev RpcClientState : Type := StoreRpcClientManager × Multiset Ref

abbrev RpcClientEvent := Event rpcClientCalls RpcClientState

def Live (m : StoreRpcClientManager) (ref : Ref) : Prop :=
  ∃ ptr, ref.2 = some ptr ∧ m.heap ptr = some ⟨ref.1,true⟩

def Lent (x : RpcClientState) : Prop := Own x.1 ∧ ∀ ref ∈ x.2, Live x.1 ref

theorem Live.step {ref : Ref} (hlive : Live m ref) (h : Own m) {op : RpcClientCall} {r : op.Res}
    (hs : m.step op c = some (r,m')) (hop : op ≠ .closeAll) : Live m' ref := by
  obtain ⟨ptr,hptr,hclient⟩ := hlive
  obtain ⟨hown,hkept⟩ := h.step hs
  exact ⟨ptr,hptr,hown.kept ref.1 ptr (hkept hop ref.1 ptr (h.owned ptr _ hclient))⟩

/-- A lookup lends what is live, and nothing that is lent is taken away. -/
theorem Lent.step {x : RpcClientState} (h : Lent x) {op : RpcClientCall} {r : op.Res}
    (hok : op = .closeAll → x.2 = 0) (hs : x.1.step op c = some (r,m')) :
    Lent (m',lending.note op r x.1 x.2) := by
  obtain ⟨hown,hlive⟩ := h
  refine ⟨(hown.step hs).1,?_⟩
  intro ref href
  rcases Multiset.mem_add.mp href with hnew | hold
  · cases op with
    | getOrCreate addr =>
      cases r with
      | none => exact absurd hnew (Multiset.notMem_zero _)
      | some ptr =>
        obtain rfl := Multiset.mem_singleton.mp hnew
        obtain ⟨hown',hlook,-⟩ := hown.getOrCreate hs
        exact ⟨ptr,rfl,hown'.kept addr ptr (hlook ptr rfl)⟩
    | _ => exact absurd hnew (Multiset.notMem_zero _)
  · have hmem : ref ∈ x.2 := Multiset.mem_of_le (Multiset.sub_le_self _ _) hold
    apply (hlive ref hmem).step hown hs
    intro hop
    rw [hok hop] at hmem
    exact Multiset.notMem_zero _ hmem

/-- The clients that lookups have answered with since the last `CloseAll`. -/
def given (tr : List RpcClientEvent) : List (String × ℕ) :=
  tr.foldl (fun l e => match e with
    | ⟨_,_,.closeAll,_,_⟩ => []
    | ⟨_,_,.getOrCreate addr,some ptr,_⟩ => (addr,ptr) :: l
    | _ => l) []

/-- What lookups have answered with is what is kept. -/
theorem given_step {tr : List RpcClientEvent} {i : ℕ} {x x' : RpcClientState} {op : RpcClientCall} {r : op.Res}
    (h : Own x.1) (hgiven : ∀ y ∈ given tr, x.1.clients.lookup y.1 = some y.2)
    (hs : x.1.step op c = some (r,x'.1)) :
    ∀ y ∈ given (tr ++ [⟨i,x,op,r,x'⟩]), x'.1.clients.lookup y.1 = some y.2 := by
  intro y hy
  have hold : op ≠ .closeAll → y ∈ given tr → x'.1.clients.lookup y.1 = some y.2 :=
    fun hop hmem => (h.step hs).2 hop y.1 y.2 (hgiven y hmem)
  rw [given, List.foldl_append] at hy
  cases op with
  | getOrCreate addr =>
    cases r with
    | none => exact hold (fun hop => nomatch hop) hy
    | some ptr =>
      rcases List.mem_cons.mp hy with rfl | hmem
      · exact (h.getOrCreate hs).2.1 ptr rfl
      · exact hold (fun hop => nomatch hop) hmem
  | closeAll => exact absurd hy List.not_mem_nil
  | _ => exact hold (fun hop => nomatch hop) hy

/-- What holds of the clients after a run. -/
structure Served (tr : List RpcClientEvent) (P : Pool rpcClientCalls RpcClientState (Option (Status × List ℤ))) :
    Prop where
  /-- every call goes through a client that is there, connected, and one for the address of its read -/
  through : ∀ e ∈ tr, ∀ addr rpc op, e.op = .through addr rpc op → Live e.before.1 (addr,rpc)
  own : Own P.state.1
  given : ∀ y ∈ given tr, P.state.1.clients.lookup y.1 = some y.2
  returned : P.Returned → P.state.2 = 0

/-- As long as the client is closed when no read is going on, no call goes through a client that is
gone, and all reads from an address share one. -/
theorem rpc_clients_served {tr : List RpcClientEvent}
    {P : Pool rpcClientCalls RpcClientState (Option (Status × List ℤ))}
    (h : Run (rpcClientMachine.withRecord lending.note) (fun p => ∃ op : RpcClientOp, p = op.run)
      (fun x op => op = .closeAll → x.2 = 0) ⟨(.init,0),[]⟩ tr P) : Served tr P := by
  have hfair : ∀ p, (∃ op : RpcClientOp, p = op.run) → lending.Fair p := by
    rintro _ ⟨op,rfl⟩
    exact fair_run op
  have hinit : Lent (.init,0) := ⟨own_init,fun _ href => absurd href (Multiset.notMem_zero _)⟩
  have hlive : ∀ {x : RpcClientState} {ref : Ref}, Lent x → ref ∈ x.2 → Live x.1 ref :=
    fun hx href => hx.2 _ href
  obtain ⟨⟨hown,-⟩,hthrough,hreturned⟩ :=
    Borrowing.run Live hinit hlive (fun hx _ hok hs => hx.step hok hs) hfair h
  have hgiven : Own P.state.1 ∧ ∀ y ∈ given tr, P.state.1.clients.lookup y.1 = some y.2 := by
    apply h.invariant fun tr x => Own x.1 ∧ ∀ y ∈ given tr, x.1.clients.lookup y.1 = some y.2
    · exact ⟨own_init,fun _ hy => absurd hy List.not_mem_nil⟩
    · rintro tr i x op c r x' ⟨hown,hgiven⟩ - hs
      obtain ⟨hs,-⟩ := Machine.withRecord_step hs
      exact ⟨(hown.step hs).1,given_step hown hgiven hs⟩
  refine ⟨?_,hown,hgiven.2,hreturned⟩
  intro e he addr rpc op hop
  apply hthrough e he
  rw [hop]
  exact Multiset.mem_singleton_self _

def sampleConfig : HixlReadConfig := ⟨true,"local",true,5000,1⟩

def sampleRequest : RemoteReadRequest := ⟨"store",1,"client",[0],[4],[⟨9,fun _ => 0⟩]⟩

/-- A read, another one that falls back from one backend to the other, and then `Close`. -/
def sampleOps : List RpcClientOp :=
  [.brpcBatchRead sampleConfig sampleRequest,.hixlBatchRead sampleConfig sampleRequest,.close]

def sampleSchedule : List (ℕ × RpcClientChoice) :=
  [(0,{ ptr := 5 }),(1,{}),(1,{}),(0,{}),(1,{}),(1,{}),(0,{}),(1,{}),(1,{}),(2,{})]

def lookups (tr : List RpcClientEvent) : List (Option ℕ) :=
  tr.filterMap fun e => match e with
    | ⟨_,_,.getOrCreate _,r,_⟩ => some r
    | _ => none

theorem rpc_clients_served_two : ∃ (tr : List RpcClientEvent)
    (P : Pool rpcClientCalls RpcClientState (Option (Status × List ℤ))),
    lookups tr = [some 5,some 5,some 5] ∧ P.state.1.heap 5 = none ∧ Served tr P := by
  have hops : ∀ p ∈ sampleOps.map RpcClientOp.run, ∃ op : RpcClientOp, p = op.run := by
    intro p hp
    obtain ⟨op,-,rfl⟩ := List.mem_map.mp hp
    exact ⟨op,rfl⟩
  have hfollow : (Pool.follow (M := rpcClientMachine.withRecord lending.note)
      (fun x op => match op with
        | .closeAll => decide (x.2 = 0)
        | _ => true) sampleSchedule ⟨(.init,0),sampleOps.map RpcClientOp.run⟩).map
        (fun x => (lookups x.1,x.2.state.1.heap 5)) = some ([some 5,some 5,some 5],none) := by decide
  obtain ⟨tr,P,hrun,hP⟩ := run_of_schedule _ hops hfollow
  obtain ⟨hlookups,hheap⟩ := Prod.mk.inj hP
  refine ⟨tr,P,hlookups,hheap,rpc_clients_served (hrun.ok_mono ?_)⟩
  rintro x op hcheck rfl
  exact of_decide_eq_true hcheck

end RpcClients

end FalconKV
