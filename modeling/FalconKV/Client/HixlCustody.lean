import FalconKV.AtomicCalls.Components
import FalconKV.Client.HixlBalance
import FalconKV.Client.HixlSystem
import FalconKV.Store.LeaseRuns

/-! # Who may release a lease

A lease goes from the handler that grants it into the reply, from there to the client that reads
the reply, and back in a request to release it. Each of them holds its token, and the list of the
buffers, alone. What is looked at is the store at one address.
-/
namespace FalconKV.HixlCustody
open AtomicCalls

/-- Tokens with the buffers of their leases. -/
abbrev Leases : Type := Multiset (String × List ℕ)

abbrev Custody : Type := Leases × Multiset String

def here (addr a : String) : Custody →+ Custody := if a = addr then .id Custody else 0

@[simp] theorem here_self (addr : String) (g : Custody) : here addr addr g = g := by simp [here]

theorem here_other {addr a : String} (h : a ≠ addr) (g : Custody) : here addr a g = 0 := by
  simp [here, h]

def leaseIn : ServiceReply → Leases
  | .prepareHixlBatchRead response =>
    if response.status = 0 then {(response.token,response.segments.map Prod.fst)} else 0
  | _ => 0

def askedIn : HixlMessage → Multiset String
  | .releaseHixlRead tok => {tok}
  | _ => 0

def Fits (stores : HixlStores) (request : HixlRequest) : ServiceReply → Prop
  | .prepareHixlBatchRead response => response.status = 0 →
    response.remoteEngine = stores.engineAddr request.addr ∧ ∃ segments clientId sourceNodeAddr,
      request.message = .prepareHixlBatchRead segments clientId sourceNodeAddr ∧
      response.segments.map (fun seg => seg.2.1) = segments.map BatchReadSegment.size
  | _ => True

structure Covered (stores : HixlStores) (request : RemoteReadRequest) (remoteEngine : String)
    (descs : List TransferOpDesc) : Prop where
  engine : remoteEngine = stores.engineAddr request.storeAddr
  localAddrs : descs.map TransferOpDesc.localAddr = request.buffers.map Allocation.ptr
  lens : descs.map TransferOpDesc.len = request.sizes

def Needs (stores : HixlStores) (request : RemoteReadRequest) (op : HixlReadCall) (g : Leases) : Prop :=
  match op with
  | .transferSync remoteEngine descs _ => Covered stores request remoteEngine descs ∧
    ∃ tok, g = {(tok,descs.map TransferOpDesc.remoteAddr)}
  | _ => g = 0

def serving : Discipline serviceCalls Custody where
  guar := fun _ _ => True
  rule := fun op r used made => match op, r with
    | .grantLease _ buffers, some tok => used = 0 ∧ made = ({(tok,buffers)},0)
    | .takeLease tok, _ => used = (0,{tok}) ∧ made = 0
    | _, _ => used = 0 ∧ made = 0

/-- Calls that leave leases alone. -/
def Idle : ServiceCall → Prop
  | .grantLease .. => False
  | .takeLease _ => False
  | _ => True

theorem serving_idle (op : ServiceCall) (r : op.Res) (h : Idle op) : serving.rule op r 0 0 := by
  cases op with
  | grantLease => cases h
  | takeLease => cases h
  | _ => exact ⟨rfl,rfl⟩

theorem uses_idle_call {α : Type} {post : α → Custody → Prop} {op : ServiceCall} {k : op.Res → ServiceProg α}
    {g : Custody} (h : Idle op) (hk : ∀ r, Uses serving post (k r) g) :
    Uses serving post (StoreServiceOps.call op >>= k) g :=
  uses_idle (fun r => serving_idle op r h) fun r _ => hk r

theorem idle_onStore {α : Type} (p : StoreProg α) : (StoreServiceOps.onStore p).Makes Idle := by
  have hop : ∀ op : storeCalls.Op, True → (StoreServiceOps.call (.store op)).Makes Idle :=
    fun op _ => Prog.makes_perform trivial
  exact Prog.makes_interp hop p.makes_true

theorem idle_freeBuffers (buffers : List ℕ) : (StoreServiceOps.freeBuffers buffers).Makes Idle :=
  Prog.makes_forEach (fun _ => Prog.makes_perform trivial) buffers

theorem idle_serveKeys (hits : List StoreKeyRecord) (keys : List Key) (response : BatchGetByKeyResponse)
    (allOk : Bool) : (StoreServiceOps.serveKeys hits keys response allOk).Makes Idle := by
  induction keys generalizing response allOk with
  | nil => trivial
  | cons key keys ih =>
    have hkey : (StoreServiceOps.serveKey hits key response allOk).Makes Idle := by
      unfold StoreServiceOps.serveKey
      split
      · trivial
      · apply Prog.makes_call_bind trivial
        intro allocated
        cases allocated with
        | none => trivial
        | some a =>
          apply (idle_onStore _).bind
          rintro ⟨result,buffer⟩
          dsimp only
          split
          · exact Prog.makes_call_bind trivial fun _ => trivial
          · exact Prog.makes_call_bind trivial fun _ => trivial
    exact hkey.bind fun next => ih next.1 next.2

/-- The items are those for the segments, in their order. -/
theorem uses_allocateItems (segments : List RemoteSegment) (items : List HixlItem) (g : Custody) :
    Uses serving (fun r g' => g' = g ∧ ∀ items' ∈ r, items'.map HixlItem.size =
        items.map HixlItem.size ++ segments.map RemoteSegment.size)
      (StoreServiceOps.allocateItems segments items) g := by
  induction segments generalizing items with
  | nil =>
    refine ⟨rfl,?_⟩
    intro items' hmem
    cases hmem
    exact (List.append_nil _).symm
  | cons seg segments ih =>
    apply uses_idle_call
    · trivial
    intro allocated
    cases allocated with
    | none =>
      have hfree := uses_of_makes (g := g) (idle_freeBuffers (items.map fun item => item.allocation.ptr)) serving_idle
      apply uses_bind (uses_mono hfree ?_)
      rintro _ _ rfl
      refine ⟨rfl,?_⟩
      intro items' hmem
      cases hmem
    | some a =>
      apply uses_mono (ih _)
      rintro r g' ⟨rfl,hitems⟩
      refine ⟨rfl,?_⟩
      intro items' hmem
      rw [hitems items' hmem, List.map_append, List.append_assoc]
      rfl

/-- A response that is ok hands over the lease that was granted for it. -/
theorem uses_prepareHixlBatchRead (cfg : StoreConfig) (engineAddr : String) (segments : List RemoteSegment) :
    Uses serving (fun response g => g = (leaseIn (.prepareHixlBatchRead response),0) ∧
        (response.status = 0 → response.remoteEngine = engineAddr ∧
          response.segments.map (fun seg => seg.2.1) = segments.map RemoteSegment.size))
      (StoreServiceOps.prepareHixlBatchRead cfg engineAddr segments) 0 := by
  have hfailed : ∀ status : ℤ, status ≠ 0 →
      (0 : Custody) = (leaseIn (.prepareHixlBatchRead (StoreServiceOps.failedLease status)),0) ∧
        ((StoreServiceOps.failedLease status).status = 0 →
          (StoreServiceOps.failedLease status).remoteEngine = engineAddr ∧
          (StoreServiceOps.failedLease status).segments.map (fun seg => seg.2.1) =
            segments.map RemoteSegment.size) := by
    intro status hne
    constructor
    · rw [leaseIn, StoreServiceOps.failedLease, if_neg hne]
      rfl
    · intro heq
      exact absurd heq hne
  apply uses_idle_call
  · trivial
  intro init
  cases hok : init.isOk with
  | false => exact hfailed _ (KeyReads.toNat_ne_zero hok)
  | true =>
    apply uses_bind (uses_mono (uses_allocateItems segments [] 0) ?_)
    rintro allocated g ⟨rfl,hitems⟩
    cases allocated with
    | none => exact hfailed _ (by decide)
    | some items =>
      have hread := uses_of_makes (g := (0 : Custody))
        (idle_onStore (StoreOps.batchRead cfg (items.map StoreServiceOps.HixlItem.toRead))) serving_idle
      apply uses_bind (uses_mono hread ?_)
      rintro ⟨s,_⟩ g rfl
      dsimp only
      cases hs : s.isOk with
      | false =>
        have hfree := uses_of_makes (g := (0 : Custody))
          (idle_freeBuffers (items.map fun item => item.allocation.ptr)) serving_idle
        apply uses_bind (uses_mono hfree ?_)
        rintro _ g rfl
        exact hfailed _ (KeyReads.toNat_ne_zero hs)
      | true =>
        apply uses_perform
        intro granted _
        cases granted with
        | none => exact ⟨0,0,0,⟨rfl,rfl⟩,rfl,hfailed _ (by decide)⟩
        | some tok =>
          refine ⟨0,_,0,⟨rfl,rfl⟩,(add_zero 0).symm,?_⟩
          rw [add_zero]
          have hsizes := hitems items rfl
          rw [List.map_nil, List.nil_append] at hsizes
          constructor
          · rw [leaseIn, if_pos rfl, List.map_map]
            rfl
          · intro _
            refine ⟨rfl,?_⟩
            rw [List.map_map]
            exact hsizes

theorem uses_releaseHixlRead (tok : String) :
    Uses serving (fun _ g => g = 0) (StoreServiceOps.releaseHixlRead tok) (0,{tok}) := by
  apply uses_perform
  intro found _
  refine ⟨_,0,0,⟨rfl,rfl⟩,(add_zero _).symm,?_⟩
  rw [add_zero]
  cases found with
  | none => rfl
  | some lease =>
    apply uses_idle_call
    · trivial
    intro _
    have hfree := uses_of_makes (g := (0 : Custody)) (idle_freeBuffers lease.buffers) serving_idle
    apply uses_bind (uses_mono hfree ?_)
    rintro _ _ rfl
    rfl

/-- The handler of a message ends up with the lease that its reply hands over. -/
theorem uses_handler (stores : HixlStores) (request : HixlRequest) :
    Uses serving (fun reply g => g = (leaseIn reply,0) ∧ Fits stores request reply)
      (request.message.toOp.run (stores.cfg request.addr) (stores.engineAddr request.addr))
      (0,askedIn request.message) := by
  obtain ⟨id,addr,message⟩ := request
  cases message with
  | prepareHixlBatchRead segments clientId sourceNodeAddr =>
    apply uses_bind (uses_mono (uses_prepareHixlBatchRead _ _ _) ?_)
    rintro response g ⟨hg,hfits⟩
    refine ⟨hg,?_⟩
    intro hok
    obtain ⟨hengine,hsizes⟩ := hfits hok
    refine ⟨hengine,segments,clientId,sourceNodeAddr,rfl,?_⟩
    rw [hsizes, List.map_map]
    rfl
  | releaseHixlRead tok =>
    apply uses_bind (uses_mono (uses_releaseHixlRead tok) ?_)
    rintro status _ rfl
    exact ⟨rfl,trivial⟩

def custody (stores : HixlStores) (addr : String) : Discipline hixlSystemCalls Custody where
  guar := fun op r => match op, r with
    | .send a message, request => request.addr = a ∧ request.message = message
    | .await request, some reply => Fits stores request reply
    | _, _ => True
  rule := fun op r used made => match op, r with
    | .atClient _ request op, _ => (∃ g, Needs stores request op g ∧ used = here addr request.storeAddr (g,0)) ∧
      made = used
    | .send a message, _ => (∃ g : Leases, g.map Prod.fst = askedIn message ∧ used = here addr a (g,0)) ∧
      made = 0
    | .await request, some reply => used = 0 ∧ made = here addr request.addr (leaseIn reply,0)
    | .receive request, _ => used = 0 ∧ made = here addr request.addr (0,askedIn request.message)
    | .atStore a op, r => ∃ u m, serving.rule op r u m ∧ used = here addr a u ∧ made = here addr a m
    | .reply request reply, _ => Fits stores request reply ∧
      used = here addr request.addr (leaseIn reply,0) ∧ made = 0
    | _, _ => used = 0 ∧ made = 0

variable {stores : HixlStores} {addr : String} {α β : Type}

theorem uses_onService (a : String) {post : α → Custody → Prop} {p : ServiceProg α} {g : Custody}
    (hp : Uses serving post p g) : Uses (custody stores addr)
      (fun r g' => ∃ g₁, post r g₁ ∧ g' = here addr a g₁) (HixlSystemOps.onService a p) (here addr a g) := by
  apply uses_interp_along (here addr a) _ hp
  intro op g P hop r _
  obtain ⟨used,made,rest,hrule,rfl,hP⟩ := hop r trivial
  refine ⟨here addr a used,here addr a made,here addr a rest,⟨used,made,hrule,rfl,rfl⟩,map_add _ _ _,?_⟩
  rw [← map_add]
  exact hP

def purse (addr a : String) : Leases →+ Custody := (here addr a).comp (.inl Leases (Multiset String))

/-- A part of a read, started with `g`, can pay for all its calls and ends in `post`. -/
def Reads (stores : HixlStores) (addr : String) (client : ℕ) (request : RemoteReadRequest)
    (post : α → Leases → Prop) (p : HixlReadProg α) (g : Leases) : Prop :=
  Uses (custody stores addr) (fun a g' => ∃ g₁, post a g₁ ∧ g' = purse addr request.storeAddr g₁)
    (p.interp (HixlSystemOps.remote client request)) (purse addr request.storeAddr g)

variable {client : ℕ} {request : RemoteReadRequest} {cfg : HixlReadConfig} {post : α → Leases → Prop}
  {tok : String} {buffers : List ℕ} {g : Leases}

/-- What is left of a read that holds nothing. -/
theorem Reads.of_zero {p : HixlReadProg α} (h : Reads stores addr client request post p 0) :
    Uses (custody stores addr) (fun a g' => ∃ g₁, post a g₁ ∧ g' = purse addr request.storeAddr g₁)
      (p.interp (HixlSystemOps.remote client request)) 0 := by
  rwa [Reads, map_zero] at h

theorem reads_ret {a : α} (h : post a g) : Reads stores addr client request post (.ret a) g := ⟨g,h,rfl⟩

theorem reads_bind {p : HixlReadProg β} {f : β → HixlReadProg α}
    (h : Reads stores addr client request (fun b g' => Reads stores addr client request post (f b) g') p g) :
    Reads stores addr client request post (p >>= f) g := by
  rw [Reads, Prog.interp_bind]
  apply uses_bind (uses_mono h ?_)
  rintro b _ ⟨g₁,hf,rfl⟩
  exact hf

theorem reads_mono {post' : α → Leases → Prop} {p : HixlReadProg α} (h : Reads stores addr client request post p g)
    (hp : ∀ a g', post a g' → post' a g') : Reads stores addr client request post' p g := by
  apply uses_mono h
  rintro a _ ⟨g₁,ha,rfl⟩
  exact ⟨g₁,hp a g₁ ha,rfl⟩

def Free : HixlReadCall → Prop
  | .prepareHixlBatchRead .. => False
  | .releaseHixlRead _ => False
  | .transferSync .. => False
  | _ => True

theorem reads_free_call {op : HixlReadCall} {k : op.Res → HixlReadProg α} (h : Free op)
    (hk : ∀ r, Reads stores addr client request post (k r) g) :
    Reads stores addr client request post (HixlReadOps.ask op >>= k) g := by
  have hidle : ∀ r : op.Res, (custody stores addr).rule (.atClient client request op) r 0 0 := by
    intro r
    refine ⟨⟨0,?_,(map_zero (here addr request.storeAddr)).symm⟩,rfl⟩
    cases op with
    | transferSync => cases h
    | _ => rfl
  cases op with
  | prepareHixlBatchRead => cases h
  | releaseHixlRead => cases h
  | transferSync => cases h
  | _ => exact uses_idle hidle fun r _ => hk r

theorem reads_free {p : HixlReadProg β} {f : β → HixlReadProg α} (hp : p.Makes Free)
    (hf : ∀ b, Reads stores addr client request post (f b) g) :
    Reads stores addr client request post (p >>= f) g := by
  induction p with
  | ret b => exact hf b
  | call op k ih => exact reads_free_call hp.1 fun r => ih r (hp.2 r)

/-- Only a request to prepare a read can be answered with a lease. -/
theorem leaseIn_of_release {asked : HixlRequest} {reply : ServiceReply} (hfits : Fits stores asked reply)
    (hmessage : asked.message = .releaseHixlRead tok) : leaseIn reply = 0 := by
  cases reply with
  | prepareHixlBatchRead response =>
    apply if_neg
    intro hok
    obtain ⟨-,_,_,_,hprepare,-⟩ := hfits hok
    cases hmessage.symm.trans hprepare
  | _ => rfl

/-- Waiting for a reply, with what it hands over. -/
theorem uses_await {asked : HixlRequest} {k : Option ServiceReply → HixlSystemProg α} {post : α → Custody → Prop}
    {g : Custody} (hnone : Uses (custody stores addr) post (k none) g)
    (hsome : ∀ reply, Fits stores asked reply →
      Uses (custody stores addr) post (k (some reply)) (here addr asked.addr (leaseIn reply,0) + g)) :
    Uses (custody stores addr) post (HixlSystemOps.call (.await asked) >>= k) g := by
  apply uses_perform
  intro r hfits
  cases r with
  | none => exact ⟨0,0,g,⟨rfl,rfl⟩,(zero_add g).symm,by rwa [zero_add]⟩
  | some reply => exact ⟨0,_,g,⟨rfl,rfl⟩,(zero_add g).symm,hsome reply hfits⟩

/-- A way out on which the lease is released. -/
theorem reads_release {f : Option ℤ → HixlReadProg α}
    (hf : ∀ r, Reads stores addr client request post (f r) 0) :
    Reads stores addr client request post (HixlReadOps.ask (.releaseHixlRead tok) >>= f) {(tok,buffers)} := by
  rintro sent ⟨-,hmessage⟩
  refine ⟨_,0,0,⟨⟨_,Multiset.map_singleton _ _,rfl⟩,rfl⟩,(add_zero _).symm,?_⟩
  rw [add_zero]
  apply uses_await
  · exact (hf none).of_zero
  · intro reply hfits
    rw [leaseIn_of_release hfits hmessage, Prod.mk_zero_zero, map_zero, zero_add]
    exact (hf _).of_zero

def leaseOf : Option HixlBatchReadResponse → Leases
  | some response => leaseIn (.prepareHixlBatchRead response)
  | none => 0

theorem reads_prepare {segments : List BatchReadSegment} {clientId : ℕ} {sourceNodeAddr : String}
    {f : Option HixlBatchReadResponse → HixlReadProg α}
    (hf : ∀ r, (∀ response ∈ r, response.status = 0 →
        response.remoteEngine = stores.engineAddr request.storeAddr ∧
          response.segments.map (fun seg => seg.2.1) = segments.map BatchReadSegment.size) →
      Reads stores addr client request post (f r) (leaseOf r)) :
    Reads stores addr client request post
      (HixlReadOps.ask (.prepareHixlBatchRead segments clientId sourceNodeAddr) >>= f) 0 := by
  have hnothing : Reads stores addr client request post (f none) 0 := hf none fun _ h => by cases h
  rintro sent ⟨haddr,hmessage⟩
  refine ⟨0,0,0,⟨⟨0,rfl,(map_zero _).symm⟩,rfl⟩,?_,?_⟩
  · rw [add_zero, map_zero]
  rw [add_zero]
  apply uses_await
  · exact hnothing.of_zero
  · intro reply hfits
    rw [add_zero]
    cases reply with
    | prepareHixlBatchRead response =>
      rw [haddr]
      apply hf (some response)
      rintro _ ⟨⟩ hok
      obtain ⟨hengine,segments',_,_,hprepare,hsizes⟩ := hfits hok
      cases hmessage.symm.trans hprepare
      exact ⟨haddr ▸ hengine,hsizes⟩
    | _ =>
      simp only [leaseIn, Prod.mk_zero_zero, map_zero]
      exact hnothing.of_zero

theorem reads_transferSync {remoteEngine : String} {descs : List TransferOpDesc} {timeoutMs : ℤ}
    {f : ℕ → HixlReadProg α} (hcovered : Covered stores request remoteEngine descs)
    (hf : ∀ code, Reads stores addr client request post (f code) {(tok,descs.map TransferOpDesc.remoteAddr)}) :
    Reads stores addr client request post (HixlReadOps.ask (.transferSync remoteEngine descs timeoutMs) >>= f)
      {(tok,descs.map TransferOpDesc.remoteAddr)} := by
  intro code _
  refine ⟨_,_,0,⟨⟨_,⟨hcovered,tok,rfl⟩,rfl⟩,rfl⟩,(add_zero _).symm,?_⟩
  rw [add_zero]
  exact hf code

theorem free_brpcBatchRead (cfg : HixlReadConfig) (request : RemoteReadRequest) :
    (HixlReadOps.brpcBatchRead cfg request).Makes Free := by
  unfold HixlReadOps.brpcBatchRead
  split
  · trivial
  split
  · trivial
  apply Prog.makes_call_bind trivial
  intro created
  split
  · trivial
  split
  · trivial
  exact Prog.makes_call_bind trivial fun reply => trivial

theorem free_deregisterAll (handles : List ℕ) : (HixlReadOps.deregisterAll handles).Makes Free :=
  Prog.makes_forEach (fun _ => Prog.makes_perform trivial) handles

def descOf (x : (Allocation × ℕ) × ℕ × ℕ × ℤ) : TransferOpDesc := ⟨x.1.1.ptr,x.2.1,x.2.2.1⟩

/-- Either the lease is released, or every segment has its descriptor. -/
theorem reads_registerBuffers (items : List ((Allocation × ℕ) × ℕ × ℕ × ℤ)) (handles : List ℕ)
    (descs : List TransferOpDesc) :
    Reads stores addr client request (fun r g => match r with
        | .error _ => g = 0
        | .ok x => g = {(tok,buffers)} ∧ x.2 = descs ++ items.map descOf)
      (HixlReadOps.registerBuffers request tok items handles descs) {(tok,buffers)} := by
  induction items generalizing handles descs with
  | nil => exact reads_ret ⟨rfl,(List.append_nil descs).symm⟩
  | cons item items ih =>
    obtain ⟨⟨buffer,size⟩,seg⟩ := item
    rw [HixlReadOps.registerBuffers]
    split
    · exact reads_release fun _ => reads_ret rfl
    apply reads_free_call
    · trivial
    rintro ⟨code,handle⟩
    dsimp only
    split
    · apply reads_free (free_deregisterAll handles)
      intro _
      exact reads_release fun _ => reads_ret rfl
    · apply reads_mono (ih _ _)
      rintro (_ | x) g h
      · exact h
      · obtain ⟨rfl,hdescs⟩ := h
        refine ⟨rfl,?_⟩
        rw [hdescs, List.append_assoc]
        rfl

theorem reads_transfer {response : HixlBatchReadResponse} {handles : List ℕ} {descs : List TransferOpDesc}
    (hcovered : Covered stores request response.remoteEngine descs)
    (hbuffers : descs.map TransferOpDesc.remoteAddr = buffers) :
    Reads stores addr client request (fun _ g => g = 0)
      (HixlReadOps.transfer cfg request response handles descs) {(response.token,buffers)} := by
  apply reads_free_call
  · trivial
  intro conn
  split
  · apply reads_free (free_deregisterAll handles)
    intro _
    exact reads_release fun _ => reads_ret rfl
  · rw [← hbuffers]
    apply reads_transferSync hcovered
    intro code
    apply reads_free (free_deregisterAll handles)
    intro _
    apply reads_release
    intro _
    split
    · exact reads_ret rfl
    · exact reads_ret rfl

/-- The parts of the descriptors, if all lists are of one length. -/
theorem map_descOf {bufs : List Allocation} {sizes : List ℕ} {segments : List (ℕ × ℕ × ℤ)}
    (hsizes : sizes.length = bufs.length) (hsegments : segments.length = bufs.length) :
    (((bufs.zip sizes).zip segments).map descOf).map TransferOpDesc.localAddr = bufs.map Allocation.ptr ∧
    (((bufs.zip sizes).zip segments).map descOf).map TransferOpDesc.remoteAddr = segments.map Prod.fst ∧
    (((bufs.zip sizes).zip segments).map descOf).map TransferOpDesc.len =
      segments.map fun seg => seg.2.1 := by
  induction bufs generalizing sizes segments with
  | nil =>
    obtain rfl := List.length_eq_zero_iff.mp hsegments
    simp
  | cons buf bufs ih =>
    obtain ⟨size,sizes,rfl⟩ := List.exists_cons_of_length_eq_add_one hsizes
    obtain ⟨seg,segments,rfl⟩ := List.exists_cons_of_length_eq_add_one hsegments
    obtain ⟨hlocal,hremote,hlens⟩ := ih (Nat.succ.inj hsizes) (Nat.succ.inj hsegments)
    simp only [List.zip_cons_cons, List.map_cons, hlocal, hremote, hlens, descOf, and_self]

theorem reads_readPrepared {response : HixlBatchReadResponse}
    (hsizes : request.sizes.length = request.offsets.length)
    (hbuffers : request.buffers.length = request.offsets.length)
    (hengine : response.remoteEngine = stores.engineAddr request.storeAddr)
    (hlens : response.segments.map (fun seg => seg.2.1) = request.sizes) :
    Reads stores addr client request (fun _ g => g = 0) (HixlReadOps.readPrepared cfg request response)
      {(response.token,response.segments.map Prod.fst)} := by
  unfold HixlReadOps.readPrepared
  split
  · exact reads_release fun _ => reads_ret rfl
  next hcount =>
  have hsegments : response.segments.length = request.buffers.length := by
    rw [hbuffers]
    exact not_not.mp hcount
  obtain ⟨hlocal,hremote,hall⟩ := map_descOf (hsizes.trans hbuffers.symm) hsegments
  apply reads_bind (reads_mono (reads_registerBuffers _ [] []) ?_)
  rintro (_ | ⟨handles,descs⟩) g h
  · exact reads_ret h
  · obtain ⟨rfl,hdescs⟩ := h
    rw [List.nil_append] at hdescs
    subst hdescs
    exact reads_transfer ⟨hengine,hlocal,hall.trans hlens⟩ hremote

theorem reads_orFallback (s : Status) :
    Reads stores addr client request (fun _ g => g = 0) (HixlReadOps.orFallback cfg request s) 0 := by
  unfold HixlReadOps.orFallback
  split
  · rw [← Prog.bind_ret (HixlReadOps.brpcBatchRead cfg request)]
    exact reads_free (free_brpcBatchRead cfg request) fun _ => reads_ret rfl
  · exact reads_ret rfl

/-- A read gives back every lease that it gets. -/
theorem reads_batchRead (stores : HixlStores) (addr : String) (client : ℕ) (cfg : HixlReadConfig)
    (request : RemoteReadRequest) :
    Reads stores addr client request (fun _ g => g = 0) (HixlReadOps.batchRead cfg request) 0 := by
  unfold HixlReadOps.batchRead
  split
  · exact reads_ret rfl
  next hvalid =>
  obtain ⟨hsizes,hbuffers⟩ := HixlBalance.validate_ok (by simpa using hvalid)
  split
  · exact reads_ret rfl
  apply reads_free_call
  · trivial
  intro init
  split
  · exact reads_orFallback init
  apply reads_free_call
  · trivial
  intro created
  split
  · exact reads_ret rfl
  apply reads_prepare
  intro response hfits
  cases response with
  | none => exact reads_orFallback _
  | some r =>
    rw [leaseOf, leaseIn]
    by_cases hok : r.status = 0
    · obtain ⟨hengine,hlens⟩ := hfits r rfl hok
      have hprepared : StoreRpcClient.prepared (some r) = .ok r := by
        simp [StoreRpcClient.prepared, hok]
      have hasked : request.segments.map BatchReadSegment.size = request.sizes := by
        rw [RemoteReadRequest.segments, List.map_zipWith]
        rw [← List.map_uncurry_zip_eq_zipWith]
        exact List.map_snd_zip (Nat.le_of_eq hsizes)
      rw [hprepared, if_pos hok]
      exact reads_readPrepared hsizes hbuffers hengine (hlens.trans hasked)
    · have hprepared : StoreRpcClient.prepared (some r) =
          .error (.rpcError ("PrepareHixlBatchRead failed with status: " ++ toString r.status)) := by
        simp [StoreRpcClient.prepared, hok]
      rw [hprepared, if_neg hok]
      exact reads_orFallback _

/-- Whatever runs holds no lease in the end. -/
theorem uses_run (stores : HixlStores) (addr : String) (op : HixlSystemOp) :
    Uses (custody stores addr) (fun _ g => g = 0) (op.run stores) 0 := by
  have hlocal : ∀ (a : String) (p : ServiceProg ServiceReply), p.Makes Idle →
      Uses (custody stores addr) (fun _ g => g = 0)
        (HixlSystemOps.onService a p >>= fun reply => pure (HixlSystemReply.served reply)) 0 := by
    intro a p hp
    have hservice : Uses (custody stores addr)
        (fun r g' => ∃ g₁, (fun _ g => g = 0) r g₁ ∧ g' = here addr a g₁) (HixlSystemOps.onService a p)
        (here addr a 0) := uses_onService a (uses_of_makes hp serving_idle)
    rw [map_zero] at hservice
    apply uses_bind (uses_mono hservice ?_)
    rintro reply _ ⟨_,rfl,rfl⟩
    exact map_zero _
  cases op with
  | batchRead client cfg request =>
    apply uses_bind (uses_mono (reads_batchRead stores addr client cfg request).of_zero ?_)
    rintro reply _ ⟨_,rfl,rfl⟩
    exact map_zero _
  | serve request =>
    apply uses_perform
    intro _ _
    refine ⟨0,_,0,⟨rfl,rfl⟩,(add_zero 0).symm,?_⟩
    rw [add_zero]
    apply uses_bind (uses_mono (uses_onService request.addr (uses_handler stores request)) ?_)
    rintro reply _ ⟨_,⟨rfl,hfits⟩,rfl⟩
    apply uses_perform
    intro _ _
    exact ⟨_,0,0,⟨hfits,rfl,rfl⟩,(add_zero _).symm,add_zero 0⟩
  | store a op => exact hlocal a _ ((idle_onStore _).bind fun _ => trivial)
  | batchGetByKey a keys =>
    apply hlocal
    apply Prog.Makes.bind
    · apply (idle_onStore _).bind
      rintro ⟨hits,_⟩
      exact (idle_serveKeys hits keys _ _).bind fun _ => trivial
    · intro _
      trivial

end FalconKV.HixlCustody
