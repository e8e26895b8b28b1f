import Mathlib.Tactic.Abel
import FalconKV.Client.HixlCustody

/-! # Transfers read what is leased

Wherever a lease is on its way between the store and the client, its token is in one place only,
and the store keeps it until a request to release it has been sent. So a transfer finds all the
buffers that it reads.
-/
namespace FalconKV.HixlCustody
open AtomicCalls

abbrev ServiceEvent := Event serviceCalls StoreService
abbrev HixlEvent := Event hixlSystemCalls HixlSystem

def serviceAt (addr : String) : Component hixlSystemMachine storeServiceMachine where
  view := fun x => x.services addr
  part := fun op r => match op, r with
    | .atStore a op, r => if a = addr then some ⟨op,r⟩ else none
    | _, _ => none
  moves := by
    intro op c r s s' x hs hx
    cases op with
    | atStore a op =>
      simp only [Option.ite_none_right_eq_some, Option.some.injEq] at hx
      obtain ⟨rfl,rfl⟩ := hx
      obtain ⟨⟨r₁,service⟩,hstep,heq⟩ := Option.map_eq_some_iff.mp hs
      cases heq
      refine ⟨c.service,?_⟩
      dsimp only
      rw [Function.update_self]
      exact hstep
    | _ => cases hx
  keeps := by
    intro op c r s s' hs hx
    cases op with
    | atClient client request op =>
      obtain ⟨y,-,heq⟩ := Option.map_eq_some_iff.mp hs
      cases heq
      rfl
    | send a message =>
      cases hs
      rfl
    | await request =>
      simp only [hixlSystemMachine, HixlSystem.step, HixlSystem.await] at hs
      split at hs
      · split at hs <;> cases hs <;> rfl
      · cases hs
        rfl
    | receive request =>
      simp only [hixlSystemMachine, HixlSystem.step, HixlSystem.receive] at hs
      split at hs
      · cases hs
        split <;> rfl
      · cases hs
    | atStore a op =>
      have hne : a ≠ addr := by simpa using hx
      obtain ⟨y,-,heq⟩ := Option.map_eq_some_iff.mp hs
      cases heq
      exact Function.update_of_ne (Ne.symm hne) _ _
    | reply request reply =>
      cases hs
      rfl

/-- The calls of the service at an address. -/
def seen (addr : String) (tr : List HixlEvent) : List ServiceEvent := tr.filterMap (serviceAt addr).seen

def grantOf (e : ServiceEvent) : Option (String × List ℕ) :=
  match e with
  | ⟨_,_,.grantLease _ buffers,some tok,_⟩ => some (tok,buffers)
  | _ => none

def askOf (e : ServiceEvent) : Option String :=
  match e with
  | ⟨_,_,.takeLease tok,_,_⟩ => some tok
  | _ => none

def lentOut (tr : List ServiceEvent) : List (String × List ℕ) := tr.filterMap grantOf

def asks (tr : List ServiceEvent) : List String := tr.filterMap askOf

def sends (addr : String) (e : HixlEvent) : Multiset String :=
  match e with
  | ⟨_,_,.send a message,_,_⟩ => (here addr a (0,askedIn message)).2
  | _ => 0

def receives (addr : String) (e : HixlEvent) : Multiset String :=
  match e with
  | ⟨_,_,.receive request,_,_⟩ => (here addr request.addr (0,askedIn request.message)).2
  | _ => 0

/-- The tokens that clients have given back, and those of the requests that have arrived. -/
def sent (addr : String) (tr : List HixlEvent) : Multiset String := (tr.map (sends addr)).sum

def received (addr : String) (tr : List HixlEvent) : Multiset String := (tr.map (receives addr)).sum

def unread (addr : String) (x : HixlSystem) : Leases :=
  (x.replies.map fun y => (here addr y.1.addr (leaseIn y.2,0)).1).sum

variable {stores : HixlStores} {addr : String} {tr : List HixlEvent} {e : HixlEvent}

theorem sent_snoc : sent addr (tr ++ [e]) = sent addr tr + sends addr e := by simp [sent]

theorem received_snoc : received addr (tr ++ [e]) = received addr tr + receives addr e := by simp [received]

def grantsIn (addr : String) (e : HixlEvent) : List (String × List ℕ) := lentOut ((serviceAt addr).seen e).toList

def asksIn (addr : String) (e : HixlEvent) : List String := asks ((serviceAt addr).seen e).toList

theorem lentOut_snoc : lentOut (seen addr (tr ++ [e])) = lentOut (seen addr tr) ++ grantsIn addr e := by
  rw [seen, Component.filterMap_seen_snoc, lentOut, List.filterMap_append]
  rfl

theorem asks_snoc : asks (seen addr (tr ++ [e])) = asks (seen addr tr) ++ asksIn addr e := by
  rw [seen, Component.filterMap_seen_snoc, asks, List.filterMap_append]
  rfl

/-- Where the leases of a store are, and what is known of those that were given back. -/
structure Tracked (stores : HixlStores) (addr : String) (tr : List HixlEvent) (x : HixlSystem) (g : Custody) :
    Prop where
  /-- Every lease is held once, or in one reply, or has been given back. -/
  lent : ∃ gone : Leases, gone.map Prod.fst = sent addr tr ∧
    (lentOut (seen addr tr) : Leases) = g.1 + unread addr x + gone
  asked : ∀ tok ∈ g.2, tok ∈ sent addr tr
  flying : ∀ request ∈ x.requests, ∀ tok ∈ (here addr request.addr (0,askedIn request.message)).2,
    tok ∈ sent addr tr
  fits : ∀ y ∈ x.replies, Fits stores y.1 y.2
  leases : ∀ y ∈ (x.services addr).hixlLeases, y.2.handles.length = y.2.buffers.length ∧
    (y.1,y.2.buffers) ∈ lentOut (seen addr tr)
  taking : ∀ tok ∈ asks (seen addr tr), tok ∈ sent addr tr
  received : ∀ tok ∈ received addr tr, tok ∈ g.2 ∨ tok ∈ asks (seen addr tr)

theorem tracked_init (stores : HixlStores) (addr : String) (contents : String → Store) :
    Tracked stores addr [] (.init contents) 0 where
  lent := ⟨0,rfl,rfl⟩
  asked := fun _ h => absurd h (Multiset.notMem_zero _)
  flying := fun _ h => absurd h List.not_mem_nil
  fits := fun _ h => absurd h List.not_mem_nil
  leases := fun _ h => absurd h List.not_mem_nil
  taking := fun _ h => absurd h List.not_mem_nil
  received := fun _ h => absurd h (Multiset.notMem_zero _)

/-- What has to be shown of one call. -/
theorem Tracked.move {i : ℕ} {op : HixlSystemCall} {r : op.Res} {x x' : HixlSystem} {used made rest : Custody}
    (h : Tracked stores addr tr x (used + rest))
    (hlent : ∃ gone : Leases, gone.map Prod.fst = sends addr ⟨i,x,op,r,x'⟩ ∧
      (grantsIn addr ⟨i,x,op,r,x'⟩ : Leases) + used.1 + unread addr x = made.1 + unread addr x' + gone)
    (hasked : ∀ tok ∈ made.2, tok ∈ sent addr tr)
    (hflying : ∀ request ∈ x'.requests, request ∈ x.requests ∨
      ∀ tok ∈ (here addr request.addr (0,askedIn request.message)).2, tok ∈ sends addr ⟨i,x,op,r,x'⟩)
    (hfits : ∀ y ∈ x'.replies, y ∈ x.replies ∨ Fits stores y.1 y.2)
    (hleases : ∀ y ∈ (x'.services addr).hixlLeases, y ∈ (x.services addr).hixlLeases ∨
      y.2.handles.length = y.2.buffers.length ∧ (y.1,y.2.buffers) ∈ grantsIn addr ⟨i,x,op,r,x'⟩)
    (htaking : ∀ tok ∈ asksIn addr ⟨i,x,op,r,x'⟩, tok ∈ used.2)
    (hused : ∀ tok ∈ used.2, tok ∈ asksIn addr ⟨i,x,op,r,x'⟩)
    (hreceived : ∀ tok ∈ receives addr ⟨i,x,op,r,x'⟩, tok ∈ made.2) :
    Tracked stores addr (tr ++ [⟨i,x,op,r,x'⟩]) x' (made + rest) := by
  have hmore : ∀ tok ∈ sent addr tr, tok ∈ sent addr (tr ++ [⟨i,x,op,r,x'⟩]) := by
    intro tok htok
    rw [sent_snoc]
    exact Multiset.mem_add.mpr (.inl htok)
  constructor
  · obtain ⟨gone,hgone,heq⟩ := h.lent
    obtain ⟨now,hnow,hmoved⟩ := hlent
    refine ⟨gone + now,?_,?_⟩
    · rw [Multiset.map_add, hgone, hnow, sent_snoc]
    · rw [lentOut_snoc, ← Multiset.coe_add, heq]
      have hgather : (used + rest).1 + unread addr x + gone + (grantsIn addr ⟨i,x,op,r,x'⟩ : Leases) =
          (grantsIn addr ⟨i,x,op,r,x'⟩ : Leases) + used.1 + unread addr x + (rest.1 + gone) := by
        rw [Prod.fst_add]
        abel
      rw [hgather, hmoved, Prod.fst_add]
      abel
  · intro tok htok
    rcases Multiset.mem_add.mp htok with htok | htok
    · exact hmore tok (hasked tok htok)
    · exact hmore tok (h.asked tok (Multiset.mem_add.mpr (.inr htok)))
  · intro request hmem tok htok
    rcases hflying request hmem with hold | hnew
    · exact hmore tok (h.flying request hold tok htok)
    · rw [sent_snoc]
      exact Multiset.mem_add.mpr (.inr (hnew tok htok))
  · intro y hy
    rcases hfits y hy with hold | hnew
    · exact h.fits y hold
    · exact hnew
  · intro y hy
    rw [lentOut_snoc]
    rcases hleases y hy with hold | ⟨hlength,hnew⟩
    · obtain ⟨hlength,hmem⟩ := h.leases y hold
      exact ⟨hlength,List.mem_append_left _ hmem⟩
    · exact ⟨hlength,List.mem_append_right _ hnew⟩
  · intro tok htok
    rw [asks_snoc] at htok
    rcases List.mem_append.mp htok with htok | htok
    · exact hmore tok (h.taking tok htok)
    · exact hmore tok (h.asked tok (Multiset.mem_add.mpr (.inl (htaking tok htok))))
  · intro tok htok
    rw [received_snoc] at htok
    rw [asks_snoc]
    rcases Multiset.mem_add.mp htok with htok | htok
    · rcases h.received tok htok with hheld | hdone
      · rcases Multiset.mem_add.mp hheld with hheld | hheld
        · exact .inr (List.mem_append_right _ (hused tok hheld))
        · exact .inl (Multiset.mem_add.mpr (.inr hheld))
      · exact .inr (List.mem_append_left _ hdone)
    · exact .inl (Multiset.mem_add.mpr (.inl (hreceived tok htok)))

/-- A call that touches neither the store at the address nor a message to or from it. -/
theorem Tracked.still {i : ℕ} {op : HixlSystemCall} {r : op.Res} {x x' : HixlSystem} {used made rest : Custody}
    (h : Tracked stores addr tr x (used + rest)) (hmade : made = used) (hused : used.2 = 0)
    (hpart : (serviceAt addr).part op r = none) (hsends : sends addr ⟨i,x,op,r,x'⟩ = 0)
    (hreceives : receives addr ⟨i,x,op,r,x'⟩ = 0) (hservice : x'.services addr = x.services addr)
    (hrequests : ∀ request ∈ x'.requests, request ∈ x.requests ∨
      (here addr request.addr (0,askedIn request.message)).2 = 0)
    (hreplies : unread addr x' = unread addr x) (hfits : ∀ y ∈ x'.replies, y ∈ x.replies ∨ Fits stores y.1 y.2) :
    Tracked stores addr (tr ++ [⟨i,x,op,r,x'⟩]) x' (made + rest) := by
  have hgrants : grantsIn addr ⟨i,x,op,r,x'⟩ = [] := by
    rw [grantsIn, Component.seen_of_none hpart]
    rfl
  have hasks : asksIn addr ⟨i,x,op,r,x'⟩ = [] := by
    rw [asksIn, Component.seen_of_none hpart]
    rfl
  subst hmade
  apply h.move
  · refine ⟨0,hsends.symm,?_⟩
    rw [hgrants, hreplies, Multiset.coe_nil, zero_add, add_zero]
  · rw [hused]
    exact fun _ htok => absurd htok (Multiset.notMem_zero _)
  · intro request hmem
    rcases hrequests request hmem with hold | hnone
    · exact .inl hold
    · rw [hnone]
      exact .inr fun _ htok => absurd htok (Multiset.notMem_zero _)
  · exact hfits
  · rw [hservice]
    exact fun _ hy => .inl hy
  · rw [hasks]
    exact fun _ htok => absurd htok List.not_mem_nil
  · rw [hused]
    exact fun _ htok => absurd htok (Multiset.notMem_zero _)
  · rw [hreceives]
    exact fun _ htok => absurd htok (Multiset.notMem_zero _)

variable {i : ℕ} {x x' : HixlSystem} {rest : Custody}

theorem here_snd (addr a : String) (g : Leases) : (here addr a (g,0)).2 = 0 := by
  by_cases h : a = addr
  · rw [h, here_self]
  · rw [here_other h]
    rfl

theorem here_fst (addr a : String) (toks : Multiset String) : (here addr a (0,toks)).1 = 0 := by
  by_cases h : a = addr
  · rw [h, here_self]
  · rw [here_other h]
    rfl

/-- The tokens of the leases that are given back. -/
theorem map_here (addr a : String) (g : Leases) :
    (here addr a (g,0)).1.map Prod.fst = (here addr a (0,g.map Prod.fst)).2 := by
  by_cases h : a = addr
  · rw [h, here_self, here_self]
  · rw [here_other h, here_other h]
    rfl

theorem grantsIn_of_part {op : HixlSystemCall} {r : op.Res} (h : (serviceAt addr).part op r = none) :
    grantsIn addr ⟨i,x,op,r,x'⟩ = [] := by
  rw [grantsIn, Component.seen_of_none h]
  rfl

theorem asksIn_of_part {op : HixlSystemCall} {r : op.Res} (h : (serviceAt addr).part op r = none) :
    asksIn addr ⟨i,x,op,r,x'⟩ = [] := by
  rw [asksIn, Component.seen_of_none h]
  rfl

/-- What is given back is gone, and the message with its token is on its way. -/
theorem Tracked.send {a : String} {message : HixlMessage} {g : Leases}
    (h : Tracked stores addr tr x (here addr a (g,0) + rest)) (hg : g.map Prod.fst = askedIn message) :
    Tracked stores addr (tr ++ [⟨i,x,.send a message,(x.send a message).1,(x.send a message).2⟩])
      (x.send a message).2 (0 + rest) := by
  have hgrants : grantsIn addr ⟨i,x,.send a message,(x.send a message).1,(x.send a message).2⟩ = [] :=
    grantsIn_of_part rfl
  have hasks : asksIn addr ⟨i,x,.send a message,(x.send a message).1,(x.send a message).2⟩ = [] :=
    asksIn_of_part rfl
  apply h.move
  · refine ⟨(here addr a (g,0)).1,?_,?_⟩
    · rw [map_here, hg]
      rfl
    · rw [hgrants, Multiset.coe_nil, zero_add, Prod.fst_zero, zero_add, add_comm]
      rfl
  · exact fun _ htok => absurd htok (Multiset.notMem_zero _)
  · intro request hmem
    rcases List.mem_cons.mp hmem with rfl | hold
    · exact .inr fun _ htok => htok
    · exact .inl hold
  · exact fun _ hy => .inl hy
  · exact fun _ hy => .inl hy
  · rw [hasks]
    exact fun _ htok => absurd htok List.not_mem_nil
  · rw [here_snd]
    exact fun _ htok => absurd htok (Multiset.notMem_zero _)
  · exact fun _ htok => absurd htok (Multiset.notMem_zero _)

/-- A reply that is read hands its lease over. -/
theorem Tracked.read {request : HixlRequest} {reply : ServiceReply} {y : HixlRequest × ServiceReply}
    (h : Tracked stores addr tr x (0 + rest)) (hfind : (x.replies.find? fun y => y.1 == request) = some y)
    (hreply : y.2 = reply)
    (hx' : x' = { x with replies := x.replies.eraseP fun y => y.1 == request }) :
    Tracked stores addr (tr ++ [⟨i,x,.await request,some reply,x'⟩]) x'
      (here addr request.addr (leaseIn reply,0) + rest) := by
  have hgrants : grantsIn addr ⟨i,x,.await request,some reply,x'⟩ = [] := grantsIn_of_part rfl
  have hasks : asksIn addr ⟨i,x,.await request,some reply,x'⟩ = [] := asksIn_of_part rfl
  have hrequest : y.1 = request := by simpa using List.find?_some hfind
  have hperm := Leases.perm_of_find? hfind
  have hunread : unread addr x = (here addr request.addr (leaseIn reply,0)).1 + unread addr x' := by
    have hsum := (hperm.map fun y => (here addr y.1.addr (leaseIn y.2,0)).1).sum_eq
    rw [List.map_cons, List.sum_cons, hrequest, hreply] at hsum
    rw [hx']
    exact hsum
  apply h.move
  · refine ⟨0,rfl,?_⟩
    rw [hgrants, hunread, Multiset.coe_nil, Prod.fst_zero, zero_add, zero_add, add_zero]
  · rw [here_snd]
    exact fun _ htok => absurd htok (Multiset.notMem_zero _)
  · rw [hx']
    exact fun _ hmem => .inl hmem
  · rw [hx']
    exact fun _ hmem => .inl (List.eraseP_sublist.subset hmem)
  · rw [hx']
    exact fun _ hmem => .inl hmem
  · rw [hasks]
    exact fun _ htok => absurd htok List.not_mem_nil
  · exact fun _ htok => absurd htok (Multiset.notMem_zero _)
  · exact fun _ htok => absurd htok (Multiset.notMem_zero _)

/-- A request that arrives brings its token along. -/
theorem Tracked.receive {request : HixlRequest} (h : Tracked stores addr tr x (0 + rest))
    (hmem : request ∈ x.requests) (hservices : x'.services = x.services) (hreplies : x'.replies = x.replies)
    (hrequests : ∀ request ∈ x'.requests, request ∈ x.requests) :
    Tracked stores addr (tr ++ [⟨i,x,.receive request,(),x'⟩]) x'
      (here addr request.addr (0,askedIn request.message) + rest) := by
  have hgrants : grantsIn addr ⟨i,x,.receive request,(),x'⟩ = [] := grantsIn_of_part rfl
  have hasks : asksIn addr ⟨i,x,.receive request,(),x'⟩ = [] := asksIn_of_part rfl
  apply h.move
  · refine ⟨0,rfl,?_⟩
    rw [hgrants, here_fst, unread, unread, hreplies, Multiset.coe_nil, Prod.fst_zero, zero_add, add_zero]
  · exact h.flying request hmem
  · exact fun _ hold => .inl (hrequests _ hold)
  · rw [hreplies]
    exact fun _ hold => .inl hold
  · rw [hservices]
    exact fun _ hold => .inl hold
  · rw [hasks]
    exact fun _ htok => absurd htok List.not_mem_nil
  · exact fun _ htok => absurd htok (Multiset.notMem_zero _)
  · exact fun _ htok => htok

/-- A handler leaves the lease to the one who reads its reply. -/
theorem Tracked.reply {request : HixlRequest} {reply : ServiceReply}
    (h : Tracked stores addr tr x (here addr request.addr (leaseIn reply,0) + rest))
    (hfits : Fits stores request reply)
    (hx' : x' = { x with replies := (request,reply) :: x.replies }) :
    Tracked stores addr (tr ++ [⟨i,x,.reply request reply,(),x'⟩]) x' (0 + rest) := by
  have hgrants : grantsIn addr ⟨i,x,.reply request reply,(),x'⟩ = [] := grantsIn_of_part rfl
  have hasks : asksIn addr ⟨i,x,.reply request reply,(),x'⟩ = [] := asksIn_of_part rfl
  have hunread : unread addr x' = (here addr request.addr (leaseIn reply,0)).1 + unread addr x := by
    rw [hx', unread, List.map_cons, List.sum_cons]
    rfl
  apply h.move
  · refine ⟨0,rfl,?_⟩
    rw [hgrants, hunread, Multiset.coe_nil, Prod.fst_zero, zero_add, zero_add, add_zero]
  · exact fun _ htok => absurd htok (Multiset.notMem_zero _)
  · rw [hx']
    exact fun _ hold => .inl hold
  · rw [hx']
    intro y hy
    rcases List.mem_cons.mp hy with rfl | hold
    · exact .inr hfits
    · exact .inl hold
  · rw [hx']
    exact fun _ hold => .inl hold
  · rw [hasks]
    exact fun _ htok => absurd htok List.not_mem_nil
  · rw [here_snd]
    exact fun _ htok => absurd htok (Multiset.notMem_zero _)
  · exact fun _ htok => absurd htok (Multiset.notMem_zero _)

theorem hixlLeases_releaseAll (s : StoreService) (rs : List Resource) :
    (s.releaseAll rs).hixlLeases = s.hixlLeases := by
  induction rs generalizing s with
  | nil => rfl
  | cons r rs ih =>
    have hone : (s.release r).hixlLeases = s.hixlLeases := by
      unfold StoreService.release
      split <;> rfl
    exact (ih (s.release r)).trans hone

theorem registerMem_length {outcomes : List (Option ℕ)} {buffers handles : List ℕ}
    (h : registerMem outcomes buffers = some (handles,true)) : handles.length = buffers.length := by
  induction outcomes, buffers using registerMem.induct generalizing handles with
  | case1 =>
    rw [registerMem] at h
    cases h
    rfl
  | case2 => cases h
  | case3 => cases h
  | case4 handle outcomes buffer buffers ih =>
    obtain ⟨⟨handles₁,registered⟩,hrest,heq⟩ := Option.map_eq_some_iff.mp h
    cases heq
    rw [List.length_cons, List.length_cons, ih hrest]

/-- A lease that was not there before has just been granted, with a handle for each buffer. -/
theorem mem_leases_step {s s' : StoreService} {op : ServiceCall} {c : ServiceChoice} {r : op.Res}
    (hs : s.step op c = some (r,s')) {y : String × HixlReadLease} (hy : y ∈ s'.hixlLeases) :
    y ∈ s.hixlLeases ∨ y.2.handles.length = y.2.buffers.length ∧
      grantOf ⟨i,s,op,r,s'⟩ = some (y.1,y.2.buffers) := by
  cases op with
  | store op =>
    obtain ⟨z,-,heq⟩ := Option.map_eq_some_iff.mp hs
    cases heq
    exact .inl hy
  | allocate size =>
    simp only [StoreService.step, StoreService.allocate] at hs
    split at hs
    · cases hs
      exact .inl hy
    · split at hs
      · cases hs
      · cases hs
        exact .inl hy
  | freeBuffer ptr =>
    cases hs
    have hsame := hixlLeases_releaseAll s [.buffer ptr]
    exact .inl (hsame ▸ hy)
  | ensureHixlInitialized engineAddr =>
    simp only [StoreService.step, StoreService.ensureHixlInitialized] at hs
    split at hs
    · cases hs
      exact .inl hy
    · split at hs
      · cases hs
        exact .inl hy
      · split at hs
        · cases hs
          exact .inl hy
        · cases hs
          exact .inl hy
  | grantLease storeId buffers =>
    obtain ⟨⟨handles,registered⟩,hregister,heq⟩ := Option.map_eq_some_iff.mp hs
    cases registered with
    | false =>
      cases heq
      rw [hixlLeases_releaseAll] at hy
      exact .inl hy
    | true =>
      cases heq
      simp only [StoreService.addLease] at hy
      split at hy
      · exact .inl hy
      · rcases List.mem_cons.mp hy with rfl | hold
        · exact .inr ⟨registerMem_length hregister,rfl⟩
        · exact .inl hold
  | takeLease tok =>
    cases hs
    exact .inl (List.eraseP_sublist.subset hy)
  | deregister handles =>
    cases hs
    split at hy
    · rw [hixlLeases_releaseAll] at hy
      exact .inl hy
    · exact .inl hy

/-- A handler gets what its store grants and gives up what it asks for. -/
theorem serving_rule {s s' : StoreService} {op : ServiceCall} {r : op.Res} {u m : Custody}
    (h : serving.rule op r u m) :
    u = (0,Multiset.ofList (askOf ⟨i,s,op,r,s'⟩).toList) ∧
      m = (Multiset.ofList (grantOf ⟨i,s,op,r,s'⟩).toList,0) := by
  cases op with
  | grantLease storeId buffers => cases r <;> exact h
  | _ => exact h

theorem Tracked.atStore {op : ServiceCall} {c : ServiceChoice} {r : op.Res} {service : StoreService} {u m : Custody}
    (h : Tracked stores addr tr x (u + rest)) (hs : (x.services addr).step op c = some (r,service))
    (hrule : serving.rule op r u m) (hx' : x' = { x with services := Function.update x.services addr service }) :
    Tracked stores addr (tr ++ [⟨i,x,.atStore addr op,r,x'⟩]) x' (m + rest) := by
  have hservice : x'.services addr = service := by
    rw [hx']
    exact Function.update_self _ _ _
  have hseen : (serviceAt addr).seen ⟨i,x,.atStore addr op,r,x'⟩ = some ⟨i,x.services addr,op,r,service⟩ := by
    rw [Component.seen_of_some (x := ⟨op,r⟩) (if_pos rfl), ← hservice]
    rfl
  obtain ⟨hu,hm⟩ : u = (0,Multiset.ofList (askOf ⟨i,x.services addr,op,r,service⟩).toList) ∧
      m = (Multiset.ofList (grantOf ⟨i,x.services addr,op,r,service⟩).toList,0) := serving_rule hrule
  have hgrants : grantsIn addr ⟨i,x,.atStore addr op,r,x'⟩ = (grantOf ⟨i,x.services addr,op,r,service⟩).toList := by
    rw [grantsIn, hseen]
    cases hgrant : grantOf ⟨i,x.services addr,op,r,service⟩ <;> simp [lentOut, hgrant]
  have hasks : asksIn addr ⟨i,x,.atStore addr op,r,x'⟩ = (askOf ⟨i,x.services addr,op,r,service⟩).toList := by
    rw [asksIn, hseen]
    cases hask : askOf ⟨i,x.services addr,op,r,service⟩ <;> simp [asks, hask]
  have hunread : unread addr x' = unread addr x := by
    rw [hx']
    rfl
  apply h.move
  · refine ⟨0,rfl,?_⟩
    rw [hgrants, hunread, hu, hm, add_zero, add_zero]
  · rw [hm]
    exact fun _ htok => absurd htok (Multiset.notMem_zero _)
  · rw [hx']
    exact fun _ hold => .inl hold
  · rw [hx']
    exact fun _ hold => .inl hold
  · intro y hy
    rw [hservice] at hy
    rw [hgrants]
    rcases mem_leases_step (i := i) hs hy with hold | ⟨hlength,hgrant⟩
    · exact .inl hold
    · refine .inr ⟨hlength,?_⟩
      rw [hgrant]
      exact List.mem_singleton_self _
  · rw [hasks, hu]
    exact fun _ htok => htok
  · rw [hasks, hu]
    exact fun _ htok => htok
  · exact fun _ htok => absurd htok (Multiset.notMem_zero _)

/-- Each call keeps track. -/
theorem keeps_custody (stores : HixlStores) (addr : String) :
    Keeps hixlSystemMachine (custody stores addr) (fun _ _ => True) (Tracked stores addr) where
  guar := by
    intro tr x op c r x' total h _ hs
    cases op with
    | send a message =>
      cases hs
      exact ⟨rfl,rfl⟩
    | await request =>
      simp only [hixlSystemMachine, HixlSystem.step, HixlSystem.await] at hs
      split at hs
      · split at hs
        · cases hs
          trivial
        · next y hfind =>
          cases hs
          have hrequest : y.1 = request := by simpa using List.find?_some hfind
          exact hrequest ▸ h.fits y (List.mem_of_find?_eq_some hfind)
      · cases hs
        trivial
    | _ => trivial
  step := by
    intro tr i x op c r x' used made rest h _ hs hrule
    cases op with
    | atClient client request op =>
      obtain ⟨⟨g,-,rfl⟩,rfl⟩ := hrule
      obtain ⟨y,-,heq⟩ := Option.map_eq_some_iff.mp hs
      cases heq
      exact h.still rfl (here_snd _ _ _) rfl rfl rfl rfl (fun _ hold => .inl hold) rfl fun _ hold => .inl hold
    | send a message =>
      obtain ⟨⟨g,hg,rfl⟩,rfl⟩ := hrule
      cases hs
      exact h.send hg
    | await request =>
      have hnone : used = 0 ∧ made = 0 →
          Tracked stores addr (tr ++ [⟨i,x,.await request,none,x⟩]) x (made + rest) := by
        rintro ⟨rfl,rfl⟩
        exact h.still rfl rfl rfl rfl rfl rfl (fun _ hold => .inl hold) rfl fun _ hold => .inl hold
      simp only [hixlSystemMachine, HixlSystem.step, HixlSystem.await] at hs
      split at hs
      · split at hs
        · cases hs
          exact hnone hrule
        · next y hfind =>
          cases hs
          obtain ⟨rfl,rfl⟩ := hrule
          exact h.read hfind rfl rfl
      · cases hs
        exact hnone hrule
    | receive request =>
      obtain ⟨rfl,rfl⟩ := hrule
      simp only [hixlSystemMachine, HixlSystem.step, HixlSystem.receive] at hs
      split at hs
      · next hmem =>
        cases hs
        split
        · exact h.receive hmem rfl rfl fun _ hold => hold
        · exact h.receive hmem rfl rfl fun _ hold => List.mem_of_mem_erase hold
      · cases hs
    | atStore a op =>
      obtain ⟨u,m,hserving,rfl,rfl⟩ := hrule
      obtain ⟨⟨r₁,service⟩,hstep,heq⟩ := Option.map_eq_some_iff.mp hs
      cases heq
      by_cases ha : a = addr
      · subst ha
        rw [here_self] at h ⊢
        exact h.atStore hstep hserving rfl
      · have hpart : (serviceAt addr).part (.atStore a op) r₁ = none := if_neg ha
        rw [here_other ha] at h ⊢
        exact h.still rfl rfl hpart rfl rfl (Function.update_of_ne (Ne.symm ha) _ _)
          (fun _ hold => .inl hold) rfl fun _ hold => .inl hold
    | reply request reply =>
      obtain ⟨hfits,rfl,rfl⟩ := hrule
      cases hs
      exact h.reply hfits rfl

variable {contents : String → Store} {Q : Pool hixlSystemCalls HixlSystem HixlSystemReply}

/-- Clients, services and stores that run side by side. -/
abbrev SystemRun (stores : HixlStores) (contents : String → Store) (tr : List HixlEvent)
    (Q : Pool hixlSystemCalls HixlSystem HixlSystemReply) : Prop :=
  Run hixlSystemMachine (fun p => ∃ op : HixlSystemOp, p = op.run stores) (fun _ _ => True)
    ⟨.init contents,[]⟩ tr Q

theorem uses_started (stores : HixlStores) (addr : String) (p : HixlSystemProg HixlSystemReply)
    (hp : ∃ op : HixlSystemOp, p = op.run stores) : Uses (custody stores addr) (fun _ g => g = 0) p 0 := by
  obtain ⟨op,rfl⟩ := hp
  exact uses_run stores addr op

theorem tracked_run (h : SystemRun stores contents tr Q) (addr : String) :
    ∃ g, Tracked stores addr tr Q.state g ∧ (Q.Returned → g = 0) := by
  obtain ⟨gs,hgs,htracked⟩ := h.shares (keeps_custody stores addr) (uses_started stores addr)
    ⟨[],.nil,tracked_init stores addr contents⟩
  exact ⟨gs.sum,htracked,fun hreturned => hreturned.sum_eq_zero hgs⟩

def Apart (addr : String) (op : HixlSystemCall) : Prop := ∀ r, (serviceAt addr).part op r = none

theorem apart_onService {a : String} (ha : a ≠ addr) {α : Type} (p : ServiceProg α) :
    (HixlSystemOps.onService a p).Makes (Apart addr) := by
  have hop : ∀ op : ServiceCall, True → (HixlSystemOps.call (.atStore a op)).Makes (Apart addr) :=
    fun _ _ => Prog.makes_perform fun _ => if_neg ha
  exact Prog.makes_interp hop p.makes_true

theorem apart_remote (client : ℕ) (request : RemoteReadRequest) (op : HixlReadCall) :
    (HixlSystemOps.remote client request op).Makes (Apart addr) := by
  have hanswered : ∀ {α : Type} (a : String) (message : HixlMessage) (answer : Option ServiceReply → α),
      (HixlSystemOps.call (.send a message) >>= fun sent =>
        HixlSystemOps.call (.await sent) >>= fun reply => pure (answer reply)).Makes (Apart addr) :=
    fun _ _ _ => Prog.makes_call_bind (fun _ => rfl) fun _ =>
      Prog.makes_call_bind (fun _ => rfl) fun _ => trivial
  cases op with
  | prepareHixlBatchRead => exact hanswered _ _ _
  | releaseHixlRead => exact hanswered _ _ _
  | _ => exact Prog.makes_perform fun _ => rfl

/-- What each program does at the store at an address accounts for the memory of its service. -/
theorem uses_leases (stores : HixlStores) (addr : String) (op : HixlSystemOp) :
    Uses ((serviceAt addr).discipline (Leases.discipline (stores.cfg addr).storeId)) Leases.done
      (op.run stores) 0 := by
  have hservice : ∀ op : ServiceOp,
      Uses ((serviceAt addr).discipline (Leases.discipline (stores.cfg addr).storeId)) Leases.done
        (HixlSystemOps.onService addr (op.run (stores.cfg addr) (stores.engineAddr addr))) 0 := by
    intro op
    exact Component.uses_inside (C := serviceAt addr) (h := HixlSystemCall.atStore addr)
      (fun op r => if_pos rfl) (fun op => rfl) (Leases.uses_serviceOp (stores.cfg addr) (stores.engineAddr addr) op)
  have hlocal : ∀ (a : String) (op : ServiceOp),
      Uses ((serviceAt addr).discipline (Leases.discipline (stores.cfg addr).storeId)) Leases.done
        (HixlSystemOps.onService a (op.run (stores.cfg a) (stores.engineAddr a)) >>= fun reply =>
          pure (HixlSystemReply.served reply)) 0 := by
    intro a op
    by_cases ha : a = addr
    · subst ha
      exact uses_bind (uses_mono (hservice op) fun _ _ hdone => hdone)
    · exact Component.uses_outside ((apart_onService ha _).bind fun _ => trivial) fun _ => rfl
  cases op with
  | batchRead client cfg request =>
    apply Component.uses_outside
    · have hremote : ∀ op : HixlReadCall, True → (HixlSystemOps.remote client request op).Makes (Apart addr) :=
        fun op _ => apart_remote client request op
      exact (Prog.makes_interp hremote (Prog.makes_true _)).bind fun _ => trivial
    · exact fun _ => rfl
  | serve request =>
    by_cases ha : request.addr = addr
    · subst ha
      apply uses_idle
      · exact fun _ => ⟨rfl,rfl⟩
      intro _ _
      apply uses_bind (uses_mono (hservice request.message.toOp) ?_)
      intro reply held hdone
      apply uses_idle
      · exact fun _ => ⟨rfl,rfl⟩
      exact fun _ _ => hdone
    · apply Component.uses_outside
      · apply Prog.makes_call_bind fun _ => rfl
        intro _
        apply (apart_onService ha _).bind
        intro reply
        exact Prog.makes_call_bind (fun _ => rfl) fun _ => trivial
      · exact fun _ => rfl
  | store a op => exact hlocal a (.store op)
  | batchGetByKey a keys => exact hlocal a (.batchGetByKey keys)

theorem owned_run (h : SystemRun stores contents tr Q) {addr : String}
    (hgranted : (Leases.granted (seen addr tr)).length ≤ 2 ^ 64) :
    ∃ held, Leases.Owned (stores.cfg addr).storeId (seen addr tr) (Q.state.services addr) held ∧
      (Q.Returned → held.1 = 0) := by
  have hstart : ∀ p, (∃ op : HixlSystemOp, p = op.run stores) →
      Uses ((serviceAt addr).discipline (Leases.discipline (stores.cfg addr).storeId)) Leases.done p 0 := by
    rintro _ ⟨op,rfl⟩
    exact uses_leases stores addr op
  have hkeeps : Keeps hixlSystemMachine
      ((serviceAt addr).discipline (Leases.discipline (stores.cfg addr).storeId)) (fun _ _ => True)
      fun tr x held => Leases.Accounted (stores.cfg addr).storeId (seen addr tr) (x.services addr) held :=
    Component.lift_keeps (Leases.keeps (stores.cfg addr).storeId) fun _ _ _ _ _ _ => trivial
  have hinit : Leases.Accounted (stores.cfg addr).storeId (seen addr [])
      ((HixlSystem.init contents).services addr) 0 := fun _ => Leases.owned_create _ (contents addr)
  obtain ⟨gs,hgs,haccounted⟩ := h.shares hkeeps hstart ⟨[],.nil,hinit⟩
  refine ⟨gs.sum,haccounted hgranted,?_⟩
  intro hreturned
  apply hreturned.sum hgs (Q := fun held => held.1 = 0) rfl
  · intro g g' hg hg'
    rw [Prod.fst_add, hg, hg', add_zero]
  · exact fun _ _ hdone => hdone

theorem granted_eq (tr : List ServiceEvent) : Leases.granted tr = (lentOut tr).map Prod.fst := by
  rw [lentOut, List.map_filterMap, Leases.granted]
  congr 1
  funext e
  obtain ⟨j,before,op,r,after⟩ := e
  cases op with
  | grantLease storeId buffers => cases r <;> rfl
  | _ => rfl

theorem taken_subset_asks (tr : List ServiceEvent) : Leases.taken tr ⊆ asks tr := by
  intro tok htok
  obtain ⟨⟨j,before,op,r,after⟩,hmem,htakes⟩ := List.mem_filterMap.mp htok
  refine List.mem_filterMap.mpr ⟨_,hmem,?_⟩
  cases op with
  | takeLease tok' =>
    cases r with
    | none => cases htakes
    | some lease => exact htakes
  | _ => cases htakes

theorem mem_granted_of_sent {g : Custody} (htracked : Tracked stores addr tr x g) {tok : String}
    (htok : tok ∈ sent addr tr) : tok ∈ Leases.granted (seen addr tr) := by
  obtain ⟨gone,hgone,hlent⟩ := htracked.lent
  have hmem : tok ∈ ((lentOut (seen addr tr) : HixlCustody.Leases).map Prod.fst) := by
    rw [hlent, Multiset.map_add, hgone]
    exact Multiset.mem_add.mpr (.inr htok)
  rw [granted_eq]
  exact hmem

section
variable {g : Custody} {held : Leases.Held} {storeId : ℕ} (htracked : Tracked stores addr tr x g)
  (howned : Leases.Owned storeId (seen addr tr) (x.services addr) held)
  (hgranted : (Leases.granted (seen addr tr)).length ≤ 2 ^ 64)
include howned hgranted

theorem nodup_granted : (Leases.granted (seen addr tr)).Nodup := by
  rw [howned.granted_eq]
  exact Leases.nodup_tokens storeId hgranted

/-- The store has no lease with a token that it was made to give up. -/
theorem not_kept_of_taken {tok : String} (htok : tok ∈ Leases.taken (seen addr tr)) :
    tok ∉ (x.services addr).hixlLeases.map Prod.fst := by
  have hnodup : (Leases.granted (seen addr tr) : Multiset String).Nodup :=
    Multiset.coe_nodup.mpr (nodup_granted howned hgranted)
  rw [howned.tokens] at hnodup
  intro hkept
  exact Multiset.disjoint_left.mp (Multiset.nodup_add.mp hnodup).2.2 htok hkept

include htracked

/-- A lease that is held, or is in a reply, is kept by the store. -/
theorem kept_of_lent {y : String × List ℕ} (hy : y ∈ g.1 + unread addr x) :
    ∃ lease, (y.1,lease) ∈ (x.services addr).hixlLeases ∧ lease.buffers = y.2 ∧
      lease.handles.length = lease.buffers.length := by
  obtain ⟨gone,hgone,hlent⟩ := htracked.lent
  have hnodup := nodup_granted howned hgranted
  rw [granted_eq] at hnodup
  have hmem : y ∈ lentOut (seen addr tr) := by
    rw [← Multiset.mem_coe, hlent]
    exact Multiset.mem_add.mpr (.inl hy)
  have hunsent : y.1 ∉ sent addr tr := by
    have hparts : ((lentOut (seen addr tr) : HixlCustody.Leases).map Prod.fst).Nodup := hnodup
    rw [hlent, Multiset.map_add, hgone] at hparts
    exact Multiset.disjoint_left.mp (Multiset.nodup_add.mp hparts).2.2 (Multiset.mem_map_of_mem Prod.fst hy)
  have htoken : y.1 ∈ Leases.granted (seen addr tr) := by
    rw [granted_eq]
    exact List.mem_map_of_mem hmem
  have hkept : y.1 ∈ (x.services addr).hixlLeases.map Prod.fst := by
    rw [← Multiset.mem_coe, howned.tokens] at htoken
    rcases Multiset.mem_add.mp htoken with htaken | hkept
    · exact absurd (htracked.taking y.1 (taken_subset_asks _ htaken)) hunsent
    · exact hkept
  obtain ⟨⟨tok,lease⟩,hlease,htok⟩ := List.mem_map.mp hkept
  obtain ⟨hlength,hlent'⟩ := htracked.leases _ hlease
  have hsame : (tok,lease.buffers) = y := List.inj_on_of_nodup_map hnodup hlent' hmem htok
  refine ⟨lease,?_,congrArg Prod.snd hsame,hlength⟩
  rw [← htok]
  exact hlease

end

theorem seen_append (addr : String) (tr tr' : List HixlEvent) :
    seen addr (tr ++ tr') = seen addr tr ++ seen addr tr' := List.filterMap_append

theorem granted_prefix {tr tr' : List HixlEvent} {n : ℕ}
    (h : (Leases.granted (seen addr (tr ++ tr'))).length ≤ n) : (Leases.granted (seen addr tr)).length ≤ n := by
  rw [seen_append, Leases.granted, List.filterMap_append, List.length_append] at h
  exact Nat.le_of_add_right_le h

/-- A token that a store was asked to give up has been given up. -/
theorem asks_subset_taken (h : SystemRun stores contents tr Q)
    (hgranted : (Leases.granted (seen addr tr)).length ≤ 2 ^ 64) :
    asks (seen addr tr) ⊆ Leases.taken (seen addr tr) := by
  intro tok htok
  obtain ⟨e',hmem',hask⟩ := List.mem_filterMap.mp htok
  obtain ⟨e,hmem,hseen⟩ := List.mem_filterMap.mp hmem'
  obtain ⟨tr₁,tr₂,rfl⟩ := List.append_of_mem hmem
  obtain ⟨Q₁,hrun,hstate,-,c,hstep⟩ := h.at_event rfl
  have hgranted₁ := granted_prefix hgranted
  obtain ⟨held,howned,-⟩ := owned_run hrun hgranted₁
  obtain ⟨used,made,rest,hrule,htracked⟩ := h.charged (keeps_custody stores addr) (uses_started stores addr)
    ⟨[],.nil,tracked_init stores addr contents⟩ rfl
  have htaken : ∀ {tok}, tok ∈ Leases.taken (seen addr tr₁) ∨ Leases.takes e' = some tok →
      tok ∈ Leases.taken (seen addr (tr₁ ++ e :: tr₂)) := by
    intro tok hor
    rw [seen_append, Leases.taken, List.filterMap_append]
    rcases hor with hold | hnow
    · exact List.mem_append_left _ hold
    · apply List.mem_append_right
      rw [seen, List.filterMap_cons_some hseen, List.filterMap_cons_some hnow]
      exact List.mem_cons_self
  obtain ⟨i,before,op,r,after⟩ := e
  have hs : hixlSystemMachine.step op c before = some (r,after) := hstep
  rw [hstate] at howned
  cases op with
  | atStore a op =>
    by_cases ha : a = addr
    · subst ha
      rw [Component.seen_of_some (x := ⟨op,r⟩) (if_pos rfl)] at hseen
      cases hseen
      cases op with
      | takeLease tok' =>
        cases hask
        obtain ⟨u,m,⟨rfl,-⟩,rfl,-⟩ := hrule
        rw [here_self] at htracked
        have hsent := htracked.asked tok (Multiset.mem_add.mpr (.inl (Multiset.mem_singleton_self tok)))
        have hlent := mem_granted_of_sent htracked hsent
        rw [← Multiset.mem_coe, howned.tokens] at hlent
        rcases Multiset.mem_add.mp hlent with hold | hkept
        · exact htaken (.inl hold)
        · obtain ⟨⟨tok',lease⟩,hlease,rfl⟩ := List.mem_map.mp (Multiset.mem_coe.mp hkept)
          have hfound : ((before.services a).findLease tok').isSome = true := by
            rw [StoreService.findLease, Option.isSome_map, List.find?_isSome]
            exact ⟨_,hlease,beq_self_eq_true tok'⟩
          obtain ⟨y,hy⟩ := Option.isSome_iff_exists.mp hfound
          have hr : r = some y := by
            cases hs
            exact hy
          apply htaken
          rw [hr]
          exact .inr rfl
      | _ => cases hask
    · rw [Component.seen_of_none (if_neg ha)] at hseen
      cases hseen
  | _ => cases hseen

/-- What a transfer reads is leased and registered at the store. -/
structure TransferLeased (stores : HixlStores) (x : HixlSystem) (request : RemoteReadRequest)
    (remoteEngine : String) (descs : List TransferOpDesc) : Prop where
  covered : Covered stores request remoteEngine descs
  lease : ∃ y ∈ (x.services request.storeAddr).hixlLeases,
    y.2.buffers = descs.map TransferOpDesc.remoteAddr ∧ y.2.handles.length = y.2.buffers.length ∧
    ∀ resource ∈ y.2.resources, resource ∈ (x.services request.storeAddr).live

/-- Once nothing runs, the store only has leases whose tokens no client ever read, or whose
release never arrived. -/
structure LeasesReturned (addr : String) (tr : List HixlEvent) (x : HixlSystem) : Prop where
  left : ∀ y ∈ (x.services addr).hixlLeases, y.1 ∈ (unread addr x).map Prod.fst ∨
    y.1 ∈ sent addr tr ∧ y.1 ∉ received addr tr
  live : (x.services addr).live = Leases.leased (x.services addr)

theorem transfer_leased (h : SystemRun stores contents tr Q)
    (hgranted : ∀ addr, (Leases.granted (seen addr tr)).length ≤ 2 ^ 64) {e : HixlEvent} (he : e ∈ tr)
    {client : ℕ} {request : RemoteReadRequest} {remoteEngine : String} {descs : List TransferOpDesc} {timeoutMs : ℤ}
    (hop : e.op = .atClient client request (.transferSync remoteEngine descs timeoutMs)) :
    TransferLeased stores e.before request remoteEngine descs := by
  obtain ⟨tr₁,tr₂,rfl⟩ := List.append_of_mem he
  obtain ⟨Q₁,hrun,hstate,-⟩ := h.at_event rfl
  have hgranted₁ := granted_prefix (hgranted request.storeAddr)
  obtain ⟨held,howned,-⟩ := owned_run hrun hgranted₁
  obtain ⟨used,made,rest,hrule,htracked⟩ := h.charged (keeps_custody stores request.storeAddr)
    (uses_started stores request.storeAddr) ⟨[],.nil,tracked_init stores request.storeAddr contents⟩ rfl
  obtain ⟨i,before,op,r,after⟩ := e
  subst hop
  obtain ⟨⟨g,⟨hcovered,tok,rfl⟩,rfl⟩,-⟩ := hrule
  rw [here_self] at htracked
  rw [hstate] at howned
  have hheld : (tok,descs.map TransferOpDesc.remoteAddr) ∈
      (({(tok,descs.map TransferOpDesc.remoteAddr)},0) + rest : Custody).1 + unread request.storeAddr before :=
    Multiset.mem_add.mpr (.inl (Multiset.mem_add.mpr (.inl (Multiset.mem_singleton_self _))))
  obtain ⟨lease,hkept,hbuffers,hlength⟩ := kept_of_lent htracked howned hgranted₁ hheld
  refine ⟨hcovered,(tok,lease),hkept,hbuffers,hlength,?_⟩
  intro resource hresource
  rw [howned.live]
  exact Multiset.mem_add.mpr (.inl (Leases.mem_leased hkept hresource))

theorem leases_returned (h : SystemRun stores contents tr Q) (hreturned : Q.Returned) {addr : String}
    (hgranted : (Leases.granted (seen addr tr)).length ≤ 2 ^ 64) : LeasesReturned addr tr Q.state := by
  obtain ⟨g,htracked,hzero⟩ := tracked_run h addr
  obtain ⟨held,howned,hnothing⟩ := owned_run h hgranted
  obtain rfl := hzero hreturned
  constructor
  · intro y hy
    obtain ⟨gone,hgone,hlent⟩ := htracked.lent
    have hmem : y.1 ∈ (lentOut (seen addr tr) : HixlCustody.Leases).map Prod.fst :=
      Multiset.mem_map.mpr ⟨(y.1,y.2.buffers),(htracked.leases y hy).2,rfl⟩
    rw [hlent, Prod.fst_zero, zero_add, Multiset.map_add, hgone] at hmem
    rcases Multiset.mem_add.mp hmem with hunread | hsent
    · exact .inl hunread
    refine .inr ⟨hsent,?_⟩
    -- a request that arrives is handled, and its lease is not kept any more
    intro hreceived
    rcases htracked.received y.1 hreceived with hnone | hasked
    · exact Multiset.notMem_zero _ hnone
    · exact not_kept_of_taken howned hgranted (asks_subset_taken h hgranted hasked) (List.mem_map_of_mem hy)
  · rw [howned.live, hnothing hreturned, add_zero]

/-- A transfer finds every buffer that it reads in a lease of the store, and in the end the stores
have kept no more than what messages that were lost stood for. -/
theorem hixl_leases (h : SystemRun stores contents tr Q)
    (hgranted : ∀ addr, (Leases.granted (seen addr tr)).length ≤ 2 ^ 64) :
    (∀ e ∈ tr, ∀ client request remoteEngine descs timeoutMs,
      e.op = .atClient client request (.transferSync remoteEngine descs timeoutMs) →
        TransferLeased stores e.before request remoteEngine descs) ∧
    (Q.Returned → ∀ addr, LeasesReturned addr tr Q.state) :=
  ⟨fun _ he _ _ _ _ _ hop => transfer_leased h hgranted he hop,
    fun hreturned addr => leases_returned h hreturned (hgranted addr)⟩

def sampleStores : HixlStores := ⟨fun _ => FalconKV.Leases.sampleConfig,fun _ => "engine"⟩

def sampleContents : String → Store := fun _ => .init FalconKV.Leases.sampleConfig

def sampleOps : List HixlSystemOp :=
  [.batchRead 0 HixlBalance.sampleConfig ⟨"store",1,"client",[0],[4],[⟨9,fun _ => 0⟩]⟩,
    .serve ⟨0,"store",.prepareHixlBatchRead [⟨0,4⟩] 1 "client"⟩,.serve ⟨1,"store",.releaseHixlRead "1-1"⟩]

def sampleSchedule : List (ℕ × HixlSystemChoice) :=
  [(0,{}),(0,{}),(0,{}),
    (1,{}),(1,{}),(1,{ service := { allocation := some ⟨1,fun _ => 0⟩ } }),(1,{}),
    (1,{ service := { registrations := [some 11] } }),(1,{}),
    (0,{}),(0,{ backend := { handle := 7 } }),(0,{}),(0,{}),(0,{}),(0,{}),
    (2,{}),(2,{}),(2,{}),(2,{}),(2,{}),(0,{})]

/-- The descriptors of the transfers. -/
def transfers (tr : List HixlEvent) : List (List TransferOpDesc) :=
  tr.filterMap fun e => match e.op with
    | .atClient _ _ (.transferSync _ descs _) => some descs
    | _ => none

theorem hixl_leases_sample : ∃ (tr : List HixlEvent) (Q : Pool hixlSystemCalls HixlSystem HixlSystemReply),
    transfers tr = [[⟨9,1,4⟩]] ∧ Q.threads.map (fun p => p.value.isSome) = [true,true,true] ∧
    (∀ e ∈ tr, ∀ client request remoteEngine descs timeoutMs,
      e.op = .atClient client request (.transferSync remoteEngine descs timeoutMs) →
        TransferLeased sampleStores e.before request remoteEngine descs) ∧
    (Q.Returned → ∀ addr, LeasesReturned addr tr Q.state) := by
  have hops : ∀ p ∈ sampleOps.map (HixlSystemOp.run sampleStores), ∃ op, p = HixlSystemOp.run sampleStores op := by
    intro p hp
    obtain ⟨op,-,rfl⟩ := List.mem_map.mp hp
    exact ⟨op,rfl⟩
  have hfollow : (Pool.follow (M := hixlSystemMachine) (fun _ _ => true) sampleSchedule
      ⟨.init sampleContents,sampleOps.map (HixlSystemOp.run sampleStores)⟩).map
        (fun x => (x.1.length,transfers x.1,x.2.threads.map fun p => p.value.isSome)) =
      some (21,[[⟨9,1,4⟩]],[true,true,true]) := rfl
  obtain ⟨tr,Q,hrun,hQ⟩ := run_of_schedule _ hops hfollow
  obtain ⟨hlength,hrest⟩ := Prod.mk.inj hQ
  obtain ⟨htransfers,hvalues⟩ := Prod.mk.inj hrest
  have hgranted : ∀ addr, (Leases.granted (seen addr tr)).length ≤ 2 ^ 64 := by
    intro addr
    have hseen : (seen addr tr).length ≤ tr.length := List.length_filterMap_le _ _
    have hgrants : (Leases.granted (seen addr tr)).length ≤ (seen addr tr).length :=
      List.length_filterMap_le _ _
    dsimp only at hlength
    omega
  exact ⟨tr,Q,htransfers,hvalues,hixl_leases (hrun.ok_mono fun _ _ _ => trivial) hgranted⟩

end FalconKV.HixlCustody
