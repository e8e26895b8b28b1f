import Mathlib.Data.List.Perm.Basic
import FalconKV.AtomicCalls.Discipline
import FalconKV.AtomicCalls.Environment
import FalconKV.Store.KeyReads

/-! # Who owns the memory that is read over HIXL

A buffer or a handle belongs to the request that is working on it or to one lease. A
request holds what it has made and not yet given back or put into a lease, together with
the knowledge that the engine is there. Tokens come from a 64-bit counter, so that they
are different ones until it comes round.
-/
namespace FalconKV
open AtomicCalls

namespace Leases

/-- What a request holds. -/
abbrev Held : Type := Multiset Resource × ℕ

def buffersOf (ptrs : List ℕ) : Multiset Resource := (ptrs.map Resource.buffer : List Resource)

def handlesOf (handles : List ℕ) : Multiset Resource := (handles.map Resource.handle : List Resource)

def discipline (storeId : ℕ) : Discipline serviceCalls Held where
  guar := fun _ _ => True
  rule := fun op r used made => match op, r with
    | .allocate _, some a => used = 0 ∧ made = (buffersOf [a.ptr],0)
    | .freeBuffer ptr, _ => used = (buffersOf [ptr],0) ∧ made = 0
    | .ensureHixlInitialized _, s => used = 0 ∧ made = (0,if s.isOk then 1 else 0)
    | .grantLease i buffers, _ => i = storeId ∧ used = (buffersOf buffers,1) ∧ made = 0
    | .takeLease _, some lease => used = 0 ∧ made = (Multiset.ofList lease.resources,0)
    | .deregister handles, _ => used = (handlesOf handles,0) ∧ made = 0
    | _, _ => used = 0 ∧ made = 0

def grants (e : Event serviceCalls StoreService) : Option String :=
  match e with
  | ⟨_,_,.grantLease _ _,some tok,_⟩ => some tok
  | _ => none

def takes (e : Event serviceCalls StoreService) : Option String :=
  match e with
  | ⟨_,_,.takeLease tok,some _,_⟩ => some tok
  | _ => none

def granted (tr : List (Event serviceCalls StoreService)) : List String := tr.filterMap grants

def taken (tr : List (Event serviceCalls StoreService)) : List String := tr.filterMap takes

def leased (s : StoreService) : Multiset Resource :=
  (s.hixlLeases.map fun x => (x.2.resources : Multiset Resource)).sum

/-- Everything is in a lease or held, nothing was released that was not there, and the
tokens of the leases are those granted and not taken. -/
structure Owned (storeId : ℕ) (tr : List (Event serviceCalls StoreService)) (s : StoreService)
    (held : Held) : Prop where
  live : s.live = leased s + held.1
  stray : s.strayReleases = 0
  buffers : ∀ ptr, s.live.count (.buffer ptr) ≤ 1
  engine : 0 < held.2 → s.hixlInitialized = true
  handles : ∀ h, .handle h ∈ s.live → s.hixlInitialized = true
  counter : s.hixlNextToken = ((granted tr).length + 1) % 2 ^ 64
  granted_eq : granted tr = (List.range (granted tr).length).map fun k =>
    StoreService.token storeId ((k + 1) % 2 ^ 64)
  tokens : (granted tr : Multiset String) = taken tr + (s.hixlLeases.map Prod.fst : List String)

variable {storeId : ℕ} {tr : List (Event serviceCalls StoreService)} {s s' : StoreService}
  {held : Held} {x : Multiset Resource}

theorem repr_injective {m n : ℕ} (h : Nat.repr m = Nat.repr n) : m = n := by
  have hdigits : Nat.toDigits 10 m = Nat.toDigits 10 n := by
    rw [← Nat.toList_repr,← Nat.toList_repr,h]
  rw [← Nat.ofDigitChars_ten_toDigits (n := m),hdigits,Nat.ofDigitChars_ten_toDigits]

theorem token_injective {m n : ℕ} (h : StoreService.token storeId m = StoreService.token storeId n) :
    m = n := by
  have hlist := congrArg String.toList h
  simp only [StoreService.token, String.toList_append, List.append_assoc] at hlist
  have htail := List.append_cancel_left (List.append_cancel_left hlist)
  exact repr_injective (String.toList_inj.mp htail)

/-- The counter has not come round. -/
theorem nodup_tokens (storeId : ℕ) {n : ℕ} (hn : n ≤ 2 ^ 64) : ((List.range n).map fun k =>
    StoreService.token storeId ((k + 1) % 2 ^ 64)).Nodup := by
  apply List.Nodup.map_on _ List.nodup_range
  intro i hi j hj heq
  have hmod := token_injective heq
  have hi := List.mem_range.mp hi
  have hj := List.mem_range.mp hj
  omega

theorem release_eq {r : Resource} (h : s.live = r ::ₘ x) : s.release r = { s with live := x } := by
  have hmem : r ∈ s.live := by
    rw [h]
    exact Multiset.mem_cons_self r x
  rw [StoreService.release,if_pos hmem,h,Multiset.erase_cons_head]

/-- What is there can be released. -/
theorem releaseAll_eq {rs : List Resource} (h : s.live = rs + x) :
    s.releaseAll rs = { s with live := x } := by
  induction rs generalizing s with
  | nil =>
    rw [Multiset.coe_nil,zero_add] at h
    rw [← h]
    rfl
  | cons r rs ih =>
    rw [← Multiset.cons_coe,Multiset.cons_add] at h
    rw [StoreService.releaseAll,List.foldl_cons,release_eq h]
    exact ih rfl

theorem perm_of_find? {α : Type} {p : α → Bool} {l : List α} {a : α} (h : l.find? p = some a) :
    l.Perm (a :: l.eraseP p) := by
  induction l with
  | nil => cases h
  | cons b l ih =>
    by_cases hb : p b = true
    · rw [List.find?_cons_of_pos hb] at h
      rw [List.eraseP_cons_of_pos hb,Option.some.inj h]
    · rw [List.find?_cons_of_neg hb] at h
      rw [List.eraseP_cons_of_neg hb]
      exact ((ih h).cons b).trans (List.Perm.swap a b _)

theorem granted_snoc (e : Event serviceCalls StoreService) :
    granted (tr ++ [e]) = granted tr ++ (grants e).toList := by
  cases h : grants e <;> simp [granted, h]

theorem taken_snoc (e : Event serviceCalls StoreService) :
    taken (tr ++ [e]) = taken tr ++ (takes e).toList := by
  cases h : takes e <;> simp [taken, h]

theorem count_le_of_add {a b : Multiset Resource} (h : ∀ ptr, (a + b).count (.buffer ptr) ≤ 1)
    (ptr : ℕ) : b.count (.buffer ptr) ≤ 1 := by
  have hle := h ptr
  rw [Multiset.count_add] at hle
  omega

/-- A call that leaves the leases alone and changes what is live by what it takes and gives. -/
theorem Owned.exchange {e : Event serviceCalls StoreService} {used made rest : Held}
    (s' : StoreService) (h : Owned storeId tr s (used + rest)) (hgrants : grants e = none) (htakes : takes e = none)
    (hleases : s'.hixlLeases = s.hixlLeases) (hcounter : s'.hixlNextToken = s.hixlNextToken)
    (hstray : s'.strayReleases = s.strayReleases) (hlive : s'.live = leased s + (made + rest).1)
    (hbuffers : ∀ ptr, s'.live.count (.buffer ptr) ≤ 1)
    (hengine : 0 < (made + rest).2 → s'.hixlInitialized = true)
    (hhandles : ∀ h, .handle h ∈ s'.live → s'.hixlInitialized = true) :
    Owned storeId (tr ++ [e]) s' (made + rest) := by
  have hgranted : granted (tr ++ [e]) = granted tr := by
    rw [granted_snoc,hgrants]
    exact List.append_nil _
  have htaken : taken (tr ++ [e]) = taken tr := by
    rw [taken_snoc,htakes]
    exact List.append_nil _
  have hleased : leased s' = leased s := by rw [leased,hleases,leased]
  refine ⟨?_,hstray.trans h.stray,hbuffers,hengine,hhandles,?_,?_,?_⟩
  · rw [hleased,hlive]
  · rw [hgranted,hcounter]
    exact h.counter
  · rw [hgranted]
    exact h.granted_eq
  · rw [hgranted,htaken,hleases]
    exact h.tokens

/-- Releasing what is held. -/
theorem Owned.release {e : Event serviceCalls StoreService} {rs : List Resource} {rest : Held}
    (h : Owned storeId tr s ((Multiset.ofList rs,0) + rest)) (hgrants : grants e = none)
    (htakes : takes e = none) : Owned storeId (tr ++ [e]) (s.releaseAll rs) (0 + rest) := by
  have hlive : s.live = rs + (leased s + rest.1) := by
    rw [h.live,Prod.fst_add,add_left_comm]
  have hbuffers := h.buffers
  have hengine := h.engine
  have hhandles := h.handles
  rw [hlive] at hbuffers hhandles
  rw [releaseAll_eq hlive]
  apply h.exchange { s with live := leased s + rest.1 } hgrants htakes rfl rfl rfl
  · rw [Prod.fst_add,Prod.fst_zero,zero_add]
  · exact count_le_of_add hbuffers
  · simpa using hengine
  · intro handle hmem
    exact hhandles handle (Multiset.mem_add.mpr (.inr hmem))

theorem Owned.allocate {e : Event serviceCalls StoreService} {a : Allocation} {rest : Held}
    (h : Owned storeId tr s (0 + rest)) (hgrants : grants e = none) (htakes : takes e = none)
    (hnew : .buffer a.ptr ∉ s.live) : Owned storeId (tr ++ [e]) (s.acquire [.buffer a.ptr])
      ((buffersOf [a.ptr],0) + rest) := by
  have hlive := h.live
  rw [zero_add] at hlive
  apply h.exchange (s.acquire [.buffer a.ptr]) hgrants htakes rfl rfl rfl
  · rw [Prod.fst_add,StoreService.acquire,hlive,add_left_comm]
    rfl
  · intro ptr
    have hle := h.buffers ptr
    simp only [StoreService.acquire, Multiset.count_add, Multiset.coe_count, List.count_singleton]
    by_cases hptr : Resource.buffer a.ptr = Resource.buffer ptr
    · have hzero := Multiset.count_eq_zero.mpr hnew
      rw [hptr] at hzero
      simp [hptr, hzero]
    · simp [hptr, hle]
  · intro hpos
    exact h.engine (by simpa using hpos)
  · intro handle hmem
    apply h.handles handle
    simpa [StoreService.acquire] using hmem

/-- The lease goes to the request that asks for it. -/
theorem Owned.take {e : Event serviceCalls StoreService} {tok : String} {lease : HixlReadLease}
    {rest : Held} (h : Owned storeId tr s (0 + rest)) (hgrants : grants e = none)
    (htakes : takes e = some tok) (hfind : s.findLease tok = some lease) :
    Owned storeId (tr ++ [e]) (s.takeLease tok).2 ((Multiset.ofList lease.resources,0) + rest) := by
  obtain ⟨⟨tok',lease'⟩,hfound,rfl⟩ := Option.map_eq_some_iff.mp hfind
  have htok : tok' = tok := by simpa using List.find?_some hfound
  subst htok
  have hperm := perm_of_find? hfound
  have hgranted : granted (tr ++ [e]) = granted tr := by
    rw [granted_snoc,hgrants]
    exact List.append_nil _
  have hleased : leased s = lease'.resources + leased (s.takeLease tok').2 := by
    have hsum := (hperm.map fun x => (x.2.resources : Multiset Resource)).sum_eq
    rw [List.map_cons,List.sum_cons] at hsum
    exact hsum
  refine ⟨?_,h.stray,h.buffers,fun hpos => h.engine (by simpa using hpos),h.handles,?_,?_,?_⟩
  · have hlive : s.live = leased s + rest.1 := by
      rw [h.live,zero_add]
    rw [hleased] at hlive
    rw [Prod.fst_add,add_left_comm,← add_assoc]
    exact hlive
  · rw [hgranted]
    exact h.counter
  · rw [hgranted]
    exact h.granted_eq
  · have htaken : taken (tr ++ [e]) = taken tr ++ [tok'] := by
      rw [taken_snoc,htakes]
      rfl
    have hkeys := Multiset.coe_eq_coe.mpr (hperm.map Prod.fst)
    rw [hgranted,h.tokens,htaken,hkeys,List.map_cons,← Multiset.coe_add,add_assoc]
    rfl

/-- A request that has seen the engine initialized. -/
theorem Owned.initialized {g : Multiset Resource} {rest : Held} (h : Owned storeId tr s ((g,1) + rest)) :
    s.hixlInitialized = true :=
  h.engine (by rw [Prod.snd_add]; omega)

theorem acquire_live {buffers handles : List ℕ} {rest : Held}
    (h : Owned storeId tr s ((buffersOf buffers,1) + rest)) :
    (s.acquire (handles.map .handle)).live =
      HixlReadLease.resources ⟨buffers,handles⟩ + (leased s + rest.1) := by
  rw [StoreService.acquire,h.live,Prod.fst_add,HixlReadLease.resources,← Multiset.coe_add,
    add_left_comm (leased s),← add_assoc]
  rfl

/-- A registration that fails gives back everything. -/
theorem Owned.refuse {e : Event serviceCalls StoreService} {buffers handles : List ℕ} {rest : Held}
    (h : Owned storeId tr s ((buffersOf buffers,1) + rest)) (hgrants : grants e = none)
    (htakes : takes e = none) : Owned storeId (tr ++ [e])
      ((s.acquire (handles.map .handle)).releaseAll (HixlReadLease.resources ⟨buffers,handles⟩))
      (0 + rest) := by
  have hengine := h.initialized
  have hbuffers := h.buffers
  rw [h.live,Prod.fst_add,add_left_comm] at hbuffers
  rw [releaseAll_eq (acquire_live h)]
  apply h.exchange { s with live := leased s + rest.1 } hgrants htakes rfl rfl rfl
  · rw [Prod.fst_add,Prod.fst_zero,zero_add]
  · exact count_le_of_add hbuffers
  · exact fun _ => hengine
  · exact fun _ _ => hengine

/-- The token is none of those of the leases, as long as the counter has not come round. -/
theorem Owned.findLease_eq_none (h : Owned storeId tr s held) (hlt : (granted tr).length < 2 ^ 64) :
    s.findLease (StoreService.token storeId s.hixlNextToken) = none := by
  rw [StoreService.findLease,Option.map_eq_none_iff,List.find?_eq_none]
  intro y hy heq
  have hkey : y.1 = StoreService.token storeId s.hixlNextToken := by simpa using heq
  have hmem : y.1 ∈ granted tr := by
    rw [← Multiset.mem_coe,h.tokens,Multiset.mem_add]
    exact .inr (Multiset.mem_coe.mpr (List.mem_map_of_mem hy))
  rw [h.granted_eq] at hmem
  obtain ⟨k,hk,htok⟩ := List.mem_map.mp hmem
  have hk := List.mem_range.mp hk
  have hmod := token_injective (htok.trans hkey)
  rw [h.counter] at hmod
  omega

theorem Owned.grant {e : Event serviceCalls StoreService} {buffers handles : List ℕ} {rest : Held}
    (h : Owned storeId tr s ((buffersOf buffers,1) + rest)) (hlt : (granted tr).length < 2 ^ 64)
    (hgrants : grants e = some (StoreService.token storeId s.hixlNextToken)) (htakes : takes e = none) :
    Owned storeId (tr ++ [e])
      ((s.acquire (handles.map .handle)).addLease storeId ⟨buffers,handles⟩) (0 + rest) := by
  have hnone := h.findLease_eq_none hlt
  have hgranted : granted (tr ++ [e]) =
      granted tr ++ [StoreService.token storeId s.hixlNextToken] := by
    rw [granted_snoc,hgrants]
    rfl
  have htaken : taken (tr ++ [e]) = taken tr := by
    rw [taken_snoc,htakes]
    exact List.append_nil _
  have hleases : ((s.acquire (handles.map .handle)).addLease storeId ⟨buffers,handles⟩).hixlLeases =
      (StoreService.token storeId s.hixlNextToken,⟨buffers,handles⟩) :: s.hixlLeases := by
    have hfind : (s.acquire (handles.map .handle)).findLease
        (StoreService.token storeId (s.acquire (handles.map .handle)).hixlNextToken) = none := hnone
    simp only [StoreService.addLease]
    rw [if_neg]
    · rfl
    · intro hsome
      rw [hfind] at hsome
      cases hsome
  have hcounter := h.counter
  refine ⟨?_,h.stray,?_,fun _ => h.initialized,fun _ _ => h.initialized,?_,?_,?_⟩
  · rw [leased,hleases,List.map_cons,List.sum_cons,Prod.fst_add,Prod.fst_zero,zero_add,add_assoc]
    exact acquire_live h
  · intro ptr
    have hle := h.buffers ptr
    simp only [StoreService.addLease, StoreService.acquire, Multiset.count_add, Multiset.coe_count]
    have hzero : (handles.map Resource.handle).count (.buffer ptr) = 0 := by
      apply List.count_eq_zero.mpr
      simp
    rw [hzero,zero_add]
    exact hle
  · rw [hgranted,List.length_append,List.length_singleton]
    simp only [StoreService.addLease, StoreService.acquire, hcounter]
    omega
  · have hrange := h.granted_eq
    rw [hgranted,List.length_append,List.length_singleton,List.range_succ,List.map_append,← hrange,
      hcounter]
    rfl
  · rw [hgranted,htaken,hleases,← Multiset.coe_add,h.tokens,List.map_cons,add_assoc]
    congr 1
    rw [← Multiset.cons_coe,add_comm,← Multiset.singleton_add]
    rfl

section
variable {e : Event serviceCalls StoreService} {c : ServiceChoice} {rest : Held}

/-- An allocation that fails changes nothing. -/
theorem Owned.allocateStep {r : Option Allocation} {used made : Held} {size : ℕ}
    (h : Owned storeId tr s (used + rest)) (hgrants : grants e = none) (htakes : takes e = none)
    (hstep : s.allocate c = some (r,s')) (hrule : (discipline storeId).rule (.allocate size) r used made) :
    Owned storeId (tr ++ [e]) s' (made + rest) := by
  unfold StoreService.allocate at hstep
  split at hstep
  · cases hstep
    obtain ⟨rfl,rfl⟩ := hrule
    exact h.exchange _ hgrants htakes rfl rfl rfl h.live h.buffers h.engine h.handles
  · next a _ =>
    split at hstep
    · cases hstep
    · next hnew =>
      cases hstep
      obtain ⟨rfl,rfl⟩ := hrule
      exact h.allocate hgrants htakes hnew

/-- The engine is there for whoever has been told so. -/
theorem Owned.ensure {engineAddr : String} (h : Owned storeId tr s (0 + rest)) (hgrants : grants e = none)
    (htakes : takes e = none) :
    Owned storeId (tr ++ [e]) (s.ensureHixlInitialized c engineAddr).2
      ((0,if (s.ensureHixlInitialized c engineAddr).1.isOk then 1 else 0) + rest) := by
  have hengine : 0 < rest.2 → s.hixlInitialized = true := fun hpos => h.engine (by simpa using hpos)
  have hlive : ∀ n : ℕ, s.live = leased s + (((0,n) : Held) + rest).1 := by
    intro n
    rw [h.live,zero_add,Prod.fst_add,zero_add]
  unfold StoreService.ensureHixlInitialized
  split
  · next hinit =>
    exact h.exchange s hgrants htakes rfl rfl rfl (hlive _) h.buffers (fun _ => hinit) h.handles
  · split
    · exact h.exchange s hgrants htakes rfl rfl rfl (hlive _) h.buffers
        (fun hpos => hengine (by simpa using hpos)) h.handles
    · split
      · exact h.exchange s hgrants htakes rfl rfl rfl (hlive _) h.buffers
          (fun hpos => hengine (by simpa using hpos)) h.handles
      · exact h.exchange { s with hixlInitialized := true } hgrants htakes rfl rfl rfl (hlive _)
          h.buffers (fun _ => rfl) fun _ _ => rfl

/-- Without an engine there are no handles to give back. -/
theorem Owned.deregister {handles : List ℕ} (h : Owned storeId tr s ((handlesOf handles,0) + rest))
    (hgrants : grants e = none) (htakes : takes e = none) :
    Owned storeId (tr ++ [e]) (if s.hixlInitialized then s.releaseAll (handles.map .handle) else s)
      (0 + rest) := by
  have h : Owned storeId tr s ((Multiset.ofList (handles.map .handle),0) + rest) := h
  split
  · exact h.release hgrants htakes
  · next hinit =>
    have hnil : handles = [] := by
      apply List.eq_nil_iff_forall_not_mem.mpr
      intro handle hmem
      apply hinit
      apply h.handles handle
      rw [h.live,Multiset.mem_add,Prod.fst_add,Multiset.mem_add]
      exact .inr (.inl (Multiset.mem_coe.mpr (List.mem_map_of_mem hmem)))
    subst hnil
    exact h.exchange s hgrants htakes rfl rfl rfl h.live h.buffers h.engine h.handles

/-- A token without a lease changes nothing. -/
theorem Owned.takeNone {tok : String} (h : Owned storeId tr s (0 + rest)) (hgrants : grants e = none)
    (htakes : takes e = none) (hfind : s.findLease tok = none) :
    Owned storeId (tr ++ [e]) (s.takeLease tok).2 (0 + rest) := by
  have hsame : (s.hixlLeases.eraseP fun x => x.1 == tok) = s.hixlLeases := by
    apply List.eraseP_of_forall_not
    exact List.find?_eq_none.mp (Option.map_eq_none_iff.mp hfind)
  exact h.exchange (s.takeLease tok).2 hgrants htakes hsame rfl rfl h.live h.buffers h.engine h.handles

end

/-- What holds of the runs in which the counter does not come round. -/
def Accounted (storeId : ℕ) (tr : List (Event serviceCalls StoreService)) (s : StoreService)
    (held : Held) : Prop :=
  (granted tr).length ≤ 2 ^ 64 → Owned storeId tr s held

theorem granted_length_le (e : Event serviceCalls StoreService)
    (h : (granted (tr ++ [e])).length ≤ 2 ^ 64) : (granted tr).length ≤ 2 ^ 64 := by
  rw [granted_snoc,List.length_append] at h
  omega

theorem keeps (storeId : ℕ) : Keeps storeServiceMachine (discipline storeId) (fun _ _ => True)
    (Accounted storeId) where
  guar := fun _ _ _ _ _ _ _ _ _ _ => trivial
  step := by
    intro tr i s op c r s' used made rest hacc _ hstep hrule hle
    have h := hacc (granted_length_le _ hle)
    cases op with
    | store op =>
      obtain ⟨rfl,rfl⟩ := hrule
      obtain ⟨⟨r₁,store⟩,-,heq⟩ := Option.map_eq_some_iff.mp hstep
      cases heq
      exact h.exchange _ rfl rfl rfl rfl rfl h.live h.buffers h.engine h.handles
    | allocate size => exact h.allocateStep rfl rfl hstep hrule
    | freeBuffer ptr =>
      obtain ⟨rfl,rfl⟩ := hrule
      cases hstep
      have h : Owned storeId tr s ((Multiset.ofList [.buffer ptr],0) + rest) := h
      exact h.release rfl rfl
    | ensureHixlInitialized engineAddr =>
      obtain ⟨rfl,rfl⟩ := hrule
      obtain ⟨rfl,rfl⟩ := Prod.mk.inj (Option.some.inj hstep)
      exact h.ensure rfl rfl
    | grantLease storeId' buffers =>
      obtain ⟨⟨handles,registered⟩,-,heq⟩ := Option.map_eq_some_iff.mp hstep
      obtain ⟨rfl,rfl,rfl⟩ := hrule
      cases registered with
      | false =>
        cases heq
        exact h.refuse rfl rfl
      | true =>
        cases heq
        rw [granted_snoc] at hle
        have hlt : (granted tr).length < 2 ^ 64 := by
          simp only [grants, List.length_append, Option.toList_some, List.length_singleton] at hle
          omega
        exact h.grant hlt rfl rfl
    | takeLease tok =>
      obtain ⟨rfl,rfl⟩ := Prod.mk.inj (Option.some.inj hstep)
      cases hfind : s.findLease tok with
      | none =>
        have hrule : (discipline storeId).rule (.takeLease tok) (s.findLease tok) used made := hrule
        rw [hfind] at hrule
        obtain ⟨rfl,rfl⟩ := hrule
        exact h.takeNone rfl (by simp [takes]) hfind
      | some lease =>
        have hrule : (discipline storeId).rule (.takeLease tok) (s.findLease tok) used made := hrule
        rw [hfind] at hrule
        obtain ⟨rfl,rfl⟩ := hrule
        exact h.take rfl (by simp [takes]) hfind
    | deregister handles =>
      obtain ⟨rfl,rfl⟩ := hrule
      cases hstep
      exact h.deregister rfl rfl

def done {α : Type} (_ : α) (held : Held) : Prop := held.1 = 0

theorem uses_onStore {α : Type} (p : StoreProg α) (held : Held) :
    Uses (discipline storeId) (fun _ held' => held' = held) (StoreServiceOps.onStore p) held := by
  have hop : ∀ op : storeCalls.Op, True →
      (StoreServiceOps.call (.store op)).Makes fun op => ∃ o, op = ServiceCall.store o :=
    fun op _ => Prog.makes_perform ⟨op,rfl⟩
  have hmakes := Prog.makes_interp hop p.makes_true
  apply uses_of_makes hmakes
  rintro _ r ⟨o,rfl⟩
  exact ⟨rfl,rfl⟩

theorem buffersOf_cons (ptr : ℕ) (ptrs : List ℕ) :
    ((buffersOf (ptr :: ptrs),0) : Held) = (buffersOf [ptr],0) + (buffersOf ptrs,0) := by
  rw [Prod.mk_add_mk,add_zero]
  rfl

theorem buffersOf_append (ptrs ptrs' : List ℕ) :
    buffersOf (ptrs ++ ptrs') = buffersOf ptrs + buffersOf ptrs' := by
  rw [buffersOf,List.map_append,← Multiset.coe_add]
  rfl

theorem uses_freeBuffers (buffers : List ℕ) (rest : Held) :
    Uses (discipline storeId) (fun _ held => held = rest) (StoreServiceOps.freeBuffers buffers)
      ((buffersOf buffers,0) + rest) := by
  induction buffers with
  | nil => exact zero_add rest
  | cons ptr buffers ih =>
    refine uses_perform fun _ _ => ⟨_,_,(buffersOf buffers,0) + rest,⟨rfl,rfl⟩,?_,?_⟩
    · rw [buffersOf_cons,add_assoc]
    · rw [zero_add]
      exact ih

theorem uses_allocateItems (segments : List RemoteSegment) (items : List HixlItem) :
    Uses (discipline storeId) (fun r held => match r with
        | none => held.1 = 0
        | some items => held = (buffersOf (items.map fun item => item.allocation.ptr),1))
      (StoreServiceOps.allocateItems segments items)
      (buffersOf (items.map fun item => item.allocation.ptr),1) := by
  induction segments generalizing items with
  | nil => rfl
  | cons seg segments ih =>
    refine uses_perform fun allocated _ => ?_
    cases allocated with
    | none =>
      refine ⟨0,0,_,⟨rfl,rfl⟩,(zero_add _).symm,?_⟩
      have hsplit : (0 : Held) + (buffersOf (items.map fun item => item.allocation.ptr),1) =
          (buffersOf (items.map fun item => item.allocation.ptr),0) + (0,1) := by
        rw [zero_add,Prod.mk_add_mk,add_zero,zero_add]
      rw [hsplit]
      refine uses_bind (uses_mono (uses_freeBuffers _ _) ?_)
      rintro _ _ rfl
      rfl
    | some a =>
      refine ⟨0,_,_,⟨rfl,rfl⟩,(zero_add _).symm,?_⟩
      have hitems := ih (items ++ [⟨seg.offset,a,seg.size⟩])
      rw [List.map_append,buffersOf_append,add_comm] at hitems
      exact hitems

theorem uses_prepareHixlBatchRead (cfg : StoreConfig) (engineAddr : String)
    (segments : List RemoteSegment) : Uses (discipline cfg.storeId) done
      (StoreServiceOps.prepareHixlBatchRead cfg engineAddr segments) 0 := by
  refine uses_perform fun init _ => ⟨0,_,0,⟨rfl,rfl⟩,(zero_add 0).symm,?_⟩
  rw [add_zero]
  cases hok : init.isOk with
  | false => rfl
  | true =>
    refine uses_bind (uses_mono (uses_allocateItems segments []) ?_)
    intro allocated held hallocated
    cases allocated with
    | none => exact hallocated
    | some items =>
      subst hallocated
      refine uses_bind (uses_mono (uses_onStore _ _) ?_)
      rintro ⟨s,_⟩ _ rfl
      dsimp only
      cases hs : s.isOk with
      | false =>
        have hsplit : ((buffersOf (items.map fun item => item.allocation.ptr),1) : Held) =
            (buffersOf (items.map fun item => item.allocation.ptr),0) + (0,1) := by
          rw [Prod.mk_add_mk,add_zero,zero_add]
        rw [hsplit]
        refine uses_bind (uses_mono (uses_freeBuffers _ _) ?_)
        rintro _ _ rfl
        rfl
      | true =>
        refine uses_perform fun granted _ => ⟨_,_,0,⟨rfl,rfl,rfl⟩,(add_zero _).symm,?_⟩
        cases granted with
        | none => rfl
        | some tok => rfl

theorem uses_releaseHixlRead (tok : String) :
    Uses (discipline storeId) done (StoreServiceOps.releaseHixlRead tok) 0 := by
  refine uses_perform fun found _ => ?_
  cases found with
  | none => exact ⟨0,0,0,⟨rfl,rfl⟩,(zero_add 0).symm,rfl⟩
  | some lease =>
    refine ⟨0,_,0,⟨rfl,rfl⟩,(zero_add 0).symm,?_⟩
    rw [add_zero]
    refine uses_perform fun _ _ => ⟨_,_,(buffersOf lease.buffers,0),⟨rfl,rfl⟩,?_,?_⟩
    · rw [HixlReadLease.resources,← Multiset.coe_add,Prod.mk_add_mk,add_zero]
      rfl
    · rw [zero_add,← add_zero ((buffersOf lease.buffers,0) : Held)]
      refine uses_bind (uses_mono (uses_freeBuffers _ _) ?_)
      rintro _ _ rfl
      rfl

theorem uses_serveKey (hits : List StoreKeyRecord) (key : Key) (response : BatchGetByKeyResponse)
    (allOk : Bool) : Uses (discipline storeId) (fun _ held => held = 0)
      (StoreServiceOps.serveKey hits key response allOk) 0 := by
  unfold StoreServiceOps.serveKey
  split
  · rfl
  · refine uses_perform fun allocated _ => ?_
    cases allocated with
    | none => exact ⟨0,0,0,⟨rfl,rfl⟩,(zero_add 0).symm,rfl⟩
    | some a =>
      refine ⟨0,_,0,⟨rfl,rfl⟩,(zero_add 0).symm,?_⟩
      rw [add_zero]
      refine uses_bind (uses_mono (uses_onStore _ _) ?_)
      rintro ⟨result,buffer⟩ _ rfl
      dsimp only
      split
      · exact uses_perform fun _ _ => ⟨_,_,0,⟨rfl,rfl⟩,(add_zero _).symm,rfl⟩
      · exact uses_perform fun _ _ => ⟨_,_,0,⟨rfl,rfl⟩,(add_zero _).symm,rfl⟩

theorem uses_serveKeys (hits : List StoreKeyRecord) (keys : List Key) (response : BatchGetByKeyResponse)
    (allOk : Bool) : Uses (discipline storeId) (fun _ held => held = 0)
      (StoreServiceOps.serveKeys hits keys response allOk) 0 := by
  induction keys generalizing response allOk with
  | nil => rfl
  | cons key keys ih =>
    refine uses_bind (uses_mono (uses_serveKey hits key response allOk) ?_)
    rintro ⟨response,allOk⟩ _ rfl
    exact ih response allOk

theorem uses_serviceOp (cfg : StoreConfig) (engineAddr : String) (op : ServiceOp) :
    Uses (discipline cfg.storeId) done (op.run cfg engineAddr) 0 := by
  cases op with
  | store op =>
    refine uses_bind (uses_mono (uses_onStore _ _) ?_)
    rintro _ _ rfl
    rfl
  | batchGetByKey keys =>
    refine uses_bind (uses_bind (uses_mono (uses_onStore _ _) ?_))
    rintro ⟨hits,_⟩ _ rfl
    refine uses_bind (uses_mono (uses_serveKeys hits keys _ _) ?_)
    rintro _ _ rfl
    rfl
  | prepareHixlBatchRead segments =>
    exact uses_bind (uses_mono (uses_prepareHixlBatchRead cfg engineAddr segments) fun _ _ h => h)
  | releaseHixlRead tok => exact uses_bind (uses_mono (uses_releaseHixlRead tok) fun _ _ h => h)

theorem foldl_destroy (leases : List (String × HixlReadLease))
    (hlive : s.live = (leases.map fun x => (x.2.resources : Multiset Resource)).sum + x)
    (hengine : ∀ y ∈ leases, y.2.handles ≠ [] → s.hixlInitialized = true) :
    leases.foldl (fun s x =>
        (if s.hixlInitialized then s.releaseAll (x.2.handles.map .handle) else s).releaseAll
          (x.2.buffers.map .buffer)) s = { s with live := x } := by
  induction leases generalizing s with
  | nil =>
    rw [List.map_nil,List.sum_nil,zero_add] at hlive
    rw [← hlive]
    rfl
  | cons y leases ih =>
    obtain ⟨hy,hrest⟩ := List.forall_mem_cons.mp hengine
    rw [List.map_cons,List.sum_cons,HixlReadLease.resources,← Multiset.coe_add,add_assoc,
      add_assoc] at hlive
    have hhandles : (if s.hixlInitialized then s.releaseAll (y.2.handles.map .handle) else s) =
        { s with live := buffersOf y.2.buffers +
          ((leases.map fun x => (x.2.resources : Multiset Resource)).sum + x) } := by
      split
      · exact releaseAll_eq hlive
      · next hinit =>
        have hnil : y.2.handles = [] := by
          by_contra hne
          exact hinit (hy hne)
        rw [hnil,List.map_nil,Multiset.coe_nil,zero_add] at hlive
        rw [buffersOf,← hlive]
    rw [List.foldl_cons,hhandles,releaseAll_eq rfl]
    exact ih rfl hrest

theorem mem_leased {r : Resource} {y : String × HixlReadLease} (hy : y ∈ s.hixlLeases)
    (hr : r ∈ y.2.resources) : r ∈ leased s := by
  obtain ⟨left,right,hsplit⟩ := List.append_of_mem hy
  rw [leased,hsplit,List.map_append,List.sum_append,List.map_cons,List.sum_cons]
  exact Multiset.mem_add.mpr (.inr (Multiset.mem_add.mpr (.inl hr)))

/-- The destructor gives back what the remaining leases own, and nothing else. -/
theorem Owned.destroy {n : ℕ} (h : Owned storeId tr s (0,n)) :
    s.destroy = { s with live := 0, hixlLeases := [] } := by
  have hlive : s.live = (s.hixlLeases.map fun x => (x.2.resources : Multiset Resource)).sum + 0 := h.live
  rw [StoreService.destroy,foldl_destroy s.hixlLeases hlive]
  intro y hy hne
  obtain ⟨handle,hmem⟩ := List.exists_mem_of_ne_nil _ hne
  apply h.handles handle
  rw [h.live,add_zero]
  apply mem_leased hy
  simp [HixlReadLease.resources, hmem]

inductive Deed
  | allocated (ptr : ℕ)
  | freed (ptr : ℕ)
  | granted (token : String) (buffers : List ℕ)
  | refused (buffers : List ℕ)
  | took (token : String) (lease : HixlReadLease)
  | missed (token : String)
  | deregistered (handles : List ℕ)

def deeds (op : ServiceCall) (r : op.Res) : List Deed :=
  match op, r with
  | .allocate _, some a => [.allocated a.ptr]
  | .freeBuffer ptr, _ => [.freed ptr]
  | .grantLease _ buffers, some tok => [.granted tok buffers]
  | .grantLease _ buffers, none => [.refused buffers]
  | .takeLease tok, some lease => [.took tok lease]
  | .takeLease tok, none => [.missed tok]
  | .deregister handles, _ => [.deregistered handles]
  | _, _ => []

def deedsOf (i : ℕ) (tr : List (Event serviceCalls StoreService)) : List Deed :=
  (callsOf i tr).flatMap fun c => deeds c.op c.res

def doing : Ledger serviceCalls (List Deed) := Ledger.noting (fun _ _ => True) deeds

def Prepared (response : HixlBatchReadResponse) (done : List Deed) : Prop :=
  ∃ buffers : List ℕ,
    (response.status = 0 ∧
      done = buffers.map .allocated ++ [.granted response.token buffers]) ∨
    (response.status ≠ 0 ∧ (done = buffers.map .allocated ++ buffers.map .freed ∨
      done = buffers.map .allocated ++ [.refused buffers]))

def Released (tok : String) (status : ℤ) (done : List Deed) : Prop :=
  (status = Code.notFound.toNat ∧ done = [.missed tok]) ∨
  (status = 0 ∧ ∃ lease, done =
    .took tok lease :: .deregistered lease.handles :: lease.buffers.map .freed)

theorem kept_freeBuffers (buffers : List ℕ) (done : List Deed) :
    doing.Kept (fun _ done' => done' = done ++ buffers.map .freed)
      (StoreServiceOps.freeBuffers buffers) done := by
  induction buffers generalizing done with
  | nil => exact (List.append_nil done).symm
  | cons ptr buffers ih =>
    apply Ledger.kept_note
    intro _ _
    refine Ledger.kept_mono (ih _) ?_
    rintro _ _ rfl
    rw [List.append_assoc]
    rfl

theorem kept_idle_onStore {α : Type} (p : StoreProg α) (done : List Deed) :
    doing.Kept (fun _ done' => done' = done) (StoreServiceOps.onStore p) done := by
  induction p with
  | ret a => rfl
  | call op k ih =>
    intro r _
    refine ⟨_,rfl,?_⟩
    have hnil : done ++ deeds (.store op) r = done := List.append_nil done
    rw [hnil]
    exact ih r

theorem kept_allocateItems (segments : List RemoteSegment) (items : List HixlItem) :
    doing.Kept (fun r done => match r with
        | none => ∃ buffers : List ℕ, done = buffers.map .allocated ++ buffers.map .freed
        | some items => done = (items.map fun item => item.allocation.ptr).map .allocated)
      (StoreServiceOps.allocateItems segments items)
      ((items.map fun item => item.allocation.ptr).map .allocated) := by
  induction segments generalizing items with
  | nil => rfl
  | cons seg segments ih =>
    apply Ledger.kept_note
    intro allocated _
    cases allocated with
    | none =>
      refine Ledger.kept_bind (Ledger.kept_mono (kept_freeBuffers _ _) ?_)
      rintro _ _ rfl
      exact ⟨_,congrArg (· ++ _) (List.append_nil _)⟩
    | some a =>
      have hitems := ih (items ++ [⟨seg.offset,a,seg.size⟩])
      rw [List.map_append,List.map_append] at hitems
      exact hitems

theorem kept_prepareHixlBatchRead (cfg : StoreConfig) (engineAddr : String)
    (segments : List RemoteSegment) : doing.Kept Prepared
      (StoreServiceOps.prepareHixlBatchRead cfg engineAddr segments) [] := by
  apply Ledger.kept_note
  intro init _
  cases hok : init.isOk with
  | false => exact ⟨[],.inr ⟨KeyReads.toNat_ne_zero hok,.inl rfl⟩⟩
  | true =>
    refine Ledger.kept_bind (Ledger.kept_mono (kept_allocateItems segments []) ?_)
    intro allocated done hdone
    cases allocated with
    | none =>
      obtain ⟨buffers,rfl⟩ := hdone
      exact ⟨buffers,.inr ⟨by decide,.inl rfl⟩⟩
    | some items =>
      subst hdone
      refine Ledger.kept_bind (Ledger.kept_mono (kept_idle_onStore _ _) ?_)
      rintro ⟨s,_⟩ _ rfl
      dsimp only
      cases hs : s.isOk with
      | false =>
        refine Ledger.kept_bind (Ledger.kept_mono (kept_freeBuffers _ _) ?_)
        rintro _ _ rfl
        exact ⟨_,.inr ⟨KeyReads.toNat_ne_zero hs,.inl rfl⟩⟩
      | true =>
        apply Ledger.kept_note
        intro granted _
        cases granted with
        | none => exact ⟨_,.inr ⟨by decide,.inr rfl⟩⟩
        | some tok => exact ⟨_,.inl ⟨rfl,rfl⟩⟩

theorem kept_releaseHixlRead (tok : String) :
    doing.Kept (Released tok) (StoreServiceOps.releaseHixlRead tok) [] := by
  apply Ledger.kept_note
  intro found _
  cases found with
  | none => exact .inl ⟨rfl,rfl⟩
  | some lease =>
    apply Ledger.kept_note
    intro _ _
    refine Ledger.kept_bind (Ledger.kept_mono (kept_freeBuffers _ _) ?_)
    rintro _ _ rfl
    exact .inr ⟨rfl,lease,rfl⟩

end Leases

end FalconKV
