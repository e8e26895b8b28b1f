import Mathlib.Algebra.Group.Pi.Lemmas
import FalconKV.Client.Mentions
import FalconKV.Client.SlotReads
import FalconKV.Store.Grace

/-! # Clients that read what is still there

A descriptor of a cache names the slot that the key had when the client was told of it. As long as
no call writes this slot, or puts the key into another one, while the slot is named, what is read
there is what was last stored. The slots of each store are accounted for on their own: a thread holds
slots of any number of stores, and the calls of a client hold none.
-/
namespace FalconKV
open AtomicCalls Store

/-- Evictions act on current snapshots and writes stay in their slots. -/
def ReadWorld.orderly (x : ReadWorld) : ClientCall → Bool
  | .atStore i op => (x.store i).wellSized op
  | .forClient i op => (x.store i).wellSized op
  | _ => true

variable {D : Deployment} {x x' : ReadWorld} {op : StoreCall} {c : ClientChoice} {i client : ℕ}
  {held used made rest : ℕ → Multiset Holding}

def sitesCustody : Discipline clientCalls (ℕ → Multiset Holding) where
  guar
    | .atStore _ op, r => Custody.guar op r
    | .forClient _ op, r => Custody.guar op r
    | _, _ => True
  rule
    | .atStore i op, r, used, made =>
      ∃ u m, Custody.rule op r u m ∧ used = Pi.single i u ∧ made = Pi.single i m
    | .forClient i op, r, used, made =>
      ∃ u m, Custody.rule op r u m ∧ used = Pi.single i u ∧ made = Pi.single i m
    | _, _, used, made => used = 0 ∧ made = 0

def ReadWorld.Remembers (x : ReadWorld) (held : ℕ → Multiset Holding) : Prop :=
  ∀ i, Remembering (x.store i) (x.lastPut i) (held i)

/-- A call in one store leaves the others as they are. -/
theorem ReadWorld.Remembers.setStore {u m : Multiset Holding} {r : op.Res} {s' : Store}
    (h : x.Remembers (Pi.single i u + rest)) (hok : (x.store i).wellSized op = true)
    (hs : (x.store i).step op c.store = some (r,s')) (hr : Custody.rule op r u m) :
    (x.setStore i op s').Remembers (Pi.single i m + rest) := by
  intro j
  have hj := h j
  by_cases hne : j = i
  · subst hne
    simp only [Pi.add_apply, Pi.single_eq_same] at hj
    simp only [ReadWorld.setStore, Function.update_self, Pi.add_apply, Pi.single_eq_same]
    exact hj.step hok hs hr
  · simp only [Pi.add_apply, Pi.single_eq_of_ne hne] at hj
    simp only [ReadWorld.setStore, Function.update_of_ne hne, Pi.add_apply, Pi.single_eq_of_ne hne]
    exact hj

theorem ReadWorld.Remembers.guar {r : op.Res} {s' : Store} (h : x.Remembers held)
    (hok : (x.store i).wellSized op = true) (hs : (x.store i).step op c.store = some (r,s')) :
    Custody.guar op r :=
  keeps_tidy.guar [] (h i).intact.tidy hok hs

def ReadWorld.Recalls (x : ReadWorld) : Prop := ∃ held, x.Remembers held

theorem keeps_recalls : Keeps (clientMachine D) sitesCustody (fun x op => x.orderly op = true)
    fun tr x held => (∀ e ∈ tr, e.before.Recalls ∧ e.after.Recalls) ∧ x.Remembers held where
  guar := by
    rintro tr x op c r x' held ⟨-,h⟩ hok hs
    cases op with
    | atStore i op =>
      obtain ⟨y,hy,he⟩ := Option.map_eq_some_iff.mp hs
      obtain ⟨rfl,-⟩ := Prod.mk.inj he
      exact h.guar hok hy
    | forClient i op =>
      obtain ⟨y,hy,he⟩ := Option.map_eq_some_iff.mp hs
      obtain ⟨rfl,-⟩ := Prod.mk.inj he
      exact h.guar hok hy
    | _ => trivial
  step := by
    rintro tr t x op c r x' used made rest ⟨hrecalls,h⟩ hok hs hr
    have hafter : x'.Remembers (made + rest) := by
      cases op with
      | atStore i op =>
        obtain ⟨u,m,hrule,rfl,rfl⟩ := hr
        obtain ⟨y,hy,he⟩ := Option.map_eq_some_iff.mp hs
        obtain ⟨rfl,rfl⟩ := Prod.mk.inj he
        exact h.setStore hok hy hrule
      | forClient i op =>
        obtain ⟨u,m,hrule,rfl,rfl⟩ := hr
        obtain ⟨y,hy,he⟩ := Option.map_eq_some_iff.mp hs
        obtain ⟨rfl,rfl⟩ := Prod.mk.inj he
        exact h.setStore hok hy hrule
      | _ =>
        obtain ⟨rfl,rfl⟩ := hr
        cases hs
        exact h
    refine ⟨?_,hafter⟩
    intro e he
    rcases List.mem_append.mp he with he | he
    · exact hrecalls e he
    · obtain rfl := List.mem_singleton.mp he
      exact ⟨⟨_,h⟩,⟨_,hafter⟩⟩

namespace ClientOps

abbrev Idles {α : Type} (p : ClientProg α) : Prop := Uses sitesCustody (fun _ g => g = 0) p 0

variable {α β : Type}

theorem idles_bind {p : ClientProg α} {k : α → ClientProg β} (hp : Idles p)
    (h : ∀ a, Idles (k a)) : Idles (p >>= k) :=
  uses_bind_keep hp h

theorem idles_map {p : ClientProg α} (f : α → β) (hp : Idles p) : Idles (f <$> p) :=
  idles_bind hp fun _ => rfl

theorem idles_forEach {f : α → ClientProg Unit} (xs : List α) (h : ∀ x, Idles (f x)) :
    Idles (Prog.forEach f xs) :=
  uses_forEach (split_zero fun x _ => h x)

theorem idles_mapEach {f : α → ClientProg β} (xs : List α) (h : ∀ x, Idles (f x)) :
    Idles (Prog.mapEach f xs) := by
  refine uses_mono (uses_mapEach (Q := fun _ g => g = 0) (split_zero fun x _ => h x)) ?_
  rintro ys g ⟨-,hz⟩
  exact hz.eq_zero

/-- The slots of one store among those of all. -/
def site (i : ℕ) : Multiset Holding →+ (ℕ → Multiset Holding) :=
  AddMonoidHom.single (fun _ : ℕ => Multiset Holding) i

/-- What a call pays with in its store, it pays with among all. -/
theorem paid_at {rule : Multiset Holding → Multiset Holding → Prop}
    {P : (ℕ → Multiset Holding) → Prop} {g : Multiset Holding}
    (h : ∃ used made rest, rule used made ∧ g = used + rest ∧ P (site i (made + rest))) :
    ∃ used made rest, (∃ u m, rule u m ∧ used = Pi.single i u ∧ made = Pi.single i m) ∧
      site i g = used + rest ∧ P (made + rest) := by
  obtain ⟨u,m,rest,hrule,rfl,hP⟩ := h
  rw [map_add] at hP ⊢
  exact ⟨site i u,site i m,site i rest,⟨u,m,hrule,rfl,rfl⟩,rfl,hP⟩

theorem idles_interp {h : (op : StoreCall) → ClientProg op.Res} {p : StoreProg α}
    (hop : ∀ (op : StoreCall) (g : Multiset Holding) (P : op.Res → (ℕ → Multiset Holding) → Prop),
      (∀ r, custody.guar op r → ∃ used made rest,
        custody.rule op r used made ∧ g = used + rest ∧ P r (site i (made + rest))) →
      Uses sitesCustody P (h op) (site i g))
    (hp : Discharges p 0) : Idles (p.interp h) := by
  have huses := uses_interp_along (site i) hop hp
  rw [map_zero] at huses
  refine uses_mono huses ?_
  rintro _ _ ⟨_,rfl,rfl⟩
  exact map_zero (site i)

/-- An operation of a store gives back all slots that it takes. -/
theorem idles_atStore {p : StoreProg α} (hp : Discharges p 0) : Idles (atStore i p) :=
  idles_interp (fun _ _ _ hop r hr => paid_at (hop r hr)) hp

theorem idles_forClient {p : StoreProg α} (hp : Discharges p 0) : Idles (forClient i p) :=
  idles_interp (fun _ _ _ hop r hr => paid_at (hop r hr)) hp

/-- Besides the calls in the stores, no call touches a slot. -/
theorem idles_call {op : ClientCall} (hop : ∀ r, sitesCustody.rule op r 0 0) : Idles (call op) :=
  uses_idle (k := pure) hop fun _ _ => rfl

/-- A call for a client that takes nothing in its store. -/
theorem rule_forClient {r : op.Res} (h : Custody.rule op r 0 0) :
    sitesCustody.rule (.forClient i op) r 0 0 :=
  ⟨0,0,h,(map_zero (site i)).symm,(map_zero (site i)).symm⟩

theorem idles_rememberPut (x : (Key × BufferInfo) × StorePutResult) :
    Idles (rememberPut D client i x) := by
  unfold rememberPut
  split
  · exact idles_call fun _ => ⟨rfl,rfl⟩
  · exact rfl

theorem idles_batchPut (keys : List Key) (buffers : List BufferInfo) :
    Idles (batchPut D client keys buffers) := by
  unfold batchPut
  split
  · exact rfl
  · split
    · exact rfl
    · refine idles_bind (idles_atStore (StoreOps.discharges_batchPut _ _ _)) ?_
      intro results
      exact idles_bind (idles_forEach _ idles_rememberPut) fun _ => rfl

theorem idles_learn (rec : KeyRecord) : Idles (learn D client rec) := by
  have hfile : Idles (learnFile D client rec) := by
    unfold learnFile
    split
    · exact idles_call fun _ => ⟨rfl,rfl⟩
    · exact rfl
  have haddr : Idles (learnAddr client rec) := by
    unfold learnAddr
    split
    · exact idles_call fun _ => ⟨rfl,rfl⟩
    · exact rfl
  exact idles_bind hfile fun _ => idles_bind haddr fun _ => idles_call fun _ => ⟨rfl,rfl⟩

theorem idles_unlessEmpty {ask : ClientProg (List KeyRecord)} (missingKeys : List Key)
    (h : Idles ask) : Idles (unlessEmpty missingKeys ask) := by
  unfold unlessEmpty
  split
  · exact rfl
  · exact h

theorem idles_localHits (keys : List Key) : Idles (localHits D client keys) := by
  unfold localHits
  split
  · exact rfl
  · exact idles_bind (idles_atStore (StoreOps.discharges_batchContains keys)) fun _ => rfl

theorem idles_batchExist (keys : List Key) : Idles (batchExist D client keys) := by
  unfold batchExist
  split
  · exact rfl
  · refine idles_bind (idles_localHits keys) ?_
    rintro ⟨hits,missingKeys⟩
    refine idles_bind (idles_forEach _ fun desc => idles_call fun _ => ⟨rfl,rfl⟩) ?_
    intro _
    refine idles_bind (idles_unlessEmpty _ (idles_call fun _ => ⟨rfl,rfl⟩)) ?_
    intro records
    exact idles_bind (idles_forEach _ idles_learn) fun _ => rfl

theorem idles_localReads (fetches : List Fetch) : Idles (localReads D client fetches) := by
  unfold localReads
  split
  · exact rfl
  · exact idles_bind (idles_forClient (StoreOps.discharges_batchRead _)) fun _ => rfl

theorem idles_readFile (f : Fetch) : Idles (readFile D client i f) := by
  unfold readFile
  split
  · exact idles_bind (idles_call fun _ => rule_forClient ⟨rfl,rfl⟩) fun _ => rfl
  · refine idles_bind (idles_call fun _ => rule_forClient ⟨rfl,rfl⟩) ?_
    rintro ⟨r,bytes⟩
    dsimp only
    split
    · exact rfl
    · split <;> exact rfl

theorem idles_readNode (fetches : List Fetch) : Idles (readNode D client fetches) := by
  have hfile : ∀ f, Idles (storeFile client f) := by
    intro f
    refine idles_bind (idles_call fun _ => ⟨rfl,rfl⟩) ?_
    intro path
    cases path with
    | none => exact rfl
    | some path => exact idles_call fun _ => ⟨rfl,rfl⟩
  refine idles_bind (idles_mapEach _ hfile) ?_
  intro files
  apply idles_mapEach
  rintro ⟨f,file⟩
  cases file with
  | none => exact rfl
  | some i => exact idles_bind (idles_readFile f) fun _ => rfl

theorem idles_readRpc (addr : String) (fetches : List Fetch) : Idles (readRpc D addr fetches) := by
  refine idles_bind (idles_call fun _ => ⟨rfl,rfl⟩) ?_
  intro site
  cases site with
  | none => exact rfl
  | some i =>
    refine idles_bind (idles_forClient (StoreOps.discharges_batchRead _)) ?_
    rintro ⟨status,buffers⟩
    refine idles_bind (idles_call fun _ => ⟨rfl,rfl⟩) ?_
    intro arrives
    split <;> exact rfl

theorem idles_readRemote (fetches : List Fetch) (storeId : ℕ) :
    Idles (readRemote D client fetches storeId) := by
  have haddr : ∀ desc, Idles (remoteAddr client desc) := by
    intro desc
    unfold remoteAddr
    split
    · exact rfl
    · exact idles_bind (idles_call fun _ => ⟨rfl,rfl⟩) fun _ => rfl
  unfold readRemote
  split
  · exact rfl
  · refine idles_bind (haddr _) ?_
    intro addr
    split
    · exact rfl
    · exact idles_readRpc addr _

theorem idles_batchGet (items : List (KeyDescriptor × BufferInfo)) :
    Idles (batchGet D client items) := by
  refine idles_bind (idles_localReads _) ?_
  intro localResults
  refine idles_bind (idles_readNode _) ?_
  intro nodeResults
  exact idles_bind (idles_mapEach _ (idles_readRemote _)) fun _ => rfl

theorem idles_batchGetSync (keys : List Key) (buffers : List BufferInfo) :
    Idles (batchGetSync D client keys buffers) := by
  unfold batchGetSync
  split
  · exact rfl
  · refine idles_bind (idles_call fun _ => ⟨rfl,rfl⟩) ?_
    rintro ⟨hitDescs,missingKeys⟩
    refine idles_bind (idles_unlessEmpty _ (idles_call fun _ => ⟨rfl,rfl⟩)) ?_
    intro records
    refine idles_bind (idles_forEach _ idles_learn) ?_
    intro _
    exact idles_bind (idles_batchGet _) fun _ => rfl

/-- No operation keeps a slot that it took. -/
theorem idles_run (op : ClientOp) : Idles (op.run D) := by
  cases op with
  | store i op => exact idles_map _ (idles_atStore (StoreOps.discharges_run op))
  | batchPut client keys buffers => exact idles_map _ (idles_batchPut keys buffers)
  | batchExist client keys => exact idles_map _ (idles_batchExist keys)
  | batchGetSync client keys buffers => exact idles_map _ (idles_batchGetSync keys buffers)

end ClientOps

theorem ReadWorld.remembers_init (hcap : ∀ i, (D.cfg i).capacityBytes < 2^63) :
    (ReadWorld.init D).Remembers 0 :=
  fun i => remembering_init (hcap i)

/-- A call that does not outdate a slot leaves what stands there. -/
theorem ReadWorld.Serves.step {m : Mention} {op : ClientCall} {r : op.Res} (h : x.Serves m)
    (hop : m.outdatedBy op = false) (hs : (clientMachine D).step op c x = some (r,x')) : x'.Serves m := by
  have hstore : ∀ {i : ℕ} {op : StoreCall} {s' : Store},
      (m.site i && LastPut.outdates m.key m.offset op) = false → (x.setStore i op s').Serves m := by
    intro i op s' hop j hj
    have hstands := h j hj
    by_cases hne : j = i
    · subst hne
      rw [hj, Bool.true_and] at hop
      simp only [ReadWorld.setStore, Function.update_self]
      exact hstands.note hop
    · simpa only [ReadWorld.setStore, Function.update_of_ne hne] using hstands
  cases op with
  | atStore i op =>
    obtain ⟨y,-,he⟩ := Option.map_eq_some_iff.mp hs
    obtain ⟨-,rfl⟩ := Prod.mk.inj he
    exact hstore hop
  | forClient i op =>
    obtain ⟨y,-,he⟩ := Option.map_eq_some_iff.mp hs
    obtain ⟨-,rfl⟩ := Prod.mk.inj he
    exact hstore hop
  | _ =>
    cases hs
    exact h

/-- The index of a store names slots that serve. -/
theorem ReadWorld.Recalls.serves {m : Mention} (h : x.Recalls) (hfind : ∀ i, m.site i = true →
    ∃ rec, (x.store i).index.find m.key = some rec ∧ rec.offset = m.offset) : x.Serves m := by
  obtain ⟨held,hheld⟩ := h
  intro i hi
  obtain ⟨rec,hrec,hoffset⟩ := hfind i hi
  rw [← hoffset]
  exact (hheld i).recorded m.key rec hrec

/-- A read of a slot where the value stands gets it. -/
theorem ReadWorld.Recalls.right {r : op.Res} {s' : Store} {read : SlotRead} (h : x.Recalls)
    (hstands : LastPut.Stands (x.lastPut read.site) read.reader read.offset)
    (hs : (x.store i).step op c.store = some (r,s'))
    (hread : ClientCall.completed (.forClient i op) r = some read) : read.Right x := by
  obtain ⟨held,hheld⟩ := h
  obtain ⟨put,hput,hoffset,hstanding⟩ := hstands
  refine ⟨put,hput,fun hsize => ?_⟩
  have hvalue := ((hheld read.site).holds read.reader put hput hstanding).take hsize
  rw [hoffset] at hvalue
  cases op with
  | pread offset size reader =>
    obtain ⟨hcount,he⟩ := Option.ite_none_right_eq_some.mp hread
    cases he
    exact (bytesOf_pread hs hcount).trans hvalue
  | uringRead offset size reader =>
    obtain ⟨hisOk,he⟩ := Option.ite_none_right_eq_some.mp hread
    cases he
    exact (bytesOf_uringRead hs hisOk).trans hvalue
  | _ => cases hread

namespace Deployment

structure Good (D : Deployment) (x : ReadWorld) (client : ℕ) (desc : KeyDescriptor) : Prop where
  serves : x.Serves (D.mention client desc)
  addr : desc.storeAddr ≠ "" → D.AddrOf (desc.storeId,desc.storeAddr)

structure Furnished (D : Deployment) (x : ReadWorld) : Prop where
  descs : ∀ client, ∀ desc ∈ (x.client client).keyDescCache.descs, D.Good x client desc
  files : ∀ client storeId path, (x.client client).storeFiles.lookup storeId = some path → D.FileOf (storeId,path)
  addrs : ∀ client storeId addr, (x.client client).storeAddrMap.lookup storeId = some addr → D.AddrOf (storeId,addr)

structure Informed (D : Deployment) (tr : List ClientEvent) (x : ReadWorld) : Prop where
  slots : ∀ e ∈ tr, ∀ m ∈ D.tells e.op e.res, e.after.Serves m
  files : ∀ e ∈ tr, ∀ y ∈ tellsFiles e.op e.res, D.FileOf y
  addrs : ∀ e ∈ tr, ∀ y ∈ tellsAddrs e.op e.res, D.AddrOf y
  furnished : D.Furnished x
  reads : ∀ e ∈ tr, ∀ read, e.op.completed e.res = some read → read.Right e.before

structure Lasting (D : Deployment) (tr : List ClientEvent) (x : ReadWorld) : Prop where
  steps : ∀ e ∈ tr, ∃ c, (clientMachine D).step e.op c e.before = some (e.res,e.after)
  serves : ∀ tr₁ e tr₂, tr = tr₁ ++ e :: tr₂ → ∀ m, e.after.Serves m →
    (∀ e' ∈ tr₂, m.outdatedBy e'.op = false) → x.Serves m

variable {tr : List ClientEvent} {t : ℕ} {call : ClientCall} {r : call.Res} {calls : Calls}
  {desc : KeyDescriptor} {m : Mention}

theorem Lasting.snoc (h : D.Lasting tr x) (hs : (clientMachine D).step call c x = some (r,x')) :
    D.Lasting (tr ++ [⟨t,x,call,r,x'⟩]) x' where
  steps := by
    intro e he
    rcases List.mem_append.mp he with he | he
    · exact h.steps e he
    · obtain rfl := List.mem_singleton.mp he
      exact ⟨c,hs⟩
  serves := by
    intro tr₁ e tr₂ htr m hserves hkeeps
    rcases List.eq_nil_or_concat tr₂ with rfl | ⟨tr₂,e',rfl⟩
    · obtain ⟨-,he⟩ := List.append_inj' htr rfl
      cases he
      exact hserves
    · rw [List.concat_eq_append, ← List.cons_append, ← List.append_assoc] at htr
      obtain ⟨hinit,he⟩ := List.append_inj' htr rfl
      cases he
      rw [List.concat_eq_append] at hkeeps
      have hbefore := h.serves tr₁ e tr₂ hinit m hserves fun e' he' => hkeeps e' (List.mem_append_left _ he')
      exact hbefore.step (hkeeps _ (List.mem_append_right _ (List.mem_singleton_self _))) hs

/-- Slots that were listed in an index serve. -/
theorem Lasting.serves_of_listed (h : D.Lasting tr x) (hrecalls : ∀ e ∈ tr, e.before.Recalls)
    (hlisted : Listed m tr) : x.Serves m := by
  obtain ⟨tr₁,e,tr₂,htr,hfind,hkeeps⟩ := hlisted
  obtain ⟨hhead,htail⟩ := List.forall_mem_cons.mp hkeeps
  have he : e ∈ tr := by
    rw [htr]
    exact List.mem_append_right _ List.mem_cons_self
  obtain ⟨c,hs⟩ := h.steps e he
  exact h.serves tr₁ e tr₂ htr m (((hrecalls e he).serves hfind).step hhead hs) htail

/-- What the thread of a client's call was told serves when it makes the call. -/
theorem serves_of_told (hinformed : D.Informed tr x) (hlasting : D.Lasting tr x)
    (hawaited : D.awaited (tr ++ [⟨t,x,call,r,x'⟩]) = true) (hclient : isClients call = true)
    (htold : ∃ a ∈ callsOf t tr, m ∈ D.tells a.op a.res) : x.Serves m := by
  obtain ⟨a,ha,hm⟩ := htold
  obtain ⟨e,he,hthread,rfl⟩ := mem_callsOf.mp ha
  obtain ⟨tr₁,tr₂,htr⟩ := List.append_of_mem he
  apply hlasting.serves tr₁ e tr₂ htr m (hinformed.slots e he m hm)
  rw [htr] at hawaited
  exact not_outdated_of_awaited hawaited hclient hthread hm

theorem fileOf_of_told {storeId : ℕ} {path : String} (hinformed : D.Informed tr x)
    (htold : ToldFile (callsOf t tr) storeId path) : D.FileOf (storeId,path) := by
  obtain ⟨a,ha,hm⟩ := htold
  obtain ⟨e,he,-,rfl⟩ := mem_callsOf.mp ha
  exact hinformed.files e he _ hm

theorem addrOf_of_told {storeId : ℕ} {addr : String} (hinformed : D.Informed tr x)
    (htold : ToldAddr (callsOf t tr) storeId addr) : D.AddrOf (storeId,addr) := by
  obtain ⟨a,ha,hm⟩ := htold
  obtain ⟨e,he,-,rfl⟩ := mem_callsOf.mp ha
  exact hinformed.addrs e he _ hm

/-- A descriptor leads to a store that it means. -/
theorem means_of_leads (hinformed : D.Informed tr x) (hlasting : D.Lasting tr x)
    (h : D.Directs (callsOf t tr) client desc i) : D.means client desc i = true := by
  have hstep : ∀ {op : ClientCall} {r : op.Res}, (⟨op,r⟩ : Answered clientCalls) ∈ callsOf t tr →
      ∃ x x' c, (clientMachine D).step op c x = some (r,x') := by
    intro op r hmem
    obtain ⟨e,he,-,heq⟩ := mem_callsOf.mp hmem
    obtain ⟨c,hs⟩ := hlasting.steps e he
    cases heq
    exact ⟨_,_,c,hs⟩
  have hid : desc.accessType ≠ .localDirect → (D.cfg i).storeId = desc.storeId → D.means client desc i = true := by
    intro htype hid
    rw [means, if_neg htype, hid]
    exact beq_self_eq_true _
  unfold Directs at h
  split at h
  · next htype =>
    rw [means, if_pos htype, h]
    exact beq_self_eq_true _
  · next htype =>
    obtain ⟨path,htold,hopened⟩ := h
    obtain ⟨y,y',c,hs⟩ := hstep hopened
    have hfile : (if c.succeeds then D.dataFile path else none) = some i :=
      congrArg Prod.fst (Option.some.inj hs)
    obtain ⟨-,hfile⟩ := Option.ite_none_right_eq_some.mp hfile
    apply hid (by rw [htype]; decide)
    exact fileOf_of_told hinformed htold i hfile
  · next htype =>
    obtain ⟨addr,htold,hreached⟩ := h
    obtain ⟨y,y',c,hs⟩ := hstep hreached
    have haddr : (if c.succeeds then D.serving addr else none) = some i :=
      congrArg Prod.fst (Option.some.inj hs)
    obtain ⟨-,haddr⟩ := Option.ite_none_right_eq_some.mp haddr
    apply hid (by rw [htype]; decide)
    exact addrOf_of_told hinformed htold i haddr

end Deployment

namespace Deployment
variable {tr : List ClientEvent} {t : ℕ} {call : ClientCall} {r : call.Res} {desc : KeyDescriptor} {m : Mention}

theorem Good.step (h : D.Good x client desc) (hop : (D.mention client desc).outdatedBy call = false)
    (hs : (clientMachine D).step call c x = some (r,x')) : D.Good x' client desc :=
  ⟨h.serves.step hop hs,h.addr⟩

theorem Good.stamped (h : D.Good x client desc) (now : ℕ) : D.Good x client { desc with accessTimeMs := now } :=
  ⟨h.serves,h.addr⟩

theorem lookup_insert_of {addrMap : AList fun _ : ℕ => String} {storeId storeId' : ℕ} {addr addr' : String}
    {P : ℕ × String → Prop} (h : ∀ storeId addr, addrMap.lookup storeId = some addr → P (storeId,addr))
    (hnew : P (storeId,addr)) (hlookup : (addrMap.insert storeId addr).lookup storeId' = some addr') :
    P (storeId',addr') := by
  by_cases hid : storeId' = storeId
  · subst hid
    rw [AList.lookup_insert] at hlookup
    obtain rfl := Option.some.inj hlookup
    exact hnew
  · rw [AList.lookup_insert_ne hid] at hlookup
    exact h storeId' addr' hlookup

/-- What a client remembers stays good. -/
theorem Furnished.step (h : D.Furnished x) (hspares : D.Spares x call)
    (hs : (clientMachine D).step call c x = some (r,x'))
    (hinsert : ∀ client desc, call = .cacheInsert client desc → D.Good x client desc)
    (hfile : ∀ client storeId path, call = .registerStoreFile client storeId path → D.FileOf (storeId,path))
    (haddr : ∀ client storeId addr, call = .setStoreAddr client storeId addr → D.AddrOf (storeId,addr)) :
    D.Furnished x' := by
  have hgood : ∀ client, ∀ desc ∈ (x.client client).keyDescCache.descs, D.Good x' client desc :=
    fun client desc hdesc => (h.descs client desc hdesc).step (hspares client desc hdesc) hs
  have hsame : x'.client = x.client → D.Furnished x' := by
    intro hclient
    constructor
    · rw [hclient]
      exact hgood
    · rw [hclient]
      exact h.files
    · rw [hclient]
      exact h.addrs
  -- a call that changes one client
  have hone : ∀ {client : ℕ} {value : FalconKVClientImpl}, x' = x.setClient client value →
      (∀ desc ∈ value.keyDescCache.descs, D.Good x' client desc) →
      (∀ storeId path, value.storeFiles.lookup storeId = some path → D.FileOf (storeId,path)) →
      (∀ storeId addr, value.storeAddrMap.lookup storeId = some addr → D.AddrOf (storeId,addr)) →
      D.Furnished x' := by
    intro client value hx hdescs hfiles haddrs
    have hvalue : ∀ other, x'.client other = if other = client then value else x.client other := by
      intro other
      rw [hx, ReadWorld.setClient]
      exact Function.update_apply _ _ _ _
    constructor <;> intro other <;> rw [hvalue] <;> split
    · next heq =>
      subst heq
      exact hdescs
    · exact hgood other
    · exact hfiles
    · exact h.files other
    · exact haddrs
    · exact h.addrs other
  cases call with
  | atStore i op =>
    obtain ⟨y,-,he⟩ := Option.map_eq_some_iff.mp hs
    obtain ⟨-,rfl⟩ := Prod.mk.inj he
    exact hsame rfl
  | forClient i op =>
    obtain ⟨y,-,he⟩ := Option.map_eq_some_iff.mp hs
    obtain ⟨-,rfl⟩ := Prod.mk.inj he
    exact hsame rfl
  | cacheLookup client keys =>
    cases hs
    apply hone rfl ?_ (h.files client) (h.addrs client)
    exact (KeyDescCache.forall_batchLookup (fun _ now hdesc => hdesc.stamped now) (hgood client) c.now keys).2
  | cacheInsert client desc =>
    have hnew := (hinsert client desc rfl).step rfl hs
    cases hs
    exact hone rfl (KeyDescCache.forall_insert (hgood client) hnew) (h.files client) (h.addrs client)
  | registerStoreFile client storeId path =>
    cases hs
    apply hone rfl (hgood client) ?_ (h.addrs client)
    exact fun _ _ => lookup_insert_of (h.files client) (hfile client storeId path rfl)
  | setStoreAddr client storeId addr =>
    cases hs
    apply hone rfl (hgood client) (h.files client)
    exact fun _ _ => lookup_insert_of (h.addrs client) (haddr client storeId addr rfl)
  | _ =>
    cases hs
    exact hsame rfl

/-- What a lookup finds is good. -/
theorem Furnished.hits (h : D.Furnished x) (client now : ℕ) (keys : List Key) :
    ∀ desc ∈ ((x.client client).keyDescCache.batchLookup now keys).1.1, D.Good x client desc :=
  (KeyDescCache.forall_batchLookup (P := D.Good x client) (fun _ now hdesc => hdesc.stamped now)
    (h.descs client) now keys).1

theorem files_of_step (h : D.Furnished x) (htruthful : D.Truthful (tr ++ [⟨t,x,call,r,x'⟩]))
    (hs : (clientMachine D).step call c x = some (r,x')) : ∀ y ∈ tellsFiles call r, D.FileOf y := by
  have hlast := List.mem_append_right tr (List.mem_singleton_self (⟨t,x,call,r,x'⟩ : ClientEvent))
  intro y hy
  cases call with
  | getStoreFilePath client storeId =>
    cases hs
    obtain ⟨path,hpath,rfl⟩ := Option.map_eq_some_iff.mp (Option.mem_toList.mp hy)
    exact h.files client storeId path hpath
  | metaBatchExist client keys => exact htruthful.files _ hlast rfl y hy
  | metaBatchLookup client keys => exact htruthful.files _ hlast rfl y hy
  | _ => cases hy

theorem addrs_of_step (h : D.Furnished x) (htruthful : D.Truthful (tr ++ [⟨t,x,call,r,x'⟩]))
    (hs : (clientMachine D).step call c x = some (r,x')) : ∀ y ∈ tellsAddrs call r, D.AddrOf y := by
  have hlast := List.mem_append_right tr (List.mem_singleton_self (⟨t,x,call,r,x'⟩ : ClientEvent))
  intro y hy
  cases call with
  | getStoreAddr client storeId =>
    cases hs
    obtain ⟨addr,haddr,rfl⟩ := Option.map_eq_some_iff.mp (Option.mem_toList.mp hy)
    exact h.addrs client storeId addr haddr
  | cacheLookup client keys =>
    cases hs
    obtain ⟨desc,hdesc,rfl⟩ := List.mem_map.mp hy
    obtain ⟨hhit,hne⟩ := List.mem_filter.mp hdesc
    exact (h.hits client c.now keys desc hhit).addr (bne_iff_ne.mp hne)
  | metaBatchExist client keys => exact htruthful.addrs _ hlast rfl y hy
  | metaBatchLookup client keys => exact htruthful.addrs _ hlast rfl y hy
  | _ => cases hy

/-- What a call tells serves after it. -/
theorem slots_of_step (h : D.Furnished x) (hlasting : D.Lasting (tr ++ [⟨t,x,call,r,x'⟩]) x')
    (hrecalls : ∀ e ∈ tr ++ [⟨t,x,call,r,x'⟩], e.before.Recalls ∧ e.after.Recalls)
    (htruthful : D.Truthful (tr ++ [⟨t,x,call,r,x'⟩]))
    (hs : (clientMachine D).step call c x = some (r,x')) : ∀ m ∈ D.tells call r, x'.Serves m := by
  obtain ⟨hbefore,hafter⟩ := hrecalls _ (List.mem_append_right tr (List.mem_singleton_self _))
  have hmeta : asksMeta call = true → ∀ m ∈ D.tells call r, x'.Serves m := by
    intro hasks m hm
    apply hlasting.serves_of_listed (fun e he => (hrecalls e he).1)
    exact htruthful.slots tr _ [] rfl hasks m hm
  cases call with
  | atStore i op =>
    intro m hm
    cases op with
    | indexPut key record data =>
      obtain rfl := List.mem_singleton.mp hm
      apply hafter.serves
      intro j hj
      obtain rfl : i = j := beq_iff_eq.mp hj
      cases hs
      refine ⟨(x.store i).index.stored key record,?_,rfl⟩
      simp only [ReadWorld.setStore, Function.update_self]
      rw [StoreMetaIndex.find_put, if_pos rfl]
    | indexBatchContains keys =>
      obtain ⟨rec,hrec,rfl⟩ := List.mem_map.mp hm
      have hserves : x.Serves ⟨fun j => i == j,rec.key,rec.offset⟩ := by
        apply hbefore.serves
        intro j hj
        obtain rfl : i = j := beq_iff_eq.mp hj
        cases hs
        obtain ⟨held,hheld⟩ := hbefore
        obtain ⟨old,hold,htime⟩ := Option.map_eq_some_iff.mp ((hheld i).intact.tidy.sound.mem_batchContains hrec)
        have hoffset := congrArg StoreKeyRecord.offset htime
        exact ⟨old,hold,hoffset⟩
      exact hserves.step (by simp [Mention.outdatedBy, LastPut.outdates]) hs
    | _ => cases hm
  | cacheLookup client keys =>
    intro m hm
    obtain ⟨desc,hdesc,rfl⟩ := List.mem_map.mp hm
    have hserves : x.Serves (D.mention client desc) := by
      cases hs
      exact (h.hits client c.now keys desc hdesc).serves
    exact hserves.step rfl hs
  | metaBatchExist client keys => exact hmeta rfl
  | metaBatchLookup client keys => exact hmeta rfl
  | _ =>
    intro m hm
    cases hm

/-- A read through what the thread was told gets the value that was last stored. -/
theorem right_of_step (h : D.Informed tr x) (hlasting : D.Lasting tr x) (hrecalls : x.Recalls)
    (hawaited : D.awaited (tr ++ [⟨t,x,call,r,x'⟩]) = true) (hneed : D.need call (callsOf t tr))
    (hs : (clientMachine D).step call c x = some (r,x')) :
    ∀ read, call.completed r = some read → read.Right x := by
  intro read hread
  have hstands : isClients call = true → ∀ {i offset : ℕ} {reader : Key},
      D.Traced (callsOf t tr) i reader offset → LastPut.Stands (x.lastPut i) reader offset := by
    rintro hclient i _ _ ⟨client,desc,htold,rfl,rfl,hleads⟩
    have hserves := serves_of_told h hlasting hawaited hclient htold.mention
    exact hserves i (means_of_leads h hlasting hleads)
  cases call with
  | forClient i op =>
    obtain ⟨y,hy,he⟩ := Option.map_eq_some_iff.mp hs
    obtain ⟨rfl,-⟩ := Prod.mk.inj he
    refine hrecalls.right ?_ hy hread
    cases op with
    | pread offset size reader =>
      obtain ⟨-,heq⟩ := Option.ite_none_right_eq_some.mp hread
      cases heq
      exact hstands rfl hneed
    | uringRead offset size reader =>
      obtain ⟨-,heq⟩ := Option.ite_none_right_eq_some.mp hread
      cases heq
      exact hstands rfl hneed
    | _ => cases hread
  | _ => cases hread

theorem Informed.snoc (h : D.Informed tr x) (hlasting : D.Lasting tr x) (hspares : D.Spares x call)
    (hawaited : D.awaited (tr ++ [⟨t,x,call,r,x'⟩]) = true)
    (htruthful : D.Truthful (tr ++ [⟨t,x,call,r,x'⟩]))
    (hrecalls : ∀ e ∈ tr ++ [⟨t,x,call,r,x'⟩], e.before.Recalls ∧ e.after.Recalls)
    (hneed : D.need call (callsOf t tr)) (hs : (clientMachine D).step call c x = some (r,x')) :
    D.Informed (tr ++ [⟨t,x,call,r,x'⟩]) x' := by
  have hlast := List.mem_append_right tr (List.mem_singleton_self (⟨t,x,call,r,x'⟩ : ClientEvent))
  constructor
  · intro e he
    rcases List.mem_append.mp he with he | he
    · exact h.slots e he
    · obtain rfl := List.mem_singleton.mp he
      exact slots_of_step h.furnished (hlasting.snoc hs) hrecalls htruthful hs
  · intro e he
    rcases List.mem_append.mp he with he | he
    · exact h.files e he
    · obtain rfl := List.mem_singleton.mp he
      exact files_of_step h.furnished htruthful hs
  · intro e he
    rcases List.mem_append.mp he with he | he
    · exact h.addrs e he
    · obtain rfl := List.mem_singleton.mp he
      exact addrs_of_step h.furnished htruthful hs
  · apply h.furnished.step hspares hs
    · rintro client desc rfl
      exact ⟨serves_of_told h hlasting hawaited rfl hneed.mention,fun hne => addrOf_of_told h (hneed.addr hne)⟩
    · rintro client storeId path rfl
      exact fileOf_of_told h hneed
    · rintro client storeId addr rfl
      exact addrOf_of_told h hneed
  · intro e he
    rcases List.mem_append.mp he with he | he
    · exact h.reads e he
    · obtain rfl := List.mem_singleton.mp he
      exact right_of_step h hlasting (hrecalls _ hlast).1 hawaited hneed hs

theorem furnished_init (D : Deployment) : D.Furnished (.init D) where
  descs := by
    intro client desc hdesc
    cases hdesc
  files := by
    intro client storeId path hpath
    cases hpath
  addrs := by
    intro client storeId addr haddr
    cases haddr

/-- What a run has told stays good as long as no call outdates what is named, no operation goes on
with what was outdated, and Meta is truthful. -/
theorem informed_of_run {P : ClientPool} (hrun : ClientRun D D.Spares tr P) : D.Lasting tr P.state ∧
    ((∀ e ∈ tr, e.before.Recalls ∧ e.after.Recalls) → D.awaited tr = true → D.Truthful tr →
      D.Informed tr P.state) := by
  have hstart : ∀ p : ClientProg ClientReply, (∃ op : ClientOp, p = op.run D) →
      D.heeding.Kept (fun _ _ => True) p [] := by
    rintro p ⟨op,rfl⟩
    exact Mentions.kept_run op
  apply Ledger.run_invariant_demanding hstart (fun tr x => D.Lasting tr x ∧
    ((∀ e ∈ tr, e.before.Recalls ∧ e.after.Recalls) → D.awaited tr = true → D.Truthful tr →
      D.Informed tr x)) ?_ ?_ hrun
  · have hnone : ∀ {Q : ClientEvent → Prop}, ∀ e ∈ ([] : List ClientEvent), Q e := by
      intro Q e he
      cases he
    refine ⟨⟨hnone,?_⟩,fun _ _ _ => ⟨hnone,hnone,hnone,furnished_init D,hnone⟩⟩
    intro tr₁ e tr₂ htr
    cases tr₁ <;> cases htr
  · rintro tr t x call c r x' ⟨hlasting,hinformed⟩ hneed hspares hs
    refine ⟨hlasting.snoc hs,?_⟩
    intro hrecalls hawaited htruthful
    have hcalls : ((callsOf t tr).flatMap fun a => [(⟨a.op,a.res⟩ : Answered clientCalls)]) = callsOf t tr :=
      List.flatMap_singleton' _
    rw [hcalls] at hneed
    have hbefore := hinformed (fun e he => hrecalls e (List.mem_append_left _ he)) (awaited_left hawaited) htruthful.left
    exact hbefore.snoc hlasting hspares hawaited htruthful hrecalls hneed hs

end Deployment

/-- As long as no slot is written again, and no key put into another slot, while a cache or an operation
that still goes on names it, and Meta names listed slots, what `BatchGetSync` delivers for a key is the
beginning of the value that was last stored under it. -/
theorem noWrongKey_of_spares {tr : List ClientEvent} {P : ClientPool}
    (hcap : ∀ i, (D.cfg i).capacityBytes < 2^63)
    (hrun : ClientRun D (fun x op => x.orderly op = true ∧ D.Spares x op) tr P)
    (hawaited : D.awaited tr = true) (htruthful : D.Truthful tr) : NoWrongKey tr P := by
  have hstart : ∀ p : ClientProg ClientReply, (∃ op : ClientOp, p = op.run D) →
      Uses sitesCustody (fun _ g => g = 0) p 0 := by
    rintro p ⟨op,rfl⟩
    exact ClientOps.idles_run op
  have hnone : ∀ e ∈ ([] : List ClientEvent), e.before.Recalls ∧ e.after.Recalls := by
    intro e he
    cases he
  obtain ⟨gs,-,hrecalls,-⟩ := (hrun.ok_mono fun _ _ h => h.1).shares keeps_recalls hstart
    ⟨[],.nil,hnone,ReadWorld.remembers_init hcap⟩
  obtain ⟨-,hinformed⟩ := Deployment.informed_of_run (hrun.ok_mono fun _ _ h => h.2)
  intro t keys buffers results hreply j key buffer fetched hkey hbuffer hfetched hpos
  obtain ⟨e,he,hthread,read,hdone,hreader,hsize,hbytes⟩ :=
    SlotReads.exists_read_of_run hrun hreply hkey hbuffer hfetched hpos
  exact ⟨e,he,hthread,read,hdone,hreader,hsize,hbytes,
    (hinformed hrecalls hawaited htruthful).reads e he read hdone⟩

namespace ClientOps

theorem clientRun_of_schedule (D : Deployment) (check : ReadWorld → ClientCall → Bool)
    (ops : List ClientOp) (sched : List (ℕ × ClientChoice)) {γ : Type}
    {f : List ClientEvent × ClientPool → γ} {v : γ}
    (h : (Pool.follow (M := clientMachine D) check sched
      ⟨.init D,ops.map (ClientOp.run D)⟩).map f = some v) :
    ∃ tr P, ClientRun D (fun x op => check x op = true) tr P ∧ f (tr,P) = v := by
  apply run_of_schedule (fun p => ∃ op : ClientOp, p = op.run D) ?_ h
  intro p hp
  obtain ⟨op,-,rfl⟩ := List.mem_map.mp hp
  exact ⟨op,rfl⟩

/-- Each client has a store of its own; the first store serves others. -/
def twoStores : Deployment where
  cfg := fun i => ⟨i + 1,8,8,0,false,false⟩
  nodeId := fun client => client + 1
  cacheCapacity := fun _ => 4
  localStore := fun client => some client
  nodeUring := fun _ => false
  dataFile := fun _ => none
  serving := fun addr => if addr = "first" then some 0 else none
  groups := List.eraseDups

def atFirst : KeyRecord := ⟨"a",1,0,8,1,0,0,"",1,"","first"⟩

def inTurn (threads : List ℕ) : List (ℕ × ClientChoice) :=
  threads.map fun i => (i,{ records := [atFirst] })

/-- The keys, the sizes of the buffers and the counts of a `BatchGetSync`. -/
def counts : ClientReply → Option (List Key × List ℕ × List ℤ)
  | .batchGetSync keys buffers results =>
    some (keys,buffers.map BufferInfo.size,results.map Fetched.count)
  | _ => none

def readings (tr : List ClientEvent) : List (Key × ℕ × List UInt8 × Option (List UInt8)) :=
  tr.filterMap fun e => (e.op.completed e.res).map fun read =>
    (read.reader,read.size,bytesOf read.bytes read.size,
      (e.before.lastPut read.site read.reader).map LastPut.value)

def smallCaches : Deployment :=
  { twoStores with cfg := fun i => ⟨i + 1,16,8,0,false,false⟩, cacheCapacity := fun _ => 1 }

def sparing (x : ReadWorld) (call : ClientCall) : Bool :=
  let spares := fun client => (x.client client).keyDescCache.descs.all fun desc =>
    !(smallCaches.mention client desc).outdatedBy call
  let ofTwo := match call with
    | .cacheLookup client _ | .cacheInsert client _ | .registerStoreFile client .. | .setStoreAddr client .. =>
      decide (client < 2)
    | _ => true
  x.orderly call && ofTwo && spares 0 && spares 1

def namesThird (e : ClientEvent) : Bool :=
  !Deployment.asksMeta e.op || (decide (Deployment.found e.op e.res = [{ atFirst with key := "c" }]) &&
    ((e.before.store 0).index.find "c").map StoreKeyRecord.offset == some 0)

theorem untouched_of_sparing {tr : List ClientEvent} {P : ClientPool}
    (hrun : ClientRun smallCaches (fun x op => sparing x op = true) tr P) :
    ∀ client, 2 ≤ client → P.state.client client = smallCaches.client client := by
  apply Run.invariant (fun _ x => ∀ client, 2 ≤ client → x.client client = smallCaches.client client)
    (fun _ _ => rfl) ?_ hrun
  intro tr t x call c r x' h hok hs client hclient
  have hset : ∀ {other : ℕ} {value : FalconKVClientImpl}, decide (other < 2) = true →
      (x.setClient other value).client client = smallCaches.client client := by
    intro other value hlt
    have hother := of_decide_eq_true hlt
    have hne : client ≠ other := by omega
    exact (Function.update_of_ne hne _ _).trans (h client hclient)
  have htwo := (Bool.and_eq_true_iff.mp (Bool.and_eq_true_iff.mp (Bool.and_eq_true_iff.mp hok).1).1).2
  cases call with
  | atStore i op =>
    obtain ⟨y,-,he⟩ := Option.map_eq_some_iff.mp hs
    obtain ⟨-,rfl⟩ := Prod.mk.inj he
    exact h client hclient
  | forClient i op =>
    obtain ⟨y,-,he⟩ := Option.map_eq_some_iff.mp hs
    obtain ⟨-,rfl⟩ := Prod.mk.inj he
    exact h client hclient
  | cacheLookup other keys =>
    cases hs
    exact hset htwo
  | cacheInsert other desc =>
    cases hs
    exact hset htwo
  | registerStoreFile other storeId path =>
    cases hs
    exact hset htwo
  | setStoreAddr other storeId addr =>
    cases hs
    exact hset htwo
  | _ =>
    cases hs
    exact h client hclient

theorem spares_of_sparing {tr : List ClientEvent} {P : ClientPool}
    (hrun : ClientRun smallCaches (fun x op => sparing x op = true) tr P) :
    ClientRun smallCaches (fun x op => x.orderly op = true ∧ smallCaches.Spares x op) tr P := by
  apply hrun.ok_of_events
  intro e he
  obtain ⟨tr₁,tr₂,htr⟩ := List.append_of_mem he
  obtain ⟨Q,hbefore,hstate,hok,-⟩ := hrun.at_event htr
  have huntouched := untouched_of_sparing hbefore
  rw [hstate] at huntouched
  obtain ⟨hrest,hsecond⟩ := Bool.and_eq_true_iff.mp hok
  obtain ⟨hrest,hfirst⟩ := Bool.and_eq_true_iff.mp hrest
  refine ⟨(Bool.and_eq_true_iff.mp hrest).1,?_⟩
  intro client desc hdesc
  match client with
  | 0 => simpa using List.all_eq_true.mp hfirst desc hdesc
  | 1 => simpa using List.all_eq_true.mp hsecond desc hdesc
  | client + 2 =>
    rw [huntouched (client + 2) (by omega)] at hdesc
    cases hdesc

theorem truthful_of_names {tr : List ClientEvent} (h : tr.all namesThird = true) : smallCaches.Truthful tr := by
  have hnames : ∀ e ∈ tr, Deployment.asksMeta e.op = true →
      Deployment.found e.op e.res = [{ atFirst with key := "c" }] ∧
        ((e.before.store 0).index.find "c").map StoreKeyRecord.offset = some 0 := by
    intro e he hasks
    have hone := List.all_eq_true.mp h e he
    rw [namesThird, hasks, Bool.not_true, Bool.false_or] at hone
    obtain ⟨hfound,hoffset⟩ := Bool.and_eq_true_iff.mp hone
    exact ⟨of_decide_eq_true hfound,beq_iff_eq.mp hoffset⟩
  constructor
  · rintro tr₁ ⟨t,x,call,r,x'⟩ tr₂ htr hasks m hm
    have he : (⟨t,x,call,r,x'⟩ : ClientEvent) ∈ tr := by
      rw [htr]
      exact List.mem_append_right _ List.mem_cons_self
    obtain ⟨hfound,hoffset⟩ := hnames _ he hasks
    obtain ⟨rec,hrec,hzero⟩ := Option.map_eq_some_iff.mp hoffset
    have hmention : ∃ client, m = smallCaches.remoteMention client { atFirst with key := "c" } := by
      cases call with
      | metaBatchExist client keys =>
        dsimp only [Deployment.tells] at hm
        rw [hfound] at hm
        exact ⟨client,List.mem_singleton.mp hm⟩
      | metaBatchLookup client keys =>
        dsimp only [Deployment.tells] at hm
        rw [hfound] at hm
        exact ⟨client,List.mem_singleton.mp hm⟩
      | _ => cases hasks
    obtain ⟨client,rfl⟩ := hmention
    refine ⟨tr₁,_,[],rfl,?_,?_⟩
    · intro i hi
      have hremote : ((smallCaches.client client).remoteDesc { atFirst with key := "c" }).accessType ≠ .localDirect := by
        simp only [FalconKVClientImpl.remoteDesc, FalconKVClientImpl.accessTypeOf]
        split <;> decide
      have hid : i + 1 = 1 := by
        dsimp only [Deployment.remoteMention, Deployment.mention, Deployment.means] at hi
        rw [if_neg hremote] at hi
        exact beq_iff_eq.mp hi
      obtain rfl : i = 0 := by omega
      exact ⟨rec,hrec,hzero⟩
    · intro e' he'
      obtain rfl := List.mem_singleton.mp he'
      cases call <;> first | rfl | cases hasks
  · rintro e he hasks y hy i hi
    cases hi
  · rintro ⟨t,x,call,r,x'⟩ he hasks y hy i hi
    obtain ⟨hfound,-⟩ := hnames _ he hasks
    have haddr : y = (1,"first") := by
      cases call with
      | metaBatchExist client keys =>
        dsimp only [Deployment.tellsAddrs] at hy
        rw [hfound] at hy
        exact List.mem_singleton.mp hy
      | metaBatchLookup client keys =>
        dsimp only [Deployment.tellsAddrs] at hy
        rw [hfound] at hy
        exact List.mem_singleton.mp hy
      | _ => cases hasks
    subst haddr
    cases hi
    rfl

end ClientOps

open ClientOps Release

/-- A slot is used again after the cache has forgotten its key; then a client reads what it has put
there, and another one gets it over RPC. -/
theorem noWrongKey_of_spares_reused : ∃ tr P,
    ClientRun smallCaches (fun x op => x.orderly op = true ∧ smallCaches.Spares x op) tr P ∧
    smallCaches.awaited tr = true ∧ smallCaches.Truthful tr ∧ NoWrongKey tr P ∧
    readings tr = [("c",8,List.replicate 8 3,some (List.replicate 8 3)),
      ("c",8,List.replicate 8 3,some (List.replicate 8 3))] := by
  obtain ⟨tr,P,hrun,hread⟩ := clientRun_of_schedule smallCaches sparing
    [.batchPut 0 ["a"] [⟨value 1,8⟩],.batchPut 0 ["b"] [⟨value 2,8⟩],.batchPut 0 ["c"] [⟨value 3,8⟩],
      .batchGetSync 0 ["c"] [⟨value 0,8⟩],.batchGetSync 1 ["c"] [⟨value 0,8⟩]]
    ((List.replicate 6 0 ++ List.replicate 6 1 ++ List.replicate 17 2 ++ [3,3] ++ List.replicate 6 4).map
      fun i => (i,{ records := [{ atFirst with key := "c" }] }))
    (f := fun y => (readings y.1,smallCaches.awaited y.1,y.1.all namesThird))
    (v := ([("c",8,List.replicate 8 3,some (List.replicate 8 3)),
      ("c",8,List.replicate 8 3,some (List.replicate 8 3))],true,true)) rfl
  obtain ⟨hreadings,hchecks⟩ := Prod.mk.inj hread
  obtain ⟨hawaited,hnames⟩ := Prod.mk.inj hchecks
  have htruthful := truthful_of_names hnames
  have hspares := spares_of_sparing hrun
  have hcap : 16 < 2^63 := by decide
  exact ⟨tr,P,hspares,hawaited,htruthful,noWrongKey_of_spares (fun _ => hcap) hspares hawaited htruthful,hreadings⟩

/-- A put that finds no free slot evicts the key that was put before and takes its slot. The client
that has put both still has the descriptor of the first, and reads the bytes of the second. -/
theorem exists_run_not_noWrongKey : ∃ tr P,
    ClientRun twoStores (fun x op => x.orderly op = true) tr P ∧ ¬ NoWrongKey tr P := by
  obtain ⟨tr,P,hrun,hread⟩ := clientRun_of_schedule twoStores ReadWorld.orderly
    [.batchPut 0 ["a"] [⟨value 1,8⟩],.batchPut 0 ["b"] [⟨value 2,8⟩],
      .batchGetSync 0 ["a"] [⟨value 0,8⟩]]
    (inTurn (List.replicate 6 0 ++ List.replicate 17 1 ++ [2,2]))
    (f := fun y => (y.2.replies[2]?.join.bind counts,readings y.1))
    (v := (some (["a"],[8],[8]),[("a",8,List.replicate 8 2,some (List.replicate 8 1))])) rfl
  refine ⟨tr,P,hrun,fun hsafe => ?_⟩
  obtain ⟨hcounts,hreadings⟩ := Prod.mk.inj hread
  obtain ⟨reply,hreply,hsome⟩ := Option.bind_eq_some_iff.mp hcounts
  cases reply with
  | batchGetSync keys buffers results =>
    simp only [counts, Option.some.injEq, Prod.mk.injEq] at hsome
    obtain ⟨rfl,hbuffers,hresults⟩ := hsome
    obtain ⟨buffer,rfl,hbuffer⟩ := List.map_eq_singleton_iff.mp hbuffers
    obtain ⟨fetched,rfl,hcount⟩ := List.map_eq_singleton_iff.mp hresults
    have hpos : 0 < fetched.count := by
      rw [hcount]
      decide
    obtain ⟨e,he,-,read,hdone,-,-,-,put,hput,hright⟩ := hsafe 2 ["a"] [buffer] [fetched]
      (Option.join_eq_some_iff.mp hreply) 0 "a" buffer fetched rfl rfl rfl hpos
    have hmem : (read.reader,read.size,bytesOf read.bytes read.size,
        (e.before.lastPut read.site read.reader).map LastPut.value) ∈ readings tr :=
      List.mem_filterMap.mpr ⟨e,he,by rw [hdone]; rfl⟩
    rw [hreadings, List.mem_singleton, hput] at hmem
    simp only [Prod.mk.injEq, Option.map_some, Option.some.injEq] at hmem
    obtain ⟨-,hsize,hbytes,hvalue⟩ := hmem
    rw [hbytes, hvalue, hsize] at hright
    exact absurd (hright (by decide)) (by decide)
  | _ => cases hsome

end FalconKV
