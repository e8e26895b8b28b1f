import FalconKV.Client.DoRead
import FalconKV.Client.Positions
import FalconKV.Client.ReadRuns

/-! # A batch and its slots

`BatchGet` reads the slots of the client's own store in one call and those of each remote store in
one call, at the address of the first of them. The slots of such a group are read together or not at
all; each slot of another store of the node is read as `DoRead` reads it.
-/
namespace FalconKV
open AtomicCalls

def Fetch.pair (f : Fetch) : KeyDescriptor × BufferInfo := (f.desc,f.buffer)

namespace ClientOps
open Conditions

def isRemoteOf (storeId : ℕ) (item : KeyDescriptor × BufferInfo) : Bool :=
  item.1.accessType == .remoteRpc && item.1.storeId == storeId

/-- The items of a batch that are read in one call with an item. -/
def together (items : List (KeyDescriptor × BufferInfo)) (item : KeyDescriptor × BufferInfo) :
    List (KeyDescriptor × BufferInfo) :=
  match item.1.accessType with
  | .localDirect => items.filter fun other => other.1.accessType == .localDirect
  | .nodeDirect => [item]
  | .remoteRpc => items.filter (isRemoteOf item.1.storeId)

def batchAddr (x : ReadWorld) (client : ℕ) (items : List (KeyDescriptor × BufferInfo)) (storeId : ℕ) : String :=
  ((items.find? (isRemoteOf storeId)).map fun first => addrOf x client first.1).getD ""

def routed (x : ReadWorld) (client : ℕ) (items : List (KeyDescriptor × BufferInfo)) (desc : KeyDescriptor) :
    KeyDescriptor :=
  if desc.accessType = .remoteRpc ∧ addrOf x client desc ≠ batchAddr x client items desc.storeId then
    { desc with storeAddr := batchAddr x client items desc.storeId }
  else desc

def allReadable (D : Deployment) (w : Conditions) (x : ReadWorld) (client : ℕ)
    (items : List (KeyDescriptor × BufferInfo)) (item : KeyDescriptor × BufferInfo) : Bool :=
  (together items item).all fun other => w.readable D x client (routed x client items other.1) other.2.size

def Holds (D : Deployment) (w : Conditions) (x : ReadWorld) (client : ℕ)
    (items : List (KeyDescriptor × BufferInfo)) (f : Fetch) (buffer : Option Bytes) : Prop :=
  ∃ b, buffer = some b ∧
    w.bytesAt D x client (routed x client items f.desc) f.buffer.size = some (bytesOf b f.buffer.size)

structure Delivered (D : Deployment) (w : Conditions) (x : ReadWorld) (client : ℕ)
    (items : List (KeyDescriptor × BufferInfo)) (f : Fetch) (y : ℕ × Fetched) : Prop where
  index : y.1 = f.index
  count : 0 < y.2.count ↔ allReadable D w x client items f.pair = true
  bytes : 0 < y.2.count → Holds D w x client items f y.2.buffer

structure Phase (D : Deployment) (w : Conditions) (x : ReadWorld) (client : ℕ)
    (items : List (KeyDescriptor × BufferInfo)) (fetches : List Fetch) (xs : List (ℕ × Fetched)) : Prop where
  delivered : ∀ y ∈ xs, ∃ f ∈ fetches, Delivered D w x client items f y
  covers : ∀ f ∈ fetches, allReadable D w x client items f.pair = true → f.index ∈ xs.map Prod.fst

variable {D : Deployment} {w : Conditions} {x y : ReadWorld} {client i : ℕ}
  {items : List (KeyDescriptor × BufferInfo)} {f : Fetch} {fetches : List Fetch} {type : AccessType}

theorem map_pair_fetchesOf (items : List (KeyDescriptor × BufferInfo)) (type : AccessType) :
    (fetchesOf items type).map Fetch.pair = items.filter fun item => item.1.accessType == type := by
  rw [fetchesOf, List.filter_map, List.map_map]
  conv_rhs => rw [← List.zipIdx_map_fst 0 items, List.filter_map]
  rfl

theorem mem_fetchesOf :
    f ∈ fetchesOf items type ↔ items[f.index]? = some f.pair ∧ f.desc.accessType = type := by
  simp only [fetchesOf, List.mem_filter, List.mem_map, beq_iff_eq]
  constructor
  · rintro ⟨⟨⟨item,k⟩,hmem,rfl⟩,htype⟩
    exact ⟨List.mk_mem_zipIdx_iff_getElem?.mp hmem,htype⟩
  · rintro ⟨hget,htype⟩
    exact ⟨⟨(f.pair,f.index),List.mk_mem_zipIdx_iff_getElem?.mpr hget,rfl⟩,htype⟩

theorem routed_of_type {desc : KeyDescriptor} (htype : desc.accessType = type) (h : type ≠ .remoteRpc) :
    routed x client items desc = desc := if_neg fun hboth => h (htype.symm.trans hboth.1)

theorem accessType_routed (desc : KeyDescriptor) :
    (routed x client items desc).accessType = desc.accessType := by
  unfold routed
  split <;> rfl

theorem offset_routed (desc : KeyDescriptor) : (routed x client items desc).offset = desc.offset := by
  unfold routed
  split <;> rfl

theorem mem_together (hf : f ∈ fetchesOf items type) : f.pair ∈ together items f.pair := by
  have hmem := List.mem_of_getElem? (mem_fetchesOf.mp hf).1
  unfold together
  split
  · next htype => exact List.mem_filter.mpr ⟨hmem,beq_iff_eq.mpr htype⟩
  · exact List.mem_singleton_self _
  · next htype =>
    refine List.mem_filter.mpr ⟨hmem,?_⟩
    simp [isRemoteOf, htype]

theorem readable_of_allReadable (hf : f ∈ fetchesOf items type)
    (h : allReadable D w x client items f.pair = true) :
    w.readable D x client (routed x client items f.desc) f.buffer.size = true :=
  List.all_eq_true.mp h f.pair (mem_together hf)

theorem phase_failed (h : ∀ f ∈ fetches, allReadable D w x client items f.pair = false) :
    Phase D w x client items fetches (fetches.map Fetch.failed) := by
  constructor
  · intro y hy
    obtain ⟨f,hf,rfl⟩ := List.mem_map.mp hy
    have hneg : ¬ (0 : ℤ) < -1 := by decide
    refine ⟨f,hf,rfl,?_,fun hpos => absurd hpos hneg⟩
    rw [h f hf]
    exact iff_of_false hneg Bool.false_ne_true
  · intro f hf hreadable
    rw [h f hf] at hreadable
    cases hreadable

theorem holds_of_fills {buffer : Option Bytes}
    (hsite : w.siteOf D x client (routed x client items f.desc) = some i)
    (h : Fills (x.store i).file f.item buffer) : Holds D w x client items f buffer := by
  obtain ⟨b,hb,hbytes⟩ := h
  refine ⟨b,hb,?_⟩
  rw [bytesAt, hsite, Option.map_some, offset_routed]
  exact congrArg some hbytes.symm

theorem delivered_done {ok : Bool} {buffer : Option Bytes} (hsize : 0 < f.buffer.size)
    (hlarge : f.buffer.size < 2^31) (hok : ok = allReadable D w x client items f.pair)
    (hholds : ok = true → Holds D w x client items f buffer) :
    Delivered D w x client items f (f.done ok buffer) := by
  have hcount : 0 < (f.done ok buffer).2.count ↔ ok = true := by
    cases ok with
    | false => simp [Fetch.done]
    | true =>
      simp only [Fetch.done, if_true, iff_true, int32_of_lt hlarge]
      omega
  exact ⟨rfl,hok ▸ hcount,fun hpos => hholds (hcount.mp hpos)⟩

/-- A call that reads its slots all or none. -/
theorem phase_batch {ok : Bool} {buffers : List (Option Bytes)}
    (hsizes : ∀ f ∈ fetches, 0 < f.buffer.size ∧ f.buffer.size < 2^31)
    (hok : ∀ f ∈ fetches, ok = allReadable D w x client items f.pair)
    (hlength : buffers.length = fetches.length)
    (hholds : ok = true → List.Forall₂ (Holds D w x client items) fetches buffers) :
    Phase D w x client items fetches ((fetches.zip buffers).map fun y => y.1.done ok y.2) := by
  constructor
  · intro y hy
    obtain ⟨⟨f,buffer⟩,hzip,rfl⟩ := List.mem_map.mp hy
    have hf := (List.of_mem_zip hzip).1
    exact ⟨f,hf,delivered_done (hsizes f hf).1 (hsizes f hf).2 (hok f hf) fun htrue =>
      List.forall₂_zip (hholds htrue) hzip⟩
  · intro f hf _
    have hindices : ((fetches.zip buffers).map fun y => y.1.done ok y.2).map Prod.fst =
        fetches.map Fetch.index := by
      conv_rhs => rw [← List.map_fst_zip hlength.ge]
      rw [List.map_map, List.map_map]
      rfl
    rw [hindices]
    exact List.mem_map_of_mem hf

theorem allReadable_local (hf : f ∈ fetchesOf items .localDirect) (hlocal : D.localStore client = some i) :
    allReadable D w x client items f.pair =
      (fetchesOf items .localDirect).all fun g => w.reads i g.desc.offset g.buffer.size := by
  have htogether : together items f.pair = (fetchesOf items .localDirect).map Fetch.pair := by
    rw [map_pair_fetchesOf, together]
    have htype : f.pair.1.accessType = .localDirect := (mem_fetchesOf.mp hf).2
    rw [htype]
  rw [allReadable, htogether, List.all_map, Bool.eq_iff_iff, List.all_eq_true, List.all_eq_true]
  apply forall₂_congr
  intro g hg
  have htype := (mem_fetchesOf.mp hg).2
  have hsite : w.siteOf D x client g.desc = some i := (siteOf_local htype).trans hlocal
  simp only [Function.comp_apply, Fetch.pair, routed_of_type htype (by decide), readable, hsite,
    Option.any_some]

theorem wp_localReads (hsame : x.Same y) (hbuffers : ∀ f ∈ fetchesOf items .localDirect,
      f.buffer.dataPtr.isSome = true ∧ 0 < f.buffer.size ∧ f.buffer.size < 2^31) :
    wp (steadyMachine D w) (fun _ _ => True)
      (fun xs z => x.Same z ∧ Phase D w x client items (fetchesOf items .localDirect) xs)
      (localReads D client (fetchesOf items .localDirect)) y := by
  have hsite : ∀ f ∈ fetchesOf items .localDirect,
      w.siteOf D x client (routed x client items f.desc) = D.localStore client := by
    intro f hf
    have htype := (mem_fetchesOf.mp hf).2
    rw [routed_of_type htype (by decide), siteOf_local htype]
  unfold localReads
  cases hlocal : D.localStore client with
  | none =>
    refine ⟨hsame,by simp,fun f hf hreadable => ?_⟩
    have hone := readable_of_allReadable hf hreadable
    rw [readable, hsite f hf, hlocal] at hone
    cases hone
  | some i =>
    have hitems : ∀ item ∈ (fetchesOf items .localDirect).map Fetch.item,
        item.buffer.isSome = true ∧ 0 < item.size := by
      intro item hitem
      obtain ⟨f,hf,rfl⟩ := List.mem_map.mp hitem
      exact ⟨(hbuffers f hf).1,(hbuffers f hf).2.1⟩
    apply wp_bind.mpr
    apply wp_mono (wp_forClient_same hsame (wp_mono (StoreOps.wp_batchRead_steady hitems)
      fun r s h => ⟨h.1.1,And.intro h.1.2 h.2⟩))
    rintro ⟨status,buffers⟩ z ⟨hsame,hfills,hok,hlength⟩
    rw [List.all_map] at hok
    rw [List.length_map] at hlength
    refine ⟨hsame,phase_batch (fun f hf => (hbuffers f hf).2) ?_ hlength ?_⟩
    · intro f hf
      rw [allReadable_local hf hlocal]
      exact hok
    · intro htrue
      have hall := (List.forall₂_map_left_iff (f := Fetch.item)).mp (hfills htrue)
      have hboth := (List.forall₂_and_left _ _).mpr ⟨hsite,hall⟩
      exact hboth.imp fun f buffer h => holds_of_fills (h.1.trans hlocal) h.2

theorem allReadable_node (hf : f ∈ fetchesOf items .nodeDirect) :
    allReadable D w x client items f.pair =
      (w.fileOf D x client f.desc).any fun i => w.reads i f.desc.offset f.buffer.size := by
  have htype : f.desc.accessType = .nodeDirect := (mem_fetchesOf.mp hf).2
  have htogether : together items f.pair = [f.pair] := by
    rw [together]
    have hpair : f.pair.1.accessType = .nodeDirect := htype
    rw [hpair]
  rw [allReadable, htogether, List.all_cons, List.all_nil, Bool.and_true, Fetch.pair,
    routed_of_type htype (by decide), readable, siteOf_node htype]

theorem wp_readFile (hsame : x.Same y) (f : Fetch) :
    wp (steadyMachine D w) (fun _ _ => True)
      (fun r z => x.Same z ∧ r.1.isOk = w.reads i f.desc.offset f.buffer.size ∧
        (r.1.isOk = true → Fills (x.store i).file f.item r.2))
      (readFile D client i f) y := by
  unfold readFile
  split
  · apply wp_uringRead_steady hsame
    rintro ⟨s,bytes⟩ z hsame hok hfills
    exact ⟨hsame,hok,hfills⟩
  · apply wp_pread_steady hsame
    rintro ⟨r,bytes⟩ z hsame hshort hfills
    dsimp only at hshort ⊢
    split
    · next hneg =>
      have hfalse := hshort.mp (by omega)
      exact ⟨hsame,hfalse.symm,fun h => by cases h⟩
    split
    · next hless => exact ⟨hsame,(hshort.mp hless).symm,fun h => by cases h⟩
    · next hge =>
      have hreads : w.reads i f.desc.offset f.buffer.size = true := by
        rw [← Bool.not_eq_false]
        exact mt hshort.mpr hge
      exact ⟨hsame,hreads.symm,fun _ => hfills hreads⟩

theorem wp_readOpened (hsame : x.Same y) (hf : f ∈ fetchesOf items .nodeDirect)
    (hsize : 0 < f.buffer.size) (hlarge : f.buffer.size < 2^31) :
    wp (steadyMachine D w) (fun _ _ => True) (fun r z => x.Same z ∧ Delivered D w x client items f r)
      (readOpened D client (f,w.fileOf D x client f.desc)) y := by
  have htype : f.desc.accessType = .nodeDirect := (mem_fetchesOf.mp hf).2
  have hall : allReadable D w x client items f.pair =
      (w.fileOf D x client f.desc).any fun i => w.reads i f.desc.offset f.buffer.size := allReadable_node hf
  unfold readOpened
  dsimp only
  cases hfile : w.fileOf D x client f.desc with
  | none =>
    rw [hfile] at hall
    exact ⟨hsame,delivered_done hsize hlarge hall.symm fun h => by cases h⟩
  | some i =>
    rw [hfile] at hall
    have hsite : w.siteOf D x client (routed x client items f.desc) = some i := by
      rw [routed_of_type htype (by decide), siteOf_node htype, hfile]
    apply wp_bind.mpr
    apply wp_mono (wp_readFile hsame f)
    rintro ⟨s,bytes⟩ z ⟨hsame,hok,hfills⟩
    refine ⟨hsame,delivered_done hsize hlarge (hok.trans hall.symm) fun htrue => ?_⟩
    exact holds_of_fills hsite (hfills htrue)

theorem map_eq_of_forall₂ {α β γ : Type} {g : α → γ} {h : β → γ} {as : List α} {bs : List β}
    (hall : List.Forall₂ (fun a b => h b = g a) as bs) : bs.map h = as.map g := by
  induction hall with
  | nil => rfl
  | cons hab _ ih => rw [List.map_cons, List.map_cons, hab, ih]

theorem wp_readNode (hsame : x.Same y) (hbuffers : ∀ f ∈ fetchesOf items .nodeDirect,
      0 < f.buffer.size ∧ f.buffer.size < 2^31) :
    wp (steadyMachine D w) (fun _ _ => True)
      (fun xs z => x.Same z ∧ Phase D w x client items (fetchesOf items .nodeDirect) xs)
      (readNode D client (fetchesOf items .nodeDirect)) y := by
  have hfiles : wp (steadyMachine D w) (fun _ _ => True)
      (fun files z => x.Same z ∧
        List.Forall₂ (fun f file => file = w.fileOf D x client f.desc) (fetchesOf items .nodeDirect) files)
      (Prog.mapEach (storeFile client) (fetchesOf items .nodeDirect)) y :=
    wp_mapEach_forall₂ hsame fun f _ y hsame => wp_storeFile hsame f
  apply wp_bind.mpr
  apply wp_mono hfiles
  rintro files y₁ ⟨hsame,hfiles⟩
  have hopened : wp (steadyMachine D w) (fun _ _ => True)
      (fun xs z => x.Same z ∧ List.Forall₂ (fun r y => Delivered D w x client items r.1 y)
        ((fetchesOf items .nodeDirect).zip files) xs)
      (Prog.mapEach (readOpened D client) ((fetchesOf items .nodeDirect).zip files)) y₁ := by
    apply wp_mapEach_forall₂ hsame
    rintro ⟨f,file⟩ hzip y hsame
    have hf := (List.of_mem_zip hzip).1
    rw [List.forall₂_zip hfiles hzip]
    exact wp_readOpened hsame hf (hbuffers f hf).1 (hbuffers f hf).2
  apply wp_mono hopened
  rintro xs z ⟨hsame,hall⟩
  refine ⟨hsame,?_,?_⟩
  · intro y hy
    obtain ⟨r,hr,hdelivered⟩ := Ledger.exists_of_mem_right hall hy
    exact ⟨r.1,(List.of_mem_zip hr).1,hdelivered⟩
  · intro f hf _
    have hindices : xs.map Prod.fst = (fetchesOf items .nodeDirect).map Fetch.index := by
      rw [map_eq_of_forall₂ (hall.imp fun r y h => h.index)]
      conv_rhs => rw [← List.map_fst_zip hfiles.length_eq.le]
      rw [List.map_map]
      rfl
    rw [hindices]
    exact List.mem_map_of_mem hf

abbrev remoteGroup (items : List (KeyDescriptor × BufferInfo)) (storeId : ℕ) : List Fetch :=
  (fetchesOf items .remoteRpc).filter fun f => f.desc.storeId == storeId

theorem map_pair_remoteGroup (items : List (KeyDescriptor × BufferInfo)) (storeId : ℕ) :
    (remoteGroup items storeId).map Fetch.pair = items.filter (isRemoteOf storeId) := by
  have hfilter : (remoteGroup items storeId).map Fetch.pair =
      ((fetchesOf items .remoteRpc).map Fetch.pair).filter fun item => item.1.storeId == storeId := by
    rw [List.filter_map]
    rfl
  rw [hfilter, map_pair_fetchesOf, List.filter_filter]
  apply List.filter_congr
  intro item _
  rw [isRemoteOf, Bool.and_comm]

variable {storeId : ℕ}

theorem batchAddr_of_first {first : Fetch} {rest : List Fetch} (hgroup : remoteGroup items storeId = first :: rest) :
    batchAddr x client items storeId = addrOf x client first.desc := by
  rw [batchAddr, ← List.head?_filter, ← map_pair_remoteGroup, hgroup]
  rfl

def groupSite (D : Deployment) (w : Conditions) (x : ReadWorld) (client : ℕ)
    (items : List (KeyDescriptor × BufferInfo)) (storeId : ℕ) : Option ℕ :=
  if batchAddr x client items storeId = "" then none else w.serverAt D (batchAddr x client items storeId)

theorem siteOf_routed (hf : f ∈ remoteGroup items storeId) :
    w.siteOf D x client (routed x client items f.desc) = groupSite D w x client items storeId := by
  obtain ⟨hfetch,hid⟩ := List.mem_filter.mp hf
  have htype := (mem_fetchesOf.mp hfetch).2
  obtain rfl : f.desc.storeId = storeId := beq_iff_eq.mp hid
  have haddr : addrOf x client (routed x client items f.desc) = batchAddr x client items f.desc.storeId := by
    unfold routed
    split
    · rw [addrOf]
      dsimp only
      split
      · rfl
      · next hempty =>
        -- the first of the group has no address of its own, and neither has the store
        obtain ⟨first,rest,hgroup⟩ := List.exists_cons_of_ne_nil (List.ne_nil_of_mem hf)
        have hfirst : first.desc.storeId = f.desc.storeId := by
          have hmem : first ∈ remoteGroup items f.desc.storeId := by
            rw [hgroup]
            exact List.mem_cons_self
          exact beq_iff_eq.mp (List.mem_filter.mp hmem).2
        rw [not_not] at hempty
        rw [hempty]
        rw [batchAddr_of_first hgroup, addrOf, hfirst] at hempty
        split at hempty
        · next hne => exact absurd hempty hne
        · exact hempty
    · next hsame => exact not_not.mp fun hne => hsame ⟨htype,hne⟩
  rw [siteOf_remote ((accessType_routed _).trans htype), haddr, groupSite]

theorem allReadable_remote (hf : f ∈ remoteGroup items storeId) :
    allReadable D w x client items f.pair = (groupSite D w x client items storeId).any fun i =>
      (remoteGroup items storeId).all fun g => w.reads i g.desc.offset g.buffer.size := by
  obtain ⟨hfetch,hid⟩ := List.mem_filter.mp hf
  have hid : f.pair.1.storeId = storeId := beq_iff_eq.mp hid
  have htogether : together items f.pair = (remoteGroup items storeId).map Fetch.pair := by
    have htype : f.pair.1.accessType = .remoteRpc := (mem_fetchesOf.mp hfetch).2
    rw [map_pair_remoteGroup, together, htype, hid]
  have hone : ∀ g ∈ remoteGroup items storeId,
      w.readable D x client (routed x client items g.desc) g.buffer.size =
        (groupSite D w x client items storeId).any fun i => w.reads i g.desc.offset g.buffer.size := by
    intro g hg
    rw [readable, siteOf_routed hg, offset_routed]
  rw [allReadable, htogether, List.all_map]
  cases hsite : groupSite D w x client items storeId with
  | none =>
    rw [Option.any_none, ← Bool.not_eq_true, List.all_eq_true]
    intro hall
    have hread := (hone f hf).symm.trans (hall f hf)
    rw [hsite] at hread
    cases hread
  | some i =>
    rw [Option.any_some, Bool.eq_iff_iff, List.all_eq_true, List.all_eq_true]
    apply forall₂_congr
    intro g hg
    rw [Function.comp_apply, Fetch.pair, hone g hg, hsite, Option.any_some]

/-- What `BatchGet` makes of the answer for a whole group. -/
theorem phase_received {status : Status} {buffers : List (Option Bytes)}
    (hsizes : ∀ f ∈ remoteGroup items storeId, 0 < f.buffer.size ∧ f.buffer.size < 2^31)
    (hok : status.isOk = (groupSite D w x client items storeId).any fun i =>
      (remoteGroup items storeId).all fun g => w.reads i g.desc.offset g.buffer.size)
    (hlength : buffers.length = (remoteGroup items storeId).length)
    (hfills : status.isOk = true → ∃ i, groupSite D w x client items storeId = some i ∧
      List.Forall₂ (fun f buffer => Fills (x.store i).file f.item buffer) (remoteGroup items storeId) buffers) :
    Phase D w x client items (remoteGroup items storeId)
      (received (remoteGroup items storeId) (status,buffers)) := by
  have hall : ∀ f ∈ remoteGroup items storeId, status.isOk = allReadable D w x client items f.pair :=
    fun f hf => hok.trans (allReadable_remote hf).symm
  unfold received
  dsimp only
  cases hstatus : status.isOk with
  | false =>
    refine phase_failed fun f hf => ?_
    rw [← hall f hf, hstatus]
  | true =>
    obtain ⟨i,hsite,hfilled⟩ := hfills hstatus
    have hdone : ∀ r ∈ (remoteGroup items storeId).zip buffers, decide (0 < int32 r.1.buffer.size) = true := by
      rintro ⟨f,buffer⟩ hzip
      obtain ⟨hpos,hlarge⟩ := hsizes f (List.of_mem_zip hzip).1
      rw [decide_eq_true_iff, int32_of_lt hlarge]
      exact Int.natCast_pos.mpr hpos
    rw [if_pos rfl, List.map_congr_left fun r hr => congrArg (fun ok => r.1.done ok r.2) (hdone r hr)]
    refine phase_batch hsizes ?_ hlength fun _ => ?_
    · intro f hf
      rw [← hall f hf, hstatus]
    · have hsites : ∀ f ∈ remoteGroup items storeId,
          w.siteOf D x client (routed x client items f.desc) = some i :=
        fun f hf => (siteOf_routed hf).trans hsite
      have hboth := (List.forall₂_and_left _ _).mpr ⟨hsites,hfilled⟩
      exact hboth.imp fun f buffer h => holds_of_fills h.1 h.2

theorem wp_readRemote (hsame : x.Same y) (storeId : ℕ) (hbuffers : ∀ f ∈ fetchesOf items .remoteRpc,
      0 < f.buffer.size ∧ f.buffer.size < 2^31) :
    wp (steadyMachine D w) (fun _ _ => True)
      (fun xs z => x.Same z ∧ Phase D w x client items (remoteGroup items storeId) xs)
      (readRemote D client (fetchesOf items .remoteRpc) storeId) y := by
  have hsizes : ∀ f ∈ remoteGroup items storeId, 0 < f.buffer.size ∧ f.buffer.size < 2^31 :=
    fun f hf => hbuffers f (List.mem_of_mem_filter hf)
  unfold readRemote
  split
  · next hgroup =>
    have hnone : remoteGroup items storeId = [] := hgroup
    rw [hnone]
    exact ⟨hsame,by simp,by simp⟩
  · next first rest hgroup =>
    have hfirst : remoteGroup items storeId = first :: rest := hgroup
    apply wp_bind.mpr
    apply wp_mono (wp_remoteAddr hsame first.desc)
    rintro addr y₁ ⟨hsame,haddr⟩
    obtain rfl : addr = batchAddr x client items storeId := haddr.trans (batchAddr_of_first hfirst).symm
    rw [← hfirst]
    split
    · next hempty =>
      have hnowhere : groupSite D w x client items storeId = none := if_pos hempty
      refine ⟨hsame,phase_failed fun f hf => ?_⟩
      rw [allReadable_remote hf, hnowhere, Option.any_none]
    · next hne =>
      have hsite : groupSite D w x client items storeId = w.serverAt D (batchAddr x client items storeId) :=
        if_neg hne
      rw [readRpc_eq]
      apply wp_bind.mpr
      apply wp_mono (wp_remoteBatchRead hsame _ fun f hf => (hsizes f hf).1)
      rintro ⟨status,buffers⟩ z ⟨hsame,hok,hlength,hfills⟩
      rw [← hsite] at hok hfills
      exact ⟨hsame,phase_received hsizes hok hlength hfills⟩

theorem phase_flatten {groups : List ℕ} {xss : List (List (ℕ × Fetched))}
    (hgroups : ∀ f ∈ fetchesOf items .remoteRpc, f.desc.storeId ∈ groups)
    (h : List.Forall₂ (fun storeId xs => Phase D w x client items (remoteGroup items storeId) xs) groups xss) :
    Phase D w x client items (fetchesOf items .remoteRpc) xss.flatten := by
  constructor
  · intro y hy
    obtain ⟨xs,hxs,hmem⟩ := List.mem_flatten.mp hy
    obtain ⟨storeId,-,hphase⟩ := Ledger.exists_of_mem_right h hxs
    obtain ⟨f,hf,hdelivered⟩ := hphase.delivered y hmem
    exact ⟨f,List.mem_of_mem_filter hf,hdelivered⟩
  · intro f hf hreadable
    obtain ⟨xs,hxs,hphase⟩ := Ledger.exists_of_mem_right h.flip (hgroups f hf)
    have hgroup : f ∈ remoteGroup items f.desc.storeId := List.mem_filter.mpr ⟨hf,beq_self_eq_true _⟩
    obtain ⟨y,hy,hindex⟩ := List.mem_map.mp (hphase.covers f hgroup hreadable)
    exact List.mem_map.mpr ⟨y,List.mem_flatten.mpr ⟨xs,hxs,hy⟩,hindex⟩

/-- An entry at a position is of its fetch, or it is left from before. -/
theorem delivered_or_left {item : KeyDescriptor × BufferInfo} {j : ℕ} {results : List Fetched}
    {xs : List (ℕ × Fetched)} {result : Fetched} (h : Phase D w x client items (fetchesOf items type) xs)
    (hitem : items[j]? = some item) (hresult : (place results xs)[j]? = some result) :
    Delivered D w x client items ⟨item.1,item.2,j⟩ (j,result) ∨ (results[j]? = some result ∧
      (item.1.accessType = type → allReadable D w x client items item = false)) := by
  rcases SlotReads.getElem?_place_or hresult with hnew | ⟨hnot,hold⟩
  · left
    obtain ⟨f,hf,hdelivered⟩ := h.delivered (j,result) hnew
    have hindex : j = f.index := hdelivered.index
    have hpair : items[f.index]? = some f.pair := (mem_fetchesOf.mp hf).1
    rw [← hindex, hitem] at hpair
    obtain rfl : item = f.pair := Option.some.inj hpair
    rw [hindex] at hdelivered ⊢
    exact hdelivered
  · refine .inr ⟨hold,fun htype => ?_⟩
    rw [← Bool.not_eq_true]
    exact fun hreadable => hnot (h.covers ⟨item.1,item.2,j⟩ (mem_fetchesOf.mpr ⟨hitem,htype⟩) hreadable)

theorem wp_batchGet (hgroups : ∀ ids, ids ⊆ D.groups ids) (hbuffers : ∀ item ∈ items,
      item.2.dataPtr.isSome = true ∧ 0 < item.2.size ∧ item.2.size < 2^31) :
    wp (steadyMachine D w) (fun _ _ => True)
      (fun results _ => ∀ (j : ℕ) item result, items[j]? = some item → results[j]? = some result →
        Delivered D w x client items ⟨item.1,item.2,j⟩ (j,result))
      (batchGet D client items) x := by
  have hfetches : ∀ type, ∀ f ∈ fetchesOf items type,
      f.buffer.dataPtr.isSome = true ∧ 0 < f.buffer.size ∧ f.buffer.size < 2^31 := fun type f hf =>
    hbuffers f.pair (List.mem_of_getElem? (mem_fetchesOf.mp hf).1)
  apply wp_bind.mpr
  apply wp_mono (wp_localReads (.refl x) (hfetches .localDirect))
  rintro localResults x₁ ⟨hsame,hlocal⟩
  apply wp_bind.mpr
  apply wp_mono (wp_readNode hsame fun f hf => (hfetches .nodeDirect f hf).2)
  rintro nodeResults x₂ ⟨hsame,hnode⟩
  apply wp_bind.mpr
  have hremotes : wp (steadyMachine D w) (fun _ _ => True)
      (fun xss z => x.Same z ∧ List.Forall₂ (fun storeId xs =>
        Phase D w x client items (remoteGroup items storeId) xs)
          (D.groups ((fetchesOf items .remoteRpc).map fun f => f.desc.storeId)) xss)
      (Prog.mapEach (readRemote D client (fetchesOf items .remoteRpc))
        (D.groups ((fetchesOf items .remoteRpc).map fun f => f.desc.storeId))) x₂ :=
    wp_mapEach_forall₂ hsame fun storeId _ y hsame =>
      wp_readRemote hsame storeId fun f hf => (hfetches .remoteRpc f hf).2
  apply wp_mono hremotes
  rintro remoteResults x₃ ⟨-,hgroupReads⟩
  have hids : ∀ f ∈ fetchesOf items .remoteRpc,
      f.desc.storeId ∈ D.groups ((fetchesOf items .remoteRpc).map fun f => f.desc.storeId) :=
    fun f hf => hgroups _ (List.mem_map.mpr ⟨f,hf,rfl⟩)
  have hremote := phase_flatten hids hgroupReads
  intro j item result hitem hresult
  rcases delivered_or_left hremote hitem hresult with hdone | ⟨hresult,hnotRemote⟩
  · exact hdone
  rcases delivered_or_left hnode hitem hresult with hdone | ⟨hresult,hnotNode⟩
  · exact hdone
  rcases delivered_or_left hlocal hitem hresult with hdone | ⟨hresult,hnotLocal⟩
  · exact hdone
  -- no phase has an entry for the position
  have hfalse : allReadable D w x client items item = false := by
    cases htype : item.1.accessType with
    | localDirect => exact hnotLocal htype
    | nodeDirect => exact hnotNode htype
    | remoteRpc => exact hnotRemote htype
  rw [List.getElem?_map, hitem] at hresult
  obtain rfl := Option.some.inj hresult
  refine ⟨rfl,?_,fun hpos => absurd hpos (lt_irrefl _)⟩
  exact iff_of_false (lt_irrefl _) fun hreadable => by cases hfalse.symm.trans hreadable

/-- A batch's answer for an item: positive exactly if all that is read with the item can be read alone,
and then with the bytes that reading it alone gives. -/
structure OneByOne (D : Deployment) (w : Conditions) (x : ReadWorld) (client : ℕ)
    (items : List (KeyDescriptor × BufferInfo))
    (alone : KeyDescriptor → BufferInfo → ClientProg (Status × Option Bytes))
    (item : KeyDescriptor × BufferInfo) (result : Fetched) : Prop where
  positive : 0 < result.count ↔ ∀ other ∈ together items item,
    Succeeds D w x (alone (routed x client items other.1) other.2)
  bytes : 0 < result.count → ∀ r y,
    Exec (steadyMachine D w) (fun _ _ => True) (alone (routed x client items item.1) item.2) x r y →
      r.1.isOk = true ∧ ∃ b b', result.buffer = some b ∧ r.2 = some b' ∧
        bytesOf b item.2.size = bytesOf b' item.2.size

theorem oneByOne_of_delivered {item : KeyDescriptor × BufferInfo} {j : ℕ} {result : Fetched}
    {alone : KeyDescriptor → BufferInfo → ClientProg (Status × Option Bytes)}
    (hitem : items[j]? = some item) (h : Delivered D w x client items ⟨item.1,item.2,j⟩ (j,result))
    (hmakes : ∀ desc buffer, (alone desc buffer).Makes OfRead)
    (halone : ∀ other ∈ together items item, wp (steadyMachine D w) (fun _ _ => True)
      (fun r _ => w.Reads D x client (routed x client items other.1) other.2.size r.1.isOk r.2)
      (alone (routed x client items other.1) other.2) x) :
    OneByOne D w x client items alone item result := by
  have hfetch : (⟨item.1,item.2,j⟩ : Fetch) ∈ fetchesOf items item.1.accessType :=
    mem_fetchesOf.mpr ⟨hitem,rfl⟩
  constructor
  · rw [h.count, allReadable, List.all_eq_true]
    apply forall₂_congr
    intro other hother
    exact (succeeds_iff (hmakes _ _) (halone other hother)).symm
  · intro hpos r y he
    have hread := he.ends (halone item (mem_together hfetch))
    have hok : r.1.isOk = true := hread.isOk.trans (readable_of_allReadable hfetch (h.count.mp hpos))
    obtain ⟨b,hb,hbytes⟩ := h.bytes hpos
    obtain ⟨b',hb',hbytes'⟩ := hread.bytes hok
    exact ⟨hok,b,b',hb,hb',Option.some.inj (hbytes.symm.trans hbytes')⟩

/-- A batch's answer for an item is what `DoRead` makes of the item alone. -/
structure AsDoRead (D : Deployment) (w : Conditions) (x : ReadWorld) (client : ℕ)
    (item : KeyDescriptor × BufferInfo) (result : Fetched) : Prop where
  positive : 0 < result.count ↔ Succeeds D w x (doRead D client item.1 item.2)
  bytes : 0 < result.count → ∀ r y,
    Exec (steadyMachine D w) (fun _ _ => True) (doRead D client item.1 item.2) x r y →
      ∃ b b', result.buffer = some b ∧ r.2 = some b' ∧ bytesOf b item.2.size = bytesOf b' item.2.size

/-- All slots that are read in one call with the item's can be read exactly if the place that `DoRead`
reads for the item can be read, and then this place fills the buffer, with the bytes of the slot. -/
structure AlikePlaces (D : Deployment) (w : Conditions) (x : ReadWorld) (client : ℕ)
    (items : List (KeyDescriptor × BufferInfo)) (item : KeyDescriptor × BufferInfo) : Prop where
  readable : allReadable D w x client items item =
    (doReadPlace D w x client item.1 item.2).any fun p => p.completes w
  contents : allReadable D w x client items item = true →
    w.bytesAt D x client (routed x client items item.1) item.2.size =
      (doReadPlace D w x client item.1 item.2).map fun p => p.contents x

section
variable {item : KeyDescriptor × BufferInfo} {j : ℕ} {result : Fetched}

/-- What `DoRead` leaves behind a shorter record differs from the batch's bytes in some run. -/
theorem AsDoRead.contents (h : AsDoRead D w x client item result)
    (hdelivered : Delivered D w x client items ⟨item.1,item.2,j⟩ (j,result))
    (hbuffer : item.2.dataPtr.isSome = true) (hsize : 0 < item.2.size) (hlarge : item.2.size < 2^31)
    {p : SlotPlace} (hplace : doReadPlace D w x client item.1 item.2 = some p) (hreads : p.completes w = true)
    (hpos : 0 < result.count) :
    w.bytesAt D x client (routed x client items item.1) item.2.size = some (p.contents x) := by
  obtain ⟨b,hb,hbytes⟩ := hdelivered.bytes hpos
  obtain ⟨r,y,b',he,hb',hfilled,hle,hbehind⟩ :=
    exists_exec_doRead hbuffer hsize hlarge hplace hreads fun k => b k + 1
  obtain ⟨b₁,b₂,hb₁,hb₂,hsame⟩ := h.bytes hpos r y he
  obtain rfl : b = b₁ := Option.some.inj (hb.symm.trans hb₁)
  obtain rfl : b' = b₂ := Option.some.inj (hb'.symm.trans hb₂)
  have hfull : p.size = item.2.size := by
    refine le_antisymm hle (not_lt.mp fun hshort => ?_)
    have hat : b p.size = b' p.size := List.map_inj_left.mp hsame p.size (List.mem_range.mpr hshort)
    rw [hbehind p.size (le_refl _) hshort] at hat
    exact absurd hat (by simp)
  rw [hbytes, ← hfilled, hfull, hsame]

theorem asDoRead_iff (hdelivered : Delivered D w x client items ⟨item.1,item.2,j⟩ (j,result))
    (hbuffer : item.2.dataPtr.isSome = true) (hsize : 0 < item.2.size) (hlarge : item.2.size < 2^31) :
    AsDoRead D w x client item result ↔ AlikePlaces D w x client items item := by
  have halone : wp (steadyMachine D w) (fun _ _ => True)
      (fun r _ => ReadsPlace w x (doReadPlace D w x client item.1 item.2) r.1.isOk r.2)
      (doRead D client item.1 item.2) x := wp_doRead_place hbuffer hsize hlarge
  have hsucceeds : Succeeds D w x (doRead D client item.1 item.2) ↔
      ((doReadPlace D w x client item.1 item.2).any fun p => p.completes w) = true :=
    succeeds_iff_isOk (makes_doRead _ _) (wp_mono halone fun _ _ hread => hread.isOk)
  have hcount : 0 < result.count ↔ allReadable D w x client items item = true := hdelivered.count
  constructor
  · intro h
    have hreadable := Bool.eq_iff_iff.mpr (hcount.symm.trans (h.positive.trans hsucceeds))
    refine ⟨hreadable,fun htrue => ?_⟩
    obtain ⟨p,hplace,hreads⟩ := (Option.any_eq_true _ _).mp (hreadable.symm.trans htrue)
    rw [hplace]
    exact h.contents hdelivered hbuffer hsize hlarge hplace hreads (hcount.mpr htrue)
  · intro h
    refine ⟨hcount.trans (h.readable ▸ hsucceeds.symm),fun hpos r y he => ?_⟩
    have htrue := hcount.mp hpos
    have hread := he.ends halone
    obtain ⟨p,b',hplace,hb',hfilled⟩ := hread.fills (hread.isOk.trans (h.readable.symm.trans htrue))
    obtain ⟨b,hb,hbytes⟩ := hdelivered.bytes hpos
    have hsame : bytesOf b item.2.size = p.contents x := by
      have hcontents := h.contents htrue
      rw [hplace] at hcontents
      exact Option.some.inj (hbytes.symm.trans hcontents)
    have hfull : p.size = item.2.size := by
      have hlength := congrArg List.length hsame
      rw [length_bytesOf, SlotPlace.contents, length_bytesOf] at hlength
      exact hlength.symm
    refine ⟨b,b',hb,hb',?_⟩
    rw [hsame, ← hfilled, hfull]

end

theorem mem_of_mem_together {item other : KeyDescriptor × BufferInfo} {j : ℕ}
    (hitem : items[j]? = some item) (h : other ∈ together items item) : other ∈ items := by
  unfold together at h
  split at h
  · exact List.mem_of_mem_filter h
  · rw [List.mem_singleton.mp h]
    exact List.mem_of_getElem? hitem
  · exact List.mem_of_mem_filter h

theorem makes_readNode (fetches : List Fetch) : (readNode D client fetches).Makes OfRead := by
  refine (Prog.makes_mapEach makes_storeFile fetches).bind fun files => ?_
  apply Prog.makes_mapEach
  rintro ⟨f,file⟩
  cases file with
  | none => trivial
  | some i => exact (makes_readFile f).bind fun _ => trivial

theorem makes_readRemote (fetches : List Fetch) (storeId : ℕ) :
    (readRemote D client fetches storeId).Makes OfRead := by
  unfold readRemote
  split
  · trivial
  · refine (makes_remoteAddr _).bind fun addr => ?_
    split
    · trivial
    · rw [readRpc_eq]
      exact (makes_remoteBatchRead addr _).bind fun _ => trivial

theorem makes_batchGet (items : List (KeyDescriptor × BufferInfo)) :
    (batchGet D client items).Makes OfRead := by
  refine Prog.Makes.bind ?_ fun localResults => ?_
  · unfold localReads
    split
    · trivial
    · exact (makes_forClient (makes_batchRead _)).bind fun _ => trivial
  refine (makes_readNode _).bind fun nodeResults => ?_
  exact (Prog.makes_mapEach (makes_readRemote _) _).bind fun _ => trivial

/-- While nothing is written and the surroundings are steady, `BatchGet` reads an item exactly if all
that it reads together with it can be read one by one, by the place of a local slot and by `DoRead`
otherwise. Where the local slots hold what their descriptors say, that is `DoRead` for them as well. The
whole batch is what `DoRead` makes of each item if and only if all items have alike places. -/
theorem batchGet_oneByOne (D : Deployment) (w : Conditions) (x : ReadWorld) (client : ℕ)
    (items : List (KeyDescriptor × BufferInfo)) (hgroups : ∀ ids, ids ⊆ D.groups ids)
    (hbuffers : ∀ item ∈ items,
      item.2.dataPtr.isSome = true ∧ 0 < item.2.size ∧ item.2.size < 2^31) :
    (∃ results z, Exec (steadyMachine D w) (fun _ _ => True) (batchGet D client items) x results z) ∧
      ∀ results z, Exec (steadyMachine D w) (fun _ _ => True) (batchGet D client items) x results z →
        results.length = items.length ∧
          (∀ (j : ℕ) item result, items[j]? = some item → results[j]? = some result →
            OneByOne D w x client items (readSlot D client) item result ∧
            ((∀ other ∈ together items item, NamesRecord D x client other.1 other.2) →
              OneByOne D w x client items (doRead D client) item result)) ∧
          ((∀ (j : ℕ) item result, items[j]? = some item → results[j]? = some result →
            AsDoRead D w x client item result) ↔ ∀ item ∈ items, AlikePlaces D w x client items item) := by
  refine ⟨exists_exec (makes_batchGet items) total_ofRead x,fun results z he => ?_⟩
  have hlength := he.ends (wp_length_batchGet items)
  have hdelivered := he.ends (wp_batchGet hgroups hbuffers)
  refine ⟨hlength,fun j item result hitem hresult => ⟨?_,?_⟩,?_⟩
  · refine oneByOne_of_delivered hitem (hdelivered j item result hitem hresult) makes_readSlot
      fun other hother => ?_
    obtain ⟨hbuffer,hsize,hlarge⟩ := hbuffers other (mem_of_mem_together hitem hother)
    exact wp_readSlot hbuffer hsize hlarge
  · intro hrecords
    refine oneByOne_of_delivered hitem (hdelivered j item result hitem hresult) makes_doRead
      fun other hother => ?_
    obtain ⟨hbuffer,hsize,hlarge⟩ := hbuffers other (mem_of_mem_together hitem hother)
    refine wp_doRead_of_namesRecord ?_ hbuffer hsize hlarge
    intro hlocal
    rw [accessType_routed] at hlocal
    rw [routed_of_type hlocal (by decide)]
    exact hrecords other hother hlocal
  · have hone : ∀ (j : ℕ) item result, items[j]? = some item → results[j]? = some result →
        (AsDoRead D w x client item result ↔ AlikePlaces D w x client items item) := by
      intro j item result hitem hresult
      obtain ⟨hbuffer,hsize,hlarge⟩ := hbuffers item (List.mem_of_getElem? hitem)
      exact asDoRead_iff (hdelivered j item result hitem hresult) hbuffer hsize hlarge
    constructor
    · intro h item hmem
      obtain ⟨j,hj,hitem⟩ := List.mem_iff_getElem.mp hmem
      have hitem : items[j]? = some item := List.getElem?_eq_some_iff.mpr ⟨hj,hitem⟩
      have hresult : results[j]? = some (results.get ⟨j,hlength ▸ hj⟩) := List.getElem?_eq_getElem _
      exact (hone j item _ hitem hresult).mp (h j item _ hitem hresult)
    · intro h j item result hitem hresult
      exact (hone j item result hitem hresult).mpr (h item (List.mem_of_getElem? hitem))

/-- The client's own store has a record of one key. -/
def recorded : ReadWorld :=
  (ReadWorld.init twoStores).setStore 0 .getWallTimeMs
    { Store.init (twoStores.cfg 0) with index := StoreMetaIndex.create.put "a" ⟨"a",0,4,8,1,0⟩ }

/-- Of every file only the beginning can be read. -/
def belowFour : Conditions := ⟨fun _ offset _ => decide (offset < 4),fun _ => true,fun _ => true⟩

def ownSlot (key : Key) (offset : ℕ) : KeyDescriptor × BufferInfo :=
  ({ key, storeId := 1, offset, size := 4, accessType := .localDirect },⟨some fun _ => 0,4⟩)

def slotAt (addr : String) : KeyDescriptor × BufferInfo :=
  ({ key := "b", storeId := 1, size := 4, storeAddr := addr },⟨some fun _ => 0,4⟩)

theorem exec_of_choices {α γ : Type} {p : ClientProg α} {f : α → γ} {v : γ} (choices : List ClientChoice)
    (h : (execWith (steadyMachine D w) (fun _ _ => true) p choices x).map (fun y => f y.1) = some v) :
    ∃ a z, Exec (steadyMachine D w) (fun _ _ => True) p x a z ∧ f a = v := by
  obtain ⟨⟨a,z⟩,hexec,hv⟩ := Option.map_eq_some_iff.mp h
  exact ⟨a,z,(exec_of_execWith hexec).ok_mono fun _ _ _ => trivial,hv⟩

theorem subset_groups_twoStores (ids : List ℕ) : ids ⊆ twoStores.groups ids :=
  fun _ hid => List.mem_eraseDups.mpr hid

/-- A slot that fails together with another one of its store, and the same batch without that one. -/
theorem batchGet_oneByOne_recorded :
    (let items := [ownSlot "a" 0,slotAt "gone",slotAt "first"]
      ∃ results z, Exec (steadyMachine twoStores belowFour) (fun _ _ => True) (batchGet twoStores 0 items)
          recorded results z ∧ results.map Fetched.count = [4,-1,-1] ∧
        ∀ (j : ℕ) item result, items[j]? = some item → results[j]? = some result →
          OneByOne twoStores belowFour recorded 0 items (doRead twoStores 0) item result) ∧
    let items := [ownSlot "a" 0,slotAt "first"]
    ∃ results z, Exec (steadyMachine twoStores belowFour) (fun _ _ => True) (batchGet twoStores 0 items)
        recorded results z ∧ results.map Fetched.count = [4,4] ∧
      ∀ (j : ℕ) item result, items[j]? = some item → results[j]? = some result →
        AsDoRead twoStores belowFour recorded 0 item result := by
  constructor
  · intro items
    obtain ⟨results,z,he,hcounts⟩ := @exec_of_choices twoStores belowFour recorded _ _
      (batchGet twoStores 0 items) (fun results => results.map Fetched.count) [4,-1,-1] [{},{}] (by decide)
    have hbuffers : ∀ item ∈ items,
        item.2.dataPtr.isSome = true ∧ 0 < item.2.size ∧ item.2.size < 2^31 := by
      simp [items, ownSlot, slotAt]
    have hrecords : ∀ item ∈ items, NamesRecord twoStores recorded 0 item.1 item.2 := by
      intro item hitem hlocal i hi
      obtain rfl : 0 = i := Option.some.inj hi
      simp only [items, List.mem_cons, List.not_mem_nil, or_false] at hitem
      rcases hitem with rfl | rfl | rfl
      · exact ⟨⟨"a",0,4,8,1,0⟩,by decide,rfl,rfl,rfl⟩
      · cases hlocal
      · cases hlocal
    obtain ⟨-,hall⟩ := batchGet_oneByOne twoStores belowFour recorded 0 items subset_groups_twoStores hbuffers
    refine ⟨results,z,he,hcounts,fun j item result hitem hresult => ?_⟩
    obtain ⟨-,hnamed⟩ := (hall results z he).2.1 j item result hitem hresult
    exact hnamed fun other hother => hrecords other (mem_of_mem_together hitem hother)
  · intro items
    obtain ⟨results,z,he,hcounts⟩ := @exec_of_choices twoStores belowFour recorded _ _
      (batchGet twoStores 0 items) (fun results => results.map Fetched.count) [4,4] [{},{},{},{}] (by decide)
    have hbuffers : ∀ item ∈ items,
        item.2.dataPtr.isSome = true ∧ 0 < item.2.size ∧ item.2.size < 2^31 := by
      simp [items, ownSlot, slotAt]
    obtain ⟨-,hall⟩ := batchGet_oneByOne twoStores belowFour recorded 0 items subset_groups_twoStores hbuffers
    refine ⟨results,z,he,hcounts,(hall results z he).2.2.mpr ?_⟩
    intro item hitem
    simp only [items, List.mem_cons, List.not_mem_nil, or_false] at hitem
    rcases hitem with rfl | rfl
    · exact ⟨by decide,fun _ => by decide⟩
    · exact ⟨by decide,fun _ => by decide⟩

/-- `DoRead` does not find a key of the client's own store that is unknown there. -/
theorem not_succeeds_of_find_none {desc : KeyDescriptor} {buffer : BufferInfo}
    (hlocal : desc.accessType = .localDirect) (hstore : D.localStore client = some i)
    (hfind : (x.store i).index.find desc.key = none) :
    ¬ Succeeds D w x (doRead D client desc buffer) := by
  have hget : wp (steadyStore (w.reads i)) (fun _ _ => True) (fun r _ => r.1.status.isOk = false)
      (StoreOps.get desc.key buffer.dataPtr buffer.size) (x.store i) := by
    apply wp_perform_under trivial (fun _ => rfl)
    intro c _
    rw [StoreMetaIndex.get_of_none hfind]
    rfl
  have hread : wp (steadyMachine D w) (fun _ _ => True) (fun r _ => r.1.isOk = false)
      (doRead D client desc buffer) x := by
    unfold doRead
    rw [hlocal, hstore]
    apply wp_bind.mpr
    apply wp_mono (wp_forClient hget)
    rintro r y ⟨hfalse,-⟩
    exact hfalse
  rintro ⟨r,y,he,hok⟩
  cases (he.ends hread).symm.trans hok

/-- A slot whose key is unknown is read; a slot that `DoRead` reads fails with another of its store, and so
does one that stands behind a slot with an address that nobody serves. -/
theorem exists_batchGet_not_doRead :
    let gets := fun items results => ∃ got z, Exec (steadyMachine twoStores belowFour) (fun _ _ => True)
      (batchGet twoStores 0 items) recorded got z ∧ got.map Fetched.count = results
    let reads := fun item => Succeeds twoStores belowFour recorded (doRead twoStores 0 item.1 item.2)
    (gets [ownSlot "unknown" 0] [4] ∧ ¬ reads (ownSlot "unknown" 0)) ∧
      (gets [ownSlot "a" 0,ownSlot "unknown" 4] [-1,-1] ∧ reads (ownSlot "a" 0)) ∧
      (gets [slotAt "gone",slotAt "first"] [-1,-1] ∧ reads (slotAt "first")) := by
  have hreads : ∀ {item : KeyDescriptor × BufferInfo} (choices : List ClientChoice),
      (execWith (steadyMachine twoStores belowFour) (fun _ _ => true)
        (doRead twoStores 0 item.1 item.2) choices recorded).map (fun y => y.1.1.isOk) = some true →
      Succeeds twoStores belowFour recorded (doRead twoStores 0 item.1 item.2) := by
    intro item choices h
    obtain ⟨r,y,he,hok⟩ := exec_of_choices (f := fun r : Status × Option Bytes => r.1.isOk) choices h
    exact ⟨r,y,he,hok⟩
  refine ⟨⟨?_,?_⟩,⟨?_,?_⟩,?_,?_⟩
  · exact exec_of_choices [{}] (by decide)
  · exact not_succeeds_of_find_none rfl rfl (by decide)
  · exact exec_of_choices [{},toComplete false] (by decide)
  · exact hreads [{},{}] (by decide)
  · exact exec_of_choices [{}] (by decide)
  · exact hreads [{},{},{}] (by decide)

end ClientOps

end FalconKV
