import Mathlib.Algebra.Group.Pi.Lemmas
import Mathlib.Data.Multiset.OrderedMonoid
import FalconKV.Store.BatchAcks

/-! # Writes that fail

Beside the calls of a `Put` or a batch it is recorded which slots they take and give back,
write in full, and record. If some slot that was granted was not written in full, all of them
are given back and nothing is recorded.
-/
namespace FalconKV
open AtomicCalls

inductive Deed
  | granted
  | taken
  | freed
  | written
  | recorded
  | committed
  deriving DecidableEq

/-- The slots with which each thing was done. -/
abbrev Deeds := Deed → Multiset ℕ

def Deed.isReturn : Deed → Bool
  | taken | freed => true
  | _ => false

def StoreCall.deeds : (op : StoreCall) → op.Res → Deeds
  | .alloc _, a => Pi.single .granted (if a.offset < 0 then 0 else {a.offset.toNat})
  | .batchAlloc .., r => Pi.single .granted (r.1.map Int.toNat : List ℕ)
  | .takeExpired _, entries => Pi.single .taken (entries.map EvictEntry.offset : List ℕ)
  | .takeAll, entries => Pi.single .taken (entries.map EvictEntry.offset : List ℕ)
  | .free offset _, _ => Pi.single .freed {offset.toNat}
  | .pwrite offset _ size, r => Pi.single .written (if r.count = size then {offset} else 0)
  | .uringWrite offset _ _, status => Pi.single .written (if status.isOk then {offset} else 0)
  | .indexPut _ record _, _ => Pi.single .recorded {record.offset}
  | .syncCommit _ records, _ =>
    Pi.single .committed (records.map StoreKeyRecord.offset : List ℕ)
  | .asyncCommit _ records, _ =>
    Pi.single .committed (records.map StoreKeyRecord.offset : List ℕ)
  | _, _ => 0

/-- The store beside a record of the deeds. -/
def recording : Machine storeCalls (Store × Deeds) :=
  storeMachine.withRecord fun op r _ g => g + op.deeds r

theorem exec_of_recording {α : Type} {p : StoreProg α} {x x' : Store × Deeds} {a : α}
    (ok : Store → StoreCall → Prop) (he : Exec recording (fun x op => ok x.1 op) p x a x') :
    Exec storeMachine ok p x.1 a x'.1 := by
  induction he with
  | ret a x => exact .ret a x.1
  | call hok hstep _ ih => exact .call hok (Machine.withRecord_step hstep).1 ih

def deeds : Discipline storeCalls Deeds where
  guar := Custody.guar
  rule := fun op r used made => used = 0 ∧ made = fun d => if d.isReturn then 0 else op.deeds r d

namespace Store

def stayed (held : Multiset Holding) : Multiset ℕ :=
  (held.filter fun x => x.isLeaving = false).map Holding.offset

@[simp] theorem stayed_zero : stayed 0 = 0 := rfl
@[simp] theorem stayed_add (g g' : Multiset Holding) : stayed (g + g') = stayed g + stayed g' := by
  simp [stayed]

theorem stayed_of_forall {g : Multiset Holding} (h : ∀ x ∈ g, x.isLeaving = false) :
    stayed g = g.map Holding.offset := by
  rw [stayed, Multiset.filter_eq_self.mpr h]

theorem stayed_singleton {x : Holding} (h : x.isLeaving = false) : stayed {x} = {x.offset} := by
  rw [stayed_of_forall fun y hy => by rw [Multiset.mem_singleton.mp hy, h], Multiset.map_singleton]

theorem stayed_leaving (o : ℕ) : stayed {.leaving o} = 0 := by
  have hnone : ({.leaving o} : Multiset Holding).filter (fun x => x.isLeaving = false) = 0 :=
    Multiset.filter_eq_nil.mpr fun x hx => by simp [Multiset.mem_singleton.mp hx, Holding.isLeaving]
  rw [stayed, hnone, Multiset.map_zero]

theorem stayed_map {γ : Type} {f : γ → Holding} (h : ∀ x, (f x).isLeaving = false) (xs : List γ) :
    stayed (xs.map f : List Holding) = (xs.map fun x => (f x).offset : List ℕ) := by
  rw [stayed_of_forall]
  · rw [Multiset.map_coe, List.map_map]
    rfl
  · intro y hy
    obtain ⟨x,-,rfl⟩ := List.mem_map.mp (Multiset.mem_coe.mp hy)
    exact h x

variable {s s' : Store} {op : StoreCall} {c : StoreChoice} {r : op.Res}
  {used made rest held : Multiset Holding} {lost : Multiset ℕ}

/-- What a call takes comes from its thread, and what it gives goes there. -/
theorem stayed_step (hr : Custody.rule op r used made) :
    stayed used + (op.deeds r .granted + op.deeds r .taken) =
      stayed made + (op.deeds r .freed + op.deeds r .recorded) := by
  cases op with
  | indexRemove key snapshot =>
    obtain ⟨rfl,rfl⟩ := hr
    cases r <;> simp [StoreCall.deeds, stayed_leaving]
  | enqueue key offset n =>
    obtain ⟨rfl,rfl⟩ := hr
    simp [StoreCall.deeds, stayed_leaving]
  | indexPut key record data =>
    obtain ⟨rfl,-,-,d,-,rfl⟩ := hr
    rw [stayed_singleton rfl]
    simp [StoreCall.deeds, Holding.offset]
  | free offset n =>
    obtain ⟨rfl,x,ho,hl,rfl⟩ := hr
    rw [stayed_singleton hl]
    simp [StoreCall.deeds, ← ho]
  | alloc size =>
    obtain ⟨rfl,rfl⟩ := hr
    unfold grantedOf
    split
    · next hneg => simp [StoreCall.deeds, hneg]
    · next hpos =>
      rw [stayed_singleton rfl]
      simp [StoreCall.deeds, hpos, Holding.offset]
  | batchAlloc size count =>
    obtain ⟨rfl,rfl⟩ := hr
    rw [stayed_map fun _ => rfl]
    simp [StoreCall.deeds, Holding.offset]
  | takeExpired now =>
    obtain ⟨rfl,rfl⟩ := hr
    rw [stayed_map fun _ => rfl]
    simp [StoreCall.deeds, Holding.offset]
  | takeAll =>
    obtain ⟨rfl,rfl⟩ := hr
    rw [stayed_map fun _ => rfl]
    simp [StoreCall.deeds, Holding.offset]
  | pwrite offset data size =>
    obtain ⟨n,rfl,rfl⟩ := hr
    rw [stayed_singleton rfl, stayed_singleton (by simp), Holding.offset_afterWrite]
    simp [StoreCall.deeds, Holding.offset]
  | uringWrite offset data size =>
    obtain ⟨n,rfl,rfl⟩ := hr
    rw [stayed_singleton rfl, stayed_singleton (by simp), Holding.offset_afterWrite]
    simp [StoreCall.deeds, Holding.offset]
  | _ =>
    obtain ⟨rfl,rfl⟩ := hr
    simp [StoreCall.deeds]

theorem not_isPut_of_not_recorded (h : op.deeds r .recorded = 0) : op.isPut = false := by
  cases op with
  | indexPut key record data =>
    rw [StoreCall.deeds, Pi.single_eq_same] at h
    exact absurd h (Multiset.singleton_ne_zero _)
  | _ => rfl

/-- What is known of a store beside the record of a program that runs alone on it since `s₀`. -/
structure Recorded (s₀ : Store) (lost : Multiset ℕ) (x : Store × Deeds)
    (held : Multiset Holding × Deeds) : Prop where
  books : ∃ lost', Books x.1 held.1 lost' ∧ (x.2 .recorded = 0 → lost' = lost)
  same : ∀ d, d.isReturn = false → x.2 d = held.2 d
  balance : stayed held.1 + (x.2 .freed + x.2 .recorded) = x.2 .granted + x.2 .taken
  keys : x.2 .recorded = 0 → ∀ key, (x.1.index.find key).isSome = true →
    (s₀.index.find key).isSome = true

theorem keeps_recorded (s₀ : Store) (lost : Multiset ℕ) :
    Keeps recording (custody.prod deeds) (fun x op => x.1.snapshotCurrent op = true)
      fun _ x held => Recorded s₀ lost x held where
  guar := by
    rintro tr ⟨s,g⟩ op c r x' total h hok hs
    obtain ⟨lost',hbooks,-⟩ := h.books
    have hguar := hbooks.guar hok (Machine.withRecord_step hs).1
    exact ⟨hguar,hguar⟩
  step := by
    rintro tr i ⟨s,g⟩ op c r ⟨s',g'⟩ used made rest h hok hs ⟨hcustody,hused,hmade⟩
    obtain ⟨hstep,hnote⟩ := Machine.withRecord_step hs
    subst hnote
    have hrecorded : (g + op.deeds r) .recorded = 0 → g .recorded = 0 ∧ op.isPut = false := by
      intro hz
      obtain ⟨hg,hop⟩ := add_eq_zero.mp hz
      exact ⟨hg,not_isPut_of_not_recorded hop⟩
    obtain ⟨lost',hbooks,hlost⟩ := h.books
    refine ⟨⟨_,hbooks.step hstep hcustody,fun hz => ?_⟩,fun d hd => ?_,?_,fun hz key hk => ?_⟩
    · obtain ⟨hg,hput⟩ := hrecorded hz
      rw [overwritten_of_not_put hput, zero_add]
      exact hlost hg
    · have hsame := h.same d hd
      have hmade' : made.2 d = op.deeds r d := by
        rw [hmade]
        simp [hd]
      simp only [Prod.snd_add, hused, Pi.add_apply, Pi.zero_apply, zero_add] at hsame ⊢
      rw [hsame, hmade', add_comm]
    · have hbalance := h.balance
      have hcall := stayed_step hcustody
      simp only [Prod.fst_add, stayed_add, Pi.add_apply] at hbalance ⊢
      calc stayed made.1 + stayed rest.1 + (g .freed + op.deeds r .freed +
            (g .recorded + op.deeds r .recorded))
          = stayed made.1 + (op.deeds r .freed + op.deeds r .recorded) +
            (stayed rest.1 + (g .freed + g .recorded)) := by abel
        _ = stayed used.1 + (op.deeds r .granted + op.deeds r .taken) +
            (stayed rest.1 + (g .freed + g .recorded)) := by rw [hcall]
        _ = stayed used.1 + stayed rest.1 + (g .freed + g .recorded) +
            (op.deeds r .granted + op.deeds r .taken) := by abel
        _ = g .granted + g .taken + (op.deeds r .granted + op.deeds r .taken) := by rw [hbalance]
        _ = g .granted + op.deeds r .granted + (g .taken + op.deeds r .taken) := by abel
    · obtain ⟨hg,hput⟩ := hrecorded hz
      refine h.keys hg key ?_
      by_contra hnone
      have habs := (shrinks_step hput hstep).absent key (by simpa using hnone)
      rw [habs] at hk
      cases hk

/-- What a program that runs alone has done when it returns. -/
theorem deeds_of_exec {α : Type} {p : StoreProg α} {post : α → Deeds → Prop}
    {post' : α → Store → Prop} {D F : Prop} {a : α} {g : Deeds} (hb : Books s 0 lost)
    (hcustody : Discharges p 0) (hdeeds : Uses deeds post p 0) (hsolo : Solo D F post' p s)
    (he : Exec recording (fun _ _ => True) p (s,0) a (s',g)) :
    ∃ g', post a g' ∧ Recorded s lost (s',g) (0,g') := by
  have hstart : Recorded s lost (s,0) (0,0) :=
    ⟨⟨lost,hb,fun _ => rfl⟩,fun _ _ => rfl,rfl,fun _ _ => id⟩
  have hcalls : Exec recording (fun x op => x.1.snapshotCurrent op = true) p (s,0) a (s',g) :=
    (he.of_wp (wp_withRecord hsolo 0)).1.ok_mono fun _ _ hok => hok.1.1
  obtain ⟨⟨held,g'⟩,⟨rfl,hpost⟩,hend⟩ :=
    exec_uses (keeps_recorded s lost) (uses_prod hcustody hdeeds) hstart hcalls
  exact ⟨g',hpost,hend⟩

end Store

namespace StoreOps
open Store

variable {cfg : StoreConfig} {α β : Type}

def returnsOnly (op : StoreCall) : Prop := ∀ r d, d.isReturn = false → op.deeds r d = 0

theorem deeds_rule_of_returnsOnly {op : StoreCall} (h : returnsOnly op) (r : op.Res) :
    deeds.rule op r 0 0 := by
  refine ⟨rfl,?_⟩
  funext d
  cases hd : d.isReturn with
  | true => rfl
  | false => exact (h r d hd).symm

theorem uses_returnsOnly {op : StoreCall} {k : op.Res → StoreProg β} {post : β → Deeds → Prop}
    {g : Deeds} (hop : returnsOnly op) (h : ∀ r, Uses deeds post (k r) g) :
    Uses deeds post (invoke op >>= k) g :=
  uses_idle (deeds_rule_of_returnsOnly hop) fun r _ => h r

theorem returnsOnly_of_evicts {op : StoreCall} (h : evicts op = true) : returnsOnly op := by
  intro r d hd
  cases op with
  | takeExpired | takeAll | free => cases d <;> first | rfl | cases hd
  | indexGet | indexBatchContains | indexPut | alloc | batchAlloc | getTotalBytes | pwrite | uringWrite
    | pread | uringRead | syncCommit | asyncCommit | getAllCommittedEntries => cases h
  | _ => rfl

/-- A program that reclaims does nothing else. -/
theorem deeds_of_evictsOnly {p : StoreProg α} (hp : EvictsOnly p) :
    Uses deeds (fun _ g => g = 0) p 0 :=
  uses_of_makes hp fun _ r h => deeds_rule_of_returnsOnly (returnsOnly_of_evicts h) r

theorem deeds_rule_single {op : StoreCall} {r : op.Res} {d : Deed} {slots : Multiset ℕ}
    (hop : op.deeds r = Pi.single d slots) (hd : d.isReturn = false) :
    deeds.rule op r 0 (Pi.single d slots) := by
  refine ⟨rfl,?_⟩
  funext e
  rw [hop]
  by_cases he : e = d
  · rw [he, hd]
    rfl
  · rw [Pi.single_eq_of_ne he]
    exact (ite_self 0).symm

theorem sum_single {γ : Type} (d : Deed) (f : γ → ℕ) (xs : List γ) :
    (xs.map fun x => (Pi.single d {f x} : Deeds)).sum = Pi.single d (xs.map f : Multiset ℕ) := by
  induction xs with
  | nil => exact (Pi.single_zero d).symm
  | cons x xs ih =>
    rw [List.map_cons, List.sum_cons, ih, List.map_cons, ← Multiset.cons_coe,
      ← Multiset.singleton_add, Pi.single_add]

def grantedSlot (offset _allocSize : ℕ) : Deeds := Pi.single .granted {offset}

theorem countsSlots_deeds : CountsSlots cfg deeds grantedSlot where
  guar := id
  alloc := by
    intro size a
    have hsingle : (if a.offset < 0 then 0 else grantedSlot a.offset.toNat a.allocSize) =
        Pi.single .granted (if a.offset < 0 then 0 else {a.offset.toNat}) := by
      split
      · exact (Pi.single_zero _).symm
      · rfl
    rw [hsingle]
    exact deeds_rule_single rfl rfl
  batchAlloc := by
    rintro size count ⟨offs,n⟩
    have hsum := sum_single .granted Int.toNat offs
    exact hsum ▸ deeds_rule_single rfl rfl
  getTotalBytes := by
    have hidle : returnsOnly .getTotalBytes := fun _ _ _ => rfl
    exact deeds_rule_of_returnsOnly hidle
  flushExpired := deeds_of_evictsOnly (flushesOnly_flushExpired.mono fun _ => evicts_of_flushes)
  flushAllForced := deeds_of_evictsOnly (flushesOnly_flushAllForced.mono fun _ => evicts_of_flushes)
  forceEvict := fun neededBytes => deeds_of_evictsOnly (evictsOnly_forceEvict neededBytes)

def WroteTo (offset : ℕ) (status : Status) (g : Deeds) : Prop :=
  ∃ slots, g = Pi.single .written slots ∧ (status.isOk = true → slots = {offset})

theorem uses_wrote_write (offset : ℕ) (data : Option Bytes) (size : ℕ) :
    Uses deeds (WroteTo offset) (write offset data size) 0 := by
  unfold write
  split
  · exact ⟨0,(Pi.single_zero _).symm,fun h => by cases h⟩
  · refine uses_perform fun r _ => ⟨0,_,0,deeds_rule_single rfl rfl,(add_zero 0).symm,?_⟩
    rw [add_zero]
    split
    · exact ⟨_,rfl,fun h => by cases h⟩
    · next hr => exact ⟨_,rfl,fun _ => if_pos (not_not.mp hr)⟩

theorem uses_wrote_writeItem (item : WriteItem) :
    Uses deeds (WroteTo item.offset) (writeItem cfg item) 0 := by
  unfold writeItem
  split
  · refine fun status _ => ⟨0,_,0,deeds_rule_single rfl rfl,(add_zero 0).symm,?_⟩
    rw [add_zero]
    exact ⟨_,rfl,fun hok => if_pos hok⟩
  · exact uses_wrote_write _ _ _

/-- If all writes are ok, all slots are written in full. -/
theorem wrote_of_split {items : List WriteItem} {statuses : List Status} {g : Deeds}
    (hl : statuses.length = items.length)
    (h : Split (fun y g => WroteTo y.1.offset y.2 g) (items.zip statuses) g) :
    ∃ slots, g = Pi.single .written slots ∧
      ((∀ status ∈ statuses, status.isOk = true) →
        slots = (items.map WriteItem.offset : List ℕ)) := by
  induction items generalizing statuses g with
  | nil =>
    cases h
    exact ⟨0,(Pi.single_zero _).symm,fun _ => rfl⟩
  | cons item items ih =>
    cases statuses with
    | nil => cases hl
    | cons status statuses =>
      cases h with
      | cons hx hxs =>
        obtain ⟨slot,rfl,hslot⟩ := hx
        obtain ⟨slots,rfl,hslots⟩ := ih (Nat.succ.inj hl) hxs
        refine ⟨slot + slots,(Pi.single_add _ _ _).symm,fun hok => ?_⟩
        obtain ⟨hhead,htail⟩ := List.forall_mem_cons.mp hok
        rw [hslot hhead, hslots htail, List.map_cons, ← Multiset.cons_coe, Multiset.singleton_add]

theorem uses_wrote_batchWrite (items : List WriteItem) :
    Uses deeds (fun status g => ∃ slots, g = Pi.single .written slots ∧
        (status.isOk = true → slots = (items.map WriteItem.offset : List ℕ)))
      (batchWrite cfg items) 0 := by
  have hitems : Split (fun item g => Uses deeds (fun status g' => WroteTo item.offset status g')
      (writeItem cfg item) g) items 0 := split_zero fun item _ => uses_wrote_writeItem item
  refine uses_bind (uses_mono (uses_mapEach (Q := fun y g => WroteTo y.1.offset y.2 g) hitems) ?_)
  rintro statuses g ⟨hl,hs⟩
  obtain ⟨slots,hg,hslots⟩ := wrote_of_split hl hs
  exact ⟨slots,hg,fun hok => hslots ((lastError_isOk statuses).mp hok)⟩

def AllOrNothing (g : Deeds) : Prop :=
  g .written = g .granted ∨ (g .recorded = 0 ∧ g .committed = 0)

def settles (op : StoreCall) : Prop := ∀ r, op.deeds r .granted = 0 ∧ op.deeds r .written = 0

theorem allOrNothing_of_settles {p : StoreProg α} {g : Deeds} (hp : p.Makes settles)
    (h : g .written = g .granted) : Uses deeds (fun _ g' => AllOrNothing g') p g := by
  induction p generalizing g with
  | ret a => exact .inl h
  | call op k ih =>
    refine fun r _ => ⟨0,_,g,⟨rfl,rfl⟩,(zero_add g).symm,ih r (hp.2 r) ?_⟩
    obtain ⟨hgranted,hwritten⟩ := hp.1 r
    simp [hgranted, hwritten, h]

theorem settles_commitOne (x : PutItem × StorePutResult) : (commitOne x).Makes settles :=
  Prog.makes_call_bind (fun _ => ⟨rfl,rfl⟩) fun _ =>
    Prog.makes_call_bind (fun _ => ⟨rfl,rfl⟩) fun _ => trivial

theorem settles_notifyAsync (records : List StoreKeyRecord) :
    (notifyAsync cfg records).Makes settles := by
  unfold notifyAsync
  split
  · exact Prog.makes_perform fun _ => ⟨rfl,rfl⟩
  · trivial

theorem settles_notifyCommit (records : List StoreKeyRecord) :
    (notifyCommit cfg records).Makes settles := by
  unfold notifyCommit
  split
  · exact Prog.makes_call_bind (fun _ => ⟨rfl,rfl⟩) fun _ => trivial
  · trivial

theorem allOrNothing_writeAndCommit {pairs : List (PutItem × StorePutResult)} {g : Deeds}
    (h : Split (fun x g => x.2.offset < 2^63 ∧ g = grantedSlot x.2.offset x.2.allocSize)
      (pairs.filter fun x => toWrite x.2) g) :
    Uses deeds (fun _ g' => AllOrNothing g') (writeAndCommit cfg pairs) g := by
  have hg : g = Pi.single .granted
      ((pairs.filter fun x => toWrite x.2).map fun x => x.2.offset : List ℕ) := by
    have hsum := (h.mono fun x _ g hx => hx.2).eq_sum
    rw [hsum]
    exact sum_single _ _ _
  subst hg
  refine uses_bind_frame (zero_add _).symm (uses_wrote_batchWrite _) ?_
  rintro status _ ⟨slots,rfl,hslots⟩
  split
  · have hfree : ∀ x : PutItem × StorePutResult,
        EvictsOnly (invoke (.free (int64 x.2.offset) x.2.allocSize)) :=
      fun _ => Prog.makes_perform rfl
    refine uses_bind_keep (deeds_of_evictsOnly (Prog.makes_forEach hfree _)) fun _ => ?_
    exact .inr ⟨by simp,by simp⟩
  · next hok =>
    have hwritten := hslots (by simpa using hok)
    have hcommit := Prog.makes_mapEach settles_commitOne (pairs.filter fun x => toWrite x.2)
    refine allOrNothing_of_settles (hcommit.bind fun records => ?_) ?_
    · exact (settles_notifyAsync records).bind fun _ => trivial
    · rw [hwritten, List.map_map]
      simp [Function.comp_def]

theorem allOrNothing_batchPut (keys : List Key) (dataPtrs : List (Option Bytes)) (sizes : List ℕ) :
    Uses deeds (fun _ g => AllOrNothing g) (batchPut cfg keys dataPtrs sizes) 0 := by
  unfold batchPut
  split
  · exact .inl rfl
  · have hlookup : Split (fun (item : PutItem) g => Uses deeds (fun _ g' => g' = 0) (do
        let found ← invoke (.indexGet item.key)
        pure found.isSome) g) (putItems keys dataPtrs sizes) 0 :=
      split_zero fun item _ => uses_returnsOnly (fun _ _ _ => rfl) fun _ => rfl
    refine uses_bind (uses_mono (uses_mapEach (Q := fun _ g => g = 0) hlookup) ?_)
    rintro present g ⟨hl,hz⟩
    rw [hz.eq_zero]
    refine uses_bind (uses_mono (countsSlots_deeds.uses_allocateBatch _) ?_)
    rintro results g' ⟨hlen,hs⟩
    rw [List.length_zip, hl, min_self] at hlen
    exact allOrNothing_writeAndCommit (split_writes hlen hs)

theorem allOrNothing_put (item : PutItem) :
    Uses deeds (fun _ g => AllOrNothing g) (put cfg item) 0 := by
  refine uses_returnsOnly (fun _ _ _ => rfl) fun found => ?_
  split
  · exact .inl rfl
  · refine uses_bind (uses_mono (countsSlots_deeds.uses_allocForPut item.size) ?_)
    rintro a _ ⟨rfl,-⟩
    split
    · exact .inl rfl
    · refine uses_bind_frame (zero_add _).symm (uses_wrote_write _ _ _) ?_
      rintro status _ ⟨slots,rfl,hslots⟩
      split
      · refine uses_returnsOnly (returnsOnly_of_evicts rfl) fun _ => ?_
        exact .inr ⟨by simp [grantedSlot],by simp [grantedSlot]⟩
      · next hok =>
        have hwritten := hslots (by simpa using hok)
        refine allOrNothing_of_settles (Prog.makes_call_bind (fun _ => ⟨rfl,rfl⟩) fun now => ?_) ?_
        · refine Prog.makes_call_bind (fun _ => ⟨rfl,rfl⟩) fun _ => ?_
          exact (settles_notifyCommit _).bind fun _ => trivial
        · rw [hwritten]
          simp [grantedSlot]

def RecordsKept (keys : List Key) (s t : Store) : Prop :=
  ∀ key ∈ keys, (s.index.find key).isSome = true →
    (t.index.find key).map StoreKeyRecord.timeless = (s.index.find key).map StoreKeyRecord.timeless

variable {keys : List Key} {s t t' : Store} {lost : Multiset ℕ} {g : Deeds}

theorem RecordsKept.presentKept (h : RecordsKept keys s t) : PresentKept keys s t := by
  intro key hkey hsome
  have hfind := congrArg Option.isSome (h key hkey hsome)
  rw [Option.isSome_map, Option.isSome_map] at hfind
  rwa [hfind]

theorem RecordsKept.step {op : StoreCall} {c : StoreChoice} {r : op.Res} (h : RecordsKept keys s t)
    (hok : orderly keys s t op) (hbesides : evictsBesides keys t op)
    (hs : t.step op c = some (r,t')) : RecordsKept keys s t' := by
  intro k hk hsome
  rw [← h k hk hsome]
  exact find_kept hok hbesides hs hk hsome

/-- Some slot of a `Put` or a batch was not written in full, and all is as if none had been. -/
structure WritesUndone (s : Store) (lost : Multiset ℕ) (keys : List Key)
    (results : List StorePutResult) (s' : Store) (g : Deeds) : Prop where
  givenBack : g .freed = g .granted + g .taken
  recorded : g .recorded = 0
  committed : g .committed = 0
  books : s'.Books 0 lost
  length : results.length = keys.length
  answers : ∀ x ∈ keys.zip results, x.2.status.isOk = (s.index.find x.1).isSome
  kept : RecordsKept keys s s'

/-- What holds of every failed write, whatever was evicted to make room. -/
theorem writesUndone_of_recorded {results : List StorePutResult} {items : List PutItem} {g' : Deeds}
    (h : Recorded s lost (t,g) (0,g')) (hall : AllOrNothing g') (hfail : g .written ≠ g .granted)
    (hanswered : Answered items s results t) (hkept : RecordsKept (items.map PutItem.key) s t) :
    WritesUndone s lost (items.map PutItem.key) results t g := by
  have hnothing : g .recorded = 0 ∧ g .committed = 0 := by
    have hsame : ∀ d, d.isReturn = false → g d = g' d := h.same
    rw [hsame .recorded rfl, hsame .committed rfl]
    refine hall.resolve_left fun hwritten => hfail ?_
    rw [hsame .written rfl, hsame .granted rfl]
    exact hwritten
  obtain ⟨hrecorded,hcommitted⟩ := hnothing
  obtain ⟨lost',hbooks,hlost⟩ := h.books
  have hbalance : g .freed + g .recorded = g .granted + g .taken := by
    have hb := h.balance
    rwa [stayed_zero, zero_add] at hb
  refine ⟨?_,hrecorded,hcommitted,?_,?_,?_,hkept⟩
  · rwa [hrecorded, add_zero] at hbalance
  · rw [← hlost hrecorded]
    exact hbooks
  · rw [hanswered.1, List.length_map]
  · intro x hx
    rw [List.zip_map_left] at hx
    obtain ⟨y,hy,rfl⟩ := List.mem_map.mp hx
    obtain ⟨hpresent,hok⟩ := hanswered.2 y hy
    refine Bool.eq_iff_iff.mpr ⟨fun hy => ?_,hpresent⟩
    exact (hok hy).elim id (h.keys hrecorded y.1.key)

theorem answered_singleton {item : PutItem} {r : StorePutResult}
    (hpresent : (s.index.find item.key).isSome = true → r.status.isOk = true)
    (hok : r.status.isOk = true →
      (s.index.find item.key).isSome = true ∨ (t.index.find item.key).isSome = true) :
    Answered [item] s [r] t := by
  refine ⟨rfl,fun x hx => ?_⟩
  obtain rfl := List.mem_singleton.mp hx
  exact ⟨hpresent,hok⟩

theorem index_notifyCommit (records : List StoreKeyRecord) :
    wp storeMachine (fun _ _ => True) (fun _ t => t.index = s.index) (notifyCommit cfg records) s := by
  unfold notifyCommit
  split
  · refine wp_perform trivial fun c status t h => ?_
    cases h
    exact rfl
  · exact rfl

/-- A `Put` of an absent key is ok only if it inserts the key. -/
theorem answered_put_absent {item : PutItem} (habs : s.index.find item.key = none) :
    wp storeMachine (fun _ _ => True) (fun r t => Answered [item] s [r] t)
      (allocForPut cfg item.size >>= fun a =>
        if a.offset < 0 then pure (outOfSpace item.key) else putInto cfg item a) s := by
  have hanswer : ∀ {r : StorePutResult} {t : Store},
      (r.status.isOk = true → (t.index.find item.key).isSome = true) → Answered [item] s [r] t :=
    fun h => answered_singleton (fun hsome => by rw [habs] at hsome; cases hsome) fun hok => .inr (h hok)
  refine wp_bind.mpr (wp_mono wp_any fun a s₁ _ => ?_)
  split
  · exact hanswer fun hok => by cases hok
  · refine wp_bind.mpr (wp_mono wp_any fun status s₂ _ => ?_)
    split
    · next hbad =>
      refine wp_perform trivial fun c _ s₃ h => hanswer fun hok => ?_
      have hok : status.isOk = true := hok
      rw [hok] at hbad
      cases hbad
    · refine wp_perform trivial fun c now s₃ h₃ => ?_
      refine wp_perform trivial fun c _ s₄ h₄ => ?_
      cases h₄
      refine wp_bind.mpr (wp_mono (index_notifyCommit _) fun _ t ht => hanswer fun _ => ?_)
      rw [ht]
      dsimp only
      rw [StoreMetaIndex.find_put, if_pos rfl]
      rfl

theorem answered_put (item : PutItem) (hs : s.index.Sound) :
    wp storeMachine (fun _ _ => True)
      (fun r t => Answered [item] s [r] t ∧ RecordsKept [item.key] s t) (put cfg item) s := by
  refine wp_perform trivial fun c found t hstep => ?_
  obtain ⟨hfound,ht⟩ := Prod.mk.inj (Option.some.inj hstep)
  have hsame : RecordsKept [item.key] s t := by
    intro k _ _
    rw [← ht]
    exact StoreMetaIndex.find_get_timeless s.index item.key c.now k
  cases hf : s.index.find item.key with
  | some record =>
    rw [hs.get_eq, hf] at hfound
    subst found
    exact ⟨answered_singleton (fun _ => rfl) fun _ => .inl (by rw [hf]; rfl),hsame⟩
  | none =>
    have habsent : ∀ t', RecordsKept [item.key] s t' := by
      intro t' k hk hsome
      rw [List.mem_singleton.mp hk, hf] at hsome
      cases hsome
    rw [hs.get_eq, hf] at hfound ht
    subst found t
    exact wp_mono (answered_put_absent hf) fun r t' h => ⟨h,habsent t'⟩

/-- Whether the present keys of a batch keep their records depends on what is evicted. -/
theorem recordsKept_iff_evictsBesides {dataPtrs : List (Option Bytes)} {sizes : List ℕ}
    {results : List StorePutResult} (hs : s.InOrder)
    (hlen : keys.length = dataPtrs.length ∧ keys.length = sizes.length)
    (he : Exec storeMachine (fun _ _ => True) (batchPut cfg keys dataPtrs sizes) s results t) :
    RecordsKept keys s t ↔
      Exec storeMachine (evictsBesides keys) (batchPut cfg keys dataPtrs sizes) s results t := by
  have hbatch := @answered_batchPut cfg s keys dataPtrs sizes hs hlen
  constructor
  · intro hkept
    exact (he.of_wp hbatch).1.of_not_spoilt (B := fun t => ¬ PresentKept keys s t)
      (fun hok hbad hs => not_presentKept_of_evicts hok.1 hbad hs)
      (fun hok hbad hs => not_presentKept_step hok.1 hbad hs) (not_not.mpr hkept.presentKept)
  · intro hbesides
    exact (hbesides.of_wp hbatch).1.keeps (fun hok h hs => h.step hok.1 hok.2 hs) fun _ _ _ => rfl

end StoreOps

open Store StoreOps in
/-- Run alone, a `Put` with a failed write undoes all it did. So does a batch, except that a key
which was present loses its record iff one was evicted when only keys of the batch were left. -/
theorem writesUndone_iff_evictsBesides {cfg : StoreConfig} {s : Store} {lost : Multiset ℕ}
    (hb : s.Books 0 lost) (ht : s.index.Tracked) :
    (∀ item r s' g, Exec recording (fun _ _ => True) (put cfg item) (s,0) r (s',g) →
      g .written ≠ g .granted → WritesUndone s lost [item.key] [r] s' g) ∧
    ∀ keys dataPtrs sizes results s' g,
      Exec recording (fun _ _ => True) (batchPut cfg keys dataPtrs sizes) (s,0) results (s',g) →
      g .written ≠ g .granted →
      (WritesUndone s lost keys results s' g ↔
        Exec storeMachine (evictsBesides keys) (batchPut cfg keys dataPtrs sizes) s results s') := by
  have hs : s.InOrder := ⟨ht,hb.wf.pos⟩
  refine ⟨fun item r s' g he hfail => ?_,fun keys dataPtrs sizes results s' g he hfail => ?_⟩
  · have hsolo : Solo False False (fun _ _ => True) (put cfg item) s := solo_put item ht.sound
    obtain ⟨g',hall,hend⟩ := deeds_of_exec hb (discharges_put item) (allOrNothing_put item) hsolo he
    obtain ⟨hanswered,hkept⟩ := (exec_of_recording (fun _ _ => True) he).ends (answered_put item ht.sound)
    exact writesUndone_of_recorded hend hall hfail hanswered hkept
  · have hsolo := @solo_batchPut cfg s keys dataPtrs sizes ht.sound
    obtain ⟨g',hall,hend⟩ := deeds_of_exec hb (discharges_batchPut _ _ _)
      (allOrNothing_batchPut _ _ _) hsolo he
    have hlen : keys.length = dataPtrs.length ∧ keys.length = sizes.length := by
      by_contra hne
      have hne : keys.length ≠ dataPtrs.length ∨ keys.length ≠ sizes.length := by omega
      unfold batchPut at he
      rw [if_pos hne] at he
      cases he
      exact hfail rfl
    have hbatch : Exec storeMachine (fun _ _ => True) (batchPut cfg keys dataPtrs sizes) s results s' :=
      exec_of_recording (fun _ _ => True) he
    have hkeys : (putItems keys dataPtrs sizes).map PutItem.key = keys :=
      map_key_putItems hlen.1 hlen.2
    have hanswered := hbatch.ends (answered_batchPut hs hlen)
    rw [← recordsKept_iff_evictsBesides hs hlen hbatch]
    refine ⟨fun h => h.kept,fun hkept => ?_⟩
    rw [← hkeys] at hkept
    have hundone := writesUndone_of_recorded hend hall hfail hanswered hkept
    rwa [hkeys] at hundone

open Release

def Release.batchFailing (check : Store → StoreCall → Bool) (keys : List Key) (s : Store) :
    Option (List StorePutResult × Store × Deeds) :=
  execWith recording (fun x op => check x.1 op)
    (StoreOps.batchPut twoSlots keys (keys.map fun _ => value 3) (keys.map fun _ => 8))
    (List.replicate 40 { transfer := .short (-1) "EIO" }) (s,0)

def Release.evictsNothing (_ : Store) : StoreCall → Bool
  | .indexRemove _ (some _) => false
  | _ => true

/-- A fresh store, on which both writes of a batch fail. -/
theorem writesUndone_iff_evictsBesides_fresh : ∃ (results : List StorePutResult) (s' : Store)
    (g : Deeds),
    results.map (fun r => r.status.isOk) = [false,false] ∧ g .freed = {0,8} ∧
    StoreOps.WritesUndone (Store.init twoSlots) 0 ["a","b"] results s' g := by
  have hrun : (batchFailing evictsNothing ["a","b"] (Store.init twoSlots)).map (fun x =>
      (x.1.map fun r => r.status.isOk,x.2.2 .written,x.2.2 .granted,x.2.2 .freed)) =
      some ([false,false],0,{0,8},{0,8}) := by rfl
  obtain ⟨⟨results,s',g⟩,hexec,hout⟩ := Option.map_eq_some_iff.mp hrun
  obtain ⟨hok,hout⟩ := Prod.mk.inj hout
  obtain ⟨hwritten,hout⟩ := Prod.mk.inj hout
  obtain ⟨hgranted,hfreed⟩ := Prod.mk.inj hout
  have he := exec_of_execWith hexec
  have hbesides : Exec storeMachine (evictsBesides ["a","b"])
      (StoreOps.batchPut twoSlots ["a","b"] [value 3,value 3] [8,8]) (Store.init twoSlots) results
      s' := by
    have hnone : Exec storeMachine (fun s op => evictsNothing s op = true)
        (StoreOps.batchPut twoSlots ["a","b"] [value 3,value 3] [8,8]) (Store.init twoSlots) results
        s' := exec_of_recording (fun s op => evictsNothing s op = true) he
    refine hnone.ok_mono fun s op hop => ?_
    cases op with
    | indexRemove key snapshot =>
      cases snapshot with
      | none => trivial
      | some snapshot => cases hop
    | _ => trivial
  have hfail : g .written ≠ g .granted := by
    have hwritten : g .written = 0 := hwritten
    have hgranted : g .granted = {0,8} := hgranted
    rw [hwritten, hgranted]
    decide
  refine ⟨results,s',g,hok,hfreed,?_⟩
  exact ((writesUndone_iff_evictsBesides (Store.books_init (by decide))
    StoreMetaIndex.tracked_create).2 _ _ _ _ _ _ (he.ok_mono fun _ _ _ => trivial) hfail).mpr hbesides

/-- Both slots are taken by keys of the batch: one of these is evicted for the new key, and
acknowledged although the batch fails. -/
theorem exists_exec_not_writesUndone : ∃ (s : Store) (results : List StorePutResult) (s' : Store)
    (g : Deeds), SerialRun twoSlots (fun _ _ _ _ => True) s ∧
    Exec recording (fun _ _ => True)
      (StoreOps.batchPut twoSlots ["a","b","c"] [value 3,value 3,value 3] [8,8,8]) (s,0) results
      (s',g) ∧
    g .written = 0 ∧ g .granted = {0} ∧ results.map (fun r => r.status.isOk) = [true,true,false] ∧
    s'.index.find "a" = none ∧
    ∀ lost, ¬ StoreOps.WritesUndone s lost ["a","b","c"] results s' g := by
  obtain ⟨s,hrun,hs⟩ := Store.serialRun_of_script twoSlots (fun _ _ => true) storedTwo
    (f := fun s => (batchFailing (fun _ _ => true) ["a","b","c"] s).map fun x =>
      (x.2.2 .written,x.2.2 .granted,x.1.map fun r => r.status.isOk,(s.index.find "a").isSome,
        (x.2.1.index.find "a").isNone))
    (v := some (0,{0},[true,true,false],true,true)) rfl
  obtain ⟨⟨results,s',g⟩,hexec,hout⟩ := Option.map_eq_some_iff.mp hs
  obtain ⟨hwritten,hout⟩ := Prod.mk.inj hout
  obtain ⟨hgranted,hout⟩ := Prod.mk.inj hout
  obtain ⟨hok,hout⟩ := Prod.mk.inj hout
  obtain ⟨hsome,hnone⟩ := Prod.mk.inj hout
  have hgone : s'.index.find "a" = none := Option.isNone_iff_eq_none.mp hnone
  refine ⟨s,results,s',g,Store.serialRun_mono (fun _ _ _ _ _ => trivial) hrun,
    (exec_of_execWith hexec).ok_mono fun _ _ _ => trivial,hwritten,hgranted,hok,hgone,
    fun lost h => ?_⟩
  have hkept := h.kept.presentKept "a" (by simp) hsome
  rw [hgone] at hkept
  cases hkept

end FalconKV
