import FalconKV.Common.Bindings
import FalconKV.Store.Extents

/-! # What a store contains

The value of a key is what lies in the data file under its record. Next to a store,
`Mirror` binds keys as the insertions and removals say; as long as no candidate list is
stale and no write leaves its slot, what the store contains is its mirror image.
-/
namespace FalconKV
open AtomicCalls

/-- The first bytes behind a pointer. -/
def bytesOf (data : Bytes) (size : ℕ) : List UInt8 := (List.range size).map data

@[simp] theorem length_bytesOf (data : Bytes) (size : ℕ) : (bytesOf data size).length = size := by
  simp [bytesOf]

theorem bytesOf_congr {d d' : Bytes} {size : ℕ} (h : ∀ i < size, d i = d' i) :
    bytesOf d size = bytesOf d' size := by
  apply List.map_congr_left
  intro i hi
  exact h i (List.mem_range.mp hi)

theorem bytesOf_take {d : Bytes} {size n : ℕ} (h : size ≤ n) :
    (bytesOf d n).take size = bytesOf d size := by
  simp [bytesOf, ← List.map_take, List.take_range, Nat.min_eq_left h]

abbrev KeyBindings := Bindings Key (List UInt8)

namespace Store

def valueOf (s : Store) (rec : StoreKeyRecord) : List UInt8 :=
  bytesOf (fun i => s.file (rec.offset + i)) rec.size

def contents (s : Store) : KeyBindings := fun key => (s.index.find key).map s.valueOf

@[simp] theorem contents_init (cfg : StoreConfig) : (init cfg).contents = Bindings.empty := rfl

variable {s s' : Store} {op : StoreCall} {c : StoreChoice} {r : op.Res}
  {used made rest held : Multiset Holding} {lost : Multiset ℕ} {key : Key}

/-- Access times are not part of what a store contains. -/
theorem contents_congr (hfind : (s'.index.find key).map StoreKeyRecord.timeless =
      (s.index.find key).map StoreKeyRecord.timeless)
    (hfile : ∀ rec, s.index.find key = some rec → ∀ i < rec.size,
      s'.file (rec.offset + i) = s.file (rec.offset + i)) : s'.contents key = s.contents key := by
  simp only [contents]
  cases hf : s.index.find key with
  | none =>
    rw [hf] at hfind
    rw [Option.map_eq_none_iff.mp hfind, Option.map_none, Option.map_none]
  | some rec =>
    rw [hf] at hfind
    obtain ⟨rec',hrec',htime⟩ := Option.map_eq_some_iff.mp hfind
    have hoff : rec'.offset = rec.offset := by
      have htime := congrArg StoreKeyRecord.offset htime
      exact htime
    have hsize : rec'.size = rec.size := by
      have htime := congrArg StoreKeyRecord.size htime
      exact htime
    rw [hrec', Option.map_some, Option.map_some, valueOf, valueOf, hoff, hsize]
    exact congrArg some (bytesOf_congr (hfile rec hf))

/-- What was read in full are the bytes of the data file. -/
theorem bytesOf_readInto (file : Bytes) (offset size : ℕ) (garbage : Bytes) :
    bytesOf (readInto file offset size garbage) size = bytesOf (fun i => file (offset + i)) size := by
  apply bytesOf_congr
  intro i hi
  have hlt : (i : ℤ) < size := by omega
  exact if_pos hlt

theorem bytesOf_pread {offset size : ℕ} {reader : Key} {r : Transferred × Bytes}
    (hs : s.step (.pread offset size reader) c = some (r,s')) (hr : r.1.count = size) :
    bytesOf r.2 size = bytesOf (fun i => s.file (offset + i)) size := by
  obtain ⟨x,hx,he⟩ := Option.map_eq_some_iff.mp hs
  obtain rfl : x = r := congrArg Prod.fst he
  unfold pread at hx
  split at hx
  · rw [← Option.some.inj hx]
    exact bytesOf_readInto _ _ _ _
  · split at hx
    · next hshort =>
      rw [← Option.some.inj hx] at hr
      dsimp only at hr
      omega
    · cases hx

theorem bytesOf_uringRead {offset size : ℕ} {reader : Key} {r : Status × Bytes}
    (hs : s.step (.uringRead offset size reader) c = some (r,s')) (hr : r.1.isOk = true) :
    bytesOf r.2 size = bytesOf (fun i => s.file (offset + i)) size := by
  obtain rfl : s.uringRead c offset size = r := congrArg Prod.fst (Option.some.inj hs)
  unfold uringRead at hr ⊢
  split
  · exact bytesOf_readInto _ _ _ _
  · next heq =>
    rw [heq] at hr
    cases hr

def Written (s : Store) (held : Multiset Holding) : Prop :=
  ∀ o n d size, Holding.filled o n d size ∈ held → ∀ i < size, s.file (o + i) = d i

/-- The slots that a thread does not use in a call are apart from those that it uses. -/
theorem Books.apart_used {x : Holding} {o : ℕ} (h : Books s (used + rest) lost) (hx : x ∈ used)
    (ho : o ∈ s.index.offsets + s.pending.offsets + rest.map Holding.offset) :
    o + s.allocator.slotSize ≤ x.offset ∨ x.offset + s.allocator.slotSize ≤ o := by
  have hown := (Multiset.nodup_add.mp (Multiset.nodup_add.mp h.nodup).1).1
  have hsplit : s.index.offsets + s.pending.offsets + (used + rest).map Holding.offset =
      used.map Holding.offset +
        (s.index.offsets + s.pending.offsets + rest.map Holding.offset) := by
    rw [Multiset.map_add]
    abel
  have hmem : o ∈ s.allocator.handedOut := by
    rw [← h.balance, hsplit]
    simp only [Multiset.mem_add] at ho ⊢
    tauto
  rw [hsplit] at hown
  have hne : o ≠ x.offset := by
    rintro rfl
    have hdisjoint := (Multiset.nodup_add.mp hown).2.2
    exact Multiset.disjoint_left.mp hdisjoint (Multiset.mem_map_of_mem _ hx) ho
  exact SlotAllocator.apart_of_ne hmem (h.mem_handedOut (Multiset.mem_add.mpr (.inl hx))) hne

/-- A call changes no byte of a slot that is owned and not used in it. -/
theorem Books.file_owned {o i : ℕ} (h : Books s (used + rest) lost)
    (hwrite : s.writeFits op = true) (hs : s.step op c = some (r,s'))
    (hr : Custody.rule op r used made)
    (ho : o ∈ s.index.offsets + s.pending.offsets + rest.map Holding.offset)
    (hi : i < s.allocator.slotSize) : s'.file (o + i) = s.file (o + i) := by
  apply file_step hs
  intro hw
  obtain ⟨x,hx,-,hlo,hhi⟩ := writes_used hwrite hr hw
  have hapart := h.apart_used hx ho
  omega

/-- A full write leaves its data in the file. -/
theorem written_pwrite {offset size : ℕ} {data : Option Bytes} {r : Transferred}
    (hs : s.pwrite c offset data size = some (r,s')) (hr : r.count = size) :
    ∀ d, data = some d → ∀ i < size, s'.file (offset + i) = d i := by
  rintro d rfl i hi
  unfold pwrite at hs
  split at hs
  · next heq =>
    cases heq
    cases hs
    simp [overwrite, hi]
  · next heq =>
    cases heq
  · split at hs
    · cases hs
      dsimp only at hr
      omega
    · cases hs

theorem written_uringWrite {offset size : ℕ} {data : Option Bytes} {r : Status}
    (hs : s.uringWrite c offset data size = some (r,s')) (hr : r.isOk = true) :
    ∀ d, data = some d → ∀ i < size, s'.file (offset + i) = d i := by
  rintro d rfl i hi
  unfold uringWrite at hs
  split at hs
  · next heq =>
    cases heq
    cases hs
    simp [overwrite, hi]
  · next heq =>
    cases heq
  · cases hs
    cases hr

/-- What a call makes is in the file, if it is marked as written. -/
theorem written_made (hs : s.step op c = some (r,s')) (hr : Custody.rule op r used made) :
    Written s' made := by
  intro o n d size hx i hi
  cases op with
  | pwrite offset data size' =>
    obtain ⟨m,-,rfl⟩ := hr
    rw [Multiset.mem_singleton] at hx
    cases hcount : r.count == (size' : ℤ) with
    | false =>
      rw [hcount] at hx
      cases hx
    | true =>
      rw [hcount] at hx
      cases data with
      | none => cases hx
      | some d' =>
        cases hx
        exact written_pwrite hs (beq_iff_eq.mp hcount) d rfl i hi
  | uringWrite offset data size' =>
    obtain ⟨m,-,rfl⟩ := hr
    rw [Multiset.mem_singleton] at hx
    cases hok : Status.isOk r with
    | false =>
      rw [hok] at hx
      cases hx
    | true =>
      rw [hok] at hx
      cases data with
      | none => cases hx
      | some d' =>
        cases hx
        exact written_uringWrite hs hok d rfl i hi
  | alloc size' =>
    obtain ⟨-,rfl⟩ := hr
    unfold grantedOf at hx
    split at hx
    · cases hx
    · cases Multiset.mem_singleton.mp hx
  | batchAlloc size' count =>
    obtain ⟨-,rfl⟩ := hr
    obtain ⟨o',-,he⟩ := List.mem_map.mp (Multiset.mem_coe.mp hx)
    cases he
  | takeExpired now =>
    obtain ⟨-,rfl⟩ := hr
    obtain ⟨e,-,he⟩ := List.mem_map.mp (Multiset.mem_coe.mp hx)
    cases he
  | takeAll =>
    obtain ⟨-,rfl⟩ := hr
    obtain ⟨e,-,he⟩ := List.mem_map.mp (Multiset.mem_coe.mp hx)
    cases he
  | indexRemove key snapshot =>
    obtain ⟨-,rfl⟩ := hr
    cases r with
    | none => cases hx
    | some rec => cases Multiset.mem_singleton.mp hx
  | indexPut key record data | enqueue key offset m | free offset m =>
    obtain ⟨rfl,-⟩ := hr
    cases hx
  | _ =>
    obtain ⟨-,rfl⟩ := hr
    cases hx

theorem Written.step (h : Written s (used + rest)) (hbooks : Books s (used + rest) lost)
    (hfit : Fitting s (used + rest)) (hwrite : s.writeFits op = true)
    (hs : s.step op c = some (r,s')) (hr : Custody.rule op r used made) :
    Written s' (made + rest) := by
  intro o n d size hx i hi
  rcases Multiset.mem_add.mp hx with hx | hx
  · exact written_made hs hr o n d size hx i hi
  · have hheld : Holding.filled o n d size ∈ used + rest := Multiset.mem_add.mpr (.inr hx)
    have hfits : size ≤ n := hfit.holdings _ hheld
    have hslot : n = s.allocator.slotSize := hbooks.heldSize _ hheld
    have hown : o ∈ rest.map Holding.offset := Multiset.mem_map_of_mem Holding.offset hx
    rw [hbooks.file_owned hwrite hs hr (Multiset.mem_add.mpr (.inr hown)) (by omega)]
    exact h o n d size hheld i hi

end Store

/-- What a call does to the bindings. -/
def Mirror.note : (op : StoreCall) → op.Res → Store → KeyBindings → KeyBindings
  | .indexPut key record (some d), _, _, m => m.bind key (bytesOf d record.size)
  | .indexRemove key _, _, _, m => m.unbind key
  | _, _, _, m => m

def mirrored : Machine storeCalls (Store × KeyBindings) := storeMachine.withRecord Mirror.note

namespace Store

def quiet (op : StoreCall) : Prop := op.isPut = false ∧ op.isRemove = false

theorem Mirror.note_of_quiet {m : KeyBindings} (h : quiet op) : Mirror.note op r s m = m := by
  cases op with
  | indexPut => cases h.1
  | indexRemove => cases h.2
  | _ => rfl

/-- Apart from insertions, calls only unbind. -/
theorem Mirror.restricts_note {m : KeyBindings} (h : op.isPut = false) :
    m.Restricts (Mirror.note op r s m) := by
  cases op with
  | indexPut => cases h
  | indexRemove key snapshot => exact Bindings.restricts_unbind m key
  | _ => exact .refl m

structure Intact (s : Store) (held : Multiset Holding) : Prop where
  tidy : Tidy s held
  written : Written s held

theorem intact_init {cfg : StoreConfig} (hcap : cfg.capacityBytes < 2^63) : Intact (init cfg) 0 :=
  ⟨⟨⟨0,books_init hcap⟩,fitting_init⟩,by intro o n d size hx; cases hx⟩

theorem Intact.step (h : Intact s (used + rest)) (hok : s.wellSized op = true)
    (hs : s.step op c = some (r,s')) (hr : Custody.rule op r used made) :
    Intact s' (made + rest) := by
  obtain ⟨⟨lost,hbooks⟩,hfit⟩ := h.tidy
  have hwrite := (Bool.and_eq_true_iff.mp hok).2
  exact ⟨keeps_tidy.step [] 0 h.tidy hok hs hr,h.written.step hbooks hfit hwrite hs hr⟩

/-- A record is stored over the bytes that were written for it. -/
theorem Intact.contents_put {record : StoreKeyRecord} {d : Bytes}
    (h : Intact s ({.filled record.offset record.allocSize d record.size} + rest))
    (hkey : record.key = key) :
    { s with index := s.index.put key record }.contents =
      s.contents.bind key (bytesOf d record.size) := by
  have hwritten := h.written record.offset record.allocSize d record.size (by simp)
  funext k
  rw [Bindings.bind_apply]
  simp only [contents, StoreMetaIndex.find_put, h.tidy.sound.stored_eq hkey]
  split
  · exact congrArg some (bytesOf_congr hwritten)
  · rfl

/-- What a call does to the contents of a store. -/
theorem Intact.contents_step (h : Intact s (used + rest)) (hok : s.wellSized op = true)
    (hs : s.step op c = some (r,s')) (hr : Custody.rule op r used made) :
    s'.contents = Mirror.note op r s s.contents := by
  have hwrite := (Bool.and_eq_true_iff.mp hok).2
  have hspares := h.tidy.sparesLive hwrite hr c r s' hs
  cases hop : op.isPut with
  | true =>
    cases op with
    | indexPut key record data =>
      obtain ⟨-,hkey,-,d,rfl,rfl⟩ := hr
      cases hs
      exact h.contents_put hkey
    | _ => cases hop
  | false =>
    cases hrem : op.isRemove with
    | true =>
      cases op with
      | indexRemove key snapshot =>
        cases hs
        funext k
        simp only [Mirror.note, Bindings.unbind_apply, contents, StoreMetaIndex.find_remove]
        split <;> rfl
      | _ => cases hrem
    | false =>
      rw [Mirror.note_of_quiet ⟨hop,hrem⟩]
      funext k
      have hindex := index_step hs
      cases hindex with
      | put => cases hop
      | remove => cases hrem
      | keep _ _ hsame => exact contents_congr (hsame.find k) (hspares k)

structure Mirrored (x : Store × KeyBindings) (held : Multiset Holding) : Prop where
  intact : Intact x.1 held
  contents : x.1.contents = x.2

theorem keeps_mirrored : Keeps mirrored custody (fun x op => x.1.wellSized op = true)
    fun _ => Mirrored where
  guar := by
    intro tr x op c r x' held h hok hs
    obtain ⟨hstep,-⟩ := Machine.withRecord_step hs
    exact keeps_tidy.guar [] h.intact.tidy hok hstep
  step := by
    intro tr i x op c r x' used made rest h hok hs hr
    obtain ⟨hstep,hnote⟩ := Machine.withRecord_step hs
    refine ⟨h.intact.step hok hstep hr,?_⟩
    rw [hnote, ← h.contents]
    exact h.intact.contents_step hok hstep hr

end Store

end FalconKV
