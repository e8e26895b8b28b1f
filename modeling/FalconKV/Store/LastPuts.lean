import FalconKV.Store.Contents

/-! # What was last stored under a key

Next to a store, `LastPut` says where the last insertion of each key has put its value, and
whether the slot was written again since. As long as evictions act on current snapshots and
writes stay in their slots, a slot that was not written again has the value, no matter whether
its key is still in the index.
-/
namespace FalconKV
open AtomicCalls

structure LastPut where
  offset : ℕ
  value : List UInt8
  /-- nothing was written into the slot since -/
  standing : Bool
  deriving DecidableEq, Repr

abbrev LastPuts := Key → Option LastPut

namespace LastPut

def rewrite (offset : ℕ) (put : LastPut) : LastPut :=
  if put.offset = offset then { put with standing := false } else put

/-- Removals do not count: a key that was evicted was still last stored where it was. -/
def note : StoreCall → LastPuts → LastPuts
  | .indexPut key record (some d), puts =>
    Function.update puts key (some ⟨record.offset,bytesOf d record.size,true⟩)
  | .pwrite offset _ _, puts => fun key => (puts key).map (rewrite offset)
  | .uringWrite offset _ _, puts => fun key => (puts key).map (rewrite offset)
  | _, puts => puts

def Stands (puts : LastPuts) (key : Key) (offset : ℕ) : Prop :=
  ∃ put, puts key = some put ∧ put.offset = offset ∧ put.standing = true

def outdates (key : Key) (offset : ℕ) : StoreCall → Bool
  | .pwrite written _ _ | .uringWrite written _ _ => written == offset
  | .indexPut k record _ => k == key && record.offset != offset
  | _ => false

variable {put put' : LastPut} {offset : ℕ} {puts : LastPuts} {key : Key}

theorem Stands.note {op : StoreCall} (h : Stands puts key offset) (hop : outdates key offset op = false) :
    Stands (note op puts) key offset := by
  obtain ⟨put,hput,hoffset,hstanding⟩ := h
  have hwrite : ∀ written, (written == offset) = false →
      Stands (fun key => (puts key).map (rewrite written)) key offset := by
    intro written hne
    have hkeeps : rewrite written put = put := by
      rw [rewrite, if_neg]
      rw [hoffset]
      exact fun heq => (beq_eq_false_iff_ne.mp hne) heq.symm
    refine ⟨put,?_,hoffset,hstanding⟩
    dsimp only
    rw [hput, Option.map_some, hkeeps]
  cases op with
  | pwrite written data size => exact hwrite written hop
  | uringWrite written data size => exact hwrite written hop
  | indexPut k record data =>
    cases data with
    | none => exact ⟨put,hput,hoffset,hstanding⟩
    | some d =>
      by_cases hk : key = k
      · subst hk
        have hsame : record.offset = offset := by simpa [outdates] using hop
        exact ⟨_,Function.update_self .., hsame,rfl⟩
      · exact ⟨put,(Function.update_of_ne hk _ _).trans hput,hoffset,hstanding⟩
  | _ => exact ⟨put,hput,hoffset,hstanding⟩

theorem of_rewrite (h : rewrite offset put = put') (hstanding : put'.standing = true) :
    put = put' ∧ put.offset ≠ offset := by
  unfold rewrite at h
  split at h
  · rw [← h] at hstanding
    cases hstanding
  · next hne => exact ⟨h,hne⟩

end LastPut

namespace Store

variable {s s' : Store} {op : StoreCall} {c : StoreChoice} {r : op.Res}
  {used made rest held : Multiset Holding} {lost : Multiset ℕ} {key : Key} {put : LastPut}
  {puts : LastPuts}

structure Holds (s : Store) (put : LastPut) : Prop where
  initialized : s.allocator.initialized = true
  aligned : s.allocator.slotSize ∣ put.offset
  fits : put.value.length ≤ s.allocator.slotSize
  bytes : bytesOf (fun i => s.file (put.offset + i)) put.value.length = put.value

/-- A call that does not write into the slot. -/
theorem Holds.step (h : s.Holds put) (hs : s.step op c = some (r,s'))
    (hop : ∀ i < s.allocator.slotSize, ¬ op.Writes (put.offset + i)) : s'.Holds put := by
  obtain ⟨hinit,hsize⟩ := sizeKept_step hs h.initialized
  have hfile : bytesOf (fun i => s'.file (put.offset + i)) put.value.length =
      bytesOf (fun i => s.file (put.offset + i)) put.value.length := by
    apply bytesOf_congr
    intro i hi
    exact file_step hs (hop i (hi.trans_le h.fits))
  constructor
  · exact hinit
  · rw [hsize]
    exact h.aligned
  · rw [hsize]
    exact h.fits
  · rw [hfile]
    exact h.bytes

/-- Two slots that have a byte in common are the same. -/
theorem eq_of_overlap {n o o' i : ℕ} (ho : n ∣ o) (ho' : n ∣ o') (hi : i < n) (hle : o' ≤ o + i)
    (hlt : o + i < o' + n) : o' = o := by
  obtain ⟨a,rfl⟩ := ho
  obtain ⟨b,rfl⟩ := ho'
  rcases Nat.lt_trichotomy a b with hab | rfl | hab
  · have hmul : n * (a + 1) ≤ n * b := Nat.mul_le_mul_left n hab
    rw [Nat.mul_succ] at hmul
    omega
  · rfl
  · have hmul : n * (b + 1) ≤ n * a := Nat.mul_le_mul_left n hab
    rw [Nat.mul_succ] at hmul
    omega

/-- A write into a slot is made at its offset. -/
theorem Books.slot_of_writes {i o : ℕ} (h : Books s (used + rest) lost)
    (hwrite : s.writeFits op = true) (hr : Custody.rule op r used made)
    (ho : s.allocator.slotSize ∣ o) (hi : i < s.allocator.slotSize) (hw : op.Writes (o + i)) :
    ∃ x ∈ used, x.offset = o := by
  obtain ⟨x,hx,-,hlo,hhi⟩ := writes_used hwrite hr hw
  obtain ⟨slot,-,hslot⟩ :=
    SlotAllocator.mem_handedOut.mp (h.mem_handedOut (Multiset.mem_add.mpr (.inl hx)))
  refine ⟨x,hx,eq_of_overlap ho ?_ hi hlo hhi⟩
  rw [← hslot]
  exact Nat.dvd_mul_left _ _

structure Remembering (s : Store) (puts : LastPuts) (held : Multiset Holding) : Prop where
  intact : Intact s held
  holds : ∀ key put, puts key = some put → put.standing = true → s.Holds put
  recorded : ∀ key rec, s.index.find key = some rec → LastPut.Stands puts key rec.offset

theorem remembering_init {cfg : StoreConfig} (hcap : cfg.capacityBytes < 2^63) :
    Remembering (init cfg) (fun _ => none) 0 where
  intact := intact_init hcap
  holds := by
    intro key put h
    cases h
  recorded := by
    intro key rec h
    cases h

/-- What an insertion stores is in the slot that was written for it. -/
theorem Intact.holds_put {record : StoreKeyRecord} {d : Bytes}
    (h : Intact s ({.filled record.offset record.allocSize d record.size} + rest)) :
    s.Holds ⟨record.offset,bytesOf d record.size,true⟩ := by
  obtain ⟨⟨lost,hbooks⟩,hfit⟩ := h.tidy
  have hheld : Holding.filled record.offset record.allocSize d record.size ∈
      ({.filled record.offset record.allocSize d record.size} + rest : Multiset Holding) :=
    Multiset.mem_add.mpr (.inl (Multiset.mem_singleton_self _))
  obtain ⟨slot,hlt,hslot⟩ := SlotAllocator.mem_handedOut.mp (hbooks.mem_handedOut hheld)
  have hsize : record.allocSize = s.allocator.slotSize := hbooks.heldSize _ hheld
  have hfits : record.size ≤ record.allocSize := hfit.holdings _ hheld
  constructor
  · exact hbooks.wf.initialized_of_next_pos (by omega)
  · exact ⟨slot,by rw [mul_comm]; exact hslot.symm⟩
  · rw [length_bytesOf]
    omega
  · rw [length_bytesOf]
    exact bytesOf_congr (h.written _ _ _ _ hheld)

theorem Remembering.holds_step (h : Remembering s puts (used + rest)) (hok : s.wellSized op = true)
    (hs : s.step op c = some (r,s')) (hr : Custody.rule op r used made) :
    ∀ key put, LastPut.note op puts key = some put → put.standing = true → s'.Holds put := by
  obtain ⟨⟨lost,hbooks⟩,-⟩ := h.intact.tidy
  have hwrite := (Bool.and_eq_true_iff.mp hok).2
  have hwritten : ∀ {offset n : ℕ} {key : Key} {put : LastPut}, used = {.blank offset n} →
      (puts key).map (LastPut.rewrite offset) = some put → put.standing = true → s'.Holds put := by
    intro offset n key put hused hnote hstanding
    obtain ⟨put₀,hput,hrewrite⟩ := Option.map_eq_some_iff.mp hnote
    obtain ⟨rfl,hne⟩ := LastPut.of_rewrite hrewrite hstanding
    have hholds := h.holds key put₀ hput hstanding
    apply hholds.step hs
    intro i hi hw
    obtain ⟨x,hx,hoffset⟩ := hbooks.slot_of_writes hwrite hr hholds.aligned hi hw
    rw [hused] at hx
    rw [Multiset.mem_singleton.mp hx] at hoffset
    exact hne hoffset.symm
  intro key put hnote hstanding
  cases op with
  | indexPut k record data =>
    obtain ⟨-,-,-,d,rfl,rfl⟩ := hr
    dsimp only [LastPut.note] at hnote
    have hquiet : ∀ i < s.allocator.slotSize,
        ¬ (StoreCall.indexPut k record (some d)).Writes (put.offset + i) := fun _ _ => id
    by_cases hk : key = k
    · subst hk
      rw [Function.update_self] at hnote
      cases hnote
      exact h.intact.holds_put.step hs hquiet
    · rw [Function.update_of_ne hk] at hnote
      exact (h.holds key put hnote hstanding).step hs hquiet
  | pwrite offset data size =>
    obtain ⟨n,hused,-⟩ := hr
    exact hwritten hused hnote hstanding
  | uringWrite offset data size =>
    obtain ⟨n,hused,-⟩ := hr
    exact hwritten hused hnote hstanding
  | _ => exact (h.holds key put hnote hstanding).step hs fun _ _ => id

/-- A write does not go to a slot that is recorded. -/
theorem Books.ne_of_recorded {rec : StoreKeyRecord} {offset n : ℕ}
    (h : Books s ({.blank offset n} + rest) lost) (hrec : s.index.find key = some rec) :
    rec.offset ≠ offset := by
  rintro rfl
  have hown := (Multiset.nodup_add.mp (Multiset.nodup_add.mp h.nodup).1).1
  have hapart := (Multiset.nodup_add.mp hown).2.2
  have hheld : rec.offset ∈ ({Holding.blank rec.offset n} + rest : Multiset Holding).map Holding.offset := by
    rw [Multiset.map_add, Multiset.map_singleton]
    exact Multiset.mem_add.mpr (.inl (Multiset.mem_singleton_self _))
  have hindex : rec.offset ∈ s.index.offsets + s.pending.offsets :=
    Multiset.mem_add.mpr (.inl (StoreMetaIndex.mem_offsets hrec))
  exact Multiset.disjoint_left.mp hapart hindex hheld

theorem Remembering.recorded_step (h : Remembering s puts (used + rest))
    (hs : s.step op c = some (r,s')) (hr : Custody.rule op r used made) :
    ∀ key rec, s'.index.find key = some rec → LastPut.Stands (LastPut.note op puts) key rec.offset := by
  obtain ⟨⟨lost,hbooks⟩,-⟩ := h.intact.tidy
  intro key rec hrec
  have hkept : ∀ {m : StoreMetaIndex}, (m.find key).map StoreKeyRecord.timeless =
      (s.index.find key).map StoreKeyRecord.timeless → m.find key = some rec →
      ∃ old, s.index.find key = some old ∧ old.offset = rec.offset := by
    intro m hsame hm
    rw [hm] at hsame
    obtain ⟨old,hold,htime⟩ := Option.map_eq_some_iff.mp hsame.symm
    have hoffset := congrArg StoreKeyRecord.offset htime
    exact ⟨old,hold,hoffset⟩
  cases hput : op.isPut with
  | true =>
    cases op with
    | indexPut k record data =>
      obtain ⟨-,hkey,-,d,rfl,rfl⟩ := hr
      cases hs
      rw [StoreMetaIndex.find_put] at hrec
      split at hrec
      · next hk =>
        subst hk
        cases hrec
        exact ⟨_,Function.update_self ..,rfl,rfl⟩
      · next hk =>
        obtain ⟨put,hput,hrest⟩ := h.recorded key rec hrec
        exact ⟨put,(Function.update_of_ne hk _ _).trans hput,hrest⟩
    | _ => cases hput
  | false =>
    have hold : ∃ old, s.index.find key = some old ∧ old.offset = rec.offset := by
      have hindex := index_step hs
      cases hindex with
      | put => cases hput
      | remove k snapshot hremove =>
        rw [hremove, StoreMetaIndex.find_remove] at hrec
        split at hrec
        · cases hrec
        · exact ⟨rec,hrec,rfl⟩
      | keep _ _ hsame => exact hkept (hsame.find key) hrec
    obtain ⟨old,hold,hoffset⟩ := hold
    have hstands := h.recorded key old hold
    rw [hoffset] at hstands
    apply hstands.note
    cases op with
    | indexPut => cases hput
    | pwrite written data size =>
      obtain ⟨n,rfl,-⟩ := hr
      have hne := hbooks.ne_of_recorded hold
      rw [hoffset] at hne
      exact beq_eq_false_iff_ne.mpr hne.symm
    | uringWrite written data size =>
      obtain ⟨n,rfl,-⟩ := hr
      have hne := hbooks.ne_of_recorded hold
      rw [hoffset] at hne
      exact beq_eq_false_iff_ne.mpr hne.symm
    | _ => rfl

theorem Remembering.step (h : Remembering s puts (used + rest)) (hok : s.wellSized op = true)
    (hs : s.step op c = some (r,s')) (hr : Custody.rule op r used made) :
    Remembering s' (LastPut.note op puts) (made + rest) :=
  ⟨h.intact.step hok hs hr,h.holds_step hok hs hr,h.recorded_step hs hr⟩

/-- The first bytes of a slot are those of the value. -/
theorem Holds.take {n : ℕ} (h : s.Holds put) (hn : n ≤ put.value.length) :
    bytesOf (fun i => s.file (put.offset + i)) n = put.value.take n := by
  rw [← bytesOf_take hn, h.bytes]

end Store

end FalconKV
