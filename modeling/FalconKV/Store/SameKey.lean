import FalconKV.Store.Release

/-! # Concurrent puts of one key

The check that a key is absent and the insertion of its record are separate critical
sections. In runs in which every insertion still finds its key absent, the first call
that inserts a key is the only one, and every other slot that was taken for it has
gone back to the allocator.
-/
namespace FalconKV
open AtomicCalls

def Sighting.rule : (op : StoreCall) → op.Res → Multiset Key → Multiset Key → Prop
  | .indexGet key, found, used, made => used = 0 ∧ made = if found.isSome then {key} else 0
  | .indexPut key _ _, _, used, made => used = 0 ∧ made = {key}
  | _, _, used, made => used = 0 ∧ made = 0

def sightings : Discipline storeCalls (Multiset Key) := ⟨Custody.guar,Sighting.rule⟩

namespace StoreOps

variable {cfg : StoreConfig} {α β : Type} {post : β → Multiset Key → Prop}

theorem sighting_exists (op : StoreCall) (r : op.Res) : ∃ made, Sighting.rule op r 0 made := by
  cases op <;> exact ⟨_,rfl,rfl⟩

theorem sighting_used {op : StoreCall} {r : op.Res} {used made : Multiset Key}
    (h : Sighting.rule op r used made) : used = 0 := by
  cases op <;> exact h.1

/-- Knowledge only grows. -/
theorem seen_grows (p : StoreProg α) (g : Multiset Key) :
    Uses sightings (fun _ g' => g ≤ g') p g := by
  induction p generalizing g with
  | ret a => exact le_refl g
  | call op k ih =>
    intro r _
    obtain ⟨made,hmade⟩ := sighting_exists op r
    refine ⟨0,made,g,hmade,(zero_add g).symm,uses_mono (ih r (made + g)) ?_⟩
    intro _ g' hg'
    exact (Multiset.le_add_left g made).trans hg'

/-- A post that does not mention the knowledge, and growth. -/
theorem seen_grows_and {Q : α → Prop} {p : StoreProg α} {g : Multiset Key}
    (h : Uses sightings (fun a _ => Q a) p g) :
    Uses sightings (fun a g' => g ≤ g' ∧ Q a) p g := by
  induction p generalizing g with
  | ret a => exact ⟨le_refl g,h⟩
  | call op k ih =>
    intro r hr
    obtain ⟨used,made,rest,hrule,rfl,hk⟩ := h r hr
    obtain rfl := sighting_used hrule
    refine ⟨0,made,rest,hrule,rfl,uses_mono (ih r hk) ?_⟩
    rintro a g' ⟨hg,hQ⟩
    rw [zero_add]
    exact ⟨(Multiset.le_add_left _ _).trans hg,hQ⟩

/-- Whatever the first program does, the second one knows at least as much. -/
theorem seen_then {p : StoreProg α} {k : α → StoreProg β} {g : Multiset Key}
    (h : ∀ a g', g ≤ g' → Uses sightings post (k a) g') : Uses sightings post (p >>= k) g :=
  uses_bind (uses_mono (seen_grows p g) h)

theorem seen_invoke {op : StoreCall} {k : op.Res → StoreProg β} {g : Multiset Key}
    (h : ∀ r made, Custody.guar op r → Sighting.rule op r 0 made →
      Uses sightings post (k r) (made + g)) : Uses sightings post (invoke op >>= k) g := by
  intro r hr
  obtain ⟨made,hmade⟩ := sighting_exists op r
  exact ⟨0,made,g,hmade,(zero_add g).symm,h r made hr hmade⟩

theorem seen_put (item : PutItem) (g : Multiset Key) :
    Uses sightings (fun r g' => r.status.isOk = true → item.key ∈ g') (put cfg item) g := by
  refine seen_invoke fun found made _ hmade => ?_
  obtain ⟨-,rfl⟩ := hmade
  split
  · intro _
    simp
  · refine seen_then fun a g₁ _ => ?_
    split
    · exact fun h => absurd h (by simp [outOfSpace])
    · refine seen_then fun s g₂ _ => ?_
      split
      · next hs =>
        refine seen_then fun _ _ _ h => ?_
        simp [h] at hs
      · refine seen_then fun now g₃ _ => seen_invoke fun _ made _ hput => ?_
        obtain ⟨-,rfl⟩ := hput
        refine seen_then fun _ g₄ hg₄ _ => ?_
        exact Multiset.mem_of_le hg₄ (by simp)

/-- A slot that was granted is large enough to be told from none. -/
theorem seen_alloc (size : ℕ) (g : Multiset Key) :
    Uses sightings (fun a _ => 0 ≤ a.offset → 0 < a.allocSize) (invoke (.alloc size)) g :=
  fun _ hguar => ⟨0,0,g,⟨rfl,rfl⟩,(zero_add g).symm,fun ha => (hguar ha).2⟩

theorem seen_alloc_or (size : ℕ) (g : Multiset Key) {retry : StoreProg Allocated}
    (h : ∀ g, Uses sightings (fun a _ => 0 ≤ a.offset → 0 < a.allocSize) retry g) :
    Uses sightings (fun a _ => 0 ≤ a.offset → 0 < a.allocSize)
      (invoke (.alloc size) >>= fun a => if 0 ≤ a.offset then pure a else retry) g := by
  refine uses_bind (uses_mono (seen_alloc size g) fun a g' ha => ?_)
  split
  · exact ha
  · exact h g'

theorem seen_allocReclaiming (size : ℕ) (g : Multiset Key) :
    Uses sightings (fun a _ => 0 ≤ a.offset → 0 < a.allocSize) (allocReclaiming cfg size) g := by
  refine seen_then fun _ g _ => seen_alloc_or size g fun g => ?_
  refine seen_then fun _ g _ => seen_then fun _ g _ => seen_then fun _ g _ => ?_
  exact seen_alloc_or size g fun g => seen_then fun _ g _ => seen_alloc size g

def Placed (x : (PutItem × Bool) × StorePutResult) : Prop :=
  x.2.status.isOk = true → x.1.2 = true ∨ toWrite x.2 = true

theorem toWrite_of_pos {offset allocSize : ℕ} (h : 0 < allocSize) :
    toWrite ⟨.OK,offset,allocSize⟩ = true := by
  have hne : allocSize ≠ 0 := by omega
  simp [toWrite, hne]

theorem seen_assignSlots {allocSize : ℕ} {offsets : List ℤ} (items : List (PutItem × Bool))
    (g : Multiset Key) (hoffs : offsets ≠ [] → 0 < allocSize) :
    Uses sightings (fun results _ => results.length = items.length ∧
      ∀ x ∈ items.zip results, Placed x) (assignSlots cfg allocSize offsets items) g := by
  induction items generalizing offsets g with
  | nil =>
    unfold assignSlots
    exact ⟨rfl,by simp⟩
  | cons x items ih =>
    obtain ⟨item,present⟩ := x
    have hcons : ∀ (present : Bool) (r : StorePutResult) (results : List StorePutResult),
        Placed ((item,present),r) →
        (results.length = items.length ∧ ∀ x ∈ items.zip results, Placed x) →
        (r :: results).length = ((item,present) :: items).length ∧
          ∀ x ∈ ((item,present) :: items).zip (r :: results), Placed x := by
      rintro present r results hr ⟨hl,hp⟩
      exact ⟨congrArg (· + 1) hl,List.forall_mem_cons.mpr ⟨hr,hp⟩⟩
    cases present with
    | true =>
      unfold assignSlots
      exact uses_bind (uses_mono (ih g hoffs) fun results _ h =>
        hcons true _ results (fun _ => .inl rfl) h)
    | false =>
      cases offsets with
      | cons o offsets =>
        have hpos := hoffs (List.cons_ne_nil o offsets)
        unfold assignSlots
        exact uses_bind (uses_mono (ih g fun _ => hpos) fun results _ h =>
          hcons false _ results (fun _ => .inr (toWrite_of_pos hpos)) h)
      | nil =>
        unfold assignSlots
        refine uses_bind (uses_mono (seen_allocReclaiming item.size g) fun a g' ha => ?_)
        refine uses_bind (uses_mono (ih g' fun h => absurd rfl h) fun results _ h => ?_)
        refine hcons false _ results ?_ h
        split
        · exact fun hok => absurd hok (by simp [outOfSpace])
        · next hneg => exact fun _ => .inr (toWrite_of_pos (ha (not_lt.mp hneg)))

theorem seen_allocateBatch (items : List (PutItem × Bool)) (g : Multiset Key) :
    Uses sightings (fun results _ => results.length = items.length ∧
      ∀ x ∈ items.zip results, Placed x) (allocateBatch cfg items) g := by
  unfold allocateBatch
  split
  · exact seen_assignSlots items g fun h => absurd rfl h
  · refine seen_invoke fun r made hguar _ => seen_assignSlots items _ fun hne => ?_
    obtain ⟨o,ho⟩ := List.exists_mem_of_ne_nil _ hne
    exact (hguar.2 o ho).2.2

/-- The keys that the check of phase 1 finds. -/
theorem seen_present (items : List PutItem) (g : Multiset Key) :
    Uses sightings (fun present g' => g ≤ g' ∧ present.length = items.length ∧
      ∀ x ∈ items.zip present, x.2 = true → x.1.key ∈ g')
      (Prog.mapEach (fun item => do
        let found ← invoke (.indexGet item.key)
        pure found.isSome) items) g := by
  induction items generalizing g with
  | nil => exact ⟨le_refl g,rfl,by simp⟩
  | cons item items ih =>
    refine seen_invoke fun found made _ hmade => ?_
    obtain ⟨-,rfl⟩ := hmade
    refine uses_bind (uses_mono (ih _) ?_)
    rintro present g' ⟨hg,hl,hp⟩
    refine ⟨(Multiset.le_add_left _ _).trans hg,congrArg (· + 1) hl,
      List.forall_mem_cons.mpr ⟨fun hfound => ?_,hp⟩⟩
    have hfound : found.isSome = true := hfound
    rw [hfound] at hg
    exact Multiset.mem_of_le hg (by simp)

theorem seen_commitOne (x : PutItem × StorePutResult) (g : Multiset Key) :
    Uses sightings (fun _ g' => g ≤ g' ∧ x.1.key ∈ g') (commitOne x) g := by
  refine seen_then fun now g₁ hg₁ => seen_invoke fun _ made _ hput => ?_
  obtain ⟨-,rfl⟩ := hput
  exact ⟨hg₁.trans (Multiset.le_add_left _ _),by simp⟩

theorem seen_commit (writes : List (PutItem × StorePutResult)) (g : Multiset Key) :
    Uses sightings (fun _ g' => g ≤ g' ∧ ∀ x ∈ writes, x.1.key ∈ g')
      (Prog.mapEach commitOne writes) g := by
  induction writes generalizing g with
  | nil => exact ⟨le_refl g,by simp⟩
  | cons x writes ih =>
    refine uses_bind (uses_mono (seen_commitOne x g) ?_)
    rintro record g₁ ⟨hg₁,hx⟩
    refine uses_bind (uses_mono (ih _) ?_)
    rintro records g' ⟨hg,hw⟩
    exact ⟨hg₁.trans hg,List.forall_mem_cons.mpr ⟨Multiset.mem_of_le hg hx,hw⟩⟩

def Acknowledged (items : List PutItem) (results : List StorePutResult) (g : Multiset Key) : Prop :=
  ∀ x ∈ items.zip results, x.2.status.isOk = true → x.1.key ∈ g

theorem seen_writeAndCommit {items : List PutItem} {results : List StorePutResult}
    {g : Multiset Key} (hl : results.length = items.length)
    (hkey : ∀ x ∈ items.zip results, x.2.status.isOk = true → toWrite x.2 = true ∨ x.1.key ∈ g) :
    Uses sightings (fun results' g' => Acknowledged items results' g')
      (writeAndCommit cfg (items.zip results)) g := by
  -- the answers are those of phase 1, changed one by one
  have hanswer : ∀ (f : PutItem × StorePutResult → StorePutResult) (g' : Multiset Key),
      (∀ x ∈ items.zip results, (f x).status.isOk = true → x.1.key ∈ g') →
      Acknowledged items ((items.zip results).map f) g' := by
    intro f g' hf x hx
    have hz : items.zip ((items.zip results).map f) =
        (items.zip results).map fun x => (x.1,f x) := by
      have hfst : (items.zip results).map Prod.fst = items := List.map_fst_zip hl.ge
      rw [← List.zip_map', hfst]
    rw [hz] at hx
    obtain ⟨y,hy,rfl⟩ := List.mem_map.mp hx
    exact hf y hy
  refine seen_then fun s g₁ hg₁ => ?_
  split
  · next hs =>
    have hbad : s.isOk = false := by simpa using hs
    refine seen_then fun _ g₂ hg₂ => hanswer _ g₂ fun x hx hok => ?_
    split at hok
    · exact absurd hok (by simp [hbad])
    · next hw =>
      rcases hkey x hx hok with h | h
      · exact absurd h hw
      · exact Multiset.mem_of_le (hg₁.trans hg₂) h
  · refine uses_bind (uses_mono (seen_commit _ _) ?_)
    rintro records g₂ ⟨hg₂,hcommit⟩
    refine seen_then fun _ g₃ hg₃ => hanswer _ g₃ fun x hx hok => ?_
    rcases hkey x hx hok with h | h
    · exact Multiset.mem_of_le hg₃ (hcommit x (List.mem_filter.mpr ⟨hx,h⟩))
    · exact Multiset.mem_of_le (hg₁.trans (hg₂.trans hg₃)) h

theorem seen_batchPutItems (items : List PutItem) (g : Multiset Key) :
    Uses sightings (fun results g' => Acknowledged items results g') (batchPutItems cfg items) g := by
  refine uses_bind (uses_mono (seen_present items g) ?_)
  rintro present g₁ ⟨-,hp,hseen⟩
  refine uses_bind (uses_mono (seen_grows_and (seen_allocateBatch _ _)) ?_)
  rintro results g₂ ⟨hg,hl,hplaced⟩
  have hfst : (items.zip present).map Prod.fst = items := List.map_fst_zip hp.ge
  rw [List.length_zip, hp, min_self] at hl
  refine seen_writeAndCommit hl fun x hx hok => ?_
  have hz : items.zip results = ((items.zip present).zip results).map (Prod.map Prod.fst id) := by
    rw [← List.zip_map_left, hfst]
  rw [hz] at hx
  obtain ⟨y,hy,rfl⟩ := List.mem_map.mp hx
  rcases hplaced y hy hok with h | h
  · exact .inr (Multiset.mem_of_le hg (hseen y.1 (List.of_mem_zip hy).1 h))
  · exact .inl h

def acknowledged : StoreReply → List Key
  | .put key r => if r.status.isOk then [key] else []
  | .batchPut keys results =>
    ((keys.zip results).filter fun x => x.2.status.isOk).map Prod.fst
  | _ => []

/-- A thread knows the keys it has answered with ok to be in the index. -/
theorem seen_run (op : StoreOp) :
    Uses sightings (fun reply g => ∀ key ∈ acknowledged reply, key ∈ g) (op.run cfg) 0 := by
  cases op with
  | put key data size =>
    refine uses_bind (uses_mono (seen_put ⟨key,data,size⟩ 0) fun r g hr k hk => ?_)
    change k ∈ (if r.status.isOk then [key] else []) at hk
    split at hk
    · next hok =>
      rw [List.mem_singleton.mp hk]
      exact hr hok
    · cases hk
  | batchPut keys dataPtrs sizes =>
    have hbatch : Uses sightings (fun results g => ∀ x ∈ keys.zip results,
        x.2.status.isOk = true → x.1 ∈ g) (batchPut cfg keys dataPtrs sizes) 0 := by
      unfold batchPut
      split
      · intro x hx hok
        obtain ⟨k,-,hk⟩ := List.mem_map.mp (List.of_mem_zip hx).2
        rw [← hk] at hok
        cases hok
      · next hlen =>
        have hlen : keys.length = dataPtrs.length ∧ keys.length = sizes.length := by omega
        have hkeys : (putItems keys dataPtrs sizes).map PutItem.key = keys :=
          map_key_putItems hlen.1 hlen.2
        refine uses_mono (seen_batchPutItems (putItems keys dataPtrs sizes) 0) ?_
        intro results g hack x hx hok
        rw [← hkeys, List.zip_map_left] at hx
        obtain ⟨y,hy,rfl⟩ := List.mem_map.mp hx
        exact hack y hy hok
    refine uses_bind (uses_mono hbatch fun results g h k hk => ?_)
    obtain ⟨x,hx,rfl⟩ := List.mem_map.mp hk
    obtain ⟨hx,hok⟩ := List.mem_filter.mp hx
    exact h x hx hok
  | _ => exact seen_then fun _ _ _ k hk => by cases hk

end StoreOps

def StoreCall.insertion (key : Key) : StoreCall → Option StoreKeyRecord
  | indexPut k record _ => if k = key then some record.timeless else none
  | _ => none

def insertions (key : Key) (tr : List StoreEvent) : List StoreKeyRecord :=
  tr.filterMap fun e => e.op.insertion key

theorem insertions_append (key : Key) (tr : List StoreEvent) (e : StoreEvent) :
    insertions key (tr ++ [e]) = insertions key tr ++ (e.op.insertion key).toList := by
  rw [insertions, List.filterMap_append]
  cases h : e.op.insertion key <;> simp [insertions, h]

namespace Store

theorem eq_zero_of_add {a b : Multiset ℕ} (h : a + b = 0) : a = 0 ∧ b = 0 := by
  have ha : a ≤ 0 := h ▸ Multiset.le_add_right a b
  have hb : b ≤ 0 := h ▸ Multiset.le_add_left b a
  exact ⟨Multiset.le_zero.mp ha,Multiset.le_zero.mp hb⟩

/-- Nothing leaves the index. -/
theorem departed_of_putOnly {s s' : Store} {op : StoreCall} {r : op.Res} {i : ℕ}
    (hkey : s.keyAbsent op = true) (hrem : op.isRemove = false) :
    StoreEvent.departed ⟨i,s,op,r,s'⟩ = 0 := by
  cases op with
  | indexRemove key snapshot => cases hrem
  | _ => exact overwritten_of_keyAbsent hkey

/-- What the index has under a key, up to its access time. -/
def entry (s : Store) (key : Key) : Option StoreKeyRecord :=
  (s.index.find key).map StoreKeyRecord.timeless

/-- Nothing is removed, and an insertion finds its key absent. -/
def putOnly (s : Store) (op : StoreCall) : Bool := s.keyAbsent op && !op.isRemove

variable {s s' s₀ : Store} {op : StoreCall} {c : StoreChoice} {r : op.Res} {tr : List StoreEvent}

theorem wellTimed_of_putOnly (h : s.putOnly op = true) : s.wellTimed op = true := by
  obtain ⟨hkey,hrem⟩ := Bool.and_eq_true_iff.mp h
  refine Bool.and_eq_true_iff.mpr ⟨?_,hkey⟩
  cases op with
  | indexRemove key snapshot => cases hrem
  | _ => rfl

theorem entry_insertion {key : Key} (hput : op.isPut = false) : op.insertion key = none := by
  cases op with
  | indexPut k record data => cases hput
  | _ => rfl

/-- Without removals, the index gains exactly what is inserted. -/
theorem entry_step (key : Key) (hok : s.putOnly op = true) (hs : s.step op c = some (r,s')) :
    (s'.entry key).toList = (s.entry key).toList ++ (op.insertion key).toList := by
  obtain ⟨hkey,hrem⟩ := Bool.and_eq_true_iff.mp hok
  cases index_step hs with
  | remove k snapshot h => cases hrem
  | put k record data h =>
    have hnone : s.index.find k = none := Option.isNone_iff_eq_none.mp hkey
    simp only [entry, h, StoreMetaIndex.find_put, StoreCall.insertion]
    by_cases hk : key = k
    · subst hk
      simp [hnone, StoreMetaIndex.stored]
    · have hk' : ¬ k = key := fun he => hk he.symm
      simp [hk, hk']
  | keep hput _ h =>
    rw [entry_insertion hput, entry, h.find key]
    exact (List.append_nil _).symm

/-- Without removals, a key that is in the index stays there. -/
theorem entry_isSome_step {key : Key} (hok : s.putOnly op = true)
    (hs : s.step op c = some (r,s')) (h : (s.entry key).isSome) : (s'.entry key).isSome := by
  have hstep := entry_step key hok hs
  obtain ⟨rec,hrec⟩ := Option.isSome_iff_exists.mp h
  cases hs' : s'.entry key with
  | none => simp [hrec, hs'] at hstep
  | some rec' => rfl

/-- The accounts of a run from `s₀` without removals: of slots, of insertions, and of
the keys that threads have seen. -/
structure Tally (s₀ : Store) (tr : List StoreEvent) (s : Store)
    (x : Multiset Holding × Multiset Key) : Prop where
  ledger : Ledger s₀ tr s x.1
  noneLeaving : onTheWay x.1 = 0
  pending : s.pending.offsets ≤ s₀.pending.offsets
  entries : ∀ key, (s.entry key).toList = (s₀.entry key).toList ++ insertions key tr
  seen : ∀ key ∈ x.2, (s.entry key).isSome

theorem tally_start (h : Books s₀ 0 0) : Tally s₀ [] s₀ 0 :=
  ⟨ledger_start h,rfl,le_refl _,fun _ => (List.append_nil _).symm,fun _ hk => by cases hk⟩

theorem pending_step {used made rest : Multiset Holding} (hr : Custody.rule op r used made)
    (hnone : onTheWay (used + rest) = 0) (hs : s.step op c = some (r,s')) :
    s'.pending.offsets ≤ s.pending.offsets := by
  cases op with
  | enqueue key offset n =>
    obtain ⟨-,rfl⟩ := hr
    rw [onTheWay_add, onTheWay_leaving] at hnone
    simp at hnone
  | takeExpired now =>
    cases hs
    rw [PendingEvictQueue.offsets_takeExpired (q := s.pending) now]
    exact Multiset.le_add_left _ _
  | takeAll =>
    cases hs
    rw [PendingEvictQueue.offsets_takeAll (q := s.pending)]
    exact Multiset.le_add_left _ _
  | pwrite | uringWrite | pread =>
    obtain ⟨file,rfl⟩ := onFile_frame hs rfl
    exact le_refl _
  | _ =>
    cases hs
    exact le_refl _

/-- A key that a call reports or inserts is in the index afterwards. -/
theorem sighting_step {used made : Multiset Key} {key : Key} (hs : s.step op c = some (r,s'))
    (hr : Sighting.rule op r used made) (hkey : key ∈ made) : (s'.entry key).isSome := by
  cases op with
  | indexGet k =>
    obtain ⟨-,rfl⟩ := hr
    cases hs
    unfold entry
    rw [StoreMetaIndex.find_get_timeless]
    split at hkey
    · next hfound =>
      rw [Multiset.mem_singleton.mp hkey]
      cases hf : s.index.find k with
      | none => simp [StoreMetaIndex.get_of_none hf] at hfound
      | some rec => rfl
    · cases hkey
  | indexPut k record data =>
    obtain ⟨-,rfl⟩ := hr
    cases hs
    simp [entry, StoreMetaIndex.find_put, Multiset.mem_singleton.mp hkey]
  | _ =>
    obtain ⟨-,rfl⟩ := hr
    cases hkey

theorem keeps_tally (s₀ : Store) :
    Keeps storeMachine (custody.prod sightings) (fun s op => s.putOnly op = true) (Tally s₀) where
  guar := by
    intro tr s op c r s' total h hok hs
    have hguar := (keeps_ledger s₀).guar tr h.ledger (wellTimed_of_putOnly hok) hs
    exact ⟨hguar,hguar⟩
  step := by
    intro tr i s op c r s' used made rest h hok hs hr
    obtain ⟨hkey,hrem⟩ := Bool.and_eq_true_iff.mp hok
    have hledger := (keeps_ledger s₀).step tr i h.ledger (wellTimed_of_putOnly hok) hs hr.1
    refine ⟨hledger,?_,(pending_step hr.1 h.noneLeaving hs).trans h.pending,?_,?_⟩
    · have hleaving := onTheWay_step s' i hr.1 hkey
      have hnone : onTheWay (used.1 + rest.1) = 0 := h.noneLeaving
      rw [onTheWay_add] at hnone
      obtain ⟨hused,hrest⟩ := eq_zero_of_add hnone
      rw [departed_of_putOnly hkey (by simpa using hrem), hused, add_zero] at hleaving
      change onTheWay (made.1 + rest.1) = 0
      rw [onTheWay_add, (eq_zero_of_add hleaving.symm).2, hrest, add_zero]
    · intro key
      rw [entry_step key hok hs, h.entries key, insertions_append, List.append_assoc]
    · intro key hmem
      rcases Multiset.mem_add.mp hmem with hmem | hmem
      · exact sighting_step hs hr.2 hmem
      · exact entry_isSome_step hok hs (h.seen key (Multiset.mem_add.mpr (.inr hmem)))

end Store

/-- After a run without removals that started in `s₀`. -/
structure OnePutWins (s₀ : Store) (tr : List StoreEvent) (P : StorePool) : Prop where
  /-- A key that was absent has been inserted at most once, and the index has that record. -/
  first : ∀ key, s₀.entry key = none →
    (P.state.entry key).toList = insertions key tr ∧ (insertions key tr).length ≤ 1
  /-- A key that some call answered with ok is in the index. -/
  stored : ∀ reply, some reply ∈ P.replies → ∀ key ∈ StoreOps.acknowledged reply,
    (P.state.entry key).isSome
  /-- The slots that the calls took are those of the records they inserted, or were given back. -/
  balance : s₀.index.offsets + s₀.pending.offsets + total StoreEvent.granted tr =
    P.state.index.offsets + P.state.pending.offsets + total StoreEvent.released tr
  owners : (P.state.index.offsets + P.state.pending.offsets).Nodup
  pending : P.state.pending.offsets ≤ s₀.pending.offsets

/-- Any operations start on an idle store that a well-timed run has left. When all have
returned and nothing was removed, each key has the slot of the call that inserted first. -/
theorem onePutWins_of_run {cfg : StoreConfig} {tr₀ tr : List StoreEvent} {P₀ P : StorePool}
    (hcap : cfg.capacityBytes < 2^63)
    (h₀ : StoreRun cfg (fun s op => s.wellTimed op = true) (Store.idle cfg) tr₀ P₀)
    (hidle : P₀.Returned)
    (h : StoreRun cfg (fun s op => s.putOnly op = true) ⟨P₀.state,[]⟩ tr P)
    (hret : P.Returned) : OnePutWins P₀.state tr P := by
  obtain ⟨held₀,hledger₀,hheld₀⟩ := Store.ledger_of_run hcap h₀
  have hbooks₀ : P₀.state.Books 0 0 := by
    rw [← hheld₀ hidle]
    exact hledger₀.books
  have hstart : ∀ p, (∃ op : StoreOp, p = op.run cfg) → Uses (custody.prod sightings)
      (fun reply x => x.1 = 0 ∧ ∀ key ∈ StoreOps.acknowledged reply, key ∈ x.2) p 0 := by
    rintro p ⟨op,rfl⟩
    exact uses_prod (StoreOps.discharges_run op) (StoreOps.seen_run op)
  have hempty : ∃ gs : List (Multiset Holding × Multiset Key),
      List.Forall₂ (Uses (custody.prod sightings) fun reply x =>
        x.1 = 0 ∧ ∀ key ∈ StoreOps.acknowledged reply, key ∈ x.2)
        (⟨P₀.state,[]⟩ : StorePool).threads gs ∧ Store.Tally P₀.state [] P₀.state gs.sum :=
    ⟨[],.nil,Store.tally_start hbooks₀⟩
  obtain ⟨gs,hgs,htally⟩ := Run.shares (Store.keeps_tally P₀.state) hstart hempty h
  have hheld : gs.sum.1 = 0 := by
    refine hret.sum hgs (Q := fun x => x.1 = 0) rfl ?_ fun _ _ hx => hx.1
    intro x y hx hy
    rw [Prod.fst_add, hx, hy, add_zero]
  have hbooks := htally.ledger.books
  have hgranted := htally.ledger.granted
  have hbalance₀ := hbooks₀.balance
  have hbalance := hbooks.balance
  have hnodup := hbooks.nodup
  rw [hheld, Multiset.map_zero, add_zero, add_zero] at hbalance hnodup
  rw [Multiset.map_zero, add_zero, add_zero] at hbalance₀
  refine ⟨?_,?_,?_,(Multiset.nodup_add.mp hnodup).1,htally.pending⟩
  · intro key habsent
    have hentries := htally.entries key
    rw [habsent, Option.toList_none, List.nil_append] at hentries
    refine ⟨hentries,?_⟩
    rw [← hentries]
    exact Option.length_toList_le
  · intro reply hreply key hkey
    obtain ⟨x,rest,⟨-,hx⟩,hsum⟩ := exists_share hgs hreply
    refine htally.seen key ?_
    rw [hsum, Prod.snd_add]
    exact Multiset.mem_add.mpr (.inl (hx key hkey))
  · refine add_right_cancel (b := P.state.allocator.spare + P₀.state.allocator.spare) ?_
    rw [← hbalance₀, ← hbalance] at hgranted
    calc P₀.state.index.offsets + P₀.state.pending.offsets + total StoreEvent.granted tr +
          (P.state.allocator.spare + P₀.state.allocator.spare)
        = total StoreEvent.granted tr + P.state.allocator.spare +
          (P₀.state.index.offsets + P₀.state.pending.offsets + P₀.state.allocator.spare) := by abel
      _ = _ := by
        rw [hgranted]
        abel

open Release

/-- A batch that began before a put inserts `k` finds the record and takes no slot for it. -/
theorem onePutWins_of_run_twice : ∃ tr P,
    StoreRun twoSlots (fun s op => s.putOnly op = true) (Store.idle twoSlots) tr P ∧
    OnePutWins (Store.init twoSlots) tr P ∧ tr.map Event.thread = [1,0,0,0,0,0,1,1,1,1,1] ∧
    insertions "k" tr = [⟨"k",0,8,8,1,0⟩] ∧ insertions "l" tr = [⟨"l",8,8,8,1,0⟩] ∧
    P.state.allocator.usedSlots = 2 := by
  obtain ⟨tr,P,hrun,hP⟩ := storeRun_of_schedule twoSlots Store.putOnly
    [.put "k" (value 1) 8,.batchPut ["l","k"] [value 3,value 2] [8,8]]
    (inOrder [1,0,0,0,0,0,1,1,1,1,1])
    (f := fun x => (x.1.map Event.thread,insertions "k" x.1,insertions "l" x.1,
      x.2.state.allocator.usedSlots,x.2.replies.map Option.isSome))
    (v := ([1,0,0,0,0,0,1,1,1,1,1],[⟨"k",0,8,8,1,0⟩],[⟨"l",8,8,8,1,0⟩],2,[true,true])) rfl
  obtain ⟨hthreads,hP⟩ := Prod.mk.inj hP
  obtain ⟨hins,hP⟩ := Prod.mk.inj hP
  obtain ⟨hother,hP⟩ := Prod.mk.inj hP
  obtain ⟨hused,hreplies⟩ := Prod.mk.inj hP
  have hret : P.Returned := by
    intro r hr
    have hmem : r.isSome ∈ P.replies.map Option.isSome := List.mem_map_of_mem hr
    rw [hreplies] at hmem
    simpa using hmem
  have hwins := onePutWins_of_run (by decide) .refl (fun _ hr => by cases hr) hrun hret
  exact ⟨tr,P,hrun,hwins,hthreads,hins,hother,hused⟩

/-- Two puts both find the key absent; the second overwrites the record of the first. -/
theorem exists_run_not_onePutWins : ∃ tr P,
    StoreRun twoSlots (fun _ op => (!op.isRemove) = true) (Store.idle twoSlots) tr P ∧
    P.replies = [some (.put "k" ⟨.OK,0,8⟩),some (.put "k" ⟨.OK,8,8⟩)] ∧
    P.state.entry "k" = some ⟨"k",8,8,8,1,0⟩ ∧ P.state.allocator.usedSlots = 2 ∧
    ¬ OnePutWins (Store.init twoSlots) tr P := by
  obtain ⟨tr,P,hrun,hP⟩ := storeRun_of_schedule twoSlots (fun _ op => !op.isRemove)
    [.put "k" (value 1) 8,.put "k" (value 2) 8] (inOrder [0,1,0,0,0,0,1,1,1,1])
    (f := fun x => ((insertions "k" x.1).length,x.2.replies,x.2.state.entry "k",
      x.2.state.allocator.usedSlots))
    (v := (2,[some (.put "k" ⟨.OK,0,8⟩),some (.put "k" ⟨.OK,8,8⟩)],some ⟨"k",8,8,8,1,0⟩,2)) rfl
  obtain ⟨hlen,hP⟩ := Prod.mk.inj hP
  obtain ⟨hreplies,hP⟩ := Prod.mk.inj hP
  obtain ⟨hentry,hused⟩ := Prod.mk.inj hP
  refine ⟨tr,P,hrun,hreplies,hentry,hused,fun hwins => ?_⟩
  have hone := (hwins.first "k" rfl).2
  dsimp only at hlen
  omega

end FalconKV
