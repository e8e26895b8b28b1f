import FalconKV.AtomicCalls.Discipline
import FalconKV.Store.Programs

/-! # Which slots a running operation holds

A slot that was taken out of the allocator, the index or the pending queue is held
by the thread that took it until it is put somewhere else. This is a discipline of
the atomic calls, and every operation of the store follows it: what it takes out it
puts back, on every path.
-/
namespace FalconKV
open AtomicCalls

inductive Holding
  /-- allocated, nothing written yet -/
  | blank (offset allocSize : ℕ)
  /-- allocated and written -/
  | filled (offset allocSize : ℕ) (data : Bytes) (size : ℕ)
  /-- taken out of the index -/
  | leaving (offset : ℕ)
  /-- taken out of the pending queue -/
  | reclaimed (offset : ℕ)

namespace Holding

def offset : Holding → ℕ
  | blank o _ | filled o _ _ _ | leaving o | reclaimed o => o

def isLeaving : Holding → Bool
  | leaving _ => true
  | _ => false

def afterWrite (offset allocSize : ℕ) (data : Option Bytes) (size : ℕ) : Bool → Holding
  | true => match data with
    | some d => filled offset allocSize d size
    | none => blank offset allocSize
  | false => blank offset allocSize

@[simp] theorem offset_afterWrite (offset allocSize : ℕ) (data : Option Bytes) (size : ℕ) (b : Bool) :
    (afterWrite offset allocSize data size b).offset = offset := by
  cases b <;> cases data <;> rfl

@[simp] theorem isLeaving_afterWrite (offset allocSize : ℕ) (data : Option Bytes) (size : ℕ)
    (b : Bool) : (afterWrite offset allocSize data size b).isLeaving = false := by
  cases b <;> cases data <;> rfl

end Holding

def grantedOf (a : Allocated) : Multiset Holding :=
  if a.offset < 0 then 0 else {.blank a.offset.toNat a.allocSize}

namespace Custody

def guar : (op : StoreCall) → op.Res → Prop
  | .alloc _, a => 0 ≤ a.offset → a.offset < 2^63 ∧ 0 < a.allocSize
  | .batchAlloc _ count, r => r.1.length ≤ count ∧ ∀ o ∈ r.1, 0 ≤ o ∧ o < 2^63 ∧ 0 < r.2
  | .takeExpired _, entries => ∀ e ∈ entries, e.offset < 2^63
  | .takeAll, entries => ∀ e ∈ entries, e.offset < 2^63
  | .indexRemove _ (some snapshot), r => ∃ rec, r = some rec ∧ rec.offset = snapshot.offset
  | .pwrite _ data size, r => r.count = size → data.isSome
  | .uringWrite _ data _, r => r.isOk = true → data.isSome
  | _, _ => True

def rule : (op : StoreCall) → op.Res → Multiset Holding → Multiset Holding → Prop
  | .alloc _, a, used, made => used = 0 ∧ made = grantedOf a
  | .batchAlloc _ _, r, used, made =>
    used = 0 ∧ made = (r.1.map fun o => Holding.blank o.toNat r.2 : List Holding)
  | .free offset _, _, used, made =>
    made = 0 ∧ ∃ h : Holding, (h.offset : ℤ) = offset ∧ h.isLeaving = false ∧ used = {h}
  | .pwrite offset data size, r, used, made =>
    ∃ n, used = {.blank offset n} ∧ made = {.afterWrite offset n data size (r.count == size)}
  | .uringWrite offset data size, r, used, made =>
    ∃ n, used = {.blank offset n} ∧ made = {.afterWrite offset n data size r.isOk}
  | .indexPut key record data, _, used, made =>
    made = 0 ∧ record.key = key ∧ record.stat = 1 ∧
      ∃ d, data = some d ∧ used = {.filled record.offset record.allocSize d record.size}
  | .indexRemove _ _, r, used, made =>
    used = 0 ∧ made = (r.map fun rec => Holding.leaving rec.offset).toList
  | .enqueue _ offset _, _, used, made => made = 0 ∧ used = {.leaving offset}
  | .takeExpired _, entries, used, made =>
    used = 0 ∧ made = (entries.map fun e => Holding.reclaimed e.offset : List Holding)
  | .takeAll, entries, used, made =>
    used = 0 ∧ made = (entries.map fun e => Holding.reclaimed e.offset : List Holding)
  | _, _, used, made => used = 0 ∧ made = 0

end Custody

def custody : Discipline storeCalls (Multiset Holding) := ⟨Custody.guar,Custody.rule⟩

abbrev Discharges {α : Type} (p : StoreProg α) (g : Multiset Holding) : Prop :=
  Uses custody (fun _ g' => g' = 0) p g

namespace StoreOps

variable {cfg : StoreConfig} {α β : Type} {post : β → Multiset Holding → Prop}

/-- A program that holds nothing at its start and its end, then the rest. -/
theorem uses_then {p : StoreProg α} {k : α → StoreProg β} {g : Multiset Holding}
    (hp : Discharges p 0) (h : ∀ a, Uses custody post (k a) g) : Uses custody post (p >>= k) g :=
  uses_bind_keep hp h

theorem discharges_free {offset : ℤ} {n : ℕ} {h : Holding} (ho : (h.offset : ℤ) = offset)
    (hl : h.isLeaving = false) : Discharges (invoke (.free offset n)) {h} :=
  fun _ _ => ⟨{h},0,0,⟨rfl,h,ho,hl,rfl⟩,rfl,rfl⟩

theorem discharges_freeEntries {entries : List EvictEntry} (h : ∀ e ∈ entries, e.offset < 2^63) :
    Discharges (freeEntries entries)
      (entries.map fun e => Holding.reclaimed e.offset : List Holding) := by
  refine uses_bind (uses_mono (uses_forEach ((split_singletons _ entries).mono ?_)) fun _ _ => id)
  rintro e he _ rfl
  exact discharges_free (int64_of_lt (h e he)).symm rfl

theorem discharges_flushExpired : Discharges flushExpired 0 := by
  refine uses_idle (fun _ => ⟨rfl,rfl⟩) fun now _ => ?_
  refine uses_perform fun entries hguar => ⟨0,_,0,⟨rfl,rfl⟩,rfl,?_⟩
  rw [add_zero]
  exact discharges_freeEntries hguar

theorem discharges_flushAllForced : Discharges flushAllForced 0 := by
  refine uses_perform fun entries hguar => ⟨0,_,0,⟨rfl,rfl⟩,rfl,?_⟩
  rw [add_zero]
  exact discharges_freeEntries hguar

/-- The slot that leaves the index is the one that is enqueued. -/
theorem discharges_dropCandidate (rec : StoreKeyRecord) : Discharges (dropCandidate rec) 0 := by
  intro r hguar
  obtain ⟨found,rfl,hoff⟩ := hguar
  refine ⟨0,{.leaving found.offset},0,⟨rfl,rfl⟩,rfl,?_⟩
  intro _ _
  exact ⟨_,0,0,⟨rfl,by rw [hoff]⟩,rfl,rfl⟩

theorem discharges_notifyRemove (keys : List Key) : Discharges (notifyRemove cfg keys) 0 := by
  unfold notifyRemove
  split
  · exact uses_idle (fun _ => ⟨rfl,rfl⟩) fun _ _ => rfl
  · exact rfl

theorem discharges_dropCandidates (candidates : List StoreKeyRecord) :
    Discharges (Prog.forEach dropCandidate candidates) 0 :=
  uses_forEach (split_zero fun rec _ => discharges_dropCandidate rec)

theorem discharges_evictEntries (candidates : List StoreKeyRecord) :
    Discharges (evictEntries cfg candidates) 0 := by
  unfold evictEntries
  split
  · exact rfl
  · refine uses_then (discharges_notifyRemove _) fun s => ?_
    split
    · exact rfl
    · exact uses_then (discharges_dropCandidates candidates) fun _ => rfl

theorem discharges_tryEvictBatchLRU : Discharges (tryEvictBatchLRU cfg) 0 := by
  refine uses_idle (fun _ => ⟨rfl,rfl⟩) fun candidates _ => ?_
  split
  · exact rfl
  · exact discharges_evictEntries candidates

theorem discharges_forceEvictRounds (neededBytes rounds totalEvicted : ℕ) :
    Discharges (forceEvictRounds cfg neededBytes rounds totalEvicted) 0 := by
  induction rounds generalizing totalEvicted with
  | zero => exact rfl
  | succ rounds ih =>
    unfold forceEvictRounds
    split
    · exact rfl
    · refine uses_idle (fun _ => ⟨rfl,rfl⟩) fun candidates _ => ?_
      split
      · exact rfl
      · refine uses_then (discharges_notifyRemove _) fun s => ?_
        split
        · exact rfl
        · exact uses_then (discharges_dropCandidates _) fun _ => ih _

theorem discharges_forceEvict (neededBytes : ℕ) : Discharges (forceEvict cfg neededBytes) 0 :=
  discharges_forceEvictRounds neededBytes 5 0

section
variable {G : Type} [AddCommMonoid G] {D : Discipline storeCalls G} {slot : ℕ → ℕ → G}

/-- A discipline that gives `slot offset allocSize` for a slot that is granted, and nothing for
one that is reclaimed. -/
structure CountsSlots (cfg : StoreConfig) (D : Discipline storeCalls G) (slot : ℕ → ℕ → G) :
    Prop where
  guar : ∀ {op r}, D.guar op r → Custody.guar op r
  alloc : ∀ size a, D.rule (.alloc size) a 0
    (if a.offset < 0 then 0 else slot a.offset.toNat a.allocSize)
  batchAlloc : ∀ size count r, D.rule (.batchAlloc size count) r 0
    (r.1.map fun o => slot o.toNat r.2).sum
  getTotalBytes : ∀ r, D.rule .getTotalBytes r 0 0
  flushExpired : Uses D (fun _ g => g = 0) flushExpired 0
  flushAllForced : Uses D (fun _ g => g = 0) flushAllForced 0
  forceEvict : ∀ neededBytes, Uses D (fun _ g => g = 0) (forceEvict cfg neededBytes) 0

def Granted (slot : ℕ → ℕ → G) (a : Allocated) (g : G) : Prop :=
  g = (if a.offset < 0 then 0 else slot a.offset.toNat a.allocSize) ∧
    (0 ≤ a.offset → a.offset < 2^63 ∧ 0 < a.allocSize)

theorem CountsSlots.uses_alloc (h : CountsSlots cfg D slot) (size : ℕ) :
    Uses D (Granted slot) (invoke (.alloc size)) 0 := by
  refine fun a hguar => ⟨0,_,0,h.alloc size a,(add_zero 0).symm,?_⟩
  rw [add_zero]
  exact ⟨rfl,h.guar hguar⟩

/-- A failed allocation is retried. -/
theorem CountsSlots.uses_alloc_or (h : CountsSlots cfg D slot) (size : ℕ)
    {retry : StoreProg Allocated} (hretry : Uses D (Granted slot) retry 0) :
    Uses D (Granted slot)
      (invoke (.alloc size) >>= fun a => if 0 ≤ a.offset then pure a else retry) 0 := by
  refine uses_bind (uses_mono (h.uses_alloc size) ?_)
  rintro a g ⟨rfl,hguar⟩
  split
  · exact ⟨rfl,hguar⟩
  · next hneg =>
    rw [if_pos (not_le.mp hneg)]
    exact hretry

theorem CountsSlots.uses_allocReclaiming (h : CountsSlots cfg D slot) (size : ℕ) :
    Uses D (Granted slot) (allocReclaiming cfg size) 0 := by
  refine uses_bind_keep h.flushExpired fun _ => h.uses_alloc_or size ?_
  refine uses_idle h.getTotalBytes fun totalBytes _ => ?_
  refine uses_bind_keep (h.forceEvict _) fun _ => ?_
  refine uses_bind_keep h.flushExpired fun _ => h.uses_alloc_or size ?_
  exact uses_bind_keep h.flushAllForced fun _ => h.uses_alloc size

theorem CountsSlots.uses_allocForPut (h : CountsSlots cfg D slot) (size : ℕ) :
    Uses D (Granted slot) (allocForPut cfg size) 0 :=
  h.uses_alloc_or size (h.uses_allocReclaiming size)

def Assigned (slot : ℕ → ℕ → G) (r : StorePutResult) (g : G) : Prop :=
  if toWrite r then r.offset < 2^63 ∧ g = slot r.offset r.allocSize else g = 0

theorem assigned_nothing {r : StorePutResult}
    (h : r.status.isOk = false ∨ r.offset = 0 ∧ r.allocSize = 0) : Assigned slot r 0 := by
  have hw : toWrite r = false := by
    rcases h with h | ⟨ho,hn⟩
    · simp [toWrite, h]
    · simp [toWrite, ho, hn]
  rw [Assigned, hw]
  rfl

theorem assigned_slot {offset allocSize : ℕ} (ho : offset < 2^63) (hn : 0 < allocSize) :
    Assigned slot ⟨.OK,offset,allocSize⟩ (slot offset allocSize) := by
  have hne : allocSize ≠ 0 := by omega
  have hw : toWrite ⟨.OK,offset,allocSize⟩ = true := by simp [toWrite, hne]
  rw [Assigned, hw]
  exact ⟨ho,rfl⟩

abbrev BatchAssigned (slot : ℕ → ℕ → G) (items : List (PutItem × Bool))
    (results : List StorePutResult) (g : G) : Prop :=
  results.length = items.length ∧ Split (Assigned slot) results g

theorem CountsSlots.uses_assignSlots (h : CountsSlots cfg D slot) {allocSize : ℕ} {offsets : List ℤ}
    {items : List (PutItem × Bool)} (hoffs : ∀ o ∈ offsets, 0 ≤ o ∧ o < 2^63 ∧ 0 < allocSize)
    (hlen : offsets.length ≤ (items.filter fun x => !x.2).length) :
    Uses D (BatchAssigned slot items) (assignSlots cfg allocSize offsets items)
      (offsets.map fun o => slot o.toNat allocSize).sum := by
  induction items generalizing offsets with
  | nil =>
    obtain rfl : offsets = [] := by simpa using hlen
    unfold assignSlots
    exact ⟨rfl,.nil⟩
  | cons x items ih =>
    obtain ⟨item,present⟩ := x
    cases present with
    | true =>
      unfold assignSlots
      refine uses_bind (uses_mono (ih hoffs (by simpa using hlen)) ?_)
      rintro results g ⟨hl,hs⟩
      refine ⟨congrArg (· + 1) hl,?_⟩
      rw [← zero_add g]
      exact .cons (assigned_nothing (.inr ⟨rfl,rfl⟩)) hs
    | false =>
      cases offsets with
      | cons o offsets =>
        obtain ⟨ho,hlt,hn⟩ := hoffs o (by simp)
        unfold assignSlots
        have hg : ((o :: offsets).map fun o => slot o.toNat allocSize).sum =
            (offsets.map fun o => slot o.toNat allocSize).sum + slot o.toNat allocSize := by
          rw [List.map_cons, List.sum_cons, add_comm]
        refine uses_bind_frame hg (ih (fun o ho => hoffs o (by simp [ho])) ?_) ?_
        · simpa using hlen
        · rintro results g ⟨hl,hs⟩
          refine ⟨congrArg (· + 1) hl,?_⟩
          rw [add_comm]
          exact .cons (assigned_slot (by omega) hn) hs
      | nil =>
        unfold assignSlots
        refine uses_bind (uses_mono (h.uses_allocReclaiming item.size) ?_)
        rintro a _ ⟨rfl,hguar⟩
        have hrest := @ih [] (by simp) (by simp)
        refine uses_bind_frame (zero_add _).symm hrest ?_
        rintro results g ⟨hl,hs⟩
        refine ⟨congrArg (· + 1) hl,?_⟩
        rw [add_comm]
        refine .cons ?_ hs
        split
        · exact assigned_nothing (.inl rfl)
        · next hpos =>
          obtain ⟨hlt,hn⟩ := hguar (not_lt.mp hpos)
          exact assigned_slot (by omega) hn

theorem CountsSlots.uses_allocateBatch (h : CountsSlots cfg D slot) (items : List (PutItem × Bool)) :
    Uses D (BatchAssigned slot items) (allocateBatch cfg items) 0 := by
  unfold allocateBatch
  cases hf : items.filter fun x => !x.2 with
  | nil => exact h.uses_assignSlots (by simp) (by simp)
  | cons first rest =>
    refine uses_perform fun r hguar => ⟨0,_,0,h.batchAlloc _ _ r,(add_zero 0).symm,?_⟩
    obtain ⟨hcount,hoffs⟩ := h.guar hguar
    rw [add_zero]
    refine h.uses_assignSlots hoffs (hcount.trans ?_)
    rw [hf]
    exact u32_le _

/-- The shares of the writes of a batch. -/
theorem split_writes {items : List PutItem} {results : List StorePutResult} {g : G}
    (hl : results.length = items.length) (h : Split (Assigned slot) results g) :
    Split (fun x g => x.2.offset < 2^63 ∧ g = slot x.2.offset x.2.allocSize)
      ((items.zip results).filter fun x => toWrite x.2) g := by
  have hsnd : (items.zip results).map Prod.snd = results := List.map_snd_zip hl.le
  rw [← hsnd] at h
  refine Split.filter ((Split.map.mp h).mono ?_)
  intro x _ g hx
  exact hx

end

def blankSlot (offset allocSize : ℕ) : Multiset Holding := {.blank offset allocSize}

theorem countsSlots_custody : CountsSlots cfg custody blankSlot where
  guar := id
  alloc := fun _ _ => ⟨rfl,rfl⟩
  batchAlloc := by
    rintro size count ⟨offs,n⟩
    refine ⟨rfl,?_⟩
    induction offs with
    | nil => rfl
    | cons o offs ih =>
      rw [List.map_cons, List.map_cons, List.sum_cons, ih, ← Multiset.cons_coe,
        ← Multiset.singleton_add, blankSlot]
  getTotalBytes := fun _ => ⟨rfl,rfl⟩
  flushExpired := discharges_flushExpired
  flushAllForced := discharges_flushAllForced
  forceEvict := discharges_forceEvict

def Written (offset allocSize : ℕ) (data : Option Bytes) (size : ℕ) (s : Status)
    (g : Multiset Holding) : Prop :=
  (s.isOk = true → ∃ d, data = some d ∧ g = {.filled offset allocSize d size}) ∧
  ∃ h : Holding, h.offset = offset ∧ h.isLeaving = false ∧ g = {h}

theorem written_blank (offset allocSize : ℕ) (data : Option Bytes) (size : ℕ) {s : Status}
    (hs : s.isOk = false) : Written offset allocSize data size s {.blank offset allocSize} :=
  ⟨fun h => absurd h (by simp [hs]),_,rfl,rfl,rfl⟩

theorem written_afterWrite (offset allocSize : ℕ) {data : Option Bytes} (size : ℕ) {s : Status}
    (hdata : s.isOk = true → data.isSome) : Written offset allocSize data size s
      {.afterWrite offset allocSize data size s.isOk} := by
  refine ⟨fun hs => ?_,_,Holding.offset_afterWrite ..,Holding.isLeaving_afterWrite ..,rfl⟩
  obtain ⟨d,rfl⟩ := Option.isSome_iff_exists.mp (hdata hs)
  exact ⟨d,rfl,by rw [hs]; rfl⟩

theorem uses_write (offset allocSize : ℕ) (data : Option Bytes) (size : ℕ) :
    Uses custody (Written offset allocSize data size) (write offset data size)
      {.blank offset allocSize} := by
  unfold write
  split
  · exact written_blank _ _ _ _ rfl
  · refine uses_perform fun r hguar => ⟨_,_,0,⟨allocSize,rfl,rfl⟩,(add_zero _).symm,?_⟩
    rw [add_zero]
    split
    · next hr =>
      have hbeq : (r.count == (size : ℤ)) = false := by simpa using hr
      rw [hbeq]
      exact written_blank _ _ _ _ rfl
    · next hr =>
      have hr : r.count = size := not_not.mp hr
      have hbeq : (r.count == (size : ℤ)) = Status.OK.isOk := by simp [hr]
      rw [hbeq]
      exact written_afterWrite _ _ _ fun _ => hguar hr

theorem uses_writeItem (item : WriteItem) (allocSize : ℕ) :
    Uses custody (Written item.offset allocSize item.data item.size) (writeItem cfg item)
      {.blank item.offset allocSize} := by
  unfold writeItem
  split
  · intro s hguar
    refine ⟨_,_,0,⟨allocSize,rfl,rfl⟩,(add_zero _).symm,?_⟩
    rw [add_zero]
    exact written_afterWrite _ _ _ hguar
  · exact uses_write _ _ _ _

theorem lastError_foldl (statuses : List Status) (last : Status) :
    (statuses.foldl (fun last s => if s.isOk then last else s) last).isOk = true ↔
      last.isOk = true ∧ ∀ s ∈ statuses, s.isOk = true := by
  induction statuses generalizing last with
  | nil => simp
  | cons s statuses ih =>
    rw [List.foldl_cons, ih]
    cases hs : s.isOk <;> simp [hs]

/-- A batch is ok iff each of its writes is. -/
theorem lastError_isOk (statuses : List Status) :
    (lastError statuses).isOk = true ↔ ∀ s ∈ statuses, s.isOk = true := by
  rw [lastError, lastError_foldl]
  simp

/-- Insert the record of a written slot. -/
theorem uses_indexPut {item : PutItem} {offset allocSize now : ℕ} {d : Bytes}
    (hd : item.data = some d) {k : Unit → StoreProg β} {g : Multiset Holding}
    (h : Uses custody post (k ()) g) :
    Uses custody post (invoke (.indexPut item.key (committedRecord item offset allocSize now)
      item.data) >>= k) ({.filled offset allocSize d item.size} + g) :=
  uses_perform fun _ _ => ⟨_,0,g,⟨rfl,rfl,rfl,d,hd,rfl⟩,rfl,by rw [zero_add]; exact h⟩

theorem discharges_notifyCommit (records : List StoreKeyRecord) :
    Discharges (notifyCommit cfg records) 0 := by
  unfold notifyCommit
  split
  · exact uses_idle (fun _ => ⟨rfl,rfl⟩) fun _ _ => rfl
  · exact rfl

theorem discharges_putInto (item : PutItem) {a : Allocated} (ha : 0 ≤ a.offset) :
    Discharges (putInto cfg item a) {.blank a.offset.toNat a.allocSize} := by
  refine uses_bind (uses_mono (uses_write _ a.allocSize _ _) ?_)
  rintro s g ⟨hok,h,ho,hl,hg⟩
  split
  · have hoff : (h.offset : ℤ) = a.offset := by rw [ho, Int.toNat_of_nonneg ha]
    rw [hg]
    exact uses_bind (uses_mono (discharges_free hoff hl) fun _ _ => id)
  · next hs =>
    obtain ⟨d,hd,rfl⟩ := hok (by simpa using hs)
    refine uses_idle (fun _ => ⟨rfl,rfl⟩) fun now _ => ?_
    rw [← add_zero ({_} : Multiset Holding)]
    exact uses_indexPut hd (uses_then (discharges_notifyCommit _) fun _ => rfl)

/-- A granted slot is put to use, or nothing was granted. -/
theorem discharges_put (item : PutItem) : Discharges (put cfg item) 0 := by
  refine uses_idle (fun _ => ⟨rfl,rfl⟩) fun found _ => ?_
  split
  · exact rfl
  · refine uses_bind (uses_mono (countsSlots_custody.uses_allocForPut item.size) ?_)
    rintro a _ ⟨rfl,-⟩
    split
    · exact rfl
    · next hpos => exact discharges_putInto item (not_lt.mp hpos)

def writtenPair (y : (PutItem × StorePutResult) × Status) (g : Multiset Holding) : Prop :=
  y.1.2.offset < 2^63 ∧ Written y.1.2.offset y.1.2.allocSize y.1.1.data y.1.1.size y.2 g

theorem uses_batchWrite {writes : List (PutItem × StorePutResult)} {g : Multiset Holding}
    (h : Split (fun x g => x.2.offset < 2^63 ∧ g = {.blank x.2.offset x.2.allocSize}) writes g) :
    Uses custody (fun s g => ∃ statuses, s = lastError statuses ∧
        statuses.length = writes.length ∧ Split writtenPair (writes.zip statuses) g)
      (batchWrite cfg (writes.map fun x => ⟨x.2.offset,x.1.data,x.1.size⟩)) g := by
  rw [batchWrite, Prog.mapEach_map]
  have hitems : Split (fun x g => Uses custody (fun s g' => writtenPair (x,s) g')
      (writeItem cfg ⟨x.2.offset,x.1.data,x.1.size⟩) g) writes g := by
    refine h.mono ?_
    rintro x _ g' ⟨ho,rfl⟩
    exact uses_mono (uses_writeItem _ _) fun s g'' hw => ⟨ho,hw⟩
  refine uses_bind (uses_mono (uses_mapEach hitems) ?_)
  rintro statuses g' ⟨hl,hs⟩
  exact ⟨statuses,rfl,hl,hs⟩

theorem discharges_commitOne (x : PutItem × StorePutResult) {d : Bytes} (hd : x.1.data = some d) :
    Discharges (commitOne x) {.filled x.2.offset x.2.allocSize d x.1.size} := by
  refine uses_idle (fun _ => ⟨rfl,rfl⟩) fun now _ => ?_
  rw [← add_zero ({_} : Multiset Holding)]
  exact uses_indexPut hd rfl

theorem discharges_notifyAsync (records : List StoreKeyRecord) :
    Discharges (notifyAsync cfg records) 0 := by
  unfold notifyAsync
  split
  · exact fun _ _ => ⟨0,0,0,⟨rfl,rfl⟩,rfl,rfl⟩
  · exact rfl

theorem discharges_writeAndCommit {pairs : List (PutItem × StorePutResult)} {g : Multiset Holding}
    (h : Split (fun x g => x.2.offset < 2^63 ∧ g = {.blank x.2.offset x.2.allocSize})
      (pairs.filter fun x => toWrite x.2) g) : Discharges (writeAndCommit cfg pairs) g := by
  refine uses_bind (uses_mono (uses_batchWrite h) ?_)
  rintro s g' ⟨statuses,rfl,hl,hs⟩
  split
  · -- the slots of the failed batch go back to the allocator
    have hfree : Split (fun (x : PutItem × StorePutResult) g => Discharges
        (invoke (.free (int64 x.2.offset) x.2.allocSize)) g)
        (pairs.filter fun x => toWrite x.2) g' := by
      refine Split.of_zip hl (hs.mono ?_)
      rintro y _ _ ⟨hlt,-,h₁,ho,hl₁,rfl⟩
      exact discharges_free (by rw [ho, int64_of_lt hlt]) hl₁
    exact uses_bind (uses_mono (uses_forEach hfree) fun _ _ => id)
  · next hok =>
    have hok := (lastError_isOk statuses).mp (by simpa using hok)
    have hcommit : Split (fun x g => Discharges (commitOne x) g)
        (pairs.filter fun x => toWrite x.2) g' := by
      refine Split.of_zip hl (hs.mono ?_)
      rintro y hy g₁ ⟨-,hw,-⟩
      obtain ⟨d,hd,rfl⟩ := hw (hok y.2 (List.of_mem_zip hy).2)
      exact discharges_commitOne y.1 hd
    refine uses_bind (uses_mono (uses_mapEach (Q := fun _ g => g = 0) hcommit) ?_)
    rintro records g₁ ⟨-,hz⟩
    rw [hz.eq_zero]
    exact uses_then (discharges_notifyAsync records) fun _ => rfl

theorem discharges_batchPutItems (items : List PutItem) :
    Discharges (batchPutItems cfg items) 0 := by
  have hlookup : Split (fun (item : PutItem) g => Uses custody (fun _ g' => g' = 0) (do
      let found ← invoke (.indexGet item.key)
      pure found.isSome) g) items 0 :=
    split_zero fun item _ => uses_idle (fun _ => ⟨rfl,rfl⟩) fun _ _ => rfl
  refine uses_bind (uses_mono (uses_mapEach (Q := fun _ g => g = 0) hlookup) ?_)
  rintro present g ⟨hl,hz⟩
  rw [hz.eq_zero]
  refine uses_bind (uses_mono (countsSlots_custody.uses_allocateBatch _) ?_)
  rintro results g' ⟨hlen,hs⟩
  rw [List.length_zip, hl, min_self] at hlen
  exact discharges_writeAndCommit (split_writes hlen hs)

theorem discharges_batchPut (keys : List Key) (dataPtrs : List (Option Bytes)) (sizes : List ℕ) :
    Discharges (batchPut cfg keys dataPtrs sizes) 0 := by
  unfold batchPut
  split
  · exact rfl
  · exact discharges_batchPutItems _

theorem discharges_read (offset : ℕ) (buffer : Option Bytes) (size : ℕ) (reader : Key) :
    Discharges (read offset buffer size reader) 0 := by
  unfold read
  split
  · exact rfl
  · refine uses_idle (fun _ => ⟨rfl,rfl⟩) fun r _ => ?_
    obtain ⟨r,bytes⟩ := r
    dsimp only
    split
    · exact rfl
    · split <;> exact rfl

theorem discharges_get (key : Key) (buffer : Option Bytes) (bufferSize : ℕ) :
    Discharges (get key buffer bufferSize) 0 := by
  refine uses_idle (fun _ => ⟨rfl,rfl⟩) fun record _ => ?_
  cases record with
  | none => exact rfl
  | some record =>
    dsimp only
    split
    · exact rfl
    · refine uses_then (discharges_read _ _ _ _) fun r => ?_
      split <;> exact rfl

theorem discharges_contains (key : Key) : Discharges (contains key) 0 :=
  uses_idle (fun _ => ⟨rfl,rfl⟩) fun _ _ => rfl

theorem discharges_batchContains (keys : List Key) : Discharges (batchContains keys) 0 :=
  fun _ _ => ⟨0,0,0,⟨rfl,rfl⟩,rfl,rfl⟩

theorem discharges_remove (key : Key) : Discharges (remove cfg key) 0 := by
  refine uses_then (discharges_notifyRemove _) fun s => ?_
  split
  · exact rfl
  · refine uses_perform fun record _ => ⟨0,_,0,⟨rfl,rfl⟩,rfl,?_⟩
    cases record with
    | none => exact rfl
    | some record =>
      refine uses_perform fun _ _ => ⟨_,0,0,⟨rfl,rfl⟩,rfl,?_⟩
      exact rfl

/-- Whatever an operation of the store takes, it has put somewhere when it returns. -/
theorem discharges_run (op : StoreOp) : Discharges (op.run cfg) 0 := by
  have hmap : ∀ {α : Type} {p : StoreProg α} (f : α → StoreReply), Discharges p 0 →
      Discharges (f <$> p) 0 := fun f hp => uses_then hp fun _ => rfl
  cases op with
  | put key data size => exact hmap _ (discharges_put _)
  | batchPut keys dataPtrs sizes => exact hmap _ (discharges_batchPut _ _ _)
  | get key buffer bufferSize => exact hmap _ (discharges_get _ _ _)
  | contains key => exact hmap _ (discharges_contains key)
  | batchContains keys => exact hmap _ (discharges_batchContains keys)
  | remove key => exact hmap _ (discharges_remove key)
  | evictPass => exact hmap _ discharges_tryEvictBatchLRU
  | flushExpired => exact hmap _ discharges_flushExpired
  | flushAllForced => exact hmap _ discharges_flushAllForced

end StoreOps

end FalconKV
