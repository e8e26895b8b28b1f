import Mathlib.Data.Rat.Cast.Order
import Mathlib.Tactic.Linarith
import FalconKV.AtomicCalls.Discipline
import FalconKV.Store.Conservation

/-! # Eviction down to the low watermark

One pass of the eviction thread above the high watermark goes round its loop while the
usage of the allocator is above the low one. If no slot is in use without need when the
loop tests the usage, it evicts at most one batch more than would have been enough.
-/
namespace FalconKV
open AtomicCalls

structure Watermarks where
  round : ℚ → ℚ
  mono : Monotone round
  high : ℚ
  low : ℚ
  round_low : round low = low

/-- Watermarks that are doubles, for tests whose ratios are doubles too. -/
def Watermarks.exact (high low : ℚ) : Watermarks := ⟨id,monotone_id,high,low,rfl⟩

def SlotAllocator.getUsageRatio (w : Watermarks) (a : SlotAllocator) : ℚ :=
  if !a.initialized || a.totalSlots == 0 then 0 else w.round (a.usedSlots / a.totalSlots)

inductive EvictCall
  | atStore (op : StoreCall)
  | loadRunning
  /-- whether it is the test of the loop, against the low watermark -/
  | getUsageRatio (inLoop : Bool)

abbrev EvictCall.Res : EvictCall → Type
  | atStore op => op.Res
  | loadRunning => Bool
  | getUsageRatio _ => ℚ

abbrev evictCalls : Signature := ⟨EvictCall,EvictCall.Res⟩

structure EvictChoice where
  store : StoreChoice := {}
  running : Bool := true

def EvictCall.step (w : Watermarks) (op : EvictCall) (c : EvictChoice) (s : Store) :
    Option (op.Res × Store) :=
  match op with
  | .atStore op => s.step op c.store
  | .loadRunning => some (c.running,s)
  | .getUsageRatio _ => some (s.allocator.getUsageRatio w,s)

def evictMachine (w : Watermarks) : Machine evictCalls Store := ⟨EvictChoice,EvictCall.step w⟩

abbrev EvictProg := Prog evictCalls

namespace EvictManager

abbrev call (op : EvictCall) : EvictProg op.Res := Prog.perform (E := evictCalls) op

def atStore {α : Type} (p : StoreProg α) : EvictProg α := p.interp fun op => call (.atStore op)

def evictRounds (cfg : StoreConfig) (w : Watermarks) : ℕ → EvictProg Unit
  | 0 => pure ()
  | rounds + 1 => do
    let running ← call .loadRunning
    if !running then pure ()
    else do
      let usage ← call (.getUsageRatio true)
      if usage ≤ w.low then pure ()
      else do
        let evicted ← atStore (StoreOps.tryEvictBatchLRU cfg)
        if !evicted then pure () else evictRounds cfg w rounds

def evictLoopPass (cfg : StoreConfig) (w : Watermarks) (rounds : ℕ) : EvictProg Unit := do
  let usage ← call (.getUsageRatio false)
  if usage ≤ w.high then pure () else evictRounds cfg w rounds

def besides (cfg : StoreConfig) (p : EvictProg Unit) : Prop :=
  ∃ op : StoreOp, (op matches .flushExpired | .get .. | .contains _ | .batchContains _) = true ∧
    p = atStore ((fun _ => ()) <$> op.run cfg)

end EvictManager

/-- The slots that index records own. -/
def Store.ownedSlots (s : Store) : ℕ := s.index.index.entries.length

def Watermarks.freedInTime (w : Watermarks) (s : Store) : EvictCall → Bool
  | .getUsageRatio true => decide ((s.ownedSlots : ℚ) ≤ w.low * s.allocator.totalSlots →
      (s.allocator.usedSlots : ℚ) ≤ w.low * s.allocator.totalSlots)
  | _ => true

namespace EvictBatch

def guar : (op : StoreCall) → op.Res → Prop
  | .getLRUCandidates maxCount, r => r.length ≤ maxCount
  | _, _ => True

def storeRule : StoreCall → Multiset ℕ → Multiset ℕ → Prop
  | .indexRemove .., used, made => ∃ n, used = {n + 1} ∧ made = {n}
  | .indexPut .., _, _ | .alloc .., _, _ | .batchAlloc .., _, _ => False
  | _, used, made => used = 0 ∧ made = 0

def storeDiscipline : Discipline storeCalls (Multiset ℕ) := ⟨guar,fun op _ => storeRule op⟩

def discipline (w : Watermarks) : Discipline evictCalls (Multiset ℕ) where
  guar
    | .atStore op, r => guar op r
    | _, _ => True
  rule
    | .atStore op, _, used, made => storeRule op used made
    | .getUsageRatio true, r, used, made =>
      ∃ n, used = {n} ∧ made = {if r ≤ w.low then 0 else 16}
    | _, _, used, made => used = 0 ∧ made = 0

variable {cfg : StoreConfig} {w : Watermarks} {α β : Type}

/-- Started with `g`, a program of store calls ends with one number, or with none. -/
abbrev Spends {α : Type} (p : StoreProg α) (g : Multiset ℕ) : Prop :=
  Uses storeDiscipline (fun _ g' => ∃ n, g' = {n}) p g

/-- The calls of the flusher and of lookups. -/
def Quiet : StoreCall → Prop
  | .getWallTimeMs | .takeExpired _ | .free .. | .indexGet _ | .indexBatchContains _ | .pread .. => True
  | _ => False

theorem makes_flushExpired : StoreOps.flushExpired.Makes Quiet := by
  apply Prog.Makes.bind (Prog.makes_perform trivial)
  intro now
  apply Prog.Makes.bind (Prog.makes_perform trivial)
  intro toFree
  exact (Prog.makes_forEach (fun _ => Prog.makes_perform trivial) toFree).bind fun _ => trivial

theorem makes_read (offset : ℕ) (buffer : Option Bytes) (size : ℕ) (reader : Key) :
    (StoreOps.read offset buffer size reader).Makes Quiet := by
  unfold StoreOps.read
  split
  · trivial
  · apply Prog.Makes.bind (Prog.makes_perform trivial)
    intro r
    dsimp only
    split
    · trivial
    · split <;> trivial

theorem makes_get (key : Key) (buffer : Option Bytes) (bufferSize : ℕ) :
    (StoreOps.get key buffer bufferSize).Makes Quiet := by
  apply Prog.Makes.bind (Prog.makes_perform trivial)
  intro record
  cases record with
  | none => trivial
  | some record =>
    dsimp only
    split
    · trivial
    · apply (makes_read _ _ _ _).bind
      intro r
      split <;> trivial

/-- The calls of a store operation that may run beside the pass. -/
theorem makes_besides {op : StoreOp}
    (hop : (op matches .flushExpired | .get .. | .contains _ | .batchContains _) = true) :
    (op.run cfg).Makes Quiet := by
  cases op with
  | get key buffer bufferSize => exact (makes_get key buffer bufferSize).bind fun _ => trivial
  | contains key =>
    have hcontains : (StoreOps.contains key).Makes Quiet :=
      (Prog.makes_perform trivial).bind fun _ => trivial
    exact hcontains.bind fun _ => trivial
  | batchContains keys => exact (Prog.makes_perform trivial).bind fun _ => trivial
  | flushExpired => exact makes_flushExpired.bind fun _ => trivial
  | _ => cases hop

theorem spends_dropCandidate (rec : StoreKeyRecord) (n : ℕ) :
    Uses storeDiscipline (fun _ g => g = {n}) (StoreOps.dropCandidate rec) {n + 1} := by
  refine uses_perform fun _ _ => ⟨{n + 1},{n},0,⟨n,rfl,rfl⟩,rfl,?_⟩
  rw [add_zero]
  exact uses_idle (k := pure) (fun _ => ⟨rfl,rfl⟩) fun _ _ => rfl

theorem spends_dropCandidates (candidates : List StoreKeyRecord) {n : ℕ} (h : candidates.length ≤ n) :
    Spends (Prog.forEach StoreOps.dropCandidate candidates) {n} := by
  induction candidates generalizing n with
  | nil => exact ⟨n,rfl⟩
  | cons rec candidates ih =>
    obtain ⟨m,rfl⟩ : ∃ m, n = m + 1 := ⟨n - 1,by rw [List.length_cons] at h; omega⟩
    refine uses_bind (uses_mono (spends_dropCandidate rec m) ?_)
    rintro _ _ rfl
    exact ih (by rw [List.length_cons] at h; omega)

theorem spends_tryEvictBatchLRU : Spends (StoreOps.tryEvictBatchLRU cfg) {16} := by
  refine uses_idle (fun _ => ⟨rfl,rfl⟩) fun candidates hlength => ?_
  split
  · exact ⟨16,rfl⟩
  · unfold StoreOps.evictEntries
    split
    · exact ⟨16,rfl⟩
    · have hnotify : Uses storeDiscipline (fun _ g' => g' = 0)
          (StoreOps.notifyRemove cfg (candidates.map StoreKeyRecord.key)) 0 := by
        unfold StoreOps.notifyRemove
        split
        · exact uses_idle (k := pure) (fun _ => ⟨rfl,rfl⟩) fun _ _ => rfl
        · exact rfl
      refine uses_bind_keep hnotify fun s => ?_
      split
      · exact ⟨16,rfl⟩
      · refine uses_bind (uses_mono (spends_dropCandidates candidates hlength) ?_)
        rintro _ _ ⟨n,rfl⟩
        exact ⟨n,rfl⟩

theorem uses_atStore {post : α → Multiset ℕ → Prop} {p : StoreProg α} {g : Multiset ℕ}
    (hp : Uses storeDiscipline post p g) : Uses (discipline w) post (EvictManager.atStore p) g := by
  refine uses_interp ?_ hp
  intro op g P hop r hr
  exact hop r hr

/-- A program that runs beside the pass needs no allowance. -/
theorem uses_besides {p : EvictProg Unit} (hp : EvictManager.besides cfg p) :
    Uses (discipline w) (fun _ _ => True) p 0 := by
  obtain ⟨op,hop,rfl⟩ := hp
  have hquiet : ((fun _ => ()) <$> op.run cfg).Makes Quiet := (makes_besides hop).bind fun _ => trivial
  have huses : Uses storeDiscipline (fun _ g => g = 0) ((fun _ => ()) <$> op.run cfg) 0 := by
    apply uses_of_makes hquiet
    intro call r hcall
    cases call with
    | getWallTimeMs | takeExpired | free | indexGet | indexBatchContains | pread => exact ⟨rfl,rfl⟩
    | _ => cases hcall
  exact uses_mono (uses_atStore huses) fun _ _ _ => trivial

theorem uses_evictRounds (rounds n : ℕ) :
    Uses (discipline w) (fun _ _ => True) (EvictManager.evictRounds cfg w rounds) {n} := by
  induction rounds generalizing n with
  | zero => trivial
  | succ rounds ih =>
    refine uses_idle (fun _ => ⟨rfl,rfl⟩) fun running _ => ?_
    split
    · trivial
    · refine uses_perform fun usage _ => ⟨{n},_,0,⟨n,rfl,rfl⟩,rfl,?_⟩
      rw [add_zero]
      split
      · trivial
      · refine uses_bind (uses_mono (uses_atStore spends_tryEvictBatchLRU) ?_)
        rintro evicted _ ⟨m,rfl⟩
        split
        · trivial
        · exact ih m

theorem uses_evictLoopPass (rounds : ℕ) :
    Uses (discipline w) (fun _ _ => True) (EvictManager.evictLoopPass cfg w rounds) {0} := by
  refine uses_idle (fun _ => ⟨rfl,rfl⟩) fun usage _ => ?_
  split
  · trivial
  · exact uses_evictRounds rounds 0

end EvictBatch

/-- With `n` more removals, no more than a batch is evicted beyond what would have been enough. -/
def Watermarks.Within (w : Watermarks) (s₀ s : Store) (n : ℕ) : Prop :=
  ∀ k : ℕ, ((s₀.ownedSlots - k : ℕ) : ℚ) ≤ w.low * s₀.allocator.totalSlots →
    s₀.ownedSlots - s.ownedSlots + n ≤ k + 16

structure Watermarks.Bounded (w : Watermarks) (s₀ s : Store) (held : Multiset ℕ) : Prop where
  totalSlots : s.allocator.totalSlots = s₀.allocator.totalSlots
  one : held.card ≤ 1
  within : w.Within s₀ s 0
  allowed : ∀ n ∈ held, w.Within s₀ s n

section
variable {w : Watermarks} {s₀ s s' : Store} {held used made rest : Multiset ℕ}

/-- A test that the loop passes leaves something to evict, if no slot is in use without need. -/
theorem Watermarks.lt_owned_of_test (hratio : w.low < s.allocator.getUsageRatio w)
    (hfreed : (s.ownedSlots : ℚ) ≤ w.low * s.allocator.totalSlots →
      (s.allocator.usedSlots : ℚ) ≤ w.low * s.allocator.totalSlots) :
    s.allocator.totalSlots = 0 ∨ w.low * s.allocator.totalSlots < s.ownedSlots := by
  by_cases htotal : s.allocator.totalSlots = 0
  · exact .inl htotal
  right
  have hpos : (0 : ℚ) < s.allocator.totalSlots := by exact_mod_cast Nat.pos_of_ne_zero htotal
  by_contra hle
  have hused := hfreed (not_lt.mp hle)
  unfold SlotAllocator.getUsageRatio at hratio
  split at hratio
  · have hneg : w.low * s.allocator.totalSlots < 0 := mul_neg_of_neg_of_pos hratio hpos
    have hnonneg : (0 : ℚ) ≤ s.allocator.usedSlots := Nat.cast_nonneg _
    linarith
  · have hexact : (s.allocator.usedSlots : ℚ) / s.allocator.totalSlots ≤ w.low :=
      (div_le_iff₀ hpos).mpr hused
    have hrounded := w.mono hexact
    rw [w.round_low] at hrounded
    linarith

/-- After such a test a whole batch may be evicted. -/
theorem Watermarks.Bounded.test (h : w.Bounded s₀ s held)
    (howned : s.allocator.totalSlots = 0 ∨ w.low * s.allocator.totalSlots < s.ownedSlots) :
    w.Within s₀ s 16 := by
  intro k hk
  have hlt : s₀.ownedSlots - k ≤ s.ownedSlots := by
    rcases howned with hzero | hlow
    · rw [← h.totalSlots, hzero] at hk
      have hnone : s₀.ownedSlots - k = 0 := by
        have hcast : ((s₀.ownedSlots - k : ℕ) : ℚ) ≤ 0 := by simpa using hk
        exact_mod_cast le_antisymm hcast (Nat.cast_nonneg _)
      omega
    · rw [h.totalSlots] at hlow
      have hcast : ((s₀.ownedSlots - k : ℕ) : ℚ) < s.ownedSlots := lt_of_le_of_lt hk hlow
      exact le_of_lt (by exact_mod_cast hcast)
  omega

theorem ownedSlots_eq (s : Store) : s.ownedSlots = s.index.extents.card := by
  simp [Store.ownedSlots, StoreMetaIndex.extents]

/-- One removal takes at most one record. -/
theorem card_extents_remove (m : StoreMetaIndex) (key : Key) :
    m.extents.card ≤ (m.remove key).2.extents.card + 1 := by
  cases hf : m.find key with
  | none =>
    rw [StoreMetaIndex.extents_remove_of_none hf]
    omega
  | some rec =>
    rw [StoreMetaIndex.extents_remove_of_some hf, Multiset.card_add, Multiset.card_singleton]
    omega

theorem totalSlots_free (a : SlotAllocator) (offset : ℤ) (n : ℕ) :
    (a.free offset n).totalSlots = a.totalSlots := by
  rw [SlotAllocator.free_frame]

/-- What a call that neither takes slots nor inserts does. -/
theorem Watermarks.Bounded.storeCall (h : w.Bounded s₀ s (used + rest)) {op : StoreCall}
    {c : StoreChoice} {r : op.Res} (hs : s.step op c = some (r,s'))
    (hr : EvictBatch.storeRule op used made) : w.Bounded s₀ s' (made + rest) := by
  have hindex := Store.index_step hs
  have htotal : s'.allocator.totalSlots = s.allocator.totalSlots := by
    cases op with
    | alloc | batchAlloc => cases hr
    | free offset n =>
      cases hs
      exact totalSlots_free _ _ n
    | pwrite | uringWrite | pread =>
      obtain ⟨file,rfl⟩ := Store.onFile_frame hs rfl
      rfl
    | _ =>
      cases hs
      rfl
  cases hindex with
  | put => cases hr
  | remove key snapshot hm =>
    obtain ⟨n,rfl,rfl⟩ := hr
    have howned : s.ownedSlots ≤ s'.ownedSlots + 1 := by
      rw [ownedSlots_eq, ownedSlots_eq, hm]
      exact card_extents_remove s.index key
    have hrest : rest = 0 := by
      have hone := h.one
      rw [Multiset.card_add, Multiset.card_singleton] at hone
      exact Multiset.card_eq_zero.mp (by omega)
    subst hrest
    have hbatch := h.allowed (n + 1) (by simp)
    have hwithin : w.Within s₀ s' n := by
      intro k hk
      have hk' := hbatch k hk
      omega
    refine ⟨htotal.trans h.totalSlots,by simp,?_,?_⟩
    · intro k hk
      have hk' := hwithin k hk
      omega
    · intro m hm
      rw [add_zero, Multiset.mem_singleton] at hm
      rwa [hm]
  | keep hput hremove hsame =>
    have howned : s'.ownedSlots = s.ownedSlots := by
      rw [ownedSlots_eq, ownedSlots_eq, hsame.extents]
    have hnone : used = 0 ∧ made = 0 := by
      cases op with
      | indexPut => cases hput
      | indexRemove => cases hremove
      | alloc | batchAlloc => cases hr
      | _ => exact hr
    obtain ⟨rfl,rfl⟩ := hnone
    refine ⟨htotal.trans h.totalSlots,h.one,?_,?_⟩
    · intro k hk
      rw [howned]
      exact h.within k hk
    · intro n hn k hk
      rw [howned]
      exact h.allowed n hn k hk

theorem keeps_bounded (w : Watermarks) (s₀ : Store) :
    Keeps (evictMachine w) (EvictBatch.discipline w) (fun s op => w.freedInTime s op = true)
      fun _ => w.Bounded s₀ where
  guar := by
    intro _ s op c r s' total _ _ hs
    cases op with
    | atStore op =>
      cases op with
      | getLRUCandidates maxCount =>
        cases hs
        exact List.length_take_le _ _
      | _ => trivial
    | _ => trivial
  step := by
    intro _ _ s op c r s' used made rest h hok hs hr
    cases op with
    | atStore op => exact h.storeCall hs hr
    | loadRunning =>
      obtain ⟨rfl,rfl⟩ := hr
      cases hs
      exact h
    | getUsageRatio inLoop =>
      cases hs
      cases inLoop with
      | false =>
        obtain ⟨rfl,rfl⟩ := hr
        exact h
      | true =>
        obtain ⟨n,rfl,rfl⟩ := hr
        have hallowed : w.Within s₀ s (if s.allocator.getUsageRatio w ≤ w.low then 0 else 16) := by
          split
          · exact h.within
          · next hratio =>
            exact h.test (Watermarks.lt_owned_of_test (not_le.mp hratio) (of_decide_eq_true hok))
        refine ⟨h.totalSlots,by simpa using h.one,h.within,?_⟩
        intro m hm
        rcases Multiset.mem_add.mp hm with hm | hm
        · rwa [Multiset.mem_singleton.mp hm]
        · exact h.allowed m (Multiset.mem_add.mpr (.inr hm))

end

end FalconKV
