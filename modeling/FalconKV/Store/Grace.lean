import FalconKV.Store.Shelter

/-! # Reads of slots that wait for their grace period

A reader looks a key up, in the index or at the Meta, and reads its slot later. Next to the
store, `GraceState` records which keys were looked up, what was bound to them, and when their
slots were enqueued. Time passes between calls, whatever the wall clock says.
-/
namespace FalconKV
open AtomicCalls

structure Resolved where
  key : Key
  offset : ℕ
  /-- what was bound to the key -/
  value : List UInt8
  /-- when the slot was first enqueued since -/
  enqueuedAt : Option ℕ
  /-- a forced flush has taken the slot out of the queue -/
  forced : Bool

namespace Resolved

def enqueue (offset time : ℕ) (e : Resolved) : Resolved :=
  if e.offset = offset ∧ e.enqueuedAt = none then { e with enqueuedAt := some time } else e

def flush (offsets : List ℕ) (e : Resolved) : Resolved :=
  if e.offset ∈ offsets then { e with forced := true } else e

end Resolved

structure GraceState where
  store : Store
  bindings : KeyBindings
  time : ℕ
  /-- when the slot at an offset was last enqueued -/
  queuedSince : ℕ → ℕ
  resolved : List Resolved

/-- A lookup at the Meta is answered between the commit of a record and the `SyncRemove` of
its key, when the record is in the index. -/
inductive GraceCall
  | atStore (op : StoreCall)
  | metaLookup (key : Key)
  | elapse (ms : ℕ)

abbrev GraceCall.Res : GraceCall → Type
  | atStore op => op.Res
  | metaLookup _ => Option StoreKeyRecord
  | elapse _ => Unit

abbrev graceCalls : Signature := ⟨GraceCall,GraceCall.Res⟩

namespace GraceState

def init (cfg : StoreConfig) : GraceState := ⟨.init cfg,.empty,0,fun _ => 0,[]⟩

def resolve (x : GraceState) (key : Key) (rec : Option StoreKeyRecord) : List Resolved :=
  match rec with
  | some rec => ⟨key,rec.offset,(x.bindings key).getD [],none,false⟩ :: x.resolved
  | none => x.resolved

def noteResolved : (op : StoreCall) → op.Res → GraceState → List Resolved
  | .indexGet key, rec, x => x.resolve key rec
  | .enqueue _ offset _, _, x => x.resolved.map (Resolved.enqueue offset x.time)
  | .takeAll, entries, x => x.resolved.map (Resolved.flush (entries.map EvictEntry.offset))
  | _, _, x => x.resolved

def noteQueued : StoreCall → GraceState → ℕ → ℕ
  | .enqueue _ offset _, x => Function.update x.queuedSince offset x.time
  | _, x => x.queuedSince

def step (op : GraceCall) (c : StoreChoice) (x : GraceState) : Option (op.Res × GraceState) :=
  match op with
  | .atStore op => (x.store.step op c).map fun y => (y.1,{
      store := y.2
      bindings := Mirror.note op y.1 x.store x.bindings
      time := x.time
      queuedSince := noteQueued op x
      resolved := noteResolved op y.1 x })
  | .metaLookup key =>
    some (x.store.index.find key,{ x with resolved := x.resolve key (x.store.index.find key) })
  | .elapse ms => some ((),{ x with time := x.time + ms })

end GraceState

def graceMachine : Machine graceCalls GraceState := ⟨StoreChoice,GraceState.step⟩

abbrev GraceProg := Prog graceCalls

namespace GraceReader

abbrev call (op : GraceCall) : GraceProg op.Res := Prog.perform (E := graceCalls) op

def atStore {α : Type} (p : StoreProg α) : GraceProg α := p.interp fun op => call (.atStore op)

structure Want where
  key : Key
  buffer : Option Bytes
  size : ℕ

def remoteRead (cfg : StoreConfig) (wants : List Want) : GraceProg Unit := do
  let found ← Prog.mapEach (fun want => do
    let rec ← call (.metaLookup want.key)
    pure (rec.map fun rec => (⟨rec.offset,want.buffer,want.size,want.key⟩ : ReadItem))) wants
  let _ ← atStore (StoreOps.batchRead cfg (found.filterMap id))
  pure ()

def starts (cfg : StoreConfig) (p : GraceProg Unit) : Prop :=
  (∃ op : StoreOp, p = atStore ((fun _ => ()) <$> op.run cfg)) ∨
    (∃ wants, p = remoteRead cfg wants) ∨ ∃ ms, p = call (.elapse ms)

end GraceReader

def GraceCall.completed : (op : GraceCall) → op.Res → Option (ℕ × ℕ × Key × Bytes)
  | .atStore (.pread offset size reader), r =>
    if r.1.count = size then some (offset,size,reader,r.2) else none
  | .atStore (.uringRead offset size reader), r =>
    if Status.isOk r.1 then some (offset,size,reader,r.2) else none
  | _, _ => none

/-- A completed read within the grace period of a slot that was looked up for the same key
delivers what was bound to it, unless it is excused. -/
def ReadsSafe (grace : ℕ) (excused : Resolved → Prop) (tr : List (Event graceCalls GraceState)) :
    Prop :=
  ∀ e ∈ tr, ∀ offset size key bytes, GraceCall.completed e.op e.res = some (offset,size,key,bytes) →
    ∀ x ∈ e.before.resolved, x.key = key → x.offset = offset → size ≤ x.value.length →
      (∀ t, x.enqueuedAt = some t → e.before.time < t + grace) → ¬ excused x →
        bytesOf bytes size = x.value.take size

/-- Between the stamp of an entry and a reading, the clock did not go back, and it did not go on by
more than the time that has passed since the entry was enqueued. -/
def GraceState.keptTime (x : GraceState) (now : ℕ) (e : EvictEntry) : Bool :=
  decide (e.enqueueTimeMs ≤ now) && decide (now + x.queuedSince e.offset ≤ x.time + e.enqueueTimeMs)

/-- Evictions act on current snapshots, writes stay in their slots, and the clock has kept the time
since the stamps of the entries that a timed flush looks at. -/
def GraceState.orderly (x : GraceState) : GraceCall → Bool
  | .atStore (.takeExpired now) => x.store.pending.entries.all (x.keptTime now)
  | .atStore op => x.store.wellSized op
  | _ => true

abbrev GraceRun (cfg : StoreConfig) (ok : GraceState → GraceCall → Prop) :
    List (Event graceCalls GraceState) → Pool graceCalls GraceState Unit → Prop :=
  Run graceMachine (GraceReader.starts cfg) ok ⟨.init cfg,[]⟩

namespace GraceState
open Store

variable {grace : ℕ} {x : GraceState} {e : Resolved} {s' : Store} {op : StoreCall} {c : StoreChoice}
  {r : op.Res} {used made rest held : Multiset Holding} {lost : Multiset ℕ} {key : Key}

def atStore (x : GraceState) (op : StoreCall) (r : op.Res) (s' : Store) : GraceState where
  store := s'
  bindings := Mirror.note op r x.store x.bindings
  time := x.time
  queuedSince := noteQueued op x
  resolved := noteResolved op r x

/-- Nothing is promised any more to who has looked up the key. -/
def Settled (grace time : ℕ) (e : Resolved) : Prop :=
  e.forced = true ∨ ∃ t, e.enqueuedAt = some t ∧ t + grace ≤ time

structure Kept (x : GraceState) (held : Multiset Holding) (lost : Multiset ℕ) (e : Resolved) :
    Prop where
  sheltered : e.offset ∈ x.store.sheltered held lost
  fits : e.value.length ≤ x.store.allocator.slotSize
  bytes : bytesOf (fun i => x.store.file (e.offset + i)) e.value.length = e.value
  fresh : e.enqueuedAt = none → e.offset ∉ x.store.pending.offsets
  queued : ∀ t, e.enqueuedAt = some t →
    e.offset ∈ x.store.pending.offsets ∧ x.queuedSince e.offset = t

structure Sheltering (grace : ℕ) (x : GraceState) (held : Multiset Holding) (lost : Multiset ℕ) :
    Prop where
  books : Books x.store held lost
  fitting : Fitting x.store held
  written : Written x.store held
  contents : x.store.contents = x.bindings
  gracePeriod : x.store.pending.gracePeriodMs = grace
  kept : ∀ e ∈ x.resolved, Settled grace x.time e ∨ Kept x held lost e

theorem Sheltering.intact (h : Sheltering grace x held lost) : Intact x.store held :=
  ⟨⟨⟨lost,h.books⟩,h.fitting⟩,h.written⟩

theorem wellSized_of_orderly (h : x.orderly (.atStore op) = true) :
    x.store.wellSized op = true := by
  cases op with
  | takeExpired now => rfl
  | _ => exact h

theorem Kept.bytes_step (h : Kept x (used + rest) lost e)
    (hbooks : Books x.store (used + rest) lost) (hok : x.store.wellSized op = true)
    (hs : x.store.step op c = some (r,s')) (hr : Custody.rule op r used made) :
    bytesOf (fun i => s'.file (e.offset + i)) e.value.length = e.value := by
  have hwrite := (Bool.and_eq_true_iff.mp hok).2
  have hsame : bytesOf (fun i => s'.file (e.offset + i)) e.value.length =
      bytesOf (fun i => x.store.file (e.offset + i)) e.value.length := by
    apply bytesOf_congr
    intro i hi
    exact hbooks.file_sheltered hwrite hs hr h.sheltered (hi.trans_le h.fits)
  exact hsame.trans h.bytes

/-- A call that does not move the slot. -/
theorem Kept.step (h : Kept x (used + rest) lost e) (hbooks : Books x.store (used + rest) lost)
    (hok : x.orderly (.atStore op) = true) (hs : x.store.step op c = some (r,s'))
    (hr : Custody.rule op r used made) (htaken : e.offset ∉ op.taken r)
    (hop : ∀ key n, op ≠ .enqueue key e.offset n) :
    Kept (x.atStore op r s') (made + rest) (x.store.overwritten op + lost) e where
  sheltered := mem_sheltered_step hs hr h.sheltered htaken
  fits := hbooks.slotSize_step h.sheltered hs h.fits
  bytes := h.bytes_step hbooks (wellSized_of_orderly hok) hs hr
  fresh := fun hnone hmem => h.fresh hnone (mem_pending_of_step hs hmem hop)
  queued := by
    intro t ht
    obtain ⟨hmem,hsince⟩ := h.queued t ht
    refine ⟨mem_pending_step hs hmem htaken,?_⟩
    rw [← hsince]
    cases op with
    | enqueue k o n =>
      have hne : e.offset ≠ o := by
        rintro rfl
        exact hop k n rfl
      exact Function.update_of_ne hne _ _
    | _ => rfl

/-- A record that is in the index. -/
theorem Sheltering.kept_of_find {rec : StoreKeyRecord} (h : Sheltering grace x held lost)
    (hf : x.store.index.find key = some rec) :
    Kept x held lost ⟨key,rec.offset,(x.bindings key).getD [],none,false⟩ := by
  have hoffset : rec.offset ∈ x.store.index.offsets := StoreMetaIndex.mem_offsets hf
  have hvalue : (x.bindings key).getD [] = x.store.valueOf rec := by
    rw [← h.contents, Store.contents, hf]
    rfl
  have hlength : (x.store.valueOf rec).length = rec.size := length_bytesOf _ _
  have hsize := h.fitting.size_le hf
  have hslot := h.books.record_allocSize hf
  constructor
  · exact mem_sheltered.mpr (.inl hoffset)
  · dsimp only
    rw [hvalue]
    omega
  · dsimp only
    rw [hvalue, hlength]
    rfl
  · intro _ hmem
    have hown := (Multiset.nodup_add.mp (Multiset.nodup_add.mp h.books.nodup).1).1
    have hboth := (Multiset.nodup_add.mp (Multiset.nodup_add.mp hown).1).2.2
    exact Multiset.disjoint_left.mp hboth hoffset hmem
  · intro t ht
    cases ht

/-- The slot is enqueued. -/
theorem Kept.enqueue {n : ℕ} {r : Unit} (h : Kept x (used + rest) lost e)
    (hbooks : Books x.store (used + rest) lost)
    (hs : x.store.step (.enqueue key e.offset n) c = some (r,s'))
    (hr : Custody.rule (.enqueue key e.offset n) r used made) :
    Kept (x.atStore (.enqueue key e.offset n) r s') (made + rest) (0 + lost)
      (e.enqueue e.offset x.time) := by
  have hused : used = {.leaving e.offset} := hr.2
  have hheld : Holding.leaving e.offset ∈ used + rest := by
    rw [hused]
    exact Multiset.mem_add.mpr (.inl (Multiset.mem_singleton_self _))
  have hnone : e.enqueuedAt = none := by
    cases ht : e.enqueuedAt with
    | none => rfl
    | some t => exact absurd (h.queued t ht).1 (hbooks.not_mem_pending hheld)
  rw [Resolved.enqueue, if_pos ⟨rfl,hnone⟩]
  have hmem : e.offset ∈ s'.pending.offsets := by
    apply mem_pending_of_leaving hs hr
    rw [hused, leavingOf_leaving]
    exact Multiset.mem_singleton_self _
  constructor
  · exact mem_sheltered.mpr (.inr (.inl hmem))
  · exact hbooks.slotSize_step h.sheltered hs h.fits
  · exact h.bytes_step hbooks rfl hs hr
  · intro hfresh
    cases hfresh
  · intro t ht
    cases ht
    have hsince : Function.update x.queuedSince e.offset x.time e.offset = x.time :=
      Function.update_self _ _ _
    exact ⟨hmem,hsince⟩

theorem Settled.enqueue {time o now : ℕ} (h : Settled grace time e) :
    Settled grace time (e.enqueue o now) := by
  unfold Resolved.enqueue
  split
  · next hcond =>
    rcases h with hforced | ⟨t,ht,-⟩
    · exact .inl hforced
    · rw [hcond.2] at ht
      cases ht
  · exact h

/-- The difference of a later reading and an earlier one does not wrap. -/
theorem subU64_le {now stamp : ℕ} (h : stamp ≤ now) : subU64 now stamp ≤ now - stamp := by
  unfold subU64
  omega

/-- An entry that counts as expired has waited for the grace period, if the clock has kept the time. -/
theorem waited_of_expired {now : ℕ} {entry : EvictEntry} (hexpired : x.store.pending.expired now entry = true)
    (hkept : x.keptTime now entry = true) :
    x.queuedSince entry.offset + x.store.pending.gracePeriodMs ≤ x.time := by
  obtain ⟨hstamp,htime⟩ := Bool.and_eq_true_iff.mp hkept
  have hstamp := of_decide_eq_true hstamp
  have htime := of_decide_eq_true htime
  have hgrace : x.store.pending.gracePeriodMs ≤ subU64 now entry.enqueueTimeMs := of_decide_eq_true hexpired
  have hsub := subU64_le hstamp
  omega

/-- What a timed flush takes has waited for the grace period. -/
theorem Kept.settled_of_taken {now : ℕ} {r : List EvictEntry} (h : Kept x held lost e)
    (hgrace : x.store.pending.gracePeriodMs = grace)
    (hok : x.orderly (.atStore (.takeExpired now)) = true)
    (hs : x.store.step (.takeExpired now) c = some (r,s'))
    (htaken : e.offset ∈ StoreCall.taken (.takeExpired now) r) : Settled grace x.time e := by
  have hpending := mem_pending_of_taken hs htaken
  cases ht : e.enqueuedAt with
  | none => exact absurd hpending (h.fresh ht)
  | some t =>
    have hsince := (h.queued t ht).2
    cases hs
    obtain ⟨entry,hentry,hoffset⟩ := List.mem_map.mp htaken
    obtain ⟨hmem,hexpired⟩ := List.mem_filter.mp hentry
    have hwaited := waited_of_expired hexpired (List.all_eq_true.mp hok entry hmem)
    rw [hoffset, hsince, hgrace] at hwaited
    exact .inr ⟨t,ht,hwaited⟩

theorem Sheltering.kept_step (h : Sheltering grace x (used + rest) lost)
    (hok : x.orderly (.atStore op) = true) (hs : x.store.step op c = some (r,s'))
    (hr : Custody.rule op r used made) : ∀ e ∈ noteResolved op r x, Settled grace x.time e ∨
      Kept (x.atStore op r s') (made + rest) (x.store.overwritten op + lost) e := by
  have hold : ∀ e ∈ x.resolved, e.offset ∉ op.taken r →
      (∀ key n, op ≠ .enqueue key e.offset n) → Settled grace x.time e ∨
        Kept (x.atStore op r s') (made + rest) (x.store.overwritten op + lost) e := by
    intro e he htaken hop
    exact (h.kept e he).imp id fun hkept => hkept.step h.books hok hs hr htaken hop
  intro e he
  cases op with
  | indexGet k =>
    cases r with
    | none => exact hold e he List.not_mem_nil fun _ _ hop => by cases hop
    | some rec =>
      rcases List.mem_cons.mp he with rfl | he
      · right
        obtain ⟨found,hf,hoffset⟩ : ∃ found, x.store.index.find k = some found ∧
            found.offset = rec.offset := by
          have hget : (x.store.index.get k c.now).1 = some rec :=
            congrArg Prod.fst (Option.some.inj hs)
          rw [h.books.sound.get_eq] at hget
          cases hf : x.store.index.find k with
          | none =>
            rw [hf] at hget
            cases hget
          | some found =>
            rw [hf] at hget
            cases hget
            exact ⟨found,rfl,rfl⟩
        have hkept := h.kept_of_find hf
        rw [hoffset] at hkept
        exact hkept.step h.books hok hs hr List.not_mem_nil fun _ _ hop => by cases hop
      · exact hold e he List.not_mem_nil fun _ _ hop => by cases hop
  | enqueue k o n =>
    obtain ⟨e₀,he₀,rfl⟩ := List.mem_map.mp he
    by_cases ho : e₀.offset = o
    · subst ho
      rcases h.kept e₀ he₀ with hsettled | hkept
      · exact .inl hsettled.enqueue
      · exact .inr (hkept.enqueue h.books hs hr)
    · have hsame : e₀.enqueue o x.time = e₀ := if_neg fun hcond => ho hcond.1
      rw [hsame]
      refine hold e₀ he₀ List.not_mem_nil ?_
      intro key m hop
      cases hop
      exact ho rfl
  | takeAll =>
    obtain ⟨e₀,he₀,rfl⟩ := List.mem_map.mp he
    by_cases ho : e₀.offset ∈ StoreCall.taken .takeAll r
    · left
      have hforced : e₀.flush (r.map EvictEntry.offset) = { e₀ with forced := true } := if_pos ho
      rw [hforced]
      exact .inl rfl
    · have hsame : e₀.flush (r.map EvictEntry.offset) = e₀ := if_neg ho
      rw [hsame]
      exact hold e₀ he₀ ho fun _ _ hop => by cases hop
  | takeExpired now =>
    by_cases ho : e.offset ∈ StoreCall.taken (.takeExpired now) r
    · rcases h.kept e he with hsettled | hkept
      · exact .inl hsettled
      · exact .inl (hkept.settled_of_taken h.gracePeriod hok hs ho)
    · exact hold e he ho fun _ _ hop => by cases hop
  | _ => exact hold e he List.not_mem_nil fun _ _ hop => by cases hop

theorem gracePeriodMs_step {s : Store} (hs : s.step op c = some (r,s')) :
    s'.pending.gracePeriodMs = s.pending.gracePeriodMs := by
  cases op with
  | pwrite | uringWrite | pread =>
    obtain ⟨file,rfl⟩ := onFile_frame hs rfl
    rfl
  | _ =>
    cases hs
    rfl

theorem Sheltering.step (h : Sheltering grace x (used + rest) lost)
    (hok : x.orderly (.atStore op) = true) (hs : x.store.step op c = some (r,s'))
    (hr : Custody.rule op r used made) :
    Sheltering grace (x.atStore op r s') (made + rest) (x.store.overwritten op + lost) := by
  have hsized := wellSized_of_orderly hok
  have hwrite := (Bool.and_eq_true_iff.mp hsized).2
  constructor
  · exact h.books.step hs hr
  · exact h.fitting.step h.books hwrite hs hr
  · exact h.written.step h.books h.fitting hwrite hs hr
  · have hnote := h.intact.contents_step hsized hs hr
    rw [h.contents] at hnote
    exact hnote
  · exact (gracePeriodMs_step hs).trans h.gracePeriod
  · exact h.kept_step hok hs hr

theorem sheltering_init {cfg : StoreConfig} (hcap : cfg.capacityBytes < 2^63) :
    Sheltering cfg.evictGracePeriodMs (init cfg) 0 0 where
  books := books_init hcap
  fitting := fitting_init
  written := (intact_init hcap).written
  contents := rfl
  gracePeriod := rfl
  kept := by simp [init]

theorem Sheltering.lookup (h : Sheltering grace x held lost) (key : Key) :
    Sheltering grace { x with resolved := x.resolve key (x.store.index.find key) } held lost := by
  have hsame : ∀ e ∈ x.resolved, Settled grace x.time e ∨
      Kept { x with resolved := x.resolve key (x.store.index.find key) } held lost e := by
    intro e he
    exact (h.kept e he).imp id fun hk => ⟨hk.sheltered,hk.fits,hk.bytes,hk.fresh,hk.queued⟩
  refine ⟨h.books,h.fitting,h.written,h.contents,h.gracePeriod,?_⟩
  intro e he
  dsimp only [resolve] at he
  cases hf : x.store.index.find key with
  | none =>
    rw [hf] at he
    have hkept := hsame e he
    rwa [hf] at hkept
  | some rec =>
    rw [hf] at he
    rcases List.mem_cons.mp he with rfl | he
    · have hk := h.kept_of_find hf
      exact .inr ⟨hk.sheltered,hk.fits,hk.bytes,hk.fresh,hk.queued⟩
    · have hkept := hsame e he
      rwa [hf] at hkept

theorem Sheltering.elapse (h : Sheltering grace x held lost) (ms : ℕ) :
    Sheltering grace { x with time := x.time + ms } held lost := by
  refine ⟨h.books,h.fitting,h.written,h.contents,h.gracePeriod,?_⟩
  intro e he
  rcases h.kept e he with (hforced | ⟨t,ht,hle⟩) | hk
  · exact .inl (.inl hforced)
  · exact .inl (.inr ⟨t,ht,by dsimp only; omega⟩)
  · exact .inr ⟨hk.sheltered,hk.fits,hk.bytes,hk.fresh,hk.queued⟩

/-- A completed read has the bytes of the data file. -/
theorem bytesOf_completed {y : GraceState} {call : GraceCall} {r : call.Res} {offset size : ℕ}
    {bytes : Bytes} (hs : GraceState.step call c x = some (r,y))
    (hr : call.completed r = some (offset,size,key,bytes)) :
    bytesOf bytes size = bytesOf (fun i => x.store.file (offset + i)) size := by
  cases call with
  | metaLookup | elapse => cases hr
  | atStore op =>
    obtain ⟨z,hz,he⟩ := Option.map_eq_some_iff.mp hs
    obtain ⟨rfl,-⟩ := Prod.mk.inj he
    cases op with
    | pread o n k =>
      dsimp only [GraceCall.completed] at hr
      split at hr
      · next hcount =>
        cases hr
        exact bytesOf_pread hz hcount
      · cases hr
    | uringRead o n k =>
      dsimp only [GraceCall.completed] at hr
      split at hr
      · next hok =>
        cases hr
        exact bytesOf_uringRead hz hok
      · cases hr
    | _ => cases hr

/-- What was looked up and is not settled is read. -/
theorem Sheltering.reads (h : Sheltering grace x held lost) (he : e ∈ x.resolved) {size : ℕ}
    (hsize : size ≤ e.value.length) (htime : ∀ t, e.enqueuedAt = some t → x.time < t + grace)
    (hforced : ¬ e.forced = true) :
    bytesOf (fun i => x.store.file (e.offset + i)) size = e.value.take size := by
  rcases h.kept e he with (hf | ⟨t,ht,hle⟩) | hkept
  · contradiction
  · have hlt := htime t ht
    omega
  · rw [← bytesOf_take hsize, hkept.bytes]

end GraceState

def graceCustody : Discipline graceCalls (Multiset Holding) where
  guar
    | .atStore op, r => Custody.guar op r
    | _, _ => True
  rule
    | .atStore op, r, used, made => Custody.rule op r used made
    | _, _, used, made => used = 0 ∧ made = 0

theorem keeps_sheltering (grace : ℕ) :
    Keeps graceMachine graceCustody (fun x op => x.orderly op = true)
      fun tr x held => ReadsSafe grace (fun e => e.forced = true) tr ∧
        ∃ lost, x.Sheltering grace held lost where
  guar := by
    rintro tr x op c r x' held ⟨-,lost,h⟩ hok hs
    cases op with
    | atStore op =>
      obtain ⟨y,hy,he⟩ := Option.map_eq_some_iff.mp hs
      obtain ⟨rfl,-⟩ := Prod.mk.inj he
      have hsized := GraceState.wellSized_of_orderly hok
      exact h.books.guar (Bool.and_eq_true_iff.mp hsized).1 hy
    | metaLookup | elapse => trivial
  step := by
    rintro tr i x op c r x' used made rest ⟨hsafe,lost,h⟩ hok hs hr
    constructor
    · intro e he
      rcases List.mem_append.mp he with he | he
      · exact hsafe e he
      · obtain rfl := List.mem_singleton.mp he
        rintro offset size key bytes hdone e₀ he₀ - rfl hsize htime hforced
        rw [GraceState.bytesOf_completed hs hdone]
        exact h.reads he₀ hsize htime hforced
    · cases op with
      | atStore op =>
        obtain ⟨y,hy,he⟩ := Option.map_eq_some_iff.mp hs
        obtain ⟨rfl,rfl⟩ := Prod.mk.inj he
        exact ⟨_,h.step hok hy hr⟩
      | metaLookup key =>
        obtain ⟨rfl,rfl⟩ := hr
        cases hs
        exact ⟨lost,h.lookup key⟩
      | elapse ms =>
        obtain ⟨rfl,rfl⟩ := hr
        cases hs
        exact ⟨lost,h.elapse ms⟩

namespace GraceReader
open StoreOps

theorem uses_atStore {α : Type} {post : α → Multiset Holding → Prop} {p : StoreProg α}
    {g : Multiset Holding} (hp : Uses custody post p g) : Uses graceCustody post (atStore p) g := by
  refine uses_interp ?_ hp
  intro op g P hop r hr
  exact hop r hr

end GraceReader

namespace StoreOps

theorem discharges_readItem {cfg : StoreConfig} (item : ReadItem) :
    Discharges (readItem cfg item) 0 := by
  unfold readItem
  split
  · exact uses_idle (fun _ => ⟨rfl,rfl⟩) fun _ _ => rfl
  · exact discharges_read _ _ _ _

theorem discharges_batchRead {cfg : StoreConfig} (items : List ReadItem) :
    Discharges (batchRead cfg items) 0 := by
  have hitems : Split (fun item g => Discharges (readItem cfg item) g) items 0 :=
    split_zero fun item _ => discharges_readItem item
  refine uses_bind (uses_mono (uses_mapEach (Q := fun _ g => g = 0) hitems) ?_)
  rintro results g ⟨-,hz⟩
  exact hz.eq_zero

end StoreOps

namespace GraceReader
open StoreOps

theorem uses_starts {cfg : StoreConfig} {p : GraceProg Unit} (hp : starts cfg p) :
    Uses graceCustody (fun _ g => g = 0) p 0 := by
  rcases hp with ⟨op,rfl⟩ | ⟨wants,rfl⟩ | ⟨ms,rfl⟩
  · exact uses_atStore (uses_then (discharges_run op) fun _ => rfl)
  · have hlookups : Split (fun (want : Want) g => Uses graceCustody (fun _ g' => g' = 0) (do
        let rec ← call (.metaLookup want.key)
        pure (rec.map fun rec => (⟨rec.offset,want.buffer,want.size,want.key⟩ : ReadItem))) g)
        wants 0 := split_zero fun want _ => uses_idle (fun _ => ⟨rfl,rfl⟩) fun _ _ => rfl
    refine uses_bind (uses_mono (uses_mapEach (Q := fun _ g => g = 0) hlookups) ?_)
    rintro found g ⟨-,hz⟩
    rw [hz.eq_zero]
    exact uses_bind_keep (uses_atStore (discharges_batchRead _)) fun _ => rfl
  · exact uses_idle (k := pure) (fun _ => ⟨rfl,rfl⟩) fun _ _ => rfl

end GraceReader

/-- In every run whose evictions, writes and timed flushes are orderly, a read within the grace
period delivers the value, unless a forced flush has taken the slot. -/
theorem readsSafe_of_orderly {cfg : StoreConfig} {tr : List (Event graceCalls GraceState)}
    {P : Pool graceCalls GraceState Unit} (hcap : cfg.capacityBytes < 2^63)
    (hrun : GraceRun cfg (fun x op => x.orderly op = true) tr P) :
    ReadsSafe cfg.evictGracePeriodMs (fun e => e.forced = true) tr := by
  have hinit : ReadsSafe cfg.evictGracePeriodMs (fun e => e.forced = true) [] := by
    intro e he
    cases he
  obtain ⟨gs,-,hsafe,-⟩ := hrun.shares (keeps_sheltering cfg.evictGracePeriodMs)
    (fun p hp => GraceReader.uses_starts hp)
    ⟨[],.nil,hinit,0,by simpa using GraceState.sheltering_init hcap⟩
  exact hsafe

namespace GraceReader

def programs (cfg : StoreConfig) (ops : List StoreOp) (waits : List ℕ) : List (GraceProg Unit) :=
  ops.map (fun op => atStore ((fun _ => ()) <$> op.run cfg)) ++ waits.map fun ms => call (.elapse ms)

theorem graceRun_of_schedule (cfg : StoreConfig) (check : GraceState → GraceCall → Bool)
    (ops : List StoreOp) (waits : List ℕ) (sched : List (ℕ × StoreChoice)) {γ : Type}
    {f : List (Event graceCalls GraceState) × Pool graceCalls GraceState Unit → γ} {v : γ}
    (h : (Pool.follow (M := graceMachine) check sched ⟨.init cfg,programs cfg ops waits⟩).map f =
      some v) :
    ∃ tr P, GraceRun cfg (fun x op => check x op = true) tr P ∧ f (tr,P) = v := by
  apply run_of_schedule (GraceReader.starts cfg) ?_ h
  intro p hp
  rcases List.mem_append.mp hp with hp | hp
  · obtain ⟨op,-,rfl⟩ := List.mem_map.mp hp
    exact .inl ⟨op,rfl⟩
  · obtain ⟨ms,-,rfl⟩ := List.mem_map.mp hp
    exact .inr (.inr ⟨ms,rfl⟩)

def oneSlot : StoreConfig := ⟨0,8,8,5000,false,false⟩

/-- What was bound to the keys that had been looked up, and when their slots were enqueued. -/
def lookedUp (x : GraceState) : List (Key × ℕ × List UInt8 × Option ℕ × ℕ) :=
  x.resolved.map fun e => (e.key,e.offset,e.value,e.enqueuedAt,x.time)

def readings (tr : List (Event graceCalls GraceState)) :
    List (ℕ × Key × List UInt8 × List (Key × ℕ × List UInt8 × Option ℕ × ℕ)) :=
  tr.filterMap fun e => (GraceCall.completed e.op e.res).map fun y =>
    (y.1,y.2.2.1,bytesOf y.2.2.2 y.2.1,lookedUp e.before)

end GraceReader

open Release GraceReader

/-- A key is looked up and evicted, and almost five seconds later a timed flush leaves its slot in the
queue, and the slot is read. -/
theorem readsSafe_of_orderly_evicted : ∃ tr P,
    GraceRun oneSlot (fun x op => x.orderly op = true) tr P ∧
    ReadsSafe oneSlot.evictGracePeriodMs (fun e => e.forced = true) tr ∧
    readings tr = [(0,"k",List.replicate 8 1,[("k",0,List.replicate 8 1,some 0,4999)])] := by
  obtain ⟨tr,P,hrun,hread⟩ := graceRun_of_schedule oneSlot
    GraceState.orderly
    [.put "k" (value 1) 8,.get "k" (value 0) 8,.evictPass,.flushExpired] [4999]
    (inOrder [0,0,0,0,0,1,2,2,2,4] ++ [(3,{ now := 4999 })] ++ inOrder [3,1]) (f := fun y => readings y.1)
    (v := [(0,"k",List.replicate 8 1,[("k",0,List.replicate 8 1,some 0,4999)])]) rfl
  exact ⟨tr,P,hrun,readsSafe_of_orderly (by decide) hrun,hread⟩

/-- A put that finds no slot evicts the key that is being read, takes its slot out of the queue at
once and writes into it: the reader gets the new bytes. -/
theorem exists_run_not_readsSafe : ∃ tr P, GraceRun oneSlot (fun _ _ => True) tr P ∧
    ¬ ReadsSafe oneSlot.evictGracePeriodMs (fun _ => False) tr := by
  obtain ⟨tr,P,hrun,hread⟩ := graceRun_of_schedule oneSlot (fun _ _ => true)
    [.put "k" (value 1) 8,.get "k" (value 0) 8,.put "l" (value 2) 8] []
    (inOrder [0,0,0,0,0,1,2,2,2,2,2,2,2,2,2,2,2,2,2,2,2,2,1]) (f := fun y => readings y.1)
    (v := [(0,"k",List.replicate 8 2,[("k",0,List.replicate 8 1,some 0,0)])]) rfl
  refine ⟨tr,P,hrun.ok_mono fun _ _ _ => trivial,fun hsafe => ?_⟩
  have hmem : (0,"k",List.replicate 8 2,[("k",0,List.replicate 8 1,some 0,0)]) ∈ readings tr := by
    rw [hread]
    exact List.mem_singleton_self _
  obtain ⟨e,he,hdone⟩ := List.mem_filterMap.mp hmem
  obtain ⟨⟨offset,size,key,bytes⟩,hcompleted,heq⟩ := Option.map_eq_some_iff.mp hdone
  simp only [Prod.mk.injEq] at heq
  obtain ⟨rfl,rfl,hbytes,hlooked⟩ := heq
  have hone : ("k",0,List.replicate 8 1,some 0,0) ∈ lookedUp e.before := by
    rw [hlooked]
    exact List.mem_singleton_self _
  obtain ⟨x,hx,hfields⟩ := List.mem_map.mp hone
  simp only [Prod.mk.injEq] at hfields
  obtain ⟨hkey,hoffset,hvalue,hqueued,htime⟩ := hfields
  have hlength : size = 8 := by
    have hl := congrArg List.length hbytes
    simpa using hl
  have hdelivered := hsafe e he 0 size "k" bytes hcompleted x hx hkey hoffset
    (by rw [hvalue, hlength]; decide)
    (by
      intro t ht
      rw [hqueued] at ht
      cases ht
      rw [htime]
      decide) not_false
  rw [hbytes, hvalue, hlength] at hdelivered
  exact absurd hdelivered (by decide)

end FalconKV
