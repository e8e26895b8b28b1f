import FalconKV.Store.Watermarks

/-! # Slots that come back during a pass

A slot whose record a pass has evicted waits in the queue, until the flusher takes it out and gives it
back to the allocator. If the flusher has given back all of them whenever the loop tests the usage with
few enough records left, the loop stops in time: no slot is in use but those of records.
-/
namespace FalconKV
open AtomicCalls

namespace EvictCall

def onTheWay (op : EvictCall) (r : op.Res) (_ : Store) (n : ℕ) : ℕ :=
  match op, r with
  | .atStore (.indexRemove ..), r => n + (Option.toList r).length
  | .atStore (.takeExpired _), r => n + List.length r
  | .atStore (.enqueue ..), _ => n - 1
  | .atStore (.free ..), _ => n - 1
  | _, _ => n

def calm (s : Store) : EvictCall → Bool
  | .atStore (.indexPut ..) | .atStore (.alloc _) | .atStore (.batchAlloc ..) | .atStore .takeAll => false
  | .atStore op => s.snapshotCurrent op
  | _ => true

end EvictCall

abbrev PassState := Store × ℕ

abbrev passMachine (w : Watermarks) : Machine evictCalls PassState :=
  (evictMachine w).withRecord EvictCall.onTheWay

/-- When the loop tests the usage with few enough records, the flusher has given back all slots that
were evicted: none waits in the queue, and none is on its way. -/
def Watermarks.drained (w : Watermarks) (x : PassState) : EvictCall → Bool
  | .getUsageRatio true => decide ((x.1.ownedSlots : ℚ) ≤ w.low * x.1.allocator.totalSlots →
      x.1.pending.entries = [] ∧ x.2 = 0)
  | _ => true

/-- A pass that starts on `s`. -/
abbrev EvictRun (cfg : StoreConfig) (w : Watermarks) (rounds : ℕ) (ok : PassState → EvictCall → Prop)
    (s : Store) : List (Event evictCalls PassState) → Pool evictCalls PassState Unit → Prop :=
  Run (passMachine w) (EvictManager.besides cfg) ok ⟨(s,0),[EvictManager.evictLoopPass cfg w rounds]⟩

namespace Candidates

def storeRule : (op : StoreCall) → op.Res → Multiset (List StoreKeyRecord) →
    Multiset (List StoreKeyRecord) → Prop
  | .getLRUCandidates _, r, used, made => ∃ old, used = {old} ∧ made = {r}
  | .indexRemove key snapshot, _, used, made =>
    ∃ rec rest, key = rec.key ∧ snapshot = some rec ∧ used = {rec :: rest} ∧ made = {rest}
  | .indexPut .., _, _, _ | .alloc _, _, _, _ | .batchAlloc .., _, _, _ | .takeAll, _, _, _ => False
  | _, _, used, made => used = 0 ∧ made = 0

def storeDiscipline : Discipline storeCalls (Multiset (List StoreKeyRecord)) :=
  ⟨fun _ _ => True,storeRule⟩

def discipline : Discipline evictCalls (Multiset (List StoreKeyRecord)) where
  guar := fun _ _ => True
  rule
    | .atStore op, r, used, made => storeRule op r used made
    | _, _, used, made => used = 0 ∧ made = 0

variable {cfg : StoreConfig} {w : Watermarks} {α β : Type}

abbrev Holds (p : StoreProg α) (g : Multiset (List StoreKeyRecord)) : Prop :=
  Uses storeDiscipline (fun _ g' => ∃ l, g' = {l}) p g

theorem holds_dropCandidates (candidates : List StoreKeyRecord) :
    Holds (Prog.forEach StoreOps.dropCandidate candidates) {candidates} := by
  induction candidates with
  | nil => exact ⟨[],rfl⟩
  | cons rec candidates ih =>
    have hdrop : Uses storeDiscipline (fun _ g => g = {candidates}) (StoreOps.dropCandidate rec)
        {rec :: candidates} := by
      apply uses_perform
      intro r _
      refine ⟨{rec :: candidates},{candidates},0,⟨rec,candidates,rfl,rfl,rfl,rfl⟩,(add_zero _).symm,?_⟩
      rw [add_zero]
      exact uses_idle (k := pure) (fun _ => ⟨rfl,rfl⟩) fun _ _ => rfl
    apply uses_bind
    apply uses_mono hdrop
    rintro _ _ rfl
    exact ih

theorem holds_tryEvictBatchLRU (old : List StoreKeyRecord) :
    Holds (StoreOps.tryEvictBatchLRU cfg) {old} := by
  apply uses_perform
  intro candidates _
  refine ⟨{old},{candidates},0,⟨old,rfl,rfl⟩,(add_zero _).symm,?_⟩
  rw [add_zero]
  split
  · exact ⟨candidates,rfl⟩
  unfold StoreOps.evictEntries
  split
  · exact ⟨candidates,rfl⟩
  have hnotify : Uses storeDiscipline (fun _ g => g = 0)
      (StoreOps.notifyRemove cfg (candidates.map StoreKeyRecord.key)) 0 := by
    unfold StoreOps.notifyRemove
    split
    · exact uses_idle (k := pure) (fun _ => ⟨rfl,rfl⟩) fun _ _ => rfl
    · exact rfl
  apply uses_bind_keep hnotify
  intro s
  split
  · exact ⟨candidates,rfl⟩
  · apply uses_bind
    apply uses_mono (holds_dropCandidates candidates)
    rintro _ _ ⟨l,rfl⟩
    exact ⟨l,rfl⟩

theorem uses_atStore {post : α → Multiset (List StoreKeyRecord) → Prop} {p : StoreProg α}
    {g : Multiset (List StoreKeyRecord)} (hp : Uses storeDiscipline post p g) :
    Uses discipline post (EvictManager.atStore p) g := by
  apply uses_interp _ hp
  intro op g P hop r hr
  exact hop r hr

theorem uses_evictRounds (rounds : ℕ) (old : List StoreKeyRecord) :
    Uses discipline (fun _ _ => True) (EvictManager.evictRounds cfg w rounds) {old} := by
  induction rounds generalizing old with
  | zero => trivial
  | succ rounds ih =>
    refine uses_idle (fun _ => ⟨rfl,rfl⟩) fun running _ => ?_
    split
    · trivial
    refine uses_idle (fun _ => ⟨rfl,rfl⟩) fun usage _ => ?_
    split
    · trivial
    apply uses_bind
    apply uses_mono (uses_atStore (holds_tryEvictBatchLRU old))
    rintro evicted _ ⟨l,rfl⟩
    split
    · trivial
    · exact ih l

theorem uses_evictLoopPass (rounds : ℕ) :
    Uses discipline (fun _ _ => True) (EvictManager.evictLoopPass cfg w rounds) {[]} := by
  refine uses_idle (fun _ => ⟨rfl,rfl⟩) fun usage _ => ?_
  split
  · trivial
  · exact uses_evictRounds rounds []

theorem uses_besides {p : EvictProg Unit} (hp : EvictManager.besides cfg p) :
    Uses discipline (fun _ _ => True) p 0 := by
  obtain ⟨op,hop,rfl⟩ := hp
  have hquiet : ((fun _ => ()) <$> op.run cfg).Makes EvictBatch.Quiet :=
    (EvictBatch.makes_besides hop).bind fun _ => trivial
  have huses : Uses storeDiscipline (fun _ g => g = 0) ((fun _ => ()) <$> op.run cfg) 0 := by
    apply uses_of_makes hquiet
    intro call r hcall
    cases call with
    | getWallTimeMs | takeExpired | free | indexGet | indexBatchContains | pread => exact ⟨rfl,rfl⟩
    | _ => cases hcall
  exact uses_mono (uses_atStore huses) fun _ _ _ => trivial

/-- Candidates that are in the index, under distinct keys and at their places; when they were looked up
last does not matter. -/
structure Listed (m : StoreMetaIndex) (l : List StoreKeyRecord) : Prop where
  found : ∀ rec ∈ l, (m.find rec.key).map StoreKeyRecord.offset = some rec.offset
  distinct : (l.map StoreKeyRecord.key).Nodup

theorem listed_of_snapshot {m : StoreMetaIndex} {l : List StoreKeyRecord} (h : m.Snapshot l) : Listed m l :=
  ⟨fun rec hrec => by rw [h.found rec hrec, Option.map_some],h.distinct⟩

theorem Listed.same {m m' : StoreMetaIndex} {l : List StoreKeyRecord} (h : Listed m l)
    (hsame : m.SameRecords m') : Listed m' l := by
  refine ⟨fun rec hrec => ?_,h.distinct⟩
  have htimeless := congrArg (Option.map StoreKeyRecord.offset) (hsame.find rec.key)
  rw [Option.map_map, Option.map_map] at htimeless
  exact htimeless.trans (h.found rec hrec)

theorem Listed.tail {m : StoreMetaIndex} {rec : StoreKeyRecord} {l : List StoreKeyRecord}
    (h : Listed m (rec :: l)) : Listed (m.remove rec.key).2 l := by
  obtain ⟨hnot,hnodup⟩ := List.nodup_cons.mp h.distinct
  refine ⟨fun rec' hrec => ?_,hnodup⟩
  have hne : rec'.key ≠ rec.key := fun heq => hnot (heq ▸ List.mem_map_of_mem hrec)
  rw [StoreMetaIndex.find_remove, if_neg hne]
  exact h.found rec' (List.mem_cons_of_mem _ hrec)

structure Current (s : Store) (held : Multiset (List StoreKeyRecord)) : Prop where
  sound : s.index.Sound
  one : held.card ≤ 1
  listed : ∀ l ∈ held, Listed s.index l

variable {s s' : Store} {held used made rest : Multiset (List StoreKeyRecord)} {op : StoreCall}
  {c : StoreChoice} {r : op.Res}

theorem Current.step (h : Current s (used + rest)) (hs : s.step op c = some (r,s'))
    (hr : storeRule op r used made) :
    EvictCall.calm s (.atStore op) = true ∧ Current s' (made + rest) := by
  have hindex := Store.index_step hs
  cases hindex with
  | put => cases hr
  | remove key snapshot hm =>
    obtain ⟨rec,l,rfl,rfl,rfl,rfl⟩ := hr
    have hlisted := h.listed (rec :: l) (by simp)
    have hrest : rest = 0 := by
      have hone := h.one
      rw [Multiset.card_add, Multiset.card_singleton] at hone
      exact Multiset.card_eq_zero.mp (by omega)
    subst hrest
    constructor
    · obtain ⟨found,hfound,hoffset⟩ := Option.map_eq_some_iff.mp (hlisted.found rec List.mem_cons_self)
      simp [EvictCall.calm, Store.snapshotCurrent, hfound, hoffset]
    · rw [add_zero]
      refine ⟨hm ▸ h.sound.remove,by simp,fun l' hl' => ?_⟩
      rw [Multiset.mem_singleton.mp hl', hm]
      exact hlisted.tail
  | keep hput hremove hsame =>
    have hkept : ∀ l ∈ used + rest, Listed s'.index l := fun l hl => (h.listed l hl).same hsame
    cases op with
    | indexPut | alloc | batchAlloc | takeAll => cases hr
    | indexRemove => cases hremove
    | getLRUCandidates maxCount =>
      obtain ⟨old,rfl,rfl⟩ := hr
      cases hs
      refine ⟨rfl,h.sound,by simpa using h.one,fun l hl => ?_⟩
      rcases Multiset.mem_add.mp hl with hl | hl
      · rw [Multiset.mem_singleton.mp hl]
        exact listed_of_snapshot (h.sound.getLRUCandidates maxCount)
      · exact h.listed l (Multiset.mem_add.mpr (.inr hl))
    | _ =>
      obtain ⟨rfl,rfl⟩ := hr
      exact ⟨rfl,hsame.sound h.sound,h.one,hkept⟩

theorem keeps_current (w : Watermarks) :
    Keeps (passMachine w) discipline (fun _ _ => True) fun tr x held =>
      (∀ e ∈ tr, EvictCall.calm e.before.1 e.op = true) ∧ Current x.1 held where
  guar := by
    intros
    trivial
  step := by
    rintro tr i x op c r x' used made rest ⟨htr,h⟩ - hs hr
    obtain ⟨hs,-⟩ := Machine.withRecord_step hs
    have hstep : EvictCall.calm x.1 op = true ∧ Current x'.1 (made + rest) := by
      cases op with
      | atStore op => exact h.step hs hr
      | _ =>
        obtain ⟨rfl,rfl⟩ := hr
        have hsame : x.1 = x'.1 := congrArg Prod.snd (Option.some.inj hs)
        rw [← hsame]
        exact ⟨rfl,h⟩
    refine ⟨fun e he => ?_,hstep.2⟩
    rcases List.mem_append.mp he with he | he
    · exact htr e he
    · rw [List.mem_singleton.mp he]
      exact hstep.1

end Candidates

section
variable {cfg : StoreConfig} {w : Watermarks} {rounds : ℕ} {s₀ : Store} {ok : PassState → EvictCall → Prop}
  {tr : List (Event evictCalls PassState)} {P : Pool evictCalls PassState Unit}

/-- Nothing but the pass removes records, so its candidates are current when it removes them. -/
theorem EvictRun.calm (hsound : s₀.index.Sound) (hrun : EvictRun cfg w rounds ok s₀ tr P) :
    ∀ e ∈ tr, EvictCall.calm e.before.1 e.op = true := by
  have hstart : Candidates.Current s₀ ({[]} : Multiset (List StoreKeyRecord)) := by
    refine ⟨hsound,by simp,fun l hl => ?_⟩
    rw [Multiset.mem_singleton.mp hl]
    exact ⟨by simp,by simp⟩
  obtain ⟨gs,-,htr,-⟩ := (hrun.ok_mono fun _ _ _ => trivial).shares (Candidates.keeps_current w)
    (fun p hp => Candidates.uses_besides hp)
    ⟨[{[]}],.cons (Candidates.uses_evictLoopPass rounds) .nil,by simp,by simpa using hstart⟩
  exact htr

def passCustody : Discipline evictCalls (Multiset Holding) where
  guar
    | .atStore op, r => Custody.guar op r
    | _, _ => True
  rule
    | .atStore op, r, used, made => Custody.rule op r used made
    | _, _, used, made => used = 0 ∧ made = 0

theorem discharges_atStore {α : Type} {p : StoreProg α} (hp : Discharges p 0) :
    Uses passCustody (fun _ g => g = 0) (EvictManager.atStore p) 0 := by
  apply uses_interp _ hp
  intro op g P hop r hr
  exact hop r hr

theorem discharges_evictRounds (rounds : ℕ) :
    Uses passCustody (fun _ g => g = 0) (EvictManager.evictRounds cfg w rounds) 0 := by
  induction rounds with
  | zero => exact rfl
  | succ rounds ih =>
    refine uses_idle (fun _ => ⟨rfl,rfl⟩) fun running _ => ?_
    split
    · exact rfl
    refine uses_idle (fun _ => ⟨rfl,rfl⟩) fun usage _ => ?_
    split
    · exact rfl
    apply uses_bind_keep (discharges_atStore StoreOps.discharges_tryEvictBatchLRU)
    intro evicted
    split
    · exact rfl
    · exact ih

theorem discharges_evictLoopPass (rounds : ℕ) :
    Uses passCustody (fun _ g => g = 0) (EvictManager.evictLoopPass cfg w rounds) 0 := by
  refine uses_idle (fun _ => ⟨rfl,rfl⟩) fun usage _ => ?_
  split
  · exact rfl
  · exact discharges_evictRounds rounds

theorem discharges_besides {p : EvictProg Unit} (hp : EvictManager.besides cfg p) :
    Uses passCustody (fun _ g => g = 0) p 0 := by
  obtain ⟨op,-,rfl⟩ := hp
  exact discharges_atStore (uses_bind_keep (StoreOps.discharges_run op) fun _ => rfl)

/-- The slots that are held are those on their way. -/
theorem card_onTheWay {s : Store} {op : StoreCall} {r : op.Res} {used made rest : Multiset Holding}
    (hcalm : EvictCall.calm s (.atStore op) = true) (hr : Custody.rule op r used made) :
    EvictCall.onTheWay (.atStore op) r s (used + rest).card = (made + rest).card := by
  rw [Multiset.card_add, Multiset.card_add]
  cases op with
  | indexPut | alloc | batchAlloc | takeAll => cases hcalm
  | indexRemove key snapshot =>
    obtain ⟨rfl,rfl⟩ := hr
    cases r with
    | none => rfl
    | some rec =>
      simp only [EvictCall.onTheWay, Option.toList_some, Option.map_some, List.length_singleton,
        Multiset.card_zero, Multiset.coe_card]
      omega
  | takeExpired now =>
    obtain ⟨rfl,rfl⟩ := hr
    simp only [EvictCall.onTheWay, Multiset.card_zero, Multiset.coe_card, List.length_map]
    omega
  | enqueue key offset n =>
    obtain ⟨rfl,rfl⟩ := hr
    simp only [EvictCall.onTheWay, Multiset.card_zero, Multiset.card_singleton]
    omega
  | free offset n =>
    obtain ⟨rfl,h,-,-,rfl⟩ := hr
    simp only [EvictCall.onTheWay, Multiset.card_zero, Multiset.card_singleton]
    omega
  | pwrite offset data size =>
    obtain ⟨n,rfl,rfl⟩ := hr
    rfl
  | uringWrite offset data size =>
    obtain ⟨n,rfl,rfl⟩ := hr
    rfl
  | _ =>
    obtain ⟨rfl,rfl⟩ := hr
    rfl

def PassState.Balanced (x : PassState) : Prop :=
  x.1.allocator.usedSlots = x.1.ownedSlots + x.1.pending.entries.length + x.2

theorem Store.Books.balanced {s : Store} {held : Multiset Holding} (h : s.Books held 0) :
    PassState.Balanced (s,held.card) := by
  have hused := h.used_eq
  simpa [PassState.Balanced, Store.ownedSlots, StoreMetaIndex.offsets, StoreMetaIndex.extents,
    PendingEvictQueue.offsets] using hused

theorem keeps_balanced (w : Watermarks) :
    Keeps (passMachine w) passCustody (fun x op => EvictCall.calm x.1 op = true) fun tr x held =>
      (∀ e ∈ tr, PassState.Balanced e.before) ∧ x.2 = held.card ∧ x.1.Books held 0 where
  guar := by
    rintro tr x op c r x' held ⟨-,-,h⟩ hok hs
    obtain ⟨hs,-⟩ := Machine.withRecord_step hs
    cases op with
    | atStore op =>
      refine h.guar ?_ hs
      cases op with
      | indexRemove => exact hok
      | _ => rfl
    | _ => trivial
  step := by
    rintro tr i x op c r x' used made rest ⟨htr,hcard,h⟩ hok hs hr
    obtain ⟨hs,hnote⟩ := Machine.withRecord_step hs
    refine ⟨fun e he => ?_,?_⟩
    · rcases List.mem_append.mp he with he | he
      · exact htr e he
      · rw [List.mem_singleton.mp he]
        have hbalanced := h.balanced
        rwa [← hcard] at hbalanced
    rw [hnote, hcard]
    cases op with
    | atStore op =>
      have hstep := h.step hs hr
      have hlost : x.1.overwritten op = 0 := by
        cases op with
        | indexPut => cases hok
        | _ => rfl
      rw [hlost, zero_add] at hstep
      exact ⟨card_onTheWay hok hr,hstep⟩
    | _ =>
      obtain ⟨rfl,rfl⟩ := hr
      have hsame : x.1 = x'.1 := congrArg Prod.snd (Option.some.inj hs)
      rw [← hsame]
      exact ⟨rfl,h⟩

theorem EvictRun.balanced (hbooks : s₀.Books 0 0) (hrun : EvictRun cfg w rounds ok s₀ tr P) :
    ∀ e ∈ tr, PassState.Balanced e.before := by
  obtain ⟨gs,-,htr,-⟩ := (hrun.ok_of_events (hrun.calm hbooks.sound)).shares (keeps_balanced w)
    (fun p hp => discharges_besides hp)
    ⟨[0],.cons (discharges_evictLoopPass rounds) .nil,by simp,rfl,by simpa using hbooks⟩
  exact htr

/-- All that is in use at a test is with records, if the flusher has kept up. -/
theorem freedInTime_of_drained {x : PassState} {op : EvictCall} (hx : x.Balanced)
    (hdrained : w.drained x op = true) : w.freedInTime x.1 op = true := by
  cases op with
  | atStore | loadRunning => rfl
  | getUsageRatio inLoop =>
    cases inLoop with
    | false => rfl
    | true =>
      apply decide_eq_true
      intro hfew
      obtain ⟨hqueue,hway⟩ := of_decide_eq_true hdrained hfew
      have hused : x.1.allocator.usedSlots = x.1.ownedSlots := by
        rw [hx, hqueue, hway]
        rfl
      rwa [hused]

theorem keeps_bounded_pass (w : Watermarks) (s₀ : Store) :
    Keeps (passMachine w) (EvictBatch.discipline w) (fun x op => w.freedInTime x.1 op = true)
      fun _ x => w.Bounded s₀ x.1 where
  guar := by
    intro tr x op c r x' total h hok hs
    exact (keeps_bounded w s₀).guar [] h hok (Machine.withRecord_step hs).1
  step := by
    intro tr i x op c r x' used made rest h hok hs hr
    exact (keeps_bounded w s₀).step [] i h hok (Machine.withRecord_step hs).1 hr

/-- In every run in which the flusher has given back the slots that were evicted whenever the loop
tests the usage with few enough records left, the pass evicts at most one batch of 16 records beyond
what would have been enough. -/
theorem evicted_le_of_drained (hbooks : s₀.Books 0 0)
    (hrun : EvictRun cfg w rounds (fun x op => w.drained x op = true) s₀ tr P) (k : ℕ)
    (hk : ((s₀.ownedSlots - k : ℕ) : ℚ) ≤ w.low * s₀.allocator.totalSlots) :
    s₀.ownedSlots - P.state.1.ownedSlots ≤ k + 16 := by
  have hbalanced := hrun.balanced hbooks
  have hok : ∀ e ∈ tr, w.drained e.before e.op = true := by
    intro e he
    obtain ⟨tr₁,tr₂,htr⟩ := List.append_of_mem he
    obtain ⟨-,-,-,hok,-⟩ := hrun.at_event htr
    exact hok
  have htimely : EvictRun cfg w rounds (fun x op => w.freedInTime x.1 op = true) s₀ tr P :=
    hrun.ok_of_events fun e he => freedInTime_of_drained (hbalanced e he) (hok e he)
  have hinit : w.Bounded s₀ s₀ {0} := by
    refine ⟨rfl,by simp,?_,?_⟩
    · intro j hj
      omega
    · intro n hn j hj
      rw [Multiset.mem_singleton.mp hn]
      omega
  obtain ⟨gs,-,h⟩ := htimely.shares (keeps_bounded_pass w s₀) (fun p hp => EvictBatch.uses_besides hp)
    ⟨[{0}],.cons (EvictBatch.uses_evictLoopPass rounds) .nil,by simpa using hinit⟩
  exact h.within k hk

end

namespace Watermarks

def slots (n : ℕ) : StoreConfig where
  storeId := 1
  capacityBytes := n * 8
  slotSizeBytes := 8
  evictGracePeriodMs := 5000
  ioUringEnabled := false
  metaSync := true

/-- A store after a batch of keys was put into it. -/
def filled (n : ℕ) (keys : List Key) : Store :=
  (Store.follow (slots n) Store.keyAbsent [(.batchPut keys (keys.map fun _ => some fun _ => 0)
    (keys.map fun _ => 8),List.replicate 100 {})] (.init (slots n))).getD (.init (slots n))

theorem books_filled {n : ℕ} (hn : n < 2^60) (keys : List Key) : (filled n keys).Books 0 0 := by
  have hcap : (slots n).capacityBytes < 2^63 := by
    show n * 8 < 2^63
    omega
  unfold filled
  cases h : Store.follow (slots n) Store.keyAbsent [(.batchPut keys (keys.map fun _ => some fun _ => 0)
    (keys.map fun _ => 8),List.replicate 100 {})] (.init (slots n)) with
  | none => exact Store.books_init hcap
  | some s =>
    obtain ⟨s',hrun,rfl⟩ := Store.serialRun_of_script (slots n) Store.keyAbsent _ (f := id)
      (congrArg (Option.map id) h)
    exact Store.books_of_serialRun hcap (Store.serialRun_mono (fun _ _ _ _ => .inr) hrun)

def turns (i n now : ℕ) : List (ℕ × EvictChoice) :=
  List.replicate n (i,{ store := { now := now } })

/-- A schedule of a pass and of what runs beside it. -/
theorem evictRun_of_schedule (cfg : StoreConfig) (w : Watermarks) (rounds : ℕ)
    (check : PassState → EvictCall → Bool) (s : Store) (flushers : ℕ) (sched : List (ℕ × EvictChoice))
    {γ : Type} {f : List (Event evictCalls PassState) × Pool evictCalls PassState Unit → γ} {v : γ}
    (h : (Pool.follow (M := passMachine w) check sched ⟨(s,0),EvictManager.evictLoopPass cfg w rounds ::
      List.replicate flushers (EvictManager.atStore ((fun _ => ()) <$> StoreOp.run cfg .flushExpired))⟩).map
        f = some v) :
    ∃ tr P, EvictRun cfg w rounds (fun x op => check x op = true) s tr P ∧ f (tr,P) = v := by
  obtain ⟨⟨tr,P⟩,hfollow,hv⟩ := Option.map_eq_some_iff.mp h
  have hspawn : EvictRun cfg w rounds (fun x op => check x op = true) s []
      ⟨(s,0),[EvictManager.evictLoopPass cfg w rounds] ++ List.replicate flushers
        (EvictManager.atStore ((fun _ => ()) <$> StoreOp.run cfg .flushExpired))⟩ := by
    apply run_spawnAll
    intro p hp
    exact ⟨.flushExpired,rfl,List.eq_of_mem_replicate hp⟩
  exact ⟨tr,P,hspawn.trans (run_of_follow _ hfollow),hv⟩

end Watermarks

open Watermarks

/-- Eighteen keys, of which one would have to go. -/
def eighteen : List Key :=
  ["a","b","c","d","e","f","g","h","i","j","k","l","m","n","o","p","q","r"]

theorem ownedSlots_eighteen : (filled 18 eighteen).ownedSlots = 18 := by decide +kernel

theorem one_enough_of_eighteen : (((filled 18 eighteen).ownedSlots - 1 : ℕ) : ℚ) ≤
    (exact (63/64) (31/32)).low * (filled 18 eighteen).allocator.totalSlots := by
  have htotal : (filled 18 eighteen).allocator.totalSlots = 18 := by decide +kernel
  rw [ownedSlots_eighteen, htotal]
  norm_num [exact]

/-- A batch of sixteen is evicted, and the flusher gives the slots back before the next test: two keys
stay. -/
theorem evicted_le_of_drained_eighteen : ∃ tr P,
    EvictRun (slots 18) (exact (63/64) (31/32)) 3
      (fun x op => (exact (63/64) (31/32)).drained x op = true) (filled 18 eighteen) tr P ∧
    (filled 18 eighteen).ownedSlots - P.state.1.ownedSlots ≤ 1 + 16 ∧
    P.state.1.ownedSlots = 2 ∧ P.state.1.allocator.usedSlots = 2 ∧ P.replies = [some (),some ()] := by
  obtain ⟨tr,P,hrun,hP⟩ := evictRun_of_schedule (slots 18) (exact (63/64) (31/32)) 3
    (exact (63/64) (31/32)).drained (filled 18 eighteen) 1 (turns 0 37 0 ++ turns 1 18 6000 ++ turns 0 2 6000)
    (f := fun y => (y.2.state.1.ownedSlots,y.2.state.1.allocator.usedSlots,y.2.replies))
    (v := (2,2,[some (),some ()])) (by decide +kernel)
  obtain ⟨howned,hrest⟩ := Prod.mk.inj hP
  obtain ⟨hused,hreplies⟩ := Prod.mk.inj hrest
  exact ⟨tr,P,hrun,evicted_le_of_drained (books_filled (by decide) _) hrun 1 one_enough_of_eighteen,howned,
    hused,hreplies⟩

/-- If no slot comes back during the pass, it evicts all of them. -/
theorem exists_run_evicted_gt : ∃ tr P,
    EvictRun (slots 18) (exact (63/64) (31/32)) 3 (fun _ _ => True) (filled 18 eighteen) tr P ∧
    (((filled 18 eighteen).ownedSlots - 1 : ℕ) : ℚ) ≤
      (exact (63/64) (31/32)).low * (filled 18 eighteen).allocator.totalSlots ∧
    1 + 16 < (filled 18 eighteen).ownedSlots - P.state.1.ownedSlots := by
  obtain ⟨tr,P,hrun,hP⟩ := evictRun_of_schedule (slots 18) (exact (63/64) (31/32)) 3
    (fun _ _ => true) (filled 18 eighteen) 0 (turns 0 48 0)
    (f := fun y => y.2.state.1.ownedSlots) (v := 0) (by decide +kernel)
  have hleft : P.state.1.ownedSlots = 0 := hP
  refine ⟨tr,P,hrun.ok_mono fun _ _ _ => trivial,one_enough_of_eighteen,?_⟩
  rw [ownedSlots_eighteen, hleft]
  decide

end FalconKV
