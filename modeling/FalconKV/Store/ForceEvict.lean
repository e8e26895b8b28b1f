import FalconKV.Common.LeastPrefix
import FalconKV.Store.EvictionOrder

/-! # How much forced eviction evicts

Candidates are taken in rounds, each for what is still missing, and the sums of a round and of
all rounds are 32 bits wide. As long as no sum wraps, the rounds together take the least prefix
of the recency list that suffices; they never take less.
-/
namespace FalconKV
open AtomicCalls

namespace StoreMetaIndex
variable {m m' : StoreMetaIndex} {key k : Key} {rec : StoreKeyRecord} {recs : List StoreKeyRecord}
  {rest gone : List Key}

/-- Records are stored under their own keys, and the list has the keys of the committed ones. -/
structure Listed (m : StoreMetaIndex) : Prop where
  keyed : ∀ {k rec}, m.find k = some rec → rec.key = k
  linked : ∀ k, k ∈ m.lru.items ↔ m.isCommitted k = true

theorem Tracked.listed (h : m.Tracked) : m.Listed := by
  refine ⟨h.sound.keyed,fun k => ?_⟩
  rw [h.linked k, isCommitted]
  cases hf : m.find k with
  | none => simp
  | some rec => simp [h.sound.committed hf]

/-- The records in the list, coldest first. -/
def coldestRecords (m : StoreMetaIndex) : List StoreKeyRecord := m.lru.coldest.filterMap m.find

theorem Listed.find_of_mem (h : m.Listed) (hk : k ∈ m.lru.coldest) :
    ∃ rec, m.find k = some rec ∧ rec.stat = 1 ∧ rec.key = k := by
  have hcommitted := (h.linked k).mp (RecencyList.mem_coldest.mp hk)
  rw [isCommitted] at hcommitted
  cases hf : m.find k with
  | none => simp [hf] at hcommitted
  | some rec =>
    rw [hf] at hcommitted
    exact ⟨rec,rfl,by simpa using hcommitted,h.keyed hf⟩

/-- The coldest record and the rest. -/
theorem Listed.coldest_cons (h : m.Listed) (hrecs : m.coldestRecords = rec :: recs) :
    ∃ rest, m.lru.coldest = rec.key :: rest ∧ m.find rec.key = some rec ∧ rec.stat = 1 ∧
      rest.filterMap m.find = recs := by
  cases hcold : m.lru.coldest with
  | nil => simp [coldestRecords, hcold] at hrecs
  | cons k rest =>
    obtain ⟨rec',hf,hstat,hkey⟩ := h.find_of_mem (k := k) (by simp [hcold])
    rw [coldestRecords, hcold, List.filterMap_cons_some hf] at hrecs
    obtain ⟨rfl,hrest⟩ := List.cons.inj hrecs
    subst hkey
    exact ⟨rest,rfl,hf,hstat,hrest⟩

theorem Listed.length_coldest (h : m.Listed) : m.coldestRecords.length = m.lru.coldest.length := by
  have hlen : ∀ ks : List Key, (∀ k ∈ ks, k ∈ m.lru.coldest) →
      (ks.filterMap m.find).length = ks.length := by
    intro ks
    induction ks with
    | nil => exact fun _ => rfl
    | cons k ks ih =>
      intro hks
      obtain ⟨rec,hf,-⟩ := h.find_of_mem (hks k List.mem_cons_self)
      rw [List.filterMap_cons_some hf, List.length_cons, List.length_cons,
        ih fun k' hk' => hks k' (List.mem_cons_of_mem _ hk')]
  exact hlen m.lru.coldest fun _ hk => hk

/-- The coldest key leaves. -/
theorem Listed.evictsTo_remove (h : m.Listed) (hcold : m.lru.coldest = key :: rest) :
    m.EvictsTo (m.remove key).2 [key] := by
  obtain ⟨rec,hf,hstat,-⟩ := h.find_of_mem (k := key) (by simp [hcold])
  have hlru : (m.remove key).2.lru = m.lru.remove key := by
    unfold StoreMetaIndex.remove
    rw [hf]
    dsimp only
    rw [if_pos hstat]
    rfl
  exact (evictsTo_of_remove hlru hcold).1

theorem Listed.evictsTo (h : m.Listed) (he : m.EvictsTo m' gone) : m'.Listed := by
  constructor
  · intro k rec hf
    rw [he.2] at hf
    split at hf
    · cases hf
    · exact h.keyed hf
  · intro k
    rw [he.mem_items, h.linked k, isCommitted, isCommitted, he.2]
    by_cases hgone : k ∈ gone <;> simp [hgone]

/-- The records that stay are those of the keys that stay. -/
theorem EvictsTo.coldestRecords (he : m.EvictsTo m' gone) :
    m'.coldestRecords = m'.lru.coldest.filterMap m.find := by
  apply List.filterMap_congr
  intro k hk
  have hstays := he.mem_items.mp (RecencyList.mem_coldest.mp hk)
  rw [he.2, if_neg hstays.2]

/-- A round takes what suffices, or more if its sum wraps. -/
theorem takeBySize_least {needed : ℕ} (hneeded : needed < 2^32) (recs : List StoreKeyRecord)
    (maxCount : ℕ) (result : EvictCandidates) (htotal : result.totalAllocSize < 2^32) :
    let least := leastPrefix (needed - result.totalAllocSize) (recs.map StoreKeyRecord.allocSize) maxCount
    let sum := ((recs.map StoreKeyRecord.allocSize).take least).sum
    let taken := takeBySize needed recs maxCount result
    ∃ count, count ≤ recs.length ∧ taken.entries = result.entries ++ recs.take count ∧
      taken.totalAllocSize < 2^32 ∧ least ≤ count ∧
      (result.totalAllocSize + sum < 2^32 →
        count = least ∧ taken.totalAllocSize = result.totalAllocSize + sum) := by
  induction recs generalizing maxCount result with
  | nil => exact ⟨0,by simp,by simp [takeBySize],by simpa [takeBySize] using htotal,by simp,
      by simp [takeBySize]⟩
  | cons rec recs ih =>
    cases maxCount with
    | zero => exact ⟨0,by simp,by simp [takeBySize],by simpa [takeBySize] using htotal,by simp,
        by simp [takeBySize]⟩
    | succ maxCount =>
      by_cases hless : result.totalAllocSize < needed
      · have hneed : 0 < needed - result.totalAllocSize := by omega
        obtain ⟨count,hlen,hentries,hbound,hleast,hexact⟩ := ih maxCount
          ⟨result.entries ++ [rec],u32 (result.totalAllocSize + rec.allocSize)⟩ (u32_lt _)
        dsimp only at hentries hbound hleast hexact ⊢
        rw [takeBySize, if_pos hless, List.map_cons, leastPrefix_cons hneed, List.take_succ_cons,
          List.sum_cons]
        refine ⟨count + 1,by simpa using hlen,?_,hbound,?_⟩
        · rw [hentries]
          simp
        · by_cases hwraps : result.totalAllocSize + rec.allocSize < 2^32
          · rw [u32_of_lt hwraps, Nat.sub_add_eq] at hleast hexact
            refine ⟨by omega,?_⟩
            intro hsum
            obtain ⟨hcount,htaken⟩ := hexact (by omega)
            rw [u32_of_lt hwraps]
            exact ⟨by omega,by omega⟩
          · -- the record that wraps the sum is enough
            have henough : needed - result.totalAllocSize - rec.allocSize = 0 := by omega
            rw [henough, leastPrefix_zero_needed]
            refine ⟨by omega,?_⟩
            intro hsum
            omega
      · have hnone : needed - result.totalAllocSize = 0 := by omega
        dsimp only
        rw [hnone, leastPrefix_zero_needed, takeBySize, if_neg hless]
        exact ⟨0,by simp,by simp,htotal,le_rfl,fun _ => ⟨rfl,by simp⟩⟩

theorem getLRUCandidatesBySize_least {needed : ℕ} (m : StoreMetaIndex) (hneeded : needed < 2^32)
    (maxCount : ℕ) :
    let sizes := m.coldestRecords.map StoreKeyRecord.allocSize
    let candidates := m.getLRUCandidatesBySize needed maxCount
    ∃ count, count ≤ m.coldestRecords.length ∧ candidates.entries = m.coldestRecords.take count ∧
      leastPrefix needed sizes maxCount ≤ count ∧
      ((sizes.take (leastPrefix needed sizes maxCount)).sum < 2^32 →
        count = leastPrefix needed sizes maxCount ∧
          candidates.totalAllocSize = (sizes.take (leastPrefix needed sizes maxCount)).sum) := by
  obtain ⟨count,hlen,hentries,-,hleast,hexact⟩ :=
    takeBySize_least hneeded m.coldestRecords maxCount ⟨[],0⟩ (by decide)
  dsimp only at hentries hleast hexact
  rw [Nat.sub_zero] at hleast hexact
  rw [Nat.zero_add] at hexact
  exact ⟨count,hlen,hentries,hleast,hexact⟩

end StoreMetaIndex

/-- The store with a Meta server that answers the removals in order; they are counted. -/
def answering (answers : ℕ → Status) : Machine storeCalls (Store × ℕ) where
  Choice := StoreChoice
  step := fun op c x =>
    match op with
    | .syncRemove .. => some (answers x.2,(x.1,x.2 + 1))
    | op => (x.1.step op c).map fun y => (y.1,(y.2,x.2))

/-- `gone` are the records that left the index and wait in the queue, in this order. -/
structure Evicted (s t : Store) (gone : List StoreKeyRecord) : Prop where
  index : s.index.EvictsTo t.index (gone.map StoreKeyRecord.key)
  pending : t.pending.entries.map (fun e => (e.key,e.offset,e.allocSize)) =
    s.pending.entries.map (fun e => (e.key,e.offset,e.allocSize)) ++
      gone.map fun rec => (rec.key,rec.offset,rec.allocSize)
  others : t.allocator = s.allocator ∧ t.file = s.file ∧
    t.pending.gracePeriodMs = s.pending.gracePeriodMs

section
variable {s t u : Store} {gone gone' recs rest : List StoreKeyRecord}

theorem Evicted.refl (s : Store) : Evicted s s [] := ⟨.refl _,by simp,rfl,rfl,rfl⟩

theorem Evicted.trans (h : Evicted s t gone) (h' : Evicted t u gone') : Evicted s u (gone ++ gone') := by
  obtain ⟨hallocator,hfile,hgrace⟩ := h.others
  obtain ⟨hallocator',hfile',hgrace'⟩ := h'.others
  refine ⟨?_,?_,hallocator'.trans hallocator,hfile'.trans hfile,hgrace'.trans hgrace⟩
  · rw [List.map_append]
    exact h.index.trans h'.index
  · rw [h'.pending, h.pending, List.map_append, List.append_assoc]

theorem Evicted.coldestRecords (h : Evicted s t gone) (hs : s.index.Listed)
    (hrecs : s.index.coldestRecords = gone ++ rest) : t.index.coldestRecords = rest := by
  have hcold := h.index.1
  have hfound := h.index.coldestRecords
  rw [StoreMetaIndex.coldestRecords, hcold, List.filterMap_append, ← hfound] at hrecs
  have hgone : ((gone.map StoreKeyRecord.key).filterMap s.index.find).length = gone.length := by
    have htotal := (hs.evictsTo h.index).length_coldest
    have hall := hs.length_coldest
    rw [StoreMetaIndex.coldestRecords, hcold, List.filterMap_append, ← hfound] at hall
    simp only [List.length_append, List.length_map] at hall
    omega
  exact (List.append_inj hrecs hgone).2

end

namespace StoreOps
variable {cfg : StoreConfig} {answers : ℕ → Status} {s : Store} {n : ℕ}

def confirms (cfg : StoreConfig) (answers : ℕ → Status) (n : ℕ) : Bool :=
  !cfg.metaSync || (answers n).isOk

def asks (cfg : StoreConfig) : ℕ := if cfg.metaSync then 1 else 0

/-- The rounds up to the first whose removal fails, of those that are left. -/
def okRounds (cfg : StoreConfig) (answers : ℕ → Status) : ℕ → ℕ → ℕ
  | 0, _ => 0
  | rounds + 1, n => if confirms cfg answers n then okRounds cfg answers rounds (n + asks cfg) + 1 else 0

theorem wp_notifyRemove_answering (keys : List Key) :
    wp (answering answers) (fun _ _ => True)
      (fun status x => status.isOk = confirms cfg answers n ∧ x = (s,n + asks cfg))
      (notifyRemove cfg keys) (s,n) := by
  by_cases hmeta : cfg.metaSync = true
  · rw [notifyRemove, if_pos hmeta]
    refine ⟨trivial,fun c r x hstep => ?_⟩
    cases hstep
    simp [confirms, asks, hmeta]
  · rw [notifyRemove, if_neg hmeta]
    simp [confirms, asks, hmeta]

theorem wp_dropCandidates {recs rest : List StoreKeyRecord} (hs : s.index.Listed)
    (hrecs : s.index.coldestRecords = recs ++ rest) :
    wp (answering answers) (fun _ _ => True) (fun _ x => Evicted s x.1 recs ∧ x.2 = n)
      (Prog.forEach dropCandidate recs) (s,n) := by
  induction recs generalizing s with
  | nil => exact ⟨.refl s,rfl⟩
  | cons rec recs ih =>
    obtain ⟨keys,hcold,hf,-,-⟩ := hs.coldest_cons hrecs
    have hout := hs.evictsTo_remove hcold
    apply wp_bind.mpr
    refine ⟨trivial,fun c r x hstep => ⟨trivial,fun c' r' x' hstep' => ?_⟩⟩
    cases hstep
    cases hstep'
    have hone : Evicted s { s with
        index := (s.index.remove rec.key).2
        pending := s.pending.enqueue rec.key rec.offset rec.allocSize c'.now } [rec] :=
      ⟨hout,by simp [PendingEvictQueue.enqueue],rfl,rfl,rfl⟩
    apply wp_mono (ih (hs.evictsTo hout) (hone.coldestRecords hs hrecs))
    rintro _ x ⟨hevicted,hn⟩
    exact ⟨hone.trans hevicted,hn⟩

structure Forces (answers : ℕ → Status) (needed total rounds confirmed : ℕ) (s : Store) (n : ℕ)
    (r : ℕ) (x : Store × ℕ) (gone rest : List StoreKeyRecord) : Prop where
  split : s.index.coldestRecords = gone ++ rest
  evicted : Evicted s x.1 gone
  bound : r < 2^32
  least : leastPrefix (needed - total) (s.index.coldestRecords.map StoreKeyRecord.allocSize)
    (64 * confirmed) ≤ gone.length
  exact : total + ((s.index.coldestRecords.map StoreKeyRecord.allocSize).take
      (leastPrefix (needed - total) (s.index.coldestRecords.map StoreKeyRecord.allocSize)
        (64 * confirmed))).sum < 2^32 →
    gone.length = leastPrefix (needed - total)
        (s.index.coldestRecords.map StoreKeyRecord.allocSize) (64 * confirmed) ∧
      r = total + (gone.map StoreKeyRecord.allocSize).sum ∧
      (needed ≤ r ∨ rest = [] ∨ gone.length = 64 * rounds ∨
        ∃ i, n ≤ i ∧ i < x.2 ∧ (answers i).isOk = false)

/-- Nothing more is evicted. -/
theorem Forces.stop {needed total rounds confirmed n' : ℕ} (htotal : total < 2^32)
    (hleast : leastPrefix (needed - total) (s.index.coldestRecords.map StoreKeyRecord.allocSize)
      (64 * confirmed) = 0)
    (hwhy : needed ≤ total ∨ s.index.coldestRecords = [] ∨ rounds = 0 ∨
      ∃ i, n ≤ i ∧ i < n' ∧ (answers i).isOk = false) :
    Forces answers needed total rounds confirmed s n total (s,n') [] s.index.coldestRecords := by
  refine ⟨rfl,.refl s,htotal,by rw [hleast]; exact Nat.zero_le _,fun _ => ⟨hleast.symm,rfl,?_⟩⟩
  rcases hwhy with hneed | hnone | hrounds | hfailed
  · exact .inl hneed
  · exact .inr (.inl hnone)
  · exact .inr (.inr (.inl (by simp [hrounds])))
  · exact .inr (.inr (.inr hfailed))

/-- A round that takes the candidates, and the rounds after it. -/
theorem Forces.round {needed total rounds confirmed count n₁ r sum : ℕ} {s₁ : Store} {x : Store × ℕ}
    {gone rest : List StoreKeyRecord} (hneeded : needed < 2^32) (hs : s.index.Listed) (hn : n ≤ n₁)
    (hlen : count ≤ s.index.coldestRecords.length)
    (hevicted : Evicted s s₁ (s.index.coldestRecords.take count))
    (hleast : leastPrefix (needed - total) (s.index.coldestRecords.map StoreKeyRecord.allocSize) 64 ≤ count)
    (hexact : ((s.index.coldestRecords.map StoreKeyRecord.allocSize).take (leastPrefix (needed - total)
        (s.index.coldestRecords.map StoreKeyRecord.allocSize) 64)).sum < 2^32 →
      count = leastPrefix (needed - total) (s.index.coldestRecords.map StoreKeyRecord.allocSize) 64 ∧
        sum = ((s.index.coldestRecords.map StoreKeyRecord.allocSize).take (leastPrefix (needed - total)
          (s.index.coldestRecords.map StoreKeyRecord.allocSize) 64)).sum)
    (h : Forces answers needed (u32 (total + sum)) rounds confirmed s₁ n₁ r x gone rest) :
    Forces answers needed total (rounds + 1) (confirmed + 1) s n r x
      (s.index.coldestRecords.take count ++ gone) rest := by
  have hleft : s₁.index.coldestRecords = s.index.coldestRecords.drop count :=
    hevicted.coldestRecords hs (List.take_append_drop count _).symm
  have hsplit : s.index.coldestRecords = s.index.coldestRecords.take count ++ gone ++ rest := by
    rw [List.append_assoc, ← h.split, hleft, List.take_append_drop]
  have htaken : (s.index.coldestRecords.take count).length = count := List.length_take_of_le hlen
  have hsizes : (s.index.coldestRecords.take count ++ gone).map StoreKeyRecord.allocSize =
      (s.index.coldestRecords.map StoreKeyRecord.allocSize).take count ++
        gone.map StoreKeyRecord.allocSize := by rw [List.map_append, List.map_take]
  have hrest : (s.index.coldestRecords.map StoreKeyRecord.allocSize).length = count + gone.length + rest.length := by
    rw [List.length_map, hsplit, List.length_append, List.length_append, htaken]
  have hlater := h.least
  have hexactLater := h.exact
  rw [hleft, List.map_drop] at hlater hexactLater
  refine ⟨hsplit,hevicted.trans h.evicted,h.bound,?_,?_⟩
  all_goals
    rw [Nat.mul_succ, Nat.add_comm (64 * confirmed) 64, leastPrefix_add, List.length_append, htaken]
    generalize s.index.coldestRecords.map StoreKeyRecord.allocSize = sizes at *
    have hstops := leastPrefix_stops (needed - total) sizes 64
    generalize leastPrefix (needed - total) sizes 64 = first at *
    by_cases hfits : total + (sizes.take first).sum < 2^32
  · -- exact so far, so the rounds after this one go on from there
    obtain ⟨rfl,rfl⟩ := hexact (by omega)
    rw [u32_of_lt hfits, Nat.sub_add_eq] at hlater
    omega
  · have henough : needed - total - (sizes.take first).sum = 0 := by omega
    rw [henough, leastPrefix_zero_needed]
    omega
  · obtain ⟨rfl,rfl⟩ := hexact (by omega)
    rw [u32_of_lt hfits, Nat.sub_add_eq] at hexactLater
    intro hsum
    rw [List.take_add, List.sum_append] at hsum
    obtain ⟨hgone,hr,hwhy⟩ := hexactLater (by omega)
    refine ⟨by omega,?_,?_⟩
    · rw [hsizes, List.sum_append, hr, Nat.add_assoc]
    · rcases hwhy with hneed | hnone | hrounds | ⟨i,hi,hi',hfailed⟩
      · exact .inl hneed
      · exact .inr (.inl hnone)
      · -- the last round took all it may, unless there was no need for more
        rcases hstops with hneed | hall | hcap
        · left
          omega
        · right; left
          exact List.length_eq_zero_iff.mp (by omega)
        · right; right; left
          omega
      · exact .inr (.inr (.inr ⟨i,hn.trans hi,hi',hfailed⟩))
  · have henough : needed - total - (sizes.take first).sum = 0 := by omega
    rw [henough, leastPrefix_zero_needed, Nat.add_zero]
    intro hsum
    omega

theorem wp_forceEvictRounds {needed : ℕ} (hneeded : needed < 2^32) (rounds total n : ℕ)
    (hs : s.index.Listed) (htotal : total < 2^32) :
    wp (answering answers) (fun _ _ => True)
      (fun r x => ∃ gone rest, Forces answers needed total rounds (okRounds cfg answers rounds n) s n r x
        gone rest)
      (forceEvictRounds cfg needed rounds total) (s,n) := by
  induction rounds generalizing total n s with
  | zero =>
    refine ⟨[],_,Forces.stop htotal ?_ (.inr (.inr (.inl rfl)))⟩
    simp [okRounds]
  | succ rounds ih =>
    unfold forceEvictRounds
    by_cases henough : needed ≤ total
    · rw [if_pos henough]
      refine ⟨[],_,Forces.stop htotal ?_ (.inl henough)⟩
      have hzero : needed - total = 0 := by omega
      rw [hzero, leastPrefix_zero_needed]
    · rw [if_neg henough]
      apply wp_perform trivial
      intro c candidates x hstep
      cases hstep
      have hless : needed - total < 2^32 := by omega
      obtain ⟨count,hlen,hentries,hleast,hexact⟩ := s.index.getLRUCandidatesBySize_least hless 64
      generalize s.index.getLRUCandidatesBySize (needed - total) 64 = candidates at *
      by_cases hempty : candidates.entries.isEmpty = true
      · rw [if_pos hempty]
        have hnone : s.index.coldestRecords = [] := by
          cases hrecs : s.index.coldestRecords with
          | nil => rfl
          | cons rec recs =>
            rw [hrecs, List.map_cons, leastPrefix_cons (by omega)] at hleast
            rw [hrecs] at hentries
            obtain ⟨count,rfl⟩ := Nat.exists_eq_succ_of_ne_zero (n := count) (by omega)
            rw [hentries, List.take_succ_cons] at hempty
            cases hempty
        refine ⟨[],_,Forces.stop htotal ?_ (.inr (.inl hnone))⟩
        rw [hnone, List.map_nil, leastPrefix_nil]
      · rw [if_neg hempty]
        apply wp_bind.mpr
        apply wp_mono (wp_notifyRemove_answering _)
        rintro status x ⟨hstatus,rfl⟩
        cases hok : status.isOk with
        | false =>
          rw [hok] at hstatus
          have hfailed : cfg.metaSync = true ∧ (answers n).isOk = false := by
            simpa [confirms] using hstatus.symm
          refine ⟨[],_,Forces.stop htotal ?_ (.inr (.inr (.inr ⟨n,le_rfl,?_,hfailed.2⟩)))⟩
          · simp [okRounds, ← hstatus]
          · simp [asks, hfailed.1]
        | true =>
          rw [hok] at hstatus
          have hsplit : s.index.coldestRecords = candidates.entries ++ s.index.coldestRecords.drop count := by
            rw [hentries, List.take_append_drop]
          have hrounds : okRounds cfg answers (rounds + 1) n =
              okRounds cfg answers rounds (n + asks cfg) + 1 := by simp [okRounds, ← hstatus]
          apply wp_bind.mpr
          apply wp_mono (wp_dropCandidates hs hsplit)
          rintro _ ⟨s₁,n₁⟩ ⟨hevicted,rfl⟩
          dsimp only at hevicted ⊢
          apply wp_mono (ih (u32 (total + candidates.totalAllocSize)) (n + asks cfg)
            (hs.evictsTo hevicted.index) (u32_lt _))
          rintro r x ⟨gone,rest,hforces⟩
          rw [hentries] at hevicted
          rw [hrounds]
          exact ⟨_,rest,hforces.round hneeded hs (Nat.le_add_right _ _) hlen hevicted hleast hexact⟩

theorem wp_forceEvict {needed : ℕ} (hneeded : needed < 2^32) (hs : s.index.Listed) :
    wp (answering answers) (fun _ _ => True)
      (fun r x => ∃ gone rest, Forces answers needed 0 5 (okRounds cfg answers 5 0) s 0 r x gone rest)
      (forceEvict cfg needed) (s,0) := wp_forceEvictRounds hneeded 5 0 0 hs (by decide)

end StoreOps

theorem sum_take_le (sizes : List ℕ) {i j : ℕ} (h : i ≤ j) : (sizes.take i).sum ≤ (sizes.take j).sum := by
  obtain ⟨k,rfl⟩ := Nat.exists_eq_add_of_le h
  rw [List.take_add, List.sum_append]
  exact Nat.le_add_right _ _

section
open StoreOps
variable {cfg : StoreConfig} {answers : ℕ → Status} {s t : Store} {needed total calls count : ℕ}

/-- Forced eviction takes the least prefix of the recency list that suffices, or less because there
is no more, a removal failed or five rounds take no more, and it returns the exact sum. -/
def EvictsLeast (answers : ℕ → Status) (needed : ℕ) (s t : Store) (calls total : ℕ) : Prop :=
  ∃ count ≤ s.index.coldestRecords.length, Evicted s t (s.index.coldestRecords.take count) ∧
    (∀ fewer < count,
      ((s.index.coldestRecords.map StoreKeyRecord.allocSize).take fewer).sum < needed) ∧
    (needed ≤ ((s.index.coldestRecords.map StoreKeyRecord.allocSize).take count).sum ∨
      count = s.index.coldestRecords.length ∨ (∃ i < calls, (answers i).isOk = false) ∨ count = 5 * 64) ∧
    total = ((s.index.coldestRecords.map StoreKeyRecord.allocSize).take count).sum

/-- How many records were evicted can be seen from the list. -/
theorem Evicted.count_eq (h : Evicted s t (s.index.coldestRecords.take count))
    (hcount : count ≤ s.index.coldestRecords.length) :
    count + t.index.lru.coldest.length = s.index.lru.coldest.length := by
  rw [h.index.1, List.length_append, List.length_map, List.length_take_of_le hcount]

/-- Forced eviction does what it should exactly if the records that suffice, but at most 64 for
each round whose removal succeeds, have together less than 2^32 bytes. -/
theorem evictsLeast_iff_sum_lt (hneeded : needed < 2^32) (hs : s.index.Listed)
    (he : Exec (answering answers) (fun _ _ => True) (forceEvict cfg needed) (s,0) total (t,calls)) :
    EvictsLeast answers needed s t calls total ↔
      ((s.index.coldestRecords.map StoreKeyRecord.allocSize).take (leastPrefix needed
        (s.index.coldestRecords.map StoreKeyRecord.allocSize) (64 * okRounds cfg answers 5 0))).sum <
          2^32 := by
  obtain ⟨gone,rest,hforces⟩ := he.ends (wp_forceEvict hneeded hs)
  have hgone : gone = s.index.coldestRecords.take gone.length := by
    rw [hforces.split, List.take_left]
  have hlen : gone.length ≤ s.index.coldestRecords.length := by
    rw [hforces.split, List.length_append]
    exact Nat.le_add_right _ _
  have hevicted : Evicted s t gone := hforces.evicted
  rw [hgone] at hevicted
  have hleast := hforces.least
  have hexact := hforces.exact
  rw [Nat.sub_zero] at hleast hexact
  rw [Nat.zero_add] at hexact
  have hsum : (gone.map StoreKeyRecord.allocSize).sum =
      ((s.index.coldestRecords.map StoreKeyRecord.allocSize).take gone.length).sum := by
    rw [← List.map_take, ← hgone]
  constructor
  · rintro ⟨count,hcount,hev,-,-,htotal⟩
    have hsame : count = gone.length := by
      have hmine := hevicted.count_eq hlen
      have hyours := hev.count_eq hcount
      omega
    have hbound := hforces.bound
    rw [htotal, hsame] at hbound
    exact (sum_take_le _ hleast).trans_lt hbound
  · intro hfits
    obtain ⟨hcount,htotal,hwhy⟩ := hexact hfits
    rw [Nat.zero_add] at htotal
    refine ⟨gone.length,hlen,hevicted,?_,?_,htotal.trans hsum⟩
    · intro fewer hfewer
      rw [hcount] at hfewer
      exact sum_take_lt_of_lt_leastPrefix hfewer
    · rw [← hsum, ← htotal]
      rcases hwhy with hneed | hnone | hrounds | ⟨i,-,hi,hfailed⟩
      · exact .inl hneed
      · right; left
        rw [hforces.split, hnone, List.append_nil]
      · exact .inr (.inr (.inr (by omega)))
      · exact .inr (.inr (.inl ⟨i,hi,hfailed⟩))

/-- Three records, with no Meta client. -/
def threeRecords (allocSize : ℕ) : Store :=
  { Store.init ⟨0,3 * allocSize,allocSize,5000,false,false⟩ with
    index := ((StoreMetaIndex.create.put "a" ⟨"a",0,8,allocSize,1,1⟩).put "b"
      ⟨"b",allocSize,8,allocSize,1,2⟩).put "c" ⟨"c",2 * allocSize,8,allocSize,1,3⟩ }

theorem listed_threeRecords (allocSize : ℕ) : (threeRecords allocSize).index.Listed := by
  have hput : ∀ {m : StoreMetaIndex} (key : Key) (offset time : ℕ), m.Tracked →
      (m.put key ⟨key,offset,8,allocSize,1,time⟩).Tracked := fun _ _ _ h => h.put rfl rfl
  have hthree := hput "c" (2 * allocSize) 3 (hput "b" allocSize 2 (hput "a" 0 1 StoreMetaIndex.tracked_create))
  exact hthree.listed

def forceAlone (allocSize needed : ℕ) : Option (ℕ × Store × ℕ) :=
  execWith (answering fun _ => .OK) (fun _ _ => true)
    (forceEvict ⟨0,3 * allocSize,allocSize,5000,false,false⟩ needed) (List.replicate 12 {})
    (threeRecords allocSize,0)

/-- Two of three records of 8 bytes suffice for 9. -/
theorem evictsLeast_three_records : ∃ total t calls,
    Exec (answering fun _ => .OK) (fun _ _ => True) (forceEvict ⟨0,24,8,5000,false,false⟩ 9)
      (threeRecords 8,0) total (t,calls) ∧ total = 16 ∧
    EvictsLeast (fun _ => .OK) 9 (threeRecords 8) t calls total := by
  have hrun : (forceAlone 8 9).map Prod.fst = some 16 := rfl
  obtain ⟨⟨total,t,calls⟩,hexec,htotal⟩ := Option.map_eq_some_iff.mp hrun
  have he : Exec (answering fun _ => .OK) (fun _ _ => True) _ _ _ _ :=
    (exec_of_execWith hexec).ok_mono fun _ _ _ => trivial
  have hleast := evictsLeast_iff_sum_lt (by decide) (listed_threeRecords 8) he
  exact ⟨total,t,calls,he,htotal,hleast.mpr (by decide)⟩

/-- Two records of 2^31 bytes suffice for one byte more than the first has, but their sum wraps to
zero: the third is evicted too, and the answer is 2^31. -/
theorem exists_exec_not_evictsLeast : ∃ total t calls,
    Exec (answering fun _ => .OK) (fun _ _ => True)
      (forceEvict ⟨0,3 * 2^31,2^31,5000,false,false⟩ (2^31 + 1)) (threeRecords (2^31),0) total (t,calls) ∧
    total = 2^31 ∧ t.index.lru.coldest = [] ∧
    ¬ EvictsLeast (fun _ => .OK) (2^31 + 1) (threeRecords (2^31)) t calls total := by
  have hrun : (forceAlone (2^31) (2^31 + 1)).map (fun x => (x.1,x.2.1.index.lru.coldest)) =
      some (2^31,[]) := rfl
  obtain ⟨⟨total,t,calls⟩,hexec,hout⟩ := Option.map_eq_some_iff.mp hrun
  obtain ⟨htotal,hcold⟩ := Prod.mk.inj hout
  dsimp only at htotal hcold
  refine ⟨total,t,calls,(exec_of_execWith hexec).ok_mono fun _ _ _ => trivial,htotal,hcold,?_⟩
  rintro ⟨count,hcount,hevicted,-,-,hsum⟩
  have hall : count = 3 := by
    have hcount := hevicted.count_eq hcount
    rw [hcold] at hcount
    exact hcount
  rw [hall, htotal] at hsum
  revert hsum
  decide

end

namespace StoreOps

/-- The second level of `Put` and `BatchPut`: at least what is asked for and 5% of the capacity. -/
def forceEvictFor (cfg : StoreConfig) (size : ℕ) : StoreProg ℕ := do
  let totalBytes ← invoke .getTotalBytes
  forceEvict cfg (max size (u32 (totalBytes / 20)))

/-- Where it stands between the other levels. -/
theorem allocReclaiming_eq (cfg : StoreConfig) (size : ℕ) : allocReclaiming cfg size = (do
    let _ ← flushExpired
    let a ← invoke (.alloc size)
    if 0 ≤ a.offset then pure a
    else do
      let _ ← forceEvictFor cfg size
      let _ ← flushExpired
      let a ← invoke (.alloc size)
      if 0 ≤ a.offset then pure a
      else do
        let _ ← flushAllForced
        invoke (.alloc size)) := rfl

end StoreOps

namespace Store

structure Full (s : Store) : Prop where
  listed : s.index.Listed
  records : s.index.coldestRecords.length = s.allocator.totalSlots
  slots : ∀ rec ∈ s.index.coldestRecords, rec.allocSize = s.allocator.slotSize
  bytes : s.allocator.totalBytes = s.allocator.totalSlots * s.allocator.slotSize

end Store

section
open StoreOps
variable {cfg : StoreConfig} {answers : ℕ → Status} {s t : Store} {size total calls : ℕ}

/-- The target is what was asked for and 5% of the capacity, so that a full store gives up as much,
or as many records as five rounds take. -/
def TargetsEnough (cfg : StoreConfig) (s : Store) (size : ℕ) : Prop :=
  size ≤ s.evictTarget size ∧ s.allocator.totalBytes / 20 ≤ s.evictTarget size ∧
    (s.Full → ∀ answers : ℕ → Status, (∀ i, (answers i).isOk = true) → ∀ total t calls,
      Exec (answering answers) (fun _ _ => True) (forceEvictFor cfg size) (s,0) total (t,calls) →
      ∃ count ≤ s.index.coldestRecords.length, Evicted s t (s.index.coldestRecords.take count) ∧
        (s.allocator.totalBytes / 20 ≤ count * s.allocator.slotSize ∨ 5 * 64 ≤ count))

theorem okRounds_of_isOk (hok : ∀ i, (answers i).isOk = true) (rounds n : ℕ) :
    okRounds cfg answers rounds n = rounds := by
  induction rounds generalizing n with
  | zero => rfl
  | succ rounds ih => simp [okRounds, confirms, hok, ih]

/-- Records of one size. -/
theorem Store.Full.sum_take (h : s.Full) {count : ℕ} (hcount : count ≤ s.index.coldestRecords.length) :
    ((s.index.coldestRecords.map StoreKeyRecord.allocSize).take count).sum =
      count * s.allocator.slotSize := by
  have hslots : s.index.coldestRecords.map StoreKeyRecord.allocSize =
      List.replicate s.index.coldestRecords.length s.allocator.slotSize := by
    rw [List.eq_replicate_iff, List.length_map]
    refine ⟨rfl,?_⟩
    intro size hsize
    obtain ⟨rec,hrec,rfl⟩ := List.mem_map.mp hsize
    exact h.slots rec hrec
  rw [hslots, List.take_replicate, min_eq_left hcount, List.sum_replicate_nat]

/-- A full store gives up the target, or everything, or as much as five rounds take. -/
theorem Store.Full.evicts (h : s.Full) {needed : ℕ} (hneeded : needed < 2^32)
    (hcapacity : s.allocator.totalBytes / 20 ≤ needed) (hok : ∀ i, (answers i).isOk = true)
    (he : Exec (answering answers) (fun _ _ => True) (forceEvict cfg needed) (s,0) total (t,calls)) :
    ∃ count ≤ s.index.coldestRecords.length, Evicted s t (s.index.coldestRecords.take count) ∧
      (s.allocator.totalBytes / 20 ≤ count * s.allocator.slotSize ∨ 5 * 64 ≤ count) := by
  obtain ⟨gone,rest,hforces⟩ := he.ends (wp_forceEvict hneeded h.listed)
  have hlen : gone.length ≤ s.index.coldestRecords.length := by
    rw [hforces.split, List.length_append]
    exact Nat.le_add_right _ _
  have hevicted : Evicted s t gone := hforces.evicted
  have hleast := hforces.least
  rw [okRounds_of_isOk hok, Nat.sub_zero] at hleast
  have hgone : gone = s.index.coldestRecords.take gone.length := by
    rw [hforces.split, List.take_left]
  rw [hgone] at hevicted
  refine ⟨gone.length,hlen,hevicted,?_⟩
  have hstops := leastPrefix_stops needed (s.index.coldestRecords.map StoreKeyRecord.allocSize) (64 * 5)
  rcases hstops with hneed | hall | hcap
  · left
    have hsum := sum_take_le (s.index.coldestRecords.map StoreKeyRecord.allocSize) hleast
    rw [h.sum_take hlen] at hsum
    omega
  · left
    rw [List.length_map, h.records] at hall
    have hslots : s.allocator.totalSlots ≤ gone.length := by omega
    have hbytes := Nat.mul_le_mul_right s.allocator.slotSize hslots
    rw [← h.bytes] at hbytes
    exact (Nat.div_le_self _ _).trans hbytes
  · right
    omega

/-- The target is enough exactly if 5% of the capacity fit the 32 bits of the target. -/
theorem targetsEnough_iff_capacity_lt (cfg : StoreConfig) (s : Store) (hsize : size < 2^32) :
    TargetsEnough cfg s size ↔ s.allocator.totalBytes < 20 * 2^32 := by
  have hshare : s.allocator.totalBytes < 20 * 2^32 ↔ s.allocator.totalBytes / 20 < 2^32 := by omega
  rw [hshare]
  constructor
  · rintro ⟨-,hcapacity,-⟩
    have hnarrow : s.evictTarget size < 2^32 := by
      rw [Store.evictTarget]
      exact max_lt hsize (u32_lt _)
    exact hcapacity.trans_lt hnarrow
  · intro hfits
    have htarget : s.evictTarget size = max size (s.allocator.totalBytes / 20) := by
      rw [Store.evictTarget, SlotAllocator.getTotalBytes, u32_of_lt hfits]
    refine ⟨?_,?_,?_⟩
    · rw [htarget]
      exact le_max_left _ _
    · rw [htarget]
      exact le_max_right _ _
    · intro hfull answers hok total t calls he
      have hforce : Exec (answering answers) (fun _ _ => True) (forceEvict cfg (s.evictTarget size)) (s,0)
          total (t,calls) := by
        cases he with
        | call _ hstep hrest =>
          cases hstep
          exact hrest
      rw [htarget] at hforce
      exact hfull.evicts (max_lt hsize hfits) (le_max_right _ _) hok hforce

/-- The store of three records, and a request for a fourth. -/
theorem targetsEnough_three_records :
    TargetsEnough ⟨0,24,8,5000,false,false⟩ (threeRecords 8) 8 :=
  (targetsEnough_iff_capacity_lt _ _ (by decide)).mpr (by decide)

/-- With 80 GiB in slots of 2 MiB, 5% are 2^32 bytes, and only one slot is asked for. -/
theorem exists_not_targetsEnough : ∃ cfg : StoreConfig, cfg.capacityBytes = 20 * 2^32 ∧
    (Store.init cfg).allocator.totalBytes = 20 * 2^32 ∧
    (Store.init cfg).evictTarget (2^21) = 2^21 ∧ ¬ TargetsEnough cfg (Store.init cfg) (2^21) := by
  refine ⟨⟨0,20 * 2^32,2^21,5000,false,false⟩,rfl,by decide,by decide,?_⟩
  rintro ⟨-,hcapacity,-⟩
  revert hcapacity
  decide

end

end FalconKV
