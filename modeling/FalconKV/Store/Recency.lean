import FalconKV.Store.LinkedIndex

/-! # The LRU order and the access times of a run

The ring says in which order records were used, and so do their access times. Every call that
makes a key the most recent one also stamps its record, so the order of the ring is the order of
the last touches, and it agrees with the order of the times if the clock does not run backwards.
-/
namespace FalconKV

/-- The keys that a call makes the most recent ones, in that order; `find` looks up the records
as they are before the call. -/
def IndexCall.touched (find : Key → Option StoreKeyRecord) : IndexCall → List Key
  | .put key record => if record.stat = 1 then [key] else []
  | .get key => [key].filter fun key => (find key).any fun rec => rec.stat == 1
  | .batchContains keys => keys.filter fun key => (find key).any fun rec => rec.stat == 1
  | .commit key => [key].filter fun key => (find key).any fun rec => rec.stat != 1
  | .remove _ => []
  | .touch key => [key].filter fun key => (find key).any fun rec => rec.stat == 1

namespace LinkedMetaIndex

/-- All touches of a run. -/
def touchLog (m : LinkedMetaIndex) : List (ℕ × IndexCall) → List Key
  | [] => []
  | (now,call) :: calls => call.touched m.find ++ (m.apply now call).touchLog calls

/-- The clock does not run backwards, and committed records are put with its reading. -/
structure Timely (calls : List (ℕ × IndexCall)) : Prop where
  monotone : (calls.map Prod.fst).Pairwise (· ≤ ·)
  stamped : ∀ now key record, (now,IndexCall.put key record) ∈ calls → record.stat = 1 →
    record.accessTimeMs = now

end LinkedMetaIndex

/-- The place of the last touch of a key, from 1 on. -/
def lastTouch (log : List Key) (key : Key) : ℕ := log.length - log.reverse.idxOf key

section Log
variable {log : List Key} {key k : Key}

theorem lastTouch_le : lastTouch log k ≤ log.length := Nat.sub_le _ _

theorem lastTouch_concat_self : lastTouch (log ++ [key]) key = log.length + 1 := by
  simp [lastTouch]

theorem lastTouch_concat_ne (h : k ≠ key) : lastTouch (log ++ [key]) k = lastTouch log k := by
  have hidx : (log ++ [key]).reverse.idxOf k = log.reverse.idxOf k + 1 := by
    rw [List.reverse_append, List.reverse_singleton, List.singleton_append,
      List.idxOf_cons_ne _ h.symm]
  rw [lastTouch, hidx, List.length_append, List.length_singleton, lastTouch]
  omega

end Log

namespace StoreMetaIndex
variable {m m' : StoreMetaIndex} {key k : Key} {log keys : List Key} {now time clock : ℕ} {hit : Bool}
  {rec : StoreKeyRecord}

structure Recent (m : StoreMetaIndex) (log : List Key) : Prop where
  order : m.lru.coldest.Pairwise fun a b => lastTouch log a < lastTouch log b
  logged : ∀ k ∈ m.lru.items, k ∈ log

theorem recent_create : create.Recent [] := ⟨List.Pairwise.nil,by simp [create]⟩

theorem Relinks.recent (hr : m.Relinks m' key time hit) (h : m.Recent log) :
    m'.Recent (log ++ [key].filter fun _ => hit) := by
  cases hr with
  | touched rec _ _ _ hlru _ =>
    have hlog : (log ++ [key].filter fun _ => true) = log ++ [key] := by simp
    rw [hlog]
    constructor
    · rw [hlru]
      apply RecencyList.pairwise_touch h.order
      · intro b c hb hc hbc
        rw [lastTouch_concat_ne hb, lastTouch_concat_ne hc]
        exact hbc
      · intro b _ hb
        rw [lastTouch_concat_ne hb, lastTouch_concat_self]
        exact Nat.lt_succ_of_le lastTouch_le
    · intro k hk
      rw [hlru, RecencyList.mem_pushFront, RecencyList.mem_remove] at hk
      rcases hk with rfl | ⟨-,hk⟩
      · simp
      · exact List.mem_append_left _ (h.logged k hk)
  | dropped _ _ hlru _ =>
    have hlog : (log ++ [key].filter fun _ => false) = log := by simp
    rw [hlog]
    constructor
    · rw [hlru]
      exact h.order.sublist (RecencyList.coldest_remove_sublist _ _)
    · intro k hk
      rw [hlru, RecencyList.mem_remove] at hk
      exact h.logged k hk.2
  | kept heq =>
    have hlog : (log ++ [key].filter fun _ => false) = log := by simp
    rw [hlog, heq]
    exact h

/-- Lookups do not change which records are committed, so the hits of a batch are known before it. -/
theorem Recent.batchContains (h : m.Recent log) (ht : m.Threaded) (now : ℕ) (keys : List Key) :
    (m.batchContains now keys).2.Recent (log ++ keys.filter m.isCommitted) := by
  induction keys generalizing m log with
  | nil =>
    rw [List.filter_nil, List.append_nil]
    exact h
  | cons key keys ih =>
    have hrelinks := ht.relinks_get key now
    have hsame : (m.get key now).2.isCommitted = m.isCommitted :=
      funext fun k => isCommitted_of_timeless (find_get_timeless m key now k)
    have hrest := ih (hrelinks.recent h) (hrelinks.threaded ht)
    rw [hsame, List.append_assoc] at hrest
    rw [batchContains_snd_cons]
    have hsplit : [key].filter (fun _ => m.isCommitted key) ++ keys.filter m.isCommitted =
        (key :: keys).filter m.isCommitted := by
      cases hkey : m.isCommitted key <;> simp [hkey]
    rw [← hsplit]
    exact hrest

theorem Recent.apply (h : m.Recent log) (ht : m.Threaded) (now : ℕ) (call : IndexCall) :
    (m.apply now call).Recent (log ++ call.touched m.find) := by
  cases call with
  | put key record =>
    have hlog : IndexCall.touched m.find (.put key record) =
        [key].filter fun _ => record.stat == 1 := by
      by_cases hstat : record.stat = 1 <;> simp [IndexCall.touched, hstat]
    rw [hlog]
    exact (ht.relinks_put key record).recent h
  | get key => exact (ht.relinks_get key now).recent h
  | batchContains keys => exact h.batchContains ht now keys
  | commit key => exact (ht.relinks_commit key now).recent h
  | remove key => exact (ht.relinks_remove key now).recent h
  | touch key => exact (ht.relinks_touch key now).recent h

def accessTime (m : StoreMetaIndex) (key : Key) : ℕ := ((m.find key).map (·.accessTimeMs)).getD 0

structure Stamped (m : StoreMetaIndex) (clock : ℕ) : Prop where
  order : m.lru.coldest.Pairwise fun a b => m.accessTime a ≤ m.accessTime b
  past : ∀ k ∈ m.lru.items, m.accessTime k ≤ clock

theorem stamped_create : create.Stamped clock := ⟨List.Pairwise.nil,by simp [create]⟩

theorem accessTime_congr (h : m'.find k = m.find k) : m'.accessTime k = m.accessTime k := by
  rw [accessTime, accessTime, h]

theorem Stamped.mono (h : m.Stamped clock) (hle : clock ≤ now) : m.Stamped now :=
  ⟨h.order,fun k hk => (h.past k hk).trans hle⟩

/-- A call that touches a key stamps it with the clock. -/
theorem Relinks.stamped (hr : m.Relinks m' key time hit) (h : m.Stamped clock) (hle : clock ≤ now)
    (htime : hit = true → time = now) : m'.Stamped now := by
  cases hr with
  | touched rec _ hstamp hfind hlru _ =>
    have hnow : m'.accessTime key = now := by
      rw [accessTime, hfind key, if_pos rfl]
      exact hstamp.trans (htime rfl)
    have hother : ∀ k, k ≠ key → m'.accessTime k = m.accessTime k :=
      fun k hk => accessTime_congr ((hfind k).trans (if_neg hk))
    constructor
    · rw [hlru]
      apply RecencyList.pairwise_touch h.order
      · intro b c hb hc hbc
        rw [hother b hb, hother c hc]
        exact hbc
      · intro b hmem hb
        rw [hother b hb, hnow]
        exact (h.past b hmem).trans hle
    · intro k hk
      by_cases hkey : k = key
      · rw [hkey, hnow]
      · rw [hlru, RecencyList.mem_pushFront, RecencyList.mem_remove] at hk
        rw [hother k hkey]
        exact (h.past k (hk.resolve_left hkey).2).trans hle
  | dropped _ hfind hlru _ =>
    have hother : ∀ k ∈ (m.lru.remove key).items,
        m'.accessTime k = m.accessTime k ∧ m.accessTime k ≤ clock := by
      intro k hk
      rw [RecencyList.mem_remove] at hk
      exact ⟨accessTime_congr (hfind k hk.1),h.past k hk.2⟩
    constructor
    · rw [hlru]
      apply (h.order.sublist (RecencyList.coldest_remove_sublist _ _)).imp_of_mem
      intro a b ha hb hab
      rw [(hother a (RecencyList.mem_coldest.mp ha)).1, (hother b (RecencyList.mem_coldest.mp hb)).1]
      exact hab
    · intro k hk
      rw [hlru] at hk
      obtain ⟨hsame,hpast⟩ := hother k hk
      rw [hsame]
      exact hpast.trans hle
  | kept heq =>
    rw [heq]
    exact h.mono hle

theorem Stamped.batchContains (h : m.Stamped clock) (ht : m.Threaded) (hle : clock ≤ now)
    (keys : List Key) : (m.batchContains now keys).2.Stamped now := by
  induction keys generalizing m clock with
  | nil => exact h.mono hle
  | cons key keys ih =>
    have hrelinks := ht.relinks_get key now
    rw [batchContains_snd_cons]
    exact ih (hrelinks.stamped h hle fun _ => rfl) (hrelinks.threaded ht) le_rfl

theorem Stamped.apply (h : m.Stamped clock) (ht : m.Threaded) (hle : clock ≤ now) (call : IndexCall)
    (hput : ∀ key record, call = .put key record → record.stat = 1 → record.accessTimeMs = now) :
    (m.apply now call).Stamped now := by
  cases call with
  | put key record =>
    apply (ht.relinks_put key record).stamped h hle
    intro hstat
    exact hput key record rfl (beq_iff_eq.mp hstat)
  | get key => exact (ht.relinks_get key now).stamped h hle fun _ => rfl
  | batchContains keys => exact h.batchContains ht hle keys
  | commit key => exact (ht.relinks_commit key now).stamped h hle fun _ => rfl
  | remove key => exact (ht.relinks_remove key now).stamped h hle fun _ => rfl
  | touch key => exact (ht.relinks_touch key now).stamped h hle fun _ => rfl

/-- Every linked key has a committed record. -/
theorem Threaded.find_coldest (h : m.Threaded) (hk : k ∈ m.lru.coldest) :
    ∃ rec, m.find k = some rec ∧ rec.stat = 1 := by
  have hcommitted := (h.linked k).mp (RecencyList.mem_coldest.mp hk)
  cases hf : m.find k with
  | none =>
    rw [isCommitted_of_none hf] at hcommitted
    cases hcommitted
  | some rec =>
    rw [isCommitted_of_find hf] at hcommitted
    exact ⟨rec,rfl,beq_iff_eq.mp hcommitted⟩

theorem map_find_eq {ks : List Key} (h : ∀ k ∈ ks, (m.find k).isSome = true) :
    ks.map m.find = (ks.filterMap m.find).map some := by
  induction ks with
  | nil => rfl
  | cons k ks ih =>
    obtain ⟨rec,hf⟩ := Option.isSome_iff_exists.mp (h k List.mem_cons_self)
    rw [List.map_cons, List.filterMap_cons_some hf, List.map_cons, hf,
      ih fun k' hk' => h k' (List.mem_cons_of_mem _ hk')]

theorem Threaded.map_find (h : m.Threaded) :
    m.lru.coldest.map m.find = (m.lru.coldest.filterMap m.find).map some := by
  apply map_find_eq
  intro k hk
  obtain ⟨rec,hf,-⟩ := h.find_coldest hk
  simp [hf]

/-- The list has the committed records of the map. -/
theorem Threaded.perm_committed (h : m.Threaded) :
    (m.lru.coldest.filterMap m.find).Perm m.getAllCommittedEntries := by
  let committed := m.index.entries.filter fun e => e.2.stat == 1
  have hfind : ∀ e ∈ committed, m.find e.1 = some e.2 := by
    intro e he
    exact AList.mem_lookup_iff.mpr (List.mem_filter.mp he).1
  have hkeys : m.lru.coldest.Perm (committed.map Sigma.fst) := by
    have hnodup : (committed.map Sigma.fst).Nodup :=
      m.index.nodupKeys.sublist List.filter_sublist
    apply (List.perm_ext_iff_of_nodup m.lru.nodup_coldest hnodup).mpr
    intro k
    rw [List.mem_map]
    constructor
    · intro hk
      obtain ⟨rec,hf,hstat⟩ := h.find_coldest hk
      refine ⟨⟨k,rec⟩,List.mem_filter.mpr ⟨AList.mem_lookup_iff.mp hf,?_⟩,rfl⟩
      exact beq_iff_eq.mpr hstat
    · rintro ⟨e,he,rfl⟩
      rw [RecencyList.mem_coldest, h.linked e.1, isCommitted_of_find (hfind e he)]
      exact (List.mem_filter.mp he).2
  have hrecords : (committed.map Sigma.fst).filterMap m.find = m.getAllCommittedEntries := by
    have hall : m.getAllCommittedEntries = committed.map Sigma.snd := by
      rw [getAllCommittedEntries, List.filter_map]
      rfl
    have hsome : committed.filterMap (fun e => m.find e.1) = committed.filterMap (some ∘ Sigma.snd) :=
      List.filterMap_congr hfind
    rw [List.filterMap_map, hall, ← List.filterMap_eq_map]
    exact hsome
  rw [← hrecords]
  exact hkeys.filterMap _

theorem Threaded.length_records (h : m.Threaded) :
    (m.lru.coldest.filterMap m.find).length = m.committedCount := by
  have hlen := congrArg List.length h.map_find
  rw [List.length_map, List.length_map] at hlen
  rw [← hlen, h.counted, RecencyList.coldest, List.length_reverse]

theorem Threaded.accessTime_le (h : m.Threaded) (hs : m.Stamped clock)
    (hrec : rec ∈ m.getAllCommittedEntries) : rec.accessTimeMs ≤ clock := by
  obtain ⟨k,hk,hf⟩ := List.mem_filterMap.mp (h.perm_committed.mem_iff.mpr hrec)
  have hpast := hs.past k (RecencyList.mem_coldest.mp hk)
  rw [accessTime, hf] at hpast
  exact hpast

theorem Stamped.records (hs : m.Stamped clock) :
    (m.lru.coldest.filterMap m.find).Pairwise fun a b => a.accessTimeMs ≤ b.accessTimeMs := by
  rw [List.pairwise_filterMap]
  apply hs.order.imp
  intro a b hab ra hra rb hrb
  rw [accessTime, accessTime, hra, hrb] at hab
  exact hab

end StoreMetaIndex

namespace LinkedMetaIndex
variable {c : LinkedMetaIndex} {m : StoreMetaIndex} {log : List Key} {clock : ℕ}

theorem Refines.recent_run (h : c.Refines m) (hr : m.Recent log) (calls : List (ℕ × IndexCall)) :
    ∃ m', (c.run calls).Refines m' ∧ m'.Recent (log ++ c.touchLog calls) := by
  induction calls generalizing c m log with
  | nil => exact ⟨m,h,by simpa [touchLog] using hr⟩
  | cons x calls ih =>
    obtain ⟨now,call⟩ := x
    have hfind : c.find = m.find := funext h.find
    obtain ⟨m',hrefines,hrecent⟩ := ih (h.apply now call) (hr.apply h.threaded now call)
    refine ⟨m',hrefines,?_⟩
    rw [touchLog, hfind, ← List.append_assoc]
    exact hrecent

theorem Refines.stamped_run (h : c.Refines m) (hs : m.Stamped clock) {calls : List (ℕ × IndexCall)}
    (ht : Timely calls) (hclock : ∀ x ∈ calls, clock ≤ x.1) {threshold : ℕ} (hle : clock ≤ threshold)
    (hthreshold : ∀ x ∈ calls, x.1 ≤ threshold) :
    ∃ m', (c.run calls).Refines m' ∧ m'.Stamped threshold := by
  induction calls generalizing c m clock with
  | nil => exact ⟨m,h,hs.mono hle⟩
  | cons x calls ih =>
    obtain ⟨now,call⟩ := x
    obtain ⟨hlater,hmonotone⟩ := List.pairwise_cons.mp ht.monotone
    have hput : ∀ key record, call = .put key record → record.stat = 1 →
        record.accessTimeMs = now := by
      rintro key record rfl
      exact ht.stamped now key record List.mem_cons_self
    have hnext := hs.apply h.threaded (hclock _ List.mem_cons_self) call hput
    have hrest : Timely calls :=
      ⟨hmonotone,fun now key record hx => ht.stamped now key record (List.mem_cons_of_mem _ hx)⟩
    apply ih (h.apply now call) hnext hrest
    · intro x hx
      exact hlater x.1 (List.mem_map_of_mem hx)
    · exact hthreshold _ List.mem_cons_self
    · intro x hx
      exact hthreshold x (List.mem_cons_of_mem _ hx)

/-- The walk from the LRU end meets every committed key once, in the order of the last touches,
and the candidates are what it meets first. -/
theorem walk_follows_touches (calls : List (ℕ × IndexCall)) (maxCount : ℕ) :
    let m := create.run calls
    (∀ count, m.ring.walkBack count (m.ring.prev .sentinel) = m.coldToHot.take count) ∧
    m.coldToHot.Nodup ∧ (∀ key, key ∈ m.coldToHot ↔ m.isCommitted key = true) ∧
    (∀ key ∈ m.coldToHot, key ∈ create.touchLog calls) ∧
    m.coldToHot.Pairwise (fun a b =>
      lastTouch (create.touchLog calls) a < lastTouch (create.touchLog calls) b) ∧
    (m.coldToHot.take maxCount).map m.find = (m.getLRUCandidates maxCount).map some ∧
    (m.getLRUCandidates maxCount).length = min maxCount m.committedCount ∧
    m.committedCount = m.getAllCommittedEntries.length := by
  intro m
  obtain ⟨m',h,hrecent⟩ := refines_create.recent_run StoreMetaIndex.recent_create calls
  have hwalk : m.coldToHot = m'.lru.coldest := h.coldToHot_eq
  have hfind : m.find = m'.find := funext h.find
  rw [List.nil_append] at hrecent
  rw [hwalk]
  refine ⟨fun count => h.walkBack count,m'.lru.nodup_coldest,?_,?_,hrecent.order,?_,?_,?_⟩
  · intro key
    rw [RecencyList.mem_coldest, h.threaded.linked key, h.isCommitted key]
  · intro key hkey
    exact hrecent.logged key (RecencyList.mem_coldest.mp hkey)
  · rw [hfind, h.getLRUCandidates, List.map_take, h.threaded.map_find, ← List.map_take]
    rfl
  · rw [h.getLRUCandidates, h.count, StoreMetaIndex.getLRUCandidates, List.length_take,
      h.threaded.length_records]
  · rw [h.count, h.getAllCommittedEntries, ← h.threaded.perm_committed.length_eq, h.threaded.length_records]

/-- With a clock that does not run backwards the ring is in the order of the access times, and
the two ways to pick cold records pick the same times. -/
theorem coldEntries_times_eq (sort : List StoreKeyRecord → List StoreKeyRecord)
    (hperm : ∀ records, (sort records).Perm records)
    (hsorted : ∀ records, (sort records).Pairwise fun a b => a.accessTimeMs ≤ b.accessTimeMs)
    (calls : List (ℕ × IndexCall)) (ht : Timely calls) (threshold maxCount : ℕ)
    (hthreshold : ∀ x ∈ calls, x.1 ≤ threshold) :
    let m := create.run calls
    let cold := m.getColdEntries sort threshold maxCount
    (∃ records : List StoreKeyRecord, m.coldToHot.map m.find = records.map some ∧
      records.Pairwise fun a b => a.accessTimeMs ≤ b.accessTimeMs) ∧
    (cold.map (·.accessTimeMs)).Perm ((m.getLRUCandidates maxCount).map (·.accessTimeMs)) ∧
    cold.Pairwise fun a b => a.accessTimeMs ≤ b.accessTimeMs := by
  intro m cold
  have hempty : StoreMetaIndex.create.Stamped 0 := StoreMetaIndex.stamped_create
  obtain ⟨m',h,hstamped⟩ := refines_create.stamped_run hempty ht (fun _ _ => Nat.zero_le _)
    (Nat.zero_le threshold) hthreshold
  have hfind : m.find = m'.find := funext h.find
  have hrecords := hstamped.records
  have hcold : cold.Pairwise fun a b => a.accessTimeMs ≤ b.accessTimeMs :=
    (hsorted _).sublist (List.take_sublist _ _)
  refine ⟨⟨m'.lru.coldest.filterMap m'.find,?_,hrecords⟩,?_,hcold⟩
  · rw [h.coldToHot_eq, hfind, h.threaded.map_find]
  · have hold : (m.getAllCommittedEntries.filter fun rec => decide (rec.accessTimeMs ≤ threshold)) =
        m.getAllCommittedEntries := by
      rw [List.filter_eq_self, h.getAllCommittedEntries]
      intro rec hrec
      exact decide_eq_true (h.threaded.accessTime_le hstamped hrec)
    -- sorted by the same times, so equal as lists of times
    have htimes : (sort m.getAllCommittedEntries).map (·.accessTimeMs) =
        (m'.lru.coldest.filterMap m'.find).map (·.accessTimeMs) := by
      have hsame : (sort m.getAllCommittedEntries).Perm (m'.lru.coldest.filterMap m'.find) := by
        rw [h.getAllCommittedEntries]
        exact (hperm _).trans h.threaded.perm_committed.symm
      apply (hsame.map _).eq_of_pairwise
      · intro a b _ _ hab hba
        exact le_antisymm hab hba
      · exact List.pairwise_map.mpr (hsorted _)
      · exact List.pairwise_map.mpr hrecords
    have hcoldTimes : cold.map (·.accessTimeMs) =
        (m.getLRUCandidates maxCount).map (·.accessTimeMs) := by
      change ((sort (List.filter _ _)).take maxCount).map _ = _
      rw [hold, h.getLRUCandidates, StoreMetaIndex.getLRUCandidates, List.map_take, List.map_take, htimes]
    rw [hcoldTimes]

def readAgain : List (ℕ × IndexCall) :=
  [(5,.put "a" ⟨"a",0,3,8,1,5⟩),(7,.put "b" ⟨"b",8,3,8,1,7⟩),(9,.get "a")]

theorem coldEntries_times_eq_readAgain :
    let sort := fun records : List StoreKeyRecord =>
      records.mergeSort fun a b => decide (a.accessTimeMs ≤ b.accessTimeMs)
    let m := create.run readAgain
    let cold := m.getColdEntries sort 9 1
    (∃ records : List StoreKeyRecord, m.coldToHot.map m.find = records.map some ∧
      records.Pairwise fun a b => a.accessTimeMs ≤ b.accessTimeMs) ∧
    (cold.map (·.accessTimeMs)).Perm ((m.getLRUCandidates 1).map (·.accessTimeMs)) ∧
    cold.Pairwise fun a b => a.accessTimeMs ≤ b.accessTimeMs := by
  apply coldEntries_times_eq
  · intro records
    exact List.mergeSort_perm _ _
  · intro records
    apply (List.pairwise_mergeSort ?_ ?_ records).imp of_decide_eq_true
    · intro a b c hab hbc
      exact decide_eq_true ((of_decide_eq_true hab).trans (of_decide_eq_true hbc))
    · intro a b
      simp only [Bool.or_eq_true, decide_eq_true_eq]
      omega
  · refine ⟨by decide,?_⟩
    intro now key record h hstat
    simp only [readAgain, List.mem_cons, Prod.mk.injEq, IndexCall.put.injEq, reduceCtorEq,
      and_false, or_false, List.not_mem_nil] at h
    rcases h with ⟨rfl,-,rfl⟩ | ⟨rfl,-,rfl⟩ <;> rfl
  · decide

end LinkedMetaIndex

end FalconKV
