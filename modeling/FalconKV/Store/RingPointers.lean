import FalconKV.Store.LinkedIndex

/-! # The pointers of the records

A record is unlinked by following its own pointers, so a removal of a record that is not in the
ring would follow null pointers. The operations are written once more, failing at a null pointer,
and the walks for candidates follow `lru_prev` for as long as it takes. Neither fails in an index
that was only used through its operations: its records are in the ring exactly if they are
committed, and the pointers of all others are null.
-/
namespace FalconKV

namespace LinkedMetaIndex

def tryLruRemove (m : LinkedMetaIndex) (key : Key) : Option LinkedMetaIndex :=
  (m.ring.tryRemove (.record key)).map fun ring => { m with ring := ring }

def tryLruPushFront (m : LinkedMetaIndex) (key : Key) : Option LinkedMetaIndex :=
  (m.ring.tryPushFront (.record key)).map fun ring => { m with ring := ring }

def tryPut (m : LinkedMetaIndex) (key : Key) (record : StoreKeyRecord) : Option LinkedMetaIndex :=
  match m.find key with
  | some rec => do
    let m ← if rec.stat = 1 then (m.tryLruRemove key).map countDown else some m
    let m := m.setRecord key { record with key := rec.key }
    if record.stat = 1 then (m.tryLruPushFront key).map countUp else some m
  | none => do
    let m := m.newRecord key
    let m ← if record.stat = 1 then (m.tryLruPushFront key).map countUp else some m
    some (m.setRecord key record)

/-- `Touch`, and what `Get` and one round of `BatchContains` do to the index. -/
def tryTouch (m : LinkedMetaIndex) (key : Key) (now : ℕ) : Option LinkedMetaIndex :=
  match m.find key with
  | none => some m
  | some rec =>
    if rec.stat = 1 then do
      let m ← m.tryLruRemove key
      let m ← m.tryLruPushFront key
      some (m.setRecord key { rec with accessTimeMs := now })
    else some m

def tryCommit (m : LinkedMetaIndex) (key : Key) (now : ℕ) : Option LinkedMetaIndex :=
  match m.find key with
  | none => some m
  | some rec =>
    if rec.stat = 1 then some m
    else
      let m := m.setRecord key { rec with stat := 1, accessTimeMs := now }
      (m.tryLruPushFront key).map countUp

def tryRemove (m : LinkedMetaIndex) (key : Key) : Option LinkedMetaIndex :=
  match m.find key with
  | none => some m
  | some rec => do
    let m ← if rec.stat = 1 then (m.tryLruRemove key).map countDown else some m
    some (m.eraseRecord key)

def tryApply (m : LinkedMetaIndex) (now : ℕ) : IndexCall → Option LinkedMetaIndex
  | .put key record => m.tryPut key record
  | .get key => m.tryTouch key now
  | .batchContains keys => keys.foldlM (fun m key => m.tryTouch key now) m
  | .commit key => m.tryCommit key now
  | .remove key => m.tryRemove key
  | .touch key => m.tryTouch key now

def deref (m : LinkedMetaIndex) : RingNode Key → Option StoreKeyRecord
  | .record key => m.find key
  | _ => none

/-- The loop of `GetLRUCandidates`; `fuel` bounds its rounds. -/
def walkLRUCandidates (m : LinkedMetaIndex) (fuel maxCount : ℕ) : Option (List StoreKeyRecord) :=
  m.ring.walk m.deref (fun result => decide (result.length < maxCount))
    (fun result rec => result ++ [rec]) fuel (m.ring.prev .sentinel) []

/-- The loop of `GetLRUCandidatesBySize`. -/
def walkLRUCandidatesBySize (m : LinkedMetaIndex) (fuel neededBytes maxCount : ℕ) :
    Option EvictCandidates :=
  m.ring.walk m.deref
    (fun result => decide (result.entries.length < maxCount ∧ result.totalAllocSize < neededBytes))
    (fun result rec => ⟨result.entries ++ [rec],u32 (result.totalAllocSize + rec.allocSize)⟩)
    fuel (m.ring.prev .sentinel) ⟨[],0⟩

theorem collect_take (maxCount : ℕ) (recs result : List StoreKeyRecord) :
    LinkRing.collect (fun result => decide (result.length < maxCount))
      (fun result rec => result ++ [rec]) recs result =
    result ++ recs.take (maxCount - result.length) := by
  induction recs generalizing result with
  | nil => simp [LinkRing.collect]
  | cons rec recs ih =>
    rw [LinkRing.collect]
    by_cases hmore : result.length < maxCount
    · obtain ⟨n,hn⟩ : ∃ n, maxCount - result.length = n + 1 :=
        Nat.exists_eq_succ_of_ne_zero (by omega)
      have hn' : maxCount - (result ++ [rec]).length = n := by
        rw [List.length_append, List.length_singleton]
        omega
      rw [if_pos (decide_eq_true hmore), ih, hn, hn', List.take_succ_cons, List.append_assoc]
      rfl
    · have hzero : maxCount - result.length = 0 := by omega
      rw [if_neg (by simpa using hmore), hzero, List.take_zero, List.append_nil]

/-- Counting the records taken is counting down the ones that may still be taken. -/
theorem collect_takeBySize (neededBytes maxCount : ℕ) (recs : List StoreKeyRecord)
    (result : EvictCandidates) :
    LinkRing.collect
      (fun result => decide (result.entries.length < maxCount ∧ result.totalAllocSize < neededBytes))
      (fun result rec => ⟨result.entries ++ [rec],u32 (result.totalAllocSize + rec.allocSize)⟩)
      recs result =
    StoreMetaIndex.takeBySize neededBytes recs (maxCount - result.entries.length) result := by
  induction recs generalizing result with
  | nil => rw [LinkRing.collect, StoreMetaIndex.takeBySize]
  | cons rec recs ih =>
    rw [LinkRing.collect]
    by_cases hcount : result.entries.length < maxCount
    · obtain ⟨n,hn⟩ : ∃ n, maxCount - result.entries.length = n + 1 :=
        Nat.exists_eq_succ_of_ne_zero (by omega)
      have hn' : maxCount - (result.entries ++ [rec]).length = n := by
        rw [List.length_append, List.length_singleton]
        omega
      rw [hn, StoreMetaIndex.takeBySize]
      by_cases hsize : result.totalAllocSize < neededBytes
      · rw [if_pos (decide_eq_true ⟨hcount,hsize⟩), if_pos hsize, ih, hn']
      · rw [if_neg (by simp [hsize]), if_neg hsize]
    · have hzero : maxCount - result.entries.length = 0 := by omega
      rw [if_neg (by simp [hcount]), hzero, StoreMetaIndex.takeBySize]
      simp

end LinkedMetaIndex

namespace LinkRing
variable {r : LinkRing Key} {l : RecencyList Key} {key k : Key}

theorem Loose.touch (h : r.Loose k) (hr : r.Holds l.items) (hkey : key ∈ l.items)
    (hk : k ∉ l.items) : ((r.remove (.record key)).pushFront (.record key)).Loose k := by
  have hne : k ≠ key := fun heq => hk (heq ▸ hkey)
  have hrest : k ∉ (l.remove key).items := by simp [hk]
  exact (h.remove hr hkey hk).pushFront (hr.drop hkey) hne hrest

end LinkRing

namespace LinkedMetaIndex
variable {c : LinkedMetaIndex} {m : StoreMetaIndex} {l : List Key} {key k : Key} {keys : List Key}
  {rec : StoreKeyRecord} {now : ℕ}

structure Shaped (c : LinkedMetaIndex) (m : StoreMetaIndex) : Prop extends c.Refines m where
  loose : ∀ k rec, m.find k = some rec → rec.stat ≠ 1 → c.ring.Loose k

theorem shaped_create : create.Shaped .create := ⟨refines_create,by simp⟩

/-- It is enough to look at a record that was there, and at the one under the key. -/
theorem Shaped.of_refines {c' : LinkedMetaIndex} {m' : StoreMetaIndex} (h : c.Shaped m)
    (hr : c'.Refines m') (hfind : ∀ k, k ≠ key → m'.find k = m.find k)
    (hkept : ∀ k, k ≠ key → k ∉ m.lru.items → c.ring.Loose k → c'.ring.Loose k)
    (hkey : ∀ rec, m'.find key = some rec → rec.stat ≠ 1 → c'.ring.Loose key) : c'.Shaped m' := by
  refine ⟨hr,?_⟩
  intro k rec hf hstat
  by_cases hk : k = key
  · subst hk
    exact hkey rec hf hstat
  · rw [hfind k hk] at hf
    exact hkept k hk (h.notMem_items hf hstat) (h.loose k rec hf hstat)

theorem Shaped.put (h : c.Shaped m) (key : Key) (record : StoreKeyRecord) :
    (c.put key record).Shaped (m.put key record) := by
  have hstored : ∀ rec, (m.put key record).find key = some rec → rec.stat = record.stat := by
    intro rec hf
    rw [StoreMetaIndex.find_put, if_pos rfl] at hf
    cases hf
    rfl
  have hfind : ∀ k, k ≠ key → (m.put key record).find k = m.find k := by
    intro k hk
    rw [StoreMetaIndex.find_put, if_neg hk]
  apply h.of_refines (h.toRefines.put key record) hfind
  · intro k hk hnot hloose
    cases hf : m.find key with
    | none =>
      have hclear := hloose.clear (.record key)
      have hheld := h.ring.clear (h.threaded.notMem (StoreMetaIndex.isCommitted_of_none hf))
      by_cases hstat : record.stat = 1
      · simp only [LinkedMetaIndex.put, h.find, hf, if_pos hstat]
        exact hclear.pushFront hheld hk hnot
      · simp only [LinkedMetaIndex.put, h.find, hf, if_neg hstat]
        exact hclear
    | some rec =>
      by_cases hold : rec.stat = 1
      · have hmem := h.mem_items hf hold
        by_cases hstat : record.stat = 1
        · simp only [LinkedMetaIndex.put, h.find, hf, if_pos hold, if_pos hstat]
          exact hloose.touch h.ring hmem hnot
        · simp only [LinkedMetaIndex.put, h.find, hf, if_pos hold, if_neg hstat]
          exact hloose.remove h.ring hmem hnot
      · by_cases hstat : record.stat = 1
        · simp only [LinkedMetaIndex.put, h.find, hf, if_neg hold, if_pos hstat]
          exact hloose.pushFront h.ring hk hnot
        · simp only [LinkedMetaIndex.put, h.find, hf, if_neg hold, if_neg hstat]
          exact hloose
  · intro rec' hf' hstat'
    have hstat : record.stat ≠ 1 := hstored rec' hf' ▸ hstat'
    cases hf : m.find key with
    | none =>
      simp only [LinkedMetaIndex.put, h.find, hf, if_neg hstat]
      exact LinkRing.loose_clear_self
    | some rec =>
      by_cases hold : rec.stat = 1
      · simp only [LinkedMetaIndex.put, h.find, hf, if_pos hold, if_neg hstat]
        exact LinkRing.loose_remove_self
      · simp only [LinkedMetaIndex.put, h.find, hf, if_neg hold, if_neg hstat]
        exact h.loose key rec hf hold

theorem Shaped.touch (h : c.Shaped m) (key : Key) (now : ℕ) :
    (c.touch key now).Shaped (m.touch key now) := by
  have hr := h.toRefines.touch key now
  cases hf : m.find key with
  | none =>
    have hsame : c.touch key now = c := by simp [LinkedMetaIndex.touch, h.find, hf]
    have hsame' : m.touch key now = m := by simp [StoreMetaIndex.touch, hf]
    rw [hsame, hsame']
    exact h
  | some rec =>
    by_cases hstat : rec.stat = 1
    · have htouch : m.touch key now = m.touchRecord key rec now := by
        simp [StoreMetaIndex.touch, hf, hstat]
      rw [htouch] at hr ⊢
      apply h.of_refines hr
      · intro k hk
        rw [StoreMetaIndex.find_touchRecord, if_neg hk]
      · intro k _ hnot hloose
        simp only [LinkedMetaIndex.touch, h.find, hf, if_pos hstat]
        exact hloose.touch h.ring (h.mem_items hf hstat) hnot
      · intro rec' hf' hstat'
        rw [StoreMetaIndex.find_touchRecord, if_pos rfl] at hf'
        cases hf'
        exact absurd hstat hstat'
    · have hsame : c.touch key now = c := by simp [LinkedMetaIndex.touch, h.find, hf, hstat]
      have hsame' : m.touch key now = m := by simp [StoreMetaIndex.touch, hf, hstat]
      rw [hsame, hsame']
      exact h

/-- A lookup relinks as a touch does. -/
theorem get_snd (c : LinkedMetaIndex) (key : Key) (now : ℕ) : (c.get key now).2 = c.touch key now := by
  rw [LinkedMetaIndex.get, LinkedMetaIndex.touch]
  cases c.find key with
  | none => rfl
  | some rec => by_cases hstat : rec.stat = 1 <;> simp [hstat]

theorem batchContains_snd (c : LinkedMetaIndex) (now : ℕ) (keys : List Key) :
    (c.batchContains now keys).2 = keys.foldl (fun c key => c.touch key now) c := by
  have hgets : (c.gets now keys).2 = keys.foldl (fun c key => c.touch key now) c := by
    induction keys generalizing c with
    | nil => rfl
    | cons key keys ih =>
      rw [gets, ih, get_snd]
      rfl
  obtain ⟨-,-,-,-,hbatch⟩ := batchContains_eq_gets c now keys
  rw [hbatch, hgets]

theorem touch_get_snd (m : StoreMetaIndex) (key : Key) (now : ℕ) :
    (m.get key now).2 = m.touch key now := by
  rw [StoreMetaIndex.get, StoreMetaIndex.touch]
  cases m.find key with
  | none => rfl
  | some rec => by_cases hstat : rec.stat = 1 <;> simp [hstat]

theorem Shaped.batchContains (h : c.Shaped m) (now : ℕ) (keys : List Key) :
    (c.batchContains now keys).2.Shaped (m.batchContains now keys).2 := by
  rw [batchContains_snd]
  induction keys generalizing c m with
  | nil => exact h
  | cons key keys ih =>
    rw [StoreMetaIndex.batchContains_snd_cons, touch_get_snd]
    exact ih (h.touch key now)

theorem Shaped.commit (h : c.Shaped m) (key : Key) (now : ℕ) :
    (c.commit key now).2.Shaped (m.commit key now).2 := by
  have hr := (h.toRefines.commit key now).2
  cases hf : m.find key with
  | none =>
    have hsame : (c.commit key now).2 = c := by simp [LinkedMetaIndex.commit, h.find, hf]
    have hsame' : (m.commit key now).2 = m := by simp [StoreMetaIndex.commit, hf]
    rw [hsame, hsame']
    exact h
  | some rec =>
    by_cases hstat : rec.stat = 1
    · have hsame : (c.commit key now).2 = c := by simp [LinkedMetaIndex.commit, h.find, hf, hstat]
      have hsame' : (m.commit key now).2 = m := by simp [StoreMetaIndex.commit, hf, hstat]
      rw [hsame, hsame']
      exact h
    · have hcommit : (m.commit key now).2 =
          (m.setRecord key { rec with stat := 1, accessTimeMs := now }).link key := by
        simp [StoreMetaIndex.commit, hf, hstat]
      rw [hcommit] at hr ⊢
      apply h.of_refines hr
      · intro k hk
        rw [StoreMetaIndex.find_link, StoreMetaIndex.find_setRecord, if_neg hk]
      · intro k hk hnot hloose
        simp only [LinkedMetaIndex.commit, h.find, hf, if_neg hstat]
        exact hloose.pushFront h.ring hk hnot
      · intro rec' hf' hstat'
        rw [StoreMetaIndex.find_link, StoreMetaIndex.find_setRecord, if_pos rfl] at hf'
        cases hf'
        exact absurd rfl hstat'

theorem Shaped.remove (h : c.Shaped m) (key : Key) :
    (c.remove key).2.Shaped (m.remove key).2 := by
  apply h.of_refines (h.toRefines.remove key 0).2
  · intro k hk
    rw [StoreMetaIndex.find_remove, if_neg hk]
  · intro k _ hnot hloose
    cases hf : m.find key with
    | none =>
      simp only [LinkedMetaIndex.remove, h.find, hf]
      exact hloose
    | some rec =>
      by_cases hstat : rec.stat = 1
      · simp only [LinkedMetaIndex.remove, h.find, hf, if_pos hstat]
        exact hloose.remove h.ring (h.mem_items hf hstat) hnot
      · simp only [LinkedMetaIndex.remove, h.find, hf, if_neg hstat]
        exact hloose
  · intro rec hf
    rw [StoreMetaIndex.find_remove, if_pos rfl] at hf
    cases hf

theorem Shaped.apply (h : c.Shaped m) (now : ℕ) (call : IndexCall) :
    (c.apply now call).Shaped (m.apply now call) := by
  cases call with
  | put key record => exact h.put key record
  | get key =>
    have htouch := h.touch key now
    rwa [← get_snd, ← touch_get_snd] at htouch
  | batchContains keys => exact h.batchContains now keys
  | commit key => exact h.commit key now
  | remove key => exact h.remove key
  | touch key => exact h.touch key now

theorem Shaped.run (h : c.Shaped m) (calls : List (ℕ × IndexCall)) :
    (c.run calls).Shaped (calls.foldl (fun m x => m.apply x.1 x.2) m) := by
  induction calls generalizing c m with
  | nil => exact h
  | cons x calls ih => exact ih (h.apply x.1 x.2)

theorem tryLruRemove_eq (h : c.ring.Holds l) (hkey : key ∈ l) :
    c.tryLruRemove key = some (c.lruRemove key) := by
  rw [tryLruRemove, h.tryRemove hkey]
  rfl

theorem tryLruPushFront_eq (h : c.ring.Holds l) : c.tryLruPushFront key = some (c.lruPushFront key) := by
  rw [tryLruPushFront, h.tryPushFront]
  rfl

theorem Refines.tryPut (h : c.Refines m) (key : Key) (record : StoreKeyRecord) :
    c.tryPut key record = some (c.put key record) := by
  cases hf : m.find key with
  | none =>
    have hnew : (c.newRecord key).ring.Holds m.lru.items :=
      h.ring.clear (h.threaded.notMem (StoreMetaIndex.isCommitted_of_none hf))
    by_cases hstat : record.stat = 1
    · simp only [LinkedMetaIndex.tryPut, LinkedMetaIndex.put, h.find, hf, if_pos hstat,
        tryLruPushFront_eq hnew]
      rfl
    · simp only [LinkedMetaIndex.tryPut, LinkedMetaIndex.put, h.find, hf, if_neg hstat]
      rfl
  | some rec =>
    by_cases hold : rec.stat = 1
    · have hmem := h.mem_items hf hold
      have hdropped : (((c.lruRemove key).countDown).setRecord key
          { record with key := rec.key }).ring.Holds (m.lru.remove key).items := h.ring.drop hmem
      by_cases hstat : record.stat = 1
      · simp only [LinkedMetaIndex.tryPut, LinkedMetaIndex.put, h.find, hf, if_pos hold,
          if_pos hstat, tryLruRemove_eq h.ring hmem, Option.map_some, Option.bind_eq_bind,
          Option.bind_some, tryLruPushFront_eq hdropped]
      · simp only [LinkedMetaIndex.tryPut, LinkedMetaIndex.put, h.find, hf, if_pos hold,
          if_neg hstat, tryLruRemove_eq h.ring hmem, Option.map_some, Option.bind_eq_bind,
          Option.bind_some]
    · have hkept : (c.setRecord key { record with key := rec.key }).ring.Holds m.lru.items := h.ring
      by_cases hstat : record.stat = 1
      · simp only [LinkedMetaIndex.tryPut, LinkedMetaIndex.put, h.find, hf, if_neg hold,
          if_pos hstat, Option.bind_eq_bind, Option.bind_some, tryLruPushFront_eq hkept,
          Option.map_some]
      · simp only [LinkedMetaIndex.tryPut, LinkedMetaIndex.put, h.find, hf, if_neg hold,
          if_neg hstat, Option.bind_eq_bind, Option.bind_some]

theorem Refines.tryTouch (h : c.Refines m) (key : Key) (now : ℕ) :
    c.tryTouch key now = some (c.touch key now) := by
  cases hf : m.find key with
  | none => simp only [LinkedMetaIndex.tryTouch, LinkedMetaIndex.touch, h.find, hf]
  | some rec =>
    by_cases hstat : rec.stat = 1
    · have hmem := h.mem_items hf hstat
      have hdropped : (c.lruRemove key).ring.Holds (m.lru.remove key).items := h.ring.drop hmem
      simp only [LinkedMetaIndex.tryTouch, LinkedMetaIndex.touch, h.find, hf, if_pos hstat,
        tryLruRemove_eq h.ring hmem, Option.bind_eq_bind, Option.bind_some,
        tryLruPushFront_eq hdropped]
    · simp only [LinkedMetaIndex.tryTouch, LinkedMetaIndex.touch, h.find, hf, if_neg hstat]

theorem Refines.tryTouches (h : c.Refines m) (keys : List Key) (now : ℕ) :
    keys.foldlM (fun c key => c.tryTouch key now) c =
      some (keys.foldl (fun c key => c.touch key now) c) := by
  induction keys generalizing c m with
  | nil => rfl
  | cons key keys ih =>
    rw [List.foldlM_cons, h.tryTouch key now, Option.bind_eq_bind, Option.bind_some]
    exact ih (h.touch key now)

theorem Refines.tryCommit (h : c.Refines m) (key : Key) (now : ℕ) :
    c.tryCommit key now = some (c.commit key now).2 := by
  cases hf : m.find key with
  | none => simp only [LinkedMetaIndex.tryCommit, LinkedMetaIndex.commit, h.find, hf]
  | some rec =>
    by_cases hstat : rec.stat = 1
    · simp only [LinkedMetaIndex.tryCommit, LinkedMetaIndex.commit, h.find, hf, if_pos hstat]
    · have hkept : (c.setRecord key { rec with stat := 1, accessTimeMs := now }).ring.Holds
        m.lru.items := h.ring
      simp only [LinkedMetaIndex.tryCommit, LinkedMetaIndex.commit, h.find, hf, if_neg hstat,
        tryLruPushFront_eq hkept, Option.map_some]

theorem Refines.tryRemove (h : c.Refines m) (key : Key) :
    c.tryRemove key = some (c.remove key).2 := by
  cases hf : m.find key with
  | none => simp only [LinkedMetaIndex.tryRemove, LinkedMetaIndex.remove, h.find, hf]
  | some rec =>
    by_cases hstat : rec.stat = 1
    · simp only [LinkedMetaIndex.tryRemove, LinkedMetaIndex.remove, h.find, hf, if_pos hstat,
        tryLruRemove_eq h.ring (h.mem_items hf hstat), Option.map_some, Option.bind_eq_bind,
        Option.bind_some]
    · simp only [LinkedMetaIndex.tryRemove, LinkedMetaIndex.remove, h.find, hf, if_neg hstat,
        Option.bind_eq_bind, Option.bind_some]

theorem Refines.tryApply (h : c.Refines m) (now : ℕ) (call : IndexCall) :
    c.tryApply now call = some (c.apply now call) := by
  cases call with
  | put key record => exact h.tryPut key record
  | get key =>
    rw [LinkedMetaIndex.tryApply, LinkedMetaIndex.apply, get_snd]
    exact h.tryTouch key now
  | batchContains keys =>
    rw [LinkedMetaIndex.tryApply, LinkedMetaIndex.apply, batchContains_snd]
    exact h.tryTouches keys now
  | commit key => exact h.tryCommit key now
  | remove key => exact h.tryRemove key
  | touch key => exact h.tryTouch key now

theorem Refines.deref (h : c.Refines m) (hk : k ∈ m.lru.items) :
    (c.deref (.record k)).isSome = true := by
  have hcommitted := (h.threaded.linked k).mp hk
  rw [LinkedMetaIndex.deref, h.find]
  cases hf : m.find k with
  | none => simp [StoreMetaIndex.isCommitted, hf] at hcommitted
  | some rec => rfl

theorem Refines.records (h : c.Refines m) :
    (m.lru.items.reverse.filterMap fun k => c.deref (.record k)) = c.coldToHot.filterMap c.find := by
  rw [h.coldToHot_eq]
  rfl

theorem Refines.walkLRUCandidates (h : c.Refines m) (maxCount : ℕ) {fuel : ℕ}
    (hfuel : c.committedCount < fuel) :
    c.walkLRUCandidates fuel maxCount = some ((c.coldToHot.filterMap c.find).take maxCount) := by
  rw [h.count, h.threaded.counted] at hfuel
  rw [LinkedMetaIndex.walkLRUCandidates, h.ring.walk (fun k hk => h.deref hk) hfuel, collect_take,
    h.records]
  rfl

theorem Refines.walkLRUCandidatesBySize (h : c.Refines m) (neededBytes maxCount : ℕ) {fuel : ℕ}
    (hfuel : c.committedCount < fuel) :
    c.walkLRUCandidatesBySize fuel neededBytes maxCount =
      some (StoreMetaIndex.takeBySize neededBytes (c.coldToHot.filterMap c.find) maxCount ⟨[],0⟩) := by
  rw [h.count, h.threaded.counted] at hfuel
  rw [LinkedMetaIndex.walkLRUCandidatesBySize, h.ring.walk (fun k hk => h.deref hk) hfuel,
    collect_takeBySize, h.records]
  rfl

/-- The records in the ring are the committed ones, each once; every node of the ring is the one
before its next and after its previous node; the other records point nowhere. -/
structure WellLinked (c : LinkedMetaIndex) (l : List Key) : Prop where
  ring : c.ring.Holds l
  committed : ∀ k, k ∈ l ↔ c.isCommitted k = true
  counted : c.committedCount = l.length
  inverse : ∀ n ∈ LinkRing.nodes l, c.ring.prev (c.ring.next n) = n ∧ c.ring.next (c.ring.prev n) = n
  loose : ∀ k rec, c.find k = some rec → rec.stat ≠ 1 → c.ring.Loose k

theorem Shaped.wellLinked (h : c.Shaped m) : c.WellLinked m.lru.items where
  ring := h.ring
  committed k := by rw [h.isCommitted, h.threaded.linked]
  counted := by rw [h.count, h.threaded.counted]
  inverse n hn := ⟨(h.ring.next hn).2,(h.ring.prev hn).2⟩
  loose k rec hf hstat := h.loose k rec (by rwa [← h.find]) hstat

/-- After any calls the ring is well-formed, the next call follows no null pointer, and the walks
for candidates come to their end. -/
theorem run_wellLinked (calls : List (ℕ × IndexCall)) :
    (∃ l, (create.run calls).WellLinked l) ∧
    (∀ now call, (create.run calls).tryApply now call = some ((create.run calls).apply now call)) ∧
    ∀ fuel maxCount neededBytes, (create.run calls).committedCount < fuel →
      (create.run calls).walkLRUCandidates fuel maxCount = some
        (((create.run calls).coldToHot.filterMap (create.run calls).find).take maxCount) ∧
      (create.run calls).walkLRUCandidatesBySize fuel neededBytes maxCount = some
        (StoreMetaIndex.takeBySize neededBytes
          ((create.run calls).coldToHot.filterMap (create.run calls).find) maxCount ⟨[],0⟩) := by
  have h := shaped_create.run calls
  refine ⟨⟨_,h.wellLinked⟩,h.toRefines.tryApply,?_⟩
  intro fuel maxCount neededBytes hfuel
  exact ⟨h.walkLRUCandidates maxCount hfuel,h.walkLRUCandidatesBySize neededBytes maxCount hfuel⟩

end LinkedMetaIndex

end FalconKV
