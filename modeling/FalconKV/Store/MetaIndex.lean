import Mathlib.Algebra.Order.Group.Multiset
import FalconKV.Common.Status
import FalconKV.Common.RecencyList

/-! # The metadata index of a store

A map from keys to records, with the committed records (`stat = 1`) linked into a
recency list. Every operation holds the index lock and is one step; those that read
the wall clock take its value as `now`.
-/
namespace FalconKV

structure StoreKeyRecord where
  key : Key
  offset : ℕ
  size : ℕ
  allocSize : ℕ
  /-- 0 allocated, 1 committed, 2 evict -/
  stat : ℤ
  accessTimeMs : ℕ
  deriving DecidableEq, Repr

def StoreKeyRecord.timeless (rec : StoreKeyRecord) : StoreKeyRecord := { rec with accessTimeMs := 0 }

structure EvictCandidates where
  entries : List StoreKeyRecord
  totalAllocSize : ℕ
  deriving DecidableEq, Repr

structure StoreMetaIndex where
  index : AList fun _ : Key => StoreKeyRecord
  lru : RecencyList Key
  committedCount : ℕ

namespace StoreMetaIndex

def create : StoreMetaIndex := ⟨∅,RecencyList.empty,0⟩

/-- `index_.find`. -/
def find (m : StoreMetaIndex) (key : Key) : Option StoreKeyRecord := m.index.lookup key

def setRecord (m : StoreMetaIndex) (key : Key) (rec : StoreKeyRecord) : StoreMetaIndex :=
  { m with index := m.index.insert key rec }

def eraseRecord (m : StoreMetaIndex) (key : Key) : StoreMetaIndex :=
  { m with index := m.index.erase key }

def unlink (m : StoreMetaIndex) (key : Key) : StoreMetaIndex :=
  { m with lru := m.lru.remove key, committedCount := m.committedCount - 1 }

def link (m : StoreMetaIndex) (key : Key) : StoreMetaIndex :=
  { m with lru := m.lru.pushFront key, committedCount := m.committedCount + 1 }

def put (m : StoreMetaIndex) (key : Key) (record : StoreKeyRecord) : StoreMetaIndex :=
  match m.find key with
  | some rec =>
    let m := if rec.stat = 1 then m.unlink key else m
    let m := m.setRecord key { record with key := rec.key }
    if record.stat = 1 then m.link key else m
  | none =>
    let m := if record.stat = 1 then m.link key else m
    m.setRecord key record

def touchRecord (m : StoreMetaIndex) (key : Key) (rec : StoreKeyRecord) (now : ℕ) : StoreMetaIndex :=
  { m.setRecord key { rec with accessTimeMs := now } with
    lru := (m.lru.remove key).pushFront key }

def get (m : StoreMetaIndex) (key : Key) (now : ℕ) : Option StoreKeyRecord × StoreMetaIndex :=
  match m.find key with
  | none => (none,m)
  | some rec =>
    if rec.stat ≠ 1 then (none,m)
    else (some { rec with accessTimeMs := now },m.touchRecord key rec now)

/-- The hits and the misses, with one clock reading for the whole call. -/
def batchContains (m : StoreMetaIndex) (now : ℕ) :
    List Key → (List StoreKeyRecord × List Key) × StoreMetaIndex
  | [] => (([],[]),m)
  | key :: keys =>
    match m.get key now with
    | (some rec,m) =>
      let ((hits,misses),m) := m.batchContains now keys
      ((rec :: hits,misses),m)
    | (none,m) =>
      let ((hits,misses),m) := m.batchContains now keys
      ((hits,key :: misses),m)

def commit (m : StoreMetaIndex) (key : Key) (now : ℕ) : Bool × StoreMetaIndex :=
  match m.find key with
  | none => (false,m)
  | some rec =>
    if rec.stat = 1 then (true,m)
    else
      let m := m.setRecord key { rec with stat := 1, accessTimeMs := now }
      (true,m.link key)

def remove (m : StoreMetaIndex) (key : Key) : Option StoreKeyRecord × StoreMetaIndex :=
  match m.find key with
  | none => (none,m)
  | some rec =>
    let m := if rec.stat = 1 then m.unlink key else m
    (some rec,m.eraseRecord key)

def touch (m : StoreMetaIndex) (key : Key) (now : ℕ) : StoreMetaIndex :=
  match m.find key with
  | none => m
  | some rec => if rec.stat = 1 then m.touchRecord key rec now else m

def getAllCommittedEntries (m : StoreMetaIndex) : List StoreKeyRecord :=
  (m.index.entries.map Sigma.snd).filter fun rec => rec.stat == 1

def getLRUCandidates (m : StoreMetaIndex) (maxCount : ℕ) : List StoreKeyRecord :=
  (m.lru.coldest.filterMap m.find).take maxCount

/-- Take records until their total reaches `neededBytes` or `maxCount` are taken. -/
def takeBySize (neededBytes : ℕ) : List StoreKeyRecord → ℕ → EvictCandidates → EvictCandidates
  | [], _, result => result
  | _, 0, result => result
  | rec :: rest, maxCount + 1, result =>
    if result.totalAllocSize < neededBytes then
      takeBySize neededBytes rest maxCount
        ⟨result.entries ++ [rec],u32 (result.totalAllocSize + rec.allocSize)⟩
    else result

def getLRUCandidatesBySize (m : StoreMetaIndex) (neededBytes maxCount : ℕ) : EvictCandidates :=
  takeBySize neededBytes (m.lru.coldest.filterMap m.find) maxCount ⟨[],0⟩

variable {m m' : StoreMetaIndex} {key k : Key} {rec record : StoreKeyRecord} {now : ℕ}

@[simp] theorem find_create : create.find k = none := rfl
@[simp] theorem find_link : (m.link key).find k = m.find k := rfl
@[simp] theorem find_unlink : (m.unlink key).find k = m.find k := rfl

theorem find_setRecord : (m.setRecord key rec).find k = if k = key then some rec else m.find k := by
  by_cases h : k = key
  · subst h
    simp [find, setRecord]
  · simp only [find, setRecord, if_neg h, AList.lookup_insert_ne h]

theorem find_eraseRecord : (m.eraseRecord key).find k = if k = key then none else m.find k := by
  by_cases h : k = key
  · subst h
    simp [find, eraseRecord]
  · simp only [find, eraseRecord, if_neg h, AList.lookup_erase_ne h]

@[simp] theorem find_touchRecord : (m.touchRecord key rec now).find k =
    if k = key then some { rec with accessTimeMs := now } else m.find k := find_setRecord

/-- What `put` leaves under its key: a present record keeps its `key` field. -/
def stored (m : StoreMetaIndex) (key : Key) (record : StoreKeyRecord) : StoreKeyRecord :=
  { record with key := ((m.find key).map StoreKeyRecord.key).getD record.key }

theorem find_put : (m.put key record).find k =
    if k = key then some (m.stored key record) else m.find k := by
  unfold put stored
  cases hf : m.find key with
  | none =>
    have h : ∀ m' : StoreMetaIndex, m'.find k = m.find k →
        (m'.setRecord key record).find k = if k = key then some record else m.find k := by
      intro m' hm
      rw [find_setRecord, hm]
    dsimp only
    split
    · exact h _ find_link
    · exact h _ rfl
  | some rec =>
    have h : ∀ m' : StoreMetaIndex, m'.find k = m.find k →
        (m'.setRecord key { record with key := rec.key }).find k =
          if k = key then some { record with key := rec.key } else m.find k := by
      intro m' hm
      rw [find_setRecord, hm]
    have hu : (if rec.stat = 1 then m.unlink key else m).find k = m.find k := by
      split <;> rfl
    dsimp only
    split
    · exact find_link.trans (h _ hu)
    · exact h _ hu

/-- Looking a key up changes nothing but access times. -/
theorem find_get_timeless (m : StoreMetaIndex) (key : Key) (now : ℕ) (k : Key) :
    ((m.get key now).2.find k).map StoreKeyRecord.timeless =
    (m.find k).map StoreKeyRecord.timeless := by
  unfold get
  cases hf : m.find key with
  | none => rfl
  | some rec =>
    dsimp only
    split
    · rfl
    · rw [find_touchRecord]
      split
      · next hk =>
        rw [hk, hf]
        rfl
      · rfl

theorem find_batchContains_timeless (m : StoreMetaIndex) (now : ℕ) (k : Key) (keys : List Key) :
    ((m.batchContains now keys).2.find k).map StoreKeyRecord.timeless =
      (m.find k).map StoreKeyRecord.timeless := by
  induction keys generalizing m with
  | nil => rfl
  | cons key keys ih =>
    have hg : ((m.get key now).2.find k).map StoreKeyRecord.timeless =
        (m.find k).map StoreKeyRecord.timeless := find_get_timeless m key now k
    unfold batchContains
    cases hget : m.get key now with
    | mk found m' =>
      rw [hget] at hg
      cases found with
      | none => exact (ih m').trans hg
      | some rec => exact (ih m').trans hg

/-- The key has a committed record. -/
def isCommitted (m : StoreMetaIndex) (key : Key) : Bool := (m.find key).any fun rec => rec.stat == 1

theorem isCommitted_of_timeless (h : (m'.find key).map StoreKeyRecord.timeless =
    (m.find key).map StoreKeyRecord.timeless) : m'.isCommitted key = m.isCommitted key := by
  have hmap : ∀ r : Option StoreKeyRecord, (r.any fun rec => rec.stat == 1) =
      (r.map StoreKeyRecord.timeless).any fun rec => rec.stat == 1 := fun r => by cases r <;> rfl
  rw [isCommitted, isCommitted, hmap, h, ← hmap]

theorem isSome_get (m : StoreMetaIndex) (key : Key) (now : ℕ) : (m.get key now).1.isSome = m.isCommitted key := by
  unfold get isCommitted
  cases m.find key with
  | none => rfl
  | some rec => by_cases hstat : rec.stat = 1 <;> simp [hstat]

/-- The hits are the keys with a committed record, the misses the others. -/
theorem batchContains_fst (m : StoreMetaIndex) (now : ℕ) (keys : List Key) :
    (m.batchContains now keys).1.1.length = keys.countP m.isCommitted ∧
      (m.batchContains now keys).1.2 = keys.filter fun key => !m.isCommitted key := by
  induction keys generalizing m with
  | nil => exact ⟨rfl,rfl⟩
  | cons key keys ih =>
    have hsame : (m.get key now).2.isCommitted = m.isCommitted :=
      funext fun k => isCommitted_of_timeless (find_get_timeless m key now k)
    have hsome := isSome_get m key now
    unfold batchContains
    cases hget : m.get key now with
    | mk found m' =>
      rw [hget] at hsame hsome
      have hrest := ih m'
      rw [hsame] at hrest
      cases found with
      | none =>
        have hkey : m.isCommitted key = false := hsome.symm
        exact ⟨by simpa [hkey] using hrest.1,by simpa [hkey] using hrest.2⟩
      | some rec =>
        have hkey : m.isCommitted key = true := hsome.symm
        exact ⟨by simpa [hkey] using hrest.1,by simpa [hkey] using hrest.2⟩

theorem get_of_none (h : m.find key = none) : m.get key now = (none,m) := by simp only [get, h]

theorem get_of_some (h : m.find key = some rec) (hs : rec.stat = 1) :
    m.get key now = (some { rec with accessTimeMs := now },m.touchRecord key rec now) := by
  simp [get, h, hs]

theorem remove_fst : (m.remove key).1 = m.find key := by
  unfold remove
  cases m.find key <;> rfl

theorem find_remove : (m.remove key).2.find k = if k = key then none else m.find k := by
  unfold remove
  cases hf : m.find key with
  | none =>
    dsimp only
    split
    · next hk => rw [hk, hf]
    · rfl
  | some rec =>
    dsimp only
    rw [find_eraseRecord]
    have hu : (if rec.stat = 1 then m.unlink key else m).find k = m.find k := by
      split <;> rfl
    rw [hu]

def entryRecord (e : (_ : Key) × StoreKeyRecord) : StoreKeyRecord := e.2.timeless

/-- The records without the order of the map and the access times: looking a key up does not change
them, and the other operations add or take one. -/
def extents (m : StoreMetaIndex) : Multiset StoreKeyRecord :=
  (m.index.entries.map entryRecord : List StoreKeyRecord)

@[simp] theorem extents_create : create.extents = 0 := rfl
@[simp] theorem extents_link : (m.link key).extents = m.extents := rfl
@[simp] theorem extents_unlink : (m.unlink key).extents = m.extents := rfl

theorem mem_extents {r : StoreKeyRecord} :
    r ∈ m.extents ↔ ∃ k rec, m.find k = some rec ∧ rec.timeless = r := by
  simp only [extents, Multiset.mem_coe, List.mem_map]
  constructor
  · rintro ⟨⟨k,rec⟩,he,rfl⟩
    exact ⟨k,rec,AList.mem_lookup_iff.mpr he,rfl⟩
  · rintro ⟨k,rec,hf,rfl⟩
    exact ⟨⟨k,rec⟩,AList.mem_lookup_iff.mp hf,rfl⟩

theorem mem_getAllCommittedEntries {m : StoreMetaIndex} {rec : StoreKeyRecord} :
    rec ∈ m.getAllCommittedEntries ↔ rec.stat = 1 ∧ ∃ key, m.find key = some rec := by
  simp only [getAllCommittedEntries, List.mem_filter, List.mem_map, beq_iff_eq]
  constructor
  · rintro ⟨⟨⟨key,rec⟩,he,rfl⟩,hstat⟩
    exact ⟨hstat,key,AList.mem_lookup_iff.mpr he⟩
  · rintro ⟨hstat,key,hf⟩
    exact ⟨⟨⟨key,rec⟩,AList.mem_lookup_iff.mp hf,rfl⟩,hstat⟩

theorem extents_setRecord_of_none (h : m.find key = none) :
    (m.setRecord key rec).extents = {rec.timeless} + m.extents := by
  rw [extents, setRecord, AList_entries_insert_of_none h]
  rfl

theorem extents_setRecord_of_some {old : StoreKeyRecord} (h : m.find key = some old) :
    {old.timeless} + (m.setRecord key rec).extents = {rec.timeless} + m.extents :=
  Multiset.coe_eq_coe.mpr ((AList_entries_insert_perm (v := rec) h).map entryRecord)

theorem extents_eraseRecord (h : m.find key = some rec) :
    m.extents = {rec.timeless} + (m.eraseRecord key).extents :=
  Multiset.coe_eq_coe.mpr ((AList_entries_erase_perm h).map entryRecord)

theorem extents_touchRecord (h : m.find key = some rec) :
    (m.touchRecord key rec now).extents = m.extents := by
  have hs : {rec.timeless} + (m.setRecord key { rec with accessTimeMs := now }).extents =
      {rec.timeless} + m.extents := extents_setRecord_of_some h
  exact add_left_cancel hs

theorem extents_put_of_none (h : m.find key = none) :
    (m.put key record).extents = {record.timeless} + m.extents := by
  unfold put
  rw [h]
  dsimp only
  split
  · exact extents_setRecord_of_none (m := m.link key) h
  · exact extents_setRecord_of_none h

theorem extents_put_of_some {old : StoreKeyRecord} (record : StoreKeyRecord)
    (h : m.find key = some old) :
    {old.timeless} + (m.put key record).extents =
      {(m.stored key record).timeless} + m.extents := by
  have hs : m.stored key record = { record with key := old.key } := by simp [stored, h]
  have hu : ∀ m' : StoreMetaIndex, m'.index = m.index →
      {old.timeless} + (m'.setRecord key (m.stored key record)).extents =
        {(m.stored key record).timeless} + m.extents := by
    intro m' hm
    have he : m'.extents = m.extents := by rw [extents, extents, hm]
    rw [← he]
    exact extents_setRecord_of_some (by rw [find, hm]; exact h)
  unfold put
  rw [h]
  dsimp only
  rw [← hs]
  split <;> split <;> exact hu _ rfl

theorem mem_extents_put {r : StoreKeyRecord} (hr : r ∈ (m.put key record).extents) :
    r = (m.stored key record).timeless ∨ r ∈ m.extents := by
  cases hf : m.find key with
  | none =>
    have hs : m.stored key record = record := by simp [stored, hf]
    rw [extents_put_of_none hf] at hr
    rw [hs]
    simpa using hr
  | some old =>
    have hmem : r ∈ {old.timeless} + (m.put key record).extents :=
      Multiset.mem_add.mpr (.inr hr)
    rw [extents_put_of_some record hf] at hmem
    simpa using hmem

theorem extents_get : (m.get key now).2.extents = m.extents := by
  unfold get
  cases hf : m.find key with
  | none => rfl
  | some rec =>
    dsimp only
    split
    · rfl
    · exact extents_touchRecord hf

theorem extents_batchContains (keys : List Key) :
    (m.batchContains now keys).2.extents = m.extents := by
  induction keys generalizing m with
  | nil => rfl
  | cons key keys ih =>
    have hg : (m.get key now).2.extents = m.extents := extents_get
    unfold batchContains
    cases hget : m.get key now with
    | mk found m' =>
      rw [hget] at hg
      cases found with
      | none => exact ih.trans hg
      | some rec => exact ih.trans hg

theorem extents_remove_of_some (h : m.find key = some rec) :
    m.extents = {rec.timeless} + (m.remove key).2.extents := by
  unfold remove
  rw [h]
  dsimp only
  split
  · exact extents_eraseRecord (m := m.unlink key) h
  · exact extents_eraseRecord h

theorem extents_remove_of_none (h : m.find key = none) : (m.remove key).2 = m := by
  simp only [remove, h]

structure Sound (m : StoreMetaIndex) : Prop where
  keyed : ∀ {k rec}, m.find k = some rec → rec.key = k
  committed : ∀ {k rec}, m.find k = some rec → rec.stat = 1

theorem sound_create : create.Sound := ⟨by simp,by simp⟩

theorem Sound.mem_entries (h : m.Sound) :
    rec ∈ m.getAllCommittedEntries ↔ m.find rec.key = some rec := by
  rw [mem_getAllCommittedEntries]
  constructor
  · rintro ⟨-,k,hk⟩
    rwa [h.keyed hk]
  · exact fun hk => ⟨h.committed hk,_,hk⟩

/-- The record that a put stores under a sound index. -/
theorem Sound.stored_eq (h : m.Sound) (hk : record.key = key) : m.stored key record = record := by
  subst hk
  cases hold : m.find record.key with
  | none => simp [stored, hold]
  | some old => simp [stored, hold, h.keyed hold]

/-- Keys and states of the records decide soundness. -/
theorem Sound.of_find (h : m.Sound) (hf : ∀ {k rec}, m'.find k = some rec →
    (rec.key = k ∧ rec.stat = 1) ∨ m.find k = some rec) : m'.Sound where
  keyed := fun hk => (hf hk).elim And.left h.keyed
  committed := fun hk => (hf hk).elim And.right h.committed

theorem Sound.put (h : m.Sound) (hk : record.key = key) (hs : record.stat = 1) :
    (m.put key record).Sound := by
  refine h.of_find fun {k rec} hf => ?_
  rw [find_put] at hf
  split at hf
  · next hkey =>
    left
    rw [h.stored_eq hk] at hf
    cases hf
    exact ⟨hk.trans hkey.symm,hs⟩
  · exact .inr hf

theorem Sound.get_eq (h : m.Sound) : m.get key now = match m.find key with
    | none => (none,m)
    | some rec => (some { rec with accessTimeMs := now },m.touchRecord key rec now) := by
  cases hf : m.find key with
  | none => exact get_of_none hf
  | some rec => exact get_of_some hf (h.committed hf)

theorem Sound.get (h : m.Sound) : (m.get key now).2.Sound := by
  rw [h.get_eq]
  cases hf : m.find key with
  | none => exact h
  | some rec =>
    refine h.of_find fun {k rec'} hk => ?_
    rw [find_touchRecord] at hk
    split at hk
    · next hkey =>
      cases hk
      have hrec : rec.key = k := by rw [hkey, h.keyed hf]
      exact .inl ⟨hrec,(h.committed hf : rec.stat = 1)⟩
    · exact .inr hk

theorem Sound.batchContains (h : m.Sound) (keys : List Key) :
    (m.batchContains now keys).2.Sound := by
  induction keys generalizing m with
  | nil => exact h
  | cons key keys ih =>
    have hg : (m.get key now).2.Sound := h.get
    unfold StoreMetaIndex.batchContains
    cases hget : m.get key now with
    | mk found m' =>
      rw [hget] at hg
      cases found with
      | none => exact ih hg
      | some rec => exact ih hg

/-- A hit is the record of its key, but for the time of its last access. -/
theorem Sound.mem_batchContains (h : m.Sound) {keys : List Key} (hrec : rec ∈ (m.batchContains now keys).1.1) :
    (m.find rec.key).map StoreKeyRecord.timeless = some rec.timeless := by
  induction keys generalizing m with
  | nil => cases hrec
  | cons key keys ih =>
    have hg : (m.get key now).2.Sound := h.get
    have htime := find_get_timeless m key now rec.key
    unfold StoreMetaIndex.batchContains at hrec
    cases hget : m.get key now with
    | mk found m' =>
      rw [hget] at hg htime hrec
      cases found with
      | none => exact htime.symm.trans (ih hg hrec)
      | some first =>
        rcases List.mem_cons.mp hrec with rfl | hrest
        · rw [h.get_eq] at hget
          cases hfind : m.find key with
          | none =>
            rw [hfind] at hget
            cases hget
          | some old =>
            rw [hfind] at hget
            cases hget
            obtain rfl : old.key = key := h.keyed hfind
            dsimp only
            rw [hfind]
            rfl
        · exact htime.symm.trans (ih hg hrest)

theorem Sound.remove (h : m.Sound) : (m.remove key).2.Sound := by
  refine h.of_find fun {k rec} hf => ?_
  rw [find_remove] at hf
  split at hf
  · cases hf
  · exact .inr hf

/-- Candidates are records of the index, and their keys come in the order of the list. -/
theorem coldest_of_keyed (hkeyed : ∀ {k rec}, m.find k = some rec → rec.key = k) (ks : List Key) :
    (∀ rec ∈ ks.filterMap m.find, m.find rec.key = some rec) ∧
    ((ks.filterMap m.find).map StoreKeyRecord.key).Sublist ks := by
  induction ks with
  | nil => simp
  | cons k ks ih =>
    obtain ⟨hfind,hsub⟩ := ih
    cases hf : m.find k with
    | none =>
      rw [List.filterMap_cons_none hf]
      exact ⟨hfind,hsub.cons k⟩
    | some rec =>
      rw [List.filterMap_cons_some hf, List.map_cons, hkeyed hf]
      refine ⟨?_,hsub.cons_cons k⟩
      intro r hr
      rcases List.mem_cons.mp hr with rfl | hr
      · rw [hkeyed hf]
        exact hf
      · exact hfind r hr

theorem takeBySize_prefix (neededBytes : ℕ) (l : List StoreKeyRecord) (maxCount : ℕ)
    (result : EvictCandidates) : ∃ l', l'.Sublist l ∧
      (takeBySize neededBytes l maxCount result).entries = result.entries ++ l' := by
  induction l generalizing maxCount result with
  | nil => exact ⟨[],.slnil,by simp [takeBySize]⟩
  | cons rec rest ih =>
    cases maxCount with
    | zero => exact ⟨[],List.nil_sublist _,by simp [takeBySize]⟩
    | succ n =>
      by_cases hn : result.totalAllocSize < neededBytes
      · obtain ⟨l',hsub,he⟩ :=
          ih n ⟨result.entries ++ [rec],u32 (result.totalAllocSize + rec.allocSize)⟩
        refine ⟨rec :: l',hsub.cons_cons rec,?_⟩
        rw [takeBySize, if_pos hn, he]
        simp
      · exact ⟨[],List.nil_sublist _,by simp [takeBySize, hn]⟩

/-- What eviction relies on: its candidates are in the index, under distinct keys. -/
structure Snapshot (m : StoreMetaIndex) (candidates : List StoreKeyRecord) : Prop where
  found : ∀ rec ∈ candidates, m.find rec.key = some rec
  distinct : (candidates.map StoreKeyRecord.key).Nodup

theorem snapshot_of_sublist (hkeyed : ∀ {k rec}, m.find k = some rec → rec.key = k)
    {l : List StoreKeyRecord} (hl : l.Sublist (m.lru.coldest.filterMap m.find)) : m.Snapshot l := by
  obtain ⟨hfind,hsub⟩ := coldest_of_keyed hkeyed m.lru.coldest
  exact ⟨fun rec hr => hfind rec (hl.subset hr),
    ((hl.map _).trans hsub).nodup m.lru.nodup_coldest⟩

theorem sublist_getLRUCandidates (m : StoreMetaIndex) (n : ℕ) :
    (m.getLRUCandidates n).Sublist (m.lru.coldest.filterMap m.find) := List.take_sublist n _

theorem sublist_getLRUCandidatesBySize (m : StoreMetaIndex) (needed n : ℕ) :
    (m.getLRUCandidatesBySize needed n).entries.Sublist (m.lru.coldest.filterMap m.find) := by
  obtain ⟨l',hsub,he⟩ := takeBySize_prefix needed (m.lru.coldest.filterMap m.find) n ⟨[],0⟩
  rw [getLRUCandidatesBySize, he]
  exact hsub

theorem Sound.getLRUCandidates (h : m.Sound) (n : ℕ) : m.Snapshot (m.getLRUCandidates n) :=
  snapshot_of_sublist h.keyed (m.sublist_getLRUCandidates n)

theorem Sound.getLRUCandidatesBySize (h : m.Sound) (needed n : ℕ) :
    m.Snapshot (m.getLRUCandidatesBySize needed n).entries :=
  snapshot_of_sublist h.keyed (m.sublist_getLRUCandidatesBySize needed n)

/-- The removal of one of them leaves the others candidates. -/
theorem Snapshot.tail {recs : List StoreKeyRecord} (h : m.Snapshot (rec :: recs)) :
    (m.remove rec.key).2.Snapshot recs := by
  obtain ⟨hnot,hnodup⟩ := List.nodup_cons.mp h.distinct
  refine ⟨fun rec' hr => ?_,hnodup⟩
  have hne : rec'.key ≠ rec.key := fun heq => hnot (heq ▸ List.mem_map_of_mem hr)
  rw [find_remove, if_neg hne]
  exact h.found rec' (List.mem_cons_of_mem _ hr)

end StoreMetaIndex

end FalconKV
