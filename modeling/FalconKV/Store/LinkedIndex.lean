import FalconKV.Common.LinkRing
import FalconKV.Store.MetaIndex

/-! # The map and the ring of the metadata index

The records of `index_` are the nodes of the LRU ring themselves: a record is in the ring when
`lru_prev` and `lru_next` say so, and the lookups, insertions and removals relink it under
conditions on its state. Every operation on the map and the ring is one on the map and the
recency list of `StoreMetaIndex`.
-/
namespace FalconKV

/-- `key` is also the identity of the node that the map holds under `key`. -/
structure LinkedMetaIndex where
  index : AList fun _ : Key => StoreKeyRecord
  ring : LinkRing Key
  committedCount : ℕ

/-- The operations of the index that change something. -/
inductive IndexCall
  | put (key : Key) (record : StoreKeyRecord)
  | get (key : Key)
  | batchContains (keys : List Key)
  | commit (key : Key)
  | remove (key : Key)
  | touch (key : Key)

namespace LinkedMetaIndex

def create : LinkedMetaIndex := ⟨∅,.create,0⟩

def find (m : LinkedMetaIndex) (key : Key) : Option StoreKeyRecord := m.index.lookup key

def setRecord (m : LinkedMetaIndex) (key : Key) (rec : StoreKeyRecord) : LinkedMetaIndex :=
  { m with index := m.index.insert key rec }

def eraseRecord (m : LinkedMetaIndex) (key : Key) : LinkedMetaIndex :=
  { m with index := m.index.erase key }

def lruRemove (m : LinkedMetaIndex) (key : Key) : LinkedMetaIndex :=
  { m with ring := m.ring.remove (.record key) }

def lruPushFront (m : LinkedMetaIndex) (key : Key) : LinkedMetaIndex :=
  { m with ring := m.ring.pushFront (.record key) }

def countUp (m : LinkedMetaIndex) : LinkedMetaIndex :=
  { m with committedCount := m.committedCount + 1 }

def countDown (m : LinkedMetaIndex) : LinkedMetaIndex :=
  { m with committedCount := m.committedCount - 1 }

def newRecord (m : LinkedMetaIndex) (key : Key) : LinkedMetaIndex :=
  { m with ring := m.ring.clear (.record key) }

def put (m : LinkedMetaIndex) (key : Key) (record : StoreKeyRecord) : LinkedMetaIndex :=
  match m.find key with
  | some rec =>
    let m := if rec.stat = 1 then (m.lruRemove key).countDown else m
    let m := m.setRecord key { record with key := rec.key }
    if record.stat = 1 then (m.lruPushFront key).countUp else m
  | none =>
    let m := m.newRecord key
    let m := if record.stat = 1 then (m.lruPushFront key).countUp else m
    m.setRecord key record

def get (m : LinkedMetaIndex) (key : Key) (now : ℕ) : Option StoreKeyRecord × LinkedMetaIndex :=
  match m.find key with
  | none => (none,m)
  | some rec =>
    if rec.stat ≠ 1 then (none,m)
    else
      let m := (m.lruRemove key).lruPushFront key
      let touched := { rec with accessTimeMs := now }
      (some touched,m.setRecord key touched)

def batchLoop (now : ℕ) : List Key → List StoreKeyRecord → List Key → LinkedMetaIndex →
    (List StoreKeyRecord × List Key) × LinkedMetaIndex
  | [], hits, misses, m => ((hits,misses),m)
  | key :: keys, hits, misses, m =>
    match m.find key with
    | none => batchLoop now keys hits (misses ++ [key]) m
    | some rec =>
      if rec.stat = 1 then
        let m := (m.lruRemove key).lruPushFront key
        let touched := { rec with accessTimeMs := now }
        batchLoop now keys (hits ++ [touched]) misses (m.setRecord key touched)
      else batchLoop now keys hits (misses ++ [key]) m

/-- One clock reading for the whole call. -/
def batchContains (m : LinkedMetaIndex) (now : ℕ) (keys : List Key) :
    (List StoreKeyRecord × List Key) × LinkedMetaIndex := batchLoop now keys [] [] m

def commit (m : LinkedMetaIndex) (key : Key) (now : ℕ) : Bool × LinkedMetaIndex :=
  match m.find key with
  | none => (false,m)
  | some rec =>
    if rec.stat = 1 then (true,m)
    else
      let m := m.setRecord key { rec with stat := 1, accessTimeMs := now }
      (true,(m.lruPushFront key).countUp)

def remove (m : LinkedMetaIndex) (key : Key) : Option StoreKeyRecord × LinkedMetaIndex :=
  match m.find key with
  | none => (none,m)
  | some rec =>
    let m := if rec.stat = 1 then (m.lruRemove key).countDown else m
    (some rec,m.eraseRecord key)

def touch (m : LinkedMetaIndex) (key : Key) (now : ℕ) : LinkedMetaIndex :=
  match m.find key with
  | none => m
  | some rec =>
    if rec.stat = 1 then
      ((m.lruRemove key).lruPushFront key).setRecord key { rec with accessTimeMs := now }
    else m

def getAllCommittedEntries (m : LinkedMetaIndex) : List StoreKeyRecord :=
  (m.index.entries.map Sigma.snd).filter fun rec => rec.stat == 1

/-- From `sentinel_.lru_prev` on, until the sentinel comes or enough are taken. -/
def getLRUCandidates (m : LinkedMetaIndex) (maxCount : ℕ) : List StoreKeyRecord :=
  (m.ring.walkBack maxCount (m.ring.prev .sentinel)).filterMap m.find

/-- `std::sort` by access time leaves open in which order records of one time come. -/
def getColdEntries (sort : List StoreKeyRecord → List StoreKeyRecord) (m : LinkedMetaIndex)
    (accessTimeThreshold maxCount : ℕ) : List StoreKeyRecord :=
  (sort (m.getAllCommittedEntries.filter fun rec =>
    decide (rec.accessTimeMs ≤ accessTimeThreshold))).take maxCount

def isCommitted (m : LinkedMetaIndex) (key : Key) : Bool := (m.find key).any fun rec => rec.stat == 1

/-- The whole ring from the LRU end to the MRU end. -/
def coldToHot (m : LinkedMetaIndex) : List Key :=
  m.ring.walkBack m.index.entries.length (m.ring.prev .sentinel)

def apply (m : LinkedMetaIndex) (now : ℕ) : IndexCall → LinkedMetaIndex
  | .put key record => m.put key record
  | .get key => (m.get key now).2
  | .batchContains keys => (m.batchContains now keys).2
  | .commit key => (m.commit key now).2
  | .remove key => (m.remove key).2
  | .touch key => m.touch key now

/-- Calls one after the other, each with its clock reading. -/
def run (m : LinkedMetaIndex) (calls : List (ℕ × IndexCall)) : LinkedMetaIndex :=
  calls.foldl (fun m x => m.apply x.1 x.2) m

/-- `Get` on the keys in order, with the answers. -/
def gets (m : LinkedMetaIndex) (now : ℕ) : List Key → List (Option StoreKeyRecord) × LinkedMetaIndex
  | [] => ([],m)
  | key :: keys => ((m.get key now).1 :: ((m.get key now).2.gets now keys).1,
      ((m.get key now).2.gets now keys).2)

/-- The keys whose lookups failed. -/
def failing (keys : List Key) (answers : List (Option StoreKeyRecord)) : List Key :=
  ((keys.zip answers).filter fun x => x.2.isNone).map Prod.fst

variable {c : LinkedMetaIndex} {key : Key} {keys misses : List Key} {hits : List StoreKeyRecord} {now : ℕ}

theorem length_gets : (c.gets now keys).1.length = keys.length := by
  induction keys generalizing c with
  | nil => rfl
  | cons key keys ih => exact congrArg (· + 1) ih

/-- One round of the loop does what `Get` does. -/
theorem batchLoop_cons : batchLoop now (key :: keys) hits misses c = batchLoop now keys
    (hits ++ (c.get key now).1.toList)
    (if (c.get key now).1.isNone then misses ++ [key] else misses) (c.get key now).2 := by
  rw [batchLoop]
  unfold get
  cases hf : c.find key with
  | none => simp
  | some rec =>
    by_cases hstat : rec.stat = 1
    · simp [hstat]
    · simp [hstat]

theorem batchLoop_eq : batchLoop now keys hits misses c =
    ((hits ++ (c.gets now keys).1.filterMap id,misses ++ failing keys (c.gets now keys).1),
      (c.gets now keys).2) := by
  induction keys generalizing c hits misses with
  | nil => simp [batchLoop, gets, failing]
  | cons key keys ih =>
    rw [batchLoop_cons, ih, gets]
    cases hfound : (c.get key now).1 with
    | none => simp [failing]
    | some rec => simp [failing]

/-- Every position is a hit or a miss. -/
theorem length_failing {answers : List (Option StoreKeyRecord)} (h : answers.length = keys.length) :
    (answers.filterMap id).length + (failing keys answers).length = keys.length := by
  induction keys generalizing answers with
  | nil => simp_all [failing]
  | cons key keys ih =>
    cases answers with
    | nil => simp at h
    | cons answer answers =>
      have hrest := ih (by simpa using h)
      simp only [failing] at hrest
      cases answer with
      | none =>
        rw [List.filterMap_cons_none rfl]
        simp only [failing, List.zip_cons_cons, List.filter_cons, Option.isNone_none, if_true,
          List.map_cons, List.length_cons]
        omega
      | some rec =>
        have hid : id (some rec) = some rec := rfl
        rw [List.filterMap_cons_some hid]
        simp only [failing, List.zip_cons_cons, List.filter_cons, Option.isNone_some,
          List.length_cons, Bool.false_eq_true, if_false]
        omega

/-- A batch of lookups answers and does what the lookups one after the other do, whatever the
map and the pointers are. -/
theorem batchContains_eq_gets (m : LinkedMetaIndex) (now : ℕ) (keys : List Key) :
    (m.batchContains now keys).1.1 = (m.gets now keys).1.filterMap id ∧
    (m.batchContains now keys).1.2 = failing keys (m.gets now keys).1 ∧
    (m.gets now keys).1.length = keys.length ∧
    (m.batchContains now keys).1.1.length + (m.batchContains now keys).1.2.length = keys.length ∧
    (m.batchContains now keys).2 = (m.gets now keys).2 := by
  have hloop : m.batchContains now keys = (([] ++ (m.gets now keys).1.filterMap id,
    [] ++ failing keys (m.gets now keys).1),(m.gets now keys).2) := batchLoop_eq
  have hlen : (m.gets now keys).1.length = keys.length := length_gets
  rw [List.nil_append, List.nil_append] at hloop
  rw [hloop]
  exact ⟨rfl,rfl,hlen,length_failing hlen,rfl⟩

end LinkedMetaIndex

namespace StoreMetaIndex

structure Threaded (m : StoreMetaIndex) : Prop where
  linked : ∀ k, k ∈ m.lru.items ↔ m.isCommitted k = true
  counted : m.committedCount = m.lru.items.length

/-- What a call on one key does to the index; `hit` says whether it makes the key the most
recent one, and `time` is what it stamps the record with. -/
inductive Relinks (m m' : StoreMetaIndex) (key : Key) (time : ℕ) : (hit : Bool) → Prop
  | touched (rec : StoreKeyRecord) (hstat : rec.stat = 1) (htime : rec.accessTimeMs = time)
      (hfind : ∀ k, m'.find k = if k = key then some rec else m.find k)
      (hlru : m'.lru = (m.lru.remove key).pushFront key)
      (hcount : m'.committedCount = (m.lru.remove key).items.length + 1) :
      Relinks m m' key time true
  | dropped (hgone : m'.isCommitted key = false) (hfind : ∀ k, k ≠ key → m'.find k = m.find k)
      (hlru : m'.lru = m.lru.remove key) (hcount : m'.committedCount = (m.lru.remove key).items.length) :
      Relinks m m' key time false
  | kept (h : m' = m) : Relinks m m' key time false

variable {m m' : StoreMetaIndex} {key k : Key} {rec record : StoreKeyRecord} {now time : ℕ} {hit : Bool}

theorem isCommitted_of_find (h : m.find key = some rec) : m.isCommitted key = (rec.stat == 1) := by
  simp [isCommitted, h]

theorem isCommitted_of_none (h : m.find key = none) : m.isCommitted key = false := by
  simp [isCommitted, h]

theorem isCommitted_congr (h : m'.find k = m.find k) : m'.isCommitted k = m.isCommitted k := by
  rw [isCommitted, isCommitted, h]

theorem threaded_create : create.Threaded := ⟨fun k => by simp [create, isCommitted, find],rfl⟩

theorem Threaded.notMem (h : m.Threaded) (hk : m.isCommitted key = false) : key ∉ m.lru.items := by
  rw [h.linked key, hk]
  simp

theorem Relinks.threaded (hr : m.Relinks m' key time hit) (h : m.Threaded) : m'.Threaded := by
  cases hr with
  | touched rec hstat _ hfind hlru hcount =>
    constructor
    · intro k
      rw [hlru, RecencyList.mem_pushFront, RecencyList.mem_remove, h.linked k]
      have hk' := hfind k
      by_cases hk : k = key
      · rw [if_pos hk] at hk'
        have hthere := isCommitted_of_find hk'
        rw [hstat] at hthere
        simp [hk, hk ▸ hthere]
      · rw [if_neg hk] at hk'
        simp [hk, isCommitted_congr hk']
    · have hnot : key ∉ (m.lru.remove key).items := by simp
      rw [hcount, hlru, RecencyList.length_pushFront hnot]
  | dropped hgone hfind hlru hcount =>
    constructor
    · intro k
      rw [hlru, RecencyList.mem_remove, h.linked k]
      by_cases hk : k = key
      · simp [hk, hgone]
      · simp [hk, isCommitted_congr (hfind k hk)]
    · rw [hcount, hlru]
  | kept heq => exact heq ▸ h

/-- A committed record that is touched. -/
theorem Threaded.relinks_touchRecord (h : m.Threaded) (hf : m.find key = some rec)
    (hstat : rec.stat = 1) : m.Relinks (m.touchRecord key rec now) key now true := by
  have hmem : key ∈ m.lru.items := (h.linked key).mpr (by simp [isCommitted_of_find hf, hstat])
  have hpos : 0 < m.lru.items.length := List.length_pos_of_mem hmem
  have hcount := h.counted
  refine .touched { rec with accessTimeMs := now } hstat rfl (fun k => find_touchRecord) rfl ?_
  rw [RecencyList.length_remove hmem]
  change m.committedCount = _
  omega

theorem Threaded.relinks_get (h : m.Threaded) (key : Key) (now : ℕ) :
    m.Relinks (m.get key now).2 key now (m.isCommitted key) := by
  cases hf : m.find key with
  | none =>
    rw [isCommitted_of_none hf]
    exact .kept (by rw [get_of_none hf])
  | some rec =>
    rw [isCommitted_of_find hf]
    by_cases hstat : rec.stat = 1
    · rw [get_of_some hf hstat, hstat]
      exact h.relinks_touchRecord hf hstat
    · rw [beq_eq_false_iff_ne.mpr hstat]
      exact .kept (by simp [get, hf, hstat])

theorem Threaded.relinks_touch (h : m.Threaded) (key : Key) (now : ℕ) :
    m.Relinks (m.touch key now) key now (m.isCommitted key) := by
  cases hf : m.find key with
  | none =>
    rw [isCommitted_of_none hf]
    exact .kept (by simp [touch, hf])
  | some rec =>
    rw [isCommitted_of_find hf]
    by_cases hstat : rec.stat = 1
    · have htouch : m.touch key now = m.touchRecord key rec now := by simp [touch, hf, hstat]
      rw [htouch, hstat]
      exact h.relinks_touchRecord hf hstat
    · rw [beq_eq_false_iff_ne.mpr hstat]
      exact .kept (by simp [touch, hf, hstat])

/-- A put unlinks what was there, and links the new record if it is committed. -/
theorem Threaded.relinks_put (h : m.Threaded) (key : Key) (record : StoreKeyRecord) :
    m.Relinks (m.put key record) key record.accessTimeMs (record.stat == 1) := by
  have hfind : ∀ k, (m.put key record).find k =
      if k = key then some (m.stored key record) else m.find k := fun k => find_put
  have hlru : (m.put key record).lru = (if record.stat = 1 then (m.lru.remove key).pushFront key
        else m.lru.remove key) ∧
      (m.put key record).committedCount = (m.lru.remove key).items.length +
        if record.stat = 1 then 1 else 0 := by
    have hcount := h.counted
    cases hf : m.find key with
    | none =>
      have hsame := RecencyList.remove_of_notMem (h.notMem (isCommitted_of_none hf))
      rw [hsame, ← hcount]
      by_cases hstat : record.stat = 1 <;> simp [put, hf, hstat, setRecord, link]
    | some rec =>
      by_cases hold : rec.stat = 1
      · have hmem : key ∈ m.lru.items := (h.linked key).mpr (by simp [isCommitted_of_find hf, hold])
        rw [RecencyList.length_remove hmem, ← hcount]
        by_cases hstat : record.stat = 1 <;> simp [put, hf, hold, hstat, setRecord, link, unlink]
      · have hno : m.isCommitted key = false := by simp [isCommitted_of_find hf, hold]
        rw [RecencyList.remove_of_notMem (h.notMem hno), ← hcount]
        by_cases hstat : record.stat = 1 <;> simp [put, hf, hold, hstat, setRecord, link]
  by_cases hstat : record.stat = 1
  · rw [if_pos hstat, if_pos hstat] at hlru
    rw [hstat]
    exact .touched (m.stored key record) hstat rfl hfind hlru.1 hlru.2
  · rw [if_neg hstat, if_neg hstat] at hlru
    rw [beq_eq_false_iff_ne.mpr hstat]
    refine .dropped ?_ (fun k hk => (hfind k).trans (if_neg hk)) hlru.1 hlru.2
    have hkey : (m.put key record).find key = some (m.stored key record) := by simp [hfind]
    rw [isCommitted_of_find hkey]
    exact beq_eq_false_iff_ne.mpr hstat

def uncommitted (m : StoreMetaIndex) (key : Key) : Bool := (m.find key).any fun rec => rec.stat != 1

theorem Threaded.relinks_commit (h : m.Threaded) (key : Key) (now : ℕ) :
    m.Relinks (m.commit key now).2 key now (m.uncommitted key) := by
  cases hf : m.find key with
  | none =>
    have hun : m.uncommitted key = false := by simp [uncommitted, hf]
    rw [hun]
    exact .kept (by simp [commit, hf])
  | some rec =>
    by_cases hstat : rec.stat = 1
    · have hun : m.uncommitted key = false := by simp [uncommitted, hf, hstat]
      rw [hun]
      exact .kept (by simp [commit, hf, hstat])
    · have hun : m.uncommitted key = true := by simp [uncommitted, hf, hstat]
      have hno : m.isCommitted key = false := by simp [isCommitted_of_find hf, hstat]
      have hsame := RecencyList.remove_of_notMem (h.notMem hno)
      have hcount := h.counted
      have hcommit : (m.commit key now).2 =
          (m.setRecord key { rec with stat := 1, accessTimeMs := now }).link key := by
        simp [commit, hf, hstat]
      rw [hun, hcommit]
      refine .touched { rec with stat := 1, accessTimeMs := now } rfl rfl
        (fun k => find_link.trans find_setRecord) ?_ ?_
      · rw [hsame]
        rfl
      · rw [hsame, ← hcount]
        rfl

theorem Threaded.relinks_remove (h : m.Threaded) (key : Key) (time : ℕ) :
    m.Relinks (m.remove key).2 key time false := by
  have hcount := h.counted
  have hgone : (m.remove key).2.isCommitted key = false :=
    isCommitted_of_none (by simp [find_remove])
  have hfind : ∀ k, k ≠ key → (m.remove key).2.find k = m.find k := by
    intro k hk
    rw [find_remove, if_neg hk]
  cases hf : m.find key with
  | none => exact .kept (by simp [remove, hf])
  | some rec =>
    by_cases hstat : rec.stat = 1
    · have hmem : key ∈ m.lru.items := (h.linked key).mpr (by simp [isCommitted_of_find hf, hstat])
      refine .dropped hgone hfind (by simp [remove, hf, hstat, eraseRecord, unlink]) ?_
      rw [RecencyList.length_remove hmem, ← hcount]
      simp [remove, hf, hstat, eraseRecord, unlink]
    · have hno : m.isCommitted key = false := by simp [isCommitted_of_find hf, hstat]
      have hsame := RecencyList.remove_of_notMem (h.notMem hno)
      refine .dropped hgone hfind ?_ ?_
      · rw [hsame]
        simp [remove, hf, hstat, eraseRecord]
      · rw [hsame, ← hcount]
        simp [remove, hf, hstat, eraseRecord]

def apply (m : StoreMetaIndex) (now : ℕ) : IndexCall → StoreMetaIndex
  | .put key record => m.put key record
  | .get key => (m.get key now).2
  | .batchContains keys => (m.batchContains now keys).2
  | .commit key => (m.commit key now).2
  | .remove key => (m.remove key).2
  | .touch key => m.touch key now

theorem batchContains_snd_cons (m : StoreMetaIndex) (now : ℕ) (key : Key) (keys : List Key) :
    (m.batchContains now (key :: keys)).2 = ((m.get key now).2.batchContains now keys).2 := by
  rw [batchContains]
  cases hget : m.get key now with
  | mk found m' => cases found <;> rfl

end StoreMetaIndex

namespace LinkRing
variable {r : LinkRing Key} {l : RecencyList Key} {key : Key}

theorem Holds.drop (h : r.Holds l.items) (hk : key ∈ l.items) :
    (r.remove (.record key)).Holds (l.remove key).items := by
  obtain ⟨pre,post,hsplit⟩ := List.append_of_mem hk
  have hnot : key ∉ pre := by
    have hnodup := l.nodup
    rw [hsplit, List.nodup_middle] at hnodup
    exact fun hmem => (List.nodup_cons.mp hnodup).1 (List.mem_append_left _ hmem)
  have herase : (l.remove key).items = pre ++ post := by
    simp [RecencyList.remove, hsplit, List.erase_append_right _ hnot]
  rw [herase]
  rw [hsplit] at h
  exact h.remove

theorem Holds.push (h : r.Holds l.items) (hk : key ∉ l.items) :
    (r.pushFront (.record key)).Holds (l.pushFront key).items := by
  have hitems : (l.pushFront key).items = key :: l.items := by
    simp [RecencyList.pushFront, List.erase_of_not_mem hk]
  rw [hitems]
  exact h.pushFront hk

theorem Holds.touch (h : r.Holds l.items) (hk : key ∈ l.items) :
    ((r.remove (.record key)).pushFront (.record key)).Holds ((l.remove key).pushFront key).items :=
  (h.drop hk).push (by simp)

end LinkRing

namespace LinkedMetaIndex

structure Refines (c : LinkedMetaIndex) (m : StoreMetaIndex) : Prop where
  index : c.index = m.index
  count : c.committedCount = m.committedCount
  ring : c.ring.Holds m.lru.items
  threaded : m.Threaded

variable {c : LinkedMetaIndex} {m : StoreMetaIndex} {key : Key} {keys : List Key} {rec : StoreKeyRecord}
  {now : ℕ}

theorem refines_create : create.Refines .create :=
  ⟨rfl,rfl,LinkRing.holds_create,StoreMetaIndex.threaded_create⟩

theorem Refines.find (h : c.Refines m) (key : Key) : c.find key = m.find key := by
  rw [LinkedMetaIndex.find, h.index]
  rfl

theorem Refines.isCommitted (h : c.Refines m) (key : Key) : c.isCommitted key = m.isCommitted key := by
  rw [LinkedMetaIndex.isCommitted, h.find]
  rfl

theorem Refines.mem_items (h : c.Refines m) (hf : m.find key = some rec) (hstat : rec.stat = 1) :
    key ∈ m.lru.items :=
  (h.threaded.linked key).mpr (by simp [StoreMetaIndex.isCommitted_of_find hf, hstat])

theorem Refines.notMem_items (h : c.Refines m) (hf : m.find key = some rec) (hstat : rec.stat ≠ 1) :
    key ∉ m.lru.items :=
  h.threaded.notMem (by simp [StoreMetaIndex.isCommitted_of_find hf, hstat])

theorem Refines.put (h : c.Refines m) (key : Key) (record : StoreKeyRecord) :
    (c.put key record).Refines (m.put key record) := by
  have hthreaded := (h.threaded.relinks_put key record).threaded h.threaded
  have hring := h.ring
  cases hf : m.find key with
  | none =>
    have hnot := h.threaded.notMem (StoreMetaIndex.isCommitted_of_none hf)
    have hclear := hring.clear hnot
    by_cases hstat : record.stat = 1
    · refine ⟨?_,?_,?_,hthreaded⟩ <;> simp only [LinkedMetaIndex.put, h.find, hf, StoreMetaIndex.put,
        if_pos hstat]
      · exact congrArg (·.insert key record) h.index
      · exact congrArg (· + 1) h.count
      · exact hclear.push hnot
    · refine ⟨?_,?_,?_,hthreaded⟩ <;> simp only [LinkedMetaIndex.put, h.find, hf, StoreMetaIndex.put,
        if_neg hstat]
      · exact congrArg (·.insert key record) h.index
      · exact h.count
      · exact hclear
  | some rec =>
    have hinsert := congrArg (·.insert key { record with key := rec.key }) h.index
    by_cases hold : rec.stat = 1
    · have hmem := h.mem_items hf hold
      have hcount := congrArg (· - 1) h.count
      by_cases hstat : record.stat = 1
      · refine ⟨?_,?_,?_,hthreaded⟩ <;> simp only [LinkedMetaIndex.put, h.find, hf, StoreMetaIndex.put,
          if_pos hstat, if_pos hold]
        · exact hinsert
        · exact congrArg (· + 1) hcount
        · exact hring.touch hmem
      · refine ⟨?_,?_,?_,hthreaded⟩ <;> simp only [LinkedMetaIndex.put, h.find, hf, StoreMetaIndex.put,
          if_neg hstat, if_pos hold]
        · exact hinsert
        · exact hcount
        · exact hring.drop hmem
    · have hnot := h.notMem_items hf hold
      by_cases hstat : record.stat = 1
      · refine ⟨?_,?_,?_,hthreaded⟩ <;> simp only [LinkedMetaIndex.put, h.find, hf, StoreMetaIndex.put,
          if_pos hstat, if_neg hold]
        · exact hinsert
        · exact congrArg (· + 1) h.count
        · exact hring.push hnot
      · refine ⟨?_,?_,?_,hthreaded⟩ <;> simp only [LinkedMetaIndex.put, h.find, hf, StoreMetaIndex.put,
          if_neg hstat, if_neg hold]
        · exact hinsert
        · exact h.count
        · exact hring

theorem Refines.get (h : c.Refines m) (key : Key) (now : ℕ) :
    (c.get key now).1 = (m.get key now).1 ∧ (c.get key now).2.Refines (m.get key now).2 := by
  have hthreaded := (h.threaded.relinks_get key now).threaded h.threaded
  cases hf : m.find key with
  | none =>
    have hget : c.get key now = (none,c) := by simp [LinkedMetaIndex.get, h.find, hf]
    rw [hget, StoreMetaIndex.get_of_none hf]
    exact ⟨rfl,h⟩
  | some rec =>
    have hinsert := congrArg (·.insert key { rec with accessTimeMs := now }) h.index
    by_cases hstat : rec.stat = 1
    · rw [StoreMetaIndex.get_of_some hf hstat] at hthreaded ⊢
      simp only [LinkedMetaIndex.get, h.find, hf, if_neg (not_not_intro hstat)]
      exact ⟨trivial,hinsert,h.count,h.ring.touch (h.mem_items hf hstat),hthreaded⟩
    · simp only [LinkedMetaIndex.get, h.find, hf, StoreMetaIndex.get, if_pos hstat]
      exact ⟨trivial,h⟩

theorem Refines.batchContains (h : c.Refines m) (now : ℕ) (keys : List Key) :
    (c.batchContains now keys).1 = (m.batchContains now keys).1 ∧
      (c.batchContains now keys).2.Refines (m.batchContains now keys).2 := by
  have hloop : c.batchContains now keys = (([] ++ (c.gets now keys).1.filterMap id,
    [] ++ failing keys (c.gets now keys).1),(c.gets now keys).2) := batchLoop_eq
  rw [hloop, List.nil_append, List.nil_append]
  induction keys generalizing c m with
  | nil => exact ⟨rfl,h⟩
  | cons key keys ih =>
    obtain ⟨hanswer,hnext⟩ := h.get key now
    have hrest := ih hnext batchLoop_eq
    rw [gets, StoreMetaIndex.batchContains]
    cases hget : m.get key now with
    | mk found m' =>
      rw [hget] at hanswer hrest
      obtain ⟨hanswers,hrefines⟩ := hrest
      have hhits := congrArg Prod.fst hanswers
      have hmisses := congrArg Prod.snd hanswers
      dsimp only at hhits hmisses
      cases found with
      | none =>
        have hnone : (c.get key now).1 = none := hanswer
        refine ⟨?_,hrefines⟩
        dsimp only
        rw [← hhits, ← hmisses, hnone]
        simp [failing]
      | some rec =>
        have hsome : (c.get key now).1 = some rec := hanswer
        refine ⟨?_,hrefines⟩
        dsimp only
        rw [← hhits, ← hmisses, hsome]
        simp [failing]

theorem Refines.commit (h : c.Refines m) (key : Key) (now : ℕ) :
    (c.commit key now).1 = (m.commit key now).1 ∧ (c.commit key now).2.Refines (m.commit key now).2 := by
  have hthreaded := (h.threaded.relinks_commit key now).threaded h.threaded
  cases hf : m.find key with
  | none =>
    simp only [LinkedMetaIndex.commit, h.find, hf, StoreMetaIndex.commit]
    exact ⟨trivial,h⟩
  | some rec =>
    have hinsert := congrArg (·.insert key { rec with stat := 1, accessTimeMs := now }) h.index
    by_cases hstat : rec.stat = 1
    · simp only [LinkedMetaIndex.commit, h.find, hf, StoreMetaIndex.commit, if_pos hstat]
      exact ⟨trivial,h⟩
    · simp only [StoreMetaIndex.commit, hf, if_neg hstat] at hthreaded
      simp only [LinkedMetaIndex.commit, h.find, hf, StoreMetaIndex.commit, if_neg hstat]
      exact ⟨trivial,hinsert,congrArg (· + 1) h.count,
        h.ring.push (h.notMem_items hf hstat),hthreaded⟩

theorem Refines.remove (h : c.Refines m) (key : Key) (now : ℕ) :
    (c.remove key).1 = (m.remove key).1 ∧ (c.remove key).2.Refines (m.remove key).2 := by
  have hthreaded := (h.threaded.relinks_remove key now).threaded h.threaded
  cases hf : m.find key with
  | none =>
    simp only [LinkedMetaIndex.remove, h.find, hf, StoreMetaIndex.remove]
    exact ⟨trivial,h⟩
  | some rec =>
    have herase := congrArg (·.erase key) h.index
    by_cases hstat : rec.stat = 1
    · simp only [StoreMetaIndex.remove, hf, if_pos hstat] at hthreaded
      simp only [LinkedMetaIndex.remove, h.find, hf, StoreMetaIndex.remove, if_pos hstat]
      exact ⟨trivial,herase,congrArg (· - 1) h.count,h.ring.drop (h.mem_items hf hstat),hthreaded⟩
    · simp only [StoreMetaIndex.remove, hf, if_neg hstat] at hthreaded
      simp only [LinkedMetaIndex.remove, h.find, hf, StoreMetaIndex.remove, if_neg hstat]
      exact ⟨trivial,herase,h.count,h.ring,hthreaded⟩

theorem Refines.touch (h : c.Refines m) (key : Key) (now : ℕ) :
    (c.touch key now).Refines (m.touch key now) := by
  have hthreaded := (h.threaded.relinks_touch key now).threaded h.threaded
  cases hf : m.find key with
  | none =>
    simp only [LinkedMetaIndex.touch, h.find, hf, StoreMetaIndex.touch]
    exact h
  | some rec =>
    have hinsert := congrArg (·.insert key { rec with accessTimeMs := now }) h.index
    by_cases hstat : rec.stat = 1
    · simp only [StoreMetaIndex.touch, hf, if_pos hstat] at hthreaded
      simp only [LinkedMetaIndex.touch, h.find, hf, StoreMetaIndex.touch, if_pos hstat]
      exact ⟨hinsert,h.count,h.ring.touch (h.mem_items hf hstat),hthreaded⟩
    · simp only [LinkedMetaIndex.touch, h.find, hf, StoreMetaIndex.touch, if_neg hstat]
      exact h

theorem Refines.apply (h : c.Refines m) (now : ℕ) (call : IndexCall) :
    (c.apply now call).Refines (m.apply now call) := by
  cases call with
  | put key record => exact h.put key record
  | get key => exact (h.get key now).2
  | batchContains keys => exact (h.batchContains now keys).2
  | commit key => exact (h.commit key now).2
  | remove key => exact (h.remove key now).2
  | touch key => exact h.touch key now

/-- The walk along the pointers is one along the recency list. -/
theorem Refines.walkBack (h : c.Refines m) (maxCount : ℕ) :
    c.ring.walkBack maxCount (c.ring.prev .sentinel) = m.lru.coldest.take maxCount := h.ring.walkBack maxCount

/-- There are at least as many records as linked ones. -/
theorem Refines.coldToHot_eq (h : c.Refines m) : c.coldToHot = m.lru.coldest := by
  have hsub : m.lru.coldest ⊆ m.index.keys := by
    intro k hk
    have hcommitted := (h.threaded.linked k).mp (RecencyList.mem_coldest.mp hk)
    rw [← AList.mem_keys, ← AList.lookup_isSome]
    rw [StoreMetaIndex.isCommitted, StoreMetaIndex.find] at hcommitted
    cases hf : m.index.lookup k with
    | none => simp [hf] at hcommitted
    | some rec => rfl
  have hlen := (List.subperm_of_subset m.lru.nodup_coldest hsub).length_le
  rw [AList.keys, List.keys, List.length_map] at hlen
  rw [coldToHot, h.walkBack, h.index]
  exact List.take_of_length_le hlen

theorem Refines.getAllCommittedEntries (h : c.Refines m) :
    c.getAllCommittedEntries = m.getAllCommittedEntries := by
  rw [LinkedMetaIndex.getAllCommittedEntries, h.index]
  rfl

theorem Refines.getLRUCandidates (h : c.Refines m) (maxCount : ℕ) :
    c.getLRUCandidates maxCount = m.getLRUCandidates maxCount := by
  have hfind : c.find = m.find := funext h.find
  have htake : ∀ ks : List Key, (∀ k ∈ ks, (m.find k).isSome = true) →
      (ks.take maxCount).filterMap m.find = (ks.filterMap m.find).take maxCount := by
    intro ks
    induction ks generalizing maxCount with
    | nil => simp
    | cons k ks ih =>
      intro hks
      obtain ⟨rec,hf⟩ := Option.isSome_iff_exists.mp (hks k List.mem_cons_self)
      cases maxCount with
      | zero => simp
      | succ maxCount =>
        rw [List.take_succ_cons, List.filterMap_cons_some hf, List.filterMap_cons_some hf,
          List.take_succ_cons, ih maxCount fun k' hk' => hks k' (List.mem_cons_of_mem _ hk')]
  rw [LinkedMetaIndex.getLRUCandidates, h.walkBack, hfind, StoreMetaIndex.getLRUCandidates]
  apply htake
  intro k hk
  have hcommitted := (h.threaded.linked k).mp (RecencyList.mem_coldest.mp hk)
  cases hf : m.find k with
  | none => simp [StoreMetaIndex.isCommitted, hf] at hcommitted
  | some rec => rfl

/-- After any calls the pointers stand for an index of records and recency. -/
theorem Refines.run (h : c.Refines m) (calls : List (ℕ × IndexCall)) :
    (c.run calls).Refines (calls.foldl (fun m x => m.apply x.1 x.2) m) := by
  induction calls generalizing c m with
  | nil => exact h
  | cons x calls ih => exact ih (h.apply x.1 x.2)

end LinkedMetaIndex

end FalconKV
