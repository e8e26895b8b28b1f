import FalconKV.AtomicCalls.Environment
import FalconKV.Store.BatchPhases
import FalconKV.Store.ForceEvict
import FalconKV.Store.WatermarkRuns

/-! # Removals that Meta does not confirm

Eviction goes in rounds, and each asks Meta before it touches the store; `Remove` is one such
round for one key. After a removal that failed the store is as the rounds before it left it.
-/
namespace FalconKV
open AtomicCalls

namespace StoreMetaIndex
variable {m : StoreMetaIndex} {key k : Key}

def removeAll (m : StoreMetaIndex) (gone : List Key) : StoreMetaIndex :=
  gone.foldl (fun m key => (m.remove key).2) m

theorem removeAll_append (m : StoreMetaIndex) (gone gone' : List Key) :
    m.removeAll (gone ++ gone') = (m.removeAll gone).removeAll gone' := List.foldl_append

theorem find_removeAll (gone : List Key) :
    (m.removeAll gone).find k = if k ∈ gone then none else m.find k := by
  induction gone generalizing m with
  | nil => simp [removeAll]
  | cons key gone ih =>
    have hrest : (m.removeAll (key :: gone)).find k = ((m.remove key).2.removeAll gone).find k := rfl
    rw [hrest, ih, find_remove]
    by_cases hk : k = key <;> simp [hk]

/-- A key leaves the list with its record; one that has none is not in it. -/
theorem Listed.lru_remove (h : m.Listed) : (m.remove key).2.lru = m.lru.remove key := by
  have hlinked := h.linked key
  unfold StoreMetaIndex.remove
  rw [isCommitted] at hlinked
  cases hf : m.find key with
  | none =>
    have hnot : key ∉ m.lru.items := by simp [hlinked, hf]
    exact (RecencyList.remove_of_notMem hnot).symm
  | some rec =>
    by_cases hstat : rec.stat = 1
    · simp [hstat, eraseRecord, unlink]
    · have hnot : key ∉ m.lru.items := by simp [hlinked, hf, hstat]
      simp [hstat, eraseRecord, RecencyList.remove_of_notMem hnot]

theorem Listed.remove (h : m.Listed) : (m.remove key).2.Listed := by
  constructor
  · intro k rec hf
    rw [find_remove] at hf
    split at hf
    · cases hf
    · exact h.keyed hf
  · intro k
    rw [h.lru_remove, RecencyList.mem_remove, h.linked k, isCommitted, isCommitted, find_remove]
    by_cases hk : k = key <;> simp [hk]

theorem Listed.removeAll (h : m.Listed) (gone : List Key) : (m.removeAll gone).Listed := by
  induction gone generalizing m with
  | nil => exact h
  | cons key gone ih => exact ih h.remove

theorem Listed.coldest_removeAll (h : m.Listed) (gone : List Key) :
    (m.removeAll gone).lru.coldest = m.lru.coldest.filter (· ∉ gone) := by
  induction gone generalizing m with
  | nil => simp [StoreMetaIndex.removeAll]
  | cons key gone ih =>
    have hone : (m.remove key).2.lru.coldest = m.lru.coldest.filter (· ≠ key) := by
      rw [h.lru_remove, RecencyList.coldest_remove_eq_filter]
    have hrest : (m.removeAll (key :: gone)).lru.coldest =
        ((m.remove key).2.removeAll gone).lru.coldest := rfl
    rw [hrest, ih h.remove, hone, List.filter_filter]
    apply List.filter_congr
    intro k _
    by_cases hk : k = key <;> simp [hk]

end StoreMetaIndex

def asking (answers : ℕ → Status) : Machine storeCalls (Store × List (List Key)) where
  Choice := StoreChoice
  step := fun op c x =>
    match op with
    | .syncRemove _ keys => some (answers x.2.length,(x.1,x.2 ++ [keys]))
    | op => (x.1.step op c).map fun y => (y.1,(y.2,x.2))

structure Removed (s t : Store) (gone : List Key) (new : List EvictEntry) : Prop where
  store : t = { s with
    index := s.index.removeAll gone
    pending := { s.pending with entries := s.pending.entries ++ new } }
  entries : new.map (fun e => (e.key,e.offset,e.allocSize)) =
    (gone.filterMap s.index.find).map fun rec => (rec.key,rec.offset,rec.allocSize)

namespace Removed
variable {s t u : Store} {gone gone' : List Key} {new new' : List EvictEntry}

theorem refl (s : Store) : Removed s s [] [] := ⟨by simp [StoreMetaIndex.removeAll],rfl⟩

theorem find (h : Removed s t gone new) (k : Key) :
    t.index.find k = if k ∈ gone then none else s.index.find k := by
  rw [h.store]
  exact StoreMetaIndex.find_removeAll gone

theorem listed (h : Removed s t gone new) (hs : s.index.Listed) : t.index.Listed := by
  rw [h.store]
  exact hs.removeAll gone

theorem trans (h : Removed s t gone new) (h' : Removed t u gone' new') (hdisjoint : gone.Disjoint gone') :
    Removed s u (gone ++ gone') (new ++ new') := by
  have hsame : gone'.filterMap t.index.find = gone'.filterMap s.index.find := by
    apply List.filterMap_congr
    intro k hk
    rw [h.find, if_neg fun hgone => hdisjoint hgone hk]
  constructor
  · rw [h'.store, h.store, StoreMetaIndex.removeAll_append, List.append_assoc]
  · rw [List.map_append, List.filterMap_append, List.map_append, h.entries, h'.entries, hsame]

/-- The new entries of a key are those of its record. -/
theorem entries_of_key (h : Removed s t gone new) (hs : s.index.Listed) (hdistinct : gone.Nodup) (key : Key) :
    (new.filter fun e => e.key == key).map (fun e => (e.offset,e.allocSize)) =
      if key ∈ gone then (s.index.find key).toList.map fun rec => (rec.offset,rec.allocSize)
      else [] := by
  have hview : (new.filter fun e => e.key == key).map (fun e => (e.offset,e.allocSize)) =
      ((new.map fun e => (e.key,e.offset,e.allocSize)).filter fun e => e.1 == key).map Prod.snd := by
    rw [List.filter_map, List.map_map]
    rfl
  have hrecs : ((gone.filterMap s.index.find).filter fun rec => rec.key == key) =
      if key ∈ gone then (s.index.find key).toList else [] := by
    clear h hview
    induction gone with
    | nil => rfl
    | cons k gone ih =>
      obtain ⟨hnot,hrest⟩ := List.nodup_cons.mp hdistinct
      have hmine := ih hrest
      cases hf : s.index.find k with
      | none =>
        rw [List.filterMap_cons_none hf, hmine]
        by_cases hk : key = k
        · subst hk
          simp [hnot, hf]
        · simp [hk]
      | some rec =>
        rw [List.filterMap_cons_some hf, List.filter_cons, hs.keyed hf, hmine]
        by_cases hk : key = k
        · subst hk
          simp [hnot, hf]
        · have hk' : ¬ k = key := fun heq => hk heq.symm
          simp [hk, hk']
  rw [hview, h.entries, List.filter_map, List.map_map]
  have hcomp : (fun e : Key × ℕ × ℕ => e.1 == key) ∘
      (fun rec : StoreKeyRecord => (rec.key,rec.offset,rec.allocSize)) = fun rec => rec.key == key := rfl
  rw [hcomp, hrecs]
  split <;> rfl

end Removed

def askedFor (cfg : StoreConfig) (rounds : List (List Key)) (failed : Option (List Key)) :
    List (List Key) := if cfg.metaSync then rounds ++ failed.toList else []

/-- The store and the log from before `rounds` to the end of them: the removals of `rounds` were
confirmed, the one of `failed`, if there was one, was not, and only the keys of `rounds` are gone. -/
structure RoundsDone (cfg : StoreConfig) (answers : ℕ → Status) (x y : Store × List (List Key))
    (rounds : List (List Key)) (failed : Option (List Key)) (new : List EvictEntry) : Prop where
  asked : y.2 = x.2 ++ askedFor cfg rounds failed
  confirmed : cfg.metaSync = true → ∀ i < rounds.length, (answers (x.2.length + i)).isOk = true
  stopped : ∀ keys ∈ failed, cfg.metaSync = true ∧
    (answers (x.2.length + rounds.length)).isOk = false ∧ ∀ key ∈ keys, key ∉ rounds.flatten
  removed : Removed x.1 y.1 rounds.flatten new
  distinct : rounds.flatten.Nodup

def Named (s : Store) (rounds : List (List Key)) (failed : Option (List Key)) : Prop :=
  ∀ keys ∈ rounds ++ failed.toList, ∀ key ∈ keys, s.index.find key ≠ none

section
variable {cfg : StoreConfig} {answers : ℕ → Status} {x y z : Store × List (List Key)} {keys : List Key}
  {rounds rounds' : List (List Key)} {failed : Option (List Key)} {new new' : List EvictEntry}

theorem RoundsDone.nothing (x : Store × List (List Key)) : RoundsDone cfg answers x x [] none [] where
  asked := by simp [askedFor]
  confirmed := by simp
  stopped := by simp
  removed := .refl x.1
  distinct := List.nodup_nil

theorem RoundsDone.fails (hmeta : cfg.metaSync = true) (hanswer : (answers x.2.length).isOk = false) :
    RoundsDone cfg answers x (x.1,x.2 ++ askedFor cfg [] (some keys)) [] (some keys) [] where
  asked := rfl
  confirmed := by simp
  stopped := by simp [hmeta, hanswer]
  removed := .refl x.1
  distinct := List.nodup_nil

theorem RoundsDone.one {t : Store} (hanswer : cfg.metaSync = true → (answers x.2.length).isOk = true)
    (hremoved : Removed x.1 t keys new) (hkeys : keys.Nodup) :
    RoundsDone cfg answers x (t,x.2 ++ askedFor cfg [keys] none) [keys] none new where
  asked := rfl
  confirmed := by
    intro hmeta i hi
    obtain rfl : i = 0 := by simpa using hi
    exact hanswer hmeta
  stopped := by simp
  removed := by simpa using hremoved
  distinct := by simpa using hkeys

/-- Rounds after rounds that were all confirmed, if they name other keys. -/
theorem RoundsDone.append (h : RoundsDone cfg answers x y rounds none new)
    (h' : RoundsDone cfg answers y z rounds' failed new') (hnamed : Named y.1 rounds' failed) :
    RoundsDone cfg answers x z (rounds ++ rounds') failed (new ++ new') := by
  have hfresh : ∀ keys ∈ rounds' ++ failed.toList, ∀ key ∈ keys, key ∉ rounds.flatten := by
    intro keys hkeys key hkey hgone
    apply hnamed keys hkeys key hkey
    rw [h.removed.find, if_pos hgone]
  have hlog : cfg.metaSync = true → y.2.length = x.2.length + rounds.length := by
    intro hmeta
    simp [h.asked, askedFor, hmeta]
  have hdisjoint : rounds.flatten.Disjoint rounds'.flatten := by
    intro key hgone hkey
    obtain ⟨keys,hkeys,hkey⟩ := List.mem_flatten.mp hkey
    exact hfresh keys (List.mem_append_left _ hkeys) key hkey hgone
  constructor
  · rw [h'.asked, h.asked, List.append_assoc]
    by_cases hmeta : cfg.metaSync = true <;> simp [askedFor, hmeta]
  · intro hmeta i hi
    by_cases hfirst : i < rounds.length
    · exact h.confirmed hmeta i hfirst
    · rw [List.length_append] at hi
      have hlater := h'.confirmed hmeta (i - rounds.length) (by omega)
      rw [hlog hmeta] at hlater
      have hindex : x.2.length + rounds.length + (i - rounds.length) = x.2.length + i := by omega
      rwa [hindex] at hlater
  · intro keys hkeys
    obtain ⟨hmeta,hanswer,hnot⟩ := h'.stopped keys hkeys
    rw [hlog hmeta] at hanswer
    refine ⟨hmeta,by rwa [List.length_append, ← Nat.add_assoc],?_⟩
    intro key hkey
    rw [List.flatten_append, List.mem_append]
    rintro (hgone | hlater)
    · have hmem : keys ∈ rounds' ++ failed.toList := by simp [Option.mem_def.mp hkeys]
      exact hfresh keys hmem key hkey hgone
    · exact hnot key hkey hlater
  · rw [List.flatten_append]
    exact h.removed.trans h'.removed hdisjoint
  · rw [List.flatten_append]
    exact List.nodup_append'.mpr ⟨h.distinct,h'.distinct,hdisjoint⟩

/-- The keys had their records before the earlier rounds too. -/
theorem Named.append (h : RoundsDone cfg answers x y rounds none new) (hx : Named x.1 rounds none)
    (hy : Named y.1 rounds' failed) : Named x.1 (rounds ++ rounds') failed := by
  intro keys hkeys key hkey
  rw [List.append_assoc] at hkeys
  rcases List.mem_append.mp hkeys with hfirst | hlater
  · exact hx keys (by simpa using hfirst) key hkey
  · have hfound := hy keys hlater key hkey
    rw [h.removed.find] at hfound
    split at hfound
    · exact absurd rfl hfound
    · exact hfound

def Goes (cfg : StoreConfig) (answers : ℕ → Status) (x y : Store × List (List Key)) : Prop :=
  ∃ rounds failed new, RoundsDone cfg answers x y rounds failed new ∧ Named x.1 rounds failed

theorem Goes.nothing (x : Store × List (List Key)) : Goes cfg answers x x :=
  ⟨[],none,[],.nothing x,by simp [Named]⟩

theorem Goes.after (h : RoundsDone cfg answers x y rounds none new) (hx : Named x.1 rounds none)
    (h' : Goes cfg answers y z) : Goes cfg answers x z := by
  obtain ⟨rounds',failed,new',hdone,hy⟩ := h'
  exact ⟨_,failed,_,h.append hdone hy,hx.append h hy⟩

namespace StoreOps
variable {α : Type} {recs : List StoreKeyRecord} {key : Key}

theorem wp_notifyRemove_asking (keys : List Key) :
    wp (asking answers) (fun _ _ => True)
      (fun status y => y = (x.1,x.2 ++ askedFor cfg [keys] none) ∧
        (status.isOk = true → cfg.metaSync = true → (answers x.2.length).isOk = true) ∧
        (status.isOk = false → cfg.metaSync = true ∧ (answers x.2.length).isOk = false))
      (notifyRemove cfg keys) x := by
  by_cases hmeta : cfg.metaSync = true
  · rw [notifyRemove, if_pos hmeta]
    refine ⟨trivial,fun c r y hstep => ?_⟩
    cases hstep
    simp [askedFor, hmeta]
  · rw [notifyRemove, if_neg hmeta]
    exact ⟨by simp [askedFor, hmeta],fun _ h => absurd h hmeta,fun h => by cases h⟩

theorem wp_dropCandidates_asking {s : Store} (log : List (List Key)) (hs : s.index.Listed)
    (hrecs : s.index.Snapshot recs) :
    wp (asking answers) (fun _ _ => True)
      (fun _ y => y.2 = log ∧ ∃ new, Removed s y.1 (recs.map StoreKeyRecord.key) new)
      (Prog.forEach dropCandidate recs) (s,log) := by
  induction recs generalizing s with
  | nil => exact ⟨rfl,[],.refl s⟩
  | cons rec recs ih =>
    have hfound := hrecs.found rec List.mem_cons_self
    apply wp_bind.mpr
    refine ⟨trivial,fun c r y hstep => ⟨trivial,fun c' r' y' hstep' => ?_⟩⟩
    cases hstep
    cases hstep'
    have hone : Removed s { s with
        index := (s.index.remove rec.key).2
        pending := s.pending.enqueue rec.key rec.offset rec.allocSize c'.now } [rec.key]
          [⟨rec.key,rec.offset,rec.allocSize,c'.now⟩] := ⟨rfl,by simp [hfound]⟩
    apply wp_mono (ih hs.remove hrecs.tail)
    rintro _ z ⟨hlog,new,hrest⟩
    have hnot := (List.nodup_cons.mp hrecs.distinct).1
    exact ⟨hlog,_,hone.trans hrest (by simpa using hnot)⟩

/-- A round asks, and stops or goes on to `k`. -/
theorem wp_round {k : StoreProg α} {stop : α} {post : α → Store × List (List Key) → Prop}
    (hs : x.1.index.Listed) (hrecs : recs.Sublist x.1.index.coldestRecords)
    (hstop : ∀ y, Goes cfg answers x y → post stop y)
    (hgo : ∀ y new, RoundsDone cfg answers x y [recs.map StoreKeyRecord.key] none new →
      Named x.1 [recs.map StoreKeyRecord.key] none → wp (asking answers) (fun _ _ => True) post k y) :
    wp (asking answers) (fun _ _ => True) post (do
      let s ← notifyRemove cfg (recs.map StoreKeyRecord.key)
      if !s.isOk then pure stop
      else do
        Prog.forEach dropCandidate recs
        k) x := by
  have hsnap : x.1.index.Snapshot recs := StoreMetaIndex.snapshot_of_sublist hs.keyed hrecs
  have hnamed : Named x.1 [recs.map StoreKeyRecord.key] none := by
    intro keys hkeys key hkey
    obtain rfl : keys = recs.map StoreKeyRecord.key := by simpa using hkeys
    obtain ⟨rec,hrec,rfl⟩ := List.mem_map.mp hkey
    simp [hsnap.found rec hrec]
  apply wp_bind.mpr
  apply wp_mono (wp_notifyRemove_asking _)
  rintro status _ ⟨rfl,hyes,hno⟩
  cases hok : status.isOk with
  | false =>
    obtain ⟨hmeta,hanswer⟩ := hno hok
    exact hstop _ ⟨[],_,[],.fails hmeta hanswer,hnamed⟩
  | true =>
    apply wp_bind.mpr
    apply wp_mono (wp_dropCandidates_asking _ hs hsnap)
    rintro _ ⟨t,log⟩ ⟨rfl,new,hremoved⟩
    exact hgo _ new (.one (hyes hok) hremoved hsnap.distinct) hnamed

theorem wp_tryEvictBatchLRU_asking (hs : x.1.index.Listed) :
    wp (asking answers) (fun _ _ => True)
      (fun evicted y => Goes cfg answers x y ∧ (evicted = true →
        ∃ keys new, RoundsDone cfg answers x y [keys] none new ∧ Named x.1 [keys] none))
      (tryEvictBatchLRU cfg) x := by
  apply wp_perform trivial
  intro c candidates y hstep
  cases hstep
  split
  · exact ⟨.nothing x,by simp⟩
  · next hsome =>
    rw [evictEntries, if_neg hsome]
    apply wp_round hs (x.1.index.sublist_getLRUCandidates 16)
    · intro y hgoes
      exact ⟨hgoes,by simp⟩
    · intro y new hdone hnamed
      exact ⟨⟨_,_,_,hdone,hnamed⟩,fun _ => ⟨_,new,hdone,hnamed⟩⟩

theorem wp_forceEvictRounds_asking (needed rounds total : ℕ) (hs : x.1.index.Listed) :
    wp (asking answers) (fun _ _ => True) (fun _ y => Goes cfg answers x y)
      (forceEvictRounds cfg needed rounds total) x := by
  induction rounds generalizing total x with
  | zero => exact .nothing x
  | succ rounds ih =>
    unfold forceEvictRounds
    split
    · exact .nothing x
    · apply wp_perform trivial
      intro c candidates y hstep
      cases hstep
      split
      · exact .nothing x
      · apply wp_round hs (x.1.index.sublist_getLRUCandidatesBySize _ 64)
        · exact fun _ hgoes => hgoes
        · intro y new hdone hnamed
          apply wp_mono (ih _ (hdone.removed.listed hs))
          exact fun _ _ hrest => .after hdone hnamed hrest

theorem wp_remove_asking (hs : x.1.index.Listed) (key : Key) :
    wp (asking answers) (fun _ _ => True)
      (fun _ y => ∃ rounds failed new, RoundsDone cfg answers x y rounds failed new)
      (remove cfg key) x := by
  apply wp_bind.mpr
  apply wp_mono (wp_notifyRemove_asking _)
  rintro status _ ⟨rfl,hyes,hno⟩
  cases hok : status.isOk with
  | false =>
    obtain ⟨hmeta,hanswer⟩ := hno hok
    exact ⟨[],_,[],.fails hmeta hanswer⟩
  | true =>
    refine ⟨trivial,fun c record y hstep => ?_⟩
    cases hstep
    dsimp only
    rw [StoreMetaIndex.remove_fst]
    cases hf : x.1.index.find key with
    | none =>
      -- nothing is there to be removed, and nothing waits
      refine ⟨[[key]],none,[],.one (hyes hok) ⟨?_,?_⟩ (by simp)⟩
      · simp [StoreMetaIndex.removeAll]
      · simp [hf]
    | some rec =>
      refine ⟨trivial,fun c' r y hstep => ?_⟩
      cases hstep
      refine ⟨[[key]],none,[⟨key,rec.offset,rec.allocSize,c'.now⟩],.one (hyes hok) ⟨?_,?_⟩ (by simp)⟩
      · rfl
      · simp [hf, hs.keyed hf]

end StoreOps

/-- The machine of the eviction thread, with the same Meta server. -/
def removalMachine (w : Watermarks) (answers : ℕ → Status) :
    Machine evictCalls (Store × List (List Key)) where
  Choice := EvictChoice
  step := fun op c x =>
    match op with
    | .atStore op => (asking answers).step op c.store x
    | .loadRunning => some (c.running,x)
    | .getUsageRatio _ => some (x.1.allocator.getUsageRatio w,x)

/-- A pass of the eviction thread of at most so many rounds, forced eviction, and the removal of a
key. -/
inductive RemovalOp
  | evictLoopPass (rounds : ℕ)
  | forceEvict (neededBytes : ℕ)
  | remove (key : Key)

def RemovalOp.run (cfg : StoreConfig) (w : Watermarks) : RemovalOp → EvictProg Unit
  | evictLoopPass rounds => EvictManager.evictLoopPass cfg w rounds
  | forceEvict neededBytes => EvictManager.atStore ((fun _ => ()) <$> StoreOps.forceEvict cfg neededBytes)
  | remove key => EvictManager.atStore ((fun _ => ()) <$> StoreOps.remove cfg key)

section
variable {w : Watermarks} {op : RemovalOp}

theorem wp_atStore {α : Type} {post : α → Store × List (List Key) → Prop} {p : StoreProg α}
    (h : wp (asking answers) (fun _ _ => True) post p x) :
    wp (removalMachine w answers) (fun _ _ => True) post (EvictManager.atStore p) x := by
  induction p generalizing x with
  | ret a => exact h
  | call op k ih => exact ⟨trivial,fun c r y hstep => ih r (h.2 c.store r y hstep)⟩

theorem wp_evictRounds (rounds : ℕ) (hs : x.1.index.Listed) :
    wp (removalMachine w answers) (fun _ _ => True) (fun _ y => Goes cfg answers x y)
      (EvictManager.evictRounds cfg w rounds) x := by
  induction rounds generalizing x with
  | zero => exact .nothing x
  | succ rounds ih =>
    unfold EvictManager.evictRounds
    apply wp_perform trivial
    intro c running y hstep
    cases hstep
    split
    · exact .nothing x
    · apply wp_perform trivial
      intro c' usage y hstep
      cases hstep
      split
      · exact .nothing x
      · apply wp_bind.mpr
        apply wp_mono (wp_atStore (StoreOps.wp_tryEvictBatchLRU_asking hs))
        rintro evicted y ⟨hgoes,hone⟩
        cases evicted with
        | false => exact hgoes
        | true =>
          obtain ⟨keys,new,hdone,hnamed⟩ := hone rfl
          apply wp_mono (ih (hdone.removed.listed hs))
          exact fun _ _ hrest => .after hdone hnamed hrest

theorem wp_removalOp (op : RemovalOp) (hs : x.1.index.Listed) :
    wp (removalMachine w answers) (fun _ _ => True)
      (fun _ y => ∃ rounds failed new, RoundsDone cfg answers x y rounds failed new) (op.run cfg w) x := by
  have hforget : ∀ {y}, Goes cfg answers x y →
      ∃ rounds failed new, RoundsDone cfg answers x y rounds failed new := by
    rintro y ⟨rounds,failed,new,hdone,-⟩
    exact ⟨rounds,failed,new,hdone⟩
  cases op with
  | evictLoopPass rounds =>
    apply wp_perform trivial
    intro c usage y hstep
    cases hstep
    split
    · exact hforget (.nothing x)
    · exact wp_mono (wp_evictRounds rounds hs) fun _ _ => hforget
  | forceEvict neededBytes =>
    apply wp_atStore
    apply wp_bind.mpr
    exact wp_mono (StoreOps.wp_forceEvictRounds_asking neededBytes 5 0 hs) fun _ _ => hforget
  | remove key =>
    apply wp_atStore
    apply wp_bind.mpr
    exact wp_mono (StoreOps.wp_remove_asking hs key) fun _ _ hdone => hdone

/-- The store `t` is what the confirmed `rounds` made of `s`: their keys are gone, each of them that
had a record waits in the queue once, with the slot of this record, and the keys of `failed` and
all others have kept their records, their order in the list and their slots. -/
structure KeepsFailed (s t : Store) (rounds : List (List Key)) (failed : Option (List Key)) : Prop where
  gone : ∀ keys ∈ rounds, ∀ key ∈ keys, t.index.find key = none ∧ key ∉ t.index.lru.coldest
  kept : ∀ key, key ∉ rounds.flatten → t.index.find key = s.index.find key
  order : t.index.lru.coldest = s.index.lru.coldest.filter (· ∉ rounds.flatten)
  pending : ∃ new, t.pending = { s.pending with entries := s.pending.entries ++ new } ∧
    ∀ key, (new.filter fun e => e.key == key).map (fun e => (e.offset,e.allocSize)) =
      if key ∈ rounds.flatten then (s.index.find key).toList.map fun rec => (rec.offset,rec.allocSize)
      else []
  failed : ∀ keys ∈ failed, ∀ key ∈ keys, key ∉ rounds.flatten
  slots : t.allocator = s.allocator ∧ t.file = s.file

theorem RoundsDone.keepsFailed (h : RoundsDone cfg answers x y rounds failed new)
    (hs : x.1.index.Listed) : KeepsFailed x.1 y.1 rounds failed where
  gone := by
    intro keys hkeys key hkey
    have hmem : key ∈ rounds.flatten := List.mem_flatten.mpr ⟨keys,hkeys,hkey⟩
    have hnone : y.1.index.find key = none := by rw [h.removed.find, if_pos hmem]
    refine ⟨hnone,?_⟩
    intro hlisted
    obtain ⟨rec,hf,-⟩ := (h.removed.listed hs).find_of_mem hlisted
    rw [hnone] at hf
    cases hf
  kept := by
    intro key hkey
    rw [h.removed.find, if_neg hkey]
  order := by
    rw [h.removed.store]
    exact hs.coldest_removeAll _
  pending := ⟨new,by rw [h.removed.store],h.removed.entries_of_key hs h.distinct⟩
  failed := fun keys hkeys => (h.stopped keys hkeys).2.2
  slots := by
    rw [h.removed.store]
    exact ⟨rfl,rfl⟩

/-- Whatever Meta answers, the rounds before the first failed removal are done, that one is the last
that is attempted, and it changes nothing. -/
theorem removals_keep_failed {s t : Store} {asked : List (List Key)} (hs : s.index.Listed)
    (he : Exec (removalMachine w answers) (fun _ _ => True) (op.run cfg w) (s,[]) () (t,asked)) :
    ∃ rounds failed, asked = (if cfg.metaSync then rounds ++ failed.toList else []) ∧
      (∀ i < asked.length, (answers i).isOk = true ↔ i < rounds.length) ∧
      (cfg.metaSync = false → failed = none) ∧ KeepsFailed s t rounds failed ∧ t.index.Listed := by
  obtain ⟨rounds,failed,new,hdone⟩ := he.ends (wp_removalOp op hs)
  have hasked : asked = askedFor cfg rounds failed := hdone.asked
  refine ⟨rounds,failed,hasked,?_,?_,hdone.keepsFailed hs,hdone.removed.listed hs⟩
  · intro i hi
    have hmeta : cfg.metaSync = true := by
      by_contra hnone
      simp [hasked, askedFor, hnone] at hi
    have hconfirmed := hdone.confirmed hmeta
    simp only [List.length_nil, Nat.zero_add] at hconfirmed
    constructor
    · intro hok
      by_contra hlast
      cases hfailed : failed with
      | none =>
        simp [hasked, askedFor, hmeta, hfailed] at hi
        omega
      | some keys =>
        have hno := (hdone.stopped keys hfailed).2.1
        simp [hasked, askedFor, hmeta, hfailed] at hi
        obtain rfl : i = rounds.length := by omega
        simp [hok] at hno
    · exact hconfirmed i
  · intro hmeta
    cases hfailed : failed with
    | none => rfl
    | some keys =>
      have hyes := (hdone.stopped keys hfailed).1
      rw [hmeta] at hyes
      cases hyes

open Watermarks

/-- The watermarks of the default configuration, without rounding. -/
def defaultMarks : Watermarks := .exact (85/100) (70/100)

theorem listed_filled {n : ℕ} (hn : n < 2^60) (keys : List Key) : (filled n keys).index.Listed := by
  have hcap : (slots n).capacityBytes < 2^63 := by
    show n * 8 < 2^63
    omega
  unfold filled
  cases h : Store.follow (slots n) Store.keyAbsent [(.batchPut keys (keys.map fun _ => some fun _ => 0)
    (keys.map fun _ => 8),List.replicate 100 {})] (.init (slots n)) with
  | none => exact StoreMetaIndex.tracked_create.listed
  | some s =>
    obtain ⟨s',hrun,rfl⟩ := Store.serialRun_of_script (slots n) Store.keyAbsent _ (f := id)
      (congrArg (Option.map id) h)
    have hany := Store.serialRun_mono (fun _ _ _ _ _ => trivial) hrun
    exact (Store.settled_of_serialRun hcap hany).2.listed

def confirmsFirst (i : ℕ) : Status := if i = 0 then .OK else .ioError "no answer"

/-- A pass over eighteen records: sixteen are evicted in its first round, and the last two are kept
because Meta does not confirm the second. -/
theorem removals_keep_failed_two : ∃ t,
    Exec (removalMachine defaultMarks confirmsFirst) (fun _ _ => True)
      ((RemovalOp.evictLoopPass 3).run (slots 18) defaultMarks) (filled 18 eighteen,[]) ()
      (t,[eighteen.take 16,["q","r"]]) ∧
    KeepsFailed (filled 18 eighteen) t [eighteen.take 16] (some ["q","r"]) := by
  have hrun : (execWith (removalMachine defaultMarks confirmsFirst) (fun _ _ => true)
      ((RemovalOp.evictLoopPass 3).run (slots 18) defaultMarks) (List.replicate 41 {})
      (filled 18 eighteen,[])).map (fun x => x.2.2) = some [eighteen.take 16,["q","r"]] := by
    decide +kernel
  obtain ⟨⟨⟨⟩,t,asked⟩,hexec,hasked⟩ := Option.map_eq_some_iff.mp hrun
  dsimp only at hasked
  subst hasked
  have he := (exec_of_execWith hexec).ok_mono fun _ _ _ => trivial
  obtain ⟨rounds,failed,hasked,hconfirmed,-,hkeeps,-⟩ :=
    removals_keep_failed (listed_filled (by decide) _) he
  have hfirst : 0 < rounds.length := (hconfirmed 0 (by decide)).mp rfl
  have hsecond : ¬ 1 < rounds.length := fun h => absurd ((hconfirmed 1 (by decide)).mpr h) (by decide)
  obtain ⟨first,rfl⟩ := List.length_eq_one_iff.mp (by omega : rounds.length = 1)
  simp only [slots, if_true, List.singleton_append, List.cons.injEq] at hasked
  obtain ⟨rfl,hlast⟩ := hasked
  cases failed with
  | none => cases hlast
  | some keys =>
    obtain rfl : ["q","r"] = keys := List.head_eq_of_cons_eq hlast
    exact ⟨t,he,hkeeps⟩

/-- A removal that is confirmed for a key without a record: nothing waits in the queue for it. -/
theorem exists_exec_remove_absent : ∃ t,
    Exec (removalMachine defaultMarks fun _ => .OK) (fun _ _ => True)
      ((RemovalOp.remove "a").run ⟨0,24,8,5000,false,true⟩ defaultMarks)
      (Store.init ⟨0,24,8,5000,false,true⟩,[]) () (t,[["a"]]) ∧
    t.pending.entries = (Store.init ⟨0,24,8,5000,false,true⟩).pending.entries := by
  have hrun : (execWith (removalMachine defaultMarks fun _ => .OK) (fun _ _ => true)
      ((RemovalOp.remove "a").run ⟨0,24,8,5000,false,true⟩ defaultMarks) (List.replicate 4 {})
      (Store.init ⟨0,24,8,5000,false,true⟩,[])).map (fun x => (x.2.2,x.2.1.pending.entries)) =
        some ([["a"]],[]) := by decide
  obtain ⟨⟨⟨⟩,t,asked⟩,hexec,hout⟩ := Option.map_eq_some_iff.mp hrun
  obtain ⟨hasked,hentries⟩ := Prod.mk.inj hout
  dsimp only at hasked hentries
  subst hasked
  exact ⟨t,(exec_of_execWith hexec).ok_mono fun _ _ _ => trivial,hentries⟩

end

end

end FalconKV
