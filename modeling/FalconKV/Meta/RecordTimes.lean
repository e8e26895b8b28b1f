import Mathlib.Data.List.Induction
import FalconKV.Meta.Sharding

/-! # The times of a record

Meta keeps of each key when it was first committed since its last removal, and when it was last
committed or looked up. Calls run side by side, but a shard is locked while a call works on it: a
step is one critical section, with the clock reading of its call.
-/
namespace FalconKV

inductive MetaSection
  | register (info : StoreInfo)
  | commit (shard storeId : ℕ) (records : List KeyRecord)
  | remove (shard : ℕ) (keys : List Key)
  | exist (shard : ℕ) (keys : List Key)
  | lookup (shard : ℕ) (keys : List Key)

def MetaCall.sections (shardCount : ℕ) : MetaCall → List MetaSection
  | registerStore info => [.register info]
  | syncCommit storeId records => (List.range shardCount).map fun shard => .commit shard storeId records
  | syncRemove _ keys => (List.range shardCount).map fun shard => .remove shard keys
  | batchExist keys => (List.range shardCount).map fun shard => .exist shard keys
  | batchLookup keys => (List.range shardCount).map fun shard => .lookup shard keys

/-- Its sections, all with the one reading of the clock that it takes. -/
def MetaCall.timedSections (shardCount : ℕ) (x : ℕ × MetaCall) : List (ℕ × MetaSection) :=
  (x.2.sections shardCount).map fun s => (x.1,s)

namespace MetaSection

def commits (shardOf : Key → ℕ) (key : Key) : MetaSection → Bool
  | commit shard _ records =>
    key != "" && shardOf key == shard && (records.map KeyRecord.key).contains key
  | _ => false

def removes (shardOf : Key → ℕ) (key : Key) : MetaSection → Bool
  | remove shard keys => shardOf key == shard && keys.contains key
  | _ => false

end MetaSection

def noteCommit (shardOf : Key → ℕ) (key : Key) (created : Option ℕ) (x : ℕ × MetaSection) : Option ℕ :=
  if x.2.removes shardOf key then none
  else if x.2.commits shardOf key then some (created.getD x.1)
  else created

/-- The time of the first commit of a key since its last removal. -/
def firstCommit (shardOf : Key → ℕ) (steps : List (ℕ × MetaSection)) (key : Key) : Option ℕ :=
  steps.foldl (noteCommit shardOf key) none

/-- The clock reads positive times, and never an earlier one than before. -/
structure Timed {α : Type} (steps : List (ℕ × α)) : Prop where
  pos : ∀ x ∈ steps, 0 < x.1
  mono : steps.Pairwise fun x y => x.1 ≤ y.1

/-- The record of a key first committed at `created`, at a time no later than `now`. -/
structure KeyRecord.Dated (key : Key) (now : ℕ) (rec : KeyRecord) (created : ℕ) : Prop where
  key_eq : rec.key = key
  key_ne : key ≠ ""
  stat_eq : rec.stat = 1
  create_eq : rec.createTimeMs = created
  pos : 0 < created
  le_access : created ≤ rec.accessTimeMs
  access_le : rec.accessTimeMs ≤ now

namespace MetaManager

def Dated (m : MetaManager) (created : Key → Option ℕ) (now : ℕ) : Prop :=
  ∀ key, Option.Rel (KeyRecord.Dated key now) (m.find key) (created key)

/-- A record lies under its own key and is committed; it was created when its key was first committed
after the last removal, and not accessed before. -/
structure WellKept (m : MetaManager) (created : Key → Option ℕ) : Prop where
  filed : ∀ key rec, m.find key = some rec → rec.key = key ∧ key ≠ ""
  stat : ∀ key rec, m.find key = some rec → rec.stat = 1
  create : ∀ key, created key = (m.find key).map KeyRecord.createTimeMs
  order : ∀ key rec, m.find key = some rec → rec.createTimeMs ≤ rec.accessTimeMs

def enter (m : MetaManager) (now : ℕ) : MetaSection → MetaManager
  | .register info => (m.registerStore info).2
  | .commit shard storeId records => visitCommit storeId now records m shard
  | .remove shard keys => visitRemove keys m shard
  | .exist shard keys => (visitRead (fun stat => stat == 1) now keys (m,[]) shard).1
  | .lookup shard keys => (visitRead (fun stat => stat != 2) now keys (m,[]) shard).1

def run (m : MetaManager) (steps : List (ℕ × MetaSection)) : MetaManager :=
  steps.foldl (fun m x => m.enter x.1 x.2) m

/-- The state after some calls, one after the other. -/
def after (m : MetaManager) (calls : List (ℕ × MetaCall)) : MetaManager :=
  calls.foldl (fun m x => (m.serve x.1 x.2).2) m

variable {m : MetaManager} {key : Key} {storeId now : ℕ} {admits : ℕ → Bool}

theorem foldl_readPosition_fst (now : ℕ) (keys : List Key) (group : List ℕ)
    (records : AList fun _ : Key => KeyRecord) (results results' : List KeyRecord) :
    (group.foldl (readPosition admits now keys) (records,results)).1 =
      (group.foldl (readPosition admits now keys) (records,results')).1 := by
  induction group generalizing records results results' with
  | nil => rfl
  | cons i group ih =>
    rw [List.foldl_cons, List.foldl_cons]
    cases hfound : (records.lookup (keys.getD i "")).bind (KeyRecord.hit admits now) with
    | none =>
      simp only [readPosition, hfound]
      exact ih records results results'
    | some rec =>
      simp only [readPosition, hfound]
      exact ih _ _ _

/-- What a lookup does to the records does not depend on the answers so far. -/
theorem visitRead_fst (m : MetaManager) (keys : List Key) (results : List KeyRecord) (shard : ℕ) :
    (visitRead admits now keys (m,results) shard).1 = (visitRead admits now keys (m,[]) shard).1 := by
  unfold visitRead
  dsimp only
  split
  · rfl
  · rw [foldl_readPosition_fst now keys _ _ results []]

theorem foldl_visitRead_fst (keys : List Key) (shards : List ℕ) (x : MetaManager × List KeyRecord) :
    (shards.foldl (visitRead admits now keys) x).1 =
      shards.foldl (fun m shard => (visitRead admits now keys (m,[]) shard).1) x.1 := by
  induction shards generalizing x with
  | nil => rfl
  | cons shard shards ih =>
    obtain ⟨m,results⟩ := x
    rw [List.foldl_cons, ih, List.foldl_cons, visitRead_fst]

/-- A call is the run of its sections. -/
theorem serve_eq_run (m : MetaManager) (now : ℕ) (call : MetaCall) :
    (m.serve now call).2 = m.run ((call.sections m.shardCount).map fun s => (now,s)) := by
  cases call with
  | registerStore info => rfl
  | syncCommit storeId records =>
    simp only [serve, syncCommit, run, MetaCall.sections, List.foldl_map]
    rfl
  | syncRemove storeId keys =>
    simp only [serve, syncRemove, run, MetaCall.sections, List.foldl_map]
    rfl
  | batchExist keys =>
    simp only [serve, readShards, run, MetaCall.sections, List.foldl_map, foldl_visitRead_fst]
    rfl
  | batchLookup keys =>
    simp only [serve, readShards, run, MetaCall.sections, List.foldl_map, foldl_visitRead_fst]
    rfl

/-- The time of creation is kept, also when the first commit read the clock at zero. -/
theorem committed_committed (old : Option KeyRecord) (storeId now : ℕ) (rec rec' : KeyRecord) :
    committed (some (committed old storeId now rec)) storeId now rec' = committed old storeId now rec' := by
  by_cases hzero : (old.getD .blank).createTimeMs = 0
  · simp [committed, hzero]
  · simp [committed, hzero]

theorem foldl_commitAct (records : List KeyRecord) (old : Option KeyRecord) :
    records.foldl (fun old rec => commitAct storeId now rec old) old =
      records.getLast?.elim old fun rec => some (committed old storeId now rec) := by
  induction records using List.reverseRecOn generalizing old with
  | nil => rfl
  | append_singleton records rec ih =>
    rw [List.foldl_append, List.foldl_cons, List.foldl_nil, ih, List.getLast?_append_of_ne_nil _ (by simp)]
    cases records.getLast? with
    | none => rfl
    | some rec' => exact congrArg some (committed_committed old storeId now rec' rec)

/-- Of the records of a key that are committed together, the last one stays. -/
theorem find_visitCommit_last (m : MetaManager) (storeId now shard : ℕ) (records : List KeyRecord)
    (key : Key) : (visitCommit storeId now records m shard).find key =
      ((m.commitGroup records shard).filter fun rec => rec.key = key).getLast?.elim (m.find key)
        fun rec => some (committed (m.find key) storeId now rec) := by
  rw [find_visitCommit_eq, foldl_keyedStep_apply, foldl_commitAct]

theorem commits_commit {records : List KeyRecord} {shard : ℕ} :
    (MetaSection.commit shard storeId records).commits m.shardOf key = true ↔
      ∃ rec ∈ m.commitGroup records shard, rec.key = key := by
  simp only [MetaSection.commits, Bool.and_eq_true, bne_iff_ne, beq_iff_eq, List.contains_iff_mem,
    List.mem_map, mem_commitGroup]
  constructor
  · rintro ⟨⟨hne,hs⟩,rec,hrec,rfl⟩
    exact ⟨rec,⟨hrec,hne,hs⟩,rfl⟩
  · rintro ⟨rec,⟨hrec,hne,hs⟩,rfl⟩
    exact ⟨⟨hne,hs⟩,rec,hrec,rfl⟩

theorem removes_remove {keys : List Key} {shard : ℕ} :
    (MetaSection.remove shard keys).removes m.shardOf key = true ↔ key ∈ m.removeGroup keys shard := by
  simp [MetaSection.removes, mem_removeGroup, and_comm]

theorem shardOf_registerStore (m : MetaManager) (info : StoreInfo) :
    (m.registerStore info).2.shardOf = m.shardOf := by
  unfold registerStore
  split <;> rfl

theorem shardOf_enter (m : MetaManager) (now : ℕ) (s : MetaSection) : (m.enter now s).shardOf = m.shardOf := by
  cases s with
  | register info => exact shardOf_registerStore m info
  | commit shard storeId records =>
    funext key
    exact shardOf_visitCommit records
  | remove shard keys =>
    funext key
    exact shardOf_visitRemove keys
  | exist shard keys => exact shardOf_visitRead (m,[]) shard
  | lookup shard keys => exact shardOf_visitRead (m,[]) shard

theorem shardOf_run (m : MetaManager) (steps : List (ℕ × MetaSection)) :
    (m.run steps).shardOf = m.shardOf := by
  induction steps generalizing m with
  | nil => rfl
  | cons x steps ih => exact (ih _).trans (shardOf_enter m x.1 x.2)

variable {created : Key → Option ℕ} {t : ℕ}

theorem dated_create (hash : Key → ℕ) (n : ℕ) (h : 0 < n) : (create hash n h).Dated (fun _ => none) 0 :=
  fun _ => .none

theorem rel_mono {old : Option KeyRecord} {time : Option ℕ}
    (h : Option.Rel (KeyRecord.Dated key now) old time) (hle : now ≤ t) :
    Option.Rel (KeyRecord.Dated key t) old time := by
  cases h with
  | none => exact .none
  | some hrec => exact .some { hrec with access_le := le_trans hrec.access_le hle }

/-- A commit makes a record of its time, or keeps the time of the record that is there. -/
theorem rel_committed {old : Option KeyRecord} {time : Option ℕ} {rec : KeyRecord}
    (h : Option.Rel (KeyRecord.Dated key now) old time) (hkey : rec.key = key) (hne : key ≠ "")
    (hpos : 0 < now) : Option.Rel (KeyRecord.Dated key now) (some (committed old storeId now rec))
      (some (time.getD now)) := by
  cases h with
  | none => exact .some ⟨hkey,hne,rfl,rfl,hpos,le_rfl,le_rfl⟩
  | @some entry time hentry =>
    have hzero : entry.createTimeMs ≠ 0 := by
      rw [hentry.create_eq]
      exact Nat.ne_of_gt hentry.pos
    have hcreate : (committed (some entry) storeId now rec).createTimeMs = time := by
      rw [← hentry.create_eq]
      exact if_neg hzero
    exact .some ⟨hkey,hne,rfl,hcreate,hentry.pos,le_trans hentry.le_access hentry.access_le,le_rfl⟩

/-- A lookup moves the time of the last access, and no other field. -/
theorem rel_readAct {old : Option KeyRecord} {time : Option ℕ}
    (h : Option.Rel (KeyRecord.Dated key now) old time) :
    Option.Rel (KeyRecord.Dated key now) (readAct admits now old) time := by
  cases h with
  | none => exact .none
  | @some rec time hrec =>
    refine .some ?_
    unfold KeyRecord.touched KeyRecord.hit
    split
    · exact ⟨hrec.key_eq,hrec.key_ne,hrec.stat_eq,hrec.create_eq,hrec.pos,
        le_trans hrec.le_access hrec.access_le,le_rfl⟩
    · exact hrec

theorem Dated.visitRead (h : m.Dated created now) (admits : ℕ → Bool) (keys : List Key) (shard : ℕ) :
    (visitRead admits now keys (m,[]) shard).1.Dated created now := by
  intro key
  rw [find_visitRead_eq]
  refine List.foldlRecOn (motive := fun f : Key → Option KeyRecord =>
    Option.Rel (KeyRecord.Dated key now) (f key) (created key)) _ _ (h key) fun f hf i _ => ?_
  rw [keyedStep_apply]
  split
  · exact rel_readAct hf
  · exact hf

theorem Dated.visitCommit (h : m.Dated created now) (hpos : 0 < now) (shard storeId : ℕ)
    (records : List KeyRecord) : (visitCommit storeId now records m shard).Dated
      (fun key => noteCommit m.shardOf key (created key) (now,.commit shard storeId records)) now := by
  intro key
  dsimp only
  rw [find_visitCommit_last]
  by_cases hcommits : (MetaSection.commit shard storeId records).commits m.shardOf key = true
  · have hnote : noteCommit m.shardOf key (created key) (now,.commit shard storeId records) =
        some ((created key).getD now) := if_pos hcommits
    obtain ⟨rec,hrec,hkey⟩ := commits_commit.mp hcommits
    have hmem : rec ∈ (m.commitGroup records shard).filter fun rec => rec.key = key := by
      simp [hrec, hkey]
    have hlast := List.getLast?_eq_some_getLast (List.ne_nil_of_mem hmem)
    generalize ((m.commitGroup records shard).filter fun rec => rec.key = key).getLast _ = last at hlast
    obtain ⟨hgroup,hlastkey⟩ := List.mem_filter.mp (List.mem_of_getLast? hlast)
    have hkey : last.key = key := by simpa using hlastkey
    rw [hnote, hlast]
    exact rel_committed (h key) hkey (hkey ▸ (mem_commitGroup.mp hgroup).2.1) hpos
  · have hnote : noteCommit m.shardOf key (created key) (now,.commit shard storeId records) =
        created key := if_neg hcommits
    have hnone : ((m.commitGroup records shard).filter fun rec => rec.key = key) = [] := by
      refine List.filter_eq_nil_iff.mpr fun rec hrec hkey => ?_
      exact hcommits (commits_commit.mpr ⟨rec,hrec,by simpa using hkey⟩)
    rw [hnote, hnone]
    exact h key

theorem Dated.visitRemove (h : m.Dated created now) (shard : ℕ) (keys : List Key) :
    (visitRemove keys m shard).Dated
      (fun key => noteCommit m.shardOf key (created key) (now,.remove shard keys)) now := by
  intro key
  dsimp only
  rw [find_visitRemove]
  by_cases hremoves : (MetaSection.remove shard keys).removes m.shardOf key = true
  · have hnote : noteCommit m.shardOf key (created key) (now,.remove shard keys) = none := if_pos hremoves
    rw [hnote, if_pos (removes_remove.mp hremoves)]
    exact .none
  · have hnote : noteCommit m.shardOf key (created key) (now,.remove shard keys) = created key :=
      if_neg hremoves
    rw [hnote, if_neg (mt removes_remove.mpr hremoves)]
    exact h key

/-- One section, whose clock reads no earlier time. -/
theorem Dated.enter (h : m.Dated created now) (hle : now ≤ t) (hpos : 0 < t) (s : MetaSection) :
    (m.enter t s).Dated (fun key => noteCommit m.shardOf key (created key) (t,s)) t := by
  have hnow : m.Dated created t := fun key => rel_mono (h key) hle
  cases s with
  | register info =>
    intro key
    have hsame : (m.enter t (.register info)).find key = m.find key := find_registerStore info
    rw [hsame]
    exact hnow key
  | commit shard storeId records => exact hnow.visitCommit hpos shard storeId records
  | remove shard keys => exact hnow.visitRemove shard keys
  | exist shard keys => exact hnow.visitRead _ keys shard
  | lookup shard keys => exact hnow.visitRead _ keys shard

theorem Dated.run {steps : List (ℕ × MetaSection)} (h : m.Dated created now)
    (hle : ∀ x ∈ steps, now ≤ x.1) (htimed : Timed steps) :
    ∃ now', (m.run steps).Dated (fun key => steps.foldl (noteCommit m.shardOf key) (created key)) now' := by
  induction steps generalizing m created now with
  | nil => exact ⟨now,h⟩
  | cons x steps ih =>
    obtain ⟨t,s⟩ := x
    obtain ⟨hfirst,hmono⟩ := List.pairwise_cons.mp htimed.mono
    have hstep := h.enter (hle _ List.mem_cons_self) (htimed.pos _ List.mem_cons_self) s
    have hrest := ih hstep hfirst ⟨fun x hx => htimed.pos x (List.mem_cons_of_mem _ hx),hmono⟩
    rw [shardOf_enter] at hrest
    exact hrest

theorem rel_iff {old : Option KeyRecord} {time : Option ℕ} :
    Option.Rel (KeyRecord.Dated key now) old time ↔
      time = old.map KeyRecord.createTimeMs ∧ ∀ rec ∈ old, rec.Dated key now rec.createTimeMs := by
  constructor
  · intro h
    cases h with
    | none => exact ⟨rfl,fun rec hrec => absurd hrec (Option.not_mem_none rec)⟩
    | some hrec =>
      obtain rfl := hrec.create_eq
      refine ⟨rfl,?_⟩
      rintro _ ⟨⟩
      exact hrec
  · rintro ⟨rfl,hdated⟩
    cases old with
    | none => exact .none
    | some rec => exact .some (hdated rec rfl)

theorem Dated.wellKept (h : m.Dated created now) : m.WellKept created where
  filed key rec hfind := ⟨((rel_iff.mp (h key)).2 rec hfind).key_eq,((rel_iff.mp (h key)).2 rec hfind).key_ne⟩
  stat key rec hfind := ((rel_iff.mp (h key)).2 rec hfind).stat_eq
  create key := (rel_iff.mp (h key)).1
  order key rec hfind := ((rel_iff.mp (h key)).2 rec hfind).le_access

/-- Where every record is a committed one, both lookups find it. -/
theorem WellKept.readShards_fst (h : m.WellKept created) (now : ℕ) (keys : List Key) :
    (m.readShards (fun stat => stat == 1) now keys).1 =
      (m.readShards (fun stat => stat != 2) now keys).1 := by
  rw [readShards_eq_answerFor, readShards_eq_answerFor]
  refine List.map_congr_left fun key _ => ?_
  unfold answerFor
  cases hfind : m.find key with
  | none => rfl
  | some rec => simp [h.stat key rec hfind]

theorem shardCount_visitRead (x : MetaManager × List KeyRecord) (keys : List Key) (shard : ℕ) :
    (visitRead admits now keys x shard).1.shardCount = x.1.shardCount := by
  unfold visitRead
  dsimp only
  split <;> rfl

theorem shardCount_registerStore (m : MetaManager) (info : StoreInfo) :
    (m.registerStore info).2.shardCount = m.shardCount := by
  unfold registerStore
  split <;> rfl

theorem shardCount_enter (m : MetaManager) (now : ℕ) (s : MetaSection) :
    (m.enter now s).shardCount = m.shardCount := by
  cases s with
  | register info => exact shardCount_registerStore m info
  | commit shard storeId records => exact shardCount_visitCommit m storeId now shard records
  | remove shard keys => exact shardCount_visitRemove m keys shard
  | exist shard keys => exact shardCount_visitRead (m,[]) keys shard
  | lookup shard keys => exact shardCount_visitRead (m,[]) keys shard

theorem shardCount_run (m : MetaManager) (steps : List (ℕ × MetaSection)) :
    (m.run steps).shardCount = m.shardCount := by
  induction steps generalizing m with
  | nil => rfl
  | cons x steps ih => exact (ih _).trans (shardCount_enter m x.1 x.2)

/-- The calls of a sequence are made of the sections of its calls. -/
theorem after_eq_run (m : MetaManager) (calls : List (ℕ × MetaCall)) :
    m.after calls = m.run (calls.flatMap (MetaCall.timedSections m.shardCount)) := by
  induction calls generalizing m with
  | nil => rfl
  | cons x calls ih =>
    have hcount : (m.serve x.1 x.2).2.shardCount = m.shardCount := by
      rw [serve_eq_run, shardCount_run]
    rw [after, List.foldl_cons, ← after, ih, hcount, List.flatMap_cons, run, run, List.foldl_append]
    exact congrArg (fun m => List.foldl _ m _) (serve_eq_run m x.1 x.2)

end MetaManager

theorem Timed.sections (shardCount : ℕ) {calls : List (ℕ × MetaCall)} (h : Timed calls) :
    Timed (calls.flatMap (MetaCall.timedSections shardCount)) := by
  have htime : ∀ (call : ℕ × MetaCall), ∀ x ∈ MetaCall.timedSections shardCount call, x.1 = call.1 := by
    intro call x hx
    obtain ⟨s,-,rfl⟩ := List.mem_map.mp hx
    rfl
  refine ⟨fun x hx => ?_,List.pairwise_flatMap.mpr ⟨fun call _ => ?_,?_⟩⟩
  · obtain ⟨call,hcall,hx⟩ := List.mem_flatMap.mp hx
    rw [htime call x hx]
    exact h.pos call hcall
  · exact List.pairwise_of_forall_mem_list fun x hx y hy => by rw [htime call x hx, htime call y hy]
  · refine h.mono.imp fun {call call'} hle x hx y hy => ?_
    rw [htime call x hx, htime call' y hy]
    exact hle

/-- Meta keeps the two times of every record, whichever sections run, and whichever calls. -/
theorem wellKept_of_timed (hash : Key → ℕ) (shardCount : ℕ) (h : 0 < shardCount) :
    (∀ steps : List (ℕ × MetaSection), Timed steps →
      let m := (MetaManager.create hash shardCount h).run steps
      m.WellKept (firstCommit m.shardOf steps) ∧
        ∀ now keys, (m.serve now (.batchExist keys)).1 = (m.serve now (.batchLookup keys)).1) ∧
    ∀ calls : List (ℕ × MetaCall), Timed calls →
      let m := (MetaManager.create hash shardCount h).after calls
      m.WellKept (firstCommit m.shardOf (calls.flatMap (MetaCall.timedSections shardCount))) ∧
        ∀ now keys, (m.serve now (.batchExist keys)).1 = (m.serve now (.batchLookup keys)).1 := by
  have hsteps : ∀ steps : List (ℕ × MetaSection), Timed steps →
      let m := (MetaManager.create hash shardCount h).run steps
      m.WellKept (firstCommit m.shardOf steps) ∧
        ∀ now keys, (m.serve now (.batchExist keys)).1 = (m.serve now (.batchLookup keys)).1 := by
    intro steps htimed m
    obtain ⟨now,hdated⟩ := (MetaManager.dated_create hash shardCount h).run
      (fun x _ => Nat.zero_le x.1) htimed
    have hkept : m.WellKept (firstCommit m.shardOf steps) := by
      unfold firstCommit
      rw [MetaManager.shardOf_run]
      exact hdated.wellKept
    exact ⟨hkept,fun now keys => congrArg MetaReply.records (hkept.readShards_fst now keys)⟩
  refine ⟨hsteps,fun calls htimed => ?_⟩
  rw [MetaManager.after_eq_run]
  exact hsteps _ (htimed.sections shardCount)

/-- A key that is committed, looked up and committed again, removed, and committed twice. -/
theorem wellKept_of_timed_calls :
    let entry := { KeyRecord.blank with key := "a", size := 8 }
    let calls := [(1,.syncCommit 7 [entry]),(2,.batchExist ["a"]),(4,.syncCommit 7 [entry]),
      (4,.syncRemove 7 ["a"]),(5,.syncCommit 7 [entry,entry]),(9,.syncCommit 3 [entry])]
    (((MetaManager.create (fun _ => 5) 2 Nat.two_pos).after calls).find "a").map KeyRecord.createTimeMs =
      some 5 := by
  intro entry calls
  have hkept := ((wellKept_of_timed (fun _ => 5) 2 Nat.two_pos).2 calls ⟨by decide,by decide⟩).1
  rw [← hkept.create "a", MetaManager.after_eq_run, MetaManager.shardOf_run]
  decide

end FalconKV
