import FalconKV.AtomicCalls.Environment
import FalconKV.Meta.RecordTimes
import FalconKV.Meta.SyncClient

/-! # Updates that arrive twice

A client that has no answer sends its commit again. What a request leaves under a key depends
on the key alone: a request that is served twice does nothing new the second time, and requests
on different keys do not see each other.
-/
namespace FalconKV
open AtomicCalls

/-- A request that changes records. -/
inductive MetaUpdate
  | commit (storeId : ℕ) (records : List KeyRecord)
  | remove (storeId : ℕ) (keys : List Key)

namespace MetaUpdate

def call : MetaUpdate → MetaCall
  | commit storeId records => .syncCommit storeId records
  | remove storeId keys => .syncRemove storeId keys

/-- Records without a key are skipped. -/
def keys : MetaUpdate → List Key
  | commit _ records => (records.map KeyRecord.key).filter fun key => key ≠ ""
  | remove _ keys => keys

def effect (shardOf : Key → ℕ) (now shard : ℕ) (key : Key) (old : Option KeyRecord) :
    MetaUpdate → Option KeyRecord
  | commit storeId records =>
    ((records.filter fun rec => rec.key ≠ "" && shardOf rec.key == shard).filter
      fun rec => rec.key = key).getLast?.elim old
        fun rec => some (MetaManager.committed old storeId now rec)
  | remove _ keys => if key ∈ keys ∧ shardOf key = shard then none else old

end MetaUpdate

/-- A record but for the time of its last access. -/
def KeyRecord.sansAccess (rec : KeyRecord) : KeyRecord := { rec with accessTimeMs := 0 }

/-- A record but for its times. -/
def KeyRecord.sansTimes (rec : KeyRecord) : KeyRecord :=
  { rec with accessTimeMs := 0, createTimeMs := 0 }

namespace MetaManager

def apply (m : MetaManager) (now : ℕ) (u : MetaUpdate) : MetaManager := (m.serve now u.call).2

/-- States with the same stores, and with the same records in every shard, as far as `view` shows
them. -/
structure Agree (view : KeyRecord → KeyRecord) (m m' : MetaManager) : Prop where
  hash : m.hash = m'.hash
  shardCount : m.shardCount = m'.shardCount
  stores : m.stores = m'.stores
  records : ∀ shard key,
    ((m.shards shard).lookup key).map view = ((m'.shards shard).lookup key).map view

variable {m m' m'' : MetaManager} {view : KeyRecord → KeyRecord}

theorem Agree.refl (m : MetaManager) : Agree view m m := ⟨rfl,rfl,rfl,fun _ _ => rfl⟩

theorem Agree.trans (h : Agree view m m') (h' : Agree view m' m'') : Agree view m m'' :=
  ⟨h.hash.trans h'.hash,h.shardCount.trans h'.shardCount,h.stores.trans h'.stores,
    fun shard key => (h.records shard key).trans (h'.records shard key)⟩

/-- Visits that work on one shard each, every shard once. -/
theorem shards_foldl {visit : MetaManager → ℕ → MetaManager}
    (act : (Key → ℕ) → ℕ → (AList fun _ : Key => KeyRecord) → AList fun _ : Key => KeyRecord)
    (hvisit : ∀ m c s, (visit m c).shards s = if s = c then act m.shardOf s (m.shards s) else m.shards s)
    (hshard : ∀ m c, (visit m c).shardOf = m.shardOf) {shards : List ℕ} (hn : shards.Nodup)
    (m : MetaManager) (s : ℕ) : (shards.foldl visit m).shards s =
      if s ∈ shards then act m.shardOf s (m.shards s) else m.shards s := by
  induction shards generalizing m with
  | nil => simp
  | cons c shards ih =>
    obtain ⟨hc,hn⟩ := List.nodup_cons.mp hn
    rw [List.foldl_cons, ih hn, hshard, hvisit]
    by_cases hs : s = c
    · subst hs
      simp [hc]
    · simp [hs]

/-- A shard is only written if there is something for it. -/
theorem update_group {β : Type} {shards : ℕ → AList fun _ : Key => KeyRecord} {group : ℕ → List β}
    (act : (AList fun _ : Key => KeyRecord) → β → AList fun _ : Key => KeyRecord) (c s : ℕ) :
    (if (group c).isEmpty = true then shards
      else Function.update shards c ((group c).foldl act (shards c))) s =
    if s = c then (group s).foldl act (shards s) else shards s := by
  by_cases hs : s = c
  · subst hs
    rw [if_pos rfl]
    split
    · next hempty => rw [List.isEmpty_iff.mp hempty, List.foldl_nil]
    · exact Function.update_self s _ shards
  · rw [if_neg hs]
    split
    · rfl
    · exact Function.update_of_ne hs _ shards

theorem shards_visitCommit (storeId now : ℕ) (records : List KeyRecord) (m : MetaManager) (c s : ℕ) :
    (visitCommit storeId now records m c).shards s = if s = c then
      (m.commitGroup records s).foldl (commitEntry storeId now) (m.shards s) else m.shards s := by
  rw [visitCommit, apply_ite MetaManager.shards]
  exact update_group (commitEntry storeId now) c s

theorem shards_visitRemove (keys : List Key) (m : MetaManager) (c s : ℕ) :
    (visitRemove keys m c).shards s = if s = c then
      (m.removeGroup keys s).foldl (fun records key => records.erase key) (m.shards s)
        else m.shards s := by
  rw [visitRemove, apply_ite MetaManager.shards]
  exact update_group (fun records key => records.erase key) c s

theorem commitGroup_eq_nil {records : List KeyRecord} {s : ℕ} (hs : s ∉ List.range m.shardCount) :
    m.commitGroup records s = [] := by
  refine List.eq_nil_iff_forall_not_mem.mpr fun rec hrec => hs (List.mem_range.mpr ?_)
  rw [← (mem_commitGroup.mp hrec).2.2]
  exact m.shardOf_lt rec.key

theorem shards_syncCommit (m : MetaManager) (storeId now : ℕ) (records : List KeyRecord) (s : ℕ) :
    (m.syncCommit storeId now records).shards s =
      (m.commitGroup records s).foldl (commitEntry storeId now) (m.shards s) := by
  have hfold := shards_foldl (fun shardOf s => (records.filter fun rec => rec.key ≠ "" &&
      shardOf rec.key == s).foldl (commitEntry storeId now)) (shards_visitCommit storeId now records)
    (fun m c => funext fun key => shardOf_visitCommit records) (List.nodup_range (n := m.shardCount)) m s
  refine hfold.trans ?_
  split
  · rfl
  · next hs => rw [commitGroup_eq_nil hs, List.foldl_nil]

theorem shards_syncRemove (m : MetaManager) (storeId : ℕ) (keys : List Key) (s : ℕ) :
    (m.syncRemove storeId keys).shards s =
      (m.removeGroup keys s).foldl (fun records key => records.erase key) (m.shards s) := by
  have hfold := shards_foldl (fun shardOf s => (keys.filter fun key => shardOf key == s).foldl
      fun records key => records.erase key) (shards_visitRemove keys)
    (fun m c => funext fun key => shardOf_visitRemove keys) (List.nodup_range (n := m.shardCount)) m s
  refine hfold.trans ?_
  split
  · rfl
  · next hs =>
    have hnil : m.removeGroup keys s = [] := by
      refine List.eq_nil_iff_forall_not_mem.mpr fun key hkey => hs (List.mem_range.mpr ?_)
      rw [← (mem_removeGroup.mp hkey).2]
      exact m.shardOf_lt key
    rw [hnil, List.foldl_nil]

theorem lookup_apply (m : MetaManager) (now : ℕ) (u : MetaUpdate) (shard : ℕ) (key : Key) :
    ((m.apply now u).shards shard).lookup key =
      u.effect m.shardOf now shard key ((m.shards shard).lookup key) := by
  cases u with
  | commit storeId records =>
    have hshard : (m.apply now (.commit storeId records)).shards shard =
        (m.commitGroup records shard).foldl (commitEntry storeId now) (m.shards shard) :=
      shards_syncCommit m storeId now records shard
    rw [hshard, congrFun (lookup_foldl lookup_commitEntry _ _) key, foldl_keyedStep_apply, foldl_commitAct]
    rfl
  | remove storeId keys =>
    have hshard : (m.apply now (.remove storeId keys)).shards shard =
        (m.removeGroup keys shard).foldl (fun records key => records.erase key) (m.shards shard) :=
      shards_syncRemove m storeId keys shard
    rw [hshard, lookup_eraseKeys, MetaUpdate.effect]
    simp only [mem_removeGroup]

theorem shardCount_apply (m : MetaManager) (now : ℕ) (u : MetaUpdate) :
    (m.apply now u).shardCount = m.shardCount := by
  unfold apply
  rw [serve_eq_run, shardCount_run]

theorem shardOf_apply (m : MetaManager) (now : ℕ) (u : MetaUpdate) :
    (m.apply now u).shardOf = m.shardOf := by
  unfold apply
  rw [serve_eq_run, shardOf_run]

theorem hash_foldl {visit : MetaManager → ℕ → MetaManager} (h : ∀ m shard, (visit m shard).hash = m.hash)
    (shards : List ℕ) (m : MetaManager) : (shards.foldl visit m).hash = m.hash := by
  induction shards generalizing m with
  | nil => rfl
  | cons shard shards ih => exact (ih _).trans (h m shard)

theorem hash_apply (m : MetaManager) (now : ℕ) (u : MetaUpdate) : (m.apply now u).hash = m.hash := by
  cases u with
  | commit storeId records =>
    exact hash_foldl (fun m shard => hash_visitCommit m storeId now shard records) _ m
  | remove storeId keys => exact hash_foldl (fun m shard => hash_visitRemove m keys shard) _ m

theorem stores_apply (m : MetaManager) (now : ℕ) (u : MetaUpdate) : (m.apply now u).stores = m.stores := by
  cases u with
  | commit storeId records => exact stores_syncCommit records
  | remove storeId keys => exact UnshardedMeta.stores_syncRemove m storeId keys

end MetaManager

namespace MetaUpdate
variable {shardOf : Key → ℕ} {now shard : ℕ} {key : Key} {u : MetaUpdate}

/-- A commit that comes again keeps the time of creation, as the clock never reads zero. -/
theorem sansAccess_committed_committed (old : Option KeyRecord) (storeId now' : ℕ) (rec : KeyRecord)
    (hpos : 0 < now) :
    (MetaManager.committed (some (MetaManager.committed old storeId now rec)) storeId now' rec).sansAccess =
      (MetaManager.committed old storeId now rec).sansAccess := by
  have hnow : now ≠ 0 := Nat.ne_of_gt hpos
  by_cases hzero : (old.getD .blank).createTimeMs = 0
  · simp [MetaManager.committed, KeyRecord.sansAccess, hzero, hnow]
  · simp [MetaManager.committed, KeyRecord.sansAccess, hzero]

theorem effect_effect (u : MetaUpdate) (now' : ℕ) (old : Option KeyRecord) (hpos : 0 < now) :
    (u.effect shardOf now' shard key (u.effect shardOf now shard key old)).map KeyRecord.sansAccess =
      (u.effect shardOf now shard key old).map KeyRecord.sansAccess := by
  cases u with
  | commit storeId records =>
    unfold effect
    dsimp only
    cases ((records.filter fun rec => rec.key ≠ "" && shardOf rec.key == shard).filter
        fun rec => rec.key = key).getLast? with
    | none => rfl
    | some rec => exact congrArg some (sansAccess_committed_committed old storeId now' rec hpos)
  | remove storeId keys =>
    unfold effect
    dsimp only
    split <;> rfl

theorem effect_of_notMem (old : Option KeyRecord) (h : key ∉ u.keys) :
    u.effect shardOf now shard key old = old := by
  cases u with
  | commit storeId records =>
    have hnone : ((records.filter fun rec => rec.key ≠ "" && shardOf rec.key == shard).filter
        fun rec => rec.key = key) = [] := by
      refine List.filter_eq_nil_iff.mpr fun rec hrec hkey => h ?_
      obtain ⟨hmem,hgroup⟩ := List.mem_filter.mp hrec
      obtain rfl : rec.key = key := by simpa using hkey
      simp only [Bool.and_eq_true, decide_eq_true_eq] at hgroup
      exact List.mem_filter.mpr ⟨List.mem_map_of_mem hmem,by simpa using hgroup.1⟩
    rw [effect, hnone]
    rfl
  | remove storeId keys => exact if_neg fun hkey => h hkey.1

theorem effect_sansTimes (u : MetaUpdate) (now now' : ℕ) (old : Option KeyRecord) :
    (u.effect shardOf now shard key old).map KeyRecord.sansTimes =
      (u.effect shardOf now' shard key old).map KeyRecord.sansTimes := by
  cases u with
  | commit storeId records =>
    unfold effect
    dsimp only
    cases ((records.filter fun rec => rec.key ≠ "" && shardOf rec.key == shard).filter
        fun rec => rec.key = key).getLast? with
    | none => rfl
    | some rec => rfl
  | remove storeId keys => rfl

end MetaUpdate

namespace MetaManager

theorem agree_apply_apply (m : MetaManager) (u : MetaUpdate) {now : ℕ} (now' : ℕ) (hpos : 0 < now) :
    Agree KeyRecord.sansAccess ((m.apply now u).apply now' u) (m.apply now u) where
  hash := hash_apply _ now' u
  shardCount := shardCount_apply _ now' u
  stores := stores_apply _ now' u
  records shard key := by
    rw [lookup_apply (m.apply now u), shardOf_apply, lookup_apply]
    exact u.effect_effect now' _ hpos

theorem agree_apply_comm (m : MetaManager) {u v : MetaUpdate} (h : u.keys.Disjoint v.keys)
    (t₁ t₂ t₁' t₂' : ℕ) : Agree KeyRecord.sansTimes ((m.apply t₁ u).apply t₂ v) ((m.apply t₁' v).apply t₂' u) where
  hash := by rw [hash_apply, hash_apply, hash_apply, hash_apply]
  shardCount := by rw [shardCount_apply, shardCount_apply, shardCount_apply, shardCount_apply]
  stores := by rw [stores_apply, stores_apply, stores_apply, stores_apply]
  records shard key := by
    rw [lookup_apply (m.apply t₁ u), lookup_apply (m.apply t₁' v), shardOf_apply, shardOf_apply,
      lookup_apply, lookup_apply]
    by_cases hu : key ∈ u.keys
    · have hv : key ∉ v.keys := fun hv => h hu hv
      rw [MetaUpdate.effect_of_notMem _ hv, MetaUpdate.effect_of_notMem _ hv]
      exact u.effect_sansTimes t₁ t₂' _
    · rw [MetaUpdate.effect_of_notMem _ hu, MetaUpdate.effect_of_notMem _ hu]
      exact v.effect_sansTimes t₂ t₁' _

end MetaManager

def clockRuns : ClusterCall → ClusterChoice → Bool
  | .steadyNowMs, c => 0 < c.now
  | _, _ => true

def countReached : (op : ClusterCall) → op.Res → Cluster → ℕ → ℕ
  | .deliver _, some _, _, n => n + 1
  | _, _, _, n => n

abbrev countingMachine (reliable : Bool) : Machine clusterCalls (Cluster × ℕ) :=
  ((clusterMachine reliable).under clockRuns).withRecord countReached

/-- However many requests of a commit have reached Meta, it is as if one had, or none. -/
structure AsOnce (d : MetaManager) (storeId : ℕ) (descs : List KeyDesc) (x : Cluster × ℕ) : Prop where
  none : x.2 = 0 → x.1.directory = d
  some : 0 < x.2 → ∃ now, 0 < now ∧ MetaManager.Agree KeyRecord.sansAccess x.1.directory
    (d.apply now (.commit storeId (descs.map (KeyDesc.toKeyRecord storeId))))

/-- Only the arrival of a request is counted. -/
theorem counting_step {reliable : Bool} {op : ClusterCall} {c : ClusterChoice} {r : op.Res} {w : Cluster}
    {n : ℕ} {x : Cluster × ℕ} (hcount : ∀ r w n, countReached op r w n = n)
    (h : (countingMachine reliable).step op c (w,n) = some (r,x)) :
    clockRuns op c = true ∧ ∃ w', x = (w',n) ∧ (clusterMachine reliable).step op c w = some (r,w') := by
  obtain ⟨hstep,hn⟩ := Machine.withRecord_step h
  obtain ⟨hclock,hstep⟩ := Machine.under_step hstep
  exact ⟨hclock,x.1,Prod.ext rfl (hn.trans (hcount r w n)),hstep⟩

namespace MetaManager

theorem committed_congr {old old' : Option KeyRecord}
    (h : old.map KeyRecord.sansAccess = old'.map KeyRecord.sansAccess) (storeId now : ℕ) (rec : KeyRecord) :
    committed old storeId now rec = committed old' storeId now rec := by
  cases old with
  | none =>
    cases old' with
    | none => rfl
    | some entry => cases h
  | some entry =>
    cases old' with
    | none => cases h
    | some entry' =>
      have hentry : entry.sansAccess = entry'.sansAccess := Option.some.inj h
      simp only [KeyRecord.sansAccess, KeyRecord.mk.injEq] at hentry
      simp [committed, hentry]

theorem Agree.apply {m m' : MetaManager} (h : Agree KeyRecord.sansAccess m m') (now : ℕ) (u : MetaUpdate) :
    Agree KeyRecord.sansAccess (m.apply now u) (m'.apply now u) where
  hash := by rw [hash_apply, hash_apply, h.hash]
  shardCount := by rw [shardCount_apply, shardCount_apply, h.shardCount]
  stores := by rw [stores_apply, stores_apply, h.stores]
  records shard key := by
    have hshard : m.shardOf = m'.shardOf := by
      funext key
      rw [shardOf, shardOf, h.hash, h.shardCount]
    rw [lookup_apply, lookup_apply, hshard]
    have hold := h.records shard key
    cases u with
    | commit storeId records =>
      unfold MetaUpdate.effect
      dsimp only
      cases ((records.filter fun rec => rec.key ≠ "" && m'.shardOf rec.key == shard).filter
          fun rec => rec.key = key).getLast? with
      | none => exact hold
      | some rec => exact congrArg (fun rec => some rec.sansAccess) (committed_congr hold storeId now rec)
    | remove storeId keys =>
      unfold MetaUpdate.effect
      dsimp only
      split
      · rfl
      · exact hold

end MetaManager

section
variable {reliable : Bool} {d : MetaManager} {w : Cluster} {n storeId : ℕ} {descs : List KeyDesc}

theorem wp_counting_visitCommits (now : ℕ) (records : List KeyRecord) (shards : List ℕ) :
    wp (countingMachine reliable) (fun _ _ => True)
      (fun _ x => x = ({ w with
        directory := shards.foldl (MetaManager.visitCommit storeId now records) w.directory },n))
      (Prog.forEach (fun shard => invokeCluster
        (.commitShard w.incarnation shard storeId now records)) shards) (w,n) := by
  induction shards generalizing w with
  | nil => rfl
  | cons shard shards ih =>
    refine wp_perform trivial fun c r x h => ?_
    obtain ⟨-,w',rfl,hstep⟩ := counting_step (fun _ _ _ => rfl) h
    cases hstep
    rw [if_pos rfl]
    exact ih (w := { w with directory := _ })

/-- A request that is served is a commit, at the time that the clock shows. -/
theorem wp_counting_syncCommit (descs : List KeyDesc) :
    wp (countingMachine reliable) (fun _ _ => True)
      (fun _ x => ∃ now, 0 < now ∧ x = ({ w with
        directory := w.directory.syncCommit storeId now (descs.map (KeyDesc.toKeyRecord storeId)) },n))
      (MetaService.syncCommit w.incarnation storeId descs) (w,n) := by
  refine wp_perform trivial fun c now x h => ?_
  obtain ⟨hclock,w',rfl,hstep⟩ := counting_step (fun _ _ _ => rfl) h
  cases hstep
  refine wp_perform trivial fun c' shardCount x h => ?_
  obtain ⟨-,w',rfl,hstep⟩ := counting_step (fun _ _ _ => rfl) h
  cases hstep
  have hpos : 0 < c.now := by simpa [clockRuns] using hclock
  exact wp_bind.mpr (wp_mono (wp_counting_visitCommits _ _ _) fun _ _ h => ⟨_,hpos,h⟩)

theorem AsOnce.served (h : AsOnce d storeId descs (w,n)) {now : ℕ} (hpos : 0 < now) :
    AsOnce d storeId descs ({ w with
      directory := w.directory.syncCommit storeId now (descs.map (KeyDesc.toKeyRecord storeId)) },n + 1) where
  none hzero := absurd hzero (Nat.succ_ne_zero n)
  some _ := by
    rcases Nat.eq_zero_or_pos n with hn | hn
    · have hsame : w.directory = d := h.none hn
      refine ⟨now,hpos,?_⟩
      rw [← hsame]
      exact .refl _
    · obtain ⟨first,hfirst,hagree⟩ := h.some hn
      exact ⟨first,hfirst,(hagree.apply now _).trans (d.agree_apply_apply _ now hfirst)⟩

theorem deliver_step {c : ClusterChoice} {request : Option (ℕ × Bool)} {w' : Cluster}
    (h : Cluster.step reliable (.deliver descs) c w = some (request,w')) :
    w' = w ∧ (request = none ∨ ∃ answers, request = some (w.incarnation,answers)) := by
  simp only [Cluster.step] at h
  split at h
  · cases h
  · cases h
    refine ⟨rfl,?_⟩
    split
    · exact .inr ⟨_,rfl⟩
    · exact .inl rfl

/-- One attempt, after the attempts before it. -/
theorem AsOnce.rpc (h : AsOnce d storeId descs (w,n)) :
    wp (countingMachine reliable) (fun _ _ => True) (fun _ x => AsOnce d storeId descs x)
      (rpc descs fun incarnation => MetaService.syncCommit incarnation storeId descs) (w,n) := by
  refine wp_perform trivial fun c request x hdeliver => ?_
  obtain ⟨w₁,n₁⟩ := x
  obtain ⟨hstep,hn⟩ := Machine.withRecord_step hdeliver
  obtain ⟨rfl,rfl | ⟨answers,rfl⟩⟩ := deliver_step (Machine.under_step hstep).2
  · cases hn
    exact h
  · obtain rfl : n₁ = n + 1 := hn
    refine wp_bind.mpr (wp_mono (wp_counting_syncCommit descs) fun served x hserved => ?_)
    obtain ⟨now,hpos,rfl⟩ := hserved
    cases served with
    | none => exact h.served hpos
    | some s =>
      refine wp_perform trivial fun c ok x hanswer => ?_
      obtain ⟨-,w',rfl,hstep⟩ := counting_step (fun _ _ _ => rfl) hanswer
      cases hstep
      exact h.served hpos

/-- The client with its one retry. -/
theorem AsOnce.syncCommit (h : AsOnce d storeId descs (w,n)) (i : ℕ) {records : List StoreKeyRecord}
    (later : List StoreKeyRecord) (hdescs : records.map StoreKeyRecord.desc = descs) :
    wp (countingMachine reliable) (fun _ _ => True) (fun _ x => AsOnce d storeId descs x)
      (MetaSyncClient.syncCommit i storeId records later) (w,n) := by
  subst hdescs
  refine wp_perform trivial fun c connected x hload => ?_
  obtain ⟨-,w',rfl,hstep⟩ := counting_step (fun _ _ _ => rfl) hload
  cases hstep
  split
  · exact h
  · refine wp_bind.mpr (wp_mono h.rpc fun first x hfirst => ?_)
    obtain ⟨w₁,n₁⟩ := x
    cases first with
    | some s => exact hfirst
    | none =>
      refine wp_perform trivial fun c _ x hstore => ?_
      obtain ⟨-,w',rfl,hstep⟩ := counting_step (fun _ _ _ => rfl) hstore
      cases hstep
      have hset : AsOnce d storeId (records.map StoreKeyRecord.desc)
          (w₁.setNode i { w₁.node i with connected := false },n₁) := ⟨hfirst.none,hfirst.some⟩
      refine wp_bind.mpr (wp_mono hset.rpc fun retry x hretry => ?_)
      obtain ⟨w₂,n₂⟩ := x
      cases retry with
      | none =>
        refine wp_perform trivial fun c _ x hgive => ?_
        obtain ⟨-,w',rfl,hstep⟩ := counting_step (fun _ _ _ => rfl) hgive
        cases hstep
        exact hretry
      | some s =>
        refine wp_perform trivial fun c _ x hstore => ?_
        obtain ⟨-,w',rfl,hstep⟩ := counting_step (fun _ _ _ => rfl) hstore
        cases hstep
        exact ⟨hretry.none,hretry.some⟩

end

/-- A request that Meta serves twice changes nothing the second time but access times, requests on
different keys may change places but for the times they leave, and a client's retry of a commit
leaves no more than the commit. -/
theorem redelivered_updates :
    (∀ (m : MetaManager) (u : MetaUpdate) (now now' : ℕ), 0 < now → 0 < now' →
      MetaManager.Agree KeyRecord.sansAccess ((m.apply now u).apply now' u) (m.apply now u)) ∧
    (∀ (m : MetaManager) (u v : MetaUpdate) (t₁ t₂ t₁' t₂' : ℕ), u.keys.Disjoint v.keys →
      MetaManager.Agree KeyRecord.sansTimes ((m.apply t₁ u).apply t₂ v) ((m.apply t₁' v).apply t₂' u)) ∧
    ∀ (reliable : Bool) (i storeId : ℕ) (records later : List StoreKeyRecord) (w : Cluster) (s : Status)
      (x : Cluster × ℕ), Exec (countingMachine reliable) (fun _ _ => True)
        (MetaSyncClient.syncCommit i storeId records later) (w,0) s x →
      AsOnce w.directory storeId (records.map StoreKeyRecord.desc) x := by
  refine ⟨fun m u now now' hpos _ => m.agree_apply_apply u now' hpos,?_,?_⟩
  · intro m u v t₁ t₂ t₁' t₂' hdisjoint
    exact m.agree_apply_comm hdisjoint t₁ t₂ t₁' t₂'
  · intro reliable i storeId records later w s x he
    have hstart : AsOnce w.directory storeId (records.map StoreKeyRecord.desc) (w,0) :=
      ⟨fun _ => rfl,fun hpos => absurd hpos (lt_irrefl 0)⟩
    exact he.ends (hstart.syncCommit i later rfl)

/-- A commit whose first answer is lost and whose retry comes three ticks later. -/
theorem redelivered_updates_retry :
    let m := MetaManager.create (fun _ => 5) 2 Nat.two_pos
    let u := MetaUpdate.commit 7 [{ KeyRecord.blank with key := "a", size := 8 },.blank]
    let v := MetaUpdate.remove 7 ["b",""]
    MetaManager.Agree KeyRecord.sansAccess ((m.apply 3 u).apply 4 u) (m.apply 3 u) ∧
    MetaManager.Agree KeyRecord.sansTimes ((m.apply 1 u).apply 2 v) ((m.apply 3 v).apply 4 u) ∧
    ∃ w s x, Exec (countingMachine false) (fun _ _ => True)
        (MetaSyncClient.syncCommit 0 7 [⟨"a",0,8,8,1,0⟩] []) (w,0) s x ∧
      x.2 = 2 ∧ AsOnce w.directory 7 [⟨"a",0,8⟩] x := by
  intro m u v
  have hall := redelivered_updates
  refine ⟨hall.1 m u 3 4 (by decide) (by decide),hall.2.1 m u v 1 2 3 4 (List.disjoint_left.mpr (by decide)),?_⟩
  have hrun : (execWith (countingMachine false) (fun _ _ => true)
      (MetaSyncClient.syncCommit 0 7 [⟨"a",0,8,8,1,0⟩] [])
      [{},{ answers := false },{ now := 3 },{},{},{},{},{},{},{ now := 6 },{},{},{},{},{}]
      (.init (fun _ => 5) 2 Nat.two_pos (fun _ => ⟨7,64,8,0,false,true⟩) true,0)).map (fun y => y.2.2) =
        some 2 := by decide
  obtain ⟨⟨s,x⟩,hexec,hcount⟩ := Option.map_eq_some_iff.mp hrun
  have he : Exec (countingMachine false) (fun _ _ => True) _ _ _ _ :=
    (exec_of_execWith hexec).ok_mono fun _ _ _ => trivial
  exact ⟨_,s,x,he,hcount,hall.2.2 false 0 7 _ [] _ s x he⟩

end FalconKV
