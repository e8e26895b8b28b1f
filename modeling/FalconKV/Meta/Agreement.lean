import FalconKV.Meta.Deliveries
import FalconKV.Meta.Ownership
import FalconKV.Meta.Replicas

/-! # Whether Meta agrees with the index of a store

A commit that waits in the queue of the client, or is on its way, may reach Meta after the
removal of its key. In the runs in which that does not happen, what Meta and the index
disagree on is always owed by some thread or waits in the queue, so that they agree when
nothing is left to do.
-/
namespace FalconKV
open AtomicCalls

namespace Cluster

/-- No commit overtakes a removal of its key, or is overtaken by one: a key leaves the
index while Meta does not know it, and what Meta records is still in the index. Keys are
not empty. -/
def inTime (w : Cluster) (i : ℕ) : ClusterCall → Bool
  | .atStore _ (.indexPut key _ _) => key ≠ ""
  | .atStore _ (.indexRemove key _) => (w.held i key).isNone || (w.known key).isNone
  | .commitShard _ shard _ _ records =>
    (MetaManager.latest (w.directory.commitGroup records shard)).all fun rec =>
      w.held i rec.key == some ⟨rec.key,rec.offset,rec.size⟩
  | _ => true

end Cluster

structure InStep (p : Placing) (w : Cluster) (owed : Multiset Duty) : Prop where
  hash : w.directory.hash = p.hash
  shardCount : w.directory.shardCount = p.shardCount
  served : w.incarnation = 0
  connected : ∀ i, (w.node i).connected = true
  queued : ∀ x ∈ (w.node p.node).pendingCommits, x.storeId = p.storeId
  sound : (w.node p.node).store.index.Sound
  owner : ∀ {key rec}, w.directory.find key = some rec → rec.storeId = p.storeId
  known : ∀ {key desc}, w.known key = some desc → ∃ desc', w.held p.node key = some desc' ∧
    (desc = desc' ∨ .commit desc' ∈ owed + w.queue p.node)
  held : ∀ {key desc}, w.held p.node key = some desc → key ≠ "" ∧
    (.drop key ∈ owed ∨ w.known key = some desc ∨ .commit desc ∈ owed + w.queue p.node)

namespace InStep

variable {p : Placing} {w w' : Cluster} {owed owed' used made rest : Multiset Duty}

theorem shardOf (h : InStep p w owed) (key : Key) : w.directory.shardOf key = p.shardOf key := by
  rw [MetaManager.shardOf, Placing.shardOf, h.hash, h.shardCount]

theorem held_key (h : InStep p w owed) {key : Key} {desc : KeyDesc}
    (hd : w.held p.node key = some desc) : desc.key = key := by
  obtain ⟨rec,hrec,rfl⟩ := Option.map_eq_some_iff.mp hd
  exact h.sound.keyed hrec

/-- Calls that change neither Meta nor what the index has: the commits of named records
and the removals of present keys are still owed. -/
theorem transport (h : InStep p w owed) (hdir : w'.directory = w.directory)
    (hserved : w'.incarnation = w.incarnation)
    (hconn : ∀ i, (w'.node i).connected = (w.node i).connected)
    (hqueued : ∀ x ∈ (w'.node p.node).pendingCommits, x.storeId = p.storeId)
    (hsound : (w'.node p.node).store.index.Sound)
    (hheld : ∀ key, w'.held p.node key = w.held p.node key)
    (hcommit : ∀ desc : KeyDesc, desc.key ≠ "" → .commit desc ∈ owed + w.queue p.node →
      .commit desc ∈ owed' + w'.queue p.node)
    (hdrop : ∀ key, w.held p.node key ≠ none → .drop key ∈ owed → .drop key ∈ owed') :
    InStep p w' owed' := by
  have hknown : ∀ key, w'.known key = w.known key := fun key => by
    rw [Cluster.known, hdir, Cluster.known]
  constructor
  · rw [hdir, h.hash]
  · rw [hdir, h.shardCount]
  · rw [hserved, h.served]
  · exact fun i => (hconn i).trans (h.connected i)
  · exact hqueued
  · exact hsound
  · intro key rec hrec
    rw [hdir] at hrec
    exact h.owner hrec
  · intro key desc hk
    rw [hknown] at hk
    obtain ⟨desc',hd,hor⟩ := h.known hk
    have hname : desc'.key ≠ "" := by
      rw [h.held_key hd]
      exact (h.held hd).1
    exact ⟨desc',(hheld key).trans hd,hor.imp_right (hcommit desc' hname)⟩
  · intro key desc hd
    rw [hheld] at hd
    obtain ⟨hname,hor⟩ := h.held hd
    refine ⟨hname,?_⟩
    rcases hor with hdropped | hk | hc
    · exact .inl (hdrop key (by simp [hd]) hdropped)
    · exact .inr (.inl ((hknown key).trans hk))
    · refine .inr (.inr (hcommit desc ?_ hc))
      rwa [h.held_key hd]

/-- The record of an insertion is owed to Meta. -/
theorem put {key : Key} {record : StoreKeyRecord} {s : Store} (h : InStep p w rest)
    (hkey : record.key = key) (hstat : record.stat = 1) (hname : key ≠ "")
    (hs : s.index = (w.node p.node).store.index.put key record) :
    InStep p (w.setNode p.node { w.node p.node with store := s }) ({.commit record.desc} + rest) := by
  have hheld := w.held_put h.sound hkey hs
  constructor
  · exact h.hash
  · exact h.shardCount
  · exact h.served
  · exact fun i => (w.connected_setStore _ i s).trans (h.connected i)
  · rw [Cluster.node_setNode]
    exact h.queued
  · rw [Cluster.node_setNode]
    dsimp only
    rw [hs]
    exact h.sound.put hkey hstat
  · exact h.owner
  · intro k desc hk
    rw [hheld, Cluster.queue_setStore]
    split
    · exact ⟨record.desc,rfl,.inr (by simp)⟩
    · obtain ⟨desc',hd,hor⟩ := h.known hk
      refine ⟨desc',hd,hor.imp_right fun hc => ?_⟩
      rw [add_assoc]
      exact Multiset.mem_add.mpr (.inr hc)
  · intro k desc hd
    rw [hheld] at hd
    rw [Cluster.queue_setStore]
    split at hd
    · next hk =>
      cases hd
      exact ⟨hk ▸ hname,.inr (.inr (by simp))⟩
    · obtain ⟨hname',hor⟩ := h.held hd
      refine ⟨hname',?_⟩
      rcases hor with hdropped | hk | hc
      · exact .inl (Multiset.mem_add.mpr (.inr hdropped))
      · exact .inr (.inl hk)
      · rw [add_assoc]
        exact .inr (.inr (Multiset.mem_add.mpr (.inr hc)))

/-- A key that is taken out of the index is one that Meta does not know. -/
theorem remove {key : Key} {s : Store} (h : InStep p w ({.drop key} + rest))
    (hin : w.held p.node key = none ∨ w.known key = none)
    (hs : s.index = ((w.node p.node).store.index.remove key).2) :
    InStep p (w.setNode p.node { w.node p.node with store := s }) rest := by
  have hheld := w.held_remove hs
  have hcommit : ∀ desc : KeyDesc, .commit desc ∈ {.drop key} + rest + w.queue p.node →
      .commit desc ∈ rest + w.queue p.node := by
    intro desc hc
    simpa [add_assoc] using hc
  constructor
  · exact h.hash
  · exact h.shardCount
  · exact h.served
  · exact fun i => (w.connected_setStore _ i s).trans (h.connected i)
  · rw [Cluster.node_setNode]
    exact h.queued
  · rw [Cluster.node_setNode]
    dsimp only
    rw [hs]
    exact h.sound.remove
  · exact h.owner
  · intro k desc hk
    obtain ⟨desc',hd,hor⟩ := h.known hk
    rw [hheld, Cluster.queue_setStore]
    have hk : ¬ k = key := by
      rintro rfl
      rcases hin with hnone | hnone
      · rw [hnone] at hd
        cases hd
      · have hk : w.known k = some desc := hk
        rw [hnone] at hk
        cases hk
    rw [if_neg hk]
    exact ⟨desc',hd,hor.imp_right (hcommit desc')⟩
  · intro k desc hd
    rw [hheld] at hd
    rw [Cluster.queue_setStore]
    split at hd
    · cases hd
    · next hk =>
      obtain ⟨hname,hor⟩ := h.held hd
      refine ⟨hname,?_⟩
      rcases hor with hdropped | hk' | hc
      · left
        simpa [hk] using hdropped
      · exact .inr (.inl hk')
      · exact .inr (.inr (hcommit desc hc))

/-- A call inside the store. -/
theorem atStore {op : StoreCall} {c : StoreChoice} {r : op.Res} {s : Store}
    (h : InStep p w (used + rest)) (hin : w.inTime p.node (.atStore p.node op) = true)
    (hlocal : op.isLocal = true) (hs : (w.node p.node).store.step op c = some (r,s))
    (hr : Promise.rule p.storeId op r used made) :
    InStep p (w.setNode p.node { w.node p.node with store := s }) (made + rest) := by
  cases Store.index_step hs with
  | put key record data hidx =>
    obtain ⟨rfl,hkey,hstat,rfl⟩ := hr
    rw [zero_add] at h
    exact h.put hkey hstat (by simpa [Cluster.inTime] using hin) hidx
  | remove key snapshot hidx =>
    obtain ⟨rfl,rfl⟩ := hr
    rw [zero_add]
    refine h.remove ?_ hidx
    simpa [Cluster.inTime] using hin
  | keep hput hrem hsame =>
    obtain ⟨rfl,rfl⟩ := Promise.idle_of_local hr hlocal hput hrem
    refine h.transport rfl rfl (fun i => w.connected_setStore _ i s) ?_ ?_ ?_ ?_ fun _ _ => id
    · rw [Cluster.node_setNode]
      exact h.queued
    · rw [Cluster.node_setNode]
      exact hsame.sound h.sound
    · exact w.held_keep hsame
    · intro desc _ hc
      rwa [Cluster.queue_setStore]

/-- Commits move between the threads and the queue. -/
theorem setQueue {q : List PendingCommit} (h : InStep p w owed)
    (hids : ∀ x ∈ q, x.storeId = p.storeId)
    (hsum : ∀ desc, .commit desc ∈ owed + w.queue p.node →
      .commit desc ∈ owed' + (commits (q.flatMap PendingCommit.records) : Multiset Duty))
    (hdrop : ∀ key, .drop key ∈ owed → .drop key ∈ owed') :
    InStep p (w.setNode p.node { w.node p.node with pendingCommits := q }) owed' := by
  refine h.transport rfl rfl (fun i => w.connected_setQueue _ i q) ?_ ?_ ?_ ?_ fun key _ => hdrop key
  · rw [Cluster.node_setNode]
    exact hids
  · rw [Cluster.node_setNode]
    exact h.sound
  · intro key
    rw [Cluster.held_setNode]
    rfl
  · intro desc _ hc
    rw [Cluster.queue, Cluster.node_setNode]
    exact hsum desc hc

theorem drop_notMem_commits (records : List StoreKeyRecord) (key : Key) :
    Duty.drop key ∉ (commits records : Multiset Duty) := by
  simp [commits]

theorem push {commit : PendingCommit} (h : InStep p w (commits commit.records + rest))
    (hid : commit.storeId = p.storeId) :
    InStep p (w.setNode p.node { w.node p.node with
      pendingCommits := (w.node p.node).pendingCommits ++ [commit] }) rest := by
  refine h.setQueue ?_ ?_ ?_
  · intro x hx
    rcases List.mem_append.mp hx with hx | hx
    · exact h.queued x hx
    · rwa [List.mem_singleton.mp hx]
  · intro desc hc
    rw [Cluster.queue] at hc
    simp only [List.flatMap_append, List.flatMap_singleton, commits, List.map_append,
      ← Multiset.coe_add, Multiset.mem_add] at hc ⊢
    tauto
  · intro key hk
    exact (Multiset.mem_add.mp hk).resolve_left (drop_notMem_commits _ key)

theorem drain (h : InStep p w rest) :
    InStep p (w.setNode p.node { w.node p.node with pendingCommits := [] })
      (w.queue p.node + rest) := by
  refine h.setQueue (fun x hx => absurd hx List.not_mem_nil) ?_ ?_
  · intro desc hc
    rw [add_comm (w.queue p.node)]
    exact Multiset.mem_add.mpr (.inl hc)
  · exact fun key hk => Multiset.mem_add.mpr (.inr hk)

theorem known_directory (m : MetaManager) (key : Key) :
    ({ w with directory := m } : Cluster).known key =
      (m.find key).map fun rec => ⟨key,rec.offset,rec.size⟩ := rfl

theorem commitShard {shard now : ℕ} {descs : List KeyDesc}
    (h : InStep p w (p.commitsIn descs shard + rest))
    (hin : (MetaManager.latest (w.directory.commitGroup (descs.map (KeyDesc.toKeyRecord p.storeId))
      shard)).all (fun rec => w.held p.node rec.key == some ⟨rec.key,rec.offset,rec.size⟩) = true) :
    InStep p { w with directory :=
      w.directory.visitCommit p.storeId now (descs.map (KeyDesc.toKeyRecord p.storeId)) shard }
      rest := by
  have hgroup := fun key => MetaManager.find_visitCommit_group w.directory key shard p.storeId now
    (descs.map (KeyDesc.toKeyRecord p.storeId))
  -- the commits that are settled are those of keys that the shard has now
  have hcommit : ∀ desc : KeyDesc, desc.key ∉ (w.directory.commitGroup
      (descs.map (KeyDesc.toKeyRecord p.storeId)) shard).map KeyRecord.key →
      .commit desc ∈ p.commitsIn descs shard + rest + w.queue p.node →
      .commit desc ∈ rest + w.queue p.node := by
    intro desc hnot hc
    rw [add_assoc] at hc
    refine (Multiset.mem_add.mp hc).resolve_left fun hmem => hnot ?_
    simp only [Placing.commitsIn, Multiset.mem_map, Multiset.mem_filter, Multiset.mem_coe] at hmem
    obtain ⟨d,⟨hd,hname,hshard⟩,hdesc⟩ := hmem
    cases hdesc
    refine List.mem_map.mpr ⟨desc.toKeyRecord p.storeId,?_,rfl⟩
    exact MetaManager.mem_commitGroup.mpr ⟨List.mem_map_of_mem hd,hname,(h.shardOf _).trans hshard⟩
  have hnew : ∀ rec ∈ MetaManager.latest (w.directory.commitGroup
      (descs.map (KeyDesc.toKeyRecord p.storeId)) shard),
      w.held p.node rec.key = some ⟨rec.key,rec.offset,rec.size⟩ := fun rec hrec => by
    simpa using List.all_eq_true.mp hin rec hrec
  constructor
  · rw [← h.hash]
    exact MetaManager.hash_visitCommit _ _ _ _ _
  · rw [← h.shardCount]
    exact MetaManager.shardCount_visitCommit _ _ _ _ _
  · exact h.served
  · exact h.connected
  · exact h.queued
  · exact h.sound
  · intro key rec hrec
    rcases hgroup key with ⟨-,heq⟩ | ⟨_,-,-,old,heq⟩
    · exact h.owner (heq.symm.trans hrec)
    · have hrec := heq.symm.trans hrec
      cases hrec
      rfl
  · intro key desc hk
    rw [known_directory] at hk
    rcases hgroup key with ⟨hnot,heq⟩ | ⟨rec,hrec,rfl,old,heq⟩
    · rw [heq] at hk
      obtain ⟨desc',hd,hor⟩ := h.known hk
      refine ⟨desc',hd,hor.imp_right (hcommit desc' ?_)⟩
      rwa [h.held_key hd]
    · rw [heq] at hk
      cases hk
      exact ⟨_,hnew rec hrec,.inl rfl⟩
  · intro key desc hd
    obtain ⟨hname,hor⟩ := h.held hd
    refine ⟨hname,?_⟩
    rw [known_directory]
    rcases hgroup key with ⟨hnot,heq⟩ | ⟨rec,hrec,rfl,old,heq⟩
    · rw [heq]
      rcases hor with hdropped | hk | hc
      · left
        refine (Multiset.mem_add.mp hdropped).resolve_left fun hmem => ?_
        simp [Placing.commitsIn] at hmem
      · exact .inr (.inl hk)
      · refine .inr (.inr (hcommit desc ?_ hc))
        rwa [h.held_key hd]
    · have hd : w.held p.node rec.key = some desc := hd
      rw [hnew rec hrec] at hd
      cases hd
      rw [heq]
      exact .inr (.inl rfl)

theorem removeShard {shard : ℕ} {keys : List Key} (h : InStep p w rest) :
    InStep p { w with directory := w.directory.visitRemove keys shard }
      (p.dropsIn keys shard + rest) := by
  have hknown : ∀ key, (Cluster.known { w with directory := w.directory.visitRemove keys shard } key) =
      if key ∈ w.directory.removeGroup keys shard then none else w.known key := by
    intro key
    rw [known_directory, MetaManager.find_visitRemove]
    split <;> rfl
  constructor
  · rw [← h.hash]
    exact MetaManager.hash_visitRemove _ _ _
  · rw [← h.shardCount]
    exact MetaManager.shardCount_visitRemove _ _ _
  · exact h.served
  · exact h.connected
  · exact h.queued
  · exact h.sound
  · intro key rec hrec
    rw [MetaManager.find_visitRemove] at hrec
    split at hrec
    · cases hrec
    · exact h.owner hrec
  · intro key desc hk
    rw [hknown] at hk
    split at hk
    · cases hk
    · obtain ⟨desc',hd,hor⟩ := h.known hk
      refine ⟨desc',hd,hor.imp_right fun hc => ?_⟩
      rw [add_assoc]
      exact Multiset.mem_add.mpr (.inr hc)
  · intro key desc hd
    obtain ⟨hname,hor⟩ := h.held hd
    refine ⟨hname,?_⟩
    rw [hknown]
    split
    · next hk =>
      obtain ⟨hk,hshard⟩ := MetaManager.mem_removeGroup.mp hk
      rw [h.shardOf] at hshard
      left
      simp [Placing.dropsIn, hk, hshard]
    · rcases hor with hdropped | hk | hc
      · exact .inl (Multiset.mem_add.mpr (.inr hdropped))
      · exact .inr (.inl hk)
      · rw [add_assoc]
        exact .inr (.inr (Multiset.mem_add.mpr (.inr hc)))

theorem step {op : ClusterCall} {c : ClusterChoice} {r : op.Res} (h : InStep p w (used + rest))
    (hin : w.inTime p.node op = true) (hs : w.step true op c = some (r,w'))
    (hr : Delivery.rule p op r used made) : InStep p w' (made + rest) := by
  cases op with
  | atStore i op =>
    obtain ⟨rfl,hlocal,hr⟩ := hr
    obtain ⟨⟨r,s⟩,hstore,hx⟩ := Option.map_eq_some_iff.mp hs
    cases hx
    exact h.atStore hin hlocal hstore hr
  | pushCommit i commit =>
    obtain ⟨rfl,hid,rfl,rfl⟩ := hr
    cases hs
    rw [zero_add]
    exact h.push hid
  | drainCommits i =>
    obtain ⟨rfl,rfl,rfl⟩ := hr
    cases hs
    rw [zero_add] at h
    exact h.drain
  | commitShard incarnation shard storeId now records =>
    obtain ⟨rfl,rfl,rfl,descs,rfl,rfl⟩ := hr
    cases hs
    rw [if_pos h.served.symm, zero_add]
    exact h.commitShard hin
  | removeShard incarnation shard storeId keys =>
    obtain ⟨rfl,rfl,rfl⟩ := hr
    cases hs
    rw [zero_add] at h
    rw [if_pos h.served.symm]
    exact h.removeShard
  | answer incarnation arrives =>
    obtain ⟨rfl,descs,rfl⟩ := hr
    cases hs
    refine h.transport rfl rfl (fun _ => rfl) h.queued h.sound (fun _ => rfl) ?_ ?_
    · intro desc hname hc
      simpa [nameless, hname] using hc
    · intro key _ hk
      simpa [nameless] using hk
  | deliver carries =>
    obtain ⟨rfl,rfl⟩ := hr
    simp only [Cluster.step] at hs
    split at hs
    · cases hs
    · cases hs
      exact h
  | storeConnected | register | giveUp | restartMeta => exact hr.elim
  | _ =>
    obtain ⟨rfl,rfl⟩ := hr
    cases hs
    exact h

theorem guar {op : ClusterCall} {c : ClusterChoice} {r : op.Res} (h : InStep p w owed)
    (hs : w.step true op c = some (r,w')) : Delivery.guar p op r := by
  cases op with
  | loadConnected i skips =>
    cases hs
    exact h.connected i
  | drainCommits i =>
    cases hs
    rintro rfl
    exact h.queued
  | deliver carries =>
    simp only [Cluster.step] at hs
    split at hs
    · cases hs
    · next hlost =>
      cases hs
      simp only [Bool.true_and, Bool.not_eq_true', Bool.not_eq_false, Bool.and_eq_true] at hlost
      obtain ⟨harrives,hanswers⟩ := hlost
      simp [Delivery.guar, harrives, hanswers, h.served]
  | shardCount =>
    cases hs
    exact h.shardCount
  | answer incarnation arrives =>
    cases hs
    rintro rfl rfl
    simp [h.served]
  | _ => trivial

/-- Meta and the store start with nothing. -/
theorem init {cfg : ℕ → StoreConfig} {i : ℕ} {hash : Key → ℕ} {n : ℕ} (hn : 0 < n) :
    InStep ⟨i,(cfg i).storeId,hash,n,hn⟩ (.init hash n hn cfg true) 0 where
  hash := rfl
  shardCount := rfl
  served := rfl
  connected := fun _ => rfl
  queued := fun x hx => absurd hx List.not_mem_nil
  sound := StoreMetaIndex.sound_create
  owner := fun hrec => by cases hrec
  known := fun hk => by cases hk
  held := fun hd => by cases hd

theorem keeps (p : Placing) : Keeps (clusterMachine true) (deliveries p)
    (fun w op => w.inTime p.node op = true) fun _ => InStep p where
  guar := fun _ _ _ _ _ _ _ h _ hs => h.guar hs
  step := fun _ _ _ _ _ _ _ _ _ _ h hin hs hr => h.step hin hs hr

/-- Nothing is owed and nothing waits: Meta and the index have the same. -/
theorem agrees (h : InStep p w 0) (hqueue : (w.node p.node).pendingCommits = []) :
    w.Agrees p.node p.storeId := by
  have hnone : w.queue p.node = 0 := by
    rw [Cluster.queue, hqueue]
    rfl
  have hsame : ∀ key, w.known key = w.held p.node key := by
    intro key
    cases hd : w.held p.node key with
    | some desc =>
      obtain ⟨-,hdrop | hk | hc⟩ := h.held hd
      · cases Multiset.notMem_zero _ hdrop
      · exact hk
      · rw [hnone] at hc
        cases Multiset.notMem_zero _ hc
    | none =>
      cases hk : w.known key with
      | none => rfl
      | some desc =>
        obtain ⟨desc',hd',-⟩ := h.known hk
        rw [hd] at hd'
        cases hd'
  intro desc
  have hkey := hsame desc.key
  constructor
  · rintro ⟨m,hm,-,hoff,hsize⟩
    rw [Cluster.known, hm, Option.map_some] at hkey
    obtain ⟨rec,hrec,hdesc⟩ := Option.map_eq_some_iff.mp hkey.symm
    refine ⟨rec,h.sound.mem_entries.mpr ?_,?_⟩
    · rwa [h.sound.keyed hrec]
    · rw [hdesc, hoff, hsize]
  · rintro ⟨rec,hrec,rfl⟩
    have hrec := h.sound.mem_entries.mp hrec
    have hheld : w.held p.node rec.key = some rec.desc := congrArg (Option.map _) hrec
    obtain ⟨m,hm,hdesc⟩ := Option.map_eq_some_iff.mp (hkey.trans hheld)
    exact ⟨m,hm,h.owner hm,congrArg KeyDesc.offset hdesc,congrArg KeyDesc.size hdesc⟩

end InStep

/-- In every run of the threads of one store over a reliable network in which no commit
overtakes a removal or is overtaken by one, Meta agrees with the index when no thread is
running and the queue is empty. -/
theorem agrees_of_inTime {cfg : ℕ → StoreConfig} {i : ℕ} {hash : Key → ℕ} {n : ℕ} (hn : 0 < n)
    {tr : List ClusterEvent} {P : ClusterPool} (hsync : (cfg i).metaSync = true)
    (hrun : ClusterRun cfg true (ClusterOp.isOf i) (fun w op => w.inTime i op = true)
      ⟨.init hash n hn cfg true,[]⟩ tr P)
    (hret : P.Returned) (hqueue : (P.state.node i).pendingCommits = []) :
    P.state.Agrees i (cfg i).storeId := by
  have hstart : ∀ q, (∃ op : ClusterOp, op.isOf i ∧ q = op.run cfg) →
      Uses (deliveries ⟨i,(cfg i).storeId,hash,n,hn⟩) (fun _ g => g = 0) q 0 := by
    rintro q ⟨op,hop,rfl⟩
    exact uses_clusterOp rfl hsync hop
  obtain ⟨gs,hgs,hinv⟩ := Run.shares (InStep.keeps ⟨i,(cfg i).storeId,hash,n,hn⟩) hstart
    ⟨[],.nil,InStep.init hn⟩ hrun
  rw [hret.sum_eq_zero hgs] at hinv
  exact hinv.agrees hqueue

open Ownership

/-- The commit of a batch is drained, then one of its keys is removed. -/
theorem agrees_of_inTime_drained : ∃ tr P, ClusterRun pair true (ClusterOp.isOf 1)
    (fun w op => w.inTime 1 op = true) ⟨start,[]⟩ tr P ∧ P.state.Agrees 1 1 ∧
    P.state.known "k" = none ∧ P.state.known "l" = some ⟨"l",8,8⟩ := by
  obtain ⟨tr,P,hrun,hP⟩ := clusterRun_of_schedule pair true (ClusterOp.isOf 1)
    (fun w op => w.inTime 1 op) start
    [.store 1 (.batchPut ["k","l"] [value 1,value 2] [8,8]),.commitRound 1,.store 1 (.remove "k")]
    (inOrder (List.replicate 10 0 ++ List.replicate 7 1 ++ List.replicate 7 2))
    (f := fun x => (x.2.replies.all Option.isSome,(x.2.state.node 1).pendingCommits.isEmpty,
      x.2.state.known "k",x.2.state.known "l")) (v := (true,true,none,some ⟨"l",8,8⟩))
    (by simp [ClusterOp.isOf]) rfl
  obtain ⟨hret,hP⟩ := Prod.mk.inj hP
  obtain ⟨hqueue,hP⟩ := Prod.mk.inj hP
  obtain ⟨hk,hl⟩ := Prod.mk.inj hP
  exact ⟨tr,P,hrun,agrees_of_inTime (by decide) rfl hrun (List.all_eq_true.mp hret)
    (List.isEmpty_iff.mp hqueue),hk,hl⟩

/-- The commit of a batch is drained after its key was removed. -/
theorem exists_run_not_agrees : ∃ tr P, ClusterRun pair true (ClusterOp.isOf 1) (fun _ _ => True)
    ⟨start,[]⟩ tr P ∧ P.Returned ∧ (P.state.node 1).pendingCommits = [] ∧
    P.state.held 1 "k" = none ∧ P.state.known "k" = some ⟨"k",0,8⟩ ∧ ¬ P.state.Agrees 1 1 := by
  obtain ⟨tr,P,hrun,hP⟩ := clusterRun_of_schedule pair true (ClusterOp.isOf 1)
    (fun _ _ => true) start
    [.store 1 (.batchPut ["k"] [value 1] [8]),.store 1 (.remove "k"),.commitRound 1]
    (inOrder (List.replicate 6 0 ++ List.replicate 7 1 ++ List.replicate 7 2))
    (f := fun x => (x.2.replies.all Option.isSome,(x.2.state.node 1).pendingCommits.isEmpty,
      x.2.state.held 1 "k",(x.2.state.node 1).store.index.getAllCommittedEntries,
      x.2.state.known "k",(x.2.state.directory.find "k").map KeyRecord.storeId))
    (v := (true,true,none,[],some ⟨"k",0,8⟩,some 1)) (by simp [ClusterOp.isOf]) rfl
  obtain ⟨hret,hP⟩ := Prod.mk.inj hP
  obtain ⟨hqueue,hP⟩ := Prod.mk.inj hP
  obtain ⟨hheld,hP⟩ := Prod.mk.inj hP
  obtain ⟨hentries,hP⟩ := Prod.mk.inj hP
  obtain ⟨hknown,howner⟩ := Prod.mk.inj hP
  refine ⟨tr,P,hrun.ok_mono fun _ _ _ => trivial,List.all_eq_true.mp hret,
    List.isEmpty_iff.mp hqueue,hheld,hknown,?_⟩
  intro hagrees
  obtain ⟨m,hm,hdesc⟩ := Option.map_eq_some_iff.mp hknown
  obtain ⟨m',hm',hid⟩ := Option.map_eq_some_iff.mp howner
  obtain rfl : m = m' := Option.some_inj.mp (hm.symm.trans hm')
  obtain ⟨rec,hrec,-⟩ := (hagrees ⟨"k",0,8⟩).mp
    ⟨m,hm,hid,congrArg KeyDesc.offset hdesc,congrArg KeyDesc.size hdesc⟩
  have hentries : (P.state.node 1).store.index.getAllCommittedEntries = [] := hentries
  rw [hentries] at hrec
  cases hrec

end FalconKV
