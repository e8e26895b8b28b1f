import FalconKV.Meta.Ownership
import FalconKV.Meta.Replicas
import FalconKV.Meta.Undertakings

/-! # What a full resync leaves in Meta

A full resync registers the store and pushes every committed entry of its index, and it
takes nothing back. So what Meta has of a store afterwards is exactly the index when Meta
had no record of the store before whose key the index has lost.
-/
namespace FalconKV
open AtomicCalls

def ClusterCall.Lawful : ClusterCall → Prop
  | .atStore _ (.indexPut key record _) => record.key = key ∧ record.stat = 1
  | _ => True

def lawful : Discipline clusterCalls Unit := ⟨fun _ _ => True,fun op _ _ _ => op.Lawful⟩

def ClusterOp.wellRegistered (cfg : ℕ → StoreConfig) : ClusterOp → Prop
  | reconnectRound i info => info.storeId = (cfg i).storeId
  | _ => True

/-- The states after runs of any threads over any network, and restarts of stores, whose
threads end and whose index and queue are empty then. -/
inductive History (cfg : ℕ → StoreConfig) (hash : Key → ℕ) (n : ℕ) (hn : 0 < n) : Cluster → Prop
  | start (connected : Bool) : History cfg hash n hn (.init hash n hn cfg connected)
  | run {w : Cluster} {tr : List ClusterEvent} {P : ClusterPool} (h : History cfg hash n hn w)
      (hrun : ClusterRun cfg false (ClusterOp.wellRegistered cfg) (fun _ _ => True) ⟨w,[]⟩ tr P) :
      History cfg hash n hn P.state
  | restartStore {w : Cluster} (i : ℕ) (h : History cfg hash n hn w) :
      History cfg hash n hn (w.setNode i ⟨.init (cfg i),false,[]⟩)

theorem lawful_of_rule {i storeId : ℕ} (op : ClusterCall) (r : op.Res) (used made : Multiset Duty)
    (h : Undertaking.rule i storeId op r used made) : op.Lawful := by
  cases op with
  | atStore j op =>
    cases op with
    | indexPut key record data => exact ⟨h.2.2.2.1,h.2.2.2.2.1⟩
    | _ => trivial
  | _ => trivial

theorem lawful_clusterOp {cfg : ℕ → StoreConfig} (hsync : ∀ i, (cfg i).metaSync = true)
    {op : ClusterOp} (hop : op.wellRegistered cfg) :
    Uses lawful (fun _ _ => True) (op.run cfg) () := by
  have hforget : ∀ i storeId, Settles i storeId (op.run cfg) 0 →
      Uses lawful (fun _ _ => True) (op.run cfg) () :=
    fun _ _ h => uses_forget (fun _ _ _ => trivial) lawful_of_rule h
  cases op with
  | store i op => exact hforget i _ (settles_clusterOp (hsync i) rfl)
  | commitRound i => exact hforget i _ (settles_clusterOp (hsync i) rfl)
  | reconnectRound i info => exact hforget i _ (settles_clusterOp (hsync i) ⟨rfl,hop⟩)
  | lateCommit id descs => exact hforget 0 0 (settles_lateCommit id descs)
  | lateRemove id keys => exact hforget 0 0 (settles_lateRemove id keys)
  | restartMeta => exact hforget 0 _ (settles_clusterOp (hsync 0) trivial)

/-- Indexes are sound, and Meta has no record without a key. -/
structure Regular (w : Cluster) : Prop where
  sound : ∀ i, (w.node i).store.index.Sound
  nameless : w.directory.find "" = none

namespace Regular

variable {w w' : Cluster}

theorem setNode {i : ℕ} {n : Node} (h : Regular w) (hn : n.store.index.Sound) :
    Regular (w.setNode i n) where
  sound := fun j => by
    by_cases hj : j = i
    · subst hj
      rwa [Cluster.node_setNode]
    · rw [Cluster.node_setNode_ne w n hj]
      exact h.sound j
  nameless := h.nameless

theorem step {op : ClusterCall} {c : ClusterChoice} {r : op.Res} (h : Regular w)
    (hop : op.Lawful) (hs : w.step false op c = some (r,w')) : Regular w' := by
  cases op with
  | atStore i op =>
    obtain ⟨⟨r,s⟩,hstore,hx⟩ := Option.map_eq_some_iff.mp hs
    cases hx
    refine h.setNode ?_
    cases Store.index_step hstore with
    | put key record data hidx =>
      dsimp only
      rw [hidx]
      exact (h.sound i).put hop.1 hop.2
    | remove key snapshot hidx =>
      dsimp only
      rw [hidx]
      exact (h.sound i).remove
    | keep hput hrem hsame => exact hsame.sound (h.sound i)
  | storeConnected i value resync =>
    cases hs
    exact h.setNode (h.sound i)
  | pushCommit i commit =>
    cases hs
    exact h.setNode (h.sound i)
  | drainCommits i =>
    cases hs
    exact h.setNode (h.sound i)
  | commitShard incarnation shard id now records =>
    cases hs
    split
    · exact ⟨h.sound,(MetaManager.find_empty_visitCommit records).trans h.nameless⟩
    · exact h
  | removeShard incarnation shard id keys =>
    cases hs
    split
    · refine ⟨h.sound,?_⟩
      dsimp only
      rw [MetaManager.find_visitRemove, h.nameless]
      split <;> rfl
    · exact h
  | register incarnation info =>
    simp only [Cluster.step] at hs
    split at hs
    · cases hs
      exact ⟨h.sound,(MetaManager.find_registerStore info).trans h.nameless⟩
    · cases hs
      exact h
  | deliver carries =>
    cases hs
    exact h
  | restartMeta =>
    cases hs
    exact ⟨h.sound,rfl⟩
  | _ =>
    cases hs
    exact h

theorem keeps : Keeps (clusterMachine false) lawful (fun _ _ => True) fun _ w _ => Regular w where
  guar := fun _ _ _ _ _ _ _ _ _ _ => trivial
  step := fun _ _ _ _ _ _ _ _ _ _ h _ hs hop => h.step hop hs

end Regular

theorem regular_of_history {cfg : ℕ → StoreConfig} {hash : Key → ℕ} {n : ℕ} {hn : 0 < n}
    (hsync : ∀ i, (cfg i).metaSync = true) {w : Cluster} (h : History cfg hash n hn w) :
    Regular w := by
  induction h with
  | start connected => exact ⟨fun _ => StoreMetaIndex.sound_create,rfl⟩
  | @run w tr P _ hrun ih =>
    have hstart : ∀ q, (∃ op : ClusterOp, op.wellRegistered cfg ∧ q = op.run cfg) →
        Uses lawful (fun _ _ => True) q () := by
      rintro q ⟨op,hop,rfl⟩
      exact lawful_clusterOp hsync hop
    obtain ⟨gs,-,hinv⟩ := Run.shares Regular.keeps hstart ⟨[],.nil,ih⟩ hrun
    exact hinv
  | restartStore i _ ih => exact ih.setNode StoreMetaIndex.sound_create

/-- Meta has this record, of this store. -/
def MetaManager.Has (m : MetaManager) (storeId : ℕ) (rec : StoreKeyRecord) : Prop :=
  ∃ e, m.find rec.key = some e ∧ e.storeId = storeId ∧ e.offset = rec.offset ∧ e.size = rec.size

def Cluster.entries (w : Cluster) (i : ℕ) : List StoreKeyRecord :=
  (w.node i).store.index.getAllCommittedEntries

/-- What a resync of store `i` leaves as it was: the store, and Meta's records of other keys. -/
structure Unchanged (i : ℕ) (w₀ w : Cluster) : Prop where
  store : (w.node i).store = (w₀.node i).store
  others : ∀ key, (key = "" ∨ ∀ rec ∈ w₀.entries i, rec.key ≠ key) →
    w.directory.find key = w₀.directory.find key

structure Known (info : StoreInfo) (records : List StoreKeyRecord) (w : Cluster) : Prop where
  registered : w.directory.stores.lookup info.storeId = some info
  has : ∀ rec ∈ records, rec.key ≠ "" → w.directory.Has info.storeId rec

/-- The state of a resync that has pushed `records`; it may have lost the connection. -/
def Resyncing (i : ℕ) (info : StoreInfo) (w₀ : Cluster) (records : List StoreKeyRecord)
    (w : Cluster) : Prop :=
  Unchanged i w₀ w ∧ ((w.node i).connected = true → Known info records w)

def Cluster.afterCommit (w : Cluster) (storeId now : ℕ) (batch : List StoreKeyRecord) : Cluster :=
  { w with
    directory := w.directory.syncCommit storeId now
      ((batch.map StoreKeyRecord.desc).map (KeyDesc.toKeyRecord storeId)) }

section
variable {i : ℕ} {info : StoreInfo} {w₀ w w' : Cluster} {records batch : List StoreKeyRecord}

theorem Unchanged.refl (i : ℕ) (w : Cluster) : Unchanged i w w := ⟨rfl,fun _ _ => rfl⟩

theorem Unchanged.setConnected (h : Unchanged i w₀ w) (value : Bool) :
    Unchanged i w₀ (w.setNode i { w.node i with connected := value }) where
  store := by
    rw [Cluster.node_setNode]
    exact h.store
  others := h.others

theorem Unchanged.afterCommit (h : Unchanged i w₀ w) (now : ℕ)
    (hbatch : ∀ rec ∈ batch, rec ∈ w₀.entries i) :
    Unchanged i w₀ (w.afterCommit info.storeId now batch) where
  store := h.store
  others := by
    intro key hkey
    refine Eq.trans ?_ (h.others key hkey)
    by_cases hempty : key = ""
    · subst hempty
      exact MetaManager.find_empty_syncCommit _
    · have hnot := hkey.resolve_left hempty
      rcases MetaManager.find_syncCommit ((batch.map StoreKeyRecord.desc).map
        (KeyDesc.toKeyRecord info.storeId)) hempty with ⟨-,heq⟩ | ⟨kr,hkr,hk,-⟩
      · exact heq
      · simp only [List.map_map, List.mem_map, Function.comp_apply] at hkr
        obtain ⟨rec,hrec,rfl⟩ := hkr
        exact absurd hk (hnot rec (hbatch rec hrec))

/-- Entries of a sound index with one key are one entry. -/
theorem Cluster.entry_unique (hsound : (w₀.node i).store.index.Sound) {rec rec' : StoreKeyRecord}
    (h : rec ∈ w₀.entries i) (h' : rec' ∈ w₀.entries i) (hk : rec.key = rec'.key) : rec = rec' := by
  have hf := hsound.mem_entries.mp h
  rw [hk, hsound.mem_entries.mp h'] at hf
  exact (Option.some_inj.mp hf).symm

theorem Known.afterCommit (h : Known info records w) (now : ℕ)
    (hsound : (w₀.node i).store.index.Sound) (hrecords : ∀ rec ∈ records, rec ∈ w₀.entries i)
    (hbatch : ∀ rec ∈ batch, rec ∈ w₀.entries i) :
    Known info (records ++ batch) (w.afterCommit info.storeId now batch) where
  registered := (congrArg (AList.lookup info.storeId) (MetaManager.stores_syncCommit _)).trans
    h.registered
  has := by
    intro rec hrec hkey
    have hentry : rec ∈ w₀.entries i := (List.mem_append.mp hrec).elim (hrecords rec) (hbatch rec)
    rcases MetaManager.find_syncCommit ((batch.map StoreKeyRecord.desc).map
      (KeyDesc.toKeyRecord info.storeId)) hkey with ⟨hnot,heq⟩ | ⟨kr,hkr,hk,old,heq⟩
    · have hold : rec ∈ records := by
        refine (List.mem_append.mp hrec).resolve_right fun hmem => hnot ?_
        simp only [List.map_map]
        exact List.mem_map.mpr ⟨rec,hmem,rfl⟩
      obtain ⟨e,he,hrest⟩ := h.has rec hold hkey
      exact ⟨e,heq.trans he,hrest⟩
    · simp only [List.map_map, List.mem_map, Function.comp_apply] at hkr
      obtain ⟨rec',hrec',rfl⟩ := hkr
      obtain rfl : rec' = rec := Cluster.entry_unique hsound (hbatch rec' hrec') hentry hk
      exact ⟨_,heq,rfl,rfl,rfl⟩

theorem Known.mono {records' : List StoreKeyRecord} (h : Known info records w)
    (hsub : ∀ rec ∈ records', rec ∈ records) : Known info records' w :=
  ⟨h.registered,fun rec hrec => h.has rec (hsub rec hrec)⟩

theorem Known.setNode {n : Node} (h : Known info records w) : Known info records (w.setNode i n) :=
  ⟨h.registered,h.has⟩

end

namespace MetaSyncClient

abbrev Alone {α : Type} (post : α → Cluster → Prop) (p : ClusterProg α) (w : Cluster) : Prop :=
  wp (clusterMachine false) (fun _ _ => True) post p w

variable {i : ℕ} {info : StoreInfo} {w₀ w : Cluster} {records batch : List StoreKeyRecord}

/-- A remote commit may have been served although it fails. -/
theorem alone_rpcCommit (storeId : ℕ) (batch : List StoreKeyRecord) :
    Alone (fun s w' => (s = none ∧ w' = w) ∨
      ((s = none ∨ s = some .OK) ∧ ∃ now, w' = w.afterCommit storeId now batch))
      (rpc (batch.map StoreKeyRecord.desc) fun incarnation =>
        MetaService.syncCommit incarnation storeId (batch.map StoreKeyRecord.desc)) w := by
  refine wp_perform trivial fun c request w₁ h => ?_
  cases h
  cases c.arrives with
  | false => exact .inl ⟨rfl,rfl⟩
  | true =>
    refine wp_bind.mpr (wp_mono (MetaService.wp_syncCommit _) ?_)
    rintro _ _ ⟨rfl,now,rfl⟩
    refine wp_perform trivial fun c' ok w₂ h => ?_
    cases h
    refine .inr ⟨?_,now,rfl⟩
    split
    · exact .inr rfl
    · exact .inl rfl

/-- What the first or the second attempt leaves when it was served. -/
theorem served_batch (hsound : (w₀.node i).store.index.Sound)
    (hrecords : ∀ rec ∈ records, rec ∈ w₀.entries i) (hbatch : ∀ rec ∈ batch, rec ∈ w₀.entries i)
    (now : ℕ) (hunch : Unchanged i w₀ w) (hknown : Known info records w) :
    Unchanged i w₀ (w.afterCommit info.storeId now batch) ∧
      Known info (records ++ batch) (w.afterCommit info.storeId now batch) :=
  ⟨hunch.afterCommit _ hbatch,hknown.afterCommit _ hsound hrecords hbatch⟩

/-- What comes after a failed attempt, served or not. -/
theorem alone_retryCommit (hsound : (w₀.node i).store.index.Sound)
    (hrecords : ∀ rec ∈ records, rec ∈ w₀.entries i) (hbatch : ∀ rec ∈ batch, rec ∈ w₀.entries i)
    (later : List StoreKeyRecord) (hunch : Unchanged i w₀ w) (hknown : Known info records w) :
    Alone (fun s w' => if s.isOk then Resyncing i info w₀ (records ++ batch) w'
      else Unchanged i w₀ w' ∧ (w'.node i).connected = false)
      (do
        invokeCluster (.storeConnected i false false)
        let retry ← rpc (batch.map StoreKeyRecord.desc) fun incarnation =>
          MetaService.syncCommit incarnation info.storeId (batch.map StoreKeyRecord.desc)
        match retry with
        | none => do
          invokeCluster (.giveUp i ((batch ++ later).map StoreKeyRecord.desc))
          pure (.rpcError "SyncCommit RPC failed")
        | some s => do
          invokeCluster (.storeConnected i true false)
          pure (commitStatus s)) w := by
  refine wp_perform trivial fun c r w₁ h => ?_
  cases h
  refine wp_bind.mpr (wp_mono (alone_rpcCommit info.storeId batch) ?_)
  have hunch := hunch.setConnected false
  rintro s w₂ (⟨rfl,rfl⟩ | ⟨hs,now,rfl⟩)
  · refine wp_perform trivial fun c r w₃ h => ?_
    cases h
    exact ⟨hunch,by rw [Cluster.node_setNode]⟩
  · obtain ⟨hunch,hknown⟩ := served_batch hsound hrecords hbatch now hunch hknown.setNode
    rcases hs with rfl | rfl
    · refine wp_perform trivial fun c r w₃ h => ?_
      cases h
      refine ⟨hunch,?_⟩
      rw [Cluster.afterCommit]
      dsimp only
      rw [Cluster.node_setNode]
    · refine wp_perform trivial fun c r w₃ h => ?_
      cases h
      exact ⟨hunch.setConnected true,fun _ => hknown.setNode⟩

theorem alone_syncCommit (hsound : (w₀.node i).store.index.Sound)
    (hrecords : ∀ rec ∈ records, rec ∈ w₀.entries i) (hbatch : ∀ rec ∈ batch, rec ∈ w₀.entries i)
    (later : List StoreKeyRecord) (h : Resyncing i info w₀ records w) :
    Alone (fun s w' => if s.isOk then Resyncing i info w₀ (records ++ batch) w'
      else Unchanged i w₀ w' ∧ (w'.node i).connected = false)
      (syncCommit i info.storeId batch later) w := by
  obtain ⟨hunch,hknown⟩ := h
  refine wp_perform trivial fun c r w₁ h => ?_
  cases h
  cases hc : (w.node i).connected with
  | false => exact ⟨hunch,fun h => by rw [hc] at h; cases h⟩
  | true =>
    have hknown := hknown hc
    refine wp_bind.mpr (wp_mono (alone_rpcCommit info.storeId batch) ?_)
    rintro s w₁ (⟨rfl,rfl⟩ | ⟨hs,now,rfl⟩)
    · exact alone_retryCommit hsound hrecords hbatch later hunch hknown
    · obtain ⟨hunch',hknown'⟩ := served_batch hsound hrecords hbatch now hunch hknown
      have hbefore := hknown'.mono fun rec hrec => List.mem_append_left _ hrec
      rcases hs with rfl | rfl
      · exact alone_retryCommit hsound hrecords hbatch later hunch' hbefore
      · exact ⟨hunch',fun _ => hknown'⟩

theorem alone_pushBatches (hsound : (w₀.node i).store.index.Sound) (bs : List (List StoreKeyRecord))
    (hrecords : ∀ rec ∈ records, rec ∈ w₀.entries i) (hbs : ∀ rec ∈ bs.flatten, rec ∈ w₀.entries i)
    (h : Resyncing i info w₀ records w) :
    Alone (fun _ w' => Resyncing i info w₀ (records ++ bs.flatten) w')
      (pushBatches i info.storeId bs) w := by
  induction bs generalizing records w with
  | nil =>
    have hnil : Resyncing i info w₀ (records ++ [].flatten) w := by simpa using h
    exact hnil
  | cons batch rest ih =>
    have hbatch : ∀ rec ∈ batch, rec ∈ w₀.entries i := fun rec hrec =>
      hbs rec (List.mem_append_left _ hrec)
    refine wp_bind.mpr (wp_mono (alone_syncCommit hsound hrecords hbatch rest.flatten h) ?_)
    intro s w₁ hs
    split at hs
    · next hok =>
      rw [if_neg (by simp [hok])]
      have hall : ∀ rec ∈ records ++ batch, rec ∈ w₀.entries i := fun rec hrec =>
        (List.mem_append.mp hrec).elim (hrecords rec) (hbatch rec)
      have hrest := ih hall (fun rec hrec => hbs rec (List.mem_append_right _ hrec)) hs
      rwa [List.append_assoc] at hrest
    · next hok =>
      rw [if_pos (by simp [hok])]
      refine ⟨hs.1,fun hc => ?_⟩
      rw [hs.2] at hc
      cases hc

theorem alone_rpcRegister (h : Unchanged i w₀ w) :
    Alone (fun s w' => Unchanged i w₀ w' ∧ ∀ x, s = some x → x.isOk = true → Known info [] w')
      (rpc [] fun incarnation => MetaService.storeRegister incarnation info) w := by
  refine wp_perform trivial fun c request w₁ hs => ?_
  cases hs
  cases c.arrives with
  | false => exact ⟨h,fun x hx => by cases hx⟩
  | true =>
    refine wp_perform trivial fun c' s w₁ hs => ?_
    simp only [clusterMachine, Cluster.step, if_pos] at hs
    cases hs
    refine wp_perform trivial fun c'' ok w₂ hs => ?_
    cases hs
    refine ⟨⟨h.store,fun key hkey => ?_⟩,fun x hx hok => ⟨?_,fun rec hrec => by cases hrec⟩⟩
    · exact (MetaManager.find_registerStore info).trans (h.others key hkey)
    · have hx : x = (w.directory.registerStore info).1 := by
        split at hx
        · exact (Option.some_inj.mp hx).symm
        · cases hx
      rw [hx] at hok
      exact MetaManager.lookup_registered hok

def AfterRegister (i : ℕ) (info : StoreInfo) (w₀ : Cluster) (s : Status) (w : Cluster) : Prop :=
  Unchanged i w₀ w ∧ (s.isOk = true → (w.node i).connected = true → Known info [] w)

theorem alone_registerStore (h : Unchanged i w₀ w) :
    Alone (AfterRegister i info w₀) (registerStore i info) w := by
  refine wp_perform trivial fun c r w₁ hs => ?_
  cases hs
  cases hc : (w.node i).connected with
  | false => exact ⟨h,fun _ h => by rw [hc] at h; cases h⟩
  | true =>
    refine wp_bind.mpr (wp_mono (alone_rpcRegister h) ?_)
    rintro s w₁ ⟨hunch,hreg⟩
    cases s with
    | none =>
      refine wp_perform trivial fun c r w₂ hs => ?_
      cases hs
      exact ⟨hunch.setConnected false,fun hok => by cases hok⟩
    | some x =>
      refine ⟨hunch,fun hok _ => hreg x rfl ?_⟩
      split at hok
      · next hx => exact hx
      · cases hok

theorem alone_registerAttempts {attempts : ℕ} {s : Status} (h : Unchanged i w₀ w)
    (hs : attempts = 0 → AfterRegister i info w₀ s w) :
    Alone (AfterRegister i info w₀) (registerAttempts i info attempts s) w := by
  induction attempts generalizing s w with
  | zero => exact hs rfl
  | succ attempts ih =>
    refine wp_bind.mpr (wp_mono (alone_registerStore h) fun s w₁ hs => ?_)
    split
    · exact hs
    · exact ih hs.1 fun _ => hs

theorem alone_fullResync (hsound : (w₀.node i).store.index.Sound) (h : Unchanged i w₀ w) :
    Alone (fun _ w' => Resyncing i info w₀ (w₀.entries i) w') (fullResync i info) w := by
  refine wp_bind.mpr (wp_mono (alone_registerAttempts h nofun) ?_)
  rintro s w₁ ⟨hunch,hreg⟩
  split
  · refine wp_perform trivial fun c r w₂ hs => ?_
    cases hs
    refine ⟨hunch.setConnected false,fun hc => ?_⟩
    rw [Cluster.node_setNode] at hc
    cases hc
  · next hok =>
    refine wp_perform trivial fun c entries w₂ hs => ?_
    cases hs
    have hentries : (w₁.node i).store.index.getAllCommittedEntries = w₀.entries i := by
      rw [hunch.store, Cluster.entries]
    rw [hentries]
    have hflat := flatten_batches (n := 256) (by decide) (le_refl (w₀.entries i).length)
    have hstart : Resyncing i info w₀ [] w₁ := ⟨hunch,hreg (by simpa using hok)⟩
    have hpush := alone_pushBatches hsound (batches 256 (w₀.entries i).length (w₀.entries i))
      (fun rec hrec => by cases hrec) (by rw [hflat]; exact fun _ h => h) hstart
    rwa [hflat, List.nil_append] at hpush

theorem alone_reconnectRound (hsound : (w.node i).store.index.Sound)
    (hc : (w.node i).connected = false) :
    Alone (fun _ w' => Resyncing i info w (w.entries i) w') (reconnectRound i info) w := by
  refine wp_perform trivial fun c r w₁ hs => ?_
  cases hs
  rw [hc]
  refine wp_perform trivial fun c ok w₁ hs => ?_
  cases hs
  cases c.channel with
  | false => exact ⟨.refl i w,fun h => by rw [hc] at h; cases h⟩
  | true =>
    refine wp_perform trivial fun c r w₁ hs => ?_
    cases hs
    exact alone_fullResync hsound ((Unchanged.refl i w).setConnected true)

end MetaSyncClient

/-- A round of the reconnect loop of a disconnected store, with nothing else running, that
ends connected: its full resync has sent all batches. -/
structure Resynced (i : ℕ) (info : StoreInfo) (w w' : Cluster) : Prop where
  disconnected : (w.node i).connected = false
  ran : Exec (clusterMachine false) (fun _ _ => True) (MetaSyncClient.reconnectRound i info) w () w'
  completed : (w'.node i).connected = true

/-- After a full resync the store is registered, Meta has every entry of the index that has a
key, and its records of other keys are those of before. So it agrees with the index iff no
entry lacks a key and Meta had no record of the store under a key that the index has lost. -/
theorem agrees_of_resync_iff {cfg : ℕ → StoreConfig} {hash : Key → ℕ} {n : ℕ} (hn : 0 < n)
    (hsync : ∀ i, (cfg i).metaSync = true) {i : ℕ} {info : StoreInfo} {w w' : Cluster}
    (hist : History cfg hash n hn w) (h : Resynced i info w w') :
    w'.directory.stores.lookup info.storeId = some info ∧ w'.entries i = w.entries i ∧
    (∀ rec ∈ w.entries i, rec.key ≠ "" → w'.directory.Has info.storeId rec) ∧
    (∀ key, (∀ rec ∈ w.entries i, rec.key ≠ key) → w'.directory.find key = w.directory.find key) ∧
    (w'.Agrees i info.storeId ↔ (∀ rec ∈ w.entries i, rec.key ≠ "") ∧
      ∀ key m, w.directory.find key = some m → m.storeId = info.storeId →
        ∃ rec ∈ w.entries i, rec.key = key) := by
  have hregular := regular_of_history hsync hist
  have hpost := (h.ran.of_wp (MetaSyncClient.alone_reconnectRound (hregular.sound i) h.disconnected)).2
  obtain ⟨hunch,hknown⟩ := hpost
  obtain ⟨hreg,hhas⟩ := hknown h.completed
  have hentries : w'.entries i = w.entries i := by
    rw [Cluster.entries, hunch.store, Cluster.entries]
  have hback : ∀ rec ∈ w.entries i, rec ∈ w'.entries i := fun rec hrec => by rwa [hentries]
  have hothers : ∀ key, (∀ rec ∈ w.entries i, rec.key ≠ key) →
      w'.directory.find key = w.directory.find key := fun key hkey => hunch.others key (.inr hkey)
  refine ⟨hreg,hentries,hhas,hothers,?_,?_⟩
  · intro hagrees
    constructor
    · intro rec hrec hempty
      obtain ⟨m,hm,-⟩ := (hagrees rec.desc).mpr ⟨rec,hback rec hrec,rfl⟩
      have hnone : w'.directory.find "" = none :=
        (hunch.others "" (.inl rfl)).trans hregular.nameless
      have hm : w'.directory.find rec.key = some m := hm
      rw [hempty, hnone] at hm
      cases hm
    · intro key m hm hid
      by_contra hnot
      push Not at hnot
      have hm' := (hothers key hnot).trans hm
      obtain ⟨rec,hrec,hdesc⟩ := (hagrees ⟨key,m.offset,m.size⟩).mp ⟨m,hm',hid,rfl,rfl⟩
      have hrec : rec ∈ w.entries i := hentries ▸ hrec
      exact hnot rec hrec (congrArg KeyDesc.key hdesc)
  · rintro ⟨hnamed,hlost⟩ desc
    constructor
    · rintro ⟨m,hm,hid,hoff,hsize⟩
      have hkey : ∃ rec ∈ w.entries i, rec.key = desc.key := by
        by_contra hnot
        push Not at hnot
        obtain ⟨rec,hrec,hk⟩ := hlost desc.key m ((hothers _ hnot).symm.trans hm) hid
        exact hnot rec hrec hk
      obtain ⟨rec,hrec,hk⟩ := hkey
      obtain ⟨e,he,-,heoff,hesize⟩ := hhas rec hrec (hnamed rec hrec)
      rw [hk, hm] at he
      cases he
      refine ⟨rec,hback rec hrec,?_⟩
      rw [StoreKeyRecord.desc, hk, ← heoff, ← hesize, hoff, hsize]
    · rintro ⟨rec,hrec,rfl⟩
      have hrec : rec ∈ w.entries i := hentries ▸ hrec
      exact hhas rec hrec (hnamed rec hrec)

namespace Resync
open Ownership

/-- Stores that have not connected yet, next to a new Meta with one shard. -/
def fresh : Cluster := .init (fun _ => 0) 1 Nat.one_pos pair false

def info : StoreInfo := ⟨1,0,"",""⟩

/-- A round of the reconnect loop in which nothing fails, of `calls` calls. -/
def resync (calls : ℕ) (w : Cluster) : Option (Unit × Cluster) :=
  execWith (clusterMachine false) (fun _ _ => true) (MetaSyncClient.reconnectRound 1 info)
    (List.replicate calls {}) w

theorem resynced_of_resync {calls : ℕ} {w w' : Cluster} (h : resync calls w = some ((),w'))
    (hw : (w.node 1).connected = false) (hw' : (w'.node 1).connected = true) :
    Resynced 1 info w w' :=
  ⟨hw,(exec_of_execWith h).ok_mono fun _ _ _ => trivial,hw'⟩

end Resync

open Ownership Resync

/-- A key that was put before the store had connected is pushed. -/
theorem agrees_of_resync_iff_pushed : ∃ w w', History pair (fun _ => 0) 1 (by decide) w ∧
    Resynced 1 Resync.info w w' ∧ w'.Agrees 1 1 ∧ w'.known "k" = some ⟨"k",0,8⟩ := by
  obtain ⟨tr,P,hrun,hP⟩ := clusterRun_of_schedule pair false (ClusterOp.wellRegistered pair)
    (fun _ _ => true) fresh [.store 1 (.put "k" (value 1) 8)] (inOrder (List.replicate 6 0))
    (f := fun x => ((x.2.state.node 1).connected,x.2.state.directory,
      (x.2.state.entries 1).map StoreKeyRecord.key,
      (resync 14 x.2.state).map fun y => ((y.2.node 1).connected,y.2.known "k")))
    (v := (false,fresh.directory,["k"],some (true,some ⟨"k",0,8⟩)))
    (by simp [ClusterOp.wellRegistered]) rfl
  obtain ⟨hw,hP⟩ := Prod.mk.inj hP
  obtain ⟨hdir,hP⟩ := Prod.mk.inj hP
  obtain ⟨hkeys,hP⟩ := Prod.mk.inj hP
  obtain ⟨⟨⟨⟩,w'⟩,hresync,hw'⟩ := Option.map_eq_some_iff.mp hP
  obtain ⟨hconn,hknown⟩ := Prod.mk.inj hw'
  have hist : History pair (fun _ => 0) 1 (by decide) P.state :=
    .run (.start false) (hrun.ok_mono fun _ _ _ => trivial)
  have hresynced := resynced_of_resync hresync hw hconn
  refine ⟨P.state,w',hist,hresynced,?_,hknown⟩
  refine (agrees_of_resync_iff (by decide) (fun _ => rfl) hist hresynced).2.2.2.2.mpr ⟨?_,?_⟩
  · intro rec hrec
    have hmem : rec.key ∈ (P.state.entries 1).map StoreKeyRecord.key := List.mem_map_of_mem hrec
    have hkeys : (P.state.entries 1).map StoreKeyRecord.key = ["k"] := hkeys
    rw [hkeys, List.mem_singleton] at hmem
    rw [hmem]
    decide
  · intro key m hm
    have hdir : P.state.directory = fresh.directory := hdir
    rw [hdir] at hm
    cases hm

/-- A removal is skipped while the store is not connected, and no resync makes up for it. -/
theorem exists_resync_not_agrees : ∃ w w', History pair (fun _ => 0) 1 (by decide) w ∧
    Resynced 1 Resync.info w w' ∧ w'.held 1 "k" = none ∧ w'.known "k" = some ⟨"k",0,8⟩ ∧
    ¬ w'.Agrees 1 1 := by
  obtain ⟨tr,P,hrun,hP⟩ := clusterRun_of_schedule pair false (ClusterOp.wellRegistered pair)
    (fun _ _ => true) fresh
    [.reconnectRound 1 info,.store 1 (.put "k" (value 1) 8),.store 1 (.remove "k"),.store 1 (.remove "k")]
    (inOrder (List.replicate 8 0 ++ List.replicate 11 1 ++ [2]) ++ [(2,{ arrives := false })] ++
      inOrder ([2] ++ List.replicate 3 3))
    (f := fun x => ((x.2.state.node 1).connected,
      (resync 8 x.2.state).map fun y => ((y.2.node 1).connected,y.2.held 1 "k",y.2.entries 1,
        y.2.known "k",(y.2.directory.find "k").map KeyRecord.storeId)))
    (v := (false,some (true,none,[],some ⟨"k",0,8⟩,some 1)))
    (by simp [ClusterOp.wellRegistered, pair, info]) rfl
  obtain ⟨hw,hP⟩ := Prod.mk.inj hP
  obtain ⟨⟨⟨⟩,w'⟩,hresync,hw'⟩ := Option.map_eq_some_iff.mp hP
  obtain ⟨hconn,hw'⟩ := Prod.mk.inj hw'
  obtain ⟨hheld,hw'⟩ := Prod.mk.inj hw'
  obtain ⟨hentries,hw'⟩ := Prod.mk.inj hw'
  obtain ⟨hknown,howner⟩ := Prod.mk.inj hw'
  refine ⟨P.state,w',.run (.start false) (hrun.ok_mono fun _ _ _ => trivial),
    resynced_of_resync hresync hw hconn,hheld,hknown,fun hagrees => ?_⟩
  obtain ⟨m,hm,hdesc⟩ := Option.map_eq_some_iff.mp hknown
  obtain ⟨m',hm',hid⟩ := Option.map_eq_some_iff.mp howner
  obtain rfl : m = m' := Option.some_inj.mp (hm.symm.trans hm')
  obtain ⟨rec,hrec,-⟩ := (hagrees ⟨"k",0,8⟩).mp
    ⟨m,hm,hid,congrArg KeyDesc.offset hdesc,congrArg KeyDesc.size hdesc⟩
  have hentries : (w'.node 1).store.index.getAllCommittedEntries = [] := hentries
  rw [hentries] at hrec
  cases hrec

end FalconKV
