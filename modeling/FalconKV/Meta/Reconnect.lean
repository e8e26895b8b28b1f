import FalconKV.Meta.Ownership
import FalconKV.Meta.Replicas
import FalconKV.Meta.Undertakings

/-! # Whether a connected store has told Meta everything

While the flag of a client is false, commits and registrations are skipped, and what is
skipped is made up for by the full resync that follows the next connection. The flag can
become true again without a resync, and Meta can be restarted while it is true. In the
runs in which that is never hidden, a connected store that has nothing left to do is
registered and has pushed every committed key.
-/
namespace FalconKV
open AtomicCalls

structure SyncRecord where
  /-- what the requests carried that have reached the running Meta -/
  pushed : List KeyDesc
  /-- whether a remote call has succeeded since Meta was started -/
  answered : Bool
  /-- whether, since the last `TryConnect`, Meta was not restarted, no commit or registration
  was skipped, no resync was given up, and no commit failed with its retry before its records
  had reached Meta -/
  intact : Bool

namespace SyncRecord

def empty : SyncRecord := ⟨[],false,false⟩

def note : (op : ClusterCall) → op.Res → Cluster → SyncRecord → SyncRecord
  | .loadConnected _ skips, c, _, x => { x with intact := x.intact && (c || !skips) }
  | .storeConnected _ value true, _, _, x => { x with intact := value }
  | .deliver carries, request, _, x =>
    if request.isSome then { x with pushed := x.pushed ++ carries } else x
  | .answer .., ok, _, x => { x with answered := x.answered || ok }
  | .giveUp _ descs, _, _, x => { x with intact := x.intact && descs.all fun d => d ∈ x.pushed }
  | .restartMeta, _, _, _ => empty
  | _, _, _, x => x

end SyncRecord

abbrev SyncState := Cluster × SyncRecord

def syncMachine : Machine clusterCalls SyncState := (clusterMachine false).withRecord SyncRecord.note

namespace SyncState

/-- Whenever a retry sets the flag, a remote call succeeds while the flag is set, or a commit
is given up while it is set, nothing was missed since the last `TryConnect`. -/
def nothingHidden (i : ℕ) (x : SyncState) : ClusterCall → Bool
  | .storeConnected _ true false => !x.2.answered || x.2.intact
  | .answer incarnation arrives =>
    !(arrives && incarnation == x.1.incarnation && (x.1.node i).connected) || x.2.intact
  | .giveUp _ descs =>
    !((x.1.node i).connected && x.2.answered) || descs.all fun d => d ∈ x.2.pushed
  | _ => true

def Registered (x : SyncState) (storeId : ℕ) : Prop :=
  (x.1.directory.stores.lookup storeId).isSome = true

/-- Every committed key was pushed to the running Meta, which knows the store. -/
def Synced (i storeId : ℕ) (x : SyncState) : Prop :=
  x.Registered storeId ∧
  ∀ rec ∈ (x.1.node i).store.index.getAllCommittedEntries, rec.desc ∈ x.2.pushed

end SyncState

structure Covered (i storeId : ℕ) (x : SyncState) (owed : Multiset Duty) : Prop where
  sound : (x.1.node i).store.index.Sound
  covered : x.2.intact = true → .resync ∈ owed ∨ (x.Registered storeId ∧ (.listing ∈ owed ∨
    ∀ key desc, x.1.held i key = some desc →
      desc ∈ x.2.pushed ∨ .commit desc ∈ owed + x.1.queue i))
  trusted : (x.1.node i).connected = true → x.2.answered = true → x.2.intact = true

namespace Covered

variable {i storeId : ℕ} {x x' : SyncState} {w w' : Cluster} {m : SyncRecord}
  {owed owed' used made rest : Multiset Duty}

/-- If nothing is missed by it, a step keeps what is owed or pushed, and what it adds to the
index is owed. -/
theorem transport (h : Covered i storeId x owed)
    (hsound : (x'.1.node i).store.index.Sound)
    (htrust : (x'.1.node i).connected = true → x'.2.answered = true → x'.2.intact = true)
    (hintact : x'.2.intact = true → x.2.intact = true)
    (hreg : x.Registered storeId → x'.Registered storeId)
    (hresync : x'.2.intact = true → .resync ∈ owed → .resync ∈ owed')
    (hlisting : x'.2.intact = true → .listing ∈ owed → .listing ∈ owed')
    (hheld : ∀ key desc, x'.1.held i key = some desc →
      x.1.held i key = some desc ∨ .commit desc ∈ owed')
    (hkept : x'.2.intact = true → ∀ desc,
      desc ∈ x.2.pushed ∨ .commit desc ∈ owed + x.1.queue i →
      desc ∈ x'.2.pushed ∨ .commit desc ∈ owed' + x'.1.queue i) :
    Covered i storeId x' owed' := by
  refine ⟨hsound,fun hi => ?_,htrust⟩
  rcases h.covered (hintact hi) with hr | ⟨hr,hl | hall⟩
  · exact .inl (hresync hi hr)
  · exact .inr ⟨hreg hr,.inl (hlisting hi hl)⟩
  · refine .inr ⟨hreg hr,.inr fun key desc hd => ?_⟩
    rcases hheld key desc hd with hold | hnew
    · exact hkept hi desc (hall key desc hold)
    · exact .inr (Multiset.mem_add.mpr (.inl hnew))

/-- More may be owed. -/
theorem owe (h : Covered i storeId x rest) (more : Multiset Duty) :
    Covered i storeId x (more + rest) := by
  refine h.transport h.sound h.trusted id id ?_ ?_ (fun _ _ => .inl) ?_
  · exact fun _ hr => Multiset.mem_add.mpr (.inr hr)
  · exact fun _ hl => Multiset.mem_add.mpr (.inr hl)
  · intro _ desc hd
    refine hd.imp_right fun hc => ?_
    rw [add_assoc]
    exact Multiset.mem_add.mpr (.inr hc)

/-- Less may be owed, if what falls away is no resync and no commit of an unpushed record. -/
theorem forgive (h : Covered i storeId (w,m) (used + rest)) (hused : used = 0 ∨ IsDrops used) :
    Covered i storeId (w,m) rest := by
  have hnot : ∀ d, d ∈ used → ∃ key, d = .drop key := by
    rcases hused with rfl | hdrops
    · exact fun d hd => absurd hd (Multiset.notMem_zero d)
    · exact hdrops
  have hsub : ∀ d, (∀ key, d ≠ .drop key) → d ∈ used + rest → d ∈ rest := by
    intro d hd hmem
    refine (Multiset.mem_add.mp hmem).resolve_left fun h => ?_
    obtain ⟨key,rfl⟩ := hnot d h
    exact hd key rfl
  refine h.transport h.sound h.trusted id id ?_ ?_ (fun _ _ => .inl) ?_
  · exact fun _ => hsub _ nofun
  · exact fun _ => hsub _ nofun
  · intro _ desc hd
    refine hd.imp_right fun hc => ?_
    rcases Multiset.mem_add.mp hc with hc | hc
    · exact Multiset.mem_add.mpr (.inl (hsub _ nofun hc))
    · exact Multiset.mem_add.mpr (.inr hc)

theorem atStore {op : StoreCall} {c : StoreChoice} {r : op.Res} {s : Store}
    (h : Covered i storeId (w,m) (used + rest)) (hlocal : op.isLocal = true)
    (hs : (w.node i).store.step op c = some (r,s)) (hr : Promise.rule storeId op r used made) :
    Covered i storeId (w.setNode i { w.node i with store := s },m) (made + rest) := by
  have hset : ∀ owed, Covered i storeId (w,m) owed → s.index.Sound →
      (∀ key desc, (w.setNode i { w.node i with store := s }).held i key = some desc →
        w.held i key = some desc ∨ .commit desc ∈ owed) →
      Covered i storeId (w.setNode i { w.node i with store := s },m) owed := by
    intro owed h hsound hheld
    refine h.transport ?_ ?_ id id (fun _ => id) (fun _ => id) hheld ?_
    · rwa [Cluster.node_setNode]
    · rw [Cluster.node_setNode]
      exact h.trusted
    · intro _ desc hd
      rwa [Cluster.queue_setStore]
  cases Store.index_step hs with
  | put key record data hidx =>
    obtain ⟨rfl,hkey,hstat,rfl⟩ := hr
    rw [zero_add] at h
    refine hset _ (h.owe _) ?_ ?_
    · rw [hidx]
      exact h.sound.put hkey hstat
    · intro k desc hd
      rw [w.held_put h.sound hkey hidx] at hd
      split at hd
      · cases hd
        exact .inr (by simp)
      · exact .inl hd
  | remove key snapshot hidx =>
    obtain ⟨rfl,rfl⟩ := hr
    rw [zero_add]
    have hdrop : IsDrops {.drop key} := fun d hd => ⟨key,Multiset.mem_singleton.mp hd⟩
    refine hset _ (h.forgive (.inr hdrop)) ?_ ?_
    · rw [hidx]
      exact h.sound.remove
    · intro k desc hd
      rw [w.held_remove hidx] at hd
      split at hd
      · cases hd
      · exact .inl hd
  | keep hput hrem hsame =>
    obtain ⟨rfl,rfl⟩ := Promise.idle_of_local hr hlocal hput hrem
    refine hset _ h (hsame.sound h.sound) fun k desc hd => ?_
    rw [w.held_keep hsame] at hd
    exact .inl hd

/-- Commits move between the threads and the queue. -/
theorem setQueue {q : List PendingCommit} (h : Covered i storeId (w,m) owed)
    (hsum : ∀ d, d ∈ owed + w.queue i →
      d ∈ owed' + (commits (q.flatMap PendingCommit.records) : Multiset Duty))
    (hkeep : ∀ d, (∀ desc, d ≠ .commit desc) → d ∈ owed → d ∈ owed') :
    Covered i storeId (w.setNode i { w.node i with pendingCommits := q },m) owed' := by
  refine h.transport ?_ ?_ id id (fun _ => hkeep _ nofun) (fun _ => hkeep _ nofun) ?_ ?_
  · rw [Cluster.node_setNode]
    exact h.sound
  · rw [Cluster.node_setNode]
    exact h.trusted
  · intro key desc hd
    rw [Cluster.held_setNode] at hd
    exact .inl hd
  · intro _ desc hd
    refine hd.imp_right fun hc => ?_
    rw [Cluster.queue, Cluster.node_setNode]
    exact hsum _ hc

theorem push {commit : PendingCommit} (h : Covered i storeId (w,m) (commits commit.records + rest)) :
    Covered i storeId (w.setNode i { w.node i with
      pendingCommits := (w.node i).pendingCommits ++ [commit] },m) rest := by
  refine h.setQueue ?_ ?_
  · intro d hd
    rw [Cluster.queue] at hd
    simp only [List.flatMap_append, List.flatMap_singleton, commits, List.map_append,
      ← Multiset.coe_add, Multiset.mem_add] at hd ⊢
    tauto
  · intro d hd hmem
    refine (Multiset.mem_add.mp hmem).resolve_left fun hc => ?_
    obtain ⟨rec,-,rfl⟩ := List.mem_map.mp (Multiset.mem_coe.mp hc)
    exact hd rec.desc rfl

theorem drain (h : Covered i storeId (w,m) rest) :
    Covered i storeId (w.setNode i { w.node i with pendingCommits := [] },m)
      (w.queue i + rest) := by
  refine h.setQueue ?_ ?_
  · intro d hd
    rw [add_comm (w.queue i)]
    exact Multiset.mem_add.mpr (.inl hd)
  · exact fun d _ hd => Multiset.mem_add.mpr (.inr hd)

/-- The flag is false afterwards, and nothing is given up except with a resync. -/
theorem disconnect {resync : Bool} (h : Covered i storeId (w,m) (used + rest))
    (hused : used = 0 ∨ resync = true) :
    Covered i storeId (w.setNode i { w.node i with connected := false },
      { m with intact := if resync then false else m.intact }) rest := by
  have hzero : (if resync then false else m.intact) = true → used = 0 := by
    intro hi
    refine hused.resolve_right fun hr => ?_
    rw [if_pos hr] at hi
    cases hi
  have hkeep : (if resync then false else m.intact) = true → ∀ d, d ∈ used + rest → d ∈ rest := by
    intro hi d hd
    rwa [hzero hi, zero_add] at hd
  refine h.transport ?_ ?_ ?_ id (fun hi => hkeep hi _) (fun hi => hkeep hi _) ?_ ?_
  · rw [Cluster.node_setNode]
    exact h.sound
  · intro hc
    rw [Cluster.node_setNode] at hc
    cases hc
  · intro hi
    cases resync with
    | false => exact hi
    | true => cases hi
  · intro key desc hd
    rw [Cluster.held_setNode] at hd
    exact .inl hd
  · intro hi desc hd
    refine hd.imp_right fun hc => ?_
    rw [Cluster.queue, Cluster.node_setNode]
    rwa [hzero hi, zero_add] at hc

/-- A new connection begins with a resync. -/
theorem connect (h : Covered i storeId (w,m) rest) :
    Covered i storeId (w.setNode i { w.node i with connected := true },{ m with intact := true })
      ({.resync} + rest) where
  sound := by
    rw [Cluster.node_setNode]
    exact h.sound
  covered := fun _ => .inl (by simp)
  trusted := fun _ _ => rfl

/-- A retry that has succeeded sets the flag. -/
theorem reconnect (h : Covered i storeId (w,m) rest) (hok : m.answered = true → m.intact = true) :
    Covered i storeId (w.setNode i { w.node i with connected := true },m) rest := by
  refine h.transport ?_ (fun _ => hok) id id (fun _ => id) (fun _ => id) ?_ ?_
  · rw [Cluster.node_setNode]
    exact h.sound
  · intro key desc hd
    rw [Cluster.held_setNode] at hd
    exact .inl hd
  · intro _ desc hd
    rwa [Cluster.queue, Cluster.node_setNode]

/-- Every record of the index is owed once it is listed. -/
theorem list (h : Covered i storeId (w,m) (used + rest)) (hused : used = 0 ∨ used = {.listing}) :
    Covered i storeId (w,m) (commits (w.node i).store.index.getAllCommittedEntries + rest) := by
  refine ⟨h.sound,fun hi => ?_,h.trusted⟩
  have hlisted : ∀ key desc, w.held i key = some desc → desc ∈ m.pushed ∨ .commit desc ∈
      (commits (w.node i).store.index.getAllCommittedEntries : Multiset Duty) + rest + w.queue i := by
    intro key desc hd
    obtain ⟨rec,hrec,rfl⟩ := Cluster.mem_entries_of_held h.sound hd
    have hmem : Duty.commit rec.desc ∈ commits (w.node i).store.index.getAllCommittedEntries :=
      List.mem_map_of_mem hrec
    simp [hmem]
  rcases h.covered hi with hr | ⟨hr,-⟩
  · left
    rcases hused with rfl | rfl
    · rw [zero_add] at hr
      exact Multiset.mem_add.mpr (.inr hr)
    · refine Multiset.mem_add.mpr (.inr ?_)
      simpa using hr
  · exact .inr ⟨hr,.inr hlisted⟩

/-- What a request carries is pushed when it arrives. -/
theorem deliver {carries : List KeyDesc} (h : Covered i storeId (w,m) (used + rest))
    (hused : used = 0 ∨ AreCommits carries used) :
    Covered i storeId (w,{ m with pushed := m.pushed ++ carries }) rest := by
  have hcommits : AreCommits carries used := hused.elim (· ▸ areCommits_zero carries) id
  have hother : ∀ d, (∀ desc, d ≠ .commit desc) → d ∈ used + rest → d ∈ rest := by
    intro d hd hmem
    refine (Multiset.mem_add.mp hmem).resolve_left fun hc => ?_
    obtain ⟨desc,-,rfl⟩ := hcommits d hc
    exact hd desc rfl
  refine h.transport h.sound h.trusted id id (fun _ => hother _ nofun) (fun _ => hother _ nofun)
    (fun _ _ => .inl) ?_
  rintro _ desc (hpushed | hc)
  · exact .inl (List.mem_append_left _ hpushed)
  · rw [add_assoc] at hc
    rcases Multiset.mem_add.mp hc with hc | hc
    · obtain ⟨desc',hmem,he⟩ := hcommits _ hc
      cases he
      exact .inl (List.mem_append_right _ hmem)
    · exact .inr hc

/-- What is given up with a commit was pushed, or something is missed. -/
theorem giveUp {descs : List KeyDesc} (h : Covered i storeId (w,m) (used + rest))
    (hused : AreCommits descs used)
    (hok : (w.node i).connected = true → m.answered = true → (descs.all fun d => d ∈ m.pushed) = true) :
    Covered i storeId (w,{ m with intact := m.intact && descs.all fun d => d ∈ m.pushed }) rest := by
  have hother : ∀ d, (∀ desc, d ≠ .commit desc) → d ∈ used + rest → d ∈ rest := by
    intro d hd hmem
    refine (Multiset.mem_add.mp hmem).resolve_left fun hc => ?_
    obtain ⟨desc,-,rfl⟩ := hused d hc
    exact hd desc rfl
  refine h.transport h.sound ?_ ?_ id (fun _ => hother _ nofun) (fun _ => hother _ nofun)
    (fun _ _ => .inl) ?_
  · exact fun hc ha => Bool.and_eq_true_iff.mpr ⟨h.trusted hc ha,hok hc ha⟩
  · exact fun hi => (Bool.and_eq_true_iff.mp hi).1
  · rintro hi desc (hpushed | hc)
    · exact .inl hpushed
    · rw [add_assoc] at hc
      rcases Multiset.mem_add.mp hc with hc | hc
      · obtain ⟨desc',hmem,he⟩ := hused _ hc
        cases he
        have hall := List.all_eq_true.mp (Bool.and_eq_true_iff.mp hi).2 desc hmem
        exact .inl (of_decide_eq_true hall)
      · exact .inr hc

/-- A call that skips something is made while the flag is false. -/
theorem load {skips : Bool} (h : Covered i storeId (w,m) (used + rest))
    (hused : used = 0 ∨ (w.node i).connected = false ∧ skips = true) :
    Covered i storeId (w,{ m with intact := m.intact && ((w.node i).connected || !skips) }) rest := by
  have hzero : (m.intact && ((w.node i).connected || !skips)) = true → used = 0 := by
    intro hi
    refine hused.resolve_right fun hskip => ?_
    simp [hskip.1, hskip.2] at hi
  have hkeep : ∀ d, (m.intact && ((w.node i).connected || !skips)) = true →
      d ∈ used + rest → d ∈ rest := by
    intro d hi hd
    rwa [hzero hi, zero_add] at hd
  refine h.transport h.sound ?_ ?_ id (hkeep _) (hkeep _) (fun _ _ => .inl) ?_
  · intro hc ha
    have hc : (w.node i).connected = true := hc
    have hi : m.intact = true := h.trusted hc ha
    simp [hc, hi]
  · exact fun hi => (Bool.and_eq_true_iff.mp hi).1
  · intro hi desc hd
    rwa [hzero hi, zero_add] at hd

/-- The records of Meta play no part. -/
theorem setDirectory {d : MetaManager} (h : Covered i storeId (w,m) owed)
    (hd : d.stores = w.directory.stores) : Covered i storeId ({ w with directory := d },m) owed := by
  refine h.transport h.sound h.trusted id ?_ (fun _ => id) (fun _ => id) (fun _ _ => .inl) fun _ _ => id
  intro hr
  unfold SyncState.Registered at hr ⊢
  rwa [hd]

/-- A registration. -/
theorem register {incarnation : ℕ} {info : StoreInfo} {c : ClusterChoice} {s : Option Status}
    (h : Covered i storeId (w,m) (used + rest))
    (hs : w.step false (.register incarnation info) c = some (s,w'))
    (hr : Undertaking.rule i storeId (.register incarnation info) s used made) :
    Covered i storeId (w',m) (made + rest) := by
  simp only [Cluster.step] at hs
  split at hs
  · cases hs
    have hreg : SyncState.Registered (w,m) storeId →
        SyncState.Registered ({ w with directory := (w.directory.registerStore info).2 },m) storeId :=
      MetaManager.lookup_registerStore info
    have hset : ∀ owed, Covered i storeId (w,m) owed → Covered i storeId
        ({ w with directory := (w.directory.registerStore info).2 },m) owed := fun owed h =>
      h.transport h.sound h.trusted id hreg (fun _ => id) (fun _ => id) (fun _ _ => .inl) fun _ _ => id
    rcases hr with ⟨rfl,rfl⟩ | ⟨rfl,⟨y,hy,hok⟩,rfl,rfl⟩
    · exact hset _ h
    · refine ⟨h.sound,fun _ => .inr ⟨?_,.inl (by simp)⟩,h.trusted⟩
      obtain rfl := Option.some_inj.mp hy
      rw [SyncState.Registered, MetaManager.lookup_registered hok]
      rfl
  · cases hs
    rcases hr with ⟨rfl,rfl⟩ | ⟨-,⟨y,hy,-⟩,-,-⟩
    · exact h
    · cases hy

/-- `TryConnect`, the retry of a call, and a client that loses Meta. -/
theorem storeConnected {j : ℕ} {value resync : Bool}
    (h : Covered i storeId (w,m) (used + rest))
    (hok : SyncState.nothingHidden i (w,m) (.storeConnected j value resync) = true)
    (hr : Undertaking.rule i storeId (.storeConnected j value resync) () used made) :
    Covered i storeId (w.setNode j { w.node j with connected := value },
      SyncRecord.note (.storeConnected j value resync) () w m) (made + rest) := by
  cases value with
  | true =>
    obtain ⟨rfl,rfl,rfl⟩ := hr
    rw [zero_add] at h
    cases resync with
    | true => exact h.connect
    | false =>
      have hok : (!m.answered || m.intact) = true := hok
      have hrest : Covered j storeId (w.setNode j { w.node j with connected := true },m) rest :=
        h.reconnect fun ha => by simpa [ha] using hok
      rwa [if_neg Bool.false_ne_true, zero_add]
  | false =>
    obtain ⟨rfl,rfl,hused⟩ := hr
    rw [zero_add]
    cases resync with
    | true => exact h.disconnect hused
    | false => exact h.disconnect hused

/-- A remote call that succeeds while the flag is set trusts what was pushed before. -/
theorem answer {incarnation : ℕ} {arrives : Bool} (h : Covered i storeId (w,m) rest)
    (hok : SyncState.nothingHidden i (w,m) (.answer incarnation arrives) = true) :
    Covered i storeId (w,SyncRecord.note (.answer incarnation arrives)
      (arrives && incarnation == w.incarnation) w m) rest := by
  refine h.transport h.sound ?_ id id (fun _ => id) (fun _ => id) (fun _ _ => .inl) fun _ _ => id
  intro hc ha
  rcases Bool.or_eq_true_iff.mp ha with ha | ha
  · exact h.trusted hc ha
  · have hc : (w.node i).connected = true := hc
    have hok : (!(arrives && incarnation == w.incarnation && (w.node i).connected) || m.intact) = true :=
      hok
    rw [ha, hc] at hok
    exact hok

/-- A request that is lost on its way changes nothing. -/
theorem arrive {carries : List KeyDesc} {request : Option (ℕ × Bool)}
    (h : Covered i storeId (w,m) (used + rest))
    (hused : used = 0 ∨ request.isSome = true ∧ AreCommits carries used) :
    Covered i storeId (w,SyncRecord.note (.deliver carries) request w m) rest := by
  cases request with
  | some request => exact h.deliver (hused.imp_right And.right)
  | none =>
    have hzero : used = 0 := hused.resolve_right fun hc => by cases hc.1
    rwa [hzero, zero_add] at h

theorem restart (h : Covered i storeId (w,m) rest) (directory : MetaManager) (incarnation : ℕ) :
    Covered i storeId ({ w with directory, incarnation },.empty) rest := by
  refine ⟨h.sound,?_,?_⟩
  · intro hi
    cases hi
  · intro _ ha
    cases ha

theorem step {op : ClusterCall} {c : ClusterChoice} {r : op.Res}
    (h : Covered i storeId x (used + rest)) (hok : x.nothingHidden i op = true)
    (hs : syncMachine.step op c x = some (r,x')) (hr : Undertaking.rule i storeId op r used made) :
    Covered i storeId x' (made + rest) := by
  obtain ⟨w,m⟩ := x
  obtain ⟨hs,hm⟩ := Machine.withRecord_step hs
  obtain ⟨w',m'⟩ := x'
  obtain rfl : m' = SyncRecord.note op r w m := hm
  have hs : w.step false op c = some (r,w') := hs
  cases op with
  | atStore j op =>
    obtain ⟨rfl,hlocal,hr⟩ := hr
    obtain ⟨⟨r,s⟩,hstore,hx⟩ := Option.map_eq_some_iff.mp hs
    cases hx
    exact h.atStore hlocal hstore hr
  | loadConnected j skips =>
    obtain ⟨rfl,-,hused⟩ := hr
    cases hs
    exact (h.load hused).owe made
  | storeConnected j value resync =>
    cases hs
    exact h.storeConnected hok hr
  | pushCommit j commit =>
    obtain ⟨rfl,rfl,rfl⟩ := hr
    cases hs
    rw [zero_add]
    exact h.push
  | drainCommits j =>
    obtain ⟨rfl,rfl,rfl⟩ := hr
    cases hs
    rw [zero_add] at h
    exact h.drain
  | committedEntries j =>
    obtain ⟨rfl,hused,rfl⟩ := hr
    cases hs
    exact h.list hused
  | deliver carries =>
    obtain ⟨rfl,hused⟩ := hr
    cases hs
    rw [zero_add]
    exact h.arrive hused
  | register incarnation info => exact h.register hs hr
  | answer incarnation arrives =>
    obtain ⟨rfl,-⟩ := hr
    cases hs
    rw [zero_add] at h
    exact (h.answer hok).owe made
  | giveUp j descs =>
    obtain ⟨rfl,rfl,hused⟩ := hr
    cases hs
    rw [zero_add]
    refine h.giveUp hused fun hc ha => ?_
    have hok : (!((w.node j).connected && m.answered) || descs.all fun d => d ∈ m.pushed) = true := hok
    have hc : (w.node j).connected = true := hc
    simpa [hc, ha] using hok
  | commitShard incarnation shard id now records =>
    obtain ⟨rfl,rfl⟩ := hr
    cases hs
    split
    · exact h.setDirectory (MetaManager.stores_visitCommit _ _ _ _ _)
    · exact h
  | removeShard incarnation shard id keys =>
    obtain ⟨rfl,rfl⟩ := hr
    cases hs
    split
    · exact h.setDirectory (MetaManager.stores_visitRemove _ _ _)
    · exact h
  | restartMeta =>
    obtain ⟨rfl,rfl⟩ := hr
    cases hs
    exact h.restart _ _
  | _ =>
    obtain ⟨rfl,rfl⟩ := hr
    cases hs
    exact h

theorem init {hash : Key → ℕ} {n : ℕ} (hn : 0 < n) (cfg : ℕ → StoreConfig) (connected : Bool) :
    Covered i storeId (.init hash n hn cfg connected,.empty) 0 where
  sound := StoreMetaIndex.sound_create
  covered := nofun
  trusted := nofun

theorem keeps (i storeId : ℕ) : Keeps syncMachine (undertakings i storeId)
    (fun x op => x.nothingHidden i op = true) fun _ => Covered i storeId where
  guar := fun _ _ _ _ _ _ _ _ _ _ => trivial
  step := fun _ _ _ _ _ _ _ _ _ _ h hok hs hr => h.step hok hs hr

theorem synced (h : Covered i storeId (w,m) 0) (hqueue : (w.node i).pendingCommits = [])
    (hconn : (w.node i).connected = true) (hans : m.answered = true) :
    SyncState.Synced i storeId (w,m) := by
  have hnone : w.queue i = 0 := by
    rw [Cluster.queue, hqueue]
    rfl
  rcases h.covered (h.trusted hconn hans) with hr | ⟨hreg,hl | hall⟩
  · exact absurd hr (Multiset.notMem_zero _)
  · exact absurd hl (Multiset.notMem_zero _)
  · refine ⟨hreg,fun rec hrec => ?_⟩
    refine (hall rec.key rec.desc (Cluster.held_of_mem_entries h.sound hrec)).resolve_right ?_
    rw [hnone]
    exact Multiset.notMem_zero _

end Covered

/-- The threads around one store over any network, with restarts of Meta. -/
abbrev SyncRun (cfg : ℕ → StoreConfig) (i : ℕ) (ok : SyncState → ClusterCall → Prop)
    (P : Pool clusterCalls SyncState (Option StoreReply)) (tr : List (Event clusterCalls SyncState))
    (P' : Pool clusterCalls SyncState (Option StoreReply)) : Prop :=
  Run syncMachine (fun p => ∃ op : ClusterOp, op.around i (cfg i).storeId ∧ p = op.run cfg) ok P tr P'

/-- A schedule of threads that start when nothing else runs. -/
theorem syncRun_of_schedule (cfg : ℕ → StoreConfig) (i : ℕ) (check : SyncState → ClusterCall → Bool)
    (x : SyncState) (ops : List ClusterOp) (sched : List (ℕ × ClusterChoice)) {γ : Type}
    {f : List (Event clusterCalls SyncState) × Pool clusterCalls SyncState (Option StoreReply) → γ}
    {v : γ} (hops : ∀ op ∈ ops, op.around i (cfg i).storeId)
    (h : (Pool.follow (M := syncMachine) check sched ⟨x,ops.map (ClusterOp.run cfg)⟩).map f = some v) :
    ∃ tr P, SyncRun cfg i (fun x op => check x op = true) ⟨x,[]⟩ tr P ∧ f (tr,P) = v := by
  refine run_of_schedule _ ?_ h
  intro p hp
  obtain ⟨op,hop,rfl⟩ := List.mem_map.mp hp
  exact ⟨op,hops op hop,rfl⟩

/-- In every run in which nothing that was missed is hidden, a connected store is registered
at Meta and has pushed every committed key, when no thread is running, the queue is empty
and a remote call has succeeded since Meta was started. -/
theorem synced_of_nothingHidden {cfg : ℕ → StoreConfig} {i : ℕ} {hash : Key → ℕ} {n : ℕ}
    (hn : 0 < n) {connected : Bool} {tr : List (Event clusterCalls SyncState)}
    {P : Pool clusterCalls SyncState (Option StoreReply)} (hsync : (cfg i).metaSync = true)
    (hrun : SyncRun cfg i (fun x op => x.nothingHidden i op = true)
      ⟨(.init hash n hn cfg connected,.empty),[]⟩ tr P)
    (hret : P.Returned) (hqueue : (P.state.1.node i).pendingCommits = [])
    (hconn : (P.state.1.node i).connected = true) (hans : P.state.2.answered = true) :
    P.state.Synced i (cfg i).storeId := by
  have hstart : ∀ q, (∃ op : ClusterOp, op.around i (cfg i).storeId ∧ q = op.run cfg) →
      Settles i (cfg i).storeId q 0 := by
    rintro q ⟨op,hop,rfl⟩
    exact settles_clusterOp hsync hop
  obtain ⟨gs,hgs,hinv⟩ := Run.shares (Covered.keeps i (cfg i).storeId) hstart
    ⟨[],.nil,Covered.init hn cfg connected⟩ hrun
  rw [hret.sum_eq_zero hgs] at hinv
  exact hinv.synced hqueue hconn hans

namespace Reconnect
open Ownership

/-- Stores that have not connected yet, next to a new Meta with one shard. -/
def fresh : SyncState := (.init (fun _ => 0) 1 Nat.one_pos pair false,.empty)

def info : StoreInfo := ⟨1,0,"",""⟩

def lose (i : ℕ) : List (ℕ × ClusterChoice) := [(i,{ arrives := false }),(i,{})]

end Reconnect

open Ownership Reconnect

/-- A store connects; the first attempt of a commit is lost, and its retry succeeds. -/
theorem synced_of_nothingHidden_retry : ∃ tr P,
    SyncRun pair 1 (fun x op => x.nothingHidden 1 op = true) ⟨fresh,[]⟩ tr P ∧
    P.state.Synced 1 1 ∧ P.state.2.pushed = [⟨"k",0,8⟩] := by
  obtain ⟨tr,P,hrun,hP⟩ := syncRun_of_schedule pair 1 (fun x op => x.nothingHidden 1 op) fresh
    [.reconnectRound 1 info,.store 1 (.put "k" (value 1) 8)]
    (inOrder (List.replicate 8 0 ++ List.replicate 6 1) ++ lose 1 ++ inOrder (List.replicate 6 1))
    (f := fun x => (x.2.replies.all Option.isSome,(x.2.state.1.node 1).pendingCommits.isEmpty,
      (x.2.state.1.node 1).connected,x.2.state.2.answered,x.2.state.2.pushed))
    (v := (true,true,true,true,[⟨"k",0,8⟩])) (by simp [ClusterOp.around, pair, info]) rfl
  obtain ⟨hret,hP⟩ := Prod.mk.inj hP
  obtain ⟨hqueue,hP⟩ := Prod.mk.inj hP
  obtain ⟨hconn,hP⟩ := Prod.mk.inj hP
  obtain ⟨hans,hpushed⟩ := Prod.mk.inj hP
  exact ⟨tr,P,hrun,synced_of_nothingHidden (by decide) rfl hrun (List.all_eq_true.mp hret)
    (List.isEmpty_iff.mp hqueue) hconn hans,hpushed⟩

/-- Between the lost attempt of one commit and its retry, another thread skips its own. -/
theorem exists_run_not_synced : ∃ tr P, SyncRun pair 1 (fun _ _ => True) ⟨fresh,[]⟩ tr P ∧
    P.Returned ∧ (P.state.1.node 1).pendingCommits = [] ∧ (P.state.1.node 1).connected = true ∧
    P.state.2.answered = true ∧ P.state.1.held 1 "l" = some ⟨"l",8,8⟩ ∧
    ¬ P.state.Synced 1 1 := by
  obtain ⟨tr,P,hrun,hP⟩ := syncRun_of_schedule pair 1 (fun _ _ => true) fresh
    [.reconnectRound 1 info,.store 1 (.put "k" (value 1) 8),.store 1 (.put "l" (value 2) 8)]
    (inOrder (List.replicate 8 0 ++ List.replicate 6 1) ++ lose 1 ++
      inOrder (List.replicate 6 2 ++ List.replicate 6 1))
    (f := fun x => (x.2.replies.all Option.isSome,(x.2.state.1.node 1).pendingCommits.isEmpty,
      (x.2.state.1.node 1).connected,x.2.state.2.answered,x.2.state.1.held 1 "l",
      x.2.state.2.pushed,
      (x.2.state.1.node 1).store.index.getAllCommittedEntries.map StoreKeyRecord.desc))
    (v := (true,true,true,true,some ⟨"l",8,8⟩,[⟨"k",0,8⟩],[⟨"l",8,8⟩,⟨"k",0,8⟩]))
    (by simp [ClusterOp.around, pair, info]) rfl
  obtain ⟨hret,hP⟩ := Prod.mk.inj hP
  obtain ⟨hqueue,hP⟩ := Prod.mk.inj hP
  obtain ⟨hconn,hP⟩ := Prod.mk.inj hP
  obtain ⟨hans,hP⟩ := Prod.mk.inj hP
  obtain ⟨hheld,hP⟩ := Prod.mk.inj hP
  obtain ⟨hpushed,hentries⟩ := Prod.mk.inj hP
  refine ⟨tr,P,hrun.ok_mono fun _ _ _ => trivial,List.all_eq_true.mp hret,
    List.isEmpty_iff.mp hqueue,hconn,hans,hheld,fun hsynced => ?_⟩
  have hmem : (⟨"l",8,8⟩ : KeyDesc) ∈
      (P.state.1.node 1).store.index.getAllCommittedEntries.map StoreKeyRecord.desc := by
    have hentries : (P.state.1.node 1).store.index.getAllCommittedEntries.map StoreKeyRecord.desc =
      [⟨"l",8,8⟩,⟨"k",0,8⟩] := hentries
    rw [hentries]
    exact List.mem_cons_self
  obtain ⟨rec,hrec,hdesc⟩ := List.mem_map.mp hmem
  have hin := hsynced.2 rec hrec
  have hpushed : P.state.2.pushed = [⟨"k",0,8⟩] := hpushed
  rw [hdesc, hpushed] at hin
  revert hin
  decide

end FalconKV
