import FalconKV.Meta.Deliveries

/-! # What the client of a store undertakes over any network

Requests and answers may be lost and Meta may be restarted. A duty leaves a thread when
the request that carries it reaches Meta, and otherwise only at calls that are known to
forfeit it: a skip while the flag is false, a resync that is given up, and the failure of
a retried commit.
-/
namespace FalconKV
open AtomicCalls

def IsDrops (g : Multiset Duty) : Prop := ∀ d ∈ g, ∃ key, d = .drop key

theorem isDrops_zero : IsDrops 0 := fun _ hd => absurd hd (Multiset.notMem_zero _)

theorem isDrops_dropped (keys : List Key) (s : Status) : IsDrops (Promise.dropped keys s) := by
  intro d hd
  unfold Promise.dropped at hd
  split at hd
  · obtain ⟨key,-,rfl⟩ := List.mem_map.mp (Multiset.mem_coe.mp hd)
    exact ⟨key,rfl⟩
  · exact absurd hd (Multiset.notMem_zero _)

def AreCommits (descs : List KeyDesc) (g : Multiset Duty) : Prop :=
  ∀ d ∈ g, ∃ desc ∈ descs, d = .commit desc

theorem areCommits_zero (descs : List KeyDesc) : AreCommits descs 0 :=
  fun _ hd => absurd hd (Multiset.notMem_zero _)

theorem areCommits_commits {descs : List KeyDesc} {records : List StoreKeyRecord}
    (h : ∀ rec ∈ records, rec.desc ∈ descs) : AreCommits descs (commits records) := by
  intro d hd
  obtain ⟨rec,hrec,rfl⟩ := List.mem_map.mp (Multiset.mem_coe.mp hd)
  exact ⟨rec.desc,h rec hrec,rfl⟩

theorem AreCommits.add {descs : List KeyDesc} {g g' : Multiset Duty} (h : AreCommits descs g)
    (h' : AreCommits descs g') : AreCommits descs (g + g') := by
  intro d hd
  rcases Multiset.mem_add.mp hd with hd | hd
  · exact h d hd
  · exact h' d hd

namespace Undertaking

def rule (i storeId : ℕ) : (op : ClusterCall) → op.Res → Multiset Duty → Multiset Duty → Prop
  | .atStore j op, r, used, made => j = i ∧ op.isLocal = true ∧ Promise.rule storeId op r used made
  | .loadConnected j skips, c, used, made =>
    j = i ∧ IsDrops made ∧ (used = 0 ∨ c = false ∧ skips = true)
  | .storeConnected j true resync, _, used, made =>
    j = i ∧ used = 0 ∧ made = if resync then {.resync} else 0
  | .storeConnected j false resync, _, used, made =>
    j = i ∧ made = 0 ∧ (used = 0 ∨ resync = true)
  | .pushCommit j commit, _, used, made => j = i ∧ made = 0 ∧ used = commits commit.records
  | .drainCommits j, batch, used, made =>
    j = i ∧ used = 0 ∧ made = commits (batch.flatMap PendingCommit.records)
  | .committedEntries j, entries, used, made =>
    j = i ∧ (used = 0 ∨ used = {.listing}) ∧ made = commits entries
  | .deliver carries, request, used, made =>
    made = 0 ∧ (used = 0 ∨ request.isSome = true ∧ AreCommits carries used)
  | .register _ info, s, used, made =>
    (used = 0 ∧ made = 0) ∨
    (info.storeId = storeId ∧ (∃ x, s = some x ∧ x.isOk = true) ∧ used = {.resync} ∧ made = {.listing})
  | .answer .., _, used, made => used = 0 ∧ IsDrops made
  | .giveUp j descs, _, used, made => j = i ∧ made = 0 ∧ AreCommits descs used
  | _, _, used, made => used = 0 ∧ made = 0

end Undertaking

def undertakings (i storeId : ℕ) : Discipline clusterCalls (Multiset Duty) :=
  ⟨fun _ _ => True,Undertaking.rule i storeId⟩

variable {i storeId : ℕ} {α β : Type} {post : β → Multiset Duty → Prop}

abbrev Settles (i storeId : ℕ) (p : ClusterProg α) (g : Multiset Duty) : Prop :=
  Uses (undertakings i storeId) (fun _ g' => g' = 0) p g

theorem settles_serveCommit (incarnation id : ℕ) (descs : List KeyDesc) :
    Uses (undertakings i storeId) (fun s g => s = some .OK ∧ g = 0)
      (MetaService.syncCommit incarnation id descs) 0 := by
  refine uses_idle (fun _ => ⟨rfl,rfl⟩) fun now _ => ?_
  refine uses_idle (fun _ => ⟨rfl,rfl⟩) fun n _ => ?_
  have hshards : Settles i storeId (Prog.forEach (fun shard => invokeCluster (.commitShard incarnation
      shard id now (descs.map (KeyDesc.toKeyRecord id)))) (List.range n)) 0 :=
    uses_forEach (split_zero fun _ _ => uses_idle (fun _ => ⟨rfl,rfl⟩) fun _ _ => rfl)
  exact uses_bind_keep hshards fun _ => ⟨rfl,rfl⟩

theorem settles_serveRemove (incarnation id : ℕ) (keys : List Key) :
    Uses (undertakings i storeId) (fun s g => s = some .OK ∧ g = 0)
      (MetaService.syncRemove incarnation id keys) 0 := by
  refine uses_idle (fun _ => ⟨rfl,rfl⟩) fun n _ => ?_
  have hshards : Settles i storeId (Prog.forEach (fun shard => invokeCluster (.removeShard incarnation
      shard id keys)) (List.range n)) 0 :=
    uses_forEach (split_zero fun _ _ => uses_idle (fun _ => ⟨rfl,rfl⟩) fun _ _ => rfl)
  exact uses_bind_keep hshards fun _ => ⟨rfl,rfl⟩

/-- After a commit that was sent with the duties `g₀`: settled, unless the request was lost. -/
def Sent (g₀ : Multiset Duty) (s : Option Status) (g : Multiset Duty) : Prop :=
  (s = some .OK ∧ g = 0) ∨ (s = none ∧ (g = 0 ∨ g = g₀))

theorem uses_rpcCommit {carries : List KeyDesc} {id : ℕ} {g : Multiset Duty}
    (hg : AreCommits carries g) : Uses (undertakings i storeId) (Sent g)
      (rpc carries fun incarnation => MetaService.syncCommit incarnation id carries) g := by
  refine uses_perform fun request _ => ?_
  cases request with
  | none => exact ⟨0,0,g,⟨rfl,.inl rfl⟩,(zero_add g).symm,.inr ⟨rfl,.inr (zero_add g)⟩⟩
  | some request =>
    refine ⟨g,0,0,⟨rfl,.inr ⟨rfl,hg⟩⟩,(add_zero g).symm,?_⟩
    refine uses_bind (uses_mono (settles_serveCommit request.1 id carries) ?_)
    rintro _ _ ⟨rfl,rfl⟩
    refine uses_idle (fun _ => ⟨rfl,isDrops_zero⟩) fun ok _ => ?_
    cases ok with
    | true => exact .inl ⟨rfl,rfl⟩
    | false => exact .inr ⟨rfl,.inl rfl⟩

namespace MetaSyncClient

/-- What is left after a commit: the commits of its caller's other records, if it succeeded. -/
def Left (later : List StoreKeyRecord) (s : Status) (g : Multiset Duty) : Prop :=
  if s.isOk then g = commits later else g = 0

theorem settles_syncCommit (id : ℕ) (records later : List StoreKeyRecord) :
    Uses (undertakings i storeId) (Left later) (syncCommit i id records later)
      (commits records + commits later) := by
  have hrecords : AreCommits (records.map StoreKeyRecord.desc) (commits records) :=
    areCommits_commits fun rec hrec => List.mem_map_of_mem hrec
  refine uses_perform fun c _ => ?_
  cases c with
  | false =>
    refine ⟨commits records,0,commits later,⟨rfl,isDrops_zero,?_⟩,rfl,zero_add _⟩
    cases records with
    | nil => exact .inl rfl
    | cons rec records => exact .inr ⟨rfl,rfl⟩
  | true =>
    refine ⟨0,0,_,⟨rfl,isDrops_zero,.inl rfl⟩,(zero_add _).symm,?_⟩
    rw [zero_add]
    refine uses_bind_frame rfl (uses_rpcCommit hrecords) fun first g₁ hfirst => ?_
    rcases hfirst with ⟨rfl,rfl⟩ | ⟨rfl,hg₁⟩
    · exact zero_add _
    · have hsent : AreCommits (records.map StoreKeyRecord.desc) g₁ := by
        rcases hg₁ with rfl | rfl
        · exact areCommits_zero _
        · exact hrecords
      refine uses_idle (fun _ => ⟨rfl,rfl,.inl rfl⟩) fun _ _ => ?_
      refine uses_bind_frame rfl (uses_rpcCommit hsent) fun retry g₂ hretry => ?_
      rcases hretry with ⟨rfl,rfl⟩ | ⟨rfl,hg₂⟩
      · rw [zero_add]
        exact uses_idle (fun _ => ⟨rfl,rfl,rfl⟩) fun _ _ => rfl
      · refine uses_perform fun _ _ => ⟨_,0,0,⟨rfl,rfl,.add ?_ ?_⟩,(add_zero _).symm,rfl⟩
        · intro d hd
          have hd : d ∈ g₁ := by
            rcases hg₂ with rfl | rfl
            · cases Multiset.notMem_zero _ hd
            · exact hd
          obtain ⟨desc,hdesc,rfl⟩ := hsent d hd
          refine ⟨desc,?_,rfl⟩
          rw [List.map_append]
          exact List.mem_append_left _ hdesc
        · exact areCommits_commits fun rec hrec =>
            List.mem_map_of_mem (List.mem_append_right records hrec)

theorem settles_syncCommit_nil (id : ℕ) (records : List StoreKeyRecord) :
    Settles i storeId (syncCommit i id records []) (commits records) := by
  have hnil : ((commits [] : List Duty) : Multiset Duty) = 0 := rfl
  rw [← add_zero (commits records : Multiset Duty), ← hnil]
  refine uses_mono (settles_syncCommit id records []) fun s g hg => ?_
  unfold Left at hg
  split at hg <;> exact hg

theorem settles_asyncCommit (id : ℕ) (records : List StoreKeyRecord) :
    Settles i storeId (asyncCommit i id records) (commits records) := by
  unfold asyncCommit
  split
  · next hempty =>
    rw [List.isEmpty_iff.mp hempty]
    exact rfl
  · intro _ _
    exact ⟨_,0,0,⟨rfl,rfl,rfl⟩,(add_zero _).symm,rfl⟩

theorem settles_commitRound : Settles i storeId (commitRound i) 0 := by
  refine uses_perform fun batch _ => ⟨0,_,0,⟨rfl,rfl,rfl⟩,rfl,?_⟩
  rw [add_zero]
  cases batch with
  | nil => exact rfl
  | cons first rest => exact uses_bind (uses_mono (settles_syncCommit_nil _ _) fun _ _ h => h)

theorem settles_syncRemove (id : ℕ) (keys : List Key) :
    Uses (undertakings i storeId) (fun s g => g = Promise.dropped keys s) (syncRemove i id keys) 0 := by
  have hdrops := isDrops_dropped keys
  refine uses_perform fun c _ => ?_
  cases c with
  | false => exact ⟨0,Promise.dropped keys .OK,0,⟨rfl,hdrops _,.inl rfl⟩,rfl,add_zero _⟩
  | true =>
    refine ⟨0,0,0,⟨rfl,isDrops_zero,.inl rfl⟩,rfl,?_⟩
    have hrpc : Uses (undertakings i storeId) (fun s g => (s = none ∧ g = 0) ∨
        (s = some .OK ∧ g = Promise.dropped keys .OK))
        (rpc [] fun incarnation => MetaService.syncRemove incarnation id keys) 0 := by
      refine uses_idle (fun _ => ⟨rfl,.inl rfl⟩) fun request _ => ?_
      cases request with
      | none => exact .inl ⟨rfl,rfl⟩
      | some request =>
        refine uses_bind (uses_mono (settles_serveRemove request.1 id keys) ?_)
        rintro _ _ ⟨rfl,rfl⟩
        refine uses_perform fun ok _ => ?_
        cases ok with
        | true => exact ⟨0,_,0,⟨rfl,hdrops _⟩,rfl,.inr ⟨rfl,add_zero _⟩⟩
        | false => exact ⟨0,0,0,⟨rfl,isDrops_zero⟩,rfl,.inl ⟨rfl,rfl⟩⟩
    refine uses_bind (uses_mono hrpc ?_)
    rintro _ _ (⟨rfl,rfl⟩ | ⟨rfl,rfl⟩)
    · exact uses_idle (fun _ => ⟨rfl,rfl,.inl rfl⟩) fun _ _ => rfl
    · exact rfl

def Pending (g : Multiset Duty) : Prop := g = {.resync} ∨ g = {.listing}

def Registered (s : Status) (g : Multiset Duty) : Prop :=
  if s.isOk then g = 0 ∨ g = {.listing} else Pending g

theorem settles_registerStore {info : StoreInfo} (hid : info.storeId = storeId) {g : Multiset Duty}
    (hg : Pending g) : Uses (undertakings i storeId) Registered (registerStore i info) g := by
  refine uses_perform fun c _ => ?_
  cases c with
  | false => exact ⟨g,0,0,⟨rfl,isDrops_zero,.inr ⟨rfl,rfl⟩⟩,(add_zero g).symm,.inl rfl⟩
  | true =>
    refine ⟨0,0,g,⟨rfl,isDrops_zero,.inl rfl⟩,(zero_add g).symm,?_⟩
    rw [zero_add]
    have hrpc : Uses (undertakings i storeId) (fun s g' => Pending g' ∧
        ∀ x, s = some x → x.isOk = true → g' = {.listing})
        (rpc [] fun incarnation => MetaService.storeRegister incarnation info) g := by
      refine uses_idle (fun _ => ⟨rfl,.inl rfl⟩) fun request _ => ?_
      cases request with
      | none => exact ⟨hg,fun x hx => by cases hx⟩
      | some request =>
        refine uses_perform fun s _ => ?_
        have hanswer : ∀ {x : Status} {g' : Multiset Duty}, Pending g' →
            (x.isOk = true → g' = {.listing}) → Uses (undertakings i storeId) (fun s g' => Pending g' ∧
              ∀ x, s = some x → x.isOk = true → g' = {.listing})
              (invokeCluster (.answer request.1 request.2) >>= fun ok =>
                pure (if ok then some x else none)) g' := by
          intro x g' hg' hx
          refine uses_idle (fun _ => ⟨rfl,isDrops_zero⟩) fun ok _ => ⟨hg',fun y hy => ?_⟩
          cases ok with
          | true =>
            cases hy
            exact hx
          | false => cases hy
        cases s with
        | none => exact ⟨0,0,g,.inl ⟨rfl,rfl⟩,(zero_add g).symm,by simpa using hg⟩
        | some x =>
          by_cases hx : x.isOk = true
          · rcases hg with rfl | rfl
            · exact ⟨{.resync},{.listing},0,.inr ⟨hid,⟨x,rfl,hx⟩,rfl,rfl⟩,rfl,
                hanswer (.inr rfl) fun _ => rfl⟩
            · refine ⟨0,0,{.listing},.inl ⟨rfl,rfl⟩,rfl,?_⟩
              rw [zero_add]
              exact hanswer (.inr rfl) fun _ => rfl
          · refine ⟨0,0,g,.inl ⟨rfl,rfl⟩,(zero_add g).symm,?_⟩
            rw [zero_add]
            exact hanswer hg fun h => absurd h hx
    refine uses_bind (uses_mono hrpc ?_)
    rintro s g' ⟨hg',hs⟩
    cases s with
    | none => exact uses_idle (fun _ => ⟨rfl,rfl,.inl rfl⟩) fun _ _ => hg'
    | some x =>
      dsimp only
      split
      · next hx => exact .inr (hs x rfl hx)
      · exact hg'

theorem settles_registerAttempts {info : StoreInfo} (hid : info.storeId = storeId) {attempts : ℕ}
    {s : Status} {g : Multiset Duty} (hg : Pending g) (hs : attempts = 0 → s.isOk = false) :
    Uses (undertakings i storeId) Registered (registerAttempts i info attempts s) g := by
  induction attempts generalizing s g with
  | zero =>
    have hs : s.isOk = false := hs rfl
    unfold registerAttempts
    change Registered s g
    rw [Registered, if_neg (by simp [hs])]
    exact hg
  | succ attempts ih =>
    refine uses_bind (uses_mono (settles_registerStore hid hg) ?_)
    intro s g' hs
    split
    · exact hs
    · next hok =>
      rw [Registered, if_neg hok] at hs
      exact ih hs fun _ => by simpa using hok

theorem flatten_batches {γ : Type} {n : ℕ} (hn : 0 < n) {fuel : ℕ} {xs : List γ}
    (h : xs.length ≤ fuel) : (batches n fuel xs).flatten = xs := by
  induction fuel generalizing xs with
  | zero =>
    cases xs with
    | nil => rfl
    | cons x xs => cases h
  | succ fuel ih =>
    cases xs with
    | nil => rfl
    | cons x xs =>
      unfold batches
      rw [List.flatten_cons, ih, List.take_append_drop]
      simp only [List.length_drop, List.length_cons] at h ⊢
      omega

theorem settles_pushBatches (id : ℕ) (bs : List (List StoreKeyRecord)) :
    Settles i storeId (pushBatches i id bs) (commits bs.flatten) := by
  induction bs with
  | nil => exact rfl
  | cons batch rest ih =>
    have hsum : (commits (batch :: rest).flatten : Multiset Duty) =
        commits batch + commits rest.flatten := by
      simp [commits]
    rw [hsum]
    refine uses_bind (uses_mono (settles_syncCommit id batch rest.flatten) ?_)
    intro s g hg
    unfold Left at hg
    split at hg
    · next hs =>
      rw [if_neg (by simp [hs]), hg]
      exact ih
    · next hs =>
      rw [if_pos (by simp [hs])]
      exact hg

theorem settles_fullResync {info : StoreInfo} (hid : info.storeId = storeId) :
    Settles i storeId (fullResync i info) {.resync} := by
  refine uses_bind (uses_mono (settles_registerAttempts hid (.inl rfl) nofun) ?_)
  intro s g hs
  unfold Registered at hs
  split at hs
  · next hok =>
    rw [if_neg (by simp [hok])]
    refine uses_perform fun entries _ => ⟨g,_,0,⟨rfl,hs,rfl⟩,(add_zero g).symm,?_⟩
    have hpush : Settles i storeId
        (pushBatches i info.storeId (batches 256 entries.length entries))
        (commits (batches 256 entries.length entries).flatten) := settles_pushBatches _ _
    rw [flatten_batches (by decide) le_rfl] at hpush
    rw [add_zero]
    exact hpush
  · next hok =>
    rw [if_pos (by simpa using hok)]
    intro _ _
    exact ⟨g,0,0,⟨rfl,rfl,.inr rfl⟩,(add_zero g).symm,rfl⟩

theorem settles_reconnectRound {info : StoreInfo} (hid : info.storeId = storeId) :
    Settles i storeId (reconnectRound i info) 0 := by
  refine uses_idle (fun _ => ⟨rfl,isDrops_zero,.inl rfl⟩) fun c _ => ?_
  cases c with
  | true => exact rfl
  | false =>
    refine uses_idle (fun _ => ⟨rfl,rfl⟩) fun ok _ => ?_
    cases ok with
    | false => exact rfl
    | true =>
      refine uses_perform fun _ _ => ⟨0,{.resync},0,⟨rfl,rfl,rfl⟩,rfl,?_⟩
      exact settles_fullResync hid

end MetaSyncClient

def ClusterOp.around (i storeId : ℕ) : ClusterOp → Prop
  | store j _ | commitRound j => j = i
  | reconnectRound j info => j = i ∧ info.storeId = storeId
  | lateCommit id _ | lateRemove id _ => id = storeId
  | restartMeta => True

theorem settles_lateCommit {cfg : ℕ → StoreConfig} (id : ℕ) (descs : List KeyDesc) :
    Settles i storeId ((ClusterOp.lateCommit id descs).run cfg) 0 := by
  refine uses_idle (fun _ => ⟨rfl,.inl rfl⟩) fun request _ => ?_
  cases request with
  | none => exact rfl
  | some request =>
    exact uses_bind (uses_mono (settles_serveCommit request.1 id descs) fun _ _ h => h.2)

theorem settles_lateRemove {cfg : ℕ → StoreConfig} (id : ℕ) (keys : List Key) :
    Settles i storeId ((ClusterOp.lateRemove id keys).run cfg) 0 := by
  refine uses_idle (fun _ => ⟨rfl,.inl rfl⟩) fun request _ => ?_
  cases request with
  | none => exact rfl
  | some request =>
    exact uses_bind (uses_mono (settles_serveRemove request.1 id keys) fun _ _ h => h.2)

theorem settles_clusterOp {cfg : ℕ → StoreConfig} (hsync : (cfg i).metaSync = true)
    {op : ClusterOp} (hop : op.around i (cfg i).storeId) :
    Settles i (cfg i).storeId (op.run cfg) 0 := by
  cases op with
  | store j op =>
    obtain rfl : j = i := hop
    refine uses_bind (uses_mono (uses_interp ?_ (StoreOps.fulfils_run hsync op)) fun _ _ h => h)
    exact uses_atNode (fun _ _ _ _ hop hr => ⟨rfl,hop,hr⟩) (MetaSyncClient.settles_syncCommit_nil _)
      (MetaSyncClient.settles_asyncCommit _) (MetaSyncClient.settles_syncRemove _)
  | commitRound j =>
    obtain rfl : j = i := hop
    exact uses_bind (uses_mono MetaSyncClient.settles_commitRound fun _ _ h => h)
  | reconnectRound j info =>
    obtain ⟨rfl,hid⟩ := hop
    exact uses_bind (uses_mono (MetaSyncClient.settles_reconnectRound hid) fun _ _ h => h)
  | lateCommit id descs => exact settles_lateCommit id descs
  | lateRemove id keys => exact settles_lateRemove id keys
  | restartMeta => exact uses_idle (fun _ => ⟨rfl,rfl⟩) fun _ _ => rfl

end FalconKV
