import FalconKV.Meta.SyncClient

/-! # To which store a key of Meta belongs

The store that commits a key last owns it, until it removes the key itself or Meta is
restarted. Removals erase keys without looking at the owner, so Meta follows this rule
in the runs in which every removal only names keys of its own store.
-/
namespace FalconKV
open AtomicCalls

/-- What a removal in one shard names belongs to the store that removes it. -/
def Cluster.removesOwn (w : Cluster) : ClusterCall → Bool
  | .removeShard incarnation shard storeId keys =>
    incarnation != w.incarnation || (w.directory.removeGroup keys shard).all fun key =>
      (w.directory.find key).all fun rec => rec.storeId == storeId
  | _ => true

def ownersStep (owners : Key → Option ℕ) (e : ClusterEvent) : Key → Option ℕ :=
  match e.op with
  | .commitShard incarnation shard storeId _ records => fun key =>
    if incarnation = e.before.incarnation ∧
        key ∈ (e.before.directory.commitGroup records shard).map KeyRecord.key then some storeId
    else owners key
  | .removeShard incarnation shard storeId keys => fun key =>
    if incarnation = e.before.incarnation ∧ key ∈ e.before.directory.removeGroup keys shard ∧
        owners key = some storeId then none
    else owners key
  | .restartMeta => fun _ => none
  | _ => owners

/-- The owner of each key after a run that starts with an empty Meta. -/
def owners (tr : List ClusterEvent) : Key → Option ℕ := tr.foldl ownersStep fun _ => none

theorem owners_append (tr : List ClusterEvent) (e : ClusterEvent) :
    owners (tr ++ [e]) = ownersStep (owners tr) e := by
  simp [owners]

def OwnersRecorded (tr : List ClusterEvent) (w : Cluster) : Prop :=
  ∀ key, (w.directory.find key).map (fun rec => (rec.storeId,rec.stat)) =
    (owners tr key).map fun storeId => (storeId,1)

variable {w w' : Cluster} {tr : List ClusterEvent} {i : ℕ} {reliable : Bool}

theorem ownersRecorded_commit {incarnation shard storeId now : ℕ} {records : List KeyRecord}
    (h : OwnersRecorded tr w)
    (hw : w' = if incarnation = w.incarnation then
      { w with directory := w.directory.visitCommit storeId now records shard } else w) :
    OwnersRecorded (tr ++ [⟨i,w,.commitShard incarnation shard storeId now records,(),w'⟩]) w' := by
  intro key
  rw [owners_append]
  simp only [ownersStep]
  subst hw
  by_cases hi : incarnation = w.incarnation
  · rw [if_pos hi]
    rcases MetaManager.find_visitCommit_group w.directory key shard storeId now records with
      ⟨hnot,heq⟩ | ⟨rec,hrec,rfl,old,heq⟩
    · rw [if_neg fun hand => hnot hand.2, heq]
      exact h key
    · rw [if_pos ⟨hi,List.mem_map_of_mem ((MetaManager.latest_sublist _).subset hrec)⟩, heq]
      rfl
  · rw [if_neg hi, if_neg fun hand => hi hand.1]
    exact h key

theorem ownersRecorded_remove {incarnation shard storeId : ℕ} {keys : List Key}
    (h : OwnersRecorded tr w) (hown : w.removesOwn (.removeShard incarnation shard storeId keys) = true)
    (hw : w' = if incarnation = w.incarnation then
      { w with directory := w.directory.visitRemove keys shard } else w) :
    OwnersRecorded (tr ++ [⟨i,w,.removeShard incarnation shard storeId keys,(),w'⟩]) w' := by
  intro key
  rw [owners_append]
  simp only [ownersStep]
  subst hw
  by_cases hi : incarnation = w.incarnation
  · rw [if_pos hi]
    dsimp only
    rw [MetaManager.find_visitRemove]
    by_cases hk : key ∈ w.directory.removeGroup keys shard
    · rw [if_pos hk]
      have howner : owners tr key = none ∨ owners tr key = some storeId := by
        have hkey := h key
        simp only [Cluster.removesOwn, hi, bne_self_eq_false, Bool.false_or, List.all_eq_true] at hown
        have hall := hown key hk
        cases hf : w.directory.find key with
        | none =>
          left
          simpa [hf] using hkey.symm
        | some rec =>
          right
          have hid : rec.storeId = storeId := by simpa [hf] using hall
          simp only [hf, Option.map_some] at hkey
          obtain ⟨s,hs,hpair⟩ := Option.map_eq_some_iff.mp hkey.symm
          rw [hs, ← hid, (Prod.mk.inj hpair).1]
      rcases howner with ho | ho
      · simp [ho]
      · rw [if_pos ⟨hi,hk,ho⟩]
        rfl
    · rw [if_neg hk, if_neg fun hand => hk hand.2.1]
      exact h key
  · rw [if_neg hi, if_neg fun hand => hi hand.1]
    exact h key

/-- Calls of neither kind, and no restart, leave Meta's records and the owners alone. -/
theorem ownersRecorded_step {op : ClusterCall} {c : ClusterChoice} {r : op.Res}
    (h : OwnersRecorded tr w) (hown : w.removesOwn op = true)
    (hs : w.step reliable op c = some (r,w')) : OwnersRecorded (tr ++ [⟨i,w,op,r,w'⟩]) w' := by
  have hkeep : ∀ {w' : Cluster} {op : ClusterCall} {r : op.Res},
      (∀ key, w'.directory.find key = w.directory.find key) →
      (∀ o, ownersStep o ⟨i,w,op,r,w'⟩ = o) →
      OwnersRecorded (tr ++ [⟨i,w,op,r,w'⟩]) w' := by
    intro w' op r hd ho key
    rw [owners_append, ho, hd]
    exact h key
  cases op with
  | commitShard incarnation shard storeId now records =>
    cases hs
    exact ownersRecorded_commit h rfl
  | removeShard incarnation shard storeId keys =>
    cases hs
    exact ownersRecorded_remove h hown rfl
  | restartMeta =>
    simp only [Cluster.step] at hs
    split at hs
    · cases hs
    · cases hs
      intro key
      rw [owners_append]
      rfl
  | register incarnation info =>
    simp only [Cluster.step] at hs
    split at hs
    · cases hs
      exact hkeep (fun key => MetaManager.find_registerStore info) fun _ => rfl
    · cases hs
      exact hkeep (fun key => rfl) fun _ => rfl
  | deliver carries =>
    simp only [Cluster.step] at hs
    split at hs
    · cases hs
    · cases hs
      exact hkeep (fun key => rfl) fun _ => rfl
  | atStore j op =>
    obtain ⟨x,-,hx⟩ := Option.map_eq_some_iff.mp hs
    cases hx
    exact hkeep (fun key => rfl) fun _ => rfl
  | _ =>
    cases hs
    exact hkeep (fun key => rfl) fun _ => rfl

/-- Only the owner of a key, or a restart, makes Meta lose it. -/
structure OwnersKept (tr : List ClusterEvent) (P : ClusterPool) : Prop where
  /-- Meta reports a key iff some store has committed it and not removed it since. -/
  reported : ∀ key, P.state.directory.reports key = (owners tr key).isSome
  /-- A removal does not touch what another store has committed last. -/
  spared : ∀ tr₁ e tr₂, tr = tr₁ ++ e :: tr₂ → ∀ incarnation shard storeId keys,
    e.op = .removeShard incarnation shard storeId keys → ∀ key other,
      owners tr₁ key = some other → other ≠ storeId →
        e.after.directory.find key = e.before.directory.find key ∧
        e.after.directory.reports key = true

theorem ownersRecorded_of_run {cfg : ℕ → StoreConfig} {admitted : ClusterOp → Prop}
    {hash : Key → ℕ} {n : ℕ} {hn : 0 < n} {connected : Bool} {P : ClusterPool}
    (h : ClusterRun cfg reliable admitted (fun w op => w.removesOwn op = true)
      ⟨.init hash n hn cfg connected,[]⟩ tr P) : OwnersRecorded tr P.state := by
  refine Run.invariant OwnersRecorded (fun key => rfl) ?_ h
  intro tr i w op c r w' hrec hown hs
  exact ownersRecorded_step hrec hown hs

theorem reports_of_ownersRecorded (h : OwnersRecorded tr w) (key : Key) :
    w.directory.reports key = (owners tr key).isSome := by
  have hkey := h key
  unfold MetaManager.reports
  cases hf : w.directory.find key with
  | none =>
    rw [hf] at hkey
    rw [Option.map_eq_none_iff.mp hkey.symm]
    rfl
  | some rec =>
    rw [hf] at hkey
    obtain ⟨storeId,howner,hpair⟩ := Option.map_eq_some_iff.mp hkey.symm
    rw [howner]
    simp [← (Prod.mk.inj hpair).2]

/-- What a removal names belongs to the store that removes it, so it is not what another owns. -/
theorem find_removeShard_of_owner {incarnation shard storeId other : ℕ} {keys : List Key}
    {c : ClusterChoice} {r : Unit} {key : Key} (h : OwnersRecorded tr w)
    (hown : w.removesOwn (.removeShard incarnation shard storeId keys) = true)
    (hs : w.step reliable (.removeShard incarnation shard storeId keys) c = some (r,w'))
    (howner : owners tr key = some other) (hne : other ≠ storeId) :
    w'.directory.find key = w.directory.find key := by
  cases hs
  split
  · next hi =>
    have hnot : key ∉ w.directory.removeGroup keys shard := by
      intro hk
      have hkey := h key
      rw [howner] at hkey
      obtain ⟨rec,hrec,hpair⟩ := Option.map_eq_some_iff.mp hkey
      simp only [Cluster.removesOwn, hi, bne_self_eq_false, Bool.false_or, List.all_eq_true] at hown
      have hid : rec.storeId = storeId := by simpa [hrec] using hown key hk
      exact hne ((Prod.mk.inj hpair).1.symm.trans hid)
    dsimp only
    rw [MetaManager.find_visitRemove, if_neg hnot]
  · rfl

/-- For one removal: it leaves the records of other stores alone iff it names none of them.
For whole runs: if all removals do so, every key stays with the store that committed it last. -/
theorem ownersKept_of_removesOwn {cfg : ℕ → StoreConfig} {reliable : Bool}
    {admitted : ClusterOp → Prop} {hash : Key → ℕ} {n : ℕ} {hn : 0 < n} {connected : Bool}
    {tr : List ClusterEvent} {P : ClusterPool}
    (hrun : ClusterRun cfg reliable admitted (fun w op => w.removesOwn op = true)
      ⟨.init hash n hn cfg connected,[]⟩ tr P) (m : MetaManager) (storeId : ℕ) (keys : List Key) :
    ((∀ key rec, m.find key = some rec → rec.storeId ≠ storeId →
        (m.syncRemove storeId keys).find key = some rec) ↔
      ∀ key ∈ keys, ∀ rec, m.find key = some rec → rec.storeId = storeId) ∧ OwnersKept tr P := by
  constructor
  · constructor
    · intro hframe key hk rec hrec
      by_contra hne
      have hkept := hframe key rec hrec hne
      rw [MetaManager.find_syncRemove, if_pos hk] at hkept
      cases hkept
    · intro hown key rec hrec hne
      have hnot : key ∉ keys := fun hk => hne (hown key hk rec hrec)
      rw [MetaManager.find_syncRemove, if_neg hnot, hrec]
  · constructor
    · exact reports_of_ownersRecorded (ownersRecorded_of_run hrun)
    · rintro tr₁ ⟨i,w,op,r,w'⟩ tr₂ htr incarnation shard storeId keys he key other howner hne
      obtain ⟨P₁,hrun₁,hstate,hown,c,hstep⟩ := hrun.at_event htr
      have hrec : OwnersRecorded tr₁ w := by
        have hP₁ := ownersRecorded_of_run hrun₁
        rwa [hstate] at hP₁
      dsimp only at he
      subst he
      have hstep : w.step reliable (.removeShard incarnation shard storeId keys) c = some (r,w') :=
        hstep
      have hfind := find_removeShard_of_owner hrec hown hstep howner hne
      refine ⟨hfind,?_⟩
      have hreports : w'.directory.reports key = w.directory.reports key := by
        rw [MetaManager.reports, MetaManager.reports, hfind]
      rw [hreports, reports_of_ownersRecorded hrec, howner]
      rfl

namespace Ownership

/-- Stores of two slots of 8 bytes. -/
def pair (i : ℕ) : StoreConfig := ⟨i,16,8,0,false,true⟩

/-- Every store is connected, and Meta has one shard. -/
def start : Cluster := .init (fun _ => 0) 1 (by decide) pair true

def value (b : UInt8) : Option Bytes := some fun _ => b

def inOrder (threads : List ℕ) : List (ℕ × ClusterChoice) := threads.map fun i => (i,{})

end Ownership

open Ownership

/-- Two stores put keys, and the first removes its own. -/
theorem ownersKept_of_removesOwn_two : ∃ tr P, ClusterRun pair true (fun _ => True)
    (fun w op => w.removesOwn op = true) ⟨start,[]⟩ tr P ∧ OwnersKept tr P ∧
    owners tr "k" = none ∧ owners tr "l" = some 2 := by
  obtain ⟨tr,P,hrun,hP⟩ := clusterRun_of_schedule pair true (fun _ => True) Cluster.removesOwn start
    [.store 1 (.put "k" (value 1) 8),.store 2 (.put "l" (value 2) 8),.store 1 (.remove "k")]
    (inOrder (List.replicate 11 0 ++ List.replicate 11 1 ++ List.replicate 7 2))
    (f := fun x => (owners x.1 "k",owners x.1 "l")) (v := (none,some 2)) (fun _ _ => trivial) rfl
  obtain ⟨hk,hl⟩ := Prod.mk.inj hP
  exact ⟨tr,P,hrun,(ownersKept_of_removesOwn hrun start.directory 1 []).2,hk,hl⟩

/-- A store that does not hold a key removes it from Meta, where another store has committed it. -/
theorem exists_run_not_ownersKept :
    (∃ (m : MetaManager) (storeId : ℕ) (keys : List Key) (key : Key) (rec : KeyRecord),
      m.find key = some rec ∧ rec.storeId ≠ storeId ∧ (m.syncRemove storeId keys).find key = none) ∧
    ∃ tr P, ClusterRun pair true (fun _ => True) (fun _ _ => True) ⟨start,[]⟩ tr P ∧
      owners tr "k" = some 1 ∧ ((P.state.node 1).store.index.find "k").isSome = true ∧
      P.state.directory.reports "k" = false ∧ ¬ OwnersKept tr P := by
  constructor
  · refine ⟨start.directory.syncCommit 1 0 [KeyDesc.toKeyRecord 1 ⟨"k",0,8⟩],2,["k"],"k",
      MetaManager.committed none 1 0 (KeyDesc.toKeyRecord 1 ⟨"k",0,8⟩),rfl,by decide,rfl⟩
  · obtain ⟨tr,P,hrun,hP⟩ := clusterRun_of_schedule pair true (fun _ => True) (fun _ _ => true) start
      [.store 1 (.put "k" (value 1) 8),.store 2 (.remove "k")]
      (inOrder (List.replicate 11 0 ++ List.replicate 6 1))
      (f := fun x => (owners x.1 "k",((x.2.state.node 1).store.index.find "k").isSome,
        x.2.state.directory.reports "k")) (v := (some 1,true,false)) (fun _ _ => trivial) rfl
    obtain ⟨howner,hP⟩ := Prod.mk.inj hP
    obtain ⟨hindex,hreports⟩ := Prod.mk.inj hP
    refine ⟨tr,P,hrun.ok_mono fun _ _ _ => trivial,howner,hindex,hreports,?_⟩
    intro hkept
    have hreported := hkept.reported "k"
    rw [hreports, howner] at hreported
    cases hreported

end FalconKV
