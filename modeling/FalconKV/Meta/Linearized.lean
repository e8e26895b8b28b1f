import FalconKV.Meta.Interleaved

/-! # Every key of a call at one instant

A call of the directory is not atomic: others may come between its shards. For each single key it
is: it touches the record of a key that it names in one step, and what it answers for the key is
what the record was at this step. The data of the store are looked up afterwards, field by field.
-/
namespace FalconKV
open AtomicCalls

variable {shardOf : Key → ℕ} {tr tr' : List MetaEvent} {i now n : ℕ} {key : Key} {rec : KeyRecord}
  {admits : ℕ → Bool} {keys : List Key}

structure MetaSeen (shardOf : Key → ℕ) (before : List MetaEvent) (e : MetaEvent) : Prop where
  step : ∃ c, metaMachine.step e.op c e.before = some (e.res,e.after)
  find : ∀ key, e.before.find key = bound shardOf before key
  stores : ∀ storeId, e.before.stores.lookup storeId = registered before storeId
  shardOf_eq : e.before.shardOf = shardOf

def MetaStep.clock (op : MetaStep) : ℕ := op.entered.elim 0 Prod.fst

/-- The record that thread `i` copies for a key, at the step at which it touches the key. -/
def ReadAt (shardOf : Key → ℕ) (i : ℕ) (admits : ℕ → Bool) (tr : List MetaEvent) (key : Key)
    (rec : KeyRecord) : Prop :=
  ∃ before e, before ++ [e] <+: tr ∧ e.thread = i ∧ e.op.touches shardOf key = true ∧
    rec = ((bound shardOf before key).bind (KeyRecord.hit admits e.op.clock)).getD .blank

def infoAt (tr : List MetaEvent) (storeId : ℕ) : StoreInfo := (registered tr storeId).getD .unknown

def KeyRecord.storedAt (t₁ t₂ t₃ : List MetaEvent) (rec : KeyRecord) : KeyRecord :=
  { rec with
    nodeId := (infoAt t₁ rec.storeId).nodeId
    dataFile := (infoAt t₂ rec.storeId).dataFile
    storeAddr := (infoAt t₃ rec.storeId).storeAddr }

/-- The answer of thread `i` for a key: the record at the step at which it touches the key, and of
a hit the data of its store at three moments after that. -/
def AnsweredAt (shardOf : Key → ℕ) (i : ℕ) (admits : ℕ → Bool) (tr : List MetaEvent) (key : Key)
    (rec : KeyRecord) : Prop :=
  ∃ before e, before ++ [e] <+: tr ∧ e.thread = i ∧ e.op.touches shardOf key = true ∧
    match (bound shardOf before key).bind (KeyRecord.hit admits e.op.clock) with
    | none => rec = .blank
    | some found => ∃ t₁ t₂ t₃, before ++ [e] <+: t₁ ∧ t₁ <+: t₂ ∧ t₂ <+: t₃ ∧ t₃ <+: tr ∧
        rec = found.storedAt t₁ t₂ t₃

def enteredBy (i : ℕ) (tr : List MetaEvent) : List (ℕ × MetaSection) :=
  (callsOf i tr).filterMap fun c => c.op.entered

theorem prefix_between (t between : List MetaEvent) (e : MetaEvent) : t <+: t ++ [e] ++ between := by
  rw [List.append_assoc]
  exact List.prefix_append _ _

theorem ReadAt.grows (h : ReadAt shardOf i admits tr key rec) (hpre : tr <+: tr') :
    ReadAt shardOf i admits tr' key rec := by
  obtain ⟨before,e,hbefore,hrest⟩ := h
  exact ⟨before,e,hbefore.trans hpre,hrest⟩

theorem AnsweredAt.grows (h : AnsweredAt shardOf i admits tr key rec) (hpre : tr <+: tr') :
    AnsweredAt shardOf i admits tr' key rec := by
  obtain ⟨before,e,hbefore,hthread,htouch,hrec⟩ := h
  refine ⟨before,e,hbefore.trans hpre,hthread,htouch,?_⟩
  split
  · next hnone =>
    rw [hnone] at hrec
    exact hrec
  · next found hfound =>
    rw [hfound] at hrec
    obtain ⟨t₁,t₂,t₃,h₁,h₂,h₃,htr,hrec⟩ := hrec
    exact ⟨t₁,t₂,t₃,h₁,h₂,h₃,htr.trans hpre,hrec⟩

theorem enteredBy_others (h : Others i tr) : enteredBy i tr = [] := by
  rw [enteredBy, h.callsOf]
  rfl

theorem enteredBy_append (i : ℕ) (tr tr' : List MetaEvent) :
    enteredBy i (tr ++ tr') = enteredBy i tr ++ enteredBy i tr' := by
  rw [enteredBy, callsOf_append, List.filterMap_append]
  rfl

/-- A step of thread `i`, whatever the others have done before. -/
theorem enteredBy_step {between : List MetaEvent} (h : Others i between) {m m' : MetaManager}
    {op : MetaStep} {r : op.Res} :
    enteredBy i (tr ++ between ++ [⟨i,m,op,r,m'⟩]) = enteredBy i tr ++ op.entered.toList := by
  rw [enteredBy_append, enteredBy_append, enteredBy_others h, List.append_nil]
  cases hop : op.entered <;> simp [enteredBy, callsOf, Event.answered, hop]

/-- Every record of a key carries the key. -/
theorem bound_keyed (tr : List MetaEvent) (h : bound shardOf tr key = some rec) :
    rec.key = key ∧ key ≠ "" := by
  have hfold : ∀ old, (old.elim True fun rec : KeyRecord => rec.key = key ∧ key ≠ "") →
      ∀ op : MetaStep, (op.act shardOf key old).elim True fun rec => rec.key = key ∧ key ≠ "" := by
    intro old hold op
    unfold MetaStep.act MetaSection.act
    cases hop : op.entered with
    | none => exact hold
    | some x =>
      rw [Option.elim_some]
      split
      · next htouch =>
        have hread : ∀ admits now, (MetaManager.readAct admits now old).elim True
            fun rec => rec.key = key ∧ key ≠ "" := by
          intro admits now
          cases old with
          | none => exact trivial
          | some rec =>
            by_cases ha : admits rec.stat = true
            · simpa [MetaManager.readAct, KeyRecord.touched, KeyRecord.hit, ha] using hold
            · simpa [MetaManager.readAct, KeyRecord.touched, KeyRecord.hit, ha] using hold
        split
        · exact hold
        · next records hsect =>
          rw [hsect] at htouch
          simp only [MetaSection.touches, Bool.and_eq_true, bne_iff_ne] at htouch
          cases hlast : (records.filter fun rec => rec.key = key).getLast? with
          | none => exact hold
          | some last =>
            have hmem := List.mem_filter.mp (List.mem_of_getLast? hlast)
            exact ⟨of_decide_eq_true hmem.2,htouch.2.1⟩
        · exact trivial
        · exact hread _ _
        · exact hread _ _
      · exact hold
  have hall : (bound shardOf tr key).elim True fun rec => rec.key = key ∧ key ≠ "" := by
    apply List.foldlRecOn (motive := fun old : Option KeyRecord => old.elim True fun rec => rec.key = key ∧ key ≠ "")
    · exact trivial
    · intro old hold e _
      exact hfold old hold e.op
  rw [h] at hall
  exact hall

/-- What the loop over the shards keeps, if each of its steps does. -/
theorem leads_visitShards {sect : ℕ → MetaSection} {I : List ℕ → List KeyRecord → List MetaEvent → Prop}
    (hstep : ∀ {done shard results tr between m r m'}, shard ∉ done → I done results tr → Others i between →
      MetaSeen shardOf (tr ++ between) ⟨i,m,.enter now (sect shard) results,r,m'⟩ →
        I (done ++ [shard]) r (tr ++ between ++ [⟨i,m,.enter now (sect shard) results,r,m'⟩]))
    (done : List ℕ) {shards : List ℕ} {results : List KeyRecord} (hnodup : (done ++ shards).Nodup)
    (h : I done results tr) :
    Leads (MetaSeen shardOf) i (fun results tr' => I (done ++ shards) results tr')
      (MetaOps.visitShards sect now shards results) tr := by
  induction shards generalizing done results tr with
  | nil =>
    rw [List.append_nil]
    exact h
  | cons shard shards ih =>
    rw [List.append_cons] at hnodup ⊢
    have hnew : shard ∉ done := by
      intro hmem
      exact List.nodup_append'.mp (hnodup.of_append_left) |>.2.2 hmem (List.mem_singleton_self shard)
    apply leads_perform
    intro between m r m' hothers hseen
    exact ih _ hnodup (hstep hnew h hothers hseen)

theorem entered_visitShards {sect : ℕ → MetaSection} {results : List KeyRecord} {shards : List ℕ}
    (hnodup : shards.Nodup) (h : enteredBy i tr = []) :
    Leads (MetaSeen shardOf) i
      (fun _ tr' => enteredBy i tr' = shards.map fun shard => (now,sect shard))
      (MetaOps.visitShards sect now shards results) tr := by
  apply leads_visitShards (I := fun done _ tr => enteredBy i tr = done.map fun shard => (now,sect shard))
    _ [] hnodup h
  intro done shard results tr between m r m' _ hentered hothers _
  rw [enteredBy_step hothers, hentered, List.map_append]
  rfl

structure Found (shardOf : Key → ℕ) (i : ℕ) (admits : ℕ → Bool) (keys : List Key) (done : List ℕ)
    (results : List KeyRecord) (tr : List MetaEvent) : Prop where
  length : results.length = keys.length
  found : ∀ (p : ℕ) (key : Key), keys[p]? = some key → shardOf key ∈ done →
    ∃ rec, results[p]? = some rec ∧ ReadAt shardOf i admits tr key rec
  blank : ∀ (p : ℕ) (key : Key), keys[p]? = some key → shardOf key ∉ done → results[p]? = some .blank

structure Reads (admits : ℕ → Bool) (keys : List Key) (sect : ℕ → MetaSection) : Prop where
  read : ∀ (m : MetaManager) now shard results,
    m.readSection now (sect shard) results = (MetaManager.visitRead admits now keys (m,results) shard).2
  touches : ∀ (shardOf : Key → ℕ) key shard,
    (sect shard).touches shardOf key = (shardOf key == shard && keys.contains key)

theorem reads_exist (keys : List Key) : Reads (fun stat => stat == 1) keys fun shard => .exist shard keys :=
  ⟨fun _ _ _ _ => rfl,fun _ _ _ => rfl⟩

theorem reads_lookup (keys : List Key) : Reads (fun stat => stat != 2) keys fun shard => .lookup shard keys :=
  ⟨fun _ _ _ _ => rfl,fun _ _ _ => rfl⟩

theorem found_blank (tr : List MetaEvent) : Found shardOf i admits keys [] (keys.map fun _ => .blank) tr where
  length := List.length_map _
  found := by
    intro p key _ hdone
    cases hdone
  blank := by
    intro p key hkey _
    rw [List.getElem?_map, hkey]
    rfl

theorem Found.step {sect : ℕ → MetaSection} (hsect : Reads admits keys sect) {done : List ℕ} {shard : ℕ}
    {results r : List KeyRecord} {between : List MetaEvent} {m m' : MetaManager} (hnew : shard ∉ done)
    (h : Found shardOf i admits keys done results tr)
    (hseen : MetaSeen shardOf (tr ++ between) ⟨i,m,.enter now (sect shard) results,r,m'⟩) :
    Found shardOf i admits keys (done ++ [shard]) r
      (tr ++ between ++ [⟨i,m,.enter now (sect shard) results,r,m'⟩]) := by
  obtain ⟨c,hstep⟩ := hseen.step
  have hr : r = (MetaManager.visitRead admits now keys (m,results) shard).2 :=
    (congrArg Prod.fst (Option.some.inj hstep)).symm.trans (hsect.read m now shard results)
  have hshard : m.shardOf = shardOf := hseen.shardOf_eq
  have hget : ∀ p, r[p]? = if p ∈ m.positionGroup keys shard then results[p]?.map fun old =>
      ((m.find (keys.getD p "")).bind (KeyRecord.hit admits now)).getD old else results[p]? := by
    intro p
    rw [hr, MetaManager.results_visitRead_eq, MetaManager.getElem?_writeHits]
  have hgroup : ∀ {p : ℕ} {key : Key}, keys[p]? = some key →
      (p ∈ m.positionGroup keys shard ↔ shardOf key = shard) := by
    intro p key hkey
    obtain ⟨hlt,rfl⟩ := List.getElem?_eq_some_iff.mp hkey
    rw [MetaManager.mem_positionGroup, hshard]
    simp [hlt]
  refine ⟨?_,?_,?_⟩
  · apply Nat.le_antisymm
    · apply List.getElem?_eq_none_iff.mp
      rw [hget, ← h.length, List.getElem?_eq_none (Nat.le_refl _)]
      simp
    · by_contra hlt
      have hsome : r[r.length]? = none := List.getElem?_eq_none (Nat.le_refl _)
      rw [hget] at hsome
      have hin : r.length < results.length := by
        rw [h.length]
        omega
      rw [List.getElem?_eq_getElem hin] at hsome
      split at hsome <;> cases hsome
  · intro p key hkey hdone
    rw [hget]
    rcases List.mem_append.mp hdone with hold | hdone
    · -- a shard of before
      have hne : shardOf key ≠ shard := by
        intro heq
        exact hnew (heq ▸ hold)
      obtain ⟨rec,hrec,hread⟩ := h.found p key hkey hold
      rw [if_neg (mt (hgroup hkey).mp hne)]
      exact ⟨rec,hrec,hread.grows (List.append_assoc tr _ _ ▸ List.prefix_append _ _)⟩
    · -- the one that is visited
      have heq : shardOf key = shard := List.mem_singleton.mp hdone
      have hblank := h.blank p key hkey (heq ▸ hnew)
      rw [if_pos ((hgroup hkey).mpr heq), hblank]
      refine ⟨_,rfl,tr ++ between,_,List.prefix_refl _,rfl,?_,?_⟩
      · have htouch := hsect.touches shardOf key shard
        simpa [MetaStep.touches, MetaStep.entered, htouch, heq] using List.mem_of_getElem? hkey
      · have hkeyAt : keys.getD p "" = key := by
          rw [List.getD_eq_getElem?_getD, hkey]
          rfl
        have hfind : m.find key = bound shardOf (tr ++ between) key := hseen.find key
        rw [hkeyAt, hfind]
        rfl
  · intro p key hkey hdone
    have hboth := List.mem_append.not.mp hdone
    rw [hget, if_neg fun hmem => hboth (.inr (List.mem_singleton.mpr ((hgroup hkey).mp hmem)))]
    exact h.blank p key hkey fun hmem => hboth (.inl hmem)

theorem infoAt_of_seen {e : MetaEvent} (h : MetaSeen shardOf tr e) (storeId : ℕ) :
    e.before.storeInfo storeId = infoAt tr storeId := by
  rw [MetaManager.storeInfo, h.stores, infoAt]

section
variable {m m' : MetaManager} {storeId : ℕ}

theorem answer_getStoreNodeId {r : ℕ} (h : MetaSeen shardOf tr ⟨i,m,.getStoreNodeId storeId,r,m'⟩) :
    r = (infoAt tr storeId).nodeId := by
  obtain ⟨_,hs⟩ := h.step
  rw [← infoAt_of_seen h]
  exact (congrArg Prod.fst (Option.some.inj hs)).symm

theorem answer_getStoreDataFile {r : String} (h : MetaSeen shardOf tr ⟨i,m,.getStoreDataFile storeId,r,m'⟩) :
    r = (infoAt tr storeId).dataFile := by
  obtain ⟨_,hs⟩ := h.step
  rw [← infoAt_of_seen h]
  exact (congrArg Prod.fst (Option.some.inj hs)).symm

theorem answer_getStoreAddr {r : String} (h : MetaSeen shardOf tr ⟨i,m,.getStoreAddr storeId,r,m'⟩) :
    r = (infoAt tr storeId).storeAddr := by
  obtain ⟨_,hs⟩ := h.step
  rw [← infoAt_of_seen h]
  exact (congrArg Prod.fst (Option.some.inj hs)).symm

end

/-- A result is completed with the data of its store; nothing else is done to it. -/
theorem leads_fill {t : List MetaEvent} {x : KeyRecord} {sections : List (ℕ × MetaSection)}
    (hpre : t <+: tr) (hentered : enteredBy i tr = sections) :
    Leads (MetaSeen shardOf) i
      (fun y tr' => (t <+: tr' ∧ enteredBy i tr' = sections) ∧
        ∀ key, ReadAt shardOf i admits t key x → AnsweredAt shardOf i admits tr' key y)
      (MetaOps.fill x) tr := by
  unfold MetaOps.fill
  split
  · next hkey =>
    refine ⟨⟨hpre,hentered⟩,?_⟩
    rintro key ⟨before,e,hbefore,hthread,htouch,hx⟩
    refine ⟨before,e,hbefore.trans hpre,hthread,htouch,?_⟩
    split
    · next hnone =>
      rw [hnone] at hx
      exact hx
    · next found hfound =>
      -- a record has the key under which it lies
      rw [hfound] at hx
      obtain ⟨rec,hrec,hhit⟩ := Option.bind_eq_some_iff.mp hfound
      obtain ⟨hreckey,hne⟩ := bound_keyed before hrec
      have hfoundkey : found.key = rec.key := by
        unfold KeyRecord.hit at hhit
        split at hhit
        · cases hhit
          rfl
        · cases hhit
      rw [hx] at hkey
      exact absurd (hreckey.symm.trans (hfoundkey.symm.trans hkey)) hne
  · next hkey =>
    apply leads_perform
    intro b₁ m₁ r₁ m₁' ho₁ hseen₁
    apply leads_perform
    intro b₂ m₂ r₂ m₂' ho₂ hseen₂
    apply leads_perform
    intro b₃ m₃ r₃ m₃' ho₃ hseen₃
    have h₁ := answer_getStoreNodeId hseen₁
    have h₂ := answer_getStoreDataFile hseen₂
    have h₃ := answer_getStoreAddr hseen₃
    have hpre₁ : t <+: tr ++ b₁ := hpre.trans (List.prefix_append _ _)
    have hall : t <+: tr ++ b₁ ++ [⟨i,m₁,.getStoreNodeId x.storeId,r₁,m₁'⟩] ++ b₂ ++
        [⟨i,m₂,.getStoreDataFile x.storeId,r₂,m₂'⟩] ++ b₃ ++ [⟨i,m₃,.getStoreAddr x.storeId,r₃,m₃'⟩] :=
      hpre₁.trans ((prefix_between _ _ _).trans ((prefix_between _ _ _).trans (List.prefix_append _ _)))
    refine ⟨⟨hall,?_⟩,?_⟩
    · rw [enteredBy_step ho₃, enteredBy_step ho₂, enteredBy_step ho₁, hentered]
      simp [MetaStep.entered]
    · rintro key ⟨before,e,hbefore,hthread,htouch,hx⟩
      refine ⟨before,e,hbefore.trans hall,hthread,htouch,?_⟩
      split
      · next hnone =>
        rw [hnone] at hx
        subst hx
        exact absurd rfl hkey
      · next found hfound =>
        rw [hfound] at hx
        obtain rfl : x = found := hx
        refine ⟨_,_,_,hbefore.trans hpre₁,prefix_between _ _ _,prefix_between _ _ _,List.prefix_append _ _,?_⟩
        rw [KeyRecord.storedAt, ← h₁, ← h₂, ← h₃]

def MetaCall.visits (shardCount : ℕ) : MetaCall → List MetaSection
  | registerStore info => if info.storeId = 0 then [] else [.register info]
  | call => call.sections shardCount

def MetaCall.Answers (shardOf : Key → ℕ) (i : ℕ) (tr : List MetaEvent) : MetaCall → MetaReply → Prop
  | registerStore info, reply => reply =
    .status (if info.storeId = 0 then .invalidArg "store_id must be non-zero" else .OK)
  | syncCommit .., reply => reply = .status .OK
  | syncRemove .., reply => reply = .status .OK
  | batchExist keys, reply => ∃ records, reply = .records records ∧
    List.Forall₂ (AnsweredAt shardOf i (fun stat => stat == 1) tr) keys records
  | batchLookup keys, reply => ∃ records, reply = .records records ∧
    List.Forall₂ (AnsweredAt shardOf i (fun stat => stat != 2) tr) keys records

/-- A call of thread `i` that has returned: it has entered its sections, each key that it names was
touched in one step, and its answer is of these steps. -/
structure Served (shardOf : Key → ℕ) (shardCount i : ℕ) (tr : List MetaEvent) (call : MetaCall)
    (reply : MetaReply) : Prop where
  sections : ∃ now, enteredBy i tr = (call.visits shardCount).map fun s => (now,s)
  once : ∀ key, tr.countP (fun e => e.thread = i ∧ e.op.touches shardOf key = true) =
    if call.names key then 1 else 0
  answers : call.Answers shardOf i tr reply

theorem countP_shards (h : shardOf key < n) (named : Bool) :
    (List.range n).countP (fun shard => shardOf key == shard && named) = if named then 1 else 0 := by
  cases named with
  | false => simp
  | true =>
    have hone : (List.range n).count (shardOf key) = 1 := by
      rw [List.nodup_range.count, if_pos (List.mem_range.mpr h)]
    rw [if_pos rfl, ← hone, List.count]
    apply List.countP_congr
    intro shard _
    rw [Bool.and_true, beq_iff_eq, beq_iff_eq]
    exact eq_comm

/-- A key belongs to one shard. -/
theorem countP_visits (h : shardOf key < n) (call : MetaCall) :
    (call.visits n).countP (MetaSection.touches shardOf key) = if call.names key then 1 else 0 := by
  cases call with
  | registerStore info =>
    unfold MetaCall.visits
    split <;> simp [MetaSection.touches, MetaCall.names]
  | _ =>
    simp only [MetaCall.visits, MetaCall.sections, List.countP_map]
    exact countP_shards h _

theorem countP_touches (tr : List MetaEvent) (i : ℕ) (key : Key) :
    tr.countP (fun e => e.thread = i ∧ e.op.touches shardOf key = true) =
      (enteredBy i tr).countP fun x => x.2.touches shardOf key := by
  rw [enteredBy, callsOf, List.countP_filterMap, List.countP_map, List.countP_filter]
  apply List.countP_congr
  intro e _
  cases hop : e.op.entered <;> simp [MetaStep.touches, Event.answered, hop, and_comm]

theorem served_of_sections (now : ℕ) (hn : ∀ key, shardOf key < n) {call : MetaCall} {reply : MetaReply}
    (hsections : enteredBy i tr = (call.visits n).map fun s => (now,s))
    (hanswers : call.Answers shardOf i tr reply) : Served shardOf n i tr call reply where
  sections := ⟨now,hsections⟩
  once := by
    intro key
    rw [countP_touches, hsections, List.countP_map, ← countP_visits (hn key) call]
    rfl
  answers := hanswers

/-- A call that has visited all shards. -/
theorem served_of_shards (hn : ∀ key, shardOf key < n) (call : MetaCall) {reply : MetaReply}
    {sect : ℕ → MetaSection} (hvisits : call.visits n = (List.range n).map sect)
    (hsections : enteredBy i tr = (List.range n).map fun shard => (now,sect shard))
    (hanswers : call.Answers shardOf i tr reply) : Served shardOf n i tr call reply := by
  apply served_of_sections now hn _ hanswers
  rw [hsections, hvisits, List.map_map]
  rfl

theorem Served.grows {call : MetaCall} {reply : MetaReply} (h : Served shardOf n i tr call reply)
    (hothers : Others i tr') : Served shardOf n i (tr ++ tr') call reply := by
  have hsame : enteredBy i (tr ++ tr') = enteredBy i tr := by
    rw [enteredBy_append, enteredBy_others hothers, List.append_nil]
  refine ⟨?_,?_,?_⟩
  · rw [hsame]
    exact h.sections
  · intro key
    rw [countP_touches, hsame, ← countP_touches]
    exact h.once key
  · have hanswers := h.answers
    cases call with
    | batchExist keys =>
      obtain ⟨records,hreply,hall⟩ := hanswers
      exact ⟨records,hreply,hall.imp fun _ _ hlook => hlook.grows (List.prefix_append _ _)⟩
    | batchLookup keys =>
      obtain ⟨records,hreply,hall⟩ := hanswers
      exact ⟨records,hreply,hall.imp fun _ _ hlook => hlook.grows (List.prefix_append _ _)⟩
    | _ => exact hanswers

/-- A reading of the clock. -/
theorem leads_nowMs {α : Type} {post : α → List MetaEvent → Prop} {k : ℕ → MetaProg α}
    (hothers : Others i tr)
    (h : ∀ now tr', enteredBy i tr' = [] → Leads (MetaSeen shardOf) i post (k now) tr') :
    Leads (MetaSeen shardOf) i post (MetaOps.step .nowMs >>= k) tr := by
  apply leads_perform
  intro between m now m' hbetween _
  apply h
  rw [enteredBy_step hbetween, enteredBy_others hothers]
  rfl

/-- Every position of the list is found when all shards are visited. -/
theorem Found.all {results : List KeyRecord} (hn : ∀ key, shardOf key < n)
    (h : Found shardOf i admits keys (List.range n) results tr) :
    List.Forall₂ (ReadAt shardOf i admits tr) keys results := by
  apply List.forall₂_iff_get.mpr
  refine ⟨h.length.symm,fun p hp hp' => ?_⟩
  obtain ⟨rec,hrec,hread⟩ := h.found p keys[p] (List.getElem?_eq_getElem hp) (List.mem_range.mpr (hn _))
  rw [List.getElem?_eq_getElem hp'] at hrec
  cases hrec
  exact hread

theorem forall₂_chain {α β γ : Type} {R : α → β → Prop} {Q : β → γ → Prop} {T : α → γ → Prop}
    (hT : ∀ a b c, R a b → Q b c → T a c) {xs : List α} {ys : List β} {zs : List γ}
    (hR : List.Forall₂ R xs ys) (hQ : List.Forall₂ Q ys zs) : List.Forall₂ T xs zs := by
  induction hR generalizing zs with
  | nil =>
    cases hQ
    exact .nil
  | cons hxy _ ih =>
    cases hQ with
    | cons hyz hrest => exact .cons (hT _ _ _ hxy hyz) (ih hrest)

theorem leads_read {sect : ℕ → MetaSection} (hsect : Reads admits keys sect) (hn : ∀ key, shardOf key < n)
    (hothers : Others i tr) :
    Leads (MetaSeen shardOf) i (fun records tr' =>
        (∃ now, enteredBy i tr' = (List.range n).map fun shard => (now,sect shard)) ∧
          List.Forall₂ (AnsweredAt shardOf i admits tr') keys records)
      (MetaOps.read n sect keys) tr := by
  apply leads_nowMs hothers
  intro now t₀ hentered
  apply leads_bind
  have hvisits : Leads (MetaSeen shardOf) i (fun results tr =>
      enteredBy i tr = (List.range n).map (fun shard => (now,sect shard)) ∧
        Found shardOf i admits keys (List.range n) results tr)
      (MetaOps.visitShards sect now (List.range n) (keys.map fun _ => .blank)) t₀ := by
    apply leads_visitShards (I := fun done results tr =>
      enteredBy i tr = done.map (fun shard => (now,sect shard)) ∧ Found shardOf i admits keys done results tr)
      _ [] List.nodup_range ⟨hentered,found_blank t₀⟩
    rintro done shard results tr between m r m' hnew ⟨hsections,hfound⟩ hbetween hseen
    refine ⟨?_,hfound.step hsect hnew hseen⟩
    rw [enteredBy_step hbetween, hsections, List.map_append]
    rfl
  apply leads_mono hvisits
  rintro results t ⟨hsections,hfound⟩
  have hfill : Leads (MetaSeen shardOf) i (fun records tr =>
      (t <+: tr ∧ enteredBy i tr = (List.range n).map fun shard => (now,sect shard)) ∧
        List.Forall₂ (fun x y => ∀ key, ReadAt shardOf i admits t key x → AnsweredAt shardOf i admits tr key y)
          results records)
      (Prog.mapEach MetaOps.fill results) t := by
    apply leads_mapEach (Q := fun x y tr => ∀ key, ReadAt shardOf i admits t key x →
      AnsweredAt shardOf i admits tr key y) _ _ ⟨List.prefix_refl t,hsections⟩
    · intro x y tr tr' hlook hpre key hread
      exact (hlook key hread).grows hpre
    · rintro x _ tr ⟨hpre,hentered'⟩
      exact leads_fill hpre hentered'
  apply leads_mono hfill
  rintro records tr' ⟨⟨-,hsections'⟩,hall⟩
  exact ⟨⟨now,hsections'⟩,forall₂_chain (fun key x y hread hlook => hlook key hread) (hfound.all hn) hall⟩

/-- A thread serves its call, whatever the others do. -/
theorem leads_run (hn : ∀ key, shardOf key < n) (call : MetaCall) (hothers : Others i tr) :
    Leads (MetaSeen shardOf) i (fun x tr' => Served shardOf n i tr' x.1 x.2) (MetaOps.run n call) tr := by
  have hnone := enteredBy_others hothers
  cases call with
  | registerStore info =>
    apply leads_bind
    apply leads_bind
    unfold MetaOps.registerStore
    split
    · next hzero =>
      apply served_of_sections 0 hn
      · rw [hnone, MetaCall.visits, if_pos hzero]
        rfl
      · rw [MetaCall.Answers, if_pos hzero]
    · next hpos =>
      apply leads_perform
      intro between m r m' hbetween _
      apply served_of_sections 0 hn
      · rw [enteredBy_step hbetween, hnone, MetaCall.visits, if_neg hpos]
        rfl
      · rw [MetaCall.Answers, if_neg hpos]
  | syncCommit storeId records =>
    apply leads_bind
    apply leads_bind
    apply leads_nowMs hothers
    intro now t hentered
    apply leads_bind
    apply leads_mono (entered_visitShards List.nodup_range hentered)
    intro _ tr' hsections
    exact served_of_shards hn (.syncCommit storeId records) rfl hsections rfl
  | syncRemove storeId keys =>
    apply leads_bind
    apply leads_bind
    apply leads_bind
    apply leads_mono (entered_visitShards List.nodup_range hnone)
    intro _ tr' hsections
    exact served_of_shards hn (.syncRemove storeId keys) rfl hsections rfl
  | batchExist keys =>
    apply leads_bind
    apply leads_bind
    apply leads_mono (leads_read (reads_exist keys) hn hothers)
    rintro records tr' ⟨⟨now,hsections⟩,hall⟩
    exact served_of_shards hn (.batchExist keys) rfl hsections ⟨records,rfl,hall⟩
  | batchLookup keys =>
    apply leads_bind
    apply leads_bind
    apply leads_mono (leads_read (reads_lookup keys) hn hothers)
    rintro records tr' ⟨⟨now,hsections⟩,hall⟩
    exact served_of_shards hn (.batchLookup keys) rfl hsections ⟨records,rfl,hall⟩

abbrev MetaRun (hash : Key → ℕ) (shardCount : ℕ) (h : 0 < shardCount) :
    List MetaEvent → Pool metaSteps MetaManager (MetaCall × MetaReply) → Prop :=
  Run metaMachine (fun p => ∃ call, p = MetaOps.run shardCount call) (fun _ _ => True)
    ⟨.create hash shardCount h,[]⟩

section
variable {hash : Key → ℕ} {hpos : 0 < n} {P : Pool metaSteps MetaManager (MetaCall × MetaReply)}

theorem MetaRun.sharded (h : MetaRun hash n hpos tr P) :
    Run metaMachine (fun p => ∃ call, p = MetaOps.run n call)
      (fun m _ => m.shardOf = fun key => hash key % n) ⟨.create hash n hpos,[]⟩ tr P := by
  have halong := h.along (I := fun m => m.shardOf = fun key => hash key % n) rfl ?_
  · exact halong.1.ok_mono fun _ _ hok => hok.1
  · intro m op c r m' hshard _ hs
    rw [MetaManager.shardOf_stepOf hs, hshard]

theorem MetaRun.find (h : MetaRun hash n hpos tr P) (key : Key) :
    P.state.find key = bound (fun key => hash key % n) tr key :=
  h.sharded.register (MetaManager.registers_find _) key

theorem MetaRun.stores (h : MetaRun hash n hpos tr P) (storeId : ℕ) :
    P.state.stores.lookup storeId = registered tr storeId :=
  Run.register MetaManager.registers_stores h storeId

theorem MetaRun.seen {e : MetaEvent} (h : MetaRun hash n hpos (tr ++ [e]) P) :
    MetaSeen (fun key => hash key % n) tr e := by
  obtain ⟨Q,-,-,hshard,hstep⟩ := h.sharded.at_event rfl
  exact ⟨hstep,h.sharded.register_before (MetaManager.registers_find _) rfl,
    Run.register_before MetaManager.registers_stores h rfl,hshard⟩

/-- A call that has returned has been served. -/
theorem MetaRun.served (h : MetaRun hash n hpos tr P) {call : MetaCall} {reply : MetaReply}
    (hreply : P.replies[i]? = some (some (call,reply))) :
    Served (fun key => hash key % n) n i tr call reply := by
  have hstart : ∀ p t, (∃ call, p = MetaOps.run n call) → Others i t →
      Leads (MetaSeen fun key => hash key % n) i
        (fun x tr' => Served (fun key => hash key % n) n i tr' x.1 x.2) p t := by
    rintro p t ⟨call,rfl⟩ hothers
    exact leads_run (fun key => Nat.mod_lt _ hpos) call hothers
  obtain ⟨tr₁,tr₂,rfl,hothers,hserved⟩ := Run.led (fun hrun => MetaRun.seen hrun) hstart h hreply
  exact hserved.grows hothers

end

/-- Calls of the directory that run side by side: after every step a key is bound to what its
register has become, and each call that has returned has touched every key that it names in one
step, and no other key, and answers for each position of its list what the register of the key
contained at that step, with the data of its store as registered at moments after it. -/
theorem calls_linearize {hash : Key → ℕ} {n : ℕ} {hpos : 0 < n} {tr : List MetaEvent}
    {P : Pool metaSteps MetaManager (MetaCall × MetaReply)} (h : MetaRun hash n hpos tr P) :
    (∀ key, P.state.find key = bound (fun key => hash key % n) tr key) ∧
    (∀ storeId, P.state.stores.lookup storeId = registered tr storeId) ∧
    ∀ i call reply, P.replies[i]? = some (some (call,reply)) →
      Served (fun key => hash key % n) n i tr call reply := by
  refine ⟨h.find,h.stores,?_⟩
  intro i call reply hreply
  exact h.served hreply

/-- A store is registered and commits two keys of different shards, and a lookup of both comes in
between: the one that it visits first is not there yet. -/
theorem calls_linearize_apart : ∃ tr P, MetaRun String.length 2 Nat.two_pos tr P ∧
    P.replies.map (Option.map Prod.snd) = [some (.status .OK),some (.status .OK),
      some (.records [⟨"a",7,16,8,1,9,5,"",3,"file","addr"⟩,.blank])] ∧
    ∀ i call reply, P.replies[i]? = some (some (call,reply)) →
      Served (fun key => String.length key % 2) 2 i tr call reply := by
  have hsched : (Pool.follow (M := metaMachine) (fun _ _ => true)
      ([(0,0),(1,5),(2,9),(2,0),(1,0),(1,0),(2,0),(2,0),(2,0),(2,0)] : List (ℕ × ℕ))
      ⟨.create String.length 2 Nat.two_pos,[MetaCall.registerStore ⟨7,3,"addr","file"⟩,
        .syncCommit 7 [{ KeyRecord.blank with key := "a", offset := 16, size := 8 },
          { KeyRecord.blank with key := "bc" }],
        .batchExist ["a","bc"]].map (MetaOps.run 2)⟩).map
      (fun x => x.2.replies.map (Option.map Prod.snd)) = some [some (.status .OK),some (.status .OK),
        some (.records [⟨"a",7,16,8,1,9,5,"",3,"file","addr"⟩,.blank])] := by decide
  obtain ⟨tr,P,hr,hreplies⟩ := run_of_schedule (fun p => ∃ call, p = MetaOps.run 2 call) (by simp) hsched
  have hrun : MetaRun String.length 2 Nat.two_pos tr P := hr.ok_mono fun _ _ _ => trivial
  exact ⟨tr,P,hrun,hreplies,(calls_linearize hrun).2.2⟩

end FalconKV
