import FalconKV.Meta.Linearized

/-! # The latest commit of a key

A lookup answers for a key from the last commit or removal of the key before the step at which it
looks, and a call that has returned before the lookup began is among those. One commit of one
record makes the whole answer: where the key lies, and how long it is, is never put together from
two of them.
-/
namespace FalconKV
open AtomicCalls

variable {shardOf : Key → ℕ} {tr tr' : List MetaEvent} {key : Key} {rec : KeyRecord} {op : MetaStep}
  {old : Option KeyRecord}

def MetaStep.writes (shardOf : Key → ℕ) (key : Key) (op : MetaStep) : Option (Option (ℕ × KeyRecord)) :=
  op.entered.bind fun x =>
    if x.2.touches shardOf key then
      match x.2 with
      | .commit _ storeId records =>
        (records.filter fun rec => rec.key = key).getLast?.map fun rec => some (storeId,rec)
      | .remove .. => some none
      | _ => none
    else none

structure OfCommit (key : Key) (storeId : ℕ) (rec answer : KeyRecord) : Prop where
  key_eq : answer.key = key
  storeId_eq : answer.storeId = storeId
  offset_eq : answer.offset = rec.offset
  size_eq : answer.size = rec.size
  stat_eq : answer.stat = 1
  clientId_eq : answer.clientId = rec.clientId

/-- What a lookup answers for a key after a history. -/
def FromLatest (shardOf : Key → ℕ) (key : Key) (before : List MetaEvent) (answer : KeyRecord) : Prop :=
  (answer = .blank ∧ ∀ e ∈ before, e.op.writes shardOf key = none) ∨
  ∃ earlier last later, before = earlier ++ last :: later ∧
    (∀ e ∈ later, e.op.writes shardOf key = none) ∧
    ((last.op.writes shardOf key = some none ∧ answer = .blank) ∨
      ∃ storeId rec, last.op.writes shardOf key = some (some (storeId,rec)) ∧
        OfCommit key storeId rec answer)

def KeyRecord.untimed (rec : KeyRecord) : KeyRecord := { rec with accessTimeMs := 0 }

theorem untimed_readAct (admits : ℕ → Bool) (now : ℕ) (old : Option KeyRecord) :
    (MetaManager.readAct admits now old).map KeyRecord.untimed = old.map KeyRecord.untimed := by
  cases old with
  | none => rfl
  | some rec =>
    by_cases ha : admits rec.stat = true <;>
      simp [MetaManager.readAct, KeyRecord.touched, KeyRecord.hit, KeyRecord.untimed, ha]

/-- A section that touches a key of records has a record of it. -/
theorem exists_getLast {shard storeId : ℕ} {records : List KeyRecord}
    (h : (MetaSection.commit shard storeId records).touches shardOf key = true) :
    ∃ rec, (records.filter fun rec => rec.key = key).getLast? = some rec ∧ rec.key = key := by
  simp only [MetaSection.touches, Bool.and_eq_true, List.contains_iff_mem] at h
  obtain ⟨rec,hrec,hkey⟩ := List.mem_map.mp h.2.2
  have hmem : rec ∈ records.filter fun rec => rec.key = key := by simp [hrec, hkey]
  have hlast := List.getLast?_eq_some_getLast (List.ne_nil_of_mem hmem)
  exact ⟨_,hlast,of_decide_eq_true (List.mem_filter.mp (List.mem_of_getLast? hlast)).2⟩

theorem act_of_writes_none (h : op.writes shardOf key = none) :
    (op.act shardOf key old).map KeyRecord.untimed = old.map KeyRecord.untimed := by
  unfold MetaStep.act MetaSection.act
  unfold MetaStep.writes at h
  cases hop : op.entered with
  | none => rfl
  | some x =>
    obtain ⟨now,s⟩ := x
    rw [hop, Option.bind_some] at h
    dsimp only at h
    rw [Option.elim_some]
    split
    · next htouch =>
      rw [if_pos htouch] at h
      cases s with
      | register info => rfl
      | commit shard storeId records =>
        obtain ⟨rec,hlast,-⟩ := exists_getLast htouch
        dsimp only at h
        rw [hlast] at h
        cases h
      | remove shard keys => cases h
      | exist shard keys => exact untimed_readAct _ _ _
      | lookup shard keys => exact untimed_readAct _ _ _
    · rfl

theorem act_of_writes (old : Option KeyRecord) {w : Option (ℕ × KeyRecord)} (h : op.writes shardOf key = some w) :
    (w = none ∧ op.act shardOf key old = none) ∨
    ∃ storeId rec now, w = some (storeId,rec) ∧ rec.key = key ∧
      op.act shardOf key old = some (MetaManager.committed old storeId now rec) := by
  unfold MetaStep.writes at h
  unfold MetaStep.act MetaSection.act
  obtain ⟨⟨now,s⟩,hop,hw⟩ := Option.bind_eq_some_iff.mp h
  rw [hop, Option.elim_some]
  dsimp only at hw ⊢
  split at hw
  · next htouch =>
    rw [if_pos htouch]
    cases s with
    | commit shard storeId records =>
      obtain ⟨rec,hlast,hkey⟩ := exists_getLast htouch
      dsimp only at hw ⊢
      rw [hlast] at hw ⊢
      cases hw
      exact .inr ⟨storeId,rec,now,rfl,hkey,rfl⟩
    | remove shard keys =>
      cases hw
      exact .inl ⟨rfl,rfl⟩
    | _ => cases hw
  · cases hw

/-- Steps that write nothing leave the record, but for the time of its last access. -/
theorem untimed_register (h : ∀ e ∈ tr, e.op.writes shardOf key = none) (old : Option KeyRecord) :
    (AtomicCalls.register (MetaStep.act shardOf) old key tr).map KeyRecord.untimed =
      old.map KeyRecord.untimed := by
  induction tr generalizing old with
  | nil => rfl
  | cons e tr ih =>
    obtain ⟨he,htr⟩ := List.forall_mem_cons.mp h
    rw [register_cons, ih htr, act_of_writes_none he]

/-- A list up to the last of its elements that satisfy `p`. -/
theorem exists_last_of {α : Type} (p : α → Prop) [DecidablePred p] (xs : List α) :
    (∀ x ∈ xs, ¬p x) ∨ ∃ ys x zs, xs = ys ++ x :: zs ∧ p x ∧ ∀ z ∈ zs, ¬p z := by
  induction xs with
  | nil => exact .inl fun x hx => absurd hx List.not_mem_nil
  | cons x xs ih =>
    rcases ih with hnone | ⟨ys,y,zs,rfl,hy,hzs⟩
    · by_cases hx : p x
      · exact .inr ⟨[],x,xs,rfl,hx,hnone⟩
      · exact .inl (List.forall_mem_cons.mpr ⟨hx,hnone⟩)
    · exact .inr ⟨x :: ys,y,zs,rfl,hy,hzs⟩

theorem ofCommit_of_untimed {storeId t now : ℕ} {found : KeyRecord} {t₁ t₂ t₃ : List MetaEvent}
    (hkey : rec.key = key) (h : found.untimed = (MetaManager.committed old storeId t rec).untimed) :
    OfCommit key storeId rec ({ found with accessTimeMs := now }.storedAt t₁ t₂ t₃) := by
  have hfield : ∀ {α : Type} (field : KeyRecord → α),
      field found.untimed = field (MetaManager.committed old storeId t rec).untimed :=
    fun field => congrArg field h
  exact ⟨(hfield KeyRecord.key).trans hkey,hfield KeyRecord.storeId,hfield KeyRecord.offset,
    hfield KeyRecord.size,hfield KeyRecord.stat,hfield KeyRecord.clientId⟩

/-- What a lookup finds, and with which data of the store, is of the latest write. -/
theorem fromLatest {admits : ℕ → Bool} (now : ℕ) (hadmits : admits 1 = true) (before : List MetaEvent) {answer : KeyRecord}
    (hnone : (bound shardOf before key).bind (KeyRecord.hit admits now) = none → answer = .blank)
    (hsome : ∀ found, (bound shardOf before key).bind (KeyRecord.hit admits now) = some found →
      ∃ t₁ t₂ t₃, answer = found.storedAt t₁ t₂ t₃) : FromLatest shardOf key before answer := by
  rcases exists_last_of (fun e : MetaEvent => e.op.writes shardOf key ≠ none) before with
    hquiet | ⟨earlier,last,later,rfl,hlast,hquiet⟩
  · have hall : ∀ e ∈ before, e.op.writes shardOf key = none := fun e he => not_not.mp (hquiet e he)
    have hempty : bound shardOf before key = none := by
      have hsame := untimed_register hall none
      rwa [Option.map_none, Option.map_eq_none_iff] at hsame
    rw [hempty] at hnone
    exact .inl ⟨hnone rfl,hall⟩
  · have hall : ∀ e ∈ later, e.op.writes shardOf key = none := fun e he => not_not.mp (hquiet e he)
    refine .inr ⟨earlier,last,later,rfl,hall,?_⟩
    obtain ⟨w,hw⟩ := Option.ne_none_iff_exists'.mp hlast
    have hbound : (bound shardOf (earlier ++ last :: later) key).map KeyRecord.untimed =
        (last.op.act shardOf key (bound shardOf earlier key)).map KeyRecord.untimed := by
      rw [bound, register_append, register_cons, untimed_register hall]
      rfl
    rcases act_of_writes (bound shardOf earlier key) hw with
      ⟨rfl,hact⟩ | ⟨storeId,rec,t,rfl,hkey,hact⟩
    · rw [hact, Option.map_none, Option.map_eq_none_iff] at hbound
      rw [hbound] at hnone
      exact .inl ⟨hw,hnone rfl⟩
    · rw [hact, Option.map_some] at hbound
      obtain ⟨found,hfound,huntimed⟩ := Option.map_eq_some_iff.mp hbound
      have hstat : found.stat = 1 := congrArg KeyRecord.stat huntimed
      have hhit : (bound shardOf (earlier ++ last :: later) key).bind (KeyRecord.hit admits now) =
          some { found with accessTimeMs := now } := by
        rw [hfound, Option.bind_some, KeyRecord.hit, hstat, if_pos hadmits]
      obtain ⟨t₁,t₂,t₃,rfl⟩ := hsome _ hhit
      exact .inr ⟨storeId,rec,hw,ofCommit_of_untimed hkey huntimed⟩

/-- The keys that a call looks up. -/
def MetaCall.lookedUp : MetaCall → List Key
  | batchExist keys => keys
  | batchLookup keys => keys
  | _ => []

theorem AnsweredAt.fromLatest {i : ℕ} {admits : ℕ → Bool} {answer : KeyRecord} (hadmits : admits 1 = true)
    (h : AnsweredAt shardOf i admits tr key answer) : ∃ before e after, tr = before ++ e :: after ∧
      e.thread = i ∧ e.op.touches shardOf key = true ∧ FromLatest shardOf key before answer := by
  obtain ⟨before,e,⟨after,htr⟩,hthread,htouch,hanswer⟩ := h
  refine ⟨before,e,after,?_,hthread,htouch,?_⟩
  · rw [← htr, List.append_assoc]
    rfl
  · apply FalconKV.fromLatest e.op.clock hadmits before
    · intro hnone
      rw [hnone] at hanswer
      exact hanswer
    · intro found hfound
      rw [hfound] at hanswer
      obtain ⟨t₁,t₂,t₃,-,-,-,-,hanswer⟩ := hanswer
      exact ⟨t₁,t₂,t₃,hanswer⟩

theorem Served.answeredAt {n i : ℕ} {call : MetaCall} {records : List KeyRecord}
    (h : Served shardOf n i tr call (.records records)) :
    List.Forall₂ (fun key answer => ∃ before e after, tr = before ++ e :: after ∧ e.thread = i ∧
      e.op.touches shardOf key = true ∧ FromLatest shardOf key before answer) call.lookedUp records := by
  have hanswers := h.answers
  cases call with
  | batchExist keys =>
    obtain ⟨_,hreply,hall⟩ := hanswers
    cases hreply
    exact hall.imp fun _ _ hlook => hlook.fromLatest rfl
  | batchLookup keys =>
    obtain ⟨_,hreply,hall⟩ := hanswers
    cases hreply
    exact hall.imp fun _ _ hlook => hlook.fromLatest rfl
  | _ => cases hanswers

/-- A call that has served a key has a step that touches it. -/
theorem Served.exists_touch {n i : ℕ} {call : MetaCall} {reply : MetaReply}
    (h : Served shardOf n i tr call reply) (hkey : call.names key = true) :
    ∃ x ∈ tr, x.thread = i ∧ x.op.touches shardOf key = true := by
  have hone := h.once key
  rw [if_pos hkey] at hone
  obtain ⟨x,hx,htouch⟩ := List.countP_pos_iff.mp (hone.symm ▸ Nat.one_pos)
  exact ⟨x,hx,of_decide_eq_true htouch⟩

/-- Whatever calls run side by side: a lookup answers for every position of its list from the last
commit or removal of the key before its own step, and the calls of the key that had returned before
the lookup began have all had their step by then. -/
theorem lookups_latest {hash : Key → ℕ} {n : ℕ} {hpos : 0 < n} {tr₁ tr₂ : List MetaEvent}
    {P Q : Pool metaSteps MetaManager (MetaCall × MetaReply)} (h₁ : MetaRun hash n hpos tr₁ P)
    (h₂ : Run metaMachine (fun p => ∃ call, p = MetaOps.run n call) (fun _ _ => True) P tr₂ Q)
    {j : ℕ} (hlater : P.threads.length ≤ j) {call : MetaCall} {records : List KeyRecord}
    (hreply : Q.replies[j]? = some (some (call,.records records))) :
    List.Forall₂ (fun key answer => ∃ before e after, tr₁ ++ tr₂ = before ++ e :: after ∧ e.thread = j ∧
        e.op.touches (fun key => hash key % n) key = true ∧
        FromLatest (fun key => hash key % n) key before answer ∧
        ∀ i earlier reply, P.replies[i]? = some (some (earlier,reply)) → earlier.names key = true →
          ∃ x ∈ before, x.thread = i ∧ x.op.touches (fun key => hash key % n) key = true)
      call.lookedUp records := by
  have hrun : MetaRun hash n hpos (tr₁ ++ tr₂) Q := h₁.trans h₂
  apply (hrun.served hreply).answeredAt.imp
  rintro key answer ⟨before,e,after,htr,hthread,htouch,hfrom⟩
  refine ⟨before,e,after,htr,hthread,htouch,hfrom,?_⟩
  intro i earlier reply hearlier hnames
  obtain ⟨x,hx,hxthread,hxtouch⟩ := (h₁.served hearlier).exists_touch hnames
  -- the step of the lookup is none of the first part
  have hnot : e ∉ tr₁ := by
    intro he
    have hlt := h₁.thread_lt e he
    omega
  refine ⟨x,?_,hxthread,hxtouch⟩
  rcases List.append_eq_append_iff.mp htr with ⟨mid,hbefore,-⟩ | ⟨mid,hfirst,hrest⟩
  · rw [hbefore]
    exact List.mem_append_left mid hx
  · cases mid with
    | nil =>
      rw [List.append_nil] at hfirst
      exact hfirst ▸ hx
    | cons e' mid =>
      obtain ⟨rfl,-⟩ := List.cons.inj hrest
      exact absurd (hfirst ▸ List.mem_append_right before List.mem_cons_self) hnot

/-- A key is committed, a lookup begins after that, and a second commit of the key gets in between;
the lookup answers from this one. -/
theorem lookups_latest_two : ∃ tr₁ P tr₂ Q, MetaRun String.length 1 Nat.one_pos tr₁ P ∧
    Run metaMachine (fun p => ∃ call, p = MetaOps.run 1 call) (fun _ _ => True) P tr₂ Q ∧
    ∃ call records, Q.replies[2]? = some (some (call,.records records)) ∧
      records.map KeyRecord.offset = [32] ∧
      List.Forall₂ (fun key answer => ∃ before e after, tr₁ ++ tr₂ = before ++ e :: after ∧ e.thread = 2 ∧
          e.op.touches (fun key => String.length key % 1) key = true ∧
          FromLatest (fun key => String.length key % 1) key before answer ∧
          ∀ i earlier reply, P.replies[i]? = some (some (earlier,reply)) → earlier.names key = true →
            ∃ x ∈ before, x.thread = i ∧ x.op.touches (fun key => String.length key % 1) key = true)
        call.lookedUp records := by
  have hsched : ((Pool.follow (M := metaMachine) (fun _ _ => true)
      ([(0,5),(0,0),(1,6)] : List (ℕ × ℕ))
      ⟨.create String.length 1 Nat.one_pos,[MetaCall.syncCommit 7 [{ KeyRecord.blank with key := "a" }],
        .syncCommit 7 [{ KeyRecord.blank with key := "a", offset := 32 }]].map (MetaOps.run 1)⟩).bind
      fun x => (Pool.follow (M := metaMachine) (fun _ _ => true)
        ([(2,7),(1,0),(2,0),(2,0),(2,0),(2,0)] : List (ℕ × ℕ))
        ⟨x.2.state,x.2.threads ++ [MetaOps.run 1 (.batchLookup ["a"])]⟩).map
      fun y => (x.2.threads.length,(y.2.replies[2]?).map (Option.map Prod.snd))) = some (2,some (some
        (.records [⟨"a",7,32,0,1,7,5,"",0,"",""⟩]))) := by decide
  obtain ⟨⟨tr₁,P⟩,hfirst,hrest⟩ := Option.bind_eq_some_iff.mp hsched
  obtain ⟨⟨tr₂,Q⟩,hsecond,hv⟩ := Option.map_eq_some_iff.mp hrest
  obtain ⟨hlength,hreplies⟩ := Prod.mk.inj hv
  have h₁ : MetaRun String.length 1 Nat.one_pos tr₁ P :=
    ((run_spawnAll (by simp)).trans (run_of_follow _ hfirst)).ok_mono fun _ _ _ => trivial
  have h₂ : Run metaMachine (fun p => ∃ call, p = MetaOps.run 1 call) (fun _ _ => True) P tr₂ Q :=
    (Run.refl.spawn ⟨_,rfl⟩).trans ((run_of_follow _ hsecond).ok_mono fun _ _ _ => trivial)
  obtain ⟨⟨call,reply⟩,hreply,rfl⟩ : ∃ x, Q.replies[2]? = some (some x) ∧
      x.2 = .records [⟨"a",7,32,0,1,7,5,"",0,"",""⟩] := by
    obtain ⟨v,hv,hsnd⟩ := Option.map_eq_some_iff.mp hreplies
    obtain ⟨x,rfl,hx⟩ := Option.map_eq_some_iff.mp hsnd
    exact ⟨x,hv,hx⟩
  exact ⟨tr₁,P,tr₂,Q,h₁,h₂,call,_,hreply,rfl,lookups_latest h₁ h₂ (Nat.le_of_eq hlength) hreply⟩

end FalconKV
