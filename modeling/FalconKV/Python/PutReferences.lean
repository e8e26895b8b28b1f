import Mathlib.Algebra.BigOperators.Group.List.Basic
import Mathlib.Algebra.Ring.Int.Defs
import FalconKV.Python.Connector

/-! # References that a put takes and drops

A put in the background takes a reference for each object, and the callback of its task
drops them. A put in the foreground drops references that it has not taken. What all
threads have done for one put is summed up over a run.
-/
namespace FalconKV.PutReferences
open AtomicCalls

inductive Deed
  | entered (n : ℕ)
  /-- the tensor of an object could not be read -/
  | unreadable
  | up (n obj : ℕ)
  | down (n obj : ℕ)
  /-- a put in the foreground has returned or raised -/
  | put (returned : Bool)
  | submitted (userData : FireAndForgetData)
  | took (userData : FireAndForgetData)

def deeds (op : ConnectorCall) (r : op.Res) : List Deed :=
  match op, r with
  | .enter, n => [.entered n]
  | .tensor _, .ok (some _) => []
  | .tensor _, _ => [.unreadable]
  | .refCountUp n obj, _ => [.up n obj]
  | .refCountDown n obj, _ => [.down n obj]
  | .batchPutSync .., .ok _ => [.put true]
  | .batchPutSync .., .error _ => [.put false]
  | .fireAndForgetPut n keys _ _ objs, .ok _ => [.submitted ⟨n,objs.take keys.length⟩]
  | .takeTask, task => [.took task.userData]
  | _, _ => []

def deedsOf (i : ℕ) (tr : List (Event connectorCalls Connector)) : List Deed :=
  (callsOf i tr).flatMap fun c => deeds c.op c.res

def call? : ConnectorCall → Option ℕ
  | .refCountUp n _ | .refCountDown n _ => some n
  | _ => none

/-- What call `n` of the connector and its task have changed about a reference count. -/
def netChange (n obj : ℕ) (tr : List (Event connectorCalls Connector)) : ℤ :=
  (tr.map fun e =>
    if call? e.op = some n then e.after.refCount obj - e.before.refCount obj else 0).sum

/-- The task of call `n` is not in the queue, and who has taken it has finished. -/
structure BackgroundDone (n : ℕ) (tr : List (Event connectorCalls Connector))
    (Q : Pool connectorCalls Connector ConnectorReply) : Prop where
  taken : ∀ task ∈ Q.state.taskQueue, task.userData.call ≠ n
  finished : ∀ (j : ℕ) userData, .took userData ∈ deedsOf j tr → userData.call = n →
    ∃ reply, Q.threads[j]? = some (.ret reply)

/-- There is nothing to drop, a tensor could not be read, a put in the background was
submitted with a key for each object, or a put in the foreground has raised. -/
def PutNeutral (fireAndForget : Bool) (keys : List String) (memoryObjs : List ℕ)
    (done : List Deed) : Prop :=
  memoryObjs = [] ∨ .unreadable ∈ done ∨
    if fireAndForget then (∃ userData, .submitted userData ∈ done) ∧ memoryObjs.length ≤ keys.length
    else .put false ∈ done

variable {n obj : ℕ} {fireAndForget : Bool} {keys : List String} {memoryObjs : List ℕ}
  {done : List Deed}

def weight (n obj : ℕ) (userData : FireAndForgetData) : ℤ :=
  if userData.call = n then userData.pyObjs.count obj else 0

namespace Deed

def numbers : Deed → List ℕ
  | entered n => [n]
  | _ => []

def change (n obj : ℕ) : Deed → ℤ
  | up m o => if m = n ∧ o = obj then 1 else 0
  | down m o => if m = n ∧ o = obj then -1 else 0
  | _ => 0

/-- What goes into the queue, and comes out of it. -/
def queued (n obj : ℕ) : Deed → ℤ
  | submitted userData => weight n obj userData
  | took userData => -weight n obj userData
  | _ => 0

def due (n obj : ℕ) (d : Deed) : ℤ := d.change n obj - d.queued n obj

end Deed

def total (f : Deed → ℤ) (done : List Deed) : ℤ := (done.map f).sum

@[simp] theorem total_nil (f : Deed → ℤ) : total f [] = 0 := rfl

@[simp] theorem total_cons (f : Deed → ℤ) (d : Deed) (done : List Deed) :
    total f (d :: done) = f d + total f done := by
  simp [total]

@[simp] theorem total_append (f : Deed → ℤ) (done done' : List Deed) :
    total f (done ++ done') = total f done + total f done' := by
  simp [total]

theorem total_due (n obj : ℕ) (done : List Deed) : total (Deed.due n obj) done =
    total (Deed.change n obj) done - total (Deed.queued n obj) done := by
  induction done with
  | nil => rfl
  | cons d done ih =>
    simp only [total_cons, ih, Deed.due]
    omega

theorem total_up (n obj : ℕ) (objs : List ℕ) :
    total (Deed.due n obj) (objs.map (.up n)) = objs.count obj := by
  induction objs with
  | nil => rfl
  | cons o objs ih =>
    simp only [List.map_cons, total_cons, ih, Deed.due, Deed.change, Deed.queued, List.count_cons]
    by_cases ho : o = obj
    · simp [ho]
      omega
    · simp [ho]

theorem total_down (m n obj : ℕ) (objs : List ℕ) :
    total (Deed.due n obj) (objs.map (.down m)) = -weight n obj ⟨m,objs⟩ := by
  induction objs with
  | nil => simp [weight]
  | cons o objs ih =>
    simp only [List.map_cons, total_cons, ih, Deed.due, Deed.change, Deed.queued, weight,
      List.count_cons]
    by_cases hm : m = n
    · by_cases ho : o = obj
      · simp [hm, ho]
      · simp [hm, ho]
    · simp [hm]

theorem forall_count_take {objs : List ℕ} {k : ℕ} :
    (∀ obj, (objs.take k).count obj = objs.count obj) ↔ objs.length ≤ k := by
  constructor
  · intro h
    have hperm : (objs.take k).Perm objs := List.perm_iff_count.mpr h
    have hlength := hperm.length_eq
    rw [List.length_take] at hlength
    omega
  · intro h obj
    rw [List.take_of_length_le h]

inductive PutEnds (fireAndForget : Bool) (n : ℕ) (keys : List String) (memoryObjs : List ℕ) :
    List Deed → Prop
  | unreadable : PutEnds fireAndForget n keys memoryObjs [.entered n,.unreadable]
  | refused (h : fireAndForget = true) :
      PutEnds fireAndForget n keys memoryObjs (.entered n :: memoryObjs.map (.up n))
  | submitted (h : fireAndForget = true) : PutEnds fireAndForget n keys memoryObjs
      (.entered n :: (memoryObjs.map (.up n) ++ [.submitted ⟨n,memoryObjs.take keys.length⟩]))
  | raised (h : fireAndForget = false) :
      PutEnds fireAndForget n keys memoryObjs [.entered n,.put false]
  | returned (h : fireAndForget = false) : PutEnds fireAndForget n keys memoryObjs
      (.entered n :: .put true :: memoryObjs.map (.down n))

theorem forall_count_eq_zero {objs : List ℕ} : (∀ obj, objs.count obj = 0) ↔ objs = [] := by
  constructor
  · intro h
    exact List.eq_nil_iff_forall_not_mem.mpr fun obj hobj => List.count_eq_zero.mp (h obj) hobj
  · rintro rfl obj
    rfl

/-- The deeds of a put come out even if and only if the put is neutral. -/
theorem PutEnds.due_iff (h : PutEnds fireAndForget n keys memoryObjs done) :
    (∀ obj, total (Deed.due n obj) done = 0) ↔ PutNeutral fireAndForget keys memoryObjs done := by
  have hentered : ∀ obj, Deed.due n obj (.entered n) = 0 := fun _ => rfl
  cases h with
  | unreadable =>
    refine ⟨fun _ => .inr (.inl (by simp)),fun _ obj => ?_⟩
    simp [Deed.due, Deed.change, Deed.queued]
  | refused h =>
    have hnot : PutNeutral fireAndForget keys memoryObjs (.entered n :: memoryObjs.map (.up n)) ↔
        memoryObjs = [] := by
      simp [PutNeutral, h]
    rw [hnot,← forall_count_eq_zero]
    apply forall_congr'
    intro obj
    rw [total_cons,total_up,hentered]
    omega
  | submitted h =>
    have hneutral : PutNeutral fireAndForget keys memoryObjs (.entered n ::
        (memoryObjs.map (.up n) ++ [.submitted ⟨n,memoryObjs.take keys.length⟩])) ↔
        memoryObjs.length ≤ keys.length := by
      constructor
      · intro hput
        rcases hput with rfl | hput | hput
        · exact Nat.zero_le _
        · simp at hput
        · rw [if_pos h] at hput
          exact hput.2
      · intro hlength
        right
        right
        rw [if_pos h]
        exact ⟨⟨⟨n,memoryObjs.take keys.length⟩,by simp⟩,hlength⟩
    have hdue : ∀ obj, total (Deed.due n obj) (.entered n ::
        (memoryObjs.map (.up n) ++ [.submitted ⟨n,memoryObjs.take keys.length⟩])) =
        memoryObjs.count obj - ((memoryObjs.take keys.length).count obj : ℤ) := by
      intro obj
      rw [total_cons,total_append,total_up,hentered]
      simp [Deed.due, Deed.change, Deed.queued, weight]
      omega
    rw [hneutral,← forall_count_take]
    apply forall_congr'
    intro obj
    rw [hdue obj]
    omega
  | raised h =>
    refine ⟨fun _ => .inr (.inr ?_),fun _ obj => ?_⟩
    · simp [h]
    · simp [Deed.due, Deed.change, Deed.queued]
  | returned h =>
    have hnot : PutNeutral fireAndForget keys memoryObjs
        (.entered n :: .put true :: memoryObjs.map (.down n)) ↔ memoryObjs = [] := by
      simp [PutNeutral, h]
    have hput : ∀ obj, Deed.due n obj (.put true) = 0 := fun _ => rfl
    rw [hnot,← forall_count_eq_zero]
    apply forall_congr'
    intro obj
    rw [total_cons,total_cons,total_down,hentered,hput]
    simp [weight]

def doing : Ledger connectorCalls (List Deed) := Ledger.noting (fun _ _ => True) deeds

theorem kept_buffersOf (objs : List ℕ) (buffers : List (ℕ × ℕ)) (done : List Deed) :
    doing.Kept (fun x done' => match x with
      | .ok _ => done' = done
      | .error _ => done' = done ++ [.unreadable]) (ConnectorOps.buffersOf objs buffers) done := by
  induction objs generalizing buffers with
  | nil => exact rfl
  | cons obj objs ih =>
    unfold ConnectorOps.buffersOf ConnectorOps.bufferOf
    apply Ledger.kept_note
    intro tensor _
    match tensor with
    | .error e => exact rfl
    | .ok none => exact rfl
    | .ok (some buffer) =>
      have hnone : done ++ deeds (.tensor obj) (.ok (some buffer)) = done := List.append_nil done
      rw [hnone]
      exact ih _

/-- A loop over objects in which each round makes one note. -/
theorem kept_forEach {f : ℕ → ConnectorProg Unit} {d : ℕ → Deed}
    (hf : ∀ obj done, doing.Kept (fun _ done' => done' = done ++ [d obj]) (f obj) done)
    (objs : List ℕ) (done : List Deed) :
    doing.Kept (fun _ done' => done' = done ++ objs.map d) (Prog.forEach f objs) done := by
  induction objs generalizing done with
  | nil => exact (List.append_nil done).symm
  | cons obj objs ih =>
    apply Ledger.kept_bind
    apply Ledger.kept_mono (hf obj done)
    rintro _ _ rfl
    apply Ledger.kept_mono (ih _)
    rintro _ _ rfl
    rw [List.append_assoc,List.map_cons,List.singleton_append]

theorem kept_ups (objs : List ℕ) (done : List Deed) :
    doing.Kept (fun _ done' => done' = done ++ objs.map (.up n))
      (Prog.forEach (fun obj => ConnectorOps.ask (.refCountUp n obj)) objs) done := by
  apply kept_forEach
  intro obj done r _
  exact ⟨_,rfl,rfl⟩

theorem kept_downs (objs : List ℕ) (done : List Deed) :
    doing.Kept (fun _ done' => done' = done ++ objs.map (.down n))
      (Prog.forEach (fun obj => ConnectorOps.ask (.refCountDown n obj)) objs) done := by
  apply kept_forEach
  intro obj done r _
  exact ⟨_,rfl,rfl⟩

theorem kept_batchedPut : doing.Kept (fun _ done => PutEnds fireAndForget n keys memoryObjs done)
    (ConnectorOps.batchedPut fireAndForget n keys memoryObjs) [.entered n] := by
  apply Ledger.kept_bind
  apply Ledger.kept_mono (kept_buffersOf memoryObjs [] _)
  intro x done hx
  match x with
  | .error e =>
    obtain rfl := hx
    exact .unreadable
  | .ok buffers =>
    obtain rfl := hx
    dsimp only
    split
    · next hmode =>
      apply Ledger.kept_bind
      apply Ledger.kept_mono (kept_ups memoryObjs _)
      rintro _ _ rfl r -
      refine ⟨_,rfl,?_⟩
      match r with
      | .error e =>
        have hdone : [.entered n] ++ memoryObjs.map (Deed.up n) ++ [] =
            .entered n :: memoryObjs.map (.up n) := by simp
        exact Eq.mpr (congrArg (PutEnds _ _ _ _) hdone) (.refused hmode)
      | .ok () =>
        have hdone : [.entered n] ++ memoryObjs.map (Deed.up n) ++
            [.submitted ⟨n,memoryObjs.take keys.length⟩] = .entered n ::
              (memoryObjs.map (.up n) ++ [.submitted ⟨n,memoryObjs.take keys.length⟩]) := by simp
        exact Eq.mpr (congrArg (PutEnds _ _ _ _) hdone) (.submitted hmode)
    · next hmode =>
      have hmode : fireAndForget = false := Bool.eq_false_iff.mpr hmode
      apply Ledger.kept_note
      intro put _
      match put with
      | .error e => exact .raised hmode
      | .ok () =>
        apply Ledger.kept_bind
        apply Ledger.kept_mono (kept_downs memoryObjs _)
        rintro _ _ rfl
        exact .returned hmode

/-- A task leaves nothing due. -/
theorem kept_backgroundPut :
    doing.Kept (fun _ done => ∀ m obj, total (Deed.due m obj) done = 0)
      ConnectorOps.backgroundPut [] := by
  apply Ledger.kept_note
  intro task _
  apply Ledger.kept_note
  intro _ _
  apply Ledger.kept_mono (kept_downs task.userData.pyObjs _)
  rintro _ _ rfl m obj
  rw [total_append,total_down]
  simp [deeds, Deed.due, Deed.change, Deed.queued]

inductive Role
  | caller (n : ℕ)
  | worker (n : ℕ)

def Role.call : Role → ℕ
  | caller n => n
  | worker n => n

/-- A thread learns its call from `enter` or from a task, and has effects for it only. -/
def acting : Ledger connectorCalls (Option Role) where
  guar := fun _ _ => True
  rule := fun op r role role' => match op, r with
    | .enter, n => role = none ∧ role' = some (.caller n)
    | .takeTask, task => role = none ∧ role' = some (.worker task.userData.call)
    | .refCountUp n _, _ => role.map Role.call = some n ∧ role' = role
    | .refCountDown n _, _ => role.map Role.call = some n ∧ role' = role
    | .fireAndForgetPut n .., _ => role.map Role.call = some n ∧ role' = role
    | _, _ => role' = role

def actsFor (n : ℕ) : ConnectorCall → Prop
  | .enter | .takeTask => False
  | .refCountUp m _ | .refCountDown m _ | .fireAndForgetPut m .. => m = n
  | _ => True

theorem makes_up (obj : ℕ) : (ConnectorOps.ask (.refCountUp n obj)).Makes (actsFor n) :=
  Prog.makes_perform rfl

theorem makes_down (obj : ℕ) : (ConnectorOps.ask (.refCountDown n obj)).Makes (actsFor n) :=
  Prog.makes_perform rfl

theorem makes_bufferOf (obj : ℕ) : (ConnectorOps.bufferOf obj).Makes (actsFor n) := by
  apply Prog.makes_call_bind trivial
  intro tensor
  match tensor with
  | .error e => trivial
  | .ok none => trivial
  | .ok (some buffer) => trivial

theorem makes_allocateAll (bufs : List (ℕ × ℕ × ℕ)) :
    (ConnectorOps.allocateAll keys bufs).Makes (actsFor n) := by
  induction keys generalizing bufs with
  | nil => trivial
  | cons key keys ih =>
    apply Prog.makes_call_bind trivial
    intro allocated
    match allocated with
    | .error e => trivial
    | .ok none => trivial
    | .ok (some obj) =>
      apply (makes_bufferOf obj).bind
      intro buffer
      match buffer with
      | .error e => trivial
      | .ok buffer => exact ih _

theorem makes_collect (reads : List ℤ) (bufs : List (ℕ × ℕ × ℕ)) (results : List (Option ℕ)) :
    (ConnectorOps.collect n reads bufs results).Makes (actsFor n) := by
  induction reads generalizing bufs results with
  | nil => trivial
  | cons nRead reads ih =>
    match bufs with
    | [] => trivial
    | (obj,ptr,size) :: bufs =>
      unfold ConnectorOps.collect
      split
      · exact Prog.makes_call_bind rfl fun _ => ih _ _
      split
      · apply Prog.makes_call_bind trivial
        intro reshaped
        match reshaped with
        | .error e => trivial
        | .ok obj' => exact ih _ _
      · exact ih _ _

theorem makes_batchedGet : (ConnectorOps.batchedGet n keys).Makes (actsFor n) := by
  apply (makes_allocateAll []).bind
  intro allocated
  match allocated with
  | .error e => trivial
  | .ok bufs =>
    apply Prog.makes_call_bind trivial
    intro reads
    match reads with
    | .error e => trivial
    | .ok reads => exact makes_collect reads bufs []

theorem makes_untilGap (results : List (Option ℕ)) :
    (ConnectorOps.untilGap n results).Makes (actsFor n) := by
  induction results with
  | nil => trivial
  | cons r results ih =>
    cases r with
    | none =>
      have hrelease : ∀ r, (ConnectorOps.release n r).Makes (actsFor n) := by
        intro r
        cases r with
        | none => trivial
        | some obj => exact makes_down obj
      exact (Prog.makes_forEach hrelease results).bind fun _ => trivial
    | some obj => exact ih.bind fun _ => trivial

theorem makes_batchedGetNonBlocking :
    (ConnectorOps.batchedGetNonBlocking n keys).Makes (actsFor n) := by
  apply makes_batchedGet.bind
  intro results
  match results with
  | .error e => trivial
  | .ok results => exact (makes_untilGap results).bind fun _ => trivial

theorem makes_buffersOf (objs : List ℕ) (buffers : List (ℕ × ℕ)) :
    (ConnectorOps.buffersOf objs buffers).Makes (actsFor n) := by
  induction objs generalizing buffers with
  | nil => trivial
  | cons obj objs ih =>
    apply (makes_bufferOf obj).bind
    intro buffer
    match buffer with
    | .error e => trivial
    | .ok buffer => exact ih _

theorem makes_batchedPut :
    (ConnectorOps.batchedPut fireAndForget n keys memoryObjs).Makes (actsFor n) := by
  apply (makes_buffersOf memoryObjs []).bind
  intro buffers
  match buffers with
  | .error e => trivial
  | .ok buffers =>
    dsimp only
    split
    · apply (Prog.makes_forEach makes_up memoryObjs).bind
      intro _
      exact Prog.makes_perform rfl
    · apply Prog.makes_call_bind trivial
      intro put
      match put with
      | .error e => trivial
      | .ok () =>
        exact (Prog.makes_forEach makes_down memoryObjs).bind fun _ => trivial

theorem kept_acting {α : Type} {p : ConnectorProg α} (hp : p.Makes (actsFor n)) {role : Role}
    (hrole : role.call = n) : acting.Kept (fun _ role' => role' = some role) p (some role) := by
  apply Ledger.kept_of_makes hp
  intro op r hop
  have hcall : (some role).map Role.call = some n := congrArg some hrole
  cases op with
  | enter => cases hop
  | takeTask => cases hop
  | refCountUp m obj =>
    obtain rfl := hop
    exact ⟨hcall,rfl⟩
  | refCountDown m obj =>
    obtain rfl := hop
    exact ⟨hcall,rfl⟩
  | fireAndForgetPut m keys ptrs sizes objs =>
    obtain rfl := hop
    exact ⟨hcall,rfl⟩
  | _ => exact rfl

def roleOf (reply : ConnectorReply) (role : Option Role) : Prop :=
  match reply with
  | .backgroundPut => True
  | .batchedPut _ n _ _ _ => role = some (.caller n)
  | _ => ∃ n, role = some (.caller n)

theorem kept_caller {α : Type} {p : ℕ → ConnectorProg α} {reply : ℕ → α → ConnectorReply}
    (hp : ∀ n, (p n).Makes (actsFor n)) (hreply : ∀ n a, roleOf (reply n a) (some (.caller n))) :
    acting.Kept roleOf (ConnectorOps.ask .enter >>= fun n => reply n <$> p n) none := by
  apply Ledger.kept_perform
  intro n _
  have hrest : acting.Kept roleOf (reply n <$> p n) (some (.caller n)) := by
    apply Ledger.kept_bind
    apply Ledger.kept_mono (kept_acting (hp n) rfl)
    rintro a _ rfl
    exact hreply n a
  exact ⟨some (.caller n),⟨rfl,rfl⟩,hrest⟩

theorem kept_roleOf (op : ConnectorOp) : acting.Kept roleOf op.run none := by
  cases op with
  | batchedGet keys => exact kept_caller (fun _ => makes_batchedGet) fun n _ => ⟨n,rfl⟩
  | batchedGetNonBlocking keys =>
    exact kept_caller (fun _ => makes_batchedGetNonBlocking) fun n _ => ⟨n,rfl⟩
  | get key =>
    have hget : ∀ n, (ConnectorOps.get n key).Makes (actsFor n) :=
      fun _ => makes_batchedGet.bind fun _ => trivial
    exact kept_caller hget fun n _ => ⟨n,rfl⟩
  | batchedPut faf keys objs => exact kept_caller (fun _ => makes_batchedPut) fun _ _ => rfl
  | put faf key obj => exact kept_caller (fun _ => makes_batchedPut) fun _ _ => rfl
  | backgroundPut =>
    apply Ledger.kept_bind
    refine Ledger.kept_perform fun task _ => ⟨some (.worker task.userData.call),⟨rfl,rfl⟩,?_⟩
    have hrest : (ConnectorOps.ask (.runTask task) >>= fun _ => Prog.forEach
        (fun obj => ConnectorOps.ask (.refCountDown task.userData.call obj))
          task.userData.pyObjs).Makes (actsFor task.userData.call) :=
      Prog.makes_call_bind trivial fun _ => Prog.makes_forEach makes_down _
    exact Ledger.kept_mono (kept_acting hrest rfl) fun _ _ _ => trivial

def RoleSays (n obj : ℕ) (role : Option Role) (done : List Deed) : Prop :=
  (role.map Role.call ≠ some n → total (Deed.due n obj) done = 0) ∧
    (∀ m, role = some (.caller m) → .entered m ∈ done) ∧
    ∀ m, role = some (.worker m) → ∃ userData, .took userData ∈ done ∧ userData.call = m

theorem RoleSays.same {role : Option Role} {new : List Deed} (h : RoleSays n obj role done)
    (hdue : role.map Role.call ≠ some n → total (Deed.due n obj) new = 0) :
    RoleSays n obj role (done ++ new) := by
  obtain ⟨hzero,hcaller,hworker⟩ := h
  refine ⟨?_,?_,?_⟩
  · intro hne
    rw [total_append,hzero hne,hdue hne,zero_add]
  · intro m hm
    exact List.mem_append_left _ (hcaller m hm)
  · intro m hm
    obtain ⟨userData,hmem,hcall⟩ := hworker m hm
    exact ⟨userData,List.mem_append_left _ hmem,hcall⟩

theorem roleSays_step {op : ConnectorCall} {r : op.Res} {role role' : Option Role}
    (h : RoleSays n obj role done) (hrule : acting.rule op r role role') :
    RoleSays n obj role' (done ++ deeds op r) := by
  cases op with
  | enter =>
    obtain ⟨rfl,rfl⟩ := hrule
    refine ⟨fun _ => ?_,fun m hm => ?_,nofun⟩
    · rw [total_append,h.1 (by simp)]
      simp [deeds, Deed.due, Deed.change, Deed.queued]
    · cases hm
      simp [deeds]
  | takeTask =>
    obtain ⟨rfl,rfl⟩ := hrule
    refine ⟨fun hne => ?_,nofun,fun m hm => ?_⟩
    · have hcall : r.userData.call ≠ n := fun heq => hne (congrArg some heq)
      rw [total_append,h.1 (by simp)]
      simp [deeds, Deed.due, Deed.change, Deed.queued, weight, hcall]
    · cases hm
      exact ⟨r.userData,by simp [deeds],rfl⟩
  | refCountUp m o =>
    obtain ⟨hrole,rfl⟩ := hrule
    apply h.same
    intro hne
    have hm : m ≠ n := fun heq => hne (heq ▸ hrole)
    simp [deeds, Deed.due, Deed.change, Deed.queued, hm]
  | refCountDown m o =>
    obtain ⟨hrole,rfl⟩ := hrule
    apply h.same
    intro hne
    have hm : m ≠ n := fun heq => hne (heq ▸ hrole)
    simp [deeds, Deed.due, Deed.change, Deed.queued, hm]
  | fireAndForgetPut m keys ptrs sizes objs =>
    obtain ⟨hrole,rfl⟩ := hrule
    apply h.same
    intro hne
    have hm : m ≠ n := fun heq => hne (heq ▸ hrole)
    match r with
    | .error e => rfl
    | .ok () => simp [deeds, Deed.due, Deed.change, Deed.queued, weight, hm]
  | tensor o =>
    obtain rfl := hrule
    apply h.same
    intro _
    rcases r with e | _ | buffer <;> rfl
  | batchPutSync keys ptrs sizes =>
    obtain rfl := hrule
    apply h.same
    intro _
    rcases r with e | _ <;> rfl
  | allocate | batchGetSync _ _ _ | reshapePartialChunk _ _ | runTask _ =>
    obtain rfl := hrule
    exact h.same fun _ => rfl

theorem entered_acting {calls : List (Answered connectorCalls)} {role : Option Role}
    (h : acting.Entered none calls role) (n obj : ℕ) :
    RoleSays n obj role (calls.flatMap fun c => deeds c.op c.res) := by
  induction h with
  | nil => exact ⟨fun _ => rfl,by simp,by simp⟩
  | snoc _ _ hrule ih =>
    rw [List.flatMap_append,List.flatMap_singleton]
    exact roleSays_step ih hrule

theorem total_flatMap {α : Type} (f : Deed → ℤ) (g : α → List Deed) (xs : List α) :
    total f (xs.flatMap g) = (xs.map fun x => total f (g x)).sum := by
  induction xs with
  | nil => rfl
  | cons x xs ih => rw [List.flatMap_cons,total_append,ih,List.map_cons,List.sum_cons]

theorem netChange_eq_total {s : Connector} {tr : List (Event connectorCalls Connector)}
    {start : ConnectorProg ConnectorReply → Prop} {Q : Pool connectorCalls Connector ConnectorReply}
    (h : Run connectorMachine start (fun _ _ => True) ⟨s,[]⟩ tr Q) (n obj : ℕ) :
    netChange n obj tr = total (Deed.change n obj) (tr.flatMap fun e => deeds e.op e.res) := by
  rw [total_flatMap,netChange]
  apply congrArg List.sum
  apply List.map_congr_left
  intro e he
  obtain ⟨tr₁,tr₂,htr⟩ := List.append_of_mem he
  obtain ⟨-,-,-,-,c,hs⟩ := h.at_event htr
  obtain ⟨i,before,op,r,after⟩ := e
  dsimp only at hs ⊢
  cases op with
  | refCountUp m o =>
    obtain ⟨-,rfl⟩ := Prod.mk.inj (Option.some.inj hs)
    by_cases hm : m = n
    · by_cases ho : o = obj
      · simp [call?, deeds, Deed.change, hm, ho]
      · simp [call?, deeds, Deed.change, hm, ho, Function.update_of_ne (Ne.symm ho)]
    · simp [call?, deeds, Deed.change, hm]
  | refCountDown m o =>
    obtain ⟨-,rfl⟩ := Prod.mk.inj (Option.some.inj hs)
    by_cases hm : m = n
    · by_cases ho : o = obj
      · simp [call?, deeds, Deed.change, hm, ho]
      · simp [call?, deeds, Deed.change, hm, ho, Function.update_of_ne (Ne.symm ho)]
    · simp [call?, deeds, Deed.change, hm]
  | tensor o => rcases r with e | _ | buffer <;> rfl
  | batchPutSync keys ptrs sizes => rcases r with e | _ <;> rfl
  | fireAndForgetPut m keys ptrs sizes objs => rcases r with e | _ <;> rfl
  | enter | allocate | batchGetSync _ _ _ | reshapePartialChunk _ _ | takeTask | runTask _ => rfl

def queueWeight (n obj : ℕ) (s : Connector) : ℤ :=
  (s.taskQueue.map fun task => weight n obj task.userData).sum

theorem queueWeight_step {op : ConnectorCall} {c : ConnectorChoice} {r : op.Res} {s s' : Connector}
    (h : connectorMachine.step op c s = some (r,s')) :
    queueWeight n obj s' = queueWeight n obj s + total (Deed.queued n obj) (deeds op r) := by
  cases op with
  | tensor o =>
    obtain ⟨-,rfl⟩ := Prod.mk.inj (Option.some.inj h)
    rcases r with e | _ | buffer <;> exact (add_zero _).symm
  | batchPutSync keys ptrs sizes =>
    rw [eq_of_batchPutSync h]
    rcases r with e | _ <;> exact (add_zero _).symm
  | allocate =>
    simp only [connectorMachine, Connector.step] at h
    split at h <;> obtain ⟨-,rfl⟩ := Prod.mk.inj (Option.some.inj h) <;> exact (add_zero _).symm
  | fireAndForgetPut m keys ptrs sizes objs =>
    rcases queues_of_fireAndForgetPut h with ⟨⟨e,rfl⟩,rfl⟩ | ⟨rfl,rfl⟩
    · exact (add_zero _).symm
    · simp [queueWeight, deeds, Deed.queued]
  | takeTask =>
    simp only [connectorMachine, Connector.step] at h
    split at h
    · cases h
    · next task rest htasks =>
      obtain ⟨rfl,rfl⟩ := Prod.mk.inj (Option.some.inj h)
      simp only [queueWeight, htasks, List.map_cons, List.sum_cons, deeds, total_cons, total_nil,
        Deed.queued]
      omega
  | enter | refCountUp _ _ | refCountDown _ _ | batchGetSync _ _ _ | reshapePartialChunk _ _
    | runTask _ =>
    obtain ⟨-,rfl⟩ := Prod.mk.inj (Option.some.inj h)
    exact (add_zero _).symm

/-- A call gets the next number. -/
theorem numbers_step {op : ConnectorCall} {c : ConnectorChoice} {r : op.Res} {s s' : Connector}
    (h : connectorMachine.step op c s = some (r,s')) :
    ((deeds op r).flatMap Deed.numbers = [] ∧ s'.nextCall = s.nextCall) ∨
      ((deeds op r).flatMap Deed.numbers = [s.nextCall] ∧ s'.nextCall = s.nextCall + 1) := by
  cases op with
  | enter =>
    obtain ⟨rfl,rfl⟩ := Prod.mk.inj (Option.some.inj h)
    exact .inr ⟨rfl,rfl⟩
  | tensor o =>
    obtain ⟨-,rfl⟩ := Prod.mk.inj (Option.some.inj h)
    left
    rcases r with e | _ | buffer <;> exact ⟨rfl,rfl⟩
  | batchPutSync keys ptrs sizes =>
    obtain rfl := eq_of_batchPutSync h
    left
    rcases r with e | _ <;> exact ⟨rfl,rfl⟩
  | allocate =>
    left
    simp only [connectorMachine, Connector.step] at h
    split at h <;> obtain ⟨-,rfl⟩ := Prod.mk.inj (Option.some.inj h) <;> exact ⟨rfl,rfl⟩
  | fireAndForgetPut m keys ptrs sizes objs =>
    left
    rcases queues_of_fireAndForgetPut h with ⟨⟨e,rfl⟩,rfl⟩ | ⟨rfl,rfl⟩
    · exact ⟨rfl,rfl⟩
    · exact ⟨rfl,rfl⟩
  | takeTask =>
    left
    simp only [connectorMachine, Connector.step] at h
    split at h
    · cases h
    · obtain ⟨-,rfl⟩ := Prod.mk.inj (Option.some.inj h)
      exact ⟨rfl,rfl⟩
  | refCountUp _ _ | refCountDown _ _ | batchGetSync _ _ _ | reshapePartialChunk _ _ | runTask _ =>
    obtain ⟨-,rfl⟩ := Prod.mk.inj (Option.some.inj h)
    exact .inl ⟨rfl,rfl⟩

variable {connector : Connector} {tr : List (Event connectorCalls Connector)}
  {Q : Pool connectorCalls Connector ConnectorReply}

theorem queueWeight_eq_total (hqueue : connector.taskQueue = [])
    (h : Run connectorMachine (fun p => ∃ op, p = ConnectorOp.run op) (fun _ _ => True)
      ⟨connector,[]⟩ tr Q) (n obj : ℕ) :
    queueWeight n obj Q.state =
      total (Deed.queued n obj) (tr.flatMap fun e => deeds e.op e.res) := by
  apply Run.invariant (fun tr s => queueWeight n obj s =
    total (Deed.queued n obj) (tr.flatMap fun e => deeds e.op e.res)) ?_ ?_ h
  · simp [queueWeight, hqueue]
  · intro tr i s op c r s' hs _ hstep
    rw [queueWeight_step hstep,hs,List.flatMap_append,total_append,List.flatMap_singleton]

theorem mem_numbers : n ∈ done.flatMap Deed.numbers ↔ .entered n ∈ done := by
  constructor
  · intro h
    obtain ⟨d,hd,hn⟩ := List.mem_flatMap.mp h
    cases d with
    | entered m =>
      obtain rfl := List.mem_singleton.mp hn
      exact hd
    | _ => cases hn
  · intro h
    exact List.mem_flatMap.mpr ⟨_,h,List.mem_singleton_self n⟩

/-- No two threads have the same number. -/
theorem entered_unique (h : Run connectorMachine (fun p => ∃ op, p = ConnectorOp.run op)
      (fun _ _ => True) ⟨connector,[]⟩ tr Q) {i j : ℕ}
    (hi : .entered n ∈ deedsOf i tr) (hj : .entered n ∈ deedsOf j tr) : i = j := by
  have hcounts : Counts connectorMachine (fun _ _ => True)
      (fun op r => (deeds op r).flatMap Deed.numbers) Connector.nextCall := fun _ hs => numbers_step hs
  rw [← mem_numbers,deedsOf,List.flatMap_assoc] at hi hj
  exact h.note_unique hcounts hi hj

def Finished (reply : ConnectorReply) (done : List Deed) : Prop :=
  match reply with
  | .backgroundPut => ∀ n obj, total (Deed.due n obj) done = 0
  | .batchedPut fireAndForget n keys memoryObjs _ => PutEnds fireAndForget n keys memoryObjs done
  | _ => True

theorem kept_finished (op : ConnectorOp) : doing.Kept Finished op.run [] := by
  cases op with
  | batchedPut faf keys objs =>
    apply Ledger.kept_note
    intro n _
    exact Ledger.kept_bind (Ledger.kept_mono kept_batchedPut fun _ _ h => h)
  | put faf key obj =>
    apply Ledger.kept_note
    intro n _
    exact Ledger.kept_bind (Ledger.kept_mono kept_batchedPut fun _ _ h => h)
  | backgroundPut =>
    exact Ledger.kept_bind (Ledger.kept_mono kept_backgroundPut fun _ _ h => h)
  | batchedGet keys | batchedGetNonBlocking keys | get key =>
    apply Ledger.kept_note
    intro n _
    apply Ledger.kept_then
    intro _ _
    trivial

/-- A put changes no reference count on balance if and only if it is neutral. -/
theorem batchedPut_neutral_iff (hqueue : connector.taskQueue = [])
    (h : Run connectorMachine (fun p => ∃ op, p = ConnectorOp.run op) (fun _ _ => True)
      ⟨connector,[]⟩ tr Q) {i : ℕ} {result : Except String Unit}
    (hi : Q.threads[i]? = some (.ret (.batchedPut fireAndForget n keys memoryObjs result)))
    (hdone : BackgroundDone n tr Q) :
    (∀ obj, netChange n obj tr = 0) ↔ PutNeutral fireAndForget keys memoryObjs (deedsOf i tr) := by
  have hfinished : ∀ j reply, Q.threads[j]? = some (.ret reply) → Finished reply (deedsOf j tr) := by
    intro j reply hj
    have hstart : ∀ p, (∃ op, p = ConnectorOp.run op) → doing.Kept Finished p [] := by
      rintro _ ⟨op,rfl⟩
      exact kept_finished op
    exact Ledger.run_noting (fun _ _ => trivial) hstart h hj
  have hroles : ∀ j q, Q.threads[j]? = some q → ∃ role,
      (∀ obj, RoleSays n obj role (deedsOf j tr)) ∧ acting.Kept roleOf q role := by
    intro j q hj
    have hstart : ∀ p, (∃ op, p = ConnectorOp.run op) → acting.Kept roleOf p none := by
      rintro _ ⟨op,rfl⟩
      exact kept_roleOf op
    obtain ⟨role,hentered,hkept⟩ := Ledger.run_kept (fun _ _ => trivial) hstart h j q hj
    exact ⟨role,entered_acting hentered n,hkept⟩
  have hentered : .entered n ∈ deedsOf i tr := by
    obtain ⟨role,hrole,hkept⟩ := hroles i _ hi
    exact (hrole 0).2.1 n hkept
  -- nothing is due for the put in any other thread
  have hothers : ∀ j < Q.threads.length, j ≠ i → ∀ obj, total (Deed.due n obj) (deedsOf j tr) = 0 := by
    intro j hj hne obj
    obtain ⟨role,hrole,hkept⟩ := hroles j _ (List.getElem?_eq_getElem hj)
    obtain ⟨hzero,hcaller,hworker⟩ := hrole obj
    by_cases hcall : role.map Role.call = some n
    · obtain ⟨role,rfl,hn⟩ := Option.map_eq_some_iff.mp hcall
      cases role with
      | caller m =>
        obtain rfl : m = n := hn
        exact absurd (entered_unique h (hcaller m rfl) hentered) hne
      | worker m =>
        obtain rfl : m = n := hn
        obtain ⟨userData,hmem,hm⟩ := hworker m rfl
        obtain ⟨reply,hreply⟩ := hdone.finished j userData hmem hm
        rw [List.getElem?_eq_getElem hj] at hreply
        rw [Option.some.inj hreply] at hkept
        have hback := hfinished j reply (by rw [List.getElem?_eq_getElem hj,hreply])
        match reply with
        | .backgroundPut => exact hback m obj
        | .batchedPut .. => cases hkept
        | .batchedGet _ => obtain ⟨_,hrole⟩ := hkept; cases hrole
        | .batchedGetNonBlocking _ => obtain ⟨_,hrole⟩ := hkept; cases hrole
        | .get _ => obtain ⟨_,hrole⟩ := hkept; cases hrole
    · exact hzero hcall
  have hnet : ∀ obj, netChange n obj tr = total (Deed.due n obj) (deedsOf i tr) := by
    intro obj
    have hlt : i < Q.threads.length := (List.getElem?_eq_some_iff.mp hi).1
    have hempty : queueWeight n obj Q.state = 0 := by
      apply List.sum_eq_zero
      intro x hx
      obtain ⟨task,htask,rfl⟩ := List.mem_map.mp hx
      rw [weight,if_neg (hdone.taken task htask)]
    have hall : total (Deed.due n obj) (tr.flatMap fun e => deeds e.op e.res) =
        netChange n obj tr := by
      rw [total_due,← queueWeight_eq_total hqueue h,hempty,netChange_eq_total h,sub_zero]
    have hsum := sum_callsOf (fun a => total (Deed.due n obj) (deeds a.op a.res)) h.thread_lt
    have hthread : ∀ j, ((callsOf j tr).map fun a => total (Deed.due n obj) (deeds a.op a.res)).sum =
        total (Deed.due n obj) (deedsOf j tr) := fun j => (total_flatMap _ _ _).symm
    calc netChange n obj tr
        = (tr.map fun e => total (Deed.due n obj) (deeds e.op e.res)).sum := by
          rw [← hall,total_flatMap]
      _ = ∑ j ∈ Finset.range Q.threads.length, total (Deed.due n obj) (deedsOf j tr) := by
          rw [← Finset.sum_congr rfl fun j _ => hthread j]
          exact hsum.symm
      _ = total (Deed.due n obj) (deedsOf i tr) := by
          apply Finset.sum_eq_single i
          · exact fun j hj hne => hothers j (Finset.mem_range.mp hj) hne obj
          · exact fun hnot => absurd (Finset.mem_range.mpr hlt) hnot
  have hends : PutEnds fireAndForget n keys memoryObjs (deedsOf i tr) := hfinished i _ hi
  rw [← hends.due_iff]
  exact forall_congr' fun obj => by rw [hnet obj]

theorem backgroundDone_of_returned (hret : Q.Returned) (hqueue : Q.state.taskQueue = [])
    (h : Run connectorMachine (fun p => ∃ op, p = ConnectorOp.run op) (fun _ _ => True)
      ⟨connector,[]⟩ tr Q) (n : ℕ) : BackgroundDone n tr Q := by
  constructor
  · intro task htask
    rw [hqueue] at htask
    cases htask
  · intro j userData hmem _
    obtain ⟨a,ha,-⟩ := List.mem_flatMap.mp hmem
    obtain ⟨e,he,rfl,-⟩ := mem_callsOf.mp ha
    have hlt := h.thread_lt e he
    obtain ⟨reply,hreply⟩ := hret.ret (List.getElem_mem hlt)
    exact ⟨reply,by rw [List.getElem?_eq_getElem hlt,hreply]⟩

def outcome (x : List (Event connectorCalls Connector) ×
    Pool connectorCalls Connector ConnectorReply) : List (Option ConnectorReply) × ℕ × ℤ :=
  (x.2.replies,x.2.state.taskQueue.length,netChange 0 5 x.1)

theorem sample_starts (ops : List ConnectorOp) :
    ∀ p ∈ ops.map ConnectorOp.run, ∃ op, p = ConnectorOp.run op := by
  intro p hp
  obtain ⟨op,-,rfl⟩ := List.mem_map.mp hp
  exact ⟨op,rfl⟩

/-- An object twice in the background. -/
theorem batchedPut_neutral_sample : ∃ (tr : List (Event connectorCalls Connector))
    (Q : Pool connectorCalls Connector ConnectorReply),
    Q.replies = [some (.batchedPut true 0 ["a","b"] [5,5] (.ok ())),some .backgroundPut] ∧
    ((∀ obj, netChange 0 obj tr = 0) ↔ PutNeutral true ["a","b"] [5,5] (deedsOf 0 tr)) := by
  have hfollow : (Pool.follow (M := connectorMachine) (fun _ _ => true)
      [(0,{}),(0,{}),(0,{}),(0,{}),(0,{}),(0,{}),(1,{}),(1,{}),(1,{}),(1,{})]
      ⟨.create,[ConnectorOp.batchedPut true ["a","b"] [5,5],.backgroundPut].map
        ConnectorOp.run⟩).map outcome =
      some ([some (.batchedPut true 0 ["a","b"] [5,5] (.ok ())),some .backgroundPut],0,0) := rfl
  obtain ⟨tr,Q,hrun,hQ⟩ := run_of_schedule _ (sample_starts _) hfollow
  have hrun : Run connectorMachine (fun p => ∃ op, p = ConnectorOp.run op) (fun _ _ => True)
      ⟨.create,[]⟩ tr Q := hrun.ok_mono fun _ _ _ => trivial
  obtain ⟨hreplies,hrest⟩ := Prod.mk.inj hQ
  obtain ⟨hlength,-⟩ := Prod.mk.inj hrest
  dsimp only at hreplies hlength
  have hret : Q.Returned := by
    intro reply hreply
    rw [hreplies] at hreply
    simp only [List.mem_cons, List.not_mem_nil, or_false] at hreply
    rcases hreply with rfl | rfl <;> rfl
  have hvalue : Q.threads[0]? = some (.ret (.batchedPut true 0 ["a","b"] [5,5] (.ok ()))) := by
    have hget := congrArg (fun replies => replies[0]?) hreplies
    simp only [Pool.replies, List.getElem?_map, List.getElem?_cons_zero] at hget
    obtain ⟨p,hp,hret⟩ := Option.map_eq_some_iff.mp hget
    rw [hp,Prog.value_eq_some.mp hret]
  exact ⟨tr,Q,hreplies,batchedPut_neutral_iff rfl hrun hvalue
    (backgroundDone_of_returned hret (List.length_eq_zero_iff.mp hlength) hrun 0)⟩

/-- A put in the foreground that succeeds drops a reference. -/
theorem exists_reference_dropped : ∃ tr Q, Run connectorMachine (fun p => ∃ op, p = ConnectorOp.run op)
      (fun _ _ => True) ⟨.create,[]⟩ tr Q ∧
    Q.replies = [some (.batchedPut false 0 ["a"] [5] (.ok ()))] ∧ BackgroundDone 0 tr Q ∧
    netChange 0 5 tr = -1 := by
  have hfollow : (Pool.follow (M := connectorMachine) (fun _ _ => true)
      [(0,{}),(0,{}),(0,{}),(0,{})]
      ⟨.create,[ConnectorOp.batchedPut false ["a"] [5]].map ConnectorOp.run⟩).map outcome =
      some ([some (.batchedPut false 0 ["a"] [5] (.ok ()))],0,-1) := rfl
  obtain ⟨tr,Q,hrun,hQ⟩ := run_of_schedule _ (sample_starts _) hfollow
  have hrun : Run connectorMachine (fun p => ∃ op, p = ConnectorOp.run op) (fun _ _ => True)
      ⟨.create,[]⟩ tr Q := hrun.ok_mono fun _ _ _ => trivial
  obtain ⟨hreplies,hrest⟩ := Prod.mk.inj hQ
  obtain ⟨hlength,hchange⟩ := Prod.mk.inj hrest
  dsimp only at hreplies hlength hchange
  have hret : Q.Returned := by
    intro reply hreply
    rw [hreplies] at hreply
    obtain rfl := List.mem_singleton.mp hreply
    rfl
  exact ⟨tr,Q,hrun,hreplies,
    backgroundDone_of_returned hret (List.length_eq_zero_iff.mp hlength) hrun 0,hchange⟩

end FalconKV.PutReferences
