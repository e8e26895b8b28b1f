import FalconKV.Python.Bridge

/-! # What becomes of the tasks of a bridge

A task is in the queue, in the hands of a worker, or has called back. A worker leaves when
the queue is empty, so a task is lost only if it comes when both have left. A call of
`Close` that finds the flag set returns while the first one may still wait for the workers.
-/
namespace FalconKV

def BridgeWorker.hand : BridgeWorker → Hand ℕ
  | waiting => .free
  | taken task | ran task => .busy task
  | left => .left

theorem BridgeWorker.hand_eq_left {w : BridgeWorker} : w.hand = .left ↔ w = .left := by
  cases w <;> simp [hand]

namespace BridgeState
variable {s : BridgeState} {task : ℕ}

def crew (s : BridgeState) : Crew ℕ := ⟨s.taskQueue,s.workers.map BridgeWorker.hand⟩

theorem deserted_crew : s.crew.Deserted ↔ ∀ w ∈ s.workers, w = .left := by
  simp only [Crew.Deserted, crew, List.forall_mem_map, BridgeWorker.hand_eq_left]

theorem crew_setWorker (i : ℕ) (w : BridgeWorker) : (s.setWorker i w).crew = s.crew.setHand i w.hand := by
  simp only [crew, setWorker, Crew.setHand, List.map_set]

theorem hands_crew {i : ℕ} {w : BridgeWorker} (h : s.workers[i]? = some w) :
    s.crew.hands[i]? = some w.hand := by
  simp only [crew, List.getElem?_map, h, Option.map_some]

def owing (s : BridgeState) (task : ℕ) : ℕ := s.workers.count (.ran task)

theorem owing_setWorker {i : ℕ} {w w' : BridgeWorker} (hi : s.workers[i]? = some w) :
    (s.setWorker i w').owing task + (if w = .ran task then 1 else 0) =
      s.owing task + if w' = .ran task then 1 else 0 := count_set_add hi

theorem owing_le_count : s.owing task ≤ s.crew.count task := by
  have hle : s.workers.count (.ran task) ≤
      (s.workers.map BridgeWorker.hand).count (BridgeWorker.ran task).hand := List.count_le_count_map
  calc s.owing task ≤ s.crew.hands.count (.busy task) := hle
    _ ≤ s.crew.count task := Nat.le_add_left _ _

end BridgeState

namespace BridgeTasks
open AtomicCalls

inductive Deed
  | submitted (task : ℕ)
  | ran (task : ℕ) (impl : Bool)
  | calledBack (task : ℕ) (impl : Bool)
  | joined
  | closed
  deriving DecidableEq

def deeds (op : BridgeCall) (r : op.Res) : List Deed :=
  match op, r with
  | .submitTask, task => [.submitted task]
  | .batchPutSync _, (task,impl) => [.ran task impl]
  | .callback _, (task,impl) => [.calledBack task impl]
  | .join, _ => [.joined]
  | .setStopped, stopped => if stopped then [.closed] else []
  | .closeStore, _ => [.closed]
  | _, _ => []

def allDeeds (tr : List (Event bridgeCalls (BridgeState × Bool))) : List Deed :=
  tr.flatMap fun e => deeds e.op e.res

/-- The runs of a task, and whether `impl_` was there. -/
def Deed.run (task : ℕ) : Deed → List Bool
  | ran task' impl => if task' = task then [impl] else []
  | _ => []

def Deed.callback (task : ℕ) : Deed → List Bool
  | calledBack task' impl => if task' = task then [impl] else []
  | _ => []

/-- The queue is empty, and every task that was put into it has run once and has called
back once while `impl_` was there. -/
structure AllCalledBack (tr : List (Event bridgeCalls (BridgeState × Bool))) (s : BridgeState) :
    Prop where
  queue : s.taskQueue = []
  once : ∀ task, .submitted task ∈ allDeeds tr → (allDeeds tr).flatMap (Deed.run task) = [true] ∧
    (allDeeds tr).flatMap (Deed.callback task) = [true]

/-- A task comes while there is a worker and no call of `Close` has ended, and a call of
`Close` that finds the flag set finds no task in the queue and none in hand. -/
def Orderly (x : BridgeState × Bool) : BridgeCall → Prop
  | .submitTask => (∃ w ∈ x.1.workers, w ≠ .left) ∧ x.2 = false
  | .setStopped => x.1.stopped = true → ∀ task, x.1.crew.count task = 0
  | _ => True

variable {done : List Deed} {s s' : BridgeState} {closed : Bool} {task : ℕ}

def runs (task : ℕ) (done : List Deed) : List Bool := done.flatMap (Deed.run task)

def callbacks (task : ℕ) (done : List Deed) : List Bool := done.flatMap (Deed.callback task)

structure Sound (done : List Deed) (s : BridgeState) (closed : Bool) : Prop where
  counted : ∀ task, s.crew.count task + (callbacks task done).length =
    if task < s.nextTask then 1 else 0
  owed : ∀ task, (runs task done).length = (callbacks task done).length + s.owing task
  impl : ∀ task, ∀ impl ∈ runs task done ++ callbacks task done, impl = true
  served : s.crew.Served
  submitted : ∀ task, .submitted task ∈ done → task < s.nextTask
  joined : .joined ∈ done → s.workers = []
  alive : s.workers ≠ [] → s.impl = true
  closed_iff : .closed ∈ done → closed = true
  settled : closed = true → ∀ task, s.crew.count task = 0

theorem runs_append (done new : List Deed) : runs task (done ++ new) = runs task done ++ runs task new :=
  List.flatMap_append

theorem callbacks_append (done new : List Deed) :
    callbacks task (done ++ new) = callbacks task done ++ callbacks task new := List.flatMap_append

theorem length_runs_ran (task task' : ℕ) (impl : Bool) :
    (runs task' [.ran task impl]).length = if task = task' then 1 else 0 := by
  simp only [runs, List.flatMap_singleton, Deed.run]
  split <;> rfl

theorem length_callbacks_calledBack (task task' : ℕ) (impl : Bool) :
    (callbacks task' [.calledBack task impl]).length = if task = task' then 1 else 0 := by
  simp only [callbacks, List.flatMap_singleton, Deed.callback]
  split <;> rfl

theorem sound_create : Sound [] .create false where
  counted _ := rfl
  owed _ := rfl
  impl := nofun
  served _ := rfl
  submitted := nofun
  joined := nofun
  alive _ := rfl
  closed_iff := nofun
  settled := nofun

/-- Deeds that are not of a task. -/
theorem Sound.note (h : Sound done s closed) {new : List Deed} {closed' : Bool}
    (hnew : ∀ d ∈ new, d = .joined ∨ d = .closed) (hjoined : .joined ∈ new → s.workers = [])
    (hclosed : .closed ∈ new ∨ closed = true → closed' = true)
    (hsettled : closed' = true → ∀ task, s.crew.count task = 0) :
    Sound (done ++ new) s closed' := by
  have hruns : ∀ task, runs task new = [] := by
    intro task
    apply List.flatMap_eq_nil_iff.mpr
    intro d hd
    rcases hnew d hd with rfl | rfl <;> rfl
  have hcallbacks : ∀ task, callbacks task new = [] := by
    intro task
    apply List.flatMap_eq_nil_iff.mpr
    intro d hd
    rcases hnew d hd with rfl | rfl <;> rfl
  refine ⟨?_,?_,?_,h.served,?_,?_,h.alive,?_,hsettled⟩
  · intro task
    rw [callbacks_append,hcallbacks,List.append_nil]
    exact h.counted task
  · intro task
    rw [runs_append,callbacks_append,hruns,hcallbacks,List.append_nil,List.append_nil]
    exact h.owed task
  · intro task
    rw [runs_append,callbacks_append,hruns,hcallbacks,List.append_nil,List.append_nil]
    exact h.impl task
  · intro task hmem
    rcases List.mem_append.mp hmem with hmem | hmem
    · exact h.submitted task hmem
    · rcases hnew _ hmem with heq | heq <;> cases heq
  · intro hmem
    rcases List.mem_append.mp hmem with hmem | hmem
    · exact h.joined hmem
    · exact hjoined hmem
  · intro hmem
    rcases List.mem_append.mp hmem with hmem | hmem
    · exact hclosed (.inr (h.closed_iff hmem))
    · exact hclosed (.inl hmem)

theorem Sound.submit (h : Sound done s false) (hthere : ∃ w ∈ s.workers, w ≠ .left) :
    Sound (done ++ [.submitted s.nextTask])
      { s with nextTask := s.nextTask + 1, taskQueue := s.taskQueue ++ [s.nextTask] } false := by
  have hcrew : (BridgeState.crew { s with
      nextTask := s.nextTask + 1
      taskQueue := s.taskQueue ++ [s.nextTask] }) = s.crew.submit s.nextTask := rfl
  have hruns : ∀ task, runs task (done ++ [.submitted s.nextTask]) = runs task done := by
    intro task
    rw [runs_append]
    exact List.append_nil _
  have hcallbacks : ∀ task, callbacks task (done ++ [.submitted s.nextTask]) = callbacks task done := by
    intro task
    rw [callbacks_append]
    exact List.append_nil _
  refine ⟨?_,?_,?_,?_,?_,?_,h.alive,?_,nofun⟩
  · intro task
    have hcount := h.counted task
    rw [hcrew,Crew.count_submit,hcallbacks]
    by_cases heq : s.nextTask = task
    · subst heq
      rw [if_neg (Nat.lt_irrefl _)] at hcount
      rw [if_pos rfl,if_pos (Nat.lt_succ_self _)]
      omega
    · by_cases hlt : task < s.nextTask
      · rw [if_pos hlt] at hcount
        rw [if_neg heq,if_pos (Nat.lt_succ_of_lt hlt)]
        omega
      · rw [if_neg hlt] at hcount
        have hnot : ¬task < s.nextTask + 1 := by omega
        rw [if_neg heq,if_neg hnot]
        omega
  · intro task
    rw [hruns,hcallbacks]
    exact h.owed task
  · intro task
    rw [hruns,hcallbacks]
    exact h.impl task
  · rw [hcrew]
    apply Crew.served_submit
    rw [BridgeState.deserted_crew]
    obtain ⟨w,hw,hleft⟩ := hthere
    exact fun hall => hleft (hall w hw)
  · intro task hmem
    rcases List.mem_append.mp hmem with hmem | hmem
    · exact Nat.lt_succ_of_lt (h.submitted task hmem)
    · cases List.mem_singleton.mp hmem
      exact Nat.lt_succ_self _
  · intro hmem
    have hmem : .joined ∈ done := by simpa using hmem
    exact h.joined hmem
  · intro hmem
    have hmem : .closed ∈ done := by simpa using hmem
    exact h.closed_iff hmem

theorem workers_ne_nil {i : ℕ} {w : BridgeWorker} (hi : s.workers[i]? = some w) :
    s.workers ≠ [] := by
  intro hnil
  rw [hnil] at hi
  cases hi

/-- A worker goes on: what it calls back is in hand no more, and what it has run it owes. -/
theorem Sound.setWorker (h : Sound done s closed) {queue : List ℕ} {i : ℕ} {w w' : BridgeWorker}
    {new : List Deed} (hi : s.workers[i]? = some w)
    (hnew : ∀ d ∈ new, ∃ task, d = .ran task s.impl ∨ d = .calledBack task s.impl)
    (hcount : ∀ task, ({ s with taskQueue := queue }.setWorker i w').crew.count task +
      (callbacks task new).length = s.crew.count task)
    (howing : ∀ task, ({ s with taskQueue := queue }.setWorker i w').owing task +
      (callbacks task new).length = s.owing task + (runs task new).length)
    (hserved : ({ s with taskQueue := queue }.setWorker i w').crew.Served) :
    Sound (done ++ new) ({ s with taskQueue := queue }.setWorker i w') closed := by
  have hne := workers_ne_nil hi
  have hmem : ∀ d ∈ done ++ new, d ∈ done ∨ ∃ task, d = .ran task s.impl ∨ d = .calledBack task s.impl := by
    intro d hd
    exact (List.mem_append.mp hd).imp_right (hnew d)
  have himpl : ∀ task, ∀ impl ∈ runs task new ++ callbacks task new, impl = true := by
    intro task impl himpl
    rw [← h.alive hne]
    rcases List.mem_append.mp himpl with himpl | himpl
    · obtain ⟨d,hd,himpl⟩ := List.mem_flatMap.mp himpl
      obtain ⟨task',rfl | rfl⟩ := hnew d hd
      · simp only [Deed.run] at himpl
        split at himpl
        · exact List.mem_singleton.mp himpl
        · cases himpl
      · cases himpl
    · obtain ⟨d,hd,himpl⟩ := List.mem_flatMap.mp himpl
      obtain ⟨task',rfl | rfl⟩ := hnew d hd
      · cases himpl
      · simp only [Deed.callback] at himpl
        split at himpl
        · exact List.mem_singleton.mp himpl
        · cases himpl
  constructor
  · intro task
    have hold := h.counted task
    rw [← hcount task] at hold
    rw [callbacks_append,List.length_append,← Nat.add_assoc,Nat.add_right_comm]
    exact hold
  · intro task
    have hold := h.owed task
    have hstep := howing task
    rw [runs_append,callbacks_append,List.length_append,List.length_append]
    omega
  · intro task impl hd
    rw [runs_append,callbacks_append] at hd
    simp only [List.mem_append] at hd
    rcases hd with (hd | hd) | hd | hd
    · exact h.impl task impl (List.mem_append_left _ hd)
    · exact himpl task impl (List.mem_append_left _ hd)
    · exact h.impl task impl (List.mem_append_right _ hd)
    · exact himpl task impl (List.mem_append_right _ hd)
  · exact hserved
  · intro task hd
    rcases hmem _ hd with hd | ⟨_,heq | heq⟩
    · exact h.submitted task hd
    · cases heq
    · cases heq
  · intro hd
    rcases hmem _ hd with hd | ⟨_,heq | heq⟩
    · exact absurd (h.joined hd) hne
    · cases heq
    · cases heq
  · exact fun _ => h.alive hne
  · intro hd
    rcases hmem _ hd with hd | ⟨_,heq | heq⟩
    · exact h.closed_iff hd
    · cases heq
    · cases heq
  · intro hclosed task
    have hzero := h.settled hclosed task
    have hstep := hcount task
    omega

/-- The same when nothing is run and nothing called back. -/
theorem Sound.move (h : Sound done s closed) {queue : List ℕ} {i : ℕ} {w w' : BridgeWorker}
    (hi : s.workers[i]? = some w)
    (hcount : ∀ task, ({ s with taskQueue := queue }.setWorker i w').crew.count task =
      s.crew.count task)
    (howing : ∀ task, ({ s with taskQueue := queue }.setWorker i w').owing task = s.owing task)
    (hserved : ({ s with taskQueue := queue }.setWorker i w').crew.Served) :
    Sound done ({ s with taskQueue := queue }.setWorker i w') closed := by
  have hmoved : Sound (done ++ []) ({ s with taskQueue := queue }.setWorker i w') closed :=
    h.setWorker hi nofun hcount howing hserved
  rwa [List.append_nil] at hmoved

theorem Sound.take (h : Sound done s closed) {i : ℕ} {rest : List ℕ}
    (hi : s.workers[i]? = some .waiting) (hqueue : s.taskQueue = task :: rest) :
    Sound done ({ s with taskQueue := rest }.setWorker i (.taken task)) closed := by
  have hhand : s.crew.hands[i]? = some .free := BridgeState.hands_crew hi
  have hcrew : ({ s with taskQueue := rest }.setWorker i (.taken task)).crew =
      { s.crew with queue := rest }.setHand i (.busy task) := BridgeState.crew_setWorker i (.taken task)
  apply h.move hi
  · intro task'
    rw [hcrew]
    exact Crew.count_take hqueue hhand
  · intro task'
    have hset : ({ s with taskQueue := rest }.setWorker i (.taken task)).owing task' +
        (if BridgeWorker.waiting = .ran task' then 1 else 0) =
        s.owing task' + if BridgeWorker.taken task = .ran task' then 1 else 0 :=
      BridgeState.owing_setWorker hi
    rwa [if_neg nofun,if_neg nofun] at hset
  · rw [hcrew]
    exact Crew.served_setHand hhand nofun

/-- A worker leaves when it finds nothing in the queue. -/
theorem Sound.leave (h : Sound done s closed) {i : ℕ} (hi : s.workers[i]? = some .waiting)
    (hqueue : s.taskQueue = []) : Sound done (s.setWorker i .left) closed := by
  have hhand : s.crew.hands[i]? = some .free := BridgeState.hands_crew hi
  have hcrew : (s.setWorker i .left).crew = s.crew.setHand i .left := BridgeState.crew_setWorker i .left
  apply h.move hi
  · intro task'
    have hcount : (s.crew.setHand i .left).count task' = s.crew.count task' :=
      Crew.count_setHand_of_ne hhand nofun nofun
    rwa [← hcrew] at hcount
  · intro task'
    have hset : (s.setWorker i .left).owing task' +
        (if BridgeWorker.waiting = .ran task' then 1 else 0) =
        s.owing task' + if BridgeWorker.left = .ran task' then 1 else 0 :=
      BridgeState.owing_setWorker hi
    rwa [if_neg nofun,if_neg nofun] at hset
  · exact hcrew ▸ Crew.served_leave fun hne => absurd hqueue hne

theorem Sound.batchPutSync (h : Sound done s closed) {i : ℕ}
    (hi : s.workers[i]? = some (.taken task)) :
    Sound (done ++ [.ran task s.impl]) (s.setWorker i (.ran task)) closed := by
  have hhand : s.crew.hands[i]? = some (.busy task) := BridgeState.hands_crew hi
  have hcrew : (s.setWorker i (.ran task)).crew = s.crew.setHand i (.busy task) :=
    BridgeState.crew_setWorker i (.ran task)
  apply h.setWorker hi
  · intro d hd
    exact ⟨task,.inl (List.mem_singleton.mp hd)⟩
  · intro task'
    have hcount : (s.crew.setHand i (.busy task)).count task' = s.crew.count task' :=
      Crew.count_setHand_self hhand
    rwa [← hcrew] at hcount
  · intro task'
    have hset : (s.setWorker i (.ran task)).owing task' +
        (if BridgeWorker.taken task = .ran task' then 1 else 0) =
        s.owing task' + if BridgeWorker.ran task = .ran task' then 1 else 0 :=
      BridgeState.owing_setWorker hi
    have howing : (s.setWorker i (.ran task)).owing task' =
        s.owing task' + if task = task' then 1 else 0 := by simpa using hset
    rw [length_runs_ran]
    exact howing
  · rw [hcrew]
    exact Crew.served_setHand hhand nofun

theorem Sound.callback (h : Sound done s closed) {i : ℕ} (hi : s.workers[i]? = some (.ran task)) :
    Sound (done ++ [.calledBack task s.impl]) (s.setWorker i .waiting) closed := by
  have hhand : s.crew.hands[i]? = some (.busy task) := BridgeState.hands_crew hi
  have hcrew : (s.setWorker i .waiting).crew = s.crew.setHand i .free :=
    BridgeState.crew_setWorker i .waiting
  apply h.setWorker hi
  · intro d hd
    exact ⟨task,.inr (List.mem_singleton.mp hd)⟩
  · intro task'
    have hcount : (s.crew.setHand i .free).count task' + (if task = task' then 1 else 0) =
        s.crew.count task' := Crew.count_finish hhand
    rw [← hcrew] at hcount
    rw [length_callbacks_calledBack]
    exact hcount
  · intro task'
    have hset : (s.setWorker i .waiting).owing task' +
        (if BridgeWorker.ran task = .ran task' then 1 else 0) =
        s.owing task' + if BridgeWorker.waiting = .ran task' then 1 else 0 :=
      BridgeState.owing_setWorker hi
    have howing : (s.setWorker i .waiting).owing task' + (if task = task' then 1 else 0) =
        s.owing task' := by simpa using hset
    rw [length_callbacks_calledBack]
    exact howing
  · rw [hcrew]
    exact Crew.served_setHand hhand (by simp)

theorem Sound.join (h : Sound done s closed) (hleft : ∀ w ∈ s.workers, w = .left) :
    Sound (done ++ [.joined]) { s with workers := [] } closed := by
  have hdeserted : s.crew.Deserted := BridgeState.deserted_crew.mpr hleft
  have hqueue : s.taskQueue = [] := h.served hdeserted
  have hcount : ∀ task, (BridgeState.crew { s with workers := [] }).count task = s.crew.count task := by
    intro task
    rw [Crew.count_of_deserted hdeserted,
      Crew.count_of_deserted (by simp [Crew.Deserted, BridgeState.crew])]
    rfl
  have hzero : ∀ task, s.owing task = 0 := by
    intro task
    apply List.count_eq_zero.mpr
    intro hmem
    cases hleft _ hmem
  have hmoved : Sound done { s with workers := [] } closed := by
    refine ⟨?_,?_,h.impl,fun _ => hqueue,h.submitted,fun _ => rfl,nofun,h.closed_iff,?_⟩
    · intro task
      rw [hcount]
      exact h.counted task
    · intro task
      rw [h.owed,hzero]
      rfl
    · intro hclosed task
      rw [hcount]
      exact h.settled hclosed task
  apply hmoved.note (by simp) (fun _ => rfl) (by simp) hmoved.settled

/-- A call of `Close` that finds the flag set has come to its end. -/
theorem Sound.setStopped (h : Sound done s closed)
    (hover : s.stopped = true → ∀ task, s.crew.count task = 0) :
    Sound (done ++ if s.stopped then [.closed] else []) { s with stopped := true }
      (closed || s.stopped) := by
  have hmoved : Sound done { s with stopped := true } closed :=
    ⟨h.counted,h.owed,h.impl,h.served,h.submitted,h.joined,h.alive,h.closed_iff,h.settled⟩
  cases hstopped : s.stopped with
  | false =>
    rw [Bool.or_false]
    simpa using hmoved
  | true =>
    rw [Bool.or_true,if_pos rfl]
    exact hmoved.note (by simp) (by simp) (fun _ => rfl) fun _ => hover hstopped

theorem Sound.count_eq_zero (h : Sound done s closed) (hjoined : .joined ∈ done) (task : ℕ) :
    s.crew.count task = 0 := by
  have hdeserted : s.crew.Deserted := by
    rw [BridgeState.deserted_crew,h.joined hjoined]
    exact nofun
  rw [Crew.count_of_deserted hdeserted,h.served hdeserted]
  rfl

theorem Sound.closeImpl (h : Sound done s closed) (hjoined : .joined ∈ done) :
    Sound done { s with impl := false } closed := by
  have hnone := h.joined hjoined
  exact ⟨h.counted,h.owed,h.impl,h.served,h.submitted,h.joined,fun hne => absurd hnone hne,
    h.closed_iff,h.settled⟩

theorem Sound.closeStore (h : Sound done s closed) (hjoined : .joined ∈ done) :
    Sound (done ++ [.closed]) s true :=
  h.note (by simp) (by simp) (fun _ => rfl) fun _ => h.count_eq_zero hjoined

def needs (op : BridgeCall) (done : List Deed) : Prop :=
  match op with
  | .closeImpl | .closeStore => .joined ∈ done
  | _ => True

theorem sound_step {op : BridgeCall} {c : Unit} {r : op.Res} (h : Sound done s closed)
    (hok : Orderly (s,closed) op) (hneeds : needs op done)
    (hs : bridgeMachine.step op c s = some (r,s')) :
    Sound (done ++ deeds op r) s' (closed || op.ends r) := by
  cases op with
  | submitTask =>
    obtain ⟨rfl,rfl⟩ := Prod.mk.inj (Option.some.inj hs)
    obtain ⟨hthere,hopen⟩ := hok
    dsimp only at hopen
    subst hopen
    exact h.submit hthere
  | notifyOne | notifyAll =>
    obtain ⟨rfl,rfl⟩ := Prod.mk.inj (Option.some.inj hs)
    simpa [deeds, BridgeCall.ends] using h
  | drainQueue =>
    simp only [bridgeMachine, BridgeState.step] at hs
    split at hs
    · obtain ⟨rfl,rfl⟩ := Prod.mk.inj (Option.some.inj hs)
      simpa [deeds, BridgeCall.ends] using h
    · cases hs
  | setStopped =>
    obtain ⟨rfl,rfl⟩ := Prod.mk.inj (Option.some.inj hs)
    exact h.setStopped hok
  | join =>
    simp only [bridgeMachine, BridgeState.step] at hs
    split at hs
    · next hall =>
      obtain ⟨rfl,rfl⟩ := Prod.mk.inj (Option.some.inj hs)
      have hleft : ∀ w ∈ s.workers, w = .left := by simpa using hall
      simpa [deeds, BridgeCall.ends] using h.join hleft
    · cases hs
  | closeImpl =>
    obtain ⟨rfl,rfl⟩ := Prod.mk.inj (Option.some.inj hs)
    simpa [deeds, BridgeCall.ends] using h.closeImpl hneeds
  | closeStore =>
    obtain ⟨rfl,rfl⟩ := Prod.mk.inj (Option.some.inj hs)
    simpa [deeds, BridgeCall.ends] using h.closeStore hneeds
  | takeTask i =>
    simp only [bridgeMachine, BridgeState.step, BridgeState.takeTask] at hs
    split at hs
    · next hi =>
      split at hs
      · next task rest hqueue =>
        obtain ⟨rfl,rfl⟩ := Prod.mk.inj (Option.some.inj hs)
        simpa [deeds, BridgeCall.ends] using h.take hi hqueue
      · next hqueue =>
        split at hs
        · obtain ⟨rfl,rfl⟩ := Prod.mk.inj (Option.some.inj hs)
          simpa [deeds, BridgeCall.ends] using h.leave hi hqueue
        · cases hs
    · cases hs
  | batchPutSync i =>
    simp only [bridgeMachine, BridgeState.step, BridgeState.batchPutSync] at hs
    split at hs
    · next hi =>
      obtain ⟨rfl,rfl⟩ := Prod.mk.inj (Option.some.inj hs)
      simpa [deeds, BridgeCall.ends] using h.batchPutSync hi
    · cases hs
  | callback i =>
    simp only [bridgeMachine, BridgeState.step, BridgeState.callback] at hs
    split at hs
    · next hi =>
      obtain ⟨rfl,rfl⟩ := Prod.mk.inj (Option.some.inj hs)
      simpa [deeds, BridgeCall.ends] using h.callback hi
    · cases hs

abbrev doing : Ledger bridgeCalls (List Deed) := .demanding needs deeds

def Finished (op : BridgeOp) (done : List Deed) : Prop := op = .close → .closed ∈ done

theorem kept_close : doing.Kept (fun _ done => .closed ∈ done) BridgeOps.close [] := by
  apply Ledger.kept_demand trivial
  intro _
  apply Ledger.kept_demand trivial
  intro stopped
  cases stopped with
  | true => exact List.mem_singleton_self _
  | false =>
    apply Ledger.kept_demand trivial
    intro _
    apply Ledger.kept_demand trivial
    intro _
    have himpl : needs .closeImpl [.joined] := List.mem_singleton_self _
    apply Ledger.kept_demand himpl
    intro _
    have hstore : needs .closeStore [.joined] := List.mem_singleton_self _
    apply Ledger.kept_demand hstore
    intro _
    exact List.mem_cons_of_mem _ (List.mem_singleton_self _)

theorem kept_workerRound (i : ℕ) :
    doing.Kept (fun _ _ => True) (BridgeOps.workerRound i) [] := by
  apply Ledger.kept_demand trivial
  intro task
  cases task with
  | none => trivial
  | some task =>
    apply Ledger.kept_demand trivial
    intro _
    apply Ledger.kept_demand trivial
    intro _
    trivial

theorem kept_start (p : BridgeProg BridgeOp) (hp : ∃ op, p = BridgeOp.run op) :
    doing.Kept Finished p [] := by
  obtain ⟨op,rfl⟩ := hp
  cases op with
  | fireAndForgetPut =>
    apply Ledger.kept_bind
    apply Ledger.kept_demand trivial
    intro _
    apply Ledger.kept_demand trivial
    intro _
    exact nofun
  | close =>
    apply Ledger.kept_bind
    exact Ledger.kept_mono kept_close fun _ _ hclosed _ => hclosed
  | workerRound i =>
    apply Ledger.kept_bind
    exact Ledger.kept_mono (kept_workerRound i) fun _ _ _ => nofun

variable {tr : List (Event bridgeCalls (BridgeState × Bool))}
  {Q : Pool bridgeCalls (BridgeState × Bool) BridgeOp}

def deedsOf (i : ℕ) (tr : List (Event bridgeCalls (BridgeState × Bool))) : List Deed :=
  (callsOf i tr).flatMap fun c => deeds c.op c.res

theorem deedsOf_subset (i : ℕ) (tr : List (Event bridgeCalls (BridgeState × Bool))) :
    deedsOf i tr ⊆ allDeeds tr :=
  (callsOf_flatMap_sublist i tr fun c => deeds c.op c.res).subset

theorem sound_run (h : BridgeRun Orderly tr Q) : Sound (allDeeds tr) Q.state.1 Q.state.2 := by
  have hcreate : Sound (allDeeds []) BridgeState.create false := sound_create
  apply Ledger.run_invariant_demanding kept_start (fun tr x => Sound (allDeeds tr) x.1 x.2)
    hcreate ?_ h
  intro tr i s op c r s' hsound hneeds hok hs
  have hneeds : needs op (allDeeds tr) := by
    cases op with
    | closeImpl | closeStore => exact deedsOf_subset i tr hneeds
    | _ => trivial
  obtain ⟨hs,hclosed⟩ := Machine.withRecord_step hs
  have hnext := sound_step hsound hok hneeds hs
  rw [← hclosed] at hnext
  rwa [allDeeds,List.flatMap_append,List.flatMap_singleton]

theorem Sound.nothing_owed (h : Sound (allDeeds tr) s true) : AllCalledBack tr s := by
  have hzero := h.settled rfl
  constructor
  · by_contra hne
    obtain ⟨task,hmem⟩ := List.exists_mem_of_ne_nil _ hne
    have hpos : 0 < s.taskQueue.count task := List.count_pos_iff.mpr hmem
    have hcount := hzero task
    simp only [Crew.count, BridgeState.crew] at hcount
    omega
  · intro task hsubmitted
    have hcallbacks : (callbacks task (allDeeds tr)).length = 1 := by
      have hcount := h.counted task
      rwa [hzero,if_pos (h.submitted task hsubmitted),Nat.zero_add] at hcount
    have hruns : (runs task (allDeeds tr)).length = 1 := by
      have howing : s.owing task = 0 := Nat.le_zero.mp (hzero task ▸ BridgeState.owing_le_count)
      rw [h.owed,howing,hcallbacks]
    constructor
    · obtain ⟨impl,heq⟩ := List.length_eq_one_iff.mp hruns
      have himpl : impl = true := by
        apply h.impl task
        rw [heq]
        exact List.mem_cons_self
      rw [himpl] at heq
      exact heq
    · obtain ⟨impl,heq⟩ := List.length_eq_one_iff.mp hcallbacks
      have himpl : impl = true := by
        apply h.impl task
        rw [heq]
        exact List.mem_append_right _ (List.mem_singleton_self _)
      rw [himpl] at heq
      exact heq

/-- If tasks come while they are awaited, and a second call of `Close` finds nothing left to
wait for, then all tasks have been called back when a call of `Close` has returned. -/
theorem all_called_back (h : BridgeRun Orderly tr Q) (hclose : some .close ∈ Q.replies) :
    AllCalledBack tr Q.state.1 := by
  have hsound := sound_run h
  obtain ⟨p,hp,hvalue⟩ := List.mem_map.mp hclose
  obtain rfl := Prog.value_eq_some.mp hvalue
  obtain ⟨i,hi⟩ := List.mem_iff_getElem?.mp hp
  have hfinished : Finished .close (deedsOf i tr) := Ledger.run_demanding kept_start h hi
  have hclosed : .closed ∈ allDeeds tr := deedsOf_subset i tr (hfinished rfl)
  rw [hsound.closed_iff hclosed] at hsound
  exact hsound.nothing_owed

/-- A test for `Orderly`. -/
def orderly (x : BridgeState × Bool) : BridgeCall → Bool
  | .submitTask => x.1.workers.any (· != .left) && !x.2
  | .setStopped => !x.1.stopped ||
    (x.1.taskQueue.isEmpty && x.1.crew.hands.all fun h => h == .free || h == .left)
  | _ => true

theorem orderly_of_test {x : BridgeState × Bool} {op : BridgeCall} (h : orderly x op = true) :
    Orderly x op := by
  cases op with
  | submitTask => simpa [orderly, Orderly] using h
  | setStopped =>
    intro hstopped task
    obtain ⟨hqueue,hhands⟩ : x.1.taskQueue = [] ∧ ∀ h ∈ x.1.crew.hands, h = .free ∨ h = .left := by
      simpa [orderly, hstopped] using h
    have hqueue : x.1.crew.queue.count task = 0 := by
      rw [BridgeState.crew,hqueue]
      rfl
    have hnone : x.1.crew.hands.count (.busy task) = 0 := by
      apply List.count_eq_zero.mpr
      intro hmem
      rcases hhands _ hmem with heq | heq <;> cases heq
    rw [Crew.count,hqueue,hnone]
  | _ => trivial

theorem sample_starts (ops : List BridgeOp) : ∀ p ∈ ops.map BridgeOp.run, ∃ op, p = BridgeOp.run op := by
  intro p hp
  obtain ⟨op,-,rfl⟩ := List.mem_map.mp hp
  exact ⟨op,rfl⟩

/-- Two tasks, and the bridge is closed twice. -/
theorem all_called_back_sample : ∃ tr, ∃ Q : Pool bridgeCalls (BridgeState × Bool) BridgeOp,
    some .close ∈ Q.replies ∧ Q.state.1.nextTask = 2 ∧ AllCalledBack tr Q.state.1 := by
  have hfollow : (Pool.follow (M := closingMachine) orderly
      ([0,0,1,1,2,3,2,3,3,2,4,4,4,5,6,4,4,4,7,7].map fun i => (i,()))
      ⟨(.create,false),[BridgeOp.fireAndForgetPut,.fireAndForgetPut,.workerRound 0,.workerRound 1,
        .close,.workerRound 0,.workerRound 1,.close].map BridgeOp.run⟩).map
        (fun x => (x.2.replies[4]?,x.2.state.1.nextTask)) = some (some (some .close),2) := rfl
  obtain ⟨tr,Q,hrun,hQ⟩ := run_of_schedule _ (sample_starts _) hfollow
  obtain ⟨hreply,hnext⟩ := Prod.mk.inj hQ
  have hclose := List.mem_of_getElem? hreply
  exact ⟨tr,Q,hclose,hnext,all_called_back (hrun.ok_mono fun _ _ h => orderly_of_test h) hclose⟩

/-- A task comes while `Close` waits for workers that have left, and stays in the queue. -/
theorem exists_task_left : ∃ tr Q, BridgeRun (fun _ _ => True) tr Q ∧
    Q.replies = [some .close,some (.workerRound 0),some (.workerRound 1),some .fireAndForgetPut] ∧
    ¬AllCalledBack tr Q.state.1 := by
  have hfollow : (Pool.follow (M := closingMachine) (fun _ _ => true)
      ([0,0,0,1,2,3,3,0,0,0].map fun i => (i,()))
      ⟨(.create,false),[BridgeOp.close,.workerRound 0,.workerRound 1,.fireAndForgetPut].map
        BridgeOp.run⟩).map (fun x => (x.2.replies,x.2.state.1.taskQueue)) =
      some ([some .close,some (.workerRound 0),some (.workerRound 1),some .fireAndForgetPut],[0]) := rfl
  obtain ⟨tr,Q,hrun,hQ⟩ := run_of_schedule _ (sample_starts _) hfollow
  obtain ⟨hreplies,hqueue⟩ := Prod.mk.inj hQ
  dsimp only at hreplies hqueue
  have hleft : ¬AllCalledBack tr Q.state.1 := by
    intro hall
    have hempty := hall.queue
    rw [hqueue] at hempty
    cases hempty
  exact ⟨tr,Q,hrun.ok_mono fun _ _ _ => trivial,hreplies,hleft⟩

end BridgeTasks

end FalconKV
