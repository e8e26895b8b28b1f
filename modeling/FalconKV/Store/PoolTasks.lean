import Mathlib.Data.List.Basic
import FalconKV.Store.IOThreadPool

/-! # What becomes of the tasks of a pool

Every task that is not done is in the queue or in the hands of a worker, once. As long as
tasks are put into the queue while there is a worker, and the last worker finds the queue
empty when it leaves, nothing is left for `Stop` to discard.
-/
namespace FalconKV

def PoolWorker.hand : PoolWorker → Hand ℕ
  | atLoop | waiting => .free
  | inTask slot => .busy slot
  | left => .left

theorem PoolWorker.hand_eq_left {w : PoolWorker} : w.hand = .left ↔ w = .left := by
  cases w <;> simp [hand]

namespace IOThreadPool
variable {s : IOThreadPool} {slot : ℕ} {status : Status}

def crew (s : IOThreadPool) : Crew ℕ := ⟨s.taskQueue,s.workers.map PoolWorker.hand⟩

def result (s : IOThreadPool) (slot : ℕ) : Option TaskResult :=
  (s.packaged[slot]?).map PackagedTask.result

def Lost (s : IOThreadPool) (slot : ℕ) : Prop :=
  s.result slot = some .broken ∨
    (s.result slot = some .pending ∧ ∀ w ∈ s.workers, w = .left)

theorem deserted_crew : s.crew.Deserted ↔ ∀ w ∈ s.workers, w = .left := by
  simp only [Crew.Deserted, crew, List.forall_mem_map, PoolWorker.hand_eq_left]

theorem crew_setWorker (i : ℕ) (w : PoolWorker) : (s.setWorker i w).crew = s.crew.setHand i w.hand := by
  simp only [crew, setWorker, Crew.setHand, List.map_set]

theorem hands_crew {i : ℕ} {w : PoolWorker} (h : s.workers[i]? = some w) :
    s.crew.hands[i]? = some w.hand := by
  simp only [crew, List.getElem?_map, h, Option.map_some]

theorem packaged_push (task : ℕ) : (s.push task).packaged[slot]? =
    if slot = s.packaged.length then some ⟨task,.pending⟩ else s.packaged[slot]? := by
  simp only [push]
  split
  · next heq => rw [heq,List.getElem?_concat_length]
  · next hne =>
    rcases Nat.lt_or_gt_of_ne hne with hlt | hgt
    · rw [List.getElem?_append_left hlt]
    · rw [List.getElem?_eq_none (by simp; omega),List.getElem?_eq_none (by omega)]

theorem packaged_fulfil (slot' : ℕ) : (s.fulfil slot' status).packaged[slot]? =
    (s.packaged[slot]?).map fun p => if slot' = slot then { p with result := .done status } else p := by
  simp only [fulfil, List.getElem?_modify]
  split
  · rfl
  · simp

theorem drain_of_nil (h : s.taskQueue = []) : s.drain = s := by
  have hsame : s.packaged.mapIdx (fun slot p =>
      if slot ∈ s.taskQueue then { p with result := .broken } else p) = s.packaged := by
    apply List.ext_getElem?
    simp [h]
  rw [drain,hsame,← h]

end IOThreadPool

namespace PoolTasks
open AtomicCalls

inductive Deed
  | pushed (task slot : ℕ)
  | ran (slot task : ℕ) (status : Status)
  | obtained (slot : ℕ) (r : Except String Status)
  | joined

def deeds (op : PoolCall) (r : op.Res) : List Deed :=
  match op, r with
  | .push task, slot => [.pushed task slot]
  | .runTask _, (slot,task,status) => [.ran slot task status]
  | .get slot, r => [.obtained slot r]
  | .join, _ => [.joined]
  | _, _ => []

def allDeeds (tr : List (Event poolCalls IOThreadPool)) : List Deed :=
  tr.flatMap fun e => deeds e.op e.res

def deedsOf (i : ℕ) (tr : List (Event poolCalls IOThreadPool)) : List Deed :=
  (callsOf i tr).flatMap fun c => deeds c.op c.res

def Deed.execution (slot : ℕ) : Deed → List (ℕ × Status)
  | ran slot' task status => if slot' = slot then [(task,status)] else []
  | _ => []

def Deed.submission : Deed → List (ℕ × ℕ)
  | pushed task slot => [(task,slot)]
  | _ => []

def executions (slot : ℕ) (tr : List (Event poolCalls IOThreadPool)) : List (ℕ × Status) :=
  (allDeeds tr).flatMap (Deed.execution slot)

def submissions (i : ℕ) (tr : List (Event poolCalls IOThreadPool)) : List (ℕ × ℕ) :=
  (deedsOf i tr).flatMap Deed.submission

structure Delivered (tasks : List ℕ) (results : Except String (List Status))
    (submitted : List (ℕ × ℕ)) (tr : List (Event poolCalls IOThreadPool)) : Prop where
  tasks_eq : submitted.map Prod.fst = tasks
  slots : (submitted.map Prod.snd).Nodup
  statuses : ∃ statuses, results = .ok statuses ∧
    List.Forall₂ (fun x status => executions x.2 tr = [(x.1,status)]) submitted statuses

structure NothingLost (tr : List (Event poolCalls IOThreadPool))
    (Q : Pool poolCalls IOThreadPool PoolReply) : Prop where
  waiting : ∀ slot, .get slot ∈ Q.pending → ¬Q.state.Lost slot
  once : ∀ slot, (executions slot tr).length ≤ 1
  returned : ∀ (i : ℕ) tasks results,
    Q.threads[i]? = some (.ret (.submitAndWait tasks results)) →
    Delivered tasks results (submissions i tr) tr

/-- A task is put into the queue while there is a worker, and who leaves with tasks in the
queue leaves another worker behind. -/
def Attended (s : IOThreadPool) : PoolCall → Prop
  | .push _ => ∃ w ∈ s.workers, w ≠ .left
  | .loadRunning i => s.running = false → s.taskQueue ≠ [] →
    ∃ j ≠ i, ∃ w, s.workers[j]? = some w ∧ w ≠ .left
  | _ => True

variable {done : List Deed} {s s' : IOThreadPool} {slot : ℕ}

def outcome (s : IOThreadPool) (slot : ℕ) : List (ℕ × Status) :=
  match s.packaged[slot]? with
  | some ⟨task,.done status⟩ => [(task,status)]
  | _ => []

structure Sound (done : List Deed) (s : IOThreadPool) : Prop where
  counted : ∀ slot, s.crew.count slot = if s.result slot = some .pending then 1 else 0
  unbroken : ∀ slot, s.result slot ≠ some .broken
  runs : ∀ slot, done.flatMap (Deed.execution slot) = outcome s slot
  served : s.crew.Served
  pushed : ∀ task slot, .pushed task slot ∈ done →
    (s.packaged[slot]?).map PackagedTask.task = some task
  obtained : ∀ slot r, .obtained slot r ∈ done →
    ∃ status, r = .ok status ∧ s.result slot = some (.done status)
  joined : .joined ∈ done → s.workers = []

theorem outcome_of_pending (h : s.result slot = some .pending) : outcome s slot = [] := by
  obtain ⟨p,hp,hresult⟩ := Option.map_eq_some_iff.mp h
  obtain ⟨task,result⟩ := p
  obtain rfl := hresult
  rw [outcome,hp]

theorem Sound.quiet {new : List Deed} (h : Sound done s) (hnew : new = []) : Sound (done ++ new) s := by
  rwa [hnew,List.append_nil]

/-- Workers and queue change, the tasks do not. -/
theorem Sound.move (h : Sound done s) {running : Bool} {workers : List PoolWorker} {queue : List ℕ}
    (hcount : ∀ slot, (IOThreadPool.crew ⟨running,workers,queue,s.packaged⟩).count slot =
      s.crew.count slot)
    (hserved : (IOThreadPool.crew ⟨running,workers,queue,s.packaged⟩).Served)
    (hworkers : s.workers = [] → workers = []) :
    Sound done ⟨running,workers,queue,s.packaged⟩ where
  counted slot := (hcount slot).trans (h.counted slot)
  unbroken := h.unbroken
  runs := h.runs
  served := hserved
  pushed := h.pushed
  obtained := h.obtained
  joined hj := hworkers (h.joined hj)

theorem Sound.setWorker (h : Sound done s) {i : ℕ} {w w' : PoolWorker}
    (hi : s.workers[i]? = some w) (hw : w.hand = .free)
    (hw' : w'.hand = .free ∨ w'.hand = .left ∧ (s.taskQueue ≠ [] →
      ∃ j ≠ i, ∃ w, s.workers[j]? = some w ∧ w ≠ .left)) : Sound done (s.setWorker i w') := by
  have hhand := IOThreadPool.hands_crew hi
  rw [hw] at hhand
  apply h.move
  · intro slot
    have hcrew : (s.setWorker i w').crew.count slot = (s.crew.setHand i w'.hand).count slot := by
      rw [IOThreadPool.crew_setWorker]
    have hfree : w'.hand ≠ .busy slot := by
      rcases hw' with hw' | ⟨hw',-⟩ <;> rw [hw'] <;> exact nofun
    exact hcrew.trans (Crew.count_setHand_of_ne hhand nofun hfree)
  · have hcrew : (s.setWorker i w').crew.Served := by
      rw [IOThreadPool.crew_setWorker]
      rcases hw' with hw' | ⟨hw',hother⟩
      · exact Crew.served_setHand hhand (by rw [hw']; exact nofun)
      · rw [hw']
        apply Crew.served_leave
        intro hne
        obtain ⟨j,hj,w,hget,hleft⟩ := hother hne
        exact ⟨j,hj,w.hand,IOThreadPool.hands_crew hget,fun heq =>
          hleft (PoolWorker.hand_eq_left.mp heq)⟩
    exact hcrew
  · intro hnil
    rw [hnil] at hi
    cases hi

theorem Sound.push (h : Sound done s) (task : ℕ) (hthere : ∃ w ∈ s.workers, w ≠ .left) :
    Sound (done ++ [.pushed task s.packaged.length]) (s.push task) := by
  have hnew : s.result s.packaged.length = none := by simp [IOThreadPool.result]
  have hresult : ∀ slot, (s.push task).result slot =
      if slot = s.packaged.length then some .pending else s.result slot := by
    intro slot
    simp only [IOThreadPool.result, IOThreadPool.packaged_push]
    split <;> rfl
  have hold : ∀ {slot x}, s.result slot = some x → slot ≠ s.packaged.length := by
    rintro slot x hx rfl
    rw [hnew] at hx
    cases hx
  have hcrew : (s.push task).crew = s.crew.submit s.packaged.length := rfl
  refine ⟨?_,?_,?_,?_,?_,?_,?_⟩
  · intro slot
    rw [hcrew,Crew.count_submit,h.counted,hresult]
    by_cases heq : slot = s.packaged.length
    · subst heq
      simp [hnew]
    · rw [if_neg (Ne.symm heq),if_neg heq,Nat.add_zero]
  · intro slot
    rw [hresult]
    split
    · exact nofun
    · exact h.unbroken slot
  · intro slot
    rw [List.flatMap_append,h.runs,List.flatMap_singleton]
    have hnothing : outcome s slot ++ Deed.execution slot (.pushed task s.packaged.length) =
        outcome s slot := List.append_nil _
    rw [hnothing,outcome,outcome,IOThreadPool.packaged_push]
    by_cases heq : slot = s.packaged.length
    · simp [heq]
    · rw [if_neg heq]
  · rw [hcrew]
    apply Crew.served_submit
    rw [IOThreadPool.deserted_crew]
    obtain ⟨w,hw,hleft⟩ := hthere
    exact fun hall => hleft (hall w hw)
  · intro task' slot hmem
    rw [IOThreadPool.packaged_push]
    rcases List.mem_append.mp hmem with hmem | hmem
    · have htask := h.pushed task' slot hmem
      split
      · next heq =>
        rw [heq] at htask
        simp at htask
      · exact htask
    · cases List.mem_singleton.mp hmem
      rw [if_pos rfl]
      rfl
  · intro slot r hmem
    have hmem : .obtained slot r ∈ done := by simpa using hmem
    obtain ⟨status,hr,hstatus⟩ := h.obtained slot r hmem
    exact ⟨status,hr,by rw [hresult,if_neg (hold hstatus),hstatus]⟩
  · intro hmem
    have hmem : .joined ∈ done := by simpa using hmem
    exact h.joined hmem

theorem Sound.run (h : Sound done s) {i : ℕ} {p : PackagedTask} (status : Status)
    (hi : s.workers[i]? = some (.inTask slot)) (hp : s.packaged[slot]? = some p) :
    Sound (done ++ [.ran slot p.task status]) ((s.fulfil slot status).setWorker i .atLoop) := by
  have hhand := IOThreadPool.hands_crew hi
  have hcount : ∀ slot', (s.crew.setHand i .free).count slot' + (if slot = slot' then 1 else 0) =
      s.crew.count slot' := fun slot' => Crew.count_finish hhand
  have hpending : s.result slot = some .pending := by
    have hone := hcount slot
    rw [if_pos rfl,h.counted slot] at hone
    by_contra hne
    rw [if_neg hne] at hone
    omega
  have hpackaged : ∀ slot', ((s.fulfil slot status).setWorker i .atLoop).packaged[slot']? =
      (s.packaged[slot']?).map fun p => if slot = slot' then { p with result := .done status } else p :=
    fun slot' => IOThreadPool.packaged_fulfil slot
  have hresult : ∀ slot', ((s.fulfil slot status).setWorker i .atLoop).result slot' =
      if slot = slot' then some (.done status) else s.result slot' := by
    intro slot'
    simp only [IOThreadPool.result, hpackaged, Option.map_map]
    split
    · next heq =>
      rw [← heq,hp]
      rfl
    · rfl
  have hcrew : ((s.fulfil slot status).setWorker i .atLoop).crew = s.crew.setHand i .free :=
    IOThreadPool.crew_setWorker i .atLoop
  have hdone : ∀ {slot' status'}, s.result slot' = some (.done status') → slot ≠ slot' := by
    rintro slot' status' hstatus rfl
    rw [hpending] at hstatus
    cases hstatus
  refine ⟨?_,?_,?_,?_,?_,?_,?_⟩
  · intro slot'
    have hold := hcount slot'
    rw [h.counted] at hold
    rw [hcrew,hresult]
    by_cases heq : slot = slot'
    · subst heq
      rw [if_pos rfl,if_pos hpending] at hold
      rw [if_pos rfl,if_neg (by simp)]
      omega
    · rw [if_neg heq] at hold ⊢
      exact hold
  · intro slot'
    rw [hresult]
    split
    · simp
    · exact h.unbroken slot'
  · intro slot'
    rw [List.flatMap_append,h.runs,List.flatMap_singleton]
    simp only [Deed.execution]
    by_cases heq : slot = slot'
    · subst heq
      rw [outcome_of_pending hpending,if_pos rfl,outcome,hpackaged,hp,Option.map_some,if_pos rfl]
      rfl
    · rw [if_neg heq,List.append_nil,outcome,outcome,hpackaged]
      simp [heq]
  · rw [hcrew]
    exact Crew.served_setHand hhand (by simp)
  · intro task slot' hmem
    have hmem : .pushed task slot' ∈ done := by simpa using hmem
    have htask := h.pushed task slot' hmem
    rw [hpackaged,Option.map_map]
    rw [← htask]
    apply Option.map_congr
    intro p _
    simp only [Function.comp_apply]
    split <;> rfl
  · intro slot' r hmem
    have hmem : .obtained slot' r ∈ done := by simpa using hmem
    obtain ⟨status',hr,hstatus⟩ := h.obtained slot' r hmem
    exact ⟨status',hr,by rw [hresult,if_neg (hdone hstatus),hstatus]⟩
  · intro hmem
    have hmem : .joined ∈ done := by simpa using hmem
    rw [h.joined hmem] at hi
    cases hi

theorem Sound.take (h : Sound done s) {i : ℕ} {rest : List ℕ} (hi : s.workers[i]? = some .waiting)
    (hqueue : s.taskQueue = slot :: rest) :
    Sound done ({ s with taskQueue := rest }.setWorker i (.inTask slot)) := by
  have hhand : s.crew.hands[i]? = some .free := IOThreadPool.hands_crew hi
  have hcrew : ({ s with taskQueue := rest }.setWorker i (.inTask slot)).crew =
      { s.crew with queue := rest }.setHand i (.busy slot) := IOThreadPool.crew_setWorker i (.inTask slot)
  apply h.move
  · intro slot'
    have hcount : ({ s with taskQueue := rest }.setWorker i (.inTask slot)).crew.count slot' =
        s.crew.count slot' := by
      rw [hcrew]
      exact Crew.count_take hqueue hhand
    exact hcount
  · have hserved : ({ s with taskQueue := rest }.setWorker i (.inTask slot)).crew.Served := by
      rw [hcrew]
      exact Crew.served_setHand hhand nofun
    exact hserved
  · intro hnil
    rw [hnil] at hi
    cases hi

theorem Sound.join (h : Sound done s) (hleft : ∀ w ∈ s.workers, w = .left) :
    Sound (done ++ [.joined]) { s with workers := [] } := by
  have hdeserted : s.crew.Deserted := IOThreadPool.deserted_crew.mpr hleft
  have hqueue : s.taskQueue = [] := h.served hdeserted
  refine ⟨?_,h.unbroken,?_,fun _ => hqueue,?_,?_,fun _ => rfl⟩
  · intro slot
    have hcount := h.counted slot
    rw [Crew.count_of_deserted hdeserted] at hcount
    rw [Crew.count_of_deserted (by simp [Crew.Deserted, IOThreadPool.crew])]
    exact hcount
  · intro slot
    rw [List.flatMap_append,h.runs,List.flatMap_singleton]
    exact List.append_nil _
  · intro task slot hmem
    have hmem : .pushed task slot ∈ done := by simpa using hmem
    exact h.pushed task slot hmem
  · intro slot r hmem
    have hmem : .obtained slot r ∈ done := by simpa using hmem
    exact h.obtained slot r hmem

theorem Sound.get (h : Sound done s) {r : Except String Status} (hr : s.get slot = some r) :
    Sound (done ++ [.obtained slot r]) s := by
  refine ⟨h.counted,h.unbroken,?_,h.served,?_,?_,?_⟩
  · intro slot'
    rw [List.flatMap_append,h.runs,List.flatMap_singleton]
    exact List.append_nil _
  · intro task slot' hmem
    have hmem : .pushed task slot' ∈ done := by simpa using hmem
    exact h.pushed task slot' hmem
  · intro slot' r' hmem
    rcases List.mem_append.mp hmem with hmem | hmem
    · exact h.obtained slot' r' hmem
    · cases List.mem_singleton.mp hmem
      unfold IOThreadPool.get at hr
      split at hr
      · next status hstatus =>
        cases hr
        exact ⟨status,rfl,hstatus⟩
      · next hbroken => exact absurd hbroken (h.unbroken slot)
      · cases hr
  · intro hmem
    have hmem : .joined ∈ done := by simpa using hmem
    exact h.joined hmem

theorem sound_create (numThreads : ℕ) : Sound [] (.create numThreads) where
  counted slot := by
    have hnone : (IOThreadPool.crew (.create numThreads)).hands.count (.busy slot) = 0 := by
      apply List.count_eq_zero.mpr
      simp [IOThreadPool.crew, IOThreadPool.create, PoolWorker.hand]
    simpa [Crew.count, IOThreadPool.crew, IOThreadPool.create, IOThreadPool.result] using hnone
  unbroken := by simp [IOThreadPool.create, IOThreadPool.result]
  runs _ := rfl
  served _ := rfl
  pushed := nofun
  obtained := nofun
  joined := nofun

theorem sound_step {op : PoolCall} {status : Status} {r : op.Res} (h : Sound done s)
    (hok : Attended s op) (hdrain : op = .drain → .joined ∈ done)
    (hs : poolMachine.step op status s = some (r,s')) : Sound (done ++ deeds op r) s' := by
  cases op with
  | push task =>
    obtain ⟨rfl,rfl⟩ := Prod.mk.inj (Option.some.inj hs)
    exact h.push task hok
  | get slot =>
    obtain ⟨r',hget,heq⟩ := Option.map_eq_some_iff.mp hs
    obtain ⟨rfl,rfl⟩ := Prod.mk.inj heq
    exact h.get hget
  | exchangeRunning =>
    obtain ⟨rfl,rfl⟩ := Prod.mk.inj (Option.some.inj hs)
    have hnext : Sound done { s with running := false } := h.move (fun _ => rfl) h.served id
    exact hnext.quiet rfl
  | join =>
    simp only [poolMachine, IOThreadPool.step] at hs
    split at hs
    · next hall =>
      obtain ⟨-,rfl⟩ := Prod.mk.inj (Option.some.inj hs)
      exact h.join (by simpa using hall)
    · cases hs
  | drain =>
    obtain ⟨-,rfl⟩ := Prod.mk.inj (Option.some.inj hs)
    have hworkers := h.joined (hdrain rfl)
    have hqueue : s.taskQueue = [] :=
      h.served (IOThreadPool.deserted_crew.mpr (by simp [hworkers]))
    rw [IOThreadPool.drain_of_nil hqueue]
    exact h.quiet rfl
  | loadRunning i =>
    simp only [poolMachine, IOThreadPool.step, IOThreadPool.loadRunning] at hs
    split at hs
    · next hi =>
      obtain ⟨-,rfl⟩ := Prod.mk.inj (Option.some.inj hs)
      have hnext : Sound done (s.setWorker i (if s.running then .waiting else .left)) := by
        apply h.setWorker hi rfl
        cases hrunning : s.running with
        | true => exact .inl rfl
        | false => exact .inr ⟨rfl,hok hrunning⟩
      exact hnext.quiet rfl
    · cases hs
  | takeTask i =>
    simp only [poolMachine, IOThreadPool.step, IOThreadPool.takeTask] at hs
    split at hs
    · next hi =>
      split at hs
      · next slot rest hqueue =>
        obtain ⟨-,rfl⟩ := Prod.mk.inj (Option.some.inj hs)
        exact (h.take hi hqueue).quiet rfl
      · next hqueue =>
        split at hs
        · cases hs
        · obtain ⟨-,rfl⟩ := Prod.mk.inj (Option.some.inj hs)
          exact (h.setWorker hi rfl (.inr ⟨rfl,fun hne => absurd hqueue hne⟩)).quiet rfl
    · cases hs
  | runTask i =>
    simp only [poolMachine, IOThreadPool.step, IOThreadPool.runTask] at hs
    split at hs
    · next slot hi =>
      obtain ⟨p,hp,heq⟩ := Option.map_eq_some_iff.mp hs
      obtain ⟨rfl,rfl⟩ := Prod.mk.inj heq
      exact h.run status hi hp
    · cases hs

def need (op : PoolCall) (done : List Deed) : Prop :=
  match op with
  | .get slot => ∃ task, .pushed task slot ∈ done
  | .drain => .joined ∈ done
  | _ => True

def doing : Ledger poolCalls (List Deed) := Ledger.demanding need deeds

def Finished (reply : PoolReply) (done : List Deed) : Prop :=
  match reply with
  | .submitAndWait tasks results => ∃ submitted : List (ℕ × ℕ), submitted.map Prod.fst = tasks ∧
    done.flatMap Deed.submission = submitted ∧
    ((∃ statuses, results = .ok statuses ∧
      List.Forall₂ (fun x status => .obtained x.2 (.ok status) ∈ done) submitted statuses) ∨
      ∃ slot e, .obtained slot (.error e) ∈ done)
  | _ => True

theorem kept_push (tasks : List ℕ) (done : List Deed) :
    doing.Kept (fun futures done' => ∃ submitted : List (ℕ × ℕ), submitted.map Prod.fst = tasks ∧
      submitted.map Prod.snd = futures ∧
      done' = done ++ submitted.map fun x => .pushed x.1 x.2)
      (Prog.mapEach (fun task => PoolOps.ask (.push task)) tasks) done := by
  induction tasks generalizing done with
  | nil => exact ⟨[],rfl,rfl,(List.append_nil done).symm⟩
  | cons task tasks ih =>
    apply Ledger.kept_demand trivial
    intro slot
    apply Ledger.kept_bind
    apply Ledger.kept_mono (ih _)
    rintro futures _ ⟨submitted,rfl,rfl,rfl⟩
    refine ⟨(task,slot) :: submitted,rfl,rfl,?_⟩
    rw [List.append_assoc]
    rfl

theorem kept_getAll {futures : List ℕ} (earlier : List Status) {done : List Deed}
    (hpushed : ∀ slot ∈ futures, ∃ task, .pushed task slot ∈ done) :
    doing.Kept (fun results done' => ∃ obtained : List Deed, done' = done ++ obtained ∧
      obtained.flatMap Deed.submission = [] ∧
      ((∃ statuses, results = .ok (earlier ++ statuses) ∧
        List.Forall₂ (fun slot status => .obtained slot (.ok status) ∈ obtained) futures statuses) ∨
        ∃ slot e, .obtained slot (.error e) ∈ obtained)) (PoolOps.getAll futures earlier) done := by
  induction futures generalizing earlier done with
  | nil => exact ⟨[],(List.append_nil done).symm,rfl,.inl ⟨[],by rw [List.append_nil],.nil⟩⟩
  | cons slot futures ih =>
    obtain ⟨hslot,hrest⟩ := List.forall_mem_cons.mp hpushed
    apply Ledger.kept_demand hslot
    intro r
    match r with
    | .error e =>
      exact ⟨[.obtained slot (.error e)],rfl,rfl,.inr ⟨slot,e,List.mem_singleton_self _⟩⟩
    | .ok status =>
      have hrest' : ∀ slot' ∈ futures, ∃ task, .pushed task slot' ∈
          done ++ deeds (.get slot) (.ok status) := by
        intro slot' hmem
        obtain ⟨task,htask⟩ := hrest slot' hmem
        exact ⟨task,List.mem_append_left _ htask⟩
      apply Ledger.kept_mono (ih (earlier ++ [status]) hrest')
      rintro results _ ⟨obtained,rfl,hsubmission,hway⟩
      refine ⟨.obtained slot (.ok status) :: obtained,by rw [List.append_assoc]; rfl,hsubmission,?_⟩
      rcases hway with ⟨statuses,rfl,hall⟩ | ⟨slot',e,hmem⟩
      · left
        refine ⟨status :: statuses,by rw [List.append_assoc]; rfl,.cons List.mem_cons_self ?_⟩
        exact hall.imp fun _ _ hmem => List.mem_cons_of_mem _ hmem
      · exact .inr ⟨slot',e,List.mem_cons_of_mem _ hmem⟩

theorem kept_finished (op : PoolOp) : doing.Kept Finished op.run [] := by
  cases op with
  | submitAndWait tasks =>
    apply Ledger.kept_bind
    unfold PoolOps.submitAndWait
    split
    · next hnil =>
      obtain rfl := List.length_eq_zero_iff.mp hnil
      exact ⟨[],rfl,rfl,.inl ⟨[],rfl,.nil⟩⟩
    · apply Ledger.kept_bind
      apply Ledger.kept_mono (kept_push tasks [])
      rintro _ _ ⟨submitted,rfl,rfl,rfl⟩
      rw [List.nil_append]
      have hpushed : ∀ slot ∈ submitted.map Prod.snd, ∃ task,
          .pushed task slot ∈ submitted.map fun x => Deed.pushed x.1 x.2 := by
        intro slot hslot
        obtain ⟨x,hx,rfl⟩ := List.mem_map.mp hslot
        exact ⟨x.1,List.mem_map_of_mem hx⟩
      apply Ledger.kept_mono (kept_getAll [] hpushed)
      rintro results _ ⟨obtained,rfl,hsubmission,hway⟩
      refine ⟨submitted,rfl,?_,?_⟩
      · rw [List.flatMap_append,hsubmission,List.append_nil,List.flatMap_map]
        exact List.flatMap_singleton' submitted
      · rcases hway with ⟨statuses,rfl,hall⟩ | ⟨slot,e,hmem⟩
        · left
          refine ⟨statuses,rfl,?_⟩
          exact (List.forall₂_map_left_iff.mp hall).imp fun _ _ hmem => List.mem_append_right _ hmem
        · exact .inr ⟨slot,e,List.mem_append_right _ hmem⟩
  | stop =>
    apply Ledger.kept_bind
    apply Ledger.kept_demand trivial
    intro running
    cases running with
    | false => trivial
    | true =>
      apply Ledger.kept_demand trivial
      intro _
      apply Ledger.kept_perform
      intro _ _
      exact ⟨_,⟨List.mem_singleton_self _,rfl⟩,trivial⟩
  | workerRound i =>
    apply Ledger.kept_bind
    apply Ledger.kept_demand trivial
    intro running
    cases running with
    | false => trivial
    | true =>
      apply Ledger.kept_demand trivial
      intro task
      cases task with
      | none => trivial
      | some slot =>
        apply Ledger.kept_demand trivial
        intro _
        trivial

variable {numThreads : ℕ} {tr : List (Event poolCalls IOThreadPool)}
  {Q : Pool poolCalls IOThreadPool PoolReply}

theorem deedsOf_subset (i : ℕ) (tr : List (Event poolCalls IOThreadPool)) :
    deedsOf i tr ⊆ allDeeds tr :=
  (callsOf_flatMap_sublist i tr fun a => deeds a.op a.res).subset

theorem kept_start : ∀ p, (∃ op, p = PoolOp.run op) → doing.Kept Finished p [] := by
  rintro _ ⟨op,rfl⟩
  exact kept_finished op

theorem sound_run (h : PoolRun Attended numThreads tr Q) : Sound (allDeeds tr) Q.state := by
  apply Ledger.run_invariant_demanding kept_start (fun tr s => Sound (allDeeds tr) s)
    (sound_create numThreads) ?_ h
  intro tr i s op c r s' hsound hneeds hok hs
  have hdrain : op = .drain → .joined ∈ allDeeds tr := by
    rintro rfl
    exact deedsOf_subset i tr hneeds
  have hnext := sound_step hsound hok hdrain hs
  rwa [allDeeds,List.flatMap_append,List.flatMap_singleton]

/-- A task gets the next place. -/
theorem slots_step {op : PoolCall} {status : Status} {r : op.Res}
    (h : poolMachine.step op status s = some (r,s')) :
    (((deeds op r).flatMap Deed.submission).map Prod.snd = [] ∧
      s'.packaged.length = s.packaged.length) ∨
    (((deeds op r).flatMap Deed.submission).map Prod.snd = [s.packaged.length] ∧
      s'.packaged.length = s.packaged.length + 1) := by
  cases op with
  | push task =>
    obtain ⟨rfl,rfl⟩ := Prod.mk.inj (Option.some.inj h)
    right
    exact ⟨rfl,by simp [IOThreadPool.push]⟩
  | get slot =>
    obtain ⟨r',-,heq⟩ := Option.map_eq_some_iff.mp h
    obtain ⟨-,rfl⟩ := Prod.mk.inj heq
    exact .inl ⟨rfl,rfl⟩
  | exchangeRunning =>
    obtain ⟨-,rfl⟩ := Prod.mk.inj (Option.some.inj h)
    exact .inl ⟨rfl,rfl⟩
  | join =>
    simp only [poolMachine, IOThreadPool.step] at h
    split at h
    · obtain ⟨-,rfl⟩ := Prod.mk.inj (Option.some.inj h)
      exact .inl ⟨rfl,rfl⟩
    · cases h
  | drain =>
    obtain ⟨-,rfl⟩ := Prod.mk.inj (Option.some.inj h)
    exact .inl ⟨rfl,by simp [IOThreadPool.drain]⟩
  | loadRunning i =>
    simp only [poolMachine, IOThreadPool.step, IOThreadPool.loadRunning] at h
    split at h
    · obtain ⟨-,rfl⟩ := Prod.mk.inj (Option.some.inj h)
      exact .inl ⟨rfl,rfl⟩
    · cases h
  | takeTask i =>
    simp only [poolMachine, IOThreadPool.step, IOThreadPool.takeTask] at h
    split at h
    · split at h
      · obtain ⟨-,rfl⟩ := Prod.mk.inj (Option.some.inj h)
        exact .inl ⟨rfl,rfl⟩
      · split at h
        · cases h
        · obtain ⟨-,rfl⟩ := Prod.mk.inj (Option.some.inj h)
          exact .inl ⟨rfl,rfl⟩
    · cases h
  | runTask i =>
    simp only [poolMachine, IOThreadPool.step, IOThreadPool.runTask] at h
    split at h
    · obtain ⟨p,-,heq⟩ := Option.map_eq_some_iff.mp h
      obtain ⟨rfl,rfl⟩ := Prod.mk.inj heq
      exact .inl ⟨rfl,by simp [IOThreadPool.fulfil, IOThreadPool.setWorker]⟩
    · cases h

theorem nodup_slots {ok : IOThreadPool → PoolCall → Prop} (h : PoolRun ok numThreads tr Q) (i : ℕ) :
    ((submissions i tr).map Prod.snd).Nodup := by
  have hcounts : Counts poolMachine ok
      (fun op r => ((deeds op r).flatMap Deed.submission).map Prod.snd) (fun s => s.packaged.length) :=
    fun _ hs => slots_step hs
  rw [submissions,deedsOf,List.flatMap_assoc,List.map_flatMap]
  exact h.nodup_callsOf hcounts i

theorem Sound.executions_of_done (h : Sound (allDeeds tr) s) {task : ℕ} {status : Status}
    (hpushed : .pushed task slot ∈ allDeeds tr) (hdone : s.result slot = some (.done status)) :
    executions slot tr = [(task,status)] := by
  obtain ⟨p,hp,hresult⟩ := Option.map_eq_some_iff.mp hdone
  have htask := h.pushed task slot hpushed
  rw [hp,Option.map_some] at htask
  obtain ⟨task',result⟩ := p
  obtain rfl := hresult
  obtain rfl := Option.some.inj htask
  rw [executions,h.runs slot,outcome,hp]

theorem Sound.executions_of_obtained (h : Sound (allDeeds tr) s) {submitted : List (ℕ × ℕ)}
    {statuses : List Status} (hpushed : ∀ x ∈ submitted, .pushed x.1 x.2 ∈ allDeeds tr)
    (hall : List.Forall₂ (fun x status => .obtained x.2 (.ok status) ∈ allDeeds tr) submitted statuses) :
    List.Forall₂ (fun x status => executions x.2 tr = [(x.1,status)]) submitted statuses := by
  induction hall with
  | nil => exact .nil
  | cons hobtained _ ih =>
    obtain ⟨hx,hrest⟩ := List.forall_mem_cons.mp hpushed
    obtain ⟨status,heq,hdone⟩ := h.obtained _ _ hobtained
    obtain rfl := Except.ok.inj heq
    exact .cons (h.executions_of_done hx hdone) (ih hrest)

/-- If tasks are put into the queue while there is a worker, and the last worker to leave
finds the queue empty, no task is lost. -/
theorem nothing_lost (h : PoolRun Attended numThreads tr Q) : NothingLost tr Q := by
  have hsound := sound_run h
  have hledger : ∀ i q, Q.threads[i]? = some q → doing.Kept Finished q (deedsOf i tr) :=
    fun i q hi => Ledger.run_demanding kept_start h hi
  refine ⟨?_,?_,?_⟩
  · intro slot hpending
    obtain ⟨q,hq,hnext⟩ := List.mem_filterMap.mp hpending
    obtain ⟨k,rfl⟩ := Prog.next_eq_some.mp hnext
    obtain ⟨i,hi⟩ := List.mem_iff_getElem?.mp hq
    obtain ⟨_,⟨⟨task,hpushed⟩,-⟩,-⟩ := hledger i _ hi (.error "") trivial
    rintro (hbroken | ⟨hwaits,hleft⟩)
    · exact hsound.unbroken slot hbroken
    · -- nobody is left, so nothing is in the queue or in hand
      have hdeserted : Q.state.crew.Deserted := IOThreadPool.deserted_crew.mpr hleft
      have hcount := hsound.counted slot
      rw [Crew.count_of_deserted hdeserted,hsound.served hdeserted,if_pos hwaits] at hcount
      cases hcount
  · intro slot
    rw [executions,hsound.runs slot,outcome]
    split
    · exact Nat.le_refl 1
    · exact Nat.zero_le 1
  · intro i tasks results hi
    obtain ⟨submitted,htasks,hsubmitted,hway⟩ := hledger i _ hi
    have hsubs : submissions i tr = submitted := hsubmitted
    refine ⟨hsubs ▸ htasks,nodup_slots h i,?_⟩
    rw [hsubs]
    rcases hway with ⟨statuses,rfl,hall⟩ | ⟨slot,e,hmem⟩
    · refine ⟨statuses,rfl,?_⟩
      have hpushed : ∀ x ∈ submitted, .pushed x.1 x.2 ∈ allDeeds tr := by
        intro x hx
        rw [← hsubmitted] at hx
        obtain ⟨d,hd,hx⟩ := List.mem_flatMap.mp hx
        cases d with
        | pushed task slot =>
          obtain rfl := List.mem_singleton.mp hx
          exact deedsOf_subset i tr hd
        | _ => cases hx
      exact hsound.executions_of_obtained hpushed
        (hall.imp fun _ _ hobtained => deedsOf_subset i tr hobtained)
    · obtain ⟨status,heq,-⟩ := hsound.obtained _ _ (deedsOf_subset i tr hmem)
      cases heq

def attends (s : IOThreadPool) : PoolCall → Bool
  | .push _ => s.workers.any (· != .left)
  | .loadRunning _ => s.running || s.taskQueue.isEmpty
  | _ => true

theorem attended_of_attends {s : IOThreadPool} {op : PoolCall} (h : attends s op = true) :
    Attended s op := by
  cases op with
  | push task => simpa [attends, Attended] using h
  | loadRunning i =>
    intro hrunning hqueue
    simp [attends, hrunning, hqueue] at h
  | _ => trivial

theorem sample_starts (ops : List PoolOp) : ∀ p ∈ ops.map PoolOp.run, ∃ op, p = PoolOp.run op := by
  intro p hp
  obtain ⟨op,-,rfl⟩ := List.mem_map.mp hp
  exact ⟨op,rfl⟩

/-- Two tasks, then the pool is stopped. -/
theorem nothing_lost_sample : ∃ tr Q, Q.replies = [some (.submitAndWait [3,4]
      (.ok [.OK,.ioError "disk"])),some .workerRound,some .workerRound,some .stop,
      some .workerRound] ∧ NothingLost tr Q := by
  have hfollow : (Pool.follow (M := poolMachine) attends
      [(0,.OK),(0,.OK),(1,.OK),(1,.OK),(1,.OK),(0,.OK),(2,.OK),(2,.OK),(2,.ioError "disk"),(0,.OK),
        (3,.OK),(4,.OK),(3,.OK),(3,.OK)]
      ⟨.create 1,[PoolOp.submitAndWait [3,4],.workerRound 0,.workerRound 0,.stop,.workerRound 0].map
        PoolOp.run⟩).map (fun x => x.2.replies) =
      some [some (.submitAndWait [3,4] (.ok [.OK,.ioError "disk"])),some .workerRound,
        some .workerRound,some .stop,some .workerRound] := rfl
  obtain ⟨tr,Q,hrun,hQ⟩ := run_of_schedule _ (sample_starts _) hfollow
  exact ⟨tr,Q,hQ,nothing_lost (hrun.ok_mono fun _ _ h => attended_of_attends h)⟩

/-- A task that comes after the pool has been stopped. -/
theorem exists_task_lost : ∃ tr Q, PoolRun (fun _ _ => True) 1 tr Q ∧
    Q.replies = [some .stop,some .workerRound,none] ∧ ¬NothingLost tr Q := by
  have hfollow : (Pool.follow (M := poolMachine) (fun _ _ => true)
      [(0,.OK),(1,.OK),(0,.OK),(0,.OK),(2,.OK)]
      ⟨.create 1,[PoolOp.stop,.workerRound 0,.submitAndWait [3]].map PoolOp.run⟩).map
        (fun x => (x.2.replies,x.2.pending,x.2.state.packaged,x.2.state.workers)) =
      some ([some .stop,some .workerRound,none],[.get 0],[⟨3,.pending⟩],[]) := rfl
  obtain ⟨tr,Q,hrun,hQ⟩ := run_of_schedule _ (sample_starts _) hfollow
  obtain ⟨hreplies,hrest⟩ := Prod.mk.inj hQ
  obtain ⟨hpending,hrest⟩ := Prod.mk.inj hrest
  obtain ⟨hpackaged,hworkers⟩ := Prod.mk.inj hrest
  dsimp only at hreplies hpending hpackaged hworkers
  refine ⟨tr,Q,hrun.ok_mono fun _ _ _ => trivial,hreplies,?_⟩
  intro hlost
  apply hlost.waiting 0
  · rw [hpending]
    exact List.mem_singleton_self _
  · right
    rw [IOThreadPool.result,hpackaged,hworkers]
    exact ⟨rfl,nofun⟩

end PoolTasks

end FalconKV
