import FalconKV.AtomicCalls.Discipline
import FalconKV.Meta.SyncClient

/-! # Starting and stopping the commit thread

The mutex, the condition variable and the thread are explicit. A wait lets go of the mutex
and blocks in one step; a notification reaches a thread that is blocked, and nobody else.
The predicate of the wait is evaluated read by read, with the mutex held.
-/
namespace FalconKV
open AtomicCalls

inductive CommitPhase
  | atLoop
  | inRound
  /-- the predicate was found false, and the thread has not blocked yet -/
  | falling
  | blocked
  | notified
  | returned
  deriving DecidableEq, Repr

structure CommitThread where
  running : Bool
  pendingCommits : List PendingCommit
  mutexHeld : Bool
  phase : CommitPhase
  joined : Bool

def CommitThread.started : CommitThread := ⟨true,[],false,.atLoop,false⟩

inductive CommitCall
  /-- whether the predicate of the wait reads `commit_running_` -/
  | loadRunning (inWait : Bool)
  | storeRunning (value : Bool)
  | lock
  | unlock
  | isEmpty
  | push (commit : PendingCommit)
  | drain
  | block
  | wake
  | notifyOne
  | notifyAll
  | joinable
  | join
  | beginRound
  | endRound
  | endThread
  /-- `SyncCommit` -/
  | syncCommit (storeId : ℕ) (records : List StoreKeyRecord)

abbrev CommitCall.Res : CommitCall → Type
  | loadRunning _ | isEmpty | joinable => Bool
  | drain => List PendingCommit
  | _ => Unit

abbrev commitCalls : Signature := ⟨CommitCall,CommitCall.Res⟩

namespace CommitThread

def step (op : CommitCall) (s : CommitThread) : Option (op.Res × CommitThread) :=
  match op with
  | .loadRunning inWait =>
    some (s.running,if inWait && s.running then { s with phase := .falling } else s)
  | .storeRunning value => some ((),{ s with running := value })
  | .lock => if s.mutexHeld then none else some ((),{ s with mutexHeld := true })
  | .unlock => some ((),{ s with mutexHeld := false })
  | .isEmpty => some (s.pendingCommits.isEmpty,s)
  | .push commit => some ((),{ s with pendingCommits := s.pendingCommits ++ [commit] })
  | .drain => some (s.pendingCommits,{ s with pendingCommits := [] })
  | .block => some ((),{ s with mutexHeld := false, phase := .blocked })
  | .wake =>
    if s.phase = .blocked ∨ s.phase = .notified then some ((),{ s with phase := .inRound }) else none
  | .notifyOne | .notifyAll =>
    some ((),if s.phase = .blocked then { s with phase := .notified } else s)
  | .joinable => some (!s.joined,s)
  | .join => if s.phase = .returned then some ((),{ s with joined := true }) else none
  | .beginRound => if s.phase = .atLoop then some ((),{ s with phase := .inRound }) else none
  | .endRound => some ((),{ s with phase := .atLoop })
  | .endThread => some ((),{ s with phase := .returned })
  | .syncCommit .. => some ((),s)

end CommitThread

def commitMachine : Machine commitCalls CommitThread := ⟨Unit,fun op _ => CommitThread.step op⟩

abbrev CommitProg := Prog commitCalls

abbrev invokeCommit (op : CommitCall) : CommitProg op.Res := Prog.perform (E := commitCalls) op

namespace CommitThread

def asyncCommit (storeId : ℕ) (records : List StoreKeyRecord) : CommitProg Unit :=
  if records.isEmpty then pure ()
  else do
    invokeCommit .lock
    invokeCommit (.push ⟨storeId,records⟩)
    invokeCommit .unlock
    invokeCommit .notifyOne

def stopAsyncCommitThread : CommitProg Unit := do
  let running ← invokeCommit (.loadRunning false)
  if !running then pure ()
  else do
    invokeCommit (.storeRunning false)
    invokeCommit .notifyAll
    let joinable ← invokeCommit .joinable
    if joinable then invokeCommit .join else pure ()

def drainAndCommit : CommitProg Unit := do
  let batch ← invokeCommit .drain
  invokeCommit .unlock
  match batch with
  | [] => invokeCommit .endRound
  | first :: rest => do
    invokeCommit (.syncCommit first.storeId ((first :: rest).flatMap PendingCommit.records))
    invokeCommit .endRound

def afterWait : CommitProg Unit := do
  let running ← invokeCommit (.loadRunning false)
  if running then drainAndCommit
  else do
    let empty ← invokeCommit .isEmpty
    if empty then do
      invokeCommit .unlock
      invokeCommit .endThread
    else drainAndCommit

def waitForCommits : CommitProg Unit := do
  let empty ← invokeCommit .isEmpty
  if !empty then afterWait
  else do
    let running ← invokeCommit (.loadRunning true)
    if !running then afterWait else invokeCommit .block

def asyncCommitRound : CommitProg Unit := do
  invokeCommit .beginRound
  let running ← invokeCommit (.loadRunning false)
  if !running then invokeCommit .endThread
  else do
    invokeCommit .lock
    waitForCommits

def wokenRound : CommitProg Unit := do
  invokeCommit .wake
  invokeCommit .lock
  waitForCommits

end CommitThread

inductive CommitOp
  | asyncCommit (storeId : ℕ) (records : List StoreKeyRecord)
  | stop
  | round
  | woken

def CommitOp.run : CommitOp → CommitProg Unit
  | asyncCommit storeId records => CommitThread.asyncCommit storeId records
  | stop => CommitThread.stopAsyncCommitThread
  | round => CommitThread.asyncCommitRound
  | woken => CommitThread.wokenRound

abbrev CommitRun (ok : CommitThread → CommitCall → Prop)
    (tr : List (Event commitCalls CommitThread)) (P : Pool commitCalls CommitThread Unit) : Prop :=
  Run commitMachine (fun p => ∃ op : CommitOp, p = op.run) ok ⟨.started,[]⟩ tr P

def CommitCall.notifies : CommitCall → Bool
  | notifyOne | notifyAll => true
  | _ => false

namespace CommitThread

def NotificationLeft (P : Pool commitCalls CommitThread Unit) : Prop :=
  ∃ p ∈ P.threads, ¬ p.Makes fun op : CommitCall => op.notifies = false

/-- The one thread is in `join`, and the other in a wait that nobody ends. -/
structure Hangs (P : Pool commitCalls CommitThread Unit) : Prop where
  joining : .join ∈ P.pending
  blocked : P.state.phase = .blocked
  stopped : P.state.running = false
  silent : ¬ NotificationLeft P

/-- The notification of a stop does not fall between the predicate and the block. -/
def notifiesHeard (s : CommitThread) : CommitCall → Bool
  | .notifyAll => s.phase != .falling
  | _ => true

end CommitThread

inductive CommitDuty
  /-- the queue was told to stop, and nobody was notified yet -/
  | announcing
  /-- a round of the commit thread -/
  | round
  | falling
  deriving DecidableEq

namespace CommitDuty

def rule : (op : CommitCall) → op.Res → Multiset CommitDuty → Multiset CommitDuty → Prop
  | .storeRunning false, _, used, made => used = 0 ∧ made = {announcing}
  | .storeRunning true, _, _, _ => False
  | .notifyAll, _, used, made => used = {announcing} ∧ made = 0
  | .beginRound, _, used, made => used = 0 ∧ made = {round}
  | .wake, _, used, made => used = 0 ∧ made = {round}
  | .loadRunning true, r, used, made => used = {round} ∧ made = if r then {falling} else {round}
  | .block, _, used, made => used = {falling} ∧ made = 0
  | .endRound, _, used, made => used = {round} ∧ made = 0
  | .endThread, _, used, made => used = {round} ∧ made = 0
  | _, _, used, made => used = 0 ∧ made = 0

end CommitDuty

def commitDuties : Discipline commitCalls (Multiset CommitDuty) := ⟨fun _ _ => True,CommitDuty.rule⟩

namespace CommitThread
open CommitDuty

abbrev Does (p : CommitProg Unit) (g : Multiset CommitDuty) : Prop :=
  Uses commitDuties (fun _ g' => g' = 0) p g

theorem does_call {op : CommitCall} {used m : Multiset CommitDuty} {k : op.Res → CommitProg Unit}
    (hrule : ∀ r, CommitDuty.rule op r used m) (hk : ∀ r, Does (k r) m) :
    Does (invokeCommit op >>= k) used :=
  uses_perform fun r _ => ⟨used,m,0,hrule r,(add_zero used).symm,(add_zero m).symm ▸ hk r⟩

theorem does_skip {op : CommitCall} {g : Multiset CommitDuty} {k : op.Res → CommitProg Unit}
    (hrule : ∀ r, CommitDuty.rule op r 0 0) (hk : ∀ r, Does (k r) g) :
    Does (invokeCommit op >>= k) g := uses_idle hrule fun r _ => hk r

theorem does_last {op : CommitCall} {used : Multiset CommitDuty}
    (hrule : ∀ r, CommitDuty.rule op r used 0) :
    Uses commitDuties (fun _ g' => g' = 0) (invokeCommit op) used :=
  uses_perform (k := pure) fun r _ => ⟨used,0,0,hrule r,(add_zero used).symm,add_zero 0⟩

theorem does_return : Does (pure ()) 0 := rfl

theorem does_asyncCommit (storeId : ℕ) (records : List StoreKeyRecord) :
    Does (asyncCommit storeId records) 0 := by
  unfold asyncCommit
  split
  · exact does_return
  · refine does_skip (fun _ => ⟨rfl,rfl⟩) fun _ => ?_
    refine does_skip (fun _ => ⟨rfl,rfl⟩) fun _ => ?_
    refine does_skip (fun _ => ⟨rfl,rfl⟩) fun _ => ?_
    exact does_last fun _ => ⟨rfl,rfl⟩

theorem does_stopAsyncCommitThread : Does stopAsyncCommitThread 0 := by
  refine does_skip (fun _ => ⟨rfl,rfl⟩) ?_
  rintro (_ | _)
  · exact does_return
  · refine does_call (m := {announcing}) (fun _ => ⟨rfl,rfl⟩) fun _ => ?_
    refine does_call (m := 0) (fun _ => ⟨rfl,rfl⟩) fun _ => ?_
    refine does_skip (fun _ => ⟨rfl,rfl⟩) ?_
    rintro (_ | _)
    · exact does_return
    · exact does_last fun _ => ⟨rfl,rfl⟩

theorem does_endRound : Does (invokeCommit .endRound) {round} := does_last fun _ => ⟨rfl,rfl⟩

theorem does_drainAndCommit : Does drainAndCommit {round} := by
  refine does_skip (fun _ => ⟨rfl,rfl⟩) ?_
  rintro (_ | ⟨first,rest⟩)
  · exact does_skip (fun _ => ⟨rfl,rfl⟩) fun _ => does_endRound
  · refine does_skip (fun _ => ⟨rfl,rfl⟩) fun _ => ?_
    exact does_skip (fun _ => ⟨rfl,rfl⟩) fun _ => does_endRound

theorem does_endThread : Does (invokeCommit .endThread) {round} := does_last fun _ => ⟨rfl,rfl⟩

theorem does_afterWait : Does afterWait {round} := by
  refine does_skip (fun _ => ⟨rfl,rfl⟩) ?_
  rintro (_ | _)
  · refine does_skip (fun _ => ⟨rfl,rfl⟩) ?_
    rintro (_ | _)
    · exact does_drainAndCommit
    · exact does_skip (fun _ => ⟨rfl,rfl⟩) fun _ => does_endThread
  · exact does_drainAndCommit

theorem does_waitForCommits : Does waitForCommits {round} := by
  refine does_skip (fun _ => ⟨rfl,rfl⟩) ?_
  rintro (_ | _)
  · exact does_afterWait
  · refine uses_perform ?_
    rintro (_ | _) -
    · exact ⟨{round},{round},0,⟨rfl,rfl⟩,rfl,does_afterWait⟩
    · refine ⟨{round},{falling},0,⟨rfl,rfl⟩,rfl,?_⟩
      exact does_last fun _ => ⟨rfl,rfl⟩

theorem does_commitOp (op : CommitOp) : Does op.run 0 := by
  cases op with
  | asyncCommit storeId records => exact does_asyncCommit storeId records
  | stop => exact does_stopAsyncCommitThread
  | round =>
    refine does_call (m := {round}) (fun _ => ⟨rfl,rfl⟩) fun _ => ?_
    refine does_skip (fun _ => ⟨rfl,rfl⟩) ?_
    rintro (_ | _)
    · exact does_endThread
    · exact does_skip (fun _ => ⟨rfl,rfl⟩) fun _ => does_waitForCommits
  | woken =>
    refine does_call (m := {round}) (fun _ => ⟨rfl,rfl⟩) fun _ => ?_
    exact does_skip (fun _ => ⟨rfl,rfl⟩) fun _ => does_waitForCommits

/-- The commit thread is where the tokens say; when it is blocked, or about to block, and the
queue was told to stop, somebody will still notify it. -/
structure Announced (s : CommitThread) (g : Multiset CommitDuty) : Prop where
  round : g.count .round = if s.phase = .inRound then 1 else 0
  falling : g.count .falling = if s.phase = .falling then 1 else 0
  announcing : s.phase = .blocked ∨ s.phase = .falling → s.running = false →
    0 < g.count .announcing

theorem Announced.inRound {s : CommitThread} {g : Multiset CommitDuty}
    (h : Announced s ({.round} + g)) : s.phase = .inRound ∧ g.count .round = 0 := by
  have hround := h.round
  rw [Multiset.count_add, Multiset.count_singleton_self] at hround
  split at hround
  · next hphase => exact ⟨hphase,by omega⟩
  · omega

theorem Announced.isFalling {s : CommitThread} {g : Multiset CommitDuty}
    (h : Announced s ({.falling} + g)) : s.phase = .falling ∧ g.count .falling = 0 := by
  have hfalling := h.falling
  rw [Multiset.count_add, Multiset.count_singleton_self] at hfalling
  split at hfalling
  · next hphase => exact ⟨hphase,by omega⟩
  · omega

/-- A round that is over leaves the thread in no wait. -/
theorem Announced.leave {s : CommitThread} {g : Multiset CommitDuty} {phase : CommitPhase}
    (h : Announced s ({.round} + g)) (hphase : phase = .atLoop ∨ phase = .returned) :
    Announced { s with phase := phase } (0 + g) := by
  obtain ⟨hround,hzero⟩ := h.inRound
  have hfalling := h.falling
  rw [Multiset.count_add] at hfalling
  rw [zero_add]
  rcases hphase with rfl | rfl <;> constructor <;> simp_all

/-- A thread that is in no round enters one. -/
theorem Announced.enter {s : CommitThread} {g : Multiset CommitDuty}
    (h : Announced s (0 + g)) (hround : s.phase ≠ .inRound) (hfalling : s.phase ≠ .falling) :
    Announced { s with phase := .inRound } ({.round} + g) := by
  rw [zero_add] at h
  have hzero := h.round
  have hnone := h.falling
  rw [if_neg hround] at hzero
  rw [if_neg hfalling] at hnone
  constructor <;> simp [hzero,hnone]

theorem Announced.notify {s : CommitThread} {g : Multiset CommitDuty} (h : Announced s g) :
    Announced (if s.phase = .blocked then { s with phase := .notified } else s) g := by
  split
  · next hblocked =>
    have hround := h.round
    have hfalling := h.falling
    rw [hblocked] at hround hfalling
    exact ⟨hround,hfalling,by simp⟩
  · exact h

/-- Nobody has to announce anything when the thread is neither blocked nor about to block. -/
theorem Announced.discharge {s : CommitThread} {g : Multiset CommitDuty}
    (h : Announced s ({.announcing} + g)) (hblocked : s.phase ≠ .blocked)
    (hfalling : s.phase ≠ .falling) : Announced s g := by
  refine ⟨?_,?_,?_⟩
  · simpa [Multiset.count_add] using h.round
  · simpa [Multiset.count_add] using h.falling
  · rintro (hphase | hphase)
    · exact absurd hphase hblocked
    · exact absurd hphase hfalling

theorem Announced.evaluate {s : CommitThread} {g : Multiset CommitDuty}
    (h : Announced s ({.round} + g)) :
    Announced (if s.running then { s with phase := .falling } else s)
      ((if s.running then {.falling} else {.round}) + g) := by
  split
  · next hrunning =>
    obtain ⟨hround,hzero⟩ := h.inRound
    have hnone := h.falling
    rw [hround, Multiset.count_add] at hnone
    refine ⟨?_,?_,?_⟩
    · simp [hzero]
    · simp_all
    · intro _ hstopped
      rw [hrunning] at hstopped
      cases hstopped
  · exact h

/-- Whoever stops the thread is about to announce it. -/
theorem Announced.stop {s : CommitThread} {g : Multiset CommitDuty} (h : Announced s (0 + g)) :
    Announced { s with running := false } ({.announcing} + g) := by
  rw [zero_add] at h
  refine ⟨?_,?_,fun _ _ => ?_⟩
  · simpa using h.round
  · simpa using h.falling
  · simp

theorem Announced.block {s : CommitThread} {g : Multiset CommitDuty}
    (h : Announced s ({.falling} + g)) :
    Announced { s with mutexHeld := false, phase := .blocked } (0 + g) := by
  obtain ⟨hfalling,hzero⟩ := h.isFalling
  have hround := h.round
  have hann := h.announcing (.inr hfalling)
  rw [hfalling, Multiset.count_add] at hround
  rw [zero_add]
  refine ⟨?_,?_,?_⟩
  · simpa using hround
  · simpa using hzero
  · simpa [Multiset.count_add] using hann

theorem Announced.notifyAll {s : CommitThread} {g : Multiset CommitDuty}
    (h : Announced s ({.announcing} + g)) (hheard : s.phase ≠ .falling) :
    Announced (if s.phase = .blocked then { s with phase := .notified } else s) (0 + g) := by
  rw [zero_add]
  refine h.notify.discharge ?_ ?_
  · split
    · simp
    · assumption
  · split
    · simp
    · exact hheard

theorem keeps_announced : Keeps commitMachine commitDuties
    (fun s op => s.notifiesHeard op = true) fun _ => Announced where
  guar := fun _ _ _ _ _ _ _ _ _ _ => trivial
  step := by
    intro tr i s op c r s' used made rest hinv hok hstep hrule
    cases op with
    | loadRunning inWait =>
      obtain ⟨rfl,rfl⟩ := Prod.mk.inj (Option.some.inj hstep)
      cases inWait with
      | false =>
        obtain ⟨rfl,rfl⟩ := hrule
        exact hinv
      | true =>
        obtain ⟨rfl,rfl⟩ := hrule
        exact hinv.evaluate
    | storeRunning value =>
      obtain ⟨-,rfl⟩ := Prod.mk.inj (Option.some.inj hstep)
      cases value with
      | false =>
        obtain ⟨rfl,rfl⟩ := hrule
        exact hinv.stop
      | true => exact hrule.elim
    | lock =>
      obtain ⟨rfl,rfl⟩ := hrule
      obtain ⟨-,hs⟩ := Option.ite_none_left_eq_some.mp hstep
      obtain ⟨-,rfl⟩ := Prod.mk.inj (Option.some.inj hs)
      exact ⟨hinv.round,hinv.falling,hinv.announcing⟩
    | unlock | push | drain =>
      obtain ⟨rfl,rfl⟩ := hrule
      obtain ⟨-,rfl⟩ := Prod.mk.inj (Option.some.inj hstep)
      exact ⟨hinv.round,hinv.falling,hinv.announcing⟩
    | isEmpty | joinable | syncCommit =>
      obtain ⟨rfl,rfl⟩ := hrule
      obtain ⟨-,rfl⟩ := Prod.mk.inj (Option.some.inj hstep)
      exact hinv
    | block =>
      obtain ⟨rfl,rfl⟩ := hrule
      obtain ⟨-,rfl⟩ := Prod.mk.inj (Option.some.inj hstep)
      exact hinv.block
    | wake =>
      obtain ⟨rfl,rfl⟩ := hrule
      obtain ⟨hphase,hs⟩ := Option.ite_none_right_eq_some.mp hstep
      obtain ⟨-,rfl⟩ := Prod.mk.inj (Option.some.inj hs)
      refine hinv.enter ?_ ?_ <;> rcases hphase with h | h <;> rw [h] <;> decide
    | notifyOne =>
      obtain ⟨rfl,rfl⟩ := hrule
      obtain ⟨-,rfl⟩ := Prod.mk.inj (Option.some.inj hstep)
      exact hinv.notify
    | notifyAll =>
      obtain ⟨rfl,rfl⟩ := hrule
      obtain ⟨-,rfl⟩ := Prod.mk.inj (Option.some.inj hstep)
      have hheard : s.phase ≠ .falling := by simpa [notifiesHeard] using hok
      exact hinv.notifyAll hheard
    | join =>
      obtain ⟨rfl,rfl⟩ := hrule
      obtain ⟨hphase,hs⟩ := Option.ite_none_right_eq_some.mp hstep
      obtain ⟨-,rfl⟩ := Prod.mk.inj (Option.some.inj hs)
      exact ⟨hinv.round,hinv.falling,hinv.announcing⟩
    | beginRound =>
      obtain ⟨rfl,rfl⟩ := hrule
      obtain ⟨hphase,hs⟩ := Option.ite_none_right_eq_some.mp hstep
      obtain ⟨-,rfl⟩ := Prod.mk.inj (Option.some.inj hs)
      refine hinv.enter ?_ ?_ <;> rw [hphase] <;> decide
    | endRound =>
      obtain ⟨rfl,rfl⟩ := hrule
      obtain ⟨-,rfl⟩ := Prod.mk.inj (Option.some.inj hstep)
      exact hinv.leave (.inl rfl)
    | endThread =>
      obtain ⟨rfl,rfl⟩ := hrule
      obtain ⟨-,rfl⟩ := Prod.mk.inj (Option.some.inj hstep)
      exact hinv.leave (.inr rfl)

/-- A call that notifies nobody announces nothing. -/
theorem unannounced {op : CommitCall} (hop : op.notifies = false) :
    ∃ r, commitDuties.guar op r ∧ ∀ used made, CommitDuty.rule op r used made →
      used.count .announcing = 0 := by
  cases op with
  | loadRunning inWait =>
    refine ⟨true,trivial,fun used made hrule => ?_⟩
    cases inWait with
    | false => rw [hrule.1]; rfl
    | true => rw [hrule.1]; rfl
  | storeRunning value =>
    refine ⟨(),trivial,fun used made hrule => ?_⟩
    cases value with
    | false => rw [hrule.1]; rfl
    | true => exact hrule.elim
  | isEmpty | joinable => exact ⟨true,trivial,fun used made hrule => by rw [hrule.1]; rfl⟩
  | drain => exact ⟨[],trivial,fun used made hrule => by rw [hrule.1]; rfl⟩
  | notifyOne | notifyAll => cases hop
  | lock | unlock | push | block | wake | join | beginRound | endRound | endThread | syncCommit =>
    exact ⟨(),trivial,fun used made hrule => by rw [hrule.1]; rfl⟩

/-- Threads that send no notification any more owe none. -/
theorem count_announcing_eq_zero {P : Pool commitCalls CommitThread Unit}
    {gs : List (Multiset CommitDuty)} (hgs : List.Forall₂ Does P.threads gs)
    (hsilent : ¬ NotificationLeft P) : gs.sum.count .announcing = 0 := by
  have hmakes : ∀ p ∈ P.threads, p.Makes fun op : CommitCall => op.notifies = false :=
    fun p hp => not_not.mp fun h => hsilent ⟨p,hp,h⟩
  generalize P.threads = ts at hgs hmakes
  induction hgs with
  | nil => rfl
  | cons hp _ ih =>
    have hhead := measure_eq_zero_of_makes (c := Multiset.count .announcing)
      (Multiset.count_add _) (fun op hop => unannounced hop)
      (fun _ g hg => hg ▸ Multiset.count_zero _) (hmakes _ List.mem_cons_self) hp
    rw [List.sum_cons, Multiset.count_add, hhead, zero_add]
    exact ih fun q hq => hmakes q (List.mem_cons_of_mem _ hq)

end CommitThread

/-- If no stop notifies between the predicate and the block, the stop is heard. -/
theorem not_hangs_of_notifiesHeard {tr : List (Event commitCalls CommitThread)}
    {P : Pool commitCalls CommitThread Unit}
    (hrun : CommitRun (fun s op => s.notifiesHeard op = true) tr P) : ¬ CommitThread.Hangs P := by
  intro hhangs
  have hstart : ∃ gs, List.Forall₂ CommitThread.Does [] gs ∧
      CommitThread.Announced .started gs.sum := ⟨[],.nil,rfl,rfl,by rintro (h | h) <;> cases h⟩
  obtain ⟨gs,hgs,hinv⟩ := Run.shares CommitThread.keeps_announced
    (fun p hp => by obtain ⟨op,rfl⟩ := hp; exact CommitThread.does_commitOp op) hstart hrun
  have hpos := hinv.announcing (.inl hhangs.blocked) hhangs.stopped
  have hzero := CommitThread.count_announcing_eq_zero hgs hhangs.silent
  omega

namespace CommitThread

theorem commitRun_of_schedule (check : CommitThread → CommitCall → Bool) (ops : List CommitOp)
    (turns : List ℕ) {γ : Type}
    {f : List (Event commitCalls CommitThread) × Pool commitCalls CommitThread Unit → γ} {v : γ}
    (h : (Pool.follow (M := commitMachine) check (turns.map fun i => (i,()))
      ⟨.started,ops.map CommitOp.run⟩).map f = some v) :
    ∃ tr P, CommitRun (fun s op => check s op = true) tr P ∧ f (tr,P) = v := by
  refine run_of_schedule _ ?_ h
  intro p hp
  obtain ⟨op,-,rfl⟩ := List.mem_map.mp hp
  exact ⟨op,rfl⟩

end CommitThread

open CommitThread

/-- The thread blocks, is stopped, and wakes up to leave its loop. -/
theorem not_hangs_of_notifiesHeard_blocked : ∃ tr P,
    CommitRun (fun s op => s.notifiesHeard op = true) tr P ∧ ¬ CommitThread.Hangs P ∧
      P.state.joined = true := by
  obtain ⟨tr,P,hrun,hP⟩ := commitRun_of_schedule notifiesHeard [.stop,.round,.woken]
    (List.replicate 6 1 ++ List.replicate 4 0 ++ List.replicate 8 2 ++ [0])
    (f := fun y => y.2.state.joined) (v := true) rfl
  exact ⟨tr,P,hrun,not_hangs_of_notifiesHeard hrun,hP⟩

/-- The stop falls between the predicate and the block. -/
theorem exists_run_hangs : ∃ tr P, CommitRun (fun _ _ => True) tr P ∧ CommitThread.Hangs P := by
  obtain ⟨tr,P,hrun,rfl⟩ := commitRun_of_schedule (fun _ _ => true) [.stop,.round]
    (List.replicate 5 1 ++ List.replicate 4 0 ++ [1]) (f := Prod.snd)
    (v := ⟨⟨false,[],false,.blocked,false⟩,[.call .join .ret,.ret ()]⟩) rfl
  refine ⟨tr,_,hrun.ok_mono fun _ _ _ => trivial,?_⟩
  refine ⟨List.mem_cons_self,rfl,rfl,?_⟩
  rintro ⟨p,hp,hmakes⟩
  refine hmakes ?_
  simp only [List.mem_cons, List.not_mem_nil, or_false] at hp
  rcases hp with rfl | rfl
  · exact ⟨rfl,fun _ => trivial⟩
  · trivial

end FalconKV
