import FalconKV.AtomicCalls.Ledgers
import FalconKV.Common.SlotAllocator
import FalconKV.Store.PendingScan

/-! # The pending queue and its threads

Any number of threads enqueue, flush, start and stop the queue. Each critical section is one
call, as are the reading of the clock, every `Free`, and each access to the flag and the
thread of the background loop.
-/
namespace FalconKV
open AtomicCalls

inductive LoopThread
  | none | launched | looping | finished
  deriving DecidableEq, Repr

structure EvictQueue where
  queue : PendingEvictQueue
  allocator : SlotAllocator
  running : Bool
  thread : LoopThread
  deriving DecidableEq, Repr

inductive QueueCall
  | getWallTimeMs
  | enqueue (key : Key) (offset allocSize : ℕ)
  | size
  | takeExpired (now : ℕ)
  | takeAll
  | free (offset : ℤ) (allocSize : ℕ)
  | loadRunning
  | exchangeRunning (value : Bool)
  | launch
  | enterLoop
  | leaveLoop
  | joinable
  | join
  deriving DecidableEq

abbrev QueueCall.Res : QueueCall → Type
  | getWallTimeMs => ℕ
  | enqueue .. => Unit
  | size => ℕ
  | takeExpired _ => List EvictEntry
  | takeAll => List EvictEntry
  | free .. => Unit
  | loadRunning => Bool
  | exchangeRunning _ => Bool
  | launch => Unit
  | enterLoop => Unit
  | leaveLoop => Unit
  | joinable => Bool
  | join => Unit

abbrev queueCalls : Signature := ⟨QueueCall,QueueCall.Res⟩

structure QueueChoice where
  clock : ℤ := 0
  left : Key → Key := fun _ => ""

def wallTimeMs (clock : ℤ) : ℕ := (clock % 2^64).toNat

theorem wallTimeMs_lt (clock : ℤ) : wallTimeMs clock < 2^64 := by
  simp only [wallTimeMs]
  omega

namespace EvictQueue

def create (gracePeriodMs : ℕ) (allocator : SlotAllocator) : EvictQueue :=
  ⟨.create gracePeriodMs,allocator,false,.none⟩

def step (op : QueueCall) (c : QueueChoice) (s : EvictQueue) : Option (op.Res × EvictQueue) :=
  match op with
  | .getWallTimeMs => some (wallTimeMs c.clock,s)
  | .enqueue key offset allocSize =>
    some ((),{ s with queue := s.queue.enqueue key offset allocSize (wallTimeMs c.clock) })
  | .size => some (s.queue.entries.length,s)
  | .takeExpired now =>
    some ((s.queue.scan c.left now).1,{ s with queue := (s.queue.scan c.left now).2 })
  | .takeAll => some (s.queue.takeAll.1,{ s with queue := s.queue.takeAll.2 })
  | .free offset allocSize => some ((),{ s with allocator := s.allocator.free offset allocSize })
  | .loadRunning => some (s.running,s)
  | .exchangeRunning value => some (s.running,{ s with running := value })
  | .launch => if s.thread = .none then some ((),{ s with thread := .launched }) else none
  | .enterLoop => if s.thread = .launched then some ((),{ s with thread := .looping }) else none
  | .leaveLoop => some ((),{ s with thread := .finished })
  | .joinable => some (decide (s.thread ≠ .none),s)
  | .join => if s.thread = .finished then some ((),{ s with thread := .none }) else none

end EvictQueue

def queueMachine : Machine queueCalls EvictQueue := ⟨QueueChoice,EvictQueue.step⟩

@[simp] theorem queueMachine_step : queueMachine.step = EvictQueue.step := rfl

abbrev QueueProg := Prog queueCalls

abbrev invokeQueue (op : QueueCall) : QueueProg op.Res := Prog.perform (E := queueCalls) op

inductive QueueReply
  | done
  | size (entries : ℕ)
  | flushed (reclaimed : ℕ)
  deriving DecidableEq, Repr

namespace EvictQueue

def enqueue (key : Key) (offset allocSize : ℕ) : QueueProg QueueReply := do
  invokeQueue (.enqueue key offset allocSize)
  pure .done

def getSize : QueueProg QueueReply := do
  let entries ← invokeQueue .size
  pure (.size entries)

def freeAll (entries : List EvictEntry) : QueueProg Unit :=
  Prog.forEach (fun e => invokeQueue (.free (int64 e.offset) e.allocSize)) entries

def freeAndCount : List EvictEntry → ℕ → QueueProg ℕ
  | [], reclaimed => pure reclaimed
  | e :: entries, reclaimed => do
    invokeQueue (.free (int64 e.offset) e.allocSize)
    freeAndCount entries ((reclaimed + e.allocSize) % 2^64)

def flushExpired : QueueProg QueueReply := do
  let now ← invokeQueue .getWallTimeMs
  let toFree ← invokeQueue (.takeExpired now)
  let reclaimed ← freeAndCount toFree 0
  pure (.flushed reclaimed)

def flushAllForced : QueueProg QueueReply := do
  let remaining ← invokeQueue .takeAll
  let reclaimed ← freeAndCount remaining 0
  pure (.flushed reclaimed)

def flushAll : QueueProg Unit := do
  let remaining ← invokeQueue .takeAll
  freeAll remaining

def evictRounds : ℕ → QueueProg Unit
  | 0 => pure ()
  | rounds + 1 => do
    let running ← invokeQueue .loadRunning
    if !running then invokeQueue .leaveLoop
    else do
      let now ← invokeQueue .getWallTimeMs
      let toFree ← invokeQueue (.takeExpired now)
      freeAll toFree
      evictRounds rounds

def evictLoop (rounds : ℕ) : QueueProg QueueReply := do
  invokeQueue .enterLoop
  evictRounds rounds
  pure .done

def start : QueueProg QueueReply := do
  let wasRunning ← invokeQueue (.exchangeRunning true)
  if wasRunning then pure .done
  else do
    invokeQueue .launch
    pure .done

/-- Also the destructor. -/
def stop : QueueProg QueueReply := do
  let wasRunning ← invokeQueue (.exchangeRunning false)
  if !wasRunning then pure .done
  else do
    let joinable ← invokeQueue .joinable
    if joinable then invokeQueue .join else pure ()
    flushAll
    pure .done

/-- The operations of the queue, and the loop that `start` launches. -/
inductive Operation : QueueProg QueueReply → Prop
  | enqueue (key : Key) (offset allocSize : ℕ) : Operation (enqueue key offset allocSize)
  | getSize : Operation getSize
  | flushExpired : Operation flushExpired
  | flushAllForced : Operation flushAllForced
  | start : Operation start
  | stop : Operation stop
  | evictLoop (rounds : ℕ) : Operation (evictLoop rounds)

/-- What any threads do from the creation of the queue on. -/
abbrev Runs (gracePeriodMs : ℕ) (allocator : SlotAllocator) (tr : List (Event queueCalls EvictQueue))
    (Q : Pool queueCalls EvictQueue QueueReply) : Prop :=
  Run queueMachine Operation (fun _ _ => True) ⟨create gracePeriodMs allocator,[]⟩ tr Q

end EvictQueue

end FalconKV
