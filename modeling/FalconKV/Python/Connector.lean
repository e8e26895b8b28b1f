import Mathlib.Logic.Function.Basic
import FalconKV.AtomicCalls.Environment
import FalconKV.AtomicCalls.Ledgers

/-! # The connector

The connector reads into objects that it allocates from a pool and writes objects that it is
given, in the foreground or in the background. The pool, the client and the base class of
the connector may raise wherever they are called. An object is a number, an exception its
text, and a key what its `to_string` gives.
-/
namespace FalconKV
open AtomicCalls

structure FireAndForgetData where
  call : ℕ
  pyObjs : List ℕ
  deriving DecidableEq, Repr

structure PutTask where
  keys : List String
  buffers : List (ℕ × ℕ)
  userData : FireAndForgetData
  deriving DecidableEq, Repr

inductive ConnectorCall
  | enter
  | allocate
  | tensor (obj : ℕ)
  | batchGetSync (keys : List String) (dataPtrs sizes : List ℕ)
  | reshapePartialChunk (obj : ℕ) (nRead : ℤ)
  | refCountUp (n obj : ℕ)
  | refCountDown (n obj : ℕ)
  | batchPutSync (keys : List String) (dataPtrs sizes : List ℕ)
  | fireAndForgetPut (n : ℕ) (keys : List String) (dataPtrs sizes memoryObjs : List ℕ)
  /-- a worker thread takes a task, writes its batch and runs the callback -/
  | takeTask
  | runTask (task : PutTask)

abbrev ConnectorCall.Res : ConnectorCall → Type
  | enter => ℕ
  | allocate => Except String (Option ℕ)
  | tensor _ => Except String (Option (ℕ × ℕ))
  | batchGetSync .. => Except String (List ℤ)
  | reshapePartialChunk .. => Except String ℕ
  | refCountUp .. | refCountDown .. | runTask _ => Unit
  | batchPutSync .. | fireAndForgetPut .. => Except String Unit
  | takeTask => PutTask

abbrev connectorCalls : Signature := ⟨ConnectorCall,ConnectorCall.Res⟩

abbrev ConnectorProg := Prog connectorCalls

structure ConnectorChoice where
  /-- an object, `None` or an exception -/
  allocated : Except String Bool := .ok true
  buffer : Except String (Option (ℕ × ℕ)) := .ok (some (0,4))
  reads : Except String (List ℤ) := .ok []
  reshaped : Except String ℕ := .ok 0
  /-- a put in the foreground, or the submission of one in the background -/
  put : Except String Unit := .ok ()

structure Connector where
  nextCall : ℕ
  nextObject : ℕ
  refCount : ℕ → ℤ
  taskQueue : List PutTask

namespace Connector

def create : Connector := ⟨0,0,fun _ => 0,[]⟩

def step (op : ConnectorCall) (c : ConnectorChoice) (s : Connector) : Option (op.Res × Connector) :=
  match op with
  | .enter => some (s.nextCall,{ s with nextCall := s.nextCall + 1 })
  | .allocate => match c.allocated with
    | .error e => some (.error e,s)
    | .ok false => some (.ok none,s)
    | .ok true => some (.ok (some s.nextObject),{ s with
        nextObject := s.nextObject + 1
        refCount := Function.update s.refCount s.nextObject 1 })
  | .tensor _ => some (c.buffer,s)
  | .batchGetSync .. => some (c.reads,s)
  | .reshapePartialChunk .. => some (c.reshaped,s)
  | .refCountUp _ obj =>
    some ((),{ s with refCount := Function.update s.refCount obj (s.refCount obj + 1) })
  | .refCountDown _ obj =>
    some ((),{ s with refCount := Function.update s.refCount obj (s.refCount obj - 1) })
  -- with fewer pointers than keys the extension reads behind its list, and what it does is undefined
  | .batchPutSync keys dataPtrs _ => if dataPtrs.length < keys.length then none else some (c.put,s)
  | .fireAndForgetPut n keys dataPtrs sizes memoryObjs =>
    if dataPtrs.length < keys.length then none
    else match c.put with
    | .error e => some (.error e,s)
    | .ok () => some (.ok (),{ s with taskQueue := s.taskQueue ++
        [⟨keys,(dataPtrs.zip sizes).take keys.length,⟨n,memoryObjs.take keys.length⟩⟩] })
  | .takeTask => match s.taskQueue with
    | [] => none
    | task :: rest => some (task,{ s with taskQueue := rest })
  | .runTask _ => some ((),s)

end Connector

def connectorMachine : Machine connectorCalls Connector := ⟨ConnectorChoice,Connector.step⟩

section
variable {c : ConnectorChoice} {s s' : Connector} {keys : List String} {ptrs sizes objs : List ℕ} {n : ℕ}
  {r : Except String Unit}

theorem eq_of_batchPutSync (h : connectorMachine.step (.batchPutSync keys ptrs sizes) c s = some (r,s')) :
    s' = s := by
  simp only [connectorMachine, Connector.step] at h
  split at h
  · cases h
  · exact (Prod.mk.inj (Option.some.inj h)).2.symm

/-- A put in the background is refused, or its task is queued. -/
theorem queues_of_fireAndForgetPut
    (h : connectorMachine.step (.fireAndForgetPut n keys ptrs sizes objs) c s = some (r,s')) :
    ((∃ e, r = .error e) ∧ s' = s) ∨ (r = .ok () ∧ s' = { s with taskQueue := s.taskQueue ++
      [⟨keys,(ptrs.zip sizes).take keys.length,⟨n,objs.take keys.length⟩⟩] }) := by
  simp only [connectorMachine, Connector.step] at h
  split at h
  · cases h
  · cases hput : c.put with
    | error e =>
      rw [hput] at h
      obtain ⟨rfl,rfl⟩ := Prod.mk.inj (Option.some.inj h)
      exact .inl ⟨⟨e,rfl⟩,rfl⟩
    | ok =>
      rw [hput] at h
      obtain ⟨rfl,rfl⟩ := Prod.mk.inj (Option.some.inj h)
      exact .inr ⟨rfl,rfl⟩

end

def ConnectorCall.documented (op : ConnectorCall) (c : ConnectorChoice) : Bool :=
  match op with
  | batchGetSync keys _ _ => match c.reads with
    | .ok reads => reads.length == keys.length
    | .error _ => true
  | reshapePartialChunk obj _ => match c.reshaped with
    | .ok obj' => obj' == obj
    | .error _ => true
  | _ => true

namespace ConnectorOps

abbrev ask (op : ConnectorCall) : ConnectorProg op.Res := Prog.perform (E := connectorCalls) op

def bufferOf (obj : ℕ) : ConnectorProg (Except String (ℕ × ℕ)) := do
  let tensor ← ask (.tensor obj)
  match tensor with
  | .error e => pure (.error e)
  | .ok none => pure (.error "'NoneType' object has no attribute 'data_ptr'")
  | .ok (some buffer) => pure (.ok buffer)

def allocateAll : List String → List (ℕ × ℕ × ℕ) →
    ConnectorProg (Except String (List (ℕ × ℕ × ℕ)))
  | [], objs => pure (.ok objs)
  | _ :: keys, objs => do
    let allocated ← ask .allocate
    match allocated with
    | .error e => pure (.error e)
    | .ok none => pure (.error "'NoneType' object has no attribute 'tensor'")
    | .ok (some obj) => do
      let buffer ← bufferOf obj
      match buffer with
      | .error e => pure (.error e)
      | .ok buffer => allocateAll keys (objs ++ [(obj,buffer)])

def collect (n : ℕ) : List ℤ → List (ℕ × ℕ × ℕ) → List (Option ℕ) →
    ConnectorProg (Except String (List (Option ℕ)))
  | [], _, results => pure (.ok results)
  | _ :: _, [], _ => pure (.error "list index out of range")
  | nRead :: reads, (obj,_,size) :: objs, results =>
    if nRead ≤ 0 then do
      ask (.refCountDown n obj)
      collect n reads objs (results ++ [none])
    else if nRead < size then do
      let reshaped ← ask (.reshapePartialChunk obj nRead)
      match reshaped with
      | .error e => pure (.error e)
      | .ok obj' => collect n reads objs (results ++ [some obj'])
    else collect n reads objs (results ++ [some obj])

def batchedGet (n : ℕ) (keys : List String) : ConnectorProg (Except String (List (Option ℕ))) := do
  let allocated ← allocateAll keys []
  match allocated with
  | .error e => pure (.error e)
  | .ok objs => do
    let reads ← ask (.batchGetSync keys (objs.map fun x => x.2.1) (objs.map fun x => x.2.2))
    match reads with
    | .error e => pure (.error e)
    | .ok reads => collect n reads objs []

def release (n : ℕ) : Option ℕ → ConnectorProg Unit
  | none => pure ()
  | some obj => ask (.refCountDown n obj)

def untilGap (n : ℕ) : List (Option ℕ) → ConnectorProg (List ℕ)
  | [] => pure []
  | none :: rest => do
    Prog.forEach (release n) rest
    pure []
  | some obj :: rest => do
    let kept ← untilGap n rest
    pure (obj :: kept)

def batchedGetNonBlocking (n : ℕ) (keys : List String) : ConnectorProg (Except String (List ℕ)) := do
  let results ← batchedGet n keys
  match results with
  | .error e => pure (.error e)
  | .ok results => do
    let kept ← untilGap n results
    pure (.ok kept)

def get (n : ℕ) (key : String) : ConnectorProg (Except String (Option ℕ)) := do
  let results ← batchedGet n [key]
  pure (results.map fun results => results.head?.join)

def buffersOf : List ℕ → List (ℕ × ℕ) → ConnectorProg (Except String (List (ℕ × ℕ)))
  | [], buffers => pure (.ok buffers)
  | obj :: objs, buffers => do
    let buffer ← bufferOf obj
    match buffer with
    | .error e => pure (.error e)
    | .ok buffer => buffersOf objs (buffers ++ [buffer])

def batchedPut (fireAndForget : Bool) (n : ℕ) (keys : List String) (memoryObjs : List ℕ) :
    ConnectorProg (Except String Unit) := do
  let buffers ← buffersOf memoryObjs []
  match buffers with
  | .error e => pure (.error e)
  | .ok buffers =>
    if fireAndForget then do
      Prog.forEach (fun obj => ask (.refCountUp n obj)) memoryObjs
      ask (.fireAndForgetPut n keys (buffers.map Prod.fst) (buffers.map Prod.snd) memoryObjs)
    else do
      let put ← ask (.batchPutSync keys (buffers.map Prod.fst) (buffers.map Prod.snd))
      match put with
      | .error e => pure (.error e)
      | .ok () => do
        Prog.forEach (fun obj => ask (.refCountDown n obj)) memoryObjs
        pure (.ok ())

def backgroundPut : ConnectorProg Unit := do
  let task ← ask .takeTask
  ask (.runTask task)
  Prog.forEach (fun obj => ask (.refCountDown task.userData.call obj)) task.userData.pyObjs

end ConnectorOps

/-- A call of the connector in either mode, or a task in the background. -/
inductive ConnectorOp
  | batchedGet (keys : List String)
  | batchedGetNonBlocking (keys : List String)
  | get (key : String)
  | batchedPut (fireAndForget : Bool) (keys : List String) (memoryObjs : List ℕ)
  | put (fireAndForget : Bool) (key : String) (memoryObj : ℕ)
  | backgroundPut

inductive ConnectorReply
  | batchedGet (results : Except String (List (Option ℕ)))
  | batchedGetNonBlocking (results : Except String (List ℕ))
  | get (result : Except String (Option ℕ))
  | batchedPut (fireAndForget : Bool) (n : ℕ) (keys : List String) (memoryObjs : List ℕ)
      (result : Except String Unit)
  | backgroundPut

def ConnectorOp.run : ConnectorOp → ConnectorProg ConnectorReply
  | batchedGet keys => do
    let n ← ConnectorOps.ask .enter
    ConnectorReply.batchedGet <$> ConnectorOps.batchedGet n keys
  | batchedGetNonBlocking keys => do
    let n ← ConnectorOps.ask .enter
    ConnectorReply.batchedGetNonBlocking <$> ConnectorOps.batchedGetNonBlocking n keys
  | get key => do
    let n ← ConnectorOps.ask .enter
    ConnectorReply.get <$> ConnectorOps.get n key
  | batchedPut faf keys memoryObjs => do
    let n ← ConnectorOps.ask .enter
    ConnectorReply.batchedPut faf n keys memoryObjs <$> ConnectorOps.batchedPut faf n keys memoryObjs
  | put faf key memoryObj => do
    let n ← ConnectorOps.ask .enter
    ConnectorReply.batchedPut faf n [key] [memoryObj] <$>
      ConnectorOps.batchedPut faf n [key] [memoryObj]
  | backgroundPut => (fun _ => ConnectorReply.backgroundPut) <$> ConnectorOps.backgroundPut

end FalconKV
