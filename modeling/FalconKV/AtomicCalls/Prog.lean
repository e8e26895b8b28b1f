import Mathlib.Data.List.Basic

/-! # Programs as trees of atomic calls

A program is a finite tree whose inner nodes are atomic calls on a shared state
and whose branches are the possible answers. The same tree is run alone, run in
an interleaving, or translated call by call into programs over another interface.
-/
namespace FalconKV.AtomicCalls

structure Signature where
  Op : Type
  Res : Op → Type

/-- A program that returns `α` after finitely many atomic calls. -/
inductive Prog (E : Signature) (α : Type) : Type
  | ret (a : α) : Prog E α
  | call (op : E.Op) (k : E.Res op → Prog E α) : Prog E α

namespace Prog
variable {E F : Signature} {α β γ : Type}

def bind : Prog E α → (α → Prog E β) → Prog E β
  | ret a, f => f a
  | call op k, f => call op (fun r => (k r).bind f)

instance : Monad (Prog E) where
  pure := ret
  bind := bind

def perform (op : E.Op) : Prog E (E.Res op) := call op ret

/-- What a program that has returned returned. -/
def value : Prog E α → Option α
  | ret a => some a
  | call _ _ => none

theorem value_eq_some {p : Prog E α} {a : α} : p.value = some a ↔ p = ret a := by
  cases p <;> simp [value]

def next : Prog E α → Option E.Op
  | ret _ => none
  | call op _ => some op

theorem next_eq_some {p : Prog E α} {op : E.Op} : p.next = some op ↔ ∃ k, p = call op k := by
  cases p with
  | ret a => simp [next]
  | call op' k =>
    simp only [next, Option.some.injEq]
    constructor
    · rintro rfl
      exact ⟨k,rfl⟩
    · rintro ⟨k',h⟩
      cases h
      rfl

@[simp] theorem pure_eq (a : α) : (pure a : Prog E α) = ret a := rfl
@[simp] theorem ret_bind (a : α) (f : α → Prog E β) : (ret a : Prog E α) >>= f = f a := rfl
@[simp] theorem call_bind (op : E.Op) (k : E.Res op → Prog E α) (f : α → Prog E β) :
    call op k >>= f = call op (fun r => k r >>= f) := rfl
@[simp] theorem perform_bind (op : E.Op) (f : E.Res op → Prog E β) :
    perform op >>= f = call op f := rfl

@[simp] theorem bind_ret (p : Prog E α) : p >>= ret = p := by
  induction p with
  | ret a => rfl
  | call op k ih => exact congrArg (call op) (funext ih)

@[simp] theorem bind_bind (p : Prog E α) (f : α → Prog E β) (g : β → Prog E γ) :
    (p >>= f) >>= g = p >>= fun a => f a >>= g := by
  induction p with
  | ret a => rfl
  | call op k ih => exact congrArg (call op) (funext ih)

@[simp] theorem map_eq (f : α → β) (p : Prog E α) : f <$> p = p >>= fun a => ret (f a) := rfl

def forEach (f : γ → Prog E Unit) : List γ → Prog E Unit
  | [] => ret ()
  | x :: xs => f x >>= fun _ => forEach f xs

/-- Run `f` on the elements of a list from left to right and collect the answers. -/
def mapEach (f : γ → Prog E β) : List γ → Prog E (List β)
  | [] => ret []
  | x :: xs => f x >>= fun y => mapEach f xs >>= fun ys => ret (y :: ys)

@[simp] theorem forEach_nil (f : γ → Prog E Unit) : forEach f [] = ret () := rfl
@[simp] theorem forEach_cons (f : γ → Prog E Unit) (x : γ) (xs : List γ) :
    forEach f (x :: xs) = f x >>= fun _ => forEach f xs := rfl
@[simp] theorem mapEach_nil (f : γ → Prog E β) : mapEach f [] = ret [] := rfl
@[simp] theorem mapEach_cons (f : γ → Prog E β) (x : γ) (xs : List γ) :
    mapEach f (x :: xs) = f x >>= fun y => mapEach f xs >>= fun ys => ret (y :: ys) := rfl

theorem mapEach_map {δ : Type} (f : γ → Prog E β) (g : δ → γ) (xs : List δ) :
    mapEach f (xs.map g) = mapEach (fun x => f (g x)) xs := by
  induction xs with
  | nil => rfl
  | cons x xs ih => simp only [List.map_cons, mapEach_cons, ih]

def interp (h : (op : E.Op) → Prog F (E.Res op)) : Prog E α → Prog F α
  | ret a => ret a
  | call op k => h op >>= fun r => (k r).interp h

@[simp] theorem interp_ret (h : (op : E.Op) → Prog F (E.Res op)) (a : α) :
    interp h (ret a) = ret a := rfl
@[simp] theorem interp_call (h : (op : E.Op) → Prog F (E.Res op)) (op : E.Op)
    (k : E.Res op → Prog E α) : interp h (call op k) = h op >>= fun r => interp h (k r) := rfl

theorem interp_bind (h : (op : E.Op) → Prog F (E.Res op)) (p : Prog E α) (f : α → Prog E β) :
    (p >>= f).interp h = p.interp h >>= fun a => (f a).interp h := by
  induction p with
  | ret a => rfl
  | call op k ih => simp only [call_bind, interp_call, ih, bind_bind]

/-- Whatever it is answered, the program makes only calls that satisfy `P`. -/
def Makes (P : E.Op → Prop) : Prog E α → Prop
  | ret _ => True
  | call op k => P op ∧ ∀ r, (k r).Makes P

variable {P : E.Op → Prop}

theorem makes_perform {op : E.Op} (h : P op) : (perform op).Makes P := ⟨h,fun _ => trivial⟩

theorem Makes.bind {p : Prog E α} {f : α → Prog E β} (hp : p.Makes P) (hf : ∀ a, (f a).Makes P) :
    (p >>= f).Makes P := by
  induction p with
  | ret a => exact hf a
  | call op k ih => exact ⟨hp.1,fun r => ih r (hp.2 r)⟩

theorem Makes.mono {Q : E.Op → Prop} {p : Prog E α} (hp : p.Makes P) (h : ∀ op, P op → Q op) :
    p.Makes Q := by
  induction p with
  | ret a => trivial
  | call op k ih => exact ⟨h op hp.1,fun r => ih r (hp.2 r)⟩

theorem makes_call_bind {op : E.Op} {f : E.Res op → Prog E β} (h : P op)
    (hf : ∀ r, (f r).Makes P) : (perform op >>= f).Makes P := (makes_perform h).bind hf

theorem makes_forEach {f : γ → Prog E Unit} (hf : ∀ x, (f x).Makes P) (xs : List γ) :
    (forEach f xs).Makes P := by
  induction xs with
  | nil => trivial
  | cons x xs ih => exact (hf x).bind fun _ => ih

theorem makes_mapEach_of_mem {f : γ → Prog E β} {xs : List γ} (hf : ∀ x ∈ xs, (f x).Makes P) :
    (mapEach f xs).Makes P := by
  induction xs with
  | nil => trivial
  | cons x xs ih =>
    obtain ⟨hx,hxs⟩ := List.forall_mem_cons.mp hf
    exact hx.bind fun _ => (ih hxs).bind fun _ => trivial

theorem makes_mapEach {f : γ → Prog E β} (hf : ∀ x, (f x).Makes P) (xs : List γ) :
    (mapEach f xs).Makes P := makes_mapEach_of_mem fun x _ => hf x

theorem makes_interp {h : (op : E.Op) → Prog F (E.Res op)} {Q : F.Op → Prop}
    (hop : ∀ op, P op → (h op).Makes Q) {p : Prog E α} (hp : p.Makes P) : (p.interp h).Makes Q := by
  induction p with
  | ret a => trivial
  | call op k ih => exact (hop op hp.1).bind fun r => ih r (hp.2 r)

end Prog

end FalconKV.AtomicCalls
