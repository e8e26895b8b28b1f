import Mathlib.Data.List.Basic
import Mathlib.Data.Nat.ModEq
import Mathlib.Data.Nat.Notation
import Mathlib.Logic.Function.Basic

/-! # Circular buffers with free-running counters

The reader takes from `head`, the writer adds at `tail`, and neither counter wraps. A
reader that runs ahead of the writer finds what was left in the slots.
-/
namespace FalconKV

structure CircularBuffer (α : Type) where
  capacity : ℕ
  slots : ℕ → α
  head : ℕ
  tail : ℕ

namespace CircularBuffer
variable {α : Type} (b : CircularBuffer α)

def create (capacity : ℕ) (blank : α) : CircularBuffer α := ⟨capacity,fun _ => blank,0,0⟩

/-- What was added and not yet taken. -/
def contents : List α :=
  (List.range (b.tail - b.head)).map fun k => b.slots ((b.head + k) % b.capacity)

def hasRoom : Bool := b.tail < b.head + b.capacity

def push (x : α) : CircularBuffer α :=
  { b with slots := Function.update b.slots (b.tail % b.capacity) x, tail := b.tail + 1 }

def front? : Option α := if b.head = b.tail then none else some (b.slots (b.head % b.capacity))

def advance : CircularBuffer α := { b with head := b.head + 1 }

structure WF : Prop where
  head_le : b.head ≤ b.tail
  tail_le : b.tail ≤ b.head + b.capacity

variable {b} {x : α}

theorem wf_create (capacity : ℕ) (blank : α) : (create capacity blank).WF :=
  ⟨Nat.le_refl 0,Nat.zero_le _⟩

@[simp] theorem contents_create (capacity : ℕ) (blank : α) : (create capacity blank).contents = [] := rfl

theorem WF.push (h : b.WF) (hroom : b.hasRoom = true) : (b.push x).WF where
  head_le := Nat.le_succ_of_le h.head_le
  tail_le := of_decide_eq_true hroom

/-- The slots in use are different ones. -/
theorem slot_ne {i j : ℕ} (hij : i < j) (hj : j < i + b.capacity) :
    i % b.capacity ≠ j % b.capacity := by
  intro heq
  have hdvd : b.capacity ∣ j - i := (Nat.modEq_iff_dvd' (Nat.le_of_lt hij)).mp heq
  have hle : b.capacity ≤ j - i := Nat.le_of_dvd (by omega) hdvd
  omega

theorem contents_push (h : b.WF) (hroom : b.hasRoom = true) :
    (b.push x).contents = b.contents ++ [x] := by
  have hhead := h.head_le
  have hlt : b.tail < b.head + b.capacity := of_decide_eq_true hroom
  have hlen : b.tail + 1 - b.head = (b.tail - b.head) + 1 := by omega
  have hlast : b.head + (b.tail - b.head) = b.tail := by omega
  simp only [contents, push, hlen, List.range_succ, List.map_append, List.map_singleton, hlast,
    Function.update_self]
  congr 1
  apply List.map_congr_left
  intro k hk
  have hk := List.mem_range.mp hk
  have hne := slot_ne (b := b) (i := b.head + k) (j := b.tail) (by omega) (by omega)
  exact Function.update_of_ne hne _ _

theorem front?_push (h : b.WF) (hroom : b.hasRoom = true) {y : α} (hy : b.front? = some y) :
    (b.push x).front? = some y := by
  have hhead := h.head_le
  have hlt : b.tail < b.head + b.capacity := of_decide_eq_true hroom
  unfold front? at hy ⊢
  split at hy
  · cases hy
  next hne =>
  have hslot := slot_ne (b := b) (i := b.head) (j := b.tail) (by omega) hlt
  rw [if_neg (by simp only [push]; omega)]
  simp only [push]
  rw [Function.update_of_ne hslot]
  exact hy

theorem contents_of_front? (h : b.WF) (hx : b.front? = some x) :
    b.contents = x :: b.advance.contents := by
  unfold front? at hx
  split at hx
  · cases hx
  next hne =>
  cases hx
  have hhead := h.head_le
  have hlen : b.tail - b.head = (b.tail - (b.head + 1)) + 1 := by omega
  rw [contents, hlen, List.range_succ_eq_map, List.map_cons, List.map_map]
  simp only [contents, advance, Nat.add_zero, List.cons.injEq, true_and]
  apply List.map_congr_left
  intro k _
  simp only [Function.comp_apply, Nat.succ_eq_add_one]
  rw [Nat.add_assoc, Nat.add_comm 1]

theorem WF.advance (h : b.WF) (hx : b.front? = some x) : b.advance.WF := by
  unfold front? at hx
  split at hx
  · cases hx
  next hne =>
  have hhead := h.head_le
  have htail := h.tail_le
  constructor
  · simp only [CircularBuffer.advance]
    omega
  · simp only [CircularBuffer.advance]
    omega

end CircularBuffer

end FalconKV
