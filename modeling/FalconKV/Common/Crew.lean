import Mathlib.Data.List.Count

/-! # A queue that is served by workers

Items wait in a queue or are in the hands of a worker. Workers may leave for good. A queue
is served as long as nothing is left in it when all workers have gone.
-/
namespace FalconKV

theorem count_set_add {α : Type} [DecidableEq α] {xs : List α} {i : ℕ} {a b x : α}
    (hi : xs[i]? = some a) : (xs.set i b).count x + (if a = x then 1 else 0) =
      xs.count x + if b = x then 1 else 0 := by
  obtain ⟨hlt,hget⟩ := List.getElem?_eq_some_iff.mp hi
  have hset : (xs.set i b).count x = xs.count x - (if a = x then 1 else 0) + if b = x then 1 else 0 := by
    rw [List.count_set hlt,hget]
    simp only [beq_iff_eq]
  have hpos : (if a = x then 1 else 0) ≤ xs.count x := by
    split
    · next heq =>
      rw [← heq]
      exact List.count_pos_iff.mpr (List.mem_of_getElem? hi)
    · exact Nat.zero_le _
  rw [hset]
  omega

inductive Hand (τ : Type)
  | free
  | busy (x : τ)
  | left
  deriving DecidableEq, Repr

structure Crew (τ : Type) where
  queue : List τ
  hands : List (Hand τ)

namespace Crew
variable {τ : Type} {c : Crew τ} {x y : τ} {i : ℕ} {h h' : Hand τ}

def submit (c : Crew τ) (x : τ) : Crew τ := { c with queue := c.queue ++ [x] }

def setHand (c : Crew τ) (i : ℕ) (h : Hand τ) : Crew τ := { c with hands := c.hands.set i h }

def Deserted (c : Crew τ) : Prop := ∀ h ∈ c.hands, h = .left

/-- Nothing waits for workers that have left. -/
def Served (c : Crew τ) : Prop := c.Deserted → c.queue = []

theorem not_deserted (hi : c.hands[i]? = some h) (hne : h ≠ .left) : ¬c.Deserted :=
  fun hall => hne (hall h (List.mem_of_getElem? hi))

theorem served_of_hand (hi : c.hands[i]? = some h) (hne : h ≠ .left) : c.Served :=
  fun hall => absurd hall (not_deserted hi hne)

theorem hands_setHand_self (hi : c.hands[i]? = some h) : (c.setHand i h').hands[i]? = some h' :=
  List.getElem?_set_self (List.getElem?_eq_some_iff.mp hi).1

/-- A worker that goes on. -/
theorem served_setHand (hi : c.hands[i]? = some h) (hne : h' ≠ .left) : (c.setHand i h').Served :=
  served_of_hand (hands_setHand_self hi) hne

/-- A worker that leaves, from an empty queue or with another one still there. -/
theorem served_leave (hother : c.queue ≠ [] → ∃ j ≠ i, ∃ h, c.hands[j]? = some h ∧ h ≠ .left) :
    (c.setHand i .left).Served := by
  intro hall
  by_contra hne
  obtain ⟨j,hj,h,hget,hleft⟩ := hother hne
  have hkept : (c.setHand i .left).hands[j]? = some h := by
    rw [← hget]
    exact List.getElem?_set_ne (Ne.symm hj)
  exact not_deserted hkept hleft hall

theorem served_submit (h : ¬c.Deserted) : (c.submit x).Served := fun hall => absurd hall h

variable [DecidableEq τ]

/-- How often an item is in the queue or in hand. -/
def count (c : Crew τ) (x : τ) : ℕ := c.queue.count x + c.hands.count (.busy x)

theorem count_submit : (c.submit x).count y = c.count y + if x = y then 1 else 0 := by
  rw [count,count,submit,List.count_append,List.count_singleton]
  simp only [beq_iff_eq]
  omega

/-- What a change of one hand changes. -/
theorem count_setHand (hi : c.hands[i]? = some h) : (c.setHand i h').count x +
    (if h = .busy x then 1 else 0) = c.count x + if h' = .busy x then 1 else 0 := by
  have hset : (c.hands.set i h').count (.busy x) + (if h = .busy x then 1 else 0) =
      c.hands.count (.busy x) + if h' = .busy x then 1 else 0 := count_set_add hi
  simp only [count, setHand]
  omega

/-- A worker that goes on with what it has in hand. -/
theorem count_setHand_self (hi : c.hands[i]? = some h) : (c.setHand i h).count x = c.count x :=
  Nat.add_right_cancel (count_setHand hi)

/-- A worker that does not have the item in hand, before or after. -/
theorem count_setHand_of_ne (hi : c.hands[i]? = some h) (hne : h ≠ .busy x) (hne' : h' ≠ .busy x) :
    (c.setHand i h').count x = c.count x := by
  have hcount : (c.setHand i h').count x + (if h = .busy x then 1 else 0) =
      c.count x + if h' = .busy x then 1 else 0 := count_setHand hi
  rwa [if_neg hne,if_neg hne'] at hcount

/-- A worker that is done with an item. -/
theorem count_finish (hi : c.hands[i]? = some (.busy y)) :
    (c.setHand i .free).count x + (if y = x then 1 else 0) = c.count x := by
  have hcount : (c.setHand i .free).count x + (if Hand.busy y = .busy x then 1 else 0) =
      c.count x + if Hand.free = .busy x then 1 else 0 := count_setHand hi
  simpa using hcount

/-- A worker takes the first item of the queue. -/
theorem count_take {rest : List τ} (hqueue : c.queue = x :: rest) (hi : c.hands[i]? = some .free) :
    ({ c with queue := rest }.setHand i (.busy x)).count y = c.count y := by
  have hcount : ({ c with queue := rest }.setHand i (.busy x)).count y +
      (if Hand.free = .busy y then 1 else 0) = { c with queue := rest }.count y +
        if Hand.busy x = .busy y then 1 else 0 := count_setHand hi
  have hqueue' : c.count y = rest.count y + (if x = y then 1 else 0) + c.hands.count (.busy y) := by
    rw [count,hqueue,List.count_cons]
    simp only [beq_iff_eq]
  simp only [reduceCtorEq, if_false, Nat.add_zero, Hand.busy.injEq] at hcount
  rw [hcount,hqueue']
  simp only [count]
  omega

theorem count_of_deserted (h : c.Deserted) : c.count x = c.queue.count x := by
  have hnone : c.hands.count (.busy x) = 0 := by
    apply List.count_eq_zero.mpr
    intro hmem
    cases h _ hmem
  rw [count,hnone,Nat.add_zero]

end Crew

end FalconKV
