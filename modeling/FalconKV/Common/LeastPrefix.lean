import Mathlib.Algebra.BigOperators.Group.List.Basic
import Mathlib.Algebra.Ring.Nat

/-! # The least prefix that reaches a sum

How many numbers from the front of a list are needed until their sum reaches a bound, if at most
so many may be taken. What is taken in portions is taken all the same.
-/
namespace FalconKV

/-- The number of elements taken; the first argument is what is still needed. -/
def leastPrefix : ℕ → List ℕ → ℕ → ℕ
  | _, [], _ => 0
  | _, _ :: _, 0 => 0
  | needed, size :: sizes, maxCount + 1 =>
    if 0 < needed then leastPrefix (needed - size) sizes maxCount + 1 else 0

section
variable {needed size maxCount : ℕ} {sizes : List ℕ}

@[simp] theorem leastPrefix_nil : leastPrefix needed [] maxCount = 0 := by
  unfold leastPrefix
  rfl

@[simp] theorem leastPrefix_zero_count : leastPrefix needed sizes 0 = 0 := by
  cases sizes <;> rfl

@[simp] theorem leastPrefix_zero_needed : leastPrefix 0 sizes maxCount = 0 := by
  cases sizes <;> cases maxCount <;> rfl

theorem leastPrefix_cons (h : 0 < needed) : leastPrefix needed (size :: sizes) (maxCount + 1) =
    leastPrefix (needed - size) sizes maxCount + 1 := by
  rw [leastPrefix, if_pos h]

/-- Shorter prefixes do not reach the bound. -/
theorem sum_take_lt_of_lt_leastPrefix {count : ℕ} (h : count < leastPrefix needed sizes maxCount) :
    (sizes.take count).sum < needed := by
  induction sizes generalizing needed maxCount count with
  | nil => simp at h
  | cons size sizes ih =>
    rcases Nat.eq_zero_or_pos needed with rfl | hpos
    · simp at h
    · cases maxCount with
      | zero => simp at h
      | succ maxCount =>
        rw [leastPrefix_cons hpos] at h
        cases count with
        | zero => simpa using hpos
        | succ count =>
          have hrest := ih (Nat.lt_of_succ_lt_succ h)
          rw [List.take_succ_cons, List.sum_cons]
          omega

/-- The prefix reaches the bound, or all that there is or may be taken is taken. -/
theorem leastPrefix_stops (needed : ℕ) (sizes : List ℕ) (maxCount : ℕ) :
    needed ≤ (sizes.take (leastPrefix needed sizes maxCount)).sum ∨
    leastPrefix needed sizes maxCount = sizes.length ∨ leastPrefix needed sizes maxCount = maxCount := by
  induction sizes generalizing needed maxCount with
  | nil => simp
  | cons size sizes ih =>
    rcases Nat.eq_zero_or_pos needed with rfl | hpos
    · simp
    · cases maxCount with
      | zero => simp
      | succ maxCount =>
        rw [leastPrefix_cons hpos, List.take_succ_cons, List.sum_cons, List.length_cons]
        rcases ih (needed - size) maxCount with hsum | hlen | hcap
        · left
          omega
        · right; left
          omega
        · right; right
          omega

/-- Two portions, the second for what is needed after the first. -/
theorem leastPrefix_add (needed : ℕ) (sizes : List ℕ) (first second : ℕ) :
    leastPrefix needed sizes (first + second) = leastPrefix needed sizes first +
      leastPrefix (needed - (sizes.take (leastPrefix needed sizes first)).sum)
        (sizes.drop (leastPrefix needed sizes first)) second := by
  induction first generalizing needed sizes with
  | zero => simp
  | succ first ih =>
    cases sizes with
    | nil => simp
    | cons size sizes =>
      rcases Nat.eq_zero_or_pos needed with rfl | hpos
      · simp
      · have hcount : first + 1 + second = first + second + 1 := by omega
        rw [hcount, leastPrefix_cons hpos, leastPrefix_cons hpos, ih, List.take_succ_cons,
          List.sum_cons, List.drop_succ_cons, Nat.sub_add_eq]
        omega

end

end FalconKV
