import Mathlib.Logic.Relation
import FalconKV.AtomicCalls.Machine

/-! # Threads that wait for each other

A resource waits for another one when a thread that holds the first is blocked in a call
that asks for the second. A cycle of waits is excluded by a rank that every wait lowers.
-/
namespace FalconKV.AtomicCalls
variable {E : Signature} {S α ρ : Type}

def Machine.Blocked (M : Machine E S) (s : S) (op : E.Op) : Prop := ∀ c, M.step op c s = none

theorem Machine.Blocked.not_step {M : Machine E S} {s s' : S} {op : E.Op} {c : M.Choice}
    {r : E.Res op} (h : M.Blocked s op) : M.step op c s ≠ some (r,s') := by
  rw [h c]
  exact Option.some_ne_none _ ∘ Eq.symm

structure Claims (E : Signature) (S ρ : Type) where
  holds : S → E.Op → ρ → Prop
  asks : E.Op → Option ρ

def Pool.Waits (P : Pool E S α) (M : Machine E S) (C : Claims E S ρ) (a b : ρ) : Prop :=
  ∃ op ∈ P.pending, C.holds P.state op a ∧ C.asks op = some b ∧ M.Blocked P.state op

def Pool.CyclicWait (P : Pool E S α) (M : Machine E S) (C : Claims E S ρ) : Prop :=
  ∃ a, Relation.TransGen (P.Waits M C) a a

theorem lt_of_transGen {R : ρ → ρ → Prop} {rank : ρ → ℕ} (h : ∀ a b, R a b → rank b < rank a) {a b : ρ}
    (hab : Relation.TransGen R a b) : rank b < rank a := by
  induction hab with
  | single hlast => exact h _ _ hlast
  | tail _ hlast ih => exact Nat.lt_trans (h _ _ hlast) ih

/-- Waits that all lower a rank form no cycle. -/
theorem Pool.not_cyclicWait {P : Pool E S α} {M : Machine E S} {C : Claims E S ρ} (rank : ρ → ℕ)
    (h : ∀ a b, P.Waits M C a b → rank b < rank a) : ¬ P.CyclicWait M C := by
  rintro ⟨a,ha⟩
  exact Nat.lt_irrefl _ (lt_of_transGen h ha)

end FalconKV.AtomicCalls
