import Mathlib.Logic.Function.Basic

/-! # Partial maps that are bound and unbound one key at a time -/
namespace FalconKV

abbrev Bindings (K V : Type) := K → Option V

namespace Bindings
variable {K V : Type} {m m' m'' : Bindings K V} {key k : K} {value : V}

def empty : Bindings K V := fun _ => none

def Restricts (m m' : Bindings K V) : Prop := ∀ key, m' key = m key ∨ m' key = none

theorem Restricts.refl (m : Bindings K V) : m.Restricts m := fun _ => .inl rfl

theorem Restricts.trans (h : m.Restricts m') (h' : m'.Restricts m'') : m.Restricts m'' := by
  intro key
  rcases h' key with hsame | hnone
  · rw [hsame]
    exact h key
  · exact .inr hnone

theorem Restricts.eq_none (h : m.Restricts m') (hk : m key = none) : m' key = none := by
  rcases h key with hsame | hnone
  · rw [hsame, hk]
  · exact hnone

/-- What is still bound has its old value. -/
theorem Restricts.eq_some (h : m.Restricts m') (hk : m' key = some value) : m key = some value := by
  rcases h key with hsame | hnone
  · rw [← hsame, hk]
  · rw [hnone] at hk
    cases hk

variable [DecidableEq K]

def bind (m : Bindings K V) (key : K) (value : V) : Bindings K V :=
  Function.update m key (some value)

def unbind (m : Bindings K V) (key : K) : Bindings K V := Function.update m key none

theorem bind_apply : m.bind key value k = if k = key then some value else m k :=
  Function.update_apply m key (some value) k

theorem unbind_apply : m.unbind key k = if k = key then none else m k :=
  Function.update_apply m key none k

theorem restricts_unbind (m : Bindings K V) (key : K) : m.Restricts (m.unbind key) := by
  intro k
  rw [unbind_apply]
  by_cases hk : k = key
  · exact .inr (if_pos hk)
  · exact .inl (if_neg hk)

end Bindings

end FalconKV
