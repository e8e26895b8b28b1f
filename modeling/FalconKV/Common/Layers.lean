import Mathlib.Data.Option.Basic

/-! # Settings in layers

Each layer may set a value, and the first one that does decides. A program that writes the layers
over each other from the lowest to the highest has the same result. If it leaves a layer out, the
result stays exactly if that layer is covered by one above it or agrees with the ones below.
-/
namespace FalconKV

namespace Layers
variable {α : Type} {layer : Option α} {upper rest : List (Option α)} {default : α}

def resolve (layers : List (Option α)) (default : α) : α :=
  layers.foldr (fun layer below => layer.getD below) default

/-- A layer that no layer of `upper` covers agrees with what lies below it. -/
def Redundant (upper : List (Option α)) (layer : Option α) (rest : List (Option α))
    (default : α) : Prop :=
  (∀ covering ∈ upper, covering = none) → ∀ v, layer = some v → v = resolve rest default

@[simp] theorem resolve_nil : resolve [] default = default := rfl

@[simp] theorem resolve_cons :
    resolve (layer :: rest) default = layer.getD (resolve rest default) := rfl

/-- A layer may be left out exactly if it is redundant. -/
theorem resolve_skip_iff : resolve (upper ++ rest) default = resolve (upper ++ layer :: rest) default ↔
    Redundant upper layer rest default := by
  rw [Redundant]
  induction upper with
  | nil =>
    cases layer with
    | none => simp
    | some v => simp [eq_comm]
  | cons covering upper ih =>
    cases covering with
    | none => simpa using ih
    | some v => simp

end Layers

end FalconKV
