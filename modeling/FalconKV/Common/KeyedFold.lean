import Mathlib.Data.List.Nodup
import Mathlib.Logic.Function.Basic

/-! # Folds that touch one key at a time

Every item of a list changes what is bound to its own key. What such a fold leaves under a key
is what the items of that key do to it, in their order; so the items may be sorted into classes
of keys, and the classes worked off one after the other.
-/
namespace FalconKV
variable {α κ β ι : Type} [DecidableEq κ] [DecidableEq ι]

def keyedStep (keyOf : α → κ) (act : α → β → β) (f : κ → β) (a : α) : κ → β :=
  Function.update f (keyOf a) (act a (f (keyOf a)))

variable {keyOf : α → κ} {act : α → β → β} {f : κ → β}

theorem keyedStep_apply (a : α) (k : κ) :
    keyedStep keyOf act f a k = if keyOf a = k then act a (f k) else f k := by
  unfold keyedStep
  split
  · next hk => rw [hk, Function.update_self]
  · next hk => exact Function.update_of_ne (Ne.symm hk) _ _

/-- The items of a key, in their order, are all that counts for it. -/
theorem foldl_keyedStep_apply (xs : List α) (k : κ) : xs.foldl (keyedStep keyOf act) f k =
    (xs.filter fun a => keyOf a = k).foldl (fun b a => act a b) (f k) := by
  induction xs generalizing f with
  | nil => rfl
  | cons x xs ih =>
    rw [List.foldl_cons, ih, keyedStep_apply]
    by_cases hk : keyOf x = k
    · simp [hk]
    · simp [hk]

theorem foldl_keyedStep_of_ne {xs : List α} {k : κ} (h : ∀ a ∈ xs, keyOf a ≠ k) :
    xs.foldl (keyedStep keyOf act) f k = f k := by
  have hnone : (xs.filter fun a => keyOf a = k) = [] :=
    List.filter_eq_nil_iff.mpr fun a ha => by simpa using h a ha
  rw [foldl_keyedStep_apply, hnone, List.foldl_nil]

/-- One class of keys does to its keys what the whole list does to them. -/
theorem foldl_class_apply (classOf : κ → ι) (xs : List α) (k : κ) :
    (xs.filter fun a => classOf (keyOf a) = classOf k).foldl (keyedStep keyOf act) f k =
      xs.foldl (keyedStep keyOf act) f k := by
  have hsame : ((xs.filter fun a => classOf (keyOf a) = classOf k).filter fun a => keyOf a = k) =
      xs.filter fun a => keyOf a = k := by
    rw [List.filter_filter]
    refine List.filter_congr fun a _ => ?_
    by_cases hk : keyOf a = k <;> simp [hk]
  rw [foldl_keyedStep_apply, foldl_keyedStep_apply, hsame]

/-- The classes one after the other, each with its items in the order of the list. -/
theorem foldl_classes (classOf : κ → ι) (xs : List α) {classes : List ι} (hn : classes.Nodup) (k : κ) :
    classes.foldl (fun f c => (xs.filter fun a => classOf (keyOf a) = c).foldl (keyedStep keyOf act) f) f k =
      if classOf k ∈ classes then xs.foldl (keyedStep keyOf act) f k else f k := by
  induction classes generalizing f with
  | nil => simp
  | cons c classes ih =>
    obtain ⟨hc,hn⟩ := List.nodup_cons.mp hn
    rw [List.foldl_cons, ih hn]
    by_cases hk : classOf k = c
    · subst hk
      rw [if_neg hc, if_pos List.mem_cons_self]
      exact foldl_class_apply classOf xs k
    · have hother : (xs.filter fun a => classOf (keyOf a) = c).foldl (keyedStep keyOf act) f k = f k := by
        refine foldl_keyedStep_of_ne ?_
        rintro a ha rfl
        exact hk (by simpa using (List.mem_filter.mp ha).2)
      have hwhole : ∀ g : κ → β, g k = f k →
          xs.foldl (keyedStep keyOf act) g k = xs.foldl (keyedStep keyOf act) f k := by
        intro g hg
        rw [foldl_keyedStep_apply, foldl_keyedStep_apply, hg]
      rw [hwhole _ hother, hother]
      simp [List.mem_cons, hk]

/-- If every class occurs, nothing shows that the list was sorted. -/
theorem foldl_classes_eq (classOf : κ → ι) (xs : List α) {classes : List ι} (hn : classes.Nodup)
    (hall : ∀ k, classOf k ∈ classes) :
    classes.foldl (fun f c => (xs.filter fun a => classOf (keyOf a) = c).foldl (keyedStep keyOf act) f) f =
      xs.foldl (keyedStep keyOf act) f := by
  funext k
  rw [foldl_classes classOf xs hn, if_pos (hall k)]

end FalconKV
