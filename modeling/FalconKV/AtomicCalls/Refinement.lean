import FalconKV.AtomicCalls.Machine

/-! # Operations run to completion, against an abstract state

A history lists operations that were run one after the other, with their replies. A
component refines a relation on abstract states when each of its histories is one of the
relation, from the abstraction of its first state to that of its last.
-/
namespace FalconKV.AtomicCalls

variable {E : Signature} {S A ι ρ : Type}

section
variable (M : Machine E S) (run : ι → Prog E ρ)

/-- The operations that lead from `s₀` to a state, each with its reply. -/
inductive History (s₀ : S) : List (ι × ρ) → S → Prop
  | nil : History s₀ [] s₀
  | snoc {hist : List (ι × ρ)} {s s' : S} {op : ι} {reply : ρ} (h : History s₀ hist s)
      (hexec : Exec M (fun _ _ => True) (run op) s reply s') :
      History s₀ (hist ++ [(op,reply)]) s'

def followOps : List (ι × List M.Choice) → S → Option (List (ι × ρ) × S)
  | [], s => some ([],s)
  | (op,choices) :: script, s =>
    (execWith M (fun _ _ => true) (run op) choices s).bind fun x =>
      (followOps script x.2).map fun y => ((op,x.1) :: y.1,y.2)

end

/-- What the relation `R` allows on abstract states. -/
inductive Traces (R : A → ι → ρ → A → Prop) (a₀ : A) : List (ι × ρ) → A → Prop
  | nil : Traces R a₀ [] a₀
  | snoc {hist : List (ι × ρ)} {a a' : A} {op : ι} {reply : ρ} (h : Traces R a₀ hist a)
      (hstep : R a op reply a') : Traces R a₀ (hist ++ [(op,reply)]) a'

variable {M : Machine E S} {run : ι → Prog E ρ} {R : A → ι → ρ → A → Prop}

/-- What each step keeps holds after every trace. -/
theorem Traces.invariant {P : A → Prop} {a₀ a : A} {hist : List (ι × ρ)} (h₀ : P a₀)
    (hstep : ∀ {a op reply a'}, P a → R a op reply a' → P a') (h : Traces R a₀ hist a) : P a := by
  induction h with
  | nil => exact h₀
  | snoc _ hs ih => exact hstep ih hs

/-- To refine a relation it is enough that every operation does, from states that
satisfy an invariant of the component and whose abstraction satisfies one of the relation. -/
theorem History.refines (abs : S → A) {Inv : S → Prop} {P : A → Prop}
    (hP : ∀ {a op reply a'}, P a → R a op reply a' → P a')
    (hstep : ∀ {s op reply s'}, Inv s → P (abs s) → Exec M (fun _ _ => True) (run op) s reply s' →
      Inv s' ∧ R (abs s) op reply (abs s'))
    {s₀ s : S} {hist : List (ι × ρ)} (h₀ : Inv s₀) (hP₀ : P (abs s₀))
    (h : History M run s₀ hist s) : Inv s ∧ Traces R (abs s₀) hist (abs s) := by
  induction h with
  | nil => exact ⟨h₀,.nil⟩
  | snoc _ hexec ih =>
    obtain ⟨hinv,htraces⟩ := ih
    have hreached := htraces.invariant hP₀ hP
    obtain ⟨hinv',hR⟩ := hstep hinv hreached hexec
    exact ⟨hinv',htraces.snoc hR⟩

/-- A script that can be followed is a history. -/
theorem history_of_script (run : ι → Prog E ρ) (script : List (ι × List M.Choice)) (s₀ : S)
    {γ : Type} {f : List (ι × ρ) × S → γ} {v : γ} (h : (followOps M run script s₀).map f = some v) :
    ∃ hist s, History M run s₀ hist s ∧ f (hist,s) = v := by
  have hrun : ∀ (script : List (ι × List M.Choice)) (s s' : S) (hist hist' : List (ι × ρ)),
      History M run s₀ hist s → followOps M run script s = some (hist',s') →
        History M run s₀ (hist ++ hist') s' := by
    intro script
    induction script with
    | nil =>
      intro s s' hist hist' hs h
      cases h
      rwa [List.append_nil]
    | cons x script ih =>
      intro s s' hist hist' hs h
      obtain ⟨⟨reply,s₁⟩,hexec,hrest⟩ := Option.bind_eq_some_iff.mp h
      obtain ⟨⟨hist₁,s₂⟩,hfollow,heq⟩ := Option.map_eq_some_iff.mp hrest
      obtain ⟨rfl,rfl⟩ := Prod.mk.inj heq
      have hone : Exec M (fun _ _ => True) (run x.1) s reply s₁ :=
        (exec_of_execWith hexec).ok_mono fun _ _ _ => trivial
      rw [List.append_cons]
      exact ih s₁ s₂ _ hist₁ (hs.snoc hone) hfollow
  obtain ⟨⟨hist,s⟩,hfollow,hv⟩ := Option.map_eq_some_iff.mp h
  exact ⟨hist,s,by simpa using hrun script s₀ s [] hist .nil hfollow,hv⟩

end FalconKV.AtomicCalls
