import FalconKV.AtomicCalls.Ledgers

/-! # The stages that threads pass through

The stage of a thread is read off its calls, and what a call needs of it is checked once for a
program. An invariant may speak of the shared state and of the stages of all threads: one call
moves one thread.
-/
namespace FalconKV.AtomicCalls

structure Staging (E : Signature) (L : Type) where
  initial : L
  after : L → Answered E → L
  need : E.Op → L → Prop

namespace Staging
variable {E : Signature} {S α β L : Type} {M : Machine E S} {start : Prog E α → Prop}
  {ok : S → E.Op → Prop} (T : Staging E L)

def stage (calls : List (Answered E)) : L := calls.foldl T.after T.initial

def ledger : Ledger E L where
  guar := fun _ _ => True
  rule := fun op r l l' => T.need op l ∧ l' = T.after l ⟨op,r⟩

variable {T}

@[simp] theorem stage_nil : T.stage [] = T.initial := rfl

theorem stage_snoc (calls : List (Answered E)) (a : Answered E) :
    T.stage (calls ++ [a]) = T.after (T.stage calls) a := by
  rw [stage,List.foldl_append]
  rfl

theorem entered_stage {calls : List (Answered E)} {l : L} (h : T.ledger.Entered T.initial calls l) :
    l = T.stage calls := by
  induction h with
  | nil => rfl
  | snoc _ _ hrule ih =>
    rw [stage_snoc, ← ih]
    exact hrule.2

variable {post : α → L → Prop} {l : L}

/-- The rule for one call and what comes after it. -/
theorem kept_call {op : E.Op} {k : E.Res op → Prog E α} (hneed : T.need op l)
    (h : ∀ r, T.ledger.Kept post (k r) (T.after l ⟨op,r⟩)) :
    T.ledger.Kept post (Prog.perform op >>= k) l := fun r _ => ⟨_,⟨hneed,rfl⟩,h r⟩

/-- A program that stays in one stage. -/
theorem kept_within {P : E.Op → Prop} {p : Prog E α} (hp : p.Makes P)
    (hP : ∀ op, P op → T.need op l ∧ ∀ r, T.after l ⟨op,r⟩ = l) :
    T.ledger.Kept (fun _ l' => l' = l) p l := by
  apply Ledger.kept_of_makes hp
  intro op r hop
  obtain ⟨hneed,hafter⟩ := hP op hop
  exact ⟨hneed,(hafter r).symm⟩

/-- What comes after a program that ends in a known stage. -/
theorem kept_before {l' : L} {p : Prog E β} {f : β → Prog E α}
    (hp : T.ledger.Kept (fun _ l₁ => l₁ = l') p l) (hf : ∀ b, T.ledger.Kept post (f b) l') :
    T.ledger.Kept post (p >>= f) l := by
  apply Ledger.kept_bind
  apply Ledger.kept_mono hp
  rintro b _ rfl
  exact hf b

/-- A loop whose rounds end in the stage in which they begin. -/
theorem kept_mapEach {γ : Type} {f : γ → Prog E β} {xs : List γ}
    (hf : ∀ x ∈ xs, T.ledger.Kept (fun _ l' => l' = l) (f x) l) :
    T.ledger.Kept (fun _ l' => l' = l) (Prog.mapEach f xs) l := by
  induction xs with
  | nil => rfl
  | cons x xs ih =>
    obtain ⟨hx,hxs⟩ := List.forall_mem_cons.mp hf
    exact kept_before hx fun _ => kept_before (ih hxs) fun _ => rfl

section
variable (hstart : ∀ p, start p → T.ledger.Kept post p T.initial)
include hstart

/-- What is left of a program goes on from the stage of its thread. -/
theorem run_stage {s : S} {tr : List (Event E S)} {Q : Pool E S α} (h : Run M start ok ⟨s,[]⟩ tr Q)
    {i : ℕ} {q : Prog E α} (hi : Q.threads[i]? = some q) :
    T.ledger.Kept post q (T.stage (callsOf i tr)) := by
  obtain ⟨l,hentered,hkept⟩ := Ledger.run_kept (fun _ _ => trivial) hstart h i q hi
  rwa [entered_stage hentered] at hkept

/-- An invariant of the shared state and of the calls so far. -/
theorem run_invariant (Inv : List (Event E S) → S → Prop) {s : S} (hs : Inv [] s)
    (hstep : ∀ tr (i : ℕ) {s op c r s'}, Inv tr s → T.need op (T.stage (callsOf i tr)) → ok s op →
      M.step op c s = some (r,s') → Inv (tr ++ [⟨i,s,op,r,s'⟩]) s')
    {tr : List (Event E S)} {Q : Pool E S α} (h : Run M start ok ⟨s,[]⟩ tr Q) : Inv tr Q.state := by
  apply Ledger.run_invariant Inv (fun _ _ => trivial) hstart hs ?_ h
  intro tr i l s op k c r s' hinv hentered hkept hok hstep'
  obtain ⟨_,⟨hneed,-⟩,-⟩ := hkept r trivial
  rw [entered_stage hentered] at hneed
  exact hstep tr i hinv hneed hok hstep'

/-- Every call of a run found its thread in a stage that it needs. -/
theorem run_need {s : S} {tr : List (Event E S)} {Q : Pool E S α} (h : Run M start ok ⟨s,[]⟩ tr Q)
    {tr₁ tr₂ : List (Event E S)} {e : Event E S} (htr : tr = tr₁ ++ e :: tr₂) :
    T.need e.op (T.stage (callsOf e.thread tr₁)) := by
  let Inv : List (Event E S) → S → Prop := fun tr _ => ∀ tr₁ e tr₂, tr = tr₁ ++ e :: tr₂ →
    T.need e.op (T.stage (callsOf e.thread tr₁))
  have hinit : Inv [] s := by
    intro tr₁ e tr₂ hnil
    cases tr₁ <;> cases hnil
  have hall : Inv tr Q.state := by
    apply run_invariant hstart Inv hinit ?_ h
    intro tr i s op c r s' ih hneed _ _ tr₁ e tr₂ hsplit
    rcases List.eq_nil_or_concat tr₂ with rfl | ⟨tr₂,e',rfl⟩
    · obtain ⟨rfl,he⟩ := List.append_inj' hsplit rfl
      cases he
      exact hneed
    · rw [List.concat_eq_append, ← List.cons_append, ← List.append_assoc] at hsplit
      exact ih tr₁ e tr₂ (List.append_inj' hsplit rfl).1
  exact hall tr₁ e tr₂ htr

/-- An invariant of the shared state and the stages of all threads. -/
theorem run_stages (Inv : (ℕ → L) → S → Prop) {s : S} (hs : Inv (fun _ => T.initial) s)
    (hstep : ∀ (σ : ℕ → L) (i : ℕ) {s op c r s'}, Inv σ s → T.need op (σ i) → ok s op →
      M.step op c s = some (r,s') → Inv (Function.update σ i (T.after (σ i) ⟨op,r⟩)) s')
    {tr : List (Event E S)} {Q : Pool E S α} (h : Run M start ok ⟨s,[]⟩ tr Q) :
    Inv (fun i => T.stage (callsOf i tr)) Q.state := by
  apply run_invariant hstart (fun tr s => Inv (fun i => T.stage (callsOf i tr)) s) hs ?_ h
  intro tr i s op c r s' hinv hneed hok hs
  have hmove : (fun j => T.stage (callsOf j (tr ++ [⟨i,s,op,r,s'⟩]))) =
      Function.update (fun j => T.stage (callsOf j tr)) i
        (T.after (T.stage (callsOf i tr)) ⟨op,r⟩) := by
    funext j
    by_cases hj : j = i
    · subst hj
      rw [Function.update_self,callsOf_snoc_self tr ⟨j,s,op,r,s'⟩,stage_snoc]
      rfl
    · rw [Function.update_of_ne hj,callsOf_snoc_of_ne tr (Ne.symm hj)]
  rw [hmove]
  exact hstep _ i hinv hneed hok hs

end

end Staging

end FalconKV.AtomicCalls
