import FalconKV.AtomicCalls.Discipline

/-! # References that outlive the call that answered them

A component keeps objects and answers with references to them, which its callers use in later
calls. Beside the state stands what is lent: the references of the threads that have not given
them back. A program borrows well if it goes through references only that it holds. If no call
takes away an object to which a reference is lent, then every reference that is used is live.
-/
namespace FalconKV.AtomicCalls

variable {E : Signature} {S ρ α β : Type}

structure Borrowing (E : Signature) (ρ : Type) where
  lends : (op : E.Op) → E.Res op → Multiset ρ
  uses : E.Op → Multiset ρ
  returns : E.Op → Multiset ρ

namespace Borrowing
variable (B : Borrowing E ρ)

def discipline : Discipline E (Multiset ρ) where
  guar := fun _ _ => True
  rule := fun op r used made => ∃ kept, used = B.returns op + kept ∧ B.uses op ⊆ used ∧
    made = B.lends op r + kept

def Fair (p : Prog E α) : Prop := Uses B.discipline (fun _ g => g = 0) p 0

variable {B} {post : α → Multiset ρ → Prop} {held : Multiset ρ}

/-- The rule for one call: it gives back a part of what is held, and adds what it lends. -/
theorem uses_call {op : E.Op} {k : E.Res op → Prog E α} (kept : Multiset ρ)
    (hheld : held = B.returns op + kept) (huses : B.uses op ⊆ held)
    (h : ∀ r, Uses B.discipline post (k r) (B.lends op r + kept)) :
    Uses B.discipline post (Prog.perform op >>= k) held := by
  apply uses_perform
  intro r _
  refine ⟨held,B.lends op r + kept,0,⟨kept,hheld,huses,rfl⟩,(add_zero held).symm,?_⟩
  rw [add_zero]
  exact h r

/-- A call that gives nothing back. -/
theorem uses_lend {op : E.Op} {k : E.Res op → Prog E α} (hreturns : B.returns op = 0)
    (huses : B.uses op ⊆ held) (h : ∀ r, Uses B.discipline post (k r) (B.lends op r + held)) :
    Uses B.discipline post (Prog.perform op >>= k) held := by
  apply uses_call held _ huses h
  rw [hreturns, zero_add]

/-- A loop each of whose rounds gives back what it takes. -/
theorem uses_mapEach_keep {D : Discipline E (Multiset ρ)} {f : β → Prog E α} {xs : List β}
    (h : ∀ x ∈ xs, Uses D (fun _ g => g = held) (f x) held) :
    Uses D (fun _ g => g = held) (Prog.mapEach f xs) held := by
  induction xs with
  | nil => rfl
  | cons x xs ih =>
    obtain ⟨hx,hxs⟩ := List.forall_mem_cons.mp h
    apply uses_bind
    apply uses_mono hx
    rintro y _ rfl
    apply uses_bind
    apply uses_mono (ih hxs)
    rintro ys _ rfl
    rfl

section
variable [DecidableEq ρ]

variable (B) in
/-- What is lent after a call. -/
def note (op : E.Op) (r : E.Res op) (_ : S) (lent : Multiset ρ) : Multiset ρ :=
  B.lends op r + (lent - B.returns op)

/-- The step of an invariant may use that the thread holds what it goes through. -/
theorem keeps {M : Machine E S} {ok : S × Multiset ρ → E.Op → Prop} {Inv : S × Multiset ρ → Prop}
    (live : S → ρ → Prop) (hlive : ∀ {x p}, Inv x → p ∈ x.2 → live x.1 p)
    (hstep : ∀ {x op c r s'}, Inv x → B.uses op ⊆ x.2 → ok x op → M.step op c x.1 = some (r,s') →
      Inv (s',B.note op r x.1 x.2)) :
    Keeps (M.withRecord B.note) B.discipline ok fun tr x lent =>
      x.2 = lent ∧ Inv x ∧ ∀ e ∈ tr, ∀ p ∈ B.uses e.op, live e.before.1 p where
  guar := by
    intros
    trivial
  step := by
    rintro tr i x op c r x' used made rest ⟨hlent,hinv,huses⟩ hok hs ⟨kept,rfl,hheld,rfl⟩
    obtain ⟨hs,hnote⟩ := Machine.withRecord_step hs
    have hsub : B.uses op ⊆ x.2 := by
      rw [hlent]
      intro p hp
      exact Multiset.mem_add.mpr (.inl (hheld hp))
    have hnext : x' = (x'.1,B.note op r x.1 x.2) := Prod.ext rfl hnote
    refine ⟨?_,?_,?_⟩
    · rw [hnote, note, hlent, add_assoc, add_assoc, add_tsub_cancel_left]
    · rw [hnext]
      exact hstep hinv hsub hok hs
    · intro e he p hp
      rcases List.mem_append.mp he with he | he
      · exact huses e he p hp
      · obtain rfl := List.mem_singleton.mp he
        exact hlive hinv (hsub hp)

/-- Whatever fair programs run side by side: the references that they use are live. -/
theorem run {M : Machine E S} {ok : S × Multiset ρ → E.Op → Prop} {Inv : S × Multiset ρ → Prop}
    (live : S → ρ → Prop) {start : Prog E α → Prop} {s : S} {tr : List (Event E (S × Multiset ρ))}
    {P : Pool E (S × Multiset ρ) α} (hs : Inv (s,0)) (hlive : ∀ {x p}, Inv x → p ∈ x.2 → live x.1 p)
    (hstep : ∀ {x op c r s'}, Inv x → B.uses op ⊆ x.2 → ok x op → M.step op c x.1 = some (r,s') →
      Inv (s',B.note op r x.1 x.2))
    (hfair : ∀ p, start p → B.Fair p) (h : Run (M.withRecord B.note) start ok ⟨(s,0),[]⟩ tr P) :
    Inv P.state ∧ (∀ e ∈ tr, ∀ p ∈ B.uses e.op, live e.before.1 p) ∧ (P.Returned → P.state.2 = 0) := by
  have hkeeps := keeps (B := B) live hlive hstep
  obtain ⟨gs,hgs,hlent,hinv,huses⟩ := h.shares hkeeps hfair ⟨[],.nil,by simpa using hs⟩
  refine ⟨hinv,huses,fun hreturned => ?_⟩
  rw [hlent]
  exact hreturned.sum_eq_zero hgs

end

end Borrowing

end FalconKV.AtomicCalls
