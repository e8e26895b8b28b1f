import FalconKV.AtomicCalls.Discipline

/-! # Leaving out calls

A program over two interfaces shows the calls of the first one and hides those of the second. If
the machine moves what is shown as a machine of the first interface does, and the hidden calls
leave it alone, every run is a run of that machine without the hidden calls.
-/
namespace FalconKV.AtomicCalls

/-- Two interfaces side by side. -/
abbrev Signature.sum (E F : Signature) : Signature := ⟨E.Op ⊕ F.Op,Sum.elim E.Res F.Res⟩

variable {E F : Signature} {S T α β γ : Type}

namespace Prog

def Shows : Prog (E.sum F) α → Prog E α → Prop
  | .ret a, q => q = .ret a
  | .call (.inl op) k, q => ∃ k', q = .call op k' ∧ ∀ r, (k r).Shows (k' r)
  | .call (.inr _) k, q => ∀ r, (k r).Shows q

/-- The calls of the first interface, as they are. -/
def shown (p : Prog E α) : Prog (E.sum F) α := p.interp fun op => perform (E := E.sum F) (.inl op)

theorem shows_bind {p : Prog (E.sum F) α} {q : Prog E α} {f : α → Prog (E.sum F) β} {g : α → Prog E β}
    (hp : p.Shows q) (hf : ∀ a, (f a).Shows (g a)) : (p >>= f).Shows (q >>= g) := by
  induction p generalizing q with
  | ret a =>
    obtain rfl := hp
    exact hf a
  | call op k ih =>
    cases op with
    | inl op =>
      obtain ⟨k',rfl,hk⟩ := hp
      exact ⟨fun r => k' r >>= g,rfl,fun r => ih r (hk r)⟩
    | inr op => exact fun r => ih r (hp r)

theorem shows_shown (p : Prog E α) : (shown p : Prog (E.sum F) α).Shows p := by
  induction p with
  | ret a => rfl
  | call op k ih => exact ⟨k,rfl,ih⟩

theorem shows_call {op : F.Op} {f : F.Res op → Prog (E.sum F) β} {q : Prog E β}
    (hf : ∀ r, (f r).Shows q) : (perform (E := E.sum F) (.inr op) >>= f).Shows q := hf

theorem shows_mapEach {f : γ → Prog (E.sum F) α} {g : γ → Prog E α} (h : ∀ x, (f x).Shows (g x))
    (xs : List γ) : (mapEach f xs).Shows (mapEach g xs) := by
  induction xs with
  | nil => rfl
  | cons x xs ih => exact shows_bind (h x) fun y => shows_bind ih fun ys => rfl

end Prog

structure Machine.Projects (M : Machine (E.sum F) S) (N : Machine E T) (view : S → T) : Prop where
  step : ∀ {op : E.Op} {c : M.Choice} {r : E.Res op} {s s' : S},
    M.step (.inl op) c s = some (r,s') → ∃ c', N.step op c' (view s) = some (r,view s')
  keep : ∀ {op : F.Op} {c : M.Choice} {r : F.Res op} {s s' : S},
    M.step (.inr op) c s = some (r,s') → view s' = view s

/-- A call of the first interface, and what is shown of the states around it. -/
def Event.shown (view : S → T) : Event (E.sum F) S → Option (Event E T)
  | ⟨i,s,.inl op,r,s'⟩ => some ⟨i,view s,op,r,view s'⟩
  | ⟨_,_,.inr _,_,_⟩ => none

variable {M : Machine (E.sum F) S} {N : Machine E T} {view : S → T}

/-- Every run is, without the hidden calls, a run of what is shown. -/
theorem Run.project (hM : M.Projects N view) {start : Prog (E.sum F) α → Prop} {start' : Prog E α → Prop}
    (hstart : ∀ p, start p → ∃ q, start' q ∧ p.Shows q) {ok : S → (E.sum F).Op → Prop} {ok' : T → E.Op → Prop}
    (hok : ∀ s op, ok s (.inl op) → ok' (view s) op) {s : S} {tr : List (Event (E.sum F) S)}
    {Q : Pool (E.sum F) S α} (h : Run M start ok ⟨s,[]⟩ tr Q) :
    ∃ ts, List.Forall₂ Prog.Shows Q.threads ts ∧
      Run N start' ok' ⟨view s,[]⟩ (tr.filterMap (Event.shown view)) ⟨view Q.state,ts⟩ := by
  induction h with
  | refl => exact ⟨[],.nil,.refl⟩
  | spawn _ hp ih =>
    obtain ⟨ts,hts,hrun⟩ := ih
    obtain ⟨q,hq,hshows⟩ := hstart _ hp
    exact ⟨ts ++ [q],List.rel_append hts (.cons hshows .nil),hrun.spawn hq⟩
  | @act tr s s' left right op k c r _ hallowed hs ih =>
    obtain ⟨ts,hts,hrun⟩ := ih
    obtain ⟨ls,q,rs,rfl,hleft,hq,hright⟩ := forall₂_split hts
    rw [List.filterMap_append]
    cases op with
    | inl op =>
      obtain ⟨k',rfl,hk⟩ := hq
      obtain ⟨c',hstep⟩ := hM.step hs
      have hmoved := hrun.act (hok s op hallowed) hstep
      rw [← hleft.length_eq] at hmoved
      exact ⟨_,List.rel_append hleft (.cons (hk r) hright),hmoved⟩
    | inr op =>
      have hstays : view s' = view s := hM.keep hs
      refine ⟨_,List.rel_append hleft (.cons (hq r) hright),?_⟩
      have hnone : [(⟨left.length,s,.inr op,r,s'⟩ : Event (E.sum F) S)].filterMap (Event.shown view) = [] := rfl
      rw [hnone,List.append_nil,hstays]
      exact hrun

/-- Programs that have returned show programs that have returned the same. -/
theorem Prog.Shows.value {p : Prog (E.sum F) α} {q : Prog E α} {a : α} (h : p.Shows q)
    (hp : p.value = some a) : q.value = some a := by
  obtain rfl := Prog.value_eq_some.mp hp
  obtain rfl := h
  rfl

/-- What a thread has returned is returned where the hidden calls are left out. -/
theorem replies_of_shows {ps : List (Prog (E.sum F) α)} {qs : List (Prog E α)}
    (h : List.Forall₂ Prog.Shows ps qs) {i : ℕ} {a : α} (hi : (ps.map Prog.value)[i]? = some (some a)) :
    (qs.map Prog.value)[i]? = some (some a) := by
  induction h generalizing i with
  | nil => exact absurd hi (by simp)
  | cons hpq _ ih =>
    cases i with
    | zero => exact congrArg some (hpq.value (Option.some.inj hi))
    | succ i => exact ih hi

end FalconKV.AtomicCalls
