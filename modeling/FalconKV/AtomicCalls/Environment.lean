import FalconKV.AtomicCalls.Machine

/-! # Assumptions on the environment

A machine whose environment makes certain choices only, machines on which no call gets
stuck, and executions in which nothing repairs what one bad call has spoilt.
-/
namespace FalconKV.AtomicCalls

variable {E : Signature} {S α β : Type} {M : Machine E S} {ok : S → E.Op → Prop}
  {post : α → S → Prop}

def Machine.Within (N M : Machine E S) : Prop :=
  ∀ {op c r s s'}, N.step op c s = some (r,s') → ∃ c', M.step op c' s = some (r,s')

theorem Machine.Within.refl (M : Machine E S) : M.Within M := fun h => ⟨_,h⟩

theorem wp_within {N : Machine E S} (hN : N.Within M) {p : Prog E α} {s : S}
    (h : wp M ok post p s) : wp N ok post p s := by
  induction p generalizing s with
  | ret a => exact h
  | call op k ih =>
    refine ⟨h.1,fun c r s' hs => ?_⟩
    obtain ⟨c',hs'⟩ := hN hs
    exact ih r (h.2 c' r s' hs')

/-- The machine in surroundings that make only the choices which `allow` admits. -/
def Machine.under (M : Machine E S) (allow : E.Op → M.Choice → Bool) : Machine E S where
  Choice := M.Choice
  step := fun op c s => if allow op c then M.step op c s else none

section
variable {allow : E.Op → M.Choice → Bool}

theorem Machine.under_step {op : E.Op} {c : M.Choice} {r : E.Res op} {s s' : S}
    (h : (M.under allow).step op c s = some (r,s')) :
    allow op c = true ∧ M.step op c s = some (r,s') := by
  unfold under at h
  dsimp only at h
  split at h
  · next hallow => exact ⟨hallow,h⟩
  · cases h

theorem Machine.under_within : (M.under allow).Within M := fun h => ⟨_,(under_step h).2⟩

theorem Exec.of_under {p : Prog E α} {s s' : S} {a : α} (he : Exec (M.under allow) ok p s a s') :
    Exec M ok p s a s' := by
  induction he with
  | ret a s => exact .ret a s
  | call hok hstep _ ih => exact .call hok (Machine.under_step hstep).2 ih

theorem wp_under {p : Prog E α} {s : S} (h : wp M ok post p s) :
    wp (M.under allow) ok post p s := wp_within Machine.under_within h

/-- A call that can take place under any choice, and what it does under one that is made. -/
theorem wp_perform_under {op : E.Op} {k : E.Res op → Prog E α} {s : S} {next : M.Choice → E.Res op × S}
    (hok : ok s op) (hstep : ∀ c, M.step op c s = some (next c))
    (h : ∀ c, allow op c = true → wp (M.under allow) ok post (k (next c).1) (next c).2) :
    wp (M.under allow) ok post (Prog.perform op >>= k) s := by
  refine wp_perform hok fun c r s' hs => ?_
  obtain ⟨hallow,hs⟩ := Machine.under_step hs
  have hnext : next c = (r,s') := Option.some.inj ((hstep c).symm.trans hs)
  have hk := h c hallow
  rwa [hnext] at hk

end

/-- A record that is kept beside the calls changes nothing. -/
theorem wp_withRecord {H : Type} {note : (op : E.Op) → E.Res op → S → H → H} {p : Prog E α} {s : S}
    (h : wp M ok post p s) (g : H) :
    wp (M.withRecord note) (fun x op => ok x.1 op) (fun a x => post a x.1) p (s,g) := by
  induction p generalizing s g with
  | ret a => exact h
  | call op k ih =>
    refine ⟨h.1,fun c r x' hs => ?_⟩
    exact ih r (h.2 c r x'.1 (Machine.withRecord_step hs).1) x'.2

theorem wp_and {ok' : S → E.Op → Prop} {post' : α → S → Prop} {p : Prog E α} {s : S}
    (h : wp M ok post p s) (h' : wp M ok' post' p s) :
    wp M ok (fun a s' => post a s' ∧ post' a s') p s := by
  induction p generalizing s with
  | ret a => exact ⟨h,h'⟩
  | call op k ih => exact ⟨h.1,fun c r s' hs => ih r (h.2 c r s' hs) (h'.2 c r s' hs)⟩

/-- An invariant of the calls that a program makes holds before each of them and at the end. -/
theorem wp_invariant {ok' : S → E.Op → Prop} {I : S → Prop} {p : Prog E α} {s : S}
    (h : wp M ok post p s)
    (hstep : ∀ {s op c r s'}, I s → ok s op → M.step op c s = some (r,s') → I s')
    (hok : ∀ s op, I s → ok s op → ok' s op) (hs : I s) :
    wp M ok' (fun a s' => post a s' ∧ I s') p s := by
  induction p generalizing s with
  | ret a => exact ⟨h,hs⟩
  | call op k ih =>
    exact ⟨hok s op hs h.1,fun c r s' h' => ih r (h.2 c r s' h') (hstep hs h.1 h')⟩

/-- What every execution ends in. -/
theorem wp_of_exec {p : Prog E α} {s : S}
    (h : ∀ a s', Exec M (fun _ _ => True) p s a s' → post a s') :
    wp M (fun _ _ => True) post p s := by
  induction p generalizing s with
  | ret a => exact h a s (.ret a s)
  | call op k ih =>
    exact ⟨trivial,fun c r s' hs => ih r fun a s'' he => h a s'' (.call trivial hs he)⟩

theorem wp_any {p : Prog E α} {s : S} : wp M (fun _ _ => True) (fun _ _ => True) p s :=
  wp_of_exec fun _ _ _ => trivial

theorem Exec.ends {ok' : S → E.Op → Prop} {p : Prog E α} {s s' : S} {a : α}
    (he : Exec M ok' p s a s') (h : wp M ok post p s) : post a s' := (he.of_wp h).2

theorem Exec.perform {op : E.Op} {c : M.Choice} {r : E.Res op} {k : E.Res op → Prog E α} {s s₁ s' : S} {a : α}
    (hok : ok s op) (hstep : M.step op c s = some (r,s₁)) (he : Exec M ok (k r) s₁ a s') :
    Exec M ok (Prog.perform op >>= k) s a s' := .call hok hstep he

theorem Exec.then {p : Prog E α} {f : α → Prog E β} {s s₁ s' : S} {a : α} {b : β}
    (hp : Exec M ok p s a s₁) (hf : Exec M ok (f a) s₁ b s') : Exec M ok (p >>= f) s b s' := by
  induction hp with
  | ret a s => exact hf
  | call hok hstep _ ih => exact .call hok hstep (ih hf)

theorem Exec.of_bind {p : Prog E α} {f : α → Prog E β} {s s' : S} {b : β}
    (he : Exec M ok (p >>= f) s b s') :
    ∃ a s₁, Exec M ok p s a s₁ ∧ Exec M ok (f a) s₁ b s' := by
  induction p generalizing s with
  | ret a => exact ⟨a,s,.ret a s,he⟩
  | call op k ih =>
    cases he with
    | call hok hstep hrest =>
      obtain ⟨a,s₂,hp,hf⟩ := ih _ hrest
      exact ⟨a,s₂,.call hok hstep hp,hf⟩

/-- What a program does alone, its thread can do next to threads that wait meanwhile. -/
theorem Exec.run {start : Prog E α → Prop} {left : List (Prog E α)} {p : Prog E α} {s s' : S} {a : α}
    (he : Exec M ok p s a s') : ∃ tr, Run M start ok ⟨s,left ++ [p]⟩ tr ⟨s',left ++ [.ret a]⟩ := by
  induction he with
  | ret a s => exact ⟨[],.refl⟩
  | call hok hstep _ ih =>
    obtain ⟨tr,hrun⟩ := ih
    exact ⟨_,(Run.refl.act hok hstep).trans hrun⟩

theorem Run.then_exec {start : Prog E α → Prop} {P : Pool E S α} {tr : List (Event E S)} {s s' : S}
    {ts : List (Prog E α)} {p : Prog E α} {a : α} (h : Run M start ok P tr ⟨s,ts⟩) (hp : start p)
    (he : Exec M ok p s a s') : ∃ tr', Run M start ok P tr' ⟨s',ts ++ [.ret a]⟩ := by
  obtain ⟨tr',hrun⟩ : ∃ tr', Run M start ok ⟨s,ts ++ [p]⟩ tr' ⟨s',ts ++ [.ret a]⟩ := he.run
  exact ⟨_,(h.spawn hp).trans hrun⟩

/-- A program whose calls can take place whenever they are made returns. -/
theorem exists_exec {P : E.Op → Prop} {p : Prog E α} (hp : p.Makes P)
    (htotal : ∀ op, P op → ∀ s, ∃ c r s', M.step op c s = some (r,s')) (s : S) :
    ∃ a s', Exec M (fun _ _ => True) p s a s' := by
  induction p generalizing s with
  | ret a => exact ⟨a,s,.ret a s⟩
  | call op k ih =>
    obtain ⟨c,r,s₁,hs⟩ := htotal op hp.1 s
    obtain ⟨a,s',he⟩ := ih r (hp.2 r) s₁
    exact ⟨a,s',.call trivial hs he⟩

theorem Prog.makes_true (p : Prog E α) : p.Makes fun _ => True := by
  induction p with
  | ret a => trivial
  | call op k ih => exact ⟨trivial,ih⟩

/-- What every call keeps is there at the end. -/
theorem Exec.keeps {ok : S → E.Op → Prop} {I : S → Prop} {p : Prog E α} {s s' : S} {a : α}
    (he : Exec M ok p s a s')
    (hkeep : ∀ {s op c r s'}, ok s op → I s → M.step op c s = some (r,s') → I s')
    (hs : I s) : I s' := by
  induction he with
  | ret a s => exact hs
  | call hok hstep _ ih => exact ih (hkeep hok hs hstep)

/-- If a call that is not as asked spoils the state for good, then the calls of an execution
that ends well are all as asked. -/
theorem Exec.of_not_spoilt {ok asked : S → E.Op → Prop} {B : S → Prop} {p : Prog E α} {s s' : S}
    {a : α} (he : Exec M ok p s a s')
    (hspoil : ∀ {s op c r s'}, ok s op → ¬ asked s op → M.step op c s = some (r,s') → B s')
    (hkeep : ∀ {s op c r s'}, ok s op → B s → M.step op c s = some (r,s') → B s')
    (hend : ¬ B s') : Exec M asked p s a s' := by
  induction he with
  | ret a s => exact .ret a s
  | call hok hstep hrest ih =>
    refine .call ?_ hstep (ih hend)
    by_contra hasked
    exact hend (hrest.keeps hkeep (hspoil hok hasked hstep))

end FalconKV.AtomicCalls
