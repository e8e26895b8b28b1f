import Mathlib.Algebra.BigOperators.Group.List.Basic
import Mathlib.Algebra.Group.Prod
import Mathlib.Algebra.Order.Group.Multiset
import Mathlib.Algebra.Order.PUnit
import FalconKV.AtomicCalls.Machine

/-! # Accounting for what threads hold

Every thread privately holds an element of a commutative monoid, as a record of
what it has taken out of the shared state. A discipline says which part of it a
call uses up and what it makes, depending on the answer. A program follows the
discipline when it can pay for each of its calls, whatever else it holds: this is
checked once for a program, with no mention of the shared state. An invariant of
the shared state together with the sum of all that is held is then checked call by
call, and carries over to every run, alone or interleaved.
-/
namespace FalconKV.AtomicCalls

structure Discipline (E : Signature) (G : Type) where
  guar : (op : E.Op) → E.Res op → Prop
  rule : (op : E.Op) → E.Res op → G → G → Prop

variable {E F : Signature} {S G α β γ : Type} [AddCommMonoid G]

/-- The program, started with `g`, can pay for all its calls and ends in `post`. -/
def Uses (D : Discipline E G) (post : α → G → Prop) : Prog E α → G → Prop
  | .ret a, g => post a g
  | .call op k, g => ∀ r, D.guar op r → ∃ used made rest,
      D.rule op r used made ∧ g = used + rest ∧ Uses D post (k r) (made + rest)

variable {D : Discipline E G} {post : α → G → Prop}

@[simp] theorem uses_ret {a : α} {g : G} : Uses D post (.ret a) g ↔ post a g := Iff.rfl

/-- The rule for one call, with the part of the holdings it does not touch. -/
theorem uses_perform {op : E.Op} {k : E.Res op → Prog E α} {g : G}
    (h : ∀ r, D.guar op r → ∃ used made rest,
      D.rule op r used made ∧ g = used + rest ∧ Uses D post (k r) (made + rest)) :
    Uses D post (Prog.perform op >>= k) g := h

/-- A call that takes nothing and gives nothing. -/
theorem uses_idle {op : E.Op} {k : E.Res op → Prog E α} {g : G} (hrule : ∀ r, D.rule op r 0 0)
    (h : ∀ r, D.guar op r → Uses D post (k r) g) : Uses D post (Prog.perform op >>= k) g := by
  refine uses_perform fun r hr => ⟨0,0,g,hrule r,(zero_add g).symm,?_⟩
  rw [zero_add]
  exact h r hr

theorem uses_mono {post' : α → G → Prop} {p : Prog E α} {g : G} (h : Uses D post p g)
    (hp : ∀ a g', post a g' → post' a g') : Uses D post' p g := by
  induction p generalizing g with
  | ret a => exact hp a g h
  | call op k ih =>
    intro r hr
    obtain ⟨used,made,rest,hrule,hg,hk⟩ := h r hr
    exact ⟨used,made,rest,hrule,hg,ih r hk⟩

/-- A program none of whose calls takes or gives anything keeps what is held. -/
theorem uses_of_makes {P : E.Op → Prop} {p : Prog E α} {g : G} (hp : p.Makes P)
    (hrule : ∀ op r, P op → D.rule op r 0 0) : Uses D (fun _ g' => g' = g) p g := by
  induction p with
  | ret a => rfl
  | call op k ih =>
    intro r _
    refine ⟨0,0,g,hrule op r hp.1,(zero_add g).symm,?_⟩
    rw [zero_add]
    exact ih r (hp.2 r)

/-- If the calls that a program may make use nothing of a kind, and nothing of it is left when
the program returns, nothing of it is held. -/
theorem measure_eq_zero_of_makes {P : E.Op → Prop} {c : G → ℕ}
    (hadd : ∀ g g', c (g + g') = c g + c g')
    (hrule : ∀ op, P op → ∃ r, D.guar op r ∧ ∀ used made, D.rule op r used made → c used = 0)
    (hpost : ∀ a g, post a g → c g = 0) {p : Prog E α} {g : G} (hp : p.Makes P)
    (h : Uses D post p g) : c g = 0 := by
  induction p generalizing g with
  | ret a => exact hpost a g h
  | call op k ih =>
    obtain ⟨r,hr,hused⟩ := hrule op hp.1
    obtain ⟨used,made,rest,hu,rfl,hk⟩ := h r hr
    have hrest := ih r (hp.2 r) hk
    rw [hadd] at hrest
    rw [hadd, hused used made hu]
    omega

/-- What a discipline says of every single call, without the holdings. -/
theorem uses_forget {D' : Discipline E Unit} (hguar : ∀ op r, D'.guar op r → D.guar op r)
    (hrule : ∀ op r used made, D.rule op r used made → D'.rule op r () ()) {p : Prog E α} {g : G}
    (h : Uses D post p g) : Uses D' (fun _ _ => True) p () := by
  induction p generalizing g with
  | ret a => trivial
  | call op k ih =>
    intro r hr
    obtain ⟨used,made,rest,hu,-,hk⟩ := h r (hguar op r hr)
    exact ⟨(),(),(),hrule op r used made hu,rfl,ih r hk⟩

theorem uses_bind {p : Prog E α} {f : α → Prog E β} {post : β → G → Prop} {g : G}
    (h : Uses D (fun a g' => Uses D post (f a) g') p g) : Uses D post (p >>= f) g := by
  induction p generalizing g with
  | ret a => exact h
  | call op k ih =>
    intro r hr
    obtain ⟨used,made,rest,hrule,hg,hk⟩ := h r hr
    exact ⟨used,made,rest,hrule,hg,ih r hk⟩

/-- What is held besides what a program needs is still held when it returns. -/
theorem uses_frame {p : Prog E α} {g : G} (f : G) (h : Uses D post p g) :
    Uses D (fun a g' => ∃ g₁, post a g₁ ∧ g' = g₁ + f) p (g + f) := by
  induction p generalizing g with
  | ret a => exact ⟨g,h,rfl⟩
  | call op k ih =>
    intro r hr
    obtain ⟨used,made,rest,hrule,rfl,hk⟩ := h r hr
    refine ⟨used,made,rest + f,hrule,add_assoc used rest f,?_⟩
    rw [← add_assoc]
    exact ih r hk

theorem uses_frame_of {p : Prog E α} {g g' rest : G} (hg : g = g' + rest) (h : Uses D post p g') :
    Uses D (fun a g₂ => ∃ g₁, post a g₁ ∧ g₂ = g₁ + rest) p g := by
  rw [hg]
  exact uses_frame rest h

/-- Run `p` on a part of the holdings and go on with what it leaves. -/
theorem uses_bind_frame {p : Prog E α} {f : α → Prog E β} {post' : β → G → Prop} {g g' rest : G}
    (hg : g = g' + rest) (h : Uses D post p g')
    (hf : ∀ a g₁, post a g₁ → Uses D post' (f a) (g₁ + rest)) : Uses D post' (p >>= f) g := by
  subst hg
  refine uses_bind (uses_mono (uses_frame rest h) ?_)
  rintro a _ ⟨g₁,ha,rfl⟩
  exact hf a g₁ ha

/-- A program whose part of the interface never touches the holdings keeps them. -/
theorem uses_bind_keep {p : Prog E α} {f : α → Prog E β} {post' : β → G → Prop} {g : G}
    (h : Uses D (fun _ g' => g' = 0) p 0) (hf : ∀ a, Uses D post' (f a) g) :
    Uses D post' (p >>= f) g := by
  refine uses_bind_frame (zero_add g).symm h ?_
  rintro a _ rfl
  simpa using hf a

inductive Split (R : γ → G → Prop) : List γ → G → Prop
  | nil : Split R [] 0
  | cons {x : γ} {xs : List γ} {g g' : G} (hx : R x g) (hxs : Split R xs g') :
      Split R (x :: xs) (g + g')

theorem Split.mono {R R' : γ → G → Prop} {xs : List γ} {g : G} (h : Split R xs g)
    (hR : ∀ x ∈ xs, ∀ g, R x g → R' x g) : Split R' xs g := by
  induction h with
  | nil => exact .nil
  | cons hx _ ih => exact .cons (hR _ (by simp) _ hx) (ih fun y hy => hR y (by simp [hy]))

theorem Split.map {R : γ → G → Prop} {f : β → γ} {xs : List β} {g : G} :
    Split R (xs.map f) g ↔ Split (fun x g => R (f x) g) xs g := by
  constructor
  · intro h
    induction xs generalizing g with
    | nil => cases h; exact .nil
    | cons x xs ih =>
      cases h with
      | cons hx hxs => exact .cons hx (ih hxs)
  · intro h
    induction h with
    | nil => exact .nil
    | cons hx _ ih => exact .cons hx ih

/-- Shares that do not depend on the second components. -/
theorem Split.of_zip {R : γ → G → Prop} {xs : List γ} {ys : List β} {g : G}
    (hl : ys.length = xs.length) (h : Split (fun y g => R y.1 g) (xs.zip ys) g) : Split R xs g := by
  have hz : (xs.zip ys).map Prod.fst = xs := List.map_fst_zip (Nat.le_of_eq hl.symm)
  rw [← hz]
  exact Split.map.mpr h

/-- Only the chosen elements have a share. -/
theorem Split.filter {R : γ → G → Prop} {p : γ → Bool} {xs : List γ} {g : G}
    (h : Split (fun x g => if p x then R x g else g = 0) xs g) : Split R (xs.filter p) g := by
  induction h with
  | nil => exact .nil
  | @cons x xs g g' hx _ ih =>
    by_cases hp : p x
    · rw [List.filter_cons_of_pos hp]
      rw [if_pos hp] at hx
      exact .cons hx ih
    · rw [List.filter_cons_of_neg hp]
      rw [if_neg hp] at hx
      rwa [hx, zero_add]

theorem split_zero {R : γ → G → Prop} {xs : List γ} (h : ∀ x ∈ xs, R x 0) : Split R xs 0 := by
  induction xs with
  | nil => exact .nil
  | cons x xs ih =>
    rw [← add_zero (0 : G)]
    exact .cons (h x (by simp)) (ih fun y hy => h y (by simp [hy]))

theorem Split.eq_zero {xs : List γ} {g : G} (h : Split (fun _ g => g = 0) xs g) : g = 0 := by
  induction h with
  | nil => rfl
  | cons hx _ ih => rw [hx, ih, add_zero]

theorem Split.eq_sum {share : γ → G} {xs : List γ} {g : G}
    (h : Split (fun x g => g = share x) xs g) : g = (xs.map share).sum := by
  induction h with
  | nil => rfl
  | cons hx _ ih => rw [hx, ih, List.map_cons, List.sum_cons]

/-- One token for each element of a list. -/
theorem split_singletons {τ : Type} (f : γ → τ) (xs : List γ) :
    Split (fun x g => g = {f x}) xs (xs.map f : Multiset τ) := by
  induction xs with
  | nil => exact .nil
  | cons x xs ih =>
    rw [List.map_cons, ← Multiset.cons_coe, ← Multiset.singleton_add]
    exact .cons rfl ih

/-- The tokens of a multiset, sorted by the class of their elements. -/
theorem split_filter {ι τ : Type} [DecidableEq ι] (c : γ → ι) (f : γ → τ) (s : Multiset γ)
    {classes : List ι} (hn : classes.Nodup) :
    Split (fun i g => g = (s.filter fun x => c x = i).map f) classes
      ((s.filter fun x => c x ∈ classes).map f) := by
  induction classes with
  | nil => simpa using Split.nil
  | cons i classes ih =>
    obtain ⟨hi,hn⟩ := List.nodup_cons.mp hn
    have hapart : (s.filter fun x => c x = i ∧ c x ∈ classes) = 0 := by
      refine Multiset.filter_eq_nil.mpr ?_
      rintro x - ⟨rfl,hmem⟩
      exact hi hmem
    have hsplit : (s.filter fun x => c x ∈ i :: classes) =
        (s.filter fun x => c x = i) + s.filter fun x => c x ∈ classes := by
      rw [Multiset.filter_add_filter, hapart, add_zero]
      simp only [List.mem_cons]
    rw [hsplit, Multiset.map_add]
    exact .cons rfl (ih hn)

/-- The same for classes that are numbers below a bound. -/
theorem split_classes {τ : Type} {n : ℕ} (c : γ → ℕ) (f : γ → τ) (s : Multiset γ)
    (hc : ∀ x, c x < n) : Split (fun i g => g = (s.filter fun x => c x = i).map f) (List.range n)
      (s.map f) := by
  have h := split_filter c f s (List.nodup_range (n := n))
  have hall : (s.filter fun x => c x ∈ List.range n) = s :=
    Multiset.filter_eq_self.mpr fun x _ => List.mem_range.mpr (hc x)
  rwa [hall] at h

/-- A loop that pays for each round out of the share of its element. -/
theorem uses_forEach {f : γ → Prog E Unit} {xs : List γ} {g : G}
    (h : Split (fun x g => Uses D (fun _ g' => g' = 0) (f x) g) xs g) :
    Uses D (fun _ g' => g' = 0) (Prog.forEach f xs) g := by
  induction h with
  | nil => exact rfl
  | cons hx _ ih =>
    refine uses_bind_frame rfl hx ?_
    rintro _ _ rfl
    rw [zero_add]
    exact ih

/-- A loop that gets a share in each round. -/
theorem uses_forEach_makes {R : γ → G → Prop} {f : γ → Prog E Unit} {xs : List γ} {g : G}
    (hs : Split R xs g)
    (hf : ∀ x share, R x share → Uses D (fun _ g' => g' = share) (f x) 0) :
    Uses D (fun _ g' => g' = g) (Prog.forEach f xs) 0 := by
  induction hs with
  | nil => exact rfl
  | @cons x xs share g hx _ ih =>
    refine uses_bind (uses_mono (hf x share hx) ?_)
    intro _ g₁ hg₁
    have hrest := uses_frame share ih
    rw [hg₁, ← zero_add share]
    refine uses_mono hrest ?_
    rintro _ _ ⟨_,rfl,rfl⟩
    rw [zero_add, add_comm]

/-- A loop whose rounds answer and leave a share each. -/
theorem uses_mapEach {f : γ → Prog E β} {Q : γ × β → G → Prop} {xs : List γ} {g : G}
    (h : Split (fun x g => Uses D (fun y g' => Q (x,y) g') (f x) g) xs g) :
    Uses D (fun ys g' => ys.length = xs.length ∧ Split Q (xs.zip ys) g') (Prog.mapEach f xs) g := by
  induction h with
  | nil => exact ⟨rfl,.nil⟩
  | cons hx _ ih =>
    refine uses_bind_frame rfl hx fun y g₁ hy => ?_
    refine uses_bind_frame (add_comm g₁ _) ih fun ys g₂ hys => ?_
    rw [add_comm g₂]
    exact ⟨congrArg (· + 1) hys.1,.cons hy hys.2⟩

/-- If the implementation of every call follows the discipline of the call, the
translation of a program that follows the one discipline follows the other. -/
theorem uses_interp {D' : Discipline F G} {h : (op : E.Op) → Prog F (E.Res op)}
    (hop : ∀ (op : E.Op) (g : G) (P : E.Res op → G → Prop),
      (∀ r, D.guar op r → ∃ used made rest,
        D.rule op r used made ∧ g = used + rest ∧ P r (made + rest)) → Uses D' P (h op) g)
    {p : Prog E α} {g : G} (hp : Uses D post p g) : Uses D' post (p.interp h) g := by
  induction p generalizing g with
  | ret a => exact hp
  | call op k ih =>
    refine uses_bind (hop op g _ ?_)
    intro r hr
    obtain ⟨used,made,rest,hrule,hg,hk⟩ := hp r hr
    exact ⟨used,made,rest,hrule,hg,ih r hk⟩

/-- The same if the second discipline keeps the holdings of the first one in a place of its own. -/
theorem uses_interp_along {H : Type} [AddCommMonoid H] {D' : Discipline F H} (φ : G →+ H)
    {h : (op : E.Op) → Prog F (E.Res op)}
    (hop : ∀ (op : E.Op) (g : G) (P : E.Res op → H → Prop),
      (∀ r, D.guar op r → ∃ used made rest,
        D.rule op r used made ∧ g = used + rest ∧ P r (φ (made + rest))) → Uses D' P (h op) (φ g))
    {p : Prog E α} {g : G} (hp : Uses D post p g) :
    Uses D' (fun a g' => ∃ g₁, post a g₁ ∧ g' = φ g₁) (p.interp h) (φ g) := by
  induction p generalizing g with
  | ret a => exact ⟨g,hp,rfl⟩
  | call op k ih =>
    refine uses_bind (hop op g _ ?_)
    intro r hr
    obtain ⟨used,made,rest,hrule,hg,hk⟩ := hp r hr
    exact ⟨used,made,rest,hrule,hg,ih r hk⟩

def Discipline.prod {G' : Type} (D : Discipline E G) (D' : Discipline E G') :
    Discipline E (G × G') where
  guar := fun op r => D.guar op r ∧ D'.guar op r
  rule := fun op r used made => D.rule op r used.1 made.1 ∧ D'.rule op r used.2 made.2

theorem uses_prod {G' : Type} [AddCommMonoid G'] {D' : Discipline E G'} {post' : α → G' → Prop}
    {p : Prog E α} {g : G} {g' : G'} (h : Uses D post p g) (h' : Uses D' post' p g') :
    Uses (D.prod D') (fun a x => post a x.1 ∧ post' a x.2) p (g,g') := by
  induction p generalizing g g' with
  | ret a => exact ⟨h,h'⟩
  | call op k ih =>
    rintro r ⟨hr,hr'⟩
    obtain ⟨used,made,rest,hrule,rfl,hk⟩ := h r hr
    obtain ⟨used',made',rest',hrule',rfl,hk'⟩ := h' r hr'
    exact ⟨(used,used'),(made,made'),(rest,rest'),⟨hrule,hrule'⟩,rfl,ih r hk hk'⟩

structure Keeps (M : Machine E S) (D : Discipline E G) (ok : S → E.Op → Prop)
    (Inv : List (Event E S) → S → G → Prop) : Prop where
  guar : ∀ tr {s op c r s' total}, Inv tr s total → ok s op → M.step op c s = some (r,s') →
    D.guar op r
  step : ∀ tr (i : ℕ) {s op c r s' used made rest}, Inv tr s (used + rest) → ok s op →
    M.step op c s = some (r,s') → D.rule op r used made → Inv (tr ++ [⟨i,s,op,r,s'⟩]) s' (made + rest)

variable {M : Machine E S} {ok : S → E.Op → Prop} {Inv : List (Event E S) → S → G → Prop}

theorem forall₂_split {R : α → β → Prop} {left right : List α} {x : α} {ys : List β}
    (h : List.Forall₂ R (left ++ x :: right) ys) : ∃ ls y rs, ys = ls ++ y :: rs ∧
      List.Forall₂ R left ls ∧ R x y ∧ List.Forall₂ R right rs := by
  induction left generalizing ys with
  | nil =>
    cases h with
    | cons hx hr => exact ⟨[],_,_,rfl,.nil,hx,hr⟩
  | cons a left ih =>
    cases h with
    | cons ha h =>
      obtain ⟨ls,y,rs,rfl,hl,hx,hr⟩ := ih h
      exact ⟨_ :: ls,y,rs,rfl,.cons ha hl,hx,hr⟩

/-- In every pool that a run reaches, the threads hold shares with which they can go
on, and the invariant holds of the shared state and the sum of the shares. -/
theorem Run.shares {start : Prog E α → Prop} (hk : Keeps M D ok Inv)
    (hstart : ∀ p, start p → Uses D post p 0) {P Q : Pool E S α} {tr : List (Event E S)}
    (hP : ∃ gs, List.Forall₂ (Uses D post) P.threads gs ∧ Inv [] P.state gs.sum)
    (hr : Run M start ok P tr Q) :
    ∃ gs, List.Forall₂ (Uses D post) Q.threads gs ∧ Inv tr Q.state gs.sum := by
  induction hr with
  | refl => exact hP
  | spawn _ hp ih =>
    obtain ⟨gs,hgs,hinv⟩ := ih
    exact ⟨gs ++ [0],List.rel_append hgs (.cons (hstart _ hp) .nil),by simpa using hinv⟩
  | @act tr s s' left right op k c r _ hok hstep ih =>
    obtain ⟨gs,hgs,hinv⟩ := ih
    obtain ⟨ls,g,rs,rfl,hl,hg,hr⟩ := forall₂_split hgs
    have hguar := hk.guar tr hinv hok hstep
    obtain ⟨used,made,rest,hrule,rfl,hu⟩ := hg r hguar
    have hsum : ∀ x : G, (ls ++ (x + rest) :: rs).sum = x + (rest + ls.sum + rs.sum) := by
      intro x
      simp only [List.sum_append, List.sum_cons]
      rw [add_left_comm, add_assoc, add_assoc]
    refine ⟨ls ++ (made + rest) :: rs,List.rel_append hl (.cons hu hr),?_⟩
    rw [hsum] at hinv ⊢
    exact hk.step tr left.length hinv hok hstep hrule

/-- What a call of a run took and gave, and the invariant before it. -/
theorem Run.charged {start : Prog E α → Prop} (hk : Keeps M D ok Inv)
    (hstart : ∀ p, start p → Uses D post p 0) {P Q : Pool E S α} {tr tr₁ tr₂ : List (Event E S)}
    {e : Event E S} (hP : ∃ gs, List.Forall₂ (Uses D post) P.threads gs ∧ Inv [] P.state gs.sum)
    (hr : Run M start ok P tr Q) (htr : tr = tr₁ ++ e :: tr₂) :
    ∃ used made rest, D.rule e.op e.res used made ∧ Inv tr₁ e.before (used + rest) := by
  induction hr generalizing tr₂ with
  | refl => cases tr₁ <;> cases htr
  | spawn _ _ ih => exact ih htr
  | @act tr s s' left right op k c r hrun hok hs ih =>
    rcases List.eq_nil_or_concat tr₂ with rfl | ⟨tr₂,e',rfl⟩
    · obtain ⟨rfl,he⟩ := List.append_inj' htr rfl
      cases he
      obtain ⟨gs,hgs,hinv⟩ := hrun.shares hk hstart hP
      obtain ⟨ls,g,rs,rfl,-,hg,-⟩ := forall₂_split hgs
      obtain ⟨used,made,rest,hrule,rfl,-⟩ := hg r (hk.guar _ hinv hok hs)
      refine ⟨used,made,rest + ls.sum + rs.sum,hrule,?_⟩
      have hsum : (ls ++ (used + rest) :: rs).sum = used + (rest + ls.sum + rs.sum) := by
        simp only [List.sum_append, List.sum_cons]
        rw [add_left_comm, add_assoc, add_assoc]
      rw [← hsum]
      exact hinv
    · rw [List.concat_eq_append, ← List.cons_append, ← List.append_assoc] at htr
      exact ih (List.append_inj' htr rfl).1

/-- What the postcondition says of every share, and sums keep, holds of the sum of the
shares when all threads have returned. -/
theorem Pool.Returned.sum {P : Pool E S α} (hret : P.Returned) {gs : List G}
    (h : List.Forall₂ (Uses D post) P.threads gs) {Q : G → Prop} (hzero : Q 0)
    (hadd : ∀ g g', Q g → Q g' → Q (g + g')) (hpost : ∀ a g, post a g → Q g) : Q gs.sum := by
  have hthreads : ∀ p ∈ P.threads, ∃ a, p = .ret a := fun p hp => hret.ret hp
  generalize P.threads = ts at h hthreads
  induction h with
  | nil => exact hzero
  | cons hp _ ih =>
    obtain ⟨a,rfl⟩ := hthreads _ List.mem_cons_self
    rw [List.sum_cons]
    exact hadd _ _ (hpost a _ hp) (ih fun q hq => hthreads q (List.mem_cons_of_mem _ hq))

theorem Pool.Returned.sum_eq_zero {P : Pool E S α} (hret : P.Returned) {gs : List G}
    (h : List.Forall₂ (Uses D fun _ g => g = 0) P.threads gs) : gs.sum = 0 :=
  hret.sum h (Q := fun g => g = 0) rfl (fun g g' hg hg' => by rw [hg, hg', add_zero])
    fun _ _ hg => hg

/-- The share of a thread that has returned. -/
theorem exists_share {P : Pool E S α} {gs : List G} (h : List.Forall₂ (Uses D post) P.threads gs)
    {a : α} (ha : some a ∈ P.replies) : ∃ g rest, post a g ∧ gs.sum = g + rest := by
  obtain ⟨p,hp,hpa⟩ := List.mem_map.mp ha
  obtain rfl := Prog.value_eq_some.mp hpa
  obtain ⟨left,right,hsplit⟩ := List.append_of_mem hp
  rw [hsplit] at h
  obtain ⟨ls,g,rs,rfl,-,hg,-⟩ := forall₂_split h
  refine ⟨g,ls.sum + rs.sum,hg,?_⟩
  rw [List.sum_append, List.sum_cons, add_left_comm]

/-- The part of the holdings that goes into a call that is made next. -/
theorem exists_used {P : Pool E S α} {gs : List G} (h : List.Forall₂ (Uses D post) P.threads gs)
    {op : E.Op} (hop : op ∈ P.pending) {r : E.Res op} (hr : D.guar op r) :
    ∃ used made rest, D.rule op r used made ∧ gs.sum = used + rest := by
  obtain ⟨p,hp,hnext⟩ := List.mem_filterMap.mp hop
  obtain ⟨k,rfl⟩ := Prog.next_eq_some.mp hnext
  obtain ⟨left,right,hsplit⟩ := List.append_of_mem hp
  rw [hsplit] at h
  obtain ⟨ls,g,rs,rfl,-,hg,-⟩ := forall₂_split h
  obtain ⟨used,made,rest,hrule,rfl,-⟩ := hg r hr
  refine ⟨used,made,rest + (ls.sum + rs.sum),hrule,?_⟩
  rw [List.sum_append, List.sum_cons, add_left_comm, add_assoc]

/-- The same for a program that runs alone. -/
theorem exec_uses {Inv : S → G → Prop} (hk : Keeps M D ok fun _ => Inv) {p : Prog E α} {s s' : S}
    {a : α} {g : G} (hp : Uses D post p g) (hinv : Inv s g) (he : Exec M ok p s a s') :
    ∃ g', post a g' ∧ Inv s' g' := by
  induction he generalizing g with
  | ret a s => exact ⟨g,hp,hinv⟩
  | call hok hstep _ ih =>
    obtain ⟨used,made,others,hrule,rfl,hu⟩ := hp _ (hk.guar [] hinv hok hstep)
    exact ih hu (hk.step [] 0 hinv hok hstep hrule)

/-- What the invariant and the discipline say of every call, every execution makes true. -/
theorem exec_safe {Inv : S → G → Prop} (hk : Keeps M D ok fun _ => Inv) {safe : S → E.Op → Prop}
    (hsafe : ∀ {s op r used made rest}, Inv s (used + rest) → ok s op → D.rule op r used made →
      safe s op)
    {p : Prog E α} {s s' : S} {a : α} {g : G} (hp : Uses D post p g) (hinv : Inv s g)
    (he : Exec M ok p s a s') : Exec M safe p s a s' := by
  induction he generalizing g with
  | ret a s => exact .ret a s
  | call hok hstep _ ih =>
    obtain ⟨used,made,others,hrule,rfl,hu⟩ := hp _ (hk.guar [] hinv hok hstep)
    exact .call (hsafe hinv hok hrule) hstep (ih hu (hk.step [] 0 hinv hok hstep hrule))

end FalconKV.AtomicCalls
