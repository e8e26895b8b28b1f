import FalconKV.AtomicCalls.Discipline

/-! # A component of a machine

Some calls of a machine are calls of one of its components, which has a machine of its own, and
the others leave this component alone. What is accounted for in the component is then accounted
for in the whole, whatever else the threads do.
-/
namespace FalconKV.AtomicCalls

variable {E F : Signature} {S T G α : Type}

structure Component (M : Machine F S) (N : Machine E T) where
  view : S → T
  part : (op : F.Op) → F.Res op → Option ((op : E.Op) × E.Res op)
  moves : ∀ {op c r s s' x}, M.step op c s = some (r,s') → part op r = some x →
    ∃ c', N.step x.1 c' (view s) = some (x.2,view s')
  keeps : ∀ {op c r s s'}, M.step op c s = some (r,s') → part op r = none → view s' = view s

namespace Component
variable {M : Machine F S} {N : Machine E T} (C : Component M N)

/-- The call of the component in an event. -/
def seen (e : Event F S) : Option (Event E T) :=
  (C.part e.op e.res).map fun x => ⟨e.thread,C.view e.before,x.1,x.2,C.view e.after⟩

def discipline (D : Discipline E G) [Zero G] : Discipline F G where
  guar := fun op r => ∀ x, C.part op r = some x → D.guar x.1 x.2
  rule := fun op r used made => match C.part op r with
    | some x => D.rule x.1 x.2 used made
    | none => used = 0 ∧ made = 0

variable {C} {tr : List (Event F S)} {e : Event F S}

theorem filterMap_seen_snoc : (tr ++ [e]).filterMap C.seen = tr.filterMap C.seen ++ (C.seen e).toList := by
  rw [List.filterMap_append]
  cases h : C.seen e <;> simp [h]

theorem seen_of_none {i : ℕ} {s s' : S} {op : F.Op} {r : F.Res op} (h : C.part op r = none) :
    C.seen ⟨i,s,op,r,s'⟩ = none := by
  rw [seen,h,Option.map_none]

theorem seen_of_some {i : ℕ} {s s' : S} {op : F.Op} {r : F.Res op} {x : (op : E.Op) × E.Res op}
    (h : C.part op r = some x) : C.seen ⟨i,s,op,r,s'⟩ = some ⟨i,C.view s,x.1,x.2,C.view s'⟩ := by
  rw [seen,h,Option.map_some]

variable [AddCommMonoid G] {D : Discipline E G} {ok : S → F.Op → Prop} {ok' : T → E.Op → Prop}
  {Inv : List (Event E T) → T → G → Prop}

/-- What is kept in the component is kept in the whole. -/
theorem lift_keeps (hk : Keeps N D ok' Inv)
    (hok : ∀ s op r x, ok s op → C.part op r = some x → ok' (C.view s) x.1) :
    Keeps M (C.discipline D) ok fun tr s g => Inv (tr.filterMap C.seen) (C.view s) g where
  guar := by
    intro tr s op c r s' total hinv hallowed hs x hx
    obtain ⟨c',hstep⟩ := C.moves hs hx
    exact hk.guar _ hinv (hok s op r x hallowed hx) hstep
  step := by
    intro tr i s op c r s' used made rest hinv hallowed hs hrule
    rw [filterMap_seen_snoc]
    cases hx : C.part op r with
    | none =>
      have hzero : used = 0 ∧ made = 0 := by simpa only [discipline, hx] using hrule
      obtain ⟨rfl,rfl⟩ := hzero
      rw [seen_of_none hx,C.keeps hs hx,Option.toList_none,List.append_nil]
      exact hinv
    | some x =>
      have hpart : D.rule x.1 x.2 used made := by simpa only [discipline, hx] using hrule
      obtain ⟨c',hstep⟩ := C.moves hs hx
      rw [seen_of_some hx,Option.toList_some]
      exact hk.step _ i hinv (hok s op r x hallowed hx) hstep hpart

/-- A program of the component, run in the whole. -/
theorem uses_inside {h : E.Op → F.Op} {answer : (op : E.Op) → F.Res (h op) → E.Res op}
    (hpart : ∀ op r, C.part (h op) r = some ⟨op,answer op r⟩) {f : (op : E.Op) → Prog F (E.Res op)}
    (hf : ∀ op, f op = Prog.perform (h op) >>= fun r => pure (answer op r)) {post : α → G → Prop}
    {p : Prog E α} {g : G} (hp : Uses D post p g) : Uses (C.discipline D) post (p.interp f) g := by
  apply uses_interp _ hp
  intro op g P hop
  rw [hf]
  intro r hguar
  obtain ⟨used,made,rest,hrule,hg,hP⟩ := hop (answer op r) (hguar _ (hpart op r))
  refine ⟨used,made,rest,?_,hg,hP⟩
  simpa only [discipline, hpart op r] using hrule

/-- A program that makes no call of the component. -/
theorem uses_outside {post : α → G → Prop} {p : Prog F α} {g : G}
    (hp : p.Makes fun op => ∀ r, C.part op r = none) (hpost : ∀ a, post a g) :
    Uses (C.discipline D) post p g := by
  have hidle : ∀ op r, (∀ r, C.part op r = none) → (C.discipline D).rule op r 0 0 := by
    intro op r hnone
    simp only [discipline, hnone r, and_self]
  apply uses_mono (uses_of_makes hp hidle)
  rintro a _ rfl
  exact hpost a

end Component

end FalconKV.AtomicCalls
