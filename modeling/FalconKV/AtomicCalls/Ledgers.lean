import Mathlib.Algebra.BigOperators.Group.Finset.Piecewise
import FalconKV.AtomicCalls.Machine

/-! # What one thread of a run does

Any thread may make the next call of a run, but the calls of one thread are a path through
its own program. A thread may keep a private ledger that no call reads: what must stand in
it before a call and what stands in it afterwards depends on the call and its answer only.
That a program keeps its ledger is checked once for the program, with no mention of the
shared state, and is then true of its thread in every run.
-/
namespace FalconKV.AtomicCalls

variable {E : Signature} {S α β γ L : Type} {M : Machine E S} {start : Prog E α → Prop}
  {ok : S → E.Op → Prop}

structure Answered (E : Signature) where
  op : E.Op
  res : E.Res op

def Event.answered (e : Event E S) : Answered E := ⟨e.op,e.res⟩

/-- The calls of thread `i`, in the order in which it made them. -/
def callsOf (i : ℕ) (tr : List (Event E S)) : List (Answered E) :=
  (tr.filter fun e => e.thread = i).map Event.answered

@[simp] theorem callsOf_nil (i : ℕ) : callsOf i ([] : List (Event E S)) = [] := rfl

theorem callsOf_append (i : ℕ) (tr tr' : List (Event E S)) :
    callsOf i (tr ++ tr') = callsOf i tr ++ callsOf i tr' := by
  simp only [callsOf, List.filter_append, List.map_append]

theorem callsOf_snoc_self (tr : List (Event E S)) (e : Event E S) :
    callsOf e.thread (tr ++ [e]) = callsOf e.thread tr ++ [e.answered] := by
  rw [callsOf_append]
  simp [callsOf]

theorem callsOf_snoc_of_ne {i : ℕ} (tr : List (Event E S)) {e : Event E S} (h : e.thread ≠ i) :
    callsOf i (tr ++ [e]) = callsOf i tr := by
  rw [callsOf_append]
  simp [callsOf, h]

theorem mem_callsOf {i : ℕ} {tr : List (Event E S)} {c : Answered E} :
    c ∈ callsOf i tr ↔ ∃ e ∈ tr, e.thread = i ∧ e.answered = c := by
  simp [callsOf, and_assoc]

/-- What is noted of the calls of a thread is part of what is noted of all calls. -/
theorem callsOf_flatMap_sublist {A : Type} (i : ℕ) (tr : List (Event E S)) (f : Answered E → List A) :
    ((callsOf i tr).flatMap f).Sublist (tr.flatMap fun e => f e.answered) := by
  induction tr with
  | nil => exact .slnil
  | cons e tr ih =>
    by_cases he : e.thread = i
    · have hcalls : callsOf i (e :: tr) = e.answered :: callsOf i tr := by simp [callsOf, he]
      rw [hcalls,List.flatMap_cons,List.flatMap_cons]
      exact (List.append_sublist_append_left _).mpr ih
    · have hcalls : callsOf i (e :: tr) = callsOf i tr := by simp [callsOf, he]
      rw [hcalls,List.flatMap_cons]
      exact ih.trans (List.sublist_append_right _ _)

/-- A thread that does not exist has made no call. -/
theorem callsOf_eq_nil {i n : ℕ} {tr : List (Event E S)} (h : ∀ e ∈ tr, e.thread < n) (hi : n ≤ i) :
    callsOf i tr = [] := by
  have hnone : (tr.filter fun e => e.thread = i) = [] := by
    apply List.filter_eq_nil_iff.mpr
    intro e he
    have hlt := h e he
    have hne : e.thread ≠ i := by omega
    simpa using hne
  rw [callsOf, hnone, List.map_nil]

/-- What the calls of a run add up to is the sum of what the threads add up to. -/
theorem sum_callsOf {G : Type} [AddCommMonoid G] (f : Answered E → G) {n : ℕ}
    {tr : List (Event E S)} (h : ∀ e ∈ tr, e.thread < n) :
    ∑ i ∈ Finset.range n, ((callsOf i tr).map f).sum = (tr.map fun e => f e.answered).sum := by
  induction tr with
  | nil => simp
  | cons e tr ih =>
    have hhead : ∀ i, ((callsOf i (e :: tr)).map f).sum =
        (if e.thread = i then f e.answered else 0) + ((callsOf i tr).map f).sum := by
      intro i
      by_cases hi : e.thread = i <;> simp [callsOf, hi]
    have hone : ∑ i ∈ Finset.range n, (if e.thread = i then f e.answered else 0) = f e.answered := by
      rw [Finset.sum_ite_eq, if_pos (Finset.mem_range.mpr (h e List.mem_cons_self))]
    have hrest := ih fun e' he' => h e' (List.mem_cons_of_mem e he')
    simp only [hhead, Finset.sum_add_distrib, hone, hrest, List.map_cons, List.sum_cons]

/-- What each call of a program keeps holds of the calls of every thread and of what is left
of its program. -/
theorem Run.locally {J : List (Answered E) → Prog E α → Prop} (hstart : ∀ p, start p → J [] p)
    (hstep : ∀ {calls s op k c r s'}, J calls (.call op k) → ok s op →
      M.step op c s = some (r,s') → J (calls ++ [⟨op,r⟩]) (k r))
    {s : S} {tr : List (Event E S)} {Q : Pool E S α} (h : Run M start ok ⟨s,[]⟩ tr Q) :
    (∀ e ∈ tr, e.thread < Q.threads.length) ∧
      ∀ i q, Q.threads[i]? = some q → J (callsOf i tr) q := by
  induction h with
  | refl => simp
  | @spawn tr s ts p _ hp ih =>
    obtain ⟨hlt,hJ⟩ := ih
    constructor
    · intro e he
      have hlt' := hlt e he
      simp only [List.length_append, List.length_singleton] at hlt' ⊢
      omega
    · intro i q hq
      rcases Nat.lt_or_ge i ts.length with hi | hi
      · rw [List.getElem?_append_left hi] at hq
        exact hJ i q hq
      · -- the new thread
        rw [List.getElem?_append_right hi] at hq
        have hmem : q ∈ [p] := List.mem_of_getElem? hq
        obtain rfl := List.mem_singleton.mp hmem
        rw [callsOf_eq_nil hlt hi]
        exact hstart q hp
  | @act tr s s' left right op k c r _ hok hs ih =>
    obtain ⟨hlt,hJ⟩ := ih
    constructor
    · intro e he
      simp only [List.length_append, List.length_cons] at hlt ⊢
      rcases List.mem_append.mp he with he | he
      · exact hlt e he
      · obtain rfl := List.mem_singleton.mp he
        dsimp only
        omega
    · intro i q hq
      by_cases hi : i = left.length
      · subst hi
        obtain rfl : k r = q := by simpa using hq
        rw [callsOf_snoc_self tr ⟨left.length,s,op,r,s'⟩]
        exact hstep (hJ left.length (.call op k) (by simp)) hok hs
      · rw [callsOf_snoc_of_ne tr (Ne.symm hi)]
        apply hJ i q
        rcases Nat.lt_or_gt_of_ne hi with hlo | hhi
        · rw [List.getElem?_append_left hlo] at hq ⊢
          exact hq
        · obtain ⟨j,rfl⟩ : ∃ j, i = left.length + (j + 1) := ⟨i - left.length - 1,by omega⟩
          rw [List.getElem?_append_right (by omega)] at hq ⊢
          simpa using hq

/-- Every call of a run is made by a thread that exists. -/
theorem Run.thread_lt {s : S} {tr : List (Event E S)} {Q : Pool E S α}
    (h : Run M start ok ⟨s,[]⟩ tr Q) : ∀ e ∈ tr, e.thread < Q.threads.length :=
  (h.locally (J := fun _ _ => True) (fun _ _ => trivial) fun _ _ _ => trivial).1

/-- An invariant of the shared state whose steps may use what holds of the thread that makes
the call. -/
theorem Run.invariant_locally {J : List (Answered E) → Prog E α → Prop}
    (hstart : ∀ p, start p → J [] p)
    (hlocal : ∀ {calls s op k c r s'}, J calls (.call op k) → ok s op →
      M.step op c s = some (r,s') → J (calls ++ [⟨op,r⟩]) (k r))
    {Inv : List (Event E S) → S → Prop} {s : S} (hs : Inv [] s)
    (hstep : ∀ tr (i : ℕ) {s op k c r s'}, Inv tr s → J (callsOf i tr) (.call op k) → ok s op →
      M.step op c s = some (r,s') → Inv (tr ++ [⟨i,s,op,r,s'⟩]) s')
    {tr : List (Event E S)} {Q : Pool E S α} (h : Run M start ok ⟨s,[]⟩ tr Q) : Inv tr Q.state := by
  induction h with
  | refl => exact hs
  | spawn _ _ ih => exact ih
  | @act tr s s' left right op k c r hrun hok hs ih =>
    have hthread : (left ++ .call op k :: right)[left.length]? = some (.call op k) := by simp
    exact hstep tr left.length ih ((hrun.locally hstart hlocal).2 _ _ hthread) hok hs

section
variable {note : (op : E.Op) → E.Res op → List ℕ} {next : S → ℕ}

def Counts (M : Machine E S) (ok : S → E.Op → Prop) (note : (op : E.Op) → E.Res op → List ℕ)
    (next : S → ℕ) : Prop :=
  ∀ {s op c r s'}, ok s op → M.step op c s = some (r,s') →
    (note op r = [] ∧ next s' = next s) ∨ (note op r = [next s] ∧ next s' = next s + 1)

theorem Run.nodup_notes (hcounts : Counts M ok note next) {P Q : Pool E S α}
    {tr : List (Event E S)} (h : Run M start ok P tr Q) :
    (tr.flatMap fun e => note e.op e.res).Nodup ∧
      ∀ x ∈ tr.flatMap fun e => note e.op e.res, x < next Q.state := by
  apply Run.invariant (fun tr s => (tr.flatMap fun e => note e.op e.res).Nodup ∧
    ∀ x ∈ tr.flatMap fun e => note e.op e.res, x < next s) ⟨.nil,by simp⟩ ?_ h
  rintro tr i s op c r s' ⟨hnodup,hlt⟩ hok hs
  rw [List.flatMap_append,List.flatMap_singleton]
  rcases hcounts hok hs with ⟨hnone,hnext⟩ | ⟨hnew,hnext⟩
  · rw [hnone,List.append_nil,hnext]
    exact ⟨hnodup,hlt⟩
  · rw [hnew,hnext]
    constructor
    · apply List.nodup_append'.mpr ⟨hnodup,List.nodup_singleton _,?_⟩
      intro x hx hx'
      obtain rfl := List.mem_singleton.mp hx'
      exact Nat.lt_irrefl _ (hlt _ hx)
    · intro x hx
      rcases List.mem_append.mp hx with hx | hx
      · exact Nat.lt_succ_of_lt (hlt x hx)
      · obtain rfl := List.mem_singleton.mp hx
        exact Nat.lt_succ_self _

/-- The numbers of one thread are different ones. -/
theorem Run.nodup_callsOf (hcounts : Counts M ok note next) {P Q : Pool E S α}
    {tr : List (Event E S)} (h : Run M start ok P tr Q) (i : ℕ) :
    ((callsOf i tr).flatMap fun a => note a.op a.res).Nodup :=
  (callsOf_flatMap_sublist i tr fun a => note a.op a.res).nodup (h.nodup_notes hcounts).1

/-- A number belongs to one thread. -/
theorem Run.note_unique (hcounts : Counts M ok note next) {P Q : Pool E S α}
    {tr : List (Event E S)} (h : Run M start ok P tr Q) {x i j : ℕ}
    (hi : x ∈ (callsOf i tr).flatMap fun a => note a.op a.res)
    (hj : x ∈ (callsOf j tr).flatMap fun a => note a.op a.res) : i = j := by
  have hevent : ∀ i, (x ∈ (callsOf i tr).flatMap fun a => note a.op a.res) →
      ∃ e ∈ tr, e.thread = i ∧ x ∈ note e.op e.res := by
    intro i hi
    obtain ⟨a,ha,hx⟩ := List.mem_flatMap.mp hi
    obtain ⟨e,he,hthread,rfl⟩ := mem_callsOf.mp ha
    exact ⟨e,he,hthread,hx⟩
  obtain ⟨e,he,rfl,hx⟩ := hevent i hi
  obtain ⟨e',he',rfl,hx'⟩ := hevent j hj
  by_contra hne
  have hnodup := (h.nodup_notes hcounts).1
  rw [List.nodup_flatMap] at hnodup
  have hapart : e ≠ e' := fun heq => hne (congrArg Event.thread heq)
  have hsymm : Std.Symm (Function.onFun List.Disjoint fun e : Event E S => note e.op e.res) :=
    ⟨fun _ _ hd => hd.symm⟩
  exact hnodup.2.forall he he' hapart hx hx'

end

structure Ledger (E : Signature) (L : Type) where
  guar : (op : E.Op) → E.Res op → Prop
  rule : (op : E.Op) → E.Res op → L → L → Prop

namespace Ledger
variable {D : Ledger E L} {post : α → L → Prop} {l l₀ : L}

inductive Entered (D : Ledger E L) (l₀ : L) : List (Answered E) → L → Prop
  | nil : Entered D l₀ [] l₀
  | snoc {calls : List (Answered E)} {op : E.Op} {r : E.Res op} {l l' : L}
      (h : Entered D l₀ calls l) (hguar : D.guar op r) (hrule : D.rule op r l l') :
      Entered D l₀ (calls ++ [⟨op,r⟩]) l'

/-- Every call of the program finds in the ledger what it must, and the program can only
return in `post`. -/
def Kept (D : Ledger E L) (post : α → L → Prop) : Prog E α → L → Prop
  | .ret a, l => post a l
  | .call op k, l => ∀ r, D.guar op r → ∃ l', D.rule op r l l' ∧ Kept D post (k r) l'

@[simp] theorem kept_ret {a : α} : D.Kept post (.ret a) l ↔ post a l := Iff.rfl

/-- The rule for one call and what comes after it. -/
theorem kept_perform {op : E.Op} {k : E.Res op → Prog E α}
    (h : ∀ r, D.guar op r → ∃ l', D.rule op r l l' ∧ D.Kept post (k r) l') :
    D.Kept post (Prog.perform op >>= k) l := h

/-- A call that leaves the ledger alone. -/
theorem kept_idle {op : E.Op} {k : E.Res op → Prog E α} (hrule : ∀ r, D.rule op r l l)
    (h : ∀ r, D.guar op r → D.Kept post (k r) l) : D.Kept post (Prog.perform op >>= k) l :=
  kept_perform fun r hr => ⟨l,hrule r,h r hr⟩

/-- A program all of whose calls leave the ledger alone. -/
theorem kept_of_makes {P : E.Op → Prop} {p : Prog E α} (hp : p.Makes P)
    (hrule : ∀ op r, P op → D.rule op r l l) : D.Kept (fun _ l' => l' = l) p l := by
  induction p with
  | ret a => rfl
  | call op k ih => exact fun r _ => ⟨l,hrule op r hp.1,ih r (hp.2 r)⟩

theorem kept_bind {p : Prog E α} {f : α → Prog E β} {post : β → L → Prop}
    (h : D.Kept (fun a l' => D.Kept post (f a) l') p l) : D.Kept post (p >>= f) l := by
  induction p generalizing l with
  | ret a => exact h
  | call op k ih =>
    intro r hr
    obtain ⟨l',hrule,hk⟩ := h r hr
    exact ⟨l',hrule,ih r hk⟩

theorem kept_mono {post' : α → L → Prop} {p : Prog E α} (h : D.Kept post p l)
    (hp : ∀ a l', post a l' → post' a l') : D.Kept post' p l := by
  induction p generalizing l with
  | ret a => exact hp a l h
  | call op k ih =>
    intro r hr
    obtain ⟨l',hrule,hk⟩ := h r hr
    exact ⟨l',hrule,ih r hk⟩

/-- If the implementation of every call keeps the ledger as the call does, so does the
translation of a program. -/
theorem kept_interp {F : Signature} {D' : Ledger F L} {h : (op : E.Op) → Prog F (E.Res op)}
    (hop : ∀ (op : E.Op) (l : L) (P : E.Res op → L → Prop),
      (∀ r, D.guar op r → ∃ l', D.rule op r l l' ∧ P r l') → D'.Kept P (h op) l)
    {p : Prog E α} (hp : D.Kept post p l) : D'.Kept post (p.interp h) l := by
  induction p generalizing l with
  | ret a => exact hp
  | call op k ih =>
    apply kept_bind
    apply hop
    intro r hr
    obtain ⟨l',hrule,hk⟩ := hp r hr
    exact ⟨l',hrule,ih r hk⟩

/-- Every thread of a run has a ledger that its calls lead to and that the rest of its
program keeps. -/
theorem run_kept (hguar : ∀ {s op c r s'}, ok s op → M.step op c s = some (r,s') → D.guar op r)
    (hstart : ∀ p, start p → D.Kept post p l₀) {s : S} {tr : List (Event E S)} {Q : Pool E S α}
    (h : Run M start ok ⟨s,[]⟩ tr Q) :
    ∀ i q, Q.threads[i]? = some q → ∃ l, D.Entered l₀ (callsOf i tr) l ∧ D.Kept post q l := by
  apply (h.locally (J := fun calls q => ∃ l, D.Entered l₀ calls l ∧ D.Kept post q l) ?_ ?_).2
  · intro p hp
    exact ⟨l₀,.nil,hstart p hp⟩
  · rintro calls s op k c r s' ⟨l,hl,hkept⟩ hok hs
    have hr := hguar hok hs
    obtain ⟨l',hrule,hk⟩ := hkept r hr
    exact ⟨l',hl.snoc hr hrule,hk⟩

/-- An invariant of the shared state whose steps may use the ledger of the thread. -/
theorem run_invariant (Inv : List (Event E S) → S → Prop)
    (hguar : ∀ {s op c r s'}, ok s op → M.step op c s = some (r,s') → D.guar op r)
    (hstart : ∀ p, start p → D.Kept post p l₀) {s : S} (hs : Inv [] s)
    (hstep : ∀ tr (i : ℕ) {l s op k c r s'}, Inv tr s → D.Entered l₀ (callsOf i tr) l →
      D.Kept post (.call op k) l → ok s op → M.step op c s = some (r,s') →
        Inv (tr ++ [⟨i,s,op,r,s'⟩]) s')
    {tr : List (Event E S)} {Q : Pool E S α} (h : Run M start ok ⟨s,[]⟩ tr Q) : Inv tr Q.state := by
  apply h.invariant_locally (J := fun calls q => ∃ l, D.Entered l₀ calls l ∧ D.Kept post q l)
    (fun p hp => ⟨l₀,.nil,hstart p hp⟩) ?_ hs
  · rintro tr i s op k c r s' hinv ⟨l,hl,hkept⟩ hok hstep'
    exact hstep tr i hinv hl hkept hok hstep'
  · rintro calls s op k c r s' ⟨l,hl,hkept⟩ hok hs
    have hr := hguar hok hs
    obtain ⟨l',hrule,hk⟩ := hkept r hr
    exact ⟨l',hl.snoc hr hrule,hk⟩

section
variable {A : Type} {guar : (op : E.Op) → E.Res op → Prop} {note : (op : E.Op) → E.Res op → List A}
  {post : α → List A → Prop} {notes : List A}

def noting (guar : (op : E.Op) → E.Res op → Prop) (note : (op : E.Op) → E.Res op → List A) :
    Ledger E (List A) where
  guar := guar
  rule := fun op r notes notes' => notes' = notes ++ note op r

/-- Every note is of one of the calls. -/
theorem exists_noted {calls : List (Answered E)} (h : (noting guar note).Entered [] calls notes)
    {x : A} (hx : x ∈ notes) : ∃ c ∈ calls, x ∈ note c.op c.res := by
  induction h with
  | nil => cases hx
  | snoc _ _ hrule ih =>
    obtain rfl := hrule
    rcases List.mem_append.mp hx with hold | hnew
    · obtain ⟨c,hc,hnoted⟩ := ih hold
      exact ⟨c,List.mem_append_left _ hc,hnoted⟩
    · exact ⟨_,List.mem_append_right _ (List.mem_singleton_self _),hnew⟩

theorem entered_noting {calls : List (Answered E)} (h : (noting guar note).Entered [] calls notes) :
    notes = calls.flatMap fun c => note c.op c.res := by
  induction h with
  | nil => rfl
  | snoc _ _ hrule ih =>
    subst ih
    rw [List.flatMap_append,List.flatMap_singleton]
    exact hrule

/-- What a thread of a run has noted is what the rest of its program goes on from. -/
theorem run_noting (hguar : ∀ {s op c r s'}, ok s op → M.step op c s = some (r,s') → guar op r)
    (hstart : ∀ p, start p → (noting guar note).Kept post p []) {s : S} {tr : List (Event E S)}
    {Q : Pool E S α} (h : Run M start ok ⟨s,[]⟩ tr Q) {i : ℕ} {q : Prog E α}
    (hi : Q.threads[i]? = some q) :
    (noting guar note).Kept post q ((callsOf i tr).flatMap fun c => note c.op c.res) := by
  obtain ⟨notes,hentered,hkept⟩ := run_kept hguar hstart h i q hi
  rwa [entered_noting hentered] at hkept

theorem kept_note {op : E.Op} {k : E.Res op → Prog E α}
    (h : ∀ r, guar op r → (noting guar note).Kept post (k r) (notes ++ note op r)) :
    (noting guar note).Kept post (Prog.perform op >>= k) notes :=
  kept_perform fun r hr => ⟨_,rfl,h r hr⟩

def demanding (need : E.Op → List A → Prop) (note : (op : E.Op) → E.Res op → List A) :
    Ledger E (List A) where
  guar := fun _ _ => True
  rule := fun op r notes notes' => need op notes ∧ notes' = notes ++ note op r

theorem entered_demanding {need : E.Op → List A → Prop} {calls : List (Answered E)}
    (h : (demanding need note).Entered [] calls notes) :
    notes = calls.flatMap fun c => note c.op c.res := by
  induction h with
  | nil => rfl
  | snoc _ _ hrule ih =>
    subst ih
    rw [List.flatMap_append,List.flatMap_singleton]
    exact hrule.2

/-- Before each call there were notes with what the call needs, and they are still there. -/
theorem exists_needed {need : E.Op → List A → Prop} {calls : List (Answered E)}
    (h : (demanding need note).Entered [] calls notes) {c : Answered E} (hc : c ∈ calls) :
    ∃ before, need c.op before ∧ before ⊆ notes := by
  induction h with
  | nil => cases hc
  | @snoc calls op r notes notes' _ _ hrule ih =>
    obtain ⟨hneed,rfl⟩ := hrule
    rcases List.mem_append.mp hc with hold | hnew
    · obtain ⟨before,hbefore,hsub⟩ := ih hold
      exact ⟨before,hbefore,List.Subset.trans hsub (List.subset_append_left _ _)⟩
    · obtain rfl := List.mem_singleton.mp hnew
      exact ⟨notes,hneed,List.subset_append_left _ _⟩

section
variable {need : E.Op → List A → Prop} (hstart : ∀ p, start p → (demanding need note).Kept post p [])
include hstart

theorem run_demanding {s : S} {tr : List (Event E S)} {Q : Pool E S α}
    (h : Run M start ok ⟨s,[]⟩ tr Q) {i : ℕ} {q : Prog E α} (hi : Q.threads[i]? = some q) :
    (demanding need note).Kept post q ((callsOf i tr).flatMap fun c => note c.op c.res) := by
  obtain ⟨notes,hentered,hkept⟩ := run_kept (fun _ _ => trivial) hstart h i q hi
  rwa [entered_demanding hentered] at hkept

/-- Every call of a run found what it needed in what its thread had noted. -/
theorem run_needed {s : S} {tr : List (Event E S)} {Q : Pool E S α}
    (h : Run M start ok ⟨s,[]⟩ tr Q) {i : ℕ} {q : Prog E α} (hi : Q.threads[i]? = some q)
    {c : Answered E} (hc : c ∈ callsOf i tr) :
    ∃ before, need c.op before ∧ before ⊆ (callsOf i tr).flatMap fun c => note c.op c.res := by
  obtain ⟨notes,hentered,-⟩ := run_kept (fun _ _ => trivial) hstart h i q hi
  have hneeded := exists_needed hentered hc
  rwa [entered_demanding hentered] at hneeded

/-- An invariant of the shared state whose steps may use what the call needs. -/
theorem run_invariant_demanding (Inv : List (Event E S) → S → Prop) {s : S} (hs : Inv [] s)
    (hstep : ∀ tr (i : ℕ) {s op c r s'}, Inv tr s →
      need op ((callsOf i tr).flatMap fun c => note c.op c.res) → ok s op →
      M.step op c s = some (r,s') → Inv (tr ++ [⟨i,s,op,r,s'⟩]) s')
    {tr : List (Event E S)} {Q : Pool E S α} (h : Run M start ok ⟨s,[]⟩ tr Q) : Inv tr Q.state := by
  apply run_invariant Inv (fun _ _ => trivial) hstart hs ?_ h
  intro tr i l s op k c r s' hinv hentered hkept hok hstep'
  obtain ⟨_,⟨hneed,-⟩,-⟩ := hkept r trivial
  rw [entered_demanding hentered] at hneed
  exact hstep tr i hinv hneed hok hstep'

end

theorem kept_demand {need : E.Op → List A → Prop} {op : E.Op} {k : E.Res op → Prog E α}
    (hneed : need op notes) (h : ∀ r, (demanding need note).Kept post (k r) (notes ++ note op r)) :
    (demanding need note).Kept post (Prog.perform op >>= k) notes :=
  kept_perform fun r _ => ⟨_,⟨hneed,rfl⟩,h r⟩

/-- Notes are not lost. -/
theorem kept_growing {D : Ledger E (List A)} (hD : ∀ {op r l l'}, D.rule op r l l' → l ⊆ l')
    {p : Prog E α} (h : D.Kept post p notes) :
    D.Kept (fun a notes' => notes ⊆ notes' ∧ post a notes') p notes := by
  induction p generalizing notes with
  | ret a => exact ⟨List.Subset.refl notes,h⟩
  | call op k ih =>
    intro r hr
    obtain ⟨notes₁,hrule,hk⟩ := h r hr
    refine ⟨notes₁,hrule,kept_mono (ih r hk) ?_⟩
    rintro a notes' ⟨hsub,hpost⟩
    exact ⟨List.Subset.trans (hD hrule) hsub,hpost⟩

theorem noting_grows {op : E.Op} {r : E.Res op} {notes' : List A}
    (h : (noting guar note).rule op r notes notes') : notes ⊆ notes' := by
  obtain rfl := h
  exact List.subset_append_left _ _

theorem demanding_grows {need : E.Op → List A → Prop} {op : E.Op} {r : E.Res op} {notes' : List A}
    (h : (demanding need note).rule op r notes notes') : notes ⊆ notes' := by
  obtain ⟨-,rfl⟩ := h
  exact List.subset_append_left _ _

theorem kept_grows {p : Prog E α} (h : (noting guar note).Kept post p notes) :
    (noting guar note).Kept (fun a notes' => notes ⊆ notes' ∧ post a notes') p notes :=
  kept_growing noting_grows h

/-- A program that makes only calls for which there is already what they need. -/
theorem kept_of_needs {need : E.Op → List A → Prop} {p : Prog E α}
    (hp : p.Makes fun op => ∀ notes', notes ⊆ notes' → need op notes') {notes' : List A}
    (hsub : notes ⊆ notes') : (demanding need note).Kept (fun _ notes' => notes ⊆ notes') p notes' := by
  induction p generalizing notes' with
  | ret a => exact hsub
  | call op k ih =>
    intro r _
    refine ⟨_,⟨hp.1 notes' hsub,rfl⟩,ih r (hp.2 r) ?_⟩
    exact List.Subset.trans hsub (List.subset_append_left _ _)

theorem kept_trivial (h : ∀ a notes, post a notes) (p : Prog E α) :
    (noting guar note).Kept post p notes := by
  induction p generalizing notes with
  | ret a => exact h a notes
  | call op k ih => exact fun r _ => ⟨_,rfl,ih r⟩

/-- Whatever the first program notes, the second one goes on from there. -/
theorem kept_then {p : Prog E β} {f : β → Prog E α}
    (h : ∀ b notes', (noting guar note).Kept post (f b) notes') :
    (noting guar note).Kept post (p >>= f) notes :=
  kept_bind (kept_trivial h p)

theorem exists_of_mem_right {R : α → β → Prop} {xs : List α} {ys : List β}
    (h : List.Forall₂ R xs ys) {y : β} (hy : y ∈ ys) : ∃ x ∈ xs, R x y := by
  induction h with
  | nil => cases hy
  | cons hxy _ ih =>
    rcases List.mem_cons.mp hy with rfl | hy
    · exact ⟨_,List.mem_cons_self,hxy⟩
    · obtain ⟨x,hx,hR⟩ := ih hy
      exact ⟨x,List.mem_cons_of_mem _ hx,hR⟩

/-- What the notes say of each round of a loop, if later notes do not take it back. -/
theorem kept_mapEach_growing {D : Ledger E (List A)} (hD : ∀ {op r l l'}, D.rule op r l l' → l ⊆ l')
    {f : γ → Prog E β} {Q : γ → β → List A → Prop} {xs : List γ} {notes₀ : List A}
    (hQ : ∀ x y {notes notes'}, Q x y notes → notes ⊆ notes' → Q x y notes')
    (hf : ∀ x ∈ xs, ∀ notes, notes₀ ⊆ notes → D.Kept (Q x) (f x) notes) (hsub : notes₀ ⊆ notes) :
    D.Kept (fun ys notes' => List.Forall₂ (fun x y => Q x y notes') xs ys) (Prog.mapEach f xs) notes := by
  induction xs generalizing notes with
  | nil => exact .nil
  | cons x xs ih =>
    obtain ⟨hx,hxs⟩ := List.forall_mem_cons.mp hf
    refine kept_bind (kept_mono (kept_growing hD (hx notes hsub)) ?_)
    rintro y notes₁ ⟨hsub₁,hy⟩
    refine kept_bind (kept_mono (kept_growing hD (ih hxs (List.Subset.trans hsub hsub₁))) ?_)
    rintro ys notes₂ ⟨hsub₂,hys⟩
    exact .cons (hQ x y hy hsub₂) hys

theorem kept_mapEach {f : γ → Prog E β} {Q : γ → β → List A → Prop} {xs : List γ}
    (hQ : ∀ x y {notes notes'}, Q x y notes → notes ⊆ notes' → Q x y notes')
    (hf : ∀ x ∈ xs, ∀ notes, (noting guar note).Kept (Q x) (f x) notes) (notes : List A) :
    (noting guar note).Kept (fun ys notes' => List.Forall₂ (fun x y => Q x y notes') xs ys)
      (Prog.mapEach f xs) notes :=
  kept_mapEach_growing noting_grows hQ (fun x hx notes _ => hf x hx notes) (List.nil_subset notes)

end

end Ledger

end FalconKV.AtomicCalls
