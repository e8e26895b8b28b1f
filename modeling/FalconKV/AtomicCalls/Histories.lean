import FalconKV.AtomicCalls.Ledgers

/-! # What a thread sees of a run

The history of a run is the list of its calls. A thread has its program for itself, but between
two of its calls there may be calls of all others. A program leads to a postcondition on histories
if it does so whatever the others do. Where the state is made of registers, the history says what
each of them contains, and the calls are the instants at which operations on it take effect.
-/
namespace FalconKV.AtomicCalls

variable {E : Signature} {S α β γ κ V : Type} {M : Machine E S} {start : Prog E α → Prop}
  {ok : S → E.Op → Prop} {tr tr' : List (Event E S)}

def Others (i : ℕ) (tr : List (Event E S)) : Prop := ∀ e ∈ tr, e.thread ≠ i

theorem others_nil (i : ℕ) : Others i ([] : List (Event E S)) := by simp [Others]

theorem Others.snoc {i : ℕ} {e : Event E S} (h : Others i tr) (he : e.thread ≠ i) :
    Others i (tr ++ [e]) := by
  intro e' he'
  rcases List.mem_append.mp he' with he' | he'
  · exact h e' he'
  · obtain rfl := List.mem_singleton.mp he'
    exact he

theorem Others.callsOf {i : ℕ} (h : Others i tr) : callsOf i tr = [] := by
  have hnone : (tr.filter fun e => e.thread = i) = [] := by
    apply List.filter_eq_nil_iff.mpr
    intro e he
    simpa using h e he
  rw [AtomicCalls.callsOf, hnone, List.map_nil]

/-- From the history `tr` on, thread `i` runs the program to an answer and a history that satisfy
`post`; `seen` is what is known of a call that comes after a history. -/
def Leads (seen : List (Event E S) → Event E S → Prop) (i : ℕ) (post : α → List (Event E S) → Prop) :
    Prog E α → List (Event E S) → Prop
  | .ret a, tr => post a tr
  | .call op k, tr => ∀ between s r s', Others i between → seen (tr ++ between) ⟨i,s,op,r,s'⟩ →
      Leads seen i post (k r) (tr ++ between ++ [⟨i,s,op,r,s'⟩])

section
variable {seen : List (Event E S) → Event E S → Prop} {i : ℕ} {post : α → List (Event E S) → Prop}

/-- The rule for one call and what comes after it. -/
theorem leads_perform {op : E.Op} {k : E.Res op → Prog E α}
    (h : ∀ between s r s', Others i between → seen (tr ++ between) ⟨i,s,op,r,s'⟩ →
      Leads seen i post (k r) (tr ++ between ++ [⟨i,s,op,r,s'⟩])) :
    Leads seen i post (Prog.perform op >>= k) tr := h

theorem leads_bind {p : Prog E α} {f : α → Prog E β} {post : β → List (Event E S) → Prop}
    (h : Leads seen i (fun a tr' => Leads seen i post (f a) tr') p tr) :
    Leads seen i post (p >>= f) tr := by
  induction p generalizing tr with
  | ret a => exact h
  | call op k ih =>
    intro between s r s' hothers hseen
    exact ih r (h between s r s' hothers hseen)

theorem leads_mono {post' : α → List (Event E S) → Prop} {p : Prog E α} (h : Leads seen i post p tr)
    (hp : ∀ a tr', post a tr' → post' a tr') : Leads seen i post' p tr := by
  induction p generalizing tr with
  | ret a => exact hp a tr h
  | call op k ih =>
    intro between s r s' hothers hseen
    exact ih r (h between s r s' hothers hseen)

/-- The history only grows. -/
theorem leads_grows {p : Prog E α} (h : Leads seen i post p tr) :
    Leads seen i (fun a tr' => tr <+: tr' ∧ post a tr') p tr := by
  induction p generalizing tr with
  | ret a => exact ⟨List.prefix_refl tr,h⟩
  | call op k ih =>
    intro between s r s' hothers hseen
    apply leads_mono (ih r (h between s r s' hothers hseen))
    rintro a tr' ⟨hpre,hpost⟩
    rw [List.append_assoc] at hpre
    exact ⟨(List.prefix_append _ _).trans hpre,hpost⟩

/-- A loop that keeps `A` and finds `Q` in each round, if a longer history does not take `Q` back. -/
theorem leads_mapEach {f : γ → Prog E β} {A : List (Event E S) → Prop}
    {Q : γ → β → List (Event E S) → Prop} {xs : List γ}
    (hQ : ∀ x y {tr tr'}, Q x y tr → tr <+: tr' → Q x y tr')
    (hf : ∀ x ∈ xs, ∀ tr, A tr → Leads seen i (fun y tr' => A tr' ∧ Q x y tr') (f x) tr) (hA : A tr) :
    Leads seen i (fun ys tr' => A tr' ∧ List.Forall₂ (fun x y => Q x y tr') xs ys)
      (Prog.mapEach f xs) tr := by
  induction xs generalizing tr with
  | nil => exact ⟨hA,.nil⟩
  | cons x xs ih =>
    obtain ⟨hx,hxs⟩ := List.forall_mem_cons.mp hf
    apply leads_bind
    apply leads_mono (hx tr hA)
    rintro y tr₁ ⟨hA₁,hy⟩
    apply leads_bind
    apply leads_mono (leads_grows (ih hxs hA₁))
    rintro ys tr₂ ⟨hpre,hA₂,hys⟩
    exact ⟨hA₂,.cons (hQ x y hy hpre) hys⟩

theorem getElem?_of_ne {left right : List α} {x y : α} {i : ℕ} (h : i ≠ left.length) :
    (left ++ x :: right)[i]? = (left ++ y :: right)[i]? := by
  rcases Nat.lt_or_gt_of_ne h with hlo | hhi
  · rw [List.getElem?_append_left hlo, List.getElem?_append_left hlo]
  · obtain ⟨j,rfl⟩ : ∃ j, i = left.length + (j + 1) := ⟨i - left.length - 1,by omega⟩
    rw [List.getElem?_append_right (by omega), List.getElem?_append_right (by omega)]
    simp

/-- In every run a thread is on the way on which its program leads. -/
theorem Run.leads {s : S} {Q : Pool E S α}
    (hseen : ∀ {tr e P}, Run M start ok ⟨s,[]⟩ (tr ++ [e]) P → seen tr e)
    (hstart : ∀ p tr, start p → Others i tr → Leads seen i post p tr) (h : Run M start ok ⟨s,[]⟩ tr Q)
    {q : Prog E α} (hq : Q.threads[i]? = some q) :
    ∃ tr₁ tr₂, tr = tr₁ ++ tr₂ ∧ Others i tr₂ ∧ Leads seen i post q tr₁ := by
  induction h generalizing q with
  | refl => simp at hq
  | @spawn tr s' ts p hrun hp ih =>
    rcases Nat.lt_or_ge i ts.length with hi | hi
    · rw [List.getElem?_append_left hi] at hq
      exact ih hq
    · -- the new thread
      rw [List.getElem?_append_right hi] at hq
      obtain rfl := List.mem_singleton.mp (List.mem_of_getElem? hq)
      have hothers : Others i tr := by
        intro e he
        have hlt := hrun.thread_lt e he
        dsimp only at hlt
        omega
      exact ⟨tr,[],(List.append_nil tr).symm,others_nil i,hstart _ tr hp hothers⟩
  | @act tr s' s'' left right op k c r hrun hok hs ih =>
    by_cases hi : i = left.length
    · subst hi
      obtain rfl : k r = q := by simpa using hq
      obtain ⟨tr₁,tr₂,rfl,hothers,hleads⟩ := ih (q := .call op k) (by simp)
      exact ⟨_,[],(List.append_nil _).symm,others_nil _,
        hleads tr₂ s' r s'' hothers (hseen (hrun.act hok hs))⟩
    · obtain ⟨tr₁,tr₂,rfl,hothers,hleads⟩ := ih ((getElem?_of_ne hi).trans hq)
      exact ⟨tr₁,_,List.append_assoc _ _ _,hothers.snoc (Ne.symm hi),hleads⟩

/-- A thread that has returned has come to its postcondition, and makes no call afterwards. -/
theorem Run.led {s : S} {Q : Pool E S α}
    (hseen : ∀ {tr e P}, Run M start ok ⟨s,[]⟩ (tr ++ [e]) P → seen tr e)
    (hstart : ∀ p tr, start p → Others i tr → Leads seen i post p tr) (h : Run M start ok ⟨s,[]⟩ tr Q)
    {a : α} (ha : Q.replies[i]? = some (some a)) :
    ∃ tr₁ tr₂, tr = tr₁ ++ tr₂ ∧ Others i tr₂ ∧ post a tr₁ := by
  obtain ⟨q,hq,hvalue⟩ : ∃ q, Q.threads[i]? = some q ∧ q.value = some a := by
    simpa [Pool.replies] using ha
  obtain rfl := Prog.value_eq_some.mp hvalue
  exact h.leads hseen hstart hq

end

/-- A run on which an invariant of the state holds before every call. -/
theorem Run.along {I : S → Prop} {P Q : Pool E S α} (hP : I P.state)
    (hstep : ∀ {s op c r s'}, I s → ok s op → M.step op c s = some (r,s') → I s')
    (h : Run M start ok P tr Q) : Run M start (fun s op => I s ∧ ok s op) P tr Q ∧ I Q.state := by
  induction h with
  | refl => exact ⟨.refl,hP⟩
  | spawn _ hp ih => exact ⟨ih.1.spawn hp,ih.2⟩
  | act _ hok hs ih => exact ⟨ih.1.act ⟨ih.2,hok⟩ hs,hstep ih.2 hok hs⟩

def register (act : E.Op → κ → V → V) (v : V) (k : κ) (tr : List (Event E S)) : V :=
  tr.foldl (fun v e => act e.op k v) v

section
variable {act : E.Op → κ → V → V} {v : V} {k : κ} {view : S → κ → V}

theorem register_append : register act v k (tr ++ tr') = register act (register act v k tr) k tr' :=
  List.foldl_append

theorem register_snoc {e : Event E S} :
    register act v k (tr ++ [e]) = act e.op k (register act v k tr) := by
  rw [register_append]
  rfl

theorem register_cons {e : Event E S} : register act v k (e :: tr) = register act (act e.op k v) k tr := rfl

def Registers (M : Machine E S) (ok : S → E.Op → Prop) (view : S → κ → V) (act : E.Op → κ → V → V) : Prop :=
  ∀ {s op c r s'}, ok s op → M.step op c s = some (r,s') → ∀ k, view s' k = act op k (view s k)

/-- The registers contain what the history has made of them. -/
theorem Run.register (hreg : Registers M ok view act) {P Q : Pool E S α} (h : Run M start ok P tr Q)
    (k : κ) : view Q.state k = AtomicCalls.register act (view P.state k) k tr := by
  apply h.invariant fun tr s => view s k = AtomicCalls.register act (view P.state k) k tr
  · rfl
  · intro tr i s op c r s' hview hok hs
    rw [register_snoc, hreg hok hs k, hview]

theorem Run.register_before (hreg : Registers M ok view act) {P Q : Pool E S α} {e : Event E S}
    {tr₂ : List (Event E S)}
    (h : Run M start ok P tr Q) (htr : tr = tr' ++ e :: tr₂) (k : κ) :
    view e.before k = AtomicCalls.register act (view P.state k) k tr' := by
  obtain ⟨Q₁,hrun,hstate,-⟩ := h.at_event htr
  rw [← hstate]
  exact hrun.register hreg k

end

end FalconKV.AtomicCalls
