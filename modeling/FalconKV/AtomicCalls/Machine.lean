import FalconKV.AtomicCalls.Prog

/-! # Running programs of atomic calls

A machine says what one call does to the shared state under one choice of its
environment. Programs run alone (`Exec`) or in a pool of threads of which any one
makes the next call (`Run`). The second part has the rules of the weakest
precondition of a program that runs alone.
-/
namespace FalconKV.AtomicCalls

/-- `step op c s` answers the call and gives the next state; `none` means that the
call cannot take place in `s` under the choice `c`. -/
structure Machine (E : Signature) (S : Type) where
  Choice : Type
  step : (op : E.Op) → Choice → S → Option (E.Res op × S)

variable {E : Signature} {S α β γ : Type} (M : Machine E S)

/-- The program alone takes `s` to `s'` and returns `a`, making every call in a state
that satisfies `ok` for this call. -/
inductive Exec (ok : S → E.Op → Prop) : Prog E α → S → α → S → Prop
  | ret (a : α) (s : S) : Exec ok (.ret a) s a s
  | call {op : E.Op} {k : E.Res op → Prog E α} {c : M.Choice} {r : E.Res op} {s s₁ s' : S} {a : α}
      (hok : ok s op) (hstep : M.step op c s = some (r,s₁)) (hrest : Exec ok (k r) s₁ a s') :
      Exec ok (.call op k) s a s'

/-- The machine next to a record of what its calls have done, which no call reads. -/
def Machine.withRecord {H : Type} (M : Machine E S) (note : (op : E.Op) → E.Res op → S → H → H) :
    Machine E (S × H) where
  Choice := M.Choice
  step := fun op c x => (M.step op c x.1).map fun y => (y.1,y.2,note op y.1 x.1 x.2)

theorem Machine.withRecord_step {H : Type} {M : Machine E S}
    {note : (op : E.Op) → E.Res op → S → H → H} {op : E.Op} {c : M.Choice} {r : E.Res op}
    {x x' : S × H} (h : (M.withRecord note).step op c x = some (r,x')) :
    M.step op c x.1 = some (r,x'.1) ∧ x'.2 = note op r x.1 x.2 := by
  obtain ⟨y,hy,he⟩ := Option.map_eq_some_iff.mp h
  cases he
  exact ⟨hy,rfl⟩

def execWith (check : S → E.Op → Bool) : Prog E α → List M.Choice → S → Option (α × S)
  | .ret a, _, s => some (a,s)
  | .call _ _, [], _ => none
  | .call op k, c :: cs, s =>
    if check s op then (M.step op c s).bind fun x => execWith check (k x.1) cs x.2 else none

variable {M}

theorem exec_of_execWith {check : S → E.Op → Bool} {p : Prog E α} {cs : List M.Choice} {s s' : S}
    {a : α} (h : execWith M check p cs s = some (a,s')) :
    Exec M (fun s op => check s op = true) p s a s' := by
  induction p generalizing cs s with
  | ret b => cases h; exact Exec.ret _ _
  | call op k ih =>
    cases cs with
    | nil => cases h
    | cons c cs =>
      unfold execWith at h
      split at h
      · next hok =>
        obtain ⟨⟨r,s₁⟩,hstep,hrest⟩ := Option.bind_eq_some_iff.mp h
        exact Exec.call hok hstep (ih r hrest)
      · cases h

theorem Exec.ok_mono {ok ok' : S → E.Op → Prop} {p : Prog E α} {s s' : S} {a : α}
    (h : Exec M ok p s a s') (hok : ∀ s op, ok s op → ok' s op) : Exec M ok' p s a s' := by
  induction h with
  | ret a s => exact .ret a s
  | call h hstep _ ih => exact .call (hok _ _ h) hstep ih

variable (M) in
/-- Run alone from `s`, the program makes every call in a state that satisfies `ok` for this call, and
it can only return in `post`. -/
def wp (ok : S → E.Op → Prop) (post : α → S → Prop) : Prog E α → S → Prop
  | .ret a, s => post a s
  | .call op k, s => ok s op ∧ ∀ c r s', M.step op c s = some (r,s') → wp ok post (k r) s'

variable {ok : S → E.Op → Prop} {post : α → S → Prop}

@[simp] theorem wp_ret {a : α} {s : S} : wp M ok post (.ret a) s ↔ post a s := Iff.rfl
theorem wp_call {op : E.Op} {k : E.Res op → Prog E α} {s : S} : wp M ok post (.call op k) s ↔
    ok s op ∧ ∀ c r s', M.step op c s = some (r,s') → wp M ok post (k r) s' := Iff.rfl

/-- The rule for one call and what comes after it. -/
theorem wp_perform {op : E.Op} {k : E.Res op → Prog E α} {s : S} (hok : ok s op)
    (h : ∀ c r s', M.step op c s = some (r,s') → wp M ok post (k r) s') :
    wp M ok post (Prog.perform op >>= k) s := ⟨hok,h⟩

theorem wp_bind {p : Prog E α} {f : α → Prog E β} {post : β → S → Prop} {s : S} :
    wp M ok post (p >>= f) s ↔ wp M ok (fun a s' => wp M ok post (f a) s') p s := by
  induction p generalizing s with
  | ret a => rfl
  | call op k ih => simp only [Prog.call_bind, wp_call, ih]

theorem wp_mono {post' : α → S → Prop} {p : Prog E α} {s : S} (h : wp M ok post p s)
    (hp : ∀ a s', post a s' → post' a s') : wp M ok post' p s := by
  induction p generalizing s with
  | ret a => exact hp a s h
  | call op k ih => exact ⟨h.1,fun c r s' hs => ih r (h.2 c r s' hs)⟩

/-- Weaken what is asked of the state before each call. -/
theorem wp_ok_mono {ok' : S → E.Op → Prop} {p : Prog E α} {s : S} (h : wp M ok post p s)
    (hok : ∀ s op, ok s op → ok' s op) : wp M ok' post p s := by
  induction p generalizing s with
  | ret a => exact h
  | call op k ih => exact ⟨hok _ _ h.1,fun c r s' hs => ih r (h.2 c r s' hs)⟩

/-- An execution of a program makes its calls as its precondition promises. -/
theorem Exec.of_wp {ok' : S → E.Op → Prop} {p : Prog E α} {s s' : S} {a : α}
    (he : Exec M ok' p s a s') (h : wp M ok post p s) :
    Exec M (fun s op => ok s op ∧ ok' s op) p s a s' ∧ post a s' := by
  induction he with
  | ret a s => exact ⟨.ret a s,h⟩
  | call hok hstep _ ih =>
    obtain ⟨hrest,hpost⟩ := ih (h.2 _ _ _ hstep)
    exact ⟨.call ⟨h.1,hok⟩ hstep hrest,hpost⟩

/-- A loop keeps what each of its rounds keeps. -/
theorem wp_forEach {f : γ → Prog E Unit} {I : List γ → S → Prop} {xs : List γ} {s : S}
    (hs : I xs s) (hf : ∀ x xs s, I (x :: xs) s → wp M ok (fun _ s' => I xs s') (f x) s) :
    wp M ok (fun _ s' => I [] s') (Prog.forEach f xs) s := by
  induction xs generalizing s with
  | nil => exact hs
  | cons x xs ih => exact wp_bind.mpr (wp_mono (hf x xs s hs) fun _ s' h => ih h)

/-- The same with the answers that were collected before. -/
theorem wp_mapEach_append {f : γ → Prog E β} {I : List γ → List β → S → Prop} {xs : List γ} {ys : List β}
    {s : S} (hs : I xs ys s)
    (hf : ∀ x xs ys s, I (x :: xs) ys s → wp M ok (fun y s' => I xs (ys ++ [y]) s') (f x) s) :
    wp M ok (fun ys' s' => I [] (ys ++ ys') s') (Prog.mapEach f xs) s := by
  induction xs generalizing s ys with
  | nil =>
    have hnil : I [] (ys ++ []) s := by rwa [List.append_nil]
    exact hnil
  | cons x xs ih =>
    refine wp_bind.mpr (wp_mono (hf x xs ys s hs) fun y s₁ h => ?_)
    refine wp_bind.mpr (wp_mono (ih h) fun ys' s₂ h' => ?_)
    have hcons : I [] (ys ++ y :: ys') s₂ := by simpa using h'
    exact hcons

theorem wp_mapEach {f : γ → Prog E β} {I : List γ → List β → S → Prop} {xs : List γ} {s : S}
    (hs : I xs [] s)
    (hf : ∀ x xs ys s, I (x :: xs) ys s → wp M ok (fun y s' => I xs (ys ++ [y]) s') (f x) s) :
    wp M ok (fun ys s' => I [] ys s') (Prog.mapEach f xs) s := wp_mapEach_append hs hf

/-- A loop whose rounds keep `I` and say something of their own element. -/
theorem wp_mapEach_forall₂ {f : γ → Prog E β} {I : S → Prop} {Q : γ → β → Prop} {xs : List γ} {s : S}
    (hs : I s) (hf : ∀ x ∈ xs, ∀ s, I s → wp M ok (fun y s' => I s' ∧ Q x y) (f x) s) :
    wp M ok (fun ys s' => I s' ∧ List.Forall₂ Q xs ys) (Prog.mapEach f xs) s := by
  induction xs generalizing s with
  | nil => exact ⟨hs,.nil⟩
  | cons x xs ih =>
    apply wp_bind.mpr
    apply wp_mono (hf x List.mem_cons_self s hs)
    rintro y s₁ ⟨hs₁,hy⟩
    apply wp_bind.mpr
    apply wp_mono (ih hs₁ fun x' hx' => hf x' (List.mem_cons_of_mem x hx'))
    rintro ys s₂ ⟨hs₂,hys⟩
    exact ⟨hs₂,.cons hy hys⟩

/-- What every call of a program keeps, the program keeps. -/
theorem wp_of_makes {P : E.Op → Prop} {I : S → Prop} {p : Prog E α} {s : S} (hp : p.Makes P)
    (hok : ∀ s op, P op → ok s op)
    (hstep : ∀ {s op c r s'}, I s → P op → M.step op c s = some (r,s') → I s') (hs : I s) :
    wp M ok (fun _ s' => I s') p s := by
  induction p generalizing s with
  | ret a => exact hs
  | call op k ih =>
    refine ⟨hok s op hp.1,fun c r s' h => ?_⟩
    exact ih r (hp.2 r) (hstep hs hp.1 h)

/-- A record kept beside an execution. -/
theorem Exec.withRecord {H : Type} (note : (op : E.Op) → E.Res op → S → H → H) {p : Prog E α}
    {s s' : S} {a : α} (he : Exec M ok p s a s') (h : H) :
    ∃ h', Exec (M.withRecord note) (fun x op => ok x.1 op) p (s,h) a (s',h') := by
  induction he generalizing h with
  | ret a s => exact ⟨h,.ret a (s,h)⟩
  | @call op k c r s s₁ s' a hok hstep _ ih =>
    obtain ⟨h',hrest⟩ := ih (note op r s h)
    refine ⟨h',.call (M := M.withRecord note) (c := c) hok ?_ hrest⟩
    exact Option.map_eq_some_iff.mpr ⟨(r,s₁),hstep,rfl⟩

structure Pool (E : Signature) (S α : Type) where
  state : S
  threads : List (Prog E α)

/-- What each thread returned, if it has returned. -/
def Pool.replies (P : Pool E S α) : List (Option α) := P.threads.map Prog.value

/-- The calls that the threads make next. -/
def Pool.pending (P : Pool E S α) : List E.Op := P.threads.filterMap Prog.next

/-- No thread is running. -/
def Pool.Returned (P : Pool E S α) : Prop := ∀ r ∈ P.replies, r.isSome = true

theorem Pool.Returned.ret {P : Pool E S α} (h : P.Returned) {p : Prog E α} (hp : p ∈ P.threads) :
    ∃ a, p = .ret a := by
  obtain ⟨a,ha⟩ := Option.isSome_iff_exists.mp (h p.value (List.mem_map_of_mem hp))
  exact ⟨a,Prog.value_eq_some.mp ha⟩

/-- One call of a run: the thread that made it, its answer, and the states around it. -/
structure Event (E : Signature) (S : Type) where
  thread : ℕ
  before : S
  op : E.Op
  res : E.Res op
  after : S

variable (M) in
/-- The pools reached from `P` when programs that satisfy `start` are added at any
time and every call is made in a state that satisfies `ok` for it. -/
inductive Run (start : Prog E α → Prop) (ok : S → E.Op → Prop) (P : Pool E S α) :
    List (Event E S) → Pool E S α → Prop
  | refl : Run start ok P [] P
  | spawn {tr : List (Event E S)} {s : S} {ts : List (Prog E α)} {p : Prog E α}
      (hrun : Run start ok P tr ⟨s,ts⟩) (hp : start p) : Run start ok P tr ⟨s,ts ++ [p]⟩
  | act {tr : List (Event E S)} {s s' : S} {left right : List (Prog E α)} {op : E.Op}
      {k : E.Res op → Prog E α} {c : M.Choice} {r : E.Res op}
      (hrun : Run start ok P tr ⟨s,left ++ .call op k :: right⟩) (hok : ok s op)
      (hstep : M.step op c s = some (r,s')) :
      Run start ok P (tr ++ [⟨left.length,s,op,r,s'⟩]) ⟨s',left ++ k r :: right⟩

/-- Let thread `i` make its next call under the choice `c`, if `check` allows it. -/
def Pool.act (check : S → E.Op → Bool) (P : Pool E S α) (i : ℕ) (c : M.Choice) :
    Option (Event E S × Pool E S α) :=
  match P.threads[i]? with
  | some (.call op k) =>
    if check P.state op then
      (M.step op c P.state).map fun x => (⟨i,P.state,op,x.1,x.2⟩,⟨x.2,P.threads.set i (k x.1)⟩)
    else none
  | _ => none

def Pool.follow (check : S → E.Op → Bool) :
    List (ℕ × M.Choice) → Pool E S α → Option (List (Event E S) × Pool E S α)
  | [], P => some ([],P)
  | (i,c) :: sched, P => (P.act check i c).bind fun x =>
    (Pool.follow check sched x.2).map fun y => (x.1 :: y.1,y.2)

variable (start : Prog E α → Prop)

variable {start} in
theorem Run.trans {P Q R : Pool E S α} {tr tr' : List (Event E S)} (h : Run M start ok P tr Q)
    (h' : Run M start ok Q tr' R) : Run M start ok P (tr ++ tr') R := by
  induction h' with
  | refl => simpa using h
  | spawn _ hp ih => exact ih.spawn hp
  | act _ hok hstep ih => simpa [List.append_assoc] using ih.act hok hstep

variable {start} in
theorem Run.ok_mono {ok' : S → E.Op → Prop} {P Q : Pool E S α} {tr : List (Event E S)}
    (h : Run M start ok P tr Q) (hok : ∀ s op, ok s op → ok' s op) : Run M start ok' P tr Q := by
  induction h with
  | refl => exact Run.refl
  | spawn _ hp ih => exact ih.spawn hp
  | act _ h hstep ih => exact ih.act (hok _ _ h) hstep

variable {start} in
/-- A run whose calls have turned out to satisfy a condition. -/
theorem Run.ok_of_events {ok' : S → E.Op → Prop} {P Q : Pool E S α} {tr : List (Event E S)}
    (h : Run M start ok P tr Q) (hok : ∀ e ∈ tr, ok' e.before e.op) : Run M start ok' P tr Q := by
  induction h with
  | refl => exact Run.refl
  | spawn _ hp ih => exact (ih hok).spawn hp
  | act _ _ hstep ih =>
    have hlast := hok _ (List.mem_append_right _ (List.mem_singleton_self _))
    exact (ih fun e he => hok e (List.mem_append_left _ he)).act hlast hstep

variable {start} in
/-- What every call keeps holds of the state that a run reaches. -/
theorem Run.invariant (Inv : List (Event E S) → S → Prop) {P Q : Pool E S α}
    {tr : List (Event E S)} (hP : Inv [] P.state)
    (hstep : ∀ tr (i : ℕ) {s op c r s'}, Inv tr s → ok s op → M.step op c s = some (r,s') →
      Inv (tr ++ [⟨i,s,op,r,s'⟩]) s')
    (h : Run M start ok P tr Q) : Inv tr Q.state := by
  induction h with
  | refl => exact hP
  | spawn _ _ ih => exact ih
  | @act _ _ _ left _ _ _ _ _ _ hok hs ih => exact hstep _ left.length ih hok hs

variable {start} in
/-- A run up to one of its calls. -/
theorem Run.at_event {P Q : Pool E S α} {tr tr₁ tr₂ : List (Event E S)} {e : Event E S}
    (h : Run M start ok P tr Q) (htr : tr = tr₁ ++ e :: tr₂) :
    ∃ Q₁, Run M start ok P tr₁ Q₁ ∧ Q₁.state = e.before ∧ ok e.before e.op ∧
      ∃ c, M.step e.op c e.before = some (e.res,e.after) := by
  induction h generalizing tr₂ with
  | refl => cases tr₁ <;> cases htr
  | spawn _ _ ih => exact ih htr
  | @act tr s s' left right op k c r hrun hok hs ih =>
    rcases List.eq_nil_or_concat tr₂ with rfl | ⟨tr₂,e',rfl⟩
    · obtain ⟨rfl,he⟩ := List.append_inj' htr rfl
      cases he
      exact ⟨_,hrun,rfl,hok,c,hs⟩
    · rw [List.concat_eq_append, ← List.cons_append, ← List.append_assoc] at htr
      exact ih (List.append_inj' htr rfl).1

variable {start} in
theorem run_spawnAll {s : S} {ts ps : List (Prog E α)} (hp : ∀ p ∈ ps, start p) :
    Run M start ok ⟨s,ts⟩ [] ⟨s,ts ++ ps⟩ := by
  induction ps generalizing ts with
  | nil => simpa using Run.refl
  | cons p ps ih =>
    have h : Run M start ok ⟨s,ts⟩ [] ⟨s,ts ++ [p]⟩ := Run.refl.spawn (hp p (by simp))
    have h' : Run M start ok ⟨s,ts ++ [p]⟩ [] ⟨s,(ts ++ [p]) ++ ps⟩ :=
      ih fun q hq => hp q (by simp [hq])
    simpa using h.trans h'

theorem run_of_act {check : S → E.Op → Bool} {P Q : Pool E S α} {i : ℕ} {c : M.Choice}
    {e : Event E S} (h : P.act check i c = some (e,Q)) :
    Run M start (fun s op => check s op = true) P [e] Q := by
  unfold Pool.act at h
  split at h
  · next op k hi =>
    split at h
    · next hok =>
      obtain ⟨⟨r,s'⟩,hstep,he⟩ := Option.map_eq_some_iff.mp h
      obtain ⟨rfl,rfl⟩ := Prod.mk.inj he
      obtain ⟨hlt,hget⟩ := List.getElem?_eq_some_iff.mp hi
      have hsplit : P.threads = P.threads.take i ++ .call op k :: P.threads.drop (i+1) := by
        rw [← hget, List.getElem_cons_drop, List.take_append_drop]
      have hlen : (P.threads.take i).length = i := by
        rw [List.length_take]
        omega
      have hrun : Run M start (fun s op => check s op = true) P []
          ⟨P.state,P.threads.take i ++ .call op k :: P.threads.drop (i+1)⟩ := by
        rw [← hsplit]
        exact Run.refl
      have hact := hrun.act hok hstep
      rw [hlen] at hact
      rw [List.set_eq_take_append_cons_drop, if_pos hlt]
      exact hact
    · cases h
  · cases h

/-- A schedule that can be followed is a run. -/
theorem run_of_follow {check : S → E.Op → Bool} {sched : List (ℕ × M.Choice)} {P Q : Pool E S α}
    {tr : List (Event E S)} (h : Pool.follow check sched P = some (tr,Q)) :
    Run M start (fun s op => check s op = true) P tr Q := by
  induction sched generalizing P tr with
  | nil => cases h; exact Run.refl
  | cons ic sched ih =>
    obtain ⟨⟨e,Q'⟩,hact,hrest⟩ := Option.bind_eq_some_iff.mp h
    obtain ⟨⟨tr',Q''⟩,hfollow,heq⟩ := Option.map_eq_some_iff.mp hrest
    obtain ⟨rfl,rfl⟩ := Prod.mk.inj heq
    exact (run_of_act start hact).trans (ih hfollow)

/-- The same from an idle pool to which the programs are added first. -/
theorem run_of_schedule {check : S → E.Op → Bool} {sched : List (ℕ × M.Choice)} {s : S}
    {ps : List (Prog E α)} {γ : Type} {f : List (Event E S) × Pool E S α → γ} {v : γ}
    (hp : ∀ p ∈ ps, start p) (h : (Pool.follow check sched ⟨s,ps⟩).map f = some v) :
    ∃ tr P, Run M start (fun s op => check s op = true) ⟨s,[]⟩ tr P ∧ f (tr,P) = v := by
  obtain ⟨⟨tr,P⟩,hfollow,hv⟩ := Option.map_eq_some_iff.mp h
  have hspawn : Run M start (fun s op => check s op = true) ⟨s,[]⟩ [] ⟨s,ps⟩ := run_spawnAll hp
  exact ⟨tr,P,hspawn.trans (run_of_follow start hfollow),hv⟩

end FalconKV.AtomicCalls
