import Mathlib.Data.Finset.Basic
import Mathlib.Data.Finset.Lattice.Basic
import FalconKV.AtomicCalls.Discipline

/-! # Taking a site down while crews are at work

A site has parts, and crews whose members go through them, start other members, come and leave.
One thread, the owner, takes the site down. It lowers the flag of a crew, waits until nobody of
the crew is left, and destroys a part when nobody is left of all the crews that need it. If all
programs keep to that, then nothing that a call goes through has been destroyed.
-/
namespace FalconKV.AtomicCalls

/-- What the members of a crew go through, of which crews they start members, whether others may
join the crew as long as its flag is up, which crews there are only with a part, and which parts
every site has. -/
structure SitePlan (κ π : Type) where
  needs : κ → Finset π
  starts : κ → Finset κ
  visited : κ → Bool
  hosted : π → Finset κ
  always : Finset π
  needs_host : ∀ {p k}, k ∈ hosted p → p ∈ needs k

def SitePlan.Ended {κ π : Type} (P : SitePlan κ π) (left crews : Finset κ) : Prop :=
  ∀ k ∈ crews, ∀ j, k ∈ P.starts j → j ∈ left

structure Site (κ π : Type) where
  begun : Bool
  has : π → Bool
  gone : π → Bool
  flag : κ → Bool
  /-- members that were started and have not done anything yet -/
  starting : κ → ℕ
  inside : κ → ℕ

inductive Deed (κ π : Type)
  | idle
  /-- a call of somebody who is in no crew -/
  | visit
  | work (k : κ)
  | enter (k : κ)
  | leave (k : κ)
  /-- From here on the thread is the owner. -/
  | takeDown
  | tend
  | find (p : π) (held : Bool)
  | seeDown (k : κ)
  | lower (k : κ)
  | wait (k : κ)
  /-- The surroundings let nobody be left of the crews that are given. -/
  | destroy (p : π) (dismissed : Finset κ)

structure Survey (κ π : Type) where
  lowered : Finset κ
  left : Finset κ
  absent : Finset π
  deriving DecidableEq

inductive Badge (κ π : Type)
  | member (k : κ)
  | owner (s : Survey κ π)
  deriving DecidableEq

variable {κ π : Type} [DecidableEq κ] {P : SitePlan κ π} {x x' : Site κ π} {k j : κ} {p : π}

namespace Site

def held (x : Site κ π) (p : π) : Bool := x.has p && !x.gone p

def start (x : Site κ π) (k : κ) : Site κ π :=
  { x with starting := Function.update x.starting k (x.starting k + 1) }

def arrive (x : Site κ π) (k : κ) : Site κ π :=
  { x with inside := Function.update x.inside k (x.inside k + 1) }

def enter (P : SitePlan κ π) (x : Site κ π) (k : κ) : Option (Site κ π) :=
  if 0 < x.starting k then
    some { x.arrive k with starting := Function.update x.starting k (x.starting k - 1) }
  else if P.visited k && x.flag k then some (x.arrive k)
  else none

def leave (x : Site κ π) (k : κ) : Site κ π :=
  { x with inside := Function.update x.inside k (x.inside k - 1) }

def lower (x : Site κ π) (k : κ) : Site κ π := { x with flag := Function.update x.flag k false }

def destroy [DecidableEq π] (x : Site κ π) (p : π) : Site κ π := { x with gone := Function.update x.gone p true }

/-- Nobody of the crew is there or will come, unless somebody starts a new member. -/
def Left (P : SitePlan κ π) (x : Site κ π) (k : κ) : Prop :=
  x.starting k = 0 ∧ x.inside k = 0 ∧ (P.visited k = true → x.flag k = false)

instance : Decidable (x.Left P k) := inferInstanceAs (Decidable (_ ∧ _ ∧ _))

structure Fresh (P : SitePlan κ π) (x : Site κ π) : Prop where
  begun : x.begun = false
  gone : ∀ p, x.gone p = false
  always : ∀ p ∈ P.always, x.has p = true
  inside : ∀ k, x.inside k = 0
  flag : ∀ k, x.flag k = false → x.starting k = 0 ∧ ∀ j, k ∉ P.starts j
  hosted : ∀ p, x.has p = false → ∀ k ∈ P.hosted p, x.Left P k

theorem Left.lower (h : x.Left P k) : (x.lower j).Left P k := by
  obtain ⟨hstarting,hinside,hvisited⟩ := h
  refine ⟨hstarting,hinside,fun hv => ?_⟩
  by_cases hk : k = j
  · exact (Function.update_apply ..).trans (if_pos hk)
  · exact (Function.update_of_ne hk ..).trans (hvisited hv)

theorem Left.leave (h : x.Left P k) : (x.leave j).Left P k := by
  obtain ⟨hstarting,hinside,hvisited⟩ := h
  refine ⟨hstarting,?_,hvisited⟩
  by_cases hk : k = j
  · subst hk
    exact (Function.update_self ..).trans (by rw [hinside])
  · exact (Function.update_of_ne hk ..).trans hinside

theorem Left.start (h : x.Left P k) (hk : k ≠ j) : (x.start j).Left P k :=
  ⟨(Function.update_of_ne hk ..).trans h.1,h.2⟩

theorem Left.not_enter (h : x.Left P k) : x.enter P k = none := by
  obtain ⟨hstarting,-,hvisited⟩ := h
  have hflag : (P.visited k && x.flag k) = false := by
    cases hv : P.visited k
    · rfl
    · rw [hvisited hv]
      rfl
  rw [enter, if_neg (by omega), hflag]
  rfl

/-- What an arrival changes. -/
theorem enter_cases (h : x.enter P k = some x') :
    x' = { x with inside := Function.update x.inside k (x.inside k + 1), starting := x'.starting } ∧
      ∀ j ≠ k, x'.starting j = x.starting j := by
  unfold enter at h
  split at h
  · cases h
    exact ⟨rfl,fun j hj => Function.update_of_ne hj ..⟩
  · split at h
    · cases h
      exact ⟨rfl,fun _ _ => rfl⟩
    · cases h

theorem Left.enter (h : x.Left P k) (he : x.enter P j = some x') : x'.Left P k := by
  have hk : k ≠ j := by
    rintro rfl
    rw [h.not_enter] at he
    cases he
  obtain ⟨hx,hstarting⟩ := enter_cases he
  rw [hx]
  exact ⟨(hstarting k hk).trans h.1,(Function.update_of_ne hk ..).trans h.2.1,h.2.2⟩

end Site

structure Survey.Known (P : SitePlan κ π) (x : Site κ π) (s : Survey κ π) : Prop where
  always : ∀ p ∈ P.always, x.has p = true
  gone : ∀ p, x.gone p = true → p ∈ s.absent
  absent : ∀ p ∈ s.absent, x.held p = false
  left : ∀ k ∈ s.left, x.Left P k
  flag : ∀ k, x.flag k = false → k ∈ s.lowered ∨ (x.Left P k ∧ ∀ j, k ∉ P.starts j)
  needs : ∀ k, ∀ p ∈ P.needs k, x.gone p = true → k ∈ s.left
  starts : ∀ k ∈ s.left, ∀ j, k ∈ P.starts j → j ∈ s.left
  hosted : ∀ p, x.held p = false → ∀ k ∈ P.hosted p, x.Left P k

def Badge.isOwner : Badge κ π → Prop
  | member _ => False
  | owner _ => True

instance : DecidablePred fun b : Badge κ π => b.isOwner := fun b => match b with
  | .member _ => isFalse id
  | .owner _ => isTrue trivial

variable {s s' : Survey κ π} {g rest : Multiset (Badge κ π)}

omit [DecidableEq κ] in
theorem Site.Fresh.known (h : x.Fresh P) : Survey.Known P x ⟨∅,∅,∅⟩ where
  always := h.always
  gone := fun p hp => by
    rw [h.gone] at hp
    cases hp
  absent := fun _ hp => absurd hp (Finset.notMem_empty _)
  left := fun _ hk => absurd hk (Finset.notMem_empty _)
  flag := fun k hk => .inr ⟨⟨(h.flag k hk).1,h.inside k,fun _ => hk⟩,(h.flag k hk).2⟩
  needs := fun _ p _ hp => by
    rw [h.gone] at hp
    cases hp
  starts := fun _ hk => absurd hk (Finset.notMem_empty _)
  hosted := fun p hp => by
    rw [Site.held, h.gone, Bool.not_false, Bool.and_true] at hp
    exact h.hosted p hp

namespace Survey.Known
variable (h : s.Known P x)
include h

theorem start (hj : j ∉ s.left) (hstarts : ∃ i, j ∈ P.starts i) (hhost : ∀ p, j ∈ P.hosted p → x.held p = true) :
    s.Known P (x.start j) where
  always := h.always
  gone := h.gone
  absent := h.absent
  left := fun _ hk => (h.left _ hk).start (ne_of_mem_of_not_mem hk hj)
  flag := fun k hk => by
    obtain hk' | ⟨hleft,hnone⟩ := h.flag k hk
    · exact .inl hk'
    · obtain ⟨i,hi⟩ := hstarts
      have hne : k ≠ j := by
        rintro rfl
        exact hnone i hi
      exact .inr ⟨hleft.start hne,hnone⟩
  needs := h.needs
  starts := h.starts
  hosted := fun p hp k hk => by
    apply (h.hosted p hp k hk).start
    rintro rfl
    have hheld : x.held p = false := hp
    rw [hhost p hk] at hheld
    cases hheld

theorem enter (he : x.enter P k = some x') : s.Known P x' := by
  have hleft : ∀ j, x.Left P j → x'.Left P j := fun _ hj => hj.enter he
  obtain ⟨hx,-⟩ := Site.enter_cases he
  have hgone : x'.gone = x.gone := by rw [hx]
  have hhas : x'.has = x.has := by rw [hx]
  have hflag : x'.flag = x.flag := by rw [hx]
  exact {
    always := fun p hp => hhas ▸ h.always p hp
    gone := fun p hp => h.gone p (hgone ▸ hp)
    absent := fun p hp => by
      rw [Site.held, hhas, hgone]
      exact h.absent p hp
    left := fun k hk => hleft k (h.left k hk)
    flag := fun k hk => (h.flag k (hflag ▸ hk)).imp_right fun y => ⟨hleft k y.1,y.2⟩
    needs := fun k p hp hgone' => h.needs k p hp (hgone ▸ hgone')
    starts := h.starts
    hosted := fun p hp k hk => by
      rw [Site.held, hhas, hgone] at hp
      exact hleft k (h.hosted p hp k hk) }

theorem leave : s.Known P (x.leave k) where
  always := h.always
  gone := h.gone
  absent := h.absent
  left := fun _ hk => (h.left _ hk).leave
  flag := fun _ hk => (h.flag _ hk).imp_right fun y => ⟨y.1.leave,y.2⟩
  needs := h.needs
  starts := h.starts
  hosted := fun p hp _ hk => (h.hosted p hp _ hk).leave

/-- Crews of which nobody is left, and of which nobody who is left starts members. -/
theorem union_left {crews : Finset κ} (hleft : ∀ k ∈ crews, x.Left P k)
    (hstarts : P.Ended s.left crews) :
    Survey.Known P x { s with left := s.left ∪ crews } where
  always := h.always
  gone := h.gone
  absent := h.absent
  left := fun k hk => (Finset.mem_union.mp hk).elim (h.left k) (hleft k)
  flag := h.flag
  needs := fun j p hp hgone => Finset.mem_union_left _ (h.needs j p hp hgone)
  starts := by
    intro k hk j hj
    apply Finset.mem_union_left
    obtain hk | hk := Finset.mem_union.mp hk
    · exact h.starts k hk j hj
    · exact hstarts k hk j hj
  hosted := h.hosted

theorem lower : Survey.Known P (x.lower k) { s with lowered := s.lowered ∪ {k} } where
  always := h.always
  gone := h.gone
  absent := h.absent
  left := fun _ hj => (h.left _ hj).lower
  flag := fun j hj => by
    by_cases hjk : j = k
    · exact .inl (Finset.mem_union_right _ (Finset.mem_singleton.mpr hjk))
    · have hflag : x.flag j = false := (Function.update_of_ne hjk ..).symm.trans hj
      obtain hl | ⟨hleft,hnone⟩ := h.flag j hflag
      · exact .inl (Finset.mem_union_left _ hl)
      · exact .inr ⟨hleft.lower,hnone⟩
  needs := h.needs
  starts := h.starts
  hosted := fun p hp _ hk => (h.hosted p hp _ hk).lower

end Survey.Known

namespace Survey.Known
variable [DecidableEq π] (h : s.Known P x)
include h

omit [DecidableEq κ] [DecidableEq π] in
theorem absent_of_always (halways : p ∈ P.always) (hp : x.held p = false) : p ∈ s.absent := by
  apply h.gone
  simpa [Site.held, h.always p halways] using hp

omit [DecidableEq κ] in
theorem find (hp : x.held p = true) : Survey.Known P x { s with absent := s.absent.erase p } where
  always := h.always
  gone := fun q hq => by
    apply Finset.mem_erase.mpr ⟨_,h.gone q hq⟩
    rintro rfl
    simp [Site.held, hq] at hp
  absent := fun q hq => h.absent q (Finset.mem_of_mem_erase hq)
  left := h.left
  flag := h.flag
  needs := h.needs
  starts := h.starts
  hosted := h.hosted

omit [DecidableEq κ] in
theorem lack (hp : x.held p = false) : Survey.Known P x { s with absent := insert p s.absent } where
  always := h.always
  gone := fun q hq => Finset.mem_insert_of_mem (h.gone q hq)
  absent := fun q hq => by
    obtain rfl | hq := Finset.mem_insert.mp hq
    · exact hp
    · exact h.absent q hq
  left := h.left
  flag := h.flag
  needs := h.needs
  starts := h.starts
  hosted := h.hosted

omit [DecidableEq κ] in
/-- All crews that need the part have left. -/
theorem destroy (hneeds : ∀ k, p ∈ P.needs k → k ∈ s.left) :
    Survey.Known P (x.destroy p) { s with absent := insert p s.absent } where
  always := h.always
  gone := fun q hq => by
    by_cases hqp : q = p
    · exact Finset.mem_insert.mpr (.inl hqp)
    · exact Finset.mem_insert_of_mem (h.gone q ((Function.update_of_ne hqp ..).symm.trans hq))
  absent := fun q hq => by
    by_cases hqp : q = p
    · subst hqp
      simp [Site.held, Site.destroy]
    · have hheld : (x.destroy p).held q = x.held q := by
        simp only [Site.held, Site.destroy, Function.update_of_ne hqp]
      rw [hheld]
      exact h.absent q (Finset.mem_of_mem_insert_of_ne hq hqp)
  left := h.left
  flag := h.flag
  needs := fun k q hq hgone => by
    by_cases hqp : q = p
    · subst hqp
      exact hneeds k hq
    · exact h.needs k q hq ((Function.update_of_ne hqp ..).symm.trans hgone)
  starts := h.starts
  hosted := fun q hq k hk => by
    by_cases hqp : q = p
    · subst hqp
      exact h.left k (hneeds k (P.needs_host hk))
    · have hheld : (x.destroy p).held q = x.held q := by
        simp only [Site.held, Site.destroy, Function.update_of_ne hqp]
      exact h.hosted q (hheld ▸ hq) k hk

end Survey.Known

variable [DecidableEq π]

def Deed.Moves (P : SitePlan κ π) (x x' : Site κ π) : Deed κ π → Prop
  | idle | tend => x' = x
  | visit => x.begun = false ∧ (x' = x ∨ ∃ j, ∃ k ∈ P.starts j,
      (∀ p, k ∈ P.hosted p → x.held p = true) ∧ x' = x.start k)
  | work k => x' = x ∨ ∃ j ∈ P.starts k, (∀ p, j ∈ P.hosted p → x.held p = true) ∧ x' = x.start j
  | enter k => x.enter P k = some x'
  | leave k => x' = x.leave k
  | takeDown => x.begun = false ∧ x' = { x with begun := true }
  | find p held => held = x.held p ∧ x' = x
  | seeDown k => x.flag k = false ∧ x' = x
  | lower k => x' = x.lower k
  | wait k => x.Left P k ∧ x' = x
  | destroy p dismissed => (∀ k ∈ dismissed, x.Left P k) ∧ x' = x.destroy p

def Deed.Advances (P : SitePlan κ π) (s s' : Survey κ π) : Deed κ π → Prop
  | tend => s' = s
  | find p true => s' = { s with absent := s.absent.erase p }
  | find p false => (p ∈ P.always ∧ p ∉ s.absent) ∨ P.Ended s.left (P.hosted p) ∧
      s' = { s with left := s.left ∪ P.hosted p, absent := insert p s.absent }
  | seeDown k => (k ∉ s.lowered ∨ k ∈ s.left) ∧ s' = { s with left := s.left ∪ {k} }
  | lower k => s' = { s with lowered := s.lowered ∪ {k} }
  | wait k => P.Ended s.left {k} ∧ s' = { s with left := s.left ∪ {k} }
  | destroy p dismissed => P.Ended s.left dismissed ∧ (∀ k, p ∈ P.needs k → k ∈ s.left ∪ dismissed) ∧
      s' = { s with left := s.left ∪ dismissed, absent := insert p s.absent }
  | _ => False

structure Role (κ π : Type) where
  parts : Finset π
  deed : Deed κ π

inductive Role.Pays (P : SitePlan κ π) : Role κ π → Multiset (Badge κ π) → Multiset (Badge κ π) → Prop
  | idle : Pays P ⟨∅,.idle⟩ 0 0
  | visit {parts : Finset π} : Pays P ⟨parts,.visit⟩ 0 0
  | work {k : κ} {parts : Finset π} (h : parts ⊆ P.needs k) :
      Pays P ⟨parts,.work k⟩ {.member k} {.member k}
  | enter {k : κ} : Pays P ⟨∅,.enter k⟩ 0 {.member k}
  | leave {k : κ} : Pays P ⟨∅,.leave k⟩ {.member k} 0
  | takeDown : Pays P ⟨∅,.takeDown⟩ 0 {.owner ⟨∅,∅,∅⟩}
  | owner {parts : Finset π} {deed : Deed κ π} {s s' : Survey κ π} (hparts : Disjoint parts s.absent)
      (h : deed.Advances P s s') : Pays P ⟨parts,deed⟩ {.owner s} {.owner s'}

structure Manned (P : SitePlan κ π) (x : Site κ π) (g : Multiset (Badge κ π)) : Prop where
  inside : ∀ k, x.inside k = g.count (.member k)
  owner : ∃ s : Survey κ π, s.Known P x ∧
    if x.begun then g.filter Badge.isOwner = {.owner s} else g.filter Badge.isOwner = 0 ∧ s = ⟨∅,∅,∅⟩

theorem Site.Fresh.manned (h : x.Fresh P) : Manned P x 0 where
  inside := h.inside
  owner := by
    refine ⟨⟨∅,∅,∅⟩,h.known,?_⟩
    rw [h.begun]
    exact ⟨rfl,rfl⟩

/-- What the owner does leaves it right about the site. -/
theorem Survey.Known.advance (h : s.Known P x) {deed : Deed κ π} (ha : deed.Advances P s s')
    (hm : deed.Moves P x x') : s'.Known P x' ∧ x'.inside = x.inside ∧ x'.begun = x.begun := by
  cases deed with
  | tend =>
    obtain rfl : s' = s := ha
    obtain rfl : x' = x := hm
    exact ⟨h,rfl,rfl⟩
  | find p held =>
    obtain ⟨hheld,rfl⟩ : held = x.held p ∧ x' = x := hm
    cases held with
    | true =>
      obtain rfl : s' = { s with absent := s.absent.erase p } := ha
      exact ⟨h.find hheld.symm,rfl,rfl⟩
    | false =>
      obtain ⟨halways,habsent⟩ | ⟨hended,rfl⟩ := ha
      · exact absurd (h.absent_of_always halways hheld.symm) habsent
      · have hleft : ∀ k ∈ P.hosted p, x'.Left P k := h.hosted p hheld.symm
        exact ⟨(h.union_left hleft hended).lack hheld.symm,rfl,rfl⟩
  | seeDown k =>
    obtain ⟨hflag,rfl⟩ : x.flag k = false ∧ x' = x := hm
    obtain ⟨hk,rfl⟩ := ha
    refine ⟨?_,rfl,rfl⟩
    by_cases hleft : k ∈ s.left
    · rw [Finset.union_eq_left.mpr (Finset.singleton_subset_iff.mpr hleft)]
      exact h
    · obtain ⟨hl,hnone⟩ := (h.flag k hflag).resolve_left (hk.resolve_right hleft)
      apply h.union_left
      · exact fun j hj => Finset.mem_singleton.mp hj ▸ hl
      · exact fun j hj i hi => absurd (Finset.mem_singleton.mp hj ▸ hi) (hnone i)
  | lower k =>
    obtain rfl : x' = x.lower k := hm
    obtain rfl : s' = { s with lowered := s.lowered ∪ {k} } := ha
    exact ⟨h.lower,rfl,rfl⟩
  | wait k =>
    obtain ⟨hleft,rfl⟩ : x.Left P k ∧ x' = x := hm
    obtain ⟨hended,rfl⟩ := ha
    exact ⟨h.union_left (fun j hj => Finset.mem_singleton.mp hj ▸ hleft) hended,rfl,rfl⟩
  | destroy p dismissed =>
    obtain ⟨hleft,rfl⟩ : (∀ k ∈ dismissed, x.Left P k) ∧ x' = x.destroy p := hm
    obtain ⟨hended,hneeds,rfl⟩ := ha
    exact ⟨(h.union_left hleft hended).destroy hneeds,rfl,rfl⟩
  | _ => cases ha

/-- Somebody other than the owner has done something. -/
theorem Manned.around {g' : Multiset (Badge κ π)} (h : Manned P x g) (hbegun : x'.begun = x.begun)
    (hinside : ∀ k, x'.inside k = g'.count (.member k))
    (howner : g'.filter Badge.isOwner = g.filter Badge.isOwner)
    (hknown : ∀ s : Survey κ π, s.Known P x → (x.begun = false → s = ⟨∅,∅,∅⟩) → s.Known P x') :
    Manned P x' g' where
  inside := hinside
  owner := by
    obtain ⟨s,hs,hheld⟩ := h.owner
    refine ⟨s,hknown s hs fun hx => ?_,?_⟩
    · rw [hx] at hheld
      exact hheld.2
    · rw [hbegun, howner]
      exact hheld

theorem Manned.owner_of (h : Manned P x ({.owner s} + rest)) :
    x.begun = true ∧ s.Known P x ∧ rest.filter Badge.isOwner = 0 := by
  obtain ⟨s₁,hs₁,hheld⟩ := h.owner
  have hsplit : ({.owner s} + rest).filter Badge.isOwner = .owner s ::ₘ rest.filter Badge.isOwner := by
    rw [Multiset.singleton_add, Multiset.filter_cons_of_pos _ trivial]
  rw [hsplit] at hheld
  split at hheld
  · next hbegun =>
    obtain ⟨hs,hrest⟩ := (Multiset.singleton_eq_cons_iff _).mp hheld.symm
    cases hs
    exact ⟨hbegun,hs₁,hrest⟩
  · exact absurd hheld.1 Multiset.cons_ne_zero

theorem Manned.member_inside (h : Manned P x ({.member k} + rest)) : 0 < x.inside k := by
  rw [h.inside k, Multiset.singleton_add]
  exact Multiset.count_pos.mpr (Multiset.mem_cons_self _ _)

omit [DecidableEq κ] [DecidableEq π] in
theorem filter_isOwner_member : (({.member k} : Multiset (Badge κ π)) + rest).filter Badge.isOwner =
    rest.filter Badge.isOwner := by
  rw [Multiset.singleton_add]
  exact Multiset.filter_cons_of_neg _ id

/-- One call keeps the holdings fitting. -/
theorem Manned.step {role : Role κ π} {used made : Multiset (Badge κ π)} (h : Manned P x (used + rest))
    (hpays : role.Pays P used made) (hm : role.deed.Moves P x x') : Manned P x' (made + rest) := by
  cases hpays with
  | idle =>
    obtain rfl : x' = x := hm
    exact h
  | visit =>
    obtain ⟨hbegun,rfl | ⟨j,k,hk,hhost,rfl⟩⟩ := hm
    · exact h
    · refine h.around rfl h.inside rfl fun s hs hempty => hs.start ?_ ⟨j,hk⟩ hhost
      rw [hempty hbegun]
      exact Finset.notMem_empty k
  | @work k parts hparts =>
    obtain rfl | ⟨j,hj,hhost,rfl⟩ := hm
    · exact h
    · refine h.around rfl h.inside rfl fun s hs _ => hs.start (fun hleft => ?_) ⟨k,hj⟩ hhost
      have hk : x.Left P k := hs.left k (hs.starts j hleft k hj)
      exact absurd hk.2.1 (Nat.ne_of_gt h.member_inside)
  | @enter k =>
    rw [zero_add] at h
    have hm' : x.enter P k = some x' := hm
    obtain ⟨hx,-⟩ := Site.enter_cases hm'
    apply h.around
    · rw [hx]
    · intro j
      rw [hx, Multiset.singleton_add, Multiset.count_cons]
      by_cases hj : j = k
      · subst hj
        simp [h.inside j]
      · simp [h.inside j, hj]
    · exact filter_isOwner_member
    · exact fun s hs _ => hs.enter hm'
  | @leave k =>
    obtain rfl : x' = x.leave k := hm
    rw [zero_add]
    refine h.around rfl (fun j => ?_) filter_isOwner_member.symm fun s hs _ => hs.leave
    · have hcount := h.inside j
      rw [Multiset.singleton_add, Multiset.count_cons] at hcount
      by_cases hj : j = k
      · subst hj
        simp [Site.leave, hcount]
      · simp only [Site.leave, Function.update_of_ne hj]
        simpa [hj] using hcount
  | takeDown =>
    obtain ⟨hbegun,rfl⟩ : x.begun = false ∧ x' = { x with begun := true } := hm
    rw [zero_add] at h
    obtain ⟨s,hs,hheld⟩ := h.owner
    rw [hbegun] at hheld
    obtain ⟨hnone,rfl⟩ := hheld
    refine ⟨fun k => ?_,⟨∅,∅,∅⟩,⟨hs.always,hs.gone,hs.absent,hs.left,hs.flag,hs.needs,hs.starts,hs.hosted⟩,?_⟩
    · rw [Multiset.singleton_add, Multiset.count_cons_of_ne (by simp)]
      exact h.inside k
    · rw [if_pos rfl, Multiset.singleton_add, Multiset.filter_cons_of_pos _ trivial, hnone]
      rfl
  | @owner parts deed s s' hparts ha =>
    obtain ⟨hbegun,hs,hrest⟩ := h.owner_of
    obtain ⟨hs',hinside,hbegun'⟩ := hs.advance ha hm
    refine ⟨fun k => ?_,s',hs',?_⟩
    · have hcount := h.inside k
      rw [Multiset.singleton_add, Multiset.count_cons_of_ne (by simp)] at hcount ⊢
      rw [hinside, hcount]
    · rw [hbegun', hbegun, if_pos rfl, Multiset.singleton_add, Multiset.filter_cons_of_pos _ trivial, hrest]
      rfl

/-- What a call goes through has not been destroyed. -/
theorem Manned.safe {role : Role κ π} {used made : Multiset (Badge κ π)} (h : Manned P x (used + rest))
    (hpays : role.Pays P used made) (hm : role.deed.Moves P x x') : ∀ p ∈ role.parts, x.gone p = false := by
  obtain ⟨s,hs,hheld⟩ := h.owner
  intro p hp
  apply Bool.eq_false_iff.mpr
  intro hgone
  cases hpays with
  | idle | enter | leave | takeDown => exact absurd hp (Finset.notMem_empty p)
  | visit =>
    obtain ⟨hbegun,-⟩ : x.begun = false ∧ _ := hm
    rw [hbegun] at hheld
    have hmem := hs.gone p hgone
    rw [hheld.2] at hmem
    exact Finset.notMem_empty p hmem
  | @work k parts hparts =>
    have hk : x.Left P k := hs.left k (hs.needs k p (hparts hp) hgone)
    exact absurd hk.2.1 (Nat.ne_of_gt h.member_inside)
  | owner hparts ha =>
    obtain ⟨-,hs',-⟩ := h.owner_of
    exact Finset.disjoint_left.mp hparts hp (hs'.gone p hgone)

structure Dismantling (E : Signature) (κ π : Type) where
  plan : SitePlan κ π
  role : (op : E.Op) → E.Res op → Role κ π

namespace Dismantling
variable {E : Signature} {S α : Type} (D : Dismantling E κ π)

def discipline : Discipline E (Multiset (Badge κ π)) where
  guar := fun _ _ => True
  rule := fun op r => (D.role op r).Pays D.plan

def Finished (g : Multiset (Badge κ π)) : Prop :=
  ∀ s : Survey κ π, .owner s ∈ g → (∀ k, k ∈ s.left) ∧ ∀ p, p ∈ s.absent

def Fair (p : Prog E α) : Prop := Uses D.discipline (fun _ g => Finished g) p 0

variable {D} {M : Machine E S} {site : S → Site κ π} {ok : S → E.Op → Prop}

theorem keeps (hmoves : ∀ {s op c r s'}, ok s op → M.step op c s = some (r,s') →
    (D.role op r).deed.Moves D.plan (site s) (site s')) :
    Keeps M D.discipline ok fun tr s g => Manned D.plan (site s) g ∧
      ∀ e ∈ tr, ∀ p ∈ (D.role e.op e.res).parts, (site e.before).gone p = false where
  guar := by
    intros
    trivial
  step := by
    rintro tr i s op c r s' used made rest ⟨hmanned,hsafe⟩ hok hs hrule
    refine ⟨hmanned.step hrule (hmoves hok hs),?_⟩
    intro e he
    obtain he | he := List.mem_append.mp he
    · exact hsafe e he
    · obtain rfl := List.mem_singleton.mp he
      exact hmanned.safe hrule (hmoves hok hs)

/-- Nothing that is used has been destroyed, and when all have returned after the site was taken
down, nobody is there any more, and nothing. -/
theorem run {start : Prog E α → Prop} {s : S} {tr : List (Event E S)} {Q : Pool E S α}
    (hmoves : ∀ {s op c r s'}, ok s op → M.step op c s = some (r,s') →
      (D.role op r).deed.Moves D.plan (site s) (site s'))
    (hfair : ∀ p, start p → D.Fair p) (hs : (site s).Fresh D.plan) (h : Run M start ok ⟨s,[]⟩ tr Q) :
    (∀ e ∈ tr, ∀ p ∈ (D.role e.op e.res).parts, (site e.before).gone p = false) ∧
      (Q.Returned → (site Q.state).begun = true →
        (∀ k, (site Q.state).Left D.plan k) ∧ ∀ p, (site Q.state).held p = false) := by
  obtain ⟨gs,hgs,hmanned,hsafe⟩ := h.shares (keeps hmoves) hfair
    ⟨[],.nil,hs.manned,fun _ he => absurd he List.not_mem_nil⟩
  refine ⟨hsafe,fun hreturned hbegun => ?_⟩
  have hfinished : Finished gs.sum := by
    apply hreturned.sum hgs
    · exact fun _ hmem => absurd hmem (Multiset.notMem_zero _)
    · exact fun g g' hg hg' s hmem => (Multiset.mem_add.mp hmem).elim (hg s) (hg' s)
    · exact fun _ _ hg => hg
  obtain ⟨survey,hknown,hheld⟩ := hmanned.owner
  rw [if_pos hbegun] at hheld
  have hmem : Badge.owner survey ∈ gs.sum :=
    Multiset.mem_of_mem_filter (hheld ▸ Multiset.mem_singleton_self _)
  obtain ⟨hleft,habsent⟩ := hfinished survey hmem
  exact ⟨fun k => hknown.left k (hleft k),fun p => hknown.absent p (habsent p)⟩

end Dismantling

namespace Dismantling
variable {E : Signature} {α β : Type} (D : Dismantling E κ π)

def WorkOf (k : κ) (op : E.Op) : Prop :=
  ∀ r, ∃ parts ⊆ D.plan.needs k, D.role op r = ⟨parts,.work k⟩

def Staffed (k : κ) (p : Prog E α) : Prop :=
  Uses D.discipline (fun _ g => Finished g) p {.member k}

variable {D} {p : Prog E α} {f : α → Prog E β} {op : E.Op}

omit [DecidableEq κ] [DecidableEq π] in
theorem finished_zero : Finished (0 : Multiset (Badge κ π)) :=
  fun _ hmem => absurd hmem (Multiset.notMem_zero _)

omit [DecidableEq κ] [DecidableEq π] in
theorem finished_member : Finished ({.member k} : Multiset (Badge κ π)) :=
  fun _ hmem => nomatch Multiset.mem_singleton.mp hmem

theorem staffed_pure {a : α} : D.Staffed k (pure a : Prog E α) := finished_member

theorem uses_work (hp : p.Makes (D.WorkOf k)) :
    Uses D.discipline (fun _ g => g = {.member k}) p {.member k} := by
  induction p with
  | ret a => rfl
  | call op next ih =>
    intro r _
    obtain ⟨parts,hparts,hrole⟩ := hp.1 r
    have hpays : (D.role op r).Pays D.plan {.member k} {.member k} := by
      rw [hrole]
      exact .work hparts
    exact ⟨_,_,0,hpays,(add_zero _).symm,ih r (hp.2 r)⟩

theorem staffed_bind (hp : p.Makes (D.WorkOf k)) (hf : ∀ a, D.Staffed k (f a)) : D.Staffed k (p >>= f) := by
  apply uses_bind
  apply uses_mono (uses_work hp)
  rintro a _ rfl
  exact hf a

theorem staffed_leave (hrole : ∀ r, D.role op r = ⟨∅,.leave k⟩) : D.Staffed k (Prog.perform op) := by
  intro r _
  have hpays : (D.role op r).Pays D.plan {.member k} 0 := by
    rw [hrole r]
    exact .leave
  exact ⟨_,_,0,hpays,(add_zero _).symm,finished_zero⟩

theorem fair_enter {f : E.Res op → Prog E α} (hrole : ∀ r, D.role op r = ⟨∅,.enter k⟩)
    (hf : ∀ r, D.Staffed k (f r)) : D.Fair (Prog.perform op >>= f) := by
  apply uses_perform
  intro r _
  have hpays : (D.role op r).Pays D.plan 0 {.member k} := by
    rw [hrole r]
    exact .enter
  exact ⟨_,_,0,hpays,(add_zero _).symm,hf r⟩

/-- A program of somebody who is in no crew. -/
theorem fair_visit (hp : p.Makes fun op => ∀ r, ∃ parts, D.role op r = ⟨parts,.visit⟩) : D.Fair p := by
  have hkept : Uses D.discipline (fun _ g => g = 0) p 0 := by
    apply uses_of_makes hp
    intro op r hvisit
    obtain ⟨parts,hrole⟩ := hvisit r
    change (D.role op r).Pays D.plan 0 0
    rw [hrole]
    exact .visit
  apply uses_mono hkept
  rintro _ _ rfl
  exact finished_zero

end Dismantling

/-- What is known of a survey: the flags that may have been lowered, the crews of which nobody is
left, the parts that are absent, and those that may be. -/
structure Estimate (κ π : Type) where
  lowered : Finset κ
  left : Finset κ
  absent : Finset π
  lost : Finset π

namespace Estimate

def Fits (e : Estimate κ π) (s : Survey κ π) : Prop :=
  s.lowered ⊆ e.lowered ∧ e.left ⊆ s.left ∧ e.absent ⊆ s.absent ∧ s.absent ⊆ e.lost

def Le (e e' : Estimate κ π) : Prop :=
  e.lowered ⊆ e'.lowered ∧ e'.left ⊆ e.left ∧ e'.absent ⊆ e.absent ∧ e.lost ⊆ e'.lost

instance (e e' : Estimate κ π) : Decidable (e.Le e') := inferInstanceAs (Decidable (_ ∧ _ ∧ _ ∧ _))

def lower (e : Estimate κ π) (k : κ) : Estimate κ π := { e with lowered := e.lowered ∪ {k} }

def leave (e : Estimate κ π) (crews : Finset κ) : Estimate κ π := { e with left := e.left ∪ crews }

def find (e : Estimate κ π) (p : π) : Estimate κ π :=
  { e with absent := e.absent.erase p, lost := e.lost.erase p }

def lose (e : Estimate κ π) (p : π) : Estimate κ π :=
  { e with absent := insert p e.absent, lost := insert p e.lost }

variable {e e' : Estimate κ π}

omit [DecidableEq κ] [DecidableEq π] in
theorem Fits.le (h : e.Fits s) (hle : e.Le e') : e'.Fits s :=
  ⟨h.1.trans hle.1,hle.2.1.trans h.2.1,hle.2.2.1.trans h.2.2.1,h.2.2.2.trans hle.2.2.2⟩

omit [DecidableEq π] in
theorem Fits.lower (h : e.Fits s) : (e.lower k).Fits { s with lowered := s.lowered ∪ {k} } :=
  ⟨Finset.union_subset_union_left h.1,h.2.1,h.2.2.1,h.2.2.2⟩

omit [DecidableEq π] in
theorem Fits.leave (h : e.Fits s) (crews : Finset κ) :
    (e.leave crews).Fits { s with left := s.left ∪ crews } :=
  ⟨h.1,Finset.union_subset_union_left h.2.1,h.2.2.1,h.2.2.2⟩

omit [DecidableEq κ] in
theorem Fits.find (h : e.Fits s) : (e.find p).Fits { s with absent := s.absent.erase p } :=
  ⟨h.1,h.2.1,Finset.erase_subset_erase p h.2.2.1,Finset.erase_subset_erase p h.2.2.2⟩

omit [DecidableEq κ] in
theorem Fits.lose (h : e.Fits s) : (e.lose p).Fits { s with absent := insert p s.absent } :=
  ⟨h.1,h.2.1,Finset.insert_subset_insert p h.2.2.1,Finset.insert_subset_insert p h.2.2.2⟩

end Estimate

omit [DecidableEq κ] [DecidableEq π] in
theorem SitePlan.Ended.mono {left left' crews : Finset κ} (h : P.Ended left crews) (hleft : left ⊆ left') :
    P.Ended left' crews := fun k hk j hj => hleft (h k hk j hj)

def Deed.Carries (P : SitePlan κ π) (e e' : Estimate κ π) : Deed κ π → Prop
  | tend => e' = e
  | find p true => e' = e.find p
  | find p false => (p ∈ P.always ∧ p ∉ e.lost ∧ e'.absent ⊆ e'.lost) ∨
      P.Ended e.left (P.hosted p) ∧ e' = (e.leave (P.hosted p)).lose p
  | seeDown k => (k ∉ e.lowered ∨ k ∈ e.left) ∧ e' = e.leave {k}
  | lower k => e' = e.lower k
  | wait k => P.Ended e.left {k} ∧ e' = e.leave {k}
  | destroy p dismissed => P.Ended e.left dismissed ∧ (∀ k, p ∈ P.needs k → k ∈ e.left ∪ dismissed) ∧
      e' = (e.leave dismissed).lose p
  | _ => False

theorem Deed.Carries.advances {e e' : Estimate κ π} {deed : Deed κ π} (h : deed.Carries P e e')
    (hs : e.Fits s) : ∃ s', deed.Advances P s s' ∧ e'.Fits s' := by
  have hleft := hs.2.1
  cases deed with
  | tend =>
    obtain rfl : e' = e := h
    exact ⟨s,rfl,hs⟩
  | find p held =>
    cases held with
    | true =>
      obtain rfl : e' = e.find p := h
      exact ⟨_,rfl,hs.find⟩
    | false =>
      obtain ⟨halways,hlost,hsub⟩ | ⟨hended,rfl⟩ := h
      · have habsent : p ∉ s.absent := fun hp => hlost (hs.2.2.2 hp)
        exact ⟨⟨∅,e'.left,e'.absent⟩,.inl ⟨halways,habsent⟩,Finset.empty_subset _,subset_rfl,subset_rfl,hsub⟩
      · exact ⟨_,.inr ⟨hended.mono hleft,rfl⟩,(hs.leave _).lose⟩
  | seeDown k =>
    obtain ⟨hk,rfl⟩ := h
    exact ⟨_,⟨hk.imp (fun hk hmem => hk (hs.1 hmem)) fun hk => hleft hk,rfl⟩,hs.leave _⟩
  | lower k =>
    obtain rfl : e' = e.lower k := h
    exact ⟨_,rfl,hs.lower⟩
  | wait k =>
    obtain ⟨hended,rfl⟩ := h
    exact ⟨_,⟨hended.mono hleft,rfl⟩,hs.leave _⟩
  | destroy p dismissed =>
    obtain ⟨hended,hneeds,rfl⟩ := h
    have hneeds' : ∀ k, p ∈ P.needs k → k ∈ s.left ∪ dismissed :=
      fun k hk => Finset.union_subset_union_left hleft (hneeds k hk)
    exact ⟨_,⟨hended.mono hleft,hneeds',rfl⟩,(hs.leave _).lose⟩
  | _ => cases h

namespace Dismantling
variable {E : Signature} {α β : Type} (D : Dismantling E κ π)

def Brings (e e' : Estimate κ π) (p : Prog E α) : Prop :=
  ∀ s : Survey κ π, e.Fits s →
    Uses D.discipline (fun _ g => ∃ s' : Survey κ π, g = {.owner s'} ∧ e'.Fits s') p {.owner s}

variable {D} {e e₁ e' : Estimate κ π} {op : E.Op} {p : Prog E α}

theorem brings_pure {a : α} : D.Brings e e (pure a) := fun s hs => ⟨s,rfl,hs⟩

theorem Brings.bind {f : α → Prog E β} (hp : D.Brings e e₁ p) (hf : ∀ a, D.Brings e₁ e' (f a)) :
    D.Brings e e' (p >>= f) := by
  intro s hs
  apply uses_bind
  apply uses_mono (hp s hs)
  rintro a _ ⟨s₁,rfl,hs₁⟩
  exact hf a s₁ hs₁

theorem Brings.le (hp : D.Brings e e₁ p) (hle : e₁.Le e') : D.Brings e e' p := by
  intro s hs
  apply uses_mono (hp s hs)
  rintro a _ ⟨s₁,rfl,hs₁⟩
  exact ⟨s₁,rfl,hs₁.le hle⟩

theorem Brings.of_le (hp : D.Brings e₁ e' p) (hle : e.Le e₁) : D.Brings e e' p :=
  fun s hs => hp s (hs.le hle)

/-- The rule for one call of the owner. -/
theorem brings_call {f : E.Res op → Prog E α} (h : ∀ r, Disjoint (D.role op r).parts e.lost ∧
    ∃ e₁, (D.role op r).deed.Carries D.plan e e₁ ∧ D.Brings e₁ e' (f r)) :
    D.Brings e e' (Prog.perform op >>= f) := by
  intro s hs
  apply uses_perform
  intro r _
  obtain ⟨hparts,e₁,hcarries,hnext⟩ := h r
  obtain ⟨s₁,hadvances,hs₁⟩ := hcarries.advances hs
  have hpays : (D.role op r).Pays D.plan {.owner s} {.owner s₁} :=
    .owner (hparts.mono_right hs.2.2.2) hadvances
  exact ⟨_,_,0,hpays,(add_zero _).symm,hnext s₁ hs₁⟩

/-- The rule for a call whose answer does not matter. -/
theorem brings_perform {parts : Finset π} {deed : Deed κ π} (hrole : ∀ r, D.role op r = ⟨parts,deed⟩)
    (hparts : Disjoint parts e.lost) (h : deed.Carries D.plan e e') :
    D.Brings e e' (Prog.perform op) := by
  apply brings_call
  intro r
  rw [hrole r]
  exact ⟨hparts,e',h,brings_pure⟩

/-- An owner that has taken everything down has finished. -/
theorem Brings.finished (h : D.Brings ⟨∅,∅,∅,∅⟩ e p) (hleft : ∀ k, k ∈ e.left) (habsent : ∀ q, q ∈ e.absent) :
    Uses D.discipline (fun _ g => Finished g) p {.owner ⟨∅,∅,∅⟩} := by
  have hstart : Estimate.Fits ⟨∅,∅,∅,∅⟩ (⟨∅,∅,∅⟩ : Survey κ π) :=
    ⟨subset_rfl,subset_rfl,subset_rfl,subset_rfl⟩
  apply uses_mono (h _ hstart)
  rintro a _ ⟨s,rfl,hs⟩ s' hmem
  cases Multiset.mem_singleton.mp hmem
  exact ⟨fun k => hs.2.1 (hleft k),fun q => hs.2.2.1 (habsent q)⟩

end Dismantling

end FalconKV.AtomicCalls
