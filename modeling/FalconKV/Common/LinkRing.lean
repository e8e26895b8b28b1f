import Mathlib.Data.List.Infix
import Mathlib.Data.List.Nodup
import Mathlib.Logic.Function.Basic

/-! # Rings of nodes that point at both neighbours

A sentinel closes a list of nodes into a ring, so that linking and unlinking have no special
cases at the ends. Nothing in the pointers says which nodes are linked; a ring holds a list if
every node of the path from the sentinel back to the sentinel points at its neighbours.
-/
namespace FalconKV

inductive RingNode (κ : Type) where
  | null
  | sentinel
  | record (k : κ)
  deriving DecidableEq

structure LinkRing (κ : Type) where
  next : RingNode κ → RingNode κ
  prev : RingNode κ → RingNode κ

namespace LinkRing
open RingNode
variable {κ : Type} {r r' : LinkRing κ} {as bs ns : List (RingNode κ)} {a b n x y : RingNode κ}
  {l pre post : List κ} {k : κ}

/-- The sentinel alone. -/
def create : LinkRing κ := ⟨fun _ => sentinel,fun _ => sentinel⟩

/-- The elements met on the way back from a node, at most as many as the first argument. -/
def walkBack (r : LinkRing κ) : ℕ → RingNode κ → List κ
  | 0, _ => []
  | count + 1, record k => k :: r.walkBack count (r.prev (record k))
  | _ + 1, _ => []

def Linked (r : LinkRing κ) : List (RingNode κ) → Prop
  | [] => True
  | [_] => True
  | a :: b :: ns => r.next a = b ∧ r.prev b = a ∧ Linked r (b :: ns)

def path (l : List κ) : List (RingNode κ) := sentinel :: (l.map record ++ [sentinel])

structure Holds (r : LinkRing κ) (l : List κ) : Prop where
  linked : r.Linked (path l)
  nodup : l.Nodup

@[simp] theorem linked_singleton : r.Linked [a] := trivial

@[simp] theorem linked_cons_cons :
    r.Linked (a :: b :: ns) ↔ r.next a = b ∧ r.prev b = a ∧ r.Linked (b :: ns) := Iff.rfl

/-- A path is linked if both parts up to a common node are. -/
theorem linked_append_cons : r.Linked (as ++ b :: bs) ↔ r.Linked (as ++ [b]) ∧ r.Linked (b :: bs) := by
  induction as with
  | nil => simp
  | cons a as ih =>
    cases as with
    | nil => simp [and_assoc]
    | cons a' as =>
      have hrest : r.Linked (a' :: (as ++ b :: bs)) ↔
          r.Linked (a' :: (as ++ [b])) ∧ r.Linked (b :: bs) := ih
      simp only [List.cons_append, linked_cons_cons, hrest, and_assoc]

/-- The last node of a path may point anywhere, and so may the first one point back. -/
theorem Linked.congr (h : r.Linked ns) (hnext : ∀ a ∈ ns.dropLast, r'.next a = r.next a)
    (hprev : ∀ b ∈ ns.tail, r'.prev b = r.prev b) : r'.Linked ns := by
  induction ns with
  | nil => exact h
  | cons a ns ih =>
    cases ns with
    | nil => exact h
    | cons b ns =>
      obtain ⟨ha,hb,hrest⟩ := h
      refine ⟨?_,?_,?_⟩
      · rw [hnext a (by simp)]
        exact ha
      · rw [hprev b (by simp)]
        exact hb
      · apply ih hrest
        · intro c hc
          exact hnext c (by simp [hc])
        · intro c hc
          exact hprev c (List.mem_of_mem_tail hc)

theorem holds_create : (create : LinkRing κ).Holds [] := ⟨⟨rfl,rfl,trivial⟩,List.nodup_nil⟩

theorem nodup_map_record (h : l.Nodup) : (l.map record).Nodup :=
  h.map fun _ _ heq => RingNode.record.inj heq

theorem sentinel_notMem : sentinel ∉ l.map record := by simp

/-- The way back from the end meets the elements in reverse. -/
theorem Linked.walkBack (h : r.Linked (sentinel :: (l.map record ++ [b]))) (count : ℕ) :
    r.walkBack count (r.prev b) = l.reverse.take count := by
  induction l using List.reverseRecOn generalizing b count with
  | nil =>
    have hb : r.prev b = sentinel := h.2.1
    rw [hb]
    cases count <;> simp [LinkRing.walkBack]
  | append_singleton l k ih =>
    rw [List.map_append, List.map_singleton, List.append_assoc, List.singleton_append,
      ← List.cons_append, linked_append_cons] at h
    obtain ⟨hl,-,hb,-⟩ := h
    cases count with
    | zero => simp [LinkRing.walkBack]
    | succ count =>
      have hrest := ih hl count
      rw [hb, LinkRing.walkBack, hrest]
      simp

theorem Holds.walkBack (h : r.Holds l) (count : ℕ) :
    r.walkBack count (r.prev sentinel) = l.reverse.take count := h.linked.walkBack count

def nodes (l : List κ) : List (RingNode κ) := sentinel :: l.map record

def Loose (r : LinkRing κ) (k : κ) : Prop := r.next (record k) = null ∧ r.prev (record k) = null

theorem null_notMem_nodes : null ∉ nodes l := by simp [nodes]

theorem record_mem_nodes : record k ∈ nodes l ↔ k ∈ l := by simp [nodes]

theorem dropLast_path : (path l).dropLast = nodes l := by
  rw [path, ← List.cons_append, List.dropLast_concat]
  rfl

theorem mem_tail_path : a ∈ (path l).tail ↔ a ∈ nodes l := by
  simp [path, nodes, or_comm]

/-- Every node of a path but the last one has a node after it that points back. -/
theorem Linked.next (h : r.Linked ns) (ha : a ∈ ns.dropLast) :
    r.next a ∈ ns.tail ∧ r.prev (r.next a) = a := by
  induction ns with
  | nil => simp at ha
  | cons b ns ih =>
    cases ns with
    | nil => simp at ha
    | cons c ns =>
      obtain ⟨hnext,hprev,hrest⟩ := h
      rw [List.dropLast_cons_cons] at ha
      rcases List.mem_cons.mp ha with rfl | ha
      · rw [hnext]
        exact ⟨List.mem_cons_self,hprev⟩
      · obtain ⟨hmem,hback⟩ := ih hrest ha
        exact ⟨List.mem_of_mem_tail hmem,hback⟩

theorem Linked.prev (h : r.Linked ns) (ha : a ∈ ns.tail) :
    r.prev a ∈ ns.dropLast ∧ r.next (r.prev a) = a := by
  induction ns with
  | nil => simp at ha
  | cons b ns ih =>
    cases ns with
    | nil => simp at ha
    | cons c ns =>
      obtain ⟨hnext,hprev,hrest⟩ := h
      rw [List.dropLast_cons_cons]
      rcases List.mem_cons.mp ha with rfl | ha
      · rw [hprev]
        exact ⟨List.mem_cons_self,hnext⟩
      · obtain ⟨hmem,hback⟩ := ih hrest ha
        exact ⟨List.mem_cons_of_mem _ hmem,hback⟩

theorem Holds.next (h : r.Holds l) (ha : a ∈ nodes l) :
    r.next a ∈ nodes l ∧ r.prev (r.next a) = a := by
  obtain ⟨hmem,hback⟩ := h.linked.next (dropLast_path ▸ ha)
  exact ⟨mem_tail_path.mp hmem,hback⟩

theorem Holds.prev (h : r.Holds l) (ha : a ∈ nodes l) :
    r.prev a ∈ nodes l ∧ r.next (r.prev a) = a := by
  obtain ⟨hmem,hback⟩ := h.linked.prev (mem_tail_path.mpr ha)
  exact ⟨dropLast_path ▸ hmem,hback⟩

/-- A pointer of a linked node leads to no record outside the ring. -/
theorem Holds.ne_of_notMem (h : r.Holds l) (ha : a ∈ nodes l) (hk : k ∉ l) :
    record k ≠ r.next a ∧ record k ≠ r.prev a := by
  constructor
  · intro heq
    exact hk (record_mem_nodes.mp (heq ▸ (h.next ha).1))
  · intro heq
    exact hk (record_mem_nodes.mp (heq ▸ (h.prev ha).1))

def collect {σ β : Type} (more : σ → Bool) (push : σ → β → σ) : List β → σ → σ
  | [], result => result
  | x :: xs, result => if more result then collect more push xs (push result x) else result

/-- Back from `cur` to the sentinel; the walk fails at a pointer that leads to no content, and if
it takes too many steps. -/
def walk {σ β : Type} (r : LinkRing κ) (content : RingNode κ → Option β) (more : σ → Bool)
    (push : σ → β → σ) : ℕ → RingNode κ → σ → Option σ
  | 0, _, _ => none
  | _ + 1, sentinel, result => some result
  | fuel + 1, cur, result =>
    if more result then
      (content cur).bind fun x => r.walk content more push fuel (r.prev cur) (push result x)
    else some result

theorem Linked.walk {σ β : Type} {content : RingNode κ → Option β} {more : σ → Bool}
    {push : σ → β → σ} (h : r.Linked (sentinel :: (l.map record ++ [b])))
    (hcontent : ∀ k ∈ l, (content (record k)).isSome = true) {fuel : ℕ} (hfuel : l.length < fuel)
    (result : σ) : r.walk content more push fuel (r.prev b) result =
      some (collect more push (l.reverse.filterMap fun k => content (record k)) result) := by
  induction l using List.reverseRecOn generalizing b fuel result with
  | nil =>
    obtain ⟨fuel,rfl⟩ := Nat.exists_eq_succ_of_ne_zero (Nat.ne_zero_of_lt hfuel)
    have hb : r.prev b = sentinel := h.2.1
    rw [hb]
    rfl
  | append_singleton l k ih =>
    rw [List.map_append, List.map_singleton, List.append_assoc, List.singleton_append,
      ← List.cons_append, linked_append_cons] at h
    obtain ⟨hl,-,hb,-⟩ := h
    obtain ⟨fuel,rfl⟩ := Nat.exists_eq_succ_of_ne_zero (Nat.ne_zero_of_lt hfuel)
    rw [List.length_append, List.length_singleton, Nat.succ_eq_add_one,
      Nat.add_lt_add_iff_right] at hfuel
    obtain ⟨x,hx⟩ := Option.isSome_iff_exists.mp (hcontent k (by simp))
    have hrest := ih hl (fun k' hk' => hcontent k' (List.mem_append_left _ hk')) hfuel (push result x)
    have hrecords : (l ++ [k]).reverse.filterMap (fun k => content (record k)) =
        x :: l.reverse.filterMap fun k => content (record k) := by
      simp [hx]
    rw [hb, LinkRing.walk, hrecords, collect]
    · cases more result with
      | false => rfl
      | true => rw [if_pos rfl, if_pos rfl, hx, Option.bind_some, hrest]
    · simp

theorem Holds.walk {σ β : Type} {content : RingNode κ → Option β} {more : σ → Bool}
    {push : σ → β → σ} (h : r.Holds l) (hcontent : ∀ k ∈ l, (content (record k)).isSome = true)
    {fuel : ℕ} (hfuel : l.length < fuel) (result : σ) :
    r.walk content more push fuel (r.prev sentinel) result =
      some (collect more push (l.reverse.filterMap fun k => content (record k)) result) :=
  h.linked.walk hcontent hfuel result

variable [DecidableEq κ]

def setNext (r : LinkRing κ) (a b : RingNode κ) : LinkRing κ :=
  { r with next := Function.update r.next a b }

def setPrev (r : LinkRing κ) (a b : RingNode κ) : LinkRing κ :=
  { r with prev := Function.update r.prev a b }

/-- The neighbours of a node are linked to each other, and its own pointers are cleared. -/
def remove (r : LinkRing κ) (n : RingNode κ) : LinkRing κ :=
  let r := r.setNext (r.prev n) (r.next n)
  let r := r.setPrev (r.next n) (r.prev n)
  let r := r.setPrev n null
  r.setNext n null

def pushFront (r : LinkRing κ) (n : RingNode κ) : LinkRing κ :=
  let r := r.setNext n (r.next sentinel)
  let r := r.setPrev n sentinel
  let r := r.setPrev (r.next sentinel) n
  r.setNext sentinel n

def clear (r : LinkRing κ) (n : RingNode κ) : LinkRing κ := (r.setPrev n null).setNext n null

theorem next_remove_of_ne (hx : a ≠ r.prev n) (hn : a ≠ n) :
    (r.remove n).next a = r.next a := by
  simp [remove, setNext, setPrev, Function.update_of_ne, hx, hn]

/-- The first write of `remove` keeps the pointer that the second one follows. -/
theorem next_setNext_prev : (r.setNext (r.prev n) (r.next n)).next n = r.next n := by
  by_cases hself : n = r.prev n
  · simp [setNext, ← hself]
  · simp [setNext, Function.update_of_ne hself]

theorem prev_remove_of_ne (hy : a ≠ r.next n) (hn : a ≠ n) : (r.remove n).prev a = r.prev a := by
  have hy' : a ≠ (r.setNext (r.prev n) (r.next n)).next n := by rwa [next_setNext_prev]
  rw [remove]
  simp only [setPrev, setNext, Function.update_of_ne hn] at hy' ⊢
  rw [Function.update_of_ne hy']

/-- Only the neighbours of a node see that it is unlinked. -/
theorem Linked.remove (h : r.Linked (as ++ x :: n :: y :: bs))
    (hfront : (as ++ x :: n :: (y :: bs).dropLast).Nodup)
    (hback : ((as ++ [x]).tail ++ n :: y :: bs).Nodup) :
    (r.remove n).Linked (as ++ x :: y :: bs) := by
  rw [linked_append_cons] at h ⊢
  obtain ⟨hleft,-,hx,hy,-,hright⟩ := h
  obtain ⟨-,hfront,hapart⟩ := List.nodup_append.mp hfront
  obtain ⟨hxn,hnright⟩ := List.nodup_cons.mp hfront
  obtain ⟨hnright,-⟩ := List.nodup_cons.mp hnright
  obtain ⟨-,hback,hapart'⟩ := List.nodup_append.mp hback
  obtain ⟨hny,hyright⟩ := List.nodup_cons.mp hback
  obtain ⟨hyright,-⟩ := List.nodup_cons.mp hyright
  have hxne : x ≠ n := fun heq => hxn (by simp [heq])
  have hyne : y ≠ n := fun heq => hny (by simp [heq])
  have hnext : ∀ a, a ≠ x → a ≠ n → (r.remove n).next a = r.next a := by
    intro a ha hn
    exact next_remove_of_ne (by rwa [hx]) hn
  have hprev : ∀ a, a ≠ y → a ≠ n → (r.remove n).prev a = r.prev a := by
    intro a ha hn
    exact prev_remove_of_ne (by rwa [hy]) hn
  refine ⟨?_,?_,?_,?_⟩
  · apply hleft.congr
    · intro a ha
      rw [List.dropLast_concat] at ha
      exact hnext a (fun heq => hapart a ha x (by simp) heq) fun heq => hapart a ha n (by simp) heq
    · intro a ha
      exact hprev a (fun heq => hapart' a ha y (by simp) heq) fun heq => hapart' a ha n (by simp) heq
  · simp [LinkRing.remove, setNext, setPrev, hx, hy, hxne, hxne.symm]
  · simp [LinkRing.remove, setNext, setPrev, hx, hy, hyne, hxne.symm]
  · apply hright.congr
    · intro a ha
      exact hnext a (fun heq => hxn (by simp [← heq, ha])) fun heq => hnright (heq ▸ ha)
    · intro a ha
      exact hprev a (fun heq => hyright (heq ▸ ha)) fun heq => hny (by
        rw [← heq]
        exact List.mem_cons_of_mem y ha)

theorem Linked.pushFront (h : r.Linked (sentinel :: y :: bs)) (hs : sentinel ∉ (y :: bs).dropLast)
    (hn : n ∉ y :: bs) (hnew : n ≠ sentinel) (hy : y ∉ bs) :
    (r.pushFront n).Linked (sentinel :: n :: y :: bs) := by
  obtain ⟨hnext,-,hrest⟩ := h
  obtain ⟨hny,hnbs⟩ : n ≠ y ∧ n ∉ bs := by simpa using hn
  refine ⟨?_,?_,?_,?_,?_⟩
  · simp [LinkRing.pushFront, setNext, setPrev]
  · simp [LinkRing.pushFront, setNext, setPrev, hnew.symm, hnext, hny]
  · simp [LinkRing.pushFront, setNext, setPrev, hnew, hnext]
  · simp [LinkRing.pushFront, setNext, setPrev, hnew.symm, hnext]
  · apply hrest.congr
    · intro a ha
      have has : a ≠ sentinel := fun heq => hs (heq ▸ ha)
      have han : a ≠ n := fun heq => hn (heq ▸ List.dropLast_subset _ ha)
      simp [LinkRing.pushFront, setNext, setPrev, has, han]
    · intro a ha
      have hay : a ≠ y := fun heq => hy (heq ▸ ha)
      have han : a ≠ n := fun heq => hnbs (heq ▸ ha)
      simp [LinkRing.pushFront, setNext, setPrev, hnew.symm, hnext, hay, han]

/-- Unlinking takes an element out of the list. -/
theorem Holds.remove (h : r.Holds (pre ++ k :: post)) : (r.remove (record k)).Holds (pre ++ post) := by
  have hnodup := h.nodup
  have hnodes := nodup_map_record hnodup
  rw [List.map_append, List.map_cons] at hnodes
  refine ⟨?_,(List.nodup_middle.mp hnodup).of_cons⟩
  have hlinked := h.linked
  -- the neighbours of the node on the way around
  obtain ⟨as,x,hleft⟩ : ∃ as x, sentinel :: pre.map record = as ++ [x] := by
    obtain ⟨as,x,heq⟩ := List.eq_nil_or_concat (sentinel :: pre.map record) |>.resolve_left (by simp)
    exact ⟨as,x,heq.trans (List.concat_eq_append)⟩
  obtain ⟨y,bs,hright⟩ : ∃ y bs, post.map record ++ [sentinel] = y :: bs :=
    List.exists_cons_of_ne_nil (by simp)
  have hpath : path (pre ++ k :: post) = as ++ x :: record k :: y :: bs := by
    simp only [path, List.map_append, List.map_cons, List.append_assoc, List.cons_append, hright]
    rw [← List.cons_append, hleft, List.append_assoc, List.singleton_append]
  have hpath' : path (pre ++ post) = as ++ x :: y :: bs := by
    simp only [path, List.map_append, List.append_assoc, hright]
    rw [← List.cons_append, hleft, List.append_assoc, List.singleton_append]
  have hlast : (y :: bs).dropLast = post.map record := by rw [← hright, List.dropLast_concat]
  have htail : (as ++ [x]).tail = pre.map record := by rw [← hleft, List.tail_cons]
  rw [hpath] at hlinked
  rw [hpath']
  apply hlinked.remove
  · rw [hlast, List.append_cons, ← hleft, List.cons_append]
    refine List.nodup_cons.mpr ⟨by simp,hnodes⟩
  · rw [htail, ← hright, ← List.cons_append, ← List.append_assoc, ← List.concat_eq_append,
      List.nodup_concat]
    exact ⟨by simp,hnodes⟩

theorem Holds.pushFront (h : r.Holds l) (hk : k ∉ l) : (r.pushFront (record k)).Holds (k :: l) := by
  obtain ⟨y,bs,hpath⟩ : ∃ y bs, l.map record ++ [sentinel] = y :: bs :=
    List.exists_cons_of_ne_nil (by simp)
  have hlinked := h.linked
  have hnodup : (y :: bs).Nodup := by
    rw [← hpath, ← List.concat_eq_append, List.nodup_concat]
    exact ⟨by simp,nodup_map_record h.nodup⟩
  refine ⟨?_,List.nodup_cons.mpr ⟨hk,h.nodup⟩⟩
  rw [path, hpath] at hlinked
  rw [path, List.map_cons, List.cons_append, hpath]
  apply hlinked.pushFront
  · rw [← hpath, List.dropLast_concat]
    exact sentinel_notMem
  · rw [← hpath]
    simpa using hk
  · simp
  · exact (List.nodup_cons.mp hnodup).1

/-- The pointers of a node that is not linked do not matter. -/
theorem Holds.clear (h : r.Holds l) (hk : k ∉ l) : (r.clear (record k)).Holds l := by
  refine ⟨?_,h.nodup⟩
  have hout : ∀ a ∈ path l, a ≠ record k := by
    rintro a ha rfl
    simp only [path, List.mem_cons, List.mem_append, List.mem_map] at ha
    simp [hk] at ha
  apply h.linked.congr
  · intro a ha
    have hne := hout a (List.dropLast_subset _ ha)
    simp [LinkRing.clear, setNext, setPrev, hne]
  · intro a ha
    have hne := hout a (List.mem_of_mem_tail ha)
    simp [LinkRing.clear, setNext, setPrev, hne]

def writeNext (r : LinkRing κ) (a b : RingNode κ) : Option (LinkRing κ) :=
  if a = null then none else some (r.setNext a b)

def writePrev (r : LinkRing κ) (a b : RingNode κ) : Option (LinkRing κ) :=
  if a = null then none else some (r.setPrev a b)

def tryRemove (r : LinkRing κ) (n : RingNode κ) : Option (LinkRing κ) := do
  let r ← r.writeNext (r.prev n) (r.next n)
  let r ← r.writePrev (r.next n) (r.prev n)
  let r ← r.writePrev n null
  r.writeNext n null

def tryPushFront (r : LinkRing κ) (n : RingNode κ) : Option (LinkRing κ) := do
  let r ← r.writeNext n (r.next sentinel)
  let r ← r.writePrev n sentinel
  let r ← r.writePrev (r.next sentinel) n
  r.writeNext sentinel n

theorem writeNext_of_ne (ha : a ≠ null) : r.writeNext a b = some (r.setNext a b) := if_neg ha

theorem writePrev_of_ne (ha : a ≠ null) : r.writePrev a b = some (r.setPrev a b) := if_neg ha

theorem Holds.tryRemove (h : r.Holds l) (hk : k ∈ l) :
    r.tryRemove (record k) = some (r.remove (record k)) := by
  have hnode := record_mem_nodes.mpr hk
  have hprev : r.prev (record k) ≠ null := fun heq => null_notMem_nodes (heq ▸ (h.prev hnode).1)
  have hnext : (r.setNext (r.prev (record k)) (r.next (record k))).next (record k) ≠ null := by
    rw [next_setNext_prev]
    exact fun heq => null_notMem_nodes (heq ▸ (h.next hnode).1)
  have hself : record k ≠ null := by simp
  simp only [LinkRing.tryRemove, writeNext_of_ne hprev, Option.bind_eq_bind, Option.bind_some,
    writePrev_of_ne hnext, writePrev_of_ne hself, writeNext_of_ne hself]
  rfl

theorem Holds.tryPushFront (h : r.Holds l) :
    r.tryPushFront (record k) = some (r.pushFront (record k)) := by
  have hself : record k ≠ null := by simp
  have hfirst : ((r.setNext (record k) (r.next sentinel)).setPrev (record k) sentinel).next
      sentinel ≠ null := by
    have hnode : (sentinel : RingNode κ) ∈ nodes l := List.mem_cons_self
    have hold : r.next sentinel ≠ null := fun heq => null_notMem_nodes (heq ▸ (h.next hnode).1)
    simpa [setNext, setPrev] using hold
  have hsentinel : (sentinel : RingNode κ) ≠ null := by simp
  simp only [LinkRing.tryPushFront, writeNext_of_ne hself, Option.bind_eq_bind, Option.bind_some,
    writePrev_of_ne hself, writePrev_of_ne hfirst, writeNext_of_ne hsentinel]
  rfl

theorem loose_remove_self : (r.remove (record k)).Loose k := by
  simp [Loose, remove, setNext, setPrev]

theorem loose_clear_self : (r.clear (record k)).Loose k := by
  simp [Loose, clear, setNext, setPrev]

theorem Loose.clear (h : r.Loose k) (n : RingNode κ) : (r.clear n).Loose k := by
  by_cases hn : record k = n
  · subst hn
    exact loose_clear_self
  · simpa [Loose, LinkRing.clear, setNext, setPrev, Function.update_of_ne hn] using h

/-- Unlinking a node does not touch a record outside the ring. -/
theorem Loose.remove {k' : κ} (h : r.Loose k') (hr : r.Holds l) (hk : k ∈ l) (hk' : k' ∉ l) :
    (r.remove (record k)).Loose k' := by
  have hnode := record_mem_nodes.mpr hk
  have hne : record k' ≠ record k := fun heq => hk' (RingNode.record.inj heq ▸ hk)
  obtain ⟨hn,hp⟩ := hr.ne_of_notMem hnode hk'
  obtain ⟨hnext,hprev⟩ := h
  constructor
  · rw [next_remove_of_ne hp hne, hnext]
  · rw [prev_remove_of_ne hn hne, hprev]

theorem Loose.pushFront {k' : κ} (h : r.Loose k') (hr : r.Holds l) (hk : k' ≠ k) (hk' : k' ∉ l) :
    (r.pushFront (record k)).Loose k' := by
  have hnode : (sentinel : RingNode κ) ∈ nodes l := List.mem_cons_self
  obtain ⟨hn,-⟩ := hr.ne_of_notMem hnode hk'
  obtain ⟨hnext,hprev⟩ := h
  constructor
  · simp [LinkRing.pushFront, setNext, setPrev, hk, hnext]
  · simp [LinkRing.pushFront, setNext, setPrev, hk, hn, hprev]

end LinkRing

end FalconKV
