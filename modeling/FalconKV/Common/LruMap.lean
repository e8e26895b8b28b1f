import Mathlib.Data.List.Nodup

/-! # Maps that forget what was used longest ago

The entries of a map in the order of their last use, within a capacity. A map of capacity 0
still holds the entry that was inserted last.
-/
namespace FalconKV

@[ext] structure LruMap (κ β : Type) where
  capacity : ℕ
  entries : List (κ × β)
  nodup : (entries.map Prod.fst).Nodup
  bounded : entries.length ≤ max capacity 1

namespace LruMap
variable {κ β : Type} {es es' : List (κ × β)} {k k' : κ} {v v' : β}

def empty (capacity : ℕ) : LruMap κ β := ⟨capacity,[],List.nodup_nil,Nat.zero_le _⟩

def keys (l : LruMap κ β) : List κ := l.entries.map Prod.fst

def surplus (l : LruMap κ β) : ℕ := l.entries.length + 1 - max l.capacity 1

theorem nodup_added (l : LruMap κ β) (h : k ∉ l.keys) (v : β) :
    ((l.entries.drop l.surplus ++ [(k,v)]).map Prod.fst).Nodup := by
  have hsub := (List.drop_sublist l.surplus l.entries).map Prod.fst
  rw [List.map_append, List.map_singleton, List.nodup_append_comm]
  exact List.nodup_cons.mpr ⟨fun hmem => h (hsub.subset hmem),l.nodup.sublist hsub⟩

theorem length_added (l : LruMap κ β) (k : κ) (v : β) :
    (l.entries.drop l.surplus ++ [(k,v)]).length ≤ max l.capacity 1 := by
  simp only [surplus, List.length_append, List.length_drop, List.length_cons, List.length_nil]
  omega

variable [DecidableEq κ]

def others (k : κ) (es : List (κ × β)) : List (κ × β) := es.filter fun e => e.1 ≠ k

theorem mem_others : (k',v) ∈ others k es ↔ (k',v) ∈ es ∧ k' ≠ k := by simp [others]

theorem others_sublist (k : κ) (es : List (κ × β)) : (others k es).Sublist es := List.filter_sublist

theorem others_of_notMem (h : k ∉ es.map Prod.fst) : others k es = es := by
  refine List.filter_eq_self.mpr fun e he => ?_
  simp only [ne_eq, decide_eq_true_eq]
  rintro rfl
  exact h (List.mem_map_of_mem he)

theorem others_split (es es' : List (κ × β)) (k : κ) (v : β) :
    others k (es ++ (k,v) :: es') = others k (es ++ es') := by simp [others]

/-- The entry of a key takes the place of the most recent one. -/
theorem nodup_moved (h : (es.map Prod.fst).Nodup) (k : κ) (v : β) :
    ((others k es ++ [(k,v)]).map Prod.fst).Nodup := by
  rw [List.map_append, List.map_singleton, List.nodup_append_comm]
  refine List.nodup_cons.mpr ⟨?_,h.sublist ((others_sublist k es).map _)⟩
  intro hmem
  obtain ⟨e,he,hk⟩ := List.mem_map.mp hmem
  have hne := (mem_others (v := e.2)).mp he
  exact hne.2 hk

theorem length_moved (h : k ∈ es.map Prod.fst) (v : β) :
    (others k es ++ [(k,v)]).length ≤ es.length := by
  obtain ⟨e,he,rfl⟩ := List.mem_map.mp h
  obtain ⟨pre,post,rfl⟩ := List.append_of_mem he
  have hsub := (others_sublist e.1 (pre ++ post)).length_le
  have hsplit := others_split pre post e.1 e.2
  simp only [List.length_append, List.length_cons, List.length_nil] at hsub ⊢
  rw [hsplit]
  omega

def find (l : LruMap κ β) (k : κ) : Option β := (l.entries.find? fun e => e.1 == k).map Prod.snd

/-- Look a key up: its value is changed by `f`, and it is the most recent one now. -/
def use (l : LruMap κ β) (k : κ) (f : β → β) : LruMap κ β :=
  match l.find k with
  | none => l
  | some v =>
    if h : k ∈ l.keys then
      ⟨l.capacity,others k l.entries ++ [(k,f v)],nodup_moved l.nodup k (f v),
        Nat.le_trans (length_moved h (f v)) l.bounded⟩
    else l

def insert (l : LruMap κ β) (k : κ) (v : β) : LruMap κ β :=
  if h : k ∈ l.keys then
    ⟨l.capacity,others k l.entries ++ [(k,v)],nodup_moved l.nodup k v,
      Nat.le_trans (length_moved h v) l.bounded⟩
  else ⟨l.capacity,l.entries.drop l.surplus ++ [(k,v)],l.nodup_added h v,l.length_added k v⟩

def erase (l : LruMap κ β) (k : κ) : LruMap κ β :=
  ⟨l.capacity,others k l.entries,l.nodup.sublist ((others_sublist k l.entries).map _),
    Nat.le_trans (others_sublist k l.entries).length_le l.bounded⟩

def clear (l : LruMap κ β) : LruMap κ β := empty l.capacity

variable {l : LruMap κ β}

theorem find_eq_some : l.find k = some v ↔ (k,v) ∈ l.entries := by
  constructor
  · intro h
    obtain ⟨e,he,rfl⟩ := Option.map_eq_some_iff.mp h
    have hk : e.1 = k := by simpa using List.find?_some he
    rw [← hk]
    exact List.mem_of_find?_eq_some he
  · intro h
    unfold find
    cases hfind : l.entries.find? fun e => e.1 == k with
    | none => exact absurd (List.find?_eq_none.mp hfind _ h) (by simp)
    | some e =>
      have hk : e.1 = k := by simpa using List.find?_some hfind
      have he := List.mem_of_find?_eq_some hfind
      have hsame : e = (k,v) := List.inj_on_of_nodup_map l.nodup he h hk
      rw [hsame]
      rfl

theorem find_eq_none : l.find k = none ↔ k ∉ l.keys := by
  constructor
  · intro hnone hk
    obtain ⟨e,he,rfl⟩ := List.mem_map.mp hk
    have hsome : l.find e.1 = some e.2 := find_eq_some.mpr he
    rw [hnone] at hsome
    cases hsome
  · intro hk
    cases hfind : l.find k with
    | none => rfl
    | some v => exact absurd (List.mem_map_of_mem (find_eq_some.mp hfind)) hk

theorem mem_keys_of_find (h : l.find k = some v) : k ∈ l.keys :=
  List.mem_map_of_mem (find_eq_some.mp h)

theorem use_of_none {f : β → β} (h : l.find k = none) : l.use k f = l := by
  unfold use
  rw [h]

theorem entries_use {f : β → β} (h : l.find k = some v) :
    (l.use k f).entries = others k l.entries ++ [(k,f v)] := by
  simp [use, h, mem_keys_of_find h]

theorem capacity_use (l : LruMap κ β) (k : κ) (f : β → β) : (l.use k f).capacity = l.capacity := by
  unfold use
  split
  · rfl
  · split <;> rfl

theorem entries_insert_of_mem (h : k ∈ l.keys) (v : β) :
    (l.insert k v).entries = others k l.entries ++ [(k,v)] := by rw [insert, dif_pos h]

theorem entries_insert_of_notMem (h : k ∉ l.keys) (v : β) :
    (l.insert k v).entries = l.entries.drop l.surplus ++ [(k,v)] := by rw [insert, dif_neg h]

theorem capacity_insert (l : LruMap κ β) (k : κ) (v : β) : (l.insert k v).capacity = l.capacity := by
  unfold insert
  split <;> rfl

theorem find_of_use {f : β → β} (h : (l.use k f).find k' = some v') :
    (k' = k ∧ ∃ v, l.find k = some v ∧ v' = f v) ∨ (k' ≠ k ∧ l.find k' = some v') := by
  cases hfind : l.find k with
  | none =>
    rw [use_of_none hfind] at h
    refine .inr ⟨?_,h⟩
    rintro rfl
    rw [hfind] at h
    cases h
  | some v =>
    have hmem := find_eq_some.mp h
    rw [entries_use hfind] at hmem
    rcases List.mem_append.mp hmem with hold | hnew
    · obtain ⟨hold,hne⟩ := mem_others.mp hold
      exact .inr ⟨hne,find_eq_some.mpr hold⟩
    · obtain ⟨rfl,rfl⟩ := Prod.mk.inj (List.mem_singleton.mp hnew)
      exact .inl ⟨rfl,v,rfl,rfl⟩

theorem find_of_insert (h : (l.insert k v).find k' = some v') :
    (k' = k ∧ v' = v) ∨ (k' ≠ k ∧ l.find k' = some v') := by
  have hmem := find_eq_some.mp h
  by_cases hk : k ∈ l.keys
  · rw [entries_insert_of_mem hk] at hmem
    rcases List.mem_append.mp hmem with hold | hnew
    · obtain ⟨hold,hne⟩ := mem_others.mp hold
      exact .inr ⟨hne,find_eq_some.mpr hold⟩
    · exact .inl (Prod.mk.inj (List.mem_singleton.mp hnew))
  · rw [entries_insert_of_notMem hk] at hmem
    rcases List.mem_append.mp hmem with hold | hnew
    · have hentry := List.mem_of_mem_drop hold
      refine .inr ⟨?_,find_eq_some.mpr hentry⟩
      rintro rfl
      exact hk (List.mem_map_of_mem hentry)
    · exact .inl (Prod.mk.inj (List.mem_singleton.mp hnew))

theorem find_of_erase (h : (l.erase k).find k' = some v') : k' ≠ k ∧ l.find k' = some v' := by
  obtain ⟨hold,hne⟩ := mem_others.mp (find_eq_some.mp h)
  exact ⟨hne,find_eq_some.mpr hold⟩

end LruMap

end FalconKV
