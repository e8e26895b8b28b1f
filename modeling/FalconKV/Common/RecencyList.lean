import Mathlib.Data.List.Dedup
import Mathlib.Data.List.AList

/-! # Two containers of an index

A recency list keeps distinct elements in the order of their last use. The lemmas
on association lists say how an update permutes their entries.
-/
namespace FalconKV

structure RecencyList (α : Type) where
  items : List α
  nodup : items.Nodup

namespace RecencyList
variable {α : Type}

def empty : RecencyList α := ⟨[],List.nodup_nil⟩

/-- From the least recently used element on. -/
def coldest (l : RecencyList α) : List α := l.items.reverse

@[simp] theorem items_empty : (empty : RecencyList α).items = [] := rfl

@[simp] theorem mem_coldest {l : RecencyList α} {a : α} : a ∈ l.coldest ↔ a ∈ l.items :=
  List.mem_reverse

theorem nodup_coldest (l : RecencyList α) : l.coldest.Nodup := List.nodup_reverse.mpr l.nodup

variable [DecidableEq α]

def remove (l : RecencyList α) (a : α) : RecencyList α := ⟨l.items.erase a,l.nodup.erase a⟩

def pushFront (l : RecencyList α) (a : α) : RecencyList α :=
  ⟨a :: l.items.erase a,List.nodup_cons.mpr ⟨l.nodup.not_mem_erase,l.nodup.erase a⟩⟩

@[simp] theorem mem_remove {l : RecencyList α} {a b : α} :
    b ∈ (l.remove a).items ↔ b ≠ a ∧ b ∈ l.items := l.nodup.mem_erase_iff

@[simp] theorem mem_pushFront {l : RecencyList α} {a b : α} :
    b ∈ (l.pushFront a).items ↔ b = a ∨ b ∈ l.items := by
  by_cases h : b = a <;> simp [pushFront, l.nodup.mem_erase_iff, h]

theorem length_remove {l : RecencyList α} {a : α} (h : a ∈ l.items) :
    (l.remove a).items.length = l.items.length - 1 := List.length_erase_of_mem h

theorem length_pushFront {l : RecencyList α} {a : α} (h : a ∉ l.items) :
    (l.pushFront a).items.length = l.items.length + 1 := by
  simp [pushFront, List.erase_of_not_mem h]

/-- What is left when the least recently used element goes. -/
theorem coldest_remove {l : RecencyList α} {a : α} {rest : List α} (h : l.coldest = a :: rest) :
    (l.remove a).coldest = rest := by
  have hn : (a :: rest).Nodup := h ▸ l.nodup_coldest
  have hitems : l.items = rest.reverse ++ [a] := by
    rw [← List.reverse_reverse l.items, ← coldest, h, List.reverse_cons]
  have hnot : a ∉ rest.reverse := fun hm => (List.nodup_cons.mp hn).1 (List.mem_reverse.mp hm)
  have herase : l.items.erase a = rest.reverse := by
    rw [hitems, List.erase_append_right _ hnot]
    simp
  calc (l.remove a).coldest = (l.items.erase a).reverse := rfl
    _ = rest := by rw [herase, List.reverse_reverse]

theorem coldest_remove_eq_filter (l : RecencyList α) (a : α) :
    (l.remove a).coldest = l.coldest.filter (· ≠ a) := by
  have hfilter : l.items.erase a = l.items.filter (· ≠ a) := by
    rw [l.nodup.erase_eq_filter]
    apply List.filter_congr
    intro b _
    by_cases hb : b = a <;> simp [hb]
  calc (l.remove a).coldest = (l.items.filter (· ≠ a)).reverse := by rw [← hfilter]; rfl
    _ = l.coldest.filter (· ≠ a) := by rw [coldest, List.filter_reverse]

theorem coldest_touch (l : RecencyList α) (a : α) :
    ((l.remove a).pushFront a).coldest = l.coldest.filter (· ≠ a) ++ [a] := by
  have herase : (l.items.erase a).erase a = l.items.erase a :=
    List.erase_of_not_mem l.nodup.not_mem_erase
  calc ((l.remove a).pushFront a).coldest = (a :: (l.items.erase a).erase a).reverse := rfl
    _ = (l.remove a).coldest ++ [a] := by rw [herase, List.reverse_cons]; rfl
    _ = l.coldest.filter (· ≠ a) ++ [a] := by rw [coldest_remove_eq_filter]

theorem coldest_remove_sublist (l : RecencyList α) (a : α) :
    (l.remove a).coldest.Sublist l.coldest := List.reverse_sublist.mpr List.erase_sublist

theorem remove_of_notMem {l : RecencyList α} {a : α} (h : a ∉ l.items) : l.remove a = l := by
  cases l
  simp only [remove, RecencyList.mk.injEq]
  exact List.erase_of_not_mem h

/-- An order of the elements that makes the one that is used now the last one. -/
theorem pairwise_touch {R R' : α → α → Prop} {l : RecencyList α} {a : α} (h : l.coldest.Pairwise R)
    (hkeep : ∀ b c, b ≠ a → c ≠ a → R b c → R' b c) (hlast : ∀ b ∈ l.items, b ≠ a → R' b a) :
    ((l.remove a).pushFront a).coldest.Pairwise R' := by
  rw [coldest_touch]
  apply List.pairwise_append.mpr
  refine ⟨?_,List.pairwise_singleton _ _,?_⟩
  · apply (h.filter _).imp_of_mem
    intro b c hb hc hbc
    exact hkeep b c (of_decide_eq_true (List.mem_filter.mp hb).2)
      (of_decide_eq_true (List.mem_filter.mp hc).2) hbc
  · intro b hb c hc
    obtain ⟨hb,hne⟩ := List.mem_filter.mp hb
    rw [List.mem_singleton.mp hc]
    exact hlast b (mem_coldest.mp hb) (of_decide_eq_true hne)

end RecencyList

section Entries
variable {κ β : Type} [DecidableEq κ]

/-- The entry that a lookup finds, brought to the front. -/
theorem perm_kerase_of_dlookup {k : κ} {v : β} {l : List ((_ : κ) × β)}
    (h : l.dlookup k = some v) : l.Perm (⟨k,v⟩ :: l.kerase k) := by
  induction l with
  | nil => cases h
  | cons e l ih =>
    obtain ⟨k',v'⟩ := e
    by_cases hk : k = k'
    · subst hk
      rw [List.dlookup_cons_eq] at h
      cases h
      have hl : List.kerase k ((⟨k,v⟩ : (_ : κ) × β) :: l) = l := by simp [List.kerase]
      rw [hl]
    · rw [List.dlookup_cons_ne _ _ hk] at h
      rw [List.kerase_cons_ne hk]
      exact ((ih h).cons _).trans (List.Perm.swap _ _ _)

variable {m : AList fun _ : κ => β} {k : κ} {v : β}

theorem AList_entries_insert_of_none (h : m.lookup k = none) :
    (m.insert k v).entries = ⟨k,v⟩ :: m.entries :=
  AList.entries_insert_of_notMem (AList.lookup_eq_none.mp h)

theorem AList_entries_insert_perm {v₀ : β} (h : m.lookup k = some v₀) :
    (⟨k,v₀⟩ :: (m.insert k v).entries).Perm (⟨k,v⟩ :: m.entries) := by
  rw [AList.entries_insert]
  exact (List.Perm.swap _ _ _).trans ((perm_kerase_of_dlookup h).symm.cons _)

theorem AList_entries_erase_perm (h : m.lookup k = some v) :
    m.entries.Perm (⟨k,v⟩ :: (m.erase k).entries) := perm_kerase_of_dlookup h

end Entries

end FalconKV
