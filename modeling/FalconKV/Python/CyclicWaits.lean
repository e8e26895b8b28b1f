import FalconKV.AtomicCalls.Discipline
import FalconKV.Python.Extension

/-! # Waits of the Python extension

Every call and every task is followed with what it holds: the GIL, the table, or neither. A
thread that may still lock the table holds the GIL, so nobody can lock it first, unless
the table was held when the thread entered.
-/
namespace FalconKV
open AtomicCalls

namespace PyExtension
variable {s : PyExtension} {handle handle' i i' : ℕ}

theorem workerPhase_modify {f : FalconKVBridge → FalconKVBridge} (hf : ∀ b, (f b).workers = b.workers) :
    (s.modify handle f).workerPhase handle' i = s.workerPhase handle' i := by
  unfold workerPhase bridge modify
  by_cases h : handle' = handle
  · subst h
    cases hobject : s.objects handle' with
    | none => simp
    | some b => simp [hf]
  · simp [Function.update_of_ne h]

theorem workerPhase_setWorker_of_ne (phase : WorkerPhase) (h : (handle',i') ≠ (handle,i)) :
    (s.setWorker handle i phase).workerPhase handle' i' = s.workerPhase handle' i' := by
  unfold workerPhase bridge setWorker modify
  by_cases hh : handle' = handle
  · subst hh
    have hi : i ≠ i' := fun hi => h (by rw [hi])
    cases hobject : s.objects handle' with
    | none => simp
    | some b => simp [List.getElem?_set_ne hi]
  · simp [Function.update_of_ne hh]

theorem workerPhase_setWorker_self {phase phase' : WorkerPhase} (h : s.workerPhase handle i = some phase') :
    (s.setWorker handle i phase).workerPhase handle i = some phase := by
  unfold workerPhase bridge at h ⊢
  unfold setWorker modify
  cases hobject : s.objects handle with
  | none => simp [hobject] at h
  | some b =>
    rw [hobject, Option.getD_some] at h
    obtain ⟨hi,-⟩ := List.getElem?_eq_some_iff.mp h
    simp [List.getElem?_set_self hi]

theorem workerPhase_update_of_ne {b : FalconKVBridge} {s' : PyExtension}
    (hs : s'.objects = Function.update s.objects handle (some b)) (h : handle' ≠ handle) :
    s'.workerPhase handle' i = s.workerPhase handle' i := by
  unfold workerPhase bridge
  rw [hs, Function.update_of_ne h]

theorem objects_of_workerPhase {phase : WorkerPhase} (h : s.workerPhase handle i = some phase) :
    s.objects handle ≠ none := by
  intro hnone
  unfold workerPhase bridge at h
  simp [hnone] at h

end PyExtension

inductive PyPlace
  /-- with the GIL -/
  | inside
  /-- with the GIL and the table -/
  | locked
  /-- with the table -/
  | closing
  /-- with neither -/
  | away
  /-- with the GIL, and past the table -/
  | back
  deriving DecidableEq

namespace PyPlace

def hasGil : PyPlace → Bool
  | inside | locked | back => true
  | closing | away => false

def hasTable : PyPlace → Bool
  | locked | closing => true
  | inside | away | back => false

def release : PyPlace → PyPlace
  | locked | closing => closing
  | inside | away | back => away

def acquire : PyPlace → PyPlace
  | locked | closing => locked
  | inside | away | back => back

end PyPlace

abbrev PyToken := PyThread × PyPlace

namespace PyToken

def rule : (op : PyCall) → op.Res → Multiset PyToken → Multiset PyToken → Prop
  | .enter, n, used, made => used = 0 ∧ made = {(.call n,.inside)}
  | .leave n, _, used, made => ∃ p, PyPlace.hasGil p = true ∧ PyPlace.hasTable p = false ∧
      used = {(.call n,p)} ∧ made = 0
  | .releaseGil t, _, used, made => ∃ p, PyPlace.hasGil p = true ∧ used = {(t,p)} ∧
      made = {(t,p.release)}
  | .acquireGil t, _, used, made => ∃ p, PyPlace.hasGil p = false ∧ used = {(t,p)} ∧
      made = {(t,p.acquire)}
  | .lockBridges n, _, used, made => used = {(.call n,.inside)} ∧ made = {(.call n,.locked)}
  | .unlockBridges n, _, used, made => used = {(.call n,.locked)} ∧ made = {(.call n,.inside)}
  | .drainQueue n _, _, used, made => used = {(.call n,.closing)} ∧ made = {(.call n,.closing)}
  | .join n _, _, used, made => used = {(.call n,.closing)} ∧ made = {(.call n,.closing)}
  | .takeTask handle i, _, used, made => used = 0 ∧ made = {(.worker handle i,.away)}
  | .endTask handle i, _, used, made => used = {(.worker handle i,.away)} ∧ made = 0
  | _, _, used, made => used = 0 ∧ made = 0

end PyToken

def pyPlaces : Discipline pyCalls (Multiset PyToken) := ⟨fun _ _ => True,PyToken.rule⟩

namespace PyExtension

abbrev Stands {α : Type} (post : α → Multiset PyToken → Prop) (p : PyProg α) (g : Multiset PyToken) :
    Prop := Uses pyPlaces post p g

section Programs
variable {α β : Type} {post : β → Multiset PyToken → Prop}

/-- A call of a program by the rule of its operation, with nothing else held. -/
theorem stands_call {op : PyCall} {used m : Multiset PyToken} {k : op.Res → PyProg β}
    (hrule : ∀ r, PyToken.rule op r used m) (hk : ∀ r, Stands post (k r) m) :
    Stands post (invokePy op >>= k) used :=
  uses_perform fun r _ => ⟨used,m,0,hrule r,(add_zero used).symm,(add_zero m).symm ▸ hk r⟩

theorem stands_skip {op : PyCall} {g : Multiset PyToken} {k : op.Res → PyProg β}
    (hrule : ∀ r, PyToken.rule op r 0 0) (hk : ∀ r, Stands post (k r) g) :
    Stands post (invokePy op >>= k) g := uses_idle hrule fun r _ => hk r

theorem stands_last {op : PyCall} {used m : Multiset PyToken} (hrule : ∀ r, PyToken.rule op r used m) :
    Uses pyPlaces (fun _ g => g = m) (invokePy op) used :=
  uses_perform (k := pure) fun r _ => ⟨used,m,0,hrule r,(add_zero used).symm,add_zero m⟩

theorem stands_idle {op : PyCall} {g : Multiset PyToken} (hrule : ∀ r, PyToken.rule op r 0 0) :
    Uses pyPlaces (fun _ g' => g' = g) (invokePy op) g :=
  stands_skip (k := pure) hrule fun _ => rfl

theorem stands_bind {p : PyProg α} {f : α → PyProg β} {g m : Multiset PyToken}
    (hp : Stands (fun _ g' => g' = m) p g) (hf : ∀ a, Stands post (f a) m) :
    Stands post (p >>= f) g := uses_bind (uses_mono hp fun a _ hg => hg ▸ hf a)

end Programs

section Programs
variable {n handle i : ℕ}

theorem stands_leave {p : PyPlace} (hgil : p.hasGil = true) (htable : p.hasTable = false) :
    Stands (fun _ g => g = 0) (invokePy (.leave n)) {(.call n,p)} :=
  stands_last fun _ => ⟨p,hgil,htable,rfl,rfl⟩

theorem stands_bridgeToHandle :
    Stands (fun _ g => g = {(.call n,.inside)}) (bridgeToHandle n handle) {(.call n,.inside)} := by
  refine stands_call (m := {(.call n,.locked)}) (fun _ => ⟨rfl,rfl⟩) fun _ => ?_
  refine stands_skip (fun _ => ⟨rfl,rfl⟩) fun _ => ?_
  exact stands_last fun _ => ⟨rfl,rfl⟩

theorem stands_handleToBridge :
    Stands (fun _ g => g = {(.call n,.inside)}) (handleToBridge n handle) {(.call n,.inside)} := by
  refine stands_skip (fun _ => ⟨rfl,rfl⟩) ?_
  rintro (_ | _)
  · exact rfl
  · refine stands_call (m := {(.call n,.locked)}) (fun _ => ⟨rfl,rfl⟩) fun _ => ?_
    refine stands_skip (fun _ => ⟨rfl,rfl⟩) fun _ => ?_
    refine stands_call (m := {(.call n,.inside)}) (fun _ => ⟨rfl,rfl⟩) fun _ => ?_
    exact rfl

theorem stands_withArguments {body : ℕ → PyProg Unit}
    (hbody : ∀ n, Stands (fun _ g => g = 0) (body n) {(.call n,.inside)}) :
    Stands (fun _ g => g = 0) (withArguments body) 0 := by
  refine uses_perform fun (n : ℕ) _ => ⟨0,{(.call n,.inside)},0,⟨rfl,rfl⟩,rfl,?_⟩
  rw [add_zero]
  refine stands_skip (fun _ => ⟨rfl,rfl⟩) ?_
  rintro (_ | _)
  · exact stands_leave rfl rfl
  · exact hbody n

theorem stands_onBridge {body : ℕ → PyProg Unit}
    (hbody : ∀ n, Stands (fun _ g => g = 0) (body n) {(.call n,.inside)}) :
    Stands (fun _ g => g = 0) (onBridge handle body) 0 := by
  refine stands_withArguments fun n => stands_bind stands_handleToBridge ?_
  rintro (_ | _)
  · exact stands_leave rfl rfl
  · refine stands_skip (fun _ => ⟨rfl,rfl⟩) ?_
    rintro (_ | _)
    · exact stands_leave rfl rfl
    · exact hbody n

theorem stands_syncCall : Stands (fun _ g => g = 0) (syncCall handle) 0 := by
  refine stands_onBridge fun n => ?_
  refine stands_call (m := {(.call n,.away)}) (fun _ => ⟨.inside,rfl,rfl,rfl⟩) fun _ => ?_
  refine stands_skip (fun _ => ⟨rfl,rfl⟩) fun _ => ?_
  refine stands_call (m := {(.call n,.back)}) (fun _ => ⟨.away,rfl,rfl,rfl⟩) fun _ => ?_
  exact stands_leave rfl rfl

theorem stands_closeBridge :
    Stands (fun _ g => g = {(.call n,.closing)}) (FalconKVBridge.close n handle) {(.call n,.closing)} := by
  refine stands_call (m := {(.call n,.closing)}) (fun _ => ⟨rfl,rfl⟩) fun _ => ?_
  refine stands_skip (fun _ => ⟨rfl,rfl⟩) ?_
  rintro (_ | _)
  · exact stands_last fun _ => ⟨rfl,rfl⟩
  · exact rfl

theorem stands_closeFound (found : Bool) :
    Stands (fun _ g => g = {(.call n,.locked)}) (closeFound n handle found) {(.call n,.locked)} := by
  cases found with
  | false => exact rfl
  | true =>
    refine stands_call (m := {(.call n,.closing)}) (fun _ => ⟨.locked,rfl,rfl,rfl⟩) fun _ => ?_
    refine stands_bind stands_closeBridge fun _ => ?_
    refine stands_bind stands_closeBridge fun _ => ?_
    refine stands_skip (fun _ => ⟨rfl,rfl⟩) fun _ => ?_
    exact stands_last fun _ => ⟨.closing,rfl,rfl,rfl⟩

theorem stands_close : Stands (fun _ g => g = 0) (close handle) 0 := by
  refine stands_withArguments fun n => stands_skip (fun _ => ⟨rfl,rfl⟩) ?_
  rintro (_ | _)
  · exact stands_leave rfl rfl
  · refine stands_call (m := {(.call n,.locked)}) (fun _ => ⟨rfl,rfl⟩) fun _ => ?_
    refine stands_skip (fun _ => ⟨rfl,rfl⟩) fun found => ?_
    refine stands_bind (stands_closeFound found) fun _ => ?_
    refine stands_call (m := {(.call n,.inside)}) (fun _ => ⟨rfl,rfl⟩) fun _ => ?_
    exact stands_leave rfl rfl

theorem stands_handOver {t : PyThread} (switches : Bool) :
    Stands (fun _ g => g = {(t,.back)}) (handOver t switches) {(t,.back)} := by
  cases switches with
  | false => exact rfl
  | true =>
    refine stands_call (m := {(t,.away)}) (fun _ => ⟨.back,rfl,rfl,rfl⟩) fun _ => ?_
    exact stands_last fun _ => ⟨.away,rfl,rfl,rfl⟩

theorem stands_fireAndForgetCallback {switches : ℕ → Bool} (count : ℕ) :
    Stands (fun _ g => g = {(.worker handle i,.away)})
      (fireAndForgetCallback switches handle i count) {(.worker handle i,.away)} := by
  refine stands_call (m := {(.worker handle i,.back)}) (fun _ => ⟨.away,rfl,rfl,rfl⟩) fun _ => ?_
  refine stands_bind (m := {(.worker handle i,.back)}) ?_ fun _ =>
    stands_last fun _ => ⟨.back,rfl,rfl,rfl⟩
  generalize List.range count = js
  induction js with
  | nil => exact rfl
  | cons j js ih =>
    rw [Prog.forEach_cons]
    refine stands_bind (m := {(.worker handle i,.back)}) ?_ fun _ => ih
    refine stands_bind (stands_handOver (switches j)) fun _ => ?_
    exact stands_idle fun _ => ⟨rfl,rfl⟩

theorem stands_start (start : PyStart) : Stands (fun _ g => g = 0) start.run 0 := by
  cases start with
  | init =>
    refine stands_withArguments fun n => stands_skip (fun _ => ⟨rfl,rfl⟩) ?_
    rintro (_ | handle)
    · exact stands_leave rfl rfl
    · exact stands_bind stands_bridgeToHandle fun _ => stands_leave rfl rfl
  | batchExistSync handle | batchPutSync handle | batchGetSync handle => exact stands_syncCall
  | fireAndForgetPut handle count =>
    refine stands_onBridge fun n => stands_skip (fun _ => ⟨rfl,rfl⟩) fun _ => ?_
    exact stands_leave rfl rfl
  | close handle => exact stands_close
  | task switches handle i =>
    refine uses_perform fun count _ => ⟨0,{(.worker handle i,.away)},0,⟨rfl,rfl⟩,rfl,?_⟩
    rw [add_zero]
    refine stands_skip (fun _ => ⟨rfl,rfl⟩) fun _ => ?_
    refine stands_bind (stands_fireAndForgetCallback count) fun _ => ?_
    exact stands_last fun _ => ⟨rfl,rfl⟩
  | endWorker handle i => exact stands_last fun _ => ⟨rfl,rfl⟩

end Programs

end PyExtension

def PyThread.Known (s : PyExtension) : PyThread → Prop
  | call n => n < s.nextCall
  | worker handle i => s.workerPhase handle i = some .inTask

structure PyPlace.Fits (s : PyExtension) (t : PyThread) (p : PyPlace) : Prop where
  known : t.Known s
  gil : s.gil = some t ↔ p.hasGil = true
  table : p.hasTable = true → ∃ n, t = .call n ∧ s.bridgesMutex = some n
  inside : p = .inside → s.bridgesMutex = none

structure Placed (s : PyExtension) (g : Multiset PyToken) : Prop where
  nodup : (g.map Prod.fst).Nodup
  fits : ∀ x ∈ g, x.2.Fits s x.1
  owner : ∀ t, s.gil = some t → t ∈ g.map Prod.fst
  fresh : ∀ handle, s.nextHandle ≤ handle → s.objects handle = none

namespace Placed
variable {s s' : PyExtension} {g : Multiset PyToken} {t : PyThread} {p p' : PyPlace}

theorem head (h : Placed s ({(t,p)} + g)) : p.Fits s t := h.fits (t,p) (by simp)

theorem fst_ne (h : Placed s ({(t,p)} + g)) {x : PyToken} (hx : x ∈ g) : x.1 ≠ t := by
  have hnodup := h.nodup
  rw [Multiset.map_add, Multiset.map_singleton, Multiset.singleton_add, Multiset.nodup_cons] at hnodup
  intro hxt
  have hmem := Multiset.mem_map_of_mem Prod.fst hx
  rw [hxt] at hmem
  exact hnodup.1 hmem

theorem rest (h : Placed s ({(t,p)} + g)) {x : PyToken} (hx : x ∈ g) : x.2.Fits s x.1 :=
  h.fits x (Multiset.mem_add.mpr (.inr hx))

/-- A thread moves on, and nothing else changes for the others. -/
theorem move (h : Placed s ({(t,p)} + g)) (hp : p'.Fits s' t)
    (hothers : ∀ x ∈ g, x.1 ≠ t → x.2.Fits s x.1 → x.2.Fits s' x.1)
    (hgil : ∀ u, u ≠ t → s'.gil = some u → s.gil = some u)
    (hfresh : ∀ handle, s'.nextHandle ≤ handle → s'.objects handle = none) :
    Placed s' ({(t,p')} + g) := by
  refine ⟨?_,?_,?_,hfresh⟩
  · have hnodup := h.nodup
    rw [Multiset.map_add, Multiset.map_singleton] at hnodup ⊢
    exact hnodup
  · intro x hx
    rcases Multiset.mem_add.mp hx with hx | hx
    · rw [Multiset.mem_singleton.mp hx]
      exact hp
    · exact hothers x hx (h.fst_ne hx) (h.rest hx)
  · intro u hu
    by_cases hut : u = t
    · simp [hut]
    · have hmem := h.owner u (hgil u hut hu)
      rw [Multiset.map_add, Multiset.map_singleton] at hmem ⊢
      exact hmem

/-- A thread comes that was not there. -/
theorem add (h : Placed s (0 + g)) (ht : ¬ t.Known s) (hp : p'.Fits s' t)
    (hothers : ∀ x ∈ g, x.1 ≠ t → x.2.Fits s x.1 → x.2.Fits s' x.1)
    (hgil : ∀ u, u ≠ t → s'.gil = some u → s.gil = some u)
    (hfresh : ∀ handle, s'.nextHandle ≤ handle → s'.objects handle = none) :
    Placed s' ({(t,p')} + g) := by
  rw [zero_add] at h
  have hne : ∀ x ∈ g, x.1 ≠ t := by
    rintro x hx rfl
    exact ht (h.fits x hx).known
  refine ⟨?_,?_,?_,hfresh⟩
  · rw [Multiset.map_add, Multiset.map_singleton, Multiset.singleton_add, Multiset.nodup_cons]
    refine ⟨?_,h.nodup⟩
    intro hmem
    obtain ⟨x,hx,hxt⟩ := Multiset.mem_map.mp hmem
    exact hne x hx hxt
  · intro x hx
    rcases Multiset.mem_add.mp hx with hx | hx
    · rw [Multiset.mem_singleton.mp hx]
      exact hp
    · exact hothers x hx (hne x hx) (h.fits x hx)
  · intro u hu
    by_cases hut : u = t
    · simp [hut]
    · rw [Multiset.map_add]
      exact Multiset.mem_add.mpr (.inr (h.owner u (hgil u hut hu)))

/-- A thread goes, without the GIL. -/
theorem remove (h : Placed s ({(t,p)} + g)) (hothers : ∀ x ∈ g, x.1 ≠ t → x.2.Fits s x.1 → x.2.Fits s' x.1)
    (hgil : ∀ u, s'.gil = some u → u ≠ t ∧ s.gil = some u)
    (hfresh : ∀ handle, s'.nextHandle ≤ handle → s'.objects handle = none) :
    Placed s' (0 + g) := by
  rw [zero_add]
  refine ⟨?_,?_,?_,hfresh⟩
  · have hnodup := h.nodup
    rw [Multiset.map_add] at hnodup
    exact (Multiset.nodup_add.mp hnodup).2.1
  · intro x hx
    exact hothers x hx (h.fst_ne hx) (h.rest hx)
  · intro u hu
    obtain ⟨hut,hs⟩ := hgil u hu
    have hmem := h.owner u hs
    rw [Multiset.map_add, Multiset.map_singleton, Multiset.mem_add, Multiset.mem_singleton] at hmem
    exact hmem.resolve_left hut

/-- A change that no thread that is there sees. -/
theorem frame (h : Placed s (0 + g)) (hknown : ∀ u : PyThread, u.Known s → u.Known s') (hgil : s'.gil = s.gil)
    (hmutex : s'.bridgesMutex = s.bridgesMutex)
    (hfresh : ∀ handle, s'.nextHandle ≤ handle → s'.objects handle = none) : Placed s' (0 + g) := by
  refine ⟨h.nodup,?_,?_,hfresh⟩
  · intro x hx
    obtain ⟨hk,hg,ht,hi⟩ := h.fits x hx
    rw [← hgil] at hg
    rw [← hmutex] at ht hi
    exact ⟨hknown x.1 hk,hg,ht,hi⟩
  · rw [hgil]
    exact h.owner

end Placed

namespace PyExtension
variable {s : PyExtension}

/-- The GIL changes hands, and a thread that did not have it before or does not have it now is
not concerned. -/
theorem fits_of_gil {u : PyThread} {q : PyPlace} {gil : Option PyThread} (h : q.Fits s u)
    (hgil : gil = some u ↔ s.gil = some u) : q.Fits { s with gil := gil } u := by
  obtain ⟨hk,hg,ht,hi⟩ := h
  refine ⟨?_,hgil.trans hg,ht,hi⟩
  cases u <;> exact hk

theorem fresh_modify {handle : ℕ} {f : FalconKVBridge → FalconKVBridge}
    (h : ∀ handle, s.nextHandle ≤ handle → s.objects handle = none) :
    ∀ handle', (s.modify handle f).nextHandle ≤ handle' → (s.modify handle f).objects handle' = none := by
  intro handle' hle
  have hnone := h handle' hle
  unfold modify
  by_cases hh : handle' = handle
  · subst hh
    simp [hnone]
  · simp [Function.update_of_ne hh,hnone]

theorem known_modify {handle : ℕ} {f : FalconKVBridge → FalconKVBridge} (hf : ∀ b, (f b).workers = b.workers)
    {u : PyThread} (h : u.Known s) : u.Known (s.modify handle f) := by
  cases u with
  | call n => exact h
  | worker handle' i => exact (workerPhase_modify hf).trans h

theorem known_setWorker {handle i : ℕ} {phase : WorkerPhase} {u : PyThread} (hu : u ≠ .worker handle i)
    (h : u.Known s) : u.Known (s.setWorker handle i phase) := by
  cases u with
  | call n => exact h
  | worker handle' i' =>
    refine (workerPhase_setWorker_of_ne phase ?_).trans h
    intro heq
    obtain ⟨rfl,rfl⟩ := Prod.mk.inj heq
    exact hu rfl

theorem gil_iff_of_drop {t u : PyThread} (hgil : s.gil = some t) (hut : u ≠ t) :
    none = some u ↔ s.gil = some u := by
  rw [hgil]
  constructor
  · exact fun h => absurd h.symm (Option.some_ne_none u)
  · exact fun h => absurd (Option.some.inj h).symm hut

theorem gil_iff_of_take {t u : PyThread} (hgil : s.gil = none) (hut : u ≠ t) :
    some t = some u ↔ s.gil = some u := by
  rw [hgil]
  constructor
  · exact fun h => absurd (Option.some.inj h).symm hut
  · exact fun h => absurd h.symm (Option.some_ne_none u)

/-- Where the table is locked, nobody else has the GIL or the table. -/
theorem keeps_lockBridges {n : ℕ} {g : Multiset PyToken} (h : Placed s ({(.call n,.inside)} + g))
    (hfree : s.bridgesMutex = none) : Placed { s with bridgesMutex := some n } ({(.call n,.locked)} + g) := by
  have hgil : s.gil = some (.call n) := h.head.gil.mpr rfl
  refine h.move ⟨h.head.known,iff_of_true hgil rfl,fun _ => ⟨n,rfl,rfl⟩,by simp⟩ ?_
    (fun _ _ hu => hu) h.fresh
  intro x _ hxt hfits
  refine ⟨?_,hfits.gil,?_,?_⟩
  · have hknown := hfits.known
    cases hx : x.1 <;> rw [hx] at hknown <;> exact hknown
  · intro htable
    obtain ⟨m,-,hm⟩ := hfits.table htable
    rw [hfree] at hm
    cases hm
  · intro hinside
    have hx : s.gil = some x.1 := hfits.gil.mpr (by rw [hinside]; rfl)
    rw [hgil] at hx
    exact absurd (Option.some.inj hx).symm hxt

theorem keeps_unlockBridges {n : ℕ} {g : Multiset PyToken} (h : Placed s ({(.call n,.locked)} + g)) :
    Placed { s with bridgesMutex := none } ({(.call n,.inside)} + g) := by
  have hgil : s.gil = some (.call n) := h.head.gil.mpr rfl
  obtain ⟨m,hm,hmutex⟩ := h.head.table rfl
  obtain rfl : n = m := by injection hm
  refine h.move ⟨h.head.known,iff_of_true hgil rfl,by simp [PyPlace.hasTable],fun _ => rfl⟩ ?_
    (fun _ _ hu => hu) h.fresh
  intro x _ hxt hfits
  refine ⟨?_,hfits.gil,?_,fun _ => rfl⟩
  · have hknown := hfits.known
    cases hx : x.1 <;> rw [hx] at hknown <;> exact hknown
  · intro htable
    obtain ⟨m,hxm,hm⟩ := hfits.table htable
    rw [hmutex] at hm
    rw [← Option.some.inj hm] at hxm
    exact absurd hxm hxt

theorem keeps_enter {g : Multiset PyToken} (h : Placed s (0 + g)) (hgil : s.gil = none)
    (hfree : s.bridgesMutex = none) :
    Placed { s with gil := some (.call s.nextCall), nextCall := s.nextCall + 1 }
      ({(.call s.nextCall,.inside)} + g) := by
  refine h.add (Nat.lt_irrefl s.nextCall) ?_ ?_ ?_ h.fresh
  · exact ⟨Nat.lt_succ_self s.nextCall,by simp [PyPlace.hasGil],by simp [PyPlace.hasTable],fun _ => hfree⟩
  · intro x _ hxt hfits
    refine ⟨?_,(gil_iff_of_take hgil hxt).trans hfits.gil,hfits.table,hfits.inside⟩
    have hknown := hfits.known
    cases hx : x.1 with
    | call n =>
      rw [hx] at hknown
      exact Nat.lt_succ_of_lt hknown
    | worker handle i =>
      rw [hx] at hknown
      exact hknown
  · intro u hut hu
    exact absurd (Option.some.inj hu).symm hut

theorem keeps_takeTask {handle i : ℕ} {rest : List ℕ} {g : Multiset PyToken} (h : Placed s (0 + g))
    (hphase : s.workerPhase handle i = some .waiting) :
    Placed ((s.modify handle fun b => { b with taskQueue := rest }).setWorker handle i .inTask)
      ({(.worker handle i,.away)} + g) := by
  have hunknown : ¬ PyThread.Known s (.worker handle i) := by
    intro hknown
    rw [PyThread.Known, hphase] at hknown
    cases hknown
  have hgil : s.gil ≠ some (.worker handle i) := by
    intro hgil
    have hmem := h.owner _ hgil
    rw [zero_add] at hmem h
    obtain ⟨x,hx,hxt⟩ := Multiset.mem_map.mp hmem
    exact hunknown (hxt ▸ (h.fits x hx).known)
  have hfresh : ∀ handle, s.nextHandle ≤ handle → s.objects handle = none := h.fresh
  have hkeep : (s.modify handle fun b => { b with taskQueue := rest }).workerPhase handle i =
      some .waiting := by
    rw [workerPhase_modify]
    · exact hphase
    · exact fun _ => rfl
  refine h.add hunknown ?_ ?_ (fun _ _ hu => hu) (fresh_modify (fresh_modify hfresh))
  · refine ⟨workerPhase_setWorker_self hkeep,?_,by simp [PyPlace.hasTable],by simp⟩
    exact iff_of_false hgil (by simp [PyPlace.hasGil])
  · intro x _ hxt hfits
    refine ⟨known_setWorker hxt (known_modify ?_ hfits.known),hfits.gil,hfits.table,hfits.inside⟩
    exact fun _ => rfl

theorem keeps_endTask {handle i : ℕ} {g : Multiset PyToken}
    (h : Placed s ({(.worker handle i,.away)} + g)) :
    Placed (s.setWorker handle i .waiting) (0 + g) := by
  refine h.remove ?_ ?_ (fresh_modify h.fresh)
  · intro x _ hxt hfits
    exact ⟨known_setWorker hxt hfits.known,hfits.gil,hfits.table,hfits.inside⟩
  · rintro u hu
    refine ⟨?_,hu⟩
    rintro rfl
    have haway := h.head.gil.mp hu
    cases haway

theorem keeps_endWorker {handle i : ℕ} {g : Multiset PyToken} (h : Placed s (0 + g))
    (hphase : s.workerPhase handle i = some .waiting) :
    Placed (s.setWorker handle i .returned) (0 + g) := by
  refine h.frame ?_ rfl rfl (fresh_modify h.fresh)
  intro u hu
  refine known_setWorker ?_ hu
  rintro rfl
  rw [PyThread.Known, hphase] at hu
  cases hu

theorem keeps_newBridge {g : Multiset PyToken} (h : Placed s (0 + g)) :
    Placed { s with
      objects := Function.update s.objects s.nextHandle (some .create),
      nextHandle := s.nextHandle + 1 } (0 + g) := by
  refine h.frame ?_ rfl rfl ?_
  · intro u hu
    cases u with
    | call n => exact hu
    | worker handle i =>
      refine (workerPhase_update_of_ne rfl ?_).trans hu
      rintro rfl
      exact objects_of_workerPhase hu (h.fresh _ le_rfl)
  · intro handle hle
    have hlt : s.nextHandle < handle := hle
    exact (Function.update_of_ne (Nat.ne_of_gt hlt) _ _).trans (h.fresh handle (Nat.le_of_lt hlt))

theorem keeps_leave {t : PyThread} {p : PyPlace} {g : Multiset PyToken} (h : Placed s ({(t,p)} + g))
    (hgil : p.hasGil = true) : Placed { s with gil := none } (0 + g) := by
  have hholds := h.head.gil.mpr hgil
  refine h.remove ?_ (fun _ hu => absurd hu.symm (Option.some_ne_none _)) h.fresh
  exact fun x _ hxt hfits => fits_of_gil hfits (gil_iff_of_drop hholds hxt)

theorem keeps_releaseGil {t : PyThread} {p : PyPlace} {g : Multiset PyToken} (h : Placed s ({(t,p)} + g))
    (hgil : p.hasGil = true) : Placed { s with gil := none } ({(t,p.release)} + g) := by
  have hholds := h.head.gil.mpr hgil
  refine h.move ?_ (fun x _ hxt hfits => fits_of_gil hfits (gil_iff_of_drop hholds hxt))
    (fun _ _ hu => absurd hu.symm (Option.some_ne_none _)) h.fresh
  refine ⟨?_,?_,?_,?_⟩
  · have hknown := h.head.known
    cases t <;> exact hknown
  · cases p <;> simp [PyPlace.release,PyPlace.hasGil]
  · intro htable
    refine h.head.table ?_
    cases p <;> first | rfl | cases htable
  · cases p <;> simp [PyPlace.release]

theorem keeps_acquireGil {t : PyThread} {p : PyPlace} {g : Multiset PyToken} (h : Placed s ({(t,p)} + g))
    (hfree : s.gil = none) (hgil : p.hasGil = false) :
    Placed { s with gil := some t } ({(t,p.acquire)} + g) := by
  refine h.move ?_ (fun x _ hxt hfits => fits_of_gil hfits (gil_iff_of_take hfree hxt))
    (fun _ hut hu => absurd (Option.some.inj hu).symm hut) h.fresh
  refine ⟨?_,?_,?_,?_⟩
  · have hknown := h.head.known
    cases t <;> exact hknown
  · cases p <;> simp [PyPlace.acquire,PyPlace.hasGil]
  · intro htable
    refine h.head.table ?_
    cases p <;> first | rfl | cases htable
  · cases p <;> simp [PyPlace.acquire]

/-- A call that changes a bridge and no phase of its workers. -/
theorem keeps_modify {handle : ℕ} {f : FalconKVBridge → FalconKVBridge} {g : Multiset PyToken}
    (h : Placed s (0 + g)) (hphases : ∀ b, (f b).workers = b.workers) :
    Placed (s.modify handle f) (0 + g) :=
  h.frame (fun _ hu => known_modify hphases hu) rfl rfl (fresh_modify h.fresh)

theorem keeps_placed : Keeps pyMachine pyPlaces (fun s op => s.entersFree op = true) fun _ => Placed where
  guar := fun _ _ _ _ _ _ _ _ _ _ => trivial
  step := by
    intro tr j s op c r s' used made g hinv hok hstep hrule
    cases op with
    | enter =>
      obtain ⟨hgil,hs⟩ := Option.ite_none_left_eq_some.mp hstep
      obtain ⟨rfl,rfl⟩ := Prod.mk.inj (Option.some.inj hs)
      obtain ⟨rfl,rfl⟩ := hrule
      exact keeps_enter hinv (Option.not_isSome_iff_eq_none.mp hgil) (Option.isNone_iff_eq_none.mp hok)
    | leave n =>
      obtain ⟨-,rfl⟩ := Prod.mk.inj (Option.some.inj hstep)
      obtain ⟨p,hgil,htable,rfl,rfl⟩ := hrule
      exact keeps_leave hinv hgil
    | releaseGil t =>
      obtain ⟨-,rfl⟩ := Prod.mk.inj (Option.some.inj hstep)
      obtain ⟨p,hgil,rfl,rfl⟩ := hrule
      exact keeps_releaseGil hinv hgil
    | acquireGil t =>
      obtain ⟨hnone,hs⟩ := Option.ite_none_left_eq_some.mp hstep
      obtain ⟨-,rfl⟩ := Prod.mk.inj (Option.some.inj hs)
      obtain ⟨p,hgil,rfl,rfl⟩ := hrule
      exact keeps_acquireGil hinv (Option.not_isSome_iff_eq_none.mp hnone) hgil
    | lockBridges n =>
      obtain ⟨hnone,hs⟩ := Option.ite_none_left_eq_some.mp hstep
      obtain ⟨-,rfl⟩ := Prod.mk.inj (Option.some.inj hs)
      obtain ⟨rfl,rfl⟩ := hrule
      exact keeps_lockBridges hinv (Option.not_isSome_iff_eq_none.mp hnone)
    | unlockBridges n =>
      obtain ⟨-,rfl⟩ := Prod.mk.inj (Option.some.inj hstep)
      obtain ⟨rfl,rfl⟩ := hrule
      exact keeps_unlockBridges hinv
    | newBridge n =>
      obtain ⟨rfl,rfl⟩ := hrule
      cases c with
      | true =>
        obtain ⟨-,rfl⟩ := Prod.mk.inj (Option.some.inj hstep)
        exact keeps_newBridge hinv
      | false =>
        obtain ⟨-,rfl⟩ := Prod.mk.inj (Option.some.inj hstep)
        exact hinv
    | insertBridge n handle | eraseBridge n handle =>
      obtain ⟨-,rfl⟩ := Prod.mk.inj (Option.some.inj hstep)
      obtain ⟨rfl,rfl⟩ := hrule
      refine hinv.frame ?_ rfl rfl hinv.fresh
      exact fun u hu => by cases u <;> exact hu
    | convert n | findBridge n handle | runSync n handle | batchPutSync handle i | refCountDown handle i =>
      obtain ⟨-,rfl⟩ := Prod.mk.inj (Option.some.inj hstep)
      obtain ⟨rfl,rfl⟩ := hrule
      exact hinv
    | submitTask n handle count | setStopped n handle =>
      obtain ⟨-,rfl⟩ := Prod.mk.inj (Option.some.inj hstep)
      obtain ⟨rfl,rfl⟩ := hrule
      exact keeps_modify hinv fun _ => rfl
    | drainQueue n handle | join n handle =>
      obtain ⟨-,hs⟩ := Option.ite_none_right_eq_some.mp hstep
      obtain ⟨-,rfl⟩ := Prod.mk.inj (Option.some.inj hs)
      obtain ⟨rfl,rfl⟩ := hrule
      exact hinv
    | takeTask handle i =>
      obtain ⟨rfl,rfl⟩ := hrule
      have htake : s.takeTask handle i = some (r,s') := hstep
      unfold takeTask at htake
      split at htake
      · cases htake
      · next count rest _ =>
        obtain ⟨hphase,hs⟩ := Option.ite_none_right_eq_some.mp htake
        obtain ⟨-,rfl⟩ := Prod.mk.inj (Option.some.inj hs)
        exact keeps_takeTask hinv hphase
    | endTask handle i =>
      obtain ⟨-,rfl⟩ := Prod.mk.inj (Option.some.inj hstep)
      obtain ⟨rfl,rfl⟩ := hrule
      exact keeps_endTask hinv
    | endWorker handle i =>
      obtain ⟨hcan,hs⟩ := Option.ite_none_right_eq_some.mp hstep
      obtain ⟨-,rfl⟩ := Prod.mk.inj (Option.some.inj hs)
      obtain ⟨rfl,rfl⟩ := hrule
      refine keeps_endWorker hinv ?_
      simp only [Bool.and_eq_true, beq_iff_eq] at hcan
      exact hcan.2

end PyExtension

def PyResource.rank : PyResource → ℕ
  | gil => 0
  | workers _ => 1
  | bridgesMutex => 2

namespace PyExtension
variable {P : Pool pyCalls PyExtension Unit} {gs : List (Multiset PyToken)}

theorem rank_lt_of_waits (hgs : List.Forall₂ (Uses pyPlaces fun _ g => g = 0) P.threads gs)
    (hinv : Placed P.state gs.sum) (a b : PyResource) (h : P.Waits pyMachine pyClaims a b) :
    b.rank < a.rank := by
  obtain ⟨op,hop,⟨t,hcaller,hheld⟩,hasks,hblocked⟩ := h
  -- no thread waits for something while it has the GIL
  have hgil : ∀ p : PyPlace, p.hasGil = false → (∃ rest, gs.sum = {(t,p)} + rest) → a ≠ .gil := by
    rintro p hp ⟨rest,hsum⟩ rfl
    rw [hsum] at hinv
    have htrue := hinv.head.gil.mp hheld
    rw [hp] at htrue
    cases htrue
  cases op with
  | acquireGil u =>
    obtain rfl := Option.some.inj hcaller
    obtain rfl := Option.some.inj hasks
    obtain ⟨used,made,rest,⟨p,hp,rfl,-⟩,hsum⟩ := exists_used hgs hop (r := ()) trivial
    have hne := hgil p hp ⟨rest,hsum⟩
    cases a with
    | gil => exact absurd rfl hne
    | workers handle => exact Nat.zero_lt_one
    | bridgesMutex => exact Nat.two_pos
  | lockBridges n =>
    obtain ⟨used,made,rest,⟨rfl,-⟩,hsum⟩ := exists_used hgs hop (r := ()) trivial
    rw [hsum] at hinv
    have hfree := hinv.head.inside rfl
    have hstep : pyMachine.step (.lockBridges n) true P.state =
        some ((),{ P.state with bridgesMutex := some n }) := if_neg (by rw [hfree]; exact Bool.false_ne_true)
    exact absurd hstep hblocked.not_step
  | drainQueue n handle | join n handle =>
    obtain rfl := Option.some.inj hcaller
    obtain rfl := Option.some.inj hasks
    obtain ⟨used,made,rest,⟨rfl,-⟩,hsum⟩ := exists_used hgs hop (r := ()) trivial
    have hne := hgil .closing rfl ⟨rest,hsum⟩
    cases a with
    | gil => exact absurd rfl hne
    | workers handle' =>
      obtain ⟨i,hi⟩ := hheld
      cases hi
    | bridgesMutex => exact Nat.one_lt_two
  | _ => cases hcaller

end PyExtension

/-- If no call enters while another one holds the table, nothing waits in a circle. -/
theorem not_cyclicWait_of_entersFree {tr : List (Event pyCalls PyExtension)}
    {P : Pool pyCalls PyExtension Unit} (hrun : PyRun (fun s op => s.entersFree op = true) tr P) :
    ¬ P.CyclicWait pyMachine pyClaims := by
  have hstart : ∃ gs, List.Forall₂ (Uses pyPlaces fun _ g => g = 0) ([] : List (PyProg Unit)) gs ∧
      Placed .create gs.sum := by
    refine ⟨[],.nil,Multiset.nodup_zero,?_,?_,fun _ _ => rfl⟩
    · exact fun x hx => absurd hx (Multiset.notMem_zero x)
    · exact fun t ht => absurd ht.symm (Option.some_ne_none t)
  obtain ⟨gs,hgs,hinv⟩ := Run.shares PyExtension.keeps_placed
    (fun p hp => by obtain ⟨start,rfl⟩ := hp; exact PyExtension.stands_start start) hstart hrun
  exact P.not_cyclicWait PyResource.rank (PyExtension.rank_lt_of_waits hgs hinv)

namespace PyExtension

theorem pyRun_of_schedule (check : PyExtension → PyCall → Bool) (starts : List PyStart)
    (turns : List ℕ) {γ : Type}
    {f : List (Event pyCalls PyExtension) × Pool pyCalls PyExtension Unit → γ} {v : γ}
    (h : (Pool.follow (M := pyMachine) check (turns.map fun i => (i,true))
      ⟨.create,starts.map PyStart.run⟩).map f = some v) :
    ∃ tr P, PyRun (fun s op => check s op = true) tr P ∧ f (tr,P) = v := by
  refine run_of_schedule _ ?_ h
  intro p hp
  obtain ⟨start,-,rfl⟩ := List.mem_map.mp hp
  exact ⟨start,rfl⟩

def standing (P : Pool pyCalls PyExtension Unit) : List PyCall × Option PyThread × Option ℕ :=
  (P.pending,P.state.gil,P.state.bridgesMutex)

end PyExtension

open PyExtension

/-- A bridge is created, gets a task, and is closed when the task has called back. -/
theorem not_cyclicWait_of_entersFree_close : ∃ tr P,
    PyRun (fun s op => s.entersFree op = true) tr P ∧ ¬ P.CyclicWait pyMachine pyClaims ∧
      standing P = ([],none,none) := by
  obtain ⟨tr,P,hrun,hP⟩ := pyRun_of_schedule entersFree
    [.init,.fireAndForgetPut 1 1,.task (fun _ => false) 1 0,.close 1,.endWorker 1 0,.endWorker 1 1]
    (List.replicate 7 0 ++ List.replicate 9 1 ++ List.replicate 6 2 ++ List.replicate 8 3 ++ [4,5] ++
      List.replicate 7 3) (f := fun y => standing y.2) (v := ([],none,none)) rfl
  exact ⟨tr,P,hrun,not_cyclicWait_of_entersFree hrun,hP⟩

/-- A task calls back while its bridge is closed, and another call has entered in between: the
task waits for the GIL, the new call has it and waits for the table, the closing call has the
table and waits for the task. -/
theorem exists_run_cyclicWait : ∃ tr P, PyRun (fun _ _ => True) tr P ∧
    P.CyclicWait pyMachine pyClaims := by
  obtain ⟨tr,P,hrun,hP⟩ := pyRun_of_schedule (fun _ _ => true)
    [.init,.fireAndForgetPut 1 1,.task (fun _ => false) 1 0,.close 1,.batchExistSync 1]
    (List.replicate 7 0 ++ List.replicate 9 1 ++ List.replicate 2 2 ++ List.replicate 8 3 ++
      List.replicate 3 4)
    (f := fun y => (standing y.2,(y.2.state.bridge 1).workers))
    (v := (([.acquireGil (.worker 1 0),.join 2 1,.lockBridges 3],some (.call 3),some 2),
      [.inTask,.waiting])) rfl
  obtain ⟨hstanding,hworkers⟩ := Prod.mk.inj hP
  obtain ⟨hpending,hheld⟩ := Prod.mk.inj hstanding
  obtain ⟨hgil,hmutex⟩ := Prod.mk.inj hheld
  have hcallback : P.Waits pyMachine pyClaims (.workers 1) .gil := by
    refine ⟨.acquireGil (.worker 1 0),?_,⟨_,rfl,0,rfl⟩,rfl,fun _ => if_pos ?_⟩
    · rw [hpending]
      exact List.mem_cons_self
    · rw [hgil]
      rfl
  have hclose : P.Waits pyMachine pyClaims .bridgesMutex (.workers 1) := by
    refine ⟨.join 2 1,?_,⟨_,rfl,2,rfl,hmutex⟩,rfl,fun _ => if_neg ?_⟩
    · rw [hpending]
      exact List.mem_cons_of_mem _ List.mem_cons_self
    · rw [hworkers]
      decide
  have henter : P.Waits pyMachine pyClaims .gil .bridgesMutex := by
    refine ⟨.lockBridges 3,?_,⟨_,rfl,hgil⟩,rfl,fun _ => if_pos ?_⟩
    · rw [hpending]
      exact List.mem_cons_of_mem _ (List.mem_cons_of_mem _ List.mem_cons_self)
    · rw [hmutex]
      rfl
  refine ⟨tr,P,hrun.ok_mono fun _ _ _ => trivial,.gil,?_⟩
  exact .head henter (.head hclose (.single hcallback))

end FalconKV
