import FalconKV.Store.Calls

/-! # What a call does to the parts of a store

A call on the data file changes nothing else, and apart from insertions and removals
no call changes the records of the index in more than their access times.
-/
namespace FalconKV

def StoreCall.isPut : StoreCall → Bool
  | indexPut .. => true
  | _ => false

def StoreCall.isRemove : StoreCall → Bool
  | indexRemove .. => true
  | _ => false

structure StoreMetaIndex.SameRecords (m m' : StoreMetaIndex) : Prop where
  sound : m.Sound → m'.Sound
  extents : m'.extents = m.extents
  find : ∀ key, (m'.find key).map StoreKeyRecord.timeless = (m.find key).map StoreKeyRecord.timeless

theorem StoreMetaIndex.SameRecords.refl (m : StoreMetaIndex) : m.SameRecords m :=
  ⟨id,rfl,fun _ => rfl⟩

theorem StoreMetaIndex.SameRecords.find_eq_none {m m' : StoreMetaIndex} (h : m.SameRecords m')
    {key : Key} (hf : m.find key = none) : m'.find key = none := by
  have hkey := h.find key
  rw [hf, Option.map_none] at hkey
  exact Option.map_eq_none_iff.mp hkey

namespace Store

variable {s s' : Store} {op : StoreCall} {c : StoreChoice} {r : op.Res}

/-- A write to the data file changes nothing else. -/
theorem pwrite_frame {c : StoreChoice} {offset size : ℕ} {data : Option Bytes} {r : Transferred}
    (h : s.pwrite c offset data size = some (r,s')) : ∃ file, s' = { s with file := file } := by
  unfold pwrite at h
  split at h
  · cases h
    exact ⟨_,rfl⟩
  · cases h
  · split at h
    · cases h
      exact ⟨_,rfl⟩
    · cases h

theorem uringWrite_frame {c : StoreChoice} {offset size : ℕ} {data : Option Bytes} {r : Status}
    (h : s.uringWrite c offset data size = some (r,s')) : ∃ file, s' = { s with file := file } := by
  unfold uringWrite at h
  split at h
  · cases h
    exact ⟨_,rfl⟩
  · cases h
  · cases h
    exact ⟨_,rfl⟩

def onFile : StoreCall → Bool
  | .pwrite .. | .uringWrite .. | .pread .. => true
  | _ => false

theorem onFile_frame (hs : s.step op c = some (r,s')) (hop : onFile op = true) :
    ∃ file, s' = { s with file := file } := by
  cases op with
  | pwrite offset data size => exact pwrite_frame hs
  | uringWrite offset data size => exact uringWrite_frame hs
  | pread offset size reader =>
    obtain ⟨x,-,hx⟩ := Option.map_eq_some_iff.mp hs
    cases hx
    exact ⟨s.file,rfl⟩
  | _ => cases hop

inductive IndexStep (m m' : StoreMetaIndex) : StoreCall → Prop
  | put (key : Key) (record : StoreKeyRecord) (data : Option Bytes) (h : m' = m.put key record) :
      IndexStep m m' (.indexPut key record data)
  | remove (key : Key) (snapshot : Option StoreKeyRecord) (h : m' = (m.remove key).2) :
      IndexStep m m' (.indexRemove key snapshot)
  | keep {op : StoreCall} (hput : op.isPut = false) (hrem : op.isRemove = false)
      (h : m.SameRecords m') : IndexStep m m' op

theorem index_step (hs : s.step op c = some (r,s')) : IndexStep s.index s'.index op := by
  cases op with
  | indexPut key record data =>
    cases hs
    exact .put key record data rfl
  | indexRemove key snapshot =>
    cases hs
    exact .remove key snapshot rfl
  | indexGet key =>
    cases hs
    exact .keep rfl rfl ⟨fun h => h.get,StoreMetaIndex.extents_get,
      StoreMetaIndex.find_get_timeless s.index key c.now⟩
  | indexBatchContains keys =>
    cases hs
    exact .keep rfl rfl ⟨fun h => h.batchContains keys,StoreMetaIndex.extents_batchContains keys,
      fun key => StoreMetaIndex.find_batchContains_timeless s.index c.now key keys⟩
  | pwrite | uringWrite | pread =>
    obtain ⟨file,rfl⟩ := onFile_frame hs rfl
    exact .keep rfl rfl (.refl _)
  | _ =>
    cases hs
    exact .keep rfl rfl (.refl _)

end Store

end FalconKV
