import Mathlib.Data.Fin.Basic
import Mathlib.Logic.Function.Basic
import FalconKV.Common.WrappingSteps
import FalconKV.Scheduler.Accumulators

/-! # The statistics windows of the scheduler

A ring of windows of one second each. A record moves the ring forward until its time lies
before the end of the current window, and is counted there. Times are unsigned 64-bit
nanoseconds, taken as they were reported. The figures that are floating-point numbers, and
the reports made of them, are left out.
-/
namespace FalconKV

def add64 (a b : ℕ) : ℕ := (a + b) % 2 ^ 64
def sub64 (a b : ℕ) : ℕ := (a + 2 ^ 64 - b) % 2 ^ 64

theorem add64_lt (a b : ℕ) : add64 a b < 2 ^ 64 := Nat.mod_lt _ (Nat.two_pow_pos 64)

theorem sub64_lt (a b : ℕ) : sub64 a b < 2 ^ 64 := Nat.mod_lt _ (Nat.two_pow_pos 64)

theorem add64_sub64 {a b c : ℕ} (h : b + c ≤ 2 ^ 64) : add64 (sub64 a (b + c)) c = sub64 a b := by
  simp only [add64, sub64]
  omega

inductive IOChannel where
  | localSsdRead
  | localSsdWrite
  | netTxRead
  | netRxRead
  deriving DecidableEq, Repr

structure ChannelStats where
  totalBytes : ℕ
  ioCount : ℕ
  deriving DecidableEq, Repr

def ChannelStats.add (ioSize : ℕ) (cs : ChannelStats) : ChannelStats :=
  ⟨add64 cs.totalBytes ioSize,(cs.ioCount + 1) % 2 ^ 32⟩

structure NodeAddrStats where
  nodeAddr : String
  netTxRead : ChannelStats
  netRxRead : ChannelStats
  deriving DecidableEq, Repr

/-- Local channels are not counted for a node. -/
def NodeAddrStats.count (ioChannel : ℤ) (ioSize : ℕ) (nas : NodeAddrStats) : NodeAddrStats :=
  match ioChannel with
  | 2 => { nas with netTxRead := nas.netTxRead.add ioSize }
  | 3 => { nas with netRxRead := nas.netRxRead.add ioSize }
  | _ => nas

structure TimeWindowStats where
  windowStartNs : ℕ
  windowEndNs : ℕ
  channelStats : IOChannel → ChannelStats

/-- `[start, end)`, by the distance from the start: the interval may straddle zero. -/
def TimeWindowStats.Contains (w : TimeWindowStats) (ts : ℕ) : Prop :=
  sub64 ts w.windowStartNs < sub64 w.windowEndNs w.windowStartNs

instance (w : TimeWindowStats) (ts : ℕ) : Decidable (w.Contains ts) :=
  inferInstanceAs (Decidable (sub64 ts w.windowStartNs < sub64 w.windowEndNs w.windowStartNs))

namespace NodeStats

def windowCount : ℕ := 60
def windowSizeMs : ℕ := 1000
def maxLatencySamples : ℕ := 10000

def windowSizeNs : ℕ := windowSizeMs * 1000000

theorem windowSizeNs_eq : windowSizeNs = 1000000000 := rfl

instance : NeZero windowCount := ⟨by decide⟩

def getChannelStats : ℤ → IOChannel
  | 0 => .localSsdRead
  | 1 => .localSsdWrite
  | 2 => .netTxRead
  | 3 => .netRxRead
  | _ => .localSsdRead

end NodeStats

open NodeStats in
structure NodeStats where
  windows : Fin windowCount → TimeWindowStats
  currentWindowIdx : Fin windowCount
  nodeAddrStats : String → Option NodeAddrStats
  latencySamples : List ℕ

namespace NodeStats

def create (base : ℕ) : NodeStats where
  windows i := {
    windowStartNs := sub64 base ((windowCount - i) * windowSizeNs)
    windowEndNs := sub64 base ((windowCount - i - 1) * windowSizeNs)
    channelStats := fun _ => ⟨0,0⟩ }
  currentWindowIdx := ⟨windowCount - 1,by decide⟩
  nodeAddrStats _ := none
  latencySamples := []

variable (s : NodeStats)

def current : TimeWindowStats := s.windows s.currentWindowIdx

/-- The body of the loop of `UpdateWindow`: the next window is reset and becomes the
current one. -/
def nextWindow : NodeStats :=
  let next := s.currentWindowIdx + 1
  { s with
    windows := Function.update s.windows next {
      windowStartNs := s.current.windowEndNs
      windowEndNs := add64 s.current.windowEndNs windowSizeNs
      channelStats := fun _ => ⟨0,0⟩ }
    currentWindowIdx := next }

/-- The loop of `UpdateWindow`. It need not end, and `none` says that it has not yet. -/
def advance (ts : ℕ) : ℕ → NodeStats → Option NodeStats
  | 0, _ => none
  | fuel + 1, s => if s.current.windowEndNs ≤ ts then advance ts fuel s.nextWindow else some s

def accumulate (record : IOCompletionData) : NodeStats :=
  let w := s.current
  let channel := getChannelStats record.ioChannel
  { s with
    windows := Function.update s.windows s.currentWindowIdx { w with
      channelStats := Function.update w.channelStats channel
        ((w.channelStats channel).add record.ioSize) } }

def updateWindow (fuel : ℕ) (record : IOCompletionData) : Option NodeStats :=
  (advance record.ioDoneTsNs fuel s).map fun s => s.accumulate record

def countNodeAddr (record : IOCompletionData) : NodeStats :=
  let addr := record.remoteNodeAddr
  if addr.isEmpty then s else
  let nas := { (s.nodeAddrStats addr).getD ⟨"",⟨0,0⟩,⟨0,0⟩⟩ with nodeAddr := addr }
  let nas := nas.count record.ioChannel record.ioSize
  { s with nodeAddrStats := Function.update s.nodeAddrStats addr (some nas) }

def sampleLatency (record : IOCompletionData) : NodeStats :=
  if record.ioStartTsNs ≤ record.ioDoneTsNs then
    let latency := record.ioDoneTsNs - record.ioStartTsNs
    let samples := s.latencySamples
    { s with latencySamples :=
        if maxLatencySamples ≤ samples.length then samples.set (latency % samples.length) latency
        else samples ++ [latency] }
  else s

def recordIo (fuel : ℕ) (record : IOCompletionData) : Option NodeStats :=
  (s.updateWindow fuel record).map fun s => (s.countNodeAddr record).sampleLatency record

/-- The records that a ring has taken since `base`, each of them as `ok` requires. -/
inductive Recording (base : ℕ) (ok : NodeStats → IOCompletionData → Prop) :
    List IOCompletionData → NodeStats → Prop
  | create : Recording base ok [] (create base)
  | record {rs : List IOCompletionData} {s s' : NodeStats} {r : IOCompletionData} {fuel : ℕ} :
      Recording base ok rs s → ok s r → s.recordIo fuel r = some s' →
      Recording base ok (rs ++ [r]) s'

/-- One second each, one after the other, the current one last. -/
structure Tiled : Prop where
  start_lt : ∀ i, (s.windows i).windowStartNs < 2 ^ 64
  one_window : ∀ i, (s.windows i).windowEndNs = add64 (s.windows i).windowStartNs windowSizeNs
  contiguous : ∀ i, i ≠ s.currentWindowIdx →
    (s.windows (i + 1)).windowStartNs = (s.windows i).windowEndNs

variable {s} {s' : NodeStats} {r : IOCompletionData} {rs : List IOCompletionData}
  {base fuel ts : ℕ} {ok : NodeStats → IOCompletionData → Prop}

@[simp] theorem countNodeAddr_windows : (s.countNodeAddr r).windows = s.windows := by
  simp only [countNodeAddr]
  split <;> rfl

@[simp] theorem countNodeAddr_currentWindowIdx :
    (s.countNodeAddr r).currentWindowIdx = s.currentWindowIdx := by
  simp only [countNodeAddr]
  split <;> rfl

@[simp] theorem sampleLatency_windows : (s.sampleLatency r).windows = s.windows := by
  unfold sampleLatency
  split <;> rfl

@[simp] theorem sampleLatency_currentWindowIdx :
    (s.sampleLatency r).currentWindowIdx = s.currentWindowIdx := by
  unfold sampleLatency
  split <;> rfl

theorem val_succ (i : Fin windowCount) : (i + 1).val = (i.val + 1) % 60 := rfl

theorem succ_inj {i j : Fin windowCount} (h : i + 1 = j + 1) : i = j := by
  have hval := congrArg Fin.val h
  have hi : i.val < 60 := i.isLt
  have hj : j.val < 60 := j.isLt
  rw [val_succ,val_succ] at hval
  exact Fin.ext (by omega)

@[simp] theorem nextWindow_current : s.nextWindow.current =
    ⟨s.current.windowEndNs,add64 s.current.windowEndNs windowSizeNs,fun _ => ⟨0,0⟩⟩ := by
  simp [nextWindow, current]

theorem nextWindow_windows {i : Fin windowCount} (hi : i ≠ s.currentWindowIdx + 1) :
    s.nextWindow.windows i = s.windows i :=
  Function.update_of_ne hi _ _

/-- The bounds of the windows do not depend on what is counted in them. -/
@[simp] theorem accumulate_start (i : Fin windowCount) :
    ((s.accumulate r).windows i).windowStartNs = (s.windows i).windowStartNs := by
  by_cases hi : i = s.currentWindowIdx <;> simp [accumulate, current, hi]

@[simp] theorem accumulate_end (i : Fin windowCount) :
    ((s.accumulate r).windows i).windowEndNs = (s.windows i).windowEndNs := by
  by_cases hi : i = s.currentWindowIdx <;> simp [accumulate, current, hi]

theorem tiled_create (base : ℕ) : (create base).Tiled where
  start_lt i := sub64_lt _ _
  one_window i := by
    have hi : i.val < 60 := i.isLt
    have hsplit : (windowCount - i.val) * windowSizeNs =
        (windowCount - i.val - 1) * windowSizeNs + windowSizeNs := by
      rw [← Nat.succ_mul]
      congr 1
      simp only [windowCount]
      omega
    simp only [create]
    rw [hsplit,add64_sub64]
    simp only [windowCount, windowSizeNs_eq]
    omega
  contiguous i hi := by
    have hlt : i.val + 1 < 60 := by
      have hne := Fin.val_ne_of_ne hi
      have hi := i.isLt
      simp only [create, windowCount] at hne hi
      omega
    have hval : (i + 1).val = i.val + 1 := by
      rw [val_succ]
      exact Nat.mod_eq_of_lt hlt
    simp only [create, hval]
    rfl

theorem Tiled.end_lt (h : s.Tiled) (i : Fin windowCount) : (s.windows i).windowEndNs < 2 ^ 64 := by
  rw [h.one_window]
  exact add64_lt _ _

theorem Tiled.nextWindow (h : s.Tiled) : s.nextWindow.Tiled where
  start_lt i := by
    by_cases hi : i = s.currentWindowIdx + 1
    · subst hi
      simp only [NodeStats.nextWindow, Function.update_self]
      exact h.end_lt _
    · rw [nextWindow_windows hi]
      exact h.start_lt i
  one_window i := by
    by_cases hi : i = s.currentWindowIdx + 1
    · subst hi
      simp [NodeStats.nextWindow]
    · rw [nextWindow_windows hi]
      exact h.one_window i
  contiguous i hi := by
    have hi : i ≠ s.currentWindowIdx + 1 := hi
    rw [nextWindow_windows hi]
    by_cases hcur : i = s.currentWindowIdx
    · subst hcur
      simp [NodeStats.nextWindow, current]
    · rw [nextWindow_windows fun heq => hcur (succ_inj heq)]
      exact h.contiguous i hcur

theorem Tiled.of_bounds (h : s.Tiled) (hidx : s'.currentWindowIdx = s.currentWindowIdx)
    (hstart : ∀ i, (s'.windows i).windowStartNs = (s.windows i).windowStartNs)
    (hend : ∀ i, (s'.windows i).windowEndNs = (s.windows i).windowEndNs) : s'.Tiled where
  start_lt i := by simpa only [hstart] using h.start_lt i
  one_window i := by simpa only [hstart, hend] using h.one_window i
  contiguous i hi := by
    rw [hstart, hend]
    exact h.contiguous i (by rwa [← hidx])

/-- What every turn of the loop keeps holds when it ends. -/
theorem advance_invariant {I : NodeStats → Prop}
    (hstep : ∀ s, I s → s.current.windowEndNs ≤ ts → I s.nextWindow) :
    ∀ {fuel} {s s' : NodeStats}, I s → advance ts fuel s = some s' →
      I s' ∧ ts < s'.current.windowEndNs := by
  intro fuel
  induction fuel with
  | zero => intro s s' _ h; simp [advance] at h
  | succ fuel ih =>
    intro s s' hI h
    rw [advance] at h
    split at h
    next hle => exact ih (hstep s hI hle) h
    next hlt =>
    cases h
    exact ⟨hI,Nat.lt_of_not_le hlt⟩

theorem recordIo_eq_some (h : s.recordIo fuel r = some s') : ∃ t, advance r.ioDoneTsNs fuel s = some t ∧
    s'.windows = (t.accumulate r).windows ∧ s'.currentWindowIdx = t.currentWindowIdx := by
  rw [recordIo,Option.map_eq_some_iff] at h
  obtain ⟨u, hu, rfl⟩ := h
  rw [updateWindow,Option.map_eq_some_iff] at hu
  obtain ⟨t, ht, rfl⟩ := hu
  refine ⟨t,ht,?_,?_⟩
  · rw [sampleLatency_windows,countNodeAddr_windows]
  · rw [sampleLatency_currentWindowIdx,countNodeAddr_currentWindowIdx]
    rfl

/-- What the counters of a window do not matter for. -/
theorem recordIo_invariant {I : NodeStats → Prop}
    (hstep : ∀ s, I s → s.current.windowEndNs ≤ r.ioDoneTsNs → I s.nextWindow)
    (hcount : ∀ t u, I t → r.ioDoneTsNs < t.current.windowEndNs →
      u.windows = (t.accumulate r).windows → u.currentWindowIdx = t.currentWindowIdx → I u)
    (hI : I s) (h : s.recordIo fuel r = some s') : I s' := by
  obtain ⟨t, ht, hwindows, hidx⟩ := recordIo_eq_some h
  obtain ⟨hIt, hlt⟩ := advance_invariant hstep hI ht
  exact hcount t s' hIt hlt hwindows hidx

theorem Tiled.recordIo (h : s.Tiled) (hrun : s.recordIo fuel r = some s') : s'.Tiled := by
  apply recordIo_invariant (fun s hs _ => hs.nextWindow) _ h hrun
  intro t u ht _ hwindows hidx
  refine ht.of_bounds hidx ?_ ?_
  · intro i
    rw [hwindows,accumulate_start]
  · intro i
    rw [hwindows,accumulate_end]

theorem Recording.tiled (h : Recording base ok rs s) : s.Tiled := by
  induction h with
  | create => exact tiled_create base
  | record _ _ hrun ih => exact ih.recordIo hrun

/-- Windows begin and end at the same times as the first ones did, modulo 512. -/
theorem Recording.end_mod (h : Recording base ok rs s) :
    s.current.windowEndNs % 512 = base % 512 := by
  induction h with
  | create =>
    have hzero : (windowCount - (windowCount - 1) - 1) * windowSizeNs = 0 := by decide
    simp only [NodeStats.create, current]
    rw [hzero,sub64]
    omega
  | record _ _ hrun ih =>
    apply recordIo_invariant (I := fun s => s.current.windowEndNs % 512 = base % 512) _ _ ih hrun
    · intro s hs _
      rw [nextWindow_current]
      simp only [add64, windowSizeNs_eq]
      omega
    · intro t u ht _ hwindows hidx
      rwa [current,hwindows,hidx,accumulate_end]

/-- With enough turns the loop ends exactly if one of the ends that it meets lies above. -/
theorem advance_isSome (hlt : s.current.windowEndNs < 2 ^ 64) : (advance ts (fuel + 1) s).isSome ↔
    ∃ k ≤ fuel, ts < (s.current.windowEndNs + k * windowSizeNs) % 2 ^ 64 := by
  induction fuel generalizing s with
  | zero =>
    have hmod := Nat.mod_eq_of_lt hlt
    by_cases hle : s.current.windowEndNs ≤ ts <;> simp [advance, hle] <;> omega
  | succ fuel ih =>
    rw [advance]
    by_cases hle : s.current.windowEndNs ≤ ts
    · have hnext : s.nextWindow.current.windowEndNs = add64 s.current.windowEndNs windowSizeNs := by
        rw [nextWindow_current]
      have hshift : ∀ k, (s.nextWindow.current.windowEndNs + k * windowSizeNs) % 2 ^ 64 =
          (s.current.windowEndNs + (k + 1) * windowSizeNs) % 2 ^ 64 := by
        intro k
        rw [hnext,add64,Nat.mod_add_mod,Nat.succ_mul]
        congr 1
        omega
      rw [if_pos hle,ih (by rw [hnext]; exact add64_lt _ _)]
      constructor
      · rintro ⟨k, hk, hts⟩
        rw [hshift] at hts
        exact ⟨k + 1,by omega,hts⟩
      · rintro ⟨k, hk, hts⟩
        cases k with
        | zero =>
          rw [Nat.zero_mul,Nat.add_zero,Nat.mod_eq_of_lt hlt] at hts
          omega
        | succ k => exact ⟨k,by omega,by rwa [hshift]⟩
    · rw [if_neg hle]
      have hts : ts < (s.current.windowEndNs + 0 * windowSizeNs) % 2 ^ 64 := by
        rw [Nat.zero_mul,Nat.add_zero,Nat.mod_eq_of_lt hlt]
        exact Nat.lt_of_not_le hle
      exact ⟨fun _ => ⟨0,Nat.zero_le _,hts⟩,fun _ => rfl⟩

theorem exists_advance_iff (hlt : s.current.windowEndNs < 2 ^ 64) :
    (∃ fuel, (advance ts fuel s).isSome) ↔
      ts < 2 ^ 64 - 512 + s.current.windowEndNs % 512 := by
  have hgcd : Nat.gcd windowSizeNs (2 ^ 64) = 512 := by decide
  have hsteps := WrappingSteps.exists_lt_add_mul_mod_iff (w := windowSizeNs) (Nat.two_pow_pos 64)
    s.current.windowEndNs ts
  rw [hgcd] at hsteps
  rw [← hsteps]
  constructor
  · rintro ⟨fuel, hfuel⟩
    cases fuel with
    | zero => simp [advance] at hfuel
    | succ fuel =>
      obtain ⟨k, _, hk⟩ := (advance_isSome hlt).mp hfuel
      exact ⟨k,hk⟩
  · rintro ⟨k, hk⟩
    exact ⟨k + 1,(advance_isSome hlt).mpr ⟨k,Nat.le_refl k,hk⟩⟩

theorem recordIo_isSome : (s.recordIo fuel r).isSome = (advance r.ioDoneTsNs fuel s).isSome := by
  simp [recordIo, updateWindow]

/-- The end of the current window wraps, and one time in 512 is such an end: a record ends
the loop unless its time lies behind all of them. -/
theorem recordIo_returns_iff (h : Recording base ok rs s) (r : IOCompletionData) :
    (∃ fuel, (s.recordIo fuel r).isSome) ↔ r.ioDoneTsNs < 2 ^ 64 - 512 + base % 512 := by
  simp only [recordIo_isSome]
  rw [exists_advance_iff (h.tiled.end_lt _),h.end_mod]

def sampleRecord (ioDoneTsNs : ℕ) : IOCompletionData := ⟨1,1,ioDoneTsNs,ioDoneTsNs,4096,0,0,0,""⟩

theorem recordIo_returns_sample :
    ∃ fuel, ((create 100000000000).recordIo fuel (sampleRecord (2 ^ 64 - 513))).isSome :=
  (recordIo_returns_iff (.create : Recording _ (fun _ _ => True) _ _) _).mpr (by decide)

/-- A ring created 100 seconds after boot and the last of the 64-bit times. -/
theorem exists_recordIo_not_returning : ∃ base s r, Recording base (fun _ _ => True) [] s ∧
    r.ioDoneTsNs < 2 ^ 64 ∧ ∀ fuel, s.recordIo fuel r = none := by
  refine ⟨100000000000,_,sampleRecord (2 ^ 64 - 1),.create,by decide,?_⟩
  intro fuel
  have hlt := (tiled_create 100000000000).end_lt (create 100000000000).currentWindowIdx
  have hnever : ¬∃ fuel, (advance (2 ^ 64 - 1) fuel (create 100000000000)).isSome :=
    (exists_advance_iff hlt).not.mpr (by decide)
  apply Option.not_isSome_iff_eq_none.mp
  rw [recordIo_isSome]
  exact fun hfuel => hnever ⟨fuel,hfuel⟩

end NodeStats
end FalconKV
