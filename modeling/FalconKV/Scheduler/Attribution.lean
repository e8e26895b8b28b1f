import Mathlib.Algebra.BigOperators.Group.List.Basic
import FalconKV.Scheduler.NodeStats

/-! # Which window counts a record

The counters of a window are compared with the records whose time lies in it, over a whole
run. They agree as long as no record is late: a late one is counted in the current window.
-/
namespace FalconKV.NodeStats
variable {s s' : NodeStats} {r : IOCompletionData} {rs : List IOCompletionData}
  {base fuel ts : ℕ}

/-- The time does not lie before the windows of the ring, nor within one ring of the end of
the 64-bit times. -/
structure Admissible (s : NodeStats) (r : IOCompletionData) : Prop where
  not_older : s.current.windowEndNs ≤ r.ioDoneTsNs + windowCount * windowSizeNs
  lt : r.ioDoneTsNs < 2 ^ 64 - windowCount * windowSizeNs

/-- The time lies before the start of the current window. -/
def Late (s : NodeStats) (r : IOCompletionData) : Prop :=
  r.ioDoneTsNs + windowSizeNs < s.current.windowEndNs

def belongs (w : TimeWindowStats) (c : IOChannel) (r : IOCompletionData) : Bool :=
  decide (w.Contains r.ioDoneTsNs) && getChannelStats r.ioChannel == c

def totals (rs : List IOCompletionData) : ChannelStats :=
  ⟨(rs.map IOCompletionData.ioSize).sum % 2 ^ 64,rs.length % 2 ^ 32⟩

/-- Each window has counted the records of its interval, each of them once. -/
def Attributed (s : NodeStats) (rs : List IOCompletionData) : Prop :=
  ∀ i c, (s.windows i).channelStats c = totals (rs.filter (belongs (s.windows i) c))

theorem totals_append (rs : List IOCompletionData) (r : IOCompletionData) :
    totals (rs ++ [r]) = (totals rs).add r.ioSize := by
  simp only [totals, ChannelStats.add, add64, List.map_append, List.map_cons, List.map_nil,
    List.sum_append, List.sum_cons, List.sum_nil, List.length_append, List.length_cons,
    List.length_nil, Nat.add_zero, Nat.zero_add, Nat.mod_add_mod]

theorem add_ne (cs : ChannelStats) (ioSize : ℕ) : cs.add ioSize ≠ cs := by
  intro heq
  have hcount := congrArg ChannelStats.ioCount heq
  simp only [ChannelStats.add] at hcount
  omega

def age (s : NodeStats) (i : Fin windowCount) : ℕ :=
  (s.currentWindowIdx.val + windowCount - i.val) % windowCount

theorem age_lt (i : Fin windowCount) : s.age i < 60 := Nat.mod_lt _ (by decide)

theorem add_age (i : Fin windowCount) :
    (i.val + s.age i) % windowCount = s.currentWindowIdx.val := by
  have hi : i.val < 60 := i.isLt
  have hcur : s.currentWindowIdx.val < 60 := s.currentWindowIdx.isLt
  simp only [age, windowCount]
  omega

@[simp] theorem age_current : s.age s.currentWindowIdx = 0 := by
  simp [age, windowCount]

theorem age_injective {i j : Fin windowCount} (h : s.age i = s.age j) : i = j := by
  have hi : i.val < 60 := i.isLt
  have hj : j.val < 60 := j.isLt
  have hcur : s.currentWindowIdx.val < 60 := s.currentWindowIdx.isLt
  simp only [age, windowCount] at h
  exact Fin.ext (by omega)

theorem exists_age {k : ℕ} (hk : k < 60) : ∃ i, s.age i = k := by
  have hcur : s.currentWindowIdx.val < 60 := s.currentWindowIdx.isLt
  refine ⟨⟨(s.currentWindowIdx.val + 60 - k) % 60,Nat.mod_lt _ (by decide)⟩,?_⟩
  simp only [age, windowCount]
  omega

/-- From the current window backwards, by contiguity. -/
theorem Tiled.end_eq (h : s.Tiled) (k : ℕ) : ∀ i : Fin windowCount, k < 60 →
    (i.val + k) % windowCount = s.currentWindowIdx.val →
    (s.windows i).windowEndNs = sub64 s.current.windowEndNs (k * windowSizeNs) := by
  induction k with
  | zero =>
    intro i _ hi
    have hcur : i = s.currentWindowIdx := Fin.ext (by rw [← hi]; exact (Nat.mod_eq_of_lt i.isLt).symm)
    subst hcur
    have hlt := h.end_lt s.currentWindowIdx
    simp only [current, sub64]
    omega
  | succ k ih =>
    intro i hk hi
    have hlt : i.val < 60 := i.isLt
    have hi : (i.val + (k + 1)) % 60 = s.currentWindowIdx.val := hi
    have hne : i ≠ s.currentWindowIdx := by
      intro heq
      rw [← heq] at hi
      omega
    have hsucc : ((i + 1).val + k) % 60 = s.currentWindowIdx.val := by
      rw [val_succ]
      omega
    have hnext := ih (i + 1) (by omega) hsucc
    have hcontiguous := h.contiguous i hne
    have hwindow := h.one_window (i + 1)
    have hstart := h.start_lt (i + 1)
    have hend := h.end_lt i
    have hcur := h.end_lt s.currentWindowIdx
    simp only [current, add64, sub64, windowSizeNs_eq] at *
    omega

theorem Tiled.contains_iff (h : s.Tiled) (hts : ts < 2 ^ 64 - windowCount * windowSizeNs)
    (i : Fin windowCount) : (s.windows i).Contains ts ↔
      s.current.windowEndNs ≤ ts + (s.age i + 1) * windowSizeNs ∧
        ts + s.age i * windowSizeNs < s.current.windowEndNs := by
  have hage := age_lt (s := s) i
  have hend := h.end_eq (s.age i) i hage (add_age i)
  have hwindow := h.one_window i
  have hstart := h.start_lt i
  have hcur := h.end_lt s.currentWindowIdx
  simp only [TimeWindowStats.Contains, current, add64, sub64, windowCount, windowSizeNs_eq] at *
  omega

/-- A time that is not older than the ring lies in one window, once the current one ends
behind it. -/
theorem Tiled.existsUnique_contains (h : s.Tiled) (hr : Admissible s r)
    (hlt : r.ioDoneTsNs < s.current.windowEndNs) :
    ∃! i, (s.windows i).Contains r.ioDoneTsNs := by
  have hold := hr.not_older
  obtain ⟨k, hk⟩ : ∃ k, k = (s.current.windowEndNs - 1 - r.ioDoneTsNs) / windowSizeNs := ⟨_,rfl⟩
  simp only [windowCount, windowSizeNs_eq] at hold hk
  have hk60 : k < 60 := by omega
  obtain ⟨i, hi⟩ := exists_age (s := s) hk60
  refine ⟨i,?_,?_⟩
  · apply (h.contains_iff hr.lt i).mpr
    rw [hi,windowSizeNs_eq]
    omega
  · intro j hj
    have hj := (h.contains_iff hr.lt j).mp hj
    apply age_injective
    rw [hi]
    simp only [windowSizeNs_eq] at hj
    omega

structure Counted (s : NodeStats) (rs : List IOCompletionData) : Prop where
  tiled : s.Tiled
  past : ∀ r ∈ rs, r.ioDoneTsNs < s.current.windowEndNs ∧
    r.ioDoneTsNs < 2 ^ 64 - windowCount * windowSizeNs
  attributed : Attributed s rs

theorem counted_create (base : ℕ) : Counted (create base) [] where
  tiled := tiled_create base
  past _ hr := absurd hr List.not_mem_nil
  attributed _ _ := rfl

theorem nextWindow_end (hle : s.current.windowEndNs ≤ ts)
    (hts : ts < 2 ^ 64 - windowCount * windowSizeNs) :
    s.nextWindow.current.windowEndNs = s.current.windowEndNs + windowSizeNs := by
  rw [nextWindow_current]
  simp only [add64, windowCount, windowSizeNs_eq] at *
  omega

/-- No earlier record lies in a window that begins where the last one ended. -/
theorem Counted.nextWindow (h : Counted s rs) (hle : s.current.windowEndNs ≤ ts)
    (hts : ts < 2 ^ 64 - windowCount * windowSizeNs) : Counted s.nextWindow rs where
  tiled := h.tiled.nextWindow
  past r hr := by
    obtain ⟨hlt, hbound⟩ := h.past r hr
    rw [nextWindow_end hle hts]
    exact ⟨Nat.lt_add_right _ hlt,hbound⟩
  attributed i c := by
    by_cases hi : i = s.currentWindowIdx + 1
    · have hcur : s.nextWindow.windows i = s.nextWindow.current := by
        subst hi
        rfl
      have hempty : rs.filter (belongs (s.nextWindow.windows i) c) = [] := by
        apply List.filter_eq_nil_iff.mpr
        intro r hr hbelongs
        obtain ⟨hlt, hbound⟩ := h.past r hr
        have hcontains := of_decide_eq_true (Bool.and_eq_true_iff.mp hbelongs).1
        have hcontains := (h.tiled.nextWindow.contains_iff hbound i).mp hcontains
        have hidx : i = s.nextWindow.currentWindowIdx := hi
        rw [hidx,age_current,nextWindow_end hle hts] at hcontains
        omega
      rw [hempty,hcur,nextWindow_current]
      rfl
    · rw [nextWindow_windows hi]
      exact h.attributed i c

theorem accumulate_channelStats (i : Fin windowCount) (c : IOChannel) :
    ((s.accumulate r).windows i).channelStats c =
      if i = s.currentWindowIdx ∧ getChannelStats r.ioChannel = c then
        ((s.windows i).channelStats c).add r.ioSize
      else (s.windows i).channelStats c := by
  by_cases hi : i = s.currentWindowIdx
  · subst hi
    by_cases hc : getChannelStats r.ioChannel = c
    · subst hc
      simp [accumulate, current]
    · simp [accumulate, current, hc, Function.update_of_ne (Ne.symm hc)]
  · simp [accumulate, hi]

theorem belongs_congr {w w' : TimeWindowStats} (hstart : w'.windowStartNs = w.windowStartNs)
    (hend : w'.windowEndNs = w.windowEndNs) (c : IOChannel) : belongs w' c = belongs w c := by
  funext r
  have hcontains : w'.Contains r.ioDoneTsNs ↔ w.Contains r.ioDoneTsNs := by
    simp only [TimeWindowStats.Contains, hstart, hend]
  simp only [belongs, hcontains]

/-- The current window is the right one exactly for the records that are not late. -/
theorem Counted.belongs_iff (h : Counted s rs) (hts : r.ioDoneTsNs < 2 ^ 64 - windowCount * windowSizeNs)
    (hlt : r.ioDoneTsNs < s.current.windowEndNs) (hlate : ¬Late s r) (i : Fin windowCount)
    (c : IOChannel) : belongs (s.windows i) c r = true ↔
      i = s.currentWindowIdx ∧ getChannelStats r.ioChannel = c := by
  have hcontains : (s.windows i).Contains r.ioDoneTsNs ↔ i = s.currentWindowIdx := by
    rw [h.tiled.contains_iff hts]
    simp only [Late, windowSizeNs_eq] at hlate ⊢
    constructor
    · intro hin
      apply age_injective
      rw [age_current]
      omega
    · rintro rfl
      rw [age_current]
      omega
  rw [belongs,Bool.and_eq_true_iff,decide_eq_true_iff,hcontains,beq_iff_eq]

theorem Counted.attributed_accumulate_iff (h : Counted s rs)
    (hts : r.ioDoneTsNs < 2 ^ 64 - windowCount * windowSizeNs)
    (hlt : r.ioDoneTsNs < s.current.windowEndNs) :
    Attributed (s.accumulate r) (rs ++ [r]) ↔ ¬Late s r := by
  constructor
  · intro hattr hlate
    -- the counters went up, and the records that they stand for are the same
    have hcount := hattr s.currentWindowIdx (getChannelStats r.ioChannel)
    have hnot : belongs (s.windows s.currentWindowIdx) (getChannelStats r.ioChannel) r = false := by
      apply Bool.eq_false_iff.mpr
      intro hbelongs
      have hcontains := of_decide_eq_true (Bool.and_eq_true_iff.mp hbelongs).1
      have hin := (h.tiled.contains_iff hts _).mp hcontains
      rw [age_current] at hin
      simp only [Late] at hlate
      omega
    rw [accumulate_channelStats,if_pos ⟨rfl,rfl⟩,
      belongs_congr (accumulate_start _) (accumulate_end _),List.filter_append,
      List.filter_cons_of_neg (by simp [hnot]),List.filter_nil,List.append_nil,
      ← h.attributed] at hcount
    exact add_ne _ _ hcount
  · intro hlate i c
    rw [accumulate_channelStats,belongs_congr (accumulate_start i) (accumulate_end i),
      List.filter_append,h.attributed i c]
    by_cases hi : i = s.currentWindowIdx ∧ getChannelStats r.ioChannel = c
    · rw [if_pos hi,List.filter_cons_of_pos ((h.belongs_iff hts hlt hlate i c).mpr hi),
        List.filter_nil,totals_append]
    · have hnot := (h.belongs_iff hts hlt hlate i c).not.mpr hi
      rw [if_neg hi,List.filter_cons_of_neg hnot,List.filter_nil,List.append_nil]

/-- Moving forward leaves the counters right, and makes no record late. -/
theorem Counted.recordIo (h : Counted s rs) (hr : Admissible s r)
    (hrun : s.recordIo fuel r = some s') : ∃ t, Counted t rs ∧ Admissible t r ∧
      (Late t r ↔ Late s r) ∧ r.ioDoneTsNs < t.current.windowEndNs ∧
      s'.windows = (t.accumulate r).windows ∧ s'.currentWindowIdx = t.currentWindowIdx := by
  obtain ⟨t, ht, hwindows, hidx⟩ := recordIo_eq_some hrun
  have hstep : ∀ u, (Counted u rs ∧ Admissible u r ∧ (Late u r ↔ Late s r)) →
      u.current.windowEndNs ≤ r.ioDoneTsNs →
      Counted u.nextWindow rs ∧ Admissible u.nextWindow r ∧ (Late u.nextWindow r ↔ Late s r) := by
    rintro u ⟨hcounted, hadmissible, hlate⟩ hle
    have hend := nextWindow_end hle hr.lt
    have hold : u.nextWindow.current.windowEndNs ≤ r.ioDoneTsNs + windowCount * windowSizeNs := by
      rw [hend]
      simp only [windowCount, windowSizeNs_eq]
      omega
    have hnext : Late u.nextWindow r ↔ Late u r := by
      simp only [Late, hend]
      omega
    exact ⟨hcounted.nextWindow hle hr.lt,⟨hold,hr.lt⟩,hnext.trans hlate⟩
  obtain ⟨⟨hcounted, hadmissible, hlate⟩, hlt⟩ := advance_invariant hstep ⟨h,hr,Iff.rfl⟩ ht
  exact ⟨t,hcounted,hadmissible,hlate,hlt,hwindows,hidx⟩

theorem Counted.record (h : Counted s rs) (hr : Admissible s r)
    (hrun : s.recordIo fuel r = some s') (hlate : ¬Late s r) : Counted s' (rs ++ [r]) := by
  obtain ⟨t, ht, _, hiff, hlt, hwindows, hidx⟩ := h.recordIo hr hrun
  have hend : s'.current.windowEndNs = t.current.windowEndNs := by
    rw [current,hwindows,hidx,accumulate_end]
    rfl
  refine ⟨h.tiled.recordIo hrun,?_,?_⟩
  · intro x hx
    rw [hend]
    rcases List.mem_append.mp hx with hx | hx
    · exact ht.past x hx
    · rw [List.mem_singleton.mp hx]
      exact ⟨hlt,hr.lt⟩
  · rw [Attributed,hwindows]
    exact (ht.attributed_accumulate_iff hr.lt hlt).mpr (hiff.not.mpr hlate)

theorem Recording.counted (h : Recording base (fun s r => Admissible s r ∧ ¬Late s r) rs s) :
    Counted s rs := by
  induction h with
  | create => exact counted_create base
  | record _ hok hrun ih => exact ih.record hok.1 hrun hok.2

/-- As long as no record is late each window has counted what lies in it, and the next
record keeps it so exactly if it is not late either. -/
theorem recording_attributed (h : Recording base (fun s r => Admissible s r ∧ ¬Late s r) rs s) :
    s.Tiled ∧ Attributed s rs ∧ ∀ r, Admissible s r → (∃ fuel, (s.recordIo fuel r).isSome) ∧
      ∀ fuel s', s.recordIo fuel r = some s' →
        s'.Tiled ∧ (∃! i, (s'.windows i).Contains r.ioDoneTsNs) ∧
        (Attributed s' (rs ++ [r]) ↔ ¬Late s r) := by
  have hcounted := h.counted
  refine ⟨hcounted.tiled,hcounted.attributed,?_⟩
  intro r hr
  constructor
  · simp only [recordIo_isSome]
    apply (exists_advance_iff (hcounted.tiled.end_lt _)).mpr
    have hlt := hr.lt
    simp only [windowCount, windowSizeNs_eq] at hlt
    omega
  · intro fuel s' hrun
    obtain ⟨t, ht, hadmissible, hiff, hlt, hwindows, hidx⟩ := hcounted.recordIo hr hrun
    refine ⟨hcounted.tiled.recordIo hrun,?_,?_⟩
    · have hunique := ht.tiled.existsUnique_contains hadmissible hlt
      simpa only [TimeWindowStats.Contains, hwindows, accumulate_start, accumulate_end] using hunique
    · rw [Attributed,hwindows,← hiff]
      exact ht.attributed_accumulate_iff hr.lt hlt

theorem recording_attributed_sample : ∃ s, Recording 100000000000
    (fun s r => Admissible s r ∧ ¬Late s r) [sampleRecord 100500000000] s ∧
    Attributed s [sampleRecord 100500000000] := by
  have hend : (create 100000000000).current.windowEndNs = 100000000000 := by decide
  obtain ⟨s, hs⟩ : ∃ s, (create 100000000000).recordIo 2 (sampleRecord 100500000000) = some s :=
    ⟨_,rfl⟩
  have hok : Admissible (create 100000000000) (sampleRecord 100500000000) ∧
      ¬Late (create 100000000000) (sampleRecord 100500000000) := by
    refine ⟨⟨?_,by decide⟩,?_⟩
    · rw [hend]
      decide
    · rw [Late,hend]
      decide
  have hrun : Recording 100000000000 (fun s r => Admissible s r ∧ ¬Late s r)
      [sampleRecord 100500000000] s := .record .create hok hs
  exact ⟨s,hrun,(recording_attributed hrun).2.1⟩

/-- Two reports that arrive in the other order than their times. -/
theorem exists_not_attributed : ∃ base rs s, Recording base Admissible rs s ∧ ¬Attributed s rs := by
  have hend : (create 100000000000).current.windowEndNs = 100000000000 := by decide
  obtain ⟨s, hs, hs_end⟩ : ∃ s, (create 100000000000).recordIo 2 (sampleRecord 100500000000) =
      some s ∧ s.current.windowEndNs = 101000000000 := ⟨_,rfl,by decide⟩
  have hnew : Admissible (create 100000000000) (sampleRecord 100500000000) :=
    ⟨by rw [hend]; decide,by decide⟩
  have hnot : ¬Late (create 100000000000) (sampleRecord 100500000000) := by
    rw [Late,hend]
    decide
  have hold : Admissible s (sampleRecord 99500000000) := ⟨by rw [hs_end]; decide,by decide⟩
  have hlate : Late s (sampleRecord 99500000000) := by
    rw [Late,hs_end]
    decide
  obtain ⟨t, ht⟩ : ∃ t, s.recordIo 1 (sampleRecord 99500000000) = some t := by
    apply Option.isSome_iff_exists.mp
    rw [recordIo_isSome]
    rw [advance,hs_end,if_neg (by decide)]
    rfl
  refine ⟨_,_,t,.record (.record .create hnew hs) hold ht,?_⟩
  obtain ⟨u, hu, _, hiff, hlt, hwindows, _⟩ :=
    ((counted_create _).record hnew hs hnot).recordIo hold ht
  rw [Attributed,hwindows]
  exact fun hattr => (hu.attributed_accumulate_iff hold.lt hlt).mp hattr (hiff.mpr hlate)

end FalconKV.NodeStats
