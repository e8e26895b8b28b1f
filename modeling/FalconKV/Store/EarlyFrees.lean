import FalconKV.Store.QueueRuns

/-! # Frees before the grace period is over

The scan subtracts the time of an entry from a reading of the clock that was made before the
lock was taken. Where the entry is younger than the reading, the unsigned difference wraps
and the entry counts as expired, unless the grace period is nearly the whole range.
-/
namespace FalconKV
open AtomicCalls

/-- When the unsigned test agrees with the clock. -/
theorem PendingEvictQueue.expired_on_time_iff {q : PendingEvictQueue} {now : ℕ} {e : EvictEntry}
    (hnow : now < 2^64) (htime : e.enqueueTimeMs < 2^64) :
    (q.expired now e = true → e.enqueueTimeMs + q.gracePeriodMs ≤ now) ↔
      e.enqueueTimeMs ≤ now ∨ now + 2^64 < e.enqueueTimeMs + q.gracePeriodMs := by
  have hsub : subU64 now e.enqueueTimeMs = (now + 2^64 - e.enqueueTimeMs) % 2^64 := by
    rw [subU64, Nat.mod_eq_of_lt htime]
  rw [expired, decide_eq_true_iff, hsub]
  rcases Nat.lt_or_ge now e.enqueueTimeMs with hlt | hge
  · -- the difference wraps
    rw [Nat.mod_eq_of_lt (by omega)]
    omega
  · have hmod : (now + 2^64 - e.enqueueTimeMs) % 2^64 = now - e.enqueueTimeMs := by
      rw [Nat.sub_add_comm hge, Nat.add_mod_right, Nat.mod_eq_of_lt (by omega)]
    rw [hmod]
    omega

namespace EvictQueue
open QueueCall

def takes (c : Answered queueCalls) : Bool :=
  match c.op with
  | .takeExpired _ | .takeAll => true
  | _ => false

/-- The last entries that the calls took are those that a scan at `now` found. -/
def LastScan (calls : List (Answered queueCalls)) (now : ℕ) (taken : List EvictEntry) : Prop :=
  ∃ pre mid, calls = pre ++ ⟨.takeExpired now,taken⟩ :: mid ∧ ∀ c ∈ mid, takes c = false

/-- A scan at `now` puts the entry into `to_free`, and the loop over `to_free` passes it to
`Free`. -/
def FreedAt (calls : List (Answered queueCalls)) (now : ℕ) (e : EvictEntry) : Prop :=
  ∃ pre post taken, calls = pre ++ ⟨.free (int64 e.offset) e.allocSize,()⟩ :: post ∧
    LastScan pre now taken ∧ e ∈ taken

/-- No flush frees an entry at a reading at which its grace period is not over. -/
def OnTime (gracePeriodMs : ℕ) (tr : List (Event queueCalls EvictQueue)) : Prop :=
  ∀ i now e, FreedAt (callsOf i tr) now e → e.enqueueTimeMs + gracePeriodMs ≤ now

/-- Every entry that the call scans is as old as the reading, or the grace period reaches
beyond the difference that wraps. -/
def Timely (gracePeriodMs : ℕ) (ev : Event queueCalls EvictQueue) : Prop :=
  match ev.op with
  | .takeExpired now => ∀ e ∈ ev.before.queue.entries,
    e.enqueueTimeMs ≤ now ∨ now + 2^64 < e.enqueueTimeMs + gracePeriodMs
  | _ => True

instance (gracePeriodMs : ℕ) (ev : Event queueCalls EvictQueue) :
    Decidable (Timely gracePeriodMs ev) := by
  unfold Timely
  cases ev.op <;> infer_instance

variable {tr : List (Event queueCalls EvictQueue)} {Q : Pool queueCalls EvictQueue QueueReply}
  {gracePeriodMs : ℕ} {allocator : SlotAllocator} {calls : List (Answered queueCalls)}
  {now i : ℕ} {e : EvictEntry} {taken : List EvictEntry}

structure Stamped (gracePeriodMs : ℕ) (q : PendingEvictQueue) : Prop where
  grace : q.gracePeriodMs = gracePeriodMs
  time : ∀ e ∈ q.entries, e.enqueueTimeMs < 2^64

theorem Stamped.step {q q' : PendingEvictQueue} {c : Answered queueCalls}
    (hq : Stamped gracePeriodMs q) (h : QueueStep q c q') : Stamped gracePeriodMs q' := by
  cases h with
  | enqueue key offset allocSize hnow =>
    constructor
    · exact hq.grace
    · intro e he
      rcases List.mem_append.mp he with he | he
      · exact hq.time e he
      · obtain rfl := List.mem_singleton.mp he
        exact hnow
  | takeExpired left now =>
    constructor
    · exact hq.grace
    · intro e he
      -- the times are those of entries that were kept
      have htime : e.unkeyed ∈ (q.takeExpired now).2.entries.map EvictEntry.unkeyed := by
        rw [← q.scan_snd left now]
        exact List.mem_map_of_mem he
      obtain ⟨e',he',heq⟩ := List.mem_map.mp htime
      obtain ⟨-,-,hsame⟩ : e'.offset = e.offset ∧ e'.allocSize = e.allocSize ∧
          e'.enqueueTimeMs = e.enqueueTimeMs := by simpa [EvictEntry.unkeyed] using heq
      rw [← hsame]
      exact hq.time e' (List.mem_of_mem_filter he')
  | takeAll => exact ⟨hq.grace,fun e he => nomatch he⟩
  | aside r h => exact hq

theorem Runs.stamped (h : Runs gracePeriodMs allocator tr Q) : Stamped gracePeriodMs Q.state.queue := by
  apply h.invariant (fun _ s => Stamped gracePeriodMs s.queue)
  · exact ⟨rfl,fun e he => nomatch he⟩
  · intro tr i s op c r s' hq _ hs
    exact hq.step (step_queue hs)

theorem scan_now_lt {l : FlushLedger} (h : flushLedger.Entered ⟨[],0⟩ calls l)
    (hmem : ⟨.takeExpired now,taken⟩ ∈ calls) : now < 2^64 := by
  induction h with
  | nil => cases hmem
  | @snoc calls op r l l' _ _ hrule ih =>
    rcases List.mem_append.mp hmem with hmem | hmem
    · exact ih hmem
    · cases List.mem_singleton.mp hmem
      exact hrule.1

/-- A scan takes nothing early if and only if it is timely. -/
theorem Runs.scan_on_time_iff {s s' : EvictQueue} (h : Runs gracePeriodMs allocator tr Q)
    (hmem : ⟨i,s,.takeExpired now,taken,s'⟩ ∈ tr) :
    (∀ e ∈ taken, e.enqueueTimeMs + gracePeriodMs ≤ now) ↔ ∀ e ∈ s.queue.entries,
      e.enqueueTimeMs ≤ now ∨ now + 2^64 < e.enqueueTimeMs + gracePeriodMs := by
  obtain ⟨tr₁,tr₂,htr⟩ := List.append_of_mem hmem
  obtain ⟨Q₁,hrun,hstate,-,c,hs⟩ := h.at_event htr
  have hstamped : Stamped gracePeriodMs s.queue := by
    have hq := Runs.stamped hrun
    rwa [hstate] at hq
  have hnow : now < 2^64 := by
    have hlt := Run.thread_lt h
    have hi := hlt _ hmem
    obtain ⟨l,hl,-⟩ := h.ledgers i _ (List.getElem?_eq_getElem hi)
    exact scan_now_lt hl (mem_callsOf.mpr ⟨_,hmem,rfl,rfl⟩)
  have htaken : taken = s.queue.entries.filter (s.queue.expired now) := by
    have hres : (s.queue.scan c.left now).1 = taken := congrArg Prod.fst (Option.some.inj hs)
    rw [← hres, s.queue.scan_fst c.left now, PendingEvictQueue.takeExpired]
  have hiff : ∀ e ∈ s.queue.entries,
      (s.queue.expired now e = true → e.enqueueTimeMs + gracePeriodMs ≤ now) ↔
        e.enqueueTimeMs ≤ now ∨ now + 2^64 < e.enqueueTimeMs + gracePeriodMs := by
    intro e he
    rw [← hstamped.grace]
    exact PendingEvictQueue.expired_on_time_iff hnow (hstamped.time e he)
  constructor
  · intro hall e he
    apply (hiff e he).mp
    intro hexp
    exact hall e (htaken ▸ List.mem_filter.mpr ⟨he,hexp⟩)
  · intro htimely e he
    rw [htaken] at he
    obtain ⟨he,hexp⟩ := List.mem_filter.mp he
    exact (hiff e he).mpr (htimely e he) hexp

theorem LastScan.snoc {c : Answered queueCalls} (h : LastScan calls now taken)
    (hc : takes c = false) : LastScan (calls ++ [c]) now taken := by
  obtain ⟨pre,mid,rfl,hmid⟩ := h
  refine ⟨pre,mid ++ [c],by simp,?_⟩
  intro c' hc'
  rcases List.mem_append.mp hc' with hc' | hc'
  · exact hmid c' hc'
  · obtain rfl := List.mem_singleton.mp hc'
    exact hc

theorem FreedAt.snoc (h : FreedAt calls now e) (c : Answered queueCalls) :
    FreedAt (calls ++ [c]) now e := by
  obtain ⟨pre,post,taken,rfl,hlast,he⟩ := h
  exact ⟨pre,post ++ [c],taken,by simp,hlast,he⟩

/-- What is freed was found by a scan at that reading. -/
theorem FreedAt.scanned (h : FreedAt calls now e) :
    ∃ taken, ⟨.takeExpired now,taken⟩ ∈ calls ∧ e ∈ taken := by
  obtain ⟨pre,post,taken,rfl,⟨pre',mid,rfl,-⟩,he⟩ := h
  exact ⟨taken,by simp,he⟩

/-- What a scan found has been freed, or the scan was the last and the entry is owed. -/
theorem freed_or_owed {l : FlushLedger} (h : flushLedger.Entered ⟨[],0⟩ calls l)
    (hmem : ⟨.takeExpired now,taken⟩ ∈ calls) (he : e ∈ taken) :
    FreedAt calls now e ∨ (LastScan calls now taken ∧ e ∈ l.owed) := by
  induction h with
  | nil => cases hmem
  | @snoc calls op r l l' _ _ hrule ih =>
    rcases List.mem_append.mp hmem with hmem | hmem
    · rcases ih hmem with hfreed | ⟨hlast,howed⟩
      · exact .inl (hfreed.snoc ⟨op,r⟩)
      · -- the scan was the last one so far
        cases op with
        | takeExpired now' =>
          rw [hrule.2.1] at howed
          cases howed
        | takeAll =>
          rw [hrule.1] at howed
          cases howed
        | free offset allocSize =>
          obtain ⟨e',hparcel,hcons,-⟩ := hrule
          rw [hcons] at howed
          rcases List.mem_cons.mp howed with rfl | howed
          · obtain ⟨rfl,rfl⟩ := Prod.mk.inj hparcel
            exact .inl ⟨calls,[],taken,rfl,hlast,he⟩
          · exact .inr ⟨hlast.snoc rfl,howed⟩
        | _ =>
          obtain rfl := hrule
          exact .inr ⟨hlast.snoc rfl,howed⟩
    · cases List.mem_singleton.mp hmem
      obtain ⟨-,-,rfl⟩ := hrule
      exact .inr ⟨⟨calls,[],rfl,by simp⟩,he⟩

/-- A thread that has returned has freed what its scans found. -/
theorem Runs.freedAt (h : Runs gracePeriodMs allocator tr Q) (hret : Q.Returned)
    (hmem : ⟨.takeExpired now,taken⟩ ∈ callsOf i tr) (he : e ∈ taken) :
    FreedAt (callsOf i tr) now e := by
  obtain ⟨ev,hev,rfl,-⟩ := mem_callsOf.mp hmem
  have hlt := Run.thread_lt h
  have hi := hlt ev hev
  obtain ⟨l,hl,hkept⟩ := h.ledgers ev.thread _ (List.getElem?_eq_getElem hi)
  obtain ⟨reply,hreply⟩ := hret.ret (List.getElem_mem hi)
  rw [hreply] at hkept
  rcases freed_or_owed hl hmem he with hfreed | ⟨-,howed⟩
  · exact hfreed
  · rw [hkept.1] at howed
    cases howed

/-- In a run whose scans are all timely no entry is freed early, and where no entry was freed
early by the time that all threads have returned, all scans were timely. -/
theorem onTime_of_timely (h : Runs gracePeriodMs allocator tr Q) :
    ((∀ ev ∈ tr, Timely gracePeriodMs ev) → OnTime gracePeriodMs tr) ∧
      (Q.Returned → OnTime gracePeriodMs tr → ∀ ev ∈ tr, Timely gracePeriodMs ev) := by
  constructor
  · intro htimely i now e hfreed
    obtain ⟨taken,hmem,he⟩ := hfreed.scanned
    obtain ⟨⟨j,s,op,r,s'⟩,hev,rfl,hcall⟩ := mem_callsOf.mp hmem
    cases hcall
    exact (h.scan_on_time_iff hev).mpr (htimely _ hev) e he
  · rintro hret honTime ⟨i,s,op,taken,s'⟩ hev
    cases op with
    | takeExpired now =>
      apply (h.scan_on_time_iff hev).mp
      intro e he
      have hmem : ⟨.takeExpired now,taken⟩ ∈ callsOf i tr := mem_callsOf.mpr ⟨_,hev,rfl,rfl⟩
      exact honTime i now e (h.freedAt hret hmem he)
    | _ => trivial

theorem operations_flush : ∀ p ∈ [flushExpired,enqueue "a" 0 10], Operation p := by
  intro p hp
  simp only [List.mem_cons, List.not_mem_nil, or_false] at hp
  rcases hp with rfl | rfl
  · exact .flushExpired
  · exact .enqueue "a" 0 10

/-- The flush comes after the grace period. -/
theorem onTime_of_timely_late : ∃ tr Q, Runs 5000 (.create 100 10) tr Q ∧
    Q.replies = [some (.flushed 10),some .done] ∧ OnTime 5000 tr := by
  obtain ⟨tr,Q,hrun,hv⟩ := runs_of_schedule 5000 (.create 100 10) [flushExpired,enqueue "a" 0 10]
    [(1,⟨1000,id⟩),(0,⟨6000,id⟩),(0,⟨0,id⟩),(0,⟨0,id⟩)]
    (f := fun y => (y.2.replies,decide (∀ ev ∈ y.1, Timely 5000 ev)))
    (v := ([some (.flushed 10),some .done],true)) operations_flush rfl
  obtain ⟨hreplies,htimely⟩ := Prod.mk.inj hv
  exact ⟨tr,Q,hrun,hreplies,(onTime_of_timely hrun).1 (of_decide_eq_true htimely)⟩

/-- The flush reads the clock, an entry is enqueued a millisecond later, and the scan frees it. -/
theorem exists_freed_early : ∃ tr Q, Runs 5000 (.create 100 10) tr Q ∧
    FreedAt (callsOf 0 tr) 999 ⟨"a",0,10,1000⟩ ∧ ¬ OnTime 5000 tr := by
  obtain ⟨tr,Q,hrun,hv⟩ := runs_of_schedule 5000 (.create 100 10) [flushExpired,enqueue "a" 0 10]
    [(0,⟨999,id⟩),(1,⟨1000,id⟩),(0,⟨0,id⟩),(0,⟨0,id⟩)]
    (f := fun y => callsOf 0 y.1)
    (v := [⟨.getWallTimeMs,(999 : ℕ)⟩,⟨.takeExpired 999,[⟨"a",0,10,1000⟩]⟩,⟨.free 0 10,()⟩])
    operations_flush rfl
  have hfreed : FreedAt (callsOf 0 tr) 999 ⟨"a",0,10,1000⟩ := by
    refine ⟨[⟨.getWallTimeMs,(999 : ℕ)⟩,⟨.takeExpired 999,[⟨"a",0,10,1000⟩]⟩],[],[⟨"a",0,10,1000⟩],hv,?_,
      List.mem_singleton_self _⟩
    exact ⟨[⟨.getWallTimeMs,(999 : ℕ)⟩],[],rfl,by simp⟩
  refine ⟨tr,Q,hrun,hfreed,?_⟩
  intro honTime
  have hlate := honTime 0 999 _ hfreed
  simp at hlate

end EvictQueue

end FalconKV
