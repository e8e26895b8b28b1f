import FalconKV.Store.QueueCalls

/-! # Custody of the entries of the pending queue

A thread that has taken entries out of the queue owes their frees, which it makes in order
before it takes more or returns. What was enqueued is then in the queue, owed by the thread
that took it, or freed.
-/
namespace FalconKV
open AtomicCalls

abbrev Parcel := ℤ × ℕ

def EvictEntry.parcel (e : EvictEntry) : Parcel := (int64 e.offset,e.allocSize)

def parcels (entries : List EvictEntry) : Multiset Parcel := (entries.map EvictEntry.parcel : List Parcel)

@[simp] theorem parcels_nil : parcels [] = 0 := rfl

theorem parcels_cons (e : EvictEntry) (entries : List EvictEntry) :
    parcels (e :: entries) = {e.parcel} + parcels entries := by
  rw [parcels, List.map_cons, ← Multiset.cons_coe, Multiset.singleton_add]
  rfl

theorem parcels_append (entries entries' : List EvictEntry) :
    parcels (entries ++ entries') = parcels entries + parcels entries' := by
  rw [parcels, List.map_append, ← Multiset.coe_add]
  rfl

/-- Keys do not matter. -/
theorem parcels_congr {entries entries' : List EvictEntry}
    (h : entries.map EvictEntry.unkeyed = entries'.map EvictEntry.unkeyed) :
    parcels entries = parcels entries' := by
  have hfactor : EvictEntry.parcel = (fun x : ℕ × ℕ × ℕ => (int64 x.1,x.2.1)) ∘ EvictEntry.unkeyed := rfl
  simp only [parcels, hfactor, ← List.map_map, h]

theorem parcels_filter (entries : List EvictEntry) (p : EvictEntry → Bool) :
    parcels entries = parcels (entries.filter p) + parcels (entries.filter fun e => !p e) := by
  have h := Multiset.filter_add_not (fun e => p e = true) (entries : Multiset EvictEntry)
  have hmap := congrArg (Multiset.map EvictEntry.parcel) h
  rw [Multiset.map_add] at hmap
  simpa [parcels] using hmap.symm

namespace QueueCall

def enqueued (c : Answered queueCalls) : Multiset Parcel :=
  match c with
  | ⟨.enqueue _ offset allocSize,_⟩ => {(int64 offset,allocSize)}
  | _ => 0

def toFree (c : Answered queueCalls) : List EvictEntry :=
  match c with
  | ⟨.takeExpired _,taken⟩ => taken
  | ⟨.takeAll,taken⟩ => taken
  | _ => []

def taken (c : Answered queueCalls) : Multiset Parcel := parcels (toFree c)

def freed (c : Answered queueCalls) : Multiset Parcel :=
  match c with
  | ⟨.free offset allocSize,_⟩ => {(offset,allocSize)}
  | _ => 0

def stamped (c : Answered queueCalls) (q q' : PendingEvictQueue) : List EvictEntry :=
  match c with
  | ⟨.enqueue ..,_⟩ => q'.entries.drop q.entries.length
  | _ => []

def touchesQueue : QueueCall → Bool
  | enqueue .. | takeExpired _ | takeAll => true
  | _ => false

theorem enqueued_aside {op : QueueCall} (r : op.Res) (h : op.touchesQueue = false) :
    enqueued ⟨op,r⟩ = 0 := by
  cases op <;> first | rfl | cases h

theorem toFree_aside {op : QueueCall} (r : op.Res) (h : op.touchesQueue = false) :
    toFree ⟨op,r⟩ = [] := by
  cases op <;> first | rfl | cases h

end QueueCall

namespace EvictQueue
open QueueCall

variable {tr tr' : List (Event queueCalls EvictQueue)} {Q Q' : Pool queueCalls EvictQueue QueueReply}

def takenBy (i : ℕ) (tr : List (Event queueCalls EvictQueue)) : Multiset Parcel :=
  ((callsOf i tr).map taken).sum

def freedBy (i : ℕ) (tr : List (Event queueCalls EvictQueue)) : Multiset Parcel :=
  ((callsOf i tr).map freed).sum

def heldBy (i : ℕ) (tr : List (Event queueCalls EvictQueue)) : Multiset Parcel :=
  takenBy i tr - freedBy i tr

/-- The entries that a run appends to the queue. -/
def stampedIn (tr : List (Event queueCalls EvictQueue)) : List EvictEntry :=
  tr.flatMap fun e => stamped e.answered e.before.queue e.after.queue

/-- Every parcel that was enqueued is in the queue, held by one thread, or freed. -/
structure Conserved (tr : List (Event queueCalls EvictQueue))
    (Q : Pool queueCalls EvictQueue QueueReply) : Prop where
  balance : (tr.map fun e => enqueued e.answered).sum = parcels Q.state.queue.entries +
    ∑ i ∈ Finset.range Q.threads.length, heldBy i tr + (tr.map fun e => freed e.answered).sum
  /-- A thread only frees what it has taken. -/
  owned : ∀ i, freedBy i tr ≤ takenBy i tr
  /-- A thread that has returned holds nothing; its sum is a `size_t`. -/
  returned : ∀ i reply, Q.replies[i]? = some (some reply) → heldBy i tr = 0 ∧
    ∀ reclaimed, reply = .flushed reclaimed →
      reclaimed = ((freedBy i tr).map Prod.snd).sum % 2^64

inductive QueueStep (q : PendingEvictQueue) : Answered queueCalls → PendingEvictQueue → Prop
  | enqueue (key : Key) (offset allocSize : ℕ) {now : ℕ} (hnow : now < 2^64) :
      QueueStep q ⟨.enqueue key offset allocSize,()⟩ (q.enqueue key offset allocSize now)
  | takeExpired (left : Key → Key) (now : ℕ) :
      QueueStep q ⟨.takeExpired now,(q.scan left now).1⟩ (q.scan left now).2
  | takeAll : QueueStep q ⟨.takeAll,q.takeAll.1⟩ q.takeAll.2
  | aside {op : QueueCall} (r : op.Res) (h : op.touchesQueue = false) : QueueStep q ⟨op,r⟩ q

theorem step_queue {op : QueueCall} {c : QueueChoice} {r : op.Res} {s s' : EvictQueue}
    (h : step op c s = some (r,s')) : QueueStep s.queue ⟨op,r⟩ s'.queue := by
  cases op with
  | enqueue key offset allocSize =>
    cases h
    exact .enqueue key offset allocSize (wallTimeMs_lt c.clock)
  | takeExpired now =>
    cases h
    exact .takeExpired c.left now
  | takeAll =>
    cases h
    exact .takeAll
  | launch | enterLoop | join =>
    simp only [step] at h
    split at h
    · cases h
      apply QueueStep.aside
      rfl
    · cases h
  | getWallTimeMs | size | free | loadRunning | exchangeRunning | leaveLoop | joinable =>
    cases h
    exact .aside _ rfl

variable {q q' : PendingEvictQueue} {c : Answered queueCalls}

theorem QueueStep.balance (h : QueueStep q c q') :
    enqueued c + parcels q.entries = parcels q'.entries + taken c := by
  cases h with
  | enqueue key offset allocSize =>
    have htaken : taken ⟨.enqueue key offset allocSize,()⟩ = 0 := rfl
    rw [PendingEvictQueue.enqueue, parcels_append, htaken, add_zero, add_comm]
    rfl
  | takeExpired left now =>
    rw [parcels_congr (q.scan_snd left now), taken, toFree, q.scan_fst left now]
    simp only [enqueued, PendingEvictQueue.takeExpired, zero_add]
    rw [add_comm]
    exact parcels_filter q.entries (q.expired now)
  | takeAll =>
    simp only [enqueued, taken, toFree, PendingEvictQueue.takeAll, parcels_nil]
  | aside r h =>
    rw [enqueued_aside r h, taken, toFree_aside r h, parcels_nil, zero_add, add_zero]

/-- What was enqueued is in the queue or was taken out of it. -/
theorem enqueued_eq {gracePeriodMs : ℕ} {allocator : SlotAllocator}
    (h : Runs gracePeriodMs allocator tr Q) : (tr.map fun e => enqueued e.answered).sum =
      parcels Q.state.queue.entries + (tr.map fun e => taken e.answered).sum := by
  apply h.invariant (fun tr s => (tr.map fun e => enqueued e.answered).sum =
    parcels s.queue.entries + (tr.map fun e => taken e.answered).sum) rfl
  intro tr i s op c r s' hinv _ hs
  have hbalance := (step_queue hs).balance
  simp only [List.map_append, List.sum_append, List.map_cons, List.map_nil, List.sum_cons,
    List.sum_nil, add_zero, Event.answered]
  calc (tr.map fun e => enqueued e.answered).sum + enqueued ⟨op,r⟩
      = (tr.map fun e => taken e.answered).sum + (enqueued ⟨op,r⟩ + parcels s.queue.entries) := by
        rw [hinv]
        abel
    _ = parcels s'.queue.entries + ((tr.map fun e => taken e.answered).sum + taken ⟨op,r⟩) := by
        rw [hbalance]
        abel

/-- Entries that stay keep their order and their numbers, and new ones come after them. -/
theorem QueueStep.stays (h : QueueStep q c q') :
    (q'.entries.map EvictEntry.unkeyed).Sublist
      (q.entries.map EvictEntry.unkeyed ++ (stamped c q q').map EvictEntry.unkeyed) := by
  cases h with
  | enqueue key offset allocSize =>
    simp [stamped, PendingEvictQueue.enqueue]
  | takeExpired left now =>
    have hnone : stamped ⟨.takeExpired now,(q.scan left now).1⟩ q (q.scan left now).2 = [] := rfl
    rw [q.scan_snd left now, hnone, List.map_nil, List.append_nil]
    exact List.filter_sublist.map EvictEntry.unkeyed
  | takeAll => exact List.nil_sublist _
  | aside r h => exact List.sublist_append_left _ _

theorem entries_stay {P : Pool queueCalls EvictQueue QueueReply}
    (h : Run queueMachine Operation (fun _ _ => True) P tr Q) :
    (Q.state.queue.entries.map EvictEntry.unkeyed).Sublist
      (P.state.queue.entries.map EvictEntry.unkeyed ++ (stampedIn tr).map EvictEntry.unkeyed) := by
  apply h.invariant (fun tr s => (s.queue.entries.map EvictEntry.unkeyed).Sublist
    (P.state.queue.entries.map EvictEntry.unkeyed ++ (stampedIn tr).map EvictEntry.unkeyed))
  · simp [stampedIn]
  · intro tr i s op c r s' hinv _ hs
    have hstep := (step_queue hs).stays
    have hlast : stampedIn (tr ++ [⟨i,s,op,r,s'⟩]) =
        stampedIn tr ++ stamped ⟨op,r⟩ s.queue s'.queue := by
      simp [stampedIn, Event.answered]
    rw [hlast, List.map_append, ← List.append_assoc]
    exact hstep.trans (hinv.append_right _)

structure FlushLedger where
  owed : List EvictEntry
  reclaimed : ℕ

def flushRule : (op : QueueCall) → op.Res → FlushLedger → FlushLedger → Prop
  | .takeExpired now, taken, l, l' => now < 2^64 ∧ l.owed = [] ∧ l' = ⟨taken,l.reclaimed⟩
  | .takeAll, taken, l, l' => l.owed = [] ∧ l' = ⟨taken,l.reclaimed⟩
  | .free offset allocSize, _, l, l' => ∃ e, e.parcel = (offset,allocSize) ∧
      l.owed = e :: l'.owed ∧ l'.reclaimed = l.reclaimed + allocSize
  | _, _, l, l' => l' = l

def clockAnswer : (op : QueueCall) → op.Res → Prop
  | .getWallTimeMs, now => now < 2^64
  | _, _ => True

def flushLedger : Ledger queueCalls FlushLedger := ⟨clockAnswer,flushRule⟩

theorem step_clockAnswer {op : QueueCall} {c : QueueChoice} {r : op.Res} {s s' : EvictQueue}
    (h : step op c s = some (r,s')) : clockAnswer op r := by
  cases op with
  | getWallTimeMs =>
    cases h
    exact wallTimeMs_lt c.clock
  | _ => trivial

/-- All that was taken is freed, and the sum that is returned is that of the frees. -/
def Settled (reply : QueueReply) (l : FlushLedger) : Prop :=
  l.owed = [] ∧ ∀ reclaimed, reply = .flushed reclaimed → reclaimed = l.reclaimed % 2^64

theorem kept_freeAll (entries : List EvictEntry) (reclaimed : ℕ) :
    flushLedger.Kept (fun _ l => l.owed = []) (freeAll entries) ⟨entries,reclaimed⟩ := by
  induction entries generalizing reclaimed with
  | nil => exact rfl
  | cons e entries ih =>
    apply Ledger.kept_perform
    intro _ _
    exact ⟨⟨entries,reclaimed + e.allocSize⟩,⟨e,rfl,rfl,rfl⟩,ih (reclaimed + e.allocSize)⟩

theorem kept_freeAndCount (entries : List EvictEntry) (reclaimed : ℕ) :
    flushLedger.Kept (fun sum l => l.owed = [] ∧ sum = l.reclaimed % 2^64)
      (freeAndCount entries (reclaimed % 2^64)) ⟨entries,reclaimed⟩ := by
  induction entries generalizing reclaimed with
  | nil => exact ⟨rfl,rfl⟩
  | cons e entries ih =>
    apply Ledger.kept_perform
    intro _ _
    have hrest := ih (reclaimed + e.allocSize)
    rw [← Nat.mod_add_mod] at hrest
    exact ⟨⟨entries,reclaimed + e.allocSize⟩,⟨e,rfl,rfl,rfl⟩,hrest⟩

theorem kept_takeAll {α : Type} {post : α → FlushLedger → Prop} {k : List EvictEntry → QueueProg α}
    {l : FlushLedger} (howed : l.owed = [])
    (h : ∀ taken, flushLedger.Kept post (k taken) ⟨taken,l.reclaimed⟩) :
    flushLedger.Kept post (invokeQueue .takeAll >>= k) l :=
  Ledger.kept_perform fun taken _ => ⟨⟨taken,l.reclaimed⟩,⟨howed,rfl⟩,h taken⟩

/-- The calls that a ledger has nothing to do with. -/
theorem kept_aside {α : Type} {post : α → FlushLedger → Prop} {op : QueueCall}
    {k : op.Res → QueueProg α} {l : FlushLedger} (hrule : ∀ r, flushRule op r l l)
    (h : ∀ r, clockAnswer op r → flushLedger.Kept post (k r) l) :
    flushLedger.Kept post (invokeQueue op >>= k) l := Ledger.kept_idle hrule h

/-- The clock and then the scan with its answer. -/
theorem kept_takeExpired {α : Type} {post : α → FlushLedger → Prop}
    {k : ℕ → List EvictEntry → QueueProg α} {l : FlushLedger} (howed : l.owed = [])
    (h : ∀ now taken, flushLedger.Kept post (k now taken) ⟨taken,l.reclaimed⟩) :
    flushLedger.Kept post
      (invokeQueue .getWallTimeMs >>= fun now => invokeQueue (.takeExpired now) >>= k now) l := by
  apply kept_aside
  · intro _
    rfl
  intro now hnow
  apply Ledger.kept_perform
  intro taken _
  exact ⟨⟨taken,l.reclaimed⟩,⟨hnow,howed,rfl⟩,h now taken⟩

theorem kept_flushAll {l : FlushLedger} (howed : l.owed = []) :
    flushLedger.Kept (fun _ l' => l'.owed = []) flushAll l :=
  kept_takeAll howed fun taken => kept_freeAll taken l.reclaimed

theorem kept_evictRounds (rounds : ℕ) {l : FlushLedger} (howed : l.owed = []) :
    flushLedger.Kept (fun _ l' => l'.owed = []) (evictRounds rounds) l := by
  induction rounds generalizing l with
  | zero => exact howed
  | succ rounds ih =>
    apply kept_aside
    · intro _
      rfl
    intro running _
    cases running with
    | false => exact Ledger.kept_perform fun _ _ => ⟨l,rfl,howed⟩
    | true =>
      apply kept_takeExpired howed
      intro now taken
      apply Ledger.kept_bind
      exact Ledger.kept_mono (kept_freeAll taken l.reclaimed) fun _ _ hl => ih hl

/-- A reply that is no sum leaves only the frees to be checked. -/
theorem kept_done {α : Type} {p : QueueProg α} {l : FlushLedger}
    (h : flushLedger.Kept (fun _ l' => l'.owed = []) p l) :
    flushLedger.Kept Settled (p >>= fun _ => pure .done) l := by
  apply Ledger.kept_bind
  apply Ledger.kept_mono h
  intro _ l' howed
  exact ⟨howed,fun _ hreply => nomatch hreply⟩

theorem kept_flushed {p : QueueProg ℕ} {l : FlushLedger}
    (h : flushLedger.Kept (fun sum l' => l'.owed = [] ∧ sum = l'.reclaimed % 2^64) p l) :
    flushLedger.Kept Settled (p >>= fun reclaimed => pure (.flushed reclaimed)) l := by
  apply Ledger.kept_bind
  apply Ledger.kept_mono h
  rintro sum l' ⟨howed,hsum⟩
  constructor
  · exact howed
  · rintro reclaimed ⟨⟩
    exact hsum

/-- Every operation settles what it takes. -/
theorem Operation.kept {p : QueueProg QueueReply} (h : Operation p) :
    flushLedger.Kept Settled p ⟨[],0⟩ := by
  have hidle : ∀ reply, (∀ n, reply ≠ .flushed n) → Settled reply ⟨[],0⟩ :=
    fun reply hreply => ⟨rfl,fun n hn => absurd hn (hreply n)⟩
  cases h with
  | enqueue key offset allocSize =>
    apply kept_aside
    · intro _
      rfl
    · intro _ _
      exact hidle .done (by simp)
  | getSize =>
    apply kept_aside
    · intro _
      rfl
    · intro entries _
      exact hidle (.size entries) (by simp)
  | flushExpired =>
    apply kept_takeExpired rfl
    intro now taken
    exact kept_flushed (kept_freeAndCount taken 0)
  | flushAllForced =>
    apply kept_takeAll rfl
    intro taken
    exact kept_flushed (kept_freeAndCount taken 0)
  | start =>
    apply kept_aside
    · intro _
      rfl
    intro wasRunning _
    cases wasRunning with
    | true => exact hidle .done (by simp)
    | false =>
      apply kept_aside
      · intro _
        rfl
      · intro _ _
        exact hidle .done (by simp)
  | stop =>
    apply kept_aside
    · intro _
      rfl
    intro wasRunning _
    cases wasRunning with
    | false => exact hidle .done (by simp)
    | true =>
      apply kept_aside
      · intro _
        rfl
      intro joinable _
      have hflush : flushLedger.Kept Settled (flushAll >>= fun _ => pure .done) ⟨[],0⟩ :=
        kept_done (kept_flushAll rfl)
      cases joinable with
      | false => exact hflush
      | true =>
        apply kept_aside
        · intro _
          rfl
        · intro _ _
          exact hflush
  | evictLoop rounds =>
    apply kept_aside
    · intro _
      rfl
    · intro _ _
      exact kept_done (kept_evictRounds rounds rfl)

/-- What a thread has taken is what it has freed and what it owes. -/
theorem taken_eq {calls : List (Answered queueCalls)} {l : FlushLedger}
    (h : flushLedger.Entered ⟨[],0⟩ calls l) :
    (calls.map taken).sum = (calls.map freed).sum + parcels l.owed ∧
      l.reclaimed = ((calls.map freed).sum.map Prod.snd).sum := by
  induction h with
  | nil => exact ⟨rfl,rfl⟩
  | @snoc calls op r l l' _ _ hrule ih =>
    obtain ⟨hparcels,hsum⟩ := ih
    simp only [List.map_append, List.sum_append, List.map_cons, List.map_nil, List.sum_cons,
      List.sum_nil, add_zero, Multiset.map_add, Multiset.sum_add]
    rw [hparcels]
    cases op with
    | takeExpired now =>
      obtain ⟨-,howed,rfl⟩ := hrule
      rw [howed, hsum]
      exact ⟨by simp [taken, toFree, freed],by simp [freed]⟩
    | takeAll =>
      obtain ⟨howed,rfl⟩ := hrule
      rw [howed, hsum]
      exact ⟨by simp [taken, toFree, freed],by simp [freed]⟩
    | free offset allocSize =>
      obtain ⟨e,hparcel,howed,hreclaimed⟩ := hrule
      have hfreed : freed ⟨.free offset allocSize,r⟩ = {(offset,allocSize)} := rfl
      have htaken : taken ⟨.free offset allocSize,r⟩ = 0 := rfl
      rw [howed, parcels_cons, hparcel, hreclaimed, hsum, hfreed, htaken, add_zero,
        Multiset.map_singleton, Multiset.sum_singleton, add_assoc]
      exact ⟨rfl,rfl⟩
    | _ =>
      obtain rfl := hrule
      rw [hsum]
      exact ⟨add_right_comm _ _ _,rfl⟩

variable {gracePeriodMs : ℕ} {allocator : SlotAllocator}

/-- The ledgers of the threads of a run. -/
theorem Runs.ledgers (h : Runs gracePeriodMs allocator tr Q) : ∀ i p, Q.threads[i]? = some p →
    ∃ l, flushLedger.Entered ⟨[],0⟩ (callsOf i tr) l ∧ flushLedger.Kept Settled p l :=
  Ledger.run_kept (D := flushLedger) (fun _ hs => step_clockAnswer hs) (fun _ hp => hp.kept) h

/-- What a thread holds is what its ledger says that it owes. -/
theorem held_eq {i : ℕ} {l : FlushLedger} (h : flushLedger.Entered ⟨[],0⟩ (callsOf i tr) l) :
    takenBy i tr = freedBy i tr + parcels l.owed ∧ heldBy i tr = parcels l.owed := by
  have htaken : takenBy i tr = freedBy i tr + parcels l.owed := (taken_eq h).1
  rw [heldBy, htaken, add_tsub_cancel_left]
  exact ⟨rfl,rfl⟩

theorem Runs.owned (h : Runs gracePeriodMs allocator tr Q) (i : ℕ) : freedBy i tr ≤ takenBy i tr := by
  cases hi : Q.threads[i]? with
  | none =>
    -- a thread that does not exist has neither taken nor freed anything
    have hlt := Run.thread_lt h
    rw [freedBy, takenBy, callsOf_eq_nil hlt (List.getElem?_eq_none_iff.mp hi)]
    exact le_rfl
  | some p =>
    obtain ⟨l,hl,-⟩ := h.ledgers i p hi
    rw [(held_eq hl).1]
    exact Multiset.le_add_right _ _

/-- What was taken is held or freed. -/
theorem Runs.taken_sum (h : Runs gracePeriodMs allocator tr Q) :
    (tr.map fun e => taken e.answered).sum = ∑ i ∈ Finset.range Q.threads.length, heldBy i tr +
      (tr.map fun e => freed e.answered).sum := by
  have hlt := Run.thread_lt h
  rw [← sum_callsOf taken hlt, ← sum_callsOf freed hlt, ← Finset.sum_add_distrib]
  apply Finset.sum_congr rfl
  intro i _
  have hle : freedBy i tr ≤ takenBy i tr := h.owned i
  exact (tsub_add_cancel_of_le hle).symm

theorem Runs.conserved (h : Runs gracePeriodMs allocator tr Q) : Conserved tr Q := by
  constructor
  · rw [enqueued_eq h, h.taken_sum, add_assoc]
  · exact h.owned
  · intro i reply hreply
    obtain ⟨p,hp,hvalue⟩ : ∃ p, Q.threads[i]? = some p ∧ p.value = some reply := by
      simpa [Pool.replies] using hreply
    obtain rfl := Prog.value_eq_some.mp hvalue
    obtain ⟨l,hl,howed,hsum⟩ := h.ledgers i _ hp
    constructor
    · rw [(held_eq hl).2, howed, parcels_nil]
    · intro reclaimed hflushed
      have hfreed : l.reclaimed = ((freedBy i tr).map Prod.snd).sum := (taken_eq hl).2
      rw [hsum reclaimed hflushed, hfreed]

/-- Whatever the threads do, nothing that was enqueued is lost or freed twice, every flush
returns the sum of what it has freed, and at any later time the queue holds entries of before
and after them entries that came since, in their order and with their numbers. -/
theorem pending_conserved (h : Runs gracePeriodMs allocator tr Q) :
    Conserved tr Q ∧ ∀ tr' Q', Run queueMachine Operation (fun _ _ => True) Q tr' Q' →
      (Q'.state.queue.entries.map EvictEntry.unkeyed).Sublist
        (Q.state.queue.entries.map EvictEntry.unkeyed ++ (stampedIn tr').map EvictEntry.unkeyed) := by
  constructor
  · exact h.conserved
  · intro tr' Q' h'
    exact entries_stay h'

theorem runs_of_schedule (gracePeriodMs : ℕ) (allocator : SlotAllocator)
    (ps : List (QueueProg QueueReply)) (sched : List (ℕ × QueueChoice)) {γ : Type}
    {f : List (Event queueCalls EvictQueue) × Pool queueCalls EvictQueue QueueReply → γ} {v : γ}
    (hp : ∀ p ∈ ps, Operation p)
    (h : (Pool.follow (M := queueMachine) (fun _ _ => true) sched
      ⟨create gracePeriodMs allocator,ps⟩).map f = some v) :
    ∃ tr Q, Runs gracePeriodMs allocator tr Q ∧ f (tr,Q) = v := by
  obtain ⟨tr,Q,hrun,hv⟩ := run_of_schedule Operation hp h
  exact ⟨tr,Q,hrun.ok_mono fun _ _ _ => trivial,hv⟩

/-- Two flushes overlap: the first still holds what it took when the second has returned. -/
theorem pending_conserved_overlap : ∃ tr Q, Runs 5000 (.create 100 10) tr Q ∧
    Q.replies = [some .done,some .done,none,some (.flushed 10)] ∧ heldBy 2 tr = {(0,10)} ∧
      Conserved tr Q := by
  obtain ⟨tr,Q,hrun,hv⟩ := runs_of_schedule 5000 (.create 100 10)
    [enqueue "a" 0 10,enqueue "b" 10 10,flushExpired,flushAllForced]
    [(0,⟨1000,id⟩),(2,⟨6500,id⟩),(1,⟨6000,id⟩),(2,⟨0,id⟩),(3,⟨0,id⟩),(3,⟨0,id⟩)]
    (f := fun y => (y.2.replies,heldBy 2 y.1))
    (v := ([some .done,some .done,none,some (.flushed 10)],{(0,10)}))
    (by
      intro p hp
      simp only [List.mem_cons, List.not_mem_nil, or_false] at hp
      rcases hp with rfl | rfl | rfl | rfl
      · exact .enqueue "a" 0 10
      · exact .enqueue "b" 10 10
      · exact .flushExpired
      · exact .flushAllForced) rfl
  obtain ⟨hreplies,hheld⟩ := Prod.mk.inj hv
  exact ⟨tr,Q,hrun,hreplies,hheld,(pending_conserved hrun).1⟩

end EvictQueue

end FalconKV
