import FalconKV.AtomicCalls.Refinement
import FalconKV.Store.Contents

/-! # The single-key API is a map from keys to byte strings

Run to completion one after the other, the operations on single keys do to the contents
of the store what `KVStep` allows, whatever the calls on the data file and the Meta client
answer.
-/
namespace FalconKV
open AtomicCalls

inductive SingleKeyOp
  | put (key : Key) (data : Option Bytes) (size : ℕ)
  | get (key : Key) (buffer : Option Bytes) (bufferSize : ℕ)
  | contains (key : Key)
  | remove (key : Key)
  /-- `EvictEntries` on the candidates of `TryEvictBatchLRU`, its only caller -/
  | evictEntries
  | forceEvict (neededBytes : ℕ)
  | flushExpired
  | flushAllForced

inductive SingleKeyReply
  | put (result : StorePutResult)
  | get (result : StoreGetResult) (buffer : Option Bytes)
  | contains (found : Bool)
  | remove (status : Status)
  | evicted (done : Bool)
  | forced (totalEvicted : ℕ)
  | flushed (reclaimed : ℕ)

def SingleKeyOp.run (cfg : StoreConfig) : SingleKeyOp → StoreProg SingleKeyReply
  | put key data size => SingleKeyReply.put <$> StoreOps.put cfg ⟨key,data,size⟩
  | get key buffer bufferSize =>
    (fun r => SingleKeyReply.get r.1 r.2) <$> StoreOps.get key buffer bufferSize
  | contains key => SingleKeyReply.contains <$> StoreOps.contains key
  | remove key => SingleKeyReply.remove <$> StoreOps.remove cfg key
  | evictEntries => SingleKeyReply.evicted <$> StoreOps.tryEvictBatchLRU cfg
  | forceEvict neededBytes => SingleKeyReply.forced <$> StoreOps.forceEvict cfg neededBytes
  | flushExpired => SingleKeyReply.flushed <$> StoreOps.flushExpired
  | flushAllForced => SingleKeyReply.flushed <$> StoreOps.flushAllForced

/-- What an operation may do to a map from keys to byte strings. -/
inductive KVStep (m : KeyBindings) : SingleKeyOp → SingleKeyReply → KeyBindings → Prop
  /-- the key was present -/
  | present {key data size value result} (hkey : m key = some value) (hok : result.status = .OK) :
      KVStep m (.put key data size) (.put result) m
  /-- the key was absent; eviction may have made room -/
  | stored {key d size result m'} (hkey : m key = none) (hroom : m.Restricts m') (hsize : 0 < size)
      (hok : result.status = .OK) :
      KVStep m (.put key (some d) size) (.put result) (m'.bind key (bytesOf d size))
  | refused {key data size result m'} (hkey : m key = none) (hroom : m.Restricts m')
      (hfail : result.status.isOk = false) : KVStep m (.put key data size) (.put result) m'
  | notFound {key buffer bufferSize result} (hkey : m key = none)
      (hstatus : result.status.code = .notFound) :
      KVStep m (.get key buffer bufferSize) (.get result buffer) m
  /-- the buffer starts with the value -/
  | found {key buffer bufferSize value b result} (hkey : m key = some value)
      (hlength : value.length ≤ bufferSize) (hok : result.status = .OK)
      (hsize : result.size = value.length) (hvalue : bytesOf b value.length = value) :
      KVStep m (.get key (some buffer) bufferSize) (.get result (some b)) m
  | readFailed {key buffer bufferSize value buffer' result} (hkey : m key = some value)
      (hlength : value.length ≤ bufferSize) (hstatus : result.status.code = .ioError) :
      KVStep m (.get key (some buffer) bufferSize) (.get result buffer') m
  | badBuffer {key buffer bufferSize value result} (hkey : m key = some value)
      (hbuffer : buffer = none ∨ bufferSize < value.length)
      (hstatus : result.status.code = .invalidArg) :
      KVStep m (.get key buffer bufferSize) (.get result buffer) m
  | contains {key} : KVStep m (.contains key) (.contains (m key).isSome) m
  | removed {key status value} (hkey : m key = some value) (hok : status = .OK) :
      KVStep m (.remove key) (.remove status) (m.unbind key)
  | notRemoved {key status} (hfail : status.isOk = false) :
      KVStep m (.remove key) (.remove status) m
  | evicted {done m'} (hless : m.Restricts m') : KVStep m .evictEntries (.evicted done) m'
  | forced {neededBytes totalEvicted m'} (hless : m.Restricts m') :
      KVStep m (.forceEvict neededBytes) (.forced totalEvicted) m'
  | expired {reclaimed} : KVStep m .flushExpired (.flushed reclaimed) m
  | flushed {reclaimed} : KVStep m .flushAllForced (.flushed reclaimed) m

namespace KVStep
variable {m m' : KeyBindings} {op : SingleKeyOp} {reply : SingleKeyReply} {key : Key}
  {value value' : List UInt8}

/-- A key that stays bound keeps its value. -/
theorem value_kept (h : KVStep m op reply m') (hkey : m key = some value)
    (hkey' : m' key = some value') : value' = value := by
  have hsame : m key = m' key → value' = value := by
    intro heq
    rw [heq, hkey'] at hkey
    exact Option.some.inj hkey
  have hless : ∀ {m'' : KeyBindings}, m.Restricts m'' → m'' key = some value' → value' = value := by
    intro m'' hroom hk
    rw [hroom.eq_some hk] at hkey
    exact Option.some.inj hkey
  cases h with
  | stored habsent hroom =>
    rw [Bindings.bind_apply] at hkey'
    split at hkey'
    · next heq =>
      rw [heq, habsent] at hkey
      cases hkey
    · exact hless hroom hkey'
  | refused _ hroom => exact hless hroom hkey'
  | removed => exact hless (Bindings.restricts_unbind m _) hkey'
  | evicted hroom => exact hless hroom hkey'
  | forced hroom => exact hless hroom hkey'
  | _ => exact hsame rfl

/-- Only a put binds a key that was not bound, and then it is its own. -/
theorem eq_none_of_not_put (h : KVStep m op reply m') (hkey : m key = none)
    (hop : ∀ data size, op ≠ .put key data size) : m' key = none := by
  cases h with
  | @stored k d size result m'' habsent hroom =>
    have hne : key ≠ k := by
      rintro rfl
      exact hop _ _ rfl
    rw [Bindings.bind_apply, if_neg hne]
    exact hroom.eq_none hkey
  | refused _ hroom => exact hroom.eq_none hkey
  | removed => exact (Bindings.restricts_unbind m _).eq_none hkey
  | evicted hroom => exact hroom.eq_none hkey
  | forced hroom => exact hroom.eq_none hkey
  | _ => exact hkey

def Proper (m : KeyBindings) : Prop := ∀ key value, m key = some value → value ≠ []

theorem Proper.restricts (h : Proper m) (hm : m.Restricts m') : Proper m' :=
  fun key value hk => h key value (hm.eq_some hk)

theorem proper (hp : Proper m) (h : KVStep m op reply m') : Proper m' := by
  cases h with
  | @stored k d size _ _ _ hroom hsize =>
    intro key value hk
    rw [Bindings.bind_apply] at hk
    split at hk
    · cases hk
      apply List.ne_nil_of_length_pos
      rwa [length_bytesOf]
    · exact hp.restricts hroom key value hk
  | refused _ hroom => exact hp.restricts hroom
  | removed => exact hp.restricts (Bindings.restricts_unbind m _)
  | evicted hroom => exact hp.restricts hroom
  | forced hroom => exact hp.restricts hroom
  | _ => exact hp

end KVStep

namespace StoreOps
open Store

variable {cfg : StoreConfig} {α β : Type} {s : Store} {m : KeyBindings}

/-- Run on `s` next to `m`, the program returns in `post` of its answer and the bindings. -/
abbrev Tracks (post : α → KeyBindings → Prop) (p : StoreProg α) (s : Store) (m : KeyBindings) :
    Prop := wp mirrored (fun _ _ => True) (fun a x => post a x.2) p (s,m)

variable {post : α → KeyBindings → Prop} {post' : β → KeyBindings → Prop}

/-- One call, with what it does. -/
theorem tracks_invoke {op : StoreCall} {k : op.Res → StoreProg α}
    (h : ∀ (c : StoreChoice) r s', s.step op c = some (r,s') →
      Tracks post (k r) s' (Mirror.note op r s m)) : Tracks post (invoke op >>= k) s m := by
  refine ⟨trivial,fun c r x' hs => ?_⟩
  obtain ⟨hstep,hnote⟩ := Machine.withRecord_step hs
  obtain ⟨s',m'⟩ := x'
  obtain rfl : m' = Mirror.note op r s m := hnote
  exact h c r s' hstep

theorem tracks_quiet {op : StoreCall} {k : op.Res → StoreProg α} (hop : quiet op)
    (h : ∀ r s', Tracks post (k r) s' m) : Tracks post (invoke op >>= k) s m := by
  refine tracks_invoke fun c r s' _ => ?_
  rw [Mirror.note_of_quiet hop]
  exact h r s'

theorem tracks_then {p : StoreProg β} {k : β → StoreProg α} (hp : Tracks post' p s m)
    (h : ∀ b s' m', post' b m' → Tracks post (k b) s' m') : Tracks post (p >>= k) s m :=
  wp_bind.mpr (wp_mono hp fun b x hb => h b x.1 x.2 hb)

abbrev Evicts (p : StoreProg α) : Prop := Prog.Makes (E := storeCalls) (fun op => op.isPut = false) p

/-- A program that inserts nothing only unbinds. -/
theorem tracks_of_evicts {p : StoreProg α} (hp : Evicts p) :
    Tracks (fun _ m' => m.Restricts m') p s m := by
  refine wp_of_makes (I := fun x : Store × KeyBindings => m.Restricts x.2) hp
    (fun _ _ _ => trivial) ?_ (.refl m)
  intro x op c r x' hx hop hs
  obtain ⟨-,hnote⟩ := Machine.withRecord_step hs
  rw [hnote]
  exact hx.trans (Mirror.restricts_note hop)

/-- A program of quiet calls changes no binding. -/
theorem tracks_of_quiet {p : StoreProg α} (hp : p.Makes quiet) :
    Tracks (fun _ m' => m' = m) p s m := by
  refine wp_of_makes (I := fun x : Store × KeyBindings => x.2 = m) hp (fun _ _ _ => trivial) ?_ rfl
  intro x op c r x' hx hop hs
  obtain ⟨-,hnote⟩ := Machine.withRecord_step hs
  rw [hnote, Mirror.note_of_quiet hop]
  exact hx

theorem quiet_of_flushes {op : StoreCall} (h : flushes op = true) : quiet op := by
  cases op with
  | indexPut | indexRemove => cases h
  | _ => exact ⟨rfl,rfl⟩

theorem quiet_of_flushesOnly {p : StoreProg α} (hp : FlushesOnly p) : p.Makes quiet :=
  hp.mono fun _ => quiet_of_flushes

theorem evicts_of_reclaimsOnly {p : StoreProg α} (hp : ReclaimsOnly p) : Evicts p := by
  refine hp.mono fun op h => ?_
  cases op with
  | indexPut => cases h
  | _ => rfl

theorem evicts_of_evictsOnly {p : StoreProg α} (hp : EvictsOnly p) : Evicts p :=
  evicts_of_reclaimsOnly (hp.mono fun _ => reclaims_of_evicts)

theorem contents_eq_none (h : s.index.find key = none) : s.contents key = none := by
  simp only [contents, h, Option.map_none]

theorem contents_eq_some {rec : StoreKeyRecord} (h : s.index.find key = some rec) :
    s.contents key = some (s.valueOf rec) := by simp only [contents, h, Option.map_some]

/-- A key is found iff it is bound. -/
theorem isSome_found {key : Key} {now : ℕ} (hs : s.index.Sound) :
    (s.index.get key now).1.isSome = (s.contents key).isSome := by
  rw [hs.get_eq, contents]
  cases s.index.find key <;> rfl

/-- A write that returns ok had data and a size. -/
theorem tracks_write {offset size : ℕ} {data : Option Bytes} :
    Tracks (fun status m' => m' = m ∧ (status.isOk = true → status = .OK ∧ data.isSome ∧ 0 < size))
      (write offset data size) s m := by
  unfold write
  split
  · exact ⟨rfl,fun h => by cases h⟩
  · next harg =>
    have harg : data.isSome ∧ 0 < size := by
      cases data <;> simp_all [Nat.pos_iff_ne_zero]
    refine tracks_quiet ⟨rfl,rfl⟩ fun r s' => ?_
    split
    · exact ⟨rfl,fun h => by cases h⟩
    · exact ⟨rfl,fun _ => ⟨rfl,harg⟩⟩

theorem tracks_notifyCommit (records : List StoreKeyRecord) :
    Tracks (fun _ m' => m' = m) (notifyCommit cfg records) s m := by
  unfold notifyCommit
  split
  · exact tracks_quiet ⟨rfl,rfl⟩ fun _ _ => rfl
  · rfl

/-- The data is bound to the key, or nothing is changed. -/
theorem tracks_putInto {item : PutItem} {a : Allocated} :
    Tracks (fun result m' => result.status.isOk = false ∧ m' = m ∨ result.status = .OK ∧
        ∃ d, item.data = some d ∧ 0 < item.size ∧ m' = m.bind item.key (bytesOf d item.size))
      (putInto cfg item a) s m := by
  refine tracks_then tracks_write fun status s₁ m₁ h₁ => ?_
  obtain ⟨rfl,hok⟩ := h₁
  split
  · next hfail =>
    refine tracks_quiet ⟨rfl,rfl⟩ fun _ _ => .inl ⟨?_,rfl⟩
    simpa using hfail
  · next hdone =>
    obtain ⟨-,hdata,hsize⟩ := hok (by simpa using hdone)
    obtain ⟨d,hd⟩ := Option.isSome_iff_exists.mp hdata
    refine tracks_quiet ⟨rfl,rfl⟩ fun now s₂ => ?_
    refine tracks_invoke fun c r s₃ _ => ?_
    rw [hd]
    refine tracks_then (tracks_notifyCommit _) fun _ s₄ m₄ h₄ => ?_
    exact .inr ⟨rfl,d,rfl,hsize,h₄⟩

theorem tracks_put (key : Key) (data : Option Bytes) (size : ℕ) (hs : s.index.Sound) :
    Tracks (fun result m' => KVStep s.contents (.put key data size) (.put result) m')
      (put cfg ⟨key,data,size⟩) s s.contents := by
  refine tracks_invoke fun c found s₁ h => ?_
  have hfound : found.isSome = (s.contents key).isSome := by
    cases h
    exact isSome_found hs
  dsimp only [Mirror.note]
  split
  · next hpresent =>
    rw [hfound] at hpresent
    obtain ⟨value,hvalue⟩ := Option.isSome_iff_exists.mp hpresent
    exact .present hvalue rfl
  · next habsent =>
    rw [hfound, Bool.not_eq_true, Option.isSome_eq_false_iff, Option.isNone_iff_eq_none] at habsent
    refine tracks_then (tracks_of_evicts (evicts_of_reclaimsOnly (reclaimsOnly_allocForPut size))) fun a s₂ m₂ hroom => ?_
    split
    · exact .refused habsent hroom rfl
    · refine wp_mono tracks_putInto ?_
      rintro result ⟨s₃,m₃⟩ (⟨hfail,rfl⟩ | ⟨hok,d,rfl,hsize,rfl⟩)
      · exact .refused habsent hroom hfail
      · exact .stored habsent hroom hsize hok

/-- What was read, if the count says so. -/
theorem bytesOf_pread {offset size : ℕ} {c : StoreChoice} {r : Transferred} {bytes : Bytes}
    (h : s.pread c offset size = some (r,bytes)) (hcount : ¬ r.count < size) :
    bytesOf bytes size = bytesOf (fun i => s.file (offset + i)) size := by
  unfold pread at h
  split at h
  · cases h
    apply bytesOf_congr
    intro i hi
    have hlt : (i : ℤ) < size := by omega
    simp only [readInto, if_pos hlt]
  · split at h
    · cases h
      contradiction
    · cases h

theorem tracks_read {offset size : ℕ} {b : Bytes} {reader : Key} (hsize : 0 < size) :
    Tracks (fun r m' => m' = m ∧ (r.1 = .OK ∧ (∃ b', r.2 = some b' ∧
        bytesOf b' size = bytesOf (fun i => s.file (offset + i)) size) ∨ r.1.code = .ioError))
      (read offset (some b) size reader) s m := by
  have hne : ¬ ((some b).isNone || size == 0) = true := by
    simp only [Option.isNone_some, Bool.false_or, beq_iff_eq]
    omega
  unfold read
  rw [if_neg hne]
  refine tracks_invoke fun c r s₁ hs => ?_
  obtain ⟨⟨r',bytes⟩,hread,he⟩ := Option.map_eq_some_iff.mp hs
  obtain ⟨rfl,rfl⟩ := Prod.mk.inj he
  dsimp only [Mirror.note]
  split
  · exact ⟨rfl,.inr rfl⟩
  · split
    · exact ⟨rfl,.inr rfl⟩
    · next hcount => exact ⟨rfl,.inl ⟨rfl,bytes,rfl,bytesOf_pread hread hcount⟩⟩

theorem tracks_read_null {offset size : ℕ} {reader : Key} :
    Tracks (fun r m' => m' = m ∧ r.1.code = .invalidArg ∧ r.2 = none)
      (read offset none size reader) s m := ⟨rfl,rfl,rfl⟩

theorem isOk_eq_false {status : Status} {code : Code} (h : status.code = code) (hne : code ≠ .ok) :
    status.isOk = false := by
  rw [Status.isOk, h]
  exact beq_eq_false_iff_ne.mpr hne

theorem tracks_get (key : Key) (buffer : Option Bytes) (bufferSize : ℕ) (hs : s.index.Sound)
    (hp : KVStep.Proper s.contents) :
    Tracks (fun r m' => KVStep s.contents (.get key buffer bufferSize) (.get r.1 r.2) m')
      (get key buffer bufferSize) s s.contents := by
  refine tracks_invoke fun c record s₁ h => ?_
  have hfile : s₁.file = s.file := by
    cases h
    rfl
  have hrecord : record = (s.index.get key c.now).1 := by
    cases h
    rfl
  rw [hs.get_eq] at hrecord
  dsimp only [Mirror.note]
  cases hf : s.index.find key with
  | none =>
    rw [hf] at hrecord
    rw [hrecord]
    exact .notFound (contents_eq_none hf) rfl
  | some rec =>
    rw [hf] at hrecord
    rw [hrecord]
    have hvalue := contents_eq_some hf
    have hlength : (s.valueOf rec).length = rec.size := length_bytesOf _ _
    dsimp only
    split
    · next hsmall => exact .badBuffer hvalue (.inr (by rw [hlength]; exact hsmall)) rfl
    · next hlarge =>
      have hfits : (s.valueOf rec).length ≤ bufferSize := by omega
      have hpos : 0 < rec.size := by
        rw [← hlength]
        exact List.length_pos_of_ne_nil (hp key _ hvalue)
      cases buffer with
      | none =>
        refine tracks_then tracks_read_null ?_
        rintro ⟨status,b'⟩ s₂ m₂ ⟨rfl,hcode,rfl⟩
        have hfail := isOk_eq_false hcode (by decide)
        dsimp only at hfail ⊢
        rw [if_pos (by rw [hfail]; rfl)]
        exact .badBuffer hvalue (.inl rfl) hcode
      | some b =>
        refine tracks_then (tracks_read hpos) ?_
        rintro ⟨status,b'⟩ s₂ m₂ ⟨rfl,hread⟩
        rcases hread with ⟨rfl,b'',rfl,hbytes⟩ | hcode
        · refine .found hvalue hfits rfl hlength.symm ?_
          rw [hlength, hbytes, hfile]
          rfl
        · have hfail := isOk_eq_false hcode (by decide)
          dsimp only at hfail ⊢
          rw [if_pos (by rw [hfail]; rfl)]
          exact .readFailed hvalue hfits hcode

theorem tracks_remove (key : Key) :
    Tracks (fun status m' => KVStep s.contents (.remove key) (.remove status) m')
      (remove cfg key) s s.contents := by
  have hnotify : wp mirrored (fun _ _ => True) (fun _ x => x = (s,s.contents))
      (notifyRemove cfg [key]) (s,s.contents) := by
    unfold notifyRemove
    split
    · refine ⟨trivial,fun c r x hx => ?_⟩
      cases hx
      rfl
    · rfl
  refine wp_bind.mpr (wp_mono hnotify ?_)
  rintro status x rfl
  split
  · next hfail => exact .notRemoved (by simpa using hfail)
  · refine tracks_invoke fun c record s₁ h => ?_
    have hrecord : record = s.index.find key := by
      cases h
      exact StoreMetaIndex.remove_fst
    cases hf : s.index.find key with
    | none =>
      have hsame : s.contents.unbind key = s.contents := Function.update_eq_self_iff.mpr
        (contents_eq_none hf).symm
      rw [hrecord, hf]
      dsimp only [Mirror.note]
      rw [hsame]
      exact .notRemoved rfl
    | some rec =>
      rw [hrecord, hf]
      exact tracks_quiet ⟨rfl,rfl⟩ fun _ _ => .removed (contents_eq_some hf) rfl

theorem tracks_contains (key : Key) (hs : s.index.Sound) :
    Tracks (fun found m' => KVStep s.contents (.contains key) (.contains found) m')
      (contains key) s s.contents := by
  refine tracks_invoke fun c found s₁ h => ?_
  have hfound : found.isSome = (s.contents key).isSome := by
    cases h
    exact isSome_found hs
  dsimp only [Mirror.note]
  rw [hfound]
  exact .contains

/-- Every operation does to the contents what the map allows. -/
theorem tracks_run (op : SingleKeyOp) (hs : s.index.Sound) (hp : KVStep.Proper s.contents) :
    Tracks (KVStep s.contents op) (op.run cfg) s s.contents := by
  have hmap : ∀ {γ : Type} {p : StoreProg γ} {f : γ → SingleKeyReply} {op : SingleKeyOp},
      Tracks (fun a m' => KVStep s.contents op (f a) m') p s s.contents →
      Tracks (KVStep s.contents op) (f <$> p) s s.contents := by
    intro γ p f op h
    exact tracks_then h fun _ _ _ hstep => hstep
  cases op with
  | put key data size => exact hmap (tracks_put key data size hs)
  | get key buffer bufferSize => exact hmap (tracks_get key buffer bufferSize hs hp)
  | contains key => exact hmap (tracks_contains key hs)
  | remove key => exact hmap (tracks_remove key)
  | evictEntries =>
    exact hmap (wp_mono (tracks_of_evicts (evicts_of_evictsOnly evictsOnly_tryEvictBatchLRU)) fun _ _ h => .evicted h)
  | forceEvict neededBytes =>
    exact hmap (wp_mono (tracks_of_evicts (evicts_of_evictsOnly (evictsOnly_forceEvict neededBytes)))
      fun _ _ h => .forced h)
  | flushExpired =>
    refine hmap (wp_mono (tracks_of_quiet (quiet_of_flushesOnly flushesOnly_flushExpired)) ?_)
    rintro reclaimed ⟨s',m'⟩ rfl
    exact .expired
  | flushAllForced =>
    refine hmap (wp_mono (tracks_of_quiet (quiet_of_flushesOnly flushesOnly_flushAllForced)) ?_)
    rintro reclaimed ⟨s',m'⟩ rfl
    exact .flushed

theorem solo_singleKey {D F : Prop} (op : SingleKeyOp) (hs : s.index.Sound) :
    Solo D F (fun _ _ => True) (op.run cfg) s := by
  have hmap : ∀ {γ : Type} {p : StoreProg γ} {f : γ → SingleKeyReply} {post : γ → Store → Prop},
      Solo D F post p s → Solo D F (fun _ _ => True) (f <$> p) s := by
    intro γ p f post h
    exact wp_bind.mpr (wp_mono h fun _ _ _ => trivial)
  cases op with
  | put key data size => exact hmap (solo_put ⟨key,data,size⟩ hs)
  | get key buffer bufferSize => exact hmap (solo_get key buffer bufferSize)
  | contains key => exact solo_plain rfl fun _ _ _ => trivial
  | remove key => exact hmap (solo_remove key)
  | evictEntries => exact hmap (solo_tryEvictBatchLRU hs)
  | forceEvict neededBytes => exact hmap (solo_forceEvict neededBytes hs)
  | flushExpired => exact hmap solo_flushExpired
  | flushAllForced => exact hmap solo_flushAllForced

theorem discharges_singleKey (op : SingleKeyOp) : Discharges (op.run cfg) 0 := by
  have hmap : ∀ {γ : Type} {p : StoreProg γ} (f : γ → SingleKeyReply), Discharges p 0 →
      Discharges (f <$> p) 0 := fun f hp => uses_then hp fun _ => rfl
  cases op with
  | put key data size => exact hmap _ (discharges_put _)
  | get key buffer bufferSize => exact hmap _ (discharges_get _ _ _)
  | contains key => exact hmap _ (discharges_contains key)
  | remove key => exact hmap _ (discharges_remove key)
  | evictEntries => exact hmap _ discharges_tryEvictBatchLRU
  | forceEvict neededBytes => exact hmap _ (discharges_forceEvictRounds neededBytes 5 0)
  | flushExpired => exact hmap _ discharges_flushExpired
  | flushAllForced => exact hmap _ discharges_flushAllForced

/-- Run alone, an operation leaves a store intact, and its contents are a step of the map. -/
theorem exec_singleKey {op : SingleKeyOp} {reply : SingleKeyReply} {s' : Store}
    (h : Intact s 0) (hp : KVStep.Proper s.contents)
    (he : Exec storeMachine (fun _ _ => True) (op.run cfg) s reply s') :
    Intact s' 0 ∧ KVStep s.contents op reply s'.contents := by
  have hsound := h.tidy.sound
  have hsized : Exec storeMachine (fun t call => t.wellSized call = true) (op.run cfg) s reply s' := by
    apply (he.of_wp (solo_singleKey (D := True) (F := True) op hsound)).1.ok_mono
    rintro t call ⟨⟨hcurrent,-,hfits⟩,-⟩
    exact Bool.and_eq_true_iff.mpr ⟨hcurrent,hfits trivial⟩
  obtain ⟨m',hmirror⟩ := hsized.withRecord Mirror.note s.contents
  obtain ⟨g,rfl,hmirrored⟩ := exec_uses keeps_mirrored (discharges_singleKey op) ⟨h,rfl⟩ hmirror
  have hstep : KVStep s.contents op reply m' := (hmirror.of_wp (tracks_run op hsound hp)).2
  have hcontents : s'.contents = m' := hmirrored.contents
  rw [← hcontents] at hstep
  exact ⟨hmirrored.intact,hstep⟩

end StoreOps

/-- Operations on single keys, from a new store. -/
abbrev SingleKeyHistory (cfg : StoreConfig) : List (SingleKeyOp × SingleKeyReply) → Store → Prop :=
  AtomicCalls.History storeMachine (SingleKeyOp.run cfg) (.init cfg)

/-- Every history of the store is one of the map, and the store contains what the map binds. -/
theorem traces_of_singleKeyHistory {cfg : StoreConfig} {s : Store}
    {hist : List (SingleKeyOp × SingleKeyReply)} (hcap : cfg.capacityBytes < 2^63)
    (h : SingleKeyHistory cfg hist s) : Traces KVStep Bindings.empty hist s.contents := by
  have hempty : KVStep.Proper (Store.init cfg).contents := by
    intro key value hk
    cases hk
  exact (h.refines Store.contents (fun hp hs => hs.proper hp)
    (fun hinv hp he => StoreOps.exec_singleKey hinv hp he) (Store.intact_init hcap) hempty).2

open Release

def evictingScript : List (SingleKeyOp × List StoreChoice) :=
  let quiet := List.replicate 40 {}
  [(.put "a" (value 1) 8,[{},{},{ transfer := .short 3 "EIO" },{}]),
    (.put "a" (value 1) 2,quiet),(.put "b" (value 2) 3,quiet),
    (.put "c" (value 3) 4,quiet),(.get "c" (value 0) 4,quiet)]

theorem traces_of_singleKeyHistory_evicting : ∃ hist s, SingleKeyHistory twoSlots hist s ∧
    Traces KVStep Bindings.empty hist s.contents ∧
    [s.contents "a",s.contents "b",s.contents "c"] = [none,some [2,2,2],some [3,3,3,3]] := by
  obtain ⟨hist,s,hrun,hs⟩ := history_of_script (M := storeMachine) (SingleKeyOp.run twoSlots)
    evictingScript (.init twoSlots)
    (f := fun y => [y.2.contents "a",y.2.contents "b",y.2.contents "c"])
    (v := [none,some [2,2,2],some [3,3,3,3]]) rfl
  exact ⟨hist,s,hrun,traces_of_singleKeyHistory (by decide) hrun,hs⟩

end FalconKV
