import FalconKV.AtomicCalls.Environment
import FalconKV.Client.Reads

/-! # Positions of a batch of keys

`BatchGetSync` sorts its keys into cached and missing ones, asks Meta about the missing ones,
leaves out those that nobody knows, and puts what it has read back to their positions.
-/
namespace FalconKV
open AtomicCalls

variable {D : Deployment} {client : ℕ} {now : ℕ} {key : Key}

namespace KeyDescCache
variable {c : KeyDescCache}

def stamp (now : ℕ) (key : Key) (desc : KeyDescriptor) : KeyDescriptor :=
  { desc with key := key, accessTimeMs := now }

theorem lookup_fst (c : KeyDescCache) (now : ℕ) (key : Key) :
    (c.lookup now key).1 = (c.find key).map (stamp now key) := by
  unfold lookup
  cases c.find key with
  | none => rfl
  | some desc => rfl

theorem find_others {descs : List KeyDescriptor} {key' : Key} (h : key' ≠ key) :
    (others descs key).find? (fun desc => desc.key == key') = descs.find? fun desc => desc.key == key' := by
  unfold others
  rw [List.find?_filter]
  congr 1
  funext desc
  by_cases hk : desc.key = key'
  · simp [hk, h]
  · simp [hk]

theorem descs_lookup {found : KeyDescriptor} (now : ℕ) (h : c.find key = some found) :
    (c.lookup now key).2.descs = others c.descs key ++ [stamp now key found] := by
  unfold lookup
  split
  · next hnone =>
    rw [h] at hnone
    cases hnone
  · next found' hsome =>
    obtain rfl : found = found' := Option.some.inj (h.symm.trans hsome)
    rfl

/-- A lookup changes no descriptor but for the time of its last access. -/
theorem find_lookup (c : KeyDescCache) (now : ℕ) (key key' : Key) :
    ((c.lookup now key).2.find key').map (stamp now key') = (c.find key').map (stamp now key') := by
  cases hfind : c.find key with
  | none =>
    have hsame : (c.lookup now key).2 = c := by
      unfold lookup
      split
      · rfl
      · next found hsome =>
        rw [hfind] at hsome
        cases hsome
    rw [hsame]
  | some found =>
    rw [find, descs_lookup now hfind, List.find?_append]
    by_cases hk : key' = key
    · subst hk
      have hnone : ((others c.descs key').find? fun desc => desc.key == key') = none := by
        refine List.find?_eq_none.mpr fun desc hdesc hkey => not_mem_others c.descs key' ?_
        exact List.mem_map.mpr ⟨desc,hdesc,by simpa using hkey⟩
      rw [hnone, hfind]
      simp [stamp]
    · have hnone : ([stamp now key found].find? fun desc => desc.key == key') = none := by
        simp [stamp, Ne.symm hk]
      rw [hnone, Option.or_none, find_others hk]
      rfl

/-- What a batch of keys finds, and what it misses. -/
theorem batchLookup_fst (c : KeyDescCache) (now : ℕ) (keys : List Key) : (c.batchLookup now keys).1 =
    (keys.filterMap fun key => (c.find key).map (stamp now key),
      keys.filter fun key => (c.find key).isNone) := by
  induction keys generalizing c with
  | nil => rfl
  | cons key keys ih =>
    have hstamps := find_lookup c now key
    have hnone : ∀ key', ((c.lookup now key).2.find key').isNone = (c.find key').isNone := by
      intro key'
      simpa using congrArg Option.isNone (hstamps key')
    have hrest := ih (c.lookup now key).2
    simp only [hstamps, hnone] at hrest
    obtain ⟨hhits,hmisses⟩ := Prod.ext_iff.mp hrest
    have hfst := lookup_fst c now key
    rcases hlookup : c.lookup now key with ⟨answer,c'⟩
    rw [hlookup] at hfst hhits hmisses
    dsimp only at hfst hhits hmisses
    cases hfind : c.find key with
    | none =>
      rw [hfind, Option.map_none] at hfst
      subst hfst
      simp only [batchLookup, hlookup, hhits, hmisses]
      simp [hfind]
    | some found =>
      rw [hfind, Option.map_some] at hfst
      subst hfst
      simp only [batchLookup, hlookup, hhits, hmisses]
      simp [hfind]

end KeyDescCache

section
variable {α β : Type} {g : α → Option β}

def chosen (g : α → Option β) (xs : List α) (k : ℕ) : List (β × ℕ) :=
  (xs.zipIdx k).filterMap fun x => (g x.1).map fun b => (b,x.2)

theorem map_fst_chosen (g : α → Option β) (xs : List α) (k : ℕ) :
    (chosen g xs k).map Prod.fst = xs.filterMap g := by
  induction xs generalizing k with
  | nil => rfl
  | cons x xs ih =>
    have hrest := ih (k + 1)
    unfold chosen at hrest ⊢
    cases hx : g x with
    | none => simpa [hx] using hrest
    | some b => simpa [hx] using hrest

theorem chosen_cons_none {x : α} (xs : List α) (k : ℕ) (h : g x = none) :
    chosen g (x :: xs) k = chosen g xs (k + 1) := by
  simp [chosen, h]

theorem chosen_cons_some {x : α} {b : β} (xs : List α) (k : ℕ) (h : g x = some b) :
    chosen g (x :: xs) k = (b,k) :: chosen g xs (k + 1) := by
  simp [chosen, h]

theorem length_place (results : List Fetched) (new : List (ℕ × Fetched)) :
    (place results new).length = results.length := by
  induction new generalizing results with
  | nil => rfl
  | cons x new ih => exact (ih _).trans List.length_set

def rank (g : α → Option β) (xs : List α) (i : ℕ) : ℕ := (xs.take i).countP fun x => (g x).isSome

/-- What is put back for the positions from `k` on: those before `k` are left alone, those without
an image too, and each other one gets the result of its rank. -/
theorem getElem?_place_chosen (g : α → Option β) (xs : List α) (k : ℕ) {got : List Fetched}
    (hgot : got.length = (xs.filterMap g).length) {results : List Fetched}
    (hlength : k + xs.length ≤ results.length) :
    (∀ j < k, (place results (((chosen g xs k).map Prod.snd).zip got))[j]? = results[j]?) ∧
    ∀ i x, xs[i]? = some x → (place results (((chosen g xs k).map Prod.snd).zip got))[k + i]? =
      if (g x).isSome then got[rank g xs i]? else results[k + i]? := by
  induction xs generalizing k got results with
  | nil => exact ⟨fun _ _ => rfl,fun i x hx => by cases hx⟩
  | cons y xs ih =>
    rw [List.length_cons] at hlength
    cases hy : g y with
    | none =>
      have hgot' : got.length = (xs.filterMap g).length := by simpa [hy] using hgot
      obtain ⟨hbefore,hfrom⟩ := ih (k + 1) hgot' (show k + 1 + xs.length ≤ results.length by omega)
      rw [chosen_cons_none xs k hy]
      refine ⟨fun j hj => hbefore j (by omega),fun i x hx => ?_⟩
      cases i with
      | zero =>
        obtain rfl : y = x := Option.some.inj hx
        rw [hbefore (k + 0) (by omega), hy]
        rfl
      | succ i =>
        have hrank : rank g (y :: xs) (i + 1) = rank g xs i := by simp [rank, hy]
        have hentry := hfrom i x hx
        rw [hrank, ← Nat.add_assoc, Nat.add_right_comm]
        exact hentry
    | some b =>
      cases got with
      | nil => simp [hy] at hgot
      | cons fetched got =>
        have hgot' : got.length = (xs.filterMap g).length := by simpa [hy] using hgot
        obtain ⟨hbefore,hfrom⟩ := ih (k + 1) hgot'
          (show k + 1 + xs.length ≤ (results.set k fetched).length by rw [List.length_set]; omega)
        have hplace : place results (((chosen g (y :: xs) k).map Prod.snd).zip (fetched :: got)) =
            place (results.set k fetched) (((chosen g xs (k + 1)).map Prod.snd).zip got) := by
          rw [chosen_cons_some xs k hy]
          rfl
        rw [hplace]
        refine ⟨fun j hj => ?_,fun i x hx => ?_⟩
        · rw [hbefore j (by omega)]
          exact List.getElem?_set_ne (by omega)
        · cases i with
          | zero =>
            obtain rfl : y = x := Option.some.inj hx
            have hlt : k < results.length := by omega
            rw [hbefore (k + 0) (by omega), hy]
            simp [rank, hlt]
          | succ i =>
            have hrank : rank g (y :: xs) (i + 1) = rank g xs i + 1 := by simp [rank, hy]
            have hentry := hfrom i x hx
            rw [hrank, List.getElem?_cons_succ, ← Nat.add_assoc, Nat.add_right_comm, hentry]
            split
            · rfl
            · exact List.getElem?_set_ne (by omega)

theorem getElem?_filterMap_rank {xs : List α} {i : ℕ} {x : α} {b : β} (hx : xs[i]? = some x)
    (hb : g x = some b) : (xs.filterMap g)[rank g xs i]? = some b := by
  induction xs generalizing i with
  | nil => cases hx
  | cons y xs ih =>
    cases i with
    | zero =>
      obtain rfl : y = x := Option.some.inj hx
      simp [rank, hb]
    | succ i =>
      have hrest := ih hx
      cases hy : g y with
      | none => simpa [rank, hy] using hrest
      | some c => simpa [rank, hy] using hrest

end

namespace ClientOps

theorem lookup_foldl_emplace (descs : List KeyDescriptor) (hits : AList fun _ : Key => KeyDescriptor)
    (key : Key) : (descs.foldl emplace hits).lookup key =
      (hits.lookup key).or (descs.find? fun desc => desc.key == key) := by
  induction descs generalizing hits with
  | nil => simp
  | cons desc descs ih =>
    rw [List.foldl_cons, ih, emplace]
    by_cases hk : desc.key = key
    · subst hk
      split
      · next hmem =>
        obtain ⟨found,hfound⟩ := Option.isSome_iff_exists.mp (AList.lookup_isSome.mpr hmem)
        rw [hfound]
        rfl
      · next hmem =>
        rw [AList.lookup_insert, AList.lookup_eq_none.mpr hmem]
        simp
    · split
      · simp [hk]
      · rw [AList.lookup_insert_ne (Ne.symm hk)]
        simp [hk]

/-- The first descriptor of a key among what the cache has for the keys of a list. -/
theorem find?_hits (c : KeyDescCache) (now : ℕ) {keys : List Key} (hmem : key ∈ keys) :
    (keys.filterMap fun key => (c.find key).map (KeyDescCache.stamp now key)).find?
      (fun desc => desc.key == key) = (c.find key).map (KeyDescCache.stamp now key) := by
  cases hfind : (keys.filterMap fun key => (c.find key).map (KeyDescCache.stamp now key)).find?
      fun desc => desc.key == key with
  | none =>
    cases hkey : c.find key with
    | none => rfl
    | some found =>
      have hin : KeyDescCache.stamp now key found ∈
          keys.filterMap fun key => (c.find key).map (KeyDescCache.stamp now key) :=
        List.mem_filterMap.mpr ⟨key,hmem,by rw [hkey, Option.map_some]⟩
      exact absurd (beq_self_eq_true key) (List.find?_eq_none.mp hfind _ hin)
  | some desc =>
    obtain ⟨key',-,hdesc⟩ := List.mem_filterMap.mp (List.mem_of_find?_eq_some hfind)
    obtain ⟨found,hfound,rfl⟩ := Option.map_eq_some_iff.mp hdesc
    have hkey : key' = key := by simpa [KeyDescCache.stamp] using List.find?_some hfind
    subst hkey
    rw [hfound, Option.map_some]

/-- The descriptor that a key is read by: the cached one, or else the one that Meta returned. -/
def descFor (D : Deployment) (client : ℕ) (c : KeyDescCache) (now : ℕ) (records : List KeyRecord)
    (key : Key) : Option KeyDescriptor :=
  ((c.find key).map (KeyDescCache.stamp now key)).or
    ((records.find? fun rec => rec.key != "" && rec.key == key).map (D.client client).remoteDesc)

/-- The reads of a batch, without the keys that nobody knows. -/
def readsOf (desc : Key → Option KeyDescriptor) (x : Key × BufferInfo) :
    Option (KeyDescriptor × BufferInfo) :=
  (desc x.1).map fun desc => (desc,x.2)

theorem find?_remoteDesc (records : List KeyRecord) (key : Key) :
    ((records.filter fun rec => rec.key != "").map (D.client client).remoteDesc).find?
      (fun desc => desc.key == key) =
        (records.find? fun rec => rec.key != "" && rec.key == key).map (D.client client).remoteDesc := by
  rw [List.find?_map, List.find?_filter]
  congr 2
  funext rec
  simp only [Bool.decide_and, Bool.decide_eq_true, Function.comp_apply]
  rfl

/-- The map from keys to descriptors, where Meta is asked only if the cache misses a key. -/
theorem lookup_hitMap (c : KeyDescCache) (now : ℕ) {keys : List Key} (records : List KeyRecord)
    (hmem : key ∈ keys) {answer : List KeyRecord}
    (hanswer : answer = records ∨ ∀ key ∈ keys, (c.find key).isSome = true) :
    (((keys.filterMap fun key => (c.find key).map (KeyDescCache.stamp now key)) ++
      (answer.filter fun rec => rec.key != "").map (D.client client).remoteDesc).foldl emplace ∅).lookup key =
        descFor D client c now records key := by
  rw [lookup_foldl_emplace, AList.lookup_empty, Option.none_or, List.find?_append, find?_hits c now hmem,
    find?_remoteDesc, descFor]
  rcases hanswer with rfl | hall
  · rfl
  · obtain ⟨found,hfound⟩ := Option.isSome_iff_exists.mp (hall key hmem)
    rw [hfound]
    rfl

theorem validReads_eq {hitMap : AList fun _ : Key => KeyDescriptor} {desc : Key → Option KeyDescriptor}
    {keys : List Key} (h : ∀ key ∈ keys, hitMap.lookup key = desc key) (buffers : List BufferInfo) :
    validReads hitMap keys buffers = chosen (readsOf desc) (keys.zip buffers) 0 := by
  unfold validReads chosen readsOf
  refine List.filterMap_congr fun x hx => ?_
  have hkey : x.1.1 ∈ keys := (List.of_mem_zip (List.fst_mem_of_mem_zipIdx hx)).1
  rw [h _ hkey, Option.map_map]
  rfl

/-- Every batch is answered entry by entry. -/
theorem wp_length_batchGet (items : List (KeyDescriptor × BufferInfo)) {M : Machine clientCalls ReadWorld}
    {x : ReadWorld} : wp M (fun _ _ => True) (fun got _ => got.length = items.length)
      (batchGet D client items) x := by
  unfold batchGet
  refine wp_bind.mpr (wp_mono wp_any fun localResults x₁ _ => ?_)
  refine wp_bind.mpr (wp_mono wp_any fun nodeResults x₂ _ => ?_)
  refine wp_bind.mpr (wp_mono wp_any fun remoteResults x₃ _ => ?_)
  simp only [Prog.pure_eq, wp_ret, length_place, List.length_map]

end ClientOps

/-- Surroundings in which the cache reads the clock at `now` and Meta answers `records`. -/
def answersWith (now : ℕ) (records : List KeyRecord) : ClientCall → ClientChoice → Bool
  | .cacheLookup .., c => c.now == now
  | .metaBatchLookup .., c => c.records == records
  | _, _ => true

/-- The results of a batch of keys: for a key that has a descriptor, what `BatchGet` returned for
it and for the buffer of the position, and a failure for every other key. -/
structure Positional (desc : Key → Option KeyDescriptor) (keys : List Key) (buffers : List BufferInfo)
    (got results : List Fetched) : Prop where
  known : ∀ (i : ℕ) key buffer d, keys[i]? = some key → buffers[i]? = some buffer → desc key = some d →
    ((keys.zip buffers).filterMap (ClientOps.readsOf desc))[
        rank (ClientOps.readsOf desc) (keys.zip buffers) i]? = some (d,buffer) ∧
      ∃ fetched, got[rank (ClientOps.readsOf desc) (keys.zip buffers) i]? = some fetched ∧
        results[i]? = some fetched
  unknown : ∀ (i : ℕ) key buffer, keys[i]? = some key → buffers[i]? = some buffer → desc key = none →
    results[i]? = some ⟨-1,buffer.dataPtr⟩

theorem positional_place (desc : Key → Option KeyDescriptor) {keys : List Key} {buffers : List BufferInfo}
    {got : List Fetched} (hlength : keys.length = buffers.length)
    (hgot : got.length = ((keys.zip buffers).filterMap (ClientOps.readsOf desc)).length) :
    Positional desc keys buffers got (place (buffers.map fun buffer => ⟨-1,buffer.dataPtr⟩)
      (((chosen (ClientOps.readsOf desc) (keys.zip buffers) 0).map Prod.snd).zip got)) := by
  obtain ⟨-,hentries⟩ := getElem?_place_chosen (ClientOps.readsOf desc) (keys.zip buffers) 0 hgot
    (show 0 + (keys.zip buffers).length ≤
      (buffers.map fun buffer => (⟨-1,buffer.dataPtr⟩ : Fetched)).length by simp [hlength])
  constructor
  · intro i key buffer d hkey hbuffer hd
    have hzip : (keys.zip buffers)[i]? = some (key,buffer) := List.getElem?_zip_eq_some.mpr ⟨hkey,hbuffer⟩
    have hread : ClientOps.readsOf desc (key,buffer) = some (d,buffer) := by
      rw [ClientOps.readsOf, hd, Option.map_some]
    have hitem := getElem?_filterMap_rank hzip hread
    have hentry := hentries i _ hzip
    rw [Nat.zero_add, hread, Option.isSome_some, if_pos rfl] at hentry
    obtain ⟨hlt,-⟩ := List.getElem?_eq_some_iff.mp hitem
    rw [← hgot] at hlt
    exact ⟨hitem,_,List.getElem?_eq_getElem hlt,hentry.trans (List.getElem?_eq_getElem hlt)⟩
  · intro i key buffer hkey hbuffer hnone
    have hzip : (keys.zip buffers)[i]? = some (key,buffer) := List.getElem?_zip_eq_some.mpr ⟨hkey,hbuffer⟩
    have hread : ClientOps.readsOf desc (key,buffer) = none := by
      rw [ClientOps.readsOf, hnone, Option.map_none]
    have hentry := hentries i _ hzip
    rw [Nat.zero_add, hread, Option.isSome_none, if_neg Bool.false_ne_true] at hentry
    rw [hentry, List.getElem?_map, hbuffer, Option.map_some]

/-- Meta is asked, or every key is cached. -/
theorem answer_of_exec {now : ℕ} {records answer : List KeyRecord} {keys : List Key} {c : KeyDescCache}
    {x x' : ReadWorld} (he : Exec ((clientMachine D).under (answersWith now records)) (fun _ _ => True)
      (ClientOps.unlessEmpty (keys.filter fun key => (c.find key).isNone)
        (ClientOps.call (.metaBatchLookup client (keys.filter fun key => (c.find key).isNone)))) x answer x') :
    answer = records ∨ ∀ key ∈ keys, (c.find key).isSome = true := by
  unfold ClientOps.unlessEmpty at he
  split at he
  · next hempty =>
    refine .inr fun key hkey => ?_
    have hnot := List.filter_eq_nil_iff.mp (List.isEmpty_iff.mp hempty) key hkey
    exact Option.isSome_iff_ne_none.mpr (by simpa using hnot)
  · cases he with
    | @call _ _ choice r _ x₁ _ _ _ hstep hrest =>
    obtain ⟨hrecords,hstep⟩ := Machine.under_step hstep
    obtain ⟨rfl,rfl⟩ := Prod.mk.inj (Option.some.inj hstep)
    cases hrest
    exact .inl (by simpa [answersWith] using hrecords)

/-- Every key of a batch gets the entry of its own descriptor and buffer, however the cached, the
known and the unknown keys are mixed. -/
theorem positional_batchGetSync (D : Deployment) (client now : ℕ) (records : List KeyRecord)
    (keys : List Key) (buffers : List BufferInfo) {x x' : ReadWorld} {results : List Fetched}
    (he : Exec ((clientMachine D).under (answersWith now records)) (fun _ _ => True)
      (ClientOps.batchGetSync D client keys buffers) x results x') :
    results.length = keys.length ∧
    (keys.length ≠ buffers.length → ∀ fetched ∈ results, fetched.count = -1) ∧
    (keys.length = buffers.length →
      let desc := ClientOps.descFor D client (x.client client).keyDescCache now records
      ∃ x₁ got, Exec ((clientMachine D).under (answersWith now records)) (fun _ _ => True)
        (ClientOps.batchGet D client ((keys.zip buffers).filterMap (ClientOps.readsOf desc))) x₁ got x' ∧
      Positional desc keys buffers got results) := by
  unfold ClientOps.batchGetSync at he
  split at he
  · next hne =>
    cases he
    refine ⟨List.length_map _,fun _ fetched hfetched => ?_,fun heq => absurd heq hne⟩
    obtain ⟨key,-,rfl⟩ := List.mem_map.mp hfetched
    rfl
  · next heq =>
    have hlength : keys.length = buffers.length := not_not.mp heq
    cases he with
    | @call _ _ c r _ x₁ _ _ _ hstep hrest =>
    obtain ⟨hnow,hstep⟩ := Machine.under_step hstep
    obtain ⟨rfl,rfl⟩ := Prod.mk.inj (Option.some.inj hstep)
    have hnow : c.now = now := by simpa [answersWith] using hnow
    rw [KeyDescCache.batchLookup_fst, hnow] at hrest
    obtain ⟨_,_,hfound,hrest⟩ := hrest.of_bind
    cases hfound
    obtain ⟨answer,x₂,hask,hrest⟩ := hrest.of_bind
    obtain ⟨_,x₃,-,hrest⟩ := hrest.of_bind
    have hanswer := answer_of_exec hask
    have hmap : ∀ key ∈ keys, _ = ClientOps.descFor D client (x.client client).keyDescCache now records key :=
      fun key hkey => ClientOps.lookup_hitMap _ now records hkey hanswer
    dsimp only at hrest
    rw [ClientOps.validReads_eq hmap, map_fst_chosen] at hrest
    obtain ⟨got,x₄,hgot,hrest⟩ := hrest.of_bind
    have hcount := hgot.ends (ClientOps.wp_length_batchGet _)
    cases hrest
    refine ⟨?_,fun hne => absurd hlength hne,fun _ => ⟨x₃,got,hgot,positional_place _ hlength hcount⟩⟩
    rw [length_place, List.length_map, hlength]

def oneServer : Deployment where
  cfg := fun _ => ⟨7,64,8,0,false,false⟩
  nodeId := fun _ => 1
  cacheCapacity := fun _ => 4
  localStore := fun _ => none
  nodeUring := fun _ => false
  dataFile := fun _ => none
  serving := fun addr => if addr = "s" then some 0 else none
  groups := List.eraseDups

def threeAnswers : List KeyRecord :=
  let known := { KeyRecord.blank with key := "a", storeId := 7, size := 4, stat := 1, storeAddr := "s" }
  [known,.blank,known]

def oneCached : ReadWorld :=
  (ReadWorld.init oneServer).setClient 0 ((oneServer.client 0).cacheDesc { key := "c", storeId := 8 })

/-- Of four positions, two are of the key that Meta knows, one of the cached key, whose store has no
address, and one of a key that nobody knows. -/
theorem positional_batchGetSync_four :
    let keys := ["a","b","c","a"]
    let buffers := List.replicate 4 (⟨some fun _ => 0,4⟩ : BufferInfo)
    ∃ results x', Exec ((clientMachine oneServer).under (answersWith 5 threeAnswers)) (fun _ _ => True)
      (ClientOps.batchGetSync oneServer 0 keys buffers) oneCached results x' ∧
      results.map Fetched.count = [4,-1,-1,4] ∧ results.length = keys.length := by
  intro keys buffers
  have hrun : (execWith ((clientMachine oneServer).under (answersWith 5 threeAnswers)) (fun _ _ => true)
      (ClientOps.batchGetSync oneServer 0 keys buffers)
      ({ now := 5 } :: List.replicate 12 { records := threeAnswers }) oneCached).map
      (fun y => y.1.map Fetched.count) = some [4,-1,-1,4] := by decide
  obtain ⟨⟨results,x'⟩,hexec,hcounts⟩ := Option.map_eq_some_iff.mp hrun
  have he : Exec ((clientMachine oneServer).under (answersWith 5 threeAnswers)) (fun _ _ => True)
      (ClientOps.batchGetSync oneServer 0 keys buffers) oneCached results x' :=
    (exec_of_execWith hexec).ok_mono fun _ _ _ => trivial
  exact ⟨results,x',he,hcounts,
    (positional_batchGetSync oneServer 0 5 threeAnswers keys buffers he).1⟩

end FalconKV
