import FalconKV.AtomicCalls.Ledgers
import FalconKV.Client.Reads
import FalconKV.Store.Custody

/-! # What a client delivers was read for it

A thread that runs `BatchGetSync` notes its completed reads. For each position with a positive
count there is one among them: for the key of the position, of the size of its buffer, and with
the bytes that the buffer has afterwards. This is a matter of the program alone.
-/
namespace FalconKV
open AtomicCalls

namespace SlotReads

/-- A read is never longer than it was asked to be. -/
def answers : (op : ClientCall) → op.Res → Prop
  | .forClient _ (.pread _ size _), r => r.1.count ≤ size
  | _, _ => True

def note (op : ClientCall) (r : op.Res) : List SlotRead := (op.completed r).toList

def ledger : Ledger clientCalls (List SlotRead) := Ledger.noting answers note

def siteLedger (i : ℕ) : Ledger storeCalls (List SlotRead) :=
  Ledger.noting (fun op r => answers (.forClient i op) r) fun op r => note (.forClient i op) r

/-- A read among the notes fills this buffer. -/
def Served (key : Key) (size : ℕ) (buffer : Option Bytes) (notes : List SlotRead) : Prop :=
  ∃ read ∈ notes, read.reader = key ∧ read.size = size ∧ buffer = some read.bytes

variable {D : Deployment} {client i : ℕ} {cfg : StoreConfig} {key : Key} {size : ℕ}
  {buffer : Option Bytes} {notes notes' : List SlotRead}

theorem Served.mono (h : Served key size buffer notes) (hsub : notes ⊆ notes') :
    Served key size buffer notes' := by
  obtain ⟨read,hread,hrest⟩ := h
  exact ⟨read,hsub hread,hrest⟩

theorem kept_forClient {α : Type} {post : α → List SlotRead → Prop} {p : StoreProg α}
    (h : (siteLedger i).Kept post p notes) :
    ledger.Kept post (ClientOps.forClient i p) notes := by
  refine Ledger.kept_interp ?_ h
  intro op notes P hop r hr
  exact hop r hr

/-- What a read of one slot notes, if it is completed. -/
theorem mem_note_pread {offset : ℕ} {r : Transferred × Bytes} (hcount : r.1.count = size) :
    (⟨i,offset,size,key,r.2⟩ : SlotRead) ∈ note (.forClient i (.pread offset size key)) r := by
  simp [note, ClientCall.completed, hcount]

theorem mem_note_uringRead {offset : ℕ} {r : Status × Bytes} (hok : r.1.isOk = true) :
    (⟨i,offset,size,key,r.2⟩ : SlotRead) ∈ note (.forClient i (.uringRead offset size key)) r := by
  simp [note, ClientCall.completed, hok]

theorem kept_readItem (item : ReadItem) (notes : List SlotRead) :
    (siteLedger i).Kept (fun r notes => r.1.isOk = true → Served item.reader item.size r.2 notes)
      (StoreOps.readItem cfg item) notes := by
  unfold StoreOps.readItem
  split
  · apply Ledger.kept_note
    intro r _ hok
    exact ⟨_,List.mem_append_right _ (mem_note_uringRead hok),rfl,rfl,rfl⟩
  · unfold StoreOps.read
    split
    · intro hok
      cases hok
    · apply Ledger.kept_note
      intro r hle
      dsimp only
      split
      · intro hok
        cases hok
      · split
        · intro hok
          cases hok
        · next hge =>
          intro _
          have hcount : r.1.count = item.size := le_antisymm hle (not_lt.mp hge)
          exact ⟨_,List.mem_append_right _ (mem_note_pread hcount),rfl,rfl,rfl⟩

theorem served_of_ok {items : List ReadItem} {results : List (Status × Option Bytes)}
    (h : List.Forall₂ (fun item r => r.1.isOk = true → Served item.reader item.size r.2 notes)
      items results) (hok : ∀ s ∈ results.map Prod.fst, s.isOk = true) :
    List.Forall₂ (fun item buffer => Served item.reader item.size buffer notes) items
      (results.map Prod.snd) := by
  induction h with
  | nil => exact .nil
  | cons hr _ ih =>
    obtain ⟨hhead,htail⟩ := List.forall_mem_cons.mp hok
    exact .cons (hr hhead) (ih htail)

/-- If the batch is ok, every buffer was filled. -/
theorem kept_batchRead (items : List ReadItem) (notes : List SlotRead) :
    (siteLedger i).Kept (fun r notes => r.1.isOk = true →
        List.Forall₂ (fun item buffer => Served item.reader item.size buffer notes) items r.2)
      (StoreOps.batchRead cfg items) notes := by
  have hitems : (siteLedger i).Kept (fun results notes => List.Forall₂ (fun item r =>
      r.1.isOk = true → Served item.reader item.size r.2 notes) items results)
      (Prog.mapEach (StoreOps.readItem cfg) items) notes := by
    apply Ledger.kept_mapEach
    · intro item r notes notes' hserved hsub hok
      exact (hserved hok).mono hsub
    · intro item _
      exact kept_readItem item
  refine Ledger.kept_bind (Ledger.kept_mono hitems ?_)
  intro results notes hserved hok
  exact served_of_ok hserved ((StoreOps.lastError_isOk _).mp hok)

/-- What is delivered for a fetch with a positive count was read. -/
def Honest (f : Fetch) (x : ℕ × Fetched) (notes : List SlotRead) : Prop :=
  x.1 = f.index ∧ (0 < x.2.count → Served f.desc.key f.buffer.size x.2.buffer notes)

def AllHonest (fetches : List Fetch) (xs : List (ℕ × Fetched)) (notes : List SlotRead) : Prop :=
  ∀ x ∈ xs, ∃ f ∈ fetches, Honest f x notes

variable {f : Fetch} {fetches fetches' : List Fetch} {x : ℕ × Fetched} {xs : List (ℕ × Fetched)}

theorem Honest.mono (h : Honest f x notes) (hsub : notes ⊆ notes') : Honest f x notes' :=
  ⟨h.1,fun hpos => (h.2 hpos).mono hsub⟩

theorem AllHonest.mono (h : AllHonest fetches xs notes) (hsub : notes ⊆ notes')
    (hfetches : fetches ⊆ fetches') : AllHonest fetches' xs notes' := by
  intro x hx
  obtain ⟨f,hf,hhonest⟩ := h x hx
  exact ⟨f,hfetches hf,hhonest.mono hsub⟩

theorem honest_failed (f : Fetch) (bytes : Option Bytes) (notes : List SlotRead) :
    Honest f (f.done false bytes) notes := by
  constructor
  · rfl
  · intro hpos
    have hneg : ¬ (0 : ℤ) < -1 := by decide
    exact absurd hpos hneg

theorem honest_done {ok : Bool} {bytes : Option Bytes}
    (h : ok = true → Served f.desc.key f.buffer.size bytes notes) :
    Honest f (f.done ok bytes) notes := by
  cases ok with
  | false => exact honest_failed f bytes notes
  | true => exact ⟨rfl,fun _ => h rfl⟩

theorem allHonest_failed (fetches : List Fetch) (notes : List SlotRead) :
    AllHonest fetches (fetches.map Fetch.failed) notes := by
  intro x hx
  obtain ⟨f,hf,rfl⟩ := List.mem_map.mp hx
  exact ⟨f,hf,honest_failed f _ notes⟩

/-- A batch that was read in one call. -/
theorem allHonest_batch {status : Status} {buffers : List (Option Bytes)} {item : Fetch → ReadItem}
    (ok : Fetch → Bool) (hkey : ∀ f, (item f).reader = f.desc.key)
    (hsize : ∀ f, (item f).size = f.buffer.size) (hok : ∀ f, ok f = true → status.isOk = true)
    (h : status.isOk = true → List.Forall₂ (fun item buffer =>
      Served item.reader item.size buffer notes) (fetches.map item) buffers) :
    AllHonest fetches ((fetches.zip buffers).map fun x => x.1.done (ok x.1) x.2) notes := by
  intro x hx
  obtain ⟨⟨f,b⟩,hzip,rfl⟩ := List.mem_map.mp hx
  refine ⟨f,(List.of_mem_zip hzip).1,honest_done ?_⟩
  intro hone
  have hserved := List.forall₂_zip (List.forall₂_map_left_iff.mp (h (hok f hone))) hzip
  rwa [hkey, hsize] at hserved

theorem kept_readLocal (fetches : List Fetch) (notes : List SlotRead) :
    ledger.Kept (AllHonest fetches) (ClientOps.readLocal D i fetches) notes := by
  refine Ledger.kept_bind (Ledger.kept_mono (kept_forClient (kept_batchRead _ notes)) ?_)
  rintro ⟨status,buffers⟩ notes hread
  exact allHonest_batch (fun _ => status.isOk) (fun _ => rfl) (fun _ => rfl) (fun _ => id) hread

theorem kept_localReads (fetches : List Fetch) (notes : List SlotRead) :
    ledger.Kept (AllHonest fetches) (ClientOps.localReads D client fetches) notes := by
  unfold ClientOps.localReads
  split
  · intro x hx
    cases hx
  · exact kept_readLocal fetches notes

theorem kept_readFile (f : Fetch) (notes : List SlotRead) :
    ledger.Kept (fun r notes => r.1.isOk = true → Served f.desc.key f.buffer.size r.2 notes)
      (ClientOps.readFile D client i f) notes := by
  unfold ClientOps.readFile
  split
  · apply Ledger.kept_note
    intro r _ hok
    exact ⟨_,List.mem_append_right _ (mem_note_uringRead hok),rfl,rfl,rfl⟩
  · apply Ledger.kept_note
    intro r hle
    dsimp only
    split
    · intro hok
      cases hok
    · split
      · intro hok
        cases hok
      · next hge =>
        intro _
        have hcount : r.1.count = f.buffer.size := le_antisymm hle (not_lt.mp hge)
        exact ⟨_,List.mem_append_right _ (mem_note_pread hcount),rfl,rfl,rfl⟩

theorem kept_readNode (fetches : List Fetch) (notes : List SlotRead) :
    ledger.Kept (AllHonest fetches) (ClientOps.readNode D client fetches) notes := by
  apply Ledger.kept_then
  intro files notes
  have hone : ∀ x ∈ fetches.zip files, ∀ notes, ledger.Kept (fun y notes => Honest x.1 y notes)
      (ClientOps.readOpened D client x) notes := by
    rintro ⟨f,file⟩ _ notes
    cases file with
    | none => exact honest_failed f _ notes
    | some i =>
      refine Ledger.kept_bind (Ledger.kept_mono (kept_readFile f notes) ?_)
      rintro ⟨status,bytes⟩ notes hread
      exact honest_done hread
  refine Ledger.kept_mono (Ledger.kept_mapEach (fun x y => ?_) hone notes) ?_
  · intro notes notes' h hsub
    exact h.mono hsub
  · intro ys notes hall y hy
    obtain ⟨x,hx,hhonest⟩ := Ledger.exists_of_mem_right hall hy
    exact ⟨x.1,(List.of_mem_zip hx).1,hhonest⟩

theorem kept_readRpc (addr : String) (fetches : List Fetch) (notes : List SlotRead) :
    ledger.Kept (AllHonest fetches) (ClientOps.readRpc D addr fetches) notes := by
  apply Ledger.kept_note
  intro site _
  cases site with
  | none => exact allHonest_failed fetches _
  | some i =>
    refine Ledger.kept_bind (Ledger.kept_mono (kept_forClient (kept_batchRead _ _)) ?_)
    rintro ⟨status,buffers⟩ notes hread
    apply Ledger.kept_note
    intro arrives _
    have hnotes : notes ++ note .response arrives = notes := List.append_nil notes
    rw [hnotes]
    split
    · next harrives =>
      have hstatus := (Bool.and_eq_true_iff.mp harrives).2
      exact allHonest_batch (fun f => decide (0 < int32 f.buffer.size)) (fun _ => rfl)
        (fun _ => rfl) (fun _ _ => hstatus) hread
    · exact allHonest_failed fetches notes

theorem kept_readRemote (fetches : List Fetch) (storeId : ℕ) (notes : List SlotRead) :
    ledger.Kept (AllHonest fetches) (ClientOps.readRemote D client fetches storeId) notes := by
  unfold ClientOps.readRemote
  have hsub : (fetches.filter fun f => f.desc.storeId == storeId) ⊆ fetches :=
    fun f hf => List.mem_of_mem_filter hf
  split
  · intro x hx
    cases hx
  · next first rest hgroup =>
    rw [hgroup] at hsub
    apply Ledger.kept_then
    intro addr notes
    split
    · exact (allHonest_failed (first :: rest) notes).mono (List.Subset.refl _) hsub
    · refine Ledger.kept_mono (kept_readRpc addr (first :: rest) notes) ?_
      intro xs notes hall
      exact hall.mono (List.Subset.refl _) hsub

theorem exists_of_getElem?_map {α β : Type} {f : α → β} {l : List α} {j : ℕ} {y : β}
    (h : (l.map f)[j]? = some y) : ∃ x, l[j]? = some x ∧ f x = y := by
  rw [List.getElem?_map] at h
  exact Option.map_eq_some_iff.mp h

/-- An entry that was set, or one that was there before. -/
theorem getElem?_place_or {results : List Fetched} {new : List (ℕ × Fetched)} {j : ℕ} {y : Fetched}
    (h : (place results new)[j]? = some y) :
    (j,y) ∈ new ∨ (j ∉ new.map Prod.fst ∧ results[j]? = some y) := by
  induction new generalizing results with
  | nil => exact .inr ⟨by simp,h⟩
  | cons x new ih =>
    rcases ih h with hnew | ⟨hnot,hset⟩
    · exact .inl (List.mem_cons_of_mem x hnew)
    · by_cases hj : x.1 = j
      · obtain ⟨hlt,hentry⟩ := List.getElem?_eq_some_iff.mp hset
        subst hj
        rw [List.getElem_set_self] at hentry
        left
        rw [← hentry]
        exact List.mem_cons_self
      · rw [List.getElem?_set_ne hj] at hset
        refine .inr ⟨?_,hset⟩
        rw [List.map_cons, List.mem_cons, not_or]
        exact ⟨Ne.symm hj,hnot⟩

theorem getElem?_place {results : List Fetched} {new : List (ℕ × Fetched)} {j : ℕ} {y : Fetched}
    (h : (place results new)[j]? = some y) : results[j]? = some y ∨ (j,y) ∈ new :=
  (getElem?_place_or h).symm.imp_left And.right

variable {items : List (KeyDescriptor × BufferInfo)} {results : List Fetched}

/-- What holds of the reads holds at the positions that they are made for. -/
theorem at_positions_place {Q : KeyDescriptor × BufferInfo → Fetched → Prop} {type : AccessType}
    (h : ∀ (j : ℕ) y, results[j]? = some y → 0 < y.count → ∃ item, items[j]? = some item ∧ Q item y)
    (hxs : ∀ x ∈ xs, ∃ f ∈ ClientOps.fetchesOf items type, x.1 = f.index ∧
      (0 < x.2.count → Q (f.desc,f.buffer) x.2)) :
    ∀ (j : ℕ) y, (place results xs)[j]? = some y → 0 < y.count →
      ∃ item, items[j]? = some item ∧ Q item y := by
  intro j y hy hpos
  rcases getElem?_place hy with hold | hnew
  · exact h j y hold hpos
  · obtain ⟨f,hf,hindex,hone⟩ := hxs (j,y) hnew
    obtain ⟨⟨item,k⟩,hitem,rfl⟩ := List.mem_map.mp (List.mem_filter.mp hf).1
    obtain rfl : j = k := hindex
    exact ⟨item,List.mk_mem_zipIdx_iff_getElem?.mp hitem,hone hpos⟩

def Delivers (items : List (KeyDescriptor × BufferInfo)) (results : List Fetched)
    (notes : List SlotRead) : Prop :=
  ∀ (j : ℕ) y, results[j]? = some y → 0 < y.count → ∃ item, items[j]? = some item ∧
    Served item.1.key item.2.size y.buffer notes

theorem Delivers.place {type : AccessType} (h : Delivers items results notes)
    (hxs : AllHonest (ClientOps.fetchesOf items type) xs notes') (hsub : notes ⊆ notes') :
    Delivers items (place results xs) notes' := by
  refine at_positions_place ?_ hxs
  intro j y hy hpos
  obtain ⟨item,hitem,hserved⟩ := h j y hy hpos
  exact ⟨item,hitem,hserved.mono hsub⟩

theorem kept_batchGet (items : List (KeyDescriptor × BufferInfo)) (notes : List SlotRead) :
    ledger.Kept (Delivers items) (ClientOps.batchGet D client items) notes := by
  refine Ledger.kept_bind (Ledger.kept_mono (kept_localReads _ notes) ?_)
  intro localResults notes₁ hone
  refine Ledger.kept_bind (Ledger.kept_mono (Ledger.kept_grows (kept_readNode _ notes₁)) ?_)
  rintro nodeResults notes₂ ⟨hsub,htwo⟩
  have hgroup : ∀ storeId ∈ D.groups ((ClientOps.fetchesOf items .remoteRpc).map fun f =>
      f.desc.storeId), ∀ notes, ledger.Kept (AllHonest (ClientOps.fetchesOf items .remoteRpc))
        (ClientOps.readRemote D client (ClientOps.fetchesOf items .remoteRpc) storeId) notes :=
    fun storeId _ notes => kept_readRemote _ storeId notes
  refine Ledger.kept_bind (Ledger.kept_mono (Ledger.kept_grows
    (Ledger.kept_mapEach (fun _ xs => ?_) hgroup notes₂)) ?_)
  · intro notes notes' hall hsub
    exact hall.mono hsub (List.Subset.refl _)
  rintro remoteResults notes₃ ⟨hsub',hthree⟩
  have hflatten : AllHonest (ClientOps.fetchesOf items .remoteRpc) remoteResults.flatten notes₃ := by
    intro x hx
    obtain ⟨xs,hxs,hmem⟩ := List.mem_flatten.mp hx
    obtain ⟨_,-,hall⟩ := Ledger.exists_of_mem_right hthree hxs
    exact hall x hmem
  have hstart : Delivers items (items.map fun x => ⟨0,x.2.dataPtr⟩) notes₁ := by
    intro j y hy hpos
    obtain ⟨x,-,rfl⟩ := exists_of_getElem?_map hy
    cases hpos
  exact ((hstart.place hone (List.Subset.refl _)).place htwo hsub).place hflatten hsub'

theorem key_of_emplace {hits : AList fun _ : Key => KeyDescriptor} {descs : List KeyDescriptor}
    (h : ∀ key desc, hits.lookup key = some desc → desc.key = key) :
    ∀ key desc, (descs.foldl ClientOps.emplace hits).lookup key = some desc → desc.key = key := by
  induction descs generalizing hits with
  | nil => exact h
  | cons desc descs ih =>
    apply ih
    intro key found hfound
    unfold ClientOps.emplace at hfound
    split at hfound
    · exact h key found hfound
    · by_cases hkey : key = desc.key
      · subst hkey
        rw [AList.lookup_insert] at hfound
        cases hfound
        rfl
      · rw [AList.lookup_insert_ne hkey] at hfound
        exact h key found hfound

def Vouched (keys : List Key) (buffers : List BufferInfo) (results : List Fetched)
    (notes : List SlotRead) : Prop :=
  ∀ (j : ℕ) key buffer y, keys[j]? = some key → buffers[j]? = some buffer → results[j]? = some y →
    0 < y.count → Served key buffer.size y.buffer notes

/-- What holds of the reads holds at the positions of their keys. -/
theorem at_keys_place {Q : Key → BufferInfo → Fetched → Prop} {hitMap : AList fun _ : Key => KeyDescriptor}
    {keys : List Key} {buffers : List BufferInfo}
    (hkeys : ∀ key desc, hitMap.lookup key = some desc → desc.key = key)
    (h : ∀ (m : ℕ) y, results[m]? = some y → 0 < y.count →
      ∃ item, ((ClientOps.validReads hitMap keys buffers).map Prod.fst)[m]? = some item ∧
        Q item.1.key item.2 y) {j : ℕ} {buffer : BufferInfo} {y : Fetched} (hkey : keys[j]? = some key)
    (hbuffer : buffers[j]? = some buffer)
    (hy : (place (buffers.map fun buffer => ⟨-1,buffer.dataPtr⟩)
      (((ClientOps.validReads hitMap keys buffers).map Prod.snd).zip results))[j]? = some y)
    (hpos : 0 < y.count) : Q key buffer y := by
  rcases getElem?_place hy with hold | hnew
  · obtain ⟨_,-,rfl⟩ := exists_of_getElem?_map hold
    have hneg : ¬ (0 : ℤ) < -1 := by decide
    exact absurd hpos hneg
  · obtain ⟨m,hm⟩ := List.mem_iff_getElem?.mp hnew
    obtain ⟨hj,hym⟩ := List.getElem?_zip_eq_some.mp hm
    obtain ⟨x,hx,rfl⟩ := exists_of_getElem?_map hj
    obtain ⟨item,hitem,hone⟩ := h m y hym hpos
    obtain ⟨x',hx',rfl⟩ := exists_of_getElem?_map hitem
    obtain rfl : x' = x := Option.some.inj (hx'.symm.trans hx)
    obtain ⟨⟨⟨key',buffer'⟩,k⟩,hmem,hsome⟩ := List.mem_filterMap.mp (List.mem_of_getElem? hx)
    obtain ⟨desc,hdesc,rfl⟩ := Option.map_eq_some_iff.mp hsome
    obtain ⟨hkey',hbuffer'⟩ := List.getElem?_zip_eq_some.mp (List.mk_mem_zipIdx_iff_getElem?.mp hmem)
    obtain rfl : key' = key := Option.some.inj (hkey'.symm.trans hkey)
    obtain rfl : buffer' = buffer := Option.some.inj (hbuffer'.symm.trans hbuffer)
    rwa [hkeys key' desc hdesc] at hone

/-- A batch has the keys of its descriptors. -/
theorem key_of_hitMap (descs : List KeyDescriptor) : ∀ key desc,
    (descs.foldl ClientOps.emplace ∅).lookup key = some desc → desc.key = key := by
  apply key_of_emplace
  intro key desc h
  rw [AList.lookup_empty] at h
  cases h

/-- What `BatchGet` says of its items, `BatchGetSync` says of its keys. -/
theorem at_keys_batchGetSync {Q : Key → BufferInfo → Fetched → List SlotRead → Prop}
    (hget : ∀ items notes, ledger.Kept (fun results notes => ∀ (j : ℕ) y, results[j]? = some y →
        0 < y.count → ∃ item : KeyDescriptor × BufferInfo, items[j]? = some item ∧
          Q item.1.key item.2 y notes) (ClientOps.batchGet D client items) notes)
    (keys : List Key) (buffers : List BufferInfo) (notes : List SlotRead) :
    ledger.Kept (fun results notes => ∀ (j : ℕ) key buffer y, keys[j]? = some key →
        buffers[j]? = some buffer → results[j]? = some y → 0 < y.count → Q key buffer y notes)
      (ClientOps.batchGetSync D client keys buffers) notes := by
  unfold ClientOps.batchGetSync
  split
  · intro j key buffer y _ _ hy hpos
    obtain ⟨_,-,rfl⟩ := exists_of_getElem?_map hy
    have hneg : ¬ (0 : ℤ) < -1 := by decide
    exact absurd hpos hneg
  · apply Ledger.kept_then
    rintro ⟨hitDescs,missingKeys⟩ notes
    apply Ledger.kept_then
    intro records notes
    apply Ledger.kept_then
    intro _ notes
    refine Ledger.kept_bind (Ledger.kept_mono (hget _ notes) ?_)
    intro results notes hitems j key buffer y hkey hbuffer hy hpos
    exact at_keys_place (Q := fun key buffer y => Q key buffer y notes) (key_of_hitMap _) hitems
      hkey hbuffer hy hpos

def VouchedFor : ClientReply → List SlotRead → Prop
  | .batchGetSync keys buffers results, notes => Vouched keys buffers results notes
  | _, _ => True

/-- A property of replies that only those of `BatchGetSync` have to earn. -/
theorem kept_run {Q : ClientReply → List SlotRead → Prop}
    (hstore : ∀ i reply notes, Q (.store i reply) notes)
    (hput : ∀ statuses notes, Q (.batchPut statuses) notes)
    (hexist : ∀ hitCount hitDescs notes, Q (.batchExist hitCount hitDescs) notes)
    (hget : ∀ client keys buffers, ledger.Kept
      (fun results notes => Q (.batchGetSync keys buffers results) notes)
      (ClientOps.batchGetSync D client keys buffers) []) (op : ClientOp) :
    ledger.Kept Q (op.run D) [] := by
  cases op with
  | store i op =>
    apply Ledger.kept_then
    exact hstore i
  | batchPut client keys buffers =>
    apply Ledger.kept_then
    exact hput
  | batchExist client keys =>
    apply Ledger.kept_then
    exact fun r notes => hexist r.1 r.2 notes
  | batchGetSync client keys buffers => exact Ledger.kept_bind (hget client keys buffers)

/-- No read is longer than asked. -/
theorem answers_step {x x' : ReadWorld} {op : ClientCall} {c : ClientChoice} {r : op.Res}
    (hs : (clientMachine D).step op c x = some (r,x')) : answers op r := by
  cases op with
  | forClient i op =>
    cases op with
    | pread offset size reader =>
      obtain ⟨y,hy,he⟩ := Option.map_eq_some_iff.mp hs
      obtain ⟨z,hz,hyz⟩ := Option.map_eq_some_iff.mp hy
      obtain rfl : y.1 = r := congrArg Prod.fst he
      obtain rfl : z = y.1 := congrArg Prod.fst hyz
      unfold Store.pread at hz
      split at hz
      · rw [← Option.some.inj hz]
        exact le_refl _
      · split at hz
        · next hshort =>
          rw [← Option.some.inj hz]
          exact hshort.le
        · cases hz
    | _ => trivial
  | _ => trivial

/-- Every reply of a run has the property, with the notes of its thread. -/
theorem noted_of_run {Q : ClientReply → List SlotRead → Prop}
    (hQ : ∀ op : ClientOp, ledger.Kept Q (op.run D) []) {ok : ReadWorld → ClientCall → Prop}
    {tr : List ClientEvent} {P : ClientPool} (hrun : ClientRun D ok tr P) {t : ℕ}
    {reply : ClientReply} (hreply : P.replies[t]? = some (some reply)) :
    ∃ notes, ledger.Entered [] (callsOf t tr) notes ∧ Q reply notes := by
  obtain ⟨p,hp,hvalue⟩ := exists_of_getElem?_map hreply
  obtain rfl := Prog.value_eq_some.mp hvalue
  have hstart : ∀ p : ClientProg ClientReply, (∃ op : ClientOp, p = op.run D) →
      ledger.Kept Q p [] := by
    rintro p ⟨op,rfl⟩
    exact hQ op
  exact Ledger.run_kept (D := ledger) (fun _ hs => answers_step hs) hstart hrun t _ hp

/-- What a `BatchGetSync` of a run delivers was read by its thread. -/
theorem exists_read_of_run {ok : ReadWorld → ClientCall → Prop} {tr : List ClientEvent}
    {P : ClientPool} (hrun : ClientRun D ok tr P) {t : ℕ} {keys : List Key}
    {buffers : List BufferInfo}
    (hreply : P.replies[t]? = some (some (.batchGetSync keys buffers results))) {j : ℕ}
    {buffer : BufferInfo} {y : Fetched} (hkey : keys[j]? = some key)
    (hbuffer : buffers[j]? = some buffer) (hy : results[j]? = some y) (hpos : 0 < y.count) :
    ∃ e ∈ tr, e.thread = t ∧ ∃ read, e.op.completed e.res = some read ∧ read.reader = key ∧
      read.size = buffer.size ∧ y.buffer = some read.bytes := by
  have hvouch : ∀ op : ClientOp, ledger.Kept VouchedFor (op.run D) [] := by
    apply kept_run (fun _ _ _ => trivial) (fun _ _ => trivial) (fun _ _ _ => trivial)
    intro client keys buffers
    exact at_keys_batchGetSync (Q := fun key buffer y => Served key buffer.size y.buffer)
      kept_batchGet keys buffers []
  obtain ⟨notes,hentered,hvouched⟩ := noted_of_run hvouch hrun hreply
  obtain ⟨read,hread,hreader,hsize,hbytes⟩ := hvouched j key buffer y hkey hbuffer hy hpos
  obtain ⟨call,hcall,hnoted⟩ := Ledger.exists_noted hentered hread
  obtain ⟨e,he,hthread,rfl⟩ := mem_callsOf.mp hcall
  exact ⟨e,he,hthread,read,Option.mem_toList.mp hnoted,hreader,hsize,hbytes⟩

end SlotReads

end FalconKV
