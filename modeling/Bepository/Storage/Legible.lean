import Bepository.Storage.Effects

/-!
# Stores whose rows can be read

In a legible store every row that the calls decode holds a value of its kind.  There `complete_file`
fails only when a block has no pointer, and `store_block` and `reuse_block` only when the entry that
they find does not list the block.
-/

namespace Bepository.Storage

open Lib List

/-! ### Rows -/

/-- A stored file that `complete_file`, `store_block` and `reuse_block` can work with. -/
def readable (fi : StoredFile) : Bool :=
  (fi.type = 1 || fi.type = 2 || fi.type = 3) && fi.blocks.all fun b => b.hash.length = 32

/-- The value is what the calls expect at the key: of the right kind, with a block number that is not
reserved, and with a sequence number to spare. -/
def Key.fits : Key → Value → Bool
  | .mx, .indexMeta m => 0 ≤ m.maxSequence && m.maxSequence < i64Max
  | .mn _, .file (some fi) => readable fi
  | .mi .., .file (some fi) => readable fi
  | .mb .., .blockRef ref => MIN_BLOCK_SEQ ≤ ref.seqno
  | .mx, _ | .mn _, _ | .mi .., _ | .mb .., _ => false
  | .bd _, _ | .mr .., _ | .ms _, _ | .md _, _ => true

def Db.legible (db : Db) : Bool := db.rows.toList.all fun r => r.1.fits r.2.val

section Rows

variable {db : Db} {k : Key} {v : Value}

lemma Db.fits_of_get (h : db.legible = true) (hget : db.get k = some v) : k.fits v = true := by
  obtain ⟨r, hr, rfl⟩ := Db.get_eq_some.1 hget
  exact all_eq_true.1 h (k, r) (Table.mem_toList.2 hr)

lemma readable_typed {fi : StoredFile} (h : readable fi = true) : fi.Typed := by
  simp only [readable, Bool.and_eq_true, Bool.or_eq_true, decide_eq_true_eq, or_assoc] at h
  exact h.1

lemma readable_hash {fi : StoredFile} (h : readable fi = true) {b : StoredBlock} (hb : b ∈ fi.blocks) :
    b.hash.length = 32 := by
  simp only [readable, Bool.and_eq_true, all_eq_true, decide_eq_true_eq] at h
  exact h.2 b hb

/-- The value has the kind of the key; a block number is not a reserved one. -/
def Key.Holds : Key → Value → Prop
  | .mx, v => ∃ m, v = .indexMeta m
  | .mn _, v => ∃ fi, v = .file (some fi) ∧ readable fi = true
  | .mi .., v => ∃ fi, v = .file (some fi) ∧ readable fi = true
  | .mb .., v => ∃ ref, v = .blockRef ref ∧ MIN_BLOCK_SEQ ≤ ref.seqno
  | _, _ => True

/-- Whatever the reads and the block calls decode has the kind of its key. -/
def Db.Decodes (db : Db) : Prop := ∀ k v, db.get k = some v → k.Holds v

lemma Db.Decodes.file (h : db.Decodes) (hk : k.holdsFile = true) (hget : db.get k = some v) :
    ∃ fi, v = .file (some fi) ∧ readable fi = true := by
  have hv := h k v hget
  cases k with
  | mn | mi => exact hv
  | _ => cases hk

lemma fits_counters (h : Key.fits .mx v = true) :
    ∃ m, v = .indexMeta m ∧ 0 ≤ m.maxSequence ∧ m.maxSequence < i64Max := by
  cases v with
  | indexMeta m =>
    simp only [Key.fits, Bool.and_eq_true, decide_eq_true_eq] at h
    exact ⟨m, rfl, h⟩
  | _ => cases h

lemma Key.Holds.of_fits (h : k.fits v = true) : k.Holds v := by
  cases k with
  | mx =>
    obtain ⟨m, rfl, -⟩ := fits_counters h
    exact ⟨m, rfl⟩
  | mb =>
    cases v with
    | blockRef ref => exact ⟨ref, rfl, of_decide_eq_true h⟩
    | _ => cases h
  | mn | mi =>
    cases v with
    | file info => cases info <;> first | cases h | exact ⟨_, rfl, h⟩
    | _ => cases h
  | _ => trivial

lemma Db.decodes_of_legible (h : db.legible = true) : db.Decodes :=
  fun _ _ hget => .of_fits (Db.fits_of_get h hget)

end Rows

/-! ### Reads -/

section Reads

variable {db : Db} {name : Str} {epoch : Epoch}

lemma getIndexMeta_ok (h : db.legible = true) :
    ∃ m, getIndexMeta db = .ok m ∧ 0 ≤ m.maxSequence ∧ m.maxSequence < i64Max := by
  unfold getIndexMeta
  cases hv : db.get .mx with
  | none => exact ⟨_, rfl, by decide, by decide⟩
  | some =>
    obtain ⟨m, rfl, hm⟩ := fits_counters (Db.fits_of_get h hv)
    exact ⟨m, rfl, hm⟩

lemma getIndexMeta_of_decodes (h : db.Decodes) : ∃ m, getIndexMeta db = .ok m := by
  unfold getIndexMeta
  cases hv : db.get .mx with
  | none => exact ⟨_, rfl⟩
  | some v =>
    obtain ⟨m, rfl⟩ := h _ v hv
    exact ⟨m, rfl⟩

lemma getFileProto_ok (h : db.Decodes) (name : Str) : ∃ old, getFileProto db name = .ok old := by
  unfold getFileProto
  cases hv : db.get (fileKey name) with
  | none => exact ⟨none, rfl⟩
  | some =>
    obtain ⟨fi, rfl, -⟩ := h.file rfl hv
    exact ⟨some fi, rfl⟩

lemma readStaged_ok (h : db.Decodes) (epoch : Epoch) (name : Str) :
    ∃ staged, readStaged db epoch name = .ok staged := by
  unfold readStaged
  cases hv : db.get (inboxKey epoch name) with
  | none => exact ⟨none, rfl⟩
  | some =>
    obtain ⟨fi, rfl, -⟩ := h.file rfl hv
    exact ⟨some fi, rfl⟩

lemma readPointer_ok (h : db.Decodes) (dir : Str) (hash : Bytes32) :
    ∃ seq, readPointer db dir hash = .ok seq := by
  unfold readPointer
  cases hv : db.get (.mb dir hash) with
  | none => exact ⟨none, rfl⟩
  | some v =>
    obtain ⟨ref, rfl, hmin⟩ := h _ v hv
    exact ⟨some ref.seqno, by simp only [validateBlockSeq, if_neg (not_lt.2 hmin), Except.map]⟩

lemma probeDirs_ok (h : db.Decodes) {hash : Bytes32} (dirs : List Str) :
    ∃ found, probeDirs db hash dirs = .ok found := by
  induction dirs with
  | nil => exact ⟨none, rfl⟩
  | cons dir dirs ih =>
    obtain ⟨seq, hseq⟩ := readPointer_ok h dir hash
    simp only [probeDirs, hseq]
    cases seq with
    | none => exact ih
    | some =>
      simp only
      split_ifs
      · exact ⟨_, rfl⟩
      · exact ih

lemma findBlockDir_ok (bl : Blooms) {st : Store} (h : st.db.Decodes) (hash : Bytes32) :
    ∃ found, findBlockDir bl st hash = .ok found := by
  unfold findBlockDir
  split_ifs
  · exact probeDirs_ok h _
  · exact ⟨none, rfl⟩

def listing (db : Db) (k : Key) : Option (List Bytes) :=
  (entryAt db k).map fun fi => fi.blocks.map StoredBlock.hash

/-- The entry that `find_file_entry` finds, the staged one or else the committed one, lists the block. -/
def Lists (db : Db) (epoch : Epoch) (path : Path) (hash : Bytes) : Prop :=
  ∃ hashes, (listing db (.mi epoch path)).or (listing db (.mn path)) = some hashes ∧ hash ∈ hashes

lemma lists_iff {path : Path} {hash : Bytes} : Lists db epoch path hash ↔
    ∃ fi, (entryAt db (.mi epoch path)).or (entryAt db (.mn path)) = some fi ∧ ∃ b ∈ fi.blocks, b.hash = hash := by
  unfold Lists listing
  rw [← Option.map_or]
  simp only [Option.map_eq_some_iff]
  constructor
  · rintro ⟨-, ⟨fi, hfi, rfl⟩, hmem⟩
    exact ⟨fi, hfi, mem_map.1 hmem⟩
  · rintro ⟨fi, hfi, hmem⟩
    exact ⟨_, ⟨fi, hfi, rfl⟩, mem_map.2 hmem⟩

lemma findFileEntry_ok (h : db.Decodes) {db' : Db} (hsame : ∀ k, k.holdsFile = true → db'.get k = db.get k)
    {hash : Bytes} (hl : Lists db epoch (splitName name) hash) :
    ∃ entry, findFileEntry db' (some epoch) name = .ok entry ∧ hash.length = 32 ∧
      entry.1.blocks.any (·.hash = hash) = true := by
  obtain ⟨fi, hfi, b, hb, rfl⟩ := lists_iff.1 hl
  have hany : fi.blocks.any (·.hash = b.hash) = true := any_eq_true.2 ⟨b, hb, by simp⟩
  have hfile : ∀ {k : Key}, k.holdsFile = true → entryAt db k = some fi → b.hash.length = 32 := by
    intro k hk hentry
    obtain ⟨_, ⟨⟩, hread⟩ := h.file hk (entryAt_eq_some.1 hentry)
    exact readable_hash hread hb
  rcases Option.or_eq_some_iff.1 hfi with hstaged | ⟨hnone, hmain⟩
  · have hget : db'.get (inboxKey epoch name) = some (.file (some fi)) :=
      (hsame _ rfl).trans (entryAt_eq_some.1 hstaged)
    refine ⟨(fi, inboxKey epoch name), ?_, hfile rfl hstaged, hany⟩
    simp only [findFileEntry, findInboxEntry, hget, Value.decodeFile, Option.map_some]
  · have hget : db'.get (fileKey name) = some (.file (some fi)) :=
      (hsame _ rfl).trans (entryAt_eq_some.1 hmain)
    have hinbox : db'.get (inboxKey epoch name) = none := by
      rw [hsame _ rfl]
      cases hv : db.get (inboxKey epoch name) with
      | none => rfl
      | some =>
        obtain ⟨fi', rfl, -⟩ := h.file rfl hv
        have := entryAt_eq_some.2 hv
        rw [inboxKey, hnone] at this
        cases this
    refine ⟨(fi, fileKey name), ?_, hfile rfl hmain, hany⟩
    simp only [findFileEntry, findInboxEntry, hinbox, findMainEntry, hget, Option.map_some, Value.decodeFile]

end Reads

/-! ### Calls -/

section Succeed

variable {bl : Blooms} {st : Store} {name : Str} {epoch : Epoch} {hash : Bytes}

lemma linkBlock_ok (h : st.db.Decodes) {st₁ : Store}
    (hsame : ∀ k, k.holdsFile = true → st₁.db.get k = st.db.get k) {hash : Bytes32}
    (hl : Lists st.db epoch (splitName name) hash.1) (link : Link) :
    ∃ st', linkBlock st₁ (some epoch) name hash link = (.ok (), st') := by
  obtain ⟨entry, hentry, -, hany⟩ := findFileEntry_ok h hsame hl
  simp only [linkBlock, hentry, linkBatch, hany, if_true]
  exact ⟨_, rfl⟩

lemma toBytes32_of_lists (h : st.db.Decodes) (hl : Lists st.db epoch (splitName name) hash) :
    ∃ hash' : Bytes32, toBytes32 hash = some hash' ∧ hash'.1 = hash := by
  obtain ⟨-, -, hlen, -⟩ := findFileEntry_ok h (fun _ _ => rfl) hl
  exact ⟨⟨hash, hlen⟩, dif_pos hlen, rfl⟩

/-- **`store_block` succeeds** for a block that the entry lists. -/
theorem storeBlock_ok (h : st.db.Decodes) (hl : Lists st.db epoch (splitName name) hash)
    (data : Bytes) : ∃ st', storeBlock bl st (some epoch) name hash data = (.ok (), st') := by
  obtain ⟨hash', hh, rfl⟩ := toBytes32_of_lists h hl
  simp only [storeBlock, hh]
  split_ifs
  · exact linkBlock_ok h (fun _ _ => rfl) hl _
  · obtain ⟨found, hfound⟩ := findBlockDir_ok bl h hash'
    rw [hfound]
    cases found with
    | some => exact linkBlock_ok h (fun _ _ => rfl) hl _
    | none =>
      obtain ⟨m, hm⟩ := getIndexMeta_of_decodes h
      simp only [allocate]
      split_ifs
      · refine linkBlock_ok h ?_ hl _
        exact fun _ _ => rfl
      · simp only [hm, Except.map]
        refine linkBlock_ok h (fun k hk => Db.get_write_of_forall_ne fun op hop => ?_) hl _
        rw [mem_singleton.1 hop]
        exact holdsFile_ne rfl hk

/-- **`reuse_block` succeeds** for a block that the entry lists. -/
theorem reuseBlock_ok (h : st.db.Decodes) (hl : Lists st.db epoch (splitName name) hash) :
    ∃ found st', reuseBlock bl st (some epoch) name hash = (.ok found, st') := by
  obtain ⟨hash', hh, rfl⟩ := toBytes32_of_lists h hl
  obtain ⟨found, hfound⟩ := findBlockDir_ok bl h hash'
  simp only [reuseBlock, hh, hfound]
  cases found with
  | none => exact ⟨_, _, rfl⟩
  | some found =>
    obtain ⟨st', hst'⟩ := linkBlock_ok h (fun _ _ => rfl) hl (.existing found.1 found.2)
    simp only [hst']
    exact ⟨_, _, rfl⟩

lemma commitWithNewSeq_ok {db : Db} (h : db.legible = true) (name : Str) {stored : StoredFile}
    (batch : WriteBatch) (ht : stored.Typed) : ∃ r db', commitWithNewSeq db name stored batch = (.ok r, db') := by
  obtain ⟨old, hold⟩ := getFileProto_ok (Db.decodes_of_legible h) name
  obtain ⟨m, hm, hpos, hmax⟩ := getIndexMeta_ok h
  -- the prior entry's sequence is only used when it is positive
  have hread : ∃ batch', commitRead db name stored batch = .ok (withPointers stored old, batch') := by
    unfold commitRead
    rw [hold]
    cases old with
    | none => exact ⟨_, rfl⟩
    | some old =>
      simp only
      split_ifs with hseq
      · have hneg : ¬ old.sequence < 0 := by omega
        exact ⟨_, by rw [seqKey, if_neg hneg]; rfl⟩
      · exact ⟨_, rfl⟩
  obtain ⟨batch', hread⟩ := hread
  have hsucc : ¬ succI64 m.maxSequence < 0 := by
    rw [succI64, if_neg hmax.ne]
    omega
  have ht' : FileInfo.Typed { withPointers stored old with sequence := succI64 m.maxSequence } :=
    typed_withPointers ht
  obtain ⟨w, hw, -⟩ := ht'.exists_toWire
  simp only [commitWithNewSeq, hread, commitWrite, hm, seqKey, if_neg hsucc, Except.map, hw]
  exact ⟨_, _, rfl⟩

/-- **`complete_file` succeeds**, if only by doing nothing, unless it misses a block. -/
theorem completeFile_ok {db : Db} (h : db.legible = true) {version : Option VersionVector}
    (hall : ∀ staged, entryAt db (inboxKey epoch name) = some staged → staged.version = version →
      completable staged (entryAt db (fileKey name)) = true) :
    ∃ r db', completeFile db epoch name version = (.ok r, db') := by
  have hdec := Db.decodes_of_legible h
  obtain ⟨staged, hstaged⟩ := readStaged_ok hdec epoch name
  obtain ⟨old, hold⟩ := getFileProto_ok hdec name
  unfold completeFile
  rw [hstaged]
  cases staged with
  | none => exact ⟨_, _, rfl⟩
  | some staged =>
    simp only
    split_ifs with hv
    · exact ⟨_, _, rfl⟩
    · have hget := readStaged_eq_some hstaged
      have hc := hall staged (entryAt_eq_some.2 hget) (not_not.1 hv)
      rw [getFileProto_entryAt hold] at hc
      obtain ⟨_, ⟨⟩, hread⟩ := hdec.file rfl hget
      obtain ⟨r, db', hr⟩ := commitWithNewSeq_ok h name [.delete (inboxKey epoch name)] (readable_typed hread)
      simp only [hold, hc, if_true, hr]
      exact ⟨_, _, rfl⟩

end Succeed

/-! ### Listings -/

section Listings

variable {db db' : Db} {epoch : Epoch} {path : Path} {hash : Bytes} {k : Key} {name : Str}
  {fi fi' stored : StoredFile}

@[simp] lemma hashes_withPointers {old : Option StoredFile} :
    (withPointers stored old).blocks.map StoredBlock.hash = stored.blocks.map StoredBlock.hash := by
  have hwire : ((withPointers stored old).blocks.map StoredBlock.toWire).map BlockInfo.hash =
      (stored.blocks.map StoredBlock.toWire).map BlockInfo.hash := by rw [blocks_toWire_withPointers]
  rw [map_map, map_map] at hwire
  exact hwire

lemma hashes_toStored {file : WireFile} :
    file.toStored.blocks.map StoredBlock.hash = file.blocks.map BlockInfo.hash := by
  simp only [FileInfo.toStored, map_map]
  rfl

lemma listing_provided {hash' : Bytes} {k₀ : Key} (h : Provided db db' epoch name hash' k₀ fi fi')
    (hk : k.holdsFile = true) : listing db' k = listing db k := by
  obtain ⟨seq, data, -, rfl⟩ := h.pointed
  unfold listing
  rw [h.entries k hk]
  split_ifs with hk₀
  · subst hk₀
    rw [h.entry]
    simp only [Option.map_some, pointBlocks, map_map, Option.some.injEq]
    refine map_congr_left fun b _ => ?_
    simp only [Function.comp]
    split_ifs <;> rfl
  · rfl

lemma listing_stageFile {file : WireFile} : listing (stageFile db epoch file) k =
    if k = inboxKey epoch file.name then some (file.blocks.map BlockInfo.hash) else listing db k := by
  rw [listing, stageFile_entries, listing]
  split_ifs
  · rw [Option.map_some, hashes_toStored]
  · rfl

lemma listing_replaced {gone : Key → Prop} (h : Replaced db db' name stored gone) (hk : k.holdsFile = true) :
    (k = fileKey name → listing db' k = some (stored.blocks.map StoredBlock.hash)) ∧
      (k ≠ fileKey name → gone k → listing db' k = none) ∧
      (k ≠ fileKey name → ¬ gone k → listing db' k = listing db k) := by
  obtain ⟨q, hq⟩ := h
  obtain ⟨hnew, hgone, hother⟩ := hq k hk
  refine ⟨fun he => ?_, fun hne hg => ?_, fun hne hg => ?_⟩
  · rw [listing, hnew he, Option.map_some]
    exact congrArg some hashes_withPointers
  · rw [listing, hgone hne hg, Option.map_none]
  · rw [listing, hother hne hg, listing]

lemma Lists.of_listing (h : Lists db epoch path hash)
    (hi : listing db' (.mi epoch path) = listing db (.mi epoch path))
    (hn : listing db' (.mn path) = listing db (.mn path)) : Lists db' epoch path hash := by
  unfold Lists
  rw [hi, hn]
  exact h

lemma Lists.of_staged {hashes : List Bytes} (h : listing db (.mi epoch path) = some hashes)
    (hm : hash ∈ hashes) : Lists db epoch path hash :=
  ⟨hashes, by rw [h, Option.some_or], hm⟩

lemma Lists.of_committed {hashes : List Bytes} (hi : listing db (.mi epoch path) = none)
    (h : listing db (.mn path) = some hashes) (hm : hash ∈ hashes) : Lists db epoch path hash :=
  ⟨hashes, by rw [hi, h, Option.none_or], hm⟩

lemma Lists.replaced (h : Lists db epoch path hash) (hrep : Replaced db db' name stored fun _ => False)
    (hnew : path = splitName name → (entryAt db (inboxKey epoch name)).isSome = true ∨
      hash ∈ stored.blocks.map StoredBlock.hash) : Lists db' epoch path hash := by
  have hi : listing db' (.mi epoch path) = listing db (.mi epoch path) :=
    (listing_replaced hrep rfl).2.2 (by rintro ⟨⟩) not_false
  by_cases hp : path = splitName name
  · subst hp
    cases hst : entryAt db (inboxKey epoch name) with
    | some staged =>
      -- the staged version is found first, before and after
      have hst' : listing db (.mi epoch (splitName name)) = some (staged.blocks.map StoredBlock.hash) := by
        rw [listing, ← inboxKey, hst, Option.map_some]
      obtain ⟨hashes, hfound, hm⟩ := h
      rw [hst', Option.some_or] at hfound
      cases hfound
      exact .of_staged (hi.trans hst') hm
    | none =>
      have hnone : listing db (.mi epoch (splitName name)) = none := by
        rw [listing, ← inboxKey, hst, Option.map_none]
      have hm := (hnew rfl).resolve_left (by rw [hst]; rintro ⟨⟩)
      exact .of_committed (hi.trans hnone) ((listing_replaced hrep rfl).1 rfl) hm
  · refine h.of_listing hi ((listing_replaced hrep rfl).2.2 (fun he => hp ?_) not_false)
    exact Key.mn.inj he

end Listings

end Bepository.Storage
