import Bepository.Storage.Fsck
import Bepository.Storage.Snapshot

/-!
# What the integrity check reports

Two properties of `check_folder_integrity`.  A live file with a block that cannot be read is reported by name
if the check gets to it or to another fault under its name: a key without a directory looks like the end of
the scan, and what is behind it is not looked at.  And exactly the pointers are reported missing that files
need and that are not there, if and only if the two scans bring each file and its pointers together: the keys
are in the order of their bytes, in which the pointers of `a` and of `a/b` are mixed.
-/

namespace Bepository.Storage

open Lib List

/-! ### Which file a finding names -/

section Named

variable {x : Externals} {db : RawDb} {level : FsckLevel} {name : Str} {f : Finding} {r : Bytes × Bytes}

lemma fileKeyDir_mn (p : Path) : fileKeyDir (Key.mn p).encode = some p.dir := by
  have hd : (Key.mn p).encode.dropPrefix? FILE_PREFIX = some p.encode := dropPrefix_encode
  rw [fileKeyDir, hd, Option.bind_some, Path.encode_eq, fromUtf8_utf8, Option.bind_some, rsplitOnceAt_path,
    Option.map_some]

/-- The file that a finding names. -/
def Finding.file : Finding → Option Str
  | .inboxUndecodable row | .inboxNoInfo row => (parseInboxKey row.1).map Prod.snd
  | .seqNoFile _ name | .seqFileUndecodable _ name | .fileNoInfo name | .seqMismatch name _ _
  | .fileNoSeq name _ | .fileSeqInvalid name _ _ | .fileUndecodable name | .hashLength _ name
  | .blockFails _ name _ | .blockUnresolvable _ name | .blockSize _ name _ _ | .blockChecksum _ name
  | .noReverse _ name => some name
  | _ => none

lemma infix_toString (s : String) (name : Str) : name <:+: (s ++ toString name.toString).toList := by
  rw [String.toList_append]
  refine ⟨s.toList, [], ?_⟩
  rw [append_nil]
  exact congrArg (s.toList ++ ·) String.toList_ofList.symm

lemma infix_append_left {s : String} (h : name <:+: s.toList) (t : String) : name <:+: (s ++ t).toList := by
  rw [String.toList_append]
  exact h.trans (prefix_append _ _).isInfix

lemma infix_append_right {t : String} (s : String) (h : name <:+: t.toList) : name <:+: (s ++ t).toList := by
  rw [String.toList_append]
  exact h.trans (suffix_append _ _).isInfix

lemma infix_inboxDisplay {row : Bytes × Bytes} (h : (parseInboxKey row.1).map Prod.snd = some name) :
    name <:+: (inboxDisplay x row).toList := by
  obtain ⟨⟨epoch, name'⟩, hkey, rfl⟩ := Option.map_eq_some_iff.1 h
  unfold inboxDisplay
  rw [hkey]
  exact infix_toString _ _

/-- The message of a finding has the name. -/
lemma Finding.infix_message (h : f.file = some name) : name <:+: (f.message x).toList := by
  cases f with
  | inboxUndecodable => exact infix_append_right _ (infix_inboxDisplay h)
  | inboxNoInfo => exact infix_append_left (infix_append_right _ (infix_inboxDisplay h)) _
  | seqNoFile | seqFileUndecodable | fileUndecodable | hashLength | blockChecksum | noReverse =>
    cases h
    exact infix_toString _ _
  | fileNoInfo | blockUnresolvable =>
    cases h
    exact infix_append_left (infix_toString _ _) _
  | blockFails =>
    cases h
    exact infix_append_left (infix_append_left (infix_toString _ _) _) _
  | fileNoSeq =>
    cases h
    iterate 3 refine infix_append_left ?_ _
    exact infix_toString _ _
  | seqMismatch | fileSeqInvalid =>
    cases h
    iterate 4 refine infix_append_left ?_ _
    exact infix_toString _ _
  | blockSize =>
    cases h
    iterate 5 refine infix_append_left ?_ _
    exact infix_toString _ _
  | _ => cases h

/-- No malformed file key at or before the row: the check gets to it. -/
def Reached (db : RawDb) (r : Bytes × Bytes) : Prop :=
  ∀ r' ∈ db.rows, FILE_PREFIX <+: r'.1 → ¬ keyLt r.1 r'.1 → (fileKeyDir r'.1).isSome

/-- A staged entry of the name that cannot be read. -/
def InboxFault (x : Externals) (db : RawDb) (name : Str) : Prop :=
  ∃ r ∈ db.scanPrefix INBOX_PREFIX, (∃ epoch, parseInboxKey r.1 = some (epoch, name)) ∧
    ∀ fi, x.inbox r.2 ≠ .ok (some fi)

/-- A sequence row with the name, and no file with that sequence number there. -/
def SeqFault (x : Externals) (db : RawDb) (name : Str) : Prop :=
  ∃ r ∈ db.scanPrefix SEQ_PREFIX, fromUtf8 r.2 = some name ∧ ∃ seq : ℕ, parseSeqKey r.1 = some seq ∧
    ∀ raw, db.get (fileKey name).encode = some raw → ∀ fi, x.file raw = .ok (some fi) → fi.info.sequence ≠ seq

/-- A file row of the name whose sequence number has no row. -/
def FileSeqFault (x : Externals) (db : RawDb) (name : Str) : Prop :=
  ∃ r ∈ db.scanPrefix FILE_PREFIX, parseFileKey r.1 = some name ∧ ∃ fi, x.file r.2 = .ok (some fi) ∧
    ∀ key, seqKey fi.info.sequence = .ok key → db.get key.encode = none

/-- A file row of the name that the check gets to and has something to report about. -/
def FileFault (x : Externals) (db : RawDb) (level : FsckLevel) (name : Str) : Prop :=
  ∃ r ∈ db.scanPrefix FILE_PREFIX, parseFileKey r.1 = some name ∧ Reached db r ∧ (checkFile x db level r).2 ≠ []

lemma named_checkInbox : (∃ f ∈ checkInbox x db, f.file = some name) ↔ InboxFault x db name := by
  unfold checkInbox InboxFault
  simp only [mem_filterMap]
  constructor
  · rintro ⟨f, ⟨r, hr, hf⟩, hname⟩
    cases hx : x.inbox r.2 with
    | error =>
      simp only [hx, Option.some.injEq] at hf
      subst hf
      obtain ⟨⟨epoch, _⟩, hkey, rfl⟩ := Option.map_eq_some_iff.1 hname
      exact ⟨r, hr, ⟨epoch, hkey⟩, by simp [hx]⟩
    | ok o =>
      cases o with
      | none =>
        simp only [hx, Option.some.injEq] at hf
        subst hf
        obtain ⟨⟨epoch, _⟩, hkey, rfl⟩ := Option.map_eq_some_iff.1 hname
        exact ⟨r, hr, ⟨epoch, hkey⟩, by simp [hx]⟩
      | some => simp [hx] at hf
  · rintro ⟨r, hr, ⟨epoch, hkey⟩, hval⟩
    have hname : (parseInboxKey r.1).map Prod.snd = some name := by rw [hkey, Option.map_some]
    cases hx : x.inbox r.2 with
    | error => exact ⟨.inboxUndecodable r, ⟨r, hr, by simp [hx]⟩, hname⟩
    | ok o =>
      cases o with
      | none => exact ⟨.inboxNoInfo r, ⟨r, hr, by simp [hx]⟩, hname⟩
      | some fi => exact absurd hx (hval fi)

/-- The findings about one row name one file, or none of them names any. -/
lemma named_iff {l : List Finding} {o : Option Str} (h : ∀ f ∈ l, f.file = o) :
    (∃ f ∈ l, f.file = some name) ↔ o = some name ∧ l ≠ [] := by
  constructor
  · rintro ⟨f, hf, hname⟩
    exact ⟨(h f hf).symm.trans hname, ne_nil_of_mem hf⟩
  · rintro ⟨rfl, hne⟩
    obtain ⟨f, hf⟩ := exists_mem_of_ne_nil l hne
    exact ⟨f, hf, h f hf⟩

lemma named_checkSeqRow : (∃ f ∈ checkSeqRow x db r, f.file = some name) ↔
    fromUtf8 r.2 = some name ∧ ∃ seq : ℕ, parseSeqKey r.1 = some seq ∧
      ∀ raw, db.get (fileKey name).encode = some raw → ∀ fi, x.file raw = .ok (some fi) →
        fi.info.sequence ≠ seq := by
  unfold checkSeqRow
  cases parseSeqKey r.1 with
  | none => simp [Finding.file]
  | some =>
    cases fromUtf8 r.2 with
    | none => simp [Finding.file]
    | some name' =>
      dsimp only
      rw [named_iff (o := some name')]
      · refine and_congr_right ?_
        rintro ⟨⟩
        cases db.get (fileKey name).encode with
        | none => simp
        | some raw =>
          cases hfile : x.file raw with
          | error => simp [hfile]
          | ok o => cases o <;> simp [hfile]
      · intro f
        cases (db.get (fileKey name').encode).map x.file with
        | none => simp +contextual [Finding.file]
        | some o =>
          cases o with
          | error => simp +contextual [Finding.file]
          | ok o =>
            cases o with
            | none => simp +contextual [Finding.file]
            | some =>
              dsimp only
              split_ifs <;> simp +contextual [Finding.file]

lemma named_checkFileSeq {fi : StoredFile} {name' : Str} :
    (∃ f ∈ checkFileSeq db (name', fi), f.file = some name) ↔
      name' = name ∧ ∀ key, seqKey fi.sequence = .ok key → db.get key.encode = none := by
  unfold checkFileSeq
  cases seqKey fi.sequence with
  | error => simp [Finding.file]
  | ok key => by_cases hg : db.get key.encode = none <;> simp [Finding.file, hg]

lemma named_readableFile : (∃ p, readableFile x r = some p ∧ ∃ f ∈ checkFileSeq db p, f.file = some name) ↔
    parseFileKey r.1 = some name ∧ ∃ fi, x.file r.2 = .ok (some fi) ∧
      ∀ key, seqKey fi.info.sequence = .ok key → db.get key.encode = none := by
  unfold readableFile
  cases parseFileKey r.1 with
  | none => simp
  | some =>
    cases x.file r.2 with
    | error => simp
    | ok o => cases o <;> simp [named_checkFileSeq]

lemma named_checkSequences {maxSequence : Option ℤ} :
    (∃ f ∈ checkSequences x db level maxSequence, f.file = some name) ↔
      SeqFault x db name ∨ level = .full ∧ FileSeqFault x db name := by
  have hseq : (∃ f ∈ (db.scanPrefix SEQ_PREFIX).flatMap (checkSeqRow x db), f.file = some name) ↔
      SeqFault x db name := by
    simp only [mem_flatMap, SeqFault, ← named_checkSeqRow]
    tauto
  have hfile : (∃ f ∈ ((db.scanPrefix FILE_PREFIX).filterMap (readableFile x)).flatMap (checkFileSeq db),
      f.file = some name) ↔ FileSeqFault x db name := by
    simp only [mem_flatMap, mem_filterMap, FileSeqFault, ← named_readableFile]
    tauto
  unfold checkSequences
  simp only [mem_append, or_and_right, exists_or, hseq]
  rw [or_iff_left]
  · refine or_congr Iff.rfl ?_
    by_cases hfull : level = .full
    · simp only [hfull, if_true, hfile, true_and]
    · simp [hfull]
  · -- the findings about the maximum name no file
    cases maxSequence with
    | none => simp
    | some =>
      rintro ⟨f, hf, hname⟩
      simp only [mem_append, mem_ite_nil_right, mem_singleton] at hf
      rcases hf with ⟨-, rfl⟩ | ⟨-, rfl⟩
      · cases hname
      · cases hname

lemma file_checkBlock {block : StoredBlock} : ∀ f ∈ (checkBlock x db level name block).2, f.file = some name := by
  unfold checkBlock
  cases toBytes32 block.hash with
  | none => simp [Finding.file]
  | some =>
    dsimp only
    cases resolveBlockDataFrom db.readBlockData block with
    | error => split_ifs <;> simp [Finding.file]
    | ok o =>
      cases o with
      | none => split_ifs <;> simp [Finding.file]
      | some =>
        dsimp only
        split_ifs <;> simp [Finding.file]

lemma file_checkFile : ∀ f ∈ (checkFile x db level r).2, f.file = parseFileKey r.1 := by
  unfold checkFile
  cases parseFileKey r.1 with
  | none => simp [Finding.file]
  | some =>
    cases x.file r.2 with
    | error => simp [Finding.file]
    | ok o =>
      cases o with
      | none => simp [Finding.file]
      | some =>
        dsimp only
        split_ifs
        · simp
        · intro f hf
          simp only [mem_flatMap, mem_map] at hf
          obtain ⟨_, ⟨block, -, rfl⟩, hf⟩ := hf
          exact file_checkBlock f hf

lemma file_checkBlockEntry {dir : Str} : ∀ f ∈ (checkBlockEntry x db level dir r).2,
    f.file = none ∧ ∀ hash d, f ≠ .missingBlock hash d := by
  unfold checkBlockEntry
  cases parseBlockPointerKey r.1 with
  | none => simp [Finding.file]
  | some =>
    dsimp only
    cases x.blockRef r.2 with
    | error => simp [Finding.file]
    | ok b =>
      dsimp only
      cases validateBlockSeq b.seqno with
      | error => simp [Finding.file]
      | ok =>
        dsimp only
        cases db.readBlockData b.seqno with
        | none => simp [Finding.file]
        | some =>
          dsimp only
          split_ifs <;> simp [Finding.file]

/-- In the order of the keys, the rows before the first that fails are those with none that fails up to them. -/
lemma mem_takeWhile_iff {rows : List (Bytes × Bytes)} (hs : rows.Pairwise fun a b => keyLt a.1 b.1)
    {p : Bytes × Bytes → Bool} :
    r ∈ rows.takeWhile p ↔ r ∈ rows ∧ ∀ r' ∈ rows, ¬ keyLt r.1 r'.1 → p r' = true := by
  induction rows with
  | nil => simp
  | cons a rows ih =>
    obtain ⟨ha, hs⟩ := pairwise_cons.1 hs
    by_cases hp : p a = true
    · rw [takeWhile_cons_of_pos hp, mem_cons, ih hs, mem_cons, forall_mem_cons]
      constructor
      · rintro (rfl | ⟨hr, hall⟩)
        · exact ⟨.inl rfl, fun _ => hp, fun r' hr' hlt => absurd (ha r' hr') hlt⟩
        · exact ⟨.inr hr, fun _ => hp, hall⟩
      · rintro ⟨rfl | hr, -, hall⟩
        · exact .inl rfl
        · exact .inr ⟨hr, hall⟩
    · rw [takeWhile_cons_of_neg hp]
      refine iff_of_false not_mem_nil ?_
      rintro ⟨hr, hall⟩
      refine hp (hall a mem_cons_self ?_)
      rcases mem_cons.1 hr with rfl | hr
      · exact List.lt_irrefl _
      · exact lt_asymm (ha r hr)

lemma exists_round_iff : (∃ g ∈ groupJoin strKey (fun r => fileKeyDir r.1) (fun r => blockKeyDir r.1)
    (db.scanPrefix FILE_PREFIX) (db.scanPrefix BLOCK_PREFIX), r ∈ g.2.1) ↔
      r ∈ db.scanPrefix FILE_PREFIX ∧ Reached db r := by
  have hsorted : (db.scanPrefix FILE_PREFIX).Pairwise fun a b => keyLt a.1 b.1 :=
    db.sorted.sublist filter_sublist
  rw [exists_group_iff, mem_takeWhile_iff hsorted]
  simp only [RawDb.mem_scanPrefix, and_imp, Reached]

lemma named_checkDirectory {g : Str × List (Bytes × Bytes) × List (Bytes × Bytes)} :
    (∃ f ∈ checkDirectory x db level g, f.file = some name) ↔
      ∃ r ∈ g.2.1, parseFileKey r.1 = some name ∧ (checkFile x db level r).2 ≠ [] := by
  unfold checkDirectory collectExpectedBlocks
  simp only [mem_append, mem_flatMap, mem_map]
  constructor
  · rintro ⟨f, (⟨_, ⟨r, hr, rfl⟩, hf⟩ | ⟨_, ⟨r, -, rfl⟩, hf⟩) | ⟨hash, -, rfl⟩, hname⟩
    · exact ⟨r, hr, (named_iff file_checkFile).1 ⟨f, hf, hname⟩⟩
    · rw [(file_checkBlockEntry f hf).1] at hname
      cases hname
    · cases hname
  · rintro ⟨r, hr, hfault⟩
    obtain ⟨f, hf, hname⟩ := (named_iff file_checkFile).2 hfault
    exact ⟨f, .inl (.inl ⟨_, ⟨r, hr, rfl⟩, hf⟩), hname⟩

lemma named_checkDirectoryBlocks :
    (∃ f ∈ checkDirectoryBlocks x db level, f.file = some name) ↔ FileFault x db level name := by
  unfold checkDirectoryBlocks FileFault
  simp only [mem_flatMap]
  constructor
  · rintro ⟨f, ⟨g, hg, hf⟩, hname⟩
    obtain ⟨r, hr, hkey, hne⟩ := named_checkDirectory.1 ⟨f, hf, hname⟩
    obtain ⟨hscan, hreached⟩ := exists_round_iff.1 ⟨g, hg, hr⟩
    exact ⟨r, hscan, hkey, hreached, hne⟩
  · rintro ⟨r, hscan, hkey, hreached, hne⟩
    obtain ⟨g, hg, hr⟩ := exists_round_iff.2 ⟨hscan, hreached⟩
    obtain ⟨f, hf, hname⟩ := named_checkDirectory.2 ⟨r, hr, hkey, hne⟩
    exact ⟨f, ⟨g, hg, hf⟩, hname⟩

lemma file_checkMetadata : ∀ f ∈ (checkMetadata x db).2, f.file = none := by
  unfold checkMetadata
  intro f hf
  simp only [mem_append, mem_filterMap] at hf
  rcases hf with hf | ⟨r, -, hf⟩
  · cases hx : (db.get Key.mx.encode).map x.folderIndexMeta with
    | none => simp [hx] at hf
    | some o =>
      cases o with
      | error =>
        simp only [hx, mem_singleton] at hf
        subst hf
        rfl
      | ok => simp [hx] at hf
  · cases hx : x.remoteIndexState r.2 with
    | error =>
      simp only [hx, Option.some.injEq] at hf
      subst hf
      rfl
    | ok => simp [hx] at hf

lemma named_checkFolderIntegrity (hlevel : level ≠ .quick) :
    (∃ f ∈ checkFolderIntegrity x db level, f.file = some name) ↔ InboxFault x db name ∨ SeqFault x db name ∨
      level = .full ∧ FileSeqFault x db name ∨ FileFault x db level name := by
  have hmeta : ¬ ∃ f ∈ (checkMetadata x db).2, f.file = some name := by
    rintro ⟨f, hf, hname⟩
    rw [file_checkMetadata f hf] at hname
    cases hname
  unfold checkFolderIntegrity
  rw [if_neg hlevel]
  simp only [mem_append, or_and_right, exists_or, named_checkInbox, named_checkSequences,
    named_checkDirectoryBlocks, hmeta, false_or, or_assoc]

/-- A file with a block that cannot be read has something to report. -/
lemma checkFile_ne_nil {fi : FileRecord} {block : StoredBlock} (hkey : parseFileKey r.1 = some name)
    (hfile : x.file r.2 = .ok (some fi)) (hlive : fi.info.deleted = false) (hb : block ∈ fi.info.blocks)
    (hres : ∀ data, resolveBlockDataFrom db.readBlockData block ≠ .ok (some data)) :
    (checkFile x db level r).2 ≠ [] := by
  have hblock : (checkBlock x db level name block).2 ≠ [] := by
    unfold checkBlock
    cases toBytes32 block.hash with
    | none => simp
    | some =>
      dsimp only
      cases hr : resolveBlockDataFrom db.readBlockData block with
      | error => split_ifs <;> simp
      | ok o =>
        cases o with
        | none => split_ifs <;> simp
        | some data => exact absurd hr (hres data)
  unfold checkFile
  rw [hkey, hfile]
  simp only [hlive, Bool.false_eq_true, if_false]
  obtain ⟨f, hf⟩ := exists_mem_of_ne_nil _ hblock
  exact ne_nil_of_mem (mem_flatMap.2 ⟨_, mem_map.2 ⟨block, hb, rfl⟩, hf⟩)

/-- **When an unreadable file is reported**: the check gets to its row, or to another fault under its name. -/
theorem unreadable_reported_iff (hlevel : level ≠ .quick) {fi : FileRecord} {block : StoredBlock}
    (hr : r ∈ db.rows) (hmn : FILE_PREFIX <+: r.1) (hfile : x.file r.2 = .ok (some fi))
    (hlive : fi.info.deleted = false) (hb : block ∈ fi.info.blocks)
    (hres : ∀ data, resolveBlockDataFrom db.readBlockData block ≠ .ok (some data)) :
    (∃ name, parseFileKey r.1 = some name ∧
      ∃ f ∈ checkFolderIntegrity x db level, f.file = some name ∧ name <:+: (f.message x).toList) ↔
    ∃ name, parseFileKey r.1 = some name ∧ (Reached db r ∨ InboxFault x db name ∨ SeqFault x db name ∨
      level = .full ∧ FileSeqFault x db name ∨ FileFault x db level name) := by
  refine exists_congr fun name => and_congr_right fun hkey => ?_
  have hmessage : (∃ f ∈ checkFolderIntegrity x db level, f.file = some name ∧ name <:+: (f.message x).toList) ↔
      ∃ f ∈ checkFolderIntegrity x db level, f.file = some name :=
    exists_congr fun f => and_congr_right fun _ => and_iff_left_of_imp Finding.infix_message
  have hown : Reached db r → FileFault x db level name := fun hreached =>
    ⟨r, RawDb.mem_scanPrefix.2 ⟨hr, hmn⟩, hkey, hreached, checkFile_ne_nil hkey hfile hlive hb hres⟩
  rw [hmessage, named_checkFolderIntegrity hlevel]
  constructor
  · exact .inr
  · rintro (hreached | hfault)
    · exact .inr (.inr (.inr (hown hreached)))
    · exact hfault

def unstoredRecord (hash : Bytes) : FileRecord where
  info :=
    { name := [], size := 1, version := none, sequence := 1, type := 1, deleted := false,
      blocks := [⟨hash, 0, 1, none, none⟩] }
  modifiedS := 0
  modifiedNs := 0

/-- A decoder that knows one record, with a block that is not stored. -/
abbrev unstoredDecoded : Externals := Externals.knowing [([1], unstoredRecord (List.replicate 32 7))]

def malformedFirst : RawDb := ⟨[([109, 110, 33], []), ((fileKey ['a']).encode, [1])], by decide⟩

/-- **A malformed key ends the check**: the unreadable file behind it is not reported. -/
theorem unreadable_missed :
    ((fileKey ['a']).encode, [1]) ∈ malformedFirst.rows ∧ parseFileKey (fileKey ['a']).encode = some ['a'] ∧
      unstoredDecoded.file [1] = .ok (some (unstoredRecord (List.replicate 32 7))) ∧
      (∀ block ∈ (unstoredRecord (List.replicate 32 7)).info.blocks,
        resolveBlockDataFrom malformedFirst.readBlockData block = .ok none) ∧
      checkFolderIntegrity unstoredDecoded malformedFirst .structural = [] := by
  refine ⟨by simp [malformedFirst], parseFileKey_mn _, rfl, ?_, ?_⟩
  · intro block hb
    obtain rfl := mem_singleton.1 hb
    rfl
  · decide +kernel

def unreadableOnly : RawDb := ⟨[((fileKey ['a']).encode, [1])], by decide⟩

/-- The file alone, and behind a malformed key at level `Full`, where its sequence number has no row. -/
theorem unreadable_reported_sample :
    (∃ name, parseFileKey (fileKey ['a']).encode = some name ∧
      ∃ f ∈ checkFolderIntegrity unstoredDecoded unreadableOnly .structural, f.file = some name ∧
        name <:+: (f.message unstoredDecoded).toList) ∧
    ∃ name, parseFileKey (fileKey ['a']).encode = some name ∧
      ∃ f ∈ checkFolderIntegrity unstoredDecoded malformedFirst .full, f.file = some name ∧
        name <:+: (f.message unstoredDecoded).toList := by
  have hres : ∀ (db : RawDb) data, resolveBlockDataFrom db.readBlockData ⟨List.replicate 32 7, 0, 1, none, none⟩ ≠
      .ok (some data) := by
    intro db data h
    cases h
  constructor
  · refine (unreadable_reported_iff (r := ((fileKey ['a']).encode, [1])) (by decide) mem_cons_self
      (prefix_append _ _) rfl rfl mem_cons_self (hres _)).2 ⟨_, parseFileKey_mn _, .inl ?_⟩
    intro r hr _ _
    obtain rfl := mem_singleton.1 hr
    decide
  · have hrow : ((fileKey ['a']).encode, [1]) ∈ malformedFirst.rows := by simp [malformedFirst]
    have hmn : FILE_PREFIX <+: (fileKey ['a']).encode := prefix_append _ _
    refine (unreadable_reported_iff (by decide) hrow hmn rfl rfl mem_cons_self (hres _)).2
      ⟨_, parseFileKey_mn _, .inr (.inr (.inr (.inl ⟨rfl, _, RawDb.mem_scanPrefix.2 ⟨hrow, hmn⟩, parseFileKey_mn _, _,
        rfl, ?_⟩)))⟩
    rintro _ ⟨⟩
    decide

end Named
/-! ### Missing pointers -/

section Missing

variable {x : Externals} {db : RawDb} {level : FsckLevel} {hash : Bytes32} {dir : Str}

lemma blockKeyDir_mb (dir : Str) (hash : Bytes32) : blockKeyDir (Key.mb dir hash).encode = some dir := by
  have henc : (Key.mb dir hash).encode = BLOCK_PREFIX ++ utf8 dir ++ (47 :: hash.1) := by
    show BLOCK_PREFIX ++ (utf8 dir ++ [47] ++ hash.1) = _
    simp
  have hpre : BLOCK_PREFIX.isPrefixOf (BLOCK_PREFIX ++ utf8 dir ++ (47 :: hash.1)) = true := by
    rw [ isPrefixOf_iff_prefix, append_assoc]
    exact prefix_append _ _
  have hlen : (BLOCK_PREFIX ++ utf8 dir ++ (47 :: hash.1)).length =
      (BLOCK_PREFIX ++ utf8 dir).length + (1 + HASH_LEN) := by
    rw [length_append, length_cons, hash.2, Nat.add_comm 1]
  rw [blockKeyDir, henc, hpre, hlen, if_neg (by simp), if_neg (by rw [length_append]; omega),
    Nat.add_sub_cancel, take_left', drop_left', fromUtf8_utf8]
  · rfl
  · rfl

/-- The directories of the rows up to a key, without those that a greater one follows. -/
def dirsUpTo (dirOf : Bytes → Option Str) (rows : List (Bytes × Bytes)) (key : Bytes) : List Str :=
  skyline strKey ((rows.filter fun r => ¬ keyLt key r.1).filterMap fun r => dirOf r.1)

/-- File rows and pointer rows as the store writes them. -/
structure WellFormedRows (x : Externals) (db : RawDb) : Prop where
  file : ∀ r ∈ db.rows, FILE_PREFIX <+: r.1 →
    (∃ path, r.1 = (Key.mn path).encode) ∧ ∃ fi, x.file r.2 = .ok (some fi)
  pointer : ∀ r ∈ db.rows, BLOCK_PREFIX <+: r.1 →
    (∃ dir hash, r.1 = (Key.mb dir hash).encode) ∧
      ∃ blockRef, x.blockRef r.2 = .ok blockRef ∧ validateBlockSeq blockRef.seqno = .ok ()

/-- The live file at a path has a block with this hash that is not inline. -/
def NeedsAt (x : Externals) (db : RawDb) (path : Path) (hash : Bytes32) : Prop :=
  ∃ raw fi, ((Key.mn path).encode, raw) ∈ db.rows ∧ x.file raw = .ok (some fi) ∧
    fi.info.deleted = false ∧ ∃ block ∈ fi.info.blocks, block.hash = hash.1 ∧ block.inlineData = none

/-- Some file of a directory needs the block. -/
def Needs (x : Externals) (db : RawDb) (dir : Str) (hash : Bytes32) : Prop :=
  ∃ path, path.dir = dir ∧ NeedsAt x db path hash

lemma checkBlock_fst {name : Str} {block : StoredBlock} :
    (checkBlock x db level name block).1 = some hash ↔ block.hash = hash.1 ∧ block.inlineData = none := by
  unfold checkBlock toBytes32
  by_cases h : block.hash.length = HASH_LEN
  · simp only [h, dite_true]
    cases hi : block.inlineData with
    | none => simp [Subtype.ext_iff]
    | some => simp
  · have hne : block.hash ≠ hash.1 := by
      intro he
      exact h (he ▸ hash.2)
    simp [h, hne]

lemma mem_checkFile {path : Path} {raw : Bytes} {fi : FileRecord} (hfile : x.file raw = .ok (some fi)) :
    hash ∈ (checkFile x db level ((Key.mn path).encode, raw)).1 ↔
      fi.info.deleted = false ∧ ∃ block ∈ fi.info.blocks, block.hash = hash.1 ∧ block.inlineData = none := by
  unfold checkFile
  rw [parseFileKey_mn, hfile]
  cases hd : fi.info.deleted with
  | true => simp [hd]
  | false => simp [hd, checkBlock_fst]

lemma checkBlockEntry_fst {d : Str} {raw : Bytes} {blockRef : BlockRef} (href : x.blockRef raw = .ok blockRef)
    (hseq : validateBlockSeq blockRef.seqno = .ok ()) (g : Str) :
    (checkBlockEntry x db level g ((Key.mb d hash).encode, raw)).1 = some hash := by
  unfold checkBlockEntry
  rw [parseBlockPointerKey_mb, href]
  simp only [hseq]

lemma missingBlock_notMem_checkFile {r : Bytes × Bytes} :
    .missingBlock hash dir ∉ (checkFile x db level r).2 := by
  intro h
  have hnone : none = parseFileKey r.1 := file_checkFile _ h
  unfold checkFile at h
  rw [← hnone] at h
  simp at h

lemma missingBlock_mem_checkDirectory {g : Str × List (Bytes × Bytes) × List (Bytes × Bytes)} :
    .missingBlock hash dir ∈ checkDirectory x db level g ↔ g.1 = dir ∧
      (∃ r ∈ g.2.1, hash ∈ (checkFile x db level r).1) ∧
      ∀ r ∈ g.2.2, (checkBlockEntry x db level g.1 r).1 ≠ some hash := by
  unfold checkDirectory collectExpectedBlocks
  simp only [mem_append, mem_flatMap, mem_map, mem_filter, mem_dedup,
    mem_filterMap, decide_eq_true_eq, Finding.missingBlock.injEq]
  constructor
  · rintro ((⟨_, ⟨r, -, rfl⟩, h⟩ | ⟨_, ⟨r, -, rfl⟩, h⟩) | ⟨_, ⟨⟨_, ⟨r, hr, rfl⟩, hmem⟩, hno⟩, rfl, rfl⟩)
    · exact absurd h missingBlock_notMem_checkFile
    · exact absurd rfl ((file_checkBlockEntry _ h).2 hash dir)
    · refine ⟨rfl, ⟨r, hr, hmem⟩, fun r' hr' he => hno ⟨_, ⟨r', hr', rfl⟩, he⟩⟩
  · rintro ⟨rfl, ⟨r, hr, hmem⟩, hno⟩
    refine .inr ⟨hash, ⟨⟨_, ⟨r, hr, rfl⟩, hmem⟩, ?_⟩, rfl, rfl⟩
    rintro ⟨_, ⟨r', hr', rfl⟩, he⟩
    exact hno r' hr' he

lemma dirsUpTo_eq (dirOf : Bytes → Option Str) {rows l₁ l₂ : List (Bytes × Bytes)} {r : Bytes × Bytes}
    (hs : rows.Pairwise fun a b => keyLt a.1 b.1) (h : rows = l₁ ++ r :: l₂) :
    dirsUpTo dirOf rows r.1 = skyline strKey ((l₁ ++ [r]).filterMap fun r => dirOf r.1) := by
  subst h
  obtain ⟨-, hr, hcross⟩ := pairwise_append.1 hs
  have hfront : l₁.filter (fun r' => decide ¬ keyLt r.1 r'.1) = l₁ := by
    rw [filter_eq_self]
    intro r' hr'
    exact decide_eq_true (lt_asymm (hcross r' hr' r mem_cons_self))
  have hback : l₂.filter (fun r' => decide ¬ keyLt r.1 r'.1) = [] := by
    rw [filter_eq_nil_iff]
    intro r' hr'
    simpa using (pairwise_cons.1 hr).1 r' hr'
  have hself : ¬ keyLt r.1 r.1 := List.lt_irrefl _
  rw [dirsUpTo, filter_append, hfront, filter_cons_of_pos (by simpa using hself), hback]

/-- A file and a pointer of its directory meet in a round if and only if the directories up to them agree. -/
lemma WellFormedRows.mem_round_iff (hwell : WellFormedRows x db) {path : Path} {raw raw' : Bytes}
    (hfile : ((Key.mn path).encode, raw) ∈ db.rows) (hptr : ((Key.mb path.dir hash).encode, raw') ∈ db.rows)
    {g : Str × List (Bytes × Bytes) × List (Bytes × Bytes)}
    (hg : g ∈ groupJoin strKey (fun r => fileKeyDir r.1) (fun r => blockKeyDir r.1) (db.scanPrefix FILE_PREFIX)
      (db.scanPrefix BLOCK_PREFIX)) (hrow : ((Key.mn path).encode, raw) ∈ g.2.1) :
    ((Key.mb path.dir hash).encode, raw') ∈ g.2.2 ↔
      dirsUpTo fileKeyDir (db.scanPrefix FILE_PREFIX) (Key.mn path).encode =
        dirsUpTo blockKeyDir (db.scanPrefix BLOCK_PREFIX) (Key.mb path.dir hash).encode := by
  have hsorted : ∀ p, (db.scanPrefix p).Pairwise fun a b => keyLt a.1 b.1 :=
    fun p => db.sorted.sublist filter_sublist
  have hnodup : ∀ p, (db.scanPrefix p).Nodup := by
    intro p
    refine (hsorted p).imp ?_
    rintro a _ hlt rfl
    exact List.lt_irrefl _ hlt
  have hfiles : ∀ r ∈ db.scanPrefix FILE_PREFIX, (fileKeyDir r.1).isSome := by
    intro r hr
    obtain ⟨hr, hp⟩ := RawDb.mem_scanPrefix.1 hr
    obtain ⟨⟨path, hk⟩, -⟩ := hwell.file r hr hp
    rw [hk, fileKeyDir_mn]
    rfl
  have hblocks : ∀ r ∈ db.scanPrefix BLOCK_PREFIX, (blockKeyDir r.1).isSome := by
    intro r hr
    obtain ⟨hr, hp⟩ := RawDb.mem_scanPrefix.1 hr
    obtain ⟨⟨d, hash, hk⟩, -⟩ := hwell.pointer r hr hp
    rw [hk, blockKeyDir_mb]
    rfl
  obtain ⟨as₁, as₂, has⟩ : ∃ as₁ as₂, db.scanPrefix FILE_PREFIX = as₁ ++ ((Key.mn path).encode, raw) :: as₂ :=
    append_of_mem (RawDb.mem_scanPrefix.2 ⟨hfile, prefix_append _ _⟩)
  obtain ⟨bs₁, bs₂, hbs⟩ : ∃ bs₁ bs₂, db.scanPrefix BLOCK_PREFIX =
      bs₁ ++ ((Key.mb path.dir hash).encode, raw') :: bs₂ :=
    append_of_mem (RawDb.mem_scanPrefix.2 ⟨hptr, prefix_append _ _⟩)
  have hupa := dirsUpTo_eq fileKeyDir (hsorted _) has
  have hupb := dirsUpTo_eq blockKeyDir (hsorted _) hbs
  dsimp only at hupa hupb
  rw [hupa, hupb]
  rw [has, hbs] at hg
  exact mem_group_iff (a := ((Key.mn path).encode, raw)) (b := ((Key.mb path.dir hash).encode, raw'))
    strKey_injective (has ▸ hfiles) (hbs ▸ hblocks) (has ▸ hnodup _) (hbs ▸ hnodup _)
    (fileKeyDir_mn path) (blockKeyDir_mb _ _) hg hrow

/-- A pointer is reported if and only if a file needs it that the pointer does not meet. -/
lemma WellFormedRows.missing_iff (hwell : WellFormedRows x db) :
    .missingBlock hash dir ∈ checkDirectoryBlocks x db level ↔ ∃ path, path.dir = dir ∧ NeedsAt x db path hash ∧
      (db.get (Key.mb dir hash).encode ≠ none → dirsUpTo fileKeyDir (db.scanPrefix FILE_PREFIX) (Key.mn path).encode ≠
        dirsUpTo blockKeyDir (db.scanPrefix BLOCK_PREFIX) (Key.mb dir hash).encode) := by
  unfold checkDirectoryBlocks
  simp only [mem_flatMap, missingBlock_mem_checkDirectory]
  constructor
  · rintro ⟨g, hg, rfl, ⟨⟨key, raw⟩, hr, hmem⟩, hno⟩
    obtain ⟨hscan, hdir⟩ := (mem_of_mem_group hg).1 _ hr
    obtain ⟨hrow, hp⟩ := RawDb.mem_scanPrefix.1 hscan
    obtain ⟨⟨path, hk⟩, fi, hfile⟩ := hwell.file _ hrow hp
    dsimp only at hk hfile hdir
    subst hk
    rw [fileKeyDir_mn, Option.some_inj] at hdir
    rw [← hdir] at hno ⊢
    refine ⟨path, rfl, ⟨raw, fi, hrow, hfile, (mem_checkFile hfile).1 hmem⟩, ?_⟩
    intro hsome hdirs
    obtain ⟨raw', hget⟩ := Option.ne_none_iff_exists'.1 hsome
    have hptr := RawDb.get_eq_some_iff.1 hget
    obtain ⟨-, b, href, hseq⟩ := hwell.pointer _ hptr (prefix_append _ _)
    exact hno _ ((hwell.mem_round_iff hrow hptr hg hr).2 hdirs) (checkBlockEntry_fst href hseq _)
  · rintro ⟨path, rfl, ⟨raw, fi, hrow, hfile, hneed⟩, hapart⟩
    have hreached : Reached db ((Key.mn path).encode, raw) := by
      intro r hr hp _
      obtain ⟨⟨path, hk⟩, -⟩ := hwell.file r hr hp
      rw [hk, fileKeyDir_mn]
      rfl
    obtain ⟨g, hg, hr⟩ := exists_round_iff.2 ⟨RawDb.mem_scanPrefix.2 ⟨hrow, prefix_append _ _⟩, hreached⟩
    have hdir : g.1 = path.dir :=
      Option.some.inj (((mem_of_mem_group hg).1 _ hr).2.symm.trans (fileKeyDir_mn path))
    refine ⟨g, hg, hdir, ⟨_, hr, (mem_checkFile hfile).2 hneed⟩, ?_⟩
    rintro ⟨key, raw'⟩ hr' hent
    obtain ⟨hscan, hd⟩ := (mem_of_mem_group hg).2 _ hr'
    obtain ⟨hptr, hp⟩ := RawDb.mem_scanPrefix.1 hscan
    obtain ⟨⟨d, h, hk⟩, b, href, hseq⟩ := hwell.pointer _ hptr hp
    dsimp only at hk href hd
    subst hk
    rw [blockKeyDir_mb, Option.some_inj, hdir] at hd
    rw [checkBlockEntry_fst href hseq, Option.some_inj] at hent
    subst hd hent
    have hget : db.get (Key.mb path.dir h).encode ≠ none := by
      rw [RawDb.get_eq_some_iff.2 hptr]
      simp
    exact hapart hget ((hwell.mem_round_iff hrow hptr hg hr).1 hr')

/-- **When exactly the missing pointers are reported**: the two scans bring each file that needs a pointer
together with it. -/
theorem missing_reported_iff (hwell : WellFormedRows x db) :
    (.missingBlock hash dir ∈ checkDirectoryBlocks x db level ↔
      Needs x db dir hash ∧ db.get (Key.mb dir hash).encode = none) ↔
    (db.get (Key.mb dir hash).encode ≠ none → ∀ path, path.dir = dir → NeedsAt x db path hash →
      dirsUpTo fileKeyDir (db.scanPrefix FILE_PREFIX) (Key.mn path).encode =
        dirsUpTo blockKeyDir (db.scanPrefix BLOCK_PREFIX) (Key.mb dir hash).encode) := by
  rw [hwell.missing_iff]
  by_cases hget : db.get (Key.mb dir hash).encode = none
  · simp only [hget, ne_eq, not_true_eq_false, false_implies, and_true, Needs]
  · simp only [hget, ne_eq, not_false_eq_true, true_implies, and_false, iff_false, not_exists, not_and, not_not]

def highHash : Bytes32 := ⟨List.replicate 32 255, rfl⟩
def lowHash : Bytes32 := ⟨1 :: List.replicate 31 1, rfl⟩

abbrev twoDirectoriesDecoded : Externals :=
  Externals.knowing [([1], unstoredRecord highHash.1), ([2], unstoredRecord lowHash.1)]

/-- The rows of pointers, with an empty value, and of files. -/
def rowsOf (pointers : List (Str × Bytes32)) (files : List (Str × Bytes)) : List (Bytes × Bytes) :=
  pointers.map (fun p => ((Key.mb p.1 p.2).encode, [])) ++ files.map fun f => ((fileKey f.1).encode, f.2)

lemma wellFormed_rowsOf {pointers : List (Str × Bytes32)} {files : List (Str × Bytes)}
    (hrows : db.rows = rowsOf pointers files) (hfiles : ∀ f ∈ files, f.2 = [1] ∨ f.2 = [2]) :
    WellFormedRows twoDirectoriesDecoded db := by
  have hmem : ∀ r ∈ db.rows, (∃ p ∈ pointers, ((Key.mb p.1 p.2).encode, []) = r) ∨
      ∃ f ∈ files, ((fileKey f.1).encode, f.2) = r := by
    intro r hr
    rwa [hrows, rowsOf, mem_append, mem_map, mem_map] at hr
  refine ⟨fun r hr hp => ?_, fun r hr hp => ?_⟩ <;> rcases hmem r hr with ⟨p, -, rfl⟩ | ⟨f, hf, rfl⟩
  · exact absurd (prefix_append_right_inj [109] |>.1 hp) (by simp)
  · refine ⟨⟨_, rfl⟩, ?_⟩
    rcases hfiles f hf with he | he <;> rw [he] <;> exact ⟨_, rfl⟩
  · exact ⟨⟨_, _, rfl⟩, _, rfl, rfl⟩
  · exact absurd (prefix_append_right_inj [109] |>.1 hp) (by simp)

/-- The files `a/x` and `a/b/y`, each with its pointer: the pointer of the inner directory comes first. -/
def twoDirectories : RawDb :=
  ⟨rowsOf [(['a', '/', 'b'], lowHash), (['a'], highHash)] [(['a', '/', 'x'], [1]), (['a', '/', 'b', '/', 'y'], [2])],
    by decide⟩

/-- **A pointer that is there is reported missing.** -/
theorem present_reported_missing :
    WellFormedRows twoDirectoriesDecoded twoDirectories ∧
      twoDirectories.get (Key.mb ['a'] highHash).encode = some [] ∧
      .missingBlock highHash ['a'] ∈ checkDirectoryBlocks twoDirectoriesDecoded twoDirectories .structural := by
  exact ⟨wellFormed_rowsOf rfl (by simp), by decide, by decide +kernel⟩

/-- The files `a-b/y`, `a/w` and `a/x`: the scans have `a-b` before `a`, and the pointer of `a/x` is missing. -/
def siblings : RawDb :=
  ⟨rowsOf [(['a', '-', 'b'], lowHash), (['a'], lowHash)]
    [(['a', '-', 'b', '/', 'y'], [2]), (['a', '/', 'w'], [2]), (['a', '/', 'x'], [1])], by decide +kernel⟩

theorem missing_reported_siblings :
    .missingBlock highHash ['a'] ∈ checkDirectoryBlocks twoDirectoriesDecoded siblings .structural ∧
      .missingBlock lowHash ['a'] ∉ checkDirectoryBlocks twoDirectoriesDecoded siblings .structural := by
  have hwell : WellFormedRows twoDirectoriesDecoded siblings := wellFormed_rowsOf rfl (by simp)
  have hmissing : siblings.get (Key.mb ['a'] highHash).encode = none := by decide +kernel
  refine ⟨((missing_reported_iff hwell).2 fun hsome => absurd hmissing hsome).2 ⟨⟨splitName ['a', '/', 'x'], rfl, ?_⟩,
    hmissing⟩, by decide +kernel⟩
  exact ⟨[1], unstoredRecord highHash.1, by simp [siblings, rowsOf, fileKey], rfl, rfl, _, mem_cons_self, rfl, rfl⟩

end Missing

end Bepository.Storage
