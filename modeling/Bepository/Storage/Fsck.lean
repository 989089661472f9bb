import Mathlib.Data.List.Dedup
import Bepository.Lib.GroupJoin
import Bepository.Storage.Raw

/-!
# The integrity check (`bepository-storage/src/fsck.rs`)

`check_folder_integrity` reads a folder's database, whatever it holds, and lists what is wrong with it.  Reads
succeed here; in the source one that fails ends the check with its error.  The directories of the files and
of the block pointers are joined group by group (`groupJoin`).
-/

namespace Bepository.Storage

open Lib

inductive FsckLevel where
  | quick
  | structural
  | full
  deriving DecidableEq

/-! ### Findings -/

inductive Finding where
  | inboxUndecodable (row : Bytes × Bytes)
  | inboxNoInfo (row : Bytes × Bytes)
  | metaUndecodable (e : String)
  | remoteUndecodable (key : Bytes) (e : String)
  | seqKeyInvalid (key : Bytes)
  | seqNotUtf8 (seq : ℕ)
  | seqNoFile (seq : ℕ) (name : Str)
  | seqFileUndecodable (seq : ℕ) (name : Str)
  | fileNoInfo (name : Str)
  | seqMismatch (name : Str) (seq : ℕ) (fileSeq : ℤ)
  | fileNoSeq (name : Str) (fileSeq : ℤ)
  | fileSeqInvalid (name : Str) (fileSeq : ℤ) (e : String)
  | maxBelowSeq (max : ℤ) (seq : ℕ)
  | maxBelowFileSeq (max : ℤ) (fileSeq : ℤ)
  | fileKeyInvalid (key : Bytes)
  | fileUndecodable (name : Str)
  | hashLength (len : ℕ) (name : Str)
  | blockFails (hash : Bytes32) (name : Str) (e : String)
  | blockUnresolvable (hash : Bytes32) (name : Str)
  | blockSize (hash : Bytes32) (name : Str) (size : ℤ) (len : ℕ)
  | blockChecksum (hash : Bytes32) (name : Str)
  | noReverse (hash : Bytes32) (name : Str)
  | refUndecodable (hash : Bytes32) (dir : Str)
  | refSeqInvalid (hash : Bytes32) (dir : Str) (e : String)
  | refDangling (hash : Bytes32) (dir : Str) (seqno : ℕ)
  | refChecksum (hash : Bytes32) (dir : Str) (seqno : ℕ)
  | unexpectedKey (dir : Str) (key : Bytes)
  | missingBlock (hash : Bytes32) (dir : Str)
  deriving DecidableEq

section Check

variable (x : Externals)

/-- How `check_inbox` shows a row. -/
def inboxDisplay (r : Bytes × Bytes) : String :=
  match parseInboxKey r.1 with
  | some (epoch, name) => s!"in/{epoch.asBase32.toString}/{name.toString}"
  | none => x.debugRow r

def Finding.message : Finding → String
  | .inboxUndecodable row => s!"Failed to decode Inbox for {inboxDisplay x row}"
  | .inboxNoInfo row => s!"Inbox entry {inboxDisplay x row} missing file_info"
  | .metaUndecodable e => s!"Failed to decode FolderIndexMeta: {e}"
  | .remoteUndecodable key e => s!"Failed to decode RemoteIndexState for key {x.debugBytes key}: {e}"
  | .seqKeyInvalid key => s!"Invalid sequence key: {x.debugBytes key}"
  | .seqNotUtf8 seq => s!"Sequence {seq} name is not valid UTF-8"
  | .seqNoFile seq name => s!"Sequence {seq} points to missing file: {name.toString}"
  | .seqFileUndecodable seq name => s!"Failed to decode File for sequence {seq}: {name.toString}"
  | .fileNoInfo name => s!"File {name.toString} missing file_info"
  | .seqMismatch name seq fileSeq =>
    s!"Sequence mismatch for {name.toString}: ms/ says {seq}, mn/ says {fileSeq}"
  | .fileNoSeq name fileSeq => s!"File {name.toString} has sequence {fileSeq} but no ms/ entry exists"
  | .fileSeqInvalid name fileSeq e => s!"File {name.toString} has invalid sequence {fileSeq}: {e}"
  | .maxBelowSeq max seq => s!"max_sequence {max} in mx is less than highest ms key {seq}"
  | .maxBelowFileSeq max fileSeq =>
    s!"max_sequence {max} in mx is less than highest file sequence {fileSeq}"
  | .fileKeyInvalid key => s!"Invalid file key: {x.debugBytes key}"
  | .fileUndecodable name => s!"Failed to decode File for {name.toString}"
  | .hashLength len name => s!"Invalid hash length {len} for file {name.toString}"
  | .blockFails hash name e =>
    s!"Block {x.hex hash.1} of file {name.toString} fails reader-path resolution: {e}"
  | .blockUnresolvable hash name =>
    s!"Block {x.hex hash.1} of file {name.toString} not resolvable via the reader path (inline data or blockseq)"
  | .blockSize hash name size len =>
    s!"Block {x.hex hash.1} of file {name.toString} declares size {size} but resolved data is {len} bytes"
  | .blockChecksum hash name => s!"Data checksum mismatch for block {x.hex hash.1} of file {name.toString}"
  | .noReverse hash name =>
    s!"Missing reverse reference mr for block {x.hex hash.1} in file {name.toString}"
  | .refUndecodable hash dir => s!"Failed to decode BlockRef for {x.hex hash.1} in dir {dir.toString}"
  | .refSeqInvalid hash dir e =>
    s!"Invalid sequence number for block {x.hex hash.1} in dir {dir.toString}: {e}"
  | .refDangling hash dir seqno =>
    s!"Block pointer for {x.hex hash.1} in {dir.toString} points to missing sequence data at seqno {seqno}"
  | .refChecksum hash dir seqno =>
    s!"Data checksum mismatch for block {x.hex hash.1} in dir {dir.toString} (seqno {seqno})"
  | .unexpectedKey dir key => s!"Unexpected key in block segment for dir {dir.toString}: {x.lossy key}"
  | .missingBlock hash dir => s!"Missing block {x.hex hash.1} in dir {dir.toString}"

variable (db : RawDb) (level : FsckLevel)

/-! ### Inbox, metadata and sequences -/

def checkInbox : List Finding :=
  (db.scanPrefix INBOX_PREFIX).filterMap fun r =>
    match x.inbox r.2 with
    | .error _ => some (.inboxUndecodable r)
    | .ok none => some (.inboxNoInfo r)
    | .ok (some _) => none

def DEVICE_PREFIX : Bytes := [109, 100]

/-- `check_metadata`: the stored maximum, and what is wrong. -/
def checkMetadata : Option ℤ × List Finding :=
  let own :=
    match (db.get Key.mx.encode).map x.folderIndexMeta with
    | none => (none, [])
    | some (.ok m) => (some m.maxSequence, [])
    | some (.error e) => (none, [Finding.metaUndecodable e])
  let remote := (db.scanPrefix DEVICE_PREFIX).filterMap fun r =>
    match x.remoteIndexState r.2 with
    | .ok _ => none
    | .error e => some (Finding.remoteUndecodable r.1 e)
  (own.1, own.2 ++ remote)

/-- What is wrong with a row `ms<seq>`. -/
def checkSeqRow (r : Bytes × Bytes) : List Finding :=
  match parseSeqKey r.1 with
  | none => [.seqKeyInvalid r.1]
  | some seq =>
    match fromUtf8 r.2 with
    | none => [.seqNotUtf8 seq]
    | some name =>
      match (db.get (fileKey name).encode).map x.file with
      | none => [.seqNoFile seq name]
      | some (.error _) => [.seqFileUndecodable seq name]
      | some (.ok none) => [.fileNoInfo name]
      | some (.ok (some fi)) =>
        if fi.info.sequence ≠ (seq : ℤ) then [.seqMismatch name seq fi.info.sequence] else []

/-- The file of a row `mn<name>` that can be read. -/
def readableFile (r : Bytes × Bytes) : Option (Str × StoredFile) :=
  match parseFileKey r.1, x.file r.2 with
  | some name, .ok (some fi) => some (name, fi.info)
  | _, _ => none

def checkFileSeq (f : Str × StoredFile) : List Finding :=
  match seqKey f.2.sequence with
  | .error e => [.fileSeqInvalid f.1 f.2.sequence e.display]
  | .ok key => if db.get key.encode = none then [.fileNoSeq f.1 f.2.sequence] else []

def checkSequences (maxSequence : Option ℤ) : List Finding :=
  let seqRows := db.scanPrefix SEQ_PREFIX
  let maxObservedSeq := (seqRows.filterMap fun r => parseSeqKey r.1).foldl max 0
  let files := if level = .full then (db.scanPrefix FILE_PREFIX).filterMap (readableFile x) else []
  let maxObservedFileSeq := (files.map fun f => f.2.sequence).foldl max 0
  let maxFindings :=
    match maxSequence with
    | none => []
    | some storedMax =>
      (if storedMax < (maxObservedSeq : ℤ) then [Finding.maxBelowSeq storedMax maxObservedSeq] else []) ++
      (if level = .full ∧ storedMax < maxObservedFileSeq then
        [Finding.maxBelowFileSeq storedMax maxObservedFileSeq] else [])
  seqRows.flatMap (checkSeqRow x db) ++ files.flatMap (checkFileSeq db) ++ maxFindings

/-! ### Blocks -/

def fileKeyDir (key : Bytes) : Option Str :=
  (key.dropPrefix? FILE_PREFIX).bind fun rest =>
    (fromUtf8 rest).bind fun s => (rsplitOnceAt ['/', '/'] s).map Prod.fst

def blockKeyDir (key : Bytes) : Option Str :=
  if !BLOCK_PREFIX.isPrefixOf key then none
  else if key.length < BLOCK_PREFIX.length + (1 + HASH_LEN) then none
  else fromUtf8 ((key.take (key.length - (1 + HASH_LEN))).drop BLOCK_PREFIX.length)

/-- One block of a live file: the pointer it needs, and what is wrong. -/
def checkBlock (name : Str) (block : StoredBlock) : Option Bytes32 × List Finding :=
  match toBytes32 block.hash with
  | none => (none, [.hashLength block.hash.length name])
  | some hash =>
    let resolved :=
      match resolveBlockDataFrom db.readBlockData block with
      | .error e => [Finding.blockFails hash name e.display]
      | .ok none => [Finding.blockUnresolvable hash name]
      | .ok (some data) =>
        if level = .full then
          (if block.size ≠ (data.length : ℤ) then [Finding.blockSize hash name block.size data.length] else []) ++
          (if x.sha256 data ≠ hash.1 then [Finding.blockChecksum hash name] else [])
        else []
    -- inline blocks have no pointer and no reverse reference
    if block.inlineData.isSome then (none, resolved)
    else
      (some hash, resolved ++
        if db.get (blockReverseKey hash name).encode = none then [.noReverse hash name] else [])

/-- One row `mn<name>`: the pointers its blocks need, and what is wrong. -/
def checkFile (r : Bytes × Bytes) : List Bytes32 × List Finding :=
  match parseFileKey r.1 with
  | none => ([], [.fileKeyInvalid r.1])
  | some name =>
    match x.file r.2 with
    | .error _ => ([], [.fileUndecodable name])
    | .ok none => ([], [.fileNoInfo name])
    | .ok (some fi) =>
      if fi.info.deleted then ([], [])
      else
        let checked := fi.info.blocks.map (checkBlock x db level name)
        (checked.filterMap Prod.fst, checked.flatMap Prod.snd)

def collectExpectedBlocks (fileKvs : List (Bytes × Bytes)) : List Bytes32 × List Finding :=
  let checked := fileKvs.map (checkFile x db level)
  ((checked.flatMap Prod.fst).dedup, checked.flatMap Prod.snd)

/-- One row `mb<dir>/<hash>`: the pointer that is there, and what is wrong. -/
def checkBlockEntry (dir : Str) (r : Bytes × Bytes) : Option Bytes32 × List Finding :=
  match parseBlockPointerKey r.1 with
  | none => (none, [.unexpectedKey dir r.1])
  | some hash =>
    match x.blockRef r.2 with
    | .error _ => (none, [.refUndecodable hash dir])
    | .ok blockRef =>
      match validateBlockSeq blockRef.seqno with
      | .error e => (none, [.refSeqInvalid hash dir e.display])
      | .ok () =>
        (some hash,
          match db.readBlockData blockRef.seqno with
          | none => [.refDangling hash dir blockRef.seqno]
          | some data =>
            if level = .full ∧ x.sha256 data ≠ hash.1 then [.refChecksum hash dir blockRef.seqno] else [])

/-- One round of `check_directory_blocks`: `collect_expected_blocks`, `check_block_entries` and what is left
of the expected pointers. -/
def checkDirectory (g : Str × List (Bytes × Bytes) × List (Bytes × Bytes)) : List Finding :=
  let collected := collectExpectedBlocks x db level g.2.1
  let entries := g.2.2.map (checkBlockEntry x db level g.1)
  let missing := collected.1.filter (· ∉ entries.filterMap Prod.fst)
  collected.2 ++ entries.flatMap Prod.snd ++ missing.map (.missingBlock · g.1)

def checkDirectoryBlocks : List Finding :=
  (groupJoin strKey (fun r => fileKeyDir r.1) (fun r => blockKeyDir r.1) (db.scanPrefix FILE_PREFIX)
    (db.scanPrefix BLOCK_PREFIX)).flatMap (checkDirectory x db level)

def checkFolderIntegrity : List Finding :=
  checkInbox x db ++
    if level = .quick then []
    else
      let checked := checkMetadata x db
      checked.2 ++ checkSequences x db level checked.1 ++ checkDirectoryBlocks x db level

end Check

end Bepository.Storage
