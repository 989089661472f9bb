import Bepository.Bep.Validate
import Bepository.Storage.Raw

/-!
# Snapshots (`bepository-storage/src/snapshot_fs.rs`)

A snapshot is a checkpoint of a folder's database seen as a file system.  This module has the three
functions that read it, and what a ranged read returns: `read_bytes` cuts the range out of the blocks one
by one, and the bytes are those of the range in the concatenation of the blocks.
-/

namespace Bepository.Storage

open Lib List

/-- `FsEntry`, over the type of points in time. -/
inductive FsEntry (τ : Type) where
  | file (name : Str) (size : ℕ) (modified : τ)
  | dir (name : Str)
  deriving DecidableEq

def FsEntry.name {τ : Type} : FsEntry τ → Str
  | .file name _ _ => name
  | .dir name => name

def FsEntry.isDir {τ : Type} : FsEntry τ → Bool
  | .file .. => false
  | .dir _ => true

inductive SnapshotError where
  | notFound
  | notAFile
  | notADir
  | io (msg : String)
  deriving DecidableEq

def snapIo (ctx : String) (e : String) : SnapshotError := .io s!"{ctx}: {e}"

section Functions

variable (x : Externals)

/-- `decode_live_file_info`: nothing for an entry that is deleted or has no `file_info`. -/
def decodeLiveFileInfo (raw : Bytes) : Except SnapshotError (Option FileRecord) :=
  match x.file raw with
  | .error e => .error (snapIo "decode file proto" e)
  | .ok fi => .ok (fi.filter fun fi => !fi.info.deleted)

/-! ### Directories -/

section Directories

variable {τ : Type} (fromTimestamp : ℤ → ℕ → Option τ)

/-- `fs_entry_from_file_info`.  Nanoseconds are an `i32`, so those that are not negative fit a `u32`. -/
def fsEntryFromFileInfo (name : Str) (fi : FileRecord) : Except SnapshotError (FsEntry τ) :=
  match fromTimestamp fi.modifiedS (max fi.modifiedNs 0).toNat with
  | none => .error (.io "invalid timestamp in file info")
  | some modified =>
    if fi.info.size < 0 then .error (.io "negative file size")
    else .ok (.file name fi.info.size.toNat modified)

def readDirPrefix (path : Str) : Bytes :=
  if path = [] then FILE_PREFIX else FILE_PREFIX ++ utf8 path ++ [47]

def relativeUnder (dir fullName : Str) : Option Str :=
  if dir = [] then some fullName
  else (fullName.dropPrefix? dir).bind fun s => s.dropPrefix? ['/']

/-- The part of a relative path before its first slash: `split_once('/')`. -/
def firstPart (relative : Str) : Option Str :=
  if '/' ∈ relative then some (relative.takeWhile (· ≠ '/')) else none

def listRow (path : Str) (entries : List (FsEntry τ)) (r : Bytes × Bytes) :
    Except SnapshotError (List (FsEntry τ)) :=
  match parseFileKey r.1 with
  | none => .ok entries
  | some fullName =>
    match decodeLiveFileInfo x r.2 with
    | .error _ | .ok none => .ok entries
    | .ok (some fi) =>
      match relativeUnder path fullName with
      | none => .ok entries
      | some relative =>
        match firstPart relative with
        | some dirPart =>
          -- `seen_dirs` holds the names of the directories already listed
          if entries.any fun e => e.isDir && e.name = dirPart then .ok entries
          else .ok (entries ++ [.dir dirPart])
        | none => (fsEntryFromFileInfo fromTimestamp relative fi).map fun e => entries ++ [e]

def readDir (db : RawDb) (path : Str) : Except SnapshotError (List (FsEntry τ)) :=
  (db.scanPrefix (readDirPrefix path)).foldlM (listRow x fromTimestamp path) []

/-- `file_metadata`.  The last part of a path is its base name. -/
def fileMetadata (db : RawDb) (path : Str) : Except SnapshotError (FsEntry τ) :=
  match db.get (fileKey path).encode with
  | some raw =>
    match decodeLiveFileInfo x raw with
    | .error e => .error e
    | .ok none => .error .notFound
    | .ok (some fi) => fsEntryFromFileInfo fromTimestamp (splitName path).base fi
  | none =>
    match db.scanPrefix (FILE_PREFIX ++ utf8 path ++ [47]) with
    | [] => .error .notFound
    | _ :: _ => .ok (.dir (splitName path).base)

end Directories

/-! ### Ranges -/

/-- How a ranged read can fail: with an error of its own, or because arithmetic overflows. -/
inductive ReadFault where
  | error (e : SnapshotError)
  | overflow
  deriving DecidableEq

def saturatingAdd (a b : ℕ) : ℕ := min (a + b) (2 ^ 64 - 1)

def readBlockFromReader (db : RawDb) (block : StoredBlock) : Except SnapshotError Bytes :=
  match resolveBlockDataFrom db.readBlockData block with
  | .error e => .error (snapIo "resolve block" e.display)
  | .ok none => .error (.io s!"block not found: {x.hex block.hash}")
  | .ok (some data) => .ok data

variable (w : ℕ) (db : RawDb)

/-- The loop of `copy_range_from_blocks`, on a machine whose `usize` has `w` bits. -/
def copyBlocks (offset endOffset : ℕ) : List StoredBlock → ℕ → Bytes → Except ReadFault Bytes
  | [], _, out => .ok out
  | block :: blocks, remaining, out =>
    if block.offset < 0 then .error (.error (.io "negative block offset"))
    else if block.size < 0 then .error (.error (.io "negative block size"))
    else
      let blkStart := block.offset.toNat
      let blkSize := block.size.toNat
      let blkEnd := saturatingAdd blkStart blkSize
      if blkEnd ≤ offset then copyBlocks offset endOffset blocks remaining out
      else if endOffset ≤ blkStart then .ok out
      else
        let skip := offset - blkStart
        if 2 ^ w ≤ skip then .error (.error (.io "skip offset exceeds usize max"))
        else if 2 ^ w ≤ blkSize then .error (.error (.io "block size exceeds usize max"))
        else
          let take := min (blkSize - skip) remaining
          match readBlockFromReader x db block with
          | .error e => .error (.error e)
          | .ok data =>
            -- `skip + take` and `remaining -= take` are the two places that could overflow
            if 2 ^ w ≤ skip + take ∨ remaining < take then .error .overflow
            else if data.length < skip + take then
              .error (.error (.io
                s!"block {x.hex block.hash} declares size {block.size} but resolved data is {data.length} bytes"))
            else
              let out := out ++ (data.drop skip).take take
              if remaining - take = 0 then .ok out
              else copyBlocks offset endOffset blocks (remaining - take) out

def copyRangeFromBlocks (fi : StoredFile) (offset len : ℕ) : Except ReadFault Bytes :=
  copyBlocks x w db offset (saturatingAdd offset len) fi.blocks len []

def readBytes (path : Str) (offset len : ℕ) : Except ReadFault Bytes :=
  if len = 0 then .ok []
  else
    match db.get (fileKey path).encode with
    | none => .error (.error .notFound)
    | some raw =>
      match decodeLiveFileInfo x raw with
      | .error e => .error (.error e)
      | .ok none => .error (.error .notFound)
      | .ok (some fi) =>
        if fi.info.size < 0 then .error (.error (.io "negative file size"))
        else
          -- the clamped length, where it fits a `usize`
          let clamped := min (fi.info.size.toNat - offset) len
          let len := if clamped < 2 ^ w then clamped else len
          if len = 0 then .ok [] else copyRangeFromBlocks x w db fi.info offset len

end Functions

lemma decodeLiveFileInfo_eq {x : Externals} {raw : Bytes} {fi : FileRecord} (h : x.file raw = .ok (some fi)) :
    decodeLiveFileInfo x raw = .ok (if fi.info.deleted then none else some fi) := by
  unfold decodeLiveFileInfo
  rw [h]
  cases hd : fi.info.deleted <;> simp [Option.filter, hd]

/-! ### What a ranged read returns -/

section Ranges

variable {x : Externals} {w : ℕ} {db : RawDb}

/-- The stored block as the wire form that `validate_file_info` checks. -/
def FileRecord.announced (fi : FileRecord) : WireFile :=
  { fi.info with blocks := fi.info.blocks.map StoredBlock.toWire }

def ResolvesTo (db : RawDb) (block : StoredBlock) (data : Bytes) : Prop :=
  resolveBlockDataFrom db.readBlockData block = .ok (some data) ∧ (data.length : ℤ) = block.size

lemma ResolvesTo.read {b : StoredBlock} {data : Bytes} (h : ResolvesTo db b data) :
    readBlockFromReader x db b = .ok data := by
  unfold readBlockFromReader
  rw [h.1]

lemma copyBlocks_eq (hw : 24 < w) {offset endOffset stop : ℕ} {contents : List Bytes}
    {blocks : List StoredBlock} (hdata : List.Forall₂ (ResolvesTo db) blocks contents) (hstop : stop < 2 ^ 63)
    (hend : endOffset ≤ stop) {start remaining : ℕ} {out : Bytes}
    (hlegal : ∀ b ∈ blocks.map StoredBlock.toWire, b.Legal)
    (hcont : Contiguous start (blocks.map StoredBlock.toWire) stop)
    (hrem : remaining = endOffset - max offset start) (hpos : 0 < remaining) :
    copyBlocks x w db offset endOffset blocks remaining out =
      .ok (out ++ (contents.flatten.drop (offset - start)).take remaining) := by
  induction hdata generalizing start remaining out with
  | nil =>
    have : (start : ℤ) = stop := hcont
    omega
  | @cons b data blocks contents hb hdata ih =>
    obtain ⟨hoff, hcont⟩ := hcont
    obtain ⟨hsize, hmax, -⟩ := hlegal b.toWire mem_cons_self
    have hlegal' : ∀ c ∈ blocks.map StoredBlock.toWire, c.Legal :=
      fun c hc => hlegal c (mem_cons_of_mem _ hc)
    have hlen := hb.2
    have hle := Contiguous.le hlegal' hcont
    simp only [StoredBlock.toWire, MAX_BLOCK_SIZE] at hoff hsize hmax hcont hle
    have hstart : b.offset.toNat = start := by omega
    have hsz : b.size.toNat = data.length := by omega
    have hnext : (start : ℤ) + b.size = ((start + data.length : ℕ) : ℤ) := by omega
    rw [hnext] at hcont hle
    have hbits : 2 ^ 25 ≤ 2 ^ w := Nat.pow_le_pow_right (by decide) hw
    have hadd : saturatingAdd start data.length = start + data.length := by
      unfold saturatingAdd
      omega
    rw [copyBlocks, if_neg (by omega), if_neg (by omega)]
    simp only [hstart, hsz, hadd, flatten_cons]
    by_cases hbefore : start + data.length ≤ offset
    · -- the block lies before the range
      rw [if_pos hbefore, ih hlegal' hcont (by omega) hpos, take_drop_append_of_le (by omega), Nat.sub_sub]
    · have hskip : offset - start < data.length := by omega
      rw [if_neg hbefore, if_neg (by omega), if_neg (by omega), if_neg (by omega), hb.read]
      simp only
      rw [if_neg (by omega), if_neg (by omega)]
      by_cases hlast : remaining ≤ data.length - (offset - start)
      · -- the range ends in this block
        rw [min_eq_right hlast, if_pos (by omega), take_drop_append_of_add_le (by omega)]
      · have htake : min (data.length - (offset - start)) remaining = data.length - (offset - start) :=
          min_eq_left (by omega)
        rw [htake, if_neg (by omega), ih hlegal' hcont (by omega) (by omega),
          take_drop_append_of_lt (by omega) (by omega), take_of_length_le (by rw [length_drop]),
          append_assoc]
        have hrest : offset - (start + data.length) = 0 := by omega
        rw [hrest, drop_zero]

/-- The snapshot has a live file at the path that passes its check, and its blocks resolve to this content. -/
structure HasContent (x : Externals) (db : RawDb) (path : Str) (fi : FileRecord) (content : Bytes) : Prop where
  row : ∃ raw, db.get (fileKey path).encode = some raw ∧ x.file raw = .ok (some fi)
  live : fi.info.deleted = false
  valid : validateFileInfo fi.announced = .ok ()
  covered : fi.info.blocks ≠ [] ∨ fi.info.size = 0
  blocks : ∃ contents, List.Forall₂ (ResolvesTo db) fi.info.blocks contents ∧ content = contents.flatten

section Content

variable {path : Str} {fi : FileRecord} {content : Bytes} {offset len : ℕ}

section

variable (h : HasContent x db path fi content)
include h

lemma HasContent.announced_covered : fi.announced.blocks ≠ [] ∨ fi.announced.size = 0 := by
  rw [show fi.announced.size = fi.info.size from rfl, FileRecord.announced]
  simpa using h.covered

lemma HasContent.size_bounds : 0 ≤ fi.info.size ∧ fi.info.size < 2 ^ 63 :=
  ⟨(validateFileInfo_eq_ok h.valid).1, validateFileInfo_size_lt h.valid h.announced_covered⟩

lemma HasContent.decode :
    ∃ raw, db.get (fileKey path).encode = some raw ∧ decodeLiveFileInfo x raw = .ok (some fi) := by
  obtain ⟨raw, hrow, hfile⟩ := h.row
  refine ⟨raw, hrow, ?_⟩
  rw [decodeLiveFileInfo_eq hfile, h.live]
  rfl

end

lemma length_flatten_contiguous {start stop : ℤ} {contents : List Bytes} {blocks : List StoredBlock}
    (hdata : List.Forall₂ (ResolvesTo db) blocks contents)
    (hcont : Contiguous start (blocks.map StoredBlock.toWire) stop) :
    start + contents.flatten.length = stop := by
  induction hdata generalizing start with
  | nil =>
    have hstop : start = stop := hcont
    simpa using hstop
  | @cons b data blocks contents hb hdata ih =>
    have hrest := ih hcont.2
    have hsize : (data.length : ℤ) = b.toWire.size := hb.2
    rw [flatten_cons, length_append]
    push_cast
    omega

lemma HasContent.length (h : HasContent x db path fi content) : (content.length : ℤ) = fi.info.size := by
  obtain ⟨contents, hdata, rfl⟩ := h.blocks
  by_cases hnil : fi.announced.blocks = []
  · have hnone : fi.info.blocks = [] := map_eq_nil_iff.1 hnil
    rw [hnone] at hdata
    cases hdata
    rw [h.covered.resolve_left fun hne => hne hnone]
    rfl
  · have hcont := (validateFileInfo_eq_ok h.valid).2.2 hnil
    have hlen := length_flatten_contiguous hdata hcont
    rw [zero_add] at hlen
    exact hlen

lemma HasContent.read (h : HasContent x db path fi content) (hw : 32 ≤ w) (hoffset : offset < 2 ^ 64)
    (hlen : len < 2 ^ w) : readBytes x w db path offset len =
      .ok ((content.take (min (offset + len) fi.info.size.toNat)).drop (min offset fi.info.size.toNat)) := by
  obtain ⟨hnn, hlt⟩ := h.size_bounds
  obtain ⟨raw, hrow, hdecode⟩ := h.decode
  obtain ⟨contents, hdata, rfl⟩ := h.blocks
  obtain ⟨size, hsize⟩ := Int.eq_ofNat_of_zero_le hnn
  have hto : fi.info.size.toNat = size := by omega
  unfold readBytes
  by_cases hzero : len = 0
  · rw [if_pos hzero, hzero, Nat.add_zero, drop_eq_nil_of_le]
    rw [length_take]
    omega
  · rw [if_neg hzero, hrow]
    have hfit : min (size - offset) len < 2 ^ w := by omega
    simp only [hdecode, hto, if_pos hfit]
    rw [if_neg (by omega)]
    by_cases hpast : min (size - offset) len = 0
    · -- the range starts at or behind the end of the file
      rw [if_pos hpast, drop_eq_nil_of_le]
      rw [length_take]
      omega
    · have hcover : Contiguous ((0 : ℕ) : ℤ) (fi.info.blocks.map StoredBlock.toWire) size := by
        rw [← hsize]
        exact contiguous_of_validate h.valid h.announced_covered (show fi.info.size ≠ 0 by omega)
      have hlegal := (validateFileInfo_eq_ok h.valid).2.1
      have hend : saturatingAdd offset (min (size - offset) len) = min (offset + len) size := by
        unfold saturatingAdd
        omega
      have hstart : min offset size = offset := by omega
      have hrest : offset + min (size - offset) len = min (offset + len) size := by omega
      rw [if_neg hpast, copyRangeFromBlocks, hend,
        copyBlocks_eq (by omega) hdata (by omega) (min_le_right _ _) hlegal hcover (by omega) (by omega),
        Nat.sub_zero, nil_append, take_drop, hstart, hrest]

end Content

/-- **A ranged read returns the bytes of the range.** -/
theorem readBytes_eq_range (hw : 32 ≤ w) {path : Str} {raw : Bytes} {fi : FileRecord} {contents : List Bytes}
    {offset len : ℕ} (hrow : db.get (fileKey path).encode = some raw) (hfile : x.file raw = .ok (some fi))
    (hlive : fi.info.deleted = false) (hvalid : validateFileInfo fi.announced = .ok ())
    (hblocks : fi.info.blocks ≠ [] ∨ fi.info.size = 0)
    (hdata : List.Forall₂ (ResolvesTo db) fi.info.blocks contents) (hoffset : offset < 2 ^ 64)
    (hlen : len < 2 ^ w) :
    readBytes x w db path offset len = .ok ((contents.flatten.take (min (offset + len) fi.info.size.toNat)).drop
        (min offset fi.info.size.toNat)) := by
  have h : HasContent x db path fi contents.flatten :=
    ⟨⟨raw, hrow, hfile⟩, hlive, hvalid, hblocks, contents, hdata, rfl⟩
  exact h.read hw hoffset hlen

/-- Decoders for samples: a table of files, and block references to the first sequence number. -/
def Externals.knowing (files : List (Bytes × FileRecord)) : Externals where
  file raw :=
    match files.lookup raw with
    | some fi => .ok (some fi)
    | none => .error "unknown value"
  inbox _ := .ok none
  blockRef _ := .ok ⟨MIN_BLOCK_SEQ⟩
  folderIndexMeta _ := .ok .empty
  remoteIndexState _ := .ok ⟨0, 0⟩
  sha256 b := b
  hex _ := ""
  lossy _ := ""
  debugBytes _ := ""
  debugRow _ := ""

def twoBlockRecord : FileRecord where
  info :=
    { name := ['f'], size := 5, version := none, sequence := 1, type := 1, deleted := false,
      blocks := [⟨List.replicate 32 7, 0, 2, none, some [1, 2]⟩, ⟨List.replicate 32 8, 2, 3, none, some [3, 4, 5]⟩] }
  modifiedS := 0
  modifiedNs := 0

def oneFileSnapshot : RawDb := ⟨[((fileKey ['f']).encode, [1])], by decide⟩

/-- The bytes in the middle, across the two blocks. -/
theorem readBytes_across_blocks :
    readBytes (Externals.knowing [([1], twoBlockRecord)]) 64 oneFileSnapshot ['f'] 1 3 = .ok [2, 3, 4] :=
  readBytes_eq_range (by decide) (show oneFileSnapshot.get (fileKey ['f']).encode = some [1] by decide)
    (show (Externals.knowing [([1], twoBlockRecord)]).file [1] = .ok (some twoBlockRecord) by rfl) rfl (by rfl)
    (.inl (by simp [twoBlockRecord])) (show List.Forall₂ _ _ [[1, 2], [3, 4, 5]] by
      refine .cons ⟨rfl, rfl⟩ (.cons ⟨rfl, rfl⟩ .nil)) (by decide) (by decide)

end Ranges

end Bepository.Storage
