import Bepository.Lock.Epoch

/-!
# Index records (`bep.proto`, `storage.proto`, `bepository-storage/src/proto.rs`)

A `FileInfo` announced by a peer and one kept in a folder's database differ in their blocks only: a
stored block also says where its bytes are.  `FileInfo` is generic in the block type.  The fields
that no modelled function reads (times, permissions, platform data and the like) are left out.
-/

namespace Bepository

abbrev Bytes := List UInt8

/-! ### Errors -/

/-- `bepository_bep::error::StorageError`. -/
inductive StorageError where
  | transientIo (msg : String)
  | corruption (msg : String)
  | notFound (msg : String)
  | standby (msg : String)
  | invalidInput (msg : String)
  | internal (msg : String)
  deriving DecidableEq

/-- `bepository_bep::error::BepError`, as far as index updates are concerned. -/
inductive BepError where
  | peerBadMessage (msg : String)
  | peerError (code : ℤ) (path : String)
  | internal (msg : String)
  deriving DecidableEq

def Str.toString (s : Str) : String := String.ofList s

/-! ### Records -/

structure Counter where
  id : ℕ
  value : ℕ
  deriving DecidableEq

structure VersionVector where
  counters : List Counter
  deriving DecidableEq

structure BlockInfo where
  hash : Bytes
  offset : ℤ
  size : ℤ
  deriving DecidableEq

/-- A block as stored: `blockseq` names a block-data row, `inlineData` holds the bytes. -/
structure StoredBlock where
  hash : Bytes
  offset : ℤ
  size : ℤ
  blockseq : Option ℕ
  inlineData : Option Bytes
  deriving DecidableEq

structure FileInfo (β : Type) where
  name : Str
  size : ℤ
  version : Option VersionVector
  sequence : ℤ
  blocks : List β
  type : ℤ
  deleted : Bool
  deriving DecidableEq

abbrev WireFile := FileInfo BlockInfo

abbrev StoredFile := FileInfo StoredBlock

def StoredBlock.hasPointer (b : StoredBlock) : Bool := b.blockseq.isSome || b.inlineData.isSome

/-! ### Conversions -/

/-- `bep_type_to_storage`: an unknown type counts as a regular file. -/
def bepTypeToStorage : ℤ → ℤ
  | 0 => 1
  | 1 => 2
  | 2 | 3 | 4 => 3
  | _ => 1

def storageTypeToBep (t : ℤ) : Except StorageError ℤ :=
  if t = 0 then .error (.corruption "storage FileInfoType is UNSPECIFIED")
  else if t = 1 then .ok 0
  else if t = 2 then .ok 1
  else if t = 3 then .ok 4
  else .error (.corruption s!"invalid storage FileInfoType value {t}")

def BlockInfo.toStored (b : BlockInfo) : StoredBlock := ⟨b.hash, b.offset, b.size, none, none⟩

def StoredBlock.toWire (b : StoredBlock) : BlockInfo := ⟨b.hash, b.offset, b.size⟩

/-- `From<bep::FileInfo> for storage::FileInfo`. -/
def FileInfo.toStored (f : WireFile) : StoredFile :=
  { f with blocks := f.blocks.map BlockInfo.toStored, type := bepTypeToStorage f.type }

/-- `TryFrom<storage::FileInfo> for bep::FileInfo`. -/
def FileInfo.toWire (f : StoredFile) : Except StorageError WireFile :=
  (storageTypeToBep f.type).map fun t =>
    { f with blocks := f.blocks.map StoredBlock.toWire, type := t }

/-- `BlockRef`. -/
structure BlockRef where
  seqno : ℕ
  deriving DecidableEq

/-- `FolderIndexMeta`. -/
structure FolderIndexMeta where
  maxSequence : ℤ
  nextBlockseq : Option ℕ
  deriving DecidableEq

/-- `FolderIndexMeta::default()`. -/
def FolderIndexMeta.empty : FolderIndexMeta := ⟨0, none⟩

/-- `RemoteIndexState`. -/
structure RemoteIndexState where
  indexId : ℕ
  maxSequence : ℤ
  deriving DecidableEq

section Conversions

def FileInfo.Typed (f : StoredFile) : Prop := f.type = 1 ∨ f.type = 2 ∨ f.type = 3

lemma FileInfo.typed_toStored (f : WireFile) : f.toStored.Typed := by
  unfold FileInfo.Typed FileInfo.toStored bepTypeToStorage
  simp only
  split <;> decide

lemma FileInfo.Typed.exists_toWire {f : StoredFile} (h : f.Typed) :
    ∃ w, f.toWire = .ok w ∧ w.name = f.name ∧ w.sequence = f.sequence := by
  unfold FileInfo.toWire storageTypeToBep
  rcases h with h | h | h <;> simp [h, Except.map]

end Conversions

end Bepository
