import Bepository.Storage.Parsers
import Bepository.Storage.Store

/-!
# A database as it lies on disk

Snapshots and the integrity check read databases whose content need not be in order: a key is bytes, and a
value is what `prost` makes of it.
-/

namespace Bepository

/-- `StorageError` as it is displayed. -/
def StorageError.display : StorageError → String
  | .transientIo msg => s!"transient I/O error: {msg}"
  | .corruption msg => s!"data corruption: {msg}"
  | .notFound msg => s!"not found: {msg}"
  | .standby msg => s!"standby: {msg}"
  | .invalidInput msg => s!"invalid input: {msg}"
  | .internal msg => s!"internal error: {msg}"

end Bepository

namespace Bepository.Storage

open Lib List

/-- `storage::FileInfo` with its modification time. -/
structure FileRecord where
  info : StoredFile
  modifiedS : ℤ
  modifiedNs : ℤ
  deriving DecidableEq

/-- What other crates compute: the decoders that `prost` generates, with the text of their errors, SHA-256,
and the text forms of bytes (`lossy` is `String::from_utf8_lossy`). -/
structure Externals where
  file : Bytes → Except String (Option FileRecord)
  inbox : Bytes → Except String (Option FileRecord)
  blockRef : Bytes → Except String BlockRef
  folderIndexMeta : Bytes → Except String FolderIndexMeta
  remoteIndexState : Bytes → Except String RemoteIndexState
  sha256 : Bytes → Bytes
  hex : Bytes → String
  lossy : Bytes → String
  debugBytes : Bytes → String
  debugRow : Bytes × Bytes → String

def keyLt (a b : Bytes) : Prop := a.map UInt8.toNat < b.map UInt8.toNat

instance : DecidableRel keyLt :=
  fun a b => inferInstanceAs (Decidable (a.map UInt8.toNat < b.map UInt8.toNat))

/-- The rows of a database, in the order of their keys. -/
structure RawDb where
  rows : List (Bytes × Bytes)
  sorted : rows.Pairwise fun a b => keyLt a.1 b.1

namespace RawDb

variable (db : RawDb)

def get (key : Bytes) : Option Bytes := db.rows.lookup key

def scanPrefix (start : Bytes) : List (Bytes × Bytes) := db.rows.filter fun r => start.isPrefixOf r.1

def readBlockData (seq : ℕ) : Option Bytes := db.get (Key.bd seq).encode

variable {db}

lemma get_eq_some_iff {key raw : Bytes} : db.get key = some raw ↔ (key, raw) ∈ db.rows := by
  obtain ⟨rows, hs⟩ := db
  show rows.lookup key = some raw ↔ (key, raw) ∈ rows
  induction rows with
  | nil => simp
  | cons r rows ih =>
    obtain ⟨hr, hrows⟩ := pairwise_cons.1 hs
    obtain ⟨k, v⟩ := r
    rw [lookup_cons, mem_cons, Prod.mk.injEq]
    by_cases hk : key = k
    · subst hk
      have hn : (key, raw) ∉ rows := fun hm => List.lt_irrefl _ (hr (key, raw) hm)
      simp [hn, eq_comm]
    · have hbeq : (key == k) = false := beq_eq_false_iff_ne.2 hk
      simp [hk, hbeq, ih hrows]

lemma mem_scanPrefix {start : Bytes} {r : Bytes × Bytes} :
    r ∈ db.scanPrefix start ↔ r ∈ db.rows ∧ start <+: r.1 := by
  unfold scanPrefix
  rw [mem_filter, isPrefixOf_iff_prefix]

end RawDb

/-- `resolve_block_data`, over any reader of the block data. -/
def resolveBlockDataFrom (read : ℕ → Option Bytes) (block : StoredBlock) : Except StorageError (Option Bytes) :=
  match block.inlineData with
  | some data => .ok (some data)
  | none =>
    match block.blockseq with
    | none => .ok none
    | some seq =>
      match validateBlockSeq seq with
      | .error e => .error e
      | .ok () => .ok (read seq)

end Bepository.Storage
