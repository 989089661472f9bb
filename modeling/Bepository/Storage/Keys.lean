import Bepository.Lib.Words
import Bepository.Bep.Proto

/-!
# Keys of a folder's database (`bepository-storage/src/store_keys.rs`)

A key is a two-byte tag and its components.  `Key` has one constructor for each tag and `encode`
writes the bytes; scans select keys by their bytes.
-/

namespace Bepository.Storage

open Lib

/-! ### Names -/

/-- A file name cut at its last slash: the base name holds none. -/
structure Path where
  dir : Str
  base : Str
  noSlash : '/' ∉ base
  deriving DecidableEq

/-- `split_name`: for a root-level file the directory is empty. -/
def splitName (name : Str) : Path :=
  match h : rsplitOnce '/' name with
  | some (dir, base) => ⟨dir, base, (rsplitOnce_eq_some h).2⟩
  | none => ⟨[], name, rsplitOnce_eq_none.1 h⟩

lemma splitName_of_notMem {c : Str} (hc : '/' ∉ c) : splitName c = ⟨[], c, hc⟩ := by
  unfold splitName
  split
  · next h =>
    rw [rsplitOnce_eq_none.2 hc] at h
    cases h
  · rfl

lemma splitName_append {path c : Str} (hc : '/' ∉ c) : splitName (path ++ '/' :: c) = ⟨path, c, hc⟩ := by
  unfold splitName
  split
  · next h =>
    rw [rsplitOnce_append hc] at h
    cases h
    rfl
  · next h =>
    rw [rsplitOnce_append hc] at h
    cases h

def dirname (name : Str) : Str := (splitName name).dir

def joinName (p : Path) : Str :=
  if p.dir = [] then p.base else p.dir ++ '/' :: p.base

/-- `validate_file_name` (`api.rs`). -/
def validateFileName (name : Str) : Except StorageError Unit :=
  if name = [] then .error (.invalidInput "empty file name")
  else if name.head? = some '/' then .error (.invalidInput "absolute file path rejected")
  else if '\x00' ∈ name then .error (.invalidInput "null byte in file name")
  else
    match (name.splitOn '/').find? fun component => component = [] || component = ['.', '.'] with
    | none => .ok ()
    | some component =>
      if component = [] then .error (.invalidInput "empty path component rejected")
      else .error (.invalidInput "path traversal rejected")

lemma joinName_splitName {name : Str} (h : validateFileName name = .ok ()) :
    joinName (splitName name) = name := by
  unfold splitName joinName
  split
  · next dir base hs =>
    obtain ⟨rfl, -⟩ := rsplitOnce_eq_some hs
    split_ifs with hd
    · -- the name would start with a slash
      simp only at hd
      subst hd
      simp [validateFileName] at h
    · rfl
  · rfl

lemma splitName_inj {name name' : Str} (h : validateFileName name = .ok ())
    (h' : validateFileName name' = .ok ()) (he : splitName name = splitName name') : name = name' := by
  rw [← joinName_splitName h, he, joinName_splitName h']

/-! ### Hashes and numbers -/

abbrev HASH_LEN : ℕ := 32

/-- `[u8; 32]`: a block hash or a device id. -/
abbrev Bytes32 := { b : Bytes // b.length = HASH_LEN }

/-- `hash.try_into()` for a slice of any length. -/
def toBytes32 (b : Bytes) : Option Bytes32 :=
  if h : b.length = HASH_LEN then some ⟨b, h⟩ else none

lemma toBytes32_eq_some {b : Bytes} {h : Bytes32} : toBytes32 b = some h ↔ h.1 = b := by
  unfold toBytes32
  split
  · next hl =>
    constructor
    · intro he
      cases he
      rfl
    · rintro rfl
      rfl
  · next hl =>
    constructor
    · intro he
      cases he
    · rintro rfl
      exact absurd h.2 hl

def INLINE_BLOCK_THRESHOLD : ℕ := 4096

/-- `is_inline_block`: negative sizes are never inline. -/
def isInlineBlock (size : ℤ) : Bool := 0 ≤ size && size < INLINE_BLOCK_THRESHOLD

def MIN_BLOCK_SEQ : ℕ := 1024

def validateBlockSeq (seq : ℕ) : Except StorageError Unit :=
  if seq < MIN_BLOCK_SEQ then
    .error (.corruption s!"invalid block sequence number: {seq} (must be >= {MIN_BLOCK_SEQ})")
  else .ok ()

/-- `u64::to_be_bytes`. -/
def beBytes (v : ℕ) : Bytes := (digits 256 8 v).map UInt8.ofNat

def utf8 (s : Str) : Bytes := s.flatMap String.utf8EncodeChar

/-! ### Keys -/

inductive Key where
  | bd (seq : ℕ)
  | mb (dir : Str) (hash : Bytes32)
  | mr (hash : Bytes32) (path : Path)
  | mn (path : Path)
  | ms (seq : ℕ)
  | mi (epoch : Epoch) (path : Path)
  | md (device : Bytes32)
  | mx
  deriving DecidableEq

def Key.tag : Key → Bytes
  | .bd _ => [98, 100]
  | .mb .. => [109, 98]
  | .mr .. => [109, 114]
  | .mn _ => [109, 110]
  | .ms _ => [109, 115]
  | .mi .. => [109, 105]
  | .md _ => [109, 100]
  | .mx => [109, 120]

/-- `<dir>//<basename>`. -/
def Path.encode (p : Path) : Bytes := utf8 p.dir ++ [47, 47] ++ utf8 p.base

def Key.body : Key → Bytes
  | .bd seq => beBytes seq
  | .mb dir hash => utf8 dir ++ [47] ++ hash.1
  | .mr hash path => hash.1 ++ [47] ++ path.encode
  | .mn path => path.encode
  | .ms seq => beBytes seq
  | .mi epoch path => utf8 epoch.asBase32 ++ [47] ++ path.encode
  | .md device => device.1
  | .mx => []

def Key.encode (k : Key) : Bytes := k.tag ++ k.body

def FILE_PREFIX : Bytes := [109, 110]
def INBOX_PREFIX : Bytes := [109, 105]

def fileKey (name : Str) : Key := .mn (splitName name)

def inboxKey (epoch : Epoch) (name : Str) : Key := .mi epoch (splitName name)

def blockReverseKey (hash : Bytes32) (name : Str) : Key := .mr hash (splitName name)

def seqKey (seq : ℤ) : Except StorageError Key :=
  if seq < 0 then .error (.internal s!"sequence numbers must be non-negative, got {seq}")
  else .ok (.ms seq.toNat)

/-- `i64::MAX`. -/
def i64Max : ℤ := 2 ^ 63 - 1

def seqScanStart (since : ℤ) : Except StorageError Key :=
  if since = i64Max then .error (.internal s!"sequence number overflow scanning past {since}")
  else seqKey (since + 1)

end Bepository.Storage
