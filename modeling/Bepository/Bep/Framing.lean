import Bepository.Lib.Reader
import Bepository.Bep.Proto

/-!
# Frames (`bepository-bep/src/framing.rs`)

A message on the wire is a header and a body, each after its length.  `readMessage` is the future of
`read_message`: it is suspended at each of its four reads.  The decoders of the protobuf and LZ4
libraries are parameters.
-/

namespace Bepository

open Lib List

/-! ### Messages -/

/-- `BepError`, as far as the message loop is concerned: an I/O error of the connection, or one of the
others. -/
inductive LoopError where
  | network (msg : String)
  | bep (e : BepError)
  deriving DecidableEq

def badMessage (msg : String) : LoopError := .bep (.peerBadMessage msg)

structure Header where
  type : ℤ
  compression : ℤ
  deriving DecidableEq

/-- `RawMessage`: the body is already decompressed. -/
structure RawMessage where
  header : Header
  body : Bytes
  deriving DecidableEq

/-- `MessageType`. -/
inductive MessageType where
  | clusterConfig
  | index
  | indexUpdate
  | request
  | response
  | downloadProgress
  | ping
  | close
  deriving DecidableEq

/-- `MessageType::try_from`. -/
def MessageType.ofI32 : ℤ → Option MessageType
  | 0 => some .clusterConfig
  | 1 => some .index
  | 2 => some .indexUpdate
  | 3 => some .request
  | 4 => some .response
  | 5 => some .downloadProgress
  | 6 => some .ping
  | 7 => some .close
  | _ => none

/-- The decoders of the libraries, with the text of their errors: `Header::decode`, `Close::decode` (the
reason) and `lz4_flex::decompress` with the claimed size. -/
structure Codec where
  header : Bytes → Except String Header
  close : Bytes → Except String Str
  lz4 : Bytes → ℕ → Except String Bytes

def MAX_MESSAGE_SIZE : ℕ := 500 * 1024 * 1024

def beNat (b : Bytes) : ℕ := ofDigits 256 (b.map UInt8.toNat)

/-- A number in `w` bytes, most significant first. -/
def bigEndian (w v : ℕ) : Bytes := (digits 256 w v).map UInt8.ofNat

def decompressLz4 (codec : Codec) (data : Bytes) : Except LoopError Bytes :=
  if data.length < 4 then .error (badMessage "LZ4 data too short for length prefix")
  else
    let uncompressedSize := beNat (data.take 4)
    if MAX_MESSAGE_SIZE < uncompressedSize then
      .error (badMessage
        s!"claimed uncompressed size {uncompressedSize} exceeds maximum {MAX_MESSAGE_SIZE}")
    else match codec.lz4 (data.drop 4) uncompressedSize with
      | .error e => .error (badMessage e)
      | .ok decompressed =>
        if decompressed.length ≠ uncompressedSize then
          .error (badMessage
            s!"decompressed size {decompressed.length} does not match claimed {uncompressedSize}")
        else .ok decompressed

/-! ### Reading -/

abbrev Future (α : Type) := Reader UInt8 LoopError α

/-- `read_header_prefixed` and `read_body_prefixed`: as many bytes as a number of `w` bytes says. -/
def readPrefixed (w : ℕ) : Future Bytes :=
  .read w fun b =>
    if MAX_MESSAGE_SIZE < beNat b then
      .fail (badMessage s!"message too large: {beNat b} bytes (max {MAX_MESSAGE_SIZE})")
    else .read (beNat b) .done

def readHeaderPrefixed : Future Bytes := readPrefixed 2

def readBodyPrefixed : Future Bytes := readPrefixed 4

/-- `header.compression()` is `Lz4`: other numbers count as no compression. -/
def Header.isLz4 (h : Header) : Bool := h.compression = 1

def decodeBody (codec : Codec) (header : Header) (body : Bytes) : Except LoopError Bytes :=
  if header.isLz4 then decompressLz4 codec body else .ok body

def readMessage (codec : Codec) : Future RawMessage :=
  readHeaderPrefixed.bind fun headerBuf =>
    match codec.header headerBuf with
    | .error e => .fail (badMessage s!"protobuf decode error: {e}")
    | .ok header => readBodyPrefixed.bind fun bodyBuf =>
      match decodeBody codec header bodyBuf with
      | .error e => .fail e
      | .ok body => .done ⟨header, body⟩

/-! ### Well-formed frames -/

/-- A frame that a peer may send, with the message in it. -/
structure Frame (codec : Codec) where
  header : Bytes
  body : Bytes
  message : RawMessage
  header_lt : header.length < 2 ^ 16
  body_le : body.length ≤ MAX_MESSAGE_SIZE
  header_eq : codec.header header = .ok message.header
  body_eq : decodeBody codec message.header body = .ok message.body

def Frame.wire {codec : Codec} (f : Frame codec) : Bytes :=
  (bigEndian 2 f.header.length ++ f.header) ++ (bigEndian 4 f.body.length ++ f.body)

section Frames

variable {codec : Codec} {w v : ℕ} {data : Bytes}

lemma length_bigEndian : (bigEndian w v).length = w := by simp [bigEndian]

lemma beNat_bigEndian (hv : v < 256 ^ w) : beNat (bigEndian w v) = v := by
  rw [beNat, bigEndian, map_toNat_digits, ofDigits_digits hv]

lemma readPrefixed_reads (hw : data.length < 256 ^ w) (hmax : data.length ≤ MAX_MESSAGE_SIZE) :
    Reads (readPrefixed w) (bigEndian w data.length ++ data) data := by
  refine Reads.read length_bigEndian ?_
  rw [beNat_bigEndian hw, if_neg (Nat.not_lt_of_le hmax)]
  rw [← append_nil data]
  exact Reads.read (by rw [append_nil]) (by rw [append_nil]; exact reads_done)

/-- **A frame is read as its message**, to its last byte. -/
theorem readMessage_reads (f : Frame codec) : Reads (readMessage codec) f.wire f.message := by
  refine Reads.bind (readPrefixed_reads f.header_lt ?_) ?_
  · have hlt := f.header_lt
    unfold MAX_MESSAGE_SIZE
    omega
  · rw [f.header_eq]
    have hbody : f.body.length < 256 ^ 4 := by
      have hle := f.body_le
      unfold MAX_MESSAGE_SIZE at hle
      omega
    rw [← append_nil (bigEndian 4 f.body.length ++ f.body)]
    refine Reads.bind (readPrefixed_reads hbody f.body_le) ?_
    simp only [f.body_eq]
    exact reads_done

end Frames

end Bepository
