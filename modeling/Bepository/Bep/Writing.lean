import Bepository.Lib.Result
import Bepository.Bep.Framing

/-!
# Frames written and read back (`bepository-bep/src/framing.rs`)

`write_message` and `send_hello` put lengths before what they write, up to what the prefix can hold;
`read_message` and `recv_hello` refuse more than their own limits.  `written_read_back` says which of
the accepted messages and names come back.  The encoders of the protobuf and LZ4 libraries are
parameters, inverse to the decoders.
-/

namespace Bepository

open Lib List

/-! ### Writing -/

/-- Why a message or a Hello was not written: an error, or a panic. -/
inductive WriteError where
  | bep (e : BepError)
  | panicked (msg : String)
  deriving DecidableEq

/-- The encoders of the libraries: `Header::encode_to_vec` and `lz4_flex::compress`. -/
structure Encoder where
  header : Header → Bytes
  lz4 : Bytes → Bytes

/-- A length in `w` bytes and the data. -/
def withLength (w : ℕ) (data : Bytes) : Bytes := bigEndian w data.length ++ data

/-- `write_header_prefixed` and `write_body_prefixed`; `msg` is the error for what the prefix cannot
hold. -/
def writePrefixed (w : ℕ) (msg : String) (data : Bytes) : Except WriteError Bytes :=
  if data.length < 256 ^ w then .ok (withLength w data) else .error (.bep (.internal msg))

def writeHeaderPrefixed : Bytes → Except WriteError Bytes :=
  writePrefixed 2 "header data too large for u16"

def writeBodyPrefixed : Bytes → Except WriteError Bytes :=
  writePrefixed 4 "body data too large for u32"

def compressLz4 (enc : Encoder) (data : Bytes) : Except WriteError Bytes :=
  if data.length < 2 ^ 32 then .ok (bigEndian 4 data.length ++ enc.lz4 data)
  else .error (.panicked "data too large for u32 prefix")

/-- What `write_message` is given. -/
structure Outgoing where
  header : Header
  body : Bytes
  compress : Bool

def Outgoing.headerToWrite (m : Outgoing) : Header :=
  if m.compress then { m.header with compression := 1 } else m.header

/-- `write_message`: the bytes it writes if it returns `Ok`. -/
def writeMessage (enc : Encoder) (m : Outgoing) : Except WriteError Bytes :=
  (writeHeaderPrefixed (enc.header m.headerToWrite)).bind fun header =>
    (if m.compress then (compressLz4 enc m.body).bind writeBodyPrefixed
      else writeBodyPrefixed m.body).map fun body => header ++ body

/-! ### Hello -/

structure Hello where
  deviceName : Str
  clientName : Str
  clientVersion : Str
  numConnections : ℤ
  timestamp : ℤ
  deriving DecidableEq

/-- `Hello::encode_to_vec` and `Hello::decode`. -/
structure HelloCodec where
  encode : Hello → Bytes
  decode : Bytes → Except String Hello

def HELLO_MAGIC : ℕ := 0x2EA7D90B

def MAX_HELLO_SIZE : ℕ := 32 * 1024

def CLIENT_NAME : Str := "bepository".toList

def CLIENT_VERSION : Str := "0.8.5".toList

/-- The Hello that `send_hello` builds at `timestamp`. -/
def ourHello (timestamp : ℕ) (deviceName : Str) : Hello :=
  ⟨deviceName, CLIENT_NAME, CLIENT_VERSION, 1, timestamp⟩

/-- `send_hello`.  `now` is the system time in seconds since the epoch; `none` is a clock before it. -/
def sendHello (hc : HelloCodec) (now : Option ℕ) (deviceName : Str) : Except WriteError Bytes :=
  match now with
  | none => .error (.bep (.internal
      "failed to get system time: second time provided was later than self"))
  | some timestamp =>
    if timestamp < 2 ^ 63 then
      let encoded := hc.encode (ourHello timestamp deviceName)
      if encoded.length < 2 ^ 16 then .ok (bigEndian 4 HELLO_MAGIC ++ withLength 2 encoded)
      else .error (.panicked "hello message too large")
    else .error (.bep (.internal
      "timestamp exceeds i64::MAX: out of range integral type conversion attempted"))

/-- The errors of `recv_hello` but for those of the connection. -/
inductive HelloError where
  | peerBadHello (msg : String)
  | peerBadMessage (msg : String)
  deriving DecidableEq

/-- `{:08X}`. -/
def hex8 (n : ℕ) : String :=
  String.ofList ((digits 16 8 n).map fun d =>
    ['0', '1', '2', '3', '4', '5', '6', '7', '8', '9', 'A', 'B', 'C', 'D', 'E', 'F'].getD d '0')

/-- The checks of `recv_hello` on what it has decoded. -/
def checkHello (hello : Hello) : Except HelloError Hello :=
  if hello.clientName = [] then .error (.peerBadHello "peer sent empty client_name")
  else if hello.deviceName = [] then .error (.peerBadHello "peer sent empty device_name")
  else .ok hello

/-- `recv_hello` on the bytes of the Hello. -/
def decodeHello (hc : HelloCodec) (buf : Bytes) : Except HelloError Hello :=
  match hc.decode buf with
  | .error e => .error (.peerBadMessage s!"protobuf decode error: {e}")
  | .ok hello => checkHello hello

def recvHello (hc : HelloCodec) : Reader UInt8 HelloError Hello :=
  .read 4 fun magic =>
    if beNat magic ≠ HELLO_MAGIC then
      .fail (.peerBadHello s!"expected magic 0x{hex8 HELLO_MAGIC}, got 0x{hex8 (beNat magic)}")
    else .read 2 fun len =>
      if MAX_HELLO_SIZE < beNat len then
        .fail (.peerBadHello s!"hello message too large: {beNat len} bytes")
      else .read (beNat len) fun buf =>
        match decodeHello hc buf with
        | .error e => .fail e
        | .ok hello => .done hello

/-! ### What the libraries are taken to do -/

/-- The fields are `i32`. -/
def Header.Fits (h : Header) : Prop :=
  (-2 ^ 31 ≤ h.type ∧ h.type < 2 ^ 31) ∧ -2 ^ 31 ≤ h.compression ∧ h.compression < 2 ^ 31

/-- The numbers are `i32` and `i64`. -/
def Hello.Fits (h : Hello) : Prop :=
  (-2 ^ 31 ≤ h.numConnections ∧ h.numConnections < 2 ^ 31) ∧ -2 ^ 63 ≤ h.timestamp ∧ h.timestamp < 2 ^ 63

structure Inverse (codec : Codec) (enc : Encoder) (hc : HelloCodec) : Prop where
  header : ∀ h : Header, h.Fits → codec.header (enc.header h) = .ok h
  lz4 : ∀ data, codec.lz4 (enc.lz4 data) data.length = .ok data
  hello : ∀ h : Hello, h.Fits → hc.decode (hc.encode h) = .ok h

/-! ### One message -/

/-- What `write_message` puts after the second length. -/
def Outgoing.payload (enc : Encoder) (m : Outgoing) : Bytes :=
  if m.compress then bigEndian 4 m.body.length ++ enc.lz4 m.body else m.body

/-- The limits of the reader: on what follows the second length, and on the size it is told to decompress
to. -/
def Outgoing.Readable (enc : Encoder) (m : Outgoing) : Prop :=
  (m.payload enc).length ≤ MAX_MESSAGE_SIZE ∧ (m.compress = true → m.body.length ≤ MAX_MESSAGE_SIZE)

/-- The header of the message is one that a caller passes: it asks for no compression. -/
def Outgoing.Plain (m : Outgoing) : Prop := m.header.Fits ∧ m.header.compression = 0

section Message

variable {codec : Codec} {enc : Encoder} {hc : HelloCodec} {m : Outgoing} {w data more : Bytes}

lemma writePrefixed_eq_ok {n : ℕ} {msg : String} :
    writePrefixed n msg data = .ok w ↔ data.length < 256 ^ n ∧ w = withLength n data := by
  unfold writePrefixed
  split_ifs with hlt
  · simp [hlt, eq_comm]
  · simp [hlt]

lemma writeMessage_eq_ok :
    writeMessage enc m = .ok w ↔ (enc.header m.headerToWrite).length < 256 ^ 2 ∧ (m.payload enc).length < 256 ^ 4 ∧
      (m.compress = true → m.body.length < 2 ^ 32) ∧
      w = withLength 2 (enc.header m.headerToWrite) ++ withLength 4 (m.payload enc) := by
  have hbody : ∀ b, (if m.compress then (compressLz4 enc m.body).bind writeBodyPrefixed
      else writeBodyPrefixed m.body) = .ok b ↔
      (m.payload enc).length < 256 ^ 4 ∧ (m.compress = true → m.body.length < 2 ^ 32) ∧
        b = withLength 4 (m.payload enc) := by
    intro b
    unfold Outgoing.payload compressLz4
    split_ifs with hc hlt
    · simp only [Except.bind, writeBodyPrefixed, writePrefixed_eq_ok]
      exact ⟨fun h => ⟨h.1, fun _ => hlt, h.2⟩, fun h => ⟨h.1, h.2.2⟩⟩
    · simp only [Except.bind, reduceCtorEq, false_iff]
      exact fun h => hlt (h.2.1 hc)
    · simp only [writeBodyPrefixed, writePrefixed_eq_ok]
      exact ⟨fun h => ⟨h.1, fun h' => absurd h' hc, h.2⟩, fun h => ⟨h.1, h.2.2⟩⟩
  simp only [writeMessage, bind_eq_ok, map_eq_ok, hbody, writeHeaderPrefixed, writePrefixed_eq_ok]
  constructor
  · rintro ⟨_, ⟨hh, rfl⟩, _, ⟨hp, hc, rfl⟩, rfl⟩
    exact ⟨hh, hp, hc, rfl⟩
  · rintro ⟨hh, hp, hc, rfl⟩
    exact ⟨_, ⟨hh, rfl⟩, _, ⟨hp, hc, rfl⟩, rfl⟩

lemma Outgoing.headerToWrite_fits (h : m.Plain) : m.headerToWrite.Fits := by
  unfold Outgoing.headerToWrite
  split_ifs
  · exact ⟨h.1.1, by norm_num⟩
  · exact h.1

lemma Outgoing.headerToWrite_isLz4 (h : m.Plain) : m.headerToWrite.isLz4 = m.compress := by
  unfold Outgoing.headerToWrite Header.isLz4
  cases hc : m.compress with
  | true => simp
  | false => simp [h.2]

lemma decodeBody_payload (hi : Inverse codec enc hc) (hp : m.Plain) (hlt : m.compress = true → m.body.length < 2 ^ 32) :
    decodeBody codec m.headerToWrite (m.payload enc) =
      if m.compress = true ∧ MAX_MESSAGE_SIZE < m.body.length then
        .error (badMessage s!"claimed uncompressed size {m.body.length} exceeds maximum {MAX_MESSAGE_SIZE}")
      else .ok m.body := by
  unfold decodeBody Outgoing.payload
  rw [Outgoing.headerToWrite_isLz4 hp]
  cases hcomp : m.compress with
  | false => simp
  | true =>
    have hsize : beNat ((bigEndian 4 m.body.length ++ enc.lz4 m.body).take 4) = m.body.length := by
      rw [take_left' length_bigEndian, beNat_bigEndian (by simpa using hlt hcomp)]
    have hrest : (bigEndian 4 m.body.length ++ enc.lz4 m.body).drop 4 = enc.lz4 m.body :=
      drop_left' length_bigEndian
    have hlen : ¬ (bigEndian 4 m.body.length ++ enc.lz4 m.body).length < 4 := by
      rw [length_append, length_bigEndian]
      omega
    simp only [if_true, true_and, decompressLz4, if_neg hlen, hsize, hrest, hi.lz4]
    split_ifs with hmax h'
    · rfl
    · exact absurd rfl h'
    · rfl

lemma writeMessage_reads (hi : Inverse codec enc hc) (hp : m.Plain) (hw : writeMessage enc m = .ok w)
    (hr : m.Readable enc) : Reads (readMessage codec) w ⟨m.headerToWrite, m.body⟩ := by
  obtain ⟨hlt, -, hbody, rfl⟩ := writeMessage_eq_ok.1 hw
  refine readMessage_reads ⟨enc.header m.headerToWrite, m.payload enc, ⟨m.headerToWrite, m.body⟩,
    hlt, hr.1, hi.header _ (Outgoing.headerToWrite_fits hp), ?_⟩
  rw [decodeBody_payload hi hp hbody, if_neg]
  exact fun h => absurd h.2 (Nat.not_lt_of_le (hr.2 h.1))

lemma readPrefixed_fails {n : ℕ} (hw : data.length < 256 ^ n) (hmax : MAX_MESSAGE_SIZE < data.length) (more : Bytes) :
    ∃ e left, (readPrefixed n).poll [] (withLength n data ++ more) = .failed e left := by
  have hlen : ¬ ([] ++ (withLength n data ++ more)).length < n := by
    simp only [withLength, nil_append, length_append, length_bigEndian]
    omega
  have htake : ([] ++ (withLength n data ++ more)).take n = bigEndian n data.length := by
    rw [nil_append, withLength, append_assoc, take_left' length_bigEndian]
  rw [readPrefixed, Reader.poll, if_neg hlen, htake, beNat_bigEndian hw, if_pos hmax]
  exact ⟨_, _, rfl⟩

lemma writeMessage_fails (hi : Inverse codec enc hc) (hp : m.Plain) (hw : writeMessage enc m = .ok w)
    (hr : ¬ m.Readable enc) (more : Bytes) :
    ∃ e left, (readMessage codec).poll [] (w ++ more) = .failed e left := by
  obtain ⟨hlt, hplt, hbody, rfl⟩ := writeMessage_eq_ok.1 hw
  have hheader : (readHeaderPrefixed).poll [] (withLength 2 (enc.header m.headerToWrite) ++
      (withLength 4 (m.payload enc) ++ more)) =
      .ready (enc.header m.headerToWrite) (withLength 4 (m.payload enc) ++ more) := by
    refine Reads.poll_append (readPrefixed_reads hlt ?_)
    unfold MAX_MESSAGE_SIZE
    omega
  rw [append_assoc, readMessage, poll_bind, hheader, Polled.andThen,
    hi.header _ (Outgoing.headerToWrite_fits hp), poll_bind]
  by_cases hpay : (m.payload enc).length ≤ MAX_MESSAGE_SIZE
  · have hread : readBodyPrefixed.poll [] (withLength 4 (m.payload enc) ++ more) =
        .ready (m.payload enc) more := Reads.poll_append (readPrefixed_reads hplt hpay)
    have hbig : m.compress = true ∧ MAX_MESSAGE_SIZE < m.body.length := by
      by_contra hno
      exact hr ⟨hpay, fun hc => Nat.le_of_not_lt fun hlt => hno ⟨hc, hlt⟩⟩
    rw [hread, Polled.andThen, decodeBody_payload hi hp hbody, if_pos hbig]
    exact ⟨_, _, rfl⟩
  · obtain ⟨e, left, hfail⟩ := readPrefixed_fails hplt (Nat.lt_of_not_le hpay) more
    exact ⟨e, left, by rw [readBodyPrefixed, hfail, Polled.andThen]⟩

end Message

/-! ### The stream -/

/-- As many calls of `read_message`, one after the other. -/
def readMessages (codec : Codec) : ℕ → Future (List RawMessage)
  | 0 => .done []
  | n + 1 => (readMessage codec).bind fun m => (readMessages codec n).bind fun ms => .done (m :: ms)

def Outgoing.content (m : Outgoing) : ℤ × Bytes := (m.header.type, m.body)

def RawMessage.content (m : RawMessage) : ℤ × Bytes := (m.header.type, m.body)

section Stream

variable {codec : Codec} {enc : Encoder} {hc : HelloCodec} {ms : List Outgoing} {ws : List Bytes}

lemma Outgoing.content_read (m : Outgoing) : (⟨m.headerToWrite, m.body⟩ : RawMessage).content = m.content := by
  unfold Outgoing.headerToWrite RawMessage.content Outgoing.content
  split_ifs <;> rfl

section

variable (hi : Inverse codec enc hc) (hp : ∀ m ∈ ms, m.Plain) (hw : ms.mapM (writeMessage enc) = .ok ws)
include hi hp hw

lemma writeMessages_reads (hr : ∀ m ∈ ms, m.Readable enc) :
    Reads (readMessages codec ms.length) ws.flatten (ms.map fun m => ⟨m.headerToWrite, m.body⟩) := by
  replace hw := mapM_eq_ok.1 hw
  induction hw with
  | nil => exact reads_done
  | @cons m w ms ws hm _ ih =>
    have hfirst := writeMessage_reads hi (hp m mem_cons_self) hm (hr m mem_cons_self)
    have hrest := ih (fun m' h => hp m' (mem_cons_of_mem m h)) fun m' h => hr m' (mem_cons_of_mem m h)
    rw [flatten_cons]
    refine Reads.bind hfirst ?_
    rw [← append_nil ws.flatten]
    exact Reads.bind hrest reads_done

lemma writeMessages_fails (hr : ¬ ∀ m ∈ ms, m.Readable enc) :
    ∃ e left, (readMessages codec ms.length).poll [] ws.flatten = .failed e left := by
  replace hw := mapM_eq_ok.1 hw
  induction hw with
  | nil => exact absurd (by simp) hr
  | @cons m w ms ws hm _ ih =>
    rw [flatten_cons, length_cons, readMessages, poll_bind]
    by_cases hread : m.Readable enc
    · have hrest : ¬ ∀ m' ∈ ms, m'.Readable enc := by
        intro hall
        refine hr fun m' hm' => ?_
        rcases mem_cons.1 hm' with rfl | hmem
        · exact hread
        · exact hall m' hmem
      obtain ⟨e, left, hfail⟩ := ih (fun m' h => hp m' (mem_cons_of_mem m h)) hrest
      refine ⟨e, left, ?_⟩
      rw [(writeMessage_reads hi (hp m mem_cons_self) hm hread).poll_append, Polled.andThen, poll_bind,
        hfail, Polled.andThen]
    · obtain ⟨e, left, hfail⟩ := writeMessage_fails hi (hp m mem_cons_self) hm hread ws.flatten
      exact ⟨e, left, by rw [hfail, Polled.andThen]⟩

lemma writeMessages_reads_iff : (∃ raws, Reads (readMessages codec ms.length) ws.flatten raws ∧
      raws.map RawMessage.content = ms.map Outgoing.content) ↔ ∀ m ∈ ms, m.Readable enc := by
  constructor
  · rintro ⟨raws, hreads, -⟩
    by_contra hr
    obtain ⟨e, left, hfail⟩ := writeMessages_fails hi hp hw hr
    rw [Reads, hfail] at hreads
    cases hreads
  · intro hr
    refine ⟨_, writeMessages_reads hi hp hw hr, ?_⟩
    rw [map_map]
    exact map_congr_left fun m _ => m.content_read

end

/-! ### Hello -/

lemma sendHello_eq_ok {now : Option ℕ} {name : Str} {w : Bytes} (h : sendHello hc now name = .ok w) :
    ∃ timestamp, now = some timestamp ∧ (ourHello timestamp name).Fits ∧
      (hc.encode (ourHello timestamp name)).length < 256 ^ 2 ∧
      w = bigEndian 4 HELLO_MAGIC ++ withLength 2 (hc.encode (ourHello timestamp name)) := by
  unfold sendHello at h
  split at h
  · cases h
  · next timestamp =>
    simp only at h
    split_ifs at h with ht hlen
    cases h
    refine ⟨timestamp, rfl, ⟨?_, ?_⟩, hlen, rfl⟩
    · simp [ourHello]
    · simp only [ourHello]
      omega

lemma sendHello_recvHello_iff (hi : Inverse codec enc hc) {timestamp : ℕ} {name : Str} {w : Bytes}
    (h : sendHello hc (some timestamp) name = .ok w) :
    (∃ hello, Reads (recvHello hc) w hello ∧ hello.deviceName = name) ↔
      name ≠ [] ∧ (hc.encode (ourHello timestamp name)).length ≤ MAX_HELLO_SIZE := by
  obtain ⟨ts, hts, hfits, hlen, rfl⟩ := sendHello_eq_ok h
  cases hts
  have hmagic : beNat (bigEndian 4 HELLO_MAGIC) = HELLO_MAGIC := beNat_bigEndian (by decide)
  generalize hdata : hc.encode (ourHello timestamp name) = data at hlen ⊢
  have hdec : decodeHello hc data = if name = [] then .error (.peerBadHello "peer sent empty device_name")
      else .ok (ourHello timestamp name) := by
    rw [← hdata, decodeHello, hi.hello _ hfits]
    rfl
  have hpoll : (recvHello hc).poll [] (bigEndian 4 HELLO_MAGIC ++ withLength 2 data) =
      if MAX_HELLO_SIZE < data.length then
        .failed (.peerBadHello s!"hello message too large: {data.length} bytes") data
      else if name = [] then .failed (.peerBadHello "peer sent empty device_name") []
      else .ready (ourHello timestamp name) [] := by
    have hn : ¬ ([] ++ (bigEndian 4 HELLO_MAGIC ++ withLength 2 data)).length < 4 := by
      simp [length_bigEndian]
    have hn' : ¬ ([] ++ withLength 2 data).length < 2 := by
      simp only [withLength, nil_append, length_append, length_bigEndian]
      omega
    rw [recvHello, Reader.poll, if_neg hn, nil_append, take_left' length_bigEndian,
      drop_left' length_bigEndian, hmagic, if_neg (by simp), Reader.poll, if_neg hn', nil_append,
      withLength, take_left' length_bigEndian, drop_left' length_bigEndian, beNat_bigEndian hlen]
    split_ifs with hmax hname
    · rfl
    · rw [Reader.poll, if_neg (by simp), nil_append, take_length, drop_length, hdec, if_pos hname]
      rfl
    · rw [Reader.poll, if_neg (by simp), nil_append, take_length, drop_length, hdec, if_neg hname]
      rfl
  unfold Reads
  rw [hpoll]
  split_ifs with hmax hname
  · simp [hmax]
  · simp [hname]
  · simp only [Polled.ready.injEq, and_true, ne_eq, hname, not_false_eq_true, true_and]
    exact iff_of_true ⟨_, rfl, rfl⟩ (Nat.le_of_not_lt hmax)

end Stream

/-- **What is read back of what was written.**  A list of accepted messages comes back, with every byte
consumed, exactly if each of them is within the reader's limits, and an accepted Hello exactly if its
device name is not empty and its encoding is within the limit of `recv_hello`. -/
theorem written_read_back (codec : Codec) (enc : Encoder) (hc : HelloCodec) (hi : Inverse codec enc hc) :
    (∀ (ms : List Outgoing) (ws : List Bytes), (∀ m ∈ ms, m.Plain) → ms.mapM (writeMessage enc) = .ok ws →
      ((∃ raws, Reads (readMessages codec ms.length) ws.flatten raws ∧
        raws.map RawMessage.content = ms.map Outgoing.content) ↔ ∀ m ∈ ms, m.Readable enc)) ∧
    ∀ (timestamp : ℕ) (name : Str) (w : Bytes), sendHello hc (some timestamp) name = .ok w →
      ((∃ hello, Reads (recvHello hc) w hello ∧ hello.deviceName = name) ↔
        name ≠ [] ∧ (hc.encode (ourHello timestamp name)).length ≤ MAX_HELLO_SIZE) :=
  ⟨fun _ _ hp hw => writeMessages_reads_iff hi hp hw, fun _ _ _ h => sendHello_recvHello_iff hi h⟩

/-! ### Messages and names that do not come back -/

/-- A number of `w` bytes, moved up by half their range, and back. -/
def sampleInt (w : ℕ) (z : ℤ) : Bytes := bigEndian w (z + (256 ^ w / 2 : ℕ)).toNat

def readSampleInt (b : Bytes) : ℤ := beNat b - (256 ^ b.length / 2 : ℕ)

/-- A text, each character in three bytes after a 1, with a 0 at the end. -/
def sampleText : Str → Bytes
  | [] => [0]
  | c :: s => 1 :: (bigEndian 3 c.toNat ++ sampleText s)

def readSampleText : Bytes → Str × Bytes
  | b :: x :: y :: z :: rest =>
    if b = 1 then
      let (s, left) := readSampleText rest
      (Char.ofNat (beNat [x, y, z]) :: s, left)
    else ([], x :: y :: z :: rest)
  | _ :: rest => ([], rest)
  | [] => ([], [])

/-- A codec of headers with fields of four bytes, which leaves bodies as they are. -/
def sampleCodec : Codec where
  header b := .ok ⟨readSampleInt (b.take 4), readSampleInt (b.drop 4)⟩
  close _ := .ok []
  lz4 b _ := .ok b

def sampleEncoder : Encoder where
  header h := sampleInt 4 h.type ++ sampleInt 4 h.compression
  lz4 b := b

def sampleHello : HelloCodec where
  encode h := sampleInt 4 h.numConnections ++ (sampleInt 8 h.timestamp ++
    (sampleText h.deviceName ++ (sampleText h.clientName ++ sampleText h.clientVersion)))
  decode b :=
    let (deviceName, b') := readSampleText (b.drop 12)
    let (clientName, b'') := readSampleText b'
    .ok ⟨deviceName, clientName, (readSampleText b'').1, readSampleInt (b.take 4),
      readSampleInt ((b.drop 4).take 8)⟩

lemma length_sampleInt {w : ℕ} {z : ℤ} : (sampleInt w z).length = w := length_bigEndian

lemma readSampleInt_sampleInt {w : ℕ} {z : ℤ} (h : -256 ^ w ≤ 2 * z ∧ 2 * z < 256 ^ w) :
    readSampleInt (sampleInt w z) = z := by
  have hcast : ((256 ^ w : ℕ) : ℤ) = 256 ^ w := by push_cast; rfl
  rw [← hcast] at h
  rw [readSampleInt, length_sampleInt, sampleInt, beNat_bigEndian (by omega), Int.toNat_of_nonneg (by omega)]
  omega

lemma readSampleText_sampleText (s : Str) (more : Bytes) :
    readSampleText (sampleText s ++ more) = (s, more) := by
  induction s with
  | nil =>
    rcases more with _ | ⟨x, _ | ⟨y, _ | ⟨z, more⟩⟩⟩ <;> simp [sampleText, readSampleText]
  | cons c s ih =>
    have hbytes : beNat (bigEndian 3 c.toNat) = c.toNat :=
      beNat_bigEndian ((char_toNat_lt c).trans (by decide))
    obtain ⟨x, y, z, hxyz⟩ : ∃ x y z, bigEndian 3 c.toNat = [x, y, z] := length_eq_three.1 length_bigEndian
    rw [hxyz] at hbytes
    simp [sampleText, readSampleText, hxyz, hbytes, ih]

lemma sample_inverse : Inverse sampleCodec sampleEncoder sampleHello := by
  refine ⟨fun h hf => ?_, fun data => rfl, fun h hf => ?_⟩
  · obtain ⟨ht, hcomp⟩ := hf
    have hread : ∀ z : ℤ, -2 ^ 31 ≤ z ∧ z < 2 ^ 31 → readSampleInt (sampleInt 4 z) = z :=
      fun z hz => readSampleInt_sampleInt (by omega)
    simp only [sampleCodec, sampleEncoder, take_left' length_sampleInt, drop_left' length_sampleInt,
      hread _ ht, hread _ hcomp]
  · obtain ⟨hn, ht⟩ := hf
    have hn' : readSampleInt (sampleInt 4 h.numConnections) = h.numConnections :=
      readSampleInt_sampleInt (by omega)
    have ht' : readSampleInt (sampleInt 8 h.timestamp) = h.timestamp := readSampleInt_sampleInt (by omega)
    have hlast : readSampleText (sampleText h.clientVersion) = (h.clientVersion, []) := by
      simpa using readSampleText_sampleText h.clientVersion []
    have hskip : ∀ rest, (sampleInt 4 h.numConnections ++ (sampleInt 8 h.timestamp ++ rest)).drop 12 = rest := by
      intro rest
      rw [← append_assoc]
      exact drop_left' (by rw [length_append, length_sampleInt, length_sampleInt])
    simp only [sampleHello, hskip, take_left' length_sampleInt, drop_left' length_sampleInt, hn', ht',
      readSampleText_sampleText, hlast]

lemma length_sampleText (s : Str) : (sampleText s).length = 4 * s.length + 1 := by
  induction s with
  | nil => rfl
  | cons c s ih =>
    simp only [sampleText, length_cons, length_append, length_bigEndian, ih]
    omega

lemma length_sampleHello (name : Str) : (sampleHello.encode (ourHello 0 name)).length = 4 * name.length + 75 := by
  simp only [sampleHello, ourHello, length_append, length_sampleInt, length_sampleText]
  have hname : CLIENT_NAME.length = 10 := rfl
  have hversion : CLIENT_VERSION.length = 5 := rfl
  omega

def oversized : Outgoing := ⟨⟨6, 0⟩, List.replicate (MAX_MESSAGE_SIZE + 1) 0, false⟩

/-- `write_message` takes a body that `read_message` refuses; `send_hello` takes the empty name, and a
name of 9000 characters, and `recv_hello` refuses both. -/
theorem written_not_read_back :
    Inverse sampleCodec sampleEncoder sampleHello ∧
    (oversized.Plain ∧ ∃ ws, [oversized].mapM (writeMessage sampleEncoder) = .ok ws ∧
      ¬ ∃ raws, Reads (readMessages sampleCodec 1) ws.flatten raws ∧
        raws.map RawMessage.content = [oversized].map Outgoing.content) ∧
    (∃ w, sendHello sampleHello (some 0) [] = .ok w ∧
      ¬ ∃ hello, Reads (recvHello sampleHello) w hello ∧ hello.deviceName = []) ∧
    ∃ w, sendHello sampleHello (some 0) (List.replicate 9000 'a') = .ok w ∧
      ¬ ∃ hello, Reads (recvHello sampleHello) w hello ∧ hello.deviceName = List.replicate 9000 'a' := by
  have hlen : (oversized.payload sampleEncoder).length = MAX_MESSAGE_SIZE + 1 := by
    rw [Outgoing.payload, oversized, if_neg (by simp), length_replicate]
  have hplain : oversized.Plain := ⟨by simp [Header.Fits, oversized], rfl⟩
  have hhello : ∀ name : Str, name.length ≤ 9000 →
      sendHello sampleHello (some 0) name = .ok (bigEndian 4 HELLO_MAGIC ++
        withLength 2 (sampleHello.encode (ourHello 0 name))) := by
    intro name hname
    have hlt : (sampleHello.encode (ourHello 0 name)).length < 2 ^ 16 := by
      rw [length_sampleHello]
      omega
    simp only [sendHello]
    rw [if_pos (by decide), if_pos hlt]
  have hlong : (List.replicate 9000 'a').length ≤ 9000 := length_replicate.le
  refine ⟨sample_inverse, ⟨hplain, ?_⟩, ⟨_, hhello [] (by simp), ?_⟩, ⟨_, hhello _ hlong, ?_⟩⟩
  · have hw : writeMessage sampleEncoder oversized = .ok _ := writeMessage_eq_ok.2
      ⟨by simp [sampleEncoder, length_sampleInt], by rw [hlen]; decide, (by rintro ⟨⟩), rfl⟩
    have hws := mapM_eq_ok.2 (.cons hw .nil)
    refine ⟨_, hws, fun h => ?_⟩
    have hr := (writeMessages_reads_iff sample_inverse (by simpa using hplain) hws).1 h oversized (by simp)
    have hmax := hr.1
    rw [hlen] at hmax
    omega
  · intro h
    exact ((sendHello_recvHello_iff sample_inverse (hhello [] (by simp))).1 h).1 rfl
  · intro h
    have hmax := ((sendHello_recvHello_iff sample_inverse (hhello _ hlong)).1 h).2
    rw [length_sampleHello, length_replicate] at hmax
    exact absurd hmax (by decide)

/-- A ping, an index in plain and one compressed, and the name of a device. -/
theorem written_read_back_sample :
    (∃ ws raws, [⟨⟨6, 0⟩, [], false⟩, ⟨⟨1, 0⟩, [1, 2, 3], false⟩, ⟨⟨1, 0⟩, [4, 5], true⟩].mapM
        (writeMessage sampleEncoder) = .ok ws ∧
      Reads (readMessages sampleCodec 3) ws.flatten raws ∧
      raws.map RawMessage.content = [(6, []), (1, [1, 2, 3]), (1, [4, 5])]) ∧
    ∃ w hello, sendHello sampleHello (some 0) ['n', 'a', 's'] = .ok w ∧
      Reads (recvHello sampleHello) w hello ∧ hello.deviceName = ['n', 'a', 's'] := by
  obtain ⟨hmessages, hhello⟩ := written_read_back sampleCodec sampleEncoder sampleHello sample_inverse
  obtain ⟨raws, hreads, hcontent⟩ := (hmessages
    [⟨⟨6, 0⟩, [], false⟩, ⟨⟨1, 0⟩, [1, 2, 3], false⟩, ⟨⟨1, 0⟩, [4, 5], true⟩] _
    (by simp [Outgoing.Plain, Header.Fits]) rfl).2 (by
      simp [Outgoing.Readable, Outgoing.payload, MAX_MESSAGE_SIZE, sampleEncoder, length_bigEndian])
  obtain ⟨hello, hr, hname⟩ := (hhello 0 ['n', 'a', 's'] _ rfl).2 ⟨by simp, by
    rw [length_sampleHello]
    decide⟩
  exact ⟨⟨_, raws, rfl, hreads, hcontent⟩, _, hello, rfl, hr, hname⟩

end Bepository
