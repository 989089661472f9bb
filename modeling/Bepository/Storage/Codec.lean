import Bepository.Storage.Delta
import Bepository.Storage.FsckReport
import Bepository.Storage.Quiescent

/-!
# The key layout as a code

A name may hold any text and a hash any bytes, the separators included.  Every key is nevertheless read
back as it was built, and the compaction's parsers, asked one after the other, never take a key of
another kind: the tag decides first, a hash is found by its length, and a base name holds no slash, so
the last `//` of a path is the one that was written.
-/

namespace Bepository.Storage

open Lib List

/-! ### What a key is built from -/

/-- The arguments of the functions that build keys. -/
inductive KeyParts where
  | blockData (seq : ℕ)
  | blockPointer (dir : Str) (hash : Bytes32)
  | blockReverse (hash : Bytes32) (name : Str)
  | file (name : Str)
  | sequence (seq : ℤ)
  | inbox (epoch : Epoch) (name : Str)
  | device (d : Bytes32)
  | indexMeta
  deriving DecidableEq

/-- `file_key`, `seq_key`, `block_pointer_key`, `block_data_seq_key`, `block_reverse_key`, `inbox_key`,
`device_key` and `IX_KEY`. -/
def KeyParts.build : KeyParts → Except StorageError Key
  | .blockData seq => .ok (.bd seq)
  | .blockPointer dir hash => .ok (.mb dir hash)
  | .blockReverse hash name => .ok (blockReverseKey hash name)
  | .file name => .ok (fileKey name)
  | .sequence seq => seqKey seq
  | .inbox epoch name => .ok (inboxKey epoch name)
  | .device d => .ok (.md d)
  | .indexMeta => .ok .mx

def KeyParts.Valid : KeyParts → Prop
  | .blockData seq => MIN_BLOCK_SEQ ≤ seq ∧ seq < 2 ^ 64
  | .blockReverse _ name => validateFileName name = .ok ()
  | .file name => validateFileName name = .ok ()
  | .sequence seq => 0 ≤ seq ∧ seq ≤ i64Max
  | .inbox _ name => validateFileName name = .ok ()
  | .blockPointer .. | .device _ | .indexMeta => True

def KeyParts.ReadFrom (key : Bytes) : KeyParts → Prop
  | .blockData seq => parseBlockDataSeqKey key = some seq
  | .blockPointer dir hash => parseBlockPointerKey key = some hash ∧ blockKeyDir key = some dir
  | .blockReverse hash name => parseBlockReverseKey key = some (hash, name)
  | .file name => parseFileKey key = some name
  | .sequence seq => parseSeqKey key = some seq.toNat
  | .inbox epoch name => parseInboxKey key = some (epoch, name)
  | .device _ | .indexMeta => True

def KeyParts.cls : KeyParts → KeyClass
  | .blockData seq => .blockData seq
  | .blockPointer _ hash => .blockPointer hash
  | .blockReverse hash name => .blockReverse hash name
  | .file name => .file name
  | .sequence seq => .sequence seq.toNat
  | .inbox epoch name => .inbox epoch name
  | .device _ | .indexMeta => .other

/-! ### Scans and filters over the reverse references -/

def blockReversePrefix (hash : Bytes32) : Bytes := BLOCK_REV_PREFIX ++ hash.1 ++ [47]

def BR_FILTER_PREFIX_LEN : ℕ := BLOCK_REV_PREFIX.length + HASH_LEN

/-- `PrefixTarget`: a key, or the start of the keys of a scan. -/
inductive PrefixTarget where
  | point (bytes : Bytes)
  | scan (bytes : Bytes)

def PrefixTarget.bytes : PrefixTarget → Bytes
  | .point b => b
  | .scan b => b

/-- `BrPrefixExtractor::prefix_len`. -/
def brPrefixLen (target : PrefixTarget) : Option ℕ :=
  if BR_FILTER_PREFIX_LEN ≤ target.bytes.length && BLOCK_REV_PREFIX.isPrefixOf target.bytes then
    some BR_FILTER_PREFIX_LEN
  else none

section Codec

variable {parts parts' : KeyParts} {k k' : Key}

lemma KeyParts.Valid.build_ok (h : parts.Valid) : ∃ k, parts.build = .ok k ∧ k.WellFormed := by
  cases parts with
  | sequence seq =>
    refine ⟨.ms seq.toNat, if_neg (not_lt.2 h.1), ?_⟩
    have hmax : seq ≤ i64Max := h.2
    unfold i64Max at hmax
    show seq.toNat < 2 ^ 64
    omega
  | blockData seq => exact ⟨.bd seq, rfl, h⟩
  | _ => exact ⟨_, rfl, trivial⟩

lemma seqKey_eq_ok {seq : ℤ} : seqKey seq = .ok k ↔ 0 ≤ seq ∧ k = .ms seq.toNat := by
  unfold seqKey
  split_ifs with h
  · simp [h]
  · simp [not_lt.1 h, eq_comm]

/-- **Round trips.**  A key is read as what it was built from. -/
lemma readFrom_build (h : parts.Valid) (hk : parts.build = .ok k) : parts.ReadFrom k.encode := by
  cases parts with
  | blockData =>
    cases hk
    show parseBlockDataSeqKey _ = _
    rw [parseBlockDataSeqKey_bd h.2, if_neg (not_lt.2 h.1)]
  | blockPointer dir hash =>
    cases hk
    exact ⟨parseBlockPointerKey_mb dir hash, blockKeyDir_mb dir hash⟩
  | blockReverse hash name =>
    cases hk
    show parseBlockReverseKey (Key.mr hash (splitName name)).encode = _
    rw [parseBlockReverseKey_mr, joinName_splitName h]
  | file name =>
    cases hk
    show parseFileKey (Key.mn (splitName name)).encode = _
    rw [parseFileKey_mn, joinName_splitName h]
  | sequence seq =>
    obtain ⟨-, rfl⟩ := seqKey_eq_ok.1 hk
    have hmax : seq ≤ i64Max := h.2
    unfold i64Max at hmax
    exact parseSeqKey_ms (by omega)
  | inbox epoch name =>
    cases hk
    show parseInboxKey (Key.mi epoch (splitName name)).encode = _
    rw [parseInboxKey_mi, joinName_splitName h]
  | device | indexMeta => trivial

/-- **The chain puts every key into its own class.** -/
lemma chainClass_build (h : parts.Valid) (hk : parts.build = .ok k) : chainClass k.encode = parts.cls := by
  obtain ⟨_, hb, hwf⟩ := h.build_ok
  obtain rfl := Except.ok.inj (hb.symm.trans hk)
  rw [chainClass_encode hwf.inRange]
  cases parts with
  | blockData =>
    cases hk
    exact if_neg (not_lt.2 h.1)
  | blockReverse hash =>
    cases hk
    exact congrArg (KeyClass.blockReverse hash) (joinName_splitName h)
  | file =>
    cases hk
    exact congrArg KeyClass.file (joinName_splitName h)
  | sequence =>
    obtain ⟨-, rfl⟩ := seqKey_eq_ok.1 hk
    rfl
  | inbox epoch =>
    cases hk
    exact congrArg (KeyClass.inbox epoch) (joinName_splitName h)
  | _ => cases hk; rfl

lemma build_inj (h : parts.Valid) (h' : parts'.Valid) (hk : parts.build = .ok k) (hk' : parts'.build = .ok k')
    (he : k.encode = k'.encode) : parts = parts' := by
  obtain ⟨_, hb, hwf⟩ := h.build_ok
  obtain ⟨_, hb', hwf'⟩ := h'.build_ok
  obtain rfl := Except.ok.inj (hb.symm.trans hk)
  obtain rfl := Except.ok.inj (hb'.symm.trans hk')
  have hkey := encode_injOn hwf.inRange hwf'.inRange he
  have hread := readFrom_build h hk
  have hread' := readFrom_build h' hk'
  have hcls : parts.cls = parts'.cls := by
    rw [← chainClass_build h hk, ← chainClass_build h' hk', he]
  subst hkey
  -- the class gives the parts, except for the directory of a pointer and the keys no parser takes
  cases parts <;> cases parts' <;> simp only [KeyParts.cls, reduceCtorEq, KeyClass.blockData.injEq,
    KeyClass.blockPointer.injEq, KeyClass.blockReverse.injEq, KeyClass.inbox.injEq, KeyClass.sequence.injEq,
    KeyClass.file.injEq] at hcls
  · rw [hcls]
  · rw [hcls, Option.some.inj (hread.2.symm.trans hread'.2)]
  · rw [hcls.1, hcls.2]
  · rw [hcls]
  · rw [← Int.toNat_of_nonneg h.1, hcls, Int.toNat_of_nonneg h'.1]
  · rw [hcls.1, hcls.2]
  · cases hk
    cases hk'
    rfl
  · cases hk
    cases hk'
  · cases hk
    cases hk'
  · rfl

end Codec

/-! ### The order of the bytes -/

section Order

lemma keyOrder_bd (q : ℕ) : Db.keyOrder (.bd q) = [98, 100] ++ digits 256 8 q := by
  unfold Db.keyOrder Key.encode
  rw [map_append]
  simp only [Key.tag, Key.body, beBytes, map_toNat_digits]
  rfl

lemma keyOrder_bd_lt {q q' : ℕ} (hq : q < 2 ^ 64) (hq' : q' < 2 ^ 64) :
    Db.keyOrder (.bd q) < Db.keyOrder (.bd q') ↔ q < q' := by
  rw [keyOrder_bd, keyOrder_bd]
  have h64 : (2 : ℕ) ^ 64 = 256 ^ 8 := by norm_num
  rw [← digits_lt_digits_iff (b := 256) (w := 8) (h64 ▸ hq) (h64 ▸ hq')]
  simp

lemma keyLt_inboxKey {e e' : Epoch} (h : e < e') (name name' : Str) :
    keyLt (inboxKey e name).encode (inboxKey e' name').encode := by
  have hlt : strKey e.asBase32 < strKey e'.asBase32 := strKey_asBase32_lt.2 h
  have hlen : ∀ e : Epoch, (strKey e.asBase32).length = EPOCH_BASE32_LEN := fun e => by
    rw [strKey, length_map, utf8_asBase32_length]
  have hord : ∀ (e : Epoch) (p : Path), (Key.mi e p).encode.map UInt8.toNat =
      [109, 105] ++ (strKey e.asBase32 ++ ([47] ++ p.encode.map UInt8.toNat)) := by
    intro e p
    simp [Key.encode, Key.tag, Key.body, strKey]
  have hbody : strKey e.asBase32 ++ ([47] ++ (splitName name).encode.map UInt8.toNat) <
      strKey e'.asBase32 ++ ([47] ++ (splitName name').encode.map UInt8.toNat) :=
    append_lt_append_of_lt (by rw [hlen, hlen]) hlt
  unfold keyLt inboxKey
  rw [hord, hord]
  simpa using hbody

end Order

/-! ### The layout -/

lemma blockReversePrefix_prefix {hash : Bytes32} {k : Key} :
    blockReversePrefix hash <+: k.encode ↔ ∃ path, k = .mr hash path := by
  constructor
  · intro h
    have htag : k.tag = BLOCK_REV_PREFIX := by
      refine (prefix_encode rfl).1 ((prefix_append _ _).trans (?_ : BLOCK_REV_PREFIX ++ hash.1 <+: _))
      exact (prefix_append _ _).trans h
    cases k with
    | mr hash' path =>
      refine ⟨path, ?_⟩
      obtain ⟨rest, hrest⟩ := h
      have hb : hash.1 ++ ([47] ++ rest) = hash'.1 ++ ([47] ++ path.encode) := by
        have : BLOCK_REV_PREFIX ++ (hash.1 ++ ([47] ++ rest)) =
            BLOCK_REV_PREFIX ++ (hash'.1 ++ ([47] ++ path.encode)) := by
          simpa [blockReversePrefix, Key.encode, Key.tag, Key.body, BLOCK_REV_PREFIX] using hrest
        exact append_cancel_left this
      have hh := (append_inj hb (by rw [hash.2, hash'.2])).1
      rw [Subtype.ext hh]
    | _ => simp [Key.tag, BLOCK_REV_PREFIX] at htag
  · rintro ⟨path, rfl⟩
    refine ⟨path.encode, ?_⟩
    simp [blockReversePrefix, Key.encode, Key.tag, Key.body, BLOCK_REV_PREFIX]

lemma brPrefixLen_of_prefix {start key : Bytes} {n : ℕ} (h : brPrefixLen (.scan start) = some n)
    (hp : start <+: key) : brPrefixLen (.point key) = some n ∧ key.take n = start.take n := by
  unfold brPrefixLen PrefixTarget.bytes at h ⊢
  split_ifs at h with hc
  obtain rfl := Option.some.inj h
  rw [Bool.and_eq_true, decide_eq_true_eq, isPrefixOf_iff_prefix] at hc
  obtain ⟨hlen, hpre⟩ := hc
  have hkey : BR_FILTER_PREFIX_LEN ≤ key.length := hlen.trans hp.length_le
  refine ⟨?_, ?_⟩
  · rw [if_pos]
    rw [Bool.and_eq_true, decide_eq_true_eq, isPrefixOf_iff_prefix]
    exact ⟨hkey, hpre.trans hp⟩
  · obtain ⟨rest, rfl⟩ := hp
    rw [take_append_of_le_length hlen]

/-- **The key layout is a code.**  Valid parts make a key, which is read as these parts by the parser of its
kind and put into its own class by the filter's chain of parsers, and no other parts make it.  The order of
the bytes is that of the numbers and of the epochs.  A scan for the reverse references of a hash meets
exactly these, and the length by which the Bloom filters cut the start of a scan is that for every key
it starts. -/
theorem key_codec :
    (∀ parts : KeyParts, parts.Valid → ∃ k, parts.build = .ok k ∧ parts.ReadFrom k.encode ∧
      chainClass k.encode = parts.cls ∧ ∀ bl gc v, ∀ f : GcFilter,
        f.filterEntry bl gc k.encode v = f.decideClass bl gc k.encode v parts.cls) ∧
    (∀ (parts parts' : KeyParts) (k k' : Key), parts.Valid → parts'.Valid → parts.build = .ok k →
      parts'.build = .ok k' → parts ≠ parts' → k.encode ≠ k'.encode) ∧
    (∀ (s t : ℤ) (k k' : Key), s ≤ i64Max → t ≤ i64Max → seqKey s = .ok k → seqKey t = .ok k' →
      (keyLt k.encode k'.encode ↔ s < t)) ∧
    (∀ s t : ℕ, s < 2 ^ 64 → t < 2 ^ 64 → (keyLt (Key.bd s).encode (Key.bd t).encode ↔ s < t)) ∧
    (∀ e e' : Epoch, (keyLt (utf8 e.asBase32) (utf8 e'.asBase32) ↔ e < e') ∧
      ∀ name name', e < e' → keyLt (inboxKey e name).encode (inboxKey e' name').encode) ∧
    (∀ (db : Db) (hash : Bytes32) (k : Key) (r : Row), (k, r) ∈ db.scanPrefix (blockReversePrefix hash) ↔
      db.rows.lookup k = some r ∧ ∃ path, k = .mr hash path) ∧
    (∀ (start key : Bytes) (n : ℕ), brPrefixLen (.scan start) = some n → start <+: key →
      brPrefixLen (.point key) = some n ∧ key.take n = start.take n) := by
  refine ⟨?_, ?_, ?_, ?_, ?_, ?_, ?_⟩
  · intro parts h
    obtain ⟨k, hk, -⟩ := h.build_ok
    have hcls := chainClass_build h hk
    refine ⟨k, hk, readFrom_build h hk, hcls, fun bl gc v f => ?_⟩
    rw [filterEntry_eq_decideClass, hcls]
  · intro parts parts' k k' h h' hk hk' hne he
    exact hne (build_inj h h' hk hk' he)
  · intro s t k k' hs ht hk hk'
    obtain ⟨hs₀, rfl⟩ := seqKey_eq_ok.1 hk
    obtain ⟨ht₀, rfl⟩ := seqKey_eq_ok.1 hk'
    unfold i64Max at hs ht
    have hlt : Db.keyOrder (.ms s.toNat) < Db.keyOrder (.ms t.toNat) ↔ s.toNat < t.toNat :=
      keyOrder_ms_lt (by omega) (by omega)
    refine hlt.trans ?_
    omega
  · intro s t hs ht
    exact keyOrder_bd_lt hs ht
  · intro e e'
    exact ⟨strKey_asBase32_lt, fun name name' h => keyLt_inboxKey h name name'⟩
  · intro db hash k r
    rw [Db.mem_scanPrefix, blockReversePrefix_prefix]
  · intro start key n h hp
    exact brPrefixLen_of_prefix h hp

/-- The reverse reference of a file in a directory to a block whose hash is all slashes. -/
def slashedParts : KeyParts := .blockReverse ⟨List.replicate 32 47, rfl⟩ ['a', '/', 'b']

theorem key_codec_slashed :
    slashedParts.Valid ∧ ∃ k, slashedParts.build = .ok k ∧ slashedParts.ReadFrom k.encode ∧
      chainClass k.encode = slashedParts.cls := by
  have hvalid : slashedParts.Valid := rfl
  obtain ⟨k, hk, hread, hcls, -⟩ := key_codec.1 slashedParts hvalid
  exact ⟨hvalid, k, hk, hread, hcls⟩

end Bepository.Storage
