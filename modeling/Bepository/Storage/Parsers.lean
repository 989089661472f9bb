import Bepository.Bep.Framing
import Bepository.Storage.Keys

/-!
# Parsing keys (`bepository-storage/src/store_keys.rs`)

The compaction filter sees the bytes of a key and asks one parser after the other.  The parsers here
read bytes as the source's do.  Each of them takes the keys of its own tag only, and gives back what
the key was built from; so no two keys have the same bytes.
-/

namespace Bepository.Storage

open Lib List Option

def SEQ_PREFIX : Bytes := [109, 115]
def BLOCK_PREFIX : Bytes := [109, 98]
def BLOCK_REV_PREFIX : Bytes := [109, 114]
def BLOCK_DATA_PREFIX : Bytes := [98, 100]

def SEQ_KEY_LEN : ℕ := 10
def BLOCK_DATA_KEY_LEN : ℕ := 10
def EPOCH_BASE32_LEN : ℕ := 8

/-! ### The parsers -/

def fromUtf8 (b : Bytes) : Option Str := b.toByteArray.utf8Decode?.map Array.toList

/-- `join_name`, for any two parts. -/
def joinParts (dir basename : Str) : Str :=
  if dir = [] then basename else dir ++ '/' :: basename

/-- How the parsers read `<dir>//<basename>`: `from_utf8`, `rsplit_once("//")` and `join_name`. -/
def parsePath (b : Bytes) : Option Str :=
  (fromUtf8 b).bind fun s => (rsplitOnceAt ['/', '/'] s).map fun parts => joinParts parts.1 parts.2

def parseFileKey (key : Bytes) : Option Str := (key.dropPrefix? FILE_PREFIX).bind parsePath

def parseSeqKey (key : Bytes) : Option ℕ :=
  if key.length ≠ SEQ_KEY_LEN || !SEQ_PREFIX.isPrefixOf key then none
  else some (beNat ((key.drop 2).take 8))

def parseBlockDataSeqKey (key : Bytes) : Option ℕ :=
  if key.length ≠ BLOCK_DATA_KEY_LEN || !BLOCK_DATA_PREFIX.isPrefixOf key then none
  else
    let seq := beNat ((key.drop 2).take 8)
    if seq < MIN_BLOCK_SEQ then none else some seq

def parseBlockPointerKey (key : Bytes) : Option Bytes32 :=
  if key.length < BLOCK_PREFIX.length + 1 + HASH_LEN || !BLOCK_PREFIX.isPrefixOf key then none
  else if key[key.length - HASH_LEN - 1]? ≠ some 47 then none
  else toBytes32 (key.drop (key.length - HASH_LEN))

def parseBlockReverseKey (key : Bytes) : Option (Bytes32 × Str) :=
  (key.dropPrefix? BLOCK_REV_PREFIX).bind fun rest =>
    if rest.length < HASH_LEN + 1 then none
    else (toBytes32 (rest.take HASH_LEN)).bind fun hash =>
      if rest[HASH_LEN]? ≠ some 47 then none
      else (parsePath (rest.drop (HASH_LEN + 1))).map fun name => (hash, name)

def parseInboxKey (key : Bytes) : Option (Epoch × Str) :=
  (key.dropPrefix? INBOX_PREFIX).bind fun rest =>
    if rest.length < EPOCH_BASE32_LEN + 1 then none
    else (fromUtf8 (rest.take EPOCH_BASE32_LEN)).bind fun epochStr =>
      (Lock.Epoch.parse epochStr).bind fun epoch =>
        if rest[EPOCH_BASE32_LEN]? ≠ some 47 then none
        else (parsePath (rest.drop (EPOCH_BASE32_LEN + 1))).map fun name => (epoch, name)

/-! ### Round trips -/

section RoundTrips

variable {k : Key} {t : Bytes}

lemma fromUtf8_utf8 (s : Str) : fromUtf8 (utf8 s) = some s := by
  have h : (utf8 s).toByteArray.utf8Decode? = some s.toArray := utf8Decode?_utf8Encode
  rw [fromUtf8, h, map_some]

lemma utf8_injective : Function.Injective utf8 := by
  intro s s' h
  have hs : fromUtf8 (utf8 s) = fromUtf8 (utf8 s') := congrArg fromUtf8 h
  rwa [fromUtf8_utf8, fromUtf8_utf8, some_inj] at hs

def strKey (s : Str) : List ℕ := (utf8 s).map UInt8.toNat

lemma strKey_injective : Function.Injective strKey := by
  intro s t h
  exact utf8_injective (map_injective_iff.2 (fun _ _ => UInt8.toNat.inj) h)

lemma utf8EncodeChar_append_inj {c c' : Char} {b b' : Bytes}
    (h : String.utf8EncodeChar c ++ b = String.utf8EncodeChar c' ++ b') : c = c' ∧ b = b' := by
  have hd : ∀ (c : Char) (b : Bytes),
      ByteArray.utf8DecodeChar? (String.utf8EncodeChar c ++ b).toByteArray 0 = some c := by
    intro c b
    rw [toByteArray_append]
    exact ByteArray.utf8DecodeChar?_utf8EncodeChar_append
  have hc : c = c' := by
    have := hd c b
    rw [h, hd c' b', some_inj] at this
    exact this.symm
  subst hc
  exact ⟨rfl, append_cancel_left h⟩

lemma utf8_cons (c : Char) (s : Str) : utf8 (c :: s) = String.utf8EncodeChar c ++ utf8 s := flatMap_cons

lemma utf8_append (s t : Str) : utf8 (s ++ t) = utf8 s ++ utf8 t := flatMap_append

lemma strKey_append (s t : Str) : strKey (s ++ t) = strKey s ++ strKey t := by
  unfold strKey
  rw [utf8_append, map_append]

def digitByte (d : ℕ) : ℕ := (UInt8.ofNat (Lock.digitChar d).toNat).toNat

lemma strKey_digits {ds : List ℕ} (h : ∀ d ∈ ds, d < 32) : strKey (ds.map Lock.digitChar) = ds.map digitByte := by
  have hone : ∀ d < 32, strKey [Lock.digitChar d] = [digitByte d] := by decide
  induction ds with
  | nil => rfl
  | cons d ds ih =>
    have hd := hone d (h d mem_cons_self)
    have hrest := ih fun e he => h e (mem_cons_of_mem _ he)
    rw [map_cons, ← singleton_append, strKey_append, hd, hrest]
    rfl

lemma digitByte_lt : ∀ d < 32, ∀ e < 32, d < e → digitByte d < digitByte e := by decide

lemma strKey_epoch_lt {e e' : Epoch} (h : e < e') (dir t t' : Str) :
    strKey (dir ++ (e.asBase32 ++ t)) < strKey (dir ++ (e'.asBase32 ++ t')) := by
  have hd : ∀ v, ∀ d ∈ digits 32 8 v, d < 32 := fun v => digits_lt (by decide)
  have hdigits : digits 32 8 e.val < digits 32 8 e'.val :=
    (digits_lt_digits_iff (by have := e.lt; omega) (by have := e'.lt; omega)).2 h
  unfold Lock.Epoch.asBase32
  rw [strKey_append, strKey_append, strKey_append, strKey_append]
  refine append_left_lt ?_
  rw [strKey_digits (hd _), strKey_digits (hd _)]
  refine map_append_lt_map_append (by simp) (fun x hx y hy => ?_) hdigits
  exact digitByte_lt x (hd _ x hx) y (hd _ y hy)

lemma strKey_asBase32_lt {e e' : Epoch} : strKey e.asBase32 < strKey e'.asBase32 ↔ e < e' := by
  have hlt : ∀ {e e' : Epoch}, e < e' → strKey e.asBase32 < strKey e'.asBase32 := fun h => by
    simpa using strKey_epoch_lt h [] [] []
  refine ⟨fun h => lt_of_not_ge fun hle => ?_, hlt⟩
  rcases hle.lt_or_eq with hgt | rfl
  · exact lt_asymm h (hlt hgt)
  · exact lt_irrefl _ h

lemma utf8_prefix_iff {s t : Str} : utf8 s <+: utf8 t ↔ s <+: t := by
  constructor
  · intro h
    induction s generalizing t with
    | nil => exact nil_prefix
    | cons c s ih =>
      obtain ⟨u, hu⟩ := h
      cases t with
      | nil =>
        have hlen := congrArg List.length hu
        have := c.utf8Size_pos
        simp [utf8] at hlen
        omega
      | cons =>
        rw [utf8_cons, utf8_cons, append_assoc] at hu
        obtain ⟨rfl, hrest⟩ := utf8EncodeChar_append_inj hu
        exact cons_prefix_cons.2 ⟨rfl, ih ⟨u, hrest⟩⟩
  · rintro ⟨u, rfl⟩
    rw [utf8_append]
    exact prefix_append _ _

lemma beBytes_length (v : ℕ) : (beBytes v).length = 8 := length_bigEndian

lemma beNat_beBytes {v : ℕ} (h : v < 2 ^ 64) : beNat (beBytes v) = v :=
  beNat_bigEndian (by omega)

lemma Path.encode_eq (p : Path) : p.encode = utf8 (p.dir ++ (['/', '/'] ++ p.base)) := by
  unfold Path.encode utf8
  rw [flatMap_append, flatMap_append, append_assoc]
  rfl

lemma rsplitOnceAt_path (p : Path) :
    rsplitOnceAt ['/', '/'] (p.dir ++ (['/', '/'] ++ p.base)) = some (p.dir, p.base) := by
  refine rsplitOnceAt_append fun h => p.noSlash ?_
  rcases infix_cons_iff.1 h with h | h
  · exact (cons_prefix_cons.1 h).2.subset mem_cons_self
  · exact h.subset mem_cons_self

lemma parsePath_encode (p : Path) : parsePath p.encode = some (joinName p) := by
  unfold parsePath
  rw [Path.encode_eq, fromUtf8_utf8, bind_some, rsplitOnceAt_path, map_some]
  rfl

lemma Path.encode_injective : Function.Injective Path.encode := by
  intro p p' h
  rw [Path.encode_eq, Path.encode_eq] at h
  have hs := congrArg (rsplitOnceAt ['/', '/']) (utf8_injective h)
  rw [rsplitOnceAt_path, rsplitOnceAt_path, some_inj, Prod.mk.injEq] at hs
  cases p
  cases p'
  simp_all

lemma tag_length (k : Key) : k.tag.length = 2 := by cases k <;> rfl

lemma prefix_encode (ht : t.length = 2) : t <+: k.encode ↔ k.tag = t := by
  constructor
  · rintro ⟨u, hu⟩
    exact (append_inj hu (by rw [ht, tag_length])).1.symm
  · rintro rfl
    exact prefix_append _ _

lemma dropPrefix_encode : k.encode.dropPrefix? k.tag = some k.body :=
  dropPrefix?_eq_some_iff.2 ⟨k.tag, rfl, beq_self_eq_true _⟩

lemma dropPrefix_encode_of_ne (ht : t.length = 2) (hk : k.tag ≠ t) : k.encode.dropPrefix? t = none := by
  refine eq_none_iff_forall_ne_some.2 fun s hs => hk ?_
  obtain ⟨u, hu, he⟩ := dropPrefix?_eq_some_iff.1 hs
  rw [beq_iff_eq] at he
  subst he
  exact (prefix_encode ht).1 ⟨s, hu.symm⟩

lemma isPrefixOf_encode_of_ne (ht : t.length = 2) (hk : k.tag ≠ t) : t.isPrefixOf k.encode = false := by
  rw [← Bool.not_eq_true, isPrefixOf_iff_prefix, prefix_encode ht]
  exact hk

lemma toBytes32_val (h : Bytes32) : toBytes32 h.1 = some h := dif_pos h.2

/-! ### What each parser takes -/

@[simp] lemma parseFileKey_mn (p : Path) : parseFileKey (Key.mn p).encode = some (joinName p) := by
  have hd : (Key.mn p).encode.dropPrefix? FILE_PREFIX = some p.encode := dropPrefix_encode
  rw [parseFileKey, hd, bind_some, parsePath_encode]

lemma parseFileKey_of_ne (hk : k.tag ≠ FILE_PREFIX) : parseFileKey k.encode = none := by
  rw [parseFileKey, dropPrefix_encode_of_ne rfl hk, bind_none]

@[simp] lemma parseSeqKey_ms {seq : ℕ} (h : seq < 2 ^ 64) : parseSeqKey (Key.ms seq).encode = some seq := by
  have hl : (Key.ms seq).encode.length = SEQ_KEY_LEN := by
    simp [Key.encode, Key.tag, Key.body, beBytes_length, SEQ_KEY_LEN]
  have hb : (((Key.ms seq).encode.drop 2).take 8) = beBytes seq := take_of_length_le (beBytes_length seq).le
  have hp : SEQ_PREFIX.isPrefixOf (Key.ms seq).encode = true := rfl
  simp [parseSeqKey, hl, hp, hb, beNat_beBytes h]

lemma parseSeqKey_of_ne (hk : k.tag ≠ SEQ_PREFIX) : parseSeqKey k.encode = none := by
  simp [parseSeqKey, isPrefixOf_encode_of_ne rfl hk]

@[simp] lemma parseBlockDataSeqKey_bd {seq : ℕ} (h : seq < 2 ^ 64) :
    parseBlockDataSeqKey (Key.bd seq).encode = if seq < MIN_BLOCK_SEQ then none else some seq := by
  have hl : (Key.bd seq).encode.length = BLOCK_DATA_KEY_LEN := by
    simp [Key.encode, Key.tag, Key.body, beBytes_length, BLOCK_DATA_KEY_LEN]
  have hb : (((Key.bd seq).encode.drop 2).take 8) = beBytes seq := take_of_length_le (beBytes_length seq).le
  have hp : BLOCK_DATA_PREFIX.isPrefixOf (Key.bd seq).encode = true := rfl
  simp [parseBlockDataSeqKey, hl, hp, hb, beNat_beBytes h]

@[simp] lemma parseBlockPointerKey_mb (dir : Str) (hash : Bytes32) :
    parseBlockPointerKey (Key.mb dir hash).encode = some hash := by
  have he : (Key.mb dir hash).encode = (BLOCK_PREFIX ++ utf8 dir) ++ (47 :: hash.1) := by
    simp [Key.encode, Key.tag, Key.body, BLOCK_PREFIX]
  have hl : (Key.mb dir hash).encode.length = (BLOCK_PREFIX ++ utf8 dir).length + 1 + HASH_LEN := by
    rw [he, length_append, length_cons, hash.2]
    omega
  have hp : BLOCK_PREFIX.isPrefixOf (Key.mb dir hash).encode = true := rfl
  have hs : (Key.mb dir hash).encode[(BLOCK_PREFIX ++ utf8 dir).length]? = some 47 := by
    rw [he, getElem?_append_right le_rfl, Nat.sub_self]
    rfl
  have hd : (Key.mb dir hash).encode.drop ((BLOCK_PREFIX ++ utf8 dir).length + 1) = hash.1 := by
    rw [he, drop_append, drop_of_length_le (by omega), nil_append, Nat.add_sub_cancel_left]
    rfl
  have hlen : BLOCK_PREFIX.length + 1 + HASH_LEN ≤ (Key.mb dir hash).encode.length := by
    rw [hl, length_append]
    omega
  unfold parseBlockPointerKey
  rw [if_neg (by simp [hp, hlen]), hl, Nat.add_sub_cancel, Nat.add_sub_cancel, hs, if_neg (by simp), hd,
    toBytes32_val]

lemma parseBlockPointerKey_of_ne (hk : k.tag ≠ BLOCK_PREFIX) : parseBlockPointerKey k.encode = none := by
  simp [parseBlockPointerKey, isPrefixOf_encode_of_ne rfl hk]

@[simp] lemma parseBlockReverseKey_mr (hash : Bytes32) (p : Path) :
    parseBlockReverseKey (Key.mr hash p).encode = some (hash, joinName p) := by
  have hd : (Key.mr hash p).encode.dropPrefix? BLOCK_REV_PREFIX = some (Key.mr hash p).body :=
    dropPrefix_encode
  have hb : (Key.mr hash p).body = hash.1 ++ (47 :: p.encode) := by simp [Key.body]
  rw [parseBlockReverseKey, hd, hb, bind_some, if_neg (by simp [hash.2]),
    take_left' hash.2, toBytes32_val, bind_some, if_neg (by simp [hash.2]),
    drop_append, drop_of_length_le (by omega), hash.2, Nat.add_sub_cancel_left]
  simp [parsePath_encode]

lemma parseBlockReverseKey_of_ne (hk : k.tag ≠ BLOCK_REV_PREFIX) : parseBlockReverseKey k.encode = none := by
  rw [parseBlockReverseKey, dropPrefix_encode_of_ne rfl hk, bind_none]

lemma utf8_length (s : Str) : (utf8 s).length = Lock.utf8Len s := by
  unfold utf8 Lock.utf8Len
  rw [length_flatMap]
  exact congrArg List.sum (map_congr_left fun c _ => String.length_utf8EncodeChar c)

lemma utf8_asBase32_length (e : Epoch) : (utf8 e.asBase32).length = EPOCH_BASE32_LEN := by
  rw [utf8_length, Lock.Epoch.asBase32, Lock.utf8Len_map_digitChar (digits_lt (by decide)), digits_length]
  rfl

@[simp] lemma parseInboxKey_mi (e : Epoch) (p : Path) :
    parseInboxKey (Key.mi e p).encode = some (e, joinName p) := by
  have hd : (Key.mi e p).encode.dropPrefix? INBOX_PREFIX = some (Key.mi e p).body := dropPrefix_encode
  have hb : (Key.mi e p).body = utf8 e.asBase32 ++ (47 :: p.encode) := by simp [Key.body]
  have hl := utf8_asBase32_length e
  rw [parseInboxKey, hd, hb, bind_some, if_neg (by simp [hl]), take_left' hl,
    fromUtf8_utf8, bind_some, Lock.Epoch.parse_asBase32, bind_some,
    if_neg (by simp [hl]), drop_append, drop_of_length_le (by omega), hl, Nat.add_sub_cancel_left]
  simp [parsePath_encode]

lemma parseInboxKey_of_ne (hk : k.tag ≠ INBOX_PREFIX) : parseInboxKey k.encode = none := by
  rw [parseInboxKey, dropPrefix_encode_of_ne rfl hk, bind_none]

def Key.InRange : Key → Prop
  | .bd seq => seq < 2 ^ 64
  | .ms seq => seq < 2 ^ 64
  | _ => True

theorem encode_injOn : Set.InjOn Key.encode { k | k.InRange } := by
  intro k hk k' hk' h
  obtain ⟨ht, hb⟩ := append_inj h (by rw [tag_length, tag_length])
  -- the tag fixes the kind of the key; the parts of its body have known lengths or an end mark
  cases k with
  | bd seq =>
    cases k' with
    | bd seq' =>
      have hn : beNat (beBytes seq) = beNat (beBytes seq') := congrArg beNat hb
      rw [beNat_beBytes hk, beNat_beBytes hk'] at hn
      rw [hn]
    | _ => simp [Key.tag] at ht
  | ms seq =>
    cases k' with
    | ms seq' =>
      have hn : beNat (beBytes seq) = beNat (beBytes seq') := congrArg beNat hb
      rw [beNat_beBytes hk, beNat_beBytes hk'] at hn
      rw [hn]
    | _ => simp [Key.tag] at ht
  | mb dir hash =>
    cases k' with
    | mb dir' hash' =>
      obtain ⟨hd, hh⟩ := append_inj' hb (by rw [hash.2, hash'.2])
      rw [utf8_injective (append_cancel_right hd), Subtype.ext hh]
    | _ => simp [Key.tag] at ht
  | mr hash =>
    cases k' with
    | mr hash' =>
      obtain ⟨hd, hp⟩ := append_inj hb (by simp [hash.2, hash'.2])
      rw [Path.encode_injective hp, Subtype.ext (append_cancel_right hd)]
    | _ => simp [Key.tag] at ht
  | mn =>
    cases k' with
    | mn => rw [Path.encode_injective hb]
    | _ => simp [Key.tag] at ht
  | mi =>
    cases k' with
    | mi =>
      obtain ⟨hd, hp⟩ := append_inj hb (by simp [utf8_asBase32_length])
      have he := utf8_injective (append_cancel_right hd)
      rw [Path.encode_injective hp, Lock.Epoch.asBase32_inj he]
    | _ => simp [Key.tag] at ht
  | md =>
    cases k' with
    | md => rw [Subtype.ext hb]
    | _ => simp [Key.tag] at ht
  | mx =>
    cases k' with
    | mx => rfl
    | _ => simp [Key.tag] at ht

end RoundTrips

end Bepository.Storage
