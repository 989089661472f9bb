import Bepository.Bep.Proto
import Bepository.Lib.Repack
import Bepository.Lib.Result
import Bepository.Lib.Words

/-!
# Device IDs as text (`bepository-bep/src/device_id.rs`)

The 32 bytes of a device ID are written as 52 characters of five bits each.  Every 13 of them are followed by
a check character, and the 56 characters stand in groups of seven with hyphens between them.  Texts are lists
of bytes here.
-/

namespace Bepository

open Lib List

/-- `DeviceId`. -/
@[ext] structure DeviceId where
  bytes : Bytes
  length_eq : bytes.length = 32

inductive DeviceIdError where
  | invalidLength (n : ℕ)
  | invalidCharacter (c : Char)
  | invalidCheckDigit
  deriving DecidableEq

namespace DeviceId

def ALPHABET : Bytes :=
  ['A', 'B', 'C', 'D', 'E', 'F', 'G', 'H', 'I', 'J', 'K', 'L', 'M', 'N', 'O', 'P',
   'Q', 'R', 'S', 'T', 'U', 'V', 'W', 'X', 'Y', 'Z', '2', '3', '4', '5', '6', '7'].map Char.toUInt8

def letter (v : ℕ) : UInt8 := ALPHABET.getD v 0

/-- `-`. -/
def HYPHEN : UInt8 := 45

def decodeChar (c : UInt8) : Option ℕ :=
  if 65 ≤ c ∧ c ≤ 90 then some (c - 65).toNat
  else if 97 ≤ c ∧ c ≤ 122 then some (c - 97).toNat
  else if 50 ≤ c ∧ c ≤ 55 then some (c - 50 + 26).toNat
  else none

def toAsciiUppercase (c : UInt8) : UInt8 := if 97 ≤ c ∧ c ≤ 122 then c - 32 else c

/-! ### The check characters -/

def luhnTerm (f val : ℕ) : ℕ := f * val / 32 + f * val % 32

def nextWeight (f : ℕ) : ℕ := if f = 1 then 2 else 1

/-- The loop of `luhn_check`. -/
def luhnSum : ℕ → ℕ → Bytes → Except DeviceIdError ℕ
  | _, sum, [] => .ok sum
  | f, sum, ch :: group =>
    match decodeChar ch with
    | none => .error (.invalidCharacter (Char.ofNat ch.toNat))
    | some val => luhnSum (nextWeight f) (sum + luhnTerm f val) group

def luhnCheck (group : Bytes) : Except DeviceIdError UInt8 :=
  (luhnSum 1 0 group).map fun sum => letter ((32 - sum % 32) % 32)

/-! ### Parsing -/

def clean (s : Bytes) : Bytes := (s.filter (· ≠ HYPHEN)).map toAsciiUppercase

def pushChar (a : Repack) (c : UInt8) : Except DeviceIdError Repack :=
  match decodeChar c with
  | none => .error (.invalidCharacter (Char.ofNat c.toNat))
  | some val => .ok (a.push 5 8 val)

def decodeChunk (a : Repack) (chunk : Bytes) : Except DeviceIdError Repack :=
  match luhnCheck (chunk.take 13) with
  | .error e => .error e
  | .ok check =>
    if chunk[13]? ≠ some check then .error .invalidCheckDigit else (chunk.take 13).foldlM pushChar a

/-- The array of 32 bytes, filled from its start; what does not fit is dropped. -/
def ofOut (out : List ℕ) : DeviceId :=
  ⟨(out.map UInt8.ofNat ++ List.replicate 32 0).take 32, by simp⟩

def fromStr (s : Bytes) : Except DeviceIdError DeviceId :=
  if (clean s).length ≠ 56 then .error (.invalidLength (clean s).length)
  else ((chunksExact 14 4 (clean s)).foldlM decodeChunk Repack.start).map fun a => ofOut a.out

/-! ### Formatting -/

def values (id : DeviceId) : List ℕ :=
  let a := (id.bytes.map UInt8.toNat).foldl (Repack.push 8 5) Repack.start
  if 0 < a.bits then a.out ++ [(a.buffer <<< (5 - a.bits)) % 2 ^ 64 &&& 31] else a.out

def luhnify (group : Bytes) : Except DeviceIdError Bytes := (luhnCheck group).map fun c => group ++ [c]

/-- `fmt`; the error is that of the `expect`. -/
def format (id : DeviceId) : Except DeviceIdError Bytes :=
  ((chunksExact 13 4 ((values id).map letter)).mapM luhnify).map fun gs =>
    List.intercalate [HYPHEN] (chunksExact 7 8 gs.flatten)

/-! ### The alphabet -/

lemma decodeChar_letter : ∀ v < 32, decodeChar (letter v) = some v := by decide

lemma letter_ne_hyphen : ∀ v < 32, letter v ≠ HYPHEN := by decide

lemma toAsciiUppercase_letter : ∀ v < 32, toAsciiUppercase (letter v) = letter v := by decide

lemma letter_inj {u v : ℕ} (hu : u < 32) (hv : v < 32) (h : letter u = letter v) : u = v := by
  have hd := decodeChar_letter u hu
  rw [h, decodeChar_letter v hv] at hd
  exact (Option.some.inj hd).symm

lemma exists_letter {y : UInt8} (h : y ∈ ALPHABET) : ∃ v < 32, letter v = y := by
  have hall : ALPHABET.all (fun y => (List.range 32).any fun v => letter v = y) = true := by decide
  obtain ⟨v, hv, he⟩ := any_eq_true.1 (all_eq_true.1 hall y h)
  exact ⟨v, mem_range.1 hv, of_decide_eq_true he⟩

/-! ### Check sums -/

def luhnTotal : ℕ → List ℕ → ℕ
  | _, [] => 0
  | f, v :: vs => luhnTerm f v + luhnTotal (nextWeight f) vs

def checkValue (vs : List ℕ) : ℕ := (32 - luhnTotal 1 vs % 32) % 32

def closed (vs : List ℕ) : Bytes := vs.map letter ++ [letter (checkValue vs)]

lemma checkValue_lt (vs : List ℕ) : checkValue vs < 32 := Nat.mod_lt _ (by decide)

variable {vs : List ℕ}

lemma luhnSum_letters (h : ∀ v ∈ vs, v < 32) (f sum : ℕ) :
    luhnSum f sum (vs.map letter) = .ok (sum + luhnTotal f vs) := by
  induction vs generalizing f sum with
  | nil => rfl
  | cons v vs ih =>
    rw [map_cons, luhnSum, decodeChar_letter v (h v mem_cons_self)]
    simp only
    rw [ih fun v' hv' => h v' (mem_cons_of_mem v hv'), luhnTotal, Nat.add_assoc]

lemma luhnCheck_letters (h : ∀ v ∈ vs, v < 32) : luhnCheck (vs.map letter) = .ok (letter (checkValue vs)) := by
  rw [luhnCheck, luhnSum_letters h, Nat.zero_add]
  rfl

def Weight (f : ℕ) : Prop := f = 1 ∨ f = 2

lemma Weight.next {f : ℕ} (h : Weight f) : Weight (nextWeight f) := by
  rcases h with rfl | rfl
  · exact .inr rfl
  · exact .inl rfl

lemma luhnTerm_inj {f u v : ℕ} (hf : Weight f) (hu : u < 32) (hv : v < 32) (h : luhnTerm f u = luhnTerm f v) :
    u = v := by
  unfold luhnTerm at h
  rcases hf with rfl | rfl <;> omega

lemma luhnTerm_lt {f v : ℕ} (hf : Weight f) (hv : v < 32) : luhnTerm f v < 32 := by
  unfold luhnTerm
  rcases hf with rfl | rfl <;> omega

lemma luhnTotal_set {f i u v : ℕ} (hf : Weight f) (hi : vs[i]? = some u) (hu : u < 32) (hv : v < 32)
    (hne : u ≠ v) : luhnTotal f (vs.set i v) % 32 ≠ luhnTotal f vs % 32 := by
  induction vs generalizing f i with
  | nil => cases hi
  | cons w vs ih =>
    cases i with
    | zero =>
      cases hi
      have hu' := luhnTerm_lt hf hu
      have hv' := luhnTerm_lt hf hv
      have hterm : luhnTerm f u ≠ luhnTerm f v := fun h => hne (luhnTerm_inj hf hu hv h)
      rw [set_cons_zero, luhnTotal, luhnTotal]
      omega
    | succ =>
      have hrest := ih hf.next hi
      rw [set_cons_succ, luhnTotal, luhnTotal]
      omega

/-! ### Groups -/

section Groups

variable {a : Repack} {vs : List ℕ} {vgs : List (List ℕ)}

lemma length_closed (h : vs.length = 13) : (closed vs).length = 14 := by simp [closed, h]

lemma foldlM_pushChar (h : ∀ v ∈ vs, v < 32) :
    (vs.map letter).foldlM pushChar a = .ok (vs.foldl (Repack.push 5 8) a) := by
  induction vs generalizing a with
  | nil => rfl
  | cons v vs ih =>
    have hpush : pushChar a (letter v) = .ok (a.push 5 8 v) := by
      rw [pushChar, decodeChar_letter v (h v mem_cons_self)]
    rw [map_cons, foldlM_cons, hpush]
    exact ih fun v' hv' => h v' (mem_cons_of_mem v hv')

section

variable (hlen : vs.length = 13) (h : ∀ v ∈ vs, v < 32)
include hlen h

/-- A group with any character in the place of its check character. -/
lemma decodeChunk_append (c : UInt8) :
    decodeChunk a (vs.map letter ++ [c]) = if c ≠ letter (checkValue vs) then .error .invalidCheckDigit
      else .ok (vs.foldl (Repack.push 5 8) a) := by
  have hmap : (vs.map letter).length = 13 := by rw [length_map, hlen]
  have hlast : (vs.map letter ++ [c])[13]? = some c := by
    rw [getElem?_append_right hmap.le, hmap]
    rfl
  rw [decodeChunk, take_left' hmap, luhnCheck_letters h]
  simp only [hlast, ne_eq, Option.some_inj, foldlM_pushChar h]

lemma decodeChunk_closed : decodeChunk a (closed vs) = .ok (vs.foldl (Repack.push 5 8) a) :=
  (decodeChunk_append hlen h _).trans (if_neg fun hne => hne rfl)

lemma decodeChunk_set {i w : ℕ} (hi : i < 14) (hw : w < 32) (hne : (closed vs)[i]? ≠ some (letter w)) :
    decodeChunk a ((closed vs).set i (letter w)) = .error .invalidCheckDigit := by
  have hmap : (vs.map letter).length = 13 := by rw [length_map, hlen]
  by_cases hlast : i = 13
  · -- the check character itself
    subst hlast
    have hset : (closed vs).set 13 (letter w) = vs.map letter ++ [letter w] := by
      rw [closed, set_append_right _ _ hmap.le, hmap]
      rfl
    rw [hset, decodeChunk_append hlen h, if_pos]
    intro heq
    rw [closed, getElem?_append_right hmap.le, hmap, heq] at hne
    exact hne rfl
  · -- one of the characters it is about
    have hlt : i < vs.length := by omega
    have hset : (closed vs).set i (letter w) = (vs.set i w).map letter ++ [letter (checkValue vs)] := by
      rw [closed, set_append_left _ _ (by omega), map_set]
    have hvals : ∀ v ∈ vs.set i w, v < 32 := by
      intro v hv
      rcases mem_or_eq_of_mem_set hv with hmem | rfl
      · exact h v hmem
      · exact hw
    have hold : vs[i]? = some vs[i] := getElem?_eq_getElem hlt
    have hneq : vs[i] ≠ w := by
      rintro rfl
      refine hne ?_
      rw [closed, getElem?_append_left (by omega), getElem?_map, hold]
      rfl
    have htotal := luhnTotal_set (.inl rfl) hold (h _ (getElem_mem hlt)) hw hneq
    have hcheck : checkValue vs ≠ checkValue (vs.set i w) := by
      unfold checkValue
      omega
    rw [hset, decodeChunk_append (by rw [length_set, hlen]) hvals, if_pos]
    intro heq
    exact hcheck (letter_inj (checkValue_lt _) (checkValue_lt _) heq)

end

lemma foldlM_decodeChunk (h : ∀ vs ∈ vgs, vs.length = 13 ∧ ∀ v ∈ vs, v < 32) :
    (vgs.map closed).foldlM decodeChunk a = .ok (vgs.flatten.foldl (Repack.push 5 8) a) := by
  induction vgs generalizing a with
  | nil => rfl
  | cons vs vgs ih =>
    obtain ⟨hlen, hvals⟩ := h vs mem_cons_self
    rw [map_cons, foldlM_cons, decodeChunk_closed hlen hvals, flatten_cons, foldl_append]
    exact ih fun vs' hvs' => h vs' (mem_cons_of_mem vs hvs')

lemma foldlM_decodeChunk_set (h : ∀ vs ∈ vgs, vs.length = 13 ∧ ∀ v ∈ vs, v < 32) {j : ℕ} (hj : j < vgs.length)
    {g : Bytes} {e : DeviceIdError} (hg : ∀ a, decodeChunk a g = .error e) :
    ((vgs.map closed).set j g).foldlM decodeChunk a = .error e := by
  induction vgs generalizing a j with
  | nil => cases hj
  | cons vs vgs ih =>
    cases j with
    | zero =>
      rw [map_cons, set_cons_zero, foldlM_cons, hg]
      rfl
    | succ =>
      obtain ⟨hlen, hvals⟩ := h vs mem_cons_self
      rw [map_cons, set_cons_succ, foldlM_cons, decodeChunk_closed hlen hvals]
      exact ih (fun vs' hvs' => h vs' (mem_cons_of_mem vs hvs')) (Nat.lt_of_succ_lt_succ hj)

end Groups

/-! ### The bits -/

section Bits

variable (id : DeviceId)

def number : ℕ := ofDigits 256 (id.bytes.map UInt8.toNat)

lemma bytes_lt : ∀ v ∈ id.bytes.map UInt8.toNat, v < 256 := by
  intro v hv
  obtain ⟨c, -, rfl⟩ := mem_map.1 hv
  exact c.toNat_lt

lemma number_lt : id.number < 256 ^ 32 := by
  have h := ofDigits_lt (bytes_lt id)
  rwa [length_map, id.length_eq] at h

lemma values_eq : values id = digits 32 52 (id.number * 16) := by
  have h := holds_foldl (i := 8) (o := 5) (by decide) (by decide) (bytes_lt id)
  rw [length_map, id.length_eq] at h
  obtain ⟨hbuffer, hbits, hout⟩ := h
  have hlast : ((id.number % 2 ^ 64) <<< 4) % 2 ^ 64 &&& 31 = id.number * 16 % 32 := by
    have hshift := shift_or (n := id.number) (i := 4) (v := 0) (by decide) (by decide)
    rw [Nat.or_zero, Nat.add_zero] at hshift
    rw [hshift, Nat.and_two_pow_sub_one_eq_mod _ 5]
    omega
  have hfirst : id.number * 16 / 32 = id.number / 2 := by omega
  have hsplit : digits 32 52 (id.number * 16) = digits 32 51 (id.number / 2) ++ [id.number * 16 % 32] := by
    rw [digits, hfirst]
  unfold values
  simp only [hbuffer, hbits, hout]
  rw [if_pos (by decide), hsplit, ← hlast]
  rfl

lemma values_lt : ∀ v ∈ values id, v < 32 := by
  rw [values_eq]
  exact digits_lt (by decide)

lemma out_values : ((values id).foldl (Repack.push 5 8) Repack.start).out = id.bytes.map UInt8.toNat := by
  have hlt := number_lt id
  have hnum : ofDigits (2 ^ 5) (values id) = id.number * 16 := by
    rw [values_eq]
    exact ofDigits_digits (by omega)
  have hlen : (values id).length = 52 := by rw [values_eq, digits_length]
  have h := (holds_foldl (i := 5) (o := 8) (by decide) (by decide) (values_lt id)).out
  rw [hlen, hnum] at h
  have hshift : id.number * 16 / 2 ^ (5 * 52 % 8) = id.number := Nat.mul_div_cancel _ (by decide)
  have hbytes := digits_ofDigits (bytes_lt id)
  rw [length_map, id.length_eq] at hbytes
  rw [h, hshift]
  exact hbytes

lemma ofOut_bytes : ofOut (id.bytes.map UInt8.toNat) = id := by
  have hmap : (id.bytes.map UInt8.toNat).map UInt8.ofNat = id.bytes := by
    rw [map_map]
    refine (map_congr_left fun c _ => ?_).trans (map_id _)
    exact UInt8.ofNat_toNat
  refine DeviceId.ext ?_
  simp only [ofOut]
  rw [hmap, take_left' id.length_eq]

end Bits

/-! ### Texts -/

section Texts

variable (id : DeviceId)

def groups : List (List ℕ) := chunksExact 13 4 (values id)

def characters : Bytes := ((groups id).map closed).flatten

lemma groups_spec : ∀ vs ∈ groups id, vs.length = 13 ∧ ∀ v ∈ vs, v < 32 := by
  have hlen : (values id).length = 52 := by rw [values_eq, digits_length]
  intro vs hvs
  refine ⟨length_of_mem_chunksExact (by omega) vs hvs, fun v hv => values_lt id v ?_⟩
  rw [← flatten_chunksExact (show (values id).length = 13 * 4 from hlen)]
  exact mem_flatten.2 ⟨vs, hvs, hv⟩

lemma length_groups : (groups id).length = 4 := length_chunksExact

lemma length_of_mem_closed : ∀ g ∈ (groups id).map closed, g.length = 14 := by
  intro g hg
  obtain ⟨vs, hvs, rfl⟩ := mem_map.1 hg
  exact length_closed (groups_spec id vs hvs).1

lemma chunksExact_characters : chunksExact 14 4 (characters id) = (groups id).map closed := by
  have h := chunksExact_flatten (length_of_mem_closed id)
  rwa [length_map, length_groups] at h

lemma length_characters : (characters id).length = 56 := by
  rw [characters, length_flatten_of_forall (length_of_mem_closed id), length_map, length_groups]

lemma mem_characters {c : UInt8} (hc : c ∈ characters id) : ∃ v < 32, letter v = c := by
  obtain ⟨g, hg, hc⟩ := mem_flatten.1 hc
  obtain ⟨vs, hvs, rfl⟩ := mem_map.1 hg
  rcases mem_append.1 hc with hc | hc
  · obtain ⟨v, hv, rfl⟩ := mem_map.1 hc
    exact ⟨v, (groups_spec id vs hvs).2 v hv, rfl⟩
  · exact ⟨checkValue vs, checkValue_lt vs, (mem_singleton.1 hc).symm⟩

lemma format_eq : format id = .ok (List.intercalate [HYPHEN] (chunksExact 7 8 (characters id))) := by
  have hmap : (chunksExact 13 4 ((values id).map letter)).mapM luhnify = .ok ((groups id).map closed) := by
    rw [chunksExact_map, mapM_eq_ok, forall₂_map_left_iff, groups, forall₂_map_right_iff, forall₂_same]
    intro vs hvs
    rw [luhnify, luhnCheck_letters (groups_spec id vs hvs).2]
    rfl
  rw [format, hmap]
  rfl

lemma clean_format {text : Bytes} (h : format id = .ok text) :
    text.filter (· ≠ HYPHEN) = characters id ∧ clean text = characters id := by
  rw [format_eq] at h
  cases h
  have hflat := flatten_chunksExact (show (characters id).length = 7 * 8 from length_characters id)
  have hfilter : (List.intercalate [HYPHEN] (chunksExact 7 8 (characters id))).filter (· ≠ HYPHEN) = characters id := by
    rw [filter_intercalate, hflat]
    intro g hg hmem
    obtain ⟨v, hv, heq⟩ := mem_characters id (by rw [← hflat]; exact mem_flatten.2 ⟨g, hg, hmem⟩)
    exact letter_ne_hyphen v hv heq
  refine ⟨hfilter, ?_⟩
  rw [clean, hfilter]
  refine (map_congr_left fun c hc => ?_).trans (map_id _)
  obtain ⟨v, hv, rfl⟩ := mem_characters id hc
  exact toAsciiUppercase_letter v hv

lemma fromStr_characters {s : Bytes} (h : clean s = characters id) : fromStr s = .ok id := by
  have hflat : (groups id).flatten = values id :=
    flatten_chunksExact (show (values id).length = 13 * 4 by rw [values_eq, digits_length])
  rw [fromStr, h, length_characters, if_neg (by decide), chunksExact_characters, foldlM_decodeChunk (groups_spec id),
    hflat]
  simp only [Except.map]
  rw [out_values, ofOut_bytes]

lemma fromStr_set {s : Bytes} {k w : ℕ} (hk : k < 56) (hw : w < 32) (hne : (characters id)[k]? ≠ some (letter w))
    (h : clean s = (characters id).set k (letter w)) : fromStr s = .error .invalidCheckDigit := by
  have hlen : ((groups id).map closed).length = 4 := by rw [length_map, length_groups]
  obtain ⟨j, i, g, hj, hi, hget, hset⟩ := set_flatten (length_of_mem_closed id) (show k < 14 * _ by rw [hlen]; exact hk)
  obtain ⟨vs, hvs, rfl⟩ : ∃ vs, (groups id)[j]? = some vs ∧ closed vs = g := by
    rw [getElem?_map] at hj
    exact Option.map_eq_some_iff.1 hj
  have hmem := mem_of_getElem? hvs
  obtain ⟨h13, hvals⟩ := groups_spec id vs hmem
  have hlt : j < (groups id).length := (List.getElem?_eq_some_iff.1 hvs).1
  have hbad : ∀ a, decodeChunk a ((closed vs).set i (letter w)) = .error .invalidCheckDigit := by
    intro a
    refine decodeChunk_set h13 hvals hi hw ?_
    rw [← hget]
    exact hne
  have hchunks : chunksExact 14 4 ((characters id).set k (letter w)) =
      ((groups id).map closed).set j ((closed vs).set i (letter w)) := by
    have hall : ∀ g ∈ ((groups id).map closed).set j ((closed vs).set i (letter w)), g.length = 14 := by
      intro g hg
      rcases mem_or_eq_of_mem_set hg with hg | rfl
      · exact length_of_mem_closed id g hg
      · rw [length_set, length_closed h13]
    have hsplit := chunksExact_flatten hall
    rw [length_set, hlen] at hsplit
    rw [characters, hset, hsplit]
  rw [fromStr, h, length_set, length_characters, if_neg (by decide), hchunks,
    foldlM_decodeChunk_set (groups_spec id) hlt hbad]
  rfl

/-- **The text of a device ID.**  Formatting does not fail and gives 56 characters; every text that differs from
it by hyphens and case is read as the ID; no other ID has the text; and with another letter at any of the 56
places, hyphens and case aside, it is refused. -/
theorem deviceId_text :
    ∃ text, format id = .ok text ∧ (text.filter (· ≠ HYPHEN)).length = 56 ∧
      (∀ s, (s.filter (· ≠ HYPHEN)).map toAsciiUppercase = text.filter (· ≠ HYPHEN) → fromStr s = .ok id) ∧
      (∀ id', format id' = .ok text → id' = id) ∧
      ∀ k y s, k < 56 → y ∈ ALPHABET → (text.filter (· ≠ HYPHEN))[k]? ≠ some y →
        (s.filter (· ≠ HYPHEN)).map toAsciiUppercase = (text.filter (· ≠ HYPHEN)).set k y →
        fromStr s = .error .invalidCheckDigit := by
  obtain ⟨hfilter, hclean⟩ := clean_format id (format_eq id)
  refine ⟨_, format_eq id, ?_, ?_, ?_, ?_⟩
  · rw [hfilter, length_characters]
  · intro s hs
    rw [hfilter] at hs
    exact fromStr_characters id hs
  · intro id' h
    obtain ⟨-, hclean'⟩ := clean_format id' h
    rw [hclean] at hclean'
    have hread := fromStr_characters id hclean
    rw [fromStr_characters id' (hclean.trans hclean')] at hread
    exact Except.ok.inj hread
  · intro k y s hk hy hne hs
    obtain ⟨w, hw, rfl⟩ := exists_letter hy
    rw [hfilter] at hne hs
    exact fromStr_set id hk hw hne hs

end Texts

end DeviceId

end Bepository
