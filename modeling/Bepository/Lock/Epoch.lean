import Mathlib.Tactic.DeriveFintype
import Bepository.Lib.Digits

/-!
# Lock epochs (`bepository-lock/src/base32.rs`, `epoch.rs`)

An epoch is a 40-bit number, written as eight Crockford Base32 characters in the name of an epoch
file and in the key of an inbox entry.  Strings are lists of characters throughout.
-/

namespace Bepository

abbrev Str := List Char

namespace Lock

open Lib List Option

/-! ### Crockford Base32 -/

def ALPHABET : List Char :=
  ['0', '1', '2', '3', '4', '5', '6', '7', '8', '9', 'A', 'B', 'C', 'D', 'E', 'F',
   'G', 'H', 'J', 'K', 'M', 'N', 'P', 'Q', 'R', 'S', 'T', 'V', 'W', 'X', 'Y', 'Z']

def MAX_VAL : ℕ := 2 ^ 40 - 1

inductive Base32Error where
  | overflow (val : ℕ)
  deriving DecidableEq, Repr

def digitChar (d : ℕ) : Char := ALPHABET.getD d '0'

def charDigit (c : Char) : Option ℕ := ALPHABET.findIdx? (· == c)

def toBase32 (val : ℕ) : Except Base32Error Str :=
  if val > MAX_VAL then .error (.overflow val) else .ok ((digits 32 8 val).map digitChar)

def jsonSuffix : Str := ['.', 'j', 's', 'o', 'n']

/-- `strip_suffix(".json").unwrap_or(s)`. -/
def stripJson (s : Str) : Str :=
  if jsonSuffix.isSuffixOf s then s.take (s.length - jsonSuffix.length) else s

def utf8Len (s : Str) : ℕ := (s.map Char.utf8Size).sum

def fromBase32 (s : Str) : Option ℕ :=
  let s := stripJson s
  if utf8Len s ≠ 8 then none else (s.mapM charDigit).map (ofDigits 32)

/-! ### Epochs -/

/-- A lock epoch: a number that fits in eight Base32 characters. -/
@[ext] structure Epoch where
  val : ℕ
  lt : val < 2 ^ 40
  deriving DecidableEq, Repr

namespace Epoch

def new (val : ℕ) : Except Base32Error Epoch :=
  if h : val < 2 ^ 40 then .ok ⟨val, h⟩ else .error (.overflow val)

def asBase32 (e : Epoch) : Str := (digits 32 8 e.val).map digitChar

def jsonFilename (e : Epoch) : Str := e.asBase32 ++ jsonSuffix

def parse (s : Str) : Option Epoch :=
  (fromBase32 s).bind fun val => (new val).toOption

instance : LinearOrder Epoch :=
  LinearOrder.lift' Epoch.val fun _ _ h => Epoch.ext h

lemma lt_iff {a b : Epoch} : a < b ↔ a.val < b.val := Iff.rfl

lemma le_iff {a b : Epoch} : a ≤ b ↔ a.val ≤ b.val := Iff.rfl

lemma new_eq_ok {v : ℕ} {e : Epoch} : new v = .ok e ↔ e.val = v := by
  unfold new
  split
  · constructor
    · intro h
      cases h
      rfl
    · rintro rfl
      rfl
  · next h =>
    constructor
    · intro h'
      cases h'
    · rintro rfl
      exact absurd e.lt h

lemma new_eq_toBase32 (v : ℕ) : (new v).map asBase32 = toBase32 v := by
  unfold new toBase32 MAX_VAL
  by_cases h : v < 2 ^ 40
  · rw [dif_pos h, if_neg (by omega)]
    rfl
  · rw [dif_neg h, if_pos (by omega)]
    rfl

end Epoch

/-! ### Round trips -/

lemma charDigit_digitChar : ∀ d < 32, charDigit (digitChar d) = some d := by decide

lemma mapM_charDigit {ds : List ℕ} (h : ∀ d ∈ ds, d < 32) : (ds.map digitChar).mapM charDigit = some ds := by
  induction ds with
  | nil => rfl
  | cons d ds ih =>
    rw [map_cons, mapM_cons, charDigit_digitChar d (h d (by simp)), ih fun d hd => h d (by simp [hd])]
    rfl

lemma utf8Size_digitChar : ∀ d < 32, (digitChar d).utf8Size = 1 := by decide

lemma digitChar_ne_n : ∀ d < 32, digitChar d ≠ 'n' := by decide

lemma utf8Len_map_digitChar {ds : List ℕ} (h : ∀ d ∈ ds, d < 32) : utf8Len (ds.map digitChar) = ds.length := by
  induction ds with
  | nil => rfl
  | cons d ds ih =>
    have hd := utf8Size_digitChar d (h d (by simp))
    have ih := ih fun d hd => h d (by simp [hd])
    unfold utf8Len at ih ⊢
    simp only [map_cons, sum_cons, length_cons, hd, ih]
    omega

lemma stripJson_jsonFilename (e : Epoch) : stripJson e.jsonFilename = e.asBase32 := by
  unfold stripJson Epoch.jsonFilename
  rw [if_pos (isSuffixOf_iff_suffix.2 (suffix_append _ _))]
  simp

lemma stripJson_asBase32 (e : Epoch) : stripJson e.asBase32 = e.asBase32 := by
  unfold stripJson
  rw [if_neg]
  intro h
  obtain ⟨t, ht⟩ := isSuffixOf_iff_suffix.1 h
  have hn : 'n' ∈ e.asBase32 := by
    rw [← ht]
    simp [jsonSuffix]
  obtain ⟨d, hd, hc⟩ := mem_map.1 hn
  exact digitChar_ne_n d (digits_lt (by norm_num) d hd) hc

lemma fromBase32_of_stripJson {s : Str} {e : Epoch} (h : stripJson s = e.asBase32) :
    fromBase32 s = some e.val := by
  have hlt : ∀ d ∈ digits 32 8 e.val, d < 32 := digits_lt (by norm_num)
  unfold fromBase32
  simp only [h]
  unfold Epoch.asBase32
  rw [utf8Len_map_digitChar hlt, digits_length, mapM_charDigit hlt, if_neg (by simp),
    map_some, ofDigits_digits (by have := e.lt; norm_num at this ⊢; exact this)]

/-- **Round trip**: an epoch is read back from its characters, with or without the suffix. -/
theorem Epoch.parse_of_stripJson {s : Str} {e : Epoch} (h : stripJson s = e.asBase32) :
    Epoch.parse s = some e := by
  unfold Epoch.parse
  rw [fromBase32_of_stripJson h, bind_some, Epoch.new_eq_ok.2 rfl]
  rfl

theorem Epoch.parse_asBase32 (e : Epoch) : Epoch.parse e.asBase32 = some e :=
  Epoch.parse_of_stripJson (stripJson_asBase32 e)

lemma Epoch.asBase32_inj {a b : Epoch} (h : a.asBase32 = b.asBase32) : a = b := by
  have ha := Epoch.parse_asBase32 a
  rw [h, Epoch.parse_asBase32 b] at ha
  exact (Option.some.inj ha).symm

end Lock

export Lock (Epoch)

end Bepository
