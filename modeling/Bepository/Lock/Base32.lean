import Bepository.Lock.Epoch

/-!
# Base32 in machine words (`bepository-lock/src/base32.rs`)

The two loops as the code runs them, on 64-bit words: `to_base32` takes five bits at a time from the low end and
reverses the characters, and `from_base32` shifts them in from the other end.  They compute the numerals of
`Epoch`; and the eight characters of a number are the only ones that are read as that number.
-/

namespace Bepository.Lock

open Lib List Option

/-! ### The loops -/

namespace Word

def MAX_VAL : UInt64 := ((1 : UInt64) <<< 40) - 1

/-- The loop of `to_base32`: so many characters, the last one first. -/
def pushChars : ℕ → UInt64 → Str
  | 0, _ => []
  | n + 1, val => digitChar (val &&& 0x1F).toNat :: pushChars n (val >>> 5)

def toBase32 (val : UInt64) : Except Base32Error Str :=
  if val > MAX_VAL then .error (.overflow val.toNat) else .ok (pushChars 8 val).reverse

/-- The loop of `from_base32`. -/
def readChars (val : UInt64) : Str → Option UInt64
  | [] => some val
  | c :: s => (charDigit c).bind fun idx => readChars (val <<< 5 ||| UInt64.ofNat idx) s

def fromBase32 (s : Str) : Option UInt64 :=
  let s := stripJson s
  if utf8Len s ≠ 8 then none else readChars 0 s

end Word

/-! ### Characters and digits -/

section Chars

variable {c : Char} {d : ℕ} {s : Str} {ds : List ℕ}

lemma charDigit_eq_some (h : charDigit c = some d) : d < 32 ∧ digitChar d = c := by
  obtain ⟨hlt, hc, -⟩ := findIdx?_eq_some_iff_getElem.1 h
  refine ⟨hlt, ?_⟩
  unfold digitChar
  rw [getD_eq_getElem?_getD, getElem?_eq_getElem hlt]
  exact eq_of_beq hc

lemma mapM_charDigit_eq_some (h : s.mapM charDigit = some ds) : (∀ d ∈ ds, d < 32) ∧ s = ds.map digitChar := by
  induction s generalizing ds with
  | nil =>
    cases h
    exact ⟨by simp, rfl⟩
  | cons c s ih =>
    rw [mapM_cons] at h
    obtain ⟨d, hd, h⟩ := bind_eq_some_iff.1 h
    obtain ⟨ds', hs, h⟩ := bind_eq_some_iff.1 h
    cases h
    obtain ⟨hlt, hc⟩ := charDigit_eq_some hd
    obtain ⟨hall, rfl⟩ := ih hs
    rw [map_cons, hc]
    exact ⟨forall_mem_cons.2 ⟨hlt, hall⟩, rfl⟩

lemma length_le_utf8Len : s.length ≤ utf8Len s := by
  unfold utf8Len
  induction s with
  | nil => rfl
  | cons c =>
    have hpos := c.utf8Size_pos
    simp only [map_cons, sum_cons, length_cons]
    omega

lemma eq_of_stripJson {t : Str} (h : stripJson s = t) : s = t ∨ s = t ++ jsonSuffix := by
  unfold stripJson at h
  split_ifs at h with hs
  · obtain ⟨u, rfl⟩ := isSuffixOf_iff_suffix.1 hs
    rw [length_append, Nat.add_sub_cancel, take_left] at h
    exact .inr (by rw [h])
  · exact .inl h

/-- **Only the characters of a number are read as it**, with or without the suffix. -/
theorem fromBase32_eq_some {v : ℕ} (h : fromBase32 s = some v) :
    ∃ e : Epoch, e.val = v ∧ (s = e.asBase32 ∨ s = e.jsonFilename) := by
  unfold fromBase32 at h
  simp only at h
  split_ifs at h with hlen
  obtain ⟨ds, hds, rfl⟩ := map_eq_some_iff.1 h
  obtain ⟨hlt, hs⟩ := mapM_charDigit_eq_some hds
  have height : ds.length = 8 := by
    rw [← utf8Len_map_digitChar hlt, ← hs]
    exact not_not.1 hlen
  have hval : ofDigits 32 ds < 2 ^ 40 := by
    have hbound := ofDigits_lt hlt
    rw [height] at hbound
    exact hbound
  refine ⟨⟨ofDigits 32 ds, hval⟩, rfl, ?_⟩
  have hchars : stripJson s = Epoch.asBase32 ⟨ofDigits 32 ds, hval⟩ := by
    unfold Epoch.asBase32
    rw [hs, ← height, digits_ofDigits hlt]
  exact eq_of_stripJson hchars

lemma Epoch.eq_of_parse {e : Epoch} (h : Epoch.parse s = some e) : s = e.asBase32 ∨ s = e.jsonFilename := by
  obtain ⟨v, hv, hnew⟩ := bind_eq_some_iff.1 h
  obtain ⟨e', rfl, hs⟩ := fromBase32_eq_some hv
  rw [Epoch.new_eq_ok.2 rfl] at hnew
  cases hnew
  exact hs

end Chars

/-! ### The loops compute the numerals -/

namespace Word

variable {val : UInt64} {s : Str}

lemma toNat_mask : (val &&& 0x1F).toNat = val.toNat % 32 := by
  rw [UInt64.toNat_and]
  exact Nat.and_two_pow_sub_one_eq_mod val.toNat 5

lemma toNat_shift : (val >>> 5).toNat = val.toNat / 32 := by
  rw [UInt64.toNat_shiftRight]
  exact Nat.shiftRight_eq_div_pow val.toNat 5

lemma reverse_pushChars (n : ℕ) : (pushChars n val).reverse = (digits 32 n val.toNat).map digitChar := by
  induction n generalizing val with
  | zero => rfl
  | succ n ih =>
    rw [pushChars, reverse_cons, ih, toNat_mask, toNat_shift, digits, map_append]
    rfl

lemma toBase32_eq : toBase32 val = Lock.toBase32 val.toNat := by
  have hmax : val > MAX_VAL ↔ val.toNat > Lock.MAX_VAL := UInt64.lt_iff_toNat_lt
  unfold toBase32 Lock.toBase32
  simp only [reverse_pushChars, hmax]

lemma toNat_push {idx : ℕ} (hidx : idx < 32) (hval : val.toNat * 32 < 2 ^ 64) :
    (val <<< 5 ||| UInt64.ofNat idx).toNat = val.toNat * 32 + idx := by
  have hshift : (val <<< 5).toNat = val.toNat <<< 5 := by
    rw [UInt64.toNat_shiftLeft, Nat.shiftLeft_eq, Nat.shiftLeft_eq]
    exact Nat.mod_eq_of_lt hval
  have hofNat : (UInt64.ofNat idx).toNat = idx := UInt64.toNat_ofNat_of_lt' (hidx.trans (by decide))
  rw [UInt64.toNat_or, hshift, hofNat, ← Nat.shiftLeft_add_eq_or_of_lt hidx, Nat.shiftLeft_eq]

lemma readChars_eq (h : (val.toNat + 1) * 32 ^ s.length ≤ 2 ^ 64) : (readChars val s).map UInt64.toNat =
    (s.mapM charDigit).map (List.foldl (fun acc d => acc * 32 + d) val.toNat) := by
  induction s generalizing val with
  | nil => rfl
  | cons c s ih =>
    rw [readChars, mapM_cons]
    cases hc : charDigit c with
    | none => rfl
    | some d =>
      have hd := (charDigit_eq_some hc).1
      rw [length_cons, pow_succ, mul_comm (32 ^ s.length), ← mul_assoc] at h
      have hone : 1 ≤ 32 ^ s.length := Nat.one_le_two_pow.trans (Nat.pow_le_pow_left (by decide) _)
      have hroom : (val.toNat + 1) * 32 ≤ 2 ^ 64 := le_trans (Nat.le_mul_of_pos_right _ hone) h
      have hpush := toNat_push hd (show val.toNat * 32 < 2 ^ 64 by omega)
      have hnext : ((val <<< 5 ||| UInt64.ofNat d).toNat + 1) * 32 ^ s.length ≤ 2 ^ 64 := by
        rw [hpush]
        exact (Nat.mul_le_mul_right _ (by omega)).trans h
      rw [bind_some, ih hnext, hpush]
      cases s.mapM charDigit <;> rfl

lemma fromBase32_eq : (fromBase32 s).map UInt64.toNat = Lock.fromBase32 s := by
  unfold fromBase32 Lock.fromBase32
  simp only
  split_ifs with hlen
  · rfl
  · have hle : (stripJson s).length ≤ 8 := by
      have := length_le_utf8Len (s := stripJson s)
      omega
    refine readChars_eq (le_trans (Nat.mul_le_mul_left _ (Nat.pow_le_pow_right (by decide) hle)) ?_)
    decide

lemma fromBase32_eq_some_iff : fromBase32 s = some val ↔ Lock.fromBase32 s = some val.toNat := by
  rw [← fromBase32_eq]
  constructor
  · intro h
    rw [h]
    rfl
  · intro h
    obtain ⟨v, hv, he⟩ := map_eq_some_iff.1 h
    rw [hv, UInt64.toNat_inj.1 he]

lemma toBase32_ok (h : val.toNat < 2 ^ 40) : toBase32 val = .ok (Epoch.asBase32 ⟨val.toNat, h⟩) := by
  have hnew : Epoch.new val.toNat = .ok ⟨val.toNat, h⟩ := Epoch.new_eq_ok.2 rfl
  rw [toBase32_eq, ← Epoch.new_eq_toBase32, hnew]
  rfl

end Word

end Bepository.Lock
