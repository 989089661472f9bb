import Mathlib.Data.List.Basic
import Mathlib.Data.List.Induction
import Mathlib.Data.List.Lex
import Mathlib.Tactic.Ring

/-!
# Fixed-width positional numerals

`digits b w v` is `v` written in base `b` with exactly `w` digits, most significant first, and
`ofDigits b` reads such a list back.  A number that fits is read back, and the lexicographic order of
the digits is the order of the numbers.
-/

namespace Bepository.Lib

open List

/-- The last `w` digits of `v` in base `b`, most significant first. -/
def digits (b : ℕ) : ℕ → ℕ → List ℕ
  | 0, _ => []
  | w + 1, v => digits b w (v / b) ++ [v % b]

/-- The number that a list of digits in base `b` stands for. -/
def ofDigits (b : ℕ) (ds : List ℕ) : ℕ := ds.foldl (fun acc d => acc * b + d) 0

section Digits

variable {b w u v : ℕ}

@[simp] lemma digits_length : (digits b w v).length = w := by
  induction w generalizing v with
  | zero => rfl
  | succ w ih => simp [digits, ih]

lemma digits_lt (hb : 0 < b) : ∀ d ∈ digits b w v, d < b := by
  induction w generalizing v with
  | zero => simp [digits]
  | succ w ih =>
    intro d hd
    rcases mem_append.1 hd with h | h
    · exact ih d h
    · rw [mem_singleton.1 h]
      exact Nat.mod_lt v hb

lemma ofDigits_concat (ds : List ℕ) (d : ℕ) : ofDigits b (ds ++ [d]) = ofDigits b ds * b + d := by
  simp [ofDigits]

theorem ofDigits_digits (hv : v < b ^ w) : ofDigits b (digits b w v) = v := by
  induction w generalizing v with
  | zero => simp at hv; simp [hv, digits, ofDigits]
  | succ w ih =>
    have hlt : v / b < b ^ w := Nat.div_lt_of_lt_mul (by rwa [pow_succ, mul_comm] at hv)
    rw [digits, ofDigits_concat, ih hlt]
    exact Nat.div_add_mod' v b

lemma digits_inj (hu : u < b ^ w) (hv : v < b ^ w) (h : digits b w u = digits b w v) : u = v := by
  rw [← ofDigits_digits hu, h, ofDigits_digits hv]

lemma digits_ofDigits {ds : List ℕ} (h : ∀ d ∈ ds, d < b) : digits b ds.length (ofDigits b ds) = ds := by
  induction ds using List.reverseRecOn with
  | nil => rfl
  | append_singleton ds d ih =>
    have hd : d < b := h d (by simp)
    have hdiv : (ofDigits b ds * b + d) / b = ofDigits b ds := by
      rw [mul_comm, Nat.mul_add_div (by omega), Nat.div_eq_of_lt hd, Nat.add_zero]
    have hmod : (ofDigits b ds * b + d) % b = d := by
      rw [mul_comm, Nat.mul_add_mod, Nat.mod_eq_of_lt hd]
    rw [length_append, length_singleton, digits, ofDigits_concat, hdiv, hmod,
      ih fun d' hd' => h d' (mem_append_left _ hd')]

lemma ofDigits_lt {ds : List ℕ} (h : ∀ d ∈ ds, d < b) : ofDigits b ds < b ^ ds.length := by
  induction ds using List.reverseRecOn with
  | nil => simp [ofDigits]
  | append_singleton ds d ih =>
    have hd : d < b := h d (by simp)
    have hlt := ih fun d' hd' => h d' (mem_append_left _ hd')
    rw [ofDigits_concat, length_append, length_singleton, pow_succ]
    calc ofDigits b ds * b + d < (ofDigits b ds + 1) * b := by rw [Nat.add_mul]; omega
      _ ≤ b ^ ds.length * b := Nat.mul_le_mul_right b hlt

/-- The first digits are those of what is left of a number without its last ones. -/
lemma digits_add (m : ℕ) : digits b (w + m) v = digits b w (v / b ^ m) ++ digits b m v := by
  induction m generalizing v with
  | zero => simp [digits]
  | succ m ih =>
    rw [← Nat.add_assoc, digits, digits, ih, Nat.div_div_eq_div_mul, ← append_assoc, pow_succ, mul_comm]

lemma digits_congr (h : u % b ^ w = v % b ^ w) : digits b w u = digits b w v := by
  induction w generalizing u v with
  | zero => rfl
  | succ w ih =>
    rw [pow_succ, mul_comm] at h
    have hdiv : u / b % b ^ w = v / b % b ^ w := by
      rw [← Nat.mod_mul_right_div_self, h, Nat.mod_mul_right_div_self]
    have hmod : u % b = v % b := by
      rw [← Nat.mod_mul_right_mod u b (b ^ w), h, Nat.mod_mul_right_mod]
    rw [digits, digits, ih hdiv, hmod]

/-- For words of one length, the last letters decide only between equal words before them. -/
lemma concat_lt_concat_iff {as cs : List ℕ} (hl : as.length = cs.length) (x y : ℕ) :
    as ++ [x] < cs ++ [y] ↔ as < cs ∨ as = cs ∧ x < y := by
  induction as generalizing cs with
  | nil =>
    obtain rfl : cs = [] := length_eq_zero_iff.1 hl.symm
    simp [cons_lt_cons_iff]
  | cons a as ih =>
    cases cs with
    | nil => simp at hl
    | cons =>
      simp only [cons_append, cons_lt_cons_iff, List.cons.injEq, ih (Nat.succ.inj hl)]
      tauto

/-- The order of two words is that of their images, whatever follows. -/
lemma map_append_lt_map_append {f : ℕ → ℕ} {as cs t t' : List ℕ} (hl : as.length = cs.length)
    (hf : ∀ x ∈ as, ∀ y ∈ cs, x < y → f x < f y) (h : as < cs) : as.map f ++ t < cs.map f ++ t' := by
  induction as generalizing cs with
  | nil =>
    obtain rfl : cs = [] := length_eq_zero_iff.1 hl.symm
    exact absurd h (List.lt_irrefl _)
  | cons a as ih =>
    cases cs with
    | nil => cases hl
    | cons c =>
      simp only [map_cons, cons_append, cons_lt_cons_iff] at h ⊢
      rcases h with h | ⟨rfl, h⟩
      · exact .inl (hf a mem_cons_self c mem_cons_self h)
      · refine .inr ⟨rfl, ih (Nat.succ.inj hl) (fun x hx y hy => ?_) h⟩
        exact hf x (mem_cons_of_mem _ hx) y (mem_cons_of_mem _ hy)

/-- Between words of one length that differ, what follows does not matter. -/
lemma append_lt_append_of_lt {as cs xs ys : List ℕ} (hl : as.length = cs.length) (h : as < cs) :
    as ++ xs < cs ++ ys := by
  simpa using map_append_lt_map_append (f := id) hl (fun _ _ _ _ hlt => hlt) h

/-- The lexicographic order of the digits is the order of the numbers. -/
theorem digits_lt_digits_iff (hu : u < b ^ w) (hv : v < b ^ w) : digits b w u < digits b w v ↔ u < v := by
  induction w generalizing u v with
  | zero => simp at hu hv; simp [digits, hu, hv]
  | succ w ih =>
    have hu' : u / b < b ^ w := Nat.div_lt_of_lt_mul (by rwa [pow_succ, mul_comm] at hu)
    have hv' : v / b < b ^ w := Nat.div_lt_of_lt_mul (by rwa [pow_succ, mul_comm] at hv)
    have hb : 0 < b := Nat.pos_of_ne_zero fun h => by simp [h] at hu
    have hdu := Nat.div_add_mod u b
    have hdv := Nat.div_add_mod v b
    have hmu := Nat.mod_lt u hb
    have hmv := Nat.mod_lt v hb
    rw [digits, digits, concat_lt_concat_iff (by simp), ih hu' hv']
    constructor
    · rintro (h | ⟨he, h⟩)
      · exact lt_of_not_ge fun hge => absurd (Nat.div_le_div_right (c := b) hge) (by omega)
      · rw [digits_inj hu' hv' he] at hdu
        omega
    · intro h
      rcases lt_or_eq_of_le (Nat.div_le_div_right (c := b) h.le) with hlt | heq
      · exact .inl hlt
      · rw [heq] at hdu
        exact .inr ⟨by rw [heq], by omega⟩

lemma map_toNat_digits : ((digits 256 w v).map UInt8.ofNat).map UInt8.toNat = digits 256 w v := by
  rw [map_map]
  refine (map_congr_left fun d hd => ?_).trans (map_id _)
  have hlt : d < 256 := digits_lt (by decide) d hd
  simp only [Function.comp_apply, UInt8.toNat_ofNat', id_eq]
  omega

end Digits

lemma char_toNat_lt (c : Char) : c.toNat < 0x110000 := by
  rcases c.valid with h | h <;> simp only [Char.toNat, UInt32.toNat] at * <;> omega

end Bepository.Lib
