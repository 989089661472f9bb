import Bepository.Lib.Digits

/-!
# Regrouping bits

A bit accumulator takes values of `i` bits and gives values of `o` bits: each value is shifted into a word of
64 bits, and while enough bits are there, the highest go out.  The bits that go out are the digits in base
`2 ^ o` of the number that came in, and the rest stays in the word.

* `Repack.push` — one value comes in;
* `Repack.Holds` — what the accumulator has, in terms of the number that came in;
* `holds_foldl` — it has that after any values.
-/

namespace Bepository.Lib

open List

/-- A word, of which the lowest `bits` have not gone out yet, and what has gone out. -/
structure Repack where
  buffer : ℕ
  bits : ℕ
  out : List ℕ

def Repack.start : Repack := ⟨0, 0, []⟩

/-- While there are `o` bits, the highest go out. -/
def drain (o buffer bits : ℕ) (out : List ℕ) : ℕ × List ℕ :=
  if 0 < o ∧ o ≤ bits then drain o buffer (bits - o) (out ++ [buffer >>> (bits - o) &&& (2 ^ o - 1)])
  else (bits, out)
termination_by bits

/-- A value of `i` bits comes in. -/
def Repack.push (i o : ℕ) (a : Repack) (v : ℕ) : Repack :=
  let buffer := (a.buffer <<< i) % 2 ^ 64 ||| v
  let left := drain o buffer (a.bits + i) a.out
  ⟨buffer, left.1, left.2⟩

/-- The accumulator has got `len` bits, the number `n`. -/
structure Repack.Holds (o : ℕ) (a : Repack) (len n : ℕ) : Prop where
  buffer : a.buffer = n % 2 ^ 64
  bits : a.bits = len % o
  out : a.out = digits (2 ^ o) (len / o) (n / 2 ^ (len % o))

section Regroup

variable {i o len n v : ℕ} {a : Repack}

lemma shift_or (hi : i ≤ 64) (hv : v < 2 ^ i) : ((n % 2 ^ 64) <<< i) % 2 ^ 64 ||| v = (n * 2 ^ i + v) % 2 ^ 64 := by
  have hpow : 2 ^ 64 = 2 ^ i * 2 ^ (64 - i) := by
    rw [← pow_add]
    congr 1
    omega
  have hpos : 0 < 2 ^ i := Nat.two_pow_pos i
  have hshift : ((n % 2 ^ 64) <<< i) % 2 ^ 64 = (n % 2 ^ (64 - i)) <<< i := by
    rw [Nat.shiftLeft_eq, Nat.mod_mul_mod, Nat.shiftLeft_eq, hpow, mul_comm n, Nat.mul_mod_mul_left, mul_comm]
  have hdiv : (n * 2 ^ i + v) / 2 ^ i = n := by
    rw [mul_comm, Nat.mul_add_div hpos, Nat.div_eq_of_lt hv, Nat.add_zero]
  have hmod : (n * 2 ^ i + v) % 2 ^ i = v := by
    rw [mul_comm, Nat.mul_add_mod, Nat.mod_eq_of_lt hv]
  rw [hshift, ← Nat.shiftLeft_add_eq_or_of_lt hv, Nat.shiftLeft_eq, hpow, Nat.mod_mul, hdiv, hmod]
  ring

/-- What goes out are the highest digits of the bits that are there. -/
lemma drain_eq (ho : 0 < o) (buffer bits : ℕ) (out : List ℕ) :
    drain o buffer bits out = (bits % o, out ++ digits (2 ^ o) (bits / o) (buffer / 2 ^ (bits % o))) := by
  induction bits using Nat.strong_induction_on generalizing out with
  | _ bits ih =>
    rw [drain]
    split_ifs with h
    · have hlt : bits - o < bits := by omega
      have hmod : (bits - o) % o = bits % o := (Nat.mod_eq_sub_mod h.2).symm
      have hdiv : bits / o = 1 + (bits - o) / o := by
        rw [Nat.div_eq_sub_div ho h.2, Nat.add_comm]
      have hexp : bits % o + o * ((bits - o) / o) = bits - o := by
        rw [← hmod]
        exact Nat.mod_add_div (bits - o) o
      have hfirst : digits (2 ^ o) 1 (buffer / 2 ^ (bits % o) / (2 ^ o) ^ ((bits - o) / o)) =
          [buffer >>> (bits - o) &&& (2 ^ o - 1)] := by
        rw [Nat.div_div_eq_div_mul, ← pow_mul, ← pow_add, hexp, Nat.and_two_pow_sub_one_eq_mod,
          Nat.shiftRight_eq_div_pow]
        simp [digits]
      rw [ih (bits - o) hlt, hmod, hdiv, digits_add, hfirst, append_assoc]
    · have hlt : bits < o := by omega
      rw [Nat.mod_eq_of_lt hlt, Nat.div_eq_of_lt hlt]
      simp [digits]

lemma holds_start : Repack.start.Holds o 0 0 := by
  refine ⟨rfl, (Nat.zero_mod o).symm, ?_⟩
  rw [Nat.zero_div]
  rfl

lemma Repack.Holds.push (h : a.Holds o len n) (ho : 0 < o) (hio : i + o ≤ 64) (hv : v < 2 ^ i) :
    (a.push i o v).Holds o (len + i) (n * 2 ^ i + v) := by
  have hrest := Nat.mod_lt len ho
  -- the bits in the word: what was left, and what came in
  generalize hbits : len % o + i = bits
  have hmod : (len + i) % o = bits % o := by rw [← hbits, Nat.mod_add_mod]
  have hdiv : (len + i) / o = len / o + bits / o := by
    have hlen := Nat.mod_add_div len o
    have hsplit : len + i = bits + o * (len / o) := by omega
    rw [hsplit, Nat.add_mul_div_left _ _ ho, Nat.add_comm]
  have hexp : bits % o + o * (bits / o) = bits := Nat.mod_add_div bits o
  have hword : (a.buffer <<< i) % 2 ^ 64 ||| v = (n * 2 ^ i + v) % 2 ^ 64 := by
    rw [h.buffer, shift_or (by omega) hv]
  generalize hn : n * 2 ^ i + v = n' at hword ⊢
  have hold : n' / 2 ^ (bits % o) / (2 ^ o) ^ (bits / o) = n / 2 ^ (len % o) := by
    have hshift : n' / 2 ^ i = n := by
      rw [← hn, mul_comm, Nat.mul_add_div (Nat.two_pow_pos i), Nat.div_eq_of_lt hv, Nat.add_zero]
    rw [Nat.div_div_eq_div_mul, ← pow_mul, ← pow_add, hexp, ← hbits, Nat.add_comm, pow_add,
      ← Nat.div_div_eq_div_mul, hshift]
  have hnew : digits (2 ^ o) (bits / o) (n' % 2 ^ 64 / 2 ^ (bits % o)) =
      digits (2 ^ o) (bits / o) (n' / 2 ^ (bits % o)) := by
    -- the bits that go out are within the word
    have hpow : 2 ^ 64 = 2 ^ (bits % o) * 2 ^ (64 - bits % o) := by
      rw [← pow_add]
      congr 1
      omega
    refine digits_congr ?_
    rw [hpow, Nat.mod_mul_right_div_self, ← pow_mul]
    exact Nat.mod_mod_of_dvd _ (pow_dvd_pow 2 (by omega))
  unfold Repack.push
  simp only [hword, h.bits, hbits, drain_eq ho]
  refine ⟨rfl, hmod.symm, ?_⟩
  simp only [hmod, hdiv, h.out]
  rw [digits_add, hold, hnew]

lemma Repack.Holds.foldl (h : a.Holds o len n) (ho : 0 < o) (hio : i + o ≤ 64) {vs : List ℕ} (hv : ∀ v ∈ vs, v < 2 ^ i) :
    (vs.foldl (Repack.push i o) a).Holds o (len + i * vs.length) (vs.foldl (fun acc v => acc * 2 ^ i + v) n) := by
  induction vs generalizing a len n with
  | nil => simpa using h
  | cons v vs ih =>
    have hpush := h.push ho hio (hv v mem_cons_self)
    have hrest := ih hpush fun v' hv' => hv v' (mem_cons_of_mem v hv')
    rw [length_cons, Nat.mul_succ, Nat.add_comm _ i, ← Nat.add_assoc]
    exact hrest

/-- **What has gone out** after values of `i` bits are the digits of their number. -/
theorem holds_foldl (ho : 0 < o) (hio : i + o ≤ 64) {vs : List ℕ} (hv : ∀ v ∈ vs, v < 2 ^ i) :
    (vs.foldl (Repack.push i o) Repack.start).Holds o (i * vs.length) (ofDigits (2 ^ i) vs) := by
  have h := holds_start.foldl ho hio hv
  rw [Nat.zero_add] at h
  exact h

end Regroup

end Bepository.Lib
