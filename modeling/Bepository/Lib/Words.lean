import Mathlib.Data.List.Basic
import Mathlib.Data.List.DropRight
import Mathlib.Data.List.Infix

/-!
# Words with a separator

`rsplitOnce c l` cuts a word at the last occurrence of the letter `c`, and `rsplitOnceAt sep l` at the
last occurrence of the word `sep`; `splitOnce c l` cuts at the first `c`, `splitn c n l` at the first
occurrences of `c`, into `n` parts at most, and `trimMatches c l` drops `c` at both ends.  A range of a word is a
`take` after a `drop`; the section about ranges says what it is in a concatenation.  `chunksExact n k l` cuts a word
into `k` chunks of one length.
-/

namespace Bepository.Lib

open List

section Words

variable {α : Type*} [DecidableEq α]

/-- The parts before and after the last `c`. -/
def rsplitOnce (c : α) : List α → Option (List α × List α)
  | [] => none
  | x :: xs =>
    match rsplitOnce c xs with
    | some (a, b) => some (x :: a, b)
    | none => if x = c then some ([], xs) else none

variable {c : α} {l a b : List α}

lemma rsplitOnce_eq_none : rsplitOnce c l = none ↔ c ∉ l := by
  induction l with
  | nil => simp [rsplitOnce]
  | cons x xs ih =>
    unfold rsplitOnce
    cases h : rsplitOnce c xs with
    | some =>
      have hmem : c ∈ xs := by
        by_contra hn
        rw [ih.2 hn] at h
        cases h
      simp [hmem]
    | none =>
      have hmem : c ∉ xs := ih.1 h
      by_cases hx : x = c
      · simp [hx]
      · simp [hx, hmem, Ne.symm hx]

lemma rsplitOnce_eq_some (h : rsplitOnce c l = some (a, b)) : l = a ++ c :: b ∧ c ∉ b := by
  induction l generalizing a with
  | nil => cases h
  | cons x xs ih =>
    unfold rsplitOnce at h
    split at h
    · next a' b' h' =>
      cases h
      obtain ⟨hxs, hb⟩ := ih h'
      exact ⟨by rw [hxs]; rfl, hb⟩
    · next h' =>
      split_ifs at h with hx
      cases h
      exact ⟨by rw [hx]; rfl, rsplitOnce_eq_none.1 h'⟩

lemma rsplitOnce_append (h : c ∉ b) : rsplitOnce c (a ++ c :: b) = some (a, b) := by
  induction a with
  | nil =>
    have hn : rsplitOnce c b = none := rsplitOnce_eq_none.2 h
    simp [rsplitOnce, hn]
  | cons x a ih => rw [cons_append, rsplitOnce, ih]

omit [DecidableEq α] in
lemma concat_prefix_iff {q : List α} (hb : c ∉ b) : q ++ [c] <+: l ++ c :: b ↔ q ++ [c] <+: l ++ [c] := by
  have hl : l ++ [c] <+: l ++ c :: b := ⟨b, by simp⟩
  constructor
  · intro hq
    rcases prefix_or_prefix_of_prefix hq hl with h | ⟨t, ht⟩
    · exact h
    · have htb : t <+: b := by
        rw [← ht, append_assoc, prefix_append_right_inj] at hq
        exact (cons_prefix_cons.1 hq).2
      rcases eq_nil_or_concat t with rfl | ⟨t, x, rfl⟩
      · rw [append_nil] at ht
        rw [ht]
      · -- the last letter of the word would lie in `b`
        have hx : x = c := by
          rw [concat_eq_append, ← append_assoc] at ht
          exact singleton_inj.1 (append_inj_right' ht rfl)
        subst hx
        exact absurd (htb.subset (by simp)) hb
  · intro hq
    exact hq.trans hl

/-! ### Separators of several letters -/

/-- The parts before and after the last `sep`. -/
def rsplitOnceAt (sep : List α) : List α → Option (List α × List α)
  | [] => if sep = [] then some ([], []) else none
  | x :: xs =>
    match rsplitOnceAt sep xs with
    | some (a, b) => some (x :: a, b)
    | none => if sep.isPrefixOf (x :: xs) then some ([], (x :: xs).drop sep.length) else none

variable {sep : List α}

lemma rsplitOnceAt_eq_none : rsplitOnceAt sep l = none ↔ ¬ sep <:+: l := by
  induction l with
  | nil => simp [rsplitOnceAt]
  | cons x xs ih =>
    rw [infix_cons_iff, not_or, ← ih, rsplitOnceAt]
    cases rsplitOnceAt sep xs with
    | some | none => simp

/-- The separator is the last one if it does not begin again inside itself or later. -/
lemma rsplitOnceAt_append {x : α} {s : List α} (h : ¬ x :: s <:+: s ++ b) :
    rsplitOnceAt (x :: s) (a ++ (x :: s ++ b)) = some (a, b) := by
  induction a with
  | nil =>
    have hn : rsplitOnceAt (x :: s) (s ++ b) = none := rsplitOnceAt_eq_none.2 h
    have hp : x :: s <+: x :: (s ++ b) := prefix_append (x :: s) b
    simp only [nil_append, cons_append, rsplitOnceAt, hn,
      isPrefixOf_iff_prefix.2 hp, if_true, length_cons, drop_succ_cons, drop_left]
  | cons y a ih => rw [cons_append, rsplitOnceAt, ih]

/-- The parts before and after the first `c`. -/
def splitOnce (c : α) : List α → Option (List α × List α)
  | [] => none
  | x :: xs => if x = c then some ([], xs) else (splitOnce c xs).map fun p => (x :: p.1, p.2)

lemma splitOnce_eq_some (h : splitOnce c l = some (a, b)) : l = a ++ c :: b ∧ c ∉ a := by
  induction l generalizing a with
  | nil => cases h
  | cons x xs ih =>
    unfold splitOnce at h
    split_ifs at h with hx
    · cases h
      exact ⟨by rw [hx]; rfl, not_mem_nil⟩
    · obtain ⟨⟨a', b'⟩, h', hab⟩ := Option.map_eq_some_iff.1 h
      cases hab
      obtain ⟨hxs, ha⟩ := ih h'
      refine ⟨by rw [hxs]; rfl, ?_⟩
      rw [mem_cons, not_or]
      exact ⟨fun hc => hx hc.symm, ha⟩

lemma splitOnce_append (h : c ∉ a) : splitOnce c (a ++ c :: b) = some (a, b) := by
  induction a with
  | nil => exact if_pos rfl
  | cons x a ih =>
    rw [mem_cons, not_or] at h
    rw [cons_append, splitOnce, if_neg fun hx => h.1 hx.symm, ih h.2]
    rfl

/-- At most `n` parts, cut at the first occurrences of `c`. -/
def splitn (c : α) : ℕ → List α → List (List α)
  | 0, _ => []
  | 1, l => [l]
  | n + 2, l =>
    match l.dropWhile (· ≠ c) with
    | [] => [l]
    | _ :: rest => l.takeWhile (· ≠ c) :: splitn c (n + 1) rest

lemma splitn_of_notMem (n : ℕ) (h : c ∉ l) : splitn c (n + 1) l = [l] := by
  cases n with
  | zero => rfl
  | succ =>
    have hdrop : l.dropWhile (· ≠ c) = [] := by
      rw [dropWhile_eq_nil_iff]
      exact fun x hx => decide_eq_true fun hxc => h (hxc ▸ hx)
    rw [splitn, hdrop]

lemma splitn_append (n : ℕ) (h : c ∉ a) : splitn c (n + 2) (a ++ c :: b) = a :: splitn c (n + 1) b := by
  have hall : ∀ x ∈ a, decide (x ≠ c) = true := fun x hx => decide_eq_true fun hxc => h (hxc ▸ hx)
  have hdrop : (a ++ c :: b).dropWhile (· ≠ c) = c :: b := by
    rw [dropWhile_append_of_pos hall, dropWhile_cons_of_neg (by simp)]
  have htake : (a ++ c :: b).takeWhile (· ≠ c) = a := by
    rw [takeWhile_append_of_pos hall, takeWhile_cons_of_neg (by simp), append_nil]
  rw [splitn, hdrop, htake]

/-- The word without `c` at its ends. -/
def trimMatches (c : α) (l : List α) : List α := (l.dropWhile (· = c)).rdropWhile (· = c)

/-- A word with other ends stays, also when `c` follows it. -/
lemma trimMatches_append (hne : l ≠ []) (hfirst : l.head hne ≠ c) (hlast : l.getLast hne ≠ c) (n : ℕ) :
    trimMatches c (l ++ List.replicate n c) = l := by
  have hfront : (l ++ List.replicate n c).dropWhile (· = c) = l ++ List.replicate n c := by
    cases l with
    | nil => exact absurd rfl hne
    | cons => exact dropWhile_cons_of_neg (by simpa using hfirst)
  unfold trimMatches
  rw [hfront]
  clear hfront
  induction n with
  | zero =>
    rw [replicate_zero, append_nil, rdropWhile_eq_self_iff]
    exact fun _ => by simpa using hlast
  | succ n ih =>
    rw [replicate_succ', ← append_assoc, rdropWhile_concat_pos _ _ _ (by simp)]
    exact ih

end Words

section Ranges

variable {α : Type*} {a b : List α} {i n : ℕ}

lemma take_drop_append_of_le (h : a.length ≤ i) :
    ((a ++ b).drop i).take n = (b.drop (i - a.length)).take n := by
  rw [drop_append, drop_eq_nil_of_le h, nil_append]

lemma take_drop_append_of_add_le (h : i + n ≤ a.length) : ((a ++ b).drop i).take n = (a.drop i).take n := by
  have hlen : n ≤ (a.drop i).length := by
    rw [length_drop]
    omega
  rw [drop_append_of_le_length (by omega), take_append_of_le_length hlen]

/-- A range that starts within the first chunk and goes on behind it. -/
lemma take_drop_append_of_lt (h : i ≤ a.length) (hn : a.length ≤ i + n) :
    ((a ++ b).drop i).take n = a.drop i ++ b.take (n - (a.length - i)) := by
  have hlen : (a.drop i).length ≤ n := by
    rw [length_drop]
    omega
  rw [drop_append_of_le_length h, take_append, take_of_length_le hlen, length_drop]

end Ranges

section Chunks

variable {α : Type*} {n k j : ℕ} {l : List α} {gs : List (List α)} {x : α}

/-- The first `k` chunks of `n` letters. -/
def chunksExact (n : ℕ) : ℕ → List α → List (List α)
  | 0, _ => []
  | k + 1, l => l.take n :: chunksExact n k (l.drop n)

lemma length_of_mem_chunksExact (h : n * k ≤ l.length) : ∀ g ∈ chunksExact n k l, g.length = n := by
  induction k generalizing l with
  | zero => simp [chunksExact]
  | succ k ih =>
    rw [Nat.mul_succ] at h
    intro g hg
    rcases mem_cons.1 hg with rfl | hg
    · rw [length_take]
      omega
    · exact ih (by rw [length_drop]; omega) g hg

lemma length_chunksExact : (chunksExact n k l).length = k := by
  induction k generalizing l with
  | zero => rfl
  | succ k ih => rw [chunksExact, length_cons, ih]

lemma length_flatten_of_forall (h : ∀ g ∈ gs, g.length = n) : gs.flatten.length = n * gs.length := by
  induction gs with
  | nil => rfl
  | cons g gs ih =>
    rw [flatten_cons, length_append, h g mem_cons_self, length_cons, Nat.mul_succ,
      ih fun g' hg' => h g' (mem_cons_of_mem g hg'), Nat.add_comm]

lemma flatten_chunksExact (h : l.length = n * k) : (chunksExact n k l).flatten = l := by
  induction k generalizing l with
  | zero =>
    obtain rfl : l = [] := length_eq_zero_iff.1 h
    rfl
  | succ k ih =>
    rw [Nat.mul_succ] at h
    rw [chunksExact, flatten_cons, ih (by rw [length_drop]; omega), take_append_drop]

lemma chunksExact_flatten (h : ∀ g ∈ gs, g.length = n) : chunksExact n gs.length gs.flatten = gs := by
  induction gs with
  | nil => rfl
  | cons g gs ih =>
    have hg : g.length = n := h g mem_cons_self
    rw [length_cons, chunksExact, flatten_cons, take_left' hg, drop_left' hg,
      ih fun g' hg' => h g' (mem_cons_of_mem g hg')]

lemma chunksExact_map {β : Type*} (f : α → β) : chunksExact n k (l.map f) = (chunksExact n k l).map (List.map f) := by
  induction k generalizing l with
  | zero => rfl
  | succ k ih => rw [chunksExact, chunksExact, map_cons, ← map_take, ← map_drop, ih]

lemma set_flatten (h : ∀ g ∈ gs, g.length = n) (hk : k < n * gs.length) :
    ∃ j i g, gs[j]? = some g ∧ i < n ∧ gs.flatten[k]? = g[i]? ∧
      ∀ x, gs.flatten.set k x = (gs.set j (g.set i x)).flatten := by
  induction gs generalizing k with
  | nil => simp at hk
  | cons g gs ih =>
    have hg : g.length = n := h g mem_cons_self
    rw [length_cons, Nat.mul_succ] at hk
    by_cases hlt : k < n
    · refine ⟨0, k, g, rfl, hlt, ?_, fun x => ?_⟩
      · rw [flatten_cons, getElem?_append_left (by omega)]
      · rw [flatten_cons, set_append_left _ _ (by omega)]
        rfl
    · obtain ⟨j, i, g', hj, hi, hget, hset⟩ := ih (fun g' hg' => h g' (mem_cons_of_mem g hg'))
        (show k - n < n * gs.length by omega)
      refine ⟨j + 1, i, g', hj, hi, ?_, fun x => ?_⟩
      · rw [flatten_cons, getElem?_append_right (by omega), hg, hget]
      · rw [flatten_cons, set_append_right _ _ (by omega), hg, hset]
        rfl

lemma filter_intercalate [DecidableEq α] (h : ∀ g ∈ gs, x ∉ g) :
    (List.intercalate [x] gs).filter (· ≠ x) = gs.flatten := by
  have hkeep : ∀ g ∈ gs, g.filter (· ≠ x) = g := by
    intro g hg
    refine filter_eq_self.2 fun y hy => decide_eq_true ?_
    rintro rfl
    exact h g hg hy
  induction gs with
  | nil => rfl
  | cons g gs ih =>
    have hrest := ih (fun g' hg' => h g' (mem_cons_of_mem g hg')) fun g' hg' => hkeep g' (mem_cons_of_mem g hg')
    have hfirst := hkeep g mem_cons_self
    cases gs with
    | nil =>
      rw [intercalate_singleton, hfirst]
      simp
    | cons =>
      rw [intercalate_cons_cons, filter_append, filter_append, hrest, hfirst]
      simp

end Chunks

end Bepository.Lib
