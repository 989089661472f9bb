import Mathlib.Data.List.Basic

/-!
# Resumable readers

A reader asks for a number of letters, goes on with them, and in the end returns or fails.  It runs
against what has arrived: `poll` hands it what it asks for, and when there is too little the reader keeps
all of it and waits.  What it returns does not depend on how the word is cut (`poll_append`).

* `Reads r w a` — the reader takes exactly the word `w` and returns `a`;
* `Reads.suspends` — on a proper beginning of such a word it waits for the rest;
* `Reads.bind` — one reader after another.
-/

namespace Bepository.Lib

/-- A reader over the alphabet `β`. -/
inductive Reader (β ε α : Type) where
  | done (a : α)
  | fail (e : ε)
  | read (n : ℕ) (k : List β → Reader β ε α)

/-- A reader that was polled waits, with what it has got for the read at hand, or it is over, with what
it has left. -/
inductive Polled (β ε α : Type) where
  | pending (r : Reader β ε α) (got : List β)
  | ready (a : α) (left : List β)
  | failed (e : ε) (left : List β)

variable {β ε α γ : Type}

namespace Reader

def bind : Reader β ε α → (α → Reader β ε γ) → Reader β ε γ
  | done a, f => f a
  | fail e, _ => fail e
  | read n k, f => read n fun w => (k w).bind f

/-- The reader, which has got some letters for the read at hand, is given the input. -/
def poll : Reader β ε α → List β → List β → Polled β ε α
  | done a, _, input => .ready a input
  | fail e, _, input => .failed e input
  | read n k, got, input =>
    if (got ++ input).length < n then .pending (read n k) (got ++ input)
    else (k ((got ++ input).take n)).poll [] ((got ++ input).drop n)

end Reader

open Reader List

/-- More input after a poll. -/
def Polled.extend : Polled β ε α → List β → Polled β ε α
  | pending r got, more => r.poll got more
  | ready a left, more => ready a (left ++ more)
  | failed e left, more => failed e (left ++ more)

/-- Another reader takes over what the first one returns. -/
def Polled.andThen (f : α → Reader β ε γ) : Polled β ε α → Polled β ε γ
  | pending r got => pending (r.bind f) got
  | ready a left => (f a).poll [] left
  | failed e left => failed e left

section Poll

variable {r : Reader β ε α} {f : α → Reader β ε γ} {got input more v w : List β} {a : α} {c : γ} {n : ℕ}
  {k : List β → Reader β ε α}

/-- **The word can be cut anywhere.** -/
theorem poll_append : r.poll got (input ++ more) = (r.poll got input).extend more := by
  induction r generalizing got input with
  | done | fail => rfl
  | read n k ih =>
    by_cases hn : (got ++ input).length < n
    · -- it was waiting: the reads before and after the cut are one
      simp only [poll, if_pos hn, Polled.extend, append_assoc]
    · have hle : n ≤ (got ++ input).length := Nat.le_of_not_lt hn
      have hn' : ¬ (got ++ (input ++ more)).length < n := by
        rw [← append_assoc, length_append]
        omega
      simp only [poll, if_neg hn, if_neg hn']
      rw [← append_assoc, take_append_of_le_length hle, drop_append_of_le_length hle]
      exact ih _

theorem poll_bind : (r.bind f).poll [] input = (r.poll [] input).andThen f := by
  induction r generalizing input with
  | done | fail => rfl
  | read n k ih =>
    simp only [Reader.bind, poll]
    split_ifs
    · rfl
    · exact ih _

def Reads (r : Reader β ε α) (w : List β) (a : α) : Prop := r.poll [] w = .ready a []

lemma Reads.poll_append (h : Reads r w a) : r.poll [] (w ++ more) = .ready a more := by
  rw [Lib.poll_append, h, Polled.extend, nil_append]

lemma Reads.suspends (h : Reads r (v ++ w) a) (hw : w ≠ []) : ∃ r' got, r.poll [] v = .pending r' got := by
  have hcut : r.poll [] (v ++ w) = (r.poll [] v).extend w := Lib.poll_append
  rw [h] at hcut
  cases hv : r.poll [] v with
  | pending r' got => exact ⟨r', got, rfl⟩
  | ready =>
    rw [hv, Polled.extend, Polled.ready.injEq] at hcut
    exact absurd (append_eq_nil_iff.1 hcut.2.symm).2 hw
  | failed =>
    rw [hv, Polled.extend] at hcut
    cases hcut

lemma reads_done : Reads (done a : Reader β ε α) [] a := rfl

lemma Reads.read (hv : v.length = n) (h : Reads (k v) w a) : Reads (read n k) (v ++ w) a := by
  have hn : ¬ ([] ++ (v ++ w)).length < n := by
    rw [nil_append, length_append]
    omega
  rw [Reads, poll, if_neg hn, nil_append, ← hv, take_left', drop_left']
  · exact h
  · rfl
  · rfl

lemma Reads.bind (h : Reads r v a) (h' : Reads (f a) w c) : Reads (r.bind f) (v ++ w) c := by
  rw [Reads, poll_bind, h.poll_append]
  exact h'

end Poll

end Bepository.Lib
