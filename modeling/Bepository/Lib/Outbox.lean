import Mathlib.Data.Int.Order.Basic
import Mathlib.Data.List.Pairwise
import Mathlib.Logic.Function.Basic

/-!
# Numbered entries and their announcements

Several speakers share a table and a counter.  A speaker commits an entry with the next number, holds it, and
announces it later, by a step of its own.  Nothing keeps the announcements in the order of the numbers unless
no speaker commits while another holds an entry; and an entry that nobody announces leaves a gap.

`ι` are the speakers, `κ` the keys of the table and `α` its entries, with their numbers `num`.
-/

namespace Bepository.Lib

open List

structure Outbox (ι κ α : Type*) where
  last : ℤ
  entries : κ → Option α
  held : ι → Option α
  sent : List α

namespace Outbox

variable {ι κ α : Type*} [DecidableEq ι] [DecidableEq κ]

/-- What a step does.  A speaker that is `inexact` announces another form of the entry, with the same
number; entries and numbers may also be lost. -/
inductive Kind (ι : Type*) where
  | stay
  | commit (speaker : ι)
  | inexact (speaker : ι)
  | send (speaker : ι)
  | lose

/-- The kinds in which a speaker commits. -/
def Kind.committer : Kind ι → Option ι
  | .commit i => some i
  | .inexact i => some i
  | _ => none

variable (num : α → ℤ)

inductive Moves (o o' : Outbox ι κ α) : Kind ι → Prop
  | stay (last : o'.last = o.last) (entries : o'.entries = o.entries) (held : o'.held = o.held)
      (sent : o'.sent = o.sent) : Moves o o' .stay
  | commit {i} {k : κ} {a : α} (number : num a = o.last + 1) (free : o.held i = none)
      (last : o'.last = o.last + 1) (entries : o'.entries = Function.update o.entries k (some a))
      (held : o'.held = Function.update o.held i (some a)) (sent : o'.sent = o.sent) : Moves o o' (.commit i)
  | inexact {i} {a : α} (number : num a = o.last + 1) (free : o.held i = none) (last : o'.last = o.last + 1)
      (held : o'.held = Function.update o.held i (some a)) (sent : o'.sent = o.sent) : Moves o o' (.inexact i)
  | send {i} {a : α} (has : o.held i = some a) (last : o'.last = o.last) (entries : o'.entries = o.entries)
      (held : o'.held = Function.update o.held i none) (sent : o'.sent = o.sent ++ [a]) : Moves o o' (.send i)
  | lose (last : o.last ≤ o'.last) (held : ∀ i, o'.held i = o.held i ∨ o'.held i = none)
      (sent : o'.sent = o.sent) : Moves o o' .lose

/-- What was announced is in order, and before what is held; at most one speaker holds something. -/
structure InOrder (o : Outbox ι κ α) : Prop where
  sent : o.sent.Pairwise fun a b => num a < num b
  sent_le : ∀ a ∈ o.sent, num a ≤ o.last
  held_le : ∀ i a, o.held i = some a → num a ≤ o.last
  before : ∀ i a, o.held i = some a → ∀ b ∈ o.sent, num b < num a
  single : ∀ i j a b, o.held i = some a → o.held j = some b → i = j

/-- Every number since `first` was announced or is held. -/
def Gapless (first : ℤ) (o : Outbox ι κ α) : Prop :=
  ∀ q, first < q → q ≤ o.last → (∃ a ∈ o.sent, num a = q) ∨ ∃ i a, o.held i = some a ∧ num a = q

/-- Every entry that is not one of those at the start was announced or is held. -/
def Told (entries₀ : κ → Option α) (o : Outbox ι κ α) : Prop :=
  ∀ k a, o.entries k = some a → entries₀ k = some a ∨ a ∈ o.sent ∨ ∃ i, o.held i = some a

section Steps

variable {num} {o o' : Outbox ι κ α} {kind : Kind ι} {first : ℤ} {entries₀ : κ → Option α}

omit [DecidableEq κ] in
lemma InOrder.commit {i : ι} {a : α} (h : InOrder num o) (hfree : ∀ j, o.held j = none)
    (hnum : num a = o.last + 1) (hlast : o'.last = o.last + 1)
    (hheld : o'.held = Function.update o.held i (some a)) (hsent : o'.sent = o.sent) : InOrder num o' := by
  have hown : ∀ j b, o'.held j = some b → j = i ∧ b = a := by
    intro j b hj
    rw [hheld, Function.update_apply] at hj
    split_ifs at hj with hji
    · exact ⟨hji, (Option.some.inj hj).symm⟩
    · rw [hfree j] at hj
      cases hj
  refine ⟨hsent ▸ h.sent, ?_, ?_, ?_, ?_⟩
  · intro b hb
    rw [hsent] at hb
    have := h.sent_le b hb
    omega
  · intro j b hj
    obtain ⟨-, rfl⟩ := hown j b hj
    omega
  · intro j b hj c hc
    obtain ⟨-, rfl⟩ := hown j b hj
    rw [hsent] at hc
    have := h.sent_le c hc
    omega
  · intro j k b c hj hk
    rw [(hown j b hj).1, (hown k c hk).1]

/-- **In order.**  Whatever a step does, if a speaker commits only while nobody holds an entry. -/
theorem InOrder.step (h : InOrder num o) (hm : Moves num o o' kind)
    (hserial : ∀ i, kind.committer = some i → ∀ j, o.held j = none) : InOrder num o' := by
  cases hm with
  | stay hlast _ hheld hsent =>
    refine ⟨hsent ▸ h.sent, ?_, ?_, ?_, ?_⟩
    · rw [hsent, hlast]
      exact h.sent_le
    · rw [hheld, hlast]
      exact h.held_le
    · rw [hheld, hsent]
      exact h.before
    · rw [hheld]
      exact h.single
  | @commit i k a hnum _ hlast _ hheld hsent | @inexact i a hnum _ hlast hheld hsent =>
    exact h.commit (hserial i rfl) hnum hlast hheld hsent
  | @send i a hhas hlast _ hheld hsent =>
    -- the only entry that is held goes to the end
    have hnone : ∀ j, o'.held j = none := by
      intro j
      rw [hheld, Function.update_apply]
      split_ifs with hji
      · rfl
      · cases hj : o.held j with
        | none => rfl
        | some b => exact absurd (h.single j i b a hj hhas) hji
    have hno : ∀ j b, o'.held j ≠ some b := by
      intro j b hj
      rw [hnone j] at hj
      cases hj
    refine ⟨?_, ?_, fun j b hj => absurd hj (hno j b), fun j b hj => absurd hj (hno j b),
      fun j k b c hj => absurd hj (hno j b)⟩
    · rw [hsent, pairwise_append]
      refine ⟨h.sent, pairwise_singleton _ _, fun b hb c hc => ?_⟩
      rw [mem_singleton.1 hc]
      exact h.before i a hhas b hb
    · intro b hb
      rw [hsent, mem_append, mem_singleton] at hb
      rw [hlast]
      rcases hb with hb | rfl
      · exact h.sent_le b hb
      · exact h.held_le i b hhas
  | lose hlast hheld hsent =>
    have hwas : ∀ j b, o'.held j = some b → o.held j = some b := by
      intro j b hj
      rcases hheld j with hsame | hnone
      · rw [← hsame, hj]
      · rw [hnone] at hj
        cases hj
    refine ⟨hsent ▸ h.sent, ?_, ?_, ?_, ?_⟩
    · intro b hb
      rw [hsent] at hb
      have := h.sent_le b hb
      omega
    · intro j b hj
      have := h.held_le j b (hwas j b hj)
      omega
    · intro j b hj
      rw [hsent]
      exact h.before j b (hwas j b hj)
    · intro j k b c hj hk
      exact h.single j k b c (hwas j b hj) (hwas k c hk)

omit [DecidableEq κ] in
lemma Gapless.commit {i : ι} {a : α} (h : Gapless num first o) (hfree : o.held i = none)
    (hnum : num a = o.last + 1) (hlast : o'.last = o.last + 1)
    (hheld : o'.held = Function.update o.held i (some a)) (hsent : o'.sent = o.sent) :
    Gapless num first o' := by
  intro q hq hle
  by_cases hnew : q = o.last + 1
  · exact .inr ⟨i, a, by rw [hheld, Function.update_self], hnum.trans hnew.symm⟩
  · rcases h q hq (by omega) with hs | ⟨j, b, hj, hb⟩
    · exact .inl (hsent ▸ hs)
    · refine .inr ⟨j, b, ?_, hb⟩
      have hji : j ≠ i := by
        rintro rfl
        rw [hfree] at hj
        cases hj
      rw [hheld, Function.update_of_ne hji, hj]

/-- **Without gaps**, if nothing is lost. -/
theorem Gapless.step (h : Gapless num first o) (hm : Moves num o o' kind) (hlose : kind ≠ .lose) :
    Gapless num first o' := by
  cases hm with
  | stay hlast _ hheld hsent =>
    intro q hq hle
    rw [hheld, hsent]
    exact h q hq (hlast ▸ hle)
  | commit hnum hfree hlast _ hheld hsent | inexact hnum hfree hlast hheld hsent =>
    exact h.commit hfree hnum hlast hheld hsent
  | @send i a hhas hlast _ hheld hsent =>
    intro q hq hle
    rw [hsent]
    rcases h q hq (hlast ▸ hle) with ⟨b, hb, hn⟩ | ⟨j, b, hj, hn⟩
    · exact .inl ⟨b, mem_append_left _ hb, hn⟩
    · by_cases hji : j = i
      · rw [hji, hhas] at hj
        cases hj
        exact .inl ⟨a, mem_append_right _ mem_cons_self, hn⟩
      · exact .inr ⟨j, b, by rw [hheld, Function.update_of_ne hji, hj], hn⟩
  | lose => exact absurd rfl hlose

/-- **Everything is told**, in its own form, if nothing is lost. -/
theorem Told.step (h : Told entries₀ o) (hm : Moves num o o' kind) (hlose : kind ≠ .lose)
    (hexact : ∀ i, kind ≠ .inexact i) : Told entries₀ o' := by
  cases hm with
  | stay _ hentries hheld hsent =>
    intro k a hk
    rw [hheld, hsent]
    exact h k a (hentries ▸ hk)
  | @commit i k₀ a₀ _ hfree _ hentries hheld hsent =>
    intro k a hk
    rw [hentries, Function.update_apply] at hk
    split_ifs at hk with hkey
    · cases hk
      exact .inr (.inr ⟨i, by rw [hheld, Function.update_self]⟩)
    · rcases h k a hk with h₀ | hs | ⟨j, hj⟩
      · exact .inl h₀
      · exact .inr (.inl (hsent ▸ hs))
      · have hji : j ≠ i := by
          rintro rfl
          rw [hfree] at hj
          cases hj
        exact .inr (.inr ⟨j, by rw [hheld, Function.update_of_ne hji, hj]⟩)
  | @inexact i => exact absurd rfl (hexact i)
  | @send i a₀ hhas _ hentries hheld hsent =>
    intro k a hk
    rw [hsent]
    rcases h k a (hentries ▸ hk) with h₀ | hs | ⟨j, hj⟩
    · exact .inl h₀
    · exact .inr (.inl (mem_append_left _ hs))
    · by_cases hji : j = i
      · rw [hji, hhas] at hj
        cases hj
        exact .inr (.inl (mem_append_right _ mem_cons_self))
      · exact .inr (.inr ⟨j, by rw [hheld, Function.update_of_ne hji, hj]⟩)
  | lose => exact absurd rfl hlose

omit [DecidableEq ι] [DecidableEq κ] in
/-- In order and without gaps: what comes before an announced number was announced. -/
theorem Gapless.sent_before (h : Gapless num first o) (ho : InOrder num o) {a : α} (ha : a ∈ o.sent) {q : ℤ}
    (hq : first < q) (hlt : q < num a) : ∃ b ∈ o.sent, num b = q := by
  have hle := ho.sent_le a ha
  rcases h q hq (by omega) with hs | ⟨i, b, hi, rfl⟩
  · exact hs
  · have := ho.before i b hi a ha
    omega

end Steps

end Outbox

end Bepository.Lib
