import Mathlib.Data.List.Forall2

/-!
# Fallible loops

What a loop that stops at the first error has done when it succeeds.
-/

namespace Bepository.Lib

open List

section Result

variable {α β ε : Type} {f : α → Except ε β} {l : List α} {r : List β} {b : β} {x : Except ε α} {γ : Type}

lemma map_eq_ok {g : α → γ} {c : γ} : x.map g = .ok c ↔ ∃ a, x = .ok a ∧ g a = c := by
  cases x <;> simp [Except.map]

lemma map_eq_error {g : α → γ} {e : ε} : x.map g = .error e ↔ x = .error e := by
  cases x <;> simp [Except.map]

lemma bind_eq_ok {g : α → Except ε γ} {c : γ} : x.bind g = .ok c ↔ ∃ a, x = .ok a ∧ g a = .ok c := by
  cases x <;> simp [Except.bind]

lemma exists_of_forall₂ {R : α → β → Prop} (h : List.Forall₂ R l r) (hb : b ∈ r) : ∃ a ∈ l, R a b := by
  induction h with
  | nil => cases hb
  | @cons a b' l r hab _ ih =>
    rcases mem_cons.1 hb with rfl | hb
    · exact ⟨a, mem_cons_self, hab⟩
    · obtain ⟨a', ha', hR⟩ := ih hb
      exact ⟨a', mem_cons_of_mem a ha', hR⟩

lemma mapM_eq_ok : l.mapM f = .ok r ↔ List.Forall₂ (fun a b => f a = .ok b) l r := by
  induction l generalizing r with
  | nil =>
    rw [mapM_nil, forall₂_nil_left_iff]
    constructor
    · intro h
      cases h
      rfl
    · rintro rfl
      rfl
  | cons a l ih =>
    rw [mapM_cons, forall₂_cons_left_iff]
    constructor
    · intro h
      cases ha : f a with
      | error => rw [ha] at h; cases h
      | ok b =>
        cases hl : l.mapM f with
        | error => rw [ha, hl] at h; cases h
        | ok s =>
          rw [ha, hl] at h
          cases h
          exact ⟨b, s, rfl, ih.1 hl, rfl⟩
    · rintro ⟨b, s, ha, hl, rfl⟩
      rw [ha, ih.2 hl]
      rfl

lemma mem_of_mapM_eq_ok (h : l.mapM f = .ok r) : b ∈ r ↔ ∃ a ∈ l, f a = .ok b := by
  replace h := mapM_eq_ok.1 h
  refine ⟨exists_of_forall₂ h, ?_⟩
  rintro ⟨a, ha, hb⟩
  obtain ⟨b', hb', hf⟩ := exists_of_forall₂ h.flip ha
  rw [hb] at hf
  cases hf
  exact hb'

lemma exists_of_mapM_eq_ok (h : l.mapM f = .ok r) {a : α} (ha : a ∈ l) : ∃ b ∈ r, f a = .ok b :=
  exists_of_forall₂ (mapM_eq_ok.1 h).flip ha

lemma mapM_eq_ok_of_forall (h : ∀ a ∈ l, ∃ b, f a = .ok b) : ∃ r, l.mapM f = .ok r := by
  induction l with
  | nil => exact ⟨[], rfl⟩
  | cons a l ih =>
    obtain ⟨b, hb⟩ := h a mem_cons_self
    obtain ⟨r, hr⟩ := ih fun a' ha' => h a' (mem_cons_of_mem a ha')
    exact ⟨b :: r, mapM_eq_ok.2 (.cons hb (mapM_eq_ok.1 hr))⟩

lemma map_of_mapM_eq_ok {g : β → γ} {k : α → γ} (hk : ∀ a b, f a = .ok b → g b = k a)
    (h : l.mapM f = .ok r) : r.map g = l.map k := by
  replace h := mapM_eq_ok.1 h
  induction h with
  | nil => rfl
  | cons hab _ ih => rw [map_cons, map_cons, ih, hk _ _ hab]

lemma pairwise_of_mapM_eq_ok {R : β → β → Prop} (h : l.mapM f = .ok r)
    (hp : l.Pairwise fun a a' => ∀ b b', f a = .ok b → f a' = .ok b' → R b b') : r.Pairwise R := by
  replace h := mapM_eq_ok.1 h
  induction h with
  | nil => exact .nil
  | @cons a b l r hab hl ih =>
    obtain ⟨ha, hp⟩ := pairwise_cons.1 hp
    refine pairwise_cons.2 ⟨fun b' hb' => ?_, ih hp⟩
    obtain ⟨a', ha', hf⟩ := (mem_of_mapM_eq_ok (mapM_eq_ok.2 hl)).1 hb'
    exact ha a' ha' b b' hab hf

end Result

end Bepository.Lib
