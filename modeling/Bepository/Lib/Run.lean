import Mathlib.Logic.Basic
import Mathlib.Data.List.Basic

/-!
# Runs of a machine

A machine is a partial function `step : σ → α → Option σ`: the label says which party moves and
resolves every choice that is left to it, and `none` says that the label is not enabled.  An
interleaving of several parties is then a list of labels.

* `run step s as` — the state the labels `as` lead to from `s`;
* `Meets step G s as` — every step of that run is taken in a state that meets the guard `G`;
* `run_inv` — what one guarded step preserves holds at the end of every guarded run.
-/

namespace Bepository.Lib

variable {σ α : Type*}

/-- The state that the labels lead to, if all of them are enabled. -/
def run (step : σ → α → Option σ) : σ → List α → Option σ
  | s, [] => some s
  | s, a :: as => (step s a).bind fun t => run step t as

/-- Every step of the run from `s` along the labels is taken in a state that meets the guard. -/
def Meets (step : σ → α → Option σ) (G : σ → α → Prop) : σ → List α → Prop
  | _, [] => True
  | s, a :: as => G s a ∧ ∀ t, step s a = some t → Meets step G t as

instance decidableMeets (step : σ → α → Option σ) (G : σ → α → Prop)
    [hG : ∀ s a, Decidable (G s a)] : ∀ (s : σ) (as : List α), Decidable (Meets step G s as)
  | _, [] => isTrue trivial
  | s, a :: as =>
    match hG s a, h : step s a with
    | isFalse hn, _ => isFalse fun hm => hn hm.1
    | isTrue hg, none => isTrue ⟨hg, fun t ht => by rw [h] at ht; cases ht⟩
    | isTrue hg, some t =>
      match decidableMeets step G t as with
      | isFalse hn => isFalse fun hm => hn (hm.2 t h)
      | isTrue ht => isTrue ⟨hg, fun u hu => by rw [h] at hu; cases hu; exact ht⟩

/-- What a partial computation leads to can be evaluated. -/
instance decidableExistsSome (P : σ → Prop) [DecidablePred P] :
    ∀ o : Option σ, Decidable (∃ s, o = some s ∧ P s)
  | none => isFalse (by rintro ⟨s, ⟨⟩, -⟩)
  | some s => decidable_of_iff (P s) ⟨fun h => ⟨s, rfl, h⟩, by rintro ⟨_, ⟨⟩, h⟩; exact h⟩

section Runs

variable {step : σ → α → Option σ} {G : σ → α → Prop} {s t u : σ} {as bs : List α} {a : α}

lemma run_cons_eq_some : run step s (a :: as) = some u ↔ ∃ t, step s a = some t ∧ run step t as = some u := by
  simp [run, Option.bind_eq_some_iff]

lemma run_append : run step s (as ++ bs) = (run step s as).bind fun t => run step t bs := by
  induction as generalizing s with
  | nil => rfl
  | cons a as ih => cases h : step s a <;> simp [run, h, ih]

lemma run_concat_eq_some : run step s (as ++ [a]) = some u ↔ ∃ t, run step s as = some t ∧ step t a = some u := by
  rw [run_append, Option.bind_eq_some_iff]
  simp [run]

lemma Meets.of_append (h : Meets step G s (as ++ bs)) : Meets step G s as := by
  induction as generalizing s with
  | nil => trivial
  | cons a as ih => exact ⟨h.1, fun t ht => ih (h.2 t ht)⟩

/-- The guard holds where the last label of a guarded run is taken. -/
lemma Meets.last (h : Meets step G s (as ++ [a])) (hr : run step s as = some t) : G t a := by
  induction as generalizing s with
  | nil => cases hr; exact h.1
  | cons b as ih =>
    obtain ⟨s', hs, hr⟩ := run_cons_eq_some.1 hr
    exact ih (h.2 s' hs) hr

/-- A guard that only looks at the label. -/
lemma meets_of_forall (h : ∀ a ∈ as, ∀ s, G s a) : Meets step G s as := by
  induction as generalizing s with
  | nil => trivial
  | cons a as ih => exact ⟨h a (by simp) s, fun _ _ => ih fun b hb => h b (by simp [hb])⟩

lemma Meets.and {H : σ → α → Prop} (h : Meets step G s as) (h' : Meets step H s as) :
    Meets step (fun s a => G s a ∧ H s a) s as := by
  induction as generalizing s with
  | nil => trivial
  | cons a as ih => exact ⟨⟨h.1, h'.1⟩, fun t ht => ih (h.2 t ht) (h'.2 t ht)⟩

/-- A guard, and one that only looks at the label. -/
lemma Meets.and_forall {H : α → Prop} (h : Meets step G s as) (h' : ∀ a ∈ as, H a) :
    Meets step (fun s a => G s a ∧ H a) s as :=
  h.and (meets_of_forall fun a ha _ => h' a ha)

/-- **The invariant rule.**  A property of the first state that every guarded step preserves holds
at the end of every guarded run. -/
theorem run_inv {P : σ → Prop} (hstep : ∀ s a t, P s → G s a → step s a = some t → P t) (h0 : P s)
    (hm : Meets step G s as) (hr : run step s as = some t) : P t := by
  induction as generalizing s with
  | nil => cases hr; exact h0
  | cons a as ih =>
    obtain ⟨s', hs, hr⟩ := run_cons_eq_some.1 hr
    exact ih (hstep s a s' h0 hm.1 hs) (hm.2 s' hs) hr

/-- The rule for a property that every step preserves. -/
theorem run_keeps {P : σ → Prop} (hstep : ∀ s a t, P s → step s a = some t → P t) (h0 : P s)
    (hr : run step s as = some t) : P t :=
  run_inv (G := fun _ _ => True) (fun s a t h _ hs => hstep s a t h hs) h0 (meets_of_forall fun _ _ _ => trivial) hr

end Runs

end Bepository.Lib
