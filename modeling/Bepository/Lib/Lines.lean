import Mathlib.Data.List.Basic
import Mathlib.Data.List.DropRight

/-!
# Lines of a text

`splitInclusive c l` cuts a word after each `c`, and `joined c ps` puts one behind each part.  `lines` is how a text is
read by lines: the line feed goes, and one carriage return before it; the last line may have no line feed, and then
keeps its carriage return.  So the lines that were written come back without a carriage return at their end.
-/

namespace Bepository.Lib

open List

section Parts

variable {α : Type*} {c : α} {l a b p : List α} {ps : List (List α)}

/-- The parts, each of them with a `c` behind it. -/
def joined (c : α) (ps : List (List α)) : List α := ps.flatMap (· ++ [c])

@[simp] lemma joined_nil : joined c [] = [] := rfl

@[simp] lemma joined_cons : joined c (p :: ps) = p ++ c :: joined c ps := by
  unfold joined
  rw [flatMap_cons, append_assoc]
  rfl

variable [DecidableEq α]

/-- The parts of a word, each but the last one with the `c` that ends it. -/
def splitInclusive (c : α) : List α → List (List α)
  | [] => []
  | x :: xs =>
    if x = c then [x] :: splitInclusive c xs
    else
      match splitInclusive c xs with
      | [] => [[x]]
      | p :: ps => (x :: p) :: ps

lemma splitInclusive_append (h : c ∉ a) :
    splitInclusive c (a ++ c :: b) = (a ++ [c]) :: splitInclusive c b := by
  induction a with
  | nil => exact if_pos rfl
  | cons x a ih =>
    rw [mem_cons, not_or] at h
    rw [cons_append, splitInclusive, if_neg fun hx => h.1 hx.symm, ih h.2]
    rfl

lemma splitInclusive_joined (h : ∀ p ∈ ps, c ∉ p) : splitInclusive c (joined c ps) = ps.map (· ++ [c]) := by
  induction ps with
  | nil => rfl
  | cons p ps ih =>
    rw [joined_cons, splitInclusive_append (h p mem_cons_self), ih fun q hq => h q (mem_cons_of_mem p hq)]
    rfl

lemma joined_inj {qs : List (List α)} (h : ∀ p ∈ ps, c ∉ p) (h' : ∀ q ∈ qs, c ∉ q) :
    joined c ps = joined c qs ↔ ps = qs := by
  refine ⟨fun he => ?_, congrArg _⟩
  have hparts := congrArg (splitInclusive c) he
  rw [splitInclusive_joined h, splitInclusive_joined h'] at hparts
  exact map_injective_iff.2 (append_left_injective [c]) hparts

lemma notMem_of_mem_splitInclusive (h : p ∈ splitInclusive c l) : c ∉ p ∨ ∃ a, p = a ++ [c] ∧ c ∉ a := by
  induction l generalizing p with
  | nil => cases h
  | cons x xs ih =>
    unfold splitInclusive at h
    split_ifs at h with hx
    · rcases mem_cons.1 h with rfl | h
      · exact .inr ⟨[], by rw [hx]; rfl, not_mem_nil⟩
      · exact ih h
    · split at h
      · obtain rfl := mem_singleton.1 h
        rw [mem_singleton]
        exact .inl fun hc => hx hc.symm
      · next q qs hq =>
        rcases mem_cons.1 h with rfl | h
        · have hmem : ∀ a : List α, c ∉ a → c ∉ x :: a := by
            intro a ha
            rw [mem_cons, not_or]
            exact ⟨fun hc => hx hc.symm, ha⟩
          rcases ih (p := q) (by rw [hq]; exact mem_cons_self) with hn | ⟨a, rfl, ha⟩
          · exact .inl (hmem q hn)
          · exact .inr ⟨x :: a, rfl, hmem a ha⟩
        · exact ih (by rw [hq]; exact mem_cons_of_mem q h)

/-- The word without one `c` at its end. -/
def stripLast (c : α) (l : List α) : List α := (l.dropSuffix? [c]).getD l

lemma dropSuffix?_eq_some : l.dropSuffix? [c] = some a ↔ l = a ++ [c] := by
  rw [dropSuffix?_eq_some_iff]
  constructor
  · rintro ⟨s, rfl, hs⟩
    rw [eq_of_beq hs]
  · rintro rfl
    exact ⟨[c], rfl, beq_self_eq_true _⟩

lemma dropSuffix?_eq_none : l.dropSuffix? [c] = none ↔ ¬ [c] <:+ l := by
  rw [← not_iff_not, not_not, ← ne_eq, Option.ne_none_iff_exists']
  constructor
  · rintro ⟨a, ha⟩
    exact ⟨a, (dropSuffix?_eq_some.1 ha).symm⟩
  · rintro ⟨a, rfl⟩
    exact ⟨a, dropSuffix?_eq_some.2 rfl⟩

@[simp] lemma stripLast_concat : stripLast c (a ++ [c]) = a := by
  unfold stripLast
  rw [dropSuffix?_eq_some.2 rfl]
  rfl

lemma stripLast_eq_self : stripLast c l = l ↔ ¬ [c] <:+ l := by
  constructor
  · rintro he ⟨a, rfl⟩
    rw [stripLast_concat] at he
    simpa using congrArg List.length he
  · intro h
    unfold stripLast
    rw [dropSuffix?_eq_none.2 h]
    rfl

lemma stripLast_cases (c : α) (l : List α) : stripLast c l = l ∨ l = stripLast c l ++ [c] := by
  by_cases h : [c] <:+ l
  · obtain ⟨a, rfl⟩ := h
    rw [stripLast_concat]
    exact .inr rfl
  · exact .inl (stripLast_eq_self.2 h)

lemma stripLast_append {x : α} (hx : x ≠ c) : stripLast c (a ++ x :: b) = a ++ x :: stripLast c b := by
  have hlast : ∀ {y : α} {l : List α}, y ≠ c → stripLast c (l ++ [y]) = l ++ [y] := by
    intro y l hy
    refine stripLast_eq_self.2 ?_
    rintro ⟨t, ht⟩
    exact hy (List.cons.inj (append_inj' ht rfl).2).1.symm
  rcases eq_nil_or_concat b with rfl | ⟨b, y, rfl⟩
  · exact hlast hx
  · rw [concat_eq_append, show a ++ x :: (b ++ [y]) = (a ++ x :: b) ++ [y] by simp]
    by_cases hy : y = c
    · rw [hy, stripLast_concat, stripLast_concat]
    · rw [hlast hy, hlast hy, append_assoc, cons_append]

end Parts

section Lines

variable {text l : List Char} {ls : List (List Char)}

/-- A line without its line feed and the carriage return before that. -/
def chopLine (p : List Char) : List Char :=
  match p.dropSuffix? ['\n'] with
  | none => p
  | some l => stripLast '\r' l

def lines (text : List Char) : List (List Char) := (splitInclusive '\n' text).map chopLine

lemma chopLine_concat : chopLine (l ++ ['\n']) = stripLast '\r' l := by
  unfold chopLine
  rw [dropSuffix?_eq_some.2 rfl]

lemma lines_append {rest : List Char} (h : '\n' ∉ l) : lines (l ++ '\n' :: rest) = stripLast '\r' l :: lines rest := by
  unfold lines
  rw [splitInclusive_append h, map_cons, chopLine_concat]

/-- The lines that were written are read without a carriage return. -/
lemma lines_joined (h : ∀ l ∈ ls, '\n' ∉ l) : lines (joined '\n' ls) = ls.map (stripLast '\r') := by
  unfold lines
  rw [splitInclusive_joined h, map_map]
  exact map_congr_left fun l _ => chopLine_concat

lemma notMem_of_mem_lines (h : l ∈ lines text) : '\n' ∉ l := by
  obtain ⟨p, hp, rfl⟩ := mem_map.1 h
  rcases notMem_of_mem_splitInclusive hp with hn | ⟨a, rfl, ha⟩
  · have hnone : p.dropSuffix? ['\n'] = none := dropSuffix?_eq_none.2 fun hs => hn (hs.subset mem_cons_self)
    unfold chopLine
    rw [hnone]
    exact hn
  · rw [chopLine_concat]
    rcases stripLast_cases '\r' a with he | he
    · rw [he]
      exact ha
    · intro hmem
      rw [he] at ha
      exact ha (mem_append_left _ hmem)

end Lines

end Bepository.Lib
