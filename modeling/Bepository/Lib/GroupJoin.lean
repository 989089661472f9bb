import Mathlib.Data.List.Nodup
import Mathlib.Data.List.TakeWhile
import Mathlib.Order.Lattice

/-!
# Joining two streams group by group

Two streams whose elements carry labels are read side by side.  Each round takes the smaller of the two
labels in front and, from each stream, the run of elements in front that carry it.  An element without a
label stops its stream.  The labels need not be in order, so a label can come up in several rounds, and two
elements with one label may be in different ones.  They meet in a round if and only if the two streams look
the same from there: the labels of the runs so far that no greater one follows, the skyline, are the same.
-/

namespace Bepository.Lib

open List

section GroupJoin

variable {δ κ α β : Type*} [LinearOrder κ]

def peek (label : α → Option δ) (l : List α) : Option δ := l.head?.bind label

/-- The label of the next round. -/
def nextLabel (key : δ → κ) : Option δ → Option δ → Option δ
  | none, none => none
  | some a, none => some a
  | none, some b => some b
  | some a, some b => if key b < key a then some b else some a

variable {d : δ} {l : List α} {label : α → Option δ}

lemma nextLabel_eq_some {key : δ → κ} {oa ob : Option δ} (h : nextLabel key oa ob = some d) :
    (oa = some d ∨ ob = some d) ∧ (∀ a, oa = some a → key d ≤ key a) ∧ ∀ b, ob = some b → key d ≤ key b := by
  cases oa with
  | none =>
    cases ob with
    | none => cases h
    | some =>
      cases h
      simp
  | some =>
    cases ob with
    | none =>
      cases h
      simp
    | some =>
      rw [nextLabel] at h
      split_ifs at h with hlt
      · cases h
        simp [hlt.le]
      · cases h
        simp [not_lt.1 hlt]

lemma nextLabel_eq_none {key : δ → κ} {oa ob : Option δ} (h : nextLabel key oa ob = none) :
    oa = none ∧ ob = none := by
  cases oa <;> cases ob <;> simp [nextLabel] at h ⊢
  split_ifs at h

variable [DecidableEq δ]

lemma length_dropWhile_lt (h : peek label l = some d) : (l.dropWhile (label · = some d)).length < l.length := by
  cases l with
  | nil => cases h
  | cons a =>
    have ha : label a = some d := h
    rw [dropWhile_cons_of_pos (by simpa using ha)]
    exact Nat.lt_succ_of_le (dropWhile_sublist _).length_le

lemma length_dropWhile_le {p : α → Bool} (l : List α) : (l.dropWhile p).length ≤ l.length :=
  (dropWhile_sublist _).length_le

variable (key : δ → κ) (la : α → Option δ) (lb : β → Option δ)

/-- The rounds: the label, and the runs of the two streams. -/
def groupJoin (as : List α) (bs : List β) : List (δ × List α × List β) :=
  match _h : nextLabel key (peek la as) (peek lb bs) with
  | none => []
  | some d =>
    (d, as.takeWhile (la · = some d), bs.takeWhile (lb · = some d)) ::
      groupJoin (as.dropWhile (la · = some d)) (bs.dropWhile (lb · = some d))
termination_by as.length + bs.length
decreasing_by
  have ha := length_dropWhile_le (p := fun a => decide (la a = some d)) as
  have hb := length_dropWhile_le (p := fun b => decide (lb b = some d)) bs
  rcases (nextLabel_eq_some _h).1 with h | h
  · have := length_dropWhile_lt h
    omega
  · have := length_dropWhile_lt h
    omega

variable {key la lb} {as : List α} {bs : List β}

lemma groupJoin_none (h : nextLabel key (peek la as) (peek lb bs) = none) : groupJoin key la lb as bs = [] := by
  rw [groupJoin]
  split
  · rfl
  · next h' =>
    rw [h] at h'
    cases h'

lemma groupJoin_some (h : nextLabel key (peek la as) (peek lb bs) = some d) :
    groupJoin key la lb as bs = (d, as.takeWhile (la · = some d), bs.takeWhile (lb · = some d)) ::
      groupJoin key la lb (as.dropWhile (la · = some d)) (bs.dropWhile (lb · = some d)) := by
  rw [groupJoin]
  split
  · next h' =>
    rw [h] at h'
    cases h'
  · next h' =>
    rw [h] at h'
    cases h'
    rfl

omit [DecidableEq δ] in
lemma takeWhile_eq_append {p q : α → Bool} (h : ∀ a, q a = true → p a = true) (l : List α) :
    l.takeWhile p = l.takeWhile q ++ (l.dropWhile q).takeWhile p := by
  induction l with
  | nil => rfl
  | cons a l ih =>
    by_cases hq : q a = true
    · rw [takeWhile_cons_of_pos (h a hq), takeWhile_cons_of_pos hq, dropWhile_cons_of_pos hq, ih, cons_append]
    · rw [takeWhile_cons_of_neg hq, dropWhile_cons_of_neg hq, nil_append]

lemma mem_takeWhile_isSome (d : δ) {a : α} : a ∈ l.takeWhile (fun a => (label a).isSome) ↔
    a ∈ l.takeWhile (label · = some d) ∨
      a ∈ (l.dropWhile (label · = some d)).takeWhile fun a => (label a).isSome := by
  have hsome : ∀ a, decide (label a = some d) = true → (label a).isSome := by
    intro a ha
    rw [of_decide_eq_true ha]
    rfl
  rw [takeWhile_eq_append hsome, mem_append]

/-- **What is in some round**: the elements of the first stream with no unlabelled one at or before them. -/
theorem exists_group_iff {a : α} :
    (∃ g ∈ groupJoin key la lb as bs, a ∈ g.2.1) ↔ a ∈ as.takeWhile fun a => (la a).isSome := by
  induction as, bs using groupJoin.induct key la lb with
  | case1 as bs h =>
    obtain ⟨hnone, -⟩ := nextLabel_eq_none h
    rw [groupJoin_none h]
    cases as with
    | nil => simp
    | cons a' =>
      have hl : la a' = none := hnone
      rw [takeWhile_cons_of_neg (by simp [hl])]
      simp
  | case2 as bs d h ih =>
    rw [groupJoin_some h, mem_takeWhile_isSome d, ← ih]
    simp only [mem_cons, exists_eq_or_imp]

lemma mem_run {a : α} (ha : a ∈ l.takeWhile (label · = some d)) : a ∈ l ∧ label a = some d :=
  ⟨(takeWhile_sublist _).subset ha, by simpa using mem_takeWhile_imp ha⟩

lemma mem_of_mem_group {g : δ × List α × List β} (hg : g ∈ groupJoin key la lb as bs) :
    (∀ a ∈ g.2.1, a ∈ as ∧ la a = some g.1) ∧ ∀ b ∈ g.2.2, b ∈ bs ∧ lb b = some g.1 := by
  induction as, bs using groupJoin.induct key la lb with
  | case1 as bs h =>
    rw [groupJoin_none h] at hg
    cases hg
  | case2 as bs d h ih =>
    rw [groupJoin_some h] at hg
    rcases mem_cons.1 hg with rfl | hg
    · exact ⟨fun a ha => mem_run ha, fun b hb => mem_run hb⟩
    · obtain ⟨iha, ihb⟩ := ih hg
      refine ⟨fun a ha => ?_, fun b hb => ?_⟩
      · exact ⟨(dropWhile_sublist _).subset (iha a ha).1, (iha a ha).2⟩
      · exact ⟨(dropWhile_sublist _).subset (ihb b hb).1, (ihb b hb).2⟩

end GroupJoin

/-! ### The skyline -/

section Skyline

variable {δ κ : Type*} [LinearOrder κ] [DecidableEq δ]

/-- The labels of the runs that no greater label follows. -/
def skyline (key : δ → κ) : List δ → List δ
  | [] => []
  | d :: l => if l.head? = some d ∨ ∃ e ∈ l, key d < key e then skyline key l else d :: skyline key l

variable {key : δ → κ} {d : δ} {l l' run : List δ}

lemma skyline_run (hne : run ≠ []) (hrun : ∀ e ∈ run, e = d) : skyline key run = [d] := by
  induction run with
  | nil => exact absurd rfl hne
  | cons e run ih =>
    obtain ⟨rfl, hall⟩ := forall_mem_cons.1 hrun
    rw [skyline]
    cases run with
    | nil => simp [skyline]
    | cons e' =>
      obtain rfl : e' = e := hall e' mem_cons_self
      rw [if_pos (.inl rfl)]
      exact ih (cons_ne_nil _ _) hall

variable (key) in
/-- The first label of the skyline is the greatest. -/
lemma exists_skyline_eq_cons (hne : l ≠ []) :
    ∃ e t, skyline key l = e :: t ∧ e ∈ l ∧ ∀ e' ∈ l, key e' ≤ key e := by
  induction l with
  | nil => exact absurd rfl hne
  | cons d l ih =>
    rw [skyline]
    cases l with
    | nil => exact ⟨d, [], by simp [skyline], mem_cons_self, by simp⟩
    | cons =>
      obtain ⟨e, t, hsky, he, hmax⟩ := ih (cons_ne_nil _ _)
      split_ifs with h
      · refine ⟨e, t, hsky, mem_cons_of_mem _ he, forall_mem_cons.2 ⟨?_, hmax⟩⟩
        rcases h with h | ⟨e', he', hlt⟩
        · cases h
          exact hmax d mem_cons_self
        · exact hlt.le.trans (hmax e' he')
      · push Not at h
        exact ⟨d, _, rfl, mem_cons_self, forall_mem_cons.2 ⟨le_rfl, h.2⟩⟩

/-- A run counts as one label; an empty one does not show where a greater label follows. -/
lemma skyline_append (hrun : ∀ e ∈ run, e = d) (hhead : l.head? ≠ some d)
    (hempty : run = [] → ∃ e ∈ l, key d < key e) : skyline key (run ++ l) = skyline key (d :: l) := by
  induction run with
  | nil => rw [nil_append, skyline, if_pos (.inr (hempty rfl))]
  | cons e run ih =>
    obtain ⟨rfl, hall⟩ := forall_mem_cons.1 hrun
    rw [cons_append]
    cases run with
    | nil => rfl
    | cons e' =>
      obtain rfl : e' = e := hall e' mem_cons_self
      rw [skyline, if_pos (.inl rfl)]
      exact ih hall (by rintro ⟨⟩)

variable (key) in
lemma skyline_cons (hne : l ≠ []) (hhead : l.head? ≠ some d) : ∃ e t, skyline key l = e :: t ∧
    skyline key (d :: l) = if key d < key e then e :: t else d :: e :: t := by
  obtain ⟨e, t, hsky, he, hmax⟩ := exists_skyline_eq_cons key hne
  have hgreater : (∃ e' ∈ l, key d < key e') ↔ key d < key e := by
    constructor
    · rintro ⟨e', he', hlt⟩
      exact hlt.trans_le (hmax e' he')
    · exact fun hlt => ⟨e, he, hlt⟩
  refine ⟨e, t, hsky, ?_⟩
  rw [skyline, hsky]
  simp only [hhead, false_or, hgreater]

lemma skyline_cons_ne (hne : l ≠ []) (hhead : l.head? ≠ some d) : skyline key (d :: l) ≠ [d] := by
  obtain ⟨e, t, -, hcons⟩ := skyline_cons key hne hhead
  rw [hcons]
  split_ifs with hlt
  · rintro ⟨⟩
    exact lt_irrefl _ hlt
  · simp

lemma skyline_cons_inj (hne : l ≠ []) (hne' : l' ≠ []) (hhead : l.head? ≠ some d) (hhead' : l'.head? ≠ some d) :
    skyline key (d :: l) = skyline key (d :: l') ↔ skyline key l = skyline key l' := by
  obtain ⟨e, t, hsky, hcons⟩ := skyline_cons key hne hhead
  obtain ⟨e', t', hsky', hcons'⟩ := skyline_cons key hne' hhead'
  rw [hcons, hcons', hsky, hsky']
  split_ifs with hlt hlt' hlt'
  · rfl
  · -- `d` would be hidden by itself
    refine iff_of_false ?_ ?_
    · rintro ⟨⟩
      exact lt_irrefl _ hlt
    · rintro ⟨⟩
      exact hlt' hlt
  · refine iff_of_false ?_ ?_
    · rintro ⟨⟩
      exact lt_irrefl _ hlt'
    · rintro ⟨⟩
      exact hlt hlt'
  · rw [cons_inj_right]

end Skyline

/-! ### Which elements meet -/

section Meet

variable {δ κ α β : Type*} [LinearOrder κ] [DecidableEq δ] {key : δ → κ} {label : α → Option δ}
  {la : α → Option δ} {lb : β → Option δ} {d : δ} {a : α} {b : β} {l₁ l₂ as₁ as₂ : List α} {bs₁ bs₂ : List β}

/-- An element is in the run in front, or behind it. -/
lemma mem_run_or (p : α → Bool) (l₁ l₂ : List α) (a : α) : (∀ x ∈ l₁ ++ [a], p x = true) ∧ a ∈ (l₁ ++ a :: l₂).takeWhile p ∨
    ∃ l₁', l₁ = (l₁ ++ a :: l₂).takeWhile p ++ l₁' ∧ (l₁ ++ a :: l₂).dropWhile p = l₁' ++ a :: l₂ := by
  induction l₁ with
  | nil =>
    by_cases ha : p a = true
    · simp [ha]
    · exact .inr ⟨[], by simp [ha], by simp [ha]⟩
  | cons x l₁ ih =>
    by_cases hx : p x = true
    · rw [show x :: l₁ ++ a :: l₂ = x :: (l₁ ++ a :: l₂) from rfl, takeWhile_cons_of_pos hx, dropWhile_cons_of_pos hx]
      rcases ih with ⟨hall, ha⟩ | ⟨l₁', hl, hdrop⟩
      · exact .inl ⟨forall_mem_cons.2 ⟨hx, hall⟩, mem_cons_of_mem _ ha⟩
      · exact .inr ⟨l₁', by rw [cons_append, ← hl], hdrop⟩
    · exact .inr ⟨x :: l₁, by simp [hx], by simp [hx]⟩

lemma notMem_dropWhile {p : α → Bool} {l : List α} (hl : l.Nodup) (ha : a ∈ l.takeWhile p) : a ∉ l.dropWhile p := by
  rw [← takeWhile_append_dropWhile (p := p) (l := l)] at hl
  exact disjoint_of_nodup_append hl ha

/-- The skyline up to an element, by whether the element is in the run in front. -/
lemma skyline_front (hkey : Function.Injective key) (hsome : ∀ x ∈ l₁ ++ a :: l₂, (label x).isSome)
    (hd : ∀ e, peek label (l₁ ++ a :: l₂) = some e → key d ≤ key e) :
    a ∈ (l₁ ++ a :: l₂).takeWhile (label · = some d) ∧ skyline key ((l₁ ++ [a]).filterMap label) = [d] ∨
    ∃ l₁', (l₁ ++ a :: l₂).dropWhile (label · = some d) = l₁' ++ a :: l₂ ∧
      ((l₁' ++ [a]).filterMap label).head? ≠ some d ∧ (l₁' ++ [a]).filterMap label ≠ [] ∧
      skyline key ((l₁ ++ [a]).filterMap label) = skyline key (d :: (l₁' ++ [a]).filterMap label) := by
  rcases mem_run_or (label · = some d) l₁ l₂ a with ⟨hall, ha⟩ | ⟨l₁', hl, hdrop⟩
  · refine .inl ⟨ha, skyline_run ?_ ?_⟩
    · exact ne_nil_of_mem (mem_filterMap.2 ⟨a, by simp, (mem_run ha).2⟩)
    · intro e he
      obtain ⟨x, hx, hxe⟩ := mem_filterMap.1 he
      have hxd : label x = some d := by simpa using hall x hx
      rw [hxd] at hxe
      exact (Option.some.inj hxe).symm
  · -- the element behind the run has another label
    obtain ⟨x, rest, hx⟩ := exists_cons_of_ne_nil (append_ne_nil_of_right_ne_nil l₁' (cons_ne_nil a []))
    have hdropx : (l₁ ++ a :: l₂).dropWhile (label · = some d) = x :: (rest ++ l₂) := by
      rw [hdrop, ← cons_append, ← hx, append_assoc, singleton_append]
    have hmem : x ∈ l₁ ++ a :: l₂ := (dropWhile_sublist _).subset (hdropx ▸ mem_cons_self)
    obtain ⟨e, he⟩ := Option.isSome_iff_exists.1 (hsome x hmem)
    have hed : e ≠ d := by
      rintro rfl
      have hnot := head?_dropWhile_not (fun y => decide (label y = some e)) (l₁ ++ a :: l₂)
      rw [hdropx] at hnot
      simp [he] at hnot
    have hlabels : (l₁' ++ [a]).filterMap label = e :: rest.filterMap label := by
      rw [hx, filterMap_cons_some he]
    have hhead : ((l₁' ++ [a]).filterMap label).head? ≠ some d := by
      rw [hlabels]
      simpa using hed
    refine .inr ⟨l₁', hdrop, hhead, by simp [hlabels], ?_⟩
    have hrun : (l₁ ++ [a]).filterMap label =
        ((l₁ ++ a :: l₂).takeWhile (label · = some d)).filterMap label ++ (l₁' ++ [a]).filterMap label := by
      rw [← filterMap_append, ← append_assoc, ← hl]
    rw [hrun]
    refine skyline_append ?_ hhead fun hempty => ⟨e, by simp [hlabels], ?_⟩
    · intro e' he'
      obtain ⟨y, hy, hye⟩ := mem_filterMap.1 he'
      rw [(mem_run hy).2] at hye
      exact (Option.some.inj hye).symm
    · have hnil : (l₁ ++ a :: l₂).takeWhile (label · = some d) = [] := by
        rw [eq_nil_iff_forall_not_mem]
        intro y hy
        have hd' : d ∈ ((l₁ ++ a :: l₂).takeWhile (label · = some d)).filterMap label :=
          mem_filterMap.2 ⟨y, hy, (mem_run hy).2⟩
        rw [hempty] at hd'
        cases hd'
      have hall : l₁ ++ a :: l₂ = x :: (rest ++ l₂) := by
        have hsplit := takeWhile_append_dropWhile (p := fun y => decide (label y = some d)) (l := l₁ ++ a :: l₂)
        rw [hnil, hdropx, nil_append] at hsplit
        exact hsplit.symm
      have hpeek : peek label (l₁ ++ a :: l₂) = some e := by
        rw [hall]
        exact he
      exact lt_of_le_of_ne (hd e hpeek) fun h => hed (hkey h).symm

/-- **Two elements with one label meet** if and only if the skylines up to them are the same. -/
theorem mem_group_iff (hkey : Function.Injective key) (hsa : ∀ x ∈ as₁ ++ a :: as₂, (la x).isSome)
    (hsb : ∀ x ∈ bs₁ ++ b :: bs₂, (lb x).isSome) (hna : (as₁ ++ a :: as₂).Nodup) (hnb : (bs₁ ++ b :: bs₂).Nodup)
    (ha : la a = some d) (hb : lb b = some d) {g : δ × List α × List β}
    (hg : g ∈ groupJoin key la lb (as₁ ++ a :: as₂) (bs₁ ++ b :: bs₂)) (hag : a ∈ g.2.1) :
    b ∈ g.2.2 ↔ skyline key ((as₁ ++ [a]).filterMap la) = skyline key ((bs₁ ++ [b]).filterMap lb) := by
  generalize has : as₁ ++ a :: as₂ = as at *
  generalize hbs : bs₁ ++ b :: bs₂ = bs at *
  induction as, bs using groupJoin.induct key la lb generalizing as₁ bs₁ with
  | case1 as bs h =>
    rw [groupJoin_none h] at hg
    cases hg
  | case2 as bs d₀ h ih =>
    obtain ⟨-, hda, hdb⟩ := nextLabel_eq_some h
    subst has hbs
    rw [groupJoin_some h] at hg
    rcases mem_cons.1 hg with rfl | hg
    · rcases skyline_front hkey hsa hda with ⟨hruna, hska⟩ | ⟨as₁', hdropa, -⟩
      · obtain rfl : d₀ = d := Option.some.inj ((mem_run hruna).2.symm.trans ha)
        rcases skyline_front hkey hsb hdb with ⟨hrunb, hskb⟩ | ⟨bs₁', hdropb, hheadb, hneb, hskb⟩
        · exact iff_of_true hrunb (hska.trans hskb.symm)
        · refine iff_of_false (fun hb' => notMem_dropWhile hnb hb' (hdropb ▸ by simp)) ?_
          rw [hska, hskb]
          exact (skyline_cons_ne hneb hheadb).symm
      · exact absurd (hdropa ▸ by simp) (notMem_dropWhile hna hag)
    · have hmem := mem_of_mem_group hg
      rcases skyline_front hkey hsa hda with ⟨hruna, -⟩ | ⟨as₁', hdropa, hheada, hnea, hska⟩
      · exact absurd (hmem.1 a hag).1 (notMem_dropWhile hna hruna)
      · rcases skyline_front hkey hsb hdb with ⟨hrunb, hskb⟩ | ⟨bs₁', hdropb, hheadb, hneb, hskb⟩
        · obtain rfl : d₀ = d := Option.some.inj ((mem_run hrunb).2.symm.trans hb)
          refine iff_of_false (fun hb' => notMem_dropWhile hnb hrunb (hmem.2 b hb').1) ?_
          rw [hska, hskb]
          exact skyline_cons_ne hnea hheada
        · rw [hska, hskb, skyline_cons_inj hnea hneb hheada hheadb]
          refine ih hdropa.symm ?_ ?_ hdropb.symm ?_ ?_ hg
          · exact fun x hx => hsa x ((dropWhile_sublist _).subset hx)
          · exact hna.sublist (dropWhile_sublist _)
          · exact fun x hx => hsb x ((dropWhile_sublist _).subset hx)
          · exact hnb.sublist (dropWhile_sublist _)

end Meet

end Bepository.Lib
