import Mathlib.Algebra.BigOperators.Group.List.Basic
import Mathlib.Algebra.Order.Group.Nat
import Mathlib.Data.List.Sort
import Mathlib.Order.Basic
import Bepository.Bep.Proto

/-!
# Version vectors (`bepository-bep/src/conflict.rs`)

`compare` sorts both vectors by counter id and walks them in step.  `VersionVector.value` reads a
vector as a function of the id, 0 where it has no counter; `compareVersions_eq_ok` says
that `compare` decides the pointwise order of these functions, and fails on repeated ids.
-/

namespace Bepository

open List

/-! ### The comparison -/

/-- `conflict::Ordering`. -/
inductive VersionOrder where
  | greater
  | less
  | equal
  | concurrent
  deriving DecidableEq

def firstRepeat : List Counter → Option ℕ
  | a :: b :: cs => if a.id = b.id then some a.id else firstRepeat (b :: cs)
  | _ => none

def sortCounters (cs : List Counter) : List Counter := cs.insertionSort fun a b => a.id ≤ b.id

def sortedUnique (v : VersionVector) : Except BepError (List Counter) :=
  match firstRepeat (sortCounters v.counters) with
  | some id => .error (.peerBadMessage s!"duplicate counter id {id} in version vector")
  | none => .ok (sortCounters v.counters)

/-- What is left of one vector when the other is at its end: does it count anything? -/
def anyPositive (cs : List Counter) : Bool := cs.any fun c => 0 < c.value

/-- The walk along `b` while it is behind the counter `a` of the other vector; `rest` goes on after
that counter. -/
def walkPast (rest : List Counter → Bool → Bool → Bool × Bool) (a : Counter) (as : List Counter) :
    List Counter → Bool → Bool → Bool × Bool
  | [], x, y => (x || anyPositive (a :: as), y)
  | b :: bs, x, y =>
    if a.id = b.id then rest bs (x || b.value < a.value) (y || a.value < b.value)
    else if a.id < b.id then rest (b :: bs) (x || 0 < a.value) y
    else walkPast rest a as bs x (y || 0 < b.value)

/-- The loops of `compare`, with the flags `a_dominated` and `b_dominated` so far. -/
def dominance : List Counter → List Counter → Bool → Bool → Bool × Bool
  | [], bs, x, y => (x, y || anyPositive bs)
  | a :: as, bs, x, y => walkPast (dominance as) a as bs x y

/-- The result for the flags `a_dominated` and `b_dominated`. -/
def orderOfFlags : Bool × Bool → VersionOrder
  | (false, false) => .equal
  | (true, false) => .greater
  | (false, true) => .less
  | (true, true) => .concurrent

/-- `compare`. -/
def compareVersions (a b : VersionVector) : Except BepError VersionOrder :=
  match sortedUnique a, sortedUnique b with
  | .error e, _ => .error e
  | _, .error e => .error e
  | .ok as, .ok bs => .ok (orderOfFlags (dominance as bs false false))

/-! ### Vectors as functions -/

def valueOf (cs : List Counter) (id : ℕ) : ℕ := (cs.map fun c => if c.id = id then c.value else 0).sum

def VersionVector.value (v : VersionVector) : ℕ → ℕ := valueOf v.counters

def VersionVector.Unique (v : VersionVector) : Prop := (v.counters.map Counter.id).Nodup

instance : DecidablePred VersionVector.Unique :=
  fun v => inferInstanceAs (Decidable (v.counters.map Counter.id).Nodup)

def Increasing (cs : List Counter) : Prop := cs.Pairwise fun a b => a.id < b.id

section Values

variable {a b c : Counter} {as bs cs : List Counter} {id : ℕ}

@[simp] lemma valueOf_nil : valueOf [] id = 0 := rfl

lemma valueOf_cons : valueOf (c :: cs) id = (if c.id = id then c.value else 0) + valueOf cs id := by
  simp [valueOf]

lemma valueOf_eq_zero (h : ∀ c ∈ cs, c.id ≠ id) : valueOf cs id = 0 := by
  induction cs with
  | nil => rfl
  | cons c cs ih =>
    have hc : c.id ≠ id := h c (by simp)
    have hcs : valueOf cs id = 0 := ih fun d hd => h d (by simp [hd])
    rw [valueOf_cons, if_neg hc, hcs]

section

variable (h : Increasing (a :: as))
include h

lemma Increasing.valueOf_tail (hid : id ≤ a.id) : valueOf as id = 0 := by
  refine valueOf_eq_zero fun c hc => ?_
  have := (pairwise_cons.1 h).1 c hc
  omega

lemma Increasing.valueOf_head : valueOf (a :: as) a.id = a.value := by
  rw [valueOf_cons, if_pos rfl, h.valueOf_tail le_rfl, Nat.add_zero]

lemma Increasing.valueOf_before (hid : id < a.id) : valueOf (a :: as) id = 0 := by
  have hne : a.id ≠ id := by omega
  rw [valueOf_cons, if_neg hne, h.valueOf_tail (by omega)]

lemma Increasing.tail : Increasing as := (pairwise_cons.1 h).2

end

lemma valueOf_cons_of_ne (h : a.id ≠ id) : valueOf (a :: as) id = valueOf as id := by
  rw [valueOf_cons, if_neg h, Nat.zero_add]

lemma anyPositive_iff (h : Increasing cs) : anyPositive cs = true ↔ ∃ id, 0 < valueOf cs id := by
  induction cs with
  | nil => simp [anyPositive]
  | cons c cs ih =>
    have hcs := ih h.tail
    have hcons : anyPositive (c :: cs) = true ↔ 0 < c.value ∨ anyPositive cs = true := by
      simp [anyPositive]
    rw [hcons, hcs]
    constructor
    · rintro (hc | ⟨id, hid⟩)
      · exact ⟨c.id, by rwa [h.valueOf_head]⟩
      · exact ⟨id, by rw [valueOf_cons]; omega⟩
    · rintro ⟨id, hid⟩
      by_cases he : c.id = id
      · subst he
        rw [h.valueOf_head] at hid
        exact .inl hid
      · rw [valueOf_cons_of_ne he] at hid
        exact .inr ⟨id, hid⟩

/-! ### The walk decides where one vector exceeds the other -/

/-- `bs` is below `as` at some id. -/
def SomeLt (bs as : List Counter) : Prop := ∃ id, valueOf bs id < valueOf as id

lemma someLt_split {as' bs' : List Counter} (ha : ∀ i, i ≠ id → valueOf as' i = valueOf as i)
    (hb : ∀ i, i ≠ id → valueOf bs' i = valueOf bs i) (hz : valueOf as id = 0) :
    SomeLt bs' as' ↔ valueOf bs' id < valueOf as' id ∨ SomeLt bs as := by
  constructor
  · rintro ⟨i, hi⟩
    by_cases he : i = id
    · exact .inl (he ▸ hi)
    · exact .inr ⟨i, by rwa [← ha i he, ← hb i he]⟩
  · rintro (hv | ⟨i, hi⟩)
    · exact ⟨id, hv⟩
    · have he : i ≠ id := by
        rintro rfl
        omega
      exact ⟨i, by rwa [ha i he, hb i he]⟩

lemma someLt_cons_cons (ha : Increasing (a :: as)) (hb : Increasing (b :: bs)) (h : a.id = b.id) :
    SomeLt (b :: bs) (a :: as) ↔ b.value < a.value ∨ SomeLt bs as := by
  rw [someLt_split (fun i hi => valueOf_cons_of_ne hi.symm) (fun i hi => valueOf_cons_of_ne (h ▸ hi.symm))
    (ha.valueOf_tail le_rfl), ha.valueOf_head, h, hb.valueOf_head]

lemma someLt_cons_right (ha : Increasing (a :: as)) (hb : valueOf bs a.id = 0) :
    SomeLt bs (a :: as) ↔ 0 < a.value ∨ SomeLt bs as := by
  rw [someLt_split (fun i hi => valueOf_cons_of_ne hi.symm) (fun _ _ => rfl) (ha.valueOf_tail le_rfl),
    ha.valueOf_head, hb]

lemma someLt_cons_left (hb : valueOf bs a.id = 0) : SomeLt (a :: as) bs ↔ SomeLt as bs := by
  constructor
  · rintro ⟨id, hid⟩
    rw [valueOf_cons] at hid
    exact ⟨id, by omega⟩
  · rintro ⟨id, hid⟩
    have he : a.id ≠ id := by
      rintro rfl
      omega
    refine ⟨id, ?_⟩
    rwa [valueOf_cons_of_ne he]

lemma someLt_nil_left (h : Increasing as) : SomeLt [] as ↔ anyPositive as = true := by
  rw [anyPositive_iff h]
  rfl

lemma not_someLt_nil_right : ¬ SomeLt as [] := by
  rintro ⟨id, hid⟩
  rw [valueOf_nil] at hid
  omega

/-- **The walk.**  Each flag is raised exactly when its vector is the greater one at some id. -/
theorem dominance_iff (ha : Increasing as) (hb : Increasing bs) (x y : Bool) :
    ((dominance as bs x y).1 = true ↔ x = true ∨ SomeLt bs as) ∧
    ((dominance as bs x y).2 = true ↔ y = true ∨ SomeLt as bs) := by
  induction as generalizing bs x y with
  | nil =>
    have hnot : ¬ SomeLt bs [] := not_someLt_nil_right
    simp [dominance, someLt_nil_left hb, hnot]
  | cons a as ih =>
    -- the walk along `bs` up to the id of `a`
    simp only [dominance]
    induction bs generalizing x y with
    | nil =>
      have hnot : ¬ SomeLt (a :: as) [] := not_someLt_nil_right
      simp [walkPast, someLt_nil_left ha, hnot]
    | cons b bs ihb =>
      rw [walkPast]
      split_ifs with heq hlt
      · obtain ⟨h₁, h₂⟩ := ih ha.tail hb.tail (x || b.value < a.value) (y || a.value < b.value)
        rw [h₁, h₂, someLt_cons_cons ha hb heq, someLt_cons_cons hb ha heq.symm]
        simp [or_assoc]
      · have hzero : valueOf (b :: bs) a.id = 0 := hb.valueOf_before hlt
        obtain ⟨h₁, h₂⟩ := ih ha.tail hb (x || 0 < a.value) y
        rw [h₁, h₂, someLt_cons_right ha hzero, someLt_cons_left hzero]
        simp [or_assoc]
      · have hzero : valueOf (a :: as) b.id = 0 := ha.valueOf_before (by omega)
        obtain ⟨h₁, h₂⟩ := ihb hb.tail x (y || 0 < b.value)
        rw [h₁, h₂, someLt_cons_right hb hzero, someLt_cons_left hzero]
        simp [or_assoc]

/-! ### Sorting -/

instance : Std.Total fun a b : Counter => a.id ≤ b.id := ⟨fun a b => le_total a.id b.id⟩

instance : IsTrans Counter fun a b => a.id ≤ b.id := ⟨fun _ _ _ => le_trans⟩

lemma valueOf_sortCounters : valueOf (sortCounters cs) id = valueOf cs id :=
  ((perm_insertionSort _ _).map _).sum_eq

lemma firstRepeat_eq_none (h : cs.Pairwise fun a b => a.id ≤ b.id) : firstRepeat cs = none ↔ Increasing cs := by
  induction cs with
  | nil => simp [firstRepeat, Increasing]
  | cons a cs ih =>
    cases cs with
    | nil => simp [firstRepeat, Increasing]
    | cons b =>
      obtain ⟨hab, hcs⟩ := pairwise_cons.1 h
      rw [firstRepeat]
      split_ifs with he
      · simp only [false_iff]
        intro hinc
        have := (pairwise_cons.1 hinc).1 b (by simp)
        omega
      · rw [ih hcs]
        refine ⟨fun hinc => pairwise_cons.2 ⟨fun c hc => ?_, hinc⟩, Increasing.tail⟩
        have hle : a.id ≤ b.id := hab b (by simp)
        rcases mem_cons.1 hc with rfl | hc
        · omega
        · have := (pairwise_cons.1 hinc).1 c hc
          omega

lemma increasing_sortCounters : Increasing (sortCounters cs) ↔ (cs.map Counter.id).Nodup := by
  have hperm : ((sortCounters cs).map Counter.id).Perm (cs.map Counter.id) := (perm_insertionSort _ _).map _
  rw [← hperm.nodup_iff]
  constructor
  · intro h
    exact pairwise_map.2 (List.Pairwise.imp (fun hlt => ne_of_lt hlt) h)
  · intro h
    have hsorted : (sortCounters cs).Pairwise fun a b => a.id ≤ b.id := pairwise_insertionSort _ _
    exact hsorted.imp₂ (fun _ _ hle hne => lt_of_le_of_ne hle hne) (pairwise_map.1 h)

lemma sortedUnique_eq_ok {v : VersionVector} :
    sortedUnique v = .ok cs ↔ v.Unique ∧ cs = sortCounters v.counters := by
  have hsorted : (sortCounters v.counters).Pairwise fun a b => a.id ≤ b.id := pairwise_insertionSort _ _
  have hrep := (firstRepeat_eq_none hsorted).trans increasing_sortCounters
  unfold sortedUnique VersionVector.Unique
  cases hf : firstRepeat (sortCounters v.counters) with
  | none =>
    have hu := hrep.1 hf
    simp [hu, eq_comm]
  | some id =>
    have hu : ¬ (v.counters.map Counter.id).Nodup := fun hn => by
      rw [hrep.2 hn] at hf
      cases hf
    simp [hu]

end Values

/-! ### The order -/

section Order

variable {a b c : VersionVector}

def Verdict (f g : ℕ → ℕ) : VersionOrder → Prop
  | .greater => g < f
  | .less => f < g
  | .equal => f = g
  | .concurrent => ¬ f ≤ g ∧ ¬ g ≤ f

variable {o : VersionOrder}

lemma orderOfFlags_eq {f g : ℕ → ℕ} {d : Bool × Bool} (h₁ : d.1 = true ↔ ¬ f ≤ g) (h₂ : d.2 = true ↔ ¬ g ≤ f) :
    orderOfFlags d = o ↔ Verdict f g o := by
  have hanti : f = g ↔ f ≤ g ∧ g ≤ f := le_antisymm_iff
  obtain ⟨x, y⟩ := d
  cases o <;> cases x <;> cases y <;>
    simp only [orderOfFlags, Verdict, lt_iff_le_not_ge, hanti, Bool.false_eq_true, false_iff, not_not,
      true_iff] at h₁ h₂ ⊢ <;> simp [h₁, h₂]

lemma someLt_iff {as bs : List Counter} : SomeLt bs as ↔ ¬ valueOf as ≤ valueOf bs := by
  simp [SomeLt, Pi.le_def]

/-- **The comparison decides the pointwise order** of the vectors, and fails on repeated ids. -/
theorem compareVersions_eq_ok :
    compareVersions a b = .ok o ↔ a.Unique ∧ b.Unique ∧ Verdict a.value b.value o := by
  unfold compareVersions
  cases ha : sortedUnique a with
  | error =>
    have hn : ¬ a.Unique := fun hu => by rw [sortedUnique_eq_ok.2 ⟨hu, rfl⟩] at ha; cases ha
    simp [hn]
  | ok =>
    obtain ⟨hua, rfl⟩ := sortedUnique_eq_ok.1 ha
    cases hb : sortedUnique b with
    | error =>
      have hn : ¬ b.Unique := fun hu => by rw [sortedUnique_eq_ok.2 ⟨hu, rfl⟩] at hb; cases hb
      simp [hn]
    | ok =>
      obtain ⟨hub, rfl⟩ := sortedUnique_eq_ok.1 hb
      obtain ⟨h₁, h₂⟩ := dominance_iff (increasing_sortCounters.2 hua) (increasing_sortCounters.2 hub) false false
      have hva : valueOf (sortCounters a.counters) = a.value := funext fun _ => valueOf_sortCounters
      have hvb : valueOf (sortCounters b.counters) = b.value := funext fun _ => valueOf_sortCounters
      rw [someLt_iff, hva, hvb] at h₁
      rw [someLt_iff, hvb, hva] at h₂
      simp only [Bool.false_eq_true, false_or] at h₁ h₂
      simp only [Except.ok.injEq, hua, hub, true_and]
      exact orderOfFlags_eq h₁ h₂

lemma compareVersions_self : compareVersions a a ≠ .ok .greater := by
  intro h
  exact lt_irrefl _ (compareVersions_eq_ok.1 h).2.2

/-! ### The comparison as an order -/

def VersionOrder.flip : VersionOrder → VersionOrder
  | .greater => .less
  | .less => .greater
  | .equal => .equal
  | .concurrent => .concurrent

def VersionVector.counting (v : VersionVector) : List Counter := v.counters.filter fun c => 0 < c.value

lemma VersionVector.Unique.value_eq (h : a.Unique) {c : Counter} (hc : c ∈ a.counters) :
    a.value c.id = c.value := by
  obtain ⟨cs⟩ := a
  show valueOf cs c.id = c.value
  replace h : (cs.map Counter.id).Nodup := h
  induction cs with
  | nil => cases hc
  | cons d cs ih =>
    obtain ⟨hd, hcs⟩ := nodup_cons.1 h
    rcases mem_cons.1 hc with rfl | hc
    · have hzero : valueOf cs c.id = 0 := valueOf_eq_zero fun e he hid => hd (hid ▸ mem_map_of_mem he)
      rw [valueOf_cons, if_pos rfl, hzero, Nat.add_zero]
    · have hne : d.id ≠ c.id := fun hid => hd (hid ▸ mem_map_of_mem hc)
      rw [valueOf_cons_of_ne hne]
      exact ih hc hcs

lemma valueOf_filter (cs : List Counter) : valueOf (cs.filter fun c => 0 < c.value) = valueOf cs := by
  funext id
  induction cs with
  | nil => rfl
  | cons c cs ih =>
    by_cases hc : 0 < c.value
    · rw [filter_cons, if_pos (decide_eq_true hc), valueOf_cons, valueOf_cons, ih]
    · have hzero : c.value = 0 := by omega
      rw [filter_cons_of_neg (by simpa using hc), valueOf_cons, ih, hzero, ite_self, Nat.zero_add]

lemma value_eq_of_perm (h : a.counting.Perm b.counting) : a.value = b.value := by
  have hsum : valueOf a.counting = valueOf b.counting := funext fun _ => (h.map _).sum_eq
  unfold VersionVector.counting at hsum
  rwa [valueOf_filter, valueOf_filter] at hsum

lemma verdict_flip {f g : ℕ → ℕ} (h : Verdict f g o) : Verdict g f o.flip := by
  cases o with
  | greater | less => exact h
  | equal => exact Eq.symm h
  | concurrent => exact ⟨h.2, h.1⟩

lemma exists_verdict (f g : ℕ → ℕ) : ∃ o, Verdict f g o := by
  by_cases hfg : f ≤ g
  · by_cases hgf : g ≤ f
    · exact ⟨.equal, le_antisymm hfg hgf⟩
    · exact ⟨.less, lt_of_le_not_ge hfg hgf⟩
  · by_cases hgf : g ≤ f
    · exact ⟨.greater, lt_of_le_not_ge hgf hfg⟩
    · exact ⟨.concurrent, hfg, hgf⟩

lemma compareVersions_eq_error : (∃ e, compareVersions a b = .error e) ↔ ¬ a.Unique ∨ ¬ b.Unique := by
  rw [← not_and_or]
  constructor
  · rintro ⟨e, he⟩ ⟨ha, hb⟩
    obtain ⟨o, ho⟩ := exists_verdict a.value b.value
    rw [compareVersions_eq_ok.2 ⟨ha, hb, ho⟩] at he
    cases he
  · intro hn
    cases h : compareVersions a b with
    | error e => exact ⟨e, rfl⟩
    | ok =>
      obtain ⟨ha, hb, -⟩ := compareVersions_eq_ok.1 h
      exact absurd ⟨ha, hb⟩ hn

lemma compareVersions_congr {a' b' : VersionVector} (ha : a.Unique) (ha' : a'.Unique) (hb : b.Unique)
    (hb' : b'.Unique) (hpa : a.counting.Perm a'.counting) (hpb : b.counting.Perm b'.counting) :
    compareVersions a' b' = compareVersions a b := by
  obtain ⟨o, ho⟩ := exists_verdict a.value b.value
  have ho' : Verdict a'.value b'.value o := by rwa [← value_eq_of_perm hpa, ← value_eq_of_perm hpb]
  rw [compareVersions_eq_ok.2 ⟨ha, hb, ho⟩, compareVersions_eq_ok.2 ⟨ha', hb', ho'⟩]

/-- **The comparison is the pointwise order.**  It fails exactly on a repeated id.  Otherwise it is the
verdict on the two vectors as functions, whatever the order of the counters and with or without those that
are 0; so it flips with its arguments, and `Less` and `Greater` are transitive. -/
theorem compareVersions_pointwise (a b : VersionVector) :
    ((∃ e, compareVersions a b = .error e) ↔ ¬ a.Unique ∨ ¬ b.Unique) ∧
    (∀ o, compareVersions a b = .ok o ↔ a.Unique ∧ b.Unique ∧ Verdict a.value b.value o) ∧
    (a.Unique → ∀ c ∈ a.counters, a.value c.id = c.value) ∧
    (∀ id, (∀ c ∈ a.counters, c.id ≠ id) → a.value id = 0) ∧
    (∀ a' b' : VersionVector, a.Unique → a'.Unique → b.Unique → b'.Unique →
      a.counting.Perm a'.counting → b.counting.Perm b'.counting →
      compareVersions a' b' = compareVersions a b) ∧
    (∀ o, compareVersions a b = .ok o → compareVersions b a = .ok o.flip) ∧
    (∀ c, compareVersions a b = .ok .less → compareVersions b c = .ok .less → compareVersions a c = .ok .less) ∧
    (∀ c, compareVersions a b = .ok .greater → compareVersions b c = .ok .greater →
      compareVersions a c = .ok .greater) := by
  refine ⟨compareVersions_eq_error, fun o => compareVersions_eq_ok, fun ha c hc => ha.value_eq hc,
    fun id hid => valueOf_eq_zero hid, ?_, ?_, ?_, ?_⟩
  · intro a' b' ha ha' hb hb' hpa hpb
    exact compareVersions_congr ha ha' hb hb' hpa hpb
  · intro o h
    obtain ⟨ha, hb, ho⟩ := compareVersions_eq_ok.1 h
    exact compareVersions_eq_ok.2 ⟨hb, ha, verdict_flip ho⟩
  · intro c hab hbc
    obtain ⟨ha, -, hlt⟩ := compareVersions_eq_ok.1 hab
    obtain ⟨-, hc, hlt'⟩ := compareVersions_eq_ok.1 hbc
    exact compareVersions_eq_ok.2 ⟨ha, hc, lt_trans hlt hlt'⟩
  · intro c hab hbc
    obtain ⟨ha, -, hlt⟩ := compareVersions_eq_ok.1 hab
    obtain ⟨-, hc, hlt'⟩ := compareVersions_eq_ok.1 hbc
    exact compareVersions_eq_ok.2 ⟨ha, hc, lt_trans hlt' hlt⟩

/-- Counters out of order and a counter of 0 against a longer vector, and a third one above both. -/
theorem compareVersions_pointwise_sample :
    compareVersions ⟨[⟨7, 2⟩, ⟨3, 1⟩, ⟨5, 0⟩]⟩ ⟨[⟨3, 1⟩, ⟨7, 2⟩, ⟨9, 4⟩]⟩ = .ok .less ∧
    compareVersions ⟨[⟨3, 1⟩, ⟨7, 2⟩, ⟨9, 4⟩]⟩ ⟨[⟨7, 2⟩, ⟨3, 1⟩, ⟨5, 0⟩]⟩ = .ok .greater ∧
    compareVersions ⟨[⟨3, 1⟩, ⟨7, 2⟩]⟩ ⟨[⟨3, 1⟩, ⟨7, 2⟩, ⟨9, 4⟩]⟩ = .ok .less ∧
    compareVersions ⟨[⟨7, 2⟩, ⟨3, 1⟩, ⟨5, 0⟩]⟩ ⟨[⟨3, 2⟩, ⟨7, 2⟩, ⟨9, 4⟩]⟩ = .ok .less := by
  have h := compareVersions_pointwise ⟨[⟨7, 2⟩, ⟨3, 1⟩, ⟨5, 0⟩]⟩ ⟨[⟨3, 1⟩, ⟨7, 2⟩, ⟨9, 4⟩]⟩
  have hless : compareVersions ⟨[⟨7, 2⟩, ⟨3, 1⟩, ⟨5, 0⟩]⟩ ⟨[⟨3, 1⟩, ⟨7, 2⟩, ⟨9, 4⟩]⟩ = .ok .less := by decide
  obtain ⟨-, -, -, -, hcongr, hflip, hless', -⟩ := h
  refine ⟨hless, hflip .less hless, ?_, hless' ⟨[⟨3, 2⟩, ⟨7, 2⟩, ⟨9, 4⟩]⟩ hless (by decide)⟩
  rw [← hless]
  exact hcongr ⟨[⟨3, 1⟩, ⟨7, 2⟩]⟩ ⟨[⟨3, 1⟩, ⟨7, 2⟩, ⟨9, 4⟩]⟩ (by decide) (by decide) (by decide)
    (by decide) (by decide) (by decide)

end Order

end Bepository
