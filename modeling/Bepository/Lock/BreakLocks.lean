import Bepository.Lock.Lone

/-!
# Breaking the locks of a directory

`unsafe_break_locks` with nobody else at work, over any directory and any failures of the store.  It claims
the epoch after the highest one for its breaker and walks the LIST upwards: the first active file stays,
everything else is deleted, at the end the breaker's own file.  The failures of its requests lead to that
last DELETE as well, but for two: the body of a GET that breaks off, and a PUT whose answer is lost.
-/

namespace Bepository.Lock

open Lib List Table

section Break

variable {ι : Type*} (c : Config ι) (p : ι)

/-- The file parses and is not expired at `ts`. -/
def active (ts : Timestamp) (o : Object) : Bool :=
  (o.content.bind fun f => c.expiry o.lastModified f.duration).any (ts < ·)

/-- The lowest file that is active at `ts`. -/
structure LiveOwner (ts : Timestamp) (fs : Files) (e : Epoch) (o : Object) : Prop where
  lookup : fs.lookup e = some o
  active : active c ts o = true
  lowest : ∀ g o', fs.lookup g = some o' → Lock.active c ts o' = true → e ≤ g

/-! ### What the breaker knows -/

/-- The directory that was `fs₀`, with the breaker `b` at work: its file is the only new one, and the owner's
is there. -/
structure Guarded (ts : Timestamp) (fs₀ : Files) (b : Epoch) (fs : Files) : Prop where
  old : ∀ e o, fs.lookup e = some o → e = b ∨ fs₀.lookup e = some o
  owner : ∀ e o, LiveOwner c ts fs₀ e o → fs.lookup e = some o

/-- The walk stands before `metas`: these files are still there, and the owner is among them or behind. -/
structure Walk (ts : Timestamp) (fs₀ : Files) (b : Epoch) (fs : Files) (metas : List ObjectMeta)
    (found : Bool) : Prop extends Guarded c ts fs₀ b fs where
  sorted : metas.Pairwise fun a b => a.epoch < b.epoch
  listed : ∀ m ∈ metas, m.epoch ≠ b ∧ ∃ o, fs.lookup m.epoch = some o ∧ o.lastModified = m.lastModified
  ahead : found = false → ∀ e o, fs₀.lookup e = some o → active c ts o = true → e ∈ metas.map ObjectMeta.epoch
  behind : found = true → ∀ e o, LiveOwner c ts fs₀ e o → e ∉ metas.map ObjectMeta.epoch

/-- With every DELETE so far in effect, the files are the breaker's, those still to be looked at, and the
owner's. -/
def Cleared (clean : Prop) (ts : Timestamp) (fs₀ : Files) (b : Epoch) (fs : Files) (todo : List Epoch) : Prop :=
  clean → ∀ e o, fs.lookup e = some o → e = b ∨ e ∈ todo ∨ LiveOwner c ts fs₀ e o

/-- The directory when the breaker's file is there and nothing has been deleted. -/
def Claims (ts : Timestamp) (fs₀ : Files) (b : Epoch) (fs : Files) : Prop :=
  b.val = nextVal (listEpochMetas fs₀) ∧ fs = fs₀.insert b ⟨some (content c p .breakLocks), ts⟩

/-- What a lone `unsafe_break_locks` knows before its `k`th request; it is in no other phase. -/
def Breaking (clean : Prop) (ts : Timestamp) (fs₀ : Files) (k : ℕ) (fs : Files) : Phase → Prop
  | .claimList .breakLocks => k = 0 ∧ fs = fs₀
  | .claimPut .breakLocks b => k = 1 ∧ fs = fs₀ ∧ b.val = nextVal (listEpochMetas fs₀)
  | .claimHead .breakLocks b => Claims c p ts fs₀ b fs
  | .breakList b ts' => ts' = ts ∧ Claims c p ts fs₀ b fs
  | .breakGet b ts' metas found =>
    ts' = ts ∧ b.val = nextVal (listEpochMetas fs₀) ∧ metas ≠ [] ∧ Walk c ts fs₀ b fs metas found ∧
      Cleared c clean ts fs₀ b fs (metas.map ObjectMeta.epoch)
  | .breakDelete b ts' v metas found =>
    ts' = ts ∧ b.val = nextVal (listEpochMetas fs₀) ∧ Walk c ts fs₀ b fs metas found ∧
      v ∉ metas.map ObjectMeta.epoch ∧ (∀ o, ¬ LiveOwner c ts fs₀ v o) ∧
      Cleared c clean ts fs₀ b fs (v :: metas.map ObjectMeta.epoch)
  | .breakDrop b res =>
    b.val = nextVal (listEpochMetas fs₀) ∧ Guarded c ts fs₀ b fs ∧ (res = .ok () → Cleared c clean ts fs₀ b fs [])
  | _ => False

structure Broken (clean : Prop) (ts : Timestamp) (fs₀ fs : Files) (res : Except Error Unit) : Prop where
  owner : ∀ e o, LiveOwner c ts fs₀ e o → fs.lookup e = some o
  cleared : res = .ok () → clean → ∀ e o, fs.lookup e = some o → LiveOwner c ts fs₀ e o

def BreakOutcome (clean : Prop) (ts : Timestamp) (fs₀ : Files) (k : ℕ) (fs : Files) : Outcome → Prop
  | .next ph => Breaking c p clean ts fs₀ k fs ph
  | .broken res => Broken c clean ts fs₀ fs res
  | _ => False

/-- The part the call is in, and the requests it has still to send there. -/
def Phase.breakDistance : Phase → ℕ ×ₗ ℕ
  | .claimList _ => toLex (5, 0)
  | .claimPut .. => toLex (4, 0)
  | .claimHead .. => toLex (3, 0)
  | .breakList .. => toLex (2, 0)
  | .breakGet _ _ metas _ => toLex (1, 2 * metas.length)
  | .breakDelete _ _ _ metas _ => toLex (1, 2 * metas.length + 1)
  | _ => toLex (0, 0)

/-- The request is a DELETE of `unsafe_break_locks`. -/
def Phase.breaks : Phase → Bool
  | .breakDelete .. | .breakDrop .. => true
  | _ => false

def Outcome.breaks : Outcome → Bool
  | .next ph => ph.breaks
  | _ => false

/-- A request whose lost answer makes `unsafe_break_locks` return at once: a PUT, and a GET whose body breaks
off. -/
def Phase.abandons : Phase → Bool
  | .claimPut .. | .breakGet .. => true
  | _ => false

variable {c} {p} {e b v : Epoch} {fs₀ fs fs' : Files} {ts clock now : Timestamp} {metas : List ObjectMeta}
  {found : Bool} {m : ObjectMeta} {f : EpochFile} {o : Object} {r : Reply} {i k : ℕ} {ph : Phase}
  {out : Outcome} {clean : Prop} {todo : List Epoch}

lemma active_eq_true : active c ts o = true ↔
      ∃ f x, o.content = some f ∧ c.expiry o.lastModified f.duration = some x ∧ ts < x := by
  simp only [active, Option.any_eq_true, Option.bind_eq_some_iff, decide_eq_true_eq]
  constructor
  · rintro ⟨x, ⟨f, hf, hx⟩, hlt⟩
    exact ⟨f, x, hf, hx, hlt⟩
  · rintro ⟨f, x, hf, hx, hlt⟩
    exact ⟨x, ⟨f, hf, hx⟩, hlt⟩

lemma pairwise_lt_listEpochMetas (fs : Files) : (listEpochMetas fs).Pairwise fun a b => a.epoch < b.epoch := by
  have hperm := perm_insertionSort (fun a b : ObjectMeta => a.epoch ≤ b.epoch)
    (fs.toList.map fun r => ⟨r.1, r.2.lastModified⟩)
  have hne : (listEpochMetas fs).Pairwise fun a b => a.epoch ≠ b.epoch := by
    rw [← pairwise_map (R := fun a b : Epoch => a ≠ b), ← nodup_iff_pairwise_ne]
    refine ((hperm.map ObjectMeta.epoch).nodup_iff).2 ?_
    rw [map_map]
    exact nodup_toList_keys fs
  exact ((pairwise_listEpochMetas fs).and hne).imp fun h => lt_of_le_of_ne h.1 h.2

/-! ### The owner and the breaker -/

lemma lt_breaker (hb : b.val = nextVal (listEpochMetas fs₀)) (h : e ∈ fs₀) : e < b := by
  have hlt := lt_nextVal h
  rwa [← hb] at hlt

lemma LiveOwner.ne (h : LiveOwner c ts fs₀ e o) (hb : b.val = nextVal (listEpochMetas fs₀)) : e ≠ b :=
  (lt_breaker hb (mem_of_lookup h.lookup)).ne

lemma lookup_claims (h : Claims c p ts fs₀ b fs) :
    fs.lookup e = if e = b then some ⟨some (content c p .breakLocks), ts⟩ else fs₀.lookup e := by
  rw [h.2, lookup_insert']

lemma Claims.guarded (h : Claims c p ts fs₀ b fs) : Guarded c ts fs₀ b fs := by
  refine ⟨fun e o ho => ?_, fun e o ho => ?_⟩
  · rw [lookup_claims h] at ho
    by_cases hb : e = b
    · exact .inl hb
    · rw [if_neg hb] at ho
      exact .inr ho
  · rw [lookup_claims h, if_neg (ho.ne h.1)]
    exact ho.lookup

lemma Claims.walk (h : Claims c p ts fs₀ b fs) :
    Walk c ts fs₀ b fs ((listEpochMetas fs).filter (·.epoch ≠ b)) false := by
  refine ⟨h.guarded, (pairwise_lt_listEpochMetas fs).filter _, fun m hm => ?_, fun _ e o ho _ => ?_, by simp⟩
  · obtain ⟨hm, hb⟩ := mem_filter.1 hm
    exact ⟨by simpa using hb, mem_listEpochMetas.1 hm⟩
  · have hne : e ≠ b := (lt_breaker h.1 (mem_of_lookup ho)).ne
    have hl : fs.lookup e = some o := by rw [lookup_claims h, if_neg hne, ho]
    exact mem_map.2 ⟨⟨e, o.lastModified⟩,
      mem_filter.2 ⟨mem_listEpochMetas.2 ⟨o, hl, rfl⟩, by simpa using hne⟩, rfl⟩

lemma cleared_list :
    Cleared c clean ts fs₀ b fs (((listEpochMetas fs).filter (·.epoch ≠ b)).map ObjectMeta.epoch) := by
  intro _ e o ho
  by_cases hb : e = b
  · exact .inl hb
  · refine .inr (.inl (mem_map.2 ⟨⟨e, o.lastModified⟩, mem_filter.2 ⟨?_, by simpa using hb⟩, rfl⟩))
    exact mem_listEpochMetas.2 ⟨o, ho, rfl⟩

lemma Guarded.delete (h : Guarded c ts fs₀ b fs) (hv : ∀ o, ¬ LiveOwner c ts fs₀ v o) :
    Guarded c ts fs₀ b (delete fs r v) := by
  refine ⟨fun e o ho => h.old e o (lookup_delete ho), fun e o ho => ?_⟩
  have hne : e ≠ v := by
    rintro rfl
    exact hv o ho
  rw [lookup_delete_ne hne]
  exact h.owner e o ho

lemma Walk.delete (h : Walk c ts fs₀ b fs metas found) (hv : ∀ o, ¬ LiveOwner c ts fs₀ v o)
    (hmem : v ∉ metas.map ObjectMeta.epoch) : Walk c ts fs₀ b (delete fs r v) metas found := by
  refine ⟨h.toGuarded.delete hv, h.sorted, fun m hm => ?_, h.ahead, h.behind⟩
  have hne : m.epoch ≠ v := by
    rintro rfl
    exact hmem (mem_map_of_mem hm)
  rw [lookup_delete_ne hne]
  exact h.listed m hm

lemma Cleared.delete (h : Cleared c clean ts fs₀ b fs (v :: todo)) (hr : clean → r ≠ .err) :
    Cleared c clean ts fs₀ b (delete fs r v) todo := by
  intro hclean e o ho
  have hne : e ≠ v := by
    rintro rfl
    rw [Lock.delete, if_neg (hr hclean), lookup_erase', if_pos rfl] at ho
    cases ho
  rcases h hclean e o (lookup_delete ho) with hb | hmem | hown
  · exact .inl hb
  · exact .inr (.inl ((mem_cons.1 hmem).resolve_left hne))
  · exact .inr (.inr hown)

/-! ### One file of the walk -/

section

variable (h : Walk c ts fs₀ b fs (m :: metas) found)
include h

lemma Walk.head :
    ∃ o, fs.lookup m.epoch = some o ∧ fs₀.lookup m.epoch = some o ∧ o.lastModified = m.lastModified := by
  obtain ⟨hb, o, ho, hm⟩ := h.listed m mem_cons_self
  exact ⟨o, ho, (h.old _ _ ho).resolve_left hb, hm⟩

lemma Walk.notMem_tail : m.epoch ∉ metas.map ObjectMeta.epoch := by
  intro hmem
  obtain ⟨m', hm', heq⟩ := mem_map.1 hmem
  exact absurd (rel_of_pairwise_cons h.sorted hm') (by rw [heq]; exact lt_irrefl _)

lemma Walk.pass (ho : fs₀.lookup m.epoch = some o) (hv : found = true ∨ active c ts o = false) :
    Walk c ts fs₀ b fs metas found ∧ ∀ o, ¬ LiveOwner c ts fs₀ m.epoch o := by
  refine ⟨⟨h.toGuarded, h.sorted.of_cons, fun m' h' => h.listed m' (mem_cons_of_mem m h'),
    fun hf e o' ho' ha => ?_, fun hf e o' ho' hmem => h.behind hf e o' ho' (mem_cons_of_mem _ hmem)⟩,
    fun o' ho' => ?_⟩
  · refine (mem_cons.1 (h.ahead hf e o' ho' ha)).resolve_left fun heq => ?_
    subst heq
    rw [ho] at ho'
    cases ho'
    rcases hv with hv | hv
    · rw [hv] at hf
      cases hf
    · rw [ha] at hv
      cases hv
  · rcases hv with hv | hv
    · exact h.behind hv _ o' ho' mem_cons_self
    · have hl := ho'.lookup
      rw [ho] at hl
      cases hl
      rw [ho'.active] at hv
      cases hv

end

lemma Walk.meet (h : Walk c ts fs₀ b fs (m :: metas) false) (ho : fs₀.lookup m.epoch = some o)
    (ha : active c ts o = true) : Walk c ts fs₀ b fs metas true ∧ LiveOwner c ts fs₀ m.epoch o := by
  have howner : LiveOwner c ts fs₀ m.epoch o := by
    refine ⟨ho, ha, fun g o' hg hga => ?_⟩
    rcases mem_cons.1 (h.ahead rfl g o' hg hga) with heq | hmem
    · exact heq.ge
    · obtain ⟨m', hm', rfl⟩ := mem_map.1 hmem
      exact (rel_of_pairwise_cons h.sorted hm').le
  refine ⟨⟨h.toGuarded, h.sorted.of_cons, fun m' h' => h.listed m' (mem_cons_of_mem m h'), by simp,
    fun _ e o' ho' hmem => ?_⟩, howner⟩
  have heq : e = m.epoch := le_antisymm (ho'.lowest _ o ho ha) (howner.lowest _ o' ho'.lookup ho'.active)
  exact h.notMem_tail (heq ▸ hmem)

lemma Breaking.owner (h : Breaking c p clean ts fs₀ k fs ph) (ho : LiveOwner c ts fs₀ e o) :
    fs.lookup e = some o := by
  cases ph with
  | claimList why =>
    cases why with
    | acquire => exact h.elim
    | breakLocks =>
      obtain ⟨-, rfl⟩ := h
      exact ho.lookup
  | claimPut why =>
    cases why with
    | acquire => exact h.elim
    | breakLocks =>
      obtain ⟨-, rfl, -⟩ := h
      exact ho.lookup
  | claimHead why =>
    cases why with
    | acquire => exact h.elim
    | breakLocks => exact h.guarded.owner e o ho
  | breakList => exact h.2.guarded.owner e o ho
  | breakGet => exact h.2.2.2.1.owner e o ho
  | breakDelete => exact h.2.2.1.owner e o ho
  | breakDrop => exact h.2.1.owner e o ho
  | _ => exact h.elim

/-! ### Its requests -/

lemma Guarded.broken (h : Guarded c ts fs₀ b fs) (err : Error) : Broken c clean ts fs₀ fs (.error err) :=
  ⟨h.owner, by simp⟩

lemma broken_self (err : Error) : Broken c clean ts fs₀ fs₀ (.error err) := ⟨fun _ _ ho => ho.lookup, by simp⟩

variable {res : Except Error Unit} {d : ℕ ×ₗ ℕ}

lemma Guarded.drop (h : Guarded c ts fs₀ b fs) (hb : b.val = nextVal (listEpochMetas fs₀))
    (hcl : res = .ok () → Cleared c clean ts fs₀ b fs [])
    (hr : clean → r ≠ .err) : Broken c clean ts fs₀ (Lock.delete fs r b) res := by
  refine ⟨fun e o ho => ?_, fun hres hclean e o ho => ?_⟩
  · rw [lookup_delete_ne (ho.ne hb)]
    exact h.owner e o ho
  · have hne : e ≠ b := by
      rintro rfl
      rw [Lock.delete, if_neg (hr hclean), lookup_erase', if_pos rfl] at ho
      cases ho
    rcases hcl hres hclean e o (lookup_delete ho) with heq | hmem | hown
    · exact absurd heq hne
    · cases hmem
    · exact hown

/-- A reply leads to `out`, nearer to the return. -/
def Leads (clean : Prop) (c : Config ι) (p : ι) (ts : Timestamp) (fs₀ : Files) (k : ℕ) (d : ℕ ×ₗ ℕ) (fs : Files)
    (out : Outcome) : Prop :=
  BreakOutcome c p clean ts fs₀ k fs out ∧ ∀ ph, out = .next ph → ph.breakDistance < d

lemma Leads.broken (h : Broken c clean ts fs₀ fs res) :
    Leads clean c p ts fs₀ k d fs (.broken res) := ⟨h, by simp⟩

lemma Leads.next (h : Breaking c p clean ts fs₀ k fs ph) (hd : ph.breakDistance < d) :
    Leads clean c p ts fs₀ k d fs (.next ph) := ⟨h, fun _ heq => by cases heq; exact hd⟩

lemma Leads.drop (h : Guarded c ts fs₀ b fs) (hb : b.val = nextVal (listEpochMetas fs₀)) (err : Error)
    (hd : toLex (0, 0) < d) : Leads clean c p ts fs₀ k d fs (.next (.breakDrop b (.error err))) :=
  .next ⟨hb, h, by simp⟩ hd

lemma breakNext_leads (hb : b.val = nextVal (listEpochMetas fs₀)) (h : Walk c ts fs₀ b fs metas found)
    (hcl : Cleared c clean ts fs₀ b fs (metas.map ObjectMeta.epoch)) (hd : toLex (1, 2 * metas.length) < d) :
    Leads clean c p ts fs₀ k d fs (breakNext b ts found metas) := by
  cases metas with
  | nil => exact .next ⟨hb, h.toGuarded, fun _ => hcl⟩ (lt_trans (toLex_lt_left Nat.zero_lt_one) hd)
  | cons => exact .next ⟨rfl, hb, by simp, h, hcl⟩ hd

lemma breakEntry_leads (hb : b.val = nextVal (listEpochMetas fs₀)) (h : Walk c ts fs₀ b fs (m :: metas) found)
    (hcl : Cleared c clean ts fs₀ b fs ((m :: metas).map ObjectMeta.epoch)) (ho : fs₀.lookup m.epoch = some o)
    (hm : o.lastModified = m.lastModified) (hf : o.content = some f) :
    Leads clean c p ts fs₀ k (toLex (1, 2 * (m :: metas).length)) fs (breakEntry c b ts m f metas found) := by
  unfold breakEntry
  split
  · exact .broken (h.toGuarded.broken _)
  · next x hx =>
    rw [← hm] at hx
    split_ifs with hlive
    · -- the owner: it stays
      obtain ⟨hfound, hlt⟩ := hlive
      rw [Bool.not_eq_true] at hfound
      subst hfound
      obtain ⟨hwalk, howner⟩ := h.meet ho (active_eq_true.2 ⟨f, x, hf, hx, Nat.lt_of_not_le hlt⟩)
      refine breakNext_leads hb hwalk (fun hclean e o' ho' => ?_) (toLex_lt_right (by simp))
      rcases hcl hclean e o' ho' with heq | hmem | hown
      · exact .inl heq
      · rcases mem_cons.1 hmem with rfl | hmem
        · obtain ⟨o'', ho'', h₀, -⟩ := h.head
          rw [ho] at h₀
          rw [ho'] at ho''
          cases h₀
          cases ho''
          exact .inr (.inr howner)
        · exact .inr (.inl hmem)
      · exact .inr (.inr hown)
    · have hdead : found = true ∨ active c ts o = false := by
        by_cases hfound : found = true
        · exact .inl hfound
        · refine .inr (Bool.eq_false_iff.2 fun ha => hlive ⟨hfound, ?_⟩)
          obtain ⟨f', x', hf', hx', hlt⟩ := active_eq_true.1 ha
          rw [hf] at hf'
          cases hf'
          rw [hx] at hx'
          cases hx'
          exact Nat.not_le_of_lt hlt
      obtain ⟨hwalk, hnot⟩ := h.pass ho hdead
      exact .next ⟨rfl, hb, hwalk, h.notMem_tail, hnot, hcl⟩ (toLex_lt_right (by simp; omega))

lemma exec_breaking (clock now : Timestamp) (i : ℕ) (hph : Breaking c p clean ts fs₀ k fs ph) (hclock : k = 1 → clock = ts)
    (hdel : ph.breaks = true → clean → r ≠ .err) : ∃ fs' out, exec c p clock fs r now i ph = some (fs', out) ∧
      Leads clean c p ts fs₀ (k + 1) ph.breakDistance fs' out := by
  cases ph with
  | claimList why =>
    cases why with
    | acquire => exact hph.elim
    | breakLocks =>
      obtain ⟨rfl, rfl⟩ := hph
      simp only [exec]
      split_ifs
      · split
        · exact ⟨_, _, rfl, .broken (broken_self _)⟩
        · next b hb => exact ⟨_, _, rfl, .next ⟨rfl, rfl, Epoch.new_eq_ok.1 hb⟩ (toLex_lt_left (by decide))⟩
      · exact ⟨_, _, rfl, .broken (broken_self _)⟩
  | claimPut why b =>
    cases why with
    | acquire => exact hph.elim
    | breakLocks =>
      obtain ⟨rfl, rfl, hb⟩ := hph
      obtain rfl := hclock rfl
      have hfresh : b ∉ fs := fun hmem => absurd (lt_breaker hb hmem) (lt_irrefl b)
      have hclaims : Claims c p clock fs b (fs.insert b ⟨some (content c p .breakLocks), clock⟩) := ⟨hb, rfl⟩
      simp only [exec, if_neg hfresh]
      split_ifs
      · exact ⟨_, _, rfl, .broken (broken_self _)⟩
      · exact ⟨_, _, rfl, .next hclaims (toLex_lt_left (by decide))⟩
      · exact ⟨_, _, rfl, .broken (hclaims.guarded.broken _)⟩
  | claimHead why b =>
    cases why with
    | acquire => exact hph.elim
    | breakLocks =>
      have hl : fs.lookup b = some ⟨some (content c p .breakLocks), ts⟩ := by rw [lookup_claims hph, if_pos rfl]
      by_cases hr : r = .ok
      · simp only [exec, if_pos hr, hl]
        exact ⟨_, _, rfl, .next ⟨rfl, hph⟩ (toLex_lt_left (by decide))⟩
      · simp only [exec, if_neg hr]
        exact ⟨_, _, rfl, .drop hph.guarded hph.1 _ (toLex_lt_left (by decide))⟩
  | breakList =>
    obtain ⟨rfl, hcl⟩ := hph
    simp only [exec]
    split_ifs
    · exact ⟨_, _, rfl, breakNext_leads hcl.1 hcl.walk cleared_list (toLex_lt_left (by decide))⟩
    · exact ⟨_, _, rfl, .drop hcl.guarded hcl.1 _ (toLex_lt_left (by decide))⟩
  | breakGet b ts' metas =>
    obtain ⟨rfl, hb, hne, hwalk, hcl⟩ := hph
    cases metas with
    | nil => exact absurd rfl hne
    | cons =>
      obtain ⟨o, ho, h₀, hm⟩ := hwalk.head
      cases r with
      | err => exact ⟨_, _, rfl, .drop hwalk.toGuarded hb _ (toLex_lt_left (by decide))⟩
      | lost =>
        simp only [exec, ho]
        exact ⟨_, _, rfl, .broken (hwalk.toGuarded.broken _)⟩
      | ok =>
        obtain ⟨content, lastModified⟩ := o
        cases content with
        | none =>
          simp only [exec, ho]
          obtain ⟨hpass, hnot⟩ := hwalk.pass h₀ (.inr rfl)
          exact ⟨_, _, rfl, .next ⟨rfl, hb, hpass, hwalk.notMem_tail, hnot, hcl⟩ (toLex_lt_right (by simp; omega))⟩
        | some =>
          simp only [exec, ho]
          exact ⟨_, _, rfl, breakEntry_leads hb hwalk hcl h₀ hm rfl⟩
  | breakDelete =>
    obtain ⟨rfl, hb, hwalk, hmem, hnot, hcl⟩ := hph
    exact ⟨_, _, rfl, breakNext_leads hb (hwalk.delete hnot hmem) (hcl.delete (hdel rfl))
      (toLex_lt_right (Nat.lt_succ_self _))⟩
  | breakDrop =>
    obtain ⟨hb, hg, hcl⟩ := hph
    exact ⟨_, _, rfl, .broken (hg.drop hb hcl (hdel rfl))⟩
  | _ => exact hph.elim

lemma Breaking.returns (h : Breaking c p clean ts fs₀ k fs ph) (hr : ph.abandons = true → r ≠ .lost)
    (hex : exec c p clock fs r now i ph = some (fs', .broken res)) (hpanic : res ≠ .error .panicked) :
    (k ≤ 1 ∧ fs = fs₀ ∧ fs' = fs₀) ∨ ∃ b, b.val = nextVal (listEpochMetas fs₀) ∧ ph = .breakDrop b res := by
  cases ph with
  | claimList why =>
    cases why with
    | acquire => exact h.elim
    | breakLocks =>
      obtain ⟨rfl, rfl⟩ := h
      simp only [exec] at hex
      split_ifs at hex
      · split at hex <;> cases hex
        exact .inl ⟨by decide, rfl, rfl⟩
      · cases hex
        exact .inl ⟨by decide, rfl, rfl⟩
  | claimPut why b =>
    cases why with
    | acquire => exact h.elim
    | breakLocks =>
      obtain ⟨rfl, rfl, hb⟩ := h
      have hfresh : b ∉ fs := fun hmem => absurd (lt_breaker hb hmem) (lt_irrefl b)
      simp only [exec, if_neg hfresh] at hex
      split_ifs at hex with herr hok
      · cases hex
        exact .inl ⟨le_rfl, rfl, rfl⟩
      · cases hex
      · cases r with
        | lost => exact absurd rfl (hr rfl)
        | ok => exact absurd rfl hok
        | err => exact absurd rfl herr
  | claimHead why =>
    cases why with
    | acquire => exact h.elim
    | breakLocks =>
      simp only [exec] at hex
      split at hex <;> cases hex
  | breakList b =>
    simp only [exec] at hex
    split_ifs at hex
    · cases hl : (listEpochMetas fs).filter (·.epoch ≠ b) <;> rw [hl] at hex <;> cases hex
    · cases hex
  | breakGet b ts' metas =>
    obtain ⟨rfl, hb, hne, hwalk, -⟩ := h
    cases metas with
    | nil => exact absurd rfl hne
    | cons m metas =>
      obtain ⟨o, ho, -⟩ := hwalk.head
      cases r with
      | err => cases hex
      | lost => exact absurd rfl (hr rfl)
      | ok =>
        obtain ⟨content, lastModified⟩ := o
        cases content with
        | none =>
          simp only [exec, ho] at hex
          cases hex
        | some =>
          simp only [exec, ho, breakEntry] at hex
          split at hex
          · cases hex
            exact absurd rfl hpanic
          · split_ifs at hex
            · cases metas <;> cases hex
            · cases hex
  | breakDelete b ts' v metas => cases metas <;> cases hex
  | breakDrop b =>
    cases hex
    exact .inr ⟨b, h.1, rfl⟩
  | _ => exact h.elim

/-! ### Whole calls -/

variable (c p fs₀) in
/-- The first `n` requests of `unsafe_break_locks`. -/
def breakRun (qs : ℕ → Service) (n : ℕ) : Option (Files × Outcome) :=
  runAlone c p fs₀ (.claimList .breakLocks) qs n

variable {qs : ℕ → Service} {n : ℕ} {s : Files × Outcome}

lemma breakRun_succ :
    breakRun c p fs₀ qs (n + 1) = some s ↔ ∃ t, breakRun c p fs₀ qs n = some t ∧ alone c p t (qs n) = some s := by
  unfold breakRun runAlone
  rw [range_succ, map_append]
  exact run_concat_eq_some

lemma breakRun_next (h : breakRun c p fs₀ qs n = some (fs, .next ph))
    (hex : exec c p (qs n).clock fs (qs n).reply (qs n).now (qs n).i ph = some s) :
    breakRun c p fs₀ qs (n + 1) = some s :=
  breakRun_succ.2 ⟨_, h, hex⟩

lemma breakRun_last (h : breakRun c p fs₀ qs n = some (fs, .broken res)) :
    ∃ k fs' ph, n = k + 1 ∧ breakRun c p fs₀ qs k = some (fs', .next ph) ∧
      exec c p (qs k).clock fs' (qs k).reply (qs k).now (qs k).i ph = some (fs, .broken res) := by
  cases n with
  | zero => cases h
  | succ k =>
    obtain ⟨⟨fs', out⟩, hrun, hstep⟩ := breakRun_succ.1 h
    cases out with
    | next ph => exact ⟨k, fs', ph, rfl, hrun, hstep⟩
    | _ => cases hstep

variable (c p fs₀ qs) in
def DeletesServed : Prop :=
  ∀ k fs ph, breakRun c p fs₀ qs k = some (fs, .next ph) → ph.breaks = true → (qs k).reply ≠ .err

lemma breakRun_outcome (h : breakRun c p fs₀ qs n = some (fs, out)) :
    BreakOutcome c p (DeletesServed c p fs₀ qs) (qs 1).clock fs₀ n fs out := by
  induction n generalizing fs out with
  | zero =>
    cases h
    exact ⟨rfl, rfl⟩
  | succ n ih =>
    obtain ⟨⟨fs', out'⟩, hrun, hstep⟩ := breakRun_succ.1 h
    cases out' with
    | next ph =>
      obtain ⟨fs'', out'', hex, hout, -⟩ := exec_breaking (qs n).clock (qs n).now (qs n).i
        (ih hrun) (fun hk => by rw [hk]) (fun hb hclean => hclean n fs' ph hrun hb)
      have heq : some (fs'', out'') = some (fs, out) := hex.symm.trans hstep
      cases heq
      exact hout
    | _ => cases hstep

lemma breakRun_returns (h : breakRun c p fs₀ qs n = some (fs, .next ph)) :
    ∃ k fs' res, breakRun c p fs₀ qs k = some (fs', .broken res) := by
  generalize hd : ph.breakDistance = d
  induction d using WellFoundedLT.induction generalizing n fs ph with
  | ind d ih =>
    have hph : Breaking c p (DeletesServed c p fs₀ qs) (qs 1).clock fs₀ n fs ph := breakRun_outcome h
    obtain ⟨fs', out, hex, hout, hnear⟩ := exec_breaking (qs n).clock (qs n).now (qs n).i
      hph (fun hk => by rw [hk]) (fun hb hclean => hclean n fs ph h hb)
    have hrun := breakRun_next h hex
    cases out with
    | next ph' => exact ih _ (hd ▸ hnear ph' rfl) hrun rfl
    | broken res => exact ⟨n + 1, fs', res, hrun⟩
    | _ => exact hout.elim

/-- **Breaking locks keeps the owner only.**  Its timestamp is the store's time at its second request, the
PUT of the breaker `b`.  Whatever requests fail, the lowest active file is never deleted; an `Ok` with every
DELETE in effect leaves that file alone.  The call returns, and if its PUT does not lose its answer and no
GET its body, it has sent the DELETE of the breaker's file whenever that file was there. -/
theorem break_keeps_owner (c : Config ι) (p : ι) (fs₀ : Files) (qs : ℕ → Service) :
    (∀ n fs out, breakRun c p fs₀ qs n = some (fs, out) →
      ∀ e o, LiveOwner c (qs 1).clock fs₀ e o → fs.lookup e = some o) ∧
    (∀ n fs, breakRun c p fs₀ qs n = some (fs, .broken (.ok ())) →
      (∀ k fs' ph, breakRun c p fs₀ qs k = some (fs', .next ph) → ph.breaks = true → (qs k).reply ≠ .err) →
      ∀ e o, fs.lookup e = some o ↔ LiveOwner c (qs 1).clock fs₀ e o) ∧
    (∃ n fs res, breakRun c p fs₀ qs n = some (fs, .broken res)) ∧
    ((∀ k fs ph, breakRun c p fs₀ qs k = some (fs, .next ph) → ph.abandons = true → (qs k).reply ≠ .lost) →
      ∀ n fs res, breakRun c p fs₀ qs n = some (fs, .broken res) → res ≠ .error .panicked →
        ∀ b : Epoch, b.val = nextVal (listEpochMetas fs₀) →
          (∃ k ≤ n, ∃ fs' out, breakRun c p fs₀ qs k = some (fs', out) ∧ b ∈ fs') →
          ∃ k < n, ∃ fs', breakRun c p fs₀ qs k = some (fs', .next (.breakDrop b res))) := by
  refine ⟨fun n fs out h e o ho => ?_, fun n fs h hdel e o => ?_, breakRun_returns (n := 0) rfl,
    fun hlost n fs res h hpanic b hb hmade => ?_⟩
  · have hout := breakRun_outcome h
    cases out with
    | next => exact hout.owner ho
    | broken => exact hout.owner e o ho
    | _ => exact hout.elim
  · have hout : Broken c (DeletesServed c p fs₀ qs) (qs 1).clock fs₀ fs (.ok ()) := breakRun_outcome h
    exact ⟨hout.cleared rfl hdel e o, hout.owner e o⟩
  · obtain ⟨k, fs', ph, rfl, hrun, hex⟩ := breakRun_last h
    have hph : Breaking c p (DeletesServed c p fs₀ qs) (qs 1).clock fs₀ k fs' ph := breakRun_outcome hrun
    rcases hph.returns (hlost k fs' ph hrun) hex hpanic with ⟨hk, rfl, rfl⟩ | ⟨b', hb', rfl⟩
    · -- nothing was there before either
      exfalso
      obtain ⟨j, hj, fs'', out, hrun', hmem⟩ := hmade
      have hfresh : b ∉ fs := fun hmem => absurd (lt_breaker hb hmem) (lt_irrefl b)
      have hcases : j = 0 ∨ j = k ∨ j = k + 1 := by omega
      rcases hcases with rfl | rfl | rfl
      · cases hrun'
        exact hfresh hmem
      · rw [hrun] at hrun'
        cases hrun'
        exact hfresh hmem
      · rw [h] at hrun'
        cases hrun'
        exact hfresh hmem
    · have heq : b' = b := Epoch.ext (hb'.trans hb.symm)
      subst heq
      exact ⟨k, Nat.lt_succ_self k, fs', hrun⟩

end Break

/-! ### A directory with every kind of file -/

/-- Epoch 0 does not parse, epoch 1 is expired at time 120, epochs 2 and 3 are active. -/
def mixedFiles : Files :=
  (((AList.singleton (.early 0) ⟨none, 100⟩).insert (.early 1) ⟨some ⟨['b'], 0, 10⟩, 100⟩).insert
    (.early 2) ⟨some ⟨['b'], 0, 60⟩, 100⟩).insert (.early 3) ⟨some ⟨['a'], 0, 60⟩, 110⟩

/-- Every request is served but the `n`th, whose answer is lost. -/
def losing (n k : ℕ) : Service := ⟨120, if k = n then .lost else .ok, 120, 0⟩

/-- The body of the first GET breaks off, the fifth request: the call returns and its file stays, with no
DELETE sent at all. -/
theorem break_leaves_breaker :
    (∃ fs, breakRun twoHolders true mixedFiles (losing 4) 5 = some (fs, .broken (.error .objectStore)) ∧
      Epoch.early 4 ∈ fs) ∧
    ∀ k < 5, ((breakRun twoHolders true mixedFiles (losing 4) k).all fun s => !s.2.breaks) = true := by
  refine ⟨⟨_, rfl, by decide⟩, ?_⟩
  decide

def serving (_ : ℕ) : Service := ⟨120, .ok, 120, 0⟩

/-- Epoch 2 is left, and the breaker's file was deleted. -/
theorem break_keeps_owner_served :
    ∃ fs, breakRun twoHolders true mixedFiles serving 12 = some (fs, .broken (.ok ())) ∧
      (∀ e o, fs.lookup e = some o ↔ LiveOwner twoHolders 120 mixedFiles e o) ∧
      ∃ k < 12, ∃ fs', breakRun twoHolders true mixedFiles serving k =
        some (fs', .next (.breakDrop (.early 4) (.ok ()))) := by
  obtain ⟨-, hexact, -, hdrop⟩ := break_keeps_owner twoHolders true mixedFiles serving
  have hrun : ∃ fs, breakRun twoHolders true mixedFiles serving 12 = some (fs, .broken (.ok ())) := ⟨_, rfl⟩
  have hmade : ∃ k ≤ 12, ∃ fs out, breakRun twoHolders true mixedFiles serving k = some (fs, out) ∧
      Epoch.early 4 ∈ fs := ⟨2, by decide, _, _, rfl, by decide⟩
  obtain ⟨fs, hrun⟩ := hrun
  exact ⟨fs, hrun, hexact 12 fs hrun (by simp [serving]),
    hdrop (by simp [serving]) 12 fs _ hrun (by simp) _ (by decide) hmade⟩

end Bepository.Lock
