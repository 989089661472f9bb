import Mathlib.Data.Prod.Lex
import Bepository.Lock.Deletion

/-!
# Renewals

A renewal is an `acquire` of the owner.  It creates a second file above the owner's first one, then
scavenges the first one, and only then verifies that the second one is lowest.  A file that another
participant created between the two is lower than the second one and makes the renewal fail, whatever
its priority.  `renewal_returns_owner` is about the renewals whose PUT finds no such file alive.
-/

namespace Bepository.Lock

open Lib List Table

section Renewal

variable {ι : Type*} (c : Config ι)

/-! ### What a renewal knows -/

/-- `p` created the file of `e` at the time `ts`; below it are only files of `p` and files that had
expired by then, and all files can be read. -/
structure Claimed (p : ι) (e : Epoch) (ts : Timestamp) (fs : Files) : Prop where
  mine : fs.lookup e = some ⟨some (content c p .acquire), ts⟩
  below : ∀ g, g < e → At fs g (Spent c p ts)
  readable : ∀ g, At fs g fun o => o.content.isSome

/-- `metas` shows all files below `e`. -/
structure Shows (e : Epoch) (metas : List ObjectMeta) (fs : Files) : Prop where
  all : ∀ g ∈ fs, g < e → g ∈ metas.map ObjectMeta.epoch
  below : ListedBelow fs e metas

/-- What a renewal of `p` knows of the directory; it is in no other phase before it returns. -/
def Renewing (p : ι) (fs : Files) : Phase → Prop
  | .ownerList => ∃ e, Own c p e fs ∧ ∀ g ∈ fs, e ≤ g
  | .ownerGet metas => ∃ m rest, metas = m :: rest ∧ Own c p m.epoch fs
  | .claimList .acquire | .claimPut .acquire _ => True
  | .claimHead .acquire e => ∃ ts, Claimed c p e ts fs
  | .scavengeList e ts => Claimed c p e ts fs
  | .scavengeGet e ts metas _ => Claimed c p e ts fs ∧ metas ≠ [] ∧ Shows e metas fs
  | .scavengeDelete e ts v metas _ =>
    Claimed c p e ts fs ∧ v < e ∧ Shows e metas (fs.erase v)
  | .verifyList e ts _ => Claimed c p e ts fs ∧ ∀ g ∈ fs, e ≤ g
  | .higherGet _ _ higher => higher ≠ [] ∧ ∀ g, At fs g fun o => o.content.isSome
  | _ => False

def Outcome.Renewing (p : ι) (fs : Files) : Outcome → Prop
  | .next ph => Lock.Renewing c p fs ph
  | .acquired (.ok (.owner _)) => True
  | _ => False

variable {c} {p q : ι} {e v : Epoch} {fs fs' : Files} {o : Object}
  {ts clock now : Timestamp} {metas higher : List ObjectMeta} {regression : Bool}
  {m : ObjectMeta} {f : EpochFile} {r : Reply} {i : ℕ} {ph : Phase} {out : Outcome}

/-! ### What others do meanwhile -/

/-- Others keep the files of `p`, and create readable files above all files present. -/
structure Apart (c : Config ι) (p : ι) (fs fs' : Files) : Prop where
  kept : ∀ e o f, fs.lookup e = some o → o.content = some f → f.holder = c.holder p → fs'.lookup e = some o
  new : ∀ e o, fs'.lookup e = some o → fs.lookup e = some o ∨ (∀ g ∈ fs, g < e) ∧ o.content.isSome

lemma mem_of_lookup (ho : fs.lookup e = some o) : e ∈ fs :=
  AList.lookup_isSome.1 (by rw [ho]; rfl)

lemma exists_lookup (h : e ∈ fs) : ∃ o, fs.lookup e = some o :=
  Option.isSome_iff_exists.1 (AList.lookup_isSome.2 h)

lemma Apart.own (h : Apart c p fs fs') (ho : Own c p e fs) : Own c p e fs' := by
  obtain ⟨o, f, hl, hf, hh⟩ := ho
  exact ⟨o, f, h.kept e o f hl hf hh, hf, hh⟩

lemma Apart.lookup (h : Apart c p fs fs') (he : e ∈ fs) {g : Epoch} (hlt : g < e)
    (ho : fs'.lookup g = some o) : fs.lookup g = some o :=
  (h.new g o ho).resolve_right fun hnew => absurd (hnew.1 e he) (lt_asymm hlt)

lemma Apart.le (h : Apart c p fs fs') (he : e ∈ fs) (hlow : ∀ g ∈ fs, e ≤ g) : ∀ g ∈ fs', e ≤ g := by
  intro g hg
  obtain ⟨o, ho⟩ := exists_lookup hg
  rcases h.new g o ho with hold | ⟨hnew, -⟩
  · exact hlow g (mem_of_lookup hold)
  · exact (hnew e he).le

lemma Apart.readable (h : Apart c p fs fs') (hread : ∀ g, At fs g fun o => o.content.isSome) (g : Epoch) :
    At fs' g fun o => o.content.isSome := by
  intro o ho
  rcases h.new g o ho with hold | ⟨-, hnew⟩
  · exact hread g o hold
  · exact hnew

lemma Claimed.mem (h : Claimed c p e ts fs) : e ∈ fs := mem_of_lookup h.mine

lemma Claimed.apart (h : Claimed c p e ts fs) (ha : Apart c p fs fs') : Claimed c p e ts fs' :=
  ⟨ha.kept e _ _ h.mine rfl rfl, fun g hlt => (h.below g hlt).keeps fun _ ho => ha.lookup h.mem hlt ho,
    ha.readable h.readable⟩

lemma Shows.keeps (h : Shows e metas fs)
    (hk : ∀ g, g < e → ∀ o, fs'.lookup g = some o → fs.lookup g = some o) : Shows e metas fs' := by
  refine ⟨fun g hg hlt => ?_, h.below.keeps fun m hm => hk _ (h.below m hm).1⟩
  obtain ⟨o, ho⟩ := exists_lookup hg
  exact h.all g (mem_of_lookup (hk g hlt o ho)) hlt

lemma Renewing.apart (h : Renewing c p fs ph) (ha : Apart c p fs fs') : Renewing c p fs' ph := by
  cases ph with
  | ownerList =>
    obtain ⟨e, he, hlow⟩ := h
    exact ⟨e, ha.own he, ha.le he.mem hlow⟩
  | ownerGet =>
    obtain ⟨m, rest, hm, ho⟩ := h
    exact ⟨m, rest, hm, ha.own ho⟩
  | claimList why | claimPut why => cases why <;> exact h
  | claimHead why =>
    cases why with
    | acquire =>
      obtain ⟨ts, h⟩ := h
      exact ⟨ts, h.apart ha⟩
    | breakLocks => exact h
  | scavengeList => exact Claimed.apart h ha
  | scavengeGet =>
    exact ⟨h.1.apart ha, h.2.1, h.2.2.keeps fun g hlt o ho => ha.lookup h.1.mem hlt ho⟩
  | scavengeDelete =>
    refine ⟨h.1.apart ha, h.2.1, h.2.2.keeps fun g hlt o ho => ?_⟩
    rw [lookup_erase'] at ho ⊢
    split_ifs at ho ⊢
    exact ha.lookup h.1.mem hlt ho
  | verifyList => exact ⟨h.1.apart ha, ha.le h.1.mem h.2⟩
  | higherGet => exact ⟨h.1, ha.readable h.2⟩
  | _ => exact h

/-! ### The renewal's own requests -/

lemma pairwise_listEpochMetas (fs : Files) : (listEpochMetas fs).Pairwise fun a b => a.epoch ≤ b.epoch := by
  have : Std.Total fun a b : ObjectMeta => a.epoch ≤ b.epoch := ⟨fun a b => le_total a.epoch b.epoch⟩
  have : IsTrans ObjectMeta fun a b => a.epoch ≤ b.epoch := ⟨fun _ _ _ => le_trans⟩
  exact pairwise_insertionSort _ _

lemma listEpochMetas_lowest (he : e ∈ fs) (hlow : ∀ g ∈ fs, e ≤ g) :
    ∃ m rest, listEpochMetas fs = m :: rest ∧ m.epoch = e := by
  have hsorted := pairwise_listEpochMetas fs
  obtain ⟨m', hm', hme⟩ := mem_map.1 (mem_map_listEpochMetas.2 he)
  cases hl : listEpochMetas fs with
  | nil =>
    rw [hl] at hm'
    cases hm'
  | cons m rest =>
    rw [hl] at hm' hsorted
    refine ⟨m, rest, rfl, le_antisymm ?_ ?_⟩
    · rcases mem_cons.1 hm' with rfl | hmem
      · exact hme.le
      · exact hme ▸ rel_of_pairwise_cons hsorted hmem
    · refine hlow _ (mem_map_listEpochMetas.1 ?_)
      rw [hl]
      exact mem_map_of_mem (mem_cons_self ..)

lemma mem_takeWhile_of_pairwise {l : List ObjectMeta} (h : l.Pairwise fun a b => a.epoch ≤ b.epoch) (hm : m ∈ l)
    (hlt : m.epoch < e) : m ∈ l.takeWhile (·.epoch < e) := by
  induction l with
  | nil => cases hm
  | cons a l ih =>
    have ha : a.epoch < e := by
      rcases mem_cons.1 hm with rfl | hmem
      · exact hlt
      · exact (rel_of_pairwise_cons h hmem).trans_lt hlt
    rw [takeWhile_cons_of_pos (by simpa using ha), mem_cons]
    exact (mem_cons.1 hm).imp_right fun hmem => ih h.of_cons hmem

lemma shows_list : Shows e ((listEpochMetas fs).takeWhile (·.epoch < e)) fs := by
  refine ⟨fun g hg hlt => ?_, listedBelow_list⟩
  obtain ⟨m, hm, rfl⟩ := mem_map.1 (mem_map_listEpochMetas.2 hg)
  exact mem_map_of_mem (mem_takeWhile_of_pairwise (pairwise_listEpochMetas fs) hm hlt)

lemma Shows.gone (h : Shows e (m :: metas) fs) (hm : m.epoch ∉ fs) : Shows e metas fs := by
  refine ⟨fun g hg hlt => ?_, fun m' h' => h.below m' (mem_cons_of_mem _ h')⟩
  have hmem := h.all g hg hlt
  rw [map_cons, mem_cons] at hmem
  exact hmem.resolve_left fun heq : g = m.epoch => hm (heq ▸ hg)

lemma Shows.erase (h : Shows e (m :: metas) fs) : Shows e metas (fs.erase m.epoch) := by
  exact Shows.gone (h.keeps fun g _ o ho => lookup_of_erase ho) fun hm => (AList.mem_erase.1 hm).1 rfl

lemma Claimed.erase (h : Claimed c p e ts fs) (hv : v ≠ e) : Claimed c p e ts (fs.erase v) := by
  have hk : ∀ g o, (fs.erase v).lookup g = some o → fs.lookup g = some o :=
    fun _ _ => lookup_of_erase
  refine ⟨?_, fun g hlt => (h.below g hlt).keeps (hk g), fun g => (h.readable g).keeps (hk g)⟩
  rw [lookup_erase', if_neg fun he => hv he.symm]
  exact h.mine

lemma scavengeNext_renewing (h : Claimed c p e ts fs) (hs : Shows e metas fs) :
    (scavengeNext e ts regression metas).Renewing c p fs := by
  cases metas with
  | nil => exact ⟨h, fun g hg => le_of_not_gt fun hlt => not_mem_nil (hs.all g hg hlt)⟩
  | cons => exact ⟨h, by simp, hs⟩

lemma scavengeEntry_renewing (h : Claimed c p e ts fs) (hs : Shows e (m :: metas) fs)
    (ho : fs.lookup m.epoch = some o) (hf : o.content = some f)
    (hlive : f.holder = c.holder p → (c.expiry o.lastModified f.duration).isSome) :
    (scavengeEntry c p e ts m f metas regression).Renewing c p fs := by
  have hlt : m.epoch < e := (hs.below m (by simp)).1
  have hlisted : o.lastModified = m.lastModified := (hs.below m (by simp)).2 o ho
  have hspent := h.below m.epoch hlt o ho f hf
  rw [hlisted] at hspent hlive
  unfold scavengeEntry
  split
  · next hx =>
    rcases hspent with hown | ⟨x, hx', -⟩
    · rw [hx] at hlive
      cases hlive hown
    · rw [hx] at hx'
      cases hx'
  · next x hx =>
    rw [if_pos]
    · exact ⟨h, hlt, hs.erase⟩
    · rcases hspent with hown | ⟨x', hx', hle⟩
      · exact .inr hown
      · rw [hx] at hx'
        cases hx'
        exact .inl hle

lemma higherNext_renewing (h : ∀ g, At fs g fun o => o.content.isSome) :
    (higherNext e ts higher).Renewing c p fs := by
  cases higher with
  | nil => trivial
  | cons => exact ⟨by simp, h⟩

lemma partition_of_lowest (hmem : e ∈ fs) (hlow : ∀ g ∈ fs, e ≤ g) :
    partition e ts regression (listEpochMetas fs) =
      higherNext e ts ((listEpochMetas fs).filter (e < ·.epoch)) := by
  obtain ⟨m, hm, hme⟩ := mem_map.1 (mem_map_listEpochMetas.2 hmem)
  have hnone : (listEpochMetas fs).filter (·.epoch < e) = [] := by
    refine filter_eq_nil_iff.2 fun m hm hlt => ?_
    exact absurd (by simpa using hlt) (hlow _ (mem_map_listEpochMetas.1 (mem_map_of_mem hm))).not_gt
  rw [partition, if_pos (any_eq_true.2 ⟨m, hm, by simpa using hme⟩), hnone]
  rfl

lemma partition_renewing (h : Claimed c p e ts fs) (hlow : ∀ g ∈ fs, e ≤ g) :
    (partition e ts regression (listEpochMetas fs)).Renewing c p fs := by
  rw [partition_of_lowest h.mem hlow]
  exact higherNext_renewing h.readable

/-- What the directory must be like when a request of the renewal is served: its files have not
expired, no file has a higher priority, epochs are left, and its PUT finds the files of others
expired. -/
structure Favourable (c : Config ι) (p : ι) (clock : Timestamp) (fs : Files) (ph : Phase) : Prop where
  timely : ∀ g, At fs g fun o => ∀ f, o.content = some f → f.holder = c.holder p →
    ∃ x, c.expiry o.lastModified f.duration = some x ∧ clock < x
  unranked : ∀ g, At fs g fun o => ∀ f, o.content = some f → f.priority ≤ c.priority p
  room : ph = .claimList .acquire → nextVal (listEpochMetas fs) < 2 ^ 40
  alone : ∀ e, ph = .claimPut .acquire e → e ∉ fs →
    ∀ g, At fs g fun o => o.content.isSome ∧ Spent c p clock o

lemma Claimed.put (halone : ∀ g, At fs g fun o => o.content.isSome ∧ Spent c p clock o) :
    Claimed c p e clock (fs.insert e ⟨some (content c p .acquire), clock⟩) := by
  have hnew : ∀ g, g ≠ e → (fs.insert e ⟨some (content c p .acquire), clock⟩).lookup g = fs.lookup g :=
    fun g hne => by rw [lookup_insert', if_neg hne]
  refine ⟨by rw [lookup_insert', if_pos rfl], fun g hlt => ?_, fun g => ?_⟩
  · intro o ho
    rw [hnew g hlt.ne] at ho
    exact (halone g o ho).2
  · intro o ho
    by_cases hg : g = e
    · subst hg
      rw [lookup_insert', if_pos rfl] at ho
      cases ho
      rfl
    · rw [hnew g hg] at ho
      exact (halone g o ho).1

lemma readEntry_readable (hread : ∀ g, At fs g fun o => o.content.isSome) (e : Epoch) :
    (e ∉ fs ∧ readEntry fs .ok e = .ok none) ∨
    ∃ o f, fs.lookup e = some o ∧ o.content = some f ∧ readEntry fs .ok e = .ok (some f) := by
  cases ho : fs.lookup e with
  | none => exact .inl ⟨AList.lookup_eq_none.1 ho, by simp [readEntry, ho]⟩
  | some o =>
    obtain ⟨f, hf⟩ := Option.isSome_iff_exists.1 (hread e o ho)
    exact .inr ⟨o, f, rfl, hf, by simp [readEntry, ho, hf]⟩

lemma exec_renewing (h : exec c p clock fs .ok now i ph = some (fs', out)) (hph : Renewing c p fs ph)
    (hfav : Favourable c p clock fs ph) : out.Renewing c p fs' := by
  cases ph with
  | ownerList =>
    obtain ⟨e, he, hlow⟩ := hph
    obtain ⟨m, rest, hl, hme⟩ := listEpochMetas_lowest he.mem hlow
    simp only [exec, if_true, hl] at h
    cases h
    exact ⟨m, rest, rfl, hme ▸ he⟩
  | ownerGet =>
    obtain ⟨m, rest, rfl, o, f, ho, hf, hh⟩ := hph
    have hread : readEntry fs .ok m.epoch = .ok (some f) := by
      simp [readEntry, ho, hf]
    simp only [exec, hread] at h
    cases h
    -- the first file is the owner's own, so the early exit is not taken
    simp [fastPath, hh, Outcome.Renewing, Renewing]
  | claimList why =>
    cases why with
    | breakLocks => exact hph.elim
    | acquire =>
      have hroom := hfav.room rfl
      simp only [exec, if_true, Epoch.new, dif_pos hroom] at h
      cases h
      trivial
  | claimPut why e =>
    cases why with
    | breakLocks => exact hph.elim
    | acquire =>
      have halone := hfav.alone e rfl
      by_cases hmem : e ∈ fs
      · simp only [exec, reduceCtorEq, if_false, if_true, hmem] at h
        cases h
        trivial
      · simp only [exec, reduceCtorEq, if_false, if_true, hmem] at h
        cases h
        exact ⟨clock, .put fun g => halone hmem g⟩
  | claimHead why =>
    cases why with
    | breakLocks => exact hph.elim
    | acquire =>
      obtain ⟨ts, hcl⟩ := hph
      simp only [exec, if_true, hcl.mine] at h
      cases h
      exact hcl
  | scavengeList =>
    simp only [exec, if_true] at h
    cases h
    exact scavengeNext_renewing hph shows_list
  | scavengeGet e ts metas =>
    obtain ⟨hcl, hne, hs⟩ := hph
    cases metas with
    | nil => exact absurd rfl hne
    | cons m =>
      rcases readEntry_readable hcl.readable m.epoch with ⟨hgone, hr⟩ | ⟨o, f, ho, hf, hr⟩
      · simp only [exec, hr] at h
        cases h
        exact scavengeNext_renewing hcl (hs.gone hgone)
      · simp only [exec, hr] at h
        cases h
        refine scavengeEntry_renewing hcl hs ho hf fun hh => ?_
        obtain ⟨x, hx, -⟩ := hfav.timely _ o ho f hf hh
        rw [hx]
        rfl
  | scavengeDelete =>
    obtain ⟨hcl, hlt, hs⟩ := hph
    cases h
    exact scavengeNext_renewing (hcl.erase hlt.ne) hs
  | verifyList =>
    simp only [exec, if_true] at h
    cases h
    exact partition_renewing hph.1 hph.2
  | higherGet e ts higher =>
    obtain ⟨hne, hread⟩ := hph
    cases higher with
    | nil => exact absurd rfl hne
    | cons m =>
      rcases readEntry_readable hread m.epoch with ⟨-, hr⟩ | ⟨o, f, ho, hf, hr⟩
      · simp only [exec, hr] at h
        cases h
        exact higherNext_renewing hread
      · simp only [exec, hr] at h
        cases h
        have hle : ¬ f.priority > c.priority p := (hfav.unranked _ o ho f hf).not_gt
        rw [yieldEntry, if_neg hle]
        exact higherNext_renewing hread
  | _ => exact hph.elim

/-! ### A call that is left alone returns -/

/-- The phases of an `acquire`. -/
def Phase.acquiring : Phase → Bool
  | .ownerList | .claimList .acquire | .claimPut .acquire _ | .claimHead .acquire _ => true
  | .scavengeList .. | .scavengeDelete .. | .verifyList .. | .dropMine .. => true
  | .ownerGet l | .scavengeGet _ _ l _ | .lowerGet _ _ l _ _ | .higherGet _ _ l => !l.isEmpty
  | _ => false

/-- How far an `acquire` is from its return, if nobody else moves: the part it is in, and the files
it has still to look at there.  A PUT on a path that is taken goes back to the LIST once. -/
def Phase.distance (fs : Files) : Phase → ℕ ×ₗ ℕ
  | .ownerList => toLex (11, 0)
  | .ownerGet l => toLex (10, l.length)
  | .claimPut _ e => toLex (if e ∈ fs then 9 else 7, 0)
  | .claimList _ => toLex (8, 0)
  | .claimHead .. => toLex (6, 0)
  | .scavengeList .. => toLex (5, 0)
  | .scavengeGet _ _ l _ => toLex (4, 2 * l.length)
  | .scavengeDelete _ _ _ l _ => toLex (4, 2 * l.length + 1)
  | .verifyList .. => toLex (3, 0)
  | .lowerGet _ _ l _ _ => toLex (2, l.length)
  | .higherGet _ _ l => toLex (1, l.length)
  | _ => toLex (0, 0)

/-- A reply ends the `acquire`, or brings it nearer to its return. -/
def Outcome.Nearer (fs : Files) (k : ℕ ×ₗ ℕ) : Outcome → Prop
  | .next ph => ph.acquiring = true ∧ ph.distance fs < k
  | .acquired _ => True
  | _ => False

variable {k : ℕ ×ₗ ℕ} {lower : List ObjectMeta} {a b : ℕ}

lemma toLex_lt_left {x y : ℕ} (h : a < b) : toLex (a, x) < toLex (b, y) :=
  Prod.Lex.toLex_lt_toLex.2 (.inl h)

lemma toLex_lt_right {x y : ℕ} (h : x < y) : toLex (a, x) < toLex (a, y) :=
  Prod.Lex.toLex_lt_toLex.2 (.inr ⟨rfl, h⟩)

lemma ownerNext_nearer (h : toLex (10, metas.length) < k) (h' : toLex (8, 0) < k) :
    (ownerNext metas).Nearer fs k := by
  cases metas with
  | nil => exact ⟨rfl, h'⟩
  | cons => exact ⟨rfl, h⟩

lemma scavengeNext_nearer (h : toLex (4, 2 * metas.length) < k) (h' : toLex (3, 0) < k) :
    (scavengeNext e ts regression metas).Nearer fs k := by
  cases metas with
  | nil => exact ⟨rfl, h'⟩
  | cons => exact ⟨rfl, h⟩

lemma higherNext_nearer (h : toLex (1, higher.length) < k) : (higherNext e ts higher).Nearer fs k := by
  cases higher with
  | nil => trivial
  | cons => exact ⟨rfl, h⟩

lemma lowerNext_nearer (h : toLex (2, lower.length) < k) :
    (lowerNext e ts regression higher lower).Nearer fs k := by
  cases lower with
  | nil => exact higherNext_nearer ((toLex_lt_left (by omega)).trans h)
  | cons => exact ⟨rfl, h⟩

lemma exec_isSome (clock now : Timestamp) (fs : Files) (r : Reply) (i : ℕ) (hph : ph.acquiring = true) :
    ∃ fs' out, exec c p clock fs r now i ph = some (fs', out) := by
  cases ph with
  | ownerList | scavengeList | verifyList | claimPut =>
    simp only [exec]
    split_ifs <;> exact ⟨_, _, rfl⟩
  | ownerGet l | scavengeGet e ts l | lowerGet e ts l | higherGet e ts l =>
    cases l with
    | nil => cases hph
    | cons =>
      simp only [exec]
      split <;> exact ⟨_, _, rfl⟩
  | claimList =>
    simp only [exec]
    split_ifs
    · split <;> exact ⟨_, _, rfl⟩
    · exact ⟨_, _, rfl⟩
  | claimHead =>
    simp only [exec]
    split <;> exact ⟨_, _, rfl⟩
  | scavengeDelete | dropMine => exact ⟨_, _, rfl⟩
  | _ => cases hph

lemma exec_nearer (clock now : Timestamp) (fs : Files) (r : Reply) (i : ℕ) (hph : ph.acquiring = true) :
    ∃ fs' out, exec c p clock fs r now i ph = some (fs', out) ∧ out.Nearer fs' (ph.distance fs) := by
  obtain ⟨fs', out, h⟩ := exec_isSome (c := c) (p := p) clock now fs r i hph
  refine ⟨fs', out, h, ?_⟩
  cases ph with
  | ownerList =>
    simp only [exec] at h
    split_ifs at h <;> cases h
    · exact ownerNext_nearer (toLex_lt_left (by omega)) (toLex_lt_left (by omega))
    · trivial
  | ownerGet metas =>
    cases metas with
    | nil => cases h
    | cons =>
      simp only [exec] at h
      split at h <;> cases h
      · trivial
      · exact ownerNext_nearer (toLex_lt_right (by simp)) (toLex_lt_left (by omega))
      · exact fastPath_elim trivial trivial ⟨rfl, toLex_lt_left (by omega)⟩
  | claimList why =>
    cases why with
    | breakLocks => cases hph
    | acquire =>
      simp only [exec] at h
      split_ifs at h
      · split at h <;> cases h
        · trivial
        · next e hn =>
          -- the LIST is accurate, so the path is free
          have he : e ∉ fs := fun hmem => by
            have hlt := lt_nextVal hmem
            rw [Epoch.new_eq_ok.1 hn] at hlt
            exact lt_irrefl _ hlt
          refine ⟨rfl, ?_⟩
          simp only [Phase.distance, if_neg he]
          exact toLex_lt_left (by omega)
      · cases h
        trivial
  | claimPut why =>
    cases why with
    | breakLocks => cases hph
    | acquire =>
      simp only [exec] at h
      split_ifs at h with hr he hok hok <;> cases h
      · trivial
      · refine ⟨rfl, ?_⟩
        simp only [Phase.distance, if_pos he]
        exact toLex_lt_left (by omega)
      · trivial
      · refine ⟨rfl, ?_⟩
        simp only [Phase.distance, if_neg he]
        exact toLex_lt_left (by omega)
      · trivial
  | claimHead why e =>
    cases why with
    | breakLocks => cases hph
    | acquire =>
      cases hl : (if r = .ok then fs.lookup e else none) <;> simp only [exec, hl] at h <;> cases h <;>
        exact ⟨rfl, toLex_lt_left (by omega)⟩
  | scavengeList =>
    simp only [exec] at h
    split_ifs at h <;> cases h
    · exact scavengeNext_nearer (toLex_lt_left (by omega)) (toLex_lt_left (by omega))
    · trivial
  | scavengeGet e ts metas regression =>
    cases metas with
    | nil => cases h
    | cons m metas =>
      have hnext : ∀ back, (scavengeNext e ts back metas).Nearer fs (toLex (4, 2 * (m :: metas).length)) :=
        fun back => scavengeNext_nearer (toLex_lt_right (by simp)) (toLex_lt_left (by omega))
      simp only [exec] at h
      split at h <;> cases h
      · trivial
      · exact hnext regression
      · exact scavengeEntry_elim trivial (fun _ _ _ => ⟨rfl, toLex_lt_right (by simp; omega)⟩) hnext
  | scavengeDelete =>
    cases h
    exact scavengeNext_nearer (toLex_lt_right (by omega)) (toLex_lt_left (by omega))
  | verifyList =>
    simp only [exec] at h
    split_ifs at h <;> cases h
    · exact partition_elim ⟨rfl, toLex_lt_left (by omega)⟩ (lowerNext_nearer (toLex_lt_left (by omega)))
    · trivial
  | lowerGet e ts lower =>
    cases lower with
    | nil => cases h
    | cons =>
      simp only [exec] at h
      split at h <;> cases h
      · trivial
      · exact lowerNext_nearer (toLex_lt_right (by simp))
      · exact classifyLoss_elim trivial trivial ⟨rfl, toLex_lt_left (by omega)⟩
  | higherGet e ts higher =>
    cases higher with
    | nil => cases h
    | cons m higher =>
      have hnext : (higherNext e ts higher).Nearer fs (toLex (1, (m :: higher).length)) :=
        higherNext_nearer (toLex_lt_right (by simp))
      simp only [exec] at h
      split at h <;> cases h
      · trivial
      · exact hnext
      · exact yieldEntry_elim trivial ⟨rfl, toLex_lt_left (by omega)⟩ hnext
  | dropMine =>
    cases h
    trivial
  | _ => cases hph

lemma Renewing.acquiring (h : Renewing c p fs ph) : ph.acquiring = true := by
  cases ph with
  | ownerGet =>
    obtain ⟨m, rest, rfl, -⟩ := h
    rfl
  | claimList why | claimPut why | claimHead why =>
    cases why with
    | acquire => rfl
    | breakLocks => exact h.elim
  | scavengeGet => simpa [Phase.acquiring] using h.2.1
  | higherGet => simpa [Phase.acquiring] using h.1
  | ownerList | scavengeList | scavengeDelete | verifyList => rfl
  | _ => exact h.elim

/-! ### Runs -/

/-- `p` has no file that has expired at the latest store timestamp. -/
def timely (c : Config ι) (p : ι) (s : State ι) : Bool :=
  s.files.entries.all fun r => r.2.content.all fun f =>
    f.holder ≠ c.holder p || (c.expiry r.2.lastModified f.duration).any fun x => s.clock < x

/-- No file has a higher priority than those of `p`. -/
def unranked (c : Config ι) (p : ι) (s : State ι) : Bool :=
  s.files.entries.all fun r => r.2.content.all fun f => f.priority ≤ c.priority p

variable [DecidableEq ι]

/-- The call of `p` is not dropped and no other of its calls starts, no locks are broken, and the
store serves every request. -/
def undisturbed (p : ι) : Act ι → Bool
  | .tick _ => true
  | .acquire q | .release q | .cancel q => q ≠ p
  | .breakLocks _ => false
  | .request _ r _ _ => r = .ok

/-- The PUT of `p` finds the files of others expired, its LIST leaves an epoch to claim, and no DELETE
of others takes a file of `p` that has not expired. -/
def uncontested (c : Config ι) (p : ι) (s : State ι) : Act ι → Bool
  | .request q _ _ i =>
    if q = p then
      match (s.loc p).phase with
      | .claimList _ => nextVal (listEpochMetas s.files) < 2 ^ 40
      | .claimPut _ e => e ∈ s.files || s.files.entries.all fun r => r.2.content.any fun f =>
          f.holder = c.holder p || (c.expiry r.2.lastModified f.duration).any (· ≤ s.clock)
      | _ => true
    else
      ((s.loc q).phase.victim i).all fun v => (s.files.lookup v).all fun o => !leased c s.clock p o
  | _ => true

variable {s t : State ι} {a : Act ι}

lemma all_entries_iff {fs : Files} {q : (_ : Epoch) × Object → Bool} :
    fs.entries.all q = true ↔ ∀ g, At fs g fun o => q ⟨g, o⟩ = true := by
  rw [all_eq_true]
  exact ⟨fun h g o ho => h _ (AList.mem_lookup_iff.1 ho), fun h r hmem => h r.1 r.2 (AList.mem_lookup_iff.2 hmem)⟩

omit [DecidableEq ι] in
lemma timely_iff : timely c p s = true ↔ ∀ g, At s.files g fun o => ∀ f, o.content = some f →
    f.holder = c.holder p → ∃ x, c.expiry o.lastModified f.duration = some x ∧ s.clock < x := by
  rw [timely, all_entries_iff]
  simp [Option.all_eq_true, Option.any_eq_true, or_iff_not_imp_left]

omit [DecidableEq ι] in
lemma unranked_iff : unranked c p s = true ↔ ∀ g, At s.files g fun o => ∀ f, o.content = some f →
    f.priority ≤ c.priority p := by
  rw [unranked, all_entries_iff]
  simp [Option.all_eq_true]

lemma favourable (ht : timely c p s = true) (hu : unranked c p s = true)
    (hn : uncontested c p s (.request p r now i) = true) : Favourable c p s.clock s.files (s.loc p).phase := by
  refine ⟨timely_iff.1 ht, unranked_iff.1 hu, fun hph => ?_, fun e hph he => ?_⟩
  · simpa [uncontested, hph] using hn
  · simp only [uncontested, if_true, hph, Bool.or_eq_true, decide_eq_true_eq, he, false_or, all_eq_true] at hn
    intro g o ho
    obtain ⟨f, hf, hspent⟩ := (Option.any_eq_true _ _).1 (hn _ (AList.mem_lookup_iff.1 ho))
    refine ⟨by rw [hf]; rfl, fun f' hf' => ?_⟩
    rw [hf] at hf'
    cases hf'
    simpa [Option.any_eq_true] using hspent

lemma apart_request (hne : q ≠ p) (ht : timely c p s = true) (hf : freshPut s (.request q r now i) = true)
    (hn : uncontested c p s (.request q r now i) = true)
    (hex : exec c q s.clock s.files r now i (s.loc q).phase = some (fs', out)) : Apart c p s.files fs' := by
  constructor
  · intro e o f ho hc hh
    refine exec_keeps hex ho fun hv => ?_
    obtain ⟨x, hx, hlt⟩ := timely_iff.1 ht e o ho f hc hh
    simp [uncontested, hne, hv, ho, leased, hc, hh, hx, hlt] at hn
  · intro e o ho
    rcases exec_files hex with hsub | ⟨why, e', hph, hr, he, rfl⟩
    · exact .inl (hsub e o ho)
    · rw [lookup_insert'] at ho
      split_ifs at ho with hee
      · cases ho
        subst hee
        exact .inr ⟨freshPut_lt hf why e hph hr he, rfl⟩
      · exact .inl ho

/-- The renewal of `p` is under way, or has returned `Owner`. -/
def Succeeding (c : Config ι) (p : ι) (s : State ι) : Prop :=
  ((s.loc p).phase = .idle ∧ ∃ e, (s.loc p).latest = some e) ∨ Renewing c p s.files (s.loc p).phase

lemma Succeeding.step (h : Succeeding c p s) (ht : timely c p s = true) (hu : unranked c p s = true)
    (ha : undisturbed p a = true) (hf : freshPut s a = true) (hn : uncontested c p s a = true)
    (hs : step c s a = some t) : Succeeding c p t := by
  have hother : ∀ q l, q ≠ p → Succeeding c p (s.set q l) := by
    intro q l hne
    unfold Succeeding
    rw [State.set_loc_ne (Ne.symm hne)]
    exact h
  cases a with
  | tick =>
    simp only [Lock.step] at hs
    split_ifs at hs
    cases hs
    exact h
  | acquire q | release q =>
    obtain ⟨-, rfl⟩ := State.call_eq_some.1 hs
    exact hother q _ (by simpa [undisturbed] using ha)
  | breakLocks => cases ha
  | cancel q =>
    cases hs
    exact hother q _ (by simpa [undisturbed] using ha)
  | request q r =>
    obtain ⟨⟨fs', out⟩, hex, rfl⟩ := Option.map_eq_some_iff.1 hs
    obtain rfl : r = .ok := by simpa [undisturbed] using ha
    by_cases hq : q = p
    · subst hq
      rcases h with ⟨hidle, -⟩ | h
      · rw [hidle] at hex
        cases hex
      · have hout := exec_renewing hex h (favourable ht hu hn)
        unfold Succeeding
        simp only [State.set_loc_self]
        unfold Local.after
        split
        · exact .inr hout
        · exact .inl ⟨rfl, _, rfl⟩
        · next hno =>
          unfold Outcome.Renewing at hout
          split at hout
          · next heq => cases heq
          · next heq => cases heq; exact absurd rfl (hno _)
          · exact hout.elim
        all_goals exact hout.elim
    · have hap := apart_request hq ht hf hn hex
      unfold Succeeding
      simp only [State.set_loc_ne (Ne.symm hq)]
      exact h.imp_right fun h => h.apart hap

lemma returns_alone (hph : (s.loc p).phase.acquiring = true) (now : Timestamp) :
    ∃ n t, run (Lock.step c) s (List.replicate n (.request p .ok now 0)) = some t ∧ (t.loc p).phase = .idle := by
  generalize hk : (s.loc p).phase.distance s.files = k
  induction k using WellFoundedLT.induction generalizing s with
  | ind k ih =>
    obtain ⟨fs', out, hex, hout⟩ := exec_nearer (c := c) (p := p) s.clock now s.files .ok 0 hph
    have hstep : Lock.step c s (.request p .ok now 0) = some { s.set p ((s.loc p).after out) with
          files := fs', grants := grantsAfter s.grants (s.loc p).before out } := by
      simp only [Lock.step, hex, Option.map_some]
    cases out with
    | next ph =>
      obtain ⟨n, t, hrun, hidle⟩ := ih _ (hk ▸ hout.2) (s := { s.set p ((s.loc p).after (.next ph)) with
          files := fs', grants := grantsAfter s.grants (s.loc p).before (.next ph) })
        (by simpa [Local.after] using hout.1) (by simp [Local.after])
      exact ⟨n + 1, t, run_cons_eq_some.2 ⟨_, hstep, hrun⟩, hidle⟩
    | acquired =>
      refine ⟨1, _, run_cons_eq_some.2 ⟨_, hstep, rfl⟩, ?_⟩
      simp only [State.set_loc_self]
      unfold Local.after
      split
      · next heq => cases heq
      all_goals rfl
    | released | broken => exact hout.elim

/-- While `p` renews, its files do not expire, no file has a higher priority, and its call is not
disturbed. -/
def renewable (c : Config ι) (p : ι) (s : State ι) (a : Act ι) : Bool :=
  timely c p s && unranked c p s && undisturbed p a

/-- **A timely owner stays owner**, for any interleaving of requests in which no PUT is overtaken, the
renewal's PUT finds the files of others expired, and nobody deletes a file of the owner that has not
expired: a renewal that has returned has returned `Owner`, and one that has not returns as soon as its
requests are served. -/
theorem renewal_returns_owner (c : Config ι) (hc : Function.Injective c.holder) {s₀ s₁ s₂ s₃ : State ι}
    {as bs : List (Act ι)} (h₀ : s₀.Initial) (hb : ∀ a ∈ as, a.isBreak = false)
    (hm : Meets (step c) (fun s a => freshPut s a = true) s₀ as) (hr : run (step c) s₀ as = some s₁) {p : ι}
    {e : Epoch} (howner : (s₁.loc p).latest = some e) (hlease : HasLease c s₁ p)
    (hcall : step c s₁ (.acquire p) = some s₂)
    (hg : Meets (step c) (fun s a => renewable c p s a = true ∧ freshPut s a = true ∧
      uncontested c p s a = true) s₂ bs)
    (hr' : run (step c) s₂ bs = some s₃) (now : Timestamp) :
    ((s₃.loc p).phase = .idle → ∃ e', (s₃.loc p).latest = some e') ∧
    ∃ n t, run (step c) s₃ (List.replicate n (.request p .ok now 0)) = some t ∧ (t.loc p).phase = .idle := by
  have hver := (inv_run hc h₀ hb hm hr p).latest e howner
  obtain ⟨e', hown⟩ := hlease.own
  obtain rfl : e' = e := (hver.own e' hown).resolve_right not_mem_nil
  have hlow : ∀ g ∈ s₁.files, e' ≤ g := fun g hmem =>
    le_of_not_gt fun hlt => not_mem_nil (hver.lower hown g hmem hlt)
  obtain ⟨-, rfl⟩ := State.call_eq_some.1 hcall
  have hstart : Succeeding c p (s₁.set p { s₁.loc p with
      phase := .ownerList, latest := none, before := s₁.grants.map Grant.epoch }) := by
    refine .inr ?_
    rw [State.set_loc_self]
    exact ⟨e', hown, hlow⟩
  have hend : Succeeding c p s₃ := by
    refine run_inv (P := Succeeding c p) (fun s a t h hg hs => ?_) hstart hg hr'
    obtain ⟨hren, hfresh, hunc⟩ := hg
    simp only [renewable, Bool.and_eq_true] at hren
    exact h.step hren.1.1 hren.1.2 hren.2 hfresh hunc hs
  rcases hend with ⟨hidle, hlatest⟩ | hren
  · exact ⟨fun _ => hlatest, 0, s₃, rfl, hidle⟩
  · refine ⟨fun hidle => ?_, returns_alone hren.acquiring now⟩
    rw [hidle] at hren
    exact hren.elim

end Renewal

/-! ### A renewal that fails -/

def Phase.isIdle : Phase → Bool
  | .idle => true
  | _ => false

lemma Phase.isIdle_iff {ph : Phase} : ph.isIdle = true ↔ ph = .idle := by
  cases ph <;> simp [Phase.isIdle]

/-- `a` acquires epoch 0.  `b` had looked for an owner before and found none; it claims epoch 1. -/
def contended : List (Act Bool) :=
  [.acquire false, served false] ++
  .acquire true :: List.replicate 6 (served true) ++
  List.replicate 3 (served false)

/-- `a` renews: it creates epoch 2, removes epoch 0, finds the file of `b` below its own and gives up.
-/
def failedRenewal : List (Act Bool) := List.replicate 12 (served true)

/-- `a` is owner, its file has not expired, no file has a higher priority, and its renewal ends without
`Owner`. -/
theorem renewal_fails_contended :
    Function.Injective twoHolders.holder ∧ emptyDirectory.Initial ∧
    (∀ a ∈ contended, a.isBreak = false) ∧
    ∃ s₁ s₂ s₃, run (step twoHolders) emptyDirectory contended = some s₁ ∧
      (s₁.loc true).latest.isSome ∧ HasLease twoHolders s₁ true ∧
      step twoHolders s₁ (.acquire true) = some s₂ ∧
      Meets (step twoHolders) (fun s a => renewable twoHolders true s a = true) s₂ failedRenewal ∧
      run (step twoHolders) s₂ failedRenewal = some s₃ ∧
      (s₃.loc true).phase = .idle ∧ (s₃.loc true).latest = none := by
  refine ⟨by decide, ⟨fun _ => rfl, rfl⟩, by decide, ?_⟩
  simp only [← Phase.isIdle_iff, exists_and_left]
  decide

/-- `b` starts to look for an owner while `a` renews, and waits. -/
def quietRenewal : List (Act Bool) :=
  .tick 120 :: .acquire false :: served false :: List.replicate 9 (served true)

theorem renewal_returns_owner_quiet :
    ∃ s₁ s₂ s₃, run (step twoHolders) emptyDirectory (.acquire true :: List.replicate 6 (served true)) =
        some s₁ ∧ step twoHolders s₁ (.acquire true) = some s₂ ∧
      run (step twoHolders) s₂ quietRenewal = some s₃ ∧ ∃ e, (s₃.loc true).latest = some e := by
  obtain ⟨s₁, h₁, s₂, h₂, s₃, h₃, howner, hlease, hm, hidle⟩ : ∃ s₁,
      run (step twoHolders) emptyDirectory (.acquire true :: List.replicate 6 (served true)) = some s₁ ∧
      ∃ s₂, step twoHolders s₁ (.acquire true) = some s₂ ∧
      ∃ s₃, run (step twoHolders) s₂ quietRenewal = some s₃ ∧
        (s₁.loc true).latest.isSome ∧ HasLease twoHolders s₁ true ∧
        Meets (step twoHolders) (fun s a => renewable twoHolders true s a = true ∧
          freshPut s a = true ∧ uncontested twoHolders true s a = true) s₂ quietRenewal ∧
        (s₃.loc true).phase.isIdle := by decide
  obtain ⟨e, he⟩ := Option.isSome_iff_exists.1 howner
  refine ⟨s₁, s₂, s₃, h₁, h₂, h₃, ?_⟩
  exact (renewal_returns_owner twoHolders (by decide) ⟨fun _ => rfl, rfl⟩ (by decide) (by decide)
    h₁ he hlease h₂ hm h₃ 100).1 (Phase.isIdle_iff.1 hidle)

end Bepository.Lock
