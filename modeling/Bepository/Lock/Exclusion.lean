import Bepository.Lock.Machine

/-!
# Mutual exclusion

An owner's file is the lowest one of the directory.  What keeps it lowest is that every new file is
created above all files present, and the code does not ensure that: the number of the new file comes
from an earlier LIST, and the files of that LIST may be gone, replaced by higher ones, when the PUT
arrives.  `mutual_exclusion` is about the runs in which no PUT is overtaken in this way.
-/

namespace Bepository.Lock

open Lib List Option Table

section Exclusion

variable {ι : Type*} (c : Config ι)

/-! ### Own files -/

/-- The file at `e` is one of `p`. -/
def Own (p : ι) (e : Epoch) (fs : Files) : Prop :=
  ∃ o f, fs.lookup e = some o ∧ o.content = some f ∧ f.holder = c.holder p

/-- An object is a file of `p` that has not expired at the time `clock`. -/
def leased (clock : Timestamp) (p : ι) (o : Object) : Bool :=
  o.content.any fun f => f.holder = c.holder p &&
    (c.expiry o.lastModified f.duration).any fun x => clock < x

/-- `p` has a file that is present and has not expired at the latest store timestamp. -/
def HasLease (s : State ι) (p : ι) : Prop := ∃ r ∈ s.files.toList, leased c s.clock p r.2

instance (s : State ι) (p : ι) : Decidable (HasLease c s p) :=
  inferInstanceAs (Decidable (∃ r ∈ s.files.toList, leased c s.clock p r.2))

/-- The files of `p` are `e` or in `L`; and if `e` is there, so are all files below it. -/
structure Verified (p : ι) (e : Epoch) (L : List Epoch) (fs : Files) : Prop where
  own : ∀ f, Own c p f fs → f = e ∨ f ∈ L
  lower : Own c p e fs → ∀ f ∈ fs, f < e → f ∈ L

/-- What an `acquire` of `p` knows of the directory; and no breaker is at work. -/
def PhaseInv (p : ι) (fs : Files) : Phase → Prop
  | .claimList .breakLocks | .claimPut .breakLocks _ | .claimHead .breakLocks _ => False
  | .breakList .. | .breakGet .. | .breakDelete .. | .breakDrop .. => False
  | .claimHead .acquire e => ∀ f, Own c p f fs → f ≤ e
  | .scavengeList e _ => ∀ f, Own c p f fs → f ≤ e
  | .scavengeGet e _ _ _ => ∀ f, Own c p f fs → f ≤ e
  | .scavengeDelete e _ _ _ _ => ∀ f, Own c p f fs → f ≤ e
  | .verifyList e _ _ => ∀ f, Own c p f fs → f ≤ e
  | .lowerGet e _ lower _ _ => Verified c p e (lower.map ObjectMeta.epoch) fs
  | .higherGet e _ _ => Verified c p e [] fs
  | .dropMine _ result => ∀ e, result ≠ .ok (.owner e)
  | _ => True

def OutcomeInv (p : ι) (fs : Files) : Outcome → Prop
  | .next ph => PhaseInv c p fs ph
  | .acquired (.ok (.owner e)) => Verified c p e [] fs
  | _ => True

/-- Neither idle nor in a `release`. -/
def Phase.claiming : Phase → Bool
  | .idle | .releaseList | .releaseEach .. => false
  | _ => true

variable {c} {p q : ι} {e f : Epoch} {fs fs' : Files}

lemma Own.mem (h : Own c p e fs) : e ∈ fs := by
  obtain ⟨o, -, ho, -⟩ := h
  exact AList.lookup_isSome.1 (by rw [ho]; rfl)

lemma Own.unique (hc : Function.Injective c.holder) (hp : Own c p e fs) (hq : Own c q e fs) : p = q := by
  obtain ⟨o, f, ho, hf, hh⟩ := hp
  obtain ⟨o', f', ho', hf', hh'⟩ := hq
  rw [ho] at ho'
  cases ho'
  rw [hf] at hf'
  cases hf'
  exact hc (hh.symm.trans hh')

lemma HasLease.own {s : State ι} (h : HasLease c s p) : ∃ e, Own c p e s.files := by
  obtain ⟨⟨e, o⟩, hr, hl⟩ := h
  obtain ⟨f, hf, hh⟩ := (Option.any_eq_true _ _).1 hl
  rw [Bool.and_eq_true, decide_eq_true_eq] at hh
  exact ⟨e, o, f, Table.mem_toList.1 hr, hf, hh.1⟩

/-! ### Changes of the directory -/

/-- The directory changes without a new file of `p`, and without a new file below one of `p`. -/
structure Calm (c : Config ι) (p : ι) (fs fs' : Files) : Prop where
  own : ∀ f, Own c p f fs' → Own c p f fs
  lower : ∀ e, Own c p e fs' → ∀ f ∈ fs', f < e → f ∈ fs

def Shrinks (fs fs' : Files) : Prop := ∀ e o, fs'.lookup e = some o → fs.lookup e = some o

lemma Shrinks.refl : Shrinks fs fs := fun _ _ h => h

lemma shrinks_delete {r : Reply} {v : Epoch} : Shrinks fs (delete fs r v) :=
  fun _ _ => lookup_delete

lemma Shrinks.own (h : Shrinks fs fs') (ho : Own c p f fs') : Own c p f fs := by
  obtain ⟨o, g, hl, hg⟩ := ho
  exact ⟨o, g, h f o hl, hg⟩

lemma Shrinks.own_of_mem (h : Shrinks fs fs') (ho : Own c p f fs) (hm : f ∈ fs') : Own c p f fs' := by
  obtain ⟨o, ho'⟩ := isSome_iff_exists.1 (AList.lookup_isSome.2 hm)
  obtain ⟨o', g, hl, hg⟩ := ho
  rw [h f o ho'] at hl
  cases hl
  exact ⟨o, g, ho', hg⟩

lemma Shrinks.mem (h : Shrinks fs fs') (hm : f ∈ fs') : f ∈ fs := by
  obtain ⟨o, ho⟩ := isSome_iff_exists.1 (AList.lookup_isSome.2 hm)
  exact AList.lookup_isSome.1 (by rw [h f o ho]; rfl)

lemma Shrinks.calm (h : Shrinks fs fs') : Calm c p fs fs' :=
  ⟨fun _ ho => h.own ho, fun _ _ _ hm _ => h.mem hm⟩

variable {o : Object} {own : List Epoch} {todo : List ObjectMeta}

lemma calm_insert (hnew : ∀ g ∈ fs, g < e)
    (ho : ∀ g, o.content = some g → g.holder ≠ c.holder p) : Calm c p fs (fs.insert e o) := by
  have hown : ∀ f, Own c p f (fs.insert e o) → Own c p f fs := by
    rintro f ⟨o', g, hl, hg, hh⟩
    rw [lookup_insert'] at hl
    split at hl
    · cases hl
      exact absurd hh (ho g hg)
    · exact ⟨o', g, hl, hg, hh⟩
  refine ⟨hown, fun a ha f hf hlt => ?_⟩
  rcases (AList.mem_insert fs).1 hf with rfl | hf
  · exact absurd (hnew a (hown a ha).mem) (lt_asymm hlt)
  · exact hf

lemma Verified.calm {L : List Epoch} (h : Verified c p e L fs) (hcalm : Calm c p fs fs') :
    Verified c p e L fs' :=
  ⟨fun f hf => h.own f (hcalm.own f hf),
    fun he f hf hlt => h.lower (hcalm.own e he) f (hcalm.lower e he f hf hlt) hlt⟩

lemma PhaseInv.calm {ph : Phase} (h : PhaseInv c p fs ph) (hcalm : Calm c p fs fs') : PhaseInv c p fs' ph := by
  unfold PhaseInv at h ⊢
  split at h <;> first
    | exact h
    | exact fun f hf => h f (hcalm.own f hf)
    | exact Verified.calm h hcalm

/-! ### What a reply tells the caller -/

variable {ts now clock : Timestamp} {metas lower higher : List ObjectMeta} {regression found : Bool}
  {m : ObjectMeta} {g : EpochFile} {r : Reply} {i : ℕ} {ph ph' : Phase} {out : Outcome}

lemma ownerNext_inv : OutcomeInv c p fs (ownerNext metas) := by
  cases metas <;> trivial

lemma scavengeNext_inv (h : ∀ f, Own c p f fs → f ≤ e) :
    OutcomeInv c p fs (scavengeNext e ts regression metas) := by
  cases metas <;> exact h

lemma higherNext_inv (h : Verified c p e [] fs) : OutcomeInv c p fs (higherNext e ts higher) := by
  cases higher <;> exact h

lemma lowerNext_inv (h : Verified c p e (lower.map ObjectMeta.epoch) fs) :
    OutcomeInv c p fs (lowerNext e ts regression higher lower) := by
  cases lower with
  | nil => exact higherNext_inv h
  | cons => exact h

lemma partition_inv (h : ∀ f, Own c p f fs → f ≤ e) :
    OutcomeInv c p fs (partition e ts regression (listEpochMetas fs)) := by
  have hlow : ∀ f ∈ fs, f < e → f ∈ ((listEpochMetas fs).filter (·.epoch < e)).map ObjectMeta.epoch := by
    intro f hf hlt
    obtain ⟨m, hm, rfl⟩ := List.mem_map.1 (mem_map_listEpochMetas.2 hf)
    exact List.mem_map_of_mem (mem_filter.2 ⟨hm, by simpa using hlt⟩)
  refine partition_elim nofun (lowerNext_inv ⟨fun f hf => ?_, fun _ => hlow⟩)
  rcases eq_or_lt_of_le (h f hf) with he | hlt
  · exact .inl he
  · exact .inr (hlow f hf.mem hlt)

lemma Verified.gone {v : Epoch} {L : List Epoch} (h : Verified c p e (v :: L) fs) (hv : v ∉ fs) :
    Verified c p e L fs := by
  have hne : ∀ f ∈ fs, f ≠ v := fun f hf he => hv (he ▸ hf)
  refine ⟨fun f hf => ?_, fun he f hf hlt => ?_⟩
  · exact (h.own f hf).imp_right fun hm => (mem_cons.1 hm).resolve_left (hne f hf.mem)
  · exact (mem_cons.1 (h.lower he f hf hlt)).resolve_left (hne f hf)

lemma releaseNext_inv : OutcomeInv c p fs (releaseNext todo own) := releaseNext_elim trivial trivial

lemma releaseNext_claiming (h : releaseNext todo own = .next ph) : ph.claiming = false := by
  unfold releaseNext at h
  split at h <;> cases h
  rfl

lemma releaseOne_spec (h : releaseOne c p fs r i todo own = some (fs', out)) :
    Shrinks fs fs' ∧ OutcomeInv c p fs' out ∧ ∀ ph, out = .next ph → ph.claiming = false := by
  rcases releaseOne_cases h with ⟨v, -, rfl, rfl⟩ | ⟨rfl, rfl | ⟨m, own', -, rfl, -⟩⟩
  · exact ⟨shrinks_delete, releaseNext_inv, fun _ => releaseNext_claiming⟩
  · exact ⟨Shrinks.refl, trivial, fun _ h => by cases h⟩
  · exact ⟨Shrinks.refl, releaseNext_inv, fun _ => releaseNext_claiming⟩

def Phase.reads : Phase → Bool
  | .claimPut .. | .scavengeDelete .. | .dropMine .. | .releaseEach .. => false
  | .breakDelete .. | .breakDrop .. => false
  | _ => true

lemma exec_reads (hph : ph.reads = true) (h : exec c p clock fs r now i ph = some (fs', out)) : fs' = fs := by
  cases exec_execs h with
  | claimPut | claimLost | scavengeDelete | dropMine | releaseEach | breakDelete | breakDrop => cases hph
  | _ => rfl

lemma exec_files (h : exec c p clock fs r now i ph = some (fs', out)) :
    Shrinks fs fs' ∨ ∃ why e, ph = .claimPut why e ∧ r ≠ .err ∧ e ∉ fs ∧
      fs' = fs.insert e ⟨some (content c p why), clock⟩ := by
  cases exec_execs h with
  | @claimPut why e hr he | @claimLost why e hr he => exact .inr ⟨why, e, rfl, hr, he, rfl⟩
  | releaseEach ho => exact .inl (releaseOne_spec ho).1
  | scavengeDelete | dropMine | breakDelete | breakDrop => exact .inl shrinks_delete
  | _ => exact .inl Shrinks.refl

lemma exec_outcome (h : exec c p clock fs r now i ph = some (fs', out)) (hph : PhaseInv c p fs ph)
    (hnew : ∀ why e, ph = .claimPut why e → r ≠ .err → e ∉ fs → ∀ g ∈ fs, g < e) : OutcomeInv c p fs' out := by
  cases exec_execs h with
  | failed ph why | @claimLost why => cases why <;> trivial
  | ownerList | ownerGone => exact ownerNext_inv
  | ownerSeen => exact fastPath_elim trivial trivial trivial
  | @claimList why | @claimTaken why =>
    cases why with
    | acquire => trivial
    | breakLocks => exact hph.elim
  | @claimPut why e hr he =>
    cases why with
    | breakLocks => exact hph.elim
    | acquire =>
      intro f hf
      rcases (AList.mem_insert fs).1 hf.mem with rfl | hf
      · exact le_refl _
      · exact (hnew .acquire e rfl hr he f hf).le
  | head => exact hph
  | headFailed => exact fun _ => nofun
  | scavengeList | scavengeGone => exact scavengeNext_inv hph
  | scavengeSeen =>
    exact scavengeEntry_elim trivial (fun _ _ _ => hph) fun _ => scavengeNext_inv hph
  | scavengeDelete =>
    exact scavengeNext_inv fun f hf => hph f (shrinks_delete.own hf)
  | verifyList => exact partition_inv hph
  | lowerGone hg =>
    exact lowerNext_inv (Verified.gone hph (readEntry_none hg))
  | lowerSeen => exact classifyLoss_elim trivial trivial nofun
  | higherGone => exact higherNext_inv hph
  | higherSeen => exact yieldEntry_elim trivial nofun (higherNext_inv hph)
  | dropMine =>
    unfold OutcomeInv
    split
    · next he => cases he
    · next e' he => cases he; exact absurd rfl (hph e')
    · trivial
  | releaseList => exact releaseNext_inv
  | releaseFailed => trivial
  | releaseEach ho => exact (releaseOne_spec ho).2.1
  | _ => exact hph.elim

lemma exec_claiming (h : exec c p clock fs r now i ph = some (fs', .next ph'))
    (hph : ph.claiming = false) : ph'.claiming = false := by
  cases ph with
  | idle => cases h
  | releaseList =>
    simp only [exec] at h
    split_ifs at h
    · exact releaseNext_claiming (congrArg Prod.snd (Option.some.inj h))
    · cases h
  | releaseEach => exact (releaseOne_spec h).2.2 ph' rfl
  | _ => cases hph

/-! ### The invariant of a participant -/

/-- A participant knows what its phase knows; an owner's files are gone but one, which is lowest. -/
structure LocalInv (c : Config ι) (p : ι) (fs : Files) (l : Local) : Prop where
  phase : PhaseInv c p fs l.phase
  latest : ∀ e, l.latest = some e → Verified c p e [] fs
  quiet : l.phase.claiming = true → l.latest = none

variable {l : Local}

lemma LocalInv.calm (h : LocalInv c p fs l) (hcalm : Calm c p fs fs') : LocalInv c p fs' l :=
  ⟨h.phase.calm hcalm, fun e he => (h.latest e he).calm hcalm, h.quiet⟩

lemma LocalInv.idle (h : LocalInv c p fs l) : LocalInv c p fs { l with phase := .idle } :=
  ⟨trivial, h.latest, nofun⟩

lemma LocalInv.calm_of_latest (h : LocalInv c p fs l)
    (hex : exec c p clock fs r now i l.phase = some (fs', out)) {e : Epoch}
    (hl : l.latest = some e) : Calm c p fs fs' := by
  rcases exec_files hex with hsub | ⟨why, e', hph, -⟩
  · exact hsub.calm
  · have hnone := h.quiet (by rw [hph]; rfl)
    rw [hl] at hnone
    cases hnone

lemma LocalInv.after (h : LocalInv c p fs l) (hex : exec c p clock fs r now i l.phase = some (fs', out))
    (hnew : ∀ why e, l.phase = .claimPut why e → r ≠ .err → e ∉ fs → ∀ g ∈ fs, g < e) :
    LocalInv c p fs' (l.after out) := by
  have hout := exec_outcome hex h.phase hnew
  have hlatest : ∀ e, l.latest = some e → Verified c p e [] fs' := fun e he =>
    (h.latest e he).calm (h.calm_of_latest hex he)
  cases out with
  | next =>
    refine ⟨hout, hlatest, fun hph => h.quiet ?_⟩
    by_contra hn
    rw [Bool.not_eq_true] at hn
    exact Bool.false_ne_true ((exec_claiming hex hn).symm.trans hph)
  | acquired =>
    unfold Local.after
    split
    · next he => cases he
    · next e he =>
      cases he
      exact ⟨trivial, fun e' he' => by cases he'; exact hout, nofun⟩
    · exact ⟨trivial, nofun, nofun⟩
    all_goals next he => cases he
  | released ok =>
    cases ok with
    | true => exact ⟨trivial, nofun, nofun⟩
    | false => exact ⟨trivial, hlatest, nofun⟩
  | broken => exact ⟨trivial, hlatest, nofun⟩

/-! ### Runs -/

def freshPut (s : State ι) : Act ι → Bool
  | .request p r _ _ =>
    match (s.loc p).phase with
    | .claimPut _ e => r = .err || e ∈ s.files || s.files.keys.all (· < e)
    | _ => true
  | _ => true

/-- A PUT by a participant that was `Owner` when its latest `acquire` returned finds no file of
another holder. -/
def soleRenewal (c : Config ι) (s : State ι) : Act ι → Bool
  | .request p r _ _ =>
    match (s.loc p).phase, (s.loc p).returned with
    | .claimPut _ e, some _ => r = .err || e ∈ s.files ||
        s.files.entries.all fun o => o.2.content.any (·.holder = c.holder p)
    | _, _ => true
  | _ => true

def Act.isBreak : Act ι → Bool
  | .breakLocks _ => true
  | _ => false

variable {s t : State ι} {a : Act ι}

lemma freshPut_lt (h : freshPut s (.request p r now i) = true) (why : Purpose) (e : Epoch)
    (hph : (s.loc p).phase = .claimPut why e) (hr : r ≠ .err) (he : e ∉ s.files) : ∀ g ∈ s.files, g < e := by
  simp only [freshPut, hph, Bool.or_eq_true, decide_eq_true_eq, List.all_eq_true] at h
  rcases h with (h | h) | h
  · exact absurd h hr
  · exact absurd h he
  · exact fun g hg => h g hg

lemma soleRenewal_own (h : soleRenewal c s (.request p r now i) = true) {why : Purpose} {e e' : Epoch}
    (hph : (s.loc p).phase = .claimPut why e) (hr : r ≠ .err) (he : e ∉ s.files)
    (hret : (s.loc p).returned = some e') : ∀ g ∈ s.files, Own c p g s.files := by
  simp only [soleRenewal, hph, hret, Bool.or_eq_true, decide_eq_true_eq, List.all_eq_true] at h
  rcases h with (h | h) | h
  · exact absurd h hr
  · exact absurd h he
  · intro g hg
    obtain ⟨o, ho⟩ := isSome_iff_exists.1 (AList.lookup_isSome.2 hg)
    have hany := h _ (AList.mem_lookup_iff.1 ho)
    obtain ⟨f, hf, hh⟩ := (Option.any_eq_true _ _).1 hany
    exact ⟨o, f, ho, hf, by simpa using hh⟩

lemma calm_of_ne (hc : Function.Injective c.holder) (hq : PhaseInv c q s.files (s.loc q).phase)
    (hf : freshPut s (.request q r now i) = true) (hne : p ≠ q)
    (hex : exec c q s.clock s.files r now i (s.loc q).phase = some (fs', out)) : Calm c p s.files fs' := by
  rcases exec_files hex with hsub | ⟨why, e, hph, hr, he, rfl⟩
  · exact hsub.calm
  · refine calm_insert (freshPut_lt hf why e hph hr he) ?_
    rintro g hg hh
    rw [hph] at hq
    cases why with
    | acquire =>
      cases hg
      exact hne (hc hh.symm)
    | breakLocks => exact hq.elim

/-! ### Renewals -/

/-- The files of `p` are below all files of others. -/
def Ahead (c : Config ι) (p : ι) (fs : Files) : Prop :=
  ∀ f g, Own c p f fs → g ∈ fs → ¬ Own c p g fs → f < g

lemma Ahead.shrinks (h : Ahead c p fs) (hsub : Shrinks fs fs') : Ahead c p fs' :=
  fun f g hf hg hn => h f g (hsub.own hf) (hsub.mem hg) fun ho => hn (hsub.own_of_mem ho hg)

lemma Verified.ahead (h : Verified c p e [] fs) : Ahead c p fs := by
  intro f g hf hg hn
  obtain rfl : f = e := (h.own f hf).resolve_right (not_mem_nil)
  refine lt_of_not_ge fun hle => ?_
  rcases eq_or_lt_of_le hle with rfl | hlt
  · exact hn hf
  · exact not_mem_nil (h.lower hf g hg hlt)

lemma own_insert_of_ne (hne : f ≠ e) : Own c p f (fs.insert e o) ↔ Own c p f fs := by
  unfold Own
  rw [lookup_insert', if_neg hne]

lemma Ahead.insert (h : Ahead c p fs) (hnew : ∀ g ∈ fs, g < e) (he : e ∉ fs)
    (ho : ∀ g, o.content = some g → g.holder ≠ c.holder p) : Ahead c p (fs.insert e o) := by
  intro f g hf hg hn
  have hf' := (calm_insert hnew ho).own f hf
  rcases (AList.mem_insert fs).1 hg with rfl | hg
  · exact hnew f hf'.mem
  · exact h f g hf' hg fun hown => hn ((own_insert_of_ne fun hge : g = e => he (hge ▸ hg)).2 hown)

lemma ahead_insert_own (hall : ∀ g ∈ fs, Own c p g fs) (he : e ∉ fs)
    (ho : ∃ g, o.content = some g ∧ g.holder = c.holder p) : Ahead c p (fs.insert e o) := by
  intro f g hf hg hn
  refine absurd ?_ hn
  rcases (AList.mem_insert fs).1 hg with rfl | hg
  · obtain ⟨g', hg', hh⟩ := ho
    exact ⟨o, g', by rw [lookup_insert', if_pos rfl], hg', hh⟩
  · exact (own_insert_of_ne fun hge : g = e => he (hge ▸ hg)).2 (hall g hg)

lemma returned_after (l : Local) (h : (l.after out).returned.isSome) :
    (∃ e, out = .acquired (.ok (.owner e))) ∨ l.returned.isSome := by
  unfold Local.after at h
  split at h
  · exact .inr h
  · exact .inl ⟨_, rfl⟩
  · cases h
  · cases h
  · exact .inr h
  · exact .inr h

variable [DecidableEq ι]

lemma inv_step (hc : Function.Injective c.holder) (hi : ∀ p, LocalInv c p s.files (s.loc p))
    (hf : freshPut s a = true) (hb : a.isBreak = false) (hs : step c s a = some t) :
    ∀ p, LocalInv c p t.files (t.loc p) := by
  cases a with
  | tick =>
    simp only [step] at hs
    split_ifs at hs
    cases hs
    exact hi
  | acquire =>
    obtain ⟨-, rfl⟩ := State.call_eq_some.1 hs
    exact State.set_forall ⟨trivial, nofun, fun _ => rfl⟩ fun p _ => hi p
  | release q =>
    obtain ⟨-, rfl⟩ := State.call_eq_some.1 hs
    exact State.set_forall ⟨trivial, (hi q).latest, nofun⟩ fun p _ => hi p
  | breakLocks => cases hb
  | request q =>
    obtain ⟨⟨fs', out⟩, hex, rfl⟩ := map_eq_some_iff.1 hs
    exact State.set_forall ((hi q).after hex (freshPut_lt hf)) fun p hne =>
      (hi p).calm (calm_of_ne hc (hi q).phase hf hne hex)
  | cancel q =>
    cases hs
    exact State.set_forall (hi q).idle fun p _ => hi p

lemma ahead_step (hc : Function.Injective c.holder) (hi : ∀ p, LocalInv c p s.files (s.loc p))
    (ha : ∀ p, (s.loc p).returned.isSome → Ahead c p s.files) (hf : freshPut s a = true)
    (hr : soleRenewal c s a = true) (hb : a.isBreak = false)
    (hs : step c s a = some t) : ∀ p, (t.loc p).returned.isSome → Ahead c p t.files := by
  cases a with
  | tick =>
    simp only [step] at hs
    split_ifs at hs
    cases hs
    exact ha
  | acquire q | release q =>
    obtain ⟨-, rfl⟩ := State.call_eq_some.1 hs
    exact State.set_forall (P := fun p l => l.returned.isSome → Ahead c p s.files) (ha q) fun p _ => ha p
  | breakLocks => cases hb
  | cancel q =>
    cases hs
    exact State.set_forall (P := fun p l => l.returned.isSome → Ahead c p s.files) (ha q) fun p _ => ha p
  | request q =>
    obtain ⟨⟨fs', out⟩, hex, rfl⟩ := map_eq_some_iff.1 hs
    have hwhy : ∀ why e, (s.loc q).phase = .claimPut why e → why = .acquire := by
      intro why e hph
      have hq := (hi q).phase
      rw [hph] at hq
      cases why with
      | acquire => rfl
      | breakLocks => exact hq.elim
    refine State.set_forall (P := fun p l => l.returned.isSome → Ahead c p fs') (fun hret => ?_) fun p hne hret => ?_
    · rcases returned_after (s.loc q) hret with ⟨e, rfl⟩ | hret
      · exact Verified.ahead (exec_outcome hex (hi q).phase (freshPut_lt hf))
      · rcases exec_files hex with hsub | ⟨why, e, hph, hok, he, rfl⟩
        · exact (ha q hret).shrinks hsub
        · obtain ⟨e', he'⟩ := isSome_iff_exists.1 hret
          obtain rfl := hwhy why e hph
          exact ahead_insert_own (soleRenewal_own hr hph hok he he') he ⟨_, rfl, rfl⟩
    · rcases exec_files hex with hsub | ⟨why, e, hph, hok, he, rfl⟩
      · exact (ha p hret).shrinks hsub
      · obtain rfl := hwhy why e hph
        refine (ha p hret).insert (freshPut_lt hf _ e hph hok he) he ?_
        rintro g hg hh
        cases hg
        exact hne (hc hh.symm)

/-! ### The theorem -/

omit [DecidableEq ι] in
lemma inv_initial (h₀ : s.Initial) (p : ι) : LocalInv c p s.files (s.loc p) := by
  rw [h₀.1 p]
  exact ⟨trivial, nofun, nofun⟩

lemma inv_run (hc : Function.Injective c.holder) {s₀ : State ι} {as : List (Act ι)} (h₀ : s₀.Initial)
    (hb : ∀ a ∈ as, a.isBreak = false) (hm : Meets (step c) (fun s a => freshPut s a = true) s₀ as)
    (hr : run (step c) s₀ as = some s) (p : ι) : LocalInv c p s.files (s.loc p) := by
  exact run_inv (P := fun s => ∀ p, LocalInv c p s.files (s.loc p))
    (fun s a t hi hg hs => inv_step hc hi hg.1 hg.2 hs) (inv_initial h₀) (hm.and_forall hb) hr p

/-- Two participants are owners at once: each has `Owner` as the result of `since`, and a file that
is present and has not expired. -/
def Overlap (c : Config ι) (since : Local → Option Epoch) (s : State ι) (p q : ι) : Prop :=
  (since (s.loc p)).isSome ∧ (since (s.loc q)).isSome ∧ HasLease c s p ∧ HasLease c s q

instance (c : Config ι) (since : Local → Option Epoch) (s : State ι) (p q : ι) :
    Decidable (Overlap c since s p q) := inferInstanceAs (Decidable (_ ∧ _ ∧ _ ∧ _))

omit [DecidableEq ι] in
lemma not_overlap (hc : Function.Injective c.holder) {since : Local → Option Epoch}
    (ha : ∀ p, (since (s.loc p)).isSome → Ahead c p s.files) (hne : p ≠ q) : ¬ Overlap c since s p q := by
  rintro ⟨hp, hq, hlp, hlq⟩
  obtain ⟨f, hf⟩ := hlp.own
  obtain ⟨f', hf'⟩ := hlq.own
  have hpq := ha p hp f f' hf hf'.mem fun h => hne (h.unique hc hf')
  have hqp := ha q hq f' f hf' hf.mem fun h => hne (hf.unique hc h)
  exact lt_asymm hpq hqp

/-- **Mutual exclusion**, for any interleaving of requests in which no PUT is overtaken: two
participants never both have `Owner` as the result of their latest `acquire` and an unexpired file.
If moreover no owner's renewal claims its next epoch while others have files, this holds with the
earlier `Owner` counted until the renewal returns. -/
theorem mutual_exclusion (c : Config ι) (hc : Function.Injective c.holder) {s₀ s : State ι} {as : List (Act ι)}
    (h₀ : s₀.Initial) (hb : ∀ a ∈ as, a.isBreak = false) (hr : run (step c) s₀ as = some s) {p q : ι}
    (hne : p ≠ q) :
    (Meets (step c) (fun s a => freshPut s a = true) s₀ as → ¬ Overlap c Local.latest s p q) ∧
    (Meets (step c) (fun s a => freshPut s a = true ∧ soleRenewal c s a = true) s₀ as →
      ¬ Overlap c Local.returned s p q) := by
  constructor
  · intro hm
    have hi := inv_run hc h₀ hb hm hr
    refine not_overlap hc (fun p hp => ?_) hne
    obtain ⟨e, he⟩ := isSome_iff_exists.1 hp
    exact ((hi p).latest e he).ahead
  · intro hm
    have hi := run_inv (P := fun s => (∀ p, LocalInv c p s.files (s.loc p)) ∧
        ∀ p, (s.loc p).returned.isSome → Ahead c p s.files)
      (fun s a t hi hg hs => ⟨inv_step hc hi.1 hg.1.1 hg.2 hs, ahead_step hc hi.1 hi.2 hg.1.1 hg.1.2 hg.2 hs⟩)
      ⟨inv_initial h₀, fun p hp => by rw [h₀.1 p] at hp; cases hp⟩ (hm.and_forall hb) hr
    exact not_overlap hc hi.2 hne

end Exclusion

/-! ### A PUT that is overtaken -/

/-- `b` lists the empty directory and will claim epoch 0.  Before its PUT arrives, `a` acquires epoch
0 and renews to epoch 1, which removes the file of epoch 0.  The PUT of `b` then succeeds, and its
file is the lowest one. -/
def overtakenPut : List (Act Bool) :=
  [.acquire false, served false, served false] ++
  .acquire true :: List.replicate 6 (served true) ++
  .acquire true :: List.replicate 9 (served true) ++
  List.replicate 5 (served false)

/-- Both participants have returned `Owner`, `a` for epoch 1 and `b` for epoch 0, and both files are
there and unexpired.  The store's clock has not moved. -/
theorem mutual_exclusion_fails_overtaken :
    Function.Injective twoHolders.holder ∧ emptyDirectory.Initial ∧
    (∀ a ∈ overtakenPut, a.isBreak = false) ∧
    ∃ s, run (step twoHolders) emptyDirectory overtakenPut = some s ∧
      Overlap twoHolders Local.latest s true false := by
  exact ⟨by decide, ⟨fun _ => rfl, rfl⟩, by decide, by decide⟩

/-- A run that meets the conditions: `a` acquires and renews while `b` fails. -/
def quietRun : List (Act Bool) :=
  .acquire true :: List.replicate 6 (served true) ++
  .acquire true :: List.replicate 9 (served true) ++
  .acquire false :: List.replicate 2 (served false)

theorem mutual_exclusion_quietRun :
    ∃ s, run (step twoHolders) emptyDirectory quietRun = some s ∧ ¬ Overlap twoHolders Local.latest s true false ∧
      ¬ Overlap twoHolders Local.returned s true false := by
  have h : (run (step twoHolders) emptyDirectory quietRun).isSome := by decide
  obtain ⟨s, hs⟩ := isSome_iff_exists.1 h
  have hinit : emptyDirectory.Initial := ⟨fun _ => rfl, rfl⟩
  have hex := mutual_exclusion twoHolders (by decide) hinit (by decide) hs (p := true) (q := false)
    (by decide)
  exact ⟨s, hs, hex.1 (by decide +kernel), hex.2 (by decide)⟩

end Bepository.Lock
