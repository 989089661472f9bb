import Bepository.Lock.Guard
import Bepository.Lock.Renewal

/-!
# A holder whose files are the only ones

`acquire` in a directory that holds only files of the caller, with nobody else at work.  It scavenges
its own lower files and then looks whether one of them is left: a DELETE that failed leaves one, and
`acquire` takes it for the file of another owner.  `lone_holder_owner` is about the calls whose
scavenging DELETEs take effect; any other request may fail.
-/

namespace Bepository.Lock

open Lib List Option Table

/-! ### One call and the store -/

/-- How a request is served: the store's time, its reply, what the caller's clock shows, and which of the
requests of a `release` it is. -/
structure Service where
  clock : Timestamp
  reply : Reply
  now : Timestamp
  i : ℕ

section Lone

variable {ι : Type*} (c : Config ι) (p : ι)

def alone (s : Files × Outcome) (q : Service) : Option (Files × Outcome) :=
  match s.2 with
  | .next ph => exec c p q.clock s.1 q.reply q.now q.i ph
  | _ => none

/-- The first `n` requests of a call in the given phase. -/
def runAlone (fs : Files) (ph : Phase) (qs : ℕ → Service) (n : ℕ) : Option (Files × Outcome) :=
  run (alone c p) (fs, .next ph) ((List.range n).map qs)

/-! ### What a lone `acquire` knows -/

/-- Every file is one of `p`. -/
def AllOwn (fs : Files) : Prop := ∀ e ∈ fs, Own c p e fs

/-- Every file is one of `p`, and `e` is the highest. -/
structure Topmost (e : Epoch) (fs : Files) : Prop where
  own : AllOwn c p fs
  mem : e ∈ fs
  top : ∀ g ∈ fs, g ≤ e

/-- What a lone `acquire` knows of the directory; it is in no other phase before it returns. -/
def LonePhase (fs : Files) : Phase → Prop
  | .ownerList | .claimList .acquire => AllOwn c p fs
  | .ownerGet metas => AllOwn c p fs ∧ metas ≠ []
  | .claimPut .acquire e => AllOwn c p fs ∧ ∀ g ∈ fs, g < e
  | .claimHead .acquire e | .scavengeList e _ => Topmost c p e fs
  | .scavengeGet e _ metas _ => Topmost c p e fs ∧ metas ≠ [] ∧ Shows e metas fs
  | .scavengeDelete e _ v metas _ => Topmost c p e fs ∧ v < e ∧ Shows e metas (fs.erase v)
  | .verifyList e _ _ => Topmost c p e fs ∧ ∀ g ∈ fs, e ≤ g
  | .dropMine _ result => ∃ err, result = .error err
  | _ => False

/-- The result is `Owner` or an error. -/
def OwnerOrErr (r : Except Error AcquisitionStatus) : Prop := (∃ e, r = .ok (.owner e)) ∨ ∃ err, r = .error err

def LoneOutcome (fs : Files) : Outcome → Prop
  | .next ph => LonePhase c p fs ph
  | .acquired r => OwnerOrErr r
  | _ => False

/-- The phase whose request is a DELETE of `scavenge_below`. -/
def Phase.scavenges : Phase → Bool
  | .scavengeDelete .. => true
  | _ => false

def Outcome.scavenges : Outcome → Bool
  | .next ph => ph.scavenges
  | _ => false

variable {c} {p} {e v : Epoch} {fs fs' : Files} {ts clock now : Timestamp} {metas : List ObjectMeta}
  {regression : Bool} {m : ObjectMeta} {f : EpochFile} {r : Reply} {i : ℕ} {ph ph' : Phase} {out : Outcome}

lemma AllOwn.holder (h : AllOwn c p fs) (hg : readEntry fs r e = .ok (some f)) : f.holder = c.holder p := by
  obtain ⟨o, ho, hf⟩ := readEntry_some hg
  obtain ⟨o', f', ho', hf', hh⟩ := h e (mem_of_lookup ho)
  rw [ho] at ho'
  cases ho'
  rw [hf] at hf'
  cases hf'
  exact hh

lemma AllOwn.erase (h : AllOwn c p fs) : AllOwn c p (fs.erase v) := by
  have hshrink : Shrinks fs (fs.erase v) := fun _ _ => lookup_of_erase
  exact fun e he => hshrink.own_of_mem (h e (hshrink.mem he)) he

lemma Topmost.put (h : AllOwn c p fs) (hlt : ∀ g ∈ fs, g < e) :
    Topmost c p e (fs.insert e ⟨some (content c p .acquire), clock⟩) := by
  refine ⟨fun g hg => ?_, (AList.mem_insert fs).2 (.inl rfl), fun g hg => ?_⟩
  · by_cases hge : g = e
    · exact ⟨_, _, by rw [lookup_insert', if_pos hge], rfl, rfl⟩
    · obtain ⟨o, f, ho, hf⟩ := h g (((AList.mem_insert fs).1 hg).resolve_left hge)
      exact ⟨o, f, by rw [lookup_insert', if_neg hge, ho], hf⟩
  · rcases (AList.mem_insert fs).1 hg with rfl | hmem
    · exact le_rfl
    · exact (hlt g hmem).le

lemma Topmost.erase (h : Topmost c p e fs) (hv : v < e) : Topmost c p e (fs.erase v) :=
  ⟨h.own.erase, AList.mem_erase.2 ⟨hv.ne', h.mem⟩, fun g hg => h.top g (AList.mem_erase.1 hg).2⟩

/-! ### Its requests -/

lemma ownerNext_lone (h : AllOwn c p fs) : LoneOutcome c p fs (ownerNext metas) := by
  cases metas with
  | nil => exact h
  | cons => exact ⟨h, by simp⟩

lemma fastPath_lone (h : AllOwn c p fs) (hh : f.holder = c.holder p) :
    LoneOutcome c p fs (fastPath c p now m f) := by
  rw [fastPath, if_neg fun hno => hno.1 hh]
  exact h

lemma scavengeNext_lone (h : Topmost c p e fs) (hs : Shows e metas fs) :
    LoneOutcome c p fs (scavengeNext e ts regression metas) := by
  cases metas with
  | nil => exact ⟨h, fun g hg => le_of_not_gt fun hlt => not_mem_nil (hs.all g hg hlt)⟩
  | cons => exact ⟨h, by simp, hs⟩

lemma scavengeEntry_lone (h : Topmost c p e fs) (hs : Shows e (m :: metas) fs) (hh : f.holder = c.holder p) :
    LoneOutcome c p fs (scavengeEntry c p e ts m f metas regression) := by
  unfold scavengeEntry
  split
  · exact .inr ⟨_, rfl⟩
  · rw [if_pos (.inr hh)]
    exact ⟨h, (hs.below m (by simp)).1, hs.erase⟩

lemma partition_lone (h : Topmost c p e fs) (hlow : ∀ g ∈ fs, e ≤ g) :
    LoneOutcome c p fs (partition e ts regression (listEpochMetas fs)) := by
  have hhigher : (listEpochMetas fs).filter (e < ·.epoch) = [] := filter_eq_nil_iff.2 fun m hm hlt =>
    absurd (by simpa using hlt) (h.top _ (mem_map_listEpochMetas.1 (List.mem_map_of_mem hm))).not_gt
  rw [partition_of_lowest h.mem hlow, hhigher]
  exact .inl ⟨e, rfl⟩

lemma exec_lone (h : exec c p clock fs r now i ph = some (fs', out)) (hph : LonePhase c p fs ph)
    (hdel : ph.scavenges = true → r ≠ .err) : LoneOutcome c p fs' out := by
  have herr : ∀ err : Error, LoneOutcome c p fs (.acquired (.error err)) := fun err => .inr ⟨err, rfl⟩
  cases ph with
  | ownerList =>
    simp only [exec] at h
    split_ifs at h <;> cases h
    · exact ownerNext_lone hph
    · exact herr _
  | ownerGet metas =>
    obtain ⟨hown, hne⟩ := hph
    cases metas with
    | nil => exact absurd rfl hne
    | cons =>
      simp only [exec] at h
      split at h <;> cases h
      · exact herr _
      · exact ownerNext_lone hown
      · next f hg => exact fastPath_lone hown (hown.holder hg)
  | claimList why =>
    cases why with
    | breakLocks => exact hph.elim
    | acquire =>
      simp only [exec] at h
      split_ifs at h
      · split at h <;> cases h
        · exact herr _
        · next e he =>
          refine ⟨hph, fun g hg => ?_⟩
          have hlt := lt_nextVal hg
          rwa [← Epoch.new_eq_ok.1 he] at hlt
      · cases h
        exact herr _
  | claimPut why e =>
    cases why with
    | breakLocks => exact hph.elim
    | acquire =>
      obtain ⟨hown, hlt⟩ := hph
      simp only [exec] at h
      split_ifs at h with hr he hok hok <;> cases h
      · exact herr _
      · exact absurd (hlt e he) (lt_irrefl e)
      · exact herr _
      · exact Topmost.put hown hlt
      · exact .inr ⟨_, rfl⟩
  | claimHead why e =>
    cases why with
    | breakLocks => exact hph.elim
    | acquire =>
      cases hl : (if r = .ok then fs.lookup e else none) with
      | none =>
        simp only [exec, hl] at h
        cases h
        exact ⟨_, rfl⟩
      | some =>
        simp only [exec, hl] at h
        cases h
        exact hph
  | scavengeList =>
    simp only [exec] at h
    split_ifs at h <;> cases h
    · exact scavengeNext_lone hph shows_list
    · exact herr _
  | scavengeGet e ts metas =>
    obtain ⟨htop, hne, hs⟩ := hph
    cases metas with
    | nil => exact absurd rfl hne
    | cons =>
      simp only [exec] at h
      split at h <;> cases h
      · exact herr _
      · next hg => exact scavengeNext_lone htop (hs.gone (readEntry_none hg))
      · next f hg => exact scavengeEntry_lone htop hs (htop.own.holder hg)
  | scavengeDelete =>
    obtain ⟨htop, hlt, hs⟩ := hph
    cases h
    rw [delete, if_neg (hdel rfl)]
    exact scavengeNext_lone (htop.erase hlt) hs
  | verifyList =>
    simp only [exec] at h
    split_ifs at h <;> cases h
    · exact partition_lone hph.1 hph.2
    · exact herr _
  | dropMine =>
    obtain ⟨err, rfl⟩ := hph
    cases h
    exact .inr ⟨err, rfl⟩
  | _ => exact hph.elim

lemma LonePhase.acquiring (h : LonePhase c p fs ph) : ph.acquiring = true := by
  cases ph with
  | claimList why | claimPut why | claimHead why =>
    cases why with
    | acquire => rfl
    | breakLocks => exact h.elim
  | ownerGet => simpa [Phase.acquiring] using h.2
  | scavengeGet => simpa [Phase.acquiring] using h.2.1
  | ownerList | scavengeList | scavengeDelete | verifyList | dropMine => rfl
  | _ => exact h.elim

/-! ### Whole calls -/

lemma runAlone_succ {n : ℕ} {qs : ℕ → Service}
    (h : exec c p (qs 0).clock fs (qs 0).reply (qs 0).now (qs 0).i ph = some (fs', .next ph')) :
    runAlone c p fs ph qs (n + 1) = runAlone c p fs' ph' (fun k => qs (k + 1)) n := by
  unfold runAlone
  rw [range_succ_eq_map, map_cons, List.map_map]
  simp only [run, alone, h, bind_some]
  rfl

lemma LonePhase.returns (h : LonePhase c p fs ph) (qs : ℕ → Service)
    (hdel : ∀ n fs' ph', runAlone c p fs ph qs n = some (fs', .next ph') → ph'.scavenges = true →
      (qs n).reply ≠ .err) :
    ∃ n fs' res, runAlone c p fs ph qs n = some (fs', .acquired res) ∧ OwnerOrErr res := by
  generalize hk : ph.distance fs = k
  induction k using WellFoundedLT.induction generalizing fs ph qs with
  | ind k ih =>
    obtain ⟨fs', out, hex, hout⟩ := exec_nearer (c := c) (p := p) (qs 0).clock (qs 0).now fs (qs 0).reply (qs 0).i
      h.acquiring
    have hlone := exec_lone hex h (hdel 0 fs ph rfl)
    cases out with
    | next =>
      obtain ⟨n, fs'', res, hrun, hres⟩ := ih _ (hk ▸ hout.2) hlone (fun k => qs (k + 1))
        (fun n fs'' ph'' hrun => hdel (n + 1) fs'' ph'' (by rw [runAlone_succ hex]; exact hrun)) rfl
      exact ⟨n + 1, fs'', res, by rw [runAlone_succ hex]; exact hrun, hres⟩
    | acquired res =>
      refine ⟨1, fs', res, ?_, hlone⟩
      simp only [runAlone, range_one, map_cons, map_nil, run, alone, hex, bind_some]
    | released | broken => exact hout.elim

/-- **A lone holder is not preempted by its own files**, as long as every DELETE of its scavenging takes
effect: whatever other requests fail, `acquire` returns `Owner` or an error, and the renewal loop goes on
unless the call has panicked. -/
theorem lone_holder_owner (c : Config ι) (p : ι) (fs : Files) (h : AllOwn c p fs) (qs : ℕ → Service)
    (hdel : ∀ n fs' ph, runAlone c p fs .ownerList qs n = some (fs', .next ph) → ph.scavenges = true →
      (qs n).reply ≠ .err) :
    ∃ n fs' res, runAlone c p fs .ownerList qs n = some (fs', .acquired res) ∧
      ((∃ e, res = .ok (.owner e)) ∨ ∃ err, res = .error err) ∧
      (res ≠ .error .panicked → ∀ reason, afterAcquire res ≠ .lost reason) := by
  have hph : LonePhase c p fs .ownerList := h
  obtain ⟨n, fs', res, hrun, hres⟩ := hph.returns qs hdel
  refine ⟨n, fs', res, hrun, hres, fun hpanic reason hlost => ?_⟩
  rcases hres with ⟨e, rfl⟩ | ⟨err, rfl⟩
  · cases hlost
  · cases err with
    | panicked => exact hpanic rfl
    | _ => cases hlost

end Lone

/-! ### A DELETE that fails -/

/-- `a` is owner with the file of epoch 0, which it renews. -/
def ownFile : Files := AList.singleton (.early 0) ⟨some ⟨['a'], 0, 60⟩, 100⟩

/-- Every request is served but the `n`th, which fails. -/
def failing (n k : ℕ) : Service := ⟨120, if k = n then .err else .ok, 120, 0⟩

lemma ownFile_own : AllOwn twoHolders true ownFile := by
  intro e he
  obtain ⟨o, ho⟩ := exists_lookup he
  obtain ⟨rfl, rfl⟩ := lookup_singleton ho
  exact ⟨_, _, ho, rfl, rfl⟩

/-- The eighth request of the renewal is the DELETE of epoch 0.  It fails; the file is then found below the
new one, and the renewal ends with `Failed`, which the loop reports as `Preempted`. -/
theorem lone_holder_preempted :
    AllOwn twoHolders true ownFile ∧
    (∃ fs, runAlone twoHolders true ownFile .ownerList (failing 7) 11 = some (fs, .acquired (.ok .failed))) ∧
    afterAcquire (.ok .failed) = .lost .preempted := by
  refine ⟨ownFile_own, ?_, rfl⟩
  exact ⟨_, rfl⟩

/-- The GET of epoch 0 fails instead: the renewal returns `Owner` or an error. -/
theorem lone_holder_owner_failedGet :
    ∃ n fs res, runAlone twoHolders true ownFile .ownerList (failing 6) n = some (fs, .acquired res) ∧
      ((∃ e, res = .ok (.owner e)) ∨ ∃ err, res = .error err) := by
  have hget : ((runAlone twoHolders true ownFile .ownerList (failing 6) 6).all fun s => !s.2.scavenges) = true := by
    decide
  obtain ⟨n, fs, res, hrun, hres, -⟩ := lone_holder_owner twoHolders true ownFile ownFile_own (failing 6) (by
    intro n fs ph hrun hs
    by_cases hn : n = 6
    · subst hn
      rw [hrun] at hget
      simp only [all_some, Outcome.scavenges, hs, Bool.not_true, Bool.false_eq_true] at hget
    · simp [failing, hn])
  exact ⟨n, fs, res, hrun, hres⟩

end Bepository.Lock
