import Bepository.Lock.Machine

/-!
# Lock generations

An epoch is meant to grow from one owner to the next.  `put_next_epoch` derives it from the files
that are present, so it grows as long as a file at or above every earlier owner's epoch is there to
be listed; once `release`, a scavenge or `unsafe_break_locks` has removed the highest file, the count
starts again below it.
-/

namespace Bepository.Lock

open Lib List

/-! ### The epoch a call is about -/

def granted : Except Error AcquisitionStatus → Option Epoch
  | .ok (.owner e) => some e
  | _ => none

/-- The epoch an `acquire` will own if it succeeds, once it is chosen. -/
def Phase.claimed : Phase → Option Epoch
  | .claimPut .acquire e => some e
  | .claimHead .acquire e => some e
  | .scavengeList e _ => some e
  | .scavengeGet e _ _ _ => some e
  | .scavengeDelete e _ _ _ _ => some e
  | .verifyList e _ _ => some e
  | .lowerGet e _ _ _ _ => some e
  | .higherGet e _ _ => some e
  | .dropMine _ result => granted result
  | _ => none

def Outcome.claimed : Outcome → Option Epoch
  | .next ph => ph.claimed
  | .acquired r => granted r
  | _ => none

section Claimed

variable {ι : Type*} {c : Config ι} {p : ι} {e e' : Epoch} {ts now clock : Timestamp}
  {metas lower higher : List ObjectMeta} {regression found : Bool} {m : ObjectMeta}
  {f : EpochFile} {fs fs' : Files} {r : Reply} {i : ℕ} {ph : Phase} {out : Outcome} {why : Purpose}
  {err : Error}

@[simp] lemma claimed_fail : (why.fail err).claimed = none := by
  cases why <;> rfl

@[simp] lemma claimed_ownerNext : (ownerNext metas).claimed = none := by
  cases metas <;> rfl

@[simp] lemma claimed_scavengeNext : (scavengeNext e ts regression metas).claimed = some e := by
  cases metas <;> rfl

@[simp] lemma claimed_higherNext : (higherNext e ts higher).claimed = some e := by
  cases higher <;> rfl

@[simp] lemma claimed_lowerNext : (lowerNext e ts regression higher lower).claimed = some e := by
  cases lower with
  | nil => exact claimed_higherNext
  | cons => rfl

lemma claimed_fastPath : (fastPath c p now m f).claimed = none :=
  fastPath_elim (P := fun out => out.claimed = none) rfl rfl rfl

lemma claimed_scavengeEntry (h : (scavengeEntry c p e ts m f metas regression).claimed = some e') : e = e' := by
  revert h
  refine scavengeEntry_elim (P := fun out => out.claimed = some e' → e = e') (by rintro ⟨⟩) (fun _ _ _ => ?_) fun _ h => ?_
  · exact Option.some.inj
  · exact Option.some.inj (claimed_scavengeNext.symm.trans h)

lemma claimed_yieldEntry (h : (yieldEntry c p e ts m f higher).claimed = some e') : e = e' := by
  revert h
  refine yieldEntry_elim (P := fun out => out.claimed = some e' → e = e') (by rintro ⟨⟩) (by rintro ⟨⟩) fun h => ?_
  exact Option.some.inj (claimed_higherNext.symm.trans h)

lemma claimed_classifyLoss : (classifyLoss c p e regression f).claimed = none :=
  classifyLoss_elim (P := fun out => out.claimed = none) rfl rfl rfl

lemma claimed_partition (h : (partition e ts regression metas).claimed = some e') : e = e' := by
  revert h
  refine partition_elim (P := fun out => out.claimed = some e' → e = e') (by rintro ⟨⟩) fun h => ?_
  exact Option.some.inj (claimed_lowerNext.symm.trans h)

lemma claimed_releaseNext {todo : List ObjectMeta} {own : List Epoch} : (releaseNext todo own).claimed = none :=
  releaseNext_elim (P := fun out => out.claimed = none) rfl rfl

lemma claimed_releaseOne {todo : List ObjectMeta} {own : List Epoch}
    (h : releaseOne c p fs r i todo own = some (fs', out)) : out.claimed = none := by
  rcases releaseOne_cases h with ⟨v, -, -, rfl⟩ | ⟨-, rfl | ⟨m, own', -, rfl, -⟩⟩
  · exact claimed_releaseNext
  · rfl
  · exact claimed_releaseNext

@[simp] lemma claimed_breakNext : (breakNext e ts found metas).claimed = none := by
  cases metas <;> rfl

lemma claimed_breakEntry : (breakEntry c e ts m f metas found).claimed = none :=
  breakEntry_elim (P := fun out => out.claimed = none) rfl claimed_breakNext rfl

lemma exec_claimed (h : exec c p clock fs r now i ph = some (fs', out)) (he : out.claimed = some e) :
    ph.claimed = some e ∨ ph = .claimList .acquire ∧ r = .ok ∧ e.val = nextVal (listEpochMetas fs) := by
  cases exec_execs h with
  | failed | claimLost => rw [claimed_fail] at he; cases he
  | ownerList | ownerGone => rw [claimed_ownerNext] at he; cases he
  | ownerSeen => rw [claimed_fastPath] at he; cases he
  | @claimList why _ hr hval =>
    cases why with
    | acquire =>
      cases he
      exact .inr ⟨rfl, hr, hval⟩
    | breakLocks => cases he
  | @claimTaken why => cases why <;> cases he
  | @claimPut why =>
    cases why <;> cases he
    exact .inl rfl
  | head | dropMine => exact .inl he
  | headFailed | breakHead | breakHeadFailed | releaseFailed | breakListFailed | breakGetFailed
  | breakUnreadable | breakDrop => cases he
  | scavengeList | scavengeGone | scavengeDelete => exact .inl (claimed_scavengeNext.symm.trans he)
  | scavengeSeen => exact .inl (congrArg some (claimed_scavengeEntry he))
  | verifyList => exact .inl (congrArg some (claimed_partition he))
  | lowerGone => exact .inl (claimed_lowerNext.symm.trans he)
  | lowerSeen => rw [claimed_classifyLoss] at he; cases he
  | higherGone => exact .inl (claimed_higherNext.symm.trans he)
  | higherSeen => exact .inl (congrArg some (claimed_yieldEntry he))
  | releaseList => rw [claimed_releaseNext] at he; cases he
  | releaseEach ho => rw [claimed_releaseOne ho] at he; cases he
  | breakList | breakGone | breakDelete => rw [claimed_breakNext] at he; cases he
  | breakSeen => rw [claimed_breakEntry] at he; cases he

end Claimed

/-! ### Runs -/

section Runs

variable {ι : Type*} [DecidableEq ι] {c : Config ι}

/-- The LIST from which an `acquire` takes its epoch still shows a file at or above every epoch that
was granted before it started. -/
def claimAbove (s : State ι) : Act ι → Bool
  | .request p r _ _ =>
    match (s.loc p).phase with
    | .claimList .acquire =>
      r ≠ .ok || (s.loc p).before.all fun e₁ => s.files.keys.any fun f => e₁ ≤ f
    | _ => true
  | _ => true

/-- Every claimed epoch is above those granted before the call started, and so was every granted
one. -/
structure GenInv (s : State ι) : Prop where
  claimed : ∀ p e, (s.loc p).phase.claimed = some e → ∀ e₁ ∈ (s.loc p).before, e₁ < e
  grants : ∀ g ∈ s.grants, ∀ e₁ ∈ g.before, e₁ < g.epoch

variable {s t : State ι} {a : Act ι} {p : ι} {e : Epoch} {r : Reply} {now : Timestamp} {i : ℕ}
  {fs : Files} {out : Outcome}

omit [DecidableEq ι] in
lemma claimAbove_lt (h : claimAbove s (.request p r now i) = true) (hr : r = .ok)
    (hph : (s.loc p).phase = .claimList .acquire)
    (he : e.val = nextVal (listEpochMetas s.files)) : ∀ e₁ ∈ (s.loc p).before, e₁ < e := by
  intro e₁ h₁
  simp only [claimAbove, hph, hr, ne_eq, not_true_eq_false, decide_false, Bool.false_or,
    all_eq_true, any_eq_true, decide_eq_true_eq] at h
  obtain ⟨f, hf, hle⟩ := h e₁ h₁
  have hlt : f.val < e.val := he ▸ lt_nextVal hf
  exact lt_of_le_of_lt hle (Epoch.lt_iff.2 hlt)

omit [DecidableEq ι] in
lemma GenInv.request (h : GenInv s) (hg : claimAbove s (.request p r now i) = true)
    (hex : exec c p s.clock s.files r now i (s.loc p).phase = some (fs, out))
    (he : out.claimed = some e) : ∀ e₁ ∈ (s.loc p).before, e₁ < e := by
  rcases exec_claimed hex he with hc | ⟨hph, hr, hval⟩
  · exact h.claimed p e hc
  · exact claimAbove_lt hg hr hph hval

lemma claimed_after {l : Local} (h : (l.after out).phase.claimed = some e) : out.claimed = some e := by
  unfold Local.after at h
  split at h <;> first
    | exact h
    | cases h

lemma before_after {l : Local} : (l.after out).before = l.before := by
  unfold Local.after
  split <;> rfl

lemma gen_step (h : GenInv s) (hg : claimAbove s a = true) (hs : step c s a = some t) : GenInv t := by
  -- a call starts with no epoch claimed
  have hcall : ∀ q (l : Local), l.phase.claimed = none → GenInv (s.set q l) := by
    intro q l hl
    refine ⟨State.set_forall (P := fun _ l => ∀ e, l.phase.claimed = some e → ∀ e₁ ∈ l.before, e₁ < e)
      (fun e he => ?_) fun p _ => h.claimed p, h.grants⟩
    rw [hl] at he
    cases he
  cases a with
  | tick =>
    simp only [step] at hs
    split_ifs at hs
    cases hs
    exact ⟨h.claimed, h.grants⟩
  | acquire q | release q | breakLocks q =>
    obtain ⟨-, rfl⟩ := State.call_eq_some.1 hs
    exact hcall q _ rfl
  | cancel q =>
    cases hs
    exact hcall q _ rfl
  | request q =>
    obtain ⟨⟨fs, out⟩, hex, rfl⟩ := Option.map_eq_some_iff.1 hs
    refine ⟨State.set_forall (P := fun _ l => ∀ e, l.phase.claimed = some e → ∀ e₁ ∈ l.before, e₁ < e)
      (fun e he => ?_) fun p _ => h.claimed p, ?_⟩
    · rw [before_after]
      exact h.request hg hex (claimed_after he)
    · intro g hgr
      replace hgr : g ∈ grantsAfter s.grants (s.loc q).before out := hgr
      unfold grantsAfter at hgr
      split at hgr
      · rcases mem_cons.1 hgr with rfl | hgr
        · exact h.request hg hex rfl
        · exact h.grants g hgr
      · exact h.grants g hgr

/-- In every run in which the LIST of each `acquire` shows a file at or above every epoch granted
before it, a granted epoch is above those granted before its `acquire` started. -/
theorem gen_run {s₀ : State ι} {as : List (Act ι)} (h₀ : s₀.Initial)
    (hm : Meets (step c) (fun s a => claimAbove s a = true) s₀ as)
    (hr : run (step c) s₀ as = some s) : GenInv s := by
  refine run_inv (fun s a t hi hg hs => gen_step hi hg hs) ⟨fun p e he => ?_, ?_⟩ hm hr
  · rw [h₀.1 p] at he
    cases he
  · rw [h₀.2]
    exact fun _ h => absurd h not_mem_nil

end Runs

end Bepository.Lock
