import Mathlib.Data.Fintype.Basic
import Bepository.Lock.Exclusion
import Bepository.Lock.Generation

/-!
# What a DELETE removes

A DELETE names a path.  The caller decided on it when a LIST and a GET showed it a file at that path,
or when it created the file itself, and by the time the request is served the path may hold another
file: the epoch of a new file is one above the highest present, so the paths of deleted files come
back.  `live_file_kept` is about the runs in which no PUT takes a path that a call in flight still
holds.
-/

namespace Bepository.Lock

open Lib List Table Option

section Deletion

variable {ι : Type*} (c : Config ι)

/-- The path that the next request of a call deletes; `i` is the request of `release` that is
served. -/
def Phase.victim (i : ℕ) : Phase → Option Epoch
  | .scavengeDelete _ _ v _ _ => some v
  | .dropMine e _ => some e
  | .releaseEach _ own => own[i]?
  | .breakDelete _ _ v _ _ => some v
  | .breakDrop e _ => some e
  | _ => none

/-- The paths that a call in flight holds: the file it created, the files it listed to scavenge, and
those it has decided to delete. -/
def Phase.holds : Phase → List Epoch
  | .claimHead _ e | .scavengeList e _ | .verifyList e _ _ => [e]
  | .lowerGet e .. | .higherGet e .. | .dropMine e _ => [e]
  | .scavengeGet e _ metas _ => e :: metas.map ObjectMeta.epoch
  | .scavengeDelete e _ v metas _ => e :: v :: metas.map ObjectMeta.epoch
  | .releaseEach _ own => own
  | _ => []

/-- What is at `e`, if anything, meets `P`. -/
def At (fs : Files) (e : Epoch) (P : Object → Prop) : Prop := ∀ o, fs.lookup e = some o → P o

def Mine (p : ι) (o : Object) : Prop := ∀ f, o.content = some f → f.holder = c.holder p

/-- A file of `p`, or one that has expired at the time `ts`. -/
def Spent (p : ι) (ts : Timestamp) (o : Object) : Prop :=
  ∀ f, o.content = some f →
    f.holder = c.holder p ∨ ∃ x, c.expiry o.lastModified f.duration = some x ∧ x ≤ ts

def Listed (m : ObjectMeta) (o : Object) : Prop := o.lastModified = m.lastModified

/-- The files of a LIST are below `e`, and a file at the path of one of them is the one listed. -/
def ListedBelow (fs : Files) (e : Epoch) (metas : List ObjectMeta) : Prop :=
  ∀ m ∈ metas, m.epoch < e ∧ At fs m.epoch (Listed m)

/-- What a call knows of the paths it holds; and no breaker is at work. -/
def Holding (p : ι) (clock : Timestamp) (fs : Files) : Phase → Prop
  | .claimList .breakLocks | .claimPut .breakLocks _ | .claimHead .breakLocks _ => False
  | .breakList .. | .breakGet .. | .breakDelete .. | .breakDrop .. => False
  | .claimHead .acquire e => At fs e (Mine c p)
  | .scavengeList e ts => At fs e (Mine c p) ∧ ts ≤ clock
  | .scavengeGet e ts metas _ => At fs e (Mine c p) ∧ ts ≤ clock ∧ ListedBelow fs e metas
  | .scavengeDelete e ts v metas _ =>
    At fs e (Mine c p) ∧ ts ≤ clock ∧ (v < e ∧ At fs v (Spent c p ts)) ∧ ListedBelow fs e metas
  | .verifyList e _ _ | .lowerGet e .. | .higherGet e .. => At fs e (Mine c p)
  | .dropMine e result => At fs e (Mine c p) ∧ granted result = none
  | .releaseEach _ own => ∀ v ∈ own, At fs v (Mine c p)
  | _ => True

def Outcome.Holding (p : ι) (clock : Timestamp) (fs : Files) : Outcome → Prop
  | .next ph => Lock.Holding c p clock fs ph
  | _ => True

variable {c} {p q : ι} {e v : Epoch} {fs fs' : Files} {P : Object → Prop} {o : Object}
  {ts clock clock' now : Timestamp} {metas lower higher : List ObjectMeta} {regression : Bool}
  {m : ObjectMeta} {f : EpochFile} {r : Reply} {i : ℕ} {ph ph' : Phase} {out : Outcome}

/-! ### What survives the requests of others -/

lemma At.keeps (h : At fs e P) (hk : ∀ o, fs'.lookup e = some o → fs.lookup e = some o) :
    At fs' e P := fun o ho => h o (hk o ho)

lemma ListedBelow.keeps (h : ListedBelow fs e metas)
    (hk : ∀ m ∈ metas, ∀ o, fs'.lookup m.epoch = some o → fs.lookup m.epoch = some o) :
    ListedBelow fs' e metas := fun m hm => ⟨(h m hm).1, (h m hm).2.keeps (hk m hm)⟩

lemma Mine.spent (h : Mine c p o) : Spent c p ts o := fun f hf => .inl (h f hf)

lemma Spent.mono (h : Spent c p ts o) (hle : ts ≤ clock) : Spent c p clock o := by
  intro f hf
  rcases h f hf with hh | ⟨x, hx, hxt⟩
  · exact .inl hh
  · exact .inr ⟨x, hx, hxt.trans hle⟩

lemma Holding.keeps (h : Holding c p clock fs ph) (hc : clock ≤ clock')
    (hk : ∀ e ∈ ph.holds, ∀ o, fs'.lookup e = some o → fs.lookup e = some o) : Holding c p clock' fs' ph := by
  cases ph with
  | claimList why | claimPut why => cases why <;> exact h
  | claimHead why e =>
    cases why with
    | acquire => exact At.keeps h (hk e (by simp [Phase.holds]))
    | breakLocks => exact h
  | scavengeList e => exact ⟨h.1.keeps (hk e (by simp [Phase.holds])), h.2.trans hc⟩
  | scavengeGet e =>
    refine ⟨h.1.keeps (hk e (by simp [Phase.holds])), h.2.1.trans hc, ?_⟩
    refine h.2.2.keeps fun m hm => hk _ ?_
    exact mem_cons_of_mem _ (mem_map_of_mem hm)
  | scavengeDelete e ts v =>
    refine ⟨h.1.keeps (hk e (by simp [Phase.holds])), h.2.1.trans hc,
      ⟨h.2.2.1.1, h.2.2.1.2.keeps (hk v (by simp [Phase.holds]))⟩, ?_⟩
    refine h.2.2.2.keeps fun m hm => hk _ ?_
    exact mem_cons_of_mem _ (mem_cons_of_mem _ (mem_map_of_mem hm))
  | verifyList e | lowerGet e | higherGet e => exact At.keeps h (hk e (by simp [Phase.holds]))
  | dropMine e => exact ⟨h.1.keeps (hk e (by simp [Phase.holds])), h.2⟩
  | releaseEach => exact fun v hv => (h v hv).keeps (hk v hv)
  | _ => exact h

lemma Shrinks.keeps (h : Shrinks fs fs') (hph : Holding c p clock fs ph) : Holding c p clock fs' ph :=
  hph.keeps (le_refl _) fun e _ o ho => h e o ho

/-! ### What a reply tells the caller -/

lemma listed_of_list (hm : m ∈ listEpochMetas fs) : At fs m.epoch (Listed m) := by
  intro o ho
  obtain ⟨o', ho', ht⟩ := mem_listEpochMetas.1 hm
  rw [ho] at ho'
  cases ho'
  exact ht

lemma listedBelow_list : ListedBelow fs e ((listEpochMetas fs).takeWhile (·.epoch < e)) := by
  intro m hm
  refine ⟨?_, listed_of_list (( takeWhile_prefix _).subset hm)⟩
  simpa using all_eq_true.1 all_takeWhile m hm

lemma ownerNext_holding : (ownerNext metas).Holding c p clock fs := by
  cases metas <;> trivial

section

variable (he : At fs e (Mine c p))
include he

lemma scavengeNext_holding (ht : ts ≤ clock) (hm : ListedBelow fs e metas) :
    (scavengeNext e ts regression metas).Holding c p clock fs := by
  cases metas with
  | nil => exact he
  | cons => exact ⟨he, ht, hm⟩

lemma scavengeEntry_holding (ht : ts ≤ clock) (hm : ListedBelow fs e (m :: metas))
    (ho : fs.lookup m.epoch = some o) (hf : o.content = some f) :
    (scavengeEntry c p e ts m f metas regression).Holding c p clock fs := by
  have hlisted : o.lastModified = m.lastModified := (hm m (by simp)).2 o ho
  have hrest : ListedBelow fs e metas := fun m' h' => hm m' (by simp [h'])
  refine scavengeEntry_elim trivial (fun x hx hdead => ?_) fun _ => scavengeNext_holding he ht hrest
  refine ⟨he, ht, ⟨(hm m (by simp)).1, ?_⟩, hrest⟩
  intro o' ho' f' hf'
  rw [ho] at ho'
  cases ho'
  rw [hf] at hf'
  cases hf'
  rcases hdead with hle | hown
  · exact .inr ⟨x, by rw [hlisted]; exact hx, hle⟩
  · exact .inl hown

lemma higherNext_holding : (higherNext e ts higher).Holding c p clock fs := by
  cases higher with
  | nil => trivial
  | cons => exact he

lemma lowerNext_holding : (lowerNext e ts regression higher lower).Holding c p clock fs := by
  cases lower with
  | nil => exact higherNext_holding he
  | cons => exact he

end

variable {todo : List ObjectMeta}

lemma releaseNext_holding {own : List Epoch}
    (h : ∀ v ∈ own, At fs v (Mine c p)) : (releaseNext todo own).Holding c p clock fs :=
  releaseNext_elim trivial h

lemma releaseOne_holding {own : List Epoch} (h : ∀ v ∈ own, At fs v (Mine c p))
    (hex : releaseOne c p fs r i todo own = some (fs', out)) : out.Holding c p clock fs' := by
  rcases releaseOne_cases hex with ⟨v, -, rfl, rfl⟩ | ⟨rfl, rfl | ⟨m, own', -, rfl, ⟨rfl, -⟩ | ⟨rfl, hours⟩⟩⟩
  · refine releaseNext_holding fun v' hv' => ?_
    exact (h v' (mem_of_mem_eraseIdx hv')).keeps fun o ho => lookup_delete ho
  · trivial
  · exact releaseNext_holding h
  · refine releaseNext_holding fun v hv => ?_
    rcases mem_append.1 hv with hv | hv
    · exact h v hv
    · rw [mem_singleton.1 hv]
      exact fun o ho f hf => hours o f ho hf

lemma exec_holding (h : exec c p clock fs r now i ph = some (fs', out)) (hph : Holding c p clock fs ph)
    (hclock : ∀ e, At fs e fun o => o.lastModified ≤ clock) : out.Holding c p clock fs' := by
  cases exec_execs h with
  | failed ph why | @claimLost why => cases why <;> trivial
  | ownerList | ownerGone => exact ownerNext_holding
  | ownerSeen => exact fastPath_elim trivial trivial trivial
  | @claimList why | @claimTaken why =>
    cases why with
    | acquire => trivial
    | breakLocks => exact hph.elim
  | @claimPut why =>
    cases why with
    | breakLocks => exact hph.elim
    | acquire =>
      intro o ho f hf
      rw [lookup_insert', if_pos rfl] at ho
      cases ho
      cases hf
      rfl
  | @head e o ho => exact ⟨hph, hclock e o ho⟩
  | headFailed => exact ⟨hph, rfl⟩
  | scavengeList => exact scavengeNext_holding hph.1 hph.2 listedBelow_list
  | scavengeGone =>
    exact scavengeNext_holding hph.1 hph.2.1 fun m' hm => hph.2.2 m' (by simp [hm])
  | scavengeSeen hg =>
    obtain ⟨o, ho, hf⟩ := readEntry_some hg
    exact scavengeEntry_holding hph.1 hph.2.1 hph.2.2 ho hf
  | @scavengeDelete e ts v metas regression =>
    have hkept : Holding c p clock (delete fs r v) (.scavengeDelete e ts v metas regression) :=
      shrinks_delete.keeps hph
    exact scavengeNext_holding hkept.1 hkept.2.1 hkept.2.2.2
  | verifyList => exact partition_elim ⟨hph, rfl⟩ (lowerNext_holding hph)
  | lowerGone => exact lowerNext_holding hph
  | lowerSeen => exact classifyLoss_elim trivial trivial ⟨hph, rfl⟩
  | higherGone => exact higherNext_holding hph
  | higherSeen => exact yieldEntry_elim trivial ⟨hph, rfl⟩ (higherNext_holding hph)
  | dropMine | releaseFailed => trivial
  | releaseList => exact releaseNext_holding (by simp)
  | releaseEach ho => exact releaseOne_holding hph ho
  | _ => exact hph.elim

lemma lookup_delete_ne (hne : e ≠ v) : (delete fs r v).lookup e = fs.lookup e := by
  unfold delete
  split_ifs
  · rfl
  · rw [lookup_erase', if_neg hne]

lemma exec_keeps (h : exec c p clock fs r now i ph = some (fs', out)) (ho : fs.lookup e = some o)
    (hv : ph.victim i ≠ some e) : fs'.lookup e = some o := by
  have hdel : ∀ v, ph.victim i = some v → (delete fs r v).lookup e = some o := by
    intro v hvv
    rw [lookup_delete_ne fun he => hv (by rw [hvv, he]), ho]
  cases ph with
  | claimPut =>
    simp only [exec] at h
    split_ifs at h with herr hmem hok hok
    all_goals cases h
    · exact ho
    · exact ho
    · exact ho
    all_goals
      rw [lookup_insert', if_neg, ho]
      rintro rfl
      exact hmem (AList.lookup_isSome.1 (by rw [ho]; rfl))
  | releaseEach =>
    rcases releaseOne_cases h with ⟨v, hvv, rfl, -⟩ | ⟨rfl, -⟩
    · exact hdel v hvv
    · exact ho
  | scavengeDelete | dropMine | breakDelete | breakDrop => cases h; exact hdel _ rfl
  | _ => exact exec_reads rfl h ▸ ho

lemma Holding.victim (h : Holding c p clock fs ph) (hv : ph.victim i = some v) : At fs v (Spent c p clock) := by
  cases ph with
  | scavengeDelete =>
    cases hv
    exact fun o ho => (h.2.2.1.2 o ho).mono h.2.1
  | dropMine =>
    cases hv
    exact fun o ho => (h.1 o ho).spent
  | releaseEach => exact fun o ho => (h v (mem_of_getElem? hv) o ho).spent
  | breakDelete | breakDrop => exact h.elim
  | _ => cases hv

/-! ### The claimed file -/

/-- The epoch whose file an `acquire` has created and not given up. -/
def Phase.placed : Phase → Option Epoch
  | .claimPut .. => none
  | ph => ph.claimed

def Outcome.placed : Outcome → Option Epoch
  | .next ph => ph.placed
  | .acquired r => granted r
  | _ => none

lemma Phase.claimed_of_placed (h : ph.placed = some e) : ph.claimed = some e := by
  unfold Phase.placed at h
  split at h
  · cases h
  · exact h

lemma Outcome.claimed_of_placed (h : out.placed = some e) : out.claimed = some e := by
  cases out with
  | next => exact Phase.claimed_of_placed h
  | acquired => exact h
  | released | broken => cases h

lemma exec_placed (h : exec c p clock fs r now i ph = some (fs', out)) (he : out.placed = some e) :
    ph.placed = some e ∨ ph = .claimPut .acquire e ∧ fs'.lookup e = some ⟨some (content c p .acquire), clock⟩ := by
  rcases exec_claimed h (Outcome.claimed_of_placed he) with hcl | ⟨rfl, -, -⟩
  · cases ph with
    | claimPut why =>
      cases exec_execs h with
      | failed ph why | @claimLost why => cases why <;> cases he
      | claimTaken => cases he
      | @claimPut why =>
        cases why <;> cases he
        exact .inr ⟨rfl, by rw [lookup_insert', if_pos rfl]⟩
    | _ => exact .inl hcl
  · -- a LIST only chooses the epoch
    cases exec_execs h with
    | failed ph why => cases why <;> cases he
    | claimList => cases he

lemma Holding.victim_ne (h : Holding c p clock fs ph) (he : ph.placed = some e) : ph.victim i ≠ some e := by
  cases ph with
  | scavengeDelete =>
    cases he
    intro hv
    cases hv
    exact lt_irrefl _ h.2.2.1.1
  | dropMine v result =>
    have hnone : granted result = some e := he
    rw [h.2] at hnone
    cases hnone
  | claimHead | scavengeList | scavengeGet | verifyList | lowerGet | higherGet => simp [Phase.victim]
  | _ => cases he

/-! ### Runs -/

/-- A PUT that creates a file creates it on a path that no call in flight holds. -/
def freePath (s : State ι) : Act ι → Prop
  | .request p r _ _ =>
    match (s.loc p).phase with
    | .claimPut _ e => r = .err ∨ e ∈ s.files ∨ ∀ q, e ∉ (s.loc q).phase.holds
    | _ => True
  | _ => True

instance [Fintype ι] (s : State ι) (a : Act ι) : Decidable (freePath s a) := by
  unfold freePath
  repeat' split
  all_goals infer_instance

variable {s s₀ t : State ι} {a : Act ι}

lemma freePath_notMem (h : freePath s (.request p r now i)) {why : Purpose}
    (hph : (s.loc p).phase = .claimPut why e) (hr : r ≠ .err) (he : e ∉ s.files) (q : ι) :
    e ∉ (s.loc q).phase.holds := by
  simp only [freePath, hph] at h
  rcases h with h | h | h
  · exact absurd h hr
  · exact absurd h he
  · exact h q

/-- Every call in flight knows what it needs of the paths it holds, and no file is younger than the
latest store timestamp. -/
structure HoldInv (c : Config ι) (s : State ι) : Prop where
  holding : ∀ p, Holding c p s.clock s.files (s.loc p).phase
  clock : ∀ e, At s.files e fun o => o.lastModified ≤ s.clock

lemma HoldInv.initial (h₀ : s.Initial) (hc : ∀ e, At s.files e fun o => o.lastModified ≤ s.clock) :
    HoldInv c s := by
  refine ⟨fun p => ?_, hc⟩
  rw [h₀.1 p]
  trivial

lemma Outcome.Holding.after {l : Local} (h : out.Holding c p clock fs) :
    Lock.Holding c p clock fs (l.after out).phase := by
  unfold Local.after
  split
  · exact h
  all_goals trivial

variable [DecidableEq ι]

lemma HoldInv.set {l : Local} (h : HoldInv c s) (hl : Holding c p s.clock s.files l.phase) :
    HoldInv c (s.set p l) :=
  ⟨State.set_forall (P := fun p l => Holding c p s.clock s.files l.phase) hl fun q _ => h.holding q, h.clock⟩

lemma HoldInv.request (h : HoldInv c s) (hg : freePath s (.request q r now i))
    (hs : step c s (.request q r now i) = some t) : HoldInv c t := by
  obtain ⟨⟨fs', out⟩, hex, rfl⟩ := map_eq_some_iff.1 hs
  refine ⟨?_, ?_⟩
  · refine State.set_forall (P := fun p l => Holding c p s.clock fs' l.phase)
      (exec_holding hex (h.holding q) h.clock).after fun p _ => ?_
    rcases exec_files hex with hsub | ⟨why, e, hph, hr, he, rfl⟩
    · exact hsub.keeps (h.holding p)
    · refine (h.holding p).keeps (le_refl _) fun e' he' o ho => ?_
      have hfree := freePath_notMem hg hph hr he p
      rw [lookup_insert', if_neg fun heq : e' = e => hfree (heq ▸ he')] at ho
      exact ho
  · intro e
    rcases exec_files hex with hsub | ⟨why, e', hph, hr, he, rfl⟩
    · exact (h.clock e).keeps (hsub e)
    · exact forall_insert h.clock (le_refl _) e

lemma HoldInv.step (h : HoldInv c s) (hg : freePath s a) (hb : a.isBreak = false)
    (hs : step c s a = some t) : HoldInv c t := by
  cases a with
  | tick =>
    simp only [Lock.step] at hs
    split_ifs at hs with hle
    cases hs
    exact ⟨fun p => (h.holding p).keeps hle fun _ _ _ ho => ho, fun e o ho => (h.clock e o ho).trans hle⟩
  | acquire | release =>
    obtain ⟨-, rfl⟩ := State.call_eq_some.1 hs
    exact h.set trivial
  | breakLocks => cases hb
  | request => exact h.request hg hs
  | cancel =>
    cases hs
    exact h.set trivial

/-- **Lock files of live holders are kept**, for any interleaving of requests in which no PUT takes a
path that a call in flight holds: a request of `p` leaves alone every file of another holder that has
not expired at the latest store timestamp. -/
theorem live_file_kept (c : Config ι) {s₀ s t : State ι} {as : List (Act ι)} (h₀ : s₀.Initial)
    (hclock : ∀ e, At s₀.files e fun o => o.lastModified ≤ s₀.clock) (hb : ∀ a ∈ as, a.isBreak = false)
    (hm : Meets (step c) freePath s₀ as) (hr : run (step c) s₀ as = some s) {p : ι} {r : Reply}
    {now : Timestamp} {i : ℕ} (hs : step c s (.request p r now i) = some t) {e : Epoch} {o : Object}
    {f : EpochFile} (ho : s.files.lookup e = some o) (hf : o.content = some f) (hh : f.holder ≠ c.holder p)
    (hlive : ∀ x, c.expiry o.lastModified f.duration = some x → s.clock < x) : t.files.lookup e = some o := by
  have hi := run_inv (P := HoldInv c) (fun s a t hi hg hs => hi.step hg.1 hg.2 hs)
    (HoldInv.initial h₀ hclock) (hm.and_forall hb) hr
  obtain ⟨⟨fs', out⟩, hex, rfl⟩ := map_eq_some_iff.1 hs
  refine exec_keeps hex ho fun hv => ?_
  rcases (hi.holding p).victim hv o ho f hf with hown | ⟨x, hx, hxc⟩
  · exact hh hown
  · exact absurd (hlive x hx) (not_lt.2 hxc)

end Deletion

/-! ### A DELETE that finds another file -/

/-- The next request of a participant, served, when its clock shows the time 200. -/
def servedLate (p : Bool) : Act Bool := .request p .ok 200 0

/-- `b` acquires epoch 0 and starts its release, whose DELETE is delayed.  The lease of `b` expires,
`a` acquires epoch 1, removes the file of `b` and releases.  The directory is empty, and the next
`acquire` of `a` creates epoch 0 again. -/
def delayedRelease : List (Act Bool) :=
  .acquire false :: List.replicate 6 (served false) ++
  .release false :: List.replicate 2 (served false) ++
  .tick 200 :: .acquire true :: List.replicate 9 (servedLate true) ++
  .release true :: List.replicate 3 (servedLate true) ++
  .acquire true :: List.replicate 6 (servedLate true)

/-- `a` has acquired epoch 0 at the time 200, which is the latest store timestamp, and the delayed
DELETE of `b` removes its file. -/
theorem live_file_deleted_delayed :
    emptyDirectory.Initial ∧ Function.Injective twoHolders.holder ∧
    (∀ a ∈ delayedRelease, a.isBreak = false) ∧
    ∃ s t e, run (step twoHolders) emptyDirectory delayedRelease = some s ∧
      step twoHolders s (servedLate false) = some t ∧ s.clock = 200 ∧
      (s.loc true).latest = some e ∧
      s.files.lookup e = some ⟨some ⟨['a'], 0, 60⟩, 200⟩ ∧ t.files.lookup e = none := by
  refine ⟨⟨fun _ => rfl, rfl⟩, by decide, by decide, ?_⟩
  simp only [exists_and_left]
  decide

/-- A run in which paths are not taken again: `a` acquires, and `b`, whose clock is behind, claims an
epoch and loses. -/
def lostClaim : List (Act Bool) :=
  .acquire true :: List.replicate 6 (served true) ++
  .acquire false :: List.replicate 9 (.request false .ok 0 0)

theorem live_file_kept_lostClaim :
    ∃ s t e, run (step twoHolders) emptyDirectory lostClaim = some s ∧
      step twoHolders s (served false) = some t ∧ (s.loc false).phase.victim 0 ≠ none ∧
      (s.loc true).latest = some e ∧ t.files.lookup e = some ⟨some ⟨['a'], 0, 60⟩, 100⟩ := by
  obtain ⟨s, hs, t, ht, e, he, hv, hclock, ho⟩ : ∃ s, run (step twoHolders) emptyDirectory lostClaim = some s ∧
      ∃ t, step twoHolders s (served false) = some t ∧ ∃ e, (s.loc true).latest = some e ∧
        (s.loc false).phase.victim 0 ≠ none ∧ s.clock = 100 ∧
        s.files.lookup e = some ⟨some ⟨['a'], 0, 60⟩, 100⟩ := by decide
  refine ⟨s, t, e, hs, ht, hv, he, ?_⟩
  refine live_file_kept twoHolders ⟨fun _ => rfl, rfl⟩ (fun _ _ h => by cases h) (by decide)
    (by decide) hs ht ho rfl (by decide) ?_
  intro x hx
  cases hx
  rw [hclock]
  decide

end Bepository.Lock
