import Bepository.Admin
import Bepository.Lock.Guard

/-!
# What a released lock leaves behind (`bepository-lock/src/guard.rs`, `bepository-cli/src/main.rs`)

A `LockGuard` has a task that renews the lock, which sees a cancellation only while it sleeps.
`LockGuard::release` cancels the task and deletes the files of its LIST; a renewal that is under way may
still create another one.  `with_admin_lock` has no such task, but it returns without a `release` whenever
`acquire` does not return `Owner`.  `released_nothing_left` is about the releases that no PUT comes after,
and about the commands whose `acquire` takes its own file back.
-/

namespace Bepository

open Lib Lock List Option

/-! ### A guard and its renewal task -/

/-- Where `renewal_loop` is. -/
inductive TaskPc where
  | sleeping
  | renewing
  | ended
  deriving DecidableEq

/-- Where the guard is; `ok` is the result of its `Lock::release`. -/
inductive GuardPc where
  | held
  | releasing
  | released (ok : Bool)
  deriving DecidableEq

/-- The lock with all its participants, and the guard of one holder. -/
structure Session (ι : Type*) where
  lock : State ι
  cancelled : Bool
  task : TaskPc
  guard : GuardPc

/-- What can happen: a step at the lock of the store's clock or of others; a cancellation from outside; the
end of a sleep, which starts a renewal or finds the lease too old; the task sees the cancellation; the next
request of its renewal; the call of `release`, and the next request of that. -/
inductive SessionAct (ι : Type*) where
  | lock (a : Act ι)
  | cancel
  | wake
  | expire
  | observe
  | renew (r : Reply) (now : Timestamp) (i : ℕ)
  | release
  | clean (r : Reply) (now : Timestamp) (i : ℕ)

/-- The task after a reply to its `acquire`. -/
def TaskPc.after : Outcome → TaskPc
  | .acquired res =>
    match afterAcquire res with
    | .lost _ => .ended
    | _ => .sleeping
  | _ => .renewing

/-- The guard after a reply to its `release`. -/
def GuardPc.after : Outcome → GuardPc
  | .released ok => .released ok
  | _ => .releasing

section Steps

variable {ι : Type*} [DecidableEq ι]

def actOf (p : ι) : Act ι → Bool
  | .request q _ _ _ => q = p
  | a => callOf p a

/-- The renewals are the calls of `p`, the release is the call of `q`.  A sleep that is over may end with a
renewal although the cancellation has arrived: `select!` takes either branch if both are ready. -/
def Session.step (c : Config ι) (p q : ι) (s : Session ι) : SessionAct ι → Option (Session ι)
  | .lock a =>
    if actOf p a || actOf q a then none else (Lock.step c s.lock a).map fun l => { s with lock := l }
  | .cancel => some { s with cancelled := true }
  | .wake =>
    match s.task with
    | .sleeping => (Lock.step c s.lock (.acquire p)).map fun l => { s with lock := l, task := .renewing }
    | _ => none
  | .expire =>
    match s.task with
    | .sleeping => some { s with task := .ended }
    | _ => none
  | .observe =>
    match s.task, s.cancelled with
    | .sleeping, true => some { s with task := .ended }
    | _, _ => none
  | .renew r now i =>
    match s.task, exec c p s.lock.clock s.lock.files r now i (s.lock.loc p).phase with
    | .renewing, some (_, out) =>
      (Lock.step c s.lock (.request p r now i)).map fun l => { s with lock := l, task := .after out }
    | _, _ => none
  | .release =>
    match s.guard with
    | .held =>
      (Lock.step c s.lock (.release q)).map fun l => { s with lock := l, cancelled := true, guard := .releasing }
    | _ => none
  | .clean r now i =>
    match s.guard, exec c q s.lock.clock s.lock.files r now i (s.lock.loc q).phase with
    | .releasing, some (_, out) =>
      (Lock.step c s.lock (.request q r now i)).map fun l => { s with lock := l, guard := .after out }
    | _, _ => none

/-- The phases of an `acquire` that may still send its PUT. -/
def beforePut : Phase → Bool
  | .ownerList | .ownerGet _ | .claimList _ | .claimPut .. => true
  | _ => false

/-- A GET that is served; if the file is still there, it parses and its content is as said. -/
def reads (fs : Files) (r : Reply) (e : Epoch) (content : EpochFile → Bool) : Bool :=
  r = .ok && (fs.lookup e).all fun o => o.content.any content

/-- The answers that a call of `p` needs.  From the PUT of `acquire` on: the answer to it is not lost, each
LIST and GET is served, and what is read parses, has a lease that ends, and is below ours only if the clock
did not go back; a failed HEAD does no harm.  In `release`: each LIST and GET is served and what is read
parses.  The DELETEs of the holder's own files take effect. -/
def answered (c : Config ι) (p : ι) (fs : Files) (r : Reply) (i : ℕ) : Phase → Bool
  | .claimPut _ e => r ≠ .lost || e ∈ fs
  | .scavengeList .. | .verifyList .. | .releaseList => r = .ok
  | .scavengeGet _ _ (m :: _) _ => reads fs r m.epoch fun f => (c.expiry m.lastModified f.duration).isSome
  | .lowerGet _ _ (m :: _) _ regression => reads fs r m.epoch fun _ => !regression
  | .higherGet _ _ (m :: _) => reads fs r m.epoch fun f =>
      f.priority ≤ c.priority p || (c.expiry m.lastModified f.duration).isSome
  | .dropMine .. => r ≠ .err
  | .releaseEach todo own =>
    if i < own.length then r ≠ .err else todo[i - own.length]?.all fun m => reads fs r m.epoch fun _ => true
  | _ => true

/-- The release finds no renewal before its PUT when it lists the files, and none is started after its call;
its requests are answered. -/
def quietly (c : Config ι) (p q : ι) (s : Session ι) : SessionAct ι → Bool
  | .wake => s.guard = .held
  | .clean r _ i => answered c q s.lock.files r i (s.lock.loc q).phase &&
    match (s.lock.loc q).phase with
    | .releaseList => !beforePut (s.lock.loc p).phase
    | _ => true
  | _ => true

/-- The requests of a command's calls are answered. -/
def tidily (c : Config ι) (p : ι) (s : Admin ι) : AdminAct ι → Bool
  | .lock (.request q r _ i) => q ≠ p || answered c p s.lock.files r i (s.lock.loc p).phase
  | _ => true

end Steps

/-! ### The files of a holder -/

section Files

variable {ι : Type*} (c : Config ι) (p : ι)

/-- The files of `p` are among `es`. -/
def Within (fs : Files) (es : List Epoch) : Prop := ∀ e, Own c p e fs → e ∈ es

/-- What a `release` knows of the files of its holder, while nobody makes one. -/
def Sweeping (fs : Files) : Phase → Prop
  | .releaseList => True
  | .releaseEach todo own => Within c p fs (todo.map ObjectMeta.epoch ++ own)
  | _ => False

def SweepOutcome (fs : Files) : Outcome → Prop
  | .next ph => ∃ todo own, ph = .releaseEach todo own ∧ Within c p fs (todo.map ObjectMeta.epoch ++ own)
  | .released ok => ok = true ∧ Within c p fs []
  | _ => False

/-- What an `acquire` knows of the files of its holder, if there were none. -/
def Tidy (fs : Files) : Phase → Prop
  | .ownerList | .ownerGet _ | .claimList .acquire | .claimPut .acquire _ => Within c p fs []
  | .claimHead .acquire e | .scavengeList e _ | .scavengeGet e _ _ _ | .scavengeDelete e _ _ _ _ => Within c p fs [e]
  | .verifyList e _ _ | .lowerGet e _ _ _ _ | .higherGet e _ _ => Within c p fs [e]
  | .dropMine e _ => Within c p fs [e]
  | _ => False

def TidyOutcome (fs : Files) : Outcome → Prop
  | .next ph => Tidy c p fs ph
  | .acquired res => granted res = none → Within c p fs []
  | _ => False

variable {c} {p} {q : ι} {e : Epoch} {fs fs' : Files} {ts clock now : Timestamp} {metas higher : List ObjectMeta}
  {regression : Bool} {m : ObjectMeta} {f : EpochFile} {r : Reply} {i : ℕ} {ph : Phase} {out : Outcome}
  {es : List Epoch} {todo : List ObjectMeta} {own : List Epoch}

lemma Within.keeps (h : Within c p fs es) (hown : ∀ e, Own c p e fs' → Own c p e fs) : Within c p fs' es :=
  fun e he => h e (hown e he)

lemma own_of_exec (hfor : ∀ why, (content c q why).holder ≠ c.holder p)
    (hex : exec c q clock fs r now i ph = some (fs', out)) (h : Own c p e fs') : Own c p e fs := by
  rcases exec_files hex with hs | ⟨why, g, -, -, -, rfl⟩
  · exact hs.own h
  · obtain ⟨o, f, ho, hf, hh⟩ := h
    rw [Table.lookup_insert'] at ho
    split_ifs at ho
    · cases ho
      cases hf
      exact absurd hh (hfor why)
    · exact ⟨o, f, ho, hf, hh⟩

def Late (out : Outcome) : Prop := ∀ ph, out = .next ph → beforePut ph = false

lemma late_next (h : beforePut ph = false) : Late (.next ph) := by
  rintro ph ⟨⟩
  exact h

lemma late_acquired {res : Except Error AcquisitionStatus} : Late (.acquired res) := by rintro ph ⟨⟩

lemma scavengeNext_late : Late (scavengeNext e ts regression metas) := by
  cases metas <;> exact late_next rfl

lemma higherNext_late : Late (higherNext e ts higher) := by
  cases higher with
  | nil => exact late_acquired
  | cons => exact late_next rfl

lemma lowerNext_late {lower : List ObjectMeta} : Late (lowerNext e ts regression higher lower) := by
  cases lower with
  | nil => exact higherNext_late
  | cons => exact late_next rfl

lemma releaseNext_late : Late (releaseNext todo own) := releaseNext_elim (by rintro ph ⟨⟩) (late_next rfl)

lemma breakNext_late {found : Bool} : Late (breakNext e ts found metas) := by
  cases metas <;> exact late_next rfl

lemma releaseOne_late (h : releaseOne c p fs r i todo own = some (fs', out)) : Late out := by
  rcases releaseOne_cases h with ⟨v, -, -, rfl⟩ | ⟨-, rfl | ⟨m, own', -, rfl, -⟩⟩
  · exact releaseNext_late
  · rintro ph ⟨⟩
  · exact releaseNext_late

lemma exec_late (hex : exec c q clock fs r now i ph = some (fs', out)) (hph : beforePut ph = false) :
    Shrinks fs fs' ∧ Late out := by
  constructor
  · rcases exec_files hex with hs | ⟨why, g, rfl, -⟩
    · exact hs
    · cases hph
  · cases exec_execs hex with
    | failed ph why => cases why <;> rintro ph ⟨⟩
    | ownerList | ownerGone | ownerSeen | claimList | claimTaken | claimPut | claimLost => cases hph
    | scavengeList | scavengeGone | scavengeDelete => exact scavengeNext_late
    | scavengeSeen => exact scavengeEntry_elim late_acquired (fun _ _ _ => late_next rfl) fun _ => scavengeNext_late
    | verifyList => exact partition_elim (late_next rfl) lowerNext_late
    | lowerGone => exact lowerNext_late
    | lowerSeen => exact classifyLoss_elim late_acquired late_acquired (late_next rfl)
    | higherGone => exact higherNext_late
    | higherSeen => exact yieldEntry_elim late_acquired (late_next rfl) higherNext_late
    | releaseList => exact releaseNext_late
    | releaseEach ho => exact releaseOne_late ho
    | breakList | breakGone | breakDelete => exact breakNext_late
    | breakSeen => exact breakEntry_elim (by rintro ph ⟨⟩) breakNext_late (late_next rfl)
    | dropMine | releaseFailed | breakDrop => rintro ph ⟨⟩
    | _ =>
      rintro ph ⟨⟩
      rfl

lemma readEntry_of_reads {content : EpochFile → Bool} (h : reads fs r e content = true) :
    readEntry fs r e = .ok none ∨ ∃ f, readEntry fs r e = .ok (some f) ∧ content f = true := by
  unfold reads at h
  rw [Bool.and_eq_true, decide_eq_true_eq] at h
  obtain ⟨rfl, h⟩ := h
  unfold readEntry
  rw [if_neg (by simp)]
  cases ho : fs.lookup e with
  | none => exact .inl rfl
  | some =>
    rw [ho, all_some] at h
    obtain ⟨f, hf, hc⟩ := (Option.any_eq_true _ _).1 h
    simp only [hf]
    exact .inr ⟨f, rfl, hc⟩

/-! ### `release` -/

lemma releaseNext_sweep (h : Within c p fs (todo.map ObjectMeta.epoch ++ own)) :
    SweepOutcome c p fs (releaseNext todo own) := by
  unfold releaseNext
  split
  · exact ⟨rfl, h⟩
  · exact ⟨_, _, rfl, h⟩

lemma releaseOne_ne_failed (ha : answered c p fs r i (.releaseEach todo own) = true) :
    releaseOne c p fs r i todo own ≠ some (fs', .released false) := by
  have hnext : ∀ {todo own}, releaseNext todo own ≠ .released false :=
    releaseNext_elim (P := fun out => out ≠ .released false) (by rintro ⟨⟩) (by rintro ⟨⟩)
  intro h
  simp only [answered] at ha
  unfold releaseOne at h
  split_ifs at h ha
  · obtain ⟨v, -, he⟩ := map_eq_some_iff.1 h
    exact hnext (Prod.mk.inj he).2
  · obtain ⟨m, hm, he⟩ := map_eq_some_iff.1 h
    rw [hm, all_some] at ha
    rcases readEntry_of_reads ha with hr | ⟨f, hr, -⟩ <;> simp only [hr] at he
    · exact hnext (Prod.mk.inj he).2
    · split_ifs at he <;> exact hnext (Prod.mk.inj he).2

lemma eq_or_mem_eraseIdx {α : Type*} {l : List α} {k : ℕ} {v x : α} (hv : l[k]? = some v) (hx : x ∈ l) :
    x = v ∨ x ∈ l.eraseIdx k := by
  obtain ⟨j, hj⟩ := mem_iff_getElem?.1 hx
  by_cases hjk : j = k
  · subst hjk
    rw [hv] at hj
    cases hj
    exact .inl rfl
  · exact .inr (mem_eraseIdx_iff_getElem?.2 ⟨j, hjk, hj⟩)

lemma within_list : Within c p fs ((listEpochMetas fs).map ObjectMeta.epoch ++ []) := by
  intro e he
  rw [append_nil]
  exact mem_map_listEpochMetas.2 he.mem

lemma Within.delete {v : Epoch} (h : Within c p fs es) (hr : r ≠ .err) {es' : List Epoch}
    (hes : ∀ e ∈ es, e = v ∨ e ∈ es') : Within c p (Lock.delete fs r v) es' := by
  intro e he
  refine (hes e (h e (shrinks_delete.own he))).resolve_left ?_
  rintro rfl
  have hmem := he.mem
  rw [Lock.delete, if_neg hr] at hmem
  exact (AList.mem_erase.1 hmem).1 rfl

lemma exec_sweep (hph : Sweeping c p fs ph) (hex : exec c p clock fs r now i ph = some (fs', out))
    (ha : answered c p fs r i ph = true) : SweepOutcome c p fs' out := by
  cases ph with
  | releaseList =>
    have hr : r = .ok := of_decide_eq_true ha
    simp only [exec, if_pos hr] at hex
    cases hex
    exact releaseNext_sweep within_list
  | releaseEach todo own =>
    have hph : Within c p fs (todo.map ObjectMeta.epoch ++ own) := hph
    rcases releaseOne_cases hex with ⟨v, hv, rfl, rfl⟩ | ⟨rfl, rfl | ⟨m, own', hm, rfl, hcases⟩⟩
    · have hr : r ≠ .err := by
        simp only [answered, if_pos (List.getElem?_eq_some_iff.1 hv).1] at ha
        exact of_decide_eq_true ha
      refine releaseNext_sweep (hph.delete hr fun e he => ?_)
      rcases mem_append.1 he with htodo | hown
      · exact .inr (mem_append_left _ htodo)
      · exact (eq_or_mem_eraseIdx hv hown).imp_right (mem_append_right _)
    · exact absurd hex (releaseOne_ne_failed ha)
    · -- a listed file is crossed off, or it is not one of ours
      have hown' : (∀ e ∈ own, e ∈ own') ∧ (Own c p m.epoch fs' → m.epoch ∈ own') := by
        rcases hcases with ⟨rfl, hnot⟩ | ⟨rfl, -⟩
        · refine ⟨fun _ h => h, ?_⟩
          rintro ⟨o, f, ho, hf, hh⟩
          exact absurd hh (hnot o f ho hf)
        · exact ⟨fun _ => mem_append_left _, fun _ => by simp⟩
      refine releaseNext_sweep fun e hmem => ?_
      rcases mem_append.1 (hph e hmem) with htodo | hown
      · obtain ⟨m', hm', rfl⟩ := List.mem_map.1 htodo
        rcases eq_or_mem_eraseIdx hm hm' with rfl | hrest
        · exact mem_append_right _ (hown'.2 hmem)
        · exact mem_append_left _ (List.mem_map_of_mem hrest)
      · exact mem_append_right _ (hown'.1 e hown)
  | _ => exact hph.elim

/-! ### `acquire` -/

lemma Tidy.drop (h : Within c p fs [e]) (hr : r ≠ .err) : Within c p (Lock.delete fs r e) [] :=
  h.delete hr fun _ he => .inl (mem_singleton.1 he)

lemma ownerNext_tidy (h : Within c p fs []) : TidyOutcome c p fs (ownerNext metas) := by
  cases metas <;> exact h

lemma scavengeNext_tidy (h : Within c p fs [e]) : TidyOutcome c p fs (scavengeNext e ts regression metas) := by
  cases metas <;> exact h

lemma higherNext_tidy (h : Within c p fs [e]) : TidyOutcome c p fs (higherNext e ts higher) := by
  cases higher with
  | nil => exact fun hno => by cases hno
  | cons => exact h

lemma lowerNext_tidy {lower : List ObjectMeta} (h : Within c p fs [e]) :
    TidyOutcome c p fs (lowerNext e ts regression higher lower) := by
  cases lower with
  | nil => exact higherNext_tidy h
  | cons => exact h

lemma scavengeEntry_tidy (h : Within c p fs [e]) (hx : (c.expiry m.lastModified f.duration).isSome) :
    TidyOutcome c p fs (scavengeEntry c p e ts m f metas regression) := by
  obtain ⟨x, hx⟩ := isSome_iff_exists.1 hx
  unfold scavengeEntry
  simp only [hx]
  split_ifs
  · exact h
  · exact scavengeNext_tidy h

lemma classifyLoss_tidy (hprio : c.priority p = 0) (h : Within c p fs [e]) :
    TidyOutcome c p fs (classifyLoss c p e false f) := by
  unfold classifyLoss
  rw [hprio]
  exact h

lemma yieldEntry_tidy (h : Within c p fs [e])
    (hx : f.priority ≤ c.priority p ∨ (c.expiry m.lastModified f.duration).isSome) :
    TidyOutcome c p fs (yieldEntry c p e ts m f higher) := by
  unfold yieldEntry
  split_ifs with hlt
  · obtain ⟨x, hx⟩ := isSome_iff_exists.1 (hx.resolve_left (by omega))
    simp only [hx]
    split_ifs
    · exact h
    · exact higherNext_tidy h
  · exact higherNext_tidy h

lemma Within.put (h : Within c p fs []) (e : Epoch) (o : Object) : Within c p (fs.insert e o) [e] := by
  rintro g ⟨o', f, ho, hf⟩
  rw [Table.lookup_insert'] at ho
  split_ifs at ho with heq
  · exact mem_singleton.2 heq
  · exact absurd (h g ⟨o', f, ho, hf⟩) not_mem_nil

lemma exec_tidy (hprio : c.priority p = 0) (hph : Tidy c p fs ph)
    (hex : exec c p clock fs r now i ph = some (fs', out)) (ha : answered c p fs r i ph = true) :
    TidyOutcome c p fs' out := by
  cases ph with
  | ownerList =>
    simp only [exec] at hex
    split_ifs at hex <;> cases hex
    · exact ownerNext_tidy hph
    · exact fun _ => hph
  | ownerGet metas =>
    cases metas with
    | nil => cases hex
    | cons =>
      simp only [exec] at hex
      split at hex <;> cases hex
      · exact fun _ => hph
      · exact ownerNext_tidy hph
      · exact fastPath_elim (fun _ => hph) (fun _ => hph) hph
  | claimList why =>
    cases why with
    | breakLocks => exact hph.elim
    | acquire =>
      simp only [exec] at hex
      split_ifs at hex
      · split at hex <;> cases hex
        · exact fun _ => hph
        · exact hph
      · cases hex
        exact fun _ => hph
  | claimPut why e =>
    cases why with
    | breakLocks => exact hph.elim
    | acquire =>
      have hph : Within c p fs [] := hph
      simp only [exec] at hex
      split_ifs at hex with hr he hok hok <;> cases hex
      · exact fun _ => hph
      · exact hph
      · exact fun _ => hph
      · exact hph.put e _
      · -- the answer to a PUT is lost
        cases r with
        | lost => simp [answered, he] at ha
        | ok => exact absurd rfl hok
        | err => exact absurd rfl hr
  | claimHead why e =>
    cases why with
    | breakLocks => exact hph.elim
    | acquire =>
      cases hl : (if r = .ok then fs.lookup e else none) <;> simp only [exec, hl] at hex <;> cases hex <;> exact hph
  | scavengeList =>
    have hr : r = .ok := of_decide_eq_true ha
    simp only [exec, if_pos hr] at hex
    cases hex
    exact scavengeNext_tidy hph
  | scavengeGet e ts metas =>
    cases metas with
    | nil => cases hex
    | cons =>
      rcases readEntry_of_reads ha with hr | ⟨f, hr, hx⟩ <;> simp only [exec, hr] at hex <;> cases hex
      · exact scavengeNext_tidy hph
      · exact scavengeEntry_tidy hph hx
  | scavengeDelete e =>
    have hph : Within c p fs [e] := hph
    cases hex
    exact scavengeNext_tidy (hph.keeps fun _ => shrinks_delete.own)
  | verifyList =>
    have hr : r = .ok := of_decide_eq_true ha
    simp only [exec, if_pos hr] at hex
    cases hex
    exact partition_elim hph (lowerNext_tidy hph)
  | lowerGet e ts lower =>
    cases lower with
    | nil => cases hex
    | cons =>
      rcases readEntry_of_reads ha with hr | ⟨f, hr, hreg⟩ <;> simp only [exec, hr] at hex <;> cases hex
      · exact lowerNext_tidy hph
      · rw [Bool.not_eq_true'] at hreg
        subst hreg
        exact classifyLoss_tidy hprio hph
  | higherGet e ts higher =>
    cases higher with
    | nil => cases hex
    | cons =>
      rcases readEntry_of_reads ha with hr | ⟨f, hr, hx⟩ <;> simp only [exec, hr] at hex <;> cases hex
      · exact higherNext_tidy hph
      · rw [Bool.or_eq_true, decide_eq_true_eq] at hx
        exact yieldEntry_tidy hph hx
  | dropMine =>
    cases hex
    exact fun _ => Tidy.drop hph (of_decide_eq_true ha)
  | _ => exact hph.elim

lemma Sweeping.keeps (h : Sweeping c p fs ph) (hown : ∀ e, Own c p e fs' → Own c p e fs) : Sweeping c p fs' ph := by
  cases ph with
  | releaseList => trivial
  | releaseEach => exact Within.keeps h hown
  | _ => exact h.elim

lemma Tidy.keeps (h : Tidy c p fs ph) (hown : ∀ e, Own c p e fs' → Own c p e fs) : Tidy c p fs' ph := by
  cases ph with
  | claimList why | claimPut why | claimHead why =>
    cases why with
    | acquire => exact Within.keeps h hown
    | breakLocks => exact h.elim
  | ownerList | ownerGet | scavengeList | scavengeGet | scavengeDelete | verifyList | lowerGet | higherGet
  | dropMine => exact Within.keeps h hown
  | _ => exact h.elim

/-! ### Guards -/

variable {l : State ι}

def Session.listed (q : ι) (s : Session ι) : Prop :=
  (∃ ok, s.guard = .released ok) ∨ s.guard = .releasing ∧ (s.lock.loc q).phase ≠ .releaseList

/-- The files of the holder are those the release has still to delete, and no PUT is to come. -/
structure Swept (c : Config ι) (p q : ι) (s : Session ι) : Prop where
  releasing : s.guard = .releasing → Sweeping c q s.lock.files (s.lock.loc q).phase
  released : ∀ ok, s.guard = .released ok → ok = true ∧ Within c q s.lock.files []
  late : s.listed q → beforePut (s.lock.loc p).phase = false

lemma Swept.of_held {s : Session ι} (h : s.guard = .held) : Swept c p q s := by
  refine ⟨fun hg => ?_, fun ok hg => ?_, fun hl => ?_⟩
  · rw [h] at hg
    cases hg
  · rw [h] at hg
    cases hg
  · rcases hl with ⟨ok, hg⟩ | ⟨hg, -⟩ <;> rw [h] at hg <;> cases hg

lemma Swept.keeps {s : Session ι} {task : TaskPc} {cancelled : Bool} (h : Swept c p q s)
    (hown : s.listed q → ∀ e, Own c q e l.files → Own c q e s.lock.files) (hq : l.loc q = s.lock.loc q)
    (hp : s.listed q → beforePut (l.loc p).phase = false) : Swept c p q ⟨l, cancelled, task, s.guard⟩ := by
  refine ⟨fun hg => ?_, fun ok hg => ?_, fun hl => ?_⟩
  · simp only [hq]
    have hsweep := h.releasing hg
    by_cases hlist : (s.lock.loc q).phase = .releaseList
    · rw [hlist]
      trivial
    · exact hsweep.keeps (hown (.inr ⟨hg, hlist⟩))
  · obtain ⟨hok, hw⟩ := h.released ok hg
    exact ⟨hok, hw.keeps (hown (.inl ⟨ok, hg⟩))⟩
  · simp only [Session.listed, hq] at hl
    exact hp hl

lemma after_late {loc : Local} {out : Outcome} (h : Late out) : beforePut (loc.after out).phase = false := by
  unfold Local.after
  split
  · exact h _ rfl
  all_goals rfl

end Files

/-! ### Steps at the lock -/

section Machines

variable {ι : Type*} [DecidableEq ι] {c : Config ι} {p q : ι} {l l' : State ι} {a : Act ι} {e : Epoch} {r : Reply}
  {now : Timestamp} {i : ℕ}

lemma loc_of_step (hs : Lock.step c l a = some l') (ha : actOf p a = false) : l'.loc p = l.loc p := by
  have hne : ∀ q : ι, decide (q = p) = false → p ≠ q := fun q hq => Ne.symm (of_decide_eq_false hq)
  cases a with
  | tick =>
    simp only [Lock.step] at hs
    split_ifs at hs
    cases hs
    rfl
  | acquire q | release q | breakLocks q =>
    obtain ⟨-, rfl⟩ := State.call_eq_some.1 hs
    exact State.set_loc_ne (hne q ha)
  | request q =>
    obtain ⟨⟨fs', out⟩, -, rfl⟩ := map_eq_some_iff.1 hs
    exact State.set_loc_ne (hne q ha)
  | cancel q =>
    cases hs
    exact State.set_loc_ne (hne q ha)

lemma own_of_step (hs : Lock.step c l a = some l')
    (hfor : ∀ o, actOf o a = true → ∀ why, (content c o why).holder ≠ c.holder p) (h : Own c p e l'.files) :
    Own c p e l.files := by
  cases a with
  | tick =>
    simp only [Lock.step] at hs
    split_ifs at hs
    cases hs
    exact h
  | acquire | release | breakLocks =>
    obtain ⟨-, rfl⟩ := State.call_eq_some.1 hs
    exact h
  | request q =>
    obtain ⟨⟨fs', out⟩, hex, rfl⟩ := map_eq_some_iff.1 hs
    exact own_of_exec (hfor q (decide_eq_true rfl)) hex h
  | cancel =>
    cases hs
    exact h

lemma step_request (hs : Lock.step c l (.request p r now i) = some l') :
    ∃ out, exec c p l.clock l.files r now i (l.loc p).phase = some (l'.files, out) ∧
      l'.loc p = (l.loc p).after out ∧ ∀ q, q ≠ p → l'.loc q = l.loc q := by
  obtain ⟨⟨fs', out⟩, hex, rfl⟩ := map_eq_some_iff.1 hs
  exact ⟨out, hex, State.set_loc_self, fun q hq => State.set_loc_ne hq⟩

lemma Swept.step {s t : Session ι} {a : SessionAct ι} (h : Swept c p q s) (hpq : q ≠ p)
    (hfor : ∀ o, o ≠ p → o ≠ q → ∀ why, (content c o why).holder ≠ c.holder q)
    (hquiet : quietly c p q s a = true) (hs : s.step c p q a = some t) : Swept c p q t := by
  cases a with
  | lock =>
    simp only [Session.step] at hs
    split_ifs at hs with hact
    rw [Bool.or_eq_true, not_or, Bool.not_eq_true, Bool.not_eq_true] at hact
    obtain ⟨l, hl, rfl⟩ := map_eq_some_iff.1 hs
    refine h.keeps (fun _ e => own_of_step hl fun o ho => ?_) (loc_of_step hl hact.2) fun hlisted => ?_
    · refine hfor o ?_ ?_
      · rintro rfl
        rw [hact.1] at ho
        cases ho
      · rintro rfl
        rw [hact.2] at ho
        cases ho
    · rw [loc_of_step hl hact.1]
      exact h.late hlisted
  | cancel =>
    cases hs
    exact h.keeps (fun _ _ he => he) rfl h.late
  | wake =>
    simp only [Session.step] at hs
    split at hs
    · obtain ⟨l, -, rfl⟩ := map_eq_some_iff.1 hs
      exact .of_held (of_decide_eq_true hquiet)
    · cases hs
  | expire | observe =>
    simp only [Session.step] at hs
    split at hs <;> cases hs
    exact h.keeps (fun _ _ he => he) rfl h.late
  | renew =>
    simp only [Session.step] at hs
    split at hs
    · obtain ⟨l, hl, rfl⟩ := map_eq_some_iff.1 hs
      obtain ⟨out, hex, hp, hother⟩ := step_request hl
      refine h.keeps (fun hlisted e he => ?_) (hother q hpq) fun hlisted => ?_
      · exact (exec_late hex (h.late hlisted)).1.own he
      · rw [hp]
        exact after_late (exec_late hex (h.late hlisted)).2
    · cases hs
  | release =>
    simp only [Session.step] at hs
    split at hs
    · obtain ⟨l, hl, rfl⟩ := map_eq_some_iff.1 hs
      obtain ⟨-, rfl⟩ := State.call_eq_some.1 hl
      refine ⟨fun _ => ?_, fun ok hg => ?_, fun hlisted => ?_⟩
      · simp only [State.set_loc_self]
        trivial
      · cases hg
      · rcases hlisted with ⟨ok, hg⟩ | ⟨-, hne⟩
        · cases hg
        · simp only [State.set_loc_self] at hne
          exact absurd rfl hne
    · cases hs
  | clean =>
    simp only [Session.step] at hs
    split at hs
    · next fs' out hg hex =>
      obtain ⟨l, hl, rfl⟩ := map_eq_some_iff.1 hs
      obtain ⟨out', hex', hq, hother⟩ := step_request hl
      rw [hex] at hex'
      cases hex'
      simp only [quietly, Bool.and_eq_true] at hquiet
      -- the renewal is past its PUT when the LIST is taken, and so it stays
      have hlate : beforePut (s.lock.loc p).phase = false := by
        by_cases hlist : (s.lock.loc q).phase = .releaseList
        · have hput := hquiet.2
          simp only [hlist, Bool.not_eq_true'] at hput
          exact hput
        · exact h.late (.inr ⟨hg, hlist⟩)
      have hsweep := exec_sweep (h.releasing hg) hex hquiet.1
      refine ⟨fun hg' => ?_, fun ok hg' => ?_, fun _ => ?_⟩
      · cases out with
        | next =>
          obtain ⟨todo, own, rfl, hw⟩ := hsweep
          simp only [hq, Local.after]
          exact hw
        | released => cases hg'
        | _ => exact hsweep.elim
      · cases out with
        | released =>
          cases hg'
          exact hsweep
        | _ => cases hg'
      · simp only [hother p (Ne.symm hpq)]
        exact hlate
    · cases hs

/-! ### Admin commands -/

/-- The files of the command's holder: what its call has made or is to delete, and none at the end. -/
def Neat (c : Config ι) (p : ι) (s : Admin ι) : Prop :=
  match s.pc with
  | .start | .done _ => (s.lock.loc p).phase = .idle ∧ Within c p s.lock.files []
  | .acquiring =>
    Tidy c p s.lock.files (s.lock.loc p).phase ∨
      (s.lock.loc p).phase = .idle ∧ ((s.lock.loc p).latest = none → Within c p s.lock.files [])
  | .activating | .running | .closing _ => (s.lock.loc p).phase = .idle
  | .releasing _ =>
    Sweeping c p s.lock.files (s.lock.loc p).phase ∨
      (s.lock.loc p).phase = .idle ∧ Within c p s.lock.files []

variable {s t : Admin ι}

omit [DecidableEq ι] in
lemma Neat.keeps (h : Neat c p s) (hown : ∀ e, Own c p e l.files → Own c p e s.lock.files)
    (hp : l.loc p = s.lock.loc p) : Neat c p { s with lock := l } := by
  unfold Neat at h ⊢
  rw [hp]
  cases hpc : s.pc with
  | start | done =>
    simp only [hpc] at h ⊢
    exact ⟨h.1, h.2.keeps hown⟩
  | acquiring =>
    simp only [hpc] at h ⊢
    exact h.imp (fun ht => ht.keeps hown) fun hi => ⟨hi.1, fun hl => (hi.2 hl).keeps hown⟩
  | activating | running | closing =>
    simp only [hpc] at h ⊢
    exact h
  | releasing =>
    simp only [hpc] at h ⊢
    exact h.imp (fun ht => ht.keeps hown) fun hi => ⟨hi.1, hi.2.keeps hown⟩

lemma after_acquired (loc : Local) (res : Except Error AcquisitionStatus) :
    (loc.after (.acquired res)).phase = .idle ∧ (loc.after (.acquired res)).latest = granted res := by
  cases res with
  | error => exact ⟨rfl, rfl⟩
  | ok status => cases status <;> exact ⟨rfl, rfl⟩

lemma Neat.own (h : Neat c p s) (hprio : c.priority p = 0) (htidy : tidily c p s (.lock (.request p r now i)) = true)
    (hs : Lock.step c s.lock (.request p r now i) = some l) : Neat c p { s with lock := l } := by
  obtain ⟨out, hex, hp, -⟩ := step_request hs
  have ha : answered c p s.lock.files r i (s.lock.loc p).phase = true := by
    simp only [tidily, ne_eq, not_true, decide_false, Bool.false_or] at htidy
    exact htidy
  have hbusy : (s.lock.loc p).phase ≠ .idle := by
    intro hidle
    rw [hidle] at hex
    cases hex
  unfold Neat at h ⊢
  rw [hp]
  cases hpc : s.pc with
  | start | done =>
    simp only [hpc] at h
    exact absurd h.1 hbusy
  | activating | running | closing =>
    simp only [hpc] at h
    exact absurd h hbusy
  | acquiring =>
    simp only [hpc] at h ⊢
    have htid := exec_tidy hprio (h.resolve_right fun hi => hbusy hi.1) hex ha
    cases out with
    | next => exact .inl htid
    | acquired res =>
      obtain ⟨hph, hlat⟩ := after_acquired (s.lock.loc p) res
      rw [hph, hlat]
      exact .inr ⟨rfl, htid⟩
    | _ => exact htid.elim
  | releasing =>
    simp only [hpc] at h ⊢
    have hsw := exec_sweep (h.resolve_right fun hi => hbusy hi.1) hex ha
    cases out with
    | next =>
      obtain ⟨todo, own, rfl, hw⟩ := hsw
      exact .inl hw
    | released =>
      obtain ⟨rfl, hw⟩ := hsw
      exact .inr ⟨rfl, hw⟩
    | _ => exact hsw.elim

lemma neat_release {result : Bool} (hs : s.release c p result = some t) : Neat c p t := by
  obtain ⟨l, hl, rfl⟩ := map_eq_some_iff.1 hs
  obtain ⟨-, rfl⟩ := State.call_eq_some.1 hl
  refine .inl ?_
  simp only [State.set_loc_self]
  trivial

lemma Neat.step {a : AdminAct ι} (h : Neat c p s) (hprio : c.priority p = 0)
    (hfor : ∀ o, o ≠ p → ∀ why, (content c o why).holder ≠ c.holder p) (htidy : tidily c p s a = true)
    (hs : s.step c p a = some t) : Neat c p t := by
  cases a with
  | lock a =>
    simp only [Admin.step] at hs
    split_ifs at hs with hcall
    obtain ⟨l, hl, rfl⟩ := map_eq_some_iff.1 hs
    by_cases hact : actOf p a = true
    · cases a with
      | request =>
        obtain rfl := of_decide_eq_true hact
        exact h.own hprio htidy hl
      | _ => exact absurd hact hcall
    · rw [Bool.not_eq_true] at hact
      refine h.keeps (fun e => own_of_step hl fun o ho => hfor o ?_) (loc_of_step hl hact)
      rintro rfl
      rw [hact] at ho
      cases ho
  | start =>
    simp only [Admin.step] at hs
    split at hs
    · next hpc =>
      obtain ⟨l, hl, rfl⟩ := map_eq_some_iff.1 hs
      obtain ⟨-, rfl⟩ := State.call_eq_some.1 hl
      simp only [Neat, hpc] at h
      refine .inl ?_
      simp only [State.set_loc_self]
      exact h.2
    · cases hs
  | acquired =>
    simp only [Admin.step] at hs
    split at hs
    · next hpc hph hlat =>
      cases hs
      exact hph
    · next hpc hph hlat =>
      cases hs
      simp only [Neat, hpc, hph, hlat] at h
      rcases h with htid | ⟨-, hw⟩
      · exact htid.elim
      · exact ⟨hph, hw trivial⟩
    · cases hs
  | storage =>
    simp only [Admin.step] at hs
    split_ifs at hs
    cases hs
    exact h
  | finish =>
    simp only [Admin.step] at hs
    split at hs
    · next hpc =>
      simp only [Neat, hpc] at h
      split_ifs at hs
      · cases hs
        exact h
      · exact neat_release hs
    · next hpc =>
      cases hs
      simp only [Neat, hpc] at h
      exact h
    · exact neat_release hs
    · cases hs
  | released =>
    simp only [Admin.step] at hs
    split at hs
    · next hpc hph =>
      cases hs
      simp only [Neat, hpc, hph] at h
      rcases h with hsw | ⟨-, hw⟩
      · exact hsw.elim
      · exact ⟨hph, hw⟩
    · cases hs

/-! ### Nothing is left -/

/-- **A released lock leaves nothing behind.**  For a guard whose renewals are calls of `p` and whose release
is the call of `q`: if no renewal stands before its PUT when the release lists the files, none is started
after, and the requests of the release are answered, it returns `Ok` and there is no file of the holder then
and later.  For an admin command whose requests are answered, there is no file of the holder once it has
returned. -/
theorem released_nothing_left (c : Config ι) (p : ι) :
    (∀ q, q ≠ p → c.holder q = c.holder p → (∀ o, o ≠ p → o ≠ q → ∀ why, (content c o why).holder ≠ c.holder p) →
      ∀ (s t : Session ι) (as : List (SessionAct ι)), s.guard = .held → run (Session.step c p q) s as = some t →
        Meets (Session.step c p q) (fun s a => quietly c p q s a = true) s as →
        ∀ ok, t.guard = .released ok → ok = true ∧ ∀ e, ¬ Own c p e t.lock.files) ∧
    (c.priority p = 0 → (∀ o, o ≠ p → ∀ why, (content c o why).holder ≠ c.holder p) →
      ∀ (s t : Admin ι) (as : List (AdminAct ι)), s.pc = .start → (s.lock.loc p).phase = .idle →
        (∀ e, ¬ Own c p e s.lock.files) → run (Admin.step c p) s as = some t →
        Meets (Admin.step c p) (fun s a => tidily c p s a = true) s as →
        ∀ res, t.pc = .done res → ∀ e, ¬ Own c p e t.lock.files) := by
  constructor
  · intro q hpq hholder hfor s t as hheld hr hm ok hdone
    have hinv : Swept c p q t := by
      refine run_inv (fun s a t h hq hs => h.step hpq (fun o hp hq => ?_) hq hs) (.of_held hheld) hm hr
      rw [hholder]
      exact hfor o hp hq
    obtain ⟨hok, hnone⟩ := hinv.released ok hdone
    refine ⟨hok, fun e hown => not_mem_nil (hnone e ?_)⟩
    obtain ⟨o, f, ho, hf, hh⟩ := hown
    exact ⟨o, f, ho, hf, hh.trans hholder.symm⟩
  · intro hprio hfor s t as hpc hidle hnone hr hm res hdone e hown
    have h0 : Neat c p s := by
      simp only [Neat, hpc]
      exact ⟨hidle, fun e he => absurd he (hnone e)⟩
    have hinv : Neat c p t := run_inv (fun s a t h ht hs => h.step hprio hfor ht hs) h0 hm hr
    simp only [Neat, hdone] at hinv
    exact not_mem_nil (hinv.2 e hown)

end Machines

/-! ### A renewal that is under way, and an `acquire` that fails -/

/-- A guard of `a`: both its renewals and its release use that name. -/
def oneHolder : Config Bool := { twoHolders with holder := fun _ => ['a'] }

/-- `a` holds the lock with the file of epoch 0, and its task sleeps. -/
def guardOfA : Session Bool :=
  ⟨⟨120, AList.singleton (.early 0) ⟨some ⟨['a'], 0, 60⟩, 100⟩, fun _ => Local.start, []⟩, false, .sleeping, .held⟩

/-- The renewal has chosen epoch 1 when the release lists epoch 0 alone, reads it and deletes it. -/
def crossing : List (SessionAct Bool) :=
  [.wake] ++ List.replicate 3 (.renew .ok 120 0) ++ [.release] ++ List.replicate 3 (.clean .ok 120 0)

/-- The LIST of `scavenge_below` fails, when the file of the command is there. -/
def failingScavenge : List (AdminAct Bool) :=
  .start :: List.replicate 4 (.lock (served true)) ++ [.lock (.request true .err 100 0), .acquired]

/-- The release has returned `Ok`, and then the renewal makes its file; the admin command returns with its
file in place. -/
theorem released_file_left :
    (∃ s t, run (Session.step oneHolder true false) guardOfA crossing = some s ∧ s.guard = .released true ∧
      s.step oneHolder true false (.renew .ok 120 0) = some t ∧ t.guard = .released true ∧
      Own oneHolder true (.early 1) t.lock.files) ∧
    ∃ t, run (Admin.step twoHolders true) idleAdmin failingScavenge = some t ∧ t.pc = .done false ∧
      Own twoHolders true (.early 0) t.lock.files := by
  refine ⟨⟨_, _, rfl, rfl, rfl, rfl, _, _, rfl, rfl, rfl⟩, ⟨_, rfl, rfl, _, _, rfl, rfl, rfl⟩⟩

/-- The renewal has made its file when the release lists epochs 0 and 1; it finds that the file is gone, and
the task ends. -/
def afterwards : List (SessionAct Bool) :=
  [.wake] ++ List.replicate 4 (.renew .ok 120 0) ++ [.release] ++ List.replicate 5 (.clean .ok 120 0) ++
    List.replicate 2 (.renew .ok 120 0) ++ [.observe]

def releasingCommand : List (AdminAct Bool) :=
  .start :: List.replicate 6 (.lock (served true)) ++ [.acquired, .finish true, .finish true, .finish true] ++
    List.replicate 3 (.lock (served true)) ++ [.released]

theorem released_nothing_left_quiet :
    (∃ t, run (Session.step oneHolder true false) guardOfA afterwards = some t ∧ t.guard = .released true ∧
      ∀ e, ¬ Own oneHolder true e t.lock.files) ∧
    ∃ t, run (Admin.step twoHolders true) idleAdmin releasingCommand = some t ∧ t.pc = .done true ∧
      ∀ e, ¬ Own twoHolders true e t.lock.files := by
  constructor
  · obtain ⟨t, hrun, hdone⟩ : ∃ t, run (Session.step oneHolder true false) guardOfA afterwards = some t ∧
        t.guard = .released true := ⟨_, rfl, rfl⟩
    refine ⟨t, hrun, hdone, ((released_nothing_left oneHolder true).1 false (by decide) rfl (fun o hp hq => ?_)
      guardOfA t afterwards rfl hrun ?_ true hdone).2⟩
    · cases o
      · exact absurd rfl hq
      · exact absurd rfl hp
    · decide
  · obtain ⟨t, hrun, hdone⟩ : ∃ t, run (Admin.step twoHolders true) idleAdmin releasingCommand = some t ∧
        t.pc = .done true := ⟨_, rfl, rfl⟩
    refine ⟨t, hrun, hdone, (released_nothing_left twoHolders true).2 rfl (fun o ho why => ?_)
      idleAdmin t releasingCommand rfl rfl (fun e he => ?_) hrun ?_ true hdone⟩
    · cases o
      · cases why <;> decide
      · exact absurd rfl ho
    · exact absurd he.mem (AList.notMem_empty e)
    · decide

end Bepository
