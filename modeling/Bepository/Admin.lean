import Bepository.Lock.Deletion

/-!
# Admin commands (`bepository-cli/src/main.rs`)

`with_admin_lock` acquires the lock, activates the storage under the granted epoch, runs the closure of
the command, closes the storage and releases the lock.  The lease is granted once: nothing renews it
while the closure runs, and no step looks at it again.  `admin_steps_live` is about the commands that
are done before their lease is over.
-/

namespace Bepository

open Lib Lock Option

/-! ### `with_admin_lock` -/

/-- Where `with_admin_lock` is; `result` is the part of its result that is known. -/
inductive AdminPc where
  | start
  | acquiring
  | activating
  | running
  | closing (result : Bool)
  | releasing (result : Bool)
  | done (result : Bool)
  deriving DecidableEq

/-- The parts that make storage steps: `storage.activate`, the closure and `storage.close`. -/
def AdminPc.body : AdminPc → Bool
  | .activating | .running | .closing _ => true
  | _ => false

/-- The lock with all its participants, and the command of one of them. -/
structure Admin (ι : Type*) where
  lock : State ι
  pc : AdminPc

/-- What can happen: a step at the lock (of the store's clock, of others, or the next request of the
command's own call), the start of the command, the return of its `acquire`, a storage step, the return
of the part it is in, and the return of its `release`. -/
inductive AdminAct (ι : Type*) where
  | lock (a : Act ι)
  | start
  | acquired
  | storage
  | finish (ok : Bool)
  | released

section Admin

variable {ι : Type*} [DecidableEq ι]

def callOf (p : ι) : Act ι → Bool
  | .acquire q | .release q | .breakLocks q | .cancel q => q = p
  | _ => false

/-- The command goes on to `lock.release`. -/
def Admin.release (c : Config ι) (p : ι) (s : Admin ι) (result : Bool) : Option (Admin ι) :=
  (Lock.step c s.lock (.release p)).map fun l => ⟨l, .releasing result⟩

def Admin.step (c : Config ι) (p : ι) (s : Admin ι) : AdminAct ι → Option (Admin ι)
  | .lock a =>
    if callOf p a then none else (Lock.step c s.lock a).map fun l => { s with lock := l }
  | .start =>
    match s.pc with
    | .start => (Lock.step c s.lock (.acquire p)).map fun l => ⟨l, .acquiring⟩
    | _ => none
  | .acquired =>
    match s.pc, (s.lock.loc p).phase, (s.lock.loc p).latest with
    | .acquiring, .idle, some _ => some { s with pc := .activating }
    | .acquiring, .idle, none => some { s with pc := .done false }
    | _, _, _ => none
  | .storage => if s.pc.body then some s else none
  | .finish ok =>
    match s.pc with
    | .activating => if ok then some { s with pc := .running } else s.release c p false
    | .running => some { s with pc := .closing ok }
    | .closing result => s.release c p (result && ok)
    | _ => none
  | .released =>
    match s.pc, (s.lock.loc p).phase with
    | .releasing result, .idle =>
      some { s with pc := .done (result && (s.lock.loc p).latest.isNone) }
    | _, _ => none

/-! ### The lease during the command -/

/-- The file of epoch `e` is one of `p` and has not expired at the latest store timestamp. -/
def Alive (c : Config ι) (p : ι) (s : State ι) (e : Epoch) : Prop :=
  ∃ o, s.files.lookup e = some o ∧ leased c s.clock p o = true

/-- The epochs the command works under, until it starts to release the lock. -/
def Admin.epochs (p : ι) (s : Admin ι) : List Epoch :=
  if s.pc = .acquiring ∨ s.pc.body then
    (s.lock.loc p).latest.toList ++ (s.lock.loc p).phase.placed.toList
  else []

/-- The store's clock does not pass the expiry of the command's file before the storage is closed. -/
def inTime (c : Config ι) (p : ι) (s : Admin ι) : AdminAct ι → Bool
  | .lock (.tick t) => (s.epochs p).all fun e => (s.lock.files.lookup e).all (leased c t p)
  | _ => true

/-- No PUT takes a path that a call in flight holds, and nobody breaks locks. -/
def unhindered (s : Admin ι) : AdminAct ι → Prop
  | .lock a => freePath s.lock a ∧ a.isBreak = false
  | _ => True

instance [Fintype ι] (s : Admin ι) (a : AdminAct ι) : Decidable (unhindered s a) := by
  unfold unhindered
  split <;> infer_instance

/-- The command's files are alive from its PUT to the end of `storage.close`. -/
structure AdminInv (c : Config ι) (p : ι) (s : Admin ι) : Prop where
  hold : HoldInv c s.lock
  placed : s.pc = .acquiring → ∀ e, (s.lock.loc p).phase.placed = some e → Alive c p s.lock e
  latest : s.pc = .acquiring ∨ s.pc.body → ∀ e, (s.lock.loc p).latest = some e →
    (s.lock.loc p).phase = .idle ∧ Alive c p s.lock e
  owner : s.pc.body → (s.lock.loc p).latest.isSome

variable {c : Config ι} {p q : ι} {s t : Admin ι} {l : State ι} {e : Epoch} {r : Reply}
  {now : Timestamp} {i : ℕ} {fs' : Files} {out : Outcome} {a : AdminAct ι}

omit [DecidableEq ι] in
lemma Admin.mem_epochs (hheld : s.pc = .acquiring ∨ s.pc.body)
    (he : (s.lock.loc p).latest = some e ∨ (s.lock.loc p).phase.placed = some e) : e ∈ s.epochs p := by
  unfold Admin.epochs
  rw [if_pos hheld]
  simpa using he

omit [DecidableEq ι] in
lemma Alive.request (hc : Function.Injective c.holder) (h : HoldInv c l) (hne : q ≠ p)
    (hex : exec c q l.clock l.files r now i (l.loc q).phase = some (fs', out))
    (he : Alive c p l e) : ∃ o, fs'.lookup e = some o ∧ leased c l.clock p o = true := by
  obtain ⟨o, ho, hl⟩ := he
  refine ⟨o, exec_keeps hex ho fun hv => ?_, hl⟩
  obtain ⟨f, hf, hlive⟩ := (any_eq_true _ _).1 hl
  rw [Bool.and_eq_true, decide_eq_true_eq] at hlive
  rcases (h.holding q).victim hv o ho f hf with hown | ⟨x, hx, hle⟩
  · exact hne (hc (hown.symm.trans hlive.1))
  · obtain ⟨x', hx', hlt⟩ := (any_eq_true _ _).1 hlive.2
    rw [hx] at hx'
    cases hx'
    exact absurd (of_decide_eq_true hlt) (not_lt.2 hle)

lemma AdminInv.set {loc : Local} (h : AdminInv c p s) (hne : q ≠ p) (hl : HoldInv c (s.lock.set q loc)) :
    AdminInv c p { s with lock := s.lock.set q loc } := by
  have hloc : (s.lock.set q loc).loc p = s.lock.loc p := State.set_loc_ne (Ne.symm hne)
  refine ⟨hl, fun hpc => ?_, fun hpc => ?_, fun hpc => ?_⟩
  · simp only [hloc]
    exact h.placed hpc
  · simp only [hloc]
    exact h.latest hpc
  · simp only [hloc]
    exact h.owner hpc

omit [DecidableEq ι] in
lemma placed_after {l : Local} (h : (l.after out).phase.placed = some e) : out.placed = some e := by
  unfold Local.after at h
  split at h
  · exact h
  all_goals cases h

omit [DecidableEq ι] in
lemma latest_after {l : Local} (hl : l.latest = none) (h : (l.after out).latest = some e) :
    (l.after out).phase = .idle ∧ out.placed = some e := by
  unfold Local.after at h ⊢
  split at h
  · rw [hl] at h
    cases h
  · cases h
    exact ⟨rfl, rfl⟩
  · cases h
  · cases h
  all_goals
    rw [hl] at h
    cases h

omit [DecidableEq ι] in
lemma alive_content (hlease : ∀ t, ∃ x, c.expiry t (c.duration p) = some x ∧ t < x)
    (clock : Timestamp) : leased c clock p ⟨some (content c p .acquire), clock⟩ = true := by
  obtain ⟨x, hx, hlt⟩ := hlease clock
  simp [leased, content, hx, hlt]

lemma AdminInv.own (h : AdminInv c p s) (hlease : ∀ t, ∃ x, c.expiry t (c.duration p) = some x ∧ t < x)
    (hl : HoldInv c l) (hs : Lock.step c s.lock (.request p r now i) = some l) :
    AdminInv c p { s with lock := l } := by
  obtain ⟨⟨fs', out⟩, hex, rfl⟩ := map_eq_some_iff.1 hs
  have hkept : ∀ e, (s.lock.loc p).phase.victim i ≠ some e → Alive c p s.lock e →
      ∃ o, fs'.lookup e = some o ∧ leased c s.lock.clock p o = true := by
    rintro e hv ⟨o, ho, hlive⟩
    exact ⟨o, exec_keeps hex ho hv, hlive⟩
  -- the file it goes on with is there, or it has just been created
  have hplaced : s.pc = .acquiring → ∀ e, out.placed = some e →
      ∃ o, fs'.lookup e = some o ∧ leased c s.lock.clock p o = true := by
    intro hpc e he
    rcases exec_placed hex he with hph | ⟨-, hnew⟩
    · exact hkept e ((h.hold.holding p).victim_ne hph) (h.placed hpc e hph)
    · exact ⟨_, hnew, alive_content hlease _⟩
  refine ⟨hl, fun hpc e he => ?_, fun hheld e he => ?_, fun hbody => ?_⟩
  · simp only [State.set_loc_self] at he
    exact hplaced hpc e (placed_after he)
  all_goals
    have hidle : ∀ e, (s.lock.loc p).latest = some e → ¬ (s.pc = .acquiring ∨ s.pc.body) := by
      intro e he hheld
      rw [(h.latest hheld e he).1] at hex
      cases hex
  · simp only [State.set_loc_self] at he ⊢
    have hnone : (s.lock.loc p).latest = none := eq_none_iff_forall_ne_some.2 fun e he => hidle e he hheld
    obtain ⟨hph, hout⟩ := latest_after hnone he
    have hpc : s.pc = .acquiring := by
      refine hheld.resolve_right fun hbody => ?_
      have hsome := h.owner hbody
      rw [hnone] at hsome
      cases hsome
    exact ⟨hph, hplaced hpc e hout⟩
  · obtain ⟨e, he⟩ := isSome_iff_exists.1 (h.owner hbody)
    exact absurd (.inr hbody) (hidle e he)

lemma AdminInv.lock {a : Act ι} (h : AdminInv c p s) (hc : Function.Injective c.holder)
    (hlease : ∀ t, ∃ x, c.expiry t (c.duration p) = some x ∧ t < x) (ht : inTime c p s (.lock a) = true)
    (hu : unhindered s (.lock a)) (hp : callOf p a = false)
    (hs : Lock.step c s.lock a = some l) : AdminInv c p { s with lock := l } := by
  have hl : HoldInv c l := h.hold.step hu.1 hu.2 hs
  cases a with
  | tick t' =>
    simp only [Lock.step] at hs
    split_ifs at hs
    cases hs
    simp only [inTime, List.all_eq_true] at ht
    have hstill : ∀ e, Alive c p s.lock e → (s.lock.files.lookup e).all (leased c t' p) = true →
        Alive c p { s.lock with clock := t' } e := by
      rintro e ⟨o, ho, -⟩ hall
      rw [ho] at hall
      exact ⟨o, ho, hall⟩
    refine ⟨hl, fun hpc e he => ?_, fun hheld e he => ?_, h.owner⟩
    · exact hstill e (h.placed hpc e he) (ht e (Admin.mem_epochs (.inl hpc) (.inr he)))
    · obtain ⟨hph, hal⟩ := h.latest hheld e he
      exact ⟨hph, hstill e hal (ht e (Admin.mem_epochs hheld (.inl he)))⟩
  | acquire | release =>
    obtain ⟨-, rfl⟩ := State.call_eq_some.1 hs
    exact h.set (by simpa [callOf] using hp) hl
  | breakLocks => exact absurd hu.2 (by simp [Act.isBreak])
  | cancel =>
    cases hs
    exact h.set (by simpa [callOf] using hp) hl
  | request q =>
    by_cases hq : q = p
    · subst hq
      exact h.own hlease hl hs
    · obtain ⟨⟨fs', out⟩, hex, rfl⟩ := map_eq_some_iff.1 hs
      refine ⟨hl, fun hpc e he => ?_, fun hheld e he => ?_, fun hbody => ?_⟩
      · simp only [State.set_loc_ne (Ne.symm hq)] at he
        have hal := (h.placed hpc e he).request hc h.hold hq hex
        exact hal
      · simp only [State.set_loc_ne (Ne.symm hq)] at he ⊢
        obtain ⟨hph, hal⟩ := h.latest hheld e he
        have hal' := hal.request hc h.hold hq hex
        exact ⟨hph, hal'⟩
      · simp only [State.set_loc_ne (Ne.symm hq)]
        exact h.owner hbody

lemma AdminInv.release {result : Bool} (h : AdminInv c p s) (hs : s.release c p result = some t) :
    AdminInv c p t := by
  obtain ⟨l, hl, rfl⟩ := map_eq_some_iff.1 hs
  refine ⟨h.hold.step (a := .release p) trivial rfl hl, fun hpc => ?_, fun hheld => ?_, fun hbody => ?_⟩
  · cases hpc
  · rcases hheld with hpc | hbody
    · cases hpc
    · cases hbody
  · cases hbody

lemma AdminInv.step (h : AdminInv c p s) (hc : Function.Injective c.holder)
    (hlease : ∀ t, ∃ x, c.expiry t (c.duration p) = some x ∧ t < x) (ht : inTime c p s a = true)
    (hu : unhindered s a) (hs : s.step c p a = some t) : AdminInv c p t := by
  -- the command moves on while it keeps the lock
  have hmove : ∀ pc : AdminPc, (s.pc = .acquiring ∨ s.pc.body) → pc.body →
      (s.lock.loc p).latest.isSome → AdminInv c p { s with pc := pc } := by
    intro pc hheld hbody hsome
    refine ⟨h.hold, fun hpc => ?_, fun _ => h.latest hheld, fun _ => hsome⟩
    cases hpc
    cases hbody
  have hdone : ∀ result, AdminInv c p { s with pc := .done result } := by
    intro result
    refine ⟨h.hold, fun hpc => ?_, fun hheld => ?_, fun hbody => ?_⟩
    · cases hpc
    · rcases hheld with hpc | hbody
      · cases hpc
      · cases hbody
    · cases hbody
  cases a with
  | lock =>
    simp only [Admin.step] at hs
    split_ifs at hs with hp
    obtain ⟨l, hl, rfl⟩ := map_eq_some_iff.1 hs
    exact h.lock hc hlease ht hu (by simpa using hp) hl
  | start =>
    simp only [Admin.step] at hs
    split at hs
    · obtain ⟨l, hl, rfl⟩ := map_eq_some_iff.1 hs
      have hhold := h.hold.step (a := .acquire p) trivial rfl hl
      obtain ⟨-, rfl⟩ := State.call_eq_some.1 hl
      refine ⟨hhold, fun _ e he => ?_, fun _ e he => ?_, fun hbody => by cases hbody⟩
      all_goals
        simp only [State.set_loc_self] at he
        cases he
    · cases hs
  | acquired =>
    simp only [Admin.step] at hs
    split at hs
    · next hpc hph hlat =>
      cases hs
      exact hmove _ (.inl hpc) rfl (by rw [hlat]; rfl)
    · cases hs
      exact hdone false
    · cases hs
  | storage =>
    simp only [Admin.step] at hs
    split_ifs at hs
    cases hs
    exact h
  | finish =>
    simp only [Admin.step] at hs
    split at hs
    · next hpc =>
      have hbody : s.pc.body = true := by rw [hpc]; rfl
      split_ifs at hs
      · cases hs
        exact hmove _ (.inr hbody) rfl (h.owner hbody)
      · exact h.release hs
    · next hpc =>
      have hbody : s.pc.body = true := by rw [hpc]; rfl
      cases hs
      exact hmove _ (.inr hbody) rfl (h.owner hbody)
    · exact h.release hs
    · cases hs
  | released =>
    simp only [Admin.step] at hs
    split at hs
    · cases hs
      exact hdone _
    · cases hs

/-- **Admin commands act under a live lease**, in every run in which no PUT takes a path that a call in
flight holds and the store's clock does not pass the expiry of the command's file before its storage is
closed: every storage step happens while that file is present and unexpired. -/
theorem admin_steps_live (c : Config ι) (hc : Function.Injective c.holder) {p : ι}
    (hlease : ∀ t, ∃ x, c.expiry t (c.duration p) = some x ∧ t < x) {s₀ s t : Admin ι} {as : List (AdminAct ι)}
    (h₀ : s₀.lock.Initial) (hpc : s₀.pc = .start)
    (hclock : ∀ e, At s₀.lock.files e fun o => o.lastModified ≤ s₀.lock.clock)
    (hm : Meets (Admin.step c p) (fun s a => inTime c p s a = true ∧ unhindered s a) s₀ as)
    (hr : run (Admin.step c p) s₀ as = some s) (hs : s.step c p .storage = some t) :
    ∃ e, (s.lock.loc p).latest = some e ∧ Alive c p s.lock e := by
  have hinit : AdminInv c p s₀ := by
    refine ⟨HoldInv.initial h₀ hclock, fun h => ?_, fun h => ?_, fun h => ?_⟩
    all_goals rw [hpc] at h
    · cases h
    · rcases h with h | h <;> cases h
    · cases h
  have hi := run_inv (P := AdminInv c p) (fun s a t hi hg hs => hi.step hc hlease hg.1 hg.2 hs) hinit hm hr
  have hbody : s.pc.body = true := by
    simp only [Admin.step] at hs
    split_ifs at hs with hb
    exact hb
  obtain ⟨e, he⟩ := isSome_iff_exists.1 (hi.owner hbody)
  exact ⟨e, he, (hi.latest (.inr hbody) e he).2⟩

end Admin

/-! ### A command that takes longer than its lease -/

/-- Two participants with the lease of `fsck`, five minutes. -/
def fsckHolders : Config Bool := { twoHolders with duration := fun _ => 300 }

/-- Nobody holds the lock, and `a` is about to run an admin command. -/
def idleAdmin : Admin Bool := ⟨emptyDirectory, .start⟩

/-- `a` acquires the lock and activates the storage; its closure waits for a compaction. -/
def longClosure : List (AdminAct Bool) :=
  .start :: List.replicate 6 (.lock (served true)) ++
  [.acquired, .storage, .finish true, .storage, .lock (.tick 500)]

/-- The lease is over after 300 seconds, and after 400 the closure makes its next storage step.  No other
participant was granted the lock, so no other process has opened the storage and fenced this one. -/
theorem admin_steps_fail_longClosure :
    ∃ s t, run (Admin.step fsckHolders true) idleAdmin longClosure = some s ∧
      s.step fsckHolders true .storage = some t ∧ s.lock.grants.length = 1 ∧
      ¬ HasLease fsckHolders s.lock true := by
  simp only [exists_and_left]
  decide

/-- `b`, whose clock is behind, claims an epoch and loses while the closure of `a` runs. -/
def shortClosure : List (AdminAct Bool) :=
  .start :: List.replicate 6 (.lock (served true)) ++
  [.acquired, .storage, .finish true, .storage, .lock (.acquire false)] ++
  List.replicate 9 (.lock (.request false .ok 0 0)) ++
  [.lock (.tick 300)]

theorem admin_steps_live_shortClosure :
    ∃ s t, run (Admin.step fsckHolders true) idleAdmin shortClosure = some s ∧
      s.step fsckHolders true .storage = some t ∧
      ∃ e, (s.lock.loc true).latest = some e ∧ Alive fsckHolders true s.lock e := by
  obtain ⟨s, hs, h⟩ : ∃ s, run (Admin.step fsckHolders true) idleAdmin shortClosure = some s ∧
      (s.step fsckHolders true .storage).isSome := by decide +kernel
  obtain ⟨t, ht⟩ := isSome_iff_exists.1 h
  refine ⟨s, t, hs, ht, ?_⟩
  refine admin_steps_live fsckHolders (by decide) (fun t => ⟨t + 300, rfl, Nat.lt_add_of_pos_right (by decide)⟩)
    ⟨fun _ => rfl, rfl⟩ rfl (fun _ _ h => by cases h) ?_ hs ht
  decide +kernel

end Bepository
