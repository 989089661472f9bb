import Bepository.Lib.Run
import Bepository.Lib.Table

/-!
# The registry of connections (`bepository-bep/src/engine.rs`)

`start_connection` registers a connection under its device, cancels the one it displaces and hands the task
to the supervisor; the supervisor spawns the tasks, and removes an entry once its task has ended.  All of
them run in different tasks.  Whatever is done under one lock of the map is one step here: the insertion
with the cancellation of the displaced entry, each removal with its identity check, and `shutdown_all`.
When the spawn channel refuses a connection and which of the waiting ones the supervisor takes is left open.

An entry is known by the number of its connection, which stands for the identity of its `Arc`.
-/

namespace Bepository.Registry

open Lib List Option Table

inductive Phase where
  /-- registered, not yet handed to the supervisor -/
  | starting
  /-- refused by the spawn channel, its registration still to be undone -/
  | refused
  /-- in the spawn channel -/
  | queued
  | running (task : ℕ)
  /-- the task has returned or panicked and is still in the `JoinSet` -/
  | ended (task : ℕ) (panicked : Bool)
  /-- taken out of the `JoinSet`, its entry still to be removed -/
  | joined
  deriving DecidableEq

structure Connection (δ : Type) where
  device : δ
  phase : Phase
  deriving DecidableEq

/-- The engine and its supervisor.  `cancelled` are the connections whose token is cancelled, `reaping` is
the registration that the supervisor is about to remove. -/
structure Engine (δ : Type) where
  connections : Table δ ℕ
  live : Table ℕ (Connection δ)
  cancelled : List ℕ
  byId : Table ℕ (δ × ℕ)
  reaping : Option (δ × ℕ)
  next : ℕ

inductive Act (δ : Type) where
  | start (device : δ)
  | enqueue (c : ℕ)
  | refuse (c : ℕ)
  | undo (c : ℕ)
  | spawn (c : ℕ) (task : ℕ)
  | finish (c : ℕ) (panicked : Bool)
  | join (c : ℕ)
  | unregister
  /-- the owner of the handle, or the connection itself, cancels the token -/
  | cancel (c : ℕ)
  | shutdownAll

variable {δ : Type} [DecidableEq δ]

namespace Engine

def init : Engine δ := ⟨∅, ∅, [], ∅, none, 0⟩

/-- Remove the entry of a device if it is still this connection (`Arc::ptr_eq`). -/
def removeEntry (e : Engine δ) (device : δ) (c : ℕ) : Table δ ℕ :=
  if e.connections.lookup device = some c then e.connections.erase device else e.connections

def setPhase (e : Engine δ) (c : ℕ) (k : Connection δ) (phase : Phase) : Engine δ :=
  { e with live := e.live.insert c { k with phase := phase } }

def forget (e : Engine δ) (device : δ) (c : ℕ) : Engine δ :=
  { e with connections := e.removeEntry device c, live := e.live.erase c }

/-- `start_connection`, up to the registration. -/
def start (e : Engine δ) (device : δ) : Engine δ :=
  { e with
    connections := e.connections.insert device e.next
    live := e.live.insert e.next ⟨device, .starting⟩
    cancelled := (e.connections.lookup device).toList ++ e.cancelled
    next := e.next + 1 }

/-- The supervisor takes an ended task out of the `JoinSet`.  A task that panicked has no output; its
registration is looked up by the id of the task. -/
def join (e : Engine δ) (c : ℕ) (k : Connection δ) (task : ℕ) (panicked : Bool) : Engine δ :=
  let registration := if panicked then e.byId.lookup task else some (k.device, c)
  match registration with
  | none => { e with live := e.live.erase c }
  | some reg => { e.setPhase c k .joined with byId := e.byId.erase task, reaping := some reg }

def step (e : Engine δ) : Act δ → Option (Engine δ)
  | .start device => some (e.start device)
  | .enqueue c =>
    (e.live.lookup c).bind fun k => if k.phase = .starting then some (e.setPhase c k .queued) else none
  | .refuse c =>
    (e.live.lookup c).bind fun k => if k.phase = .starting then some (e.setPhase c k .refused) else none
  | .undo c =>
    (e.live.lookup c).bind fun k => if k.phase = .refused then some (e.forget k.device c) else none
  | .spawn c task =>
    (e.live.lookup c).bind fun k =>
      -- ids are unique among the tasks of the `JoinSet`
      if k.phase = .queued ∧ e.reaping = none ∧ e.byId.lookup task = none then
        some { e.setPhase c k (.running task) with byId := e.byId.insert task (k.device, c) }
      else none
  | .finish c panicked =>
    (e.live.lookup c).bind fun k =>
      match k.phase with
      | .running task => some (e.setPhase c k (.ended task panicked))
      | _ => none
  | .join c =>
    (e.live.lookup c).bind fun k =>
      match k.phase, e.reaping with
      | .ended task panicked, none => some (e.join c k task panicked)
      | _, _ => none
  | .unregister => e.reaping.map fun reg => { e.forget reg.1 reg.2 with reaping := none }
  | .cancel c => some { e with cancelled := c :: e.cancelled }
  | .shutdownAll => some { e with cancelled := e.connections.toList.map Prod.snd ++ e.cancelled }

end Engine

/-! ### What a step does -/

section Steps

variable {e e' : Engine δ} {c c' : ℕ} {d d' : δ} {k : Connection δ}

/-- The task of a connection that the `JoinSet` holds. -/
def Phase.task : Phase → Option ℕ
  | .running task => some task
  | .ended task _ => some task
  | _ => none

/-- The supervisor's books: every task of the `JoinSet` is in `by_id`, and the registration about to be
removed is the one of a connection whose task has been joined. -/
structure Kept (e : Engine δ) : Prop where
  task : ∀ c k t, e.live.lookup c = some k → k.phase.task = some t → e.byId.lookup t = some (k.device, c)
  reaping : ∀ d c, e.reaping = some (d, c) → ∃ k, e.live.lookup c = some k ∧ k.device = d ∧ k.phase = .joined
  bound : ∀ c k, e.live.lookup c = some k → c < e.next

/-- The ways in which a step changes the registry. -/
inductive Moves (e : Engine δ) : Engine δ → Prop where
  | start d : Moves e (e.start d)
  | phase c (k : Connection δ) phase (byId : Table ℕ (δ × ℕ)) reaping (h : e.live.lookup c = some k) :
      Moves e { e.setPhase c k phase with byId := byId, reaping := reaping }
  | forget c (k : Connection δ) reaping (h : e.live.lookup c = some k) :
      Moves e { e.forget k.device c with reaping := reaping }
  | cancel l : Moves e { e with cancelled := l ++ e.cancelled }

lemma lookup_removeEntry :
    (e.removeEntry d c).lookup d' = if d' = d ∧ e.connections.lookup d = some c then none
      else e.connections.lookup d' := by
  unfold Engine.removeEntry
  by_cases h : e.connections.lookup d = some c
  · rw [if_pos h, lookup_erase']
    simp [h]
  · rw [if_neg h]
    simp [h]

lemma forget_keeps (hne : c' ≠ c) (h : e.connections.lookup d' = some c') :
    (e.forget d c).connections.lookup d' = some c' := by
  simp only [Engine.forget]
  rw [lookup_removeEntry, if_neg, h]
  rintro ⟨rfl, hown⟩
  rw [h] at hown
  exact hne (some_inj.1 hown)

lemma step_moves {a : Act δ} (h : Kept e) (hs : e.step a = some e') : Moves e e' := by
  cases a with
  | start d =>
    cases hs
    exact .start d
  | enqueue c | refuse c =>
    obtain ⟨k, hk, hs⟩ := bind_eq_some_iff.1 hs
    split_ifs at hs
    cases hs
    exact .phase c k _ e.byId e.reaping hk
  | undo c =>
    obtain ⟨k, hk, hs⟩ := bind_eq_some_iff.1 hs
    split_ifs at hs
    cases hs
    exact .forget c k e.reaping hk
  | spawn c =>
    obtain ⟨k, hk, hs⟩ := bind_eq_some_iff.1 hs
    split_ifs at hs
    cases hs
    exact .phase c k _ _ e.reaping hk
  | finish c =>
    obtain ⟨k, hk, hs⟩ := bind_eq_some_iff.1 hs
    split at hs
    · cases hs
      exact .phase c k _ e.byId e.reaping hk
    · cases hs
  | join c =>
    obtain ⟨k, hk, hs⟩ := bind_eq_some_iff.1 hs
    split at hs
    · next task panicked hphase _ =>
      cases hs
      have hreg : (if panicked then e.byId.lookup task else some (k.device, c)) = some (k.device, c) := by
        split_ifs
        · exact h.task c k task hk (by rw [hphase]; rfl)
        · rfl
      unfold Engine.join
      simp only [hreg]
      exact .phase c k _ _ _ hk
    · cases hs
  | unregister =>
    obtain ⟨⟨d, c⟩, hreg, rfl⟩ := map_eq_some_iff.1 hs
    obtain ⟨k, hk, rfl, -⟩ := h.reaping d c hreg
    exact .forget c k none hk
  | cancel c =>
    cases hs
    exact .cancel [c]
  | shutdownAll =>
    cases hs
    exact .cancel _

/-! ### The invariants -/

/-- A connection whose token is not cancelled is the registered one of its device, and every entry belongs
to a connection that is still there. -/
structure Registered (e : Engine δ) : Prop where
  uncancelled : ∀ c k, e.live.lookup c = some k → c ∉ e.cancelled → e.connections.lookup k.device = some c
  entry : ∀ d c, e.connections.lookup d = some c → ∃ k, e.live.lookup c = some k ∧ k.device = d

lemma Registered.start (h : Registered e) (hb : ∀ c k, e.live.lookup c = some k → c < e.next) (d : δ) :
    Registered (e.start d) := by
  have hfresh : e.live.lookup e.next = none := by
    cases hl : e.live.lookup e.next with
    | none => rfl
    | some k => exact absurd (hb _ k hl) (lt_irrefl _)
  constructor
  · intro c k hk hc
    simp only [Engine.start, mem_append, Option.mem_toList, not_or] at hk hc ⊢
    rw [lookup_insert'] at hk ⊢
    split_ifs at hk with hn
    · cases hk
      rw [if_pos rfl, hn]
    · have hold := h.uncancelled c k hk hc.2
      -- the displaced entry is cancelled, so this one is registered elsewhere
      rw [if_neg, hold]
      rintro rfl
      exact hc.1 hold
  · intro d' c hd
    simp only [Engine.start] at hd ⊢
    rw [lookup_insert'] at hd
    split_ifs at hd with hdd
    · cases hd
      rw [AList.lookup_insert]
      exact ⟨_, rfl, hdd.symm⟩
    · obtain ⟨k, hk, hdev⟩ := h.entry d' c hd
      refine ⟨k, ?_, hdev⟩
      rw [lookup_insert', if_neg, hk]
      rintro rfl
      rw [hfresh] at hk
      cases hk

lemma Registered.phase {phase : Phase} {byId : Table ℕ (δ × ℕ)} {reaping : Option (δ × ℕ)} (h : Registered e)
    (hk : e.live.lookup c = some k) :
    Registered { e.setPhase c k phase with byId := byId, reaping := reaping } := by
  constructor
  · intro c' k' hk' hc'
    simp only [Engine.setPhase] at hk' hc' ⊢
    rw [lookup_insert'] at hk'
    split_ifs at hk' with hcc
    · cases hk'
      rw [hcc] at hc' ⊢
      exact h.uncancelled c k hk hc'
    · exact h.uncancelled c' k' hk' hc'
  · intro d c' hd
    obtain ⟨k', hk', hdev⟩ := h.entry d c' hd
    simp only [Engine.setPhase]
    rw [lookup_insert']
    by_cases hcc : c' = c
    · subst hcc
      rw [hk] at hk'
      cases hk'
      exact ⟨_, if_pos rfl, hdev⟩
    · exact ⟨k', by rw [if_neg hcc, hk'], hdev⟩

lemma Registered.forget {reaping : Option (δ × ℕ)} (h : Registered e) (hk : e.live.lookup c = some k) :
    Registered { e.forget k.device c with reaping := reaping } := by
  constructor
  · intro c' k' hk' hc'
    simp only [Engine.forget] at hk' hc' ⊢
    rw [lookup_erase'] at hk'
    split_ifs at hk' with hcc
    have hreg := h.uncancelled c' k' hk' hc'
    rw [lookup_removeEntry, if_neg, hreg]
    rintro ⟨hdd, hown⟩
    rw [hdd, hown] at hreg
    exact hcc (some_inj.1 hreg).symm
  · intro d c' hd
    simp only [Engine.forget] at hd ⊢
    rw [lookup_removeEntry] at hd
    split_ifs at hd with hown
    obtain ⟨k', hk', hdev⟩ := h.entry d c' hd
    refine ⟨k', ?_, hdev⟩
    rw [lookup_erase', if_neg, hk']
    rintro rfl
    -- the entry of the connection that goes would still be there
    rw [hk] at hk'
    cases hk'
    exact hown ⟨hdev.symm, hdev ▸ hd⟩

lemma Registered.moves (h : Registered e) (hb : ∀ c k, e.live.lookup c = some k → c < e.next)
    (hm : Moves e e') : Registered e' := by
  cases hm with
  | start d => exact h.start hb d
  | phase c k phase byId reaping hk => exact h.phase hk
  | forget c k reaping hk => exact h.forget hk
  | cancel =>
    refine ⟨fun c k hk hc => h.uncancelled c k hk fun hm => hc (mem_append_right _ hm), h.entry⟩

omit [DecidableEq δ] in
lemma Kept.setPhase {phase : Phase} (byId : Table ℕ (δ × ℕ)) (reaping : Option (δ × ℕ)) (h : Kept e)
    (hk : e.live.lookup c = some k) (hown : ∀ t, phase.task = some t → byId.lookup t = some (k.device, c))
    (hothers : ∀ c' k' t, c' ≠ c → e.live.lookup c' = some k' → k'.phase.task = some t →
      byId.lookup t = some (k'.device, c'))
    (hreap : ∀ d c', reaping = some (d, c') →
      (c' = c ∧ k.device = d ∧ phase = .joined) ∨ (c' ≠ c ∧ e.reaping = some (d, c'))) :
    Kept { e.setPhase c k phase with byId := byId, reaping := reaping } where
  task c' k' t hk' ht := by
    simp only [Engine.setPhase] at hk' ⊢
    rw [lookup_insert'] at hk'
    split_ifs at hk' with hcc
    · cases hk'
      rw [hcc]
      exact hown t ht
    · exact hothers c' k' t hcc hk' ht
  reaping d c' hr := by
    simp only [Engine.setPhase] at hr ⊢
    rw [lookup_insert']
    rcases hreap d c' hr with ⟨hcc, hd, hp⟩ | ⟨hcc, hr⟩
    · exact ⟨_, if_pos hcc, hd, hp⟩
    · obtain ⟨k', hk', hd, hp⟩ := h.reaping d c' hr
      exact ⟨k', by rw [if_neg hcc, hk'], hd, hp⟩
  bound c' k' hk' := by
    simp only [Engine.setPhase] at hk' ⊢
    rw [lookup_insert'] at hk'
    split_ifs at hk' with hcc
    · rw [hcc]
      exact h.bound c k hk
    · exact h.bound c' k' hk'

omit [DecidableEq δ] in
lemma Kept.reaping_ne (h : Kept e) (hk : e.live.lookup c = some k) (hp : k.phase ≠ .joined)
    (hr : e.reaping = some (d, c')) : c' ≠ c := by
  rintro rfl
  obtain ⟨k', hk', -, hj⟩ := h.reaping d c' hr
  rw [hk] at hk'
  cases hk'
  exact hp hj

lemma Kept.forget (reaping : Option (δ × ℕ)) (h : Kept e)
    (hreap : ∀ d' c', reaping = some (d', c') → c' ≠ c ∧ e.reaping = some (d', c')) :
    Kept { e.forget d c with reaping := reaping } where
  task c' k' t hk' ht := h.task c' k' t (lookup_of_erase hk') ht
  reaping d' c' hr := by
    obtain ⟨hcc, hr⟩ := hreap d' c' hr
    obtain ⟨k', hk', hd, hp⟩ := h.reaping d' c' hr
    refine ⟨k', ?_, hd, hp⟩
    simp only [Engine.forget]
    rw [lookup_erase', if_neg hcc, hk']
  bound c' k' hk' := h.bound c' k' (lookup_of_erase hk')

omit [DecidableEq δ] in
lemma Kept.changePhase {phase : Phase} (h : Kept e) (hk : e.live.lookup c = some k) (hp : k.phase ≠ .joined)
    (hown : phase.task = none ∨ phase.task = k.phase.task) : Kept (e.setPhase c k phase) := by
  refine Kept.setPhase e.byId e.reaping h hk ?_ ?_ ?_
  · intro t ht
    rcases hown with hn | hn
    · rw [hn] at ht
      cases ht
    · exact h.task c k t hk (hn ▸ ht)
  · intro c' k' t _ hk' ht
    exact h.task c' k' t hk' ht
  · intro d c' hr
    exact .inr ⟨h.reaping_ne hk hp hr, hr⟩

lemma Kept.start (h : Kept e) (d : δ) : Kept (e.start d) := by
  have hne : ∀ c k, e.live.lookup c = some k → c ≠ e.next := fun c k hk => ne_of_lt (h.bound c k hk)
  constructor
  · intro c k t hk ht
    simp only [Engine.start] at hk ⊢
    rw [lookup_insert'] at hk
    split_ifs at hk
    · cases hk
      cases ht
    · exact h.task c k t hk ht
  · intro d' c hr
    obtain ⟨k, hk, hd, hp⟩ := h.reaping d' c hr
    refine ⟨k, ?_, hd, hp⟩
    simp only [Engine.start]
    rw [lookup_insert', if_neg (hne c k hk), hk]
  · intro c k hk
    simp only [Engine.start] at hk ⊢
    rw [lookup_insert'] at hk
    split_ifs at hk with hc
    · omega
    · have := h.bound c k hk
      omega

omit [DecidableEq δ] in
lemma Kept.spawn {task : ℕ} (h : Kept e) (hk : e.live.lookup c = some k) (hr : e.reaping = none)
    (hfree : e.byId.lookup task = none) :
    Kept { e.setPhase c k (.running task) with byId := e.byId.insert task (k.device, c) } := by
  refine Kept.setPhase _ e.reaping h hk ?_ ?_ ?_
  · intro t ht
    cases ht
    exact AList.lookup_insert _
  · intro c' k' t _ hk' ht
    have hold := h.task c' k' t hk' ht
    rw [lookup_insert', if_neg, hold]
    rintro rfl
    rw [hfree] at hold
    cases hold
  · intro d c' hr'
    rw [hr] at hr'
    cases hr'

omit [DecidableEq δ] in
lemma Kept.join {task : ℕ} {panicked : Bool} (h : Kept e) (hk : e.live.lookup c = some k)
    (hphase : k.phase = .ended task panicked) : Kept (e.join c k task panicked) := by
  have htask : e.byId.lookup task = some (k.device, c) := h.task c k task hk (by rw [hphase]; rfl)
  have hreg : (if panicked then e.byId.lookup task else some (k.device, c)) = some (k.device, c) := by
    rw [htask, ite_self]
  unfold Engine.join
  simp only [hreg]
  refine Kept.setPhase _ _ h hk ?_ ?_ ?_
  · intro t ht
    cases ht
  · intro c' k' t hcc hk' ht
    have hold := h.task c' k' t hk' ht
    rw [lookup_erase', if_neg, hold]
    rintro rfl
    rw [htask, some_inj, Prod.mk.injEq] at hold
    exact hcc hold.2.symm
  · intro d c' hr
    cases hr
    exact .inl ⟨rfl, rfl, rfl⟩

theorem Kept.step {a : Act δ} (h : Kept e) (hs : e.step a = some e') : Kept e' := by
  cases a with
  | start d =>
    cases hs
    exact h.start d
  | enqueue | refuse =>
    obtain ⟨k, hk, hs⟩ := bind_eq_some_iff.1 hs
    split_ifs at hs with hp
    cases hs
    exact h.changePhase hk (by rw [hp]; simp) (.inl rfl)
  | undo =>
    obtain ⟨k, hk, hs⟩ := bind_eq_some_iff.1 hs
    split_ifs at hs with hp
    cases hs
    refine Kept.forget e.reaping h fun d' c' hr => ⟨?_, hr⟩
    exact h.reaping_ne hk (by rw [hp]; simp) hr
  | spawn =>
    obtain ⟨k, hk, hs⟩ := bind_eq_some_iff.1 hs
    split_ifs at hs with hp
    cases hs
    exact h.spawn hk hp.2.1 hp.2.2
  | finish =>
    obtain ⟨k, hk, hs⟩ := bind_eq_some_iff.1 hs
    split at hs
    · next task hp =>
      cases hs
      exact h.changePhase hk (by rw [hp]; simp) (.inr (by rw [hp]; rfl))
    · cases hs
  | join =>
    obtain ⟨k, hk, hs⟩ := bind_eq_some_iff.1 hs
    split at hs
    · next task panicked hphase _ =>
      cases hs
      exact h.join hk hphase
    · cases hs
  | unregister =>
    obtain ⟨⟨d, c⟩, -, rfl⟩ := map_eq_some_iff.1 hs
    exact Kept.forget none h fun d' c' hr => by cases hr
  | cancel | shutdownAll =>
    cases hs
    exact ⟨h.task, h.reaping, h.bound⟩

def Swept (n : ℕ) (e : Engine δ) : Prop :=
  n ≤ e.next ∧ ∀ c k, c < n → e.live.lookup c = some k → c ∈ e.cancelled

lemma Swept.moves {n : ℕ} (h : Swept n e) (hm : Moves e e') : Swept n e' := by
  cases hm with
  | start =>
    refine ⟨Nat.le_succ_of_le h.1, fun c k hc hk => ?_⟩
    simp only [Engine.start] at hk ⊢
    have hn := h.1
    rw [lookup_insert', if_neg (by omega)] at hk
    exact mem_append_right _ (h.2 c k hc hk)
  | phase c k phase byId reaping hk =>
    refine ⟨h.1, fun c' k' hc hk' => ?_⟩
    simp only [Engine.setPhase] at hk' ⊢
    rw [lookup_insert'] at hk'
    split_ifs at hk' with hcc
    · rw [hcc] at hc ⊢
      exact h.2 c k hc hk
    · exact h.2 c' k' hc hk'
  | forget => exact ⟨h.1, fun c' k' hc hk' => h.2 c' k' hc (lookup_of_erase hk')⟩
  | cancel => exact ⟨h.1, fun c' k' hc hk' => mem_append_right _ (h.2 c' k' hc hk')⟩

end Steps

/-! ### The registry over whole runs -/

section Runs

variable {e : Engine δ} {acts : List (Act δ)}

lemma init_registered : Kept (Engine.init : Engine δ) ∧ Registered (Engine.init : Engine δ) := by
  refine ⟨⟨?_, ?_, ?_⟩, ⟨?_, ?_⟩⟩
  · intro c k t hk
    cases hk
  · intro d c hr
    cases hr
  · intro c k hk
    cases hk
  · intro c k hk
    cases hk
  · intro d c hc
    cases hc

lemma run_registered {e₀ : Engine δ} (h : Kept e₀ ∧ Registered e₀) (hr : run Engine.step e₀ acts = some e) :
    Kept e ∧ Registered e := by
  refine run_keeps (P := fun e => Kept e ∧ Registered e) ?_ h hr
  rintro s a t ⟨hk, hreg⟩ hs
  exact ⟨hk.step hs, hreg.moves hk.bound (step_moves hk hs)⟩

lemma run_swept {e₀ : Engine δ} {n : ℕ} (hk : Kept e₀) (h : Swept n e₀)
    (hr : run Engine.step e₀ acts = some e) : Swept n e := by
  have hboth : Kept e ∧ Swept n e := by
    refine run_keeps (P := fun e => Kept e ∧ Swept n e) ?_ ⟨hk, h⟩ hr
    rintro s a t ⟨hk, hsw⟩ hs
    exact ⟨hk.step hs, hsw.moves (step_moves hk hs)⟩
  exact hboth.2

/-- **The registry of connections**, after any interleaving of starts, refusals, ends, panics, reaping,
cancellations and shutdowns. -/
theorem registry_sound (hr : run Engine.step (Engine.init : Engine δ) acts = some e) :
    -- at most one connection of a device is not cancelled, and it is the registered one
    (∀ c c' k k', e.live.lookup c = some k → e.live.lookup c' = some k' → k.device = k'.device →
      c ∉ e.cancelled → c' ∉ e.cancelled → c = c' ∧ e.connections.lookup k.device = some c) ∧
    -- a shutdown cancels every connection registered before it, for good
    (∀ more e' e'', e.step .shutdownAll = some e' → run Engine.step e' more = some e'' →
      ∀ c k, c < e.next → e''.live.lookup c = some k → c ∈ e''.cancelled) ∧
    -- a connection that is refused or reaped is gone, and does not remove the entry of another one
    (∀ c e', (e.step (.undo c) = some e' ∨ (∃ d, e.reaping = some (d, c)) ∧ e.step .unregister = some e') →
      e'.live.lookup c = none ∧
        ∀ d c', c' ≠ c → e.connections.lookup d = some c' → e'.connections.lookup d = some c') ∧
    -- a device without connections has no entry
    (∀ d, (∀ c k, e.live.lookup c = some k → k.device ≠ d) → e.connections.lookup d = none) := by
  obtain ⟨hkept, hreg⟩ := run_registered init_registered hr
  refine ⟨?_, ?_, ?_, ?_⟩
  · intro c c' k k' hk hk' hd hc hc'
    have h := hreg.uncancelled c k hk hc
    have h' := hreg.uncancelled c' k' hk' hc'
    rw [← hd, h, some_inj] at h'
    exact ⟨h', h⟩
  · intro more e' e'' hs hmore c k hc hk
    have hkept' := hkept.step hs
    have hswept : Swept e.next e' := by
      cases hs
      refine ⟨le_rfl, fun c k _ hk => ?_⟩
      rw [mem_append, or_iff_not_imp_right]
      intro hnot
      exact List.mem_map.2 ⟨_, Table.mem_toList.2 (hreg.uncancelled c k hk hnot), rfl⟩
    exact (run_swept hkept' hswept hmore).2 c k hc hk
  · rintro c e' (hs | ⟨⟨d, hreap⟩, hs⟩)
    · obtain ⟨k, hk, hs⟩ := bind_eq_some_iff.1 hs
      split_ifs at hs
      cases hs
      exact ⟨AList.lookup_erase c _, fun d' c' => forget_keeps⟩
    · obtain ⟨⟨d, c⟩, hreap', rfl⟩ := map_eq_some_iff.1 hs
      rw [hreap] at hreap'
      cases hreap'
      exact ⟨AList.lookup_erase c _, fun d' c' => forget_keeps⟩
  · intro d hnone
    cases hd : e.connections.lookup d with
    | none => rfl
    | some c =>
      obtain ⟨k, hk, hdev⟩ := hreg.entry d c hd
      exact absurd hdev (hnone c k hk)

/-- A connection is displaced by a second one, its task panics and is about to be reaped. -/
def displaced : List (Act ℕ) :=
  [.start 7, .enqueue 0, .spawn 0 3, .start 7, .enqueue 1, .finish 0 true, .join 0]

/-- The second connection ends as well, and a third one is refused. -/
def reaped : List (Act ℕ) :=
  [.spawn 1 4, .start 7, .refuse 2, .finish 1 false, .join 1, .unregister, .undo 2]

/-- The panicked connection does not take the entry of the newer one with it; with the last connection of
the device its entry is gone. -/
theorem registry_sound_displaced : ∃ e e₁ e₂, run Engine.step Engine.init displaced = some e ∧
    e.step .unregister = some e₁ ∧ e₁.live.lookup 0 = none ∧ e₁.connections.lookup 7 = some 1 ∧
    run Engine.step e₁ reaped = some e₂ ∧ e₂.connections.lookup 7 = none := by
  obtain ⟨e, he, hreap, hentry, e₁, hs, e₂, hr, hnone⟩ : ∃ e, run Engine.step Engine.init displaced = some e ∧
      e.reaping = some (7, 0) ∧ e.connections.lookup 7 = some 1 ∧ ∃ e₁, e.step .unregister = some e₁ ∧
      ∃ e₂, run Engine.step e₁ reaped = some e₂ ∧ e₂.live.entries.isEmpty := by decide
  obtain ⟨hgone, hkeeps⟩ := (registry_sound he).2.2.1 0 e₁ (.inr ⟨⟨7, hreap⟩, hs⟩)
  refine ⟨e, e₁, e₂, he, hs, hgone, hkeeps 7 1 (by decide) hentry, hr, ?_⟩
  have hall : run Engine.step Engine.init (displaced ++ .unregister :: reaped) = some e₂ := by
    rw [run_append, he]
    exact run_cons_eq_some.2 ⟨e₁, hs, hr⟩
  refine (registry_sound hall).2.2.2 7 fun c k hk => ?_
  rw [AList.lookup, List.isEmpty_iff.1 hnone] at hk
  cases hk

end Runs

end Bepository.Registry
