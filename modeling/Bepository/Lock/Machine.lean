import Mathlib.Logic.Function.Basic
import Bepository.Lib.Run
import Bepository.Lock.Acquire

/-!
# Participants of a lock, interleaved

Any number of participants share one lock directory.  A label lets one of them start a call, have
its next request served, or lose its call (the future is dropped, or the process dies), and lets
the store's clock advance.
-/

namespace Bepository.Lock

open Lib List Option Table

/-- A participant.  `latest` is the epoch of its latest `acquire` if that has returned `Owner` and
no `release` has returned since; `returned` is the same for the latest `acquire` that has returned
at all, so it stays while a renewal runs.  `before` are the epochs granted to anyone before its
current `acquire` started. -/
structure Local where
  phase : Phase
  latest : Option Epoch
  returned : Option Epoch
  before : List Epoch

def Local.start : Local := ⟨.idle, none, none, []⟩

/-- An `acquire` that returned `Owner epoch`, with the epochs granted before it started. -/
structure Grant where
  epoch : Epoch
  before : List Epoch

structure State (ι : Type*) where
  clock : Timestamp
  files : Files
  loc : ι → Local
  grants : List Grant

/-- Nobody has called anything; the directory may hold files of earlier processes. -/
def State.Initial {ι : Type*} (s : State ι) : Prop :=
  (∀ p, s.loc p = Local.start) ∧ s.grants = []

inductive Act (ι : Type*) where
  | tick (t : Timestamp)
  | acquire (p : ι)
  | release (p : ι)
  | breakLocks (p : ι)
  | request (p : ι) (r : Reply) (now : Timestamp) (i : ℕ)
  | cancel (p : ι)

def Local.after (l : Local) : Outcome → Local
  | .next ph => { l with phase := ph }
  | .acquired (.ok (.owner e)) => { l with phase := .idle, latest := some e, returned := some e }
  | .acquired _ => { l with phase := .idle, latest := none, returned := none }
  | .released true => { l with phase := .idle, latest := none, returned := none }
  | .released false => { l with phase := .idle }
  | .broken _ => { l with phase := .idle }

def grantsAfter (gs : List Grant) (before : List Epoch) : Outcome → List Grant
  | .acquired (.ok (.owner e)) => ⟨e, before⟩ :: gs
  | _ => gs

section Step

variable {ι : Type*} [DecidableEq ι]

def State.set (s : State ι) (p : ι) (l : Local) : State ι :=
  { s with loc := Function.update s.loc p l }

/-- The call of `p` starts, if it has none in flight. -/
def State.call (s : State ι) (p : ι) (l : Local) : Option (State ι) :=
  match (s.loc p).phase with
  | .idle => some (s.set p l)
  | _ => none

def step (c : Config ι) (s : State ι) : Act ι → Option (State ι)
  | .tick t => if s.clock ≤ t then some { s with clock := t } else none
  | .acquire p =>
    s.call p { s.loc p with
      phase := .ownerList, latest := none, before := s.grants.map Grant.epoch }
  | .release p => s.call p { s.loc p with phase := .releaseList }
  | .breakLocks p => s.call p { s.loc p with phase := .claimList .breakLocks }
  | .request p r now i =>
    (exec c p s.clock s.files r now i (s.loc p).phase).map fun (fs, out) =>
      { s.set p ((s.loc p).after out) with
        files := fs, grants := grantsAfter s.grants (s.loc p).before out }
  | .cancel p => some (s.set p { s.loc p with phase := .idle })

variable {s t : State ι} {p q : ι} {l : Local}

@[simp] lemma State.set_loc_self : (s.set p l).loc p = l := Function.update_self ..

@[simp] lemma State.set_loc_ne (h : q ≠ p) : (s.set p l).loc q = s.loc q :=
  Function.update_of_ne h ..

lemma State.call_eq_some : s.call p l = some t ↔ (s.loc p).phase = .idle ∧ t = s.set p l := by
  unfold State.call
  split
  · next h => simp [h, eq_comm]
  · next h => simpa using fun hi => absurd hi h

lemma State.set_forall {P : ι → Local → Prop} (hl : P p l) (h : ∀ q, q ≠ p → P q (s.loc q)) (q : ι) :
    P q ((s.set p l).loc q) := by
  by_cases hq : q = p
  · subst hq
    rwa [State.set_loc_self]
  · rw [State.set_loc_ne hq]
    exact h q hq

end Step

/-! ### What the store holds -/

section Files

variable {fs : Files} {e f v : Epoch} {m : ObjectMeta}

lemma mem_listEpochMetas :
    m ∈ listEpochMetas fs ↔ ∃ o, fs.lookup m.epoch = some o ∧ o.lastModified = m.lastModified := by
  unfold listEpochMetas
  rw [mem_insertionSort, List.mem_map]
  constructor
  · rintro ⟨⟨e, o⟩, h, rfl⟩
    exact ⟨o, Table.mem_toList.1 h, rfl⟩
  · rintro ⟨o, h, ht⟩
    refine ⟨(m.epoch, o), Table.mem_toList.2 h, ?_⟩
    rw [ht]

lemma mem_map_listEpochMetas : e ∈ (listEpochMetas fs).map ObjectMeta.epoch ↔ e ∈ fs := by
  rw [List.mem_map]
  constructor
  · rintro ⟨m, hm, rfl⟩
    obtain ⟨o, ho, -⟩ := mem_listEpochMetas.1 hm
    exact AList.lookup_isSome.1 (by rw [ho]; rfl)
  · intro h
    obtain ⟨o, ho⟩ := isSome_iff_exists.1 (AList.lookup_isSome.2 h)
    exact ⟨⟨e, o.lastModified⟩, mem_listEpochMetas.2 ⟨o, ho, rfl⟩, rfl⟩

lemma lt_nextVal (h : e ∈ fs) : e.val < nextVal (listEpochMetas fs) := by
  have hmem := mem_map_listEpochMetas.2 h
  unfold nextVal
  cases hmax : ((listEpochMetas fs).map ObjectMeta.epoch).max? with
  | none =>
    rw [max?_eq_none_iff] at hmax
    rw [hmax] at hmem
    cases hmem
  | some =>
    have hle := (max?_eq_some_iff.1 hmax).2 e hmem
    exact Nat.lt_succ_of_le (Epoch.le_iff.1 hle)

lemma readEntry_none {r : Reply} (h : readEntry fs r e = .ok none) : e ∉ fs := by
  unfold readEntry at h
  split at h
  · cases h
  · split at h
    · next hl => exact AList.lookup_eq_none.1 hl
    · split at h <;> cases h

lemma readEntry_some {r : Reply} {f : EpochFile} (h : readEntry fs r e = .ok (some f)) :
    ∃ o, fs.lookup e = some o ∧ o.content = some f := by
  unfold readEntry at h
  split at h
  · cases h
  · split at h
    · cases h
    · next o ho =>
      split at h
      · cases h
      · next g hg =>
        cases h
        exact ⟨o, ho, hg⟩

lemma releaseOne_cases {ι : Type*} {c : Config ι} {p : ι} {fs' : Files} {r : Reply} {i : ℕ} {todo : List ObjectMeta}
    {own : List Epoch} {out : Outcome} (h : releaseOne c p fs r i todo own = some (fs', out)) :
    (∃ v, own[i]? = some v ∧ fs' = delete fs r v ∧ out = releaseNext todo (own.eraseIdx i)) ∨
    fs' = fs ∧ (out = .released false ∨ ∃ m own', todo[i - own.length]? = some m ∧
      out = releaseNext (todo.eraseIdx (i - own.length)) own' ∧
      (own' = own ∧ (∀ o f, fs.lookup m.epoch = some o → o.content = some f → f.holder ≠ c.holder p) ∨
        own' = own ++ [m.epoch] ∧
          ∀ o f, fs.lookup m.epoch = some o → o.content = some f → f.holder = c.holder p)) := by
  unfold releaseOne at h
  split_ifs at h
  · obtain ⟨v, hv, he⟩ := map_eq_some_iff.1 h
    cases he
    exact .inl ⟨v, hv, rfl, rfl⟩
  · obtain ⟨m, hm, he⟩ := map_eq_some_iff.1 h
    split at he
    · cases he
      exact .inr ⟨rfl, .inl rfl⟩
    · next hg =>
      cases he
      refine .inr ⟨rfl, .inr ⟨m, own, hm, rfl, .inl ⟨rfl, fun o f ho => ?_⟩⟩⟩
      exact absurd (AList.lookup_isSome.1 (by rw [ho]; rfl)) (readEntry_none hg)
    · next g hg =>
      obtain ⟨o, ho, hf⟩ := readEntry_some hg
      have hsame : ∀ o' f', fs.lookup m.epoch = some o' → o'.content = some f' → f' = g := by
        intro o' f' ho' hf'
        rw [ho] at ho'
        cases ho'
        exact Option.some.inj (hf'.symm.trans hf)
      split_ifs at he with hh <;> cases he
      · exact .inr ⟨rfl, .inr ⟨m, _, hm, rfl, .inr ⟨rfl, fun o' f' ho' hf' => hsame o' f' ho' hf' ▸ hh⟩⟩⟩
      · exact .inr ⟨rfl, .inr ⟨m, _, hm, rfl, .inl ⟨rfl, fun o' f' ho' hf' => hsame o' f' ho' hf' ▸ hh⟩⟩⟩

lemma lookup_delete {r : Reply} {o : Object} (h : (delete fs r v).lookup e = some o) :
    fs.lookup e = some o := by
  unfold delete at h
  split at h
  · exact h
  · exact lookup_of_erase h

end Files

/-! ### Two participants -/

def twoHolders : Config Bool where
  holder b := if b then ['a'] else ['b']
  priority _ := 0
  duration _ := 60
  expiry t d := some (t + d)

def emptyDirectory : State Bool := ⟨100, ∅, fun _ => Local.start, []⟩

def served (p : Bool) : Act Bool := .request p .ok 100 0

end Bepository.Lock
