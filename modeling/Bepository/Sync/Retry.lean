import Bepository.Sync.Connection

/-!
# Storage calls that are made again (`bepository-bep/src/retry.rs`)

`retry_storage_op` makes a storage call again when it reports `TransientIo`.  The report may come before the
call has taken effect or after it, and between two attempts the other loop can run.  A call of the storage
begins anew at each attempt: `apply_update` reads the entry again, `resolve_conflict` commits the copy again.
How often a call is made is left open; a call that is given up fails its loop.
-/

namespace Bepository.Sync

open Lib Storage Option

/-- Where the storage call of the index loop begins; `none` outside a call.  `resolving` is where
`resolve_conflict` began, and `broken` says that `request_blocks` will leave its loop. -/
def IndexPc.restart (resolving : IndexPc) (broken : Bool) : IndexPc → Option IndexPc
  | .apply (file :: todo) needed => some (.apply (file :: todo) needed)
  | .perform file _ todo needed => some (.apply (file :: todo) needed)
  | .copy .. => some resolving
  | .winner .. => some resolving
  | .request file (block :: blocks) needed =>
    if broken then none else some (.request file (block :: blocks) needed)
  | .complete file needed => some (.complete file needed)
  | .record => some .record
  | _ => none

def MsgPc.calls : MsgPc → Bool
  | .store .. => true
  | .reuse .. => true
  | .complete .. => true
  | _ => false

/-- A connection whose storage calls can be made again.  The index loop may be between two attempts of a
call. -/
structure Session where
  conn : Conn
  resolving : IndexPc
  retrying : Bool

deriving instance DecidableEq for Act

inductive SessionAct where
  | act (a : Act)
  /-- the storage call of a loop reports `TransientIo`, after its effect or before, and is made again -/
  | retryIndex (late : Bool)
  | retryMsg (late : Bool)
  deriving DecidableEq

namespace Session

def connect (st : Store) : Session := ⟨Conn.connect st, .idle, false⟩

section Steps

variable (cfg : Config)

/-- One step of the index loop.  Only the first attempt of a call comes after the look at the shutdown
token. -/
def indexStep (s : Session) : Option Conn :=
  if s.retrying then
    (Conn.indexStep cfg { s.conn with shutdown := false }).map fun c =>
      { c with shutdown := s.conn.shutdown || c.shutdown }
  else s.conn.indexStep cfg

def restart (s : Session) (store : Store) : Option Session :=
  (IndexPc.restart s.resolving (s.conn.shutdown && !s.retrying) s.conn.index).map fun pc =>
    { s with conn := { s.conn with store := store, index := pc }, retrying := true }

def step (s : Session) : SessionAct → Option Session
  | .act .indexStep => (s.indexStep cfg).map fun c => { s with conn := c, retrying := false }
  | .act (.resolve remoteWins loserPath) =>
    (s.conn.resolve remoteWins loserPath).map fun c => ⟨c, c.index, false⟩
  | .act .reconnect => some (connect s.conn.store)
  | .act a => (s.conn.step cfg a).map fun c => { s with conn := c }
  | .retryIndex false => s.restart s.conn.store
  | .retryIndex true =>
    (s.indexStep cfg).bind fun c => if c.index = .stopped then none else s.restart c.store
  | .retryMsg false => if s.conn.msg.calls then some s else none
  | .retryMsg true =>
    if s.conn.msg.calls then
      (s.conn.msgStep cfg).bind fun c =>
        if c.msg = .stopped then none else some { s with conn := { s.conn with store := c.store } }
    else none

end Steps

/-! ### What a step is -/

lemma indexStep_eq_some {cfg : Config} {s : Session} {c : Conn} (h : s.indexStep cfg = some c) :
    ∃ seen left c₁, Conn.indexStep cfg { s.conn with shutdown := seen } = some c₁ ∧
      c = { c₁ with shutdown := left } ∧ (s.conn.shutdown = false → seen = false ∧ left = c₁.shutdown) := by
  unfold indexStep at h
  split_ifs at h
  · obtain ⟨c₁, hc, rfl⟩ := map_eq_some_iff.1 h
    exact ⟨false, _, c₁, hc, rfl, fun hup => ⟨rfl, by rw [hup, Bool.false_or]⟩⟩
  · exact ⟨s.conn.shutdown, c.shutdown, c, h, rfl, fun hup => ⟨hup, rfl⟩⟩

inductive Takes (cfg : Config) (s s' : Session) : SessionAct → Prop
  | index {c} (step : s.indexStep cfg = some c) (eq : s' = { s with conn := c, retrying := false }) :
      Takes cfg s s' (.act .indexStep)
  | resolve {remoteWins loserPath c} (step : s.conn.resolve remoteWins loserPath = some c)
      (eq : s' = ⟨c, c.index, false⟩) : Takes cfg s s' (.act (.resolve remoteWins loserPath))
  | reconnect (eq : s' = connect s.conn.store) : Takes cfg s s' (.act .reconnect)
  | plain {a c} (step : s.conn.step cfg a = some c) (eq : s' = { s with conn := c }) (index : a ≠ .indexStep)
      (resolve : ∀ w p, a ≠ .resolve w p) (reconnect : a ≠ .reconnect) : Takes cfg s s' (.act a)
  | early {pc} (restart : IndexPc.restart s.resolving (s.conn.shutdown && !s.retrying) s.conn.index = some pc)
      (eq : s' = { s with conn := s.conn.setIndex pc, retrying := true }) : Takes cfg s s' (.retryIndex false)
  | late {c pc} (step : s.indexStep cfg = some c) (up : c.index ≠ .stopped)
      (restart : IndexPc.restart s.resolving (s.conn.shutdown && !s.retrying) s.conn.index = some pc)
      (eq : s' = { s with conn := { s.conn with store := c.store, index := pc }, retrying := true }) :
      Takes cfg s s' (.retryIndex true)
  | msgEarly (calls : s.conn.msg.calls = true) (eq : s' = s) : Takes cfg s s' (.retryMsg false)
  | msgLate {c} (calls : s.conn.msg.calls = true) (step : s.conn.msgStep cfg = some c) (up : c.msg ≠ .stopped)
      (eq : s' = { s with conn := { s.conn with store := c.store } }) : Takes cfg s s' (.retryMsg true)

theorem step_takes {cfg : Config} {s s' : Session} {a : SessionAct} (h : s.step cfg a = some s') :
    s.Takes cfg s' a := by
  cases a with
  | act a =>
    cases a with
    | indexStep =>
      obtain ⟨c, hc, rfl⟩ := map_eq_some_iff.1 h
      exact .index hc rfl
    | resolve =>
      obtain ⟨c, hc, rfl⟩ := map_eq_some_iff.1 h
      exact .resolve hc rfl
    | reconnect =>
      cases h
      exact .reconnect rfl
    | _ =>
      rw [step] at h
      · obtain ⟨c, hc, rfl⟩ := map_eq_some_iff.1 h
        exact .plain hc rfl (by rintro ⟨⟩) (by rintro _ _ ⟨⟩) (by rintro ⟨⟩)
      all_goals (intros; contradiction)
  | retryIndex late =>
    cases late with
    | false =>
      obtain ⟨pc, hpc, rfl⟩ := map_eq_some_iff.1 h
      exact .early hpc rfl
    | true =>
      obtain ⟨c, hc, h⟩ := bind_eq_some_iff.1 h
      split_ifs at h with hup
      obtain ⟨pc, hpc, rfl⟩ := map_eq_some_iff.1 h
      exact .late hc hup hpc rfl
  | retryMsg late =>
    cases late with
    | false =>
      rw [step] at h
      split_ifs at h with hcalls
      cases h
      exact .msgEarly hcalls rfl
    | true =>
      rw [step] at h
      split_ifs at h with hcalls
      obtain ⟨c, hc, h⟩ := bind_eq_some_iff.1 h
      split_ifs at h with hup
      cases h
      exact .msgLate hcalls hc hup rfl

end Session

end Bepository.Sync
