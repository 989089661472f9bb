import Bepository.Lib.Run
import Bepository.Storage.Calls

/-!
# Calls and compactions, interleaved

The state of a folder with any number of calls and compaction jobs in flight.  A job registers,
takes its snapshot, scans it row by row, reads the peer floor, decides on its source rows one by one
and is committed: a pruned row disappears unless it was written over in the meantime.
-/

namespace Bepository.Storage

open Lib Option Table

/-! ### Jobs -/

inductive JobPhase where
  | registered
  | scanning (todo : List Value)
  | filtering (floor : Option ℤ) (todo pruned : List (Key × Row))

def JobPhase.pruned : JobPhase → List (Key × Row)
  | .filtering _ _ pruned => pruned
  | _ => []

/-- A compaction job with the rows it will rewrite, as they are when it registers. -/
structure Job where
  sources : List (Key × Row)
  isBottom : Bool
  phase : JobPhase

def scanRows (db : Db) (epoch : Epoch) : List Value :=
  (db.scanPrefix (inboxScanPrefix epoch) ++ db.scanPrefix FILE_PREFIX).map fun r => r.2.val

def pruneRows (pruned : List (Key × Row)) (rows : Table Key Row) : Table Key Row :=
  pruned.foldl (fun rows r => if rows.lookup r.1 = some r.2 then rows.erase r.1 else rows) rows

variable {k : Key} {pruned : List (Key × Row)}

lemma lookup_pruneRows {rows : Table Key Row} {r : Row} :
    (pruneRows pruned rows).lookup k = some r ↔ rows.lookup k = some r ∧ (k, r) ∉ pruned := by
  unfold pruneRows
  induction pruned generalizing rows with
  | nil => simp
  | cons p pruned ih =>
    rw [List.foldl_cons, ih, List.mem_cons, not_or, ← and_assoc]
    refine and_congr_left' ?_
    by_cases hp : rows.lookup p.1 = some p.2
    · rw [if_pos hp, lookup_erase']
      split_ifs with hk
      · subst hk
        rw [hp]
        simp [Prod.ext_iff, eq_comm]
      · simp [Prod.ext_iff, hk]
    · rw [if_neg hp, iff_self_and]
      rintro hr rfl
      exact hp hr

def Db.prune (db : Db) (pruned : List (Key × Row)) : Db where
  rows := pruneRows pruned db.rows
  next := db.next
  stamped k r h := db.stamped k r (lookup_pruneRows.1 h).1

variable {db : Db}

lemma get_of_prune {v : Value} (h : (db.prune pruned).get k = some v) : db.get k = some v := by
  obtain ⟨r, hr, rfl⟩ := Db.get_eq_some.1 h
  exact Db.get_eq_some.2 ⟨r, (lookup_pruneRows.1 hr).1, rfl⟩

lemma get_prune {v : Value} (h : db.get k = some v) (hp : ∀ r ∈ pruned, r.1 = k → r.2.val ≠ v) :
    (db.prune pruned).get k = some v := by
  obtain ⟨r, hr, rfl⟩ := Db.get_eq_some.1 h
  exact Db.get_eq_some.2 ⟨r, lookup_pruneRows.2 ⟨hr, fun hmem => hp _ hmem rfl rfl⟩, rfl⟩

lemma get_prune_of_forall_ne (h : ∀ r ∈ pruned, r.1 ≠ k) : (db.prune pruned).get k = db.get k := by
  refine ext fun v => ⟨get_of_prune, fun hv => get_prune hv fun r hr hk => ?_⟩
  exact absurd hk (h r hr)

def CompactionState.index (gc : CompactionState) (job : ℕ) (refs : List (Bytes32 × ℕ)) : CompactionState :=
  match gc.jobs.lookup job with
  | none => gc
  | some j =>
    let j := ⟨refs.map Prod.fst ++ j.knownLiveHashes, refs.map Prod.snd ++ j.knownLiveSeqs⟩
    { gc with jobs := gc.jobs.insert job j }

/-! ### The machine -/

structure Machine where
  store : Store
  jobs : Table ℕ Job
  calls : Table ℕ Call

inductive Act where
  | start (t : ℕ) (op : Op)
  | next (t : ℕ)
  | setRemote (device : Bytes32) (state : RemoteIndexState)
  | register (keys : List Key) (isBottom : Bool)
  | snapshot (j : ℕ)
  | scan (j : ℕ)
  | floor (j : ℕ)
  | decide (j : ℕ)
  | commit (j : ℕ)
  | abort (j : ℕ)

namespace Machine

def isLocked (m : Machine) (name : Str) : Bool :=
  m.calls.entries.any fun c => c.2.name = name && c.2.pc.locked

/-- The call `t` after a step. -/
def after (m : Machine) (t : ℕ) (name : Str) : Store × After → Machine
  | (st, .go pc) => { m with store := st, calls := m.calls.insert t ⟨name, pc⟩ }
  | (st, .done _) => { m with store := st, calls := m.calls.erase t }

def drop (m : Machine) (j : ℕ) : Machine :=
  { m with store := { m.store with gc := m.store.gc.unregister j }, jobs := m.jobs.erase j }

def setPhase (m : Machine) (j : ℕ) (job : Job) (phase : JobPhase) : Machine :=
  { m with jobs := m.jobs.insert j { job with phase := phase } }

section Step

variable (bl : Blooms) (epoch : Epoch)

def callStep (m : Machine) (t : ℕ) (call : Call) : Option Machine :=
  match call.pc with
  | .wait pc =>
    if m.isLocked call.name then none
    else some { m with calls := m.calls.insert t ⟨call.name, pc⟩ }
  | pc => some (m.after t call.name (pc.exec bl epoch call.name m.store))

def registerJob (m : Machine) (keys : List Key) (isBottom : Bool) : Machine :=
  let (gc, j) := m.store.gc.register
  { m with
    store := { m.store with gc := gc }
    jobs := m.jobs.insert j ⟨keys.filterMap fun k => (m.store.db.rows.lookup k).map fun r => (k, r),
      isBottom, .registered⟩ }

def scanStep (m : Machine) (j : ℕ) (job : Job) : Option Machine :=
  match job.phase with
  | .scanning (v :: todo) =>
    match indexEntry v with
    | .error _ => some (m.drop j)
    | .ok refs => some { m.setPhase j job (.scanning todo) with
        store := { m.store with gc := m.store.gc.index j refs } }
  | _ => none

def floorStep (m : Machine) (j : ℕ) (job : Job) : Option Machine :=
  match job.phase with
  | .scanning [] =>
    match computePeerFloor m.store.db with
    | .error _ => some (m.drop j)
    | .ok floor => some (m.setPhase j job (.filtering floor job.sources []))
  | _ => none

def decideStep (m : Machine) (j : ℕ) (job : Job) : Option Machine :=
  match job.phase with
  | .filtering floor (r :: todo) pruned =>
    match GcFilter.filter bl m.store.gc ⟨j, epoch, floor, job.isBottom⟩ r.1 r.2.val with
    | .error _ => some (m.drop j)
    | .ok .keep => some (m.setPhase j job (.filtering floor todo pruned))
    | .ok _ => some (m.setPhase j job (.filtering floor todo (r :: pruned)))
  | _ => none

def commitStep (m : Machine) (j : ℕ) (job : Job) : Option Machine :=
  match job.phase with
  | .filtering _ [] pruned =>
    some { m.drop j with
      store := { m.store with db := m.store.db.prune pruned, gc := m.store.gc.unregister j } }
  | _ => none

def snapshotStep (m : Machine) (j : ℕ) (job : Job) : Option Machine :=
  match job.phase with
  | .registered => some (m.setPhase j job (.scanning (scanRows m.store.db epoch)))
  | _ => none

def step (m : Machine) : Act → Option Machine
  | .start t op =>
    if t ∈ m.calls then none
    else match op.start with
      | none => some m
      | some call => some { m with calls := m.calls.insert t call }
  | .next t => (m.calls.lookup t).bind (m.callStep bl epoch t)
  | .setRemote device state =>
    some { m with store := { m.store with
      db := m.store.db.write [.put (.md device) (.remote state)] } }
  | .register keys isBottom => some (m.registerJob keys isBottom)
  | .snapshot j => (m.jobs.lookup j).bind (m.snapshotStep epoch j)
  | .scan j => (m.jobs.lookup j).bind (m.scanStep j)
  | .floor j => (m.jobs.lookup j).bind (m.floorStep j)
  | .decide j => (m.jobs.lookup j).bind (m.decideStep bl epoch j)
  | .commit j => (m.jobs.lookup j).bind (m.commitStep j)
  | .abort j => (m.jobs.lookup j).map fun _ => m.drop j

/-! ### What a step can do -/

/-- The steps of the machine, with what they depend on. -/
inductive Moves (m : Machine) : Act → Machine → Prop where
  | refused {t op} (h : op.start = none) : Moves m (.start t op) m
  | start {t op call} (ht : t ∉ m.calls) (h : op.start = some call) :
      Moves m (.start t op) { m with calls := m.calls.insert t call }
  | lock {t name pc} (h : m.calls.lookup t = some ⟨name, .wait pc⟩) (hl : m.isLocked name = false) :
      Moves m (.next t) { m with calls := m.calls.insert t ⟨name, pc⟩ }
  | call {t name pc st aft} (h : m.calls.lookup t = some ⟨name, pc⟩) (hw : ∀ pc', pc ≠ .wait pc')
      (hs : pc.Steps epoch name m.store st aft) : Moves m (.next t) (m.after t name (st, aft))
  | setRemote {device state} : Moves m (.setRemote device state) { m with store := { m.store with
        db := m.store.db.write [.put (.md device) (.remote state)] } }
  | register {keys isBottom} : Moves m (.register keys isBottom) (m.registerJob keys isBottom)
  | snapshot {j job} (h : m.jobs.lookup j = some job) (hp : job.phase = .registered) :
      Moves m (.snapshot j) (m.setPhase j job (.scanning (scanRows m.store.db epoch)))
  | scan {j job v todo refs} (h : m.jobs.lookup j = some job) (hp : job.phase = .scanning (v :: todo))
      (hr : indexEntry v = .ok refs) : Moves m (.scan j) { m.setPhase j job (.scanning todo) with
        store := { m.store with gc := m.store.gc.index j refs } }
  | floor {j job floor} (h : m.jobs.lookup j = some job) (hp : job.phase = .scanning [])
      (hf : computePeerFloor m.store.db = .ok floor) :
      Moves m (.floor j) (m.setPhase j job (.filtering floor job.sources []))
  | keep {j job floor r todo pruned} (h : m.jobs.lookup j = some job)
      (hp : job.phase = .filtering floor (r :: todo) pruned) :
      Moves m (.decide j) (m.setPhase j job (.filtering floor todo pruned))
  | prune {j job floor r todo pruned d} (h : m.jobs.lookup j = some job)
      (hp : job.phase = .filtering floor (r :: todo) pruned) (hd : d ≠ .keep)
      (hf : GcFilter.filter bl m.store.gc ⟨j, epoch, floor, job.isBottom⟩ r.1 r.2.val = .ok d) :
      Moves m (.decide j) (m.setPhase j job (.filtering floor todo (r :: pruned)))
  | commit {j job floor pruned} (h : m.jobs.lookup j = some job) (hp : job.phase = .filtering floor [] pruned) :
      Moves m (.commit j) { m.drop j with store := { m.store with
        db := m.store.db.prune pruned, gc := m.store.gc.unregister j } }
  | drop {a j} : Moves m a (m.drop j)

variable {bl epoch} {m m' : Machine} {a : Act} {t : ℕ} {name : Str} {r : Store × After}

lemma callStep_moves {call : Call} (hc : m.calls.lookup t = some call)
    (h : m.callStep bl epoch t call = some m') : m.Moves bl epoch (.next t) m' := by
  obtain ⟨name, pc⟩ := call
  unfold callStep at h
  simp only at h
  split at h
  · split_ifs at h with hl
    cases h
    exact .lock hc (Bool.eq_false_iff.2 hl)
  · next hw =>
    cases h
    exact .call hc (fun pc' he => hw pc' he) (exec_steps rfl)

/-- **Inversion.**  A step of the machine is one of those listed. -/
theorem step_moves (h : m.step bl epoch a = some m') : m.Moves bl epoch a m' := by
  cases a with
  | start =>
    simp only [step] at h
    split_ifs at h with ht
    split at h <;> cases h
    · next hop => exact .refused hop
    · next call hop => exact .start ht hop
  | next =>
    obtain ⟨call, hc, h⟩ := bind_eq_some_iff.1 h
    exact callStep_moves hc h
  | setRemote => cases h; exact .setRemote
  | register => cases h; exact .register
  | snapshot =>
    obtain ⟨job, hj, h⟩ := bind_eq_some_iff.1 h
    unfold snapshotStep at h
    split at h <;> cases h
    next hp => exact .snapshot hj hp
  | scan =>
    obtain ⟨job, hj, h⟩ := bind_eq_some_iff.1 h
    unfold scanStep at h
    split at h
    · next v todo hp =>
      split at h <;> cases h
      · exact .drop
      · next refs hr => exact .scan hj hp hr
    · cases h
  | floor =>
    obtain ⟨job, hj, h⟩ := bind_eq_some_iff.1 h
    unfold floorStep at h
    split at h
    · next hp =>
      split at h <;> cases h
      · exact .drop
      · next fl hf => exact .floor hj hp hf
    · cases h
  | decide =>
    obtain ⟨job, hj, h⟩ := bind_eq_some_iff.1 h
    unfold decideStep at h
    split at h
    · next fl r todo pruned hp =>
      split at h <;> cases h
      · exact .drop
      · exact .keep hj hp
      · next d hd hf => exact .prune hj hp hd hf
    · cases h
  | commit =>
    obtain ⟨job, hj, h⟩ := bind_eq_some_iff.1 h
    unfold commitStep at h
    split at h <;> cases h
    next fl pruned hp => exact .commit hj hp
  | abort =>
    obtain ⟨job, -, rfl⟩ := map_eq_some_iff.1 h
    exact .drop

lemma lookup_after {t t' : ℕ} {st : Store} {aft : After} {c : Call}
    (h : (m.after t name (st, aft)).calls.lookup t' = some c) :
    t' = t ∧ aft = .go c.pc ∧ c.name = name ∨ t' ≠ t ∧ m.calls.lookup t' = some c := by
  cases aft with
  | go =>
    simp only [after, lookup_insert'] at h
    split_ifs at h with ht
    · cases h
      exact .inl ⟨ht, rfl, rfl⟩
    · exact .inr ⟨ht, h⟩
  | done =>
    simp only [after, lookup_erase'] at h
    split_ifs at h with ht
    exact .inr ⟨ht, h⟩

@[simp] lemma after_store : (m.after t name r).store = r.1 := by
  obtain ⟨st, aft⟩ := r
  cases aft <;> rfl

@[simp] lemma after_jobs : (m.after t name r).jobs = m.jobs := by
  obtain ⟨st, aft⟩ := r
  cases aft <;> rfl

end Step

end Machine

end Bepository.Storage
