import Bepository.Storage.Delta
import Bepository.Storage.Numbers

/-!
# Failing requests and crashes

The calls of `FolderStore` once more, now with `seq_lock` taken and released step by step, with database
requests that may fail, and with crashes.  A write that reports a failure has taken effect or not.  A
crash leaves the database as it was after some number of writes; the folder is then opened anew.
Compactions do not run here.
-/

namespace Bepository.Storage

open Lib Option Table

/-! ### State -/

/-- Where a call is in a section guarded by `seq_lock`: it waits for the lock, it has the lock, it has read
the counters, or it has written a reservation and waits for the flush. -/
inductive SeqPhase where
  | waiting
  | held
  | read (info : FolderIndexMeta)
  | flushing (base limit : ℕ)
  deriving DecidableEq

/-- A process that has the folder open.  `past` are the database's earlier states, one for each write,
the last one first; of all writes the first `durable` were before a flush.  `handed` are the block
numbers that were handed out so far, with the durable `next_blockseq` at that moment, and `commits` the
sequence numbers given since the folder was opened, the last one first. -/
structure Host where
  epoch : Epoch
  machine : Machine
  phases : Table ℕ SeqPhase
  past : List Db
  durable : ℕ
  handed : List (ℕ × ℕ)
  commits : List ℤ

/-- What can happen.  `fail` is a failure of the request that the call waits for, with the write in effect
or not; `crash` loses the last `lost` writes, and the folder is opened under another epoch. -/
inductive HostAct where
  | start (t : ℕ) (op : Op)
  | next (t : ℕ)
  | fail (t : ℕ) (effect : Bool)
  | crash (lost : ℕ) (epoch : Epoch)

/-- The call makes a step, or its request fails. -/
inductive HostAct.Of (t : ℕ) : HostAct → Prop where
  | next : Of t (.next t)
  | fail effect : Of t (.fail t effect)

/-- The batch of `commit_with_new_seq`, once it has read the counters. -/
def commitBatch (m : FolderIndexMeta) (name : Str) (stored : StoredFile) (batch : WriteBatch) :
    Except StorageError (WriteBatch × StoredFile) :=
  let seq := succI64 m.maxSequence
  let stored := { stored with sequence := seq }
  (seqKey seq).map fun k =>
    (batch ++ [.put .mx (.indexMeta { m with maxSequence := seq }),
      .put (fileKey name) (.file (some stored)), .put k (.name name)], stored)

def reserveBase (m : FolderIndexMeta) : ℕ := max (m.nextBlockseq.getD 0) MIN_BLOCK_SEQ

def reserveLimit (m : FolderIndexMeta) : ℕ := wrapU64 (reserveBase m + RESERVATION_N)

/-- The reservation that `allocate` writes. -/
def reserveBatch (m : FolderIndexMeta) : WriteBatch :=
  [.put .mx (.indexMeta { m with nextBlockseq := some (reserveLimit m) })]

def Pc.writes : Pc → Bool
  | .stagePut _ => true
  | .write .. => true
  | _ => false

/-- The step of the call is guarded by `seq_lock`. -/
def Pc.guarded : Pc → Bool
  | .commitWrite .. => true
  | .allocate .. => true
  | _ => false

/-- The `next_blockseq` of a database. -/
def nextBlockseq (db : Db) : ℕ :=
  match getIndexMeta db with
  | .ok m => m.nextBlockseq.getD 0
  | .error _ => 0

namespace Host

def db (h : Host) : Db := h.machine.store.db

def states (h : Host) : List Db := h.db :: h.past

def durableDb (h : Host) : Db := (h.states.drop (h.past.length - h.durable)).headD h.db

/-- A folder is opened: `SeqAllocator::load`. -/
def reopen (db : Db) (epoch : Epoch) (past : List Db) (handed : List (ℕ × ℕ)) : Option Host :=
  match SeqRange.load db with
  | .error _ => none
  | .ok range =>
    some ⟨epoch, ⟨⟨db, range, CompactionState.new⟩, ∅, ∅⟩, ∅, past, past.length, handed, []⟩

/-- Some call has `seq_lock`. -/
def seqLocked (h : Host) : Bool := h.phases.toList.any fun p => p.2 ≠ .waiting

def setPhase (h : Host) (t : ℕ) (phase : SeqPhase) : Host :=
  { h with phases := h.phases.insert t phase }

def write (h : Host) (batch : WriteBatch) : Host :=
  { h with
    machine := { h.machine with store := { h.machine.store with db := h.db.write batch } }
    past := h.db :: h.past }

/-- The call goes on or returns, and no longer has `seq_lock`. -/
def leave (h : Host) (t : ℕ) (name : Str) (aft : After) : Host :=
  { h with machine := h.machine.after t name (h.machine.store, aft), phases := h.phases.erase t }

def hand (h : Host) (t : ℕ) (name : Str) (hash : Bytes32) (data : Bytes) (seq : ℕ) (range : SeqRange) : Host :=
  let h := { h with
    machine := { h.machine with store := { h.machine.store with range := range } }
    handed := (seq, nextBlockseq h.durableDb) :: h.handed }
  h.leave t name (.go (.readStaged hash (.fresh seq data)))

def take (h : Host) (t : ℕ) (name : Str) (hash : Bytes32) (data : Bytes) : Host :=
  let range := h.machine.store.range
  h.hand t name hash data range.next { range with next := wrapU64 (range.next + 1) }

def stocked (h : Host) : Bool := h.machine.store.range.next < h.machine.store.range.stop

/-- `get_index_meta` under the lock. -/
def readMeta (h : Host) (t : ℕ) (name : Str) : Host :=
  match getIndexMeta h.db with
  | .error e => h.leave t name (.done (.error e))
  | .ok m => h.setPhase t (.read m)

/-- The end of `commit_with_new_seq`. -/
def commitStep (h : Host) (t : ℕ) (name : Str) (stored : StoredFile) (batch : WriteBatch)
    (carried : List (Bytes32 × ℕ)) : Option Host :=
  match h.phases.lookup t with
  | none | some .waiting => if h.seqLocked then none else some (h.setPhase t .held)
  | some .held => some (h.readMeta t name)
  | some (.read m) =>
    match commitBatch m name stored batch with
    | .error e => some (h.leave t name (.done (.error e)))
    | .ok (batch, stored) =>
      some { (h.write batch).leave t name (recordNext carried) with
        commits := stored.sequence :: h.commits }
  | some (.flushing ..) => none

/-- `SeqAllocator::allocate`. -/
def allocStep (h : Host) (t : ℕ) (name : Str) (hash : Bytes32) (data : Bytes) : Option Host :=
  match h.phases.lookup t with
  | none => some (if h.stocked then h.take t name hash data else h.setPhase t .waiting)
  | some .waiting => if h.seqLocked then none else some (h.setPhase t .held)
  | some .held => some (if h.stocked then h.take t name hash data else h.readMeta t name)
  | some (.read m) =>
    some ((h.write (reserveBatch m)).setPhase t (.flushing (reserveBase m) (reserveLimit m)))
  | some (.flushing base limit) =>
    some ({ h with durable := h.past.length }.hand t name hash data base ⟨wrapU64 (base + 1), limit⟩)

/-- The batch that the call is about to write, if it is about to write one. -/
def pendingBatch (h : Host) (t : ℕ) (call : Call) : WriteBatch :=
  match call.pc, h.phases.lookup t with
  | .commitWrite stored batch _, some (.read m) =>
    match commitBatch m call.name stored batch with
    | .error _ => []
    | .ok (batch, _) => batch
  | .allocate .., some (.read m) => reserveBatch m
  | .stagePut file, _ => [.put (inboxKey h.epoch file.name) (.file (some file.toStored))]
  | .write hash link entry, _ =>
    match linkBatch call.name hash link entry with
    | .error _ => []
    | .ok batch => batch
  | _, _ => []

def pendingCommit (h : Host) (t : ℕ) (call : Call) : List ℤ :=
  match call.pc, h.phases.lookup t with
  | .commitWrite .., some (.read m) => [succI64 m.maxSequence]
  | _, _ => []

def requesting (h : Host) (t : ℕ) (call : Call) : Bool :=
  match call.pc with
  | .wait _ | .checkSafe .. | .record _ => false
  | .commitWrite .. | .allocate .. =>
    match h.phases.lookup t with
    | none | some .waiting => false
    | _ => true
  | _ => true

section Step

variable (bl : Blooms)

def callStep (h : Host) (t : ℕ) (call : Call) : Option Host :=
  match call.pc with
  | .commitWrite stored batch carried => h.commitStep t call.name stored batch carried
  | .allocate hash data => h.allocStep t call.name hash data
  | pc => (h.machine.callStep bl h.epoch t call).map fun m => { h with
      machine := m, past := if pc.writes then h.db :: h.past else h.past }

def failStep (h : Host) (t : ℕ) (call : Call) (effect : Bool) : Option Host :=
  if h.requesting t call then
    let failed := After.done (.error (.transientIo "request failed"))
    if effect && h.pendingBatch t call ≠ [] then
      some { (h.write (h.pendingBatch t call)).leave t call.name failed with
        commits := h.pendingCommit t call ++ h.commits }
    else some (h.leave t call.name failed)
  else none

def step (h : Host) : HostAct → Option Host
  | .start t op => (h.machine.step bl h.epoch (.start t op)).map fun m => { h with machine := m }
  | .next t => (h.machine.calls.lookup t).bind (h.callStep bl t)
  | .fail t effect => (h.machine.calls.lookup t).bind fun call => h.failStep t call effect
  | .crash lost epoch =>
    match h.states.drop lost with
    | [] => none
    | db :: past => Host.reopen db epoch past h.handed

end Step

/-! ### The two locks -/

/-- Only the calls in their guarded sections use `seq_lock`, one at a time, and what the holder has read
is still there.  Every call writes where it should. -/
structure Disciplined (h : Host) : Prop where
  guarded : ∀ t p, h.phases.lookup t = some p →
    ∃ name pc, h.machine.calls.lookup t = some ⟨name, pc⟩ ∧ pc.guarded = true
  alone : ∀ t t' p p', h.phases.lookup t = some p → h.phases.lookup t' = some p' →
    p ≠ .waiting → p' ≠ .waiting → t = t'
  current : ∀ t m, h.phases.lookup t = some (.read m) → getIndexMeta h.db = .ok m
  formed : ∀ t c, h.machine.calls.lookup t = some c → c.pc.Formed h.epoch

/-! ### What a step can do -/

/-- How a call moves on in a section guarded by `seq_lock`. -/
inductive Advances (h : Host) (t : ℕ) : SeqPhase → Prop where
  | wait (hp : h.phases.lookup t = none) : Advances h t .waiting
  | acquire (hl : h.seqLocked = false) : Advances h t .held
  | read m (hp : h.phases.lookup t = some .held) (hm : getIndexMeta h.db = .ok m) : Advances h t (.read m)

/-- The history after a step of a call that leads to the store `st`. -/
inductive Logs (h : Host) (name : Str) (pc : Pc) (st : Store) : List Db → List ℤ → Prop where
  | read (hd : st.db = h.db) : Logs h name pc st h.past h.commits
  | write : Logs h name pc st (h.db :: h.past) h.commits
  | commit stored stored' batch carried (hpc : pc = .commitWrite stored batch carried)
      (hc : commitWrite h.db name stored batch = .ok (st.db, stored')) :
      Logs h name pc st (h.db :: h.past) (stored'.sequence :: h.commits)

/-- The steps of the process, with what they depend on. -/
inductive Moves (h : Host) : HostAct → Host → Prop where
  | refused {t op} : Moves h (.start t op) h
  | start {t op call} (ht : t ∉ h.machine.calls) (hop : op.start = some call) : Moves h (.start t op)
        { h with machine := { h.machine with calls := h.machine.calls.insert t call } }
  | lock {t name pc} (hc : h.machine.calls.lookup t = some ⟨name, .wait pc⟩)
      (hl : h.machine.isLocked name = false) : Moves h (.next t)
        { h with machine := { h.machine with calls := h.machine.calls.insert t ⟨name, pc⟩ } }
  | call {a : HostAct} {t name pc st aft aft' past commits} (hof : a.Of t)
      (hc : h.machine.calls.lookup t = some ⟨name, pc⟩) (hw : ∀ pc', pc ≠ .wait pc')
      (hna : ∀ hash data, pc ≠ .allocate hash data) (hs : pc.Steps h.epoch name h.machine.store st aft)
      (ha : aft' = aft ∨ ∃ r, aft' = .done r) (hl : h.Logs name pc st past commits)
      (hp : pc.guarded = true → ∃ m, h.phases.lookup t = some (.read m)) : Moves h a { h with
        machine := h.machine.after t name (st, aft'), phases := h.phases.erase t
        past := past, commits := commits }
  | quit {a : HostAct} {t name pc r} (hof : a.Of t) (hc : h.machine.calls.lookup t = some ⟨name, pc⟩) :
      Moves h a (h.leave t name (.done r))
  | advance {t name pc phase} (hc : h.machine.calls.lookup t = some ⟨name, pc⟩) (hg : pc.guarded = true)
      (hp : h.Advances t phase) : Moves h (.next t) (h.setPhase t phase)
  | reserve {t name hash data m} (hc : h.machine.calls.lookup t = some ⟨name, .allocate hash data⟩)
      (hp : h.phases.lookup t = some (.read m)) : Moves h (.next t) ((h.write (reserveBatch m)).setPhase t
        (.flushing (reserveBase m) (reserveLimit m)))
  | reserveFailed {t name hash data m r} (hc : h.machine.calls.lookup t = some ⟨name, .allocate hash data⟩)
      (hp : h.phases.lookup t = some (.read m)) :
      Moves h (.fail t true) ((h.write (reserveBatch m)).leave t name (.done r))
  | take {t name hash data} (hc : h.machine.calls.lookup t = some ⟨name, .allocate hash data⟩)
      (hr : h.machine.store.range.next < h.machine.store.range.stop) :
      Moves h (.next t) (h.take t name hash data)
  | flushed {t name hash data base limit} (hc : h.machine.calls.lookup t = some ⟨name, .allocate hash data⟩)
      (hp : h.phases.lookup t = some (.flushing base limit)) :
      Moves h (.next t) ({ h with durable := h.past.length }.hand t name hash data base
        ⟨wrapU64 (base + 1), limit⟩)
  | crash {lost epoch db past} {h' : Host} (hd : h.states.drop lost = db :: past)
      (hr : reopen db epoch past h.handed = some h') : Moves h (.crash lost epoch) h'

section Inversion

variable {bl : Blooms} {h h' : Host} {a : HostAct} {t : ℕ} {name : Str} {batch ops : WriteBatch}
  {m : FolderIndexMeta} {stored stored' : StoredFile} {pc : Pc} {epoch : Epoch}

lemma commitWrite_of_batch {db : Db} (hm : getIndexMeta db = .ok m)
    (hb : commitBatch m name stored batch = .ok (ops, stored')) :
    commitWrite db name stored batch = .ok (db.write ops, stored') := by
  obtain ⟨k, hk, hp⟩ := map_eq_ok.1 hb
  cases hp
  unfold commitWrite
  rw [hm]
  simp only [hk, Except.map]

lemma sequence_of_batch (hb : commitBatch m name stored batch = .ok (ops, stored')) :
    stored'.sequence = succI64 m.maxSequence := by
  obtain ⟨k, hk, hp⟩ := map_eq_ok.1 hb
  cases hp
  rfl

lemma Disciplined.erase (hd : h.Disciplined) (hc : h.machine.calls.lookup t = some ⟨name, pc⟩)
    (hg : pc.guarded = false) : h.phases.erase t = h.phases := by
  have hn : t ∉ h.phases := by
    intro ht
    obtain ⟨p, hp⟩ := isSome_iff_exists.1 (AList.lookup_isSome.2 ht)
    obtain ⟨name', pc', hc', hg'⟩ := hd.guarded t p hp
    rw [hc] at hc'
    cases hc'
    rw [hg] at hg'
    cases hg'
  exact AList.ext (List.kerase_of_notMem_keys hn)

lemma readMeta_moves (hc : h.machine.calls.lookup t = some ⟨name, pc⟩) (hg : pc.guarded = true)
    (hp : h.phases.lookup t = some .held) : h.Moves (.next t) (h.readMeta t name) := by
  unfold readMeta
  split
  · exact .quit .next hc
  · next m hm => exact .advance hc hg (.read m hp hm)

variable {aft : After} {carried : List (Bytes32 × ℕ)}

lemma commit_moves (hd : h.Disciplined)
    (hc : h.machine.calls.lookup t = some ⟨name, .commitWrite stored batch carried⟩)
    (hp : h.phases.lookup t = some (.read m)) (hb : commitBatch m name stored batch = .ok (ops, stored'))
    (ha : aft = recordNext carried ∨ ∃ r, aft = .done r) (hof : a.Of t) :
    h.Moves a { (h.write ops).leave t name aft with commits := stored'.sequence :: h.commits } := by
  have hw := commitWrite_of_batch (hd.current t m hp) hb
  have hmv := Moves.call hof hc (by simp) (by simp) (.commitWrite hw) ha
    (.commit stored stored' batch carried rfl hw) fun _ => ⟨m, hp⟩
  cases aft <;> exact hmv

lemma commitStep_moves (hd : h.Disciplined) {stored : StoredFile} {batch : WriteBatch}
    (hc : h.machine.calls.lookup t = some ⟨name, .commitWrite stored batch carried⟩)
    (hs : h.commitStep t name stored batch carried = some h') : h.Moves (.next t) h' := by
  unfold commitStep at hs
  split at hs
  · split_ifs at hs with hl
    cases hs
    exact .advance hc rfl (.acquire (Bool.eq_false_iff.2 hl))
  · split_ifs at hs with hl
    cases hs
    exact .advance hc rfl (.acquire (Bool.eq_false_iff.2 hl))
  · next hp =>
    cases hs
    exact readMeta_moves hc rfl hp
  · next m hp =>
    split at hs <;> cases hs
    · exact .quit .next hc
    · next ops stored' hb => exact commit_moves hd hc hp hb (.inl rfl) .next
  · cases hs

lemma allocStep_moves {hash : Bytes32} {data : Bytes}
    (hc : h.machine.calls.lookup t = some ⟨name, .allocate hash data⟩)
    (hs : h.allocStep t name hash data = some h') : h.Moves (.next t) h' := by
  unfold allocStep stocked at hs
  split at hs
  · next hp =>
    cases hs
    split_ifs with hr
    · exact .take hc (of_decide_eq_true hr)
    · exact .advance hc rfl (.wait hp)
  · split_ifs at hs with hl
    cases hs
    exact .advance hc rfl (.acquire (Bool.eq_false_iff.2 hl))
  · next hp =>
    cases hs
    split_ifs with hr
    · exact .take hc (of_decide_eq_true hr)
    · exact readMeta_moves hc rfl hp
  · next m hp =>
    cases hs
    exact .reserve hc hp
  · next base limit hp =>
    cases hs
    exact .flushed hc hp

lemma db_of_not_writes {st st' : Store} (hs : pc.Steps epoch name st st' aft) (hw : pc.writes = false)
    (hg : pc.guarded = false) : st'.db = st.db := by
  cases hs with
  | commitWrite | allocate => cases hg
  | stagePut | write => cases hw
  | _ => rfl

lemma plainStep_moves (hd : h.Disciplined) (hc : h.machine.calls.lookup t = some ⟨name, pc⟩) (hg : pc.guarded = false)
    (hs : (h.machine.callStep bl h.epoch t ⟨name, pc⟩).map (fun m => { h with
      machine := m, past := if pc.writes then h.db :: h.past else h.past }) = some h') :
    h.Moves (.next t) h' := by
  obtain ⟨m, hm, rfl⟩ := map_eq_some_iff.1 hs
  unfold Machine.callStep at hm
  simp only at hm
  split at hm
  · split_ifs at hm with hl
    cases hm
    exact .lock hc (Bool.eq_false_iff.2 hl)
  · next hw =>
    cases hm
    obtain ⟨⟨st, aft⟩, hr⟩ : ∃ r, pc.exec bl h.epoch name h.machine.store = r := ⟨_, rfl⟩
    have hst := exec_steps hr
    rw [hr]
    have hna : ∀ hash data, pc ≠ .allocate hash data := by
      rintro hash data rfl
      cases hg
    have hno : ∀ hp : pc.guarded = true, ∃ m, h.phases.lookup t = some (.read m) := by
      intro hp
      rw [hg] at hp
      cases hp
    have he := hd.erase hc hg
    cases hwr : pc.writes with
    | true =>
      have hmv := Moves.call .next hc (fun pc' he => hw pc' he) hna hst
        (.inl rfl) .write hno
      rw [he] at hmv
      exact hmv
    | false =>
      have hmv := Moves.call .next hc (fun pc' he => hw pc' he) hna hst
        (.inl rfl) (.read (db_of_not_writes hst hwr hg)) hno
      rw [he] at hmv
      exact hmv

lemma callStep_moves (hd : h.Disciplined) {call : Call} (hc : h.machine.calls.lookup t = some call)
    (hs : h.callStep bl t call = some h') : h.Moves (.next t) h' := by
  obtain ⟨name, pc⟩ := call
  unfold callStep at hs
  cases pc with
  | commitWrite => exact commitStep_moves hd hc hs
  | allocate => exact allocStep_moves hc hs
  | _ => exact plainStep_moves hd hc rfl hs

lemma failed_moves (hd : h.Disciplined) {r : Except StorageError Unit}
    (hc : h.machine.calls.lookup t = some ⟨name, pc⟩) (hne : h.pendingBatch t ⟨name, pc⟩ ≠ []) :
    h.Moves (.fail t true) { (h.write (h.pendingBatch t ⟨name, pc⟩)).leave t name (.done r) with
      commits := h.pendingCommit t ⟨name, pc⟩ ++ h.commits } := by
  unfold pendingBatch pendingCommit at *
  cases pc with
  | commitWrite stored batch =>
    cases hp : h.phases.lookup t with
    | none => simp [hp] at hne
    | some p =>
      cases p with
      | read m =>
        cases hb : commitBatch m name stored batch with
        | error => simp [hp, hb] at hne
        | ok =>
          have hmv := commit_moves hd (a := .fail t true) hc hp hb (.inr ⟨r, rfl⟩) (.fail true)
          rw [sequence_of_batch hb] at hmv
          simp only [hb]
          exact hmv
      | _ => simp [hp] at hne
  | allocate =>
    cases hp : h.phases.lookup t with
    | none => simp [hp] at hne
    | some p =>
      cases p with
      | read => exact .reserveFailed hc hp (r := r)
      | _ => simp [hp] at hne
  | stagePut =>
    exact .call (.fail true) hc (by simp) (by simp) .stagePut (.inr ⟨r, rfl⟩) .write
      (by rintro ⟨⟩)
  | write hash link entry =>
    cases hl : linkBatch name hash link entry with
    | error => simp [hl] at hne
    | ok =>
      simp only [hl]
      exact .call (.fail true) hc (by simp) (by simp) (.write hl)
        (.inr ⟨r, rfl⟩) .write (by rintro ⟨⟩)
  | _ => exact absurd rfl hne

/-- **Inversion.**  A step of the process is one of those listed. -/
theorem step_moves (hd : h.Disciplined) (hs : h.step bl a = some h') : h.Moves a h' := by
  cases a with
  | start =>
    obtain ⟨m, hm, rfl⟩ := map_eq_some_iff.1 hs
    simp only [Machine.step] at hm
    split_ifs at hm with ht
    split at hm <;> cases hm
    · exact .refused
    · next call hop => exact .start ht hop
  | next =>
    obtain ⟨call, hc, hs⟩ := bind_eq_some_iff.1 hs
    exact callStep_moves hd hc hs
  | fail t effect =>
    obtain ⟨⟨name, pc⟩, hc, hs⟩ := bind_eq_some_iff.1 hs
    unfold failStep at hs
    split_ifs at hs with _ he <;> cases hs
    · obtain ⟨rfl, hne⟩ := Bool.and_eq_true_iff.1 he
      exact failed_moves hd hc (of_decide_eq_true hne)
    · exact .quit (.fail effect) hc
  | crash =>
    simp only [step] at hs
    split at hs
    · cases hs
    · next db past hdrop => exact .crash hdrop hs

/-! ### The locks through a step -/

lemma lookup_after_ne {m : Machine} {t' : ℕ} {r : Store × After} (ht : t' ≠ t) :
    (m.after t name r).calls.lookup t' = m.calls.lookup t' := by
  obtain ⟨st, aft⟩ := r
  cases aft with
  | go => exact AList.lookup_insert_ne ht
  | done => exact AList.lookup_erase_ne ht

lemma lookup_after_or {m : Machine} {t' : ℕ} {st : Store} {aft aft' : After} {c : Call}
    (ha : aft' = aft ∨ ∃ r, aft' = .done r) (ht : (m.after t name (st, aft')).calls.lookup t' = some c) :
    (m.after t name (st, aft)).calls.lookup t' = some c := by
  rcases ha with rfl | ⟨r, rfl⟩
  · exact ht
  · rcases Machine.lookup_after ht with ⟨-, he, -⟩ | ⟨hne, ht⟩
    · cases he
    · rw [lookup_after_ne hne]
      exact ht

lemma getIndexMeta_of_steps {st st' : Store} (hs : pc.Steps epoch name st st' aft) (hf : pc.Formed epoch)
    (hg : pc.guarded = false) : getIndexMeta st'.db = getIndexMeta st.db := by
  cases hs with
  | commitWrite | allocate => cases hg
  | stagePut =>
    unfold getIndexMeta stageFile
    rw [Db.get_write_single (by rintro ⟨⟩)]
  | write hl =>
    rw [linkBatch_eq_ok hl]
    unfold getIndexMeta
    rw [get_write_link hf (.inl rfl)]
  | _ => rfl

section

variable (hd : h.Disciplined)
include hd

lemma Disciplined.enter {c : Call} (ht : h.phases.lookup t = none) (hf : c.pc.Formed h.epoch) :
    ({ h with machine := { h.machine with calls := h.machine.calls.insert t c } } : Host).Disciplined := by
  refine ⟨fun t' p hp => ?_, hd.alone, hd.current, forall_insert hd.formed hf⟩
  obtain ⟨name, pc, hc, hg⟩ := hd.guarded t' p hp
  have hne : t' ≠ t := by
    rintro rfl
    rw [show h.phases.lookup t' = some p from hp] at ht
    cases ht
  exact ⟨name, pc, (AList.lookup_insert_ne hne).trans hc, hg⟩

lemma Disciplined.leave (name : Str) (st : Store) (aft : After) (he : h'.epoch = h.epoch)
    (hp : h'.phases = h.phases.erase t) (hc : h'.machine.calls = (h.machine.after t name (st, aft)).calls)
    (hf : aft.Formed h.epoch) (hm : ∀ t' m, t' ≠ t → h.phases.lookup t' = some (.read m) →
      getIndexMeta h'.db = getIndexMeta h.db) :
    h'.Disciplined := by
  have hlook : ∀ t' p, h'.phases.lookup t' = some p → t' ≠ t ∧ h.phases.lookup t' = some p := by
    intro t' p ht
    rw [hp, lookup_erase'] at ht
    split_ifs at ht with hne
    exact ⟨hne, ht⟩
  refine ⟨fun t' p ht => ?_, fun t₁ t₂ p₁ p₂ h₁ h₂ => ?_, fun t' m ht => ?_, fun t' c ht => ?_⟩
  · obtain ⟨hne, ht⟩ := hlook t' p ht
    rw [hc, lookup_after_ne hne]
    exact hd.guarded t' p ht
  · exact hd.alone t₁ t₂ p₁ p₂ (hlook t₁ p₁ h₁).2 (hlook t₂ p₂ h₂).2
  · obtain ⟨hne, ht⟩ := hlook t' _ ht
    rw [hm t' m hne ht]
    exact hd.current t' m ht
  · rw [he]
    rw [hc] at ht
    rcases Machine.lookup_after ht with ⟨-, rfl, -⟩ | ⟨-, ht⟩
    · exact hf
    · exact hd.formed t' c ht

lemma Disciplined.enterPhase {phase : SeqPhase} (hc : h.machine.calls.lookup t = some ⟨name, pc⟩)
    (hg : pc.guarded = true) (he : h'.epoch = h.epoch) (hcalls : h'.machine.calls = h.machine.calls)
    (hp : h'.phases = h.phases.insert t phase)
    (halone : phase ≠ .waiting → ∀ t' p, h.phases.lookup t' = some p → p ≠ .waiting → t' = t)
    (hself : ∀ m, phase = .read m → getIndexMeta h'.db = .ok m)
    (hm : ∀ t' m, t' ≠ t → h.phases.lookup t' = some (.read m) → getIndexMeta h'.db = getIndexMeta h.db) :
    h'.Disciplined := by
  have hlook : ∀ t' p, h'.phases.lookup t' = some p → t' = t ∧ p = phase ∨ t' ≠ t ∧ h.phases.lookup t' = some p := by
    intro t' p ht
    rw [hp, lookup_insert'] at ht
    split_ifs at ht with hne
    · cases ht
      exact .inl ⟨hne, rfl⟩
    · exact .inr ⟨hne, ht⟩
  refine ⟨fun t' p ht => ?_, fun t₁ t₂ p₁ p₂ h₁ h₂ hw₁ hw₂ => ?_, fun t' m ht => ?_, fun t' c ht => ?_⟩
  · rw [hcalls]
    rcases hlook t' p ht with ⟨rfl, -⟩ | ⟨-, ht⟩
    · exact ⟨name, pc, hc, hg⟩
    · exact hd.guarded t' p ht
  · rcases hlook t₁ p₁ h₁ with ⟨rfl, rfl⟩ | ⟨-, h₁⟩
    · rcases hlook t₂ p₂ h₂ with ⟨rfl, -⟩ | ⟨-, h₂⟩
      · rfl
      · exact (halone hw₁ t₂ p₂ h₂ hw₂).symm
    · rcases hlook t₂ p₂ h₂ with ⟨rfl, rfl⟩ | ⟨-, h₂⟩
      · exact halone hw₂ t₁ p₁ h₁ hw₁
      · exact hd.alone t₁ t₂ p₁ p₂ h₁ h₂ hw₁ hw₂
  · rcases hlook t' _ ht with ⟨-, he⟩ | ⟨hne, ht⟩
    · exact hself m he.symm
    · rw [hm t' m hne ht]
      exact hd.current t' m ht
  · rw [he]
    rw [hcalls] at ht
    exact hd.formed t' c ht

lemma Disciplined.holder {t' : ℕ} {p : SeqPhase} (hp : h.phases.lookup t = some p) (hne : p ≠ .waiting)
    (ht : h.phases.lookup t' = some (.read m)) : t' = t :=
  hd.alone t' t _ p ht hp (by rintro ⟨⟩) hne

lemma Disciplined.advance {phase : SeqPhase} (hc : h.machine.calls.lookup t = some ⟨name, pc⟩)
    (hg : pc.guarded = true) (hp : h.Advances t phase) : (h.setPhase t phase).Disciplined := by
  refine hd.enterPhase hc hg rfl rfl rfl (fun hph t' p ht hpw => ?_) (fun m he => ?_) fun _ _ _ _ => rfl
  · cases hp with
    | wait => exact absurd rfl hph
    | acquire hl =>
      unfold seqLocked at hl
      rw [List.any_eq_false] at hl
      exact absurd (decide_eq_true hpw) (hl (t', p) (Table.mem_toList.2 ht))
    | read m hh => exact hd.alone t' t p _ ht hh hpw (by rintro ⟨⟩)
  · subst he
    cases hp with
    | read m hh hm => exact hm

end

lemma disciplined_reopen {db : Db} {past : List Db} {handed : List (ℕ × ℕ)}
    (hr : reopen db epoch past handed = some h') : h'.Disciplined := by
  unfold reopen at hr
  split at hr <;> cases hr
  exact ⟨(by rintro _ _ ⟨⟩), (by rintro _ _ _ _ ⟨⟩), (by rintro _ _ ⟨⟩), (by rintro _ _ ⟨⟩)⟩

theorem Disciplined.step (hd : h.Disciplined) (hm : h.Moves a h') : h'.Disciplined := by
  cases hm with
  | refused => exact hd
  | @start t _ _ ht hop =>
    refine hd.enter ?_ (start_formed h.epoch hop).1
    cases hp : h.phases.lookup t with
    | none => rfl
    | some p =>
      obtain ⟨name, pc, hc, -⟩ := hd.guarded t p hp
      exact absurd (AList.lookup_isSome.1 (isSome_of_eq_some hc)) ht
  | @lock t _ pc hc =>
    have hf : (Pc.wait pc).Formed h.epoch := hd.formed t _ hc
    refine hd.enter ?_ hf
    cases hp : h.phases.lookup t with
    | none => rfl
    | some p =>
      obtain ⟨name', pc', hc', hg⟩ := hd.guarded t p hp
      rw [hc] at hc'
      cases hc'
      cases hg
  | @call _ t name pc st _ aft' _ _ hof hc hw hna hs ha hl hp =>
    have hf := hd.formed t _ hc
    refine hd.leave name st aft' rfl rfl rfl ?_ fun t' m ht hr => ?_
    · rcases ha with rfl | ⟨r, rfl⟩
      · exact hs.formed hf
      · trivial
    · cases hg : pc.guarded with
      | true =>
        obtain ⟨m', hp⟩ := hp hg
        exact absurd (hd.holder hp (by rintro ⟨⟩) hr) ht
      | false =>
        have hst := getIndexMeta_of_steps hs hf hg
        simpa [Host.db] using hst
  | @quit _ _ name _ r =>
    exact hd.leave name h.machine.store (.done r) rfl rfl rfl trivial fun _ _ _ _ => rfl
  | advance hc hg hp => exact hd.advance hc hg hp
  | @reserve t _ _ _ _ hc hp =>
    refine hd.enterPhase hc rfl rfl rfl rfl (fun _ t' p ht hpw => ?_) (by rintro _ ⟨⟩)
      fun t' m' ht hr => absurd (hd.holder hp (by rintro ⟨⟩) hr) ht
    exact hd.alone t' t p _ ht hp hpw (by rintro ⟨⟩)
  | @reserveFailed _ name _ _ _ r hc hp =>
    exact hd.leave name h.machine.store (.done r) rfl rfl rfl trivial
      fun t' m' ht hr => absurd (hd.holder hp (by rintro ⟨⟩) hr) ht
  | @take _ name hash data =>
    exact hd.leave name h.machine.store (.go (.readStaged hash (.fresh h.machine.store.range.next data)))
      rfl rfl rfl trivial fun _ _ _ _ => rfl
  | @flushed _ name hash data base _ =>
    exact hd.leave name h.machine.store (.go (.readStaged hash (.fresh base data))) rfl rfl rfl trivial
      fun _ _ _ _ => rfl
  | crash _ hr => exact disciplined_reopen hr

end Inversion

end Host

end Bepository.Storage
