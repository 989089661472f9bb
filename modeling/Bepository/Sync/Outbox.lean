import Bepository.Lib.Outbox
import Bepository.Storage.Changes
import Bepository.Sync.Jobs

/-!
# The outbox of a connection

Both loops commit files of the folder and then queue an `IndexUpdate` for each.  The two are the speakers of
an outbox, whose table is the index and whose counter is `max_sequence`.  `Conn.Says` lists what a step of a
loop can say.
-/

namespace Bepository.Sync

open Lib Storage List

/-! ### The outbox of a connection -/

def Outgoing.update : Outgoing → Option WireFile
  | .indexUpdate file => some file
  | _ => none

/-- The `IndexUpdate`s that were queued. -/
def Conn.updates (c : Conn) : List WireFile := c.sent.filterMap Outgoing.update

/-- Their `last_sequence` is the number of their file. -/
def Conn.lastSequences (c : Conn) : List ℤ := c.updates.map FileInfo.sequence

def IndexPc.unsent : IndexPc → Option WireFile
  | .notify file _ => some file
  | _ => none

def MsgPc.unsent : MsgPc → Option WireFile
  | .notify file _ => some file
  | _ => none

def IndexPc.Plain : IndexPc → Prop
  | .notify _ next => next.unsent = none ∧ next.Plain
  | _ => True

def MsgPc.Plain : MsgPc → Prop
  | .check _ next => next.unsent = none ∧ next.Plain
  | .complete _ next => next.unsent = none ∧ next.Plain
  | .notify _ next => next.unsent = none ∧ next.Plain
  | _ => True

inductive Speaker where
  | index
  | msg
  deriving DecidableEq

def Conn.unsent (c : Conn) : Speaker → Option WireFile
  | .index => c.index.unsent
  | .msg => c.msg.unsent

/-- What `index` returns. -/
def Conn.indexed (c : Conn) (path : Path) : Option WireFile := (wireAt c.store.db path).bind Except.toOption

def Conn.outbox (c : Conn) : Outbox Speaker Path WireFile :=
  ⟨maxSeq c.store.db, c.indexed, c.unsent, c.updates⟩

/-! ### What the steps commit -/

/-- The step commits a file, and its `IndexUpdate` comes next. -/
def IndexPc.commits : IndexPc → Bool
  | .perform _ .commit _ _ => true
  | .complete .. => true
  | _ => false

def IndexPc.resolves : IndexPc → Bool
  | .copy .. => true
  | .winner .. => true
  | _ => false

def MsgPc.commits : MsgPc → Bool
  | .complete .. => true
  | _ => false

def plainType (t : ℤ) : Bool := t = 0 || t = 1 || t = 4

/-- The step commits a file that is announced with another type than it is stored with. -/
def IndexPc.retypes : IndexPc → Bool
  | .perform file .commit _ _ => !plainType file.type
  | _ => false

namespace Conn

/-- The loop is about to commit a file and to queue its `IndexUpdate`. -/
def commits (c : Conn) : Speaker → Bool
  | .index => c.index.commits
  | .msg => c.msg.commits

def resolves (c : Conn) : Speaker → Bool
  | .index => c.index.resolves
  | .msg => false

def retypes (c : Conn) : Speaker → Bool
  | .index => c.index.retypes
  | .msg => false

def stopped (c : Conn) : Speaker → Bool
  | .index => c.index = .stopped
  | .msg => c.msg = .stopped

end Conn

section Conn

variable {cfg : Config} {c c' : Conn}

abbrev Conn.Speaks (c c' : Conn) (kind : Outbox.Kind Speaker) : Prop :=
  Outbox.Moves FileInfo.sequence c.outbox c'.outbox kind

variable {file : WireFile} {name : Str} {w : WireFile} {epoch : Epoch}

lemma toWire_toStored (h : plainType file.type = true) (q : ℤ) :
    FileInfo.toWire { file.toStored with sequence := q } = .ok { file with sequence := q } := by
  have hblocks : (file.blocks.map BlockInfo.toStored).map StoredBlock.toWire = file.blocks := by
    rw [map_map]
    exact map_id _
  simp only [plainType, Bool.or_eq_true, decide_eq_true_eq] at h
  unfold FileInfo.toWire FileInfo.toStored
  rcases h with (h | h) | h <;> simp [h, bepTypeToStorage, storageTypeToBep, Except.map, hblocks]

lemma Conn.Speaks.still (hmax : maxSeq c'.store.db = maxSeq c.store.db)
    (hfiles : ∀ path, wireAt c'.store.db path = wireAt c.store.db path) (hs : c'.updates = c.updates)
    (hi : c'.index.unsent = c.index.unsent) (hm : c'.msg.unsent = c.msg.unsent) : c.Speaks c' .stay := by
  refine Outbox.Moves.stay hmax (funext fun path => ?_) (funext fun speaker => ?_) hs
  · show (wireAt c'.store.db path).bind _ = (wireAt c.store.db path).bind _
    rw [hfiles]
  · cases speaker with
    | index => exact hi
    | msg => exact hm

lemma Conn.Speaks.stay (hdb : IndexKept c.store.db c'.store.db) (hs : c'.updates = c.updates)
    (hi : c'.index.unsent = c.index.unsent) (hm : c'.msg.unsent = c.msg.unsent) : c.Speaks c' .stay :=
  .still hdb.maxSeq hdb.files hs hi hm

lemma indexed_of_commit (h : IndexCommit c.store.db c'.store.db name (.ok w)) :
    c'.indexed = Function.update c.indexed (splitName name) (some w) := by
  funext path
  rw [Function.update_apply]
  unfold Conn.indexed
  split_ifs with hp
  · rw [hp, h.file]
    rfl
  · rw [h.files path hp]

lemma unsent_of_index {w : Option WireFile} (hi : c'.index.unsent = w) (hm : c'.msg.unsent = c.msg.unsent) :
    c'.unsent = Function.update c.unsent .index w := by
  funext speaker
  cases speaker with
  | index => rw [Function.update_self, Conn.unsent, hi]
  | msg => rw [Function.update_of_ne (by rintro ⟨⟩), Conn.unsent, Conn.unsent, hm]

lemma unsent_of_msg {w : Option WireFile} (hi : c'.index.unsent = c.index.unsent) (hm : c'.msg.unsent = w) :
    c'.unsent = Function.update c.unsent .msg w := by
  funext speaker
  cases speaker with
  | index => rw [Function.update_of_ne (by rintro ⟨⟩), Conn.unsent, Conn.unsent, hi]
  | msg => rw [Function.update_self, Conn.unsent, hm]

lemma Conn.Speaks.lose (hdb : maxSeq c.store.db ≤ maxSeq c'.store.db) (hs : c'.updates = c.updates)
    (hi : c'.index.unsent = c.index.unsent ∨ c'.index.unsent = none)
    (hm : c'.msg.unsent = c.msg.unsent ∨ c'.msg.unsent = none) : c.Speaks c' .lose := by
  refine Outbox.Moves.lose hdb (fun speaker => ?_) hs
  cases speaker with
  | index => exact hi
  | msg => exact hm

def Spoilt (epoch : Epoch) (db : Db) : Prop :=
  ∃ name staged, entryAt db (inboxKey epoch name) = some staged ∧ ¬ staged.Typed

inductive Conn.Says (epoch : Epoch) (c c' : Conn) (i : Speaker) : Prop
  | stay (speaks : c.Speaks c' .stay)
  | commit (speaks : c.Speaks c' (.commit i)) (commits : c.commits i = true)
  | inexact (speaks : c.Speaks c' (.inexact i)) (commits : c.commits i = true) (retypes : c.retypes i = true)
  | send (speaks : c.Speaks c' (.send i)) (unsent : (c.unsent i).isSome)
  | resolve (speaks : c.Speaks c' .lose) (resolves : c.resolves i = true)
  | spoil (speaks : c.Speaks c' .lose) (spoilt : Spoilt epoch c.store.db) (stopped : c'.stopped i = true)

section

variable (hdb : IndexCommit c.store.db c'.store.db name (.ok w)) (hs : c'.updates = c.updates)
include hdb hs

lemma speaks_commit_index (hfree : c.index.unsent = none) (hi : c'.index.unsent = some w)
    (hm : c'.msg.unsent = c.msg.unsent) : c.Speaks c' (.commit .index) :=
  Outbox.Moves.commit (hdb.number w rfl) hfree hdb.maxSeq (indexed_of_commit hdb) (unsent_of_index hi hm) hs

lemma speaks_commit_msg (hfree : c.msg.unsent = none) (hm : c'.msg.unsent = some w)
    (hi : c'.index.unsent = c.index.unsent) : c.Speaks c' (.commit .msg) :=
  Outbox.Moves.commit (hdb.number w rfl) hfree hdb.maxSeq (indexed_of_commit hdb) (unsent_of_msg hi hm) hs

end

lemma failIndex_said {c₁ : Conn} (hdb : IndexKept c.store.db c₁.store.db) (hs : c₁.updates = c.updates)
    (hm : c₁.msg = c.msg) (hi : c.index.unsent = none) : c.Says epoch c₁.failIndex .index :=
  .stay (.stay hdb hs hi.symm (congrArg MsgPc.unsent hm))

lemma setIndex_said {pc : IndexPc} (hi : c.index.unsent = none) (hpc : pc.unsent = none) :
    c.Says epoch (c.setIndex pc) .index :=
  .stay (.stay .refl rfl (hpc.trans hi.symm) rfl)

lemma commit_said {todo needed : List WireFile} {seq : ℤ} {db : Db}
    (hpc : c.index = .perform file .commit todo needed) (hput : putFile c.store.db file = (.ok seq, db)) :
    c.Says cfg.epoch ((c.setDb db).setIndex (.notify { file with sequence := seq } (.apply todo needed))) .index := by
  have hi : c.index.unsent = none := by rw [hpc]; rfl
  have hcommits : c.commits .index = true := by rw [Conn.commits, hpc]; rfl
  rcases putFile_next hput with ⟨-, e, he⟩ | ⟨hr, hdb⟩
  · cases he
  · cases hr
    by_cases ht : plainType file.type = true
    · rw [toWire_toStored ht] at hdb
      exact .commit (speaks_commit_index hdb rfl hi rfl rfl) hcommits
    · have hretypes : c.retypes .index = true := by
        rw [Conn.retypes, hpc, IndexPc.retypes, Bool.not_eq_true', Bool.eq_false_iff]
        exact ht
      exact .inexact (Outbox.Moves.inexact rfl hi hdb.maxSeq (unsent_of_index rfl rfl) rfl) hcommits hretypes

lemma completeFile_commits {db db' : Db} {expected : Option VersionVector} {committed : Option WireFile}
    (h : completeFile db epoch name expected = (.ok committed, db')) :
    (committed = none ∧ db' = db) ∨ ∃ w, committed = some w ∧ IndexCommit db db' name (.ok w) := by
  rcases completeFile_next h with ⟨rfl, hr⟩ | ⟨x, staged, hdb, hr, -⟩
  · cases committed with
    | none => exact .inl ⟨rfl, rfl⟩
    | some w => exact absurd rfl (hr w)
  · cases x with
    | error => cases hr
    | ok w =>
      cases hr
      exact .inr ⟨w, rfl, hdb⟩

lemma completeFile_spoilt {db db' : Db} {expected : Option VersionVector} {e : StorageError}
    (h : completeFile db epoch name expected = (.error e, db')) :
    db' = db ∨ maxSeq db ≤ maxSeq db' ∧ Spoilt epoch db := by
  rcases completeFile_next h with ⟨rfl, -⟩ | ⟨x, staged, hdb, hr, hst, htyped⟩
  · exact .inl rfl
  · refine .inr ⟨hdb.maxSeq_le, _, staged, hst, fun ht => ?_⟩
    obtain ⟨w, rfl⟩ := htyped ht
    cases hr

lemma reuseBlock_index {hash : Bytes} {size : ℤ} {r : Except StorageError Bool} {st : Store}
    (h : c.reuseBlock cfg name hash size = (r, st)) : IndexKept c.store.db st.db := by
  unfold Conn.reuseBlock at h
  split_ifs at h
  · cases h
    exact .refl
  · exact reuseBlock_kept h

lemma submitOrDeferBlock_updates {block : FileBlock} {size : ℤ} {blockNo : ℕ}
    (h : c.submitOrDeferBlock cfg block size blockNo = some c') : c'.updates = c.updates := by
  unfold Conn.submitOrDeferBlock at h
  split_ifs at h
  · cases h
    rfl
  · obtain ⟨next, -, rfl⟩ := Option.map_eq_some_iff.1 h
    show (c.sent ++ [_]).filterMap _ = c.sent.filterMap _
    rw [filterMap_append]
    exact append_nil _

lemma updates_notify :
    (c.sent ++ [Outgoing.indexUpdate file]).filterMap Outgoing.update = c.updates ++ [file] := by
  rw [filterMap_append]
  rfl

lemma resolve_said (hres : c.resolves .index = true) (hle : maxSeq c.store.db ≤ maxSeq c'.store.db)
    (hs : c'.updates = c.updates) (hi : c'.index.unsent = none)
    (hm : c'.msg = c.msg) : c.Says epoch c' .index :=
  .resolve (.lose hle hs (.inr hi) (.inl (congrArg MsgPc.unsent hm))) hres

lemma record_said (hi : c.index.unsent = none) : c.Says epoch ((c.setDb (c.store.db.write
    [.put (.md cfg.device) (.remote ⟨cfg.indexId, c.lastSequence⟩)])).setIndex .idle) .index := by
  have hother : ∀ k, (∀ d, k ≠ .md d) → (c.store.db.write
      [.put (.md cfg.device) (.remote ⟨cfg.indexId, c.lastSequence⟩)]).get k = c.store.db.get k := by
    intro k hk
    exact Db.get_write_single (fun he => hk _ he.symm)
  refine .stay (.still (maxSeq_of_get_eq (hother _ (by rintro _ ⟨⟩))) (fun path => ?_) rfl hi.symm rfl)
  exact congrArg _ (entryAt_of_get_eq (hother _ (by rintro _ ⟨⟩)))

theorem indexStep_said (hplain : c.index.Plain) (h : c.indexStep cfg = some c') :
    c.Says cfg.epoch c' .index := by
  cases Conn.indexStep_takes h with
  | refuse hpc | submitFails hpc =>
    exact failIndex_said .refl rfl rfl (by rw [hpc]; rfl)
  | read hpc | next hpc | applied hpc | pass hpc | contest hpc | requested hpc
  | giveUp hpc | check hpc | leave hpc =>
    exact setIndex_said (by rw [hpc]; rfl) rfl
  | stage hpc =>
    exact .stay (.stay stageFile_kept rfl (by rw [hpc]; rfl) rfl)
  | commit hpc hput =>
    exact commit_said hpc hput
  | commitFails hpc hput | winFails hpc hput =>
    cases putFile_error hput
    exact failIndex_said .refl rfl rfl (by rw [hpc]; rfl)
  | copy hpc hput =>
    refine resolve_said (by rw [Conn.resolves, hpc]; rfl) ?_ rfl rfl rfl
    rcases putFileWithCarry_next hput with hdb | ⟨x, hdb⟩
    · exact hdb.symm ▸ le_rfl
    · exact hdb.maxSeq_le
  | copyFails hpc hput =>
    refine failIndex_said ?_ rfl rfl (by rw [hpc]; rfl)
    rw [putFileWithCarry_error hput]
    exact .refl
  | win hpc hput =>
    refine resolve_said (by rw [Conn.resolves, hpc]; rfl) ?_ rfl rfl rfl
    rcases putFile_next hput with ⟨-, e, he⟩ | ⟨-, hdb⟩
    · cases he
    · exact hdb.maxSeq_le
  | reuse hpc hreuse | miss hpc hreuse =>
    exact .stay (.stay (reuseBlock_index hreuse) rfl (by rw [hpc]; rfl) rfl)
  | reuseFails hpc hreuse =>
    exact failIndex_said (reuseBlock_index hreuse) rfl rfl (by rw [hpc]; rfl)
  | submit hpc _ hsub =>
    obtain ⟨-, hst, -, -, hmsg⟩ := submitOrDeferBlock_eq_some hsub
    have hupdates := submitOrDeferBlock_updates hsub
    refine .stay (.stay ?_ hupdates (by rw [hpc]; rfl) (congrArg MsgPc.unsent hmsg))
    rw [Conn.setIndex, hst]
    exact .refl
  | complete hpc hcomplete =>
    have hi : c.index.unsent = none := by rw [hpc]; rfl
    rcases completeFile_commits hcomplete with ⟨rfl, rfl⟩ | ⟨w, rfl, hdb⟩
    · exact .stay (.stay .refl rfl hi.symm rfl)
    · exact .commit (speaks_commit_index hdb rfl hi rfl rfl) (by rw [Conn.commits, hpc]; rfl)
  | completeFails hpc hcomplete =>
    rcases completeFile_spoilt hcomplete with rfl | ⟨hle, hspoilt⟩
    · exact failIndex_said .refl rfl rfl (by rw [hpc]; rfl)
    · exact .spoil (.lose hle rfl (.inr rfl) (.inl rfl)) hspoilt rfl
  | @notify file next hpc =>
    rw [hpc] at hplain
    have hhas : c.unsent .index = some file := by
      rw [Conn.unsent, hpc]
      rfl
    refine .send (Outbox.Moves.send hhas rfl rfl (unsent_of_index hplain.1 rfl) updates_notify) ?_
    rw [hhas]
    rfl
  | record hpc =>
    exact record_said (by rw [hpc]; rfl)

lemma failMsg_said {c₁ : Conn} (hdb : IndexKept c.store.db c₁.store.db) (hs : c₁.updates = c.updates)
    (hi : c₁.index = c.index) (hm : c.msg.unsent = none) : c.Says epoch c₁.failMsg .msg :=
  .stay (.stay hdb hs (congrArg IndexPc.unsent hi) hm.symm)

lemma setMsg_said {pc : MsgPc} (hm : c.msg.unsent = none) (hpc : pc.unsent = none) :
    c.Says epoch (c.setMsg pc) .msg :=
  .stay (.stay .refl rfl rfl (hpc.trans hm.symm))

lemma unsent_afterDrain (done : Option FileBlock) :
    (Conn.afterDrain done).unsent = none ∧ (Conn.afterDrain done).Plain := by
  cases done with
  | none => exact ⟨rfl, trivial⟩
  | some => exact ⟨rfl, rfl, trivial⟩

lemma response_speaks {id code : ℤ} {data : Bytes} (hm : c.msg.unsent = none) :
    c.Speaks (c.response id code data) .stay := by
  unfold Conn.response
  split
  · exact .stay .refl rfl rfl hm.symm
  · split_ifs <;> exact .stay .refl rfl rfl hm.symm

lemma response_plain (c : Conn) (id code : ℤ) (data : Bytes) :
    (c.response id code data).index = c.index ∧ (c.response id code data).msg.Plain := by
  unfold Conn.response
  split
  · exact ⟨rfl, trivial⟩
  · split_ifs <;> exact ⟨rfl, trivial⟩

theorem msgStep_said (hplain : c.msg.Plain) (h : c.msgStep cfg = some c') : c.Says cfg.epoch c' .msg := by
  cases Conn.msgStep_takes h with
  | store hpc hstore =>
    exact .stay (.stay (storeBlock_kept hstore) rfl rfl (by rw [hpc]; rfl))
  | storeFails hpc hstore =>
    exact failMsg_said (storeBlock_kept hstore) rfl rfl (by rw [hpc]; rfl)
  | @drained done hpc =>
    exact setMsg_said (by rw [hpc]; rfl) (unsent_afterDrain done).1
  | take hpc =>
    exact .stay (.stay .refl rfl rfl (by rw [hpc]; rfl))
  | reuse hpc hreuse | miss hpc hreuse =>
    exact .stay (.stay (reuseBlock_index hreuse) rfl rfl (by rw [hpc]; rfl))
  | reuseFails hpc hreuse =>
    exact failMsg_said (reuseBlock_index hreuse) rfl rfl (by rw [hpc]; rfl)
  | submit hpc hsub =>
    obtain ⟨-, hst, -, hindex, -⟩ := submitOrDeferBlock_eq_some hsub
    have hupdates := submitOrDeferBlock_updates hsub
    refine .stay (.stay ?_ hupdates (congrArg IndexPc.unsent hindex) (by rw [hpc]; rfl))
    rw [Conn.setMsg, hst]
    exact .refl
  | check hpc =>
    exact setMsg_said (by rw [hpc]; rfl) rfl
  | leave hpc =>
    rw [hpc] at hplain
    exact setMsg_said (by rw [hpc]; rfl) hplain.1
  | complete hpc hcomplete =>
    rw [hpc] at hplain
    have hm : c.msg.unsent = none := by rw [hpc]; rfl
    rcases completeFile_commits hcomplete with ⟨rfl, rfl⟩ | ⟨w, rfl, hdb⟩
    · exact .stay (.stay .refl rfl rfl (hplain.1.trans hm.symm))
    · exact .commit (speaks_commit_msg hdb rfl hm rfl rfl) (by rw [Conn.commits, hpc]; rfl)
  | completeFails hpc hcomplete =>
    rcases completeFile_spoilt hcomplete with rfl | ⟨hle, hspoilt⟩
    · exact failMsg_said .refl rfl rfl (by rw [hpc]; rfl)
    · exact .spoil (.lose hle rfl (.inl rfl) (.inr rfl)) hspoilt rfl
  | @notify file next hpc =>
    rw [hpc] at hplain
    have hhas : c.unsent .msg = some file := by
      rw [Conn.unsent, hpc]
      rfl
    refine .send (Outbox.Moves.send hhas rfl rfl (unsent_of_msg rfl hplain.1) updates_notify) ?_
    rw [hhas]
    rfl

lemma indexStep_plain (hplain : c.index.Plain) (h : c.indexStep cfg = some c') :
    c'.index.Plain ∧ c'.msg = c.msg := by
  cases Conn.indexStep_takes h with
  | submit hpc _ hsub =>
    exact ⟨trivial, (submitOrDeferBlock_eq_some hsub).2.2.2.2⟩
  | commit =>
    exact ⟨⟨rfl, trivial⟩, rfl⟩
  | @complete _ _ committed =>
    cases committed with
    | none => exact ⟨trivial, rfl⟩
    | some => exact ⟨⟨rfl, trivial⟩, rfl⟩
  | notify hpc =>
    rw [hpc] at hplain
    exact ⟨hplain.2, rfl⟩
  | _ =>
    exact ⟨trivial, rfl⟩

lemma msgStep_plain (hplain : c.msg.Plain) (h : c.msgStep cfg = some c') :
    c'.msg.Plain ∧ c'.index = c.index := by
  cases Conn.msgStep_takes h with
  | @drained done =>
    exact ⟨(unsent_afterDrain done).2, rfl⟩
  | reuse =>
    exact ⟨⟨rfl, trivial⟩, rfl⟩
  | submit hpc hsub =>
    exact ⟨trivial, (submitOrDeferBlock_eq_some hsub).2.2.2.1⟩
  | check hpc =>
    rw [hpc] at hplain
    exact ⟨hplain, rfl⟩
  | leave hpc | notify hpc =>
    rw [hpc] at hplain
    exact ⟨hplain.2, rfl⟩
  | @complete _ _ committed _ hpc =>
    rw [hpc] at hplain
    cases committed with
    | none => exact ⟨hplain.2, rfl⟩
    | some => exact ⟨hplain, rfl⟩
  | _ =>
    exact ⟨trivial, rfl⟩

end Conn

end Bepository.Sync
