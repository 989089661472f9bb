import Bepository.Sync.Outbox

/-!
# The index loop and its batch

The index loop takes the files of a batch one by one.  `IndexPc.front` are those that it is not done with, and
`Turns` lists what a step can do with the one at the front: skip it, stage it, commit it, or dispute it with the
committed entry.  `Framed`, `Aside` and `Follows` say what else the steps of the loops leave alone.
-/

namespace Bepository.Sync

open Lib Storage List

/-! ### Where the index loop is in a batch -/

def IndexPc.front : IndexPc → List WireFile
  | .apply todo _ => todo
  | .perform file _ todo _ => file :: todo
  | .conflict _ remote todo _ => remote :: todo
  | .copy file _ _ todo _ => file :: todo
  | .winner file todo _ => file :: todo
  | .notify _ next => next.front
  | _ => []

/-- Those of which nothing is known yet but that they are to be applied. -/
def IndexPc.ahead : IndexPc → List WireFile
  | .apply todo _ => todo
  | .perform _ .noAction todo _ => todo
  | .perform file _ todo _ => file :: todo
  | .conflict _ _ todo _ => todo
  | .copy _ _ _ todo _ => todo
  | .winner _ todo _ => todo
  | .notify _ next => next.ahead
  | _ => []

def IndexPc.disputed : IndexPc → Option WireFile
  | .conflict _ remote _ _ => some remote
  | .copy file _ _ _ _ => some file
  | .winner file _ _ => some file
  | _ => none

/-- The file that `apply_update` has found to be in conflict with the committed entry. -/
def IndexPc.contests : IndexPc → List WireFile
  | .perform file (.concurrent _) _ _ => [file]
  | _ => []

/-- An `IndexUpdate` is queued between two files. -/
def IndexPc.Between : IndexPc → Prop
  | .notify _ next => ∃ todo needed, next = .apply todo needed
  | _ => True

/-- The loops are at the same place of the batch. -/
structure IndexPc.SamePlace (pc pc' : IndexPc) : Prop where
  front : pc'.front = pc.front
  ahead : pc'.ahead = pc.ahead
  disputed : pc'.disputed = pc.disputed

structure IndexPc.Leaves (pc pc' : IndexPc) (file : WireFile) : Prop where
  front : pc.front = file :: pc'.front
  ahead : pc.ahead = file :: pc'.ahead
  disputed : pc'.disputed = pc.disputed

inductive Turns (epoch : Epoch) (c c' : Conn) : Doing → Prop
  | on {d} (unstaged : ∀ file, d ≠ .stage file) (uncommitted : ∀ file, d ≠ .commit file)
      (undisputed : ∀ file, d ≠ .winner file) (place : c.index.SamePlace c'.index) : Turns epoch c c' d
  | skip {file} (front : c'.index.front = c.index.front) (ahead : c.index.ahead = file :: c'.index.ahead)
      (disputed : c'.index.disputed = c.index.disputed) (read : readUpdate c.store.db file = .ok .noAction)
      (store : c'.store = c.store) : Turns epoch c c' .other
  | pass {file} (front : c.index.front = file :: c'.index.front) (ahead : c'.index.ahead = c.index.ahead)
      (disputed : c'.index.disputed = c.index.disputed) : Turns epoch c c' .other
  | stage {file} (leaves : c.index.Leaves c'.index file)
      (entries : c'.store.db = stageFile c.store.db epoch file)
      (tracked : Tracked c'.jobs file.name file.version) : Turns epoch c c' (.stage file)
  | commit {file} (leaves : c.index.Leaves c'.index file)
      (replaced : Replaced c.store.db c'.store.db file.name file.toStored fun _ => False) :
      Turns epoch c c' (.commit file)
  | dispute {file} (front : c'.index.front = c.index.front) (ahead : c.index.ahead = file :: c'.index.ahead)
      (before : c.index.disputed = none) (disputed : c'.index.disputed = some file)
      (contests : file ∈ c.index.contests) : Turns epoch c c' .other
  | win {file} (front : c.index.front = file :: c'.index.front) (ahead : c'.index.ahead = c.index.ahead)
      (before : c.index.disputed = some file) (disputed : c'.index.disputed = none)
      (replaced : Replaced c.store.db c'.store.db file.name file.toStored fun _ => False)
      (wanted : file.deleted = false → ∀ b ∈ file.blocks, Wanted c'.jobs (splitName file.name) b.hash) :
      Turns epoch c c' (.winner file)
  | fail {d} (stopped : c'.index = .stopped) (down : c'.shutdown = true) : Turns epoch c c' d

section Turns

variable {cfg : Config} {epoch : Epoch} {c c' : Conn} {d : Doing}

lemma IndexPc.SamePlace.refl {pc : IndexPc} : pc.SamePlace pc := ⟨rfl, rfl, rfl⟩

lemma turns_of_front_nil {pc pc' : IndexPc} (hpc : c.index = pc) (hpc' : c'.index = pc')
    (hfront : pc.front = [] ∧ pc.ahead = [] ∧ pc.disputed = none)
    (hfront' : pc'.front = [] ∧ pc'.ahead = [] ∧ pc'.disputed = none) (hstage : ∀ file, d ≠ .stage file)
    (hcommit : ∀ file, d ≠ .commit file) (hwinner : ∀ file, d ≠ .winner file) : Turns epoch c c' d := by
  refine .on hstage hcommit hwinner ⟨?_, ?_, ?_⟩ <;> rw [hpc, hpc']
  · exact hfront'.1.trans hfront.1.symm
  · exact hfront'.2.1.trans hfront.2.1.symm
  · exact hfront'.2.2.trans hfront.2.2.symm

theorem indexStep_turns (hbetween : c.index.Between) (h : c.indexStep cfg = some c') :
    Turns cfg.epoch c c' c.index.doing := by
  cases Conn.indexStep_takes h with
  | refuse | commitFails | copyFails | winFails | reuseFails
  | submitFails | completeFails =>
    exact .fail rfl rfl
  | @read file step todo needed hpc hread =>
    rw [hpc]
    cases step with
    | noAction => refine .skip ?_ ?_ ?_ hread rfl <;> rw [hpc] <;> rfl
    | _ =>
      refine .on (by rintro _ ⟨⟩) (by rintro _ ⟨⟩) (by rintro _ ⟨⟩) ?_
      rw [hpc]
      exact ⟨rfl, rfl, rfl⟩
  | @stage file todo needed hpc =>
    have hneeded : wholeJob file ∈ (needed ++ [file]).map wholeJob := (mem_needed _).2 (mem_cons_self)
    rw [hpc]
    refine .stage ⟨?_, ?_, ?_⟩ rfl ⟨wholeJob file, ?_, rfl, rfl⟩
    · rw [hpc]; rfl
    · rw [hpc]; rfl
    · rw [hpc]; rfl
    · exact mem_append_left _ (mem_append_left _ hneeded)
  | commit hpc hput =>
    rw [hpc]
    refine .commit ⟨?_, ?_, ?_⟩ (putFile_ok hput) <;> rw [hpc] <;> rfl
  | @pass file todo needed hpc =>
    rw [hpc]
    refine @Turns.pass _ _ _ file ?_ ?_ ?_ <;> rw [hpc] <;> rfl
  | @contest file localFile todo needed hpc =>
    rw [hpc]
    refine @Turns.dispute _ _ _ file ?_ ?_ ?_ rfl ?_
    · rw [hpc]; rfl
    · rw [hpc]; rfl
    · rw [hpc]; rfl
    · rw [hpc]; exact mem_cons_self
  | @win file todo needed _ _ hpc hput =>
    rw [hpc]
    refine .win ?_ ?_ ?_ rfl (putFile_ok hput) fun hlive b hb => ?_
    · rw [hpc]; rfl
    · rw [hpc]; rfl
    · rw [hpc]; rfl
    · refine ⟨wholeJob file, mem_append_left _ (mem_append_left _ ?_), rfl, mem_map.2 ⟨b, hb, rfl⟩⟩
      rw [hlive]
      exact (mem_needed _).2 mem_cons_self
  | copy hpc _ =>
    rw [hpc]
    refine .on (by rintro _ ⟨⟩) (by rintro _ ⟨⟩) (by rintro _ ⟨⟩) ?_
    rw [hpc]
    exact ⟨rfl, rfl, rfl⟩
  | next hpc | applied hpc | requested hpc | giveUp hpc _ | reuse hpc _ | miss hpc _
  | submit hpc _ _ | check hpc _ | leave hpc _ | record hpc =>
    rw [hpc]
    exact turns_of_front_nil hpc rfl ⟨rfl, rfl, rfl⟩ ⟨rfl, rfl, rfl⟩ (by rintro _ ⟨⟩) (by rintro _ ⟨⟩)
      (by rintro _ ⟨⟩)
  | @complete file needed committed _ hpc _ =>
    rw [hpc]
    refine turns_of_front_nil hpc rfl ⟨rfl, rfl, rfl⟩ ?_ (by rintro _ ⟨⟩) (by rintro _ ⟨⟩) (by rintro _ ⟨⟩)
    cases committed <;> exact ⟨rfl, rfl, rfl⟩
  | notify hpc =>
    rw [hpc] at hbetween ⊢
    obtain ⟨todo, needed, rfl⟩ := hbetween
    refine .on (by rintro _ ⟨⟩) (by rintro _ ⟨⟩) (by rintro _ ⟨⟩) ?_
    rw [hpc]
    exact ⟨rfl, rfl, rfl⟩

/-- What the loops leave alone, apart from the write of `set_remote_state`. -/
structure Framed (c c' : Conn) : Prop where
  lastSequence : c'.lastSequence = c.lastSequence
  peers : ∀ device, c'.store.db.get (.md device) = c.store.db.get (.md device)

lemma Framed.of_db (hlast : c'.lastSequence = c.lastSequence) (h : c'.store.db = c.store.db) : Framed c c' :=
  ⟨hlast, fun _ => by rw [h]⟩

lemma Framed.of_kept (hlast : c'.lastSequence = c.lastSequence) (h : IndexKept c.store.db c'.store.db) :
    Framed c c' :=
  ⟨hlast, h.peers⟩

lemma putFile_peers {db db' : Db} {file : WireFile} {r : Except StorageError ℤ} (h : putFile db file = (r, db'))
    (device : Bytes32) : db'.get (.md device) = db.get (.md device) := by
  rcases putFile_next h with ⟨rfl, -⟩ | ⟨-, hdb⟩
  · rfl
  · exact hdb.peers device

lemma completeFile_peers {db db' : Db} {name : Str} {expected : Option VersionVector}
    {r : Except StorageError (Option WireFile)} (h : completeFile db epoch name expected = (r, db'))
    (device : Bytes32) : db'.get (.md device) = db.get (.md device) := by
  rcases completeFile_next h with ⟨rfl, -⟩ | ⟨x, staged, hdb, -⟩
  · rfl
  · exact hdb.peers device

lemma submitOrDeferBlock_framed {block : FileBlock} {size : ℤ} {blockNo : ℕ}
    (h : c.submitOrDeferBlock cfg block size blockNo = some c') : Framed c c' := by
  unfold Conn.submitOrDeferBlock at h
  split_ifs at h
  · cases h
    exact .of_db rfl rfl
  · obtain ⟨next, -, rfl⟩ := Option.map_eq_some_iff.1 h
    exact .of_db rfl rfl

lemma indexStep_framed (hpc : c.index ≠ .record) (h : c.indexStep cfg = some c') : Framed c c' := by
  cases Conn.indexStep_takes h with
  | stage =>
    exact .of_kept rfl stageFile_kept
  | commit _ hput | commitFails _ hput | win _ hput | winFails _ hput =>
    exact ⟨rfl, putFile_peers hput⟩
  | copy _ hput | copyFails _ hput =>
    refine ⟨rfl, fun device => ?_⟩
    rcases putFileWithCarry_next hput with hdb | ⟨x, hdb⟩
    · exact congrArg (fun db => db.get (.md device)) hdb
    · exact hdb.peers device
  | reuse _ hreuse | miss _ hreuse | reuseFails _ hreuse =>
    exact .of_kept rfl (reuseBlock_index hreuse)
  | submit _ _ hsub =>
    have hframed := submitOrDeferBlock_framed hsub
    exact ⟨hframed.lastSequence, hframed.peers⟩
  | complete _ hcomplete | completeFails _ hcomplete =>
    exact ⟨rfl, completeFile_peers hcomplete⟩
  | record hrec => exact absurd hrec hpc
  | _ =>
    exact .of_db rfl rfl

lemma msgStep_framed (h : c.msgStep cfg = some c') : Framed c c' ∧ c'.index = c.index := by
  cases Conn.msgStep_takes h with
  | store _ hstore | storeFails _ hstore =>
    exact ⟨.of_kept rfl (storeBlock_kept hstore), rfl⟩
  | reuse _ hreuse | miss _ hreuse | reuseFails _ hreuse =>
    exact ⟨.of_kept rfl (reuseBlock_index hreuse), rfl⟩
  | submit _ hsub =>
    have hframed := submitOrDeferBlock_framed hsub
    exact ⟨⟨hframed.lastSequence, hframed.peers⟩, (submitOrDeferBlock_eq_some hsub).2.2.2.1⟩
  | complete _ hcomplete | completeFails _ hcomplete =>
    exact ⟨⟨rfl, completeFile_peers hcomplete⟩, rfl⟩
  | _ =>
    exact ⟨.of_db rfl rfl, rfl⟩

/-- What the step stages and commits is not at the path. -/
structure Doing.Avoids (d : Doing) (path : Path) : Prop where
  stage : ∀ file, d = .stage file → splitName file.name ≠ path
  commit : ∀ file, d = .commit file → splitName file.name ≠ path
  winner : ∀ file, d = .winner file → splitName file.name ≠ path
  copy : ∀ loser name, d = .copy loser name → splitName name ≠ path

lemma Doing.avoids_other (path : Path) : Doing.other.Avoids path :=
  ⟨by rintro _ ⟨⟩, by rintro _ ⟨⟩, by rintro _ ⟨⟩, by rintro _ _ ⟨⟩⟩

lemma MsgPc.doing_avoids (pc : MsgPc) (path : Path) : pc.doing.Avoids path := by
  cases pc <;> exact ⟨by rintro _ ⟨⟩, by rintro _ ⟨⟩, by rintro _ ⟨⟩, by rintro _ _ ⟨⟩⟩

/-- The steps that leave the index loop where it is in the batch. -/
structure Aside (c c' : Conn) (d : Doing) : Prop where
  place : c.index.SamePlace c'.index
  framed : Framed c c'
  idle : c'.index = .idle ↔ c.index = .idle
  avoids : ∀ path, d.Avoids path

lemma Aside.of_index (hindex : c'.index = c.index) (hframed : Framed c c') (hav : ∀ path, d.Avoids path) :
    Aside c c' d := by
  refine ⟨?_, hframed, by rw [hindex], hav⟩
  rw [hindex]
  exact .refl

lemma Aside.turns (h : Aside c c' d) : Turns epoch c c' d :=
  .on (fun file he => (h.avoids (splitName file.name)).stage file he rfl)
    (fun file he => (h.avoids (splitName file.name)).commit file he rfl)
    (fun file he => (h.avoids (splitName file.name)).winner file he rfl) h.place

lemma response_aside (id code : ℤ) (data : Bytes) : Aside c (c.response id code data) .other := by
  refine .of_index (response_plain c id code data).1 ?_ Doing.avoids_other
  unfold Conn.response
  split
  · exact .of_db rfl rfl
  · split_ifs <;> exact .of_db rfl rfl

lemma msgStep_aside (h : c.msgStep cfg = some c') : Aside c c' c.msg.doing := by
  obtain ⟨hframed, hindex⟩ := msgStep_framed h
  exact .of_index hindex hframed (MsgPc.doing_avoids c.msg)

lemma resolve_aside {loserPath : Option Str} (h : c.resolve true loserPath = some c') :
    Aside c c' .other ∧ c'.index.resolves = true := by
  unfold Conn.resolve at h
  split at h
  · next hpc =>
    cases loserPath <;> cases h <;> refine ⟨⟨?_, .of_db rfl rfl, ?_, Doing.avoids_other⟩, rfl⟩ <;> rw [hpc]
    · exact ⟨rfl, rfl, rfl⟩
    · exact ⟨by rintro ⟨⟩, by rintro ⟨⟩⟩
    · exact ⟨rfl, rfl, rfl⟩
    · exact ⟨by rintro ⟨⟩, by rintro ⟨⟩⟩
  · cases h

/-- Where the index loop gets to: no step but `set_remote_state` ends the batch, and only the copy of a loser
leads on within `resolve_conflict`. -/
structure IndexPc.Follows (pc pc' : IndexPc) : Prop where
  between : pc'.Between
  busy : pc ≠ .record → pc' ≠ .idle
  resolves : pc'.resolves = true → pc.resolves = true ∧ pc.SamePlace pc' ∧ pc'.jobs = pc.jobs

lemma IndexPc.Follows.plain {pc pc' : IndexPc} (hbetween : pc'.Between) (hidle : pc' ≠ .idle)
    (hresolves : pc'.resolves = false) : pc.Follows pc' :=
  ⟨hbetween, fun _ => hidle, fun h => by rw [hresolves] at h; cases h⟩

lemma indexStep_follows (hbetween : c.index.Between) (h : c.indexStep cfg = some c') :
    c.index.Follows c'.index := by
  cases Conn.indexStep_takes h with
  | commit _ _ =>
    exact .plain ⟨_, _, rfl⟩ (by rintro ⟨⟩) rfl
  | copy hpc _ =>
    rw [hpc]
    exact ⟨trivial, fun _ => (by rintro ⟨⟩), fun _ => ⟨rfl, ⟨rfl, rfl, rfl⟩, rfl⟩⟩
  | @complete _ _ committed _ _ _ =>
    cases committed with
    | none => exact .plain trivial (by rintro ⟨⟩) rfl
    | some => exact .plain ⟨_, _, rfl⟩ (by rintro ⟨⟩) rfl
  | notify hpc =>
    rw [hpc] at hbetween
    obtain ⟨todo, needed, rfl⟩ := hbetween
    exact .plain trivial (by rintro ⟨⟩) rfl
  | record hpc =>
    rw [hpc]
    exact ⟨trivial, fun hne => absurd rfl hne, by rintro ⟨⟩⟩
  | _ =>
    exact .plain trivial (by rintro ⟨⟩) rfl

lemma contests_disputed {file : WireFile} (hmem : file ∈ c.index.contests) (h : c.indexStep cfg = some c') :
    file ∈ c.index.front ∧ c'.index.disputed = some file := by
  cases Conn.indexStep_takes h with
  | contest hpc =>
    rw [hpc] at hmem ⊢
    cases mem_singleton.1 hmem
    exact ⟨mem_cons_self, rfl⟩
  | refuse hpc | read hpc | next hpc | applied hpc | stage hpc | commit hpc | commitFails hpc | pass hpc
  | copy hpc | copyFails hpc | win hpc | winFails hpc | requested hpc | giveUp hpc | reuse hpc | miss hpc
  | reuseFails hpc | submit hpc | submitFails hpc | check hpc | leave hpc | complete hpc | completeFails hpc
  | notify hpc | record hpc =>
    rw [hpc] at hmem
    cases hmem

end Turns

end Bepository.Sync
