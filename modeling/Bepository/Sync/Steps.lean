import Bepository.Sync.Connection

/-!
# The steps of the loops, one by one

`Conn.indexStep` and `Conn.msgStep` are functions of where their loop is.  `IndexTakes` and `MsgTakes` list what
can come of a step, with the call of the store that it made and what that call returned, so that a property of
all steps is shown by cases on this list.
-/

namespace Bepository.Sync

open Lib Storage Option

namespace Conn

variable (cfg : Config) (c : Conn)

inductive IndexTakes : Conn → Prop
  | refuse {file todo needed} (pc : c.index = .apply (file :: todo) needed) : IndexTakes c.failIndex
  | read {file step todo needed} (pc : c.index = .apply (file :: todo) needed)
      (read : readUpdate c.store.db file = .ok step) :
      IndexTakes (c.setIndex (.perform file step todo needed))
  | next {file needed} (pc : c.index = .apply [] (file :: needed)) :
      IndexTakes (c.setIndex (.request file file.blocks needed))
  | applied (pc : c.index = .apply [] []) : IndexTakes (c.setIndex .record)
  | stage {file todo needed} (pc : c.index = .perform file .stage todo needed) :
      IndexTakes ((c.setDb (stageFile c.store.db cfg.epoch file)).setIndex (.apply todo (needed ++ [file])))
  | commit {file todo needed seq db} (pc : c.index = .perform file .commit todo needed)
      (put : putFile c.store.db file = (.ok seq, db)) :
      IndexTakes ((c.setDb db).setIndex (.notify { file with sequence := seq } (.apply todo needed)))
  | commitFails {file todo needed e db} (pc : c.index = .perform file .commit todo needed)
      (put : putFile c.store.db file = (.error e, db)) : IndexTakes ((c.setDb db).failIndex)
  | pass {file todo needed} (pc : c.index = .perform file .noAction todo needed) :
      IndexTakes (c.setIndex (.apply todo needed))
  | contest {file localFile todo needed} (pc : c.index = .perform file (.concurrent localFile) todo needed) :
      IndexTakes (c.setIndex (.conflict localFile file todo needed))
  | copy {file loser path todo needed seq st} (pc : c.index = .copy file loser path todo needed)
      (put : putFileWithCarry c.store { loser with name := path } loser.name = (.ok seq, st)) :
      IndexTakes ({ c with store := st }.setIndex (.winner file todo needed))
  | copyFails {file loser path todo needed e st} (pc : c.index = .copy file loser path todo needed)
      (put : putFileWithCarry c.store { loser with name := path } loser.name = (.error e, st)) :
      IndexTakes ({ c with store := st }.failIndex)
  | win {file todo needed seq db} (pc : c.index = .winner file todo needed)
      (put : putFile c.store.db file = (.ok seq, db)) :
      IndexTakes ((c.setDb db).setIndex (.apply todo (if file.deleted then needed else needed ++ [file])))
  | winFails {file todo needed e db} (pc : c.index = .winner file todo needed)
      (put : putFile c.store.db file = (.error e, db)) : IndexTakes ((c.setDb db).failIndex)
  | requested {file needed} (pc : c.index = .request file [] needed) :
      IndexTakes (c.setIndex (.check file needed))
  | giveUp {file block blocks needed} (pc : c.index = .request file (block :: blocks) needed)
      (shutdown : c.shutdown = true) : IndexTakes (c.setIndex (.check file needed))
  | reuse {file block blocks needed st} (pc : c.index = .request file (block :: blocks) needed)
      (reuse : c.reuseBlock cfg file.name block.hash block.size = (.ok true, st)) :
      IndexTakes ({ c with store := st }.setIndex (.request file blocks needed))
  | miss {file block blocks needed st} (pc : c.index = .request file (block :: blocks) needed)
      (reuse : c.reuseBlock cfg file.name block.hash block.size = (.ok false, st)) :
      IndexTakes ({ c with store := st }.setIndex (.submit file block blocks needed))
  | reuseFails {file block blocks needed e st} (pc : c.index = .request file (block :: blocks) needed)
      (reuse : c.reuseBlock cfg file.name block.hash block.size = (.error e, st)) :
      IndexTakes ({ c with store := st }.failIndex)
  | submit {file block blocks needed c₁} (pc : c.index = .submit file block blocks needed)
      (small : file.blocks.length - (blocks.length + 1) < 2 ^ 31)
      (submit : c.submitOrDeferBlock cfg ⟨file.name, block.offset, block.hash, file.version⟩ block.size
        (file.blocks.length - (blocks.length + 1)) = some c₁) :
      IndexTakes (c₁.setIndex (.request file blocks needed))
  | submitFails {file block blocks needed} (pc : c.index = .submit file block blocks needed)
      (large : 2 ^ 31 ≤ file.blocks.length - (blocks.length + 1)) : IndexTakes c.failIndex
  | check {file needed} (pc : c.index = .check file needed) (passed : c.shouldComplete file.name = true) :
      IndexTakes (c.setIndex (.complete file needed))
  | leave {file needed} (pc : c.index = .check file needed) (passed : c.shouldComplete file.name = false) :
      IndexTakes (c.setIndex (.apply [] needed))
  | complete {file needed committed db} (pc : c.index = .complete file needed)
      (complete : completeFile c.store.db cfg.epoch file.name file.version = (.ok committed, db)) :
      IndexTakes ((c.setDb db).setIndex (afterComplete .notify (.apply [] needed) committed))
  | completeFails {file needed e db} (pc : c.index = .complete file needed)
      (complete : completeFile c.store.db cfg.epoch file.name file.version = (.error e, db)) :
      IndexTakes ((c.setDb db).failIndex)
  | notify {file next} (pc : c.index = .notify file next) :
      IndexTakes ({ c with sent := c.sent ++ [.indexUpdate file], index := next })
  | record (pc : c.index = .record) :
      IndexTakes ((c.setDb (c.store.db.write [.put (.md cfg.device) (.remote ⟨cfg.indexId, c.lastSequence⟩)])).setIndex .idle)

inductive MsgTakes : Conn → Prop
  | store {block data st} (pc : c.msg = .store block data)
      (store : storeBlock cfg.bl c.store (some cfg.epoch) block.name block.hash data = (.ok (), st)) :
      MsgTakes ({ c with store := st }.setMsg (.drain (some block)))
  | storeFails {block data e st} (pc : c.msg = .store block data)
      (store : storeBlock cfg.bl c.store (some cfg.epoch) block.name block.hash data = (.error e, st)) :
      MsgTakes ({ c with store := st }.failMsg)
  | drained {done} (pc : c.msg = .drain done) (stop : c.shutdown = true ∨ c.full cfg = true ∨ c.deferred = []) :
      MsgTakes (c.setMsg (afterDrain done))
  | take {done d ds} (pc : c.msg = .drain done) (deferred : c.deferred = d :: ds) (free : c.full cfg = false) :
      MsgTakes ({ c with deferred := ds }.setMsg (.reuse d done))
  | reuse {done d st} (pc : c.msg = .reuse d done)
      (reuse : c.reuseBlock cfg d.block.name d.block.hash d.size = (.ok true, st)) :
      MsgTakes ({ c with store := st }.setMsg (.check d.block (.drain done)))
  | miss {done d st} (pc : c.msg = .reuse d done)
      (reuse : c.reuseBlock cfg d.block.name d.block.hash d.size = (.ok false, st)) :
      MsgTakes ({ c with store := st }.setMsg (.submit d done))
  | reuseFails {done d e st} (pc : c.msg = .reuse d done)
      (reuse : c.reuseBlock cfg d.block.name d.block.hash d.size = (.error e, st)) :
      MsgTakes ({ c with store := st }.failMsg)
  | submit {done d c₁} (pc : c.msg = .submit d done)
      (submit : c.submitOrDeferBlock cfg d.block d.size d.blockNo = some c₁) :
      MsgTakes (c₁.setMsg (.drain done))
  | check {block next} (pc : c.msg = .check block next) (passed : c.shouldComplete block.name = true) :
      MsgTakes (c.setMsg (.complete block next))
  | leave {block next} (pc : c.msg = .check block next) (passed : c.shouldComplete block.name = false) :
      MsgTakes (c.setMsg next)
  | complete {block next committed db} (pc : c.msg = .complete block next)
      (complete : completeFile c.store.db cfg.epoch block.name block.version = (.ok committed, db)) :
      MsgTakes ((c.setDb db).setMsg (afterComplete .notify next committed))
  | completeFails {block next e db} (pc : c.msg = .complete block next)
      (complete : completeFile c.store.db cfg.epoch block.name block.version = (.error e, db)) :
      MsgTakes ((c.setDb db).failMsg)
  | notify {file next} (pc : c.msg = .notify file next) :
      MsgTakes ({ c with sent := c.sent ++ [.indexUpdate file], msg := next })

variable {cfg c} {c' : Conn} {file : WireFile}

lemma readStep_takes {todo needed : List WireFile}
    (hpc : c.index = .apply (file :: todo) needed) : IndexTakes cfg c (c.readStep file todo needed) := by
  unfold readStep
  split
  · exact .refuse hpc
  · split
    · exact .refuse hpc
    · split
      · exact .refuse hpc
      · next step hread => exact .read hpc hread

lemma perform_takes {step : UpdateStep} {todo needed : List WireFile}
    (hpc : c.index = .perform file step todo needed) (h : c.indexStep cfg = some c') : IndexTakes cfg c c' := by
  simp only [indexStep, hpc] at h
  cases step with
  | stage =>
    cases h
    exact .stage hpc
  | commit =>
    cases hp : putFile c.store.db file with
    | mk r =>
      simp only [performUpdate, hp] at h
      cases r <;> cases h
      · exact .commitFails hpc hp
      · exact .commit hpc hp
  | noAction =>
    cases h
    exact .pass hpc
  | concurrent =>
    cases h
    exact .contest hpc

lemma request_takes {block : BlockInfo} {blocks : List BlockInfo} {needed : List WireFile}
    (hpc : c.index = .request file (block :: blocks) needed) (h : c.indexStep cfg = some c') :
    IndexTakes cfg c c' := by
  simp only [indexStep, hpc] at h
  split_ifs at h with hshut
  · cases h
    exact .giveUp hpc hshut
  · split at h <;> cases h
    · next hreuse => exact .reuseFails hpc hreuse
    · next hreuse => exact .reuse hpc hreuse
    · next hreuse => exact .miss hpc hreuse

theorem indexStep_takes (h : c.indexStep cfg = some c') : IndexTakes cfg c c' := by
  cases hpc : c.index with
  | idle | stopped | conflict => simp [indexStep, hpc] at h
  | apply todo needed =>
    simp only [indexStep, hpc] at h
    cases todo with
    | cons =>
      cases h
      exact readStep_takes hpc
    | nil =>
      cases needed <;> cases h
      · exact .applied hpc
      · exact .next hpc
  | perform => exact perform_takes hpc h
  | copy file loser path =>
    simp only [indexStep, hpc] at h
    cases hp : putFileWithCarry c.store { loser with name := path } loser.name with
    | mk r =>
      simp only [copyLoser, hp] at h
      cases r <;> cases h
      · exact .copyFails hpc hp
      · exact .copy hpc hp
  | winner =>
    simp only [indexStep, hpc] at h
    split at h <;> cases h
    · next hput => exact .winFails hpc hput
    · next hput => exact .win hpc hput
  | request file blocks =>
    cases blocks with
    | nil =>
      simp only [indexStep, hpc] at h
      cases h
      exact .requested hpc
    | cons => exact request_takes hpc h
  | submit =>
    simp only [indexStep, hpc] at h
    split_ifs at h with hlarge
    · cases h
      exact .submitFails hpc hlarge
    · obtain ⟨c₁, hsub, rfl⟩ := map_eq_some_iff.1 h
      exact .submit hpc (not_le.1 hlarge) hsub
  | check =>
    simp only [indexStep, hpc] at h
    cases h
    split_ifs with hpass
    · exact .check hpc hpass
    · exact .leave hpc (Bool.eq_false_iff.2 hpass)
  | complete =>
    simp only [indexStep, hpc] at h
    split at h <;> cases h
    · next hcomplete => exact .completeFails hpc hcomplete
    · next hcomplete => exact .complete hpc hcomplete
  | notify =>
    simp only [indexStep, hpc] at h
    cases h
    exact .notify hpc
  | record =>
    simp only [indexStep, hpc] at h
    cases h
    exact .record hpc

theorem msgStep_takes (h : c.msgStep cfg = some c') : MsgTakes cfg c c' := by
  cases hpc : c.msg with
  | idle | stopped => simp [msgStep, hpc] at h
  | store =>
    simp only [msgStep, hpc] at h
    split at h <;> cases h
    · next hstore => exact .storeFails hpc hstore
    · next hstore => exact .store hpc hstore
  | drain =>
    simp only [msgStep, hpc] at h
    split_ifs at h with hstop
    · cases h
      rw [Bool.or_eq_true] at hstop
      exact .drained hpc (hstop.imp_right .inl)
    · split at h <;> cases h
      · next hnil => exact .drained hpc (.inr (.inr hnil))
      · next hcons => exact .take hpc hcons (Bool.eq_false_iff.2 fun hfull => hstop (by simp [hfull]))
  | reuse =>
    simp only [msgStep, hpc] at h
    split at h <;> cases h
    · next hreuse => exact .reuseFails hpc hreuse
    · next hreuse => exact .reuse hpc hreuse
    · next hreuse => exact .miss hpc hreuse
  | submit =>
    simp only [msgStep, hpc] at h
    obtain ⟨c₁, hsub, rfl⟩ := map_eq_some_iff.1 h
    exact .submit hpc hsub
  | check =>
    simp only [msgStep, hpc] at h
    cases h
    split_ifs with hpass
    · exact .check hpc hpass
    · exact .leave hpc (Bool.eq_false_iff.2 hpass)
  | complete =>
    simp only [msgStep, hpc] at h
    split at h <;> cases h
    · next hcomplete => exact .completeFails hpc hcomplete
    · next hcomplete => exact .complete hpc hcomplete
  | notify =>
    simp only [msgStep, hpc] at h
    cases h
    exact .notify hpc

end Conn

end Bepository.Sync
