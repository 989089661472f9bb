import Bepository.Sync.Steps

/-!
# What a connection still has to do

A *job* is a file that a loop or a request is concerned with, and the blocks of it that are still to
come.  Jobs are in the hands of one of the loops, pending or deferred.  `Moves` lists what a step of a
connection can do to the entries of the folder, to the jobs and to the completions under way: no block is lost, none is
taken up but those of a file that is staged or of a conflict's winner, and some job goes on about every file, until it
is found that others are about it or `complete_file` has been called.
-/

namespace Bepository.Sync

open Lib Storage List

/-! ### Jobs -/

/-- A file, and the hashes of the blocks that are still to come. -/
structure Job where
  name : Str
  version : Option VersionVector
  hashes : List Bytes
  deriving DecidableEq

def fileJob (file : WireFile) (blocks : List BlockInfo) : Job :=
  ⟨file.name, file.version, blocks.map BlockInfo.hash⟩

def wholeJob (file : WireFile) : Job := fileJob file file.blocks

def FileBlock.job (b : FileBlock) : Job := ⟨b.name, b.version, [b.hash]⟩

def FileBlock.doneJob (b : FileBlock) : Job := ⟨b.name, b.version, []⟩

def IndexPc.jobs : IndexPc → List Job
  | .apply _ needed => needed.map wholeJob
  | .perform _ _ _ needed => needed.map wholeJob
  | .conflict _ _ _ needed => needed.map wholeJob
  | .copy _ _ _ _ needed => needed.map wholeJob
  | .winner _ _ needed => needed.map wholeJob
  | .request file blocks needed => fileJob file blocks :: needed.map wholeJob
  | .submit file block blocks needed => fileJob file (block :: blocks) :: needed.map wholeJob
  | .check file needed => fileJob file [] :: needed.map wholeJob
  | .complete file needed => fileJob file [] :: needed.map wholeJob
  | .notify _ next => next.jobs
  | .idle | .record | .stopped => []

def MsgPc.jobs : MsgPc → List Job
  | .store block _ => [block.job]
  | .drain done => done.toList.map FileBlock.doneJob
  | .reuse d done => d.block.job :: done.toList.map FileBlock.doneJob
  | .submit d done => d.block.job :: done.toList.map FileBlock.doneJob
  | .check block next => block.doneJob :: next.jobs
  | .complete block next => block.doneJob :: next.jobs
  | .notify _ next => next.jobs
  | .idle | .stopped => []

def IndexPc.completing : IndexPc → List (Str × Option VersionVector)
  | .complete file _ => [(file.name, file.version)]
  | .notify _ next => next.completing
  | _ => []

def MsgPc.completing : MsgPc → List (Str × Option VersionVector)
  | .complete block next => (block.name, block.version) :: next.completing
  | .check _ next => next.completing
  | .notify _ next => next.completing
  | _ => []

namespace Conn

def inHand (c : Conn) : List Job := c.index.jobs ++ c.msg.jobs

def requested (c : Conn) : List Job :=
  c.pending.toList.map (fun p => p.2.job) ++ c.deferred.map fun d => d.block.job

def jobs (c : Conn) : List Job := c.inHand ++ c.requested

/-- The calls of `complete_file` that are about to be made. -/
def completing (c : Conn) : List (Str × Option VersionVector) :=
  c.index.completing ++ c.msg.completing

end Conn

def Wanted (jobs : List Job) (path : Path) (hash : Bytes) : Prop :=
  ∃ j ∈ jobs, splitName j.name = path ∧ hash ∈ j.hashes

def Tracked (jobs : List Job) (name : Str) (version : Option VersionVector) : Prop :=
  ∃ j ∈ jobs, j.name = name ∧ j.version = version

def About (jobs : List Job) (path : Path) : Prop := ∃ j ∈ jobs, splitName j.name = path

/-- The jobs `J` go on as `J'`: about the same files and versions, no block is added, and none is lost but those that
are `gone`. -/
structure Carried (gone : Path → Bytes → Prop) (J J' : List Job) : Prop where
  tracked : ∀ name version, Tracked J' name version ↔ Tracked J name version
  wanted : ∀ path hash, Wanted J path hash → Wanted J' path hash ∨ gone path hash
  within : ∀ path hash, Wanted J' path hash → Wanted J path hash

section Carry

variable {gone : Path → Bytes → Prop} {J J' K K' : List Job} {j : Job} {hash : Bytes}
  {version : Option VersionVector} {path : Path} {name : Str}

@[simp] lemma wanted_nil : ¬ Wanted [] path hash := by
  rintro ⟨j, hj, -⟩
  cases hj

@[simp] lemma wanted_cons :
    Wanted (j :: J) path hash ↔ (splitName j.name = path ∧ hash ∈ j.hashes) ∨ Wanted J path hash := by
  simp [Wanted]

@[simp] lemma wanted_append : Wanted (J ++ K) path hash ↔ Wanted J path hash ∨ Wanted K path hash := by
  simp [Wanted, or_and_right, exists_or]

@[simp] lemma tracked_nil : ¬ Tracked [] name version := by
  rintro ⟨j, hj, -⟩
  cases hj

@[simp] lemma tracked_cons :
    Tracked (j :: J) name version ↔ (j.name = name ∧ j.version = version) ∨ Tracked J name version := by
  simp [Tracked]

@[simp] lemma tracked_append :
    Tracked (J ++ K) name version ↔ Tracked J name version ∨ Tracked K name version := by
  simp [Tracked, or_and_right, exists_or]

lemma Carried.of_iff (ht : ∀ name version, Tracked J' name version ↔ Tracked J name version)
    (hw : ∀ path hash, Wanted J' path hash ↔ Wanted J path hash) : Carried gone J J' :=
  ⟨ht, fun path hash h => .inl ((hw path hash).2 h), fun path hash => (hw path hash).1⟩

lemma Carried.of_mem_iff (h : ∀ j, j ∈ J' ↔ j ∈ J) : Carried gone J J' :=
  .of_iff (fun _ _ => exists_congr fun j => and_congr_left' (h j)) fun _ _ => exists_congr fun j => and_congr_left' (h j)

lemma Carried.refl : Carried gone J J := .of_mem_iff fun _ => .rfl

lemma Carried.append (h : Carried gone J J') (h' : Carried gone K K') : Carried gone (J ++ K) (J' ++ K') := by
  refine ⟨fun name version => ?_, fun path hash hw => ?_, fun path hash hw => ?_⟩
  · rw [tracked_append, tracked_append, h.tracked, h'.tracked]
  · rw [wanted_append] at hw ⊢
    rcases hw with hw | hw
    · exact (h.wanted _ _ hw).imp_left .inl
    · exact (h'.wanted _ _ hw).imp_left .inr
  · rw [wanted_append] at hw ⊢
    exact hw.imp (h.within _ _) (h'.within _ _)

lemma Carried.append_right (h : Carried gone J J') : Carried gone (J ++ K) (J' ++ K) :=
  h.append Carried.refl

lemma Carried.trans {J'' : List Job} (h : Carried gone J J') (h' : Carried gone J' J'') :
    Carried gone J J'' := by
  refine ⟨fun name version => (h'.tracked _ _).trans (h.tracked _ _), fun path hash hw => ?_,
    fun path hash hw => h.within _ _ (h'.within _ _ hw)⟩
  rcases h.wanted _ _ hw with hw | hg
  · exact h'.wanted _ _ hw
  · exact .inr hg

lemma Carried.shrink {j' : Job} (hn : j'.name = j.name) (hv : j'.version = j.version)
    (hh : ∀ hash ∈ j.hashes, hash ∈ j'.hashes ∨ gone (splitName j.name) hash)
    (hs : ∀ hash ∈ j'.hashes, hash ∈ j.hashes) : Carried gone (j :: J) (j' :: J) := by
  refine ⟨fun name version => ?_, fun path hash hw => ?_, fun path hash hw => ?_⟩
  · rw [tracked_cons, tracked_cons, hn, hv]
  · rw [wanted_cons, hn]
    rcases wanted_cons.1 hw with ⟨rfl, hmem⟩ | hw
    · exact (hh hash hmem).imp_left fun hmem => .inl ⟨rfl, hmem⟩
    · exact .inl (.inr hw)
  · rw [wanted_cons, hn] at hw
    exact wanted_cons.2 (hw.imp_left (.imp_right (hs hash)))

lemma Carried.split {file : WireFile} {block : BlockInfo} {blocks : List BlockInfo} :
    Carried gone (fileJob file (block :: blocks) :: J) (fileJob file blocks ::
        FileBlock.job ⟨file.name, block.offset, block.hash, file.version⟩ :: J) := by
  refine .of_iff (fun name version => ?_) fun path hash => ?_
  · simp only [fileJob, FileBlock.job, tracked_cons]
    tauto
  · simp only [fileJob, FileBlock.job, wanted_cons, map_cons, mem_cons, not_mem_nil, or_false]
    tauto

lemma Carried.about (h : Carried gone J J') (ha : About J path) : About J' path := by
  obtain ⟨j, hj, rfl⟩ := ha
  obtain ⟨j', hj', hname, -⟩ := (h.tracked j.name j.version).2 ⟨j, hj, rfl, rfl⟩
  exact ⟨j', hj', by rw [hname]⟩

end Carry

/-! ### Steps -/

/-- What a step does, as far as the files are concerned. -/
inductive Doing where
  | check (name : Str) (version : Option VersionVector)
  | complete (name : Str) (version : Option VersionVector)
  | stage (file : WireFile)
  | commit (file : WireFile)
  | copy (loser : WireFile) (path : Str)
  | winner (file : WireFile)
  /-- a block that is at hand, or perhaps, is stored -/
  | provide (name : Str) (hash : Bytes)
  | reconnect
  | other
  deriving DecidableEq

def IndexPc.doing : IndexPc → Doing
  | .perform file .stage _ _ => .stage file
  | .perform file .commit _ _ => .commit file
  | .copy _ loser path _ _ => .copy loser path
  | .winner file _ _ => .winner file
  | .check file _ => .check file.name file.version
  | .complete file _ => .complete file.name file.version
  | .request file (block :: _) _ => .provide file.name block.hash
  | _ => .other

def MsgPc.doing : MsgPc → Doing
  | .check block _ => .check block.name block.version
  | .complete block _ => .complete block.name block.version
  | .store block _ => .provide block.name block.hash
  | .reuse d _ => .provide d.block.name d.block.hash
  | _ => .other

def Conn.doing (c : Conn) : Act → Doing
  | .indexStep => c.index.doing
  | .msgStep => c.msg.doing
  | .reconnect => .reconnect
  | _ => .other

/-- The connection goes on: it takes up the jobs `new` and the completions `started`, and no block is
lost but those that are `gone`. -/
structure Goes (new : List Job) (started : List (Str × Option VersionVector))
    (gone : Path → Bytes → Prop) (c c' : Conn) : Prop where
  shutdown : c'.shutdown = c.shutdown
  tracked : ∀ name version, Tracked c'.jobs name version → Tracked (new ++ c.jobs) name version
  wanted : ∀ path hash, Wanted (new ++ c.jobs) path hash →
    Wanted c'.jobs path hash ∨ c.shutdown = true ∨ gone path hash
  completing : ∀ p ∈ c'.completing, p ∈ started ∨ p ∈ c.completing

abbrev GoesOn (new : List Job) (c c' : Conn) : Prop := Goes new [] (fun _ _ => False) c c'

/-- It goes on with all its jobs. -/
structure Stays (new : List Job) (started : List (Str × Option VersionVector))
    (gone : Path → Bytes → Prop) (c c' : Conn) : Prop where
  shutdown : c'.shutdown = c.shutdown
  jobs : Carried (fun path hash => c.shutdown = true ∨ gone path hash) (new ++ c.jobs) c'.jobs
  completing : ∀ p ∈ c'.completing, p ∈ started ∨ p ∈ c.completing

abbrev StaysOn (new : List Job) (c c' : Conn) : Prop := Stays new [] (fun _ _ => False) c c'

/-- It goes on without one job, which has no block left. -/
structure Leaves (name : Str) (version : Option VersionVector) (c c' : Conn) : Prop where
  shutdown : c'.shutdown = c.shutdown
  jobs : c.jobs.Perm (⟨name, version, []⟩ :: c'.jobs)
  completing : ∀ p ∈ c'.completing, p ∈ c.completing

inductive Moves (epoch : Epoch) (c c' : Conn) : Doing → Prop
  | same {d} (entries : SameEntries c.store.db c'.store.db) (goes : StaysOn [] c c')
      (unstaged : ∀ file, d ≠ .stage file) : Moves epoch c c' d
  | check {name version} (entries : SameEntries c.store.db c'.store.db) (pass : c.shouldComplete name = true)
      (tracked : Tracked c.jobs name version) (goes : Stays [] [(name, version)] (fun _ _ => False) c c') :
      Moves epoch c c' (.check name version)
  | leave {name version} (entries : SameEntries c.store.db c'.store.db) (goes : Leaves name version c c')
      (others : About c'.jobs (splitName name)) : Moves epoch c c' (.check name version)
  | provide {name hash k₀ fi fi'} (provided : Provided c.store.db c'.store.db epoch name hash k₀ fi fi')
      (goes : Stays [] [] (fun p h => p = splitName name ∧ h = hash) c c') :
      Moves epoch c c' (.provide name hash)
  | stage {file} (entries : c'.store.db = stageFile c.store.db epoch file)
      (goes : StaysOn [wholeJob file] c c') : Moves epoch c c' (.stage file)
  | commit {file} (replaced : Replaced c.store.db c'.store.db file.name file.toStored fun _ => False)
      (goes : StaysOn [] c c') : Moves epoch c c' (.commit file)
  | copy {loser path} (replaced : Replaced c.store.db c'.store.db path
        (withPointers (FileInfo.toStored { loser with name := path })
          (entryAt c.store.db (fileKey loser.name))) fun _ => False) (goes : StaysOn [] c c') :
      Moves epoch c c' (.copy loser path)
  | winner {file} (replaced : Replaced c.store.db c'.store.db file.name file.toStored fun _ => False)
      (goes : StaysOn (if file.deleted then [] else [wholeJob file]) c c') : Moves epoch c c' (.winner file)
  | settled {name version} (entries : SameEntries c.store.db c'.store.db) (goes : Leaves name version c c')
      (other : ∀ staged, entryAt c.store.db (inboxKey epoch name) = some staged → staged.version ≠ version) :
      Moves epoch c c' (.complete name version)
  | complete {name version staged} (entry : entryAt c.store.db (inboxKey epoch name) = some staged)
      (hversion : staged.version = version)
      (hcompletable : completable staged (entryAt c.store.db (fileKey name)) = true)
      (replaced : Replaced c.store.db c'.store.db name staged fun k => k = inboxKey epoch name)
      (goes : c'.shutdown = false → Leaves name version c c') (completing : ∀ p ∈ c'.completing, p ∈ c.completing)
      (jobs : ∀ j ∈ c'.jobs, j ∈ c.jobs) : Moves epoch c c' (.complete name version)
  | ending {d} (entries : SameEntries c.store.db c'.store.db) (shutdown : c'.shutdown = true)
      (completing : ∀ p ∈ c'.completing, p ∈ c.completing) (jobs : ∀ j ∈ c'.jobs, j ∈ c.jobs) : Moves epoch c c' d
  | reconnect (entries : SameEntries c.store.db c'.store.db) (jobs : c'.jobs = [])
      (completing : c'.completing = []) : Moves epoch c c' .reconnect

section Going

variable {c c' : Conn} {name : Str} {version : Option VersionVector} {new : List Job}
  {started : List (Str × Option VersionVector)} {gone : Path → Bytes → Prop}

lemma Goes.keeps (h : Goes new started gone c c') (hs : c'.shutdown = false) {path : Path} {hash : Bytes}
    (hw : Wanted (new ++ c.jobs) path hash) : Wanted c'.jobs path hash ∨ gone path hash := by
  rcases h.wanted path hash hw with hw | hshut | hg
  · exact .inl hw
  · rw [h.shutdown, hshut] at hs
    cases hs
  · exact .inr hg

lemma Stays.goes (h : Stays new started gone c c') : Goes new started gone c c' :=
  ⟨h.shutdown, fun name version => (h.jobs.tracked name version).1, h.jobs.wanted, h.completing⟩

lemma Leaves.mem (h : Leaves name version c c') : ∀ j ∈ c'.jobs, j ∈ c.jobs :=
  fun _ hj => h.jobs.mem_iff.2 (mem_cons_of_mem _ hj)

lemma Leaves.goes (h : Leaves name version c c') : GoesOn [] c c' := by
  refine ⟨h.shutdown, ?_, ?_, fun p hp => .inr (h.completing p hp)⟩
  · rintro name version ⟨j, hj, ht⟩
    exact ⟨j, h.mem j hj, ht⟩
  · rintro path hash ⟨j, hj, hw⟩
    rcases mem_cons.1 (h.jobs.mem_iff.1 hj) with rfl | hj
    · exact absurd hw.2 not_mem_nil
    · exact .inl ⟨j, hj, hw⟩

lemma GoesOn.completing (h : GoesOn new c c') : ∀ p ∈ c'.completing, p ∈ c.completing :=
  fun p hp => (Goes.completing h p hp).resolve_left (by rintro ⟨⟩)

lemma Moves.up {epoch : Epoch} {d : Doing} (h : Moves epoch c c' d) (hd : d ≠ .reconnect)
    (hup : c'.shutdown = false) : c.shutdown = false := by
  cases h with
  | same _ goes | check _ _ _ goes | leave _ goes | provide _ goes | stage _ goes | commit _ goes | copy _ goes
  | winner _ goes | settled _ goes =>
    rw [← goes.shutdown, hup]
  | complete _ _ _ _ goes => rw [← (goes hup).shutdown, hup]
  | ending _ hdown =>
    rw [hdown] at hup
    cases hup
  | reconnect => exact absurd rfl hd

end Going

section Requests

variable {cfg : Config} {c c' : Conn} {block : FileBlock} {j : Job}

lemma nextRequestId_notMem {pending : Table ℤ FileBlock} {tries : ℕ} {id : ℤ} {next : ℤ × ℤ}
    (h : nextRequestId pending tries id = some next) : next.1 ∉ pending := by
  induction tries generalizing id with
  | zero => cases h
  | succ tries ih =>
    rw [nextRequestId] at h
    split_ifs at h with hid
    · exact ih h
    · cases h
      exact hid

lemma mem_requested : j ∈ c.requested ↔
    (∃ id b, c.pending.lookup id = some b ∧ b.job = j) ∨ ∃ d ∈ c.deferred, d.block.job = j := by
  simp [Conn.requested]

lemma submitOrDeferBlock_eq_some {size : ℤ} {blockNo : ℕ}
    (h : c.submitOrDeferBlock cfg block size blockNo = some c') :
    (∀ j, j ∈ c'.requested ↔ j = block.job ∨ j ∈ c.requested) ∧ c'.store = c.store ∧
      c'.shutdown = c.shutdown ∧ c'.index = c.index ∧ c'.msg = c.msg := by
  unfold Conn.submitOrDeferBlock at h
  split_ifs at h with hfull
  · cases h
    refine ⟨fun j => ?_, rfl, rfl, rfl, rfl⟩
    simp only [Conn.requested, map_append, map_cons, map_nil, mem_append, mem_singleton]
    tauto
  · obtain ⟨next, hnext, rfl⟩ := Option.map_eq_some_iff.1 h
    have hfresh := AList.lookup_eq_none.2 (nextRequestId_notMem hnext)
    refine ⟨fun j => ?_, rfl, rfl, rfl, rfl⟩
    rw [mem_requested, mem_requested]
    simp only [Table.lookup_insert']
    constructor
    · rintro (⟨id, b, hb, rfl⟩ | hd)
      · split_ifs at hb
        · cases hb
          exact .inl rfl
        · exact .inr (.inl ⟨id, b, hb, rfl⟩)
      · exact .inr (.inr hd)
    · rintro (rfl | ⟨id, b, hb, rfl⟩ | hd)
      · exact .inl ⟨next.1, block, if_pos rfl, rfl⟩
      · have hne : id ≠ next.1 := by
          rintro rfl
          rw [hfresh] at hb
          cases hb
        exact .inl ⟨id, b, by rw [if_neg hne, hb], rfl⟩
      · exact .inr hd

lemma mem_requested_erase {id : ℤ} (h : c.pending.lookup id = some block) : (∀ j, j ∈ c.requested →
      j = block.job ∨ j ∈ Conn.requested { c with pending := c.pending.erase id }) ∧
    (∀ j, j ∈ Conn.requested { c with pending := c.pending.erase id } → j ∈ c.requested) ∧
      block.job ∈ c.requested := by
  simp only [mem_requested, Table.lookup_erase']
  refine ⟨?_, ?_, .inl ⟨id, block, h, rfl⟩⟩
  · rintro j (⟨id', b, hb, rfl⟩ | hd)
    · by_cases hid : id' = id
      · rw [hid, h] at hb
        cases hb
        exact .inl rfl
      · exact .inr (.inl ⟨id', b, by rw [if_neg hid, hb], rfl⟩)
    · exact .inr (.inr hd)
  · rintro j (⟨id', b, hb, rfl⟩ | hd)
    · split_ifs at hb
      exact .inl ⟨id', b, hb, rfl⟩
    · exact .inr hd

end Requests

section Loops

variable {cfg : Config} {c c' : Conn} {d : Doing} {new : List Job} {name : Str} {version : Option VersionVector}
  {started : List (Str × Option VersionVector)} {gone : Path → Bytes → Prop}

section

variable (hs : c'.shutdown = c.shutdown)
include hs

lemma Stays.of_index (hm : c'.msg = c.msg) (hr : c'.requested = c.requested)
    (hj : Carried (fun path hash => c.shutdown = true ∨ gone path hash) (new ++ c.index.jobs) c'.index.jobs)
    (hc : ∀ p ∈ c'.index.completing, p ∈ started ∨ p ∈ c.index.completing) : Stays new started gone c c' := by
  refine ⟨hs, ?_, fun p hp => ?_⟩
  · simp only [Conn.jobs, Conn.inHand, hm, hr, ← append_assoc]
    exact hj.append_right.append_right
  · simp only [Conn.completing, hm, mem_append] at hp ⊢
    rcases hp with hp | hp
    · exact (hc p hp).imp_right .inl
    · exact .inr (.inr hp)

lemma Stays.of_msg (hi : c'.index = c.index) (hr : c'.requested = c.requested)
    (hj : Carried (fun path hash => c.shutdown = true ∨ gone path hash) c.msg.jobs c'.msg.jobs)
    (hc : ∀ p ∈ c'.msg.completing, p ∈ started ∨ p ∈ c.msg.completing) : Stays [] started gone c c' := by
  refine ⟨hs, ?_, fun p hp => ?_⟩
  · simp only [Conn.jobs, Conn.inHand, hi, hr, nil_append]
    exact (Carried.refl.append hj).append_right
  · simp only [Conn.completing, hi, mem_append] at hp ⊢
    rcases hp with hp | hp
    · exact .inr (.inl hp)
    · exact (hc p hp).imp_right .inr

lemma Leaves.of_index (hm : c'.msg = c.msg) (hr : c'.requested = c.requested)
    (hj : c.index.jobs = ⟨name, version, []⟩ :: c'.index.jobs) (hc : c'.index.completing = []) :
    Leaves name version c c' := by
  refine ⟨hs, ?_, fun p hp => ?_⟩
  · rw [Conn.jobs, Conn.inHand, hj, Conn.jobs, Conn.inHand, hm, hr]
    exact .refl _
  · rw [Conn.completing, hc, hm] at hp
    exact mem_append_right _ hp

lemma Leaves.of_msg (hi : c'.index = c.index) (hr : c'.requested = c.requested)
    (hj : c.msg.jobs = ⟨name, version, []⟩ :: c'.msg.jobs) (hc : ∀ p ∈ c'.msg.completing, p ∈ c.msg.completing) :
    Leaves name version c c' := by
  refine ⟨hs, ?_, fun p hp => ?_⟩
  · rw [Conn.jobs, Conn.inHand, hj, Conn.jobs, Conn.inHand, hi, hr, ← cons_append]
    exact perm_middle.append_right _
  · rw [Conn.completing, hi] at hp
    exact mem_append.2 ((mem_append.1 hp).imp_right (hc p))

end

/-- There are requests about the file. -/
lemma about_of_name (h : c.shouldComplete name = false) : About c.requested (splitName name) := by
  simp only [Conn.shouldComplete, Bool.and_eq_false_iff, all_eq_false, decide_eq_true_eq, not_not] at h
  rcases h with ⟨p, hp, rfl⟩ | ⟨d, hd, rfl⟩
  · exact ⟨_, mem_append_left _ (mem_map.2 ⟨p, hp, rfl⟩), rfl⟩
  · exact ⟨_, mem_append_right _ (mem_map.2 ⟨d, hd, rfl⟩), rfl⟩

lemma leave_moves (hpass : c.shouldComplete name = false) (hl : Leaves name version c c')
    (hdb : c'.store = c.store) (hr : c'.requested = c.requested) : Moves cfg.epoch c c' (.check name version) := by
  refine .leave (fun k _ => by rw [hdb]) hl ?_
  obtain ⟨j, hj, hname⟩ := about_of_name hpass
  exact ⟨j, mem_append_right _ (hr ▸ hj), hname⟩

lemma jobs_setIndex {pc : IndexPc} : (c.setIndex pc).jobs = pc.jobs ++ c.msg.jobs ++ c.requested := rfl

lemma jobs_setMsg {pc : MsgPc} : (c.setMsg pc).jobs = c.index.jobs ++ pc.jobs ++ c.requested := rfl

variable {needed : List WireFile} {size : ℤ}

lemma mem_needed {file : WireFile} (j : Job) :
    j ∈ (needed ++ [file]).map wholeJob ↔ j ∈ [wholeJob file] ++ needed.map wholeJob := by
  rw [map_append]
  simp only [map_cons, map_nil, mem_append, mem_singleton]
  exact or_comm

variable {c₁ : Conn} {done : Option FileBlock}

lemma jobs_submit {file : WireFile} {block : BlockInfo} {blocks : List BlockInfo} {blockNo : ℕ}
    (hpc : c.index = .submit file block blocks needed)
    (hsub : c.submitOrDeferBlock cfg ⟨file.name, block.offset, block.hash, file.version⟩ size blockNo =
      some c₁) : ∃ rest, c.jobs = fileJob file (block :: blocks) :: rest ∧
      ∀ j, j ∈ (c₁.setIndex (.request file blocks needed)).jobs ↔ j ∈ fileJob file blocks ::
        FileBlock.job ⟨file.name, block.offset, block.hash, file.version⟩ :: rest := by
  obtain ⟨hreq, -, -, -, hmsg⟩ := submitOrDeferBlock_eq_some hsub
  refine ⟨needed.map wholeJob ++ c.msg.jobs ++ c.requested, ?_, fun j => ?_⟩
  · rw [Conn.jobs, Conn.inHand, hpc]
    rfl
  · simp only [jobs_setIndex, IndexPc.jobs, mem_append, mem_cons, hmsg, hreq]
    tauto

lemma mem_jobs_take {d' : DeferredRequest} {ds : List DeferredRequest} (hpc : c.msg = .drain done)
    (hd : c.deferred = d' :: ds) (j : Job) :
    j ∈ ({ c with deferred := ds }.setMsg (.reuse d' done)).jobs ↔ j ∈ c.jobs := by
  rw [jobs_setMsg, Conn.jobs, Conn.inHand, hpc]
  simp only [MsgPc.jobs, Conn.requested, hd, map_cons, mem_append, mem_cons]
  tauto

lemma mem_jobs_resubmit {d' : DeferredRequest} (hpc : c.msg = .submit d' done)
    (hsub : c.submitOrDeferBlock cfg d'.block d'.size d'.blockNo = some c₁)
    (j : Job) : j ∈ (c₁.setMsg (.drain done)).jobs ↔ j ∈ c.jobs := by
  obtain ⟨hreq, -, -, hidx, -⟩ := submitOrDeferBlock_eq_some hsub
  rw [jobs_setMsg, Conn.jobs, Conn.inHand, hpc, hidx]
  simp only [MsgPc.jobs, hreq, mem_append, mem_cons]
  tauto

lemma mem_jobs_response {id : ℤ} {block : FileBlock} {data : Bytes} (hpc : c.msg = .idle)
    (hb : c.pending.lookup id = some block) (j : Job) :
    j ∈ ({ c with pending := c.pending.erase id }.setMsg (.store block data)).jobs ↔ j ∈ c.jobs := by
  obtain ⟨hold, hnew, hblock⟩ := mem_requested_erase hb
  rw [jobs_setMsg, Conn.jobs, Conn.inHand, hpc]
  simp only [MsgPc.jobs, mem_append, mem_singleton, not_mem_nil, or_false]
  constructor
  · rintro ((hj | rfl) | hj)
    · exact .inl hj
    · exact .inr hblock
    · exact .inr (hnew j hj)
  · rintro (hj | hj)
    · exact .inl (.inl hj)
    · rcases hold j hj with rfl | hj
      · exact .inl (.inr rfl)
      · exact .inr hj

lemma failIndex_moves (hs : SameEntries c.store.db c₁.store.db) (hm : c₁.msg = c.msg)
    (hr : c₁.requested = c.requested) : Moves cfg.epoch c c₁.failIndex d := by
  refine .ending hs rfl (fun p hp => ?_) fun j hj => ?_
  · exact mem_append_right _ (hm ▸ hp)
  · have hj : j ∈ c₁.msg.jobs ++ c₁.requested := hj
    rw [hm, hr] at hj
    rw [Conn.jobs, Conn.inHand, append_assoc]
    exact mem_append_right _ hj

lemma failMsg_jobs (hi : c₁.index = c.index) (hr : ∀ j ∈ c₁.requested, j ∈ c.requested) :
    (∀ p ∈ c₁.failMsg.completing, p ∈ c.completing) ∧ ∀ j ∈ c₁.failMsg.jobs, j ∈ c.jobs := by
  refine ⟨fun p hp => ?_, fun j hj => ?_⟩
  · simp only [Conn.completing, Conn.failMsg, MsgPc.completing, hi, append_nil] at hp
    exact mem_append_left _ hp
  · simp only [Conn.jobs, Conn.inHand, Conn.failMsg, MsgPc.jobs, hi, append_nil, mem_append] at hj ⊢
    exact hj.imp .inl (hr j)

lemma failMsg_moves (hs : SameEntries c.store.db c₁.store.db) (hi : c₁.index = c.index)
    (hr : ∀ j ∈ c₁.requested, j ∈ c.requested) : Moves cfg.epoch c c₁.failMsg d :=
  .ending hs rfl (failMsg_jobs hi hr).1 (failMsg_jobs hi hr).2

lemma reuseBlock_true {hash : Bytes} {st : Store} (h : c.reuseBlock cfg name hash size = (.ok true, st)) :
    ∃ k₀ fi fi', Provided c.store.db st.db cfg.epoch name hash k₀ fi fi' := by
  unfold Conn.reuseBlock at h
  split_ifs at h
  · cases h
  · rcases reuseBlock_entries h with ⟨-, hne⟩ | ⟨-, hprov⟩
    · exact absurd rfl hne
    · exact hprov

lemma reuseBlock_store {hash : Bytes} {r : Except StorageError Bool} {st : Store}
    (h : c.reuseBlock cfg name hash size = (r, st)) (hr : r ≠ .ok true) : st = c.store := by
  unfold Conn.reuseBlock at h
  split_ifs at h
  · cases h
    rfl
  · rcases reuseBlock_entries h with ⟨hst, -⟩ | ⟨hok, -⟩
    · exact hst
    · exact absurd hok hr

lemma complete_moves {db : Db} {committed : Option WireFile}
    (h : completeFile c.store.db cfg.epoch name version = (.ok committed, db)) (hdb : c₁.store.db = db)
    (hl : Leaves name version c c₁) : Moves cfg.epoch c c₁ (.complete name version) := by
  rcases completeFile_entries h with he | ⟨staged, hentry, hversion, hcompletable, hrep⟩
  · refine .settled (fun k _ => by rw [hdb, he]) hl fun staged hst hv => ?_
    have hnone := completeFile_unstages h hst hv
    rw [he, hst] at hnone
    cases hnone
  · rw [← hdb] at hrep
    exact .complete hentry hversion hcompletable hrep (fun _ => hl) hl.completing hl.mem

lemma completeFails_moves {db : Db} {r : Except StorageError (Option WireFile)}
    (h : completeFile c.store.db cfg.epoch name version = (r, db)) (hdb : c₁.store.db = db)
    (hdown : c₁.shutdown = true) (hc : ∀ p ∈ c₁.completing, p ∈ c.completing) (hj : ∀ j ∈ c₁.jobs, j ∈ c.jobs) :
    Moves cfg.epoch c c₁ (.complete name version) := by
  rcases completeFile_entries h with he | ⟨staged, hentry, hversion, hcompletable, hrep⟩
  · exact .ending (fun k _ => by rw [hdb, he]) hdown hc hj
  · rw [← hdb] at hrep
    refine .complete hentry hversion hcompletable hrep (fun hup => ?_) hc hj
    rw [hdown] at hup
    cases hup

lemma setIndex_moves {pc : IndexPc} (hd : ∀ file, d ≠ .stage file)
    (hj : Carried (fun _ _ => c.shutdown = true ∨ False) c.index.jobs pc.jobs)
    (hc : ∀ p ∈ pc.completing, p ∈ c.index.completing) : Moves cfg.epoch c (c.setIndex pc) d :=
  .same SameEntries.refl (.of_index rfl rfl rfl hj fun p hp => .inr (hc p hp)) hd

theorem indexStep_moves (h : c.indexStep cfg = some c') : Moves cfg.epoch c c' c.index.doing := by
  cases Conn.indexStep_takes h with
  | refuse | submitFails => exact failIndex_moves SameEntries.refl rfl rfl
  | read hpc | next hpc | applied hpc | pass hpc | contest hpc | requested hpc =>
    rw [hpc]
    exact setIndex_moves (by rintro _ ⟨⟩) (by rw [hpc]; exact Carried.refl) (by rintro _ ⟨⟩)
  | stage hpc =>
    rw [hpc]
    exact .stage rfl (.of_index rfl rfl rfl (by rw [hpc]; exact Carried.of_mem_iff mem_needed) (by rintro _ ⟨⟩))
  | commit hpc hput =>
    rw [hpc]
    exact .commit (putFile_ok hput) (.of_index rfl rfl rfl (by rw [hpc]; exact Carried.refl) (by rintro _ ⟨⟩))
  | commitFails hpc hput | winFails hpc hput =>
    cases putFile_error hput
    exact failIndex_moves SameEntries.refl rfl rfl
  | copy hpc hput =>
    rw [hpc]
    exact .copy (putFileWithCarry_ok hput)
      (.of_index rfl rfl rfl (by rw [hpc]; exact Carried.refl) (by rintro _ ⟨⟩))
  | copyFails hpc hput => exact failIndex_moves (fun k _ => by rw [putFileWithCarry_error hput]) rfl rfl
  | win hpc hput =>
    rw [hpc]
    refine .winner (putFile_ok hput) (.of_index rfl rfl rfl ?_ (by rintro _ ⟨⟩))
    rw [hpc]
    simp only [IndexPc.jobs, Conn.setIndex]
    split_ifs
    · exact Carried.refl
    · exact Carried.of_mem_iff mem_needed
  | giveUp hpc hshut =>
    -- the other blocks are not requested any more
    rw [hpc]
    refine setIndex_moves (by rintro _ ⟨⟩) ?_ (by rintro _ ⟨⟩)
    rw [hpc]
    exact Carried.shrink rfl rfl (fun _ _ => .inr (.inl hshut)) (by rintro _ ⟨⟩)
  | reuse hpc hreuse =>
    obtain ⟨k₀, fi, fi', hprov⟩ := reuseBlock_true hreuse
    rw [hpc]
    refine .provide hprov (.of_index rfl rfl rfl ?_ (by rintro _ ⟨⟩))
    rw [hpc]
    refine Carried.shrink rfl rfl (fun hash hmem => ?_) fun _ => mem_cons_of_mem _
    rcases mem_cons.1 hmem with rfl | hmem
    · exact .inr (.inr ⟨rfl, rfl⟩)
    · exact .inl hmem
  | miss hpc hreuse =>
    cases reuseBlock_store hreuse (by rintro ⟨⟩)
    rw [hpc]
    exact setIndex_moves (by rintro _ ⟨⟩) (by rw [hpc]; exact Carried.refl) (by rintro _ ⟨⟩)
  | reuseFails hpc hreuse =>
    cases reuseBlock_store hreuse (by rintro ⟨⟩)
    exact failIndex_moves SameEntries.refl rfl rfl
  | submit hpc _ hsub =>
    obtain ⟨-, hst, hshut, -, hmsg⟩ := submitOrDeferBlock_eq_some hsub
    obtain ⟨rest, hjobs, hmem⟩ := jobs_submit hpc hsub
    refine .same (fun k _ => by rw [← hst]; rfl) ⟨hshut, ?_, fun p hp => .inr ?_⟩ (by rw [hpc]; rintro _ ⟨⟩)
    · rw [nil_append, hjobs]
      exact Carried.split.trans (Carried.of_mem_iff hmem)
    · simpa [Conn.completing, Conn.setIndex, hmsg, hpc, IndexPc.completing] using hp
  | check hpc hpass =>
    rw [hpc]
    refine .check SameEntries.refl hpass ?_ (.of_index rfl rfl rfl ?_ fun p hp => .inl hp)
    · simp [Conn.jobs, Conn.inHand, hpc, IndexPc.jobs, fileJob]
    · rw [hpc]
      exact Carried.refl
  | leave hpc hpass =>
    rw [hpc]
    exact leave_moves hpass (.of_index rfl rfl rfl (by rw [hpc]; rfl) rfl) rfl rfl
  | @complete _ _ committed _ hpc hcomplete =>
    rw [hpc]
    refine complete_moves hcomplete rfl (.of_index rfl rfl rfl ?_ ?_)
    · rw [hpc]
      cases committed <;> rfl
    · cases committed <;> rfl
  | completeFails hpc hcomplete =>
    rw [hpc]
    refine completeFails_moves hcomplete rfl rfl (fun p => mem_append_right _) fun j hj => ?_
    rw [Conn.jobs, Conn.inHand, append_assoc]
    exact mem_append_right _ hj
  | notify hpc =>
    refine .same SameEntries.refl (.of_index rfl rfl rfl ?_ fun p hp => .inr ?_) (by rw [hpc]; rintro _ ⟨⟩)
    · rw [hpc]
      exact Carried.refl
    · rw [hpc]
      exact hp
  | record hpc =>
    refine .same (fun k hk => entryAt_write_single (holdsFile_ne rfl hk))
      (.of_index rfl rfl rfl (by rw [hpc]; exact Carried.refl) (by rintro _ ⟨⟩)) (by rw [hpc]; rintro _ ⟨⟩)

lemma setMsg_moves {pc : MsgPc} (hd : ∀ file, d ≠ .stage file)
    (hj : Carried (fun _ _ => c.shutdown = true ∨ False) c.msg.jobs pc.jobs)
    (hc : ∀ p ∈ pc.completing, p ∈ c.msg.completing) : Moves cfg.epoch c (c.setMsg pc) d :=
  .same SameEntries.refl (.of_msg rfl rfl rfl hj fun p hp => .inr (hc p hp)) hd

lemma jobs_afterDrain : (Conn.afterDrain done).jobs = done.toList.map FileBlock.doneJob := by
  cases done <;> rfl

lemma completing_afterDrain : (Conn.afterDrain done).completing = [] := by
  cases done <;> rfl

lemma response_moves {id code : ℤ} {data : Bytes} (hd : ∀ file, d ≠ .stage file) (hpc : c.msg = .idle) :
    Moves cfg.epoch c (c.response id code data) d := by
  unfold Conn.response
  split
  · exact setMsg_moves hd (by rw [hpc]; exact Carried.refl) (by rintro _ ⟨⟩)
  · next block hb =>
    split_ifs
    · exact failMsg_moves SameEntries.refl rfl (mem_requested_erase hb).2.1
    · refine .same SameEntries.refl ⟨rfl, Carried.of_mem_iff (mem_jobs_response hpc hb), fun p hp => .inr ?_⟩ hd
      simpa [Conn.completing, Conn.setMsg, hpc, MsgPc.completing] using hp

theorem msgStep_moves (h : c.msgStep cfg = some c') : Moves cfg.epoch c c' c.msg.doing := by
  cases Conn.msgStep_takes h with
  | store hpc hstore =>
    rcases storeBlock_entries hstore with ⟨-, e, he⟩ | ⟨-, k₀, fi, fi', hprov⟩
    · cases he
    · rw [hpc]
      refine .provide hprov (.of_msg rfl rfl rfl ?_ (by rintro _ ⟨⟩))
      rw [hpc]
      exact Carried.shrink rfl rfl (fun hash hmem => .inr (.inr ⟨rfl, mem_singleton.1 hmem⟩)) (by rintro _ ⟨⟩)
  | storeFails hpc hstore =>
    rcases storeBlock_entries hstore with ⟨hsame, -⟩ | ⟨hok, -⟩
    · exact failMsg_moves hsame rfl fun _ hj => hj
    · cases hok
  | drained hpc =>
    rw [hpc]
    refine setMsg_moves (by rintro _ ⟨⟩) ?_ (by rw [completing_afterDrain]; rintro _ ⟨⟩)
    rw [hpc, jobs_afterDrain]
    exact Carried.refl
  | take hpc hd =>
    rw [hpc]
    refine .same SameEntries.refl ⟨rfl, Carried.of_mem_iff (mem_jobs_take hpc hd), fun p hp => .inr ?_⟩
      (by rintro _ ⟨⟩)
    simpa [Conn.completing, Conn.setMsg, hpc, MsgPc.completing] using hp
  | reuse hpc hreuse =>
    obtain ⟨k₀, fi, fi', hprov⟩ := reuseBlock_true hreuse
    rw [hpc]
    refine .provide hprov (.of_msg rfl rfl rfl ?_ (by rintro _ ⟨⟩))
    rw [hpc]
    exact Carried.shrink rfl rfl (fun hash hmem => .inr (.inr ⟨rfl, mem_singleton.1 hmem⟩)) (by rintro _ ⟨⟩)
  | miss hpc hreuse =>
    cases reuseBlock_store hreuse (by rintro ⟨⟩)
    rw [hpc]
    exact setMsg_moves (by rintro _ ⟨⟩) (by rw [hpc]; exact Carried.refl) (by rintro _ ⟨⟩)
  | reuseFails hpc hreuse =>
    cases reuseBlock_store hreuse (by rintro ⟨⟩)
    exact failMsg_moves SameEntries.refl rfl fun _ hj => hj
  | submit hpc hsub =>
    obtain ⟨-, hst, hshut, hidx, -⟩ := submitOrDeferBlock_eq_some hsub
    rw [hpc]
    refine .same (fun k _ => by rw [← hst]; rfl) ⟨hshut, Carried.of_mem_iff (mem_jobs_resubmit hpc hsub),
      fun p hp => .inr ?_⟩ (by rintro _ ⟨⟩)
    simpa [Conn.completing, Conn.setMsg, hidx, hpc, MsgPc.completing] using hp
  | check hpc hpass =>
    rw [hpc]
    refine .check SameEntries.refl hpass ?_ (.of_msg rfl rfl rfl ?_ fun p hp => ?_)
    · simp [Conn.jobs, Conn.inHand, hpc, MsgPc.jobs, FileBlock.doneJob]
    · rw [hpc]
      exact Carried.refl
    · rw [hpc]
      exact (mem_cons.1 hp).imp_left mem_singleton.2
  | leave hpc hpass =>
    rw [hpc]
    exact leave_moves hpass (.of_msg rfl rfl rfl (by rw [hpc]; rfl) fun p hp => by rwa [hpc]) rfl rfl
  | @complete _ _ committed _ hpc hcomplete =>
    rw [hpc]
    refine complete_moves hcomplete rfl (.of_msg rfl rfl rfl ?_ fun p hp => ?_)
    · rw [hpc]
      cases committed <;> rfl
    · rw [hpc]
      cases committed <;> exact mem_cons_of_mem _ hp
  | completeFails hpc hcomplete =>
    rw [hpc]
    obtain ⟨hc, hj⟩ := failMsg_jobs rfl fun _ hj => hj
    exact completeFails_moves hcomplete rfl rfl hc hj
  | notify hpc =>
    rw [hpc]
    refine .same SameEntries.refl (.of_msg rfl rfl rfl ?_ fun p hp => .inr ?_) (by rintro _ ⟨⟩)
    · rw [hpc]
      exact Carried.refl
    · rw [hpc]
      exact hp

theorem step_moves {a : Act} (h : c.step cfg a = some c') : Moves cfg.epoch c c' (c.doing a) := by
  cases a with
  | index files lastSequence =>
    simp only [Conn.step] at h
    split at h
    · next hpc =>
      cases h
      exact .same SameEntries.refl (.of_index rfl rfl rfl (by rw [hpc]; exact Carried.refl) (by rintro _ ⟨⟩))
        (by rintro _ ⟨⟩)
    · cases h
  | indexStep => exact indexStep_moves h
  | resolve remoteWins loserPath =>
    simp only [Conn.step, Conn.resolve] at h
    split at h
    · next hpc =>
      cases loserPath <;> cases h <;>
        exact setIndex_moves (by rintro _ ⟨⟩) (by rw [hpc]; exact Carried.refl) (by rintro _ ⟨⟩)
    · cases h
  | response id code data =>
    simp only [Conn.step] at h
    split at h
    · next hpc =>
      cases h
      exact response_moves (by rintro _ ⟨⟩) hpc
    · cases h
  | msgStep => exact msgStep_moves h
  | shutdown =>
    cases h
    exact .ending SameEntries.refl rfl (fun p hp => hp) fun _ hj => hj
  | failIndex =>
    cases h
    exact failIndex_moves SameEntries.refl rfl rfl
  | failMsg =>
    cases h
    exact failMsg_moves SameEntries.refl rfl fun _ hj => hj
  | reconnect =>
    cases h
    exact .reconnect SameEntries.refl rfl rfl

end Loops

end Bepository.Sync
