import Bepository.Storage.Store

/-!
# The garbage collecting compaction (`bepository-storage/src/compaction.rs`)

`create_compaction_filter` scans a snapshot for the blocks in use and remembers their hashes and
numbers in two Bloom filters; `GcFilter::filter` decides on one row of the compaction's sources.
-/

namespace Bepository.Storage

open Lib

/-- `CompactionFilterError`. -/
inductive CompactionFilterError where
  | creationError (msg : String)
  | filterError (msg : String)
  deriving DecidableEq

/-! ### The liveness scan -/

def liveRefs (fi : StoredFile) : List (Bytes × ℕ) :=
  fi.blocks.filterMap fun b => b.blockseq.map fun seq => (b.hash, seq)

/-- One block in `index_blocks_under_prefix`. -/
def indexRef (name : Str) (ref : Bytes × ℕ) : Except CompactionFilterError (Bytes32 × ℕ) :=
  match toBytes32 ref.1 with
  | none => .error (.creationError
      s!"invalid hash length {ref.1.length} in file {name.toString}")
  | some hash =>
    match validateBlockSeq ref.2 with
    | .error _ => .error (.creationError s!"invalid blockseq in file {name.toString}")
    | .ok () => .ok (hash, ref.2)

/-- One entry in `index_blocks_under_prefix`. -/
def indexEntry (v : Value) : Except CompactionFilterError (List (Bytes32 × ℕ)) :=
  match v.decodeFile with
  | none => .error (.creationError "decode")
  | some none => .ok []
  | some (some fi) => (liveRefs fi).mapM (indexRef fi.name)

/-- `index_blocks_under_prefix` over the rows of a snapshot. -/
def indexBlocksUnderPrefix (snapshot : List (Bytes × Value)) (start : Bytes) :
    Except CompactionFilterError (List (Bytes32 × ℕ)) :=
  ((snapshot.filter fun r => start.isPrefixOf r.1).mapM fun r => indexEntry r.2).map List.flatten

/-- The prefix under which the staged entries of an epoch are scanned. -/
def inboxScanPrefix (epoch : Epoch) : Bytes := (inboxKey epoch []).encode

/-- The two scans of `create_compaction_filter`. -/
def liveScan (snapshot : List (Bytes × Value)) (epoch : Epoch) :
    Except CompactionFilterError (List (Bytes32 × ℕ)) :=
  match indexBlocksUnderPrefix snapshot (inboxScanPrefix epoch) with
  | .error e => .error e
  | .ok staged => (indexBlocksUnderPrefix snapshot FILE_PREFIX).map (staged ++ ·)

/-- `GcFilter`, without its statistics. -/
structure GcFilter where
  job : ℕ
  epoch : Epoch
  peerFloor : Option ℤ
  isBottom : Bool

/-- `create_compaction_filter` for a job that is registered already: what its Bloom filters hold at
the end, given the blocks `recorded` by writers meanwhile, and the peer floor of the live store. -/
def createCompactionFilter (snapshot : List (Bytes × Value)) (db : Db) (epoch : Epoch)
    (recorded : List (Bytes32 × ℕ)) : Except CompactionFilterError (CompactionJobState × Option ℤ) :=
  match liveScan snapshot epoch with
  | .error e => .error e
  | .ok live =>
    match computePeerFloor db with
    | .error _ => .error (.creationError "peer floor")
    | .ok floor =>
      .ok (⟨(live ++ recorded).map Prod.fst, (live ++ recorded).map Prod.snd⟩, floor)

/-! ### The filter -/

/-- `CompactionFilterDecision`. -/
inductive Decision where
  | keep
  | drop
  | tombstone
  deriving DecidableEq

/-- `prune_decision`: either way the row is gone. -/
def GcFilter.pruneDecision (f : GcFilter) : Decision := if f.isBottom then .drop else .tombstone

def GcFilter.seqBelowFloor (f : GcFilter) (seq : ℕ) : Bool :=
  f.peerFloor.any fun floor => 0 ≤ floor && (seq : ℤ) < floor

def GcFilter.deletionBelowFloor (f : GcFilter) (v : Value) : Bool :=
  f.peerFloor.any fun floor =>
    match v.decodeFile with
    | some (some fi) => fi.deleted && fi.sequence < floor
    | _ => false

def GcFilter.filter (bl : Blooms) (gc : CompactionState) (f : GcFilter) (k : Key) (v : Value) :
    Except CompactionFilterError Decision :=
  match k with
  | .bd seq =>
    if seq < MIN_BLOCK_SEQ then
      .error (.filterError s!"corrupted bd key width/value: {(hexEncode k.encode).toString}")
    else if gc.knownLiveSeqContains bl f.job seq then .ok .keep else .ok f.pruneDecision
  | .mb _ hash => if gc.knownLiveHashContains bl f.job hash then .ok .keep else .ok f.pruneDecision
  | .mr hash _ => if gc.knownLiveHashContains bl f.job hash then .ok .keep else .ok f.pruneDecision
  | .mi epoch _ => if epoch < f.epoch then .ok f.pruneDecision else .ok .keep
  | .ms seq => if f.seqBelowFloor seq then .ok f.pruneDecision else .ok .keep
  | .mn _ => if f.deletionBelowFloor v then .ok f.pruneDecision else .ok .keep
  | .md _ => .ok .keep
  | .mx => .ok .keep

end Bepository.Storage
