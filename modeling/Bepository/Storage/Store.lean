import Bepository.Lib.Result
import Bepository.Storage.Db

/-!
# The folder store (`bepository-storage/src/store.rs`, `block_read.rs`)

The calls of `FolderStore`, each run without interruption.  Pure parts that several calls share
(`carryBlockPointers`, `pointBlocks`, the batches) are functions of their own.  A call that writes
returns the store it leaves behind also when it fails.
-/

namespace Bepository.Storage

open Lib List

/-! ### Compaction jobs -/

/-- A Bloom filter, as a function of the elements inserted: it may answer yes for others. -/
structure Bloom (α : Type) where
  contains : List α → α → Bool
  mem : ∀ l x, x ∈ l → contains l x = true

def Bloom.exact (α : Type) [DecidableEq α] : Bloom α where
  contains l x := x ∈ l
  mem _ _ h := decide_eq_true h

@[simp] lemma Bloom.exact_contains {α : Type} [DecidableEq α] {l : List α} {x : α} :
    (Bloom.exact α).contains l x = true ↔ x ∈ l := decide_eq_true_iff

structure Blooms where
  hashes : Bloom Bytes32
  seqs : Bloom ℕ

/-- `CompactionJobState`: what was inserted so far. -/
structure CompactionJobState where
  knownLiveHashes : List Bytes32
  knownLiveSeqs : List ℕ

def CompactionJobState.insert (j : CompactionJobState) (hash : Bytes32) (seq : Option ℕ) : CompactionJobState :=
  ⟨hash :: j.knownLiveHashes, seq.toList ++ j.knownLiveSeqs⟩

/-- `CompactionState`. -/
structure CompactionState where
  jobs : Table ℕ CompactionJobState
  nextJob : ℕ

namespace CompactionState

def new : CompactionState := ⟨∅, 1⟩

def register (gc : CompactionState) : CompactionState × ℕ :=
  (⟨gc.jobs.insert gc.nextJob ⟨[], []⟩, gc.nextJob + 1⟩, gc.nextJob)

def unregister (gc : CompactionState) (job : ℕ) : CompactionState :=
  { gc with jobs := gc.jobs.erase job }

/-- `record_block_write`: every active job learns of the block. -/
def recordBlockWrite (gc : CompactionState) (hash : Bytes32) (seq : Option ℕ) : CompactionState :=
  { gc with jobs := Table.map (fun j => j.insert hash seq) gc.jobs }

/-- `is_block_safe`: every active job recognises the hash. -/
def isBlockSafe (bl : Blooms) (gc : CompactionState) (hash : Bytes32) : Bool :=
  gc.jobs.entries.all fun e => bl.hashes.contains e.2.knownLiveHashes hash

def knownLiveHashContains (bl : Blooms) (gc : CompactionState) (job : ℕ) (hash : Bytes32) : Bool :=
  (gc.jobs.lookup job).all fun j => bl.hashes.contains j.knownLiveHashes hash

def knownLiveSeqContains (bl : Blooms) (gc : CompactionState) (job : ℕ) (seq : ℕ) : Bool :=
  (gc.jobs.lookup job).all fun j => bl.seqs.contains j.knownLiveSeqs seq

end CompactionState

/-! ### Reads -/

def getIndexMeta (db : Db) : Except StorageError FolderIndexMeta :=
  match db.get .mx with
  | none => .ok FolderIndexMeta.empty
  | some (.indexMeta m) => .ok m
  | some _ => .error (.corruption "decode FolderIndexMeta")

def getFileProto (db : Db) (name : Str) : Except StorageError (Option StoredFile) :=
  match db.get (fileKey name) with
  | none => .ok none
  | some v =>
    match v.decodeFile with
    | none => .error (.corruption "decode File")
    | some none => .error (.corruption s!"missing file_info in File for {name.toString}")
    | some (some fi) => .ok (some fi)

def getFile (db : Db) (name : Str) : Except StorageError (Option WireFile) :=
  match getFileProto db name with
  | .error e => .error e
  | .ok none => .ok none
  | .ok (some fi) => fi.toWire.map some

/-- `resolve_block_data` (`block_read.rs`). -/
def resolveBlockData (db : Db) (block : StoredBlock) : Except StorageError (Option Bytes) :=
  match block.inlineData with
  | some data => .ok (some data)
  | none =>
    match block.blockseq with
    | none => .ok none
    | some seq =>
      match validateBlockSeq seq with
      | .error e => .error e
      | .ok () =>
        match db.get (.bd seq) with
        | some (.data data) => .ok (some data)
        | _ => .ok none

/-! ### Commits -/

/-- The first block of `old` with this hash that has a pointer. -/
def carrySource (old : StoredFile) (hash : Bytes) : Option StoredBlock :=
  old.blocks.find? fun b => b.hasPointer && b.hash = hash

/-- One block in `carry_block_pointers`. -/
def carryBlock (old : StoredFile) (b : StoredBlock) : StoredBlock :=
  if b.hasPointer then b
  else match carrySource old b.hash with
    | none => b
    | some src => { b with blockseq := src.blockseq, inlineData := src.inlineData }

/-- What `carry_block_pointers` does to a block. -/
inductive CarryCases (old : StoredFile) (b : StoredBlock) : StoredBlock → Prop where
  | kept (h : b.hasPointer = true) : CarryCases old b b
  | missed (h : b.hasPointer = false) (hn : ∀ src ∈ old.blocks, src.hash = b.hash → src.hasPointer = false) :
      CarryCases old b b
  | taken src (h : b.hasPointer = false) (hsrc : src ∈ old.blocks) (hh : src.hash = b.hash)
      (hp : src.hasPointer = true) :
      CarryCases old b { b with blockseq := src.blockseq, inlineData := src.inlineData }

/-- **Inversion.**  A block keeps its pointer, or takes that of a block with its hash if there is one. -/
lemma carryBlock_cases (old : StoredFile) (b : StoredBlock) : CarryCases old b (carryBlock old b) := by
  unfold carryBlock
  split_ifs with hp
  · exact .kept hp
  · have hp : b.hasPointer = false := Bool.eq_false_iff.2 hp
    cases hsrc : carrySource old b.hash with
    | none =>
      refine .missed hp fun src hmem hh => ?_
      have hnot := find?_eq_none.1 hsrc src hmem
      simpa [hh] using hnot
    | some src =>
      have hfound := find?_some hsrc
      simp only [Bool.and_eq_true, decide_eq_true_eq] at hfound
      exact .taken src hp (mem_of_find?_eq_some hsrc) hfound.2 hfound.1

def carryBlockPointers (new old : StoredFile) : StoredFile :=
  { new with blocks := new.blocks.map (carryBlock old) }

lemma exists_carried {new old : StoredFile} {b : StoredBlock} (h : b ∈ (carryBlockPointers new old).blocks) :
    ∃ b₀ ∈ new.blocks, CarryCases old b₀ b := by
  obtain ⟨b₀, hb₀, rfl⟩ := mem_map.1 h
  exact ⟨b₀, hb₀, carryBlock_cases old b₀⟩

/-- The reads of `commit_with_new_seq` under the name lock: the prior entry gives its block pointers
and loses its sequence row. -/
def commitRead (db : Db) (name : Str) (stored : StoredFile) (batch : WriteBatch) :
    Except StorageError (StoredFile × WriteBatch) :=
  match getFileProto db name with
  | .error e => .error e
  | .ok none => .ok (stored, batch)
  | .ok (some old) =>
    if old.sequence > 0 then
      (seqKey old.sequence).map fun k => (carryBlockPointers stored old, batch ++ [.delete k])
    else .ok (carryBlockPointers stored old, batch)

/-- `max_sequence += 1` in `i64`. -/
def succI64 (n : ℤ) : ℤ := if n = i64Max then -2 ^ 63 else n + 1

/-- The part of `commit_with_new_seq` under `seq_lock`: a new sequence number and the batch. -/
def commitWrite (db : Db) (name : Str) (stored : StoredFile) (batch : WriteBatch) :
    Except StorageError (Db × StoredFile) :=
  match getIndexMeta db with
  | .error e => .error e
  | .ok m =>
    let seq := succI64 m.maxSequence
    let stored := { stored with sequence := seq }
    (seqKey seq).map fun k =>
      (db.write (batch ++ [.put .mx (.indexMeta { m with maxSequence := seq }),
        .put (fileKey name) (.file (some stored)), .put k (.name name)]), stored)

def commitWithNewSeq (db : Db) (name : Str) (stored : StoredFile) (batch : WriteBatch) :
    Except StorageError (ℤ × WireFile) × Db :=
  match commitRead db name stored batch with
  | .error e => (.error e, db)
  | .ok (stored, batch) =>
    match commitWrite db name stored batch with
    | .error e => (.error e, db)
    | .ok (db, stored) => (stored.toWire.map fun w => (stored.sequence, w), db)

def putFile (db : Db) (file : WireFile) : Except StorageError ℤ × Db :=
  let (r, db) := commitWithNewSeq db file.name file.toStored []
  (r.map Prod.fst, db)

def carriedRefs (stored : StoredFile) : List (Bytes32 × ℕ) :=
  stored.blocks.filterMap fun b =>
    b.blockseq.bind fun seq => (toBytes32 b.hash).map fun hash => (hash, seq)

/-- What `put_file_with_carry` does with the entry it reads before taking the lock. -/
def carryFromSource (file : WireFile) : Option StoredFile → StoredFile × WriteBatch × List (Bytes32 × ℕ)
  | none => (file.toStored, [], [])
  | some src =>
    let stored := carryBlockPointers file.toStored src
    let carried := carriedRefs stored
    (stored, carried.map fun c => .put (blockReverseKey c.1 file.name) .empty, carried)

/-! ### Block sequence numbers -/

/-- `SeqRange`: numbers reserved in memory. -/
structure SeqRange where
  next : ℕ
  stop : ℕ
  deriving DecidableEq

def RESERVATION_N : ℕ := 256

/-- Arithmetic in `u64`. -/
def wrapU64 (n : ℕ) : ℕ := n % 2 ^ 64

def SeqRange.load (db : Db) : Except StorageError SeqRange :=
  (getIndexMeta db).map fun m => ⟨m.nextBlockseq.getD 0, m.nextBlockseq.getD 0⟩

/-- `SeqAllocator::allocate`: the next reserved number, or the first of a new reservation. -/
def allocate (db : Db) (range : SeqRange) : Except StorageError (ℕ × Db × SeqRange) :=
  if range.next < range.stop then
    .ok (range.next, db, { range with next := wrapU64 (range.next + 1) })
  else
    (getIndexMeta db).map fun m =>
      let base := max (m.nextBlockseq.getD 0) MIN_BLOCK_SEQ
      let limit := wrapU64 (base + RESERVATION_N)
      (base, db.write [.put .mx (.indexMeta { m with nextBlockseq := some limit })],
        ⟨wrapU64 (base + 1), limit⟩)

/-! ### Entries and pointers -/

/-- The inbox half of `find_file_entry`: an entry without a file falls through to the index. -/
def findInboxEntry (db : Db) (epoch : Option Epoch) (name : Str) :
    Except StorageError (Option (StoredFile × Key)) :=
  match epoch with
  | none => .ok none
  | some e =>
    match db.get (inboxKey e name) with
    | none => .ok none
    | some v =>
      match v.decodeFile with
      | none => .error (.corruption "decode staged Inbox")
      | some info => .ok (info.map fun fi => (fi, inboxKey e name))

/-- The other half of `find_file_entry`. -/
def findMainEntry (db : Db) (name : Str) : Except StorageError (StoredFile × Key) :=
  match (db.get (fileKey name)).map Value.decodeFile with
  | some none => .error (.corruption "decode File")
  | some (some (some fi)) => .ok (fi, fileKey name)
  | _ => .error (.notFound s!"file not found in inbox or main index: {name.toString}")

/-- `find_file_entry`: the staged entry, else the committed one. -/
def findFileEntry (db : Db) (epoch : Option Epoch) (name : Str) : Except StorageError (StoredFile × Key) :=
  match findInboxEntry db epoch name with
  | .error e => .error e
  | .ok (some r) => .ok r
  | .ok none => findMainEntry db name

def pointBlocks (hash : Bytes) (blockseq : Option ℕ) (inlineData : Option Bytes) (fi : StoredFile) :
    StoredFile :=
  { fi with blocks := fi.blocks.map fun b =>
      if b.hash = hash then { b with blockseq := blockseq, inlineData := inlineData } else b }

def hexDigit (n : ℕ) : Char := ['0', '1', '2', '3', '4', '5', '6', '7', '8', '9', 'a', 'b', 'c', 'd',
  'e', 'f'].getD n '0'

/-- `hex::encode`. -/
def hexEncode (b : Bytes) : Str :=
  b.flatMap fun x => [hexDigit (x.toNat / 16), hexDigit (x.toNat % 16)]

/-- How a call provides a block: within the entry, by a row that is there already (found through a
file of directory `dir`), or by a new row. -/
inductive Link where
  | inline (data : Bytes)
  | existing (dir : Str) (seq : ℕ)
  | fresh (seq : ℕ) (data : Bytes)

def Link.seq : Link → Option ℕ
  | .inline _ => none
  | .existing _ seq => some seq
  | .fresh seq _ => some seq

def Link.inlineData : Link → Option Bytes
  | .inline data => some data
  | _ => none

/-- The rows that provide the block, before the entry that points to it. -/
def Link.batch (name : Str) (hash : Bytes32) : Link → WriteBatch
  | .inline _ => []
  | .existing dir seq =>
    (if dir ≠ dirname name then [.put (.mb (dirname name) hash) (.blockRef ⟨seq⟩)] else []) ++
      [.put (blockReverseKey hash name) .empty]
  | .fresh seq data =>
    [.put (.bd seq) (.data data), .put (.mb (dirname name) hash) (.blockRef ⟨seq⟩),
      .put (blockReverseKey hash name) .empty]

/-- The batch of `store_block` and `reuse_block`, once the entry is read. -/
def linkBatch (name : Str) (hash : Bytes32) (link : Link) (entry : StoredFile × Key) :
    Except StorageError WriteBatch :=
  if entry.1.blocks.any (·.hash = hash.1) then
    .ok (link.batch name hash ++
      [.put entry.2 (.file (some (pointBlocks hash.1 link.seq link.inlineData entry.1)))])
  else .error (.notFound
    s!"block with hash {(hexEncode hash.1).toString} not found in file {name.toString}")

/-- The directories that `find_block_dir` will look into: those of the files with a reverse
reference, in key order. -/
def reverseDirs (db : Db) (hash : Bytes32) : List Str :=
  (db.scanPrefix ([109, 114] ++ hash.1 ++ [47])).filterMap fun r =>
    match r.1 with
    | .mr _ path => some path.dir
    | _ => none

def readPointer (db : Db) (dir : Str) (hash : Bytes32) : Except StorageError (Option ℕ) :=
  match db.get (.mb dir hash) with
  | none => .ok none
  | some (.blockRef ref) => (validateBlockSeq ref.seqno).map fun _ => some ref.seqno
  | some _ => .error (.corruption "decode BlockRef")

/-- The loop of `find_block_dir`. -/
def probeDirs (db : Db) (hash : Bytes32) : List Str → Except StorageError (Option (Str × ℕ))
  | [] => .ok none
  | dir :: dirs =>
    match readPointer db dir hash with
    | .error e => .error e
    | .ok none => probeDirs db hash dirs
    | .ok (some seq) =>
      if (db.get (.bd seq)).isSome then .ok (some (dir, seq)) else probeDirs db hash dirs

/-! ### The calls -/

/-- `FolderStore`, without its locks: each call below runs alone. -/
structure Store where
  db : Db
  range : SeqRange
  gc : CompactionState

def Store.empty : Store := ⟨Db.empty, ⟨0, 0⟩, CompactionState.new⟩

def firstEpoch : Epoch := ⟨0, Nat.two_pow_pos 40⟩

def exactFilters : Blooms := ⟨Bloom.exact Bytes32, Bloom.exact ℕ⟩

section Calls

variable (bl : Blooms)

def putFileWithCarry (st : Store) (file : WireFile) (carryFrom : Str) : Except StorageError ℤ × Store :=
  match getFileProto st.db carryFrom with
  | .error e => (.error e, st)
  | .ok src =>
    let (stored, batch, carried) := carryFromSource file src
    match commitWithNewSeq st.db file.name stored batch with
    | (.error e, db) => (.error e, { st with db := db })
    | (.ok (seq, _), db) => (.ok seq, { st with
        db := db
        gc := carried.foldl (fun gc c => gc.recordBlockWrite c.1 (some c.2)) st.gc })

def stageFile (db : Db) (epoch : Epoch) (file : WireFile) : Db :=
  db.write [.put (inboxKey epoch file.name) (.file (some file.toStored))]

/-- The staged entry that `complete_file` reads. -/
def readStaged (db : Db) (epoch : Epoch) (name : Str) : Except StorageError (Option StoredFile) :=
  match db.get (inboxKey epoch name) with
  | none => .ok none
  | some v =>
    match v.decodeFile with
    | none => .error (.corruption "decode staged Inbox")
    | some none => .error (.corruption s!"missing file_info in staged Inbox for {name.toString}")
    | some (some fi) => .ok (some fi)

/-- With the pointers of the committed entry, every block of the staged one has a pointer. -/
def completable (staged : StoredFile) (old : Option StoredFile) : Bool :=
  (old.elim staged (carryBlockPointers staged)).blocks.all StoredBlock.hasPointer

def incompleteError (name : Str) : StorageError :=
  .internal s!"staged file {name.toString} has blocks with neither inline data nor blockseq"

def completeFile (db : Db) (epoch : Epoch) (name : Str) (expected : Option VersionVector) :
    Except StorageError (Option WireFile) × Db :=
  match readStaged db epoch name with
  | .error e => (.error e, db)
  | .ok none => (.ok none, db)
  | .ok (some staged) =>
    if staged.version ≠ expected then (.ok none, db)
    else match getFileProto db name with
      | .error e => (.error e, db)
      | .ok old =>
        if completable staged old then
          let (r, db) := commitWithNewSeq db name staged [.delete (inboxKey epoch name)]
          (r.map fun c => some c.2, db)
        else (.error (incompleteError name), db)

def findBlockDir (st : Store) (hash : Bytes32) : Except StorageError (Option (Str × ℕ)) :=
  if CompactionState.isBlockSafe bl st.gc hash then
    probeDirs st.db hash (reverseDirs st.db hash)
  else .ok none

/-- The end of `store_block` and `reuse_block`: update the entry and tell the compactions. -/
def linkBlock (st : Store) (epoch : Option Epoch) (name : Str) (hash : Bytes32) (link : Link) :
    Except StorageError Unit × Store :=
  match findFileEntry st.db epoch name with
  | .error e => (.error e, st)
  | .ok entry =>
    match linkBatch name hash link entry with
    | .error e => (.error e, st)
    | .ok batch => (.ok (), { st with
        db := st.db.write batch
        gc := link.seq.elim st.gc fun seq => st.gc.recordBlockWrite hash (some seq) })

def badHash : StorageError := .invalidInput "block hash must be 32 bytes"

def storeBlock (st : Store) (epoch : Option Epoch) (name : Str) (hash data : Bytes) :
    Except StorageError Unit × Store :=
  match toBytes32 hash with
  | none => (.error badHash, st)
  | some hash =>
    if data.length < INLINE_BLOCK_THRESHOLD then linkBlock st epoch name hash (.inline data)
    else match findBlockDir bl st hash with
      | .error e => (.error e, st)
      | .ok (some (dir, seq)) => linkBlock st epoch name hash (.existing dir seq)
      | .ok none =>
        match allocate st.db st.range with
        | .error e => (.error e, st)
        | .ok (seq, db, range) =>
          linkBlock { st with db := db, range := range } epoch name hash (.fresh seq data)

def reuseBlock (st : Store) (epoch : Option Epoch) (name : Str) (hash : Bytes) :
    Except StorageError Bool × Store :=
  match toBytes32 hash with
  | none => (.error badHash, st)
  | some hash =>
    match findBlockDir bl st hash with
    | .error e => (.error e, st)
    | .ok none => (.ok false, st)
    | .ok (some (dir, seq)) =>
      let (r, st) := linkBlock st epoch name hash (.existing dir seq)
      (r.map fun _ => true, st)

end Calls

/-! ### Inbox, peers and index scans -/

/-- A row that `gc_inbox` deletes: staged under an earlier epoch. -/
def staleInbox (current : Epoch) : Key → Bool
  | .mi epoch _ => epoch < current
  | _ => false

def gcInbox (db : Db) (current : Epoch) : ℕ × Db :=
  let stale := (db.scanPrefix INBOX_PREFIX).filter fun r => staleInbox current r.1
  (stale.length, if stale = [] then db else db.write (stale.map fun r => .delete r.1))

def minSequence : List Value → Except StorageError (Option ℤ)
  | [] => .ok none
  | .remote r :: vs => (minSequence vs).map fun
    | none => some r.maxSequence
    | some m => some (min r.maxSequence m)
  | _ :: _ => .error (.corruption "decode RemoteIndexState")

/-- `compute_peer_floor`: `None` without peers, or if the least sequence is 0. -/
def computePeerFloor (db : Db) : Except StorageError (Option ℤ) :=
  (minSequence ((db.scanPrefix [109, 100]).map fun r => r.2.val)).map fun floor =>
    floor.filter (· ≠ 0)

def allFiles (db : Db) : Except StorageError (List WireFile) :=
  (db.scanPrefix FILE_PREFIX).mapM fun r =>
    match r.2.val.decodeFile with
    | none => .error (.corruption "decode File")
    | some none => .error (.corruption "missing file_info in File index entry")
    | some (some fi) => fi.toWire

/-- `db.scan(start..stop)`. -/
def Db.scanRange (db : Db) (start stop : Bytes) : List (Key × Row) :=
  db.scan.filter fun r =>
    start.map UInt8.toNat ≤ Db.keyOrder r.1 && Db.keyOrder r.1 < stop.map UInt8.toNat

/-- The loop of `files_since`: a sequence row without a file is skipped. -/
def filesOf (db : Db) : List Value → Except StorageError (List WireFile)
  | [] => .ok []
  | .name n :: vs =>
    match getFile db n with
    | .error e => .error e
    | .ok none => filesOf db vs
    | .ok (some fi) => (filesOf db vs).map (fi :: ·)
  | _ :: _ => .error (.corruption "invalid name in seq entry")

def filesSince (db : Db) (since : ℤ) : Except StorageError (List WireFile) :=
  match seqScanStart since with
  | .error e => .error e
  | .ok start => filesOf db ((db.scanRange start.encode [109, 116]).map fun r => r.2.val)

/-! ### What the parts return -/

section Returns

variable {db db' : Db} {name : Str} {fi stored stored' : StoredFile} {batch batch' : WriteBatch}

lemma getFileProto_eq_some (h : getFileProto db name = .ok (some fi)) :
    db.get (fileKey name) = some (.file (some fi)) := by
  unfold getFileProto at h
  split at h
  · cases h
  · next v hv =>
    rw [hv]
    cases v with
    | file info => cases info <;> cases h; rfl
    | _ => cases h

lemma getFileProto_eq_none (h : getFileProto db name = .ok none) : db.get (fileKey name) = none := by
  unfold getFileProto at h
  split at h
  · next hv => exact hv
  · next v hv =>
    cases v with
    | file info => cases info <;> cases h
    | _ => cases h

lemma readStaged_eq_some {epoch : Epoch} (h : readStaged db epoch name = .ok (some fi)) :
    db.get (inboxKey epoch name) = some (.file (some fi)) := by
  unfold readStaged at h
  split at h
  · cases h
  · next v hv =>
    rw [hv]
    cases v with
    | file info => cases info <;> cases h; rfl
    | _ => cases h

variable {entry : StoredFile × Key} {hash : Bytes32} {seq : ℕ} {range range' : SeqRange}

lemma findInboxEntry_eq_some {epoch : Epoch} (h : findInboxEntry db (some epoch) name = .ok (some entry)) :
    entry.2 = inboxKey epoch name ∧ db.get (inboxKey epoch name) = some (.file (some entry.1)) := by
  simp only [findInboxEntry] at h
  split at h
  · cases h
  · next v hv =>
    rw [hv]
    cases v with
    | file info => cases info <;> cases h; exact ⟨rfl, rfl⟩
    | _ => cases h

lemma findMainEntry_eq_ok (h : findMainEntry db name = .ok entry) :
    entry.2 = fileKey name ∧ db.get (fileKey name) = some (.file (some entry.1)) := by
  unfold findMainEntry at h
  cases hv : db.get (fileKey name) with
  | none => rw [hv] at h; cases h
  | some v =>
    rw [hv] at h
    cases v with
    | file info => cases info <;> cases h; exact ⟨rfl, rfl⟩
    | _ => cases h

lemma readPointer_eq_some {dir : Str}
    (h : readPointer db dir hash = .ok (some seq)) : db.get (.mb dir hash) = some (.blockRef ⟨seq⟩) := by
  unfold readPointer at h
  split at h
  · cases h
  · next ref hget =>
    obtain ⟨-, -, he⟩ := map_eq_ok.1 h
    cases he
    exact hget
  · cases h

lemma commitRead_eq_ok (h : commitRead db name stored batch = .ok (stored', batch')) :
    getFileProto db name = .ok none ∧ stored' = stored ∧ batch' = batch ∨
    ∃ old, getFileProto db name = .ok (some old) ∧ stored' = carryBlockPointers stored old ∧
      batch' = batch ++ if 0 < old.sequence then [.delete (.ms old.sequence.toNat)] else [] := by
  unfold commitRead at h
  split at h
  · cases h
  · next hn => cases h; exact .inl ⟨hn, rfl, rfl⟩
  · next old hold =>
    refine .inr ⟨old, hold, ?_⟩
    split_ifs at h with hpos
    · have hneg : ¬ old.sequence < 0 := by omega
      rw [seqKey, if_neg hneg] at h
      cases h
      exact ⟨rfl, by rw [if_pos hpos]⟩
    · cases h
      exact ⟨rfl, by rw [if_neg hpos, append_nil]⟩

lemma commitWrite_eq_ok (h : commitWrite db name stored batch = .ok (db', stored')) :
    ∃ m, getIndexMeta db = .ok m ∧ 0 ≤ succI64 m.maxSequence ∧
      stored' = { stored with sequence := succI64 m.maxSequence } ∧
      db' = db.write (batch ++ [.put .mx (.indexMeta { m with maxSequence := succI64 m.maxSequence }),
          .put (fileKey name) (.file (some stored')),
          .put (.ms (succI64 m.maxSequence).toNat) (.name name)]) := by
  unfold commitWrite at h
  split at h
  · cases h
  · next m hm =>
    refine ⟨m, hm, ?_⟩
    simp only [seqKey] at h
    split_ifs at h with hneg
    · cases h
    · cases h
      exact ⟨not_lt.1 hneg, rfl, rfl⟩

lemma commitWithNewSeq_cases {r : Except StorageError (ℤ × WireFile)}
    (h : commitWithNewSeq db name stored batch = (r, db')) :
    (db' = db ∧ ∃ e, r = .error e) ∨ ∃ stored₁ batch₁ stored₂,
      commitRead db name stored batch = .ok (stored₁, batch₁) ∧
      commitWrite db name stored₁ batch₁ = .ok (db', stored₂) ∧
      r = stored₂.toWire.map fun w => (stored₂.sequence, w) := by
  unfold commitWithNewSeq at h
  split at h
  · cases h
    exact .inl ⟨rfl, _, rfl⟩
  · next stored₁ batch₁ hread =>
    split at h <;> cases h
    · exact .inl ⟨rfl, _, rfl⟩
    · next stored₂ hwrite => exact .inr ⟨stored₁, batch₁, stored₂, hread, hwrite, rfl⟩

lemma commitWithNewSeq_eq_ok {r : ℤ × WireFile} (h : commitWithNewSeq db name stored batch = (.ok r, db')) :
    ∃ stored₁ batch₁ stored₂, commitRead db name stored batch = .ok (stored₁, batch₁) ∧
      commitWrite db name stored₁ batch₁ = .ok (db', stored₂) := by
  rcases commitWithNewSeq_cases h with ⟨-, e, he⟩ | ⟨stored₁, batch₁, stored₂, hread, hwrite, -⟩
  · cases he
  · exact ⟨stored₁, batch₁, stored₂, hread, hwrite⟩

lemma completeFile_checked {epoch : Epoch} {expected : Option VersionVector}
    {r : Except StorageError (Option WireFile)} (h : completeFile db epoch name expected = (r, db')) :
    (db' = db ∧ ∀ w, r ≠ .ok (some w)) ∨ ∃ staged old r₁, readStaged db epoch name = .ok (some staged) ∧
      staged.version = expected ∧ getFileProto db name = .ok old ∧ completable staged old = true ∧
      commitWithNewSeq db name staged [.delete (inboxKey epoch name)] = (r₁, db') ∧ r = r₁.map fun c => some c.2 := by
  unfold completeFile at h
  split at h
  · cases h
    exact .inl ⟨rfl, by rintro _ ⟨⟩⟩
  · cases h
    exact .inl ⟨rfl, by rintro _ ⟨⟩⟩
  · next staged hs =>
    split_ifs at h with hv
    · cases h
      exact .inl ⟨rfl, by rintro _ ⟨⟩⟩
    · split at h
      · cases h
        exact .inl ⟨rfl, by rintro _ ⟨⟩⟩
      · next old hold =>
        split_ifs at h with hc <;> cases h
        · exact .inr ⟨staged, old, _, hs, not_not.1 hv, hold, hc, rfl, rfl⟩
        · exact .inl ⟨rfl, by rintro _ ⟨⟩⟩

lemma linkBatch_eq_ok {link : Link} (h : linkBatch name hash link entry = .ok batch) :
    batch = link.batch name hash ++
      [.put entry.2 (.file (some (pointBlocks hash.1 link.seq link.inlineData entry.1)))] := by
  unfold linkBatch at h
  split_ifs at h
  cases h
  rfl

lemma mem_linkRows {link : Link} {op : BatchOp} (h : op ∈ link.batch name hash) :
    op = .put (blockReverseKey hash name) .empty ∨
    (∃ seq, link.seq = some seq ∧ op = .put (.mb (dirname name) hash) (.blockRef ⟨seq⟩)) ∨
    ∃ seq data, link = .fresh seq data ∧ op = .put (.bd seq) (.data data) := by
  cases link with
  | inline => cases h
  | existing dir seq =>
    rcases mem_append.1 h with h | h
    · split_ifs at h
      · exact .inr (.inl ⟨seq, rfl, mem_singleton.1 h⟩)
      · cases h
    · exact .inl (mem_singleton.1 h)
  | fresh seq data =>
    simp only [Link.batch, mem_cons, not_mem_nil, or_false] at h
    rcases h with h | h | h
    · exact .inr (.inr ⟨seq, data, rfl, h⟩)
    · exact .inr (.inl ⟨seq, rfl, h⟩)
    · exact .inl h

section

variable (h : allocate db range = .ok (seq, db', range'))
include h

lemma allocate_eq_ok :
    range.next < range.stop ∧ seq = range.next ∧ db' = db ∧ range' = ⟨wrapU64 (range.next + 1), range.stop⟩ ∨
    ¬ range.next < range.stop ∧ ∃ m, getIndexMeta db = .ok m ∧ seq = max (m.nextBlockseq.getD 0) MIN_BLOCK_SEQ ∧
      db' = db.write [.put .mx (.indexMeta { m with nextBlockseq := some (wrapU64 (seq + RESERVATION_N)) })] ∧
      range' = ⟨wrapU64 (seq + 1), wrapU64 (seq + RESERVATION_N)⟩ := by
  unfold allocate at h
  split_ifs at h with hlt
  · cases h
    exact .inl ⟨hlt, rfl, rfl, rfl⟩
  · obtain ⟨m, hm, he⟩ := (map_eq_ok).1 h
    cases he
    exact .inr ⟨hlt, m, hm, rfl, rfl, rfl⟩

lemma allocate_lookup {k : Key} (hk : k ≠ .mx) : db'.rows.lookup k = db.rows.lookup k := by
  rcases allocate_eq_ok h with ⟨-, -, rfl, -⟩ | ⟨-, m, -, -, rfl, -⟩
  · rfl
  · exact Db.lookup_write_single hk.symm

lemma allocate_get {k : Key} (hk : k ≠ .mx) : db'.get k = db.get k := by
  unfold Db.get
  rw [allocate_lookup h hk]

end

end Returns

end Bepository.Storage
