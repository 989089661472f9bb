import Bepository.Lib.Run
import Bepository.Storage.Api

/-!
# One connection (`bepository-bep/src/connection.rs`)

The index loop applies the files that the peer announces and requests their blocks; the message loop
stores the blocks that arrive and works off the deferred requests.  Both can complete a file.  They
share the pending and the deferred requests and the folder's store, and each runs from one await to the
next.  A call of the store is one step: it holds the lock of its name.
-/

namespace Bepository.Sync

open Lib Storage

/-! ### State -/

/-- `FileBlock`, of the one folder. -/
structure FileBlock where
  name : Str
  offset : ℤ
  hash : Bytes
  version : Option VersionVector
  deriving DecidableEq

/-- `DeferredRequest`. -/
structure DeferredRequest where
  block : FileBlock
  size : ℤ
  blockNo : ℕ
  deriving DecidableEq

/-- What is queued for the peer: a `Request` for a block, or an `IndexUpdate` with one file. -/
inductive Outgoing where
  | request (id : ℤ) (block : FileBlock) (size : ℤ) (blockNo : ℕ)
  | indexUpdate (file : WireFile)
  deriving DecidableEq

/-- What the index loop does next.  `todo` are the files of the batch still to be applied, `needed`
those whose blocks are still to be requested. -/
inductive IndexPc where
  | idle
  | apply (todo needed : List WireFile)
  | perform (file : WireFile) (step : UpdateStep) (todo needed : List WireFile)
  | conflict (localFile remote : WireFile) (todo needed : List WireFile)
  | copy (winner loser : WireFile) (path : Str) (todo needed : List WireFile)
  | winner (file : WireFile) (todo needed : List WireFile)
  | request (file : WireFile) (blocks : List BlockInfo) (needed : List WireFile)
  | submit (file : WireFile) (block : BlockInfo) (blocks : List BlockInfo) (needed : List WireFile)
  | check (file : WireFile) (needed : List WireFile)
  | complete (file : WireFile) (needed : List WireFile)
  | notify (file : WireFile) (next : IndexPc)
  | record
  | stopped
  deriving DecidableEq

/-- What the message loop does next.  `done` is the block that was stored, `next` what follows. -/
inductive MsgPc where
  | idle
  | store (block : FileBlock) (data : Bytes)
  | drain (done : Option FileBlock)
  | reuse (deferred : DeferredRequest) (done : Option FileBlock)
  | submit (deferred : DeferredRequest) (done : Option FileBlock)
  | check (block : FileBlock) (next : MsgPc)
  | complete (block : FileBlock) (next : MsgPc)
  | notify (file : WireFile) (next : MsgPc)
  | stopped
  deriving DecidableEq

/-- `ConnectionInner`, the two loops and the shutdown token.  `lastSequence` is that of the batch at
work. -/
structure Conn where
  store : Store
  pending : Table ℤ FileBlock
  nextId : ℤ
  deferred : List DeferredRequest
  shutdown : Bool
  lastSequence : ℤ
  index : IndexPc
  msg : MsgPc
  sent : List Outgoing

structure Config where
  bl : Blooms
  epoch : Epoch
  device : Bytes32
  indexId : ℕ
  maxPendingRequests : ℕ

def clampMaxPendingRequests (v : ℕ) : ℕ := max v 1

/-- Arithmetic in `i32`. -/
def wrapI32 (n : ℤ) : ℤ := (n + 2 ^ 31) % 2 ^ 32 - 2 ^ 31

/-- `next_request_id`: the id and the counter after it.  The loop ends when it meets an id that is not
in flight. -/
def nextRequestId (pending : Table ℤ FileBlock) : ℕ → ℤ → Option (ℤ × ℤ)
  | 0, _ => none
  | tries + 1, id =>
    if id ∈ pending then nextRequestId pending tries (wrapI32 (id + 1))
    else some (id, wrapI32 (id + 1))

namespace Conn

def connect (st : Store) : Conn := ⟨st, ∅, 0, [], false, 0, .idle, .idle, []⟩

def setDb (c : Conn) (db : Db) : Conn := { c with store := { c.store with db := db } }

def setIndex (c : Conn) (pc : IndexPc) : Conn := { c with index := pc }

def setMsg (c : Conn) (pc : MsgPc) : Conn := { c with msg := pc }

def failIndex (c : Conn) : Conn := { c with index := .stopped, shutdown := true }

def failMsg (c : Conn) : Conn := { c with msg := .stopped, shutdown := true }

/-- The test of `maybe_complete_file`. -/
def shouldComplete (c : Conn) (name : Str) : Bool :=
  c.pending.toList.all (fun p => p.2.name ≠ name) && c.deferred.all fun d => d.block.name ≠ name

section Steps

variable (cfg : Config)

def full (c : Conn) : Bool :=
  clampMaxPendingRequests cfg.maxPendingRequests ≤ c.pending.entries.length

def submitOrDeferBlock (c : Conn) (block : FileBlock) (size : ℤ) (blockNo : ℕ) : Option Conn :=
  if c.full cfg then some { c with deferred := c.deferred ++ [⟨block, size, blockNo⟩] }
  else (nextRequestId c.pending (c.pending.entries.length + 1) c.nextId).map fun next =>
    { c with
      pending := c.pending.insert next.1 block
      nextId := next.2
      sent := c.sent ++ [.request next.1 block size blockNo] }

def reuseBlock (c : Conn) (name : Str) (hash : Bytes) (size : ℤ) : Except StorageError Bool × Store :=
  if isInlineBlock size then (.ok false, c.store)
  else Storage.reuseBlock cfg.bl c.store (some cfg.epoch) name hash

/-- The index loop goes on with what `apply_update` returned. -/
def afterUpdate (todo needed : List WireFile) : UpdateResult → IndexPc
  | .needBlocks file => .apply todo (needed ++ [file])
  | .noAction => .apply todo needed
  | .applied file => .notify file (.apply todo needed)
  | .concurrent localFile remote => .conflict localFile remote todo needed

def readStep (c : Conn) (file : WireFile) (todo needed : List WireFile) : Conn :=
  match validateFileInfo file with
  | .error _ => c.failIndex
  | .ok () =>
    match checkUpdate file with
    | .error _ => c.failIndex
    | .ok () =>
      match readUpdate c.store.db file with
      | .error _ => c.failIndex
      | .ok step => c.setIndex (.perform file step todo needed)

/-- The end of a loop's `complete_and_notify`, when `complete_file` has returned. -/
def afterComplete {pc : Type} (notify : WireFile → pc → pc) (next : pc) : Option WireFile → pc
  | none => next
  | some file => notify file next

/-- The index loop: `apply_remote_index` and `request_blocks`. -/
def indexStep (c : Conn) : Option Conn :=
  match c.index with
  | .idle | .stopped => none
  | .apply (file :: todo) needed => some (c.readStep file todo needed)
  | .apply [] (file :: needed) => some (c.setIndex (.request file file.blocks needed))
  | .apply [] [] => some (c.setIndex .record)
  | .perform file step todo needed =>
    match performUpdate c.store.db cfg.epoch file step with
    | (.error _, db) => some (c.setDb db).failIndex
    | (.ok result, db) => some ((c.setDb db).setIndex (afterUpdate todo needed result))
  | .conflict .. => none
  | .copy winner loser path todo needed =>
    match copyLoser c.store loser (some path) with
    | (.error _, st) => some { c with store := st }.failIndex
    | (.ok (), st) => some ({ c with store := st }.setIndex (.winner winner todo needed))
  | .winner file todo needed =>
    match putFile c.store.db file with
    | (.error _, db) => some (c.setDb db).failIndex
    | (.ok _, db) =>
      some ((c.setDb db).setIndex (.apply todo (if file.deleted then needed else needed ++ [file])))
  | .request file [] needed => some (c.setIndex (.check file needed))
  | .request file (block :: blocks) needed =>
    if c.shutdown then some (c.setIndex (.check file needed))
    else match c.reuseBlock cfg file.name block.hash block.size with
      | (.error _, st) => some { c with store := st }.failIndex
      | (.ok true, st) => some ({ c with store := st }.setIndex (.request file blocks needed))
      | (.ok false, st) => some ({ c with store := st }.setIndex (.submit file block blocks needed))
  | .submit file block blocks needed =>
    let blockNo := file.blocks.length - (blocks.length + 1)
    if 2 ^ 31 ≤ blockNo then some c.failIndex
    else (c.submitOrDeferBlock cfg ⟨file.name, block.offset, block.hash, file.version⟩ block.size
      blockNo).map fun c => c.setIndex (.request file blocks needed)
  | .check file needed =>
    some (c.setIndex (if c.shouldComplete file.name then .complete file needed else .apply [] needed))
  | .complete file needed =>
    match completeFile c.store.db cfg.epoch file.name file.version with
    | (.error _, db) => some (c.setDb db).failIndex
    | (.ok committed, db) =>
      some ((c.setDb db).setIndex (afterComplete .notify (.apply [] needed) committed))
  | .notify file next => some { c with sent := c.sent ++ [.indexUpdate file], index := next }
  | .record =>
    some ((c.setDb (c.store.db.write
      [.put (.md cfg.device) (.remote ⟨cfg.indexId, c.lastSequence⟩)])).setIndex .idle)

def afterDrain : Option FileBlock → MsgPc
  | none => .idle
  | some block => .check block .idle

/-- The message loop: `handle_response` after the response was taken, and `drain_deferred`. -/
def msgStep (c : Conn) : Option Conn :=
  match c.msg with
  | .idle | .stopped => none
  | .store block data =>
    match storeBlock cfg.bl c.store (some cfg.epoch) block.name block.hash data with
    | (.error _, st) => some { c with store := st }.failMsg
    | (.ok (), st) => some ({ c with store := st }.setMsg (.drain (some block)))
  | .drain done =>
    if c.shutdown || c.full cfg then some (c.setMsg (afterDrain done))
    else match c.deferred with
      | [] => some (c.setMsg (afterDrain done))
      | d :: ds => some ({ c with deferred := ds }.setMsg (.reuse d done))
  | .reuse d done =>
    match c.reuseBlock cfg d.block.name d.block.hash d.size with
    | (.error _, st) => some { c with store := st }.failMsg
    | (.ok true, st) => some ({ c with store := st }.setMsg (.check d.block (.drain done)))
    | (.ok false, st) => some ({ c with store := st }.setMsg (.submit d done))
  | .submit d done =>
    (c.submitOrDeferBlock cfg d.block d.size d.blockNo).map fun c => c.setMsg (.drain done)
  | .check block next =>
    some (c.setMsg (if c.shouldComplete block.name then .complete block next else next))
  | .complete block next =>
    match completeFile c.store.db cfg.epoch block.name block.version with
    | (.error _, db) => some (c.setDb db).failMsg
    | (.ok committed, db) => some ((c.setDb db).setMsg (afterComplete .notify next committed))
  | .notify file next => some { c with sent := c.sent ++ [.indexUpdate file], msg := next }

/-- A `Response` is taken: its request is no longer pending. -/
def response (c : Conn) (id code : ℤ) (data : Bytes) : Conn :=
  match c.pending.lookup id with
  | none => c.setMsg (.drain none)
  | some block =>
    if code ≠ 0 then { c with pending := c.pending.erase id }.failMsg
    else { c with pending := c.pending.erase id }.setMsg (.store block data)

def resolve (c : Conn) (remoteWins : Bool) (loserPath : Option Str) : Option Conn :=
  match c.index with
  | .conflict localFile remote todo needed =>
    let winner := if remoteWins then remote else localFile
    let loser := if remoteWins then localFile else remote
    match loserPath with
    | none => some (c.setIndex (.winner winner todo needed))
    | some path => some (c.setIndex (.copy winner loser path todo needed))
  | _ => none

end Steps

end Conn

/-- What can happen: messages of the peer, the loops' own steps, and the end of the connection at any
await, with a new one after it. -/
inductive Act where
  | index (files : List WireFile) (lastSequence : ℤ)
  | indexStep
  | resolve (remoteWins : Bool) (loserPath : Option Str)
  | response (id code : ℤ) (data : Bytes)
  | msgStep
  | shutdown
  | failIndex
  | failMsg
  | reconnect

def Conn.step (cfg : Config) (c : Conn) : Act → Option Conn
  | .index files lastSequence =>
    match c.index with
    | .idle => some { c with index := .apply files [], lastSequence := lastSequence }
    | _ => none
  | .indexStep => c.indexStep cfg
  | .resolve remoteWins loserPath => c.resolve remoteWins loserPath
  | .response id code data =>
    match c.msg with
    | .idle => some (c.response id code data)
    | _ => none
  | .msgStep => c.msgStep cfg
  | .shutdown => some { c with shutdown := true }
  | .failIndex => some c.failIndex
  | .failMsg => some c.failMsg
  | .reconnect => some (Conn.connect c.store)

def sampleConfig : Config := ⟨exactFilters, firstEpoch, ⟨List.replicate 32 1, rfl⟩, 7, 16⟩

def blockOf (x : UInt8) (offset : ℤ) : BlockInfo := ⟨List.replicate 32 x, offset, 1⟩

def twoBlocks : WireFile :=
  ⟨['f'], 2, some ⟨[⟨1, 1⟩]⟩, 1, [blockOf 0 0, blockOf 1 1], 0, false⟩

end Bepository.Sync
