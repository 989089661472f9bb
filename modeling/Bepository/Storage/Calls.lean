import Bepository.Storage.Compaction

/-!
# Store calls, one await at a time (`bepository-storage/src/store.rs`)

The calls of `FolderStore` as they interleave.  A call in flight is a program counter: the database
request or the step on shared state it will make next, with the locals it still needs.  `Pc.exec`
makes that step.  The number allocator and the sequence counter are read and written under
`seq_lock`, so each is one step.
-/

namespace Bepository.Storage

open Lib

/-- The calls, with their arguments.  The epoch is that of the session. -/
inductive Op where
  | putFile (file : WireFile)
  | putFileWithCarry (file : WireFile) (carryFrom : Str)
  | stageFile (file : WireFile)
  | completeFile (name : Str) (expected : Option VersionVector)
  | storeBlock (name : Str) (hash data : Bytes)
  | reuseBlock (name : Str) (hash : Bytes)

/-- What a call does next.  `data` is what `store_block` was given and `none` for `reuse_block`;
`carried` and `recs` are the blocks still to be recorded with the compactions. -/
inductive Pc where
  | readSource (file : WireFile) (carryFrom : Str)
  | wait (pc : Pc)
  | commitRead (stored : StoredFile) (batch : WriteBatch) (carried : List (Bytes32 × ℕ))
  | commitWrite (stored : StoredFile) (batch : WriteBatch) (carried : List (Bytes32 × ℕ))
  | stagePut (file : WireFile)
  | readInbox (expected : Option VersionVector)
  | readCommitted (staged : StoredFile)
  | checkSafe (hash : Bytes32) (data : Option Bytes)
  | scanRefs (hash : Bytes32) (data : Option Bytes)
  | readPointer (hash : Bytes32) (data : Option Bytes) (dirs : List Str)
  | readData (hash : Bytes32) (data : Option Bytes) (dir : Str) (seq : ℕ) (dirs : List Str)
  | allocate (hash : Bytes32) (data : Bytes)
  | readStaged (hash : Bytes32) (link : Link)
  | readMain (hash : Bytes32) (link : Link)
  | write (hash : Bytes32) (link : Link) (entry : StoredFile × Key)
  | record (recs : List (Bytes32 × ℕ))

/-- A call in flight; `name` is the name it locks. -/
structure Call where
  name : Str
  pc : Pc

/-- The name lock is held from the end of `wait` to the end of the call. -/
def Pc.locked : Pc → Bool
  | .readSource .. => false
  | .wait _ => false
  | _ => true

/-- The call up to its first step; `none` if it fails at once. -/
def Op.start : Op → Option Call
  | .putFile file => some ⟨file.name, .wait (.commitRead file.toStored [] [])⟩
  | .putFileWithCarry file carryFrom => some ⟨file.name, .readSource file carryFrom⟩
  | .stageFile file => some ⟨file.name, .wait (.stagePut file)⟩
  | .completeFile name expected => some ⟨name, .wait (.readInbox expected)⟩
  | .storeBlock name hash data => (toBytes32 hash).map fun hash =>
      if data.length < INLINE_BLOCK_THRESHOLD then ⟨name, .wait (.readStaged hash (.inline data))⟩
      else ⟨name, .wait (.checkSafe hash (some data))⟩
  | .reuseBlock name hash => (toBytes32 hash).map fun hash => ⟨name, .wait (.checkSafe hash none)⟩

inductive After where
  | go (pc : Pc)
  | done (r : Except StorageError Unit)

/-- No directory is left: `store_block` writes a new row, `reuse_block` gives up. -/
def notFound (hash : Bytes32) : Option Bytes → After
  | some data => .go (.allocate hash data)
  | none => .done (.ok ())

/-- The loop of `find_block_dir` goes on to the next directory. -/
def probeNext (hash : Bytes32) (data : Option Bytes) : List Str → After
  | [] => notFound hash data
  | dirs => .go (.readPointer hash data dirs)

def toWrite (name : Str) (hash : Bytes32) (link : Link) (entry : StoredFile × Key) : After :=
  match linkBatch name hash link entry with
  | .error e => .done (.error e)
  | .ok _ => .go (.write hash link entry)

def recordNext : List (Bytes32 × ℕ) → After
  | [] => .done (.ok ())
  | recs => .go (.record recs)

section Exec

variable (bl : Blooms) (epoch : Epoch)

/-- One step of a call on `name` that is not waiting for its lock. -/
def Pc.exec (name : Str) (st : Store) : Pc → Store × After
  | .readSource file carryFrom =>
    match getFileProto st.db carryFrom with
    | .error e => (st, .done (.error e))
    | .ok src =>
      let (stored, batch, carried) := carryFromSource file src
      (st, .go (.wait (.commitRead stored batch carried)))
  | .wait pc => (st, .go (.wait pc))
  | .commitRead stored batch carried =>
    match Storage.commitRead st.db name stored batch with
    | .error e => (st, .done (.error e))
    | .ok (stored, batch) => (st, .go (.commitWrite stored batch carried))
  | .commitWrite stored batch carried =>
    match Storage.commitWrite st.db name stored batch with
    | .error e => (st, .done (.error e))
    | .ok (db, _) => ({ st with db := db }, recordNext carried)
  | .stagePut file => ({ st with db := stageFile st.db epoch file }, .done (.ok ()))
  | .readInbox expected =>
    match Storage.readStaged st.db epoch name with
    | .error e => (st, .done (.error e))
    | .ok none => (st, .done (.ok ()))
    | .ok (some staged) =>
      if staged.version ≠ expected then (st, .done (.ok ())) else (st, .go (.readCommitted staged))
  | .readCommitted staged =>
    match getFileProto st.db name with
    | .error e => (st, .done (.error e))
    | .ok old =>
      if completable staged old then
        (st, .go (.commitRead staged [.delete (inboxKey epoch name)] []))
      else (st, .done (.error (incompleteError name)))
  | .checkSafe hash data =>
    (st, if st.gc.isBlockSafe bl hash then .go (.scanRefs hash data) else notFound hash data)
  | .scanRefs hash data => (st, probeNext hash data (reverseDirs st.db hash))
  | .readPointer hash data [] => (st, notFound hash data)
  | .readPointer hash data (dir :: dirs) =>
    match Storage.readPointer st.db dir hash with
    | .error e => (st, .done (.error e))
    | .ok none => (st, probeNext hash data dirs)
    | .ok (some seq) => (st, .go (.readData hash data dir seq dirs))
  | .readData hash data dir seq dirs =>
    (st, if (st.db.get (.bd seq)).isSome then .go (.readStaged hash (.existing dir seq))
      else probeNext hash data dirs)
  | .allocate hash data =>
    match Storage.allocate st.db st.range with
    | .error e => (st, .done (.error e))
    | .ok (seq, db, range) =>
      ({ st with db := db, range := range }, .go (.readStaged hash (.fresh seq data)))
  | .readStaged hash link =>
    match findInboxEntry st.db (some epoch) name with
    | .error e => (st, .done (.error e))
    | .ok none => (st, .go (.readMain hash link))
    | .ok (some entry) => (st, toWrite name hash link entry)
  | .readMain hash link =>
    match findMainEntry st.db name with
    | .error e => (st, .done (.error e))
    | .ok entry => (st, toWrite name hash link entry)
  | .write hash link entry =>
    match linkBatch name hash link entry with
    | .error e => (st, .done (.error e))
    | .ok batch => ({ st with db := st.db.write batch },
        recordNext (link.seq.toList.map fun seq => (hash, seq)))
  | .record [] => (st, .done (.ok ()))
  | .record ((hash, seq) :: recs) =>
    ({ st with gc := st.gc.recordBlockWrite hash (some seq) }, recordNext recs)

/-! ### What a step can do -/

/-- A call that looks for a row with this hash, or is about to write one. -/
inductive Pc.Searching (hash : Bytes32) (data : Option Bytes) : Pc → Prop where
  | checkSafe : Searching hash data (.checkSafe hash data)
  | scanRefs : Searching hash data (.scanRefs hash data)
  | readPointer dirs : Searching hash data (.readPointer hash data dirs)
  | readData dir seq dirs : Searching hash data (.readData hash data dir seq dirs)
  | allocate d (h : data = some d) : Searching hash data (.allocate hash d)

variable (name : Str) (st : Store)

/-- The steps of a call on `name`: it returns without a write, or it takes the step named. -/
inductive Pc.Steps : Pc → Store → After → Prop where
  | stop {pc r} (h : ∀ c recs, pc ≠ .record (c :: recs)) : Steps pc st (.done r)
  | waiting {pc} : Steps (.wait pc) st (.go (.wait pc))
  | readSource {file carryFrom src} (h : getFileProto st.db carryFrom = .ok src) :
      Steps (.readSource file carryFrom) st (.go (.wait (.commitRead
        (carryFromSource file src).1 (carryFromSource file src).2.1 (carryFromSource file src).2.2)))
  | commitRead {stored batch carried stored' batch'}
      (h : Storage.commitRead st.db name stored batch = .ok (stored', batch')) :
      Steps (.commitRead stored batch carried) st (.go (.commitWrite stored' batch' carried))
  | commitWrite {stored batch carried db stored'}
      (h : Storage.commitWrite st.db name stored batch = .ok (db, stored')) :
      Steps (.commitWrite stored batch carried) { st with db := db } (recordNext carried)
  | stagePut {file} : Steps (.stagePut file) { st with db := stageFile st.db epoch file } (.done (.ok ()))
  | readInbox {staged} (h : Storage.readStaged st.db epoch name = .ok (some staged)) :
      Steps (.readInbox staged.version) st (.go (.readCommitted staged))
  | readCommitted {staged old} (h : getFileProto st.db name = .ok old) (hc : completable staged old = true) :
      Steps (.readCommitted staged) st (.go (.commitRead staged [.delete (inboxKey epoch name)] []))
  | search {hash data pc pc'} (h : pc.Searching hash data) (h' : pc'.Searching hash data)
      (hr : ∀ dir seq dirs, pc' ≠ .readData hash data dir seq dirs) : Steps pc st (.go pc')
  | pointer {hash data dir dirs seq} (h : Storage.readPointer st.db dir hash = .ok (some seq)) :
      Steps (.readPointer hash data (dir :: dirs)) st (.go (.readData hash data dir seq dirs))
  | hit {hash data dir seq dirs} (h : (st.db.get (.bd seq)).isSome) :
      Steps (.readData hash data dir seq dirs) st (.go (.readStaged hash (.existing dir seq)))
  | allocate {hash data seq db range} (h : Storage.allocate st.db st.range = .ok (seq, db, range)) :
      Steps (.allocate hash data) { st with db := db, range := range }
        (.go (.readStaged hash (.fresh seq data)))
  | toMain {hash link} : Steps (.readStaged hash link) st (.go (.readMain hash link))
  | inboxEntry {hash link entry} (h : findInboxEntry st.db (some epoch) name = .ok (some entry)) :
      Steps (.readStaged hash link) st (.go (.write hash link entry))
  | mainEntry {hash link entry} (h : findMainEntry st.db name = .ok entry) :
      Steps (.readMain hash link) st (.go (.write hash link entry))
  | write {hash link entry batch} (h : linkBatch name hash link entry = .ok batch) :
      Steps (.write hash link entry) { st with db := st.db.write batch }
        (recordNext (link.seq.toList.map fun seq => (hash, seq)))
  | record {hash seq recs} : Steps (.record ((hash, seq) :: recs))
        { st with gc := st.gc.recordBlockWrite hash (some seq) } (recordNext recs)

variable {bl epoch name st} {st' : Store} {pc : Pc} {aft : After}

lemma notFound_steps {hash : Bytes32} {data : Option Bytes} (h : pc.Searching hash data) :
    pc.Steps epoch name st st (notFound hash data) := by
  cases data with
  | none => exact .stop (by cases h <;> simp)
  | some d => exact .search h (.allocate d rfl) (by simp)

lemma probeNext_steps {hash : Bytes32} {data : Option Bytes} {dirs : List Str}
    (h : pc.Searching hash data) : pc.Steps epoch name st st (probeNext hash data dirs) := by
  cases dirs with
  | nil => exact notFound_steps h
  | cons => exact .search h (.readPointer _) (by simp)

/-- **Inversion.**  A step of a call is one of those listed. -/
theorem exec_steps (h : pc.exec bl epoch name st = (st', aft)) : pc.Steps epoch name st st' aft := by
  cases pc with
  | readSource =>
    simp only [Pc.exec] at h
    split at h <;> cases h
    · exact .stop (by simp)
    · next src hs => exact .readSource hs
  | wait => cases h; exact .waiting
  | commitRead =>
    simp only [Pc.exec] at h
    split at h <;> cases h
    · exact .stop (by simp)
    · next hs => exact .commitRead hs
  | commitWrite =>
    simp only [Pc.exec] at h
    split at h <;> cases h
    · exact .stop (by simp)
    · next hs => exact .commitWrite hs
  | stagePut => cases h; exact .stagePut
  | readInbox =>
    simp only [Pc.exec] at h
    split at h
    · cases h; exact .stop (by simp)
    · cases h; exact .stop (by simp)
    · next staged hs =>
      split_ifs at h with hv
      · cases h; exact .stop (by simp)
      · cases h
        rw [not_not] at hv
        subst hv
        exact .readInbox hs
  | readCommitted =>
    simp only [Pc.exec] at h
    split at h
    · cases h; exact .stop (by simp)
    · next old hs =>
      split_ifs at h with hc <;> cases h
      · exact .readCommitted hs hc
      · exact .stop (by simp)
  | checkSafe =>
    simp only [Pc.exec] at h
    split_ifs at h <;> cases h
    · exact .search .checkSafe .scanRefs (by simp)
    · exact notFound_steps .checkSafe
  | scanRefs => cases h; exact probeNext_steps .scanRefs
  | readPointer hash data dirs =>
    cases dirs with
    | nil => cases h; exact notFound_steps (.readPointer _)
    | cons =>
      simp only [Pc.exec] at h
      split at h <;> cases h
      · exact .stop (by simp)
      · exact probeNext_steps (.readPointer _)
      · next seq hs => exact .pointer hs
  | readData =>
    simp only [Pc.exec] at h
    split_ifs at h with hs <;> cases h
    · exact .hit hs
    · exact probeNext_steps (.readData _ _ _)
  | allocate =>
    simp only [Pc.exec] at h
    split at h <;> cases h
    · exact .stop (by simp)
    · next hs => exact .allocate hs
  | readStaged =>
    simp only [Pc.exec] at h
    split at h
    · cases h; exact .stop (by simp)
    · cases h; exact .toMain
    · next entry hs =>
      unfold toWrite at h
      split at h <;> cases h
      · exact .stop (by simp)
      · exact .inboxEntry hs
  | readMain =>
    simp only [Pc.exec] at h
    split at h
    · cases h; exact .stop (by simp)
    · next entry hs =>
      unfold toWrite at h
      split at h <;> cases h
      · exact .stop (by simp)
      · exact .mainEntry hs
  | write =>
    simp only [Pc.exec] at h
    split at h <;> cases h
    · exact .stop (by simp)
    · next hs => exact .write hs
  | record recs =>
    cases recs with
    | nil => cases h; exact .stop (by simp)
    | cons => cases h; exact .record

end Exec

end Bepository.Storage
