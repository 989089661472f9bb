import Bepository.Lib.Run
import Bepository.Storage.Api
import Bepository.Storage.Carry

/-!
# Conflict copies under retries

`resolve_conflict` commits a copy of the loser with the pointers of the committed entry, and then the winner
over that entry.  Either write may fail before or after it takes effect, and the call is made again from its
start.  A later attempt may find the winner already in place and then has fewer pointers to copy; those that it
misses it takes over from the copy that an earlier attempt has left.
-/

namespace Bepository.Storage

open Lib List

/-! ### Attempts -/

/-- How a write ends: it succeeds, or an error is reported without its effect or in spite of it. -/
inductive WriteEnd where
  | success
  | lost
  | unreported
  deriving DecidableEq

/-- Where an attempt is: the entry that gives the pointers has been read, the entry that the copy replaces, the
copy has been written, the entry that the winner replaces has been read. -/
inductive ResolvePhase where
  | start
  | copyRead (stored : StoredFile) (batch : WriteBatch)
  | copyWrite (stored : StoredFile) (batch : WriteBatch)
  | winner
  | winnerWrite (stored : StoredFile) (batch : WriteBatch)
  | finished

structure Resolving where
  phase : ResolvePhase
  db : Db

/-- A step of the attempt, a read that fails, or a write of somebody else. -/
inductive ResolveAct where
  | next (ending : WriteEnd)
  | fail
  | other (batch : WriteBatch)

/-- An operation that leaves the entries of the two names and the reverse references of the copy alone, and
writes no block data over. -/
def sparing (name path : Str) (db : Db) (op : BatchOp) : Bool :=
  op.key ≠ fileKey name && op.key ≠ fileKey path &&
    match op.key with
    | .mr _ p => p ≠ splitName path
    | .bd seq => (db.get (.bd seq)).isNone
    | _ => true

/-- After a write from `db` to `db'`: on, or back to the start. -/
def endWrite (db db' : Db) (next : ResolvePhase) : WriteEnd → Resolving
  | .success => ⟨next, db'⟩
  | .lost => ⟨.start, db⟩
  | .unreported => ⟨.start, db'⟩

/-- One step of `resolve_conflict` with a path for the loser, called again after an error. -/
def resolveStep (winner loser : WireFile) (path : Str) (s : Resolving) : ResolveAct → Option Resolving
  | .fail =>
    match s.phase with
    | .finished => none
    | _ => some ⟨.start, s.db⟩
  | .other batch =>
    if batch.all (sparing loser.name path s.db) then some { s with db := s.db.write batch } else none
  | .next ending =>
    match s.phase with
    | .start =>
      match getFileProto s.db loser.name with
      | .error _ => some ⟨.start, s.db⟩
      | .ok src =>
        let (stored, batch, _) := carryFromSource { loser with name := path } src
        some ⟨.copyRead stored batch, s.db⟩
    | .copyRead stored batch =>
      match commitRead s.db path stored batch with
      | .error _ => some ⟨.start, s.db⟩
      | .ok (stored, batch) => some ⟨.copyWrite stored batch, s.db⟩
    | .copyWrite stored batch =>
      match commitWrite s.db path stored batch with
      | .error _ => some ⟨.start, s.db⟩
      | .ok (db, _) => some (endWrite s.db db .winner ending)
    | .winner =>
      match commitRead s.db winner.name winner.toStored [] with
      | .error _ => some ⟨.start, s.db⟩
      | .ok (stored, batch) => some ⟨.winnerWrite stored batch, s.db⟩
    | .winnerWrite stored batch =>
      match commitWrite s.db winner.name stored batch with
      | .error _ => some ⟨.start, s.db⟩
      | .ok (db, _) => some (endWrite s.db db .finished ending)
    | .finished => none

section Attempt

variable (winner loser : WireFile) (path : Str)

/-- The steps of an attempt, with what they depend on. -/
inductive Resolves : Resolving → Resolving → Prop where
  | again {s : Resolving} : Resolves s ⟨.start, s.db⟩
  | other {s : Resolving} {batch} (h : ∀ op ∈ batch, sparing loser.name path s.db op = true) :
      Resolves s { s with db := s.db.write batch }
  | source {db src} (h : getFileProto db loser.name = .ok src) : Resolves ⟨.start, db⟩
        ⟨.copyRead (carryFromSource { loser with name := path } src).1
          (carryFromSource { loser with name := path } src).2.1, db⟩
  | copyRead {db stored stored' batch batch'} (h : commitRead db path stored batch = .ok (stored', batch')) :
      Resolves ⟨.copyRead stored batch, db⟩ ⟨.copyWrite stored' batch', db⟩
  | copyWrite {db db' stored stored' batch} {phase : ResolvePhase}
      (h : commitWrite db path stored batch = .ok (db', stored')) (hp : phase = .winner ∨ phase = .start) :
      Resolves ⟨.copyWrite stored batch, db⟩ ⟨phase, db'⟩
  | winnerRead {db stored batch} (h : commitRead db winner.name winner.toStored [] = .ok (stored, batch)) :
      Resolves ⟨.winner, db⟩ ⟨.winnerWrite stored batch, db⟩
  | winnerWrite {db db' stored stored' batch} {phase : ResolvePhase}
      (h : commitWrite db winner.name stored batch = .ok (db', stored'))
      (hp : phase = .finished ∨ phase = .start) : Resolves ⟨.winnerWrite stored batch, db⟩ ⟨phase, db'⟩

end Attempt

/-- **Inversion.**  A step of an attempt is one of those listed. -/
lemma resolveStep_resolves {winner loser : WireFile} {path : Str} {s s' : Resolving} {a : ResolveAct}
    (h : resolveStep winner loser path s a = some s') : Resolves winner loser path s s' := by
  obtain ⟨phase, db⟩ := s
  cases a with
  | fail =>
    simp only [resolveStep] at h
    split at h
    · cases h
    · cases h
      exact .again
  | other =>
    simp only [resolveStep] at h
    split_ifs at h with hb
    cases h
    exact .other (all_eq_true.1 hb)
  | next ending =>
    cases phase with
    | start =>
      simp only [resolveStep] at h
      split at h <;> cases h
      · exact .again
      · next src hsrc => exact .source hsrc
    | copyRead =>
      simp only [resolveStep] at h
      split at h <;> cases h
      · exact .again
      · next stored' batch' hread => exact .copyRead hread
    | copyWrite =>
      simp only [resolveStep] at h
      split at h <;> cases h
      · exact .again
      · next db' stored' hwrite =>
        cases ending with
        | success => exact .copyWrite hwrite (.inl rfl)
        | lost => exact .again
        | unreported => exact .copyWrite hwrite (.inr rfl)
    | winner =>
      simp only [resolveStep] at h
      split at h <;> cases h
      · exact .again
      · next stored' batch' hread => exact .winnerRead hread
    | winnerWrite =>
      simp only [resolveStep] at h
      split at h <;> cases h
      · exact .again
      · next db' stored' hwrite =>
        cases ending with
        | success => exact .winnerWrite hwrite (.inl rfl)
        | lost => exact .again
        | unreported => exact .winnerWrite hwrite (.inr rfl)
    | finished => cases h

/-! ### Pointers that come from one entry -/

def SamePointer (b c : StoredBlock) : Prop := b.blockseq = c.blockseq ∧ b.inlineData = c.inlineData

def Consistent (old : StoredFile) : Prop :=
  ∀ b ∈ old.blocks, ∀ c ∈ old.blocks, b.hash = c.hash → SamePointer b c

/-- Every pointer of the file is one that the old entry has for the hash. -/
def Sourced (old fi : StoredFile) : Prop :=
  ∀ b ∈ fi.blocks, b.hasPointer = true → ∃ src ∈ old.blocks, src.hash = b.hash ∧ SamePointer b src

/-- Every block with a hash that the old entry points from has the old entry's pointer. -/
def Kept (old fi : StoredFile) : Prop :=
  ∀ b ∈ fi.blocks, ∀ src ∈ old.blocks, src.hash = b.hash → src.hasPointer = true → SamePointer b src

section Pointers

variable {old fi stored : StoredFile} {b c : StoredBlock}

lemma SamePointer.hasPointer (h : SamePointer b c) : b.hasPointer = c.hasPointer := by
  unfold StoredBlock.hasPointer
  rw [h.1, h.2]

lemma SamePointer.trans {d : StoredBlock} (h : SamePointer b c) (h' : SamePointer c d) : SamePointer b d :=
  ⟨h.1.trans h'.1, h.2.trans h'.2⟩

lemma sourced_self : Sourced old old := fun b hb _ => ⟨b, hb, rfl, rfl, rfl⟩

lemma hasPointer_toStored {file : WireFile} (hb : b ∈ file.toStored.blocks) : b.hasPointer = false := by
  obtain ⟨w, -, rfl⟩ := mem_map.1 hb
  rfl

lemma sourced_toStored (file : WireFile) : Sourced old file.toStored := by
  intro b hb hp
  rw [hasPointer_toStored hb] at hp
  cases hp

lemma Sourced.carry (hs : Sourced old stored) (hfi : Sourced old fi) : Sourced old (carryBlockPointers stored fi) := by
  intro b hb hp
  obtain ⟨b₀, hb₀, hcase⟩ := exists_carried hb
  cases hcase with
  | kept => exact hs b hb₀ hp
  | missed hno => rw [hno] at hp; cases hp
  | taken src hno hsrc hh hsp =>
    obtain ⟨src', hsrc', hh', hsame⟩ := hfi src hsrc hsp
    exact ⟨src', hsrc', hh'.trans hh, hsame⟩

lemma kept_carry (hcons : Consistent old) {file : WireFile} : Kept old (carryBlockPointers file.toStored old) := by
  intro b hb src hsrc hh hsp
  obtain ⟨b₀, hb₀, hcase⟩ := exists_carried hb
  cases hcase with
  | kept hp => rw [hasPointer_toStored hb₀] at hp; cases hp
  | missed _ hn => rw [hn src hsrc hh] at hsp; cases hsp
  | taken src' _ hsrc' hh' => exact hcons src' hsrc' src hsrc (hh'.trans hh.symm)

lemma exists_hash_of_toWire {bs cs : List StoredBlock} (h : bs.map StoredBlock.toWire = cs.map StoredBlock.toWire)
    (hb : b ∈ bs) : ∃ c ∈ cs, c.hash = b.hash := by
  have hw : b.toWire ∈ cs.map StoredBlock.toWire := h ▸ mem_map_of_mem hb
  obtain ⟨c, hc, he⟩ := mem_map.1 hw
  exact ⟨c, hc, congrArg BlockInfo.hash he⟩

end Pointers

/-! ### What an attempt has reached -/

def Referenced (db : Db) (path : Str) (fi : StoredFile) (old : StoredFile) (batch : WriteBatch) : Prop :=
  ∀ b ∈ fi.blocks, ∀ src ∈ old.blocks, src.hash = b.hash → src.hasPointer = true → ∀ (seq : ℕ) (x : Bytes32),
    b.blockseq = some seq → x.1 = b.hash → (db.get (.mr x (splitName path))).isSome ∨
      .put (blockReverseKey x path) .empty ∈ batch

/-- A copy of the loser stands at the path, with the pointers of the old entry. -/
def Copied (old : StoredFile) (loser : WireFile) (path : Str) (db : Db) : Prop :=
  ∃ copy, entryAt db (fileKey path) = some copy ∧ copy.blocks.map StoredBlock.toWire = loser.blocks ∧
    Kept old copy ∧ Referenced db path copy old []

/-- The batch of the copy: reverse references, and the removal of a sequence row. -/
def CopyBatch (path : Str) (batch : WriteBatch) : Prop :=
  ∀ op ∈ batch, (∃ x, op = .put (blockReverseKey x path) .empty) ∨ ∃ q, op = .delete (.ms q)

/-- The copy as it is after the source was read: its pointers are those of the old entry; it has all of them, or
a copy that has them stands already. -/
structure CopyRead (old : StoredFile) (loser : WireFile) (path : Str) (db : Db) (stored : StoredFile)
    (batch : WriteBatch) : Prop where
  wire : stored.blocks.map StoredBlock.toWire = loser.blocks
  sourced : Sourced old stored
  refs : ∀ b ∈ stored.blocks, ∀ (seq : ℕ) (x : Bytes32), b.blockseq = some seq → x.1 = b.hash →
    .put (blockReverseKey x path) .empty ∈ batch
  batch : CopyBatch path batch
  all : Kept old stored ∨ Copied old loser path db

structure CopyReady (old : StoredFile) (loser : WireFile) (path : Str) (db : Db) (stored : StoredFile)
    (batch : WriteBatch) : Prop where
  wire : stored.blocks.map StoredBlock.toWire = loser.blocks
  kept : Kept old stored
  refs : Referenced db path stored old batch
  batch : CopyBatch path batch

def PhaseInv (old : StoredFile) (loser : WireFile) (path : Str) (db : Db) : ResolvePhase → Prop
  | .start => True
  | .copyRead stored batch => CopyRead old loser path db stored batch
  | .copyWrite stored batch => CopyReady old loser path db stored batch
  | .winner => Copied old loser path db
  | .winnerWrite stored batch =>
    Copied old loser path db ∧ Sourced old stored ∧ ∀ op ∈ batch, ∃ q, op = .delete (.ms q)
  | .finished => Copied old loser path db

/-- The entry at the name is the old one as long as no copy has been made, its pointers are always the old one's,
and no block data is lost. -/
structure ResolveInv (db₀ : Db) (old : StoredFile) (loser : WireFile) (path : Str) (s : Resolving) : Prop where
  source : ∃ fi, entryAt s.db (fileKey loser.name) = some fi ∧ Sourced old fi ∧
    (fi = old ∨ Copied old loser path s.db)
  data : ∀ seq v, db₀.get (.bd seq) = some v → s.db.get (.bd seq) = some v
  phase : PhaseInv old loser path s.db s.phase

section Steps

variable {db₀ db db' : Db} {old stored stored' : StoredFile} {winner loser : WireFile} {path : Str}
  {batch batch' : WriteBatch}

structure PathKept (path : Str) (db db' : Db) : Prop where
  entry : entryAt db' (fileKey path) = entryAt db (fileKey path)
  refs : ∀ x, (db.get (.mr x (splitName path))).isSome → (db'.get (.mr x (splitName path))).isSome

lemma Referenced.mono (hk : PathKept path db db') {fi : StoredFile} (h : Referenced db path fi old batch) :
    Referenced db' path fi old batch := by
  intro b hb src hsrc hh hsp seq x hseq hx
  exact (h b hb src hsrc hh hsp seq x hseq hx).imp_left (hk.refs x)

lemma Copied.mono (hk : PathKept path db db') (h : Copied old loser path db) : Copied old loser path db' := by
  obtain ⟨copy, hentry, hwire, hkept, href⟩ := h
  exact ⟨copy, hk.entry.trans hentry, hwire, hkept, href.mono hk⟩

variable {phase : ResolvePhase} {b src : StoredBlock}

lemma PhaseInv.mono (hk : PathKept path db db') (h : PhaseInv old loser path db phase) :
    PhaseInv old loser path db' phase := by
  cases phase with
  | start => trivial
  | copyRead stored batch => exact ⟨h.wire, h.sourced, h.refs, h.batch, h.all.imp_right (Copied.mono hk)⟩
  | copyWrite stored batch => exact ⟨h.wire, h.kept, h.refs.mono hk, h.batch⟩
  | winner | finished => exact Copied.mono hk h
  | winnerWrite => exact ⟨h.1.mono hk, h.2⟩

lemma copyRead_of_source (hcons : Consistent old) {fi : StoredFile} (hs : Sourced old fi)
    (hfi : fi = old ∨ Copied old loser path db) :
    CopyRead old loser path db (carryFromSource { loser with name := path } (some fi)).1
      (carryFromSource { loser with name := path } (some fi)).2.1 := by
  refine ⟨?_, (sourced_toStored _).carry hs, ?_, ?_, ?_⟩
  · show (carryBlockPointers _ _).blocks.map _ = _
    rw [blocks_toWire_carry, blocks_toWire_toStored]
  · intro b hb seq x hseq hx
    refine mem_map.2 ⟨(x, seq), mem_filterMap.2 ⟨b, hb, ?_⟩, rfl⟩
    rw [hseq, ← hx, toBytes32, dif_pos x.2]
    rfl
  · intro op hop
    obtain ⟨c, -, rfl⟩ := mem_map.1 hop
    exact .inl ⟨c.1, rfl⟩
  · rcases hfi with rfl | hcopied
    · exact .inl (kept_carry hcons)
    · exact .inr hcopied

lemma CopyRead.own (hcons : Consistent old) (h : CopyRead old loser path db stored batch)
    (hb : b ∈ stored.blocks) (hp : b.hasPointer = true) (hsrc : src ∈ old.blocks) (hh : src.hash = b.hash) :
    SamePointer b src := by
  obtain ⟨src', hsrc', hh', hsame⟩ := h.sourced b hb hp
  exact hsame.trans (hcons src' hsrc' src hsrc (hh'.trans hh.symm))

lemma CopyRead.copied (h : CopyRead old loser path db stored batch) (hb : b ∈ stored.blocks)
    (hno : b.hasPointer = false) (hsrc : src ∈ old.blocks) (hh : src.hash = b.hash) (hsp : src.hasPointer = true) :
    Copied old loser path db := by
  rcases h.all with hkept | hcopied
  · rw [(hkept b hb src hsrc hh hsp).hasPointer, hsp] at hno
    cases hno
  · exact hcopied

lemma CopyRead.block (hcons : Consistent old) (h : CopyRead old loser path db stored batch)
    (hb : b ∈ (withPointers stored (entryAt db (fileKey path))).blocks) (hsrc : src ∈ old.blocks)
    (hh : src.hash = b.hash) (hsp : src.hasPointer = true) :
    SamePointer b src ∧ ∀ (seq : ℕ) (x : Bytes32), b.blockseq = some seq → x.1 = b.hash →
      (db.get (.mr x (splitName path))).isSome ∨ .put (blockReverseKey x path) .empty ∈ batch := by
  cases hentry : entryAt db (fileKey path) with
  | none =>
    rw [hentry] at hb
    cases hp : b.hasPointer with
    | true => exact ⟨h.own hcons hb hp hsrc hh, fun seq x hseq hx => .inr (h.refs b hb seq x hseq hx)⟩
    | false =>
      obtain ⟨copy, hcopy, -⟩ := h.copied hb hp hsrc hh hsp
      rw [hentry] at hcopy
      cases hcopy
  | some fi =>
    rw [hentry] at hb
    obtain ⟨b₀, hb₀, hcase⟩ := exists_carried hb
    cases hcase with
    | kept hp => exact ⟨h.own hcons hb₀ hp hsrc hh, fun seq x hseq hx => .inr (h.refs b hb₀ seq x hseq hx)⟩
    | missed hno hn =>
      obtain ⟨copy, hcopy, hwire, hkept, -⟩ := h.copied hb₀ hno hsrc hh hsp
      obtain rfl : fi = copy := Option.some.inj (hentry.symm.trans hcopy)
      -- the earlier copy has the block, and with a pointer
      obtain ⟨c, hc, hch⟩ := exists_hash_of_toWire (h.wire.trans hwire.symm) hb₀
      have hcp := (hkept c hc src hsrc (hh.trans hch.symm) hsp).hasPointer
      rw [hn c hc hch, hsp] at hcp
      cases hcp
    | taken src' hno hsrc' hh' =>
      obtain ⟨copy, hcopy, -, hkept, href⟩ := h.copied hb₀ hno hsrc hh hsp
      obtain rfl : fi = copy := Option.some.inj (hentry.symm.trans hcopy)
      have hh'' : src.hash = src'.hash := hh.trans hh'.symm
      refine ⟨hkept src' hsrc' src hsrc hh'' hsp, fun seq x hseq hx => .inl ?_⟩
      rcases href src' hsrc' src hsrc hh'' hsp seq x hseq (hx.trans hh'.symm) with hsome | hput
      · exact hsome
      · cases hput

lemma CopyRead.ready (hcons : Consistent old) (h : CopyRead old loser path db stored batch)
    (hread : commitRead db path stored batch = .ok (stored', batch')) :
    CopyReady old loser path db stored' batch' := by
  obtain ⟨rfl, dels, rfl, hdels⟩ := commitRead_entries hread
  refine ⟨?_, fun b hb src hsrc hh hsp => (h.block hcons hb hsrc hh hsp).1, ?_, ?_⟩
  · rw [← h.wire]
    exact blocks_toWire_withPointers
  · intro b hb src hsrc hh hsp seq x hseq hx
    exact ((h.block hcons hb hsrc hh hsp).2 seq x hseq hx).imp_right fun hput => mem_append_left _ hput
  · intro op hop
    rcases mem_append.1 hop with hop | hop
    · exact h.batch op hop
    · exact .inr (hdels op hop)

lemma commitWrite_get {name : Str} (h : commitWrite db name stored batch = .ok (db', stored')) {k : Key}
    (hmx : k ≠ .mx) (hmn : k ≠ fileKey name) (hms : ∀ q, k ≠ .ms q) : db'.get k = (db.write batch).get k := by
  obtain ⟨m, -, -, -, rfl⟩ := commitWrite_eq_ok h
  refine Db.get_write_append fun op hop => ?_
  simp only [mem_cons, not_mem_nil, or_false] at hop
  rcases hop with rfl | rfl | rfl
  · exact fun he => hmx he.symm
  · exact fun he => hmn he.symm
  · exact fun he => hms _ he.symm

lemma CopyBatch.key (h : CopyBatch path batch) {op : BatchOp} (hop : op ∈ batch) :
    (∃ x, op.key = blockReverseKey x path) ∨ ∃ q, op.key = .ms q := by
  rcases h op hop with ⟨x, rfl⟩ | ⟨q, rfl⟩
  · exact .inl ⟨x, rfl⟩
  · exact .inr ⟨q, rfl⟩

lemma CopyBatch.get_write (h : CopyBatch path batch) {k : Key} (hmr : ∀ x, k ≠ blockReverseKey x path)
    (hms : ∀ q, k ≠ .ms q) : (db.write batch).get k = db.get k := by
  refine Db.get_write_of_forall_ne fun op hop he => ?_
  rcases h.key hop with ⟨x, hx⟩ | ⟨q, hq⟩
  · exact hmr x (he.symm.trans hx)
  · exact hms q (he.symm.trans hq)

lemma CopyBatch.isSome_ref (h : CopyBatch path batch) {x : Bytes32}
    (hx : (db.get (blockReverseKey x path)).isSome ∨ .put (blockReverseKey x path) .empty ∈ batch) :
    ((db.write batch).get (blockReverseKey x path)).isSome := by
  rw [Db.get_write]
  cases hlast : lastOp batch (blockReverseKey x path) with
  | some op =>
    obtain ⟨hmem, hkey⟩ := mem_of_lastOp hlast
    rcases h op hmem with ⟨y, rfl⟩ | ⟨q, rfl⟩
    · rfl
    · cases hkey
  | none =>
    rcases hx with hx | hx
    · exact hx
    · exact absurd rfl (lastOp_eq_none.1 hlast _ hx)

/-- **The copy is written.** -/
lemma CopyReady.copied (h : CopyReady old loser path db stored batch)
    (hwrite : commitWrite db path stored batch = .ok (db', stored')) : Copied old loser path db' := by
  obtain ⟨q, -, hent⟩ := commitWrite_entries hwrite
  refine ⟨{ stored with sequence := q }, by rw [hent _ rfl, if_pos rfl], h.wire, h.kept, ?_⟩
  intro b hb src hsrc hh hsp seq x hseq hx
  refine .inl ?_
  have hget := commitWrite_get hwrite (k := blockReverseKey x path) (by rintro ⟨⟩) (by rintro ⟨⟩) (by rintro _ ⟨⟩)
  show (db'.get (blockReverseKey x path)).isSome
  rw [hget]
  exact h.batch.isSome_ref (h.refs b hb src hsrc hh hsp seq x hseq hx)

lemma sparing_spec {name : Str} {op : BatchOp} (h : sparing name path db op = true) :
    op.key ≠ fileKey name ∧ op.key ≠ fileKey path ∧ (∀ x, op.key ≠ .mr x (splitName path)) ∧
      ∀ seq, op.key = .bd seq → db.get (.bd seq) = none := by
  unfold sparing at h
  simp only [Bool.and_eq_true, decide_eq_true_eq] at h
  obtain ⟨⟨hn, hp⟩, hrest⟩ := h
  refine ⟨hn, hp, fun x hx => ?_, fun seq hseq => ?_⟩
  · rw [hx] at hrest
    simp at hrest
  · rw [hseq] at hrest
    simpa using hrest

lemma ResolveInv.other {s : Resolving} (h : ResolveInv db₀ old loser path s)
    (hb : ∀ op ∈ batch, sparing loser.name path s.db op = true) :
    ResolveInv db₀ old loser path { s with db := s.db.write batch } := by
  have hspec := fun op hop => sparing_spec (hb op hop)
  have hk : PathKept path s.db (s.db.write batch) := by
    refine ⟨entryAt_write_of_forall_ne fun op hop => (hspec op hop).2.1, fun x hx => ?_⟩
    rwa [Db.get_write_of_forall_ne fun op hop => (hspec op hop).2.2.1 x]
  obtain ⟨fi, hfi, hs, hold⟩ := h.source
  refine ⟨⟨fi, ?_, hs, hold.imp_right (Copied.mono hk)⟩, fun seq v hv => ?_, h.phase.mono hk⟩
  · exact (entryAt_write_of_forall_ne fun op hop => (hspec op hop).1).trans hfi
  · have hget := h.data seq v hv
    show (s.db.write batch).get (.bd seq) = some v
    rw [Db.get_write_of_forall_ne]
    · exact hget
    · intro op hop he
      rw [(hspec op hop).2.2.2 seq he] at hget
      cases hget

lemma ResolveInv.copyWrite (hne : splitName path ≠ splitName loser.name)
    (h : ResolveInv db₀ old loser path ⟨.copyWrite stored batch, db⟩)
    (hwrite : commitWrite db path stored batch = .ok (db', stored'))
    (hp : phase = .winner ∨ phase = .start) : ResolveInv db₀ old loser path ⟨phase, db'⟩ := by
  have hready : CopyReady old loser path db stored batch := h.phase
  have hcopied : Copied old loser path db' := hready.copied hwrite
  have hkey : fileKey loser.name ≠ fileKey path := fun he => hne (Key.mn.inj he).symm
  obtain ⟨fi, hfi, hs, -⟩ := h.source
  obtain ⟨q, -, hent⟩ := commitWrite_entries hwrite
  have hname : entryAt db' (fileKey loser.name) = some fi := by
    rw [hent _ rfl, if_neg hkey, ← hfi]
    exact entryAt_of_get_eq (hready.batch.get_write (by rintro _ ⟨⟩) (by rintro _ ⟨⟩))
  refine ⟨⟨fi, hname, hs, .inr hcopied⟩, fun seq v hv => ?_, ?_⟩
  · show db'.get (.bd seq) = some v
    rw [commitWrite_get hwrite (by rintro ⟨⟩) (by rintro ⟨⟩) (by rintro _ ⟨⟩),
      hready.batch.get_write (by rintro _ ⟨⟩) (by rintro _ ⟨⟩)]
    exact h.data seq v hv
  · rcases hp with rfl | rfl
    · exact hcopied
    · trivial

lemma ResolveInv.winnerWrite (hne : splitName path ≠ splitName loser.name) (hw : winner.name = loser.name)
    (h : ResolveInv db₀ old loser path ⟨.winnerWrite stored batch, db⟩)
    (hwrite : commitWrite db winner.name stored batch = .ok (db', stored'))
    (hp : phase = .finished ∨ phase = .start) : ResolveInv db₀ old loser path ⟨phase, db'⟩ := by
  obtain ⟨hcopied, hs, hdels⟩ := h.phase
  rw [hw] at hwrite
  have hkey : fileKey path ≠ fileKey loser.name := fun he => hne (Key.mn.inj he)
  have hget : ∀ k : Key, k ≠ .mx → k ≠ fileKey loser.name → (∀ q, k ≠ .ms q) → db'.get k = db.get k := by
    intro k hmx hmn hms
    rw [commitWrite_get hwrite hmx hmn hms]
    refine Db.get_write_of_forall_ne fun op hop he => ?_
    obtain ⟨q, rfl⟩ := hdels op hop
    exact hms q he.symm
  have hk : PathKept path db db' := by
    refine ⟨entryAt_of_get_eq (hget _ (by rintro ⟨⟩) hkey (by rintro _ ⟨⟩)), fun x hx => ?_⟩
    rwa [hget _ (by rintro ⟨⟩) (by rintro ⟨⟩) (by rintro _ ⟨⟩)]
  obtain ⟨q, -, hent⟩ := commitWrite_entries hwrite
  refine ⟨⟨{ stored with sequence := q }, by rw [hent _ rfl, if_pos rfl], hs, .inr (hcopied.mono hk)⟩,
    fun seq v hv => ?_, ?_⟩
  · show db'.get (.bd seq) = some v
    rw [hget _ (by rintro ⟨⟩) (by rintro ⟨⟩) (by rintro _ ⟨⟩)]
    exact h.data seq v hv
  · rcases hp with rfl | rfl
    · exact hcopied.mono hk
    · trivial

/-- **Every step of an attempt keeps the copy on its way.** -/
lemma ResolveInv.step (hcons : Consistent old) (hne : splitName path ≠ splitName loser.name)
    (hw : winner.name = loser.name) {s s' : Resolving} (h : ResolveInv db₀ old loser path s)
    (hs : Resolves winner loser path s s') : ResolveInv db₀ old loser path s' := by
  cases hs with
  | again => exact ⟨h.source, h.data, trivial⟩
  | other hb => exact h.other hb
  | @source _ src hsrc =>
    obtain ⟨fi, hfi, hfrom, hold⟩ := h.source
    obtain rfl : src = some fi := (getFileProto_entryAt hsrc).symm.trans hfi
    exact ⟨h.source, h.data, copyRead_of_source hcons hfrom hold⟩
  | copyRead hread =>
    exact ⟨h.source, h.data, CopyRead.ready hcons h.phase hread⟩
  | copyWrite hwrite hp => exact h.copyWrite hne hwrite hp
  | winnerRead hread =>
    obtain ⟨fi, hfi, hfrom, -⟩ := h.source
    obtain ⟨rfl, dels, rfl, hdels⟩ := commitRead_entries hread
    refine ⟨h.source, h.data, h.phase, ?_, fun op hop => hdels op (by simpa using hop)⟩
    rw [hw, hfi]
    exact (sourced_toStored winner).carry hfrom
  | winnerWrite hwrite hp => exact h.winnerWrite hne hw hwrite hp

end Steps

/-! ### The copy at the end -/

section Copy

variable {db₀ db : Db} {old : StoredFile} {winner loser : WireFile} {path : Str} {acts : List ResolveAct}

lemma resolveInv_run (hcons : Consistent old) (hne : splitName path ≠ splitName loser.name)
    (hw : winner.name = loser.name) (hold : entryAt db₀ (fileKey loser.name) = some old) {s : Resolving}
    (hrun : run (resolveStep winner loser path) ⟨.start, db₀⟩ acts = some s) : ResolveInv db₀ old loser path s := by
  have hinit : ResolveInv db₀ old loser path ⟨.start, db₀⟩ :=
    ⟨⟨old, hold, sourced_self, .inl rfl⟩, fun _ _ hv => hv, trivial⟩
  refine run_keeps (fun s a t h hs => ?_) hinit hrun
  exact h.step hcons hne hw (resolveStep_resolves hs)

lemma SamePointer.resolve {b src : StoredBlock} (h : SamePointer b src)
    (hdata : ∀ seq v, db₀.get (.bd seq) = some v → db.get (.bd seq) = some v) {data : Bytes}
    (hres : resolveBlockData db₀ src = .ok (some data)) : resolveBlockData db b = .ok (some data) := by
  unfold resolveBlockData at hres ⊢
  rw [h.1, h.2]
  cases hi : src.inlineData with
  | some => rwa [hi] at hres
  | none =>
    rw [hi] at hres
    cases hq : src.blockseq with
    | none => rwa [hq] at hres
    | some seq =>
      simp only [hq] at hres ⊢
      cases hv : validateBlockSeq seq with
      | error => rwa [hv] at hres
      | ok =>
        simp only [hv] at hres ⊢
        cases hget : db₀.get (.bd seq) with
        | none => simp [hget] at hres
        | some v =>
          rw [hget] at hres
          rwa [hdata seq v hget]

/-- **Conflict copies keep their content.**  Whatever writes fail, before or after their effect, and however
often `resolve_conflict` is called again: when it has succeeded, every block of the copy whose hash had a pointer
in the entry at the name before the first attempt has a pointer, which reads the same data, and if it points to
a row it has its reverse reference. -/
theorem conflict_copy_kept (hw : winner.name = loser.name) (hne : splitName path ≠ splitName loser.name)
    (hold : db₀.get (fileKey loser.name) = some (.file (some old))) (hcons : Consistent old)
    (hrun : run (resolveStep winner loser path) ⟨.start, db₀⟩ acts = some ⟨.finished, db⟩) :
    ∃ copy, db.get (fileKey path) = some (.file (some copy)) ∧ copy.blocks.map StoredBlock.toWire = loser.blocks ∧
      ∀ b ∈ copy.blocks, ∀ src ∈ old.blocks, src.hash = b.hash → src.hasPointer = true → b.hasPointer = true ∧
        (∀ data, resolveBlockData db₀ src = .ok (some data) → resolveBlockData db b = .ok (some data)) ∧
        ∀ (seq : ℕ) (x : Bytes32), b.blockseq = some seq → x.1 = b.hash →
          (db.get (blockReverseKey x path)).isSome := by
  have hinv := resolveInv_run hcons hne hw (entryAt_eq_some.2 hold) hrun
  obtain ⟨copy, hcopy, hwire, hkept, href⟩ : Copied old loser path db := hinv.phase
  refine ⟨copy, entryAt_eq_some.1 hcopy, hwire, fun b hb src hsrc hh hsp => ?_⟩
  have hsame : SamePointer b src := hkept b hb src hsrc hh hsp
  refine ⟨hsame.hasPointer.trans hsp, fun data hres => hsame.resolve hinv.data hres, fun seq x hseq hx => ?_⟩
  rcases href b hb src hsrc hh hsp seq x hseq hx with hsome | hput
  · exact hsome
  · cases hput

/-- Without failures, the steps are those of `resolve_conflict`. -/
theorem run_resolveStep_eq {st st' : Store} (h : resolveConflict st winner loser (some path) = (.ok (), st')) :
    run (resolveStep winner loser path) ⟨.start, st.db⟩ (List.replicate 5 (.next .success)) =
      some ⟨.finished, st'.db⟩ := by
  unfold resolveConflict copyLoser putFileWithCarry at h
  cases hsrc : getFileProto st.db loser.name with
  | error => simp [hsrc, Except.map] at h
  | ok src =>
    cases hcopy : commitWithNewSeq st.db path (carryFromSource { loser with name := path } src).1
        (carryFromSource { loser with name := path } src).2.1 with
    | mk r₁ db₁ =>
      cases r₁ with
      | error => simp [hsrc, hcopy, Except.map] at h
      | ok =>
        cases hwin : commitWithNewSeq db₁ winner.name winner.toStored [] with
        | mk r₂ =>
          cases r₂ with
          | error => simp [hsrc, hcopy, putFile, hwin, Except.map] at h
          | ok =>
            obtain ⟨s₁, b₁, c₁, hread₁, hwrite₁⟩ := commitWithNewSeq_eq_ok hcopy
            obtain ⟨s₂, b₂, c₂, hread₂, hwrite₂⟩ := commitWithNewSeq_eq_ok hwin
            simp only [hsrc, hcopy, putFile, hwin, Except.map, Prod.mk.injEq, true_and] at h
            subst h
            simp only [List.replicate, run, resolveStep, hsrc, hread₁, hwrite₁, hread₂, hwrite₂, endWrite,
              Option.bind_some]

end Copy

def ResolvePhase.isFinished : ResolvePhase → Bool
  | .finished => true
  | _ => false

lemma eq_finished {s : Resolving} (h : s.phase.isFinished = true) : s = ⟨.finished, s.db⟩ := by
  obtain ⟨phase, db⟩ := s
  cases phase <;> simp_all [ResolvePhase.isFinished]

def conflictedFile : StoredFile :=
  ⟨['f'], 4097, none, 1, [⟨List.replicate 32 1, 0, 4096, some 1024, none⟩, ⟨[5], 4096, 1, none, some [7]⟩], 1, false⟩

def conflicted : Db :=
  Db.empty.write
    [.put (fileKey ['f']) (.file (some conflictedFile)), .put (.bd 1024) (.data [9]), .put .mx (.indexMeta ⟨1, none⟩)]

lemma consistent_conflictedFile : Consistent conflictedFile := by
  intro b hb c hc hh
  simp only [conflictedFile, mem_cons, not_mem_nil, or_false] at hb hc
  rcases hb with rfl | rfl <;> rcases hc with rfl | rfl
  · exact ⟨rfl, rfl⟩
  · simp at hh
  · simp at hh
  · exact ⟨rfl, rfl⟩

def inlineVersion : WireFile := ⟨['f'], 1, none, 0, [⟨[5], 0, 1⟩], 0, false⟩

def bothVersion : WireFile := ⟨['f'], 4097, none, 0, [⟨List.replicate 32 1, 0, 4096⟩, ⟨[5], 4096, 1⟩], 0, false⟩

/-- The copy is lost, then written without notice, then written; the winner is written without notice, and
another file is written; the last attempt succeeds. -/
def stubbornRun : List ResolveAct :=
  [.next .success, .next .success, .next .lost,
   .next .success, .next .success, .next .unreported,
   .next .success, .next .success, .next .success, .next .success, .next .unreported,
   .other [.put (fileKey ['g']) (.file none)],
   .next .success, .next .success, .next .success, .next .success, .next .success]

theorem conflict_copy_kept_stubborn :
    ∃ db, run (resolveStep inlineVersion bothVersion ['f', 'c']) ⟨.start, conflicted⟩ stubbornRun = some ⟨.finished, db⟩ ∧
      ∃ copy, db.get (fileKey ['f', 'c']) = some (.file (some copy)) ∧
        copy.blocks.map StoredBlock.toWire = bothVersion.blocks ∧
        ∀ b ∈ copy.blocks, ∀ src ∈ conflictedFile.blocks, src.hash = b.hash → src.hasPointer = true →
          b.hasPointer = true := by
  obtain ⟨s, hrun, hs⟩ : ∃ s, run (resolveStep inlineVersion bothVersion ['f', 'c']) ⟨.start, conflicted⟩ stubbornRun =
      some s ∧ s.phase.isFinished = true := by decide
  rw [eq_finished hs] at hrun
  have hne : splitName ['f', 'c'] ≠ splitName bothVersion.name := by decide
  have hw : inlineVersion.name = bothVersion.name := rfl
  have hold : conflicted.get (fileKey bothVersion.name) = some (.file (some conflictedFile)) := rfl
  obtain ⟨copy, hcopy, hwire, hkept⟩ := conflict_copy_kept hw hne hold consistent_conflictedFile hrun
  exact ⟨s.db, hrun, copy, hcopy, hwire, fun b hb src hsrc hh hsp => (hkept b hb src hsrc hh hsp).1⟩

/-! ### Two names for one entry -/

def storedVersion : WireFile := ⟨['f'], 4096, none, 0, [⟨List.replicate 32 1, 0, 4096⟩], 0, false⟩

/-- **A path that is another spelling of the name.**  The copy takes the place of the entry, and the winner then
finds only the copy's pointers. -/
theorem conflict_copy_overwritten :
    ['/', 'f'] ≠ storedVersion.name ∧ inlineVersion.name = storedVersion.name ∧
    conflicted.get (fileKey storedVersion.name) = some (.file (some conflictedFile)) ∧ Consistent conflictedFile ∧
    ∃ db fi, run (resolveStep inlineVersion storedVersion ['/', 'f']) ⟨.start, conflicted⟩
        (List.replicate 5 (.next .success)) = some ⟨.finished, db⟩ ∧
      db.get (fileKey ['/', 'f']) = some (.file (some fi)) ∧
      ∃ b ∈ fi.blocks, ∃ src ∈ conflictedFile.blocks, src.hash = b.hash ∧ src.hasPointer = true ∧
        b.hasPointer = false := by
  obtain ⟨s, hrun, hfin, hget⟩ : ∃ s, run (resolveStep inlineVersion storedVersion ['/', 'f']) ⟨.start, conflicted⟩
      (List.replicate 5 (.next .success)) = some s ∧ s.phase.isFinished = true ∧ s.db.get (fileKey ['/', 'f']) =
        some (.file (some ⟨['f'], 1, none, 3, [⟨[5], 0, 1, none, none⟩], 1, false⟩)) := by decide
  rw [eq_finished hfin] at hrun
  refine ⟨by decide, rfl, rfl, consistent_conflictedFile, s.db, _, hrun, hget, _, mem_singleton_self _,
    ⟨[5], 4096, 1, none, some [7]⟩, ?_, rfl, rfl, rfl⟩
  simp [conflictedFile]

end Bepository.Storage
