import Bepository.Storage.Effects

/-!
# Commits and block pointers

A `FileInfo` from the wire has no pointers to block data, so every commit takes over those of the entry that
it replaces, block by block and by hash.  `complete_file` does so twice: first on a copy, to see whether the
staged entry is complete, and then in the commit.  The check and the commit agree, and the entry leaves the
inbox in the same batch.
-/

namespace Bepository.Storage

open Lib List

/-- A block of a commit beside the block as it was given: where it had a pointer it is the same; where it had
none and the old entry has one for its hash, it takes one of those; nothing else changes. -/
structure BlockCarried (old : Option StoredFile) (b c : StoredBlock) : Prop where
  data : c.hash = b.hash ∧ c.offset = b.offset ∧ c.size = b.size
  kept : b.hasPointer = true → c = b
  carried : ∀ fi, old = some fi → ∀ src ∈ fi.blocks, src.hash = b.hash → src.hasPointer = true →
    c.hasPointer = true
  origin : c = b ∨ ∃ fi, old = some fi ∧ ∃ src ∈ fi.blocks, src.hash = b.hash ∧
    c.blockseq = src.blockseq ∧ c.inlineData = src.inlineData

/-- The entry `committed` is `stored` with a sequence number and the pointers of `old`. -/
structure PointersCarried (stored : StoredFile) (old : Option StoredFile) (committed : StoredFile) : Prop where
  fields : committed = { stored with sequence := committed.sequence, blocks := committed.blocks }
  blocks : List.Forall₂ (BlockCarried old) stored.blocks committed.blocks

section Carry

variable {db db' : Db} {name : Str} {stored : StoredFile} {batch : WriteBatch} {old : Option StoredFile}

lemma blockCarried_carryBlock (fi : StoredFile) (b : StoredBlock) : BlockCarried (some fi) b (carryBlock fi b) := by
  have hcases := carryBlock_cases fi b
  generalize carryBlock fi b = c at hcases
  cases hcases with
  | kept hp =>
    refine ⟨⟨rfl, rfl, rfl⟩, fun _ => rfl, ?_, .inl rfl⟩
    intro _ _ _ _ _ _
    exact hp
  | missed hp hn =>
    refine ⟨⟨rfl, rfl, rfl⟩, fun _ => rfl, ?_, .inl rfl⟩
    intro fi' hfi src hsrc hh hsp
    obtain rfl := Option.some.inj hfi
    rw [hn src hsrc hh] at hsp
    cases hsp
  | taken src hp hsrc hh hsp =>
    refine ⟨⟨rfl, rfl, rfl⟩, ?_, ?_, .inr ⟨fi, rfl, src, hsrc, hh, rfl, rfl⟩⟩
    · intro hpos
      rw [hp] at hpos
      cases hpos
    · intro _ _ _ _ _ _
      exact hsp

lemma blockCarried_none (b : StoredBlock) : BlockCarried none b b := by
  refine ⟨⟨rfl, rfl, rfl⟩, fun _ => rfl, ?_, .inl rfl⟩
  intro fi hfi
  cases hfi

lemma pointersCarried_withPointers (stored : StoredFile) (old : Option StoredFile) (q : ℤ) :
    PointersCarried stored old { withPointers stored old with sequence := q } := by
  cases old with
  | none => exact ⟨rfl, forall₂_same.2 fun b _ => blockCarried_none b⟩
  | some fi =>
    refine ⟨rfl, ?_⟩
    show List.Forall₂ _ stored.blocks (stored.blocks.map (carryBlock fi))
    rw [forall₂_map_right_iff]
    exact forall₂_same.2 fun b _ => blockCarried_carryBlock fi b

lemma commitWithNewSeq_writes {r : Except StorageError (ℤ × WireFile)}
    (h : commitWithNewSeq db name stored batch = (r, db')) :
    (db' = db ∧ ∃ e, r = .error e) ∨ ∃ committed ops,
      committed = { withPointers stored (entryAt db (fileKey name)) with sequence := committed.sequence } ∧
      r = committed.toWire.map (fun w => (committed.sequence, w)) ∧ db' = db.write (batch ++ ops) ∧
      .put (fileKey name) (.file (some committed)) ∈ ops ∧
      db'.get (fileKey name) = some (.file (some committed)) ∧
      ∀ op ∈ ops, op.key.holdsFile = true → op.key = fileKey name := by
  rcases commitWithNewSeq_cases h with hrefused | ⟨stored₁, batch₁, committed, hread, hwrite, rfl⟩
  · exact .inl hrefused
  · obtain ⟨rfl, dels, rfl, hdels⟩ := commitRead_entries hread
    obtain ⟨q, hq, hent⟩ := commitWrite_entries hwrite
    have hat : entryAt db' (fileKey name) = some committed := by rw [hent _ rfl, if_pos rfl, hq]
    obtain ⟨m, -, -, -, rfl⟩ := commitWrite_eq_ok hwrite
    subst hq
    refine .inr ⟨_, _, rfl, rfl, by rw [append_assoc], ?_, entryAt_eq_some.1 hat, ?_⟩
    · simp
    · intro op hop hk
      simp only [mem_append, mem_cons, not_mem_nil, or_false] at hop
      rcases hop with hop | rfl | rfl | rfl
      · obtain ⟨q, rfl⟩ := hdels op hop
        cases hk
      · cases hk
      · rfl
      · cases hk

/-- What `complete_file` leaves when it commits: the entry, complete, in one write with its removal from the
inbox. -/
structure Completed (db db' : Db) (e : Epoch) (name : Str) (staged committed : StoredFile) : Prop where
  carried : PointersCarried staged (entryAt db (fileKey name)) committed
  pointed : ∀ b ∈ committed.blocks, b.hasPointer = true
  write : ∃ batch, db' = db.write batch ∧ .delete (inboxKey e name) ∈ batch ∧
    .put (fileKey name) (.file (some committed)) ∈ batch
  entry : db'.get (fileKey name) = some (.file (some committed))
  unstaged : db'.get (inboxKey e name) = none

lemma completeFile_cases {e : Epoch} {expected : Option VersionVector}
    {r : Except StorageError (Option WireFile)} (h : completeFile db e name expected = (r, db')) :
    (db' = db ∧ ∀ w, r ≠ .ok (some w)) ∨ ∃ staged committed,
      db.get (inboxKey e name) = some (.file (some staged)) ∧ staged.version = expected ∧
      r = committed.toWire.map some ∧ Completed db db' e name staged committed := by
  rcases completeFile_checked h with hback | ⟨staged, old, r₁, hs, hv, hold, hc, hcommit, rfl⟩
  · exact .inl hback
  · rcases commitWithNewSeq_writes hcommit with ⟨hdb, err, rfl⟩ | hwritten
    · exact .inl ⟨hdb, fun w hw => by cases hw⟩
    · obtain ⟨committed, ops, hcom, rfl, rfl, hput, hget, hops⟩ := hwritten
      refine .inr ⟨staged, committed, readStaged_eq_some hs, hv, ?_, ?_, ?_, ?_, hget, ?_⟩
      · cases committed.toWire <;> rfl
      · rw [hcom]
        exact pointersCarried_withPointers staged _ _
      · -- the copy that was checked is the entry that is committed
        rw [← getFileProto_entryAt hold] at hc
        rw [hcom]
        exact all_eq_true.1 hc
      · exact ⟨_, rfl, by simp, by simp [hput]⟩
      · have hne : ∀ op ∈ ops, op.key ≠ inboxKey e name := by
          intro op hop he
          have hk := hops op hop (by rw [he]; rfl)
          rw [he] at hk
          exact fileKey_ne_inboxKey hk.symm
        rw [Db.get_write_append hne, Db.get_write]
        simp [lastOp, BatchOp.key]

end Carry

/-- **Commits preserve block pointers.**  After a successful commit the entry at the name has every field of
the new one but its sequence number, the pointers it came with, and one more for each block whose hash had one
in the old entry.  `complete_file` commits only an entry in which then every block has a pointer, and takes
it out of the inbox in the same write.  When it returns `None` nothing is written, and an error after a write
can only be that the entry, now committed, has a type that the wire does not know. -/
theorem commits_preserve_pointers :
    (∀ db db' name stored batch seq w, commitWithNewSeq db name stored batch = (.ok (seq, w), db') →
      ∃ committed, db'.get (fileKey name) = some (.file (some committed)) ∧ committed.sequence = seq ∧
        PointersCarried stored (entryAt db (fileKey name)) committed) ∧
    (∀ db db' (file : WireFile) seq, putFile db file = (.ok seq, db') →
      ∃ committed, db'.get (fileKey file.name) = some (.file (some committed)) ∧ committed.sequence = seq ∧
        PointersCarried file.toStored (entryAt db (fileKey file.name)) committed) ∧
    (∀ db db' e name expected w, completeFile db e name expected = (.ok (some w), db') →
      ∃ staged committed, db.get (inboxKey e name) = some (.file (some staged)) ∧ staged.version = expected ∧
        committed.toWire = .ok w ∧ Completed db db' e name staged committed) ∧
    (∀ db db' e name expected, completeFile db e name expected = (.ok none, db') → db' = db) ∧
    (∀ db db' e name expected err, completeFile db e name expected = (.error err, db') → db' = db ∨
      ∃ committed, db'.get (fileKey name) = some (.file (some committed)) ∧ committed.toWire = .error err) := by
  have hcommit : ∀ db db' name stored batch seq w, commitWithNewSeq db name stored batch = (.ok (seq, w), db') →
      ∃ committed, db'.get (fileKey name) = some (.file (some committed)) ∧ committed.sequence = seq ∧
        PointersCarried stored (entryAt db (fileKey name)) committed := by
    intro db db' name stored batch seq w h
    rcases commitWithNewSeq_writes h with ⟨-, e, he⟩ | ⟨committed, ops, hcom, hr, -, -, hget, -⟩
    · cases he
    · obtain ⟨w', -, hw⟩ := map_eq_ok.1 hr.symm
      refine ⟨committed, hget, congrArg Prod.fst hw, ?_⟩
      rw [hcom]
      exact pointersCarried_withPointers stored _ _
  refine ⟨hcommit, ?_, ?_, ?_, ?_⟩
  · intro db db' file seq h
    cases hc : commitWithNewSeq db file.name file.toStored [] with
    | mk r db₁ =>
      simp only [putFile, hc, Prod.mk.injEq] at h
      obtain ⟨hr, rfl⟩ := h
      obtain ⟨⟨seq', w⟩, rfl, rfl⟩ := map_eq_ok.1 hr
      exact hcommit db db₁ file.name file.toStored [] seq' w hc
  · intro db db' e name expected w h
    rcases completeFile_cases h with ⟨-, hnone⟩ | ⟨staged, committed, hst, hv, hr, hdone⟩
    · exact absurd rfl (hnone w)
    · obtain ⟨w', hw', he⟩ := map_eq_ok.1 hr.symm
      obtain rfl := Option.some.inj he
      exact ⟨staged, committed, hst, hv, hw', hdone⟩
  · intro db db' e name expected h
    rcases completeFile_cases h with ⟨hdb, -⟩ | ⟨staged, committed, -, -, hr, -⟩
    · exact hdb
    · obtain ⟨w, -, hw⟩ := map_eq_ok.1 hr.symm
      cases hw
  · intro db db' e name expected err h
    rcases completeFile_cases h with ⟨hdb, -⟩ | ⟨staged, committed, -, -, hr, hdone⟩
    · exact .inl hdb
    · refine .inr ⟨committed, hdone.entry, ?_⟩
      cases hw : committed.toWire with
      | error =>
        rw [hw] at hr
        cases hr
        rfl
      | ok =>
        rw [hw] at hr
        cases hr

/-- A committed file of one inline block, and staged for the same name a file that has the block twice. -/
def twiceStaged : Db :=
  Db.empty.write
    [.put (fileKey ['f']) (.file (some ⟨['f'], 1, none, 1, [⟨[5], 0, 1, none, some [7]⟩], 1, false⟩)),
     .put (inboxKey firstEpoch ['f']) (.file (some ⟨['f'], 2, none, 0,
       [⟨[5], 0, 1, none, none⟩, ⟨[5], 1, 1, none, none⟩], 1, false⟩)),
     .put .mx (.indexMeta ⟨1, none⟩)]

theorem commits_preserve_pointers_twiceStaged :
    ∃ w db', completeFile twiceStaged firstEpoch ['f'] none = (.ok (some w), db') ∧
      ∃ staged committed, Completed twiceStaged db' firstEpoch ['f'] staged committed := by
  have hok : (completeFile twiceStaged firstEpoch ['f'] none).1 =
      .ok (some ⟨['f'], 2, none, 2, [⟨[5], 0, 1⟩, ⟨[5], 1, 1⟩], 0, false⟩) := by rfl
  have hcall : completeFile twiceStaged firstEpoch ['f'] none =
      (.ok (some _), (completeFile twiceStaged firstEpoch ['f'] none).2) := Prod.ext hok rfl
  obtain ⟨staged, committed, -, -, -, hdone⟩ := commits_preserve_pointers.2.2.1 _ _ _ _ _ _ hcall
  exact ⟨_, _, hcall, staged, committed, hdone⟩

end Bepository.Storage
