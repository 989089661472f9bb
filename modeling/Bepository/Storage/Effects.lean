import Bepository.Storage.Store

/-!
# What the calls do to the entries

`entryAt` reads a committed or staged entry.  For each call of `FolderStore` one lemma says what every
entry is afterwards: a commit replaces one entry, a block that is provided changes the pointers of one
entry, and nothing else changes.
-/

namespace Bepository.Storage

open Lib List

def entryAt (db : Db) (k : Key) : Option StoredFile :=
  match db.get k with
  | some (.file info) => info
  | _ => none

def Key.holdsFile : Key → Bool
  | .mn _ => true
  | .mi .. => true
  | _ => false

def withPointers (stored : StoredFile) (old : Option StoredFile) : StoredFile :=
  old.elim stored (carryBlockPointers stored)

def Db.committed (db : Db) : List (Path × StoredFile) :=
  db.rows.toList.filterMap fun r =>
    match r.1, r.2.val with
    | .mn path, .file (some fi) => some (path, fi)
    | _, _ => none

section Entries

variable {db db' : Db} {k : Key} {name name' : Str} {fi stored : StoredFile} {batch : WriteBatch}

lemma entryAt_eq_some : entryAt db k = some fi ↔ db.get k = some (.file (some fi)) := by
  unfold entryAt
  split
  · next info h =>
    rw [h]
    constructor
    · rintro rfl
      rfl
    · intro he
      cases he
      rfl
  · next h =>
    constructor
    · rintro ⟨⟩
    · intro he
      exact (h _ he).elim

lemma entryAt_of_get_eq (h : db'.get k = db.get k) : entryAt db' k = entryAt db k := by
  unfold entryAt
  rw [h]

lemma entryAt_write_of_forall_ne (h : ∀ op ∈ batch, op.key ≠ k) : entryAt (db.write batch) k = entryAt db k :=
  entryAt_of_get_eq (Db.get_write_of_forall_ne h)

lemma entryAt_write_single {op : BatchOp} (h : op.key ≠ k) : entryAt (db.write [op]) k = entryAt db k :=
  entryAt_of_get_eq (Db.get_write_single h)

lemma holdsFile_ne {op : BatchOp} (h : op.key.holdsFile = false) (hk : k.holdsFile = true) : op.key ≠ k := by
  rintro rfl
  rw [h] at hk
  cases hk

variable {e : Epoch} {old : Option StoredFile} {gone : Key → Prop} {file : WireFile} {carryFrom : Str}
  {st st' : Store} {expected : Option VersionVector} {hash : Bytes}

lemma fileKey_ne_inboxKey : fileKey name ≠ inboxKey e name' := (by rintro ⟨⟩)

lemma inboxKey_inj : inboxKey e name = inboxKey e name' ↔ splitName name = splitName name' := by
  simp [inboxKey]

lemma getFileProto_entryAt (h : getFileProto db name = .ok old) : entryAt db (fileKey name) = old := by
  cases old with
  | none =>
    unfold entryAt
    rw [getFileProto_eq_none h]
  | some => exact entryAt_eq_some.2 (getFileProto_eq_some h)

lemma readStaged_entryAt (h : readStaged db e name = .ok old) : entryAt db (inboxKey e name) = old := by
  cases old with
  | some => exact entryAt_eq_some.2 (readStaged_eq_some h)
  | none =>
    unfold readStaged at h
    split at h
    · next hn =>
      unfold entryAt
      rw [hn]
    · next v hv =>
      split at h <;> cases h

lemma mem_committed {path : Path} : (path, fi) ∈ db.committed ↔ db.get (.mn path) = some (.file (some fi)) := by
  unfold Db.committed
  rw [mem_filterMap]
  constructor
  · rintro ⟨⟨k, r⟩, hr, he⟩
    rw [Table.mem_toList] at hr
    refine Db.get_eq_some.2 ⟨r, ?_, ?_⟩ <;> simp only at he <;> split at he <;> cases he
    · next hk hv => exact hr
    · next hk hv => exact hv
  · intro h
    obtain ⟨r, hr, hv⟩ := Db.get_eq_some.1 h
    refine ⟨(.mn path, r), Table.mem_toList.2 hr, ?_⟩
    simp only [hv]

/-! ### Commits -/

@[simp] lemma version_withPointers : (withPointers stored old).version = stored.version := by
  cases old <;> rfl

@[simp] lemma deleted_withPointers : (withPointers stored old).deleted = stored.deleted := by
  cases old <;> rfl

lemma toWire_carryBlock (old : StoredFile) (b : StoredBlock) : (carryBlock old b).toWire = b.toWire := by
  have hcases := carryBlock_cases old b
  generalize carryBlock old b = c at hcases ⊢
  cases hcases <;> rfl

lemma blocks_toWire_carry {old : StoredFile} : (carryBlockPointers stored old).blocks.map StoredBlock.toWire =
    stored.blocks.map StoredBlock.toWire := by
  show (stored.blocks.map (carryBlock old)).map StoredBlock.toWire = _
  rw [map_map]
  exact map_congr_left fun b _ => toWire_carryBlock old b

lemma blocks_toWire_withPointers :
    (withPointers stored old).blocks.map StoredBlock.toWire = stored.blocks.map StoredBlock.toWire := by
  cases old with
  | none => rfl
  | some => exact blocks_toWire_carry

lemma blocks_toWire_toStored (file : WireFile) : file.toStored.blocks.map StoredBlock.toWire = file.blocks := by
  show (file.blocks.map _).map _ = _
  rw [map_map]
  exact map_id' _

lemma typed_withPointers (h : stored.Typed) : (withPointers stored old).Typed := by
  cases old <;> exact h

lemma commitRead_entries {stored' : StoredFile} {batch' : WriteBatch}
    (h : commitRead db name stored batch = .ok (stored', batch')) :
    stored' = withPointers stored (entryAt db (fileKey name)) ∧
      ∃ dels : WriteBatch, batch' = batch ++ dels ∧ ∀ op ∈ dels, ∃ q, op = .delete (.ms q) := by
  rcases commitRead_eq_ok h with ⟨hn, rfl, rfl⟩ | ⟨old, hold, rfl, rfl⟩
  · refine ⟨?_, [], by simp, by simp⟩
    rw [getFileProto_entryAt hn]
    rfl
  · refine ⟨?_, _, rfl, fun op hop => ?_⟩
    · rw [getFileProto_entryAt hold]
      rfl
    · split_ifs at hop
      · exact ⟨_, mem_singleton.1 hop⟩
      · cases hop

lemma commitWrite_entries {stored' : StoredFile} (h : commitWrite db name stored batch = .ok (db', stored')) :
    ∃ q, stored' = { stored with sequence := q } ∧ ∀ k, k.holdsFile = true → entryAt db' k =
      if k = fileKey name then some { stored with sequence := q } else entryAt (db.write batch) k := by
  obtain ⟨m, -, -, rfl, rfl⟩ := commitWrite_eq_ok h
  refine ⟨succI64 m.maxSequence, rfl, fun k hk => ?_⟩
  have hmx : Key.mx ≠ k := by rintro rfl; cases hk
  have hms : Key.ms (succI64 m.maxSequence).toNat ≠ k := by rintro rfl; cases hk
  split_ifs with hkey
  · subst hkey
    rw [entryAt_eq_some, append_cons]
    refine Db.get_write_append_put fun op hop => ?_
    rw [mem_singleton.1 hop]
    exact hms
  · refine entryAt_of_get_eq (Db.get_write_append fun op hop => ?_)
    simp only [mem_cons, not_mem_nil, or_false] at hop
    rcases hop with rfl | rfl | rfl
    · exact hmx
    · exact fun he => hkey he.symm
    · exact hms

lemma entryAt_write_dels {dels : WriteBatch} (hdels : ∀ op ∈ dels, ∃ q, op = .delete (.ms q))
    (hk : k.holdsFile = true) : entryAt (db.write (batch ++ dels)) k = entryAt (db.write batch) k := by
  refine entryAt_of_get_eq (Db.get_write_append fun op hop => ?_)
  obtain ⟨q, rfl⟩ := hdels op hop
  exact holdsFile_ne rfl hk

variable {r : Except StorageError (ℤ × WireFile)} {seq : ℤ} {entry : StoredFile × Key} {link : Link}

/-- **A commit** that is not refused leaves the batch's work and the entry, with the pointers of the
entry that it replaces. -/
theorem commitWithNewSeq_entries (h : commitWithNewSeq db name stored batch = (r, db')) :
    (db' = db ∧ ∃ e, r = .error e) ∨ (stored.Typed → ∃ x, r = .ok x) ∧
    ∃ q, ∀ k, k.holdsFile = true → entryAt db' k = if k = fileKey name then
        some { withPointers stored (entryAt db (fileKey name)) with sequence := q }
      else entryAt (db.write batch) k := by
  rcases commitWithNewSeq_cases h with hrefused | ⟨stored₁, batch₁, stored₂, hread, hwrite, rfl⟩
  · exact .inl hrefused
  · obtain ⟨hst, dels, rfl, hdels⟩ := commitRead_entries hread
    obtain ⟨q, rfl, hent⟩ := commitWrite_entries hwrite
    refine .inr ⟨fun htyped => ?_, q, fun k hk => ?_⟩
    · -- the entry that was written can be read back
      have ht : FileInfo.Typed { stored₁ with sequence := q } := by
        rw [hst]
        exact typed_withPointers htyped
      obtain ⟨w, hw, -⟩ := ht.exists_toWire
      exact ⟨_, by rw [hw]; rfl⟩
    · rw [hent k hk, hst, entryAt_write_dels hdels hk]

def Replaced (db db' : Db) (name : Str) (stored : StoredFile) (gone : Key → Prop) : Prop :=
  ∃ q, ∀ k, k.holdsFile = true → (k = fileKey name → entryAt db' k =
      some { withPointers stored (entryAt db (fileKey name)) with sequence := q }) ∧
    (k ≠ fileKey name → gone k → entryAt db' k = none) ∧
    (k ≠ fileKey name → ¬ gone k → entryAt db' k = entryAt db k)

section

variable (h : Replaced db db' name stored gone)
include h

lemma Replaced.staged {path : Path} (hfi : entryAt db' (.mi e path) = some fi) :
    entryAt db (.mi e path) = some fi := by
  obtain ⟨q, hq⟩ := h
  obtain ⟨-, hgone, hother⟩ := hq (.mi e path) rfl
  by_cases hg : gone (.mi e path)
  · rw [hgone (by rintro ⟨⟩) hg] at hfi
    cases hfi
  · rwa [hother (by rintro ⟨⟩) hg] at hfi

lemma Replaced.unstaged {path : Str} (hg : gone (inboxKey e path)) : entryAt db' (inboxKey e path) = none := by
  obtain ⟨q, hq⟩ := h
  exact (hq _ rfl).2.1 (by rintro ⟨⟩) hg

lemma Replaced.elsewhere {k : Key} (hk : k.holdsFile = true) (hne : k ≠ fileKey name) (hgone : ¬ gone k) :
    entryAt db' k = entryAt db k := by
  obtain ⟨q, hq⟩ := h
  exact (hq k hk).2.2 hne hgone

end

lemma commitWithNewSeq_replaced (gone : Key → Prop) (h : commitWithNewSeq db name stored batch = (r, db'))
    (hgone : ∀ k, k.holdsFile = true → gone k → entryAt (db.write batch) k = none)
    (hkept : ∀ k, k.holdsFile = true → ¬ gone k → entryAt (db.write batch) k = entryAt db k) :
    (db' = db ∧ ∃ e, r = .error e) ∨ (stored.Typed → ∃ x, r = .ok x) ∧ Replaced db db' name stored gone := by
  rcases commitWithNewSeq_entries h with herr | ⟨hok, q, hq⟩
  · exact .inl herr
  · refine .inr ⟨hok, q, fun k hk => ⟨fun he => ?_, fun hne hg => ?_, fun hne hg => ?_⟩⟩
    · rw [hq k hk, if_pos he]
    · rw [hq k hk, if_neg hne, hgone k hk hg]
    · rw [hq k hk, if_neg hne, hkept k hk hg]

/-- `put_file`: one committed entry is replaced. -/
theorem putFile_entries {r : Except StorageError ℤ} (h : putFile db file = (r, db')) :
    (db' = db ∧ ∃ e, r = .error e) ∨
      (∃ seq, r = .ok seq) ∧ Replaced db db' file.name file.toStored fun _ => False := by
  cases hc : commitWithNewSeq db file.name file.toStored [] with
  | mk =>
    simp only [putFile, hc] at h
    cases h
    rcases commitWithNewSeq_replaced (fun _ => False) hc (fun _ _ => False.elim)
      (fun k _ _ => entryAt_write_of_forall_ne (by simp)) with ⟨hdb, e, rfl⟩ | ⟨hok, hrep⟩
    · exact .inl ⟨hdb, e, rfl⟩
    · obtain ⟨x, rfl⟩ := hok (FileInfo.typed_toStored file)
      exact .inr ⟨⟨x.1, rfl⟩, hrep⟩

lemma putFile_ok (h : putFile db file = (.ok seq, db')) :
    Replaced db db' file.name file.toStored fun _ => False := by
  rcases putFile_entries h with ⟨-, e, he⟩ | ⟨-, hrep⟩
  · cases he
  · exact hrep

lemma putFile_error {e : StorageError} (h : putFile db file = (.error e, db')) : db' = db := by
  rcases putFile_entries h with ⟨hdb, -⟩ | ⟨⟨seq, hs⟩, -⟩
  · exact hdb
  · cases hs

/-- `put_file_with_carry`: the copy starts with the pointers of the entry at `carryFrom`. -/
theorem putFileWithCarry_entries {r : Except StorageError ℤ} (h : putFileWithCarry st file carryFrom = (r, st')) :
    (st'.db = st.db ∧ ∃ e, r = .error e) ∨ (∃ seq, r = .ok seq) ∧ Replaced st.db st'.db file.name
        (withPointers file.toStored (entryAt st.db (fileKey carryFrom))) fun _ => False := by
  unfold putFileWithCarry at h
  split at h
  · next e he =>
    cases h
    exact .inl ⟨rfl, e, rfl⟩
  · next src hsrc =>
    have hfile : (carryFromSource file src).1 = withPointers file.toStored (entryAt st.db (fileKey carryFrom)) := by
      rw [getFileProto_entryAt hsrc]
      cases src <;> rfl
    have hkept : ∀ k, k.holdsFile = true →
        entryAt (st.db.write (carryFromSource file src).2.1) k = entryAt st.db k := by
      intro k hk
      refine entryAt_write_of_forall_ne fun op hop => ?_
      cases src with
      | none => cases hop
      | some =>
        obtain ⟨c, -, rfl⟩ := mem_map.1 hop
        exact holdsFile_ne rfl hk
    have htyped : (carryFromSource file src).1.Typed := by
      rw [hfile]
      exact typed_withPointers (FileInfo.typed_toStored file)
    rw [← hfile]
    cases hc : commitWithNewSeq st.db file.name (carryFromSource file src).1 (carryFromSource file src).2.1 with
    | mk =>
      have hrep := commitWithNewSeq_replaced (fun _ => False) hc (fun _ _ => False.elim) fun k hk _ => hkept k hk
      simp only [hc] at h
      split at h
      · next e db₂ he =>
        cases he
        cases h
        rcases hrep with ⟨hdb, -⟩ | ⟨hok, -⟩
        · exact .inl ⟨hdb, e, rfl⟩
        · obtain ⟨x, hx⟩ := hok htyped
          cases hx
      · next seq _ _ he =>
        cases he
        cases h
        rcases hrep with ⟨-, e, he⟩ | ⟨-, hrep⟩
        · cases he
        · exact .inr ⟨⟨seq, rfl⟩, hrep⟩

lemma putFileWithCarry_ok (h : putFileWithCarry st file carryFrom = (.ok seq, st')) : Replaced st.db st'.db file.name
      (withPointers file.toStored (entryAt st.db (fileKey carryFrom))) fun _ => False := by
  rcases putFileWithCarry_entries h with ⟨-, e, he⟩ | ⟨-, hrep⟩
  · cases he
  · exact hrep

lemma putFileWithCarry_error {e : StorageError}
    (h : putFileWithCarry st file carryFrom = (.error e, st')) : st'.db = st.db := by
  rcases putFileWithCarry_entries h with ⟨hdb, -⟩ | ⟨⟨seq, hs⟩, -⟩
  · exact hdb
  · cases hs

lemma stageFile_entries : entryAt (stageFile db e file) k =
      if k = inboxKey e file.name then some file.toStored else entryAt db k := by
  unfold stageFile
  split_ifs with hk
  · subst hk
    rw [entryAt_eq_some, Db.get_write]
    simp [lastOp, BatchOp.key]
  · exact entryAt_write_single (fun he => hk he.symm)

/-- `complete_file`: nothing changes, or the staged entry of the expected version, complete with the
pointers of the committed entry, takes its place. -/
theorem completeFile_entries {r : Except StorageError (Option WireFile)}
    (h : completeFile db e name expected = (r, db')) :
    db' = db ∨ ∃ staged, entryAt db (inboxKey e name) = some staged ∧ staged.version = expected ∧
      completable staged (entryAt db (fileKey name)) = true ∧
      Replaced db db' name staged fun k => k = inboxKey e name := by
  rcases completeFile_checked h with ⟨rfl, -⟩ | ⟨staged, old, r₁, hs, hv, hold, hc, hcommit, -⟩
  · exact .inl rfl
  · have hgone : ∀ k, k.holdsFile = true → k = inboxKey e name →
        entryAt (db.write [.delete (inboxKey e name)]) k = none := by
      rintro _ - rfl
      unfold entryAt
      rw [Db.get_write]
      simp [lastOp, BatchOp.key]
    have hkept : ∀ k, k.holdsFile = true → k ≠ inboxKey e name →
        entryAt (db.write [.delete (inboxKey e name)]) k = entryAt db k := by
      intro k _ hne
      exact entryAt_write_single hne.symm
    rcases commitWithNewSeq_replaced _ hcommit hgone hkept with ⟨rfl, -⟩ | ⟨-, hrep⟩
    · exact .inl rfl
    · refine .inr ⟨staged, readStaged_entryAt hs, hv, ?_, hrep⟩
      rwa [getFileProto_entryAt hold]

lemma completeFile_unstages {r : Option WireFile} {staged : StoredFile}
    (h : completeFile db e name expected = (.ok r, db')) (hst : entryAt db (inboxKey e name) = some staged)
    (hv : staged.version = expected) : entryAt db' (inboxKey e name) = none := by
  have hread : readStaged db e name = .ok (some staged) := by
    simp only [readStaged, entryAt_eq_some.1 hst, Value.decodeFile]
  simp only [completeFile, hread, hv, ne_eq, not_true_eq_false, if_false] at h
  split at h
  · cases h
  · split_ifs at h
    · cases hcommit : commitWithNewSeq db name staged [.delete (inboxKey e name)] with
      | mk =>
        simp only [hcommit, Prod.mk.injEq] at h
        obtain ⟨hr, rfl⟩ := h
        rcases commitWithNewSeq_entries hcommit with ⟨-, err, rfl⟩ | ⟨-, q, hq⟩
        · cases hr
        · rw [hq _ rfl, if_neg fileKey_ne_inboxKey.symm, entryAt, Db.get_write]
          simp [lastOp, BatchOp.key]
    · cases h

/-! ### The error of `complete_file` -/

lemma seqKey_ne_incompleteError : seqKey seq ≠ .error (incompleteError name) := by
  unfold seqKey incompleteError
  split_ifs
  · intro h
    simp only [Except.error.injEq, StorageError.internal.injEq] at h
    have := congrArg String.toList h
    simp [toString, String.toList_append] at this
  · rintro ⟨⟩

lemma getFileProto_ne_incompleteError : getFileProto db name ≠ .error (incompleteError name') := by
  unfold getFileProto
  split
  · rintro ⟨⟩
  · split <;> rintro ⟨⟩

lemma commitWithNewSeq_ne_incompleteError :
    (commitWithNewSeq db name stored batch).1 ≠ .error (incompleteError name') := by
  have hread : commitRead db name stored batch ≠ .error (incompleteError name') := by
    unfold commitRead
    split
    · next e he =>
      rintro ⟨⟩
      exact getFileProto_ne_incompleteError he
    · rintro ⟨⟩
    · split_ifs
      · intro h
        exact seqKey_ne_incompleteError (map_eq_error.1 h)
      · rintro ⟨⟩
  have hwrite : ∀ st b, commitWrite db name st b ≠ .error (incompleteError name') := by
    intro st b
    unfold commitWrite getIndexMeta
    split
    · next e he =>
      rintro ⟨⟩
      split at he <;> cases he
    · intro h
      exact seqKey_ne_incompleteError (map_eq_error.1 h)
  unfold commitWithNewSeq
  split
  · next e he =>
    rintro ⟨⟩
    exact hread he
  · split
    · next e he =>
      rintro ⟨⟩
      exact hwrite _ _ he
    · intro h
      have := map_eq_error.1 (map_eq_error.1 h)
      unfold storageTypeToBep at this
      split_ifs at this <;> cases this

/-- `complete_file` fails for want of a block only if a block of the expected version is wanting. -/
theorem completeFile_incomplete (h : (completeFile db e name expected).1 = .error (incompleteError name)) :
    ∃ staged, entryAt db (inboxKey e name) = some staged ∧ staged.version = expected ∧
      completable staged (entryAt db (fileKey name)) = false := by
  unfold completeFile at h
  split at h
  · next err herr =>
    cases h
    unfold readStaged at herr
    split at herr
    · cases herr
    · split at herr <;> cases herr
  · cases h
  · next staged hs =>
    split_ifs at h with hv
    split at h
    · next err herr =>
      cases h
      exact absurd herr getFileProto_ne_incompleteError
    · next old hold =>
      split_ifs at h with hc
      · exact absurd (map_eq_error.1 h) commitWithNewSeq_ne_incompleteError
      · refine ⟨staged, readStaged_entryAt hs, not_not.1 hv, ?_⟩
        rw [getFileProto_entryAt hold]
        exact Bool.eq_false_iff.2 hc

/-! ### Blocks -/

def SameEntries (db db' : Db) : Prop := ∀ k, k.holdsFile = true → entryAt db' k = entryAt db k

lemma SameEntries.refl : SameEntries db db := fun _ _ => rfl

lemma SameEntries.staged (h : SameEntries db db')
    (hs : entryAt db' (inboxKey e name) = some fi) : entryAt db (inboxKey e name) = some fi := by
  rwa [← h _ rfl]

/-- The entry at `k₀` has its pointers for a block set, and no other entry changes. -/
structure Provided (db db' : Db) (e : Epoch) (name : Str) (hash : Bytes) (k₀ : Key)
    (fi fi' : StoredFile) : Prop where
  key : k₀ = inboxKey e name ∨ k₀ = fileKey name ∧ entryAt db (inboxKey e name) = none
  entry : entryAt db k₀ = some fi
  block : ∃ b ∈ fi.blocks, b.hash = hash
  pointed : ∃ seq data, (seq.isSome || data.isSome) = true ∧ fi' = pointBlocks hash seq data fi
  entries : ∀ k, k.holdsFile = true → entryAt db' k = if k = k₀ then some fi' else entryAt db k

def Lacks (fi : StoredFile) (hash : Bytes) : Prop := ∃ b ∈ fi.blocks, b.hasPointer = false ∧ b.hash = hash

lemma lacks_withPointers (h : Lacks (withPointers stored old) hash) :
    Lacks stored hash ∧ ∀ fi, old = some fi → ∀ b ∈ fi.blocks, b.hash = hash → b.hasPointer = false := by
  cases old with
  | none => exact ⟨h, (by simp)⟩
  | some =>
    obtain ⟨b, hb, hnone, rfl⟩ := h
    obtain ⟨b₀, hb₀, hcase⟩ := exists_carried hb
    cases hcase with
    | kept hp =>
      rw [hp] at hnone
      cases hnone
    | missed hp hn =>
      refine ⟨⟨b, hb₀, hp, rfl⟩, ?_⟩
      rintro _ ⟨⟩
      exact hn
    | taken src _ _ _ hsp =>
      -- the source of a pointer has one
      rw [show src.hasPointer = false from hnone] at hsp
      cases hsp

lemma Replaced.version (h : Replaced db db' name stored gone) :
    ∃ fi', entryAt db' (fileKey name) = some fi' ∧ fi'.version = stored.version ∧
      fi'.deleted = stored.deleted ∧ ∀ hash, Lacks fi' hash → Lacks stored hash := by
  obtain ⟨q, hq⟩ := h
  refine ⟨_, (hq (fileKey name) rfl).1 rfl, version_withPointers, deleted_withPointers, fun hash hl => ?_⟩
  exact (lacks_withPointers hl).1

lemma findFileEntry_eq_ok (h : findFileEntry db (some e) name = .ok entry) :
    entryAt db entry.2 = some entry.1 ∧ (entry.2 = inboxKey e name ∨
      entry.2 = fileKey name ∧ entryAt db (inboxKey e name) = none) := by
  unfold findFileEntry at h
  split at h
  · cases h
  · next r hr =>
    cases h
    obtain ⟨hk, hget⟩ := findInboxEntry_eq_some hr
    rw [hk]
    exact ⟨entryAt_eq_some.2 hget, .inl rfl⟩
  · next hr =>
    obtain ⟨hk, hget⟩ := findMainEntry_eq_ok h
    rw [hk]
    refine ⟨entryAt_eq_some.2 hget, .inr ⟨rfl, ?_⟩⟩
    simp only [findInboxEntry] at hr
    unfold entryAt
    split at hr
    · next hn => rw [hn]
    · next v hv =>
      rw [hv]
      cases v with
      | file info => cases info <;> cases hr; rfl
      | _ => rfl

lemma entryAt_linkBatch {hash : Bytes32} (h : linkBatch name hash link entry = .ok batch) (hk : k.holdsFile = true) :
    entryAt (db.write batch) k = if k = entry.2 then
      some (pointBlocks hash.1 link.seq link.inlineData entry.1) else entryAt db k := by
  rw [linkBatch_eq_ok h]
  split_ifs with hk₀
  · subst hk₀
    rw [entryAt_eq_some]
    exact Db.get_write_append_put (by simp)
  · refine entryAt_write_of_forall_ne fun op hop => ?_
    rcases mem_append.1 hop with hop | hop
    · refine holdsFile_ne ?_ hk
      rcases mem_linkRows hop with rfl | ⟨seq, -, rfl⟩ | ⟨seq, data, -, rfl⟩ <;> rfl
    · rw [mem_singleton.1 hop]
      exact fun he => hk₀ he.symm

lemma Link.provides : (link.seq.isSome || link.inlineData.isSome) = true := by
  cases link <;> rfl

lemma linkBlock_entries {hash : Bytes32} {r : Except StorageError Unit}
    (h : linkBlock st (some e) name hash link = (r, st')) :
    (st' = st ∧ ∃ err, r = .error err) ∨ r = .ok () ∧ ∃ k₀ fi fi', Provided st.db st'.db e name hash.1 k₀ fi fi' := by
  unfold linkBlock at h
  split at h
  · next err herr =>
    cases h
    exact .inl ⟨rfl, err, rfl⟩
  · next entry hentry =>
    split at h
    · next err herr =>
      cases h
      exact .inl ⟨rfl, err, rfl⟩
    · next batch hbatch =>
      cases h
      obtain ⟨hentry, hkey⟩ := findFileEntry_eq_ok hentry
      refine .inr ⟨rfl, entry.2, entry.1, _, hkey, hentry, ?_,
        ⟨link.seq, link.inlineData, link.provides, rfl⟩, fun k hk => entryAt_linkBatch hbatch hk⟩
      unfold linkBatch at hbatch
      split_ifs at hbatch with hany
      simpa using hany

lemma allocate_entries {range range' : SeqRange} {seq : ℕ}
    (h : allocate db range = .ok (seq, db', range')) : SameEntries db db' := by
  intro k hk
  refine entryAt_of_get_eq (allocate_get h ?_)
  rintro rfl
  cases hk

/-- **A block without a pointer** after a block was provided was there before, and is another one. -/
lemma Provided.missing {k₀ : Key} {fi' fi₁ : StoredFile} {b : StoredBlock}
    (h : Provided db db' e name hash k₀ fi fi') (hk : k.holdsFile = true) (hfi₁ : entryAt db' k = some fi₁)
    (hb : b ∈ fi₁.blocks) (hp : b.hasPointer = false) :
    ∃ fi₀, entryAt db k = some fi₀ ∧ fi₀.version = fi₁.version ∧ fi₀.deleted = fi₁.deleted ∧
      b ∈ fi₀.blocks ∧ (k = k₀ → b.hash ≠ hash) := by
  obtain ⟨seq, data, hset, rfl⟩ := h.pointed
  rw [h.entries k hk] at hfi₁
  split_ifs at hfi₁ with hk₀
  · cases hfi₁
    subst hk₀
    obtain ⟨b₀, hb₀, rfl⟩ := mem_map.1 hb
    split_ifs at hp hb ⊢ with hhash
    · -- a block with that hash has a pointer now
      simp only [StoredBlock.hasPointer, hset] at hp
      cases hp
    · exact ⟨fi, h.entry, rfl, rfl, hb₀, fun _ => hhash⟩
  · exact ⟨fi₁, hfi₁, rfl, rfl, hb, fun he => absurd he hk₀⟩

lemma Provided.of_same {db₀ : Db} {k₀ : Key} {fi' : StoredFile} (h : Provided db db' e name hash k₀ fi fi')
    (hs : SameEntries db₀ db) : Provided db₀ db' e name hash k₀ fi fi' := by
  have hk₀ : k₀.holdsFile = true := by
    rcases h.key with rfl | ⟨rfl, -⟩ <;> rfl
  refine ⟨?_, (hs _ hk₀).symm.trans h.entry, h.block, h.pointed, fun k hk => ?_⟩
  · rcases h.key with hkey | ⟨hkey, hnone⟩
    · exact .inl hkey
    · exact .inr ⟨hkey, (hs _ rfl).symm.trans hnone⟩
  · rw [h.entries k hk, hs k hk]

theorem storeBlock_entries {bl : Blooms} {hash data : Bytes} {r : Except StorageError Unit}
    (h : storeBlock bl st (some e) name hash data = (r, st')) :
    (SameEntries st.db st'.db ∧ ∃ err, r = .error err) ∨
      r = .ok () ∧ ∃ k₀ fi fi', Provided st.db st'.db e name hash k₀ fi fi' := by
  unfold storeBlock at h
  split at h
  · cases h
    exact .inl ⟨fun _ _ => rfl, _, rfl⟩
  · next hash' hh =>
    have hval : hash'.1 = hash := toBytes32_eq_some.1 hh
    rw [← hval]
    have hlink : ∀ link st₁, SameEntries st.db st₁.db → linkBlock st₁ (some e) name hash' link = (r, st') →
        (SameEntries st.db st'.db ∧ ∃ err, r = .error err) ∨
          r = .ok () ∧ ∃ k₀ fi fi', Provided st.db st'.db e name hash'.1 k₀ fi fi' := by
      intro link st₁ hsame hl
      rcases linkBlock_entries hl with ⟨rfl, herr⟩ | ⟨hok, k₀, fi, fi', hp⟩
      · exact .inl ⟨hsame, herr⟩
      · exact .inr ⟨hok, k₀, fi, fi', hp.of_same hsame⟩
    split_ifs at h with hinline
    · exact hlink _ st (fun _ _ => rfl) h
    · split at h
      · cases h
        exact .inl ⟨fun _ _ => rfl, _, rfl⟩
      · exact hlink _ st (fun _ _ => rfl) h
      · split at h
        · cases h
          exact .inl ⟨fun _ _ => rfl, _, rfl⟩
        · next ha => exact hlink _ _ (allocate_entries ha) h

theorem reuseBlock_entries {bl : Blooms} {r : Except StorageError Bool}
    (h : reuseBlock bl st (some e) name hash = (r, st')) :
    (st' = st ∧ r ≠ .ok true) ∨ r = .ok true ∧ ∃ k₀ fi fi', Provided st.db st'.db e name hash k₀ fi fi' := by
  unfold reuseBlock at h
  split at h
  · cases h
    exact .inl ⟨rfl, (by rintro ⟨⟩)⟩
  · next hash' hh =>
    have hval : hash'.1 = hash := toBytes32_eq_some.1 hh
    split at h
    · cases h
      exact .inl ⟨rfl, (by rintro ⟨⟩)⟩
    · cases h
      exact .inl ⟨rfl, (by rintro ⟨⟩)⟩
    · next dir seq hfound =>
      cases hl : linkBlock st (some e) name hash' (.existing dir seq) with
      | mk =>
        simp only [hl] at h
        cases h
        rcases linkBlock_entries hl with ⟨rfl, err, rfl⟩ | ⟨rfl, hp⟩
        · exact .inl ⟨rfl, (by rintro ⟨⟩)⟩
        · rw [hval] at hp
          exact .inr ⟨rfl, hp⟩

end Entries

end Bepository.Storage
