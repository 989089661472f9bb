import Bepository.Storage.Effects
import Bepository.Storage.Index

/-!
# What a call changes

A call that commits a file takes the next number of the folder and gives it to one entry; every other call
leaves the numbers and what the index returns alone.  Block pointers do not show in the index.  The rows of
the peers are written by `set_remote_state` only.
-/

namespace Bepository.Storage

open Lib List Option

/-- What `index` returns for the row at the path. -/
def wireAt (db : Db) (path : Path) : Option (Except StorageError WireFile) :=
  (entryAt db (.mn path)).map FileInfo.toWire

structure IndexKept (db db' : Db) : Prop where
  maxSeq : maxSeq db' = maxSeq db
  files : ∀ path, wireAt db' path = wireAt db path
  peers : ∀ d, db'.get (.md d) = db.get (.md d)

/-- The row of the name is replaced, with the next number. -/
structure IndexCommit (db db' : Db) (name : Str) (x : Except StorageError WireFile) : Prop where
  maxSeq : maxSeq db' = maxSeq db + 1
  file : wireAt db' (splitName name) = some x
  files : ∀ path, path ≠ splitName name → wireAt db' path = wireAt db path
  number : ∀ w, x = .ok w → w.sequence = Storage.maxSeq db + 1
  peers : ∀ d, db'.get (.md d) = db.get (.md d)

lemma IndexCommit.maxSeq_le {db db' : Db} {name : Str} {x : Except StorageError WireFile}
    (h : IndexCommit db db' name x) : Storage.maxSeq db ≤ Storage.maxSeq db' := by
  have := h.maxSeq
  omega

section Changes

variable {db db' : Db} {name : Str} {stored stored' : StoredFile} {batch : WriteBatch}

lemma IndexKept.refl : IndexKept db db := ⟨rfl, fun _ => rfl, fun _ => rfl⟩

lemma IndexKept.trans {db'' : Db} (h : IndexKept db db') (h' : IndexKept db' db'') : IndexKept db db'' :=
  ⟨h'.maxSeq.trans h.maxSeq, fun path => (h'.files path).trans (h.files path),
    fun d => (h'.peers d).trans (h.peers d)⟩

lemma maxSeq_of_get_eq (h : db'.get .mx = db.get .mx) : maxSeq db' = maxSeq db := by
  unfold maxSeq getIndexMeta
  rw [h]

lemma toWire_pointBlocks (hash : Bytes) (seq : Option ℕ) (data : Option Bytes) (fi : StoredFile) :
    (pointBlocks hash seq data fi).toWire = fi.toWire := by
  have hblock : ∀ b : StoredBlock,
      (if b.hash = hash then { b with blockseq := seq, inlineData := data } else b).toWire = b.toWire := by
    intro b
    split_ifs <;> rfl
  unfold FileInfo.toWire pointBlocks
  simp only [List.map_map, Function.comp_def, hblock]

lemma toWire_withPointers (old : Option StoredFile) (q : ℤ) :
    FileInfo.toWire { withPointers stored old with sequence := q } =
      FileInfo.toWire { stored with sequence := q } := by
  cases old with
  | none => rfl
  | some =>
    unfold FileInfo.toWire
    simp only [withPointers, elim_some, carryBlockPointers, List.map_map, Function.comp_def, toWire_carryBlock]

lemma toWire_sequence {w : WireFile} (h : stored.toWire = .ok w) : w.sequence = stored.sequence := by
  unfold FileInfo.toWire at h
  obtain ⟨t, -, rfl⟩ := map_eq_ok.1 h
  rfl

lemma IndexKept.write (h : ∀ op ∈ batch, op.key ≠ .mx ∧ (∀ path, op.key ≠ .mn path) ∧ ∀ d, op.key ≠ .md d) :
    IndexKept db (db.write batch) where
  maxSeq := maxSeq_of_get_eq (Db.get_write_of_forall_ne fun op hop => (h op hop).1)
  files path := by
    unfold wireAt
    rw [entryAt_write_of_forall_ne fun op hop => (h op hop).2.1 path]
  peers d := Db.get_write_of_forall_ne fun op hop => (h op hop).2.2 d

variable {epoch : Epoch} {st st' : Store}

lemma stageFile_kept {file : WireFile} : IndexKept db (stageFile db epoch file) := by
  refine .write fun op hop => ?_
  rw [mem_singleton.1 hop]
  exact ⟨by rintro ⟨⟩, by rintro _ ⟨⟩, by rintro _ ⟨⟩⟩

lemma allocate_kept {range range' : SeqRange} {seq : ℕ} (h : allocate db range = .ok (seq, db', range')) :
    IndexKept db db' := by
  refine ⟨(allocate_maxSeq h).1, fun path => ?_, fun d => allocate_get h (by rintro ⟨⟩)⟩
  unfold wireAt
  rw [entryAt_of_get_eq (allocate_get h (by rintro ⟨⟩))]

variable {r : Except StorageError Unit}

lemma linkBlock_kept {hash : Bytes32} {link : Link} (h : linkBlock st (some epoch) name hash link = (r, st')) :
    IndexKept st.db st'.db := by
  unfold linkBlock at h
  split at h
  · cases h
    exact .refl
  · next entry hentry =>
    split at h
    · cases h
      exact .refl
    · next batch hbatch =>
      cases h
      obtain ⟨hfound, hkey⟩ := findFileEntry_eq_ok hentry
      have hother : ∀ k, k.holdsFile = false → (∀ hash path, k ≠ .mr hash path) →
          (∀ dir hash, k ≠ .mb dir hash) → (∀ seq, k ≠ .bd seq) →
          (st.db.write batch).get k = st.db.get k := by
        intro k hk hmr hmb hbd
        rw [linkBatch_eq_ok hbatch]
        refine Db.get_write_of_forall_ne fun op hop => ?_
        rcases mem_append.1 hop with hop | hop
        · rcases mem_linkRows hop with rfl | ⟨seq, -, rfl⟩ | ⟨seq, data, -, rfl⟩
          · exact fun he => hmr _ _ he.symm
          · exact fun he => hmb _ _ he.symm
          · exact fun he => hbd _ he.symm
        · rw [mem_singleton.1 hop]
          rintro rfl
          rcases hkey with hkey | ⟨hkey, -⟩ <;> rw [BatchOp.key, hkey] at hk <;> cases hk
      refine ⟨maxSeq_of_get_eq (hother _ rfl (by rintro _ _ ⟨⟩) (by rintro _ _ ⟨⟩) (by rintro _ ⟨⟩)),
        fun path => ?_,
        fun d => hother _ rfl (by rintro _ _ ⟨⟩) (by rintro _ _ ⟨⟩) (by rintro _ ⟨⟩)⟩
      unfold wireAt
      dsimp only
      rw [entryAt_linkBatch hbatch rfl]
      split_ifs with hk
      · rw [hk, hfound, map_some, map_some, toWire_pointBlocks]
      · rfl

lemma storeBlock_kept {bl : Blooms} {hash data : Bytes}
    (h : storeBlock bl st (some epoch) name hash data = (r, st')) : IndexKept st.db st'.db := by
  unfold storeBlock at h
  split at h
  · cases h
    exact .refl
  · split_ifs at h
    · exact linkBlock_kept h
    · split at h
      · cases h
        exact .refl
      · exact linkBlock_kept h
      · split at h
        · cases h
          exact .refl
        · next ha => exact (allocate_kept ha).trans (linkBlock_kept h)

lemma reuseBlock_kept {bl : Blooms} {hash : Bytes} {r : Except StorageError Bool}
    (h : reuseBlock bl st (some epoch) name hash = (r, st')) : IndexKept st.db st'.db := by
  unfold reuseBlock at h
  split at h
  · cases h
    exact .refl
  · split at h
    · cases h
      exact .refl
    · cases h
      exact .refl
    · next hash' _ _ dir seq _ =>
      cases hl : linkBlock st (some epoch) name hash' (.existing dir seq) with
      | mk =>
        simp only [hl] at h
        cases h
        exact linkBlock_kept hl

end Changes

/-! ### Commits -/

section Commits

variable {db db' : Db} {name : Str} {stored stored' : StoredFile} {batch : WriteBatch}

/-- **A commit** is refused, or takes the next number. -/
theorem commitWithNewSeq_next {r : Except StorageError (ℤ × WireFile)}
    (hb : ∀ op ∈ batch, op.bookkeeping = true) (h : commitWithNewSeq db name stored batch = (r, db')) :
    (db' = db ∧ ∃ e, r = .error e) ∨
      IndexCommit db db' name (FileInfo.toWire { stored with sequence := maxSeq db + 1 }) ∧
      r = (FileInfo.toWire { stored with sequence := maxSeq db + 1 }).map fun w => (maxSeq db + 1, w) := by
  rcases commitWithNewSeq_cases h with hrefused | ⟨stored₁, batch₁, stored₂, hread, hwrite, rfl⟩
  · exact .inl hrefused
  · obtain ⟨hst, dels, rfl, hdels⟩ := commitRead_entries hread
    obtain ⟨-, rfl, m, hm, hdb⟩ := commitWrite_next hwrite
    have hwire : FileInfo.toWire { stored₁ with sequence := maxSeq db + 1 } =
        FileInfo.toWire { stored with sequence := maxSeq db + 1 } := by
      rw [hst, toWire_withPointers]
    have hb' : ∀ op ∈ batch ++ dels, op.bookkeeping = true := by
      intro op hop
      rcases mem_append.1 hop with hop | hop
      · exact hb op hop
      · obtain ⟨q, rfl⟩ := hdels op hop
        rfl
    have hmn : ∀ path, entryAt db' (.mn path) =
        if path = splitName name then some { stored₁ with sequence := maxSeq db + 1 }
        else entryAt db (.mn path) := by
      intro path
      unfold entryAt
      rw [hdb, commit_get_mn hb']
      split_ifs <;> rfl
    refine .inr ⟨⟨?_, ?_, fun path hne => ?_, fun w hw => toWire_sequence hw, fun d => ?_⟩, ?_⟩
    · have hmx : db'.get .mx = some (.indexMeta m) := by
        rw [hdb]
        exact commit_get_mx
      rw [(maxSeq_of_get hmx).2, hm]
    · unfold wireAt
      rw [hmn, if_pos rfl, map_some, hwire]
    · unfold wireAt
      rw [hmn, if_neg hne]
    · rw [hdb]
      refine Db.get_write_of_forall_ne fun op hop => ?_
      rcases mem_append.1 hop with hop | hop
      · have hop' := hb' op hop
        rintro hk
        cases op with
        | put k | delete k =>
          cases (show k = .md d from hk)
          cases hop'
      · simp only [mem_cons, not_mem_nil, or_false] at hop
        rcases hop with rfl | rfl | rfl <;> rintro ⟨⟩
    · rw [hwire]

variable {r : Except StorageError ℤ}

theorem putFile_next {file : WireFile} (h : putFile db file = (r, db')) :
    (db' = db ∧ ∃ e, r = .error e) ∨ r = .ok (maxSeq db + 1) ∧
      IndexCommit db db' file.name (FileInfo.toWire { file.toStored with sequence := maxSeq db + 1 }) := by
  cases hc : commitWithNewSeq db file.name file.toStored [] with
  | mk =>
    simp only [putFile, hc] at h
    cases h
    rcases commitWithNewSeq_next (by simp) hc with ⟨rfl, e, rfl⟩ | ⟨hi, rfl⟩
    · exact .inl ⟨rfl, e, rfl⟩
    · have ht : FileInfo.Typed { file.toStored with sequence := maxSeq db + 1 } :=
        FileInfo.typed_toStored file
      obtain ⟨w, hw, -⟩ := ht.exists_toWire
      exact .inr ⟨by rw [hw]; rfl, hi⟩

theorem putFileWithCarry_next {st st' : Store} {file : WireFile} {carryFrom : Str}
    (h : putFileWithCarry st file carryFrom = (r, st')) :
    st'.db = st.db ∨ ∃ x, IndexCommit st.db st'.db file.name x := by
  unfold putFileWithCarry at h
  split at h
  · cases h
    exact .inl rfl
  · next src hsrc =>
    have hb : ∀ op ∈ (carryFromSource file src).2.1, op.bookkeeping = true := by
      intro op hop
      cases src with
      | none => cases hop
      | some =>
        obtain ⟨c, -, rfl⟩ := List.mem_map.1 hop
        rfl
    cases hc : commitWithNewSeq st.db file.name (carryFromSource file src).1 (carryFromSource file src).2.1 with
    | mk r₁ db₁ =>
      have hdb : st'.db = db₁ := by
        simp only [hc] at h
        cases r₁ <;> cases h <;> rfl
      rw [hdb]
      rcases commitWithNewSeq_next hb hc with ⟨rfl, -⟩ | ⟨hi, -⟩
      · exact .inl rfl
      · exact .inr ⟨_, hi⟩

theorem completeFile_next {epoch : Epoch} {expected : Option VersionVector}
    {r : Except StorageError (Option WireFile)} (h : completeFile db epoch name expected = (r, db')) :
    (db' = db ∧ ∀ w, r ≠ .ok (some w)) ∨ ∃ x staged, IndexCommit db db' name x ∧ r = x.map some ∧
      entryAt db (inboxKey epoch name) = some staged ∧ (staged.Typed → ∃ w, x = .ok w) := by
  rcases completeFile_checked h with hback | ⟨staged, old, r₁, hs, -, -, -, hcommit, rfl⟩
  · exact .inl hback
  · have hb : ∀ op ∈ [BatchOp.delete (inboxKey epoch name)], op.bookkeeping = true := by
      intro op hop
      rw [mem_singleton.1 hop]
      rfl
    rcases commitWithNewSeq_next hb hcommit with ⟨rfl, e, rfl⟩ | ⟨hi, rfl⟩
    · exact .inl ⟨rfl, by rintro _ ⟨⟩⟩
    · refine .inr ⟨_, staged, hi, ?_, readStaged_entryAt hs, fun ht => ?_⟩
      · cases FileInfo.toWire { staged with sequence := maxSeq db + 1 } <;> rfl
      · have ht' : FileInfo.Typed { staged with sequence := maxSeq db + 1 } := ht
        obtain ⟨w, hw, -⟩ := ht'.exists_toWire
        exact ⟨w, hw⟩

end Commits

end Bepository.Storage
