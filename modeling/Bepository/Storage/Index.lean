import Bepository.Storage.Flow

/-!
# The committed index and its sequence rows

Every commit gives its entry the next sequence number, writes the row that leads from the number to
the name, and deletes the row of the entry it replaces.  A compaction prunes the rows below the peer
floor, and deletions below it.  For the numbers above a bound that no floor has passed, rows and
entries correspond: this is the invariant `Indexed` of a database, and `Listed` carries it through
calls and jobs in flight.
-/

namespace Bepository.Storage

open Lib List Option

def maxSeq (db : Db) : ℤ :=
  match getIndexMeta db with
  | .ok m => m.maxSequence
  | .error _ => 0

def SeqAt (db : Db) (path : Path) (q : ℤ) : Prop :=
  ∃ fi, db.get (.mn path) = some (.file (some fi)) ∧ fi.sequence = q

/-- Above `since`, sequence rows and committed entries correspond. -/
structure Indexed (since : ℤ) (db : Db) : Prop where
  bound : (∃ m, getIndexMeta db = .ok m) ∧ 0 ≤ maxSeq db ∧ maxSeq db ≤ i64Max
  files : ∀ path v, db.get (.mn path) = some v →
    ∃ fi, v = .file (some fi) ∧ fi.Typed ∧ 0 < fi.sequence ∧ fi.sequence ≤ maxSeq db
  staged : ∀ e path fi, db.get (.mi e path) = some (.file (some fi)) → fi.Typed
  seqs : ∀ q v, db.get (.ms q) = some v → (q : ℤ) ≤ maxSeq db
  row : ∀ q v, db.get (.ms q) = some v → since < q →
    ∃ name, v = .name name ∧ SeqAt db (splitName name) q
  entry : ∀ path q, SeqAt db path q → since < q →
    ∃ name, splitName name = path ∧ db.get (.ms q.toNat) = some (.name name)

lemma Indexed.empty {since : ℤ} : Indexed since Db.empty where
  bound := ⟨⟨_, rfl⟩, le_rfl, by decide⟩
  files := (by rintro _ _ ⟨⟩)
  staged := (by rintro _ _ _ ⟨⟩)
  seqs := (by rintro _ _ ⟨⟩)
  row := (by rintro _ _ ⟨⟩)
  entry := by
    rintro path q ⟨fi, hfi, -⟩
    cases hfi

/-! ### What a commit leaves -/

section Commit

variable {since : ℤ} {db db' : Db} {name : Str} {stored stored' : StoredFile} {batch : WriteBatch}
  {op : BatchOp} {path : Path} {range range' : SeqRange}

lemma bookkeeping_ne_mn (h : op.bookkeeping = true) : op.key ≠ .mn path := by
  intro hk
  cases op with
  | put k | delete k => cases (show k = .mn path from hk); cases h

lemma lastOp_bookkeeping {k : Key} (hk : ∀ hash path, k ≠ .mr hash path) (hb : ∀ op ∈ batch, op.bookkeeping = true) :
    lastOp batch k = if .delete k ∈ batch then some (.delete k) else none := by
  have hdel : ∀ op ∈ batch, op.key = k → op = .delete k := by
    rintro op hop rfl
    have hbk := hb op hop
    cases op with
    | put k =>
      cases k with
      | mr hash path => exact absurd rfl (hk hash path)
      | _ => cases hbk
    | delete => rfl
  split_ifs with hmem
  · cases hl : lastOp batch k with
    | none => exact absurd rfl (lastOp_eq_none.1 hl _ hmem)
    | some op =>
      obtain ⟨hop, hk⟩ := mem_of_lastOp hl
      rw [hdel op hop hk]
  · refine lastOp_eq_none.2 fun op hop hk => hmem ?_
    rw [← hdel op hop hk]
    exact hop

lemma commitWrite_next (h : commitWrite db name stored batch = .ok (db', stored')) :
    maxSeq db ≠ i64Max ∧ stored' = { stored with sequence := maxSeq db + 1 } ∧
    ∃ m : FolderIndexMeta, m.maxSequence = maxSeq db + 1 ∧ db' = db.write (batch ++
      [.put .mx (.indexMeta m), .put (fileKey name) (.file (some stored')),
        .put (.ms (maxSeq db + 1).toNat) (.name name)]) := by
  obtain ⟨m, hm, hpos, hst, hdb⟩ := commitWrite_eq_ok h
  have hmax : maxSeq db = m.maxSequence := by
    unfold maxSeq
    rw [hm]
  have hlt : m.maxSequence ≠ i64Max := by
    intro hlast
    unfold succI64 at hpos
    rw [if_pos hlast] at hpos
    omega
  have hsucc : succI64 m.maxSequence = maxSeq db + 1 := by
    unfold succI64
    rw [if_neg hlt, hmax]
  rw [hsucc] at hst hdb
  exact ⟨hmax ▸ hlt, hst, _, rfl, hdb⟩

lemma commitWrite_spec (h : commitWrite db name stored batch = .ok (db', stored')) (hle : maxSeq db ≤ i64Max) :
    maxSeq db + 1 ≤ i64Max ∧ stored' = { stored with sequence := maxSeq db + 1 } ∧
    ∃ m : FolderIndexMeta, m.maxSequence = maxSeq db + 1 ∧ db' = db.write (batch ++
      [.put .mx (.indexMeta m), .put (fileKey name) (.file (some stored')),
        .put (.ms (maxSeq db + 1).toNat) (.name name)]) := by
  obtain ⟨hne, hrest⟩ := commitWrite_next h
  exact ⟨by omega, hrest⟩

section Rows

variable {m : FolderIndexMeta} {q : ℕ} (hb : ∀ op ∈ batch, op.bookkeeping = true)

include hb

lemma commit_get_mn {path : Path} :
    (db.write (batch ++ [.put .mx (.indexMeta m), .put (fileKey name) (.file (some stored)),
      .put (.ms q) (.name name)])).get (.mn path) =
      if path = splitName name then some (.file (some stored)) else db.get (.mn path) := by
  rw [Db.get_write, lastOp_append, lastOp_eq_none.2 fun op hop => bookkeeping_ne_mn (hb op hop)]
  by_cases hp : path = splitName name
  · simp [lastOp, BatchOp.key, fileKey, hp]
  · have hp' : splitName name ≠ path := fun he => hp he.symm
    simp [lastOp, BatchOp.key, fileKey, hp, hp']

lemma commit_get_ms {q' : ℕ} :
    (db.write (batch ++ [.put .mx (.indexMeta m), .put (fileKey name) (.file (some stored)),
      .put (.ms q) (.name name)])).get (.ms q') = if q' = q then some (.name name)
      else if .delete (.ms q') ∈ batch then none else db.get (.ms q') := by
  rw [Db.get_write, lastOp_append, lastOp_bookkeeping (by rintro _ _ ⟨⟩) hb]
  by_cases hq : q' = q
  · simp [lastOp, BatchOp.key, fileKey, hq]
  · have hq' : q ≠ q' := fun he => hq he.symm
    have hl : lastOp [.put .mx (.indexMeta m), .put (fileKey name) (.file (some stored)),
        .put (.ms q) (.name name)] (.ms q') = none := by
      simp [lastOp, BatchOp.key, fileKey, hq']
    rw [hl, none_or, if_neg hq]
    split_ifs <;> rfl

omit hb in
lemma commit_get_mx : (db.write (batch ++ [.put .mx (.indexMeta m), .put (fileKey name) (.file (some stored)),
      .put (.ms q) (.name name)])).get .mx = some (.indexMeta m) := by
  rw [Db.get_write, lastOp_append]
  simp [lastOp, BatchOp.key, fileKey]

end Rows

lemma maxSeq_of_get {m : FolderIndexMeta} (h : db.get .mx = some (.indexMeta m)) :
    getIndexMeta db = .ok m ∧ maxSeq db = m.maxSequence := by
  have hm : getIndexMeta db = .ok m := by
    unfold getIndexMeta
    rw [h]
  refine ⟨hm, ?_⟩
  unfold maxSeq
  rw [hm]

lemma SeqAt.unique {q q' : ℤ} (h : SeqAt db path q) (h' : SeqAt db path q') : q = q' := by
  obtain ⟨fi, hfi, rfl⟩ := h
  obtain ⟨fi', hfi', rfl⟩ := h'
  rw [hfi] at hfi'
  cases hfi'
  rfl

lemma Indexed.seqAt_le (hi : Indexed since db) {q : ℤ} (h : SeqAt db path q) : q ≤ maxSeq db := by
  obtain ⟨fi, hfi, rfl⟩ := h
  obtain ⟨fi', he, -, -, hle⟩ := hi.files path _ hfi
  cases he
  exact hle

/-- What a call that will commit at this name knows of the entry it replaces: it deletes its sequence
row, and no other above the bound. -/
structure Replaces (since : ℤ) (db : Db) (name : Str) (batch : WriteBatch) : Prop where
  only : ∀ q : ℕ, .delete (.ms q) ∈ batch → since < q → SeqAt db (splitName name) q
  all : ∀ q, SeqAt db (splitName name) q → since < q → .delete (.ms q.toNat) ∈ batch

theorem Indexed.commitWrite (hi : Indexed since db) (h0 : 0 ≤ since) (ht : stored.Typed)
    (hb : ∀ op ∈ batch, op.bookkeeping = true) (hrep : Replaces since db name batch)
    (h : commitWrite db name stored batch = .ok (db', stored')) :
    Indexed since db' ∧ maxSeq db' = maxSeq db + 1 ∧
      ∀ path, path ≠ splitName name → db'.get (.mn path) = db.get (.mn path) := by
  obtain ⟨-, hmax0, hmaxle⟩ := hi.bound
  obtain ⟨hle, rfl, m, hm, hdb⟩ := commitWrite_spec h hmaxle
  have hmx : db'.get .mx = some (.indexMeta m) := by
    rw [hdb]
    exact commit_get_mx
  obtain ⟨hget, hmax⟩ := maxSeq_of_get hmx
  rw [hm] at hmax
  subst hdb
  refine ⟨⟨⟨⟨m, hget⟩, by omega, by omega⟩, ?_, ?_, ?_, ?_, ?_⟩, hmax,
    fun path hne => (commit_get_mn hb).trans (if_neg hne)⟩
  · intro path v hv
    rw [commit_get_mn hb] at hv
    split_ifs at hv
    · cases hv
      exact ⟨_, rfl, ht, by dsimp only; omega, hmax.ge⟩
    · obtain ⟨fi, rfl, hty, hpos, hseq⟩ := hi.files path v hv
      exact ⟨fi, rfl, hty, hpos, by omega⟩
  · intro e path fi hv
    rcases Db.get_write_eq_some hv with hput | ⟨-, hold⟩
    · rcases mem_append.1 hput with hput | hput
      · have := hb _ hput
        cases this
      · simp [fileKey] at hput
    · exact hi.staged e path fi hold
  · intro q v hv
    rw [commit_get_ms hb] at hv
    split_ifs at hv with hq
    · rw [hmax, hq]
      omega
    · have := hi.seqs q v hv
      omega
  · intro q v hv hq
    rw [commit_get_ms hb] at hv
    split_ifs at hv with hnew hdel
    · cases hv
      refine ⟨name, rfl, _, (commit_get_mn hb).trans (if_pos rfl), ?_⟩
      dsimp only
      omega
    · obtain ⟨name₀, rfl, hat⟩ := hi.row q v hv hq
      -- the entry is not the one replaced, since its row is not deleted
      have hne : splitName name₀ ≠ splitName name := by
        intro he
        rw [he] at hat
        have := hrep.all q hat hq
        rw [Int.toNat_natCast] at this
        exact hdel this
      obtain ⟨fi, hfi, hseq⟩ := hat
      exact ⟨name₀, rfl, fi, (commit_get_mn hb).trans ((if_neg hne).trans hfi), hseq⟩
  · rintro path q ⟨fi, hfi, rfl⟩ hq
    rw [commit_get_mn hb] at hfi
    split_ifs at hfi with hp
    · cases hfi
      exact ⟨name, hp.symm, by rw [commit_get_ms hb, if_pos rfl]⟩
    · have hat : SeqAt db path fi.sequence := ⟨fi, hfi, rfl⟩
      have hseq := hi.seqAt_le hat
      obtain ⟨name₀, hn, hrow⟩ := hi.entry path fi.sequence hat hq
      refine ⟨name₀, hn, ?_⟩
      rw [commit_get_ms hb, if_neg (by omega), if_neg]
      · exact hrow
      · -- the deleted row is that of the entry replaced
        intro hdel
        have hq' : ((fi.sequence.toNat : ℕ) : ℤ) = fi.sequence := by omega
        have hat' := hrep.only _ hdel (by omega)
        rw [hq'] at hat'
        obtain ⟨name₁, hn₁, hrow₁⟩ := hi.entry _ _ hat' hq
        rw [hrow] at hrow₁
        cases hrow₁
        exact hp (hn.symm.trans hn₁)

lemma Indexed.transfer (hi : Indexed since db) (h0 : 0 ≤ since) (hdec : ∃ m, getIndexMeta db' = .ok m)
    (hmax : maxSeq db' = maxSeq db) (hfiles : ∀ path v, db'.get (.mn path) = some v →
      ∃ fi, v = .file (some fi) ∧ fi.Typed ∧ 0 < fi.sequence ∧ fi.sequence ≤ maxSeq db)
    (hstaged : ∀ e path fi, db'.get (.mi e path) = some (.file (some fi)) → fi.Typed)
    (hms : ∀ q v, db'.get (.ms q) = some v → db.get (.ms q) = some v)
    (hms' : ∀ (q : ℕ) v, since < q → db.get (.ms q) = some v → db'.get (.ms q) = some v)
    (hmn : ∀ path q, since < q → (SeqAt db' path q ↔ SeqAt db path q)) : Indexed since db' := by
  refine ⟨⟨hdec, hmax ▸ hi.bound.2⟩, by rw [hmax]; exact hfiles, hstaged,
    fun q v hv => hmax ▸ hi.seqs q v (hms q v hv), fun q v hv hq => ?_, fun path q hat hq => ?_⟩
  · obtain ⟨name, rfl, hat⟩ := hi.row q v (hms q v hv) hq
    exact ⟨name, rfl, (hmn _ q hq).2 hat⟩
  · obtain ⟨name, hn, hrow⟩ := hi.entry path q ((hmn path q hq).1 hat) hq
    exact ⟨name, hn, hms' _ _ (by omega) hrow⟩

/-- A row of the index: a committed entry, a sequence row, or the counters. -/
def Key.isIndex : Key → Bool
  | .mn _ => true
  | .ms _ => true
  | .mx => true
  | _ => false

lemma isIndex_of_mem_linkRows {hash : Bytes32} {link : Link}
    (h : op ∈ link.batch name hash) : op.key.isIndex = false := by
  rcases mem_linkRows h with rfl | ⟨seq, -, rfl⟩ | ⟨seq, data, -, rfl⟩ <;> rfl

lemma ne_of_isIndex {k : Key} (h : op.key.isIndex = false) (hk : k.isIndex = true) : op.key ≠ k := by
  rintro rfl
  rw [h] at hk
  cases hk

lemma Indexed.write_other (hi : Indexed since db) (h0 : 0 ≤ since) (batch : WriteBatch)
    (hb : ∀ op ∈ batch, op.key.isIndex = false)
    (hmi : ∀ e path fi, .put (.mi e path) (.file (some fi)) ∈ batch → fi.Typed) :
    Indexed since (db.write batch) ∧ maxSeq (db.write batch) = maxSeq db ∧
      ∀ path, (db.write batch).get (.mn path) = db.get (.mn path) := by
  have hget : ∀ path, (db.write batch).get (.mn path) = db.get (.mn path) := fun path =>
    Db.get_write_of_forall_ne fun op hop => ne_of_isIndex (hb op hop) rfl
  have hseq : ∀ q, (db.write batch).get (.ms q) = db.get (.ms q) := fun q =>
    Db.get_write_of_forall_ne fun op hop => ne_of_isIndex (hb op hop) rfl
  have hmeta : getIndexMeta (db.write batch) = getIndexMeta db := by
    unfold getIndexMeta
    rw [Db.get_write_of_forall_ne fun op hop => ne_of_isIndex (hb op hop) rfl]
  have hmax : maxSeq (db.write batch) = maxSeq db := by
    unfold maxSeq
    rw [hmeta]
  refine ⟨hi.transfer h0 (hmeta ▸ hi.bound.1) hmax (fun path v hv => ?_) (fun e path fi hv => ?_)
    (fun q v hv => hseq q ▸ hv) (fun q v _ hv => (hseq q).trans hv) fun path q _ => ?_, hmax, hget⟩
  · rw [hget] at hv
    exact hi.files path v hv
  · rcases Db.get_write_eq_some hv with hput | ⟨-, hold⟩
    · exact hmi e path fi hput
    · exact hi.staged e path fi hold
  · unfold SeqAt
    rw [hget]

lemma allocate_maxSeq {seq : ℕ} (h : allocate db range = .ok (seq, db', range')) :
    maxSeq db' = maxSeq db ∧ ((∃ m, getIndexMeta db = .ok m) → ∃ m, getIndexMeta db' = .ok m) := by
  rcases allocate_eq_ok h with ⟨-, -, rfl, -⟩ | ⟨-, m, hm, -, rfl, -⟩
  · exact ⟨rfl, id⟩
  · have hmx : (db.write [.put .mx (.indexMeta
        { m with nextBlockseq := some (wrapU64 (seq + RESERVATION_N)) })]).get .mx =
        some (.indexMeta { m with nextBlockseq := some (wrapU64 (seq + RESERVATION_N)) }) := by
      rw [Db.get_write]
      simp [lastOp, BatchOp.key]
    obtain ⟨hget, hmax⟩ := maxSeq_of_get hmx
    refine ⟨?_, fun _ => ⟨_, hget⟩⟩
    rw [hmax]
    unfold maxSeq
    rw [hm]

lemma Indexed.allocate (hi : Indexed since db) (h0 : 0 ≤ since) {seq : ℕ}
    (h : allocate db range = .ok (seq, db', range')) : Indexed since db' ∧ maxSeq db' = maxSeq db ∧
      ∀ path, db'.get (.mn path) = db.get (.mn path) := by
  have hother : ∀ k : Key, k ≠ .mx → db'.get k = db.get k := fun k hk => allocate_get h hk
  obtain ⟨hmax, hmeta⟩ := allocate_maxSeq h
  refine ⟨hi.transfer h0 (hmeta hi.bound.1) hmax (fun path v hv => ?_) (fun e path fi hv => ?_)
    (fun q v hv => ?_) (fun q v _ hv => ?_) fun path q _ => ?_, hmax, fun path => hother _ (by rintro ⟨⟩)⟩
  · exact hi.files path v (hother (.mn path) (by rintro ⟨⟩) ▸ hv)
  · exact hi.staged e path fi (hother (.mi e path) (by rintro ⟨⟩) ▸ hv)
  · exact hother (.ms q) (by rintro ⟨⟩) ▸ hv
  · exact (hother (.ms q) (by rintro ⟨⟩)).trans hv
  · unfold SeqAt
    rw [hother (.mn path) (by rintro ⟨⟩)]

lemma Indexed.relink (hi : Indexed since db) (h0 : 0 ≤ since) (hash : Bytes32) (link : Link) (ht : stored.Typed)
    (hpos : 0 < stored.sequence) (hle : stored.sequence ≤ maxSeq db)
    (hat : ∀ q, since < q → (SeqAt db (splitName name) q ↔ stored.sequence = q)) :
    let db' := db.write (link.batch name hash ++ [.put (fileKey name) (.file (some stored))])
    Indexed since db' ∧ maxSeq db' = maxSeq db ∧
      ∀ path, path ≠ splitName name → db'.get (.mn path) = db.get (.mn path) := by
  intro db'
  -- the rows that provide the block first, then the entry
  obtain ⟨hi₁, hmax₁, hget₁⟩ := hi.write_other h0 (link.batch name hash)
    (fun op hop => isIndex_of_mem_linkRows hop) (fun e path fi hop => by
      rcases mem_linkRows hop with h | ⟨seq, -, h⟩ | ⟨seq, data, -, h⟩ <;> cases h)
  have hget : ∀ k, db'.get k = if k = fileKey name then some (.file (some stored))
      else (db.write (link.batch name hash)).get k := by
    intro k
    rw [Db.get_write, Db.get_write, lastOp_append]
    by_cases hk : k = fileKey name
    · simp [lastOp, BatchOp.key, hk]
    · have hk' : fileKey name ≠ k := fun he => hk he.symm
      have hl : lastOp [.put (fileKey name) (.file (some stored))] k = none := by
        simp [lastOp, BatchOp.key, hk']
      rw [hl, none_or, if_neg hk]
  have hother : ∀ k, (∀ path, k ≠ .mn path) → db'.get k = (db.write (link.batch name hash)).get k :=
    fun k hk => (hget k).trans (if_neg (hk _))
  have hmn : ∀ path, path ≠ splitName name → db'.get (.mn path) = db.get (.mn path) := by
    intro path hne
    rw [hget, if_neg, hget₁]
    intro he
    exact hne (Key.mn.inj he)
  have hself : db'.get (.mn (splitName name)) = some (.file (some stored)) := (hget _).trans (if_pos rfl)
  have hmeta : getIndexMeta db' = getIndexMeta (db.write (link.batch name hash)) := by
    unfold getIndexMeta
    rw [hother .mx (by rintro _ ⟨⟩)]
  have hmax : maxSeq db' = maxSeq db := by
    rw [← hmax₁]
    unfold maxSeq
    rw [hmeta]
  have hseqAt : ∀ path q, since < q → (SeqAt db' path q ↔ SeqAt db path q) := by
    intro path q hq
    by_cases hp : path = splitName name
    · subst hp
      rw [hat q hq]
      unfold SeqAt
      rw [hself]
      simp
    · unfold SeqAt
      rw [hmn path hp]
  refine ⟨hi₁.transfer h0 (hmeta ▸ hi₁.bound.1) (hmax.trans hmax₁.symm) (fun path v hv => ?_)
    (fun e path fi hv => ?_) (fun q v hv => ?_) (fun q v _ hv => ?_) fun path q hq => ?_, hmax, hmn⟩
  · by_cases hp : path = splitName name
    · subst hp
      rw [hself] at hv
      cases hv
      exact ⟨stored, rfl, ht, hpos, hmax₁ ▸ hle⟩
    · rw [hmn path hp] at hv
      rw [hmax₁]
      exact hi.files path v hv
  · exact hi₁.staged e path fi (hother (.mi e path) (by rintro _ ⟨⟩) ▸ hv)
  · exact hother (.ms q) (by rintro _ ⟨⟩) ▸ hv
  · exact (hother (.ms q) (by rintro _ ⟨⟩)).trans hv
  · rw [hseqAt path q hq]
    unfold SeqAt
    rw [hget₁]

end Commit

/-! ### What a call in flight knows of the index -/

def Pc.Opening : Pc → Prop
  | .commitRead stored batch _ => stored.Typed ∧ ∀ q, .delete (.ms q) ∉ batch
  | .stagePut _ => True
  | .readInbox _ => True
  | .checkSafe .. => True
  | .readStaged .. => True
  | _ => False

/-- What a call on the name knows of the index: a commit knows the entry it replaces, and a block
pointer is set in an entry that is still the committed one. -/
def PcIndexed (since : ℤ) (epoch : Epoch) (db : Db) (name : Str) : Pc → Prop
  | .wait pc => pc.Opening
  | .commitRead stored batch _ => stored.Typed ∧ ∀ q, .delete (.ms q) ∉ batch
  | .commitWrite stored batch _ => stored.Typed ∧ Replaces since db name batch
  | .readCommitted staged => staged.Typed
  | .write _ _ entry => entry.1.Typed ∧ (entry.2 = inboxKey epoch name ∨
      entry.2 = fileKey name ∧ 0 < entry.1.sequence ∧ entry.1.sequence ≤ maxSeq db ∧
        ∀ q, since < q → (SeqAt db (splitName name) q ↔ entry.1.sequence = q))
  | _ => True

def AfterIndexed (since : ℤ) (epoch : Epoch) (db : Db) (name : Str) : After → Prop
  | .go pc => PcIndexed since epoch db name pc
  | .done _ => True

section Steps

variable {since : ℤ} {epoch : Epoch} {db db' : Db} {name : Str} {pc : Pc} {st st' : Store}
  {aft : After}

lemma PcIndexed.frame (h : PcIndexed since epoch db name pc) (hmax : maxSeq db ≤ maxSeq db')
    (hat : ∀ q, since < q → (SeqAt db' (splitName name) q ↔ SeqAt db (splitName name) q)) :
    PcIndexed since epoch db' name pc := by
  cases pc with
  | commitWrite =>
    refine ⟨h.1, fun q hq hlt => (hat q hlt).2 (h.2.only q hq hlt), fun q hq hlt => ?_⟩
    exact h.2.all q ((hat q hlt).1 hq) hlt
  | write =>
    refine ⟨h.1, h.2.imp_right fun ⟨hk, hpos, hle, hiff⟩ => ⟨hk, hpos, hle.trans hmax, ?_⟩⟩
    exact fun q hq => (hat q hq).trans (hiff q hq)
  | _ => exact h

lemma PcIndexed.of_unlocked (h : PcIndexed since epoch db name pc) (hl : pc.locked = false) :
    PcIndexed since epoch db' name pc := by
  cases pc with
  | readSource | wait => exact h
  | _ => cases hl

lemma Pc.Opening.indexed (h : pc.Opening) : PcIndexed since epoch db name pc := by
  cases pc with
  | commitRead => exact h
  | stagePut | readInbox | checkSafe | readStaged => trivial
  | _ => exact h.elim

lemma Pc.Searching.indexed {hash : Bytes32} {data : Option Bytes} (h : pc.Searching hash data) :
    PcIndexed since epoch db name pc := by
  cases h <;> trivial

lemma afterIndexed_recordNext (recs : List (Bytes32 × ℕ)) :
    AfterIndexed since epoch db name (recordNext recs) := by
  cases recs <;> trivial

variable {src : Option StoredFile}

lemma typed_carryFromSource {file : WireFile} : (carryFromSource file src).1.Typed := by
  cases src with
  | none | some => exact FileInfo.typed_toStored file

lemma delete_not_mem_carryFromSource {file : WireFile} {k : Key} :
    .delete k ∉ (carryFromSource file src).2.1 := by
  cases src with
  | none => exact not_mem_nil
  | some =>
    intro h
    obtain ⟨c, -, hc⟩ := mem_map.1 h
    cases hc

lemma replaces_commitRead {stored stored' : StoredFile} {batch batch' : WriteBatch} (h0 : 0 ≤ since)
    (hn : ∀ q, .delete (.ms q) ∉ batch) (ht : stored.Typed)
    (h : commitRead db name stored batch = .ok (stored', batch')) :
    stored'.Typed ∧ Replaces since db name batch' := by
  rcases commitRead_eq_ok h with ⟨hnone, rfl, rfl⟩ | ⟨old, hold, rfl, rfl⟩
  · refine ⟨ht, fun q hq => absurd hq (hn q), ?_⟩
    rintro q ⟨fi, hfi, -⟩
    have := getFileProto_eq_none hnone
    rw [show db.get (fileKey name) = _ from hfi] at this
    cases this
  · have hget := getFileProto_eq_some hold
    refine ⟨ht, fun q hq hlt => ?_, ?_⟩
    · rcases mem_append.1 hq with hq | hq
      · exact absurd hq (hn q)
      · split_ifs at hq with hpos
        · have he := mem_singleton.1 hq
          injection he with he
          injection he with he
          exact ⟨old, hget, by omega⟩
        · cases hq
    · rintro q ⟨fi, hfi, rfl⟩ hlt
      rw [show db.get (.mn (splitName name)) = _ from hget] at hfi
      cases hfi
      refine mem_append_right _ ?_
      rw [if_pos (by omega)]
      exact mem_singleton_self _

lemma Pc.Steps.unlocked (h : pc.Steps epoch name st st' aft) (hl : pc.locked = false) : st' = st := by
  cases h <;> first | rfl | cases hl

lemma Pc.Steps.locked (h : pc.Steps epoch name st st' aft) {pc' : Pc} (ha : aft = .go pc')
    (hl : pc'.locked = true) : pc.locked = true := by
  cases h with
  | waiting => cases ha; exact hl
  | readSource => cases ha; cases hl
  | stop => cases ha
  | search h => cases h <;> rfl
  | _ => rfl

/-- **The index through a step of a call**: rows and entries above the bound correspond, and no entry
at another path changes. -/
theorem Pc.Steps.indexed (h : pc.Steps epoch name st st' aft) (hf : pc.Formed epoch) (h0 : 0 ≤ since)
    (hi : Indexed since st.db) (hpc : PcIndexed since epoch st.db name pc) :
    Indexed since st'.db ∧ AfterIndexed since epoch st'.db name aft ∧ maxSeq st.db ≤ maxSeq st'.db ∧
      ∀ path, path ≠ splitName name → st'.db.get (.mn path) = st.db.get (.mn path) := by
  -- a step that only reads
  have hread : AfterIndexed since epoch st.db name aft → Indexed since st.db ∧
      AfterIndexed since epoch st.db name aft ∧ maxSeq st.db ≤ maxSeq st.db ∧
      ∀ path, path ≠ splitName name → st.db.get (.mn path) = st.db.get (.mn path) :=
    fun ha => ⟨hi, ha, le_rfl, fun _ _ => rfl⟩
  cases h with
  | stop | pointer | hit | toMain => exact hread trivial
  | waiting => exact hread hpc
  | readSource =>
    exact hread ⟨typed_carryFromSource, fun q => delete_not_mem_carryFromSource⟩
  | commitRead hr =>
    exact hread (replaces_commitRead h0 hpc.2 hpc.1 hr)
  | @commitWrite _ _ carried _ _ hw =>
    obtain ⟨hi', hmax, hmn⟩ := hi.commitWrite h0 hpc.1 hf hpc.2 hw
    exact ⟨hi', afterIndexed_recordNext carried, by dsimp only; omega, hmn⟩
  | @stagePut file =>
    obtain ⟨hi', hmax, hmn⟩ := hi.write_other h0 [.put (inboxKey epoch file.name) (.file (some file.toStored))]
      (fun op hop => by rw [mem_singleton.1 hop]; rfl)
      (fun e path fi hop => by
        cases mem_singleton.1 hop
        exact FileInfo.typed_toStored file)
    exact ⟨hi', trivial, hmax.ge, fun path _ => hmn path⟩
  | @readInbox staged hr => exact hread (hi.staged _ _ staged (readStaged_eq_some hr))
  | readCommitted =>
    refine hread ⟨hpc, fun q hq => ?_⟩
    cases mem_singleton.1 hq
  | search _ h' => exact hread h'.indexed
  | allocate ha =>
    obtain ⟨hi', hmax, hmn⟩ := hi.allocate h0 ha
    exact ⟨hi', trivial, hmax.ge, fun path _ => hmn path⟩
  | @inboxEntry _ _ entry he =>
    obtain ⟨hk, hget⟩ := findInboxEntry_eq_some he
    exact hread ⟨hi.staged _ _ entry.1 hget, .inl hk⟩
  | mainEntry he =>
    obtain ⟨hk, hget⟩ := findMainEntry_eq_ok he
    obtain ⟨fi, hfi, hty, hpos, hle⟩ := hi.files _ _ hget
    cases hfi
    refine hread ⟨hty, .inr ⟨hk, hpos, hle, fun q _ => ⟨fun hat => ?_, fun hq => ⟨_, hget, hq⟩⟩⟩⟩
    exact SeqAt.unique ⟨_, hget, rfl⟩ hat
  | @write hash link entry batch hl =>
    obtain ⟨hty, hkey⟩ := hpc
    rw [linkBatch_eq_ok hl]
    have ht' : (pointBlocks hash.1 link.seq link.inlineData entry.1).Typed := hty
    rcases hkey with hk | ⟨hk, hpos, hle, hat⟩
    · rw [hk]
      have hrows : ∀ op ∈ link.batch name hash ++ [.put (inboxKey epoch name)
          (.file (some (pointBlocks hash.1 link.seq link.inlineData entry.1)))],
          op.key.isIndex = false := by
        intro op hop
        rcases mem_append.1 hop with hop | hop
        · exact isIndex_of_mem_linkRows hop
        · rw [mem_singleton.1 hop]
          rfl
      obtain ⟨hi', hmax, hmn⟩ := hi.write_other h0 _ hrows (fun e path fi hop => by
        rcases mem_append.1 hop with hop | hop
        · rcases mem_linkRows hop with h | ⟨seq, -, h⟩ | ⟨seq, data, -, h⟩ <;> cases h
        · cases mem_singleton.1 hop
          exact ht')
      exact ⟨hi', afterIndexed_recordNext _, hmax.ge, fun path _ => hmn path⟩
    · rw [hk]
      obtain ⟨hi', hmax, hmn⟩ := hi.relink h0 hash link ht' hpos hle hat
      exact ⟨hi', afterIndexed_recordNext _, hmax.ge, hmn⟩
  | @record _ _ recs => exact ⟨hi, afterIndexed_recordNext recs, le_rfl, fun _ _ => rfl⟩

end Steps

end Bepository.Storage
