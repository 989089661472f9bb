import Bepository.Storage.Flow

/-!
# Fresh block numbers

`SeqAllocator::allocate` hands out `Store.nextSeq`.  It only grows as long as the 64-bit counter does
not wrap, so that no number is handed out twice, and a number that a call has allocated and not yet
written belongs to that call alone.
-/

namespace Bepository.Storage

open Lib

def baseSeq (db : Db) : ℕ :=
  match getIndexMeta db with
  | .ok m => max (m.nextBlockseq.getD 0) MIN_BLOCK_SEQ
  | .error _ => MIN_BLOCK_SEQ

def Store.nextSeq (st : Store) : ℕ :=
  if st.range.next < st.range.stop then st.range.next else baseSeq st.db

def Store.Reserved (st : Store) : Prop :=
  st.range.next < st.range.stop → st.range.stop ≤ baseSeq st.db ∧ st.range.stop < 2 ^ 64

def Link.allocated : Link → List ℕ
  | .fresh seq _ => [seq]
  | _ => []

def Pc.allocated : Pc → List ℕ
  | .wait pc => pc.allocated
  | .readStaged _ link => link.allocated
  | .readMain _ link => link.allocated
  | .write _ link _ => link.allocated
  | _ => []

def noWrap (m : Machine) : Act → Bool
  | .next t => (m.calls.lookup t).all fun c =>
      match c.pc with
      | .allocate .. => m.store.nextSeq + RESERVATION_N < 2 ^ 64
      | _ => true
  | _ => true

section Numbers

variable {epoch : Epoch} {name : Str} {st st' : Store} {pc : Pc} {aft : After} {s : ℕ}

lemma baseSeq_of_get_eq {db db' : Db} (h : db'.get .mx = db.get .mx) : baseSeq db' = baseSeq db := by
  unfold baseSeq getIndexMeta
  rw [h]

lemma baseSeq_of_get {db : Db} {m : FolderIndexMeta} (h : db.get .mx = some (.indexMeta m)) :
    baseSeq db = max (m.nextBlockseq.getD 0) MIN_BLOCK_SEQ := by
  unfold baseSeq getIndexMeta
  rw [h]

lemma baseSeq_commitWrite {db db' : Db} {stored stored' : StoredFile} {batch : WriteBatch}
    (h : commitWrite db name stored batch = .ok (db', stored')) : baseSeq db' = baseSeq db := by
  obtain ⟨m, hm, -, -, rfl⟩ := commitWrite_eq_ok h
  have hget : (db.write (batch ++ [.put .mx (.indexMeta { m with maxSequence := succI64 m.maxSequence }),
        .put (fileKey name) (.file (some stored')),
        .put (.ms (succI64 m.maxSequence).toNat) (.name name)])).get .mx =
      some (.indexMeta { m with maxSequence := succI64 m.maxSequence }) := by
    simp [Db.get_write, lastOp, BatchOp.key, fileKey]
  rw [baseSeq_of_get hget]
  unfold baseSeq
  rw [hm]

lemma allocate_nextSeq {db : Db} {range : SeqRange} {seq : ℕ} (hres : st.Reserved)
    (hw : st.nextSeq + RESERVATION_N < 2 ^ 64) (h : allocate st.db st.range = .ok (seq, db, range)) :
    seq = st.nextSeq ∧ seq < ({ st with db := db, range := range } : Store).nextSeq ∧
      ({ st with db := db, range := range } : Store).Reserved := by
  rcases allocate_eq_ok h with ⟨hlt, rfl, rfl, rfl⟩ | ⟨hlt, m, hm, hseq, rfl, rfl⟩
  · have hnext : st.nextSeq = st.range.next := if_pos hlt
    obtain ⟨hstop, h64⟩ := hres hlt
    have hwrap : wrapU64 (st.range.next + 1) = st.range.next + 1 := Nat.mod_eq_of_lt (by omega)
    refine ⟨hnext.symm, ?_, fun _ => ⟨hstop, h64⟩⟩
    unfold Store.nextSeq
    simp only [hwrap]
    split_ifs <;> omega
  · have hbase : st.nextSeq = seq := by
      unfold Store.nextSeq baseSeq
      rw [if_neg hlt, hm, hseq]
    rw [hbase] at hw
    have h1 : wrapU64 (seq + 1) = seq + 1 := Nat.mod_eq_of_lt (by
      have : RESERVATION_N = 256 := rfl
      omega)
    have h2 : wrapU64 (seq + RESERVATION_N) = seq + RESERVATION_N := Nat.mod_eq_of_lt hw
    have hdisk : baseSeq (st.db.write [.put .mx (.indexMeta
        { m with nextBlockseq := some (wrapU64 (seq + RESERVATION_N)) })]) =
        max (seq + RESERVATION_N) MIN_BLOCK_SEQ := by
      rw [baseSeq_of_get (m := { m with nextBlockseq := some (wrapU64 (seq + RESERVATION_N)) })]
      · rw [h2]
        rfl
      · simp [Db.get_write, lastOp, BatchOp.key]
    have hn : RESERVATION_N = 256 := rfl
    rw [h2] at hdisk
    refine ⟨hbase.symm, ?_, fun _ => ?_⟩
    · unfold Store.nextSeq
      simp only [h1, h2]
      split_ifs <;> omega
    · simp only [h2]
      omega

/-- **The next number** only grows. -/
lemma Pc.Steps.nextSeq (h : pc.Steps epoch name st st' aft) (hf : pc.Formed epoch) (hres : st.Reserved)
    (hw : ∀ hash data, pc = .allocate hash data → st.nextSeq + RESERVATION_N < 2 ^ 64) :
    st.nextSeq ≤ st'.nextSeq ∧ st'.Reserved := by
  -- a step that keeps the reservations
  have hsame : ∀ db : Db, baseSeq db = baseSeq st.db →
      st.nextSeq ≤ ({ st with db := db } : Store).nextSeq ∧ ({ st with db := db } : Store).Reserved := by
    intro db hdb
    refine ⟨?_, fun hlt => ?_⟩
    · unfold Store.nextSeq
      simp only [hdb, le_refl]
    · simp only [hdb]
      exact hres hlt
  cases h with
  | @commitWrite _ _ _ db _ hc => exact hsame db (baseSeq_commitWrite hc)
  | stagePut =>
    exact hsame _ (baseSeq_of_get_eq (Db.get_write_single (by rintro ⟨⟩)))
  | @allocate hash data _ _ _ ha =>
    obtain ⟨hseq, hlt, hres'⟩ := allocate_nextSeq hres (hw hash data rfl) ha
    exact ⟨hseq ▸ hlt.le, hres'⟩
  | write hl =>
    rw [linkBatch_eq_ok hl]
    exact hsame _ (baseSeq_of_get_eq (get_write_link hf (.inl rfl)))
  | _ => exact ⟨le_rfl, hres⟩

lemma Pc.Searching.allocated {hash : Bytes32} {data : Option Bytes} (h : pc.Searching hash data) :
    pc.allocated = [] := by
  cases h <;> rfl

@[simp] lemma allocated_recordNext (recs : List (Bytes32 × ℕ)) : (recordNext recs).seqs Pc.allocated = [] := by
  cases recs <;> rfl

lemma Pc.Steps.allocated_of_ne (h : pc.Steps epoch name st st' aft)
    (hna : ∀ hash data, pc ≠ .allocate hash data) (hs : s ∈ aft.seqs Pc.allocated) : s ∈ pc.allocated := by
  cases h with
  | waiting | toMain | inboxEntry | mainEntry => exact hs
  | search _ h' => rw [After.seqs, h'.allocated] at hs; cases hs
  | @allocate hash data => exact absurd rfl (hna hash data)
  | commitWrite | write | record => simp at hs
  | _ => cases hs

/-- **An allocated number** was allocated before or is the next one. -/
lemma Pc.Steps.allocated (h : pc.Steps epoch name st st' aft) (hres : st.Reserved)
    (hw : ∀ hash data, pc = .allocate hash data → st.nextSeq + RESERVATION_N < 2 ^ 64)
    (hs : s ∈ aft.seqs Pc.allocated) : s ∈ pc.allocated ∨ s = st.nextSeq ∧ s < st'.nextSeq := by
  by_cases hna : ∀ hash data, pc ≠ .allocate hash data
  · exact .inl (h.allocated_of_ne hna hs)
  · simp only [not_forall, not_not] at hna
    obtain ⟨hash, data, rfl⟩ := hna
    cases h with
    | stop => cases hs
    | search _ h' => rw [After.seqs, h'.allocated] at hs; cases hs
    | @allocate hash data _ _ _ ha =>
      cases List.mem_singleton.1 hs
      obtain ⟨hseq, hlt, -⟩ := allocate_nextSeq hres (hw hash data rfl) ha
      exact .inr ⟨hseq, hlt⟩

end Numbers

end Bepository.Storage
