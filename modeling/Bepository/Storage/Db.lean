import Mathlib.Data.List.Sort
import Bepository.Lib.Table
import Bepository.Storage.Keys

/-!
# A folder's database

SlateDB as the store uses it: point reads, prefix and range scans in the byte order of the keys, and
atomic batches.  Every batch stamps its rows with a new version, so that a compaction can tell the
row it read from a row written over it since.
-/

namespace Bepository.Storage

open Lib List Table Option

/-! ### Rows -/

/-- A decoded value.  The wrappers `File` and `Inbox` have the same form. -/
inductive Value where
  | file (info : Option StoredFile)
  | name (name : Str)
  | blockRef (ref : BlockRef)
  | data (bytes : Bytes)
  | empty
  | indexMeta (info : FolderIndexMeta)
  | remote (state : RemoteIndexState)
  deriving DecidableEq

/-- `File::decode` and `Inbox::decode`. -/
def Value.decodeFile : Value → Option (Option StoredFile)
  | .file info => some info
  | _ => none

structure Row where
  val : Value
  ver : ℕ
  deriving DecidableEq

inductive BatchOp where
  | put (k : Key) (v : Value)
  | delete (k : Key)
  deriving DecidableEq

abbrev WriteBatch := List BatchOp

def BatchOp.key : BatchOp → Key
  | .put k _ => k
  | .delete k => k

/-! ### Batches -/

def applyOp (ver : ℕ) (rows : Table Key Row) : BatchOp → Table Key Row
  | .put k v => rows.insert k ⟨v, ver⟩
  | .delete k => rows.erase k

/-- The effect of a batch on one row: the last operation on it, if any. -/
def lastOp (batch : WriteBatch) (k : Key) : Option BatchOp := batch.reverse.find? (·.key = k)

section Batches

variable {ver : ℕ} {rows : Table Key Row} {batch : WriteBatch} {k : Key}

lemma lookup_applyOp {op : BatchOp} : (applyOp ver rows op).lookup k =
      if op.key = k then (match op with | .put _ v => some ⟨v, ver⟩ | .delete _ => none)
      else rows.lookup k := by
  cases op with
  | put =>
    simp only [applyOp, BatchOp.key, lookup_insert']
    exact if_congr eq_comm rfl rfl
  | delete =>
    simp only [applyOp, BatchOp.key, lookup_erase']
    exact if_congr eq_comm rfl rfl

lemma lookup_applyOps : (batch.foldl (applyOp ver) rows).lookup k =
      match lastOp batch k with
      | some (.put _ v) => some ⟨v, ver⟩
      | some (.delete _) => none
      | none => rows.lookup k := by
  unfold lastOp
  induction batch using List.reverseRecOn with
  | nil => rfl
  | append_singleton batch op ih =>
    rw [foldl_append, foldl_cons, foldl_nil, lookup_applyOp, reverse_append,
      reverse_singleton, singleton_append, find?_cons, ih]
    by_cases h : op.key = k
    · rw [if_pos h]
      simp only [h, decide_true]
      cases op <;> rfl
    · rw [if_neg h]
      simp only [h, decide_false]

lemma lastOp_eq_none : lastOp batch k = none ↔ ∀ op ∈ batch, op.key ≠ k := by
  unfold lastOp
  rw [find?_eq_none]
  simp

lemma lastOp_append {b c : WriteBatch} {k : Key} : lastOp (b ++ c) k = (lastOp c k).or (lastOp b k) := by
  unfold lastOp
  rw [reverse_append, find?_append]

lemma mem_of_lastOp {op : BatchOp} (h : lastOp batch k = some op) : op ∈ batch ∧ op.key = k := by
  unfold lastOp at h
  exact ⟨mem_reverse.1 (mem_of_find?_eq_some h), by simpa using find?_some h⟩

lemma ver_applyOps {next : ℕ} (h : ∀ k r, rows.lookup k = some r → r.ver < next) {r : Row}
    (hr : (batch.foldl (applyOp next) rows).lookup k = some r) : r.ver < next + 1 := by
  rw [lookup_applyOps] at hr
  split at hr
  · cases hr
    exact Nat.lt_succ_self next
  · cases hr
  · exact Nat.lt_succ_of_lt (h k r hr)

end Batches

/-! ### The database -/

/-- The rows with their stamps, and the stamp of the next batch. -/
structure Db where
  rows : Table Key Row
  next : ℕ
  stamped : ∀ k r, rows.lookup k = some r → r.ver < next

namespace Db

def empty : Db := ⟨∅, 0, nofun⟩

def get (db : Db) (k : Key) : Option Value := (db.rows.lookup k).map Row.val

/-- `write_with_options`: the batch takes effect at once, later operations over earlier ones. -/
def write (db : Db) (batch : WriteBatch) : Db where
  rows := batch.foldl (applyOp db.next) db.rows
  next := db.next + 1
  stamped _ _ := ver_applyOps db.stamped

def keyOrder (k : Key) : List ℕ := k.encode.map UInt8.toNat

def scan (db : Db) : List (Key × Row) :=
  db.rows.toList.insertionSort fun a b => keyOrder a.1 ≤ keyOrder b.1

def scanPrefix (db : Db) (start : Bytes) : List (Key × Row) :=
  db.scan.filter fun r => start.isPrefixOf r.1.encode

end Db

/-! ### Reads after writes -/

section Reads

variable {db : Db} {k k' : Key} {v : Value} {batch : WriteBatch} {r : Row}

lemma Db.get_eq_some : db.get k = some v ↔ ∃ r, db.rows.lookup k = some r ∧ r.val = v := by
  simp [Db.get, map_eq_some_iff]

lemma Db.mem_scan : (k, r) ∈ db.scan ↔ db.rows.lookup k = some r := by
  unfold Db.scan
  rw [mem_insertionSort, Table.mem_toList]

instance : Std.Total fun a b : Key × Row => Db.keyOrder a.1 ≤ Db.keyOrder b.1 :=
  ⟨fun _ _ => le_total _ _⟩

instance : IsTrans (Key × Row) fun a b => Db.keyOrder a.1 ≤ Db.keyOrder b.1 :=
  ⟨fun _ _ _ => le_trans⟩

lemma Db.pairwise_scan : db.scan.Pairwise fun a b => Db.keyOrder a.1 ≤ Db.keyOrder b.1 ∧ a.1 ≠ b.1 := by
  have hsorted : db.scan.Pairwise fun a b => Db.keyOrder a.1 ≤ Db.keyOrder b.1 := pairwise_insertionSort _ _
  have hnodup : (db.scan.map Prod.fst).Nodup :=
    ((perm_insertionSort _ _).map Prod.fst).nodup_iff.2 (nodup_toList_keys db.rows)
  exact hsorted.and (pairwise_map.1 hnodup)

lemma Db.mem_scanPrefix {start : Bytes} :
    (k, r) ∈ db.scanPrefix start ↔ db.rows.lookup k = some r ∧ start <+: k.encode := by
  unfold Db.scanPrefix
  rw [mem_filter, Db.mem_scan, isPrefixOf_iff_prefix]

theorem Db.lookup_write : (db.write batch).rows.lookup k =
      match lastOp batch k with
      | some (.put _ v) => some ⟨v, db.next⟩
      | some (.delete _) => none
      | none => db.rows.lookup k :=
  lookup_applyOps

lemma Db.get_write : (db.write batch).get k =
      match lastOp batch k with
      | some (.put _ v) => some v
      | some (.delete _) => none
      | none => db.get k := by
  unfold Db.get
  rw [Db.lookup_write]
  split <;> rfl

lemma Db.get_write_of_forall_ne (h : ∀ op ∈ batch, op.key ≠ k) : (db.write batch).get k = db.get k := by
  rw [Db.get_write, lastOp_eq_none.2 h]

lemma Db.lookup_write_of_forall_ne (h : ∀ op ∈ batch, op.key ≠ k) :
    (db.write batch).rows.lookup k = db.rows.lookup k := by
  rw [Db.lookup_write, lastOp_eq_none.2 h]

lemma Db.lookup_write_single {op : BatchOp} (h : op.key ≠ k) :
    (db.write [op]).rows.lookup k = db.rows.lookup k :=
  Db.lookup_write_of_forall_ne (forall_mem_singleton.2 h)

lemma Db.get_write_single {op : BatchOp} (h : op.key ≠ k) : (db.write [op]).get k = db.get k :=
  Db.get_write_of_forall_ne (forall_mem_singleton.2 h)

lemma Db.get_write_append {c : WriteBatch} (h : ∀ op ∈ c, op.key ≠ k) :
    (db.write (batch ++ c)).get k = (db.write batch).get k := by
  rw [Db.get_write, Db.get_write, lastOp_append, lastOp_eq_none.2 h, none_or]

lemma Db.get_write_append_put {c : WriteBatch} (h : ∀ op ∈ c, op.key ≠ k) :
    (db.write (batch ++ .put k v :: c)).get k = some v := by
  rw [Db.get_write, lastOp_append, ← singleton_append, lastOp_append, lastOp_eq_none.2 h]
  simp [lastOp, BatchOp.key]

lemma Db.get_write_eq_some (h : (db.write batch).get k = some v) :
    .put k v ∈ batch ∨ (∀ op ∈ batch, op.key ≠ k) ∧ db.get k = some v := by
  rw [Db.get_write] at h
  split at h
  · next hop =>
    obtain ⟨hmem, rfl⟩ := mem_of_lastOp hop
    cases h
    exact .inl hmem
  · cases h
  · next hop => exact .inr ⟨lastOp_eq_none.1 hop, h⟩

lemma Db.isSome_get_write (hdel : .delete k ∉ batch) (h : (db.get k).isSome) :
    ((db.write batch).get k).isSome := by
  rw [Db.get_write]
  split
  · rfl
  · next hop =>
    obtain ⟨hmem, rfl⟩ := mem_of_lastOp hop
    exact absurd hmem hdel
  · exact h

end Reads

end Bepository.Storage
