import Bepository.Storage.Fsck
import Bepository.Storage.Quiescent
import Bepository.Storage.Snapshot

/-!
# The sequence check after a compaction

`check_sequences` wants a sequence row for every file and a file for every sequence row.  A compaction prunes
the sequence rows below the peer floor, of live files as well, but among the files only those deleted below it.
So what it leaves passes the check only if no live file is below the floor.
-/

namespace Bepository.Storage

open Lib List

/-! ### The index rows -/

/-- A row `mn<path>` that decodes to a file. -/
def FileAt (x : Externals) (db : RawDb) (path : Path) (fi : StoredFile) : Prop :=
  ∃ raw rec, ((Key.mn path).encode, raw) ∈ db.rows ∧ x.file raw = .ok (some rec) ∧ rec.info = fi

/-- A row `ms<seq>` with a name. -/
def NamedAt (db : RawDb) (seq : ℕ) (name : Str) : Prop := ((Key.ms seq).encode, utf8 name) ∈ db.rows

/-- The index as the store writes it: files under their paths, names under their sequence numbers, and a
counter that starts at 0. -/
structure IndexRows (x : Externals) (db : RawDb) : Prop where
  file : ∀ r ∈ db.rows, FILE_PREFIX <+: r.1 →
    (∃ path, r.1 = (Key.mn path).encode) ∧ ∃ rec, x.file r.2 = .ok (some rec) ∧ rec.info.sequence ≤ i64Max
  sequence : ∀ r ∈ db.rows, SEQ_PREFIX <+: r.1 →
    (∃ seq, seq < 2 ^ 64 ∧ r.1 = (Key.ms seq).encode) ∧ ∃ name, r.2 = utf8 name
  counter : ∀ m, (checkMetadata x db).1 = some m → 0 ≤ m

/-! ### When the check is clean -/

section Clean

variable {x : Externals} {db : RawDb} {seq : ℕ} {name : Str} {path : Path} {fi : StoredFile}

lemma foldl_max_le {α : Type} [LinearOrder α] {l : List α} {a m : α} : l.foldl max a ≤ m ↔ a ≤ m ∧ ∀ b ∈ l, b ≤ m := by
  induction l generalizing a with
  | nil => simp
  | cons b l ih =>
    rw [foldl_cons, ih, max_le_iff, forall_mem_cons, and_assoc]

lemma checkSeqRow_eq_nil (h : seq < 2 ^ 64) : checkSeqRow x db ((Key.ms seq).encode, utf8 name) = [] ↔
      ∃ fi, FileAt x db (splitName name) fi ∧ fi.sequence = seq := by
  unfold checkSeqRow FileAt
  rw [parseSeqKey_ms h]
  simp only [fromUtf8_utf8]
  cases hget : db.get (fileKey name).encode with
  | none =>
    have hno : ∀ raw, ((Key.mn (splitName name)).encode, raw) ∉ db.rows := by
      intro raw hraw
      have hsome : db.get (fileKey name).encode = some raw := RawDb.get_eq_some_iff.2 hraw
      rw [hget] at hsome
      cases hsome
    simp [hno]
  | some raw =>
    have hrow : ((Key.mn (splitName name)).encode, raw) ∈ db.rows := RawDb.get_eq_some_iff.1 hget
    have huniq : ∀ raw', ((Key.mn (splitName name)).encode, raw') ∈ db.rows → raw' = raw := by
      intro raw' hraw'
      have hsome : db.get (fileKey name).encode = some raw' := RawDb.get_eq_some_iff.2 hraw'
      rw [hget] at hsome
      exact (Option.some.inj hsome).symm
    have hiff : (∃ fi, (∃ raw' rec, ((Key.mn (splitName name)).encode, raw') ∈ db.rows ∧
        x.file raw' = .ok (some rec) ∧ rec.info = fi) ∧ fi.sequence = (seq : ℤ)) ↔
        ∃ rec, x.file raw = .ok (some rec) ∧ rec.info.sequence = (seq : ℤ) := by
      constructor
      · rintro ⟨_, ⟨raw', rec, hmem, hrec, rfl⟩, hs⟩
        obtain rfl := huniq raw' hmem
        exact ⟨rec, hrec, hs⟩
      · rintro ⟨rec, hrec, hs⟩
        exact ⟨rec.info, ⟨raw, rec, hrow, hrec, rfl⟩, hs⟩
    rw [hiff, Option.map_some]
    cases x.file raw with
    | error => simp
    | ok o =>
      cases o with
      | none => simp
      | some rec =>
        by_cases hs : rec.info.sequence = (seq : ℤ) <;> simp [hs]

section

variable (hrows : IndexRows x db)
include hrows

lemma checkFileSeq_eq_nil :
    checkFileSeq db (name, fi) = [] ↔ 0 ≤ fi.sequence ∧ ∃ name', NamedAt db fi.sequence.toNat name' := by
  unfold checkFileSeq seqKey
  by_cases hneg : fi.sequence < 0
  · simp [hneg]
  · simp only [hneg, if_false]
    have hnonneg : 0 ≤ fi.sequence := by omega
    cases hget : db.get (Key.ms fi.sequence.toNat).encode with
    | none =>
      have hno : ∀ name', ¬ NamedAt db fi.sequence.toNat name' := by
        intro name' hmem
        have hsome := RawDb.get_eq_some_iff.2 hmem
        rw [hget] at hsome
        cases hsome
      simp [hno]
    | some =>
      have hmem := RawDb.get_eq_some_iff.1 hget
      obtain ⟨-, name', rfl⟩ := hrows.sequence _ hmem (prefix_append _ _)
      simp only [reduceCtorEq, if_false, true_iff]
      exact ⟨hnonneg, name', hmem⟩

lemma IndexRows.forall_sequence (P : Bytes × Bytes → Prop) : (∀ r ∈ db.scanPrefix SEQ_PREFIX, P r) ↔
      ∀ seq name, seq < 2 ^ 64 → NamedAt db seq name → P ((Key.ms seq).encode, utf8 name) := by
  constructor
  · intro h seq name _ hmem
    exact h _ (RawDb.mem_scanPrefix.2 ⟨hmem, prefix_append _ _⟩)
  · rintro h ⟨key, raw⟩ hr
    obtain ⟨hmem, hpre⟩ := RawDb.mem_scanPrefix.1 hr
    obtain ⟨⟨seq, hlt, rfl⟩, name, rfl⟩ := hrows.sequence _ hmem hpre
    exact h seq name hlt hmem

lemma IndexRows.forall_file (P : Str × StoredFile → Prop) :
    (∀ f ∈ (db.scanPrefix FILE_PREFIX).filterMap (readableFile x), P f) ↔
      ∀ path fi, FileAt x db path fi → P (joinName path, fi) := by
  constructor
  · rintro h path _ ⟨raw, rec, hmem, hrec, rfl⟩
    refine h _ (mem_filterMap.2 ⟨_, RawDb.mem_scanPrefix.2 ⟨hmem, prefix_append _ _⟩, ?_⟩)
    simp [readableFile, hrec]
  · intro h f hf
    obtain ⟨⟨key, raw⟩, hr, hread⟩ := mem_filterMap.1 hf
    obtain ⟨hmem, hpre⟩ := RawDb.mem_scanPrefix.1 hr
    obtain ⟨⟨path, rfl⟩, rec, hrec, -⟩ := hrows.file _ hmem hpre
    simp only [readableFile, parseFileKey_mn, hrec, Option.some.injEq] at hread
    subst hread
    exact h path rec.info ⟨raw, rec, hmem, hrec, rfl⟩

lemma IndexRows.maxObservedSeq_le {m : ℤ} (hm : 0 ≤ m) :
    (((db.scanPrefix SEQ_PREFIX).filterMap fun r => parseSeqKey r.1).foldl max 0 : ℕ) ≤ m ↔
      ∀ seq name, seq < 2 ^ 64 → NamedAt db seq name → (seq : ℤ) ≤ m := by
  have hcast : ∀ n : ℕ, (n : ℤ) ≤ m ↔ n ≤ m.toNat := fun n => by omega
  have hrow : (∀ r ∈ db.scanPrefix SEQ_PREFIX, ∀ seq, parseSeqKey r.1 = some seq → seq ≤ m.toNat) ↔
      ∀ seq name, seq < 2 ^ 64 → NamedAt db seq name → seq ≤ m.toNat := by
    rw [hrows.forall_sequence]
    refine forall_congr' fun seq => forall_congr' fun name => forall_congr' fun hlt => ?_
    simp [parseSeqKey_ms hlt]
  simp only [hcast, ← hrow, foldl_max_le, mem_filterMap, Nat.zero_le, true_and]
  constructor
  · intro h r hr seq hseq
    exact h seq ⟨r, hr, hseq⟩
  · rintro h seq ⟨r, hr, hseq⟩
    exact h r hr seq hseq

lemma IndexRows.maxObservedFileSeq_le {m : ℤ} (hm : 0 ≤ m) :
    (((db.scanPrefix FILE_PREFIX).filterMap (readableFile x)).map fun f => f.2.sequence).foldl max 0 ≤ m ↔
      ∀ path fi, FileAt x db path fi → fi.sequence ≤ m := by
  rw [foldl_max_le, forall_mem_map, hrows.forall_file]
  exact and_iff_right hm

/-- **The sequence check at the full level is clean** exactly when sequence rows and files name each other
and the counter is not behind them. -/
theorem checkSequences_eq_nil : checkSequences x db .full (checkMetadata x db).1 = [] ↔
      (∀ seq name, seq < 2 ^ 64 → NamedAt db seq name → ∃ fi, FileAt x db (splitName name) fi ∧ fi.sequence = seq) ∧
      (∀ path fi, FileAt x db path fi → 0 ≤ fi.sequence ∧ ∃ name, NamedAt db fi.sequence.toNat name) ∧
      (∀ m, (checkMetadata x db).1 = some m → (∀ seq name, seq < 2 ^ 64 → NamedAt db seq name → (seq : ℤ) ≤ m) ∧
        ∀ path fi, FileAt x db path fi → fi.sequence ≤ m) := by
  unfold checkSequences
  simp only [if_true, append_eq_nil_iff, flatMap_eq_nil_iff, hrows.forall_sequence, hrows.forall_file, true_and]
  rw [and_assoc]
  refine and_congr ?_ (and_congr ?_ ?_)
  · refine forall_congr' fun seq => forall_congr' fun name => forall_congr' fun hlt => ?_
    rw [checkSeqRow_eq_nil hlt]
  · refine forall_congr' fun path => forall_congr' fun fi => ?_
    rw [checkFileSeq_eq_nil hrows]
  · cases hm : (checkMetadata x db).1 with
    | none => simp
    | some m =>
      have h₀ : 0 ≤ m := hrows.counter m hm
      simp only [append_eq_nil_iff, ite_eq_right_iff, cons_ne_nil, imp_false, not_lt,
        hrows.maxObservedSeq_le h₀, hrows.maxObservedFileSeq_le h₀, Option.some.injEq, forall_eq']

end

end Clean

/-! ### The compaction -/

def METADATA_SEGMENT_PREFIX : Bytes := [109]

/-- `File::decode`. -/
def Externals.fileValue (x : Externals) (raw : Bytes) : Value :=
  match x.file raw with
  | .ok info => .file (info.map FileRecord.info)
  | .error _ => .empty

/-- `RemoteIndexState::decode`. -/
def Externals.remoteValue (x : Externals) (raw : Bytes) : Value :=
  match x.remoteIndexState raw with
  | .ok state => .remote state
  | .error _ => .empty

def RawDb.computePeerFloor (x : Externals) (db : RawDb) : Except StorageError (Option ℤ) :=
  (minSequence ((db.scanPrefix DEVICE_PREFIX).map fun r => x.remoteValue r.2)).map fun floor =>
    floor.filter (· ≠ 0)

/-- The rows that stay when a compaction has decided on the whole metadata segment.  There the filter has no
errors: they are about block data. -/
def RawDb.compactMetadata (x : Externals) (bl : Blooms) (gc : CompactionState) (f : GcFilter) (db : RawDb) : RawDb where
  rows := db.rows.filter fun r =>
    !METADATA_SEGMENT_PREFIX.isPrefixOf r.1 ||
      match f.filterEntry bl gc r.1 (x.fileValue r.2) with
      | .ok .keep => true
      | _ => false
  sorted := db.sorted.filter _

/-- A complete compaction of the metadata segment while nobody writes, with the floor it pruned below. -/
def RawDb.gcMetadata (x : Externals) (bl : Blooms) (gc : CompactionState) (job : ℕ) (epoch : Epoch)
    (isBottom : Bool) (db : RawDb) : Except StorageError (Option ℤ × RawDb) :=
  (db.computePeerFloor x).map fun floor => (floor, db.compactMetadata x bl gc ⟨job, epoch, floor, isBottom⟩)

/-- At or above the floor, if there is one that sequence rows are pruned below. -/
def AtFloor (floor : Option ℤ) (seq : ℤ) : Prop := ∀ fl, floor = some fl → 0 ≤ fl → fl ≤ seq

instance (floor : Option ℤ) (seq : ℤ) : Decidable (AtFloor floor seq) :=
  match floor with
  | none => isTrue (fun _ h => by cases h)
  | some fl => decidable_of_iff (0 ≤ fl → fl ≤ seq) ⟨fun h _ he h₀ => by cases he; exact h h₀, fun h => h fl rfl⟩

section Compaction

variable {x : Externals} {bl : Blooms} {gc : CompactionState} {f : GcFilter} {db : RawDb} {seq : ℕ} {name : Str}
  {path : Path} {fi : StoredFile}

lemma mem_compactMetadata {k : Key} {raw : Bytes} (hk : k.InRange) (hseg : METADATA_SEGMENT_PREFIX <+: k.encode) :
    (k.encode, raw) ∈ (db.compactMetadata x bl gc f).rows ↔
      (k.encode, raw) ∈ db.rows ∧ f.filter bl gc k (x.fileValue raw) = .ok .keep := by
  have hpre : METADATA_SEGMENT_PREFIX.isPrefixOf k.encode = true := isPrefixOf_iff_prefix.2 hseg
  unfold RawDb.compactMetadata
  rw [mem_filter, filterEntry_encode hk, hpre]
  refine and_congr_right fun _ => ?_
  simp only [Bool.not_true, Bool.false_or]
  split <;> simp_all

lemma pruneDecision_ne_keep : f.pruneDecision ≠ .keep := by
  unfold GcFilter.pruneDecision
  split_ifs <;> simp

lemma namedAt_compactMetadata (hseq : seq < 2 ^ 64) :
    NamedAt (db.compactMetadata x bl gc f) seq name ↔ NamedAt db seq name ∧ AtFloor f.peerFloor seq := by
  unfold NamedAt
  rw [mem_compactMetadata (show (Key.ms seq).InRange from hseq) ⟨_, rfl⟩]
  refine and_congr_right fun _ => ?_
  have hfloor : f.seqBelowFloor seq = false ↔ AtFloor f.peerFloor seq := by
    unfold GcFilter.seqBelowFloor AtFloor
    cases f.peerFloor with
    | none | some => simp
  rw [← hfloor]
  cases hb : f.seqBelowFloor seq <;> simp [GcFilter.filter, hb, pruneDecision_ne_keep]

lemma fileAt_compactMetadata : FileAt x (db.compactMetadata x bl gc f) path fi ↔
      FileAt x db path fi ∧ ¬ (fi.deleted = true ∧ ∃ fl, f.peerFloor = some fl ∧ fi.sequence < fl) := by
  have hkeep : ∀ raw rec, x.file raw = .ok (some rec) → (f.filter bl gc (.mn path) (x.fileValue raw) = .ok .keep ↔
      ¬ (rec.info.deleted = true ∧ ∃ fl, f.peerFloor = some fl ∧ rec.info.sequence < fl)) := by
    intro raw rec hrec
    have hval : (x.fileValue raw).decodeFile = some (some rec.info) := by
      simp [Externals.fileValue, hrec, Value.decodeFile]
    have hbelow : f.deletionBelowFloor (x.fileValue raw) = true ↔
        rec.info.deleted = true ∧ ∃ fl, f.peerFloor = some fl ∧ rec.info.sequence < fl := by
      unfold GcFilter.deletionBelowFloor
      cases f.peerFloor with
      | none => simp
      | some => simp [hval]
    rw [← hbelow]
    cases hb : f.deletionBelowFloor (x.fileValue raw) <;> simp [GcFilter.filter, hb, pruneDecision_ne_keep]
  constructor
  · rintro ⟨raw, rec, hmem, hrec, rfl⟩
    obtain ⟨hold, hf⟩ := (mem_compactMetadata (k := .mn path) trivial ⟨_, rfl⟩).1 hmem
    exact ⟨⟨raw, rec, hold, hrec, rfl⟩, (hkeep raw rec hrec).1 hf⟩
  · rintro ⟨⟨raw, rec, hold, hrec, rfl⟩, hnot⟩
    have hnew := (mem_compactMetadata (k := .mn path) trivial ⟨_, rfl⟩).2 ⟨hold, (hkeep raw rec hrec).2 hnot⟩
    exact ⟨raw, rec, hnew, hrec, rfl⟩

lemma mem_of_compactMetadata {r : Bytes × Bytes} (h : r ∈ (db.compactMetadata x bl gc f).rows) : r ∈ db.rows :=
  (mem_filter.1 h).1

lemma checkMetadata_compactMetadata :
    (checkMetadata x (db.compactMetadata x bl gc f)).1 = (checkMetadata x db).1 := by
  have hget : (db.compactMetadata x bl gc f).get Key.mx.encode = db.get Key.mx.encode := by
    refine Option.ext fun raw => ?_
    rw [RawDb.get_eq_some_iff, RawDb.get_eq_some_iff, mem_compactMetadata (k := .mx) trivial ⟨_, rfl⟩]
    simp [GcFilter.filter]
  simp only [checkMetadata, hget]

lemma IndexRows.compactMetadata (h : IndexRows x db) : IndexRows x (db.compactMetadata x bl gc f) where
  file r hr := h.file r (mem_of_compactMetadata hr)
  sequence r hr := h.sequence r (mem_of_compactMetadata hr)
  counter m hm := h.counter m (checkMetadata_compactMetadata ▸ hm)

/-- **The sequence check accepts what a compaction leaves** exactly when the sequence rows at or above the
floor name files of their number, and no live file is below the floor. -/
theorem gcMetadata_clean_iff {job : ℕ} {epoch : Epoch} {isBottom : Bool} {floor : Option ℤ} {db' : RawDb}
    (hrows : IndexRows x db)
    (hnamed : ∀ path fi, FileAt x db path fi → 0 ≤ fi.sequence ∧ ∃ name, NamedAt db fi.sequence.toNat name)
    (hmax : ∀ m, (checkMetadata x db).1 = some m → (∀ seq name, seq < 2 ^ 64 → NamedAt db seq name → (seq : ℤ) ≤ m) ∧
      ∀ path fi, FileAt x db path fi → fi.sequence ≤ m)
    (hgc : db.gcMetadata x bl gc job epoch isBottom = .ok (floor, db')) :
    checkSequences x db' .full (checkMetadata x db').1 = [] ↔
      (∀ seq name, seq < 2 ^ 64 → NamedAt db seq name → AtFloor floor seq →
        ∃ fi, FileAt x db (splitName name) fi ∧ fi.sequence = seq) ∧
      ∀ path fi, FileAt x db path fi → fi.deleted = false → AtFloor floor fi.sequence := by
  obtain ⟨floor', -, he⟩ := map_eq_ok.1 hgc
  cases he
  have hbound : ∀ path fi, FileAt x db path fi → fi.sequence.toNat < 2 ^ 64 := by
    rintro path _ ⟨raw, rec, hmem, hrec, rfl⟩
    obtain ⟨-, rec', hrec', hle⟩ := hrows.file _ hmem (prefix_append _ _)
    rw [hrec] at hrec'
    cases hrec'
    unfold i64Max at hle
    omega
  rw [checkSequences_eq_nil hrows.compactMetadata, checkMetadata_compactMetadata]
  constructor
  · rintro ⟨hseqs, hfiles, -⟩
    refine ⟨fun seq name hlt hat hfloor => ?_, fun path fi hfi hlive => ?_⟩
    · obtain ⟨fi, hfi, hs⟩ := hseqs seq name hlt ((namedAt_compactMetadata hlt).2 ⟨hat, hfloor⟩)
      exact ⟨fi, (fileAt_compactMetadata.1 hfi).1, hs⟩
    · have hnot : ¬ (fi.deleted = true ∧ ∃ fl, floor = some fl ∧ fi.sequence < fl) := by simp [hlive]
      obtain ⟨h₀, name, hname⟩ := hfiles path fi (fileAt_compactMetadata.2 ⟨hfi, hnot⟩)
      have hat := ((namedAt_compactMetadata (hbound path fi hfi)).1 hname).2
      rwa [Int.toNat_of_nonneg h₀] at hat
  · rintro ⟨hseqs, hlive⟩
    refine ⟨fun seq name hlt hat => ?_, fun path fi hfi => ?_, fun m hm => ⟨fun seq name hlt hat => ?_, ?_⟩⟩
    · obtain ⟨hold, hfloor⟩ := (namedAt_compactMetadata hlt).1 hat
      obtain ⟨fi, hfi, hs⟩ := hseqs seq name hlt hold hfloor
      refine ⟨fi, fileAt_compactMetadata.2 ⟨hfi, ?_⟩, hs⟩
      -- a number at the floor is that of a file at the floor
      rintro ⟨-, fl, hfl, hbelow⟩
      have hle := hfloor fl hfl
      omega
    · obtain ⟨hold, hnot⟩ := fileAt_compactMetadata.1 hfi
      obtain ⟨h₀, name, hname⟩ := hnamed path fi hold
      refine ⟨h₀, name, (namedAt_compactMetadata (hbound path fi hold)).2 ⟨hname, ?_⟩⟩
      rw [Int.toNat_of_nonneg h₀]
      cases hdel : fi.deleted with
      | false => exact hlive path fi hold hdel
      | true =>
        intro fl hfl _
        by_contra hlt
        exact hnot ⟨hdel, fl, hfl, by omega⟩
    · exact (hmax m hm).1 seq name hlt ((namedAt_compactMetadata hlt).1 hat).1
    · intro path fi hfi
      exact (hmax m hm).2 path fi (fileAt_compactMetadata.1 hfi).1

end Compaction

/-! ### Files below and above a floor -/

def sequencedFile (name : Str) (sequence : ℤ) (deleted : Bool) : StoredFile :=
  ⟨name, 0, none, sequence, [], 1, deleted⟩

/-- Decoders for two files, the first of them deleted or not, a peer that has all up to 5 and a counter at 9. -/
def flooredExternals (deleted : Bool) : Externals :=
  { Externals.knowing [([1], ⟨sequencedFile ['a'] 1 deleted, 0, 0⟩), ([2], ⟨sequencedFile ['b'] 7 false, 0, 0⟩)] with
    folderIndexMeta := fun _ => .ok ⟨9, none⟩
    remoteIndexState := fun _ => .ok ⟨1, 5⟩ }

/-- The files `a` at 1 and `b` at 7, with their sequence rows. -/
def flooredKeys : List (Key × Bytes) :=
  [(.md ⟨List.replicate 32 2, length_replicate⟩, []), (fileKey ['a'], [1]), (fileKey ['b'], [2]), (.ms 1, utf8 ['a']),
    (.ms 7, utf8 ['b']), (.mx, [])]

def flooredRows : RawDb := ⟨flooredKeys.map fun p => (p.1.encode, p.2), by decide⟩

lemma inRange_flooredKeys : ∀ p ∈ flooredKeys, p.1.InRange := by
  simp [flooredKeys, fileKey, Key.InRange]

lemma mem_flooredRows {k : Key} {raw : Bytes} (hk : k.InRange) (h : (k.encode, raw) ∈ flooredRows.rows) :
    (k, raw) ∈ flooredKeys := by
  obtain ⟨p, hp, he⟩ := mem_map.1 h
  obtain ⟨hkey, rfl⟩ := Prod.mk.inj he
  rwa [← encode_injOn (inRange_flooredKeys p hp) hk hkey]

section Floored

variable {deleted : Bool}

lemma fileAt_floored {path : Path} {fi : StoredFile} (h : FileAt (flooredExternals deleted) flooredRows path fi) :
    fi = sequencedFile ['a'] 1 deleted ∨ fi = sequencedFile ['b'] 7 false := by
  obtain ⟨raw, rec, hmem, hrec, rfl⟩ := h
  have hkey := mem_flooredRows (k := .mn path) trivial hmem
  simp only [flooredKeys, fileKey, mem_cons, not_mem_nil, or_false, Prod.mk.injEq, reduceCtorEq, false_and,
    false_or] at hkey
  rcases hkey with ⟨-, rfl⟩ | ⟨-, rfl⟩ <;> cases hrec
  · exact .inl rfl
  · exact .inr rfl

lemma namedAt_floored {seq : ℕ} {name : Str} (hlt : seq < 2 ^ 64) (h : NamedAt flooredRows seq name) :
    seq = 1 ∨ seq = 7 ∧ name = ['b'] := by
  have hkey := mem_flooredRows (k := .ms seq) hlt h
  simp only [flooredKeys, fileKey, mem_cons, not_mem_nil, or_false, Prod.mk.injEq, reduceCtorEq, false_and, false_or,
    Key.ms.injEq] at hkey
  exact hkey.imp And.left (And.imp_right fun hn => utf8_injective hn)

lemma indexRows_floored : IndexRows (flooredExternals deleted) flooredRows := by
  have hmem : ∀ {r t}, r ∈ flooredRows.rows → t <+: r.1 → t.length = 2 → ∃ p ∈ flooredKeys, p.1.tag = t ∧
      (p.1.encode, p.2) = r := by
    intro r t hr hpre ht
    obtain ⟨p, hp, rfl⟩ := mem_map.1 hr
    exact ⟨p, hp, (prefix_encode ht).1 hpre, rfl⟩
  refine ⟨fun r hr hpre => ?_, fun r hr hpre => ?_, fun m hm => ?_⟩
  · obtain ⟨p, hp, htag, rfl⟩ := hmem hr hpre rfl
    simp only [flooredKeys, mem_cons, not_mem_nil, or_false] at hp
    rcases hp with rfl | rfl | rfl | rfl | rfl | rfl <;> cases htag
    · exact ⟨⟨_, rfl⟩, _, rfl, by decide +revert⟩
    · exact ⟨⟨_, rfl⟩, _, rfl, by decide⟩
  · obtain ⟨p, hp, htag, rfl⟩ := hmem hr hpre rfl
    simp only [flooredKeys, mem_cons, not_mem_nil, or_false] at hp
    rcases hp with rfl | rfl | rfl | rfl | rfl | rfl <;> cases htag
    · exact ⟨⟨1, by decide, rfl⟩, ['a'], rfl⟩
    · exact ⟨⟨7, by decide, rfl⟩, ['b'], rfl⟩
  · obtain rfl : 9 = m := Option.some.inj hm
    decide

lemma named_floored (path : Path) (fi : StoredFile) (h : FileAt (flooredExternals deleted) flooredRows path fi) :
    0 ≤ fi.sequence ∧ ∃ name, NamedAt flooredRows fi.sequence.toNat name := by
  rcases fileAt_floored h with rfl | rfl
  · exact ⟨zero_le_one, ['a'], by simp [NamedAt, flooredRows, flooredKeys, sequencedFile]⟩
  · exact ⟨by decide, ['b'], by simp [NamedAt, flooredRows, flooredKeys, sequencedFile]⟩

lemma max_floored (m : ℤ) (hm : (checkMetadata (flooredExternals deleted) flooredRows).1 = some m) :
    (∀ seq name, seq < 2 ^ 64 → NamedAt flooredRows seq name → (seq : ℤ) ≤ m) ∧
      ∀ path fi, FileAt (flooredExternals deleted) flooredRows path fi → fi.sequence ≤ m := by
  obtain rfl : 9 = m := Option.some.inj hm
  constructor
  · intro seq name hlt hat
    rcases namedAt_floored hlt hat with rfl | ⟨rfl, -⟩ <;> decide
  · intro path fi hfi
    rcases fileAt_floored hfi with rfl | rfl <;> simp [sequencedFile]

end Floored

/-- **A live file below the floor**: the compaction takes its sequence row, and the check reports that. -/
theorem gcMetadata_reports_live :
    let x := flooredExternals false
    IndexRows x flooredRows ∧
    (∀ path fi, FileAt x flooredRows path fi → 0 ≤ fi.sequence ∧ ∃ name, NamedAt flooredRows fi.sequence.toNat name) ∧
    (∀ m, (checkMetadata x flooredRows).1 = some m →
      (∀ seq name, seq < 2 ^ 64 → NamedAt flooredRows seq name → (seq : ℤ) ≤ m) ∧
      ∀ path fi, FileAt x flooredRows path fi → fi.sequence ≤ m) ∧
    ∃ db', flooredRows.gcMetadata x exactFilters ⟨∅, 0⟩ 0 firstEpoch true = .ok (some 5, db') ∧
      checkSequences x db' .full (checkMetadata x db').1 ≠ [] :=
  ⟨indexRows_floored, named_floored, max_floored, _, rfl, by decide⟩

/-- With `a` deleted instead, the check is clean. -/
theorem gcMetadata_clean_deleted :
    let x := flooredExternals true
    ∃ db', flooredRows.gcMetadata x exactFilters ⟨∅, 0⟩ 0 firstEpoch true = .ok (some 5, db') ∧
      checkSequences x db' .full (checkMetadata x db').1 = [] := by
  intro x
  refine ⟨_, rfl, (gcMetadata_clean_iff indexRows_floored named_floored max_floored rfl).2
    ⟨fun seq name hlt hat hfloor => ?_, fun path fi hfi hlive => ?_⟩⟩
  · rcases namedAt_floored hlt hat with rfl | ⟨rfl, rfl⟩
    · exact absurd (hfloor 5 rfl (by decide)) (by decide)
    · exact ⟨_, ⟨[2], ⟨sequencedFile ['b'] 7 false, 0, 0⟩, by simp [flooredRows, flooredKeys, fileKey], rfl, rfl⟩, rfl⟩
  · rcases fileAt_floored hfi with rfl | rfl
    · cases hlive
    · decide

end Bepository.Storage
