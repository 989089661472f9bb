import Bepository.Storage.Parsers
import Bepository.Storage.Liveness
import Bepository.Storage.Machine

/-!
# A compaction without writers

`filterEntry` is `GcFilter::filter` on the bytes of a row's key: an ordered chain of parsers.  On the
keys of the layout it decides as `GcFilter.filter` does by the kind of the key.  A job that runs while
nobody writes leaves what readers of committed files can see.
-/

namespace Bepository.Storage

open Lib List Option

/-! ### The filter on bytes -/

/-- `GcFilter::filter`. -/
def GcFilter.filterEntry (bl : Blooms) (gc : CompactionState) (f : GcFilter) (key : Bytes) (v : Value) :
    Except CompactionFilterError Decision :=
  if BLOCK_DATA_PREFIX.isPrefixOf key then
    match parseBlockDataSeqKey key with
    | none => .error (.filterError s!"corrupted bd key width/value: {(hexEncode key).toString}")
    | some seq =>
      if !gc.knownLiveSeqContains bl f.job seq then .ok f.pruneDecision else .ok .keep
  else
    match parseBlockPointerKey key with
    | some hash =>
      if !gc.knownLiveHashContains bl f.job hash then .ok f.pruneDecision else .ok .keep
    | none =>
      match parseBlockReverseKey key with
      | some (hash, _) =>
        if !gc.knownLiveHashContains bl f.job hash then .ok f.pruneDecision else .ok .keep
      | none =>
        match parseInboxKey key with
        | some (epoch, _) => if epoch < f.epoch then .ok f.pruneDecision else .ok .keep
        | none =>
          match parseSeqKey key with
          | some seq => if f.seqBelowFloor seq then .ok f.pruneDecision else .ok .keep
          | none =>
            match parseFileKey key with
            | some _ => if f.deletionBelowFloor v then .ok f.pruneDecision else .ok .keep
            -- everything else (`mx`, `md`)
            | none => .ok .keep

/-- The branches of `GcFilter::filter`, with what it has parsed. -/
inductive KeyClass where
  | corrupted
  | blockData (seq : ℕ)
  | blockPointer (hash : Bytes32)
  | blockReverse (hash : Bytes32) (name : Str)
  | inbox (epoch : Epoch) (name : Str)
  | sequence (seq : ℕ)
  | file (name : Str)
  | other
  deriving DecidableEq

/-- The branch that `GcFilter::filter` takes for a key. -/
def chainClass (key : Bytes) : KeyClass :=
  if BLOCK_DATA_PREFIX.isPrefixOf key then
    match parseBlockDataSeqKey key with
    | none => .corrupted
    | some seq => .blockData seq
  else
    match parseBlockPointerKey key with
    | some hash => .blockPointer hash
    | none =>
      match parseBlockReverseKey key with
      | some (hash, name) => .blockReverse hash name
      | none =>
        match parseInboxKey key with
        | some (epoch, name) => .inbox epoch name
        | none =>
          match parseSeqKey key with
          | some seq => .sequence seq
          | none =>
            match parseFileKey key with
            | some name => .file name
            | none => .other

def GcFilter.decideClass (bl : Blooms) (gc : CompactionState) (f : GcFilter) (key : Bytes) (v : Value) :
    KeyClass → Except CompactionFilterError Decision
  | .corrupted => .error (.filterError s!"corrupted bd key width/value: {(hexEncode key).toString}")
  | .blockData seq => if gc.knownLiveSeqContains bl f.job seq then .ok .keep else .ok f.pruneDecision
  | .blockPointer hash => if gc.knownLiveHashContains bl f.job hash then .ok .keep else .ok f.pruneDecision
  | .blockReverse hash _ => if gc.knownLiveHashContains bl f.job hash then .ok .keep else .ok f.pruneDecision
  | .inbox epoch _ => if epoch < f.epoch then .ok f.pruneDecision else .ok .keep
  | .sequence seq => if f.seqBelowFloor seq then .ok f.pruneDecision else .ok .keep
  | .file _ => if f.deletionBelowFloor v then .ok f.pruneDecision else .ok .keep
  | .other => .ok .keep

def Key.cls : Key → KeyClass
  | .bd seq => if seq < MIN_BLOCK_SEQ then .corrupted else .blockData seq
  | .mb _ hash => .blockPointer hash
  | .mr hash path => .blockReverse hash (joinName path)
  | .mi epoch path => .inbox epoch (joinName path)
  | .ms seq => .sequence seq
  | .mn path => .file (joinName path)
  | .md _ | .mx => .other

section Chain

variable {bl : Blooms} {gc : CompactionState} {f : GcFilter} {k : Key} {v : Value}

lemma not_blockData (h : k.tag ≠ BLOCK_DATA_PREFIX) : ¬ BLOCK_DATA_PREFIX.isPrefixOf k.encode = true := by
  rw [isPrefixOf_encode_of_ne rfl h]
  decide

lemma prune_unless {known : Bool} {d : Decision} :
    (if !known then .ok d else .ok .keep : Except CompactionFilterError Decision) =
      if known then .ok .keep else .ok d := by
  cases known <;> rfl

theorem filterEntry_eq_decideClass {key : Bytes} :
    f.filterEntry bl gc key v = f.decideClass bl gc key v (chainClass key) := by
  unfold GcFilter.filterEntry chainClass
  by_cases hd : BLOCK_DATA_PREFIX.isPrefixOf key = true
  · rw [if_pos hd, if_pos hd]
    cases parseBlockDataSeqKey key with
    | none => rfl
    | some => exact prune_unless
  · rw [if_neg hd, if_neg hd]
    cases parseBlockPointerKey key with
    | some => exact prune_unless
    | none =>
      cases parseBlockReverseKey key with
      | some => exact prune_unless
      | none =>
        cases parseInboxKey key with
        | some => rfl
        | none =>
          cases parseSeqKey key with
          | some => rfl
          | none => cases parseFileKey key <;> rfl

/-- **Every key is of its own kind**, whatever bytes its name and its hash hold: the tags differ, so no parser
before its own takes it. -/
lemma chainClass_encode (h : k.InRange) : chainClass k.encode = k.cls := by
  unfold chainClass
  cases k with
  | bd seq =>
    rw [if_pos (show BLOCK_DATA_PREFIX.isPrefixOf (Key.bd seq).encode = true from rfl), parseBlockDataSeqKey_bd h]
    by_cases hs : seq < MIN_BLOCK_SEQ
    · rw [if_pos hs, Key.cls, if_pos hs]
    · rw [if_neg hs, Key.cls, if_neg hs]
  | mb =>
    rw [if_neg (not_blockData (by simp [Key.tag, BLOCK_DATA_PREFIX])), parseBlockPointerKey_mb]
    rfl
  | mr =>
    rw [if_neg (not_blockData (by simp [Key.tag, BLOCK_DATA_PREFIX])),
      parseBlockPointerKey_of_ne (by simp [Key.tag, BLOCK_PREFIX]), parseBlockReverseKey_mr]
    rfl
  | mi =>
    rw [if_neg (not_blockData (by simp [Key.tag, BLOCK_DATA_PREFIX])),
      parseBlockPointerKey_of_ne (by simp [Key.tag, BLOCK_PREFIX]),
      parseBlockReverseKey_of_ne (by simp [Key.tag, BLOCK_REV_PREFIX]), parseInboxKey_mi]
    rfl
  | ms =>
    rw [if_neg (not_blockData (by simp [Key.tag, BLOCK_DATA_PREFIX])),
      parseBlockPointerKey_of_ne (by simp [Key.tag, BLOCK_PREFIX]),
      parseBlockReverseKey_of_ne (by simp [Key.tag, BLOCK_REV_PREFIX]),
      parseInboxKey_of_ne (by simp [Key.tag, INBOX_PREFIX]), parseSeqKey_ms h]
    rfl
  | mn =>
    rw [if_neg (not_blockData (by simp [Key.tag, BLOCK_DATA_PREFIX])),
      parseBlockPointerKey_of_ne (by simp [Key.tag, BLOCK_PREFIX]),
      parseBlockReverseKey_of_ne (by simp [Key.tag, BLOCK_REV_PREFIX]),
      parseInboxKey_of_ne (by simp [Key.tag, INBOX_PREFIX]),
      parseSeqKey_of_ne (by simp [Key.tag, SEQ_PREFIX]), parseFileKey_mn]
    rfl
  | md =>
    rw [if_neg (not_blockData (by simp [Key.tag, BLOCK_DATA_PREFIX])),
      parseBlockPointerKey_of_ne (by simp [Key.tag, BLOCK_PREFIX]),
      parseBlockReverseKey_of_ne (by simp [Key.tag, BLOCK_REV_PREFIX]),
      parseInboxKey_of_ne (by simp [Key.tag, INBOX_PREFIX]),
      parseSeqKey_of_ne (by simp [Key.tag, SEQ_PREFIX]), parseFileKey_of_ne (by simp [Key.tag, FILE_PREFIX])]
    rfl
  | mx => decide

/-- **Every key is decided as one of its own kind.** -/
theorem filterEntry_encode (h : k.InRange) : f.filterEntry bl gc k.encode v = f.filter bl gc k v := by
  rw [filterEntry_eq_decideClass, chainClass_encode h]
  cases k with
  | bd seq =>
    by_cases hs : seq < MIN_BLOCK_SEQ
    · rw [GcFilter.filter, Key.cls, if_pos hs, if_pos hs, GcFilter.decideClass]
    · rw [GcFilter.filter, Key.cls, if_neg hs, if_neg hs, GcFilter.decideClass]
  | _ => rfl

end Chain

/-! ### One job -/

/-- The rows that the filter decides against; an error aborts the compaction. -/
def GcFilter.filterRows (bl : Blooms) (gc : CompactionState) (f : GcFilter) :
    List (Key × Row) → Except CompactionFilterError (List (Key × Row))
  | [] => .ok []
  | r :: rows =>
    match f.filterEntry bl gc r.1.encode r.2.val with
    | .error e => .error e
    | .ok d => (filterRows bl gc f rows).map fun pruned => if d = .keep then pruned else r :: pruned

def Db.snapshot (db : Db) : List (Bytes × Value) := db.scan.map fun r => (r.1.encode, r.2.val)

/-- A key as the store builds it: its numbers fit, and no block has a number below the first. -/
def Key.WellFormed : Key → Prop
  | .bd seq => MIN_BLOCK_SEQ ≤ seq ∧ seq < 2 ^ 64
  | .ms seq => seq < 2 ^ 64
  | _ => True

instance : DecidablePred Key.WellFormed
  | .bd seq => inferInstanceAs (Decidable (MIN_BLOCK_SEQ ≤ seq ∧ seq < 2 ^ 64))
  | .ms seq => inferInstanceAs (Decidable (seq < 2 ^ 64))
  | .mb .. | .mr .. | .mn _ | .mi .. | .md _ | .mx => isTrue trivial

lemma Key.WellFormed.inRange {k : Key} (h : k.WellFormed) : k.InRange := by
  cases k with
  | bd => exact h.2
  | _ => exact h

/-- What readers of committed files see in `db` is in `db'` as well, and so are the store's own
records, the deletions some peer has yet to learn of and the entries staged in the epoch. -/
structure Unchanged (db db' : Db) (epoch : Epoch) (floor : Option ℤ) : Prop where
  file : ∀ path v fi, db.get (.mn path) = some v → v.decodeFile = some (some fi) → fi.deleted = false →
    db'.get (.mn path) = some v ∧
      ∀ block ∈ fi.blocks, resolveBlockData db' block = resolveBlockData db block
  indexMeta : db'.get .mx = db.get .mx
  device : ∀ device, db'.get (.md device) = db.get (.md device)
  deletion : ∀ path v fi, db.get (.mn path) = some v → v.decodeFile = some (some fi) →
    fi.deleted = true → (∀ fl, floor = some fl → fl ≤ fi.sequence) → db'.get (.mn path) = some v
  staged : ∀ e path, epoch ≤ e → db'.get (.mi e path) = db.get (.mi e path)

section Job

variable {bl : Blooms} {gc : CompactionState} {f : GcFilter} {sources pruned : List (Key × Row)}
  {db : Db} {k : Key} {v : Value}

lemma mem_filterRows (h : f.filterRows bl gc sources = .ok pruned) {r : Key × Row} (hr : r ∈ pruned) :
    r ∈ sources ∧ f.filterEntry bl gc r.1.encode r.2.val ≠ .ok .keep := by
  induction sources generalizing pruned with
  | nil =>
    cases h
    exact absurd hr not_mem_nil
  | cons s sources ih =>
    unfold GcFilter.filterRows at h
    split at h
    · cases h
    · next d hd =>
      obtain ⟨rows, hrows, he⟩ := map_eq_ok.1 h
      subst he
      by_cases hk : d = .keep
      · rw [if_pos hk] at hr
        exact (ih hrows hr).imp_left (mem_cons_of_mem s)
      · rw [if_neg hk] at hr
        rcases mem_cons.1 hr with rfl | hr
        · refine ⟨mem_cons_self, fun he => hk ?_⟩
          exact Except.ok.inj (hd.symm.trans he)
        · exact (ih hrows hr).imp_left (mem_cons_of_mem s)

lemma filterEntry_ok (bl : Blooms) (gc : CompactionState) (f : GcFilter) (v : Value)
    (hk : k.WellFormed) : ∃ d, f.filterEntry bl gc k.encode v = .ok d := by
  rw [filterEntry_encode hk.inRange]
  unfold GcFilter.filter
  cases k with
  | bd seq =>
    have hs : ¬ seq < MIN_BLOCK_SEQ := not_lt.2 hk.1
    simp only [hs, if_false]
    split_ifs <;> exact ⟨_, rfl⟩
  | md | mx => exact ⟨_, rfl⟩
  | _ =>
    simp only
    split_ifs <;> exact ⟨_, rfl⟩

lemma filterRows_ok (bl : Blooms) (gc : CompactionState) (f : GcFilter) (hs : ∀ r ∈ sources, r.1.WellFormed) :
    ∃ pruned, f.filterRows bl gc sources = .ok pruned := by
  induction sources with
  | nil => exact ⟨[], rfl⟩
  | cons r sources ih =>
    obtain ⟨rows, hrows⟩ := ih fun r hr => hs r (mem_cons_of_mem _ hr)
    obtain ⟨d, hd⟩ := filterEntry_ok bl gc f r.2.val (hs r mem_cons_self)
    refine ⟨if d = .keep then rows else r :: rows, ?_⟩
    rw [GcFilter.filterRows, hd, hrows]
    rfl

section

variable (hs : ∀ r ∈ sources, r.1.WellFormed) (h : f.filterRows bl gc sources = .ok pruned)
include hs h

lemma get_prune_filterRows (hget : db.get k = some v) (hkeep : f.filter bl gc k v = .ok .keep) :
    (db.prune pruned).get k = some v := by
  refine get_prune hget fun r hr hk hv => ?_
  obtain ⟨hmem, hne⟩ := mem_filterRows h hr
  rw [filterEntry_encode (hs r hmem).inRange, hk, hv] at hne
  exact hne hkeep

lemma get_prune_filterRows_eq (hkeep : ∀ v, f.filter bl gc k v = .ok .keep) :
    (db.prune pruned).get k = db.get k :=
  ext fun v => ⟨get_of_prune, fun hv => get_prune_filterRows hs h hv (hkeep v)⟩

lemma resolveBlockData_prune {block : StoredBlock}
    (hlive : ∀ seq, block.blockseq = some seq → gc.knownLiveSeqContains bl f.job seq = true) :
    resolveBlockData (db.prune pruned) block = resolveBlockData db block := by
  unfold resolveBlockData
  cases block.inlineData with
  | some => rfl
  | none =>
    cases hq : block.blockseq with
    | none => rfl
    | some seq =>
      by_cases hmin : seq < MIN_BLOCK_SEQ
      · simp only [validateBlockSeq, hmin, if_true]
      · have hget : (db.prune pruned).get (.bd seq) = db.get (.bd seq) := by
          refine get_prune_filterRows_eq hs h fun v => ?_
          simp only [GcFilter.filter, hmin, if_false, hlive seq hq, if_true]
        simp only [hget]

end

end Job

section Quiescent

variable {bl : Blooms} {gc : CompactionState} {db : Db} {epoch : Epoch} {job : ℕ} {isBottom : Bool}
  {j : CompactionJobState} {floor : Option ℤ} {sources : List (Key × Row)}

lemma knownLiveSeq_of_committed (hc : createCompactionFilter db.snapshot db epoch [] = .ok (j, floor))
    (hj : gc.jobs.lookup job = some j) {path : Path} {v : Value} {fi : StoredFile}
    (hget : db.get (.mn path) = some v) (hv : v.decodeFile = some (some fi)) {block : StoredBlock}
    (hb : block ∈ fi.blocks) {seq : ℕ} (hseq : block.blockseq = some seq) :
    gc.knownLiveSeqContains bl job seq = true := by
  obtain ⟨r, hr, rfl⟩ := Db.get_eq_some.1 hget
  have hrow : ((Key.mn path).encode, r.val) ∈ db.snapshot :=
    List.mem_map.2 ⟨(.mn path, r), Db.mem_scan.2 hr, rfl⟩
  have href : (block.hash, seq) ∈ liveRefs fi := mem_filterMap.2 ⟨block, hb, by rw [hseq, map_some]⟩
  have hknown : Known db.snapshot epoch [] (block.hash, seq) :=
    .inl ⟨_, hrow, .inr (prefix_append _ _), fi, hv, href⟩
  obtain ⟨-, -, -, hmem⟩ := mem_of_known hc hknown
  rw [CompactionState.knownLiveSeqContains, hj, all_some]
  exact bl.seqs.mem _ _ hmem

/-- **A compaction without writers is invisible to readers of committed files.**  The filter of a job
that scanned the store as it is decides on all rows it is given, be they the store's or ones that later
writes hide; what it prunes is nothing that readers see. -/
theorem compaction_invisible (hs : ∀ r ∈ sources, r.1.WellFormed)
    (hc : createCompactionFilter db.snapshot db epoch [] = .ok (j, floor)) (hj : gc.jobs.lookup job = some j) :
    ∃ pruned, GcFilter.filterRows bl gc ⟨job, epoch, floor, isBottom⟩ sources = .ok pruned ∧
      Unchanged db (db.prune pruned) epoch floor := by
  obtain ⟨pruned, h⟩ := filterRows_ok bl gc ⟨job, epoch, floor, isBottom⟩ hs
  refine ⟨pruned, h, ?_, ?_, ?_, ?_, ?_⟩
  · intro path v fi hget hv hdel
    refine ⟨get_prune_filterRows hs h hget ?_, fun block hb => ?_⟩
    · have hk : GcFilter.deletionBelowFloor ⟨job, epoch, floor, isBottom⟩ v = false := by
        cases floor <;> simp [GcFilter.deletionBelowFloor, hv, hdel]
      simp only [GcFilter.filter, hk, if_false, Bool.false_eq_true]
    · exact resolveBlockData_prune hs h fun seq hseq => knownLiveSeq_of_committed hc hj hget hv hb hseq
  · exact get_prune_filterRows_eq hs h fun v => rfl
  · exact fun device => get_prune_filterRows_eq hs h fun v => rfl
  · intro path v fi hget hv hdel hfloor
    refine get_prune_filterRows hs h hget ?_
    have hk : GcFilter.deletionBelowFloor ⟨job, epoch, floor, isBottom⟩ v = false := by
      cases floor with
      | none => rfl
      | some fl => simp [GcFilter.deletionBelowFloor, hv, hdel, hfloor fl rfl]
    simp only [GcFilter.filter, hk, if_false, Bool.false_eq_true]
  · intro e path he
    refine get_prune_filterRows_eq hs h fun v => ?_
    simp only [GcFilter.filter, not_lt.2 he, if_false]

end Quiescent

def secondEpoch : Epoch := ⟨1, by decide⟩

/-- A store with something of everything: a committed file and its block, a block of no file, a file
deleted before and one deleted after what the only peer has, and entries staged in two epochs. -/
def cluttered : Db :=
  Db.empty.write
    [.put (fileKey ['g']) (.file (some (numberedFile ['g']))),
     .put (.bd 1024) (.data [7]),
     .put (.bd 1025) (.data [8]),
     .put (fileKey ['h']) (.file (some ⟨['h'], 0, none, 3, [], 1, true⟩)),
     .put (fileKey ['i']) (.file (some ⟨['i'], 0, none, 9, [], 1, true⟩)),
     .put (inboxKey firstEpoch ['j']) (.file (some (numberedFile ['j']))),
     .put (inboxKey secondEpoch nestedName) (.file (some (numberedFile nestedName))),
     .put (.md ⟨List.replicate 32 2, rfl⟩) (.remote ⟨1, 5⟩), .put .mx (.indexMeta ⟨9, some 1280⟩)]

theorem compaction_invisible_cluttered :
    (∀ r ∈ cluttered.scan, r.1.WellFormed) ∧
    ∃ j floor, createCompactionFilter cluttered.snapshot cluttered secondEpoch [] = .ok (j, floor) ∧
      ∃ pruned, GcFilter.filterRows exactFilters ⟨AList.insert 1 j ∅, 2⟩ ⟨1, secondEpoch, floor, true⟩
          cluttered.scan = .ok pruned ∧
        Unchanged cluttered (cluttered.prune pruned) secondEpoch floor := by
  have hs : ∀ r ∈ cluttered.scan, r.1.WellFormed := by decide
  have hc : createCompactionFilter cluttered.snapshot cluttered secondEpoch [] =
      .ok (⟨[⟨List.replicate 32 0, rfl⟩], [1024]⟩, some 5) := by
    rfl
  exact ⟨hs, _, _, hc, compaction_invisible hs hc (AList.lookup_insert _)⟩

end Bepository.Storage
