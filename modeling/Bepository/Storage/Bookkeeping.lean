import Bepository.Storage.Allocation

/-!
# The index under failures and crashes

A call reads an entry, computes a new one and writes it back.  The name lock keeps the entry that the call
has in hand current (`PcCurrent`), so every write of an entry is computed from the entry that it replaces
(`Rewrites`): a pointer is set in it, or a new version takes over its pointers.  With the two counters,
which only grow, and the correspondence of entries and sequence rows, which every state in the history
has, this is the bookkeeping of the index.
-/

namespace Bepository.Storage

open Lib List Option Table

/-! ### Entries in hand -/

/-- What is to be committed: a file that came with the call, or the staged entry, which the batch
deletes. -/
def Brings (epoch : Epoch) (db : Db) (name : Str) (stored : StoredFile) (batch : WriteBatch) : Prop :=
  (∀ e p, .delete (.mi e p) ∉ batch) ∨
    entryAt db (inboxKey epoch name) = some stored ∧ .delete (inboxKey epoch name) ∈ batch ∧
      ∀ e p, .delete (.mi e p) ∈ batch → Key.mi e p = inboxKey epoch name

def Pc.Unread (name : Str) : Pc → Prop
  | .commitRead _ batch _ => ∀ e p, .delete (.mi e p) ∉ batch
  | .stagePut file => file.name = name
  | .readInbox _ => True
  | .checkSafe .. => True
  | .readStaged .. => True
  | _ => False

def PcCurrent (epoch : Epoch) (db : Db) (name : Str) : Pc → Prop
  | .wait pc => pc.Unread name
  | .commitRead stored batch _ => Brings epoch db name stored batch
  | .commitWrite stored batch _ =>
    ∃ new, stored = withPointers new (entryAt db (fileKey name)) ∧ Brings epoch db name new batch
  | .stagePut file => file.name = name
  | .readCommitted staged => entryAt db (inboxKey epoch name) = some staged
  | .write _ _ entry => entryAt db entry.2 = some entry.1 ∧
      (entry.2 = inboxKey epoch name ∨ entry.2 = fileKey name)
  | _ => True

def AfterCurrent (epoch : Epoch) (db : Db) (name : Str) : After → Prop
  | .go pc => PcCurrent epoch db name pc
  | .done _ => True

/-- How a step of a call on the name changes the entries. -/
inductive Rewrites (epoch : Epoch) (name : Str) (pc : Pc) (db db' : Db) : Prop where
  | same (h : SameEntries db db')
  | pointed k fi hash seq data (hk : k = inboxKey epoch name ∨ k = fileKey name)
      (hfi : entryAt db k = some fi) (hset : (seq.isSome || data.isSome) = true)
      (h : ∀ k', k'.holdsFile = true → entryAt db' k' =
        if k' = k then some (pointBlocks hash seq data fi) else entryAt db k')
  | staged file (hpc : pc = .stagePut file) (h : ∀ k', entryAt db' k' =
        if k' = inboxKey epoch name then some file.toStored else entryAt db k')
  | committed new (h : Replaced db db' name new fun _ => False)
  | completed new (hs : entryAt db (inboxKey epoch name) = some new)
      (h : Replaced db db' name new (· = inboxKey epoch name))

section Entries

variable {epoch : Epoch} {name : Str} {db db' : Db} {st st' : Store} {pc : Pc} {aft : After}

lemma PcCurrent.of_unlocked (h : PcCurrent epoch db name pc) (hl : pc.locked = false) :
    PcCurrent epoch db' name pc := by
  cases pc with
  | readSource => trivial
  | wait => exact h
  | _ => cases hl

lemma PcCurrent.frame (h : PcCurrent epoch db name pc)
    (hi : entryAt db' (inboxKey epoch name) = entryAt db (inboxKey epoch name))
    (hf : entryAt db' (fileKey name) = entryAt db (fileKey name)) : PcCurrent epoch db' name pc := by
  have hbrings : ∀ stored batch, Brings epoch db name stored batch → Brings epoch db' name stored batch := by
    intro stored batch hb
    refine hb.imp_right fun hb => ?_
    rw [hi]
    exact hb
  cases pc with
  | commitRead stored batch => exact hbrings stored batch h
  | commitWrite stored batch =>
    obtain ⟨new, hst, hb⟩ := h
    exact ⟨new, by rw [hf]; exact hst, hbrings new batch hb⟩
  | readCommitted => exact hi.trans h
  | write =>
    obtain ⟨hget, hk⟩ := h
    refine ⟨?_, hk⟩
    rcases hk with hk | hk
    · rw [hk] at hget ⊢
      exact hi.trans hget
    · rw [hk] at hget ⊢
      exact hf.trans hget
  | _ => exact h

lemma Pc.Unread.current (h : pc.Unread name) : PcCurrent epoch db name pc := by
  cases pc with
  | commitRead => exact .inl h
  | stagePut => exact h
  | readInbox | checkSafe | readStaged => trivial
  | _ => exact h.elim

lemma Pc.Searching.current {hash : Bytes32} {data : Option Bytes} (h : pc.Searching hash data) :
    PcCurrent epoch db name pc := by
  cases h <;> trivial

lemma afterCurrent_recordNext (recs : List (Bytes32 × ℕ)) : AfterCurrent epoch db name (recordNext recs) := by
  cases recs <;> trivial

lemma start_unread {op : Op} {c : Call} (h : op.start = some c) : ∀ db, PcCurrent epoch db c.name c.pc := by
  cases op with
  | putFile =>
    cases h
    exact fun _ _ _ => not_mem_nil
  | putFileWithCarry | completeFile => cases h; exact fun _ => trivial
  | stageFile => cases h; exact fun _ => rfl
  | storeBlock name hash =>
    obtain ⟨hash, -, rfl⟩ := map_eq_some_iff.1 h
    split <;> exact fun _ => trivial
  | reuseBlock =>
    obtain ⟨hash, -, rfl⟩ := map_eq_some_iff.1 h
    exact fun _ => trivial

lemma entryAt_write_bookkeeping {batch : WriteBatch} {k : Key} (hk : k.holdsFile = true)
    (hb : ∀ op ∈ batch, op.bookkeeping = true) :
    entryAt (db.write batch) k = if .delete k ∈ batch then none else entryAt db k := by
  unfold entryAt
  rw [Db.get_write, lastOp_bookkeeping (by rintro _ _ rfl; cases hk) hb]
  split_ifs <;> rfl

/-- **Entries through a step**: what is written is computed from the entries that are there. -/
theorem Pc.Steps.rewrites (hs : pc.Steps epoch name st st' aft) (hf : pc.Formed epoch)
    (hcur : PcCurrent epoch st.db name pc) : Rewrites epoch name pc st.db st'.db := by
  cases hs with
  | commitWrite hw =>
    obtain ⟨new, rfl, hb⟩ := hcur
    obtain ⟨q, -, hent⟩ := commitWrite_entries hw
    rcases hb with hno | ⟨hstaged, hdel, honly⟩
    · refine .committed new ⟨q, fun k hk => ⟨fun he => ?_, fun _ hg => hg.elim, fun hne _ => ?_⟩⟩
      · rw [hent k hk, if_pos he]
      · rw [hent k hk, if_neg hne, entryAt_write_bookkeeping hk hf, if_neg]
        intro hd
        cases k with
        | mi e p => exact hno e p hd
        | mn =>
          have := hf _ hd
          cases this
        | _ => cases hk
    · refine .completed new hstaged ⟨q, fun k hk => ⟨fun he => ?_, fun hne hg => ?_, fun hne hg => ?_⟩⟩
      · rw [hent k hk, if_pos he]
      · rw [hent k hk, if_neg hne, entryAt_write_bookkeeping hk hf, if_pos]
        rw [hg]
        exact hdel
      · rw [hent k hk, if_neg hne, entryAt_write_bookkeeping hk hf, if_neg]
        intro hd
        cases k with
        | mi e p => exact hg (honly e p hd)
        | mn =>
          have := hf _ hd
          cases this
        | _ => cases hk
  | @stagePut file =>
    refine .staged file rfl fun k => ?_
    have hn : file.name = name := hcur
    rw [← hn]
    exact stageFile_entries
  | allocate ha => exact .same (allocate_entries ha)
  | @write hash link entry _ hl =>
    obtain ⟨hget, hk⟩ := hcur
    exact .pointed entry.2 entry.1 hash.1 link.seq link.inlineData hk hget link.provides
      fun k hk => entryAt_linkBatch hl hk
  | _ => exact .same SameEntries.refl

lemma Pc.Steps.current (hs : pc.Steps epoch name st st' aft) (hcur : PcCurrent epoch st.db name pc) :
    AfterCurrent epoch st'.db name aft := by
  cases hs with
  | stop | stagePut | pointer | hit | allocate | toMain => trivial
  | waiting => exact hcur
  | readSource => exact fun _ _ => delete_not_mem_carryFromSource
  | @commitRead stored batch _ _ _ hr =>
    obtain ⟨hst, dels, rfl, hdels⟩ := commitRead_entries hr
    -- the rows deleted besides are not entries
    have hmem : ∀ e p, .delete (.mi e p) ∈ batch ++ dels ↔ .delete (.mi e p) ∈ batch := by
      intro e p
      rw [mem_append, or_iff_left]
      intro hd
      obtain ⟨q, hq⟩ := hdels _ hd
      cases hq
    refine ⟨stored, hst, ?_⟩
    rcases hcur with hno | ⟨hstaged, hdel, honly⟩
    · exact .inl fun e p hd => hno e p ((hmem e p).1 hd)
    · exact .inr ⟨hstaged, mem_append_left _ hdel, fun e p hd => honly e p ((hmem e p).1 hd)⟩
  | @commitWrite _ _ carried => exact afterCurrent_recordNext carried
  | readInbox hr => exact readStaged_entryAt hr
  | readCommitted =>
    refine .inr ⟨hcur, mem_singleton_self _, fun e p hd => ?_⟩
    have := mem_singleton.1 hd
    injection this
  | search _ h' => exact h'.current
  | inboxEntry he =>
    obtain ⟨hk, hget⟩ := findInboxEntry_eq_some he
    rw [← hk] at hget
    exact ⟨entryAt_eq_some.2 hget, .inl hk⟩
  | mainEntry he =>
    obtain ⟨hk, hget⟩ := findMainEntry_eq_ok he
    rw [← hk] at hget
    exact ⟨entryAt_eq_some.2 hget, .inr hk⟩
  | write => exact afterCurrent_recordNext _
  | @record _ _ recs => exact afterCurrent_recordNext recs

lemma Rewrites.frame (h : Rewrites epoch name pc db db') {name' : Str} (hn : splitName name' ≠ splitName name) :
    entryAt db' (inboxKey epoch name') = entryAt db (inboxKey epoch name') ∧
      entryAt db' (fileKey name') = entryAt db (fileKey name') := by
  have hi : inboxKey epoch name' ≠ inboxKey epoch name := fun he => hn (inboxKey_inj.1 he)
  have hf : fileKey name' ≠ fileKey name := fun he => hn (Key.mn.inj he)
  cases h with
  | same h => exact ⟨h _ rfl, h _ rfl⟩
  | pointed k fi hash seq data hk hfi hset h =>
    rw [h _ rfl, h _ rfl]
    rcases hk with rfl | rfl
    · exact ⟨if_neg hi, if_neg (by rintro ⟨⟩)⟩
    · exact ⟨if_neg (by rintro ⟨⟩), if_neg hf⟩
  | staged file hpc h =>
    rw [h, h]
    exact ⟨if_neg hi, if_neg (by rintro ⟨⟩)⟩
  | committed new h =>
    obtain ⟨q, h⟩ := h
    exact ⟨(h _ rfl).2.2 (by rintro ⟨⟩) id, (h _ rfl).2.2 hf id⟩
  | completed new hs h =>
    obtain ⟨q, h⟩ := h
    exact ⟨(h _ rfl).2.2 (by rintro ⟨⟩) hi, (h _ rfl).2.2 hf (by rintro ⟨⟩)⟩

end Entries

/-! ### Pointers -/

/-- The file has blocks with this hash, and all of them have pointers. -/
def Backed (fi : StoredFile) (hash : Bytes) : Prop := (∃ b ∈ fi.blocks, b.hash = hash) ∧ ¬ Lacks fi hash

section Pointers

variable {epoch : Epoch} {name : Str} {db db' : Db} {pc : Pc} {fi new : StoredFile} {hash : Bytes}

lemma Lacks.of_pointBlocks {h : Bytes} {seq : Option ℕ} {data : Option Bytes}
    (hset : (seq.isSome || data.isSome) = true) (hl : Lacks (pointBlocks h seq data fi) hash) :
    Lacks fi hash := by
  obtain ⟨b, hb, hnone, rfl⟩ := hl
  obtain ⟨b₀, hb₀, rfl⟩ := List.mem_map.1 hb
  split_ifs at hnone ⊢ with he
  · simp only [StoredBlock.hasPointer, hset] at hnone
    cases hnone
  · exact ⟨b₀, hb₀, hnone, rfl⟩

lemma Backed.withPointers (h : Backed fi hash) : ¬ Lacks (withPointers new (some fi)) hash := by
  intro hl
  obtain ⟨⟨b, hb, hh⟩, hno⟩ := h
  have hnone := (lacks_withPointers hl).2 fi rfl b hb hh
  exact hno ⟨b, hb, hnone, hh⟩

/-- An entry keeps its pointers, except where its file is staged again; an entry that is completed leaves them
to the committed one. -/
lemma Rewrites.keeps (h : Rewrites epoch name pc db db') {k : Key} (hk : k.holdsFile = true)
    (hfi : entryAt db k = some fi) (hb : Backed fi hash) :
    (∃ fi', entryAt db' k = some fi' ∧ ¬ Lacks fi' hash) ∨ k = inboxKey epoch name ∧ ((∃ file, pc = .stagePut file) ∨
      entryAt db' k = none ∧ ∃ fi', entryAt db' (fileKey name) = some fi' ∧ ¬ Lacks fi' hash) := by
  -- an entry that a commit replaces or passes by
  have hreplaced : ∀ new gone, ¬ gone k → Replaced db db' name new gone →
      ∃ fi', entryAt db' k = some fi' ∧ ¬ Lacks fi' hash := by
    rintro new gone hg ⟨q, hq⟩
    by_cases he : k = fileKey name
    · refine ⟨_, (hq k hk).1 he, ?_⟩
      rw [← he, hfi]
      exact hb.withPointers
    · exact ⟨fi, ((hq k hk).2.2 he hg).trans hfi, hb.2⟩
  cases h with
  | same h => exact .inl ⟨fi, (h k hk).trans hfi, hb.2⟩
  | pointed k₀ fi₀ h₀ seq data hk₀ hfi₀ hset h =>
    refine .inl ?_
    rw [h k hk]
    split_ifs with he
    · rw [← he, hfi] at hfi₀
      cases hfi₀
      exact ⟨_, rfl, fun hl => hb.2 (hl.of_pointBlocks hset)⟩
    · exact ⟨fi, hfi, hb.2⟩
  | staged file hpc h =>
    by_cases he : k = inboxKey epoch name
    · exact .inr ⟨he, .inl ⟨file, hpc⟩⟩
    · rw [h, if_neg he]
      exact .inl ⟨fi, hfi, hb.2⟩
  | committed new h => exact .inl (hreplaced new _ id h)
  | completed new hs h =>
    by_cases he : k = inboxKey epoch name
    · subst he
      cases hfi.symm.trans hs
      obtain ⟨q, hq⟩ := h
      refine .inr ⟨rfl, .inr ⟨(hq _ hk).2.1 (by rintro ⟨⟩) rfl, _, (hq _ rfl).1 rfl, ?_⟩⟩
      exact fun hl => hb.2 (lacks_withPointers hl).1
    · exact .inl (hreplaced new _ he h)

end Pointers

/-! ### The index of a database -/

/-- Every committed entry has a sequence number up to `max_sequence`, and the row of that number has its
name; every sequence row is that of exactly one entry. -/
def Booked (db : Db) : Prop :=
  (∀ path v, db.get (.mn path) = some v → ∃ fi, v = .file (some fi) ∧ 0 < fi.sequence ∧
    fi.sequence ≤ maxSeq db ∧ db.get (.ms fi.sequence.toNat) = some (.name (joinName path))) ∧
  ∀ q v, db.get (.ms q) = some v → ∃! path, SeqAt db path q ∧ v = .name (joinName path)

/-- What is kept of a database to have it `Booked` after every write. -/
structure Bookkept (db : Db) : Prop where
  indexed : Indexed 0 db
  zero : db.get (.ms 0) = none
  names : ∀ q name, db.get (.ms q) = some (.name name) → validateFileName name = .ok ()

section Rows

variable {epoch : Epoch} {name : Str} {db db' : Db} {pc : Pc} {st st' : Store} {aft : After}

lemma bookkept_empty : Bookkept Db.empty := ⟨Indexed.empty, rfl, (by rintro _ _ ⟨⟩)⟩

lemma Bookkept.booked (h : Bookkept db) : Booked db := by
  refine ⟨fun path v hv => ?_, fun q v hv => ?_⟩
  · obtain ⟨fi, rfl, -, hpos, hle⟩ := h.indexed.files path v hv
    obtain ⟨name, hn, hrow⟩ := h.indexed.entry path fi.sequence ⟨fi, hv, rfl⟩ hpos
    refine ⟨fi, rfl, hpos, hle, ?_⟩
    rw [hrow, ← hn, joinName_splitName (h.names _ name hrow)]
  · have hq : q ≠ 0 := by
      rintro rfl
      rw [h.zero] at hv
      cases hv
    obtain ⟨name, rfl, hat⟩ := h.indexed.row q v hv (by omega)
    have hname := joinName_splitName (h.names q name hv)
    refine ⟨splitName name, ⟨hat, by rw [hname]⟩, ?_⟩
    rintro path ⟨hat', he⟩
    -- the row of the number has the name of any entry with it
    obtain ⟨name', hn', hrow'⟩ := h.indexed.entry path q hat' (by omega)
    rw [Int.toNat_natCast, hv] at hrow'
    cases hrow'
    exact hn'.symm

lemma Bookkept.of_rows (h : Bookkept db) (hi : Indexed 0 db') (hms : ∀ q, db'.get (.ms q) = db.get (.ms q)) :
    Bookkept db' := by
  refine ⟨hi, (hms 0).trans h.zero, fun q name hq => ?_⟩
  rw [hms] at hq
  exact h.names q name hq

lemma Pc.Steps.bookkept (hs : pc.Steps epoch name st st' aft) (hf : pc.Formed epoch)
    (hn : validateFileName name = .ok ()) (h : Bookkept st.db) (hi : Indexed 0 st'.db) : Bookkept st'.db := by
  cases hs with
  | @commitWrite _ _ _ db _ hw =>
    obtain ⟨-, h0, hle⟩ := h.indexed.bound
    obtain ⟨-, -, m, -, hdb⟩ := commitWrite_next hw
    have hms := fun q => congrArg (fun db => db.get (.ms q)) hdb
    refine ⟨hi, ?_, fun q name' hq => ?_⟩
    · rw [hms 0]
      rw [commit_get_ms hf, if_neg (by omega), h.zero, ite_self]
    · rw [hms q, commit_get_ms hf] at hq
      split_ifs at hq
      · cases hq
        exact hn
      · exact h.names q name' hq
  | stagePut =>
    exact h.of_rows hi fun q => Db.get_write_single (by rintro ⟨⟩)
  | allocate ha =>
    exact h.of_rows hi fun q => allocate_get ha (by rintro ⟨⟩)
  | write hl =>
    refine h.of_rows hi fun q => ?_
    rw [linkBatch_eq_ok hl]
    exact get_write_link hf (.inr (.inr ⟨q, rfl⟩))
  | _ => exact h

end Rows

/-! ### The process -/

def HostAct.valid : HostAct → Bool
  | .start _ op => (validateFileName op.name).isOk
  | _ => true

def HostAct.isCrash : HostAct → Bool
  | .crash .. => true
  | _ => false

namespace Host

/-- The bookkeeping of the process: that of every state in the history, what the calls know of the index,
and the sequence numbers given since the folder was opened. -/
structure Tidy (h : Host) : Prop where
  disc : h.Disciplined
  listed : Listed 0 h.epoch h.machine
  current : ∀ t c, h.machine.calls.lookup t = some c → PcCurrent h.epoch h.db c.name c.pc
  rows : ∀ db ∈ h.states, Bookkept db
  rising : h.commits.Pairwise fun later earlier => earlier < later
  below : ∀ q ∈ h.commits, q ≤ maxSeq h.db

/-- What a step does, a crash apart: no counter falls, and the entries are rewritten by one call. -/
structure Effect (h : Host) (a : HostAct) (h' : Host) : Prop where
  max : maxSeq h.db ≤ maxSeq h'.db
  next : h.roomy a = true → nextBlockseq h.db ≤ nextBlockseq h'.db
  entries : ∃ name pc, Rewrites h.epoch name pc h.db h'.db ∧ ∀ file, pc = .stagePut file →
    file.name = name ∧ ∃ t, a.Of t ∧ h.machine.calls.lookup t = some ⟨name, .stagePut file⟩

/-- The step is that of a `stage_file` which writes the entry at the key. -/
def StagesAt (h : Host) (a : HostAct) (k : Key) : Prop :=
  ∃ t file, a.Of t ∧ h.machine.calls.lookup t = some ⟨file.name, .stagePut file⟩ ∧
    k = inboxKey h.epoch file.name

/-- Blocks that have pointers keep them: in the committed entry as long as it lists them, and in the
staged entry until it is committed with them, unless `stage_file` starts it anew. -/
def PointersKept (h : Host) (a : HostAct) (h' : Host) : Prop :=
  (∀ path fi hash, entryAt h.db (.mn path) = some fi → Backed fi hash →
    ∃ fi', entryAt h'.db (.mn path) = some fi' ∧ ¬ Lacks fi' hash) ∧
  ∀ e path fi hash, entryAt h.db (.mi e path) = some fi → Backed fi hash →
    (∃ fi', entryAt h'.db (.mi e path) = some fi' ∧ ¬ Lacks fi' hash) ∨
    (entryAt h'.db (.mi e path) = none ∧
      ∃ fi', entryAt h'.db (.mn path) = some fi' ∧ ¬ Lacks fi' hash) ∨
    h.StagesAt a (.mi e path)

lemma Effect.pointersKept {h h' : Host} {a : HostAct} (he : h.Effect a h') : h.PointersKept a h' := by
  obtain ⟨name, pc, hr, hst⟩ := he.entries
  constructor
  · intro path fi hash hfi hb
    exact (hr.keeps rfl hfi hb).resolve_right (by rintro ⟨⟨⟩, -⟩)
  · intro e path fi hash hfi hb
    rcases hr.keeps rfl hfi hb with hk | ⟨hk, ⟨file, rfl⟩ | hgone⟩
    · exact .inl hk
    · obtain ⟨rfl, t, hof, hc⟩ := hst file rfl
      exact .inr (.inr ⟨t, file, hof, hc, hk⟩)
    · cases hk
      exact .inr (.inl hgone)

section Tidy

variable {bl : Blooms} {h h' : Host} {a : HostAct} {t : ℕ} {name : Str} {pc : Pc} {m : FolderIndexMeta}

lemma effect_of_same (he : h'.db = h.db) : h.Effect a h' := by
  refine ⟨he ▸ le_rfl, fun _ => he ▸ le_rfl, [], .record [], .same ?_, (by rintro _ ⟨⟩)⟩
  rw [he]
  exact SameEntries.refl

lemma allocate_of_meta {db : Db} (hm : getIndexMeta db = .ok m) : ∃ range, allocate db ⟨0, 0⟩ =
    .ok (reserveBase m, db.write (reserveBatch m), range) := by
  unfold allocate
  rw [if_neg (lt_irrefl 0), hm]
  exact ⟨_, rfl⟩

lemma effect_reserve (hm : getIndexMeta h.db = .ok m) (hi : Indexed 0 h.db)
    (hroom : h.roomy a = true → reserveBase m + RESERVATION_N < 2 ^ 64)
    (he : h'.db = h.db.write (reserveBatch m)) : h.Effect a h' := by
  obtain ⟨range, ha⟩ := allocate_of_meta hm
  rw [← he] at ha
  refine ⟨(hi.allocate le_rfl ha).2.1.ge, fun hr => ?_, [], .record [], .same (allocate_entries ha), (by rintro _ ⟨⟩)⟩
  have hlim := reserveLimit_of_room (hroom hr)
  rw [he, nextBlockseq_of_meta hm, nextBlockseq_of_meta getIndexMeta_reserve, getD_some, hlim]
  unfold reserveBase
  omega

section

variable (hT : h.Tidy)
include hT

/-- **Effects.** -/
lemma Tidy.effect (hm : h.Moves a h') (hcr : ∀ lost epoch, a ≠ .crash lost epoch) : h.Effect a h' := by
  cases hm with
  | refused | start | lock | quit | advance | take | flushed => exact effect_of_same rfl
  | @call _ t name pc st _ aft' _ _ hof hc hw hna hs =>
    have hf := hT.disc.formed t _ hc
    have hdb : (h.machine.after t name (st, aft')).store.db = st.db := by simp
    refine ⟨?_, fun _ => ?_, name, pc, ?_, ?_⟩
    · exact (hs.indexed hf le_rfl hT.listed.db (hT.listed.calls t _ hc)).2.2.1.trans (by rw [Host.db, hdb])
    · exact (nextBlockseq_of_steps hs hf hna).ge.trans (by rw [Host.db, hdb])
    · have hr := hs.rewrites hf (hT.current t _ hc)
      rw [← hdb] at hr
      exact hr
    · rintro file rfl
      have hn : file.name = name := hT.current t _ hc
      exact ⟨hn, t, hof, hc⟩
  | @reserve t _ _ _ m hc hp | @reserveFailed t _ _ _ m _ hc hp =>
    refine effect_reserve (hT.disc.current t m hp) hT.listed.db (fun hr => ?_) rfl
    simpa only [roomy, hc, hp, decide_eq_true_eq] using hr
  | @crash lost epoch => exact absurd rfl (hcr lost epoch)

lemma Tidy.of_parts (hd : h'.Disciplined) (he : h'.epoch = h.epoch) (hl : Listed 0 h.epoch h'.machine)
    (hcur : ∀ t c, h'.machine.calls.lookup t = some c → PcCurrent h.epoch h'.db c.name c.pc)
    (hb : Bookkept h'.db) (hpast : h'.past = h.past ∨ h'.past = h.db :: h.past)
    (hmax : maxSeq h.db ≤ maxSeq h'.db) (hcm : h'.commits = h.commits ∨
      ∃ q, h'.commits = q :: h.commits ∧ maxSeq h.db < q ∧ q ≤ maxSeq h'.db) :
    h'.Tidy := by
  have hbelow : ∀ q ∈ h.commits, q ≤ maxSeq h'.db := fun q hq => (hT.below q hq).trans hmax
  refine ⟨hd, he ▸ hl, he ▸ hcur, fun db hdb => ?_, ?_, ?_⟩
  · rcases mem_cons.1 hdb with rfl | hdb
    · exact hb
    · rcases hpast with hpast | hpast
      · rw [hpast] at hdb
        exact hT.rows db (mem_cons_of_mem _ hdb)
      · rw [hpast] at hdb
        exact hT.rows db hdb
  · rcases hcm with hcm | ⟨q, hcm, hlt, -⟩
    · rw [hcm]
      exact hT.rising
    · rw [hcm]
      exact List.Pairwise.cons (fun q' hq' => (hT.below q' hq').trans_lt hlt) hT.rising
  · rcases hcm with hcm | ⟨q, hcm, -, hle⟩
    · rw [hcm]
      exact hbelow
    · rw [hcm]
      rintro q' hq'
      rcases mem_cons.1 hq' with rfl | hq'
      · exact hle
      · exact hbelow q' hq'

lemma Tidy.fewer (hd : h'.Disciplined) (he : h'.epoch = h.epoch)
    (hc : ∀ t c, h'.machine.calls.lookup t = some c → h.machine.calls.lookup t = some c) (hdb : h'.db = h.db)
    (hj : h'.machine.jobs = h.machine.jobs) (hpast : h'.past = h.past) (hcm : h'.commits = h.commits) :
    h'.Tidy := by
  refine hT.of_parts hd he (hT.listed.fewer hc hdb hj) (fun t c ht => ?_) ?_ (.inl hpast) (by rw [hdb]) (.inl hcm)
  · rw [hdb]
    exact hT.current t c (hc t c ht)
  · rw [hdb]
    exact hT.rows _ mem_cons_self

lemma Tidy.enter {c : Call}
    (hd : ({ h with machine := { h.machine with calls := h.machine.calls.insert t c } } : Host).Disciplined)
    (hl : Listed 0 h.epoch { h.machine with calls := h.machine.calls.insert t c })
    (hcur : PcCurrent h.epoch h.db c.name c.pc) :
    ({ h with machine := { h.machine with calls := h.machine.calls.insert t c } } : Host).Tidy := by
  exact hT.of_parts hd rfl hl (forall_insert hT.current hcur) (hT.rows _ mem_cons_self)
    (.inl rfl) le_rfl (.inl rfl)

lemma Tidy.reserve (hd : h'.Disciplined) (hm : getIndexMeta h.db = .ok m) (he : h'.epoch = h.epoch)
    (hdb : h'.db = h.db.write (reserveBatch m))
    (hc : ∀ t c, h'.machine.calls.lookup t = some c → h.machine.calls.lookup t = some c)
    (hj : h'.machine.jobs = h.machine.jobs) (hpast : h'.past = h.db :: h.past) (hcm : h'.commits = h.commits) :
    h'.Tidy := by
  obtain ⟨range, ha⟩ := allocate_of_meta hm
  rw [← hdb] at ha
  obtain ⟨hi, hmax, hmn⟩ := hT.listed.db.allocate le_rfl ha
  have hsame := allocate_entries ha
  have hbook : Bookkept h'.db := by
    refine (hT.rows _ mem_cons_self).of_rows hi fun q => ?_
    rw [hdb]
    exact Db.get_write_single (by rintro ⟨⟩)
  have hl : Listed 0 h.epoch { h.machine with store := h'.machine.store } := by
    refine hT.listed.of_db rfl hi hmax.ge (fun path q _ => ?_) hT.listed.floors
    unfold SeqAt
    rw [show h'.machine.store.db = h'.db from rfl, hmn]
  refine hT.of_parts hd he (hl.fewer hc rfl hj) (fun t c ht => ?_) hbook (.inr hpast) hmax.ge (.inl hcm)
  exact (hT.current t c (hc t c ht)).frame (hsame _ rfl) (hsame _ rfl)

lemma Tidy.hand (hd : h'.Disciplined) {hash : Bytes32} {data : Bytes} {seq : ℕ}
    (hc : h.machine.calls.lookup t = some ⟨name, .allocate hash data⟩) (he : h'.epoch = h.epoch)
    (hcalls : h'.machine.calls = h.machine.calls.insert t ⟨name, .readStaged hash (.fresh seq data)⟩)
    (hdb : h'.db = h.db) (hj : h'.machine.jobs = h.machine.jobs) (hpast : h'.past = h.past)
    (hcm : h'.commits = h.commits) : h'.Tidy := by
  -- to the index this is the allocation of the number from a reservation that has it
  have hl : Listed 0 h.epoch { h.machine with store := { h.machine.store with range := ⟨seq, seq + 1⟩ } } :=
    hT.listed.fewer (fun _ _ ht => ht) rfl rfl
  have hs : (Pc.allocate hash data).Steps h.epoch name { h.machine.store with range := ⟨seq, seq + 1⟩ }
      { h.machine.store with range := ⟨wrapU64 (seq + 1), seq + 1⟩ }
      (.go (.readStaged hash (.fresh seq data))) :=
    .allocate (if_pos (Nat.lt_succ_self seq))
  refine hT.of_parts hd he ((hl.call le_rfl hc hs).fewer (fun t' c ht => ?_) hdb hj)
    (fun t' c ht => ?_) ?_ (.inl hpast) (by rw [hdb]) (.inl hcm)
  · rw [hcalls] at ht
    exact ht
  · rw [hcalls] at ht
    rw [hdb]
    refine forall_insert hT.current ?_ t' c ht
    trivial
  · rw [hdb]
    exact hT.rows _ mem_cons_self

lemma Tidy.call {st : Store} {aft aft' : After} {past : List Db} {commits : List ℤ} (heq : h' = { h with
      machine := h.machine.after t name (st, aft'), phases := h.phases.erase t
      past := past, commits := commits })
    (hd : h'.Disciplined) (hc : h.machine.calls.lookup t = some ⟨name, pc⟩)
    (hs : pc.Steps h.epoch name h.machine.store st aft) (ha : aft' = aft ∨ ∃ r, aft' = .done r)
    (hl : h.Logs name pc st past commits) : h'.Tidy := by
  subst heq
  have hf := hT.disc.formed t _ hc
  have hcur := hT.current t _ hc
  have hrows := hT.rows _ mem_cons_self
  have hdb : (h.machine.after t name (st, aft')).store.db = st.db := by simp
  have hlisted := hT.listed.call le_rfl hc hs
  have hi : Indexed 0 st.db := by simpa using hlisted.db
  refine hT.of_parts hd rfl (hlisted.fewer (fun _ _ => lookup_after_or ha) (by simp) (by simp)) (fun t' c ht => ?_)
    ?_ ?_ ?_ ?_
  · rw [Host.db, hdb]
    rcases Machine.lookup_after (lookup_after_or ha ht) with ⟨rfl, he, hn⟩ | ⟨hne, ht⟩
    · have hafter := hs.current hcur
      rw [he] at hafter
      rw [hn]
      exact hafter
    · have hother := hT.current t' c ht
      rcases hT.listed.apart hc hs hne ht with hl | rfl | hpath
      · exact hother.of_unlocked hl
      · exact hother
      · have hframe := (hs.rewrites hf hcur).frame hpath
        exact hother.frame hframe.1 hframe.2
  · rw [Host.db, hdb]
    exact hs.bookkept hf (hT.listed.names t _ hc) hrows hi
  · cases hl with
    | read => exact .inl rfl
    | write | commit => exact .inr rfl
  · rw [Host.db, Host.db, hdb]
    exact (hs.indexed hf le_rfl hT.listed.db (hT.listed.calls t _ hc)).2.2.1
  · cases hl with
    | read | write => exact .inl rfl
    | commit stored stored' batch carried hpc hw =>
      subst hpc
      obtain ⟨-, hst, -⟩ := commitWrite_next hw
      have hidx : PcIndexed 0 h.epoch h.db name (.commitWrite stored batch carried) :=
        hT.listed.calls t _ hc
      obtain ⟨-, hmax, -⟩ := hT.listed.db.commitWrite le_rfl hidx.1 hf hidx.2 hw
      refine .inr ⟨_, rfl, ?_, ?_⟩
      · rw [hst]
        exact lt_add_one _
      · rw [Host.db, hdb, hst, hmax]
        exact le_rfl

end

lemma tidy_reopen {db : Db} {epoch : Epoch} {past : List Db} {handed : List (ℕ × ℕ)}
    (hr : reopen db epoch past handed = some h') (hb : ∀ db' ∈ db :: past, Bookkept db') : h'.Tidy := by
  have hd := disciplined_reopen hr
  unfold reopen at hr
  split at hr <;> cases hr
  refine ⟨hd, ⟨(by rintro _ _ ⟨⟩), (hb db mem_cons_self).indexed, (by rintro _ _ ⟨⟩),
    (by rintro _ _ _ _ ⟨⟩), (by rintro _ _ ⟨⟩), (by rintro _ _ ⟨⟩)⟩, (by rintro _ _ ⟨⟩), hb,
    List.Pairwise.nil, (by rintro _ ⟨⟩)⟩

theorem Tidy.step (hT : h.Tidy) (hm : h.Moves a h') (hv : a.valid = true) : h'.Tidy := by
  have hd := hT.disc.step hm
  cases hm with
  | refused => exact hT
  | start _ hop => exact hT.enter hd (hT.listed.start hop hv) (start_unread hop h.db)
  | @lock t name pc hc hl =>
    have hf : (Pc.wait pc).Formed h.epoch := hT.disc.formed t _ hc
    have hidx : PcIndexed 0 h.epoch h.machine.store.db name (.wait pc) := hT.listed.calls t _ hc
    have hcur : PcCurrent h.epoch h.db name (.wait pc) := hT.current t _ hc
    have hn : validateFileName name = .ok () := hT.listed.names t _ hc
    exact hT.enter hd (hT.listed.insert_call hf hn hidx.indexed fun _ => hl) (Pc.Unread.current hcur)
  | call _ hc _ _ hs ha hl => exact hT.call rfl hd hc hs ha hl
  | quit =>
    exact hT.fewer hd rfl (fun _ _ => lookup_of_erase) rfl rfl rfl rfl
  | advance => exact hT.fewer hd rfl (fun _ _ ht => ht) rfl rfl rfl rfl
  | @reserve t _ _ _ m hc hp =>
    exact hT.reserve hd (hT.disc.current t m hp) rfl rfl (fun _ _ ht => ht) rfl rfl rfl
  | @reserveFailed t _ _ _ m _ hc hp =>
    exact hT.reserve hd (hT.disc.current t m hp) rfl rfl (fun _ _ => lookup_of_erase) rfl rfl rfl
  | take hc | flushed hc =>
    exact hT.hand hd hc rfl rfl rfl rfl rfl rfl
  | @crash lost _ _ _ _ hdrop hr =>
    refine tidy_reopen hr fun db' hdb' => hT.rows db' (mem_of_mem_drop (i := lost) ?_)
    rw [hdrop]
    exact hdb'

/-- **The bookkeeping of the index.**  In every state that calls with valid names, failing requests and
crashes lead to, and in every earlier state of its history, entries and sequence rows correspond; the
sequence numbers given since the last crash rise; and no step but a crash undoes what a call has done: the
counters do not fall, every entry is computed from the one it replaces, and blocks keep their pointers. -/
theorem index_bookkeeping {db : Db} {epoch : Epoch} {h₀ : Host} {acts : List HostAct} (hdb : Bookkept db)
    (h0 : reopen db epoch [] [] = some h₀) (hv : ∀ a ∈ acts, a.valid = true)
    (hr : run (Host.step bl) h₀ acts = some h) :
    (∀ db ∈ h.states, Booked db) ∧ (h.commits.Pairwise fun later earlier => earlier < later) ∧
    ∀ a h', a.isCrash = false → h.step bl a = some h' → h.Effect a h' ∧ h.PointersKept a h' := by
  have hinit : h₀.Tidy := tidy_reopen h0 fun db' hdb' => by
    rw [mem_singleton.1 hdb']
    exact hdb
  have hT : h.Tidy := run_inv (P := Tidy) (G := fun _ a => a.valid = true)
    (fun h a h' hT hv hs => hT.step (step_moves hT.disc hs) hv) hinit
    (meets_of_forall fun a ha _ => hv a ha) hr
  refine ⟨fun db hdb => (hT.rows db hdb).booked, hT.rising, fun a h' hcr hs => ?_⟩
  have he := hT.effect (step_moves hT.disc hs) (by rintro lost epoch rfl; cases hcr)
  exact ⟨he, he.pointersKept⟩

end Tidy

/-! ### A file that is staged again -/

/-- `f` has one small block. -/
def inlineFile : WireFile := ⟨['f'], 1, some ⟨[⟨1, 1⟩]⟩, 0, [⟨List.replicate 32 0, 0, 1⟩], 0, false⟩

/-- `f` is staged and its block stored. -/
def stagedInline : List HostAct :=
  wholeCall 0 (.stageFile inlineFile) 2 ++ wholeCall 1 (.storeBlock ['f'] (List.replicate 32 0) [7]) 3

/-- A second `stage_file` for `f` waits for its write. -/
def restaging : List HostAct := stagedInline ++ wholeCall 2 (.stageFile inlineFile) 1

def inlineStored : StoredFile :=
  { inlineFile.toStored with blocks := [⟨List.replicate 32 0, 0, 1, none, some [7]⟩] }

lemma backed_inlineStored : Backed inlineStored (List.replicate 32 0) := by
  refine ⟨⟨_, mem_singleton_self _, rfl⟩, ?_⟩
  rintro ⟨b, hb, hnone, -⟩
  rw [mem_singleton.1 hb] at hnone
  cases hnone

lemma bookkept_reservedUpTo (next : ℕ) : Bookkept (reservedUpTo next) := by
  have hget : ∀ k, k ≠ .mx → (reservedUpTo next).get k = none := by
    intro k hk
    unfold reservedUpTo
    rw [Db.get_write_of_forall_ne]
    · rfl
    · intro op hop
      rw [mem_singleton.1 hop]
      exact hk.symm
  have hmx : (reservedUpTo next).get .mx = some (.indexMeta ⟨0, some next⟩) := by
    unfold reservedUpTo
    simp [Db.get_write, lastOp, BatchOp.key]
  obtain ⟨hm, hmax⟩ := maxSeq_of_get hmx
  refine Bookkept.of_rows bookkept_empty (Indexed.empty.transfer le_rfl ⟨_, hm⟩ hmax ?_ ?_ ?_ ?_ ?_) ?_
  · intro path v hv
    rw [hget _ (by rintro ⟨⟩)] at hv
    cases hv
  · intro e path fi hv
    rw [hget _ (by rintro ⟨⟩)] at hv
    cases hv
  · intro q v hv
    rw [hget _ (by rintro ⟨⟩)] at hv
    cases hv
  · rintro q v - ⟨⟩
  · intro path q _
    unfold SeqAt
    rw [hget _ (by rintro ⟨⟩)]
    rfl
  · intro q
    rw [hget _ (by rintro ⟨⟩)]
    rfl

/-- A `stage_file` for a name that is staged already takes the block's data from the staged entry, and a
reservation at the end of the counter takes `next_blockseq` to 0. -/
theorem updates_undone :
    (∃ h₀ h h', reopen Db.empty firstEpoch [] [] = some h₀ ∧ run (Host.step exactFilters) h₀ restaging = some h ∧
      h.step exactFilters (.next 2) = some h' ∧
      entryAt h.db (inboxKey firstEpoch ['f']) = some inlineStored ∧
      entryAt h'.db (inboxKey firstEpoch ['f']) = some inlineFile.toStored ∧
      Backed inlineStored (List.replicate 32 0) ∧ Lacks inlineFile.toStored (List.replicate 32 0) ∧
      entryAt h'.db (fileKey ['f']) = none) ∧
    Bookkept (reservedUpTo (2 ^ 64 - 256)) ∧
    ∃ h₀ h h', reopen (reservedUpTo (2 ^ 64 - 256)) firstEpoch [] [] = some h₀ ∧
      run (Host.step exactFilters) h₀ (storeLarge 0 6) = some h ∧
      h.step exactFilters (.next 0) = some h' ∧
      nextBlockseq h.db = 2 ^ 64 - 256 ∧ nextBlockseq h'.db = 0 := by
  refine ⟨?_, bookkept_reservedUpTo _, ?_⟩
  · have hlacks : Lacks inlineFile.toStored (List.replicate 32 0) := ⟨_, mem_singleton_self _, rfl, rfl⟩
    simp only [backed_inlineStored, hlacks, true_and, exists_and_left]
    decide
  · simp only [exists_and_left]
    decide +kernel

/-- `f` is completed, a crash loses the last write, and `f` is completed again. -/
def completedTwice : List HostAct :=
  stagedInline ++ wholeCall 2 (.completeFile ['f'] inlineFile.version) 7 ++ [.crash 1 firstEpoch] ++
  wholeCall 3 (.completeFile ['f'] inlineFile.version) 7

theorem index_bookkeeping_completedTwice :
    ∃ h₀ h, reopen Db.empty firstEpoch [] [] = some h₀ ∧ run (Host.step exactFilters) h₀ completedTwice = some h ∧
      entryAt h.db (fileKey ['f']) = some { inlineStored with sequence := 1 } ∧ h.commits = [1] ∧
      (∀ db ∈ h.states, Booked db) ∧ (h.commits.Pairwise fun later earlier => earlier < later) ∧
      ∀ a h', a.isCrash = false → h.step exactFilters a = some h' → h.Effect a h' ∧ h.PointersKept a h' := by
  obtain ⟨h₀, h0, h, hr, hfile, hcommits⟩ : ∃ h₀, reopen Db.empty firstEpoch [] [] = some h₀ ∧
      ∃ h, run (Host.step exactFilters) h₀ completedTwice = some h ∧
        entryAt h.db (fileKey ['f']) = some { inlineStored with sequence := 1 } ∧ h.commits = [1] := by
    decide
  exact ⟨h₀, h, h0, hr, hfile, hcommits, index_bookkeeping bookkept_empty h0 (by decide) hr⟩

end Host

end Bepository.Storage
