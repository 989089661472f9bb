import Bepository.Storage.Bookkeeping

/-!
# Block pointers lead to rows

Without compactions no block row, reverse reference or block pointer is ever deleted (`Extends`).  So what
holds of an entry when a call reads it still holds when the call writes it back, whatever other calls do
meanwhile, and the name lock plays no part.  A block row is written once, because its number is fresh.
-/

namespace Bepository.Storage

open Lib List Option Table

/-! ### Rows behind an entry -/

def Db.Has (db : Db) (k : Key) : Prop := (db.get k).isSome

/-- Keys whose rows are not deleted: block rows, block pointers and reverse references. -/
def Key.lasting : Key → Bool
  | .bd _ => true
  | .mb .. => true
  | .mr .. => true
  | _ => false

def Extends (db db' : Db) : Prop := ∀ k, k.lasting = true → db.Has k → db'.Has k

def BlockBacked (db : Db) (path : Path) (hash : Bytes) (s : ℕ) : Prop :=
  ∃ h : Bytes32, h.1 = hash ∧ db.Has (.bd s) ∧ db.Has (.mr h path) ∧ db.Has (.mb path.dir h)

def FileBacked (db : Db) (path : Path) (fi : StoredFile) : Prop :=
  ∀ b ∈ fi.blocks, ∀ s, b.blockseq = some s → BlockBacked db path b.hash s

def Key.entryPath : Key → Option Path
  | .mn path => some path
  | .mi _ path => some path
  | _ => none

/-- Every entry has the rows behind its blocks, and every block pointer leads to a block row. -/
structure Linked (db : Db) : Prop where
  entries : ∀ k path fi, k.entryPath = some path → entryAt db k = some fi → FileBacked db path fi
  pointers : ∀ dir h v, db.get (.mb dir h) = some v → ∃ q, v = .blockRef ⟨q⟩ ∧ db.Has (.bd q)

/-! ### Rows behind a call -/

/-- The rows behind a file that is about to be committed: its reverse references may be in the batch. -/
def CommitBacked (db : Db) (path : Path) (stored : StoredFile) (batch : WriteBatch) : Prop :=
  ∀ b ∈ stored.blocks, ∀ s, b.blockseq = some s → ∃ h : Bytes32, h.1 = b.hash ∧ db.Has (.bd s) ∧
    (db.Has (.mr h path) ∨ .put (.mr h path) .empty ∈ batch) ∧ db.Has (.mb path.dir h)

/-- A row that was found has a pointer in the directory where it was found. -/
def LinkBacked (db : Db) (hash : Bytes32) : Link → Prop
  | .existing dir seq => db.Has (.bd seq) ∧ db.Has (.mb dir hash)
  | _ => True

def PcBacked (epoch : Epoch) (db : Db) (name : Str) : Pc → Prop
  | .wait pc => PcBacked epoch db name pc
  | .readSource file carryFrom => file.name = name ∧ dirname carryFrom = dirname name
  | .commitRead stored batch _ => CommitBacked db (splitName name) stored batch
  | .commitWrite stored batch _ => CommitBacked db (splitName name) stored batch
  | .readCommitted staged => FileBacked db (splitName name) staged
  | .readData hash _ dir _ _ => db.Has (.mb dir hash)
  | .readStaged hash link => LinkBacked db hash link
  | .readMain hash link => LinkBacked db hash link
  | .write hash link entry => LinkBacked db hash link ∧ FileBacked db (splitName name) entry.1 ∧
      (entry.2 = inboxKey epoch name ∨ entry.2 = fileKey name)
  | _ => True

def AfterBacked (epoch : Epoch) (db : Db) (name : Str) : After → Prop
  | .go pc => PcBacked epoch db name pc
  | .done _ => True

section Rows

variable {epoch : Epoch} {name : Str} {db db' : Db} {batch : WriteBatch} {k : Key} {path : Path}
  {stored fi : StoredFile}

lemma Extends.refl : Extends db db := fun _ _ h => h

lemma extends_write (h : ∀ k, k.lasting = true → .delete k ∉ batch) : Extends db (db.write batch) :=
  fun k hk hh => Db.isSome_get_write (h k hk) hh

lemma has_write_of_put {v : Value} (hp : .put k v ∈ batch) (hd : .delete k ∉ batch) :
    (db.write batch).Has k := by
  unfold Db.Has
  rw [Db.get_write]
  split
  · rfl
  · next hop =>
    obtain ⟨hmem, rfl⟩ := mem_of_lastOp hop
    exact absurd hmem hd
  · next hop => exact absurd rfl (lastOp_eq_none.1 hop _ hp)

lemma has_of_get {v : Value} (h : db.get k = some v) : db.Has k := by
  unfold Db.Has
  rw [h]
  rfl

lemma FileBacked.mono (h : FileBacked db path fi) (he : Extends db db') : FileBacked db' path fi := by
  intro b hb s hs
  obtain ⟨x, hx, hbd, hmr, hmb⟩ := h b hb s hs
  exact ⟨x, hx, he _ rfl hbd, he _ rfl hmr, he _ rfl hmb⟩

lemma CommitBacked.mono (h : CommitBacked db path stored batch) (he : Extends db db') :
    CommitBacked db' path stored batch := by
  intro b hb s hs
  obtain ⟨x, hx, hbd, hmr, hmb⟩ := h b hb s hs
  exact ⟨x, hx, he _ rfl hbd, hmr.imp_left (he _ rfl), he _ rfl hmb⟩

lemma LinkBacked.mono {hash : Bytes32} {link : Link} (h : LinkBacked db hash link) (he : Extends db db') :
    LinkBacked db' hash link := by
  cases link with
  | existing => exact ⟨he _ rfl h.1, he _ rfl h.2⟩
  | _ => trivial

lemma PcBacked.mono {pc : Pc} (h : PcBacked epoch db name pc) (he : Extends db db') :
    PcBacked epoch db' name pc := by
  induction pc with
  | wait pc ih => exact ih h
  | commitRead | commitWrite => exact CommitBacked.mono h he
  | readCommitted => exact FileBacked.mono h he
  | readData => exact he _ rfl h
  | readStaged | readMain => exact LinkBacked.mono h he
  | write => exact ⟨h.1.mono he, h.2.1.mono he, h.2.2⟩
  | _ => exact h

lemma fileBacked_toStored (file : WireFile) : FileBacked db path file.toStored := by
  intro b hb s hs
  obtain ⟨b₀, -, rfl⟩ := List.mem_map.1 hb
  cases hs

lemma FileBacked.commit (h : FileBacked db path fi) : CommitBacked db path fi batch := by
  intro b hb s hs
  obtain ⟨x, hx, hbd, hmr, hmb⟩ := h b hb s hs
  exact ⟨x, hx, hbd, .inl hmr, hmb⟩

lemma numbered_carry {new old : StoredFile} {b : StoredBlock} {s : ℕ}
    (hb : b ∈ (carryBlockPointers new old).blocks) (hs : b.blockseq = some s) :
    (∃ b₀ ∈ new.blocks, b₀.hash = b.hash ∧ b₀.blockseq = some s) ∨
      ∃ b₀ ∈ old.blocks, b₀.hash = b.hash ∧ b₀.blockseq = some s := by
  obtain ⟨b₀, hb₀, hcase⟩ := exists_carried hb
  cases hcase with
  | kept | missed => exact .inl ⟨b, hb₀, rfl, hs⟩
  | taken src _ hsrc hh => exact .inr ⟨src, hsrc, hh, hs⟩

lemma CommitBacked.withPointers {batch' : WriteBatch} (h : CommitBacked db path stored batch)
    (hsub : batch ⊆ batch') {old : Option StoredFile} (hold : ∀ fi, old = some fi → FileBacked db path fi) :
    CommitBacked db path (withPointers stored old) batch' := by
  have hmono : ∀ b ∈ stored.blocks, ∀ s, b.blockseq = some s → ∃ x : Bytes32, x.1 = b.hash ∧
      db.Has (.bd s) ∧ (db.Has (.mr x path) ∨ .put (.mr x path) .empty ∈ batch') ∧
      db.Has (.mb path.dir x) := by
    intro b hb s hs
    obtain ⟨x, hx, hbd, hmr, hmb⟩ := h b hb s hs
    exact ⟨x, hx, hbd, hmr.imp_right fun hp => hsub hp, hmb⟩
  cases old with
  | none => exact hmono
  | some fi =>
    intro b hb s hs
    rcases numbered_carry hb hs with ⟨b₀, hb₀, he, hs₀⟩ | ⟨b₀, hb₀, he, hs₀⟩
    · rw [← he]
      exact hmono b₀ hb₀ s hs₀
    · rw [← he]
      exact (hold fi rfl).commit b₀ hb₀ s hs₀

lemma commitBacked_carryFromSource {file : WireFile} {src : Option StoredFile}
    (hsrc : ∀ fi, src = some fi → FileBacked db path fi) (hdir : path.dir = (splitName file.name).dir) :
    CommitBacked db (splitName file.name) (carryFromSource file src).1 (carryFromSource file src).2.1 := by
  cases src with
  | none => exact (fileBacked_toStored file).commit
  | some fi =>
    intro b hb s hs
    rcases numbered_carry hb hs with ⟨b₀, hb₀, -, hs₀⟩ | ⟨b₀, hb₀, he, hs₀⟩
    · obtain ⟨b₁, -, rfl⟩ := List.mem_map.1 hb₀
      cases hs₀
    · obtain ⟨x, hx, hbd, -, hmb⟩ := hsrc fi rfl b₀ hb₀ s hs₀
      have hhash : toBytes32 b.hash = some x := toBytes32_eq_some.2 (hx.trans he)
      refine ⟨x, hx.trans he, hbd, .inr ?_, hdir ▸ hmb⟩
      refine List.mem_map.2 ⟨(x, s), mem_filterMap.2 ⟨b, hb, ?_⟩, rfl⟩
      rw [hs, bind_some, hhash, map_some]

end Rows

/-! ### Steps -/

section Steps

variable {epoch : Epoch} {name : Str} {st st' : Store} {pc : Pc} {aft : After}

lemma bookkeeping_not_lasting {k : Key} (hk : k.lasting = true) : (BatchOp.delete k).bookkeeping = false := by
  cases k with
  | mi | ms => cases hk
  | _ => rfl

variable {hash : Bytes32} {batch : WriteBatch}

lemma Link.delete_not_mem {link : Link} {k : Key} : .delete k ∉ link.batch name hash := by
  intro h
  rcases mem_linkRows h with he | ⟨seq, -, he⟩ | ⟨seq, data, -, he⟩ <;> cases he

variable {db db' : Db} {stored stored' : StoredFile}

lemma extends_commitWrite (h : commitWrite db name stored batch = .ok (db', stored'))
    (hb : ∀ op ∈ batch, op.bookkeeping = true) : Extends db db' := by
  obtain ⟨m, -, -, -, rfl⟩ := commitWrite_eq_ok h
  refine extends_write fun k hk hd => ?_
  rcases mem_append.1 hd with hd | hd
  · have := hb _ hd
    rw [bookkeeping_not_lasting hk] at this
    cases this
  · simp at hd

/-- **Lasting rows** stay through a step. -/
lemma Pc.Steps.extends (hs : pc.Steps epoch name st st' aft) (hf : pc.Formed epoch) : Extends st.db st'.db := by
  cases hs with
  | commitWrite hw => exact extends_commitWrite hw hf
  | stagePut =>
    refine extends_write fun k hk hd => ?_
    cases mem_singleton.1 hd
  | allocate ha =>
    rcases allocate_eq_ok ha with ⟨-, -, rfl, -⟩ | ⟨-, m, -, -, rfl, -⟩
    · exact Extends.refl
    · refine extends_write fun k hk hd => ?_
      cases mem_singleton.1 hd
  | write hl =>
    rw [linkBatch_eq_ok hl]
    refine extends_write fun k hk hd => ?_
    rcases mem_append.1 hd with hd | hd
    · exact Link.delete_not_mem hd
    · cases mem_singleton.1 hd
  | _ => exact Extends.refl

lemma holdsFile_of_entryPath {k : Key} {path : Path} (h : k.entryPath = some path) : k.holdsFile = true := by
  cases k with
  | mn | mi => rfl
  | _ => cases h

lemma Linked.of_same (hL : Linked db) (he : SameEntries db db')
    (hmb : ∀ dir h, db'.get (.mb dir h) = db.get (.mb dir h)) (hx : Extends db db') : Linked db' := by
  refine ⟨fun k path fi hk hfi => ?_, fun dir h v hv => ?_⟩
  · rw [he k (holdsFile_of_entryPath hk)] at hfi
    exact (hL.entries k path fi hk hfi).mono hx
  · rw [hmb] at hv
    obtain ⟨q, rfl, hq⟩ := hL.pointers dir h v hv
    exact ⟨q, rfl, hx _ rfl hq⟩

/-- **A commit** leaves the rows behind its blocks. -/
lemma Linked.commitWrite (hL : Linked db) (h : commitWrite db name stored batch = .ok (db', stored'))
    (hb : ∀ op ∈ batch, op.bookkeeping = true)
    (hst : CommitBacked db (splitName name) stored batch) : Linked db' := by
  have hx := extends_commitWrite h hb
  obtain ⟨q, -, hent⟩ := commitWrite_entries h
  obtain ⟨m, -, -, -, hdb⟩ := commitWrite_eq_ok h
  refine ⟨fun k path fi hk hfi => ?_, fun dir x v hv => ?_⟩
  · have hfile := holdsFile_of_entryPath hk
    rw [hent k hfile] at hfi
    split_ifs at hfi with hkey
    · cases hfi
      subst hkey
      cases hk
      intro b hbm s hs
      obtain ⟨x, hxh, hbd, hmr, hmb⟩ := hst b hbm s hs
      refine ⟨x, hxh, hx _ rfl hbd, ?_, hx _ rfl hmb⟩
      rcases hmr with hmr | hput
      · exact hx _ rfl hmr
      · rw [hdb]
        refine has_write_of_put (mem_append_left _ hput) fun hd => ?_
        rcases mem_append.1 hd with hd | hd
        · have := hb _ hd
          cases this
        · simp at hd
    · rw [entryAt_write_bookkeeping hfile hb] at hfi
      split_ifs at hfi
      exact (hL.entries k path fi hk hfi).mono hx
  · have hmb : db'.get (.mb dir x) = db.get (.mb dir x) := by
      rw [hdb]
      refine Db.get_write_of_forall_ne fun op hop hk => ?_
      rcases mem_append.1 hop with hop | hop
      · have hbk := hb op hop
        cases op with
        | put k | delete k => cases (show k = .mb dir x from hk); cases hbk
      · simp only [mem_cons, not_mem_nil, or_false] at hop
        rcases hop with rfl | rfl | rfl <;> cases hk
    rw [hmb] at hv
    obtain ⟨q, rfl, hq⟩ := hL.pointers dir x v hv
    exact ⟨q, rfl, hx _ rfl hq⟩

/-- **A block that is provided** has its rows in the batch, or had them before. -/
lemma Linked.link {db : Db} {link : Link} {entry : StoredFile × Key} (hL : Linked db)
    (hl : linkBatch name hash link entry = .ok batch) (hlink : LinkBacked db hash link)
    (hfi : FileBacked db (splitName name) entry.1)
    (hk : entry.2 = inboxKey epoch name ∨ entry.2 = fileKey name) : Linked (db.write batch) := by
  have hent : ∀ k, k.holdsFile = true → entryAt (db.write batch) k = if k = entry.2 then
      some (pointBlocks hash.1 link.seq link.inlineData entry.1) else entryAt db k :=
    fun k hk => entryAt_linkBatch hl hk
  have hno : ∀ k, .delete k ∉ batch := by
    intro k hd
    rw [linkBatch_eq_ok hl] at hd
    rcases mem_append.1 hd with hd | hd
    · exact Link.delete_not_mem hd
    · cases mem_singleton.1 hd
  have hx : Extends db (db.write batch) := extends_write fun k _ => hno k
  have hput : ∀ k v, .put k v ∈ link.batch name hash → (db.write batch).Has k := by
    intro k v hp
    refine has_write_of_put (v := v) ?_ (hno k)
    rw [linkBatch_eq_ok hl]
    exact mem_append_left _ hp
  -- the rows behind the block itself
  have hnew : ∀ s, link.seq = some s → BlockBacked (db.write batch) (splitName name) hash.1 s := by
    intro s hs
    cases link with
    | inline => cases hs
    | existing dir =>
      cases hs
      refine ⟨hash, rfl, hx _ rfl hlink.1, hput _ _ (mem_append_right _ (mem_singleton_self _)), ?_⟩
      by_cases hd : dir ≠ dirname name
      · refine hput _ (.blockRef ⟨s⟩) (mem_append_left _ ?_)
        rw [if_pos hd]
        exact mem_singleton_self _
      · rw [not_not] at hd
        subst hd
        exact hx _ rfl hlink.2
    | fresh seq data =>
      cases hs
      exact ⟨hash, rfl, hput _ (.data data) (by simp [Link.batch]),
        hput _ .empty (by simp [Link.batch, blockReverseKey]),
        hput _ (.blockRef ⟨s⟩) (by simp [Link.batch, dirname])⟩
  refine ⟨fun k path fi hkp hget => ?_, fun dir x v hv => ?_⟩
  · rw [hent k (holdsFile_of_entryPath hkp)] at hget
    split_ifs at hget with hkey
    · cases hget
      have hpath : path = splitName name := by
        rw [hkey] at hkp
        rcases hk with hk | hk
        · rw [hk] at hkp
          cases hkp
          rfl
        · rw [hk] at hkp
          cases hkp
          rfl
      subst hpath
      intro b hb s hs
      obtain ⟨b₀, hb₀, rfl⟩ := List.mem_map.1 hb
      split_ifs at hs ⊢ with hh
      · change BlockBacked _ _ b₀.hash s
        rw [hh]
        exact hnew s hs
      · exact hfi.mono hx b₀ hb₀ s hs
    · exact (hL.entries k path fi hkp hget).mono hx
  · rcases Db.get_write_eq_some hv with hp | ⟨-, hold⟩
    · rw [linkBatch_eq_ok hl] at hp
      rcases mem_append.1 hp with hp | hp
      · rcases mem_linkRows hp with he | ⟨seq, hseq, he⟩ | ⟨seq, data, -, he⟩
        · cases he
        · cases he
          obtain ⟨_, -, hbd, -⟩ := hnew seq hseq
          exact ⟨seq, rfl, hbd⟩
        · cases he
      · have hkey : Key.mb dir x = entry.2 := by
          have he := mem_singleton.1 hp
          injection he
        rcases hk with hk | hk
        · rw [hk] at hkey
          cases hkey
        · rw [hk] at hkey
          cases hkey
    · obtain ⟨q, rfl, hq⟩ := hL.pointers dir x v hold
      exact ⟨q, rfl, hx _ rfl hq⟩

theorem Pc.Steps.linked (hs : pc.Steps epoch name st st' aft) (hf : pc.Formed epoch) (hL : Linked st.db)
    (hpc : PcBacked epoch st.db name pc) : Linked st'.db := by
  cases hs with
  | commitWrite hw => exact hL.commitWrite hw hf hpc
  | @stagePut file =>
    have hx : Extends st.db (stageFile st.db epoch file) := extends_write fun k _ hd => by
      cases mem_singleton.1 hd
    refine ⟨fun k path fi hk hfi => ?_, fun dir x v hv => ?_⟩
    · change entryAt (stageFile st.db epoch file) k = some fi at hfi
      rw [stageFile_entries] at hfi
      split_ifs at hfi
      · cases hfi
        exact fileBacked_toStored file
      · exact (hL.entries k path fi hk hfi).mono hx
    · have hv' : st.db.get (.mb dir x) = some v := by
        rw [← hv]
        exact (Db.get_write_single (by rintro ⟨⟩)).symm
      obtain ⟨q, rfl, hq⟩ := hL.pointers dir x v hv'
      exact ⟨q, rfl, hx _ rfl hq⟩
  | @allocate hash data _ _ _ ha =>
    refine hL.of_same (allocate_entries ha) (fun dir x => allocate_get ha (by rintro ⟨⟩))
      ((Pc.Steps.allocate ha : Pc.Steps epoch name st (.allocate hash data) _ _).extends trivial)
  | @write _ link _ _ hl => exact hL.link hl hpc.1 hpc.2.1 hpc.2.2
  | _ => exact hL

lemma afterBacked_recordNext {db : Db} (recs : List (Bytes32 × ℕ)) :
    AfterBacked epoch db name (recordNext recs) := by
  cases recs <;> trivial

lemma Pc.Searching.backed {db : Db} {data : Option Bytes} (h : pc.Searching hash data)
    (hr : ∀ dir seq dirs, pc ≠ .readData hash data dir seq dirs) : PcBacked epoch db name pc := by
  cases h with
  | readData dir seq dirs => exact absurd rfl (hr dir seq dirs)
  | _ => trivial

theorem Pc.Steps.backed (hs : pc.Steps epoch name st st' aft) (hL : Linked st.db)
    (hpc : PcBacked epoch st.db name pc) : AfterBacked epoch st'.db name aft := by
  -- the entries of the name
  have hfile : ∀ fi, entryAt st.db (fileKey name) = some fi → FileBacked st.db (splitName name) fi :=
    fun fi hfi => hL.entries _ _ fi rfl hfi
  have hinbox : ∀ fi, entryAt st.db (inboxKey epoch name) = some fi →
      FileBacked st.db (splitName name) fi := fun fi hfi => hL.entries _ _ fi rfl hfi
  cases hs with
  | stop | stagePut | allocate => trivial
  | waiting | toMain => exact hpc
  | @readSource _ carryFrom src hr =>
    obtain ⟨rfl, hdir⟩ := hpc
    have hsrc : ∀ fi, src = some fi → FileBacked st.db (splitName carryFrom) fi := by
      rintro fi rfl
      exact hL.entries (fileKey carryFrom) _ fi rfl (getFileProto_entryAt hr)
    exact commitBacked_carryFromSource hsrc hdir
  | commitRead hr =>
    obtain ⟨rfl, dels, rfl, -⟩ := commitRead_entries hr
    exact CommitBacked.withPointers hpc (subset_append_left _ _) hfile
  | @commitWrite _ _ carried => exact afterBacked_recordNext carried
  | @readInbox staged hr => exact hinbox staged (readStaged_entryAt hr)
  | readCommitted => exact FileBacked.commit hpc
  | search _ h' hr => exact h'.backed hr
  | @pointer hash _ dir _ _ hr =>
    unfold Storage.readPointer at hr
    cases hget : st.db.get (.mb dir hash) with
    | none =>
      rw [hget] at hr
      cases hr
    | some => exact has_of_get hget
  | hit hd => exact ⟨hd, hpc⟩
  | inboxEntry he =>
    obtain ⟨hk, hget⟩ := findInboxEntry_eq_some he
    exact ⟨hpc, hinbox _ (entryAt_eq_some.2 hget), .inl hk⟩
  | mainEntry he =>
    obtain ⟨hk, hget⟩ := findMainEntry_eq_ok he
    exact ⟨hpc, hfile _ (entryAt_eq_some.2 hget), .inr hk⟩
  | write => exact afterBacked_recordNext _
  | @record _ _ recs => exact afterBacked_recordNext recs

/-- **Block rows through a step**: they keep their bytes, and a new one has the number of the call. -/
lemma Pc.Steps.rows (hs : pc.Steps epoch name st st' aft) (hf : pc.Formed epoch)
    (hfresh : ∀ s ∈ pc.allocated, ¬ st.db.Has (.bd s)) :
    (∀ s v, st.db.get (.bd s) = some v → st'.db.get (.bd s) = some v) ∧
      ∀ s, st'.db.Has (.bd s) → st.db.Has (.bd s) ∨ s ∈ pc.allocated ∧ aft.seqs Pc.allocated = [] := by
  refine ⟨fun s v hv => ?_, fun s hb => ?_⟩
  · rcases hs.lookup_bd hf s with hrow | ⟨hash, data, entry, rfl, -, -⟩
    · unfold Db.get at hv ⊢
      rw [hrow]
      exact hv
    · exact absurd (has_of_get hv) (hfresh s (mem_singleton_self s))
  · rcases hs.lookup_bd hf s with hrow | ⟨hash, data, entry, rfl, rfl, -⟩
    · refine .inl ?_
      unfold Db.Has Db.get at hb ⊢
      rw [← hrow]
      exact hb
    · exact .inr ⟨mem_singleton_self s, rfl⟩

end Steps

/-! ### The process -/

def HostAct.sameDir : HostAct → Bool
  | .start _ (.putFileWithCarry file carryFrom) => dirname carryFrom = dirname file.name
  | _ => true

lemma start_backed {t : ℕ} {op : Op} {c : Call} {epoch : Epoch} {db : Db} (h : op.start = some c)
    (hd : (HostAct.start t op).sameDir = true) : PcBacked epoch db c.name c.pc ∧ c.pc.allocated = [] := by
  cases op with
  | putFile file =>
    cases h
    exact ⟨(fileBacked_toStored file).commit, rfl⟩
  | putFileWithCarry =>
    cases h
    exact ⟨⟨rfl, of_decide_eq_true hd⟩, rfl⟩
  | stageFile | completeFile => cases h; exact ⟨trivial, rfl⟩
  | storeBlock name hash =>
    obtain ⟨hash, -, rfl⟩ := map_eq_some_iff.1 h
    split <;> exact ⟨trivial, rfl⟩
  | reuseBlock =>
    obtain ⟨hash, -, rfl⟩ := map_eq_some_iff.1 h
    exact ⟨trivial, rfl⟩

namespace Host

/-- The numbers of block rows, and those that calls have for rows they will write. -/
def Taken (h : Host) (s : ℕ) : Prop := h.db.Has (.bd s) ∨ s ∈ h.machine.inFlight Pc.allocated

/-- Every database in the history has the rows behind its entries, block rows last with their bytes, and
a number that a call has for a row is its own. -/
structure Sound (h : Host) : Prop where
  disc : h.Disciplined
  linked : ∀ db ∈ h.states, Linked db ∧ ∀ s, db.Has (.bd s) → s < baseSeq db
  calls : ∀ t c, h.machine.calls.lookup t = some c → PcBacked h.epoch h.db c.name c.pc
  beyond : h.Beyond h.Taken
  fresh : ∀ s ∈ h.machine.inFlight Pc.allocated, ¬ h.db.Has (.bd s)
  own : ∀ t t' c c' s, h.machine.calls.lookup t = some c → h.machine.calls.lookup t' = some c' →
    s ∈ c.pc.allocated → s ∈ c'.pc.allocated → t = t'
  lasting : h.states.Pairwise fun new old => ∀ s v, old.get (.bd s) = some v → new.get (.bd s) = some v

section Sound

variable {bl : Blooms} {h h' : Host} {a : HostAct} {t : ℕ} {name : Str} {pc : Pc} {m : FolderIndexMeta}

section

variable (hS : h.Sound) (hd : h'.Disciplined) (he : h'.epoch = h.epoch) (hL : Linked h'.db)
  (hc : ∀ t c, h'.machine.calls.lookup t = some c → PcBacked h.epoch h'.db c.name c.pc)
include hS hd he hL hc

lemma Sound.of_parts (hB : h'.Beyond h'.Taken)
    (hf : ∀ s ∈ h'.machine.inFlight Pc.allocated, ¬ h'.db.Has (.bd s))
    (ho : ∀ t t' c c' s, h'.machine.calls.lookup t = some c → h'.machine.calls.lookup t' = some c' →
      s ∈ c.pc.allocated → s ∈ c'.pc.allocated → t = t')
    (hpast : h'.past = h.past ∨ h'.past = h.db :: h.past)
    (hrows : ∀ s v, h.db.get (.bd s) = some v → h'.db.get (.bd s) = some v) : h'.Sound := by
  have hsub : ∀ db ∈ h'.past, db ∈ h.states := by
    intro db hdb
    rcases hpast with hpast | hpast
    · rw [hpast] at hdb
      exact mem_cons_of_mem _ hdb
    · rw [hpast] at hdb
      exact hdb
  have hpair : h'.past.Pairwise fun new old =>
      ∀ s v, old.get (.bd s) = some v → new.get (.bd s) = some v := by
    rcases hpast with hpast | hpast
    · rw [hpast]
      exact hS.lasting.of_cons
    · rw [hpast]
      exact hS.lasting
  refine ⟨hd, fun db hdb => ?_, he ▸ hc, hB, hf, ho, List.Pairwise.cons (fun old hold => ?_) hpair⟩
  · rcases mem_cons.1 hdb with rfl | hdb
    · exact ⟨hL, fun s hs => hB.base s (.inl hs)⟩
    · exact hS.linked db (hsub db hdb)
  · intro s v hv
    refine hrows s v ?_
    rcases mem_cons.1 (hsub old hold) with rfl | hmem
    · exact hv
    · exact rel_of_pairwise_cons hS.lasting hmem s v hv

section

variable (hB : h'.Beyond h.Taken)
  (hsub : ∀ t c s, h'.machine.calls.lookup t = some c → s ∈ c.pc.allocated →
    ∃ c₀, h.machine.calls.lookup t = some c₀ ∧ s ∈ c₀.pc.allocated)
include hB hsub

lemma Sound.keep (hbd : ∀ s, h'.db.Has (.bd s) → h.Taken s)
    (hf : ∀ t c s, h'.machine.calls.lookup t = some c → s ∈ c.pc.allocated → ¬ h'.db.Has (.bd s))
    (hpast : h'.past = h.past ∨ h'.past = h.db :: h.past)
    (hrows : ∀ s v, h.db.get (.bd s) = some v → h'.db.get (.bd s) = some v) : h'.Sound := by
  refine hS.of_parts hd he hL hc (hB.mono fun s hs => ?_) (fun s hs => ?_) (fun t t' c c' s ht ht' hs hs' => ?_)
    hpast hrows
  · rcases hs with hs | hs
    · exact hbd s hs
    · obtain ⟨t, c, ht, hs⟩ := mem_inFlight.1 hs
      obtain ⟨c₀, hc₀, hs⟩ := hsub t c s ht hs
      exact .inr (mem_inFlight.2 ⟨t, c₀, hc₀, hs⟩)
  · obtain ⟨t, c, ht, hs⟩ := mem_inFlight.1 hs
    exact hf t c s ht hs
  · obtain ⟨c₀, hc₀, hs⟩ := hsub t c s ht hs
    obtain ⟨c₀', hc₀', hs'⟩ := hsub t' c' s ht' hs'
    exact hS.own t t' c₀ c₀' s hc₀ hc₀' hs hs'

lemma Sound.still (hpast : h'.past = h.past ∨ h'.past = h.db :: h.past)
    (hrows : ∀ s, h'.db.get (.bd s) = h.db.get (.bd s)) : h'.Sound := by
  have hhas : ∀ s, h'.db.Has (.bd s) → h.db.Has (.bd s) := by
    intro s hs
    unfold Db.Has at hs ⊢
    rw [← hrows]
    exact hs
  refine hS.keep hd he hL hc hB hsub (fun s hs => .inl (hhas s hs)) (fun t c s ht hs hb => ?_) hpast
    fun s v hv => (hrows s).trans hv
  obtain ⟨c₀, hc₀, hs⟩ := hsub t c s ht hs
  exact hS.fresh s (mem_inFlight.2 ⟨t, c₀, hc₀, hs⟩) (hhas s hb)

end

end

lemma Sound.enter (hS : h.Sound) {c : Call}
    (hd : ({ h with machine := { h.machine with calls := h.machine.calls.insert t c } } : Host).Disciplined)
    (hc : PcBacked h.epoch h.db c.name c.pc)
    (hsub : ∀ s ∈ c.pc.allocated, ∃ c₀, h.machine.calls.lookup t = some c₀ ∧ s ∈ c₀.pc.allocated) :
    ({ h with machine := { h.machine with calls := h.machine.calls.insert t c } } : Host).Sound := by
  refine hS.still hd rfl (hS.linked _ mem_cons_self).1 (forall_insert hS.calls hc)
    (hS.beyond.frame rfl rfl fun _ _ _ ht => ht) (fun t' c' s ht hs => ?_) (.inl rfl) fun _ => rfl
  rw [lookup_insert'] at ht
  split_ifs at ht with hne
  · cases ht
    subst hne
    exact hsub s hs
  · exact ⟨c', ht, hs⟩

lemma Sound.fewer (hS : h.Sound) (hd : h'.Disciplined) (he : h'.epoch = h.epoch)
    (hc : ∀ t c, h'.machine.calls.lookup t = some c → h.machine.calls.lookup t = some c)
    (hB : h'.Beyond h.Taken) (hdb : h'.db = h.db) (hpast : h'.past = h.past) : h'.Sound := by
  refine hS.still hd he ?_ (fun t c ht => ?_) hB (fun t c s ht hs => ⟨c, hc t c ht, hs⟩) (.inl hpast)
    fun s => by rw [hdb]
  · rw [hdb]
    exact (hS.linked _ mem_cons_self).1
  · rw [hdb]
    exact hS.calls t c (hc t c ht)

lemma Sound.reserve (hS : h.Sound) (hd : h'.Disciplined) (he : h'.epoch = h.epoch)
    (hc : ∀ t c, h'.machine.calls.lookup t = some c → h.machine.calls.lookup t = some c)
    (hB : h'.Beyond h.Taken) (hdb : h'.db = h.db.write (reserveBatch m)) (hpast : h'.past = h.db :: h.past) :
    h'.Sound := by
  have hget : ∀ k, k ≠ .mx → h'.db.get k = h.db.get k := by
    intro k hk
    rw [hdb]
    exact Db.get_write_single hk.symm
  have hx : Extends h.db h'.db := by
    intro k hk hh
    unfold Db.Has
    rw [hget k (by rintro rfl; cases hk)]
    exact hh
  have hsame : SameEntries h.db h'.db := fun k hk =>
    entryAt_of_get_eq (hget k (by rintro rfl; cases hk))
  have hL := (hS.linked _ mem_cons_self).1.of_same hsame (fun dir x => hget _ (by rintro ⟨⟩)) hx
  exact hS.still hd he hL (fun t c ht => (hS.calls t c (hc t c ht)).mono hx) hB
    (fun t c s ht hs => ⟨c, hc t c ht, hs⟩) (.inr hpast) fun s => hget _ (by rintro ⟨⟩)

lemma Sound.hand (hS : h.Sound) (hd : h'.Disciplined) (he : h'.epoch = h.epoch) {hash : Bytes32} {data : Bytes}
    {n : ℕ} (hcalls : h'.machine.calls = h.machine.calls.insert t ⟨name, .readStaged hash (.fresh n data)⟩)
    (hdb : h'.db = h.db) (hpast : h'.past = h.past) (hnew : ∀ s, h.Taken s → s < n)
    (hB : h'.Beyond fun s => h.Taken s ∨ s = n) : h'.Sound := by
  have hlook : ∀ t' c s, h'.machine.calls.lookup t' = some c → s ∈ c.pc.allocated →
      t' = t ∧ s = n ∨ h.machine.calls.lookup t' = some c := by
    intro t' c s ht hs
    rw [hcalls, lookup_insert'] at ht
    split_ifs at ht with hne
    · cases ht
      exact .inl ⟨hne, mem_singleton.1 hs⟩
    · exact .inr ht
  have htaken : ∀ t' c s, h.machine.calls.lookup t' = some c → s ∈ c.pc.allocated → h.Taken s :=
    fun t' c s ht hs => .inr (mem_inFlight.2 ⟨t', c, ht, hs⟩)
  refine hS.of_parts hd he ?_ (fun t' c ht => ?_) (hB.mono fun s hs => ?_) (fun s hs hb => ?_)
    (fun t₁ t₂ c₁ c₂ s h₁ h₂ hs₁ hs₂ => ?_) (.inl hpast) fun s v hv => by rw [hdb]; exact hv
  · rw [hdb]
    exact (hS.linked _ mem_cons_self).1
  · rw [hcalls] at ht
    rw [hdb]
    refine forall_insert hS.calls ?_ t' c ht
    trivial
  · rcases hs with hs | hs
    · rw [hdb] at hs
      exact .inl (.inl hs)
    · obtain ⟨t', c, ht, hs⟩ := mem_inFlight.1 hs
      rcases hlook t' c s ht hs with ⟨-, rfl⟩ | ht
      · exact .inr rfl
      · exact .inl (htaken t' c s ht hs)
  · rw [hdb] at hb
    obtain ⟨t', c, ht, hs⟩ := mem_inFlight.1 hs
    rcases hlook t' c s ht hs with ⟨-, rfl⟩ | ht
    · exact absurd (hnew s (.inl hb)) (lt_irrefl s)
    · exact hS.fresh s (mem_inFlight.2 ⟨t', c, ht, hs⟩) hb
  · rcases hlook t₁ c₁ s h₁ hs₁ with ⟨rfl, rfl⟩ | h₁
    · rcases hlook t₂ c₂ s h₂ hs₂ with ⟨rfl, -⟩ | h₂
      · rfl
      · exact absurd (hnew s (htaken t₂ c₂ s h₂ hs₂)) (lt_irrefl s)
    · rcases hlook t₂ c₂ s h₂ hs₂ with ⟨rfl, rfl⟩ | h₂
      · exact absurd (hnew s (htaken t₁ c₁ s h₁ hs₁)) (lt_irrefl s)
      · exact hS.own t₁ t₂ c₁ c₂ s h₁ h₂ hs₁ hs₂

lemma Sound.call (hS : h.Sound) {st : Store} {aft aft' : After} {past : List Db} {commits : List ℤ}
    (heq : h' = { h with
      machine := h.machine.after t name (st, aft'), phases := h.phases.erase t
      past := past, commits := commits })
    (hd : h'.Disciplined) (hB : h'.Beyond h.Taken)
    (hc : h.machine.calls.lookup t = some ⟨name, pc⟩) (hna : ∀ hash data, pc ≠ .allocate hash data)
    (hs : pc.Steps h.epoch name h.machine.store st aft) (ha : aft' = aft ∨ ∃ r, aft' = .done r)
    (hl : h.Logs name pc st past commits) : h'.Sound := by
  subst heq
  have hf := hS.disc.formed t _ hc
  have hL := (hS.linked _ mem_cons_self).1
  have hpc := hS.calls t _ hc
  have hdb : (h.machine.after t name (st, aft')).store.db = st.db := by simp
  have hx := hs.extends hf
  have hmine : ∀ s ∈ pc.allocated, s ∈ h.machine.inFlight Pc.allocated :=
    fun s hs => mem_inFlight.2 ⟨t, _, hc, hs⟩
  obtain ⟨hkept, hnew⟩ := hs.rows hf fun s hs => hS.fresh s (hmine s hs)
  -- the numbers that a call has, it had before the step
  have hsub : ∀ t' c s, (h.machine.after t name (st, aft')).calls.lookup t' = some c →
      s ∈ c.pc.allocated → (t' = t ∧ s ∈ aft.seqs Pc.allocated ∧ s ∈ pc.allocated) ∨
        t' ≠ t ∧ h.machine.calls.lookup t' = some c := by
    intro t' c s ht hsc
    rcases Machine.lookup_after (lookup_after_or ha ht) with ⟨ht, rfl, -⟩ | ht
    · exact .inl ⟨ht, hsc, hs.allocated_of_ne hna hsc⟩
    · exact .inr ht
  refine hS.keep hd rfl ?_ (fun t' c ht => ?_) hB (fun t' c s ht hsc => ?_) (fun s hb => ?_)
    (fun t' c s ht hsc hb => ?_) ?_ fun s v hv => ?_
  · rw [Host.db, hdb]
    exact hs.linked hf hL hpc
  · rw [Host.db, hdb]
    rcases Machine.lookup_after (lookup_after_or ha ht) with ⟨-, rfl, hn⟩ | ⟨-, ht⟩
    · rw [hn]
      exact hs.backed hL hpc
    · exact (hS.calls t' c ht).mono hx
  · rcases hsub t' c s ht hsc with ⟨rfl, -, hmem⟩ | ⟨-, ht⟩
    · exact ⟨_, hc, hmem⟩
    · exact ⟨c, ht, hsc⟩
  · rw [Host.db, hdb] at hb
    rcases hnew s hb with hb | ⟨hmem, -⟩
    · exact .inl hb
    · exact .inr (hmine s hmem)
  · rw [Host.db, hdb] at hb
    rcases hnew s hb with hb | ⟨hmem, hnone⟩
    · rcases hsub t' c s ht hsc with ⟨-, -, hmem⟩ | ⟨-, ht⟩
      · exact hS.fresh s (hmine s hmem) hb
      · exact hS.fresh s (mem_inFlight.2 ⟨t', c, ht, hsc⟩) hb
    · -- the row is written now, and no other call has its number
      rcases hsub t' c s ht hsc with ⟨-, hgone, -⟩ | ⟨hne, ht⟩
      · rw [hnone] at hgone
        cases hgone
      · exact hne (hS.own t' t c _ s ht hc hsc hmem)
  · cases hl with
    | read => exact .inl rfl
    | write | commit => exact .inr rfl
  · rw [Host.db, hdb]
    exact hkept s v hv

lemma sound_reopen {db : Db} {epoch : Epoch} {past : List Db} {handed : List (ℕ × ℕ)}
    (hr : reopen db epoch past handed = some h')
    (hL : ∀ db' ∈ db :: past, Linked db' ∧ ∀ s, db'.Has (.bd s) → s < baseSeq db')
    (hp : (db :: past).Pairwise fun new old => ∀ s v, old.get (.bd s) = some v → new.get (.bd s) = some v) :
    h'.Sound := by
  have hd := disciplined_reopen hr
  unfold reopen at hr
  split at hr <;> cases hr
  next range hload =>
  have hnot := not_stocked_load hload
  refine ⟨hd, hL, (by rintro _ _ ⟨⟩), ⟨fun s hs => ?_, fun hlt => absurd hlt hnot, (by rintro _ _ _ ⟨⟩)⟩,
    (by rintro _ ⟨⟩), (by rintro _ _ _ _ _ ⟨⟩), hp⟩
  rcases hs with hs | hs
  · exact (hL db mem_cons_self).2 s hs
  · cases hs

theorem Sound.step (hS : h.Sound) (hm : h.Moves a h') (hroom : h.roomy a = true)
    (hdir : a.sameDir = true) : h'.Sound := by
  have hd := hS.disc.step hm
  have hquiet := fun hcr hh => hS.beyond.quiet hS.disc hm hroom hcr hh
  cases hm with
  | refused => exact hS
  | @start _ _ call ht hop =>
    have hstart : PcBacked h.epoch h.db call.name call.pc ∧ call.pc.allocated = [] := start_backed hop hdir
    obtain ⟨hpc, hnone⟩ := hstart
    refine hS.enter hd hpc fun s hs => ?_
    rw [hnone] at hs
    cases hs
  | @lock t name pc hc =>
    have hpc : PcBacked h.epoch h.db name (.wait pc) := hS.calls t _ hc
    exact hS.enter hd hpc fun s hs => ⟨_, hc, hs⟩
  | call hof hc _ hna hs ha hl =>
    exact hS.call rfl hd (hquiet (by rintro _ _ rfl; cases hof) rfl) hc hna hs ha hl
  | quit hof =>
    exact hS.fewer hd rfl (fun _ _ => lookup_of_erase) (hquiet (by rintro _ _ rfl; cases hof) rfl) rfl rfl
  | advance =>
    exact hS.fewer hd rfl (fun _ _ ht => ht) (hquiet (by rintro _ _ ⟨⟩) rfl) rfl rfl
  | reserve =>
    exact hS.reserve hd rfl (fun _ _ ht => ht) (hquiet (by rintro _ _ ⟨⟩) rfl) rfl rfl
  | reserveFailed =>
    exact hS.reserve hd rfl (fun _ _ => lookup_of_erase) (hquiet (by rintro _ _ ⟨⟩) rfl) rfl rfl
  | take _ hr =>
    exact hS.hand hd rfl rfl rfl rfl (hS.beyond.range hr).2.2.2 (hS.beyond.take hr)
  | @flushed t _ _ _ base limit hc hp =>
    exact hS.hand hd rfl rfl rfl rfl (hS.beyond.flushing t base limit hp).2.2.2.2.1
      ((hS.beyond.flushed hS.disc hp).frame rfl rfl fun _ _ _ ht => ht)
  | @crash lost _ _ _ _ hdrop hr =>
    refine sound_reopen hr (fun db' hdb' => hS.linked db' (mem_of_mem_drop (i := lost) ?_)) ?_
    · rw [hdrop]
      exact hdb'
    · rw [← hdrop]
      exact hS.lasting.sublist (drop_sublist lost h.states)

lemma Sound.bytes (hS : h.Sound) (hm : h.Moves a h') (hcr : ∀ lost epoch, a ≠ .crash lost epoch) {s : ℕ}
    {v : Value} (hv : h.db.get (.bd s) = some v) : h'.db.get (.bd s) = some v := by
  -- a reservation is no block row
  have hreserve : ∀ m, (h.db.write (reserveBatch m)).get (.bd s) = some v := by
    intro m
    rw [← hv]
    exact Db.get_write_single (by rintro ⟨⟩)
  cases hm with
  | refused | start | lock | quit | advance | take | flushed => exact hv
  | @call _ t name _ st _ aft' _ _ hof hc hw hna hs =>
    have hdb : (h.machine.after t name (st, aft')).store.db = st.db := by simp
    rw [Host.db, hdb]
    exact (hs.rows (hS.disc.formed t _ hc) fun s hs => hS.fresh s (mem_inFlight.2 ⟨t, _, hc, hs⟩)).1 s v hv
  | @reserve _ _ _ _ m | @reserveFailed _ _ _ _ m => exact hreserve m
  | @crash lost epoch => exact absurd rfl (hcr lost epoch)

lemma Moves.crash_db {lost : ℕ} {epoch : Epoch} (hm : h.Moves (.crash lost epoch) h') : h'.db ∈ h.states := by
  cases hm with
  | call hof | quit hof => cases hof
  | @crash lost _ db _ h' hdrop hr =>
    have hdb : h'.db = db := by
      unfold reopen at hr
      split at hr <;> cases hr
      rfl
    refine mem_of_mem_drop (i := lost) ?_
    rw [hdrop, hdb]
    exact mem_cons_self

end Sound

/-- For each block with a number in a committed or staged entry, the block row and the reverse reference
exist, and the block pointer of the directory leads to a block row. -/
def Integral (db : Db) : Prop :=
  ∀ k path fi, k.entryPath = some path → entryAt db k = some fi →
    ∀ b ∈ fi.blocks, ∀ s, b.blockseq = some s → ∃ h : Bytes32, h.1 = b.hash ∧ db.Has (.bd s) ∧
      db.Has (.mr h path) ∧ ∃ q, db.get (.mb path.dir h) = some (.blockRef ⟨q⟩) ∧ db.Has (.bd q)

lemma integral_of_linked {db : Db} (hL : Linked db) : Integral db := by
  intro k path fi hk hfi b hb s hs
  obtain ⟨x, hx, hbd, hmr, hmb⟩ := hL.entries k path fi hk hfi b hb s hs
  obtain ⟨v, hv⟩ := isSome_iff_exists.1 hmb
  obtain ⟨q, rfl, hq⟩ := hL.pointers _ _ v hv
  exact ⟨x, hx, hbd, hmr, q, hv, hq⟩

/-- **Block pointers lead to rows.**  In every run whose reservations do not wrap and whose copies are put
into the directory of their source, with failing requests and crashes, every database in the history has
the rows behind its entries, and a step leaves the bytes of a block row as they are, or it is a crash
that loses the row. -/
theorem pointer_integrity {bl : Blooms} {db : Db} {epoch : Epoch} {h₀ h : Host} {acts : List HostAct}
    (hdb : Linked db ∧ ∀ s, db.Has (.bd s) → s < baseSeq db) (h0 : reopen db epoch [] [] = some h₀)
    (hm : Meets (Host.step bl) (fun h a => h.roomy a = true ∧ a.sameDir = true) h₀ acts)
    (hr : run (Host.step bl) h₀ acts = some h) :
    (∀ db ∈ h.states, Integral db) ∧
    ∀ a h', h.step bl a = some h' → ∀ s v, h.db.get (.bd s) = some v →
      h'.db.get (.bd s) = some v ∨ a.isCrash = true ∧ h'.db.get (.bd s) = none := by
  have hinit : h₀.Sound := sound_reopen h0 (fun db' hdb' => by
    rw [mem_singleton.1 hdb']
    exact hdb) (pairwise_singleton _ _)
  have hS : h.Sound := run_inv (P := Sound)
    (fun h a h' hS hg hs => hS.step (step_moves hS.disc hs) hg.1 hg.2) hinit hm hr
  refine ⟨fun db hdb => integral_of_linked (hS.linked db hdb).1, fun a h' hs s v hv => ?_⟩
  have hmv := step_moves hS.disc hs
  by_cases hcr : ∀ lost epoch, a ≠ .crash lost epoch
  · exact .inl (hS.bytes hmv hcr hv)
  · simp only [not_forall, not_not] at hcr
    obtain ⟨lost, epoch, rfl⟩ := hcr
    cases hs' : h'.db.get (.bd s) with
    | none => exact .inr ⟨rfl, rfl⟩
    | some v' =>
      -- the row has lasted from there to here
      have hlast : h.db.get (.bd s) = some v' := by
        rcases mem_cons.1 hmv.crash_db with he | hpast
        · rw [← he]
          exact hs'
        · exact rel_of_pairwise_cons hS.lasting hpast s v' hs'
      rw [hv] at hlast
      exact .inl hlast.symm

/-! ### The end of the counter -/

/-- `f` has two blocks that are not stored inline. -/
def twoLarge : WireFile :=
  ⟨['f'], 8192, some ⟨[⟨1, 1⟩]⟩, 0,
    [⟨List.replicate 32 0, 0, 4096⟩, ⟨List.replicate 32 1, 4096, 4096⟩], 0, false⟩

def storeNth (t : ℕ) (byte : UInt8) (n : ℕ) : List HostAct :=
  wholeCall t (.storeBlock ['f'] (List.replicate 32 byte) (List.replicate 4096 7)) n

def wornOut : Db := (reservedUpTo (2 ^ 64 - 256)).write [.put (.bd 1024) (.data [1])]

/-- `f` is staged and its first block stored; its second block waits for its write. -/
def storedBoth : List HostAct :=
  wholeCall 0 (.stageFile twoLarge) 2 ++ storeNth 1 0 11 ++ storeNth 2 1 9

lemma linked_empty : Linked Db.empty := by
  refine ⟨fun k path fi _ hfi => ?_, (by rintro _ _ _ ⟨⟩)⟩
  rw [entryAt_eq_some] at hfi
  cases hfi

lemma get_wornOut {k : Key} (hmx : k ≠ .mx) (hbd : k ≠ .bd 1024) : wornOut.get k = none := by
  unfold wornOut reservedUpTo
  rw [Db.get_write_of_forall_ne, Db.get_write_of_forall_ne]
  · rfl
  · intro op hop
    rw [mem_singleton.1 hop]
    exact hmx.symm
  · intro op hop
    rw [mem_singleton.1 hop]
    exact hbd.symm

lemma linked_wornOut : Linked wornOut ∧ ∀ s, wornOut.Has (.bd s) → s < baseSeq wornOut := by
  refine ⟨⟨fun k path fi hk hfi => ?_, fun dir h v hv => ?_⟩, fun s hs => ?_⟩
  · rw [entryAt_eq_some, get_wornOut (by rintro rfl; cases hk) (by rintro rfl; cases hk)] at hfi
    cases hfi
  · rw [get_wornOut (by rintro ⟨⟩) (by rintro ⟨⟩)] at hv
    cases hv
  · have hbase : baseSeq wornOut = 2 ^ 64 - 256 := by decide
    by_cases he : s = 1024
    · rw [hbase, he]
      decide
    · unfold Db.Has at hs
      rw [get_wornOut (by rintro ⟨⟩) (by rintro ⟨⟩; exact he rfl)] at hs
      cases hs

set_option maxRecDepth 100000 in
/-- After the last reservation the counter starts again at 1024, and the row with that number is written
over. -/
theorem blockRow_overwritten :
    (Linked wornOut ∧ ∀ s, wornOut.Has (.bd s) → s < baseSeq wornOut) ∧
    ∃ h₀ h h', reopen wornOut firstEpoch [] [] = some h₀ ∧ run (Host.step exactFilters) h₀ storedBoth = some h ∧
      h.step exactFilters (.next 2) = some h' ∧
      h.db.get (.bd 1024) = some (.data [1]) ∧
      h'.db.get (.bd 1024) = some (.data (List.replicate 4096 7)) := by
  refine ⟨linked_wornOut, ?_⟩
  simp only [exists_and_left]
  decide +kernel

/-- `f` is stored and completed, a copy takes its block, and the process crashes. -/
def copied : List HostAct :=
  wholeCall 0 (.stageFile (oneBlock ['f'])) 2 ++ storeNth 1 0 11 ++
  wholeCall 2 (.completeFile ['f'] (oneBlock ['f']).version) 7 ++
  wholeCall 3 (.putFileWithCarry (oneBlock ['g']) ['f']) 7 ++ [.crash 0 firstEpoch]

theorem pointer_integrity_copied :
    ∃ h₀ h, reopen Db.empty firstEpoch [] [] = some h₀ ∧ run (Host.step exactFilters) h₀ copied = some h ∧
      (entryAt h.db (fileKey ['g'])).map seqsOf = some [1024] ∧
      (∀ db ∈ h.states, Integral db) ∧
      ∀ a h', h.step exactFilters a = some h' → ∀ s v, h.db.get (.bd s) = some v →
        h'.db.get (.bd s) = some v ∨ a.isCrash = true ∧ h'.db.get (.bd s) = none := by
  obtain ⟨h₀, h0, hg, h, hr, ho⟩ : ∃ h₀, reopen Db.empty firstEpoch [] [] = some h₀ ∧
      Meets (Host.step exactFilters) (fun h a => h.roomy a = true ∧ a.sameDir = true) h₀ copied ∧
      ∃ h, run (Host.step exactFilters) h₀ copied = some h ∧
        (entryAt h.db (fileKey ['g'])).map seqsOf = some [1024] := by decide +kernel
  exact ⟨h₀, h, h0, hr, ho, pointer_integrity ⟨linked_empty, (by rintro _ ⟨⟩)⟩ h0 hg hr⟩

end Host

end Bepository.Storage
