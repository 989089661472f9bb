import Bepository.Storage.Machine

/-!
# Where the numbers of a call come from

A call in flight carries block numbers that it may yet write into an entry.  Those in an entry it has
read are *kept*; those it will record with the compactions once they are written are *picked*; those
it has written and not yet recorded are *unrecorded*.  The lemmas say, for every step of a call, where
the numbers in entries and in these lists can have come from and what happens to the block rows.
-/

namespace Bepository.Storage

open Lib List Option Table

/-! ### Numbers in entries -/

def seqsOf (fi : StoredFile) : List ℕ := fi.blocks.filterMap StoredBlock.blockseq

def Value.seqs (v : Value) : List ℕ :=
  match v.decodeFile with
  | some (some fi) => seqsOf fi
  | _ => []

def Key.isEntry (epoch : Epoch) : Key → Bool
  | .mn _ => true
  | .mi e _ => e = epoch
  | _ => false

def entrySeqs (epoch : Epoch) (db : Db) : List ℕ :=
  db.rows.toList.flatMap fun r => if r.1.isEntry epoch then r.2.val.seqs else []

section Entries

variable {epoch : Epoch} {db : Db} {s : ℕ} {new old fi : StoredFile}

lemma mem_entrySeqs :
    s ∈ entrySeqs epoch db ↔ ∃ k v, k.isEntry epoch = true ∧ db.get k = some v ∧ s ∈ v.seqs := by
  unfold entrySeqs
  rw [mem_flatMap]
  constructor
  · rintro ⟨⟨k, r⟩, hr, hs⟩
    rw [Table.mem_toList] at hr
    by_cases hk : k.isEntry epoch = true
    · rw [if_pos hk] at hs
      exact ⟨k, r.val, hk, Db.get_eq_some.2 ⟨r, hr, rfl⟩, hs⟩
    · rw [if_neg hk] at hs
      cases hs
  · rintro ⟨k, v, hk, hv, hs⟩
    obtain ⟨r, hr, rfl⟩ := Db.get_eq_some.1 hv
    exact ⟨(k, r), Table.mem_toList.2 hr, by rwa [if_pos hk]⟩

lemma mem_entrySeqs_of_get {k : Key} (hk : k.isEntry epoch = true) (hv : db.get k = some (.file (some fi)))
    (hs : s ∈ seqsOf fi) : s ∈ entrySeqs epoch db :=
  mem_entrySeqs.2 ⟨k, _, hk, hv, hs⟩

lemma mem_entrySeqs_write {batch : WriteBatch} (h : s ∈ entrySeqs epoch (db.write batch)) :
    s ∈ entrySeqs epoch db ∨ ∃ k v, .put k v ∈ batch ∧ k.isEntry epoch = true ∧ s ∈ v.seqs := by
  obtain ⟨k, v, hk, hv, hs⟩ := mem_entrySeqs.1 h
  rcases Db.get_write_eq_some hv with hput | ⟨-, hold⟩
  · exact .inr ⟨k, v, hput, hk, hs⟩
  · exact .inl (mem_entrySeqs.2 ⟨k, v, hk, hold, hs⟩)

lemma isEntry_fileKey {name : Str} : (fileKey name).isEntry epoch = true := rfl

lemma isEntry_inboxKey {name : Str} : (inboxKey epoch name).isEntry epoch = true :=
  decide_eq_true rfl

/-! ### Numbers through the pure parts -/

lemma mem_seqsOf : s ∈ seqsOf fi ↔ ∃ b ∈ fi.blocks, b.blockseq = some s := mem_filterMap

@[simp] lemma seqsOf_toStored (f : WireFile) : seqsOf f.toStored = [] := by
  unfold seqsOf FileInfo.toStored
  rw [filterMap_map]
  exact filterMap_eq_nil_iff.2 fun _ _ => rfl

lemma mem_seqsOf_carry (h : s ∈ seqsOf (carryBlockPointers new old)) : s ∈ seqsOf new ∨ s ∈ seqsOf old := by
  obtain ⟨b, hb, hs⟩ := mem_seqsOf.1 h
  obtain ⟨b₀, hb₀, hcase⟩ := exists_carried hb
  cases hcase with
  | kept | missed => exact .inl (mem_seqsOf.2 ⟨b, hb₀, hs⟩)
  | taken src _ hsrc => exact .inr (mem_seqsOf.2 ⟨src, hsrc, hs⟩)

lemma mem_seqsOf_point {hash : Bytes} {seq : Option ℕ} {inline : Option Bytes}
    (h : s ∈ seqsOf (pointBlocks hash seq inline fi)) : s ∈ seqsOf fi ∨ seq = some s := by
  obtain ⟨b, hb, hs⟩ := mem_seqsOf.1 h
  obtain ⟨b₀, hb₀, rfl⟩ := List.mem_map.1 hb
  split_ifs at hs
  · exact .inr hs
  · exact .inl (mem_seqsOf.2 ⟨b₀, hb₀, hs⟩)

variable {src : Option StoredFile}

lemma mem_seqsOf_carryFromSource {file : WireFile}
    (h : s ∈ seqsOf (carryFromSource file src).1) : ∃ fi, src = some fi ∧ s ∈ seqsOf fi := by
  cases src with
  | none => simp [carryFromSource] at h
  | some fi =>
    refine ⟨fi, rfl, ?_⟩
    rcases mem_seqsOf_carry h with hnew | hold
    · simp at hnew
    · exact hold

lemma mem_seqsOf_carried {file : WireFile}
    (h : s ∈ (carryFromSource file src).2.2.map Prod.snd) : s ∈ seqsOf (carryFromSource file src).1 := by
  cases src with
  | none => cases h
  | some =>
    obtain ⟨⟨hash, seq⟩, hc, rfl⟩ := List.mem_map.1 h
    obtain ⟨b, hb, he⟩ := mem_filterMap.1 hc
    obtain ⟨seq', hseq, he⟩ := bind_eq_some_iff.1 he
    obtain ⟨hash', -, he⟩ := map_eq_some_iff.1 he
    cases he
    exact mem_seqsOf.2 ⟨b, hb, hseq⟩

end Entries

/-! ### Numbers in flight -/

def Link.picked : Link → List ℕ
  | .existing _ seq => [seq]
  | _ => []

def Pc.kept : Pc → List ℕ
  | .wait pc => pc.kept
  | .commitRead stored _ carried => (seqsOf stored).filter (· ∉ carried.map Prod.snd)
  | .commitWrite stored _ carried => (seqsOf stored).filter (· ∉ carried.map Prod.snd)
  | .readCommitted staged => seqsOf staged
  | .write _ _ entry => seqsOf entry.1
  | _ => []

def Pc.picked : Pc → List ℕ
  | .wait pc => pc.picked
  | .commitRead _ _ carried => carried.map Prod.snd
  | .commitWrite _ _ carried => carried.map Prod.snd
  | .readStaged _ link => link.picked
  | .readMain _ link => link.picked
  | .write _ link _ => link.picked
  | _ => []

def Pc.unrecorded : Pc → List ℕ
  | .record recs => recs.map Prod.snd
  | _ => []

def After.seqs (f : Pc → List ℕ) : After → List ℕ
  | .go pc => f pc
  | .done _ => []

/-- Rows of a commit batch besides the entry: reverse references, and deletions of a staged entry or
of a sequence row. -/
def BatchOp.bookkeeping : BatchOp → Bool
  | .put (.mr ..) .empty => true
  | .delete (.mi ..) => true
  | .delete (.ms _) => true
  | _ => false

def Pc.Formed (epoch : Epoch) : Pc → Prop
  | .wait pc => pc.Formed epoch
  | .commitRead _ batch _ => ∀ op ∈ batch, op.bookkeeping = true
  | .commitWrite _ batch _ => ∀ op ∈ batch, op.bookkeeping = true
  | .write _ _ entry => entry.2.isEntry epoch = true
  | _ => True

def After.Formed (epoch : Epoch) : After → Prop
  | .go pc => pc.Formed epoch
  | .done _ => True

section Flow

variable {epoch : Epoch} {name : Str} {st st' : Store} {pc : Pc} {aft : After} {s : ℕ}

@[simp] lemma kept_recordNext (recs : List (Bytes32 × ℕ)) : (recordNext recs).seqs Pc.kept = [] := by
  cases recs <;> rfl

@[simp] lemma picked_recordNext (recs : List (Bytes32 × ℕ)) : (recordNext recs).seqs Pc.picked = [] := by
  cases recs <;> rfl

@[simp] lemma unrecorded_recordNext (recs : List (Bytes32 × ℕ)) :
    (recordNext recs).seqs Pc.unrecorded = recs.map Prod.snd := by
  cases recs <;> rfl

variable {data : Option Bytes} {hash : Bytes32}

lemma Pc.Searching.kept (h : pc.Searching hash data) : pc.kept = [] := by
  cases h <;> rfl

lemma Pc.Searching.picked (h : pc.Searching hash data) : pc.picked = [] := by
  cases h <;> rfl

lemma Pc.Searching.unrecorded (h : pc.Searching hash data) : pc.unrecorded = [] := by
  cases h <;> rfl

/-! ### The batches -/

lemma bookkeeping_carryFromSource {file : WireFile} {src : Option StoredFile} :
    ∀ op ∈ (carryFromSource file src).2.1, op.bookkeeping = true := by
  cases src with
  | none => rintro _ ⟨⟩
  | some =>
    intro op hop
    obtain ⟨c, -, rfl⟩ := List.mem_map.1 hop
    rfl

variable {stored stored' : StoredFile} {link : Link} {v : Value} {entry : StoredFile × Key} {db : Db} {k : Key}

lemma bookkeeping_commitRead {batch batch' : WriteBatch}
    (h : commitRead db name stored batch = .ok (stored', batch'))
    (hb : ∀ op ∈ batch, op.bookkeeping = true) : ∀ op ∈ batch', op.bookkeeping = true := by
  rcases commitRead_eq_ok h with ⟨-, -, rfl⟩ | ⟨old, -, -, rfl⟩
  · exact hb
  · intro op hop
    rcases mem_append.1 hop with hop | hop
    · exact hb op hop
    · split_ifs at hop
      · rw [mem_singleton.1 hop]
        rfl
      · cases hop

lemma Pc.Steps.formed (h : pc.Steps epoch name st st' aft) (hf : pc.Formed epoch) : aft.Formed epoch := by
  cases h with
  | stop | stagePut | readInbox | pointer | hit | allocate | toMain => trivial
  | waiting => exact hf
  | readSource => exact bookkeeping_carryFromSource
  | commitRead hr => exact bookkeeping_commitRead hr hf
  | @commitWrite _ _ carried => cases carried <;> trivial
  | readCommitted =>
    intro op hop
    rw [mem_singleton.1 hop]
    rfl
  | search _ h' => cases h' <;> trivial
  | @inboxEntry _ _ entry he =>
    change entry.2.isEntry epoch = true
    rw [(findInboxEntry_eq_some he).1]
    exact isEntry_inboxKey
  | @mainEntry _ _ entry he =>
    change entry.2.isEntry epoch = true
    rw [(findMainEntry_eq_ok he).1]
    exact isEntry_fileKey
  | @write _ link => cases link <;> trivial
  | @record _ _ recs => cases recs <;> trivial

lemma isEntry_of_mem_linkBatch (h : .put k v ∈ link.batch name hash) : k.isEntry epoch = false := by
  rcases mem_linkRows h with h | ⟨seq, -, h⟩ | ⟨seq, data, -, h⟩ <;> (cases h; rfl)

lemma of_mem_linkBatch_bd {op : BatchOp} (h : op ∈ link.batch name hash)
    (hk : op.key = .bd s) : ∃ data, link = .fresh s data := by
  rcases mem_linkRows h with rfl | ⟨seq, -, rfl⟩ | ⟨seq, data, hl, rfl⟩ <;> cases hk
  exact ⟨data, hl⟩

lemma bookkeeping_ne_bd {op : BatchOp} (h : op.bookkeeping = true) : op.key ≠ .bd s := by
  rintro hk
  cases op with
  | put k | delete k => cases (show k = .bd s from hk); cases h

lemma bookkeeping_not_entry (h : (BatchOp.put k v).bookkeeping = true) : k.isEntry epoch = false := by
  cases k with
  | mr => rfl
  | _ => cases h

lemma lookup_bd_commitWrite {db db' : Db} {batch : WriteBatch}
    (h : commitWrite db name stored batch = .ok (db', stored')) (hb : ∀ op ∈ batch, op.bookkeeping = true) :
    db'.rows.lookup (.bd s) = db.rows.lookup (.bd s) := by
  obtain ⟨m, -, -, -, rfl⟩ := commitWrite_eq_ok h
  refine Db.lookup_write_of_forall_ne fun op hop => ?_
  rcases mem_append.1 hop with hop | hop
  · exact bookkeeping_ne_bd (hb op hop)
  · simp only [mem_cons, not_mem_nil, or_false] at hop
    rcases hop with rfl | rfl | rfl <;> rintro ⟨⟩

lemma lookup_bd_write_fresh {data : Bytes} (he : entry.2.isEntry epoch = true) {fi : StoredFile} :
    (db.write ((Link.fresh s data).batch name hash ++ [.put entry.2 (.file (some fi))])).rows.lookup
      (.bd s) = some ⟨.data data, db.next⟩ := by
  have hne : entry.2 ≠ .bd s := by
    intro h
    rw [h] at he
    cases he
  simp [Db.lookup_write, lastOp, Link.batch, blockReverseKey, BatchOp.key, hne]

/-! ### Steps -/

lemma get_write_link (he : entry.2.isEntry epoch = true) (hk : k = .mx ∨ (∃ d, k = .md d) ∨ ∃ q, k = .ms q) :
    (db.write (link.batch name hash ++ [.put entry.2 v])).get k = db.get k := by
  refine Db.get_write_of_forall_ne fun op hop => ?_
  rcases mem_append.1 hop with hop | hop
  · rcases mem_linkRows hop with rfl | ⟨seq, -, rfl⟩ | ⟨seq, data, -, rfl⟩ <;>
      rcases hk with rfl | ⟨d, rfl⟩ | ⟨q, rfl⟩ <;> rintro ⟨⟩
  · rw [mem_singleton.1 hop]
    intro hkey
    rw [show entry.2 = k from hkey] at he
    rcases hk with rfl | ⟨d, rfl⟩ | ⟨q, rfl⟩ <;> cases he

section

variable (h : pc.Steps epoch name st st' aft)
include h

/-- **Block rows.**  A step leaves the row of a block alone, or it is the write of a new one. -/
lemma Pc.Steps.lookup_bd (hf : pc.Formed epoch) (s : ℕ) :
    st'.db.rows.lookup (.bd s) = st.db.rows.lookup (.bd s) ∨
      ∃ hash data entry, pc = .write hash (.fresh s data) entry ∧ aft = .go (.record [(hash, s)]) ∧
        st'.db.rows.lookup (.bd s) = some ⟨.data data, st.db.next⟩ := by
  cases h with
  | commitWrite hw => exact .inl (lookup_bd_commitWrite hw hf)
  | stagePut =>
    exact .inl (Db.lookup_write_single (by rintro ⟨⟩))
  | allocate ha =>
    exact .inl (allocate_lookup ha (by rintro ⟨⟩))
  | @write hash link entry _ hl =>
    rw [linkBatch_eq_ok hl]
    by_cases hfr : ∃ data, link = .fresh s data
    · obtain ⟨data, rfl⟩ := hfr
      exact .inr ⟨hash, data, entry, rfl, rfl, lookup_bd_write_fresh hf⟩
    · refine .inl (Db.lookup_write_of_forall_ne fun op hop hk => ?_)
      rcases mem_append.1 hop with hop | hop
      · exact hfr (of_mem_linkBatch_bd hop hk)
      · rw [mem_singleton.1 hop] at hk
        have he : entry.2.isEntry epoch = true := hf
        rw [show entry.2 = .bd s from hk] at he
        cases he
  | _ => exact .inl rfl

/-- **Entries.**  A number in an entry after the step was in an entry, or in the entry the call had
read, or it is now unrecorded: picked before, or just written. -/
lemma Pc.Steps.entrySeqs (hf : pc.Formed epoch) (hs : s ∈ entrySeqs epoch st'.db) :
    s ∈ entrySeqs epoch st.db ∨ s ∈ pc.kept ∨ s ∈ aft.seqs Pc.unrecorded ∧
        (s ∈ pc.picked ∨ ∃ v, st'.db.rows.lookup (.bd s) = some ⟨v, st.db.next⟩) := by
  cases h with
  | @commitWrite _ _ carried _ _ hw =>
    obtain ⟨m, -, -, rfl, rfl⟩ := commitWrite_eq_ok hw
    rcases mem_entrySeqs_write hs with hold | ⟨k, v, hput, hk, hs⟩
    · exact .inl hold
    · rcases mem_append.1 hput with hput | hput
      · rw [bookkeeping_not_entry (hf _ hput)] at hk
        cases hk
      · simp only [mem_cons, not_mem_nil, or_false] at hput
        rcases hput with hput | hput | hput <;> cases hput
        · cases hk
        · by_cases hc : s ∈ carried.map Prod.snd
          · exact .inr (.inr ⟨by rwa [unrecorded_recordNext], .inl hc⟩)
          · exact .inr (.inl (mem_filter.2 ⟨hs, decide_eq_true hc⟩))
        · cases hk
  | stagePut =>
    rcases mem_entrySeqs_write hs with hold | ⟨k, v, hput, -, hs⟩
    · exact .inl hold
    · cases mem_singleton.1 hput
      simp [Value.seqs, Value.decodeFile] at hs
  | allocate ha =>
    rcases allocate_eq_ok ha with ⟨-, -, rfl, -⟩ | ⟨-, m, -, -, rfl, -⟩
    · exact .inl hs
    · rcases mem_entrySeqs_write hs with hold | ⟨k, v, hput, hk, -⟩
      · exact .inl hold
      · cases mem_singleton.1 hput
        cases hk
  | @write _ link _ _ hl =>
    rw [linkBatch_eq_ok hl] at hs ⊢
    rcases mem_entrySeqs_write hs with hold | ⟨k, v, hput, hk, hs⟩
    · exact .inl hold
    · rcases mem_append.1 hput with hput | hput
      · rw [isEntry_of_mem_linkBatch hput] at hk
        cases hk
      · cases mem_singleton.1 hput
        rcases mem_seqsOf_point hs with hs | hs
        · exact .inr (.inl hs)
        · refine .inr (.inr ⟨by simp [hs], ?_⟩)
          cases link with
          | inline => cases hs
          | existing => cases hs; exact .inl (mem_singleton_self s)
          | fresh => cases hs; exact .inr ⟨_, lookup_bd_write_fresh hk⟩
  | _ => exact .inl hs

/-- **Kept numbers** were kept before or are in an entry. -/
lemma Pc.Steps.kept (hs : s ∈ aft.seqs Pc.kept) : s ∈ pc.kept ∨ s ∈ Storage.entrySeqs epoch st.db := by
  cases h with
  | stop | stagePut | pointer | hit | allocate | toMain => cases hs
  | waiting => exact .inl hs
  | readSource hr =>
    obtain ⟨fi, rfl, hfi⟩ := mem_seqsOf_carryFromSource (mem_filter.1 hs).1
    exact .inr (mem_entrySeqs_of_get isEntry_fileKey (getFileProto_eq_some hr) hfi)
  | commitRead hr =>
    obtain ⟨hs, hc⟩ := mem_filter.1 hs
    rcases commitRead_eq_ok hr with ⟨-, rfl, -⟩ | ⟨old, hold, rfl, -⟩
    · exact .inl (mem_filter.2 ⟨hs, hc⟩)
    · rcases mem_seqsOf_carry hs with hs | hs
      · exact .inl (mem_filter.2 ⟨hs, hc⟩)
      · exact .inr (mem_entrySeqs_of_get isEntry_fileKey (getFileProto_eq_some hold) hs)
  | commitWrite | write | record => simp at hs
  | readInbox hr =>
    exact .inr (mem_entrySeqs_of_get isEntry_inboxKey (readStaged_eq_some hr) hs)
  | readCommitted => exact .inl (mem_filter.1 hs).1
  | search _ h' => rw [After.seqs, h'.kept] at hs; cases hs
  | inboxEntry he =>
    exact .inr (mem_entrySeqs_of_get isEntry_inboxKey (findInboxEntry_eq_some he).2 hs)
  | mainEntry he =>
    exact .inr (mem_entrySeqs_of_get isEntry_fileKey (findMainEntry_eq_ok he).2 hs)

/-- **Picked numbers** were picked before, are in an entry, or have just been found with their row. -/
lemma Pc.Steps.picked (hs : s ∈ aft.seqs Pc.picked) : s ∈ pc.picked ∨ s ∈ Storage.entrySeqs epoch st.db ∨
      (st.db.get (.bd s)).isSome ∧ ∃ hash data dir dirs, pc = .readData hash data dir s dirs := by
  cases h with
  | stop | stagePut | readInbox | readCommitted | pointer | allocate => cases hs
  | waiting | commitRead | toMain | inboxEntry | mainEntry => exact .inl hs
  | readSource hr =>
    obtain ⟨fi, rfl, hfi⟩ := mem_seqsOf_carryFromSource (mem_seqsOf_carried hs)
    exact .inr (.inl (mem_entrySeqs_of_get isEntry_fileKey (getFileProto_eq_some hr) hfi))
  | commitWrite | write | record => simp at hs
  | search _ h' => rw [After.seqs, h'.picked] at hs; cases hs
  | @hit hash data dir _ dirs hd =>
    cases mem_singleton.1 hs
    exact .inr (.inr ⟨hd, hash, data, dir, dirs, rfl⟩)

/-- **Unrecorded numbers** stay unrecorded until every running job knows them. -/
lemma Pc.Steps.unrecorded (hs : s ∈ pc.unrecorded) :
    s ∈ aft.seqs Pc.unrecorded ∨ ∀ j js, st'.gc.jobs.lookup j = some js → s ∈ js.knownLiveSeqs := by
  cases h with
  | @stop pc _ hne =>
    cases pc with
    | record recs =>
      cases recs with
      | nil => cases hs
      | cons c recs => exact absurd rfl (hne c recs)
    | _ => cases hs
  | search h => rw [h.unrecorded] at hs; cases hs
  | record =>
    rcases mem_cons.1 hs with rfl | hs
    · refine .inr fun j js hj => ?_
      rw [CompactionState.recordBlockWrite, lookup_map, map_eq_some_iff] at hj
      obtain ⟨js, -, rfl⟩ := hj
      exact mem_cons_self
    · exact .inl (by rwa [unrecorded_recordNext])
  | _ => cases hs

/-- **Jobs** only learn. -/
lemma Pc.Steps.known {j : ℕ} {js' : CompactionJobState} (hj : st'.gc.jobs.lookup j = some js') :
    ∃ js, st.gc.jobs.lookup j = some js ∧ js.knownLiveSeqs ⊆ js'.knownLiveSeqs := by
  cases h with
  | @record _ seq =>
    rw [CompactionState.recordBlockWrite, lookup_map, map_eq_some_iff] at hj
    obtain ⟨js, hj, rfl⟩ := hj
    exact ⟨js, hj, subset_cons_self seq js.knownLiveSeqs⟩
  | _ => exact ⟨js', hj, List.Subset.refl _⟩

/-- **Stamps** only grow. -/
lemma Pc.Steps.next_le : st.db.next ≤ st'.db.next := by
  cases h with
  | commitWrite hw =>
    obtain ⟨m, -, -, -, rfl⟩ := commitWrite_eq_ok hw
    exact Nat.le_succ _
  | stagePut | write => exact Nat.le_succ _
  | allocate ha =>
    rcases allocate_eq_ok ha with ⟨-, -, rfl, -⟩ | ⟨-, m, -, -, rfl, -⟩
    · exact le_rfl
    · exact Nat.le_succ _
  | _ => exact le_rfl

end

end Flow

/-! ### All calls -/

def Machine.inFlight (m : Machine) (f : Pc → List ℕ) : List ℕ :=
  m.calls.toList.flatMap fun c => f c.2.pc

section InFlight

variable {m : Machine} {f : Pc → List ℕ} {s t : ℕ} {name : Str} {pc : Pc} {st : Store} {aft : After}

lemma mem_inFlight : s ∈ m.inFlight f ↔ ∃ t c, m.calls.lookup t = some c ∧ s ∈ f c.pc := by
  unfold Machine.inFlight
  rw [mem_flatMap]
  constructor
  · rintro ⟨⟨t, c⟩, hc, hs⟩
    exact ⟨t, c, Table.mem_toList.1 hc, hs⟩
  · rintro ⟨t, c, hc, hs⟩
    exact ⟨(t, c), Table.mem_toList.2 hc, hs⟩

lemma mem_inFlight_after (h : s ∈ (m.after t name (st, aft)).inFlight f) :
    s ∈ aft.seqs f ∨ s ∈ m.inFlight f := by
  obtain ⟨t', c, hc, hs⟩ := mem_inFlight.1 h
  rcases Machine.lookup_after hc with ⟨-, rfl, -⟩ | ⟨-, hc⟩
  · exact .inl hs
  · exact .inr (mem_inFlight.2 ⟨t', c, hc, hs⟩)

lemma inFlight_after_self (h : s ∈ aft.seqs f) : s ∈ (m.after t name (st, aft)).inFlight f := by
  cases aft with
  | go pc => exact mem_inFlight.2 ⟨t, ⟨name, pc⟩, AList.lookup_insert _, h⟩
  | done => cases h

lemma inFlight_after (hc : m.calls.lookup t = some ⟨name, pc⟩) (h : s ∈ m.inFlight f) :
    s ∈ f pc ∨ s ∈ (m.after t name (st, aft)).inFlight f := by
  obtain ⟨t', c, hc', hs⟩ := mem_inFlight.1 h
  by_cases ht : t' = t
  · subst ht
    rw [hc] at hc'
    cases hc'
    exact .inl hs
  · refine .inr (mem_inFlight.2 ⟨t', c, ?_, hs⟩)
    cases aft with
    | go => exact (AList.lookup_insert_ne ht).trans hc'
    | done => exact (AList.lookup_erase_ne ht).trans hc'

end InFlight

end Bepository.Storage
