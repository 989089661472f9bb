import Bepository.Storage.Flow

/-!
# Properties of block pointers that every step keeps

A call moves pointers in two ways: a block takes over the pointer of a block with the same hash
(`carry_block_pointers`), or it is linked to a number or to bytes that the call has in hand.  A
property of blocks that both keep, together with what it says of the numbers and bytes in hand, is a
`PointerRule`; `PointerRule.step` is the invariant rule for the steps of a call.
-/

namespace Bepository.Storage

open Lib List Option

/-- A property of blocks, and what calls may have in hand for a hash. -/
structure PointerRule where
  /-- Blocks in entries. -/
  block : StoredBlock → Prop
  /-- Numbers of rows that are there. -/
  number : Bytes → ℕ → Prop
  /-- Numbers that are allocated and not yet written. -/
  fresh : Bytes → ℕ → Prop
  /-- Payloads. -/
  bytes : Bytes → Bytes → Prop
  /-- What the compactions are told. -/
  told : Bytes32 → ℕ → Prop
  carry : ∀ {b src : StoredBlock}, block b → block src → src.hash = b.hash →
    block { b with blockseq := src.blockseq, inlineData := src.inlineData }
  toRow : ∀ {b : StoredBlock} {s : ℕ}, block b → number b.hash s →
    block { b with blockseq := some s, inlineData := none }
  toBytes : ∀ {b : StoredBlock} {d : Bytes}, block b → bytes b.hash d →
    block { b with blockseq := none, inlineData := some d }
  tellBlock : ∀ {b : StoredBlock} {s : ℕ} {h : Bytes32}, block b → b.blockseq = some s → h.1 = b.hash →
    told h s
  tellRow : ∀ {h : Bytes32} {s : ℕ}, number h.1 s → told h s

namespace PointerRule

variable (ρ : PointerRule)

def OnFile (fi : StoredFile) : Prop := ∀ b ∈ fi.blocks, ρ.block b

/-- Every file and every block pointer of the database. -/
structure OnDb (db : Db) : Prop where
  files : ∀ k fi, db.get k = some (.file (some fi)) → ρ.OnFile fi
  refs : ∀ dir hash ref, db.get (.mb dir hash) = some (.blockRef ref) → ρ.number hash.1 ref.seqno

def OnLink (hash : Bytes) : Link → Prop
  | .inline data => ρ.bytes hash data
  | .existing _ seq => ρ.number hash seq
  | .fresh seq data => ρ.fresh hash seq ∧ ρ.bytes hash data

def OnPc : Pc → Prop
  | .readSource file _ => ρ.OnFile file.toStored
  | .wait pc => OnPc pc
  | .commitRead stored _ carried => ρ.OnFile stored ∧ ∀ c ∈ carried, ρ.told c.1 c.2
  | .commitWrite stored _ carried => ρ.OnFile stored ∧ ∀ c ∈ carried, ρ.told c.1 c.2
  | .stagePut file => ρ.OnFile file.toStored
  | .readInbox _ => True
  | .readCommitted staged => ρ.OnFile staged
  | .checkSafe hash data => ∀ d, data = some d → ρ.bytes hash.1 d
  | .scanRefs hash data => ∀ d, data = some d → ρ.bytes hash.1 d
  | .readPointer hash data _ => ∀ d, data = some d → ρ.bytes hash.1 d
  | .readData hash data _ seq _ => ρ.number hash.1 seq ∧ ∀ d, data = some d → ρ.bytes hash.1 d
  | .allocate hash data => ρ.bytes hash.1 data
  | .readStaged hash link => ρ.OnLink hash.1 link
  | .readMain hash link => ρ.OnLink hash.1 link
  | .write hash link entry => ρ.OnLink hash.1 link ∧ ρ.OnFile entry.1
  | .record recs => ∀ c ∈ recs, ρ.told c.1 c.2

def OnAfter : After → Prop
  | .go pc => ρ.OnPc pc
  | .done _ => True

variable {ρ} {fi new old : StoredFile} {db : Db} {pc : Pc}

/-! ### Pointers carried and set -/

lemma OnFile.carried (hnew : ρ.OnFile new) (hold : ρ.OnFile old) : ρ.OnFile (carryBlockPointers new old) := by
  intro b hb
  obtain ⟨b₀, hb₀, hcase⟩ := exists_carried hb
  cases hcase with
  | kept | missed => exact hnew b hb₀
  | taken src _ hsrc hh => exact ρ.carry (hnew b₀ hb₀) (hold src hsrc) hh

lemma OnFile.point {hash : Bytes} {link : Link} (h : ρ.OnFile fi) (hl : ρ.OnLink hash link)
    (hfr : ∀ s data, link = .fresh s data → ρ.number hash s) :
    ρ.OnFile (pointBlocks hash link.seq link.inlineData fi) := by
  intro b hb
  obtain ⟨b₀, hb₀, rfl⟩ := mem_map.1 hb
  split_ifs with hh
  · subst hh
    cases link with
    | inline => exact ρ.toBytes (h b₀ hb₀) hl
    | existing => exact ρ.toRow (h b₀ hb₀) hl
    | fresh seq data => exact ρ.toRow (h b₀ hb₀) (hfr seq data rfl)
  · exact h b₀ hb₀

variable {src : Option StoredFile} {data : Option Bytes}

lemma OnFile.carryFromSource {file : WireFile} (hf : ρ.OnFile file.toStored)
    (hs : ∀ fi, src = some fi → ρ.OnFile fi) : ρ.OnFile (carryFromSource file src).1 := by
  cases src with
  | none => exact hf
  | some fi => exact hf.carried (hs fi rfl)

lemma OnFile.told {file : WireFile} (h : ρ.OnFile (Storage.carryFromSource file src).1) :
    ∀ c ∈ (Storage.carryFromSource file src).2.2, ρ.told c.1 c.2 := by
  intro c hc
  cases src with
  | none => cases hc
  | some =>
    obtain ⟨b, hb, he⟩ := mem_filterMap.1 hc
    obtain ⟨seq, hseq, he⟩ := bind_eq_some_iff.1 he
    obtain ⟨hash, hh, rfl⟩ := map_eq_some_iff.1 he
    exact ρ.tellBlock (h b hb) hseq (toBytes32_eq_some.1 hh)

lemma OnDb.write {batch : WriteBatch} (h : ρ.OnDb db) (hf : ∀ k fi, .put k (.file (some fi)) ∈ batch → ρ.OnFile fi)
    (hr : ∀ dir hash ref, .put (.mb dir hash) (.blockRef ref) ∈ batch → ρ.number hash.1 ref.seqno) :
    ρ.OnDb (db.write batch) := by
  constructor
  · intro k fi hk
    rcases Db.get_write_eq_some hk with hput | ⟨-, hold⟩
    · exact hf k fi hput
    · exact h.files k fi hold
  · intro dir hash ref hk
    rcases Db.get_write_eq_some hk with hput | ⟨-, hold⟩
    · exact hr dir hash ref hput
    · exact h.refs dir hash ref hold

/-! ### One step of a call -/

lemma value_of_bookkeeping {k : Key} {v : Value} (h : (BatchOp.put k v).bookkeeping = true) : v = .empty := by
  cases k with
  | mr => cases v <;> first | rfl | cases h
  | _ => cases h

lemma OnPc.payload {hash : Bytes32} (hpc : ρ.OnPc pc) (h : pc.Searching hash data) :
    ∀ d, data = some d → ρ.bytes hash.1 d := by
  cases h with
  | readData => exact hpc.2
  | allocate d hd =>
    rintro d' rfl
    cases hd
    exact hpc
  | _ => exact hpc

lemma onPc_of_searching {hash : Bytes32} (h : pc.Searching hash data)
    (hne : ∀ dir seq dirs, pc ≠ .readData hash data dir seq dirs)
    (hd : ∀ d, data = some d → ρ.bytes hash.1 d) : ρ.OnPc pc := by
  cases h with
  | readData dir seq dirs => exact absurd rfl (hne dir seq dirs)
  | allocate d he => exact hd d he
  | _ => exact hd

lemma onAfter_recordNext {recs : List (Bytes32 × ℕ)} (h : ∀ c ∈ recs, ρ.told c.1 c.2) :
    ρ.OnAfter (recordNext recs) := by
  cases recs with
  | nil => trivial
  | cons => exact h

/-- **The invariant rule for calls.**  A new number has to be right for its hash when it is allocated
and when its row is written; the rest is kept. -/
theorem step {epoch : Epoch} {name : Str} {st st' : Store} {aft : After} (h : pc.Steps epoch name st st' aft)
    (hf : pc.Formed epoch) (hdb : ρ.OnDb st.db) (hpc : ρ.OnPc pc)
    (hnew : ∀ hash data seq db range, pc = .allocate hash data →
      allocate st.db st.range = .ok (seq, db, range) → ρ.fresh hash.1 seq)
    (hfr : ∀ hash s data entry, pc = .write hash (.fresh s data) entry →
      aft = .go (.record [(hash, s)]) → ρ.number hash.1 s) : ρ.OnDb st'.db ∧ ρ.OnAfter aft := by
  cases h with
  | stop => exact ⟨hdb, trivial⟩
  | waiting | toMain => exact ⟨hdb, hpc⟩
  | @readSource file _ src hr =>
    have hfile : ρ.OnFile (Storage.carryFromSource file src).1 := by
      refine OnFile.carryFromSource hpc ?_
      rintro fi rfl
      exact hdb.files _ fi (getFileProto_eq_some hr)
    exact ⟨hdb, hfile, hfile.told⟩
  | @commitRead _ _ carried _ _ hr =>
    refine ⟨hdb, ?_, hpc.2⟩
    rcases commitRead_eq_ok hr with ⟨-, rfl, -⟩ | ⟨old, hold, rfl, -⟩
    · exact hpc.1
    · exact hpc.1.carried (hdb.files _ old (getFileProto_eq_some hold))
  | commitWrite hw =>
    obtain ⟨m, -, -, rfl, rfl⟩ := commitWrite_eq_ok hw
    refine ⟨hdb.write (fun k fi hput => ?_) fun dir hash ref hput => ?_, onAfter_recordNext hpc.2⟩
    · rcases mem_append.1 hput with hput | hput
      · cases value_of_bookkeeping (hf _ hput)
      · simp only [mem_cons, not_mem_nil, or_false] at hput
        rcases hput with hput | hput | hput <;> cases hput
        exact hpc.1
    · rcases mem_append.1 hput with hput | hput
      · cases value_of_bookkeeping (hf _ hput)
      · simp [fileKey] at hput
  | stagePut =>
    refine ⟨hdb.write (fun k fi hput => ?_) fun dir hash ref hput => ?_, trivial⟩
    · cases mem_singleton.1 hput
      exact hpc
    · cases mem_singleton.1 hput
  | @readInbox staged hr => exact ⟨hdb, hdb.files _ staged (readStaged_eq_some hr)⟩
  | readCommitted => exact ⟨hdb, hpc, by simp⟩
  | search h h' hr => exact ⟨hdb, onPc_of_searching h' hr (hpc.payload h)⟩
  | @pointer hash _ dir _ seq hr =>
    exact ⟨hdb, hdb.refs dir hash ⟨seq⟩ (readPointer_eq_some hr), hpc⟩
  | hit => exact ⟨hdb, hpc.1⟩
  | @allocate hash data seq db range ha =>
    refine ⟨?_, hnew hash data seq db range rfl ha, hpc⟩
    rcases allocate_eq_ok ha with ⟨-, -, rfl, -⟩ | ⟨-, m, -, -, rfl, -⟩
    · exact hdb
    · exact hdb.write (fun k fi hput => by cases mem_singleton.1 hput)
        fun dir hash ref hput => by cases mem_singleton.1 hput
  | @inboxEntry _ _ entry he =>
    exact ⟨hdb, hpc, hdb.files _ entry.1 (findInboxEntry_eq_some he).2⟩
  | @mainEntry _ _ entry he =>
    exact ⟨hdb, hpc, hdb.files _ entry.1 (findMainEntry_eq_ok he).2⟩
  | @write hash link entry _ hl =>
    obtain ⟨hlink, hentry⟩ := hpc
    have hwritten : ∀ s data, link = .fresh s data → ρ.number hash.1 s := by
      rintro s data rfl
      exact hfr hash s data entry rfl rfl
    have hseq : ∀ s, link.seq = some s → ρ.number hash.1 s := by
      intro s hs
      cases link with
      | inline => cases hs
      | existing => cases hs; exact hlink
      | fresh seq data => cases hs; exact hwritten s data rfl
    rw [linkBatch_eq_ok hl]
    refine ⟨hdb.write (fun k fi hput => ?_) fun dir hash' ref hput => ?_, onAfter_recordNext ?_⟩
    · rcases mem_append.1 hput with hput | hput
      · rcases mem_linkRows hput with h | ⟨seq, -, h⟩ | ⟨seq, data, -, h⟩ <;> cases h
      · cases mem_singleton.1 hput
        exact hentry.point hlink hwritten
    · rcases mem_append.1 hput with hput | hput
      · rcases mem_linkRows hput with h | ⟨seq, hs, h⟩ | ⟨seq, data, -, h⟩ <;> cases h
        exact hseq seq hs
      · obtain ⟨-, hv⟩ := BatchOp.put.inj (mem_singleton.1 hput)
        cases hv
    · intro c hc
      obtain ⟨s, hs, rfl⟩ := mem_map.1 hc
      exact ρ.tellRow (hseq s (mem_toList.1 hs))
  | record => exact ⟨hdb, onAfter_recordNext fun c hc => hpc c (mem_cons_of_mem _ hc)⟩

end PointerRule

end Bepository.Storage
