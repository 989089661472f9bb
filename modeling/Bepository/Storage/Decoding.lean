import Bepository.Storage.Content
import Bepository.Storage.Legible

/-!
# Every row of a reachable store decodes

No call writes a value that another one cannot decode: files are typed and their hashes have 32 bytes,
and the block numbers in directory pointers are not reserved ones.
-/

namespace Bepository.Storage

open Lib List

def BatchOp.Decodes : BatchOp → Prop
  | .put k v => k.Holds v
  | .delete _ => True

def Link.Numbered (link : Link) : Prop := ∀ s, link.seq = some s → MIN_BLOCK_SEQ ≤ s

def Pc.Decodes : Pc → Prop
  | .readSource file _ => readable file.toStored = true
  | .wait pc => pc.Decodes
  | .commitRead stored _ _ => readable stored = true
  | .commitWrite stored _ _ => readable stored = true
  | .stagePut file => readable file.toStored = true
  | .readCommitted staged => readable staged = true
  | .readData _ _ _ seq _ => MIN_BLOCK_SEQ ≤ seq
  | .readStaged _ link => link.Numbered
  | .readMain _ link => link.Numbered
  | .write _ link entry => link.Numbered ∧ readable entry.1 = true
  | _ => True

def After.Decodes : After → Prop
  | .go pc => pc.Decodes
  | .done _ => True

/-! ### Files -/

section Files

variable {fi old : StoredFile} {hash : Bytes}

lemma readable_congr {fi' : StoredFile} (h : readable fi = true) (ht : fi'.type = fi.type)
    (hb : fi'.blocks.map StoredBlock.hash = fi.blocks.map StoredBlock.hash) : readable fi' = true := by
  have hall : ∀ f : StoredFile, (f.blocks.all fun b => b.hash.length = 32) =
      (f.blocks.map StoredBlock.hash).all fun b => b.length = 32 := by
    intro f
    rw [all_map]
    rfl
  unfold readable at h ⊢
  rw [hall, ht, hb, ← hall]
  exact h

lemma hashes_carry : (carryBlockPointers fi old).blocks.map StoredBlock.hash = fi.blocks.map StoredBlock.hash :=
  @hashes_withPointers fi (some old)

lemma readable_carry (h : readable fi = true) : readable (carryBlockPointers fi old) = true :=
  readable_congr h rfl hashes_carry

lemma readable_point {seq : Option ℕ} {data : Option Bytes} (h : readable fi = true) :
    readable (pointBlocks hash seq data fi) = true := by
  refine readable_congr h rfl ?_
  simp only [pointBlocks, map_map]
  refine map_congr_left fun b _ => ?_
  simp only [Function.comp]
  split_ifs <;> rfl

lemma readable_carryFromSource {file : WireFile} {src : Option StoredFile}
    (h : readable file.toStored = true) : readable (carryFromSource file src).1 = true := by
  cases src with
  | none => exact h
  | some => exact readable_carry h

end Files

/-! ### One step of a call -/

section Step

variable {epoch : Epoch} {name : Str} {st st' : Store} {pc : Pc} {aft : After} {db : Db}

lemma Db.Decodes.write {batch : WriteBatch} (h : db.Decodes) (hb : ∀ op ∈ batch, op.Decodes) :
    (db.write batch).Decodes := by
  intro k v hk
  rcases Db.get_write_eq_some hk with hput | ⟨-, hold⟩
  · exact hb _ hput
  · exact h k v hold

lemma decodes_bookkeeping {op : BatchOp} (h : op.bookkeeping = true) : op.Decodes := by
  cases op with
  | delete => trivial
  | put k =>
    cases k with
    | mr => trivial
    | _ => cases h

lemma Link.batch_decodes {link : Link} {hash : Bytes32} (h : link.Numbered) :
    ∀ op ∈ link.batch name hash, op.Decodes := by
  intro op hop
  rcases mem_linkRows hop with rfl | ⟨seq, hs, rfl⟩ | ⟨seq, data, -, rfl⟩
  · trivial
  · exact ⟨⟨seq⟩, rfl, h seq hs⟩
  · trivial

lemma entry_decodes {k : Key} {fi : StoredFile} (hk : k.isEntry epoch = true) (h : readable fi = true) :
    (BatchOp.put k (.file (some fi))).Decodes := by
  cases k with
  | mn | mi => exact ⟨fi, rfl, h⟩
  | _ => cases hk

lemma recordNext_decodes (recs : List (Bytes32 × ℕ)) : (recordNext recs).Decodes := by
  cases recs <;> trivial

lemma readPointer_ge {dir : Str} {hash : Bytes32} {seq : ℕ}
    (h : readPointer db dir hash = .ok (some seq)) : MIN_BLOCK_SEQ ≤ seq := by
  unfold readPointer at h
  split at h
  · cases h
  · next ref hget =>
    obtain ⟨u, hv, he⟩ := map_eq_ok.1 h
    cases he
    unfold validateBlockSeq at hv
    split_ifs at hv with hlt
    exact not_lt.1 hlt
  · cases h

lemma allocate_ge {seq : ℕ} {db : Db} {range : SeqRange} (hfloor : MIN_BLOCK_SEQ ≤ st.nextSeq)
    (h : allocate st.db st.range = .ok (seq, db, range)) : MIN_BLOCK_SEQ ≤ seq := by
  rcases allocate_eq_ok h with ⟨hlt, rfl, -, -⟩ | ⟨-, m, -, rfl, -, -⟩
  · unfold Store.nextSeq at hfloor
    rwa [if_pos hlt] at hfloor
  · omega

/-- **A step writes what can be read.** -/
lemma Pc.Steps.decodes (h : pc.Steps epoch name st st' aft) (hf : pc.Formed epoch)
    (hfloor : MIN_BLOCK_SEQ ≤ st.nextSeq) (hdb : st.db.Decodes) (hpc : pc.Decodes) :
    st'.db.Decodes ∧ aft.Decodes := by
  have hfile : ∀ {k fi}, k.holdsFile = true → st.db.get k = some (.file (some fi)) → readable fi = true := by
    intro k fi hk hget
    obtain ⟨_, ⟨⟩, hread⟩ := hdb.file hk hget
    exact hread
  cases h with
  | stop => exact ⟨hdb, trivial⟩
  | waiting | readCommitted | toMain => exact ⟨hdb, hpc⟩
  | readSource => exact ⟨hdb, readable_carryFromSource hpc⟩
  | commitRead hr =>
    refine ⟨hdb, ?_⟩
    rcases commitRead_eq_ok hr with ⟨-, rfl, -⟩ | ⟨old, -, rfl, -⟩
    · exact hpc
    · exact readable_carry hpc
  | commitWrite hw =>
    obtain ⟨m, -, -, rfl, rfl⟩ := commitWrite_eq_ok hw
    refine ⟨hdb.write fun op hop => ?_, recordNext_decodes _⟩
    rcases mem_append.1 hop with hop | hop
    · exact decodes_bookkeeping (hf op hop)
    · simp only [mem_cons, not_mem_nil, or_false] at hop
      rcases hop with rfl | rfl | rfl
      · exact ⟨_, rfl⟩
      · exact ⟨_, rfl, hpc⟩
      · trivial
  | stagePut =>
    refine ⟨hdb.write fun op hop => ?_, trivial⟩
    rw [mem_singleton.1 hop]
    exact ⟨_, rfl, hpc⟩
  | readInbox hr => exact ⟨hdb, hfile rfl (readStaged_eq_some hr)⟩
  | search _ h' hr =>
    refine ⟨hdb, ?_⟩
    cases h' with
    | readData dir seq dirs => exact absurd rfl (hr dir seq dirs)
    | _ => trivial
  | pointer hr => exact ⟨hdb, readPointer_ge hr⟩
  | hit =>
    refine ⟨hdb, fun s hs => ?_⟩
    cases hs
    exact hpc
  | @allocate _ _ seq _ _ ha =>
    have hge : MIN_BLOCK_SEQ ≤ seq := allocate_ge hfloor ha
    refine ⟨?_, fun s hs => by cases hs; exact hge⟩
    rcases allocate_eq_ok ha with ⟨-, -, rfl, -⟩ | ⟨-, m, -, -, rfl, -⟩
    · exact hdb
    · refine hdb.write fun op hop => ?_
      rw [mem_singleton.1 hop]
      exact ⟨_, rfl⟩
  | inboxEntry he => exact ⟨hdb, hpc, hfile rfl (findInboxEntry_eq_some he).2⟩
  | mainEntry he => exact ⟨hdb, hpc, hfile rfl (findMainEntry_eq_ok he).2⟩
  | write hl =>
    rw [linkBatch_eq_ok hl]
    refine ⟨hdb.write fun op hop => ?_, recordNext_decodes _⟩
    rcases mem_append.1 hop with hop | hop
    · exact Link.batch_decodes hpc.1 op hop
    · rw [mem_singleton.1 hop]
      exact entry_decodes hf (readable_point hpc.2)
  | @record _ _ recs => exact ⟨hdb, recordNext_decodes recs⟩

end Step

/-! ### The machine -/

section Runs

variable {sha : Bytes → Bytes} {C : Set Bytes} {epoch : Epoch} {m m' : Machine} {t : ℕ}

/-- What a session leaves and the next one finds. -/
structure Store.Decodes (st : Store) : Prop where
  floor : MIN_BLOCK_SEQ ≤ st.nextSeq
  db : st.db.Decodes

structure Decoded (m : Machine) : Prop where
  store : m.store.Decodes
  calls : ∀ t c, m.calls.lookup t = some c → c.pc.Decodes

lemma floor_of_range {st : Store} (h : st.range.next < st.range.stop → MIN_BLOCK_SEQ ≤ st.range.next) :
    MIN_BLOCK_SEQ ≤ st.nextSeq := by
  have hbase : MIN_BLOCK_SEQ ≤ baseSeq st.db := by
    unfold baseSeq
    split <;> omega
  unfold Store.nextSeq
  split_ifs with hlt
  · exact h hlt
  · exact hbase

lemma Store.Decodes.of_get {st st' : Store} (h : st.Decodes) (hrange : st'.range = st.range)
    (hget : ∀ k v, st'.db.get k = some v →
      st.db.get k = some v ∨ ∃ device r, k = .md device ∧ v = .remote r) : st'.Decodes := by
  refine ⟨floor_of_range fun hlt => ?_, fun k v hk => ?_⟩
  · have hfloor := h.floor
    unfold Store.nextSeq at hfloor
    rw [hrange] at hlt ⊢
    rwa [if_pos hlt] at hfloor
  · rcases hget k v hk with hk | ⟨device, r, rfl, -⟩
    · exact h.db k v hk
    · trivial

section

variable (hsha : ∀ data, (sha data).length = 32)
include hsha

lemma Announced.readable {file : WireFile} (h : Announced sha C file) : readable file.toStored = true := by
  have ht : file.toStored.Typed := file.typed_toStored
  unfold FileInfo.Typed at ht
  simp only [Storage.readable, Bool.and_eq_true, Bool.or_eq_true, decide_eq_true_eq, or_assoc, all_eq_true]
  refine ⟨ht, fun b hb => ?_⟩
  obtain ⟨b₀, hb₀, rfl⟩ := mem_map.1 hb
  obtain ⟨data, ⟨-, hdata⟩, -⟩ := h b₀ hb₀
  show b₀.hash.length = 32
  rw [← hdata, hsha]

lemma start_decodes {op : Op} {c : Call} (hop : op.start = some c) (hg : Truthful sha C (.start t op)) :
    c.pc.Decodes := by
  cases op with
  | putFile | putFileWithCarry | stageFile => cases hop; exact Announced.readable hsha hg
  | completeFile => cases hop; trivial
  | storeBlock =>
    obtain ⟨hash', hh, rfl⟩ := Option.map_eq_some_iff.1 hop
    split
    · rintro s ⟨⟩
    · trivial
  | reuseBlock =>
    obtain ⟨hash', -, rfl⟩ := Option.map_eq_some_iff.1 hop
    trivial

theorem decoded_step {bl : Blooms} {a : Act} (hm : Matched sha C epoch m) (h : Decoded m)
    (hs : m.step bl epoch a = some m') (hg : Truthful sha C a) (hw : noWrap m a = true) : Decoded m' := by
  -- a step of a job
  have hsame : ∀ {st : Store}, st.range = m.store.range → st.db = m.store.db → st.Decodes :=
    fun hr hd => h.store.of_get hr fun k v hk => .inl (hd ▸ hk)
  cases Machine.step_moves hs with
  | refused => exact h
  | start _ hop =>
    exact ⟨h.store, Table.forall_insert h.calls (start_decodes hsha hop hg)⟩
  | @lock t _ pc hc =>
    have hpc : (Pc.wait pc).Decodes := h.calls t _ hc
    exact ⟨h.store, Table.forall_insert h.calls hpc⟩
  | @call t _ pc _ _ hc _ hst =>
    have hf : pc.Formed epoch := hm.formed t _ hc
    have hroom : ∀ hash data, pc = .allocate hash data → m.store.nextSeq + RESERVATION_N < 2 ^ 64 := by
      rintro hash data rfl
      simpa [noWrap, hc] using hw
    obtain ⟨hdb, haft⟩ := hst.decodes hf h.store.floor h.store.db (h.calls t _ hc)
    obtain ⟨hle, -⟩ := hst.nextSeq hf hm.reserved hroom
    refine ⟨?_, fun t' c' hc' => ?_⟩
    · rw [Machine.after_store]
      exact ⟨h.store.floor.trans hle, hdb⟩
    · rcases Machine.lookup_after hc' with ⟨-, rfl, -⟩ | ⟨-, hc'⟩
      · exact haft
      · exact h.calls t' c' hc'
  | @setRemote device state =>
    refine ⟨h.store.of_get rfl fun k v hk => ?_, h.calls⟩
    rcases Db.get_write_eq_some hk with hput | ⟨-, hk⟩
    · cases mem_singleton.1 hput
      exact .inr ⟨device, state, rfl, rfl⟩
    · exact .inl hk
  | register | snapshot | scan | floor | keep | prune | drop => exact ⟨hsame rfl rfl, h.calls⟩
  | commit =>
    exact ⟨h.store.of_get rfl fun k v hk => .inl (get_of_prune hk), h.calls⟩

end

/-- What a session leaves and the next one finds: rows that decode, and content that matches. -/
structure Store.Sound (sha : Bytes → Bytes) (C : Set Bytes) (st : Store) : Prop where
  content : st.Matches sha C
  decodes : st.Decodes

lemma Store.sound_empty {gc : CompactionState} : Store.Sound sha C ⟨Db.empty, ⟨0, 0⟩, gc⟩ :=
  ⟨Store.matches_empty, floor_of_range (by rintro ⟨⟩), (by rintro _ _ ⟨⟩)⟩

structure Machine.Sound (sha : Bytes → Bytes) (C : Set Bytes) (epoch : Epoch) (m : Machine) : Prop where
  matched : Matched sha C epoch m
  decoded : Decoded m

lemma Machine.Sound.init (hc : m.calls = ∅) (hj : m.jobs = ∅) (h : m.store.Sound sha C) :
    m.Sound sha C epoch := by
  refine ⟨Matched.init hc hj h.content, h.decodes, fun t c hl => ?_⟩
  rw [hc] at hl
  cases hl

/-- **Every run** with truthful payloads in which the number counter does not wrap. -/
theorem Machine.Sound.run {bl : Blooms} {as : List Act} (hsha : ∀ data, (sha data).length = 32)
    (h : m.Sound sha C epoch) (hg : ∀ a ∈ as, Truthful sha C a)
    (hm : Meets (Machine.step bl epoch) (fun m a => noWrap m a = true) m as)
    (hr : Lib.run (Machine.step bl epoch) m as = some m') : m'.Sound sha C epoch := by
  refine run_inv (P := Machine.Sound sha C epoch) (fun m a m' h hga hs => ?_) h (hm.and_forall hg) hr
  exact ⟨matched_step h.matched hs hga.2 hga.1, decoded_step hsha h.matched h.decoded hs hga.2 hga.1⟩

end Runs

end Bepository.Storage
