import Bepository.Storage.Content

/-!
# Serving blocks

`handle_request` answers a peer's `Request` from the committed index.  It reads the entry and then, one after the other,
the data of the blocks with the hash that was asked for; commits and compactions go on meanwhile.
-/

namespace Bepository.Storage

open Lib

/-- `Request`, without the folder: the request is one to this folder. -/
structure Request where
  id : ℤ
  name : Str
  offset : ℤ
  size : ℤ
  hash : Bytes

inductive ErrorCode where
  | noError
  | generic
  | noSuchFile
  deriving DecidableEq

structure Response where
  id : ℤ
  data : Bytes
  code : ErrorCode
  deriving DecidableEq

def blockNotFound (name : Str) (hash : Bytes) : StorageError :=
  .notFound s!"block not found: {name.toString} hash={(hexEncode hash).toString}"

/-- The loop of `read_block`, from block `i` on; `dbs i` is the database when it looks the block up. -/
def resolveFirst (dbs : ℕ → Db) (name : Str) (hash : Bytes) : ℕ → List StoredBlock → Except StorageError Bytes
  | _, [] => .error (blockNotFound name hash)
  | i, b :: bs =>
    if b.hash = hash then
      match resolveBlockData (dbs i) b with
      | .error e => .error e
      | .ok (some data) => .ok data
      | .ok none => resolveFirst dbs name hash (i + 1) bs
    else resolveFirst dbs name hash (i + 1) bs

/-- `read_block`: the entry is read from `db`. -/
def readBlock (db : Db) (dbs : ℕ → Db) (name : Str) (hash : Bytes) : Except StorageError Bytes :=
  if hash.length = 32 then
    match db.get (fileKey name) with
    | some (.file (some fi)) => resolveFirst dbs name hash 0 fi.blocks
    | some (.file none) | none => .error (blockNotFound name hash)
    | some _ => .error (.corruption "decode File")
  else .error (.invalidInput "block hash must be 32 bytes")

def handleRequest (db : Db) (dbs : ℕ → Db) (r : Request) : Response :=
  match if r.offset < 0 ∨ r.size < 0 then .error (.invalidInput "negative offset or size")
    else readBlock db dbs r.name r.hash with
  | .ok data => ⟨r.id, data, .noError⟩
  | .error (.notFound _) => ⟨r.id, [], .noSuchFile⟩
  | .error _ => ⟨r.id, [], .generic⟩

section

variable {sha : Bytes → Bytes} {C : Set Bytes} {bl : Blooms} {epoch : Epoch} {m m' : Machine} {a : Act}
  {hash : Bytes} {s : ℕ}

lemma allocated_insert {t : ℕ} {c : Call} (hmem : s ∈ Machine.inFlight { m with calls := m.calls.insert t c } Pc.allocated)
    (hc : c.pc.allocated = [] ∨ ∃ c', m.calls.lookup t = some c' ∧ c'.pc.allocated = c.pc.allocated) :
    s ∈ m.inFlight Pc.allocated := by
  obtain ⟨t', c', hl, hs⟩ := mem_inFlight.1 hmem
  rw [Table.lookup_insert'] at hl
  split_ifs at hl with ht
  · cases hl
    obtain hnil | ⟨c₀, hc₀, he⟩ := hc
    · rw [hnil] at hs
      cases hs
    · exact mem_inFlight.2 ⟨t, c₀, hc₀, he ▸ hs⟩
  · exact mem_inFlight.2 ⟨t', c', hl, hs⟩

-- A number that stands for a hash is not handed out again, and its row is not written again.
lemma Matched.refOk_step (h : Matched sha C epoch m) (hs : m.step bl epoch a = some m') (hg : Truthful sha C a)
    (hw : noWrap m a = true) (hr : RefOk sha C m hash s) : RefOk sha C m' hash s := by
  cases Machine.step_moves hs with
  | start _ hop =>
    exact ⟨hr.1, fun hmem => hr.2.1 (allocated_insert hmem (.inl (start_content (R := RefOk sha C m) hop hg).2)), hr.2.2⟩
  | lock hc => exact ⟨hr.1, fun hmem => hr.2.1 (allocated_insert hmem (.inr ⟨_, hc, rfl⟩)), hr.2.2⟩
  | call hc _ hst =>
    refine h.refOk_after hc hst ?_ hr
    rintro hash data rfl
    simpa [noWrap, hc] using hw
  | @setRemote device state =>
    have hbase : baseSeq (m.store.db.write [.put (.md device) (.remote state)]) = baseSeq m.store.db :=
      baseSeq_of_get_eq (Db.get_write_single (by rintro ⟨⟩))
    refine ⟨?_, hr.2.1, fun v hv => hr.2.2 v ?_⟩
    · simpa only [Store.nextSeq, hbase] using hr.1
    · rwa [Db.get_write_single (by rintro ⟨⟩)] at hv
  | @commit j job _ pruned hj hp =>
    have hc := h.counter j job hj
    rw [hp] at hc
    refine ⟨?_, hr.2.1, fun v hv => hr.2.2 v (get_of_prune hv)⟩
    have hbase : baseSeq (m.store.db.prune pruned) = baseSeq m.store.db := baseSeq_prune hc
    simpa only [Store.nextSeq, hbase] using hr.1
  | _ => exact hr

/-- Later in the session, with truthful announcements and payloads. -/
def Later (sha : Bytes → Bytes) (C : Set Bytes) (bl : Blooms) (epoch : Epoch) (m m' : Machine) : Prop :=
  ∃ as, (∀ a ∈ as, Truthful sha C a) ∧ Meets (Machine.step bl epoch) (fun m a => noWrap m a = true) m as ∧
    run (Machine.step bl epoch) m as = some m'

lemma Matched.later (h : Matched sha C epoch m) (hl : Later sha C bl epoch m m') :
    Matched sha C epoch m' ∧ ∀ hash s, RefOk sha C m hash s → RefOk sha C m' hash s := by
  obtain ⟨as, hg, hm, hr⟩ := hl
  refine run_inv (P := fun m' => Matched sha C epoch m' ∧ ∀ hash s, RefOk sha C m hash s → RefOk sha C m' hash s)
    (fun m' a m'' h hga hs => ?_) ⟨h, fun _ _ => id⟩ (hm.and_forall hg) hr
  exact ⟨matched_step h.1 hs hga.2 hga.1, fun hash s hr => h.1.refOk_step hs hga.2 hga.1 (h.2 hash s hr)⟩

lemma resolveFirst_genuine {ms : ℕ → Machine} {name : Str} {data : Bytes} {bs : List StoredBlock} {i : ℕ}
    (hbs : ∀ b ∈ bs, ∀ i, BlockOk sha C (RefOk sha C (ms i)) b)
    (hr : resolveFirst (fun i => (ms i).store.db) name hash i bs = .ok data) : Genuine sha C hash data := by
  induction bs generalizing i with
  | nil => cases hr
  | cons b bs ih =>
    have hrest := ih (i := i + 1) fun b' hb' => hbs b' (by simp [hb'])
    unfold resolveFirst at hr
    split at hr
    · next hb =>
      split at hr
      · cases hr
      · next d hd =>
        cases hr
        exact hb ▸ (hbs b (by simp) i).resolve hd
      · exact hrest hr
    · exact hrest hr

lemma Matched.readBlock_genuine (h : Matched sha C epoch m) {ms : ℕ → Machine}
    (hms : ∀ i, Later sha C bl epoch m (ms i)) {name : Str} {data : Bytes}
    (hr : readBlock m.store.db (fun i => (ms i).store.db) name hash = .ok data) : sha data = hash := by
  unfold readBlock at hr
  split at hr
  · split at hr
    · next fi hfi =>
      exact (resolveFirst_genuine (fun b hb i => (h.db.files _ fi hfi b hb).mono (h.later (hms i)).2) hr).2
    all_goals cases hr
  · cases hr

/-- **Peers are served what they ask for.**  In a session with truthful announcements and payloads, whatever happens
between the reads of a request, a `Response` without an error has bytes with the hash of the `Request`. -/
theorem served_genuine {m₀ : Machine} {ms : ℕ → Machine} (h₀ : m₀.calls = ∅ ∧ m₀.jobs = ∅ ∧ m₀.store.Matches sha C)
    (hm : Later sha C bl epoch m₀ m) (hms : ∀ i, Later sha C bl epoch m (ms i)) (r : Request)
    (hok : (handleRequest m.store.db (fun i => (ms i).store.db) r).code = .noError) :
    sha (handleRequest m.store.db (fun i => (ms i).store.db) r).data = r.hash := by
  have hmatched := ((Matched.init h₀.1 h₀.2.1 h₀.2.2).later hm).1
  unfold handleRequest at hok ⊢
  split
  · next data hres =>
    split at hres
    · cases hres
    · exact hmatched.readBlock_genuine hms hres
  · next heq => simp [heq] at hok
  · next heq => simp [heq] at hok

end

def blockRequest : Request := ⟨7, ['f'], 0, 1, padHash [1]⟩

/-- The file is transferred, and its block is asked for. -/
theorem served_genuine_transfer : ∃ m,
    runEmpty (transfer [1]) = some m ∧
    handleRequest m.store.db (fun _ => m.store.db) blockRequest = ⟨7, [1], .noError⟩ ∧
    padHash (handleRequest m.store.db (fun _ => m.store.db) blockRequest).data = padHash [1] := by
  obtain ⟨m, hm, hr⟩ : ∃ m, runEmpty (transfer [1]) = some m ∧
      handleRequest m.store.db (fun _ => m.store.db) blockRequest = ⟨7, [1], .noError⟩ := by
    decide
  exact ⟨m, hm, hr, served_genuine ⟨rfl, rfl, Store.matches_empty⟩
    ⟨transfer [1], truthful_transfer (C := { [1] }) rfl, by decide, hm⟩ (fun _ => ⟨[], by simp, trivial, rfl⟩)
    blockRequest (by rw [hr])⟩

end Bepository.Storage
