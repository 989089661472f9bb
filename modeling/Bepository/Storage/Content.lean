import Mathlib.Data.Set.Function
import Bepository.Storage.Numbers
import Bepository.Storage.Pointers
import Bepository.Storage.Retention

/-!
# Stored content and its address

The store never hashes what it is given: `store_block` files the bytes under the hash that the caller
names, and from then on deduplication and pointer carrying match by hash alone.  So one payload with a
wrong hash is enough (`wrongPayload`), and `content_matches` says that nothing else is needed: if
every payload has the hash it is stored under and the announced sizes are right, every block of the
committed index resolves to bytes with its hash and its size.

`sha` stands for SHA-256 and `C` for the contents that occur; no two of them have the same hash.
-/

namespace Bepository.Storage

open Lib List Table

section Content

variable (sha : Bytes → Bytes) (C : Set Bytes)

/-! ### Bytes and blocks -/

def Genuine (hash data : Bytes) : Prop := data ∈ C ∧ sha data = hash

def Declared (hash : Bytes) (size : ℤ) : Prop :=
  ∃ data, Genuine sha C hash data ∧ (data.length : ℤ) = size

/-- What a block says is right, if `R` says which numbers stand for which hashes. -/
structure BlockOk (R : Bytes → ℕ → Prop) (b : StoredBlock) : Prop where
  declared : Declared sha C b.hash b.size
  numbered : ∀ s, b.blockseq = some s → R b.hash s
  inline : ∀ data, b.inlineData = some data → Genuine sha C b.hash data

def FileOk (R : Bytes → ℕ → Prop) (fi : StoredFile) : Prop := ∀ b ∈ fi.blocks, BlockOk sha C R b

/-- Every file and every block pointer of the database is right. -/
structure DbOk (R : Bytes → ℕ → Prop) (db : Db) : Prop where
  files : ∀ k fi, db.get k = some (.file (some fi)) → FileOk sha C R fi
  refs : ∀ dir hash ref, db.get (.mb dir hash) = some (.blockRef ref) → R hash.1 ref.seqno

def LinkOk (R : Bytes → ℕ → Prop) (hash : Bytes) : Link → Prop
  | .inline data => Genuine sha C hash data
  | .existing _ seq => R hash seq
  | .fresh _ data => Genuine sha C hash data

def PcOk (R : Bytes → ℕ → Prop) : Pc → Prop
  | .readSource file _ => FileOk sha C R file.toStored
  | .wait pc => PcOk R pc
  | .commitRead stored _ _ => FileOk sha C R stored
  | .commitWrite stored _ _ => FileOk sha C R stored
  | .stagePut file => FileOk sha C R file.toStored
  | .readInbox _ => True
  | .readCommitted staged => FileOk sha C R staged
  | .checkSafe hash data => ∀ d, data = some d → Genuine sha C hash.1 d
  | .scanRefs hash data => ∀ d, data = some d → Genuine sha C hash.1 d
  | .readPointer hash data _ => ∀ d, data = some d → Genuine sha C hash.1 d
  | .readData hash data _ seq _ => R hash.1 seq ∧ ∀ d, data = some d → Genuine sha C hash.1 d
  | .allocate hash data => Genuine sha C hash.1 data
  | .readStaged hash link => LinkOk sha C R hash.1 link
  | .readMain hash link => LinkOk sha C R hash.1 link
  | .write hash link entry => LinkOk sha C R hash.1 link ∧ FileOk sha C R entry.1
  | .record _ => True

def AfterOk (R : Bytes → ℕ → Prop) : After → Prop
  | .go pc => PcOk sha C R pc
  | .done _ => True

variable {sha C} {R R' : Bytes → ℕ → Prop} {b : StoredBlock} {fi new old : StoredFile} {db : Db}
  {pc : Pc}

section Mono

variable (hR : ∀ hash s, R hash s → R' hash s)

include hR

lemma BlockOk.mono (h : BlockOk sha C R b) : BlockOk sha C R' b :=
  ⟨h.declared, fun s hs => hR _ s (h.numbered s hs), h.inline⟩

lemma FileOk.mono (h : FileOk sha C R fi) : FileOk sha C R' fi := fun b hb => (h b hb).mono hR

lemma DbOk.mono (h : DbOk sha C R db) : DbOk sha C R' db :=
  ⟨fun k fi hk => (h.files k fi hk).mono hR, fun dir hash ref hk => hR _ _ (h.refs dir hash ref hk)⟩

lemma LinkOk.mono {hash : Bytes} {link : Link} (h : LinkOk sha C R hash link) : LinkOk sha C R' hash link := by
  cases link with
  | existing dir seq => exact hR hash seq h
  | _ => exact h

lemma PcOk.mono (h : PcOk sha C R pc) : PcOk sha C R' pc := by
  induction pc with
  | readSource => exact FileOk.mono hR h
  | wait pc ih => exact ih h
  | commitRead | commitWrite | stagePut | readCommitted =>
    exact FileOk.mono hR h
  | readData => exact ⟨hR _ _ h.1, h.2⟩
  | readStaged | readMain => exact LinkOk.mono hR h
  | write => exact ⟨h.1.mono hR, h.2.mono hR⟩
  | _ => exact h

end Mono

/-! ### One step of a call -/

def contentRule (sha : Bytes → Bytes) (C : Set Bytes) (R : Bytes → ℕ → Prop) : PointerRule where
  block := BlockOk sha C R
  number := R
  fresh _ _ := True
  bytes := Genuine sha C
  told _ _ := True
  carry hb hsrc hh := ⟨hb.declared, fun s hs => hh ▸ hsrc.numbered s hs, fun d hd => hh ▸ hsrc.inline d hd⟩
  toRow hb hs := ⟨hb.declared, by rintro _ ⟨⟩; exact hs, by rintro _ ⟨⟩⟩
  toBytes hb hd := ⟨hb.declared, by rintro _ ⟨⟩, by rintro _ ⟨⟩; exact hd⟩
  tellBlock _ _ _ := trivial
  tellRow _ := trivial

lemma dbOk_iff : DbOk sha C R db ↔ (contentRule sha C R).OnDb db :=
  ⟨fun h => ⟨h.files, h.refs⟩, fun h => ⟨h.files, h.refs⟩⟩

variable {hash : Bytes} {st : Store}

lemma linkOk_iff {link : Link} : LinkOk sha C R hash link ↔ (contentRule sha C R).OnLink hash link := by
  cases link with
  | fresh => exact (true_and _).symm.to_iff
  | _ => exact Iff.rfl

lemma pcOk_iff : PcOk sha C R pc ↔ (contentRule sha C R).OnPc pc := by
  induction pc with
  | wait pc ih => exact ih
  | commitRead | commitWrite =>
    exact ⟨fun h => ⟨h, fun _ _ => trivial⟩, And.left⟩
  | readStaged | readMain => exact linkOk_iff
  | write => exact and_congr_left' linkOk_iff
  | record => exact ⟨fun _ _ _ => trivial, fun _ => trivial⟩
  | _ => exact Iff.rfl

variable {aft : After} {gc : CompactionState}

/-- **Content through a step.**  If a new row stands for its hash, what is right stays right. -/
lemma Pc.Steps.content {epoch : Epoch} {name : Str} {st st' : Store} (h : pc.Steps epoch name st st' aft)
    (hf : pc.Formed epoch) (hdb : DbOk sha C R st.db) (hpc : PcOk sha C R pc)
    (hfr : ∀ hash s data entry, pc = .write hash (.fresh s data) entry →
      aft = .go (.record [(hash, s)]) → R hash.1 s) : DbOk sha C R st'.db ∧ AfterOk sha C R aft := by
  obtain ⟨hdb', haft⟩ := PointerRule.step h hf (dbOk_iff.1 hdb) (pcOk_iff.1 hpc) (fun _ _ _ _ _ _ _ => trivial) hfr
  refine ⟨dbOk_iff.2 hdb', ?_⟩
  cases aft with
  | go => exact pcOk_iff.2 haft
  | done => trivial

/-! ### The machine -/

/-- The number stands for the hash: it was handed out, no call has yet to write it, and its row, if
there is one, has bytes with the hash. -/
def RefOk (sha : Bytes → Bytes) (C : Set Bytes) (m : Machine) (hash : Bytes) (s : ℕ) : Prop :=
  s < m.store.nextSeq ∧ s ∉ m.inFlight Pc.allocated ∧
    ∀ v, m.store.db.get (.bd s) = some v → ∃ data, v = .data data ∧ Genuine sha C hash data

structure Matched (sha : Bytes → Bytes) (C : Set Bytes) (epoch : Epoch) (m : Machine) : Prop where
  formed : ∀ t c, m.calls.lookup t = some c → c.pc.Formed epoch
  reserved : m.store.Reserved
  below : ∀ s ∈ m.inFlight Pc.allocated, s < m.store.nextSeq
  sole : ∀ t t' c c' s, m.calls.lookup t = some c → m.calls.lookup t' = some c' →
    s ∈ c.pc.allocated → s ∈ c'.pc.allocated → t = t'
  counter : ∀ j job, m.jobs.lookup j = some job → ∀ r ∈ job.phase.pruned, r.1 ≠ .mx
  db : DbOk sha C (RefOk sha C m) m.store.db
  calls : ∀ t c, m.calls.lookup t = some c → PcOk sha C (RefOk sha C m) c.pc

variable {epoch : Epoch} {m m' : Machine} {t : ℕ} {name : Str}

section

variable (h : Matched sha C epoch m)
include h

lemma Matched.fresh {hash : Bytes32} {s : ℕ} {data : Bytes} {entry : StoredFile × Key}
    (hc : m.calls.lookup t = some ⟨name, .write hash (.fresh s data) entry⟩)
    (hs : (Pc.write hash (.fresh s data) entry).Steps epoch name m.store st (.go (.record [(hash, s)])))
    (hle : m.store.nextSeq ≤ st.nextSeq) :
    RefOk sha C (m.after t name (st, .go (.record [(hash, s)]))) hash.1 s := by
  have hmem : s ∈ m.inFlight Pc.allocated := mem_inFlight.2 ⟨t, _, hc, mem_singleton_self s⟩
  refine ⟨?_, fun hs' => ?_, fun v hv => ?_⟩
  · rw [Machine.after_store]
    exact lt_of_lt_of_le (h.below s hmem) hle
  · -- no other call has the number
    obtain ⟨t', c', hc', hs'⟩ := mem_inFlight.1 hs'
    rcases Machine.lookup_after hc' with ⟨-, he, -⟩ | ⟨hne, hc'⟩
    · rw [← After.go.inj he] at hs'
      cases hs'
    · exact hne (h.sole t' t c' _ s hc' hc hs' (mem_singleton_self s))
  · rw [Machine.after_store] at hv
    have hrow : st.db.get (.bd s) = some (.data data) := by
      cases hs with
      | search hsr => cases hsr
      | @write _ _ entry _ hl =>
        have he : entry.2.isEntry epoch = true := h.formed t _ hc
        rw [Db.get, linkBatch_eq_ok hl]
        dsimp only
        rw [lookup_bd_write_fresh he]
        rfl
    rw [hrow] at hv
    cases hv
    exact ⟨data, rfl, (h.calls t _ hc).1⟩

lemma Matched.refOk_after {pc : Pc} (hc : m.calls.lookup t = some ⟨name, pc⟩)
    (hs : pc.Steps epoch name m.store st aft)
    (hw : ∀ hash data, pc = .allocate hash data → m.store.nextSeq + RESERVATION_N < 2 ^ 64) {s : ℕ}
    (hr : RefOk sha C m hash s) : RefOk sha C (m.after t name (st, aft)) hash s := by
  have hf : pc.Formed epoch := h.formed t _ hc
  obtain ⟨hle, -⟩ := hs.nextSeq hf h.reserved hw
  obtain ⟨hlt, hfree, hrow⟩ := hr
  have hpc : s ∉ pc.allocated := fun hmem => hfree (mem_inFlight.2 ⟨t, _, hc, hmem⟩)
  refine ⟨?_, fun hmem => ?_, fun v hv => ?_⟩
  · rw [Machine.after_store]
    exact lt_of_lt_of_le hlt hle
  · rcases mem_inFlight_after hmem with hmem | hmem
    · rcases hs.allocated h.reserved hw hmem with hmem | ⟨rfl, -⟩
      · exact hpc hmem
      · exact lt_irrefl _ hlt
    · exact hfree hmem
  · rw [Machine.after_store] at hv
    rcases hs.lookup_bd hf s with hsame | ⟨hash, data, entry, rfl, -, -⟩
    · refine hrow v ?_
      rwa [Db.get, hsame] at hv
    · exact absurd (mem_singleton_self s) hpc

/-- **A step of a call.** -/
lemma Matched.call {pc : Pc} (hc : m.calls.lookup t = some ⟨name, pc⟩) (hs : pc.Steps epoch name m.store st aft)
    (hw : ∀ hash data, pc = .allocate hash data → m.store.nextSeq + RESERVATION_N < 2 ^ 64) :
    Matched sha C epoch (m.after t name (st, aft)) := by
  have hf : pc.Formed epoch := h.formed t _ hc
  obtain ⟨hle, hres⟩ := hs.nextSeq hf h.reserved hw
  have hmono : ∀ hash s, RefOk sha C m hash s → RefOk sha C (m.after t name (st, aft)) hash s :=
    fun hash s hr => h.refOk_after hc hs hw hr
  obtain ⟨hdb, haft⟩ := hs.content hf (h.db.mono hmono) ((h.calls t _ hc).mono hmono) (by
      rintro hash s data entry rfl rfl
      exact h.fresh hc hs hle)
  -- an allocated number is the call's own or was in flight
  have hown : ∀ s ∈ aft.seqs Pc.allocated, ∀ t' c', t' ≠ t → m.calls.lookup t' = some c' → s ∉ c'.pc.allocated := by
    intro s hmem t' c' hne hc' hs'
    rcases hs.allocated h.reserved hw hmem with hmem | ⟨rfl, -⟩
    · exact hne (h.sole t' t c' _ s hc' hc hs' hmem)
    · exact lt_irrefl _ (h.below _ (mem_inFlight.2 ⟨t', c', hc', hs'⟩))
  refine ⟨fun t' c' hc' => ?_, ?_, fun s hmem => ?_, fun t₁ t₂ c₁ c₂ s h₁ h₂ hs₁ hs₂ => ?_,
    fun j job hj => ?_, ?_, fun t' c' hc' => ?_⟩
  · rcases Machine.lookup_after hc' with ⟨-, rfl, -⟩ | ⟨-, hc'⟩
    · exact hs.formed hf
    · exact h.formed t' c' hc'
  · rw [Machine.after_store]
    exact hres
  · rw [Machine.after_store]
    rcases mem_inFlight_after hmem with hmem | hmem
    · rcases hs.allocated h.reserved hw hmem with hmem | ⟨-, hlt⟩
      · exact lt_of_lt_of_le (h.below s (mem_inFlight.2 ⟨t, _, hc, hmem⟩)) hle
      · exact hlt
    · exact lt_of_lt_of_le (h.below s hmem) hle
  · rcases Machine.lookup_after h₁ with ⟨rfl, rfl, -⟩ | ⟨hne₁, h₁'⟩
    · rcases Machine.lookup_after h₂ with ⟨rfl, -, -⟩ | ⟨hne₂, h₂'⟩
      · rfl
      · exact absurd hs₂ (hown s hs₁ t₂ c₂ hne₂ h₂')
    · rcases Machine.lookup_after h₂ with ⟨rfl, rfl, -⟩ | ⟨hne₂, h₂'⟩
      · exact absurd hs₁ (hown s hs₂ t₁ c₁ hne₁ h₁')
      · exact h.sole t₁ t₂ c₁ c₂ s h₁' h₂' hs₁ hs₂
  · rw [Machine.after_jobs] at hj
    exact h.counter j job hj
  · rw [Machine.after_store]
    exact hdb
  · rcases Machine.lookup_after hc' with ⟨-, rfl, -⟩ | ⟨-, hc'⟩
    · exact haft
    · exact (h.calls t' c' hc').mono hmono

lemma Matched.insert_call {c : Call} (hf : c.pc.Formed epoch) (hpc : PcOk sha C (RefOk sha C m) c.pc)
    (ha : c.pc.allocated = [] ∨ ∃ c', m.calls.lookup t = some c' ∧ c'.pc.allocated = c.pc.allocated) :
    Matched sha C epoch { m with calls := m.calls.insert t c } := by
  have hlook : ∀ t' c' s, (m.calls.insert t c).lookup t' = some c' → s ∈ c'.pc.allocated →
      ∃ c₀, m.calls.lookup t' = some c₀ ∧ s ∈ c₀.pc.allocated := by
    intro t' c' s hc' hs
    rw [lookup_insert'] at hc'
    split_ifs at hc' with ht
    · cases hc'
      subst ht
      rcases ha with ha | ⟨c₀, hc₀, ha⟩
      · rw [ha] at hs
        cases hs
      · exact ⟨c₀, hc₀, ha ▸ hs⟩
    · exact ⟨c', hc', hs⟩
  have hin : ∀ s, s ∈ Machine.inFlight { m with calls := m.calls.insert t c } Pc.allocated →
      s ∈ m.inFlight Pc.allocated := by
    intro s hs
    obtain ⟨t', c', hc', hs⟩ := mem_inFlight.1 hs
    obtain ⟨c₀, hc₀, hs⟩ := hlook t' c' s hc' hs
    exact mem_inFlight.2 ⟨t', c₀, hc₀, hs⟩
  have hmono : ∀ hash s, RefOk sha C m hash s → RefOk sha C { m with calls := m.calls.insert t c } hash s :=
    fun hash s hr => ⟨hr.1, fun hs => hr.2.1 (hin s hs), hr.2.2⟩
  refine ⟨forall_insert h.formed hf, h.reserved, fun s hs => h.below s (hin s hs),
    fun t₁ t₂ c₁ c₂ s h₁ h₂ hs₁ hs₂ => ?_, h.counter, h.db.mono hmono,
    fun t' c' hc' => (forall_insert h.calls hpc t' c' hc').mono hmono⟩
  obtain ⟨c₁', h₁, hs₁⟩ := hlook t₁ c₁ s h₁ hs₁
  obtain ⟨c₂', h₂, hs₂⟩ := hlook t₂ c₂ s h₂ hs₂
  exact h.sole t₁ t₂ c₁' c₂' s h₁ h₂ hs₁ hs₂

lemma Matched.of_store (hc : m'.calls = m.calls) (hrange : m'.store.range = m.store.range)
    (hbase : baseSeq m'.store.db = baseSeq m.store.db) (hget : ∀ k v, m'.store.db.get k = some v →
      m.store.db.get k = some v ∨ ∃ device r, k = .md device ∧ v = .remote r)
    (hj : ∀ j job, m'.jobs.lookup j = some job → ∀ r ∈ job.phase.pruned, r.1 ≠ .mx) :
    Matched sha C epoch m' := by
  have hin : m'.inFlight Pc.allocated = m.inFlight Pc.allocated := by
    unfold Machine.inFlight
    rw [hc]
  have hnext : m'.store.nextSeq = m.store.nextSeq := by
    unfold Store.nextSeq
    rw [hrange, hbase]
  have hmono : ∀ hash s, RefOk sha C m hash s → RefOk sha C m' hash s := by
    rintro hash s ⟨hlt, hfree, hrow⟩
    refine ⟨hnext ▸ hlt, hin ▸ hfree, fun v hv => ?_⟩
    rcases hget _ v hv with hv | ⟨device, r, hk, -⟩
    · exact hrow v hv
    · cases hk
  refine ⟨fun t c hl => h.formed t c (hc ▸ hl), ?_, fun s hs => ?_,
    fun t t' c c' s hl hl' => h.sole t t' c c' s (hc ▸ hl) (hc ▸ hl'), hj, ⟨fun k fi hk => ?_,
    fun dir hash ref hk => ?_⟩, fun t c hl => (h.calls t c (hc ▸ hl)).mono hmono⟩
  · unfold Store.Reserved
    rw [hrange, hbase]
    exact h.reserved
  · rw [hnext]
    exact h.below s (hin ▸ hs)
  · rcases hget _ _ hk with hk | ⟨device, r, -, hv⟩
    · exact (h.db.files k fi hk).mono hmono
    · cases hv
  · rcases hget _ _ hk with hk | ⟨device, r, -, hv⟩
    · exact hmono _ _ (h.db.refs dir hash ref hk)
    · cases hv

end

lemma filter_ne_mx {bl : Blooms} {f : GcFilter} {k : Key} {v : Value} {d : Decision}
    (h : GcFilter.filter bl gc f k v = .ok d) (hd : d ≠ .keep) : k ≠ .mx := by
  rintro rfl
  cases h
  exact hd rfl

lemma baseSeq_prune {db : Db} {pruned : List (Key × Row)} (h : ∀ r ∈ pruned, r.1 ≠ .mx) :
    baseSeq (db.prune pruned) = baseSeq db := by
  unfold baseSeq getIndexMeta
  rw [get_prune_of_forall_ne h]

/-! ### Runs -/

variable (sha C)

def Announced (file : WireFile) : Prop := ∀ b ∈ file.blocks, Declared sha C b.hash b.size

/-- Announcements and payloads are truthful: a stored payload has the hash it is stored under. -/
def Truthful : Act → Prop
  | .start _ (.putFile file) => Announced sha C file
  | .start _ (.putFileWithCarry file _) => Announced sha C file
  | .start _ (.stageFile file) => Announced sha C file
  | .start _ (.storeBlock _ hash data) => Genuine sha C hash data
  | _ => True

variable {sha C}

lemma Announced.fileOk {file : WireFile} (h : Announced sha C file) : FileOk sha C R file.toStored := by
  intro b hb
  obtain ⟨b₀, hb₀, rfl⟩ := mem_map.1 hb
  exact ⟨h b₀ hb₀, (by rintro _ ⟨⟩), (by rintro _ ⟨⟩)⟩

lemma start_content {op : Op} {c : Call} (hop : op.start = some c)
    (hg : Truthful sha C (.start t op)) : PcOk sha C R c.pc ∧ c.pc.allocated = [] := by
  cases op with
  | putFile | putFileWithCarry | stageFile => cases hop; exact ⟨Announced.fileOk hg, rfl⟩
  | completeFile => cases hop; exact ⟨trivial, rfl⟩
  | storeBlock name hash data =>
    obtain ⟨hash', hh, rfl⟩ := Option.map_eq_some_iff.1 hop
    have hg' : Genuine sha C hash'.1 data := by
      rw [toBytes32_eq_some.1 hh]
      exact hg
    split
    · exact ⟨hg', rfl⟩
    · exact ⟨fun d hd => by cases hd; exact hg', rfl⟩
  | reuseBlock =>
    obtain ⟨hash', -, rfl⟩ := Option.map_eq_some_iff.1 hop
    exact ⟨(by rintro _ ⟨⟩), rfl⟩

/-- **One step**, with truthful payloads and no wrap of the counter. -/
theorem matched_step {bl : Blooms} {a : Act} (h : Matched sha C epoch m) (hs : m.step bl epoch a = some m')
    (hg : Truthful sha C a) (hw : noWrap m a = true) : Matched sha C epoch m' := by
  -- a step of job `j` to a phase with these decisions
  have hphase : ∀ (j : ℕ) (job : Job) (phase : JobPhase), (∀ r ∈ phase.pruned, r.1 ≠ .mx) →
      ∀ j' job', (m.setPhase j job phase).jobs.lookup j' = some job' → ∀ r ∈ job'.phase.pruned, r.1 ≠ .mx :=
    fun _ _ _ hp => forall_insert h.counter hp
  have herase : ∀ j j' job', (m.jobs.erase j).lookup j' = some job' → ∀ r ∈ job'.phase.pruned, r.1 ≠ .mx :=
    forall_erase h.counter
  have hold : ∀ k v, m.store.db.get k = some v →
      m.store.db.get k = some v ∨ ∃ device r, k = .md device ∧ v = .remote r :=
    fun _ _ => .inl
  cases Machine.step_moves hs with
  | refused => exact h
  | start _ hop =>
    obtain ⟨hpc, ha⟩ := start_content hop hg
    exact h.insert_call (start_formed epoch hop).1 hpc (.inl ha)
  | @lock t _ pc hc =>
    have hf : (Pc.wait pc).Formed epoch := h.formed t _ hc
    have hpc : PcOk sha C (RefOk sha C m) (.wait pc) := h.calls t _ hc
    exact h.insert_call hf hpc (.inr ⟨_, hc, rfl⟩)
  | call hc _ hst =>
    refine h.call hc hst ?_
    rintro hash data rfl
    simpa [noWrap, hc] using hw
  | @setRemote device state =>
    refine h.of_store rfl rfl ?_ (fun k v hk => ?_) h.counter
    · exact baseSeq_of_get_eq (Db.get_write_single (by rintro ⟨⟩))
    · rcases Db.get_write_eq_some hk with hput | ⟨-, hk⟩
      · cases mem_singleton.1 hput
        exact .inr ⟨device, state, rfl, rfl⟩
      · exact .inl hk
  | register =>
    refine h.of_store rfl rfl rfl hold fun j job hj => ?_
    simp only [Machine.registerJob, lookup_insert'] at hj
    split_ifs at hj
    · cases hj
      rintro _ ⟨⟩
    · exact h.counter j job hj
  | @snapshot j job | @scan j job | @floor j job => exact h.of_store rfl rfl rfl hold (hphase j job _ (by rintro _ ⟨⟩))
  | @keep j job _ _ _ _ hj hp =>
    have hc := h.counter j job hj
    rw [hp] at hc
    exact h.of_store rfl rfl rfl hold (hphase j job _ hc)
  | @prune j job _ _ _ _ _ hj hp hd hf =>
    have hc := h.counter j job hj
    rw [hp] at hc
    refine h.of_store rfl rfl rfl hold (hphase j job _ fun r' hr' => ?_)
    rcases mem_cons.1 hr' with rfl | hr'
    · exact filter_ne_mx hf hd
    · exact hc r' hr'
  | @commit j job _ _ hj hp =>
    have hc := h.counter j job hj
    rw [hp] at hc
    exact h.of_store rfl rfl (baseSeq_prune hc) (fun k v hk => .inl (get_of_prune hk)) (herase j)
  | @drop _ j => exact h.of_store rfl rfl rfl hold (herase j)

/-- What a session leaves and the next one finds: every number that a file or a pointer mentions was
handed out, and its row has bytes with the hash. -/
structure Store.Matches (sha : Bytes → Bytes) (C : Set Bytes) (st : Store) : Prop where
  reserved : st.Reserved
  db : DbOk sha C (fun hash s => s < st.nextSeq ∧
    ∀ v, st.db.get (.bd s) = some v → ∃ data, v = .data data ∧ Genuine sha C hash data) st.db

lemma Store.matches_empty : Store.Matches sha C ⟨Db.empty, ⟨0, 0⟩, gc⟩ :=
  ⟨(by rintro ⟨⟩), (by rintro _ _ ⟨⟩), (by rintro _ _ _ ⟨⟩)⟩

lemma Matched.init (hc : m.calls = ∅) (hj : m.jobs = ∅) (h : m.store.Matches sha C) :
    Matched sha C epoch m := by
  have hno : ∀ t c, m.calls.lookup t ≠ some c := by
    intro t c hl
    rw [hc] at hl
    cases hl
  have hin : ∀ s, s ∉ m.inFlight Pc.allocated := by
    intro s hs
    obtain ⟨t, c, hl, -⟩ := mem_inFlight.1 hs
    exact hno t c hl
  refine ⟨fun t c hl => absurd hl (hno t c), h.reserved, fun s hs => absurd hs (hin s),
    fun t _ c _ _ hl => absurd hl (hno t c), fun j job hl => ?_, h.db.mono fun hash s hr => ?_,
    fun t c hl => absurd hl (hno t c)⟩
  · rw [hj] at hl
    cases hl
  · exact ⟨hr.1, hin s, hr.2⟩

lemma BlockOk.resolve (h : BlockOk sha C (RefOk sha C m) b)
    (hr : resolveBlockData m.store.db b = .ok (some hash)) : Genuine sha C b.hash hash := by
  unfold resolveBlockData at hr
  split at hr
  · next data hd =>
    cases hr
    exact h.inline _ hd
  · split at hr
    · cases hr
    · next s hs =>
      split at hr
      · cases hr
      · split at hr
        · next data hget =>
          cases hr
          obtain ⟨data, he, hg⟩ := (h.numbered s hs).2.2 _ hget
          cases he
          exact hg
        · cases hr

/-- **Stored content matches its address.**  In every run with truthful announcements and payloads in
which the number counter does not wrap, every block of the committed index that resolves does so to
bytes with its hash and its size. -/
theorem content_matches (sha : Bytes → Bytes) (C : Set Bytes) (hC : Set.InjOn sha C) (bl : Blooms)
    (epoch : Epoch) {m₀ m : Machine} {as : List Act} (h₀ : m₀.calls = ∅ ∧ m₀.jobs = ∅ ∧ m₀.store.Matches sha C)
    (hg : ∀ a ∈ as, Truthful sha C a) (hm : Meets (Machine.step bl epoch) (fun m a => noWrap m a = true) m₀ as)
    (hr : run (Machine.step bl epoch) m₀ as = some m) :
    m.store.Matches sha C ∧
    ∀ path fi, m.store.db.get (.mn path) = some (.file (some fi)) → ∀ b ∈ fi.blocks,
      ∀ bytes, resolveBlockData m.store.db b = .ok (some bytes) →
        sha bytes = b.hash ∧ (bytes.length : ℤ) = b.size := by
  have hinv : Matched sha C epoch m := run_inv (P := Matched sha C epoch)
    (fun m a m' h hga hs => matched_step h hs hga.2 hga.1) (Matched.init h₀.1 h₀.2.1 h₀.2.2)
    (hm.and_forall hg) hr
  refine ⟨⟨hinv.reserved, hinv.db.mono fun hash s hr => ⟨hr.1, hr.2.2⟩⟩, ?_⟩
  intro path fi hfi b hb bytes hres
  have hb : BlockOk sha C (RefOk sha C m) b := hinv.db.files _ fi hfi b hb
  obtain ⟨hmem, hsha⟩ := hb.resolve hres
  obtain ⟨data, ⟨hdC, hdsha⟩, hlen⟩ := hb.declared
  -- the announced content and the stored one have the same hash
  have heq : bytes = data := hC hmem hdC (hsha.trans hdsha.symm)
  exact ⟨hsha, heq ▸ hlen⟩

end Content

/-! ### A payload with a wrong hash -/

def padHash (data : Bytes) : Bytes := (data ++ List.replicate 32 0).take 32

/-- `f` has one block, with the content `[1]`. -/
def smallFile : WireFile := ⟨['f'], 1, some ⟨[⟨1, 1⟩]⟩, 0, [⟨padHash [1], 0, 1⟩], 0, false⟩

def transfer (payload : Bytes) : List Act :=
  wholeCall 0 (.stageFile smallFile) 2 ++ wholeCall 1 (.storeBlock ['f'] (padHash [1]) payload) 3 ++
  wholeCall 2 (.completeFile ['f'] smallFile.version) 5

/-- The peer answers with `[2, 2]`: the committed block resolves to bytes with another hash and
another length. -/
theorem content_fails_wrong_payload :
    Set.InjOn padHash { [1], [2, 2] } ∧ Announced padHash { [1], [2, 2] } smallFile ∧
    ∃ m, runEmpty (transfer [2, 2]) = some m ∧
      ∃ fi, m.store.db.get (fileKey ['f']) = some (.file (some fi)) ∧ ∃ b ∈ fi.blocks, ∃ bytes,
        resolveBlockData m.store.db b = .ok (some bytes) ∧ padHash bytes ≠ b.hash ∧ (bytes.length : ℤ) ≠ b.size := by
  refine ⟨?_, ?_, ?_⟩
  · rintro x hx y hy h
    simp only [Set.mem_insert_iff, Set.mem_singleton_iff] at hx hy
    rcases hx with rfl | rfl <;> rcases hy with rfl | rfl <;> first | rfl | cases h
  · intro b hb
    rw [mem_singleton.1 hb]
    exact ⟨[1], ⟨.inl rfl, rfl⟩, rfl⟩
  · obtain ⟨m, hm, hf⟩ : ∃ m, runEmpty (transfer [2, 2]) = some m ∧
        m.store.db.get (fileKey ['f']) = some (.file (some { smallFile.toStored with
          sequence := 1, blocks := [⟨padHash [1], 0, 1, none, some [2, 2]⟩] })) := by
      decide
    exact ⟨m, hm, _, hf, _, mem_singleton_self _, [2, 2], rfl, by decide, by decide⟩

lemma truthful_transfer {C : Set Bytes} (hC : [1] ∈ C) : ∀ a ∈ transfer [1], Truthful padHash C a := by
  intro a ha
  simp only [transfer, wholeCall, cons_append, mem_cons, mem_append, mem_replicate, or_assoc] at ha
  rcases ha with rfl | ⟨-, rfl⟩ | rfl | ⟨-, rfl⟩ | rfl | ⟨-, rfl⟩
  · intro b hb
    rw [mem_singleton.1 hb]
    exact ⟨[1], ⟨hC, rfl⟩, rfl⟩
  · trivial
  · exact ⟨hC, rfl⟩
  · trivial
  · trivial
  · trivial

/-- The same run with the right payload. -/
theorem content_matches_transfer :
    ∃ m, runEmpty (transfer [1]) = some m ∧
      m.store.db.get (fileKey ['f']) ≠ none ∧
      m.store.Matches padHash { [1] } ∧
      ∀ path fi, m.store.db.get (.mn path) = some (.file (some fi)) → ∀ b ∈ fi.blocks,
        ∀ bytes, resolveBlockData m.store.db b = .ok (some bytes) →
          padHash bytes = b.hash ∧ (bytes.length : ℤ) = b.size := by
  obtain ⟨m, hm, hf⟩ : ∃ m, runEmpty (transfer [1]) = some m ∧
      m.store.db.get (fileKey ['f']) ≠ none := by decide
  refine ⟨m, hm, hf, ?_⟩
  exact content_matches padHash { [1] } (Set.injOn_singleton _ _) exactFilters firstEpoch
    ⟨rfl, rfl, Store.matches_empty⟩ (truthful_transfer rfl) (by decide) hm

end Bepository.Storage
