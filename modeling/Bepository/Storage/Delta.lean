import Bepository.Storage.Index
import Bepository.Storage.Retention

/-!
# Delta index

`files_since` scans the sequence rows from a number on and looks up the names.  A compaction prunes
the rows below the floor of its peers, so the scan is complete only from the greatest floor on:
`filesSince_exact` says that above a bound that no floor has passed, it returns exactly the committed
entries, each once and in the order of their numbers.  `prunedIndex` is a run in which a floor passes
the bound.
-/

namespace Bepository.Storage

open Lib List Option Table

/-! ### Conditions on a step -/

def Op.name : Op → Str
  | .putFile file => file.name
  | .putFileWithCarry file _ => file.name
  | .stageFile file => file.name
  | .completeFile name _ => name
  | .storeBlock name _ _ => name
  | .reuseBlock name _ => name

def validAct : Act → Bool
  | .start _ op => (validateFileName op.name).isOk
  | _ => true

/-- The floor that a job computes is at most the first number above the bound. -/
def floorBelow (since : ℤ) (m : Machine) : Act → Bool
  | .floor _ =>
    match computePeerFloor m.store.db with
    | .ok (some floor) => floor ≤ since + 1
    | _ => true
  | _ => true

/-! ### The invariant -/

/-- The row is a sequence row or an entry at or below the bound, or no matter for the index. -/
def PrunedBelow (since : ℤ) (r : Key × Row) : Prop :=
  match r.1 with
  | .ms q => (q : ℤ) ≤ since
  | .mn _ => ∀ fi, r.2.val = .file (some fi) → fi.sequence ≤ since
  | .mx => False
  | _ => True

def JobPhase.Below (since : ℤ) : JobPhase → Prop
  | .filtering floor _ pruned => (∀ f, floor = some f → f ≤ since + 1) ∧
      ∀ r ∈ pruned, PrunedBelow since r
  | _ => True

structure Listed (since : ℤ) (epoch : Epoch) (m : Machine) : Prop where
  formed : ∀ t c, m.calls.lookup t = some c → c.pc.Formed epoch
  db : Indexed since m.store.db
  names : ∀ t c, m.calls.lookup t = some c → validateFileName c.name = .ok ()
  locks : ∀ t t' c c', m.calls.lookup t = some c → m.calls.lookup t' = some c' →
    c.name = c'.name → c.pc.locked = true → c'.pc.locked = true → t = t'
  calls : ∀ t c, m.calls.lookup t = some c → PcIndexed since epoch m.store.db c.name c.pc
  floors : ∀ j job, m.jobs.lookup j = some job → job.phase.Below since

section Runs

variable {bl : Blooms} {since : ℤ} {epoch : Epoch} {m m' : Machine} {t : ℕ} {name : Str}
  {pc : Pc} {st : Store} {aft : After}

lemma Listed.apart (h : Listed since epoch m) (hc : m.calls.lookup t = some ⟨name, pc⟩)
    (hs : pc.Steps epoch name m.store st aft) {t' : ℕ} {c' : Call} (hne : t' ≠ t)
    (hc' : m.calls.lookup t' = some c') :
    c'.pc.locked = false ∨ st = m.store ∨ splitName c'.name ≠ splitName name := by
  by_cases hl' : c'.pc.locked = true
  · by_cases hl : pc.locked = true
    · -- both hold their locks, so the names differ, and with them the paths
      have hnames : c'.name ≠ name := fun he => hne (h.locks t' t c' _ hc' hc he hl' hl)
      exact .inr (.inr fun he => hnames (splitName_inj (h.names t' c' hc') (h.names t _ hc) he))
    · exact .inr (.inl (hs.unlocked (Bool.eq_false_iff.2 hl)))
  · exact .inl (Bool.eq_false_iff.2 hl')

/-- **A step of a call.** -/
lemma Listed.call (h : Listed since epoch m) (h0 : 0 ≤ since) (hc : m.calls.lookup t = some ⟨name, pc⟩)
    (hs : pc.Steps epoch name m.store st aft) : Listed since epoch (m.after t name (st, aft)) := by
  have hf : pc.Formed epoch := h.formed t _ hc
  obtain ⟨hdb, haft, hmax, hmn⟩ := hs.indexed hf h0 h.db (h.calls t _ hc)
  have hother : ∀ t' c', t' ≠ t → m.calls.lookup t' = some c' → PcIndexed since epoch st.db c'.name c'.pc := by
    intro t' c' hne hc'
    have hidx := h.calls t' c' hc'
    rcases h.apart hc hs hne hc' with hl | rfl | hpath
    · exact hidx.of_unlocked hl
    · exact hidx
    · refine hidx.frame hmax fun q _ => ?_
      unfold SeqAt
      rw [hmn _ hpath]
  refine ⟨fun t' c' hc' => ?_, by rwa [Machine.after_store], fun t' c' hc' => ?_,
    fun t₁ t₂ c₁ c₂ h₁ h₂ he hl₁ hl₂ => ?_, fun t' c' hc' => ?_, ?_⟩
  · rcases Machine.lookup_after hc' with ⟨-, rfl, -⟩ | ⟨-, hc'⟩
    · exact hs.formed hf
    · exact h.formed t' c' hc'
  · rcases Machine.lookup_after hc' with ⟨-, -, he⟩ | ⟨-, hc'⟩
    · rw [he]
      exact h.names t _ hc
    · exact h.names t' c' hc'
  · rcases Machine.lookup_after h₁ with ⟨rfl, ha₁, hn₁⟩ | ⟨hne₁, h₁'⟩
    · rcases Machine.lookup_after h₂ with ⟨rfl, -, -⟩ | ⟨hne₂, h₂'⟩
      · rfl
      · exact h.locks _ _ _ c₂ hc h₂' (hn₁.symm.trans he) (hs.locked ha₁ hl₁) hl₂
    · rcases Machine.lookup_after h₂ with ⟨rfl, ha₂, hn₂⟩ | ⟨hne₂, h₂'⟩
      · exact h.locks _ _ c₁ _ h₁' hc (he.trans hn₂) hl₁ (hs.locked ha₂ hl₂)
      · exact h.locks t₁ t₂ c₁ c₂ h₁' h₂' he hl₁ hl₂
  · rw [Machine.after_store]
    rcases Machine.lookup_after hc' with ⟨-, rfl, he⟩ | ⟨hne, hc'⟩
    · rw [he]
      exact haft
    · exact hother t' c' hne hc'
  · intro j job hj
    rw [Machine.after_jobs] at hj
    exact h.floors j job hj

variable {c : Call} {gc : CompactionState}

lemma start_listed {op : Op} (h : op.start = some c) :
    c.name = op.name ∧ c.pc.locked = false ∧ ∀ db, PcIndexed since epoch db c.name c.pc := by
  cases op with
  | putFile file => cases h; exact ⟨rfl, rfl, fun _ => ⟨FileInfo.typed_toStored file, (by rintro _ ⟨⟩)⟩⟩
  | putFileWithCarry | stageFile | completeFile => cases h; exact ⟨rfl, rfl, fun _ => trivial⟩
  | storeBlock name hash =>
    obtain ⟨hash, -, rfl⟩ := map_eq_some_iff.1 h
    split <;> exact ⟨rfl, rfl, fun _ => trivial⟩
  | reuseBlock =>
    obtain ⟨hash, -, rfl⟩ := map_eq_some_iff.1 h
    exact ⟨rfl, rfl, fun _ => trivial⟩

section

variable (h : Listed since epoch m)
include h

lemma Listed.insert_call (hf : c.pc.Formed epoch) (hn : validateFileName c.name = .ok ())
    (hidx : PcIndexed since epoch m.store.db c.name c.pc) (hl : c.pc.locked = true → m.isLocked c.name = false) :
    Listed since epoch { m with calls := m.calls.insert t c } := by
  have hfree : ∀ t' c', m.calls.lookup t' = some c' → c'.name = c.name → c.pc.locked = true →
      c'.pc.locked = true → False := by
    intro t' c' hc' he hlc hlc'
    have := hl hlc
    unfold Machine.isLocked at this
    rw [List.any_eq_false] at this
    refine this ⟨t', c'⟩ (AList.mem_lookup_iff.1 hc') ?_
    simp [he, hlc']
  refine ⟨forall_insert h.formed hf, h.db, forall_insert h.names hn,
    fun t₁ t₂ c₁ c₂ h₁ h₂ he hl₁ hl₂ => ?_, forall_insert h.calls hidx, h.floors⟩
  rw [lookup_insert'] at h₁ h₂
  split_ifs at h₁ h₂ with ht₁ ht₂ ht₂
  · rw [ht₁, ht₂]
  · cases h₁
    exact (hfree t₂ c₂ h₂ he.symm hl₁ hl₂).elim
  · cases h₂
    exact (hfree t₁ c₁ h₁ he hl₂ hl₁).elim
  · exact h.locks t₁ t₂ c₁ c₂ h₁ h₂ he hl₁ hl₂

lemma Listed.start {op : Op} (hop : op.start = some c) (hv : (validateFileName op.name).isOk = true) :
    Listed since epoch { m with calls := m.calls.insert t c } := by
  obtain ⟨hname, hl, hidx⟩ := start_listed hop
  refine h.insert_call (start_formed epoch hop).1 ?_ (hidx _) fun hl' => ?_
  · rw [hname]
    cases hok : validateFileName op.name with
    | error => rw [hok] at hv; cases hv
    | ok => rfl
  · rw [hl] at hl'
    cases hl'

lemma Listed.fewer (hc : ∀ t c, m'.calls.lookup t = some c → m.calls.lookup t = some c)
    (hdb : m'.store.db = m.store.db) (hj : m'.jobs = m.jobs) : Listed since epoch m' := by
  refine ⟨fun t c ht => h.formed t c (hc t c ht), hdb ▸ h.db, fun t c ht => h.names t c (hc t c ht),
    fun t t' c c' ht ht' => h.locks t t' c c' (hc t c ht) (hc t' c' ht'), fun t c ht => ?_, hj ▸ h.floors⟩
  rw [hdb]
  exact h.calls t c (hc t c ht)

lemma Listed.of_db (hc : m'.calls = m.calls) (hdb : Indexed since m'.store.db)
    (hmax : maxSeq m.store.db ≤ maxSeq m'.store.db)
    (hat : ∀ path q, since < q → (SeqAt m'.store.db path q ↔ SeqAt m.store.db path q))
    (hj : ∀ j job, m'.jobs.lookup j = some job → job.phase.Below since) : Listed since epoch m' := by
  refine ⟨?_, hdb, ?_, ?_, ?_, hj⟩
  · rw [hc]
    exact h.formed
  · rw [hc]
    exact h.names
  · rw [hc]
    exact h.locks
  · rw [hc]
    exact fun t c hl => (h.calls t c hl).frame hmax fun q hq => hat _ q hq

end

lemma deletion_of_filter {f : GcFilter} {path : Path} {fi : StoredFile} {d : Decision}
    (h : GcFilter.filter bl gc f (.mn path) (.file (some fi)) = .ok d) (hd : d ≠ .keep) :
    fi.deleted = true ∧ ∃ x, f.peerFloor = some x ∧ fi.sequence < x := by
  simp only [GcFilter.filter] at h
  split_ifs at h with hlt
  · obtain ⟨x, hx, hlt⟩ := (Option.any_eq_true _ _).1 hlt
    simp only [Value.decodeFile, Bool.and_eq_true, decide_eq_true_eq] at hlt
    exact ⟨hlt.1, x, hx, hlt.2⟩
  · cases h
    exact absurd rfl hd

lemma prunedBelow_of_filter {f : GcFilter} {r : Key × Row} {d : Decision}
    (hfl : ∀ x, f.peerFloor = some x → x ≤ since + 1) (h : GcFilter.filter bl gc f r.1 r.2.val = .ok d)
    (hd : d ≠ .keep) : PrunedBelow since r := by
  obtain ⟨k, row⟩ := r
  unfold PrunedBelow
  cases k with
  | ms q =>
    simp only [GcFilter.filter] at h
    split_ifs at h with hlt
    · obtain ⟨x, hx, hlt⟩ := (Option.any_eq_true _ _).1 hlt
      simp only [Bool.and_eq_true, decide_eq_true_eq] at hlt
      have := hfl x hx
      change (q : ℤ) ≤ since
      omega
    · cases h
      exact absurd rfl hd
  | mn =>
    intro fi hfi
    obtain ⟨-, x, hx, hlt⟩ := deletion_of_filter (hfi ▸ h) hd
    have := hfl x hx
    omega
  | mx =>
    cases h
    exact absurd rfl hd
  | _ => trivial

lemma Indexed.prune {db : Db} {pruned : List (Key × Row)} (hi : Indexed since db) (h0 : 0 ≤ since)
    (hp : ∀ r ∈ pruned, PrunedBelow since r) :
    Indexed since (db.prune pruned) ∧ maxSeq (db.prune pruned) = maxSeq db ∧
      ∀ path q, since < q → (SeqAt (db.prune pruned) path q ↔ SeqAt db path q) := by
  have hmx : (db.prune pruned).get .mx = db.get .mx := by
    refine get_prune_of_forall_ne fun r hr hk => ?_
    have := hp r hr
    unfold PrunedBelow at this
    rw [hk] at this
    exact this
  have hmeta : getIndexMeta (db.prune pruned) = getIndexMeta db := by
    unfold getIndexMeta
    rw [hmx]
  have hmax : maxSeq (db.prune pruned) = maxSeq db := by
    unfold maxSeq
    rw [hmeta]
  have hat : ∀ path q, since < q → (SeqAt (db.prune pruned) path q ↔ SeqAt db path q) := by
    intro path q hq
    constructor
    · rintro ⟨fi, hfi, hseq⟩
      exact ⟨fi, get_of_prune hfi, hseq⟩
    · rintro ⟨fi, hfi, hseq⟩
      refine ⟨fi, get_prune hfi fun r hr hk hv => ?_, hseq⟩
      have := hp r hr
      unfold PrunedBelow at this
      rw [hk] at this
      have := this fi hv
      omega
  refine ⟨hi.transfer h0 (hmeta ▸ hi.bound.1) hmax (fun path v hv => hi.files path v (get_of_prune hv))
    (fun e path fi hv => hi.staged e path fi (get_of_prune hv)) (fun q v hv => get_of_prune hv)
    (fun q v hq hv => get_prune hv fun r hr hk _ => ?_) hat, hmax, hat⟩
  have := hp r hr
  unfold PrunedBelow at this
  rw [hk] at this
  change (q : ℤ) ≤ since at this
  omega

/-- **One step**, with valid names and floors below the bound. -/
theorem listed_step {a : Act} (h : Listed since epoch m) (h0 : 0 ≤ since) (hs : m.step bl epoch a = some m')
    (hv : validAct a = true) (hg : floorBelow since m a = true) : Listed since epoch m' := by
  have hphase : ∀ (j : ℕ) (job : Job) (phase : JobPhase), phase.Below since →
      ∀ j' job', (m.setPhase j job phase).jobs.lookup j' = some job' → job'.phase.Below since :=
    fun _ _ _ hp => forall_insert h.floors hp
  have herase : ∀ j j' job', (m.jobs.erase j).lookup j' = some job' → job'.phase.Below since :=
    forall_erase h.floors
  cases Machine.step_moves hs with
  | refused => exact h
  | start _ hop => exact h.start hop hv
  | @lock t name pc hc hl =>
    have hf : (Pc.wait pc).Formed epoch := h.formed t _ hc
    have hidx : PcIndexed since epoch m.store.db name (.wait pc) := h.calls t _ hc
    have hn : validateFileName name = .ok () := h.names t _ hc
    exact h.insert_call hf hn hidx.indexed fun _ => hl
  | call hc _ hst => exact h.call h0 hc hst
  | @setRemote device state =>
    obtain ⟨hi, hmax, hmn⟩ := h.db.write_other h0 [.put (.md device) (.remote state)]
      (fun op hop => by rw [mem_singleton.1 hop]; rfl)
      (fun e path fi hop => by cases mem_singleton.1 hop)
    refine h.of_db rfl hi hmax.ge (fun path q _ => ?_) h.floors
    unfold SeqAt
    rw [hmn]
  | register =>
    exact h.of_db rfl h.db le_rfl (fun _ _ _ => Iff.rfl) (forall_insert h.floors trivial)
  | @snapshot j job =>
    exact h.of_db rfl h.db le_rfl (fun _ _ _ => Iff.rfl) (hphase j job _ trivial)
  | @scan j job => exact h.of_db rfl h.db le_rfl (fun _ _ _ => Iff.rfl) (hphase j job _ trivial)
  | @floor j job _ hj hp hf =>
    refine h.of_db rfl h.db le_rfl (fun _ _ _ => Iff.rfl) (hphase j job _ ⟨?_, (by rintro _ ⟨⟩)⟩)
    rintro f rfl
    simpa [floorBelow, hf] using hg
  | @keep j job _ _ _ _ hj hp =>
    have hb := h.floors j job hj
    rw [hp] at hb
    exact h.of_db rfl h.db le_rfl (fun _ _ _ => Iff.rfl) (hphase j job _ hb)
  | @prune j job _ _ _ _ _ hj hp hd hf =>
    have hb := h.floors j job hj
    rw [hp] at hb
    refine h.of_db rfl h.db le_rfl (fun _ _ _ => Iff.rfl) (hphase j job _ ⟨hb.1, ?_⟩)
    intro r' hr'
    rcases mem_cons.1 hr' with rfl | hr'
    · exact prunedBelow_of_filter hb.1 hf hd
    · exact hb.2 r' hr'
  | @commit j job _ _ hj hp =>
    have hb := h.floors j job hj
    rw [hp] at hb
    obtain ⟨hi, hmax, hat⟩ := h.db.prune h0 hb.2
    exact h.of_db rfl hi hmax.ge hat (herase j)
  | @drop _ j => exact h.of_db rfl h.db le_rfl (fun _ _ _ => Iff.rfl) (herase j)

end Runs

/-! ### The scan -/

section Scan

variable {since : ℤ} {db : Db}

lemma keyOrder_ms (q : ℕ) : Db.keyOrder (.ms q) = [109, 115] ++ digits 256 8 q := by
  unfold Db.keyOrder Key.encode
  rw [map_append]
  simp only [Key.tag, Key.body, beBytes, map_toNat_digits]
  rfl

lemma keyOrder_ms_lt {q q' : ℕ} (hq : q < 2 ^ 64) (hq' : q' < 2 ^ 64) :
    Db.keyOrder (.ms q) < Db.keyOrder (.ms q') ↔ q < q' := by
  rw [keyOrder_ms, keyOrder_ms]
  have h64 : (2 : ℕ) ^ 64 = 256 ^ 8 := by norm_num
  rw [← digits_lt_digits_iff (b := 256) (w := 8) (h64 ▸ hq) (h64 ▸ hq')]
  simp

variable {k : Key}

lemma exists_ms_of_range {q : ℕ} (hle : Db.keyOrder (.ms q) ≤ Db.keyOrder k)
    (hlt : Db.keyOrder k < [109, 116]) : ∃ q', k = .ms q' := by
  rw [keyOrder_ms, ← not_lt] at hle
  cases k with
  | ms q' => exact ⟨q', rfl⟩
  | _ => simp [Db.keyOrder, Key.encode, Key.tag, cons_lt_cons_iff] at hle hlt

lemma mem_scanRange_ms (hb : ∀ q v, db.get (.ms q) = some v → q < 2 ^ 64) {q₀ : ℕ} (h₀ : q₀ < 2 ^ 64)
    {r : Row} : (k, r) ∈ db.scanRange (Key.ms q₀).encode [109, 116] ↔
      ∃ q, k = .ms q ∧ q₀ ≤ q ∧ db.rows.lookup (.ms q) = some r := by
  unfold Db.scanRange
  rw [mem_filter, Db.mem_scan, Bool.and_eq_true, decide_eq_true_eq, decide_eq_true_eq]
  change _ ∧ Db.keyOrder (.ms q₀) ≤ Db.keyOrder k ∧ Db.keyOrder k < [109, 116] ↔ _
  constructor
  · rintro ⟨hr, hle, hlt⟩
    obtain ⟨q, rfl⟩ := exists_ms_of_range hle hlt
    have hq : q < 2 ^ 64 := hb q r.val (Db.get_eq_some.2 ⟨r, hr, rfl⟩)
    refine ⟨q, rfl, ?_, hr⟩
    rw [← not_lt, keyOrder_ms_lt hq h₀, not_lt] at hle
    exact hle
  · rintro ⟨q, rfl, hle, hr⟩
    have hq : q < 2 ^ 64 := hb q r.val (Db.get_eq_some.2 ⟨r, hr, rfl⟩)
    refine ⟨hr, ?_, ?_⟩
    · rw [← not_lt, keyOrder_ms_lt hq h₀, not_lt]
      exact hle
    · rw [keyOrder_ms]
      simp [cons_lt_cons_iff]

lemma pairwise_scanRange_ms (hb : ∀ q v, db.get (.ms q) = some v → q < 2 ^ 64) {q₀ : ℕ}
    (h₀ : q₀ < 2 ^ 64) : (db.scanRange (Key.ms q₀).encode [109, 116]).Pairwise fun a b =>
      ∀ q q', a.1 = .ms q → b.1 = .ms q' → q < q' := by
  have hp : (db.scanRange (Key.ms q₀).encode [109, 116]).Pairwise fun a b =>
      Db.keyOrder a.1 ≤ Db.keyOrder b.1 ∧ a.1 ≠ b.1 := Db.pairwise_scan.filter _
  refine hp.imp_of_mem fun {a b} ha hb' hab q q' hq hq' => ?_
  obtain ⟨k, r⟩ := a
  obtain ⟨k', r'⟩ := b
  cases (show k = .ms q from hq)
  cases (show k' = .ms q' from hq')
  obtain ⟨q₁, he, -, hr⟩ := (mem_scanRange_ms hb h₀).1 ha
  cases he
  obtain ⟨q₂, he, -, hr'⟩ := (mem_scanRange_ms hb h₀).1 hb'
  cases he
  have hlt : q < 2 ^ 64 := hb q r.val (Db.get_eq_some.2 ⟨r, hr, rfl⟩)
  have hlt' : q' < 2 ^ 64 := hb q' r'.val (Db.get_eq_some.2 ⟨r', hr', rfl⟩)
  have hle : q ≤ q' := by
    have := hab.1
    rw [← not_lt, keyOrder_ms_lt hlt' hlt, not_lt] at this
    exact this
  exact lt_of_le_of_ne hle fun he => hab.2 (by rw [he])

/-! ### The lookups -/

lemma getFile_of_get {name : Str} {fi : StoredFile} (h : db.get (fileKey name) = some (.file (some fi))) :
    getFile db name = fi.toWire.map some := by
  simp only [getFile, getFileProto, h, Value.decodeFile]

lemma filesOf_eq_ok {rows : List (Key × Row)} (h : ∀ r ∈ rows, ∃ q name w, r.1 = .ms q ∧ r.2.val = .name name ∧
      getFile db name = .ok (some w) ∧ w.sequence = q)
    (hp : rows.Pairwise fun a b => ∀ q q', a.1 = .ms q → b.1 = .ms q' → q < q') :
    ∃ l, filesOf db (rows.map fun r => r.2.val) = .ok l ∧ l.Pairwise (fun w w' => w.sequence < w'.sequence) ∧
      ∀ w, w ∈ l ↔ ∃ r ∈ rows, ∃ name, r.2.val = .name name ∧ getFile db name = .ok (some w) := by
  induction rows with
  | nil => exact ⟨[], rfl, .nil, by simp⟩
  | cons r rows ih =>
    obtain ⟨hr, hp⟩ := pairwise_cons.1 hp
    obtain ⟨l, hl, hsorted, hmem⟩ := ih (fun r' hr' => h r' (mem_cons_of_mem r hr')) hp
    obtain ⟨q, name, w, hq, hv, hget, hseq⟩ := h r mem_cons_self
    refine ⟨w :: l, ?_, pairwise_cons.2 ⟨fun w' hw' => ?_, hsorted⟩, fun w' => ?_⟩
    · rw [map_cons, hv]
      simp only [filesOf, hget, hl]
      rfl
    · obtain ⟨r', hr', name', hv', hget'⟩ := (hmem w').1 hw'
      obtain ⟨q', name'', w'', hq', hv'', hget'', hseq'⟩ := h r' (mem_cons_of_mem r hr')
      rw [hv'] at hv''
      cases hv''
      rw [hget'] at hget''
      cases hget''
      have := hr r' hr' q q' hq hq'
      omega
    · rw [mem_cons, hmem]
      constructor
      · rintro (rfl | ⟨r', hr', hw'⟩)
        · exact ⟨r, mem_cons_self, name, hv, hget⟩
        · exact ⟨r', mem_cons_of_mem r hr', hw'⟩
      · rintro ⟨r', hr', name', hv', hget'⟩
        rcases mem_cons.1 hr' with rfl | hr'
        · rw [hv] at hv'
          cases hv'
          rw [hget] at hget'
          cases hget'
          exact .inl rfl
        · exact .inr ⟨r', hr', name', hv', hget'⟩

/-- **The delta index of a quiet folder.** -/
lemma Indexed.filesSince (hi : Indexed since db) (h0 : 0 ≤ since) (hlt : since < i64Max) :
    ∃ l, filesSince db since = .ok l ∧ l.Pairwise (fun w w' => w.sequence < w'.sequence) ∧
      ∀ w, w ∈ l ↔ ∃ path fi, db.get (.mn path) = some (.file (some fi)) ∧ fi.toWire = .ok w ∧
        since < fi.sequence := by
  have hmax : i64Max = 2 ^ 63 - 1 := rfl
  have hb : ∀ q v, db.get (.ms q) = some v → q < 2 ^ 64 := by
    intro q v hv
    have := hi.seqs q v hv
    have := hi.bound.2.2
    omega
  have h₀ : (since + 1).toNat < 2 ^ 64 := by omega
  have hstart : seqScanStart since = .ok (.ms (since + 1).toNat) := by
    unfold seqScanStart seqKey
    rw [if_neg (by omega), if_neg (by omega)]
  -- a number in the index leads to its file
  have hfile : ∀ name q, SeqAt db (splitName name) q → ∃ fi w,
      db.get (fileKey name) = some (.file (some fi)) ∧ fi.toWire = .ok w ∧
        getFile db name = .ok (some w) ∧ w.sequence = q ∧ fi.sequence = q := by
    rintro name q ⟨fi, hfi, hseq⟩
    obtain ⟨fi', he, hty, -⟩ := hi.files _ _ hfi
    cases he
    obtain ⟨w, hw, -, hws⟩ := hty.exists_toWire
    exact ⟨fi, w, hfi, hw, by rw [getFile_of_get hfi, hw]; rfl, hws.trans hseq, hseq⟩
  have hrows : ∀ r ∈ db.scanRange (Key.ms (since + 1).toNat).encode [109, 116],
      ∃ q name w, r.1 = .ms q ∧ r.2.val = .name name ∧ getFile db name = .ok (some w) ∧ w.sequence = q := by
    rintro ⟨k, row⟩ hr
    obtain ⟨q, rfl, hle, hl⟩ := (mem_scanRange_ms hb h₀).1 hr
    obtain ⟨name, hv, hat⟩ := hi.row q row.val (Db.get_eq_some.2 ⟨row, hl, rfl⟩) (by omega)
    obtain ⟨fi, w, -, -, hget, hws, -⟩ := hfile name q hat
    exact ⟨q, name, w, rfl, hv, hget, hws⟩
  obtain ⟨l, hl, hsorted, hmem⟩ := filesOf_eq_ok hrows (pairwise_scanRange_ms hb h₀)
  refine ⟨l, ?_, hsorted, fun w => ?_⟩
  · unfold Storage.filesSince
    rw [hstart]
    exact hl
  · rw [hmem]
    constructor
    · rintro ⟨⟨k, row⟩, hr, name, hv, hget⟩
      obtain ⟨q, rfl, hle, hlk⟩ := (mem_scanRange_ms hb h₀).1 hr
      obtain ⟨name', hv', hat⟩ := hi.row q row.val (Db.get_eq_some.2 ⟨row, hlk, rfl⟩) (by omega)
      rw [show row.val = _ from hv] at hv'
      cases hv'
      obtain ⟨fi, w', hfi, hw, hget', -, hseq⟩ := hfile name q hat
      rw [hget] at hget'
      cases hget'
      exact ⟨splitName name, fi, hfi, hw, by omega⟩
    · rintro ⟨path, fi, hfi, hw, hseq⟩
      obtain ⟨name, rfl, hrow⟩ := hi.entry path fi.sequence ⟨fi, hfi, rfl⟩ hseq
      obtain ⟨row, hlk, hv⟩ := Db.get_eq_some.1 hrow
      refine ⟨(.ms fi.sequence.toNat, row), (mem_scanRange_ms hb h₀).2 ⟨_, rfl, by omega, hlk⟩, name,
        hv, ?_⟩
      rw [getFile_of_get hfi, hw]
      rfl

lemma exists_mn_of_prefix (h : FILE_PREFIX <+: k.encode) : ∃ path, k = .mn path := by
  cases k with
  | mn path => exact ⟨path, rfl⟩
  | _ => simp [FILE_PREFIX, Key.encode, Key.tag, cons_prefix_cons] at h

/-- **The full index of a quiet folder**, each entry once if the numbers tell the entries apart. -/
lemma Indexed.allFiles (hi : Indexed 0 db) : ∃ l, allFiles db = .ok l ∧ l.Nodup ∧
      ∀ w, w ∈ l ↔ ∃ path fi, db.get (.mn path) = some (.file (some fi)) ∧ fi.toWire = .ok w := by
  have hrow : ∀ k r, (k, r) ∈ db.scanPrefix FILE_PREFIX → ∃ path fi, k = .mn path ∧
      r.val = .file (some fi) ∧ db.get (.mn path) = some (.file (some fi)) := by
    intro k r hr
    obtain ⟨hl, hp⟩ := Db.mem_scanPrefix.1 hr
    obtain ⟨path, rfl⟩ := exists_mn_of_prefix hp
    have hget : db.get (.mn path) = some r.val := Db.get_eq_some.2 ⟨r, hl, rfl⟩
    obtain ⟨fi, hv, -⟩ := hi.files path _ hget
    exact ⟨path, fi, rfl, hv, hv ▸ hget⟩
  obtain ⟨l, hl⟩ : ∃ l, Storage.allFiles db = .ok l := by
    refine mapM_eq_ok_of_forall ?_
    rintro ⟨k, r⟩ hr
    obtain ⟨path, fi, rfl, hv, hget⟩ := hrow k r hr
    obtain ⟨fi', he, hty, -⟩ := hi.files path _ hget
    cases he
    obtain ⟨w, hw, -⟩ := hty.exists_toWire
    exact ⟨w, by simp only [hv, Value.decodeFile, hw]⟩
  refine ⟨l, hl, ?_⟩
  unfold Storage.allFiles at hl
  refine ⟨pairwise_of_mapM_eq_ok hl ?_, fun w => ?_⟩
  · refine List.Pairwise.imp_of_mem (fun {a b} ha hb hab w w' hw hw' he => ?_) (Db.pairwise_scan.filter _)
    obtain ⟨path, fi, hk, hv, hget⟩ := hrow a.1 a.2 ha
    obtain ⟨path', fi', hk', hv', hget'⟩ := hrow b.1 b.2 hb
    simp only [hv, hv', Value.decodeFile] at hw hw'
    obtain ⟨x, he₁, hty, hpos, -⟩ := hi.files path _ hget
    cases he₁
    obtain ⟨x, he₂, hty', -⟩ := hi.files path' _ hget'
    cases he₂
    obtain ⟨w₁, hw₁, -, hs₁⟩ := hty.exists_toWire
    obtain ⟨w₂, hw₂, -, hs₂⟩ := hty'.exists_toWire
    rw [hw] at hw₁
    rw [hw'] at hw₂
    cases hw₁
    cases hw₂
    -- equal files have equal numbers, and one number has one row
    have hseq : fi'.sequence = fi.sequence := by rw [← hs₁, ← hs₂, he]
    obtain ⟨name, hn, hrow₁⟩ := hi.entry path fi.sequence ⟨fi, hget, rfl⟩ hpos
    obtain ⟨name', hn', hrow₂⟩ := hi.entry path' fi.sequence ⟨fi', hget', hseq⟩ hpos
    rw [hrow₁] at hrow₂
    cases hrow₂
    refine hab.2 ?_
    rw [hk, hk', ← hn, ← hn']
  · rw [mem_of_mapM_eq_ok hl]
    constructor
    · rintro ⟨⟨k, r⟩, hr, hw⟩
      obtain ⟨path, fi, rfl, hv, hget⟩ := hrow k r hr
      simp only [hv, Value.decodeFile] at hw
      exact ⟨path, fi, hget, hw⟩
    · rintro ⟨path, fi, hget, hw⟩
      obtain ⟨r, hlk, hv⟩ := Db.get_eq_some.1 hget
      refine ⟨(.mn path, r), Db.mem_scanPrefix.2 ⟨hlk, prefix_append _ _⟩, ?_⟩
      simp only [hv, Value.decodeFile, hw]

end Scan

/-! ### The theorem -/

/-- **Delta index.**  In every state that valid calls and compactions lead to, if no job's peer floor
was above `since + 1`: `files_since(since)` returns exactly the committed entries with a greater
number, each once and in strictly increasing order.  With `since = 0`, the full index lists the same
entries. -/
theorem filesSince_exact (bl : Blooms) (epoch : Epoch) {since : ℤ} (h0 : 0 ≤ since) (hlt : since < i64Max)
    {m₀ m : Machine} {as : List Act} (h₀ : m₀.calls = ∅ ∧ m₀.jobs = ∅ ∧ Indexed since m₀.store.db)
    (hv : ∀ a ∈ as, validAct a = true)
    (hm : Meets (Machine.step bl epoch) (fun m a => floorBelow since m a = true) m₀ as)
    (hr : run (Machine.step bl epoch) m₀ as = some m) :
    Indexed since m.store.db ∧
    ∃ l, filesSince m.store.db since = .ok l ∧ l.Pairwise (fun w w' => w.sequence < w'.sequence) ∧
      (∀ w, w ∈ l ↔ ∃ path fi, m.store.db.get (.mn path) = some (.file (some fi)) ∧
        fi.toWire = .ok w ∧ since < fi.sequence) ∧
      (since = 0 → ∃ l', allFiles m.store.db = .ok l' ∧ l'.Perm l) := by
  obtain ⟨hc, hj, hdb⟩ := h₀
  have hinit : Listed since epoch m₀ := by
    refine ⟨?_, hdb, ?_, ?_, ?_, ?_⟩
    all_goals first | rw [hc] | rw [hj]
    all_goals simp
  have hinv : Listed since epoch m := run_inv (P := Listed since epoch)
    (fun m a m' h hg hs => listed_step h h0 hs hg.2 hg.1) hinit (hm.and_forall hv) hr
  obtain ⟨l, hl, hsorted, hmem⟩ := hinv.db.filesSince h0 hlt
  refine ⟨hinv.db, l, hl, hsorted, hmem, ?_⟩
  rintro rfl
  obtain ⟨l', hl', hnodup, hmem'⟩ := hinv.db.allFiles
  have hl_nodup : l.Nodup := hsorted.imp fun h he => by rw [he] at h; exact lt_irrefl _ h
  refine ⟨l', hl', (perm_ext_iff_of_nodup hnodup hl_nodup).2 fun w => ?_⟩
  rw [hmem, hmem']
  constructor
  · rintro ⟨path, fi, hfi, hw⟩
    obtain ⟨fi', he, -, hpos, -⟩ := hinv.db.files path _ hfi
    cases he
    exact ⟨path, fi, hfi, hw, hpos⟩
  · rintro ⟨path, fi, hfi, hw, -⟩
    exact ⟨path, fi, hfi, hw⟩

/-! ### A floor above the bound -/

def emptyFile (name : Str) : WireFile := ⟨name, 0, none, 0, [], 0, false⟩

def device (b : UInt8) : Bytes32 := ⟨List.replicate 32 b, length_replicate⟩

/-- A peer's index has reached its number 1000; `f` is committed with number 1 here, and a job prunes
its sequence row. -/
def prunedIndex : List Act :=
  .setRemote (device 0) ⟨1, 1000⟩ :: wholeCall 0 (.putFile (emptyFile ['f'])) 3 ++
  [.register [.ms 1] true, .snapshot 1, .scan 1, .floor 1, .decide 1, .commit 1]

/-- `f` is in the index, but not in the delta from 0. -/
theorem filesSince_misses_pruned :
    ∃ m, runEmpty prunedIndex = some m ∧
      m.calls.keys = [] ∧ filesSince m.store.db 0 = .ok [] ∧
      allFiles m.store.db = .ok [{ emptyFile ['f'] with sequence := 1 }] := by
  decide

/-- Names that `validate_file_name` rejects can share a key and not a lock: `f` and `/f` are committed
at once, and both of their rows lead to the one entry. -/
theorem filesSince_repeats_alias :
    ∃ m, runEmpty (wholeCall 0 (.putFile (emptyFile ['f'])) 2 ++
          wholeCall 1 (.putFile (emptyFile ['/', 'f'])) 3 ++ [.next 0]) = some m ∧
      filesSince m.store.db 0 = .ok (List.replicate 2 { emptyFile ['f'] with sequence := 2 }) := by
  decide

def keptIndex : List Act :=
  .setRemote (device 0) ⟨1, 1⟩ :: wholeCall 0 (.putFile (emptyFile ['f'])) 3 ++
  [.register [.ms 1] true, .snapshot 1, .scan 1, .floor 1, .decide 1, .commit 1]

theorem filesSince_exact_keptIndex :
    ∃ m, runEmpty keptIndex = some m ∧ Indexed 0 m.store.db ∧
      ∃ l, filesSince m.store.db 0 = .ok l ∧ l.Pairwise (fun w w' => w.sequence < w'.sequence) ∧
        (∀ w, w ∈ l ↔ ∃ path fi, m.store.db.get (.mn path) = some (.file (some fi)) ∧
          fi.toWire = .ok w ∧ 0 < fi.sequence) ∧
        ((0 : ℤ) = 0 → ∃ l', allFiles m.store.db = .ok l' ∧ l'.Perm l) := by
  have h : (runEmpty keptIndex).isSome := by
    decide
  obtain ⟨m, hm⟩ := isSome_iff_exists.1 h
  exact ⟨m, hm, filesSince_exact exactFilters firstEpoch le_rfl (by decide) ⟨rfl, rfl, Indexed.empty⟩
    (by decide) (by decide) hm⟩

end Bepository.Storage
