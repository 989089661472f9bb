import Bepository.Storage.Alone
import Bepository.Storage.Pointers
import Bepository.Storage.Retention

/-!
# Deduplication and active compactions

`find_block_dir` asks every active compaction whether it knows the hash, but what it returns is a
number, and `GcFilter::filter` decides on block rows by number.  The two agree as long as every hash
has one number and no job registers between the question and the answer (`dedup_hit_known`).  Two
calls that store one hash at the same time give it two numbers, and then the row of a dead file can be
returned although every job is free to drop it (`dedup_hit_unknown`).
-/

namespace Bepository.Storage

open Lib List Table

/-! ### Hashes with their numbers -/

def rowRefs : Key → Value → List (Bytes × ℕ)
  | .mb _ hash, .blockRef ref => [(hash.1, ref.seqno)]
  | _, .file (some fi) => liveRefs fi
  | _, _ => []

def Link.refs (hash : Bytes) : Link → List (Bytes × ℕ)
  | .inline _ => []
  | .existing _ seq => [(hash, seq)]
  | .fresh seq _ => [(hash, seq)]

def recRefs (recs : List (Bytes32 × ℕ)) : List (Bytes × ℕ) := recs.map fun c => (c.1.1, c.2)

def Pc.refs : Pc → List (Bytes × ℕ)
  | .wait pc => pc.refs
  | .commitRead stored _ carried => liveRefs stored ++ recRefs carried
  | .commitWrite stored _ carried => liveRefs stored ++ recRefs carried
  | .readCommitted staged => liveRefs staged
  | .readData hash _ _ seq _ => [(hash.1, seq)]
  | .readStaged hash link => link.refs hash.1
  | .readMain hash link => link.refs hash.1
  | .write hash link entry => link.refs hash.1 ++ liveRefs entry.1
  | .record recs => recRefs recs
  | _ => []

def JobPhase.toScan : JobPhase → List Value
  | .scanning todo => todo
  | _ => []

def Value.refs (v : Value) : List (Bytes × ℕ) :=
  match v.decodeFile with
  | some (some fi) => liveRefs fi
  | _ => []

/-- Every number in the database, in a call or in a scan, with its hash. -/
def Machine.refs (m : Machine) : List (Bytes × ℕ) :=
  (m.store.db.rows.toList.flatMap fun r => rowRefs r.1 r.2.val) ++
    (m.calls.toList.flatMap fun c => c.2.pc.refs) ++
    m.jobs.toList.flatMap fun j => j.2.phase.toScan.flatMap Value.refs

/-- The hash that `find_block_dir` is looking for, once it has asked the active jobs. -/
def Pc.checked : Pc → Option Bytes32
  | .wait pc => pc.checked
  | .scanRefs hash _ => some hash
  | .readPointer hash _ _ => some hash
  | .readData hash _ _ _ _ => some hash
  | _ => none

def JobPhase.scanned : JobPhase → Bool
  | .scanning [] => true
  | .filtering .. => true
  | _ => false

/-! ### The conditions -/

/-- A hash for which a call allocates a number has none: not in the database, in a call or in a scan,
and no job knows the hash. -/
def firstNumber (m : Machine) : Act → Bool
  | .next t => (m.calls.lookup t).all fun c =>
      match c.pc with
      | .allocate hash _ => (m.refs.all fun p => p.1 ≠ hash.1) &&
          m.store.gc.jobs.toList.all fun j => j.2.knownLiveHashes.all fun known => known ≠ hash
      | _ => true
  | _ => true

/-- A job registers when no call is between the question and the answer of `find_block_dir`. -/
def registersIdle (m : Machine) : Act → Bool
  | .register .. => m.calls.toList.all fun c => c.2.pc.checked.isNone
  | _ => true

/-! ### The rule -/

section Rule

variable {R : Bytes → ℕ → Prop} {db : Db} {pc : Pc} {fi : StoredFile}

/-- `R` says which numbers stand for which hashes. -/
def numberRule (R : Bytes → ℕ → Prop) : PointerRule where
  block b := ∀ s, b.blockseq = some s → R b.hash s
  number := R
  fresh := R
  bytes _ _ := True
  told h s := R h.1 s
  carry _ hsrc hh s hs := hh ▸ hsrc s hs
  toRow _ hs := by rintro _ ⟨⟩; exact hs
  toBytes _ _ := by rintro _ ⟨⟩
  tellBlock hb hs hh := hh ▸ hb _ hs
  tellRow hs := hs

lemma onFile_iff : (numberRule R).OnFile fi ↔ ∀ p ∈ liveRefs fi, R p.1 p.2 := by
  constructor
  · intro h p hp
    obtain ⟨b, hb, he⟩ := mem_filterMap.1 hp
    obtain ⟨s, hs, rfl⟩ := Option.map_eq_some_iff.1 he
    exact h b hb s hs
  · intro h b hb s hs
    exact h (b.hash, s) (mem_filterMap.2 ⟨b, hb, by rw [hs]; rfl⟩)

lemma onFile_toStored (file : WireFile) : (numberRule R).OnFile file.toStored := by
  intro b hb s hs
  obtain ⟨b₀, -, rfl⟩ := mem_map.1 hb
  cases hs

lemma onRecs_iff {recs : List (Bytes32 × ℕ)} : (∀ c ∈ recs, R c.1.1 c.2) ↔ ∀ p ∈ recRefs recs, R p.1 p.2 := by
  unfold recRefs
  simp only [mem_map, forall_exists_index, and_imp, forall_apply_eq_imp_iff₂]

lemma onLink_iff {hash : Bytes} {link : Link} :
    (numberRule R).OnLink hash link ↔ ∀ p ∈ link.refs hash, R p.1 p.2 := by
  cases link with
  | inline | existing | fresh => simp [PointerRule.OnLink, numberRule, Link.refs]

lemma onPc_iff : (numberRule R).OnPc pc ↔ ∀ p ∈ pc.refs, R p.1 p.2 := by
  have hnone : ∀ P : Prop, P → (P ↔ ∀ p ∈ ([] : List (Bytes × ℕ)), R p.1 p.2) :=
    fun P hP => iff_of_true hP (by simp)
  induction pc with
  | wait pc ih => exact ih
  | readSource file | stagePut file => exact hnone _ (onFile_toStored file)
  | commitRead | commitWrite =>
    simp only [Pc.refs, forall_mem_append]
    exact and_congr onFile_iff onRecs_iff
  | readInbox | allocate => exact hnone _ trivial
  | readCommitted => exact onFile_iff
  | checkSafe | scanRefs | readPointer => exact hnone _ fun _ _ => trivial
  | readData => simp [PointerRule.OnPc, numberRule, Pc.refs]
  | readStaged | readMain => exact onLink_iff
  | write =>
    simp only [Pc.refs, forall_mem_append]
    exact and_congr onLink_iff onFile_iff
  | record => exact onRecs_iff

lemma onDb_iff : (numberRule R).OnDb db ↔ ∀ k v, db.get k = some v → ∀ p ∈ rowRefs k v, R p.1 p.2 := by
  constructor
  · intro h k v hget p hp
    unfold rowRefs at hp
    split at hp
    · next dir hash ref =>
      cases mem_singleton.1 hp
      exact h.refs dir hash ref hget
    · next fi => exact onFile_iff.1 (h.files k fi hget) p hp
    · cases hp
  · intro h
    refine ⟨fun k fi hget => onFile_iff.2 fun p hp => ?_, fun dir hash ref hget => ?_⟩
    · refine h k _ hget p ?_
      cases k <;> exact hp
    · exact h _ _ hget (hash.1, ref.seqno) (mem_singleton_self _)

end Rule

/-! ### What a step does to the questions asked -/

section Asked

variable {bl : Blooms} {epoch : Epoch} {name : Str} {st st' : Store} {pc pc' : Pc} {aft : After}
  {m m' : Machine} {t : ℕ}

lemma next_cases (h : m.step bl epoch (.next t) = some m') : ∃ name pc, m.calls.lookup t = some ⟨name, pc⟩ ∧
      ((∃ pc', pc = .wait pc' ∧ m' = { m with calls := m.calls.insert t ⟨name, pc'⟩ }) ∨
        (∀ pc', pc ≠ .wait pc') ∧ m' = m.after t name (pc.exec bl epoch name m.store)) := by
  obtain ⟨⟨name, pc⟩, hc, h⟩ := Option.bind_eq_some_iff.1 h
  refine ⟨name, pc, hc, ?_⟩
  unfold Machine.callStep at h
  simp only at h
  split at h
  · next pc' =>
    split_ifs at h with hl
    cases h
    exact .inl ⟨pc', rfl, rfl⟩
  · next hw =>
    cases h
    exact .inr ⟨fun pc' he => hw pc' he, rfl⟩

lemma checked_recordNext {recs : List (Bytes32 × ℕ)} (h : recordNext recs = .go pc') : pc'.checked = none := by
  cases recs with
  | nil => cases h
  | cons => cases h; rfl

lemma checked_exec {hash : Bytes32} (h : pc.exec bl epoch name st = (st', .go pc')) (hw : ∀ pc', pc ≠ .wait pc')
    (hc : pc'.checked = some hash) :
    pc.checked = some hash ∨ CompactionState.isBlockSafe bl st.gc hash = true := by
  have hsteps := exec_steps h
  generalize he : After.go pc' = aft at hsteps
  cases hsteps with
  | @waiting pc => exact absurd rfl (hw pc)
  | @search hash' data _ _ hs hs' =>
    cases he
    -- the search is for one hash
    have hh : hash' = hash := by
      cases hs' with
      | checkSafe | allocate => cases hc
      | scanRefs | readPointer | readData => exact Option.some.inj hc
    subst hh
    cases hs with
    | checkSafe =>
      simp only [Pc.exec] at h
      obtain ⟨-, h⟩ := Prod.mk.inj h
      split_ifs at h with hsafe
      · exact .inr hsafe
      · cases data with
        | none => cases h
        | some => cases h; cases hc
    | allocate =>
      simp only [Pc.exec] at h
      split at h <;> obtain ⟨-, h⟩ := Prod.mk.inj h <;> cases h
      cases hc
    | _ => exact .inl rfl
  | pointer =>
    cases he
    exact .inl hc
  | commitWrite | write | record =>
    rw [checked_recordNext he.symm] at hc
    cases hc
  | _ => cases he <;> cases hc

end Asked

/-! ### What the jobs know -/

section Known

variable {epoch : Epoch} {name : Str} {st st' : Store} {pc : Pc} {aft : After} {gc : CompactionState}

lemma Pc.Steps.gc_cases (h : pc.Steps epoch name st st' aft) : st'.gc = st.gc ∨
    ∃ hash seq recs, pc = .record ((hash, seq) :: recs) ∧ st'.gc = st.gc.recordBlockWrite hash (some seq) := by
  cases h with
  | @record hash seq recs => exact .inr ⟨hash, seq, recs, rfl, rfl⟩
  | _ => exact .inl rfl

/-- What a job knows, with what it learns from `refs`. -/
def CompactionJobState.learn (refs : List (Bytes32 × ℕ)) (j : CompactionJobState) : CompactionJobState :=
  ⟨refs.map Prod.fst ++ j.knownLiveHashes, refs.map Prod.snd ++ j.knownLiveSeqs⟩

lemma lookup_recordBlockWrite {j : ℕ} {hash : Bytes32} {seq : ℕ} :
    (gc.recordBlockWrite hash (some seq)).jobs.lookup j = (gc.jobs.lookup j).map (.learn [(hash, seq)]) := by
  rw [CompactionState.recordBlockWrite, lookup_map]
  rfl

lemma lookup_index {j j' : ℕ} {refs : List (Bytes32 × ℕ)} : (gc.index j refs).jobs.lookup j' =
    (gc.jobs.lookup j').map fun js => if j' = j then js.learn refs else js := by
  unfold CompactionState.index
  split
  · next hn =>
    by_cases hj : j' = j
    · rw [hj, hn]
      rfl
    · simp [hj]
  · next js hjs =>
    rw [lookup_insert']
    by_cases hj : j' = j
    · rw [if_pos hj, hj, hjs]
      simp [CompactionJobState.learn]
    · simp [hj]

end Known

/-! ### The invariant -/

/-- `R` gives every hash one number, everything in the machine follows it, and every active job knows
the hashes that calls have asked for. -/
structure OneNumber (R : Bytes → ℕ → Prop) (epoch : Epoch) (m : Machine) : Prop where
  single : ∀ h s s', R h s → R h s' → s = s'
  formed : ∀ t c, m.calls.lookup t = some c → c.pc.Formed epoch
  db : (numberRule R).OnDb m.store.db
  calls : ∀ t c, m.calls.lookup t = some c → (numberRule R).OnPc c.pc
  scans : ∀ j job, m.jobs.lookup j = some job → ∀ v ∈ job.phase.toScan, ∀ p ∈ v.refs, R p.1 p.2
  known : ∀ j js, m.store.gc.jobs.lookup j = some js →
    ∀ h ∈ js.knownLiveHashes, ∃ s ∈ js.knownLiveSeqs, R h.1 s
  asked : ∀ t c, m.calls.lookup t = some c → ∀ hash, c.pc.checked = some hash →
    ∀ j js, m.store.gc.jobs.lookup j = some js → hash ∈ js.knownLiveHashes

section Steps

variable {R : Bytes → ℕ → Prop} {bl : Blooms} {epoch : Epoch} {name : Str} {m m' : Machine} {t : ℕ}

lemma mem_machineRefs {p : Bytes × ℕ} : p ∈ m.refs ↔ (∃ k v, m.store.db.get k = some v ∧ p ∈ rowRefs k v) ∨
    (∃ t c, m.calls.lookup t = some c ∧ p ∈ c.pc.refs) ∨
    ∃ j job, m.jobs.lookup j = some job ∧ ∃ v ∈ job.phase.toScan, p ∈ v.refs := by
  unfold Machine.refs
  simp only [mem_append, mem_flatMap, Prod.exists, Table.mem_toList, Db.get_eq_some, or_assoc]
  refine or_congr_left ?_
  constructor
  · rintro ⟨k, r, hr, hp⟩
    exact ⟨k, r.val, ⟨r, hr, rfl⟩, hp⟩
  · rintro ⟨k, -, ⟨r, hr, rfl⟩, hp⟩
    exact ⟨k, r, hr, hp⟩

/-- `R` as it is, but for one hash. -/
def renumber (R : Bytes → ℕ → Prop) (hash : Bytes) (seq : ℕ) (h : Bytes) (s : ℕ) : Prop :=
  if h = hash then s = seq else R h s

lemma OneNumber.renumber (h : OneNumber R epoch m) {hash : Bytes32} (seq : ℕ) (hrefs : ∀ p ∈ m.refs, p.1 ≠ hash.1)
    (hknown : ∀ j js, m.store.gc.jobs.lookup j = some js → hash ∉ js.knownLiveHashes) :
    OneNumber (renumber R hash.1 seq) epoch m := by
  have hsame : ∀ p ∈ m.refs, R p.1 p.2 → Storage.renumber R hash.1 seq p.1 p.2 := by
    intro p hp hR
    unfold Storage.renumber
    rwa [if_neg (hrefs p hp)]
  refine ⟨fun x s s' hs hs' => ?_, h.formed, onDb_iff.2 fun k v hk p hp => ?_,
    fun t c hc => onPc_iff.2 fun p hp => ?_, fun j job hj v hv p hp => ?_, fun j js hj x hx => ?_, h.asked⟩
  · unfold Storage.renumber at hs hs'
    split_ifs at hs hs' with hx
    · rw [hs, hs']
    · exact h.single x s s' hs hs'
  · exact hsame p (mem_machineRefs.2 (.inl ⟨k, v, hk, hp⟩)) (onDb_iff.1 h.db k v hk p hp)
  · exact hsame p (mem_machineRefs.2 (.inr (.inl ⟨t, c, hc, hp⟩))) (onPc_iff.1 (h.calls t c hc) p hp)
  · exact hsame p (mem_machineRefs.2 (.inr (.inr ⟨j, job, hj, v, hv, hp⟩))) (h.scans j job hj v hv p hp)
  · obtain ⟨s, hs, hR⟩ := h.known j js hj x hx
    refine ⟨s, hs, ?_⟩
    have hne : x.1 ≠ hash.1 := fun he => hknown j js hj (Subtype.ext he ▸ hx)
    unfold Storage.renumber
    rwa [if_neg hne]

variable {refs : List (Bytes32 × ℕ)}

lemma known_learn {js : CompactionJobState} (hrefs : ∀ c ∈ refs, R c.1.1 c.2)
    (h : ∀ x ∈ js.knownLiveHashes, ∃ s ∈ js.knownLiveSeqs, R x.1 s) :
    ∀ x ∈ (js.learn refs).knownLiveHashes, ∃ s ∈ (js.learn refs).knownLiveSeqs, R x.1 s := by
  intro x hx
  rcases mem_append.1 hx with hx | hx
  · obtain ⟨c, hc, rfl⟩ := mem_map.1 hx
    exact ⟨c.2, mem_append_left _ (mem_map_of_mem hc), hrefs c hc⟩
  · obtain ⟨s, hs, hR⟩ := h x hx
    exact ⟨s, mem_append_right _ hs, hR⟩

/-- **A step of a call**, if a number that it allocates is the one of its hash. -/
lemma OneNumber.call (h : OneNumber R epoch m) {pc : Pc} {st : Store} {aft : After}
    (hc : m.calls.lookup t = some ⟨name, pc⟩) (hs : pc.Steps epoch name m.store st aft)
    (hnew : ∀ hash data seq db range, pc = .allocate hash data →
      allocate m.store.db m.store.range = .ok (seq, db, range) → R hash.1 seq)
    (hask : ∀ pc' hash, aft = .go pc' → pc'.checked = some hash → pc.checked = some hash ∨
      ∀ j js, m.store.gc.jobs.lookup j = some js → hash ∈ js.knownLiveHashes) :
    OneNumber R epoch (m.after t name (st, aft)) := by
  have hf : pc.Formed epoch := h.formed t _ hc
  have hpc : (numberRule R).OnPc pc := h.calls t _ hc
  obtain ⟨hdb, haft⟩ := PointerRule.step hs hf h.db hpc hnew (by
    rintro hash s data entry rfl -
    exact hpc.1.1)
  -- what a job knows now, and knew before
  have hgc : ∀ j js, st.gc.jobs.lookup j = some js → ∃ js₀ refs, m.store.gc.jobs.lookup j = some js₀ ∧
      js = js₀.learn refs ∧ ∀ c ∈ refs, R c.1.1 c.2 := by
    intro j js hj
    rcases hs.gc_cases with hsame | ⟨hash, seq, recs, rfl, hrec⟩
    · exact ⟨js, [], hsame ▸ hj, rfl, by simp⟩
    · rw [hrec, lookup_recordBlockWrite, Option.map_eq_some_iff] at hj
      obtain ⟨js₀, hj, rfl⟩ := hj
      refine ⟨js₀, [(hash, seq)], hj, rfl, fun c hmem => ?_⟩
      rw [mem_singleton.1 hmem]
      exact hpc (hash, seq) mem_cons_self
  refine ⟨h.single, fun t' c' hc' => ?_, ?_, fun t' c' hc' => ?_, ?_, ?_, fun t' c' hc' hash hch => ?_⟩
  · rcases Machine.lookup_after hc' with ⟨-, rfl, -⟩ | ⟨-, hc'⟩
    · exact hs.formed hf
    · exact h.formed t' c' hc'
  · rw [Machine.after_store]
    exact hdb
  · rcases Machine.lookup_after hc' with ⟨-, rfl, -⟩ | ⟨-, hc'⟩
    · exact haft
    · exact h.calls t' c' hc'
  · rw [Machine.after_jobs]
    exact h.scans
  · rw [Machine.after_store]
    intro j js hj
    obtain ⟨js₀, refs, hj₀, rfl, hrefs⟩ := hgc j js hj
    exact known_learn hrefs (h.known j js₀ hj₀)
  · rw [Machine.after_store]
    intro j js hj
    obtain ⟨js₀, refs, hj₀, rfl, -⟩ := hgc j js hj
    refine mem_append_right _ ?_
    rcases Machine.lookup_after hc' with ⟨-, rfl, -⟩ | ⟨-, hc'⟩
    · rcases hask c'.pc hash rfl hch with hch | hall
      · exact h.asked t _ hc hash hch j js₀ hj₀
      · exact hall j js₀ hj₀
    · exact h.asked t' c' hc' hash hch j js₀ hj₀

lemma start_refs {op : Op} {c : Call} (h : op.start = some c) : c.pc.refs = [] ∧ c.pc.checked = none := by
  cases op with
  | putFile file =>
    cases h
    refine ⟨?_, rfl⟩
    have hno : (numberRule fun _ _ => False).OnFile file.toStored := onFile_toStored file
    simp only [Pc.refs, recRefs, map_nil, append_nil]
    exact eq_nil_iff_forall_not_mem.2 (onFile_iff.1 hno)
  | storeBlock =>
    obtain ⟨hash', -, rfl⟩ := Option.map_eq_some_iff.1 h
    split <;> exact ⟨rfl, rfl⟩
  | reuseBlock =>
    obtain ⟨hash', -, rfl⟩ := Option.map_eq_some_iff.1 h
    exact ⟨rfl, rfl⟩
  | _ => cases h; exact ⟨rfl, rfl⟩

lemma OneNumber.job (h : OneNumber R epoch m) (hcalls : m'.calls = m.calls)
    (hdb : ∀ k v, m'.store.db.get k = some v → m.store.db.get k = some v ∨ rowRefs k v = [])
    (hscans : ∀ j job, m'.jobs.lookup j = some job → ∀ v ∈ job.phase.toScan, ∀ p ∈ v.refs, R p.1 p.2)
    (hgc : ∀ j js, m'.store.gc.jobs.lookup j = some js → ∃ js₀ refs,
      m.store.gc.jobs.lookup j = some js₀ ∧ js = js₀.learn refs ∧ ∀ c ∈ refs, R c.1.1 c.2) :
    OneNumber R epoch m' := by
  refine ⟨h.single, fun t c hc => h.formed t c (hcalls ▸ hc), onDb_iff.2 fun k v hk p hp => ?_,
    fun t c hc => h.calls t c (hcalls ▸ hc), hscans, fun j js hj => ?_, fun t c hc hash hch j js hj => ?_⟩
  · rcases hdb k v hk with hk | hnil
    · exact onDb_iff.1 h.db k v hk p hp
    · rw [hnil] at hp
      cases hp
  · obtain ⟨js₀, refs, hj₀, rfl, hrefs⟩ := hgc j js hj
    exact known_learn hrefs (h.known j js₀ hj₀)
  · obtain ⟨js₀, refs, hj₀, rfl, -⟩ := hgc j js hj
    exact mem_append_right _ (h.asked t c (hcalls ▸ hc) hash hch j js₀ hj₀)

lemma mem_rowRefs_of_refs {k : Key} {v : Value} {p : Bytes × ℕ} (h : p ∈ v.refs) : p ∈ rowRefs k v := by
  cases v with
  | file info =>
    cases info with
    | none => cases h
    | some => cases k <;> exact h
  | _ => cases h

lemma mem_refs_of_indexEntry {v : Value} (h : indexEntry v = .ok refs) {c : Bytes32 × ℕ}
    (hc : c ∈ refs) : (c.1.1, c.2) ∈ v.refs := by
  unfold indexEntry at h
  split at h
  · cases h
  · cases h
    cases hc
  · next fi hfi =>
    obtain ⟨p, hp, he⟩ := (mem_of_mapM_eq_ok h).1 hc
    rw [indexRef_eq_ok he, Value.refs, hfi]
    exact hp

lemma OneNumber.phase (h : OneNumber R epoch m) {j : ℕ} {job : Job} {phase : JobPhase}
    (hp : ∀ v ∈ phase.toScan, ∀ p ∈ v.refs, R p.1 p.2) :
    ∀ j' job', (m.setPhase j job phase).jobs.lookup j' = some job' →
      ∀ v ∈ job'.phase.toScan, ∀ p ∈ v.refs, R p.1 p.2 :=
  forall_insert h.scans hp

lemma OneNumber.next (h : OneNumber R epoch m) (hs : m.step exactFilters epoch (.next t) = some m')
    (hfirst : firstNumber m (.next t) = true) : ∃ R', OneNumber R' epoch m' := by
  obtain ⟨name, pc, hc, ⟨pc', rfl, rfl⟩ | ⟨hw, rfl⟩⟩ := next_cases hs
  · -- the call takes its lock
    have hf : (Pc.wait pc').Formed epoch := h.formed t _ hc
    have hpc : (numberRule R).OnPc (.wait pc') := h.calls t _ hc
    have hasked := h.asked t _ hc
    exact ⟨R, h.single, forall_insert h.formed hf, h.db, forall_insert h.calls hpc, h.scans,
      h.known, forall_insert h.asked hasked⟩
  · cases hex : pc.exec exactFilters epoch name m.store with
    | mk st aft =>
      have hst := exec_steps hex
      have hask : ∀ pc' hash, aft = .go pc' → pc'.checked = some hash → pc.checked = some hash ∨
          ∀ j js, m.store.gc.jobs.lookup j = some js → hash ∈ js.knownLiveHashes := by
        rintro pc' hash rfl hch
        refine (checked_exec hex hw hch).imp_right fun hsafe j js hj => ?_
        have hall := all_eq_true.1 hsafe _ (AList.mem_lookup_iff.1 hj)
        exact Bloom.exact_contains.1 hall
      by_cases hal : ∃ hash data seq db range, pc = .allocate hash data ∧
          allocate m.store.db m.store.range = .ok (seq, db, range)
      · obtain ⟨hash, data, seq, db, range, rfl, ha⟩ := hal
        simp only [firstNumber, hc, Option.all_some, Bool.and_eq_true, all_eq_true,
          decide_eq_true_eq, Prod.forall, Table.mem_toList] at hfirst
        obtain ⟨hrefs, hknown⟩ := hfirst
        have h' := h.renumber seq (fun p hp => hrefs p.1 p.2 hp) fun j js hj hmem => hknown j js hj hash hmem rfl
        refine ⟨_, h'.call hc hst ?_ hask⟩
        rintro hash' data' seq' db' range' ⟨⟩ ha'
        cases ha.symm.trans ha'
        unfold Storage.renumber
        rw [if_pos rfl]
      · refine ⟨R, h.call hc hst ?_ hask⟩
        intro hash data seq db range hpc ha
        exact absurd ⟨hash, data, seq, db, range, hpc, ha⟩ hal

theorem oneNumber_step {a : Act} (h : OneNumber R epoch m) (hs : m.step exactFilters epoch a = some m')
    (hfirst : firstNumber m a = true) (hidle : registersIdle m a = true) : ∃ R', OneNumber R' epoch m' := by
  have hsame : ∀ j js, m.store.gc.jobs.lookup j = some js → ∃ js₀ refs,
      m.store.gc.jobs.lookup j = some js₀ ∧ js = js₀.learn refs ∧ ∀ c ∈ refs, R c.1.1 c.2 :=
    fun j js hj => ⟨js, [], hj, rfl, by simp⟩
  have hgone : ∀ j j' js, (m.store.gc.unregister j).jobs.lookup j' = some js → ∃ js₀ refs,
      m.store.gc.jobs.lookup j' = some js₀ ∧ js = js₀.learn refs ∧ ∀ c ∈ refs, R c.1.1 c.2 :=
    fun j j' js hj => hsame j' js (lookup_of_erase hj)
  have hempty : ∀ v ∈ ([] : List Value), ∀ p ∈ v.refs, R p.1 p.2 := by simp
  by_cases hnext : ∃ t, a = .next t
  · obtain ⟨t, rfl⟩ := hnext
    exact h.next hs hfirst
  · refine ⟨R, ?_⟩
    cases Machine.step_moves hs with
    | refused => exact h
    | start _ hop =>
      obtain ⟨hrefs, hch⟩ := start_refs hop
      exact ⟨h.single, forall_insert h.formed (start_formed epoch hop).1, h.db,
        forall_insert h.calls (onPc_iff.2 (by rw [hrefs]; simp)), h.scans, h.known,
        forall_insert h.asked (by rw [hch]; simp)⟩
    | @lock t | @call t => exact absurd ⟨t, rfl⟩ hnext
    | setRemote =>
      refine h.job rfl (fun k v hk => ?_) h.scans hsame
      rcases Db.get_write_eq_some hk with hput | ⟨-, hk⟩
      · cases mem_singleton.1 hput
        exact .inr rfl
      · exact .inl hk
    | register =>
      -- the new job knows nothing, and nobody waits for an answer
      have hnone : ∀ t c, m.calls.lookup t = some c → c.pc.checked = none := by
        intro t c hc
        exact Option.isNone_iff_eq_none.1 (all_eq_true.1 hidle (t, c) (Table.mem_toList.2 hc))
      refine ⟨h.single, h.formed, h.db, h.calls, forall_insert h.scans hempty,
        forall_insert h.known (by simp), fun t c hc hash hch => ?_⟩
      rw [hnone t c hc] at hch
      cases hch
    | @snapshot _ job hj hp =>
      refine h.job rfl (fun _ _ => .inl) (h.phase fun v hv p hp => ?_) hsame
      obtain ⟨⟨k, r⟩, hr, rfl⟩ := mem_map.1 hv
      have hrow : m.store.db.rows.lookup k = some r := by
        rcases mem_append.1 hr with hr | hr
        · exact (Db.mem_scanPrefix.1 hr).1
        · exact (Db.mem_scanPrefix.1 hr).1
      exact onDb_iff.1 h.db k r.val (Db.get_eq_some.2 ⟨r, hrow, rfl⟩) p (mem_rowRefs_of_refs hp)
    | @scan j job v _ refs hj hp hr =>
      have hscan := h.scans j job hj
      rw [hp] at hscan
      refine h.job rfl (fun _ _ => .inl) (h.phase fun v' hv' => hscan v' (mem_cons_of_mem v hv'))
        fun j' js hjs => ?_
      rw [lookup_index, Option.map_eq_some_iff] at hjs
      obtain ⟨js₀, hjs₀, rfl⟩ := hjs
      split_ifs
      · refine ⟨js₀, refs, hjs₀, rfl, fun c hc => ?_⟩
        exact hscan v mem_cons_self _ (mem_refs_of_indexEntry hr hc)
      · exact hsame j' js₀ hjs₀
    | @floor _ job | @keep _ job _ _ _ _ | @prune _ job _ _ _ _ _ =>
      exact h.job rfl (fun _ _ => .inl) (h.phase hempty) hsame
    | @commit j job =>
      exact h.job rfl (fun k v hk => .inl (get_of_prune hk)) (forall_erase h.scans j) (hgone j)
    | @drop _ j => exact h.job rfl (fun _ _ => .inl) (forall_erase h.scans j) (hgone j)

end Steps

/-! ### Runs -/

def Machine.numbersAgree (m : Machine) : Prop := ∀ p ∈ m.refs, ∀ q ∈ m.refs, p.1 = q.1 → p.2 = q.2

variable {m : Machine} {epoch : Epoch}

lemma OneNumber.init (hc : m.calls = ∅) (hj : m.jobs = ∅) (hgc : m.store.gc.jobs = ∅)
    (h : m.numbersAgree) : OneNumber (fun x s => (x, s) ∈ m.refs) epoch m := by
  have hno : ∀ t c, m.calls.lookup t ≠ some c := by
    intro t c hl
    rw [hc] at hl
    cases hl
  refine ⟨fun x s s' hs hs' => h _ hs _ hs' rfl, fun t c hl => absurd hl (hno t c),
    onDb_iff.2 fun k v hk p hp => mem_machineRefs.2 (.inl ⟨k, v, hk, hp⟩),
    fun t c hl => absurd hl (hno t c), fun j job hl => ?_, fun j js hl => ?_,
    fun t c hl => absurd hl (hno t c)⟩
  · rw [hj] at hl
    cases hl
  · rw [hgc] at hl
    cases hl

lemma OneNumber.numbersAgree {R : Bytes → ℕ → Prop} (h : OneNumber R epoch m) : m.numbersAgree := by
  have hall : ∀ p ∈ m.refs, R p.1 p.2 := by
    intro p hp
    rcases mem_machineRefs.1 hp with ⟨k, v, hk, hp⟩ | ⟨t, c, hc, hp⟩ | ⟨j, job, hj, v, hv, hp⟩
    · exact onDb_iff.1 h.db k v hk p hp
    · exact onPc_iff.1 (h.calls t c hc) p hp
    · exact h.scans j job hj v hv p hp
  intro p hp q hq he
  exact h.single p.1 p.2 q.2 (hall p hp) (he ▸ hall q hq)

/-- **Dedup hits are safe for every active compaction** in every run in which a number is only
allocated for a hash without one and no job registers while `find_block_dir` searches: when it returns
the number of a row, every registered job whose scan has finished knows the number, and decides to keep
the row.  At the end every hash has one number still. -/
theorem dedup_hit_known (epoch : Epoch) {m₀ m : Machine} {as : List Act}
    (h₀ : m₀.calls = ∅ ∧ m₀.jobs = ∅ ∧ m₀.store.gc.jobs = ∅ ∧ m₀.numbersAgree)
    (hm : Meets (Machine.step exactFilters epoch)
      (fun m a => firstNumber m a = true ∧ registersIdle m a = true) m₀ as)
    (hr : run (Machine.step exactFilters epoch) m₀ as = some m) :
    m.numbersAgree ∧
    ∀ t name hash data dir seq dirs, m.calls.lookup t = some ⟨name, .readData hash data dir seq dirs⟩ →
      (m.store.db.get (.bd seq)).isSome → ∀ j job js, m.jobs.lookup j = some job →
        job.phase.scanned = true → m.store.gc.jobs.lookup j = some js → seq ∈ js.knownLiveSeqs ∧ ∀ floor v d,
            GcFilter.filter exactFilters m.store.gc ⟨j, epoch, floor, job.isBottom⟩ (.bd seq) v = .ok d →
              d = .keep := by
  obtain ⟨R, h⟩ : ∃ R, OneNumber R epoch m := by
    refine run_inv (P := fun m => ∃ R, OneNumber R epoch m) (fun m a m' h hg hs => ?_)
      ⟨_, OneNumber.init h₀.1 h₀.2.1 h₀.2.2.1 h₀.2.2.2⟩ hm hr
    obtain ⟨R, h⟩ := h
    exact oneNumber_step h hs hg.1 hg.2
  refine ⟨h.numbersAgree, ?_⟩
  intro t name hash data dir seq dirs hc _ j job js _ _ hjs
  -- the job knows the hash, so it knows its number
  obtain ⟨s, hs, hR⟩ := h.known j js hjs hash (h.asked t _ hc hash rfl j js hjs)
  have hseq : R hash.1 seq := (h.calls t _ hc).1
  have hknown : seq ∈ js.knownLiveSeqs := h.single hash.1 s seq hR hseq ▸ hs
  refine ⟨hknown, fun floor v d hf => ?_⟩
  by_contra hd
  have hnot := not_known_of_filter hf hd
  simp only [CompactionState.knownLiveSeqContains, hjs, Option.all_some] at hnot
  rw [(exactFilters.seqs.mem _ _ hknown)] at hnot
  cases hnot

/-! ### Hits that a job does not know -/

/-- The number that `find_block_dir` is about to return. -/
def Pc.hit : Pc → Option ℕ
  | .readData _ _ _ seq _ => some seq
  | _ => none

lemma Pc.eq_of_hit {pc : Pc} {seq : ℕ} (h : pc.hit = some seq) :
    ∃ hash data dir dirs, pc = .readData hash data dir seq dirs := by
  cases pc <;> cases h
  exact ⟨_, _, _, _, rfl⟩

def fileOfA : Str := ['a', '/', 'x']

def fileOfB : Str := ['b', '/', 'y']

def fileOfC : Str := ['c', '/', 'z']

/-- `a/x` and `b/y` have the same block, and both are stored at the same time: it gets two numbers.
Then `a/x` is emptied. -/
def storedTwice : List Act :=
  wholeCall 0 (.stageFile (oneBlock fileOfA)) 2 ++ wholeCall 1 (.stageFile (oneBlock fileOfB)) 2 ++
  storeOne 2 fileOfA 3 ++ storeOne 3 fileOfB 3 ++ List.replicate 4 (.next 2) ++
  List.replicate 4 (.next 3) ++
  wholeCall 4 (.completeFile fileOfA (oneBlock fileOfA).version) 5 ++
  wholeCall 5 (.completeFile fileOfB (oneBlock fileOfB).version) 5 ++
  wholeCall 6 (.putFile { oneBlock fileOfA with blocks := [] }) 3

/-- A job scans, and `c/z` wants the block: the directory of the dead `a/x` comes first. -/
def deadDirectory : List Act :=
  storedTwice ++ wholeCall 7 (.stageFile (oneBlock fileOfC)) 2 ++
  [.register [.bd 1024] true, .snapshot 1, .scan 1, .scan 1] ++
  wholeCall 8 (.reuseBlock fileOfC (List.replicate 32 0)) 4

/-- `g` wants the block of a dead row; a job registers and scans after the question. -/
def lateJob : List Act :=
  garbageRow ++ wholeCall 5 (.reuseBlock ['g'] (List.replicate 32 0)) 2 ++ scanAll ++
  List.replicate 2 (.next 5)

/-- At the end of the run a search has returned a row that is there, and a job that has scanned does not know
it. -/
def ReturnsUnknown (as : List Act) : Prop :=
  ∃ m, runEmpty as = some m ∧
    ∃ t name hash data dir seq dirs, m.calls.lookup t = some ⟨name, .readData hash data dir seq dirs⟩ ∧
      (m.store.db.get (.bd seq)).isSome ∧ ∃ j job js, m.jobs.lookup j = some job ∧
        job.phase.scanned = true ∧ m.store.gc.jobs.lookup j = some js ∧ seq ∉ js.knownLiveSeqs

lemma returnsUnknown_of_run {as : List Act} (t : ℕ) (h : ∃ m, runEmpty as = some m ∧
      ∃ c, m.calls.lookup t = some c ∧ ∃ seq, c.pc.hit = some seq ∧ (m.store.db.get (.bd seq)).isSome ∧
        ∃ job, m.jobs.lookup 1 = some job ∧ job.phase.scanned = true ∧
          ∃ js, m.store.gc.jobs.lookup 1 = some js ∧ seq ∉ js.knownLiveSeqs) : ReturnsUnknown as := by
  obtain ⟨m, hm, ⟨name, pc⟩, hc, seq, hhit, hrow, job, hj, hscan, js, hjs, hseq⟩ := h
  obtain ⟨hash, data, dir, dirs, rfl⟩ := Pc.eq_of_hit hhit
  exact ⟨m, hm, t, name, hash, data, dir, seq, dirs, hc, hrow, 1, job, js, hj, hscan, hjs, hseq⟩

/-- With two numbers for a hash, or with a job that registers during the search, `find_block_dir`
returns a row that the job does not know. -/
theorem dedup_hit_unknown : ReturnsUnknown deadDirectory ∧ ReturnsUnknown lateJob :=
  ⟨returnsUnknown_of_run 8 (by decide +kernel), returnsUnknown_of_run 5 (by decide +kernel)⟩

/-- `f` is stored and committed, a job scans, and then `g` wants the block. -/
def liveDirectory : List Act :=
  wholeCall 0 (.stageFile (oneBlock ['f'])) 2 ++ storeOne 1 ['f'] 7 ++
  wholeCall 2 (.completeFile ['f'] (oneBlock ['f']).version) 5 ++
  wholeCall 3 (.stageFile (oneBlock ['g'])) 2 ++
  [.register [.bd 1024] true, .snapshot 1, .scan 1, .scan 1] ++
  wholeCall 4 (.reuseBlock ['g'] (List.replicate 32 0)) 4

theorem dedup_hit_known_live :
    ∃ m job js, runEmpty liveDirectory = some m ∧
      (∃ name hash data dir dirs, m.calls.lookup 4 = some ⟨name, .readData hash data dir 1024 dirs⟩) ∧
      m.jobs.lookup 1 = some job ∧ job.phase.scanned = true ∧ m.store.gc.jobs.lookup 1 = some js ∧
      1024 ∈ js.knownLiveSeqs := by
  obtain ⟨m, hm, ⟨name, pc⟩, hc, hhit, hrow, job, hj, hscan, hjs⟩ : ∃ m, runEmpty liveDirectory = some m ∧
      ∃ c, m.calls.lookup 4 = some c ∧ c.pc.hit = some 1024 ∧ (m.store.db.get (.bd 1024)).isSome ∧
        ∃ job, m.jobs.lookup 1 = some job ∧ job.phase.scanned = true ∧ (m.store.gc.jobs.lookup 1).isSome := by
    decide +kernel
  obtain ⟨hash, data, dir, dirs, rfl⟩ := Pc.eq_of_hit hhit
  obtain ⟨js, hjs⟩ := Option.isSome_iff_exists.1 hjs
  have hagree : emptyFolder.numbersAgree := by rintro p ⟨⟩
  obtain ⟨-, hknown⟩ := dedup_hit_known firstEpoch ⟨rfl, rfl, rfl, hagree⟩ (by decide +kernel) hm
  exact ⟨m, job, js, hm, ⟨name, hash, data, dir, dirs, hc⟩, hj, hscan, hjs,
    (hknown 4 name hash data dir 1024 dirs hc hrow 1 job js hj hscan hjs).1⟩

end Bepository.Storage
