import Bepository.Storage.Api
import Bepository.Storage.Delta

/-!
# Pruned deletions

A compaction prunes a committed deletion whose sequence number is below the peer floor, the least
`max_sequence` of the known devices.  That number is the last one of the *device's* index, and it is
compared with a number of the folder's own index.  `deletion_known` says what the floor would have to
mean: if a deletion gets below the number of a device only when the device knows it, then a deletion
is pruned only when every known device knows it.  `forgottenDeletion` is a run with the numbers as
they are.
-/

namespace Bepository.Storage

open Lib List Table

/-! ### Versions that a device knows -/

def olderVersion : Option VersionVector → Option VersionVector → Bool
  | some v, some w => compareVersions v w = .ok .less
  | _, _ => false

def atLeastVersion (x y : Option VersionVector) : Bool :=
  x = y || match x, y with
    | some v, some w => compareVersions v w = .ok .greater || compareVersions v w = .ok .equal
    | _, _ => false

lemma olderVersion_trans {x y z : Option VersionVector} (h : olderVersion x y = true)
    (h' : atLeastVersion z y = true) : olderVersion x z = true := by
  by_cases hzy : z = y
  · rwa [hzy]
  cases x with
  | none => cases h
  | some =>
    cases y with
    | none => cases h
    | some v =>
      cases z with
      | none => simp [atLeastVersion] at h'
      | some w =>
        have hne : w ≠ v := fun he => hzy (by rw [he])
        simp only [olderVersion, atLeastVersion, decide_eq_true_eq, Bool.or_eq_true,
          Option.some.injEq, hne, false_or] at h h' ⊢
        obtain ⟨hu, -, huv⟩ := compareVersions_eq_ok.1 h
        rcases h' with h' | h'
        · obtain ⟨hw, -, hvw⟩ := compareVersions_eq_ok.1 h'
          exact compareVersions_eq_ok.2 ⟨hu, hw, lt_trans huv hvw⟩
        · obtain ⟨hw, -, hvw⟩ := compareVersions_eq_ok.1 h'
          exact compareVersions_eq_ok.2 ⟨hu, hw, lt_of_lt_of_eq huv (Eq.symm hvw)⟩

/-- A device was sent this version of the file at the path, or announced it. -/
structure Sighting where
  device : Bytes32
  path : Path
  version : Option VersionVector
  deriving DecidableEq

def knowsVersion (known : List Sighting) (d : Bytes32) (path : Path) (version : Option VersionVector) : Bool :=
  known.any fun k => k.device = d && k.path = path && atLeastVersion k.version version

lemma knowsVersion_mono {known known' : List Sighting} {d : Bytes32} {path : Path}
    {version : Option VersionVector} (hsub : known ⊆ known')
    (h : knowsVersion known d path version = true) : knowsVersion known' d path version = true := by
  unfold knowsVersion at h ⊢
  rw [any_eq_true] at h ⊢
  obtain ⟨k, hk, hp⟩ := h
  exact ⟨k, hsub hk, hp⟩

/-! ### The exchange of indexes -/

/-- A folder that exchanges indexes with devices.  `known` only remembers. -/
structure Exchange where
  folder : Machine
  known : List Sighting

inductive ExchangeAct where
  | folder (a : Act)
  | announce (t : ℕ) (d : Bytes32) (file : WireFile)
  | index (d : Bytes32) (since : ℤ)
  | indexUpdate (d : Bytes32) (file : WireFile)

/-- The call that `apply_update` goes on to; a conflict is left to its caller. -/
def updateOp (db : Db) (file : WireFile) : Option Op :=
  match checkUpdate file with
  | .error _ => none
  | .ok () =>
    match readUpdate db file with
    | .ok .stage => some (.stageFile file)
    | .ok .commit => some (.putFile file)
    | _ => none

/-- `SlateFolder::index`. -/
def indexSince (db : Db) (since : ℤ) : Except StorageError (List WireFile) :=
  if since = 0 then allFiles db else filesSince db since

def sightingOf (d : Bytes32) (file : WireFile) : Sighting := ⟨d, splitName file.name, file.version⟩

namespace Exchange

section Step

variable (bl : Blooms) (epoch : Epoch)

/-- A device lists a file in its Index and `apply_update` is called, an Index is sent to a device, or
the folder takes a step of its own. -/
def step (s : Exchange) : ExchangeAct → Option Exchange
  | .folder a => (s.folder.step bl epoch a).map fun m => { s with folder := m }
  | .announce t d file =>
    match updateOp s.folder.store.db file with
    | none => some { s with known := sightingOf d file :: s.known }
    | some op => (s.folder.step bl epoch (.start t op)).map fun m =>
        ⟨m, sightingOf d file :: s.known⟩
  | .index d since =>
    match indexSince s.folder.store.db since with
    | .error _ => some s
    | .ok files => some { s with known := files.map (sightingOf d) ++ s.known }
  | .indexUpdate d file => some { s with known := sightingOf d file :: s.known }

end Step

end Exchange

/-- The entry that a call has read from the index and will write back. -/
def Pc.heldEntry : Pc → Option (Path × StoredFile)
  | .wait pc => pc.heldEntry
  | .write _ _ (fi, .mn path) => some (path, fi)
  | _ => none

/-- The committed entries, and those that a call in flight will write back. -/
def Machine.held (m : Machine) : List (Path × StoredFile) :=
  m.store.db.committed ++ m.calls.entries.filterMap fun c => c.2.pc.heldEntry

section Held

variable {db : Db} {m : Machine} {path : Path} {fi : StoredFile}

lemma mem_held : (path, fi) ∈ m.held ↔ m.store.db.get (.mn path) = some (.file (some fi)) ∨
    ∃ t c, m.calls.lookup t = some c ∧ c.pc.heldEntry = some (path, fi) := by
  unfold Machine.held
  rw [mem_append, mem_committed, mem_filterMap]
  refine or_congr_right ⟨?_, ?_⟩
  · rintro ⟨⟨t, c⟩, hc, he⟩
    exact ⟨t, c, AList.mem_lookup_iff.2 hc, he⟩
  · rintro ⟨t, c, hc, he⟩
    exact ⟨⟨t, c⟩, AList.mem_lookup_iff.1 hc, he⟩

end Held

def JobPhase.peerFloor : JobPhase → Option ℤ
  | .filtering floor _ _ => floor
  | _ => none

/-- A sequence number below that of a device, or below the floor of a compaction that runs. -/
def Machine.passed (m : Machine) (state : RemoteIndexState) (sequence : ℤ) : Bool :=
  sequence < state.maxSequence ||
    m.jobs.entries.any fun j => j.2.phase.peerFloor.any (sequence < ·)

/-- If the entry is a deletion with such a number, then the device knows it. -/
def Exchange.settles (s : Exchange) (d : Bytes32) (state : RemoteIndexState) (path : Path)
    (fi : StoredFile) : Bool :=
  !(fi.deleted && s.folder.passed state fi.sequence) || knowsVersion s.known d path fi.version

/-- The condition on `set_remote_state` and on a commit: no deletion gets below the number of a device
that does not know it, neither when the number is recorded nor when the deletion is committed. -/
def acknowledges (s : Exchange) : ExchangeAct → Bool
  | .folder (.setRemote d state) => s.folder.held.all fun e => s.settles d state e.1 e.2
  | .folder (.next t) =>
    match s.folder.calls.lookup t with
    | some ⟨name, .commitWrite stored _ _⟩ => s.folder.store.db.rows.toList.all fun r =>
        match r.1, r.2.val with
        | .md d, .remote state => s.settles d state (splitName name)
            { stored with sequence := maxSeq s.folder.store.db + 1 }
        | _, _ => true
    | _ => true
  | _ => true

/-- The condition on a device that lists a file: it knows no newer version. -/
def neverBack (s : Exchange) (d : Bytes32) (file : WireFile) : Bool :=
  s.known.all fun k =>
    !(k.device = d && k.path = splitName file.name && olderVersion file.version k.version)

section Settles

variable {s : Exchange} {m : Machine} {d : Bytes32} {state : RemoteIndexState} {path : Path}
  {fi : StoredFile} {q : ℤ}

lemma passed_iff : m.passed state q = true ↔ q < state.maxSequence ∨
    ∃ j job floor, m.jobs.lookup j = some job ∧ job.phase.peerFloor = some floor ∧ q < floor := by
  unfold Machine.passed
  rw [Bool.or_eq_true, decide_eq_true_eq, any_eq_true]
  refine or_congr_right ⟨?_, ?_⟩
  · rintro ⟨⟨j, job⟩, hj, h⟩
    obtain ⟨floor, hf, hq⟩ := (Option.any_eq_true _ _).1 h
    exact ⟨j, job, floor, AList.mem_lookup_iff.2 hj, hf, of_decide_eq_true hq⟩
  · rintro ⟨j, job, floor, hj, hf, hq⟩
    exact ⟨⟨j, job⟩, AList.mem_lookup_iff.1 hj, (Option.any_eq_true _ _).2 ⟨floor, hf, decide_eq_true hq⟩⟩

lemma settles_iff : s.settles d state path fi = true ↔ (fi.deleted = true →
    s.folder.passed state fi.sequence = true → knowsVersion s.known d path fi.version = true) := by
  unfold Exchange.settles
  rw [Bool.or_eq_true, Bool.not_eq_true', Bool.and_eq_false_iff]
  by_cases hdel : fi.deleted = true <;> by_cases hq : s.folder.passed state fi.sequence = true <;>
    simp [hdel, hq]

/-- At the write of a commit, the condition is about the entry that it writes. -/
lemma settles_of_acknowledges {t : ℕ} {name : Str} {stored : StoredFile} {batch : WriteBatch}
    {carried : List (Bytes32 × ℕ)} (hg : acknowledges s (.folder (.next t)) = true)
    (hc : s.folder.calls.lookup t = some ⟨name, .commitWrite stored batch carried⟩)
    (hd : s.folder.store.db.get (.md d) = some (.remote state)) : s.settles d state (splitName name)
      { stored with sequence := maxSeq s.folder.store.db + 1 } = true := by
  obtain ⟨r, hr, hv⟩ := Db.get_eq_some.1 hd
  simp only [acknowledges, hc] at hg
  have h := all_eq_true.1 hg (.md d, r) (Table.mem_toList.2 hr)
  simpa only [hv] using h

end Settles

/-! ### Numbers through a step of a call -/

def Counted (db : Db) : Prop :=
  (∃ m, getIndexMeta db = .ok m) ∧ 0 ≤ maxSeq db ∧ maxSeq db ≤ i64Max

section Calls

variable {epoch : Epoch} {db db' : Db} {name : Str} {pc : Pc} {st st' : Store} {aft : After}
  {path : Path} {fi : StoredFile}

lemma Counted.of_get (h : Counted db) (hmx : db'.get .mx = db.get .mx) : Counted db' := by
  have hmeta : getIndexMeta db' = getIndexMeta db := by
    unfold getIndexMeta
    rw [hmx]
  unfold Counted maxSeq at h ⊢
  rwa [hmeta]

lemma bookkeeping_ne_md {op : BatchOp} {d : Bytes32} (h : op.bookkeeping = true) : op.key ≠ .md d := by
  intro hk
  cases op with
  | put k | delete k => cases (show k = .md d from hk); cases h

/-- **The counter** stays one, and no call writes the state of a device. -/
theorem Pc.Steps.counted (h : pc.Steps epoch name st st' aft) (hf : pc.Formed epoch)
    (hc : Counted st.db) : Counted st'.db ∧ ∀ d, st'.db.get (.md d) = st.db.get (.md d) := by
  cases h with
  | @commitWrite _ _ _ db _ hw =>
    obtain ⟨hle, -, m, hm, hdb⟩ := commitWrite_spec hw hc.2.2
    have hmx : db.get .mx = some (.indexMeta m) := by
      rw [hdb]
      exact commit_get_mx
    obtain ⟨hmeta, hmax⟩ := maxSeq_of_get hmx
    have h0 := hc.2.1
    refine ⟨⟨⟨m, hmeta⟩, by dsimp only; omega, by dsimp only; omega⟩, fun d => ?_⟩
    dsimp only
    rw [hdb]
    refine Db.get_write_of_forall_ne fun op hop => ?_
    rcases mem_append.1 hop with hop | hop
    · exact bookkeeping_ne_md (hf op hop)
    · simp only [mem_cons, not_mem_nil, or_false] at hop
      rcases hop with rfl | rfl | rfl <;> rintro ⟨⟩
  | @stagePut file =>
    have hother : ∀ k, (∀ e p, k ≠ .mi e p) → (stageFile st.db epoch file).get k = st.db.get k := by
      intro k hk
      exact Db.get_write_single (fun he => hk _ _ he.symm)
    exact ⟨hc.of_get (hother .mx (by rintro _ _ ⟨⟩)), fun d => hother _ (by rintro _ _ ⟨⟩)⟩
  | allocate ha =>
    obtain ⟨hmax, hmeta⟩ := allocate_maxSeq ha
    refine ⟨⟨hmeta hc.1, ?_⟩, fun d => allocate_get ha (by rintro ⟨⟩)⟩
    dsimp only
    rw [hmax]
    exact hc.2
  | write hl =>
    rw [linkBatch_eq_ok hl]
    exact ⟨hc.of_get (get_write_link hf (.inl rfl)), fun d => get_write_link hf (.inr (.inl ⟨d, rfl⟩))⟩
  | _ => exact ⟨hc, fun _ => rfl⟩

def Continues (old : Path → StoredFile → Prop) (path : Path) (fi : StoredFile) : Prop :=
  ∃ fi₀, old path fi₀ ∧ fi₀.version = fi.version ∧ fi₀.sequence = fi.sequence ∧ fi₀.deleted = fi.deleted

/-- The entry that the write of a commit puts under the path. -/
def Commits (db : Db) (name : Str) (pc : Pc) (path : Path) (fi : StoredFile) : Prop :=
  ∃ stored batch carried, pc = .commitWrite stored batch carried ∧ path = splitName name ∧
    fi = { stored with sequence := maxSeq db + 1 }

def HeldBy (db : Db) (pc : Pc) (path : Path) (fi : StoredFile) : Prop :=
  db.get (.mn path) = some (.file (some fi)) ∨ pc.heldEntry = some (path, fi)

def After.heldEntry : After → Option (Path × StoredFile)
  | .go pc => pc.heldEntry
  | .done _ => none

lemma Continues.refl (h : HeldBy db pc path fi) : Continues (HeldBy db pc) path fi :=
  ⟨fi, h, rfl, rfl, rfl⟩

@[simp] lemma heldEntry_recordNext (recs : List (Bytes32 × ℕ)) : (recordNext recs).heldEntry = none := by
  cases recs <;> rfl

/-- **Committed entries.**  After a step, an entry that is committed or will be written back has the
version and the number of one from before, or a commit writes it with the next number. -/
theorem Pc.Steps.held (h : pc.Steps epoch name st st' aft) (hf : pc.Formed epoch) (hc : Counted st.db)
    (hfi : st'.db.get (.mn path) = some (.file (some fi)) ∨ aft.heldEntry = some (path, fi)) :
    Continues (HeldBy st.db pc) path fi ∨ Commits st.db name pc path fi := by
  have hsame : st'.db.get (.mn path) = st.db.get (.mn path) → aft.heldEntry = none →
      Continues (HeldBy st.db pc) path fi ∨ Commits st.db name pc path fi := by
    intro hdb hnone
    rcases hfi with hfi | hfi
    · rw [hdb] at hfi
      exact .inl (Continues.refl (.inl hfi))
    · rw [hnone] at hfi
      cases hfi
  cases h with
  | stop | readSource | commitRead | readInbox | readCommitted | pointer | hit | toMain => exact hsame rfl rfl
  | waiting =>
    rcases hfi with hfi | hfi
    · exact .inl (Continues.refl (.inl hfi))
    · exact .inl (Continues.refl (.inr hfi))
  | @commitWrite stored batch carried _ _ hw =>
    obtain ⟨hle, rfl, m, hm, hdb⟩ := commitWrite_spec hw hc.2.2
    rw [heldEntry_recordNext] at hfi
    rcases hfi with hfi | hfi
    · dsimp only at hfi
      rw [hdb, commit_get_mn hf] at hfi
      split_ifs at hfi with hp
      · cases hfi
        exact .inr ⟨stored, batch, carried, rfl, hp, rfl⟩
      · exact .inl (Continues.refl (.inl hfi))
    · cases hfi
  | stagePut =>
    exact hsame (Db.get_write_single (by rintro ⟨⟩)) rfl
  | search _ h' => exact hsame rfl (by cases h' <;> rfl)
  | allocate ha =>
    exact hsame (allocate_get ha (by rintro ⟨⟩)) rfl
  | @inboxEntry _ _ entry he =>
    refine hsame rfl ?_
    obtain ⟨fi', k⟩ := entry
    rw [show k = inboxKey epoch name from (findInboxEntry_eq_some he).1]
    rfl
  | @mainEntry _ _ entry he =>
    obtain ⟨fi', k⟩ := entry
    obtain ⟨hk, hget⟩ := findMainEntry_eq_ok he
    dsimp only at hk
    subst hk
    rcases hfi with hfi | hfi
    · exact .inl (Continues.refl (.inl hfi))
    · cases hfi
      exact .inl (Continues.refl (.inl hget))
  | @write _ _ entry _ hl =>
    obtain ⟨fi', k⟩ := entry
    rw [linkBatch_eq_ok hl, heldEntry_recordNext] at hfi
    rcases hfi with hfi | hfi
    · rcases Db.get_write_eq_some hfi with hput | ⟨-, hold⟩
      · rcases mem_append.1 hput with hput | hput
        · rcases mem_linkRows hput with h | ⟨seq, -, h⟩ | ⟨seq, data, -, h⟩ <;> cases h
        · have hput := BatchOp.put.inj (mem_singleton.1 hput)
          obtain ⟨hk, hv⟩ := hput
          dsimp only at hk
          subst hk
          cases hv
          -- the entry that is written back, with one more pointer
          exact .inl ⟨fi', .inr rfl, rfl, rfl, rfl⟩
      · exact .inl (Continues.refl (.inl hold))
    · cases hfi
  | @record _ _ recs => exact hsame rfl (heldEntry_recordNext recs)

end Calls

/-! ### The peer floor -/

lemma minSequence_le {vs : List Value} {low : ℤ} (h : minSequence vs = .ok (some low)) :
    ∀ st, .remote st ∈ vs → low ≤ st.maxSequence := by
  induction vs generalizing low with
  | nil => cases h
  | cons v vs ih =>
    cases v with
    | remote =>
      obtain ⟨rest, hrest, hlow⟩ := map_eq_ok.1 h
      intro st hst
      cases rest with
      | none =>
        -- nothing else was found
        cases hlow
        rcases mem_cons.1 hst with he | hst
        · cases he
          exact le_rfl
        · exfalso
          cases vs with
          | nil => cases hst
          | cons v' =>
            cases v' with
            | remote =>
              obtain ⟨rest', -, he⟩ := map_eq_ok.1 hrest
              cases rest' <;> cases he
            | _ => cases hrest
      | some =>
        cases hlow
        rcases mem_cons.1 hst with he | hst
        · cases he
          exact min_le_left _ _
        · exact (min_le_right _ _).trans (ih hrest st hst)
    | _ => cases h

lemma peerFloor_le {db : Db} {floor : ℤ} {d : Bytes32} {st : RemoteIndexState}
    (h : computePeerFloor db = .ok (some floor)) (hd : db.get (.md d) = some (.remote st)) :
    floor ≤ st.maxSequence := by
  obtain ⟨low, hlow, he⟩ := map_eq_ok.1 h
  obtain ⟨rfl, -⟩ := Option.filter_eq_some_iff.1 he
  obtain ⟨r, hr, hv⟩ := Db.get_eq_some.1 hd
  refine minSequence_le hlow st (mem_map.2 ⟨(.md d, r), Db.mem_scanPrefix.2 ⟨hr, ?_⟩, hv⟩)
  exact ⟨_, rfl⟩

/-- A row that the filter decides against: no counter, no device, and of the committed entries only
deletions below the floor. -/
def PrunedDeletion (floor : Option ℤ) (r : Key × Row) : Prop :=
  match r.1 with
  | .mn _ => ∀ fi, r.2.val = .file (some fi) → fi.deleted = true ∧ ∃ f, floor = some f ∧ fi.sequence < f
  | .mx => False
  | .md _ => False
  | _ => True

lemma prunedDeletion_of_filter {bl : Blooms} {gc : CompactionState} {f : GcFilter} {r : Key × Row}
    {d : Decision} (h : GcFilter.filter bl gc f r.1 r.2.val = .ok d) (hd : d ≠ .keep) :
    PrunedDeletion f.peerFloor r := by
  obtain ⟨k, row⟩ := r
  unfold PrunedDeletion
  cases k with
  | mn => exact fun fi hfi => deletion_of_filter (hfi ▸ h) hd
  | mx | md => cases h; exact absurd rfl hd
  | _ => trivial

/-! ### The invariant -/

/-- What a job has decided against. -/
def JobPhase.Prunes : JobPhase → Prop
  | .filtering floor _ pruned => ∀ r ∈ pruned, PrunedDeletion floor r
  | _ => True

/-- A floor that a compaction runs with, or one below the numbers of all devices. -/
def Machine.Floor (m : Machine) (floor : ℤ) : Prop :=
  (∃ j job, m.jobs.lookup j = some job ∧ job.phase.peerFloor = some floor) ∨
    ∀ d state, m.store.db.get (.md d) = some (.remote state) → floor ≤ state.maxSequence

def JobPhase.Follows (m : Machine) (phase : JobPhase) : Prop :=
  phase.Prunes ∧ ∀ floor, phase.peerFloor = some floor → m.Floor floor

structure Acked (epoch : Epoch) (s : Exchange) : Prop where
  formed : ∀ t c, s.folder.calls.lookup t = some c → c.pc.Formed epoch
  counted : Counted s.folder.store.db
  settled : ∀ d state, s.folder.store.db.get (.md d) = some (.remote state) →
    ∀ path fi, (path, fi) ∈ s.folder.held → s.settles d state path fi = true
  jobs : ∀ j job, s.folder.jobs.lookup j = some job → job.phase.Prunes

section Steps

variable {bl : Blooms} {epoch : Epoch} {s s' : Exchange} {m m' : Machine} {t : ℕ}

lemma Acked.follows (h : Acked epoch s) (j : ℕ) (job : Job) (hj : s.folder.jobs.lookup j = some job) :
    job.phase.Follows s.folder :=
  ⟨h.jobs j job hj, fun _ hf => .inl ⟨j, job, hj, hf⟩⟩

lemma follows_of_peerFloor_eq_none {phase : JobPhase} (h : phase.Prunes) (hf : phase.peerFloor = none) :
    phase.Follows m := by
  refine ⟨h, fun floor he => ?_⟩
  rw [hf] at he
  cases he

lemma Acked.learn (h : Acked epoch s) {known : List Sighting} (hsub : s.known ⊆ known) :
    Acked epoch { s with known := known } := by
  refine ⟨h.formed, h.counted, fun d state hd path fi hfi => settles_iff.2 fun hdel hq => ?_, h.jobs⟩
  exact knowsVersion_mono hsub (settles_iff.1 (h.settled d state hd path fi hfi) hdel hq)

/-- A step that leaves the devices as they are: its entries are old ones or settled, and its floors
are old ones or below the numbers of the devices. -/
lemma Acked.folder (h : Acked epoch s) (hformed : ∀ t c, m'.calls.lookup t = some c → c.pc.Formed epoch)
    (hcounted : Counted m'.store.db) (hmd : ∀ d, m'.store.db.get (.md d) = s.folder.store.db.get (.md d))
    (hheld : ∀ path fi, (path, fi) ∈ m'.held → Continues (fun p f => (p, f) ∈ s.folder.held) path fi ∨
        ∀ d state, s.folder.store.db.get (.md d) = some (.remote state) → s.settles d state path fi = true)
    (hjobs : ∀ j job, m'.jobs.lookup j = some job → job.phase.Follows s.folder) :
    Acked epoch { s with folder := m' } := by
  refine ⟨hformed, hcounted, fun d state hd path fi hfi => settles_iff.2 fun hdel hq => ?_,
    fun j job hj => (hjobs j job hj).1⟩
  rw [hmd] at hd
  have hpassed : s.folder.passed state fi.sequence = true := by
    refine passed_iff.2 ?_
    rcases passed_iff.1 hq with hq | ⟨j, job, floor, hj, hf, hlt⟩
    · exact .inl hq
    · rcases (hjobs j job hj).2 floor hf with ⟨j', job', hj', hf'⟩ | hall
      · exact .inr ⟨j', job', floor, hj', hf', hlt⟩
      · exact .inl (hlt.trans_le (hall d state hd))
  rcases hheld path fi hfi with ⟨fi₀, hfi₀, hver, hseq, hdel₀⟩ | hnew
  · have hknows := settles_iff.1 (h.settled d state hd path fi₀ hfi₀) (hdel₀.trans hdel) (by rwa [hseq])
    rwa [hver] at hknows
  · have hknows := settles_iff.1 (hnew d state hd) hdel hpassed
    exact hknows

/-- **A step of a call.** -/
lemma Acked.call (h : Acked epoch s) {name : Str} {pc : Pc} {st : Store} {aft : After}
    (hg : acknowledges s (.folder (.next t)) = true) (hc : s.folder.calls.lookup t = some ⟨name, pc⟩)
    (hs : pc.Steps epoch name s.folder.store st aft) :
    Acked epoch { s with folder := s.folder.after t name (st, aft) } := by
  have hf : pc.Formed epoch := h.formed t _ hc
  obtain ⟨hcounted, hmd⟩ := hs.counted hf h.counted
  refine h.folder (fun t' c' hc' => ?_) ?_ ?_ (fun path fi hfi => ?_) ?_
  · rcases Machine.lookup_after hc' with ⟨-, rfl, -⟩ | ⟨-, hc'⟩
    · exact hs.formed hf
    · exact h.formed t' c' hc'
  · rwa [Machine.after_store]
  · rwa [Machine.after_store]
  · -- an entry of another call in flight is held as before
    have hcases : (st.db.get (.mn path) = some (.file (some fi)) ∨ aft.heldEntry = some (path, fi)) ∨
        (path, fi) ∈ s.folder.held := by
      rw [mem_held, Machine.after_store] at hfi
      rcases hfi with hfi | ⟨t', c', hc', he⟩
      · exact .inl (.inl hfi)
      · rcases Machine.lookup_after hc' with ⟨-, rfl, -⟩ | ⟨-, hc'⟩
        · exact .inl (.inr he)
        · exact .inr (mem_held.2 (.inr ⟨t', c', hc', he⟩))
    rcases hcases with hfi | hfi
    · rcases hs.held hf h.counted hfi with ⟨fi₀, hfi₀, hsame⟩ | ⟨stored, batch, carried, rfl, rfl, rfl⟩
      · refine .inl ⟨fi₀, ?_, hsame⟩
        rcases hfi₀ with hfi₀ | hfi₀
        · exact mem_held.2 (.inl hfi₀)
        · exact mem_held.2 (.inr ⟨t, _, hc, hfi₀⟩)
      · exact .inr fun d state hd => settles_of_acknowledges hg hc hd
    · exact .inl ⟨fi, hfi, rfl, rfl, rfl⟩
  · rw [Machine.after_jobs]
    exact h.follows

lemma Acked.insert_call (h : Acked epoch s) {c : Call} (hf : c.pc.Formed epoch)
    (he : ∀ path fi, c.pc.heldEntry = some (path, fi) → (path, fi) ∈ s.folder.held) :
    Acked epoch { s with folder := { s.folder with calls := s.folder.calls.insert t c } } := by
  refine h.folder (forall_insert h.formed hf) h.counted (fun _ => rfl)
    (fun path fi hfi => .inl ⟨fi, ?_, rfl, rfl, rfl⟩) h.follows
  rcases mem_held.1 hfi with hfi | ⟨t', c', hc', hheld⟩
  · exact mem_held.2 (.inl hfi)
  · rw [lookup_insert'] at hc'
    split_ifs at hc'
    · cases hc'
      exact he path fi hheld
    · exact mem_held.2 (.inr ⟨t', c', hc', hheld⟩)

lemma start_heldEntry {op : Op} {c : Call} (h : op.start = some c) : c.pc.heldEntry = none := by
  cases op with
  | storeBlock name hash =>
    obtain ⟨hash, -, rfl⟩ := Option.map_eq_some_iff.1 h
    split <;> rfl
  | reuseBlock =>
    obtain ⟨hash, -, rfl⟩ := Option.map_eq_some_iff.1 h
    rfl
  | _ => cases h; rfl

/-- **`set_remote_state`** for a device that knows the deletions below its number. -/
lemma Acked.setRemote (h : Acked epoch s) {d : Bytes32} {state : RemoteIndexState}
    (hg : acknowledges s (.folder (.setRemote d state)) = true) :
    Acked epoch { s with folder := { s.folder with store := { s.folder.store with
      db := s.folder.store.db.write [.put (.md d) (.remote state)] } } } := by
  have hother : ∀ k, k ≠ .md d →
      (s.folder.store.db.write [.put (.md d) (.remote state)]).get k = s.folder.store.db.get k := by
    intro k hk
    exact Db.get_write_single hk.symm
  refine ⟨h.formed, h.counted.of_get (hother .mx (by rintro ⟨⟩)),
    fun d' st hst path fi hfi => ?_, h.jobs⟩
  have hheld : (path, fi) ∈ s.folder.held := by
    rw [mem_held] at hfi ⊢
    rw [← hother (.mn path) (by rintro ⟨⟩)]
    exact hfi
  by_cases hd : d' = d
  · subst hd
    have hself : (s.folder.store.db.write [.put (.md d') (.remote state)]).get (.md d') =
        some (.remote state) := by
      rw [Db.get_write]
      simp [lastOp, BatchOp.key]
    rw [hself] at hst
    cases hst
    exact all_eq_true.1 hg (path, fi) hheld
  · rw [hother _ (by intro he; cases he; exact hd rfl)] at hst
    exact h.settled d' st hst path fi hheld

/-- **The end of a compaction** that decided against deletions below its floor. -/
lemma Acked.prune (h : Acked epoch s) (floor : Option ℤ) {pruned : List (Key × Row)}
    (hp : ∀ r ∈ pruned, PrunedDeletion floor r) (hc : m'.calls = s.folder.calls)
    (hdb : m'.store.db = s.folder.store.db.prune pruned)
    (hjobs : ∀ j job, m'.jobs.lookup j = some job → job.phase.Follows s.folder) :
    Acked epoch { s with folder := m' } := by
  have hkeep : ∀ k, (k = .mx ∨ ∃ d, k = .md d) →
      (s.folder.store.db.prune pruned).get k = s.folder.store.db.get k := by
    intro k hk
    refine get_prune_of_forall_ne fun r hr hkey => ?_
    have hr' := hp r hr
    unfold PrunedDeletion at hr'
    rcases hk with rfl | ⟨d, rfl⟩ <;> rw [hkey] at hr' <;> exact hr'
  refine h.folder ?_ ?_ ?_ ?_ hjobs
  · rw [hc]
    exact h.formed
  · rw [hdb]
    exact h.counted.of_get (hkeep .mx (.inl rfl))
  · intro d
    rw [hdb]
    exact hkeep _ (.inr ⟨d, rfl⟩)
  · intro path fi hfi
    refine .inl ⟨fi, ?_, rfl, rfl, rfl⟩
    rw [mem_held, hdb, hc] at hfi
    rcases hfi with hfi | hfi
    · exact mem_held.2 (.inl (get_of_prune hfi))
    · exact mem_held.2 (.inr hfi)

lemma Acked.of_jobs (h : Acked epoch s) (hc : m'.calls = s.folder.calls) (hdb : m'.store.db = s.folder.store.db)
    (hjobs : ∀ j job, m'.jobs.lookup j = some job → job.phase.Follows s.folder) :
    Acked epoch { s with folder := m' } := by
  have hnone : m'.store.db = s.folder.store.db.prune [] := hdb
  exact h.prune none (by rintro _ ⟨⟩) hc hnone hjobs

lemma Acked.folder_step (h : Acked epoch s) {a : Act} (hs : s.folder.step bl epoch a = some m')
    (hg : acknowledges s (.folder a) = true) : Acked epoch { s with folder := m' } := by
  have hphase : ∀ (j : ℕ) (job : Job) (phase : JobPhase), phase.Follows s.folder →
      ∀ j' job', (s.folder.setPhase j job phase).jobs.lookup j' = some job' → job'.phase.Follows s.folder :=
    fun _ _ _ hp => forall_insert h.follows hp
  have herase : ∀ j j' job', (s.folder.jobs.erase j).lookup j' = some job' → job'.phase.Follows s.folder :=
    forall_erase h.follows
  cases Machine.step_moves hs with
  | refused => exact h
  | start _ hop =>
    refine h.insert_call (start_formed epoch hop).1 fun path fi he => ?_
    rw [start_heldEntry hop] at he
    cases he
  | @lock t _ pc hc =>
    have hf : (Pc.wait pc).Formed epoch := h.formed t _ hc
    exact h.insert_call hf fun path fi he => mem_held.2 (.inr ⟨t, _, hc, he⟩)
  | call hc _ hst => exact h.call hg hc hst
  | setRemote => exact h.setRemote hg
  | register =>
    exact h.of_jobs rfl rfl (forall_insert h.follows (follows_of_peerFloor_eq_none trivial rfl))
  | @snapshot j job | @scan j job =>
    exact h.of_jobs rfl rfl (hphase j job _ (follows_of_peerFloor_eq_none trivial rfl))
  | @floor j job _ hj hp hf =>
    refine h.of_jobs rfl rfl (hphase j job _ ⟨(by rintro _ ⟨⟩), ?_⟩)
    rintro f rfl
    exact .inr fun d state hd => peerFloor_le hf hd
  | @keep j job _ _ _ _ hj hp =>
    have hb := h.follows j job hj
    rw [hp] at hb
    exact h.of_jobs rfl rfl (hphase j job _ hb)
  | @prune j job _ _ _ _ _ hj hp hd hf =>
    have hb := h.follows j job hj
    rw [hp] at hb
    refine h.of_jobs rfl rfl (hphase j job _ ⟨fun r' hr' => ?_, hb.2⟩)
    rcases mem_cons.1 hr' with rfl | hr'
    · exact prunedDeletion_of_filter hf hd
    · exact hb.1 r' hr'
  | @commit j job _ _ hj hp =>
    have hb := h.jobs j job hj
    rw [hp] at hb
    exact h.prune _ hb rfl rfl (herase j)
  | @drop _ j => exact h.of_jobs rfl rfl (herase j)

/-- What a device knows, it knows after every step. -/
lemma known_subset {a : ExchangeAct} (hs : s.step bl epoch a = some s') : s.known ⊆ s'.known := by
  cases a with
  | folder =>
    obtain ⟨m', -, rfl⟩ := Option.map_eq_some_iff.1 hs
    exact fun _ hk => hk
  | announce =>
    simp only [Exchange.step] at hs
    split at hs
    · cases hs
      exact subset_cons_self _ _
    · obtain ⟨m', -, rfl⟩ := Option.map_eq_some_iff.1 hs
      exact subset_cons_self _ _
  | index =>
    simp only [Exchange.step] at hs
    split at hs <;> cases hs
    · exact fun _ hk => hk
    · exact subset_append_right _ _
  | indexUpdate =>
    cases hs
    exact subset_cons_self _ _

theorem acked_step {a : ExchangeAct} (h : Acked epoch s) (hg : acknowledges s a = true)
    (hs : s.step bl epoch a = some s') : Acked epoch s' := by
  cases a with
  | folder =>
    obtain ⟨m', hm', rfl⟩ := Option.map_eq_some_iff.1 hs
    exact h.folder_step hm' hg
  | announce =>
    simp only [Exchange.step] at hs
    split at hs
    · cases hs
      exact h.learn (subset_cons_self _ _)
    · next op hop =>
      obtain ⟨m', hm', rfl⟩ := Option.map_eq_some_iff.1 hs
      exact (h.folder_step hm' rfl).learn (subset_cons_self _ _)
  | index =>
    simp only [Exchange.step] at hs
    split at hs <;> cases hs
    · exact h
    · exact h.learn (subset_append_right _ _)
  | indexUpdate =>
    cases hs
    exact h.learn (subset_cons_self _ _)

end Steps

/-! ### Runs -/

/-- A folder that no device is known to, with nothing in flight. -/
structure Exchange.Initial (s : Exchange) : Prop where
  calls : s.folder.calls = ∅
  jobs : s.folder.jobs = ∅
  counted : Counted s.folder.store.db
  devices : ∀ d, s.folder.store.db.get (.md d) = none

lemma Exchange.Initial.acked {epoch : Epoch} {s : Exchange} (h : s.Initial) : Acked epoch s := by
  refine ⟨?_, h.counted, ?_, ?_⟩
  · rw [h.calls]
    simp
  · intro d state hd
    rw [h.devices] at hd
    cases hd
  · rw [h.jobs]
    simp

lemma not_older_of_neverBack {s : Exchange} {d : Bytes32} {file : WireFile} {version : Option VersionVector}
    (hb : neverBack s d file = true) (hk : knowsVersion s.known d (splitName file.name) version = true) :
    olderVersion file.version version = false := by
  obtain ⟨k, hk, hkp⟩ := any_eq_true.1 hk
  simp only [Bool.and_eq_true, decide_eq_true_eq] at hkp
  obtain ⟨⟨hkd, hkpath⟩, hat⟩ := hkp
  by_contra hold
  rw [Bool.not_eq_false] at hold
  have := all_eq_true.1 hb k hk
  simp [hkd, hkpath, olderVersion_trans hold hat] at this

/-- **Pruned deletions stay deleted.**  In a run that meets the condition, a compaction decides
against a committed entry only if it is a deletion that every known device was sent or announced, in
that version or a newer one; whatever happens then, a device that does not go back on what it knows
never lists an older version of the file. -/
theorem deletion_known {bl : Blooms} {epoch : Epoch} {s s₁ : Exchange} {acts : List ExchangeAct}
    (h0 : s.Initial) (hm : Meets (Exchange.step bl epoch) (fun s a => acknowledges s a = true) s acts)
    (hr : run (Exchange.step bl epoch) s acts = some s₁) {j : ℕ} {job : Job} {path : Path} {r : Row}
    {fi : StoredFile} (hj : s₁.folder.jobs.lookup j = some job) (hp : (.mn path, r) ∈ job.phase.pruned)
    (hrow : s₁.folder.store.db.rows.lookup (.mn path) = some r) (hfi : r.val = .file (some fi)) :
    fi.deleted = true ∧ ∀ d st, s₁.folder.store.db.get (.md d) = some (.remote st) →
      knowsVersion s₁.known d path fi.version = true ∧
      ∀ later s₂ file, run (Exchange.step bl epoch) s₁ later = some s₂ →
        splitName file.name = path → neverBack s₂ d file = true →
        olderVersion file.version fi.version = false := by
  have hacked : Acked epoch s₁ :=
    run_inv (P := Acked epoch) (fun s a t hi hg hs => acked_step hi hg hs) h0.acked hm hr
  have hphase := hacked.jobs j job hj
  cases hph : job.phase with
  | filtering =>
    rw [hph] at hphase hp
    obtain ⟨hdel, f, rfl, hlt⟩ := hphase _ hp fi hfi
    refine ⟨hdel, fun d st hd => ?_⟩
    have hknows : knowsVersion s₁.known d path fi.version = true := by
      have hheld : (path, fi) ∈ s₁.folder.held := mem_held.2 (.inl (Db.get_eq_some.2 ⟨r, hrow, hfi⟩))
      refine settles_iff.1 (hacked.settled d st hd path fi hheld) hdel (passed_iff.2 (.inr ?_))
      exact ⟨j, job, f, hj, by rw [hph]; rfl, hlt⟩
    refine ⟨hknows, fun later s₂ file hr₂ hpath hback => ?_⟩
    subst hpath
    refine not_older_of_neverBack hback ?_
    exact run_keeps (P := fun s => knowsVersion s.known d (splitName file.name) fi.version = true)
      (fun s a t hk hs => knowsVersion_mono (known_subset hs) hk) hknows hr₂
  | _ =>
    rw [hph] at hp
    cases hp

/-! ### A deletion that a device has not heard of -/

/-- `f` as device 1 wrote it. -/
def liveFile : WireFile := ⟨['f'], 0, some ⟨[⟨1, 1⟩]⟩, 0, [], 0, false⟩

/-- `f` as device 2 deleted it. -/
def deletedFile : WireFile := ⟨['f'], 0, some ⟨[⟨1, 1⟩, ⟨2, 1⟩]⟩, 0, [], 0, true⟩

def announceLive (t : ℕ) : List ExchangeAct :=
  .announce t (device 1) liveFile :: [.next t, .next t].map .folder ++
    (wholeCall t (.completeFile ['f'] liveFile.version) 5).map .folder

def announceDeleted (t : ℕ) : List ExchangeAct :=
  .announce t (device 2) deletedFile :: [.next t, .next t, .next t].map .folder

/-- A compaction that looks at the entry of `f`. -/
def pruneEntry : List ExchangeAct :=
  [.register [fileKey ['f']] true, .snapshot 1, .scan 1, .floor 1, .decide 1].map .folder

def recordState (d : UInt8) (sequence : ℤ) : ExchangeAct :=
  .folder (.setRemote (device d) ⟨1, sequence⟩)

/-- Both devices have long indexes of their own, so their numbers are far above the two of this
folder. -/
def forgottenDeletion : List ExchangeAct :=
  announceLive 0 ++ [recordState 1 1000] ++ announceDeleted 1 ++ [recordState 2 2000] ++ pruneEntry

def emptyExchange : Exchange := ⟨emptyFolder, []⟩

/-- The job has decided against the committed deletion of `f`, with or without the knowledge of
device 1. -/
abbrev DecidedAgainst (known : Bool) (s : Exchange) : Prop :=
  ∃ job, s.folder.jobs.lookup 1 = some job ∧ ∃ r, s.folder.store.db.rows.lookup (fileKey ['f']) = some r ∧
    (fileKey ['f'], r) ∈ job.phase.pruned ∧ r.val = .file (some { deletedFile.toStored with sequence := 2 }) ∧
    (s.folder.store.db.get (.md (device 1))).isSome ∧
    knowsVersion s.known (device 1) (splitName ['f']) deletedFile.version = known

/-- The deletion is pruned though device 1 knows only the older version; when that device lists its
file again, `apply_update` takes it for a new one and it is back. -/
theorem deletion_forgotten :
    ∃ s₁ s₂ job r fi, run (Exchange.step exactFilters firstEpoch) emptyExchange forgottenDeletion = some s₁ ∧
      s₁.folder.jobs.lookup 1 = some job ∧ (fileKey ['f'], r) ∈ job.phase.pruned ∧
      s₁.folder.store.db.rows.lookup (fileKey ['f']) = some r ∧
      r.val = .file (some { deletedFile.toStored with sequence := 2 }) ∧
      (s₁.folder.store.db.get (.md (device 1))).isSome ∧
      knowsVersion s₁.known (device 1) (splitName ['f']) deletedFile.version = false ∧
      run (Exchange.step exactFilters firstEpoch) s₁ (.folder (.commit 1) :: announceLive 2) = some s₂ ∧
      s₂.folder.store.db.get (fileKey ['f']) = some (.file (some fi)) ∧ fi.deleted = false ∧
      olderVersion fi.version deletedFile.version = true := by
  obtain ⟨s₁, hs₁, ⟨job, hj, r, hr, hp, hv, hd, hk⟩, s₂, hs₂, hlive⟩ : ∃ s₁,
      run (Exchange.step exactFilters firstEpoch) emptyExchange forgottenDeletion = some s₁ ∧ DecidedAgainst false s₁ ∧
      ∃ s₂, run (Exchange.step exactFilters firstEpoch) s₁ (.folder (.commit 1) :: announceLive 2) = some s₂ ∧
        s₂.folder.store.db.get (fileKey ['f']) = some (.file (some { liveFile.toStored with sequence := 3 })) := by
    decide
  exact ⟨s₁, s₂, job, r, _, hs₁, hj, hp, hr, hv, hd, hk, hs₂, hlive, rfl, by decide⟩

/-- Device 2, which deletes `f`, has a long index of its own; device 1 is sent the deletion before its
number passes that of the deletion. -/
def knownDeletion : List ExchangeAct :=
  announceLive 0 ++ [recordState 1 1, recordState 2 2000] ++ announceDeleted 1 ++
  [.index (device 1) 1, recordState 1 1000] ++ pruneEntry

lemma emptyExchange_initial : emptyExchange.Initial :=
  ⟨rfl, rfl, ⟨⟨_, rfl⟩, le_rfl, by decide⟩, fun _ => rfl⟩

theorem deletion_known_knownDeletion :
    ∃ s₁ job r, run (Exchange.step exactFilters firstEpoch) emptyExchange knownDeletion = some s₁ ∧
      s₁.folder.jobs.lookup 1 = some job ∧ (fileKey ['f'], r) ∈ job.phase.pruned ∧
      ∀ d st, s₁.folder.store.db.get (.md d) = some (.remote st) →
        knowsVersion s₁.known d (splitName ['f']) deletedFile.version = true ∧
        ∀ later s₂ file, run (Exchange.step exactFilters firstEpoch) s₁ later = some s₂ →
          splitName file.name = splitName ['f'] → neverBack s₂ d file = true →
          olderVersion file.version deletedFile.version = false := by
  obtain ⟨s₁, hs₁, job, hj, r, hr, hp, hv, -, -⟩ : ∃ s₁,
      run (Exchange.step exactFilters firstEpoch) emptyExchange knownDeletion = some s₁ ∧ DecidedAgainst true s₁ := by
    decide
  exact ⟨s₁, job, r, hs₁, hj, hp, (deletion_known emptyExchange_initial (by decide) hs₁ hj hp hr hv).2⟩

end Bepository.Storage
