import Bepository.Storage.Effects
import Bepository.Storage.Flow
import Bepository.Storage.Liveness

/-!
# What the compactions leave alone

Every number in an entry must keep its block row.  The invariant `Retained` follows a number from the
entries through the calls in flight: its row is there and no job has decided against it, and every job
that might still do so has seen it, or will see it in its scan, or will be told of it by the call that
wrote it.

`compaction_keeps_blocks` needs three things of a run: the snapshot of a job shows, in the rows that
its scan reads, what entries staged in subdirectories refer to (`scanComplete`); no job decides
against a row that a call has in hand (`dropIdle`); and no call links to a row that a job has decided
against (`linkKept`).  The runs at the end break one of them each.
-/

namespace Bepository.Storage

open Lib List Option Table

/-! ### Numbers and jobs -/

def JobPhase.Awaits (s : ℕ) : JobPhase → Prop
  | .registered => True
  | .scanning todo => ∃ v ∈ todo, s ∈ v.seqs
  | .filtering .. => False

def JobPhase.Within (sources : List (Key × Row)) : JobPhase → Prop
  | .filtering _ todo pruned => todo ⊆ sources ∧ pruned ⊆ sources
  | _ => True

lemma JobPhase.Within.pruned {phase : JobPhase} {sources : List (Key × Row)}
    (h : phase.Within sources) : phase.pruned ⊆ sources := by
  cases phase with
  | filtering => exact h.2
  | _ => exact nil_subset _

/-- The job will not decide against the row of this number: the row is not among its sources, or it
has yet to scan the number, or it knows it. -/
def Covered (st : Store) (j : ℕ) (job : Job) (s : ℕ) : Prop :=
  (∀ r, st.db.rows.lookup (.bd s) = some r → (.bd s, r) ∉ job.sources) ∨ job.phase.Awaits s ∨
    ∀ js, st.gc.jobs.lookup j = some js → s ∈ js.knownLiveSeqs

def Safe (m : Machine) (s : ℕ) : Prop :=
  ∃ r, m.store.db.rows.lookup (.bd s) = some r ∧
    ∀ j job, m.jobs.lookup j = some job → (.bd s, r) ∉ job.phase.pruned

def Exposed (epoch : Epoch) (m : Machine) (s : ℕ) : Prop :=
  s ∈ entrySeqs epoch m.store.db ∨ s ∈ m.inFlight Pc.kept

def Held (epoch : Epoch) (m : Machine) (s : ℕ) : Prop :=
  Exposed epoch m s ∨ s ∈ m.inFlight Pc.picked

/-! ### Conditions on a step -/

def Key.isNested (epoch : Epoch) : Key → Bool
  | .mi e path => e = epoch && path.dir ≠ []
  | _ => false

def nestedSeqs (epoch : Epoch) (db : Db) : List ℕ :=
  db.rows.toList.flatMap fun r => if r.1.isNested epoch then r.2.val.seqs else []

/-- The job spares this number also without its scan: the row is not among its sources, or it knows
the number, or a call is about to tell it. -/
def Machine.spares (m : Machine) (j : ℕ) (job : Job) (s : ℕ) : Bool :=
  (m.store.db.rows.lookup (.bd s)).all (fun r => (.bd s, r) ∉ job.sources) ||
    (m.store.gc.jobs.lookup j).all (fun js => s ∈ js.knownLiveSeqs) ||
    s ∈ m.inFlight Pc.unrecorded

/-- A snapshot shows, in rows that the scan reads, the numbers of the entries staged in
subdirectories and of the entries that calls have read. -/
def scanComplete (epoch : Epoch) (m : Machine) : Act → Bool
  | .snapshot j => (m.jobs.lookup j).all fun job =>
      (nestedSeqs epoch m.store.db ++ m.inFlight Pc.kept).all fun s =>
        m.spares j job s || (scanRows m.store.db epoch).any fun v => s ∈ v.seqs
  | _ => true

/-- A job decides against the row of a number only while no call has the number in hand. -/
def dropIdle (bl : Blooms) (m : Machine) : Act → Bool
  | .decide j => (m.jobs.lookup j).all fun job =>
      match job.phase with
      | .filtering _ ((.bd s, _) :: _) _ => m.store.gc.knownLiveSeqContains bl j s ||
          s ∉ m.inFlight Pc.kept ++ m.inFlight Pc.picked ++ m.inFlight Pc.unrecorded
      | _ => true
  | _ => true

/-- A call that has found a row links to it only if no running job has decided against the row. -/
def linkKept (m : Machine) : Act → Bool
  | .next t => (m.calls.lookup t).all fun c =>
      match c.pc with
      | .readData _ _ _ seq _ => (m.store.db.rows.lookup (.bd seq)).all fun r =>
          m.jobs.toList.all fun j => (.bd seq, r) ∉ j.2.phase.pruned
      | _ => true
  | _ => true

/-! ### The invariant -/

structure Retained (epoch : Epoch) (m : Machine) : Prop where
  formed : ∀ t c, m.calls.lookup t = some c → c.pc.Formed epoch
  older : ∀ j job, m.jobs.lookup j = some job → ∀ r ∈ job.sources, r.2.ver < m.store.db.next
  within : ∀ j job, m.jobs.lookup j = some job → job.phase.Within job.sources
  safe : ∀ s, Held epoch m s → Safe m s
  covered : ∀ s, Exposed epoch m s → ∀ j job, m.jobs.lookup j = some job →
    Covered m.store j job s ∨ s ∈ m.inFlight Pc.unrecorded

section Retention

variable {bl : Blooms} {epoch : Epoch} {m m' : Machine} {s t : ℕ}

/-! ### Steps of calls -/

section Call

variable {name : Str} {pc : Pc} {st : Store} {aft : After}

lemma Safe.after (h : Retained epoch m) (hj : m'.jobs = m.jobs)
    (hrow : m'.store.db.rows.lookup (.bd s) = m.store.db.rows.lookup (.bd s) ∧ Safe m s ∨
      ∃ v, m'.store.db.rows.lookup (.bd s) = some ⟨v, m.store.db.next⟩) : Safe m' s := by
  rcases hrow with ⟨hrow, r, hr, hp⟩ | ⟨v, hv⟩
  · exact ⟨r, hrow.trans hr, fun j job hjob => hp j job (hj ▸ hjob)⟩
  · refine ⟨_, hv, fun j job hjob hmem => ?_⟩
    rw [hj] at hjob
    exact lt_irrefl _ (h.older j job hjob _ ((h.within j job hjob).pruned hmem))

lemma Covered.after {j : ℕ} {job : Job} (hc : Covered m.store j job s)
    (hold : ∀ r ∈ job.sources, r.2.ver < m.store.db.next)
    (hrow : st.db.rows.lookup (.bd s) = m.store.db.rows.lookup (.bd s) ∨
      ∃ v, st.db.rows.lookup (.bd s) = some ⟨v, m.store.db.next⟩) (hk : ∀ js', st.gc.jobs.lookup j = some js' →
      ∃ js, m.store.gc.jobs.lookup j = some js ∧ js.knownLiveSeqs ⊆ js'.knownLiveSeqs) :
    Covered st j job s := by
  rcases hc with hsrc | hph | hkn
  · refine .inl fun r hr hmem => ?_
    rcases hrow with hrow | ⟨v, hv⟩
    · exact hsrc r (hrow ▸ hr) hmem
    · rw [hv] at hr
      cases hr
      exact lt_irrefl _ (hold _ hmem)
  · exact .inr (.inl hph)
  · refine .inr (.inr fun js' hjs' => ?_)
    obtain ⟨js, hjs, hsub⟩ := hk js' hjs'
    exact hsub (hkn js hjs)

/-- **A step of a call**, if it does not link to a row that a job has decided against. -/
lemma Retained.call (h : Retained epoch m) (hc : m.calls.lookup t = some ⟨name, pc⟩)
    (hs : pc.Steps epoch name m.store st aft)
    (hlink : ∀ hash data dir seq dirs, pc = .readData hash data dir seq dirs →
      (m.store.db.get (.bd seq)).isSome → Safe m seq) : Retained epoch (m.after t name (st, aft)) := by
  have hf : pc.Formed epoch := h.formed t _ hc
  have hkept : ∀ s, s ∈ pc.kept → Exposed epoch m s := fun s hs =>
    .inr (mem_inFlight.2 ⟨t, _, hc, hs⟩)
  have hpicked : ∀ s, s ∈ pc.picked → Held epoch m s := fun s hs =>
    .inr (mem_inFlight.2 ⟨t, _, hc, hs⟩)
  -- what is exposed was exposed before, or is new and unrecorded
  have hexp : ∀ s, Exposed epoch (m.after t name (st, aft)) s → Exposed epoch m s ∨ s ∈ aft.seqs Pc.unrecorded ∧
        (s ∈ pc.picked ∨ ∃ v, st.db.rows.lookup (.bd s) = some ⟨v, m.store.db.next⟩) := by
    intro s he
    rcases he with he | he
    · rw [Machine.after_store] at he
      rcases hs.entrySeqs hf he with he | he | he
      · exact .inl (.inl he)
      · exact .inl (hkept s he)
      · exact .inr he
    · rcases mem_inFlight_after he with he | he
      · rcases hs.kept he with he | he
        · exact .inl (hkept s he)
        · exact .inl (.inl he)
      · exact .inl (.inr he)
  have hrow : ∀ s, st.db.rows.lookup (.bd s) = m.store.db.rows.lookup (.bd s) ∨
      ∃ v, st.db.rows.lookup (.bd s) = some ⟨v, m.store.db.next⟩ := fun s =>
    (hs.lookup_bd hf s).imp_right fun ⟨_, data, _, _, _, hw⟩ => ⟨.data data, hw⟩
  have hsafe : ∀ s, Safe m s → Safe (m.after t name (st, aft)) s := by
    intro s hsafe
    refine Safe.after h Machine.after_jobs ?_
    rw [Machine.after_store]
    exact (hrow s).imp_left fun hsame => ⟨hsame, hsafe⟩
  refine ⟨fun t' c hc' => ?_, fun j job hj r hr => ?_, fun j job hj => ?_, fun s hh => ?_, fun s he j job hj => ?_⟩
  · rcases Machine.lookup_after hc' with ⟨-, rfl, -⟩ | ⟨-, hc'⟩
    · exact hs.formed hf
    · exact h.formed t' c hc'
  · rw [Machine.after_jobs] at hj
    rw [Machine.after_store]
    exact lt_of_lt_of_le (h.older j job hj r hr) hs.next_le
  · rw [Machine.after_jobs] at hj
    exact h.within j job hj
  · rcases hh with he | hp
    · rcases hexp s he with he | ⟨-, hp | hv⟩
      · exact hsafe s (h.safe s (.inl he))
      · exact hsafe s (h.safe s (hpicked s hp))
      · exact Safe.after h Machine.after_jobs (.inr (by rwa [Machine.after_store]))
    · rcases mem_inFlight_after hp with hp | hp
      · rcases hs.picked hp with hp | hp | ⟨hd, hash, data, dir, dirs, rfl⟩
        · exact hsafe s (h.safe s (hpicked s hp))
        · exact hsafe s (h.safe s (.inl (.inl hp)))
        · exact hsafe s (hlink hash data dir s dirs rfl hd)
      · exact hsafe s (h.safe s (.inr hp))
  · rw [Machine.after_jobs] at hj
    rw [Machine.after_store]
    rcases hexp s he with he | ⟨hu, -⟩
    · rcases h.covered s he j job hj with hcov | hu
      · exact .inl (hcov.after (h.older j job hj) (hrow s) fun js' => hs.known)
      · rcases inFlight_after hc hu with hu | hu
        · rcases hs.unrecorded hu with hu | hall
          · exact .inr (inFlight_after_self hu)
          · exact .inl (.inr (.inr (hall j)))
        · exact .inr hu
    · exact .inr (inFlight_after_self hu)

variable {c : Call}

lemma Retained.insert_call (h : Retained epoch m) (hf : c.pc.Formed epoch)
    (hk : ∀ s ∈ c.pc.kept, s ∈ m.inFlight Pc.kept) (hp : ∀ s ∈ c.pc.picked, s ∈ m.inFlight Pc.picked)
    (hu : ∀ t' c', m.calls.lookup t' = some c' → t' = t → c'.pc.unrecorded = []) :
    Retained epoch { m with calls := m.calls.insert t c } := by
  have hin : ∀ f, (∀ s ∈ f c.pc, s ∈ m.inFlight f) → ∀ s,
      s ∈ Machine.inFlight { m with calls := m.calls.insert t c } f → s ∈ m.inFlight f := by
    intro f hf s hs
    obtain ⟨t', c', hc', hs⟩ := mem_inFlight.1 hs
    rw [lookup_insert'] at hc'
    split_ifs at hc'
    · cases hc'
      exact hf s hs
    · exact mem_inFlight.2 ⟨t', c', hc', hs⟩
  have hexp : ∀ s, Exposed epoch { m with calls := m.calls.insert t c } s → Exposed epoch m s :=
    fun s he => he.imp_right (hin Pc.kept hk s)
  refine ⟨forall_insert h.formed hf, h.older, h.within, fun s hh => ?_, fun s he j job hj => ?_⟩
  · exact h.safe s (hh.imp (hexp s) (hin Pc.picked hp s))
  · refine (h.covered s (hexp s he) j job hj).imp_right fun hs => ?_
    obtain ⟨t', c', hc', hs⟩ := mem_inFlight.1 hs
    by_cases ht : t' = t
    · rw [hu t' c' hc' ht] at hs
      cases hs
    · exact mem_inFlight.2 ⟨t', c', (AList.lookup_insert_ne ht).trans hc', hs⟩

lemma start_formed (epoch : Epoch) {op : Op} (h : op.start = some c) :
    c.pc.Formed epoch ∧ c.pc.kept = [] ∧ c.pc.picked = [] := by
  cases op with
  | putFile => cases h; exact ⟨(by rintro _ ⟨⟩), by simp [Pc.kept], rfl⟩
  | putFileWithCarry | stageFile | completeFile => cases h; exact ⟨trivial, rfl, rfl⟩
  | storeBlock name hash =>
    obtain ⟨hash, -, rfl⟩ := map_eq_some_iff.1 h
    split <;> exact ⟨trivial, rfl, rfl⟩
  | reuseBlock =>
    obtain ⟨hash, -, rfl⟩ := map_eq_some_iff.1 h
    exact ⟨trivial, rfl, rfl⟩

lemma Retained.start (h : Retained epoch m) {op : Op} (ht : t ∉ m.calls)
    (hop : op.start = some c) : Retained epoch { m with calls := m.calls.insert t c } := by
  obtain ⟨hf, hk, hp⟩ := start_formed epoch hop
  refine h.insert_call hf (by simp [hk]) (by simp [hp]) fun t' c' hc' he => ?_
  subst he
  exact absurd (AList.lookup_isSome.1 (isSome_of_eq_some hc')) ht

lemma Retained.lock (h : Retained epoch m) (hc : m.calls.lookup t = some ⟨name, .wait pc⟩) :
    Retained epoch { m with calls := m.calls.insert t ⟨name, pc⟩ } := by
  have hf : (Pc.wait pc).Formed epoch := h.formed t _ hc
  refine h.insert_call hf (fun s hs => mem_inFlight.2 ⟨t, _, hc, hs⟩)
    (fun s hs => mem_inFlight.2 ⟨t, _, hc, hs⟩) fun t' c' hc' he => ?_
  subst he
  rw [hc] at hc'
  cases hc'
  rfl

end Call

lemma Retained.setRemote (h : Retained epoch m) (device : Bytes32) (state : RemoteIndexState) :
    Retained epoch { m with store := { m.store with
      db := m.store.db.write [.put (.md device) (.remote state)] } } := by
  have hrow : ∀ s, (m.store.db.write [.put (.md device) (.remote state)]).rows.lookup (.bd s) =
      m.store.db.rows.lookup (.bd s) := by
    intro s
    exact Db.lookup_write_single (by rintro ⟨⟩)
  have hentry : ∀ s, s ∈ entrySeqs epoch (m.store.db.write [.put (.md device) (.remote state)]) →
      s ∈ entrySeqs epoch m.store.db := by
    intro s hs
    rcases mem_entrySeqs_write hs with hs | ⟨k, v, hput, hk, -⟩
    · exact hs
    · cases mem_singleton.1 hput
      cases hk
  refine ⟨h.formed, fun j job hj r hr => Nat.lt_succ_of_lt (h.older j job hj r hr), h.within,
    fun s hh => ?_, fun s he j job hj => ?_⟩
  · have hh : Held epoch m s := hh.imp_left (Or.imp_left (hentry s))
    exact Safe.after h rfl (.inl ⟨hrow s, h.safe s hh⟩)
  · have he : Exposed epoch m s := Or.imp_left (hentry s) he
    exact (h.covered s he j job hj).imp_left fun hcov =>
      hcov.after (h.older j job hj) (.inl (hrow s)) fun js' hjs' => ⟨js', hjs', List.Subset.refl _⟩

/-! ### Steps of jobs -/

lemma Retained.of_jobs (h : Retained epoch m) (hdb : m'.store.db = m.store.db) (hc : m'.calls = m.calls)
    (hj : ∀ j job, m'.jobs.lookup j = some job →
      (∀ r ∈ job.sources, r.2.ver < m.store.db.next) ∧ job.phase.Within job.sources ∧
      (∀ s, Held epoch m s → ∀ r, m.store.db.rows.lookup (.bd s) = some r → (.bd s, r) ∉ job.phase.pruned) ∧
      ∀ s, Exposed epoch m s → Covered m'.store j job s ∨ s ∈ m.inFlight Pc.unrecorded) :
    Retained epoch m' := by
  have hin : ∀ f, m'.inFlight f = m.inFlight f := fun f => by unfold Machine.inFlight; rw [hc]
  have hexp : ∀ s, Exposed epoch m' s ↔ Exposed epoch m s := fun s => by
    unfold Exposed
    rw [hdb, hin]
  have hheld : ∀ s, Held epoch m' s ↔ Held epoch m s := fun s => by
    unfold Held
    rw [hexp, hin]
  refine ⟨fun t c hc' => h.formed t c (hc ▸ hc'), fun j job hjob => ?_,
    fun j job hjob => (hj j job hjob).2.1, fun s hh => ?_, fun s he j job hjob => ?_⟩
  · rw [hdb]
    exact (hj j job hjob).1
  · obtain ⟨r, hr, -⟩ := h.safe s ((hheld s).1 hh)
    exact ⟨r, hdb ▸ hr, fun j job hjob => (hj j job hjob).2.2.1 s ((hheld s).1 hh) r hr⟩
  · rw [hin]
    exact (hj j job hjob).2.2.2 s ((hexp s).1 he)

variable {j : ℕ} {job : Job}

lemma Retained.same (h : Retained epoch m) (hj : m.jobs.lookup j = some job) (hdb : m'.store.db = m.store.db)
    (hk : m'.store.gc.jobs.lookup j = m.store.gc.jobs.lookup j) :
    (∀ r ∈ job.sources, r.2.ver < m.store.db.next) ∧ job.phase.Within job.sources ∧
    (∀ s, Held epoch m s → ∀ r, m.store.db.rows.lookup (.bd s) = some r → (.bd s, r) ∉ job.phase.pruned) ∧
    ∀ s, Exposed epoch m s → Covered m'.store j job s ∨ s ∈ m.inFlight Pc.unrecorded := by
  refine ⟨h.older j job hj, h.within j job hj, fun s hh r hr => ?_, fun s he => ?_⟩
  · obtain ⟨r', hr', hp⟩ := h.safe s hh
    rw [hr'] at hr
    cases hr
    exact hp j job hj
  · exact (h.covered s he j job hj).imp_left fun hcov =>
      hcov.after (h.older j job hj) (.inl (by rw [hdb])) fun js' hjs' =>
        ⟨js', hk ▸ hjs', List.Subset.refl _⟩

lemma Retained.register (h : Retained epoch m) (keys : List Key) (isBottom : Bool) :
    Retained epoch (m.registerJob keys isBottom) := by
  refine h.of_jobs rfl rfl fun j job hj => ?_
  simp only [Machine.registerJob, CompactionState.register, lookup_insert'] at hj
  split_ifs at hj with hjn
  · cases hj
    refine ⟨fun r hr => ?_, trivial, fun _ _ _ _ => (by rintro ⟨⟩), fun s _ => .inl (.inr (.inl trivial))⟩
    -- the sources are rows of the database
    obtain ⟨k, -, hk⟩ := mem_filterMap.1 hr
    obtain ⟨row, hrow, rfl⟩ := map_eq_some_iff.1 hk
    exact m.store.db.stamped k row hrow
  · refine h.same hj rfl ?_
    simp only [Machine.registerJob, CompactionState.register]
    exact AList.lookup_insert_ne hjn

lemma Retained.drop (h : Retained epoch m) (j : ℕ) : Retained epoch (m.drop j) := by
  refine h.of_jobs rfl rfl fun j' job hj => ?_
  simp only [Machine.drop, lookup_erase'] at hj
  split_ifs at hj with hjn
  exact h.same hj rfl (AList.lookup_erase_ne hjn)

lemma Retained.setPhase (h : Retained epoch m) {phase : JobPhase} (gc : CompactionState)
    (hj : m.jobs.lookup j = some job) (hgc : ∀ j', j' ≠ j → gc.jobs.lookup j' = m.store.gc.jobs.lookup j')
    (hin : phase.Within job.sources)
    (hsafe : ∀ s, Held epoch m s → ∀ r, m.store.db.rows.lookup (.bd s) = some r → (.bd s, r) ∉ phase.pruned)
    (hcov : ∀ s, Exposed epoch m s → Covered { m.store with gc := gc } j { job with phase := phase } s ∨
        s ∈ m.inFlight Pc.unrecorded) :
    Retained epoch { m.setPhase j job phase with store := { m.store with gc := gc } } := by
  refine h.of_jobs rfl rfl fun j' job' hj' => ?_
  simp only [Machine.setPhase, lookup_insert'] at hj'
  split_ifs at hj' with hjn
  · cases hj'
    subst hjn
    exact ⟨h.older j' job hj, hin, hsafe, hcov⟩
  · exact h.same hj' rfl (hgc j' hjn)

lemma nested_or_scanned (h : s ∈ entrySeqs epoch m.store.db) :
    s ∈ nestedSeqs epoch m.store.db ∨ ∃ v ∈ scanRows m.store.db epoch, s ∈ v.seqs := by
  obtain ⟨k, v, hk, hv, hs⟩ := mem_entrySeqs.1 h
  obtain ⟨r, hr, rfl⟩ := Db.get_eq_some.1 hv
  by_cases hn : k.isNested epoch = true
  · exact .inl (mem_flatMap.2 ⟨(k, r), Table.mem_toList.2 hr, by rwa [if_pos hn]⟩)
  · refine .inr ⟨r.val, List.mem_map.2 ⟨(k, r), mem_append.2 ?_, rfl⟩, hs⟩
    cases k with
    | mn => exact .inr (Db.mem_scanPrefix.2 ⟨hr, prefix_append _ _⟩)
    | mi e path =>
      have he : e = epoch := of_decide_eq_true hk
      subst he
      have hd : path.dir = [] := by simpa [Key.isNested] using hn
      exact .inl (Db.mem_scanPrefix.2 ⟨hr, inboxScanPrefix_prefix hd⟩)
    | _ => cases hk

lemma Retained.snapshot (h : Retained epoch m) (hj : m.jobs.lookup j = some job)
    (hg : scanComplete epoch m (.snapshot j) = true) :
    Retained epoch (m.setPhase j job (.scanning (scanRows m.store.db epoch))) := by
  simp only [scanComplete, hj, all_some, List.all_eq_true, Bool.or_eq_true,
    List.any_eq_true, decide_eq_true_eq] at hg
  refine h.setPhase m.store.gc hj (fun _ _ => rfl) trivial (fun _ _ _ _ => (by rintro ⟨⟩)) fun s he => ?_
  have hseen : (∃ v ∈ scanRows m.store.db epoch, s ∈ v.seqs) ∨ m.spares j job s = true := by
    rcases he with he | he
    · rcases nested_or_scanned he with he | he
      · exact (hg s (mem_append_left _ he)).symm
      · exact .inl he
    · exact (hg s (mem_append_right _ he)).symm
  rcases hseen with hscan | hspare
  · exact .inl (.inr (.inl hscan))
  · simp only [Machine.spares, Bool.or_eq_true, Option.all_eq_true, decide_eq_true_eq] at hspare
    rcases hspare with (hsrc | hkn) | hu
    · exact .inl (.inl hsrc)
    · exact .inl (.inr (.inr hkn))
    · exact .inr hu

variable {refs : List (Bytes32 × ℕ)} {v : Value} {todo pruned : List (Key × Row)}

lemma mem_refs_of_mem_seqs (h : indexEntry v = .ok refs) (hs : s ∈ v.seqs) : s ∈ refs.map Prod.snd := by
  unfold Value.seqs at hs
  split at hs
  · next fi hv =>
    obtain ⟨b, hb, hseq⟩ := mem_seqsOf.1 hs
    have hc : Carries v (b.hash, s) := ⟨fi, hv, mem_filterMap.2 ⟨b, hb, by rw [hseq]; rfl⟩⟩
    obtain ⟨hash, -, hmem⟩ := mem_of_carries h hc
    exact List.mem_map_of_mem hmem
  · cases hs

lemma Retained.scan (h : Retained epoch m) {todo : List Value} (hj : m.jobs.lookup j = some job)
    (hp : job.phase = .scanning (v :: todo)) (hr : indexEntry v = .ok refs) :
    Retained epoch { m.setPhase j job (.scanning todo) with
      store := { m.store with gc := m.store.gc.index j refs } } := by
  have hgc : ∀ j', (m.store.gc.index j refs).jobs.lookup j' =
      if j' = j then (m.store.gc.jobs.lookup j).map fun js =>
        ⟨refs.map Prod.fst ++ js.knownLiveHashes, refs.map Prod.snd ++ js.knownLiveSeqs⟩
      else m.store.gc.jobs.lookup j' := by
    intro j'
    unfold CompactionState.index
    split
    · next hn =>
      split_ifs with hjj
      · rw [hjj, hn]
        rfl
      · rfl
    · next js hjs => rw [lookup_insert', hjs]; rfl
  refine h.setPhase _ hj (fun j' hne => by rw [hgc, if_neg hne]) trivial (fun _ _ _ _ => (by rintro ⟨⟩))
    fun s he => ?_
  have hkn : s ∈ refs.map Prod.snd ∨ (∀ js, m.store.gc.jobs.lookup j = some js →
      s ∈ js.knownLiveSeqs) → ∀ js, (m.store.gc.index j refs).jobs.lookup j = some js →
      s ∈ js.knownLiveSeqs := by
    intro hor js hjs
    rw [hgc, if_pos rfl, map_eq_some_iff] at hjs
    obtain ⟨js₀, hjs₀, rfl⟩ := hjs
    rcases hor with hs | hs
    · exact mem_append_left _ hs
    · exact mem_append_right _ (hs js₀ hjs₀)
  refine (h.covered s he j job hj).imp_left fun hcov => ?_
  rcases hcov with hsrc | haw | hk
  · exact .inl hsrc
  · rw [hp] at haw
    obtain ⟨v', hv', hs⟩ := haw
    rcases mem_cons.1 hv' with rfl | hv'
    · exact .inr (.inr (hkn (.inl (mem_refs_of_mem_seqs hr hs))))
    · exact .inr (.inl ⟨v', hv', hs⟩)
  · exact .inr (.inr (hkn (.inr hk)))

lemma Covered.filtering {st : Store} {phase : JobPhase} (h : Covered st j job s) (hp : ¬ job.phase.Awaits s) :
    Covered st j { job with phase := phase } s := by
  rcases h with hsrc | haw | hk
  · exact .inl hsrc
  · exact absurd haw hp
  · exact .inr (.inr hk)

lemma Retained.floor (h : Retained epoch m) {floor : Option ℤ} (hj : m.jobs.lookup j = some job)
    (hp : job.phase = .scanning []) : Retained epoch (m.setPhase j job (.filtering floor job.sources [])) := by
  refine h.setPhase m.store.gc hj (fun _ _ => rfl)
    ⟨List.Subset.refl _, nil_subset _⟩ (fun _ _ _ _ => (by rintro ⟨⟩)) fun s he => ?_
  have hno : ¬ job.phase.Awaits s := by
    rw [hp]
    rintro ⟨v, hv, -⟩
    cases hv
  exact (h.covered s he j job hj).imp_left fun hcov => hcov.filtering hno

lemma Retained.keep (h : Retained epoch m) {floor : Option ℤ} {r : Key × Row} (hj : m.jobs.lookup j = some job)
    (hp : job.phase = .filtering floor (r :: todo) pruned) :
    Retained epoch (m.setPhase j job (.filtering floor todo pruned)) := by
  have hin : job.phase.Within job.sources := h.within j job hj
  rw [hp] at hin
  refine h.setPhase m.store.gc hj (fun _ _ => rfl)
    ⟨fun x hx => hin.1 (mem_cons_of_mem r hx), hin.2⟩ (fun s hh row hrow => ?_) fun s he => ?_
  · have hnp := (h.same hj rfl rfl).2.2.1 s hh row hrow
    rwa [hp] at hnp
  · have hno : ¬ job.phase.Awaits s := by rw [hp]; exact id
    exact (h.covered s he j job hj).imp_left fun hcov => hcov.filtering hno

lemma not_known_of_filter {gc : CompactionState} {f : GcFilter} {d : Decision}
    (h : GcFilter.filter bl gc f (.bd s) v = .ok d) (hd : d ≠ .keep) :
    gc.knownLiveSeqContains bl f.job s = false := by
  simp only [GcFilter.filter] at h
  split_ifs at h with hmin hkn
  · cases h
    exact absurd rfl hd
  · exact Bool.eq_false_iff.2 hkn

lemma Retained.prune (h : Retained epoch m) {floor : Option ℤ} {r : Key × Row} {d : Decision}
    (hj : m.jobs.lookup j = some job) (hp : job.phase = .filtering floor (r :: todo) pruned) (hd : d ≠ .keep)
    (hf : GcFilter.filter bl m.store.gc ⟨j, epoch, floor, job.isBottom⟩ r.1 r.2.val = .ok d)
    (hg : dropIdle bl m (.decide j) = true) :
    Retained epoch (m.setPhase j job (.filtering floor todo (r :: pruned))) := by
  have hin : job.phase.Within job.sources := h.within j job hj
  rw [hp] at hin
  have hno : ∀ s, ¬ job.phase.Awaits s := fun s => by rw [hp]; exact id
  refine h.setPhase m.store.gc hj (fun _ _ => rfl)
    ⟨fun x hx => hin.1 (mem_cons_of_mem r hx), cons_subset.2 ⟨hin.1 mem_cons_self,
      hin.2⟩⟩ (fun s hh row hrow hmem => ?_) fun s he => ?_
  · rcases mem_cons.1 hmem with heq | hmem
    · -- the row decided against is the row of a number that is held
      subst heq
      have hkn : m.store.gc.knownLiveSeqContains bl j s = false := not_known_of_filter hf hd
      simp only [dropIdle, hj, hp, all_some, hkn, Bool.false_or, decide_eq_true_eq, mem_append, not_or] at hg
      obtain ⟨⟨hk, hpk⟩, hu⟩ := hg
      have hentry : Exposed epoch m s := hh.resolve_right hpk
      rcases (h.covered s hentry j job hj).resolve_right hu with hsrc | haw | hall
      · exact hsrc row hrow (hin.1 mem_cons_self)
      · exact hno s haw
      · have hc : m.store.gc.knownLiveSeqContains bl j s = true :=
          (Option.all_eq_true _ _).2 fun js hjs => bl.seqs.mem _ _ (hall js hjs)
        rw [hkn] at hc
        cases hc
    · refine (h.same hj rfl rfl).2.2.1 s hh row hrow ?_
      rwa [hp]
  · exact (h.covered s he j job hj).imp_left fun hcov => hcov.filtering (hno s)

lemma Retained.commit (h : Retained epoch m) {floor : Option ℤ} {pruned : List (Key × Row)}
    (hj : m.jobs.lookup j = some job)
    (hp : job.phase = .filtering floor [] pruned) : Retained epoch { m.drop j with store := { m.store with
      db := m.store.db.prune pruned, gc := m.store.gc.unregister j } } := by
  have hentry : ∀ s, s ∈ entrySeqs epoch (m.store.db.prune pruned) → s ∈ entrySeqs epoch m.store.db := by
    intro s hs
    obtain ⟨k, v, hk, hv, hs⟩ := mem_entrySeqs.1 hs
    obtain ⟨r, hr, rfl⟩ := Db.get_eq_some.1 hv
    exact mem_entrySeqs.2 ⟨k, _, hk, Db.get_eq_some.2 ⟨r, (lookup_pruneRows.1 hr).1, rfl⟩, hs⟩
  -- what is left is what the drop of the job leaves, without the pruned rows
  have hd := h.drop j
  have hrow : ∀ s, Held epoch m s → ∃ r, m.store.db.rows.lookup (.bd s) = some r ∧
        (m.store.db.prune pruned).rows.lookup (.bd s) = some r := by
    intro s hh
    obtain ⟨r, hr, hnp⟩ := h.safe s hh
    have hr' : (.bd s, r) ∉ pruned := by
      have := hnp j job hj
      rwa [hp] at this
    exact ⟨r, hr, lookup_pruneRows.2 ⟨hr, hr'⟩⟩
  refine ⟨h.formed, hd.older, hd.within, fun s hh => ?_, fun s he j' job' hj' => ?_⟩
  · have hh : Held epoch m s := hh.imp_left (Or.imp_left (hentry s))
    obtain ⟨r, hr, hr'⟩ := hrow s hh
    obtain ⟨r₀, hr₀, hnp⟩ := hd.safe s hh
    rw [show m.store.db.rows.lookup (.bd s) = some r₀ from hr₀] at hr
    cases hr
    exact ⟨r, hr', hnp⟩
  · have he : Exposed epoch m s := Or.imp_left (hentry s) he
    obtain ⟨r, hr, hr'⟩ := hrow s (.inl he)
    refine (hd.covered s he j' job' hj').imp_left fun hcov => ?_
    rcases hcov with hsrc | haw | hk
    · exact .inl fun r₀ hr₀ => hsrc r₀ (hr.trans (hr'.symm.trans hr₀))
    · exact .inr (.inl haw)
    · exact .inr (.inr hk)

theorem retained_step {a : Act} (h : Retained epoch m) (hs : m.step bl epoch a = some m')
    (hscan : scanComplete epoch m a = true) (hdrop : dropIdle bl m a = true)
    (hlink : linkKept m a = true) : Retained epoch m' := by
  cases Machine.step_moves hs with
  | refused => exact h
  | start ht hop => exact h.start ht hop
  | lock hc => exact h.lock hc
  | call hc _ hst =>
    refine h.call hc hst ?_
    rintro hash data dir seq dirs rfl hsome
    obtain ⟨v, hv⟩ := isSome_iff_exists.1 hsome
    obtain ⟨r, hr, -⟩ := Db.get_eq_some.1 hv
    refine ⟨r, hr, fun j job hj => ?_⟩
    simp only [linkKept, hc, hr, all_some, List.all_eq_true, decide_eq_true_eq] at hlink
    exact hlink (j, job) (Table.mem_toList.2 hj)
  | @setRemote device state => exact h.setRemote device state
  | @register keys isBottom => exact h.register keys isBottom
  | snapshot hj => exact h.snapshot hj hscan
  | scan hj hp hr => exact h.scan hj hp hr
  | @floor _ _ floor hj hp => exact h.floor hj hp
  | keep hj hp => exact h.keep hj hp
  | prune hj hp hd hf => exact h.prune hj hp hd hf hdrop
  | commit hj hp => exact h.commit hj hp
  | @drop _ j => exact h.drop j

/-- No call and no job is in flight, and the numbers in entries have their rows. -/
def Machine.Initial (epoch : Epoch) (m : Machine) : Prop :=
  m.calls = ∅ ∧ m.jobs = ∅ ∧ ∀ s ∈ entrySeqs epoch m.store.db, (m.store.db.get (.bd s)).isSome

lemma Retained.init (h : m.Initial epoch) : Retained epoch m := by
  obtain ⟨hc, hj, hrows⟩ := h
  have hin : ∀ f s, s ∉ m.inFlight f := by
    intro f s hs
    obtain ⟨t, c, hl, -⟩ := mem_inFlight.1 hs
    rw [hc] at hl
    cases hl
  have hno : ∀ j job, m.jobs.lookup j ≠ some job := by
    intro j job hl
    rw [hj] at hl
    cases hl
  refine ⟨fun t c hl => ?_, fun j job hl => absurd hl (hno j job),
    fun j job hl => absurd hl (hno j job), fun s hh => ?_, fun s _ j job hl => absurd hl (hno j job)⟩
  · rw [hc] at hl
    cases hl
  · have hs : s ∈ entrySeqs epoch m.store.db := (hh.resolve_right (hin _ s)).resolve_right (hin _ s)
    obtain ⟨v, hv⟩ := isSome_iff_exists.1 (hrows s hs)
    obtain ⟨r, hr, -⟩ := Db.get_eq_some.1 hv
    exact ⟨r, hr, fun j job hl => absurd hl (hno j job)⟩

/-- **Compaction keeps committed blocks.**  For any interleaving of any number of calls and jobs whose
steps meet the three conditions, every number in a block of a committed entry has its block row. -/
theorem compaction_keeps_blocks (bl : Blooms) (epoch : Epoch) {m₀ m : Machine} {as : List Act}
    (h₀ : m₀.Initial epoch) (hm : Meets (Machine.step bl epoch) (fun m a => scanComplete epoch m a = true ∧
      dropIdle bl m a = true ∧ linkKept m a = true) m₀ as)
    (hr : run (Machine.step bl epoch) m₀ as = some m) :
    ∀ path fi, m.store.db.get (.mn path) = some (.file (some fi)) → fi.deleted = false →
      ∀ b ∈ fi.blocks, ∀ s, b.blockseq = some s → (m.store.db.get (.bd s)).isSome := by
  have hinv : Retained epoch m := run_inv (P := Retained epoch)
    (fun m a m' h hg hs => retained_step h hs hg.1 hg.2.1 hg.2.2) (Retained.init h₀) hm hr
  intro path fi hfi _ b hb s hs
  have hentry : s ∈ entrySeqs epoch m.store.db :=
    mem_entrySeqs_of_get (k := .mn path) rfl hfi (mem_seqsOf.2 ⟨b, hb, hs⟩)
  obtain ⟨r, hrow, -⟩ := hinv.safe s (.inl (.inl hentry))
  rw [Db.get, hrow]
  rfl

end Retention

/-! ### Runs that lose a block -/

def emptyFolder : Machine := ⟨Store.empty, ∅, ∅⟩

abbrev runEmpty (acts : List Act) : Option Machine := run (Machine.step exactFilters firstEpoch) emptyFolder acts

def oneBlock (name : Str) : WireFile :=
  ⟨name, 4096, some ⟨[⟨1, 1⟩]⟩, 0, [⟨List.replicate 32 0, 0, 4096⟩], 0, false⟩

/-- Run a call to its end: `n` steps. -/
def wholeCall (t : ℕ) (op : Op) (n : ℕ) : List Act := .start t op :: List.replicate n (.next t)

def storeOne (t : ℕ) (name : Str) (n : ℕ) : List Act :=
  wholeCall t (.storeBlock name (List.replicate 32 0) (List.replicate 4096 7)) n

lemma emptyFolder_initial : emptyFolder.Initial firstEpoch := ⟨rfl, rfl, (by rintro _ ⟨⟩)⟩

/-- `d/f` is staged and its block stored; a job that starts then does not scan the entry and drops
the block; the file is completed. -/
def nestedRun : List Act :=
  wholeCall 0 (.stageFile (oneBlock nestedName)) 2 ++ storeOne 1 nestedName 7 ++
  [.register [.bd 1024] true, .snapshot 1, .floor 1, .decide 1, .commit 1] ++
  wholeCall 2 (.completeFile nestedName (oneBlock nestedName).version) 5

/-- Two calls of the folder's past leave the row 1024 without an entry: `f` has the block, then `f` is
emptied.  `g`, with the same block, is staged. -/
def garbageRow : List Act :=
  wholeCall 0 (.stageFile (oneBlock ['f'])) 2 ++ storeOne 1 ['f'] 7 ++
  wholeCall 2 (.completeFile ['f'] (oneBlock ['f']).version) 5 ++
  wholeCall 3 (.putFile { oneBlock ['f'] with blocks := [] }) 3 ++
  wholeCall 4 (.stageFile (oneBlock ['g'])) 2

def scanAll : List Act := [.register [.bd 1024] true, .snapshot 1, .scan 1, .scan 1, .floor 1]

/-- `reuse_block` for `g`; a job scans and decides after the first `n` of its eight steps. -/
def racedReuse (n : ℕ) : List Act :=
  garbageRow ++ wholeCall 5 (.reuseBlock ['g'] (List.replicate 32 0)) n ++ scanAll ++ [.decide 1] ++
  List.replicate (8 - n) (.next 5) ++ [.commit 1] ++
  wholeCall 6 (.completeFile ['g'] (oneBlock ['g']).version) 5

set_option maxRecDepth 100000 in
/-- **Compaction loses committed blocks.**  The nested file has lost its block.  And a job may decide against a
row between the moment a call finds it and the moment the call records it, or between the call's check of the
running jobs and the moment it finds the row: `g` is committed with a block that is gone. -/
theorem compaction_loses_blocks :
    emptyFolder.Initial firstEpoch ∧
    ∀ acts ∈ [nestedRun, racedReuse 2, racedReuse 5],
      ∃ m, runEmpty acts = some m ∧
        ¬ ∀ path fi, m.store.db.get (.mn path) = some (.file (some fi)) → fi.deleted = false →
          ∀ b ∈ fi.blocks, ∀ s, b.blockseq = some s → (m.store.db.get (.bd s)).isSome := by
  -- the committed entry at the name refers to a row that is not there
  have hlost : ∀ {acts : List Act} (name : Str), (∃ m, runEmpty acts = some m ∧
        ∃ fi, entryAt m.store.db (fileKey name) = some fi ∧ fi.deleted = false ∧
          ∃ b ∈ fi.blocks, ∃ s, b.blockseq = some s ∧ m.store.db.get (.bd s) = none) →
      ∃ m, runEmpty acts = some m ∧
        ¬ ∀ path fi, m.store.db.get (.mn path) = some (.file (some fi)) → fi.deleted = false →
          ∀ b ∈ fi.blocks, ∀ s, b.blockseq = some s → (m.store.db.get (.bd s)).isSome := by
    rintro acts name ⟨m, hm, fi, hfi, hdel, b, hb, s, hs, hnone⟩
    refine ⟨m, hm, fun hall => ?_⟩
    have hsome := hall (splitName name) fi (entryAt_eq_some.1 hfi) hdel b hb s hs
    rw [hnone] at hsome
    cases hsome
  refine ⟨emptyFolder_initial, ?_⟩
  intro acts hacts
  simp only [mem_cons, not_mem_nil, or_false] at hacts
  rcases hacts with rfl | rfl | rfl
  · exact hlost nestedName (by decide +kernel)
  · exact hlost ['g'] (by decide +kernel)
  · exact hlost ['g'] (by decide +kernel)

/-- `f` is stored and committed around a job that decides on its block. -/
def keptRun : List Act :=
  wholeCall 0 (.stageFile (oneBlock ['f'])) 2 ++ storeOne 1 ['f'] 7 ++
  [.register [.bd 1024] true, .snapshot 1, .scan 1, .floor 1, .decide 1] ++
  wholeCall 2 (.completeFile ['f'] (oneBlock ['f']).version) 5 ++ [.commit 1]

theorem compaction_keeps_blocks_keptRun :
    ∃ m, runEmpty keptRun = some m ∧
      m.store.db.get (fileKey ['f']) ≠ none ∧
      ∀ path fi, m.store.db.get (.mn path) = some (.file (some fi)) → fi.deleted = false →
        ∀ b ∈ fi.blocks, ∀ s, b.blockseq = some s → (m.store.db.get (.bd s)).isSome := by
  obtain ⟨m, hm, hf⟩ : ∃ m, runEmpty keptRun = some m ∧
      m.store.db.get (fileKey ['f']) ≠ none := by decide +kernel
  refine ⟨m, hm, hf, ?_⟩
  exact compaction_keeps_blocks exactFilters firstEpoch emptyFolder_initial (by decide +kernel) hm

end Bepository.Storage
