import Bepository.Sync.Progress
import Bepository.Sync.Retry

/-!
# The cursor of the peer (`set_remote_state`)

`apply_remote_index` stores the `last_sequence` of a batch when it has applied its files and requested their
blocks, not when the blocks have arrived.  A `Journal` keeps, beside a session, what the peer announced and what
of it was secured: an entry was committed that is not older, with its blocks if there was a conflict.  The
stored cursor stays behind the announced files that are not secured if `set_remote_state` finds nothing to be
awaited; the invariant is that each file of the batch at work is `Underway`.
-/

namespace Bepository.Sync

open Lib Storage List

/-! ### The journal of a session -/

structure Journal where
  session : Session
  /-- the announced files, with the `last_sequence` of their batch -/
  announced : List (WireFile × ℤ)
  /-- the files whose conflicts were to be resolved -/
  contested : List WireFile
  /-- the files that were secured since they were announced -/
  secured : List WireFile

def SessionAct.announces : SessionAct → List (WireFile × ℤ)
  | .act (.index files last) => files.map fun file => (file, last)
  | _ => []

def Session.contests (s : Session) : SessionAct → List WireFile
  | .act .indexStep => s.conn.index.contests
  | _ => []

namespace Journal

def connect (st : Store) : Journal := ⟨Session.connect st, [], [], []⟩

def db (l : Journal) : Db := l.session.conn.store.db

/-- The `max_sequence` that is stored for the peer. -/
def cursor (cfg : Config) (l : Journal) : Option ℤ :=
  match l.db.get (.md cfg.device) with
  | some (.remote state) => some state.maxSequence
  | _ => none

/-- An entry is committed that is not older than the file, with its blocks if the file was in a conflict. -/
def secures (l : Journal) (file : WireFile) : Bool :=
  (entryAt l.db (fileKey file.name)).any fun fi =>
    notNewer file.version fi.version && (!decide (file ∈ l.contested) || settled fi)

def note (l : Journal) : Journal :=
  { l with secured := (l.announced.map Prod.fst).filter l.secures ++ l.secured }

def next (l : Journal) (a : SessionAct) (s : Session) : Journal :=
  note ⟨s, a.announces ++ l.announced, l.session.contests a ++ l.contested, l.secured⟩

def step (cfg : Config) (l : Journal) (a : SessionAct) : Option Journal :=
  (l.session.step cfg a).map (l.next a)

/-! ### The conditions -/

/-- What the peer announces.  A batch is beyond the cursor, or what it announces is known.  A file of an earlier
batch that was not secured is announced again, in this version or a newer one, before or with the batches that
come after it. -/
def resumes (cfg : Config) (l : Journal) : SessionAct → Bool
  | .act (.index files last) =>
    ((l.cursor cfg).all (fun m => m < last) || files.all l.secures) &&
    l.announced.all fun p => decide (last < p.2) || decide (p.1 ∈ l.secured) ||
      files.any fun file => file.name = p.1.name && notNewer p.1.version file.version
  | _ => true

/-- The condition on a call of the index loop.  `set_remote_state` finds no block to come, in any hands, and the
connection not shut down; the copy of a conflict's loser is not put at the name of a file that was in a conflict;
and nothing is staged at the name of a winner, unless its blocks are there. -/
def calls (cfg : Config) (l : Journal) : Bool :=
  match l.session.conn.index with
  | .record => !l.session.conn.shutdown && decide (l.session.conn.jobs = [])
  | .copy _ _ path _ _ => l.contested.all fun file => splitName path ≠ splitName file.name
  | .winner file _ _ => file.deleted || (entryAt l.db (inboxKey cfg.epoch file.name)).isNone ||
      (withPointers file.toStored (entryAt l.db (fileKey file.name))).blocks.all StoredBlock.hasPointer
  | _ => true

/-- The condition on a step.  No path is announced twice in a batch, the announced file wins its conflict, and a
connection is given up only when the blocks of all winners are there. -/
def awaits (cfg : Config) (l : Journal) : SessionAct → Bool
  | .act (.index files _) => decide (files.map fun file => splitName file.name).Nodup
  | .act (.resolve remoteWins _) => remoteWins
  | .act .reconnect => l.contested.all fun file => decide (file ∈ l.secured)
  | .act .indexStep => l.calls cfg
  | .retryIndex true => l.calls cfg
  | _ => true

end Journal

/-! ### The invariant -/

/-- The index loop queues an `IndexUpdate` only between two files, and `resolve_conflict` is made again from
where it began. -/
structure Session.Anchored (s : Session) : Prop where
  between : s.conn.index.Between
  resolving : s.conn.index.resolves = true →
    s.resolving.resolves = true ∧ s.resolving.SamePlace s.conn.index ∧ s.conn.index.jobs = s.resolving.jobs

/-- **A batch at work**, while the connection goes on; nothing is at work when the index loop is idle. -/
structure Works (cfg : Config) (l : Journal) (batch : List WireFile) : Prop where
  anchored : l.session.Anchored
  paths : ∀ f ∈ batch, ∀ g ∈ batch, splitName f.name = splitName g.name → f = g
  distinct : l.session.conn.index.Distinct
  front : ∀ f ∈ l.session.conn.index.front, f ∈ batch
  jobs : ∀ name version, Tracked l.session.conn.jobs name version →
    ∃ f ∈ batch, f.name = name ∧ f.version = version
  announced : ∀ f ∈ batch, (f, l.session.conn.lastSequence) ∈ l.announced
  disputed : ∀ f, l.session.conn.index.disputed = some f → f ∈ l.contested
  contested : ∀ f ∈ l.contested, f ∈ l.secured ∨ f ∈ batch
  idle : l.session.conn.index = .idle → batch = []
  files : l.session.conn.index ≠ .idle → ∀ p ∈ l.announced, p.2 ≤ l.session.conn.lastSequence →
    p.1 ∈ l.secured ∨ ∃ f ∈ batch, f.name = p.1.name ∧ notNewer p.1.version f.version = true ∧
      Underway cfg.epoch l.session.conn (fun f => f ∈ l.contested) p.1 f

structure Sound (cfg : Config) (l : Journal) : Prop where
  noted : ∀ p ∈ l.announced, l.secures p.1 = true → p.1 ∈ l.secured
  behind : ∀ m, l.cursor cfg = some m → ∀ p ∈ l.announced, p.2 ≤ m → p.1 ∈ l.secured
  works : l.session.conn.shutdown = false → ∃ batch, Works cfg l batch

section Journal

variable {cfg : Config} {l : Journal} {a : SessionAct} {s s' : Session} {batch : List WireFile}
  {file asked : WireFile}

lemma secured_next (h : file ∈ l.secured) : file ∈ (l.next a s).secured := mem_append_right _ h

lemma noted_next {p : WireFile × ℤ} (hp : p ∈ (l.next a s).announced) (h : (l.next a s).secures p.1 = true) :
    p.1 ∈ (l.next a s).secured := by
  refine mem_append_left _ (mem_filter.2 ⟨mem_map.2 ⟨p, hp, rfl⟩, h⟩)

lemma secures_of_reached (h : Reached l.db (asked ∉ l.contested) file) (hname : file.name = asked.name)
    (hversion : notNewer asked.version file.version = true) : l.secures asked = true := by
  obtain ⟨fi, hfi, hnn, hok⟩ := h
  rw [hname] at hfi
  rw [Journal.secures, hfi, Option.any_some, Bool.and_eq_true, Bool.or_eq_true, Bool.not_eq_true',
    decide_eq_false_iff_not]
  exact ⟨notNewer_trans hversion hnn, hok⟩

lemma Works.all_secured (hw : Works cfg l batch) (hnoted : ∀ p ∈ l.announced, l.secures p.1 = true → p.1 ∈ l.secured)
    (hpc : l.session.conn.index = .record) (hjobs : l.session.conn.jobs = []) :
    ∀ p ∈ l.announced, p.2 ≤ l.session.conn.lastSequence → p.1 ∈ l.secured := by
  intro p hp hle
  rcases hw.files (by rw [hpc]; rintro ⟨⟩) p hp hle with hs | ⟨f, -, hname, hversion, hu⟩
  · exact hs
  · have hreached := hu.reached (by rw [hpc]; exact ⟨rfl, rfl⟩) hjobs
    exact hnoted p hp (secures_of_reached hreached hname hversion)

/-! ### Steps within a batch -/

structure Within (cfg : Config) (l : Journal) (a : SessionAct) (s : Session) (batch : List WireFile) : Prop where
  quiet : a.announces = []
  anchored : s.Anchored
  lastSequence : s.conn.lastSequence = l.session.conn.lastSequence
  idle : s.conn.index = .idle ↔ l.session.conn.index = .idle
  front : s.conn.index.front.Sublist l.session.conn.index.front
  jobs : ∀ name version, Tracked s.conn.jobs name version → Tracked l.session.conn.jobs name version ∨
    ∃ f ∈ l.session.conn.index.front, f.name = name ∧ f.version = version
  contests : ∀ f ∈ l.session.contests a, f ∈ l.session.conn.index.front ∧ s.conn.index.disputed = some f
  disputed : ∀ f, s.conn.index.disputed = some f →
    l.session.conn.index.disputed = some f ∨ f ∈ l.session.contests a
  files : ∀ asked, ∀ f ∈ batch, Underway cfg.epoch l.session.conn (fun f => f ∈ l.contested) asked f →
    Underway cfg.epoch s.conn (fun f => f ∈ l.contested) asked f ∨
      Reached s.conn.store.db (asked ∉ l.contested) f

lemma Works.within (hw : Works cfg l batch) (h : Within cfg l a s batch) : Works cfg (l.next a s) batch := by
  have hann : (l.next a s).announced = l.announced := by
    show a.announces ++ l.announced = _
    rw [h.quiet, nil_append]
  have hcontested : ∀ f, f ∈ (l.next a s).contested ↔ f ∈ l.session.contests a ∨ f ∈ l.contested :=
    fun f => mem_append
  refine ⟨h.anchored, hw.paths, ?_, fun f hf => hw.front f (h.front.subset hf), ?_, ?_, ?_, ?_, ?_, ?_⟩
  · exact hw.distinct.sublist (h.front.map _)
  · intro name version ht
    rcases h.jobs name version ht with ht | ⟨f, hf, hname, hversion⟩
    · exact hw.jobs name version ht
    · exact ⟨f, hw.front f hf, hname, hversion⟩
  · intro f hf
    rw [hann]
    show (f, s.conn.lastSequence) ∈ _
    rw [h.lastSequence]
    exact hw.announced f hf
  · intro f hf
    rw [hcontested]
    rcases h.disputed f hf with hd | hc
    · exact .inr (hw.disputed f hd)
    · exact .inl hc
  · intro f hf
    rcases (hcontested f).1 hf with hc | hc
    · exact .inr (hw.front f (h.contests f hc).1)
    · exact (hw.contested f hc).imp_left secured_next
  · exact fun hidle => hw.idle (h.idle.1 hidle)
  · intro hidle p hp hle
    have hidle' : l.session.conn.index ≠ .idle := fun he => hidle (h.idle.2 he)
    have hle' : p.2 ≤ l.session.conn.lastSequence := by
      rw [← h.lastSequence]
      exact hle
    rcases hw.files hidle' p (hann ▸ hp) hle' with hs | ⟨f, hf, hname, hversion, hu⟩
    · exact .inl (secured_next hs)
    · -- a file that comes into a conflict now is the only one of its path
      have hcalm : p.1 ∉ l.contested → p.1 ∉ (l.next a s).contested ∨ s.conn.index.disputed = some f := by
        intro hc
        by_cases hnew : p.1 ∈ l.session.contests a
        · obtain ⟨hfront, hdisputed⟩ := h.contests p.1 hnew
          have heq : p.1 = f := hw.paths p.1 (hw.front p.1 hfront) f hf (by rw [hname])
          exact .inr (heq ▸ hdisputed)
        · exact .inl fun hmem => ((hcontested p.1).1 hmem).elim hnew hc
      rcases Underway.grow (fun f => f ∈ (l.next a s).contested)
        (fun f hf => (hcontested f).2 (.inr hf)) hcalm (h.files p.1 f hf hu) with hu' | hreached
      · exact .inr ⟨f, hf, hname, hversion, hu'⟩
      · exact .inl (noted_next hp (secures_of_reached hreached hname hversion))

variable {pc : IndexPc} {c : Conn}

lemma Session.Anchored.restart {broken : Bool} (h : s.Anchored)
    (hpc : IndexPc.restart s.resolving broken s.conn.index = some pc) :
    pc.front = s.conn.index.front ∧ (∀ f ∈ s.conn.index.ahead, f ∈ pc.ahead) ∧
      pc.disputed = s.conn.index.disputed ∧ pc.jobs = s.conn.index.jobs ∧ pc.Between ∧
      (pc = .idle ↔ s.conn.index = .idle) ∧ (pc.resolves = true → pc = s.resolving) := by
  have hresolving : s.conn.index.resolves = true → pc = s.resolving →
      pc.front = s.conn.index.front ∧ (∀ f ∈ s.conn.index.ahead, f ∈ pc.ahead) ∧
      pc.disputed = s.conn.index.disputed ∧ pc.jobs = s.conn.index.jobs ∧ pc.Between ∧
      (pc = .idle ↔ s.conn.index = .idle) ∧ (pc.resolves = true → pc = s.resolving) := by
    rintro hr rfl
    obtain ⟨hres, hplace, hjobs⟩ := h.resolving hr
    have hne : ∀ {pc : IndexPc}, pc.resolves = true → pc ≠ .idle := by
      rintro _ hr rfl
      cases hr
    refine ⟨hplace.front.symm, fun f hf => by rwa [← hplace.ahead], hplace.disputed.symm, hjobs.symm, ?_,
      ⟨fun he => absurd he (hne hres), fun he => absurd he (hne hr)⟩, fun _ => rfl⟩
    cases hr' : s.resolving with
    | notify => rw [hr'] at hres; cases hres
    | _ => trivial
  unfold IndexPc.restart at hpc
  split at hpc
  · next heq =>
    cases hpc
    rw [heq]
    exact ⟨rfl, fun _ hf => hf, rfl, rfl, trivial, by simp, by rintro ⟨⟩⟩
  · next file step todo needed heq =>
    cases hpc
    rw [heq]
    refine ⟨rfl, fun f hf => ?_, rfl, rfl, trivial, by simp, by rintro ⟨⟩⟩
    cases step with
    | noAction => exact mem_cons_of_mem _ hf
    | _ => exact hf
  · next heq => exact hresolving (by rw [heq]; rfl) (Option.some.inj hpc).symm
  · next heq => exact hresolving (by rw [heq]; rfl) (Option.some.inj hpc).symm
  · next heq =>
    split_ifs at hpc
    cases hpc
    rw [heq]
    exact ⟨rfl, fun _ hf => hf, rfl, rfl, trivial, by simp, by rintro ⟨⟩⟩
  · next heq =>
    cases hpc
    rw [heq]
    exact ⟨rfl, fun _ hf => hf, rfl, rfl, trivial, by simp, by rintro ⟨⟩⟩
  · next heq =>
    cases hpc
    rw [heq]
    exact ⟨rfl, fun _ hf => hf, rfl, rfl, trivial, by simp, by rintro ⟨⟩⟩
  · cases hpc

lemma Session.indexStep_of_up (hup : s.conn.shutdown = false) (h : s.indexStep cfg = some c) :
    s.conn.indexStep cfg = some c := by
  obtain ⟨seen, left, c₁, hc, rfl, hmask⟩ := Session.indexStep_eq_some h
  obtain ⟨rfl, rfl⟩ := hmask hup
  have hconn : { s.conn with shutdown := false } = s.conn := by rw [← hup]
  rw [hconn] at hc
  exact hc

lemma calls_copy (hg : l.calls cfg = true) {loser : WireFile} {name : Str}
    (hd : l.session.conn.index.doing = .copy loser name) :
    ∀ f ∈ l.contested, splitName name ≠ splitName f.name := by
  unfold Journal.calls at hg
  generalize l.session.conn.index = pc at hg hd
  cases pc with
  | copy =>
    cases hd
    simpa only [all_eq_true, decide_eq_true_eq] using hg
  | perform f step => cases step <;> cases hd
  | request f blocks => cases blocks <;> cases hd
  | _ => cases hd

lemma calls_winner (hg : l.calls cfg = true) (hd : l.session.conn.index.doing = .winner file)
    (hlive : file.deleted = false) : entryAt l.db (inboxKey cfg.epoch file.name) = none ∨
      ∀ hash, ¬ Lacks (withPointers file.toStored (entryAt l.db (fileKey file.name))) hash := by
  unfold Journal.calls at hg
  generalize l.session.conn.index = pc at hg hd
  cases pc with
  | winner =>
    cases hd
    simp only [hlive, Bool.false_or, Bool.or_eq_true, Option.isNone_iff_eq_none] at hg
    exact hg.imp_right fun hall _ => not_lacks_of_all hall
  | perform f step => cases step <;> cases hd
  | request f blocks => cases blocks <;> cases hd
  | _ => cases hd

lemma IndexPc.doing_ne_reconnect (pc : IndexPc) : pc.doing ≠ .reconnect := by
  cases pc with
  | perform f step => cases step <;> rintro ⟨⟩
  | request f blocks => cases blocks <;> rintro ⟨⟩
  | _ => rintro ⟨⟩

lemma MsgPc.doing_ne_reconnect (pc : MsgPc) : pc.doing ≠ .reconnect := by
  cases pc <;> rintro ⟨⟩

/-- **A step of the index loop** before `set_remote_state`. -/
lemma Works.index_within (hw : Works cfg l batch) (hg : l.calls cfg = true)
    (hstep : l.session.conn.indexStep cfg = some c) (hup : c.shutdown = false)
    (hpc : l.session.conn.index ≠ .record) :
    Within cfg l (.act .indexStep) { l.session with conn := c, retrying := false } batch := by
  have hmoves := indexStep_moves hstep
  have hturns := indexStep_turns hw.anchored.between hstep
  have hfollows := indexStep_follows hw.anchored.between hstep
  have hd := l.session.conn.index.doing_ne_reconnect
  refine ⟨rfl, ⟨hfollows.between, fun hres => ?_⟩, (indexStep_framed hpc hstep).lastSequence, ?_,
    hturns.front_sublist hup, fun name version ht => ?_, fun f hf => contests_disputed hf hstep,
    fun f hf => ?_, fun asked f hf hu => ?_⟩
  · obtain ⟨hbefore, hplace, hjobs⟩ := hfollows.resolves hres
    obtain ⟨hr, hplace', hjobs'⟩ := hw.anchored.resolving hbefore
    refine ⟨hr, ⟨?_, ?_, ?_⟩, hjobs.trans hjobs'⟩
    · exact hplace.front.trans hplace'.front
    · exact hplace.ahead.trans hplace'.ahead
    · exact hplace.disputed.trans hplace'.disputed
  · refine ⟨fun he => absurd he (hfollows.busy hpc), fun he => ?_⟩
    simp [Conn.indexStep, he] at hstep
  · rcases hmoves.tracked hup hd ht with ht | ⟨f, hf, hname, hversion⟩
    · exact .inl ht
    · refine .inr ⟨f, hturns.mem_front (not_failed hup) ?_, hname, hversion⟩
      exact hf.imp_right .inr
  · have hf : c.index.disputed = some f := hf
    generalize l.session.conn.index.doing = d at hturns
    cases hturns with
    | on _ _ _ hplace => exact .inl (hplace.disputed ▸ hf)
    | skip _ _ heq | pass _ _ heq => exact .inl (heq ▸ hf)
    | stage hleaves | commit hleaves => exact .inl (hleaves.disputed ▸ hf)
    | dispute _ _ _ hdisputed hcontests =>
      rw [hdisputed] at hf
      cases hf
      exact .inr hcontests
    | win _ _ _ hnone =>
      rw [hnone] at hf
      cases hf
    | fail _ hdown =>
      rw [hdown] at hup
      cases hup
  · refine Underway.step hmoves hturns hd hup hf hw.jobs hw.paths hw.distinct
      hw.disputed (fun f hf hlive => calls_winner hg hf hlive) (fun f hf loser name hd => ?_) hu
    exact calls_copy hg hd f hf

/-- **A step aside** of the index loop. -/
lemma Works.aside_within (hw : Works cfg l batch) {d : Doing} (haside : Aside l.session.conn c d)
    (hmoves : Moves cfg.epoch l.session.conn c d) (hd : d ≠ .reconnect) (hup : c.shutdown = false)
    (ha : a.announces = [] ∧ l.session.contests a = []) (hconn : s.conn = c)
    (hanchored : s.Anchored) : Within cfg l a s batch := by
  subst hconn
  refine ⟨ha.1, hanchored, haside.framed.lastSequence, haside.idle, ?_, fun name version ht => ?_, ?_, ?_,
    fun asked f hf hu => ?_⟩
  · rw [haside.place.front]
  · rcases hmoves.tracked hup hd ht with ht | ⟨f, hf, -⟩
    · exact .inl ht
    · have hav := haside.avoids (splitName f.name)
      rcases hf with hf | hf
      · exact absurd rfl (hav.stage f hf)
      · exact absurd rfl (hav.winner f hf)
  · intro f hf
    rw [ha.2] at hf
    cases hf
  · intro f hf
    rw [haside.place.disputed] at hf
    exact .inl hf
  · refine Underway.step hmoves haside.turns hd hup hf hw.jobs hw.paths hw.distinct hw.disputed
      (fun f hf => absurd rfl ((haside.avoids (splitName f.name)).winner f hf))
      (fun f _ loser name hd => (haside.avoids (splitName f.name)).copy loser name hd) hu

/-- **A call that is made again**: the loops are where they were, and the entries are as a step of one of them
leaves them. -/
lemma Within.again {c₁ : Conn} {d : Doing} (hmoves : Moves cfg.epoch l.session.conn c₁ d)
    (ha : a.announces = [] ∧ l.session.contests a = [])
    (hav : ∀ f, l.session.conn.index.Free (splitName f.name) →
      (∀ g, d = .stage g → splitName g.name ≠ splitName f.name) ∧
        (f ∈ l.contested → d.Avoids (splitName f.name))) (hfront : pc.front = l.session.conn.index.front)
    (hahead : ∀ f ∈ l.session.conn.index.ahead, f ∈ pc.ahead)
    (hdisputed : pc.disputed = l.session.conn.index.disputed) (hjobs : pc.jobs = l.session.conn.index.jobs)
    (hidle : pc = .idle ↔ l.session.conn.index = .idle)
    (hconn : s.conn = { l.session.conn with store := c₁.store, index := pc }) (hanchored : s.Anchored) :
    Within cfg l a s batch := by
  have hall : s.conn.jobs = l.session.conn.jobs := by
    rw [hconn, Conn.jobs, Conn.inHand, Conn.jobs, Conn.inHand, hjobs]
    rfl
  have hindex : s.conn.index = pc := by rw [hconn]
  refine ⟨ha.1, hanchored, by rw [hconn], by rw [hindex, hidle], by rw [hindex, hfront], ?_, ?_, ?_, ?_⟩
  · intro name version ht
    rw [hall] at ht
    exact .inl ht
  · intro f hf
    rw [ha.2] at hf
    cases hf
  · intro f hf
    rw [hindex, hdisputed] at hf
    exact .inl hf
  · intro asked f _ hu
    refine Underway.late hmoves (by rw [hconn]) hall (by rw [hindex, hfront]) ?_
      (by rw [hindex, hdisputed]) (hav f) hu
    rw [hindex]
    exact hahead

lemma moves_refl {epoch : Epoch} : Moves epoch c c .other :=
  .same SameEntries.refl ⟨rfl, Carried.refl, fun _ hp => .inr hp⟩ (by rintro _ ⟨⟩)

lemma shutdown_step (hs : s.step cfg a = some s') (ha : a ≠ .act .reconnect) (hup : s'.conn.shutdown = false) :
    s.conn.shutdown = false := by
  cases Session.step_takes hs with
  | @index c hc heq =>
    subst heq
    unfold Session.indexStep at hc
    split_ifs at hc
    · obtain ⟨c₁, -, rfl⟩ := Option.map_eq_some_iff.1 hc
      exact (Bool.or_eq_false_iff.1 hup).1
    · exact (indexStep_moves hc).up (IndexPc.doing_ne_reconnect _) hup
  | @resolve remoteWins loserPath c hc heq =>
    subst heq
    have hc : s.conn.step cfg (.resolve remoteWins loserPath) = some c := hc
    exact (step_moves hc).up (by rintro ⟨⟩) hup
  | reconnect => exact absurd rfl ha
  | @plain act c hc heq h₁ _ h₃ =>
    subst heq
    refine (step_moves hc).up ?_ hup
    cases act with
    | indexStep => exact absurd rfl h₁
    | reconnect => exact absurd rfl h₃
    | msgStep => exact MsgPc.doing_ne_reconnect _
    | _ => rintro ⟨⟩
  | early _ heq | late _ _ _ heq | msgEarly _ heq | msgLate _ _ _ heq =>
    subst heq
    exact hup

lemma Works.begin (hw : Works cfg l batch) {files : List WireFile} {last : ℤ}
    (hp : l.resumes cfg (.act (.index files last)) = true) (hg : l.awaits cfg (.act (.index files last)) = true)
    (hpc : l.session.conn.index = .idle) (hs : s = { l.session with conn :=
      { l.session.conn with index := .apply files [], lastSequence := last } }) :
    Works cfg (l.next (.act (.index files last)) s) files := by
  have hbatch := hw.idle hpc
  subst hbatch
  have hsecured : ∀ f ∈ l.contested, f ∈ l.secured := fun f hf =>
    (hw.contested f hf).resolve_right not_mem_nil
  have hnodup : (files.map fun file => splitName file.name).Nodup := of_decide_eq_true hg
  have hindex : s.conn.index = .apply files [] := by rw [hs]
  have hlast : s.conn.lastSequence = last := by rw [hs]
  have hjobs : s.conn.jobs = l.session.conn.jobs := by
    rw [hs, Conn.jobs, Conn.inHand, Conn.jobs, Conn.inHand, hpc]
    rfl
  refine ⟨⟨?_, ?_⟩, fun f hf g hg hpath => inj_on_of_nodup_map hnodup hf hg hpath, ?_, ?_, ?_, ?_, ?_, ?_,
    ?_, ?_⟩
  · show s.conn.index.Between
    rw [hindex]
    trivial
  · show s.conn.index.resolves = true → _
    rw [hindex]
    rintro ⟨⟩
  · show s.conn.index.Distinct
    rw [hindex]
    exact hnodup
  · show ∀ f ∈ s.conn.index.front, f ∈ files
    rw [hindex]
    exact fun f hf => hf
  · intro name version ht
    have ht : Tracked s.conn.jobs name version := ht
    rw [hjobs] at ht
    obtain ⟨f, hf, -⟩ := hw.jobs name version ht
    cases hf
  · intro f hf
    show (f, s.conn.lastSequence) ∈ _
    rw [hlast]
    exact mem_append_left _ (mem_map.2 ⟨f, hf, rfl⟩)
  · show ∀ f, s.conn.index.disputed = some f → _
    rw [hindex]
    rintro f ⟨⟩
  · exact fun f hf => .inl (secured_next (hsecured f hf))
  · show s.conn.index = .idle → _
    rw [hindex]
    rintro ⟨⟩
  · intro _ p hp' hle
    have hle : p.2 ≤ s.conn.lastSequence := hle
    rw [hlast] at hle
    by_cases hsec : p.1 ∈ l.secured
    · exact .inl (secured_next hsec)
    have hcalm : p.1 ∉ l.contested := fun hc => hsec (hsecured p.1 hc)
    have hahead : ∀ f ∈ files, Underway cfg.epoch s.conn (fun f => f ∈ l.contested) p.1 f := by
      intro f hf
      refine .ahead hcalm ?_
      rw [hindex]
      exact hf
    rcases mem_append.1 hp' with hnew | hold
    · obtain ⟨f, hf, rfl⟩ := mem_map.1 hnew
      exact .inr ⟨f, hf, rfl, notNewer_refl, hahead f hf⟩
    · simp only [Journal.resumes, Bool.and_eq_true, all_eq_true, Bool.or_eq_true, decide_eq_true_eq,
        any_eq_true] at hp
      rcases hp.2 p hold with (hlt | hs) | ⟨f, hf, hname, hversion⟩
      · omega
      · exact absurd hs hsec
      · exact .inr ⟨f, hf, hname, hversion, hahead f hf⟩

lemma works_idle (hidle : l.session.conn.index = .idle) (hjobs : l.session.conn.jobs = [])
    (hsecured : ∀ f ∈ l.contested, f ∈ l.secured) : Works cfg l [] := by
  refine ⟨⟨?_, ?_⟩, ?_, ?_, ?_, ?_, ?_, ?_, fun f hf => .inl (hsecured f hf), fun _ => rfl,
    fun hne => absurd hidle hne⟩
  · rw [hidle]
    trivial
  · rw [hidle]
    rintro ⟨⟩
  · rintro f ⟨⟩
  · rw [IndexPc.Distinct, hidle]
    exact nodup_nil
  · rw [hidle]
    rintro f ⟨⟩
  · intro name version ht
    rw [hjobs] at ht
    exact absurd ht tracked_nil
  · rintro f ⟨⟩
  · rw [hidle]
    rintro f ⟨⟩

lemma calls_record (hg : l.calls cfg = true) (hpc : l.session.conn.index = .record) :
    l.session.conn.shutdown = false ∧ l.session.conn.jobs = [] := by
  simpa only [Journal.calls, hpc, Bool.and_eq_true, Bool.not_eq_true', decide_eq_true_eq] using hg

lemma Works.finish (hw : Works cfg l batch) (hnoted : ∀ p ∈ l.announced, l.secures p.1 = true → p.1 ∈ l.secured)
    (hg : l.calls cfg = true) (hpc : l.session.conn.index = .record)
    (hstep : l.session.conn.indexStep cfg = some c) :
    Works cfg (l.next (.act .indexStep) { l.session with conn := c, retrying := false }) [] := by
  obtain ⟨-, hjobs⟩ := calls_record hg hpc
  have hall := hw.all_secured hnoted hpc hjobs
  simp only [Conn.indexStep, hpc] at hstep
  cases hstep
  refine works_idle rfl ?_ fun f hf => ?_
  · rw [← hjobs, Conn.jobs, Conn.inHand, Conn.jobs, Conn.inHand, hpc]
    rfl
  · have hcontests : l.session.contests (.act .indexStep) = [] := by
      rw [Session.contests, hpc]
      rfl
    have hf : f ∈ l.session.contests (.act .indexStep) ++ l.contested := hf
    rw [hcontests, nil_append] at hf
    rcases hw.contested f hf with hs | hb
    · exact secured_next hs
    · exact secured_next (hall _ (hw.announced f hb) le_rfl)

lemma Session.Anchored.again (h : s.Anchored) {broken : Bool} {store : Store}
    (hpc : IndexPc.restart s.resolving broken s.conn.index = some pc) :
    Session.Anchored { s with conn := { s.conn with store := store, index := pc }, retrying := true } := by
  obtain ⟨-, -, -, -, hbetween, -, hres⟩ := h.restart hpc
  refine ⟨hbetween, fun hr => ?_⟩
  have hpc' : pc = s.resolving := hres hr
  refine ⟨hpc' ▸ hr, ?_, ?_⟩
  · rw [hpc']
    exact .refl
  · show pc.jobs = s.resolving.jobs
    rw [hpc']

lemma Works.plain (hw : Works cfg l batch) {act : Act} (hp : l.resumes cfg (.act act) = true)
    (hg : l.awaits cfg (.act act) = true) (hc : l.session.conn.step cfg act = some c) (h₁ : act ≠ .indexStep)
    (h₂ : ∀ w p, act ≠ .resolve w p) (h₃ : act ≠ .reconnect) (hup : c.shutdown = false) :
    ∃ batch, Works cfg (l.next (.act act) { l.session with conn := c }) batch := by
  have hstays : c.index = l.session.conn.index → Session.Anchored { l.session with conn := c } := by
    intro hi
    refine ⟨?_, ?_⟩
    · show c.index.Between
      rw [hi]
      exact hw.anchored.between
    · show c.index.resolves = true → _
      rw [hi]
      exact hw.anchored.resolving
  cases act with
  | indexStep => exact absurd rfl h₁
  | resolve w p => exact absurd rfl (h₂ w p)
  | reconnect => exact absurd rfl h₃
  | index files =>
    simp only [Conn.step] at hc
    split at hc
    · next hpc =>
      cases hc
      exact ⟨files, hw.begin hp hg hpc rfl⟩
    · cases hc
  | response id code data =>
    have hmoves := step_moves hc
    simp only [Conn.step] at hc
    split at hc
    · cases hc
      refine ⟨batch, hw.within (hw.aside_within (response_aside id code data) hmoves (by rintro ⟨⟩) hup
        ⟨rfl, rfl⟩ rfl (hstays (response_plain _ id code data).1))⟩
    · cases hc
  | msgStep =>
    exact ⟨batch, hw.within (hw.aside_within (msgStep_aside hc) (msgStep_moves hc)
      (MsgPc.doing_ne_reconnect _) hup ⟨rfl, rfl⟩ rfl (hstays (msgStep_framed hc).2))⟩
  | shutdown | failIndex | failMsg =>
    cases hc
    cases hup

/-- **Every step** of a connection that goes on. -/
lemma works_step (h : Sound cfg l) (hp : l.resumes cfg a = true) (hg : l.awaits cfg a = true)
    (hs : l.session.step cfg a = some s) (hup : s.conn.shutdown = false) :
    ∃ batch, Works cfg (l.next a s) batch := by
  by_cases ha : a = .act .reconnect
  · subst ha
    cases hs
    simp only [Journal.awaits, all_eq_true, decide_eq_true_eq] at hg
    exact ⟨[], works_idle rfl rfl fun f hf => secured_next (hg f hf)⟩
  have hbefore := shutdown_step hs ha hup
  obtain ⟨batch, hw⟩ := h.works hbefore
  cases Session.step_takes hs with
  | index hc heq =>
    subst heq
    have hc := Session.indexStep_of_up hbefore hc
    by_cases hpc : l.session.conn.index = .record
    · exact ⟨[], hw.finish h.noted hg hpc hc⟩
    · exact ⟨batch, hw.within (hw.index_within hg hc hup hpc)⟩
  | @resolve remoteWins loserPath c hc heq =>
    subst heq
    have hwins : remoteWins = true := hg
    subst hwins
    have hact : l.session.conn.step cfg (.resolve true loserPath) = some c := hc
    obtain ⟨haside, hresolves⟩ := resolve_aside hc
    refine ⟨batch, hw.within (hw.aside_within haside (step_moves hact) (by rintro ⟨⟩) hup
      ⟨rfl, rfl⟩ rfl ?_)⟩
    refine ⟨?_, fun _ => ⟨hresolves, .refl, rfl⟩⟩
    show c.index.Between
    cases hpc : c.index with
    | notify => rw [hpc] at hresolves; cases hresolves
    | _ => trivial
  | reconnect => exact absurd rfl ha
  | plain hc heq h₁ h₂ h₃ =>
    subst heq
    exact hw.plain hp hg hc h₁ h₂ h₃ hup
  | @early pc hpc heq =>
    subst heq
    obtain ⟨hfront, hahead, hdisputed, hjobs, -, hidle, -⟩ := hw.anchored.restart hpc
    exact ⟨batch, hw.within (.again moves_refl ⟨rfl, rfl⟩
      (fun f _ => ⟨(Doing.avoids_other _).stage, fun _ => Doing.avoids_other _⟩) hfront hahead hdisputed hjobs
      hidle rfl (hw.anchored.again hpc))⟩
  | @late c pc hc hlive hpc heq =>
    subst heq
    have hc := Session.indexStep_of_up hbefore hc
    have hturns := indexStep_turns hw.anchored.between hc
    have hnot : ¬ (c.index = .stopped ∧ c.shutdown = true) := fun hn => hlive hn.1
    obtain ⟨hfront, hahead, hdisputed, hjobs, -, hidle, -⟩ := hw.anchored.restart hpc
    refine ⟨batch, hw.within (.again (indexStep_moves hc) ⟨rfl, rfl⟩ (fun f hfree => ?_) hfront hahead hdisputed
      hjobs hidle rfl (hw.anchored.again hpc))⟩
    refine ⟨fun g hd => hfree g (hturns.mem_front hnot (.inl hd)), fun hf => hturns.avoids hnot hfree ?_⟩
    exact fun loser name hd => calls_copy hg hd f hf
  | msgEarly _ heq =>
    subst heq
    exact ⟨batch, hw.within (.again moves_refl ⟨rfl, rfl⟩
      (fun f _ => ⟨(Doing.avoids_other _).stage, fun _ => Doing.avoids_other _⟩) rfl (fun _ hf => hf) rfl rfl
      Iff.rfl rfl hw.anchored)⟩
  | msgLate _ hc _ heq =>
    subst heq
    have hav := MsgPc.doing_avoids l.session.conn.msg
    exact ⟨batch, hw.within (.again (msgStep_moves hc) ⟨rfl, rfl⟩
      (fun f _ => ⟨(hav _).stage, fun _ => hav _⟩) rfl (fun _ hf => hf) rfl rfl
      Iff.rfl rfl ⟨hw.anchored.between, hw.anchored.resolving⟩)⟩

/-! ### The cursor -/

lemma cursor_of_peers (h : s.conn.store.db.get (.md cfg.device) = l.db.get (.md cfg.device)) :
    (l.next a s).cursor cfg = l.cursor cfg := by
  show (match s.conn.store.db.get (.md cfg.device) with
    | some (.remote state) => some state.maxSequence
    | _ => none) = _
  rw [h]
  rfl

lemma Session.indexStep_peers (hpc : s.conn.index ≠ .record) (h : s.indexStep cfg = some c)
    (device : Bytes32) : c.store.db.get (.md device) = s.conn.store.db.get (.md device) := by
  obtain ⟨seen, left, c₁, hc, rfl, -⟩ := Session.indexStep_eq_some h
  exact (indexStep_framed (c := { s.conn with shutdown := seen }) hpc hc).peers device

lemma Session.indexStep_record (hpc : s.conn.index = .record) (h : s.indexStep cfg = some c) :
    c.store.db.get (.md cfg.device) = some (.remote ⟨cfg.indexId, s.conn.lastSequence⟩) := by
  obtain ⟨seen, left, c₁, hc, rfl, -⟩ := Session.indexStep_eq_some h
  simp only [Conn.indexStep, hpc] at hc
  cases hc
  show (s.conn.store.db.write _).get _ = _
  rw [Db.get_write]
  simp [lastOp, BatchOp.key]

/-- **The stored cursor** changes only by `set_remote_state`, to the `last_sequence` of the batch at work. -/
lemma cursor_step (hs : l.session.step cfg a = some s) : (l.next a s).cursor cfg = l.cursor cfg ∨
    l.session.conn.index = .record ∧ (a = .act .indexStep ∨ a = .retryIndex true) ∧
      (l.next a s).cursor cfg = some l.session.conn.lastSequence := by
  have hwritten : ∀ {c : Conn}, l.session.conn.index = .record → l.session.indexStep cfg = some c →
      s.conn.store = c.store → (l.next a s).cursor cfg = some l.session.conn.lastSequence := by
    intro c hpc hc hstore
    show (match s.conn.store.db.get (.md cfg.device) with
      | some (.remote state) => some state.maxSequence
      | _ => none) = _
    rw [hstore, Session.indexStep_record hpc hc]
  cases Session.step_takes hs with
  | index hc heq =>
    subst heq
    by_cases hpc : l.session.conn.index = .record
    · exact .inr ⟨hpc, .inl rfl, hwritten hpc hc rfl⟩
    · exact .inl (cursor_of_peers (Session.indexStep_peers hpc hc _))
  | @resolve remoteWins loserPath c hc heq =>
    subst heq
    refine .inl (cursor_of_peers ?_)
    show c.store.db.get _ = _
    unfold Conn.resolve at hc
    split at hc
    · cases loserPath <;> cases hc <;> rfl
    · cases hc
  | reconnect heq | early _ heq | msgEarly _ heq =>
    subst heq
    exact .inl (cursor_of_peers rfl)
  | @plain act c hc heq h₁ h₂ h₃ =>
    subst heq
    refine .inl (cursor_of_peers ?_)
    show c.store.db.get _ = _
    cases act with
    | indexStep => exact absurd rfl h₁
    | resolve w p => exact absurd rfl (h₂ w p)
    | reconnect => exact absurd rfl h₃
    | index =>
      simp only [Conn.step] at hc
      split at hc
      · cases hc
        rfl
      · cases hc
    | response id code data =>
      simp only [Conn.step] at hc
      split at hc
      · cases hc
        exact (response_aside id code data).framed.peers _
      · cases hc
    | msgStep => exact (msgStep_framed hc).1.peers _
    | _ =>
      cases hc
      rfl
  | late hc _ _ heq =>
    subst heq
    by_cases hpc : l.session.conn.index = .record
    · exact .inr ⟨hpc, .inr rfl, hwritten hpc hc rfl⟩
    · exact .inl (cursor_of_peers (Session.indexStep_peers hpc hc _))
  | msgLate _ hc _ heq =>
    subst heq
    exact .inl (cursor_of_peers ((msgStep_framed hc).1.peers _))

lemma announces_secured (hp : l.resumes cfg a = true) (hs : l.session.step cfg a = some s) {m : ℤ}
    (hm : l.cursor cfg = some m) {p : WireFile × ℤ} (hmem : p ∈ a.announces) (hle : p.2 ≤ m) :
    p.1 ∈ (l.next a s).secured := by
  unfold SessionAct.announces at hmem
  split at hmem
  · next files last =>
    obtain ⟨file, hfile, rfl⟩ := mem_map.1 hmem
    simp only [Journal.resumes, hm, Option.all_some, Bool.and_eq_true, Bool.or_eq_true, decide_eq_true_eq,
      all_eq_true] at hp
    rcases hp.1 with hlt | hknown
    · omega
    · have hstore : s.conn.store = l.session.conn.store := by
        cases Session.step_takes hs with
        | plain hc heq =>
          subst heq
          simp only [Conn.step] at hc
          split at hc
          · cases hc
            rfl
          · cases hc
      refine noted_next (p := (file, last)) (mem_append_left _ hmem) ?_
      have hsec := hknown file hfile
      unfold Journal.secures Journal.db at hsec ⊢
      show (entryAt s.conn.store.db (fileKey file.name)).any _ = true
      rw [hstore]
      exact hsec
  · cases hmem

theorem Sound.step {l' : Journal} (h : Sound cfg l) (hp : l.resumes cfg a = true) (hg : l.awaits cfg a = true)
    (hs : l.step cfg a = some l') : Sound cfg l' := by
  obtain ⟨s, hs', rfl⟩ := Option.map_eq_some_iff.1 hs
  refine ⟨fun p hmem hsec => noted_next hmem hsec, fun m hm p hmem hle => ?_, works_step h hp hg hs'⟩
  rcases cursor_step hs' with hsame | ⟨hpc, ha, hrec⟩
  · rw [hsame] at hm
    rcases mem_append.1 hmem with hnew | hold
    · exact announces_secured hp hs' hm hnew hle
    · exact secured_next (h.behind m hm p hold hle)
  · -- the cursor is written when all files of the batch are secured
    rw [hrec] at hm
    cases hm
    have hcalls : l.calls cfg = true := by
      rcases ha with rfl | rfl <;> exact hg
    obtain ⟨hup, hjobs⟩ := calls_record hcalls hpc
    obtain ⟨batch, hw⟩ := h.works hup
    have hold : p ∈ l.announced := by
      rcases mem_append.1 hmem with hnew | hold
      · rcases ha with rfl | rfl <;> cases hnew
      · exact hold
    exact secured_next (hw.all_secured h.noted hpc hjobs p hold hle)

end Journal

/-! ### Runs -/

end Bepository.Sync
