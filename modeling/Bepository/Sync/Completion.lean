import Bepository.Sync.Jobs

/-!
# Completed files

A loop completes a file when it finds no request for it, pending or deferred.  The blocks in the hands
of the two loops are not looked at: those not yet submitted, those taken from the deferred requests and
those whose response is being stored.  If nothing of the file is in hand when the test passes, and the
file is not staged anew before `complete_file`, then every block is there (`completing_completable`);
`earlyResponse` is a run in which a response arrives between two submissions.
-/

namespace Bepository.Sync

open Lib Storage List

/-! ### The condition -/

/-- The condition on a step.  The test of `maybe_complete_file` passes for the version that is staged only
while the connection goes on and when no block of the file is to come, in any hands; a version with blocks is
not staged again while it is about to be completed; and a conflict's winner has the blocks that what is staged
as the same version lacks. -/
def Conn.orderly (epoch : Epoch) (c : Conn) (a : Act) : Bool :=
  match c.doing a with
  | .check name version => !c.shouldComplete name ||
      (entryAt c.store.db (inboxKey epoch name)).all fun staged => staged.version ≠ version ||
        (!c.shutdown && c.jobs.all fun j => j.hashes = [] || splitName j.name ≠ splitName name)
  | .stage file => file.blocks = [] ||
      c.completing.all fun p => splitName p.1 ≠ splitName file.name || p.2 ≠ file.version
  | .winner file => (entryAt c.store.db (inboxKey epoch file.name)).all fun staged =>
      staged.version ≠ file.version || file.deleted ||
        staged.blocks.all fun b => b.hasPointer || file.blocks.any fun b' => b'.hash = b.hash
  | _ => true

section Condition

variable {epoch : Epoch} {c : Conn} {a : Act} {staged : StoredFile} {hash : Bytes}

lemma orderly_check {name : Str} (h : c.orderly epoch a = true) (hd : c.doing a = .check name staged.version)
    (hpass : c.shouldComplete name = true) (hst : entryAt c.store.db (inboxKey epoch name) = some staged) :
    c.shutdown = false ∧ ¬ Wanted c.jobs (splitName name) hash := by
  simp only [Conn.orderly, hd, hpass, hst, Bool.not_true, Bool.false_or, Option.all_some, ne_eq, not_true_eq_false,
    decide_false, Bool.and_eq_true, Bool.not_eq_true', all_eq_true, Bool.or_eq_true, decide_eq_true_eq] at h
  refine ⟨h.1, ?_⟩
  rintro ⟨j, hj, hname, hmem⟩
  rcases h.2 j hj with hnil | hne
  · rw [hnil] at hmem
    cases hmem
  · exact hne hname

lemma orderly_stage {file : WireFile} (h : c.orderly epoch a = true) (hd : c.doing a = .stage file) {name : Str}
    (hc : (name, file.version) ∈ c.completing) (hname : splitName name = splitName file.name) :
    file.blocks = [] := by
  simp only [Conn.orderly, hd, all_eq_true, Bool.or_eq_true, decide_eq_true_eq] at h
  refine h.resolve_right fun hall => ?_
  rcases hall _ hc with hne | hne
  · exact absurd hname hne
  · exact absurd rfl hne

lemma orderly_winner {file : WireFile} (h : c.orderly epoch a = true) (hd : c.doing a = .winner file)
    (hs : entryAt c.store.db (inboxKey epoch file.name) = some staged) (hv : staged.version = file.version)
    (hlive : file.deleted = false) (hl : Lacks staged hash) : hash ∈ (wholeJob file).hashes := by
  obtain ⟨b, hb, hnone, rfl⟩ := hl
  simp only [Conn.orderly, hd, hs, Option.all_some, hv, hlive, ne_eq, not_true_eq_false, decide_false,
    Bool.or_false, Bool.false_or, all_eq_true, Bool.or_eq_true, any_eq_true, decide_eq_true_eq] at h
  obtain ⟨b', hb', he⟩ := (h b hb).resolve_left (by rw [hnone]; simp)
  exact mem_map.2 ⟨b', hb', he⟩

end Condition

/-! ### The invariant -/

/-- The blocks of a staged version that some job is about are there or wanted; those of a version about
to be completed are there. -/
structure Covered (epoch : Epoch) (c : Conn) : Prop where
  tracked : c.shutdown = false → ∀ name staged hash,
    entryAt c.store.db (inboxKey epoch name) = some staged → Tracked c.jobs name staged.version →
    Lacks staged hash → Wanted c.jobs (splitName name) hash
  completing : ∀ name staged hash, entryAt c.store.db (inboxKey epoch name) = some staged →
    (name, staged.version) ∈ c.completing → ¬ Lacks staged hash

section Steps

variable {cfg : Config} {epoch : Epoch} {c c' : Conn}

lemma Covered.of_staged (h : Covered epoch c)
    (hst : ∀ name staged, entryAt c'.store.db (inboxKey epoch name) = some staged →
      entryAt c.store.db (inboxKey epoch name) = some staged) (hgoes : c'.shutdown = false → GoesOn [] c c')
    (hc : ∀ p ∈ c'.completing, p ∈ c.completing) : Covered epoch c' := by
  refine ⟨fun hs name staged hash hentry ht hl => ?_, fun name staged hash hentry hmem => ?_⟩
  · have hg := hgoes hs
    have hw := h.tracked (hg.shutdown.symm.trans hs) name staged hash (hst _ _ hentry) (hg.tracked _ _ ht) hl
    exact (hg.keeps hs hw).resolve_right not_false
  · exact h.completing name staged hash (hst _ _ hentry) (hc _ hmem)

lemma Covered.stage (h : Covered epoch c) {file : WireFile}
    (hdb : c'.store.db = stageFile c.store.db epoch file) (hgoes : GoesOn [wholeJob file] c c')
    (hfresh : ∀ name, (name, file.version) ∈ c.completing → splitName name = splitName file.name →
      file.blocks = []) : Covered epoch c' := by
  refine ⟨fun hs name staged hash hentry ht hl => ?_, fun name staged hash hentry hmem => ?_⟩
  · have ht' := hgoes.tracked _ _ ht
    rw [hdb, stageFile_entries] at hentry
    refine (hgoes.keeps hs ?_).resolve_right not_false
    split_ifs at hentry with hk
    · -- the blocks of the staged version are those of the announced one
      cases hentry
      obtain ⟨b, hb, -, rfl⟩ := hl
      obtain ⟨b', hb', rfl⟩ := mem_map.1 hb
      have hname := inboxKey_inj.1 hk
      exact wanted_cons.2 (.inl ⟨hname.symm, mem_map.2 ⟨b', hb', rfl⟩⟩)
    · rcases tracked_cons.1 ht' with ⟨rfl, -⟩ | ht'
      · exact absurd rfl hk
      · exact wanted_cons.2 (.inr (h.tracked (hgoes.shutdown.symm.trans hs) _ _ _ hentry ht' hl))
  · have hmem' := hgoes.completing _ hmem
    rw [hdb, stageFile_entries] at hentry
    split_ifs at hentry with hk
    · cases hentry
      rintro ⟨b, hb, -⟩
      rw [FileInfo.toStored, hfresh _ hmem' (inboxKey_inj.1 hk)] at hb
      cases hb
    · exact h.completing name staged hash hentry hmem'

lemma Covered.provide (h : Covered epoch c) {name : Str} {hash : Bytes} {k₀ : Key} {fi fi' : StoredFile}
    (hp : Provided c.store.db c'.store.db epoch name hash k₀ fi fi')
    (hgoes : Goes [] [] (fun path hash' => path = splitName name ∧ hash' = hash) c c') : Covered epoch c' := by
  -- a block that is lacking was lacking before
  have hold : ∀ name' staged hash', entryAt c'.store.db (inboxKey epoch name') = some staged →
      Lacks staged hash' → ∃ staged₀, entryAt c.store.db (inboxKey epoch name') = some staged₀ ∧
        staged₀.version = staged.version ∧ Lacks staged₀ hash' ∧ (inboxKey epoch name' = k₀ → hash' ≠ hash) := by
    rintro name' staged hash' hentry ⟨b, hb, hnone, rfl⟩
    obtain ⟨staged₀, hentry₀, hver, -, hb₀, hne⟩ := hp.missing rfl hentry hb hnone
    exact ⟨staged₀, hentry₀, hver, ⟨b, hb₀, hnone, rfl⟩, hne⟩
  refine ⟨fun hs name' staged hash' hentry ht hl => ?_, fun name' staged hash' hentry hmem hl => ?_⟩
  · obtain ⟨staged₀, hentry₀, hver, hl₀, hne⟩ := hold _ _ _ hentry hl
    have ht₀ : Tracked c.jobs name' staged₀.version := by
      rw [hver]
      exact hgoes.tracked _ _ ht
    have hw := h.tracked (hgoes.shutdown.symm.trans hs) _ _ _ hentry₀ ht₀ hl₀
    rcases hgoes.keeps hs hw with hw | ⟨hname, rfl⟩
    · exact hw
    · -- the block would have gone to this entry
      have hkey : inboxKey epoch name' = inboxKey epoch name := by
        unfold inboxKey
        rw [hname]
      rcases hp.key with hk | ⟨-, hnone⟩
      · exact absurd rfl (hne (hkey.trans hk.symm))
      · rw [← hkey, hentry₀] at hnone
        cases hnone
  · obtain ⟨staged₀, hentry₀, hver, hl₀, -⟩ := hold _ _ _ hentry hl
    refine h.completing _ _ _ hentry₀ ?_ hl₀
    rw [hver]
    exact (hgoes.completing _ hmem).resolve_left (by rintro ⟨⟩)

lemma Covered.winner (h : Covered epoch c) {file : WireFile}
    (hrep : Replaced c.store.db c'.store.db file.name file.toStored fun _ => False)
    (hgoes : GoesOn (if file.deleted then [] else [wholeJob file]) c c')
    (hblocks : ∀ staged, entryAt c.store.db (inboxKey epoch file.name) = some staged →
      staged.version = file.version → file.deleted = false →
      ∀ hash, Lacks staged hash → hash ∈ (wholeJob file).hashes) : Covered epoch c' := by
  refine ⟨fun hs name staged hash hentry ht hl => ?_, fun name staged hash hentry hmem => ?_⟩
  · have hentry₀ := hrep.staged hentry
    have hold := h.tracked (hgoes.shutdown.symm.trans hs) name staged hash hentry₀
    refine (hgoes.keeps hs ?_).resolve_right not_false
    have ht' := hgoes.tracked _ _ ht
    split_ifs at ht' ⊢ with hd
    · exact hold ht' hl
    · rcases tracked_cons.1 ht' with ⟨rfl, hver⟩ | ht'
      · exact wanted_cons.2 (.inl ⟨rfl, hblocks _ hentry₀ hver.symm (Bool.eq_false_iff.2 hd) hash hl⟩)
      · exact wanted_cons.2 (.inr (hold ht' hl))
  · exact h.completing name staged hash (hrep.staged hentry) (hgoes.completing _ hmem)

theorem covered_step {a : Act} (h : Covered cfg.epoch c) (hg : c.orderly cfg.epoch a = true)
    (hs : c.step cfg a = some c') : Covered cfg.epoch c' := by
  have hmoves := step_moves hs
  generalize hd : c.doing a = d at hmoves
  cases hmoves with
  | same hentries hgoes | leave hentries hgoes | settled hentries hgoes =>
    exact h.of_staged (fun _ _ => hentries.staged) (fun _ => hgoes.goes) (GoesOn.completing hgoes.goes)
  | check hentries hpass htracked hgoes =>
    have hgoes := hgoes.goes
    refine ⟨fun hs' name staged hash hentry ht hl => ?_, fun name staged hash hentry hmem hl => ?_⟩
    · have hw := h.tracked (hgoes.shutdown.symm.trans hs') name staged hash (hentries.staged hentry)
        (hgoes.tracked _ _ ht) hl
      exact (hgoes.keeps hs' hw).resolve_right not_false
    · rcases hgoes.completing _ hmem with hnew | hold
      · cases mem_singleton.1 hnew
        obtain ⟨hshut, hnone⟩ := orderly_check hg hd hpass (hentries.staged hentry)
        exact hnone (h.tracked hshut _ staged hash (hentries.staged hentry) htracked hl)
      · exact h.completing name staged hash (hentries.staged hentry) hold hl
  | provide hprov hgoes => exact h.provide hprov hgoes.goes
  | stage hdb hgoes => exact h.stage hdb hgoes.goes fun _ => orderly_stage hg hd
  | commit hrep hgoes | copy hrep hgoes =>
    exact h.of_staged (fun _ _ => hrep.staged) (fun _ => hgoes.goes) (GoesOn.completing hgoes.goes)
  | winner hrep hgoes =>
    exact h.winner hrep hgoes.goes fun _ hst hv hl _ => orderly_winner hg hd hst hv hl
  | complete _ _ _ hrep hgoes hcompleting =>
    exact h.of_staged (fun _ _ => hrep.staged) (fun hup => (hgoes hup).goes) hcompleting
  | ending hentries hshut hcompleting =>
    refine h.of_staged (fun _ _ => hentries.staged) (fun hs' => ?_) hcompleting
    rw [hshut] at hs'
    cases hs'
  | reconnect hentries hjobs hcompleting =>
    refine ⟨fun _ _ _ _ _ ht => ?_, fun _ _ _ _ hmem => ?_⟩
    · rw [hjobs] at ht
      exact absurd ht tracked_nil
    · rw [hcompleting] at hmem
      cases hmem

end Steps

/-! ### Runs -/

lemma completable_of_not_lacks {staged : StoredFile} {old : Option StoredFile}
    (h : ∀ hash, ¬ Lacks staged hash) : completable staged old = true := by
  have hall : ∀ b ∈ staged.blocks, b.hasPointer = true := by
    intro b hb
    by_contra hp
    exact h b.hash ⟨b, hb, Bool.eq_false_iff.2 hp, rfl⟩
  unfold completable
  cases old with
  | none => exact all_eq_true.2 hall
  | some =>
    refine all_eq_true.2 fun b hb => ?_
    obtain ⟨b₀, hb₀, rfl⟩ := mem_map.1 hb
    rw [carryBlock, if_pos (hall b₀ hb₀)]
    exact hall b₀ hb₀

/-- **A file is completed only when all its blocks are there**, in every run under the condition: of
the version that is staged when `complete_file` is called, every block has a pointer. -/
theorem completing_completable {cfg : Config} {st : Store} {acts : List Act} {c : Conn}
    (hm : Meets (Conn.step cfg) (fun c a => c.orderly cfg.epoch a = true) (Conn.connect st) acts)
    (hr : run (Conn.step cfg) (Conn.connect st) acts = some c) {name : Str} {version : Option VersionVector}
    (hc : (name, version) ∈ c.completing) :
    (∀ staged, entryAt c.store.db (inboxKey cfg.epoch name) = some staged → staged.version = version →
      completable staged (entryAt c.store.db (fileKey name)) = true) ∧
    (completeFile c.store.db cfg.epoch name version).1 ≠ .error (incompleteError name) := by
  have hinit : Covered cfg.epoch (Conn.connect st) :=
    ⟨fun _ _ _ _ _ ht => absurd ht tracked_nil, fun _ _ _ _ hmem => absurd hmem not_mem_nil⟩
  have hcov : Covered cfg.epoch c :=
    run_inv (P := Covered cfg.epoch) (fun s a t hi hg hs => covered_step hi hg hs) hinit hm hr
  have hall : ∀ staged, entryAt c.store.db (inboxKey cfg.epoch name) = some staged →
      staged.version = version → completable staged (entryAt c.store.db (fileKey name)) = true := by
    rintro staged hst rfl
    exact completable_of_not_lacks fun hash => hcov.completing name staged hash hst hc
  refine ⟨hall, fun herr => ?_⟩
  obtain ⟨staged, hst, hv, hnot⟩ := completeFile_incomplete herr
  rw [hall staged hst hv] at hnot
  cases hnot

/-! ### A response between two submissions -/

/-- The file is staged and its first block is requested.  The peer answers before the second one is:
the block is stored, no request is left, and the file is to be completed. -/
def earlyResponse : List Act :=
  [.index [twoBlocks] 1, .indexStep, .indexStep, .indexStep, .indexStep, .indexStep,
    .response 0 0 [7], .msgStep, .msgStep, .msgStep]

/-- The second block is wanting, and `complete_file` fails. -/
theorem completing_incomplete :
    ∃ c staged, run (Conn.step sampleConfig) (Conn.connect Store.empty) earlyResponse = some c ∧
      (['f'], twoBlocks.version) ∈ c.completing ∧
      entryAt c.store.db (inboxKey firstEpoch ['f']) = some staged ∧
      staged.version = twoBlocks.version ∧
      completable staged (entryAt c.store.db (fileKey ['f'])) = false ∧
      (completeFile c.store.db firstEpoch ['f'] twoBlocks.version).1 = .error (incompleteError ['f']) := by
  simp only [exists_and_left]
  decide

def lateResponses : List Act :=
  [.index [twoBlocks] 1] ++ List.replicate 11 .indexStep ++
    [.response 1 0 [8], .msgStep, .msgStep, .msgStep, .response 0 0 [7], .msgStep, .msgStep, .msgStep]

/-- The second answer completes the file. -/
theorem completing_completable_twoBlocks :
    ∃ c staged, run (Conn.step sampleConfig) (Conn.connect Store.empty) lateResponses = some c ∧
      (['f'], twoBlocks.version) ∈ c.completing ∧
      entryAt c.store.db (inboxKey firstEpoch ['f']) = some staged ∧
      staged.version = twoBlocks.version ∧
      completable staged (entryAt c.store.db (fileKey ['f'])) = true := by
  obtain ⟨c, hr, staged, hst, hmem, hv⟩ : ∃ c, run (Conn.step sampleConfig) (Conn.connect Store.empty)
      lateResponses = some c ∧
      ∃ staged, entryAt c.store.db (inboxKey firstEpoch ['f']) = some staged ∧
        (['f'], twoBlocks.version) ∈ c.completing ∧ staged.version = twoBlocks.version := by
    decide
  exact ⟨c, staged, hr, hmem, hst, hv, (completing_completable (by decide) hr hmem).1 staged hst hv⟩

end Bepository.Sync
