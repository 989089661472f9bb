import Bepository.Sync.Jobs

/-!
# Committed files without their blocks

A conflict's winner is committed before its blocks are there, and its blocks are requested by the
connection that committed it.  The requests are lost with the connection, and when the peer announces
the same version again `apply_update` finds it committed and does nothing.  `committed_healed` says when
a committed file is not left without its blocks: if the connection ends only when all blocks of what is
committed are there, and no block that a committed file lacks goes to a version that is staged at its
name.  `lostRequest` is a run with a disconnect.
-/

namespace Bepository.Sync

open Lib Storage List

/-! ### The condition -/

def settled (fi : StoredFile) : Bool := fi.deleted || fi.blocks.all StoredBlock.hasPointer

def Conn.ends (cfg : Config) (c : Conn) (a : Act) : Bool :=
  c.doing a = .reconnect || (c.step cfg a).any fun c' => !c.shutdown && c'.shutdown

/-- The condition on a step.  The connection ends only when everything committed is settled; a block that
goes to a staged version is not one that the committed version lacks; the blocks of a metadata-only commit
are there or to come; a conflict's winner is committed while the connection goes on, unless its blocks are
there, and the blocks of its loser's copy are there. -/
def Conn.steady (cfg : Config) (c : Conn) (a : Act) : Bool :=
  (!c.ends cfg a || c.store.db.committed.all fun e => settled e.2) &&
  match c.doing a with
  | .provide name hash => (entryAt c.store.db (inboxKey cfg.epoch name)).isNone ||
      (entryAt c.store.db (fileKey name)).all fun fi =>
        fi.deleted || fi.blocks.all fun b => b.hasPointer || b.hash ≠ hash
  | .commit file => file.deleted ||
      (withPointers file.toStored (entryAt c.store.db (fileKey file.name))).blocks.all fun b => b.hasPointer ||
        (entryAt c.store.db (fileKey file.name)).any fun old => !old.deleted && old.blocks.any fun b' => b'.hash = b.hash
  | .winner file => file.deleted || !c.shutdown ||
      (withPointers file.toStored (entryAt c.store.db (fileKey file.name))).blocks.all StoredBlock.hasPointer
  | .copy loser path => loser.deleted ||
      (withPointers (withPointers (FileInfo.toStored { loser with name := path })
        (entryAt c.store.db (fileKey loser.name))) (entryAt c.store.db (fileKey path))).blocks.all
          StoredBlock.hasPointer
  | _ => true

/-! ### The invariant -/

def Missing (db : Db) (path : Path) (hash : Bytes) : Prop :=
  ∃ fi, entryAt db (.mn path) = some fi ∧ fi.deleted = false ∧ Lacks fi hash

def Asked (c : Conn) : Prop :=
  ∀ path hash, Missing c.store.db path hash → c.shutdown = false ∧ Wanted c.jobs path hash

section Steps

variable {cfg : Config} {epoch : Epoch} {c c' : Conn} {a : Act} {db db' : Db} {name : Str}
  {stored : StoredFile} {path : Path} {hash : Bytes}

lemma not_lacks_of_all {fi : StoredFile} (h : fi.blocks.all StoredBlock.hasPointer = true) :
    ¬ Lacks fi hash := by
  rintro ⟨b, hb, hnone, -⟩
  rw [all_eq_true.1 h b hb] at hnone
  cases hnone

lemma not_lacks_of_settled {fi : StoredFile} (h : settled fi = true) (hd : fi.deleted = false) :
    ¬ Lacks fi hash := by
  rw [settled, hd, Bool.false_or] at h
  exact not_lacks_of_all h

lemma settled_of_not_lacks {fi : StoredFile} (h : ∀ hash, ¬ Lacks fi hash) : settled fi = true := by
  rw [settled, Bool.or_eq_true]
  refine .inr (all_eq_true.2 fun b hb => ?_)
  by_contra hp
  exact h b.hash ⟨b, hb, Bool.eq_false_iff.2 hp, rfl⟩

lemma not_missing_of_ends (hg : c.steady cfg a = true) (he : c.ends cfg a = true) :
    ¬ Missing c.store.db path hash := by
  rintro ⟨fi, hfi, hd, hl⟩
  simp only [Conn.steady, he, Bool.and_eq_true, Bool.not_true, Bool.false_or, all_eq_true] at hg
  exact not_lacks_of_settled (hg.1 (path, fi) (mem_committed.2 (entryAt_eq_some.1 hfi))) hd hl

lemma missing_of_same (h : SameEntries db db') (hm : Missing db' path hash) : Missing db path hash := by
  obtain ⟨fi, hfi, hm⟩ := hm
  exact ⟨fi, by rwa [← h _ rfl], hm⟩

/-- **After a commit**, what is missing was missing before, at another name, or is missing in the entry
that was committed. -/
lemma missing_of_replaced {gone : Key → Prop} (h : Replaced db db' name stored gone)
    (hgone : ∀ path, ¬ gone (.mn path)) (hm : Missing db' path hash) :
    Missing db path hash ∨ path = splitName name ∧ stored.deleted = false ∧
      Lacks (withPointers stored (entryAt db (fileKey name))) hash := by
  obtain ⟨fi, hfi, hd, hl⟩ := hm
  obtain ⟨q, hq⟩ := h
  obtain ⟨hnew, -, hother⟩ := hq (.mn path) rfl
  by_cases hp : Key.mn path = fileKey name
  · rw [hnew hp] at hfi
    cases hfi
    exact .inr ⟨Key.mn.inj hp, deleted_withPointers.symm.trans hd, hl⟩
  · rw [hother hp (hgone path)] at hfi
    exact .inl ⟨fi, hfi, hd, hl⟩

lemma Asked.keep {new : List Job} {started : List (Str × Option VersionVector)} (h : Asked c)
    (hgoes : Goes new started (fun _ _ => False) c c') (hm : Missing c.store.db path hash) :
    c'.shutdown = false ∧ Wanted c'.jobs path hash := by
  obtain ⟨hs, hw⟩ := h path hash hm
  have hs' := hgoes.shutdown.trans hs
  exact ⟨hs', (hgoes.keeps hs' (wanted_append.2 (.inr hw))).resolve_right not_false⟩

variable {file : WireFile}

lemma Asked.provide (h : Asked c) {k₀ : Key} {fi fi' : StoredFile}
    (hp : Provided c.store.db c'.store.db epoch name hash k₀ fi fi')
    (hgoes : Goes [] [] (fun path hash' => path = splitName name ∧ hash' = hash) c c')
    (hfree : entryAt c.store.db (inboxKey epoch name) = none ∨ ¬ Missing c.store.db (splitName name) hash) :
    Asked c' := by
  rintro path hash' ⟨fi₁, hfi₁, hd, b, hb, hnone, rfl⟩
  obtain ⟨fi₀, hfi₀, -, hdel, hb₀, hne⟩ := hp.missing rfl hfi₁ hb hnone
  have hm : Missing c.store.db path b.hash := ⟨fi₀, hfi₀, hdel.trans hd, b, hb₀, hnone, rfl⟩
  obtain ⟨hs, hw⟩ := h path b.hash hm
  have hs' := hgoes.shutdown.trans hs
  refine ⟨hs', (hgoes.keeps hs' hw).resolve_right ?_⟩
  rintro ⟨rfl, rfl⟩
  -- the block is still missing, so it went to the staged entry
  rcases hp.key with rfl | ⟨hk, -⟩
  · rcases hfree with hfree | hfree
    · rw [hp.entry] at hfree
      cases hfree
    · exact hfree hm
  · exact hne hk.symm rfl

lemma not_missing_of_provide (hg : c.steady cfg a = true) (hd : c.doing a = .provide name hash) :
    entryAt c.store.db (inboxKey cfg.epoch name) = none ∨ ¬ Missing c.store.db (splitName name) hash := by
  simp only [Conn.steady, hd, Bool.and_eq_true, Bool.or_eq_true, Option.isNone_iff_eq_none] at hg
  refine hg.2.imp_right ?_
  rintro hall ⟨fi, hfi, hlive, b, hb, hnone, rfl⟩
  rw [fileKey, hfi] at hall
  simp only [Option.all_some, hlive, Bool.false_or, all_eq_true] at hall
  simpa [hnone] using hall b hb

lemma Asked.replace (h : Asked c) (hgoes : GoesOn [] c c')
    (hrep : Replaced c.store.db c'.store.db name stored fun _ => False) (hold : ∀ hash, stored.deleted = false →
      Lacks (withPointers stored (entryAt c.store.db (fileKey name))) hash →
      Missing c.store.db (splitName name) hash) : Asked c' := by
  intro path hash hm
  refine h.keep hgoes ?_
  rcases missing_of_replaced hrep (fun _ => not_false) hm with hm | ⟨rfl, hd, hl⟩
  · exact hm
  · exact hold hash hd hl

lemma missing_of_commit (hg : c.steady cfg a = true) (hd : c.doing a = .commit file) (hlive : file.deleted = false)
    (hl : Lacks (withPointers file.toStored (entryAt c.store.db (fileKey file.name))) hash) :
    Missing c.store.db (splitName file.name) hash := by
  obtain ⟨-, hold⟩ := lacks_withPointers hl
  obtain ⟨b, hb, hnone, rfl⟩ := hl
  simp only [Conn.steady, hd, hlive, Bool.and_eq_true, Bool.false_or, all_eq_true, Bool.or_eq_true] at hg
  obtain ⟨old, hentry, hblock⟩ := (Option.any_eq_true _ _).1 ((hg.2 b hb).resolve_left (by rw [hnone]; simp))
  simp only [Bool.and_eq_true, Bool.not_eq_true', any_eq_true, decide_eq_true_eq] at hblock
  obtain ⟨hdel, b', hb', hhash⟩ := hblock
  exact ⟨old, hentry, hdel, b', hb', hold old hentry b' hb' hhash, hhash⟩

lemma Asked.winner (h : Asked c) (hrep : Replaced c.store.db c'.store.db file.name file.toStored fun _ => False)
    (hgoes : GoesOn (if file.deleted then [] else [wholeJob file]) c c')
    (hfree : file.deleted = false → c.shutdown = false ∨
      ∀ hash, ¬ Lacks (withPointers file.toStored (entryAt c.store.db (fileKey file.name))) hash) : Asked c' := by
  intro path hash hm
  rcases missing_of_replaced hrep (fun _ => not_false) hm with hm | ⟨rfl, hd, hl⟩
  · exact h.keep hgoes hm
  · have hlive : file.deleted = false := hd
    have hs' := hgoes.shutdown.trans ((hfree hlive).resolve_right fun hn => hn hash hl)
    obtain ⟨⟨b, hb, -, rfl⟩, -⟩ := lacks_withPointers hl
    obtain ⟨b₀, hb₀, rfl⟩ := mem_map.1 hb
    refine ⟨hs', (hgoes.keeps hs' ?_).resolve_right not_false⟩
    rw [if_neg (Bool.eq_false_iff.1 hlive)]
    exact wanted_cons.2 (.inl ⟨rfl, mem_map.2 ⟨b₀, hb₀, rfl⟩⟩)

theorem asked_step (h : Asked c) (hg : c.steady cfg a = true) (hs : c.step cfg a = some c') : Asked c' := by
  have hmoves := step_moves hs
  -- a step that ends the connection finds nothing missing
  have hends : c'.shutdown = true → ∀ path hash, ¬ Missing c.store.db path hash := by
    intro hs' path hash hm
    refine not_missing_of_ends hg ?_ hm
    simp [Conn.ends, hs, hs', (h path hash hm).1]
  generalize hd : c.doing a = d at hmoves
  cases hmoves with
  | same hentries hgoes | check hentries _ _ hgoes | leave hentries hgoes | settled hentries hgoes =>
    intro path hash hm
    exact h.keep hgoes.goes (missing_of_same hentries hm)
  | provide hprov hgoes => exact h.provide hprov hgoes.goes (not_missing_of_provide hg hd)
  | stage hdb hgoes =>
    rintro path hash ⟨fi, hfi, hm⟩
    rw [hdb, stageFile_entries, if_neg (by rintro ⟨⟩)] at hfi
    exact h.keep hgoes.goes ⟨fi, hfi, hm⟩
  | commit hrep hgoes => exact h.replace hgoes.goes hrep fun _ => missing_of_commit hg hd
  | @copy loser copyPath hrep hgoes =>
    refine h.replace hgoes.goes hrep fun hash hdel hl => absurd hl (not_lacks_of_all ?_)
    have hlive : loser.deleted = false := deleted_withPointers.symm.trans hdel
    simpa [Conn.steady, hd, hlive] using (Bool.and_eq_true_iff.1 hg).2
  | winner hrep hgoes =>
    refine h.winner hrep hgoes.goes fun hlive => ?_
    simp only [Conn.steady, hd, hlive, Bool.and_eq_true, Bool.or_eq_true, Bool.false_eq_true, false_or,
      Bool.not_eq_true'] at hg
    exact hg.2.imp_right fun hall _ => not_lacks_of_all hall
  | complete _ _ hcompletable hrep hgoes _ =>
    intro path hash hm
    rcases missing_of_replaced hrep (fun _ => (by rintro ⟨⟩)) hm with hm | ⟨-, -, hl⟩
    · have hs' : c'.shutdown = false := by
        by_contra hne
        exact hends (by simpa using hne) path hash hm
      exact h.keep (hgoes hs').goes hm
    · exact absurd hl (not_lacks_of_all hcompletable)
  | ending hentries hshut =>
    intro path hash hm
    exact absurd (missing_of_same hentries hm) (hends hshut path hash)
  | reconnect hentries _ _ =>
    intro path hash hm
    refine absurd (missing_of_same hentries hm) (not_missing_of_ends hg ?_)
    simp [Conn.ends, hd]

end Steps

/-! ### Runs -/

/-- **Committed files have their blocks or ask for them**, in every run of successive connections under
the condition: a block of a committed file has a pointer or a request, unless one of the loops is just
dealing with it. -/
theorem committed_healed {cfg : Config} {st : Store} {acts : List Act} {c : Conn}
    (h0 : ∀ path fi, entryAt st.db (.mn path) = some fi → settled fi = true)
    (hm : Meets (Conn.step cfg) (fun c a => c.steady cfg a = true) (Conn.connect st) acts)
    (hr : run (Conn.step cfg) (Conn.connect st) acts = some c) {path : Path} {fi : StoredFile}
    (hfi : entryAt c.store.db (.mn path) = some fi) (hlive : fi.deleted = false) {b : StoredBlock}
    (hb : b ∈ fi.blocks) (hhand : ¬ Wanted c.inHand path b.hash) :
    b.hasPointer = true ∨ Wanted c.requested path b.hash := by
  have hinit : Asked (Conn.connect st) := by
    rintro path hash ⟨fi, hfi, hd, hl⟩
    exact absurd hl (not_lacks_of_settled (h0 path fi hfi) hd)
  have hasked : Asked c := run_inv (P := Asked) (fun s a t hi hg hs => asked_step hi hg hs) hinit hm hr
  by_cases hp : b.hasPointer = true
  · exact .inl hp
  · obtain ⟨-, hw⟩ := hasked path b.hash ⟨fi, hfi, hlive, b, hb, Bool.eq_false_iff.2 hp, rfl⟩
    exact .inr ((wanted_append.1 hw).resolve_left hhand)

/-! ### A disconnect before the block arrives -/

/-- The file `n` as another device made it: without blocks. -/
def otherEdit : WireFile := ⟨['n'], 0, some ⟨[⟨1, 1⟩]⟩, 1, [], 0, false⟩

/-- The file `n` as the peer has it. -/
def peerEdit : WireFile :=
  ⟨['n'], 1, some ⟨[⟨2, 1⟩]⟩, 1, [⟨List.replicate 32 0, 0, 1⟩], 0, false⟩

def otherFolder : Store := { Store.empty with db := (putFile Db.empty otherEdit).2 }

/-- The peer announces its version: a conflict, which the peer wins.  Its block is requested. -/
def winnerRequested : List Act :=
  [.index [peerEdit] 1, .indexStep, .indexStep, .resolve true none, .indexStep, .indexStep, .indexStep,
    .indexStep]

def announcedAgain : List Act :=
  [.reconnect, .index [peerEdit] 1, .indexStep, .indexStep, .indexStep, .indexStep]

def lostRequest : List Act := winnerRequested ++ announcedAgain

/-- The version is committed, its block is not there, and nobody asks for it. -/
theorem committed_unhealed :
    ∃ c fi, run (Conn.step sampleConfig) (Conn.connect otherFolder) lostRequest = some c ∧
      c.index = .idle ∧ c.msg = .idle ∧ c.requested = [] ∧
      entryAt c.store.db (fileKey ['n']) = some fi ∧ fi.deleted = false ∧ fi.version = peerEdit.version ∧
      ∃ b ∈ fi.blocks, b.hasPointer = false := by
  simp only [exists_and_left]
  decide

def answeredRequest : List Act :=
  winnerRequested ++ [.response 0 0 [7], .msgStep, .msgStep, .msgStep, .msgStep] ++
    List.replicate 5 .indexStep ++ announcedAgain

lemma otherFolder_settled : ∀ path fi, entryAt otherFolder.db (.mn path) = some fi → settled fi = true := by
  intro path fi hfi
  have hall : otherFolder.db.committed.all (fun e => settled e.2) = true := by decide
  exact all_eq_true.1 hall (path, fi) (mem_committed.2 (entryAt_eq_some.1 hfi))

/-- The committed version has its block after the next connection, too. -/
theorem committed_healed_answeredRequest :
    ∃ c fi b, run (Conn.step sampleConfig) (Conn.connect otherFolder) answeredRequest = some c ∧
      c.index = .idle ∧ c.requested = [] ∧ entryAt c.store.db (fileKey ['n']) = some fi ∧
      fi.version = peerEdit.version ∧ b ∈ fi.blocks ∧ b.hasPointer = true := by
  obtain ⟨c, hr, fi, hfi, b, hb, hi, hhand, hreq, hd, hv⟩ : ∃ c, run (Conn.step sampleConfig)
      (Conn.connect otherFolder) answeredRequest = some c ∧
      ∃ fi, entryAt c.store.db (fileKey ['n']) = some fi ∧ ∃ b, fi.blocks.head? = some b ∧
        c.index = .idle ∧ c.inHand = [] ∧ c.requested = [] ∧ fi.deleted = false ∧
        fi.version = peerEdit.version := by
    decide
  have hmem := mem_of_head? hb
  have hheal := committed_healed otherFolder_settled (by decide) hr hfi hd hmem
    (by rw [hhand]; exact wanted_nil)
  rw [hreq] at hheal
  exact ⟨c, fi, b, hr, hi, hreq, hfi, hv, hmem, hheal.resolve_right wanted_nil⟩

end Bepository.Sync
