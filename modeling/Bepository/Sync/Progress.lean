import Bepository.Storage.Versions
import Bepository.Sync.Batch
import Bepository.Sync.Healing

/-!
# Files underway

A file of the batch at work is ahead of the index loop, in a conflict, staged with jobs
about it, or committed as a conflict's winner with its missing blocks still to come (`Underway`), until it is
reached: an entry is committed that is not older.  `Underway.step` says that a step leaves a file underway or
reaches it, as long as the connection goes on and no other file of the batch has its path.
-/

namespace Bepository.Sync

open Lib Storage List Option

/-! ### Versions -/

/-- `compare` finds the first vector not newer. -/
def notAfter (a b : VersionVector) : Bool :=
  match compareVersions a b with
  | .ok .less | .ok .equal => true
  | _ => false

def notNewer : Option VersionVector → Option VersionVector → Bool
  | some a, some b => a = b || notAfter a b
  | v, w => v = w

section Versions

variable {u v w : Option VersionVector} {a b : VersionVector}

lemma notAfter_iff : notAfter a b = true ↔ a.Unique ∧ b.Unique ∧ a.value ≤ b.value := by
  unfold notAfter
  constructor
  · intro h
    split at h
    · next ho =>
      obtain ⟨ha, hb, hlt⟩ := compareVersions_eq_ok.1 ho
      exact ⟨ha, hb, le_of_lt hlt⟩
    · next ho =>
      obtain ⟨ha, hb, heq⟩ := compareVersions_eq_ok.1 ho
      exact ⟨ha, hb, le_of_eq heq⟩
    · cases h
  · rintro ⟨ha, hb, hle⟩
    rcases lt_or_eq_of_le hle with hlt | heq
    · rw [compareVersions_eq_ok.2 ⟨ha, hb, show Verdict _ _ .less from hlt⟩]
    · rw [compareVersions_eq_ok.2 ⟨ha, hb, show Verdict _ _ .equal from heq⟩]

lemma notNewer_some : notNewer (some a) (some b) = true ↔ a = b ∨ notAfter a b = true := by
  simp [notNewer]

lemma notNewer_refl : notNewer v v = true := by
  cases v <;> simp [notNewer]

lemma notNewer_trans (h : notNewer u v = true) (h' : notNewer v w = true) : notNewer u w = true := by
  cases u with
  | none =>
    cases v with
    | none => exact h'
    | some => simp [notNewer] at h
  | some =>
    cases v with
    | none => simp [notNewer] at h
    | some =>
      cases w with
      | none => simp [notNewer] at h'
      | some =>
        rw [notNewer_some] at h h' ⊢
        rcases h with rfl | h
        · exact h'
        · rcases h' with rfl | h'
          · exact .inr h
          · obtain ⟨ha, -, hab⟩ := notAfter_iff.1 h
            obtain ⟨-, hd, hbd⟩ := notAfter_iff.1 h'
            exact .inr (notAfter_iff.2 ⟨ha, hd, hab.trans hbd⟩)

lemma noAction_notNewer {db : Db} {file : WireFile} (h : readUpdate db file = .ok .noAction) :
    ∃ fi, entryAt db (fileKey file.name) = some fi ∧ notNewer file.version fi.version = true := by
  unfold readUpdate at h
  split at h
  · cases h
  · next found hf =>
    have hver := getFile_version hf
    cases found with
    | none => cases h
    | some =>
      obtain ⟨fi, hfi, hv⟩ := map_eq_some_iff.1 hver.symm
      refine ⟨fi, hfi, ?_⟩
      rw [hv]
      simp only [updateStep] at h
      split at h
      · next lv rv hl hr =>
        rw [hl, hr, notNewer_some, notAfter_iff]
        split at h
        · cases h
        · next ho =>
          obtain ⟨hlu, hru, hlt⟩ := compareVersions_eq_ok.1 ho
          exact .inr ⟨hru, hlu, le_of_lt hlt⟩
        · next ho =>
          obtain ⟨hlu, hru, heq⟩ := compareVersions_eq_ok.1 ho
          exact .inr ⟨hru, hlu, ge_of_eq heq⟩
        · cases h
        · split_ifs at h <;> cases h
      · cases h

end Versions

/-! ### Files underway -/

/-- An entry is committed that is not older than the file, and if the file was in a conflict (it is not
`calm`), its blocks are there. -/
def Reached (db : Db) (calm : Prop) (file : WireFile) : Prop :=
  ∃ fi, entryAt db (fileKey file.name) = some fi ∧ notNewer file.version fi.version = true ∧
    (calm ∨ settled fi = true)

def IndexPc.Free (pc : IndexPc) (path : Path) : Prop := ∀ file ∈ pc.front, splitName file.name ≠ path

/-- **Where a file of the batch is** before it is reached.  `K` are the files that were in a conflict, and
`asked` is a file for whose sake this one is looked at. -/
inductive Underway (epoch : Epoch) (c : Conn) (K : WireFile → Prop) (asked file : WireFile) : Prop
  | ahead (calm : ¬ K asked) (mem : file ∈ c.index.ahead)
  | disputed (eq : c.index.disputed = some file)
  | staged (calm : ¬ K asked) (free : c.index.Free (splitName file.name)) {fi}
      (entry : entryAt c.store.db (inboxKey epoch file.name) = some fi) (version : fi.version = file.version)
      (tracked : Tracked c.jobs file.name file.version)
  | won (contested : K file) (free : c.index.Free (splitName file.name)) {fi}
      (entry : entryAt c.store.db (fileKey file.name) = some fi) (version : fi.version = file.version)
      (unstaged : entryAt c.store.db (inboxKey epoch file.name) = none)
      (wanted : ∀ hash, Lacks fi hash → Wanted c.jobs (splitName file.name) hash)

section Underway

variable {cfg : Config} {epoch : Epoch} {c c' : Conn} {d : Doing} {K : WireFile → Prop}
  {asked file : WireFile} {db db' : Db} {name : Str} {stored fi : StoredFile} {path : Path}

/-- **A staged entry** stays staged with its version, unless another is staged at its path, or it is
committed. -/
lemma Moves.staged_kept (h : Moves epoch c c' d)
    (hfree : ∀ file, d = .stage file → splitName file.name ≠ splitName name)
    (hfi : entryAt c.store.db (inboxKey epoch name) = some fi) :
    (∃ fi', entryAt c'.store.db (inboxKey epoch name) = some fi' ∧ fi'.version = fi.version) ∨
      ∃ fi', entryAt c'.store.db (fileKey name) = some fi' ∧ fi'.version = fi.version := by
  have hsame : SameEntries c.store.db c'.store.db →
      ∃ fi', entryAt c'.store.db (inboxKey epoch name) = some fi' ∧ fi'.version = fi.version :=
    fun he => ⟨fi, (he _ rfl).trans hfi, rfl⟩
  have hrep : ∀ {n stored}, Replaced c.store.db c'.store.db n stored (fun _ => False) →
      ∃ fi', entryAt c'.store.db (inboxKey epoch name) = some fi' ∧ fi'.version = fi.version := by
    intro n stored hr
    exact ⟨fi, (hr.elsewhere rfl (by rintro ⟨⟩) not_false).trans hfi, rfl⟩
  cases h with
  | same hentries | check hentries | leave hentries | settled hentries | ending hentries | reconnect hentries =>
    exact .inl (hsame hentries)
  | commit hr | copy hr | winner hr => exact .inl (hrep hr)
  | provide hprov =>
    have hver := hprov.versionAt_eq (k := inboxKey epoch name) rfl
    unfold versionAt at hver
    rw [hfi] at hver
    obtain ⟨fi', hfi', hv⟩ := map_eq_some_iff.1 hver
    exact .inl ⟨fi', hfi', hv⟩
  | @stage staged hdb =>
    refine .inl ⟨fi, ?_, rfl⟩
    have hne : inboxKey epoch name ≠ inboxKey epoch staged.name := by
      intro hk
      exact hfree staged rfl (Key.mi.inj hk).2.symm
    rw [hdb, stageFile_entries, if_neg hne]
    exact hfi
  | @complete done version staged hentry hversion _ hr =>
    by_cases hk : inboxKey epoch name = inboxKey epoch done
    · -- it is this file that was completed
      have hpath : splitName name = splitName done := (Key.mi.inj hk).2
      rw [← hk, hfi] at hentry
      cases hentry
      obtain ⟨fi', hfi', hv, -⟩ := hr.version
      refine .inr ⟨fi', ?_, hv⟩
      rw [fileKey, hpath]
      exact hfi'
    · exact .inl ⟨fi, (hr.elsewhere rfl (by rintro ⟨⟩) hk).trans hfi, rfl⟩

lemma provided_committed_kept {target : Str} {provided : Bytes} {k₀ : Key} {fi₀ fi₀' : StoredFile}
    (h : Provided db db' epoch target provided k₀ fi₀ fi₀') (hfi : entryAt db (fileKey name) = some fi)
    (hnone : entryAt db (inboxKey epoch name) = none) :
    ∃ fi', entryAt db' (fileKey name) = some fi' ∧ fi'.version = fi.version ∧
      entryAt db' (inboxKey epoch name) = none ∧ ∀ hash, Lacks fi' hash → Lacks fi hash ∧
        ¬ (splitName name = splitName target ∧ hash = provided) := by
  have hver := h.versionAt_eq (k := fileKey name) rfl
  unfold versionAt at hver
  rw [hfi] at hver
  obtain ⟨fi', hfi', hv⟩ := map_eq_some_iff.1 hver
  have hk₀ : inboxKey epoch name ≠ k₀ := by
    rintro rfl
    rw [h.entry] at hnone
    cases hnone
  refine ⟨fi', hfi', hv, ?_, ?_⟩
  · rw [h.entries _ rfl, if_neg hk₀]
    exact hnone
  · rintro _ ⟨b, hb, hp, rfl⟩
    obtain ⟨fi₁, hfi₁, -, -, hb₁, hne⟩ := h.missing rfl hfi' hb hp
    rw [hfi] at hfi₁
    cases hfi₁
    refine ⟨⟨b, hb₁, hp, rfl⟩, ?_⟩
    rintro ⟨hpath, hhash⟩
    -- with nothing staged, the block went to the committed entry
    rcases h.key with hk | ⟨hk, -⟩
    · exact absurd (by rw [hk, inboxKey, inboxKey, hpath]) hk₀
    · exact absurd hhash (hne (by rw [hk, fileKey, fileKey, hpath]))

/-- **A committed entry** with nothing staged over it stays, with its version, and what it lacks is still to
come. -/
lemma Moves.committed_kept (h : Moves epoch c c' d) (hav : d.Avoids (splitName name))
    (hfi : entryAt c.store.db (fileKey name) = some fi)
    (hnone : entryAt c.store.db (inboxKey epoch name) = none) :
    ∃ fi', entryAt c'.store.db (fileKey name) = some fi' ∧ fi'.version = fi.version ∧
      entryAt c'.store.db (inboxKey epoch name) = none ∧ ∀ hash, Lacks fi' hash → Lacks fi hash ∧
        (c'.shutdown = false → d ≠ .reconnect → Wanted c.jobs (splitName name) hash →
          Wanted c'.jobs (splitName name) hash) := by
  have hgo : ∀ {new started} {hash : Bytes}, Goes new started (fun _ _ => False) c c' → c'.shutdown = false →
      Wanted c.jobs (splitName name) hash → Wanted c'.jobs (splitName name) hash := by
    intro new started hash hgoes hup hw
    exact (hgoes.keeps hup (wanted_append.2 (.inr hw))).resolve_right not_false
  have hsame : SameEntries c.store.db c'.store.db → entryAt c'.store.db (fileKey name) = some fi ∧
      entryAt c'.store.db (inboxKey epoch name) = none :=
    fun he => ⟨(he _ rfl).trans hfi, (he _ rfl).trans hnone⟩
  have hrep : ∀ {n stored}, splitName n ≠ splitName name → Replaced c.store.db c'.store.db n stored (fun _ => False) →
      entryAt c'.store.db (fileKey name) = some fi ∧ entryAt c'.store.db (inboxKey epoch name) = none := by
    intro n stored hne hr
    refine ⟨(hr.elsewhere rfl (fun hk => hne (Key.mn.inj hk).symm) not_false).trans hfi, ?_⟩
    exact (hr.elsewhere rfl (by rintro ⟨⟩) not_false).trans hnone
  cases h with
  | same hentries hgoes | check hentries _ _ hgoes | leave hentries hgoes | settled hentries hgoes =>
    obtain ⟨h₁, h₂⟩ := hsame hentries
    exact ⟨fi, h₁, rfl, h₂, fun hash hl => ⟨hl, fun hup _ => hgo hgoes.goes hup⟩⟩
  | ending hentries hdown =>
    obtain ⟨h₁, h₂⟩ := hsame hentries
    refine ⟨fi, h₁, rfl, h₂, fun hash hl => ⟨hl, fun hup => ?_⟩⟩
    rw [hdown] at hup
    cases hup
  | reconnect hentries =>
    obtain ⟨h₁, h₂⟩ := hsame hentries
    exact ⟨fi, h₁, rfl, h₂, fun hash hl => ⟨hl, fun _ hd => absurd rfl hd⟩⟩
  | @commit committed hr hgoes =>
    obtain ⟨h₁, h₂⟩ := hrep (hav.commit committed rfl) hr
    exact ⟨fi, h₁, rfl, h₂, fun hash hl => ⟨hl, fun hup _ => hgo hgoes.goes hup⟩⟩
  | @copy loser copyName hr hgoes =>
    obtain ⟨h₁, h₂⟩ := hrep (hav.copy loser copyName rfl) hr
    exact ⟨fi, h₁, rfl, h₂, fun hash hl => ⟨hl, fun hup _ => hgo hgoes.goes hup⟩⟩
  | @winner winner hr hgoes =>
    obtain ⟨h₁, h₂⟩ := hrep (hav.winner winner rfl) hr
    exact ⟨fi, h₁, rfl, h₂, fun hash hl => ⟨hl, fun hup _ => hgo hgoes.goes hup⟩⟩
  | @stage staged hdb hgoes =>
    refine ⟨fi, ?_, rfl, ?_, fun hash hl => ⟨hl, fun hup _ => hgo hgoes.goes hup⟩⟩
    · rw [hdb, stageFile_entries, if_neg fileKey_ne_inboxKey]
      exact hfi
    · have hne : inboxKey epoch name ≠ inboxKey epoch staged.name := by
        intro hk
        exact hav.stage staged rfl (Key.mi.inj hk).2.symm
      rw [hdb, stageFile_entries, if_neg hne]
      exact hnone
  | @complete done version staged hentry _ _ hr hgoes =>
    have hne : splitName done ≠ splitName name := by
      intro hp
      rw [inboxKey, hp] at hentry
      rw [inboxKey, hentry] at hnone
      cases hnone
    refine ⟨fi, ?_, rfl, ?_, fun hash hl => ⟨hl, fun hup _ => hgo (hgoes hup).goes hup⟩⟩
    · exact (hr.elsewhere rfl (fun hk => hne (Key.mn.inj hk).symm) (by rintro ⟨⟩)).trans hfi
    · refine (hr.elsewhere rfl (by rintro ⟨⟩) fun hk => ?_).trans hnone
      exact hne (Key.mi.inj hk).2.symm
  | provide hprov hgoes =>
    obtain ⟨fi', hfi', hv, hnone', hlacks⟩ := provided_committed_kept hprov hfi hnone
    refine ⟨fi', hfi', hv, hnone', fun hash hl => ⟨(hlacks hash hl).1, fun hup _ hw => ?_⟩⟩
    exact (hgoes.goes.keeps hup hw).resolve_right (hlacks hash hl).2

lemma IndexPc.Free.mono {pc pc' : IndexPc} (h : pc.Free path) (hsub : ∀ f ∈ pc'.front, f ∈ pc.front) :
    pc'.Free path :=
  fun f hf => h f (hsub f hf)

lemma Turns.front_sublist (h : Turns epoch c c' d) (hup : c'.shutdown = false) :
    c'.index.front.Sublist c.index.front := by
  cases h with
  | on _ _ _ hplace => rw [hplace.front]
  | skip hfront | dispute hfront => rw [hfront]
  | pass hfront | win hfront => rw [hfront]; exact sublist_cons_self _ _
  | stage hleaves | commit hleaves => rw [hleaves.front]; exact sublist_cons_self _ _
  | fail _ hdown =>
    rw [hdown] at hup
    cases hup

lemma not_failed (hup : c'.shutdown = false) : ¬ (c'.index = .stopped ∧ c'.shutdown = true) := by
  rw [hup]
  rintro ⟨-, ⟨⟩⟩

section

variable (h : Turns epoch c c' d) (hlive : ¬ (c'.index = .stopped ∧ c'.shutdown = true))
include h hlive

lemma Turns.mem_front (hd : d = .stage file ∨ d = .commit file ∨ d = .winner file) : file ∈ c.index.front := by
  rcases hd with rfl | rfl | rfl
  · cases h with
    | on hno => exact absurd rfl (hno file)
    | stage hleaves => rw [hleaves.front]; exact mem_cons_self
    | fail hstop hdown => exact absurd ⟨hstop, hdown⟩ hlive
  · cases h with
    | on _ hno => exact absurd rfl (hno file)
    | commit hleaves => rw [hleaves.front]; exact mem_cons_self
    | fail hstop hdown => exact absurd ⟨hstop, hdown⟩ hlive
  · cases h with
    | on _ _ hno => exact absurd rfl (hno file)
    | win hfront => rw [hfront]; exact mem_cons_self
    | fail hstop hdown => exact absurd ⟨hstop, hdown⟩ hlive

lemma Turns.avoids (hfree : c.index.Free path)
    (hcopy : ∀ loser name, d = .copy loser name → splitName name ≠ path) : d.Avoids path :=
  ⟨fun f hd => hfree f (h.mem_front hlive (.inl hd)), fun f hd => hfree f (h.mem_front hlive (.inr (.inl hd))),
    fun f hd => hfree f (h.mem_front hlive (.inr (.inr hd))), hcopy⟩

end

lemma Moves.tracked (h : Moves epoch c c' d) (hup : c'.shutdown = false) (hd : d ≠ .reconnect) {name : Str}
    {version : Option VersionVector} (ht : Tracked c'.jobs name version) :
    Tracked c.jobs name version ∨ ∃ f, (d = .stage f ∨ d = .winner f) ∧ f.name = name ∧ f.version = version := by
  cases h with
  | same _ hgoes | check _ _ _ hgoes | leave _ hgoes | provide _ hgoes | commit _ hgoes | copy _ hgoes
  | settled _ hgoes =>
    exact .inl (hgoes.goes.tracked _ _ ht)
  | complete _ _ _ _ hgoes => exact .inl ((hgoes hup).goes.tracked _ _ ht)
  | @stage f _ hgoes =>
    rcases tracked_cons.1 (hgoes.goes.tracked _ _ ht) with ⟨hname, hversion⟩ | ht
    · exact .inr ⟨f, .inl rfl, hname, hversion⟩
    · exact .inl ht
  | @winner f _ hgoes =>
    have ht' := hgoes.goes.tracked _ _ ht
    split_ifs at ht'
    · exact .inl ht'
    · rcases tracked_cons.1 ht' with ⟨hname, hversion⟩ | ht
      · exact .inr ⟨f, .inr rfl, hname, hversion⟩
      · exact .inl ht
  | ending _ hdown =>
    rw [hdown] at hup
    cases hup
  | reconnect => exact absurd rfl hd

def IndexPc.Distinct (pc : IndexPc) : Prop := (pc.front.map fun f => splitName f.name).Nodup

lemma IndexPc.Distinct.free {pc pc' : IndexPc} (h : pc.Distinct) (hfront : pc.front = file :: pc'.front) :
    pc'.Free (splitName file.name) := by
  unfold IndexPc.Distinct at h
  rw [hfront, map_cons, nodup_cons] at h
  intro f hf hp
  exact h.1 (List.mem_map.2 ⟨f, hf, hp⟩)

section

variable (hturns : Turns epoch c c' d) (hup : c'.shutdown = false) (hdistinct : c.index.Distinct)
include hturns hup hdistinct

/-- **A file ahead** is staged, committed, in a conflict, or skipped because it is not newer. -/
lemma Underway.ahead_step (hcalm : ¬ K asked) (hmem : file ∈ c.index.ahead) :
    Underway epoch c' K asked file ∨ Reached c'.store.db (¬ K asked) file := by
  cases hturns with
  | on _ _ _ hplace => exact .inl (.ahead hcalm (by rwa [hplace.ahead]))
  | skip _ hahead _ hread hstore =>
    rw [hahead] at hmem
    rcases mem_cons.1 hmem with rfl | hmem
    · obtain ⟨fi, hfi, hnn⟩ := noAction_notNewer hread
      rw [hstore]
      exact .inr ⟨fi, hfi, hnn, .inl hcalm⟩
    · exact .inl (.ahead hcalm hmem)
  | pass _ hahead | win _ hahead => exact .inl (.ahead hcalm (by rwa [hahead]))
  | stage hleaves hdb htracked =>
    rw [hleaves.ahead] at hmem
    rcases mem_cons.1 hmem with rfl | hmem
    · have hentry : entryAt c'.store.db (inboxKey epoch file.name) = some file.toStored := by
        rw [hdb, stageFile_entries, if_pos rfl]
      exact .inl (.staged hcalm (hdistinct.free hleaves.front) hentry rfl htracked)
    · exact .inl (.ahead hcalm hmem)
  | commit hleaves hrep =>
    rw [hleaves.ahead] at hmem
    rcases mem_cons.1 hmem with rfl | hmem
    · obtain ⟨fi, hfi, hv, -⟩ := hrep.version
      refine .inr ⟨fi, hfi, ?_, .inl hcalm⟩
      rw [hv]
      exact notNewer_refl
    · exact .inl (.ahead hcalm hmem)
  | dispute _ hahead _ hdisputed =>
    rw [hahead] at hmem
    rcases mem_cons.1 hmem with rfl | hmem
    · exact .inl (.disputed hdisputed)
    · exact .inl (.ahead hcalm hmem)
  | fail _ hdown =>
    rw [hdown] at hup
    cases hup

/-- **The winner of a conflict** is committed, and what it lacks is to come. -/
lemma Underway.disputed_step (hK : K file) (hdisputed : c.index.disputed = some file)
    (hfree : ∀ f, d = .winner f → f.deleted = false → entryAt c.store.db (inboxKey epoch f.name) = none ∨
      ∀ hash, ¬ Lacks (withPointers f.toStored (entryAt c.store.db (fileKey f.name))) hash) :
    Underway epoch c' K asked file ∨ Reached c'.store.db (¬ K asked) file := by
  cases hturns with
  | on _ _ _ hplace => exact .inl (.disputed (hplace.disputed.trans hdisputed))
  | skip _ _ heq | pass _ _ heq => exact .inl (.disputed (heq.trans hdisputed))
  | stage hleaves | commit hleaves => exact .inl (.disputed (hleaves.disputed.trans hdisputed))
  | dispute _ _ hbefore =>
    rw [hbefore] at hdisputed
    cases hdisputed
  | win hfront _ hbefore _ hrep hwanted =>
    rw [hbefore] at hdisputed
    cases hdisputed
    obtain ⟨fi, hfi, hv, hdel, hlacks⟩ := hrep.version
    have hreached : settled fi = true → Reached c'.store.db (¬ K asked) file := fun hs =>
      ⟨fi, hfi, by rw [hv]; exact notNewer_refl, .inr hs⟩
    cases hd : file.deleted with
    | true =>
      have hdeleted : fi.deleted = true := hdel.trans hd
      exact .inr (hreached (by rw [settled, hdeleted, Bool.true_or]))
    | false =>
      rcases hfree file rfl hd with hnone | hall
      · refine .inl (.won hK (hdistinct.free hfront) hfi hv ?_ fun hash hl => ?_)
        · exact (hrep.elsewhere rfl (by rintro ⟨⟩) not_false).trans hnone
        · obtain ⟨b, hb, -, rfl⟩ := hlacks hash hl
          obtain ⟨b₀, hb₀, rfl⟩ := List.mem_map.1 hb
          exact hwanted hd b₀ hb₀
      · obtain ⟨q, hq⟩ := hrep
        rw [(hq _ rfl).1 rfl] at hfi
        cases hfi
        exact .inr (hreached (settled_of_not_lacks hall))
  | fail _ hdown =>
    rw [hdown] at hup
    cases hup

end

/-- **A staged file** stays tracked until it is committed: where a job about it is given up, another job of
its path is left, which is about this file since no other of the batch has the path. -/
lemma tracked_step {batch : List WireFile} (hmoves : Moves epoch c c' d) (hd : d ≠ .reconnect)
    (hup : c'.shutdown = false) (hmem : file ∈ batch)
    (hjobs : ∀ name version, Tracked c.jobs name version → ∃ f ∈ batch, f.name = name ∧ f.version = version)
    (hinj : ∀ f ∈ batch, ∀ g ∈ batch, splitName f.name = splitName g.name → f = g)
    (hfi : entryAt c.store.db (inboxKey epoch file.name) = some fi) (hv : fi.version = file.version)
    (hstill : entryAt c'.store.db (inboxKey epoch file.name) ≠ none)
    (ht : Tracked c.jobs file.name file.version) : Tracked c'.jobs file.name file.version := by
  -- the job that is given up, if it is about this file
  have hgiven : ∀ {name version}, Leaves name version c c' →
      (name = file.name → version = file.version → Tracked c'.jobs file.name file.version) →
      Tracked c'.jobs file.name file.version := by
    intro name version hleaves hthis
    obtain ⟨j, hj, hname, hversion⟩ := ht
    rcases mem_cons.1 (hleaves.jobs.mem_iff.1 hj) with rfl | hj
    · exact hthis hname hversion
    · exact ⟨j, hj, hname, hversion⟩
  cases hmoves with
  | same _ hgo | check _ _ _ hgo | provide _ hgo | stage _ hgo | commit _ hgo | copy _ hgo | winner _ hgo =>
    exact (hgo.jobs.tracked _ _).2 (tracked_append.2 (.inr ht))
  | ending _ hdown =>
    rw [hdown] at hup
    cases hup
  | reconnect => exact absurd rfl hd
  | leave _ hleaves hothers =>
    refine hgiven hleaves fun hname _ => ?_
    obtain ⟨j, hj, hpath⟩ := hothers
    obtain ⟨f, hf, hfname, hfversion⟩ := hjobs j.name j.version ⟨j, hleaves.mem j hj, rfl, rfl⟩
    have hsame : f = file := hinj f hf file hmem (by rw [hfname, hpath, hname])
    subst hsame
    exact ⟨j, hj, hfname.symm, hfversion.symm⟩
  -- this version was to be completed, so that it is no longer staged
  | settled _ hleaves hother =>
    refine hgiven hleaves fun hname hversion => ?_
    subst hname
    exact absurd (hv.trans hversion.symm) (hother fi hfi)
  | complete _ _ _ hrep hleaves =>
    refine hgiven (hleaves hup) fun hname _ => ?_
    subst hname
    exact absurd (hrep.unstaged rfl) hstill

theorem Underway.step {batch : List WireFile} (hmoves : Moves epoch c c' d) (hturns : Turns epoch c c' d)
    (hd : d ≠ .reconnect) (hup : c'.shutdown = false) (hmem : file ∈ batch)
    (hjobs : ∀ name version, Tracked c.jobs name version → ∃ f ∈ batch, f.name = name ∧ f.version = version)
    (hinj : ∀ f ∈ batch, ∀ g ∈ batch, splitName f.name = splitName g.name → f = g)
    (hdistinct : c.index.Distinct) (hK : ∀ f, c.index.disputed = some f → K f)
    (hfree : ∀ f, d = .winner f → f.deleted = false → entryAt c.store.db (inboxKey epoch f.name) = none ∨
      ∀ hash, ¬ Lacks (withPointers f.toStored (entryAt c.store.db (fileKey f.name))) hash)
    (hcopy : ∀ f, K f → ∀ loser name, d = .copy loser name → splitName name ≠ splitName f.name)
    (h : Underway epoch c K asked file) :
    Underway epoch c' K asked file ∨ Reached c'.store.db (¬ K asked) file := by
  have hlive := not_failed hup
  cases h with
  | ahead hcalm hahead => exact ahead_step hturns hup hdistinct hcalm hahead
  | disputed hdisputed => exact disputed_step hturns hup hdistinct (hK file hdisputed) hdisputed hfree
  | staged hcalm hfr hfi hv ht =>
    rcases hmoves.staged_kept (fun f hd => hfr f (hturns.mem_front hlive (.inl hd))) hfi with
      ⟨fi', hfi', hv'⟩ | ⟨fi', hfi', hv'⟩
    · refine .inl (.staged hcalm (hfr.mono fun _ hf => (hturns.front_sublist hup).subset hf) hfi' (hv'.trans hv) ?_)
      exact tracked_step hmoves hd hup hmem hjobs hinj hfi hv (by rw [hfi']; rintro ⟨⟩) ht
    · refine .inr ⟨fi', hfi', ?_, .inl hcalm⟩
      rw [hv', hv]
      exact notNewer_refl
  | won hcontested hfr hfi hv hnone hwanted =>
    have hav := hturns.avoids hlive hfr (hcopy file hcontested)
    obtain ⟨fi', hfi', hv', hnone', hlacks⟩ := hmoves.committed_kept hav hfi hnone
    refine .inl (.won hcontested (hfr.mono fun _ hf => (hturns.front_sublist hup).subset hf) hfi' (hv'.trans hv) hnone' ?_)
    intro hash hl
    obtain ⟨hl, hw⟩ := hlacks hash hl
    exact hw hup hd (hwanted hash hl)

/-- **A call that has taken effect and is made again**: the entries change as in the step, and the loops are
where they were. -/
theorem Underway.late {c₁ : Conn} (hmoves : Moves epoch c c₁ d) (hstore : c'.store = c₁.store)
    (hjobs : c'.jobs = c.jobs) (hfront : c'.index.front = c.index.front)
    (hahead : ∀ f ∈ c.index.ahead, f ∈ c'.index.ahead) (hdisputed : c'.index.disputed = c.index.disputed)
    (hav : c.index.Free (splitName file.name) →
      (∀ f, d = .stage f → splitName f.name ≠ splitName file.name) ∧ (K file → d.Avoids (splitName file.name)))
    (h : Underway epoch c K asked file) :
    Underway epoch c' K asked file ∨ Reached c'.store.db (¬ K asked) file := by
  have hmono : ∀ f ∈ c'.index.front, f ∈ c.index.front := fun f hf => by rwa [← hfront]
  cases h with
  | ahead hcalm hmem => exact .inl (.ahead hcalm (hahead file hmem))
  | disputed heq => exact .inl (.disputed (hdisputed.trans heq))
  | staged hcalm hfr hfi hv ht =>
    rcases hmoves.staged_kept (hav hfr).1 hfi with ⟨fi', hfi', hv'⟩ | ⟨fi', hfi', hv'⟩
    · rw [← hstore] at hfi'
      rw [← hjobs] at ht
      exact .inl (.staged hcalm (hfr.mono hmono) hfi' (hv'.trans hv) ht)
    · rw [← hstore] at hfi'
      refine .inr ⟨fi', hfi', ?_, .inl hcalm⟩
      rw [hv', hv]
      exact notNewer_refl
  | won hcontested hfr hfi hv hnone hwanted =>
    obtain ⟨fi', hfi', hv', hnone', hlacks⟩ := hmoves.committed_kept ((hav hfr).2 hcontested) hfi hnone
    rw [← hstore] at hfi' hnone'
    refine .inl (.won hcontested (hfr.mono hmono) hfi' (hv'.trans hv) hnone' fun hash hl => ?_)
    rw [hjobs]
    exact hwanted hash (hlacks hash hl).1

lemma Underway.grow (K' : WireFile → Prop) (hmono : ∀ f, K f → K' f)
    (hcalm : ¬ K asked → ¬ K' asked ∨ c.index.disputed = some file)
    (h : Underway epoch c K asked file ∨ Reached c.store.db (¬ K asked) file) :
    Underway epoch c K' asked file ∨ Reached c.store.db (¬ K' asked) file := by
  rcases h with h | ⟨fi, hfi, hnn, hok⟩
  · refine .inl ?_
    cases h with
    | ahead hc hmem =>
      rcases hcalm hc with hc' | hdisputed
      · exact .ahead hc' hmem
      · exact .disputed hdisputed
    | disputed heq => exact .disputed heq
    | staged hc hfr hfi hv ht =>
      rcases hcalm hc with hc' | hdisputed
      · exact .staged hc' hfr hfi hv ht
      · exact .disputed hdisputed
    | won hcontested hfr hfi hv hnone hwanted => exact .won (hmono _ hcontested) hfr hfi hv hnone hwanted
  · rcases hok with hc | hs
    · rcases hcalm hc with hc' | hdisputed
      · exact .inr ⟨fi, hfi, hnn, .inl hc'⟩
      · exact .inl (.disputed hdisputed)
    · exact .inr ⟨fi, hfi, hnn, .inr hs⟩

lemma Underway.reached (hfront : c.index.ahead = [] ∧ c.index.disputed = none) (hjobs : c.jobs = [])
    (h : Underway epoch c K asked file) : Reached c.store.db (¬ K asked) file := by
  cases h with
  | ahead _ hmem =>
    rw [hfront.1] at hmem
    cases hmem
  | disputed heq =>
    rw [hfront.2] at heq
    cases heq
  | staged _ _ _ _ ht =>
    rw [hjobs] at ht
    exact absurd ht tracked_nil
  | @won _ _ fi hfi hv _ hwanted =>
    refine ⟨fi, hfi, by rw [hv]; exact notNewer_refl, .inr (settled_of_not_lacks fun hash hl => ?_)⟩
    have hw := hwanted hash hl
    rw [hjobs] at hw
    exact wanted_nil hw

end Underway

end Bepository.Sync
