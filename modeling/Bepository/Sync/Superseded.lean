import Bepository.Storage.Legible
import Bepository.Storage.Versions
import Bepository.Sync.Completion

/-!
# Responses for superseded versions

A newer version of a file may be staged while blocks of an older one are still to come.  The blocks go
to the entry that is there when they arrive: `store_block` and `reuse_block` fail when it does not list
them, and `complete_file` does nothing when it is of another version than the block that came last.
`superseded_harmless` says when neither disturbs the loops: if a version only replaces another one
whose blocks to come it lists, and if the last thing known about a file is not an older version.
`disjointVersions` and `olderLast` are runs in which this is not so.
-/

namespace Bepository.Sync

open Lib Storage List Option

/-! ### The condition -/

/-- Every block that is to come for the file at the path is one of these. -/
def Conn.awaitsOnly (c : Conn) (path : Path) (blocks : List BlockInfo) : Bool :=
  c.jobs.all fun j => splitName j.name ≠ path ||
    j.hashes.all fun hash => blocks.any fun b => b.hash = hash

/-- The condition on a step.  A version that comes in the place of another lists all blocks that are
still to come for the file; a conflict's winner that is hidden by a staged version has no other blocks
than that one; and `complete_file` is called with the version that is staged, unless something else is
still going on about the file. -/
def Conn.successive (epoch : Epoch) (c : Conn) (a : Act) : Bool :=
  match c.doing a with
  | .stage file => c.awaitsOnly (splitName file.name) file.blocks
  | .commit file => (entryAt c.store.db (inboxKey epoch file.name)).isSome ||
      c.awaitsOnly (splitName file.name) file.blocks
  | .copy loser path => (entryAt c.store.db (inboxKey epoch path)).isSome ||
      c.awaitsOnly (splitName path) loser.blocks
  | .winner file =>
    match entryAt c.store.db (inboxKey epoch file.name) with
    | none => c.awaitsOnly (splitName file.name) file.blocks
    | some staged => file.blocks.all fun b => staged.blocks.any fun b' => b'.hash = b.hash
  | .complete name version => (entryAt c.store.db (inboxKey epoch name)).all fun staged =>
      staged.version = version ||
        (c.jobs.erase ⟨name, version, []⟩).any fun j => splitName j.name = splitName name
  | _ => true

/-- A connection, with the files that were staged since it began, and for those that were not committed
directly after that, the version that was staged last. -/
structure Watch where
  conn : Conn
  staged : List Path
  latest : Table Path (Option VersionVector)

def Watch.connect (st : Store) : Watch := ⟨Conn.connect st, [], ∅⟩

def Doing.staged (staged : List Path) : Doing → List Path
  | .stage file => splitName file.name :: staged
  | .reconnect => []
  | _ => staged

/-- The name at which a version is committed without being staged first. -/
def Doing.direct : Doing → Option Str
  | .commit file | .winner file => some file.name
  | .copy _ path => some path
  | _ => none

def Doing.latest (db : Db) (epoch : Epoch) (latest : Table Path (Option VersionVector)) (d : Doing) :
    Table Path (Option VersionVector) :=
  match d, d.direct with
  | .stage file, _ => latest.insert (splitName file.name) file.version
  | .reconnect, _ => ∅
  | _, some name =>
    -- under a staged version the commit does not last
    if (entryAt db (inboxKey epoch name)).isSome then latest else latest.erase (splitName name)
  | _, none => latest

def Watch.step (cfg : Config) (w : Watch) (a : Act) : Option Watch :=
  (w.conn.step cfg a).map fun c =>
    ⟨c, (w.conn.doing a).staged w.staged, (w.conn.doing a).latest w.conn.store.db cfg.epoch w.latest⟩

/-- The version of the entry that `find_file_entry` finds. -/
def foundVersion (db : Db) (epoch : Epoch) (path : Path) : Option (Option VersionVector) :=
  (versionAt db (.mi epoch path)).or (versionAt db (.mn path))

/-! ### The invariant -/

/-- What is to come is listed where it will go, something goes on about every file that is staged, and
of every file that was staged there is a version, the last one if none was committed directly. -/
structure Superseding (epoch : Epoch) (w : Watch) : Prop where
  covered : Covered epoch w.conn
  awaited : ∀ path hash, Wanted w.conn.jobs path hash → Lists w.conn.store.db epoch path hash
  staged : w.conn.shutdown = false → ∀ path ∈ w.staged,
    (entryAt w.conn.store.db (.mi epoch path)).isSome = true → About w.conn.jobs path
  latest : w.conn.shutdown = false → ∀ path ∈ w.staged,
    ∃ v, foundVersion w.conn.store.db epoch path = some v ∧ ∀ v', w.latest.lookup path = some v' → v = v'

section Steps

variable {cfg : Config} {epoch : Epoch} {c c' : Conn} {a : Act} {d : Doing} {path : Path}
  {hash : Bytes}

lemma awaitsOnly_wanted {blocks : List BlockInfo} (h : c.awaitsOnly path blocks = true)
    (hw : Wanted c.jobs path hash) : hash ∈ blocks.map BlockInfo.hash := by
  obtain ⟨j, hj, hname, hmem⟩ := hw
  simp only [Conn.awaitsOnly, List.all_eq_true, Bool.or_eq_true, List.any_eq_true, decide_eq_true_eq] at h
  rcases h j hj with hne | hall
  · exact absurd hname hne
  · obtain ⟨b, hb, he⟩ := hall hash hmem
    exact List.mem_map.2 ⟨b, hb, he⟩

/-- **What is to come stays listed.** -/
lemma lists_step (hm : Moves epoch c c' (c.doing a)) (hg : c.successive epoch a = true)
    (hw : Wanted c.jobs path hash) (h : Lists c.store.db epoch path hash) :
    Lists c'.store.db epoch path hash := by
  have hsame : SameEntries c.store.db c'.store.db → Lists c'.store.db epoch path hash := fun hs =>
    h.of_listing (by rw [listing, hs _ rfl, listing]) (by rw [listing, hs _ rfl, listing])
  unfold Conn.successive at hg
  generalize hd : c.doing a = d at hm hg
  cases hm with
  | same hentries | check hentries | leave hentries | settled hentries | ending hentries | reconnect hentries =>
    exact hsame hentries
  | provide hprov => exact h.of_listing (listing_provided hprov rfl) (listing_provided hprov rfl)
  | @stage file hdb =>
    by_cases hp : path = splitName file.name
    · refine .of_staged ?_ (awaitsOnly_wanted hg (hp ▸ hw))
      rw [hdb, listing_stageFile, hp, ← inboxKey, if_pos rfl]
    · refine h.of_listing ?_ ?_
      · have hne : Key.mi epoch path ≠ inboxKey epoch file.name := fun he => hp (Key.mi.inj he).2
        rw [hdb, listing_stageFile, if_neg hne]
      · rw [hdb, listing_stageFile, if_neg (by rintro ⟨⟩)]
  | @commit file hrep =>
    refine h.replaced hrep fun hp => ?_
    rw [Bool.or_eq_true] at hg
    refine hg.imp_right fun hg => ?_
    rw [hashes_toStored]
    exact awaitsOnly_wanted hg (hp ▸ hw)
  | @copy loser copyPath hrep =>
    refine h.replaced hrep fun hp => ?_
    rw [Bool.or_eq_true] at hg
    refine hg.imp_right fun hg => ?_
    rw [hashes_withPointers, hashes_toStored]
    exact awaitsOnly_wanted hg (hp ▸ hw)
  | @winner file hrep =>
    refine h.replaced hrep fun hp => ?_
    cases hst : entryAt c.store.db (inboxKey epoch file.name) with
    | some => exact .inl rfl
    | none =>
      simp only [hst] at hg
      rw [hashes_toStored]
      exact .inr (awaitsOnly_wanted hg (hp ▸ hw))
  | @complete name version staged hentry _ _ hrep =>
    obtain ⟨-, hgone, -⟩ := listing_replaced hrep (k := inboxKey epoch name) rfl
    by_cases hp : path = splitName name
    · -- the entry that was staged is the committed one now
      subst hp
      obtain ⟨hashes, hfound, hmem⟩ := h
      rw [listing, ← inboxKey, hentry, map_some, some_or] at hfound
      cases hfound
      exact .of_committed (hgone (by rintro ⟨⟩) rfl) ((listing_replaced hrep rfl).1 rfl) hmem
    · refine h.of_listing ?_ ?_
      · exact (listing_replaced hrep rfl).2.2 (by rintro ⟨⟩) fun he => hp (Key.mi.inj he).2
      · exact (listing_replaced hrep rfl).2.2 (fun he => hp (Key.mn.inj he)) (by rintro ⟨⟩)

lemma awaited_step (hs : c.step cfg a = some c') (hg : c.successive cfg.epoch a = true)
    (h : ∀ path hash, Wanted c.jobs path hash → Lists c.store.db cfg.epoch path hash)
    (hw : Wanted c'.jobs path hash) : Lists c'.store.db cfg.epoch path hash := by
  have hold : Wanted c.jobs path hash → Lists c'.store.db cfg.epoch path hash := fun hw =>
    lists_step (step_moves hs) hg hw (h _ _ hw)
  have hsub : (∀ j ∈ c'.jobs, j ∈ c.jobs) → Lists c'.store.db cfg.epoch path hash := by
    intro hsub
    obtain ⟨j, hj, hwj⟩ := hw
    exact hold ⟨j, hsub j hj, hwj⟩
  have hmoves := step_moves hs
  unfold Conn.successive at hg
  generalize c.doing a = d at hmoves hg
  cases hmoves with
  | same _ goes | check _ _ _ goes | provide _ goes | commit _ goes | copy _ goes =>
    exact hold (goes.jobs.within _ _ hw)
  | leave _ goes | settled _ goes => exact hsub goes.mem
  | complete _ _ _ _ _ _ jobs | ending _ _ _ jobs => exact hsub jobs
  | reconnect _ jobs =>
    rw [jobs] at hw
    exact absurd hw wanted_nil
  | @stage file hdb goes =>
    rcases wanted_cons.1 (goes.jobs.within _ _ hw) with ⟨rfl, hmem⟩ | hw
    · refine .of_staged ?_ hmem
      rw [hdb, listing_stageFile]
      exact if_pos rfl
    · exact hold hw
  | @winner file hrep goes =>
    have hw' := goes.jobs.within _ _ hw
    split_ifs at hw'
    · exact hold hw'
    rcases wanted_cons.1 hw' with ⟨rfl, hmem⟩ | hw
    · have hi : listing c'.store.db (inboxKey cfg.epoch file.name) =
          listing c.store.db (inboxKey cfg.epoch file.name) :=
        (listing_replaced hrep rfl).2.2 (by rintro ⟨⟩) not_false
      cases hst : entryAt c.store.db (inboxKey cfg.epoch file.name) with
      | none =>
        rw [listing, listing, hst, map_none] at hi
        refine .of_committed hi ((listing_replaced hrep rfl).1 rfl) ?_
        rw [hashes_toStored]
        exact hmem
      | some =>
        rw [listing, listing, hst, map_some] at hi
        simp only [hst, List.all_eq_true, List.any_eq_true, decide_eq_true_eq] at hg
        obtain ⟨b, hb, rfl⟩ := List.mem_map.1 hmem
        obtain ⟨b', hb', he⟩ := hg b hb
        exact .of_staged hi (List.mem_map.2 ⟨b', hb', he⟩)
    · exact hold hw

lemma staged_step (hm : Moves epoch c c' d) (h : (entryAt c'.store.db (.mi epoch path)).isSome) :
    (entryAt c.store.db (.mi epoch path)).isSome = true ∨ ∃ file, d = .stage file ∧ path = splitName file.name := by
  obtain ⟨fi, hfi⟩ := isSome_iff_exists.1 h
  have hsame : SameEntries c.store.db c'.store.db → (entryAt c.store.db (.mi epoch path)).isSome :=
    fun hs => by rw [← hs _ rfl, hfi, isSome_some]
  have hrep : ∀ {name stored gone}, Replaced c.store.db c'.store.db name stored gone →
      (entryAt c.store.db (.mi epoch path)).isSome :=
    fun hr => by rw [hr.staged hfi, isSome_some]
  cases hm with
  | same hentries | check hentries | leave hentries | settled hentries | ending hentries | reconnect hentries =>
    exact .inl (hsame hentries)
  | commit hr | copy hr | winner hr | complete _ _ _ hr => exact .inl (hrep hr)
  | provide hprov =>
    rw [hprov.entries _ rfl] at hfi
    split_ifs at hfi with hk
    · rw [hk, hprov.entry]
      exact .inl rfl
    · rw [hfi]
      exact .inl rfl
  | @stage file hdb =>
    rw [hdb, stageFile_entries] at hfi
    split_ifs at hfi with hk
    · exact .inr ⟨file, rfl, (Key.mi.inj hk).2⟩
    · rw [hfi]
      exact .inl rfl

lemma about_step {w w' : Watch} (path : Path) (h : Superseding cfg.epoch w)
    (hg : w.conn.successive cfg.epoch a = true) (hs : w.step cfg a = some w')
    (hup : w'.conn.shutdown = false) (hmem : path ∈ w'.staged)
    (hentry : (entryAt w'.conn.store.db (.mi cfg.epoch path)).isSome) : About w'.conn.jobs path := by
  obtain ⟨c', hc, rfl⟩ := map_eq_some_iff.1 hs
  have hmoves := step_moves hc
  unfold Conn.successive at hg
  generalize w.conn.doing a = d at hmoves hg hmem
  have hold : d ≠ .reconnect → path ∈ w.staged →
      (entryAt w.conn.store.db (.mi cfg.epoch path)).isSome = true → About w.conn.jobs path :=
    fun hd => h.staged (hmoves.up hd hup) path
  have hbefore := staged_step hmoves hentry
  -- the job that is given up, if it is about the file
  have hgiven : ∀ {name version}, Leaves name version w.conn c' → About w.conn.jobs path →
      (splitName name = path → About c'.jobs path) → About c'.jobs path := by
    rintro name version hleaves ⟨j, hj, hname⟩ hthis
    rcases mem_cons.1 (hleaves.jobs.mem_iff.1 hj) with rfl | hj
    · exact hthis hname
    · exact ⟨j, hj, hname⟩
  cases hmoves with
  | ending _ hdown =>
    rw [hdown] at hup
    cases hup
  | reconnect => cases hmem
  | @stage file _ goes =>
    refine goes.jobs.about ?_
    by_cases hp : path = splitName file.name
    · exact ⟨wholeJob file, mem_cons_self, hp.symm⟩
    · rcases hbefore with hb | ⟨_, ⟨⟩, hp'⟩
      · obtain ⟨j, hj, hname⟩ := hold (by rintro ⟨⟩) ((mem_cons.1 hmem).resolve_left hp) hb
        exact ⟨j, mem_cons_of_mem _ hj, hname⟩
      · exact absurd hp' hp
  | same _ goes hd =>
    have hb := hbefore.resolve_right fun he => hd _ he.choose_spec.1
    refine goes.jobs.about ?_
    cases d with
    | stage file => exact absurd rfl (hd file)
    | reconnect => cases hmem
    | _ => exact hold (by rintro ⟨⟩) hmem hb
  | check _ _ _ goes | provide _ goes | commit _ goes | copy _ goes | winner _ goes =>
    have hb := hbefore.resolve_right (by rintro ⟨_, ⟨⟩, -⟩)
    obtain ⟨j, hj, hname⟩ := hold (by rintro ⟨⟩) hmem hb
    exact goes.jobs.about ⟨j, mem_append_right _ hj, hname⟩
  | leave _ hleaves others =>
    have hb := hbefore.resolve_right (by rintro ⟨_, ⟨⟩, -⟩)
    exact hgiven hleaves (hold (by rintro ⟨⟩) hmem hb) fun hname => hname ▸ others
  | @settled name version _ hleaves hother =>
    have hb := hbefore.resolve_right (by rintro ⟨_, ⟨⟩, -⟩)
    refine hgiven hleaves (hold (by rintro ⟨⟩) hmem hb) ?_
    rintro rfl
    -- what is staged is of another version, so that others are about it
    obtain ⟨staged, hst⟩ := isSome_iff_exists.1 hb
    simp only [inboxKey, hst, all_some, Bool.or_eq_true, decide_eq_true_eq, List.any_eq_true] at hg
    obtain ⟨j, hj, hname⟩ := hg.resolve_left (hother staged hst)
    have herase := hleaves.jobs.erase ⟨name, version, []⟩
    rw [erase_cons_head] at herase
    exact ⟨j, herase.mem_iff.1 hj, hname⟩
  | complete _ _ _ hrep hleaves =>
    have hb := hbefore.resolve_right (by rintro ⟨_, ⟨⟩, -⟩)
    refine hgiven (hleaves hup) (hold (by rintro ⟨⟩) hmem hb) ?_
    rintro rfl
    rw [show entryAt c'.store.db (.mi cfg.epoch (splitName _)) = none from hrep.unstaged rfl] at hentry
    cases hentry

lemma foundVersion_replaced {db db' : Db} {name : Str} {stored : StoredFile}
    (h : Replaced db db' name stored fun _ => False) :
    foundVersion db' epoch path = foundVersion db epoch path ∨
      (foundVersion db' epoch path).isSome ∧ path = splitName name ∧
        entryAt db (inboxKey epoch name) = none := by
  have hi : entryAt db' (.mi epoch path) = entryAt db (.mi epoch path) :=
    h.elsewhere rfl (by rintro ⟨⟩) not_false
  unfold foundVersion versionAt
  rw [hi]
  by_cases hp : path = splitName name
  · subst hp
    cases hst : entryAt db (inboxKey epoch name) with
    | some =>
      rw [inboxKey] at hst
      rw [hst]
      exact .inl rfl
    | none =>
      obtain ⟨fi', hfi', -⟩ := h.version
      refine .inr ⟨?_, rfl, rfl⟩
      rw [fileKey] at hfi'
      rw [hfi', isSome_or, map_some, isSome_some, Bool.or_true]
  · rw [h.elsewhere rfl (fun he => hp (Key.mn.inj he)) not_false]
    exact .inl rfl

/-- **The version that is found** changes only where one is staged or committed directly. -/
lemma foundVersion_moves (hm : Moves epoch c c' d) (hd : ∀ file, d = .stage file → path ≠ splitName file.name) :
    foundVersion c'.store.db epoch path = foundVersion c.store.db epoch path ∨
      (foundVersion c'.store.db epoch path).isSome ∧ ∃ name, d.direct = some name ∧
        path = splitName name ∧ entryAt c.store.db (inboxKey epoch name) = none := by
  cases hm with
  | same hs | check hs | leave hs | settled hs | ending hs | reconnect hs =>
    left
    simp only [foundVersion, versionAt, hs (.mi epoch path) rfl, hs (.mn path) rfl]
  | provide hprov =>
    left
    rw [foundVersion, hprov.versionAt_eq rfl, hprov.versionAt_eq rfl, foundVersion]
  | @stage file hdb =>
    have hne : Key.mi epoch path ≠ inboxKey epoch file.name := fun he => hd file rfl (Key.mi.inj he).2
    left
    simp only [foundVersion, versionAt, hdb, stageFile_entries]
    rw [if_neg hne, if_neg (by rintro ⟨⟩)]
  | commit hr | copy hr | winner hr =>
    refine (foundVersion_replaced hr).imp_right ?_
    rintro ⟨hsome, hp, hnone⟩
    exact ⟨hsome, _, rfl, hp, hnone⟩
  | @complete name version staged hentry _ _ hrep =>
    left
    unfold foundVersion versionAt
    by_cases hp : path = splitName name
    · -- the version that was staged is the committed one now
      subst hp
      obtain ⟨q, hq⟩ := hrep
      obtain ⟨fi', hfi', hv, -⟩ := Replaced.version ⟨q, hq⟩
      rw [fileKey] at hfi'
      rw [inboxKey] at hentry
      rw [(hq (.mi epoch (splitName name)) rfl).2.1 (by rintro ⟨⟩) rfl, hfi', hentry]
      exact congrArg some hv
    · rw [hrep.elsewhere rfl (by rintro ⟨⟩) fun he => hp (Key.mi.inj he).2,
        hrep.elsewhere rfl (fun he => hp (Key.mn.inj he)) (by rintro ⟨⟩)]

lemma lookup_latest {db : Db} {latest : Table Path (Option VersionVector)} {v : Option VersionVector}
    (hd : ∀ file, d = .stage file → path ≠ splitName file.name)
    (h : (d.latest db epoch latest).lookup path = some v) : latest.lookup path = some v := by
  unfold Doing.latest at h
  split at h
  · next file => rwa [Table.lookup_insert', if_neg (hd file rfl)] at h
  · cases h
  · split_ifs at h
    · exact h
    · exact Table.lookup_of_erase h
  · exact h

lemma latest_step {w w' : Watch} (path : Path) (h : Superseding cfg.epoch w) (hs : w.step cfg a = some w')
    (hup : w'.conn.shutdown = false) (hmem : path ∈ w'.staged) :
    ∃ v, foundVersion w'.conn.store.db cfg.epoch path = some v ∧
      ∀ v', w'.latest.lookup path = some v' → v = v' := by
  obtain ⟨c', hc, rfl⟩ := map_eq_some_iff.1 hs
  have hmoves := step_moves hc
  dsimp only at hmem ⊢
  generalize w.conn.doing a = d at hmoves hmem ⊢
  by_cases hst : ∃ file, d = .stage file ∧ path = splitName file.name
  · obtain ⟨file, rfl, rfl⟩ := hst
    cases hmoves with
    | same _ _ hd => exact absurd rfl (hd file)
    | ending _ hdown =>
      rw [hdown] at hup
      cases hup
    | stage hdb =>
      refine ⟨file.version, ?_, fun v' hv' => ?_⟩
      · rw [foundVersion, versionAt, hdb, stageFile_entries, inboxKey, if_pos rfl]
        rfl
      · exact Option.some.inj ((AList.lookup_insert w.latest).symm.trans hv')
  · have hd : ∀ file, d = .stage file → path ≠ splitName file.name := fun file he hp => hst ⟨file, he, hp⟩
    have hre : d ≠ .reconnect := by
      rintro rfl
      cases hmem
    have hold : path ∈ w.staged := by
      cases d with
      | stage file => exact (mem_cons.1 hmem).resolve_left (hd file rfl)
      | reconnect => exact absurd rfl hre
      | _ => exact hmem
    rcases foundVersion_moves hmoves hd with he | ⟨hsome, name, hdir, rfl, hnone⟩
    · obtain ⟨v, hv, hlatest⟩ := h.latest (hmoves.up hre hup) path hold
      exact ⟨v, he.trans hv, fun v' hv' => hlatest v' (lookup_latest hd hv')⟩
    · obtain ⟨v, hv⟩ := isSome_iff_exists.1 hsome
      refine ⟨v, hv, fun v' hv' => ?_⟩
      -- a version that is committed directly is not recorded
      have hgone : (d.latest w.conn.store.db cfg.epoch w.latest).lookup (splitName name) = none := by
        cases d with
        | commit | winner | copy =>
          cases hdir
          simp only [Doing.latest, Doing.direct, hnone, isSome_none, Bool.false_eq_true, if_false]
          exact AList.lookup_erase _ _
        | _ => cases hdir
      rw [hgone] at hv'
      cases hv'

/-- **One step** under the condition. -/
lemma Superseding.step {w w' : Watch} (h : Superseding cfg.epoch w)
    (hg : w.conn.orderly cfg.epoch a = true ∧ w.conn.successive cfg.epoch a = true)
    (hs : w.step cfg a = some w') : Superseding cfg.epoch w' := by
  have habout := fun hup path hmem => about_step path h hg.2 hs hup hmem
  have hlatest := fun hup path hmem => latest_step path h hs hup hmem
  obtain ⟨c', hc, rfl⟩ := map_eq_some_iff.1 hs
  exact ⟨covered_step h.covered hg.1 hc, fun _ _ => awaited_step hc hg.2 h.awaited, habout, hlatest⟩

end Steps

/-! ### Runs -/

/-- **Late responses are harmless**, in every run under the condition and with legible rows: no call of
`handle_response` and of `drain_deferred` fails, and when nothing goes on about a file that was staged, it
is no longer staged but committed, at the version that was staged last if none was committed directly. -/
theorem superseded_harmless {cfg : Config} {st : Store} {acts : List Act} {w : Watch}
    (hm : Meets (Watch.step cfg) (fun w a => w.conn.orderly cfg.epoch a = true ∧
      w.conn.successive cfg.epoch a = true) (Watch.connect st) acts)
    (hr : run (Watch.step cfg) (Watch.connect st) acts = some w) :
    (w.conn.store.db.legible = true →
      (∀ block data, w.conn.msg = .store block data → ∃ st', storeBlock cfg.bl w.conn.store
        (some cfg.epoch) block.name block.hash data = (.ok (), st')) ∧
      (∀ d done, w.conn.msg = .reuse d done → ∃ found st',
        w.conn.reuseBlock cfg d.block.name d.block.hash d.size = (.ok found, st')) ∧
      ∀ name version, (name, version) ∈ w.conn.completing →
        ∃ r db, completeFile w.conn.store.db cfg.epoch name version = (.ok r, db)) ∧
    (w.conn.shutdown = false → ∀ path ∈ w.staged, (∀ j ∈ w.conn.jobs, splitName j.name ≠ path) →
      entryAt w.conn.store.db (.mi cfg.epoch path) = none ∧ ∃ fi, entryAt w.conn.store.db (.mn path) = some fi ∧
        ∀ version, w.latest.lookup path = some version → fi.version = version) := by
  have hinit : Superseding cfg.epoch (Watch.connect st) :=
    ⟨⟨fun _ _ _ _ _ ht => absurd ht tracked_nil, fun _ _ _ _ hmem => absurd hmem not_mem_nil⟩,
      fun _ _ hw => absurd hw wanted_nil, fun _ _ hmem => absurd hmem not_mem_nil,
      fun _ _ hmem => absurd hmem not_mem_nil⟩
  have hinv : Superseding cfg.epoch w :=
    run_inv (P := Superseding cfg.epoch) (fun _ _ _ hi hg hs => hi.step hg hs) hinit hm hr
  refine ⟨fun hleg => ⟨fun block data hpc => ?_, fun d done hpc => ?_, fun name version hc => ?_⟩,
    fun hup path hmem hnone => ?_⟩
  · have hdec := Db.decodes_of_legible hleg
    refine storeBlock_ok hdec (hinv.awaited _ _ ⟨block.job, ?_, rfl, mem_singleton.2 rfl⟩) data
    simp [Conn.jobs, Conn.inHand, hpc, MsgPc.jobs]
  · unfold Conn.reuseBlock
    split_ifs
    · exact ⟨_, _, rfl⟩
    · have hdec := Db.decodes_of_legible hleg
      refine reuseBlock_ok hdec (hinv.awaited _ _ ⟨d.block.job, ?_, rfl, mem_singleton.2 rfl⟩)
      simp [Conn.jobs, Conn.inHand, hpc, MsgPc.jobs]
  · refine completeFile_ok hleg fun staged hst hv => completable_of_not_lacks fun hash => ?_
    rw [← hv] at hc
    exact hinv.covered.completing name staged hash hst hc
  · have hst : entryAt w.conn.store.db (.mi cfg.epoch path) = none := by
      by_contra hst
      obtain ⟨j, hj, hname⟩ := hinv.staged hup path hmem (isSome_iff_ne_none.2 hst)
      exact hnone j hj hname
    obtain ⟨v, hv, hlatest⟩ := hinv.latest hup path hmem
    rw [foundVersion, versionAt, hst, map_none, none_or, versionAt] at hv
    obtain ⟨fi, hfi, rfl⟩ := map_eq_some_iff.1 hv
    exact ⟨hst, fi, hfi, hlatest⟩

/-! ### Two versions -/

def olderFile : WireFile := ⟨['f'], 1, some ⟨[⟨1, 1⟩]⟩, 1, [blockOf 0 0], 0, false⟩

def disjointFile : WireFile := ⟨['f'], 1, some ⟨[⟨1, 2⟩]⟩, 2, [blockOf 1 0], 0, false⟩

def longerFile : WireFile := ⟨['f'], 2, some ⟨[⟨1, 2⟩]⟩, 2, [blockOf 0 0, blockOf 1 1], 0, false⟩

/-- The first version is staged and requested, and the next one before the peer answers. -/
def bothRequested (newer : WireFile) : List Act :=
  [.index [olderFile] 1] ++ List.replicate 9 .indexStep ++ [.index [newer] 2] ++
    List.replicate (7 + 2 * newer.blocks.length) .indexStep

/-- The peer answers a request, and the message loop goes on until it is idle. -/
def answered (id : ℤ) (steps : ℕ) : List Act := .response id 0 [7] :: List.replicate steps .msgStep

def disjointVersions : List Act := bothRequested disjointFile ++ answered 0 0

/-- The peer answers both requests for the second version, and then the one for the first. -/
def olderLast : List Act := bothRequested longerFile ++ answered 1 3 ++ answered 2 3 ++ answered 0 4

/-- With disjoint versions `store_block` fails.  If the older version's response comes last, nothing
more is to come, all blocks of the newer version are there, and it is not completed. -/
theorem superseded_harmful :
    (∃ w block data msg, run (Watch.step sampleConfig) (Watch.connect Store.empty) disjointVersions =
      some w ∧ w.conn.store.db.legible = true ∧ w.conn.msg = .store block data ∧
      (storeBlock sampleConfig.bl w.conn.store (some firstEpoch) block.name block.hash data).1 =
        .error (.notFound msg)) ∧
    ∃ w staged, run (Watch.step sampleConfig) (Watch.connect Store.empty) olderLast = some w ∧
      w.conn.shutdown = false ∧ w.conn.jobs = [] ∧ splitName ['f'] ∈ w.staged ∧
      entryAt w.conn.store.db (inboxKey firstEpoch ['f']) = some staged ∧
      staged.version = longerFile.version ∧ staged.blocks.all StoredBlock.hasPointer = true := by
  constructor
  · obtain ⟨w, hr, hlegible, hmsg, herr⟩ : ∃ w, run (Watch.step sampleConfig) (Watch.connect Store.empty)
        disjointVersions = some w ∧ w.conn.store.db.legible = true ∧
          w.conn.msg = .store ⟨['f'], 0, List.replicate 32 0, olderFile.version⟩ [7] ∧
          (storeBlock sampleConfig.bl w.conn.store (some firstEpoch) ['f'] (List.replicate 32 0) [7]).1 =
            .error (.notFound
              s!"block with hash {(hexEncode (List.replicate 32 0)).toString} not found in file f") := by
      decide
    exact ⟨w, _, _, _, hr, hlegible, hmsg, herr⟩
  · simp only [exists_and_left]
    decide +kernel

/-- The peer answers the request for the first version's block before the others. -/
def olderFirst : List Act := bothRequested longerFile ++ answered 0 3 ++ answered 2 3 ++ answered 1 5

/-- The last answer completes the newer version. -/
theorem superseded_harmless_olderFirst :
    ∃ w fi, run (Watch.step sampleConfig) (Watch.connect Store.empty) olderFirst = some w ∧
      w.conn.jobs = [] ∧ entryAt w.conn.store.db (.mi firstEpoch (splitName ['f'])) = none ∧
      entryAt w.conn.store.db (fileKey ['f']) = some fi ∧ fi.version = longerFile.version := by
  obtain ⟨w, hr, hup, hjobs, hstaged, hlatest⟩ : ∃ w, run (Watch.step sampleConfig)
      (Watch.connect Store.empty) olderFirst = some w ∧ w.conn.shutdown = false ∧ w.conn.jobs = [] ∧
        splitName ['f'] ∈ w.staged ∧ w.latest.lookup (splitName ['f']) = some longerFile.version := by
    decide +kernel
  obtain ⟨hnone, fi, hfi, hversion⟩ := (superseded_harmless (by decide +kernel) hr).2 hup _ hstaged (by
    rw [hjobs]
    rintro j ⟨⟩)
  exact ⟨w, fi, hr, hjobs, hnone, hfi, hversion _ hlatest⟩

end Bepository.Sync
