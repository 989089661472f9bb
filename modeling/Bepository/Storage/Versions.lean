import Bepository.Lib.Run
import Bepository.Storage.Api

/-!
# Committed versions

Index updates of any number of connections, interleaved.  `apply_update` compares the announced
version with the committed one without holding a lock, and a file that it stages is committed much
later, by `complete_file`.  If the committed entry is then still the one that the file was compared
with, it is not replaced by an older version (`committed_notOlder`); `olderCommitted` is a run in which
it is not.
-/

namespace Bepository.Storage

open Lib Option

/-! ### The machine -/

/-- A call of `apply_update` or `resolve_conflict` in flight.  `seen` is the version that the file was
compared with: no part of the code, it only remembers. -/
inductive UpdateTask where
  | read (remote : WireFile)
  | perform (remote : WireFile) (step : UpdateStep) (seen : Option (Option VersionVector))
  | concurrent (localFile remote : WireFile)
  | copy (winner loser : WireFile) (path : Str) (seen : Option (Option VersionVector))
  | winner (file : WireFile) (seen : Option (Option VersionVector))

/-- `against` remembers what the staged entries were compared with. -/
structure Updates where
  store : Store
  tasks : Table ℕ UpdateTask
  against : Path → Option (Option VersionVector)

inductive UpdateAct where
  | announce (t : ℕ) (remote : WireFile)
  | next (t : ℕ)
  | resolve (t : ℕ) (remoteWins : Bool) (loserPath : Option Str)
  | complete (name : Str) (expected : Option VersionVector)
  | storeBlock (name : Str) (hash data : Bytes)
  | reuseBlock (name : Str) (hash : Bytes)

namespace Updates

def setDb (u : Updates) (db : Db) : Updates := { u with store := { u.store with db := db } }

def setTask (u : Updates) (t : ℕ) (task : UpdateTask) : Updates :=
  { u with tasks := u.tasks.insert t task }

def endTask (u : Updates) (t : ℕ) : Updates := { u with tasks := u.tasks.erase t }

section Step

variable (bl : Blooms) (epoch : Epoch)

/-- The unlocked read of `apply_update`. -/
def readStep (u : Updates) (t : ℕ) (remote : WireFile) : Updates :=
  match readUpdate u.store.db remote with
  | .error _ => u.endTask t
  | .ok .noAction => u.endTask t
  | .ok (.concurrent localFile) => u.setTask t (.concurrent localFile remote)
  | .ok step => u.setTask t (.perform remote step (versionAt u.store.db (fileKey remote.name)))

/-- What was staged was compared with `seen`. -/
def noteStaged (u : Updates) (name : Str) (seen : Option (Option VersionVector)) : UpdateStep → Updates
  | .stage => { u with against := Function.update u.against (splitName name) seen }
  | _ => u

def taskStep (u : Updates) (t : ℕ) : UpdateTask → Option Updates
  | .read remote => some (u.readStep t remote)
  | .perform remote step seen =>
    some (((u.setDb (performUpdate u.store.db epoch remote step).2).noteStaged
      remote.name seen step).endTask t)
  | .concurrent .. => none
  | .copy winner loser path seen =>
    match copyLoser u.store loser (some path) with
    | (.error _, st) => some ({ u with store := st }.endTask t)
    | (.ok _, st) => some ({ u with store := st }.setTask t (.winner winner seen))
  | .winner file _ => some ((u.setDb (putFile u.store.db file).2).endTask t)

def resolveStep (u : Updates) (t : ℕ) (remoteWins : Bool) (loserPath : Option Str) :
    UpdateTask → Option Updates
  | .concurrent localFile remote =>
    let winner := if remoteWins then remote else localFile
    let loser := if remoteWins then localFile else remote
    match loserPath with
    | none => some (u.setTask t (.winner winner (some localFile.version)))
    | some path => some (u.setTask t (.copy winner loser path (some localFile.version)))
  | _ => none

def step (u : Updates) : UpdateAct → Option Updates
  | .announce t remote =>
    if t ∈ u.tasks then none
    else match checkUpdate remote with
      | .error _ => some u
      | .ok () => some (u.setTask t (.read remote))
  | .next t => (u.tasks.lookup t).bind (u.taskStep epoch t)
  | .resolve t remoteWins loserPath => (u.tasks.lookup t).bind (u.resolveStep t remoteWins loserPath)
  | .complete name expected => some (u.setDb (completeFile u.store.db epoch name expected).2)
  | .storeBlock name hash data =>
    some { u with store := (Storage.storeBlock bl u.store (some epoch) name hash data).2 }
  | .reuseBlock name hash =>
    some { u with store := (Storage.reuseBlock bl u.store (some epoch) name hash).2 }

/-- The condition on a commit: the committed entry is still the one that the file was compared with,
and a conflict copy finds its path free. -/
def stillCurrent (u : Updates) : UpdateAct → Bool
  | .next t =>
    match u.tasks.lookup t with
    | some (.perform remote .commit seen) => versionAt u.store.db (fileKey remote.name) = seen
    | some (.copy _ _ path _) => versionAt u.store.db (fileKey path) = none
    | some (.winner file seen) => versionAt u.store.db (fileKey file.name) = seen
    | _ => true
  | .complete name _ => (entryAt u.store.db (inboxKey epoch name)).isNone ||
      versionAt u.store.db (fileKey name) = u.against (splitName name)
  | _ => true

end Step

end Updates

/-! ### The invariant -/

/-- What a call in flight is about to commit or to stage is not older than what it was compared with. -/
def UpdateTask.Ok : UpdateTask → Prop
  | .read _ => True
  | .perform remote step seen => step = .stage ∨ step = .commit → NotOlder seen remote.version
  | .concurrent localFile remote => NotOlder (some localFile.version) remote.version
  | .copy file _ _ seen => NotOlder seen file.version
  | .winner file seen => NotOlder seen file.version

structure Compared (epoch : Epoch) (u : Updates) : Prop where
  tasks : ∀ t task, u.tasks.lookup t = some task → task.Ok
  staged : ∀ path fi, entryAt u.store.db (.mi epoch path) = some fi → NotOlder (u.against path) fi.version

def NoneOlder (db db' : Db) : Prop :=
  ∀ path v w, versionAt db (.mn path) = some (some v) → versionAt db' (.mn path) = some (some w) →
    compareVersions v w ≠ .ok .greater

section Steps

variable {bl : Blooms} {epoch : Epoch} {u u' : Updates} {t : ℕ} {db db' : Db} {name : Str}
  {stored : StoredFile}

lemma NoneOlder.of_eq (h : ∀ path, versionAt db' (.mn path) = versionAt db (.mn path)) : NoneOlder db db' := by
  intro path v w hv hw
  rw [h, hv] at hw
  cases hw
  exact compareVersions_self

lemma SameEntries.noneOlder (h : SameEntries db db') : NoneOlder db db' :=
  NoneOlder.of_eq fun path => by
    unfold versionAt
    rw [h _ rfl]

variable {seen : Option (Option VersionVector)}

/-- **A commit** over the entry that the new version was compared with. -/
lemma Replaced.noneOlder {gone : Key → Prop} (h : Replaced db db' name stored gone)
    (hgone : ∀ path, ¬ gone (.mn path)) (hseen : versionAt db (fileKey name) = seen)
    (hold : NotOlder seen stored.version) : NoneOlder db db' := by
  obtain ⟨q, hq⟩ := h
  intro path v w hv hw
  obtain ⟨hnew, -, hother⟩ := hq (.mn path) rfl
  by_cases hp : Key.mn path = fileKey name
  · rw [hp, hseen] at hv
    unfold versionAt at hw
    rw [hnew hp, map_some, version_withPointers] at hw
    exact hold v w hv (Option.some.inj hw)
  · unfold versionAt at hv hw
    rw [hother hp (hgone path), hv] at hw
    cases hw
    exact compareVersions_self

lemma Provided.versionAt_eq {e : Epoch} {hash : Bytes} {k₀ k : Key} {fi fi' : StoredFile}
    (h : Provided db db' e name hash k₀ fi fi') (hk : k.holdsFile = true) :
    versionAt db' k = versionAt db k := by
  obtain ⟨seq, data, -, rfl⟩ := h.pointed
  unfold versionAt
  rw [h.entries k hk]
  split_ifs with hk₀
  · rw [hk₀, h.entry]
    rfl
  · rfl

section

variable (h : Compared epoch u) (ht : u'.tasks = u.tasks) (ha : u'.against = u.against)
include h ht ha

lemma Compared.of_versions
    (hv : ∀ path, versionAt u'.store.db (.mi epoch path) = versionAt u.store.db (.mi epoch path)) :
    Compared epoch u' := by
  refine ⟨by rw [ht]; exact h.tasks, fun path fi hfi => ?_⟩
  have hver : versionAt u.store.db (.mi epoch path) = some fi.version := by
    rw [← hv]
    unfold versionAt
    rw [hfi]
    rfl
  obtain ⟨fi₀, hfi₀, heq⟩ := map_eq_some_iff.1 hver
  rw [ha, ← heq]
  exact h.staged path fi₀ hfi₀

lemma Compared.of_sameEntries (hs : SameEntries u.store.db u'.store.db) : Compared epoch u' :=
  h.of_versions ht ha fun path => by
    unfold versionAt
    rw [hs _ rfl]

lemma Compared.of_staged (hs : ∀ path fi, entryAt u'.store.db (.mi epoch path) = some fi →
      entryAt u.store.db (.mi epoch path) = some fi) :
    Compared epoch u' := by
  refine ⟨by rw [ht]; exact h.tasks, fun path fi hfi => ?_⟩
  rw [ha]
  exact h.staged path fi (hs path fi hfi)

end

variable {task : UpdateTask}

section

variable (h : Compared epoch u)
include h

lemma Compared.setTask (hok : task.Ok) : Compared epoch (u.setTask t task) := by
  exact ⟨Table.forall_insert h.tasks hok, h.staged⟩

lemma Compared.endTask : Compared epoch (u.endTask t) := by
  exact ⟨Table.forall_erase h.tasks t, h.staged⟩

lemma Compared.stage {remote : WireFile} (hold : NotOlder seen remote.version) :
    Compared epoch ((u.setDb (stageFile u.store.db epoch remote)).noteStaged remote.name seen .stage) := by
  refine ⟨h.tasks, fun path fi hfi => ?_⟩
  simp only [Updates.noteStaged, Updates.setDb, stageFile_entries] at hfi ⊢
  split_ifs at hfi with hk
  · have hp : path = splitName remote.name := by
      cases hk
      rfl
    subst hp
    cases hfi
    rw [Function.update_self]
    exact hold
  · have hp : path ≠ splitName remote.name := by
      rintro rfl
      exact hk rfl
    rw [Function.update_of_ne hp]
    exact h.staged path fi hfi

lemma Compared.readStep (remote : WireFile) :
    Compared epoch (u.readStep t remote) ∧ (u.readStep t remote).store = u.store := by
  unfold Updates.readStep
  split
  · exact ⟨h.endTask, rfl⟩
  · exact ⟨h.endTask, rfl⟩
  · next localFile hr => exact ⟨h.setTask ((readUpdate_eq_ok hr).2 localFile rfl).2, rfl⟩
  · next step _ _ hr => exact ⟨h.setTask (readUpdate_eq_ok hr).1, rfl⟩

lemma Compared.put {file : WireFile} (hseen : versionAt u.store.db (fileKey file.name) = seen)
    (hok : NotOlder seen file.version) : Compared epoch ((u.setDb (putFile u.store.db file).2).endTask t) ∧
      NoneOlder u.store.db (putFile u.store.db file).2 := by
  cases hp : putFile u.store.db file with
  | mk r db₁ =>
    rcases putFile_entries hp with ⟨rfl, -⟩ | ⟨-, hrep⟩
    · exact ⟨h.endTask, SameEntries.noneOlder fun _ _ => rfl⟩
    · have hstaged : Compared epoch (u.setDb db₁) := h.of_staged rfl rfl fun path fi hfi => hrep.staged hfi
      exact ⟨hstaged.endTask, hrep.noneOlder (fun _ => not_false) hseen hok⟩

lemma Compared.taskStep (ht : u.tasks.lookup t = some task) (hg : u.stillCurrent epoch (.next t) = true)
    (hs : u.taskStep epoch t task = some u') : Compared epoch u' ∧ NoneOlder u.store.db u'.store.db := by
  have hok : task.Ok := h.tasks t task ht
  simp only [Updates.stillCurrent, ht] at hg
  cases task with
  | read remote =>
    cases hs
    obtain ⟨hc, hst⟩ := h.readStep (t := t) remote
    refine ⟨hc, ?_⟩
    rw [hst]
    exact SameEntries.noneOlder fun _ _ => rfl
  | perform remote step =>
    cases hs
    cases step with
    | stage =>
      refine ⟨(h.stage (hok (.inl rfl))).endTask, NoneOlder.of_eq fun path => ?_⟩
      change versionAt (stageFile u.store.db epoch remote) (.mn path) = _
      unfold versionAt
      rw [stageFile_entries, if_neg (by rintro ⟨⟩)]
    | commit =>
      have hdb : (performUpdate u.store.db epoch remote .commit).2 = (putFile u.store.db remote).2 := by
        simp only [performUpdate]
      rw [hdb]
      exact h.put (of_decide_eq_true hg) (hok (.inr rfl))
    | noAction | concurrent => exact ⟨h.endTask, SameEntries.noneOlder fun _ _ => rfl⟩
  | concurrent => cases hs
  | copy winner loser path =>
    have hfree : versionAt u.store.db (fileKey path) = none := of_decide_eq_true hg
    cases hp : putFileWithCarry u.store { loser with name := path } loser.name with
    | mk r st =>
      have hcopy : copyLoser u.store loser (some path) = (r.map fun _ => (), st) := by
        simp only [copyLoser, hp]
      have hstep : Compared epoch { u with store := st } ∧ NoneOlder u.store.db st.db := by
        rcases putFileWithCarry_entries hp with ⟨hdb, -⟩ | ⟨-, hrep⟩
        · have hsame : SameEntries u.store.db st.db := fun k _ => by rw [hdb]
          exact ⟨h.of_sameEntries rfl rfl hsame, hsame.noneOlder⟩
        · exact ⟨h.of_staged rfl rfl fun path fi hfi => hrep.staged hfi,
            hrep.noneOlder (fun _ => not_false) hfree NotOlder.none⟩
      simp only [Updates.taskStep, hcopy] at hs
      cases r <;> cases hs
      · exact ⟨hstep.1.endTask, hstep.2⟩
      · exact ⟨hstep.1.setTask hok, hstep.2⟩
  | winner =>
    cases hs
    exact h.put (of_decide_eq_true hg) hok

lemma Compared.resolveStep {remoteWins : Bool} {loserPath : Option Str} (ht : u.tasks.lookup t = some task)
    (hs : u.resolveStep t remoteWins loserPath task = some u') : Compared epoch u' ∧ u'.store = u.store := by
  have hok : task.Ok := h.tasks t task ht
  cases task with
  | concurrent localFile remote =>
    have hwin : NotOlder (some localFile.version) (if remoteWins then remote else localFile).version := by
      cases remoteWins
      · exact NotOlder.refl
      · exact hok
    cases loserPath <;> cases hs <;> exact ⟨h.setTask hwin, rfl⟩
  | _ => cases hs

/-- **One step**, where commits find the entry that they were compared with. -/
theorem compared_step {a : UpdateAct} (hg : u.stillCurrent epoch a = true) (hs : u.step bl epoch a = some u') :
    Compared epoch u' ∧ NoneOlder u.store.db u'.store.db := by
  have hsame : SameEntries u.store.db u.store.db := fun _ _ => rfl
  cases a with
  | announce =>
    simp only [Updates.step] at hs
    split_ifs at hs
    split at hs <;> cases hs
    · exact ⟨h, hsame.noneOlder⟩
    · exact ⟨h.setTask trivial, hsame.noneOlder⟩
  | next =>
    obtain ⟨task, ht, hs⟩ := bind_eq_some_iff.1 hs
    exact h.taskStep ht hg hs
  | resolve =>
    obtain ⟨task, ht, hs⟩ := bind_eq_some_iff.1 hs
    obtain ⟨hc, hst⟩ := h.resolveStep ht hs
    refine ⟨hc, ?_⟩
    rw [hst]
    exact hsame.noneOlder
  | complete name expected =>
    cases hs
    cases hp : completeFile u.store.db epoch name expected with
    | mk =>
      rcases completeFile_entries hp with rfl | ⟨staged, hst, -, -, hrep⟩
      · exact ⟨h, hsame.noneOlder⟩
      · refine ⟨h.of_staged rfl rfl fun path fi hfi => hrep.staged hfi, ?_⟩
        have hseen : versionAt u.store.db (fileKey name) = u.against (splitName name) := by
          simpa [Updates.stillCurrent, hst] using hg
        exact hrep.noneOlder (fun _ => (by rintro ⟨⟩)) hseen (h.staged _ staged hst)
  | storeBlock name hash data =>
    cases hs
    cases hp : storeBlock bl u.store (some epoch) name hash data with
    | mk =>
      rcases storeBlock_entries hp with ⟨hst, -⟩ | ⟨-, k₀, fi, fi', hprov⟩
      · exact ⟨h.of_sameEntries rfl rfl hst, hst.noneOlder⟩
      · exact ⟨h.of_versions rfl rfl fun path => hprov.versionAt_eq rfl,
          NoneOlder.of_eq fun path => hprov.versionAt_eq rfl⟩
  | reuseBlock name hash =>
    cases hs
    cases hp : reuseBlock bl u.store (some epoch) name hash with
    | mk =>
      rcases reuseBlock_entries hp with ⟨rfl, -⟩ | ⟨-, k₀, fi, fi', hprov⟩
      · exact ⟨h, hsame.noneOlder⟩
      · exact ⟨h.of_versions rfl rfl fun path => hprov.versionAt_eq rfl,
          NoneOlder.of_eq fun path => hprov.versionAt_eq rfl⟩

end

end Steps

/-! ### Runs -/

/-- A session starts with no call in flight and nothing staged under its epoch. -/
def Updates.Initial (epoch : Epoch) (u : Updates) : Prop :=
  u.tasks = ∅ ∧ ∀ path, entryAt u.store.db (.mi epoch path) = none

/-- **Committed versions do not go backwards** in a run in which every commit finds the entry that its
version was compared with. -/
theorem committed_notOlder {bl : Blooms} {epoch : Epoch} {u u₁ u₂ : Updates} {acts : List UpdateAct}
    {a : UpdateAct} (h0 : u.Initial epoch)
    (hm : Meets (Updates.step bl epoch) (fun u a => u.stillCurrent epoch a = true) u (acts ++ [a]))
    (hr : run (Updates.step bl epoch) u acts = some u₁) (hs : u₁.step bl epoch a = some u₂) {path : Path}
    {v w : VersionVector} (hv : versionAt u₁.store.db (.mn path) = some (some v))
    (hw : versionAt u₂.store.db (.mn path) = some (some w)) : compareVersions v w ≠ .ok .greater := by
  have hinit : Compared epoch u := by
    refine ⟨fun t task ht => ?_, fun path fi hfi => ?_⟩
    · rw [h0.1] at ht
      cases ht
    · rw [h0.2] at hfi
      cases hfi
  have hc : Compared epoch u₁ :=
    run_inv (P := Compared epoch) (fun s a t hi hg hs => (compared_step hi hg hs).1) hinit hm.of_append hr
  exact (compared_step hc (hm.last hr) hs).2 path v w hv hw

/-! ### A commit over a newer version -/

/-- The file `f` at the version with this count of device 1. -/
def editOf (count : ℕ) (size : ℤ) (blocks : List BlockInfo) : WireFile :=
  ⟨['f'], size, some ⟨[⟨1, count⟩]⟩, 0, blocks, 0, false⟩

def smallBlock : BlockInfo := ⟨List.replicate 32 0, 0, 1⟩

def firstCommit : List UpdateAct :=
  [.announce 0 (editOf 1 0 []), .next 0, .next 0, .complete ['f'] (editOf 1 0 []).version]

/-- The second version waits in the inbox until its block arrives. -/
def secondStaged (meanwhile : List UpdateAct) : List UpdateAct :=
  firstCommit ++ [.announce 1 (editOf 2 1 [smallBlock]), .next 1, .next 1] ++ meanwhile ++
    [.storeBlock ['f'] smallBlock.hash [7]]

/-- Meanwhile the third version, which needs no block, is committed at once. -/
def olderCommitted : List UpdateAct := secondStaged [.announce 2 (editOf 3 0 []), .next 2, .next 2]

def emptyUpdates : Updates := ⟨Store.empty, ∅, fun _ => none⟩

/-- The third version is replaced by the second. -/
theorem committed_older :
    ∃ u₁ u₂, run (Updates.step exactFilters firstEpoch) emptyUpdates olderCommitted = some u₁ ∧
      u₁.step exactFilters firstEpoch (.complete ['f'] (editOf 2 1 []).version) = some u₂ ∧
      versionAt u₁.store.db (fileKey ['f']) = some (some ⟨[⟨1, 3⟩]⟩) ∧
      versionAt u₂.store.db (fileKey ['f']) = some (some ⟨[⟨1, 2⟩]⟩) ∧
      compareVersions ⟨[⟨1, 3⟩]⟩ ⟨[⟨1, 2⟩]⟩ = .ok .greater := by
  simp only [exists_and_left]
  decide

lemma emptyUpdates_initial : emptyUpdates.Initial firstEpoch := ⟨rfl, fun _ => rfl⟩

/-- The second version alone is completed over the first. -/
theorem committed_notOlder_editOf :
    ∃ u₁ u₂, run (Updates.step exactFilters firstEpoch) emptyUpdates (secondStaged []) = some u₁ ∧
      u₁.step exactFilters firstEpoch (.complete ['f'] (editOf 2 1 []).version) = some u₂ ∧
      versionAt u₁.store.db (fileKey ['f']) = some (some ⟨[⟨1, 1⟩]⟩) ∧
      versionAt u₂.store.db (fileKey ['f']) = some (some ⟨[⟨1, 2⟩]⟩) ∧
      compareVersions ⟨[⟨1, 1⟩]⟩ ⟨[⟨1, 2⟩]⟩ ≠ .ok .greater := by
  obtain ⟨u₁, hr, u₂, hs, h₁, h₂⟩ : ∃ u₁,
      run (Updates.step exactFilters firstEpoch) emptyUpdates (secondStaged []) = some u₁ ∧
      ∃ u₂, u₁.step exactFilters firstEpoch (.complete ['f'] (editOf 2 1 []).version) = some u₂ ∧
        versionAt u₁.store.db (fileKey ['f']) = some (some ⟨[⟨1, 1⟩]⟩) ∧
        versionAt u₂.store.db (fileKey ['f']) = some (some ⟨[⟨1, 2⟩]⟩) := by
    decide
  exact ⟨u₁, u₂, hr, hs, h₁, h₂, committed_notOlder emptyUpdates_initial (by decide) hr hs h₁ h₂⟩

end Bepository.Storage
