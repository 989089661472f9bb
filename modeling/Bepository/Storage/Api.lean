import Bepository.Bep.Conflict
import Bepository.Bep.Validate
import Bepository.Storage.Effects

/-!
# Index updates (`bepository-storage/src/api.rs`)

`SlateFolder::apply_update` reads the committed entry of the name without a lock, compares versions
and then stages the announced file or commits it.  The read and what follows it are functions of their
own, since other calls can come between the two.
-/

namespace Bepository.Storage

open Lib

/-- `blocks_equal` (`bepository-bep/src/storage.rs`). -/
def blocksEqual (a b : WireFile) : Bool :=
  a.blocks.length = b.blocks.length &&
    (a.blocks.zip b.blocks).all fun p => p.1.hash = p.2.hash && p.1.size = p.2.size

/-- `UpdateResult`. -/
inductive UpdateResult where
  | needBlocks (file : WireFile)
  | noAction
  | applied (file : WireFile)
  | concurrent (localFile remote : WireFile)
  deriving DecidableEq

/-- `BepError::to_string`. -/
def displayError : BepError → String
  | .peerBadMessage msg => s!"peer sent bad message: {msg}"
  | .peerError code path => s!"peer error code {code} for {path}"
  | .internal msg => s!"internal error: {msg}"

/-- The checks of `apply_update` on the announced file. -/
def checkUpdate (remote : WireFile) : Except StorageError Unit :=
  match validateFileName remote.name with
  | .error e => .error e
  | .ok () =>
    match validateFileInfo remote with
    | .error e => .error (.invalidInput (displayError e))
    | .ok () => .ok ()

/-- What `apply_update` goes on to do once it has read the committed entry. -/
inductive UpdateStep where
  | stage
  | commit
  | noAction
  | concurrent (localFile : WireFile)
  deriving DecidableEq

/-- The decision of `apply_update`. -/
def updateStep (remote : WireFile) : Option WireFile → Except StorageError UpdateStep
  | none => .ok .stage
  | some localFile =>
    match localFile.version, remote.version with
    | some lv, some rv =>
      match compareVersions lv rv with
      | .error e => .error (.corruption (displayError e))
      | .ok .greater | .ok .equal => .ok .noAction
      | .ok .concurrent => .ok (.concurrent localFile)
      | .ok .less => .ok (if blocksEqual localFile remote then .commit else .stage)
    | _, _ => .ok .stage

/-- The read of `apply_update` and the decision. -/
def readUpdate (db : Db) (remote : WireFile) : Except StorageError UpdateStep :=
  match getFile db remote.name with
  | .error e => .error e
  | .ok localFile => updateStep remote localFile

/-- The rest of `apply_update`. -/
def performUpdate (db : Db) (epoch : Epoch) (remote : WireFile) :
    UpdateStep → Except StorageError UpdateResult × Db
  | .stage => (.ok (.needBlocks remote), stageFile db epoch remote)
  | .commit =>
    let (r, db) := putFile db remote
    (r.map fun seq => .applied { remote with sequence := seq }, db)
  | .noAction => (.ok .noAction, db)
  | .concurrent localFile => (.ok (.concurrent localFile remote), db)

/-- The first half of `resolve_conflict`: the copy of the loser, with the pointers of the entry. -/
def copyLoser (st : Store) (loser : WireFile) : Option Str → Except StorageError Unit × Store
  | none => (.ok (), st)
  | some path =>
    let (r, st) := putFileWithCarry st { loser with name := path } loser.name
    (r.map fun _ => (), st)

/-- `resolve_conflict` without an interruption: the copy of the loser, then the winner. -/
def resolveConflict (st : Store) (winner loser : WireFile) (loserPath : Option Str) :
    Except StorageError Unit × Store :=
  match copyLoser st loser loserPath with
  | (.error e, st) => (.error e, st)
  | (.ok (), st) =>
    let (r, db) := putFile st.db winner
    (r.map fun _ => (), { st with db := db })

/-! ### What was compared -/

/-- The version of the entry at the key: `none` without an entry. -/
def versionAt (db : Db) (k : Key) : Option (Option VersionVector) :=
  (entryAt db k).map FileInfo.version

def NotOlder (seen : Option (Option VersionVector)) (version : Option VersionVector) : Prop :=
  ∀ v w, seen = some (some v) → version = some w → compareVersions v w ≠ .ok .greater

section Compared

variable {db : Db} {remote : WireFile} {step : UpdateStep} {name : Str} {version : Option VersionVector}

lemma NotOlder.none : NotOlder none version := (by rintro _ _ ⟨⟩)

lemma NotOlder.refl : NotOlder (some version) version := by
  rintro v w hv hw
  cases hv
  cases hw
  exact compareVersions_self

lemma getFile_version {localFile : Option WireFile} (h : getFile db name = .ok localFile) :
    localFile.map FileInfo.version = versionAt db (fileKey name) := by
  unfold getFile at h
  split at h
  · cases h
  · next hn =>
    cases h
    unfold versionAt
    rw [getFileProto_entryAt hn]
    rfl
  · next fi hs =>
    obtain ⟨w, hw, rfl⟩ := map_eq_ok.1 h
    obtain ⟨t, -, rfl⟩ := map_eq_ok.1 hw
    unfold versionAt
    rw [getFileProto_entryAt hs]
    rfl

/-- **What the comparison grants.**  A file is staged or committed only if it is not older than the
entry read; a conflict is between that entry and the file. -/
lemma readUpdate_eq_ok (h : readUpdate db remote = .ok step) :
    (step = .stage ∨ step = .commit → NotOlder (versionAt db (fileKey remote.name)) remote.version) ∧
    ∀ localFile, step = .concurrent localFile → versionAt db (fileKey remote.name) = some localFile.version ∧
      NotOlder (some localFile.version) remote.version := by
  unfold readUpdate at h
  split at h
  · cases h
  · next found hf =>
    have hver := getFile_version hf
    rw [← hver]
    cases found with
    | none =>
      cases h
      exact ⟨fun _ => NotOlder.none, (by rintro _ ⟨⟩)⟩
    | some localFile =>
      simp only [updateStep] at h
      split at h
      · next lv rv hl hr =>
        have holder : ∀ o, compareVersions lv rv = .ok o → o ≠ .greater →
            NotOlder (some localFile.version) remote.version := by
          intro o ho hne v w hv hw
          rw [hl] at hv
          rw [hr] at hw
          cases hv
          cases hw
          rw [ho]
          rintro ⟨⟩
          exact hne rfl
        split at h
        · cases h
        · cases h
          exact ⟨by simp, (by rintro _ ⟨⟩)⟩
        · cases h
          exact ⟨by simp, (by rintro _ ⟨⟩)⟩
        · next ho =>
          cases h
          refine ⟨by simp, ?_⟩
          rintro _ ⟨⟩
          exact ⟨rfl, holder _ ho (by decide)⟩
        · next ho =>
          cases h
          refine ⟨fun _ => holder _ ho (by decide), fun l hl' => ?_⟩
          split_ifs at hl'
      · next hnone =>
        cases h
        refine ⟨fun _ v w hv hw => ?_, (by rintro _ ⟨⟩)⟩
        cases hv' : localFile.version with
        | none =>
          rw [Option.map_some, hv'] at hv
          cases hv
        | some v' => exact absurd hw (fun hw => hnone v' w hv' hw)

end Compared

end Bepository.Storage
