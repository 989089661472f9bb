import Mathlib.Data.List.Sort
import Bepository.Lib.Table
import Bepository.Lock.Epoch

/-!
# The lock calls, one store operation at a time (`bepository-lock/src/lib.rs`)

`acquire`, `release` and `unsafe_break_locks` talk to the object store by single requests.  A call
in flight is a `Phase`: the request it will send next, with the local variables that are still
read after it.  `exec` sends that request, takes the reply and runs the call's own code up to the
next request or to its result.
-/

namespace Bepository.Lock

open Lib

/-! ### Epoch files -/

/-- `DateTime<Utc>`. -/
abbrev Timestamp := ℕ

structure EpochFile where
  holder : Str
  priority : ℕ
  duration : ℕ
  deriving DecidableEq

/-- An object of the lock directory.  A content that is not the JSON of an `EpochFile` is `none`. -/
structure Object where
  content : Option EpochFile
  lastModified : Timestamp
  deriving DecidableEq

abbrev Files := Table Epoch Object

/-- What LIST says of an object whose file name is an epoch. -/
structure ObjectMeta where
  epoch : Epoch
  lastModified : Timestamp
  deriving DecidableEq

/-- The participants of a lock: what each passes to `Lock::new`, and chrono's
`last_modified.checked_add_signed(seconds(d))` saturated at the last date; chrono panics at a
duration it cannot represent, which is `none`. -/
structure Config (ι : Type*) where
  holder : ι → Str
  priority : ι → ℕ
  duration : ι → ℕ
  expiry : Timestamp → ℕ → Option Timestamp

inductive AcquisitionStatus where
  | owner (e : Epoch)
  | queued
  | queuedBackwardClock
  | yielded
  | failed
  | notOwner
  deriving DecidableEq

inductive Error where
  | objectStore
  | serde
  | base32 (e : Base32Error)
  | panicked
  deriving DecidableEq

/-- How the store answers one request: it is served; it fails and changes nothing; or it takes
effect and the answer is lost on the way. -/
inductive Reply where
  | ok
  | err
  | lost
  deriving DecidableEq

/-- `list_epoch_metas`: the epoch files in ascending order. -/
def listEpochMetas (fs : Files) : List ObjectMeta :=
  (fs.toList.map fun r => ⟨r.1, r.2.lastModified⟩).insertionSort fun a b => a.epoch ≤ b.epoch

/-- `read_entry`: `ok none` if the file was deleted since the LIST. -/
def readEntry (fs : Files) (r : Reply) (e : Epoch) : Except Error (Option EpochFile) :=
  if r ≠ .ok then .error .objectStore
  else match fs.lookup e with
    | none => .ok none
    | some o => match o.content with
      | none => .error .serde
      | some f => .ok (some f)

def nextVal (metas : List ObjectMeta) : ℕ :=
  match (metas.map ObjectMeta.epoch).max? with
  | none => 0
  | some h => h.val + 1

/-- DELETE: `best_effort_delete` goes on whatever the store answers. -/
def delete (fs : Files) (r : Reply) (e : Epoch) : Files :=
  if r = .err then fs else fs.erase e

/-! ### Calls in flight -/

/-- `put_next_epoch` serves `claim_epoch` and `unsafe_break_locks`. -/
inductive Purpose where
  | acquire
  | breakLocks
  deriving DecidableEq

/-- The next request of a call, with the locals it still needs: `e` is the claimed epoch, `ts` the
timestamp the store gave to its file. -/
inductive Phase where
  | idle
  | ownerList
  | ownerGet (metas : List ObjectMeta)
  | claimList (why : Purpose)
  | claimPut (why : Purpose) (e : Epoch)
  | claimHead (why : Purpose) (e : Epoch)
  | scavengeList (e : Epoch) (ts : Timestamp)
  | scavengeGet (e : Epoch) (ts : Timestamp) (metas : List ObjectMeta) (regression : Bool)
  | scavengeDelete (e : Epoch) (ts : Timestamp) (victim : Epoch) (metas : List ObjectMeta)
      (regression : Bool)
  | verifyList (e : Epoch) (ts : Timestamp) (regression : Bool)
  | lowerGet (e : Epoch) (ts : Timestamp) (lower higher : List ObjectMeta) (regression : Bool)
  | higherGet (e : Epoch) (ts : Timestamp) (higher : List ObjectMeta)
  | dropMine (e : Epoch) (result : Except Error AcquisitionStatus)
  | releaseList
  | releaseEach (todo : List ObjectMeta) (own : List Epoch)
  | breakList (e : Epoch) (ts : Timestamp)
  | breakGet (e : Epoch) (ts : Timestamp) (metas : List ObjectMeta) (found : Bool)
  | breakDelete (e : Epoch) (ts : Timestamp) (victim : Epoch) (metas : List ObjectMeta)
      (found : Bool)
  | breakDrop (e : Epoch) (result : Except Error Unit)

/-- What a call does after a reply: it goes on to its next request, or it returns. -/
inductive Outcome where
  | next (ph : Phase)
  | acquired (r : Except Error AcquisitionStatus)
  | released (ok : Bool)
  | broken (r : Except Error Unit)

def Purpose.fail (why : Purpose) (err : Error) : Outcome :=
  match why with
  | .acquire => .acquired (.error err)
  | .breakLocks => .broken (.error err)

section Calls

variable {ι : Type*} (c : Config ι) (p : ι)

/-- The file a participant claims an epoch with, and that of its breaker. -/
def content : Purpose → EpochFile
  | .acquire => ⟨c.holder p, c.priority p, c.duration p⟩
  | .breakLocks => ⟨c.holder p ++ ['-', 'b', 'r', 'e', 'a', 'k', 'e', 'r'], 0, 0⟩

/-! ### `acquire` -/

/-- `current_owner` goes on to the next file; with none left the lock is free. -/
def ownerNext : List ObjectMeta → Outcome
  | [] => .next (.claimList .acquire)
  | metas => .next (.ownerGet metas)

/-- Step 0 of `acquire`, on the first readable file: give up early if a foreign lease of no lower
priority runs by the local clock. -/
def fastPath (now : Timestamp) (m : ObjectMeta) (f : EpochFile) : Outcome :=
  if f.holder ≠ c.holder p ∧ f.priority ≥ c.priority p ∧ now ≥ m.lastModified then
    match c.expiry m.lastModified f.duration with
    | none => .acquired (.error .panicked)
    | some x => if now < x then .acquired (.ok .notOwner) else .next (.claimList .acquire)
  else .next (.claimList .acquire)

/-- `scavenge_below` goes on to the next lower file. -/
def scavengeNext (e : Epoch) (ts : Timestamp) (regression : Bool) : List ObjectMeta → Outcome
  | [] => .next (.verifyList e ts regression)
  | metas => .next (.scavengeGet e ts metas regression)

/-- One lower file in `scavenge_below`. -/
def scavengeEntry (e : Epoch) (ts : Timestamp) (m : ObjectMeta) (f : EpochFile) (metas : List ObjectMeta)
    (regression : Bool) : Outcome :=
  match c.expiry m.lastModified f.duration with
  | none => .acquired (.error .panicked)
  | some x =>
    if x ≤ ts ∨ f.holder = c.holder p then .next (.scavengeDelete e ts m.epoch metas regression)
    else scavengeNext e ts (regression || decide (m.lastModified > ts)) metas

/-- `should_yield` goes on to the next higher file; past the last one the lock is ours. -/
def higherNext (e : Epoch) (ts : Timestamp) : List ObjectMeta → Outcome
  | [] => .acquired (.ok (.owner e))
  | higher => .next (.higherGet e ts higher)

/-- One higher file in `should_yield`. -/
def yieldEntry (e : Epoch) (ts : Timestamp) (m : ObjectMeta) (f : EpochFile)
    (higher : List ObjectMeta) : Outcome :=
  if f.priority > c.priority p then
    match c.expiry m.lastModified f.duration with
    | none => .acquired (.error .panicked)
    | some x => if ts < x then .next (.dropMine e (.ok .yielded)) else higherNext e ts higher
  else higherNext e ts higher

/-- `first_readable_entry` goes on to the next lower file; with none left we are lowest. -/
def lowerNext (e : Epoch) (ts : Timestamp) (regression : Bool) (higher : List ObjectMeta) :
    List ObjectMeta → Outcome
  | [] => higherNext e ts higher
  | lower => .next (.lowerGet e ts lower higher regression)

/-- `classify_loss`: a lower file survived the scavenge. -/
def classifyLoss (e : Epoch) (regression : Bool) (owner : EpochFile) : Outcome :=
  if regression then .acquired (.ok .queuedBackwardClock)
  else if c.priority p > owner.priority then .acquired (.ok .queued)
  else .next (.dropMine e (.ok .failed))

/-- `partition_around` and the check that our own file is still listed. -/
def partition (e : Epoch) (ts : Timestamp) (regression : Bool) (metas : List ObjectMeta) : Outcome :=
  if metas.any (·.epoch = e) then
    lowerNext e ts regression (metas.filter (e < ·.epoch)) (metas.filter (·.epoch < e))
  else .next (.dropMine e (.ok .failed))

/-! ### `release` and `unsafe_break_locks` -/

/-- `release` ends when every listed file was looked at. -/
def releaseNext : List ObjectMeta → List Epoch → Outcome
  | [], [] => .released true
  | todo, own => .next (.releaseEach todo own)

/-- One of the requests `buffer_unordered(16)` has in flight: a DELETE of an own file, or the GET of
one of the files next in the list. -/
def releaseOne (fs : Files) (r : Reply) (i : ℕ) (todo : List ObjectMeta) (own : List Epoch) :
    Option (Files × Outcome) :=
  if i < own.length then
    (own[i]?).map fun e => (delete fs r e, releaseNext todo (own.eraseIdx i))
  else if i < 16 then
    (todo[i - own.length]?).map fun m =>
      match readEntry fs r m.epoch with
      | .error _ => (fs, .released false)
      | .ok none => (fs, releaseNext (todo.eraseIdx (i - own.length)) own)
      | .ok (some f) =>
        if f.holder = c.holder p then
          (fs, releaseNext (todo.eraseIdx (i - own.length)) (own ++ [m.epoch]))
        else (fs, releaseNext (todo.eraseIdx (i - own.length)) own)
  else none

/-- `unsafe_break_locks` goes on to the next listed file, and at the end removes its own. -/
def breakNext (e : Epoch) (ts : Timestamp) (found : Bool) : List ObjectMeta → Outcome
  | [] => .next (.breakDrop e (.ok ()))
  | metas => .next (.breakGet e ts metas found)

/-- One listed file in `unsafe_break_locks`: the first active one stays. -/
def breakEntry (e : Epoch) (ts : Timestamp) (m : ObjectMeta) (f : EpochFile) (metas : List ObjectMeta)
    (found : Bool) : Outcome :=
  match c.expiry m.lastModified f.duration with
  | none => .broken (.error .panicked)
  | some x =>
    if ¬ found ∧ ¬ x ≤ ts then breakNext e ts true metas
    else .next (.breakDelete e ts m.epoch metas found)

/-! ### One request -/

/-- The request of a phase against the lock directory at store time `clock`, and what the call does
with the reply.  `now` is what the call reads from its local clock, `i` the request of `release`
that is served.  A LIST that fails in `unsafe_break_locks` first removes the breaker's file. -/
def exec (clock : Timestamp) (fs : Files) (r : Reply) (now : Timestamp) (i : ℕ) :
    Phase → Option (Files × Outcome)
  | .idle => none
  | .ownerList =>
    if r = .ok then some (fs, ownerNext (listEpochMetas fs))
    else some (fs, .acquired (.error .objectStore))
  | .ownerGet [] => none
  | .ownerGet (m :: metas) =>
    match readEntry fs r m.epoch with
    | .error err => some (fs, .acquired (.error err))
    | .ok none => some (fs, ownerNext metas)
    | .ok (some f) => some (fs, fastPath c p now m f)
  | .claimList why =>
    if r = .ok then
      match Epoch.new (nextVal (listEpochMetas fs)) with
      | .error err => some (fs, why.fail (.base32 err))
      | .ok e => some (fs, .next (.claimPut why e))
    else some (fs, why.fail .objectStore)
  | .claimPut why e =>
    if r = .err then some (fs, why.fail .objectStore)
    else if e ∈ fs then
      some (fs, if r = .ok then .next (.claimList why) else why.fail .objectStore)
    else
      some (fs.insert e ⟨some (content c p why), clock⟩,
        if r = .ok then .next (.claimHead why e) else why.fail .objectStore)
  | .claimHead why e =>
    match (if r = .ok then fs.lookup e else none), why with
    | some o, .acquire => some (fs, .next (.scavengeList e o.lastModified))
    | some o, .breakLocks => some (fs, .next (.breakList e o.lastModified))
    | none, .acquire => some (fs, .next (.dropMine e (.error .objectStore)))
    | none, .breakLocks => some (fs, .next (.breakDrop e (.error .objectStore)))
  | .scavengeList e ts =>
    if r = .ok then
      some (fs, scavengeNext e ts false ((listEpochMetas fs).takeWhile (·.epoch < e)))
    else some (fs, .acquired (.error .objectStore))
  | .scavengeGet _ _ [] _ => none
  | .scavengeGet e ts (m :: metas) regression =>
    match readEntry fs r m.epoch with
    | .error err => some (fs, .acquired (.error err))
    | .ok none => some (fs, scavengeNext e ts regression metas)
    | .ok (some f) => some (fs, scavengeEntry c p e ts m f metas regression)
  | .scavengeDelete e ts victim metas regression =>
    some (delete fs r victim, scavengeNext e ts regression metas)
  | .verifyList e ts regression =>
    if r = .ok then some (fs, partition e ts regression (listEpochMetas fs))
    else some (fs, .acquired (.error .objectStore))
  | .lowerGet _ _ [] _ _ => none
  | .lowerGet e ts (m :: lower) higher regression =>
    match readEntry fs r m.epoch with
    | .error err => some (fs, .acquired (.error err))
    | .ok none => some (fs, lowerNext e ts regression higher lower)
    | .ok (some f) => some (fs, classifyLoss c p e regression f)
  | .higherGet _ _ [] => none
  | .higherGet e ts (m :: higher) =>
    match readEntry fs r m.epoch with
    | .error err => some (fs, .acquired (.error err))
    | .ok none => some (fs, higherNext e ts higher)
    | .ok (some f) => some (fs, yieldEntry c p e ts m f higher)
  | .dropMine e result => some (delete fs r e, .acquired result)
  | .releaseList =>
    if r = .ok then some (fs, releaseNext (listEpochMetas fs) [])
    else some (fs, .released false)
  | .releaseEach todo own => releaseOne c p fs r i todo own
  | .breakList e ts =>
    if r = .ok then
      some (fs, breakNext e ts false ((listEpochMetas fs).filter (·.epoch ≠ e)))
    else some (fs, .next (.breakDrop e (.error .objectStore)))
  | .breakGet _ _ [] _ => none
  | .breakGet e ts (m :: metas) found =>
    match r, fs.lookup m.epoch with
    | .err, _ => some (fs, .next (.breakDrop e (.error .objectStore)))
    | .ok, none => some (fs, breakNext e ts found metas)
    | .lost, none => some (fs, .next (.breakDrop e (.error .objectStore)))
    | .lost, some _ => some (fs, .broken (.error .objectStore))
    | .ok, some ⟨none, _⟩ => some (fs, .next (.breakDelete e ts m.epoch metas found))
    | .ok, some ⟨some f, _⟩ => some (fs, breakEntry c e ts m f metas found)
  | .breakDelete e ts victim metas found =>
    some (delete fs r victim, breakNext e ts found metas)
  | .breakDrop e result => some (delete fs r e, .broken result)

/-! ### What a request can do -/

variable (clock : Timestamp) (fs : Files) (r : Reply) (now : Timestamp) (i : ℕ)

/-- The cases of `exec`: the phase before, and the directory and the outcome after. -/
inductive Execs : Phase → Files → Outcome → Prop where
  | failed ph (why : Purpose) err : Execs ph fs (why.fail err)
  | ownerList : Execs .ownerList fs (ownerNext (listEpochMetas fs))
  | ownerGone {m metas} : Execs (.ownerGet (m :: metas)) fs (ownerNext metas)
  | ownerSeen {m metas f} : Execs (.ownerGet (m :: metas)) fs (fastPath c p now m f)
  | claimList {why e} (hr : r = .ok) (he : e.val = nextVal (listEpochMetas fs)) :
      Execs (.claimList why) fs (.next (.claimPut why e))
  | claimTaken {why e} (he : e ∈ fs) : Execs (.claimPut why e) fs (.next (.claimList why))
  | claimPut {why e} (hr : r ≠ .err) (he : e ∉ fs) :
      Execs (.claimPut why e) (fs.insert e ⟨some (content c p why), clock⟩) (.next (.claimHead why e))
  | claimLost {why e} (hr : r ≠ .err) (he : e ∉ fs) :
      Execs (.claimPut why e) (fs.insert e ⟨some (content c p why), clock⟩) (why.fail .objectStore)
  | head {e o} (ho : fs.lookup e = some o) :
      Execs (.claimHead .acquire e) fs (.next (.scavengeList e o.lastModified))
  | headFailed {e} : Execs (.claimHead .acquire e) fs (.next (.dropMine e (.error .objectStore)))
  | breakHead {e o} (ho : fs.lookup e = some o) :
      Execs (.claimHead .breakLocks e) fs (.next (.breakList e o.lastModified))
  | breakHeadFailed {e} : Execs (.claimHead .breakLocks e) fs (.next (.breakDrop e (.error .objectStore)))
  | scavengeList {e ts} : Execs (.scavengeList e ts) fs
        (scavengeNext e ts false ((listEpochMetas fs).takeWhile (·.epoch < e)))
  | scavengeGone {e ts m metas regression} : Execs (.scavengeGet e ts (m :: metas) regression) fs
        (scavengeNext e ts regression metas)
  | scavengeSeen {e ts m metas regression f} (hg : readEntry fs r m.epoch = .ok (some f)) :
      Execs (.scavengeGet e ts (m :: metas) regression) fs (scavengeEntry c p e ts m f metas regression)
  | scavengeDelete {e ts victim metas regression} :
      Execs (.scavengeDelete e ts victim metas regression) (delete fs r victim)
        (scavengeNext e ts regression metas)
  | verifyList {e ts regression} : Execs (.verifyList e ts regression) fs
        (partition e ts regression (listEpochMetas fs))
  | lowerGone {e ts m lower higher regression} (hg : readEntry fs r m.epoch = .ok none) :
      Execs (.lowerGet e ts (m :: lower) higher regression) fs (lowerNext e ts regression higher lower)
  | lowerSeen {e ts m lower higher regression f} : Execs (.lowerGet e ts (m :: lower) higher regression) fs
        (classifyLoss c p e regression f)
  | higherGone {e ts m higher} : Execs (.higherGet e ts (m :: higher)) fs (higherNext e ts higher)
  | higherSeen {e ts m higher f} : Execs (.higherGet e ts (m :: higher)) fs (yieldEntry c p e ts m f higher)
  | dropMine {e result} : Execs (.dropMine e result) (delete fs r e) (.acquired result)
  | releaseList : Execs .releaseList fs (releaseNext (listEpochMetas fs) [])
  | releaseFailed : Execs .releaseList fs (.released false)
  | releaseEach {todo own} {fs' : Files} {out} (ho : releaseOne c p fs r i todo own = some (fs', out)) :
      Execs (.releaseEach todo own) fs' out
  | breakList {e ts} : Execs (.breakList e ts) fs
        (breakNext e ts false ((listEpochMetas fs).filter (·.epoch ≠ e)))
  | breakListFailed {e ts} : Execs (.breakList e ts) fs (.next (.breakDrop e (.error .objectStore)))
  | breakGone {e ts m metas found} : Execs (.breakGet e ts (m :: metas) found) fs (breakNext e ts found metas)
  | breakGetFailed {e ts m metas found} : Execs (.breakGet e ts (m :: metas) found) fs
        (.next (.breakDrop e (.error .objectStore)))
  | breakUnreadable {e ts m metas found} : Execs (.breakGet e ts (m :: metas) found) fs
        (.next (.breakDelete e ts m.epoch metas found))
  | breakSeen {e ts m metas found f} :
      Execs (.breakGet e ts (m :: metas) found) fs (breakEntry c e ts m f metas found)
  | breakDelete {e ts victim metas found} : Execs (.breakDelete e ts victim metas found) (delete fs r victim)
        (breakNext e ts found metas)
  | breakDrop {e result} : Execs (.breakDrop e result) (delete fs r e) (.broken result)

end Calls

section Cases

variable {ι : Type*} {c : Config ι} {p : ι} {clock now : Timestamp} {fs fs' : Files} {r : Reply}
  {i : ℕ} {ph : Phase} {out : Outcome}

lemma exec_execs (h : exec c p clock fs r now i ph = some (fs', out)) :
    Execs c p clock fs r now i ph fs' out := by
  cases ph with
  | idle => cases h
  | ownerList =>
    simp only [exec] at h
    split_ifs at h <;> cases h
    · exact .ownerList
    · exact .failed _ .acquire _
  | ownerGet metas =>
    cases metas with
    | nil => cases h
    | cons =>
      simp only [exec] at h
      split at h <;> cases h
      · exact .failed _ .acquire _
      · exact .ownerGone
      · exact .ownerSeen
  | claimList why =>
    simp only [exec] at h
    split_ifs at h with hr
    · split at h <;> cases h
      · exact .failed _ why _
      · next e he => exact .claimList hr (Epoch.new_eq_ok.1 he)
    · cases h
      exact .failed _ why _
  | claimPut why =>
    simp only [exec] at h
    split_ifs at h with hr he hok hok <;> cases h
    · exact .failed _ why _
    · exact .claimTaken he
    · exact .failed _ why _
    · exact .claimPut hr he
    · exact .claimLost hr he
  | claimHead why e =>
    have ho : ∀ o, (if r = .ok then fs.lookup e else none) = some o → fs.lookup e = some o := by
      intro o ho
      split_ifs at ho
      exact ho
    cases hl : (if r = .ok then fs.lookup e else none) with
    | none =>
      cases why <;> simp only [exec, hl] at h <;> cases h
      · exact .headFailed
      · exact .breakHeadFailed
    | some o =>
      cases why <;> simp only [exec, hl] at h <;> cases h
      · exact .head (ho o hl)
      · exact .breakHead (ho o hl)
  | scavengeList =>
    simp only [exec] at h
    split_ifs at h <;> cases h
    · exact .scavengeList
    · exact .failed _ .acquire _
  | scavengeGet e ts metas =>
    cases metas with
    | nil => cases h
    | cons =>
      simp only [exec] at h
      split at h <;> cases h
      · exact .failed _ .acquire _
      · exact .scavengeGone
      · next f hg => exact .scavengeSeen hg
  | scavengeDelete =>
    cases h
    exact .scavengeDelete
  | verifyList =>
    simp only [exec] at h
    split_ifs at h <;> cases h
    · exact .verifyList
    · exact .failed _ .acquire _
  | lowerGet e ts lower =>
    cases lower with
    | nil => cases h
    | cons =>
      simp only [exec] at h
      split at h <;> cases h
      · exact .failed _ .acquire _
      · next hg => exact .lowerGone hg
      · exact .lowerSeen
  | higherGet e ts higher =>
    cases higher with
    | nil => cases h
    | cons =>
      simp only [exec] at h
      split at h <;> cases h
      · exact .failed _ .acquire _
      · exact .higherGone
      · exact .higherSeen
  | dropMine =>
    cases h
    exact .dropMine
  | releaseList =>
    simp only [exec] at h
    split_ifs at h <;> cases h
    · exact .releaseList
    · exact .releaseFailed
  | releaseEach => exact .releaseEach h
  | breakList =>
    simp only [exec] at h
    split_ifs at h <;> cases h
    · exact .breakList
    · exact .breakListFailed
  | breakGet e ts metas =>
    cases metas with
    | nil => cases h
    | cons =>
      simp only [exec] at h
      split at h <;> cases h
      · exact .breakGetFailed
      · exact .breakGone
      · exact .breakGetFailed
      · exact .failed _ .breakLocks .objectStore
      · exact .breakUnreadable
      · exact .breakSeen
  | breakDelete =>
    cases h
    exact .breakDelete
  | breakDrop =>
    cases h
    exact .breakDrop

end Cases

/-! ### The parts of a call

To show something of what a part leads to, it is enough to show it of each of its ends.
-/

section Parts

variable {ι : Type*} {c : Config ι} {p : ι} {P : Outcome → Prop} {e : Epoch} {ts now : Timestamp} {m : ObjectMeta}
  {f : EpochFile} {metas higher todo : List ObjectMeta} {own : List Epoch} {regression found : Bool}

section

variable (hpanic : P (.acquired (.error .panicked)))
include hpanic

lemma fastPath_elim (hbusy : P (.acquired (.ok .notOwner))) (hclaim : P (.next (.claimList .acquire))) :
    P (fastPath c p now m f) := by
  unfold fastPath
  split_ifs
  · split
    · exact hpanic
    · split_ifs
      · exact hbusy
      · exact hclaim
  · exact hclaim

lemma scavengeEntry_elim
    (hdelete : ∀ x, c.expiry m.lastModified f.duration = some x → x ≤ ts ∨ f.holder = c.holder p →
      P (.next (.scavengeDelete e ts m.epoch metas regression)))
    (hnext : ∀ back, P (scavengeNext e ts back metas)) : P (scavengeEntry c p e ts m f metas regression) := by
  unfold scavengeEntry
  split
  · exact hpanic
  · next x hx =>
    split_ifs with hdead
    · exact hdelete x hx hdead
    · exact hnext _

lemma yieldEntry_elim (hyield : P (.next (.dropMine e (.ok .yielded)))) (hnext : P (higherNext e ts higher)) :
    P (yieldEntry c p e ts m f higher) := by
  unfold yieldEntry
  split_ifs
  · split
    · exact hpanic
    · split_ifs
      · exact hyield
      · exact hnext
  · exact hnext

end

lemma classifyLoss_elim (hback : P (.acquired (.ok .queuedBackwardClock))) (hqueued : P (.acquired (.ok .queued)))
    (hdrop : P (.next (.dropMine e (.ok .failed)))) : P (classifyLoss c p e regression f) := by
  unfold classifyLoss
  split_ifs
  · exact hback
  · exact hqueued
  · exact hdrop

lemma partition_elim (hdrop : P (.next (.dropMine e (.ok .failed))))
    (hlisted : P (lowerNext e ts regression (metas.filter (e < ·.epoch)) (metas.filter (·.epoch < e)))) :
    P (partition e ts regression metas) := by
  unfold partition
  split_ifs
  · exact hlisted
  · exact hdrop

lemma releaseNext_elim (hdone : P (.released true)) (hnext : P (.next (.releaseEach todo own))) :
    P (releaseNext todo own) := by
  unfold releaseNext
  split
  · exact hdone
  · exact hnext

lemma breakEntry_elim (hpanic : P (.broken (.error .panicked))) (hnext : P (breakNext e ts true metas))
    (hdelete : P (.next (.breakDelete e ts m.epoch metas found))) : P (breakEntry c e ts m f metas found) := by
  unfold breakEntry
  split
  · exact hpanic
  · split_ifs
    · exact hnext
    · exact hdelete

end Parts

end Bepository.Lock
