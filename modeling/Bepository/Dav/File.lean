import Bepository.Lib.Run
import Bepository.Dav

/-!
# Open files of the WebDAV view (`bepository-dav/src/lib.rs`)

`open` takes the size of a file from its record, and a `DavSnapshotFile` keeps a position of its own.
`read_bytes` moves the position when it is called, before the bytes are asked for: a storage read that fails
leaves it behind bytes that nobody has got.  `cursor_reads` is about every sequence of calls; of a read that
fails it says that the position stays unless the storage failed.
-/

namespace Bepository.Dav

open Lib Storage List

/-! ### 64-bit arithmetic -/

def checkedAdd (a b : UInt64) : Option UInt64 := if a.toNat + b.toNat < 2 ^ 64 then some (a + b) else none

def checkedSub (a b : UInt64) : Option UInt64 := if b ≤ a then some (a - b) else none

/-- `u64::try_from`, of an `i64`. -/
def tryIntoU64 (n : Int64) : Option UInt64 := if 0 ≤ n then some (UInt64.ofNat n.toInt.toNat) else none

def unsignedAbs (n : Int64) : UInt64 := UInt64.ofNat n.toInt.natAbs

/-- `u64::min`. -/
def minU64 (a b : UInt64) : UInt64 := if a ≤ b then a else b

/-- A position moved by a signed distance; the outer `none` is the panic of an `unwrap`. -/
def offsetBy (base : UInt64) (n : Int64) : Option (Option UInt64) :=
  if 0 ≤ n then (tryIntoU64 n).map (checkedAdd base) else some (checkedSub base (unsignedAbs n))

lemma checkedAdd_eq_some {a b q : UInt64} : checkedAdd a b = some q ↔ q.toNat = a.toNat + b.toNat := by
  unfold checkedAdd
  split_ifs with h
  · have hadd : (a + b).toNat = a.toNat + b.toNat := by
      rw [UInt64.toNat_add]
      exact Nat.mod_eq_of_lt h
    rw [Option.some.injEq, ← UInt64.toNat_inj, hadd]
    omega
  · have hq := q.toNat_lt
    simp only [false_iff]
    omega

lemma exists_checkedAdd {a b : UInt64} (h : a.toNat + b.toNat < 2 ^ 64) : ∃ q, checkedAdd a b = some q := by
  rw [checkedAdd, if_pos h]
  exact ⟨_, rfl⟩

lemma checkedSub_eq_some {a b q : UInt64} : checkedSub a b = some q ↔ q.toNat + b.toNat = a.toNat := by
  unfold checkedSub
  split_ifs with h
  · have hle := UInt64.le_iff_toNat_le.1 h
    have hsub : (a - b).toNat = a.toNat - b.toNat := UInt64.toNat_sub_of_le a b h
    rw [Option.some.injEq, ← UInt64.toNat_inj, hsub]
    omega
  · have hlt : ¬ b.toNat ≤ a.toNat := fun hle => h (UInt64.le_iff_toNat_le.2 hle)
    simp only [false_iff]
    omega

lemma checkedSub_eq_none {a b : UInt64} : checkedSub a b = none ↔ a.toNat < b.toNat := by
  unfold checkedSub
  split_ifs with h
  · have hle := UInt64.le_iff_toNat_le.1 h
    simp only [false_iff]
    omega
  · have hlt : ¬ b.toNat ≤ a.toNat := fun hle => h (UInt64.le_iff_toNat_le.2 hle)
    simp only [true_iff]
    omega

lemma toNat_minU64 (a b : UInt64) : (minU64 a b).toNat = min a.toNat b.toNat := by
  unfold minU64
  split_ifs with h
  · rw [min_eq_left (UInt64.le_iff_toNat_le.1 h)]
  · have hlt : ¬ a.toNat ≤ b.toNat := fun hle => h (UInt64.le_iff_toNat_le.2 hle)
    rw [min_eq_right (Nat.le_of_not_le hlt)]

lemma toNat_ofNat {n : ℕ} (h : n < 2 ^ 64) : (UInt64.ofNat n).toNat = n := UInt64.toNat_ofNat_of_lt' h

lemma offsetBy_spec (base : UInt64) (n : Int64) :
    ∃ res, offsetBy base n = some res ∧ ∀ q, res = some q ↔ (q.toNat : ℤ) = base.toNat + n.toInt := by
  have hlow := n.le_toInt
  have hhigh := n.toInt_lt
  unfold offsetBy
  split_ifs with hn
  · have hnn : 0 ≤ n.toInt := by
      rw [Int64.le_iff_toInt_le] at hn
      simpa using hn
    have hto : (UInt64.ofNat n.toInt.toNat).toNat = n.toInt.toNat := toNat_ofNat (by omega)
    refine ⟨_, by rw [tryIntoU64, if_pos hn]; rfl, fun q => ?_⟩
    rw [checkedAdd_eq_some, hto]
    omega
  · have hneg : n.toInt < 0 := by
      rw [Int64.le_iff_toInt_le] at hn
      simpa using hn
    have hto : (UInt64.ofNat n.toInt.natAbs).toNat = n.toInt.natAbs := toNat_ofNat (by omega)
    refine ⟨_, rfl, fun q => ?_⟩
    rw [checkedSub_eq_some, unsignedAbs, hto]
    omega

/-! ### `open` -/

/-- The options of `OpenOptions` that `open` looks at. -/
structure OpenOptions where
  write : Bool
  append : Bool
  create : Bool
  createNew : Bool

/-- `DavSnapshotFile`. -/
structure DavSnapshotFile (R τ : Type) where
  snap : R
  path : Str
  size : UInt64
  modified : τ
  pos : UInt64

section Files

variable {R τ : Type}

/-- `open`.  `metadata` is `SnapshotFs::file_metadata`; sizes are `u64`. -/
def openFile (names : Names τ) (ref : SnapshotRef R τ) (metadata : R → Str → Except SnapshotError (FsEntry τ))
    (snapshots : List R) (p : DavPath names) (options : OpenOptions) : Except FsError (DavSnapshotFile R τ) :=
  if options.write || options.append || options.create || options.createNew then .error .forbidden
  else
    match parsePath names ref snapshots p with
    | none => .error .notFound
    | some (.subPath snap subpath) =>
      match metadata snap subpath with
      | .ok (.file _ size modified) => .ok ⟨snap, subpath, UInt64.ofNat size, modified, 0⟩
      | .ok (.dir _) => .error .forbidden
      | .error .notFound => .error .notFound
      | .error _ => .error .generalFailure
    | some _ => .error .forbidden

/-! ### `read_bytes` and `seek` -/

/-- `SeekFrom`. -/
inductive SeekFrom where
  | start (n : UInt64)
  | fromEnd (n : Int64)
  | current (n : Int64)

/-- `read_bytes`, with a `usize` of `w` bits; `none` is a panic.  `read` is `SnapshotFs::read_bytes`. -/
def DavSnapshotFile.readBytes (w : ℕ) (read : R → Str → ℕ → ℕ → Except ReadFault Bytes) (f : DavSnapshotFile R τ)
    (count : Fin (2 ^ w)) : Option (DavSnapshotFile R τ × Except FsError Bytes) :=
  match checkedSub f.size f.pos with
  | none => some (f, .error .generalFailure)
  | some remaining =>
    let toRead := minU64 remaining (UInt64.ofNat count.val)
    match checkedAdd f.pos toRead with
    | none => none
    | some pos =>
      -- the position is moved before the read
      if 2 ^ w ≤ toRead.toNat then none
      else if toRead.toNat = 0 then some ({ f with pos := pos }, .ok [])
      else
        match read f.snap f.path f.pos.toNat toRead.toNat with
        | .ok bytes => some ({ f with pos := pos }, .ok bytes)
        | .error (.error _) => some ({ f with pos := pos }, .error .generalFailure)
        | .error .overflow => none

/-- The new position of a seek, if it is one; the outer `none` is a panic. -/
def SeekFrom.newPos (size pos : UInt64) : SeekFrom → Option (Option UInt64)
  | .start n => some (some n)
  | .fromEnd n => offsetBy size n
  | .current n => offsetBy pos n

/-- The end of `seek`. -/
def DavSnapshotFile.moveTo (f : DavSnapshotFile R τ) :
    Option UInt64 → DavSnapshotFile R τ × Except FsError UInt64
  | some newPos => ({ f with pos := newPos }, .ok newPos)
  | none => (f, .error .generalFailure)

/-- `seek`; `none` is a panic. -/
def DavSnapshotFile.seek (f : DavSnapshotFile R τ) (place : SeekFrom) :
    Option (DavSnapshotFile R τ × Except FsError UInt64) :=
  (place.newPos f.size f.pos).map f.moveTo

def SeekFrom.target (size pos : UInt64) : SeekFrom → ℤ
  | .start n => n.toNat
  | .fromEnd n => size.toNat + n.toInt
  | .current n => pos.toNat + n.toInt

/-! ### Sequences of calls -/

/-- A call on an open file; a read comes with the error of the storage, if it fails. -/
inductive Call (w : ℕ) where
  | seek (place : SeekFrom)
  | read (count : Fin (2 ^ w)) (failure : Option SnapshotError)

variable (x : Externals) (w : ℕ) (db : R → RawDb)

def storageRead (failure : Option SnapshotError) (snap : R) (path : Str) (offset len : ℕ) : Except ReadFault Bytes :=
  match failure with
  | some e => .error (.error e)
  | none => Storage.readBytes x w (db snap) path offset len

def DavSnapshotFile.step (f : DavSnapshotFile R τ) : Call w → Option (DavSnapshotFile R τ)
  | .seek place => (f.seek place).map Prod.fst
  | .read count failure => (f.readBytes w (storageRead x w db failure) count).map Prod.fst

variable {x} {w} {db} {f : DavSnapshotFile R τ} {fi : FileRecord} {content : Bytes}

lemma newPos_spec (size pos : UInt64) (place : SeekFrom) :
    ∃ res, place.newPos size pos = some res ∧ ∀ q, res = some q ↔ (q.toNat : ℤ) = place.target size pos := by
  cases place with
  | start n =>
    refine ⟨some n, rfl, fun q => ?_⟩
    rw [Option.some.injEq, SeekFrom.target, Nat.cast_inj, UInt64.toNat_inj, eq_comm]
  | fromEnd n => exact offsetBy_spec size n
  | current n => exact offsetBy_spec pos n

lemma seek_spec (f : DavSnapshotFile R τ) (place : SeekFrom) :
    ∃ f' res, f.seek place = some (f', res) ∧
      (∀ q, res = .ok q → (q.toNat : ℤ) = place.target f.size f.pos ∧ f' = { f with pos := q }) ∧
      ∀ err, res = .error err → f' = f ∧ ∀ q : UInt64, (q.toNat : ℤ) ≠ place.target f.size f.pos := by
  obtain ⟨newPos, hnew, hq⟩ := newPos_spec f.size f.pos place
  refine ⟨(f.moveTo newPos).1, (f.moveTo newPos).2, by rw [DavSnapshotFile.seek, hnew]; rfl, ?_⟩
  cases newPos with
  | some q =>
    constructor
    · intro q' h
      cases h
      exact ⟨(hq q).1 rfl, rfl⟩
    · intro err h
      cases h
  | none =>
    constructor
    · intro q h
      cases h
    · intro err h
      refine ⟨rfl, fun q htarget => ?_⟩
      have hsome := (hq q).2 htarget
      cases hsome

lemma readBytes_spec (hw : 32 ≤ w ∧ w ≤ 64) (hc : HasContent x (db f.snap) f.path fi content)
    (hsize : f.size.toNat = content.length) (count : Fin (2 ^ w)) (failure : Option SnapshotError) :
    ∃ f' res, f.readBytes w (storageRead x w db failure) count = some (f', res) ∧
      f'.snap = f.snap ∧ f'.path = f.path ∧ f'.size = f.size ∧
      (∀ bytes, res = .ok bytes → f.pos.toNat ≤ content.length ∧
        bytes = (content.take (min (f.pos.toNat + count) content.length)).drop f.pos.toNat ∧
        f'.pos.toNat = f.pos.toNat + bytes.length) ∧
      ∀ err, res = .error err → f' = f ∧ content.length < f.pos.toNat ∨
        failure.isSome ∧ f.pos.toNat < content.length ∧ 0 < count.val ∧
          f'.pos.toNat = min (f.pos.toNat + count) content.length := by
  have hcount : (UInt64.ofNat count.val).toNat = count := by
    refine toNat_ofNat (lt_of_lt_of_le count.isLt (Nat.pow_le_pow_right (by decide) hw.2))
  unfold DavSnapshotFile.readBytes
  cases hrem : checkedSub f.size f.pos with
  | none =>
    have hpast := checkedSub_eq_none.1 hrem
    rw [hsize] at hpast
    refine ⟨f, _, rfl, ⟨rfl, rfl, rfl, ?_, ?_⟩⟩
    · intro bytes h
      cases h
    · intro err _
      exact .inl ⟨rfl, hpast⟩
  | some remaining =>
    have hrem := checkedSub_eq_some.1 hrem
    rw [hsize] at hrem
    have hto : (minU64 remaining (UInt64.ofNat count.val)).toNat = min remaining.toNat count := by
      rw [toNat_minU64, hcount]
    simp only
    generalize minU64 remaining (UInt64.ofNat count.val) = toRead at hto ⊢
    -- the sum is at most the size of the file
    have hlt := f.size.toNat_lt
    have hsum : f.pos.toNat + toRead.toNat < 2 ^ 64 := by omega
    obtain ⟨pos, hadd⟩ := exists_checkedAdd hsum
    have hpos := checkedAdd_eq_some.1 hadd
    have hcap := count.isLt
    have hfits : ¬ 2 ^ w ≤ toRead.toNat := by omega
    simp only [hadd, if_neg hfits]
    by_cases hzero : toRead.toNat = 0
    · rw [if_pos hzero]
      refine ⟨{ f with pos := pos }, .ok [], rfl, rfl, rfl, rfl, ?_, ?_⟩
      · intro bytes h
        cases h
        refine ⟨by omega, ?_, by simp only [length_nil]; omega⟩
        rw [drop_eq_nil_of_le]
        rw [length_take]
        omega
      · intro err h
        cases h
    · rw [if_neg hzero]
      cases failure with
      | some =>
        refine ⟨{ f with pos := pos }, .error .generalFailure, rfl, rfl, rfl, rfl, ?_, ?_⟩
        · intro bytes h
          cases h
        · intro err _
          refine .inr ⟨rfl, ?_⟩
          simp only
          omega
      | none =>
        have hlen := hc.length
        have hnat : fi.info.size.toNat = content.length := by omega
        have hread := hc.read hw.1 f.pos.toNat_lt (Nat.lt_of_not_le hfits)
        have hrange : min (f.pos.toNat + toRead.toNat) content.length = min (f.pos.toNat + count) content.length := by
          omega
        have hstart : min f.pos.toNat content.length = f.pos.toNat := by omega
        rw [hnat, hrange, hstart] at hread
        simp only [storageRead, hread]
        refine ⟨{ f with pos := pos }, .ok _, rfl, rfl, rfl, rfl, ?_, ?_⟩
        · intro bytes h
          cases h
          refine ⟨by omega, rfl, ?_⟩
          simp only [length_drop, length_take]
          omega
        · intro err h
          cases h

lemma openFile_size {names : Names τ} {ref : SnapshotRef R τ} {fromTimestamp : ℤ → ℕ → Option τ}
    {snapshots : List R} {p : DavPath names} {options : OpenOptions}
    (h : openFile names ref (fun snap => fileMetadata x fromTimestamp (db snap)) snapshots p options = .ok f)
    (hc : HasContent x (db f.snap) f.path fi content) : f.size.toNat = content.length := by
  unfold openFile at h
  split_ifs at h
  split at h
  · cases h
  · split at h
    · next snap subpath _ name size modified hmeta =>
      cases h
      obtain ⟨raw, hrow, hdecode⟩ := hc.decode
      simp only [fileMetadata, hrow, hdecode, fsEntryFromFileInfo] at hmeta
      split at hmeta
      · cases hmeta
      · split_ifs at hmeta
        cases hmeta
        have hlen := hc.length
        have hbounds := hc.size_bounds
        rw [toNat_ofNat (by omega)]
        omega
    · cases h
    · cases h
    · cases h
  · cases h

def SameFile (f f' : DavSnapshotFile R τ) : Prop := f'.snap = f.snap ∧ f'.path = f.path ∧ f'.size = f.size

lemma hasContent_same {f' : DavSnapshotFile R τ} (h : HasContent x (db f.snap) f.path fi content)
    (hf : SameFile f f') : HasContent x (db f'.snap) f'.path fi content := by
  rw [hf.1, hf.2.1]
  exact h

section

variable (hw : 32 ≤ w ∧ w ≤ 64) (hc : HasContent x (db f.snap) f.path fi content)
  (hsize : f.size.toNat = content.length)
include hw hc hsize

lemma step_same (call : Call w) : ∃ f', f.step x w db call = some f' ∧ SameFile f f' := by
  cases call with
  | seek place =>
    obtain ⟨f', res, hseek, hok, herr⟩ := seek_spec f place
    refine ⟨f', by rw [DavSnapshotFile.step, hseek]; rfl, ?_⟩
    cases res with
    | ok q =>
      rw [(hok q rfl).2]
      exact ⟨rfl, rfl, rfl⟩
    | error err =>
      rw [(herr err rfl).1]
      exact ⟨rfl, rfl, rfl⟩
  | read count failure =>
    obtain ⟨f', res, hread, hsnap, hpath, hsz, -⟩ := readBytes_spec hw hc hsize count failure
    exact ⟨f', by rw [DavSnapshotFile.step, hread]; rfl, hsnap, hpath, hsz⟩

lemma run_same (calls : List (Call w)) :
    ∃ f', run (DavSnapshotFile.step x w db) f calls = some f' ∧ SameFile f f' := by
  induction calls generalizing f with
  | nil => exact ⟨f, rfl, rfl, rfl, rfl⟩
  | cons call calls ih =>
    obtain ⟨f₁, hstep, hsame⟩ := step_same hw hc hsize call
    obtain ⟨f₂, hrun, hsame'⟩ := ih (hasContent_same hc hsame) (by rw [hsame.2.2, hsize])
    refine ⟨f₂, run_cons_eq_some.2 ⟨f₁, hstep, hrun⟩, ?_, ?_, ?_⟩
    · rw [hsame'.1, hsame.1]
    · rw [hsame'.2.1, hsame.2.1]
    · rw [hsame'.2.2, hsame.2.2]

end

/-- **The cursor of an open file.**  After any calls on a file that was opened, whatever storage reads have
failed, nothing has overflowed; and from there a read that succeeds returns the bytes at the position and moves
it behind them, and a call that fails leaves it, but for a read whose storage read fails. -/
theorem cursor_reads (hw : 32 ≤ w ∧ w ≤ 64) (names : Names τ) (ref : SnapshotRef R τ)
    (fromTimestamp : ℤ → ℕ → Option τ) (snapshots : List R) (p : DavPath names) (options : OpenOptions)
    (f₀ : DavSnapshotFile R τ)
    (hopen : openFile names ref (fun snap => fileMetadata x fromTimestamp (db snap)) snapshots p options = .ok f₀)
    (hc : HasContent x (db f₀.snap) f₀.path fi content) (calls : List (Call w)) :
    ∃ f, run (DavSnapshotFile.step x w db) f₀ calls = some f ∧ f.size.toNat = content.length ∧
      (∀ count failure, ∃ f' res, f.readBytes w (storageRead x w db failure) count = some (f', res) ∧
        (∀ bytes, res = .ok bytes → f.pos.toNat ≤ content.length ∧
          bytes = (content.take (min (f.pos.toNat + count) content.length)).drop f.pos.toNat ∧
          f'.pos.toNat = f.pos.toNat + bytes.length) ∧
        ∀ err, res = .error err → failure = none → f' = f ∧ content.length < f.pos.toNat) ∧
      ∀ place, ∃ f' res, f.seek place = some (f', res) ∧
        (∀ q, res = .ok q → (q.toNat : ℤ) = place.target f.size f.pos ∧ f'.pos = q) ∧
        ∀ err, res = .error err → f' = f := by
  have hsize := openFile_size hopen hc
  obtain ⟨f, hrun, hsame⟩ := run_same hw hc hsize calls
  have hsize' : f.size.toNat = content.length := by rw [hsame.2.2, hsize]
  refine ⟨f, hrun, hsize', fun count failure => ?_, fun place => ?_⟩
  · obtain ⟨f', res, hread, -, -, -, hok, herr⟩ := readBytes_spec hw (hasContent_same hc hsame) hsize' count failure
    refine ⟨f', res, hread, hok, fun err hres hnone => ?_⟩
    rcases herr err hres with hstay | ⟨hfail, -⟩
    · exact hstay
    · rw [hnone] at hfail
      cases hfail
  · obtain ⟨f', res, hseek, hok, herr⟩ := seek_spec f place
    refine ⟨f', res, hseek, fun q hq => ?_, fun err he => (herr err he).1⟩
    obtain ⟨htarget, rfl⟩ := hok q hq
    exact ⟨htarget, rfl⟩

end Files

/-! ### A storage read that fails -/

def fileRef : SampleRef := ⟨['a'], 60, 0⟩

/-- `/a/11/f`. -/
def filePath : DavPath sampleNames := ⟨[['a'], ['1', '1'], ['f']], by decide, 0⟩

def fileDecoder : Externals := Externals.knowing [([1], twoBlockRecord)]

def opened : DavSnapshotFile SampleRef ℕ := ⟨fileRef, ['f'], 5, 0, 0⟩

lemma opened_content : HasContent fileDecoder oneFileSnapshot ['f'] twoBlockRecord [1, 2, 3, 4, 5] := by
  refine ⟨⟨[1], by decide, rfl⟩, rfl, rfl, .inl (by simp [twoBlockRecord]), [[1, 2], [3, 4, 5]], ?_, rfl⟩
  exact .cons ⟨rfl, rfl⟩ (.cons ⟨rfl, rfl⟩ .nil)

lemma openFile_opened :
    openFile sampleNames sampleRefs (fun _ => fileMetadata fileDecoder (fun s _ => some s.toNat) oneFileSnapshot)
      [fileRef] filePath ⟨false, false, false, false⟩ = .ok opened := by
  rfl

/-- The read of three bytes at the start fails, and the next read returns the bytes after them. -/
theorem cursor_skips :
    openFile sampleNames sampleRefs (fun _ => fileMetadata fileDecoder (fun s _ => some s.toNat) oneFileSnapshot)
      [fileRef] filePath ⟨false, false, false, false⟩ = .ok opened ∧
    HasContent fileDecoder oneFileSnapshot ['f'] twoBlockRecord [1, 2, 3, 4, 5] ∧
    ∃ f, opened.readBytes 64 (storageRead fileDecoder 64 (fun _ => oneFileSnapshot) (some (.io "timeout"))) 3 =
        some (f, .error .generalFailure) ∧ f.pos = 3 ∧
      ∃ f', f.readBytes 64 (storageRead fileDecoder 64 (fun _ => oneFileSnapshot) none) 3 = some (f', .ok [4, 5]) := by
  exact ⟨openFile_opened, opened_content, _, rfl, rfl, _, rfl⟩

/-- A read that fails, and a seek to the fourth byte from the end: from there two bytes are read. -/
theorem cursor_reads_afterFailure :
    ∃ f, run (DavSnapshotFile.step fileDecoder 64 fun _ => oneFileSnapshot) opened
        [.read 3 (some (.io "timeout")), .seek (.fromEnd (-4))] = some f ∧ f.pos = 1 ∧
      ∃ f' res, f.readBytes 64 (storageRead fileDecoder 64 (fun _ => oneFileSnapshot) none) 2 = some (f', res) ∧
        ∀ bytes, res = .ok bytes → bytes = [2, 3] := by
  have hw : 32 ≤ 64 ∧ 64 ≤ 64 := by decide
  obtain ⟨f, hrun, -, hread, -⟩ := cursor_reads hw sampleNames sampleRefs (fun s _ => some s.toNat)
    [fileRef] filePath ⟨false, false, false, false⟩ opened openFile_opened opened_content
    [.read 3 (some (.io "timeout")), .seek (.fromEnd (-4))]
  have hpos : f.pos = 1 := by
    cases hrun
    rfl
  obtain ⟨f', res, hcall, hok, -⟩ := hread 2 none
  refine ⟨f, hrun, hpos, f', res, hcall, fun bytes hres => ?_⟩
  rw [(hok bytes hres).2.1, hpos]
  rfl

end Bepository.Dav
