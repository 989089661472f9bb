import Bepository.Bep.Proto

/-!
# Announced files (`bepository-bep/src/validate.rs`)

`validate_file_info` accepts a block list that covers the file from offset 0 without gaps, with
blocks of positive size and hashes of 32 bytes.
-/

namespace Bepository

/-- One character as `{:?}` prints it within a string.  Outside ASCII every character is printed as
it is; the standard library also escapes those that are not printable. -/
def debugChar (c : Char) : Str :=
  let backslash := Char.ofNat 92
  match c.toNat with
  | 0 => [backslash, '0']
  | 9 => [backslash, 't']
  | 10 => [backslash, 'n']
  | 13 => [backslash, 'r']
  | 34 => [backslash, c]
  | 92 => [backslash, c]
  | n =>
    if n < 32 ∨ n = 127 then
      [backslash, 'u', Char.ofNat 123] ++ Nat.toDigits 16 n ++ [Char.ofNat 125]
    else [c]

/-- A string under `{:?}`. -/
def Str.debug (s : Str) : String :=
  Str.toString ([Char.ofNat 34] ++ s.flatMap debugChar ++ [Char.ofNat 34])

def MAX_BLOCK_SIZE : ℤ := 16 * 1024 * 1024

def validateBlock (name : Str) (expected : ℤ) (block : BlockInfo) : Except BepError ℤ :=
  if block.size ≤ 0 then
    .error (.peerBadMessage s!"non-positive block size in {name.debug}: {block.size}")
  else if MAX_BLOCK_SIZE < block.size then
    .error (.peerBadMessage s!"block size {block.size} exceeds 16 MiB maximum in {name.debug}")
  else if block.hash.length ≠ 32 then
    .error (.peerBadMessage s!"block hash is {block.hash.length} bytes, not 32, in {name.debug}")
  else if block.offset ≠ expected then
    .error (.peerBadMessage
      s!"non-contiguous block list in {name.debug}: block at offset {block.offset}, expected {expected}")
  else if 2 ^ 63 ≤ expected + block.size then
    .error (.peerBadMessage s!"block list size overflows i64 in {name.debug}")
  else .ok (expected + block.size)

def validateBlocks (name : Str) : ℤ → List BlockInfo → Except BepError ℤ
  | expected, [] => .ok expected
  | expected, block :: blocks =>
    match validateBlock name expected block with
    | .error e => .error e
    | .ok expected => validateBlocks name expected blocks

def validateFileInfo (file : WireFile) : Except BepError Unit :=
  if file.size < 0 then
    .error (.peerBadMessage s!"negative file size in {file.name.debug}: {file.size}")
  else match validateBlocks file.name 0 file.blocks with
    | .error e => .error e
    | .ok expected =>
      if file.blocks ≠ [] ∧ expected ≠ file.size then
        .error (.peerBadMessage
          s!"block list covers {expected} bytes but file size is {file.size} in {file.name.debug}")
      else .ok ()

/-! ### What is accepted -/

def Contiguous : ℤ → List BlockInfo → ℤ → Prop
  | start, [], stop => start = stop
  | start, b :: bs, stop => b.offset = start ∧ Contiguous (start + b.size) bs stop

def BlockInfo.Legal (b : BlockInfo) : Prop :=
  0 < b.size ∧ b.size ≤ MAX_BLOCK_SIZE ∧ b.hash.length = 32

section Accepted

variable {name : Str} {expected stop : ℤ} {block : BlockInfo} {blocks : List BlockInfo}

lemma validateBlock_eq_ok (h : validateBlock name expected block = .ok stop) :
    block.Legal ∧ block.offset = expected ∧ stop = expected + block.size := by
  unfold validateBlock at h
  split_ifs at h with hpos hmax hhash hoff hover
  cases h
  exact ⟨⟨by omega, by omega, not_not.1 hhash⟩, not_not.1 hoff, rfl⟩

lemma validateBlocks_eq_ok (h : validateBlocks name expected blocks = .ok stop) :
    (∀ b ∈ blocks, b.Legal) ∧ Contiguous expected blocks stop := by
  induction blocks generalizing expected with
  | nil =>
    cases h
    exact ⟨by simp, rfl⟩
  | cons b bs ih =>
    simp only [validateBlocks] at h
    split at h
    · cases h
    · next next hb =>
      obtain ⟨hlegal, hoff, rfl⟩ := validateBlock_eq_ok hb
      obtain ⟨hbs, hcont⟩ := ih h
      refine ⟨fun c hc => ?_, hoff, hcont⟩
      rcases List.mem_cons.1 hc with rfl | hc
      · exact hlegal
      · exact hbs c hc

variable {file : WireFile}

/-- **What is accepted is well formed**: legal blocks that cover the file without gaps. -/
theorem validateFileInfo_eq_ok (h : validateFileInfo file = .ok ()) :
    0 ≤ file.size ∧ (∀ b ∈ file.blocks, b.Legal) ∧ (file.blocks ≠ [] → Contiguous 0 file.blocks file.size) := by
  unfold validateFileInfo at h
  split_ifs at h with hneg
  split at h
  · cases h
  · next stop hb =>
    split_ifs at h with hcover
    obtain ⟨hlegal, hcont⟩ := validateBlocks_eq_ok hb
    refine ⟨not_lt.1 hneg, hlegal, fun hne => ?_⟩
    have hstop : stop = file.size := by
      by_contra hstop
      exact hcover ⟨hne, hstop⟩
    rwa [← hstop]

lemma Contiguous.le (hlegal : ∀ b ∈ blocks, b.Legal) (hcont : Contiguous expected blocks stop) : expected ≤ stop := by
  induction blocks generalizing expected with
  | nil => exact le_of_eq hcont
  | cons b bs ih =>
    have hb := (hlegal b List.mem_cons_self).1
    have hle := ih (fun c hc => hlegal c (List.mem_cons_of_mem _ hc)) hcont.2
    omega

lemma validateBlocks_lt (hx : expected < 2 ^ 63)
    (h : validateBlocks name expected blocks = .ok stop) : stop < 2 ^ 63 := by
  induction blocks generalizing expected with
  | nil =>
    cases h
    exact hx
  | cons b bs ih =>
    simp only [validateBlocks] at h
    split at h
    · cases h
    · next next hb =>
      refine ih ?_ h
      unfold validateBlock at hb
      split_ifs at hb with hpos hmax hhash hoff hover
      cases hb
      omega

section

variable (h : validateFileInfo file = .ok ()) (hne : file.blocks ≠ [] ∨ file.size = 0)
include h hne

lemma validateFileInfo_size_lt : file.size < 2 ^ 63 := by
  unfold validateFileInfo at h
  split_ifs at h with hneg
  split at h
  · cases h
  · next stop hb =>
    split_ifs at h with hcover
    have hlt := validateBlocks_lt (by decide) hb
    rcases hne with hne | hne
    · have hstop : stop = file.size := by
        by_contra hstop
        exact hcover ⟨hne, hstop⟩
      omega
    · omega

lemma contiguous_of_validate (hsize : file.size ≠ 0) : Contiguous 0 file.blocks file.size :=
  (validateFileInfo_eq_ok h).2.2 (hne.resolve_right hsize)

end

end Accepted

end Bepository
