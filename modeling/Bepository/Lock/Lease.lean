import Bepository.Lock.Guard

/-!
# The arithmetic of a lease (`bepository-lock/src/lib.rs`, `guard.rs`)

`EpochEntry::expires_at` takes a `u64` of seconds through an `i64` and chrono's `Duration` to a `DateTime`.  The first
and the last conversion saturate; the one between panics beyond `i64::MAX` milliseconds.  `renewal_loop` doubles the
lease in a `u64`, which wraps in a release build.

Times are nanoseconds since the first `DateTime` there is, and `maxUtc` is the last.  `expiresAt maxUtc` is the `expiry`
of a `Config`.
-/

namespace Bepository.Lock

open Option

/-! ### The functions -/

def I64_MAX : ℕ := 2 ^ 63 - 1

/-- `duration.try_into().unwrap_or(i64::MAX)`. -/
def durSecs (duration : ℕ) : ℕ := if duration ≤ I64_MAX then duration else I64_MAX

/-- `ChronoDuration::seconds`, in nanoseconds; `none` is a panic. -/
def chronoSeconds (secs : ℕ) : Option ℕ := if secs ≤ I64_MAX / 1000 then some (secs * second) else none

def checkedAddSigned (maxUtc t d : ℕ) : Option Timestamp := if t + d ≤ maxUtc then some (t + d) else none

/-- `EpochEntry::expires_at`. -/
def expiresAt (maxUtc lastModified : Timestamp) (duration : ℕ) : Option Timestamp :=
  (chronoSeconds (durSecs duration)).map fun d => (checkedAddSigned maxUtc lastModified d).getD maxUtc

/-- `EpochEntry::is_expired_at`. -/
def isExpiredAt (maxUtc lastModified : Timestamp) (duration : ℕ) (t : Timestamp) : Option Bool :=
  (expiresAt maxUtc lastModified duration).map fun x => x ≤ t

/-- The range of `--lease`. -/
def acceptsLease (lease : ℕ) : Bool := 180 ≤ lease && lease < 2 ^ 64

/-! ### Expiry -/

section Expiry

variable {maxUtc t t' : Timestamp} {d d' : ℕ}

lemma expiresAt_of_le (h : d ≤ I64_MAX / 1000) : expiresAt maxUtc t d = some (min (t + d * second) maxUtc) := by
  have hi64 : d ≤ I64_MAX := h.trans (Nat.div_le_self _ _)
  unfold expiresAt chronoSeconds durSecs checkedAddSigned
  rw [if_pos hi64, if_pos h, map_some]
  split_ifs with hle
  · rw [min_eq_left hle, getD_some]
  · rw [min_eq_right (le_of_not_ge hle), getD_none]

lemma expiresAt_eq_none (h : I64_MAX / 1000 < d) : expiresAt maxUtc t d = none := by
  have hdur : I64_MAX / 1000 < durSecs d := by
    unfold durSecs
    split_ifs
    · exact h
    · decide
  unfold expiresAt chronoSeconds
  rw [if_neg (not_le.2 hdur)]
  rfl

lemma expiresAt_eq_some {x : Timestamp} (h : expiresAt maxUtc t d = some x) :
    d ≤ I64_MAX / 1000 ∧ x = min (t + d * second) maxUtc := by
  have hle : d ≤ I64_MAX / 1000 := by
    refine le_of_not_gt fun hgt => ?_
    rw [expiresAt_eq_none hgt] at h
    cases h
  rw [expiresAt_of_le hle] at h
  exact ⟨hle, (Option.some.inj h).symm⟩

lemma expiresAt_mono {x x' : Timestamp} (ht : t ≤ t') (hd : d ≤ d') (h : expiresAt maxUtc t d = some x)
    (h' : expiresAt maxUtc t' d' = some x') : x ≤ x' := by
  obtain ⟨-, rfl⟩ := expiresAt_eq_some h
  obtain ⟨-, rfl⟩ := expiresAt_eq_some h'
  exact min_le_min_right _ (Nat.add_le_add ht (Nat.mul_le_mul_right _ hd))

lemma isExpiredAt_mono {now now' : Timestamp} (hn : now ≤ now') (h : isExpiredAt maxUtc t d now = some true) :
    isExpiredAt maxUtc t d now' = some true := by
  obtain ⟨x, hx, he⟩ := map_eq_some_iff.1 h
  unfold isExpiredAt
  rw [hx, map_some, decide_eq_true ((of_decide_eq_true he).trans hn)]

lemma scavengeEntry_panics {ι : Type*} {c : Config ι} {p : ι} (hc : c.expiry = expiresAt maxUtc) {f : EpochFile}
    (hf : I64_MAX / 1000 < f.duration) (e : Epoch) (ts : Timestamp) (m : ObjectMeta) (metas : List ObjectMeta)
    (regression : Bool) : scavengeEntry c p e ts m f metas regression = .acquired (.error .panicked) := by
  unfold scavengeEntry
  rw [hc, expiresAt_eq_none hf]

end Expiry

/-! ### The thresholds of the renewal -/

section Thresholds

variable {lease lease' : ℕ}

lemma giveUpAfter_eq_iff (h : lease < 2 ^ 64) : giveUpAfter lease = 2 * lease / 3 ↔ lease < 2 ^ 63 := by
  unfold giveUpAfter
  constructor
  · intro he
    refine lt_of_not_ge fun hge => ?_
    -- the product has wrapped once
    have hwrap : lease * 2 % 2 ^ 64 = lease * 2 - 2 ^ 64 := by omega
    rw [hwrap] at he
    omega
  · intro hlt
    rw [Nat.mod_eq_of_lt (by omega), mul_comm]

lemma giveUpAfter_mono (hle : lease ≤ lease') (h : lease' < 2 ^ 63) : giveUpAfter lease ≤ giveUpAfter lease' := by
  rw [(giveUpAfter_eq_iff (by omega)).2 (hle.trans_lt h), (giveUpAfter_eq_iff (by omega)).2 h]
  exact Nat.div_le_div_right (Nat.mul_le_mul_left 2 hle)

lemma renewInterval_mono (hle : lease ≤ lease') : renewInterval lease ≤ renewInterval lease' :=
  Nat.mul_le_mul_right _ (Nat.div_le_div_right hle)

end Thresholds

/-- **Lease arithmetic.**  Up to `i64::MAX / 1000` seconds, the expiry is the exact sum, saturated at the last time;
beyond, chrono panics.  Both are monotone where they are defined.  The give-up threshold is two thirds of the lease
exactly if the lease is below `2 ^ 63`, and it is monotone there, as the interval is everywhere. -/
theorem lease_arithmetic (maxUtc : Timestamp) :
    (∀ t ≤ maxUtc, ∀ d : UInt64,
      (d.toNat ≤ I64_MAX / 1000 → expiresAt maxUtc t d.toNat = some (min (t + d.toNat * second) maxUtc)) ∧
      (I64_MAX / 1000 < d.toNat → expiresAt maxUtc t d.toNat = none)) ∧
    (∀ t ≤ maxUtc, ∀ t' ≤ maxUtc, ∀ (d d' : UInt64) x x', t ≤ t' → d ≤ d' → expiresAt maxUtc t d.toNat = some x →
      expiresAt maxUtc t' d'.toNat = some x' → x ≤ x') ∧
    (∀ t ≤ maxUtc, ∀ (d : UInt64) now now', now ≤ now' → isExpiredAt maxUtc t d.toNat now = some true →
      isExpiredAt maxUtc t d.toNat now' = some true) ∧
    (∀ lease : UInt64, renewInterval lease.toNat = lease.toNat / 3 * second ∧
      (giveUpAfter lease.toNat = 2 * lease.toNat / 3 ↔ lease.toNat < 2 ^ 63)) ∧
    ∀ lease lease' : UInt64, lease ≤ lease' → renewInterval lease.toNat ≤ renewInterval lease'.toNat ∧
      (lease'.toNat < 2 ^ 63 → giveUpAfter lease.toNat ≤ giveUpAfter lease'.toNat) := by
  refine ⟨fun t _ d => ⟨expiresAt_of_le, expiresAt_eq_none⟩, fun t _ t' _ d d' x x' ht hd => ?_,
    fun t _ d now now' => isExpiredAt_mono, fun lease => ⟨rfl, giveUpAfter_eq_iff lease.toNat_lt⟩,
    fun lease lease' h => ?_⟩
  · exact expiresAt_mono ht (UInt64.le_iff_toNat_le.1 hd)
  · have hle := UInt64.le_iff_toNat_le.1 h
    exact ⟨renewInterval_mono hle, giveUpAfter_mono hle⟩

/-- The default lease. -/
theorem lease_arithmetic_default :
    expiresAt (10 ^ 30) 5 180 = some (5 + 180 * 10 ^ 9) ∧ giveUpAfter 180 = 120 ∧
      isExpiredAt (10 ^ 30) 5 180 (6 + 180 * 10 ^ 9) = some true := by
  obtain ⟨hexpires, -, hexpired, hthresholds, -⟩ := lease_arithmetic (10 ^ 30)
  refine ⟨((hexpires 5 (by decide) 180).1 (by decide)).trans (by decide), ?_, ?_⟩
  · exact (hthresholds 180).2.2 (by decide)
  · exact hexpired 5 (by decide) 180 (5 + 180 * 10 ^ 9) _ (by decide) (by decide)

/-- One second more than chrono represents is a panic.  With a lease of `2 ^ 63`, the first look at the clock gives up,
which a lease of 180 does after two minutes. -/
theorem lease_arithmetic_fails :
    (∀ lease ∈ [2 ^ 63, 9223372036854776], acceptsLease lease = true) ∧
    (∀ maxUtc t, expiresAt maxUtc t 9223372036854776 = none) ∧
    giveUpAfter 180 = 120 ∧ giveUpAfter (2 ^ 63) = 0 ∧
    ∀ l a, iterate (2 ^ 63) l a = .returned (.expired l.elapsed 0) l.now l.stamp := by
  have hzero : giveUpAfter (2 ^ 63) = 0 := by decide
  refine ⟨by decide, fun _ _ => expiresAt_eq_none (by decide), by decide, hzero, fun l a => ?_⟩
  unfold iterate
  rw [hzero, if_pos (Nat.zero_le _)]

end Bepository.Lock
