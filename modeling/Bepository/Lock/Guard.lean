import Bepository.Lock.Acquire

/-!
# The renewal task of a held lock (`bepository-lock/src/guard.rs`)

`renewal_loop` sleeps, looks at the time since its last success and calls `acquire` again.  The
durations of the calls, their results and how the sleeps end come from outside.  Instants are
nanoseconds on one axis, since the local clock and the store's advance at the same rate.
-/

namespace Bepository.Lock

/-! ### `renewal_loop` -/

/-- `LockLost`. -/
inductive LockLost where
  | preempted
  | expired (elapsedSecs thresholdSecs : ℕ)
  | clockRegression
  | cancelled
  deriving DecidableEq

def second : ℕ := 10 ^ 9

def renewInterval (lease : ℕ) : ℕ := lease / 3 * second

def retryInterval : ℕ := 15 * second

/-- `lease * 2 / 3`, in 64 bits. -/
def giveUpAfter (lease : ℕ) : ℕ := lease * 2 % 2 ^ 64 / 3

/-- What the loop makes of a result of `acquire`. -/
inductive Renewed where
  | renewed
  | retry
  | lost (reason : LockLost)
  deriving DecidableEq

/-- The match on the result.  A call that panics takes the task with it; the channel is then closed,
which the guard reads as `Cancelled`. -/
def afterAcquire : Except Error AcquisitionStatus → Renewed
  | .ok (.owner _) => .renewed
  | .ok .yielded => .lost .preempted
  | .ok .queuedBackwardClock => .lost .clockRegression
  | .ok .queued | .ok .failed | .ok .notOwner => .lost .preempted
  | .error .panicked => .lost .cancelled
  | .error _ => .retry

/-- How a sleep ends: it is over, on the system clock or not, or the cancellation comes `after` its
start. -/
inductive SleepEnd where
  | elapsed (systime : Bool)
  | cancelled (after : ℕ)

/-- `cancellable_sleep`: when it ends, with whether to use the system clock again. -/
def cancellableSleep (now duration : ℕ) (useSystime : Bool) : SleepEnd → Except (LockLost × ℕ) (ℕ × Bool)
  | .elapsed systime => .ok (now + duration, useSystime && systime)
  | .cancelled after => .error (.cancelled, now + min after duration)

/-- The locals of the loop at the head of an iteration.  `stamp` is the store's timestamp of the epoch
file of the last success, which the code does not look at. -/
structure Renewal where
  now : ℕ
  lastSuccess : ℕ
  stamp : ℕ
  useSystime : Bool

/-- The loop is at its head, or has returned at some time; `stamp` is that of its last success. -/
inductive LoopState where
  | running (l : Renewal)
  | returned (reason : LockLost) (time stamp : ℕ)

/-- What an iteration meets: the result of its `acquire`, how long the call takes, how long after its
start the store stamps the file it creates, and the end of the sleep after it. -/
structure Attempt where
  result : Except Error AcquisitionStatus
  took : ℕ
  stampAfter : ℕ
  sleep : SleepEnd

def sleepThen (l : Renewal) (duration : ℕ) (sleep : SleepEnd) : LoopState :=
  match cancellableSleep l.now duration l.useSystime sleep with
  | .ok (now, systime) => .running { l with now := now, useSystime := systime }
  | .error (reason, time) => .returned reason time l.stamp

/-- `last_success.elapsed().as_secs()`. -/
def Renewal.elapsed (l : Renewal) : ℕ := (l.now - l.lastSuccess) / second

def iterate (lease : ℕ) (l : Renewal) (a : Attempt) : LoopState :=
  if giveUpAfter lease ≤ l.elapsed then .returned (.expired l.elapsed (giveUpAfter lease)) l.now l.stamp
  else
    match afterAcquire a.result with
    | .renewed =>
      sleepThen { l with now := l.now + a.took, lastSuccess := l.now + a.took, stamp := l.now + a.stampAfter }
        (renewInterval lease) a.sleep
    | .retry => sleepThen { l with now := l.now + a.took } retryInterval a.sleep
    | .lost reason => .returned reason (l.now + a.took) l.stamp

/-- `renewal_loop` after so many iterations, for a lock that was acquired at `acquiredAt` with a file
stamped `stamp`. -/
def renewalLoop (lease acquiredAt stamp : ℕ) (first : SleepEnd) (attempts : ℕ → Attempt) : ℕ → LoopState
  | 0 => sleepThen ⟨acquiredAt, acquiredAt, stamp, true⟩ (renewInterval lease) first
  | n + 1 =>
    match renewalLoop lease acquiredAt stamp first attempts n with
    | .running l => iterate lease l (attempts n)
    | .returned reason time stamp => .returned reason time stamp

/-! ### The lease -/

/-- At the head of an iteration: the last success is at most one call later than the stamp of its file,
and the last look at the clock was a call and a retry ago. -/
structure Timely (lease d : ℕ) (l : Renewal) : Prop where
  stamp_le : l.stamp ≤ l.lastSuccess
  success_le : l.lastSuccess ≤ l.stamp + d
  now_ge : l.lastSuccess ≤ l.now
  now_le : l.now ≤ l.lastSuccess + giveUpAfter lease * second + d + retryInterval

/-- The calls are short, and the store stamps a file while the call lasts. -/
def Attempt.Short (d : ℕ) (a : Attempt) : Prop := a.took ≤ d ∧ a.stampAfter ≤ a.took

section Lease

variable {lease d : ℕ} {l l' : Renewal} {a : Attempt}

lemma giveUpAfter_bound (hu : lease * 2 < 2 ^ 64) (hd : 3 * (2 * d + 16 * second) < lease * second) :
    giveUpAfter lease * second + 2 * d + retryInterval ≤ lease * second := by
  unfold giveUpAfter retryInterval
  rw [Nat.mod_eq_of_lt hu]
  unfold second at hd ⊢
  omega

lemma renewInterval_le (hu : lease * 2 < 2 ^ 64) : renewInterval lease ≤ giveUpAfter lease * second := by
  unfold renewInterval giveUpAfter
  rw [Nat.mod_eq_of_lt hu]
  exact Nat.mul_le_mul_right _ (by omega)

lemma Renewal.elapsed_lt (h : ¬ giveUpAfter lease ≤ l.elapsed) :
    l.now < l.lastSuccess + giveUpAfter lease * second := by
  unfold Renewal.elapsed at h
  have hlt : (l.now - l.lastSuccess) / second < giveUpAfter lease := Nat.lt_of_not_le h
  rw [Nat.div_lt_iff_lt_mul (by decide)] at hlt
  omega

lemma sleepThen_cases (l : Renewal) (duration : ℕ) (sleep : SleepEnd) :
    (∃ systime, sleepThen l duration sleep = .running { l with now := l.now + duration, useSystime := systime }) ∨
      ∃ time, sleepThen l duration sleep = .returned .cancelled time l.stamp ∧ time ≤ l.now + duration := by
  cases sleep with
  | elapsed => exact .inl ⟨_, rfl⟩
  | cancelled => exact .inr ⟨_, rfl, by omega⟩

/-- What an iteration does: it returns within the lease, or it is renewed within the lease, or it tries
again after a retry interval. -/
inductive Iterates (lease : ℕ) (l : Renewal) (a : Attempt) : LoopState → Prop where
  | returns (reason : LockLost) time (hle : time ≤ l.stamp + lease * second) :
      Iterates lease l a (.returned reason time l.stamp)
  | renews e (hcall : ¬ giveUpAfter lease ≤ l.elapsed) (he : a.result = .ok (.owner e))
      (hle : l.now + a.took ≤ l.stamp + lease * second) : Iterates lease l a (sleepThen
        { l with now := l.now + a.took, lastSuccess := l.now + a.took, stamp := l.now + a.stampAfter }
        (renewInterval lease) a.sleep)
  | retries systime (hcall : ¬ giveUpAfter lease ≤ l.elapsed) : Iterates lease l a
        (.running { l with now := l.now + a.took + retryInterval, useSystime := systime })

lemma iterate_iterates (hu : lease * 2 < 2 ^ 64) (hd : 3 * (2 * d + 16 * second) < lease * second)
    (h : Timely lease d l) (ha : a.Short d) : Iterates lease l a (iterate lease l a) := by
  have hbound := giveUpAfter_bound hu hd
  obtain ⟨hs, hsd, hn, hle⟩ := h
  obtain ⟨htook, -⟩ := ha
  unfold iterate
  split_ifs with hgive
  · exact .returns _ _ (by omega)
  · have hlt := Renewal.elapsed_lt hgive
    cases hr : afterAcquire a.result with
    | renewed =>
      obtain ⟨e, he⟩ : ∃ e, a.result = .ok (.owner e) := by
        unfold afterAcquire at hr
        split at hr <;> cases hr
        next e he => exact ⟨e, he⟩
      exact .renews e hgive he (by omega)
    | retry =>
      simp only
      rcases sleepThen_cases { l with now := l.now + a.took } retryInterval a.sleep with
        ⟨systime, hsleep⟩ | ⟨time, hsleep, htime⟩
      · rw [hsleep]
        exact .retries systime hgive
      · rw [hsleep]
        exact .returns _ _ (by simp only at htime; omega)
    | lost => exact .returns _ _ (by omega)

lemma Timely.sleep (hu : lease * 2 < 2 ^ 64) (hd : 3 * (2 * d + 16 * second) < lease * second) {t stamp : ℕ}
    (hs : stamp ≤ t ∧ t ≤ stamp + d) (systime : Bool) (sleep : SleepEnd) :
    (∃ l, sleepThen ⟨t, t, stamp, systime⟩ (renewInterval lease) sleep = .running l ∧ l.stamp = stamp ∧
      Timely lease d l) ∨
    ∃ reason time, sleepThen ⟨t, t, stamp, systime⟩ (renewInterval lease) sleep = .returned reason time stamp ∧
      time ≤ stamp + lease * second := by
  have hbound := giveUpAfter_bound hu hd
  have hinterval := renewInterval_le hu
  rcases sleepThen_cases ⟨t, t, stamp, systime⟩ (renewInterval lease) sleep with
    ⟨systime', hsleep⟩ | ⟨time, hsleep, htime⟩
  · refine .inl ⟨_, hsleep, rfl, ?_⟩
    constructor <;> simp only <;> omega
  · refine .inr ⟨_, time, hsleep, ?_⟩
    simp only at htime
    omega

def LoopState.InTime (lease d : ℕ) : LoopState → Prop
  | .running l => Timely lease d l
  | .returned _ time stamp => time ≤ stamp + lease * second

lemma Timely.iterate (hu : lease * 2 < 2 ^ 64) (hd : 3 * (2 * d + 16 * second) < lease * second)
    (h : Timely lease d l) (ha : a.Short d) : (iterate lease l a).InTime lease d := by
  obtain ⟨htook, hstamp⟩ := ha
  have hi := iterate_iterates hu hd h ⟨htook, hstamp⟩
  generalize Lock.iterate lease l a = next at hi ⊢
  cases hi with
  | returns reason time hle => exact hle
  | renews e hcall he hle =>
    have hs : l.now + a.stampAfter ≤ l.now + a.took ∧ l.now + a.took ≤ l.now + a.stampAfter + d := by omega
    rcases Timely.sleep hu hd hs l.useSystime a.sleep with ⟨l', hl', -, ht⟩ | ⟨reason, time, hr, hle⟩
    · rw [hl']
      exact ht
    · rw [hr]
      exact hle
  | retries systime hcall =>
    have hlt := Renewal.elapsed_lt hcall
    obtain ⟨hs, hsd, hn, -⟩ := h
    constructor <;> simp only <;> omega

section Run

variable {acquiredAt stamp : ℕ} {first : SleepEnd} {attempts : ℕ → Attempt}

section

variable (hu : lease * 2 < 2 ^ 64) (hd : 3 * (2 * d + 16 * second) < lease * second)
  (hs : stamp ≤ acquiredAt ∧ acquiredAt ≤ stamp + d) (ha : ∀ n, (attempts n).Short d)
include hu hd hs ha

lemma renewalLoop_inTime (first : SleepEnd) (n : ℕ) :
    (renewalLoop lease acquiredAt stamp first attempts n).InTime lease d := by
  induction n with
  | zero =>
    rcases Timely.sleep hu hd hs true first with ⟨l, hl, -, ht⟩ | ⟨reason, time, hr, hle⟩
    · rw [renewalLoop, hl]
      exact ht
    · rw [renewalLoop, hr]
      exact hle
  | succ n ih =>
    rw [renewalLoop]
    split
    · next l hl =>
      rw [hl] at ih
      exact Timely.iterate hu hd ih (ha n)
    · next hr =>
      rw [hr] at ih
      exact ih

lemma renewalLoop_ends {n : ℕ} (hl : renewalLoop lease acquiredAt stamp first attempts n = .running l) :
    ∃ k, n ≤ k ∧ ((∃ reason time, renewalLoop lease acquiredAt stamp first attempts (k + 1) =
        .returned reason time l.stamp ∧ time ≤ l.stamp + lease * second) ∨
      ∃ l' e, renewalLoop lease acquiredAt stamp first attempts k = .running l' ∧
        ¬ giveUpAfter lease ≤ l'.elapsed ∧ (attempts k).result = .ok (.owner e) ∧
        l'.now + (attempts k).took ≤ l.stamp + lease * second) := by
  have htimely : ∀ n l, renewalLoop lease acquiredAt stamp first attempts n = .running l → Timely lease d l := by
    intro n l hl
    have hin := renewalLoop_inTime hu hd hs ha first n
    rw [hl] at hin
    exact hin
  -- the time left, which every retry makes shorter
  generalize hleft : l.stamp + lease * second - l.now = left
  induction left using Nat.strong_induction_on generalizing n l with
  | _ left ih =>
    have hstep : renewalLoop lease acquiredAt stamp first attempts (n + 1) = iterate lease l (attempts n) := by
      rw [renewalLoop, hl]
    have hi := iterate_iterates hu hd (htimely n l hl) (ha n)
    rw [← hstep] at hi
    generalize hnext : renewalLoop lease acquiredAt stamp first attempts (n + 1) = next at hi
    cases hi with
    | returns reason time hle => exact ⟨n, le_rfl, .inl ⟨reason, time, hnext, hle⟩⟩
    | renews e hcall he hle => exact ⟨n, le_rfl, .inr ⟨l, e, hl, hcall, he, hle⟩⟩
    | retries systime hcall =>
      have hpos : 0 < retryInterval := by decide
      have hlt : l.now < l.stamp + lease * second := by
        have hbound := giveUpAfter_bound hu hd
        have hearly := Renewal.elapsed_lt hcall
        have hsd := (htimely n l hl).success_le
        omega
      obtain ⟨k, hk, hend⟩ := ih _ (by simp only; omega) hnext rfl
      exact ⟨k, by omega, hend⟩

end

end Run

/-- **The loss of a lease is reported before the lease runs out**, for every sequence of results and
sleeps: `renewal_loop` returns no later than a lease after the stamp of the last file whose `acquire`
returned `Owner`; and from any iteration on it does return, unless a later `acquire` returns `Owner`
before that time. -/
theorem lease_loss_reported (lease d acquiredAt stamp : ℕ) (first : SleepEnd) (attempts : ℕ → Attempt)
    (hu : 2 * lease < 2 ^ 64) (hd : 3 * (2 * d + 16 * second) < lease * second)
    (hs : stamp ≤ acquiredAt ∧ acquiredAt ≤ stamp + d) (ha : ∀ n, (attempts n).Short d) (n : ℕ) :
    (∀ reason time last, renewalLoop lease acquiredAt stamp first attempts n = .returned reason time last →
      time ≤ last + lease * second) ∧
    ∀ l, renewalLoop lease acquiredAt stamp first attempts n = .running l → ∃ k, n ≤ k ∧
        ((∃ reason time, renewalLoop lease acquiredAt stamp first attempts (k + 1) =
          .returned reason time l.stamp ∧ time ≤ l.stamp + lease * second) ∨
        ∃ l' e, renewalLoop lease acquiredAt stamp first attempts k = .running l' ∧
          ¬ giveUpAfter lease ≤ l'.elapsed ∧ (attempts k).result = .ok (.owner e) ∧
          l'.now + (attempts k).took ≤ l.stamp + lease * second) := by
  have hu' : lease * 2 < 2 ^ 64 := by omega
  refine ⟨fun reason time last h => ?_, fun l h => renewalLoop_ends hu' hd hs ha h⟩
  have hin := renewalLoop_inTime hu' hd hs ha first n
  rw [h] at hin
  exact hin

/-- For the literals of `Epoch.early`. -/
instance Epoch.neZero_eight : NeZero 8 := ⟨by decide⟩

def Epoch.early (n : Fin 8) : Epoch := ⟨n.val, n.isLt.trans (by decide)⟩

/-- A lease of three minutes, renewed once; then the store fails, and every call takes ten seconds. -/
def failingStore (n : ℕ) : Attempt :=
  if n = 0 then ⟨.ok (.owner (.early 1)), 10 * second, second, .elapsed true⟩
  else ⟨.error .objectStore, 10 * second, 0, .elapsed true⟩

/-- The loss is reported three minutes after the stamp at the latest. -/
theorem lease_loss_reported_failingStore :
    ∃ k reason time, renewalLoop 180 0 0 (.elapsed true) failingStore (k + 1) =
      .returned reason time (61 * second) ∧ time ≤ 241 * second := by
  have hshort : ∀ n, (failingStore n).Short (10 * second) := by
    intro n
    unfold failingStore
    split_ifs <;> constructor <;> decide
  obtain ⟨k, hk, ⟨reason, time, hret, hle⟩ | ⟨l', e, -, -, he, -⟩⟩ :=
    (lease_loss_reported 180 (10 * second) 0 0 (.elapsed true) failingStore (by decide) (by decide)
      (by decide) hshort 1).2 _ rfl
  · exact ⟨k, reason, time, hret, hle⟩
  · rw [failingStore, if_neg (by omega)] at he
    cases he

end Lease

end Bepository.Lock
