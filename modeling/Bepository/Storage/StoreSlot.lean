import Mathlib.Logic.Function.Basic
import Bepository.Lib.Run

/-!
# Waiting for the store (`bepository-storage/src/compaction.rs`)

The compaction supplier is made before the `FolderStore` that it needs; it waits in `StoreSlot::wait` until
`open_folder_store` has called `StoreSlot::set`.  A waiter enables its `Notified` before it looks at the cell,
and `set` writes the cell before it calls `notify_waiters`.

`Notify` belongs to tokio: `notify_waiters` notifies the futures that were enabled before, and no others.
-/

namespace Bepository.Storage

open Lib Option

/-! ### The slot and its tasks -/

/-- A task in `wait`: it is not there, at the top of the loop, has created its `Notified`, has enabled it, has
found the cell empty, awaits the `Notified`, or has returned.  An enabled `Notified` may have been notified. -/
inductive Waiter (V : Type*) where
  | idle
  | top
  | created
  | enabled (notified : Bool)
  | missed (notified : Bool)
  | parked (notified : Bool)
  | returned (store : V)

/-- The call of `set`: it has not begun, has written the cell, or has returned. -/
inductive Setter where
  | pending
  | written
  | returned
  deriving DecidableEq

/-- A `StoreSlot` with the tasks that use it. -/
structure StoreSlot (ι V : Type*) where
  cell : Option V
  setter : Setter
  waiter : ι → Waiter V

/-- The two steps of `set`, the call of `wait` by a task, its next step, and the task is dropped. -/
inductive SlotAct (ι : Type*) where
  | write
  | notify
  | start (i : ι)
  | next (i : ι)
  | drop (i : ι)

section Slot

variable {ι V : Type*}

/-- `StoreSlot::new`, before any task waits. -/
def StoreSlot.new : StoreSlot ι V := ⟨none, .pending, fun _ => .idle⟩

/-- The next step of `wait`; `none` says that the task has to wait or is not there. -/
def Waiter.next (cell : Option V) : Waiter V → Option (Waiter V)
  | .idle => none
  | .top => some .created
  | .created => some (.enabled false)
  | .enabled notified =>
    match cell with
    | some store => some (.returned store)
    | none => some (.missed notified)
  | .missed notified => some (.parked notified)
  | .parked notified => if notified then some .top else none
  | .returned _ => none

/-- The call of `wait`. -/
def Waiter.start : Waiter V → Option (Waiter V)
  | .idle => some .top
  | _ => none

/-- `notify_waiters`, for one task. -/
def Waiter.notified : Waiter V → Waiter V
  | .enabled _ => .enabled true
  | .missed _ => .missed true
  | .parked _ => .parked true
  | w => w

variable [DecidableEq ι]

def StoreSlot.update (s : StoreSlot ι V) (i : ι) (w : Waiter V) : StoreSlot ι V :=
  { s with waiter := Function.update s.waiter i w }

/-- A step; `given` is the store that is passed to `set`.  `OnceLock::set` keeps what is there. -/
def StoreSlot.step (given : V) (s : StoreSlot ι V) : SlotAct ι → Option (StoreSlot ι V)
  | .write =>
    match s.setter with
    | .pending => some { s with cell := s.cell.or (some given), setter := .written }
    | _ => none
  | .notify =>
    match s.setter with
    | .written => some { s with setter := .returned, waiter := fun i => (s.waiter i).notified }
    | _ => none
  | .start i => (s.waiter i).start.map (s.update i)
  | .next i => ((s.waiter i).next s.cell).map (s.update i)
  | .drop i => some (s.update i .idle)

/-! ### No lost wakeup -/

/-- What holds of a task by how far `set` is: one that has found the cell empty is notified once `set` has
returned, and one that has returned has the store. -/
def Waiter.Sound (given : V) (setter : Setter) : Waiter V → Prop
  | .missed notified | .parked notified => setter = .returned → notified = true
  | .returned store => store = given
  | _ => True

lemma Waiter.Sound.written {given : V} {setter : Setter} {w : Waiter V} (h : w.Sound given setter) :
    w.Sound given .written := by
  cases w with
  | missed | parked =>
    intro hret
    cases hret
  | _ => exact h

lemma Waiter.Sound.notified {given : V} {setter : Setter} {w : Waiter V} (h : w.Sound given setter) :
    w.notified.Sound given .returned := by
  cases w with
  | missed | parked => exact fun _ => rfl
  | _ => exact h

/-- The cell and the tasks by how far `set` is. -/
structure SlotInv (given : V) (s : StoreSlot ι V) : Prop where
  empty : s.setter = .pending → s.cell = none
  full : s.setter ≠ .pending → s.cell = some given
  sound : ∀ i, (s.waiter i).Sound given s.setter

variable {given : V} {s t : StoreSlot ι V} {i : ι} {w w' : Waiter V} {a : SlotAct ι} {as : List (SlotAct ι)}

@[simp] lemma StoreSlot.update_self : (s.update i w).waiter i = w := Function.update_self ..

lemma SlotInv.update (h : SlotInv given s) (hw : w.Sound given s.setter) : SlotInv given (s.update i w) := by
  refine ⟨h.empty, h.full, fun j => ?_⟩
  by_cases hj : j = i
  · subst hj
    rw [StoreSlot.update_self]
    exact hw
  · simp only [StoreSlot.update, Function.update_of_ne hj]
    exact h.sound j

omit [DecidableEq ι] in
lemma SlotInv.next (h : SlotInv given s) (hi : w'.Sound given s.setter) (hw : w'.next s.cell = some w) :
    w.Sound given s.setter := by
  cases w' with
  | idle | returned => cases hw
  | top | created =>
    cases hw
    trivial
  | enabled =>
    by_cases hs : s.setter = .pending
    · rw [h.empty hs] at hw
      cases hw
      intro hret
      rw [hs] at hret
      cases hret
    · rw [h.full hs] at hw
      cases hw
      rfl
  | missed =>
    cases hw
    exact hi
  | parked =>
    simp only [Waiter.next] at hw
    split_ifs at hw
    cases hw
    trivial

lemma SlotInv.step (h : SlotInv given s) (hs : s.step given a = some t) : SlotInv given t := by
  cases a with
  | write =>
    simp only [StoreSlot.step] at hs
    split at hs
    · next hp =>
      cases hs
      refine ⟨fun hw => ?_, fun _ => ?_, fun i => ?_⟩
      · cases hw
      · simp only [h.empty hp]
        rfl
      · exact (h.sound i).written
    · cases hs
  | notify =>
    simp only [StoreSlot.step] at hs
    split at hs
    · next hp =>
      cases hs
      refine ⟨fun hw => ?_, fun _ => h.full (by rw [hp]; decide), fun i => ?_⟩
      · cases hw
      · exact (h.sound i).notified
    · cases hs
  | start i =>
    obtain ⟨w, hw, rfl⟩ := map_eq_some_iff.1 hs
    have htop : w = .top := by
      cases hi : s.waiter i <;> rw [hi] at hw <;> cases hw
      rfl
    subst htop
    exact h.update trivial
  | next i =>
    obtain ⟨w, hw, rfl⟩ := map_eq_some_iff.1 hs
    exact h.update (h.next (h.sound i) hw)
  | drop =>
    cases hs
    exact h.update trivial

lemma slotInv_of_run (hr : run (StoreSlot.step given) StoreSlot.new as = some t) : SlotInv given t := by
  have h₀ : SlotInv given (StoreSlot.new : StoreSlot ι V) :=
    ⟨fun _ => rfl, fun hne => absurd rfl hne, fun _ => trivial⟩
  exact run_keeps (fun _ _ _ h hs => h.step hs) h₀ hr

/-! ### Every wait returns -/

/-- How many steps a task has still to make, once the cell is written. -/
def Waiter.left : Waiter V → ℕ
  | .idle | .returned _ => 0
  | .enabled _ => 1
  | .created => 2
  | .top => 3
  | .parked _ => 4
  | .missed _ => 5

omit [DecidableEq ι] in
lemma SlotInv.goes (h : SlotInv given s) (hs : s.setter = .returned) (hi : s.waiter i ≠ .idle) :
    s.waiter i = .returned given ∨
      ∃ w, (s.waiter i).next s.cell = some w ∧ w ≠ .idle ∧ w.left < (s.waiter i).left := by
  have hfull : s.cell = some given := h.full (by rw [hs]; decide)
  have hsound := h.sound i
  cases hw : s.waiter i with
  | idle => exact absurd hw hi
  | top => exact .inr ⟨.created, rfl, by simp, Nat.lt_succ_self 2⟩
  | created => exact .inr ⟨.enabled false, rfl, by simp, Nat.lt_succ_self 1⟩
  | enabled =>
    rw [hfull]
    exact .inr ⟨.returned given, rfl, by simp, Nat.zero_lt_one⟩
  | missed notified => exact .inr ⟨.parked notified, rfl, by simp, Nat.lt_succ_self 4⟩
  | parked notified =>
    rw [hw] at hsound
    have hnot : notified = true := hsound hs
    subst hnot
    exact .inr ⟨.top, rfl, by simp, Nat.lt_succ_self 3⟩
  | returned =>
    rw [hw] at hsound
    exact .inl (congrArg Waiter.returned hsound)

lemma SlotInv.returns (h : SlotInv given s) (hs : s.setter = .returned) (hi : s.waiter i ≠ .idle) :
    ∃ n u, run (StoreSlot.step given) s (List.replicate n (.next i)) = some u ∧ u.waiter i = .returned given := by
  generalize hk : (s.waiter i).left = k
  induction k using Nat.strongRecOn generalizing s with
  | ind k ih =>
    rcases h.goes hs hi with hret | ⟨w, hw, hne, hlt⟩
    · exact ⟨0, s, rfl, hret⟩
    · have hstep : s.step given (.next i) = some (s.update i w) := by rw [StoreSlot.step, hw]; rfl
      obtain ⟨n, u, hrun, hret⟩ := ih w.left (hk ▸ hlt) (h.step hstep) hs (by rw [StoreSlot.update_self]; exact hne)
        (by rw [StoreSlot.update_self])
      exact ⟨n + 1, u, run_cons_eq_some.2 ⟨_, hstep, hrun⟩, hret⟩

/-- **No lost wakeup.**  For any tasks and any interleaving of their steps with those of one `set`: once that has
returned, no task is parked without a notification; every wait that returns yields the store given to `set`; and
once `set` has returned, every task that is in `wait` returns by its own steps. -/
theorem no_lost_wakeup (given : V) (as : List (SlotAct ι)) (t : StoreSlot ι V)
    (hr : run (StoreSlot.step given) StoreSlot.new as = some t) :
    (t.setter = .returned → ∀ i, t.waiter i ≠ .parked false) ∧
    (∀ i store, t.waiter i = .returned store → store = given) ∧
    (t.setter = .returned → ∀ i, t.waiter i ≠ .idle →
      ∃ n u, run (StoreSlot.step given) t (List.replicate n (.next i)) = some u ∧ u.waiter i = .returned given) := by
  have h := slotInv_of_run hr
  refine ⟨fun hs i hi => ?_, fun i store hi => ?_, fun hs i hi => h.returns hs hi⟩
  · have hsound := h.sound i
    rw [hi] at hsound
    have hfalse : false = true := hsound hs
    cases hfalse
  · have hsound := h.sound i
    rw [hi] at hsound
    exact hsound

end Slot

/-- The first task looks at the empty cell and is notified before it parks; the second has created its
`Notified` and enables it only after `set` has returned. -/
def crossedWaits : List (SlotAct Bool) :=
  [.start true, .next true, .next true, .next true, .start false, .next false, .write, .notify, .next true, .next false]

theorem no_lost_wakeup_crossed :
    ∃ t, run (StoreSlot.step 7) (StoreSlot.new : StoreSlot Bool ℕ) crossedWaits = some t ∧ t.setter = .returned ∧
      (∀ i, t.waiter i ≠ .parked false) ∧
      ∀ i, ∃ n u, run (StoreSlot.step 7) t (List.replicate n (.next i)) = some u ∧ u.waiter i = .returned 7 := by
  have hrun : ∃ t, run (StoreSlot.step 7) (StoreSlot.new : StoreSlot Bool ℕ) crossedWaits = some t ∧
      t.setter = .returned ∧ ∀ i, t.waiter i ≠ .idle := by
    refine ⟨_, rfl, rfl, fun i hi => ?_⟩
    cases i <;> cases hi
  obtain ⟨t, hrun, hs, hidle⟩ := hrun
  obtain ⟨hparked, -, hreturns⟩ := no_lost_wakeup 7 crossedWaits t hrun
  exact ⟨t, hrun, hs, hparked hs, fun i => hreturns hs i (hidle i)⟩

end Bepository.Storage
