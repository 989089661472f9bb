import Mathlib.Algebra.BigOperators.Group.List.Basic
import Mathlib.Algebra.GroupWithZero.Nat
import Mathlib.Data.List.Nodup
import Mathlib.Logic.Relation

/-!
# A queue with a budget

Senders pass messages to one receiver through a bounded queue.  A message costs permits: its sender waits for them at a
fair semaphore before the message may enter the queue, and they come back when the receiver is done with it.

* `Chan.Ok` — no permit is lost, no message is lost or doubled, and each sender's messages stay in order;
* `Chan.Ok.serves` — the channel does not get stuck before every message that was not dropped is handled.

`ι` are the senders and `μ` the messages, which cost `cost`; the queue takes `cap` of them.
-/

namespace Bepository.Lib

/-- The messages by where they are.  `asked`, `handled` and `dropped` record the past. -/
structure Chan (ι μ : Type*) where
  free : ℕ
  waiting : List (ι × μ) := []
  holding : List (ι × μ) := []
  queue : List (ι × μ) := []
  current : Option (ι × μ) := none
  isOpen : Bool := true
  asked : List (ι × μ) := []
  handled : List (ι × μ) := []
  dropped : List (ι × μ) := []

namespace Chan

open Relation List Option

variable {ι μ : Type*} (cap : ℕ) (cost : μ → ℕ)

def total (l : List (ι × μ)) : ℕ := (l.map fun e => cost e.2).sum

/-- What the channel does by itself.  The semaphore serves the senders in the order in which they asked; those that have
their permits enter the queue in any order. -/
inductive Serves (c : Chan ι μ) : Chan ι μ → Prop
  | grant {e rest} (wait : c.waiting = e :: rest) (enough : cost e.2 ≤ c.free) :
      Serves c { c with free := c.free - cost e.2, waiting := rest, holding := c.holding ++ [e] }
  | push {e l₁ l₂} (alive : c.isOpen) (room : c.queue.length < cap) (hold : c.holding = l₁ ++ e :: l₂) :
      Serves c { c with holding := l₁ ++ l₂, queue := c.queue ++ [e] }
  | recv {e rest} (idle : c.current = none) (next : c.queue = e :: rest) :
      Serves c { c with current := some e, queue := rest }
  | done {e} (busy : c.current = some e) :
      Serves c { c with free := c.free + cost e.2, current := none, handled := c.handled ++ [e] }

/-- A sender that waits or holds permits does not ask again.  A send may be given up at any point, and has to be once
the receiver is gone; the receiver takes the messages with it that are in the queue.  What is dropped gives its
permits back. -/
inductive Steps (c : Chan ι μ) : Chan ι μ → Prop
  | serve {c'} (h : Serves cap cost c c') : Steps c c'
  | ask {e} (idle : e.1 ∉ (c.holding ++ c.waiting).map Prod.fst) :
      Steps c { c with waiting := c.waiting ++ [e], asked := c.asked ++ [e] }
  | leave {e l₁ l₂} (wait : c.waiting = l₁ ++ e :: l₂) :
      Steps c { c with waiting := l₁ ++ l₂, dropped := e :: c.dropped }
  | giveUp {e l₁ l₂} (hold : c.holding = l₁ ++ e :: l₂) :
      Steps c { c with free := c.free + cost e.2, holding := l₁ ++ l₂, dropped := e :: c.dropped }
  | close : Steps c { c with
      free := c.free + total cost (c.current.toList ++ c.queue)
      queue := []
      current := none
      isOpen := false
      dropped := c.current.toList ++ c.queue ++ c.dropped }

/-- The messages that hold permits. -/
def admitted (c : Chan ι μ) : List (ι × μ) := c.current.toList ++ c.queue ++ c.holding

/-- The messages that were not dropped, those first that are furthest. -/
def log (c : Chan ι μ) : List (ι × μ) := c.handled ++ (c.admitted ++ c.waiting)

/-- The steps that the messages on their way have still to take. -/
def work (c : Chan ι μ) : ℕ :=
  4 * c.waiting.length + 3 * c.holding.length + 2 * c.queue.length + c.current.toList.length

variable [DecidableEq ι]

/-- The messages of one sender. -/
def ofSender (i : ι) (l : List (ι × μ)) : List (ι × μ) := l.filter (·.1 = i)

structure Ok (budget : ℕ) (c : Chan ι μ) : Prop where
  balance : c.free + total cost c.admitted = budget
  single : ((c.holding ++ c.waiting).map Prod.fst).Nodup
  room : c.queue.length ≤ cap
  kept : ∀ p, c.asked.countP p = c.log.countP p + c.dropped.countP p
  inOrder : ∀ i, (ofSender i c.log).Sublist (ofSender i c.asked)

variable {cap cost} {budget : ℕ} {c c' : Chan ι μ}

omit [DecidableEq ι] in
lemma ne_of_before {e x : ι × μ} {l₁ l₂ : List (ι × μ)} (h : ((l₁ ++ e :: l₂).map Prod.fst).Nodup) (hx : x ∈ l₁) :
    x.1 ≠ e.1 := by
  simp only [map_append, map_cons, nodup_append] at h
  exact h.2.2 x.1 (List.mem_map_of_mem hx) e.1 (by simp)

-- `grant`, `recv` and `done` leave the log as it is, and in `push` a message overtakes those of other senders only.
lemma Ok.step (h : Ok cap cost budget c) (hs : Steps cap cost c c') : Ok cap cost budget c' := by
  obtain ⟨hbal, hsingle, hroom, hkept, horder⟩ := h
  simp only [admitted, total, map_append, sum_append] at hbal
  cases hs with
  | serve hs =>
    cases hs with
    | grant wait =>
      refine ⟨?_, by simpa [wait] using hsingle, hroom, fun p => ?_, fun i => ?_⟩
      · simp [admitted, total]
        omega
      · simpa [log, admitted, wait] using hkept p
      · simpa [log, admitted, wait] using horder i
    | @push e l₁ l₂ alive room hold =>
      rw [hold] at hbal hsingle
      refine ⟨?_, hsingle.sublist (.map _ (by simp)), by simpa using Nat.succ_le_of_lt room, fun p => ?_, fun i => ?_⟩
      · simp [admitted, total] at hbal ⊢
        omega
      · simpa [log, admitted, hold, countP_cons, add_assoc, add_left_comm] using hkept p
      · have hlog := horder i
        by_cases hi : e.1 = i
        · have hnil : l₁.filter (·.1 = i) = [] := by
            simp only [filter_eq_nil_iff, decide_eq_true_eq]
            intro x hx hxi
            exact ne_of_before (hsingle.sublist (.map _ (sublist_append_left ..))) hx (hxi.trans hi.symm)
          simpa [ofSender, log, admitted, hold, hi, hnil] using hlog
        · simpa [ofSender, log, admitted, hold, hi] using hlog
    | recv idle next =>
      refine ⟨?_, hsingle, ?_, fun p => ?_, fun i => ?_⟩
      · simpa [admitted, total, idle, next, add_assoc] using hbal
      · simp only [next, length_cons] at hroom
        exact Nat.le_of_succ_le hroom
      · simpa [log, admitted, idle, next] using hkept p
      · simpa [log, admitted, idle, next] using horder i
    | done busy =>
      refine ⟨?_, hsingle, hroom, fun p => ?_, fun i => ?_⟩
      · simpa [admitted, total, busy, add_assoc] using hbal
      · simpa [log, admitted, busy] using hkept p
      · simpa [log, admitted, busy] using horder i
  | @ask e idle =>
    refine ⟨by simpa [admitted, total, add_assoc] using hbal, ?_, hroom, fun p => ?_, fun i => ?_⟩
    · rw [← append_assoc, map_append]
      exact hsingle.append (by simp) (by simpa using idle)
    · simp only [log, admitted, countP_append, hkept p]
      omega
    · simpa [ofSender, log, admitted] using (horder i).append_right (ofSender i [e])
  | leave wait =>
    rw [wait] at hsingle
    refine ⟨by simpa [admitted, total, add_assoc] using hbal, hsingle.sublist (.map _ (by simp)), hroom, fun p => ?_,
      fun i => .trans (.filter _ ?_) (horder i)⟩
    · simp only [hkept p, log, admitted, wait, countP_append, countP_cons]
      omega
    · simp [log, admitted, wait]
  | giveUp hold =>
    rw [hold] at hbal hsingle
    refine ⟨?_, hsingle.sublist (.map _ (by simp)), hroom, fun p => ?_, fun i => .trans (.filter _ ?_) (horder i)⟩
    · simp [admitted, total] at hbal ⊢
      omega
    · simp only [hkept p, log, admitted, hold, countP_append, countP_cons]
      omega
    · simp [log, admitted, hold]
  | close =>
    refine ⟨?_, hsingle, Nat.zero_le _, fun p => ?_, fun i => .trans (.filter _ ?_) (horder i)⟩
    · simpa [admitted, total, add_assoc] using hbal
    · simp only [hkept p, log, admitted, countP_append, toList_none, countP_nil]
      omega
    · simp [log, admitted]

omit [DecidableEq ι] in
lemma work_serves (hs : Serves cap cost c c') : c'.work + 1 = c.work := by
  cases hs with
  | grant wait =>
    simp only [work, wait, length_append, length_cons, length_nil]
    omega
  | push alive room hold =>
    simp only [work, hold, length_append, length_cons, length_nil]
    omega
  | recv idle next =>
    simp only [work, idle, next, toList_none, toList_some, length_cons, length_nil]
    omega
  | done busy => simp [work, busy]

-- When nothing else is admitted all permits are there, which is enough for the message that has waited longest.
lemma Ok.exists_serves (hcap : 0 < cap) (hcost : ∀ m, cost m ≤ budget) (h : Ok cap cost budget c) (ho : c.isOpen)
    (hw : c.work ≠ 0) : ∃ c', Serves cap cost c c' := by
  have hbal := h.balance
  cases hc : c.current with
  | some => exact ⟨_, .done hc⟩
  | none =>
    cases hq : c.queue with
    | cons => exact ⟨_, .recv hc hq⟩
    | nil =>
      cases hh : c.holding with
      | cons => exact ⟨_, .push ho (by simpa [hq] using hcap) (hh.trans (nil_append _).symm)⟩
      | nil =>
        cases hwait : c.waiting with
        | nil => simp [work, hc, hq, hh, hwait] at hw
        | cons e =>
          simp [admitted, total, hc, hq, hh] at hbal
          exact ⟨_, .grant hwait (hbal ▸ hcost e.2)⟩

theorem Ok.run (h : Ok cap cost budget c) (hr : ReflTransGen (Steps cap cost) c c') : Ok cap cost budget c' := by
  induction hr with
  | refl => exact h
  | tail _ hs ih => exact ih.step hs

/-- **Delivery.**  When the channel has come to rest, every message is handled that was not dropped; and each sender's
messages were handled in the order in which it sent them. -/
theorem Ok.serves (hcap : 0 < cap) (hcost : ∀ m, cost m ≤ budget) (h : Ok cap cost budget c) (ho : c.isOpen)
    (hrest : ∀ c', ¬Serves cap cost c c') :
    c.asked.Perm (c.handled ++ c.dropped) ∧ (c.dropped = [] → ∀ i, ofSender i c.handled = ofSender i c.asked) := by
  have hwork : c.work = 0 := by
    by_contra hw
    obtain ⟨c', hs⟩ := h.exists_serves hcap hcost ho hw
    exact hrest c' hs
  have hlog : c.log = c.handled := by
    simp [work] at hwork
    simp [log, admitted, hwork]
  have hperm : c.asked.Perm (c.handled ++ c.dropped) := by
    classical
    refine perm_iff_count.2 fun e => ?_
    simpa [hlog, List.count] using h.kept (· == e)
  refine ⟨hperm, fun hd i => ?_⟩
  rw [hd, append_nil] at hperm
  exact (hlog ▸ h.inOrder i).eq_of_length (hperm.filter _).length_eq.symm

end Chan

end Bepository.Lib
