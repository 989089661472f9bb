import Bepository.Lock.Generation
import Bepository.Storage.Store

/-!
# Sessions

A process serves under the epoch its lock was granted: it stages files under that epoch, and at its
start `gc_inbox` removes what was staged under lower ones.  Entries of earlier sessions are gone
after it exactly because their epochs are lower.
-/

namespace Bepository

open Lib Lock Storage List

/-! ### Stale inbox entries -/

/-- `SlateStorage::gc_inbox`: every registered folder, at the epoch of the session. -/
def gcInboxAll (folders : List Db) (epoch : Epoch) : List Db :=
  folders.map fun db => (gcInbox db epoch).2

lemma staleInbox_mi {current e : Epoch} {path : Path} :
    staleInbox current (.mi e path) = true ↔ e < current := by
  simp [staleInbox]

lemma gcInbox_get_of_lt {db : Db} {current e : Epoch} {path : Path} (h : e < current) :
    (gcInbox db current).2.get (.mi e path) = none := by
  have hstale : ∀ r, db.rows.lookup (.mi e path) = some r →
      (Key.mi e path, r) ∈ (db.scanPrefix INBOX_PREFIX).filter fun r => staleInbox current r.1 := by
    intro r hr
    refine mem_filter.2 ⟨Db.mem_scanPrefix.2 ⟨hr, ?_⟩, staleInbox_mi.2 h⟩
    exact prefix_append [109, 105] _
  unfold gcInbox
  simp only
  cases hl : db.rows.lookup (.mi e path) with
  | none =>
    split_ifs
    · rw [Db.get, hl]
      rfl
    · rw [Db.get_write]
      split
      · next hop =>
        obtain ⟨hmem, -⟩ := mem_of_lastOp hop
        obtain ⟨_, -, he⟩ := mem_map.1 hmem
        cases he
      · rfl
      · rw [Db.get, hl]
        rfl
  | some r =>
    have hmem := hstale r hl
    rw [if_neg (ne_nil_of_mem hmem), Db.get_write]
    split
    · next hop =>
      obtain ⟨hmem, -⟩ := mem_of_lastOp hop
      obtain ⟨_, -, he⟩ := mem_map.1 hmem
      cases he
    · rfl
    · next hop => exact absurd rfl (lastOp_eq_none.1 hop _ (mem_map_of_mem hmem))

/-! ### Epochs of successive sessions -/

section Sessions

variable {ι : Type*} [DecidableEq ι]

/-- **Epochs increase across sessions**, in every run in which each `acquire` finds, when it lists the
directory to choose its epoch, a file at or above every epoch granted before it started.  Then the
inbox collection at the new epoch leaves nothing that an earlier session staged. -/
theorem epochs_increase (c : Config ι) {s₀ s : State ι} {as : List (Act ι)} (h₀ : s₀.Initial)
    (hm : Meets (step c) (fun s a => claimAbove s a = true) s₀ as) (hr : run (step c) s₀ as = some s) :
    ∀ g ∈ s.grants, ∀ e₁ ∈ g.before, e₁ < g.epoch ∧
      ∀ folders, ∀ db ∈ gcInboxAll folders g.epoch, ∀ path, db.get (.mi e₁ path) = none := by
  intro g hg e₁ h₁
  have hlt : e₁ < g.epoch := (gen_run h₀ hm hr).grants g hg e₁ h₁
  refine ⟨hlt, fun folders db hdb path => ?_⟩
  obtain ⟨db', -, rfl⟩ := mem_map.1 hdb
  exact gcInbox_get_of_lt hlt

end Sessions

/-! ### A released epoch is granted again -/

/-- `a` acquires the lock and releases it, then `b` acquires it. -/
def handover : List (Act Bool) :=
  .acquire true :: List.replicate 6 (served true) ++
  .release true :: List.replicate 3 (served true) ++
  .acquire false :: List.replicate 6 (served false)

/-- A folder with an entry that `a` staged under epoch 0. -/
def stagedFolder : Db :=
  stageFile Db.empty firstEpoch ⟨['f'], 0, none, 0, [], 0, false⟩

/-- The release removed the only epoch file, so both sessions have epoch 0, and the collection at the
start of the second one leaves the entry of the first. -/
theorem epochs_increase_fails_handover :
    emptyDirectory.Initial ∧
    ∃ s, run (step twoHolders) emptyDirectory handover = some s ∧ ∃ g ∈ s.grants, ∃ e₁ ∈ g.before, ¬ e₁ < g.epoch ∧
        ∃ db ∈ gcInboxAll [stagedFolder] g.epoch, (db.get (inboxKey e₁ ['f'])).isSome := by
  exact ⟨⟨fun _ => rfl, rfl⟩, by decide⟩

/-- `a` acquires the lock and renews it. -/
def renewal : List (Act Bool) :=
  .acquire true :: List.replicate 6 (served true) ++
  .acquire true :: List.replicate 9 (served true)

theorem epochs_increase_renewal :
    ∃ s, run (step twoHolders) emptyDirectory renewal = some s ∧
      s.grants.map (fun g => (g.epoch.val, g.before.map Epoch.val)) = [(1, [0]), (0, [])] ∧
      ∀ g ∈ s.grants, ∀ e₁ ∈ g.before, e₁ < g.epoch ∧
        ∀ folders, ∀ db ∈ gcInboxAll folders g.epoch, ∀ path, db.get (.mi e₁ path) = none := by
  obtain ⟨s, hs, hg⟩ : ∃ s, run (step twoHolders) emptyDirectory renewal = some s ∧
      s.grants.map (fun g => (g.epoch.val, g.before.map Epoch.val)) = [(1, [0]), (0, [])] := by
    decide
  have hinit : emptyDirectory.Initial := ⟨fun _ => rfl, rfl⟩
  exact ⟨s, hs, hg, epochs_increase twoHolders hinit (by decide) hs⟩

end Bepository
