import Mathlib.Data.List.AList

/-!
# Finite tables

A finite map with one value type is an association list without repeated keys.  The lemmas say
what one key reads after a write or a removal at another.
-/

namespace Bepository.Lib

open List

/-- A finite map from `κ` to `ν`. -/
abbrev Table (κ : Type*) (ν : Type*) := AList fun _ : κ => ν

namespace Table

variable {κ ν : Type*} [DecidableEq κ] {k : κ} {t : Table κ ν} {v : ν}

def toList (t : Table κ ν) : List (κ × ν) := t.entries.map fun e => (e.1, e.2)

omit [DecidableEq κ] in
lemma mem_toList_entries : (k, v) ∈ t.toList ↔ (⟨k, v⟩ : Sigma fun _ : κ => ν) ∈ t.entries := by
  unfold toList
  rw [mem_map]
  constructor
  · rintro ⟨⟨k', v'⟩, h, e⟩
    cases e
    exact h
  · exact fun h => ⟨⟨k, v⟩, h, rfl⟩

@[simp] lemma mem_toList : (k, v) ∈ t.toList ↔ t.lookup k = some v := by
  rw [mem_toList_entries, ← AList.mem_lookup_iff, Option.mem_def]

omit [DecidableEq κ] in
lemma nodup_toList_keys (t : Table κ ν) : (t.toList.map Prod.fst).Nodup := by
  have h : t.toList.map Prod.fst = t.keys := by
    unfold toList AList.keys List.keys
    rw [map_map]
    rfl
  rw [h]
  exact t.keys_nodup

lemma lookup_insert' (t : Table κ ν) (k k' : κ) (v : ν) :
    AList.lookup k' (AList.insert k v t) = if k' = k then some v else AList.lookup k' t := by
  split
  · next h => subst h; exact AList.lookup_insert t
  · next h => exact AList.lookup_insert_ne h

lemma lookup_erase' (t : Table κ ν) (k k' : κ) :
    AList.lookup k' (AList.erase k t) = if k' = k then none else AList.lookup k' t := by
  split
  · next h => subst h; exact AList.lookup_erase k' t
  · next h => exact AList.lookup_erase_ne h

lemma lookup_of_erase {k k' : κ} (h : AList.lookup k' (AList.erase k t) = some v) :
    AList.lookup k' t = some v := by
  rw [lookup_erase'] at h
  split_ifs at h
  exact h

lemma lookup_singleton {k k' : κ} {v v' : ν} (h : AList.lookup k' (AList.singleton k v : Table κ ν) = some v') :
    k' = k ∧ v' = v := by
  rw [← Option.mem_def, AList.mem_lookup_iff] at h
  cases mem_singleton.1 h
  exact ⟨rfl, rfl⟩

lemma forall_insert {P : κ → ν → Prop} (h : ∀ k' v', AList.lookup k' t = some v' → P k' v') (hv : P k v)
    (k' : κ) (v' : ν) (hl : AList.lookup k' (AList.insert k v t) = some v') : P k' v' := by
  rw [lookup_insert'] at hl
  split_ifs at hl with hk
  · cases hl
    rw [hk]
    exact hv
  · exact h k' v' hl

lemma forall_erase {P : κ → ν → Prop} (h : ∀ k' v', AList.lookup k' t = some v' → P k' v') (k k' : κ) (v' : ν)
    (hl : AList.lookup k' (AList.erase k t) = some v') : P k' v' :=
  h k' v' (lookup_of_erase hl)

/-- The rows of a table are one of them and those that are left without it. -/
lemma toList_perm_erase (h : t.lookup k = some v) : t.toList.Perm ((k, v) :: toList (t.erase k)) := by
  have hk : k ∈ t.entries.keys := AList.lookup_isSome.1 (by rw [h]; rfl)
  obtain ⟨v', l₁, l₂, hnot, hl, he⟩ := exists_of_kerase hk
  have hv : v' = v := by
    have hlook : t.lookup k = some v' := by
      unfold AList.lookup
      rw [hl]
      exact mem_dlookup (hl ▸ t.nodupKeys) (by simp)
    rw [h] at hlook
    exact (Option.some.inj hlook).symm
  subst hv
  have hentries : (t.erase k).entries = l₁ ++ l₂ := he
  unfold toList
  rw [hentries, hl]
  simp only [map_append, map_cons]
  exact perm_middle

def insertAll (t : Table κ ν) (rows : List (κ × ν)) : Table κ ν := rows.foldl (fun t r => t.insert r.1 r.2) t

lemma lookup_insertAll_of_notMem {rows : List (κ × ν)} (h : k ∉ rows.map Prod.fst) :
    AList.lookup k (insertAll t rows) = AList.lookup k t := by
  induction rows generalizing t with
  | nil => rfl
  | cons r rows ih =>
    rw [map_cons, mem_cons, not_or] at h
    have hr : AList.lookup k (AList.insert r.1 r.2 t) = AList.lookup k t := AList.lookup_insert_ne h.1
    rw [← hr]
    exact ih h.2

lemma lookup_insertAll_of_mem {rows : List (κ × ν)} (hn : (rows.map Prod.fst).Nodup)
    (h : (k, v) ∈ rows) : AList.lookup k (insertAll t rows) = some v := by
  induction rows generalizing t with
  | nil => cases h
  | cons r rows ih =>
    rw [map_cons, nodup_cons] at hn
    rcases mem_cons.1 h with rfl | h
    · have hr : AList.lookup k (AList.insert k v t) = some v := AList.lookup_insert t
      rw [← hr]
      exact lookup_insertAll_of_notMem hn.1
    · exact ih hn.2 h

lemma mem_insertAll {rows : List (κ × ν)} : k ∈ insertAll t rows ↔ k ∈ rows.map Prod.fst ∨ k ∈ t := by
  induction rows generalizing t with
  | nil => simp [insertAll]
  | cons r rows ih =>
    have hcons : insertAll t (r :: rows) = insertAll (AList.insert r.1 r.2 t) rows := rfl
    rw [hcons, ih, AList.mem_insert, map_cons, mem_cons]
    tauto

/-- Apply a function to every value. -/
def map {μ : Type*} (f : ν → μ) (t : Table κ ν) : Table κ μ :=
  ⟨t.entries.map fun e => ⟨e.1, f e.2⟩, by
    simpa [List.NodupKeys, List.keys, Function.comp_def] using t.nodupKeys⟩

@[simp] lemma lookup_map {μ : Type*} (f : ν → μ) (t : Table κ ν) (k : κ) :
    AList.lookup k (map f t) = (AList.lookup k t).map f := by
  unfold map AList.lookup
  simp only
  induction t.entries with
  | nil => rfl
  | cons e es ih =>
    obtain ⟨k', v⟩ := e
    by_cases h : k = k'
    · subst h
      rw [map_cons, dlookup_cons_eq, dlookup_cons_eq]
      rfl
    · rw [map_cons, dlookup_cons_ne _ _ h, dlookup_cons_ne _ _ h]
      exact ih

end Table

end Bepository.Lib
