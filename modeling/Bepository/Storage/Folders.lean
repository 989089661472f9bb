import Bepository.Storage.Meta

/-!
# Registered folders (`bepository-storage/src/meta.rs`, `api.rs`)

The metadata of a store lists its folders under keys that are allocated from a counter.  This module has what
the closures of `modify_meta` do to it and `MetaState`, the view that a session keeps of it.  `Grows` says what
all of them have in common: a key that was not there comes from a number that was not handed out before.
-/

namespace Bepository.Folders

open Lib Lock Storage Metadata List Table

/-! ### The metadata -/

/-- `FolderEntry`. -/
structure FolderEntry where
  id : Str
  label : Str
  deriving DecidableEq

/-- The fields of `Meta`: `folders` in the order of the keys, and in `rest` the identity and the schedules. -/
structure Body (β : Type) where
  nextFolderKey : ℕ
  folders : List (Str × FolderEntry)
  rest : β
  deriving DecidableEq

/-- `folder_key`; it panics beyond forty bits. -/
def folderKey (id : ℕ) : Option Str := (toBase32 id).toOption

def FOLDER_PREFIX : Str := ['f', 'o', 'l', 'd', 'e', 'r', '_']

def folderStorageKey (key : Str) : Str := FOLDER_PREFIX ++ key

/-- `BTreeMap::insert`. -/
def insertEntry (key : Str) (entry : FolderEntry) : List (Str × FolderEntry) → List (Str × FolderEntry)
  | [] => [(key, entry)]
  | row :: rows =>
    if row.1 = key then (key, entry) :: rows
    else if strKey key < strKey row.1 then (key, entry) :: row :: rows
    else row :: insertEntry key entry rows

/-- `values_mut().find(..)`, then the assignment of the label. -/
def setLabel (id label : Str) : List (Str × FolderEntry) → List (Str × FolderEntry)
  | [] => []
  | row :: rows =>
    if row.2.id = id then (row.1, { row.2 with label := label }) :: rows else row :: setLabel id label rows

namespace Body

variable {β : Type}

def ids (m : Body β) : List Str := m.folders.map fun row => row.2.id

def keys (m : Body β) : List Str := m.folders.map Prod.fst

def hasFolder (m : Body β) (id : Str) : Bool := m.folders.any fun row => row.2.id = id

/-- A new folder under the next key; `none` is a panic. -/
def addFolder (m : Body β) (id label : Str) : Option (Str × Body β) :=
  (folderKey m.nextFolderKey).map fun key =>
    (key, { m with
      nextFolderKey := m.nextFolderKey + 1
      folders := insertEntry key ⟨id, label⟩ m.folders })

/-- The closure of `register_folder`. -/
def register (m : Body β) (id label : Str) : Option (Except StorageError (Str × Body β)) :=
  if m.hasFolder id then some (.error (.invalidInput s!"folder '{id.toString}' already registered"))
  else (m.addFolder id label).map fun r => .ok (folderStorageKey r.1, r.2)

/-- One round of the loop of `ensure_folders`. -/
def ensureOne (m : Body β) (id label : Str) : Option (Bool × Body β) :=
  if m.hasFolder id then some (false, { m with folders := setLabel id label m.folders })
  else (m.addFolder id label).map fun r => (true, r.2)

/-- The closure of `ensure_folders`. -/
def ensure (m : Body β) : List (Str × Str) → Option (List Bool × Body β)
  | [] => some ([], m)
  | (id, label) :: folders =>
    (m.ensureOne id label).bind fun r => (ensure r.2 folders).map fun r' => (r.1 :: r'.1, r'.2)

/-- The closure of `remove_folder`. -/
def remove (m : Body β) (id : Str) : Body β :=
  match m.folders.find? fun row => row.2.id = id with
  | none => m
  | some row => { m with folders := m.folders.filter fun row' => row'.1 ≠ row.1 }

end Body

/-- `MetaState`: the registry is a projection of the folders. -/
structure MetaState (β : Type) where
  content : Meta (Body β)
  registry : Table Str (Str × Str)
  projected : registry =
    Table.insertAll ∅ (content.body.folders.map fun row => (row.2.id, (folderStorageKey row.1, row.2.label)))

def MetaState.fromMeta {β : Type} (m : Meta (Body β)) : MetaState β := ⟨m, _, rfl⟩

/-- `resolve_folder`: the directory and the label. -/
def MetaState.resolveFolder {β : Type} (s : MetaState β) (id : Str) : Except StorageError (Str × Str) :=
  match s.registry.lookup id with
  | some found => .ok found
  | none => .error (.notFound s!"folder '{id.toString}' not found in registry")

/-! ### Keys -/

section Keys

variable {n n' : ℕ} {key key' id label : Str} {entry : FolderEntry} {rows : List (Str × FolderEntry)}

lemma folderKey_inj (h : folderKey n = some key) (h' : folderKey n' = some key) : n = n' := by
  unfold folderKey at h h'
  rw [← Epoch.new_eq_toBase32] at h h'
  cases hn : Epoch.new n with
  | error => rw [hn] at h; cases h
  | ok e =>
    cases hn' : Epoch.new n' with
    | error => rw [hn'] at h'; cases h'
    | ok e' =>
      rw [hn] at h
      rw [hn'] at h'
      have hkey : e.asBase32 = e'.asBase32 := Option.some.inj (h.trans h'.symm)
      rw [← Epoch.new_eq_ok.1 hn, ← Epoch.new_eq_ok.1 hn', Epoch.asBase32_inj hkey]

lemma insertEntry_perm (h : key ∉ rows.map Prod.fst) : (insertEntry key entry rows).Perm ((key, entry) :: rows) := by
  induction rows with
  | nil => exact List.Perm.refl _
  | cons row rows ih =>
    rw [map_cons, mem_cons, not_or] at h
    rw [insertEntry, if_neg (Ne.symm h.1)]
    split_ifs
    · exact List.Perm.refl _
    · exact ((ih h.2).cons row).trans (List.Perm.swap _ _ _)

@[simp] lemma map_fst_setLabel : (setLabel id label rows).map Prod.fst = rows.map Prod.fst := by
  induction rows with
  | nil => rfl
  | cons row rows ih =>
    rw [setLabel]
    split_ifs
    · rfl
    · rw [map_cons, map_cons, ih]

@[simp] lemma map_id_setLabel :
    ((setLabel id label rows).map fun row => row.2.id) = rows.map fun row => row.2.id := by
  induction rows with
  | nil => rfl
  | cons row rows ih =>
    rw [setLabel]
    split_ifs
    · rfl
    · rw [map_cons, map_cons, ih]

end Keys

/-! ### What the closures do -/

section Closures

variable {β : Type} {m m' m'' : Body β} {id label key : Str}

/-- A well-formed registry: no id and no key twice, and every key from a number below the counter. -/
structure Body.Tidy (m : Body β) : Prop where
  ids : m.ids.Nodup
  keys : m.keys.Nodup
  below : ∀ key ∈ m.keys, ∃ n < m.nextFolderKey, folderKey n = some key

/-- The second registry is later: its keys are those of the first or are new. -/
structure Body.Grows (m m' : Body β) : Prop where
  next : m.nextFolderKey ≤ m'.nextFolderKey
  fresh : ∀ key ∈ m'.keys, key ∈ m.keys ∨
    ∃ n, m.nextFolderKey ≤ n ∧ n < m'.nextFolderKey ∧ folderKey n = some key

lemma Body.Grows.refl (m : Body β) : m.Grows m := ⟨le_rfl, fun _ h => .inl h⟩

lemma Body.Grows.trans (h : m.Grows m') (h' : m'.Grows m'') : m.Grows m'' := by
  refine ⟨h.next.trans h'.next, fun key hk => ?_⟩
  have hnext := h.next
  have hnext' := h'.next
  rcases h'.fresh key hk with hk | ⟨n, hn, hn', hkey⟩
  · rcases h.fresh key hk with hk | ⟨n, hn, hn', hkey⟩
    · exact .inl hk
    · exact .inr ⟨n, hn, by omega, hkey⟩
  · exact .inr ⟨n, by omega, hn', hkey⟩

lemma Body.hasFolder_iff : m.hasFolder id = true ↔ id ∈ m.ids := by
  simp [Body.hasFolder, Body.ids]

lemma Body.addFolder_eq_some (hm : m.Tidy) (h : m.addFolder id label = some (key, m')) :
    folderKey m.nextFolderKey = some key ∧ m'.nextFolderKey = m.nextFolderKey + 1 ∧
      m'.folders.Perm ((key, ⟨id, label⟩) :: m.folders) := by
  obtain ⟨k, hk, he⟩ := Option.map_eq_some_iff.1 h
  cases he
  refine ⟨hk, rfl, insertEntry_perm fun hmem => ?_⟩
  obtain ⟨n, hn, hkey⟩ := hm.below key hmem
  have := folderKey_inj hk hkey
  omega

lemma Body.Tidy.add (hm : m.Tidy) (hid : id ∉ m.ids) (h : m.addFolder id label = some (key, m')) :
    m'.Tidy ∧ m.Grows m' := by
  obtain ⟨hkey, hnext, hperm⟩ := Body.addFolder_eq_some hm h
  have hkeys : m'.keys.Perm (key :: m.keys) := hperm.map Prod.fst
  have hids : m'.ids.Perm (id :: m.ids) := hperm.map fun row : Str × FolderEntry => row.2.id
  have hnew : key ∉ m.keys := by
    intro hmem
    obtain ⟨n, hn, hkey'⟩ := hm.below key hmem
    have := folderKey_inj hkey hkey'
    omega
  refine ⟨⟨hids.nodup_iff.2 (nodup_cons.2 ⟨hid, hm.ids⟩),
    hkeys.nodup_iff.2 (nodup_cons.2 ⟨hnew, hm.keys⟩), fun k hk => ?_⟩, by omega, fun k hk => ?_⟩
  · rcases mem_cons.1 (hkeys.mem_iff.1 hk) with rfl | hk
    · exact ⟨m.nextFolderKey, by omega, hkey⟩
    · obtain ⟨n, hn, hkn⟩ := hm.below k hk
      exact ⟨n, by omega, hkn⟩
  · rcases mem_cons.1 (hkeys.mem_iff.1 hk) with rfl | hk
    · exact .inr ⟨m.nextFolderKey, le_rfl, by omega, hkey⟩
    · exact .inl hk

lemma Body.Tidy.of_eq (hm : m.Tidy) (hids : m'.ids = m.ids) (hkeys : m'.keys = m.keys)
    (hnext : m'.nextFolderKey = m.nextFolderKey) : m'.Tidy ∧ m.Grows m' := by
  refine ⟨⟨hids ▸ hm.ids, hkeys ▸ hm.keys, fun key hk => ?_⟩, hnext.ge, fun key hk => .inl (hkeys ▸ hk)⟩
  rw [hnext]
  exact hm.below key (hkeys ▸ hk)

lemma Body.register_eq_ok {sk : Str} (h : m.register id label = some (.ok (sk, m'))) :
    id ∉ m.ids ∧ ∃ key, m.addFolder id label = some (key, m') ∧ sk = folderStorageKey key := by
  unfold Body.register at h
  by_cases hid : m.hasFolder id
  · rw [if_pos hid] at h
    cases h
  · rw [if_neg hid] at h
    obtain ⟨r, hr, he⟩ := Option.map_eq_some_iff.1 h
    cases he
    exact ⟨fun hmem => hid (Body.hasFolder_iff.2 hmem), r.1, hr, rfl⟩

lemma Body.ensureOne_eq_some {made : Bool} (h : m.ensureOne id label = some (made, m')) :
    id ∈ m.ids ∧ m' = { m with folders := setLabel id label m.folders } ∨
      id ∉ m.ids ∧ ∃ key, m.addFolder id label = some (key, m') := by
  unfold Body.ensureOne at h
  by_cases hid : m.hasFolder id
  · rw [if_pos hid] at h
    cases h
    exact .inl ⟨Body.hasFolder_iff.1 hid, rfl⟩
  · rw [if_neg hid] at h
    obtain ⟨r, hr, he⟩ := Option.map_eq_some_iff.1 h
    cases he
    exact .inr ⟨fun hmem => hid (Body.hasFolder_iff.2 hmem), r.1, hr⟩

lemma Body.ids_setLabel : ({ m with folders := setLabel id label m.folders } : Body β).ids = m.ids :=
  map_id_setLabel

lemma Body.Tidy.ensureOne {made : Bool} (hm : m.Tidy) (h : m.ensureOne id label = some (made, m')) :
    m'.Tidy ∧ m.Grows m' := by
  rcases Body.ensureOne_eq_some h with ⟨-, rfl⟩ | ⟨hid, key, hadd⟩
  · exact hm.of_eq Body.ids_setLabel map_fst_setLabel rfl
  · exact hm.add hid hadd

variable {created : List Bool} {folders : List (Str × Str)}

lemma Body.ensure_cons {p : Str × Str} (h : m.ensure (p :: folders) = some (created, m'')) :
    ∃ made, ∃ m' : Body β, ∃ created', m.ensureOne p.1 p.2 = some (made, m') ∧
      m'.ensure folders = some (created', m'') ∧ created = made :: created' := by
  obtain ⟨id, label⟩ := p
  rw [Body.ensure] at h
  obtain ⟨r, hr, h⟩ := Option.bind_eq_some_iff.1 h
  obtain ⟨r', hr', he⟩ := Option.map_eq_some_iff.1 h
  cases he
  exact ⟨r.1, r.2, r'.1, hr, hr', rfl⟩

lemma Body.Tidy.ensure (hm : m.Tidy) (h : m.ensure folders = some (created, m')) : m'.Tidy ∧ m.Grows m' := by
  induction folders generalizing m created with
  | nil =>
    cases h
    exact ⟨hm, .refl _⟩
  | cons p folders ih =>
    obtain ⟨made, mid, created', hone, hrest, -⟩ := Body.ensure_cons h
    obtain ⟨hmid, hg⟩ := hm.ensureOne hone
    obtain ⟨hm', hg'⟩ := ih hmid hrest
    exact ⟨hm', hg.trans hg'⟩

lemma Body.Tidy.remove (hm : m.Tidy) (id : Str) : (m.remove id).Tidy ∧ m.Grows (m.remove id) := by
  unfold Body.remove
  split
  · exact ⟨hm, .refl m⟩
  · next row _ =>
    have hsub : (m.folders.filter fun row' => row'.1 ≠ row.1).Sublist m.folders := filter_sublist
    refine ⟨⟨hm.ids.sublist (hsub.map _), hm.keys.sublist (hsub.map _), fun key hk => ?_⟩, le_rfl, fun key hk => ?_⟩
    · exact hm.below key ((hsub.map Prod.fst).subset hk)
    · exact .inl ((hsub.map Prod.fst).subset hk)

/-! ### Ids that stay -/

lemma Body.ids_addFolder (hm : m.Tidy) (h : m.addFolder id label = some (key, m')) (id' : Str) :
    id' ∈ m'.ids ↔ id' = id ∨ id' ∈ m.ids := by
  have hperm : m'.ids.Perm (id :: m.ids) :=
    (Body.addFolder_eq_some hm h).2.2.map fun row : Str × FolderEntry => row.2.id
  exact hperm.mem_iff.trans mem_cons

lemma Body.ids_ensureOne {made : Bool} (hm : m.Tidy) (h : m.ensureOne id label = some (made, m')) (id' : Str) :
    id' ∈ m'.ids ↔ id' = id ∨ id' ∈ m.ids := by
  rcases Body.ensureOne_eq_some h with ⟨hid, rfl⟩ | ⟨-, key, hadd⟩
  · rw [Body.ids_setLabel]
    constructor
    · exact .inr
    · rintro (rfl | hmem)
      · exact hid
      · exact hmem
  · exact Body.ids_addFolder hm hadd id'

lemma Body.ids_ensure (hm : m.Tidy) (h : m.ensure folders = some (created, m')) (id : Str) :
    id ∈ m'.ids ↔ id ∈ folders.map Prod.fst ∨ id ∈ m.ids := by
  induction folders generalizing m created with
  | nil =>
    cases h
    simp
  | cons p folders ih =>
    obtain ⟨made, mid, created', hone, hrest, -⟩ := Body.ensure_cons h
    rw [ih (hm.ensureOne hone).1 hrest, Body.ids_ensureOne hm hone, map_cons, mem_cons]
    tauto

lemma Body.ids_remove (hm : m.Tidy) {id' : Str} (hne : id' ≠ id) (h' : id' ∈ m.ids) : id' ∈ (m.remove id).ids := by
  unfold Body.remove
  split
  · exact h'
  · next row hrow =>
    obtain ⟨row', hmem, rfl⟩ := mem_map.1 h'
    have hid : row.2.id = id := by simpa using find?_some hrow
    refine mem_map.2 ⟨row', mem_filter.2 ⟨hmem, ?_⟩, rfl⟩
    rw [decide_eq_true_iff]
    intro hkey
    have hsame := inj_on_of_nodup_map hm.keys hmem (mem_of_find?_eq_some hrow) hkey
    exact hne (by rw [hsame, hid])

/-- **An `ensure_folders` with nothing to create** returns only `false` and leaves ids, keys and counter. -/
lemma Body.ensure_of_forall (h : ∀ p ∈ folders, p.1 ∈ m.ids) :
    ∃ m', m.ensure folders = some (List.replicate folders.length false, m') ∧ m'.ids = m.ids ∧
      m'.keys = m.keys ∧ m'.nextFolderKey = m.nextFolderKey := by
  induction folders generalizing m with
  | nil => exact ⟨m, rfl, rfl, rfl, rfl⟩
  | cons p folders ih =>
    obtain ⟨id, label⟩ := p
    obtain ⟨m', hm', hi, hk, hn⟩ := ih (m := { m with folders := setLabel id label m.folders })
      (by rw [Body.ids_setLabel]; exact fun p hp => h p (mem_cons_of_mem _ hp))
    have hhas : m.hasFolder id = true := Body.hasFolder_iff.2 (h (id, label) mem_cons_self)
    refine ⟨m', ?_, hi.trans Body.ids_setLabel, hk.trans map_fst_setLabel, hn⟩
    rw [Body.ensure, Body.ensureOne, if_pos hhas, Option.bind_some, hm']
    rfl

end Closures

/-! ### The projection -/

section Projection

variable {β : Type} {s : MetaState β} {id label sk : Str}

/-- What `resolve_folder` answers for a registry without repeated ids. -/
theorem MetaState.resolveFolder_eq_ok (h : s.content.body.ids.Nodup) : s.resolveFolder id = .ok (sk, label) ↔
      ∃ key, (key, ⟨id, label⟩) ∈ s.content.body.folders ∧ sk = folderStorageKey key := by
  have hn : ((s.content.body.folders.map fun row =>
      (row.2.id, (folderStorageKey row.1, row.2.label))).map Prod.fst).Nodup := by
    rw [map_map]
    exact h
  unfold MetaState.resolveFolder
  rw [s.projected]
  constructor
  · intro hr
    by_cases hid : id ∈ s.content.body.ids
    · obtain ⟨⟨key, entry⟩, hrow, rfl⟩ := mem_map.1 hid
      rw [lookup_insertAll_of_mem hn (mem_map_of_mem hrow)] at hr
      cases hr
      exact ⟨key, hrow, rfl⟩
    · rw [lookup_insertAll_of_notMem] at hr
      · cases hr
      · rw [map_map]
        exact hid
  · rintro ⟨key, hrow, rfl⟩
    have hmem : (id, (folderStorageKey key, label)) ∈ s.content.body.folders.map fun row =>
        (row.2.id, (folderStorageKey row.1, row.2.label)) := mem_map.2 ⟨_, hrow, rfl⟩
    rw [lookup_insertAll_of_mem hn hmem]

lemma MetaState.resolveFolder_eq_error (h : id ∉ s.content.body.ids) :
    s.resolveFolder id = .error (.notFound s!"folder '{id.toString}' not found in registry") := by
  unfold MetaState.resolveFolder
  rw [s.projected, lookup_insertAll_of_notMem]
  · rfl
  · rw [map_map]
    exact h

end Projection

end Bepository.Folders
