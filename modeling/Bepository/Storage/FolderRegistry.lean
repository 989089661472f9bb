import Bepository.Lib.Result
import Bepository.Storage.Folders

/-!
# The folder registry (`bepository-storage/src/api.rs`)

`register_folder`, `ensure_folders`, `remove_folder` and the other callers of `modify_meta` run in different
tasks.  `modify_meta` holds `meta_lock` from the read of the cached metadata to the swap of the cache; in
between it waits for one PUT, which fails without an effect or takes effect before its reply arrives.  After
its `modify_meta` a call that has created folders opens their databases, which can fail.

Which request fails is left open.  A session can end at any time, with the calls it is in; the next one
activates the storage from the file.
-/

namespace Bepository.Folders

open Lib Metadata List Option Table

/-! ### Calls -/

/-- A call that modifies the metadata.  `other` stands for those that leave the folders alone. -/
inductive Op (β : Type) where
  | register (id label : Str)
  | ensure (folders : List (Str × Str))
  | remove (id : Str)
  | other (f : β → β)

inductive Value where
  | unit
  | key (sk : Str)
  | created (flags : List Bool)
  deriving DecidableEq

/-- A database to be opened: of a directory, or of a folder that is still to be resolved. -/
inductive Opening where
  | directory (sk : Str)
  | folder (id : Str)
  deriving DecidableEq

inductive Pc (β : Type) where
  /-- `remove_folder` closes the database and deletes its objects -/
  | clearing (id : Str)
  /-- at `meta_lock` -/
  | waiting (op : Op β)
  /-- the PUT is under way -/
  | writing (op : Op β) (value : Value) (new : Meta (Body β))
  /-- the PUT has taken effect, its reply is still to come -/
  | landed (op : Op β) (value : Value) (new : Meta (Body β))
  | opening (todo : List Opening) (value : Value)

/-- The closure that the call hands to `modify_meta`; `none` is a panic. -/
def Op.modify {β : Type} (m : Body β) : Op β → Option (Except StorageError (Value × Body β))
  | .register id label => (m.register id label).map fun r => r.map fun p => (.key p.1, p.2)
  | .ensure folders => (m.ensure folders).map fun r => .ok (.created r.1, r.2)
  | .remove id => some (.ok (.unit, m.remove id))
  | .other f => some (.ok (.unit, { m with rest := f m.rest }))

/-- The databases that the call opens after its `modify_meta`. -/
def Op.openings {β : Type} : Op β → Value → List Opening
  | .register _ _, .key sk => [.directory sk]
  | .ensure folders, .created flags => ((folders.zip flags).filter Prod.snd).map fun p => .folder p.1.1
  | _, _ => []

/-! ### The storage -/

/-- An activated storage.  `returned` are the results of the calls that are over; for the record, `writes` are
the calls whose PUT has taken effect and `allocated` the keys that have come into the file, also those of
folders that are gone. -/
structure Activated (β : Type) where
  state : MetaState β
  disk : Meta (Body β)
  metaLock : Option ℕ
  calls : Table ℕ (Pc β)
  returned : Table ℕ (Except StorageError Value)
  writes : List ℕ
  allocated : List Str

/-- A call begins, a call goes on, or a new session activates the storage.  `fault` is the error of what the
call waits for. -/
inductive Act (β : Type) where
  | call (t : ℕ) (op : Op β)
  | next (t : ℕ) (fault : Option StorageError)
  | activate

namespace Activated

variable {β : Type}

def init (blank : β) : Activated β where
  state := .fromMeta ⟨SUPPORTED_FORMAT_VERSION, ⟨0, [], blank⟩⟩
  disk := ⟨SUPPORTED_FORMAT_VERSION, ⟨0, [], blank⟩⟩
  metaLock := none
  calls := ∅
  returned := ∅
  writes := []
  allocated := []

def setPc (s : Activated β) (t : ℕ) (pc : Pc β) : Activated β := { s with calls := s.calls.insert t pc }

def finish (s : Activated β) (t : ℕ) (r : Except StorageError Value) : Activated β :=
  { s with calls := s.calls.erase t, returned := s.returned.insert t r }

def unlock (s : Activated β) : Activated β := { s with metaLock := none }

def start (s : Activated β) (t : ℕ) : Op β → Activated β
  | .ensure [] => s.finish t (.ok (.created []))
  | .remove id =>
    match s.state.resolveFolder id with
    | .error e => s.finish t (.error e)
    | .ok _ => s.setPc t (.clearing id)
  | op => s.setPc t (.waiting op)

def write (s : Activated β) (t : ℕ) (new : Meta (Body β)) : Activated β :=
  { s with
    disk := new.stamped
    writes := t :: s.writes
    allocated := (new.body.keys.filter fun key => key ∉ s.disk.body.keys) ++ s.allocated }

def openFolder (s : Activated β) (fault : Option StorageError) : Opening → Except StorageError Unit
  | .directory _ => fault.elim (.ok ()) .error
  | .folder id =>
    match s.state.resolveFolder id with
    | .error e => .error e
    | .ok _ => fault.elim (.ok ()) .error

def advance (s : Activated β) (t : ℕ) (fault : Option StorageError) : Pc β → Option (Activated β)
  | .clearing id =>
    match fault with
    | some e => some (s.finish t (.error e))
    | none => some (s.setPc t (.waiting (.remove id)))
  | .waiting op =>
    if s.metaLock.isSome then none
    else
      match op.modify s.state.content.body with
      -- a panic ends the task
      | none => some { s with calls := s.calls.erase t }
      | some (.error e) => some (s.finish t (.error e))
      | some (.ok (value, body)) =>
        some { s.setPc t (.writing op value { s.state.content with body := body }) with metaLock := some t }
  | .writing op value new =>
    match fault with
    | some e => some (s.finish t (.error e)).unlock
    | none => some ((s.setPc t (.landed op value new)).write t new)
  | .landed op value new =>
    some { (s.setPc t (.opening (op.openings value) value)).unlock with state := .fromMeta new }
  | .opening [] value => some (s.finish t (.ok value))
  | .opening (o :: todo) value =>
    match s.openFolder fault o with
    | .error e => some (s.finish t (.error e))
    | .ok () => some (s.setPc t (.opening todo value))

/-- `activate`, in the session that comes next: the file is read and written again. -/
def activate (s : Activated β) : Option (Activated β) :=
  if SUPPORTED_FORMAT_VERSION < s.disk.formatVersion then none
  else some { s.unlock with state := .fromMeta s.disk, disk := s.disk.stamped, calls := ∅ }

def step (s : Activated β) : Act β → Option (Activated β)
  -- a number stands for one call only
  | .call t op => if t ∈ s.calls ∨ t ∈ s.returned ∨ t ∈ s.writes then none else some (s.start t op)
  | .next t fault => (s.calls.lookup t).bind (s.advance t fault)
  | .activate => s.activate

end Activated

/-! ### One step -/

section Steps

variable {β : Type} {s s' : Activated β} {t : ℕ} {pc : Pc β} {a : Act β} {m m' : Body β} {value : Value}

/-- The call holds `meta_lock`. -/
def Pc.locks : Pc β → Bool
  | .writing .. => true
  | .landed .. => true
  | _ => false

def Pc.committed : Pc β → Bool
  | .landed .. => true
  | .opening .. => true
  | _ => false

/-- The steps, by what they do to the metadata, to the lock and to the calls. -/
inductive Activated.Moves (s : Activated β) : Act β → Activated β → Prop
  | begins {t op} pc (hr : t ∉ s.returned) (ht : t ∉ s.calls) (hw : t ∉ s.writes) (hl : pc.locks = false)
      (hc : pc.committed = false) : Moves s (.call t op) (s.setPc t pc)
  | refuses {t op} r (ht : t ∉ s.calls) (hw : t ∉ s.writes) : Moves s (.call t op) (s.finish t r)
  | moves {t fault} pc pc' (hpc : s.calls.lookup t = some pc) (hl : pc.locks = false)
      (hl' : pc'.locks = false) (hc : pc'.committed = pc.committed) : Moves s (.next t fault) (s.setPc t pc')
  | ends {t fault} pc r (hpc : s.calls.lookup t = some pc) (hl : pc.locks = false)
      (hr : ∀ e, r = .error e → pc.committed = false ∨
        ∃ o todo value, pc = .opening (o :: todo) value ∧ s.openFolder fault o = .error e) :
      Moves s (.next t fault) (s.finish t r)
  | panics {t fault} op (hpc : s.calls.lookup t = some (.waiting op)) :
      Moves s (.next t fault) { s with calls := s.calls.erase t }
  | locks {t fault op value} {body : Body β} (hpc : s.calls.lookup t = some (.waiting op))
      (hfree : s.metaLock = none) (hm : op.modify s.state.content.body = some (.ok (value, body))) :
      Moves s (.next t fault)
        { s.setPc t (.writing op value { s.state.content with body := body }) with metaLock := some t }
  | refused {t op value} {new : Meta (Body β)} e (hpc : s.calls.lookup t = some (.writing op value new)) :
      Moves s (.next t (some e)) (s.finish t (.error e)).unlock
  | lands {t op value} {new : Meta (Body β)} (hpc : s.calls.lookup t = some (.writing op value new)) :
      Moves s (.next t none) ((s.setPc t (.landed op value new)).write t new)
  | replies {t fault op value} {new : Meta (Body β)} (hpc : s.calls.lookup t = some (.landed op value new)) :
      Moves s (.next t fault)
        { (s.setPc t (.opening (op.openings value) value)).unlock with state := .fromMeta new }
  | activates :
      Moves s .activate { s.unlock with state := .fromMeta s.disk, disk := s.disk.stamped, calls := ∅ }

lemma Activated.start_moves (ht : t ∉ s.calls) (hr : t ∉ s.returned) (hw : t ∉ s.writes) (op : Op β) :
    s.Moves (.call t op) (s.start t op) := by
  unfold Activated.start
  split
  · exact .refuses _ ht hw
  · split
    · exact .refuses _ ht hw
    · exact .begins _ hr ht hw rfl rfl
  · exact .begins _ hr ht hw rfl rfl

lemma Activated.advance_moves {fault : Option StorageError} (hpc : s.calls.lookup t = some pc)
    (ha : s.advance t fault pc = some s') : s.Moves (.next t fault) s' := by
  unfold Activated.advance at ha
  split at ha
  · split at ha
    · cases ha
      exact .ends _ _ hpc rfl fun _ _ => .inl rfl
    · cases ha
      exact .moves _ _ hpc rfl rfl rfl
  · split_ifs at ha with hfree
    split at ha
    · cases ha
      exact .panics _ hpc
    · cases ha
      exact .ends _ _ hpc rfl fun _ _ => .inl rfl
    · next hm =>
      cases ha
      exact .locks hpc (by simpa using hfree) hm
  · split at ha
    · cases ha
      exact .refused _ hpc
    · cases ha
      exact .lands hpc
  · cases ha
    exact .replies hpc
  · cases ha
    exact .ends _ _ hpc rfl (by simp)
  · next o todo value =>
    split at ha
    · next ho =>
      cases ha
      refine .ends _ _ hpc rfl fun e he => ?_
      cases he
      exact .inr ⟨o, todo, value, rfl, ho⟩
    · cases ha
      exact .moves _ _ hpc rfl rfl rfl

/-- **One step** is one of the moves. -/
lemma Activated.step_moves (hs : s.step a = some s') : s.Moves a s' := by
  cases a with
  | call t op =>
    rw [Activated.step] at hs
    split_ifs at hs with hfree
    cases hs
    simp only [not_or] at hfree
    exact Activated.start_moves hfree.1 hfree.2.1 hfree.2.2 op
  | next =>
    obtain ⟨pc, hpc, ha⟩ := bind_eq_some_iff.1 hs
    exact Activated.advance_moves hpc ha
  | activate =>
    rw [Activated.step, Activated.activate] at hs
    split_ifs at hs
    cases hs
    exact .activates

/-! ### The invariant -/

/-- What a call that holds the lock is about to write, or has written. -/
def Pc.Ready (s : Activated β) : Pc β → Prop
  | .writing op value new => s.state.content.body = s.disk.body ∧
      op.modify s.state.content.body = some (.ok (value, new.body))
  | .landed op value new => s.disk = new.stamped ∧
      op.modify s.state.content.body = some (.ok (value, new.body))
  | _ => True

/-- What is known of a call when `lock` is the holder of `meta_lock`. -/
structure Activated.Fits (s : Activated β) (lock : Option ℕ) (t : ℕ) (pc : Pc β) : Prop where
  ready : pc.Ready s
  written : t ∈ s.writes ↔ pc.committed = true
  holder : pc.locks = true → lock = some t

structure Activated.Inv (s : Activated β) : Prop where
  disk : s.disk.body.Tidy
  cache : s.state.content.body.Tidy
  once : s.allocated.Nodup
  below : ∀ key ∈ s.allocated, ∃ n < s.disk.body.nextFolderKey, folderKey n = some key
  known : ∀ key ∈ s.disk.body.keys, key ∈ s.allocated
  ended : ∀ t ∈ s.returned, t ∉ s.calls
  calls : ∀ t pc, s.calls.lookup t = some pc → s.Fits s.metaLock t pc
  synced : (∀ t op value new, s.calls.lookup t ≠ some (.landed op value new)) →
    s.state.content.body = s.disk.body

lemma Op.modify_tidy {op : Op β} (hm : m.Tidy) (h : op.modify m = some (.ok (value, m'))) :
    m'.Tidy ∧ m.Grows m' := by
  cases op with
  | register =>
    obtain ⟨r, hr, he⟩ := map_eq_some_iff.1 h
    obtain ⟨⟨sk, body⟩, rfl, hp⟩ := map_eq_ok.1 he
    cases hp
    obtain ⟨hid, key, hadd, -⟩ := Body.register_eq_ok hr
    exact hm.add hid hadd
  | ensure =>
    obtain ⟨r, hr, he⟩ := map_eq_some_iff.1 h
    cases he
    exact hm.ensure hr
  | remove id =>
    cases h
    exact hm.remove id
  | other =>
    cases h
    exact hm.of_eq rfl rfl rfl

lemma Pc.ready_of_locks (hl : pc.locks = false) : pc.Ready s := by
  cases pc with
  | writing | landed => cases hl
  | _ => trivial

lemma Activated.fits_of_locks {lock : Option ℕ} (hl : pc.locks = false) (hw : t ∈ s.writes ↔ pc.committed = true) :
    s.Fits lock t pc := ⟨Pc.ready_of_locks hl, hw, by simp [hl]⟩

lemma Activated.Fits.congr {lock lock' : Option ℕ} (h : s.Fits lock t pc) (hl : pc.locks = false)
    (hw : t ∈ s'.writes ↔ t ∈ s.writes) : s'.Fits lock' t pc := Activated.fits_of_locks hl (hw.trans h.written)

lemma Activated.Fits.frame {lock : Option ℕ} (h : s.Fits lock t pc) (hstate : s'.state = s.state)
    (hdisk : s'.disk = s.disk) (hwrites : s'.writes = s.writes) : s'.Fits lock t pc := by
  refine ⟨?_, hwrites ▸ h.written, h.holder⟩
  have hready := h.ready
  unfold Pc.Ready at hready ⊢
  rw [hstate, hdisk]
  exact hready

lemma mem_calls (hpc : s.calls.lookup t = some pc) : t ∈ s.calls :=
  AList.lookup_isSome.1 (by rw [hpc]; rfl)

lemma ne_landed (hpc : s.calls.lookup t = some pc) (hl : pc.locks = false) (op : Op β) (value : Value)
    (new : Meta (Body β)) : s.calls.lookup t ≠ some (.landed op value new) := by
  intro hlook
  rw [hpc] at hlook
  cases hlook
  cases hl

lemma ne_landed_of_notMem (ht : t ∉ s.calls) (op : Op β) (value : Value) (new : Meta (Body β)) :
    s.calls.lookup t ≠ some (.landed op value new) := fun hlook => ht (mem_calls hlook)

namespace Activated.Inv

lemma others (h : s.Inv) (hpc : s.calls.lookup t = some pc) (hl : pc.locks = true) {u : ℕ} {pc' : Pc β}
    (hu : s.calls.lookup u = some pc') (hne : u ≠ t) : pc'.locks = false := by
  by_contra hp
  have htu := ((h.calls t pc hpc).holder hl).symm.trans ((h.calls u pc' hu).holder (by simpa using hp))
  exact hne (Option.some.inj htu).symm

lemma notMem_returned (h : s.Inv) (hpc : s.calls.lookup t = some pc) : t ∉ s.returned :=
  fun ht => h.ended t ht (mem_calls hpc)

lemma ended_insert (h : s.Inv) (ht : t ∉ s.returned) : ∀ u ∈ s.returned, u ∉ s.calls.insert t pc := by
  intro u hu hmem
  rcases (AList.mem_insert _).1 hmem with rfl | hmem
  · exact ht hu
  · exact h.ended u hu hmem

lemma setPc (h : s.Inv) (hl : ∀ op value new, s.calls.lookup t ≠ some (.landed op value new))
    (ht : t ∉ s.returned) (hf : s.Fits s.metaLock t pc) : (s.setPc t pc).Inv where
  disk := h.disk
  cache := h.cache
  once := h.once
  below := h.below
  known := h.known
  ended := h.ended_insert ht
  calls := fun u pc' hu => (forall_insert (P := s.Fits s.metaLock) h.calls hf u pc' hu).frame rfl rfl rfl
  synced := by
    intro hno
    refine h.synced fun u op value new hu => hno u op value new ?_
    have hne : u ≠ t := fun hut => hl op value new (hut ▸ hu)
    rw [Activated.setPc, lookup_insert', if_neg hne]
    exact hu

lemma drop {lock : Option ℕ} {returned : Table ℕ (Except StorageError Value)} (h : s.Inv)
    (hl : ∀ op value new, s.calls.lookup t ≠ some (.landed op value new))
    (hret : ∀ u ∈ returned, u = t ∨ u ∈ s.returned)
    (hlock : ∀ u pc, s.calls.lookup u = some pc → pc.locks = true → u ≠ t → lock = some u) :
    ({ s with calls := s.calls.erase t, returned := returned, metaLock := lock } : Activated β).Inv where
  disk := h.disk
  cache := h.cache
  once := h.once
  below := h.below
  known := h.known
  ended := by
    intro u hu hmem
    rw [AList.mem_erase] at hmem
    rcases hret u hu with rfl | hu
    · exact hmem.1 rfl
    · exact h.ended u hu hmem.2
  calls := by
    intro u pc hu
    rw [lookup_erase'] at hu
    split_ifs at hu with hut
    obtain ⟨hready, hwritten, -⟩ := h.calls u pc hu
    exact ⟨hready, hwritten, fun hp => hlock u pc hu hp hut⟩
  synced := by
    intro hno
    refine h.synced fun u op value new hu => hno u op value new ?_
    have hne : u ≠ t := fun hut => hl op value new (hut ▸ hu)
    rw [lookup_erase', if_neg hne]
    exact hu

lemma finish (h : s.Inv) (hl : ∀ op value new, s.calls.lookup t ≠ some (.landed op value new))
    (r : Except StorageError Value) : (s.finish t r).Inv :=
  h.drop hl (fun _ hu => (AList.mem_insert _).1 hu) fun u pc hu hp _ => (h.calls u pc hu).holder hp

variable {new : Meta (Body β)}

lemma lock {op : Op β} (h : s.Inv) (hfree : s.metaLock = none) (hpc : s.calls.lookup t = some (.waiting op))
    (hm : op.modify s.state.content.body = some (.ok (value, new.body))) :
    ({ s.setPc t (.writing op value new) with metaLock := some t } : Activated β).Inv := by
  -- nobody holds the lock, so that no PUT is without its reply
  have hnone : ∀ u pc, s.calls.lookup u = some pc → pc.locks = false := by
    intro u pc hu
    by_contra hp
    have hholder := (h.calls u pc hu).holder (by simpa using hp)
    rw [hfree] at hholder
    cases hholder
  have hsync : s.state.content.body = s.disk.body :=
    h.synced fun u op value new hu => absurd (hnone u _ hu) (by simp [Pc.locks])
  refine ⟨h.disk, h.cache, h.once, h.below, h.known, h.ended_insert (h.notMem_returned hpc), ?_, fun _ => hsync⟩
  have hfits : ∀ u pc, s.calls.lookup u = some pc → s.Fits (some t) u pc :=
    fun u pc hu => (h.calls u pc hu).congr (hnone u pc hu) Iff.rfl
  have hown : s.Fits (some t) t (.writing op value new) :=
    ⟨⟨hsync, hm⟩, (h.calls t _ hpc).written, fun _ => rfl⟩
  exact fun u pc hu => (forall_insert hfits hown u pc hu).frame rfl rfl rfl

/-- **The PUT takes effect.**  The keys that come in were never in the file. -/
lemma land {op : Op β} (h : s.Inv) (hpc : s.calls.lookup t = some (.writing op value new)) :
    ((s.setPc t (.landed op value new)).write t new).Inv := by
  obtain ⟨⟨hsync, hm⟩, -, hlock⟩ := h.calls t _ hpc
  obtain ⟨htidy, hgrows⟩ := Op.modify_tidy h.cache hm
  rw [hsync] at hgrows
  -- a key that comes in has a number that the file had not reached
  have hnew : ∀ key ∈ new.body.keys.filter (fun key => key ∉ s.disk.body.keys),
      ∃ n, s.disk.body.nextFolderKey ≤ n ∧ n < new.body.nextFolderKey ∧ folderKey n = some key := by
    intro key hk
    obtain ⟨hmem, hout⟩ := mem_filter.1 hk
    exact (hgrows.fresh key hmem).resolve_left (of_decide_eq_true hout)
  refine ⟨htidy, h.cache, ?_, ?_, ?_, h.ended_insert (h.notMem_returned hpc), ?_, ?_⟩
  · refine nodup_append.2 ⟨htidy.keys.filter _, h.once, fun key hk key' hk' hkk => ?_⟩
    obtain ⟨n, hn, -, hkey⟩ := hnew key hk
    obtain ⟨n', hn', hkey'⟩ := h.below key' hk'
    have := folderKey_inj (hkk ▸ hkey) hkey'
    omega
  · intro key hk
    rcases mem_append.1 hk with hk | hk
    · obtain ⟨n, -, hn, hkey⟩ := hnew key hk
      exact ⟨n, hn, hkey⟩
    · obtain ⟨n, hn, hkey⟩ := h.below key hk
      exact ⟨n, hn.trans_le hgrows.next, hkey⟩
  · intro key hk
    by_cases hold : key ∈ s.disk.body.keys
    · exact mem_append_right _ (h.known key hold)
    · exact mem_append_left _ (mem_filter.2 ⟨hk, decide_eq_true hold⟩)
  · intro u pc hu
    rw [Activated.write, Activated.setPc, lookup_insert'] at hu
    split_ifs at hu with hut
    · cases hu
      subst hut
      exact ⟨⟨rfl, hm⟩, iff_of_true mem_cons_self rfl, hlock⟩
    · exact (h.calls u pc hu).congr (h.others hpc rfl hu hut) (by simp [Activated.write, Activated.setPc, hut])
  · intro hno
    exact absurd (AList.lookup_insert _) (hno t op value new)

/-- **The reply arrives** and the cache is swapped. -/
lemma reply {op : Op β} {todo : List Opening} (h : s.Inv) (hpc : s.calls.lookup t = some (.landed op value new)) :
    ({ (s.setPc t (.opening todo value)).unlock with state := .fromMeta new } : Activated β).Inv := by
  obtain ⟨⟨hdisk, hm⟩, hw, -⟩ := h.calls t _ hpc
  have hbody : s.disk.body = new.body := by rw [hdisk]; rfl
  refine ⟨h.disk, (Op.modify_tidy h.cache hm).1, h.once, h.below, h.known,
    h.ended_insert (h.notMem_returned hpc), ?_, fun _ => hbody.symm⟩
  intro u pc hu
  rw [Activated.unlock, Activated.setPc, lookup_insert'] at hu
  split_ifs at hu with hut
  · cases hu
    subst hut
    exact ⟨trivial, hw, by simp [Pc.locks]⟩
  · exact (h.calls u pc hu).congr (h.others hpc rfl hu hut) Iff.rfl

/-- **One step** keeps the invariant. -/
lemma step (h : s.Inv) (hs : s.step a = some s') : s'.Inv := by
  cases Activated.step_moves hs with
  | begins pc hr ht hw hl hc =>
    exact h.setPc (ne_landed_of_notMem ht) hr (Activated.fits_of_locks hl (iff_of_false hw (by simp [hc])))
  | refuses r ht => exact h.finish (ne_landed_of_notMem ht) r
  | moves pc pc' hpc hl hl' hc =>
    refine h.setPc (ne_landed hpc hl) (h.notMem_returned hpc) (Activated.fits_of_locks hl' ?_)
    rw [hc]
    exact (h.calls _ pc hpc).written
  | ends pc r hpc hl => exact h.finish (ne_landed hpc hl) r
  | panics op hpc =>
    exact h.drop (ne_landed hpc rfl) (fun _ hu => .inr hu) fun u pc hu hp _ => (h.calls u pc hu).holder hp
  | locks hpc hfree hm => exact h.lock hfree hpc hm
  | refused e hpc =>
    refine h.drop ?_ (fun _ hu => (AList.mem_insert _).1 hu) fun u pc hu hp hut => ?_
    · intro op value new hlook
      rw [hpc] at hlook
      cases hlook
    · rw [h.others hpc rfl hu hut] at hp
      cases hp
  | lands hpc => exact h.land hpc
  | replies hpc => exact h.reply hpc
  | activates =>
    refine ⟨h.disk, h.disk, h.once, h.below, h.known, fun u _ => AList.notMem_empty u, ?_, fun _ => rfl⟩
    intro u pc hu
    rw [AList.lookup_empty] at hu
    cases hu

end Activated.Inv

lemma Activated.inv_init (blank : β) : (Activated.init blank).Inv where
  disk := ⟨nodup_nil, nodup_nil, fun _ hk => absurd hk not_mem_nil⟩
  cache := ⟨nodup_nil, nodup_nil, fun _ hk => absurd hk not_mem_nil⟩
  once := nodup_nil
  below := fun _ hk => absurd hk not_mem_nil
  known := fun _ hk => absurd hk not_mem_nil
  ended := fun t _ => AList.notMem_empty t
  calls := by
    intro u pc hu
    cases hu
  synced := fun _ => rfl

/-! ### Whose steps change the metadata -/

/-- The step is one of the call `t`. -/
def Act.by (t : ℕ) : Act β → Bool
  | .call u _ => u = t
  | .next u _ => u = t
  | .activate => false

lemma Activated.Inv.unchanged (h : s.Inv) (hs : s.step a = some s') (ha : a.by t = true) (ht : t ∉ s'.writes) :
    s'.disk = s.disk ∧ s'.state = s.state := by
  cases Activated.step_moves hs with
  | lands =>
    cases of_decide_eq_true ha
    exact absurd mem_cons_self ht
  | replies hpc =>
    cases of_decide_eq_true ha
    exact absurd ((h.calls t _ hpc).written.2 rfl) ht
  | activates => cases ha
  | _ => exact ⟨rfl, rfl⟩

lemma Activated.writes_mono (hs : s.step a = some s') (ht : t ∈ s.writes) : t ∈ s'.writes := by
  cases Activated.step_moves hs with
  | lands => exact mem_cons_of_mem _ ht
  | _ => exact ht

lemma Activated.lookup_finish {r : Except StorageError Value} {u : ℕ} {e : StorageError}
    (h : (s.finish t r).returned.lookup u = some (.error e)) :
    u = t ∧ r = .error e ∨ s.returned.lookup u = some (.error e) := by
  rw [Activated.finish, lookup_insert'] at h
  split_ifs at h with hut
  · exact .inl ⟨hut, Option.some.inj h⟩
  · exact .inr h

lemma Activated.Inv.failed {e : StorageError} (h : s.Inv) (hs : s.step a = some s')
    (hr : s'.returned.lookup t = some (.error e)) :
    s.returned.lookup t = some (.error e) ∧ (t ∉ s.writes → t ∉ s'.writes) ∨ t ∉ s'.writes ∨
      ∃ fault o todo value, a = .next t fault ∧ s.calls.lookup t = some (.opening (o :: todo) value) ∧
        s.openFolder fault o = .error e := by
  cases Activated.step_moves hs with
  | refuses r ht hw =>
    rcases Activated.lookup_finish hr with ⟨rfl, -⟩ | hr
    · exact .inr (.inl hw)
    · exact .inl ⟨hr, id⟩
  | ends pc r hpc hl hfail =>
    rcases Activated.lookup_finish hr with ⟨rfl, he⟩ | hr
    · rcases hfail e he with hc | ⟨o, todo, value, rfl, ho⟩
      · exact .inr (.inl fun hw => by simp [(h.calls t pc hpc).written.1 hw] at hc)
      · exact .inr (.inr ⟨_, o, todo, value, rfl, hpc, ho⟩)
    · exact .inl ⟨hr, id⟩
  | refused e' hpc =>
    rcases Activated.lookup_finish hr with ⟨rfl, -⟩ | hr
    · exact .inr (.inl fun hw => Bool.false_ne_true ((h.calls t _ hpc).written.1 hw))
    · exact .inl ⟨hr, id⟩
  | lands hpc =>
    refine .inl ⟨hr, fun hw hmem => ?_⟩
    rcases mem_cons.1 hmem with rfl | hmem
    · exact h.notMem_returned hpc (AList.lookup_isSome.1 (by rw [show s.returned.lookup t = _ from hr]; rfl))
    · exact hw hmem
  | _ => exact .inl ⟨hr, id⟩

end Steps

/-! ### Whole runs -/

section Runs

variable {β : Type} {blank : β} {as : List (Act β)} {s s' : Activated β} {t : ℕ}

lemma Activated.inv_run (h : s.Inv) (hr : run Activated.step s as = some s') : s'.Inv :=
  run_keeps (fun _ _ _ h hs => h.step hs) h hr

def Untouched (blank : β) (as : List (Act β)) (t : ℕ) : Prop :=
  ∀ as₁ a as₂ s₁ s₂, as = as₁ ++ a :: as₂ → run Activated.step (.init blank) as₁ = some s₁ →
    s₁.step a = some s₂ → a.by t = true → s₂.disk = s₁.disk ∧ s₂.state = s₁.state

/-- After its `modify_meta` the call could not open the database of a folder that it has created. -/
def FailedToOpen (blank : β) (as : List (Act β)) (t : ℕ) (e : StorageError) : Prop :=
  ∃ as₁ fault as₂ s₁ o todo value, as = as₁ ++ .next t fault :: as₂ ∧
    run Activated.step (.init blank) as₁ = some s₁ ∧ s₁.calls.lookup t = some (.opening (o :: todo) value) ∧
    s₁.openFolder fault o = .error e

lemma untouched_of_notMem_writes (hr : run Activated.step (.init blank) as = some s) (ht : t ∉ s.writes) :
    Untouched blank as t := by
  intro as₁ a as₂ s₁ s₂ has hr₁ hs ha
  have hi₁ := Activated.inv_run (Activated.inv_init blank) hr₁
  rw [has, run_append, hr₁, bind_some] at hr
  obtain ⟨s₂', hs', hr₂⟩ := run_cons_eq_some.1 hr
  rw [hs] at hs'
  cases hs'
  refine hi₁.unchanged hs ha fun hmem => ht ?_
  have hall : s.Inv ∧ t ∈ s.writes := run_keeps (P := fun s => s.Inv ∧ t ∈ s.writes)
      (fun _ _ _ h hs => ⟨h.1.step hs, Activated.writes_mono hs h.2⟩) ⟨hi₁.step hs, hmem⟩ hr₂
  exact hall.2

lemma failed_cases {e : StorageError} (hr : run Activated.step (.init blank) as = some s)
    (ht : s.returned.lookup t = some (.error e)) : t ∉ s.writes ∨ FailedToOpen blank as t e := by
  induction as using List.reverseRecOn generalizing s with
  | nil =>
    cases hr
    cases ht
  | append_singleton as a ih =>
    obtain ⟨s₁, hr₁, hs⟩ := run_concat_eq_some.1 hr
    rcases (Activated.inv_run (Activated.inv_init blank) hr₁).failed hs ht with ⟨hold, hw⟩ | hw | hopen
    · rcases ih hr₁ hold with hnot | ⟨as₁, fault, as₂, s₀, o, todo, value, rfl, h⟩
      · exact .inl (hw hnot)
      · exact .inr ⟨as₁, fault, as₂ ++ [a], s₀, o, todo, value, by simp, h⟩
    · exact .inl hw
    · obtain ⟨fault, o, todo, value, rfl, hpc, ho⟩ := hopen
      exact .inr ⟨as, fault, [], s₁, o, todo, value, rfl, hr₁, hpc, ho⟩

/-! ### An `ensure_folders` that is repeated -/

def Pc.removes : Pc β → Option Str
  | .clearing id => some id
  | .waiting (.remove id) => some id
  | .writing (.remove id) _ _ => some id
  | .landed (.remove id) _ _ => some id
  | _ => none

def Spares (folders : List (Str × Str)) (s : Activated β) (_ : Act β) : Prop :=
  ∀ t pc id, s.calls.lookup t = some pc → pc.removes = some id → id ∉ folders.map Prod.fst

def Holds (folders : List (Str × Str)) (s : Activated β) : Prop :=
  ∀ p ∈ folders, p.1 ∈ s.state.content.body.ids ∧ p.1 ∈ s.disk.body.ids

lemma Op.modify_ids {op : Op β} {m m' : Body β} {value : Value} {id : Str} (hm : m.Tidy)
    (h : op.modify m = some (.ok (value, m'))) (hne : op ≠ .remove id) (hid : id ∈ m.ids) : id ∈ m'.ids := by
  cases op with
  | register =>
    obtain ⟨r, hr, he⟩ := map_eq_some_iff.1 h
    obtain ⟨⟨sk, body⟩, rfl, hp⟩ := map_eq_ok.1 he
    cases hp
    obtain ⟨-, key, hadd, -⟩ := Body.register_eq_ok hr
    exact (Body.ids_addFolder hm hadd id).2 (.inr hid)
  | ensure =>
    obtain ⟨r, hr, he⟩ := map_eq_some_iff.1 h
    cases he
    exact (Body.ids_ensure hm hr id).2 (.inr hid)
  | remove =>
    cases h
    exact Body.ids_remove hm (fun hid' => hne (by rw [hid'])) hid
  | other =>
    cases h
    exact hid

variable {folders : List (Str × Str)}

lemma Holds.step {a : Act β} (h : Holds folders s) (hi : s.Inv) (hsp : Spares folders s a)
    (hs : s.step a = some s') : Holds folders s' := by
  cases Activated.step_moves hs with
  | lands hpc =>
    obtain ⟨⟨-, hm⟩, -, -⟩ := hi.calls _ _ hpc
    refine fun p hp => ⟨(h p hp).1, Op.modify_ids hi.cache hm ?_ (h p hp).1⟩
    rintro rfl
    exact hsp _ _ p.1 hpc rfl (List.mem_map_of_mem hp)
  | @replies t fault op value new hpc =>
    obtain ⟨⟨hdisk, -⟩, -, -⟩ := hi.calls t _ hpc
    have hbody : s.disk.body = new.body := by rw [hdisk]; rfl
    exact fun p hp => ⟨hbody ▸ (h p hp).2, (h p hp).2⟩
  | activates => exact fun p hp => ⟨(h p hp).2, (h p hp).2⟩
  | _ => exact h

lemma Activated.Inv.holds_of_reply {fault : Option StorageError} {value : Value} {new : Meta (Body β)}
    (hi : s.Inv) (hpc : s.calls.lookup t = some (.landed (.ensure folders) value new))
    (hs : s.step (.next t fault) = some s') : Holds folders s' := by
  obtain ⟨⟨hdisk, hm⟩, -, -⟩ := hi.calls t _ hpc
  obtain ⟨⟨flags, body⟩, hr, he⟩ := map_eq_some_iff.1 hm
  cases he
  rw [Activated.step, hpc, bind_some, Activated.advance] at hs
  cases hs
  have hbody : s.disk.body = new.body := by rw [hdisk]; rfl
  intro p hp
  have hid : p.1 ∈ new.body.ids := (Body.ids_ensure hi.cache hr p.1).2 (.inl (List.mem_map_of_mem hp))
  exact ⟨hid, hbody ▸ hid⟩

lemma Holds.ensure_again (h : Holds folders s) (hi : s.Inv) (hm : Meets Activated.step (Spares folders) s as)
    (hr : run Activated.step s as = some s') :
    ∃ body, (Op.ensure folders).modify s'.state.content.body =
        some (.ok (.created (List.replicate folders.length false), body)) ∧
      body.ids = s'.state.content.body.ids ∧ body.keys = s'.state.content.body.keys ∧
      body.nextFolderKey = s'.state.content.body.nextFolderKey := by
  have hall : s'.Inv ∧ Holds folders s' :=
    run_inv (P := fun s => s.Inv ∧ Holds folders s) (G := Spares folders)
      (fun _ _ _ h hsp hs => ⟨h.1.step hs, h.2.step h.1 hsp hs⟩) ⟨hi, h⟩ hm hr
  obtain ⟨body, hbody, hids, hkeys, hnext⟩ := Body.ensure_of_forall fun p hp => (hall.2 p hp).1
  refine ⟨body, ?_, hids, hkeys, hnext⟩
  rw [Op.modify, hbody]
  rfl

end Runs

/-- The registry as it is meant to be: the cache is the file while no PUT is without its reply, an id and a key
stand for one folder, a key that was in the file once is below the counter and comes in only once, and
`resolve_folder` answers what the cache says. -/
structure Registered {β : Type} (s : Activated β) : Prop where
  synced : (∀ t op value new, s.calls.lookup t ≠ some (.landed op value new)) →
    s.state.content.body = s.disk.body
  ids : s.state.content.body.ids.Nodup ∧ s.disk.body.ids.Nodup
  known : ∀ key ∈ s.disk.body.keys, key ∈ s.allocated
  below : ∀ key ∈ s.allocated, ∃ n < s.disk.body.nextFolderKey, folderKey n = some key
  once : s.allocated.Nodup
  resolved : ∀ id sk label, s.state.resolveFolder id = .ok (sk, label) ↔
    ∃ key, (key, ⟨id, label⟩) ∈ s.state.content.body.folders ∧ sk = folderStorageKey key
  missing : ∀ id, id ∉ s.state.content.body.ids →
    s.state.resolveFolder id = .error (.notFound s!"folder '{id.toString}' not found in registry")

/-- **The folder registry**, after every step of any interleaving.  A call that fails has changed nothing,
unless it has failed to open a folder that it has created; an `ensure_folders` that is repeated creates nothing
while its folders are not removed. -/
theorem folderRegistry_registered {β : Type} (blank : β) (as : List (Act β)) (s : Activated β)
    (hr : run Activated.step (.init blank) as = some s) :
    Registered s ∧
    (∀ t e, s.returned.lookup t = some (.error e) → Untouched blank as t ∨ FailedToOpen blank as t e) ∧
    ∀ t folders fault value new s₁, s.calls.lookup t = some (.landed (.ensure folders) value new) →
      s.step (.next t fault) = some s₁ → ∀ bs s₂, Meets Activated.step (Spares folders) s₁ bs →
      run Activated.step s₁ bs = some s₂ →
      ∃ body, (Op.ensure folders).modify s₂.state.content.body =
          some (.ok (.created (List.replicate folders.length false), body)) ∧
        body.ids = s₂.state.content.body.ids ∧ body.keys = s₂.state.content.body.keys ∧
        body.nextFolderKey = s₂.state.content.body.nextFolderKey := by
  have hi := Activated.inv_run (Activated.inv_init blank) hr
  refine ⟨⟨hi.synced, ⟨hi.cache.ids, hi.disk.ids⟩, hi.known, hi.below, hi.once,
    fun _ _ _ => MetaState.resolveFolder_eq_ok hi.cache.ids, fun _ => MetaState.resolveFolder_eq_error⟩, ?_, ?_⟩
  · intro t e ht
    exact (failed_cases hr ht).imp_left (untouched_of_notMem_writes hr)
  · intro t folders fault value new s₁ hpc hs bs s₂ hm hr₂
    exact (hi.holds_of_reply hpc hs).ensure_again (hi.step hs) hm hr₂

/-! ### Some runs -/

/-- Four steps of a call: the lock, the PUT, its reply, and the first step after it. -/
def fourSteps (t : ℕ) (last : Option StorageError) : List (Act Unit) :=
  [.next t none, .next t none, .next t none, .next t last]

def unavailable : StorageError := .transientIo "open slatedb: unavailable"

/-- Two folders are created, the first of them is named twice; it is removed, a PUT of its registration fails
and the next one succeeds. -/
def sampleRun : List (Act Unit) :=
  .call 0 (.ensure [(['a'], ['x']), (['a'], ['y']), (['b'], ['z'])]) :: fourSteps 0 none ++
    [.next 0 none, .next 0 none, .call 1 (.remove ['a']), .next 1 none] ++ fourSteps 1 none ++
    [.call 2 (.register ['a'] ['x']), .next 2 none, .next 2 (some (.transientIo "write meta: timeout"))] ++
    .call 3 (.register ['a'] ['x']) :: fourSteps 3 none

/-- The key of the folder that was removed is not used again, and the call that failed has left no trace. -/
theorem folderRegistry_registered_sample :
    ∃ s, run Activated.step (.init ()) sampleRun = some s ∧
      s.allocated.map some = [folderKey 2, folderKey 0, folderKey 1] ∧
      s.disk.body.folders.map (fun row => (some row.1, row.2.id, row.2.label)) =
        [(folderKey 1, ['b'], ['z']), (folderKey 2, ['a'], ['x'])] ∧
      s.returned.lookup 2 = some (.error (.transientIo "write meta: timeout")) ∧ Registered s ∧
      Untouched () sampleRun 2 := by
  obtain ⟨s, hr, halloc, hfolders, hw, hret⟩ : ∃ s, run Activated.step (.init ()) sampleRun = some s ∧
      s.allocated.map some = [folderKey 2, folderKey 0, folderKey 1] ∧
      s.disk.body.folders.map (fun row => (some row.1, row.2.id, row.2.label)) =
        [(folderKey 1, ['b'], ['z']), (folderKey 2, ['a'], ['x'])] ∧ 2 ∉ s.writes ∧
      s.returned.lookup 2 = some (.error (.transientIo "write meta: timeout")) := by decide
  have hreg := (folderRegistry_registered () sampleRun s hr).1
  exact ⟨s, hr, halloc, hfolders, hret, hreg, untouched_of_notMem_writes hr hw⟩

/-- `register_folder` cannot open the database of the new folder: it fails, and the folder is registered.
Before the reply to its PUT has come, the cache is not what the file is. -/
theorem folderRegistry_failed_registered :
    (∃ s, run Activated.step (.init ()) (.call 0 (.register ['a'] ['x']) :: fourSteps 0 (some unavailable)) = some s ∧
      s.returned.lookup 0 = some (.error unavailable) ∧ s.disk ≠ (Activated.init ()).disk ∧
      s.state ≠ (Activated.init ()).state) ∧
    ∃ s, run Activated.step (.init ()) [.call 0 (.register ['a'] ['x']), .next 0 none, .next 0 none] = some s ∧
      s.state.content.body ≠ s.disk.body := by
  constructor
  · obtain ⟨s, hr, hret, hdisk, hstate⟩ : ∃ s, run Activated.step (.init ())
        (.call 0 (.register ['a'] ['x']) :: fourSteps 0 (some unavailable)) = some s ∧
        s.returned.lookup 0 = some (.error unavailable) ∧ s.disk ≠ (Activated.init ()).disk ∧
        s.state.content ≠ (Activated.init ()).state.content := by decide
    exact ⟨s, hr, hret, hdisk, fun he => hstate (by rw [he])⟩
  · decide

end Bepository.Folders
