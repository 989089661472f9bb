import Bepository.Lib.Run
import Bepository.Lib.Table
import Bepository.Storage.Parsers

/-!
# Metadata files (`bepository-storage/src/api.rs`, `meta.rs`)

The metadata of a store lies in one file `bepository-<epoch>.toml`.  A session that starts reads the file
with the greatest name, writes it back under its own epoch and deletes the others; `modify_meta` overwrites
the session's own file.  Every request to the object store can fail, and a failed PUT or DELETE may have
taken effect.

`Pc` is what a session or a lock-free reader is about to ask the store for.  The module ends with the
sessions one after another: what a read between them returns is never older than the last successful
`modify_meta`.
-/

namespace Bepository.Metadata

open Lib Lock Storage List Option Table

/-! ### The files -/

/-- `Meta`: the format version, and the fields that nothing here looks at. -/
structure Meta (β : Type) where
  formatVersion : ℕ
  body : β
  deriving DecidableEq

/-- The TOML form, as `toml` and `serde` make it.  What is written can be read back. -/
structure Toml (β τ : Type) where
  blank : β
  encode : Meta β → Option τ
  decode : τ → Option (Meta β)
  decode_encode : ∀ m t, encode m = some t → decode t = some m

def SUPPORTED_FORMAT_VERSION : ℕ := 1

/-- `Meta::default()`. -/
def Toml.default {β τ : Type} (toml : Toml β τ) : Meta β := ⟨SUPPORTED_FORMAT_VERSION, toml.blank⟩

def META_PREFIX : Str := ['b', 'e', 'p', 'o', 's', 'i', 't', 'o', 'r', 'y', '-']
def META_SUFFIX : Str := ['.', 't', 'o', 'm', 'l']

def isMetaName (name : Str) : Bool := META_PREFIX.isPrefixOf name && META_SUFFIX.isSuffixOf name

def metaPath (epoch : Epoch) : Str := META_PREFIX ++ epoch.asBase32 ++ META_SUFFIX

/-- One round of the loop of `read_meta_unlocked`: the greater of two names. -/
def laterName (last : Option Str) (name : Str) : Option Str :=
  match last with
  | some prev => if strKey name < strKey prev then some prev else some name
  | none => some name

/-- The metadata file that `read_meta_unlocked` takes from a listing. -/
def lastMetaName (listing : List Str) : Option Str := (listing.filter isMetaName).foldl laterName none

/-! ### Requests -/

/-- How a request ends: as it should, with an error and no effect, or with an error after its effect. -/
inductive Outcome where
  | ok
  | lost
  | late
  deriving DecidableEq

inductive MetaError where
  | transientIo
  | corruption
  | unsupportedVersion (found : ℕ)
  | internal
  deriving DecidableEq

/-- What a process is about to do.  `who` is the epoch of a session that activates, or `none` for a lock-free
reader. -/
inductive Pc (β : Type) where
  | list (who : Option Epoch)
  | get (who : Option Epoch) (path : Str)
  /-- the PUT of `activate` -/
  | put (epoch : Epoch) (m : Meta β)
  | cleanList (epoch : Epoch) (m : Meta β)
  | cleanDelete (epoch : Epoch) (m : Meta β) (path : Str) (todo : List Str)
  /-- activated, with its cached metadata -/
  | ready (epoch : Epoch) (cache : Meta β)
  /-- the PUT of `modify_meta` -/
  | modify (epoch : Epoch) (cache new : Meta β)
  /-- the result of a lock-free read -/
  | returned (result : Except MetaError (Meta β))
  /-- `activate` has failed -/
  | failed (e : MetaError)

/-- What is on record about the calls: a `modify_meta` that began, one that succeeded, and a PUT that took
effect. -/
inductive Event (β : Type) where
  | began (m : Meta β)
  | modified (m : Meta β)
  | wrote (m : Meta β)

section Requests

variable {β τ : Type} (toml : Toml β τ)

/-- How a process goes on after `read_meta_unlocked`: a session refuses a newer format. -/
def afterRead : Option Epoch → Except MetaError (Meta β) → Pc β
  | none, r => .returned r
  | some _, .error e => .failed e
  | some epoch, .ok m =>
    if SUPPORTED_FORMAT_VERSION < m.formatVersion then .failed (.unsupportedVersion m.formatVersion)
    else .put epoch m

/-- The loop of `clean_meta` over the files that are left. -/
def cleanNext (epoch : Epoch) (m : Meta β) : List Str → Pc β
  | [] => .ready epoch m
  | path :: todo => .cleanDelete epoch m path todo

/-- What `write_meta_to_disk` writes. -/
def Meta.stamped (m : Meta β) : Meta β := { m with formatVersion := SUPPORTED_FORMAT_VERSION }

/-- One request of a process: the files after it, the next request, and the events.  A LIST returns the names
in some order (`listing`). -/
def request (files : Table Str τ) (listing : List Str) (o : Outcome) :
    Pc β → Option (Table Str τ × Pc β × List (Event β))
  | .list who =>
    if o ≠ .ok then some (files, afterRead who (.error .transientIo), [])
    else if ¬ listing.Perm files.keys then none
    else
      match lastMetaName listing with
      | some path => some (files, .get who path, [])
      | none => some (files, afterRead who (.ok toml.default), [])
  | .get who path =>
    if o ≠ .ok then some (files, afterRead who (.error .transientIo), [])
    else
      match files.lookup path with
      -- the file is gone: `Meta::default()`
      | none => some (files, afterRead who (.ok toml.default), [])
      | some text =>
        match toml.decode text with
        | none => some (files, afterRead who (.error .corruption), [])
        | some m => some (files, afterRead who (.ok m), [])
  | .put epoch m =>
    match toml.encode m.stamped with
    | none => some (files, .failed .internal, [])
    | some text =>
      let written := files.insert (metaPath epoch) text
      match o with
      | .ok => some (written, .cleanList epoch m, [.wrote m.stamped])
      | .lost => some (files, .failed .transientIo, [])
      | .late => some (written, .failed .transientIo, [.wrote m.stamped])
  | .cleanList epoch m =>
    if o ≠ .ok then some (files, .failed .transientIo, [])
    else if ¬ listing.Perm files.keys then none
    else some (files, cleanNext epoch m (listing.filter fun n => n ≠ metaPath epoch && isMetaName n), [])
  | .cleanDelete epoch m path todo =>
    match o with
    | .ok => some (files.erase path, cleanNext epoch m todo, [])
    | .lost => some (files, .failed .transientIo, [])
    | .late => some (files.erase path, .failed .transientIo, [])
  | .modify epoch cache new =>
    match toml.encode new.stamped with
    | none => some (files, .ready epoch cache, [])
    | some text =>
      let written := files.insert (metaPath epoch) text
      match o with
      | .ok => some (written, .ready epoch new, [.modified new, .wrote new.stamped])
      | .lost => some (files, .ready epoch cache, [])
      | .late => some (written, .ready epoch cache, [.wrote new.stamped])
  | _ => none

/-- `read_meta_unlocked`, run alone. -/
def readMeta (files : Table Str τ) : Except MetaError (Meta β) :=
  match lastMetaName files.keys with
  | none => .ok toml.default
  | some path =>
    match files.lookup path with
    | none => .ok toml.default
    | some text =>
      match toml.decode text with
      | none => .error .corruption
      | some m => .ok m

end Requests

/-! ### Sessions one after another -/

/-- The store, the session that is running (if any), and the record of the calls, the latest first. -/
structure Store (β τ : Type) where
  files : Table Str τ
  session : Option (Pc β)
  log : List (Event β)

inductive Act (β : Type) where
  /-- a session activates with an epoch -/
  | activate (epoch : Epoch)
  | request (listing : List Str) (o : Outcome)
  /-- `modify_meta` with a closure that turns the cached metadata into `new` -/
  | modify (new : Meta β)
  /-- the session ends or crashes -/
  | stop

section Sessions

variable {β τ : Type} (toml : Toml β τ)

def Store.step (s : Store β τ) : Act β → Option (Store β τ)
  | .activate epoch =>
    match s.session with
    | none => some { s with session := some (.list (some epoch)) }
    | some _ => none
  | .request listing o =>
    s.session.bind fun pc =>
      (request toml s.files listing o pc).map fun r =>
        { files := r.1, session := some r.2.1, log := r.2.2 ++ s.log }
  | .modify new =>
    match s.session with
    | some (.ready epoch cache) =>
      some { s with session := some (.modify epoch cache new), log := .began new :: s.log }
    | _ => none
  | .stop => some { s with session := none }

/-- What a read may return: the metadata of the last successful `modify_meta`, or of a later one that failed
or was interrupted; the default if there was none. -/
def allowed : List (Event β) → List (Meta β)
  | [] => [toml.default]
  | .modified m :: _ => [m]
  | .began m :: log => m :: allowed log
  | .wrote _ :: log => allowed log

end Sessions

/-! ### The file that is read -/

section Names

lemma isMetaName_metaPath (epoch : Epoch) : isMetaName (metaPath epoch) = true := by
  unfold isMetaName metaPath
  rw [Bool.and_eq_true, isPrefixOf_iff_prefix, isSuffixOf_iff_suffix, append_assoc]
  exact ⟨prefix_append _ _, suffix_append_of_suffix (suffix_append _ _)⟩

lemma foldl_laterName (l : List Str) (acc : Option Str) : (l.foldl laterName acc = none → acc = none ∧ l = []) ∧
      ∀ n, l.foldl laterName acc = some n →
        (acc = some n ∨ n ∈ l) ∧ ∀ n', acc = some n' ∨ n' ∈ l → strKey n' ≤ strKey n := by
  induction l generalizing acc with
  | nil =>
    refine ⟨fun h => ⟨h, rfl⟩, fun n h => ⟨.inl h, ?_⟩⟩
    rintro n' (h' | h')
    · rw [foldl_nil] at h
      rw [h] at h'
      cases h'
      exact le_rfl
    · cases h'
  | cons x l ih =>
    obtain ⟨hnone, hsome⟩ := ih (laterName acc x)
    have hacc : ∃ y, laterName acc x = some y ∧ (acc = some y ∨ y = x) ∧
        ∀ n', acc = some n' ∨ n' = x → strKey n' ≤ strKey y := by
      cases acc with
      | none => exact ⟨x, rfl, .inr rfl, by simp⟩
      | some prev =>
        by_cases hlt : strKey x < strKey prev
        · refine ⟨prev, if_pos hlt, .inl rfl, ?_⟩
          rintro n' (h | rfl)
          · cases h
            exact le_rfl
          · exact hlt.le
        · refine ⟨x, if_neg hlt, .inr rfl, ?_⟩
          rintro n' (h | rfl)
          · cases h
            exact not_lt.1 hlt
          · exact le_rfl
    obtain ⟨y, hy, hmem, hmax⟩ := hacc
    rw [foldl_cons]
    refine ⟨fun h => ?_, fun n h => ?_⟩
    · have hno := (hnone h).1
      rw [hy] at hno
      cases hno
    · obtain ⟨hn, hle⟩ := hsome n h
      constructor
      · rcases hn with hn | hn
        · rw [hy] at hn
          cases hn
          rcases hmem with hmem | rfl
          · exact .inl hmem
          · exact .inr mem_cons_self
        · exact .inr (mem_cons_of_mem _ hn)
      · have hyn := hle y (.inl hy)
        rintro n' (h' | h')
        · exact (hmax n' (.inl h')).trans hyn
        · rcases mem_cons.1 h' with rfl | h'
          · exact (hmax n' (.inr rfl)).trans hyn
          · exact hle n' (.inr h')

lemma lastMetaName_eq_none {l : List Str} (h : lastMetaName l = none) : ∀ n ∈ l, isMetaName n = false := by
  intro n hn
  have hnil := ((foldl_laterName _ _).1 h).2
  rw [filter_eq_nil_iff] at hnil
  simpa using hnil n hn

lemma lastMetaName_eq_some {l : List Str} {n : Str} (h : lastMetaName l = some n) :
    n ∈ l ∧ isMetaName n = true ∧ ∀ n' ∈ l, isMetaName n' = true → strKey n' ≤ strKey n := by
  obtain ⟨hn, hle⟩ := (foldl_laterName _ _).2 n h
  have hmem := hn.resolve_left (by simp)
  rw [mem_filter] at hmem
  exact ⟨hmem.1, hmem.2, fun n' hn' hm => hle n' (.inr (mem_filter.2 ⟨hn', hm⟩))⟩

lemma lastMetaName_perm {l l' : List Str} (h : l.Perm l') : lastMetaName l = lastMetaName l' := by
  cases hl : lastMetaName l with
  | none =>
    cases hl' : lastMetaName l' with
    | none => rfl
    | some n' =>
      obtain ⟨hn', hm', -⟩ := lastMetaName_eq_some hl'
      have hno := lastMetaName_eq_none hl n' (h.mem_iff.2 hn')
      rw [hm'] at hno
      cases hno
  | some n =>
    obtain ⟨hn, hm, hle⟩ := lastMetaName_eq_some hl
    cases hl' : lastMetaName l' with
    | none =>
      have hno := lastMetaName_eq_none hl' n (h.mem_iff.1 hn)
      rw [hm] at hno
      cases hno
    | some n' =>
      obtain ⟨hn', hm', hle'⟩ := lastMetaName_eq_some hl'
      have heq : strKey n = strKey n' :=
        le_antisymm (hle' n (h.mem_iff.1 hn) hm) (hle n' (h.mem_iff.2 hn') hm')
      rw [strKey_injective heq]

end Names

section Reading

variable {β τ : Type} {toml : Toml β τ} {files : Table Str τ}

lemma mem_keys_iff {n : Str} : n ∈ files.keys ↔ ∃ text, files.lookup n = some text := by
  rw [← isSome_iff_exists, AList.lookup_isSome]
  rfl

/-- All metadata files say the same, up to the format version; without any it is the default. -/
structure Agree (toml : Toml β τ) (files : Table Str τ) (b : β) : Prop where
  decodes : ∀ name text, files.lookup name = some text → isMetaName name = true →
    ∃ m, toml.decode text = some m ∧ m.body = b
  blank : (∀ name text, files.lookup name = some text → isMetaName name = false) → b = toml.blank

variable {b : β}

lemma Agree.readMeta (h : Agree toml files b) : ∃ m, readMeta toml files = .ok m ∧ m.body = b := by
  unfold Metadata.readMeta
  cases hl : lastMetaName files.keys with
  | none =>
    have hno := lastMetaName_eq_none hl
    exact ⟨toml.default, rfl, (h.blank fun n text hn => hno n (mem_keys_iff.2 ⟨text, hn⟩)).symm⟩
  | some path =>
    obtain ⟨hmem, hmeta, -⟩ := lastMetaName_eq_some hl
    obtain ⟨text, ht⟩ := mem_keys_iff.1 hmem
    obtain ⟨m, hd, hb⟩ := h.decodes path text ht hmeta
    exact ⟨m, by simp only [ht, hd], hb⟩

lemma Agree.insert (h : Agree toml files b) {epoch : Epoch} {m : Meta β} {text : τ}
    (ht : toml.decode text = some m) (hb : m.body = b) : Agree toml (files.insert (metaPath epoch) text) b where
  decodes := forall_insert h.decodes fun _ => ⟨m, ht, hb⟩
  blank hno := by
    have := hno (metaPath epoch) text (AList.lookup_insert _)
    rw [isMetaName_metaPath] at this
    cases this

lemma Agree.erase (h : Agree toml files b) {epoch : Epoch} {text : τ} {path : Str}
    (hown : files.lookup (metaPath epoch) = some text) (hne : path ≠ metaPath epoch) :
    Agree toml (files.erase path) b where
  decodes := forall_erase h.decodes path
  blank hno := by
    have hkept : (files.erase path).lookup (metaPath epoch) = some text := by
      rw [lookup_erase', if_neg hne.symm, hown]
    have := hno (metaPath epoch) text hkept
    rw [isMetaName_metaPath] at this
    cases this

end Reading

/-! ### What the sessions keep -/

section Sessions

variable {β τ : Type} {toml : Toml β τ} {files : Table Str τ} {b : β} {log : List (Event β)}

def OwnFile (files : Table Str τ) (epoch : Epoch) : Prop := ∃ text, files.lookup (metaPath epoch) = some text

/-- Every metadata file is the session's own or one that it is still going to delete. -/
def OthersIn (files : Table Str τ) (epoch : Epoch) (todo : List Str) : Prop :=
  ∀ name text, files.lookup name = some text → isMetaName name = true → name = metaPath epoch ∨ name ∈ todo

/-- What holds at each point of a session; `b` is what the files say. -/
def Stage (toml : Toml β τ) (files : Table Str τ) (log : List (Event β)) (b : β) : Pc β → Prop
  | .list _ => True
  | .get _ path => isMetaName path = true ∧ ∃ text, files.lookup path = some text
  | .put _ m => m.body = b
  | .cleanList epoch _ => OwnFile files epoch
  | .cleanDelete epoch _ path todo =>
    OwnFile files epoch ∧ metaPath epoch ∉ path :: todo ∧ OthersIn files epoch (path :: todo)
  | .ready epoch _ => OwnFile files epoch ∧ OthersIn files epoch []
  | .modify epoch _ new =>
    OwnFile files epoch ∧ OthersIn files epoch [] ∧ new.body ∈ (allowed toml log).map Meta.body
  | .returned _ => True
  | .failed _ => True

/-- The files say one thing, and it is one of those that a read may return. -/
structure Fits (toml : Toml β τ) (files : Table Str τ) (log : List (Event β)) (b : β) : Prop where
  agree : Agree toml files b
  allowed : b ∈ (allowed toml log).map Meta.body

/-- A read can be answered from the files; a session in progress is at its stage. -/
def Store.Inv (toml : Toml β τ) (s : Store β τ) : Prop :=
  ∃ b, Fits toml s.files s.log b ∧ ∀ pc, s.session = some pc → Stage toml s.files s.log b pc

lemma stage_afterRead {who : Option Epoch} {r : Except MetaError (Meta β)} (h : ∀ m, r = .ok m → m.body = b) :
    Stage toml files log b (afterRead who r) := by
  cases who with
  | none => trivial
  | some =>
    cases r with
    | error => trivial
    | ok m =>
      unfold afterRead
      dsimp only
      split_ifs
      · trivial
      · exact h m rfl

variable {epoch : Epoch} {m : Meta β}

lemma stage_cleanNext {todo : List Str} (hown : OwnFile files epoch) (hnot : metaPath epoch ∉ todo)
    (hothers : OthersIn files epoch todo) : Stage toml files log b (cleanNext epoch m todo) := by
  cases todo with
  | nil => exact ⟨hown, hothers⟩
  | cons => exact ⟨hown, hnot, hothers⟩

lemma fits_overwrite {text : τ} (hothers : OthersIn files epoch []) (ht : toml.decode text = some m)
    (hb : m.body ∈ (allowed toml log).map Meta.body) :
    Fits toml (files.insert (metaPath epoch) text) log m.body ∧ OwnFile (files.insert (metaPath epoch) text) epoch ∧
      OthersIn (files.insert (metaPath epoch) text) epoch [] := by
  refine ⟨⟨⟨?_, ?_⟩, hb⟩, ⟨text, AList.lookup_insert _⟩, ?_⟩
  · intro name text' hl hm
    rw [lookup_insert'] at hl
    split_ifs at hl with hn
    · cases hl
      exact ⟨m, ht, rfl⟩
    · rcases hothers name text' hl hm with h | h
      · exact absurd h hn
      · cases h
  · intro hno
    have := hno (metaPath epoch) text (AList.lookup_insert _)
    rw [isMetaName_metaPath] at this
    cases this
  · exact forall_insert hothers fun _ => .inl rfl

lemma othersIn_listing {listing : List Str} (hperm : listing.Perm files.keys) :
    OthersIn files epoch (listing.filter fun n => n ≠ metaPath epoch && isMetaName n) := by
  intro name text hl hm
  by_cases hn : name = metaPath epoch
  · exact .inl hn
  · refine .inr (mem_filter.2 ⟨hperm.mem_iff.2 (mem_keys_iff.2 ⟨text, hl⟩), ?_⟩)
    simp [hn, hm]

lemma OthersIn.erase {path : Str} {todo : List Str} (h : OthersIn files epoch (path :: todo)) :
    OthersIn (files.erase path) epoch todo := by
  intro name text hl hm
  rw [lookup_erase'] at hl
  split_ifs at hl with hn
  rcases h name text hl hm with h | h
  · exact .inl h
  · exact .inr ((mem_cons.1 h).resolve_left hn)

variable {listing : List Str} {o : Outcome} {pc pc' : Pc β} {files' : Table Str τ} {events : List (Event β)}

lemma list_inv {who : Option Epoch} (h : Fits toml files log b)
    (hr : request toml files listing o (.list who) = some (files', pc', events)) :
    ∃ b', Fits toml files' (events ++ log) b' ∧ Stage toml files' (events ++ log) b' pc' := by
  rw [request] at hr
  split_ifs at hr with ho hperm
  · cases hr
    exact ⟨b, h, stage_afterRead fun m hm => by cases hm⟩
  · rw [lastMetaName_perm hperm] at hr
    cases hl : lastMetaName files.keys with
    | none =>
      rw [hl] at hr
      cases hr
      have hno := lastMetaName_eq_none hl
      refine ⟨b, h, stage_afterRead fun m hm => ?_⟩
      cases hm
      exact (h.agree.blank fun n text hn => hno n (mem_keys_iff.2 ⟨text, hn⟩)).symm
    | some =>
      rw [hl] at hr
      cases hr
      obtain ⟨hmem, hmeta, -⟩ := lastMetaName_eq_some hl
      exact ⟨b, h, hmeta, mem_keys_iff.1 hmem⟩

lemma modify_inv {cache new : Meta β} (h : Fits toml files log b)
    (hst : Stage toml files log b (.modify epoch cache new))
    (hr : request toml files listing o (.modify epoch cache new) = some (files', pc', events)) :
    ∃ b', Fits toml files' (events ++ log) b' ∧ Stage toml files' (events ++ log) b' pc' := by
  obtain ⟨hown, hothers, hnewb⟩ := hst
  rw [request] at hr
  cases he : toml.encode new.stamped with
  | none =>
    rw [he] at hr
    cases hr
    exact ⟨b, h, hown, hothers⟩
  | some =>
    have ht := toml.decode_encode _ _ he
    rw [he] at hr
    cases o with
    | ok =>
      cases hr
      have hin : new.stamped.body ∈
          (allowed toml (.modified new :: .wrote new.stamped :: log)).map Meta.body := by simp [allowed, Meta.stamped]
      obtain ⟨hf, ho, hothers'⟩ := fits_overwrite hothers ht hin
      exact ⟨_, hf, ho, hothers'⟩
    | lost =>
      cases hr
      exact ⟨b, h, hown, hothers⟩
    | late =>
      cases hr
      have hin : new.stamped.body ∈ (allowed toml (.wrote new.stamped :: log)).map Meta.body := hnewb
      obtain ⟨hf, ho, hothers'⟩ := fits_overwrite hothers ht hin
      exact ⟨_, hf, ho, hothers'⟩

lemma request_inv (h : Fits toml files log b) (hst : Stage toml files log b pc)
    (hr : request toml files listing o pc = some (files', pc', events)) :
    ∃ b', Fits toml files' (events ++ log) b' ∧ Stage toml files' (events ++ log) b' pc' := by
  cases pc with
  | list => exact list_inv h hr
  | get who path =>
    obtain ⟨hmeta, text, ht⟩ := hst
    obtain ⟨m, hd, hb⟩ := h.agree.decodes path text ht hmeta
    rw [request, ht] at hr
    simp only [hd] at hr
    split_ifs at hr with ho
    · cases hr
      exact ⟨b, h, stage_afterRead fun m hm => by cases hm⟩
    · cases hr
      refine ⟨b, h, stage_afterRead fun m' hm => ?_⟩
      cases hm
      exact hb
  | put epoch m =>
    have hb : m.body = b := hst
    rw [request] at hr
    cases he : toml.encode m.stamped with
    | none =>
      rw [he] at hr
      cases hr
      exact ⟨b, h, trivial⟩
    | some text =>
      have ht := toml.decode_encode _ _ he
      have hnew : Fits toml (files.insert (metaPath epoch) text) (.wrote m.stamped :: log) b :=
        ⟨h.agree.insert ht hb, h.allowed⟩
      rw [he] at hr
      cases o with
      | ok =>
        cases hr
        exact ⟨b, hnew, text, AList.lookup_insert _⟩
      | lost =>
        cases hr
        exact ⟨b, h, trivial⟩
      | late =>
        cases hr
        exact ⟨b, hnew, trivial⟩
  | cleanList =>
    rw [request] at hr
    split_ifs at hr with ho hperm
    · cases hr
      exact ⟨b, h, trivial⟩
    · cases hr
      exact ⟨b, h, stage_cleanNext hst (by simp) (othersIn_listing hperm)⟩
  | cleanDelete epoch m path =>
    obtain ⟨⟨text, hown⟩, hnot, hothers⟩ := hst
    have hne : path ≠ metaPath epoch := fun he => hnot (he ▸ mem_cons_self)
    have hnew : Fits toml (files.erase path) log b := ⟨h.agree.erase hown hne, h.allowed⟩
    cases o with
    | ok =>
      cases hr
      refine ⟨b, hnew, stage_cleanNext ⟨text, ?_⟩ (fun hm => hnot (mem_cons_of_mem _ hm)) hothers.erase⟩
      rw [lookup_erase', if_neg hne.symm, hown]
    | lost =>
      cases hr
      exact ⟨b, h, trivial⟩
    | late =>
      cases hr
      exact ⟨b, hnew, trivial⟩
  | modify => exact modify_inv h hst hr
  | ready | returned | failed => cases hr

lemma Store.Inv.step {s s' : Store β τ} {a : Act β} (h : s.Inv toml) (hs : s.step toml a = some s') :
    s'.Inv toml := by
  obtain ⟨b, hf, hst⟩ := h
  cases a with
  | activate =>
    rw [Store.step] at hs
    split at hs
    · cases hs
      refine ⟨b, hf, fun pc hpc => ?_⟩
      cases hpc
      trivial
    · cases hs
  | request =>
    obtain ⟨pc, hpc, hs⟩ := bind_eq_some_iff.1 hs
    obtain ⟨⟨files', pc', events⟩, hr, rfl⟩ := map_eq_some_iff.1 hs
    obtain ⟨b', hf', hst'⟩ := request_inv hf (hst pc hpc) hr
    refine ⟨b', hf', fun pc hpc => ?_⟩
    cases hpc
    exact hst'
  | modify =>
    rw [Store.step] at hs
    split at hs
    · next epoch cache hpc =>
      cases hs
      obtain ⟨hown, hothers⟩ := hst _ hpc
      refine ⟨b, ⟨hf.agree, ?_⟩, fun pc hpc => ?_⟩
      · exact mem_cons_of_mem _ hf.allowed
      · cases hpc
        exact ⟨hown, hothers, mem_cons_self⟩
    · cases hs
  | stop =>
    cases hs
    exact ⟨b, hf, fun pc hpc => by cases hpc⟩

/-! ### A newer format -/

def Store.Refusing (files : Table Str τ) (s : Store β τ) : Prop :=
  s.files = files ∧ ∀ pc, s.session = some pc →
    (∃ epoch, pc = .list (some epoch)) ∨ (∃ e, pc = .failed e) ∨
      ∃ epoch path, pc = .get (some epoch) path ∧ lastMetaName files.keys = some path

section

variable (hm : readMeta toml files = .ok m) (hv : SUPPORTED_FORMAT_VERSION < m.formatVersion)
include hm hv

lemma refusing_request
    (hpc : (∃ epoch, pc = .list (some epoch)) ∨ (∃ e, pc = .failed e) ∨
      ∃ epoch path, pc = .get (some epoch) path ∧ lastMetaName files.keys = some path)
    (hr : request toml files listing o pc = some (files', pc', events)) :
    files' = files ∧ ((∃ e, pc' = .failed e) ∨
      ∃ epoch path, pc' = .get (some epoch) path ∧ lastMetaName files.keys = some path) := by
  rcases hpc with ⟨epoch, rfl⟩ | ⟨e, rfl⟩ | ⟨epoch, path, rfl, hpath⟩
  · rw [request] at hr
    split_ifs at hr with ho hperm
    · cases hr
      exact ⟨rfl, .inl ⟨_, rfl⟩⟩
    · rw [lastMetaName_perm hperm] at hr
      cases hl : lastMetaName files.keys with
      | none =>
        -- without a file the version is the supported one
        rw [readMeta, hl] at hm
        cases hm
        exact absurd hv (lt_irrefl _)
      | some path =>
        rw [hl] at hr
        cases hr
        exact ⟨rfl, .inr ⟨epoch, path, rfl, rfl⟩⟩
  · cases hr
  · rw [request] at hr
    split_ifs at hr with ho
    · cases hr
      exact ⟨rfl, .inl ⟨_, rfl⟩⟩
    · rw [readMeta, hpath] at hm
      dsimp only at hm
      cases ht : files.lookup path with
      | none =>
        rw [ht] at hm
        cases hm
        exact absurd hv (lt_irrefl _)
      | some text =>
        rw [ht] at hm hr
        dsimp only at hm hr
        cases hd : toml.decode text with
        | none =>
          rw [hd] at hm
          cases hm
        | some =>
          rw [hd] at hm hr
          cases hm
          cases hr
          refine ⟨rfl, .inl ⟨.unsupportedVersion m.formatVersion, ?_⟩⟩
          simp only [afterRead, if_pos hv]

lemma Store.Refusing.step {s s' : Store β τ} {a : Act β} (h : s.Refusing files) (hs : s.step toml a = some s') :
    s'.Refusing files := by
  obtain ⟨rfl, hpc⟩ := h
  cases a with
  | activate epoch =>
    rw [Store.step] at hs
    split at hs
    · cases hs
      refine ⟨rfl, fun pc hpc => ?_⟩
      cases hpc
      exact .inl ⟨epoch, rfl⟩
    · cases hs
  | request =>
    obtain ⟨pc, hpc', hs⟩ := bind_eq_some_iff.1 hs
    obtain ⟨⟨files', pc', events⟩, hr, rfl⟩ := map_eq_some_iff.1 hs
    obtain ⟨hfiles, hnext⟩ := refusing_request hm hv (hpc pc hpc') hr
    refine ⟨hfiles, fun pc hpc => ?_⟩
    cases hpc
    exact .inr hnext
  | modify =>
    rw [Store.step] at hs
    split at hs
    · next epoch cache hready =>
      rcases hpc _ hready with ⟨_, h⟩ | ⟨_, h⟩ | ⟨_, _, h, -⟩ <;> cases h
    · cases hs
  | stop =>
    cases hs
    exact ⟨rfl, fun pc hpc => by cases hpc⟩

end

/-- **Metadata survives crashes.**  After any sessions on a fresh store, with requests that fail or crashes at
any point, a read between sessions returns the metadata of the last successful `modify_meta` or of a later one
that failed or was interrupted.  And sessions on a store with a newer format change nothing. -/
theorem metadata_survives (toml : Toml β τ) :
    (∀ (files : Table Str τ) acts s, (∀ name text, files.lookup name = some text → isMetaName name = false) →
      run (Store.step toml) ⟨files, none, []⟩ acts = some s → s.session = none →
      ∃ m m', readMeta toml s.files = .ok m ∧ m' ∈ allowed toml s.log ∧ m.body = m'.body) ∧
    (∀ (s s' : Store β τ) acts m, s.session = none → readMeta toml s.files = .ok m →
      SUPPORTED_FORMAT_VERSION < m.formatVersion → run (Store.step toml) s acts = some s' →
      s'.files = s.files) := by
  constructor
  · intro files acts s hfresh hrun hidle
    have hinit : Store.Inv toml (⟨files, none, []⟩ : Store β τ) := by
      refine ⟨toml.blank, ⟨⟨?_, fun _ => rfl⟩, by simp [allowed, Toml.default]⟩, fun pc hpc => by cases hpc⟩
      intro name text hl hm
      rw [hfresh name text hl] at hm
      cases hm
    have hinv : s.Inv toml := run_keeps (P := Store.Inv toml) (fun s a t h hs => h.step hs) hinit hrun
    obtain ⟨b, hf, -⟩ := hinv
    obtain ⟨m, hm, hb⟩ := hf.agree.readMeta
    obtain ⟨m', hm', hb'⟩ := List.mem_map.1 hf.allowed
    exact ⟨m, m', hm, hm', hb.trans hb'.symm⟩
  · intro s s' acts m hnone hm hv hrun
    have hinit : s.Refusing s.files := ⟨rfl, fun pc hpc => by rw [hnone] at hpc; cases hpc⟩
    have href : s'.Refusing s.files := run_keeps (P := Store.Refusing s.files)
      (fun s a t h hs => h.step hm hv hs) hinit hrun
    exact href.1

def plainToml : Toml ℕ (Meta ℕ) := ⟨0, some, some, fun _ _ h => h.symm⟩

def epochThree : Epoch := ⟨3, by decide⟩
def epochFive : Epoch := ⟨5, by decide⟩

/-- A first session whose `modify_meta` fails after the PUT took effect, and a second one with a lower epoch
that crashes before it has cleaned up. -/
def failedThenCrashed : List (Act ℕ) :=
  [.activate epochFive, .request [] .ok, .request [] .ok, .request [metaPath epochFive] .ok, .modify ⟨1, 7⟩,
    .request [] .late, .stop, .activate epochThree, .request [metaPath epochFive] .ok, .request [] .ok,
    .request [] .ok, .stop]

theorem metadata_survives_failedThenCrashed :
    ∃ s m m', run (Store.step plainToml) ⟨∅, none, []⟩ failedThenCrashed = some s ∧
      readMeta plainToml s.files = .ok m ∧ m' ∈ allowed plainToml s.log ∧ m.body = m'.body ∧
      (s.files.lookup (metaPath epochThree)).isSome ∧ (s.files.lookup (metaPath epochFive)).isSome := by
  obtain ⟨s, hs, hnone, hthree, hfive⟩ : ∃ s, run (Store.step plainToml) ⟨∅, none, []⟩ failedThenCrashed =
      some s ∧ s.session.isNone ∧ (s.files.lookup (metaPath epochThree)).isSome ∧
        (s.files.lookup (metaPath epochFive)).isSome := by decide
  obtain ⟨m, m', hm, hm', hb⟩ := (metadata_survives plainToml).1 ∅ failedThenCrashed s
    (fun name text h => by cases h) hs (isNone_iff_eq_none.1 hnone)
  exact ⟨s, m, m', hs, hm, hm', hb, hthree, hfive⟩

end Sessions

end Bepository.Metadata
