import Bepository.Storage.Meta

/-!
# Metadata under concurrency

Lock-free readers, superseded sessions and the newest session send their requests to the store in any order.
A read lists the files and then fetches the greatest; in between, a session may delete it.  And `clean_meta`
deletes every file but the session's own, also one of a newer session.  Apart from these two, every read
returns what some session wrote, and once the newest session is active, a read returns its metadata.
-/

namespace Bepository.Metadata

open Lib Lock Storage List Option Table

/-! ### Epochs and names -/

section Order

lemma strKey_metaPath_lt {e e' : Epoch} (h : e < e') : strKey (metaPath e) < strKey (metaPath e') := by
  unfold metaPath
  rw [append_assoc, append_assoc]
  exact strKey_epoch_lt h _ _ _

end Order

/-! ### The processes -/

/-- The store, the processes, and the record of what was written. -/
structure World (β τ : Type) where
  files : Table Str τ
  procs : Table ℕ (Pc β)
  log : List (Event β)

inductive RaceAct (β : Type) where
  /-- a session activates with an epoch, or a lock-free read begins -/
  | start (p : ℕ) (who : Option Epoch)
  | request (p : ℕ) (listing : List Str)
  | modify (p : ℕ) (new : Meta β)
  | stop (p : ℕ)

section Machine

variable {β τ : Type} (toml : Toml β τ)

def World.step (w : World β τ) : RaceAct β → Option (World β τ)
  | .start p who =>
    if w.procs.lookup p = none then some { w with procs := w.procs.insert p (.list who) } else none
  | .request p listing =>
    (w.procs.lookup p).bind fun pc =>
      (request toml w.files listing .ok pc).map fun r =>
        { files := r.1, procs := w.procs.insert p r.2.1, log := r.2.2 ++ w.log }
  | .modify p new =>
    match w.procs.lookup p with
    | some (.ready epoch cache) =>
      some { w with procs := w.procs.insert p (.modify epoch cache new), log := .began new :: w.log }
    | _ => none
  | .stop p => some { w with procs := w.procs.erase p }

/-- The newest session is about to activate on a store with these files. -/
def World.initial (files : Table Str τ) (newest : ℕ) (epoch : Epoch) : World β τ :=
  ⟨files, AList.singleton newest (.list (some epoch)), []⟩

def Pc.epoch : Pc β → Option Epoch
  | .list who => who
  | .get who _ => who
  | .put epoch _ => some epoch
  | .cleanList epoch _ => some epoch
  | .cleanDelete epoch _ _ _ => some epoch
  | .ready epoch _ => some epoch
  | .modify epoch _ _ => some epoch
  | .returned _ => none
  | .failed _ => none

def Pc.written : Pc β → Option (Meta β)
  | .cleanList _ m => some m
  | .cleanDelete _ m _ _ => some m
  | .ready _ cache => some cache
  | .modify _ cache _ => some cache
  | _ => none

def Pc.active : Pc β → Option (Meta β)
  | .ready _ cache => some cache
  | .modify _ cache _ => some cache
  | _ => none

def Pc.fetching : Pc β → Option Str
  | .get _ path => some path
  | _ => none

/-- What `read_meta_unlocked` has just returned to a process: a lock-free reader, or a session that goes on
with it. -/
def Pc.read : Pc β → Option (Except MetaError (Meta β))
  | .returned r => some r
  | .put _ m => some (.ok m)
  | .failed .corruption => some (.error .corruption)
  | _ => none

/-- Every session but the newest, which is process `n`, has a lower epoch. -/
def Superseded (n : ℕ) (newest : Epoch) : RaceAct β → Prop
  | .start p (some epoch) => p ≠ n ∧ epoch < newest
  | _ => True

/-- A DELETE removes a file of a lower name than the session's own, and none that a process has chosen and
not yet fetched. -/
def Spares (w : World β τ) : RaceAct β → Prop
  | .request p _ =>
    match w.procs.lookup p with
    | some (.cleanDelete epoch _ path _) =>
      strKey path < strKey (metaPath epoch) ∧ ∀ r ∈ w.procs.toList, r.2.fetching ≠ some path
    | _ => True
  | _ => True

def Committed (files : Table Str τ) (log : List (Event β)) (m : Meta β) : Prop :=
  (∃ name text, files.lookup name = some text ∧ isMetaName name = true ∧ toml.decode text = some m) ∨
    .wrote m ∈ log

end Machine

/-! ### The invariant -/

section Invariant

variable {β τ : Type} {toml : Toml β τ} {files₀ files files' : Table Str τ} {log log' : List (Event β)}
  {newest : Epoch} {n p q : ℕ} {pc pc' : Pc β} {m : Meta β} {e : Epoch} {w : World β τ}

lemma Committed.mono (h : Committed toml files₀ log m) (hlog : log ⊆ log') :
    Committed toml files₀ log' m := h.imp_right fun hw => hlog hw

/-- The metadata files: each holds what a session wrote, none is newer than the newest session's, and there
is one. -/
structure Held (toml : Toml β τ) (files₀ : Table Str τ) (newest : Epoch) (files : Table Str τ)
    (log : List (Event β)) : Prop where
  committed : ∀ name text, files.lookup name = some text → isMetaName name = true →
    ∃ m, toml.decode text = some m ∧ Committed toml files₀ log m
  bound : ∀ name text, files.lookup name = some text → isMetaName name = true →
    strKey name ≤ strKey (metaPath newest)
  present : ∃ name text, files.lookup name = some text ∧ isMetaName name = true

structure Placed (toml : Toml β τ) (files₀ : Table Str τ) (newest : Epoch) (n : ℕ) (files : Table Str τ)
    (log : List (Event β)) (p : ℕ) (pc : Pc β) : Prop where
  epoch : ∀ e, pc.epoch = some e → (p = n ∧ e = newest) ∨ (p ≠ n ∧ e < newest)
  fetching : ∀ path, pc.fetching = some path → isMetaName path = true ∧ ∃ text, files.lookup path = some text
  later : ∀ e m, pc.epoch = some e → pc.written = some m →
    ∃ name text, files.lookup name = some text ∧ isMetaName name = true ∧ strKey (metaPath e) ≤ strKey name
  own : ∀ m, p = n → pc.written = some m →
    ∃ text, files.lookup (metaPath newest) = some text ∧ toml.decode text = some m.stamped
  read : ∀ r, pc.read = some r → ∃ m, r = .ok m ∧ Committed toml files₀ log m

section

variable (h : Placed toml files₀ newest n files log q pc)
include h

lemma Placed.insert {text : τ} (hlog : log ⊆ log') (he : (p = n ∧ e = newest) ∨ (p ≠ n ∧ e < newest))
    (hpq : q ≠ p) : Placed toml files₀ newest n (files.insert (metaPath e) text) log' q pc where
  epoch := h.epoch
  fetching path hp := by
    obtain ⟨hm, text', ht⟩ := h.fetching path hp
    refine ⟨hm, ?_⟩
    rw [lookup_insert']
    split_ifs
    · exact ⟨text, rfl⟩
    · exact ⟨text', ht⟩
  later e' m he' hw := by
    obtain ⟨name, text', ht, hm, hle⟩ := h.later e' m he' hw
    by_cases hn : name = metaPath e
    · exact ⟨name, text, by rw [lookup_insert', if_pos hn], hm, hle⟩
    · exact ⟨name, text', by rw [lookup_insert', if_neg hn, ht], hm, hle⟩
  own m hq hw := by
    obtain ⟨text', ht, hd⟩ := h.own m hq hw
    refine ⟨text', ?_, hd⟩
    rw [lookup_insert', if_neg, ht]
    intro hpath
    rcases he with ⟨hp, -⟩ | ⟨-, hlt⟩
    · exact hpq (hq.trans hp.symm)
    · exact absurd (congrArg strKey hpath) (ne_of_gt (strKey_metaPath_lt hlt))
  read r hr := by
    obtain ⟨m, hm, hc⟩ := h.read r hr
    exact ⟨m, hm, hc.mono hlog⟩

lemma Placed.erase {path : Str} (hlt : strKey path < strKey (metaPath e))
    (hle : strKey (metaPath e) ≤ strKey (metaPath newest))
    (hlater : ∃ name text, files.lookup name = some text ∧ isMetaName name = true ∧
      strKey (metaPath e) ≤ strKey name)
    (hfetch : pc.fetching ≠ some path) : Placed toml files₀ newest n (files.erase path) log q pc where
  epoch := h.epoch
  fetching path' hp := by
    obtain ⟨hm, text, ht⟩ := h.fetching path' hp
    refine ⟨hm, text, ?_⟩
    rw [lookup_erase', if_neg, ht]
    rintro rfl
    exact hfetch hp
  later e' m he' hw := by
    obtain ⟨name, text, ht, hm, hn⟩ := h.later e' m he' hw
    by_cases hname : name = path
    · -- the deleted file was the later one: the deleting session has one that is later still
      obtain ⟨name', text', ht', hm', hn'⟩ := hlater
      have hne : name' ≠ path := by
        rintro rfl
        exact absurd hn' (not_le.2 hlt)
      refine ⟨name', text', by rw [lookup_erase', if_neg hne, ht'], hm', ?_⟩
      rw [hname] at hn
      exact (hn.trans hlt.le).trans hn'
    · exact ⟨name, text, by rw [lookup_erase', if_neg hname, ht], hm, hn⟩
  own m hq hw := by
    obtain ⟨text, ht, hd⟩ := h.own m hq hw
    refine ⟨text, ?_, hd⟩
    rw [lookup_erase', if_neg, ht]
    rintro rfl
    exact absurd (hlt.trans_le hle) (lt_irrefl _)
  read := h.read

lemma Placed.mono (hlog : log ⊆ log') : Placed toml files₀ newest n files log' q pc where
  epoch := h.epoch
  fetching := h.fetching
  later := h.later
  own := h.own
  read r hr := by
    obtain ⟨m, hm, hc⟩ := h.read r hr
    exact ⟨m, hm, hc.mono hlog⟩

end

structure World.Fine (toml : Toml β τ) (files₀ : Table Str τ) (newest : Epoch) (n : ℕ) (w : World β τ) :
    Prop where
  held : Held toml files₀ newest w.files w.log
  placed : ∀ p pc, w.procs.lookup p = some pc → Placed toml files₀ newest n w.files w.log p pc

lemma World.Fine.move (h : w.Fine toml files₀ newest n) (hpc : Placed toml files₀ newest n w.files w.log p pc) :
    (⟨w.files, w.procs.insert p pc, w.log⟩ : World β τ).Fine toml files₀ newest n where
  held := h.held
  placed := forall_insert h.placed hpc

lemma World.Fine.put {text : τ} {ev : List (Event β)} (h : w.Fine toml files₀ newest n)
    (he : (p = n ∧ e = newest) ∨ (p ≠ n ∧ e < newest)) (hd : toml.decode text = some m) (hev : .wrote m ∈ ev)
    (hepoch : pc.epoch = some e) (hwritten : ∀ m', pc.written = some m' → m'.stamped = m)
    (hfetch : pc.fetching = none) (hread : pc.read = none) :
    (⟨w.files.insert (metaPath e) text, w.procs.insert p pc, ev ++ w.log⟩ : World β τ).Fine toml files₀ newest n := by
  have hle : strKey (metaPath e) ≤ strKey (metaPath newest) := by
    rcases he with ⟨-, rfl⟩ | ⟨-, hlt⟩
    · exact le_rfl
    · exact (strKey_metaPath_lt hlt).le
  have hsub : w.log ⊆ ev ++ w.log := subset_append_right _ _
  refine ⟨⟨?_, ?_, ?_⟩, ?_⟩
  · intro name text' ht hm
    rw [lookup_insert'] at ht
    split_ifs at ht with hname
    · cases ht
      exact ⟨m, hd, .inr (mem_append_left _ hev)⟩
    · obtain ⟨m', hm', hc⟩ := h.held.committed name text' ht hm
      exact ⟨m', hm', hc.mono hsub⟩
  · intro name text' ht hm
    rw [lookup_insert'] at ht
    split_ifs at ht with hname
    · rw [hname]
      exact hle
    · exact h.held.bound name text' ht hm
  · exact ⟨metaPath e, text, AList.lookup_insert _, isMetaName_metaPath e⟩
  · intro q pcq hq
    dsimp only at hq ⊢
    rw [lookup_insert'] at hq
    split_ifs at hq with hqp
    · cases hq
      subst hqp
      refine ⟨?_, ?_, ?_, ?_, ?_⟩
      · intro e' he'
        rw [hepoch] at he'
        cases he'
        exact he
      · intro path hp
        rw [hfetch] at hp
        cases hp
      · intro e' m' he' _
        rw [hepoch] at he'
        cases he'
        exact ⟨metaPath e, text, AList.lookup_insert _, isMetaName_metaPath e, le_rfl⟩
      · intro m' hn hw
        rcases he with ⟨-, rfl⟩ | ⟨hne, -⟩
        · exact ⟨text, AList.lookup_insert _, by rw [hwritten m' hw, hd]⟩
        · exact absurd hn hne
      · intro r hr
        rw [hread] at hr
        cases hr
    · exact (h.placed q pcq hq).insert hsub he hqp

lemma World.Fine.delete {path : Str} (h : w.Fine toml files₀ newest n) (hp : w.procs.lookup p = some pc)
    (he : pc.epoch = some e) (hw : pc.written = some m) (hlt : strKey path < strKey (metaPath e))
    (hspare : ∀ q pcq, w.procs.lookup q = some pcq → pcq.fetching ≠ some path) (he' : pc'.epoch = some e)
    (hw' : pc'.written = some m) (hfetch' : pc'.fetching = none) (hread' : pc'.read = none) :
    (⟨w.files.erase path, w.procs.insert p pc', w.log⟩ : World β τ).Fine toml files₀ newest n := by
  have hpc := h.placed p pc hp
  have hlater := hpc.later e m he hw
  have hle : strKey (metaPath e) ≤ strKey (metaPath newest) := by
    rcases hpc.epoch e he with ⟨-, rfl⟩ | ⟨-, hlt⟩
    · exact le_rfl
    · exact (strKey_metaPath_lt hlt).le
  have hstay : ∀ q pcq, w.procs.lookup q = some pcq →
      Placed toml files₀ newest n (w.files.erase path) w.log q pcq := fun q pcq hq =>
    (h.placed q pcq hq).erase hlt hle hlater (hspare q pcq hq)
  refine ⟨⟨?_, ?_, ?_⟩, ?_⟩
  · intro name text ht hm
    exact h.held.committed name text (lookup_of_erase ht) hm
  · intro name text ht hm
    exact h.held.bound name text (lookup_of_erase ht) hm
  · obtain ⟨name, text, ht, hm, -⟩ := (hstay p pc hp).later e m he hw
    exact ⟨name, text, ht, hm⟩
  · refine forall_insert hstay ⟨?_, ?_, ?_, ?_, ?_⟩
    · intro e₁ h₁
      rw [he'] at h₁
      cases h₁
      exact hpc.epoch e he
    · intro path' hp'
      rw [hfetch'] at hp'
      cases hp'
    · intro e₁ m₁ h₁ h₂
      rw [he'] at h₁
      cases h₁
      exact (hstay p pc hp).later e m he hw
    · intro m₁ hn h₁
      rw [hw'] at h₁
      cases h₁
      exact (hstay p pc hp).own m hn hw
    · intro r hr
      rw [hread'] at hr
      cases hr

lemma placed_afterRead {who : Option Epoch} (hwho : ∀ e, who = some e → (p = n ∧ e = newest) ∨ (p ≠ n ∧ e < newest))
    (hm : Committed toml files₀ log m) : Placed toml files₀ newest n files log p (afterRead who (.ok m)) := by
  cases who with
  | none =>
    refine ⟨by rintro e ⟨⟩, by rintro path ⟨⟩, by rintro e m' ⟨⟩, by rintro m' - ⟨⟩, ?_⟩
    rintro r ⟨⟩
    exact ⟨m, rfl, hm⟩
  | some e =>
    rw [afterRead]
    split_ifs with hv
    · exact ⟨by rintro e ⟨⟩, by rintro path ⟨⟩, by rintro e m' ⟨⟩, by rintro m' - ⟨⟩, by rintro r ⟨⟩⟩
    · refine ⟨?_, by rintro path ⟨⟩, by rintro e m' - ⟨⟩, by rintro m' - ⟨⟩, ?_⟩
      · rintro e' ⟨⟩
        exact hwho e rfl
      · rintro r ⟨⟩
        exact ⟨m, rfl, hm⟩

lemma Placed.same (h : Placed toml files₀ newest n files log p pc) (he : pc'.epoch = pc.epoch)
    (hw : pc'.written = pc.written) (hfetch : pc'.fetching = none) (hread : pc'.read = none) :
    Placed toml files₀ newest n files log p pc' where
  epoch e h' := h.epoch e (he ▸ h')
  fetching path h' := by
    rw [hfetch] at h'
    cases h'
  later e m h' hm := h.later e m (he ▸ h') (hw ▸ hm)
  own m hn hm := h.own m hn (hw ▸ hm)
  read r h' := by
    rw [hread] at h'
    cases h'

lemma cleanNext_epoch (e : Epoch) (m : Meta β) (todo : List Str) : (cleanNext e m todo).epoch = some e := by
  cases todo <;> rfl

lemma cleanNext_written (e : Epoch) (m : Meta β) (todo : List Str) : (cleanNext e m todo).written = some m := by
  cases todo <;> rfl

lemma cleanNext_fetching (e : Epoch) (m : Meta β) (todo : List Str) : (cleanNext e m todo).fetching = none := by
  cases todo <;> rfl

lemma cleanNext_read (e : Epoch) (m : Meta β) (todo : List Str) : (cleanNext e m todo).read = none := by
  cases todo <;> rfl

lemma World.Fine.request {listing : List Str} {r : Table Str τ × Pc β × List (Event β)}
    (h : w.Fine toml files₀ newest n) (hp : w.procs.lookup p = some pc)
    (hspare : ∀ e m path todo, pc = .cleanDelete e m path todo → strKey path < strKey (metaPath e) ∧
      ∀ q pcq, w.procs.lookup q = some pcq → pcq.fetching ≠ some path)
    (hr : request toml w.files listing .ok pc = some r) :
    (⟨r.1, w.procs.insert p r.2.1, r.2.2 ++ w.log⟩ : World β τ).Fine toml files₀ newest n := by
  have hpc := h.placed p pc hp
  cases pc with
  | list =>
    rw [Metadata.request, if_neg (by simp)] at hr
    split_ifs at hr with hperm
    rw [lastMetaName_perm hperm] at hr
    cases hl : lastMetaName w.files.keys with
    | none =>
      -- there is a metadata file
      obtain ⟨name, text, ht, hm⟩ := h.held.present
      have hno := lastMetaName_eq_none hl name (mem_keys_iff.2 ⟨text, ht⟩)
      rw [hm] at hno
      cases hno
    | some =>
      rw [hl] at hr
      cases hr
      obtain ⟨hmem, hm, -⟩ := lastMetaName_eq_some hl
      refine h.move ⟨hpc.epoch, ?_, by rintro e m - ⟨⟩, by rintro m - ⟨⟩, by rintro r ⟨⟩⟩
      rintro path' ⟨⟩
      exact ⟨hm, mem_keys_iff.1 hmem⟩
  | get who path =>
    obtain ⟨hm, text, ht⟩ := hpc.fetching path rfl
    obtain ⟨m, hd, hc⟩ := h.held.committed path text ht hm
    rw [Metadata.request, if_neg (by simp), ht] at hr
    dsimp only at hr
    rw [hd] at hr
    cases hr
    exact h.move (placed_afterRead hpc.epoch hc)
  | put e m =>
    rw [Metadata.request] at hr
    cases ht : toml.encode m.stamped with
    | none =>
      rw [ht] at hr
      cases hr
      exact h.move ⟨by rintro e ⟨⟩, by rintro path ⟨⟩, by rintro e m' ⟨⟩, by rintro m' - ⟨⟩, by rintro r ⟨⟩⟩
    | some =>
      rw [ht] at hr
      cases hr
      refine h.put (hpc.epoch e rfl) (toml.decode_encode _ _ ht) mem_cons_self rfl ?_ rfl rfl
      rintro m' ⟨⟩
      rfl
  | cleanList =>
    rw [Metadata.request, if_neg (by simp)] at hr
    split_ifs at hr with hperm
    cases hr
    exact h.move (hpc.same (cleanNext_epoch _ _ _) (cleanNext_written _ _ _) (cleanNext_fetching _ _ _)
      (cleanNext_read _ _ _))
  | cleanDelete e m path todo =>
    obtain ⟨hlt, hfree⟩ := hspare e m path todo rfl
    cases hr
    exact h.delete hp rfl rfl hlt hfree (cleanNext_epoch _ _ _) (cleanNext_written _ _ _)
      (cleanNext_fetching _ _ _) (cleanNext_read _ _ _)
  | modify e cache new =>
    rw [Metadata.request] at hr
    cases ht : toml.encode new.stamped with
    | none =>
      rw [ht] at hr
      cases hr
      exact h.move (hpc.same rfl rfl rfl rfl)
    | some =>
      rw [ht] at hr
      cases hr
      refine h.put (hpc.epoch e rfl) (toml.decode_encode _ _ ht)
        (mem_cons_of_mem _ mem_cons_self) rfl ?_ rfl rfl
      rintro m' ⟨⟩
      rfl
  | ready | returned | failed => cases hr

lemma World.Fine.step {w w' : World β τ} {a : RaceAct β} (h : w.Fine toml files₀ newest n)
    (hlow : Superseded n newest a) (hspare : Spares w a) (hs : w.step toml a = some w') :
    w'.Fine toml files₀ newest n := by
  cases a with
  | start =>
    rw [World.step] at hs
    split_ifs at hs with hfree
    cases hs
    refine h.move ⟨?_, by rintro path ⟨⟩, by rintro e m - ⟨⟩, by rintro m - ⟨⟩, by rintro r ⟨⟩⟩
    rintro e ⟨⟩
    exact .inr hlow
  | request p =>
    rw [World.step] at hs
    cases hp : w.procs.lookup p with
    | none =>
      rw [hp] at hs
      cases hs
    | some =>
      rw [hp, bind_some, map_eq_some_iff] at hs
      obtain ⟨r, hr, rfl⟩ := hs
      refine h.request hp ?_ hr
      rintro e m path todo rfl
      rw [Spares, hp] at hspare
      exact ⟨hspare.1, fun q pcq hq => hspare.2 (q, pcq) (Table.mem_toList.2 hq)⟩
  | modify p new =>
    rw [World.step] at hs
    split at hs
    · next e cache hp =>
      cases hs
      have hsub : w.log ⊆ .began new :: w.log := subset_cons_self _ _
      refine ⟨⟨?_, h.held.bound, h.held.present⟩, ?_⟩
      · intro name text ht hm
        obtain ⟨m, hd, hc⟩ := h.held.committed name text ht hm
        exact ⟨m, hd, hc.mono hsub⟩
      · exact forall_insert (fun q pcq hq => (h.placed q pcq hq).mono hsub)
          (((h.placed p _ hp).mono hsub).same rfl rfl rfl rfl)
    · cases hs
  | stop p =>
    cases hs
    exact ⟨h.held, forall_erase h.placed p⟩

lemma Held.readMeta {text : τ} (h : Held toml files₀ newest files log)
    (ht : files.lookup (metaPath newest) = some text) (hd : toml.decode text = some m) :
    readMeta toml files = .ok m := by
  unfold Metadata.readMeta
  have hown : metaPath newest ∈ files.keys := mem_keys_iff.2 ⟨text, ht⟩
  cases hl : lastMetaName files.keys with
  | none =>
    have hno := lastMetaName_eq_none hl _ hown
    rw [isMetaName_metaPath] at hno
    cases hno
  | some path =>
    obtain ⟨hmem, hm, hmax⟩ := lastMetaName_eq_some hl
    obtain ⟨text', ht'⟩ := mem_keys_iff.1 hmem
    have hpath : path = metaPath newest :=
      strKey_injective (le_antisymm (h.bound path text' ht' hm) (hmax _ hown (isMetaName_metaPath newest)))
    subst hpath
    simp only [ht, hd]

end Invariant

/-! ### The newest session against the others -/

section Race

variable {β τ : Type} {toml : Toml β τ}

/-- **Metadata under concurrency.**  Process `n` is the newest session; it starts on a store that has metadata
files, all of lower epochs, while any number of lock-free readers and of sessions with lower epochs take their
steps in any order.  As long as no DELETE of `clean_meta` hits a file of a higher name than the session's own,
or one that a process has chosen and not yet fetched, every read returns what a session has committed, and
from the end of the newest session's `activate` on a read that runs alone returns its latest metadata. -/
theorem metadata_race {files : Table Str τ} {newest : Epoch} {n : ℕ} {acts : List (RaceAct β)} {w : World β τ}
    (hinit : ∃ name text, files.lookup name = some text ∧ isMetaName name = true)
    (hfiles : ∀ name text, files.lookup name = some text → isMetaName name = true →
      (∃ m, toml.decode text = some m) ∧ ∃ e < newest, name = metaPath e)
    (hlow : ∀ a ∈ acts, Superseded n newest a)
    (hspare : Meets (World.step toml) Spares (World.initial files n newest) acts)
    (hrun : run (World.step toml) (World.initial files n newest) acts = some w) :
    (∀ p pc r, w.procs.lookup p = some pc → pc.read = some r → ∃ m, r = .ok m ∧ Committed toml files w.log m) ∧
      ∀ pc m, w.procs.lookup n = some pc → pc.active = some m → readMeta toml w.files = .ok m.stamped := by
  have h₀ : (World.initial files n newest : World β τ).Fine toml files newest n := by
    refine ⟨⟨?_, ?_, hinit⟩, ?_⟩
    · intro name text ht hm
      obtain ⟨⟨m, hd⟩, -⟩ := hfiles name text ht hm
      exact ⟨m, hd, .inl ⟨name, text, ht, hm, hd⟩⟩
    · intro name text ht hm
      obtain ⟨-, e, he, rfl⟩ := hfiles name text ht hm
      exact (strKey_metaPath_lt he).le
    · intro p pc hp
      dsimp only [World.initial] at hp ⊢
      obtain ⟨rfl, rfl⟩ := lookup_singleton hp
      refine ⟨?_, by rintro path ⟨⟩, by rintro e m - ⟨⟩, by rintro m - ⟨⟩, by rintro r ⟨⟩⟩
      rintro e ⟨⟩
      exact .inl ⟨rfl, rfl⟩
  have h : w.Fine toml files newest n :=
    run_inv (fun _ _ _ hw hg hs => hw.step hg.2 hg.1 hs) h₀ (hspare.and_forall hlow) hrun
  refine ⟨fun p pc r hp hr => (h.placed p pc hp).read r hr, fun pc m hp hm => ?_⟩
  have hwritten : pc.written = some m := by
    cases pc with
    | ready | modify => exact hm
    | _ => cases hm
  obtain ⟨text, ht, hd⟩ := (h.placed n pc hp).own m rfl hwritten
  exact h.held.readMeta ht hd

instance (n : ℕ) (newest : Epoch) (a : RaceAct β) : Decidable (Superseded n newest a) := by
  unfold Superseded
  split <;> infer_instance

instance (w : World β τ) (a : RaceAct β) : Decidable (Spares w a) := by
  unfold Spares
  split
  · split <;> infer_instance
  · infer_instance

end Race

deriving instance DecidableEq for Event

def epochFour : Epoch := ⟨4, by decide⟩

def setUp : Table Str (Meta ℕ) := AList.singleton (metaPath epochThree) ⟨1, 7⟩

/-- A reader chooses the file of epoch three; the newest session activates and deletes it; the reader finds
nothing. -/
def readerOvertaken : List (RaceAct ℕ) :=
  [.start 1 none, .request 1 [metaPath epochThree], .request 0 [metaPath epochThree], .request 0 [],
    .request 0 [], .request 0 [metaPath epochThree, metaPath epochFive], .request 0 [], .request 1 []]

/-- A superseded session writes its file; the newest activates and cleans up; then the superseded session
cleans up and deletes the newest file. -/
def newestDeleted : List (RaceAct ℕ) :=
  [.start 1 (some epochFour), .request 1 [metaPath epochThree], .request 1 [], .request 1 [],
    .request 0 [metaPath epochThree, metaPath epochFour], .request 0 [], .request 0 [],
    .request 0 [metaPath epochThree, metaPath epochFour, metaPath epochFive], .request 0 [], .request 0 [],
    .request 1 [metaPath epochFive], .request 1 []]

/-- A lock-free read returns the default on a store where no session ever wrote it, and a superseded session
deletes the metadata of the newest. -/
theorem metadata_race_lost :
    (∃ w pc, run (World.step plainToml) (World.initial setUp 0 epochFive) readerOvertaken = some w ∧
      w.procs.lookup 1 = some pc ∧ pc.read = some (.ok plainToml.default) ∧
      ¬ Committed plainToml setUp w.log plainToml.default) ∧
    (∀ a ∈ newestDeleted, Superseded 0 epochFive a) ∧
    ∃ w pc m, run (World.step plainToml) (World.initial setUp 0 epochFive) newestDeleted = some w ∧
      w.procs.lookup 0 = some pc ∧ pc.active = some m ∧ readMeta plainToml w.files ≠ .ok m.stamped := by
  refine ⟨?_, by decide, ?_⟩
  · obtain ⟨w, hw, pc, hpc, hread, hno⟩ : ∃ w, run (World.step plainToml) (World.initial setUp 0 epochFive)
        readerOvertaken = some w ∧ ∃ pc, w.procs.lookup 1 = some pc ∧
          pc.read = some (.ok plainToml.default) ∧ Event.wrote plainToml.default ∉ w.log := by decide
    refine ⟨w, pc, hw, hpc, hread, ?_⟩
    rintro (⟨name, text, ht, -, hd⟩ | hlog)
    · obtain ⟨-, rfl⟩ := lookup_singleton ht
      exact absurd hd (by decide)
    · exact hno hlog
  · simp only [exists_and_left]
    decide

/-- A superseded session that cleans up before the newest writes, and goes on to overwrite its own file; a
reader beside them. -/
def supersededHarmless : List (RaceAct ℕ) :=
  [.start 1 (some epochFour), .request 1 [metaPath epochThree], .request 1 [], .request 1 [],
    .request 1 [metaPath epochThree, metaPath epochFour], .request 1 [], .request 0 [metaPath epochFour],
    .request 0 [], .request 0 [], .start 2 none, .request 2 [metaPath epochFour, metaPath epochFive],
    .request 0 [metaPath epochFour, metaPath epochFive], .request 0 [], .request 2 [], .modify 1 ⟨1, 8⟩,
    .modify 0 ⟨1, 9⟩, .request 0 [], .request 1 []]

theorem metadata_race_harmless :
    ∃ w pc m, run (World.step plainToml) (World.initial setUp 0 epochFive) supersededHarmless = some w ∧
      (w.procs.lookup 2).bind Pc.read = some (.ok m) ∧ Committed plainToml setUp w.log m ∧
      w.procs.lookup 0 = some pc ∧ pc.active = some ⟨1, 9⟩ ∧ readMeta plainToml w.files = .ok ⟨1, 9⟩ ∧
      w.files.lookup (metaPath epochFour) = some ⟨1, 8⟩ := by
  obtain ⟨w, hw, pc', hpc', hread, pc, hpc, hactive, hfile⟩ : ∃ w, run (World.step plainToml)
      (World.initial setUp 0 epochFive) supersededHarmless = some w ∧
      ∃ pc', w.procs.lookup 2 = some pc' ∧ pc'.read = some (.ok ⟨1, 7⟩) ∧
      ∃ pc, w.procs.lookup 0 = some pc ∧ pc.active = some ⟨1, 9⟩ ∧
        w.files.lookup (metaPath epochFour) = some ⟨1, 8⟩ := by decide
  have hsetUp : ∀ name text, setUp.lookup name = some text → isMetaName name = true →
      (∃ m, plainToml.decode text = some m) ∧ ∃ e < epochFive, name = metaPath e := by
    intro name text ht _
    obtain ⟨rfl, rfl⟩ := lookup_singleton ht
    exact ⟨⟨_, rfl⟩, epochThree, by decide, rfl⟩
  have hinit : ∃ name text, setUp.lookup name = some text ∧ isMetaName name = true :=
    ⟨metaPath epochThree, ⟨1, 7⟩, by decide +kernel⟩
  obtain ⟨hcommitted, hown⟩ := metadata_race hinit hsetUp (by decide +kernel) (by decide) hw
  obtain ⟨m, hm, hc⟩ := hcommitted 2 pc' _ hpc' hread
  cases hm
  exact ⟨w, pc, _, hw, bind_eq_some_iff.2 ⟨pc', hpc', hread⟩, hc, hpc, hactive, hown pc _ hpc hactive, hfile⟩

end Bepository.Metadata
