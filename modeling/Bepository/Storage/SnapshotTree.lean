import Bepository.Storage.Snapshot

/-!
# The tree of a snapshot

`read_dir` and `file_metadata` each derive a tree of directories from the flat list of names.  Here is the
tree that both are about: a name is there if it has a live entry or a live entry lies below it.  The two
functions show that tree at a path if and only if its children are plain: none has a live directory entry, none
has both an entry and live entries below it, and none holds deleted entries only.
-/

namespace Bepository.Storage

open Lib List

/-! ### The tree -/

section Tree

variable (x : Externals) (db : RawDb)

def Entry (name : Str) (fi : FileRecord) : Prop :=
  validateFileName name = .ok () ∧
    ∃ raw, ((fileKey name).encode, raw) ∈ db.rows ∧ x.file raw = .ok (some fi)

def Live (name : Str) : Prop := ∃ fi, Entry x db name fi ∧ fi.info.deleted = false

/-- `FileInfoType::Directory` in a stored file. -/
def FileRecord.IsDirectory (fi : FileRecord) : Prop := fi.info.type = 2

def LiveDirectory (name : Str) : Prop :=
  ∃ fi, Entry x db name fi ∧ fi.info.deleted = false ∧ fi.IsDirectory

def LiveBelow (name : Str) : Prop := ∃ rest, Live x db (name ++ '/' :: rest)

def ValidContent : Prop :=
  ∀ r ∈ db.rows, FILE_PREFIX <+: r.1 → ∃ name fi, r.1 = (fileKey name).encode ∧
    validateFileName name = .ok () ∧ x.file r.2 = .ok (some fi)

def IsPart (c : Str) : Prop := c ≠ [] ∧ '/' ∉ c

variable {τ : Type} (fromTimestamp : ℤ → ℕ → Option τ)

/-- What a listing of a directory is to say, and `file_metadata` with it. -/
structure ShowsTree (path : Str) (entries : List (FsEntry τ)) : Prop where
  part : ∀ e ∈ entries, IsPart e.name
  nodup : (entries.map FsEntry.name).Nodup
  listed : ∀ c, IsPart c → (c ∈ entries.map FsEntry.name ↔
    Live x db (joinParts path c) ∨ LiveBelow x db (joinParts path c))
  kind : ∀ e ∈ entries, e.isDir = true ↔
    LiveDirectory x db (joinParts path e.name) ∨ LiveBelow x db (joinParts path e.name)
  found : ∀ c, IsPart c → ((∃ e, fileMetadata x fromTimestamp db (joinParts path c) = .ok e) ↔
    c ∈ entries.map FsEntry.name)
  same : ∀ e ∈ entries, ∀ e', fileMetadata x fromTimestamp db (joinParts path e.name) = .ok e' →
    e'.isDir = e.isDir

/-- What the children of a path are to be like for the two functions to show the tree. -/
structure PlainTree (path : Str) : Prop where
  readable : ∀ c fi, IsPart c → Entry x db (joinParts path c) fi → fi.info.deleted = false →
    0 ≤ fi.info.size ∧ ∃ t, fromTimestamp fi.modifiedS (max fi.modifiedNs 0).toNat = some t
  noDirectory : ∀ c, IsPart c → ¬ LiveDirectory x db (joinParts path c)
  noneBelow : ∀ c fi, IsPart c → Entry x db (joinParts path c) fi → ¬ LiveBelow x db (joinParts path c)
  someLive : ∀ c rest fi, IsPart c → Entry x db (joinParts path c ++ '/' :: rest) fi →
    LiveBelow x db (joinParts path c) ∨ ∃ fi', Entry x db (joinParts path c) fi'

end Tree

/-! ### Rows and names -/

section Rows

variable {x : Externals} {db : RawDb}

lemma splitName_joinParts {path c : Str} (hc : '/' ∉ c) : splitName (joinParts path c) = ⟨path, c, hc⟩ := by
  unfold joinParts
  by_cases hp : path = []
  · rw [if_pos hp, splitName_of_notMem hc, hp]
  · rw [if_neg hp, splitName_append hc]

lemma eq_joinParts_of_key {path c name : Str} (hc : '/' ∉ c) (hv : validateFileName name = .ok ())
    (h : (fileKey (joinParts path c)).encode = (fileKey name).encode) : name = joinParts path c := by
  have hp : splitName (joinParts path c) = splitName name := Path.encode_injective (append_cancel_left h)
  rw [← joinName_splitName hv, ← hp, splitName_joinParts hc]
  rfl

variable {q name : Str}

lemma prefix_fileKey_iff : FILE_PREFIX ++ utf8 q ++ [47] <+: (fileKey name).encode ↔
    q ++ ['/'] <+: (splitName name).dir ++ ['/'] ++ ['/'] := by
  have henc : (fileKey name).encode =
      FILE_PREFIX ++ utf8 (((splitName name).dir ++ ['/']) ++ '/' :: (splitName name).base) := by
    show FILE_PREFIX ++ Path.encode _ = _
    rw [Path.encode_eq, append_assoc]
    rfl
  have hstart : FILE_PREFIX ++ utf8 q ++ [47] = FILE_PREFIX ++ utf8 (q ++ ['/']) := by
    rw [utf8_append, append_assoc]
    rfl
  rw [henc, hstart, prefix_append_right_inj, utf8_prefix_iff, concat_prefix_iff (splitName name).noSlash]

lemma prefix_name_iff (hq : q ≠ []) (hv : validateFileName name = .ok ()) :
    q ++ ['/'] <+: name ↔ q ++ ['/'] <+: (splitName name).dir ++ ['/'] := by
  nth_rewrite 1 [← joinName_splitName hv]
  unfold joinName
  by_cases hd : (splitName name).dir = []
  · rw [if_pos hd, hd]
    constructor
    · intro h
      exact absurd (h.subset (by simp)) (splitName name).noSlash
    · intro h
      rcases prefix_concat_iff.1 h with h | h
      · exact absurd (append_cancel_right h) hq
      · simp at h
  · rw [if_neg hd, concat_prefix_iff (splitName name).noSlash]

lemma prefix_fileKey_of_name (hq : q ≠ []) (hv : validateFileName name = .ok ())
    (h : q ++ ['/'] <+: name) : FILE_PREFIX ++ utf8 q ++ [47] <+: (fileKey name).encode :=
  prefix_fileKey_iff.2 (((prefix_name_iff hq hv).1 h).trans (prefix_append _ _))

lemma prefix_name_of_fileKey (hq : q ≠ []) (hlast : q.getLast? ≠ some '/') (hv : validateFileName name = .ok ())
    (h : FILE_PREFIX ++ utf8 q ++ [47] <+: (fileKey name).encode) : q ++ ['/'] <+: name := by
  rcases prefix_concat_iff.1 (prefix_fileKey_iff.1 h) with h | h
  · rw [append_cancel_right h] at hlast
    simp at hlast
  · exact (prefix_name_iff hq hv).2 h

lemma relativeUnder_eq_some {path name rel : Str} :
    relativeUnder path name = some rel ↔ name = joinParts path rel := by
  unfold relativeUnder joinParts
  by_cases hp : path = []
  · rw [if_pos hp, if_pos hp, Option.some_inj]
  · rw [if_neg hp, if_neg hp, Option.bind_eq_some_iff]
    constructor
    · rintro ⟨s, hs, hrel⟩
      obtain ⟨t, rfl, ht⟩ := dropPrefix?_eq_some_iff.1 hs
      obtain ⟨u, rfl, hu⟩ := dropPrefix?_eq_some_iff.1 hrel
      rw [beq_iff_eq] at ht hu
      subst ht hu
      rfl
    · rintro rfl
      exact ⟨'/' :: rel, dropPrefix?_eq_some_iff.2 ⟨path, rfl, beq_self_eq_true _⟩,
        dropPrefix?_eq_some_iff.2 ⟨['/'], rfl, beq_self_eq_true _⟩⟩

lemma joinParts_append {path c rest : Str} :
    joinParts path (c ++ '/' :: rest) = joinParts path c ++ '/' :: rest := by
  unfold joinParts
  by_cases hp : path = []
  · rw [if_pos hp, if_pos hp]
  · rw [if_neg hp, if_neg hp, append_assoc, cons_append]

lemma part_ne_nil {path rel c : Str} (hv : validateFileName (joinParts path rel) = .ok ())
    (hc : c ∈ rel.splitOn '/') : c ≠ [] := by
  have hmem : c ∈ (joinParts path rel).splitOn '/' := by
    unfold joinParts
    by_cases hp : path = []
    · rwa [if_pos hp]
    · rw [if_neg hp, splitOn_append_cons_self]
      exact mem_append_right _ hc
  rintro rfl
  unfold validateFileName at hv
  split_ifs at hv
  split at hv
  · next hnone =>
    have := find?_eq_none.1 hnone [] hmem
    simp at this
  · split_ifs at hv

end Rows

/-! ### Listings -/

section Listings

variable {x : Externals} {db : RawDb} {τ : Type} {fromTimestamp : ℤ → ℕ → Option τ} {path : Str}

/-- What a row of the scan contributes to the listing of a directory, if anything. -/
def contribution (x : Externals) (fromTimestamp : ℤ → ℕ → Option τ) (path : Str) (r : Bytes × Bytes) :
    Except SnapshotError (Option (FsEntry τ)) :=
  match parseFileKey r.1 with
  | none => .ok none
  | some fullName =>
    match decodeLiveFileInfo x r.2 with
    | .error _ | .ok none => .ok none
    | .ok (some fi) =>
      match relativeUnder path fullName with
      | none => .ok none
      | some relative =>
        match firstPart relative with
        | some dirPart => .ok (some (.dir dirPart))
        | none => (fsEntryFromFileInfo fromTimestamp relative fi).map some

/-- A listing takes a contribution in, except for a directory that it has already. -/
def addEntry (entries : List (FsEntry τ)) (e : FsEntry τ) : List (FsEntry τ) :=
  if e.isDir && entries.any fun e' => e'.isDir && e'.name = e.name then entries else entries ++ [e]

variable {e : FsEntry τ} {fi : FileRecord} {name : Str} {r : Bytes × Bytes}

lemma fsEntryFromFileInfo_file
    (h : fsEntryFromFileInfo fromTimestamp name fi = .ok e) : e.isDir = false ∧ e.name = name := by
  unfold fsEntryFromFileInfo at h
  split at h
  · cases h
  · split_ifs at h
    cases h
    exact ⟨rfl, rfl⟩

lemma listRow_eq (entries : List (FsEntry τ)) (r : Bytes × Bytes) :
    listRow x fromTimestamp path entries r = (contribution x fromTimestamp path r).map fun o => match o with
      | none => entries
      | some e => addEntry entries e := by
  unfold listRow contribution
  cases parseFileKey r.1 with
  | none => rfl
  | some fullName =>
    cases decodeLiveFileInfo x r.2 with
    | error => rfl
    | ok o =>
      cases o with
      | none => rfl
      | some fi =>
        dsimp only
        cases relativeUnder path fullName with
        | none => rfl
        | some relative =>
          dsimp only
          cases firstPart relative with
          | some d =>
            show _ = Except.ok (addEntry entries (.dir d))
            unfold addEntry
            rw [apply_ite Except.ok]
            rfl
          | none =>
            dsimp only
            cases he : fsEntryFromFileInfo fromTimestamp relative fi with
            | error => rfl
            | ok e =>
              show _ = Except.ok (addEntry entries e)
              unfold addEntry
              rw [(fsEntryFromFileInfo_file he).1]
              rfl

lemma mem_addEntry {entries : List (FsEntry τ)} {e e' : FsEntry τ} :
    e' ∈ addEntry entries e ↔ e' ∈ entries ∨ e' = e := by
  unfold addEntry
  split_ifs with h
  · simp only [Bool.and_eq_true, any_eq_true, decide_eq_true_eq] at h
    obtain ⟨hd, e'', hm, hd'', hn⟩ := h
    have he : e'' = e := by
      cases e <;> cases e'' <;> simp_all [FsEntry.isDir, FsEntry.name]
    subst he
    constructor
    · exact .inl
    · rintro (h | rfl)
      · exact h
      · exact hm
  · simp

lemma nodup_addEntry {entries : List (FsEntry τ)} (hn : entries.Nodup)
    (he : e.isDir = false → e ∉ entries) : (addEntry entries e).Nodup := by
  unfold addEntry
  split_ifs with h
  · exact hn
  · refine List.Nodup.append hn (nodup_singleton e) ?_
    rw [disjoint_singleton]
    intro hm
    cases hd : e.isDir with
    | false => exact he hd hm
    | true =>
      refine h ?_
      simp only [hd, Bool.true_and, any_eq_true, Bool.and_eq_true, decide_eq_true_eq]
      exact ⟨e, hm, hd, rfl⟩

/-- A listing that succeeds holds the contributions of its rows. -/
lemma of_foldlM_listRow {rows : List (Bytes × Bytes)} {acc entries : List (FsEntry τ)}
    (h : rows.foldlM (listRow x fromTimestamp path) acc = .ok entries) :
    (∀ r ∈ rows, ∃ o, contribution x fromTimestamp path r = .ok o) ∧
      ∀ e, e ∈ entries ↔ e ∈ acc ∨ ∃ r ∈ rows, contribution x fromTimestamp path r = .ok (some e) := by
  induction rows generalizing acc with
  | nil =>
    cases h
    simp
  | cons r rows ih =>
    rw [foldlM_cons, listRow_eq] at h
    cases ho : contribution x fromTimestamp path r with
    | error =>
      rw [ho] at h
      cases h
    | ok o =>
      rw [ho] at h
      cases o with
      | none =>
        obtain ⟨hok, hmem⟩ := ih h
        exact ⟨forall_mem_cons.2 ⟨⟨_, ho⟩, hok⟩, fun e => by simp [hmem, ho]⟩
      | some e₀ =>
        obtain ⟨hok, hmem⟩ := ih h
        refine ⟨forall_mem_cons.2 ⟨⟨_, ho⟩, hok⟩, fun e => ?_⟩
        simp only [hmem, mem_addEntry, mem_cons, exists_eq_or_imp, ho, Except.ok.injEq, Option.some.injEq,
          @eq_comm _ e₀ e, or_assoc]

lemma exists_foldlM_listRow {rows : List (Bytes × Bytes)} {acc : List (FsEntry τ)}
    (hok : ∀ r ∈ rows, ∃ o, contribution x fromTimestamp path r = .ok o) (hacc : acc.Nodup)
    (hnew : ∀ r ∈ rows, ∀ e ∈ acc, e.isDir = false → contribution x fromTimestamp path r ≠ .ok (some e))
    (hrows : rows.Pairwise fun r r' => ∀ e, e.isDir = false →
      contribution x fromTimestamp path r = .ok (some e) → contribution x fromTimestamp path r' ≠ .ok (some e)) :
    ∃ entries, rows.foldlM (listRow x fromTimestamp path) acc = .ok entries ∧ entries.Nodup := by
  induction rows generalizing acc with
  | nil => exact ⟨acc, rfl, hacc⟩
  | cons r rows ih =>
    obtain ⟨hr, hrows⟩ := pairwise_cons.1 hrows
    obtain ⟨⟨o, ho⟩, hok⟩ := forall_mem_cons.1 hok
    obtain ⟨hnewr, hnew⟩ := forall_mem_cons.1 hnew
    rw [foldlM_cons, listRow_eq, ho]
    cases o with
    | none => exact ih hok hacc hnew hrows
    | some e₀ =>
      refine ih hok (nodup_addEntry hacc fun hd hm => hnewr e₀ hm hd ho) ?_ hrows
      intro r' hr' e hm hd
      rcases mem_addEntry.1 hm with hm | rfl
      · exact hnew r' hr' e hm hd
      · exact hr r' hr' e hd ho

lemma firstPart_append {c rest : Str} (hc : '/' ∉ c) : firstPart (c ++ '/' :: rest) = some c := by
  unfold firstPart
  have htake : (c ++ '/' :: rest).takeWhile (· ≠ '/') = c := by
    rw [takeWhile_append_of_pos]
    · simp
    · intro a ha
      have : a ≠ '/' := by
        rintro rfl
        exact hc ha
      simpa using this
  rw [if_pos (by simp), htake]

lemma part_or_append (rel : Str) : '/' ∉ rel ∨ ∃ c rest, '/' ∉ c ∧ rel = c ++ '/' :: rest := by
  by_cases h : '/' ∈ rel
  · obtain ⟨c, rest, rfl, hc⟩ := eq_append_cons_of_mem h
    exact .inr ⟨c, rest, hc, rfl⟩
  · exact .inl h

def Shown (x : Externals) (db : RawDb) (fromTimestamp : ℤ → ℕ → Option τ) (path : Str) : FsEntry τ → Prop
  | .dir c => '/' ∉ c ∧ LiveBelow x db (joinParts path c)
  | .file c size modified => '/' ∉ c ∧ ∃ fi, Entry x db (joinParts path c) fi ∧ fi.info.deleted = false ∧
      fsEntryFromFileInfo fromTimestamp c fi = .ok (.file c size modified)

section Row

variable {name raw : Bytes} {fi : FileRecord}

lemma contribution_fileKey {name : Str} (hv : validateFileName name = .ok ())
    (hfile : x.file raw = .ok (some fi)) : contribution x fromTimestamp path ((fileKey name).encode, raw) =
      if fi.info.deleted then .ok none else match relativeUnder path name with
        | none => .ok none
        | some relative =>
          match firstPart relative with
          | some c => .ok (some (.dir c))
          | none => (fsEntryFromFileInfo fromTimestamp relative fi).map some := by
  have hparse : parseFileKey (fileKey name).encode = some name := by
    rw [fileKey, parseFileKey_mn, joinName_splitName hv]
  unfold contribution
  rw [hparse, decodeLiveFileInfo_eq hfile]
  cases fi.info.deleted <;> rfl

lemma contribution_dir {c rest : Str} (hc : '/' ∉ c)
    (hv : validateFileName (joinParts path c ++ '/' :: rest) = .ok ()) (hfile : x.file raw = .ok (some fi))
    (hlive : fi.info.deleted = false) :
    contribution x fromTimestamp path ((fileKey (joinParts path c ++ '/' :: rest)).encode, raw) =
      .ok (some (.dir c)) := by
  rw [contribution_fileKey hv hfile, hlive, relativeUnder_eq_some.2 joinParts_append.symm]
  simp [firstPart_append hc]

lemma contribution_file {c : Str} (hc : '/' ∉ c) (hv : validateFileName (joinParts path c) = .ok ())
    (hfile : x.file raw = .ok (some fi)) (hlive : fi.info.deleted = false) :
    contribution x fromTimestamp path ((fileKey (joinParts path c)).encode, raw) =
      (fsEntryFromFileInfo fromTimestamp c fi).map some := by
  rw [contribution_fileKey hv hfile, hlive, relativeUnder_eq_some.2 rfl]
  simp [firstPart, hc]

end Row

lemma contribution_shown (hval : ValidContent x db) (hr : r ∈ db.rows) (hpre : FILE_PREFIX <+: r.1)
    (h : contribution x fromTimestamp path r = .ok (some e)) :
    Shown x db fromTimestamp path e ∧ (e.isDir = false → r.1 = (fileKey (joinParts path e.name)).encode) := by
  obtain ⟨key, raw⟩ := r
  obtain ⟨name, fi, hkey, hv, hfile⟩ := hval _ hr hpre
  dsimp only at hkey hfile
  subst hkey
  have hentry : Entry x db name fi := ⟨hv, raw, hr, hfile⟩
  rw [contribution_fileKey hv hfile] at h
  cases hlive : fi.info.deleted with
  | true => simp [hlive] at h
  | false =>
    cases hrel : relativeUnder path name with
    | none => simp [hlive, hrel] at h
    | some rel =>
      obtain rfl := relativeUnder_eq_some.1 hrel
      rcases part_or_append rel with hc | ⟨c, rest, hc, rfl⟩
      · have hf : (fsEntryFromFileInfo fromTimestamp rel fi).map some = .ok (some e) := by
          simpa [hlive, hrel, firstPart, hc] using h
        obtain ⟨e', he, hsome⟩ := map_eq_ok.1 hf
        cases hsome
        obtain ⟨hd, hn⟩ := fsEntryFromFileInfo_file he
        cases e with
        | dir => cases hd
        | file c =>
          obtain rfl : c = rel := hn
          exact ⟨⟨hc, fi, hentry, hlive, he⟩, fun _ => rfl⟩
      · have hd : FsEntry.dir c = e := by
          simpa [hlive, hrel, firstPart_append hc] using h
        subst hd
        refine ⟨⟨hc, rest, fi, ?_, hlive⟩, fun h => by cases h⟩
        rwa [← joinParts_append]

lemma mem_scan_readDirPrefix (rel : Str) (hr : r ∈ db.rows) (hkey : r.1 = (fileKey (joinParts path rel)).encode)
    (hv : validateFileName (joinParts path rel) = .ok ()) : r ∈ db.scanPrefix (readDirPrefix path) := by
  rw [RawDb.mem_scanPrefix]
  refine ⟨hr, ?_⟩
  rw [hkey]
  unfold readDirPrefix
  by_cases hp : path = []
  · rw [if_pos hp]
    exact prefix_append _ _
  · rw [if_neg hp]
    refine prefix_fileKey_of_name hp hv ⟨rel, ?_⟩
    rw [joinParts, if_neg hp, append_assoc]
    rfl

lemma exists_contribution (h : Shown x db fromTimestamp path e) :
    ∃ r ∈ db.scanPrefix (readDirPrefix path), contribution x fromTimestamp path r = .ok (some e) := by
  cases e with
  | dir c =>
    obtain ⟨hc, rest, fi, ⟨hv, raw, hr, hfile⟩, hlive⟩ := h
    refine ⟨_, mem_scan_readDirPrefix (c ++ '/' :: rest) hr ?_ ?_, contribution_dir hc hv hfile hlive⟩
    · rw [joinParts_append]
    · rwa [joinParts_append]
  | file c =>
    obtain ⟨hc, fi, ⟨hv, raw, hr, hfile⟩, hlive, he⟩ := h
    refine ⟨_, mem_scan_readDirPrefix c hr rfl hv, ?_⟩
    rw [contribution_file hc hv hfile hlive, he]
    rfl

lemma prefix_of_mem_scan (hr : r ∈ db.scanPrefix (readDirPrefix path)) : r ∈ db.rows ∧ FILE_PREFIX <+: r.1 := by
  obtain ⟨hr, hp⟩ := RawDb.mem_scanPrefix.1 hr
  refine ⟨hr, List.IsPrefix.trans ?_ hp⟩
  unfold readDirPrefix
  split_ifs
  · exact prefix_rfl
  · rw [append_assoc]
    exact prefix_append _ _

lemma fsEntryFromFileInfo_eq_ok {c : Str} : (∃ e, fsEntryFromFileInfo fromTimestamp c fi = .ok e) ↔
    0 ≤ fi.info.size ∧ ∃ t, fromTimestamp fi.modifiedS (max fi.modifiedNs 0).toNat = some t := by
  unfold fsEntryFromFileInfo
  cases fromTimestamp fi.modifiedS (max fi.modifiedNs 0).toNat with
  | none => simp
  | some => by_cases hsize : fi.info.size < 0 <;> simp [hsize, not_le.2, not_lt.1]

lemma PlainTree.exists_file {c : Str} (h : PlainTree x db fromTimestamp path) (hc : IsPart c)
    (he : Entry x db (joinParts path c) fi) (hlive : fi.info.deleted = false) :
    ∃ size modified, fsEntryFromFileInfo fromTimestamp c fi = .ok (.file c size modified) := by
  obtain ⟨e, hok⟩ := fsEntryFromFileInfo_eq_ok.2 (h.readable c fi hc he hlive)
  obtain ⟨hd, hn⟩ := fsEntryFromFileInfo_file hok
  cases e with
  | dir => cases hd
  | file c' size modified =>
    obtain rfl : c' = c := hn
    exact ⟨size, modified, hok⟩

lemma isPart_of_entry {c : Str} (hc : '/' ∉ c) (hv : validateFileName (joinParts path c) = .ok ()) : IsPart c := by
  refine ⟨part_ne_nil hv ?_, hc⟩
  rw [splitOn_eq_singleton hc]
  exact mem_cons_self

lemma exists_contribution_eq_ok (hval : ValidContent x db) (hplain : PlainTree x db fromTimestamp path)
    (hr : r ∈ db.rows) (hp : FILE_PREFIX <+: r.1) : ∃ o, contribution x fromTimestamp path r = .ok o := by
  obtain ⟨key, raw⟩ := r
  obtain ⟨name, fi, hkey, hv, hfile⟩ := hval _ hr hp
  dsimp only at hkey hfile
  subst hkey
  rw [contribution_fileKey hv hfile]
  cases hlive : fi.info.deleted with
  | true => exact ⟨none, rfl⟩
  | false =>
    simp only [Bool.false_eq_true, if_false]
    cases hrel : relativeUnder path name with
    | none => exact ⟨none, rfl⟩
    | some rel =>
      obtain rfl := relativeUnder_eq_some.1 hrel
      dsimp only
      rcases part_or_append rel with hc | ⟨c, rest, hc, rfl⟩
      · obtain ⟨size, t, he⟩ := hplain.exists_file (isPart_of_entry hc hv) ⟨hv, raw, hr, hfile⟩ hlive
        refine ⟨some (.file rel size t), ?_⟩
        simp only [firstPart, hc, if_false, he]
        rfl
      · exact ⟨some (.dir c), by rw [firstPart_append hc]⟩

/-- **A listing holds what the tree shows.** -/
lemma mem_readDir (hval : ValidContent x db) {entries : List (FsEntry τ)}
    (h : readDir x fromTimestamp db path = .ok entries) : e ∈ entries ↔ Shown x db fromTimestamp path e := by
  rw [(of_foldlM_listRow h).2]
  constructor
  · rintro (h | ⟨r, hr, h⟩)
    · cases h
    · obtain ⟨hr, hp⟩ := prefix_of_mem_scan hr
      exact (contribution_shown hval hr hp h).1
  · intro h
    exact .inr (exists_contribution h)

lemma exists_readDir (hval : ValidContent x db) (hplain : PlainTree x db fromTimestamp path) :
    ∃ entries, readDir x fromTimestamp db path = .ok entries ∧ entries.Nodup := by
  refine exists_foldlM_listRow ?_ nodup_nil (by simp) ?_
  · intro r hr
    obtain ⟨hr, hp⟩ := prefix_of_mem_scan hr
    exact exists_contribution_eq_ok hval hplain hr hp
  · refine List.Pairwise.imp_of_mem ?_ (db.sorted.sublist filter_sublist)
    intro r r' hr hr' hlt e hd he he'
    -- two rows of one file entry have one key
    obtain ⟨hr, hp⟩ := prefix_of_mem_scan hr
    obtain ⟨hr', hp'⟩ := prefix_of_mem_scan hr'
    have hkey := (contribution_shown hval hr hp he).2 hd
    have hkey' := (contribution_shown hval hr' hp' he').2 hd
    rw [keyLt, hkey, hkey'] at hlt
    exact List.lt_irrefl _ hlt

lemma Entry.unique {fi fi' : FileRecord} (h : Entry x db name fi) (h' : Entry x db name fi') : fi = fi' := by
  obtain ⟨-, raw, hr, hfile⟩ := h
  obtain ⟨-, raw', hr', hfile'⟩ := h'
  have hraw : raw = raw' := by
    have hget := RawDb.get_eq_some_iff.2 hr
    rw [RawDb.get_eq_some_iff.2 hr', Option.some_inj] at hget
    exact hget.symm
  subst hraw
  rw [hfile] at hfile'
  cases hfile'
  rfl

lemma Shown.isPart (h : Shown x db fromTimestamp path e) : IsPart e.name := by
  cases e with
  | dir =>
    obtain ⟨hc, rest, fi, ⟨hv, -⟩, -⟩ := h
    rw [← joinParts_append] at hv
    refine ⟨part_ne_nil hv ?_, hc⟩
    rw [splitOn_append_cons_self_of_not_mem hc]
    exact mem_cons_self
  | file =>
    obtain ⟨hc, fi, ⟨hv, -⟩, -⟩ := h
    exact isPart_of_entry hc hv

lemma Shown.unique (hplain : PlainTree x db fromTimestamp path) {e e' : FsEntry τ}
    (h : Shown x db fromTimestamp path e) (h' : Shown x db fromTimestamp path e') (hn : e.name = e'.name) :
    e = e' := by
  cases e with
  | dir c =>
    cases e' with
    | dir => exact congrArg FsEntry.dir hn
    | file c' =>
      obtain rfl : c = c' := hn
      obtain ⟨-, fi, hfi, -⟩ := h'
      exact absurd h.2 (hplain.noneBelow c fi h.isPart hfi)
  | file c =>
    cases e' with
    | dir c' =>
      obtain rfl : c = c' := hn
      obtain ⟨-, fi, hfi, -⟩ := h
      exact absurd h'.2 (hplain.noneBelow c fi h'.isPart hfi)
    | file c' =>
      obtain rfl : c = c' := hn
      obtain ⟨-, fi, hfi, -, he⟩ := h
      obtain ⟨-, fi', hfi', -, he'⟩ := h'
      rw [hfi.unique hfi', he'] at he
      cases he
      rfl

/-! ### Metadata -/

variable {c : Str}

lemma joinParts_ne_nil (hc : IsPart c) : joinParts path c ≠ [] := by
  unfold joinParts
  split_ifs
  · exact hc.1
  · simp

lemma getLast?_joinParts (hc : IsPart c) : (joinParts path c).getLast? ≠ some '/' := by
  have hlast : (joinParts path c).getLast? = c.getLast? := by
    unfold joinParts
    split_ifs
    · rfl
    · obtain ⟨a, l, rfl⟩ := exists_cons_of_ne_nil hc.1
      rw [getLast?_append_cons, getLast?_cons_cons]
  rw [hlast]
  intro h
  exact hc.2 (mem_of_getLast? h)

lemma Entry.exists_get (h : Entry x db name fi) :
    ∃ raw, db.get (fileKey name).encode = some raw ∧ x.file raw = .ok (some fi) := by
  obtain ⟨-, raw, hr, hfile⟩ := h
  exact ⟨raw, RawDb.get_eq_some_iff.2 hr, hfile⟩

lemma exists_entry_of_get (hval : ValidContent x db) (hc : IsPart c) {raw : Bytes}
    (h : db.get (fileKey (joinParts path c)).encode = some raw) : ∃ fi, Entry x db (joinParts path c) fi := by
  have hr := RawDb.get_eq_some_iff.1 h
  obtain ⟨name, fi, hkey, hv, hfile⟩ := hval _ hr (prefix_append _ _)
  obtain rfl := eq_joinParts_of_key hc.2 hv hkey
  exact ⟨fi, hv, raw, hr, hfile⟩

lemma scanPrefix_eq_nil_iff (hval : ValidContent x db) (hc : IsPart c) :
    db.scanPrefix (FILE_PREFIX ++ utf8 (joinParts path c) ++ [47]) = [] ↔
      ¬ ∃ rest fi, Entry x db (joinParts path c ++ '/' :: rest) fi := by
  rw [eq_nil_iff_forall_not_mem, ← not_exists, not_iff_not]
  constructor
  · rintro ⟨⟨key, raw⟩, hr⟩
    obtain ⟨hr, hp⟩ := RawDb.mem_scanPrefix.1 hr
    have htag : FILE_PREFIX <+: key := by
      refine List.IsPrefix.trans ?_ hp
      rw [append_assoc]
      exact prefix_append _ _
    obtain ⟨name, fi, hkey, hv, hfile⟩ := hval _ hr htag
    dsimp only at hkey hp
    subst hkey
    obtain ⟨rest, rfl⟩ := prefix_name_of_fileKey (joinParts_ne_nil hc) (getLast?_joinParts hc) hv hp
    rw [append_assoc] at hv hr
    exact ⟨rest, fi, hv, raw, hr, hfile⟩
  · rintro ⟨rest, fi, hv, raw, hr, hfile⟩
    refine ⟨_, RawDb.mem_scanPrefix.2 ⟨hr, prefix_fileKey_of_name (joinParts_ne_nil hc) hv ⟨rest, ?_⟩⟩⟩
    rw [append_assoc]
    rfl

lemma fileMetadata_of_entry (hc : IsPart c) (hfi : Entry x db (joinParts path c) fi) :
    fileMetadata x fromTimestamp db (joinParts path c) =
      if fi.info.deleted then .error .notFound else fsEntryFromFileInfo fromTimestamp c fi := by
  obtain ⟨raw, hget, hfile⟩ := hfi.exists_get
  unfold fileMetadata
  rw [hget, splitName_joinParts hc.2]
  simp only [decodeLiveFileInfo_eq hfile]
  cases fi.info.deleted <;> rfl

section

variable (hval : ValidContent x db)
include hval

lemma fileMetadata_of_not_entry (hc : IsPart c) (hown : ¬ ∃ fi, Entry x db (joinParts path c) fi) :
    fileMetadata x fromTimestamp db (joinParts path c) = .ok e ↔
      e = .dir c ∧ ∃ rest fi, Entry x db (joinParts path c ++ '/' :: rest) fi := by
  have hget : db.get (fileKey (joinParts path c)).encode = none := by
    cases h : db.get (fileKey (joinParts path c)).encode with
    | none => rfl
    | some => exact absurd (exists_entry_of_get hval hc h) hown
  have hscan : db.scanPrefix (FILE_PREFIX ++ utf8 (joinParts path c) ++ [47]) = [] ↔
      ¬ ∃ rest fi, Entry x db (joinParts path c ++ '/' :: rest) fi := scanPrefix_eq_nil_iff hval hc
  unfold fileMetadata
  rw [hget, splitName_joinParts hc.2]
  cases h : db.scanPrefix (FILE_PREFIX ++ utf8 (joinParts path c) ++ [47]) with
  | nil => simp [hscan.1 h]
  | cons =>
    have hbelow : ∃ rest fi, Entry x db (joinParts path c ++ '/' :: rest) fi := by
      rw [h] at hscan
      simpa using hscan
    simp [hbelow, eq_comm]

/-- **`file_metadata` returns what the tree shows for the name.** -/
lemma fileMetadata_eq_ok_iff (hplain : PlainTree x db fromTimestamp path) (hc : IsPart c) :
    fileMetadata x fromTimestamp db (joinParts path c) = .ok e ↔
      Shown x db fromTimestamp path e ∧ e.name = c := by
  by_cases hown : ∃ fi, Entry x db (joinParts path c) fi
  · obtain ⟨fi, hfi⟩ := hown
    rw [fileMetadata_of_entry hc hfi]
    cases hlive : fi.info.deleted with
    | true =>
      -- neither a file, since the entry is deleted, nor a directory, since nothing live lies below it
      simp only [if_true, reduceCtorEq, false_iff, not_and]
      rintro h rfl
      cases e with
      | dir c => exact hplain.noneBelow c fi hc hfi h.2
      | file =>
        obtain ⟨-, fi', hfi', hlive', -⟩ := h
        obtain rfl := hfi.unique hfi'
        rw [hlive] at hlive'
        cases hlive'
    | false =>
      obtain ⟨size, t, he⟩ := hplain.exists_file hc hfi hlive
      have hshown : Shown x db fromTimestamp path (.file c size t) := ⟨hc.2, fi, hfi, hlive, he⟩
      simp only [Bool.false_eq_true, if_false, he, Except.ok.injEq]
      constructor
      · rintro rfl
        exact ⟨hshown, rfl⟩
      · rintro ⟨h, hn⟩
        exact hshown.unique hplain h hn.symm
  · rw [fileMetadata_of_not_entry hval hc hown]
    constructor
    · rintro ⟨rfl, rest, fi, hfi⟩
      exact ⟨⟨hc.2, (hplain.someLive c rest fi hc hfi).resolve_right hown⟩, rfl⟩
    · rintro ⟨h, rfl⟩
      cases e with
      | dir =>
        obtain ⟨-, rest, fi, hfi, -⟩ := h
        exact ⟨rfl, rest, fi, hfi⟩
      | file =>
        obtain ⟨-, fi, hfi, -⟩ := h
        exact absurd ⟨fi, hfi⟩ hown

lemma PlainTree.showsTree (hplain : PlainTree x db fromTimestamp path) {entries : List (FsEntry τ)}
    (he : readDir x fromTimestamp db path = .ok entries) (hn : entries.Nodup) :
    ShowsTree x db fromTimestamp path entries := by
  have hmem : ∀ e, e ∈ entries ↔ Shown x db fromTimestamp path e := fun e => mem_readDir hval he
  refine ⟨?_, ?_, ?_, ?_, ?_, ?_⟩
  · intro e hm
    exact ((hmem e).1 hm).isPart
  · refine List.Nodup.map_on ?_ hn
    intro e hm e' hm' hname
    exact ((hmem e).1 hm).unique hplain ((hmem e').1 hm') hname
  · intro c hc
    rw [mem_map]
    constructor
    · rintro ⟨e, hm, rfl⟩
      cases e with
      | dir => exact .inr ((hmem _).1 hm).2
      | file =>
        obtain ⟨-, fi, hfi, hlive, -⟩ := (hmem _).1 hm
        exact .inl ⟨fi, hfi, hlive⟩
    · rintro (⟨fi, hfi, hlive⟩ | h)
      · obtain ⟨size, t, he⟩ := hplain.exists_file hc hfi hlive
        exact ⟨.file c size t, (hmem _).2 ⟨hc.2, fi, hfi, hlive, he⟩, rfl⟩
      · exact ⟨.dir c, (hmem _).2 ⟨hc.2, h⟩, rfl⟩
  · intro e hm
    have hshown := (hmem e).1 hm
    cases e with
    | dir => exact ⟨fun _ => .inr hshown.2, fun _ => rfl⟩
    | file c =>
      obtain ⟨-, fi, hfi, -⟩ := id hshown
      constructor
      · intro h
        cases h
      · rintro (h | h)
        · exact absurd h (hplain.noDirectory c hshown.isPart)
        · exact absurd h (hplain.noneBelow c fi hshown.isPart hfi)
  · intro c hc
    simp only [fileMetadata_eq_ok_iff hval hplain hc, ← hmem, mem_map]
  · intro e hm e' he'
    obtain ⟨h, hname⟩ := (fileMetadata_eq_ok_iff hval hplain ((hmem e).1 hm).isPart).1 he'
    rw [h.unique hplain ((hmem e).1 hm) hname]

/-- A listing that shows the tree has plain children. -/
lemma ShowsTree.plainTree {entries : List (FsEntry τ)} (he : readDir x fromTimestamp db path = .ok entries)
    (h : ShowsTree x db fromTimestamp path entries) : PlainTree x db fromTimestamp path := by
  have hread : ∀ c fi, IsPart c → Entry x db (joinParts path c) fi → fi.info.deleted = false →
      ∃ e, fsEntryFromFileInfo fromTimestamp c fi = .ok e := by
    rintro c fi hc ⟨hv, raw, hr, hfile⟩ hlive
    obtain ⟨o, ho⟩ := (of_foldlM_listRow he).1 _ (mem_scan_readDirPrefix c hr rfl hv)
    rw [contribution_file hc.2 hv hfile hlive] at ho
    obtain ⟨e, hok, -⟩ := map_eq_ok.1 ho
    exact ⟨e, hok⟩
  -- a live entry of a child is listed as a file, and so it is to be neither a directory nor above a live entry
  have hfile : ∀ c fi, IsPart c → Entry x db (joinParts path c) fi → fi.info.deleted = false →
      ¬ (LiveDirectory x db (joinParts path c) ∨ LiveBelow x db (joinParts path c)) := by
    intro c fi hc hfi hlive hdir
    obtain ⟨e, hok⟩ := hread c fi hc hfi hlive
    obtain ⟨hd, hn⟩ := fsEntryFromFileInfo_file hok
    cases e with
    | dir => cases hd
    | file c' size modified =>
      obtain rfl : c' = c := hn
      have hm : .file c' size modified ∈ entries := (mem_readDir hval he).2 ⟨hc.2, fi, hfi, hlive, hok⟩
      have hkind := (h.kind _ hm).2 hdir
      cases hkind
  refine ⟨?_, ?_, ?_, ?_⟩
  · intro c fi hc hfi hlive
    exact fsEntryFromFileInfo_eq_ok.1 (hread c fi hc hfi hlive)
  · rintro c hc ⟨fi, hfi, hlive, hdir⟩
    exact hfile c fi hc hfi hlive (.inl ⟨fi, hfi, hlive, hdir⟩)
  · intro c fi hc hfi hbelow
    cases hlive : fi.info.deleted with
    | false => exact hfile c fi hc hfi hlive (.inr hbelow)
    | true =>
      -- listed for what lies below it, but not found, since its own entry is deleted
      obtain ⟨e, hfound⟩ := (h.found c hc).2 ((h.listed c hc).2 (.inr hbelow))
      rw [fileMetadata_of_entry hc hfi, hlive] at hfound
      cases hfound
  · intro c rest fi hc hfi
    by_cases hown : ∃ fi', Entry x db (joinParts path c) fi'
    · exact .inr hown
    · have hfound : fileMetadata x fromTimestamp db (joinParts path c) = .ok (.dir c) :=
        (fileMetadata_of_not_entry hval hc hown).2 ⟨rfl, rest, fi, hfi⟩
      rcases (h.listed c hc).1 ((h.found c hc).1 ⟨_, hfound⟩) with ⟨fi', hfi', -⟩ | hbelow
      · exact absurd ⟨fi', hfi'⟩ hown
      · exact .inl hbelow

end

/-- **When listings and metadata show the tree**: if and only if the children of the path are plain. -/
theorem readDir_showsTree_iff (hval : ValidContent x db) (path : Str) :
    (∃ entries, readDir x fromTimestamp db path = .ok entries ∧ ShowsTree x db fromTimestamp path entries) ↔
      PlainTree x db fromTimestamp path := by
  constructor
  · rintro ⟨entries, he, h⟩
    exact h.plainTree hval he
  · intro hplain
    obtain ⟨entries, he, hn⟩ := exists_readDir hval hplain
    exact ⟨entries, he, hplain.showsTree hval he hn⟩

end Listings

/-! ### Contents with and without directory entries -/

section Samples

def emptyRecord (type : ℤ) : FileRecord where
  info := { name := [], size := 0, version := none, sequence := 1, type := type, deleted := false, blocks := [] }
  modifiedS := 0
  modifiedNs := 0

/-- Every row with the value `[1]` holds this record. -/
abbrev onlyRecord (fi : FileRecord) : Externals := Externals.knowing [([1], fi)]

abbrev everyTime : ℤ → ℕ → Option (ℤ × ℕ) := fun s ns => some (s, ns)

def directoryContent : RawDb := ⟨[((fileKey ['d']).encode, [1])], by decide⟩

/-- **An announced directory is reported as a file.** -/
theorem readDir_not_showsTree :
    ValidContent (onlyRecord (emptyRecord 2)) directoryContent ∧
      ¬ ∃ entries, readDir (onlyRecord (emptyRecord 2)) everyTime directoryContent [] = .ok entries ∧
        ShowsTree (onlyRecord (emptyRecord 2)) directoryContent everyTime [] entries := by
  have hentry : Entry (onlyRecord (emptyRecord 2)) directoryContent ['d'] (emptyRecord 2) :=
    ⟨rfl, [1], mem_cons_self, rfl⟩
  have hpart : IsPart ['d'] := by simp [IsPart]
  constructor
  · intro r hr _
    obtain rfl := mem_singleton.1 hr
    exact ⟨['d'], emptyRecord 2, rfl, rfl, rfl⟩
  · rintro ⟨entries, -, h⟩
    have hlisted := (h.listed ['d'] hpart).2 (.inl ⟨emptyRecord 2, hentry, rfl⟩)
    obtain ⟨e, he, hname⟩ := mem_map.1 hlisted
    have hdir : e.isDir = true := (h.kind e he).2 (.inl ⟨emptyRecord 2, by rwa [hname], rfl, rfl⟩)
    have hmeta := h.same e he (.file ['d'] 0 (0, 0)) (by rw [hname]; rfl)
    rw [hdir] at hmeta
    cases hmeta

abbrev bothRecords : Externals := Externals.knowing [([1], emptyRecord 1), ([2], emptyRecord 2)]

/-- Two files, and a directory that is not a child of the root. -/
def plainContent : RawDb :=
  ⟨[((fileKey ['a']).encode, [1]), ((fileKey ['d', '/', 'f']).encode, [1]),
    ((fileKey ['x', '/', 'd']).encode, [2])], by decide⟩

lemma plainContent_valid : ValidContent bothRecords plainContent := by
  intro r hr _
  simp only [plainContent, mem_cons, not_mem_nil, or_false] at hr
  rcases hr with rfl | rfl | rfl
  · exact ⟨['a'], emptyRecord 1, rfl, rfl, rfl⟩
  · exact ⟨['d', '/', 'f'], emptyRecord 1, rfl, rfl, rfl⟩
  · exact ⟨['x', '/', 'd'], emptyRecord 2, rfl, rfl, rfl⟩

lemma entry_plainContent {name : Str} {fi : FileRecord} (h : Entry bothRecords plainContent name fi) :
    name = ['a'] ∧ fi = emptyRecord 1 ∨ name = ['d', '/', 'f'] ∧ fi = emptyRecord 1 ∨
      name = ['x', '/', 'd'] ∧ fi = emptyRecord 2 := by
  obtain ⟨hv, raw, hr, hfile⟩ := h
  have hname : ∀ n, validateFileName n = .ok () → (fileKey name).encode = (fileKey n).encode → name = n :=
    fun n hn he => splitName_inj hv hn (Path.encode_injective (append_cancel_left he))
  simp only [plainContent, mem_cons, not_mem_nil, or_false, Prod.mk.injEq] at hr
  rcases hr with ⟨hk, rfl⟩ | ⟨hk, rfl⟩ | ⟨hk, rfl⟩ <;> cases hfile
  · exact .inl ⟨hname _ rfl hk, rfl⟩
  · exact .inr (.inl ⟨hname _ rfl hk, rfl⟩)
  · exact .inr (.inr ⟨hname _ rfl hk, rfl⟩)

/-- The only child of the root with an entry of its own is `a`. -/
lemma plainContent_child {c : Str} {fi : FileRecord} (hc : IsPart c)
    (h : Entry bothRecords plainContent (joinParts [] c) fi) : c = ['a'] ∧ fi = emptyRecord 1 := by
  have hslash := hc.2
  rcases entry_plainContent h with h | ⟨rfl, -⟩ | ⟨rfl, -⟩
  · exact h
  · simp at hslash
  · simp at hslash

theorem readDir_plainContent :
    ∃ entries, readDir bothRecords everyTime plainContent [] = .ok entries ∧
      ShowsTree bothRecords plainContent everyTime [] entries := by
  refine (readDir_showsTree_iff plainContent_valid []).2 ⟨?_, ?_, ?_, ?_⟩
  · intro c fi hc h _
    rw [(plainContent_child hc h).2]
    exact ⟨le_rfl, _, rfl⟩
  · rintro c hc ⟨fi, h, -, hdir⟩
    rw [(plainContent_child hc h).2] at hdir
    exact absurd hdir (by simp [FileRecord.IsDirectory, emptyRecord])
  · rintro c fi hc h ⟨rest, fi', h', -⟩
    rw [(plainContent_child hc h).1] at h'
    rcases entry_plainContent h' with ⟨h', -⟩ | ⟨h', -⟩ | ⟨h', -⟩ <;> simp [joinParts] at h'
  · intro c rest fi _ h
    refine .inl ⟨rest, fi, h, ?_⟩
    rcases entry_plainContent h with ⟨-, rfl⟩ | ⟨-, rfl⟩ | ⟨-, rfl⟩ <;> rfl

end Samples

end Bepository.Storage
