import Bepository.Storage.SnapshotTree

/-!
# The WebDAV view of the snapshots (`bepository-dav/src/lib.rs`)

The root lists the labels of the folders, a folder lists the times of its snapshots to the minute, and a path
is read back by its parts.  The snapshots are fetched once; what is below a snapshot is left to `SnapshotFs`.

What the libraries do with names is a parameter: `chrono` formats a time, and `dav-server` makes a path of a
URL.
-/

namespace Bepository.Dav

open Lib Storage List

/-! ### Paths -/

/-- The libraries: `format` is `DateTime::format` with `TIMESTAMP_FMT`, and `carries` says which names can be a
component of a `DavPath`.  A component is a part between slashes, and `DavPath` is normalised: there is no
traversal in it.  A formatted time is such a name: digits, hyphens, a `T` and perhaps a sign. -/
structure Names (τ : Type) where
  format : τ → Str
  carries : Str → Bool
  part : ∀ c, carries c = true → IsPart c
  normal : ∀ c, carries c = true → c ≠ ['.'] ∧ c ≠ ['.', '.']
  formatted : ∀ t, carries (format t) = true

/-- `DavPath`, by its components.  The URL may have ended with slashes. -/
structure DavPath {τ : Type} (x : Names τ) where
  components : List Str
  carried : ∀ c ∈ components, x.carries c = true
  slashes : ℕ

/-- `as_rel_ospath`, as text. -/
def DavPath.rel {τ : Type} {x : Names τ} (p : DavPath x) : Str :=
  List.intercalate ['/'] p.components ++ List.replicate p.slashes '/'

/-- `SnapshotRef`. -/
structure SnapshotRef (R τ : Type) where
  folderLabel : R → Str
  createTime : R → τ

/-- `Level`. -/
inductive Level (R : Type) where
  | root
  | folder (label : Str)
  | snapshot (snap : R)
  | subPath (snap : R) (subpath : Str)

/-! ### Reading and listing -/

/-- `FsError`, of `dav-server`. -/
inductive FsError where
  | notFound
  | forbidden
  | generalFailure
  deriving DecidableEq

/-- `SnapshotDirEntry` with its `EntryMeta`; a time of `none` is the time of the request. -/
structure DirEntry (τ : Type) where
  name : Str
  size : ℕ
  modified : Option τ
  isDir : Bool

def dirEntry {τ : Type} (name : Str) (modified : Option τ) : DirEntry τ := ⟨name, 0, modified, true⟩

/-- `fs_entries_to_dav`, for one entry. -/
def fsEntryToDav {τ : Type} : FsEntry τ → DirEntry τ
  | .file name size modified => ⟨name, size, some modified, false⟩
  | .dir name => dirEntry name none

def mapSnapErr : SnapshotError → FsError
  | .notFound => .notFound
  | .notADir => .forbidden
  | .notAFile => .forbidden
  | .io _ => .generalFailure

section View

variable {R τ : Type} (x : Names τ) (ref : SnapshotRef R τ)

def snapDirName (snap : R) : Str := x.format (ref.createTime snap)

/-- `parse_path`, from the text of the path on. -/
def parseRel (snapshots : List R) (path : Str) : Option (Level R) :=
  let trimmed := trimMatches '/' path
  if trimmed = [] then some .root
  else
    match splitn '/' 3 trimmed with
    | [] => none
    | [label] => if snapshots.any (fun s => ref.folderLabel s = label) then some (.folder label) else none
    | label :: ts :: rest =>
      match snapshots.find? fun s => ref.folderLabel s = label ∧ snapDirName x ref s = ts with
      | none => none
      | some snap =>
        let subpath := rest.headD []
        if subpath = [] then some (.snapshot snap) else some (.subPath snap subpath)

def parsePath (snapshots : List R) (p : DavPath x) : Option (Level R) := parseRel x ref snapshots p.rel

/-- The filter of the root's listing: the first snapshot of each label. -/
def unseen (seen : List Str) : List R → List R
  | [] => []
  | s :: snapshots =>
    if seen.contains (ref.folderLabel s) then unseen seen snapshots
    else s :: unseen (ref.folderLabel s :: seen) snapshots

/-- `read_dir`.  `content` is `SnapshotFs::read_dir`. -/
def readDir (content : R → Str → Except SnapshotError (List (FsEntry τ))) (snapshots : List R) (p : DavPath x) :
    Except FsError (List (DirEntry τ)) :=
  match parsePath x ref snapshots p with
  | none => .error .notFound
  | some .root => .ok ((unseen ref [] snapshots).map fun s => dirEntry (ref.folderLabel s) none)
  | some (.folder label) =>
    .ok ((snapshots.filter fun s => ref.folderLabel s = label).map fun s =>
      dirEntry (snapDirName x ref s) (some (ref.createTime s)))
  | some (.snapshot snap) => ((content snap []).mapError mapSnapErr).map fun es => es.map fsEntryToDav
  | some (.subPath snap subpath) => ((content snap subpath).mapError mapSnapErr).map fun es => es.map fsEntryToDav

/-! ### What a client sees -/

variable (content : R → Str → Except SnapshotError (List (FsEntry τ))) (snapshots : List R)

def Lists (components names : List Str) : Prop :=
  ∃ p : DavPath x, p.components = components ∧
    ∃ es, readDir x ref content snapshots p = .ok es ∧ es.map DirEntry.name = names

def Leads (components : List Str) (level : Level R) : Prop :=
  ∃ p : DavPath x, p.components = components ∧ parsePath x ref snapshots p = some level

/-- The listings of the root and of the folders have no name twice, each path of a folder and a snapshot in them
resolves, and every snapshot is at the end of one of them. -/
structure Browsable (labels : List Str) : Prop where
  root : Lists x ref content snapshots [] labels
  distinct : labels.Nodup
  folder : ∀ label ∈ labels, ∃ names, Lists x ref content snapshots [label] names ∧ names.Nodup ∧
    ∀ name ∈ names, ∃ level, Leads x ref snapshots [label, name] level
  reached : ∀ snap ∈ snapshots, ∃ label ∈ labels, ∃ names, Lists x ref content snapshots [label] names ∧
    ∃ name ∈ names, Leads x ref snapshots [label, name] (.snapshot snap)

end View

/-! ### What the paths of a client read as -/

section Reading

variable {R τ : Type} {x : Names τ} {ref : SnapshotRef R τ} {content : R → Str → Except SnapshotError (List (FsEntry τ))}
  {snapshots : List R} {a b label name : Str} {names : List Str} {level : Level R}

lemma trim_parts (ha : IsPart a) (hb : IsPart b) (n : ℕ) : trimMatches '/' (a ++ List.replicate n '/') = a ∧
      trimMatches '/' ((a ++ '/' :: b) ++ List.replicate n '/') = a ++ '/' :: b := by
  have hend : ∀ c, (hc : IsPart c) → c.head hc.1 ≠ '/' ∧ c.getLast hc.1 ≠ '/' := by
    intro c hc
    exact ⟨fun h => hc.2 (h ▸ head_mem hc.1), fun h => hc.2 (h ▸ getLast_mem hc.1)⟩
  refine ⟨trimMatches_append ha.1 (hend a ha).1 (hend a ha).2 n, ?_⟩
  refine trimMatches_append (by simp) ?_ ?_ n
  · rw [head_append_of_ne_nil ha.1]
    exact (hend a ha).1
  · rw [getLast_append_of_ne_nil _ (cons_ne_nil _ _), getLast_cons hb.1]
    exact (hend b hb).2

lemma parseRel_root (n : ℕ) : parseRel x ref snapshots (List.replicate n '/') = some .root := by
  have htrim : trimMatches '/' (List.replicate n '/') = [] := by
    have hdrop : (List.replicate n '/').dropWhile (· = '/') = [] := by
      rw [dropWhile_eq_nil_iff]
      exact fun y hy => decide_eq_true (eq_of_mem_replicate hy)
    unfold trimMatches
    rw [hdrop]
    rfl
  simp only [parseRel, htrim, if_true]

lemma parseRel_folder (ha : IsPart a) (n : ℕ) : parseRel x ref snapshots (a ++ List.replicate n '/') =
      if snapshots.any (fun s => ref.folderLabel s = a) then some (.folder a) else none := by
  simp only [parseRel, (trim_parts ha ha n).1, if_neg ha.1, splitn_of_notMem 2 ha.2]

lemma parseRel_snapshot (ha : IsPart a) (hb : IsPart b) (n : ℕ) :
    parseRel x ref snapshots ((a ++ '/' :: b) ++ List.replicate n '/') =
      (snapshots.find? fun s => ref.folderLabel s = a ∧ snapDirName x ref s = b).map .snapshot := by
  have hne : a ++ '/' :: b ≠ [] := by simp
  simp only [parseRel, (trim_parts ha hb n).2, if_neg hne, splitn_append 1 ha.2, splitn_of_notMem 1 hb.2]
  cases snapshots.find? fun s => ref.folderLabel s = a ∧ snapDirName x ref s = b <;> rfl

def pathOf (components : List Str) (h : ∀ c ∈ components, x.carries c = true) : DavPath x := ⟨components, h, 0⟩

variable {p : DavPath x}

lemma parsePath_root (hp : p.components = []) : parsePath x ref snapshots p = some .root := by
  unfold parsePath DavPath.rel
  rw [hp]
  exact parseRel_root p.slashes

lemma parsePath_folder (hp : p.components = [a]) : parsePath x ref snapshots p =
      if snapshots.any (fun s => ref.folderLabel s = a) then some (.folder a) else none := by
  have ha : IsPart a := x.part a (p.carried a (by simp [hp]))
  unfold parsePath DavPath.rel
  have hjoin : List.intercalate ['/'] [a] = a := by simp
  rw [hp, hjoin]
  exact parseRel_folder ha p.slashes

lemma parsePath_snapshot (hp : p.components = [a, b]) : parsePath x ref snapshots p =
      (snapshots.find? fun s => ref.folderLabel s = a ∧ snapDirName x ref s = b).map .snapshot := by
  have ha : IsPart a := x.part a (p.carried a (by simp [hp]))
  have hb : IsPart b := x.part b (p.carried b (by simp [hp]))
  unfold parsePath DavPath.rel
  have hjoin : List.intercalate ['/'] [a, b] = a ++ '/' :: b := by simp
  rw [hp, hjoin]
  exact parseRel_snapshot ha hb p.slashes

lemma lists_root_iff :
    Lists x ref content snapshots [] names ↔ names = (unseen ref [] snapshots).map ref.folderLabel := by
  have hread : ∀ p : DavPath x, p.components = [] → readDir x ref content snapshots p =
      .ok ((unseen ref [] snapshots).map fun s => dirEntry (ref.folderLabel s) none) := by
    intro p hp
    rw [readDir, parsePath_root hp]
  constructor
  · rintro ⟨p, hp, es, hes, rfl⟩
    rw [hread p hp] at hes
    cases hes
    rw [map_map]
    rfl
  · rintro rfl
    refine ⟨pathOf [] (by simp), rfl, _, hread _ rfl, ?_⟩
    rw [map_map]
    rfl

lemma lists_folder_iff : Lists x ref content snapshots [label] names ↔ x.carries label = true ∧
      label ∈ snapshots.map ref.folderLabel ∧
      names = (snapshots.filter fun s => ref.folderLabel s = label).map (snapDirName x ref) := by
  have hany : snapshots.any (fun s => ref.folderLabel s = label) = true ↔ label ∈ snapshots.map ref.folderLabel := by
    simp
  have hread : ∀ p : DavPath x, p.components = [label] → label ∈ snapshots.map ref.folderLabel →
      readDir x ref content snapshots p = .ok ((snapshots.filter fun s => ref.folderLabel s = label).map fun s =>
        dirEntry (snapDirName x ref s) (some (ref.createTime s))) := by
    intro p hp hmem
    rw [readDir, parsePath_folder hp, if_pos (hany.2 hmem)]
  constructor
  · rintro ⟨p, hp, es, hes, rfl⟩
    by_cases hmem : label ∈ snapshots.map ref.folderLabel
    · rw [hread p hp hmem] at hes
      cases hes
      refine ⟨p.carried label (by simp [hp]), hmem, ?_⟩
      rw [map_map]
      rfl
    · rw [readDir, parsePath_folder hp, if_neg fun h => hmem (hany.1 h)] at hes
      cases hes
  · rintro ⟨hc, hmem, rfl⟩
    refine ⟨pathOf [label] (by simpa using hc), rfl, _, hread _ rfl hmem, ?_⟩
    rw [map_map]
    rfl

lemma leads_iff : Leads x ref snapshots [label, name] level ↔ x.carries label = true ∧ x.carries name = true ∧
      (snapshots.find? fun s => ref.folderLabel s = label ∧ snapDirName x ref s = name).map .snapshot = some level := by
  constructor
  · rintro ⟨p, hp, hparse⟩
    rw [parsePath_snapshot hp] at hparse
    exact ⟨p.carried label (by simp [hp]), p.carried name (by simp [hp]), hparse⟩
  · rintro ⟨hl, hn, hfind⟩
    have hc : ∀ c ∈ [label, name], x.carries c = true := by simp [hl, hn]
    refine ⟨pathOf [label, name] hc, rfl, ?_⟩
    rw [parsePath_snapshot rfl, hfind]

/-! ### All snapshots -/

lemma mem_unseen (seen : List Str) : label ∈ (unseen ref seen snapshots).map ref.folderLabel ↔
      label ∈ snapshots.map ref.folderLabel ∧ label ∉ seen := by
  induction snapshots generalizing seen with
  | nil => simp [unseen]
  | cons s snapshots ih =>
    rw [unseen]
    split_ifs with hs
    · rw [contains_iff_mem] at hs
      rw [ih, map_cons, mem_cons]
      constructor
      · exact fun h => ⟨.inr h.1, h.2⟩
      · rintro ⟨rfl | h, hn⟩
        · exact absurd hs hn
        · exact ⟨h, hn⟩
    · rw [contains_iff_mem] at hs
      rw [map_cons, mem_cons, ih, map_cons, mem_cons, mem_cons]
      by_cases hl : label = ref.folderLabel s
      · simp [hl, hs]
      · simp [hl]

lemma nodup_unseen (seen : List Str) : ((unseen ref seen snapshots).map ref.folderLabel).Nodup := by
  induction snapshots generalizing seen with
  | nil => exact nodup_nil
  | cons s snapshots ih =>
    rw [unseen]
    split_ifs with hs
    · exact ih seen
    · rw [map_cons, nodup_cons]
      exact ⟨fun h => ((mem_unseen _).1 h).2 mem_cons_self, ih _⟩

lemma nodup_pairs_iff (f g : R → Str) :
    (snapshots.map fun s => (f s, g s)).Nodup ↔ ∀ k, ((snapshots.filter fun s => f s = k).map g).Nodup := by
  induction snapshots with
  | nil => simp
  | cons s snapshots ih =>
    rw [map_cons, nodup_cons, ih]
    have hmem : (f s, g s) ∈ (snapshots.map fun s => (f s, g s)) ↔
        g s ∈ (snapshots.filter fun s' => f s' = f s).map g := by
      simp only [mem_map, mem_filter, Prod.mk.injEq, decide_eq_true_eq, and_assoc]
    constructor
    · rintro ⟨hn, hall⟩ k
      by_cases hk : f s = k
      · subst hk
        rw [filter_cons_of_pos (by simp), map_cons, nodup_cons]
        exact ⟨fun h => hn (hmem.2 h), hall _⟩
      · rw [filter_cons_of_neg (by simpa using hk)]
        exact hall k
    · intro hall
      have hs := hall (f s)
      rw [filter_cons_of_pos (by simp), map_cons, nodup_cons] at hs
      refine ⟨fun h => hs.1 (hmem.1 h), fun k => ?_⟩
      refine (hall k).sublist (List.Sublist.map _ (List.Sublist.filter _ (sublist_cons_self s snapshots)))

lemma Browsable.carries {labels : List Str} (h : Browsable x ref content snapshots labels) {snap : R}
    (hs : snap ∈ snapshots) : x.carries (ref.folderLabel snap) = true := by
  obtain ⟨label, -, -, -, name, -, hlead⟩ := h.reached snap hs
  obtain ⟨hl, -, hfind⟩ := leads_iff.1 hlead
  obtain ⟨s, hs', he⟩ := Option.map_eq_some_iff.1 hfind
  cases he
  have hlabel : ref.folderLabel snap = label ∧ snapDirName x ref snap = name := by
    simpa using find?_some hs'
  rw [hlabel.1]
  exact hl

lemma Browsable.pairs {labels : List Str} (h : Browsable x ref content snapshots labels) :
    (snapshots.map fun s => (ref.folderLabel s, snapDirName x ref s)).Nodup := by
  rw [nodup_pairs_iff]
  intro label
  by_cases hmem : label ∈ snapshots.map ref.folderLabel
  · have hlabel : label ∈ labels := by
      rw [lists_root_iff.1 h.root]
      exact (mem_unseen []).2 ⟨hmem, not_mem_nil⟩
    obtain ⟨names, hlist, hnodup, -⟩ := h.folder label hlabel
    obtain ⟨-, -, rfl⟩ := lists_folder_iff.1 hlist
    exact hnodup
  · have hempty : (snapshots.filter fun s => ref.folderLabel s = label) = [] := by
      rw [filter_eq_nil_iff]
      exact fun s hs h => hmem (mem_map.2 ⟨s, hs, of_decide_eq_true h⟩)
    rw [hempty]
    exact nodup_nil

lemma find_listed (hp : (snapshots.map fun s => (ref.folderLabel s, snapDirName x ref s)).Nodup) {snap : R}
    (hs : snap ∈ snapshots) : (snapshots.find? fun s => ref.folderLabel s = ref.folderLabel snap ∧
      snapDirName x ref s = snapDirName x ref snap) = some snap := by
  cases hf : snapshots.find? fun s => ref.folderLabel s = ref.folderLabel snap ∧
      snapDirName x ref s = snapDirName x ref snap with
  | none => exact absurd (find?_eq_none.1 hf snap hs) (by simp)
  | some s =>
    have hkey : ref.folderLabel s = ref.folderLabel snap ∧ snapDirName x ref s = snapDirName x ref snap := by
      simpa using find?_some hf
    rw [inj_on_of_nodup_map hp (mem_of_find?_eq_some hf) hs (by rw [hkey.1, hkey.2])]

lemma browsable_of (hc : ∀ s ∈ snapshots, x.carries (ref.folderLabel s) = true)
    (hp : (snapshots.map fun s => (ref.folderLabel s, snapDirName x ref s)).Nodup) :
    Browsable x ref content snapshots ((unseen ref [] snapshots).map ref.folderLabel) := by
  have hlists : ∀ label ∈ snapshots.map ref.folderLabel, Lists x ref content snapshots [label]
      ((snapshots.filter fun s => ref.folderLabel s = label).map (snapDirName x ref)) := by
    intro label hmem
    obtain ⟨s, hs, rfl⟩ := mem_map.1 hmem
    exact lists_folder_iff.2 ⟨hc s hs, hmem, rfl⟩
  have hleads : ∀ s ∈ snapshots, Leads x ref snapshots [ref.folderLabel s, snapDirName x ref s] (.snapshot s) := by
    intro s hs
    refine leads_iff.2 ⟨hc s hs, x.formatted _, ?_⟩
    rw [find_listed hp hs]
    rfl
  refine ⟨lists_root_iff.2 rfl, nodup_unseen [], fun label hl => ?_, fun snap hs => ?_⟩
  · refine ⟨_, hlists label ((mem_unseen []).1 hl).1, (nodup_pairs_iff _ _).1 hp label, fun name hname => ?_⟩
    obtain ⟨s, hs, rfl⟩ := mem_map.1 hname
    obtain ⟨hs, hlabel⟩ := mem_filter.1 hs
    rw [← of_decide_eq_true hlabel]
    exact ⟨_, hleads s hs⟩
  · have hmem : ref.folderLabel snap ∈ snapshots.map ref.folderLabel := mem_map_of_mem hs
    refine ⟨ref.folderLabel snap, (mem_unseen []).2 ⟨hmem, not_mem_nil⟩, _, hlists _ hmem, ?_⟩
    exact ⟨snapDirName x ref snap, mem_map.2 ⟨snap, mem_filter.2 ⟨hs, by simp⟩, rfl⟩, hleads snap hs⟩

/-- **Every snapshot can be reached** exactly when a path can carry every label and no two snapshots have the same
label and the same minute. -/
theorem snapshots_browsable_iff (x : Names τ) (ref : SnapshotRef R τ)
    (content : R → Str → Except SnapshotError (List (FsEntry τ))) (snapshots : List R) :
    (∃ labels, Browsable x ref content snapshots labels) ↔ (∀ s ∈ snapshots, x.carries (ref.folderLabel s) = true) ∧
      (snapshots.map fun s => (ref.folderLabel s, snapDirName x ref s)).Nodup := by
  constructor
  · rintro ⟨labels, h⟩
    exact ⟨fun s hs => h.carries hs, h.pairs⟩
  · rintro ⟨hc, hp⟩
    exact ⟨_, browsable_of hc hp⟩

end Reading

/-! ### Some snapshots -/

/-- A snapshot with a label, a time in seconds and a number of its own. -/
structure SampleRef where
  label : Str
  time : ℕ
  number : ℕ
  deriving DecidableEq

def sampleRefs : SnapshotRef SampleRef ℕ := ⟨SampleRef.label, SampleRef.time⟩

/-- A time is written as its minute, as a tally; a component is any part but the two of a traversal. -/
def sampleNames : Names ℕ where
  format := fun t => List.replicate (t / 60 + 1) '1'
  carries := fun c => decide (c ≠ [] ∧ '/' ∉ c ∧ c ≠ ['.'] ∧ c ≠ ['.', '.'])
  part := fun _ h => ⟨(of_decide_eq_true h).1, (of_decide_eq_true h).2.1⟩
  normal := fun _ h => (of_decide_eq_true h).2.2
  formatted := by
    intro t
    refine decide_eq_true ⟨by simp [replicate_succ], fun h => ?_, ?_, ?_⟩
    · exact absurd (eq_of_mem_replicate h) (by decide)
    · simp [replicate_succ]
    · simp [replicate_succ]

def noContent : SampleRef → Str → Except SnapshotError (List (FsEntry ℕ)) := fun _ _ => .ok []

/-- Two labels, one of them with two snapshots of different minutes. -/
theorem snapshots_browsable_three :
    ∃ labels, Browsable sampleNames sampleRefs noContent [⟨['a'], 130, 0⟩, ⟨['a'], 60, 1⟩, ⟨['b'], 60, 2⟩] labels :=
  (snapshots_browsable_iff sampleNames sampleRefs noContent _).2 ⟨by decide, by decide⟩

/-- Two snapshots of one label in the same minute have one name; a label with a slash, an empty one and the one
of a traversal cannot be in a path. -/
theorem snapshots_not_browsable :
    (∀ labels, ¬ Browsable sampleNames sampleRefs noContent [⟨['a'], 60, 0⟩, ⟨['a'], 61, 1⟩] labels) ∧
    (∀ labels, ¬ Browsable sampleNames sampleRefs noContent [⟨['a', '/', 'b'], 60, 0⟩] labels) ∧
    (∀ labels, ¬ Browsable sampleNames sampleRefs noContent [⟨[], 60, 0⟩] labels) ∧
    ∀ labels, ¬ Browsable sampleNames sampleRefs noContent [⟨['.', '.'], 60, 0⟩] labels :=
  ⟨fun _ h => absurd h.pairs (by decide), fun _ h => absurd (h.carries mem_cons_self) (by decide),
    fun _ h => absurd (h.carries mem_cons_self) (by decide),
    fun _ h => absurd (h.carries mem_cons_self) (by decide)⟩

end Bepository.Dav
