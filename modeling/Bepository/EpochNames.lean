import Bepository.Lock.Base32
import Bepository.Lock.BreakLocks
import Bepository.Storage.MetaRace

/-!
# Epochs in the names of objects

`list_epoch_metas` sorts the epoch files by their whole paths, and `read_meta_unlocked` takes the greatest path among
the metadata files.  Both rely on the order of Base32 names: with the same text in front, paths are ordered as the
epochs in them, whatever comes after.

`filename` stands for `Path::filename` of `object_store`, and `sort` for `sort_unstable_by`.
-/

namespace Bepository

open Lib Lock Storage Metadata List

/-! ### The two callers -/

/-- `object_store::ObjectMeta`. -/
structure Listed where
  location : Str
  lastModified : Timestamp
  deriving DecidableEq

section Callers

variable (filename : Str → Option Str)

/-- `m.location.filename().and_then(Epoch::parse)`. -/
def Listed.epoch (m : Listed) : Option Epoch := (filename m.location).bind Epoch.parse

/-- `Lock::list_epoch_metas`, from what LIST returns. -/
def listEpochPaths (sort : List Listed → List Listed) (listing : Except Lock.Error (List Listed)) :
    Except Lock.Error (List Listed) :=
  listing.map fun metas => sort (metas.filter fun m => (m.epoch filename).isSome)

/-- The path that `read_meta_unlocked` takes from a listing. -/
def lastMetaPath (locations : List Str) : Option Str :=
  (locations.filter fun location => (filename location).any isMetaName).foldl laterName none

end Callers

/-- What `sort_unstable_by` promises for the order of the paths. -/
def SortsPaths (sort : List Listed → List Listed) : Prop :=
  ∀ metas, (sort metas).Perm metas ∧ (sort metas).Pairwise fun a b => strKey a.location ≤ strKey b.location

/-- The epoch files lie directly under the lock prefix: `dir` is the prefix with its delimiter. -/
def Direct (filename : Str → Option Str) (dir : Str) (metas : List Listed) : Prop :=
  ∀ m ∈ metas, ∀ name, filename m.location = some name → (Epoch.parse name).isSome → m.location = dir ++ name

/-- The metadata files lie in one directory and are named after an epoch. -/
def MetaDirect (filename : Str → Option Str) (dir : Str) (locations : List Str) : Prop :=
  ∀ location ∈ locations, ∀ name, filename location = some name → isMetaName name = true →
    location = dir ++ name ∧ ∃ e, name = metaPath e

/-! ### Sorted by path, sorted by epoch -/

section Sorted

variable {filename : Str → Option Str} {sort : List Listed → List Listed} {dir : Str} {metas result : List Listed}
  {a b : Listed} {e e' : Epoch}

lemma Direct.location (h : Direct filename dir metas) (ha : a ∈ metas) (he : a.epoch filename = some e) :
    ∃ t, a.location = dir ++ (e.asBase32 ++ t) := by
  obtain ⟨name, hname, hparse⟩ := Option.bind_eq_some_iff.1 he
  rw [h a ha name hname (by rw [hparse]; rfl)]
  rcases Epoch.eq_of_parse hparse with rfl | rfl
  · exact ⟨[], by rw [append_nil]⟩
  · exact ⟨jsonSuffix, rfl⟩

lemma Direct.le_of_location (h : Direct filename dir metas) (ha : a ∈ metas) (hb : b ∈ metas)
    (hae : a.epoch filename = some e) (hbe : b.epoch filename = some e')
    (hle : strKey a.location ≤ strKey b.location) : e ≤ e' := by
  obtain ⟨t, hat⟩ := h.location ha hae
  obtain ⟨t', hbt⟩ := h.location hb hbe
  refine le_of_not_gt fun hlt => ?_
  rw [hat, hbt] at hle
  exact absurd (strKey_epoch_lt hlt dir t' t) (not_lt.2 hle)

/-- **Sorted by path is sorted by epoch.** -/
lemma Direct.sorted (h : Direct filename dir metas) (hs : SortsPaths sort) :
    (sort (metas.filter fun m => (m.epoch filename).isSome)).Pairwise fun a b =>
      ∀ e, a.epoch filename = some e → ∀ e', b.epoch filename = some e' → e ≤ e' := by
  obtain ⟨hperm, hsorted⟩ := hs (metas.filter fun m => (m.epoch filename).isSome)
  have hmem : ∀ m ∈ sort (metas.filter fun m => (m.epoch filename).isSome), m ∈ metas :=
    fun m hm => (mem_filter.1 (hperm.mem_iff.1 hm)).1
  refine hsorted.imp_of_mem fun {a b} ha hb hle e he e' he' => ?_
  exact h.le_of_location (hmem a ha) (hmem b hb) he he' hle

lemma SortsPaths.perm_filterMap {α : Type} (hs : SortsPaths sort) {f : Listed → Option α}
    (hf : ∀ m : Listed, m.epoch filename = none → f m = none) :
    ((sort (metas.filter fun m => (m.epoch filename).isSome)).filterMap f).Perm (metas.filterMap f) := by
  refine ((hs _).1.filterMap _).trans (List.Perm.of_eq ?_)
  rw [filterMap_filter]
  refine filterMap_congr fun m _ => ?_
  cases hm : m.epoch filename with
  | none => rw [hf m hm]; rfl
  | some => rfl

lemma min?_eq_of_perm {l l' : List Epoch} (h : l.Perm l') : l.min? = l'.min? := by
  refine Option.ext fun e => ?_
  simp only [min?_eq_some_iff, h.mem_iff]

lemma head?_epoch_eq_min? (hsome : ∀ m ∈ result, (m.epoch filename).isSome)
    (hsorted : (result.filterMap (Listed.epoch filename)).Pairwise (· ≤ ·)) :
    result.head?.bind (Listed.epoch filename) = (result.filterMap (Listed.epoch filename)).min? := by
  rw [min?_eq_head? (hsorted.imp fun h => min_eq_left h)]
  cases result with
  | nil => rfl
  | cons m =>
    obtain ⟨e, he⟩ := Option.isSome_iff_exists.1 (hsome m mem_cons_self)
    rw [filterMap_cons_some he]
    exact he

end Sorted

/-- **The greatest path** is that of the highest epoch. -/
lemma MetaDirect.highest {filename : Str → Option Str} {dir : Str} {locations : List Str}
    (h : MetaDirect filename dir locations) {l₀ : Str} {e₀ : Epoch} (hl : l₀ ∈ locations)
    (h₀ : filename l₀ = some (metaPath e₀)) :
    ∃ l e, lastMetaPath filename locations = some l ∧ l ∈ locations ∧ filename l = some (metaPath e) ∧
      ∀ l' ∈ locations, ∀ e', filename l' = some (metaPath e') → e' ≤ e := by
  have hmeta : ∀ l ∈ locations, ∀ e, filename l = some (metaPath e) →
      l ∈ locations.filter fun l => (filename l).any isMetaName := by
    intro l hl e he
    refine mem_filter.2 ⟨hl, ?_⟩
    rw [he]
    exact isMetaName_metaPath e
  obtain ⟨hnone, hsome⟩ := foldl_laterName (locations.filter fun l => (filename l).any isMetaName) none
  cases hr : lastMetaPath filename locations with
  | none =>
    have hmem := hmeta l₀ hl e₀ h₀
    rw [(hnone hr).2] at hmem
    cases hmem
  | some l =>
    obtain ⟨hmem, hmax⟩ := hsome l hr
    obtain ⟨hl, hany⟩ := mem_filter.1 (hmem.resolve_left (by simp))
    obtain ⟨name, hname, hm⟩ := (Option.any_eq_true _ _).1 hany
    obtain ⟨hloc, e, rfl⟩ := h l hl name hname hm
    refine ⟨l, e, rfl, hl, hname, fun l' hl' e' he' => le_of_not_gt fun hlt => ?_⟩
    have hloc' := (h l' hl' _ he' (isMetaName_metaPath e')).1
    have hle := hmax l' (.inr (hmeta l' hl' e' he'))
    have hgt := strKey_epoch_lt hlt (dir ++ META_PREFIX) META_SUFFIX META_SUFFIX
    rw [append_assoc, append_assoc, ← append_assoc META_PREFIX, ← append_assoc META_PREFIX] at hgt
    rw [hloc, hloc'] at hle
    exact absurd hgt (not_lt.2 hle)

/-- **Epoch names.**  A number below `2 ^ 40` is read back from its name, only its name is read as it, and names are
ordered as the numbers.  So the epoch files are listed in the order of their epochs, the lowest first, and the metadata
file that is taken is that of the highest. -/
theorem epoch_names_ordered :
    (∀ v : UInt64, v.toNat < 2 ^ 40 → ∃ s, Word.toBase32 v = .ok s ∧ Word.fromBase32 s = some v ∧
      Word.fromBase32 (s ++ jsonSuffix) = some v) ∧
    (∀ s v, Word.fromBase32 s = some v → ∃ t, Word.toBase32 v = .ok t ∧ (s = t ∨ s = t ++ jsonSuffix)) ∧
    (∀ v w : UInt64, v.toNat < 2 ^ 40 → w.toNat < 2 ^ 40 → ∃ s t, Word.toBase32 v = .ok s ∧
      Word.toBase32 w = .ok t ∧ (strKey s < strKey t ↔ v < w)) ∧
    (∀ filename sort dir metas, SortsPaths sort → Direct filename dir metas → ∃ result,
      listEpochPaths filename sort (.ok metas) = .ok result ∧
      result.Perm (metas.filter fun m => (m.epoch filename).isSome) ∧
      (result.filterMap (Listed.epoch filename)).Pairwise (· ≤ ·) ∧
      result.head?.bind (Listed.epoch filename) = (metas.filterMap (Listed.epoch filename)).min?) ∧
    ∀ filename dir locations, MetaDirect filename dir locations →
      ∀ l₀ ∈ locations, ∀ e₀, filename l₀ = some (metaPath e₀) →
        ∃ l e, lastMetaPath filename locations = some l ∧ l ∈ locations ∧ filename l = some (metaPath e) ∧
          ∀ l' ∈ locations, ∀ e', filename l' = some (metaPath e') → e' ≤ e := by
  refine ⟨fun v hv => ⟨_, Word.toBase32_ok hv, ?_, ?_⟩, fun s v h => ?_, fun v w hv hw => ?_,
    fun filename sort dir metas hs h => ⟨_, rfl, (hs _).1, ?_, ?_⟩,
    fun filename dir locations h l₀ hl e₀ h₀ => h.highest hl h₀⟩
  · exact Word.fromBase32_eq_some_iff.2 (fromBase32_of_stripJson (stripJson_asBase32 _))
  · exact Word.fromBase32_eq_some_iff.2 (fromBase32_of_stripJson (stripJson_jsonFilename _))
  · obtain ⟨⟨n, hn⟩, rfl, hs⟩ := fromBase32_eq_some (Word.fromBase32_eq_some_iff.1 h)
    exact ⟨_, Word.toBase32_ok hn, hs⟩
  · refine ⟨_, _, Word.toBase32_ok hv, Word.toBase32_ok hw, ?_⟩
    rw [strKey_asBase32_lt, UInt64.lt_iff_toNat_lt]
    rfl
  · exact pairwise_filterMap.2 (h.sorted hs)
  · have hsome : ∀ m ∈ sort (metas.filter fun m => (m.epoch filename).isSome), (m.epoch filename).isSome :=
      fun m hm => (mem_filter.1 ((hs _).1.mem_iff.1 hm)).2
    rw [head?_epoch_eq_min? hsome (pairwise_filterMap.2 (h.sorted hs))]
    exact min?_eq_of_perm (hs.perm_filterMap fun _ hm => hm)

/-! ### A listing -/

def lastPart (location : Str) : Option Str :=
  match rsplitOnce '/' location with
  | some (_, name) => some name
  | none => some location

def sortPaths (metas : List Listed) : List Listed :=
  metas.insertionSort fun a b => strKey a.location ≤ strKey b.location

lemma sortsPaths_sortPaths : SortsPaths sortPaths := by
  have htotal : Std.Total fun a b : Listed => strKey a.location ≤ strKey b.location :=
    ⟨fun a b => le_total (strKey a.location) (strKey b.location)⟩
  have htrans : IsTrans Listed fun a b => strKey a.location ≤ strKey b.location := ⟨fun _ _ _ => le_trans⟩
  exact fun metas => ⟨perm_insertionSort _ _, pairwise_insertionSort _ _⟩

def lockListing : List Listed :=
  [⟨"l/00000010.json".toList, 5⟩, ⟨"l/note".toList, 6⟩, ⟨"l/00000003.json".toList, 7⟩]

def metaListing : List Str := [metaPath (.early 5), metaPath (.early 3)]

theorem epoch_names_ordered_listed :
    (∃ result, listEpochPaths lastPart sortPaths (.ok lockListing) = .ok result ∧
      (result.filterMap (Listed.epoch lastPart)).map Epoch.val = [3, 32] ∧
      result.head?.bind (Listed.epoch lastPart) = some (Epoch.early 3)) ∧
    ∃ l e, lastMetaPath lastPart metaListing = some l ∧ lastPart l = some (metaPath e) ∧ Epoch.early 3 ≤ e := by
  obtain ⟨-, -, -, hlist, hmeta⟩ := epoch_names_ordered
  constructor
  · have hall : lockListing.all (fun m => (lastPart m.location).all fun name => m.location = "l/".toList ++ name) =
        true := by decide
    have hdirect : Direct lastPart "l/".toList lockListing := by
      intro m hm name hname _
      have h := all_eq_true.1 hall m hm
      rw [hname] at h
      exact of_decide_eq_true h
    obtain ⟨result, hresult, -, -, hfirst⟩ := hlist lastPart sortPaths _ lockListing sortsPaths_sortPaths hdirect
    refine ⟨result, hresult, ?_, hfirst.trans (by decide)⟩
    cases hresult
    decide
  · have hpart : ∀ n : Fin 8, lastPart (metaPath (.early n)) = some (metaPath (.early n)) := by decide
    have hdirect : MetaDirect lastPart [] metaListing := by
      intro l hl name hname _
      simp only [metaListing, mem_cons, not_mem_nil, or_false] at hl
      rcases hl with rfl | rfl <;> rw [hpart] at hname <;> cases hname <;> exact ⟨rfl, _, rfl⟩
    have hmem : metaPath (.early 3) ∈ metaListing := mem_cons_of_mem _ mem_cons_self
    obtain ⟨l, e, hl, -, he, hmax⟩ := hmeta lastPart [] metaListing hdirect _ hmem _ (hpart 3)
    exact ⟨l, e, hl, he, hmax _ hmem _ (hpart 3)⟩

end Bepository
