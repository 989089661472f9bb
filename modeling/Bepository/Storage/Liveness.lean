import Bepository.Storage.Compaction

/-!
# What the liveness scan covers

The scan of an epoch's staged entries uses the key of the empty name as its prefix.  That key ends in
the separator between directory and base name, so the scan sees the entries of the root directory
only.  `liveScan_covers_iff` says exactly when the blocks of the other entries are covered
nevertheless.
-/

namespace Bepository.Storage

open Lib List

/-- The Bloom filters of a job recognise every block of the row that carries a number. -/
def Covers (bl : Blooms) (j : CompactionJobState) (v : Value) : Prop :=
  ∀ fi, v.decodeFile = some (some fi) → ∀ ref ∈ liveRefs fi, ∃ hash : Bytes32, hash.1 = ref.1 ∧
    bl.hashes.contains j.knownLiveHashes hash = true ∧ bl.seqs.contains j.knownLiveSeqs ref.2 = true

def Scanned (epoch : Epoch) (key : Bytes) : Prop :=
  inboxScanPrefix epoch <+: key ∨ FILE_PREFIX <+: key

def Carries (v : Value) (ref : Bytes × ℕ) : Prop :=
  ∃ fi, v.decodeFile = some (some fi) ∧ ref ∈ liveRefs fi

section Scan

variable {snapshot : List (Bytes × Value)} {epoch : Epoch} {v : Value} {start : Bytes}
  {live : List (Bytes32 × ℕ)} {ref : Bytes32 × ℕ}

lemma indexRef_eq_ok {name : Str} {r : Bytes × ℕ} (h : indexRef name r = .ok ref) : (ref.1.1, ref.2) = r := by
  unfold indexRef at h
  split at h
  · cases h
  · next hash hh =>
    split at h
    · cases h
    · cases h
      exact Prod.ext (toBytes32_eq_some.1 hh) rfl

variable {refs : List (Bytes32 × ℕ)} {r : Bytes × Value}

lemma carries_of_mem (h : indexEntry v = .ok refs) (hm : ref ∈ refs) : Carries v (ref.1.1, ref.2) := by
  unfold indexEntry at h
  split at h
  · cases h
  · cases h
    cases hm
  · next fi hv =>
    obtain ⟨r, hr, hok⟩ := (mem_of_mapM_eq_ok h).1 hm
    rw [indexRef_eq_ok hok]
    exact ⟨fi, hv, hr⟩

lemma mem_of_carries (h : indexEntry v = .ok refs) {r : Bytes × ℕ}
    (hc : Carries v r) : ∃ hash : Bytes32, hash.1 = r.1 ∧ (hash, r.2) ∈ refs := by
  obtain ⟨fi, hfi, hr⟩ := hc
  simp only [indexEntry, hfi] at h
  obtain ⟨b, hb, hok⟩ := exists_of_mapM_eq_ok h hr
  have he := indexRef_eq_ok hok
  exact ⟨b.1, congrArg Prod.fst he, (congrArg Prod.snd he : b.2 = r.2) ▸ hb⟩

lemma indexBlocks_carries (h : indexBlocksUnderPrefix snapshot start = .ok live) (hm : ref ∈ live) :
    ∃ r ∈ snapshot, start <+: r.1 ∧ Carries r.2 (ref.1.1, ref.2) := by
  unfold indexBlocksUnderPrefix at h
  obtain ⟨refs, hrefs, rfl⟩ := map_eq_ok.1 h
  obtain ⟨l, hl, hm⟩ := mem_flatten.1 hm
  obtain ⟨r, hr, hok⟩ := (mem_of_mapM_eq_ok hrefs).1 hl
  rw [mem_filter, isPrefixOf_iff_prefix] at hr
  exact ⟨r, hr.1, hr.2, carries_of_mem hok hm⟩

lemma mem_indexBlocks (h : indexBlocksUnderPrefix snapshot start = .ok live) (hr : r ∈ snapshot)
    (hp : start <+: r.1) {c : Bytes × ℕ} (hc : Carries r.2 c) :
    ∃ hash : Bytes32, hash.1 = c.1 ∧ (hash, c.2) ∈ live := by
  unfold indexBlocksUnderPrefix at h
  obtain ⟨refs, hrefs, rfl⟩ := map_eq_ok.1 h
  have hf : r ∈ snapshot.filter fun r => start.isPrefixOf r.1 :=
    mem_filter.2 ⟨hr, isPrefixOf_iff_prefix.2 hp⟩
  obtain ⟨l, hl, hok⟩ := exists_of_mapM_eq_ok hrefs hf
  obtain ⟨hash, he, hm⟩ := mem_of_carries hok hc
  exact ⟨hash, he, mem_flatten.2 ⟨l, hl, hm⟩⟩

lemma mem_liveScan (h : liveScan snapshot epoch = .ok live) (hr : r ∈ snapshot) (hs : Scanned epoch r.1)
    {c : Bytes × ℕ} (hc : Carries r.2 c) : ∃ hash : Bytes32, hash.1 = c.1 ∧ (hash, c.2) ∈ live := by
  unfold liveScan at h
  split at h
  · cases h
  · next staged hstaged =>
    obtain ⟨files, hf, rfl⟩ := map_eq_ok.1 h
    rcases hs with hp | hp
    · obtain ⟨hash, he, hm⟩ := mem_indexBlocks hstaged hr hp hc
      exact ⟨hash, he, mem_append_left _ hm⟩
    · obtain ⟨hash, he, hm⟩ := mem_indexBlocks hf hr hp hc
      exact ⟨hash, he, mem_append_right _ hm⟩

lemma liveScan_carries (h : liveScan snapshot epoch = .ok live) (hm : ref ∈ live) :
    ∃ r ∈ snapshot, Scanned epoch r.1 ∧ Carries r.2 (ref.1.1, ref.2) := by
  unfold liveScan at h
  split at h
  · cases h
  · next staged hstaged =>
    obtain ⟨files, hf, rfl⟩ := map_eq_ok.1 h
    rcases mem_append.1 hm with hm | hm
    · obtain ⟨r, hr, hp, hc⟩ := indexBlocks_carries hstaged hm
      exact ⟨r, hr, .inl hp, hc⟩
    · obtain ⟨r, hr, hp, hc⟩ := indexBlocks_carries hf hm
      exact ⟨r, hr, .inr hp, hc⟩

lemma inboxScanPrefix_prefix {path : Path} (h : path.dir = []) :
    inboxScanPrefix epoch <+: (Key.mi epoch path).encode := by
  have hkey : (Key.mi epoch path).encode =
      [109, 105] ++ (utf8 epoch.asBase32 ++ [47]) ++ [47, 47] ++ utf8 path.base := by
    simp [Key.encode, Key.tag, Key.body, Path.encode, h, utf8]
  have hroot : splitName [] = ⟨[], [], not_mem_nil⟩ := splitName_of_notMem not_mem_nil
  have hscan : inboxScanPrefix epoch = [109, 105] ++ (utf8 epoch.asBase32 ++ [47]) ++ [47, 47] := by
    simp [inboxScanPrefix, inboxKey, hroot, Key.encode, Key.tag, Key.body, Path.encode, utf8]
  rw [hkey, hscan]
  exact prefix_append _ _

end Scan

/-! ### Coverage -/

section Coverage

variable {snapshot : List (Bytes × Value)} {db : Db} {epoch : Epoch}
  {recorded : List (Bytes32 × ℕ)} {j : CompactionJobState} {floor : Option ℤ}

/-- The job's filters were given this block, by the scan or by a writer. -/
def Known (snapshot : List (Bytes × Value)) (epoch : Epoch) (recorded : List (Bytes32 × ℕ))
    (ref : Bytes × ℕ) : Prop :=
  (∃ r ∈ snapshot, Scanned epoch r.1 ∧ Carries r.2 ref) ∨ ∃ c ∈ recorded, (c.1.1, c.2) = ref

lemma known_of_mem (h : createCompactionFilter snapshot db epoch recorded = .ok (j, floor)) :
    ∃ live, liveScan snapshot epoch = .ok live ∧
      j = ⟨(live ++ recorded).map Prod.fst, (live ++ recorded).map Prod.snd⟩ ∧
      ∀ ref ∈ live ++ recorded, Known snapshot epoch recorded (ref.1.1, ref.2) := by
  unfold createCompactionFilter at h
  split at h
  · cases h
  · next live hl =>
    split at h
    · cases h
    · cases h
      refine ⟨live, hl, rfl, fun ref hm => ?_⟩
      rcases mem_append.1 hm with hm | hm
      · exact .inl (liveScan_carries hl hm)
      · exact .inr ⟨ref, hm, rfl⟩

lemma mem_of_known (h : createCompactionFilter snapshot db epoch recorded = .ok (j, floor)) {c : Bytes × ℕ}
    (hk : Known snapshot epoch recorded c) :
    ∃ hash : Bytes32, hash.1 = c.1 ∧ hash ∈ j.knownLiveHashes ∧ c.2 ∈ j.knownLiveSeqs := by
  obtain ⟨live, hl, rfl, -⟩ := known_of_mem h
  have hmem : ∃ hash : Bytes32, hash.1 = c.1 ∧ (hash, c.2) ∈ live ++ recorded := by
    rcases hk with ⟨r, hr, hs, hc⟩ | ⟨ref, hr, rfl⟩
    · obtain ⟨hash, he, hm⟩ := mem_liveScan hl hr hs hc
      exact ⟨hash, he, mem_append_left _ hm⟩
    · exact ⟨ref.1, rfl, mem_append_right _ hr⟩
  obtain ⟨hash, he, hm⟩ := hmem
  exact ⟨hash, he, mem_map_of_mem hm, mem_map_of_mem hm⟩

/-- **Coverage.**  After a successful scan, the filters recognise every numbered block of every
committed entry and of every staged entry of the epoch, whatever their false positives, if and only
if the blocks of the entries staged in subdirectories were also found elsewhere: the hash and the
number in scanned entries, or recorded by writers. -/
theorem liveScan_covers_iff (h : createCompactionFilter snapshot db epoch recorded = .ok (j, floor)) :
    (∀ bl, (∀ r ∈ snapshot, FILE_PREFIX <+: r.1 → Covers bl j r.2) ∧
      ∀ r ∈ snapshot, ∀ name, validateFileName name = .ok () → r.1 = (inboxKey epoch name).encode → Covers bl j r.2) ↔
    ∀ r ∈ snapshot, ∀ name, validateFileName name = .ok () → dirname name ≠ [] →
      r.1 = (inboxKey epoch name).encode → ∀ ref, Carries r.2 ref →
        (∃ seq, Known snapshot epoch recorded (ref.1, seq)) ∧
        ∃ hash, Known snapshot epoch recorded (hash, ref.2) := by
  constructor
  · -- the filters without false positives recognise what was inserted and nothing else
    rintro hall r hr name hv - hkey ref ⟨fi, hfi, href⟩
    obtain ⟨hash, he, hh, hs⟩ :=
      (hall ⟨Bloom.exact Bytes32, Bloom.exact ℕ⟩).2 r hr name hv hkey fi hfi ref href
    obtain ⟨live, -, rfl, hk⟩ := known_of_mem h
    obtain ⟨a, ha, rfl⟩ := mem_map.1 (Bloom.exact_contains.1 hh)
    obtain ⟨b, hb, hbs⟩ := mem_map.1 (Bloom.exact_contains.1 hs)
    exact ⟨⟨a.2, he ▸ hk a ha⟩, ⟨b.1.1, hbs ▸ hk b hb⟩⟩
  · intro hcond bl
    -- a scanned row is covered by its own blocks
    have hscan : ∀ r ∈ snapshot, Scanned epoch r.1 → Covers bl j r.2 := by
      intro r hr hs fi hfi ref href
      obtain ⟨hash, he, hh, hq⟩ := mem_of_known h (.inl ⟨r, hr, hs, fi, hfi, href⟩)
      exact ⟨hash, he, bl.hashes.mem _ _ hh, bl.seqs.mem _ _ hq⟩
    refine ⟨fun r hr hp => hscan r hr (.inr hp), fun r hr name hv hkey => ?_⟩
    by_cases hd : dirname name = []
    · exact hscan r hr (.inl (hkey ▸ inboxScanPrefix_prefix hd))
    · intro fi hfi ref href
      obtain ⟨⟨seq, hs⟩, ⟨hash', hh⟩⟩ := hcond r hr name hv hd hkey ref ⟨fi, hfi, href⟩
      obtain ⟨hash, he, hmem, -⟩ := mem_of_known h hs
      obtain ⟨-, -, -, hq⟩ := mem_of_known h hh
      exact ⟨hash, he, bl.hashes.mem _ _ hmem, bl.seqs.mem _ _ hq⟩

end Coverage

/-! ### A staged entry in a subdirectory -/

/-- The name `d/f`. -/
def nestedName : Str := ['d', '/', 'f']

def numberedFile (name : Str) : StoredFile where
  name := name
  size := 4096
  version := some ⟨[⟨1, 1⟩]⟩
  sequence := 0
  blocks := [⟨List.replicate 32 0, 0, 4096, some 1024, none⟩]
  type := 1
  deleted := false

/-- The only entry is staged at `d/f`. -/
def nestedSnapshot : List (Bytes × Value) :=
  [((inboxKey firstEpoch nestedName).encode, .file (some (numberedFile nestedName)))]

/-- The scan of the snapshot succeeds and finds nothing, so exact filters do not recognise the
block that `d/f` refers to. -/
theorem liveScan_misses_nested :
    validateFileName nestedName = .ok () ∧
    ∃ j floor, createCompactionFilter nestedSnapshot Db.empty firstEpoch [] = .ok (j, floor) ∧
      ¬ ∀ r ∈ nestedSnapshot, r.1 = (inboxKey firstEpoch nestedName).encode →
        Covers ⟨Bloom.exact Bytes32, Bloom.exact ℕ⟩ j r.2 := by
  refine ⟨rfl, ⟨[], []⟩, none, rfl, fun h => ?_⟩
  obtain ⟨hash, -, hh, -⟩ := h _ mem_cons_self rfl (numberedFile nestedName) rfl
    (List.replicate 32 0, 1024) mem_cons_self
  exact not_mem_nil (Bloom.exact_contains.1 hh)

def sharedSnapshot : List (Bytes × Value) :=
  ((fileKey ['g']).encode, .file (some (numberedFile ['g']))) :: nestedSnapshot

theorem liveScan_covers_shared :
    ∃ j floor, createCompactionFilter sharedSnapshot Db.empty firstEpoch [] = .ok (j, floor) ∧
      ∀ bl, (∀ r ∈ sharedSnapshot, FILE_PREFIX <+: r.1 → Covers bl j r.2) ∧
        ∀ r ∈ sharedSnapshot, ∀ name, validateFileName name = .ok () →
          r.1 = (inboxKey firstEpoch name).encode → Covers bl j r.2 := by
  have h : createCompactionFilter sharedSnapshot Db.empty firstEpoch [] =
      .ok (⟨[⟨List.replicate 32 0, rfl⟩], [1024]⟩, none) := rfl
  refine ⟨_, _, h, (liveScan_covers_iff h).2 ?_⟩
  -- every row carries the one block of `g`
  have hg : Known sharedSnapshot firstEpoch [] (List.replicate 32 0, 1024) :=
    .inl ⟨_, mem_cons_self, .inr (by decide), _, rfl, mem_cons_self⟩
  rintro r hr name - - - ref ⟨fi, hfi, href⟩
  have href' : ref = (List.replicate 32 0, 1024) := by
    simp only [sharedSnapshot, nestedSnapshot, mem_cons, not_mem_nil, or_false] at hr
    rcases hr with rfl | rfl <;> cases hfi <;> exact mem_singleton.1 href
  rw [href']
  exact ⟨⟨_, hg⟩, ⟨_, hg⟩⟩

end Bepository.Storage
