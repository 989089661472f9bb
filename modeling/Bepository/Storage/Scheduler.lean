import Mathlib.Data.List.Nodup
import Mathlib.Data.List.Pairwise
import Bepository.Lib.Result
import Bepository.Bep.Proto

/-!
# Compaction proposals (`bepository-storage/src/compaction.rs`)

`BepCompactionScheduler::propose` forwards what the size-tiered scheduler proposes for the block segment
and adds, for each other segment that has grown enough and is not being compacted, a spec that merges all
of it.  The destination is the lowest run of the segment; a segment without runs gets a number from a
counter that starts above every number in use.  What the manifest says is data here, and the
size-tiered scheduler is a parameter.
-/

namespace Bepository.Scheduler

open Lib List Option

/-! ### The compactor's state -/

/-- `SourceId`. -/
inductive SourceId where
  | sstView (id : ℕ)
  | sortedRun (id : ℕ)
  deriving DecidableEq

/-- `CompactionSpec`. -/
structure CompactionSpec where
  segment : Bytes
  sources : List SourceId
  destination : Option ℕ
  deriving DecidableEq

/-- A segment of the manifest: its prefix, the ids of its L0 views and those of its sorted runs. -/
structure Segment where
  segPrefix : Bytes
  l0 : List ℕ
  compacted : List ℕ

structure Compaction where
  spec : CompactionSpec
  active : Bool

/-- `CompactorStateView`: the sorted runs outside all segments, the segments, and the compactions, if
there are any on record. -/
structure CompactorStateView where
  compacted : List ℕ
  segments : List Segment
  compactions : Option (List Compaction)

def CompactorStateView.active (state : CompactorStateView) : List CompactionSpec :=
  ((state.compactions.getD []).filter Compaction.active).map Compaction.spec

def CompactorStateView.runs (state : CompactorStateView) : List ℕ :=
  state.compacted ++ state.segments.flatMap Segment.compacted

/-! ### `propose` -/

/-- `b`. -/
def BLOCK_SEGMENT_PREFIX : Bytes := [98]

def METADATA_MIN_L0 : ℕ := 4

/-- `u32::MAX`. -/
def U32_MAX : ℕ := 2 ^ 32 - 1

/-- `saturating_add(1)`. -/
def saturatingSucc (id : ℕ) : ℕ := min (id + 1) U32_MAX

def retainBlockSegmentSpecs (specs : List CompactionSpec) : List CompactionSpec :=
  specs.filter fun spec => spec.segment = BLOCK_SEGMENT_PREFIX

def nextFreeSrId (taken : List ℕ) : ℕ := (taken.max?.map saturatingSucc).getD 0

def Segment.sources (segment : Segment) : List SourceId :=
  segment.l0.map .sstView ++ segment.compacted.map .sortedRun

def Segment.due (segment : Segment) : Bool :=
  segment.l0.length ≥ METADATA_MIN_L0 || segment.compacted.length > 1

/-- The loop over the segments; `nextDest` is the counter. -/
def proposeSegments (activeSegments : List Bytes) : ℕ → List Segment → List CompactionSpec
  | _, [] => []
  | nextDest, segment :: segments =>
    if segment.segPrefix = BLOCK_SEGMENT_PREFIX then proposeSegments activeSegments nextDest segments
    else if activeSegments.contains segment.segPrefix then proposeSegments activeSegments nextDest segments
    else if !segment.due then proposeSegments activeSegments nextDest segments
    else
      ⟨segment.segPrefix, segment.sources, some (segment.compacted.min?.getD nextDest)⟩ ::
        proposeSegments activeSegments
          (if segment.compacted.isEmpty then saturatingSucc nextDest else nextDest) segments

def taken (state : CompactorStateView) (specs : List CompactionSpec) : List ℕ :=
  state.runs ++ specs.filterMap CompactionSpec.destination ++
    state.active.filterMap CompactionSpec.destination

/-- `propose`.  `store` is what the slot holds: nothing before the store is open, and then whether it
is closing. -/
def propose (store : Option Bool) (sizeTiered : CompactorStateView → List CompactionSpec)
    (state : CompactorStateView) : List CompactionSpec :=
  match store with
  | none => []
  | some true => []
  | some false =>
    let specs := retainBlockSegmentSpecs (sizeTiered state)
    specs ++ proposeSegments (state.active.map CompactionSpec.segment) (nextFreeSrId (taken state specs))
      state.segments

/-! ### The loop -/

/-- What a spec of the loop is for its segment; `floor` is where the counter started. -/
structure Compacts (activeSegments : List Bytes) (floor : ℕ) (segment : Segment) (spec : CompactionSpec) :
    Prop where
  segment_eq : spec.segment = segment.segPrefix
  metadata : segment.segPrefix ≠ BLOCK_SEGMENT_PREFIX
  idle : segment.segPrefix ∉ activeSegments
  sources_eq : spec.sources = segment.sources
  destination_eq : ∃ d, spec.destination = some d ∧
    ((segment.compacted = [] ∧ floor ≤ d) ∨ segment.compacted.min? = some d)

section Loop

variable {activeSegments : List Bytes} {next next' : ℕ} {segments : List Segment} {segment : Segment}
  {spec : CompactionSpec}

lemma Compacts.mono (h : Compacts activeSegments next' segment spec) (hle : next ≤ next') :
    Compacts activeSegments next segment spec := by
  obtain ⟨hseg, hmeta, hidle, hsrc, d, hd, hcase⟩ := h
  refine ⟨hseg, hmeta, hidle, hsrc, d, hd, hcase.imp_left fun hfresh => ?_⟩
  exact ⟨hfresh.1, hle.trans hfresh.2⟩

lemma proposeSegments_compacts (activeSegments : List Bytes) (hroom : next + segments.length ≤ U32_MAX) :
    ∃ chosen, chosen.Sublist segments ∧
      List.Forall₂ (Compacts activeSegments next) chosen (proposeSegments activeSegments next segments) := by
  induction segments generalizing next with
  | nil => exact ⟨[], .slnil, .nil⟩
  | cons segment segments ih =>
    rw [length_cons] at hroom
    have hskip : ∃ chosen, chosen.Sublist (segment :: segments) ∧
        List.Forall₂ (Compacts activeSegments next) chosen (proposeSegments activeSegments next segments) := by
      obtain ⟨chosen, hsub, hall⟩ := @ih next (by omega)
      exact ⟨chosen, hsub.cons segment, hall⟩
    rw [proposeSegments]
    split_ifs with hblock hact hdue hempty
    · exact hskip
    · exact hskip
    · exact hskip
    · -- a segment without runs takes the number of the counter
      have hnil : segment.compacted = [] := List.isEmpty_iff.1 hempty
      have hsucc : saturatingSucc next = next + 1 := min_eq_left (by omega)
      obtain ⟨chosen, hsub, hall⟩ := @ih (saturatingSucc next) (by omega)
      refine ⟨segment :: chosen, hsub.cons_cons segment, .cons ⟨rfl, hblock, by simpa using hact, rfl, ?_⟩
        (hall.imp fun _ _ h => h.mono (by omega))⟩
      exact ⟨next, by simp [hnil], .inl ⟨hnil, le_rfl⟩⟩
    · have hne : segment.compacted ≠ [] := fun h => hempty (List.isEmpty_iff.2 h)
      obtain ⟨d, hd⟩ := isSome_iff_exists.1 (isSome_min?_of_ne_nil hne)
      obtain ⟨chosen, hsub, hall⟩ := @ih next (by omega)
      refine ⟨segment :: chosen, hsub.cons_cons segment, .cons ⟨rfl, hblock, by simpa using hact, rfl, ?_⟩ hall⟩
      exact ⟨d, by simp [hd], .inr hd⟩

lemma proposeSegments_nodup (activeSegments : List Bytes) (hroom : next + segments.length ≤ U32_MAX)
    (hruns : (segments.flatMap Segment.compacted).Nodup)
    (hlt : ∀ id ∈ segments.flatMap Segment.compacted, id < next) :
    ((proposeSegments activeSegments next segments).filterMap CompactionSpec.destination).Nodup ∧
      ∀ d ∈ (proposeSegments activeSegments next segments).filterMap CompactionSpec.destination,
        next ≤ d ∨ d ∈ segments.flatMap Segment.compacted := by
  induction segments generalizing next with
  | nil => simp [proposeSegments]
  | cons segment segments ih =>
    rw [length_cons] at hroom
    rw [flatMap_cons] at hruns hlt
    obtain ⟨-, hrest, hdisj⟩ := nodup_append'.1 hruns
    have hltrest : ∀ id ∈ segments.flatMap Segment.compacted, id < next :=
      fun id hid => hlt id (mem_append_right _ hid)
    have hskip := @ih next (by omega) hrest hltrest
    have hskip' : ((proposeSegments activeSegments next segments).filterMap CompactionSpec.destination).Nodup ∧
        ∀ d ∈ (proposeSegments activeSegments next segments).filterMap CompactionSpec.destination,
          next ≤ d ∨ d ∈ (segment :: segments).flatMap Segment.compacted := by
      refine ⟨hskip.1, fun d hd => (hskip.2 d hd).imp_right fun hmem => ?_⟩
      rw [flatMap_cons]
      exact mem_append_right _ hmem
    rw [proposeSegments]
    split_ifs with hblock hact hdue hempty
    · exact hskip'
    · exact hskip'
    · exact hskip'
    · have hnil : segment.compacted = [] := List.isEmpty_iff.1 hempty
      have hsucc : saturatingSucc next = next + 1 := min_eq_left (by omega)
      rw [hsucc]
      obtain ⟨hnodup, hcase⟩ := @ih (next + 1) (by omega) hrest fun id hid => (hltrest id hid).trans (by omega)
      simp only [filterMap_cons, hnil, min?_nil, getD_none, nodup_cons, mem_cons, flatMap_cons, nil_append]
      refine ⟨⟨fun hmem => ?_, hnodup⟩, ?_⟩
      · rcases hcase _ hmem with hge | hrun
        · omega
        · exact lt_irrefl _ (hltrest _ hrun)
      · rintro d (rfl | hd)
        · exact .inl le_rfl
        · exact (hcase d hd).imp_left fun h => by omega
    · have hne : segment.compacted ≠ [] := fun h => hempty (List.isEmpty_iff.2 h)
      obtain ⟨m, hm⟩ := isSome_iff_exists.1 (isSome_min?_of_ne_nil hne)
      have hmem : m ∈ segment.compacted := min?_mem hm
      simp only [filterMap_cons, hm, getD_some, nodup_cons, mem_cons, flatMap_cons, mem_append]
      refine ⟨⟨fun hin => ?_, hskip.1⟩, ?_⟩
      · rcases hskip.2 _ hin with hge | hrun
        · exact absurd (hlt m (mem_append_left _ hmem)) (by omega)
        · exact hdisj hmem hrun
      · rintro d (rfl | hd)
        · exact .inr (.inl hmem)
        · exact (hskip.2 d hd).imp_right .inr

end Loop

/-! ### All proposals -/

/-- What is assumed of the state and of the size-tiered proposals: run ids are unique and leave room
for one number for each segment, the destination of an active compaction is no run of another
segment, and the destinations proposed for the block segment differ and are not used outside it. -/
structure Sound (state : CompactorStateView) (proposals : List CompactionSpec) : Prop where
  segments_le : state.segments.length ≤ U32_MAX
  runs_nodup : state.runs.Nodup
  runs_lt : ∀ id ∈ state.runs, id + state.segments.length < U32_MAX
  active_own : ∀ c ∈ state.active, ∀ d ∈ c.destination,
    ∀ s ∈ state.segments, d ∈ s.compacted → s.segPrefix = c.segment
  block_nodup : ((retainBlockSegmentSpecs proposals).filterMap CompactionSpec.destination).Nodup
  block_own : ∀ spec ∈ retainBlockSegmentSpecs proposals, ∀ d ∈ spec.destination,
    d ∉ state.compacted ∧ (∀ s ∈ state.segments, d ∈ s.compacted → s.segPrefix = BLOCK_SEGMENT_PREFIX) ∧
      ∀ c ∈ state.active, d ∈ c.destination → c.segment = BLOCK_SEGMENT_PREFIX

def Roomy (state : CompactorStateView) (proposals : List CompactionSpec) : Prop :=
  ∀ id ∈ (retainBlockSegmentSpecs proposals ++ state.active).filterMap CompactionSpec.destination,
    id + state.segments.length < U32_MAX

/-- Proposed destinations differ from each other and from the runs of other segments, and only a
forwarded spec can have the destination of an active compaction, one of the block segment. -/
structure Apart (state : CompactorStateView) (specs : List CompactionSpec) : Prop where
  nodup : (specs.filterMap CompactionSpec.destination).Nodup
  active : ∀ spec ∈ specs, ∀ c ∈ state.active, ∀ d ∈ spec.destination, d ∈ c.destination →
    spec.segment = BLOCK_SEGMENT_PREFIX ∧ c.segment = BLOCK_SEGMENT_PREFIX
  runs : ∀ spec ∈ specs, ∀ d ∈ spec.destination,
    d ∉ state.compacted ∧ ∀ s ∈ state.segments, d ∈ s.compacted → s.segPrefix = spec.segment

/-- The spec merges all of a metadata segment that is not being compacted, into its lowest run or, if it
has none, into a run with a number that is not in use. -/
structure Merges (state : CompactorStateView) (forwarded : List CompactionSpec) (segment : Segment)
    (spec : CompactionSpec) : Prop where
  segment_eq : spec.segment = segment.segPrefix
  metadata : segment.segPrefix ≠ BLOCK_SEGMENT_PREFIX
  idle : ∀ c ∈ state.active, c.segment ≠ segment.segPrefix
  sources_eq : spec.sources = segment.l0.map .sstView ++ segment.compacted.map .sortedRun
  destination_eq : ∃ d, spec.destination = some d ∧
    (segment.compacted.min? = some d ∨ segment.compacted = [] ∧ d ∉ taken state forwarded)

section Proposals

variable {state : CompactorStateView} {proposals : List CompactionSpec}

lemma nextFreeSrId_spec (h : Sound state proposals) (hroom : Roomy state proposals) :
    (∀ id ∈ taken state (retainBlockSegmentSpecs proposals),
      id < nextFreeSrId (taken state (retainBlockSegmentSpecs proposals))) ∧
    nextFreeSrId (taken state (retainBlockSegmentSpecs proposals)) + state.segments.length ≤ U32_MAX := by
  have hlt : ∀ id ∈ taken state (retainBlockSegmentSpecs proposals), id + state.segments.length < U32_MAX := by
    intro id hid
    simp only [taken, mem_append] at hid
    rcases hid with (hid | hid) | hid
    · exact h.runs_lt id hid
    · exact hroom id (by rw [filterMap_append]; exact mem_append_left _ hid)
    · exact hroom id (by rw [filterMap_append]; exact mem_append_right _ hid)
  generalize taken state (retainBlockSegmentSpecs proposals) = ids at hlt ⊢
  unfold nextFreeSrId
  cases hmax : ids.max? with
  | none =>
    rw [max?_eq_none_iff] at hmax
    subst hmax
    simpa using h.segments_le
  | some m =>
    obtain ⟨hmem, hle⟩ := max?_eq_some_iff.1 hmax
    have hm := hlt m hmem
    have hsucc : saturatingSucc m = m + 1 := min_eq_left (by omega)
    simp only [map_some, getD_some, hsucc]
    exact ⟨fun id hid => Nat.lt_succ_of_le (hle id hid), by omega⟩

lemma mem_retainBlockSegmentSpecs {spec : CompactionSpec} :
    spec ∈ retainBlockSegmentSpecs proposals ↔ spec ∈ proposals ∧ spec.segment = BLOCK_SEGMENT_PREFIX := by
  simp [retainBlockSegmentSpecs]

lemma mem_runs {id : ℕ} : id ∈ state.runs ↔ id ∈ state.compacted ∨ ∃ s ∈ state.segments, id ∈ s.compacted := by
  simp [CompactorStateView.runs]

lemma Compacts.origin {floor d : ℕ} {segment : Segment} {spec : CompactionSpec}
    (h : Compacts (state.active.map CompactionSpec.segment) floor segment spec)
    (hd : spec.destination = some d) :
    floor ≤ d ∨ d ∈ segment.compacted ∧ spec.segment = segment.segPrefix := by
  obtain ⟨d', hd', hcase⟩ := h.destination_eq
  rw [hd] at hd'
  cases hd'
  rcases hcase with ⟨-, hle⟩ | hmin
  · exact .inl hle
  · exact .inr ⟨min?_mem hmin, h.segment_eq⟩

lemma Sound.segment_eq {s s' : Segment} {d : ℕ} (h : Sound state proposals) (hs : s ∈ state.segments)
    (hs' : s' ∈ state.segments) (hd : d ∈ s.compacted) (hd' : d ∈ s'.compacted) : s = s' := by
  have hruns := (nodup_append'.1 h.runs_nodup).2.1
  rw [nodup_flatMap] at hruns
  by_contra hne
  have : Std.Symm (Function.onFun List.Disjoint Segment.compacted) :=
    ⟨fun s s' (hdisj : s.compacted.Disjoint s'.compacted) => hdisj.symm⟩
  exact hruns.2.forall hs hs' hne hd hd'

/-- **Compaction proposals do not collide**, if the numbers of active compactions and of the forwarded
specs leave room as the run ids do.  A forwarded spec has the destination of an active compaction only if
the size-tiered scheduler proposed one of the block segment for it again. -/
theorem proposals_apart (store : Option Bool) (sizeTiered : CompactorStateView → List CompactionSpec)
    (state : CompactorStateView) (h : Sound state (sizeTiered state)) (hroom : Roomy state (sizeTiered state)) :
    Apart state (propose store sizeTiered state) ∧
      ∃ forwarded own chosen, propose store sizeTiered state = forwarded ++ own ∧
        (∀ spec ∈ forwarded, spec ∈ sizeTiered state ∧ spec.segment = BLOCK_SEGMENT_PREFIX) ∧
        chosen.Sublist state.segments ∧ List.Forall₂ (Merges state forwarded) chosen own := by
  unfold propose
  split
  · exact ⟨⟨.nil, by simp, by simp⟩, [], [], [], rfl, by simp, nil_sublist _, .nil⟩
  · exact ⟨⟨.nil, by simp, by simp⟩, [], [], [], rfl, by simp, nil_sublist _, .nil⟩
  · simp only
    obtain ⟨hlt, hle⟩ := nextFreeSrId_spec h hroom
    generalize nextFreeSrId (taken state (retainBlockSegmentSpecs (sizeTiered state))) = next at hlt hle ⊢
    have hruns : ∀ id ∈ state.runs, id < next :=
      fun id hid => hlt id (mem_append_left _ (mem_append_left _ hid))
    have hfree : ∀ d, next ≤ d → d ∉ taken state (retainBlockSegmentSpecs (sizeTiered state)) :=
      fun d hd hmem => absurd (hlt d hmem) (by omega)
    obtain ⟨chosen, hsub, hall⟩ := proposeSegments_compacts (state.active.map CompactionSpec.segment) hle
    obtain ⟨hnodup, -⟩ := proposeSegments_nodup (state.active.map CompactionSpec.segment) hle
      (nodup_append'.1 h.runs_nodup).2.1 (fun id hid => hruns id (mem_append_right _ hid))
    generalize proposeSegments (state.active.map CompactionSpec.segment) next state.segments = own at hall hnodup ⊢
    have hspec : ∀ spec ∈ own, ∃ s ∈ state.segments,
        Compacts (state.active.map CompactionSpec.segment) next s spec := by
      intro spec hmem
      obtain ⟨s, hs, hc⟩ := exists_of_forall₂ hall hmem
      exact ⟨s, hsub.subset hs, hc⟩
    refine ⟨⟨?_, ?_, ?_⟩, _, own, chosen, rfl, fun _ => mem_retainBlockSegmentSpecs.1, hsub,
      hall.imp fun s spec hc => ?_⟩
    · -- a number of the loop is no forwarded one: it is above all of them, or a run of another segment
      rw [filterMap_append]
      refine nodup_append'.2 ⟨h.block_nodup, hnodup, fun d hd hd' => ?_⟩
      obtain ⟨spec, hmem, hdest⟩ := mem_filterMap.1 hd
      obtain ⟨spec', hmem', hdest'⟩ := mem_filterMap.1 hd'
      obtain ⟨s, hs, hc⟩ := hspec spec' hmem'
      rcases hc.origin hdest' with hge | ⟨hrun, -⟩
      · exact hfree d hge (mem_append_left _ (mem_append_right _ hd))
      · exact hc.metadata ((h.block_own spec hmem d hdest).2.1 s hs hrun)
    · intro spec hmem c hcmem d hdest hcdest
      rcases mem_append.1 hmem with hmem | hmem
      · exact ⟨(mem_retainBlockSegmentSpecs.1 hmem).2, (h.block_own spec hmem d hdest).2.2 c hcmem hcdest⟩
      · obtain ⟨s, hs, hc⟩ := hspec spec hmem
        rcases hc.origin hdest with hge | ⟨hrun, -⟩
        · exact absurd (mem_append_right _ (mem_filterMap.2 ⟨c, hcmem, hcdest⟩)) (hfree d hge)
        · refine absurd ?_ hc.idle
          rw [h.active_own c hcmem d hcdest s hs hrun]
          exact List.mem_map_of_mem hcmem
    · intro spec hmem d hdest
      rcases mem_append.1 hmem with hmem | hmem
      · obtain ⟨hroot, hseg, -⟩ := h.block_own spec hmem d hdest
        refine ⟨hroot, fun s hs hd => ?_⟩
        rw [hseg s hs hd, (mem_retainBlockSegmentSpecs.1 hmem).2]
      · obtain ⟨s, hs, hc⟩ := hspec spec hmem
        rcases hc.origin hdest with hge | ⟨hrun, hseg⟩
        · have hno : d ∉ state.runs := fun hd => absurd (hruns d hd) (by omega)
          exact ⟨fun hd => hno (mem_runs.2 (.inl hd)), fun s' hs' hd => absurd (mem_runs.2 (.inr ⟨s', hs', hd⟩)) hno⟩
        · refine ⟨fun hd => ?_, fun s' hs' hd => ?_⟩
          · exact (nodup_append'.1 h.runs_nodup).2.2 hd (mem_flatMap.2 ⟨s, hs, hrun⟩)
          · rw [hseg, h.segment_eq hs' hs hd hrun]
    · refine ⟨hc.segment_eq, hc.metadata, fun c hcmem heq => ?_, hc.sources_eq, ?_⟩
      · exact hc.idle (heq ▸ List.mem_map_of_mem hcmem)
      · obtain ⟨d, hd, hcase⟩ := hc.destination_eq
        exact ⟨d, hd, hcase.symm.imp_right fun hfresh => ⟨hfresh.1, hfree d hfresh.2⟩⟩

end Proposals

/-! ### Three segments -/

/-- The block segment with one run, which is being compacted into a new one; a metadata segment with
two runs, and one with four L0 views only. -/
def threeSegments : CompactorStateView where
  compacted := []
  segments := [⟨[98], [1, 2], [3]⟩, ⟨[109], [4], [7, 5]⟩, ⟨[110], [10, 11, 12, 13], []⟩]
  compactions := some [⟨⟨[98], [.sortedRun 3], some 8⟩, true⟩, ⟨⟨[110], [], some 9⟩, false⟩]

/-- The size-tiered scheduler proposes a compaction of the block segment, and one that is not forwarded. -/
def twoProposals (_ : CompactorStateView) : List CompactionSpec :=
  [⟨[98], [.sstView 1, .sstView 2], some 9⟩, ⟨[109], [.sstView 4], some 20⟩]

theorem proposals_apart_three :
    Apart threeSegments (propose (some false) twoProposals threeSegments) ∧
    propose (some false) twoProposals threeSegments = [⟨[98], [.sstView 1, .sstView 2], some 9⟩,
        ⟨[109], [.sstView 4, .sortedRun 7, .sortedRun 5], some 5⟩,
        ⟨[110], [.sstView 10, .sstView 11, .sstView 12, .sstView 13], some 10⟩] := by
  refine ⟨(proposals_apart (some false) twoProposals threeSegments ?_ ?_).1, by decide⟩
  · exact ⟨by decide, by decide, by decide, by decide, by decide, by decide⟩
  · unfold Roomy
    decide

/-- One metadata segment without runs; a compaction of the block segment is active and has reserved the
last number there is. -/
def lastReserved : CompactorStateView where
  compacted := []
  segments := [⟨[98], [], []⟩, ⟨[109], [1, 2, 3, 4], []⟩]
  compactions := some [⟨⟨[98], [], some U32_MAX⟩, true⟩]

/-- Without room above the number of an active compaction the counter stays where it is, and the proposal
takes that number; and what the size-tiered scheduler proposes for the block segment is forwarded even if
an active compaction of that segment has the same destination. -/
theorem proposals_collide :
    (Sound lastReserved [] ∧ ∃ spec ∈ propose (some false) (fun _ => []) lastReserved,
      ∃ c ∈ lastReserved.active, spec.destination = c.destination ∧ spec.segment ≠ c.segment) ∧
    Sound threeSegments [⟨[98], [], some 8⟩] ∧
      ∃ spec ∈ propose (some false) (fun _ => [⟨[98], [], some 8⟩]) threeSegments,
        ∃ c ∈ threeSegments.active, spec.destination = c.destination := by
  refine ⟨⟨⟨by decide, by decide, by decide, by decide, by decide, by decide⟩, by decide⟩,
    ⟨by decide, by decide, by decide, by decide, by decide, by decide⟩, by decide⟩

end Bepository.Scheduler
