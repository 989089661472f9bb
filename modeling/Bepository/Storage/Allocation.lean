import Bepository.Storage.Host

/-!
# Block numbers are not reused

`SeqAllocator` hands out the numbers of a reservation from memory.  The end of the reservation is in the
database, and flushed, before the first of its numbers is handed out, so that after a crash the next
reservation starts beyond it.  `Beyond` says this of any set of numbers that count as used.
-/

namespace Bepository.Storage

open Lib List Option Table

namespace Host

/-- The 64-bit counter does not wrap in a reservation that is about to be written. -/
def roomy (h : Host) : HostAct → Bool
  | .next t | .fail t _ =>
    match h.machine.calls.lookup t, h.phases.lookup t with
    | some ⟨_, .allocate ..⟩, some (.read m) => reserveBase m + RESERVATION_N < 2 ^ 64
    | _, _ => true
  | _ => true

def keepsDurable (h : Host) : HostAct → Bool
  | .crash lost _ => lost + h.durable ≤ h.past.length
  | _ => true

/-- The numbers to come are beyond the used ones: those of the next reservation, those of the reservation
in memory, and those of the reservation that is being flushed. -/
structure Beyond (h : Host) (used : ℕ → Prop) : Prop where
  base : ∀ s, used s → s < baseSeq h.db
  range : h.machine.store.range.next < h.machine.store.range.stop →
    h.machine.store.range.stop ≤ baseSeq h.db ∧ h.machine.store.range.stop < 2 ^ 64 ∧
      MIN_BLOCK_SEQ ≤ h.machine.store.range.next ∧ ∀ s, used s → s < h.machine.store.range.next
  flushing : ∀ t base limit, h.phases.lookup t = some (.flushing base limit) →
    limit = base + RESERVATION_N ∧ limit < 2 ^ 64 ∧ limit ≤ baseSeq h.db ∧ MIN_BLOCK_SEQ ≤ base ∧
      (∀ s, used s → s < base) ∧
      (h.machine.store.range.next < h.machine.store.range.stop → h.machine.store.range.stop ≤ base)

section Steps

variable {bl : Blooms} {h h' : Host} {a : HostAct} {used : ℕ → Prop} {t : ℕ} {name : Str} {m : FolderIndexMeta}
  {hash : Bytes32} {data : Bytes} {db : Db}

lemma baseSeq_of_meta (hm : getIndexMeta db = .ok m) : baseSeq db = reserveBase m := by
  unfold baseSeq reserveBase
  rw [hm]

lemma getIndexMeta_reserve : getIndexMeta (db.write (reserveBatch m)) =
    .ok { m with nextBlockseq := some (reserveLimit m) } := by
  unfold getIndexMeta reserveBatch
  rw [Db.get_write]
  simp [lastOp, BatchOp.key]

lemma le_reserveBase : MIN_BLOCK_SEQ ≤ reserveBase m := le_max_right _ _

lemma reserveLimit_of_room (hr : reserveBase m + RESERVATION_N < 2 ^ 64) :
    reserveLimit m = reserveBase m + RESERVATION_N := Nat.mod_eq_of_lt hr

lemma baseSeq_reserve (hr : reserveBase m + RESERVATION_N < 2 ^ 64) :
    baseSeq (db.write (reserveBatch m)) = reserveBase m + RESERVATION_N := by
  rw [baseSeq_of_meta getIndexMeta_reserve]
  unfold reserveBase at *
  simp only [getD_some, reserveLimit_of_room hr]
  have := le_reserveBase (m := m)
  unfold reserveBase at *
  omega

lemma baseSeq_le_reserve (hm : getIndexMeta db = .ok m)
    (hr : reserveBase m + RESERVATION_N < 2 ^ 64) : baseSeq db ≤ baseSeq (db.write (reserveBatch m)) := by
  rw [baseSeq_of_meta hm, baseSeq_reserve hr]
  exact Nat.le_add_right _ _

section

variable (hB : h.Beyond used)
include hB

lemma Beyond.mono {used' : ℕ → Prop} (hu : ∀ s, used' s → used s) : h.Beyond used' := by
  refine ⟨fun s hs => hB.base s (hu s hs), fun hlt => ?_, fun t base limit ht => ?_⟩
  · obtain ⟨h₁, h₂, h₃, h₄⟩ := hB.range hlt
    exact ⟨h₁, h₂, h₃, fun s hs => h₄ s (hu s hs)⟩
  · obtain ⟨h₁, h₂, h₃, h₄, h₅, h₆⟩ := hB.flushing t base limit ht
    exact ⟨h₁, h₂, h₃, h₄, fun s hs => h₅ s (hu s hs), h₆⟩

lemma Beyond.frame (hb : baseSeq h'.db = baseSeq h.db) (hr : h'.machine.store.range = h.machine.store.range)
    (hp : ∀ t base limit, h'.phases.lookup t = some (.flushing base limit) →
      h.phases.lookup t = some (.flushing base limit)) :
    h'.Beyond used := by
  refine ⟨?_, ?_, fun t base limit ht => ?_⟩
  · rw [hb]
    exact hB.base
  · rw [hb, hr]
    exact hB.range
  · rw [hb, hr]
    exact hB.flushing t base limit (hp t base limit ht)

lemma Beyond.reserve (hm : getIndexMeta h.db = .ok m) (hroom : reserveBase m + RESERVATION_N < 2 ^ 64)
    (hdb : h'.db = h.db.write (reserveBatch m)) (hr : h'.machine.store.range = h.machine.store.range)
    (hp : ∀ t base limit, h'.phases.lookup t = some (.flushing base limit) →
      base = reserveBase m ∧ limit = reserveLimit m) :
    h'.Beyond used := by
  have hbase := baseSeq_of_meta hm
  have hbase' : baseSeq h'.db = reserveBase m + RESERVATION_N := by
    rw [hdb, baseSeq_reserve hroom]
  refine ⟨fun s hs => ?_, fun hlt => ?_, fun t base limit ht => ?_⟩
  · have := hB.base s hs
    omega
  · rw [hr] at hlt ⊢
    obtain ⟨h₁, h₂, h₃, h₄⟩ := hB.range hlt
    exact ⟨by omega, h₂, h₃, h₄⟩
  · obtain ⟨rfl, rfl⟩ := hp t base limit ht
    rw [hr, reserveLimit_of_room hroom, hbase', ← hbase]
    refine ⟨rfl, by omega, le_rfl, hbase ▸ le_reserveBase, hB.base, fun hlt => ?_⟩
    exact (hB.range hlt).1

lemma Beyond.take (hlt : h.machine.store.range.next < h.machine.store.range.stop) :
    (h.take t name hash data).Beyond fun s => used s ∨ s = h.machine.store.range.next := by
  obtain ⟨hstop, h64, hmin, hused⟩ := hB.range hlt
  have hwrap : wrapU64 (h.machine.store.range.next + 1) = h.machine.store.range.next + 1 :=
    Nat.mod_eq_of_lt (by omega)
  refine ⟨?_, fun hlt' => ?_, fun t' base limit ht => ?_⟩
  · rintro s (hs | rfl)
    · exact hB.base s hs
    · exact hlt.trans_le hstop
  · change h.machine.store.range.stop ≤ baseSeq h.db ∧ h.machine.store.range.stop < 2 ^ 64 ∧
      MIN_BLOCK_SEQ ≤ wrapU64 (h.machine.store.range.next + 1) ∧
      ∀ s, used s ∨ s = h.machine.store.range.next → s < wrapU64 (h.machine.store.range.next + 1)
    rw [hwrap]
    refine ⟨hstop, h64, by omega, ?_⟩
    rintro s (hs | rfl)
    · have := hused s hs
      omega
    · omega
  · have ht' : h.phases.lookup t' = some (.flushing base limit) := lookup_of_erase ht
    obtain ⟨h₁, h₂, h₃, h₄, h₅, h₆⟩ := hB.flushing t' base limit ht'
    have hle := h₆ hlt
    refine ⟨h₁, h₂, h₃, h₄, ?_, fun _ => hle⟩
    rintro s (hs | rfl)
    · exact h₅ s hs
    · omega

lemma Beyond.flushed (hd : h.Disciplined) {base limit : ℕ}
    (hp : h.phases.lookup t = some (.flushing base limit)) :
    (h.hand t name hash data base ⟨wrapU64 (base + 1), limit⟩).Beyond fun s => used s ∨ s = base := by
  obtain ⟨hlim, h64, hle, hmin, hused, -⟩ := hB.flushing t base limit hp
  have hn : RESERVATION_N = 256 := rfl
  have hwrap : wrapU64 (base + 1) = base + 1 := Nat.mod_eq_of_lt (by omega)
  refine ⟨?_, fun _ => ?_, fun t' base' limit' ht => ?_⟩
  · change ∀ s, used s ∨ s = base → s < baseSeq h.db
    rintro s (hs | rfl)
    · exact hB.base s hs
    · omega
  · change limit ≤ baseSeq h.db ∧ limit < 2 ^ 64 ∧ MIN_BLOCK_SEQ ≤ wrapU64 (base + 1) ∧
      ∀ s, used s ∨ s = base → s < wrapU64 (base + 1)
    rw [hwrap]
    refine ⟨hle, h64, by omega, ?_⟩
    rintro s (hs | rfl)
    · have := hused s hs
      omega
    · omega
  · -- nobody else has the lock
    have ht' : (h.phases.erase t).lookup t' = some (.flushing base' limit') := ht
    rw [lookup_erase'] at ht'
    split_ifs at ht' with hne
    exact absurd (hd.alone t' t _ _ ht' hp (by rintro ⟨⟩) (by rintro ⟨⟩)) hne

end

/-! ### What a step leaves of the reservations -/

lemma baseSeq_eq (db : Db) : baseSeq db = max (nextBlockseq db) MIN_BLOCK_SEQ := by
  unfold baseSeq nextBlockseq
  cases getIndexMeta db with
  | error | ok => rfl

lemma nextBlockseq_of_meta (hm : getIndexMeta db = .ok m) : nextBlockseq db = m.nextBlockseq.getD 0 := by
  unfold nextBlockseq
  rw [hm]

lemma nextBlockseq_of_steps {epoch : Epoch} {pc : Pc} {st st' : Store} {aft : After}
    (hs : pc.Steps epoch name st st' aft) (hf : pc.Formed epoch)
    (hna : ∀ hash data, pc ≠ .allocate hash data) : nextBlockseq st'.db = nextBlockseq st.db := by
  cases hg : pc.guarded with
  | false =>
    unfold nextBlockseq
    rw [getIndexMeta_of_steps hs hf hg]
  | true =>
    cases hs with
    | commitWrite hc =>
      obtain ⟨m, hm, -, -, rfl⟩ := commitWrite_eq_ok hc
      rw [nextBlockseq_of_meta hm, nextBlockseq_of_meta (maxSeq_of_get commit_get_mx).1]
    | @allocate hash data => exact absurd rfl (hna hash data)
    | stagePut | write => cases hg
    | _ => rfl

lemma baseSeq_of_steps {epoch : Epoch} {pc : Pc} {st st' : Store} {aft : After}
    (hs : pc.Steps epoch name st st' aft) (hf : pc.Formed epoch) (hna : ∀ hash data, pc ≠ .allocate hash data) :
    baseSeq st'.db = baseSeq st.db ∧ st'.range = st.range := by
  refine ⟨?_, ?_⟩
  · rw [baseSeq_eq, baseSeq_eq, nextBlockseq_of_steps hs hf hna]
  · cases hs with
    | @allocate hash data => exact absurd rfl (hna hash data)
    | _ => rfl

section

variable (hB : h.Beyond used) (hd : h.Disciplined) (hm : h.Moves a h') (hroom : h.roomy a = true)
  (hcr : ∀ lost epoch, a ≠ .crash lost epoch)
include hB hd hm hroom hcr

/-- **The reservations through a step**, a crash apart: the numbers to come stay beyond those used, and
beyond the one handed out if there is one. -/
theorem Beyond.step : h'.handed = h.handed ∧ h'.Beyond used ∨
      ∃ n d, h'.handed = (n, d) :: h.handed ∧ MIN_BLOCK_SEQ ≤ n ∧ (∀ s, used s → s < n) ∧
        h'.Beyond fun s => used s ∨ s = n := by
  cases hm with
  | refused => exact .inl ⟨rfl, hB⟩
  | start ht | lock => exact .inl ⟨rfl, hB.frame rfl rfl fun _ _ _ ht => ht⟩
  | @call _ t _ _ _ _ _ _ _ hof hc hw hna hs =>
    obtain ⟨hb, hr⟩ := baseSeq_of_steps hs (hd.formed t _ hc) hna
    exact .inl ⟨rfl, hB.frame (by simpa [Host.db] using hb) (by simpa using hr) fun _ _ _ => lookup_of_erase⟩
  | quit => exact .inl ⟨rfl, hB.frame rfl rfl fun _ _ _ => lookup_of_erase⟩
  | advance _ _ hp =>
    refine .inl ⟨rfl, hB.frame rfl rfl fun t' base limit ht => ?_⟩
    simp only [setPhase, lookup_insert'] at ht
    split_ifs at ht
    · cases ht
      cases hp
    · exact ht
  | @reserve t _ _ _ m hc hp =>
    simp only [roomy, hc, hp, decide_eq_true_eq] at hroom
    refine .inl ⟨rfl, hB.reserve (hd.current t m hp) hroom rfl rfl fun t' base limit ht => ?_⟩
    simp only [setPhase, lookup_insert'] at ht
    split_ifs at ht with hne
    · cases ht
      exact ⟨rfl, rfl⟩
    · exact absurd (hd.alone t' t _ _ ht hp (by rintro ⟨⟩) (by rintro ⟨⟩)) hne
  | @reserveFailed t _ _ _ m _ hc hp =>
    simp only [roomy, hc, hp, decide_eq_true_eq] at hroom
    refine .inl ⟨rfl, hB.reserve (hd.current t m hp) hroom rfl rfl fun t' base limit ht => ?_⟩
    have ht' : h.phases.lookup t' = some (.flushing base limit) := lookup_of_erase ht
    obtain rfl := hd.alone t' t _ _ ht' hp (by rintro ⟨⟩) (by rintro ⟨⟩)
    rw [hp] at ht'
    cases ht'
  | take _ hr =>
    obtain ⟨-, -, hmin, hused⟩ := hB.range hr
    exact .inr ⟨_, _, rfl, hmin, hused, hB.take hr⟩
  | @flushed t _ _ _ base limit hc hp =>
    obtain ⟨-, -, -, hmin, hused, -⟩ := hB.flushing t base limit hp
    exact .inr ⟨base, _, rfl, hmin, hused, (hB.flushed hd hp).frame rfl rfl fun _ _ _ ht => ht⟩
  | @crash lost epoch => exact absurd rfl (hcr lost epoch)

lemma Beyond.quiet (hh : h'.handed = h.handed) : h'.Beyond used := by
  rcases hB.step hd hm hroom hcr with ⟨-, hB⟩ | ⟨n, d, hh', -⟩
  · exact hB
  · rw [hh] at hh'
    exact absurd hh' (cons_ne_self _ _).symm

end

end Steps

/-! ### Numbers handed out -/

/-- The numbers handed out so far are distinct, at least `MIN_BLOCK_SEQ`, and below the durable
reservation; so is the reservation in memory.  Along the writes the reservation on disk only grows. -/
structure Numbered (h : Host) : Prop where
  disc : h.Disciplined
  beyond : h.Beyond (· ∈ h.handed.map Prod.fst)
  durable : h.durable ≤ h.past.length
  safe : ∀ s ∈ h.handed.map Prod.fst, s < baseSeq h.durableDb
  stock : h.machine.store.range.next < h.machine.store.range.stop →
    h.machine.store.range.stop ≤ baseSeq h.durableDb
  grows : h.states.Pairwise fun new old => baseSeq old ≤ baseSeq new
  nodup : (h.handed.map Prod.fst).Nodup
  bounds : ∀ p ∈ h.handed, MIN_BLOCK_SEQ ≤ p.1 ∧ p.1 < p.2

section Numbered

variable {bl : Blooms} {h h' : Host} {a : HostAct} {t : ℕ} {name : Str} {hash : Bytes32} {data : Bytes}
  {db : Db}

lemma lt_nextBlockseq {n : ℕ} (hmin : MIN_BLOCK_SEQ ≤ n) (hn : n < baseSeq db) : n < nextBlockseq db := by
  rw [baseSeq_eq] at hn
  omega

lemma states_length : h.states.length = h.past.length + 1 := length_cons

lemma durableDb_write (hle : h.durable ≤ h.past.length) (hdur : h'.durable = h.durable)
    (hpast : h'.past = h.db :: h.past) : h'.durableDb = h.durableDb := by
  have hdrop : h'.states.drop (h'.past.length - h'.durable) = h.states.drop (h.past.length - h.durable) := by
    rw [hpast, hdur, length_cons, show h.past.length + 1 - h.durable = (h.past.length - h.durable) + 1 by omega]
    unfold states
    rw [drop_succ_cons, hpast]
  unfold durableDb
  rw [hdrop]
  have hlen := states_length (h := h)
  cases hcase : h.states.drop (h.past.length - h.durable) with
  | nil =>
    have := congrArg List.length hcase
    rw [length_drop, length_nil] at this
    omega
  | cons => rfl

lemma durableDb_of_flushed (hdur : h.durable = h.past.length) : h.durableDb = h.db := by
  unfold durableDb
  rw [hdur, Nat.sub_self]
  rfl

lemma Numbered.quiet (hN : h.Numbered) (hd : h'.Disciplined) (hB : h'.Beyond (· ∈ h.handed.map Prod.fst))
    (hh : h'.handed = h.handed) (hdur : h'.durable = h.durable)
    (hr : h'.machine.store.range = h.machine.store.range) (hst : h'.past = h.past ∧ h'.db = h.db ∨
      h'.past = h.db :: h.past ∧ baseSeq h.db ≤ baseSeq h'.db) : h'.Numbered := by
  have hdb : h'.durableDb = h.durableDb := by
    rcases hst with ⟨hpast, hdb⟩ | ⟨hpast, -⟩
    · unfold durableDb states
      rw [hpast, hdb, hdur]
    · exact durableDb_write hN.durable hdur hpast
  refine ⟨hd, hh ▸ hB, ?_, ?_, ?_, ?_, hh ▸ hN.nodup, hh ▸ hN.bounds⟩
  · have := hN.durable
    rcases hst with ⟨hpast, -⟩ | ⟨hpast, -⟩
    · rw [hpast, hdur]
      exact this
    · rw [hpast, hdur, length_cons]
      omega
  · rw [hh, hdb]
    exact hN.safe
  · rw [hr, hdb]
    exact hN.stock
  · rcases hst with ⟨hpast, hdb⟩ | ⟨hpast, hle⟩
    · unfold states
      rw [hpast, hdb]
      exact hN.grows
    · unfold states
      rw [hpast]
      refine List.Pairwise.cons (fun old hold => ?_) hN.grows
      rcases mem_cons.1 hold with rfl | hold
      · exact hle
      · exact (rel_of_pairwise_cons hN.grows hold).trans hle

lemma Numbered.hand (hN : h.Numbered) {n : ℕ} {range : SeqRange} (hmin : MIN_BLOCK_SEQ ≤ n)
    (hnew : ∀ s ∈ h.handed.map Prod.fst, s < n) (hn : n < baseSeq h.durableDb)
    (hstop : range.stop ≤ baseSeq h.durableDb)
    (hB : (h.hand t name hash data n range).Beyond fun s => s ∈ h.handed.map Prod.fst ∨ s = n) :
    (h.hand t name hash data n range).Numbered := by
  have hdb : (h.hand t name hash data n range).durableDb = h.durableDb := rfl
  have hmem : ∀ s, s ∈ (h.hand t name hash data n range).handed.map Prod.fst ↔ s ∈ h.handed.map Prod.fst ∨ s = n := by
    intro s
    rw [show (h.hand t name hash data n range).handed = (n, nextBlockseq h.durableDb) :: h.handed from rfl,
      map_cons, mem_cons, or_comm]
  refine ⟨hN.disc.leave name h.machine.store (.go (.readStaged hash (.fresh n data))) rfl rfl rfl trivial
    fun _ _ _ _ => rfl, hB.mono fun s hs => (hmem s).1 hs, hN.durable, fun s hs => ?_, fun _ => ?_,
    hN.grows, ?_, ?_⟩
  · rw [hdb]
    rcases (hmem s).1 hs with hs | rfl
    · exact hN.safe s hs
    · exact hn
  · rw [hdb]
    exact hstop
  · refine nodup_cons.2 ⟨fun hmem => ?_, hN.nodup⟩
    exact absurd (hnew n hmem) (lt_irrefl n)
  · intro p hp
    rcases mem_cons.1 hp with rfl | hp
    · exact ⟨hmin, lt_nextBlockseq hmin hn⟩
    · exact hN.bounds p hp

lemma Numbered.flush (hN : h.Numbered) : ({ h with durable := h.past.length } : Host).Numbered := by
  have hdb : ({ h with durable := h.past.length } : Host).durableDb = h.db := durableDb_of_flushed rfl
  refine ⟨⟨hN.disc.guarded, hN.disc.alone, hN.disc.current, hN.disc.formed⟩,
    hN.beyond.frame rfl rfl fun _ _ _ ht => ht, le_rfl, ?_, fun hlt => ?_, hN.grows, hN.nodup, hN.bounds⟩
  · rw [hdb]
    exact hN.beyond.base
  · rw [hdb]
    exact (hN.beyond.range hlt).1

lemma not_stocked_load {range : SeqRange} (hload : SeqRange.load db = .ok range) :
    ¬ range.next < range.stop := by
  unfold SeqRange.load at hload
  obtain ⟨m, -, hmk⟩ := map_eq_ok.1 hload
  rw [← hmk]
  exact lt_irrefl _

lemma numbered_reopen {epoch : Epoch} {past : List Db} {handed : List (ℕ × ℕ)}
    (hr : reopen db epoch past handed = some h') (hs : ∀ s ∈ handed.map Prod.fst, s < baseSeq db)
    (hg : (db :: past).Pairwise fun new old => baseSeq old ≤ baseSeq new) (hn : (handed.map Prod.fst).Nodup)
    (hb : ∀ p ∈ handed, MIN_BLOCK_SEQ ≤ p.1 ∧ p.1 < p.2) : h'.Numbered := by
  have hdisc := disciplined_reopen hr
  unfold reopen at hr
  split at hr <;> cases hr
  next range hload =>
  have hnot := not_stocked_load hload
  refine ⟨hdisc, ⟨hs, fun hlt => absurd hlt hnot, (by rintro _ _ _ ⟨⟩)⟩, le_rfl, ?_,
    fun hlt => absurd hlt hnot, hg, hn, hb⟩
  rw [durableDb_of_flushed rfl]
  exact hs

lemma Numbered.crash (hN : h.Numbered) {lost : ℕ} {epoch : Epoch} {past : List Db}
    (hd : h.states.drop lost = db :: past) (hr : reopen db epoch past h.handed = some h')
    (hk : lost + h.durable ≤ h.past.length) : h'.Numbered := by
  have hgrows : (db :: past).Pairwise fun new old => baseSeq old ≤ baseSeq new := by
    rw [← hd]
    exact hN.grows.sublist (drop_sublist lost h.states)
  -- the durable state is among those that are left
  have hle : baseSeq h.durableDb ≤ baseSeq db := by
    have hdrop : h.states.drop (h.past.length - h.durable) =
        (db :: past).drop (h.past.length - h.durable - lost) := by
      rw [← hd, drop_drop]
      congr 1
      omega
    have hlen := states_length (h := h)
    unfold durableDb
    cases hcase : h.states.drop (h.past.length - h.durable) with
    | nil =>
      have := congrArg List.length hcase
      rw [length_drop, length_nil] at this
      omega
    | cons db' =>
      have hmem : db' ∈ db :: past := by
        refine mem_of_mem_drop (i := h.past.length - h.durable - lost) ?_
        rw [← hdrop, hcase]
        exact mem_cons_self
      rcases mem_cons.1 hmem with rfl | hmem
      · exact le_rfl
      · exact rel_of_pairwise_cons hgrows hmem
  exact numbered_reopen hr (fun s hs => (hN.safe s hs).trans_le hle) hgrows hN.nodup hN.bounds

theorem Numbered.step (hN : h.Numbered) (hs : h.step bl a = some h') (hroom : h.roomy a = true)
    (hk : h.keepsDurable a = true) : h'.Numbered := by
  have hm := step_moves hN.disc hs
  have hd := hN.disc.step hm
  -- a step with this history that hands out no number
  have hquiet : h'.handed = h.handed → h'.durable = h.durable → h'.machine.store.range = h.machine.store.range →
      (h'.past = h.past ∧ h'.db = h.db ∨ h'.past = h.db :: h.past ∧ baseSeq h.db ≤ baseSeq h'.db) →
      (∀ lost epoch, a ≠ .crash lost epoch) → h'.Numbered := by
    intro hh hdur hr hst hcr
    exact hN.quiet hd (hN.beyond.quiet hN.disc hm hroom hcr hh) hh hdur hr hst
  cases hm with
  | refused => exact hN
  | start | lock | advance => exact hquiet rfl rfl rfl (.inl ⟨rfl, rfl⟩) (by rintro _ _ ⟨⟩)
  | @call _ t name _ st _ aft' _ _ hof hc hw hna hst ha hl =>
    obtain ⟨hb, hr⟩ := baseSeq_of_steps hst (hN.disc.formed t _ hc) hna
    refine hquiet rfl rfl (by simpa using hr) ?_ (by rintro _ _ rfl; cases hof)
    have hdb : (h.machine.after t name (st, aft')).store.db = st.db := by simp
    cases hl with
    | read hsame => exact .inl ⟨rfl, hdb.trans hsame⟩
    | write | commit => exact .inr ⟨rfl, (hb.symm.trans (congrArg baseSeq hdb.symm)).le⟩
  | quit hof =>
    exact hquiet rfl rfl rfl (.inl ⟨rfl, rfl⟩) (by rintro _ _ rfl; cases hof)
  | @reserve t _ _ _ m hc hp | @reserveFailed t _ _ _ m _ hc hp =>
    simp only [roomy, hc, hp, decide_eq_true_eq] at hroom
    refine hquiet rfl rfl rfl (.inr ⟨rfl, ?_⟩) (by rintro _ _ ⟨⟩)
    exact baseSeq_le_reserve (hN.disc.current t m hp) hroom
  | take _ hr =>
    obtain ⟨hstop, h64, hmin, hused⟩ := hN.beyond.range hr
    exact hN.hand hmin hused (hr.trans_le (hN.stock hr)) (hN.stock hr) (hN.beyond.take hr)
  | @flushed t _ _ _ base limit hc hp =>
    obtain ⟨hlim, h64, hle, hmin, hused, -⟩ := hN.beyond.flushing t base limit hp
    have hn : RESERVATION_N = 256 := rfl
    have hdb : ({ h with durable := h.past.length } : Host).durableDb = h.db := durableDb_of_flushed rfl
    refine hN.flush.hand hmin hused ?_ ?_ ((hN.beyond.flushed hN.disc hp).frame rfl rfl fun _ _ _ ht => ht)
    · rw [hdb]
      omega
    · rw [hdb]
      exact hle
  | crash hdrop hr => exact hN.crash hdrop hr (of_decide_eq_true hk)

/-- **Block numbers are not reused.**  In every run whose crashes keep the flushed writes and whose
reservations do not wrap, the numbers handed out are distinct, at least `MIN_BLOCK_SEQ`, and below the
durable `next_blockseq` of their moment. -/
theorem blockseq_never_reused {db : Db} {epoch : Epoch} {h₀ : Host} {acts : List HostAct}
    (h0 : reopen db epoch [] [] = some h₀)
    (hm : Meets (Host.step bl) (fun h a => h.roomy a = true ∧ h.keepsDurable a = true) h₀ acts)
    (hr : run (Host.step bl) h₀ acts = some h) :
    (h.handed.map Prod.fst).Nodup ∧ ∀ p ∈ h.handed, MIN_BLOCK_SEQ ≤ p.1 ∧ p.1 < p.2 := by
  have hinit : h₀.Numbered := numbered_reopen h0 (by rintro _ ⟨⟩) (pairwise_singleton _ _)
    nodup_nil (by rintro _ ⟨⟩)
  have hN : h.Numbered := run_inv (P := Numbered) (fun h a h' hN hg hs => hN.step hs hg.1 hg.2) hinit hm hr
  exact ⟨hN.nodup, hN.bounds⟩

end Numbered

/-! ### The last reservation of the counter -/

/-- A call with `n` steps. -/
def wholeCall (t : ℕ) (op : Op) (n : ℕ) : List HostAct := .start t op :: List.replicate n (.next t)

def storeLarge (t : ℕ) (n : ℕ) : List HostAct :=
  wholeCall t (.storeBlock ['f'] (List.replicate 32 0) (List.replicate 4096 7)) n

/-- A folder with this `next_blockseq`. -/
def reservedUpTo (next : ℕ) : Db := Db.empty.write [.put .mx (.indexMeta ⟨0, some next⟩)]

/-- The numbers handed out in a run on the folder, the last one first. -/
def numbersIn (db : Db) (acts : List HostAct) : Option (List (ℕ × ℕ)) :=
  ((reopen db firstEpoch [] []).bind fun h => run (Host.step exactFilters) h acts).map Host.handed

lemma run_of_numbersIn {db : Db} {acts : List HostAct} {l : List (ℕ × ℕ)} (h : numbersIn db acts = some l) :
    ∃ h₀ h, reopen db firstEpoch [] [] = some h₀ ∧ run (Host.step exactFilters) h₀ acts = some h ∧ h.handed = l := by
  obtain ⟨h, hr, hl⟩ := map_eq_some_iff.1 h
  obtain ⟨h₀, h0, hr⟩ := bind_eq_some_iff.1 hr
  exact ⟨h₀, h, h0, hr, hl⟩

/-- When 256 numbers are left, a reservation takes the counter to 0, and the first number handed out is
not below it. -/
theorem blockseq_wraps :
    ∃ h₀ h, reopen (reservedUpTo (2 ^ 64 - 256)) firstEpoch [] [] = some h₀ ∧
      run (Host.step exactFilters) h₀ (storeLarge 0 8) = some h ∧ h.handed = [(2 ^ 64 - 256, 0)] :=
  run_of_numbersIn (by decide +kernel)

/-- A block is stored, the process crashes right after its number is handed out, and the block is stored
again. -/
def storedTwice : List HostAct := storeLarge 0 8 ++ [.crash 0 firstEpoch] ++ storeLarge 0 8

theorem blockseq_never_reused_storedTwice :
    ∃ h₀ h, reopen Db.empty firstEpoch [] [] = some h₀ ∧ run (Host.step exactFilters) h₀ storedTwice = some h ∧
      h.handed = [(1280, 1536), (1024, 1280)] ∧
      (h.handed.map Prod.fst).Nodup ∧ ∀ p ∈ h.handed, MIN_BLOCK_SEQ ≤ p.1 ∧ p.1 < p.2 := by
  have hn : numbersIn Db.empty storedTwice = some [(1280, 1536), (1024, 1280)] := by decide +kernel
  have hg : (reopen Db.empty firstEpoch [] []).all (fun h => decide (Meets (Host.step exactFilters)
      (fun h a => h.roomy a = true ∧ h.keepsDurable a = true) h storedTwice)) = true := by decide +kernel
  obtain ⟨h₀, h, h0, hr, hl⟩ := run_of_numbersIn hn
  rw [h0, all_some] at hg
  exact ⟨h₀, h, h0, hr, hl, blockseq_never_reused h0 (of_decide_eq_true hg) hr⟩

end Host

end Bepository.Storage
