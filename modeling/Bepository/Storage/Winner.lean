import Mathlib.Data.Fintype.EquivFin
import Bepository.Storage.Alone
import Bepository.Storage.Api
import Bepository.Storage.Decoding

/-!
# The blocks of a conflict's winner

`resolve_conflict` commits the winner without its new blocks, which are reused or requested after it.
`store_block` and `reuse_block` look for the entry to update in the inbox first.  With nothing staged
at the name they update the winner, and `conflict_winner_provided` says that all of them succeed and
that every block resolves in the end.  A version that an interrupted transfer left in the inbox is
updated instead of the winner, or refuses the block (`conflict_winner_shadowed`).
-/

namespace Bepository.Storage

open Lib List Option

/-! ### Providing blocks -/

/-- A block is reused, or the peer's Response is stored. -/
inductive Provide where
  | reuse (hash : Bytes)
  | store (hash data : Bytes)
  deriving DecidableEq

def Provide.hash : Provide → Bytes
  | .reuse hash => hash
  | .store hash _ => hash

/-- One such call for a file, `none` if it fails.  The state has the hashes provided so far: those
stored, and those whose reuse found a row. -/
def provideStep (bl : Blooms) (epoch : Epoch) (name : Str) (s : Store × List Bytes) :
    Provide → Option (Store × List Bytes)
  | .reuse hash =>
    match reuseBlock bl s.1 (some epoch) name hash with
    | (.error _, _) => none
    | (.ok found, st) => some (st, if found then hash :: s.2 else s.2)
  | .store hash data =>
    match storeBlock bl s.1 (some epoch) name hash data with
    | (.error _, _) => none
    | (.ok (), st) => some (st, hash :: s.2)

/-- The call is for a block of the file, and a Response has the content that was asked for. -/
def Provide.Correct (sha : Bytes → Bytes) (C : Set Bytes) (file : WireFile) (p : Provide) : Prop :=
  p.hash ∈ file.blocks.map BlockInfo.hash ∧ ∀ hash data, p = .store hash data → Genuine sha C hash data

def Resolvable (db : Db) (b : StoredBlock) : Prop := ∃ data, resolveBlockData db b = .ok (some data)

/-- The winner is committed, nothing is staged over it, and the blocks provided so far can be read. -/
structure Serves (epoch : Epoch) (winner : WireFile) (provided : List Bytes) (db : Db) : Prop where
  staged : entryAt db (inboxKey epoch winner.name) = none
  committed : ∃ fi, entryAt db (fileKey winner.name) = some fi ∧ fi.version = winner.version ∧
    fi.blocks.map StoredBlock.toWire = winner.blocks ∧ ∀ b ∈ fi.blocks, b.hash ∈ provided → Resolvable db b

/-! ### Blocks that can be read -/

section Rows

variable {db db' : Db} {b : StoredBlock} {name : Str} {hash : Bytes32} {link : Link}

lemma resolvable_iff : Resolvable db b ↔ b.inlineData.isSome = true ∨
    ∃ s data, b.blockseq = some s ∧ MIN_BLOCK_SEQ ≤ s ∧ db.get (.bd s) = some (.data data) := by
  unfold Resolvable resolveBlockData
  cases b.inlineData with
  | some => simp
  | none =>
    cases b.blockseq with
    | none => simp
    | some s =>
      by_cases hs : s < MIN_BLOCK_SEQ
      · simp [validateBlockSeq, hs]
      · simp only [validateBlockSeq, if_neg hs]
        constructor
        · rintro ⟨data, h⟩
          split at h
          · next d hget => exact .inr ⟨s, d, rfl, not_lt.1 hs, hget⟩
          · cases h
        · rintro (h | ⟨s', data, ⟨⟩, -, hget⟩)
          · cases h
          · exact ⟨data, by rw [hget]⟩

lemma Resolvable.of_rows (h : Resolvable db b)
    (hrow : ∀ s data, db.get (.bd s) = some (.data data) → ∃ data', db'.get (.bd s) = some (.data data')) :
    Resolvable db' b := by
  rcases resolvable_iff.1 h with hin | ⟨s, data, hs, hmin, hget⟩
  · exact resolvable_iff.2 (.inl hin)
  · obtain ⟨data', hget'⟩ := hrow s data hget
    exact resolvable_iff.2 (.inr ⟨s, data', hs, hmin, hget'⟩)

/-- The row that the link is to, or that is written with it, has a number that can be read. -/
def Link.Found (db : Db) : Link → Prop
  | .inline _ => True
  | .existing _ seq => MIN_BLOCK_SEQ ≤ seq ∧ ∃ data, db.get (.bd seq) = some (.data data)
  | .fresh seq _ => MIN_BLOCK_SEQ ≤ seq

lemma get_bd_link {fi : StoredFile} {s : ℕ}
    (h : (∃ data, db.get (.bd s) = some (.data data)) ∨ ∃ data, link = .fresh s data) :
    ∃ data, (db.write (link.batch name hash ++ [.put (fileKey name) (.file (some fi))])).get (.bd s) =
      some (.data data) := by
  rw [Db.get_write_append (fun op hop => by rw [mem_singleton.1 hop]; rintro ⟨⟩)]
  by_cases hfr : ∃ data, link = .fresh s data
  · obtain ⟨data, rfl⟩ := hfr
    exact ⟨data, by simp [Db.get_write, lastOp, Link.batch, blockReverseKey, BatchOp.key]⟩
  · obtain ⟨data, hold⟩ := h.resolve_right hfr
    refine ⟨data, ?_⟩
    rw [Db.get_write_of_forall_ne fun op hop => ?_, hold]
    rcases mem_linkRows hop with rfl | ⟨seq, -, rfl⟩ | ⟨seq, data, hl, rfl⟩
    · rintro ⟨⟩
    · rintro ⟨⟩
    · rintro ⟨⟩
      exact hfr ⟨data, hl⟩

lemma probeDirs_eq_some {dirs : List Str} {dir : Str} {seq : ℕ} (h : probeDirs db hash dirs = .ok (some (dir, seq))) :
    readPointer db dir hash = .ok (some seq) ∧ (db.get (.bd seq)).isSome := by
  induction dirs with
  | nil => cases h
  | cons d dirs ih =>
    simp only [probeDirs] at h
    split at h
    · cases h
    · exact ih h
    · next s hptr =>
      split_ifs at h with hrow
      · cases h
        exact ⟨hptr, hrow⟩
      · exact ih h

lemma findBlockDir_eq_some {bl : Blooms} {st : Store} {dir : Str} {seq : ℕ}
    (h : findBlockDir bl st hash = .ok (some (dir, seq))) :
    readPointer st.db dir hash = .ok (some seq) ∧ (st.db.get (.bd seq)).isSome := by
  unfold findBlockDir at h
  split_ifs at h
  · exact probeDirs_eq_some h
  · cases h

end Rows

/-! ### What a call does to the winner -/

section Link

variable {epoch : Epoch} {winner : WireFile} {provided : List Bytes} {st st' : Store} {db db' : Db}
  {hash : Bytes32} {link : Link}

lemma Serves.of_same (h : Serves epoch winner provided db) (hs : SameEntries db db')
    (hbd : ∀ s, db'.get (.bd s) = db.get (.bd s)) : Serves epoch winner provided db' := by
  obtain ⟨fi, hfi, hver, hblocks, hres⟩ := h.committed
  refine ⟨(hs _ rfl).trans h.staged, fi, (hs _ rfl).trans hfi, hver, hblocks, fun b hb hp => ?_⟩
  exact (hres b hb hp).of_rows fun s data hget => ⟨data, (hbd s).trans hget⟩

/-- **The link is written to the winner**: the block it is for can be read, and so can the others. -/
lemma Serves.linked (h : Serves epoch winner provided st.db) (hfound : link.Found st.db)
    (hl : linkBlock st (some epoch) winner.name hash link = (.ok (), st')) :
    Serves epoch winner (hash.1 :: provided) st'.db := by
  obtain ⟨entry, batch, hentry, hbatch, rfl⟩ := linkBlock_eq_ok hl
  obtain ⟨fi, hfi, hver, hblocks, hres⟩ := h.committed
  -- nothing is staged, so the entry is the winner's
  obtain ⟨hat, hkey⟩ := findFileEntry_eq_ok hentry
  have hmain : entry.2 = fileKey winner.name := by
    rcases hkey with hkey | ⟨hkey, -⟩
    · rw [hkey, h.staged] at hat
      cases hat
    · exact hkey
  have he : entry.1 = fi := by
    rw [hmain, hfi] at hat
    exact (Option.some.inj hat).symm
  have hentries : ∀ k, k.holdsFile = true → entryAt (st.db.write batch) k =
      if k = fileKey winner.name then some (pointBlocks hash.1 link.seq link.inlineData fi)
      else entryAt st.db k := by
    intro k hk
    rw [entryAt_linkBatch hbatch hk, he, hmain]
  refine ⟨?_, pointBlocks hash.1 link.seq link.inlineData fi, ?_, hver, ?_, fun b hb hp => ?_⟩
  · rw [hentries _ rfl, if_neg (by rintro ⟨⟩), h.staged]
  · rw [hentries _ rfl, if_pos rfl]
  · rw [← hblocks]
    simp only [pointBlocks, List.map_map]
    refine map_congr_left fun b _ => ?_
    simp only [Function.comp]
    split_ifs <;> rfl
  · have hdb : st.db.write batch = st.db.write (link.batch winner.name hash ++
        [.put (fileKey winner.name) (.file (some (pointBlocks hash.1 link.seq link.inlineData fi)))]) := by
      rw [linkBatch_eq_ok hbatch, he, hmain]
    dsimp only
    rw [hdb]
    obtain ⟨b₀, hb₀, rfl⟩ := List.mem_map.1 hb
    by_cases hh : b₀.hash = hash.1
    · -- a block with the hash has the pointer of the link
      simp only [if_pos hh]
      cases link with
      | inline => exact resolvable_iff.2 (.inl rfl)
      | existing dir seq =>
        obtain ⟨data, hget⟩ := get_bd_link (.inl hfound.2)
        exact resolvable_iff.2 (.inr ⟨seq, data, rfl, hfound.1, hget⟩)
      | fresh seq data =>
        obtain ⟨data', hget⟩ := get_bd_link (.inr ⟨data, rfl⟩)
        exact resolvable_iff.2 (.inr ⟨seq, data', rfl, hfound, hget⟩)
    · simp only [if_neg hh] at hp ⊢
      have hp : b₀.hash ∈ provided := (mem_cons.1 hp).resolve_left hh
      exact (hres b₀ hb₀ hp).of_rows fun s data hget => get_bd_link (.inl ⟨data, hget⟩)

end Link

/-! ### One call after the other -/

section Calls

variable {sha : Bytes → Bytes} {C : Set Bytes} {bl : Blooms} {epoch : Epoch} {winner : WireFile}
  {m : Machine} {st st₁ st' : Store} {provided : List Bytes}

/-- **A call that runs alone** keeps the store sound, whatever other calls and jobs are in flight. -/
lemma Op.Alone.sound {op : Op} (hsha : ∀ data, (sha data).length = 32) (hm : m.Sound sha C epoch)
    (h : op.Alone bl epoch m.store st') (hg : ∀ t, Truthful sha C (.start t op))
    (hfree : ∀ call, op.start = some call → m.isLocked call.name = false) :
    ∃ m' : Machine, m'.store = st' ∧ m'.Sound sha C epoch ∧ ∀ name, m'.isLocked name = m.isLocked name := by
  obtain ⟨t, ht⟩ := Infinite.exists_notMem_finset m.calls.keys.toFinset
  have ht : t ∉ m.calls := fun hmem => ht (List.mem_toFinset.2 (AList.mem_keys.2 hmem))
  obtain ⟨n, m', hrun, hmeets, hst, -, hcalls⟩ := h.run ht hfree
  refine ⟨m', hst, hm.run hsha (fun a ha => ?_) hmeets hrun, fun name => ?_⟩
  · rcases mem_cons.1 ha with rfl | ha
    · exact hg t
    · rw [(mem_replicate.1 ha).2]
      trivial
  · rw [Bool.eq_iff_iff, ← not_iff_not, Bool.not_eq_true, Bool.not_eq_true, isLocked_eq_false, isLocked_eq_false]
    simp only [hcalls]

lemma Linking.found {hash : Bytes32} {data : Option Bytes} {link : Link} (hm : m.Sound sha C epoch)
    (h : Linking bl m.store hash data st₁ link) : link.Found st₁.db := by
  cases h with
  | inline => trivial
  | existing _ dir seq hbig hfound =>
    obtain ⟨hptr, hrow⟩ := findBlockDir_eq_some hfound
    obtain ⟨v, hv⟩ := isSome_iff_exists.1 hrow
    obtain ⟨data, rfl, -⟩ := (hm.matched.db.refs dir hash ⟨seq⟩ (readPointer_eq_some hptr)).2.2 v hv
    exact ⟨readPointer_ge hptr, data, hv⟩
  | fresh data seq db range hbig hfound ha => exact allocate_ge hm.decoded.store.floor ha

lemma Linking.serves {hash : Bytes32} {data : Option Bytes} {link : Link} (h : Linking bl st hash data st₁ link)
    (hs : Serves epoch winner provided st.db) : Serves epoch winner provided st₁.db := by
  cases h with
  | inline | existing => exact hs
  | fresh data seq db range hbig hfound ha =>
    exact hs.of_same (allocate_entries ha) fun s => allocate_get ha (by rintro ⟨⟩)

/-- The winner is committed in the store of a sound machine that does not hold its lock. -/
structure Waiting (sha : Bytes → Bytes) (C : Set Bytes) (epoch : Epoch) (winner : WireFile)
    (s : Store × List Bytes) : Prop where
  sound : ∃ m : Machine, m.store = s.1 ∧ m.Sound sha C epoch ∧ m.isLocked winner.name = false
  serves : Serves epoch winner s.2 s.1.db

lemma Serves.lists {hash : Bytes} (h : Serves epoch winner provided st.db)
    (hmem : hash ∈ winner.blocks.map BlockInfo.hash) : Lists st.db epoch (splitName winner.name) hash := by
  obtain ⟨fi, hfi, -, hblocks, -⟩ := h.committed
  refine lists_iff.2 ⟨fi, or_eq_some_iff.2 (.inr ⟨h.staged, hfi⟩), ?_⟩
  rw [← hblocks] at hmem
  obtain ⟨w, hw, rfl⟩ := List.mem_map.1 hmem
  obtain ⟨b, hb, rfl⟩ := List.mem_map.1 hw
  exact ⟨b, hb, rfl⟩

variable {s : Store × List Bytes} {loserPath : Option Str}

section

variable (hsha : ∀ data, (sha data).length = 32)
include hsha

/-- **One call** succeeds and leaves the winner waiting for the other blocks. -/
lemma Waiting.step {p : Provide} (h : Waiting sha C epoch winner s) (hp : p.Correct sha C winner)
    (hroom : s.1.nextSeq + RESERVATION_N < 2 ^ 64) :
    ∃ s', provideStep bl epoch winner.name s p = some s' ∧ Waiting sha C epoch winner s' := by
  obtain ⟨st, provided⟩ := s
  obtain ⟨⟨m, rfl, hm, hfree⟩, hserves⟩ := h
  have hdec : m.store.db.Decodes := hm.decoded.store.db
  cases p with
  | reuse hash =>
    obtain ⟨found, st', hok⟩ : ∃ found st', reuseBlock bl m.store (some epoch) winner.name hash =
      (.ok found, st') := reuseBlock_ok hdec (hserves.lists hp.1)
    have hunlocked : ∀ call, (Op.reuseBlock winner.name hash).start = some call → m.isLocked call.name = false := by
      intro call hc
      obtain ⟨hash', -, rfl⟩ := map_eq_some_iff.1 hc
      exact hfree
    obtain ⟨m', hst, hm', hlock⟩ := (reuseBlock_alone hok).sound hsha hm (fun _ => trivial) hunlocked
    refine ⟨(st', if found then hash :: provided else provided), by simp [provideStep, hok],
      ⟨m', hst, hm', (hlock _).trans hfree⟩, ?_⟩
    obtain ⟨hash', hh, ⟨rfl, -, rfl⟩ | ⟨rfl, link, hlinking, hl⟩⟩ := reuseBlock_eq_ok hok
    · exact hserves
    · have hs := hserves.linked (hlinking.found hm) hl
      rwa [toBytes32_eq_some.1 hh] at hs
  | store hash data =>
    obtain ⟨st', hok⟩ : ∃ st', storeBlock bl m.store (some epoch) winner.name hash data = (.ok (), st') :=
      storeBlock_ok hdec (hserves.lists hp.1) data
    have hunlocked : ∀ call, (Op.storeBlock winner.name hash data).start = some call →
        m.isLocked call.name = false := by
      intro call hc
      obtain ⟨hash', -, rfl⟩ := map_eq_some_iff.1 hc
      split <;> exact hfree
    obtain ⟨m', hst, hm', hlock⟩ := (storeBlock_alone hroom hok).sound hsha hm (fun _ => hp.2 hash data rfl) hunlocked
    refine ⟨(st', hash :: provided), by simp [provideStep, hok], ⟨m', hst, hm', (hlock _).trans hfree⟩, ?_⟩
    obtain ⟨hash', st₁, link, hh, hlinking, hl⟩ := storeBlock_eq_ok hok
    have hs := (hlinking.serves hserves).linked (hlinking.found hm) hl
    rwa [toBytes32_eq_some.1 hh] at hs

/-- **All calls**, by induction on them. -/
lemma Waiting.run {ps : List Provide} (h : Waiting sha C epoch winner s)
    (hps : ∀ p ∈ ps, p.Correct sha C winner)
    (hroom : Meets (provideStep bl epoch winner.name) (fun s _ => s.1.nextSeq + RESERVATION_N < 2 ^ 64) s ps) :
    ∃ s', Lib.run (provideStep bl epoch winner.name) s ps = some s' ∧ Waiting sha C epoch winner s' := by
  induction ps generalizing s with
  | nil => exact ⟨s, rfl, h⟩
  | cons p ps ih =>
    obtain ⟨s₁, hstep, h₁⟩ : ∃ s', provideStep bl epoch winner.name s p = some s' ∧
      Waiting sha C epoch winner s' := h.step hsha (hps p mem_cons_self) hroom.1
    obtain ⟨s', hrun, h'⟩ := ih h₁ (fun q hq => hps q (mem_cons_of_mem p hq)) (hroom.2 s₁ hstep)
    exact ⟨s', run_cons_eq_some.2 ⟨s₁, hstep, hrun⟩, h'⟩

lemma copyLoser_sound {loser : WireFile} (hm : m.Sound sha C epoch) (hl : Announced sha C loser)
    (hfree : ∀ path, loserPath = some path → m.isLocked path = false)
    (h : copyLoser m.store loser loserPath = (.ok (), st₁)) :
    ∃ m₁ : Machine, m₁.store = st₁ ∧ m₁.Sound sha C epoch ∧ (∀ name, m₁.isLocked name = m.isLocked name) ∧
      ∀ e path, entryAt st₁.db (.mi e path) = entryAt m.store.db (.mi e path) := by
  cases loserPath with
  | none =>
    cases h
    exact ⟨m, rfl, hm, fun _ => rfl, fun _ _ => rfl⟩
  | some path =>
    cases hput : putFileWithCarry m.store { loser with name := path } loser.name with
    | mk r st₂ =>
      simp only [copyLoser, hput] at h
      obtain ⟨hr, rfl⟩ := Prod.mk.inj h
      obtain ⟨seq, rfl, -⟩ := map_eq_ok.1 hr
      have halone : (Op.putFileWithCarry { loser with name := path } loser.name).Alone exactFilters epoch
          m.store st₂ := putFileWithCarry_alone hput
      obtain ⟨m₁, hst, hm₁, hlock⟩ := halone.sound hsha hm (fun _ => hl) (by
        rintro call ⟨⟩
        exact hfree path rfl)
      refine ⟨m₁, hst, hm₁, hlock, fun e p => ?_⟩
      exact Replaced.elsewhere (putFileWithCarry_ok hput) rfl (by rintro ⟨⟩) not_false

/-- **The commit of the winner** leaves it waiting for its blocks. -/
lemma resolve_waiting {loser : WireFile} (hm : m.Sound sha C epoch) (hw : Announced sha C winner)
    (hl : Announced sha C loser)
    (hfree : ∀ name, name = winner.name ∨ loserPath = some name → m.isLocked name = false)
    (hstaged : entryAt m.store.db (inboxKey epoch winner.name) = none)
    (h : resolveConflict m.store winner loser loserPath = (.ok (), st)) :
    Waiting sha C epoch winner (st, []) := by
  unfold resolveConflict at h
  split at h
  · cases h
  · next st₁ hcopy =>
    obtain ⟨m₁, rfl, hm₁, hlock, hinbox⟩ :=
      copyLoser_sound hsha hm hl (fun path hp => hfree path (.inr hp)) hcopy
    cases hput : putFile m₁.store.db winner with
    | mk r db =>
      simp only [hput] at h
      obtain ⟨hr, rfl⟩ := Prod.mk.inj h
      obtain ⟨seq, rfl, -⟩ := map_eq_ok.1 hr
      have halone : (Op.putFile winner).Alone exactFilters epoch m₁.store { m₁.store with db := db } :=
        putFile_alone hput
      have hunlocked : m₁.isLocked winner.name = false := (hlock _).trans (hfree _ (.inl rfl))
      obtain ⟨m₂, hst, hm₂, hlock₂⟩ := halone.sound hsha hm₁ (fun _ => hw) (by
        rintro call ⟨⟩
        exact hunlocked)
      obtain ⟨q, hrep⟩ := putFile_ok hput
      refine ⟨⟨m₂, hst, hm₂, (hlock₂ _).trans hunlocked⟩, ?_, _, (hrep _ rfl).1 rfl, ?_, ?_, ?_⟩
      · rw [(hrep (inboxKey epoch winner.name) rfl).2.2 (by rintro ⟨⟩) not_false]
        exact (hinbox _ _).trans hstaged
      · exact version_withPointers
      · exact blocks_toWire_withPointers.trans (blocks_toWire_toStored winner)
      · rintro b - ⟨⟩

end

end Calls

/-- **A conflict's winner receives its blocks** if nothing is staged at its name.  In every state that
a run with truthful announcements and payloads reaches, whatever other calls and jobs are in flight:
once `resolve_conflict` has committed the winner, each call that reuses one of its blocks or stores the
Response for it succeeds, and if every block was provided, every block of the committed winner resolves
to bytes with its hash and its size. -/
theorem conflict_winner_provided (sha : Bytes → Bytes) (C : Set Bytes) (hC : Set.InjOn sha C)
    (hsha : ∀ data, (sha data).length = 32) (bl : Blooms) (epoch : Epoch) {m₀ m : Machine} {as : List Act}
    (h₀ : m₀.calls = ∅ ∧ m₀.jobs = ∅ ∧ m₀.store.Sound sha C) (hg : ∀ a ∈ as, Truthful sha C a)
    (hm : Meets (Machine.step bl epoch) (fun m a => noWrap m a = true) m₀ as)
    (hr : run (Machine.step bl epoch) m₀ as = some m) {winner loser : WireFile} {loserPath : Option Str}
    {st : Store} (hw : Announced sha C winner) (hl : Announced sha C loser)
    (hfree : ∀ name, name = winner.name ∨ loserPath = some name → m.isLocked name = false)
    (hres : resolveConflict m.store winner loser loserPath = (.ok (), st))
    (hstaged : m.store.db.get (inboxKey epoch winner.name) = none) {ps : List Provide}
    (hps : ∀ p ∈ ps, p.Correct sha C winner)
    (hroom : Meets (provideStep bl epoch winner.name) (fun s _ => s.1.nextSeq + RESERVATION_N < 2 ^ 64) (st, []) ps) :
    ∃ st' provided, run (provideStep bl epoch winner.name) (st, []) ps = some (st', provided) ∧
      ((∀ b ∈ winner.blocks, b.hash ∈ provided) →
        ∃ fi, st'.db.get (fileKey winner.name) = some (.file (some fi)) ∧ fi.version = winner.version ∧
          fi.blocks.map StoredBlock.toWire = winner.blocks ∧ ∀ b ∈ fi.blocks, ∃ data,
            resolveBlockData st'.db b = .ok (some data) ∧ sha data = b.hash ∧ (data.length : ℤ) = b.size) := by
  have hsound : m.Sound sha C epoch := (Machine.Sound.init h₀.1 h₀.2.1 h₀.2.2).run hsha hg hm hr
  have hnone : entryAt m.store.db (inboxKey epoch winner.name) = none := by
    unfold entryAt
    rw [hstaged]
  have hwait : Waiting sha C epoch winner (st, []) := resolve_waiting hsha hsound hw hl hfree hnone hres
  obtain ⟨⟨st', provided⟩, hrun, ⟨m', rfl, hm', -⟩, hserves⟩ := hwait.run hsha hps hroom
  refine ⟨_, provided, hrun, fun hall => ?_⟩
  obtain ⟨fi, hfi, hver, hblocks, hread⟩ := hserves.committed
  have hget := entryAt_eq_some.1 hfi
  refine ⟨fi, hget, hver, hblocks, fun b hb => ?_⟩
  have hmem : b.hash ∈ provided := hall b.toWire (hblocks ▸ List.mem_map_of_mem hb)
  obtain ⟨data, hdata⟩ := hread b hb hmem
  have hok : BlockOk sha C (RefOk sha C m') b := hm'.matched.db.files _ fi hget b hb
  obtain ⟨hin, hhash⟩ := hok.resolve hdata
  -- the announced content and the stored one have the same hash
  obtain ⟨data', ⟨hin', hhash'⟩, hsize⟩ := hok.declared
  have heq : data = data' := hC hin hin' (hhash.trans hhash'.symm)
  exact ⟨data, hdata, hhash, heq ▸ hsize⟩

/-! ### A version left in the inbox -/

/-- The winner of a conflict with `smallFile`: it has two other blocks. -/
def winningFile : WireFile :=
  ⟨['f'], 2, some ⟨[⟨2, 1⟩]⟩, 0, [⟨padHash [2], 0, 1⟩, ⟨padHash [3], 1, 1⟩], 0, false⟩

/-- A later version of `smallFile`, with the first of these blocks. -/
def laterFile : WireFile := ⟨['f'], 1, some ⟨[⟨1, 2⟩]⟩, 0, [⟨padHash [2], 0, 1⟩], 0, false⟩

def loserName : Str := ['f', '2']

def smallContents : Set Bytes := { [1], [2], [3] }

lemma smallContents_injOn : Set.InjOn padHash smallContents := by
  intro x hx y hy h
  simp only [smallContents, Set.mem_insert_iff, Set.mem_singleton_iff] at hx hy
  rcases hx with rfl | rfl | rfl <;> rcases hy with rfl | rfl | rfl <;> first | rfl | cases h

lemma length_padHash (data : Bytes) : (padHash data).length = 32 := by
  simp [padHash]

lemma announced_small : Announced padHash smallContents smallFile ∧
    Announced padHash smallContents laterFile ∧ Announced padHash smallContents winningFile := by
  refine ⟨fun b hb => ?_, fun b hb => ?_, fun b hb => ?_⟩
  · rw [mem_singleton.1 hb]
    exact ⟨[1], ⟨.inl rfl, rfl⟩, rfl⟩
  · rw [mem_singleton.1 hb]
    exact ⟨[2], ⟨.inr (.inl rfl), rfl⟩, rfl⟩
  · simp only [winningFile, mem_cons, not_mem_nil, or_false] at hb
    rcases hb with rfl | rfl
    · exact ⟨[2], ⟨.inr (.inl rfl), rfl⟩, rfl⟩
    · exact ⟨[3], ⟨.inr (.inr rfl), rfl⟩, rfl⟩

def bothResponses : List Provide := [.store (padHash [2]) [2], .store (padHash [3]) [3]]

lemma bothResponses_correct : ∀ p ∈ bothResponses, p.Correct padHash smallContents winningFile := by
  intro p hp
  simp only [bothResponses, mem_cons, not_mem_nil, or_false] at hp
  rcases hp with rfl | rfl
  · exact ⟨by decide, by rintro hash data ⟨⟩; exact ⟨.inr (.inl rfl), rfl⟩⟩
  · exact ⟨by decide, by rintro hash data ⟨⟩; exact ⟨.inr (.inr rfl), rfl⟩⟩

/-- `f` is transferred and a later version of it is staged, then its connection is lost. -/
def interruptedTransfer : List Act := transfer [1] ++ wholeCall 3 (.stageFile laterFile) 2

lemma truthful_interruptedTransfer : ∀ a ∈ interruptedTransfer, Truthful padHash smallContents a := by
  intro a ha
  rcases mem_append.1 ha with ha | ha
  · exact truthful_transfer (.inl rfl) a ha
  · rcases mem_cons.1 ha with rfl | ha
    · exact announced_small.2.1
    · rw [(mem_replicate.1 ha).2]
      trivial

/-- No call is running, and the conflict of `winningFile` with `smallFile` is resolved and leads to `P`. -/
abbrev Leads (m : Machine) (P : Store → Prop) : Prop :=
  m.calls.entries.isEmpty = true ∧ (resolveConflict m.store winningFile smallFile (some loserName)).1 = .ok () ∧
    P (resolveConflict m.store winningFile smallFile (some loserName)).2

lemma free_of_isEmpty {m : Machine} (h : m.calls.entries.isEmpty = true) (name : Str) : m.isLocked name = false := by
  unfold Machine.isLocked
  rw [List.isEmpty_iff.1 h]
  rfl

/-- After the interrupted transfer, the winner of a conflict with `f` is committed.  The Response for
its second block is refused, and the one for its first block is accepted without an effect on the
winner. -/
theorem conflict_winner_shadowed :
    (∀ a ∈ interruptedTransfer, Truthful padHash smallContents a) ∧
    (∀ p ∈ bothResponses, p.Correct padHash smallContents winningFile) ∧
    ∃ m, runEmpty interruptedTransfer = some m ∧
      (∀ name, m.isLocked name = false) ∧
      ∃ st, resolveConflict m.store winningFile smallFile (some loserName) = (.ok (), st) ∧
        run (provideStep exactFilters firstEpoch ['f']) (st, []) [.store (padHash [3]) [3]] = none ∧
        ∃ st', run (provideStep exactFilters firstEpoch ['f']) (st, []) [.store (padHash [2]) [2]] =
            some (st', [padHash [2]]) ∧
          ∃ fi, st'.db.get (fileKey ['f']) = some (.file (some fi)) ∧ fi.version = winningFile.version ∧
            ∃ b ∈ fi.blocks, b.hash = padHash [2] ∧ resolveBlockData st'.db b = .ok none := by
  refine ⟨truthful_interruptedTransfer, bothResponses_correct, ?_⟩
  obtain ⟨m, hm, hcalls, hres, hnone, ⟨st', _⟩, hrun, rfl, fi, hfi, hmisses⟩ : ∃ m,
      runEmpty interruptedTransfer = some m ∧ Leads m fun st =>
        run (provideStep exactFilters firstEpoch ['f']) (st, []) [.store (padHash [3]) [3]] = none ∧
        ∃ s, run (provideStep exactFilters firstEpoch ['f']) (st, []) [.store (padHash [2]) [2]] = some s ∧
          s.2 = [padHash [2]] ∧ ∃ fi, entryAt s.1.db (fileKey ['f']) = some fi ∧ fi.version = winningFile.version ∧
            ∃ b ∈ fi.blocks, b.hash = padHash [2] ∧ resolveBlockData s.1.db b = .ok none := by
    decide
  exact ⟨m, hm, free_of_isEmpty hcalls, _, Prod.ext hres rfl, hnone, st', hrun, fi, entryAt_eq_some.1 hfi, hmisses⟩

/-- Without the later version, both Responses arrive in the winner. -/
theorem conflict_winner_provided_both :
    ∃ m st st' fi, runEmpty (transfer [1]) = some m ∧
      resolveConflict m.store winningFile smallFile (some loserName) = (.ok (), st) ∧
      run (provideStep exactFilters firstEpoch ['f']) (st, []) bothResponses =
        some (st', [padHash [3], padHash [2]]) ∧
      st'.db.get (fileKey ['f']) = some (.file (some fi)) ∧ fi.version = winningFile.version ∧
      fi.blocks.map StoredBlock.toWire = winningFile.blocks ∧ ∀ b ∈ fi.blocks, ∃ data,
        resolveBlockData st'.db b = .ok (some data) ∧ padHash data = b.hash ∧ (data.length : ℤ) = b.size := by
  obtain ⟨m, hm, hcalls, hres, hstaged, hroom, ⟨st', _⟩, hrun, rfl⟩ : ∃ m,
      runEmpty (transfer [1]) = some m ∧ Leads m fun st =>
        m.store.db.get (inboxKey firstEpoch ['f']) = none ∧
        Meets (provideStep exactFilters firstEpoch ['f']) (fun s _ => s.1.nextSeq + RESERVATION_N < 2 ^ 64) (st, [])
          bothResponses ∧
        ∃ s, run (provideStep exactFilters firstEpoch ['f']) (st, []) bothResponses = some s ∧
          s.2 = [padHash [3], padHash [2]] := by
    decide
  obtain ⟨hsmall, -, hwin⟩ := announced_small
  obtain ⟨st₂, provided, hrun₂, hconcl⟩ := conflict_winner_provided padHash smallContents smallContents_injOn
    length_padHash exactFilters firstEpoch ⟨rfl, rfl, Store.sound_empty⟩ (truthful_transfer (.inl rfl)) (by decide)
    hm hwin hsmall (fun name _ => free_of_isEmpty hcalls name) (Prod.ext hres rfl) hstaged bothResponses_correct hroom
  cases hrun.symm.trans hrun₂
  obtain ⟨fi, hfi⟩ := hconcl (by decide)
  exact ⟨m, _, st', fi, hm, Prod.ext hres rfl, hrun, hfi⟩

end Bepository.Storage
