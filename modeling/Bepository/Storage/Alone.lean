import Bepository.Storage.Numbers

/-!
# A call that runs alone

`Store.lean` has every call as one function, `Calls.lean` one await at a time.  A call of the first
kind that succeeds is a run of the second: nobody else moves, and the name is not locked when it
starts.  So what every run of the machine preserves, the functions preserve.
-/

namespace Bepository.Storage

open Lib Option Table

/-! ### What a successful call did -/

/-- How `store_block` (with the data) and `reuse_block` (without) come to the link they write, and the
store they write it to. -/
inductive Linking (bl : Blooms) (st : Store) (hash : Bytes32) : Option Bytes → Store → Link → Prop where
  | inline data (h : data.length < INLINE_BLOCK_THRESHOLD) : Linking bl st hash (some data) st (.inline data)
  | existing data dir seq (hbig : ∀ d, data = some d → ¬ d.length < INLINE_BLOCK_THRESHOLD)
      (h : findBlockDir bl st hash = .ok (some (dir, seq))) : Linking bl st hash data st (.existing dir seq)
  | fresh data seq db range (hbig : ¬ data.length < INLINE_BLOCK_THRESHOLD)
      (h : findBlockDir bl st hash = .ok none) (ha : allocate st.db st.range = .ok (seq, db, range)) :
      Linking bl st hash (some data) { st with db := db, range := range } (.fresh seq data)

section Returned

variable {bl : Blooms} {st st' : Store} {epoch : Option Epoch} {name : Str}

lemma linkBlock_eq_ok {hash : Bytes32} {link : Link} (h : linkBlock st epoch name hash link = (.ok (), st')) :
    ∃ entry batch, findFileEntry st.db epoch name = .ok entry ∧ linkBatch name hash link entry = .ok batch ∧
      st' = { st with
        db := st.db.write batch
        gc := link.seq.elim st.gc fun seq => st.gc.recordBlockWrite hash (some seq) } := by
  unfold linkBlock at h
  split at h
  · cases h
  · next entry hentry =>
    split at h
    · cases h
    · next batch hbatch =>
      cases h
      exact ⟨entry, batch, hentry, hbatch, rfl⟩

lemma storeBlock_eq_ok {hash data : Bytes} (h : storeBlock bl st epoch name hash data = (.ok (), st')) :
    ∃ hash' st₁ link, toBytes32 hash = some hash' ∧ Linking bl st hash' (some data) st₁ link ∧
      linkBlock st₁ epoch name hash' link = (.ok (), st') := by
  unfold storeBlock at h
  split at h
  · cases h
  · next hash' hh =>
    refine ⟨hash', ?_⟩
    split_ifs at h with hsmall
    · exact ⟨st, _, hh, .inline data hsmall, h⟩
    · have hbig : ∀ d, some data = some d → ¬ d.length < INLINE_BLOCK_THRESHOLD := by
        rintro d ⟨⟩
        exact hsmall
      split at h
      · cases h
      · next dir seq hfound => exact ⟨st, _, hh, .existing _ dir seq hbig hfound, h⟩
      · next hfound =>
        split at h
        · cases h
        · next seq db range ha => exact ⟨_, _, hh, .fresh data seq db range hsmall hfound ha, h⟩

lemma reuseBlock_eq_ok {hash : Bytes} {found : Bool} (h : reuseBlock bl st epoch name hash = (.ok found, st')) :
    ∃ hash', toBytes32 hash = some hash' ∧ (found = false ∧ findBlockDir bl st hash' = .ok none ∧ st' = st ∨
        found = true ∧ ∃ link, Linking bl st hash' none st link ∧
          linkBlock st epoch name hash' link = (.ok (), st')) := by
  unfold reuseBlock at h
  split at h
  · cases h
  · next hash' hh =>
    refine ⟨hash', hh, ?_⟩
    split at h
    · cases h
    · next hfound =>
      cases h
      exact .inl ⟨rfl, hfound, rfl⟩
    · next dir seq hfound =>
      cases hl : linkBlock st epoch name hash' (.existing dir seq) with
      | mk =>
        rw [hl] at h
        obtain ⟨hr, rfl⟩ := Prod.mk.inj h
        obtain ⟨u, rfl, rfl⟩ := map_eq_ok.1 hr
        exact .inr ⟨rfl, _, .existing none dir seq (by simp) hfound, hl⟩

end Returned

/-! ### A run to the end -/

/-- The call at `pc` runs from `st` to its end without an interruption and leaves `st'`; the number
counter does not wrap on the way. -/
inductive Pc.Finishes (bl : Blooms) (epoch : Epoch) (name : Str) : Pc → Store → Store → Prop where
  | lock {pc st st'} (h : Finishes bl epoch name pc st st') : Finishes bl epoch name (.wait pc) st st'
  | last {pc st st'} r (hw : ∀ pc', pc ≠ .wait pc')
      (hroom : ∀ hash data, pc = .allocate hash data → st.nextSeq + RESERVATION_N < 2 ^ 64)
      (h : pc.exec bl epoch name st = (st', .done r)) : Finishes bl epoch name pc st st'
  | step {pc pc₁ st st₁ st'} (hw : ∀ pc', pc ≠ .wait pc')
      (hroom : ∀ hash data, pc = .allocate hash data → st.nextSeq + RESERVATION_N < 2 ^ 64)
      (h : pc.exec bl epoch name st = (st₁, .go pc₁)) (hrest : Finishes bl epoch name pc₁ st₁ st') :
      Finishes bl epoch name pc st st'

def After.Finishes (bl : Blooms) (epoch : Epoch) (name : Str) : After → Store → Store → Prop
  | .go pc, st, st' => pc.Finishes bl epoch name st st'
  | .done _, st, st' => st' = st

/-- The call runs alone from `st` to `st'`. -/
def Op.Alone (bl : Blooms) (epoch : Epoch) (op : Op) (st st' : Store) : Prop :=
  ∃ call, op.start = some call ∧ call.pc.Finishes bl epoch call.name st st'

section Finishes

variable {bl : Blooms} {epoch : Epoch} {name : Str} {st st₁ st' : Store} {pc : Pc} {aft : After}

lemma Pc.Finishes.of_exec (hw : ∀ pc', pc ≠ .wait pc')
    (hroom : ∀ hash data, pc = .allocate hash data → st.nextSeq + RESERVATION_N < 2 ^ 64)
    (h : pc.exec bl epoch name st = (st₁, aft)) (haft : aft.Finishes bl epoch name st₁ st') :
    pc.Finishes bl epoch name st st' := by
  cases aft with
  | go => exact .step hw hroom h haft
  | done r =>
    have he : st' = st₁ := haft
    exact .last r hw hroom (he ▸ h)

lemma recordNext_finishes (recs : List (Bytes32 × ℕ)) (st : Store) : (recordNext recs).Finishes bl epoch name st
      { st with gc := recs.foldl (fun gc c => gc.recordBlockWrite c.1 (some c.2)) st.gc } := by
  induction recs generalizing st with
  | nil => rfl
  | cons c recs ih =>
    exact Pc.Finishes.of_exec (by simp) (by simp) rfl
      (ih { st with gc := st.gc.recordBlockWrite c.1 (some c.2) })

lemma commit_finishes {stored : StoredFile} {batch : WriteBatch} {r : ℤ × WireFile} {db' : Db}
    (h : commitWithNewSeq st.db name stored batch = (.ok r, db')) (carried : List (Bytes32 × ℕ)) :
    (Pc.commitRead stored batch carried).Finishes bl epoch name st { st with
      db := db'
      gc := carried.foldl (fun gc c => gc.recordBlockWrite c.1 (some c.2)) st.gc } := by
  obtain ⟨stored₁, batch₁, stored₂, hread, hwrite⟩ := commitWithNewSeq_eq_ok h
  refine .step (by simp) (by simp) (by simp only [Pc.exec, hread]; rfl) ?_
  refine .of_exec (by simp) (by simp) (by simp only [Pc.exec, hwrite]; rfl) ?_
  exact recordNext_finishes carried { st with db := db' }

theorem putFile_alone {file : WireFile} {seq : ℤ} {db' : Db} (h : putFile st.db file = (.ok seq, db')) :
    (Op.putFile file).Alone bl epoch st { st with db := db' } := by
  cases hc : commitWithNewSeq st.db file.name file.toStored [] with
  | mk =>
    simp only [putFile, hc] at h
    obtain ⟨hr, rfl⟩ := Prod.mk.inj h
    obtain ⟨c, rfl, -⟩ := map_eq_ok.1 hr
    exact ⟨_, rfl, .lock (commit_finishes hc [])⟩

theorem putFileWithCarry_alone {file : WireFile} {carryFrom : Str} {seq : ℤ}
    (h : putFileWithCarry st file carryFrom = (.ok seq, st')) :
    (Op.putFileWithCarry file carryFrom).Alone bl epoch st st' := by
  unfold putFileWithCarry at h
  split at h
  · cases h
  · next src hsrc =>
    refine ⟨_, rfl, .step (by simp) (by simp) (by simp only [Pc.exec, hsrc]; rfl) (.lock ?_)⟩
    simp only at h
    split at h
    · cases h
    · next hc =>
      cases h
      exact commit_finishes hc _

variable {hash : Bytes32}

lemma link_finishes {link : Link} (h : linkBlock st (some epoch) name hash link = (.ok (), st')) :
    (Pc.readStaged hash link).Finishes bl epoch name st st' := by
  obtain ⟨entry, batch, hentry, hbatch, rfl⟩ := linkBlock_eq_ok h
  -- the write and the record, once the entry is read
  have hwrite : (toWrite name hash link entry).Finishes bl epoch name st { st with
      db := st.db.write batch
      gc := link.seq.elim st.gc fun seq => st.gc.recordBlockWrite hash (some seq) } := by
    unfold toWrite
    rw [hbatch]
    refine Pc.Finishes.of_exec (by simp) (by simp) (by simp only [Pc.exec, hbatch]; rfl) ?_
    cases link <;> exact recordNext_finishes _ { st with db := st.db.write batch }
  unfold findFileEntry at hentry
  split at hentry
  · cases hentry
  · next found hinbox =>
    cases hentry
    exact .of_exec (by simp) (by simp) (by simp only [Pc.exec, hinbox]) hwrite
  · next hinbox =>
    refine .step (by simp) (by simp) (by simp only [Pc.exec, hinbox]; rfl) ?_
    exact .of_exec (by simp) (by simp) (by simp only [Pc.exec, hentry]) hwrite

/-- Where `find_block_dir` leads: to the row it found, or to a new one. -/
def afterSearch (hash : Bytes32) (data : Option Bytes) : Option (Str × ℕ) → After
  | some (dir, seq) => .go (.readStaged hash (.existing dir seq))
  | none => notFound hash data

variable {data : Option Bytes} {res : Option (Str × ℕ)}

lemma probe_finishes (dirs : List Str) (h : probeDirs st.db hash dirs = .ok res)
    (hrest : (afterSearch hash data res).Finishes bl epoch name st st') :
    (probeNext hash data dirs).Finishes bl epoch name st st' := by
  induction dirs with
  | nil =>
    cases h
    exact hrest
  | cons dir dirs ih =>
    simp only [probeDirs] at h
    split at h
    · cases h
    · next hptr => exact Pc.Finishes.of_exec (by simp) (by simp) (by simp only [Pc.exec, hptr]) (ih h)
    · next seq hptr =>
      refine Pc.Finishes.step (by simp) (by simp) (by simp only [Pc.exec, hptr]; rfl) ?_
      split_ifs at h with hrow
      · cases h
        exact .of_exec (by simp) (by simp) (by simp only [Pc.exec, hrow, if_true]; rfl) hrest
      · exact .of_exec (by simp) (by simp) (by simp only [Pc.exec, hrow]; rfl) (ih h)

lemma search_finishes (h : findBlockDir bl st hash = .ok res)
    (hrest : (afterSearch hash data res).Finishes bl epoch name st st') :
    (Pc.checkSafe hash data).Finishes bl epoch name st st' := by
  unfold findBlockDir at h
  split_ifs at h with hsafe
  · refine .step (by simp) (by simp) (by simp only [Pc.exec, hsafe, if_true]; rfl) ?_
    exact .of_exec (by simp) (by simp) rfl (probe_finishes _ h hrest)
  · cases h
    exact .of_exec (by simp) (by simp) (by simp only [Pc.exec, hsafe]; rfl) hrest

theorem storeBlock_alone {hash data : Bytes} (hroom : st.nextSeq + RESERVATION_N < 2 ^ 64)
    (h : storeBlock bl st (some epoch) name hash data = (.ok (), st')) :
    (Op.storeBlock name hash data).Alone bl epoch st st' := by
  obtain ⟨hash', st₁, link, hh, hlinking, hlink⟩ := storeBlock_eq_ok h
  cases hlinking with
  | inline _ hsmall =>
    refine ⟨⟨name, .wait (.readStaged hash' (.inline data))⟩, ?_, .lock (link_finishes hlink)⟩
    simp only [Op.start, hh, map_some, if_pos hsmall]
  | existing _ dir seq hbig hfound =>
    refine ⟨⟨name, .wait (.checkSafe hash' (some data))⟩, ?_, .lock (search_finishes hfound (link_finishes hlink))⟩
    simp only [Op.start, hh, map_some, if_neg (hbig data rfl)]
  | fresh _ seq db range hbig hfound ha =>
    refine ⟨⟨name, .wait (.checkSafe hash' (some data))⟩, ?_, .lock (search_finishes hfound ?_)⟩
    · simp only [Op.start, hh, map_some, if_neg hbig]
    · refine Pc.Finishes.step (by simp) (fun _ _ _ => hroom) (by simp only [Pc.exec, ha]; rfl) ?_
      exact link_finishes hlink

theorem reuseBlock_alone {hash : Bytes} {res : Bool} (h : reuseBlock bl st (some epoch) name hash = (.ok res, st')) :
    (Op.reuseBlock name hash).Alone bl epoch st st' := by
  obtain ⟨hash', hh, hcases⟩ := reuseBlock_eq_ok h
  refine ⟨⟨name, .wait (.checkSafe hash' none)⟩, by simp only [Op.start, hh, map_some], .lock ?_⟩
  rcases hcases with ⟨-, hfound, rfl⟩ | ⟨-, link, hlinking, hlink⟩
  · exact search_finishes hfound rfl
  · cases hlinking with
    | existing _ dir seq hbig hfound => exact search_finishes hfound (link_finishes hlink)

end Finishes

/-! ### The run of the machine -/

section Runs

variable {bl : Blooms} {epoch : Epoch} {name : Str} {st st' : Store} {pc : Pc} {m : Machine} {t : ℕ}

lemma isLocked_eq_false : m.isLocked name = false ↔
    ∀ t c, m.calls.lookup t = some c → c.name = name → c.pc.locked = false := by
  unfold Machine.isLocked
  rw [List.any_eq_false]
  constructor
  · intro h t c hc hn
    simpa [hn] using h _ (AList.mem_lookup_iff.1 hc)
  · intro h e he
    by_cases hn : e.2.name = name
    · simp [h e.1 e.2 (AList.mem_lookup_iff.2 he) hn]
    · simp [hn]

/-- No other call than `t` holds the lock of the name. -/
def Machine.FreeFor (m : Machine) (t : ℕ) (name : Str) : Prop :=
  ∀ t' c, t' ≠ t → m.calls.lookup t' = some c → c.name = name → c.pc.locked = false

lemma Machine.FreeFor.unlocked (hfree : m.FreeFor t name)
    (hc : m.calls.lookup t = some ⟨name, .wait pc⟩) : m.isLocked name = false := by
  refine isLocked_eq_false.2 fun t' c hc' hn => ?_
  by_cases ht : t' = t
  · rw [ht, hc] at hc'
    cases hc'
    rfl
  · exact hfree t' c ht hc' hn

lemma step_next (hc : m.calls.lookup t = some ⟨name, pc⟩) (hw : ∀ pc', pc ≠ .wait pc') :
    m.step bl epoch (.next t) = some (m.after t name (pc.exec bl epoch name m.store)) := by
  simp only [Machine.step, hc, bind_some]
  cases pc with
  | wait pc => exact absurd rfl (hw pc)
  | _ => rfl

lemma noWrap_next (hc : m.calls.lookup t = some ⟨name, pc⟩)
    (hroom : ∀ hash data, pc = .allocate hash data → m.store.nextSeq + RESERVATION_N < 2 ^ 64) :
    noWrap m (.next t) = true := by
  simp only [noWrap, hc, all_some]
  split
  · next hash data => exact decide_eq_true (hroom hash data rfl)
  · rfl

/-- The steps of call `t` alone lead to its end: the store is `st` then, and the jobs and the other
calls are where they were. -/
def Machine.Ends (bl : Blooms) (epoch : Epoch) (m : Machine) (t : ℕ) (st : Store) : Prop :=
  ∃ n m', Lib.run (Machine.step bl epoch) m (List.replicate n (.next t)) = some m' ∧
    Meets (Machine.step bl epoch) (fun m a => noWrap m a = true) m (List.replicate n (.next t)) ∧
    m'.store = st ∧ m'.jobs = m.jobs ∧
    ∀ t', m'.calls.lookup t' = if t' = t then none else m.calls.lookup t'

lemma Machine.Ends.cons {m₁ : Machine} (h : m₁.Ends bl epoch t st) (hstep : m.step bl epoch (.next t) = some m₁)
    (hwrap : noWrap m (.next t) = true) (hjobs : m₁.jobs = m.jobs)
    (hcalls : ∀ t', t' ≠ t → m₁.calls.lookup t' = m.calls.lookup t') : m.Ends bl epoch t st := by
  obtain ⟨n, m', hrun, hmeets, hst, hj, hc⟩ := h
  refine ⟨n + 1, m', run_cons_eq_some.2 ⟨m₁, hstep, hrun⟩, ⟨hwrap, fun m₂ hm₂ => ?_⟩, hst,
    hj.trans hjobs, fun t' => ?_⟩
  · cases hstep.symm.trans hm₂
    exact hmeets
  · rw [hc]
    split_ifs with ht
    · rfl
    · exact hcalls t' ht

/-- **A call that runs alone is a run of the machine**: its steps, one after the other. -/
theorem Pc.Finishes.ends (h : pc.Finishes bl epoch name st st') (hst : m.store = st)
    (hc : m.calls.lookup t = some ⟨name, pc⟩) (hfree : m.FreeFor t name) : m.Ends bl epoch t st' := by
  induction h generalizing m with
  | @lock pc st st' h ih =>
    have hstep : m.step bl epoch (.next t) = some { m with calls := m.calls.insert t ⟨name, pc⟩ } := by
      simp only [Machine.step, hc, bind_some, Machine.callStep, hfree.unlocked hc, Bool.false_eq_true, if_false]
    have hother : ∀ t', t' ≠ t → (m.calls.insert t ⟨name, pc⟩).lookup t' = m.calls.lookup t' :=
      fun t' ht => by rw [lookup_insert', if_neg ht]
    have hrest := ih (m := { m with calls := m.calls.insert t ⟨name, pc⟩ }) hst
      (AList.lookup_insert _) (fun t' c ht hc' => hfree t' c ht ((hother t' ht).symm.trans hc'))
    exact hrest.cons hstep (noWrap_next hc (by simp)) rfl hother
  | @last pc st st' r hw hroom h =>
    subst hst
    have hstep : m.step bl epoch (.next t) = some (m.after t name (st', .done r)) := by
      rw [step_next hc hw, h]
    have hend : (m.after t name (st', .done r)).Ends bl epoch t st' :=
      ⟨0, _, rfl, trivial, rfl, rfl, fun t' => by
        simp only [Machine.after, lookup_erase']
        split_ifs <;> rfl⟩
    exact hend.cons hstep (noWrap_next hc hroom) rfl
      fun t' ht => by simp only [Machine.after, lookup_erase', if_neg ht]
  | @step pc pc₁ st st₁ st' hw hroom h hrest ih =>
    subst hst
    have hstep : m.step bl epoch (.next t) = some (m.after t name (st₁, .go pc₁)) := by
      rw [step_next hc hw, h]
    have hother : ∀ t', t' ≠ t → (m.after t name (st₁, .go pc₁)).calls.lookup t' = m.calls.lookup t' :=
      fun t' ht => by simp only [Machine.after, lookup_insert', if_neg ht]
    have hrest := ih (m := m.after t name (st₁, .go pc₁)) rfl (AList.lookup_insert _)
      (fun t' c ht hc' => hfree t' c ht ((hother t' ht).symm.trans hc'))
    exact hrest.cons hstep (noWrap_next hc hroom) rfl hother

theorem Op.Alone.run {op : Op} (h : op.Alone bl epoch m.store st') (ht : t ∉ m.calls)
    (hfree : ∀ call, op.start = some call → m.isLocked call.name = false) :
    ∃ n m', Lib.run (Machine.step bl epoch) m (.start t op :: List.replicate n (.next t)) = some m' ∧
      Meets (Machine.step bl epoch) (fun m a => noWrap m a = true) m (.start t op :: List.replicate n (.next t)) ∧
      m'.store = st' ∧ m'.jobs = m.jobs ∧ ∀ t', m'.calls.lookup t' = m.calls.lookup t' := by
  obtain ⟨call, hstart, hfin⟩ := h
  have hstep : m.step bl epoch (.start t op) = some { m with calls := m.calls.insert t call } := by
    simp only [Machine.step, if_neg ht, hstart]
  have hunlocked : Machine.FreeFor { m with calls := m.calls.insert t call } t call.name := by
    intro t' c ht' hc hn
    rw [lookup_insert', if_neg ht'] at hc
    exact isLocked_eq_false.1 (hfree call hstart) t' c hc hn
  obtain ⟨n, m', hrun, hmeets, hst, hjobs, hcalls⟩ := hfin.ends
    (m := { m with calls := m.calls.insert t call }) rfl (AList.lookup_insert _) hunlocked
  refine ⟨n, m', run_cons_eq_some.2 ⟨_, hstep, hrun⟩, ⟨rfl, fun m₁ hm₁ => ?_⟩, hst, hjobs, fun t' => ?_⟩
  · cases hstep.symm.trans hm₁
    exact hmeets
  · rw [hcalls, lookup_insert']
    split_ifs with he
    · rw [he, AList.lookup_eq_none.2 ht]
    · rfl

end Runs

end Bepository.Storage
