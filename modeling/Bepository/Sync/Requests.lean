import Bepository.Sync.Jobs

/-!
# Flow control

At most `max_pending_requests` requests are in flight.  A block for which there is no room waits in the
deferred queue until a response frees a slot: `handle_response` then drains the queue until it is empty
or the slots are taken again.  `Ledger` adds to a connection the history of the blocks that were handed
to `submit_or_defer_block` and of those that were answered or found in the store.
-/

namespace Bepository.Sync

open Lib Storage List Option

/-! ### The history of the blocks -/

/-- The block that the index loop hands to `submit_or_defer_block` in this step. -/
def Conn.handed (c : Conn) : Act → List FileBlock
  | .indexStep =>
    match c.index with
    | .submit file block blocks _ =>
      if 2 ^ 31 ≤ file.blocks.length - (blocks.length + 1) then []
      else [⟨file.name, block.offset, block.hash, file.version⟩]
    | _ => []
  | _ => []

/-- The block that is answered in this step, or that `drain_deferred` finds in the store. -/
def Conn.settled (cfg : Config) (c : Conn) : Act → List FileBlock
  | .response id _ _ => (c.pending.lookup id).toList
  | .msgStep =>
    match c.msg with
    | .reuse d _ =>
      match (c.reuseBlock cfg d.block.name d.block.hash d.size).1 with
      | .ok true => [d.block]
      | _ => []
    | _ => []
  | _ => []

/-- A connection, the blocks handed to `submit_or_defer_block` so far, and those of them that were
answered or found in the store. -/
structure Ledger where
  conn : Conn
  handed : List FileBlock
  settled : List FileBlock

def Ledger.start (st : Store) : Ledger := ⟨Conn.connect st, [], []⟩

/-- A step of the connection, or a change of the folder by others that serve it. -/
inductive LedgerAct where
  | conn (a : Act)
  | store (st : Store)

def Ledger.step (cfg : Config) (l : Ledger) : LedgerAct → Option Ledger
  | .conn a => (l.conn.step cfg a).map fun c =>
      ⟨c, l.handed ++ l.conn.handed a, l.settled ++ l.conn.settled cfg a⟩
  | .store st => some { l with conn := { l.conn with store := st } }

def MsgPc.held : MsgPc → List FileBlock
  | .reuse d _ | .submit d _ => [d.block]
  | .check _ next | .complete _ next | .notify _ next => next.held
  | .idle | .store .. | .drain _ | .stopped => []

/-- No `handle_response` is running, or its drain is over. -/
def MsgPc.drained : MsgPc → Bool
  | .idle => true
  | .check _ next | .complete _ next | .notify _ next => next.drained
  | .store .. | .drain _ | .reuse .. | .submit .. | .stopped => false

/-- The message loop is not stopped, and does not come to that without a failure. -/
def MsgPc.live : MsgPc → Bool
  | .stopped => false
  | .notify _ next | .complete _ next | .check _ next => next.live
  | _ => true

/-- How many steps a running `handle_response` has left, apart from the blocks that wait. -/
def MsgPc.work : MsgPc → ℕ
  | .idle | .stopped => 0
  | .notify _ next => next.work + 1
  | .complete _ next => next.work + 2
  | .check _ next => next.work + 3
  | .drain _ => 4
  | .store .. | .submit .. => 5
  | .reuse .. => 8

/-- The blocks that a drain may still take: none once the slots are taken, and they stay taken until it ends. -/
def Conn.backlog (cfg : Config) (c : Conn) : ℕ := if c.full cfg then 0 else c.deferred.length

def Conn.work (cfg : Config) (c : Conn) : ℕ := c.msg.work + 5 * c.backlog cfg

def Conn.inFlight (c : Conn) : List FileBlock := c.pending.toList.map Prod.snd

def Conn.waiting (c : Conn) : List FileBlock := c.deferred.map DeferredRequest.block

/-! ### Request ids -/

/-- A value of type `i32`. -/
def IsI32 (n : ℤ) : Prop := -2 ^ 31 ≤ n ∧ n < 2 ^ 31

lemma isI32_wrapI32 (n : ℤ) : IsI32 (wrapI32 n) := by
  unfold IsI32 wrapI32
  omega

variable {id : ℤ} {pending : Table ℤ FileBlock}

lemma nextRequestId_isI32 {tries : ℕ} {next : ℤ × ℤ} (hid : IsI32 id)
    (h : nextRequestId pending tries id = some next) : IsI32 next.1 ∧ IsI32 next.2 := by
  induction tries generalizing id with
  | zero => cases h
  | succ tries ih =>
    rw [nextRequestId] at h
    split_ifs at h
    · exact ih (isI32_wrapI32 _) h
    · cases h
      exact ⟨hid, isI32_wrapI32 _⟩

def idsFrom (id : ℤ) : ℕ → List ℤ
  | 0 => []
  | n + 1 => id :: idsFrom (wrapI32 (id + 1)) n

lemma nextRequestId_eq_none {tries : ℕ} :
    nextRequestId pending tries id = none ↔ ∀ i ∈ idsFrom id tries, i ∈ pending := by
  induction tries generalizing id with
  | zero => simp [nextRequestId, idsFrom]
  | succ tries ih =>
    rw [nextRequestId]
    by_cases hid : id ∈ pending
    · simp [hid, idsFrom, ih]
    · simp [hid, idsFrom]

lemma wrapI32_add (n m : ℤ) : wrapI32 (wrapI32 n + m) = wrapI32 (n + m) := by
  unfold wrapI32
  omega

lemma wrapI32_of_isI32 {n : ℤ} (h : IsI32 n) : wrapI32 n = n := by
  unfold IsI32 at h
  unfold wrapI32
  omega

lemma mem_idsFrom {id i : ℤ} {n : ℕ} (hid : IsI32 id) : i ∈ idsFrom id n ↔ ∃ k < n, i = wrapI32 (id + k) := by
  induction n generalizing id with
  | zero => simp [idsFrom]
  | succ n ih =>
    rw [idsFrom, mem_cons, ih (isI32_wrapI32 _)]
    constructor
    · rintro (rfl | ⟨k, hk, rfl⟩)
      · exact ⟨0, by omega, by simpa using (wrapI32_of_isI32 hid).symm⟩
      · refine ⟨k + 1, by omega, ?_⟩
        rw [wrapI32_add]
        push_cast
        congr 1
        omega
    · rintro ⟨k, hk, rfl⟩
      cases k with
      | zero => exact .inl (by simpa using wrapI32_of_isI32 hid)
      | succ k =>
        refine .inr ⟨k, by omega, ?_⟩
        rw [wrapI32_add]
        push_cast
        congr 1
        omega

lemma nodup_idsFrom {n : ℕ} (hid : IsI32 id) (hn : n ≤ 2 ^ 32) : (idsFrom id n).Nodup := by
  induction n generalizing id with
  | zero => simp [idsFrom]
  | succ n ih =>
    rw [idsFrom, nodup_cons, mem_idsFrom (isI32_wrapI32 _)]
    refine ⟨?_, ih (isI32_wrapI32 _) (by omega)⟩
    rintro ⟨k, hk, heq⟩
    rw [wrapI32_add] at heq
    unfold IsI32 at hid
    unfold wrapI32 at heq
    omega

lemma length_idsFrom (id : ℤ) (n : ℕ) : (idsFrom id n).length = n := by
  induction n generalizing id with
  | zero => rfl
  | succ n ih => simp [idsFrom, ih]

lemma nextRequestId_isSome (hid : IsI32 id) (hlen : pending.entries.length < 2 ^ 32) :
    (nextRequestId pending (pending.entries.length + 1) id).isSome := by
  rw [isSome_iff_ne_none]
  intro hnone
  have hsub : idsFrom id (pending.entries.length + 1) ⊆ pending.keys :=
    fun i hi => nextRequestId_eq_none.1 hnone i hi
  have hle := ((nodup_idsFrom hid hlen).subperm hsub).length_le
  rw [length_idsFrom] at hle
  have hkeys : pending.keys.length = pending.entries.length := by
    simp [AList.keys, List.keys]
  omega

/-! ### The invariant -/

/-- The requests in flight fit and were sent, their ids are `i32` values, no block is lost or doubled, and
blocks wait only while all slots are taken. -/
structure Flow (cfg : Config) (l : Ledger) : Prop where
  bound : l.conn.pending.entries.length ≤ clampMaxPendingRequests cfg.maxPendingRequests
  next : IsI32 l.conn.nextId
  ids : ∀ id ∈ l.conn.pending, IsI32 id
  requested : ∀ id block, l.conn.pending.lookup id = some block →
    ∃ size blockNo, .request id block size blockNo ∈ l.conn.sent
  live : l.conn.msg.live = true
  blocks : l.handed.Perm (l.conn.inFlight ++ l.conn.waiting ++ l.conn.msg.held ++ l.settled)
  stall : l.conn.msg.drained = true → l.conn.deferred ≠ [] → l.conn.full cfg = true

variable {cfg : Config} {c c' : Conn} {l l' : Ledger} {a : Act}

/-- What a step does that leaves the queues alone; `settled` is the block that it settles. -/
structure LeavesQueues (cfg : Config) (c c' : Conn) (settled : List FileBlock) : Prop where
  sent : c.sent ⊆ c'.sent
  pending : c'.pending = c.pending
  nextId : c'.nextId = c.nextId
  deferred : c'.deferred = c.deferred
  live : c.msg.live = true → c'.msg.live = true
  held : c.msg.held = settled ++ c'.msg.held
  drained : c'.msg.drained = true → c.msg.drained = true ∨ c.deferred = [] ∨ c.full cfg = true

lemma LeavesQueues.of_index {ix : IndexPc} {st : Store} {sent : List Outgoing} {down : Bool} {seq : ℤ}
    (h : c.sent ⊆ sent) : LeavesQueues cfg c
      { c with store := st, sent := sent, shutdown := down, lastSequence := seq, index := ix } [] :=
  ⟨h, rfl, rfl, rfl, id, rfl, .inl⟩

lemma Flow.keep {settled : List FileBlock} (h : Flow cfg l) (hk : LeavesQueues cfg l.conn c' settled) :
    Flow cfg ⟨c', l.handed, l.settled ++ settled⟩ := by
  have hfull : c'.full cfg = l.conn.full cfg := by
    unfold Conn.full
    rw [hk.pending]
  refine ⟨?_, ?_, ?_, fun id block hl => ?_, hk.live h.live, ?_, fun hd hne => ?_⟩
  · simp only [hk.pending]
    exact h.bound
  · simp only [hk.nextId]
    exact h.next
  · simp only [hk.pending]
    exact h.ids
  · simp only [hk.pending] at hl
    obtain ⟨size, blockNo, hsent⟩ := h.requested id block hl
    exact ⟨size, blockNo, hk.sent hsent⟩
  · refine h.blocks.trans ?_
    simp only [Conn.inFlight, Conn.waiting, hk.pending, hk.deferred, hk.held, append_assoc]
    refine List.Perm.append_left _ (List.Perm.append_left _ ?_)
    rw [← append_assoc c'.msg.held]
    exact perm_append_comm
  · rw [hfull]
    rw [hk.deferred] at hne
    rcases hk.drained hd with hdr | hnil | hf
    · exact h.stall hdr hne
    · exact absurd hnil hne
    · exact hf

lemma submitOrDefer_cases {block : FileBlock} {size : ℤ} {blockNo : ℕ}
    (h : c.submitOrDeferBlock cfg block size blockNo = some c') :
    (c.full cfg = true ∧ c' = { c with deferred := c.deferred ++ [⟨block, size, blockNo⟩] }) ∨
    (c.full cfg = false ∧ ∃ next, nextRequestId c.pending (c.pending.entries.length + 1) c.nextId =
        some next ∧ c' = { c with
          pending := c.pending.insert next.1 block
          nextId := next.2
          sent := c.sent ++ [.request next.1 block size blockNo] }) := by
  unfold Conn.submitOrDeferBlock at h
  split_ifs at h with hfull
  · cases h
    exact .inl ⟨hfull, rfl⟩
  · obtain ⟨next, hnext, rfl⟩ := map_eq_some_iff.1 h
    exact .inr ⟨by simpa using hfull, next, hnext, rfl⟩

lemma full_iff : c.full cfg = true ↔ clampMaxPendingRequests cfg.maxPendingRequests ≤ c.pending.entries.length := by
  simp [Conn.full]

lemma Flow.submit (h : Flow cfg l) (new : List FileBlock) (ix : IndexPc) (pc : MsgPc) {block : FileBlock}
    {size : ℤ} {blockNo : ℕ} (hs : l.conn.submitOrDeferBlock cfg block size blockNo = some c')
    (hlive : pc.live = true) (hheld : (new ++ l.conn.msg.held).Perm (block :: pc.held))
    (hdrained : pc.drained = true → l.conn.msg.drained = true) :
    Flow cfg ⟨{ c' with index := ix, msg := pc }, l.handed ++ new, l.settled⟩ := by
  -- where the blocks were before, with the new one
  have hbefore : (l.handed ++ new).Perm (block :: (l.conn.inFlight ++ l.conn.waiting ++ pc.held ++ l.settled)) := by
    have hperm : (l.handed ++ new).Perm
        (l.conn.inFlight ++ l.conn.waiting ++ (new ++ l.conn.msg.held) ++ l.settled) := by
      refine (h.blocks.append_right new).trans ?_
      simp only [append_assoc]
      refine List.Perm.append_left _ (List.Perm.append_left _ ?_)
      rw [← append_assoc]
      exact perm_append_comm
    refine hperm.trans ?_
    refine ((hheld.append_left _).append_right _).trans ?_
    rw [append_assoc _ (block :: pc.held), cons_append]
    refine perm_middle.trans ?_
    rw [← append_assoc]
  rcases submitOrDefer_cases hs with ⟨hfull, rfl⟩ | ⟨hfree, next, hnext, rfl⟩
  · refine ⟨h.bound, h.next, h.ids, h.requested, hlive, hbefore.trans ?_, fun _ _ => hfull⟩
    have hmiddle : (block :: ((l.conn.inFlight ++ l.conn.waiting) ++ (pc.held ++ l.settled))).Perm
        ((l.conn.inFlight ++ l.conn.waiting) ++ block :: (pc.held ++ l.settled)) :=
      perm_middle.symm
    simpa [Conn.inFlight, Conn.waiting] using hmiddle
  · have hfresh := nextRequestId_notMem hnext
    have hlen : ¬ clampMaxPendingRequests cfg.maxPendingRequests ≤ l.conn.pending.entries.length := by
      rw [← full_iff, hfree]
      exact Bool.false_ne_true
    have hentries := AList.entries_insert_of_notMem (b := block) hfresh
    have hids := nextRequestId_isI32 h.next hnext
    refine ⟨?_, hids.2, ?_, fun id block' hl => ?_, hlive, hbefore.trans ?_, fun hd hne => ?_⟩
    · simp only [hentries, length_cons]
      omega
    · intro id hid
      rcases (AList.mem_insert _).1 hid with rfl | hid
      · exact hids.1
      · exact h.ids id hid
    · by_cases hid : id = next.1
      · subst hid
        rw [AList.lookup_insert] at hl
        cases hl
        exact ⟨size, blockNo, mem_append_right _ mem_cons_self⟩
      · rw [AList.lookup_insert_ne hid] at hl
        obtain ⟨size, blockNo, hsent⟩ := h.requested id block' hl
        exact ⟨size, blockNo, mem_append_left _ hsent⟩
    · simp only [Conn.inFlight, Conn.waiting, Table.toList, hentries, map_cons, cons_append]
      exact List.Perm.refl _
    · -- nothing waited while a slot was free
      have hwas := h.stall (hdrained hd) hne
      rw [hfree] at hwas
      cases hwas

lemma Flow.response (h : Flow cfg l) (hidle : l.conn.msg = .idle) (id code : ℤ) (data : Bytes)
    (hup : (l.conn.response id code data).shutdown = false) :
    Flow cfg ⟨l.conn.response id code data, l.handed, l.settled ++ (l.conn.pending.lookup id).toList⟩ := by
  have hheld : l.conn.msg.held = [] := by rw [hidle]; rfl
  cases hl : l.conn.pending.lookup id with
  | none =>
    simp only [Conn.response, hl]
    exact h.keep ⟨List.Subset.refl _, rfl, rfl, rfl, fun _ => rfl, hheld, fun hd => by cases hd⟩
  | some block =>
    have hperm := Table.toList_perm_erase hl
    have hlen : (l.conn.pending.erase id).entries.length ≤ l.conn.pending.entries.length :=
      (kerase_sublist id l.conn.pending.entries).length_le
    have hblocks : l.handed.Perm ((Table.toList (l.conn.pending.erase id)).map Prod.snd ++
        l.conn.waiting ++ [] ++ (l.settled ++ [block])) := by
      refine h.blocks.trans ?_
      rw [hheld]
      have hmoved := ((hperm.map Prod.snd).append_right (l.conn.waiting ++ l.settled)).trans
        (perm_append_singleton block _).symm
      simpa [Conn.inFlight] using hmoved
    have hids : ∀ i ∈ l.conn.pending.erase id, IsI32 i := fun i hi => h.ids i (AList.mem_erase.1 hi).2
    have hreq : ∀ i b, (l.conn.pending.erase id).lookup i = some b →
        ∃ size blockNo, .request i b size blockNo ∈ l.conn.sent := by
      intro i b hi
      have hne : i ≠ id := by
        rintro rfl
        rw [AList.lookup_erase] at hi
        cases hi
      rw [AList.lookup_erase_ne hne] at hi
      exact h.requested i b hi
    simp only [Conn.response, hl] at hup ⊢
    split_ifs at hup ⊢
    · cases hup
    · exact ⟨hlen.trans h.bound, h.next, hids, hreq, rfl, hblocks, fun hd => by cases hd⟩

lemma indexStep_queues (h : c.indexStep cfg = some c') :
    (c.handed .indexStep = [] ∧ LeavesQueues cfg c c' [] ∧ c'.msg = c.msg) ∨
    ∃ block size blockNo c₁ ix, c.handed .indexStep = [block] ∧
      c.submitOrDeferBlock cfg block size blockNo = some c₁ ∧ c' = c₁.setIndex ix := by
  cases Conn.indexStep_takes h with
  | @submit file block blocks needed c₁ hpc hsmall hsub =>
    exact .inr ⟨_, _, _, c₁, _, by simp only [Conn.handed, hpc, if_neg (not_le.2 hsmall)], hsub, rfl⟩
  | submitFails hpc hlarge =>
    exact .inl ⟨by simp only [Conn.handed, hpc, if_pos hlarge], .of_index (List.Subset.refl _), rfl⟩
  | refuse hpc | read hpc _ | next hpc | applied hpc | stage hpc | commit hpc _
  | commitFails hpc _ | pass hpc | contest hpc | copy hpc _ | copyFails hpc _
  | win hpc _ | winFails hpc _ | requested hpc | giveUp hpc _ | reuse hpc _
  | miss hpc _ | reuseFails hpc _ | check hpc _ | leave hpc _ | complete hpc _
  | completeFails hpc _ | record hpc =>
    exact .inl ⟨by simp only [Conn.handed, hpc], .of_index (List.Subset.refl _), rfl⟩
  | notify hpc =>
    exact .inl ⟨by simp only [Conn.handed, hpc], .of_index (subset_append_left _ _), rfl⟩

lemma Flow.indexStep (h : Flow cfg l) (hs : l.conn.indexStep cfg = some c') :
    Flow cfg ⟨c', l.handed ++ l.conn.handed .indexStep, l.settled ++ l.conn.settled cfg .indexStep⟩ := by
  have hset : l.conn.settled cfg .indexStep = [] := rfl
  rcases indexStep_queues hs with ⟨hnew, hk, -⟩ | ⟨block, size, blockNo, c₁, ix, hnew, hsub, rfl⟩
  · rw [hnew, hset, append_nil]
    exact h.keep hk
  · have hmsg : c₁.msg = l.conn.msg := (submitOrDeferBlock_eq_some hsub).2.2.2.2
    have hflow := h.submit [block] ix l.conn.msg hsub h.live (List.Perm.refl _) id
    rw [hnew, hset, append_nil]
    rw [← hmsg] at hflow
    exact hflow

lemma Flow.take (h : Flow cfg l) {done : Option FileBlock} {d : DeferredRequest} {ds : List DeferredRequest}
    (hpc : l.conn.msg = .drain done) (hd : l.conn.deferred = d :: ds) :
    Flow cfg ⟨{ l.conn with deferred := ds }.setMsg (.reuse d done), l.handed, l.settled⟩ := by
  refine ⟨h.bound, h.next, h.ids, h.requested, rfl, h.blocks.trans ?_, fun hdr => by cases hdr⟩
  have hwaiting : l.conn.waiting = d.block :: ds.map DeferredRequest.block := by
    rw [Conn.waiting, hd]
    rfl
  have hheld : l.conn.msg.held = [] := by rw [hpc]; rfl
  rw [hwaiting, hheld]
  have hmoved : (l.conn.inFlight ++ (d.block :: ds.map DeferredRequest.block)).Perm
      (l.conn.inFlight ++ (ds.map DeferredRequest.block ++ [d.block])) :=
    (perm_append_singleton d.block _).symm.append_left _
  simpa [Conn.inFlight, Conn.waiting, Conn.setMsg, MsgPc.held] using hmoved.append_right l.settled

/-- What the message loop does to the queues: it goes on without them, takes a block, or hands one in. -/
lemma msgStep_queues (hs : c.msgStep cfg = some c') (hup : c.shutdown = false) (hup' : c'.shutdown = false) :
    (LeavesQueues cfg c c' (c.settled cfg .msgStep) ∧ c'.msg.work < c.msg.work) ∨
    c.settled cfg .msgStep = [] ∧ ∃ d done,
      (∃ ds, c.msg = .drain done ∧ c.deferred = d :: ds ∧ c.full cfg = false ∧
        c' = { c with deferred := ds }.setMsg (.reuse d done)) ∨
      ∃ c₁, c.msg = .submit d done ∧ c.submitOrDeferBlock cfg d.block d.size d.blockNo = some c₁ ∧
        c' = c₁.setMsg (.drain done) := by
  have hgo : ∀ {pc : MsgPc} {st : Store} {sent : List Outgoing}, c.sent ⊆ sent →
      (c.msg.live = true → pc.live = true) → c.msg.held = c.settled cfg .msgStep ++ pc.held →
      (pc.drained = true → c.msg.drained = true ∨ c.deferred = [] ∨ c.full cfg = true) → pc.work < c.msg.work →
      LeavesQueues cfg c { c with store := st, sent := sent, msg := pc } (c.settled cfg .msgStep) ∧ pc.work < c.msg.work :=
    fun hsent hlive hheld hdrained hwork => ⟨⟨hsent, rfl, rfl, rfl, hlive, hheld, hdrained⟩, hwork⟩
  cases Conn.msgStep_takes hs with
  | storeFails | reuseFails | completeFails =>
    cases hup'
  | store hpc hok | reuse hpc hok | miss hpc hok =>
    refine .inl (hgo (List.Subset.refl _) (fun _ => rfl) ?_ (fun hd => by cases hd) ?_)
    · simp [Conn.settled, hpc, hok, MsgPc.held]
    · simp [hpc, MsgPc.work]
  | @drained done hpc hstop =>
    refine .inl (hgo (List.Subset.refl _) ?_ ?_ (fun _ => .inr ?_) ?_)
    · cases done <;> exact fun _ => rfl
    · cases done <;> simp [Conn.settled, hpc, MsgPc.held, Conn.afterDrain]
    · rcases hstop with hdown | hstop
      · rw [hup] at hdown
        cases hdown
      · exact hstop.symm
    · cases done <;> simp [hpc, MsgPc.work, Conn.afterDrain]
  | @take done d ds hpc hcons hfree =>
    exact .inr ⟨by simp only [Conn.settled, hpc], d, done, .inl ⟨ds, hpc, hcons, hfree, rfl⟩⟩
  | @submit done d c₁ hpc hsub =>
    exact .inr ⟨by simp only [Conn.settled, hpc], d, done, .inr ⟨c₁, hpc, hsub, rfl⟩⟩
  | check hpc _ | leave hpc _ | notify hpc =>
    refine .inl (hgo (by simp) ?_ ?_ (fun hd => .inl ?_) ?_)
    · simp [hpc, MsgPc.live]
    · simp [Conn.settled, hpc, MsgPc.held]
    · simpa [hpc, MsgPc.drained] using hd
    · simp [hpc, MsgPc.work]
  | @complete _ _ committed _ hpc _ =>
    refine .inl (hgo (List.Subset.refl _) ?_ ?_ (fun hd => .inl ?_) ?_)
    · cases committed <;> simp [hpc, MsgPc.live, Conn.afterComplete]
    · cases committed <;> simp [Conn.settled, hpc, MsgPc.held, Conn.afterComplete]
    · cases committed <;> simpa [hpc, MsgPc.drained, Conn.afterComplete] using hd
    · cases committed <;> simp [hpc, MsgPc.work, Conn.afterComplete]

lemma Flow.msgStep (h : Flow cfg l) (hup : l.conn.shutdown = false) (hup' : c'.shutdown = false)
    (hs : l.conn.msgStep cfg = some c') :
    Flow cfg ⟨c', l.handed ++ l.conn.handed .msgStep, l.settled ++ l.conn.settled cfg .msgStep⟩ := by
  have hnew : l.conn.handed .msgStep = [] := rfl
  rw [hnew, append_nil]
  rcases msgStep_queues hs hup hup' with
    ⟨hk, -⟩ | ⟨hset, d, done, ⟨ds, hpc, hcons, -, rfl⟩ | ⟨c₁, hpc, hsub, rfl⟩⟩
  · exact h.keep hk
  · rw [hset, append_nil]
    exact h.take hpc hcons
  · have hindex : c₁.index = l.conn.index := (submitOrDeferBlock_eq_some hsub).2.2.2.1
    have hflow := h.submit [] l.conn.index (.drain done) hsub rfl (by rw [hpc]; exact List.Perm.refl _)
      fun hd => by cases hd
    rw [hset, append_nil]
    rw [← hindex, append_nil] at hflow
    exact hflow

/-! ### Runs -/

lemma shutdown_of_step (hn : a ≠ .reconnect) (hs : c.step cfg a = some c') (hup : c'.shutdown = false) :
    c.shutdown = false := by
  have hdoing : c.doing a ≠ .reconnect := by
    cases a with
    | reconnect => exact absurd rfl hn
    | indexStep =>
      simp only [Conn.doing, IndexPc.doing]
      split <;> simp
    | msgStep =>
      simp only [Conn.doing, MsgPc.doing]
      split <;> simp
    | _ => simp [Conn.doing]
  exact (step_moves hs).up hdoing hup

lemma Flow.conn (h : l.conn.shutdown = false → Flow cfg l) (hn : a ≠ .reconnect)
    (hs : l.step cfg (.conn a) = some l') (hup : l'.conn.shutdown = false) : Flow cfg l' := by
  obtain ⟨c', hc, rfl⟩ := map_eq_some_iff.1 hs
  have hwas := shutdown_of_step hn hc hup
  have h := h hwas
  cases a with
  | index =>
    simp only [Conn.step] at hc
    split at hc <;> cases hc
    simp only [Conn.handed, append_nil]
    exact h.keep (.of_index (List.Subset.refl _))
  | indexStep => exact h.indexStep hc
  | resolve =>
    simp only [Conn.step, Conn.resolve] at hc
    simp only [Conn.handed, append_nil]
    repeat' split at hc
    all_goals cases hc
    all_goals exact h.keep (.of_index (List.Subset.refl _))
  | response id code data =>
    simp only [Conn.step] at hc
    split at hc <;> cases hc
    next hidle =>
      simp only [Conn.handed, append_nil]
      exact h.response hidle id code data hup
  | msgStep => exact h.msgStep hwas hup hc
  | shutdown | failIndex | failMsg =>
    cases hc
    cases hup
  | reconnect => exact absurd rfl hn

lemma Flow.step {a : LedgerAct} (h : l.conn.shutdown = false → Flow cfg l) (hn : a ≠ .conn .reconnect)
    (hs : l.step cfg a = some l') (hup : l'.conn.shutdown = false) : Flow cfg l' := by
  cases a with
  | conn => exact Flow.conn h (fun ha => hn (by rw [ha])) hs hup
  | store =>
    cases hs
    have h := h hup
    exact ⟨h.bound, h.next, h.ids, h.requested, h.live, h.blocks, h.stall⟩

lemma Flow.start (st : Store) : Flow cfg (Ledger.start st) where
  bound := Nat.zero_le _
  next := by
    show IsI32 0
    unfold IsI32
    omega
  ids id hid := absurd hid (AList.notMem_empty id)
  requested id block hl := by cases hl
  live := rfl
  blocks := List.Perm.refl _
  stall _ hne := absurd rfl hne

/-! ### The end of a response -/

def LedgerAct.isMsgStep : LedgerAct → Bool
  | .conn .msgStep => true
  | _ => false

/-- The connection goes on, and no other response is taken. -/
def LedgerAct.goesOn : LedgerAct → Bool
  | .conn (.response ..) | .conn .reconnect => false
  | _ => true

lemma backlog_submit {block : FileBlock} {size : ℤ} {blockNo : ℕ}
    (h : c.submitOrDeferBlock cfg block size blockNo = some c') : c'.backlog cfg ≤ c.backlog cfg := by
  rcases submitOrDefer_cases h with ⟨hfull, rfl⟩ | ⟨hfree, next, -, rfl⟩
  · exact (if_pos hfull).le.trans (Nat.zero_le _)
  · have hall : c.backlog cfg = c.deferred.length := if_neg (by simp [hfree])
    rw [hall]
    unfold Conn.backlog
    split_ifs
    · exact Nat.zero_le _
    · exact le_rfl

lemma LeavesQueues.backlog {settled : List FileBlock} (h : LeavesQueues cfg c c' settled) :
    c'.backlog cfg = c.backlog cfg := by
  unfold Conn.backlog Conn.full
  rw [h.pending, h.deferred]

lemma msgStep_work (hs : c.msgStep cfg = some c') (hup : c.shutdown = false) (hup' : c'.shutdown = false) :
    c'.work cfg < c.work cfg := by
  unfold Conn.work
  rcases msgStep_queues hs hup hup' with
    ⟨hk, hwork⟩ | ⟨-, d, done, ⟨ds, hpc, hcons, hfree, rfl⟩ | ⟨c₁, hpc, hsub, rfl⟩⟩
  · rw [hk.backlog]
    omega
  · have hlen : c.backlog cfg = ds.length + 1 := by
      rw [Conn.backlog, if_neg (by simp [hfree]), hcons, length_cons]
    have hlen' : ({ c with deferred := ds }.setMsg (.reuse d done)).backlog cfg = ds.length :=
      if_neg (Bool.eq_false_iff.1 hfree)
    rw [hlen, hlen', hpc]
    simp only [Conn.setMsg, MsgPc.work]
    omega
  · have hle := backlog_submit hsub
    rw [hpc]
    show 4 + 5 * c₁.backlog cfg < 5 + 5 * c.backlog cfg
    omega

lemma step_work {a : LedgerAct} (hs : l.step cfg a = some l') (hgoes : a.goesOn = true)
    (hup : l'.conn.shutdown = false) : l.conn.shutdown = false ∧
      l'.conn.work cfg + (if a.isMsgStep then 1 else 0) ≤ l.conn.work cfg := by
  cases a with
  | store =>
    cases hs
    exact ⟨hup, le_rfl⟩
  | conn a =>
    obtain ⟨c', hc, rfl⟩ := map_eq_some_iff.1 hs
    have hwas : l.conn.shutdown = false := by
      refine shutdown_of_step ?_ hc hup
      rintro rfl
      cases hgoes
    refine ⟨hwas, ?_⟩
    cases a with
    | indexStep =>
      rcases indexStep_queues hc with ⟨-, hk, hm⟩ | ⟨block, size, blockNo, c₁, ix, -, hsub, rfl⟩
      · exact (congrArg₂ (· + 5 * ·) (congrArg MsgPc.work hm) hk.backlog).le
      · have hmsg : c₁.msg = l.conn.msg := (submitOrDeferBlock_eq_some hsub).2.2.2.2
        have hle := backlog_submit hsub
        show c₁.msg.work + 5 * c₁.backlog cfg ≤ l.conn.msg.work + 5 * l.conn.backlog cfg
        rw [hmsg]
        omega
    | msgStep => exact msgStep_work hc hwas hup
    | index =>
      simp only [Conn.step] at hc
      split at hc <;> cases hc
      exact le_rfl
    | resolve =>
      simp only [Conn.step, Conn.resolve] at hc
      repeat' split at hc
      all_goals cases hc
      all_goals exact le_rfl
    | response | reconnect => cases hgoes
    | shutdown | failIndex | failMsg =>
      cases hc
      cases hup

lemma run_work {later : List LedgerAct} (hgoes : ∀ a ∈ later, a.goesOn = true)
    (hr : run (Ledger.step cfg) l later = some l') (hup : l'.conn.shutdown = false) :
    l.conn.shutdown = false ∧ l'.conn.work cfg + later.countP LedgerAct.isMsgStep ≤ l.conn.work cfg := by
  induction later generalizing l with
  | nil =>
    cases hr
    exact ⟨hup, le_rfl⟩
  | cons a later ih =>
    obtain ⟨l₁, hs, hr⟩ := run_cons_eq_some.1 hr
    obtain ⟨hup₁, hrest⟩ := ih (fun b hb => hgoes b (mem_cons_of_mem a hb)) hr
    obtain ⟨hwas, hstep⟩ := step_work hs (hgoes a mem_cons_self) hup₁
    rw [countP_cons]
    exact ⟨hwas, by omega⟩

lemma idle_of_work (hlive : c.msg.live = true) (h : c.work cfg ≤ 0) : c.msg = .idle := by
  have hwork : c.msg.work = 0 := (Nat.add_eq_zero_iff.1 (Nat.le_zero.1 h)).1
  cases hpc : c.msg with
  | idle => rfl
  | stopped =>
    rw [hpc] at hlive
    cases hlive
  | _ => simp [hpc, MsgPc.work] at hwork

lemma msgStep_isSome (hlive : c.msg.live = true) (hrun : c.msg ≠ .idle)
    (hsub : ∀ block size blockNo, (c.submitOrDeferBlock cfg block size blockNo).isSome) :
    (c.msgStep cfg).isSome := by
  unfold Conn.msgStep
  cases hpc : c.msg with
  | idle => exact absurd hpc hrun
  | stopped =>
    rw [hpc] at hlive
    cases hlive
  | submit =>
    dsimp only
    rw [isSome_map]
    exact hsub _ _ _
  | check | notify => rfl
  | _ =>
    dsimp only
    repeat' split
    all_goals rfl

/-- **Flow control**, in every run of a connection that is not shut down: the requests in flight fit
and have distinct ids; every block handed to `submit_or_defer_block` is in flight, waiting, held by the
running drain, or answered or found in the store, as often as it was handed in and in one of these places
at a time; the request of a block in flight was sent; a block that finds no `handle_response` running waits
only because all slots are taken; a `handle_response` that runs is over once the message loop has taken
`Conn.work` steps, whatever happens in between; and, as long as the limit leaves `next_request_id` an id for
every block, it is never stuck before. -/
theorem flow_control (cfg : Config) (hmax : 1 ≤ cfg.maxPendingRequests) (st : Store) {as : List LedgerAct}
    {l : Ledger} (hn : ∀ a ∈ as, a ≠ .conn .reconnect)
    (hr : run (Ledger.step cfg) (Ledger.start st) as = some l) (hup : l.conn.shutdown = false) :
    l.conn.pending.entries.length ≤ cfg.maxPendingRequests ∧
    (l.conn.pending.toList.map Prod.fst).Nodup ∧ (∀ id ∈ l.conn.pending, IsI32 id) ∧
    l.handed.Perm (l.conn.inFlight ++ l.conn.waiting ++ l.conn.msg.held ++ l.settled) ∧
    (∀ id block, l.conn.pending.lookup id = some block →
      ∃ size blockNo, .request id block size blockNo ∈ l.conn.sent) ∧
    (l.conn.msg = .idle → l.conn.deferred ≠ [] → l.conn.pending.entries.length = cfg.maxPendingRequests) ∧
    (∀ later l', (∀ a ∈ later, a.goesOn = true) → run (Ledger.step cfg) l later = some l' →
      l'.conn.shutdown = false → l.conn.work cfg ≤ later.countP LedgerAct.isMsgStep → l'.conn.msg = .idle) ∧
    (cfg.maxPendingRequests ≤ 2 ^ 32 →
      (∀ block size blockNo, (l.conn.submitOrDeferBlock cfg block size blockNo).isSome) ∧
      (l.conn.msg ≠ .idle → (l.conn.msgStep cfg).isSome)) := by
  have hclamp : clampMaxPendingRequests cfg.maxPendingRequests = cfg.maxPendingRequests := max_eq_left hmax
  have hflow : ∀ {as l}, (∀ a ∈ as, a ≠ .conn .reconnect) → run (Ledger.step cfg) (Ledger.start st) as = some l →
      l.conn.shutdown = false → Flow cfg l := by
    intro as l hn hr
    have hmeets : Meets (Ledger.step cfg) (fun _ a => a ≠ .conn .reconnect) (Ledger.start st) as :=
      meets_of_forall fun a ha _ => hn a ha
    exact run_inv (P := fun l => l.conn.shutdown = false → Flow cfg l)
      (fun _ _ _ hi hg hs hup => Flow.step hi hg hs hup) (fun _ => Flow.start st) hmeets hr
  have h : Flow cfg l := hflow hn hr hup
  have hbound := h.bound
  rw [hclamp] at hbound
  have hsubmit : cfg.maxPendingRequests ≤ 2 ^ 32 → ∀ block size blockNo,
      (l.conn.submitOrDeferBlock cfg block size blockNo).isSome := by
    intro hlimit block size blockNo
    unfold Conn.submitOrDeferBlock
    split_ifs with hfull
    · rfl
    · rw [full_iff, hclamp] at hfull
      rw [isSome_map]
      exact nextRequestId_isSome h.next (by omega)
  refine ⟨hbound, Table.nodup_toList_keys _, h.ids, h.blocks, h.requested, fun hidle hne => ?_,
    fun later l' hgoes hlater hup' hsteps => ?_, fun hlimit => ⟨hsubmit hlimit, fun hrun => ?_⟩⟩
  · have hfull := full_iff.1 (h.stall (by rw [hidle]; rfl) hne)
    rw [hclamp] at hfull
    exact le_antisymm hbound hfull
  · have hall : ∀ a ∈ as ++ later, a ≠ .conn .reconnect := by
      intro a ha he
      rcases mem_append.1 ha with ha | ha
      · exact hn a ha he
      · rw [he] at ha
        cases hgoes _ ha
    have hr' : run (Ledger.step cfg) (Ledger.start st) (as ++ later) = some l' := by
      rw [run_append, hr]
      exact hlater
    obtain ⟨-, hwork⟩ := run_work hgoes hlater hup'
    have hdone : l'.conn.work cfg ≤ 0 := by omega
    exact idle_of_work (hflow hall hr' hup').live hdone
  · exact msgStep_isSome h.live hrun (hsubmit hlimit)

def narrowConfig : Config := { sampleConfig with maxPendingRequests := 1 }

def oneWaits : List LedgerAct :=
  .conn (.index [twoBlocks] 1) :: List.replicate 8 (.conn .indexStep)

theorem flow_control_oneWaits :
    ∃ l, run (Ledger.step narrowConfig) (Ledger.start Store.empty) oneWaits = some l ∧
      l.conn.deferred ≠ [] ∧ l.handed.length = 2 ∧ l.conn.pending.entries.length = 1 ∧
      l.handed.Perm (l.conn.inFlight ++ l.conn.waiting ++ l.conn.msg.held ++ l.settled) := by
  obtain ⟨l, hr, hwait, hlen, hup, hidle⟩ : ∃ l, run (Ledger.step narrowConfig) (Ledger.start Store.empty)
      oneWaits = some l ∧ l.conn.deferred ≠ [] ∧ l.handed.length = 2 ∧ l.conn.shutdown = false ∧
        l.conn.msg = .idle := by
    decide
  have hn : ∀ a ∈ oneWaits, a ≠ .conn .reconnect := by
    intro a ha heq
    rw [heq] at ha
    simp [oneWaits] at ha
  obtain ⟨-, -, -, hblocks, -, hstall, -⟩ := flow_control narrowConfig (le_refl 1) Store.empty hn hr hup
  exact ⟨l, hr, hwait, hlen, hstall hidle hwait, hblocks⟩

end Bepository.Sync
