import Bepository.Sync.Outbox
import Bepository.Sync.Retry

/-!
# Announcing what was committed

Between a commit and its `IndexUpdate` the other loop can commit and announce, so that the numbers are out of
order.  The commits of `resolve_conflict` are never announced, nor is a commit that reports an error after its
effect, since the next attempt finds nothing to do; and a metadata-only update is announced with the type that
the peer gave it.  Apart from these, the announcements are in order, without gaps, and as stored.
-/

namespace Bepository.Sync

open Lib Storage List Option

/-! ### Sessions -/

def SessionAct.speaker : SessionAct → Option Speaker
  | .act .indexStep => some .index
  | .act .msgStep => some .msg
  | _ => none

namespace Session

/-- The step commits something of which nothing is said: a file of a conflict, or in a call that reports an
error after its effect. -/
def conceals (s : Session) : SessionAct → Bool
  | .act .indexStep => s.conn.index.resolves
  | .retryIndex true => s.conn.index.commits || s.conn.index.resolves
  | .retryMsg true => s.conn.msg.commits
  | _ => false

/-- The loop stops between a commit and its `IndexUpdate`. -/
def drops (s : Session) : SessionAct → Bool
  | .act .failIndex => s.conn.index.unsent.isSome
  | .act .failMsg => s.conn.msg.unsent.isSome
  | _ => false

/-- A metadata-only update of a file with a type that is stored as another. -/
def retypes (s : Session) : SessionAct → Bool
  | .act .indexStep => s.conn.index.retypes
  | _ => false

def serial (s : Session) : SessionAct → Bool
  | .act .indexStep => !s.conn.index.commits || s.conn.msg.unsent.isNone
  | .act .msgStep => !s.conn.msg.commits || s.conn.index.unsent.isNone
  | _ => true

def halted (s : Session) : Bool := s.conn.index = .stopped || s.conn.msg = .stopped

structure Shaped (s : Session) : Prop where
  index : s.conn.index.Plain
  msg : s.conn.msg.Plain
  resolving : s.resolving.unsent = none ∧ s.resolving.Plain

inductive Says (epoch : Epoch) (s s' : Session) (a : SessionAct) : Prop
  | stay (speaks : s.conn.Speaks s'.conn .stay)
  | commit {i : Speaker} (speaks : s.conn.Speaks s'.conn (.commit i)) (speaker : a.speaker = some i)
      (commits : s.conn.commits i = true)
  | inexact {i : Speaker} (speaks : s.conn.Speaks s'.conn (.inexact i)) (speaker : a.speaker = some i)
      (commits : s.conn.commits i = true) (retypes : s.retypes a = true)
  | send {i : Speaker} (speaks : s.conn.Speaks s'.conn (.send i))
  | conceal (speaks : s.conn.Speaks s'.conn .lose) (conceals : s.conceals a = true)
  | drop (speaks : s.conn.Speaks s'.conn .lose) (drops : s.drops a = true) (halted : s'.halted = true)
  | spoil (speaks : s.conn.Speaks s'.conn .lose) (spoilt : Spoilt epoch s.conn.store.db)
      (halted : s'.halted = true)

end Session

section Session

variable {cfg : Config} {s s' : Session} {a : SessionAct}

lemma restart_unsent {resolving pc pc' : IndexPc} {broken : Bool}
    (hres : resolving.unsent = none ∧ resolving.Plain) (h : IndexPc.restart resolving broken pc = some pc') :
    pc.unsent = none ∧ pc'.unsent = none ∧ pc'.Plain := by
  unfold IndexPc.restart at h
  split at h
  · cases h
    exact ⟨rfl, rfl, trivial⟩
  · cases h
    exact ⟨rfl, rfl, trivial⟩
  · cases h
    exact ⟨rfl, hres⟩
  · cases h
    exact ⟨rfl, hres⟩
  · split_ifs at h
    cases h
    exact ⟨rfl, rfl, trivial⟩
  · cases h
    exact ⟨rfl, rfl, trivial⟩
  · cases h
    exact ⟨rfl, rfl, trivial⟩
  · cases h

variable {c : Conn} {epoch : Epoch}

lemma Session.indexStep_said (hshape : s.Shaped) (h : s.indexStep cfg = some c) :
    s.conn.Says cfg.epoch c .index ∧ c.index.Plain ∧ c.msg = s.conn.msg := by
  obtain ⟨seen, left, c₁, hc, rfl, -⟩ := Session.indexStep_eq_some h
  obtain ⟨hplain, hmsg⟩ := indexStep_plain (c := { s.conn with shutdown := seen }) hshape.index hc
  refine ⟨?_, hplain, hmsg⟩
  cases Sync.indexStep_said (c := { s.conn with shutdown := seen }) hshape.index hc with
  | stay hs => exact .stay hs
  | commit hs h₁ => exact .commit hs h₁
  | inexact hs h₁ h₂ => exact .inexact hs h₁ h₂
  | send hs h₁ => exact .send hs h₁
  | resolve hs h₁ => exact .resolve hs h₁
  | spoil hs h₁ h₂ => exact .spoil hs h₁ h₂

lemma Conn.Says.late {c c₁ : Conn} {i : Speaker} (h : c.Says epoch c₁ i) (c' : Conn)
    (hstop : c₁.stopped i = false) (hfree : c.unsent i = none) (hstore : c'.store = c₁.store)
    (hunsent : c'.unsent = c.unsent) (hsent : c'.updates = c.updates) :
    c.Speaks c' .stay ∨ c.Speaks c' .lose ∧ (c.commits i = true ∨ c.resolves i = true) := by
  have hlast : c'.outbox.last = c₁.outbox.last := by
    show maxSeq c'.store.db = maxSeq c₁.store.db
    rw [hstore]
  have hentries : c'.outbox.entries = c₁.outbox.entries := by
    show c'.indexed = c₁.indexed
    unfold Conn.indexed
    rw [hstore]
  have hlose : c.outbox.last ≤ c₁.outbox.last → c.Speaks c' .lose := fun hle =>
    Outbox.Moves.lose (hlast ▸ hle) (fun j => .inl (congrFun hunsent j)) hsent
  cases h with
  | stay hs =>
    cases hs with
    | stay h₁ h₂ => exact .inl (Outbox.Moves.stay (hlast.trans h₁) (hentries.trans h₂) hunsent hsent)
  | commit hs hc =>
    cases hs with
    | commit _ _ h₁ => exact .inr ⟨hlose (by rw [h₁]; omega), .inl hc⟩
  | inexact hs hc =>
    cases hs with
    | inexact _ _ h₁ => exact .inr ⟨hlose (by rw [h₁]; omega), .inl hc⟩
  | send _ hhas =>
    rw [hfree] at hhas
    cases hhas
  | resolve hs hr =>
    cases hs with
    | lose h₁ => exact .inr ⟨hlose h₁, .inr hr⟩
  | spoil _ _ hstopped =>
    rw [hstop] at hstopped
    cases hstopped

lemma unsent_restart {pc : IndexPc} (hbefore : s.conn.index.unsent = none) (hafter : pc.unsent = none)
    (hindex : c.index = pc) (hmsg : c.msg = s.conn.msg) : c.unsent = s.conn.unsent := by
  funext speaker
  cases speaker with
  | index => rw [Conn.unsent, Conn.unsent, hindex, hafter, hbefore]
  | msg => rw [Conn.unsent, Conn.unsent, hmsg]

lemma plain_said {a : Act} (hshape : s.Shaped) (hs : s.conn.step cfg a = some c) (hindex : a ≠ .indexStep)
    (hresolve : ∀ w p, a ≠ .resolve w p) (hreconnect : a ≠ .reconnect) :
    Session.Shaped { s with conn := c } ∧ s.Says cfg.epoch { s with conn := c } (.act a) := by
  cases a with
  | indexStep => exact absurd rfl hindex
  | resolve w p => exact absurd rfl (hresolve w p)
  | reconnect => exact absurd rfl hreconnect
  | msgStep =>
    obtain ⟨hplain, hindex⟩ := msgStep_plain hshape.msg hs
    refine ⟨⟨hindex ▸ hshape.index, hplain, hshape.resolving⟩, ?_⟩
    cases msgStep_said hshape.msg hs with
    | stay hs => exact .stay hs
    | commit hs h₁ => exact .commit hs rfl h₁
    | inexact _ _ h₁ | resolve _ h₁ => cases h₁
    | send hs => exact .send hs
    | spoil hs h₁ h₂ => exact .spoil hs h₁ (Bool.or_eq_true_iff.2 (.inr h₂))
  | index =>
    rw [Conn.step] at hs
    split at hs
    · next hpc =>
      cases hs
      have hi : s.conn.index.unsent = none := by rw [hpc]; rfl
      exact ⟨⟨trivial, hshape.msg, hshape.resolving⟩, .stay (.stay .refl rfl hi.symm rfl)⟩
    · cases hs
  | response id code data =>
    rw [Conn.step] at hs
    split at hs
    · next hpc =>
      cases hs
      have hm : s.conn.msg.unsent = none := by rw [hpc]; rfl
      obtain ⟨hindex, hplain⟩ := response_plain s.conn id code data
      refine ⟨⟨?_, hplain, hshape.resolving⟩, .stay (response_speaks hm)⟩
      show (s.conn.response id code data).index.Plain
      rw [hindex]
      exact hshape.index
    · cases hs
  | shutdown =>
    cases hs
    exact ⟨⟨hshape.index, hshape.msg, hshape.resolving⟩, .stay (.stay .refl rfl rfl rfl)⟩
  | failIndex =>
    cases hs
    refine ⟨⟨trivial, hshape.msg, hshape.resolving⟩, ?_⟩
    cases hi : s.conn.index.unsent with
    | none => exact .stay (.stay .refl rfl hi.symm rfl)
    | some =>
      exact .drop (.lose le_rfl rfl (.inr rfl) (.inl rfl)) (by rw [Session.drops, hi]; rfl) rfl
  | failMsg =>
    cases hs
    refine ⟨⟨hshape.index, trivial, hshape.resolving⟩, ?_⟩
    cases hm : s.conn.msg.unsent with
    | none => exact .stay (.stay .refl rfl rfl hm.symm)
    | some =>
      refine .drop (.lose le_rfl rfl (.inl rfl) (.inr rfl)) (by rw [Session.drops, hm]; rfl) ?_
      exact Bool.or_eq_true_iff.2 (.inr rfl)

theorem session_said (hshape : s.Shaped) (hone : a ≠ .act .reconnect) (hs : s.step cfg a = some s') :
    s'.Shaped ∧ s.Says cfg.epoch s' a := by
  cases Session.step_takes hs with
  | index hc heq =>
    subst heq
    obtain ⟨hsaid, hplain, hmsg⟩ := Session.indexStep_said hshape hc
    refine ⟨⟨hplain, hmsg ▸ hshape.msg, hshape.resolving⟩, ?_⟩
    cases hsaid with
    | stay hs => exact .stay hs
    | commit hs h₁ => exact .commit hs rfl h₁
    | inexact hs h₁ h₂ => exact .inexact hs rfl h₁ h₂
    | send hs => exact .send hs
    | resolve hs h₁ => exact .conceal hs h₁
    | spoil hs h₁ h₂ => exact .spoil hs h₁ (Bool.or_eq_true_iff.2 (.inl h₂))
  | @resolve remoteWins loserPath c hc heq =>
    subst heq
    unfold Conn.resolve at hc
    split at hc
    · next localFile remote todo needed hpc =>
      have hi : s.conn.index.unsent = none := by rw [hpc]; rfl
      cases loserPath <;> cases hc <;>
        exact ⟨⟨trivial, hshape.msg, rfl, trivial⟩, .stay (.stay .refl rfl hi.symm rfl)⟩
    · cases hc
  | reconnect => exact absurd rfl hone
  | plain hc heq h₁ h₂ h₃ =>
    subst heq
    exact plain_said hshape hc h₁ h₂ h₃
  | @early pc hpc heq =>
    subst heq
    obtain ⟨hbefore, hafter, hplain⟩ := restart_unsent hshape.resolving hpc
    exact ⟨⟨hplain, hshape.msg, hshape.resolving⟩, .stay (.stay .refl rfl (hafter.trans hbefore.symm) rfl)⟩
  | @late c pc hc hup hpc heq =>
    subst heq
    obtain ⟨hbefore, hafter, hplain⟩ := restart_unsent hshape.resolving hpc
    refine ⟨⟨hplain, hshape.msg, hshape.resolving⟩, ?_⟩
    rcases (Session.indexStep_said hshape hc).1.late { s.conn with store := c.store, index := pc }
      (decide_eq_false hup) hbefore rfl (unsent_restart hbefore hafter rfl rfl) rfl with hstay | ⟨hlose, hc⟩
    · exact .stay hstay
    · exact .conceal hlose (Bool.or_eq_true_iff.2 hc)
  | msgEarly _ heq =>
    subst heq
    exact ⟨hshape, .stay (.stay .refl rfl rfl rfl)⟩
  | @msgLate c hcalls hc hup heq =>
    subst heq
    have hfree : s.conn.unsent .msg = none := by
      rw [Conn.unsent]
      cases hpc : s.conn.msg with
      | notify => rw [hpc] at hcalls; cases hcalls
      | _ => rfl
    refine ⟨⟨hshape.index, hshape.msg, hshape.resolving⟩, ?_⟩
    rcases (msgStep_said hshape.msg hc).late { s.conn with store := c.store } (decide_eq_false hup) hfree
      rfl rfl rfl with hstay | ⟨hlose, hcommits | hno⟩
    · exact .stay hstay
    · exact .conceal hlose hcommits
    · cases hno

lemma unsent_of_commits {i : Speaker} (h : c.commits i = true) : c.unsent i = none := by
  cases i with
  | index =>
    rw [Conn.commits] at h
    rw [Conn.unsent]
    cases hpc : c.index with
    | notify => rw [hpc] at h; cases h
    | _ => rfl
  | msg =>
    rw [Conn.commits] at h
    rw [Conn.unsent]
    cases hpc : c.msg with
    | notify => rw [hpc] at h; cases h
    | _ => rfl

lemma unsent_of_serial {i j : Speaker} (hserial : s.serial a = true) (hspeaker : a.speaker = some i)
    (hcommits : s.conn.commits i = true) : s.conn.unsent j = none := by
  by_cases hij : j = i
  · rw [hij]
    exact unsent_of_commits hcommits
  · unfold SessionAct.speaker at hspeaker
    split at hspeaker
    · cases hspeaker
      cases j with
      | index => exact absurd rfl hij
      | msg =>
        have hc : s.conn.index.commits = true := hcommits
        rw [Session.serial, hc, Bool.not_true, Bool.false_or, isNone_iff_eq_none] at hserial
        exact hserial
    · cases hspeaker
      cases j with
      | index =>
        have hc : s.conn.msg.commits = true := hcommits
        rw [Session.serial, hc, Bool.not_true, Bool.false_or, isNone_iff_eq_none] at hserial
        exact hserial
      | msg => exact absurd rfl hij
    · cases hspeaker

lemma halted_step (hshape : s.Shaped) (hone : a ≠ .act .reconnect) (hs : s.step cfg a = some s')
    (h : s.halted = true) : s'.halted = true := by
  simp only [Session.halted, Bool.or_eq_true, decide_eq_true_eq] at h ⊢
  have hindex : ∀ {c}, s.indexStep cfg = some c → s.conn.index ≠ .stopped := by
    intro c hc hi
    obtain ⟨seen, left, c₁, hc, -⟩ := Session.indexStep_eq_some hc
    simp [Conn.indexStep, hi] at hc
  cases Session.step_takes hs with
  | index hc heq =>
    subst heq
    exact .inr ((Session.indexStep_said hshape hc).2.2.trans (h.resolve_left (hindex hc)))
  | @resolve remoteWins loserPath c hc heq =>
    subst heq
    unfold Conn.resolve at hc
    split at hc
    · next hpc =>
      rw [hpc] at h
      have hm := h.resolve_left (by rintro ⟨⟩)
      cases loserPath <;> cases hc <;> exact .inr hm
    · cases hc
  | reconnect => exact absurd rfl hone
  | @plain a c hc heq h₁ h₂ h₃ =>
    subst heq
    cases a with
    | indexStep => exact absurd rfl h₁
    | resolve w p => exact absurd rfl (h₂ w p)
    | reconnect => exact absurd rfl h₃
    | msgStep =>
      rcases h with h | hm
      · exact .inl ((msgStep_plain hshape.msg hc).2.trans h)
      · simp [Conn.step, Conn.msgStep, hm] at hc
    | index =>
      rw [Conn.step] at hc
      split at hc
      · next hpc =>
        cases hc
        rw [hpc] at h
        exact .inr (h.resolve_left (by rintro ⟨⟩))
      · cases hc
    | response id code data =>
      rw [Conn.step] at hc
      split at hc
      · next hpc =>
        cases hc
        rw [hpc] at h
        exact .inl ((response_plain s.conn id code data).1.trans (h.resolve_right (by rintro ⟨⟩)))
      · cases hc
    | shutdown =>
      cases hc
      exact h
    | failIndex =>
      cases hc
      exact .inl rfl
    | failMsg =>
      cases hc
      exact .inr rfl
  | early hpc heq =>
    subst heq
    refine .inr (h.resolve_left fun hi => ?_)
    rw [hi] at hpc
    cases hpc
  | late hc _ _ heq =>
    subst heq
    exact .inr (h.resolve_left (hindex hc))
  | msgEarly _ heq | msgLate _ _ _ heq =>
    subst heq
    exact h

def TypedEntries (db : Db) : Prop := ∀ k fi, k.holdsFile = true → entryAt db k = some fi → fi.Typed

lemma TypedEntries.not_spoilt {db : Db} (h : TypedEntries db) : ¬ Spoilt epoch db := by
  rintro ⟨name, staged, hst, hno⟩
  exact hno (h _ _ rfl hst)

lemma TypedEntries.replaced {db db' : Db} {name : Str} {stored : StoredFile} {gone : Key → Prop}
    (h : TypedEntries db) (hrep : Replaced db db' name stored gone) (ht : stored.Typed) : TypedEntries db' := by
  intro k fi hk hfi
  obtain ⟨q, hq⟩ := hrep
  obtain ⟨hnew, hgone, hother⟩ := hq k hk
  by_cases hname : k = fileKey name
  · rw [hnew hname] at hfi
    cases hfi
    exact typed_withPointers ht
  · by_cases hg : gone k
    · rw [hgone hname hg] at hfi
      cases hfi
    · rw [hother hname hg] at hfi
      exact h k fi hk hfi

lemma TypedEntries.moves {c c' : Conn} {d : Doing} (h : TypedEntries c.store.db)
    (hm : Moves epoch c c' d) : TypedEntries c'.store.db := by
  have hsame : SameEntries c.store.db c'.store.db → TypedEntries c'.store.db := by
    intro hs k fi hk hfi
    rw [hs k hk] at hfi
    exact h k fi hk hfi
  cases hm with
  | same hs | check hs | leave hs | settled hs | ending hs | reconnect hs => exact hsame hs
  | provide hp =>
    intro k fi hk hfi
    obtain ⟨seq, data, -, rfl⟩ := hp.pointed
    rw [hp.entries k hk] at hfi
    split_ifs at hfi with hkey
    · cases hfi
      rw [hkey] at hk
      have ht := h _ _ hk hp.entry
      exact ht
    · exact h k fi hk hfi
  | stage hdb =>
    intro k fi hk hfi
    rw [hdb, stageFile_entries] at hfi
    split_ifs at hfi
    · cases hfi
      exact FileInfo.typed_toStored _
    · exact h k fi hk hfi
  | commit hrep | winner hrep => exact h.replaced hrep (FileInfo.typed_toStored _)
  | copy hrep => exact h.replaced hrep (typed_withPointers (FileInfo.typed_toStored _))
  | complete hentry _ _ hrep => exact h.replaced hrep (h _ _ rfl hentry)

lemma Session.indexStep_typed (h : TypedEntries s.conn.store.db) (hc : s.indexStep cfg = some c) :
    TypedEntries c.store.db := by
  obtain ⟨seen, left, c₁, hc₁, rfl, -⟩ := Session.indexStep_eq_some hc
  have ht := TypedEntries.moves (c := { s.conn with shutdown := seen }) h (indexStep_moves hc₁)
  exact ht

lemma typed_step (h : TypedEntries s.conn.store.db) (hs : s.step cfg a = some s') :
    TypedEntries s'.conn.store.db := by
  cases Session.step_takes hs with
  | index hc heq =>
    subst heq
    exact Session.indexStep_typed h hc
  | @resolve remoteWins loserPath c hc heq =>
    subst heq
    have hc' : s.conn.step cfg (.resolve remoteWins loserPath) = some c := hc
    exact h.moves (step_moves hc')
  | reconnect heq | early _ heq | msgEarly _ heq =>
    subst heq
    exact h
  | plain hc heq =>
    subst heq
    exact h.moves (step_moves hc)
  | late hc _ _ heq =>
    subst heq
    have ht := Session.indexStep_typed h hc
    exact ht
  | @msgLate c _ hc _ heq =>
    subst heq
    have hc' : s.conn.step cfg .msgStep = some c := hc
    have ht := h.moves (step_moves hc')
    exact ht

end Session

/-! ### In order -/

section Order

variable {cfg : Config} {st : Store} {acts : List SessionAct} {s : Session}

lemma shaped_connect : (Session.connect st).Shaped := ⟨trivial, trivial, rfl, trivial⟩

lemma inOrder_step {s s' : Session} {a : SessionAct} (h : s.Shaped ∧ Outbox.InOrder FileInfo.sequence s.conn.outbox)
    (hg : a ≠ .act .reconnect ∧ s.serial a = true) (hs : s.step cfg a = some s') :
    s'.Shaped ∧ Outbox.InOrder FileInfo.sequence s'.conn.outbox := by
  obtain ⟨hshape, hsaid⟩ := session_said h.1 hg.1 hs
  refine ⟨hshape, ?_⟩
  cases hsaid with
  | stay hm | send hm | conceal hm | drop hm | spoil hm => exact h.2.step hm (by rintro _ ⟨⟩)
  | @commit i hm hspeaker hcommits | @inexact i hm hspeaker hcommits =>
    refine h.2.step hm fun i' hi j => ?_
    exact unsent_of_serial hg.2 hspeaker hcommits

lemma gapless_step {first : ℤ} {s s' : Session} {a : SessionAct}
    (h : s.Shaped ∧ TypedEntries s.conn.store.db ∧ Outbox.Gapless FileInfo.sequence first s.conn.outbox)
    (hg : a ≠ .act .reconnect ∧ s.conceals a = false ∧ s.drops a = false) (hs : s.step cfg a = some s') :
    s'.Shaped ∧ TypedEntries s'.conn.store.db ∧ Outbox.Gapless FileInfo.sequence first s'.conn.outbox := by
  obtain ⟨hshape, hsaid⟩ := session_said h.1 hg.1 hs
  refine ⟨hshape, typed_step h.2.1 hs, ?_⟩
  cases hsaid with
  | stay hm | commit hm | inexact hm | send hm => exact h.2.2.step hm (by rintro ⟨⟩)
  | conceal _ hno =>
    rw [hg.2.1] at hno
    cases hno
  | drop _ hno =>
    rw [hg.2.2] at hno
    cases hno
  | spoil _ hno => exact absurd hno h.2.1.not_spoilt

/-- **Announcements are in order.**  In every run of one connection in which a loop commits only while the
other has no `IndexUpdate` left to queue, the `last_sequence` values are strictly increasing.  If moreover no
conflict is resolved, no commit reports an error after its effect, and no loop stops between a commit and its
`IndexUpdate`, none of them passes a commit that was not announced. -/
theorem announcements_ordered (hone : ∀ a ∈ acts, a ≠ .act .reconnect)
    (hserial : Meets (Session.step cfg) (fun s a => s.serial a = true) (Session.connect st) acts)
    (hrun : run (Session.step cfg) (Session.connect st) acts = some s) :
    s.conn.lastSequences.Pairwise (· < ·) ∧
      (TypedEntries st.db → Meets (Session.step cfg) (fun s a => s.conceals a = false ∧ s.drops a = false)
          (Session.connect st) acts →
        ∀ n ∈ s.conn.lastSequences, ∀ q, maxSeq st.db < q → q < n → q ∈ s.conn.lastSequences) := by
  have hone' : Meets (Session.step cfg) (fun _ a => a ≠ .act .reconnect) (Session.connect st) acts :=
    meets_of_forall fun a ha _ => hone a ha
  have hstart : Outbox.InOrder FileInfo.sequence (Session.connect st).conn.outbox :=
    ⟨List.Pairwise.nil, by rintro _ ⟨⟩, by rintro (_ | _) _ ⟨⟩, by rintro (_ | _) _ ⟨⟩,
      by rintro (_ | _) _ _ _ ⟨⟩⟩
  obtain ⟨-, horder⟩ := run_inv (fun _ _ _ h hg hs => inOrder_step h hg hs) ⟨shaped_connect, hstart⟩
    (hone'.and hserial) hrun
  refine ⟨pairwise_map.2 horder.sent, fun htyped hwhole n hn q hq hlt => ?_⟩
  have hfirst : Outbox.Gapless FileInfo.sequence (maxSeq st.db) (Session.connect st).conn.outbox :=
    fun q hq hle => absurd hle (not_le.2 hq)
  obtain ⟨-, -, hgapless⟩ := run_inv (fun _ _ _ h hg hs => gapless_step h hg hs)
    ⟨shaped_connect, htyped, hfirst⟩ (hone'.and hwhole) hrun
  obtain ⟨w, hw, rfl⟩ := List.mem_map.1 hn
  obtain ⟨w', hw', rfl⟩ := hgapless.sent_before horder hw hq hlt
  exact List.mem_map.2 ⟨w', hw', rfl⟩

end Order

def oneBlock : WireFile := ⟨['f'], 1, some ⟨[⟨1, 1⟩]⟩, 1, [blockOf 0 0], 0, false⟩

def noBlocks : WireFile := ⟨['g'], 0, some ⟨[⟨1, 1⟩]⟩, 2, [], 0, false⟩

/-- The block of the first file arrives, and the message loop commits the file. -/
def firstCommitted : List SessionAct :=
  .act (.index [oneBlock] 1) :: List.replicate 9 (.act .indexStep) ++
    .act (.response 0 0 [7]) :: List.replicate 4 (.act .msgStep)

/-- Before it queues the announcement, the index loop commits and announces the second file. -/
def overtaken : List SessionAct :=
  firstCommitted ++ .act (.index [noBlocks] 2) :: List.replicate 7 (.act .indexStep) ++ [.act .msgStep]

theorem announcements_disordered :
    ∃ s, run (Session.step sampleConfig) (Session.connect Store.empty) overtaken = some s ∧
      (∀ a ∈ overtaken, a ≠ .act .reconnect) ∧ s.conn.lastSequences = [2, 1] ∧
      ¬ s.conn.lastSequences.Pairwise (· < ·) := by
  decide

def inTurn : List SessionAct :=
  firstCommitted ++ .act .msgStep :: .act (.index [noBlocks] 2) :: List.replicate 7 (.act .indexStep)

theorem announcements_ordered_inTurn :
    ∃ s, run (Session.step sampleConfig) (Session.connect Store.empty) inTurn = some s ∧
      s.conn.lastSequences = [1, 2] ∧ s.conn.lastSequences.Pairwise (· < ·) ∧
      ∀ n ∈ s.conn.lastSequences, ∀ q, 0 < q → q < n → q ∈ s.conn.lastSequences := by
  obtain ⟨s, hs, ho⟩ : ∃ s, run (Session.step sampleConfig) (Session.connect Store.empty) inTurn = some s ∧
      s.conn.lastSequences = [1, 2] := by decide
  have htyped : TypedEntries Store.empty.db := by
    rintro k fi - ⟨⟩
  obtain ⟨horder, hgaps⟩ := announcements_ordered (by decide) (by decide) hs
  exact ⟨s, hs, ho, horder, hgaps htyped (by decide)⟩

/-! ### As stored -/

section Stored

variable {cfg : Config} {st : Store} {acts : List SessionAct} {s : Session}

lemma getFile_eq_ok_iff {db : Db} {name : Str} {w : WireFile} :
    getFile db name = .ok (some w) ↔ wireAt db (splitName name) = some (.ok w) := by
  unfold getFile
  cases hp : getFileProto db name with
  | error =>
    refine ⟨by rintro ⟨⟩, fun hw => ?_⟩
    obtain ⟨fi, hfi, -⟩ := map_eq_some_iff.1 hw
    simp only [getFileProto, fileKey, entryAt_eq_some.1 hfi, Value.decodeFile] at hp
    cases hp
  | ok found =>
    have hentry : entryAt db (.mn (splitName name)) = found := getFileProto_entryAt hp
    rw [wireAt, hentry]
    cases found with
    | none => exact ⟨by rintro ⟨⟩, by rintro ⟨⟩⟩
    | some fi =>
      rw [map_some]
      show fi.toWire.map some = _ ↔ _
      cases fi.toWire with
      | error => exact ⟨by rintro ⟨⟩, by rintro ⟨⟩⟩
      | ok => simp [Except.map]

lemma told_step {entries₀ : Path → Option WireFile} {s s' : Session} {a : SessionAct}
    (h : s.Shaped ∧ (s.halted = true ∨ Outbox.Told entries₀ s.conn.outbox))
    (hg : a ≠ .act .reconnect ∧ s.conceals a = false ∧ s.retypes a = false) (hs : s.step cfg a = some s') :
    s'.Shaped ∧ (s'.halted = true ∨ Outbox.Told entries₀ s'.conn.outbox) := by
  obtain ⟨hshape, hsaid⟩ := session_said h.1 hg.1 hs
  refine ⟨hshape, ?_⟩
  rcases h.2 with hhalted | htold
  · exact .inl (halted_step h.1 hg.1 hs hhalted)
  · cases hsaid with
    | stay hm | commit hm | send hm => exact .inr (htold.step hm (by rintro ⟨⟩) (by rintro _ ⟨⟩))
    | inexact _ _ _ hno =>
      rw [hg.2.2] at hno
      cases hno
    | conceal _ hno =>
      rw [hg.2.1] at hno
      cases hno
    | drop _ _ hhalted | spoil _ _ hhalted => exact .inl hhalted

/-- **Every commit is announced as stored.**  In every run of one connection in which no conflict is resolved,
no commit reports an error after its effect, and every metadata-only update is of a file with a type that is
stored as it came: when both loops are idle, every file that `index` returns and did not return when the
connection began was sent in an `IndexUpdate`, as it is returned. -/
theorem commits_announced (hone : ∀ a ∈ acts, a ≠ .act .reconnect)
    (hcandid : Meets (Session.step cfg) (fun s a => s.conceals a = false ∧ s.retypes a = false)
      (Session.connect st) acts)
    (hrun : run (Session.step cfg) (Session.connect st) acts = some s) (hindex : s.conn.index = .idle)
    (hmsg : s.conn.msg = .idle) {name : Str} {w : WireFile}
    (hw : getFile s.conn.store.db name = .ok (some w)) (hnew : getFile st.db name ≠ .ok (some w)) :
    Outgoing.indexUpdate w ∈ s.conn.sent := by
  have hone' : Meets (Session.step cfg) (fun _ a => a ≠ .act .reconnect) (Session.connect st) acts :=
    meets_of_forall fun a ha _ => hone a ha
  obtain ⟨-, hhalted | htold⟩ := run_inv
    (P := fun s => s.Shaped ∧ (s.halted = true ∨ Outbox.Told (Session.connect st).conn.indexed s.conn.outbox))
    (fun _ _ _ h hg hs => told_step h hg hs) ⟨shaped_connect, .inr fun k a ha => .inl ha⟩
    (hone'.and hcandid) hrun
  · rw [Session.halted, hindex, hmsg] at hhalted
    cases hhalted
  · have hentry : s.conn.indexed (splitName name) = some w := by
      rw [Conn.indexed, getFile_eq_ok_iff.1 hw]
      rfl
    rcases htold (splitName name) w hentry with h₀ | hsent | ⟨i, hi⟩
    · refine absurd (getFile_eq_ok_iff.2 ?_) hnew
      obtain ⟨x, hx, hw'⟩ := bind_eq_some_iff.1 h₀
      cases x with
      | error => cases hw'
      | ok =>
        cases hw'
        exact hx
    · obtain ⟨o, ho, hupdate⟩ := mem_filterMap.1 hsent
      cases o with
      | request => cases hupdate
      | indexUpdate =>
        cases hupdate
        exact ho
    · cases i with
      | index =>
        have hi' : s.conn.index.unsent = some w := hi
        rw [hindex] at hi'
        cases hi'
      | msg =>
        have hi' : s.conn.msg.unsent = some w := hi
        rw [hmsg] at hi'
        cases hi'

end Stored

/-- A file that was there before, and three that the peer may have: changed on both sides, changed without
its blocks, and with a type of its own. -/
def oldFile : WireFile := ⟨['n'], 0, some ⟨[⟨1, 1⟩]⟩, 1, [], 0, false⟩

def rivalFile : WireFile := ⟨['n'], 0, some ⟨[⟨2, 1⟩]⟩, 1, [], 0, false⟩

def touchedFile : WireFile := ⟨['n'], 0, some ⟨[⟨1, 2⟩]⟩, 1, [], 0, false⟩

def linkFile : WireFile := ⟨['n'], 0, some ⟨[⟨1, 2⟩]⟩, 1, [], 2, false⟩

def oldFolder : Store := { Store.empty with db := (putFile Db.empty oldFile).2 }

/-- The peer's version wins a conflict, and the other is kept as a copy. -/
def rivalWins : List SessionAct :=
  [.act (.index [rivalFile] 1), .act .indexStep, .act .indexStep, .act (.resolve true (some ['c']))] ++
    List.replicate 8 (.act .indexStep)

def linkTouched : List SessionAct := .act (.index [linkFile] 1) :: List.replicate 5 (.act .indexStep)

/-- The commit of a metadata-only update reports an error after its effect. -/
def touchedTwice : List SessionAct :=
  [.act (.index [touchedFile] 1), .act .indexStep, .retryIndex true] ++ List.replicate 4 (.act .indexStep)

/-- The connection is at rest, and what `index` returns for the name is new and was not sent. -/
def Unannounced (st : Store) (acts : List SessionAct) (name : Str) : Prop :=
  ∃ s w, run (Session.step sampleConfig) (Session.connect st) acts = some s ∧
    (∀ a ∈ acts, a ≠ .act .reconnect) ∧ s.conn.index = .idle ∧ s.conn.msg = .idle ∧ s.conn.requested = [] ∧
    getFile s.conn.store.db name = .ok (some w) ∧ getFile st.db name ≠ .ok (some w) ∧
    Outgoing.indexUpdate w ∉ s.conn.sent

lemma unannounced_of_run {st : Store} {acts : List SessionAct} {name : Str} (w : WireFile)
    (hone : ∀ a ∈ acts, a ≠ .act .reconnect) (hnew : getFile st.db name ≠ .ok (some w))
    (hrun : ∃ s, run (Session.step sampleConfig) (Session.connect st) acts = some s ∧ s.conn.index = .idle ∧
      s.conn.msg = .idle ∧ s.conn.requested = [] ∧ getFile s.conn.store.db name = .ok (some w) ∧
      Outgoing.indexUpdate w ∉ s.conn.sent) : Unannounced st acts name := by
  obtain ⟨s, hs, hi, hm, hr, hw, hsent⟩ := hrun
  exact ⟨s, w, hs, hone, hi, hm, hr, hw, hnew, hsent⟩

theorem commits_unannounced :
    Unannounced oldFolder rivalWins ['n'] ∧ Unannounced oldFolder rivalWins ['c'] ∧
      Unannounced oldFolder linkTouched ['n'] ∧ Unannounced oldFolder touchedTwice ['n'] := by
  refine ⟨?_, ?_, ?_, ?_⟩
  · exact unannounced_of_run { rivalFile with sequence := 3 } (by decide) (by decide) (by decide)
  · exact unannounced_of_run { oldFile with name := ['c'], sequence := 2 } (by decide) (by decide) (by decide)
  · exact unannounced_of_run { linkFile with sequence := 2, type := 4 } (by decide) (by decide) (by decide)
  · exact unannounced_of_run { touchedFile with sequence := 2 } (by decide) (by decide) (by decide)

/-- Calls that are made again: a file is staged twice, and its completion is tried twice. -/
def completedAgain : List SessionAct :=
  [.act (.index [noBlocks] 1), .act .indexStep, .retryIndex true] ++ List.replicate 5 (.act .indexStep) ++
    [.retryIndex false] ++ List.replicate 4 (.act .indexStep)

theorem commits_announced_completedAgain :
    ∃ s, run (Session.step sampleConfig) (Session.connect oldFolder) completedAgain = some s ∧
      s.conn.index = .idle ∧ s.conn.msg = .idle ∧
      getFile s.conn.store.db ['g'] = .ok (some { noBlocks with sequence := 2 }) ∧
      Outgoing.indexUpdate { noBlocks with sequence := 2 } ∈ s.conn.sent := by
  obtain ⟨s, hs, hi, hm, hw⟩ : ∃ s,
      run (Session.step sampleConfig) (Session.connect oldFolder) completedAgain = some s ∧ s.conn.index = .idle ∧
      s.conn.msg = .idle ∧ getFile s.conn.store.db ['g'] = .ok (some { noBlocks with sequence := 2 }) := by
    decide
  exact ⟨s, hs, hi, hm, hw, commits_announced (by decide) (by decide) hs hi hm hw
    (by decide)⟩

end Bepository.Sync
