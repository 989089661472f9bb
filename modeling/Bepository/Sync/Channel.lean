import Bepository.Bep.Writing
import Bepository.Lib.Budget
import Bepository.Sync.MessageLoop

/-!
# The byte-budgeted channels of a connection

The loops of a connection queue what they send in one channel to `run_writer_loop`, and the message loop queues every
`Index` in another to `run_index_loop`.  Both are bounded by bytes: `ByteBudgetSender::send` acquires a permit for each
byte of its message before it may enter the queue, and the receiver's loop releases the permits when it has handled the
message.  A message may be greater than the whole budget.

tokio's semaphore is fair: whoever asks for many permits is served before those that ask later, and its channel hands
messages over in the order in which they entered it.
-/

namespace Bepository.Sync

open Lib Relation List

/-- A message, with the number of bytes that `ByteBudgetSender::send` is given for it. -/
structure Packet (τ : Type*) where
  msg : τ
  bytes : ℕ

/-- The permits that `ByteBudgetSender::send` acquires: the bytes as a `u32`, clamped to `[1, max_budget]`. -/
def clamped (maxBudget bytes : ℕ) : ℕ :=
  let n := if bytes < 2 ^ 32 then bytes else 2 ^ 32 - 1
  if n < 1 then 1 else if maxBudget < n then maxBudget else n

def WRITER_BUDGET_BYTES : ℕ := 4 * 1024 * 1024

def INDEX_BUDGET_BYTES : ℕ := 32 * 1024 * 1024

def WRITER_PER_MESSAGE_OVERHEAD : ℕ := 16

/-- What the message loop queues for an `Index` or an `IndexUpdate`; the bytes are those of the frame's body. -/
inductive IndexTaskMessage where
  | index (folder : Str) (files : List WireFile) (lastSequence : ℤ)
  | indexUpdate (folder : Str) (files : List WireFile) (lastSequence : ℤ)

structure OutgoingMessage where
  msgType : ℤ
  payload : Bytes

/-- What `MessageWriter::send` queues. -/
def MessageWriter.packet (m : OutgoingMessage) : Packet OutgoingMessage :=
  ⟨m, m.payload.length + WRITER_PER_MESSAGE_OVERHEAD⟩

/-- What `run_writer_loop` has `write_message` write. -/
def OutgoingMessage.written (m : OutgoingMessage) : Bepository.Outgoing := ⟨⟨m.msgType, 0⟩, m.payload, false⟩

section

variable {ι τ : Type*}

def byteBudgetChannel (maxBudget : ℕ) : Chan ι (Packet τ) := { free := maxBudget }

/-- A step of the channel by itself. -/
abbrev Serves (count maxBudget : ℕ) : Chan ι (Packet τ) → Chan ι (Packet τ) → Prop :=
  Chan.Serves count fun p => clamped maxBudget p.bytes

/-- The channel after any steps of its senders and its receiver. -/
def Reaches (count maxBudget : ℕ) (c : Chan ι (Packet τ)) : Prop :=
  ReflTransGen (Chan.Steps count fun p => clamped maxBudget p.bytes) (byteBudgetChannel maxBudget) c

variable [DecidableEq ι] {count maxBudget : ℕ} {c : Chan ι (Packet τ)}

lemma Reaches.ok (hr : Reaches count maxBudget c) : c.Ok count (fun p => clamped maxBudget p.bytes) maxBudget := by
  refine Chan.Ok.run ⟨?_, ?_, Nat.zero_le _, fun p => ?_, fun i => ?_⟩ hr
  all_goals simp [byteBudgetChannel, Chan.admitted, Chan.total, Chan.log]

lemma clamped_spec (hmax : 0 < maxBudget ∧ maxBudget < 2 ^ 32) (bytes : ℕ) :
    0 < clamped maxBudget bytes ∧ clamped maxBudget bytes ≤ maxBudget ∧
      (bytes ≤ clamped maxBudget bytes ∨ maxBudget < bytes ∧ clamped maxBudget bytes = maxBudget) := by
  simp only [clamped]
  split_ifs <;> omega

omit [DecidableEq ι] in
-- A message greater than the budget takes all permits, so no other message has one.
lemma bytes_of_permits (hmax : 0 < maxBudget ∧ maxBudget < 2 ^ 32) {l : List (ι × Packet τ)}
    (h : (l.map fun e => clamped maxBudget e.2.bytes).sum ≤ maxBudget) :
    (l.map fun e => e.2.bytes).sum ≤ maxBudget ∨ ∃ e, l = [e] ∧ maxBudget < e.2.bytes := by
  suffices hl : (l.map fun e => e.2.bytes).sum ≤ (l.map fun e => clamped maxBudget e.2.bytes).sum ∨
      ∃ e, l = [e] ∧ maxBudget < e.2.bytes from hl.imp_left fun hle => by omega
  induction l with
  | nil => exact .inl (Nat.le_refl _)
  | cons e l ih =>
    simp only [map_cons, sum_cons] at h ⊢
    obtain ⟨hpos, -, hle | ⟨hlt, heq⟩⟩ := clamped_spec hmax e.2.bytes
    · obtain hl | ⟨x, rfl, hx⟩ := ih (by omega)
      · exact .inl (by omega)
      · obtain ⟨-, -, hle' | ⟨-, heq⟩⟩ := clamped_spec hmax x.2.bytes <;> simp at h <;> omega
    · right
      cases l with
      | nil => exact ⟨e, rfl, hlt⟩
      | cons x =>
        have hx := (clamped_spec hmax x.2.bytes).1
        simp only [map_cons, sum_cons] at h
        omega

/-- **Memory is bounded by the budget.**  However the tasks of a connection send through a channel, receive from it, are
cancelled or go away, the messages that hold permits have at most `max_budget` bytes together, unless it is a
single message that is greater than the budget; and at most `count` of them are queued. -/
theorem channel_within_budget (hmax : 0 < maxBudget ∧ maxBudget < 2 ^ 32) (hr : Reaches count maxBudget c) :
    c.queue.length ≤ count ∧
    ((c.admitted.map fun e => e.2.bytes).sum ≤ maxBudget ∨ ∃ e, c.admitted = [e] ∧ maxBudget < e.2.bytes) := by
  have hbal := hr.ok.balance
  exact ⟨hr.ok.room, bytes_of_permits hmax (by simp only [Chan.total] at hbal; omega)⟩

/-- **Nothing is lost, doubled or stuck.**  The messages of a task are handled in the order in which it sent them.  While
the receiver is there, the channel's own steps come to an end, and only when every message is handled that was
not dropped with its sender. -/
theorem channel_delivers (hmax : 0 < maxBudget ∧ maxBudget < 2 ^ 32) (hcount : 0 < count) (hr : Reaches count maxBudget c) :
    (∀ i, (Chan.ofSender i c.handled).Sublist (Chan.ofSender i c.asked)) ∧
    (∀ c', Serves count maxBudget c c' → c'.work < c.work) ∧
    (c.isOpen → (∀ c', ¬Serves count maxBudget c c') → c.asked.Perm (c.handled ++ c.dropped) ∧
      (c.dropped = [] → ∀ i, Chan.ofSender i c.handled = Chan.ofSender i c.asked)) := by
  refine ⟨fun i => ?_, fun c' hs => ?_, fun ho hrest => ?_⟩
  · exact .trans (.filter _ (sublist_append_left ..)) (hr.ok.inOrder i)
  · have hwork := Chan.work_serves hs
    omega
  · exact hr.ok.serves hcount (fun m => (clamped_spec hmax m.bytes).2.1) ho hrest

/-! ### From one device to the other -/

section Wire

variable {codec : Codec} {enc : Encoder} {hello : HelloCodec} {c : Chan ι (Packet OutgoingMessage)}

lemma exists_frames (hi : Inverse codec enc hello) {ms : List Bepository.Outgoing} {ws : List Bytes}
    (hw : ms.mapM (writeMessage enc) = .ok ws) (hms : ∀ m ∈ ms, m.Plain ∧ m.Readable enc) :
    ∃ frames : List (Frame codec), wireOf frames = ws.flatten ∧
      frames.map Frame.message = ms.map fun m => ⟨m.headerToWrite, m.body⟩ := by
  replace hw := mapM_eq_ok.1 hw
  induction hw with
  | nil => exact ⟨[], rfl, rfl⟩
  | @cons m w ms ws hm _ ih =>
    obtain ⟨hp, hr⟩ := hms m (by simp)
    obtain ⟨hlt, -, hbody, rfl⟩ := writeMessage_eq_ok.1 hm
    have hdecode : decodeBody codec m.headerToWrite (m.payload enc) = .ok m.body := by
      rw [decodeBody_payload hi hp hbody, if_neg]
      intro h
      exact absurd h.2 (Nat.not_lt_of_le (hr.2 h.1))
    obtain ⟨frames, hwire, hmsg⟩ := ih fun x hx => hms x (by simp [hx])
    refine ⟨⟨enc.header m.headerToWrite, m.payload enc, ⟨m.headerToWrite, m.body⟩, hlt, hr.1,
      hi.header _ (Outgoing.headerToWrite_fits hp), hdecode⟩ :: frames, ?_, by simp [hmsg]⟩
    simp only [wireOf, flatMap_cons, flatten_cons] at hwire ⊢
    rw [hwire]
    rfl

/-- **From task to handler.**  One device has written messages from its channel, the other has got some of these bytes,
in any pieces, with its ticks between frames.  Then it has dispatched the first messages that were written, those of
each task in the order in which the task sent them, and all of them once it has read all bytes. -/
theorem sent_dispatched (hi : Inverse codec enc hello) (hc : Reaches count maxBudget c) {ws : List Bytes}
    (hw : ((c.handled ++ c.current.toList).map fun e => e.2.msg.written).mapM (writeMessage enc) = .ok ws)
    (hlim : ∀ e ∈ c.handled ++ c.current.toList, e.2.msg.written.Plain ∧ e.2.msg.written.Readable enc)
    {acts : List LoopAct} {s : MessageLoop}
    (hm : Meets (MessageLoop.step codec) (fun s a => s.betweenFrames a = true) (.start codec) acts)
    (hr : run (MessageLoop.step codec) (.start codec) acts = some s) (harr : s.arrived <+: ws.flatten) :
    ∃ l, l <+: c.handled ++ c.current.toList ∧
      s.dispatched = (l.map fun e => ⟨e.2.msg.written.header, e.2.msg.payload⟩) ∧
      (∀ i, (Chan.ofSender i l).Sublist (Chan.ofSender i c.asked)) ∧
      (s.ended = none → s.input = [] → s.arrived = ws.flatten → l = c.handled ++ c.current.toList) := by
  obtain ⟨frames, hwire, hmsg⟩ := exists_frames hi hw (forall_mem_map.2 hlim)
  obtain ⟨rest, hrest⟩ := harr
  obtain ⟨before, after, rfl, hal⟩ := run_inStep hm hr frames rest (hrest.trans hwire.symm)
  have hbefore : before.map Frame.message =
      ((c.handled ++ c.current.toList).take before.length).map fun e => ⟨e.2.msg.written.header, e.2.msg.payload⟩ := by
    have htake := congrArg (List.take before.length) hmsg
    rw [map_append, take_left' (by simp)] at htake
    rw [htake, List.map_map, map_take]
    rfl
  refine ⟨_, take_prefix before.length _, hal.dispatched.trans hbefore, fun i => ?_, fun hup hinput hall => ?_⟩
  · have hlog : ((c.handled ++ c.current.toList).take before.length).Sublist c.log := by
      refine (take_sublist ..).trans ?_
      simp [Chan.log, Chan.admitted]
    exact (hlog.filter _).trans (hc.ok.inOrder i)
  · have hnil : rest = [] := by simpa [hall] using hrest
    subst hnil
    have hlen := congrArg List.length hmsg
    rw [hal.nothing_left hup hinput, append_nil, length_map, length_map, length_map] at hlen
    exact take_of_length_le (Nat.le_of_eq hlen.symm)

end Wire

end

/-! ### Three tasks at one channel -/

def ping : OutgoingMessage := ⟨6, []⟩

def firstPing : ℕ × Packet OutgoingMessage := (0, MessageWriter.packet ping)

def firstReply : ℕ × Packet OutgoingMessage := (0, MessageWriter.packet ⟨4, [16, 1]⟩)

def thirdPing : ℕ × Packet OutgoingMessage := (2, MessageWriter.packet ping)

section Crowd

variable (p : Packet OutgoingMessage)

/-- A ping is queued; the second task waits with another message, and the third one and the first one behind it. -/
def crowded : Chan ℕ (Packet OutgoingMessage) :=
  { free := WRITER_BUDGET_BYTES - 16, waiting := [(1, p), thirdPing, firstReply], queue := [firstPing],
    asked := [firstPing, (1, p), thirdPing, firstReply] }

/-- The ping is handled and the message of the second task is queued. -/
def relieved : Chan ℕ (Packet OutgoingMessage) :=
  { free := WRITER_BUDGET_BYTES - clamped WRITER_BUDGET_BYTES p.bytes, waiting := [thirdPing, firstReply],
    queue := [(1, p)], asked := [firstPing, (1, p), thirdPing, firstReply], handled := [firstPing] }

lemma reaches_crowded : Reaches 4096 WRITER_BUDGET_BYTES (crowded p) := by
  have h : Reaches 4096 WRITER_BUDGET_BYTES _ :=
    .tail (.tail (.tail .refl (.ask (e := firstPing) (by simp [byteBudgetChannel])))
      (.serve (.grant rfl (by decide)))) (.serve (@Chan.Serves.push _ _ _ _ _ _ [] [] rfl (by decide) rfl))
  exact .tail (.tail (.tail h (.ask (e := (1, p)) (by simp))) (.ask (e := thirdPing) (by simp [thirdPing])))
    (.ask (e := firstReply) (by simp [thirdPing, firstReply]))

lemma reaches_relieved : Reaches 4096 WRITER_BUDGET_BYTES (relieved p) := by
  have h : Reaches 4096 WRITER_BUDGET_BYTES _ :=
    .tail (.tail (reaches_crowded p) (.serve (.recv rfl rfl))) (.serve (.done rfl))
  have hcost : clamped WRITER_BUDGET_BYTES p.bytes ≤ WRITER_BUDGET_BYTES :=
    (clamped_spec (by decide) p.bytes).2.1
  exact .tail (.tail h (.serve (.grant rfl hcost)))
    (.serve (@Chan.Serves.push _ _ _ _ _ _ [] [] rfl (by simp) rfl))

/-- The reply of the first task overtakes the ping of the third one, which is the last. -/
lemma reaches_served : ∃ c, Reaches 4096 WRITER_BUDGET_BYTES c ∧ c.asked = (crowded p).asked ∧ c.isOpen = true ∧
    c.work = 0 ∧ c.dropped = [] ∧ c.current = none ∧ c.handled = [firstPing, (1, p), firstReply, thirdPing] := by
  have h₁ : Reaches 4096 WRITER_BUDGET_BYTES _ :=
    .tail (.tail (reaches_relieved p) (.serve (.recv rfl rfl))) (.serve (.done rfl))
  have hfree : WRITER_BUDGET_BYTES - clamped WRITER_BUDGET_BYTES p.bytes + clamped WRITER_BUDGET_BYTES p.bytes =
      WRITER_BUDGET_BYTES := Nat.sub_add_cancel (clamped_spec (by decide) p.bytes).2.1
  have h₂ : Reaches 4096 WRITER_BUDGET_BYTES _ := .tail (.tail h₁
    (.serve (.grant (e := thirdPing) rfl (by simp only [relieved, hfree]; decide))))
      (.serve (.grant (e := firstReply) rfl (by simp only [relieved, hfree]; decide)))
  have h₃ : Reaches 4096 WRITER_BUDGET_BYTES _ := .tail (.tail h₂
    (.serve (@Chan.Serves.push _ _ _ _ _ _ [thirdPing] [] rfl (by simp) rfl)))
      (.serve (@Chan.Serves.push _ _ _ _ _ _ [] [] rfl (by simp) rfl))
  have h₄ : Reaches 4096 WRITER_BUDGET_BYTES _ :=
    .tail (.tail h₃ (.serve (.recv rfl rfl))) (.serve (.done rfl))
  exact ⟨_, .tail (.tail h₄ (.serve (.recv rfl rfl))) (.serve (.done rfl)), rfl, rfl, rfl, rfl, rfl, rfl⟩

end Crowd

/-- A message that is greater than the whole budget. -/
lemma exists_oversized : ∃ m : OutgoingMessage, WRITER_BUDGET_BYTES < m.payload.length :=
  ⟨⟨4, List.replicate (WRITER_BUDGET_BYTES + 1) 0⟩, by rw [length_replicate]; decide⟩

def fullIndex : ℕ × Packet IndexTaskMessage := (0, ⟨.index ['f'] [] 1, 20 * 1024 * 1024⟩)

def nextUpdate : ℕ × Packet IndexTaskMessage := (0, ⟨.indexUpdate ['f'] [] 2, 13 * 1024 * 1024⟩)

/-- While the oversized message waits, what is admitted is within the budget; when it is queued, it is alone.  An
update waits for the budget of the index channel until the `Index` before it is handled. -/
theorem channel_within_budget_crowded :
    (∃ m : OutgoingMessage, WRITER_BUDGET_BYTES < m.payload.length ∧
      ((crowded (MessageWriter.packet m)).admitted.map fun e => e.2.bytes).sum ≤ WRITER_BUDGET_BYTES ∧
      ∃ e, (relieved (MessageWriter.packet m)).admitted = [e] ∧ WRITER_BUDGET_BYTES < e.2.bytes) ∧
    ∃ c : Chan ℕ (Packet IndexTaskMessage), c.admitted = [fullIndex] ∧ c.waiting = [nextUpdate] ∧
      c.free < clamped INDEX_BUDGET_BYTES nextUpdate.2.bytes ∧ c.queue.length ≤ 256 ∧
      (c.admitted.map fun e => e.2.bytes).sum ≤ INDEX_BUDGET_BYTES := by
  constructor
  · obtain ⟨m, hm⟩ := exists_oversized
    refine ⟨m, hm, ?_, ?_⟩
    · refine (channel_within_budget (by decide) (reaches_crowded _)).2.resolve_right ?_
      rintro ⟨e, he, hlt⟩
      cases he
      exact absurd hlt (by decide)
    · refine (channel_within_budget (by decide) (reaches_relieved _)).2.resolve_left ?_
      simp only [relieved, Chan.admitted, Option.toList_none, nil_append, append_nil, map_cons,
        map_nil, sum_cons, sum_nil, MessageWriter.packet]
      omega
  · have hr : Reaches 256 INDEX_BUDGET_BYTES _ := .tail (.tail (.tail (.tail .refl
        (.ask (e := fullIndex) (by simp [byteBudgetChannel])))
        (.serve (.grant rfl (by decide)))) (.serve (@Chan.Serves.push _ _ _ _ _ _ [] [] rfl (by decide) rfl)))
        (.ask (e := nextUpdate) (by simp))
    obtain ⟨hqueue, hsum⟩ := channel_within_budget (by decide) hr
    refine ⟨_, rfl, rfl, by decide, hqueue, hsum.resolve_right ?_⟩
    rintro ⟨e, he, hlt⟩
    cases he
    exact absurd hlt (by decide)

/-- All messages are handled, those of the first task in its order. -/
theorem channel_delivers_crowded : ∃ (m : OutgoingMessage) (c : Chan ℕ (Packet OutgoingMessage)),
    WRITER_BUDGET_BYTES < m.payload.length ∧ c.asked = (crowded (MessageWriter.packet m)).asked ∧
    c.handled = [firstPing, (1, MessageWriter.packet m), firstReply, thirdPing] ∧ c.asked.Perm c.handled ∧
    Chan.ofSender 0 c.handled = [firstPing, firstReply] := by
  obtain ⟨m, hm⟩ := exists_oversized
  obtain ⟨c, hr, hasked, hopen, hwork, hdropped, -, hhandled⟩ := reaches_served (MessageWriter.packet m)
  have hrest : ∀ c', ¬Serves 4096 WRITER_BUDGET_BYTES c c' := by
    intro c' hs
    have := Chan.work_serves hs
    omega
  obtain ⟨hperm, horder⟩ := (channel_delivers (by decide) (by decide) hr).2.2 hopen hrest
  refine ⟨m, c, hm, hasked, hhandled, ?_, (horder hdropped 0).trans ?_⟩
  · rwa [hdropped, append_nil] at hperm
  · rw [hasked]
    rfl

def requestPacket : Packet OutgoingMessage := MessageWriter.packet ⟨3, [8, 1]⟩

/-- The frames of the ping, the request, the reply and the other ping. -/
def tasksWire : List Bytes :=
  [[0, 8, 128, 0, 0, 6, 128, 0, 0, 0, 0, 0, 0, 0], [0, 8, 128, 0, 0, 3, 128, 0, 0, 0, 0, 0, 0, 2, 8, 1],
   [0, 8, 128, 0, 0, 4, 128, 0, 0, 0, 0, 0, 0, 2, 16, 1], [0, 8, 128, 0, 0, 6, 128, 0, 0, 0, 0, 0, 0, 0]]

/-- The bytes arrive in three pieces, the first of which ends within the second frame; a tick comes between frames. -/
def threePieces : List LoopAct :=
  [.arrive (tasksWire.flatten.take 20), .poll none, .poll none, .arrive ((tasksWire.flatten.drop 20).take 10),
    .poll none, .tick none, .arrive (tasksWire.flatten.drop 30), .poll none, .poll none]

/-- All four messages are dispatched, in the order in which they were written. -/
theorem sent_dispatched_threePieces : ∃ s,
    run (MessageLoop.step sampleCodec) (.start sampleCodec) threePieces = some s ∧
    s.dispatched = [⟨⟨6, 0⟩, []⟩, ⟨⟨3, 0⟩, [8, 1]⟩, ⟨⟨4, 0⟩, [16, 1]⟩, ⟨⟨6, 0⟩, []⟩] := by
  obtain ⟨s, hr, harr, hend, hin⟩ : ∃ s, run (MessageLoop.step sampleCodec) (.start sampleCodec) threePieces =
      some s ∧ s.arrived = tasksWire.flatten ∧ s.ended = none ∧ s.input = [] := by decide
  obtain ⟨c, hc, -, -, -, -, hcurrent, hhandled⟩ := reaches_served requestPacket
  have hall : c.handled ++ c.current.toList = [firstPing, (1, requestPacket), firstReply, thirdPing] := by
    rw [hhandled, hcurrent]
    rfl
  have hw : ([firstPing, (1, requestPacket), firstReply, thirdPing].map fun e => e.2.msg.written).mapM
      (writeMessage sampleEncoder) = .ok tasksWire := by decide
  obtain ⟨l, -, hl, -, hread⟩ := sent_dispatched sample_inverse hc (by rw [hall]; exact hw)
    (by
      rw [hall]
      simp [firstPing, requestPacket, firstReply, thirdPing, MessageWriter.packet, ping, OutgoingMessage.written,
        Outgoing.Plain, Header.Fits, Outgoing.Readable, Outgoing.payload, MAX_MESSAGE_SIZE])
    (by decide) hr (by simp [harr])
  refine ⟨s, hr, ?_⟩
  rw [hl, hread hend hin (by simp [harr]), hall]
  rfl

end Bepository.Sync
