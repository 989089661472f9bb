import Bepository.Lib.Run
import Bepository.Bep.Framing

/-!
# The message loop (`bepository-bep/src/connection.rs`, `run_message_loop`)

In each iteration the loop waits for one of a shutdown, a tick of the keepalive timer and a message.
When one of the others comes first, the future of `read_message` is dropped, with the bytes that it has
taken from the connection.  `frames_dispatched` says that the messages are dispatched as the peer sent
them if the ticks come while no frame is read in part; `tornFrame` is a run with a tick in between.
-/

namespace Bepository.Sync

open Lib List Option

/-! ### The loop -/

/-- How the loop ends: `CloseReason`, or an error of a read, of a handler or of a keepalive. -/
inductive LoopEnd where
  | closedHere
  | remote (reason : Str)
  | read (e : LoopError)
  | handler (e : LoopError)
  | keepalive (e : LoopError)
  deriving DecidableEq

/-- The loop and its connection.  `input` are the bytes that have arrived and were not read, `failure` is
the I/O error that the connection gives after them; `future` waits with the bytes `got` for its read at
hand, and `taken` are all bytes that it has taken in this iteration.  `arrived` and `dispatched` are the
history: all bytes from the peer, and all messages. -/
structure MessageLoop where
  input : Bytes
  failure : Option String
  future : Future RawMessage
  got : Bytes
  taken : Bytes
  sent : List MessageType
  ended : Option LoopEnd
  arrived : Bytes
  dispatched : List RawMessage

/-- What can happen.  `handled` is the error of the message's handler, if there is one; a keepalive can
fail as well. -/
inductive LoopAct where
  | arrive (bytes : Bytes)
  | disconnect (msg : String)
  | poll (handled : Option LoopError)
  | tick (failed : Option LoopError)
  | shutdown

namespace MessageLoop

variable (codec : Codec)

def start : MessageLoop := ⟨[], none, readMessage codec, [], [], [], none, [], []⟩

/-- The next iteration calls `read_message` anew. -/
def restart (s : MessageLoop) : MessageLoop :=
  { s with future := readMessage codec, got := [], taken := [] }

def dispatch (msg : RawMessage) (handled : Option LoopError) : Option LoopEnd :=
  match MessageType.ofI32 msg.header.type with
  | none => none
  | some .ping => none
  | some .close =>
    match codec.close msg.body with
    | .error e => some (.handler (badMessage s!"protobuf decode error: {e}"))
    | .ok reason => some (.remote reason)
  | some _ => handled.map .handler

/-- The branch of `read_message` is polled. -/
def pollMessage (s : MessageLoop) (handled : Option LoopError) : MessageLoop :=
  match s.future.poll s.got s.input with
  | .pending future got =>
    { s with
      input := [], future := future, got := got, taken := s.taken ++ s.input
      ended := s.failure.map fun msg => .read (.network msg) }
  | .ready msg left =>
    { s.restart codec with
      input := left, dispatched := s.dispatched ++ [msg], ended := dispatch codec msg handled }
  | .failed e left => { s with input := left, ended := some (.read e) }

def step (s : MessageLoop) : LoopAct → Option MessageLoop
  | .arrive bytes => some { s with input := s.input ++ bytes, arrived := s.arrived ++ bytes }
  | .disconnect msg => some { s with failure := some msg }
  | .poll handled => if s.ended.isSome then none else some (s.pollMessage codec handled)
  | .tick none =>
    if s.ended.isSome then none else some { s.restart codec with sent := s.sent ++ [.ping] }
  | .tick (some e) => if s.ended.isSome then none else some { s with ended := some (.keepalive e) }
  | .shutdown =>
    if s.ended.isSome then none
    else some { s with sent := s.sent ++ [.close], ended := some .closedHere }

end MessageLoop

/-! ### The condition -/

/-- A tick of the timer comes while `read_message` has not taken a byte of a frame. -/
def MessageLoop.betweenFrames (s : MessageLoop) : LoopAct → Bool
  | .tick none => s.taken.isEmpty
  | _ => true

/-! ### The invariant -/

variable {codec : Codec}

def wireOf (frames : List (Frame codec)) : Bytes := frames.flatMap Frame.wire

/-- The frames `before` are dispatched; the bytes of those `after` them are taken, waiting or to come. -/
structure Aligned (codec : Codec) (before after : List (Frame codec)) (rest : Bytes)
    (s : MessageLoop) : Prop where
  dispatched : s.dispatched = before.map Frame.message
  bytes : s.ended = none → s.taken ++ s.input ++ rest = wireOf after
  future : s.ended = none → (readMessage codec).poll [] s.taken = .pending s.future s.got
  ended : ∀ e, s.ended = some (.read e) → s.failure.isSome

/-- Whatever frames the peer is sending, the loop is aligned with them. -/
def InStep (codec : Codec) (s : MessageLoop) : Prop :=
  ∀ (frames : List (Frame codec)) (rest : Bytes), s.arrived ++ rest = wireOf frames →
    ∃ before after, frames = before ++ after ∧ Aligned codec before after rest s

section Steps

variable {before after : List (Frame codec)} {rest : Bytes} {s s' : MessageLoop}
  {handled : Option LoopError}

lemma readMessage_waits : (readMessage codec).poll [] [] = .pending (readMessage codec) [] := rfl

lemma dispatch_ne_read {msg : RawMessage} {e : LoopError} :
    MessageLoop.dispatch codec msg handled ≠ some (.read e) := by
  unfold MessageLoop.dispatch
  split
  · rintro ⟨⟩
  · rintro ⟨⟩
  · split <;> rintro ⟨⟩
  · intro h
    obtain ⟨_, -, ⟨⟩⟩ := map_eq_some_iff.1 h

lemma step_poll (hup : s.ended = none) : s.step codec (.poll handled) = some (s.pollMessage codec handled) := by
  simp [MessageLoop.step, hup]

lemma arrived_pollMessage : (s.pollMessage codec handled).arrived = s.arrived := by
  unfold MessageLoop.pollMessage
  split <;> rfl

lemma Aligned.poll (h : Aligned codec before after rest s) (hup : s.ended = none) :
    (∃ future got, s.future.poll s.got s.input = .pending future got ∧
      (readMessage codec).poll [] (s.taken ++ s.input) = .pending future got) ∨
    ∃ frame later left, after = frame :: later ∧ left ++ rest = wireOf later ∧
      s.future.poll s.got s.input = .ready frame.message left := by
  have hpoll : s.future.poll s.got s.input = (readMessage codec).poll [] (s.taken ++ s.input) := by
    rw [poll_append, h.future hup, Polled.extend]
  have hbytes := h.bytes hup
  rw [hpoll]
  cases after with
  | nil =>
    -- the peer has sent nothing more
    obtain ⟨hnil, -⟩ := append_eq_nil_iff.1 hbytes
    rw [hnil, readMessage_waits]
    exact .inl ⟨_, _, rfl, rfl⟩
  | cons frame later =>
    have hread := readMessage_reads frame
    rw [wireOf, flatMap_cons] at hbytes
    rcases append_eq_append_iff.1 hbytes with ⟨v, hv, -⟩ | ⟨left, hleft, hlater⟩
    · by_cases hnil : v = []
      · rw [hnil, append_nil] at hv
        refine .inr ⟨frame, later, [], rfl, ?_, by rw [← hv]; exact hread⟩
        rw [← hv] at hbytes
        exact append_cancel_left hbytes
      · rw [hv] at hread
        obtain ⟨future, got, hpending⟩ := hread.suspends hnil
        exact .inl ⟨future, got, hpending, hpending⟩
    · refine .inr ⟨frame, later, left, rfl, hlater.symm, ?_⟩
      rw [hleft, hread.poll_append]

/-- **One poll** keeps the loop aligned. -/
lemma Aligned.pollMessage (h : Aligned codec before after rest s) (hup : s.ended = none)
    (handled : Option LoopError) :
    (Aligned codec before after rest (s.pollMessage codec handled) ∧ (s.pollMessage codec handled).input = []) ∨
    ∃ frame later, after = frame :: later ∧
      Aligned codec (before ++ [frame]) later rest (s.pollMessage codec handled) := by
  unfold MessageLoop.pollMessage
  rcases h.poll hup with ⟨future, got, hpoll, hfuture⟩ | ⟨frame, later, left, rfl, hbytes, hpoll⟩
  · rw [hpoll]
    refine .inl ⟨⟨h.dispatched, fun _ => ?_, fun _ => hfuture, fun e he => ?_⟩, rfl⟩
    · rw [← h.bytes hup, append_nil]
    · obtain ⟨msg, hmsg, -⟩ := map_eq_some_iff.1 he
      exact isSome_of_mem hmsg
  · rw [hpoll]
    refine .inr ⟨frame, later, rfl, ?_, fun _ => hbytes, fun _ => readMessage_waits, fun e he => ?_⟩
    · rw [map_append, ← h.dispatched]
      rfl
    · exact absurd he dispatch_ne_read

/-- **One step** under the condition. -/
lemma InStep.step {a : LoopAct} (h : InStep codec s) (hg : s.betweenFrames a = true)
    (hs : s.step codec a = some s') : InStep codec s' := by
  intro frames rest hsent
  cases a with
  | arrive bytes =>
    cases hs
    obtain ⟨before, after, rfl, hal⟩ := h frames (bytes ++ rest) (by rw [← hsent, append_assoc])
    refine ⟨before, after, rfl, hal.dispatched, fun hup => ?_, hal.future, hal.ended⟩
    rw [← hal.bytes hup]
    simp only [append_assoc]
  | disconnect =>
    cases hs
    obtain ⟨before, after, rfl, hal⟩ := h frames rest hsent
    exact ⟨before, after, rfl, hal.dispatched, hal.bytes, hal.future, fun _ _ => rfl⟩
  | poll handled =>
    simp only [MessageLoop.step] at hs
    split_ifs at hs with hend
    cases hs
    have hup : s.ended = none := not_isSome_iff_eq_none.1 hend
    rw [arrived_pollMessage] at hsent
    obtain ⟨before, after, rfl, hal⟩ := h frames rest hsent
    rcases hal.pollMessage hup handled with ⟨hal', -⟩ | ⟨frame, later, rfl, hal'⟩
    · exact ⟨before, after, rfl, hal'⟩
    · exact ⟨before ++ [frame], later, by rw [append_assoc]; rfl, hal'⟩
  | tick failed =>
    cases failed with
    | none =>
      simp only [MessageLoop.step] at hs
      split_ifs at hs with hend
      cases hs
      obtain ⟨before, after, rfl, hal⟩ := h frames rest hsent
      -- nothing is lost with the future
      have hnil : s.taken = [] := List.isEmpty_iff.1 hg
      refine ⟨before, after, rfl, hal.dispatched, fun hup => ?_, fun _ => readMessage_waits, hal.ended⟩
      rw [← hal.bytes hup, hnil]
      rfl
    | some =>
      simp only [MessageLoop.step] at hs
      split_ifs at hs
      cases hs
      obtain ⟨before, after, rfl, hal⟩ := h frames rest hsent
      exact ⟨before, after, rfl, hal.dispatched, (by rintro ⟨⟩), (by rintro ⟨⟩), (by rintro _ ⟨⟩)⟩
  | shutdown =>
    simp only [MessageLoop.step] at hs
    split_ifs at hs
    cases hs
    obtain ⟨before, after, rfl, hal⟩ := h frames rest hsent
    exact ⟨before, after, rfl, hal.dispatched, (by rintro ⟨⟩), (by rintro ⟨⟩), (by rintro _ ⟨⟩)⟩

/-- **The loop reads on**: polled often enough, it is over or has taken all that arrived. -/
lemma Aligned.reads_on (h : Aligned codec before after rest s) (hup : s.ended = none) :
    ∃ n s', run (MessageLoop.step codec) s (List.replicate n (.poll none)) = some s' ∧
      (s'.ended.isSome = true ∨ s'.input = []) := by
  -- by induction on the frames that are not dispatched
  induction after generalizing before s with
  | nil =>
    obtain ⟨-, hnil⟩ := (h.pollMessage hup none).resolve_right (by rintro ⟨_, _, ⟨⟩, -⟩)
    exact ⟨1, _, run_cons_eq_some.2 ⟨_, step_poll hup, rfl⟩, .inr hnil⟩
  | cons frame after ih =>
    rcases h.pollMessage hup none with ⟨-, hnil⟩ | ⟨_, _, ⟨⟩, hal⟩
    · exact ⟨1, _, run_cons_eq_some.2 ⟨_, step_poll hup, rfl⟩, .inr hnil⟩
    · by_cases hend : (s.pollMessage codec none).ended = none
      · obtain ⟨n, s', hr, hs'⟩ := ih hal hend
        exact ⟨n + 1, s', run_cons_eq_some.2 ⟨_, step_poll hup, hr⟩, hs'⟩
      · exact ⟨1, _, run_cons_eq_some.2 ⟨_, step_poll hup, rfl⟩, .inl (isSome_iff_ne_none.2 hend)⟩

-- A frame that has arrived would have been read.
lemma Aligned.nothing_left (h : Aligned codec before after [] s) (hup : s.ended = none) (hinput : s.input = []) :
    after = [] := by
  have hbytes := h.bytes hup
  rw [hinput, append_nil, append_nil] at hbytes
  cases after with
  | nil => rfl
  | cons frame =>
    have hwait := h.future hup
    rw [hbytes, wireOf, flatMap_cons, (readMessage_reads frame).poll_append] at hwait
    cases hwait

end Steps

/-! ### Runs -/

lemma run_inStep {acts : List LoopAct} {s : MessageLoop}
    (hm : Meets (MessageLoop.step codec) (fun s a => s.betweenFrames a = true) (.start codec) acts)
    (hr : run (MessageLoop.step codec) (.start codec) acts = some s) : InStep codec s := by
  have hinit : InStep codec (.start codec) := fun frames rest hsent =>
    ⟨[], frames, rfl, rfl, fun _ => hsent, fun _ => readMessage_waits, (by rintro _ ⟨⟩)⟩
  exact run_inv (P := InStep codec) (fun _ _ _ hi hg hs => hi.step hg hs) hinit hm hr

/-- **The messages are dispatched as they were sent**, in every run with the ticks between frames: those
dispatched are the first of those sent, no read fails before the connection does, and unless the loop
is over it dispatches all messages once their bytes have arrived and are read, which it goes on to do. -/
theorem frames_dispatched {acts : List LoopAct} {s : MessageLoop} {frames : List (Frame codec)} {rest : Bytes}
    (hm : Meets (MessageLoop.step codec) (fun s a => s.betweenFrames a = true) (.start codec) acts)
    (hr : run (MessageLoop.step codec) (.start codec) acts = some s)
    (hsent : s.arrived ++ rest = wireOf frames) :
    s.dispatched <+: frames.map Frame.message ∧
    (∀ e, s.ended = some (.read e) → s.failure.isSome) ∧
    (s.ended = none → s.input = [] → rest = [] → s.dispatched = frames.map Frame.message) ∧
    (s.ended = none → ∃ n s', run (MessageLoop.step codec) s (List.replicate n (.poll none)) = some s' ∧
      (s'.ended.isSome = true ∨ s'.input = [])) := by
  obtain ⟨before, after, rfl, hal⟩ := run_inStep hm hr frames rest hsent
  refine ⟨?_, hal.ended, fun hup hinput hrest => ?_, hal.reads_on⟩
  · rw [hal.dispatched, map_append]
    exact prefix_append _ _
  · subst hrest
    rw [hal.dispatched, hal.nothing_left hup hinput, append_nil]

/-! ### A frame in two parts -/

def plainCodec : Codec where
  header := fun b =>
    match b with
    | [] => .ok ⟨0, 0⟩
    | [8, type] => .ok ⟨type.toNat, 0⟩
    | _ => .error "invalid header"
  close := fun _ => .ok []
  lz4 := fun _ _ => .error "unsupported"

/-- An empty `DownloadProgress`. -/
def smallFrame : Frame plainCodec where
  header := [8, 5]
  body := []
  message := ⟨⟨5, 0⟩, []⟩
  header_lt := by decide
  body_le := by decide
  header_eq := rfl
  body_eq := rfl

def tornFrame : List LoopAct :=
  [.arrive [0, 2, 8], .poll none, .tick none, .arrive [5, 0, 0, 0, 0], .poll none]

/-- The whole frame has arrived and was read, the loop goes on, and nothing was dispatched. -/
theorem frames_lost_tornFrame :
    ∃ s, run (MessageLoop.step plainCodec) (.start plainCodec) tornFrame = some s ∧
      s.arrived = wireOf [smallFrame] ∧ s.ended = none ∧ s.input = [] ∧ s.dispatched = [] := by
  decide

/-- The frame arrives in two parts, and the ticks come before and after it. -/
def wholeFrame : List LoopAct :=
  [.tick none, .arrive [0, 2, 8], .poll none, .arrive [5, 0, 0, 0, 0], .poll none, .tick none]

/-- The message is dispatched. -/
theorem frames_dispatched_wholeFrame :
    ∃ s, run (MessageLoop.step plainCodec) (.start plainCodec) wholeFrame = some s ∧
      s.arrived = wireOf [smallFrame] ∧ s.dispatched = [smallFrame.message] := by
  obtain ⟨s, hr, harr, hend, hin⟩ : ∃ s, run (MessageLoop.step plainCodec) (.start plainCodec) wholeFrame =
      some s ∧ s.arrived = wireOf [smallFrame] ∧ s.ended = none ∧ s.input = [] := by
    decide
  have hsent : s.arrived ++ [] = wireOf [smallFrame] := by rw [append_nil, harr]
  exact ⟨s, hr, harr, (frames_dispatched (by decide) hr hsent).2.2.1 hend hin rfl⟩

end Bepository.Sync
