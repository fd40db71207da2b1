/-
  TddyCoder.Terminal.LiveBridge — the live half of a terminal's output stream
  (`packages/tddy-terminal-rpc/src/bridge.rs`: `LiveOutput`, `spawn_live_bridge`,
  `send_resync`; the same loop for the room wire in
  `packages/tddy-cli-sessions/src/cli_session_manager/pty_terminal_service.rs`), over the
  terminal it reads from (`TaskChannel::write` of `packages/tddy-task/src/task.rs`,
  `snapshot_and_subscribe` of `packages/tddy-terminal-rpc/src/session.rs`).

  A write appends to the capture and broadcasts in one step. Which of the ready things the loop
  takes is part of the event, and so is what is on the screen. A stream that stamps offsets
  answers a lag or a request with a snapshot; one that does not skips what it has lost.
-/

import TddyCoder.Concurrency.Broadcast
import TddyCoder.Machine.Follower
import TddyCoder.Terminal.Capture

namespace TddyCoder.Terminal

open Concurrency Machine List

/-! ## The terminal -/

inductive SessionEvent
  | write (data : List UInt8)
  | acknowledge (offset : Nat)
  | exit
  | close

def SessionEvent.written : SessionEvent → List UInt8
  | write data => data
  | _ => []

/-- A terminal: its capture holds a window of what was broadcast. -/
structure Session where
  capture : TerminalCapture
  broadcast : Channel (List UInt8)
  ackedOffset : Nat
  ptyDone : Bool
  window : capture.Window broadcast.sent.flatten

namespace Session

def channelBroadcastCapacity : Nat := 256

def new : Session := ⟨.new, ⟨channelBroadcastCapacity, [], false⟩, 0, false, TerminalCapture.new_window⟩

variable (s : Session)

def output : List UInt8 := s.broadcast.sent.flatten

/-- Append, then broadcast, under one lock. -/
def write (data : List UInt8) : Session where
  capture := s.capture.append data
  broadcast := s.broadcast.send data
  ackedOffset := s.ackedOffset
  ptyDone := s.ptyDone
  window := by simpa [Channel.send] using TerminalCapture.append_window s.window data

def after : SessionEvent → Session
  | .write data => s.write data
  | .acknowledge offset => { s with ackedOffset := max s.ackedOffset offset }
  | .exit => { s with ptyDone := true }
  | .close => { s with broadcast := { s.broadcast with closed := true } }

/-- Where in the output the message with this number begins. -/
def offsetAt (message : Nat) : Nat := (s.broadcast.sent.take message).flatten.length

end Session

/-! ## Frames -/

structure Screen where
  data : List UInt8
  rows : Nat
  cols : Nat

inductive Note
  | ack (offset : Nat)
  | refusal (offset : Nat)

/-- The frames of a stream: data with the offset it starts at, if it is stamped; a screen with the offset it was taken
    at; notes about input, where the stream has them. -/
structure Wire (F : Type) where
  data : Option Nat → List UInt8 → F
  snapshot : Screen → Nat → F
  note : Note → Option F

structure SessionTerminalOutput where
  data : List UInt8
  ackedInputOffset : Nat
  startOffset : Nat
  endOffset : Nat
  atOldest : Bool
  sessionId : String
  terminalId : String
  snapshot : Bool
  snapshotRows : Nat
  snapshotCols : Nat
  refusedInputOffset : Nat
  inputRefusal : String
  deriving DecidableEq

def mainTerminalId : String := "main"

def resolvedTerminalId (terminalId : String) : String := if terminalId = "" then mainTerminalId else terminalId

def inputRefused : String := "terminal controlled by another screen"

/-- The hard reset every snapshot starts with. -/
def ris : List UInt8 := [0x1b, 0x63]

structure FrameIdentity where
  sessionId : String
  terminalId : String

namespace FrameIdentity

def new (sessionId terminalId : String) : FrameIdentity := ⟨sessionId, resolvedTerminalId terminalId⟩

variable (i : FrameIdentity)

def dataFrame (data : List UInt8) : SessionTerminalOutput :=
  ⟨data, 0, 0, 0, false, i.sessionId, i.terminalId, false, 0, 0, 0, ""⟩

def initialReplayFrame (chunk : CaptureChunk) : SessionTerminalOutput :=
  { i.dataFrame chunk.data with
    startOffset := chunk.startOffset, endOffset := chunk.endOffset, atOldest := chunk.atOldest }

def snapshotFrame (screen : Screen) (offset : Nat) : SessionTerminalOutput :=
  { i.dataFrame (ris ++ screen.data) with
    endOffset := offset, snapshot := true, snapshotRows := screen.rows, snapshotCols := screen.cols }

def refusalFrame (refusedInputOffset : Nat) (reason : String) : SessionTerminalOutput :=
  { i.dataFrame [] with refusedInputOffset := refusedInputOffset, inputRefusal := reason }

def ackFrame (ackedInputOffset : Nat) : SessionTerminalOutput :=
  { i.dataFrame [] with ackedInputOffset := ackedInputOffset }

/-- `LiveOutput::data_frame`. -/
def liveFrame (start : Option Nat) (data : List UInt8) : SessionTerminalOutput :=
  match start with
  | none => i.dataFrame data
  | some start => { i.dataFrame data with startOffset := start, endOffset := start + data.length }

def wire : Wire SessionTerminalOutput where
  data := i.liveFrame
  snapshot := i.snapshotFrame
  note
    | .ack offset => some (i.ackFrame offset)
    | .refusal offset => some (i.refusalFrame offset inputRefused)

theorem note_data {i : FrameIdentity} {n : Note} {frame : SessionTerminalOutput} (h : i.wire.note n = some frame) :
    frame.data = [] ∧ frame.endOffset = 0 := by
  cases n with
  | ack offset | refusal offset => exact Option.some.inj h ▸ ⟨rfl, rfl⟩

end FrameIdentity

structure TerminalOutput where
  data : List UInt8
  snapshot : Bool
  startOffset : Nat
  endOffset : Nat
  deriving DecidableEq

/-- Every frame of the room wire is stamped, and it has no notes. -/
def roomWire : Wire TerminalOutput where
  data start data := ⟨data, false, start.getD 0, start.getD 0 + data.length⟩
  snapshot screen offset := ⟨ris ++ screen.data, true, 0, offset⟩
  note _ := none

/-! ## The loop -/

structure LiveOutput where
  rx : Nat
  nextOffset : Option Nat

structure Sent (F : Type) where
  frame : F
  told : Option (Told UInt8)

/-- The frame is the one for what it tells; one that tells nothing is a note. Only a stamped stream has snapshots. -/
def Sent.Shows {F : Type} (wire : Wire F) (stamped : Bool) (item : Sent F) : Prop :=
  match item.told with
  | some (.part start data) => item.frame = wire.data (if stamped then some start else none) data
  | some (.upTo offset) => stamped = true ∧ ∃ screen, item.frame = wire.snapshot screen offset
  | none => ∃ n, wire.note n = some item.frame

/-- Why the loop stopped: the broadcast closed, the process exited, or the terminal was gone when it was to be
    snapshotted. -/
inductive Ended
  | closed | exited | gone
  deriving DecidableEq

structure Bridge (F : Type) where
  session : Session
  live : LiveOutput
  alive : Bool
  resyncRequested : Bool
  ackSeen : Nat
  sent : List (Sent F)
  ended : Option Ended

/-- What `select` takes; a snapshot shows the screen as it is then. -/
inductive Branch
  | recv (screen : Screen)
  | resync (screen : Screen)
  | ack
  | done

inductive BridgeEvent
  | session (event : SessionEvent)
  | refuse (offset : Nat)
  | requestSnapshot
  | drop
  | select (branch : Branch)

namespace Bridge

variable {F : Type} (wire : Wire F) (b : Bridge F)

def note (b : Bridge F) (n : Note) : Bridge F :=
  match wire.note n with
  | some frame => { b with sent := b.sent ++ [⟨frame, none⟩] }
  | none => b

def forward (data : List UInt8) (rx : Nat) : Bridge F :=
  { b with
    live := ⟨rx, b.live.nextOffset.map (· + data.length)⟩
    sent := b.sent ++ [⟨wire.data b.live.nextOffset data, some (.part (b.session.offsetAt b.live.rx) data)⟩] }

def resync (screen : Screen) : Bridge F :=
  if b.alive then
    { b with
      live := ⟨b.session.broadcast.subscribe, some b.session.capture.endOffset⟩
      sent := b.sent ++ [⟨wire.snapshot screen b.session.capture.endOffset, some (.upTo b.session.output.length)⟩] }
  else { b with ended := some .gone }

def select : Branch → Bridge F
  | .recv screen =>
    match b.session.broadcast.recv b.live.rx with
    | (.item data, rx) => b.forward wire data rx
    | (.closed, _) => { b with ended := some .closed }
    | (.lagged, rx) =>
      -- only a stamped stream can be resynced; another goes on with what is left
      if b.live.nextOffset.isSome then b.resync wire screen else { b with live := { b.live with rx := rx } }
    | (.empty, _) => b
  | .resync screen =>
    if b.resyncRequested && b.live.nextOffset.isSome then { b with resyncRequested := false }.resync wire screen else b
  | .ack =>
    if b.ackSeen < b.session.ackedOffset then
      { b with ackSeen := b.session.ackedOffset }.note wire (.ack b.session.ackedOffset)
    else b
  | .done =>
    -- what is waiting on the receiver is left there
    if b.session.ptyDone then { b with ended := some .exited } else b

def step : BridgeEvent → Bridge F
  | .session event => { b with session := b.session.after event }
  | .refuse offset => if b.ended.isSome then b else b.note wire (.refusal offset)
  | .requestSnapshot => { b with resyncRequested := true }
  | .drop => { b with alive := false }
  | .select branch => if b.ended.isSome then b else b.select wire branch

variable (session : Session)

/-- `spawn_live_bridge`: the offset acknowledged so far goes first. -/
def spawn (live : LiveOutput) (sent : List (Sent F)) : Bridge F :=
  let b : Bridge F := ⟨session, live, true, false, session.ackedOffset, sent, none⟩
  if session.ackedOffset > 0 then b.note wire (.ack session.ackedOffset) else b

def openTail : Bridge F := spawn wire session ⟨session.broadcast.subscribe, none⟩ []

/-- `open_snapshot`: the screen as it is now, then what is written after it. -/
def openSnapshot (screen : Screen) : Bridge F :=
  spawn wire session ⟨session.broadcast.subscribe, some session.capture.endOffset⟩
    [⟨wire.snapshot screen session.capture.endOffset, some (.upTo session.output.length)⟩]

/-! ## A bridge follows the output -/

def stamped : Bool := b.live.nextOffset.isSome

def follower : Follower UInt8 :=
  ⟨b.session.output, b.session.offsetAt b.live.rx, b.sent.filterMap (·.told)⟩

/-- The receiver is within what was sent, and a stamp says where the next message begins. -/
structure Tracks : Prop where
  within : b.live.rx ≤ b.session.broadcast.sent.length
  stamp : ∀ offset, b.live.nextOffset = some offset → offset = b.session.offsetAt b.live.rx

end Bridge

variable {data : List UInt8}

namespace Session

variable (s : Session) (event : SessionEvent)

theorem sent_after :
    ∃ more, (s.after event).broadcast.sent = s.broadcast.sent ++ more ∧ more.flatten = event.written := by
  cases event with
  | write data => exact ⟨[data], by simp only [after, write, Channel.send], by simp [SessionEvent.written]⟩
  | _ => exact ⟨[], by simp only [after, append_nil], rfl⟩

theorem output_after : (s.after event).output = s.output ++ event.written := by
  obtain ⟨more, hsent, hwritten⟩ := s.sent_after event
  rw [output, hsent, flatten_append, hwritten, output]

variable {message : Nat} {s : Session}

theorem offsetAt_after (h : message ≤ s.broadcast.sent.length) (event : SessionEvent) :
    (s.after event).offsetAt message = s.offsetAt message := by
  obtain ⟨more, hsent, -⟩ := s.sent_after event
  rw [offsetAt, hsent, take_append_of_le_length h, offsetAt]

theorem offsetAt_subscribe : s.offsetAt s.broadcast.subscribe = s.output.length := by
  simp [offsetAt, Channel.subscribe, output]

theorem drop_offsetAt (message : Nat) :
    s.output.drop (s.offsetAt message) = (s.broadcast.pending message).flatten := by
  have hsplit : s.output = (s.broadcast.sent.take message).flatten ++ (s.broadcast.pending message).flatten := by
    rw [output, Channel.pending, ← flatten_append, take_append_drop]
  rw [hsplit, offsetAt, drop_left]

theorem offsetAt_le {message' : Nat} (h : message ≤ message') : s.offsetAt message ≤ s.offsetAt message' := by
  obtain ⟨more, rfl⟩ := Nat.exists_eq_add_of_le h
  rw [offsetAt, offsetAt, take_add, flatten_append, length_append]
  exact Nat.le_add_right _ _

theorem offsetAt_le_length (message : Nat) : s.offsetAt message ≤ s.output.length := by
  rw [← offsetAt_subscribe]
  by_cases h : message ≤ s.broadcast.subscribe
  · exact s.offsetAt_le h
  · rw [offsetAt, offsetAt, take_of_length_le (Nat.le_of_not_le h), Channel.subscribe, take_length]

theorem offsetAt_item
    (h : s.broadcast.sent[message]? = some data) : s.offsetAt (message + 1) = s.offsetAt message + data.length := by
  rw [offsetAt, offsetAt, take_add_one, h]
  simp

theorem item_leads (h : s.broadcast.sent[message]? = some data) :
    data <+: s.output.drop (s.offsetAt message) := by
  obtain ⟨hlt, rfl⟩ := List.getElem?_eq_some_iff.mp h
  rw [drop_offsetAt, Channel.pending, drop_eq_getElem_cons hlt, flatten_cons]
  exact prefix_append _ _

end Session

namespace Bridge

variable {F : Type} {wire : Wire F} {b : Bridge F}

variable {b' : Bridge F}

theorem Tracks.of_live (h : b.Tracks) (hsession : b'.session = b.session) (hlive : b'.live = b.live) : b'.Tracks := by
  constructor
  · rw [hsession, hlive]
    exact h.within
  · rw [hsession, hlive]
    exact h.stamp

theorem Tracks.stamp_eq (h : b.Tracks) :
    b.live.nextOffset = if b.stamped then some (b.session.offsetAt b.live.rx) else none := by
  rw [stamped]
  cases hstamp : b.live.nextOffset with
  | none => rfl
  | some offset => simp [h.stamp offset hstamp]

/-- What a step is for the follower: it moves as one of its kind, tracks still, stamps or not as before, and each frame
    that it sends shows what it tells. -/
structure Follows (wire : Wire F) (b b' : Bridge F) : Prop where
  tracks : b'.Tracks
  stamped : b'.stamped = b.stamped
  moves : Follower.Step b.stamped b.follower b'.follower
  sends : ∃ more, b'.sent = b.sent ++ more ∧ ∀ item ∈ more, item.Shows wire b.stamped

theorem Follows.idle (h : b.Tracks) (hsession : b'.session = b.session) (hlive : b'.live = b.live)
    (hsent : b'.sent = b.sent) : Follows wire b b' := by
  refine ⟨h.of_live hsession hlive, ?_, ?_, [], by simp [hsent], by simp⟩
  · rw [Bridge.stamped, hlive, Bridge.stamped]
  · have hsame : b'.follower = b.follower := by rw [follower, follower, hsession, hlive, hsent]
    rw [hsame]
    exact .idle _

variable (session : Session) (screen : Screen) (n : Note) {rx : Nat}

@[simp] theorem note_session : (b.note wire n).session = b.session := by
  unfold note
  split <;> rfl

@[simp] theorem note_live : (b.note wire n).live = b.live := by
  unfold note
  split <;> rfl

@[simp] theorem note_ended : (b.note wire n).ended = b.ended := by
  unfold note
  split <;> rfl

@[simp] theorem note_follower : (b.note wire n).follower = b.follower := by
  unfold note
  split
  · simp [follower]
  · rfl

theorem note_follows (h : b.Tracks) (n : Note) : Follows wire b (b.note wire n) := by
  have hmoves : Follower.Step b.stamped b.follower (b.note wire n).follower := by
    rw [note_follower]
    exact .idle _
  refine ⟨h.of_live (note_session n) (note_live n), by rw [stamped, note_live, stamped], hmoves, ?_⟩
  unfold note
  split
  · rename_i frame hframe
    refine ⟨[⟨frame, none⟩], rfl, fun item hitem => ?_⟩
    rw [mem_singleton.mp hitem]
    exact ⟨n, hframe⟩
  · exact ⟨[], by simp, by simp⟩

theorem forward_follows (h : b.Tracks)
    (hrecv : b.session.broadcast.recv b.live.rx = (.item data, rx)) : Follows wire b (b.forward wire data rx) := by
  obtain ⟨rfl, hitem⟩ := Channel.recv_item hrecv
  have hnext := Session.offsetAt_item hitem
  refine ⟨⟨?_, ?_⟩, by simp [stamped, forward], ?_, _, rfl, fun item hmem => ?_⟩
  · exact (List.getElem?_eq_some_iff.mp hitem).1
  · intro offset hoffset
    obtain ⟨start, hstart, rfl⟩ := Option.map_eq_some_iff.mp hoffset
    rw [h.stamp start hstart]
    exact hnext.symm
  · have hfollower : (b.forward wire data (b.live.rx + 1)).follower =
        { b.follower with
          pos := b.follower.pos + data.length, told := b.follower.told ++ [.part b.follower.pos data] } := by
      simp [follower, forward, hnext]
    rw [hfollower]
    exact .take _ data (Session.item_leads hitem)
  · rw [mem_singleton.mp hmem]
    exact congrArg (wire.data · data) h.stamp_eq

theorem resync_follows (h : b.Tracks) (hstamped : b.stamped = true) (screen : Screen) :
    Follows wire b (b.resync wire screen) := by
  have htip : b.session.capture.endOffset = b.session.output.length := b.session.window.tip
  unfold resync
  split
  · refine ⟨⟨Nat.le_refl _, ?_⟩, hstamped.symm, ?_, _, rfl, fun item hitem => ?_⟩
    · rintro offset ⟨⟩
      exact htip.trans b.session.offsetAt_subscribe.symm
    · have hfollower : b.session.offsetAt b.session.broadcast.subscribe = b.follower.log.length :=
        b.session.offsetAt_subscribe
      simp only [follower, filterMap_append, hfollower]
      exact .restart b.follower hstamped
    · rw [mem_singleton.mp hitem]
      exact ⟨hstamped, screen, congrArg (wire.snapshot screen) htip⟩
  · exact .idle h rfl rfl rfl

theorem lag_follows (hstamped : b.stamped = false)
    (hrecv : b.session.broadcast.recv b.live.rx = (.lagged, rx)) :
    Follows wire b { b with live := { b.live with rx := rx } } := by
  obtain ⟨hbehind, rfl⟩ := Channel.recv_lagged hrecv
  have hnone : b.live.nextOffset = none := by simpa [stamped] using hstamped
  have hahead : b.live.rx ≤ b.session.broadcast.sent.length - b.session.broadcast.capacity := by omega
  -- nothing is sent, so this is where a follower moves without a word
  refine ⟨⟨Nat.sub_le _ _, fun offset hoffset => ?_⟩, rfl, ?_, [], by simp, by simp⟩
  · exact absurd (hnone.symm.trans hoffset) (by simp)
  · exact .skip b.follower _ hstamped (b.session.offsetAt_le hahead) (b.session.offsetAt_le_length _)

theorem select_follows (h : b.Tracks) (branch : Branch) : Follows wire b (b.select wire branch) := by
  cases branch with
  | recv screen =>
    simp only [select]
    split
    · rename_i data rx hrecv
      exact forward_follows h hrecv
    · exact .idle h rfl rfl rfl
    · rename_i rx hrecv
      split
      · rename_i hstamped
        exact resync_follows h hstamped screen
      · rename_i hstamped
        exact lag_follows (by simpa [stamped] using hstamped) hrecv
    · exact .idle h rfl rfl rfl
  | resync screen =>
    simp only [select]
    split
    · rename_i hready
      have hstamped : b.stamped = true := (Bool.and_eq_true_iff.mp hready).2
      have hasked : Tracks { b with resyncRequested := false } := ⟨h.within, h.stamp⟩
      obtain ⟨htracks, hsame, hmoves, hsends⟩ := resync_follows hasked hstamped screen
      exact ⟨htracks, hsame, hmoves, hsends⟩
    · exact .idle h rfl rfl rfl
  | ack =>
    simp only [select]
    split
    · have hseen : Tracks { b with ackSeen := b.session.ackedOffset } := ⟨h.within, h.stamp⟩
      obtain ⟨htracks, hsame, hmoves, hsends⟩ := note_follows hseen (.ack b.session.ackedOffset)
      exact ⟨htracks, hsame, hmoves, hsends⟩
    · exact .idle h rfl rfl rfl
  | done =>
    simp only [select]
    split <;> exact .idle h rfl rfl rfl

/-- Whatever happens, the bridge moves as a follower of the output. -/
theorem step_follows (h : b.Tracks) (event : BridgeEvent) : Follows wire b (b.step wire event) := by
  cases event with
  | session event =>
    obtain ⟨more, hsent, -⟩ := b.session.sent_after event
    have hrx : (b.session.after event).offsetAt b.live.rx = b.session.offsetAt b.live.rx :=
      Session.offsetAt_after h.within event
    refine ⟨⟨?_, fun offset hoffset => (h.stamp offset hoffset).trans hrx.symm⟩, rfl, ?_, [], by simp [step], by simp⟩
    · simp only [step, hsent, length_append]
      exact Nat.le_add_right_of_le h.within
    · simp only [step, follower, hrx, Session.output_after]
      exact .grow b.follower event.written
  | refuse offset =>
    simp only [step]
    split
    · exact .idle h rfl rfl rfl
    · exact note_follows h _
  | requestSnapshot | drop => exact .idle h rfl rfl rfl
  | select branch =>
    simp only [step]
    split
    · exact .idle h rfl rfl rfl
    · exact select_follows h branch

/-- What holds in every state of a stream that was opened when the output had come to `start`. -/
structure Streams (wire : Wire F) (start : Nat) (b : Bridge F) : Prop where
  tracks : b.Tracks
  sound : b.follower.Sound
  onward : start ≤ b.follower.pos
  shows : ∀ item ∈ b.sent, item.Shows wire b.stamped

variable {start : Nat}

theorem Streams.follow (h : b.Streams wire start) (hfollows : Follows wire b b') : b'.Streams wire start := by
  obtain ⟨more, hsent, hshows⟩ := hfollows.sends
  refine ⟨hfollows.tracks, h.sound.step hfollows.moves, Nat.le_trans h.onward (h.sound.pos_le hfollows.moves), ?_⟩
  rw [hsent, hfollows.stamped]
  exact forall_mem_append.mpr ⟨h.shows, hshows⟩

theorem Streams.run (h : b.Streams wire start) (events : List BridgeEvent) :
    (events.foldl (step wire) b).Streams wire start := by
  induction events generalizing b with
  | nil => exact h
  | cons event events ih => exact ih (h.follow (step_follows h.tracks event))

/-! ## What a step does -/

@[simp] theorem resync_session : (b.resync wire screen).session = b.session := by
  unfold resync
  split <;> rfl

@[simp] theorem select_session (branch : Branch) : (b.select wire branch).session = b.session := by
  cases branch <;> simp only [select]
  · split
    · rfl
    · rfl
    · split <;> simp
    · rfl
  · split <;> simp
  · split <;> simp
  · split <;> rfl

theorem step_session (event : BridgeEvent) :
    (∃ e, event = .session e ∧ (b.step wire event).session = b.session.after e) ∨
      (∀ e, event ≠ .session e) ∧ (b.step wire event).session = b.session := by
  cases event with
  | session event => exact .inl ⟨event, rfl, rfl⟩
  | refuse offset =>
    refine .inr ⟨by simp, ?_⟩
    simp only [step]
    split <;> simp
  | requestSnapshot | drop => exact .inr ⟨by simp, rfl⟩
  | select branch =>
    refine .inr ⟨by simp, ?_⟩
    simp only [step]
    split <;> simp

theorem step_output (event : BridgeEvent) : ∃ more, (b.step wire event).session.output = b.session.output ++ more := by
  rcases @step_session F wire b event with ⟨e, rfl, hsession⟩ | ⟨-, hsession⟩
  · exact ⟨e.written, by rw [hsession, Session.output_after]⟩
  · exact ⟨[], by rw [hsession, append_nil]⟩

theorem resync_moves (htold : (b.resync wire screen).follower.told = b.follower.told) :
    (b.resync wire screen).live = b.live := by
  unfold resync at htold ⊢
  split
  · rename_i halive
    simp [halive, follower] at htold
  · rfl

theorem select_moves {branch : Branch} (htold : (b.select wire branch).follower.told = b.follower.told) :
    (b.select wire branch).live = b.live ∨
      ∃ screen rx, branch = .recv screen ∧ b.stamped = false ∧ b.session.broadcast.recv b.live.rx = (.lagged, rx) ∧
        (b.select wire branch).live.rx = rx := by
  cases branch with
  | recv screen =>
    rcases hrecv : b.session.broadcast.recv b.live.rx with ⟨got, rx⟩
    cases got with
    | item data => simp [select, hrecv, forward, follower] at htold
    | closed => exact .inl (by simp only [select, hrecv])
    | lagged =>
      cases hstamped : b.live.nextOffset.isSome with
      | true =>
        simp only [select, hrecv, hstamped, if_true] at htold ⊢
        exact .inl (resync_moves screen htold)
      | false => exact .inr ⟨screen, rx, rfl, hstamped, rfl, by simp [select, hrecv, hstamped]⟩
    | empty => exact .inl (by simp only [select, hrecv])
  | resync screen =>
    simp only [select] at htold ⊢
    split at htold
    · rename_i hready
      rw [if_pos hready]
      exact .inl (resync_moves screen htold)
    · rename_i hready
      rw [if_neg hready]
      exact .inl rfl
  | ack =>
    simp only [select]
    split <;> simp
  | done =>
    simp only [select]
    split <;> exact .inl rfl

/-- A step moves only where it sends, unless it passes over what an unstamped stream has lost. -/
theorem step_moves (h : b.Tracks) {event : BridgeEvent} (htold : (b.step wire event).follower.told = b.follower.told) :
    (b.step wire event).follower.pos = b.follower.pos ∨
      ∃ screen rx, event = .select (.recv screen) ∧ b.ended = none ∧ b.stamped = false ∧
        b.session.broadcast.recv b.live.rx = (.lagged, rx) ∧
        (b.step wire event).follower.pos = b.session.offsetAt rx := by
  cases event with
  | session event => exact .inl (Session.offsetAt_after h.within event)
  | refuse offset =>
    left
    simp only [step]
    split <;> simp [follower]
  | requestSnapshot | drop => exact .inl rfl
  | select branch =>
    simp only [step] at htold ⊢
    split at htold
    · rename_i hended
      exact .inl (by rw [if_pos hended])
    rename_i hended
    rw [if_neg hended]
    simp only [follower, select_session]
    rcases select_moves htold with hlive | ⟨screen, rx, rfl, hstamped, hrecv, hrx⟩
    · exact .inl (by rw [hlive])
    · exact .inr ⟨screen, rx, rfl, by simpa using hended, hstamped, hrecv, by rw [hrx]⟩

/-! ## The streams a terminal opens -/

theorem spawn_spec (live : LiveOutput) (sent : List (Sent F)) :
    (spawn wire session live sent).session = session ∧ (spawn wire session live sent).live = live ∧
    (spawn wire session live sent).ended = none ∧
    (spawn wire session live sent).follower = ⟨session.output, session.offsetAt live.rx, sent.filterMap (·.told)⟩ := by
  unfold spawn
  split
  · exact ⟨note_session _, note_live _, note_ended _, note_follower _⟩
  · exact ⟨rfl, rfl, rfl, rfl⟩

theorem Streams.spawn {session : Session} {live : LiveOutput} {sent : List (Sent F)}
    (h : Streams wire start ⟨session, live, true, false, session.ackedOffset, sent, none⟩) :
    (spawn wire session live sent).Streams wire start := by
  unfold Bridge.spawn
  split
  · exact h.follow (note_follows h.tracks _)
  · exact h

theorem openTail_streams : (openTail wire session).Streams wire session.output.length := by
  have hpos := session.offsetAt_subscribe
  refine Streams.spawn ⟨⟨Nat.le_refl _, by simp⟩, ⟨Nat.le_of_eq hpos, by simp [follower]⟩, ?_, by simp⟩
  exact Nat.le_of_eq hpos.symm

theorem openSnapshot_streams : (openSnapshot wire session screen).Streams wire session.output.length := by
  have htip : session.capture.endOffset = session.output.length := session.window.tip
  have hpos := session.offsetAt_subscribe
  refine Streams.spawn ⟨⟨Nat.le_refl _, ?_⟩, ⟨Nat.le_of_eq hpos, ?_⟩, Nat.le_of_eq hpos.symm, ?_⟩
  · rintro offset ⟨⟩
    exact htip.trans hpos.symm
  · simp [follower, hpos, Told.Right]
  · simp only [mem_singleton, forall_eq, Sent.Shows]
    exact ⟨rfl, screen, congrArg (wire.snapshot screen) htip⟩

end Bridge

end TddyCoder.Terminal
