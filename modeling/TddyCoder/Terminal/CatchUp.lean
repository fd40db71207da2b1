/-
  TddyCoder.Terminal.CatchUp — a reconnecting output stream
  (`packages/tddy-terminal-rpc/src/bridge.rs`, `open_replay_ack_live` in its `FROM_OFFSET`
  mode): the mode prologue, the tip, the retained output from the client's offset in bounded
  chunks until one reaches the tip, and then the live half.

  Each of these takes the capture lock for itself, and the subscription takes no lock at all,
  so that the process may write between any two of them. A run is a list of events: the steps
  of the open, and what happens to the terminal and the live loop.

  Proved: `catch_up_iff`; `a_write_before_the_subscription_is_lost` is a run that fails.
-/

import TddyCoder.Machine.Guarded
import TddyCoder.Terminal.LiveBridge

namespace TddyCoder.Terminal

open Concurrency Machine List

/-! ## The open -/

inductive Stage
  | prologue
  | tip
  | replay (cursor : Nat) (anchored : Bool)
  | subscribe

inductive Phase
  | opening (session : Session) (stage : Stage)
  | live (bridge : Bridge SessionTerminalOutput)

/-- `anchor` is where the replay is to begin: the client's offset, not beyond the tip and not before the oldest byte
    that was retained when the tip was read. -/
structure Reconnect where
  prologue : List SessionTerminalOutput
  anchor : Nat
  replayed : List SessionTerminalOutput
  phase : Phase

inductive OpenEvent
  | advance
  | bridge (event : BridgeEvent)

namespace Reconnect

variable (identity : FrameIdentity) (fromOffset frameBytes : Nat)

def start (session : Session) : Reconnect := ⟨[], 0, [], .opening session .prologue⟩

variable (r : Reconnect)

def readPrologue (session : Session) : Reconnect :=
  let prologue := session.capture.modePrologue
  { r with
    prologue := if prologue.isEmpty then [] else [identity.dataFrame prologue]
    phase := .opening session .tip }

def readTip (session : Session) : Reconnect :=
  let cursor := min fromOffset session.capture.endOffset
  { r with
    anchor := max cursor session.capture.startOffset
    phase := .opening session (.replay cursor false) }

/-- One turn of the loop: a frame for the chunk, unless it is empty and the client is anchored. -/
def replayChunk (session : Session) (cursor : Nat) (anchored : Bool) : Reconnect :=
  let chunk := session.capture.replayFrom cursor 0 frameBytes
  { r with
    replayed := if !chunk.data.isEmpty || !anchored then r.replayed ++ [identity.initialReplayFrame chunk] else r.replayed
    phase := .opening session (if chunk.atEnd then .subscribe else .replay chunk.endOffset true) }

/-- `subscribe_stdout` takes no lock: what was written since the last chunk is behind the receiver. -/
def goLive (session : Session) : Reconnect :=
  { r with phase := .live (Bridge.openTail identity.wire session) }

def advance : Reconnect :=
  match r.phase with
  | .opening session .prologue => r.readPrologue identity session
  | .opening session .tip => r.readTip fromOffset session
  | .opening session (.replay cursor anchored) => r.replayChunk identity frameBytes session cursor anchored
  | .opening session .subscribe => r.goLive identity session
  | .live _ => r

/-- The live loop does not run before the open is done; the terminal does. -/
def bridge (event : BridgeEvent) : Reconnect :=
  match r.phase, event with
  | .live b, event => { r with phase := .live (b.step identity.wire event) }
  | .opening session stage, .session event => { r with phase := .opening (session.after event) stage }
  | .opening _ _, _ => r

def step : OpenEvent → Reconnect
  | .advance => r.advance identity fromOffset frameBytes
  | .bridge event => r.bridge identity event

/-! ## What is assumed and what is asked of a run -/

/-- Nothing is evicted while the capture is replayed, and the live receiver does not lag. -/
def Undisturbed : OpenEvent → Prop
  | .bridge (.session event) =>
    ∀ session cursor anchored, r.phase = .opening session (.replay cursor anchored) →
      (session.after event).capture.startOffset = session.capture.startOffset
  | .bridge (.select (.recv _)) =>
    ∀ b rx, r.phase = .live b → b.session.broadcast.recv b.live.rx ≠ (.lagged, rx)
  | _ => True

/-- No byte is written between the last chunk and the subscription. -/
def Seamless : OpenEvent → Prop
  | .bridge (.session event) => ∀ session, r.phase = .opening session .subscribe → event.written = []
  | _ => True

def replayedBytes : List UInt8 := r.replayed.flatMap (·.data)

variable (b : Bridge SessionTerminalOutput)

def liveBytes : List UInt8 := b.sent.flatMap (·.frame.data)

/-- What the client has been sent, and what waits for the live loop to send it, is the output from the anchor on. -/
def Gapless : Prop :=
  r.replayedBytes ++ liveBytes b ++ (b.session.broadcast.pending b.live.rx).flatten = b.session.output.drop r.anchor

instance : Decidable (r.Gapless b) :=
  inferInstanceAs (Decidable (_ = _))

/-! ## What every state keeps -/

/-- The bytes are the output from the anchor on, as far as they go. -/
structure Replays (anchor : Nat) (bytes output : List UInt8) : Prop where
  reads : bytes <+: output.drop anchor
  within : anchor + bytes.length ≤ output.length

/-- A stream that subscribed when the output had come to `subscribed`: its live half is the output from there on. -/
structure Joins (anchor : Nat) (bytes : List UInt8) (b : Bridge SessionTerminalOutput) (subscribed : Nat) : Prop where
  replays : Replays anchor bytes b.session.output
  seam : anchor + bytes.length ≤ subscribed
  streams : b.Streams identity.wire subscribed
  unstamped : b.stamped = false
  live : b.follower.Exact subscribed

def Sound : Prop :=
  match r.phase with
  | .opening _ .prologue => r.replayedBytes = []
  | .opening _ .tip => r.replayedBytes = []
  | .opening session (.replay cursor _) =>
    cursor ≤ session.output.length ∧ Replays r.anchor r.replayedBytes session.output ∧
      r.anchor + r.replayedBytes.length = max cursor session.capture.startOffset
  | .opening session .subscribe => Replays r.anchor r.replayedBytes session.output
  | .live b => ∃ subscribed, Joins identity r.anchor r.replayedBytes b subscribed

/-- What has been replayed when the open is about to subscribe reaches the tip, and a live stream has no gap. -/
def Closed : Prop :=
  match r.phase with
  | .opening session .subscribe => r.anchor + r.replayedBytes.length = session.output.length
  | .live b => r.Gapless b
  | _ => True

variable {identity fromOffset frameBytes} {r : Reconnect} {anchor : Nat} {bytes output : List UInt8}

section

variable (h : Replays anchor bytes output)
include h

theorem Replays.grow (more : List UInt8) : Replays anchor bytes (output ++ more) := by
  refine ⟨?_, by rw [length_append]; exact Nat.le_add_right_of_le h.within⟩
  rw [drop_append_of_le_length (Nat.le_trans (Nat.le_add_right _ _) h.within)]
  exact h.reads.trans (prefix_append _ _)

theorem Replays.rest :
    bytes ++ output.drop (anchor + bytes.length) = output.drop anchor := by
  obtain ⟨rest, hrest⟩ := h.reads
  rw [← drop_drop, ← hrest, drop_left]

theorem Replays.extend {stop : Nat} (hle : anchor + bytes.length ≤ stop)
    (hstop : stop ≤ output.length) :
    Replays anchor (bytes ++ output.extract (anchor + bytes.length) stop) output ∧
      anchor + (bytes ++ output.extract (anchor + bytes.length) stop).length = stop := by
  have hlength : anchor + (bytes ++ output.extract (anchor + bytes.length) stop).length = stop := by
    rw [length_append, extract_eq_take_drop, length_take, length_drop]
    omega
  refine ⟨⟨?_, Nat.le_trans (Nat.le_of_eq hlength) hstop⟩, hlength⟩
  rw [← h.rest, extract_eq_take_drop, prefix_append_right_inj]
  exact take_prefix _ _

end

theorem shows_data {item : Sent SessionTerminalOutput} (h : item.Shows identity.wire false) :
    item.frame.data = (item.told.map Told.data).getD [] ∧ item.frame.endOffset = 0 := by
  unfold Sent.Shows at h
  split at h
  · rename_i start data htold
    simp [h, htold, FrameIdentity.wire, FrameIdentity.liveFrame, FrameIdentity.dataFrame, Told.data]
  · exact absurd h.1 (by simp)
  rename_i htold
  obtain ⟨n, hn⟩ := h
  rw [htold]
  exact FrameIdentity.note_data hn

variable {b : Bridge SessionTerminalOutput} {event : BridgeEvent} {subscribed : Nat}

theorem liveBytes_eq (hunstamped : b.stamped = false)
    (hshows : ∀ item ∈ b.sent, item.Shows identity.wire b.stamped) :
    liveBytes b = b.follower.told.flatMap Told.data := by
  rw [hunstamped] at hshows
  unfold liveBytes Bridge.follower
  generalize b.sent = sent at hshows
  induction sent with
  | nil => rfl
  | cons item sent ih =>
    have hitem := (shows_data (hshows item mem_cons_self)).1
    have hrest := ih fun item hmem => hshows item (mem_cons_of_mem _ hmem)
    rw [flatMap_cons, hitem, hrest]
    cases htold : item.told with
    | none | some t => simp [htold]

theorem Joins.gapless_iff
    (h : Joins identity r.anchor r.replayedBytes b subscribed) :
    r.Gapless b ↔ r.anchor + r.replayedBytes.length = subscribed := by
  have hwithin : subscribed ≤ b.session.output.length := Nat.le_trans h.streams.onward h.streams.sound.within
  have hlive : liveBytes b ++ (b.session.broadcast.pending b.live.rx).flatten = b.session.output.drop subscribed := by
    rw [liveBytes_eq h.unstamped h.streams.shows, ← Session.drop_offsetAt]
    exact h.live.rest
  rw [Gapless, append_assoc, hlive, ← h.replays.rest, append_cancel_left_eq]
  constructor
  · intro hdrop
    have hlength := congrArg List.length hdrop
    have hreplayed := h.replays.within
    simp only [length_drop] at hlength
    omega
  · rintro rfl
    rfl

/-! ## One step -/

theorem Joins.step (h : Joins identity anchor bytes b subscribed)
    (hlag : ∀ screen rx, event = .select (.recv screen) →
      b.session.broadcast.recv b.live.rx ≠ (.lagged, rx)) :
    Joins identity anchor bytes (b.step identity.wire event) subscribed := by
  have hfollows : Bridge.Follows identity.wire b (b.step identity.wire event) :=
    Bridge.step_follows h.streams.tracks event
  have hmoves (htold : (b.step identity.wire event).follower.told = b.follower.told) :
      (b.step identity.wire event).follower.pos = b.follower.pos := by
    rcases Bridge.step_moves h.streams.tracks htold with hpos | ⟨screen, rx, hevent, -, -, hrecv, -⟩
    · exact hpos
    · exact absurd hrecv (hlag screen rx hevent)
  refine ⟨?_, h.seam, h.streams.follow hfollows, hfollows.stamped.trans h.unstamped, ?_⟩
  · obtain ⟨more, hmore⟩ := @Bridge.step_output _ identity.wire b event
    rw [hmore]
    exact h.replays.grow more
  · exact h.live.step h.streams.sound (h.unstamped ▸ hfollows.moves) hmoves

theorem replayChunk_bytes (session : Session) (cursor : Nat) (anchored : Bool) :
    (r.replayChunk identity frameBytes session cursor anchored).replayedBytes =
      r.replayedBytes ++ (session.capture.replayFrom cursor 0 frameBytes).data := by
  unfold replayChunk replayedBytes
  simp only
  split
  · simp [FrameIdentity.initialReplayFrame, FrameIdentity.dataFrame]
  · rename_i hnone
    have hempty : (session.capture.replayFrom cursor 0 frameBytes).data = [] := by simp_all
    rw [hempty, append_nil]

section

variable {session : Session} {cursor : Nat} {anchored : Bool}
  (hphase : r.phase = .opening session (.replay cursor anchored)) (h : r.Sound identity)
include hphase h

theorem Sound.extend :
    r.anchor + r.replayedBytes.length ≤ (session.capture.replayFrom cursor 0 frameBytes).endOffset ∧
      Replays r.anchor (r.replayChunk identity frameBytes session cursor anchored).replayedBytes session.output ∧
      r.anchor + (r.replayChunk identity frameBytes session cursor anchored).replayedBytes.length =
        (session.capture.replayFrom cursor 0 frameBytes).endOffset := by
  simp only [Sound, hphase] at h
  obtain ⟨hcursor, hreplays, hpos⟩ := h
  obtain ⟨hstart, hle, hdata, hend, -⟩ := TerminalCapture.replayFrom_spec session.window cursor frameBytes
  rw [hstart, ← hpos] at hle
  rw [replayChunk_bytes, hdata, hstart, ← hpos]
  exact ⟨hle, hreplays.extend hle (hend hcursor)⟩

theorem Sound.replayChunk :
    let next := r.replayChunk identity frameBytes session cursor anchored
    next.Sound identity ∧ next.Closed := by
  intro next
  obtain ⟨hle, hnext, hreached⟩ := @Sound.extend _ frameBytes _ _ _ _ hphase h
  simp only [Sound, hphase] at h
  obtain ⟨hcursor, -, hpos⟩ := h
  have hanchor : next.anchor = r.anchor := rfl
  obtain ⟨-, -, -, hend, hatEnd⟩ := TerminalCapture.replayFrom_spec session.window cursor frameBytes
  have holdest : session.capture.startOffset ≤ (session.capture.replayFrom cursor 0 frameBytes).endOffset := by omega
  by_cases hlast : (session.capture.replayFrom cursor 0 frameBytes).atEnd = true
  · -- the last chunk ends at the tip, which stays closed until something is written
    have hphase' : next.phase = .opening session .subscribe := by simp [next, Reconnect.replayChunk, hlast]
    simp only [Sound, Closed, hphase', hanchor]
    exact ⟨hnext, hreached.trans (Nat.le_antisymm (hend hcursor) (hatEnd.mp hlast))⟩
  have hphase' : next.phase =
      .opening session (.replay (session.capture.replayFrom cursor 0 frameBytes).endOffset true) := by
    simp [next, Reconnect.replayChunk, hlast]
  simp only [Sound, Closed, hphase', hanchor, and_true]
  exact ⟨hend hcursor, hnext, hreached.trans (Nat.max_eq_left holdest).symm⟩

end

theorem Sound.readTip {session : Session} (hphase : r.phase = .opening session .tip) (h : r.Sound identity) :
    (r.readTip fromOffset session).Sound identity := by
  simp only [Sound, hphase] at h
  have hbytes : (r.readTip fromOffset session).replayedBytes = [] := h
  have htip : session.capture.endOffset = session.output.length := session.window.tip
  have holdest : session.capture.startOffset ≤ session.output.length := session.window.oldest
  have hphase' : (r.readTip fromOffset session).phase =
      .opening session (.replay (min fromOffset session.capture.endOffset) false) := rfl
  have hanchor : (r.readTip fromOffset session).anchor =
      max (min fromOffset session.capture.endOffset) session.capture.startOffset := rfl
  simp only [Sound, hphase', hbytes, hanchor]
  exact ⟨by omega, ⟨List.nil_prefix, by rw [length_nil]; omega⟩, rfl⟩

theorem Sound.goLive {session : Session} (hphase : r.phase = .opening session .subscribe) (h : r.Sound identity) :
    (r.goLive identity session).Sound identity ∧ ((r.goLive identity session).Closed ↔ r.Closed) := by
  simp only [Sound, hphase] at h
  obtain ⟨hsession, hlive, -, hfollower⟩ :=
    @Bridge.spawn_spec _ identity.wire session ⟨session.broadcast.subscribe, none⟩ []
  have hjoins : Joins identity r.anchor r.replayedBytes (Bridge.openTail identity.wire session)
      session.output.length := by
    refine ⟨?_, h.within, Bridge.openTail_streams session, ?_, ?_⟩
    · rw [Bridge.openTail, hsession]
      exact h
    · rw [Bridge.stamped, Bridge.openTail, hlive]
      rfl
    · rw [Bridge.openTail, hfollower, session.offsetAt_subscribe]
      exact ⟨Nat.le_refl _, by simp [extract_eq_take_drop]⟩
  refine ⟨⟨_, hjoins⟩, ?_⟩
  have hclosed : r.Closed ↔ r.anchor + r.replayedBytes.length = session.output.length := by simp only [Closed, hphase]
  rw [hclosed]
  exact hjoins.gapless_iff

theorem Sound.advance (h : r.Sound identity) : (r.advance identity fromOffset frameBytes).Sound identity ∧
      ((r.advance identity fromOffset frameBytes).Closed ↔ r.Closed) := by
  unfold Reconnect.advance
  split
  · rename_i session hphase
    simp only [Sound, Closed, hphase] at h ⊢
    exact ⟨h, Iff.rfl⟩
  · rename_i session hphase
    exact ⟨h.readTip hphase, by simp [Closed, Reconnect.readTip, hphase]⟩
  · rename_i session cursor anchored hphase
    obtain ⟨hsound, hclosed⟩ := h.replayChunk hphase
    have hopen : r.Closed := by simp only [Closed, hphase]
    exact ⟨hsound, iff_of_true hclosed hopen⟩
  · rename_i session hphase
    exact h.goLive hphase
  · exact ⟨h, Iff.rfl⟩

theorem Sound.session {session : Session} {stage : Stage} (hphase : r.phase = .opening session stage)
    (h : r.Sound identity) {event : SessionEvent} (hgiven : r.Undisturbed (.bridge (.session event))) :
    Sound identity { r with phase := .opening (session.after event) stage } ∧
      (Closed { r with phase := .opening (session.after event) stage } ↔
        r.Closed ∧ r.Seamless (.bridge (.session event))) := by
  have houtput := session.output_after event
  cases stage with
  | prologue | tip =>
    simp only [Sound, Closed, Seamless, hphase] at h ⊢
    exact ⟨h, by simp⟩
  | replay cursor anchored =>
    simp only [Sound, Closed, Seamless, hphase] at h ⊢
    obtain ⟨hcursor, hreplays, hpos⟩ := h
    rw [hgiven session cursor anchored hphase, houtput, length_append]
    exact ⟨⟨Nat.le_add_right_of_le hcursor, hreplays.grow event.written, hpos⟩, by simp⟩
  | subscribe =>
    simp only [Sound, Closed, Seamless, hphase] at h ⊢
    rw [houtput, length_append]
    refine ⟨h.grow event.written, ?_⟩
    have hwithin := h.within
    have hempty : event.written = [] ↔ event.written.length = 0 := length_eq_zero_iff.symm
    simp only [Phase.opening.injEq, and_true, forall_eq', hempty]
    change r.anchor + r.replayedBytes.length = session.output.length + event.written.length ↔ _
    omega

theorem Sound.live (hphase : r.phase = .live b) (h : r.Sound identity)
    (hgiven : r.Undisturbed (.bridge event)) :
    Sound identity { r with phase := .live (b.step identity.wire event) } ∧
      (Closed { r with phase := .live (b.step identity.wire event) } ↔ r.Closed) := by
  simp only [Sound, hphase] at h
  obtain ⟨subscribed, hjoins⟩ := h
  have hlag : ∀ screen rx, event = .select (.recv screen) →
      b.session.broadcast.recv b.live.rx ≠ (.lagged, rx) := by
    rintro screen rx rfl
    exact hgiven b rx hphase
  have hclosed : r.Closed ↔ r.Gapless b := by simp only [Closed, hphase]
  rw [hclosed, hjoins.gapless_iff]
  exact ⟨⟨subscribed, hjoins.step hlag⟩, (hjoins.step hlag).gapless_iff⟩

theorem Sound.bridge (h : r.Sound identity) (hgiven : r.Undisturbed (.bridge event)) :
    (r.bridge identity event).Sound identity ∧
      ((r.bridge identity event).Closed ↔ r.Closed ∧ r.Seamless (.bridge event)) := by
  cases hphase : r.phase with
  | live b =>
    have hseamless : r.Seamless (.bridge event) := by
      cases event with
      | session event => exact fun session hopening => by simp [hphase] at hopening
      | _ => trivial
    rw [and_iff_left hseamless]
    simp only [Reconnect.bridge, hphase]
    exact h.live hphase hgiven
  | opening session stage =>
    cases event <;> simp only [Reconnect.bridge, hphase]
    case session => exact h.session hphase hgiven
    all_goals exact ⟨h, (and_iff_left trivial).symm⟩

theorem Sound.step (h : r.Sound identity) {event : OpenEvent} (hgiven : r.Undisturbed event) :
    (r.step identity fromOffset frameBytes event).Sound identity ∧
      ((r.step identity fromOffset frameBytes event).Closed ↔ r.Closed ∧ r.Seamless event) := by
  cases event with
  | advance =>
    obtain ⟨hsound, hclosed⟩ := @Sound.advance identity fromOffset frameBytes r h
    have hseamless : r.Seamless .advance := trivial
    exact ⟨hsound, hclosed.trans (and_iff_left hseamless).symm⟩
  | bridge event => exact h.bridge hgiven

theorem start_sound (session : Session) : (start session).Sound identity := rfl

/-! ## Whole runs -/

/-- A reconnected stream has the output from the anchor on, without a gap, exactly when no byte was written between its
    last chunk and its subscription. -/
theorem catch_up_iff {session : Session} {events : List OpenEvent}
    (hgiven : Guarded (step identity fromOffset frameBytes) Undisturbed (start session) events)
    {b : Bridge SessionTerminalOutput}
    (hlive : (events.foldl (step identity fromOffset frameBytes) (start session)).phase = .live b) :
    (events.foldl (step identity fromOffset frameBytes) (start session)).Gapless b ↔
      Guarded (step identity fromOffset frameBytes) Seamless (start session) events := by
  have hclosed := kept_iff_guarded (fun _ _ h hok => (Sound.step h hok).1) (fun _ _ h hok => (Sound.step h hok).2)
    (start_sound session) hgiven
  simp only [Closed, hlive] at hclosed
  rw [hclosed]
  exact and_iff_right trivial

/-- A byte is replayed, and another one written and received when the stream is live. -/
theorem catch_up_iff_quiet :
    let events : List OpenEvent := [.bridge (.session (.write [0x78])), .advance, .advance, .advance, .advance,
      .bridge (.session (.write [0x79])), .bridge (.select (.recv ⟨[], 0, 0⟩))]
    let r := events.foldl (step ⟨"s", "main"⟩ 0 8192) (start .new)
    ∃ b, r.phase = .live b ∧ r.replayedBytes = [0x78] ∧ liveBytes b = [0x79] ∧
      (r.Gapless b ↔ Guarded (step ⟨"s", "main"⟩ 0 8192) Seamless (start .new) events) := by
  refine ⟨_, rfl, rfl, rfl, catch_up_iff ?_ rfl⟩
  refine ⟨(fun _ _ _ hphase => nomatch hphase), trivial, trivial, trivial, trivial,
    (fun _ _ _ hphase => nomatch hphase), ?_, trivial⟩
  intro b rx hphase hlag
  obtain rfl := Phase.live.inj (Eq.trans rfl hphase)
  cases congrArg Prod.fst hlag

/-- The open has replayed all there is, the process writes a byte, and then the open subscribes. -/
theorem a_write_before_the_subscription_is_lost :
    Guarded (step ⟨"s", "main"⟩ 0 8192) Undisturbed (start .new)
      [.advance, .advance, .advance, .bridge (.session (.write [0x78])), .advance] ∧
    ∃ b, ([.advance, .advance, .advance, .bridge (.session (.write [0x78])), .advance].foldl
        (step ⟨"s", "main"⟩ 0 8192) (start .new)).phase = .live b ∧
      b.session.output = [0x78] ∧ b.sent = [] ∧ b.session.broadcast.pending b.live.rx = [] ∧
      ([.advance, .advance, .advance, .bridge (.session (.write [0x78])), .advance].foldl
        (step ⟨"s", "main"⟩ 0 8192) (start .new)).replayedBytes = [] ∧
      ¬ ([.advance, .advance, .advance, .bridge (.session (.write [0x78])), .advance].foldl
        (step ⟨"s", "main"⟩ 0 8192) (start .new)).Gapless b := by
  exact ⟨⟨trivial, trivial, trivial, (fun _ _ _ hphase => nomatch hphase), trivial, trivial⟩,
    _, rfl, rfl, rfl, rfl, rfl, by decide⟩

end Reconnect

end TddyCoder.Terminal
