/-
  TddyCoder.Terminal.StreamOffset — up to which offset a web client has received a terminal's
  output (`packages/tddy-web/src/lib/terminalStreamOffset.ts`), over the frames of an open in
  `TAIL` or `FROM_OFFSET` mode (`open_replay_ack_live` of
  `packages/tddy-terminal-rpc/src/bridge.rs`).

  A frame with an end offset sets the counter, and only behind one are the others counted. The
  end offset of a terminal that has printed nothing is 0, which is taken for none: what it
  prints then is not counted. A resize that drains the live receiver loses output: it is left out.

  Proved: `the_counter_follows_the_stream_iff`, over every run of either open.
  `a_first_byte_is_not_counted` is a run after which the counter is behind.
-/

import TddyCoder.Terminal.CatchUp

namespace TddyCoder.Terminal

open Machine List

structure TerminalStreamOffset where
  offset : Nat
  anchored : Bool := false

def TerminalStreamOffset.accept (c : TerminalStreamOffset) (frame : SessionTerminalOutput) : TerminalStreamOffset :=
  if frame.endOffset > 0 then ⟨frame.endOffset, true⟩
  else if c.anchored then { c with offset := c.offset + frame.data.length }
  else c

/-- The newest bytes, up to the tip. -/
def TerminalCapture.replayLast (c : TerminalCapture) (maxBytes : Nat) : CaptureChunk :=
  let start := c.buffer.length - min maxBytes c.buffer.length
  ⟨c.buffer.drop start, c.startOffset + start, c.endOffset, start = 0, true⟩

def Stage.anchored : Stage → Bool
  | .prologue | .tip => false
  | .replay _ anchored => anchored
  | .subscribe => true

def Phase.anchored : Phase → Bool
  | .opening _ stage => stage.anchored
  | .live _ => true

namespace Reconnect

open TerminalStreamOffset

variable (identity : FrameIdentity) (frameBytes : Nat)

/-- The open in `TAIL` mode, about to subscribe. -/
def openAtTail (session : Session) : Reconnect :=
  let prologue := session.capture.modePrologue
  let lastFrame := session.capture.replayLast frameBytes
  { prologue := if prologue.isEmpty then [] else [identity.dataFrame prologue]
    anchor := lastFrame.startOffset
    replayed := if !lastFrame.data.isEmpty || lastFrame.atOldest then [identity.initialReplayFrame lastFrame] else []
    phase := .opening session .subscribe }

/-- The frames of a stream that is live. -/
def received (r : Reconnect) (b : Bridge SessionTerminalOutput) : List SessionTerminalOutput :=
  r.prologue ++ r.replayed ++ b.sent.map (·.frame)

/-- The last chunk that was sent ends where the replay has come to, and no frame before it ends further on. -/
def Anchored (r : Reconnect) : Prop :=
  (∀ frame ∈ r.prologue, frame.endOffset = 0) ∧
  if r.phase.anchored then
    ∃ sent frame, r.replayed = sent ++ [frame] ∧ frame.endOffset = r.anchor + r.replayedBytes.length ∧
      ∀ earlier ∈ sent, earlier.endOffset ≤ frame.endOffset
  else r.replayed = []

variable {identity frameBytes} {fromOffset subscribed : Nat} {r : Reconnect} {session : Session}
  {b : Bridge SessionTerminalOutput}

theorem prologue_endOffset (prologue : List UInt8) :
    ∀ frame ∈ (if prologue.isEmpty then [] else [identity.dataFrame prologue]), frame.endOffset = 0 := by
  intro frame hframe
  split at hframe
  · cases hframe
  · rw [mem_singleton.mp hframe]
    rfl

theorem Anchored.replayChunk {cursor : Nat} {anchored : Bool}
    (hphase : r.phase = .opening session (.replay cursor anchored)) (hsound : r.Sound identity) (h : r.Anchored) :
    (r.replayChunk identity frameBytes session cursor anchored).Anchored := by
  obtain ⟨-, -, hreached⟩ := @Sound.extend identity frameBytes r session cursor anchored hphase hsound
  have hbytes := @replayChunk_bytes identity frameBytes r session cursor anchored
  refine ⟨h.1, (if_pos ?_).mpr ?_⟩
  · cases hend : (session.capture.replayFrom cursor 0 frameBytes).atEnd <;>
      simp [Reconnect.replayChunk, Phase.anchored, Stage.anchored, hend]
  have hlast := h.2
  rw [hphase] at hlast
  by_cases hsent : (!(session.capture.replayFrom cursor 0 frameBytes).data.isEmpty || !anchored) = true
  · refine ⟨r.replayed, _, if_pos hsent, hreached.symm, fun earlier hearlier => ?_⟩
    cases anchored with
    | false => cases hlast ▸ hearlier
    | true =>
      obtain ⟨sent, frame, hreplayed, hend, hbefore⟩ := hlast
      have hstop : frame.endOffset ≤ r.anchor + (r.replayChunk identity frameBytes session cursor true).replayedBytes.length := by
        rw [hend, hbytes, length_append]
        omega
      refine Nat.le_trans ?_ (hstop.trans_eq hreached)
      rw [hreplayed] at hearlier
      rcases mem_append.mp hearlier with hearlier | hearlier
      · exact hbefore earlier hearlier
      · rw [mem_singleton.mp hearlier]
  obtain ⟨hempty, rfl⟩ : (session.capture.replayFrom cursor 0 frameBytes).data = [] ∧ anchored = true := by
    simpa using hsent
  obtain ⟨sent, frame, hreplayed, hend, hbefore⟩ := hlast
  rw [hempty, append_nil] at hbytes
  exact ⟨sent, frame, (if_neg hsent).trans hreplayed, by rw [hbytes]; exact hend, hbefore⟩

theorem Anchored.step (hsound : r.Sound identity) (h : r.Anchored) (event : OpenEvent) :
    (r.step identity fromOffset frameBytes event).Anchored := by
  obtain ⟨hprologue, hlast⟩ := h
  cases hphase : r.phase with
  | live b =>
    rw [hphase] at hlast
    cases event <;> simp only [Reconnect.step, advance, Reconnect.bridge, hphase]
    · exact ⟨hprologue, hphase ▸ hlast⟩
    · exact ⟨hprologue, hlast⟩
  | opening session stage =>
    cases event with
    | bridge event =>
      rw [hphase] at hlast
      cases event <;> simp only [Reconnect.step, Reconnect.bridge, hphase]
      case session => exact ⟨hprologue, hlast⟩
      all_goals exact ⟨hprologue, hphase ▸ hlast⟩
    | advance =>
      cases stage <;> simp only [Reconnect.step, advance, hphase]
      case replay => exact Anchored.replayChunk hphase hsound ⟨hprologue, hlast⟩
      all_goals rw [hphase] at hlast
      case prologue => exact ⟨prologue_endOffset _, hlast⟩
      all_goals exact ⟨hprologue, hlast⟩

theorem openAtTail_kept (hframe : 0 < frameBytes) (session : Session) :
    let opened := openAtTail identity frameBytes session
    opened.Sound identity ∧ opened.Anchored := by
  intro opened
  obtain ⟨htip, holdest, hbuffer⟩ := session.window
  have hlength := congrArg List.length hbuffer
  rw [length_drop] at hlength
  have hsent : opened.replayed = [identity.initialReplayFrame (session.capture.replayLast frameBytes)] := by
    refine if_pos ?_
    simp [TerminalCapture.replayLast]
    omega
  have hbytes : opened.replayedBytes = session.output.drop opened.anchor := by
    rw [replayedBytes, hsent]
    simp [FrameIdentity.initialReplayFrame, FrameIdentity.dataFrame, TerminalCapture.replayLast, hbuffer, opened,
      openAtTail, Session.output]
  have hstop : opened.anchor + opened.replayedBytes.length = session.output.length := by
    rw [hbytes, length_drop]
    simp only [opened, openAtTail, TerminalCapture.replayLast, Session.output] at holdest ⊢
    omega
  exact ⟨⟨hbytes ▸ prefix_refl _, Nat.le_of_eq hstop⟩, prologue_endOffset _,
    [], _, hsent, htip.trans hstop.symm, fun _ h => absurd h not_mem_nil⟩

theorem Joins.pos (h : Joins identity r.anchor r.replayedBytes b subscribed) :
    b.session.offsetAt b.live.rx = subscribed + (liveBytes b).length := by
  have hwithin : b.session.offsetAt b.live.rx ≤ b.session.output.length := h.streams.sound.within
  have honward : subscribed ≤ b.session.offsetAt b.live.rx := h.streams.onward
  rw [liveBytes_eq h.unstamped h.streams.shows, h.live.2, extract_eq_take_drop, length_take, length_drop]
  show _ = subscribed + min (b.session.offsetAt b.live.rx - subscribed) (b.session.output.length - subscribed)
  omega

theorem foldl_accept {frames : List SessionTerminalOutput} (h : ∀ frame ∈ frames, frame.endOffset = 0)
    (c : TerminalStreamOffset) :
    frames.foldl accept c = if c.anchored then ⟨c.offset + (frames.flatMap (·.data)).length, true⟩ else c := by
  induction frames generalizing c with
  | nil =>
    rcases c with ⟨offset, _ | _⟩
    · rfl
    · rfl
  | cons frame frames ih =>
    obtain ⟨hframe, hframes⟩ := forall_mem_cons.mp h
    rw [foldl_cons, ih hframes, accept, hframe, flatMap_cons, length_append, ← Nat.add_assoc]
    rcases c with ⟨offset, _ | _⟩
    · rfl
    · rfl

/-- Once all frames are accepted the counter stands at the end of what was sent exactly if the terminal had printed
    something when the stream went live, or the counter had begun at just as much as came live. -/
theorem the_counter_follows_the_stream_iff {r₀ : Reconnect} {events : List OpenEvent} (hframe : 0 < frameBytes)
    (hopen : r₀ = start session ∨ r₀ = openAtTail identity frameBytes session)
    (hgiven : Guarded (step identity fromOffset frameBytes) Undisturbed r₀ events)
    (hrun : events.foldl (step identity fromOffset frameBytes) r₀ = r) (hlive : r.phase = .live b)
    (hlossless : r.Gapless b) (seed : Nat) :
    ((r.received b).foldl accept ⟨seed, false⟩).offset = b.session.offsetAt b.live.rx ↔
      0 < r.anchor + r.replayedBytes.length ∨ seed = (liveBytes b).length := by
  have hfirst : r₀.Sound identity ∧ r₀.Anchored := by
    rcases hopen with rfl | rfl
    · exact ⟨start_sound session, fun _ h => absurd h not_mem_nil, rfl⟩
    · exact openAtTail_kept hframe session
  obtain ⟨hsound, hprologue, hanchored⟩ := @guarded_keeps _ _ _ _ _ _ (fun r => r.Sound identity ∧ r.Anchored)
    (fun r event h hok => ⟨(h.1.step hok).1, h.2.step h.1 event⟩) hfirst hgiven
  rw [hrun] at hsound hprologue hanchored
  rw [hlive] at hanchored
  simp only [Sound, hlive] at hsound
  obtain ⟨subscribed, hjoins⟩ := hsound
  obtain ⟨sent, frame, hreplayed, hend, hbefore⟩ := hanchored
  have hnotes : ∀ frame ∈ b.sent.map (·.frame), frame.endOffset = 0 := by
    refine forall_mem_map.mpr fun item hitem => ?_
    exact (shows_data (hjoins.unstamped ▸ hjoins.streams.shows item hitem)).2
  have hbytes : ((b.sent.map (·.frame)).flatMap (·.data)).length = (liveBytes b).length := by
    rw [flatMap_map]
    rfl
  rw [hjoins.pos, ← hjoins.gapless_iff.mp hlossless, ← hend, received, hreplayed]
  by_cases hprinted : 0 < frame.endOffset
  · refine iff_of_true ?_ (.inl hprinted)
    rw [foldl_append, foldl_append, foldl_append, foldl_cons, foldl_nil, accept, if_pos hprinted, foldl_accept hnotes,
      if_pos rfl, hbytes]
  -- no frame anchors the counter
  have hzero : frame.endOffset = 0 := Nat.eq_zero_of_not_pos hprinted
  have hsent : ∀ earlier ∈ sent ++ [frame], earlier.endOffset = 0 := by
    refine forall_mem_append.mpr ⟨fun earlier hearlier => ?_, forall_mem_singleton.mpr hzero⟩
    exact Nat.le_zero.mp (hzero ▸ hbefore earlier hearlier)
  rw [foldl_accept (forall_mem_append.mpr ⟨forall_mem_append.mpr ⟨hprologue, hsent⟩, hnotes⟩), if_neg (by simp), hzero]
  simp

theorem the_counter_stands_at_the_tip : ∃ r b, [.advance, .bridge (.session (.write [0x79]))].foldl
      (step ⟨"s", "main"⟩ 0 8192) (openAtTail ⟨"s", "main"⟩ 8192 (Session.new.write [0x78])) = r ∧ r.phase = .live b ∧
    ((r.received b).foldl accept ⟨0, false⟩).offset = b.session.offsetAt b.live.rx := by
  refine ⟨_, _, rfl, rfl, (the_counter_follows_the_stream_iff (by decide) (.inr rfl) ?_ rfl rfl (by decide) 0).mpr (.inl (by decide))⟩
  exact ⟨trivial, (fun _ _ _ hphase => nomatch hphase), trivial⟩

/-- The terminal prints its first byte when the stream is live: it is received, and the counter stays at 0, in either mode. -/
theorem a_first_byte_is_not_counted :
    let live : List OpenEvent := [.advance, .bridge (.session (.write [0x78])), .bridge (.select (.recv ⟨[], 0, 0⟩))]
    ∀ r ∈ [(.advance :: .advance :: .advance :: live).foldl (step ⟨"s", "main"⟩ 0 8192) (start .new),
        live.foldl (step ⟨"s", "main"⟩ 0 8192) (openAtTail ⟨"s", "main"⟩ 8192 .new)],
      ∃ b, r.phase = .live b ∧ r.Gapless b ∧ b.session.offsetAt b.live.rx = 1 ∧
        ((r.received b).foldl accept ⟨0, false⟩).offset = 0 := by
  intro live
  refine forall_mem_cons.mpr ⟨?_, forall_mem_singleton.mpr ?_⟩ <;> exact ⟨_, rfl, by decide, rfl, rfl⟩

end Reconnect

end TddyCoder.Terminal
