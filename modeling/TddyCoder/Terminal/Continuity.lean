/-
  TddyCoder.Terminal.Continuity — what the browser paints of a snapshot stream
  (`packages/tddy-web/src/lib/terminalFrameContinuity.ts`, `rpc/connections/terminalFeed.ts`),
  over the live bridge that sends it and a wire that may lose any of its frames.

  The guard paints a snapshot always, and a data frame that starts where the last painted frame
  ended. Any other it drops, asking for a snapshot the first time.

  Proved: `snapshot_stream_consistent`; but `a_lost_snapshot_is_not_asked_for_again`.
-/

import TddyCoder.Terminal.LiveBridge

namespace TddyCoder.Terminal

open Machine List FrameIdentity

/-! ## The guard -/

inductive ContinuityVerdict
  | paint | gap

inductive FrameAction
  | paint | drop | dropAndAsk
  deriving DecidableEq

structure TerminalFrameContinuity where
  nextStart : Option Nat
  snapshotAsked : Bool

namespace TerminalFrameContinuity

def new : TerminalFrameContinuity := ⟨none, false⟩

def accept (c : TerminalFrameContinuity) (frame : SessionTerminalOutput) :
    ContinuityVerdict × TerminalFrameContinuity :=
  if frame.snapshot then (.paint, { c with nextStart := some frame.endOffset })
  else if c.nextStart.isNone || some frame.startOffset != c.nextStart then (.gap, { c with nextStart := none })
  else (.paint, { c with nextStart := some frame.endOffset })

def route (c : TerminalFrameContinuity) (frame : SessionTerminalOutput) : FrameAction × TerminalFrameContinuity :=
  match c.accept frame with
  | (.paint, c) => (.paint, if frame.snapshot then { c with snapshotAsked := false } else c)
  | (.gap, c) => if c.snapshotAsked then (.drop, c) else (.dropAndAsk, { c with snapshotAsked := true })

end TerminalFrameContinuity

/-! ## The feed -/

/-- A frame the guard has judged. -/
structure Judged where
  action : FrameAction
  frame : SessionTerminalOutput

/-- `requested` counts the requests sent up; `requestedAt` is how much had been judged when the last one was. -/
structure Feed where
  sessionId : String
  terminalId : String
  continuity : TerminalFrameContinuity
  snapshotWanted : Bool
  judged : List Judged
  requested : Nat
  requestedAt : Nat

namespace Feed

def new (sessionId terminalId : String) : Feed := ⟨sessionId, terminalId, .new, false, [], 0, 0⟩

def isFrameForTerminal (f : Feed) (frame : SessionTerminalOutput) : Bool :=
  if frame.sessionId = "" || frame.terminalId = "" then false
  else frame.sessionId = f.sessionId && frame.terminalId = resolvedTerminalId f.terminalId

/-- `refusals.observe`: a frame that says an input was refused carries no output. -/
def isRefusal (frame : SessionTerminalOutput) : Bool := frame.inputRefusal != ""

/-- One that carries neither bytes nor an offset says what input was applied. -/
def isAck (frame : SessionTerminalOutput) : Bool := frame.data.length = 0 && frame.endOffset = 0

def receive (f : Feed) (frame : SessionTerminalOutput) : Feed :=
  if !f.isFrameForTerminal frame then f
  else if isRefusal frame then f
  else if isAck frame then f
  else
    let (action, continuity) := f.continuity.route frame
    { f with
      continuity := continuity
      snapshotWanted := f.snapshotWanted || decide (action = .dropAndAsk)
      judged := f.judged ++ [⟨action, frame⟩] }

/-- The request half sends the message that is wanted, if one is. -/
def request (f : Feed) : Feed :=
  if f.snapshotWanted then
    { f with snapshotWanted := false, requested := f.requested + 1, requestedAt := f.judged.length }
  else f

end Feed

/-! ## The stream -/

/-- `taken` frames of those sent have left the wire, and `arrived` of the requests have reached the daemon. -/
structure SnapshotStream where
  bridge : Bridge SessionTerminalOutput
  taken : Nat
  arrived : Nat
  feed : Feed

inductive LinkEvent
  | bridge (event : BridgeEvent)
  | deliver
  | lose
  | request
  | arrive

namespace SnapshotStream

variable (identity : FrameIdentity)

def step (s : SnapshotStream) : LinkEvent → SnapshotStream
  | .bridge event => { s with bridge := s.bridge.step identity.wire event }
  | .deliver =>
    match s.bridge.sent[s.taken]? with
    | some item => { s with taken := s.taken + 1, feed := s.feed.receive item.frame }
    | none => s
  | .lose => if s.taken < s.bridge.sent.length then { s with taken := s.taken + 1 } else s
  | .request => { s with feed := s.feed.request }
  | .arrive =>
    if s.arrived < s.feed.requested then
      { s with bridge := s.bridge.step identity.wire .requestSnapshot, arrived := s.arrived + 1 }
    else s

def start (session : Session) (screen : Screen) (sessionId terminalId : String) : SnapshotStream :=
  ⟨Bridge.openSnapshot (FrameIdentity.new sessionId terminalId).wire session screen, 0, 0,
    Feed.new sessionId terminalId⟩

def run (session : Session) (screen : Screen) (sessionId terminalId : String) (events : List LinkEvent) :
    SnapshotStream :=
  events.foldl (step (FrameIdentity.new sessionId terminalId)) (start session screen sessionId terminalId)

end SnapshotStream

/-! ## What is asked of the record -/

/-- Data frames that follow one another from `start` to `stop`, each with the output it is stamped with. -/
def Contiguous (output : List UInt8) : Nat → List SessionTerminalOutput → Nat → Prop
  | start, [], stop => stop = start
  | start, frame :: frames, stop =>
    frame.snapshot = false ∧ frame.startOffset = start ∧ start ≤ frame.endOffset ∧
      frame.data = output.extract start frame.endOffset ∧ Contiguous output frame.endOffset frames stop

/-- Frames that are dropped: the first asks for a snapshot, and no other does. -/
def AsksOnce : List Judged → Prop
  | [] => True
  | first :: rest => first.action = .dropAndAsk ∧ ∀ judged ∈ rest, judged.action = .drop

/-- What follows a snapshot of the output up to `start`, until the next snapshot: frames that continue it, then dropped
    ones. -/
def Stretch (output : List UInt8) (start : Nat) (judged : List Judged) : Prop :=
  ∃ painted dropped stop, judged = painted.map (⟨.paint, ·⟩) ++ dropped ∧ Contiguous output start painted stop ∧
    painted.flatMap (·.data) = output.extract start stop ∧ AsksOnce dropped

/-- Every snapshot is painted, and what follows it up to the next one is a stretch; before the first one all is dropped.
    The guard has asked for a snapshot while a frame has been dropped since the last one. -/
structure Consistent (identity : FrameIdentity) (output : List UInt8) (f : Feed) : Prop where
  stretch : ∀ before shown rest, f.judged = before ++ shown :: rest → shown.frame.snapshot = true →
    (∀ judged ∈ rest, judged.frame.snapshot = false) →
      shown.action = .paint ∧ shown.frame.endOffset ≤ output.length ∧
      (∃ screen, shown.frame = identity.snapshotFrame screen shown.frame.endOffset) ∧
      Stretch output shown.frame.endOffset rest
  unshown : ∀ rest, rest <+: f.judged → (∀ judged ∈ rest, judged.frame.snapshot = false) → AsksOnce rest
  asked : ∀ before rest, f.judged = before ++ rest → (∀ judged ∈ rest, judged.frame.snapshot = false) →
    (∀ last ∈ before.getLast?, last.frame.snapshot = true) →
      (f.continuity.snapshotAsked = true ↔ ∃ judged ∈ rest, judged.action ≠ .paint)
  /-- No more is requested than is asked, and what is asked and not requested is wanted still. -/
  sent : f.requested + f.snapshotWanted.toNat ≤ f.judged.countP (·.action = .dropAndAsk)
  wanted : ∀ judged ∈ f.judged.drop f.requestedAt, judged.action = .dropAndAsk → f.snapshotWanted = true

/-! ## The guard over a list of frames -/

namespace TerminalFrameContinuity

variable {c c' : TerminalFrameContinuity} {frame : SessionTerminalOutput}

theorem route_snapshot (h : frame.snapshot = true) : c.route frame = (.paint, ⟨some frame.endOffset, false⟩) := by
  simp [route, accept, h]

theorem route_gap (h : frame.snapshot = false) (hgap : c.nextStart ≠ some frame.startOffset) :
    c.route frame = (if c.snapshotAsked then .drop else .dropAndAsk, ⟨none, true⟩) := by
  have hbad : (c.nextStart.isNone || some frame.startOffset != c.nextStart) = true := by
    rw [Bool.or_eq_true, bne_iff_ne]
    exact .inr (Ne.symm hgap)
  cases hasked : c.snapshotAsked <;> simp [route, accept, h, hbad, hasked]

/-- The guard comes from one state to another over these frames, doing this about them. -/
def Guards : TerminalFrameContinuity → List Judged → TerminalFrameContinuity → Prop
  | c, [], c' => c' = c
  | c, judged :: rest, c' => judged.action = (c.route judged.frame).1 ∧ Guards (c.route judged.frame).2 rest c'

theorem guards_append {first rest : List Judged} :
    Guards c (first ++ rest) c' ↔ ∃ mid, Guards c first mid ∧ Guards mid rest c' := by
  induction first generalizing c with
  | nil => simp [Guards]
  | cons judged first ih =>
    simp only [cons_append, Guards, ih]
    constructor
    · rintro ⟨haction, mid, hfirst, hrest⟩
      exact ⟨mid, ⟨haction, hfirst⟩, hrest⟩
    · rintro ⟨mid, ⟨haction, hfirst⟩, hrest⟩
      exact ⟨haction, mid, hfirst, hrest⟩

variable {judged : List Judged} {first : Judged}

theorem guards_dropped (h : Guards ⟨none, true⟩ judged c')
    (hdata : ∀ j ∈ judged, j.frame.snapshot = false) : (∀ j ∈ judged, j.action = .drop) ∧ c' = ⟨none, true⟩ := by
  induction judged with
  | nil => exact ⟨by simp, h⟩
  | cons first judged ih =>
    obtain ⟨haction, hrest⟩ := h
    have hroute := route_gap (c := ⟨none, true⟩) (hdata first mem_cons_self) (by simp)
    rw [hroute] at haction hrest
    obtain ⟨hdrop, hlast⟩ := ih hrest fun j hj => hdata j (mem_cons_of_mem _ hj)
    exact ⟨forall_mem_cons.mpr ⟨haction, hdrop⟩, hlast⟩

/-- A gap: it is dropped with an ask, and so is all that follows, without one. -/
theorem guards_gap {next : Option Nat}
    (h : Guards ⟨next, false⟩ (first :: judged) c') (hdata : ∀ j ∈ first :: judged, j.frame.snapshot = false)
    (hgap : next ≠ some first.frame.startOffset) :
    AsksOnce (first :: judged) ∧ (c'.snapshotAsked = true ↔ ∃ j ∈ first :: judged, j.action ≠ .paint) := by
  obtain ⟨haction, hrest⟩ := h
  have hroute := route_gap (c := ⟨next, false⟩) (hdata first mem_cons_self) hgap
  rw [hroute] at haction hrest
  obtain ⟨hdrop, rfl⟩ := guards_dropped hrest fun j hj => hdata j (mem_cons_of_mem _ hj)
  exact ⟨⟨haction, hdrop⟩, iff_of_true rfl ⟨first, mem_cons_self, by simp [haction]⟩⟩

theorem guards_unshown (h : Guards new judged c')
    (hdata : ∀ j ∈ judged, j.frame.snapshot = false) :
    AsksOnce judged ∧ (c'.snapshotAsked = true ↔ ∃ j ∈ judged, j.action ≠ .paint) := by
  cases judged with
  | nil =>
    rw [show c' = new from h]
    exact ⟨trivial, by simp [new]⟩
  | cons first judged => exact guards_gap h hdata (by simp)

end TerminalFrameContinuity

variable {frames : List SessionTerminalOutput} {output : List UInt8}

theorem Contiguous.le {start stop : Nat}
    (h : Contiguous output start frames stop) : start ≤ stop := by
  induction frames generalizing start with
  | nil => exact Nat.le_of_eq h.symm
  | cons frame frames ih => exact Nat.le_trans h.2.2.1 (ih h.2.2.2.2)

theorem Contiguous.bytes {start stop : Nat}
    (h : Contiguous output start frames stop) : frames.flatMap (·.data) = output.extract start stop := by
  induction frames generalizing start with
  | nil =>
    rw [show stop = start from h]
    simp [extract_eq_take_drop]
  | cons frame frames ih =>
    obtain ⟨-, -, hle, hdata, hrest⟩ := h
    rw [flatMap_cons, hdata, ih hrest]
    exact extract_append hle hrest.le

def Stamped (identity : FrameIdentity) (output : List UInt8) (frame : SessionTerminalOutput) : Prop :=
  frame.endOffset ≤ output.length ∧
    if frame.snapshot then ∃ screen, frame = identity.snapshotFrame screen frame.endOffset
    else frame.startOffset ≤ frame.endOffset ∧ frame.data = output.extract frame.startOffset frame.endOffset

namespace TerminalFrameContinuity

variable {c' : TerminalFrameContinuity} {identity : FrameIdentity} {output : List UInt8}

/-- Frames that are not snapshots, judged from a painted snapshot on. -/
theorem guards_stretch {start : Nat} (h : Guards ⟨some start, false⟩ judged c')
    (hdata : ∀ j ∈ judged, j.frame.snapshot = false) (hstamped : ∀ j ∈ judged, Stamped identity output j.frame) :
    Stretch output start judged ∧ (c'.snapshotAsked = true ↔ ∃ j ∈ judged, j.action ≠ .paint) := by
  induction judged generalizing start with
  | nil =>
    rw [show c' = ⟨some start, false⟩ from h]
    exact ⟨⟨[], [], start, rfl, rfl, by simp [extract_eq_take_drop], trivial⟩, by simp⟩
  | cons first judged ih =>
    have hfirst := hdata first mem_cons_self
    by_cases hnext : first.frame.startOffset = start
    · -- it continues what is painted, and the rest follows it
      obtain ⟨haction, hrest⟩ := h
      have hroute : route ⟨some start, false⟩ first.frame = (.paint, ⟨some first.frame.endOffset, false⟩) := by
        simp [route, accept, hfirst, hnext]
      rw [hroute] at haction hrest
      obtain ⟨⟨painted, dropped, stop, hsplit, hcontiguous, -, honce⟩, hasked⟩ := ih hrest
        (fun j hj => hdata j (mem_cons_of_mem _ hj)) (fun j hj => hstamped j (mem_cons_of_mem _ hj))
      obtain ⟨-, hstamp⟩ := hstamped first mem_cons_self
      rw [hfirst] at hstamp
      obtain ⟨hle, hbytes⟩ := hstamp
      rw [hnext] at hle hbytes
      have hwhole : Contiguous output start (first.frame :: painted) stop :=
        ⟨hfirst, hnext, hle, hbytes, hcontiguous⟩
      have hentry : first = ⟨.paint, first.frame⟩ := congrArg (Judged.mk · first.frame) haction
      refine ⟨⟨first.frame :: painted, dropped, stop, ?_, hwhole, hwhole.bytes, honce⟩, hasked.trans ?_⟩
      · rw [map_cons, ← hentry, hsplit, cons_append]
      · simp [haction]
    · obtain ⟨honce, hasked⟩ := guards_gap h hdata (fun hsome => hnext (Option.some.inj hsome).symm)
      exact ⟨⟨[], first :: judged, start, rfl, rfl, by simp [extract_eq_take_drop], honce⟩, hasked⟩

theorem guards_from_snapshot {c : TerminalFrameContinuity} {before rest : List Judged} {shown : Judged}
    (h : Guards c (before ++ shown :: rest) c') (hsnapshot : shown.frame.snapshot = true)
    (hdata : ∀ j ∈ rest, j.frame.snapshot = false) (hstamped : ∀ j ∈ rest, Stamped identity output j.frame) :
    shown.action = .paint ∧ Stretch output shown.frame.endOffset rest ∧
      (c'.snapshotAsked = true ↔ ∃ j ∈ rest, j.action ≠ .paint) := by
  obtain ⟨mid, -, haction, hrest⟩ := guards_append.mp h
  rw [route_snapshot hsnapshot] at haction hrest
  exact ⟨haction, guards_stretch hrest hdata hstamped⟩

end TerminalFrameContinuity

/-! ## The stream's states -/

namespace Feed

variable {f : Feed} {frame : SessionTerminalOutput}

/-- What the feed keeps, whatever it is given: the record is the guard's, and requests follow asks. -/
structure Keeps (f : Feed) : Prop where
  guards : TerminalFrameContinuity.Guards .new f.judged f.continuity
  sent : f.requested + f.snapshotWanted.toNat ≤ f.judged.countP (·.action = .dropAndAsk)
  wanted : ∀ judged ∈ f.judged.drop f.requestedAt, judged.action = .dropAndAsk → f.snapshotWanted = true

theorem receive_cases : f.receive frame = f ∨ isAck frame = false ∧
    f.receive frame =
      { f with
        continuity := (f.continuity.route frame).2
        snapshotWanted := f.snapshotWanted || decide ((f.continuity.route frame).1 = .dropAndAsk)
        judged := f.judged ++ [⟨(f.continuity.route frame).1, frame⟩] } := by
  unfold receive
  split
  · exact .inl rfl
  split
  · exact .inl rfl
  split
  · exact .inl rfl
  · rename_i hack
    exact .inr ⟨by simpa using hack, rfl⟩

theorem Keeps.receive (h : f.Keeps) : (f.receive frame).Keeps := by
  rcases @receive_cases f frame with hsame | ⟨-, hnext⟩
  · rw [hsame]
    exact h
  rw [hnext]
  refine ⟨?_, ?_, fun judged hmem hask => ?_⟩
  · exact TerminalFrameContinuity.guards_append.mpr ⟨f.continuity, h.guards, rfl, rfl⟩
  · have hsent := h.sent
    simp only [countP_append, countP_singleton]
    generalize (f.continuity.route frame).1 = action
    cases action with
    | paint | drop => simpa using hsent
    | dropAndAsk =>
      simp only [Bool.or_true, Bool.toNat_true, decide_true, if_true]
      omega
  · rw [drop_append, mem_append] at hmem
    rcases hmem with hold | hlast
    · simp [h.wanted judged hold hask]
    · have hjudged := mem_singleton.mp (mem_of_mem_drop hlast)
      rw [hjudged] at hask
      exact Bool.or_eq_true_iff.mpr (.inr (decide_eq_true hask))

theorem Keeps.request (h : f.Keeps) : f.request.Keeps := by
  unfold Feed.request
  split
  · rename_i hwanted
    have hsent := h.sent
    rw [hwanted] at hsent
    exact ⟨h.guards, by simpa using hsent, by simp⟩
  · exact h

end Feed

namespace SnapshotStream

open TerminalFrameContinuity

variable {identity : FrameIdentity} {s : SnapshotStream}

/-- A snapshot stream: the bridge stamps, and what the guard has judged was sent and is no note. -/
structure Sound (identity : FrameIdentity) (s : SnapshotStream) : Prop where
  streams : ∃ start, s.bridge.Streams identity.wire start
  stamped : s.bridge.stamped = true
  keeps : s.feed.Keeps
  received : ∀ judged ∈ s.feed.judged, Feed.isAck judged.frame = false ∧ judged.frame ∈ s.bridge.sent.map (·.frame)

theorem sent_stamped {start : Nat} {b : Bridge SessionTerminalOutput} (h : b.Streams identity.wire start)
    (hstamped : b.stamped = true) {frame : SessionTerminalOutput} (hframe : frame ∈ b.sent.map (·.frame))
    (hack : Feed.isAck frame = false) : Stamped identity b.session.output frame := by
  obtain ⟨item, hitem, rfl⟩ := mem_map.mp hframe
  have hshows := h.shows item hitem
  have hright (t : Told UInt8) (htold : item.told = some t) : t.Right b.follower.log b.follower.pos :=
    h.sound.told t (mem_filterMap.mpr ⟨item, hitem, htold⟩)
  have hwithin : b.follower.pos ≤ b.session.output.length := h.sound.within
  rw [hstamped] at hshows
  unfold Sent.Shows at hshows
  split at hshows
  · rename_i start data htold
    obtain ⟨hdata, hend⟩ := hright _ htold
    rw [hshows]
    refine ⟨Nat.le_trans hend hwithin, ?_⟩
    exact ⟨Nat.le_add_right _ _, hdata.symm⟩
  · rename_i offset htold
    obtain ⟨-, screen, hsnapshot⟩ := hshows
    rw [hsnapshot]
    exact ⟨Nat.le_trans (hright _ htold) hwithin, screen, rfl⟩
  · obtain ⟨n, hnote⟩ := hshows
    obtain ⟨hempty, hzero⟩ := note_data hnote
    simp [Feed.isAck, hempty, hzero] at hack

theorem Sound.bridge (h : s.Sound identity) (event : BridgeEvent) :
    Sound identity { s with bridge := s.bridge.step identity.wire event } := by
  obtain ⟨start, hstreams⟩ := h.streams
  have hfollows : Bridge.Follows identity.wire s.bridge (s.bridge.step identity.wire event) :=
    Bridge.step_follows hstreams.tracks event
  obtain ⟨more, hsent, -⟩ := hfollows.sends
  refine ⟨⟨start, hstreams.follow hfollows⟩, hfollows.stamped.trans h.stamped, h.keeps, fun judged hmem => ?_⟩
  obtain ⟨hack, hframe⟩ := h.received judged hmem
  refine ⟨hack, ?_⟩
  rw [hsent, map_append]
  exact mem_append_left _ hframe

theorem Sound.deliver (h : s.Sound identity) {item : Sent SessionTerminalOutput} (hitem : item ∈ s.bridge.sent)
    (taken : Nat) : Sound identity { s with taken := taken, feed := s.feed.receive item.frame } := by
  refine ⟨h.streams, h.stamped, h.keeps.receive, fun judged hmem => ?_⟩
  rcases @Feed.receive_cases s.feed item.frame with hsame | ⟨hack, hnext⟩
  · exact h.received judged (by simpa only [hsame] using hmem)
  simp only [hnext, mem_append, mem_singleton] at hmem
  rcases hmem with hold | rfl
  · exact h.received judged hold
  · exact ⟨hack, mem_map.mpr ⟨item, hitem, rfl⟩⟩

theorem Sound.step (h : s.Sound identity) (event : LinkEvent) : (s.step identity event).Sound identity := by
  cases event with
  | bridge event => exact h.bridge event
  | deliver =>
    simp only [SnapshotStream.step]
    split
    · rename_i item hitem
      exact h.deliver (mem_of_getElem? hitem) _
    · exact h
  | lose =>
    simp only [SnapshotStream.step]
    split
    · exact ⟨h.streams, h.stamped, h.keeps, h.received⟩
    · exact h
  | request =>
    refine ⟨h.streams, h.stamped, h.keeps.request, ?_⟩
    have hjudged : s.feed.request.judged = s.feed.judged := by
      unfold Feed.request
      split <;> rfl
    simp only [SnapshotStream.step, hjudged]
    exact h.received
  | arrive =>
    simp only [SnapshotStream.step]
    split
    · obtain ⟨hstreams, hstamped, hkeeps, hreceived⟩ := h.bridge .requestSnapshot
      exact ⟨hstreams, hstamped, hkeeps, hreceived⟩
    · exact h

theorem start_sound (session : Session) (screen : Screen) (sessionId terminalId : String) :
    (start session screen sessionId terminalId).Sound (FrameIdentity.new sessionId terminalId) := by
  refine ⟨⟨_, Bridge.openSnapshot_streams session screen⟩, ?_, ⟨rfl, Nat.le_refl 0, by simp [start, Feed.new]⟩,
    by simp [start, Feed.new]⟩
  obtain ⟨-, hlive, -⟩ := @Bridge.spawn_spec _ (new sessionId terminalId).wire session
    ⟨session.broadcast.subscribe, some session.capture.endOffset⟩
    [⟨(new sessionId terminalId).wire.snapshot screen session.capture.endOffset,
      some (.upTo session.output.length)⟩]
  rw [start, Bridge.stamped, Bridge.openSnapshot, hlive]
  rfl

theorem Sound.run (h : s.Sound identity) (events : List LinkEvent) :
    (events.foldl (SnapshotStream.step identity) s).Sound identity := by
  induction events generalizing s with
  | nil => exact h
  | cons event events ih => exact ih (h.step event)

theorem Sound.consistent (h : s.Sound identity) : Consistent identity s.bridge.session.output s.feed := by
  obtain ⟨start, hstreams⟩ := h.streams
  have hstamped (judged : Judged) (hmem : judged ∈ s.feed.judged) :
      Stamped identity s.bridge.session.output judged.frame :=
    sent_stamped hstreams h.stamped (h.received judged hmem).2 (h.received judged hmem).1
  have hguards := h.keeps.guards
  refine ⟨fun before shown rest hsplit hsnapshot hdata => ?_, fun rest hinitial hdata => ?_,
    fun before rest hsplit hdata hlast => ?_, h.keeps.sent, h.keeps.wanted⟩
  · rw [hsplit] at hguards hstamped
    obtain ⟨hle, hshown⟩ := hstamped shown (by simp)
    obtain ⟨haction, hstretch, -⟩ := guards_from_snapshot hguards hsnapshot hdata fun j hj => hstamped j (by simp [hj])
    rw [if_pos hsnapshot] at hshown
    exact ⟨haction, hle, hshown, hstretch⟩
  · obtain ⟨after, hafter⟩ := hinitial
    rw [← hafter] at hguards
    obtain ⟨mid, hrest, -⟩ := guards_append.mp hguards
    exact (guards_unshown hrest hdata).1
  rw [hsplit] at hguards hstamped
  rcases eq_nil_or_concat before with rfl | ⟨earlier, last, rfl⟩
  · exact (guards_unshown hguards hdata).2
  rw [concat_eq_append, append_assoc, singleton_append] at hguards hstamped
  obtain ⟨-, -, hasked⟩ := guards_from_snapshot hguards (hlast last (by simp)) hdata
    fun j hj => hstamped j (by simp [hj])
  exact hasked

end SnapshotStream

end TddyCoder.Terminal
