/-
  TddyCoder.Terminal.InputDelivery — whether what is typed reaches the terminal, as the feeds
  open on it are told (`InputRefusalTracker` of
  `packages/tddy-web/src/rpc/connections/inputDelivery.ts`, `send` of `terminalFeed.ts`,
  `forward_chunk` and `spawn_live_bridge` of `packages/tddy-terminal-rpc/src/bridge.rs`,
  `send_input` of `packages/tddy-cli-sessions/src/cli_session_manager/pty_handle.rs`,
  `AppliedOffset` and `acknowledge_input` of `packages/tddy-task/src/task.rs`).

  What is applied raises one maximum that all feeds of the terminal share, published in two more
  steps, so that an older one can be published after a newer one. A feed that was told of a
  refusal takes an acknowledgement above the refused offset for one of its own later input.

  Proved: `a_refusal_stands_until_own_input_is_applied`, while none is so mistaken (`Clear`);
  else `input_of_another_feed_lifts_the_refusal`.
-/

import TddyCoder.Machine.Guarded
import TddyCoder.Table.Assoc

namespace TddyCoder.Terminal.Input

open Machine Table List Function

/-! ## What a feed is told -/

structure InputDeliveryFrame where
  refusedInputOffset : Nat
  inputRefusal : String
  ackedInputOffset : Nat

namespace InputDeliveryFrame

def inputRefused : String := "terminal controlled by another screen"

def dataFrame : InputDeliveryFrame := ⟨0, "", 0⟩

def refusalFrame (offset : Nat) (reason : String) : InputDeliveryFrame := { dataFrame with
  refusedInputOffset := offset, inputRefusal := reason }

def ackFrame (offset : Nat) : InputDeliveryFrame := { dataFrame with ackedInputOffset := offset }

end InputDeliveryFrame

open InputDeliveryFrame

/-- `inputDeliverySequence`: how many sends were numbered, and the newest that was answered. -/
structure DeliverySequence where
  issued : Nat
  latestSettled : Nat
  settled : latestSettled ≤ issued

namespace DeliverySequence

def new : DeliverySequence := ⟨0, 0, Nat.le_refl 0⟩

def issue (q : DeliverySequence) : DeliverySequence := ⟨q.issued + 1, q.latestSettled, Nat.le_succ_of_le q.settled⟩

def settle (q : DeliverySequence) (seq : Nat) (hseq : seq ≤ q.issued) (failure : Option String) :
    DeliverySequence × List (Option String) :=
  if seq < q.latestSettled then (q, []) else (⟨q.issued, seq, hseq⟩, [failure])

end DeliverySequence

structure InputRefusalTracker where
  refusedAt : Option Nat
  sequence : DeliverySequence
  reported : List (Option String)

namespace InputRefusalTracker

def new : InputRefusalTracker := ⟨none, .new, []⟩

variable (t : InputRefusalTracker) (failure : Option String)

/-- `nextDelivery()(failure)`: a number of its own for the report, answered at once. -/
def report : InputRefusalTracker :=
  let sequence := t.sequence.issue
  let answer := sequence.settle sequence.issued (Nat.le_refl _) failure
  { t with sequence := answer.1, reported := t.reported ++ answer.2 }

def observe (frame : InputDeliveryFrame) : InputRefusalTracker × Bool :=
  if frame.inputRefusal ≠ "" then
    ({ t.report (some frame.inputRefusal) with refusedAt := some frame.refusedInputOffset }, true)
  else
    match t.refusedAt with
    | some offset =>
      if offset < frame.ackedInputOffset then ({ t.report none with refusedAt := none }, false) else (t, false)
    | none => (t, false)

theorem report_reported :
    (t.report failure).reported = t.reported ++ [failure] := by
  have hsettled := t.sequence.issue.settled
  simp only [report, DeliverySequence.settle, if_neg (Nat.not_lt.mpr hsettled)]

/-- What an acknowledgement has to be above, after the frame. -/
def refusedAfter (refusedAt : Option Nat) (frame : InputDeliveryFrame) : Option Nat :=
  if frame.inputRefusal ≠ "" then some frame.refusedInputOffset
  else
    match refusedAt with
    | some offset => if offset < frame.ackedInputOffset then none else some offset
    | none => none

theorem observe_refusedAt (frame : InputDeliveryFrame) :
    (t.observe frame).1.refusedAt = refusedAfter t.refusedAt frame := by
  unfold observe refusedAfter
  split
  · rfl
  cases hrefused : t.refusedAt with
  | none => exact hrefused
  | some offset =>
    by_cases hacked : offset < frame.ackedInputOffset
    · simp [hacked]
    · simp [hacked, hrefused]

theorem refusedAfter_eq_some {refusedAt : Option Nat} {frame : InputDeliveryFrame} {offset : Nat}
    (hframe : frame.inputRefusal = "") (h : refusedAfter refusedAt frame = some offset) : refusedAt = some offset := by
  unfold refusedAfter at h
  rw [if_neg (not_not.mpr hframe)] at h
  split at h
  · next refused =>
    split at h
    · cases h
    · exact h
  · cases h

end InputRefusalTracker

open InputRefusalTracker

/-! ## The terminal -/

/-- A `watch` channel: the last value, and how many were sent. -/
structure Watch where
  value : Nat
  version : Nat

def Watch.sendReplace (w : Watch) (value : Nat) : Watch := ⟨value, w.version + 1⟩

/-- `AppliedOffset::record`: whether the maximum is raised, and the maximum. -/
def recordOffset (current offset : Nat) : Bool × Nat := if offset ≤ current then (false, current) else (true, offset)

structure TaskChannel where
  appliedOffset : Nat
  ackedOffset : Watch

structure Chunk where
  data : List UInt8
  inputOffset : Nat

inductive Verdict
  | applied (offset : Nat)
  | refused (offset : Nat)
  deriving DecidableEq

def Verdict.offset : Verdict → Nat
  | applied offset => offset
  | refused offset => offset

/-- How far the forwarder is with a chunk it applies. -/
inductive Forwarder
  | idle
  | applying (offset : Nat)
  | recorded
  | read (value : Nat)
  deriving DecidableEq

/-- The next step of `acknowledge_input`: the offset is recorded; if it raised the maximum, that is read and published. -/
def Forwarder.acknowledge (channel : TaskChannel) : Forwarder → TaskChannel × Forwarder
  | idle => (channel, idle)
  | applying offset =>
    let outcome := recordOffset channel.appliedOffset offset
    ({ channel with appliedOffset := outcome.2 }, if outcome.1 then recorded else idle)
  | recorded => (channel, read channel.appliedOffset)
  | read value => ({ channel with ackedOffset := channel.ackedOffset.sendReplace value }, idle)

structure Feed where
  inputOffset : Nat
  /-- Sent, and not yet judged. -/
  inbound : List Chunk
  /-- The newest first. -/
  judged : List Verdict
  forwarder : Forwarder
  /-- The acknowledgement that the bridge is about to send. -/
  held : Option Nat
  /-- The version of the published offset that the bridge has seen. -/
  seen : Nat
  frames : List InputDeliveryFrame
  tracker : InputRefusalTracker

namespace Feed

/-- The bridge of a new stream starts with what is published. -/
def opened (acked : Watch) : Feed where
  inputOffset := 0
  inbound := []
  judged := []
  forwarder := .idle
  held := if 0 < acked.value then some acked.value else none
  seen := acked.version
  frames := []
  tracker := .new

variable (feed : Feed)

def send (data : List UInt8) : Feed :=
  { feed with
    inputOffset := feed.inputOffset + data.length
    inbound := feed.inbound ++ [⟨data, feed.inputOffset + data.length⟩] }

def judge (granted : Bool) : Feed :=
  match feed.forwarder, feed.inbound with
  | .idle, chunk :: inbound =>
    if chunk.data = [] then { feed with inbound }
    else if granted then
      { feed with
        inbound
        judged := .applied chunk.inputOffset :: feed.judged
        forwarder := .applying chunk.inputOffset }
    else
      { feed with
        inbound
        judged := .refused chunk.inputOffset :: feed.judged
        frames := feed.frames ++ [refusalFrame chunk.inputOffset inputRefused] }
  | _, _ => feed

def take (acked : Watch) : Feed :=
  if feed.held = none ∧ feed.seen ≠ acked.version then { feed with held := some acked.value, seen := acked.version }
  else feed

def forward : Feed :=
  match feed.held with
  | some offset => { feed with held := none, frames := feed.frames ++ [ackFrame offset] }
  | none => feed

def output : Feed :=
  if feed.held = none then { feed with frames := feed.frames ++ [dataFrame] } else feed

def observe (feed : Feed) : Feed :=
  match feed.frames with
  | frame :: frames => { feed with frames, tracker := (feed.tracker.observe frame).1 }
  | [] => feed

/-! What the bridge and the client leave as it is. -/

theorem output_kept : feed.output.held = feed.held ∧ feed.output.seen = feed.seen := by
  unfold output
  split <;> exact ⟨rfl, rfl⟩

theorem observe_kept : feed.observe.held = feed.held ∧ feed.observe.seen = feed.seen := by
  unfold observe
  split <;> exact ⟨rfl, rfl⟩

end Feed

inductive FeedAction
  | send (data : List UInt8)
  | judge (granted : Bool)
  | acknowledge
  | take
  | forward
  | output
  | observe

/-- One step of a feed, over what the feeds share. -/
def Feed.act (channel : TaskChannel) (feed : Feed) : FeedAction → TaskChannel × Feed
  | .send data => (channel, feed.send data)
  | .judge granted => (channel, feed.judge granted)
  | .acknowledge =>
    let outcome := feed.forwarder.acknowledge channel
    (outcome.1, { feed with forwarder := outcome.2 })
  | .take => (channel, feed.take channel.ackedOffset)
  | .forward => (channel, feed.forward)
  | .output => (channel, feed.output)
  | .observe => (channel, feed.observe)

/-- A terminal and the feeds that are open on it. -/
structure Feeds (ι : Type) where
  channel : TaskChannel
  feeds : ι → Option Feed

inductive FeedEvent (ι : Type)
  | opened (f : ι)
  | act (f : ι) (action : FeedAction)

namespace Feeds

variable {ι : Type} [DecidableEq ι]

def new : Feeds ι := ⟨⟨0, ⟨0, 0⟩⟩, fun _ => none⟩

def step (s : Feeds ι) : FeedEvent ι → Feeds ι
  | .opened f =>
    match s.feeds f with
    | none => { s with feeds := update s.feeds f (some (.opened s.channel.ackedOffset)) }
    | some _ => s
  | .act f action =>
    match s.feeds f with
    | none => s
    | some feed =>
      let outcome := feed.act s.channel action
      ⟨outcome.1, update s.feeds f (some outcome.2)⟩

end Feeds

/-! ## What a feed may be told -/

def openRefusal : List Verdict → Option Nat
  | .refused offset :: _ => some offset
  | _ => none

def AppliedAfter (judged : List Verdict) (offset : Nat) : Prop := ∃ later, offset < later ∧ .applied later ∈ judged

variable {judged : List Verdict}

theorem AppliedAfter.cons {offset : Nat} (h : AppliedAfter judged offset) (verdict : Verdict) :
    AppliedAfter (verdict :: judged) offset := by
  obtain ⟨later, hlater, hmem⟩ := h
  exact ⟨later, hlater, mem_cons_of_mem verdict hmem⟩

theorem mem_of_openRefusal {offset : Nat} (h : openRefusal judged = some offset) :
    .refused offset ∈ judged := by
  unfold openRefusal at h
  split at h
  · cases h
    exact mem_cons_self
  · cases h

/-- An acknowledgement lifts a refusal only if a later chunk was applied. -/
def Fair (judged : List Verdict) (refusedAt : Option Nat) (frame : InputDeliveryFrame) : Prop :=
  frame.inputRefusal = "" → ∀ offset, refusedAt = some offset → offset < frame.ackedInputOffset →
    AppliedAfter judged offset

/-- What a feed has been told and is going to be told, frame by frame, and how that stands to its chunks. -/
structure Told (judged : List Verdict) (refusedAt : Option Nat) (frames : List InputDeliveryFrame) : Prop where
  refused : ∀ offset, refusedAt = some offset → .refused offset ∈ judged
  refusals : ∀ frame ∈ frames, frame.inputRefusal ≠ "" → .refused frame.refusedInputOffset ∈ judged
  fair : Guarded refusedAfter (Fair judged) refusedAt frames
  last : ∀ offset, frames.foldl refusedAfter refusedAt = some offset →
    openRefusal judged = some offset ∨ AppliedAfter judged offset

namespace Told

variable {judged : List Verdict} {refusedAt : Option Nat} {frames : List InputDeliveryFrame}

section

variable (h : Told judged refusedAt frames)
include h

theorem fair_cons (verdict : Verdict) :
    Guarded refusedAfter (Fair (verdict :: judged)) refusedAt frames := by
  have hmono : ∀ refusedAt frame, True → Fair judged refusedAt frame → Fair (verdict :: judged) refusedAt frame :=
    fun _ _ _ hfair hframe offset hoffset hacked => (hfair hframe offset hoffset hacked).cons verdict
  exact guarded_imp (fun _ _ _ _ => trivial) hmono trivial h.fair

theorem frame {frame : InputDeliveryFrame} (hframe : frame.inputRefusal = "")
    (hacked : ∀ offset, openRefusal judged = some offset → frame.ackedInputOffset ≤ offset) :
    Told judged refusedAt (frames ++ [frame]) := by
  refine ⟨h.refused, forall_mem_append.mpr ⟨h.refusals, ?_⟩, guarded_append.mpr ⟨h.fair, ?_, trivial⟩,
    fun offset hoffset => ?_⟩
  · exact forall_mem_singleton.mpr fun hrefusal => absurd hframe hrefusal
  · intro _ offset hoffset hlt
    rcases h.last offset hoffset with hopen | hlater
    · exact absurd (hacked offset hopen) (Nat.not_le.mpr hlt)
    · exact hlater
  · rw [foldl_append] at hoffset
    exact h.last offset (refusedAfter_eq_some hframe hoffset)

theorem refuse (offset : Nat) :
    Told (.refused offset :: judged) refusedAt (frames ++ [refusalFrame offset inputRefused]) := by
  refine ⟨fun other hother => mem_cons_of_mem _ (h.refused other hother), fun other hother hrefusal => ?_,
    guarded_append.mpr ⟨h.fair_cons _, ?_, trivial⟩, fun other hother => ?_⟩
  · rcases mem_append.mp hother with hother | hother
    · exact mem_cons_of_mem _ (h.refusals other hother hrefusal)
    · rw [mem_singleton.mp hother]
      exact mem_cons_self
  · intro hframe
    exact absurd (show inputRefused = "" from hframe) (by decide)
  · rw [foldl_append] at hother
    exact .inl hother

theorem apply {offset : Nat}
    (hlater : ∀ other, .refused other ∈ judged → other < offset) : Told (.applied offset :: judged) refusedAt frames := by
  refine ⟨fun other hother => mem_cons_of_mem _ (h.refused other hother),
    fun frame hframe hrefusal => mem_cons_of_mem _ (h.refusals frame hframe hrefusal), h.fair_cons _,
    fun other hother => .inr ?_⟩
  rcases h.last other hother with hopen | happlied
  · exact ⟨offset, hlater other (mem_of_openRefusal hopen), mem_cons_self⟩
  · exact happlied.cons _

end

theorem observe {frame : InputDeliveryFrame} (h : Told judged refusedAt (frame :: frames)) :
    Told judged (refusedAfter refusedAt frame) frames := by
  refine ⟨fun offset hoffset => ?_, fun other hother => h.refusals other (mem_cons_of_mem frame hother), h.fair.2,
    h.last⟩
  by_cases hframe : frame.inputRefusal = ""
  · exact h.refused offset (refusedAfter_eq_some hframe hoffset)
  unfold refusedAfter at hoffset
  rw [if_pos hframe] at hoffset
  cases hoffset
  exact h.refusals frame mem_cons_self hframe

end Told

/-- The offsets of a feed count the bytes up to the end of each chunk. -/
structure Counted (judged : List Verdict) (inbound : List Chunk) (inputOffset : Nat) : Prop where
  judged_le : ∀ verdict ∈ judged, verdict.offset ≤ inputOffset
  inbound_le : ∀ chunk ∈ inbound, chunk.inputOffset ≤ inputOffset
  judged_before : ∀ verdict ∈ judged, ∀ chunk ∈ inbound, verdict.offset + chunk.data.length ≤ chunk.inputOffset
  inOrder : inbound.Pairwise fun chunk chunk' => chunk.inputOffset + chunk'.data.length ≤ chunk'.inputOffset

namespace Counted

variable {judged : List Verdict} {inbound : List Chunk} {inputOffset : Nat} {chunk : Chunk}

theorem send (h : Counted judged inbound inputOffset) (data : List UInt8) :
    Counted judged (inbound ++ [⟨data, inputOffset + data.length⟩]) (inputOffset + data.length) := by
  refine ⟨fun verdict hverdict => Nat.le_add_right_of_le (h.judged_le verdict hverdict),
    forall_mem_append.mpr ⟨fun other hother => ?_, forall_mem_singleton.mpr (Nat.le_refl _)⟩,
    fun verdict hverdict => forall_mem_append.mpr ⟨h.judged_before verdict hverdict, forall_mem_singleton.mpr ?_⟩, ?_⟩
  · exact Nat.le_add_right_of_le (h.inbound_le other hother)
  · exact Nat.add_le_add_right (h.judged_le verdict hverdict) _
  · refine pairwise_append.mpr ⟨h.inOrder, pairwise_singleton _ _, fun other hother last hlast => ?_⟩
    rw [mem_singleton.mp hlast]
    exact Nat.add_le_add_right (h.inbound_le other hother) _

section

variable (h : Counted judged (chunk :: inbound) inputOffset)
include h

theorem skip : Counted judged inbound inputOffset :=
  ⟨h.judged_le, fun other hother => h.inbound_le other (mem_cons_of_mem chunk hother),
    fun verdict hverdict other hother => h.judged_before verdict hverdict other (mem_cons_of_mem chunk hother),
    (pairwise_cons.mp h.inOrder).2⟩

theorem judge {verdict : Verdict}
    (hverdict : verdict.offset = chunk.inputOffset) : Counted (verdict :: judged) inbound inputOffset := by
  refine ⟨forall_mem_cons.mpr ⟨?_, h.judged_le⟩, h.skip.inbound_le,
    forall_mem_cons.mpr ⟨?_, h.skip.judged_before⟩, h.skip.inOrder⟩
  · rw [hverdict]
    exact h.inbound_le chunk mem_cons_self
  · rw [hverdict]
    exact (pairwise_cons.mp h.inOrder).1

end

end Counted

namespace Feed

structure Sound (feed : Feed) : Prop where
  counted : Counted feed.judged feed.inbound feed.inputOffset
  /-- The forwarder is not done with a chunk it applies. -/
  busy : feed.forwarder ≠ .idle → openRefusal feed.judged = none
  told : Told feed.judged feed.tracker.refusedAt feed.frames

theorem Sound.opened (acked : Watch) : (Feed.opened acked).Sound := by
  refine ⟨⟨?_, ?_, ?_, Pairwise.nil⟩, fun _ => rfl, ⟨?_, ?_, trivial, ?_⟩⟩ <;>
    simp [Feed.opened, InputRefusalTracker.new]

variable {feed : Feed}

section

variable (h : feed.Sound)
include h

theorem Sound.judge (granted : Bool) : (feed.judge granted).Sound := by
  unfold Feed.judge
  split
  · next chunk inbound hidle hinbound =>
    have hcounted := h.counted
    rw [hinbound] at hcounted
    split_ifs with hdata hgranted
    · exact ⟨hcounted.skip, h.busy, h.told⟩
    · refine ⟨hcounted.judge rfl, fun _ => rfl, h.told.apply fun other hother => ?_⟩
      have hbefore := hcounted.judged_before _ hother chunk mem_cons_self
      have hlength : 0 < chunk.data.length := length_pos_iff.mpr hdata
      simp only [Verdict.offset] at hbefore
      omega
    · exact ⟨hcounted.judge rfl, fun hbusy => absurd hidle hbusy, h.told.refuse _⟩
  · exact h

theorem Sound.observe : feed.observe.Sound := by
  unfold Feed.observe
  split
  · next frame frames hframes =>
    have htold := h.told
    rw [hframes] at htold
    refine ⟨h.counted, h.busy, ?_⟩
    rw [observe_refusedAt]
    exact htold.observe
  · exact h

theorem Sound.forward
    (hheld : ∀ offset refused, feed.held = some offset → openRefusal feed.judged = some refused → offset ≤ refused) :
    feed.forward.Sound := by
  unfold Feed.forward
  split
  · next offset hoffset =>
    exact ⟨h.counted, h.busy, h.told.frame rfl fun refused hrefused => hheld offset refused hoffset hrefused⟩
  · exact h

theorem Sound.output : feed.output.Sound := by
  unfold Feed.output
  split
  · exact ⟨h.counted, h.busy, h.told.frame rfl fun _ _ => Nat.zero_le _⟩
  · exact h

theorem Sound.take (acked : Watch) : (feed.take acked).Sound := by
  unfold Feed.take
  split
  · exact ⟨h.counted, h.busy, h.told⟩
  · exact h

/-- A step keeps a feed sound, if what is acknowledged is not above an open refusal. -/
theorem Sound.act (channel : TaskChannel) (action : FeedAction)
    (hheld : ∀ offset refused, feed.held = some offset → openRefusal feed.judged = some refused → offset ≤ refused) :
    (feed.act channel action).2.Sound := by
  cases action with
  | send data => exact ⟨h.counted.send data, h.busy, h.told⟩
  | judge granted => exact h.judge granted
  | acknowledge =>
    refine ⟨h.counted, fun hbusy => h.busy fun hidle => hbusy ?_, h.told⟩
    show (feed.forwarder.acknowledge channel).2 = .idle
    rw [hidle]
    rfl
  | take => exact h.take channel.ackedOffset
  | forward => exact h.forward hheld
  | output => exact h.output
  | observe => exact h.observe

end

end Feed

/-! ## What is on the way to a feed -/

namespace Forwarder

variable {channel : TaskChannel} {forwarder : Forwarder}

theorem acknowledge_applied : (forwarder.acknowledge channel).1.appliedOffset = channel.appliedOffset ∧
    (forwarder.acknowledge channel).2 ≠ .recorded ∨ forwarder = .applying (forwarder.acknowledge channel).1.appliedOffset ∧
      channel.appliedOffset < (forwarder.acknowledge channel).1.appliedOffset := by
  cases forwarder with
  | applying offset =>
    by_cases hle : offset ≤ channel.appliedOffset
    · exact .inl (by simp [acknowledge, recordOffset, hle])
    · exact .inr (by simp [acknowledge, recordOffset, hle, Nat.lt_of_not_le hle])
  | _ => exact .inl ⟨rfl, nofun⟩

theorem acknowledge_read {value : Nat} (h : (forwarder.acknowledge channel).2 = .read value) :
    forwarder = .recorded ∧ value = channel.appliedOffset := by
  cases forwarder with
  | recorded =>
    cases h
    exact ⟨rfl, rfl⟩
  | applying offset =>
    unfold acknowledge at h
    dsimp only at h
    split at h <;> cases h
  | idle => cases h
  | read value => cases h

theorem acknowledge_acked : (forwarder.acknowledge channel).1.ackedOffset = channel.ackedOffset ∨
    ∃ value, forwarder = .read value ∧
      (forwarder.acknowledge channel).1.ackedOffset = channel.ackedOffset.sendReplace value := by
  cases forwarder with
  | read value => exact .inr ⟨value, rfl, rfl⟩
  | _ => exact .inl rfl

end Forwarder

namespace Feed

variable {feed : Feed} {channel : TaskChannel} {action : FeedAction}

theorem act_kept (hjudge : ∀ granted, action ≠ .judge granted) (hacknowledge : action ≠ .acknowledge) :
    (feed.act channel action).2.judged = feed.judged ∧ (feed.act channel action).2.forwarder = feed.forwarder := by
  cases action with
  | judge granted => exact absurd rfl (hjudge granted)
  | acknowledge => exact absurd rfl hacknowledge
  | send data => exact ⟨rfl, rfl⟩
  | _ => simp only [act, take, forward, output, observe]; split <;> exact ⟨rfl, rfl⟩

theorem act_other (haction : action ≠ .acknowledge) : (feed.act channel action).1 = channel ∧
    ((feed.act channel action).2.forwarder = feed.forwarder ∨
      ∃ offset, (feed.act channel action).2.forwarder = .applying offset) := by
  cases action with
  | judge granted =>
    refine ⟨rfl, ?_⟩
    simp only [act, judge]
    split
    · split_ifs
      · exact .inl rfl
      · exact .inr ⟨_, rfl⟩
      · exact .inl rfl
    · exact .inl rfl
  | acknowledge => exact absurd rfl haction
  | _ => exact ⟨rfl, .inl (act_kept (by nofun) haction).2⟩

theorem openRefusal_act {refused : Nat} (h : openRefusal (feed.act channel action).2.judged = some refused) :
    openRefusal feed.judged = some refused ∨ action = .judge false ∧ feed.forwarder = .idle ∧
      ∃ chunk inbound, feed.inbound = chunk :: inbound ∧ chunk.data ≠ [] ∧ chunk.inputOffset = refused := by
  cases action with
  | judge granted =>
    simp only [act, judge] at h
    split at h
    · next chunk inbound hidle hinbound =>
      split_ifs at h with hdata hgranted
      · exact .inl h
      · cases h
      · obtain rfl := Bool.eq_false_iff.mpr hgranted
        exact .inr ⟨rfl, hidle, chunk, inbound, hinbound, hdata, Option.some.inj h⟩
    · exact .inl h
  | acknowledge => exact .inl h
  | _ =>
    rw [(act_kept ?_ ?_).1] at h
    · exact .inl h
    all_goals nofun

/-- The acknowledgements that the bridge has still to send, as things stand. -/
def Due (channel : TaskChannel) (feed : Feed) (offset : Nat) : Prop :=
  feed.held = some offset ∨ feed.seen ≠ channel.ackedOffset.version ∧ channel.ackedOffset.value = offset

variable {offset : Nat}

theorem Due.kept {feed' : Feed} (h : feed'.Due channel offset)
    (hsame : feed'.held = feed.held ∧ feed'.seen = feed.seen) : feed.Due channel offset := by
  rwa [Due, hsame.1, hsame.2] at h

theorem due_of_take (h : (feed.take channel.ackedOffset).Due channel offset) : feed.Due channel offset := by
  unfold take at h
  split at h
  · next hready =>
    rcases h with hheld | ⟨hseen, -⟩
    · exact .inr ⟨hready.2, Option.some.inj hheld⟩
    · exact absurd rfl hseen
  · exact h

theorem due_of_forward (h : feed.forward.Due channel offset) : feed.Due channel offset := by
  unfold forward at h
  split at h
  · rcases h with hheld | hpublished
    · cases hheld
    · exact .inr hpublished
  · exact h

theorem due_of_judge {granted : Bool} (h : (feed.judge granted).Due channel offset) :
    feed.Due channel offset := by
  unfold judge at h
  split at h
  · split_ifs at h <;> exact h
  · exact h

theorem due_of_act (h : (feed.act channel action).2.Due channel offset) : feed.Due channel offset := by
  cases action with
  | send data => exact h
  | judge granted => exact due_of_judge h
  | acknowledge => exact h
  | take => exact due_of_take h
  | forward => exact due_of_forward h
  | output => exact Due.kept h feed.output_kept
  | observe => exact Due.kept h feed.observe_kept

end Feed

namespace Feeds

variable {ι : Type} [DecidableEq ι]

/-- The offsets that are recorded and not yet published. -/
inductive Coming (s : Feeds ι) : Nat → Prop
  | read {f : ι} {feed : Feed} {offset : Nat} (hf : s.feeds f = some feed) (hread : feed.forwarder = .read offset) :
    Coming s offset
  | recorded {f : ι} {feed : Feed} (hf : s.feeds f = some feed) (hrecorded : feed.forwarder = .recorded) :
    Coming s s.channel.appliedOffset

/-- The acknowledgements on the way to a feed. -/
def OnWay (s : Feeds ι) (feed : Feed) (offset : Nat) : Prop := feed.Due s.channel offset ∨ s.Coming offset

/-- A feed raises the maximum only as far as no open refusal of another one is below it, and its chunk is refused only
    when nothing above it is on the way to the feed. -/
def Clear (s : Feeds ι) : FeedEvent ι → Prop
  | .act f .acknowledge => ∀ feed offset, s.feeds f = some feed → feed.forwarder = .applying offset →
      s.channel.appliedOffset < offset →
      ∀ g other refused, g ≠ f → s.feeds g = some other → openRefusal other.judged = some refused → offset ≤ refused
  | .act f (.judge false) => ∀ feed chunk inbound, s.feeds f = some feed → feed.forwarder = .idle →
      feed.inbound = chunk :: inbound → chunk.data ≠ [] → ∀ offset, s.OnWay feed offset → offset ≤ chunk.inputOffset
  | _ => True

/-- A feed that reports delivery was last told of a refusal, and a later chunk of its own was applied. -/
def Confirmed (s : Feeds ι) : FeedEvent ι → Prop
  | .act f .observe => ∀ feed, s.feeds f = some feed → feed.observe.tracker.reported = feed.tracker.reported ++ [none] →
      ∃ offset, feed.tracker.refusedAt = some offset ∧ .refused offset ∈ feed.judged ∧ AppliedAfter feed.judged offset
  | _ => True

section step

variable {s : Feeds ι} {f g : ι} {feed other : Feed} {action : FeedAction}

section

variable (hf : s.feeds f = some feed)
include hf

theorem step_act : s.step (.act f action) =
    ⟨(feed.act s.channel action).1, update s.feeds f (some (feed.act s.channel action).2)⟩ := by
  simp only [step, hf]

theorem channel_step :
    (s.step (.act f action)).channel = (feed.act s.channel action).1 := by
  rw [step_act hf]

theorem feeds_step (hg : (s.step (.act f action)).feeds g = some other) :
    g = f ∧ other = (feed.act s.channel action).2 ∨ g ≠ f ∧ s.feeds g = some other := by
  rw [step_act hf] at hg
  exact update_eq_some.mp hg

theorem coming_other (haction : action ≠ .acknowledge) {offset : Nat}
    (h : (s.step (.act f action)).Coming offset) : s.Coming offset := by
  obtain ⟨hchannel, hforwarder⟩ := feed.act_other haction
  cases h with
  | read hg hread =>
    rcases feeds_step hf hg with ⟨-, rfl⟩ | ⟨-, hg⟩
    · rcases hforwarder with hsame | ⟨_, happlying⟩
      · exact .read hf (hsame.symm.trans hread)
      · cases happlying.symm.trans hread
    · exact .read hg hread
  | recorded hg hrecorded =>
    rw [channel_step hf, hchannel]
    rcases feeds_step hf hg with ⟨-, rfl⟩ | ⟨-, hg⟩
    · rcases hforwarder with hsame | ⟨_, happlying⟩
      · exact .recorded hf (hsame.symm.trans hrecorded)
      · cases happlying.symm.trans hrecorded
    · exact .recorded hg hrecorded

theorem coming_acknowledge {offset : Nat}
    (h : (s.step (.act f .acknowledge)).Coming offset) :
    s.Coming offset ∨ feed.forwarder = .applying offset ∧ s.channel.appliedOffset < offset := by
  cases h with
  | read hg hread =>
    left
    rcases feeds_step hf hg with ⟨-, rfl⟩ | ⟨-, hg⟩
    · obtain ⟨hrecorded, rfl⟩ := Forwarder.acknowledge_read hread
      exact .recorded hf hrecorded
    · exact .read hg hread
  | recorded hg hrecorded =>
    rw [channel_step hf]
    rcases feed.forwarder.acknowledge_applied with ⟨hsame, hother⟩ | hraised
    · left
      rw [show (feed.act s.channel .acknowledge).1.appliedOffset = s.channel.appliedOffset from hsame]
      rcases feeds_step hf hg with ⟨-, rfl⟩ | ⟨-, hg⟩
      · exact absurd hrecorded hother
      · exact .recorded hg hrecorded
    · exact .inr hraised

theorem onWay_step (hg : (s.step (.act f action)).feeds g = some other) {offset : Nat}
    (h : (s.step (.act f action)).OnWay other offset) :
    (∃ before, s.feeds g = some before ∧ s.OnWay before offset) ∨
      action = .acknowledge ∧ feed.forwarder = .applying offset ∧ s.channel.appliedOffset < offset := by
  -- a feed that was there before, and has still to send what it had then
  have hdue : other.Due s.channel offset → ∃ before, s.feeds g = some before ∧ s.OnWay before offset := by
    intro hdue
    rcases feeds_step hf hg with ⟨rfl, rfl⟩ | ⟨-, hg⟩
    · exact ⟨feed, hf, .inl (Feed.due_of_act hdue)⟩
    · exact ⟨other, hg, .inl hdue⟩
  have hcoming : s.Coming offset → ∃ before, s.feeds g = some before ∧ s.OnWay before offset := by
    intro hcoming
    rcases feeds_step hf hg with ⟨rfl, -⟩ | ⟨-, hg⟩
    · exact ⟨feed, hf, .inr hcoming⟩
    · exact ⟨other, hg, .inr hcoming⟩
  by_cases haction : action = .acknowledge
  · subst haction
    rcases h with h | h
    · left
      rw [channel_step hf] at h
      rcases feed.forwarder.acknowledge_acked with hsame | ⟨value, hread, hpublished⟩
      · exact hdue (by rwa [Feed.Due, show (feed.act s.channel .acknowledge).1.ackedOffset = _ from hsame] at h)
      rcases h with hheld | ⟨-, hvalue⟩
      · exact hdue (.inl hheld)
      · rw [show (feed.act s.channel .acknowledge).1.ackedOffset = _ from hpublished] at hvalue
        cases hvalue
        exact hcoming (.read hf hread)
    · rcases coming_acknowledge hf h with h | h
      · exact .inl (hcoming h)
      · exact .inr ⟨rfl, h⟩
  · left
    rcases h with h | h
    · rw [channel_step hf, (feed.act_other haction).1] at h
      exact hdue h
    · exact hcoming (coming_other hf haction h)

end

end step

/-- Feeds are sound, and nothing above an open refusal is on the way. -/
structure Inv (s : Feeds ι) : Prop where
  sound : ∀ {f feed}, s.feeds f = some feed → feed.Sound
  quiet : ∀ {f feed refused offset}, s.feeds f = some feed → openRefusal feed.judged = some refused →
    s.OnWay feed offset → offset ≤ refused

namespace Inv

variable {s : Feeds ι} {f : ι}

omit [DecidableEq ι] in
theorem new : Inv (new : Feeds ι) := ⟨fun hf => (by cases hf), fun hf => (by cases hf)⟩

theorem opened (h : Inv s) (f : ι) : Inv (s.step (.opened f)) := by
  unfold Feeds.step
  dsimp only
  split
  · next hnone =>
    -- the new feed has judged nothing, and its forwarder has nothing to publish
    refine ⟨fun hg => ?_, fun {g other refused offset} hg hopen hway => ?_⟩
    · rcases update_eq_some.mp hg with ⟨-, rfl⟩ | ⟨-, hg⟩
      · exact .opened _
      · exact h.sound hg
    rcases update_eq_some.mp hg with ⟨-, rfl⟩ | ⟨-, hg⟩
    · cases hopen
    refine h.quiet hg hopen (hway.imp_right fun hcoming => ?_)
    cases hcoming with
    | read hg' hread =>
      rcases update_eq_some.mp hg' with ⟨-, rfl⟩ | ⟨-, hg'⟩
      · cases hread
      · exact .read hg' hread
    | recorded hg' hrecorded =>
      rcases update_eq_some.mp hg' with ⟨-, rfl⟩ | ⟨-, hg'⟩
      · cases hrecorded
      · exact .recorded hg' hrecorded
  · exact h

theorem act (h : Inv s) {feed : Feed} (hf : s.feeds f = some feed) {action : FeedAction}
    (hclear : s.Clear (.act f action)) : Inv (s.step (.act f action)) := by
  refine ⟨fun hg => ?_, fun {g other refused offset} hg hopen hway => ?_⟩
  · rcases feeds_step hf hg with ⟨-, rfl⟩ | ⟨-, hg⟩
    · exact (h.sound hf).act s.channel action fun offset refused hheld hopen => h.quiet hf hopen (.inl (.inl hheld))
    · exact h.sound hg
  rcases onWay_step hf hg hway with ⟨before, hbefore, hwas⟩ | ⟨rfl, happlying, hlt⟩
  · rcases feeds_step hf hg with ⟨rfl, rfl⟩ | ⟨-, hg⟩
    · cases hf.symm.trans hbefore
      rcases Feed.openRefusal_act hopen with hopen | ⟨rfl, hidle, chunk, inbound, hinbound, hdata, rfl⟩
      · exact h.quiet hf hopen hwas
      · exact hclear feed chunk inbound hf hidle hinbound hdata offset hwas
    · cases hg.symm.trans hbefore
      exact h.quiet hg hopen hwas
  · rcases feeds_step hf hg with ⟨rfl, rfl⟩ | ⟨hgf, hg⟩
    · have hnone := (h.sound hf).busy (by simp [happlying])
      cases hnone.symm.trans hopen
    · exact hclear feed offset hf happlying hlt g other refused hgf hg hopen

theorem step (s : Feeds ι) (e : FeedEvent ι) (h : Inv s) (hclear : s.Clear e) : Inv (s.step e) := by
  cases e with
  | opened f => exact h.opened f
  | act f action =>
    cases hf : s.feeds f with
    | none => simpa only [Feeds.step, hf] using h
    | some feed => exact h.act hf hclear

omit [DecidableEq ι] in
theorem confirmed (s : Feeds ι) (e : FeedEvent ι) (h : Inv s) (_ : s.Clear e) : s.Confirmed e := by
  cases e with
  | opened f => trivial
  | act f action =>
    cases action with
    | observe =>
      intro feed hf hreported
      have htold := (h.sound hf).told
      unfold Feed.observe at hreported
      split at hreported
      · next frame frames hframes =>
        rw [hframes] at htold
        unfold InputRefusalTracker.observe at hreported
        split at hreported
        · simp [report_reported] at hreported
        · next hrefusal =>
          split at hreported
          · next offset hoffset =>
            split at hreported
            · next hacked =>
              exact ⟨offset, hoffset, htold.refused offset hoffset, htold.fair.1 (not_not.mp hrefusal) offset hoffset hacked⟩
            · simp at hreported
          · simp at hreported
      · simp at hreported
    | _ => trivial

end Inv

/-- Any number of feeds, and any order of their steps. -/
theorem a_refusal_stands_until_own_input_is_applied (events : List (FeedEvent ι))
    (hclear : Guarded step Clear (new : Feeds ι) events) : Guarded step Confirmed (new : Feeds ι) events :=
  guarded_imp Inv.step Inv.confirmed Inv.new hclear

inductive Screen
  | here
  | there
  deriving DecidableEq

/-- A key is refused here and another one applied there; after one more key here delivery is reported again. -/
def retyped : List (FeedEvent Screen) :=
  [.opened .here, .opened .there, .act .here (.send [120]), .act .here (.judge false), .act .here .observe,
    .act .there (.send [120]), .act .there (.judge true), .act .there .acknowledge, .act .there .acknowledge,
    .act .there .acknowledge, .act .here (.send [121]), .act .here (.judge true), .act .here .acknowledge,
    .act .here .acknowledge, .act .here .acknowledge, .act .here .take, .act .here .forward, .act .here .observe]

theorem own_input_lifts_the_refusal :
    Guarded step Confirmed (new : Feeds Screen) retyped ∧ ∃ feed, (retyped.foldl step new).feeds .here = some feed ∧
      feed.tracker.reported = [some inputRefused, none] ∧ feed.judged = [.applied 2, .refused 1] := by
  refine ⟨a_refusal_stands_until_own_input_is_applied retyped ?_, _, rfl, rfl, rfl⟩
  refine ⟨trivial, trivial, trivial, ?_, trivial, trivial, trivial, ?_, ?_, ?_, trivial, trivial, ?_, ?_, ?_, trivial,
    trivial, trivial, trivial⟩
  · -- nothing has been acknowledged yet
    intro feed chunk inbound hf _ _ _ offset hway
    cases hf
    rcases hway with (hheld | ⟨hseen, -⟩) | hcoming
    · cases hheld
    · exact absurd rfl hseen
    · cases hcoming with
      | @read g _ _ hg hread => cases g <;> cases hg <;> cases hread
      | @recorded g _ hg hrecorded => cases g <;> cases hg <;> cases hrecorded
  · -- what is applied there is not above what was refused here
    intro feed offset hf happlying _ g other refused hne hg hopen
    cases hf
    cases happlying
    cases g with
    | here =>
      cases hg
      cases hopen
      exact Nat.le_refl 1
    | there => exact absurd rfl hne
  · intro feed offset hf happlying
    cases hf
    cases happlying
  · intro feed offset hf happlying
    cases hf
    cases happlying
  · -- there nothing is refused
    intro feed offset _ _ _ g other refused hne hg hopen
    cases g with
    | here => exact absurd rfl hne
    | there =>
      cases hg
      cases hopen
  all_goals
    intro feed offset hf happlying
    cases hf
    cases happlying

/-- A key is refused here; two more that are applied there are reported as delivered here. -/
def typedThere : List (FeedEvent Screen) :=
  [.opened .here, .opened .there, .act .here (.send [120]), .act .here (.judge false), .act .here .observe,
    .act .there (.send [120, 121]), .act .there (.judge true), .act .there .acknowledge, .act .there .acknowledge,
    .act .there .acknowledge, .act .here .take, .act .here .forward]

theorem input_of_another_feed_lifts_the_refusal :
    ∃ feed, (typedThere.foldl step new).feeds .here = some feed ∧ feed.judged = [.refused 1] ∧
      feed.tracker.reported = [some inputRefused] ∧ feed.observe.tracker.reported = [some inputRefused, none] :=
  ⟨_, rfl, rfl, rfl, rfl⟩

end Feeds

end TddyCoder.Terminal.Input
