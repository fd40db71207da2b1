/-
  TddyCoder.Terminal.Exit — what an output stream that ends because the process exited has
  delivered (`packages/tddy-terminal-rpc/src/bridge.rs`, `spawn_live_bridge`;
  `packages/tddy-cli-sessions/src/cli_session_manager/pty_terminal_service.rs`).

  The loop takes any of the things that are ready, and does not drain the messages still waiting
  when it takes the end of the process. A stream without stamps goes on behind what a lag has
  lost. Nothing makes up for either (`Lost`).

  Proved: `exit_complete_iff`; `output_is_lost_at_exit` in a run of the first kind.
-/

import TddyCoder.Machine.Guarded
import TddyCoder.Terminal.LiveBridge

namespace TddyCoder.Terminal

open Concurrency Machine List

namespace Session

-- Stated of a constructor: compared as they are, the two sides' captures would be unfolded down to the limit's bytes.
theorem ptyDone_write (s : Session) (data : List UInt8) : (s.write data).ptyDone = s.ptyDone := by
  unfold write
  rfl

theorem ptyDone_after {s : Session} {event : SessionEvent} (h : (s.after event).ptyDone = true) :
    s.ptyDone = true ∨ event = .exit := by
  cases event with
  | exit => exact .inr rfl
  | write data => exact .inl ((s.ptyDone_write data).symm.trans h)
  | acknowledge offset | close => exact .inl h

end Session

namespace Bridge

variable {F : Type} {wire : Wire F} {b : Bridge F} {start : Nat}

/-! ## How the loop stops -/

theorem resync_not_exits (hended : b.ended = none) (screen : Screen) :
    (b.resync wire screen).ended ≠ some .exited := by
  unfold resync
  split <;> simp [hended]

theorem select_exits {branch : Branch} (hended : b.ended = none) (h : (b.select wire branch).ended = some .exited) :
    branch = .done ∧ b.session.ptyDone = true := by
  cases branch with
  | done =>
    simp only [select] at h
    split at h
    · exact ⟨rfl, by assumption⟩
    · simp [hended] at h
  | recv screen =>
    simp only [select] at h
    split at h
    · simp [forward, hended] at h
    · simp at h
    · split at h
      · exact absurd h (resync_not_exits hended screen)
      · simp [hended] at h
    · simp [hended] at h
  | resync screen =>
    simp only [select] at h
    split at h
    · exact absurd h (resync_not_exits (by exact hended) screen)
    · simp [hended] at h
  | ack =>
    simp only [select] at h
    split at h <;> simp [hended] at h

variable {event : BridgeEvent}

theorem step_exits (h : (b.step wire event).ended = some .exited) :
    b.ended = some .exited ∨ event = .select .done ∧ b.ended = none ∧ b.session.ptyDone = true := by
  cases event with
  | session event => exact .inl h
  | refuse offset =>
    simp only [step] at h
    split at h
    · exact .inl h
    · exact .inl (by simpa using h)
  | requestSnapshot | drop => exact .inl h
  | select branch =>
    simp only [step] at h
    split at h
    · exact .inl h
    rename_i hended
    have hnone : b.ended = none := by simpa using hended
    obtain ⟨rfl, hdone⟩ := select_exits hnone h
    exact .inr ⟨rfl, hnone, hdone⟩

theorem step_ended (h : b.ended.isSome = true) (event : BridgeEvent) :
    (b.step wire event).ended = b.ended ∧ (b.step wire event).sent = b.sent := by
  cases event <;> simp [step, h]

/-! ## Careful loops -/

inductive Opened (wire : Wire F) (session : Session) : Bridge F → Prop
  | tail : Opened wire session (openTail wire session)
  | snapshot (screen : Screen) : Opened wire session (openSnapshot wire session screen)

/-- A frame that was sent shows the byte at `p`. -/
def Delivers (wire : Wire F) (b : Bridge F) (p : Nat) : Prop :=
  ∃ item ∈ b.sent, ∃ t, item.told = some t ∧ t.Covers p ∧ t.Right b.session.output b.session.output.length ∧
    item.Shows wire b.stamped

/-- No bytes are skipped, and none wait when the loop takes the exit. -/
def Careful (b : Bridge F) : BridgeEvent → Prop
  | .select (.recv _) =>
    b.ended = none → b.stamped = false → ∀ rx, b.session.broadcast.recv b.live.rx = (.lagged, rx) →
      b.session.offsetAt rx = b.session.offsetAt b.live.rx
  | .select .done => b.ended = none → b.session.ptyDone = true → (b.session.broadcast.pending b.live.rx).flatten = []
  | _ => True

/-- Nothing is written after the exit. -/
def WritesFirst (events : List BridgeEvent) : Prop :=
  events.Pairwise fun event later => event = .session .exit → ∀ data, later ≠ .session (.write data)

theorem pending_empty_iff : (b.session.broadcast.pending b.live.rx).flatten = [] ↔
    b.session.output.length ≤ b.follower.pos := by
  rw [← Session.drop_offsetAt, drop_eq_nil_iff]
  rfl

/-! ## What is lost stays lost -/

/-- A byte that is past: the loop has stopped, or has passed it over and does not go back. -/
structure Lost (p : Nat) (b : Bridge F) : Prop where
  written : p < b.session.output.length
  untold : ∀ t ∈ b.follower.told, ¬ t.Covers p
  past : b.ended.isSome = true ∨ b.stamped = false ∧ p < b.follower.pos

variable {p : Nat} {session : Session}

theorem Lost.step (h : b.Lost p) (htracks : b.Tracks) (event : BridgeEvent) : (b.step wire event).Lost p := by
  have hwritten : p < (b.step wire event).session.output.length := by
    obtain ⟨more, hmore⟩ := @step_output F wire b event
    rw [hmore, length_append]
    exact Nat.lt_add_right _ h.written
  rcases h.past with hended | ⟨hstamped, hpast⟩
  · -- a stopped loop sends nothing more
    obtain ⟨hstill, hsent⟩ := @step_ended F wire b hended event
    refine ⟨hwritten, ?_, .inl (by rw [hstill, hended])⟩
    simp only [follower, hsent]
    exact h.untold
  -- an unstamped one never starts over
  have hfollows : Follows wire b (b.step wire event) := step_follows htracks event
  have hmissed : (b.step wire event).follower.Missed p :=
    Follower.Missed.step ⟨hpast, h.untold⟩ (hstamped ▸ hfollows.moves)
  exact ⟨hwritten, hmissed.2, .inr ⟨hfollows.stamped.trans hstamped, hmissed.1⟩⟩

theorem Lost.run (h : b.Lost p) (htracks : b.Tracks) (events : List BridgeEvent) :
    (events.foldl (Bridge.step wire) b).Lost p := by
  induction events generalizing b with
  | nil => exact h
  | cons event events ih => exact ih (h.step htracks event) (step_follows htracks event).tracks

theorem Lost.not_delivers (h : b.Lost p) : ¬ b.Delivers wire p := by
  rintro ⟨item, hitem, t, htold, hcovers, -⟩
  exact h.untold t (mem_filterMap.mpr ⟨item, hitem, htold⟩) hcovers

theorem careless_cases (h : ¬ b.Careful event) :
    (∃ screen rx, event = .select (.recv screen) ∧ b.ended = none ∧ b.stamped = false ∧
      b.session.broadcast.recv b.live.rx = (.lagged, rx) ∧ b.session.offsetAt rx ≠ b.session.offsetAt b.live.rx) ∨
    event = .select .done ∧ b.ended = none ∧ b.session.ptyDone = true ∧ b.follower.pos < b.session.output.length := by
  cases event with
  | select branch =>
    cases branch with
    | recv screen =>
      simp only [Careful, Classical.not_imp, not_forall] at h
      obtain ⟨hended, hstamped, rx, hrecv, hmoved⟩ := h
      exact .inl ⟨screen, rx, rfl, hended, hstamped, hrecv, hmoved⟩
    | done =>
      simp only [Careful, Classical.not_imp, pending_empty_iff, Nat.not_le] at h
      exact .inr ⟨rfl, h⟩
    | resync screen | ack => exact absurd trivial h
  | session event | refuse offset | requestSnapshot | drop => exact absurd trivial h

theorem careless_loses (h : b.Streams wire start) (hcareless : ¬ b.Careful event) :
    (b.step wire event).Lost b.follower.pos := by
  have huntold : ∀ t ∈ b.follower.told, ¬ t.Covers b.follower.pos :=
    fun t ht => h.sound.not_covers ht (Nat.le_refl _)
  rcases careless_cases hcareless with ⟨screen, rx, rfl, hended, hstamped, hrecv, hmoved⟩ |
    ⟨rfl, hended, hdone, hwaiting⟩
  · have hnone : b.live.nextOffset.isSome = false := hstamped
    have hstep : b.step wire (.select (.recv screen)) = { b with live := { b.live with rx := rx } } := by
      simp [step, select, hended, hrecv, hnone]
    have hbehind := Channel.recv_lagged hrecv
    have hle : b.session.offsetAt b.live.rx ≤ b.session.offsetAt rx := b.session.offsetAt_le (by omega)
    have hpast : b.follower.pos < b.session.offsetAt rx := Nat.lt_of_le_of_ne hle (Ne.symm hmoved)
    rw [hstep]
    exact ⟨Nat.lt_of_lt_of_le hpast (b.session.offsetAt_le_length rx), huntold, .inr ⟨hstamped, hpast⟩⟩
  · have hstep : b.step wire (.select .done) = { b with ended := some .exited } := by
      simp [step, select, hended, hdone]
    rw [hstep]
    exact ⟨hwaiting, huntold, .inl rfl⟩

/-! ## What a careful stream keeps -/

/-- All is told up to the position, and the stream ends at the end of what was written. -/
structure Complete (wire : Wire F) (start : Nat) (b : Bridge F) : Prop extends Streams wire start b where
  told : b.follower.AllTold start
  exited : b.ended = some .exited → b.session.ptyDone = true ∧ b.session.output.length ≤ b.follower.pos

theorem Opened.spec (h : Opened wire session b) :
    b.Streams wire session.output.length ∧ b.session = session ∧ b.follower.pos = session.output.length ∧
      b.ended = none := by
  cases h with
  | tail =>
    obtain ⟨hsession, -, hended, hfollower⟩ := spawn_spec session ⟨session.broadcast.subscribe, none⟩ []
    exact ⟨openTail_streams session, hsession, by rw [openTail, hfollower, session.offsetAt_subscribe], hended⟩
  | snapshot screen =>
    obtain ⟨hsession, -, hended, hfollower⟩ := spawn_spec session
      ⟨session.broadcast.subscribe, some session.capture.endOffset⟩
      [⟨wire.snapshot screen session.capture.endOffset, some (.upTo session.output.length)⟩]
    exact ⟨openSnapshot_streams session screen, hsession,
      by rw [openSnapshot, hfollower, session.offsetAt_subscribe], hended⟩

theorem Opened.complete (h : Opened wire session b) : b.Complete wire session.output.length := by
  obtain ⟨hstreams, -, hpos, hended⟩ := h.spec
  exact ⟨hstreams, fun p hstart hp => absurd hp (by omega), fun hexited => by simp [hended] at hexited⟩

theorem Complete.step (h : b.Complete wire start) (hcareful : b.Careful event)
    (hwrites : b.session.ptyDone = true → ∀ data, event ≠ .session (.write data)) :
    (b.step wire event).Complete wire start := by
  have hfollows : Follows wire b (b.step wire event) := step_follows h.tracks event
  refine ⟨h.toStreams.follow hfollows, h.told.step hfollows.moves fun htold => ?_, fun hexited => ?_⟩
  · rcases step_moves h.tracks htold with hpos | ⟨screen, rx, rfl, hended, hstamped, hrecv, hpos⟩
    · exact hpos
    · exact hpos.trans (hcareful hended hstamped rx hrecv)
  rcases step_exits hexited with hbefore | ⟨rfl, hended, hdone⟩
  · -- after the exit the output stays as it is
    obtain ⟨hdone, hend⟩ := h.exited hbefore
    have hpos := Nat.le_trans hend (h.sound.pos_le hfollows.moves)
    rcases @step_session F wire b event with ⟨e, rfl, hsession⟩ | ⟨-, hsession⟩
    · rw [hsession]
      cases e with
      | write data => exact absurd rfl (hwrites hdone data)
      | exit => exact ⟨rfl, hpos⟩
      | _ => exact ⟨hdone, hpos⟩
    · rw [hsession]
      exact ⟨hdone, hpos⟩
  · have hstep : b.step wire (.select .done) = { b with ended := some .exited } := by
      simp [Bridge.step, select, hended, hdone]
    rw [hstep]
    exact ⟨hdone, pending_empty_iff.mp (hcareful hended hdone)⟩

theorem WritesFirst.guarded {events : List BridgeEvent} (h : WritesFirst events)
    (hdone : b.session.ptyDone = true → ∀ data, .session (.write data) ∉ events) :
    Guarded (step wire) (fun b event => b.session.ptyDone = true → ∀ data, event ≠ .session (.write data)) b events := by
  induction events generalizing b with
  | nil => trivial
  | cons event events ih =>
    obtain ⟨hfirst, hrest⟩ := pairwise_cons.mp h
    refine ⟨fun hb data heq => hdone hb data (heq ▸ mem_cons_self), ih hrest fun hnext data hmem => ?_⟩
    have hexit : b.session.ptyDone = true ∨ event = .session .exit := by
      rcases @step_session F wire b event with ⟨e, rfl, hsession⟩ | ⟨-, hsession⟩
      · exact (Session.ptyDone_after (hsession ▸ hnext)).imp_right (congrArg BridgeEvent.session)
      · exact .inl (hsession ▸ hnext)
    rcases hexit with hb | hexit
    · exact hdone hb data (mem_cons_of_mem _ hmem)
    · exact hfirst _ hmem hexit data rfl

/-- A stream that ends with the process has delivered all that was written since it was opened exactly when it has
    skipped no bytes, and no bytes were waiting when it took the end of the process. -/
theorem exit_complete_iff {session : Session} (hopened : Opened wire session b) (hrunning : session.ptyDone = false)
    {events : List BridgeEvent} (hwrites : WritesFirst events)
    (hexited : (events.foldl (step wire) b).ended = some .exited) :
    (∀ p, session.output.length ≤ p → p < (events.foldl (step wire) b).session.output.length →
      (events.foldl (step wire) b).Delivers wire p) ↔
    Guarded (step wire) Careful b events := by
  obtain ⟨hstreams, hsession, -, -⟩ := hopened.spec
  constructor
  · intro hdelivers
    refine guarded_iff.mpr ?_
    rintro before event after rfl
    by_contra hcareless
    have hbefore := hstreams.run before
    rw [foldl_append, foldl_cons] at hdelivers
    have hlost : (after.foldl (step wire) ((before.foldl (step wire) b).step wire event)).Lost _ :=
      (careless_loses hbefore hcareless).run (step_follows hbefore.tracks event).tracks after
    exact hlost.not_delivers (hdelivers _ hbefore.onward hlost.written)
  · intro hguarded p hstart hp
    have hboth := guarded_both hguarded (hwrites.guarded (by simp [hsession, hrunning]))
    have hcomplete : (events.foldl (step wire) b).Complete wire session.output.length :=
      guarded_keeps (fun b event hb hok => hb.step hok.1 hok.2) hopened.complete hboth
    obtain ⟨t, ht, hcovers⟩ := hcomplete.told p hstart (Nat.lt_of_lt_of_le hp (hcomplete.exited hexited).2)
    obtain ⟨item, hitem, htold⟩ := mem_filterMap.mp ht
    have hright := (hcomplete.sound.told t ht).mono hcomplete.sound.within [] hcomplete.sound.within
    rw [append_nil] at hright
    exact ⟨item, hitem, t, htold, hcovers, hright, hcomplete.shows item hitem⟩

theorem exit_complete_iff_drained :
    ([.session (.write [0x78]), .session .exit, .select (.recv ⟨[], 24, 80⟩), .select .done].foldl (step roomWire)
      (openSnapshot roomWire .new ⟨[], 24, 80⟩)).session.output = [0x78] ∧
    ([.session (.write [0x78]), .session .exit, .select (.recv ⟨[], 24, 80⟩), .select .done].foldl (step roomWire)
      (openSnapshot roomWire .new ⟨[], 24, 80⟩)).Delivers roomWire 0 := by
  have hcareful : Guarded (step roomWire) Careful (openSnapshot roomWire .new ⟨[], 24, 80⟩)
      [.session (.write [0x78]), .session .exit, .select (.recv ⟨[], 24, 80⟩), .select .done] :=
    ⟨trivial, trivial, fun _ hstamped => absurd hstamped (by decide), fun _ _ => rfl, trivial⟩
  have hdelivers := (exit_complete_iff (.snapshot _) rfl (by simp [WritesFirst]) rfl).mpr hcareful
  exact ⟨rfl, hdelivers 0 (Nat.le_refl 0) Nat.zero_lt_one⟩

/-- The process writes a byte and exits, and the loop takes the exit first. -/
theorem output_is_lost_at_exit :
    WritesFirst [.session (.write [0x78]), .session .exit, .select .done] ∧
    ([.session (.write [0x78]), .session .exit, .select .done].foldl (step roomWire)
      (openSnapshot roomWire .new ⟨[], 24, 80⟩)).ended = some .exited ∧
    ([.session (.write [0x78]), .session .exit, .select .done].foldl (step roomWire)
      (openSnapshot roomWire .new ⟨[], 24, 80⟩)).session.output = [0x78] ∧
    ([.session (.write [0x78]), .session .exit, .select .done].foldl (step roomWire)
      (openSnapshot roomWire .new ⟨[], 24, 80⟩)).sent.map (·.frame) = [⟨ris, true, 0, 0⟩] ∧
    ¬ ([.session (.write [0x78]), .session .exit, .select .done].foldl (step roomWire)
      (openSnapshot roomWire .new ⟨[], 24, 80⟩)).Delivers roomWire 0 := by
  refine ⟨by simp [WritesFirst], rfl, rfl, rfl, ?_⟩
  rintro ⟨item, hitem, t, htold, hcovers, -⟩
  have hsent : item = ⟨⟨ris, true, 0, 0⟩, some (.upTo 0)⟩ := mem_singleton.mp hitem
  rw [hsent, Option.some.injEq] at htold
  rw [← htold] at hcovers
  exact Nat.not_lt_zero 0 hcovers

end Bridge

end TddyCoder.Terminal
