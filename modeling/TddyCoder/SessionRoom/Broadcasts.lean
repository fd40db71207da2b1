/-
  TddyCoder.SessionRoom.Broadcasts — which rows of the activity log a room's loop publishes
  (`SessionRoomPoll::run` and `broadcast_new_activity` of
  `packages/tddy-daemon-livekit/src/session_room.rs`).

  The log is read before the checkout is measured. A tick that cannot measure drops what it read
  and relies on the next one to find it again, but the log keeps only its newest calls.

  Proved: `calls_go_out_iff`; `a_call_that_ended_is_dropped` is one that does not.
-/

import TddyCoder.SessionRoom.Poll
import Mathlib.Data.List.Nodup

namespace TddyCoder.SessionRoom

open List

/-- The states in which a call goes out, in order: whether it has ended. -/
def phases (call : String) (sent : List AgentActivityRecord) : List Bool :=
  (sent.filter (·.callId = call)).map (·.isTerminal)

/-- A call has ended, by one of the logs. -/
def Ended (call : String) (logs : List (List AgentActivityRecord)) : Prop := ∃ log ∈ logs, true ∈ phases call log

/-- The states in which a call can still go out. -/
def phasesLeft : Option Bool → List Bool
  | none => [false, true]
  | some false => [true]
  | some true => []

variable {rows : BroadcastActivityRows} {log sent : List AgentActivityRecord} {call : String}

theorem phases_fresh :
    phases call (rows.fresh log) = (phases call log).filter (· ∈ phasesLeft (rows.handled call)) := by
  rw [phases, phases, BroadcastActivityRows.fresh, filter_map, filter_filter, filter_filter]
  congr 1
  refine filter_congr fun r _ => ?_
  by_cases hr : r.callId = call
  · rcases hh : rows.handled call with _ | _ | _ <;> cases ht : r.isTerminal <;>
      simp [BroadcastActivityRows.alreadyBroadcast, phasesLeft, hr, hh, ht]
  · simp [hr]

theorem handled_foldl :
    (sent.foldl .markBroadcast rows).handled call = (phases call sent).foldl (fun _ b => some b) (rows.handled call) := by
  induction sent generalizing rows with
  | nil => rfl
  | cons r sent ih =>
    rw [foldl_cons, ih]
    by_cases hr : r.callId = call
    · simp [phases, BroadcastActivityRows.markBroadcast, hr]
    · simp [phases, BroadcastActivityRows.markBroadcast, hr, Function.update_of_ne (Ne.symm hr)]

/-- Of a log with one row for each call, a call goes out in a state that was left, and its end stays left until then. -/
theorem phasesLeft_fresh (hlog : (log.map (·.callId)).Nodup) (handled : Option Bool) :
    let out := (phases call log).filter (· ∈ phasesLeft handled)
    let left := phasesLeft (out.foldl (fun _ b => some b) handled)
    (out ++ left).Sublist (phasesLeft handled) ∧ (true ∈ phasesLeft handled → true ∈ out ++ left) := by
  have hle : (phases call log).length ≤ 1 := by
    have hcount := nodup_iff_count_le_one.mp hlog call
    rw [List.count, countP_map, countP_eq_length_filter] at hcount
    rw [phases, length_map]
    exact hcount
  rcases hphases : phases call log with _ | ⟨b, _ | ⟨_, _⟩⟩
  · simp
  · rcases handled with _ | _ | _ <;> cases b <;> decide
  · simp [hphases] at hle

namespace Poll

variable {T : Type} [DecidableEq T]

def measures (t : Tick T) : Bool :=
  match t.measurement with
  | .taken .. => true
  | _ => false

/-- The log that is read at a tick, if it is one of those in question. -/
def logRead (among : Tick T → Bool) (p : Poll T) (t : Tick T) : Option (List AgentActivityRecord) :=
  if (p.stopped || !t.hosted) || !among t then none else t.log

/-- The rows a tick publishes, but for the seq they are stamped with. -/
def published (p : Poll T) (t : Tick T) : List AgentActivityRecord :=
  match p.logRead measures t with
  | none => []
  | some log => p.rows.fresh log

section run

variable (diff : T → T → List UInt8)

def logsRead (among : Tick T → Bool) : Poll T → List (Tick T) → List (List AgentActivityRecord)
  | _, [] => []
  | p, t :: ticks => (p.logRead among t).toList ++ logsRead among (p.tick diff t) ticks

def broadcasts : Poll T → List (Tick T) → List AgentActivityRecord
  | _, [] => []
  | p, t :: ticks => p.published t ++ broadcasts (p.tick diff t) ticks

/-- Each call goes out at most once as running and then at most once as ended, and a call that has ended by a log that
    was read goes out as ended. -/
structure GoesOut (p : Poll T) (ticks : List (Tick T)) : Prop where
  once : ∀ call, (phases call (p.broadcasts diff ticks)).Sublist [false, true]
  ended : ∀ call, Ended call (p.logsRead diff (fun _ => true) ticks) → true ∈ phases call (p.broadcasts diff ticks)

end run

/-- A log has one row a call. -/
def Coalesced (t : Tick T) : Prop := ∀ log ∈ t.log, (log.map (·.callId)).Nodup

variable {diff : T → T → List UInt8} {p : Poll T} {t : Tick T} {ticks : List (Tick T)}

theorem tick_rows : (p.tick diff t).rows = (p.published t).foldl .markBroadcast p.rows := by
  unfold tick published logRead measures
  cases p.stopped || !t.hosted with
  | true => rfl
  | false =>
    cases t.measurement with
    | unavailable | gone => rfl
    | taken measured attachments => exact (measuredTick_ticked diff p t measured attachments).2

theorem phases_published (hlog : Coalesced t) :
    let left := phasesLeft ((p.tick diff t).rows.handled call)
    (phases call (p.published t) ++ left).Sublist (phasesLeft (p.rows.handled call)) ∧
      (true ∈ phasesLeft (p.rows.handled call) → true ∈ phases call (p.published t) ++ left) := by
  rw [tick_rows, handled_foldl, published]
  cases hread : p.logRead measures t with
  | none => exact ⟨Sublist.refl _, id⟩
  | some log =>
    rw [phases_fresh]
    refine phasesLeft_fresh ?_ _
    unfold logRead at hread
    split at hread
    · cases hread
    · exact hlog log hread

theorem phases_broadcasts (hlogs : ∀ t ∈ ticks, Coalesced t) :
    (phases call (p.broadcasts diff ticks)).Sublist (phasesLeft (p.rows.handled call)) := by
  induction ticks generalizing p with
  | nil => exact nil_sublist _
  | cons t ticks ih =>
    obtain ⟨hlog, hlogs⟩ := forall_mem_cons.mp hlogs
    rw [broadcasts, phases, filter_append, map_append]
    exact ((Sublist.refl _).append (ih hlogs)).trans (phases_published hlog).1

theorem ended_broadcasts (hlogs : ∀ t ∈ ticks, Coalesced t) (hleft : true ∈ phasesLeft (p.rows.handled call)) :
    true ∈ phases call (p.broadcasts diff ticks) ↔ Ended call (p.logsRead diff measures ticks) := by
  induction ticks generalizing p with
  | nil => simp [broadcasts, phases, logsRead, Ended]
  | cons t ticks ih =>
    obtain ⟨hlog, hlogs⟩ := forall_mem_cons.mp hlogs
    have hnow : true ∈ phases call (p.published t) ↔ Ended call (p.logRead measures t).toList := by
      unfold published
      cases p.logRead measures t with
      | none => simp [phases, Ended]
      | some log => simp [phases_fresh, hleft, Ended]
    have hlater : true ∉ phases call (p.published t) → (true ∈ phases call ((p.tick diff t).broadcasts diff ticks) ↔
        Ended call ((p.tick diff t).logsRead diff measures ticks)) :=
      fun hnot => ih hlogs ((mem_append.mp ((phases_published hlog).2 hleft)).resolve_left hnot)
    have hsplit : Ended call (p.logsRead diff measures (t :: ticks)) ↔ Ended call (p.logRead measures t).toList ∨
        Ended call ((p.tick diff t).logsRead diff measures ticks) := by
      simp [logsRead, Ended, or_and_right, exists_or]
    rw [hsplit, ← hnow, broadcasts, phases, filter_append, map_append, mem_append]
    exact or_congr_right' hlater

end Poll

/-- Where a log has one row for each call, the calls go out as they should exactly if those that have ended by a log that
    was read have ended by one that was read at a tick that measured. -/
theorem calls_go_out_iff {T : Type} [DecidableEq T] (diff : T → T → List UInt8) (hasWorktree : Bool)
    (snapshot : WorktreeSnapshot T) (attachments : List String) (checkout : T) (ticks : List (Tick T))
    (hlogs : ∀ t ∈ ticks, Poll.Coalesced t) :
    let p := register hasWorktree snapshot attachments checkout
    p.GoesOut diff ticks ↔ ∀ call, Ended call (p.logsRead diff (fun _ => true) ticks) →
      Ended call (p.logsRead diff Poll.measures ticks) := by
  intro p
  have hended := fun call => @Poll.ended_broadcasts call T _ diff p ticks hlogs (.tail _ (.head _))
  constructor
  · exact fun h call hread => (hended call).mp (h.ended call hread)
  · exact fun h => ⟨fun call => Poll.phases_broadcasts hlogs, fun call hread => (hended call).mpr (h call hread)⟩

def unborn : WorktreeSnapshot Unit := ⟨"", "", [], 0, 0, 0, 0, none⟩

theorem a_call_starts_and_ends :
    (register false unborn [] ()).GoesOut (fun _ _ => [])
      [{ checkout := (), measurement := .taken unborn [], log := some [⟨"a", "running", 0, []⟩] },
        { checkout := (), measurement := .taken unborn [], log := some [⟨"a", "completed", 0, []⟩] }] :=
  (calls_go_out_iff _ _ _ _ _ _ (by simp [Poll.Coalesced])).mpr fun _ h => h

/-- A call has ended when the checkout cannot be measured, and the log has dropped it when it can. -/
theorem a_call_that_ended_is_dropped :
    ¬ (register false unborn [] ()).GoesOut (fun _ _ => [])
      [{ checkout := (), measurement := .unavailable, log := some [⟨"a", "completed", 0, []⟩] },
        { checkout := (), measurement := .taken unborn [], log := some [] }] := fun h =>
  absurd (h.ended "a" ⟨_, mem_cons_self, by decide⟩) (by decide)

end TddyCoder.SessionRoom
