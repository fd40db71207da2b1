/-
  TddyCoder.SessionAgents.Metadata — the writers of `.session.yaml`
  (`persist_roster` of `packages/tddy-session-agents/src/session_agent_roster.rs`;
  `update_activity_status` and `set_pending_elicitation` of
  `packages/tddy-changeset/src/session_metadata.rs`).

  Each reads the whole file, changes some fields and renames a new file into place. The read and
  the write are atomic, with nothing between them that notices another writer; a call whose
  write fails leaves the file standing. The file is there and can be read. Fields no call sets
  are one value `rest`.

  Proved: `no_update_is_lost`, over every run in which nobody wrote a field that the call does not
  set between its read and its write (`Current`). `an_attached_agent_is_lost` is a run that fails.
-/

import Mathlib.Data.List.Permutation
import TddyCoder.Machine.Guarded

namespace TddyCoder.SessionAgents.Metadata

open Machine List

/-- `SessionMetadata`, over the type of a roster's entries and that of the fields no call sets. -/
structure SessionMetadata (α ρ : Type) where
  updatedAt : String
  pendingElicitation : Bool
  activityStatus : Option String
  agents : List α
  agentsRev : Nat
  /-- Read, and never written back. -/
  legacySpecializedAgents : List String
  rest : ρ
deriving DecidableEq

variable {α ρ : Type}

inductive Call (α : Type)
  | persistRoster (agents : List α) (rev : Nat)
  | updateActivityStatus (status now : String)
  | setPendingElicitation (pending : Bool) (now : String)
deriving DecidableEq

namespace Call

def leaves (k : Call α) (found : SessionMetadata α ρ) : Bool :=
  match k with
  | .setPendingElicitation pending _ => found.pendingElicitation = pending
  | _ => false

/-- What the call writes, having read `found`. -/
def rewrite (k : Call α) (found : SessionMetadata α ρ) : SessionMetadata α ρ :=
  let found := { found with legacySpecializedAgents := [] }
  match k with
  | .persistRoster agents rev => { found with agents, agentsRev := rev }
  | .updateActivityStatus status now => { found with activityStatus := some status, updatedAt := now }
  | .setPendingElicitation pending now => { found with pendingElicitation := pending, updatedAt := now }

def apply (k : Call α) (found : SessionMetadata α ρ) : SessionMetadata α ρ :=
  if k.leaves found then found else k.rewrite found

end Call

structure State (α ρ : Type) where
  file : SessionMetadata α ρ
  /-- The calls that have read and not written, with what they read. -/
  reading : List (Call α × SessionMetadata α ρ)
  /-- The calls that have returned, in the order they did. -/
  completed : List (Call α)

inductive Step (α : Type)
  | read (call : Call α)
  | write (position : Nat)
  | failWrite (position : Nat)

namespace State

def step (s : State α ρ) : Step α → State α ρ
  | .read k =>
    if k.leaves s.file then { s with completed := s.completed ++ [k] }
    else { s with reading := s.reading ++ [(k, s.file)] }
  | .write position =>
    match s.reading[position]? with
    | some (k, found) => ⟨k.rewrite found, s.reading.eraseIdx position, s.completed ++ [k]⟩
    | none => s
  | .failWrite position => { s with reading := s.reading.eraseIdx position }

def run (file : SessionMetadata α ρ) (steps : List (Step α)) : State α ρ := steps.foldl step ⟨file, [], []⟩

end State

def inOrder (file : SessionMetadata α ρ) (calls : List (Call α)) : SessionMetadata α ρ :=
  calls.foldl (fun file k => k.apply file) file

/-- The roster and revision of the last roster change among the calls, else those of the file. -/
def lastRoster (file : SessionMetadata α ρ) (calls : List (Call α)) : List α × Nat :=
  calls.foldl (fun last k => match k with
    | .persistRoster agents rev => (agents, rev)
    | _ => last) (file.agents, file.agentsRev)

/-- The fields that the call does not set, and the flag that it compares, have the same values. -/
def Call.Untouched (k : Call α) (found now : SessionMetadata α ρ) : Prop :=
  found.pendingElicitation = now.pendingElicitation ∧ found.rest = now.rest ∧
  match k with
  | .persistRoster .. => found.updatedAt = now.updatedAt ∧ found.activityStatus = now.activityStatus
  | .updateActivityStatus .. => found.agents = now.agents ∧ found.agentsRev = now.agentsRev
  | .setPendingElicitation .. =>
    found.activityStatus = now.activityStatus ∧ found.agents = now.agents ∧ found.agentsRev = now.agentsRev

/-- At a write, what the call leaves as it is was not written since the call read. -/
def Current (s : State α ρ) : Step α → Prop
  | .write position => ∀ k found, s.reading[position]? = some (k, found) → k.Untouched found s.file
  | _ => True

open State Call

variable {file found now : SessionMetadata α ρ} {k : Call α} {s : State α ρ}

theorem rewrite_eq (h : k.Untouched found now) : k.rewrite found = k.rewrite now := by
  rcases found with ⟨_, _, _, _, _, _, _⟩
  rcases now with ⟨_, _, _, _, _, _, _⟩
  cases k <;> simp_all [Call.Untouched, rewrite]

theorem leaves_eq (h : k.Untouched found now) : k.leaves found = k.leaves now := by
  cases k with
  | persistRoster | updateActivityStatus => rfl
  | setPendingElicitation pending _ => rw [leaves, leaves, h.1]

structure Explained (file : SessionMetadata α ρ) (s : State α ρ) : Prop where
  inOrder : s.file = inOrder file s.completed
  roster : (s.file.agents, s.file.agentsRev) = lastRoster file s.completed
  /-- A call that has read has something to write. -/
  writes : ∀ k found, (k, found) ∈ s.reading → k.leaves found = false

/-- A call that returns has done to the file what it does alone. -/
theorem Explained.completed {reading : List (Call α × SessionMetadata α ρ)} (h : Explained file s)
    (happly : k.apply s.file = now) (hsub : reading ⊆ s.reading) :
    Explained file ⟨now, reading, s.completed ++ [k]⟩ := by
  subst happly
  refine ⟨?_, ?_, fun k found hmem => h.writes k found (hsub hmem)⟩
  · rw [h.inOrder, Metadata.inOrder, Metadata.inOrder, foldl_append]
    rfl
  rw [lastRoster, foldl_append, ← lastRoster, ← h.roster]
  cases k with
  | persistRoster | updateActivityStatus => rfl
  | setPendingElicitation pending at_ =>
    simp only [Call.apply]
    split <;> rfl

theorem explained_step (h : Explained file s) (a : Step α) (hcurrent : Current s a) : Explained file (s.step a) := by
  cases a with
  | read k =>
    simp only [step]
    split
    · next hleaves => exact h.completed (if_pos hleaves) (Subset.refl _)
    · next hwrites =>
      refine ⟨h.inOrder, h.roster, fun k' found hmem => ?_⟩
      rcases mem_append.mp hmem with hmem | hmem
      · exact h.writes k' found hmem
      · cases mem_singleton.mp hmem
        exact Bool.eq_false_of_not_eq_true hwrites
  | write position =>
    simp only [step]
    split
    · next k found hheld =>
      have hsame := hcurrent k found hheld
      have hwrites : k.leaves s.file = false := leaves_eq hsame ▸ h.writes k found (mem_of_getElem? hheld)
      have happly : k.apply s.file = k.rewrite found := by
        rw [Call.apply, hwrites, rewrite_eq hsame]
        rfl
      exact h.completed happly eraseIdx_subset
    · exact h
  | failWrite position => exact ⟨h.inOrder, h.roster, fun k found hmem => h.writes k found (mem_of_mem_eraseIdx hmem)⟩

/-- Where each call writes with what it leaves as it is unchanged since it read, the file is at every moment what the
    calls that have returned leave one after another, its roster that of the last roster change. -/
theorem no_update_is_lost (file : SessionMetadata α ρ) (steps : List (Step α))
    (h : Guarded State.step Current ⟨file, [], []⟩ steps) (reached : List (Step α)) (hr : reached <+: steps) :
    (State.run file reached).file = inOrder file (State.run file reached).completed ∧
      ((State.run file reached).file.agents, (State.run file reached).file.agentsRev) =
        lastRoster file (State.run file reached).completed := by
  have hstart : Explained file ⟨file, [], []⟩ := ⟨rfl, rfl, fun _ _ hmem => absurd hmem not_mem_nil⟩
  have hstep : ∀ s a, Explained file s → Current s a → Explained file (s.step a) := fun _ a hs => explained_step hs a
  have hreached : Explained file (run file reached) := guarded_reached hstep hstart h hr
  exact ⟨hreached.inOrder, hreached.roster⟩

/-- An agent is attached; then two status reports read the file before either writes, and a third call finds nothing to
    change. -/
theorem overlapping_reports_are_both_kept :
    let file : SessionMetadata String Unit := ⟨"t0", false, none, [], 0, [], ()⟩
    let report (status at_ : String) : Call String := .updateActivityStatus status at_
    let s := run file [.read (.persistRoster ["reviewer"] 1), .write 0, .read (report "Running" "t1"),
      .read (report "Idle" "t2"), .read (.setPendingElicitation false "t3"), .write 0, .write 0]
    s.file = inOrder file s.completed ∧ (s.file.agents, s.file.agentsRev) = lastRoster file s.completed := by
  intro file report s
  refine no_update_is_lost file _ ?_ _ (List.prefix_refl _)
  refine ⟨trivial, ?_, trivial, trivial, trivial, ?_, ?_, trivial⟩
  all_goals
    rintro k found ⟨⟩
    exact ⟨rfl, rfl, rfl, rfl⟩

/-- A status report reads the file before an agent is attached and writes it back after. -/
theorem an_attached_agent_is_lost :
    let file : SessionMetadata String Unit := ⟨"t0", false, none, [], 0, [], ()⟩
    let attach : Call String := .persistRoster ["reviewer"] 1
    let report : Call String := .updateActivityStatus "Running" "t1"
    let s := run file [.read report, .read attach, .write 1, .write 0]
    s.completed = [attach, report] ∧ s.file.agents = [] ∧ s.file.agentsRev = 0 ∧
      ∀ order, order.Perm s.completed → s.file ≠ inOrder file order := by
  refine ⟨by decide, by decide, by decide, ?_⟩
  intro order hperm
  rcases perm_pair.mp hperm with rfl | rfl <;> decide

end TddyCoder.SessionAgents.Metadata
