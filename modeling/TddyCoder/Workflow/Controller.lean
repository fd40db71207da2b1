/-
  TddyCoder.Workflow.Controller — the position of an agent-driven workflow and the events that
  report it (`packages/tddy-workflow-engine/src/workflow/controller.rs`).

  A transition is decided, persisted and committed under the controller's lock; its
  `StateChange` goes out after the lock is dropped, as a step of its own, so the events of two
  callers may pass each other. The `GoalStarted` sent behind each of them is left out. A new
  controller writes nothing: until the first commit the changeset is what it was.

  Proved: where no event overtakes that of an earlier commit, `state_changes_form_a_chain`.
  A run in which one does: `state_changes_pass_each_other`.
-/

import TddyCoder.Machine.Guarded

namespace TddyCoder.Workflow

open Machine

structure StateChange where
  origin : String
  target : String
  deriving DecidableEq

structure Controller where
  current : String
  provisional : Option String
  /-- The state in `changeset.yaml`, where there is a session directory. -/
  persisted : Option String
  /-- What the callers that have committed are still to send, in the order of the commits. -/
  unsent : List StateChange
  sent : List StateChange
  deriving DecidableEq

inductive TransitionOutcome
  | committed (origin target : String)
  | recordedProvisional (target : String)
  | rejected (reason : String)

variable (successors : String → List String)

/-- The part of `transition` that runs under the lock; `persist` is what `persist_state` answers. -/
def Controller.transition (c : Controller) (target : String) (provisional : Bool) (persist : Except String Unit) :
    TransitionOutcome × Controller :=
  let valid := successors c.current
  if target = c.current then (.rejected ("already at goal '" ++ c.current ++ "'; no transition performed"), c)
  else if target ∉ valid then
    (.rejected ("'" ++ target ++ "' is not a valid transition from '" ++ c.current ++ "'. Valid next goals: [" ++
      ", ".intercalate valid ++ "]"), c)
  else if provisional then (.recordedProvisional target, { c with provisional := some target })
  else
    let committed := { c with
      current := target
      provisional := none
      persisted := c.persisted.map fun _ => target
      unsent := c.unsent ++ [⟨c.current, target⟩] }
    match c.persisted, persist with
    | some _, .error e => (.rejected ("failed to persist transition to '" ++ target ++ "': " ++ e), c)
    | _, _ => (.committed c.current target, committed)

inductive Step
  | transition (target : String) (provisional : Bool) (persist : Except String Unit)
  /-- One of the callers sends. -/
  | send (caller : Nat)

def Controller.step (c : Controller) : Step → Controller
  | .transition target provisional persist => (c.transition successors target provisional persist).2
  | .send caller => { c with unsent := c.unsent.eraseIdx caller, sent := c.sent ++ c.unsent[caller]?.toList }

/-- Whatever state the changeset is in. -/
def Controller.newAt (start : String) (persisted : Option String) : Controller := ⟨start, none, persisted, [], []⟩

/-- The events lead from one goal to another along edges of the graph. -/
def Leads : String → List StateChange → String → Prop
  | goal, [], last => goal = last
  | goal, event :: events, last =>
    event.origin = goal ∧ event.target ∈ successors goal ∧ Leads event.target events last

variable {successors}

theorem leads_append {goal last : String} {events events' : List StateChange} :
    Leads successors goal (events ++ events') last ↔
      ∃ mid, Leads successors goal events mid ∧ Leads successors mid events' last := by
  induction events generalizing goal with
  | nil => simp [Leads]
  | cons event events ih => simp only [List.cons_append, Leads, ih]; tauto

/-- An event is sent before those of later commits. -/
def InTurn (_ : Controller) : Step → Prop
  | .transition .. => True
  | .send caller => caller = 0

variable (successors) in
structure Reported (start : String) (c : Controller) : Prop where
  leads : Leads successors start (c.sent ++ c.unsent) c.current
  persisted : c.sent ++ c.unsent ≠ [] → ∀ goal ∈ c.persisted, goal = c.current

theorem Reported.step {start : String} {c : Controller} {s : Step} (h : Reported successors start c) (hturn : InTurn c s) :
    Reported successors start (c.step successors s) := by
  cases s with
  | transition target provisional persist =>
    simp only [Controller.step, Controller.transition]
    split
    · exact h
    split
    · exact h
    · next hvalid =>
      split
      · exact ⟨h.leads, h.persisted⟩
      split
      · exact h
      refine ⟨?_, fun _ => by simp⟩
      have hedge : Leads successors c.current [⟨c.current, target⟩] target := ⟨rfl, not_not.mp hvalid, rfl⟩
      rw [← List.append_assoc]
      exact leads_append.mpr ⟨_, h.leads, hedge⟩
  | send caller =>
    cases hturn
    have hsame : c.sent ++ c.unsent[0]?.toList ++ c.unsent.eraseIdx 0 = c.sent ++ c.unsent := by
      cases c.unsent <;> simp
    exact ⟨hsame ▸ h.leads, fun hne => h.persisted (hsame ▸ hne)⟩

/-- For every interleaving in which no event overtakes that of an earlier commit, at every point of it: the events sent so
    far form a chain of edges from the start goal, which ends at the current goal once all are sent, and from the first
    commit on that goal is the persisted one. -/
theorem state_changes_form_a_chain (successors : String → List String) (start : String) (persisted : Option String)
    (steps : List Step) (hturn : Guarded (Controller.step successors) InTurn (.newAt start persisted) steps)
    {reached : List Step} (hreached : reached <+: steps) :
    let c := reached.foldl (Controller.step successors) (.newAt start persisted)
    (∃ goal, Leads successors start c.sent goal) ∧ (c.unsent = [] → Leads successors start c.sent c.current) ∧
      (c.sent ++ c.unsent ≠ [] → ∀ goal ∈ c.persisted, goal = c.current) := by
  intro c
  have hstart : Reported successors start (.newAt start persisted) := ⟨rfl, fun hne => absurd rfl hne⟩
  have h : Reported successors start c := guarded_reached (fun _ _ hc hok => hc.step hok) hstart hturn hreached
  obtain ⟨goal, hgoal, -⟩ := leads_append.mp h.leads
  refine ⟨⟨goal, hgoal⟩, fun hnone => ?_, h.persisted⟩
  simpa [hnone] using h.leads

def line (goal : String) : List String := if goal = "a" then ["b"] else if goal = "b" then ["c"] else []

theorem two_commits_sent_in_turn :
    let steps := [.transition "b" false (.ok ()), .transition "c" false (.ok ()), .send 0, .send 0]
    let c := steps.foldl (Controller.step line) (.newAt "a" (some "Init"))
    c.unsent = [] ∧ Leads line "a" c.sent c.current ∧ ∀ goal ∈ c.persisted, goal = c.current := by
  intro steps c
  have hturn : Guarded (Controller.step line) InTurn (.newAt "a" (some "Init")) steps :=
    ⟨trivial, trivial, rfl, rfl, trivial⟩
  obtain ⟨-, hchain, hpersisted⟩ := state_changes_form_a_chain line "a" (some "Init") steps hturn (List.prefix_refl _)
  exact ⟨by decide, hchain (by decide), hpersisted (by decide)⟩

/-- Two callers commit, and the second one sends first. -/
theorem state_changes_pass_each_other :
    let c := [.transition "b" false (.ok ()), .transition "c" false (.ok ()), .send 1, .send 0].foldl
      (Controller.step line) (.newAt "a" (some "Init"))
    c.unsent = [] ∧ c.sent = [⟨"b", "c"⟩, ⟨"a", "b"⟩] ∧ ∀ goal, ¬ Leads line "a" c.sent goal := by
  refine ⟨by decide, by decide, fun goal hleads => ?_⟩
  exact absurd hleads.1 (by decide)

end TddyCoder.Workflow
