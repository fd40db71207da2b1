/-
  TddyCoder.Restructure.Commit — committing one operation, and what a resume makes of a commit
  that was cut short (`commit_operation` of `packages/tddy-code-restructuring/src/runner.rs`,
  `hash_file` and `touched_paths` of `apply.rs`, `resume_decision` of `journal.rs`).

  A resume compares the files with the hashes from before the edit, then with those from after
  it. The record that is in flight has only the former, so an edit that is applied but not
  recorded as completed is never recognised. How the edit is applied is a parameter.

  Proved: `a_cut_commit_is_decided_iff`; `an_applied_edit_is_given_up` is such an edit.
-/

import Mathlib.Data.List.Dedup
import TddyCoder.Prog.Durable
import TddyCoder.Restructure.Journal

namespace TddyCoder.Restructure

open Text Machine List
open Durable (Keeps ask change)

inductive RunError
  | restructure (error : RestructureError)
  | indeterminateJournal (op : Nat)
  | checkpointDivergence (op : Nat)
  | planOutOfSync (op : Nat)
  | planUnverifiable (applied : Nat)
  | untrackedMoveSource (op : Nat)
  | groupDoesNotCompile (group : String)
  | staleOperation (op : OpId)
  | callerStopped
  | journalExists
  | usage
  deriving DecidableEq

/-! ## Files -/

/-- What a read finds: a file, or nothing. It fails at a directory and below a file. -/
def Tree.read (t : Tree) (path : Path) : Except RestructureError (Option (List Char)) :=
  if (List.range path.length).any fun n => (t.fileAt (path.take n)).isSome then .error .io
  else if t.isDir path then .error .io
  else .ok (t.fileAt path)

def pathText (path : Path) : String := "/".intercalate path

def FileEdit.paths : FileEdit → List Path
  | .change path _ => [path]
  | .create path => [path]
  | .rename source dest => [source, dest]

def touchedPaths (edit : WorkspaceEdit) : List Path :=
  ((edit.changes.flatMap FileEdit.paths).insertionSort fun p q => pathText p ≤ pathText q).dedup

theorem mem_touchedPaths {edit : WorkspaceEdit} {path : Path} :
    path ∈ touchedPaths edit ↔ ∃ change ∈ edit.changes, path ∈ change.paths := by
  rw [touchedPaths, mem_dedup, mem_insertionSort, mem_flatMap]

section hashing

variable (hash : List Char → String) (t : Tree)

def hashFile (path : Path) : Except RestructureError String :=
  (t.read path).map fun contents => hash (contents.getD [])

def hashTouchedFiles (edit : WorkspaceEdit) : Except RestructureError Hashes :=
  (touchedPaths edit).mapM fun path => (hashFile hash t path).map (path, ·)

def hashesMatchEach (t : Tree) : Hashes → Except RestructureError Bool
  | [] => .ok true
  | (path, expected) :: rest =>
    match hashFile hash t path with
    | .error e => .error e
    | .ok found => if found ≠ expected then .ok false else hashesMatchEach t rest

def hashesMatch (expected : Hashes) : Except RestructureError Bool :=
  if expected.isEmpty then .ok false else hashesMatchEach hash t expected

def resumeDecision (j : Journal) : Except RestructureError (Option ResumeDecision) := do
  match j.records.getLast? with
  | none => return none
  | some record =>
    if record.status ≠ .inFlight then return none
    else if ← hashesMatch hash t record.pre then return some (.reRun record.op)
    else if ← hashesMatch hash t record.post then return some (.markCompleted record.op)
    else return some (.abort record.op)

end hashing

/-! ## Committing -/

inductive Anchor
  | symbol (file : String) (path : String)
  | range (file : String) (start stop : Position)
  | item (item file : String) (span : Option (Position × Position)) (fingerprint : String) (hint : Option Position)
  | items (file : String) (items fingerprints : List String)
  deriving DecidableEq

/-- An operation of a plan that is held: the store has given it an id. -/
structure RefactorOp where
  id : OpId
  anchor : Anchor
  also : List Anchor
  group : Option String
  deriving DecidableEq

structure Plan where
  ops : List RefactorOp
  deriving DecidableEq

/-- What outlives a run: the working tree, the journal, the ledger's checkpoint and the plan file. -/
structure Disk where
  tree : Tree
  journal : Journal
  ledger : Option LedgerCheckpoint
  plan : Plan

namespace Disk

def append (d : Disk) (record : JournalRecord) : Disk := { d with journal := d.journal.append record }

/-- The ledger folded through the operation becomes the checkpoint. -/
def checkpoint (d : Disk) (op : Nat) : Disk := { d with ledger := some ⟨op, d.journal.foldThrough op⟩ }

end Disk

abbrev Program := Durable Disk RunError

def onTree {α : Type} (m : Durable Tree RestructureError α) : Program α where
  run d := ⟨(m.run d.tree).passed.map fun tree => { d with tree }, (m.run d.tree).result.mapError .restructure⟩

def applyAtOnce (git : Git) (edit : WorkspaceEdit) : Durable Tree RestructureError Unit :=
  Durable.step (applyWorkspaceEdit git · edit)

def commitOperation (hash : List Char → String) (apply : WorkspaceEdit → Durable Tree RestructureError Unit) (index : Nat)
    (id : Option OpId) (edit : WorkspaceEdit) : Program Unit := do
  let pre ← onTree (ask (hashTouchedFiles hash · edit))
  change (·.append (.inFlight index id pre))
  onTree (apply edit)
  let post ← onTree (ask (hashTouchedFiles hash · edit))
  change (·.append (.completed index id edit pre post))
  change (·.checkpoint index)

section onTree

variable {α β : Type} {m : Durable Tree RestructureError α} {f : α → Program β} {d : Disk} {a : α}

theorem final_onTree (m : Durable Tree RestructureError α) (d : Disk) :
    (onTree m).final d = { d with tree := m.final d.tree } := by
  simp only [Durable.final, onTree, getLastD_eq_getLast?, getLast?_map]
  cases (m.run d.tree).passed.getLast? with
  | none => rfl
  | some t => rfl

theorem onTree_bind_ok (h : (m.run d.tree).result = .ok a) :
    (onTree m >>= f).run d = ⟨(m.run d.tree).passed.map (fun tree => { d with tree }) ++
      ((f a).run { d with tree := m.final d.tree }).passed, ((f a).run { d with tree := m.final d.tree }).result⟩ := by
  have hresult : ((onTree m).run d).result = .ok a := by simp only [onTree, h, Except.mapError]
  rw [Durable.bind_ok hresult, final_onTree]
  rfl

variable {look : Tree → Except RestructureError α}

theorem look_bind_ok (h : look d.tree = .ok a) :
    (onTree (ask look) >>= f).run d = (f a).run d := onTree_bind_ok (show ((ask look).run d.tree).result = _ from h)

theorem look_bind_error {e : RestructureError} (h : look d.tree = .error e) :
    (onTree (ask look) >>= f).run d = ⟨[], .error (.restructure e)⟩ := by
  have hresult : ((onTree (ask look)).run d).result = .error (.restructure e) := by
    simp only [onTree, ask, h, Except.mapError]
  rw [Durable.bind_error hresult]
  rfl

theorem keeps_onTree {C : Tree → Prop} {Q : Except RestructureError α → Tree → Prop} (h : Keeps m d.tree C Q) :
    Keeps (onTree m) d (fun d' => ∃ t, C t ∧ d' = { d with tree := t })
      fun r d' => ∃ r' t, Q r' t ∧ r = r'.mapError .restructure ∧ d' = { d with tree := t } := by
  refine ⟨?_, ?_⟩
  · intro d' hd'
    obtain ⟨t, ht, rfl⟩ := mem_map.mp hd'
    exact ⟨t, h.passes t ht, rfl⟩
  · exact ⟨_, _, h.ends, rfl, final_onTree m d⟩

theorem keeps_look_bind {C : Disk → Prop} {Q : Except RunError β → Disk → Prop}
    (hok : ∀ a, look d.tree = .ok a → Keeps (f a) d C Q)
    (herror : ∀ e, look d.tree = .error e → Q (.error (.restructure e)) d) :
    Keeps (onTree (ask look) >>= f) d C Q := by
  cases hlook : look d.tree with
  | ok a => exact (hok a hlook).of_run (look_bind_ok hlook)
  | error e => exact (Keeps.fail (herror e hlook)).of_run (look_bind_error hlook)

end onTree

/-! ## A commit that is cut short -/

inductive CrashPoint
  | hashed
  | inFlight
  | applied
  | hashedAgain
  | completed
  | checkpointed

namespace CrashPoint

def passed : CrashPoint → Nat
  | hashed => 0
  | inFlight => 1
  | applied => 2
  | hashedAgain => 2
  | completed => 3
  | checkpointed => 4

def due (index : Nat) : CrashPoint → Option ResumeDecision
  | hashed => some (.reRun index)
  | inFlight => some (.reRun index)
  | applied => some (.markCompleted index)
  | hashedAgain => some (.markCompleted index)
  | completed => none
  | checkpointed => none

/-- The journal holds what a resume needs. Nothing is written before the operation is in flight, so there an earlier attempt
    has to have left a record. -/
def Evidence (hash : List Char → String) (d : Disk) (index : Nat) : CrashPoint → Prop
  | hashed => ∃ record, d.journal.records.getLast? = some record ∧ record.status = .inFlight ∧ record.op = index ∧
      hashesMatch hash d.tree record.pre = .ok true
  | inFlight => True
  | applied => False
  | hashedAgain => False
  | completed => True
  | checkpointed => True

end CrashPoint

section cut

variable {hash : List Char → String} {git : Git} {d : Disk} {edit : WorkspaceEdit}

variable {t : Tree} {record : JournalRecord} {j : Journal}

theorem commit_passed (hash : List Char → String) (index : Nat) (id : Option OpId)
    (happly : applyWorkspaceEdit git d.tree edit = .ok t) :
    ((commitOperation hash (applyAtOnce git) index id edit).run d).passed = [] ∨
    ∃ pre post, hashTouchedFiles hash d.tree edit = .ok pre ∧
      ((commitOperation hash (applyAtOnce git) index id edit).run d).passed <+:
        let flying := d.append (.inFlight index id pre)
        let applied := { flying with tree := t }
        let done := applied.append (.completed index id edit pre post)
        [flying, applied, done, done.checkpoint index] := by
  unfold commitOperation
  cases hpre : hashTouchedFiles hash d.tree edit with
  | error e =>
    left
    rw [look_bind_error hpre]
  | ok pre =>
    right
    let flying := d.append (.inFlight index id pre)
    have happly' : (applyAtOnce git edit).run flying.tree = ⟨[t], .ok ()⟩ := by
      simp [applyAtOnce, Durable.step, flying, Disk.append, happly]
    have hresult : ((applyAtOnce git edit).run flying.tree).result = .ok () := by rw [happly']
    have hfinal : (applyAtOnce git edit).final flying.tree = t := by simp [Durable.final, happly']
    rw [look_bind_ok hpre, Durable.change_bind, onTree_bind_ok hresult, hfinal, happly']
    cases hpost : hashTouchedFiles hash t edit with
    | error e =>
      rw [look_bind_error hpost]
      exact ⟨pre, [], rfl, _, rfl⟩
    | ok post =>
      rw [look_bind_ok hpost]
      exact ⟨pre, post, rfl, prefix_rfl⟩

theorem hashesMatch_self {hashes : Hashes} (h : hashTouchedFiles hash t edit = .ok hashes)
    (htouched : touchedPaths edit ≠ []) : hashesMatch hash t hashes = .ok true := by
  have hall := forall₂_of_mapM h
  have hempty : hashes.isEmpty = false := by
    rw [isEmpty_eq_false_iff]
    rintro rfl
    exact htouched (length_eq_zero_iff.mp hall.length_eq)
  rw [hashesMatch, hempty]
  show hashesMatchEach hash t hashes = .ok true
  clear h htouched hempty
  generalize touchedPaths edit = paths at hall
  induction hall with
  | nil => rfl
  | cons hfound _ ih =>
    obtain ⟨value, hvalue, rfl⟩ := map_eq_ok.mp hfound
    simp [hashesMatchEach, hvalue, ih]

theorem resumeDecision_last (h : j.records.getLast? = some record) :
    resumeDecision hash t j = if record.status ≠ .inFlight then .ok none else do
      if ← hashesMatch hash t record.pre then return some (.reRun record.op)
      else if ← hashesMatch hash t record.post then return some (.markCompleted record.op)
      else return some (.abort record.op) := by
  simp only [resumeDecision, h]
  rfl

/-- Whatever the files hold, an operation in flight is run again or given up, never taken as completed. -/
theorem in_flight_not_completed (h : j.records.getLast? = some record)
    (hstatus : record.status = .inFlight) (hpost : record.post = []) (op : Nat) :
    resumeDecision hash t j ≠ .ok (some (.markCompleted op)) := by
  rw [resumeDecision_last h, hstatus, hpost]
  cases hashesMatch hash t record.pre with
  | error e => exact fun heq => by cases heq
  | ok same =>
    cases same with
    | true | false => exact fun heq => by cases heq

/-- Run again is answered exactly for an operation in flight whose files are as they were. -/
theorem reRun_iff (d : Disk) (index : Nat) : resumeDecision hash d.tree d.journal = .ok (some (.reRun index)) ↔
    CrashPoint.Evidence hash d index .hashed := by
  unfold CrashPoint.Evidence
  cases hlast : d.journal.records.getLast? with
  | none =>
    simp only [resumeDecision, hlast]
    exact iff_of_false (fun h => by cases h) (fun ⟨_, h, _⟩ => by cases h)
  | some record =>
    rw [resumeDecision_last hlast]
    by_cases hstatus : record.status = .inFlight
    · cases hsame : hashesMatch hash d.tree record.pre with
      | error e =>
        simp only [hstatus, ne_eq, not_true_eq_false, if_false]
        refine iff_of_false (fun h => by cases h) ?_
        rintro ⟨_, ⟨rfl⟩, -, -, h⟩
        rw [hsame] at h
        cases h
      | ok same =>
        cases same with
        | true =>
          simp only [hstatus, ne_eq, not_true_eq_false, if_false]
          constructor
          · intro h
            cases h
            exact ⟨record, rfl, hstatus, rfl, hsame⟩
          · rintro ⟨_, ⟨rfl⟩, -, rfl, -⟩
            rfl
        | false =>
          simp only [hstatus, ne_eq, not_true_eq_false, if_false]
          refine iff_of_false ?_ ?_
          · cases hashesMatch hash d.tree record.post with
            | error e => exact fun h => by cases h
            | ok same => cases same <;> exact fun h => by cases h
          · rintro ⟨_, ⟨rfl⟩, -, -, h⟩
            rw [hsame] at h
            cases h
    · simp [hstatus]

theorem touchedPaths_ne_nil (happly : applyWorkspaceEdit git d.tree edit = .ok t)
    (hchanges : ∃ path, t.fileAt path ≠ d.tree.fileAt path) : touchedPaths edit ≠ [] := by
  intro hnone
  obtain ⟨path, hpath⟩ := hchanges
  have hchanges : edit.changes = [] := by
    rw [eq_nil_iff_forall_not_mem]
    intro change hchange
    have hpaths : change.paths = [] := by
      rw [eq_nil_iff_forall_not_mem]
      intro path hpath
      exact not_mem_nil (hnone ▸ mem_touchedPaths.mpr ⟨change, hchange, hpath⟩)
    cases change <;> cases hpaths
  simp only [applyWorkspaceEdit, WorkspaceEdit.creations, WorkspaceEdit.textChanges, WorkspaceEdit.renames, hchanges] at happly
  cases happly
  exact hpath rfl

/-- A commit that is cut short leaves a resume what it needs, except between the edit and the completed record. -/
theorem a_cut_commit_is_decided_iff (hash : List Char → String) (git : Git) (d : Disk) (index : Nat) (id : Option OpId)
    (edit : WorkspaceEdit) (t : Tree) (happly : applyWorkspaceEdit git d.tree edit = .ok t)
    (hchanges : ∃ path, t.fileAt path ≠ d.tree.fileAt path) (point : CrashPoint) (left : Disk)
    (hleft : (d :: ((commitOperation hash (applyAtOnce git) index id edit).run d).passed)[point.passed]? = some left) :
    resumeDecision hash left.tree left.journal = .ok (point.due index) ↔ point.Evidence hash d index := by
  have hlast : ∀ (d : Disk) (record : JournalRecord), (d.append record).journal.records.getLast? =
      some { record with seq := d.journal.records.length } := by
    intro d record
    simp [Disk.append, Journal.append]
  rcases commit_passed hash index id happly with hpassed | ⟨pre, post, hpre, hpassed⟩
  · rw [hpassed] at hleft
    cases point with
    | hashed =>
      obtain rfl : d = left := Option.some.inj hleft
      exact reRun_iff d index
    | inFlight | applied | hashedAgain | completed | checkpointed => cases hleft
  obtain ⟨rest, hrest⟩ := hpassed
  have hfull := congrArg (fun states => (d :: states)[point.passed]?) hrest
  rw [← cons_append, getElem?_append_left (List.getElem?_eq_some_iff.mp hleft).1, hleft] at hfull
  cases point with
  | hashed =>
    obtain rfl : d = left := (Option.some.inj hfull).symm
    exact reRun_iff d index
  | inFlight =>
    obtain rfl := Option.some.inj hfull
    refine iff_of_true ?_ trivial
    rw [resumeDecision_last (hlast d _)]
    simp only [JournalRecord.inFlight, JournalRecord.plain]
    rw [show (d.append _).tree = d.tree from rfl, hashesMatch_self hpre (touchedPaths_ne_nil happly hchanges)]
    rfl
  | applied | hashedAgain =>
    obtain rfl := Option.some.inj hfull
    exact iff_of_false (in_flight_not_completed (hlast d _) rfl rfl index) not_false
  | completed | checkpointed =>
    obtain rfl := Option.some.inj hfull
    exact iff_of_true (resumeDecision_last (hlast _ _)) trivial

def lineX : Disk := ⟨AList.singleton ["a.rs"] (.file ['x', '\n']), ⟨[]⟩, none, ⟨[]⟩⟩

def xToY : WorkspaceEdit := ⟨[.change ["a.rs"] [⟨⟨⟨1, 1⟩, ⟨1, 2⟩⟩, ['y']⟩]]⟩

theorem an_operation_in_flight_is_run_again :
    ∃ t, applyWorkspaceEdit plainGit lineX.tree xToY = .ok t ∧ t.fileAt ["a.rs"] = some ['y', '\n'] ∧
      resumeDecision String.ofList lineX.tree (lineX.append (.inFlight 0 none [(["a.rs"], "x\n")])).journal =
        .ok (some (.reRun 0)) := by
  obtain ⟨t, happly, hfile⟩ : ∃ t, applyWorkspaceEdit plainGit lineX.tree xToY = .ok t ∧ t.fileAt ["a.rs"] = some ['y', '\n'] :=
    ⟨_, rfl, rfl⟩
  have hchanges : ∃ path, t.fileAt path ≠ lineX.tree.fileAt path := ⟨["a.rs"], by rw [hfile]; decide⟩
  exact ⟨t, happly, hfile, (a_cut_commit_is_decided_iff String.ofList plainGit lineX 0 none xToY t happly hchanges .inFlight
    (lineX.append (.inFlight 0 none [(["a.rs"], "x\n")])) rfl).mpr trivial⟩

/-- The edit is applied and nobody else touches the file: a resume gives up on the operation. -/
theorem an_applied_edit_is_given_up :
    ∃ left, (lineX :: ((commitOperation String.ofList (applyAtOnce plainGit) 0 none xToY).run lineX).passed)[2]? = some left ∧
      left.tree.fileAt ["a.rs"] = some ['y', '\n'] ∧
      resumeDecision String.ofList left.tree left.journal = .ok (some (.abort 0)) := ⟨_, rfl, rfl, rfl⟩

end cut

end TddyCoder.Restructure
