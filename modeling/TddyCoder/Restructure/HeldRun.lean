/-
  TddyCoder.Restructure.HeldRun — a run of a plan the store holds
  (`packages/tddy-code-restructuring/src/runner/entry_points/store_run.rs`,
  `.../store_run/applied_op_record.rs`, `open_run_resolving_anchors` of
  `.../anchor_entry_points.rs`, `open_run_gated` and `restore_ledger` of `runner.rs`,
  `runner/resume.rs`).

  What is outside of it is an outcome the run is given: what the language servers resolve, what
  git and the compiler say, how the store refreshes the plan. Dry runs write nothing and are
  left out.
-/

import TddyCoder.Restructure.GroupRun

namespace TddyCoder.Restructure

open Text Machine List
open Durable (Along ask change inTurn)

structure Options where
  resume : Bool
  fromIndex : Option Nat
  fromId : Option OpId
  stopAfter : Option Nat

def Options.continuesAJournal (options : Options) : Bool :=
  options.resume || options.fromIndex.isSome || options.fromId.isSome

structure Outcomes where
  worktree : Except RunError Unit
  snapshot : Plan → Tree → Except RunError Unit
  lower : Plan → Nat → Tree → Except RunError Unit
  baseline : Tree → Except RunError Unit
  resolve : Nat → Tree → Except RunError WorkspaceEdit
  preflight : Nat → WorkspaceEdit → Tree → Except RunError Unit
  gate : String → Tree → Except RunError Unit
  refresh : Plan → Nat → WorkspaceEdit → Tree → Except RunError Plan
  others : Nat → Tree → Except RunError Unit
  check : Tree → Except RunError Unit
  tidy : Tree → List (Path × List Char)

/-- What does not change from run to run: the two hashes, and how an edit is applied. -/
structure Setting where
  hash : List Char → String
  digest : List (OpId × Anchor × List Anchor) → String
  apply : WorkspaceEdit → TreeProgram Unit

def Anchor.isItem : Anchor → Bool
  | .item .. => true
  | .items .. => true
  | _ => false

def Plan.hasItemAnchors (plan : Plan) : Bool := plan.ops.any fun op => (op.anchor :: op.also).any Anchor.isItem

variable {options : Options} {opened : Opened}

section opening

variable (S : Setting) (plan : Plan)

def pendingDigest (applied : Nat) : String :=
  S.digest ((plan.ops.drop (applied + 1)).map fun op => (op.id, op.anchor, op.also))

def predatesPlanWriteBack (j : Journal) : Bool := j.lastCompleted.any (·.opId.isNone)

def refuseAPlanTheJournalCannotVouchFor (j : Journal) : Except RunError Unit :=
  match j.lastCompleted with
  | none => .ok ()
  | some last =>
    if predatesPlanWriteBack j then
      if plan.hasItemAnchors then .error (.planUnverifiable (last.op + 1)) else .ok ()
    else if j.planDigestAfter last.op = some (pendingDigest S plan last.op) then .ok ()
    else .error (.planOutOfSync last.op)

def startOf (options : Options) (j : Journal) : Except RunError Nat :=
  match options.fromIndex, options.fromId with
  | some _, some _ => .error .usage
  | some index, none => .ok index
  | none, some id =>
    match plan.ops.findIdx? (·.id = id) with
    | some index => .ok index
    | none => .error (.restructure .malformedPlan)
  | none, none => .ok j.nextOp

structure Opened where
  legacy : Bool
  start : Nat

def refuseAnUndecidedJournal (d : Disk) : Except RunError Unit :=
  match resumeDecision S.hash d.tree d.journal with
  | .error e => .error (.restructure e)
  | .ok (some (.abort op)) => .error (.indeterminateJournal op)
  | .ok _ => .ok ()

def refuseADivergedCheckpoint (d : Disk) : Except RunError Unit :=
  match d.ledger with
  | none => .ok ()
  | some checkpoint =>
    if d.journal.verifyCheckpoint checkpoint then .ok () else .error (.checkpointDivergence checkpoint.op)

variable (o : Outcomes)

/-- A fresh run finds no journal and the files the plan was written for; one that continues a journal undoes the group it
    finds open. -/
def approach (options : Options) : Program Unit :=
  if options.continuesAJournal then rollBackAnOpenGroup
  else ask fun d => if d.journal.records.isEmpty then o.snapshot d.plan d.tree else .error .journalExists

def refuseABrokenBaseline (options : Options) (d : Disk) : Except RunError Unit :=
  if options.continuesAJournal then .ok () else o.baseline d.tree

/-- What the run is refused for on the journal and the tree as they are now. -/
def vetRun (options : Options) (d : Disk) : Except RunError Opened := do
  refuseAPlanTheJournalCannotVouchFor S d.plan d.journal
  let start ← startOf d.plan options d.journal
  o.lower d.plan start d.tree
  refuseABrokenBaseline o options d
  refuseAnUndecidedJournal S d
  refuseAPlanTheJournalCannotVouchFor S d.plan d.journal
  refuseADivergedCheckpoint d
  return ⟨predatesPlanWriteBack d.journal, ← startOf d.plan options d.journal⟩

def openPlanRun (options : Options) : Program Opened := do
  ask fun _ => o.worktree
  approach o options
  ask (vetRun S o options)

/-- A run that opens is vouched for and decided, and starts where the journal or the options say. -/
theorem vetRun_eq_ok {o : Outcomes} {d : Disk} :
    vetRun S o options d = .ok opened ↔
      refuseAPlanTheJournalCannotVouchFor S d.plan d.journal = .ok () ∧ startOf d.plan options d.journal = .ok opened.start ∧
      o.lower d.plan opened.start d.tree = .ok () ∧ refuseABrokenBaseline o options d = .ok () ∧
      refuseAnUndecidedJournal S d = .ok () ∧ refuseADivergedCheckpoint d = .ok () ∧
      opened.legacy = predatesPlanWriteBack d.journal := by
  simp only [vetRun, bind_eq_ok]
  constructor
  · rintro ⟨_, hvouched, start, hstart, _, hlower, _, hbaseline, _, hdecided, _, _, _, hverified, start', hstart', hopened⟩
    cases hopened
    obtain rfl : start = start' := Except.ok.inj (hstart.symm.trans hstart')
    exact ⟨hvouched, hstart, hlower, hbaseline, hdecided, hverified, rfl⟩
  rintro ⟨hvouched, hstart, hlower, hbaseline, hdecided, hverified, hlegacy⟩
  refine ⟨(), hvouched, opened.start, hstart, (), hlower, (), hbaseline, (), hdecided, (), hvouched, (), hverified,
    opened.start, hstart, ?_⟩
  rw [← hlegacy]
  rfl

end opening

/-! ## The loop -/

section loop

variable (S : Setting) (o : Outcomes)

def stopLimitReached (options : Options) (start index : Nat) : Bool :=
  match options.stopAfter with
  | none => false
  | some limit => start + limit ≤ index

def resolveOp (index : Nat) : Program WorkspaceEdit := do
  let edit ← ask fun d => o.resolve index d.tree
  ask fun d => o.preflight index edit d.tree
  return edit

/-- The group the operation is in: the one that is open, or the one it begins. -/
def enterGroup (plan : Plan) (slot : Option GroupRun) (index : Nat) : Program (Option GroupRun) :=
  match slot with
  | some run => pure (some run)
  | none => GroupRun.begin plan index

def commitMember (slot : Option GroupRun) (index : Nat) (id : Option OpId) (edit : WorkspaceEdit) : Program (Option GroupRun) :=
  match slot with
  | some run => do
    let run ← run.preImage index id edit
    commitOperation S.hash S.apply index id edit
    return some run
  | none => do
    commitOperation S.hash S.apply index id edit
    return none

/-- The plan is refreshed, its digest recorded, and only then written. -/
def recordAppliedOp (index : Nat) (edit : WorkspaceEdit) : Program Unit := do
  let id ← ask fun d =>
    match d.plan.ops[index]?.map (·.id) with
    | some id => .ok id
    | none => .error (.restructure .malformedPlan)
  let plan ← ask fun d => o.refresh d.plan index edit d.tree
  change (·.append (.planSynced index (some id) (pendingDigest S plan index)))
  change ({ · with plan })
  ask fun d => o.others index d.tree

def recordSettled (legacy : Bool) : Settled → Program Unit
  | .pending => pure ()
  | .ready ops => if legacy then pure () else inTurn (fun op => recordAppliedOp S o op.1 op.2) ops

/-- The turn of one operation. A failure before the operation is settled undoes the group that is open at the time. -/
def turn (plan : Plan) (legacy : Bool) (slot : Option GroupRun) (index : Nat) : Program (Option GroupRun) := do
  let id := if legacy then none else plan.ops[index]?.map (·.id)
  let edit ← GroupRun.rollBackOnFailure slot (resolveOp o index)
  let slot ← enterGroup plan slot index
  let slot ← GroupRun.rollBackOnFailure slot (commitMember S slot index id edit)
  let (slot, settled) ← settle o.gate slot index edit
  recordSettled S o legacy settled
  return slot

/-- The operations in turn, up to the limit, which is not looked at inside a group. -/
def applyOps (plan : Plan) (options : Options) (opened : Opened) : Option GroupRun → List Nat → Program Nat
  | _, [] => return 0
  | slot, index :: rest =>
    if slot.isNone && stopLimitReached options opened.start index then return 0
    else do
      let slot ← turn S o plan opened.legacy slot index
      let applied ← applyOps plan options opened slot rest
      return applied + 1

/-- What the result compiles to is only reported, but the files a whole plan has written are tidied. -/
def refuseABrokenResult (applied total : Nat) : Program Unit :=
  if applied = 0 then pure ()
  else do
    ask fun d => o.check d.tree
    if applied = total then
      let tidied ← ask fun d => .ok (o.tidy d.tree)
      inTurn (fun file => onTree (writeFile file.1 file.2)) tidied

def applyHeldPlan (options : Options) : Program Nat := do
  let opened ← openPlanRun S o options
  let plan ← ask fun d => .ok d.plan
  let applied ← applyOps S o plan options opened none ((List.range plan.ops.length).drop opened.start)
  refuseABrokenResult o applied plan.ops.length
  return applied

end loop

/-! ## What a run adds to the journal -/

/-- Records are only appended, and the operations that go in flight are among `ops`. -/
def Adds (ops : Nat → Prop) (d d' : Disk) : Prop :=
  ∃ more, d'.journal.records = d.journal.records ++ more ∧ ∀ record ∈ more, record.status = .inFlight → ops record.op

section adds

variable {ops : Nat → Prop} {d d' d'' : Disk}

theorem Adds.refl (d : Disk) : Adds ops d d := ⟨[], by simp, by simp⟩

theorem Adds.trans (h : Adds ops d d') (h' : Adds ops d' d'') : Adds ops d d'' := by
  obtain ⟨more, hrecords, hops⟩ := h
  obtain ⟨more', hrecords', hops'⟩ := h'
  exact ⟨more ++ more', by rw [hrecords', hrecords, append_assoc], forall_mem_append.mpr ⟨hops, hops'⟩⟩

theorem Adds.mono {ops' : Nat → Prop} (h : Adds ops d d') (hops : ∀ op, ops op → ops' op) : Adds ops' d d' := by
  obtain ⟨more, hrecords, hmore⟩ := h
  exact ⟨more, hrecords, fun record hrecord hstatus => hops _ (hmore record hrecord hstatus)⟩

variable {S : Setting} {o : Outcomes} {α β : Type} {index : Nat} {slot : Option GroupRun} {m : Program α}

theorem along_bind {f : α → Program β} (h : Along (Adds ops) m) (hf : ∀ a, Along (Adds ops) (f a)) :
    Along (Adds ops) (m >>= f) := Along.bind Adds.refl Adds.trans h hf

theorem along_onTree (m : TreeProgram α) : Along (Adds ops) (onTree m) := by
  intro d d' hd'
  obtain ⟨t, -, rfl⟩ := mem_map.mp hd'
  exact Adds.refl d

theorem along_append {record : JournalRecord} (h : record.status = .inFlight → ops record.op) :
    Along (Adds ops) (change (·.append record) : Program Unit) := by
  refine .change fun d => ⟨[{ record with seq := d.journal.records.length }], rfl, ?_⟩
  intro r hr
  rw [mem_singleton.mp hr]
  exact h

theorem along_rollBackGroup (group : String) : Along (Adds ops) (rollBackGroup group) := by
  refine along_bind Along.ask fun j => ?_
  split
  · refine along_bind (Along.inTurn Adds.refl Adds.trans fun _ _ => along_onTree _) fun _ => ?_
    exact along_bind (Along.change fun d => Adds.refl d) fun _ => along_append (fun h => nomatch h)
  · exact .fail

theorem along_rollBackOnFailure (h : Along (Adds ops) m) :
    Along (Adds ops) (GroupRun.rollBackOnFailure slot m) := by
  refine along_bind h.outcome fun r => ?_
  split
  · exact .pure
  · exact .fail
  · exact .fail
  · exact along_bind (along_rollBackGroup _) fun _ => .fail

theorem along_commitOperation (h : ops index) (id : Option OpId) (edit : WorkspaceEdit) :
    Along (Adds ops) (commitOperation S.hash S.apply index id edit) := by
  refine along_bind (along_onTree _) fun pre => along_bind (along_append fun _ => h) fun _ => ?_
  refine along_bind (along_onTree _) fun _ => along_bind (along_onTree _) fun post => ?_
  exact along_bind (along_append fun h => nomatch h) fun _ => Along.change fun d => Adds.refl d

theorem along_recordAppliedOp (index : Nat) (edit : WorkspaceEdit) : Along (Adds ops) (recordAppliedOp S o index edit) := by
  refine along_bind Along.ask fun id => along_bind Along.ask fun plan => ?_
  refine along_bind (along_append fun h => nomatch h) fun _ => ?_
  exact along_bind (Along.change fun d => Adds.refl d) fun _ => Along.ask

theorem along_begin (plan : Plan) (index : Nat) : Along (Adds ops) (GroupRun.begin plan index) := by
  unfold GroupRun.begin
  split
  · exact .pure
  · exact along_bind (along_append fun h => nomatch h) fun _ => .pure

theorem along_enterGroup (plan : Plan) (slot : Option GroupRun) (index : Nat) :
    Along (Adds ops) (enterGroup plan slot index) := by
  cases slot with
  | none => exact along_begin plan index
  | some run => exact .pure

theorem along_commitMember (h : ops index) (slot : Option GroupRun) (id : Option OpId) (edit : WorkspaceEdit) :
    Along (Adds ops) (commitMember S slot index id edit) := by
  cases slot with
  | none => exact along_bind (along_commitOperation h id edit) fun _ => .pure
  | some run =>
    refine along_bind ?_ fun _ => along_bind (along_commitOperation h id edit) fun _ => .pure
    refine along_bind (along_onTree _) fun images => ?_
    split
    · exact along_bind (along_append fun h => nomatch h) fun _ => .pure
    · exact .pure

theorem along_settle (slot : Option GroupRun) (index : Nat) (edit : WorkspaceEdit) :
    Along (Adds ops) (settle o.gate slot index edit) := by
  cases slot with
  | none => exact .pure
  | some run =>
    show Along _ (if _ then _ else _)
    split
    · refine along_bind ?_ fun _ => .pure
      refine along_bind Along.ask fun verdict => ?_
      split
      · exact along_bind (along_append fun h => nomatch h) fun _ => .pure
      · exact .fail
      · exact along_bind (along_rollBackGroup _) fun _ => .fail
    · exact .pure

theorem along_recordSettled (legacy : Bool) (settled : Settled) : Along (Adds ops) (recordSettled S o legacy settled) := by
  cases settled with
  | pending => exact .pure
  | ready done =>
    show Along _ (if legacy then _ else _)
    split
    · exact .pure
    · exact .inTurn Adds.refl Adds.trans fun _ _ => along_recordAppliedOp _ _

theorem along_turn (plan : Plan) (legacy : Bool) (slot : Option GroupRun) (h : ops index) :
    Along (Adds ops) (turn S o plan legacy slot index) := by
  refine along_bind (along_rollBackOnFailure ?_) fun edit => ?_
  · exact along_bind Along.ask fun _ => along_bind Along.ask fun _ => .pure
  refine along_bind (along_enterGroup plan slot index) fun slot => ?_
  refine along_bind (along_rollBackOnFailure (along_commitMember h slot _ edit)) fun slot => ?_
  exact along_bind (along_settle slot index edit) fun _ => along_bind (along_recordSettled legacy _) fun _ => .pure

theorem along_applyOps {plan : Plan} {indices : List Nat}
    (h : ∀ index ∈ indices, ops index) : Along (Adds ops) (applyOps S o plan options opened slot indices) := by
  induction indices generalizing slot with
  | nil => exact .pure
  | cons index rest ih =>
    show Along _ (if _ then _ else _)
    split
    · exact .pure
    · refine along_bind (along_turn _ _ slot (h index mem_cons_self)) fun slot => ?_
      exact along_bind (ih fun i hi => h i (mem_cons_of_mem index hi)) fun _ => .pure

end adds

end TddyCoder.Restructure
