/-
  TddyCoder.Restructure.GroupRun — operations that are applied as one, and undone as one
  (`packages/tddy-code-restructuring/src/runner/group_gate.rs`).

  Before a member is committed the contents of the files it is the first to touch are recorded. A
  rollback puts the files back, the last recorded first, sets the ledger's checkpoint back, and
  only then the journal says so. `InGroup` is what holds while a group is open, whatever part of
  an edit or of a rollback is done.
-/

import TddyCoder.Restructure.Parts

namespace TddyCoder.Restructure

open List

open Durable (Keeps ask change fail inTurn)

namespace Plan

def groupAt (plan : Plan) (index : Nat) : Option String := plan.ops[index]?.bind (·.group)

def membersFrom (plan : Plan) (group : String) (index : Nat) : List Nat :=
  ((plan.ops.zipIdx.drop index).takeWhile fun op => op.1.group = some group).map (·.2)

end Plan

structure GroupRun where
  group : String
  last : Nat
  captured : List Path
  applied : List (Nat × WorkspaceEdit)

/-- The checkpoint of the last operation before `first`, if there is one. -/
def Journal.checkpointBefore (j : Journal) (first : Nat) : Option LedgerCheckpoint :=
  ((j.completed.filter (·.op < first)).map (·.op)).max?.map fun op => ⟨op, j.foldThrough op⟩

def rollBackGroup (group : String) : Program Unit := do
  let journal ← ask fun d => .ok d.journal
  match (journal.groupRecords group).head?, (journal.groupRecords group).getLast? with
  | some started, some reached =>
    inTurn (fun image => onTree image.restore) (journal.groupPreImages group).reverse
    change fun d => { d with ledger := d.journal.checkpointBefore started.op }
    change (·.append (.groupRolledBack reached.op group))
  | _, _ => fail (.restructure .malformedPlan)

def rollBackAnOpenGroup : Program Unit := do
  match ← ask fun d => .ok d.journal.openGroup with
  | none => pure ()
  | some open_ => rollBackGroup open_.group

namespace GroupRun

def begin (plan : Plan) (index : Nat) : Program (Option GroupRun) :=
  match plan.groupAt index with
  | none => pure none
  | some group => do
    let members := plan.membersFrom group index
    change (·.append (.groupStarted index group members))
    return some ⟨group, members.getLastD index, [], []⟩

/-- The touched paths are all different, so those not captured before are captured once each. -/
def preImage (run : GroupRun) (index : Nat) (id : Option OpId) (edit : WorkspaceEdit) : Program GroupRun := do
  let fresh := (touchedPaths edit).filter (· ∉ run.captured)
  let images ← onTree (ask fun t => fresh.mapM (PreImage.capture t))
  if !images.isEmpty then change (·.append (.preImaged index id run.group images))
  return { run with captured := run.captured ++ fresh }

def finish (gate : String → Tree → Except RunError Unit) (run : GroupRun) : Program (List (Nat × WorkspaceEdit)) := do
  match ← ask fun d => .ok (gate run.group d.tree) with
  | .ok () =>
    change (·.append (.groupCompleted run.last run.group))
    return run.applied
  | .error .callerStopped => fail .callerStopped
  | .error failure =>
    rollBackGroup run.group
    fail failure

/-- A failure undoes the group that is open at the time, unless the caller stopped the run. -/
def rollBackOnFailure {α : Type} (slot : Option GroupRun) (m : Program α) : Program α := do
  match ← m.outcome, slot with
  | .ok a, _ => return a
  | .error .callerStopped, _ => fail .callerStopped
  | .error failure, none => fail failure
  | .error failure, some run =>
    rollBackGroup run.group
    fail failure

end GroupRun

inductive Settled
  | pending
  | ready (ops : List (Nat × WorkspaceEdit))

def settle (gate : String → Tree → Except RunError Unit) (slot : Option GroupRun) (index : Nat) (edit : WorkspaceEdit) :
    Program (Option GroupRun × Settled) :=
  match slot with
  | none => return (none, .ready [(index, edit)])
  | some run => do
    let run := { run with applied := run.applied ++ [(index, edit)] }
    if run.last = index then return (none, .ready (← run.finish gate))
    else return (some run, .pending)

/-! ## While a group is open -/

/-- What a group that began on `before` has done: its records are appended, the files as they were are recorded for the
    captured paths, and the tree differs only there. -/
structure InGroup (before : Disk) (first : Nat) (group : String) (captured : List Path) (d : Disk) : Prop where
  records : ∃ started inner, d.journal.records = before.journal.records ++ started :: inner ∧
    started.status = .groupStarted ∧ started.group = some group ∧ started.op = first ∧ Inner inner ∧
    (∀ record ∈ inner, first ≤ record.op) ∧ (preImagesOf inner).map (·.path) = captured ∧
    ∀ image ∈ preImagesOf inner, image.contents = before.tree.fileAt image.path
  ground : Ground before.tree.fileAt captured
  confined : Confined before.tree.fileAt captured d.tree
  plan : d.plan = before.plan

structure RolledBack (before d : Disk) : Prop where
  files : ∀ path, d.tree.fileAt path = before.tree.fileAt path
  completed : d.journal.completed = before.journal.completed
  verified : ∀ checkpoint, d.ledger = some checkpoint → d.journal.verifyCheckpoint checkpoint = true
  quiet : d.journal.Quiet
  records : ∃ more, d.journal.records = before.journal.records ++ more ∧ ∀ record ∈ more, record.status ≠ .planSynced
  decided : ∀ record, d.journal.records.getLast? = some record → record.status ≠ .inFlight
  plan : d.plan = before.plan

section rollback

variable {before d : Disk} {first : Nat} {group : String} {captured : List Path}

theorem InGroup.set_tree (h : InGroup before first group captured d) {t : Tree} (ht : Confined before.tree.fileAt captured t) :
    InGroup before first group captured { d with tree := t } := ⟨h.records, h.ground, ht, h.plan⟩

theorem InGroup.set_ledger (h : InGroup before first group captured d) (ledger : Option LedgerCheckpoint) :
    InGroup before first group captured { d with ledger } := ⟨h.records, h.ground, h.confined, h.plan⟩

theorem checkpointBefore_verified {started : JournalRecord} {inner : List JournalRecord}
    (hstarted : started.status = .groupStarted) (hinner : Inner inner) (hops : ∀ record ∈ inner, first ≤ record.op)
    {last : JournalRecord} (hlast : last.status = .groupRolledBack) {j : Journal} {checkpoint : LedgerCheckpoint}
    (h : Journal.checkpointBefore ⟨j.records ++ started :: inner⟩ first = some checkpoint) :
    Journal.verifyCheckpoint ⟨j.records ++ started :: inner ++ [last]⟩ checkpoint = true := by
  obtain ⟨op, hop, rfl⟩ := Option.map_eq_some_iff.mp h
  have hmem := max?_mem hop
  rw [completed_open hstarted hinner] at hmem
  obtain ⟨record, hrecord, rfl⟩ := mem_map.mp hmem
  rw [mem_filter, decide_eq_true_eq] at hrecord
  obtain ⟨hrecord, hbefore⟩ := hrecord
  have hrecord' : record ∈ j.completed := by
    rcases mem_append.mp hrecord with hrecord | hrecord
    · exact hrecord
    · have hop := hops record (mem_filter.mp hrecord).1
      omega
  have hnone : (inner.filter (·.status = .completed)).filter (·.op ≤ record.op) = [] := by
    rw [filter_eq_nil_iff]
    intro r hr
    have hop := hops r (mem_filter.mp hr).1
    simp only [decide_eq_true_eq]
    omega
  have hfold : Journal.foldThrough ⟨j.records ++ started :: inner⟩ record.op = j.foldThrough record.op := by
    rw [Journal.foldThrough, completed_open hstarted hinner, filter_append, hnone, append_nil]
    rfl
  have hfold' : Journal.foldThrough ⟨j.records ++ started :: inner ++ [last]⟩ record.op = j.foldThrough record.op := by
    rw [Journal.foldThrough, completed_rolledBack hstarted hinner hlast]
    rfl
  simp only [Journal.verifyCheckpoint, hfold, hfold', completed_rolledBack hstarted hinner hlast, Bool.and_eq_true,
    any_eq_true, decide_eq_true_eq]
  exact ⟨⟨record, hrecord', rfl⟩, trivial⟩

theorem keeps_restoreAll (h : InGroup before first group captured d) {images : List PreImage}
    (himages : ∀ image ∈ images, image.path ∈ captured ∧ image.contents = before.tree.fileAt image.path) :
    Keeps (inTurn (fun image => onTree image.restore) images) d (InGroup before first group captured)
      fun r d' => r = .ok () ∧ InGroup before first group captured d' ∧ d'.journal = d.journal ∧
        ∀ image ∈ images, d'.tree.fileAt image.path = before.tree.fileAt image.path := by
  have hstep : ∀ image ∈ images, ∀ mid, InGroup before first group captured mid ∧ mid.journal = d.journal →
      Keeps (onTree image.restore) mid (fun d' => InGroup before first group captured d' ∧ d'.journal = d.journal)
        fun r d' => r = .ok () ∧ (InGroup before first group captured d' ∧ d'.journal = d.journal) ∧
          d'.tree.fileAt image.path = before.tree.fileAt image.path ∧
          ∀ other : PreImage, mid.tree.fileAt other.path = before.tree.fileAt other.path →
            d'.tree.fileAt other.path = before.tree.fileAt other.path := by
    intro image himage mid ⟨hmid, hjournal⟩
    obtain ⟨hcaptured, hcontents⟩ := himages image himage
    refine (keeps_onTree (keeps_restore hmid.ground hcaptured hmid.confined)).mono ?_ ?_
    · rintro d' ⟨t, ht, rfl⟩
      exact ⟨hmid.set_tree ht, hjournal⟩
    rintro r d' ⟨r', t, ⟨rfl, ht, hfile, hothers⟩, rfl, rfl⟩
    have hdone : t.fileAt image.path = before.tree.fileAt image.path := hfile.trans hcontents
    refine ⟨rfl, ⟨hmid.set_tree ht, hjournal⟩, hdone, ?_⟩
    intro other hother
    by_cases hsame : other.path = image.path
    · rw [hsame]
      exact hdone
    · exact (hothers _ hsame).trans hother
  refine (Keeps.inTurn_done (fun (image : PreImage) (d' : Disk) =>
    d'.tree.fileAt image.path = before.tree.fileAt image.path) hstep ⟨h, rfl⟩).mono (fun _ h => h.1) ?_
  rintro r d' ⟨hr, ⟨hd', hjournal⟩, hdone, -⟩
  exact ⟨hr, hd', hjournal, hdone⟩

/-- A rollback goes through, whatever the last one has done already. -/
theorem keeps_rollBackGroup (h : InGroup before first group captured d) :
    Keeps (rollBackGroup group) d
      (fun d' => InGroup before first group captured d' ∨ RolledBack before d')
      fun r d' => r = .ok () ∧ RolledBack before d' := by
  obtain ⟨started, inner, hrecords, hstarted, hgroup, hfirst, hinner, hops, hpaths, hcontents⟩ := h.records
  have hjournal : d.journal = ⟨before.journal.records ++ started :: inner⟩ := by rw [← hrecords]
  have hgroupRecords : d.journal.groupRecords group = started :: inner := by
    have hothers : ∀ record ∈ inner, (decide (record.status = .groupStarted) && decide (record.group = some group)) = false := by
      intro record hrecord
      simp [hinner.not_started record hrecord]
    rw [hjournal, Journal.groupRecords, fromLast_append (by simp [hstarted, hgroup]) hothers]
    rfl
  have himages : d.journal.groupPreImages group = preImagesOf inner := by
    rw [Journal.groupPreImages, hgroupRecords, preImagesOf, filter_cons_of_neg (by simp [hstarted]), preImagesOf]
  obtain ⟨reached, hreached⟩ : ∃ reached, (started :: inner).getLast? = some reached :=
    Option.isSome_iff_exists.mp (by simp)
  refine .of_run (Durable.ask_bind_ok _ rfl) ?_
  rw [hgroupRecords, hreached, himages]
  refine ((keeps_restoreAll h ?_).mono (fun _ h => Or.inl h) fun _ _ h => h).bind ?_ fun _ _ h => by cases h.1
  · intro image himage
    rw [mem_reverse] at himage
    exact ⟨hpaths ▸ mem_map_of_mem himage, hcontents image himage⟩
  rintro - mid ⟨-, hmid, hmidJournal, hdone⟩
  have hfiles : ∀ path, mid.tree.fileAt path = before.tree.fileAt path := by
    intro path
    by_cases hpath : path ∈ captured
    · rw [← hpaths] at hpath
      obtain ⟨image, himage, rfl⟩ := mem_map.mp hpath
      exact hdone image (mem_reverse.mpr himage)
    · exact hmid.confined.outside path hpath
  refine .bind
    (R := fun r d' => r = .ok () ∧ d' = { mid with ledger := mid.journal.checkpointBefore started.op })
    (Keeps.change (.inl (hmid.set_ledger _)) ⟨rfl, rfl⟩) ?_ fun _ _ h => by cases h.1
  rintro - _ ⟨-, rfl⟩
  have hback : RolledBack before
      (Disk.append { mid with ledger := mid.journal.checkpointBefore started.op } (.groupRolledBack reached.op group)) := by
    rw [hjournal] at hmidJournal
    refine ⟨hfiles, ?_, ?_, ?_, ?_, ?_, hmid.plan⟩
    · simp only [Disk.append, Journal.append, hmidJournal]
      exact completed_rolledBack hstarted hinner rfl
    · intro checkpoint hcheckpoint
      simp only [Disk.append, Journal.append, hmidJournal, hfirst] at hcheckpoint ⊢
      exact checkpointBefore_verified hstarted hinner hops rfl hcheckpoint
    · simp only [Disk.append, Journal.append, hmidJournal]
      exact quiet_ended hstarted hgroup hinner (.inr rfl) rfl
    · refine ⟨started :: inner ++
        [{ JournalRecord.groupRolledBack reached.op group with seq := mid.journal.records.length }], ?_, ?_⟩
      · simp only [Disk.append, Journal.append, hmidJournal, append_assoc, cons_append]
      intro record hrecord
      simp only [cons_append, mem_cons, mem_append, not_mem_nil, or_false] at hrecord
      rcases hrecord with rfl | hrecord | rfl
      · rw [hstarted]
        decide
      · rcases hinner record hrecord with hstatus | hstatus | hstatus <;> rw [hstatus] <;> decide
      · rintro ⟨⟩
    · intro record hrecord
      simp only [Disk.append, Journal.append, getLast?_concat, Option.some.injEq] at hrecord
      rw [← hrecord]
      rintro ⟨⟩
  exact .change (.inr hback) ⟨rfl, hback⟩

end rollback

end TddyCoder.Restructure
