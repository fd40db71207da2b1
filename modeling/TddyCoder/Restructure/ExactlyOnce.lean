/-
  TddyCoder.Restructure.ExactlyOnce — runs of one plan that are killed and resumed, again and
  again (`apply_held_plan` of
  `packages/tddy-code-restructuring/src/runner/entry_points/store_run.rs` with `--resume`).

  At every moment the completed operations are the first ones of the plan, each once, and the
  tree follows their edits (`Applied`); or one operation is in flight, its edit applied, and the
  hashes show it, so no run goes on from there; or one group is open (`Standing`).

  A file that does not exist hashes as an empty one, so the creation of an empty file is not
  seen, and done again. The tidying at the end of a whole plan is in no journal.

  Proved: `every_operation_is_applied_exactly_once`, by runs with neither (`Meets`); else
  `an_empty_file_is_left_behind`.
-/

import TddyCoder.Restructure.NextOp

namespace TddyCoder.Restructure

open Text Machine List
open Durable (Carries Keeps)

def SameFiles (t t' : Tree) : Prop := ∀ path, t.fileAt path = t'.fileAt path

/-- The starting tree with the edits applied one after the other, directories apart. -/
inductive Follows (git : Git) (start : Tree) : List WorkspaceEdit → Tree → Prop
  | start {t : Tree} (h : SameFiles t start) : Follows git start [] t
  | edit {edits : List WorkspaceEdit} {edit : WorkspaceEdit} {t t' t'' : Tree} (h : Follows git start edits t)
    (happly : applyWorkspaceEdit git t edit = .ok t') (hsame : SameFiles t'' t') : Follows git start (edits ++ [edit]) t''

/-- The completed operations are the first ones of the plan, each once and in order, and the tree follows their edits. -/
structure Applied (git : Git) (start : Tree) (j : Journal) (t : Tree) : Prop where
  inOrder : j.completed.map (·.op) = List.range j.completed.length
  named : ∀ record ∈ j.completed, record.opId.isSome = true
  follows : ∃ edits, j.completed.map (·.edit) = edits.map some ∧ Follows git start edits t

def oneStep (hash : List Char → String) (digest : List (OpId × Anchor × List Anchor) → String) (git : Git) : Setting :=
  ⟨hash, digest, fun edit => (applyParts git edit).atOnce⟩

def Setting.InOneStep (S : Setting) (git : Git) : Prop := ∀ edit, S.apply edit = (applyParts git edit).atOnce

section standing

variable (S : Setting) (git : Git) (start : Tree)

def Vouched (d : Disk) : Prop := refuseAPlanTheJournalCannotVouchFor S d.plan d.journal = .ok ()

/-- Where a history can be: nothing is in progress, or one operation is, or one group. -/
inductive Standing (d : Disk) : Prop
  | settled (happlied : Applied git start d.journal d.tree) (hquiet : d.journal.Quiet)
  | inFlight (t : Tree) (edit : WorkspaceEdit) (record : JournalRecord) (happlied : Applied git start d.journal t)
    (hquiet : d.journal.Quiet) (htree : d.tree = (applyParts git edit).final t)
    (hlast : d.journal.records.getLast? = some record) (hstatus : record.status = .inFlight)
    (hop : record.op = d.journal.nextOp) (hpost : record.post = []) (hshown : hashesMatch S.hash d.tree record.pre ≠ .ok true)
  | inGroup (before : Disk) (first : Nat) (group : String) (captured : List Path)
    (happlied : Applied git start before.journal before.tree) (hquiet : before.journal.Quiet) (hvouched : Vouched S before)
    (hfirst : first = before.journal.nextOp) (hopen : InGroup before first group captured d)

/-- The edit changes no file, or the hashes of the touched files tell. -/
def Shown (t : Tree) (edit : WorkspaceEdit) : Prop :=
  ∀ pre, hashTouchedFiles S.hash t edit = .ok pre → SameFiles ((applyParts git edit).final t) t ∨
    hashesMatch S.hash ((applyParts git edit).final t) pre ≠ .ok true

def Options.Resumes (options : Options) : Prop :=
  options.resume = true ∧ options.fromIndex = none ∧ options.fromId = none

/-- What is asked of a run, in the state it starts in. -/
structure Meets (run : Outcomes × Options) (d : Disk) : Prop where
  resumes : run.2.Resumes
  /-- No path that a member of a group touches lies inside another. -/
  apart : ∀ first group, d.plan.groupAt first = some group → MembersApart run.1 (d.plan.membersFrom group first)
  /-- What an operation outside of a group changes is shown by the hashes of the paths it touches. -/
  shown : ∀ index, d.plan.groupAt index = none → ∀ t edit, run.1.resolve index t = .ok edit → Shown S git t edit
  /-- The tidying after a whole plan finds nothing to do. -/
  tidy : ∀ t, run.1.tidy t = []
  /-- The pending anchors are found where a group is undone first. -/
  lower : d.journal.openGroup.isSome → ∀ plan start t, run.1.lower plan start t = .ok ()

end standing

variable {record : JournalRecord}

section applied

variable {git : Git} {start t t' : Tree} {j j' : Journal}

theorem SameFiles.trans {t₁ t₂ t₃ : Tree} (h : SameFiles t₁ t₂) (h' : SameFiles t₂ t₃) : SameFiles t₁ t₃ :=
  fun path => (h path).trans (h' path)

theorem Follows.same {edits : List WorkspaceEdit} (h : Follows git start edits t) (hsame : SameFiles t' t) :
    Follows git start edits t' := by
  cases h with
  | start h => exact .start (hsame.trans h)
  | edit h happly hsame' => exact .edit h happly (hsame.trans hsame')

section

variable (h : Applied git start j t)
include h

theorem Applied.same (hcompleted : j'.completed = j.completed) (hsame : SameFiles t' t) : Applied git start j' t' := by
  obtain ⟨hinOrder, hnamed, edits, hedits, hfollows⟩ := h
  rw [← hcompleted] at hinOrder hnamed hedits
  exact ⟨hinOrder, hnamed, edits, hedits, hfollows.same hsame⟩

theorem Applied.nextOp : j.nextOp = j.completed.length := by
  have hmap : j.completed.map (·.op + 1) = (List.range j.completed.length).map (· + 1) := by
    rw [← h.inOrder, map_map]
    rfl
  rw [Journal.nextOp, hmap]
  generalize j.completed.length = n
  induction n with
  | zero => rfl
  | succ n ih =>
    rw [range_succ, map_append, foldl_append, ih]
    simp

theorem Applied.not_legacy : predatesPlanWriteBack j = false := by
  unfold predatesPlanWriteBack
  cases hlast : j.lastCompleted with
  | none => rfl
  | some record =>
    have hid := h.named record (lastCompleted_mem hlast)
    simpa [Option.isNone_iff_eq_none, Option.isSome_iff_ne_none] using hid

theorem Applied.lastCompleted {n : Nat} (hcount : j.completed.length = n + 1) :
    ∃ record, j.lastCompleted = some record ∧ record.op = n := by
  have hne : j.completed ≠ [] := ne_nil_of_length_eq_add_one hcount
  have hsplit := dropLast_append_getLast hne
  have hops : (j.completed.dropLast ++ [j.completed.getLast hne]).map (·.op) = List.range n ++ [n] := by
    rw [hsplit, h.inOrder, hcount, range_succ]
  rw [map_append, map_singleton] at hops
  obtain ⟨hinit, hlast⟩ := append_inj' hops rfl
  have hop : (j.completed.getLast hne).op = n := by simpa using hlast
  refine ⟨_, lastCompleted_append hsplit.symm ?_, hop⟩
  intro r hr
  have hmem : r.op ∈ List.range n := hinit ▸ mem_map_of_mem hr
  rw [mem_range] at hmem
  omega

end

variable {S : Setting} {d : Disk}

theorem Applied.vouched (h : Applied git start d.journal t) {index : Nat} (hcount : d.journal.completed.length = index + 1)
    (id : Option OpId) (plan : Plan) :
    Vouched S { d.append (.planSynced index id (pendingDigest S plan index)) with plan } := by
  let synced := JournalRecord.planSynced index id (pendingDigest S plan index)
  have hcompleted : (d.journal.append synced).completed = d.journal.completed := completed_append_other nofun nofun
  have h' : Applied git start (d.journal.append synced) t := h.same hcompleted fun _ => rfl
  obtain ⟨record, hlast, hop⟩ := h'.lastCompleted (hcompleted ▸ hcount)
  have hdigest : (d.journal.append synced).planDigestAfter index = some (pendingDigest S plan index) := by
    simp [Journal.planDigestAfter, Journal.append, synced, JournalRecord.planSynced, JournalRecord.plain]
  show refuseAPlanTheJournalCannotVouchFor S plan (d.journal.append synced) = .ok ()
  simp [refuseAPlanTheJournalCannotVouchFor, hlast, h'.not_legacy, hop, hdigest]

end applied

variable {C : Disk → Prop} {plan : Plan}

section single

variable {S : Setting} {git : Git} {start : Tree} {d d' : Disk} {index : Nat} {edit : WorkspaceEdit} {id : OpId}

/-- What a commit that goes through has done. -/
structure Committed (git : Git) (index : Nat) (id : Option OpId) (edit : WorkspaceEdit) (d d' : Disk) : Prop where
  tree : applyWorkspaceEdit git d.tree edit = .ok d'.tree
  journal : ∃ pre post, d'.journal = (d.journal.append (.inFlight index id pre)).append (.completed index id edit pre post)
  plan : d'.plan = d.plan

theorem keeps_applyOnce (hS : S.InOneStep git) (hC : C { d with tree := (applyParts git edit).final d.tree }) :
    Keeps (onTree (S.apply edit)) d C fun r d' =>
      d' = { d with tree := (applyParts git edit).final d.tree } ∧
        (r = .ok () → applyWorkspaceEdit git d.tree edit = .ok ((applyParts git edit).final d.tree)) := by
  rw [hS edit]
  refine ⟨?_, final_onTree _ d, ?_⟩
  · intro d' hd'
    rw [mem_singleton.mp hd']
    exact hC
  intro hr
  have hcarries := (show Carries (applyParts git edit) d.tree _ from applyParts_carries edit d.tree)
  cases happly : applyWorkspaceEdit git d.tree edit with
  | ok t =>
    rw [(hcarries.ok t happly).2]
  | error e =>
    have herror : ((applyParts git edit).run d.tree).result = .error e := hcarries.error e happly
    simp [onTree, Durable.atOnce, herror, Except.mapError] at hr

/-- A commit passes the operation in flight, its edit applied, and the operation completed. -/
theorem keeps_commit (hS : S.InOneStep git) (id : Option OpId)
    (hflying : ∀ pre, hashTouchedFiles S.hash d.tree edit = .ok pre → C (d.append (.inFlight index id pre)))
    (happlied : ∀ pre, hashTouchedFiles S.hash d.tree edit = .ok pre →
      C { d.append (.inFlight index id pre) with tree := (applyParts git edit).final d.tree })
    (hdone : ∀ d', Committed git index id edit d d' → C d') :
    Keeps (commitOperation S.hash S.apply index id edit) d C
      fun r d' => match r with
        | .ok () => Committed git index id edit d d'
        | .error _ => d' = d ∨ C d' := by
  refine keeps_look_bind (fun pre hpre => ?_) fun _ _ => .inl rfl
  let applied : Disk := { d.append (.inFlight index id pre) with tree := (applyParts git edit).final d.tree }
  refine .change_bind (hflying pre hpre) ((keeps_applyOnce hS (happlied pre hpre)).bind ?_ ?_)
  · intro _ d' ⟨hd', happly⟩
    rw [hd']
    refine keeps_look_bind (fun post _ => ?_) fun _ _ => .inr (happlied pre hpre)
    have hcommitted : ∀ ledger, Committed git index id edit d { applied.append (.completed index id edit pre post) with ledger } :=
      fun _ => ⟨happly rfl, ⟨pre, post, rfl⟩, rfl⟩
    exact .change_bind (hdone _ (hcommitted _)) (Keeps.change (hdone _ (hcommitted _)) (hcommitted _))
  · intro e d' ⟨hd', _⟩
    rw [hd']
    exact .inr (happlied pre hpre)

theorem Committed.completed {id : Option OpId} (h : Committed git index id edit d d') :
    ∃ record, d'.journal.completed = d.journal.completed ++ [record] ∧ record.op = index ∧ record.opId = id ∧
      record.edit = some edit := by
  obtain ⟨pre, post, hjournal⟩ := h.journal
  refine ⟨{ JournalRecord.completed index id edit pre post with seq := d.journal.records.length + 1 }, ?_, rfl, rfl, rfl⟩
  rw [hjournal, completed_append (by exact fun h => nomatch h), completed_append (by exact fun h => nomatch h)]
  simp [JournalRecord.inFlight, JournalRecord.completed, JournalRecord.plain, Journal.append]

theorem Applied.committed (h : Applied git start d.journal d.tree)
    (hindex : d.journal.completed.length = index) (hcommitted : Committed git index (some id) edit d d') :
    Applied git start d'.journal d'.tree ∧ d'.journal.completed.length = index + 1 := by
  obtain ⟨record, hcompleted, hop, hid, hedit⟩ := hcommitted.completed
  obtain ⟨hinOrder, hnamed, edits, hedits, hfollows⟩ := h
  refine ⟨⟨?_, ?_, edits ++ [edit], ?_, .edit hfollows hcommitted.tree fun _ => rfl⟩, ?_⟩
  · simp [hcompleted, hinOrder, hop, hindex, range_succ]
  · rw [hcompleted]
    exact forall_mem_append.mpr ⟨hnamed, by simp [hid]⟩
  · simp [hcompleted, hedits, hedit]
  · rw [hcompleted, length_append, hindex]
    rfl

/-- Nothing is in progress, and so many operations are completed. -/
structure AtRest (git : Git) (start : Tree) (count : Nat) (d : Disk) : Prop where
  applied : Applied git start d.journal d.tree
  count : d.journal.completed.length = count
  quiet : d.journal.Quiet

variable {o : Outcomes} {count : Nat}

theorem AtRest.standing (h : AtRest git start count d) : Standing S git start d := .settled h.applied h.quiet

theorem AtRest.append (h : AtRest git start count d)
    (hstatus : record.status = .inFlight ∨ record.status = .planSynced) : AtRest git start count (d.append record) := by
  have hcompleted : (d.journal.append record).completed = d.journal.completed := by
    rcases hstatus with h | h <;> exact completed_append_other (by simp [h]) (by simp [h])
  refine ⟨h.applied.same hcompleted fun _ => rfl, ?_, h.quiet.append (hstatus.imp_right .inr)⟩
  exact (congrArg List.length hcompleted).trans h.count

theorem AtRest.committed (h : AtRest git start index d)
    (hcommitted : Committed git index (some id) edit d d') : AtRest git start (index + 1) d' := by
  obtain ⟨happlied, hcount⟩ := h.applied.committed h.count hcommitted
  obtain ⟨pre, post, hjournal⟩ := hcommitted.journal
  refine ⟨happlied, hcount, ?_⟩
  rw [hjournal]
  exact (h.quiet.append (.inl rfl)).append (.inr (.inl rfl))

theorem keeps_recordAppliedOp (h : AtRest git start count d) (index : Nat) (edit : WorkspaceEdit) :
    Keeps (recordAppliedOp S o index edit) d (AtRest git start count)
      fun r d' => AtRest git start count d' ∧ (r = .ok () → count = index + 1 → Vouched S d') := by
  refine .ask_bind (fun id _ => ?_) fun _ _ => ⟨h, fun hr => nomatch hr⟩
  refine .ask_bind (fun plan _ => ?_) fun _ _ => ⟨h, fun hr => nomatch hr⟩
  let synced := d.append (.planSynced index (some id) (pendingDigest S plan index))
  have hsynced : AtRest git start count synced := h.append (.inr rfl)
  have hwritten : AtRest git start count { synced with plan } := ⟨hsynced.applied, hsynced.count, hsynced.quiet⟩
  refine .change_bind hsynced (Keeps.change_bind hwritten (Keeps.ask ⟨hwritten, ?_⟩))
  intro _ hcount
  exact h.applied.vouched (h.count.trans hcount) (some id) plan

theorem keeps_recordSettled (h : AtRest git start count d) (ops : List (Nat × WorkspaceEdit)) :
    Keeps (recordSettled S o false (.ready ops)) d (AtRest git start count)
      fun r d' => AtRest git start count d' ∧
        (r = .ok () → ∀ last, ops.getLast? = some last → count = last.1 + 1 → Vouched S d') := by
  show Keeps (Durable.inTurn _ ops) _ _ _
  induction ops generalizing d with
  | nil => exact .pure ⟨h, fun _ _ hlast => nomatch hlast⟩
  | cons op ops ih =>
    refine (keeps_recordAppliedOp h op.1 op.2).bind ?_ fun _ _ h => ⟨h.1, fun hr => nomatch hr⟩
    intro _ d' ⟨hd', hvouched⟩
    cases ops with
    | nil =>
      refine .pure ⟨hd', ?_⟩
      rintro - _ ⟨rfl⟩ hcount
      exact hvouched rfl hcount
    | cons op' ops =>
      refine (ih hd').mono (fun _ h => h) ?_
      rintro r d'' ⟨hd'', hvouched'⟩
      exact ⟨hd'', fun hr last hlast => hvouched' hr last (by simpa using hlast)⟩

theorem keeps_commitSingle (hS : S.InOneStep git) (h : AtRest git start index d) (id : OpId) (hshown : Shown S git d.tree edit) :
    Keeps (commitMember S none index (some id) edit) d (Standing S git start)
      fun r d' => match r with
        | .ok slot => slot = none ∧ AtRest git start (index + 1) d'
        | .error _ => Standing S git start d' := by
  refine (keeps_commit hS (some id) ?_ ?_ ?_).bind ?_ ?_
  · intro pre _
    exact (h.append (.inl rfl)).standing
  · intro pre hpre
    let record := JournalRecord.inFlight index (some id) pre
    have hflying : AtRest git start index (d.append record) := h.append (.inl rfl)
    rcases hshown pre hpre with hsame | hdiffer
    · exact .settled (hflying.applied.same rfl hsame) hflying.quiet
    · refine .inFlight d.tree edit { record with seq := d.journal.records.length } hflying.applied hflying.quiet rfl ?_ rfl
        (hflying.applied.nextOp.trans hflying.count).symm rfl hdiffer
      simp [Disk.append, Journal.append, record]
  · intro d' hd'
    exact (h.committed hd').standing
  · intro _ d' hd'
    exact .pure ⟨rfl, h.committed hd'⟩
  · rintro e d' (hd' | hd')
    · rw [hd']
      exact h.standing
    · exact hd'

theorem keeps_singleTurn (hS : S.InOneStep git) (h : AtRest git start index d) (hindex : index < plan.ops.length)
    (hgroup : plan.groupAt index = none) (hshown : ∀ t edit, o.resolve index t = .ok edit → Shown S git t edit) :
    Keeps (turn S o plan false none index) d (Standing S git start)
      fun r d' => match r with
        | .ok slot => slot = none ∧ AtRest git start (index + 1) d' ∧ Vouched S d'
        | .error _ => Standing S git start d' := by
  obtain ⟨id, hid⟩ : ∃ id, plan.ops[index]?.map (·.id) = some id := by simp [hindex]
  have hnone : enterGroup plan none index = pure none := by simp [enterGroup, GroupRun.begin, hgroup]
  refine (keeps_rollBackOnFailure_none (keeps_resolveOp o index d _)).bind ?_ ?_
  · intro edit d' ⟨hd', hedit⟩
    have hshown' := hshown _ edit (hedit edit rfl)
    rw [hd', hnone]
    simp only [Bool.false_eq_true, if_false, hid]
    refine (keeps_rollBackOnFailure_none (keeps_commitSingle hS h id hshown')).bind ?_ fun _ _ h => h
    rintro _ d' ⟨rfl, hd'⟩
    refine ((keeps_recordSettled hd' [(index, edit)]).mono (fun _ h => h.standing) fun _ _ h => h).bind ?_ fun _ _ h => h.1.standing
    intro _ d'' ⟨hd'', hvouched⟩
    exact .pure ⟨rfl, hd'', hvouched rfl _ rfl rfl⟩
  · intro e d' ⟨hd', _⟩
    rw [hd']
    exact h.standing

end single

/-! ## A group's turns -/

section member

variable {S : Setting} {git : Git} {start : Tree} {before d : Disk} {first index : Nat} {group : String} {T : Path → Prop}
  {run : GroupRun} {edit : WorkspaceEdit} {o : Outcomes}

theorem Setting.InOneStep.confines (hS : S.InOneStep git) (hgit : git.MovesFiles) : S.Confines := by
  intro files captured t edit hground htouched h
  rw [hS edit]
  exact (keeps_applyParts hgit hground htouched h).atOnce fun _ _ h => h

/-- Where a group begins nothing is in progress. -/
structure Base (S : Setting) (git : Git) (start : Tree) (first : Nat) (before : Disk) : Prop where
  atRest : AtRest git start first before
  vouched : Vouched S before

section

variable (h : Base S git start first before)
include h

theorem Base.standing_open (hopen : GroupOpen T before first group d) : Standing S git start d := by
  obtain ⟨captured, hopen, -⟩ := hopen
  exact .inGroup before first group captured h.atRest.applied h.atRest.quiet h.vouched
    (h.atRest.applied.nextOp.trans h.atRest.count).symm hopen

theorem Base.atRest_rolledBack (hback : RolledBack before d) : AtRest git start first d :=
  ⟨h.atRest.applied.same hback.completed hback.files, hback.completed ▸ h.atRest.count, hback.quiet⟩

theorem Base.standing_undoing
    (hd : GroupOpen T before first group d ∨ RolledBack before d) : Standing S git start d := by
  rcases hd with hopen | hback
  · exact h.standing_open hopen
  · exact (h.atRest_rolledBack hback).standing

theorem Base.standing_ended {e : RunError} (hended : Ended T before first group e d) :
    Standing S git start d := h.standing_undoing (hended.imp_left (·.2))

end

/-- The members before `index` are completed, and the group goes on. -/
structure Member (git : Git) (start : Tree) (T : Path → Prop) (before : Disk) (first : Nat) (group : String) (run : GroupRun)
    (index : Nat) (d : Disk) : Prop where
  holds : Holds T before first group run d
  applied : Applied git start d.journal d.tree
  count : d.journal.completed.length = index

theorem keeps_preImage_completed (run : GroupRun) (index : Nat) (id : Option OpId) (edit : WorkspaceEdit) (d : Disk) :
    Keeps (run.preImage index id edit) d (fun _ => True)
      fun _ d' => d'.tree = d.tree ∧ d'.journal.completed = d.journal.completed := by
  refine keeps_look_bind (fun images _ => ?_) fun _ _ => ⟨rfl, rfl⟩
  split
  · let record := JournalRecord.preImaged index id run.group images
    have hcompleted : (d.journal.append record).completed = d.journal.completed := completed_append_other nofun nofun
    exact .change_bind trivial (Keeps.pure ⟨rfl, hcompleted⟩)
  · exact .pure ⟨rfl, rfl⟩

theorem keeps_commitMember_applied (hS : S.InOneStep git) (h : Member git start T before first group run index d) (id : OpId) :
    Keeps (commitMember S (some run) index (some id) edit) d (fun _ => True)
      fun r d' => ∀ slot, r = .ok slot → Applied git start d'.journal d'.tree ∧ d'.journal.completed.length = index + 1 := by
  refine (keeps_preImage_completed run index (some id) edit d).bind ?_ fun _ _ _ _ hr => nomatch hr
  intro run' d' ⟨htree, hcompleted⟩
  have happlied : Applied git start d'.journal d'.tree := h.applied.same hcompleted fun path => by rw [htree]
  have hcommit : Keeps (commitOperation S.hash S.apply index (some id) edit) d' (fun _ => True) _ :=
    keeps_commit hS (some id) (fun _ _ => trivial) (fun _ _ => trivial) fun _ _ => trivial
  refine hcommit.bind ?_ fun _ _ _ _ hr => nomatch hr
  intro _ d'' hd''
  exact .pure fun _ _ => happlied.committed (hcompleted ▸ h.count) hd''

theorem Member.completed (h : Member git start T before first group run index d) (last : Nat) :
    AtRest git start index (d.append (.groupCompleted last group)) := by
  obtain ⟨started, inner, hrecords, hstarted, hgroup, -, hinner, -⟩ := h.holds.inGroup.records
  have hcompleted : (d.journal.append (.groupCompleted last group)).completed = d.journal.completed :=
    completed_append_other nofun nofun
  refine ⟨h.applied.same hcompleted fun _ => rfl, (congrArg List.length hcompleted).trans h.count, ?_⟩
  simp only [Disk.append, Journal.append, hrecords]
  exact quiet_ended hstarted hgroup hinner (.inl rfl) rfl

def MemberEnds (S : Setting) (git : Git) (start : Tree) (T : Path → Prop) (before : Disk) (first : Nat) (group : String)
    (last index : Nat) (r : Except RunError (Option GroupRun)) (d : Disk) : Prop :=
  match r with
  | .ok (some run) => Member git start T before first group run (index + 1) d ∧ run.last = last ∧ last ≠ index
  | .ok none => Base S git start (index + 1) d
  | .error _ => Standing S git start d

theorem keeps_settle_member (hbase : Base S git start first before)
    (h : Member git start T before first group run (index + 1) d) :
    Keeps (settle o.gate (some run) index edit) d (Standing S git start)
      fun r d' => match r with
        | .ok (some run', settled) => settled = .pending ∧ Member git start T before first group run' (index + 1) d' ∧
            run'.last = run.last ∧ run.last ≠ index
        | .ok (none, settled) => AtRest git start (index + 1) d' ∧ ∃ ops, settled = .ready (ops ++ [(index, edit)])
        | .error _ => Standing S git start d' := by
  show Keeps (if _ then _ else _) _ _ _
  split
  · refine .bind (R := fun
      | .ok ops, d' => AtRest git start (index + 1) d' ∧ ops = run.applied ++ [(index, edit)]
      | .error _, d' => Standing S git start d') ?_ ?_ fun _ _ h => h
    · refine .of_run (Durable.ask_bind_ok _ rfl) ?_
      split
      · have hkept := h.completed run.last
        rw [← h.holds.named] at hkept
        exact .change_bind hkept.standing (Keeps.pure ⟨hkept, rfl⟩)
      · exact .fail (hbase.standing_open h.holds.isOpen)
      have hopen := h.holds.isOpen
      rw [← h.holds.named] at hopen
      refine (keeps_rollBack hopen _).mono (fun _ h => hbase.standing_undoing h) ?_
      rintro _ d' ⟨rfl, hd'⟩
      exact (hbase.atRest_rolledBack hd').standing
    · rintro ops d' ⟨hd', hops⟩
      exact .pure ⟨hd', run.applied, by rw [hops]⟩
  · next hlast =>
    exact .pure ⟨rfl, ⟨⟨h.holds.named, h.holds.inGroup, h.holds.paths⟩, h.applied, h.count⟩, rfl, hlast⟩

variable (hT : Apart T) (hgit : git.MovesFiles) (hS : S.InOneStep git) (hbase : Base S git start first before)

include hT hgit hS hbase

section

variable (h : Member git start T before first group run index d)
include h

theorem keeps_asMember (hop : first ≤ index)
    (htouched : ∀ p ∈ touchedPaths edit, T p) (id : OpId) :
    Keeps
      (GroupRun.rollBackOnFailure (some run) (commitMember S (some run) index (some id) edit) >>= fun slot =>
        settle o.gate slot index edit >>= fun settled => recordSettled S o false settled.2 >>= fun _ => pure settled.1)
      d (Standing S git start) (MemberEnds S git start T before first group run.last index) := by
  have hcommit : Keeps (commitMember S (some run) index (some id) edit) d (GroupOpen T before first group)
      fun r d' => GroupOpen T before first group d' ∧ ∀ slot, r = .ok slot →
        ∃ run', slot = some run' ∧ Member git start T before first group run' (index + 1) d' ∧ run'.last = run.last := by
    refine ((keeps_commitMember hT (hS.confines hgit) h.holds hop htouched (some id)).and
      (keeps_commitMember_applied hS h id)).mono (fun _ h => h.1) ?_
    rintro r d' ⟨⟨hopen, hholds⟩, happlied⟩
    refine ⟨hopen, ?_⟩
    intro slot hr
    obtain ⟨run', hslot, hrun', hlast⟩ := hholds slot hr
    obtain ⟨happlied', hcount⟩ := happlied slot hr
    exact ⟨run', hslot, ⟨hrun', happlied', hcount⟩, hlast⟩
  refine ((keeps_rollBackOnFailure h.holds.named hcommit).mono (fun _ h => hbase.standing_undoing h) fun _ _ h => h).bind ?_
    fun _ _ h => hbase.standing_ended h
  rintro slot d' ⟨run', rfl, hrun', hlast⟩
  refine (keeps_settle_member hbase hrun').bind ?_ fun _ _ h => h
  rintro ⟨slot, settled⟩ d'' hd''
  cases slot with
  | some run'' =>
    obtain ⟨rfl, hmember, hlast', hne⟩ := hd''
    exact .pure ⟨hmember, hlast'.trans hlast, hlast ▸ hne⟩
  | none =>
    obtain ⟨hrest, ops, rfl⟩ := hd''
    refine ((keeps_recordSettled hrest (ops ++ [(index, edit)])).mono (fun _ h => h.standing) fun _ _ h => h).bind ?_
      fun _ _ h => h.1.standing
    intro _ d₃ ⟨hrest', hvouched⟩
    exact .pure ⟨hrest', hvouched rfl (index, edit) (by simp) rfl⟩

theorem keeps_memberTurn (hop : first ≤ index)
    (hindex : index < plan.ops.length)
    (htouched : ∀ t edit, o.resolve index t = .ok edit → ∀ p ∈ touchedPaths edit, T p) :
    Keeps (turn S o plan false (some run) index) d (Standing S git start)
      (MemberEnds S git start T before first group run.last index) := by
  obtain ⟨id, hid⟩ : ∃ id, plan.ops[index]?.map (·.id) = some id := by simp [hindex]
  refine ((keeps_rollBackOnFailure h.holds.named (keeps_resolveOp_open h.holds.isOpen)).mono
    (fun _ h => hbase.standing_undoing h) fun _ _ h => h).bind ?_ fun _ _ h => hbase.standing_ended h
  intro edit d' ⟨hd', hedit⟩
  rw [hd']
  simp only [Bool.false_eq_true, if_false, hid]
  exact keeps_asMember hT hgit hS hbase h hop (htouched _ edit hedit) id

end

theorem keeps_beginTurn (hgroup : plan.groupAt first = some group)
    (htouched : ∀ t edit, o.resolve first t = .ok edit → ∀ p ∈ touchedPaths edit, T p) :
    Keeps (turn S o plan false none first) before (Standing S git start)
      (MemberEnds S git start T before first group ((plan.membersFrom group first).getLastD first) first) := by
  obtain ⟨id, hid⟩ : ∃ id, plan.ops[first]?.map (·.id) = some id := by
    obtain ⟨op, hop, -⟩ := Option.bind_eq_some_iff.mp hgroup
    exact ⟨op.id, by rw [hop]; rfl⟩
  refine (keeps_rollBackOnFailure_none (keeps_resolveOp o first before _)).bind ?_ ?_
  · intro edit d' ⟨hd', hedit⟩
    rw [hd']
    simp only [Bool.false_eq_true, if_false, hid]
    refine ((keeps_begin plan hgroup).mono (fun _ h => hbase.standing_open (T := T) h) fun _ _ h => h).bind ?_ ?_
    · rintro _ d' ⟨run, ⟨rfl⟩, hholds, hlast, hd'⟩
      have hcompleted : d'.journal.completed = before.journal.completed := by
        rw [hd']
        exact completed_append_other nofun nofun
      have hmember : Member git start T before first group run first d' := by
        refine ⟨hholds, ?_, hcompleted ▸ hbase.atRest.count⟩
        refine hbase.atRest.applied.same hcompleted ?_
        rw [hd']
        exact fun _ => rfl
      rw [← hlast]
      exact keeps_asMember hT hgit hS hbase hmember (Nat.le_refl first) (htouched _ edit (hedit edit rfl)) id
    · rintro e d' ⟨_, hr, -⟩
      cases hr
  · intro e d' ⟨hd', _⟩
    rw [hd']
    exact hbase.atRest.standing

end member

/-! ## A whole run -/

section run

variable {S : Setting} {git : Git} {start : Tree} {o : Outcomes} {plan : Plan} {d : Disk} {index : Nat} {slot : Option GroupRun}
  {before : Disk}

inductive At (S : Setting) (git : Git) (start : Tree) (o : Outcomes) : Option GroupRun → Nat → Disk → Prop
  | between {index : Nat} {d : Disk} (h : Base S git start index d) : At S git start o none index d
  | inside {T : Path → Prop} {before d : Disk} {first index : Nat} {group : String} {run : GroupRun}
    (hT : ∀ p q, T p → T q → p <+: q → p = q)
    (htouched : ∀ i t edit, first ≤ i → i ≤ run.last → o.resolve i t = .ok edit → ∀ p ∈ touchedPaths edit, T p)
    (hbase : Base S git start first before) (h : Member git start T before first group run index d) (hfirst : first ≤ index)
    (hlast : index ≤ run.last) : At S git start o (some run) index d

theorem At.standing (h : At S git start o slot index d) : Standing S git start d := by
  cases h with
  | between h => exact h.atRest.standing
  | inside _ _ hbase h _ _ => exact hbase.standing_open h.holds.isOpen

theorem At.count (h : At S git start o slot index d) : d.journal.completed.length = index := by
  cases h with
  | between h => exact h.atRest.count
  | inside _ _ _ h _ _ => exact h.count

structure Moment (S : Setting) (git : Git) (start : Tree) (d : Disk) : Prop where
  standing : Standing S git start d
  next : Next d

section

variable (hgit : git.MovesFiles) (hS : S.InOneStep git)
  (hapart : ∀ first group, plan.groupAt first = some group → MembersApart o (plan.membersFrom group first))
  (hshown : ∀ index, plan.groupAt index = none → ∀ t edit, o.resolve index t = .ok edit → Shown S git t edit)

include hgit hS hapart hshown

/-- A turn of the loop ends in the next one, or the run has failed. -/
theorem keeps_turnAt (h : At S git start o slot index d) (hindex : index < plan.ops.length) :
    Keeps (turn S o plan false slot index) d (Standing S git start)
      fun r d' => match r with
        | .ok slot => At S git start o slot (index + 1) d'
        | .error _ => Standing S git start d' := by
  cases h with
  | inside hT htouched hbase h hfirst hlast =>
    refine (keeps_memberTurn hT hgit hS hbase h hfirst hindex fun t edit => htouched index t edit hfirst hlast).mono
      (fun _ h => h) ?_
    intro r d' hd'
    match r with
    | .error _ => exact hd'
    | .ok none => exact .between hd'
    | .ok (some run') =>
      obtain ⟨hmember, hrun', hne⟩ := hd'
      exact .inside hT (fun i t edit hi hle => htouched i t edit hi (hrun' ▸ hle)) hbase hmember (by omega) (by omega)
  | between hbase =>
    cases hgroup : plan.groupAt index with
    | none =>
      refine (keeps_singleTurn hS hbase.atRest hindex hgroup (hshown index hgroup)).mono (fun _ h => h) ?_
      intro r d' hd'
      match r with
      | .error _ => exact hd'
      | .ok _ =>
        obtain ⟨rfl, hrest, hvouched⟩ := hd'
        exact .between ⟨hrest, hvouched⟩
    | some group =>
      let T : Path → Prop := fun p =>
        ∃ i ∈ plan.membersFrom group index, ∃ t edit, o.resolve i t = .ok edit ∧ p ∈ touchedPaths edit
      have hT : Apart T := by
        rintro p q ⟨i, hi, t, edit, hedit, hp⟩ ⟨j, hj, t', edit', hedit', hq⟩
        exact hapart index group hgroup i hi j hj t t' edit edit' hedit hedit' p hp q hq
      have hmember := le_lastMember plan group index
      have htouched : ∀ i t edit, index ≤ i → i ≤ (plan.membersFrom group index).getLastD index → o.resolve i t = .ok edit →
          ∀ p ∈ touchedPaths edit, T p :=
        fun i t edit hi hlast hedit p hp => ⟨i, mem_membersFrom hgroup hi hlast, t, edit, hedit, hp⟩
      refine (keeps_beginTurn hT hgit hS hbase hgroup fun t edit => htouched index t edit (Nat.le_refl index) hmember).mono
        (fun _ h => h) ?_
      intro r d' hd'
      match r with
      | .error _ => exact hd'
      | .ok none => exact .between hd'
      | .ok (some run') =>
        obtain ⟨hmember', hrun', hne⟩ := hd'
        exact .inside hT (fun i t edit hi hle => htouched i t edit hi (hrun' ▸ hle)) hbase hmember' (by omega) (by omega)

theorem keeps_loop (options : Options) {opened : Opened} (hlegacy : opened.legacy = false) (n : Nat)
    (h : At S git start o slot index d)
    (hnext : Next d) (hindex : n ≤ plan.ops.length - index) :
    Keeps (applyOps S o plan options opened slot (List.range' index n)) d (Moment S git start)
      fun _ => Moment S git start := by
  induction n generalizing slot index d with
  | zero => exact .pure ⟨h.standing, hnext⟩
  | succ n ih =>
    show Keeps (if _ then _ else _) _ _ _
    split
    · exact .pure ⟨h.standing, hnext⟩
    rw [hlegacy]
    refine (((keeps_turnAt hgit hS hapart hshown h (by omega)).and
      (keeps_turn_next ⟨hnext, h.count⟩ plan false slot)).mono (fun _ h => ⟨h.1, h.2⟩) fun _ _ h => h).bind ?_ fun _ _ h => ⟨h.1, h.2⟩
    intro slot' d' ⟨hd', hnext'⟩
    refine (ih hd' hnext' (by omega)).bind ?_ fun _ _ h => h
    exact fun _ _ h => .pure h

end

/-! ## Opening -/

theorem RolledBack.vouched (h : RolledBack before d) (hvouched : Vouched S before) : Vouched S d := by
  obtain ⟨more, hrecords, hmore⟩ := h.records
  have hdigest : ∀ op, d.journal.planDigestAfter op = before.journal.planDigestAfter op := by
    intro op
    have hnone : more.reverse.find? (fun record => record.status = .planSynced && record.op = op) = none := by
      rw [find?_eq_none]
      intro record hrecord
      simp [hmore record (mem_reverse.mp hrecord)]
    rw [Journal.planDigestAfter, hrecords, reverse_append, find?_append, hnone, Option.none_or]
    rfl
  have hlast : d.journal.lastCompleted = before.journal.lastCompleted := by
    rw [Journal.lastCompleted, h.completed]
    rfl
  unfold Vouched at hvouched ⊢
  simp only [refuseAPlanTheJournalCannotVouchFor, predatesPlanWriteBack, hlast, hdigest, h.plan] at hvouched ⊢
  exact hvouched

variable {options : Options}

section

variable (h : options.Resumes)
include h

theorem Options.Resumes.approach : Restructure.approach o options = rollBackAnOpenGroup := by
  simp [Restructure.approach, Options.continuesAJournal, h.1]

theorem Options.Resumes.startOf (j : Journal) : Restructure.startOf plan options j = .ok j.nextOp := by
  simp [Restructure.startOf, h.2.1, h.2.2]

theorem openPlanRun_quiet (hopen : d.journal.openGroup = none) :
    (openPlanRun S o options).run d = ⟨[], o.worktree >>= fun _ => vetRun S o options d⟩ := by
  unfold openPlanRun
  rw [h.approach]
  cases hworktree : o.worktree with
  | error e => exact Durable.ask_bind_error _ rfl
  | ok _ =>
    rw [Durable.ask_bind_ok (fun _ => .ok _) rfl]
    rw [Durable.bind_ok (show (rollBackAnOpenGroup.run d).result = .ok () from by rw [rollBackAnOpenGroup_quiet hopen])]
    rw [Durable.final, rollBackAnOpenGroup_quiet hopen]
    rfl

/-- A run that opens where nothing is in progress starts with the first operation that is not completed. -/
theorem Applied.opened (happlied : Applied git start d.journal d.tree) (hquiet : d.journal.Quiet)
    {opened : Opened} (hopened : vetRun S o options d = .ok opened) :
    opened.legacy = false ∧ Base S git start opened.start d := by
  obtain ⟨hvouched, hstart, -, -, -, -, hlegacy⟩ := (vetRun_eq_ok S).mp hopened
  rw [h.startOf] at hstart
  exact ⟨hlegacy.trans happlied.not_legacy, ⟨happlied, happlied.nextOp.symm.trans (Except.ok.inj hstart), hquiet⟩, hvouched⟩

theorem keeps_open_quiet {Q : Except RunError Opened → Disk → Prop}
    (hopen : d.journal.openGroup = none) (hok : ∀ opened, vetRun S o options d = .ok opened → Q (.ok opened) d)
    (herror : ∀ e, ((openPlanRun S o options).run d).passed = [] → Q (.error e) d) :
    Keeps (openPlanRun S o options) d C Q := by
  have hrun := openPlanRun_quiet (S := S) (o := o) h hopen
  refine ⟨?_, ?_⟩
  · rw [hrun]
    exact fun _ hd' => nomatch hd'
  rw [Durable.final, hrun]
  show Q (o.worktree >>= fun _ => vetRun S o options d) d
  cases hresult : (o.worktree >>= fun _ => vetRun S o options d) with
  | error e => exact herror e (by rw [hrun])
  | ok opened =>
    obtain ⟨_, _, hvet⟩ := bind_eq_ok.mp hresult
    exact hok opened hvet

theorem keeps_open_group {first : Nat} {group : String} {captured : List Path}
    (hbase : Base S git start first before) (hopen : InGroup before first group captured d) (hnext : Next d)
    (hworktree : o.worktree = .ok ()) (hlower : ∀ plan start t, o.lower plan start t = .ok ()) :
    Keeps (openPlanRun S o options) d (Moment S git start)
      fun r d' => ∃ opened, r = .ok opened ∧ opened.legacy = false ∧ Base S git start opened.start d' ∧ Next d' ∧
        d'.plan = d.plan := by
  have hundo : Keeps (approach o options) d (Moment S git start)
      fun r d' => r = .ok () ∧ RolledBack before d' ∧ Next d' := by
    rw [h.approach]
    refine ((keeps_rollBackAnOpenGroup (T := fun _ => True) ⟨captured, hopen, fun _ _ => trivial⟩).and
      (hnext.keeps along_rollBackAnOpenGroup)).mono ?_ ?_
    · intro d' ⟨hd', hnext'⟩
      exact ⟨hbase.standing_undoing hd', hnext'⟩
    · intro r d' ⟨⟨hr, hback⟩, hnext'⟩
      exact ⟨hr, hback, hnext'⟩
  refine .of_run (Durable.ask_bind_ok _ hworktree) ?_
  refine hundo.bind ?_ fun _ _ h => nomatch h.1
  intro _ d' ⟨_, hback, hnext'⟩
  have hrest := hbase.atRest_rolledBack hback
  have hvet : vetRun S o options d' = .ok ⟨false, d'.journal.nextOp⟩ := by
    refine (vetRun_eq_ok S).mpr ⟨hback.vouched hbase.vouched, h.startOf _, hlower _ _ _, ?_, ?_, ?_, hrest.applied.not_legacy.symm⟩
    · simp [refuseABrokenBaseline, Options.continuesAJournal, h.1]
    · cases hlast : d'.journal.records.getLast? with
      | none =>
        simp only [refuseAnUndecidedJournal, resumeDecision, hlast]
        rfl
      | some record => simp [refuseAnUndecidedJournal, resumeDecision_last hlast, hback.decided record hlast]
    unfold refuseADivergedCheckpoint
    split
    · rfl
    · next checkpoint hcheckpoint => rw [if_pos (hback.verified checkpoint hcheckpoint)]
  refine .ask ⟨_, hvet, rfl, ?_, hnext', hback.plan.trans hopen.plan.symm⟩
  show Base S git start d'.journal.nextOp d'
  rw [hrest.applied.nextOp, hrest.count]
  exact ⟨hrest, hback.vouched hbase.vouched⟩

end

/-- A run that is refused has written nothing. -/
theorem keeps_open (hmoment : Moment S git start d) (hmeets : Meets S git (o, options) d) :
    Keeps (openPlanRun S o options) d (Moment S git start)
      fun r d' => match r with
        | .ok opened => opened.legacy = false ∧ Base S git start opened.start d' ∧ Next d' ∧ d'.plan = d.plan
        | .error _ => d' = d ∧ ((openPlanRun S o options).run d).passed = [] := by
  cases hmoment.standing with
  | settled happlied hquiet =>
    refine keeps_open_quiet hmeets.resumes hquiet.openGroup ?_ fun _ hpassed => ⟨rfl, hpassed⟩
    intro opened hopened
    obtain ⟨hlegacy, hbase⟩ := happlied.opened hmeets.resumes hquiet hopened
    exact ⟨hlegacy, hbase, hmoment.next, rfl⟩
  | inFlight t edit record happlied hquiet htree hlast hstatus hop hpost hshown =>
    refine keeps_open_quiet hmeets.resumes hquiet.openGroup ?_ fun _ hpassed => ⟨rfl, hpassed⟩
    intro opened hopened
    obtain ⟨-, -, -, -, hdecided, -⟩ := (vetRun_eq_ok S).mp hopened
    unfold refuseAnUndecidedJournal at hdecided
    rw [resumeDecision_last hlast, hstatus, hpost] at hdecided
    cases hsame : hashesMatch S.hash d.tree record.pre with
    | error e =>
      rw [hsame] at hdecided
      cases hdecided
    | ok same =>
      rw [hsame] at hdecided
      cases same with
      | true => exact absurd hsame hshown
      | false => cases hdecided
  | inGroup before first group captured happlied hquiet hvouched hfirst hopen =>
    cases hworktree : o.worktree with
    | error e =>
      refine .bind (R := fun r d' => r = .error e ∧ d' = d) (Keeps.ask ⟨hworktree, rfl⟩)
        (fun _ _ h => nomatch h.1) fun _ _ h => ⟨h.2, ?_⟩
      have hrun : (openPlanRun S o options).run d = ⟨[], .error e⟩ := Durable.ask_bind_error _ hworktree
      rw [hrun]
    | ok _ =>
      obtain ⟨found, hfound, -⟩ := hopen.openGroup
      have hbase : Base S git start first before := ⟨⟨happlied, happlied.nextOp.symm.trans hfirst.symm, hquiet⟩, hvouched⟩
      refine (keeps_open_group hmeets.resumes hbase hopen hmoment.next hworktree
        (hmeets.lower (by simp [hfound]))).mono (fun _ h => h) ?_
      rintro _ d' ⟨opened, rfl, hopened⟩
      exact hopened

theorem keeps_run (hgit : git.MovesFiles) (hS : S.InOneStep git) (hmoment : Moment S git start d)
    (hmeets : Meets S git (o, options) d) :
    Keeps (applyHeldPlan S o options) d (Moment S git start) fun _ => Moment S git start := by
  refine (keeps_open hmoment hmeets).bind ?_ ?_
  · intro opened d' ⟨hlegacy, hbase, hnext, hplan⟩
    refine .of_run (Durable.ask_bind_ok _ rfl) ?_
    have hloop : Keeps (applyOps S o d'.plan options opened none ((List.range d'.plan.ops.length).drop opened.start)) d'
        (Moment S git start) fun _ => Moment S git start := by
      rw [hplan, range_eq_range', drop_range', Nat.zero_add, Nat.mul_one]
      exact keeps_loop hgit hS hmeets.apart hmeets.shown options hlegacy _ (.between hbase) hnext (Nat.le_refl _)
    refine hloop.bind ?_ fun _ _ h => h
    intro applied d'' hd''
    refine .bind (R := fun _ => Moment S git start) ?_ (fun _ _ h => .pure h) fun _ _ h => h
    unfold refuseABrokenResult
    split
    · exact .pure hd''
    refine .ask_bind (fun _ _ => ?_) fun _ _ => hd''
    split
    · refine .of_run (Durable.ask_bind_ok _ rfl) ?_
      rw [hmeets.tidy]
      exact .pure hd''
    · exact .pure hd''
  · intro e d' hd'
    rw [hd'.1]
    exact hmoment

end run

/-! ## Histories -/

/-- In every history of runs that resume, each killed anywhere, the completed operations are applied once each and in order,
    with at most one operation or one group in progress; what goes in flight is the first operation not completed; and a run
    that opens starts there, while one that is refused has written nothing. -/
theorem every_operation_is_applied_exactly_once (hash : List Char → String)
    (digest : List (OpId × Anchor × List Anchor) → String) (git : Git) (hgit : git.MovesFiles) (start : Tree) (plan : Plan)
    (S : Setting) (hS : S = oneStep hash digest git) (d : Disk)
    (hreached : Durable.Reached (fun run : Outcomes × Options => applyHeldPlan S run.1 run.2) (Meets S git)
      ⟨start, ⟨[]⟩, none, plan⟩ d) :
    Standing S git start d ∧ Next d ∧ ∀ run, Meets S git run d →
      match ((openPlanRun S run.1 run.2).run d).result with
      | .ok opened => ∀ op, op < opened.start ↔
          ∃ record ∈ ((openPlanRun S run.1 run.2).final d).journal.completed, record.op = op
      | .error _ => ((applyHeldPlan S run.1 run.2).run d).passed = [] := by
  have hstep : S.InOneStep git := by
    intro edit
    rw [hS]
    rfl
  have hfirst : Moment S git start ⟨start, ⟨[]⟩, none, plan⟩ := by
    refine ⟨.settled ⟨rfl, by simp [Journal.completed, Journal.recordsInForce, InForce.all], [], rfl, .start fun _ => rfl⟩
      ⟨rfl, rfl⟩, ?_⟩
    intro record hrecord
    cases hrecord
  have hmoment : Moment S git start d := by
    refine hreached.kept ?_ hfirst
    intro run s hs hmeets s' hs'
    exact (keeps_run hgit hstep hs hmeets).passes s' hs'
  refine ⟨hmoment.standing, hmoment.next, ?_⟩
  rintro ⟨o, options⟩ hmeets
  have hends := (keeps_open hmoment hmeets).ends
  cases hresult : ((openPlanRun S o options).run d).result with
  | ok opened =>
    rw [hresult] at hends
    obtain ⟨-, hbase, -⟩ := hends
    intro op
    rw [← hbase.atRest.count, ← mem_range, ← hbase.atRest.applied.inOrder, mem_map]
  | error e =>
    rw [hresult] at hends
    show (((openPlanRun S o options) >>= _).run d).passed = []
    rw [Durable.bind_error hresult]
    exact hends.2

def oneOp (tree : Tree) : Disk := ⟨tree, ⟨[]⟩, none, ⟨[⟨"a", .symbol "a.rs" "f", [], none⟩]⟩⟩

def resolving (resolve : Tree → Except RunError WorkspaceEdit) : Outcomes :=
  { notCompiling (fun _ => ⟨[]⟩) with resolve := fun _ => resolve, gate := fun _ _ => .ok () }

def replacingX : Outcomes :=
  resolving fun t => if t.entries = lineX.tree.entries then .ok xToY else .error .callerStopped

/-- The run is killed once the line is replaced: the operation is the one in progress. -/
theorem a_replaced_line_is_in_progress :
    ∃ d, ((applyHeldPlan (oneStep String.ofList (fun _ => "") plainGit) replacingX resuming).run (oneOp lineX.tree)).passed[1]? =
        some d ∧ d.tree.fileAt ["a.rs"] = some ['y', '\n'] ∧
      Standing (oneStep String.ofList (fun _ => "") plainGit) plainGit lineX.tree d := by
  have hmeets : Meets (oneStep String.ofList (fun _ => "") plainGit) plainGit (replacingX, resuming) (oneOp lineX.tree) := by
    refine ⟨⟨rfl, rfl, rfl⟩, ?_, ?_, fun _ => rfl, fun _ _ _ _ => rfl⟩
    · intro first group hgroup
      match first with
      | 0 | _ + 1 => cases hgroup
    intro index _ t edit hedit
    simp only [replacingX, resolving] at hedit
    split at hedit
    · next ht =>
      obtain rfl : t = lineX.tree := AList.ext ht
      cases hedit
      intro pre hpre
      cases hpre
      exact .inr (by decide)
    · cases hedit
  refine ⟨_, rfl, rfl, ?_⟩
  refine (every_operation_is_applied_exactly_once String.ofList (fun _ => "") plainGit plainGit_movesFiles lineX.tree _ _ rfl _
    (.run (replacingX, resuming) .start hmeets (mem_of_getElem? (i := 1) rfl))).1

def creatingAFile : Outcomes := resolving fun t => .ok ⟨[.create (if t.fileAt ["z"] = none then ["z"] else ["w"])]⟩

/-- The first run is killed once `z` is made. No hash tells, so the second one does the operation again and makes `w`. It is
    completed with that edit alone, and `z` stays. -/
theorem an_empty_file_is_left_behind :
    ∃ run : Program Nat, run = applyHeldPlan (oneStep String.ofList (fun _ => "") plainGit) creatingAFile resuming ∧
      ∃ d, (run.run (oneOp lineX.tree)).passed[1]? = some d ∧ (run.run d).result = .ok 1 ∧
        (run.final d).journal.completed.map (·.edit) = [some ⟨[.create ["w"]]⟩] ∧
        (run.final d).tree.fileAt ["z"] = some [] ∧ lineX.tree.fileAt ["z"] = none := ⟨_, rfl, _, rfl, rfl, rfl, rfl, rfl⟩

end TddyCoder.Restructure
