/-
  TddyCoder.Restructure.Journal — the record of what a run has done to the tree
  (`packages/tddy-code-restructuring/src/journal.rs`, `journal/group.rs`, `LedgerCheckpoint` of
  `ledger.rs`).

  Records are only ever appended. Of an operation there is one before its edit is applied and
  one after; a group has one when it begins, the contents of the files its members are about to
  touch, and one when it is kept or undone. The records of a group that was undone stay but no
  longer count (`recordsInForce`).
-/

import TddyCoder.Restructure.Ledger

namespace TddyCoder.Restructure

open List

abbrev OpId := String

inductive OpStatus
  | inFlight
  | completed
  | failed
  | planSynced
  | groupStarted
  | preImaged
  | groupCompleted
  | groupRolledBack
  deriving DecidableEq

structure PreImage where
  path : Path
  contents : Option (List Char)
  deriving DecidableEq

abbrev Hashes := List (Path × String)

structure JournalRecord where
  seq : Nat
  op : Nat
  opId : Option OpId
  status : OpStatus
  edit : Option WorkspaceEdit
  pre : Hashes
  post : Hashes
  planDigest : Option String
  group : Option String
  members : List Nat
  preImages : List PreImage

namespace JournalRecord

/-- A record that says nothing but which operation it is about. -/
def plain (op : Nat) (opId : Option OpId) (status : OpStatus) : JournalRecord :=
  ⟨0, op, opId, status, none, [], [], none, none, [], []⟩

def inFlight (op : Nat) (opId : Option OpId) (pre : Hashes) : JournalRecord := { plain op opId .inFlight with pre }

def completed (op : Nat) (opId : Option OpId) (edit : WorkspaceEdit) (pre post : Hashes) : JournalRecord :=
  { plain op opId .completed with edit := some edit, pre, post }

def planSynced (op : Nat) (opId : Option OpId) (planDigest : String) : JournalRecord :=
  { plain op opId .planSynced with planDigest := some planDigest }

def aGroupRecord (op : Nat) (opId : Option OpId) (status : OpStatus) (group : String) : JournalRecord :=
  { plain op opId status with group := some group }

def groupStarted (op : Nat) (group : String) (members : List Nat) : JournalRecord :=
  { aGroupRecord op none .groupStarted group with members }

def preImaged (op : Nat) (opId : Option OpId) (group : String) (preImages : List PreImage) : JournalRecord :=
  { aGroupRecord op opId .preImaged group with preImages }

def groupCompleted (op : Nat) (group : String) : JournalRecord := aGroupRecord op none .groupCompleted group

def groupRolledBack (op : Nat) (group : String) : JournalRecord := aGroupRecord op none .groupRolledBack group

end JournalRecord

inductive ResumeDecision
  | reRun (op : Nat)
  | markCompleted (op : Nat)
  | abort (op : Nat)
  deriving DecidableEq

deriving instance DecidableEq for AppliedEdit
deriving instance DecidableEq for PositionLedger

structure LedgerCheckpoint where
  op : Nat
  ledger : PositionLedger
  deriving DecidableEq

structure Journal where
  records : List JournalRecord

structure OpenGroup where
  group : String
  members : List Nat
  preImages : List PreImage

variable (records : List JournalRecord)

def preImagesOf : List PreImage :=
  (records.filter (·.status = .preImaged)).flatMap (·.preImages)

def fromLast (p : JournalRecord → Bool) : List JournalRecord → Option (List JournalRecord)
  | [] => none
  | record :: records =>
    match fromLast p records with
    | some found => some found
    | none => if p record then some (record :: records) else none

/-- The records in force so far, those of a group that may still be undone apart. -/
structure InForce where
  settled : List JournalRecord
  started : Option (List JournalRecord)

namespace InForce

def all (s : InForce) : List JournalRecord := s.settled ++ s.started.getD []

def read (s : InForce) (record : JournalRecord) : InForce :=
  match record.status, s.started with
  | .groupStarted, _ => ⟨s.all, some [record]⟩
  | .groupCompleted, _ => ⟨s.all ++ [record], none⟩
  | .groupRolledBack, some _ => ⟨s.settled, none⟩
  | _, some records => ⟨s.settled, some (records ++ [record])⟩
  | _, none => ⟨s.settled ++ [record], none⟩

end InForce

namespace Journal

variable (j : Journal)

def append (record : JournalRecord) : Journal := ⟨j.records ++ [{ record with seq := j.records.length }]⟩

def recordsInForce : List JournalRecord := (j.records.foldl InForce.read ⟨[], none⟩).all

def completed (j : Journal) : List JournalRecord := j.recordsInForce.filter (·.status = .completed)

def foldRecords : PositionLedger :=
  records.foldl (fun ledger record => match record.edit with | some edit => ledger.record edit | none => ledger) .new

def foldThrough (op : Nat) : PositionLedger := foldRecords (j.completed.filter (·.op ≤ op))

def verifyCheckpoint (checkpoint : LedgerCheckpoint) : Bool :=
  j.completed.any (·.op = checkpoint.op) && j.foldThrough checkpoint.op = checkpoint.ledger

def nextOp : Nat := (j.completed.map (·.op + 1)).foldl max 0

def later (best : Option JournalRecord) (record : JournalRecord) : Option JournalRecord :=
  match best with
  | some found => if found.op ≤ record.op then some record else some found
  | none => some record

def lastCompleted : Option JournalRecord := j.completed.foldl later none

def planDigestAfter (op : Nat) : Option String :=
  (j.records.reverse.find? fun record => record.status = .planSynced && record.op = op).bind (·.planDigest)

def ends (group : String) (record : JournalRecord) : Bool :=
  (record.status = .groupCompleted || record.status = .groupRolledBack) && record.group = some group

def openGroup : Option OpenGroup := do
  let records ← fromLast (·.status = .groupStarted) j.records
  let started ← records.head?
  let group ← started.group
  if records.any (ends group) then none
  else some ⟨group, started.members, preImagesOf records⟩

def groupRecords (group : String) : List JournalRecord :=
  (fromLast (fun record => record.status = .groupStarted && record.group = some group) j.records).getD []

def groupPreImages (group : String) : List PreImage := preImagesOf (j.groupRecords group)

end Journal

open Journal (completed recordsInForce openGroup ends later)

/-! ## What counts while a group is open and once it is undone -/

/-- Records that neither begin a group nor end one. -/
def Inner : Prop :=
  ∀ record ∈ records, record.status = .preImaged ∨ record.status = .inFlight ∨ record.status = .completed

section groups

variable {j : Journal} {started : JournalRecord} {inner : List JournalRecord} {group : String}

variable {record : JournalRecord}

theorem InForce.read_inner (h : Inner inner) (settled records : List JournalRecord) :
    inner.foldl InForce.read ⟨settled, some records⟩ = ⟨settled, some (records ++ inner)⟩ := by
  induction inner generalizing records with
  | nil => simp
  | cons record inner ih =>
    obtain ⟨hrecord, hinner⟩ := forall_mem_cons.mp h
    have hread : InForce.read ⟨settled, some records⟩ record = ⟨settled, some (records ++ [record])⟩ := by
      rcases hrecord with hstatus | hstatus | hstatus <;> simp [InForce.read, hstatus]
    rw [foldl_cons, hread, ih hinner, append_assoc, singleton_append]

theorem inForce_open (hstarted : started.status = .groupStarted) (h : Inner inner) :
    (j.records ++ started :: inner).foldl InForce.read ⟨[], none⟩ = ⟨j.recordsInForce, some (started :: inner)⟩ := by
  have hread : ∀ s : InForce, s.read started = ⟨s.all, some [started]⟩ := by
    intro s
    simp [InForce.read, hstarted]
  rw [foldl_append, foldl_cons, hread, InForce.read_inner h]
  rfl

theorem completed_open (hstarted : started.status = .groupStarted) (h : Inner inner) :
    completed ⟨j.records ++ started :: inner⟩ = j.completed ++ inner.filter (·.status = .completed) := by
  simp only [completed, recordsInForce, inForce_open hstarted h, InForce.all, Option.getD_some,
    filter_append]
  rw [filter_cons_of_neg (by simp [hstarted])]

variable {last : JournalRecord}

theorem completed_rolledBack (hstarted : started.status = .groupStarted) (h : Inner inner)
    (hlast : last.status = .groupRolledBack) :
    completed ⟨j.records ++ started :: inner ++ [last]⟩ = j.completed := by
  simp [completed, recordsInForce, foldl_append, InForce.read_inner h, InForce.read, hstarted, hlast,
    InForce.all]

variable {p : JournalRecord → Bool}

theorem fromLast_append (hstarted : p started = true) (hinner : ∀ record ∈ inner, p record = false)
    (records : List JournalRecord) : fromLast p (records ++ started :: inner) = some (started :: inner) := by
  have hnone : fromLast p inner = none := by
    induction inner with
    | nil => rfl
    | cons record inner ih =>
      obtain ⟨hrecord, hrest⟩ := forall_mem_cons.mp hinner
      simp [fromLast, ih hrest, hrecord]
  induction records with
  | nil => simp [fromLast, hnone, hstarted]
  | cons record records ih => simp [fromLast, ih]

theorem Inner.not_started (h : Inner inner) : ∀ record ∈ inner, record.status ≠ .groupStarted := by
  intro record hrecord heq
  rcases h record hrecord with hstatus | hstatus | hstatus <;> rw [hstatus] at heq <;> cases heq

theorem openGroup_open (hstarted : started.status = .groupStarted) (hgroup : started.group = some group)
    (h : Inner inner) : openGroup ⟨j.records ++ started :: inner⟩ =
      some ⟨group, started.members, preImagesOf (started :: inner)⟩ := by
  have hinner : ∀ record ∈ inner, decide (record.status = .groupStarted) = false := by
    intro record hrecord
    simp [h.not_started record hrecord]
  have hnone : (started :: inner).any (ends group) = false := by
    rw [any_eq_false]
    intro record hrecord
    rcases mem_cons.mp hrecord with rfl | hrecord
    · simp [ends, hstarted]
    · rcases h record hrecord with hstatus | hstatus | hstatus <;> simp [ends, hstatus]
  rw [openGroup, fromLast_append (by simp [hstarted]) hinner]
  simpa [hgroup] using hnone

/-- No group is open, and what is appended next counts. -/
structure Journal.Quiet (j : Journal) : Prop where
  openGroup : j.openGroup = none
  inForce : (j.records.foldl InForce.read ⟨[], none⟩).started = none

theorem fromLast_append_last (hlast : p last = false)
    (records : List JournalRecord) : fromLast p (records ++ [last]) = (fromLast p records).map (· ++ [last]) := by
  induction records with
  | nil => simp [fromLast, hlast]
  | cons record records ih =>
    simp only [cons_append, fromLast, ih]
    cases fromLast p records with
    | none =>
      by_cases hp : p record = true <;> simp [hp]
    | some found => rfl

variable {records : List JournalRecord}

theorem fromLast_cons {found : List JournalRecord} (h : fromLast p records = some found) :
    ∃ first rest, found = first :: rest := by
  induction records with
  | nil => cases h
  | cons record records ih =>
    unfold fromLast at h
    split at h
    · next heq =>
      cases h
      exact ih heq
    split at h
    · cases h
      exact ⟨_, _, rfl⟩
    · cases h

theorem quiet_ended (hstarted : started.status = .groupStarted) (hgroup : started.group = some group) (h : Inner inner)
    (hlast : last.status = .groupCompleted ∨ last.status = .groupRolledBack)
    (hlastGroup : last.group = some group) : Journal.Quiet ⟨j.records ++ started :: inner ++ [last]⟩ := by
  have hinner : ∀ record ∈ inner, decide (record.status = .groupStarted) = false := by
    intro record hrecord
    simp [h.not_started record hrecord]
  have hlastNot : decide (last.status = .groupStarted) = false := by
    rcases hlast with h | h <;> simp [h]
  refine ⟨?_, ?_⟩
  · rw [openGroup, fromLast_append_last hlastNot, fromLast_append (by simp [hstarted]) hinner]
    have hends : ends group last = true := by simp [ends, hlast, hlastGroup]
    simp [hgroup, hends]
  · rw [foldl_append, inForce_open hstarted h]
    rcases hlast with h | h <;> simp [InForce.read, h]

theorem Journal.Quiet.append (h : j.Quiet)
    (hstatus : record.status = .inFlight ∨ record.status = .completed ∨ record.status = .planSynced) : (j.append record).Quiet := by
  obtain ⟨hopen, hforce⟩ := h
  have hnotStarted : decide (record.status = .groupStarted) = false := by
    rcases hstatus with h | h | h <;> simp [h]
  refine ⟨?_, ?_⟩
  · rw [Journal.openGroup] at hopen ⊢
    rw [Journal.append, fromLast_append_last hnotStarted]
    cases hfound : fromLast (fun record => decide (record.status = .groupStarted)) j.records with
    | none => rfl
    | some found =>
      obtain ⟨started, rest, rfl⟩ := fromLast_cons hfound
      rw [hfound] at hopen
      cases hgroup : started.group with
      | none => simp [hgroup]
      | some group =>
        simp only [Option.bind_eq_bind, Option.bind_some, head?_cons, hgroup] at hopen
        have hends : (started :: rest).any (ends group) = true := by
          by_contra hnot
          rw [if_neg hnot] at hopen
          cases hopen
        have hends' : (started :: rest ++ [{ record with seq := j.records.length }]).any (ends group) = true := by
          rw [any_append, hends, Bool.true_or]
        simp only [Option.map_some, Option.bind_eq_bind, Option.bind_some, cons_append, head?_cons, hgroup]
        exact if_pos hends'
  · rw [Journal.append, foldl_append]
    rcases hstatus with h | h | h <;> simp [InForce.read, hforce, h]

/-- A record counts as it is appended, unless it undoes a group. -/
theorem completed_append (h : record.status ≠ .groupRolledBack) : (j.append record).completed =
      j.completed ++ if record.status = .completed then [{ record with seq := j.records.length }] else [] := by
  have hread : ∀ s : InForce, (s.read { record with seq := j.records.length }).all =
      s.all ++ [{ record with seq := j.records.length }] := by
    intro s
    obtain ⟨settled, started⟩ := s
    cases started <;> cases hstatus : record.status <;> simp_all [InForce.read, InForce.all]
  rw [completed, recordsInForce, Journal.append, foldl_append, foldl_cons, foldl_nil, hread,
    filter_append]
  congr 1
  by_cases hcompleted : record.status = .completed <;> simp [hcompleted]

theorem completed_append_other (h : record.status ≠ .groupRolledBack) (hnot : record.status ≠ .completed) :
    (j.append record).completed = j.completed := by
  rw [completed_append h, if_neg hnot, append_nil]

theorem foldl_later {best : Option JournalRecord}
    (h : records.foldl later best = some record) : best = some record ∨ record ∈ records := by
  induction records generalizing best with
  | nil => exact .inl h
  | cons r records ih =>
    rcases ih h with hlater | hmem
    · unfold later at hlater
      split at hlater
      · split at hlater
        · cases hlater
          exact .inr mem_cons_self
        · exact .inl hlater
      · cases hlater
        exact .inr mem_cons_self
    · exact .inr (mem_cons_of_mem r hmem)

theorem lastCompleted_mem (h : j.lastCompleted = some record) : record ∈ j.completed := by
  rcases foldl_later h with hnone | hmem
  · cases hnone
  · exact hmem

theorem lastCompleted_append (h : j.completed = records ++ [record])
    (hle : ∀ r ∈ records, r.op ≤ record.op) : j.lastCompleted = some record := by
  rw [Journal.lastCompleted, h, foldl_append, foldl_cons, foldl_nil]
  cases hbest : records.foldl later none with
  | none => rfl
  | some found =>
    have hfound : found ∈ records := by
      rcases foldl_later hbest with hnone | hmem
      · cases hnone
      · exact hmem
    exact if_pos (hle found hfound)

end groups

end TddyCoder.Restructure
