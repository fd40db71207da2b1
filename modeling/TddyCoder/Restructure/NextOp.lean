/-
  TddyCoder.Restructure.NextOp — which operation goes in flight
  (`packages/tddy-code-restructuring/src/runner/entry_points/store_run.rs`, `next_op` of
  `journal.rs`).

  If the loop turns to an operation where exactly those before it are completed, then whatever
  is in flight during its turn is the first operation that is not completed (`Next`,
  `keeps_turn_next`): a group that begins, the files it records and a plan that is written
  complete nothing, and a rollback puts nothing in flight.
-/

import TddyCoder.Restructure.GroupAtomic

namespace TddyCoder.Restructure

open Text
open Durable (Along Keeps)

section next

variable {S : Setting} {o : Outcomes} {d d' : Disk} {index : Nat} {α : Type} {record : JournalRecord} {m : Program α}

/-- The operation in flight is the first one that is not completed. -/
def Next (d : Disk) : Prop :=
  ∀ record, d.journal.records.getLast? = some record → record.status = .inFlight → record.op = d.journal.completed.length

theorem Next.of_journal (h : Next d) (hjournal : d'.journal = d.journal) : Next d' := by
  unfold Next
  rw [hjournal]
  exact h

theorem next_append (h : record.status = .inFlight → record.op = (d.append record).journal.completed.length) :
    Next (d.append record) := by
  intro r hr
  simp only [Disk.append, Journal.append, List.getLast?_concat, Option.some.injEq] at hr
  rw [← hr]
  exact h

theorem Next.adds (h : Next d) (hadds : Adds (fun _ => False) d d') : Next d' := by
  obtain ⟨more, hrecords, hnone⟩ := hadds
  rcases List.eq_nil_or_concat' more with rfl | ⟨init, last, rfl⟩
  · exact h.of_journal (congrArg Journal.mk (hrecords.trans (List.append_nil _)))
  · intro record hlast hstatus
    simp only [hrecords, ← List.append_assoc, List.getLast?_concat, Option.some.injEq] at hlast
    exact (hnone record (by simp [hlast]) hstatus).elim

/-- Where nothing goes in flight, whatever is in flight stays the first that is not completed. -/
theorem Next.keeps (h : Next d) (hm : Along (Adds fun _ => False) m) : Keeps m d Next fun _ => Next :=
  ⟨fun d' hd' => h.adds (hm d d' hd'), h.adds (hm.final Adds.refl d)⟩

theorem keeps_rollBackOnFailure_next {slot : Option GroupRun} {Q : α → Disk → Prop}
    (h : Keeps m d Next fun r d' => Next d' ∧ ∀ a, r = .ok a → Q a d') :
    Keeps (GroupRun.rollBackOnFailure slot m) d Next fun r d' => Next d' ∧ ∀ a, r = .ok a → Q a d' := by
  refine .bind (R := fun r d' => ∃ r', r = .ok r' ∧ Next d' ∧ ∀ a, r' = .ok a → Q a d')
    (Keeps.outcome (h.mono (fun _ h => h) fun r _ h => ⟨r, rfl, h⟩)) ?_ fun _ _ ⟨_, hr, _⟩ => nomatch hr
  rintro r d' ⟨_, ⟨rfl⟩, hnext, hQ⟩
  split
  · exact .pure ⟨hnext, hQ⟩
  · exact .fail ⟨hnext, fun _ hr => nomatch hr⟩
  · exact .fail ⟨hnext, fun _ hr => nomatch hr⟩
  · refine (hnext.keeps (along_rollBackGroup _)).bind ?_ fun _ _ h => ⟨h, fun _ hr => nomatch hr⟩
    intro _ d'' hd''
    exact .fail ⟨hd'', fun _ hr => nomatch hr⟩

def Due (index : Nat) (d : Disk) : Prop := Next d ∧ d.journal.completed.length = index

section

variable (h : Due index d)
include h

theorem Due.append (hstatus : record.status = .groupStarted ∨ record.status = .preImaged) :
    Due index (d.append record) := by
  have hcompleted : (d.journal.append record).completed = d.journal.completed := by
    rcases hstatus with h | h <;> exact completed_append_other (by simp [h]) (by simp [h])
  refine ⟨next_append fun hflying => ?_, (congrArg List.length hcompleted).trans h.2⟩
  rcases hstatus with h | h <;> rw [h] at hflying <;> cases hflying

theorem keeps_enterGroup_next (plan : Plan) (slot : Option GroupRun) (i : Nat) :
    Keeps (enterGroup plan slot i) d Next fun _ => Due index := by
  cases slot with
  | some run => exact .pure h
  | none =>
    show Keeps (GroupRun.begin plan i) _ _ _
    unfold GroupRun.begin
    split
    · exact .pure h
    · next group _ =>
      have hstarted : Due index (d.append (.groupStarted i group (plan.membersFrom group i))) := h.append (.inl rfl)
      exact .change_bind hstarted.1 (Keeps.pure hstarted)

theorem keeps_preImage_next (run : GroupRun) (i : Nat) (id : Option OpId) (edit : WorkspaceEdit) :
    Keeps (run.preImage i id edit) d Next fun _ => Due index := by
  refine keeps_look_bind (fun images _ => ?_) fun _ _ => h
  split
  · have himaged : Due index (d.append (.preImaged i id run.group images)) := h.append (.inr rfl)
    exact .change_bind himaged.1 (Keeps.pure himaged)
  · exact .pure h

theorem keeps_commitOperation_next (id : Option OpId) (edit : WorkspaceEdit) :
    Keeps (commitOperation S.hash S.apply index id edit) d Next fun _ => Next := by
  refine keeps_look_bind (fun pre _ => ?_) fun _ _ => h.1
  have hflying : Next (d.append (.inFlight index id pre)) := by
    refine next_append fun _ => ?_
    have hcompleted : (d.journal.append (.inFlight index id pre)).completed = d.journal.completed :=
      completed_append_other nofun nofun
    exact ((congrArg List.length hcompleted).trans h.2).symm
  refine .change_bind hflying ((hflying.keeps (along_onTree _)).bind ?_ fun _ _ h => h)
  intro _ d' hd'
  refine keeps_look_bind (fun post _ => ?_) fun _ _ => hd'
  exact hd'.keeps (along_bind (along_append fun h => nomatch h) fun _ => Along.change fun d => @Adds.refl (fun _ => False) d)

theorem keeps_commitMember_next (slot : Option GroupRun) (id : Option OpId) (edit : WorkspaceEdit) :
    Keeps (commitMember S slot index id edit) d Next fun _ => Next := by
  cases slot with
  | none =>
    refine (keeps_commitOperation_next h id edit).bind ?_ fun _ _ h => h
    exact fun _ _ h => .pure h
  | some run =>
    refine (keeps_preImage_next h run index id edit).bind ?_ fun _ _ h => h.1
    intro run' d' hd'
    refine (keeps_commitOperation_next hd' id edit).bind ?_ fun _ _ h => h
    exact fun _ _ h => .pure h

theorem keeps_turn_next (plan : Plan) (legacy : Bool) (slot : Option GroupRun) :
    Keeps (turn S o plan legacy slot index) d Next fun _ => Next := by
  have hresolve : Keeps (resolveOp o index) d Next fun r d' => Next d' ∧ ∀ edit, r = .ok edit → Due index d' :=
    (keeps_resolveOp o index d Next).mono (fun _ h => h) fun _ _ hd' => ⟨hd'.1 ▸ h.1, fun _ _ => hd'.1 ▸ h⟩
  refine (keeps_rollBackOnFailure_next hresolve).bind ?_ fun _ _ h => h.1
  rintro edit d' ⟨-, hd'⟩
  refine (keeps_enterGroup_next (hd' edit rfl) plan slot index).bind ?_ fun _ _ h => h.1
  intro slot d' hd'
  have hcommit : Keeps (commitMember S slot index (if legacy then none else plan.ops[index]?.map (·.id)) edit) d' Next
      fun r d' => Next d' ∧ ∀ slot, r = .ok slot → True :=
    (keeps_commitMember_next hd' slot _ edit).mono (fun _ h => h) fun _ _ h => ⟨h, fun _ _ => trivial⟩
  refine (keeps_rollBackOnFailure_next hcommit).bind ?_ fun _ _ h => h.1
  rintro slot d' ⟨hd', -⟩
  refine (hd'.keeps (along_settle slot index edit)).bind ?_ fun _ _ h => h
  rintro ⟨slot, settled⟩ d' hd'
  refine (hd'.keeps (along_recordSettled legacy settled)).bind ?_ fun _ _ h => h
  exact fun _ _ h => .pure h

end

end next

end TddyCoder.Restructure
