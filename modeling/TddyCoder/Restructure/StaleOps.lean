/-
  TddyCoder.Restructure.StaleOps — which operations a run is refused for, and which it gets to
  (`refuse_a_stale_pending_op`, `stop_limit_reached` and the loop of `apply_held_plan` in
  `packages/tddy-code-restructuring/src/runner/entry_points/store_run.rs`).

  The refusal looks at a window computed from the journal as it is found and from the limit. The
  loop goes by another one (`Reaches`): a group that was left open is undone first, so its members
  are pending again, and a group the limit cuts is run to its end.

  Proved: `an_accepted_run_commits_no_stale_operation_iff`; `a_stale_member_is_committed` by one
  that was accepted.
-/

import Mathlib.Data.List.TakeWhile
import TddyCoder.Restructure.GroupAtomic

namespace TddyCoder.Restructure

open Text List
open Durable (Along Keeps Succeeds result_bind_eq_ok)

def refuseAStalePendingOp (stale : List OpId) (options : Options) (d : Disk) : Except RunError Unit :=
  if stale.isEmpty then .ok ()
  else do
    let start ← startOf d.plan options d.journal
    let pending := match options.stopAfter with
      | none => d.plan.ops.drop start
      | some limit => (d.plan.ops.drop start).take limit
    match pending.find? (·.id ∈ stale) with
    | some op => .error (.staleOperation op.id)
    | none => .ok ()

def Plan.IsStale (plan : Plan) (stale : List OpId) (index : Nat) : Prop := ∃ op, plan.ops[index]? = some op ∧ op.id ∈ stale

/-- The journal as a run that continues it goes on from. -/
def Journal.undone (j : Journal) : Journal :=
  match j.openGroup with
  | none => j
  | some open_ =>
    match (j.groupRecords open_.group).getLast? with
    | some reached => j.append (.groupRolledBack reached.op open_.group)
    | none => j

/-! ## The loop's window -/

/-- In a loop from `start` on the group of the operation before is still open. -/
def Plan.InsideGroup (plan : Plan) (start index : Nat) : Prop :=
  start < index ∧ ∃ group, plan.groupAt (index - 1) = some group ∧ plan.groupAt index = some group

/-- The limit is not spent before the operation's turn, other than inside a group. -/
def Reaches (plan : Plan) (options : Options) (start index : Nat) : Prop :=
  start ≤ index ∧ index < plan.ops.length ∧
    ∀ j, start ≤ j → j ≤ index → stopLimitReached options start j = true → plan.InsideGroup start j

variable {start : Nat} {run : GroupRun}

section members

variable {plan : Plan} {group : String} {first index : Nat}

theorem groupAt_of_mem (h : index ∈ plan.membersFrom group first) : plan.groupAt index = some group := by
  obtain ⟨⟨op, i⟩, hop, rfl⟩ := mem_map.mp h
  have hgroup : op.group = some group := by simpa using mem_takeWhile_imp hop
  have hmem : (op, i) ∈ plan.ops.zipIdx := mem_of_mem_drop ((takeWhile_subset _) hop)
  rw [mk_mem_zipIdx_iff_getElem?] at hmem
  simp [Plan.groupAt, hmem, hgroup]

theorem groupAt_after_last (hgroup : plan.groupAt first = some group) :
    plan.groupAt ((plan.membersFrom group first).getLastD first + 1) ≠ some group := by
  let rest := plan.ops.zipIdx.drop first
  let belongs : RefactorOp × Nat → Bool := fun op => op.1.group = some group
  intro hafter
  have hmembers : plan.membersFrom group first = (rest.takeWhile belongs).map (·.2) := rfl
  obtain ⟨n, hn⟩ := membersFrom_eq plan group first
  have hlength : (rest.takeWhile belongs).length = n := by
    have hlength := congrArg List.length (hmembers.symm.trans hn)
    simpa using hlength
  have hpos : n ≠ 0 := by
    rintro rfl
    have hmem := mem_membersFrom hgroup (Nat.le_refl first) (le_lastMember plan group first)
    rw [hn] at hmem
    cases hmem
  rw [hn, getLastD_eq_getLast?, getLast?_range', if_neg hpos, Option.getD_some] at hafter
  obtain ⟨op, hop, hopGroup⟩ := Option.bind_eq_some_iff.mp hafter
  have hnext : rest[n]? = some (op, first + n) := by
    rw [show first + n - 1 + 1 = first + n by omega] at hop
    rw [getElem?_drop, getElem?_zipIdx, hop]
    simp
  have hhead : (rest.dropWhile belongs)[0]? = some (op, first + n) := by
    rw [← takeWhile_append_dropWhile (p := belongs) (l := rest), getElem?_append_right (by omega), hlength,
      Nat.sub_self] at hnext
    exact hnext
  obtain ⟨hne, hget⟩ := List.getElem?_eq_some_iff.mp hhead
  have hnot := dropWhile_get_zero_not belongs rest hne
  rw [get_eq_getElem, hget] at hnot
  exact hnot (by simpa [belongs] using hopGroup)

def SlotAt (plan : Plan) (start index : Nat) : Option GroupRun → Prop
  | none => ¬ plan.InsideGroup start index
  | some run => ∃ first group, start ≤ first ∧ first < index ∧ plan.groupAt first = some group ∧
      run.last = (plan.membersFrom group first).getLastD first ∧ index ≤ run.last

theorem SlotAt.inside (h : SlotAt plan start index (some run)) : plan.InsideGroup start index := by
  obtain ⟨first, group, hstart, hfirst, hgroup, hlast, hindex⟩ := h
  rw [hlast] at hindex
  have hbefore := groupAt_of_mem (mem_membersFrom hgroup (show first ≤ index - 1 by omega) (by omega))
  have hhere := groupAt_of_mem (mem_membersFrom hgroup (show first ≤ index by omega) hindex)
  exact ⟨by omega, group, hbefore, hhere⟩

def SlotIn (plan : Plan) (start index : Nat) : Option GroupRun → Prop
  | none => plan.groupAt index = none
  | some run => ∃ first group, start ≤ first ∧ first ≤ index ∧ plan.groupAt first = some group ∧
      run.last = (plan.membersFrom group first).getLastD first ∧ index ≤ run.last

theorem SlotIn.ended (h : SlotIn plan start index (some run)) (hlast : run.last = index) :
    SlotAt plan start (index + 1) none := by
  obtain ⟨first, group, -, hfirst, hgroup, hrun, hindex⟩ := h
  rintro ⟨-, group', hhere, hafter⟩
  have hmember := groupAt_of_mem (mem_membersFrom hgroup hfirst (by omega))
  obtain rfl : group = group' := Option.some.inj (hmember.symm.trans hhere)
  rw [show index = (plan.membersFrom group first).getLastD first by omega] at hafter
  exact groupAt_after_last hgroup hafter

theorem SlotIn.alone (h : SlotIn plan start index none) : SlotAt plan start (index + 1) none := by
  rintro ⟨-, group, hhere, -⟩
  cases (show plan.groupAt index = none from h).symm.trans hhere

end members

/-! ## The turns -/

variable {opened : Opened} {options : Options}

section turns

variable {S : Setting} {o : Outcomes} {plan : Plan} {start index : Nat} {slot : Option GroupRun} {d : Disk} {α : Type}

theorem rollBackOnFailure_eq_ok {m : Program α} {a : α} (h : ((GroupRun.rollBackOnFailure slot m).run d).result = .ok a) :
    (m.run d).result = .ok a := by
  obtain ⟨r, hr, hrest⟩ := result_bind_eq_ok.mp h
  cases hr
  split at hrest
  · next heq =>
    cases hrest
    exact heq
  · cases hrest
  · cases hrest
  · obtain ⟨_, -, hfail⟩ := result_bind_eq_ok.mp hrest
    cases hfail

variable {slot' : Option GroupRun}

theorem enterGroup_slot (h : SlotAt plan start index slot) (hstart : start ≤ index)
    (hok : ((enterGroup plan slot index).run d).result = .ok slot') : SlotIn plan start index slot' := by
  cases slot with
  | some run =>
    cases hok
    obtain ⟨first, group, hfirst⟩ := h
    exact ⟨first, group, hfirst.1, by omega, hfirst.2.2⟩
  | none =>
    change ((GroupRun.begin plan index).run d).result = .ok slot' at hok
    unfold GroupRun.begin at hok
    split at hok
    · next hgroup =>
      cases hok
      exact hgroup
    · next group hgroup =>
      cases hok
      exact ⟨index, group, hstart, Nat.le_refl index, hgroup, rfl, le_lastMember plan group index⟩

variable {edit : WorkspaceEdit}

theorem commitMember_slot (h : SlotIn plan start index slot) {id : Option OpId}
    (hok : ((commitMember S slot index id edit).run d).result = .ok slot') : SlotIn plan start index slot' := by
  cases slot with
  | none =>
    obtain ⟨_, -, hpure⟩ := result_bind_eq_ok.mp hok
    cases hpure
    exact h
  | some run =>
    obtain ⟨run', hrun', hrest⟩ := result_bind_eq_ok.mp hok
    obtain ⟨_, -, hpure⟩ := result_bind_eq_ok.mp hrest
    cases hpure
    obtain ⟨images, -, hrest⟩ := result_bind_eq_ok.mp hrun'
    split at hrest
    · obtain ⟨_, -, hpure⟩ := result_bind_eq_ok.mp hrest
      cases hpure
      exact h
    · cases hrest
      exact h

theorem settle_slot (h : SlotIn plan start index slot) {settled : Option GroupRun × Settled}
    (hok : ((settle o.gate slot index edit).run d).result = .ok settled) : SlotAt plan start (index + 1) settled.1 := by
  cases slot with
  | none =>
    cases hok
    exact h.alone
  | some run =>
    change ((if _ then _ else _ : Program _).run d).result = _ at hok
    split at hok
    · next hlast =>
      obtain ⟨_, -, hpure⟩ := result_bind_eq_ok.mp hok
      cases hpure
      exact h.ended hlast
    · next hlast =>
      cases hok
      obtain ⟨first, group, hstart, hfirst, hgroup, hrun, hindex⟩ := h
      have hne : run.last ≠ index := hlast
      exact ⟨first, group, hstart, by omega, hgroup, hrun, show index + 1 ≤ run.last by omega⟩

theorem turn_slot {legacy : Bool} (h : SlotAt plan start index slot) (hstart : start ≤ index)
    (hok : ((turn S o plan legacy slot index).run d).result = .ok slot') : SlotAt plan start (index + 1) slot' := by
  obtain ⟨edit, -, hok⟩ := result_bind_eq_ok.mp hok
  obtain ⟨slot₁, henter, hok⟩ := result_bind_eq_ok.mp hok
  obtain ⟨slot₂, hcommit, hok⟩ := result_bind_eq_ok.mp hok
  obtain ⟨settled, hsettle, hok⟩ := result_bind_eq_ok.mp hok
  obtain ⟨_, -, hpure⟩ := result_bind_eq_ok.mp hok
  cases hpure
  exact settle_slot (commitMember_slot (enterGroup_slot h hstart henter) (rollBackOnFailure_eq_ok hcommit)) hsettle

theorem keeps_applyOps_reaches {before : Disk} (n : Nat)
    (h : SlotAt plan opened.start index slot) (hstart : opened.start ≤ index) (hindex : n ≤ plan.ops.length - index)
    (hpast : ∀ j, opened.start ≤ j → j < index → stopLimitReached options opened.start j = true →
      plan.InsideGroup opened.start j) (hd : Adds (Reaches plan options opened.start) before d) :
    Keeps (applyOps S o plan options opened slot (List.range' index n)) d (Adds (Reaches plan options opened.start) before)
      fun _ => Adds (Reaches plan options opened.start) before := by
  induction n generalizing slot index d with
  | zero => exact .pure hd
  | succ n ih =>
    show Keeps (if _ then _ else _) _ _ _
    split
    · exact .pure hd
    · next hgoes =>
      have hinside : ∀ j, opened.start ≤ j → j ≤ index → stopLimitReached options opened.start j = true →
          plan.InsideGroup opened.start j := by
        intro j hj hle hstop
        rcases Nat.lt_or_eq_of_le hle with hlt | rfl
        · exact hpast j hj hlt hstop
        · cases slot with
          | some run => exact h.inside
          | none => exact absurd (by simpa using hstop) hgoes
      have hreaches : Reaches plan options opened.start index := ⟨hstart, by omega, hinside⟩
      have hturn : Keeps (turn S o plan opened.legacy slot index) d (Adds (Reaches plan options opened.start) before)
          fun r d' => Adds (Reaches plan options opened.start) before d' ∧
            ∀ slot', r = .ok slot' → SlotAt plan opened.start (index + 1) slot' := by
        have halong : Along (Adds (Reaches plan options opened.start)) (turn S o plan opened.legacy slot index) :=
          along_turn plan opened.legacy slot hreaches
        exact ⟨fun d' hd' => hd.trans (halong d d' hd'), hd.trans (halong.final Adds.refl d), fun _ hr => turn_slot h hstart hr⟩
      refine hturn.bind ?_ fun _ _ h => h.1
      intro slot' d' ⟨hd', hslot'⟩
      refine (ih (hslot' slot' rfl) (by omega) (by omega) ?_ hd').bind (fun _ _ h => .pure h) fun _ _ h => h
      intro j hj hlt
      exact hinside j hj (by omega)

end turns

/-! ## Where everything goes well -/

def Flown (index : Nat) (d d' : Disk) : Prop :=
  ∃ more, d'.journal.records = d.journal.records ++ more ∧ ∃ record ∈ more, record.status = .inFlight ∧ record.op = index

section flown

variable {index : Nat} {d d' d'' : Disk} {ops : Nat → Prop}

theorem Flown.among (h : Flown index d d') (hadds : Adds ops d d') : ops index := by
  obtain ⟨more, hrecords, record, hrecord, hstatus, rfl⟩ := h
  obtain ⟨more', hrecords', hops⟩ := hadds
  obtain rfl : more = more' := append_cancel_left (hrecords.symm.trans hrecords')
  exact hops record hrecord hstatus

theorem Flown.after (h : Flown index d' d'') (hadds : Adds ops d d') : Flown index d d'' := by
  obtain ⟨more, hrecords, record, hrecord, hflown⟩ := h
  obtain ⟨more', hrecords', -⟩ := hadds
  exact ⟨more' ++ more, by rw [hrecords, hrecords', append_assoc], record, mem_append_right more' hrecord, hflown⟩

theorem Flown.before (h : Flown index d d') (hadds : Adds ops d' d'') : Flown index d d'' := hadds.recorded h

end flown

def agreeable : Outcomes where
  worktree := .ok ()
  snapshot _ _ := .ok ()
  lower _ _ _ := .ok ()
  baseline _ := .ok ()
  resolve _ _ := .ok ⟨[]⟩
  preflight _ _ _ := .ok ()
  gate _ _ := .ok ()
  refresh plan _ _ _ := .ok plan
  others _ _ := .ok ()
  check _ := .ok ()
  tidy _ := []

section agreeable

variable {hash : List Char → String} {digest : List (OpId × Anchor × List Anchor) → String} {git : Git} {plan : Plan}
  {index : Nat} {slot : Option GroupRun} {d : Disk} {α : Type} {m : Program α} {Q : α → Disk → Prop}

theorem succeeds_adds (halong : Along (Adds fun _ => True) m)
    (h : Succeeds m d Q) : Succeeds m d fun a d' => Q a d' ∧ Adds (fun _ => True) d d' := by
  obtain ⟨a, ha, hQ⟩ := h
  exact ⟨a, ha, hQ, halong.final Adds.refl d⟩

theorem rollBackOnFailure_succeeds (h : Succeeds m d Q) :
    Succeeds (GroupRun.rollBackOnFailure slot m) d Q := by
  obtain ⟨a, ha, hQ⟩ := h
  refine .bind (Q := fun r d' => r = .ok a ∧ d' = m.final d) ⟨_, rfl, ha, rfl⟩ ?_
  intro r d' ⟨hr, hd'⟩
  rw [hr, hd']
  exact .pure hQ

theorem commitOperation_succeeds (index : Nat) (id : Option OpId) (d : Disk) :
    Succeeds (commitOperation (byParts hash digest git).hash (byParts hash digest git).apply index id ⟨[]⟩) d
      fun _ d' => d'.plan = d.plan ∧ Flown index d d' := by
  refine ⟨(), rfl, rfl, _, append_assoc _ _ _, _, mem_append_left _ (mem_singleton_self _), rfl, rfl⟩

/-- The members the loop has applied are operations of the plan. -/
def InPlan (plan : Plan) (slot : Option GroupRun) : Prop := ∀ run, slot = some run → ∀ op ∈ run.applied, op.1 < plan.ops.length

theorem enterGroup_succeeds (h : InPlan plan slot) (index : Nat) (d : Disk) :
    Succeeds (enterGroup plan slot index) d fun slot' d' => InPlan plan slot' ∧ d'.plan = d.plan := by
  cases slot with
  | some run => exact .pure ⟨h, rfl⟩
  | none =>
    show Succeeds (GroupRun.begin plan index) _ _
    unfold GroupRun.begin
    split
    · exact .pure ⟨h, rfl⟩
    · refine ⟨_, rfl, ?_, rfl⟩
      rintro _ ⟨rfl⟩ op hop
      cases hop

theorem commitMember_succeeds (h : InPlan plan slot) (index : Nat) (id : Option OpId) (d : Disk) :
    Succeeds (commitMember (byParts hash digest git) slot index id ⟨[]⟩) d
      fun slot' d' => InPlan plan slot' ∧ d'.plan = d.plan ∧ Flown index d d' := by
  cases slot with
  | none => exact (commitOperation_succeeds index id d).bind fun _ _ hd' => .pure ⟨h, hd'⟩
  | some run =>
    have himage : Succeeds (run.preImage index id ⟨[]⟩) d fun run' d' => run'.applied = run.applied ∧ d' = d :=
      ⟨_, rfl, rfl, rfl⟩
    refine himage.bind fun run' d' ⟨happlied, hd'⟩ => ?_
    rw [hd']
    refine (commitOperation_succeeds index id d).bind fun _ _ hd'' => .pure ⟨?_, hd''⟩
    rintro _ ⟨rfl⟩
    rw [happlied]
    exact h run rfl

theorem settle_succeeds (h : InPlan plan slot) (hindex : index < plan.ops.length) (edit : WorkspaceEdit) (d : Disk) :
    Succeeds (settle agreeable.gate slot index edit) d
      fun settled d' => InPlan plan settled.1 ∧ (∀ ops, settled.2 = .ready ops → ∀ op ∈ ops, op.1 < plan.ops.length) ∧
        d'.plan = d.plan := by
  have hlast : ∀ op ∈ [(index, edit)], op.1 < plan.ops.length := forall_mem_singleton.mpr hindex
  cases slot with
  | none =>
    refine .pure ⟨h, ?_, rfl⟩
    rintro _ ⟨rfl⟩
    exact hlast
  | some run =>
    have happlied : ∀ op ∈ run.applied ++ [(index, edit)], op.1 < plan.ops.length :=
      forall_mem_append.mpr ⟨h run rfl, hlast⟩
    show Succeeds (if _ then _ else _) _ _
    split
    · refine ⟨_, rfl, ?_, ?_, rfl⟩
      · rintro _ ⟨⟩
      · rintro _ ⟨rfl⟩
        exact happlied
    refine .pure ⟨?_, ?_, rfl⟩
    · rintro _ ⟨rfl⟩
      exact happlied
    · rintro _ ⟨⟩

theorem recordSettled_succeeds {S : Setting} {settled : Settled}
    (h : ∀ ops, settled = .ready ops → ∀ op ∈ ops, op.1 < d.plan.ops.length) (legacy : Bool) :
    Succeeds (recordSettled S agreeable legacy settled) d fun _ d' => d'.plan = d.plan := by
  cases settled with
  | pending => exact .pure rfl
  | ready ops =>
    show Succeeds (if legacy then _ else _) _ _
    split
    · exact .pure rfl
    have hstep : ∀ op ∈ ops, ∀ d' : Disk, d'.plan = d.plan →
        Succeeds (recordAppliedOp S agreeable op.1 op.2) d' fun _ d'' => d''.plan = d.plan := by
      intro op hop d' hd'
      have hlt : op.1 < d'.plan.ops.length := by
        rw [hd']
        exact h ops rfl op hop
      refine .bind (Q := fun _ d'' => d''.plan = d.plan) ⟨d'.plan.ops[op.1].id, ?_, hd'⟩ fun id d'' hd'' => ?_
      · simp [Durable.ask, hlt]
      · exact ⟨_, rfl, hd''⟩
    exact .inTurn hstep rfl

theorem turn_succeeds (h : InPlan plan slot) (hindex : index < plan.ops.length) (legacy : Bool) (hplan : d.plan = plan) :
    Succeeds (turn (byParts hash digest git) agreeable plan legacy slot index) d
      fun slot' d' => InPlan plan slot' ∧ d'.plan = plan ∧ Flown index d d' := by
  have hresolve : Succeeds (resolveOp agreeable index) d fun edit d' => edit = ⟨[]⟩ ∧ d' = d := ⟨_, rfl, rfl, rfl⟩
  refine (rollBackOnFailure_succeeds hresolve).bind fun edit d' ⟨hedit, hd'⟩ => ?_
  rw [hedit, hd']
  refine (succeeds_adds (along_enterGroup plan slot index) (enterGroup_succeeds h index d)).bind
    fun slot₁ d₁ ⟨⟨hslot₁, hplan₁⟩, hadds₁⟩ => ?_
  refine (rollBackOnFailure_succeeds (commitMember_succeeds hslot₁ index _ d₁)).bind fun slot₂ d₂ ⟨hslot₂, hplan₂, hflown⟩ => ?_
  refine (succeeds_adds (along_settle slot₂ index _) (settle_succeeds hslot₂ hindex ⟨[]⟩ d₂)).bind
    fun settled d₃ ⟨⟨hslot₃, hops, hplan₃⟩, hadds₃⟩ => ?_
  have hplan₃' : d₃.plan = plan := by rw [hplan₃, hplan₂, hplan₁, hplan]
  refine (succeeds_adds (along_recordSettled legacy settled.2) (recordSettled_succeeds ?_ legacy)).bind fun _ d₄ ⟨hplan₄, hadds₄⟩ => ?_
  · rw [hplan₃']
    exact hops
  exact .pure ⟨hslot₃, hplan₄.trans hplan₃', ((hflown.after hadds₁).before hadds₃).before hadds₄⟩

theorem applyOps_succeeds (n : Nat) (h : InPlan plan slot)
    (hslot : SlotAt plan opened.start index slot) (hstart : opened.start ≤ index) (hindex : n ≤ plan.ops.length - index)
    (hplan : d.plan = plan) :
    Succeeds (applyOps (byParts hash digest git) agreeable plan options opened slot (List.range' index n)) d
      fun _ d' => ∀ i, index ≤ i → i < index + n → Reaches plan options opened.start i → Flown i d d' := by
  induction n generalizing slot index d with
  | zero => exact .pure fun i hi hlt _ => absurd hlt (by omega)
  | succ n ih =>
    show Succeeds (if _ then _ else _) _ _
    split
    · next hstop =>
      -- The loop ends before `index`, so nothing from there on is in its window.
      rw [Bool.and_eq_true] at hstop
      refine .pure fun i hi _ hreaches => ?_
      have hinside := hreaches.2.2 index hstart hi hstop.2
      cases slot with
      | some run => cases hstop.1
      | none => exact absurd hinside hslot
    · have hturn : Succeeds (turn (byParts hash digest git) agreeable plan opened.legacy slot index) d
          fun slot' d' => ((InPlan plan slot' ∧ d'.plan = plan ∧ Flown index d d') ∧ Adds (fun _ => True) d d') ∧
            SlotAt plan opened.start (index + 1) slot' := by
        obtain ⟨slot', hresult, hturned⟩ := succeeds_adds (along_turn plan opened.legacy slot trivial)
          (turn_succeeds h (show index < plan.ops.length by omega) opened.legacy hplan)
        exact ⟨slot', hresult, hturned, turn_slot hslot hstart hresult⟩
      refine hturn.bind fun slot' d' ⟨⟨⟨hslot', hplan', hflown⟩, hadds⟩, hslotAt⟩ => ?_
      have hrest := succeeds_adds (along_applyOps fun _ _ => trivial) (ih hslot' hslotAt (by omega) (by omega) hplan')
      refine hrest.bind fun _ d'' ⟨hall, hadds'⟩ => .pure fun i hi hlt hreaches => ?_
      rcases Nat.lt_or_eq_of_le hi with hi | rfl
      · exact (hall i (by omega) (by omega) hreaches).after hadds
      · exact hflown.before hadds'

end agreeable

/-! ## Opening -/

section opening

variable {S : Setting} {o : Outcomes} {options : Options} {d : Disk}

theorem rollBackGroup_journal {group : String} (hok : ((rollBackGroup group).run d).result = .ok ()) :
    ((rollBackGroup group).final d).plan = d.plan ∧ ∃ reached, (d.journal.groupRecords group).getLast? = some reached ∧
      ((rollBackGroup group).final d).journal = d.journal.append (.groupRolledBack reached.op group) := by
  have hkeeps : Keeps (rollBackGroup group) d (fun _ => True)
      fun r d' => r = .ok () → d'.plan = d.plan ∧ ∃ reached, (d.journal.groupRecords group).getLast? = some reached ∧
        d'.journal = d.journal.append (.groupRolledBack reached.op group) := by
    refine .of_run (Durable.ask_bind_ok _ rfl) ?_
    split
    · next started reached _ hreached =>
      have hrestore : Keeps (Durable.inTurn (fun image : PreImage => onTree image.restore)
          (d.journal.groupPreImages group).reverse) d (fun d' => d'.journal = d.journal ∧ d'.plan = d.plan)
          fun _ d' => d'.journal = d.journal ∧ d'.plan = d.plan := by
        refine .inTurn (fun image _ d' hd' => ?_) ⟨rfl, rfl⟩
        refine ⟨?_, ?_⟩
        · intro d'' hd''
          obtain ⟨t, -, rfl⟩ := mem_map.mp hd''
          exact hd'
        · rw [final_onTree]
          exact hd'
      refine (hrestore.mono (fun _ _ => trivial) fun _ _ h => h).bind ?_ fun _ _ _ hr => nomatch hr
      intro _ d' ⟨hjournal, hplan⟩
      refine ⟨fun _ _ => trivial, fun _ => ⟨hplan, reached, hreached, ?_⟩⟩
      rw [← hjournal]
      rfl
    · exact .fail fun hr => nomatch hr
  exact hkeeps.ends hok

theorem rollBackAnOpenGroup_journal (hok : (rollBackAnOpenGroup.run d).result = .ok ()) :
    (rollBackAnOpenGroup.final d).plan = d.plan ∧ (rollBackAnOpenGroup.final d).journal = d.journal.undone := by
  unfold Journal.undone
  cases hopen : d.journal.openGroup with
  | none =>
    rw [Durable.final, rollBackAnOpenGroup_quiet hopen]
    exact ⟨rfl, rfl⟩
  | some found =>
    rw [run_rollBackAnOpenGroup, hopen] at hok
    rw [Durable.final, run_rollBackAnOpenGroup, hopen]
    obtain ⟨hplan, reached, hreached, hjournal⟩ := rollBackGroup_journal hok
    simp only [hreached]
    exact ⟨hplan, hjournal⟩

/-- The run is not refused as it opens. -/
def Opens (S : Setting) (options : Options) (d : Disk) : Prop :=
  ∃ opened, ((openPlanRun S agreeable options).run d).result = .ok opened

theorem approach_eq_ok (hok : ((approach o options).run d).result = .ok ()) :
    (approach agreeable options).run d = (approach o options).run d ∧ ((approach o options).final d).plan = d.plan ∧
      ((approach o options).final d).journal = d.journal.undone := by
  unfold approach at hok ⊢
  split
  · next hcontinues =>
    rw [if_pos hcontinues] at hok
    exact ⟨rfl, rollBackAnOpenGroup_journal hok⟩
  · next hfresh =>
    rw [if_neg hfresh] at hok
    simp only [Durable.ask] at hok
    split at hok
    · next hempty =>
      have hundone : d.journal = d.journal.undone := by
        obtain ⟨tree, ⟨records⟩, ledger, plan⟩ := d
        obtain rfl : records = [] := by simpa using hempty
        rfl
      refine ⟨?_, rfl, hundone⟩
      simp only [Durable.ask, hempty, if_true, hok]
      rfl
    · cases hok

/-- Where a run opens, whatever it was told, it can open, and starts from the journal undone. -/
theorem openPlanRun_eq_ok (hok : ((openPlanRun S o options).run d).result = .ok opened) :
    Opens S options d ∧ ((openPlanRun S o options).final d).plan = d.plan ∧
      startOf d.plan options d.journal.undone = .ok opened.start := by
  obtain ⟨_, hworktree, hok'⟩ := result_bind_eq_ok.mp hok
  obtain ⟨_, happroach, hvet⟩ := result_bind_eq_ok.mp hok'
  have happroach' : ((approach o options).run d).result = .ok () := happroach
  obtain ⟨hsame, hplan, hjournal⟩ := approach_eq_ok happroach'
  have hfinal : (approach agreeable options).final d = (approach o options).final d := by
    rw [Durable.final, hsame]
    rfl
  have hvet' : vetRun S o options ((approach o options).final d) = .ok opened := hvet
  obtain ⟨hvouched, hstart, -, -, hdecided, hverified, hlegacy⟩ := (vetRun_eq_ok S).mp hvet'
  refine ⟨⟨opened, ?_⟩, ?_, ?_⟩
  · refine result_bind_eq_ok.mpr ⟨(), rfl, result_bind_eq_ok.mpr ⟨(), (congrArg Ran.result hsame).trans happroach', ?_⟩⟩
    show vetRun S agreeable options ((approach agreeable options).final d) = .ok opened
    rw [hfinal]
    refine (vetRun_eq_ok S).mpr ⟨hvouched, hstart, rfl, ?_, hdecided, hverified, hlegacy⟩
    unfold refuseABrokenBaseline
    split <;> rfl
  · rw [openPlanRun, Durable.final_bind_ok hworktree, Durable.final_bind_ok happroach]
    exact hplan
  · rw [hjournal, hplan] at hstart
    exact hstart

theorem along_openPlanRun : Along (Adds fun _ => False) (openPlanRun S o options) := by
  refine along_bind Along.ask fun _ => along_bind ?_ fun _ => Along.ask
  unfold approach
  split
  · exact along_rollBackAnOpenGroup
  · exact .ask

end opening

/-! ## Stale operations -/

section stale

variable {S : Setting} {o : Outcomes} {options : Options} {d : Disk} {i : Nat}

/-- The run passes a state in which the operation has gone in flight. -/
def Commits (run : Program Nat) (d : Disk) (index : Nat) : Prop := ∃ d' ∈ (run.run d).passed, Flown index d d'

theorem along_refuseABrokenResult {ops : Nat → Prop} (applied total : Nat) :
    Along (Adds ops) (refuseABrokenResult o applied total) := by
  unfold refuseABrokenResult
  split
  · exact .pure
  refine along_bind Along.ask fun _ => ?_
  split
  · exact along_bind Along.ask fun _ => Along.inTurn Adds.refl Adds.trans fun _ _ => along_onTree _
  · exact .pure

theorem Commits.reaches (h : Commits (applyHeldPlan S o options) d i) :
    Opens S options d ∧ ∃ start, startOf d.plan options d.journal.undone = .ok start ∧ Reaches d.plan options start i := by
  obtain ⟨d', hd', hflown⟩ := h
  cases hresult : ((openPlanRun S o options).run d).result with
  | error e =>
    change d' ∈ (((openPlanRun S o options) >>= _).run d).passed at hd'
    rw [Durable.bind_error hresult] at hd'
    exact (hflown.among (along_openPlanRun d d' hd')).elim
  | ok opened =>
    obtain ⟨hopens, hplan, hstart⟩ := openPlanRun_eq_ok hresult
    let reaches := Reaches d.plan options opened.start
    have hopened : Keeps (openPlanRun S o options) d (Adds reaches d)
        fun r d' => r = .ok opened ∧ d'.plan = d.plan ∧ Adds reaches d d' :=
      ⟨fun d' hd' => (along_openPlanRun d d' hd').mono fun _ h => h.elim, hresult, hplan,
        (along_openPlanRun.final Adds.refl d).mono fun _ h => h.elim⟩
    have hkeeps : Keeps (applyHeldPlan S o options) d (Adds reaches d) fun _ _ => True := by
      refine hopened.bind ?_ fun _ _ _ => trivial
      rintro _ d₁ ⟨⟨rfl⟩, hplan₁, hadds₁⟩
      refine .of_run (Durable.ask_bind_ok _ rfl) ?_
      have hloop : Keeps (applyOps S o d₁.plan options opened none ((List.range d₁.plan.ops.length).drop opened.start)) d₁
          (Adds reaches d) fun _ => Adds reaches d := by
        rw [hplan₁, range_eq_range', drop_range', Nat.zero_add, Nat.mul_one]
        refine keeps_applyOps_reaches _ ?_ (Nat.le_refl _) (Nat.le_refl _) ?_ hadds₁
        · rintro ⟨hlt, -⟩
          exact Nat.lt_irrefl _ hlt
        · intro j hj hlt
          omega
      refine hloop.bind ?_ fun _ _ _ => trivial
      intro applied d₂ hadds₂
      have halong : Along (Adds reaches)
          (refuseABrokenResult o applied d₁.plan.ops.length >>= fun _ => (pure applied : Program Nat)) :=
        along_bind (along_refuseABrokenResult _ _) fun _ => .pure
      exact ⟨fun d₃ hd₃ => hadds₂.trans (halong d₂ d₃ hd₃), trivial⟩
    exact ⟨hopens, opened.start, hstart, hflown.among (hkeeps.passes d' hd')⟩

/-- Where everything outside of it goes well, a run commits all of its window. -/
theorem commits_of_reaches {hash : List Char → String} {digest : List (OpId × Anchor × List Anchor) → String} {git : Git}
    (hopens : Opens (byParts hash digest git) options d)
    (hstart : startOf d.plan options d.journal.undone = .ok start) (hreaches : Reaches d.plan options start i) :
    Commits (applyHeldPlan (byParts hash digest git) agreeable options) d i := by
  obtain ⟨opened, hresult⟩ := hopens
  obtain ⟨-, hplan, hstart'⟩ := openPlanRun_eq_ok hresult
  obtain rfl : start = opened.start := Except.ok.inj (hstart.symm.trans hstart')
  have hopened : Succeeds (openPlanRun (byParts hash digest git) agreeable options) d
      fun opened' d' => opened' = opened ∧ d'.plan = d.plan ∧ Adds (fun _ => False) d d' :=
    ⟨opened, hresult, rfl, hplan, along_openPlanRun.final Adds.refl d⟩
  have hsucceeds : Succeeds (applyHeldPlan (byParts hash digest git) agreeable options) d fun _ d' => Flown i d d' := by
    refine hopened.bind fun opened' d₁ ⟨hopened', hplan₁, hadds₁⟩ => ?_
    rw [hopened']
    refine .bind (Q := fun plan d' => plan = d.plan ∧ d' = d₁) ⟨_, rfl, hplan₁, rfl⟩ fun plan d' ⟨hplan', hd'⟩ => ?_
    rw [hplan', hd']
    have hloop : Succeeds (applyOps (byParts hash digest git) agreeable d.plan options opened none
        ((List.range d.plan.ops.length).drop opened.start)) d₁ fun _ d' => Flown i d d' := by
      rw [range_eq_range', drop_range', Nat.zero_add, Nat.mul_one]
      have hnone : InPlan d.plan none := by
        intro run hrun
        cases hrun
      refine (applyOps_succeeds _ hnone ?_ (Nat.le_refl _) (Nat.le_refl _) hplan₁).mono ?_
      · rintro ⟨hlt, -⟩
        exact Nat.lt_irrefl _ hlt
      · intro _ d' hall
        exact (hall i hreaches.1 (by have := hreaches.2.1; omega) hreaches).after hadds₁
    refine hloop.bind fun applied d₂ hflown => ?_
    refine .bind (Q := fun _ d' => Flown i d d') ?_ fun _ _ h => .pure h
    unfold refuseABrokenResult
    split
    · exact .pure hflown
    refine .bind (Q := fun _ d' => Flown i d d') ⟨(), rfl, hflown⟩ fun _ d₃ hd₃ => ?_
    split
    · exact ⟨(), rfl, hd₃⟩
    · exact .pure hd₃
  obtain ⟨_, -, hflown⟩ := hsucceeds
  rcases mem_cons.mp (Durable.final_mem (applyHeldPlan (byParts hash digest git) agreeable options) d) with heq | hmem
  · -- Nothing was appended to where the run started.
    have hnone : Adds (fun _ => False) d d := Adds.refl d
    rw [heq] at hflown
    exact (hflown.among hnone).elim
  · exact ⟨_, hmem, hflown⟩

end stale

/-- A run that is not refused commits no stale operation, whatever happens in it, exactly if none is stale in the loop's own
    window: from where the journal is once an open group is undone, up to the limit and to the end of the group it cuts. -/
theorem an_accepted_run_commits_no_stale_operation_iff (hash : List Char → String)
    (digest : List (OpId × Anchor × List Anchor) → String) (git : Git) (stale : List OpId) (options : Options) (d : Disk) :
    (refuseAStalePendingOp stale options d = .ok () →
      ∀ o i, Commits (applyHeldPlan (byParts hash digest git) o options) d i → ¬ d.plan.IsStale stale i) ↔
    (refuseAStalePendingOp stale options d = .ok () → Opens (byParts hash digest git) options d →
      ∀ start, startOf d.plan options d.journal.undone = .ok start →
        ∀ i, Reaches d.plan options start i → ¬ d.plan.IsStale stale i) := by
  constructor
  · intro h haccepted hopens start hstart i hreaches
    exact h haccepted agreeable i (commits_of_reaches hopens hstart hreaches)
  · intro h haccepted o i hcommits
    obtain ⟨hopens, start, hstart, hreaches⟩ := hcommits.reaches
    exact h haccepted hopens start hstart i hreaches

/-- The run is to stop after one operation, and the second of the group is stale. -/
theorem a_stale_member_is_committed :
    refuseAStalePendingOp ["b"] ⟨false, none, none, some 1⟩ fileY = .ok () ∧
      Commits (applyHeldPlan (byParts String.ofList (fun _ => "") plainGit) agreeable ⟨false, none, none, some 1⟩) fileY 1 ∧
      fileY.plan.IsStale ["b"] 1 := by
  refine ⟨rfl, ⟨_, mem_of_getElem? (i := 4) rfl, _, rfl, _, mem_of_getElem? (i := 3) rfl, rfl, rfl⟩, ⟨_, rfl, by decide⟩⟩

end TddyCoder.Restructure
