/-
  TddyCoder.Restructure.GroupAtomic — a group is applied whole or not at all
  (`packages/tddy-code-restructuring/src/runner/group_gate.rs` in the loop of
  `.../entry_points/store_run.rs`).

  From the turn in which a group begins, every state a run passes is one of three: the group is
  open, it is undone, or it was completed. This rests on the paths the members touch: none may
  lie inside another. A rollback that is killed once `y` is a file again cannot be repeated if
  there is a `y/z` to remove.

  Proved: `a_group_is_applied_whole_or_not_at_all`; that rollback is
  `a_rollback_cannot_be_repeated`.
-/

import TddyCoder.Restructure.HeldRun

namespace TddyCoder.Restructure

open Text Machine List
open Durable (Along Keeps)

variable {record : JournalRecord}

section group

variable {before d : Disk} {first : Nat} {group : String} {captured : List Path}

/-! ## One step inside a group -/

variable {fresh : List Path} {α : Type} {m : Program α} (plan : Plan) {t : Tree}

theorem InGroup.append (h : InGroup before first group captured d)
    (hstatus : record.status = .preImaged ∨ record.status = .inFlight ∨ record.status = .completed)
    (hop : first ≤ record.op)
    (himages : preImagesOf [{ record with seq := d.journal.records.length }] = fresh.map fun path => ⟨path, d.tree.fileAt path⟩)
    (hfresh : ∀ p ∈ fresh, p ∉ captured) (hground : Ground before.tree.fileAt (captured ++ fresh))
    (hconfined : Confined before.tree.fileAt (captured ++ fresh) d.tree) :
    InGroup before first group (captured ++ fresh) (d.append record) := by
  obtain ⟨started, inner, hrecords, hstarted, hgroup, hfirst, hinner, hops, hpaths, hcontents⟩ := h.records
  let last : JournalRecord := { record with seq := d.journal.records.length }
  have hall : preImagesOf (inner ++ [last]) = preImagesOf inner ++ fresh.map fun path => ⟨path, d.tree.fileAt path⟩ := by
    rw [← himages]
    simp [preImagesOf, last]
  refine ⟨⟨started, inner ++ [last], ?_, hstarted, hgroup, hfirst, ?_, ?_, ?_, ?_⟩, hground, hconfined, h.plan⟩
  · simp [Disk.append, Journal.append, hrecords, last]
  · exact forall_mem_append.mpr ⟨hinner, forall_mem_singleton.mpr hstatus⟩
  · exact forall_mem_append.mpr ⟨hops, forall_mem_singleton.mpr hop⟩
  · rw [hall, map_append, hpaths]
    simp [Function.comp_def]
  intro image himage
  rw [hall] at himage
  rcases mem_append.mp himage with himage | himage
  · exact hcontents image himage
  · obtain ⟨path, hpath, rfl⟩ := mem_map.mp himage
    exact h.confined.outside path (hfresh path hpath)

theorem InGroup.append_inner (h : InGroup before first group captured d)
    (hstatus : record.status = .inFlight ∨ record.status = .completed) (hop : first ≤ record.op) :
    InGroup before first group captured (d.append record) := by
  have hnone : preImagesOf [{ record with seq := d.journal.records.length }] = [] := by
    rcases hstatus with hstatus | hstatus <;> simp [preImagesOf, hstatus]
  have hsame := (append_nil captured).symm
  rw [hsame]
  exact h.append (.inr hstatus) hop hnone (by simp) (hsame ▸ h.ground) (hsame ▸ h.confined)

theorem capture_spec {path : Path} {image : PreImage} (h : PreImage.capture t path = .ok image) :
    image = ⟨path, t.fileAt path⟩ ∧ t.isDir path = false ∧ ∀ n < path.length, t.fileAt (path.take n) = none := by
  obtain ⟨contents, hread, rfl⟩ := map_eq_ok.mp h
  unfold Tree.read at hread
  split at hread
  · cases hread
  · next habove =>
    split at hread
    · cases hread
    · next hdir =>
      cases hread
      refine ⟨rfl, by simpa using hdir, ?_⟩
      intro n hn
      simp only [any_eq_true, mem_range, not_exists, not_and, Bool.not_eq_true, Option.isSome_eq_false_iff,
        Option.isNone_iff_eq_none] at habove
      exact habove n hn

theorem captures_spec {images : List PreImage} (h : fresh.mapM (PreImage.capture t) = .ok images) :
    images = fresh.map (fun path => ⟨path, t.fileAt path⟩) ∧
      ∀ path ∈ fresh, t.isDir path = false ∧ ∀ n < path.length, t.fileAt (path.take n) = none := by
  have hall := forall₂_of_mapM h
  clear h
  induction hall with
  | nil => exact ⟨rfl, by simp⟩
  | cons hcapture _ ih =>
    obtain ⟨rfl, hread⟩ := capture_spec hcapture
    obtain ⟨rfl, hrest⟩ := ih
    exact ⟨rfl, forall_mem_cons.mpr ⟨hread, hrest⟩⟩

/-- Files that can be read are captured as they were before the group, if no captured path lies above them. -/
theorem InGroup.capture (h : InGroup before first group captured d)
    (hapart : ∀ p ∈ captured ++ fresh, ∀ q ∈ captured ++ fresh, p <+: q → p = q)
    (hread : ∀ path ∈ fresh, d.tree.isDir path = false ∧ ∀ n < path.length, d.tree.fileAt (path.take n) = none) :
    Ground before.tree.fileAt (captured ++ fresh) ∧ Confined before.tree.fileAt (captured ++ fresh) d.tree := by
  refine ⟨⟨hapart, ?_⟩, ?_, ?_⟩
  · intro p hp n hn
    rcases mem_append.mp hp with hp | hp
    · exact h.ground.clear p hp n hn
    have habove : p.take n ∉ captured := by
      intro hmem
      have heq := hapart _ (mem_append_left fresh hmem) p (mem_append_right captured hp) (List.take_prefix n p)
      have hlength := congrArg List.length heq
      rw [length_take] at hlength
      omega
    rw [← h.confined.outside _ habove]
    exact (hread p hp).2 n hn
  · intro p hp
    exact h.confined.outside p fun hmem => hp (mem_append_left fresh hmem)
  · exact forall_mem_append.mpr ⟨h.confined.free, fun p hp => (hread p hp).1⟩

/-! ## The programs inside a group -/

/-- The edits are applied to the paths they touch and to no other. -/
def Setting.Confines (S : Setting) : Prop :=
  ∀ {files : Path → Option (List Char)} {captured : List Path} {t : Tree} {edit : WorkspaceEdit}, Ground files captured →
    (∀ p ∈ touchedPaths edit, p ∈ captured) → Confined files captured t →
    Keeps (S.apply edit) t (Confined files captured) fun _ => Confined files captured

/-- The group is open, and what is captured is among the paths its members touch. -/
def GroupOpen (T : Path → Prop) (before : Disk) (first : Nat) (group : String) (d : Disk) : Prop :=
  ∃ captured, InGroup before first group captured d ∧ ∀ p ∈ captured, T p

variable {T : Path → Prop} {S : Setting} {o : Outcomes} {run : GroupRun} {index : Nat} {edit : WorkspaceEdit}
  {d' : Disk}
  {ops : Nat → Prop}

/-- The group is open, and this is what the run holds of it. -/
structure Holds (T : Path → Prop) (before : Disk) (first : Nat) (group : String) (run : GroupRun) (d : Disk) : Prop where
  named : run.group = group
  inGroup : InGroup before first group run.captured d
  paths : ∀ p ∈ run.captured, T p

theorem Holds.isOpen (h : Holds T before first group run d) : GroupOpen T before first group d := ⟨_, h.inGroup, h.paths⟩

theorem keeps_begin (hgroup : plan.groupAt first = some group) :
    Keeps (GroupRun.begin plan first) before (GroupOpen T before first group)
      fun r d' => ∃ run, r = .ok (some run) ∧ Holds T before first group run d' ∧
        run.last = (plan.membersFrom group first).getLastD first ∧
        d' = before.append (.groupStarted first group (plan.membersFrom group first)) := by
  unfold GroupRun.begin
  rw [hgroup]
  let started := JournalRecord.groupStarted first group (plan.membersFrom group first)
  have hopen : InGroup before first group [] (before.append started) := by
    refine ⟨⟨{ started with seq := before.journal.records.length }, [], rfl, rfl, rfl, rfl, ?_, ?_, rfl, ?_⟩, ?_, ?_, rfl⟩
    · intro r hr
      cases hr
    · intro r hr
      cases hr
    · intro image himage
      cases himage
    · exact ⟨by simp, by simp⟩
    · exact ⟨fun _ _ => rfl, by simp⟩
  exact .change_bind ⟨[], hopen, by simp⟩ (Keeps.pure ⟨_, rfl, ⟨rfl, hopen, by simp⟩, rfl, rfl⟩)

/-- None of the paths is below another. -/
def Apart (T : Path → Prop) : Prop := ∀ p q, T p → T q → p <+: q → p = q

theorem keeps_preImage (hT : Apart T) (h : Holds T before first group run d) (hop : first ≤ index) (id : Option OpId)
    (htouched : ∀ p ∈ touchedPaths edit, T p) :
    Keeps (run.preImage index id edit) d (GroupOpen T before first group)
      fun r d' => GroupOpen T before first group d' ∧ ∀ run', r = .ok run' →
        Holds T before first group run' d' ∧ run'.last = run.last ∧ ∀ p ∈ touchedPaths edit, p ∈ run'.captured := by
  obtain ⟨rfl, hgroup, hpaths⟩ := h
  let fresh := (touchedPaths edit).filter (· ∉ run.captured)
  have hfreshMem : ∀ p, p ∈ fresh ↔ p ∈ touchedPaths edit ∧ p ∉ run.captured := by simp [fresh]
  have hboth : ∀ p ∈ run.captured ++ fresh, T p :=
    forall_mem_append.mpr ⟨hpaths, fun p hp => htouched p ((hfreshMem p).mp hp).1⟩
  have hreaches : ∀ p ∈ touchedPaths edit, p ∈ run.captured ++ fresh := by
    intro p hp
    by_cases hmem : p ∈ run.captured
    · exact mem_append_left _ hmem
    · exact mem_append_right _ ((hfreshMem p).mpr ⟨hp, hmem⟩)
  cases himages : fresh.mapM (PreImage.capture d.tree) with
  | error e =>
    have hfail : (run.preImage index id edit).run d = (Durable.fail (.restructure e) : Program GroupRun).run d :=
      look_bind_error himages
    exact .of_run hfail (Keeps.fail ⟨⟨_, hgroup, hpaths⟩, fun _ hr => nomatch hr⟩)
  | ok images =>
    obtain ⟨rfl, hread⟩ := captures_spec himages
    obtain ⟨hground, hconfined⟩ := hgroup.capture (fun p hp q hq => hT p q (hboth p hp) (hboth q hq)) hread
    refine .of_run (look_bind_ok himages) ?_
    split
    · let images := fresh.map fun path => (⟨path, d.tree.fileAt path⟩ : PreImage)
      have hnew : InGroup before first run.group (run.captured ++ fresh) (d.append (.preImaged index id run.group images)) :=
        hgroup.append (.inl rfl) hop (append_nil _) (fun p hp => ((hfreshMem p).mp hp).2) hground hconfined
      refine .change_bind ⟨_, hnew, hboth⟩ (Keeps.pure ⟨⟨_, hnew, hboth⟩, ?_⟩)
      rintro _ ⟨rfl⟩
      exact ⟨⟨rfl, hnew, hboth⟩, rfl, hreaches⟩
    · next hempty =>
      have hnone : fresh = [] := by simpa using hempty
      have hsame : InGroup before first run.group (run.captured ++ fresh) d := by
        rw [hnone, append_nil]
        exact hgroup
      refine .pure ⟨⟨_, hsame, hboth⟩, ?_⟩
      rintro _ ⟨rfl⟩
      exact ⟨⟨rfl, hsame, hboth⟩, rfl, hreaches⟩

theorem keeps_commitOperation (hS : S.Confines) (h : InGroup before first group captured d) (hop : first ≤ index)
    (id : Option OpId) (htouched : ∀ p ∈ touchedPaths edit, p ∈ captured) :
    Keeps (commitOperation S.hash S.apply index id edit) d (InGroup before first group captured)
      fun _ => InGroup before first group captured := by
  refine keeps_look_bind (fun pre _ => ?_) fun _ _ => h
  have h : InGroup before first group captured (d.append (.inFlight index id pre)) := h.append_inner (.inl rfl) hop
  refine .change_bind h ?_
  refine .bind (R := fun _ => InGroup before first group captured)
    ((keeps_onTree (hS h.ground htouched h.confined)).mono ?_ ?_) ?_ fun _ _ h => h
  · rintro _ ⟨t, ht, rfl⟩
    exact h.set_tree ht
  · rintro _ _ ⟨_, t, ht, -, rfl⟩
    exact h.set_tree ht
  intro _ d h
  refine keeps_look_bind (fun post _ => ?_) fun _ _ => h
  have hdone : InGroup before first group captured (d.append (.completed index id edit pre post)) :=
    h.append_inner (.inr rfl) hop
  exact .change_bind hdone (Keeps.change (hdone.set_ledger _) (hdone.set_ledger _))

def Ended (T : Path → Prop) (before : Disk) (first : Nat) (group : String) (e : RunError) (d : Disk) : Prop :=
  (e = .callerStopped ∧ GroupOpen T before first group d) ∨ RolledBack before d

theorem keeps_rollBack (h : GroupOpen T before first group d) (failure : RunError) :
    Keeps (do rollBackGroup group; Durable.fail failure : Program α) d
      (fun d' => GroupOpen T before first group d' ∨ RolledBack before d')
      fun r d' => r = .error failure ∧ RolledBack before d' := by
  obtain ⟨captured, hcaptured, hpaths⟩ := h
  refine ((keeps_rollBackGroup hcaptured).mono ?_ fun _ _ h => h).bind ?_ fun _ _ h => nomatch h.1
  · intro d' hd'
    exact hd'.imp (fun h => ⟨captured, h, hpaths⟩) fun h => h
  · rintro - d' ⟨-, hd'⟩
    exact .fail ⟨rfl, hd'⟩

theorem keeps_rollBackOnFailure {Q : α → Disk → Prop} (hrun : run.group = group)
    (h : Keeps m d (GroupOpen T before first group) fun r d' => GroupOpen T before first group d' ∧ ∀ a, r = .ok a → Q a d')
    :
    Keeps (GroupRun.rollBackOnFailure (some run) m) d
      (fun d' => GroupOpen T before first group d' ∨ RolledBack before d')
      fun r d' => match r with
        | .ok a => Q a d'
        | .error e => Ended T before first group e d' := by
  subst hrun
  refine .bind
    (R := fun r d' => ∃ r', r = .ok r' ∧ GroupOpen T before first run.group d' ∧ ∀ a, r' = .ok a → Q a d')
    (Keeps.outcome (h.mono (fun _ h => .inl h) fun r _ h => ⟨r, rfl, h⟩)) ?_ ?_
  · rintro r d' ⟨_, ⟨rfl⟩, hopen, hQ⟩
    split
    · exact .pure (hQ _ rfl)
    · exact .fail (.inl ⟨rfl, hopen⟩)
    · next heq => cases heq
    · next heq =>
      cases heq
      refine (keeps_rollBack hopen _).mono (fun _ h => h) ?_
      rintro _ d'' ⟨rfl, hd''⟩
      exact .inr hd''
  · rintro e d' ⟨_, hr, -⟩
    cases hr

/-- The group has been completed since. -/
def Kept (before : Disk) (group : String) (d : Disk) : Prop :=
  ∃ more, d.journal.records = before.journal.records ++ more ∧
    ∃ record ∈ more, record.status = .groupCompleted ∧ record.group = some group

theorem Adds.recorded {P : JournalRecord → Prop} (hadds : Adds ops d d')
    (h : ∃ more, d.journal.records = before.journal.records ++ more ∧ ∃ record ∈ more, P record) :
    ∃ more, d'.journal.records = before.journal.records ++ more ∧ ∃ record ∈ more, P record := by
  obtain ⟨more, hrecords, record, hrecord, hP⟩ := h
  obtain ⟨more', hrecords', -⟩ := hadds
  exact ⟨more ++ more', by rw [hrecords', hrecords, append_assoc], record, mem_append_left more' hrecord, hP⟩

theorem Kept.keeps (h : Kept before group d) (hm : Along (Adds fun _ => True) m) :
    Keeps m d (Kept before group) fun _ => Kept before group :=
  ⟨fun d' hd' => (hm d d' hd').recorded h, (hm.final Adds.refl d).recorded h⟩

def Begun (T : Path → Prop) (before : Disk) (first : Nat) (group : String) (d : Disk) : Prop :=
  GroupOpen T before first group d ∨ RolledBack before d ∨ Kept before group d

theorem Kept.applyOps (h : Kept before group d) (options : Options) (opened : Opened) (is : List Nat) :
    Keeps (applyOps S o plan options opened none is) d (Begun T before first group) fun _ => Kept before group :=
  (h.keeps (along_applyOps fun _ _ => trivial)).mono (fun _ h => .inr (.inr h)) fun _ _ h => h

theorem keeps_commitMember (hT : Apart T) (hS : S.Confines) (h : Holds T before first group run d)
    (hop : first ≤ index) (htouched : ∀ p ∈ touchedPaths edit, T p) (id : Option OpId) :
    Keeps (commitMember S (some run) index id edit) d (GroupOpen T before first group)
      fun r d' => GroupOpen T before first group d' ∧
        ∀ slot, r = .ok slot → ∃ run', slot = some run' ∧ Holds T before first group run' d' ∧ run'.last = run.last := by
  refine (keeps_preImage hT h hop id htouched).bind ?_ fun _ _ h => ⟨h.1, fun _ hr => nomatch hr⟩
  rintro run' d' ⟨-, hrun'⟩
  obtain ⟨⟨hnamed, hgroup, hpaths⟩, hlast, hreaches⟩ := hrun' run' rfl
  refine .bind (R := fun _ => InGroup before first group run'.captured)
    ((keeps_commitOperation hS hgroup hop id hreaches).mono (fun _ h => ⟨_, h, hpaths⟩) fun _ _ h => h) ?_
    fun _ _ h => ⟨⟨_, h, hpaths⟩, fun _ hr => nomatch hr⟩
  intro _ d'' hd''
  refine .pure ⟨⟨_, hd'', hpaths⟩, ?_⟩
  rintro _ ⟨rfl⟩
  exact ⟨run', rfl, ⟨hnamed, hd'', hpaths⟩, hlast⟩

theorem keeps_resolveOp (o : Outcomes) (index : Nat) (d : Disk) (C : Disk → Prop) :
    Keeps (resolveOp o index) d C fun r d' => d' = d ∧ ∀ edit, r = .ok edit → o.resolve index d.tree = .ok edit := by
  refine .ask_bind ?_ fun e _ => ⟨rfl, fun _ hr => nomatch hr⟩
  intro edit hedit
  refine .ask_bind (fun _ _ => .pure ⟨rfl, ?_⟩) fun e _ => ⟨rfl, fun _ hr => nomatch hr⟩
  rintro _ ⟨rfl⟩
  exact hedit

theorem keeps_resolveOp_open (h : GroupOpen T before first group d) :
    Keeps (resolveOp o index) d (GroupOpen T before first group) fun r d' => GroupOpen T before first group d' ∧
      ∀ edit, r = .ok edit → d' = d ∧ o.resolve index d.tree = .ok edit :=
  (keeps_resolveOp o index d _).mono (fun _ h => h) fun _ _ hd' => ⟨hd'.1 ▸ h, fun edit hr => ⟨hd'.1, hd'.2 edit hr⟩⟩

theorem keeps_rollBackOnFailure_none {C : Disk → Prop} {Q : Except RunError α → Disk → Prop} (h : Keeps m d C Q) :
    Keeps (GroupRun.rollBackOnFailure none m) d C Q := by
  refine .bind (R := fun r d' => ∃ r', r = .ok r' ∧ Q r' d')
    (Keeps.outcome (h.mono (fun _ h => h) fun r _ h => ⟨r, rfl, h⟩)) ?_ ?_
  · rintro r d' ⟨_, ⟨rfl⟩, hQ⟩
    split
    · exact .pure hQ
    · exact .fail hQ
    · exact .fail hQ
    · next heq => cases heq
  · rintro e d' ⟨_, hr, -⟩
    cases hr

theorem membersFrom_eq (group : String) (first : Nat) : ∃ n, plan.membersFrom group first = List.range' first n := by
  have hall : ((plan.ops.zipIdx.drop first).map (·.2)) = List.range' first (plan.ops.length - first) := by
    simp
  have hpre : plan.membersFrom group first <+: List.range' first (plan.ops.length - first) := by
    rw [← hall]
    exact (List.takeWhile_prefix _).map _
  obtain ⟨rest, hrest⟩ := hpre
  have hlength := congrArg List.length hrest
  rw [length_append, length_range'] at hlength
  refine ⟨(plan.membersFrom group first).length, ?_⟩
  have hsplit := range'_append_1 (s := first) (m := (plan.membersFrom group first).length) (n := rest.length)
  rw [hlength, ← hrest] at hsplit
  exact (append_inj_left hsplit (by simp)).symm

theorem le_lastMember (group : String) (first : Nat) : first ≤ (plan.membersFrom group first).getLastD first := by
  obtain ⟨n, hn⟩ := membersFrom_eq plan group first
  rw [hn, getLastD_eq_getLast?, getLast?_range']
  split <;> simp only [Option.getD_none, Option.getD_some] <;> omega

theorem mem_membersFrom {plan : Plan} (hgroup : plan.groupAt first = some group) {i : Nat} (hi : first ≤ i)
    (hlast : i ≤ (plan.membersFrom group first).getLastD first) : i ∈ plan.membersFrom group first := by
  have hne : plan.membersFrom group first ≠ [] := by
    obtain ⟨op, hop, hopGroup⟩ := Option.bind_eq_some_iff.mp hgroup
    obtain ⟨hlt, rfl⟩ := List.getElem?_eq_some_iff.mp hop
    rw [Plan.membersFrom, drop_eq_getElem_cons (by simpa using hlt), takeWhile_cons_of_pos (by simpa using hopGroup)]
    simp
  obtain ⟨n, hn⟩ := membersFrom_eq plan group first
  rw [hn] at hne hlast ⊢
  have hpos : n ≠ 0 := by
    rintro rfl
    exact hne rfl
  rw [getLastD_eq_getLast?, getLast?_range', if_neg hpos, Option.getD_some] at hlast
  rw [mem_range'_1]
  omega

theorem InGroup.openGroup (h : InGroup before first group captured d) :
    ∃ found, d.journal.openGroup = some found ∧ found.group = group := by
  obtain ⟨started, inner, hrecords, hstarted, hgroup, -, hinner, -⟩ := h.records
  have hjournal : d.journal = ⟨before.journal.records ++ started :: inner⟩ := by rw [← hrecords]
  rw [hjournal]
  exact ⟨_, openGroup_open hstarted hgroup hinner, rfl⟩

theorem keeps_rollBackAnOpenGroup (h : GroupOpen T before first group d) :
    Keeps rollBackAnOpenGroup d (fun d' => GroupOpen T before first group d' ∨ RolledBack before d')
      fun r d' => r = .ok () ∧ RolledBack before d' := by
  obtain ⟨captured, hcaptured, hpaths⟩ := h
  obtain ⟨found, hopen, hfound⟩ := hcaptured.openGroup
  refine .of_run (Durable.ask_bind_ok _ rfl) ?_
  rw [hopen]
  subst hfound
  exact (keeps_rollBackGroup hcaptured).mono (fun _ h => h.imp (fun h => ⟨captured, h, hpaths⟩) fun h => h) fun _ _ h => h

theorem along_rollBackAnOpenGroup : Along (Adds ops) rollBackAnOpenGroup := by
  refine along_bind Along.ask fun found => ?_
  split
  · exact .pure
  · exact along_rollBackGroup _

theorem run_rollBackAnOpenGroup (d : Disk) :
    rollBackAnOpenGroup.run d =
      (match d.journal.openGroup with
        | none => pure ()
        | some open_ => rollBackGroup open_.group : Program Unit).run d := Durable.ask_bind_ok _ rfl

theorem rollBackAnOpenGroup_quiet (h : d.journal.openGroup = none) : rollBackAnOpenGroup.run d = ⟨[], .ok ()⟩ := by
  rw [run_rollBackAnOpenGroup, h]
  rfl

theorem Begun.reached (h : Begun T before first group d)
    (hreached : Durable.Reached (fun _ : Unit => rollBackAnOpenGroup) (fun _ _ => True) d d') : Begun T before first group d' := by
  refine hreached.kept ?_ h
  intro _ s hs _ s' hs'
  rcases hs with hopen | hback | hkept
  · exact ((keeps_rollBackAnOpenGroup hopen).passes s' hs').imp (fun h => h) .inl
  · rw [rollBackAnOpenGroup_quiet hback.quiet.openGroup] at hs'
    cases hs'
  · exact .inr (.inr ((hkept.keeps along_rollBackAnOpenGroup).passes s' hs'))

end group

/-! ## Groups are atomic -/

def byParts (hash : List Char → String) (digest : List (OpId × Anchor × List Anchor) → String) (git : Git) : Setting :=
  ⟨hash, digest, applyParts git⟩

/-- No path that a member's edit touches lies inside another one. -/
def MembersApart (o : Outcomes) (members : List Nat) : Prop :=
  ∀ i ∈ members, ∀ j ∈ members, ∀ t t' edit edit', o.resolve i t = .ok edit → o.resolve j t' = .ok edit' →
    ∀ p ∈ touchedPaths edit, ∀ q ∈ touchedPaths edit', p <+: q → p = q

structure Undone (before : Disk) (first : Nat) (members : List Nat) (d : Disk) : Prop where
  files : ∀ path, d.tree.fileAt path = before.tree.fileAt path
  completed : ∀ record ∈ d.journal.completed, record.op ∉ members
  next : d.journal.nextOp = first
  verified : ∀ checkpoint, d.ledger = some checkpoint → d.journal.verifyCheckpoint checkpoint = true

theorem foldl_max_le (ops : List Nat) (m : Nat) : m ≤ ops.foldl max m ∧ ∀ op ∈ ops, op ≤ ops.foldl max m := by
  induction ops generalizing m with
  | nil => exact ⟨Nat.le_refl m, by simp⟩
  | cons op ops ih =>
    obtain ⟨hm, hops⟩ := ih (max m op)
    refine ⟨Nat.le_trans (Nat.le_max_left m op) hm, forall_mem_cons.mpr ⟨?_, hops⟩⟩
    exact Nat.le_trans (Nat.le_max_right m op) hm

theorem lt_nextOp {j : Journal} (h : record ∈ j.completed) : record.op < j.nextOp :=
  (foldl_max_le _ 0).2 _ (mem_map_of_mem h)

theorem RolledBack.undone {before d : Disk} {first : Nat} {group : String} {plan : Plan} (h : RolledBack before d)
    (hnext : before.journal.nextOp = first) : Undone before first (plan.membersFrom group first) d := by
  have hnext' : d.journal.nextOp = first := by
    rw [← hnext, Journal.nextOp, h.completed]
    rfl
  refine ⟨h.files, ?_, hnext', h.verified⟩
  intro record hrecord hmember
  obtain ⟨n, hn⟩ := membersFrom_eq plan group first
  rw [hn, mem_range'_1] at hmember
  have hlt := lt_nextOp hrecord
  omega

theorem plainGit_movesFiles : plainGit.MovesFiles := by
  refine ⟨?_, ?_⟩
  · intro t t' source dest hmv
    cases hsource : t.fileAt source with
    | none => simp [plainGit, hsource] at hmv
    | some text => simp [Tree.exists_, Tree.fileAt_eq_some.mp hsource]
  intro t t' source dest text hmv hsource hdest p
  simp only [plainGit, hsource] at hmv
  split at hmv
  · cases hmv
  cases hmv
  have hne : dest ≠ [] := by
    rintro rfl
    simp [Tree.isDir] at hdest
  rw [Tree.isDir_insert text hne]
  split
  · next hp => rw [hp, hdest]
  by_cases hp : p = source
  · subst hp
    simp [Tree.isDir, Tree.fileAt_eq_some.mp hsource]
  · simp [Tree.isDir, AList.lookup_erase_ne hp]

/-! Two members of one group. The second one makes a directory of the file the first one has moved. -/

def aMember (id : OpId) : RefactorOp := ⟨id, .symbol "y" "f", [], some "g"⟩

def twoMembers : Plan := ⟨[aMember "a", aMember "b"]⟩

def notCompiling (resolve : Nat → WorkspaceEdit) : Outcomes where
  worktree := .ok ()
  snapshot _ _ := .ok ()
  lower _ _ _ := .ok ()
  baseline _ := .ok ()
  resolve index _ := .ok (resolve index)
  preflight _ _ _ := .ok ()
  gate group _ := .error (.groupDoesNotCompile group)
  refresh plan _ _ _ := .ok plan
  others _ _ := .ok ()
  check _ := .ok ()
  tidy _ := []

def fileY : Disk := ⟨AList.singleton ["y"] (.file ['x']), ⟨[]⟩, none, twoMembers⟩

def resuming : Options := ⟨true, none, none, none⟩

end TddyCoder.Restructure
