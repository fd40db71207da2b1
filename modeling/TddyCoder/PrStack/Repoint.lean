/-
  TddyCoder.PrStack.Repoint — the base a repoint writes against the base the assessment
  expects afterwards (`realign_node_to_effective_base` of
  `packages/tddy-pr-stack/src/stack_ops/repoint.rs`; `effective_base_ref` and
  `derive_internal_status`, modelled in `TddyCoder.PrStack.Views`).

  A repoint re-targets the open pull request to the first parent that is unmerged in the plan
  and records a branch. The assessment reads the same parents with the child sessions' branches
  filled in and takes a parent with an open pull request for unmerged.

  Proved: `repoint_converges_iff`; it does not in `needs_repoint_after_repoint`.
-/

import TddyCoder.PrStack.BaseBranch
import TddyCoder.PrStack.Ops
import TddyCoder.PrStack.Views

namespace TddyCoder.PrStack

open Prog Function StackNode

/-- The two operations that rewrite a node's parents and realign its branch. -/
inductive ParentChange where
  | set (parents : List String)
  | repoint (target : Option String)

namespace ParentChange

def run (nodeId defaultBranch : String) : ParentChange → Prog World String StackNode
  | .set parents => setStackNodeParents nodeId parents defaultBranch
  | .repoint target => repointPlannedPrNode nodeId defaultBranch target

def parents (s : Stack) (n : StackNode) : ParentChange → List String
  | .set parents => parents
  | .repoint target => n.parents.filter (survives s target)

end ParentChange

/-! ## What a change stores -/

def StackNode.identity (n : StackNode) : StackNode := { n with parents := [], displayOrder := none }

variable {s : Stack}

theorem node_rewriteParents (h : s.ids.Nodup) (id : String) (parents : List String) (v : String) :
    (rewriteParents id parents s).node v =
      (s.node v).map fun m => if m.nodeId = id then { m with parents := parents } else m := by
  unfold Stack.node rewriteParents
  rw [Stack.modifyNode_nodes h, List.find?_map]
  congr 2
  funext m
  simp only [comp_apply]
  split <;> rfl

theorem survives_assign (s : Stack) (target : Option String) (p : String) :
    survives s.assignMissingDisplayOrder target p = survives s target p := by
  have hnode := (Stack.assign_samePlan s).node p
  have hany : ∀ f : StackNode → Bool, (∀ n, f n.unnumbered = f n) → ∀ o : Option StackNode,
      (o.map StackNode.unnumbered).any f = o.any f := by
    intro f hf o
    cases o with
    | none => rfl
    | some n => exact hf n
  unfold survives
  cases target <;>
  · simp only
    rw [← hany _ (fun _ => rfl), hnode, hany _ fun _ => rfl]

/-- The stack once the node has been given these parents: a well-formed plan with the same nodes. -/
structure Reparented (s : Stack) (n : StackNode) (parents : List String) (s' : Stack) : Prop where
  wellFormed : s'.WellFormed
  same : ∀ id, (s'.node id).map StackNode.identity = (s.node id).map StackNode.identity
  node : ∃ n' ∈ s'.nodes, n'.nodeId = n.nodeId ∧ n'.identity = n.identity ∧ n'.parents = parents

variable {n : StackNode} {parents : List String}

theorem node_assign (hw : s.WellFormed) (hn : n ∈ s.nodes) :
    ∃ m, s.assignMissingDisplayOrder.node n.nodeId = some m ∧ m.unnumbered = n.unnumbered := by
  have hnode := (Stack.assign_samePlan s).node n.nodeId
  rw [Stack.node_of_mem hw.ids hn] at hnode
  exact Option.map_eq_some_iff.mp hnode

theorem reparented_rewrite (hw : s.WellFormed) (hn : n ∈ s.nodes)
    (h : (rewriteParents n.nodeId parents s.assignMissingDisplayOrder).WellFormed) :
    Reparented s n parents (rewriteParents n.nodeId parents s.assignMissingDisplayOrder) := by
  have hids : s.assignMissingDisplayOrder.ids.Nodup := (wellFormed_assign hw).ids
  have hplan := fun id => congrArg (Option.map identity) ((Stack.assign_samePlan s).node id)
  refine ⟨h, ?_, ?_⟩
  · intro id
    rw [node_rewriteParents hids, Option.map_map]
    refine Eq.trans ?_ (((Option.map_map ..).symm.trans (hplan id)).trans (Option.map_map ..))
    congr 1
    funext m
    simp only [comp_apply]
    split <;> rfl
  · obtain ⟨m, hm, hmn⟩ := node_assign hw hn
    have hid : m.nodeId = n.nodeId := (Stack.node_mem hm).2
    have hnode := node_rewriteParents hids n.nodeId parents n.nodeId
    rw [hm, Option.map_some, if_pos hid] at hnode
    refine ⟨_, (Stack.node_mem hnode).1, hid, ?_, rfl⟩
    show m.unnumbered.identity = n.unnumbered.identity
    rw [hmn]

theorem reparented_repoint (hw : s.WellFormed) (hn : n ∈ s.nodes) (target : Option String) :
    Reparented s n (n.parents.filter (survives s target)) (repointNode n.nodeId target s) := by
  have hwf : (repointNode n.nodeId target s).WellFormed := wellFormed_retain (wellFormed_assign hw) _ _
  have hparents : ((s.assignMissingDisplayOrder.node n.nodeId).map fun m =>
      m.parents.filter (survives s.assignMissingDisplayOrder target)).getD [] = n.parents.filter (survives s target) := by
    obtain ⟨m, hm, hmn⟩ := node_assign hw hn
    rw [hm, show survives s.assignMissingDisplayOrder target = survives s target from funext (survives_assign s target)]
    show m.unnumbered.parents.filter _ = _
    rw [hmn]
    rfl
  unfold repointNode retainParents at hwf ⊢
  rw [hparents] at hwf ⊢
  exact reparented_rewrite hw hn hwf

/-! ## What a change does to the pull request -/

open World

def World.retargeted (w : World) (branch base : String) : List OpenPr :=
  match w.openPr branch with
  | some pr => w.openPrs.map (OpenPr.retarget pr.number base)
  | none => w.openPrs

theorem answers_getOpenPr (branch : String) (w : World) :
    Answers (getOpenPr branch) w fun pr w' => pr = w.openPr branch ∧ w.After w' := by
  refine answers_of_ensures (ensures_call (Q := fun r w' => ∀ pr, r = .ok pr → pr = w.openPr branch ∧ w.After w') ?_ ?_)
    fun pr w' h => h pr rfl
  · exact fun _ _ _ _ he => by cases he
  · rintro w' ⟨faults, rfl⟩ pr he
    cases he
    exact ⟨rfl, faults, rfl⟩

theorem answers_retargetOpenPr (op branch base : String) (w : World) : Answers (retargetOpenPr op branch base) w
    fun _ w' => World.After { w with openPrs := w.retargeted branch base } w' := by
  refine answers_bind (answers_mapErr (answers_getOpenPr branch w)) ?_
  rintro pr w₁ ⟨rfl, faults, rfl⟩
  unfold retargeted
  cases w.openPr branch with
  | none => exact answers_pure ⟨faults, rfl⟩
  | some pr =>
    refine answers_mapErr (answers_of_ensures (ensures_call (Q := fun r w' => r = .ok () →
      World.After { w with openPrs := w.openPrs.map (OpenPr.retarget pr.number base) } w') ?_ ?_) fun _ w' h => h rfl)
    · exact fun _ _ _ he => by cases he
    · rintro w' ⟨faults, rfl⟩ -
      exact ⟨faults, rfl⟩

theorem answers_rebaseBranch (op nodeId branch base : String) (w : World) :
    Answers (rebaseBranch op nodeId branch base) w fun _ w' => w.After w' := by
  refine answers_bind (answers_of_ensures (rebaseOnto_ensures w) fun _ _ h => h) ?_
  intro outcome w₁ h
  cases outcome with
  | none => exact answers_pure h
  | some message =>
    refine answers_bind (R := fun _ _ => True) (fun _ _ _ => trivial) fun _ _ _ => answers_throw _

theorem answers_readChangeset (w : World) : Answers readChangeset w fun c w' => c.stack.getD {} = w.stack ∧ w.After w' := by
  refine answers_of_ensures (readChangeset_ensures w) fun c w' h => ⟨?_, h.1⟩
  simp [stack, h.2 c rfl]

theorem answers_realign (op nodeId branch defaultBranch : String) (w : World) :
    Answers (realignNodeToEffectiveBase op nodeId branch defaultBranch) w fun _ w' =>
      World.After { w with openPrs := w.retargeted branch (effectiveBase w.stack nodeId defaultBranch) } w' := by
  refine answers_bind (answers_mapErr (answers_readChangeset w)) ?_
  rintro c w₁ ⟨hs, faults, rfl⟩
  rw [hs]
  refine answers_bind (R := fun _ w' => w.After w') (fun _ _ he => by cases he; exact ⟨faults, rfl⟩) ?_
  intro w₂ w₃ h₃
  -- whether the branch is local or not, only outcomes have been used up before the re-target
  have hgo : ∀ w₄, w.After w₄ → Answers (retargetOpenPr op branch (effectiveBase w.stack nodeId defaultBranch)) w₄
      fun _ w' => World.After { w with openPrs := w.retargeted branch (effectiveBase w.stack nodeId defaultBranch) } w' := by
    rintro w₄ ⟨faults', rfl⟩ a w' he
    obtain ⟨faults'', rfl⟩ := answers_retargetOpenPr op branch _ _ a w' he
    exact ⟨faults'', rfl⟩
  split
  · exact answers_bind (answers_rebaseBranch op nodeId branch _ w₃) fun _ w₄ h₄ => hgo w₄ (h₃.trans h₄)
  · exact hgo w₃ h₃

theorem answers_reloadNode (nodeId readFailed vanished : String) (w : World) :
    Answers (reloadNode nodeId readFailed vanished) w fun m w' => w.stack.node nodeId = some m ∧ w.After w' := by
  refine answers_bind (answers_mapErr (answers_readChangeset w)) ?_
  rintro c w₁ ⟨hs, h⟩
  rw [hs]
  cases hm : w.stack.node nodeId with
  | none => exact answers_throw _
  | some m => exact answers_pure ⟨rfl, h⟩

structure Realigned (w : World) (n : StackNode) (parents : List String) (defaultBranch : String) (w' : World) : Prop where
  plan : Reparented w.stack n parents w'.stack
  sessions : w'.sessions = w.sessions
  openPrs : w'.openPrs = match n.branch with
    | some branch => w.retargeted branch (effectiveBase w'.stack n.nodeId defaultBranch)
    | none => w.openPrs

variable {w w' : World} {f : StackNode → Option String} {p : StackNode} {s' : Stack} {branch base : String}

/-- Once the plan is stored, the realignment of a recorded branch completes the change; a node that
    records none is left with the plan alone. -/
theorem answers_finish {w₁ : World}
    (hplan : Reparented w.stack n parents s') (hs : w.Stored s' w₁) (op defaultBranch : String) :
    Answers (realignIfOwned op n.nodeId n.branch defaultBranch) w₁ fun _ w' => Realigned w n parents defaultBranch w' := by
  obtain ⟨c, hc, faults, rfl⟩ := hs
  cases hb : n.branch with
  | none =>
    refine answers_pure ⟨hplan, rfl, ?_⟩
    rw [hb]
  | some branch =>
    intro a w' he
    obtain ⟨faults', rfl⟩ := answers_realign op n.nodeId branch defaultBranch _ a w' he
    refine ⟨hplan, rfl, ?_⟩
    rw [hb]
    rfl

theorem change_answers (hw : w.stack.WellFormed) (hn : n ∈ w.stack.nodes)
    (change : ParentChange) (defaultBranch : String) :
    Answers (change.run n.nodeId defaultBranch) w fun _ w' =>
      Realigned w n (change.parents w.stack n) defaultBranch w' := by
  cases change with
  | set parents =>
    refine answers_bind (answers_of_ensures (checkedUpdate_ensures _ _ _ _ w) fun _ _ h => h) ?_
    rintro ⟨_, _⟩ w₁ ⟨hcheck, -, hs⟩
    obtain ⟨hparents, hacyclic⟩ := checkSetParents_ok hcheck
    have hdeps := ((Stack.assign_samePlan w.stack).modifyNode (f := fun n => { n with parents := parents })
      (fun _ => rfl) n.nodeId).deps
    have hplan : Reparented w.stack n parents (setParents n.nodeId parents w.stack) :=
      reparented_rewrite hw hn (wellFormed_congr hdeps.symm (wellFormed_setParents hw hparents hacyclic))
    refine answers_bind (answers_reloadNode _ _ _ w₁) ?_
    rintro moved w₂ ⟨hmoved, h₂⟩
    -- the node read back records the branch it had before
    have hbranch : moved.branch = n.branch := by
      have hsame := hplan.same n.nodeId
      rw [hs.stack] at hmoved
      rw [Stack.node_of_mem hw.ids hn, show (setParents n.nodeId parents w.stack).node n.nodeId = _ from hmoved] at hsame
      exact congrArg (fun o => (o.map branch).getD none) hsame
    rw [hbranch]
    refine answers_bind (answers_finish hplan ?_ _ _) fun _ _ h => answers_pure h
    obtain ⟨c, hc, hs⟩ := hs
    exact ⟨c, hc, hs.trans h₂⟩
  | repoint target =>
    refine answers_bind (answers_of_ensures (checkedUpdate_ensures _ _ _ _ w) fun _ _ h => h) ?_
    rintro ⟨m, _⟩ w₁ ⟨hcheck, -, hs⟩
    have hm : m = n := by
      rw [checkRepoint, Stack.node_of_mem hw.ids hn] at hcheck
      cases hcheck
      rfl
    subst hm
    refine answers_bind (answers_finish (reparented_repoint hw hn target) hs _ _) ?_
    intro _ w₂ h₂ a w' he
    obtain ⟨-, faults, rfl⟩ := answers_reloadNode _ _ _ w₂ a w' he
    exact ⟨h₂.plan, h₂.sessions, h₂.openPrs⟩

/-! ## The base written and the base expected -/

def recordedBase (defaultBranch : String) (parents : List StackNode) : String :=
  (parents.findSome? StackNode.liveBranch).getD (baseBranch defaultBranch)

theorem getD_findSome?_cons {parents : List StackNode} :
    ((p :: parents).findSome? f).getD base = (f p).getD ((parents.findSome? f).getD base) := by
  rw [List.findSome?_cons]
  cases f p <;> rfl

theorem effectiveBase_eq (hids : s.ids.Nodup) (hn : n ∈ s.nodes) (defaultBranch : String) :
    effectiveBase s n.nodeId defaultBranch = recordedBase defaultBranch (s.parentNodes n) := by
  unfold effectiveBase recordedBase
  rw [effectiveBaseRefs_head hids hn, Option.getD_some, refOf]
  cases (s.parentNodes n).findSome? liveBranch with
  | none => rfl
  | some branch => exact Text.dropPrefix_append "origin/" branch

/-- Down the parents, to the first either reading takes for a base. One that is unmerged in the plan
    and records a branch name is taken by both. One the plan records as merged, or without a branch,
    may be taken by the assessment only, an empty branch name by the repoint only: there the other
    reading goes on to the later parents and has to end at the same branch. -/
def BasesMeet (w : World) (defaultBranch : String) : List StackNode → Prop
  | [] => baseBranch (baseBranch defaultBranch) = baseBranch defaultBranch
  | p :: parents =>
    match p.liveBranch with
    | some branch => branch = "" → baseBranch (w.expectedBase defaultBranch parents) = ""
    | none =>
      match w.assessedBranch p with
      | none => BasesMeet w defaultBranch parents
      | some branch => baseBranch (recordedBase defaultBranch parents) = baseBranch branch

theorem assessedBranch_of_live (w : World) (h : p.liveBranch = some branch) :
    w.assessedBranch p = if branch = "" then none else some branch := by
  unfold liveBranch at h
  split at h
  · cases h
  rename_i hmerged
  have hview : (w.viewOf p).branch = branch := by
    show (w.branchOf p).getD "" = branch
    rw [branchOf, h]
    rfl
  unfold assessedBranch NodeView.baseOffer
  rw [hview]
  by_cases hempty : branch = ""
  · rw [if_pos hempty, if_pos hempty]
  have hpr : (w.viewOf p).pr ≠ .merged := by
    show w.prOf p (w.viewOf p).branch ≠ .merged
    rw [hview, prOf, if_neg hempty]
    cases w.openPr branch with
    | some pr => nofun
    | none =>
      unfold StackNode.isSkipped at hmerged
      unfold recordedPr
      cases hstatus : p.prStatus with
      | none => nofun
      | some status =>
        rw [hstatus] at hmerged
        have : status.phase ≠ "merged" := by simpa using hmerged
        simp only [this, if_false]
        split <;> nofun
  rw [if_neg hempty, if_neg hpr, if_neg hempty]

theorem basesMeet_iff (w : World) (defaultBranch : String) (parents : List StackNode) :
    baseBranch (recordedBase defaultBranch parents) = baseBranch (w.expectedBase defaultBranch parents) ↔
      BasesMeet w defaultBranch parents := by
  induction parents with
  | nil => exact Iff.rfl
  | cons p parents ih =>
    unfold BasesMeet
    rw [recordedBase, expectedBase, getD_findSome?_cons, getD_findSome?_cons]
    cases hlive : p.liveBranch with
    | some branch =>
      rw [assessedBranch_of_live w hlive, Option.getD_some]
      by_cases hempty : branch = ""
      · rw [if_pos hempty, Option.getD_none, hempty, show baseBranch "" = "" by decide]
        exact ⟨fun h _ => h.symm, fun h => (h rfl).symm⟩
      · rw [if_neg hempty, Option.getD_some]
        exact ⟨fun _ h => absurd h hempty, fun _ => rfl⟩
    | none =>
      cases w.assessedBranch p with
      | none => exact ih
      | some branch => exact Iff.rfl

/-! ## Convergence -/

/-- When the assessment finds nothing left to repoint: the base written is the base expected; a node
    that records no branch of its own gets no base written, so its pull request must have it already. -/
def RepointConverges (w : World) (defaultBranch : String) (n : StackNode) (pr : OpenPr) (parents : List StackNode) : Prop :=
  match n.branch with
  | some _ => BasesMeet w defaultBranch parents
  | none => baseBranch pr.baseBranch = baseBranch (w.expectedBase defaultBranch parents)

theorem openPr_retargeted (h : w'.openPrs = w.retargeted branch base) :
    ∃ f : OpenPr → OpenPr, (∀ head, w'.openPr head = (w.openPr head).map f) ∧
      ∀ pr, w.openPr branch = some pr → (f pr).baseBranch = base := by
  unfold retargeted at h
  cases hpr : w.openPr branch with
  | none =>
    rw [hpr] at h
    refine ⟨id, fun head => ?_, nofun⟩
    rw [Option.map_id_fun, id, openPr, h, openPr]
  | some pr =>
    rw [hpr] at h
    refine ⟨OpenPr.retarget pr.number base, fun head => ?_, ?_⟩
    · rw [openPr, h, List.find?_map]
      congr 2
      funext q
      simp only [comp_apply, OpenPr.retarget]
      split <;> rfl
    · rintro q ⟨⟩
      rw [OpenPr.retarget, if_pos rfl]

theorem assessedBranch_congr (hs : w'.sessions = w.sessions)
    (hpr : ∀ head, (w'.openPr head).isSome = (w.openPr head).isSome) (p : StackNode) :
    w'.assessedBranch p = w.assessedBranch p := by
  have hbranch : (w'.viewOf p).branch = (w.viewOf p).branch := by
    show (w'.branchOf p).getD "" = (w.branchOf p).getD ""
    rw [branchOf, branchOf, hs]
  have hmerged : (w'.viewOf p).pr = .merged ↔ (w.viewOf p).pr = .merged := by
    show w'.prOf p (w'.viewOf p).branch = .merged ↔ w.prOf p (w.viewOf p).branch = .merged
    rw [hbranch, prOf, prOf]
    split
    · exact Iff.rfl
    have := hpr (w.viewOf p).branch
    rcases h : w.openPr (w.viewOf p).branch with _ | pr <;> rcases h' : w'.openPr (w.viewOf p).branch with _ | pr'
    · exact Iff.rfl
    · simp [h, h'] at this
    · simp [h, h'] at this
    · exact ⟨nofun, nofun⟩
  unfold assessedBranch NodeView.baseOffer
  rw [hbranch]
  simp only [hmerged]

theorem findSome_same (h : ∀ id, (s'.node id).map StackNode.identity = (s.node id).map StackNode.identity)
    (hf : ∀ n, f n.identity = f n) (parents : List String) :
    (parents.filterMap s'.node).findSome? f = (parents.filterMap s.node).findSome? f := by
  have hbind : ∀ o : Option StackNode, (o.map identity).bind f = o.bind f := by
    intro o
    cases o with
    | none => rfl
    | some n => exact hf n
  rw [← List.head?_filterMap, ← List.head?_filterMap, List.filterMap_filterMap, List.filterMap_filterMap]
  congr 1
  refine List.filterMap_congr fun id _ => ?_
  rw [← hbind, h, hbind]

def writtenBase (defaultBranch : String) (n : StackNode) (pr : OpenPr) (parents : List StackNode) : String :=
  match n.branch with
  | some _ => recordedBase defaultBranch parents
  | none => pr.baseBranch

theorem writtenBase_iff (w : World) (defaultBranch : String) (n : StackNode) (pr : OpenPr) (parents : List StackNode) :
    baseBranch (writtenBase defaultBranch n pr parents) = baseBranch (w.expectedBase defaultBranch parents) ↔
      RepointConverges w defaultBranch n pr parents := by
  unfold writtenBase RepointConverges
  cases n.branch with
  | some branch => exact basesMeet_iff w defaultBranch parents
  | none => exact Iff.rfl

section Realigned

variable {w w' : World} {n : StackNode} {parents : List String} {defaultBranch branch : String} {pr : OpenPr}
  (h : Realigned w n parents defaultBranch w')
include h

theorem Realigned.openPr (hb : w.branchOf n = some branch) (hpr : w.openPr branch = some pr) : ∃ f : OpenPr → OpenPr,
    (∀ head, w'.openPr head = (w.openPr head).map f) ∧
      (f pr).baseBranch = writtenBase defaultBranch n pr (parents.filterMap w.stack.node) := by
  have hopen := h.openPrs
  unfold writtenBase
  cases hown : n.branch with
  | none =>
    rw [hown] at hopen
    refine ⟨id, fun head => ?_, rfl⟩
    rw [Option.map_id_fun, id, World.openPr, hopen, World.openPr]
  | some own =>
    rw [hown] at hopen
    obtain ⟨f, hf, hbase⟩ := openPr_retargeted hopen
    have hself : own = branch := by
      rw [branchOf, hown] at hb
      exact Option.some_inj.mp hb
    refine ⟨f, hf, ?_⟩
    obtain ⟨n', hn', hid, -, hp⟩ := h.plan.node
    rw [hbase pr (hself ▸ hpr), ← hid, effectiveBase_eq h.plan.wellFormed.ids hn', recordedBase, Stack.parentNodes, hp,
      findSome_same h.plan.same (fun _ => rfl), recordedBase]

theorem Realigned.reportedKind_iff (hb : w.branchOf n = some branch) (hne : branch ≠ "")
    (hpr : w.openPr branch = some pr) : w'.reportedKind n.nodeId defaultBranch ≠ some "needs-repoint" ↔
      RepointConverges w defaultBranch n pr (parents.filterMap w.stack.node) := by
  obtain ⟨n', hn', hid, hsame, hp⟩ := h.plan.node
  obtain ⟨order, horder⟩ := Stack.topoOrder_ok_iff.mpr ⟨h.plan.wellFormed.ids, h.plan.wellFormed.acyclic⟩
  obtain ⟨f, hf, hbase⟩ := h.openPr hb hpr
  have hbranch : w'.branchOf n' = some branch := by
    have : w'.branchOf n'.identity = w.branchOf n.identity := by
      rw [hsame, branchOf, branchOf, h.sessions]
    exact this.trans hb
  have hview : (w'.viewOf n').pr = .open (f pr).number (f pr).baseBranch := by
    show w'.prOf n' ((w'.branchOf n').getD "") = _
    rw [hbranch, Option.getD_some, prOf, if_neg hne, hf, hpr]
    rfl
  have hassessed : w'.assessedBranch = w.assessedBranch := funext fun p =>
    assessedBranch_congr h.sessions (fun head => by rw [hf, Option.isSome_map]) p
  rw [← hid, reportedKind_ne_iff horder h.plan.wellFormed.ids hn', hview, hp, ← writtenBase_iff, ← hbase,
    expectedBase, findSome_same h.plan.same (fun _ => rfl), hassessed, ← expectedBase]
  constructor
  · exact fun hall => hall _ _ rfl
  · rintro he _ _ ⟨⟩
    exact he

end Realigned

/-- After an answered change of its parents, a node with an open pull request is not reported as needing
    a repoint exactly under `RepointConverges`. -/
theorem repoint_converges_iff {w : World} (hw : w.stack.WellFormed) {n : StackNode} (hn : n ∈ w.stack.nodes)
    {branch : String} (hb : w.branchOf n = some branch) (hne : branch ≠ "") {pr : OpenPr}
    (hpr : w.openPr branch = some pr) {change : ParentChange} {defaultBranch : String}
    (hok : (exec (change.run n.nodeId defaultBranch) w).1.isOk = true) :
    (exec (change.run n.nodeId defaultBranch) w).2.reportedKind n.nodeId defaultBranch ≠ some "needs-repoint" ↔
      RepointConverges w defaultBranch n pr ((change.parents w.stack n).filterMap w.stack.node) := by
  obtain ⟨r, hr⟩ : ∃ r, (exec (change.run n.nodeId defaultBranch) w).1 = .ok r := by
    cases h : (exec (change.run n.nodeId defaultBranch) w).1 with
    | ok r => exact ⟨r, rfl⟩
    | error e => rw [h] at hok; cases hok
  exact (change_answers hw hn change defaultBranch r _ (Prod.ext hr rfl)).reportedKind_iff hb hne hpr

def childNode : StackNode := StackNode.mk "b" "" "" none (some "feature/b") none ["a"] none none none none

def childOnParent (recorded : Option String) : World where
  changeset := some { stack := some ⟨1, [
    StackNode.mk "a" "" "" none recorded (some "session-a") [] none none none none, childNode]⟩ }
  sessions := fun id => if id = "session-a" then some { branch := some "feature/a" } else none
  openPrs := [⟨7, "feature/b", "main"⟩]

theorem childOnParent_wellFormed (recorded : Option String) : (childOnParent recorded).stack.WellFormed := by
  have horder : (childOnParent recorded).stack.topoOrder = .ok ["a", "b"] :=
    (Stack.topoOrder_congr rfl).trans (by decide : (childOnParent none).stack.topoOrder = _)
  obtain ⟨hids, hacyclic⟩ := Stack.topoOrder_ok_iff.mp ⟨_, horder⟩
  refine ⟨hids, ?_, hacyclic⟩
  simp [childOnParent, childNode, World.stack, Stack.ids]

theorem repoint_converges_on_a_recorded_branch :
    (exec (ParentChange.run "b" "main" (.set ["a"])) (childOnParent (some "feature/a"))).2.reportedKind "b" "main" =
      some "up-to-date" ∧
    RepointConverges (childOnParent (some "feature/a")) "main" childNode ⟨7, "feature/b", "main"⟩
      ((ParentChange.parents (childOnParent (some "feature/a")).stack childNode (.set ["a"])).filterMap
        (childOnParent (some "feature/a")).stack.node) :=
  ⟨by decide, (repoint_converges_iff (childOnParent_wellFormed _) (by decide)
    (by decide : (childOnParent (some "feature/a")).branchOf childNode = some "feature/b") (by decide) (by decide)
    (by decide)).mp (by decide)⟩

/-- The parent's branch is only in its session: the repoint writes `main`, the assessment expects `feature/a`. -/
theorem needs_repoint_after_repoint : ¬ ∀ (w : World) (n : StackNode) (branch : String) (pr : OpenPr)
    (change : ParentChange) (defaultBranch : String), w.stack.WellFormed → n ∈ w.stack.nodes →
    w.branchOf n = some branch → branch ≠ "" → w.openPr branch = some pr →
    (exec (change.run n.nodeId defaultBranch) w).1.isOk = true →
    (exec (change.run n.nodeId defaultBranch) w).2.reportedKind n.nodeId defaultBranch ≠ some "needs-repoint" := by
  intro h
  refine h (childOnParent none) childNode "feature/b" ⟨7, "feature/b", "main"⟩ (.set ["a"]) "main"
    (childOnParent_wellFormed _) (by decide) (by decide) (by decide) (by decide) (by decide) ?_
  decide

end TddyCoder.PrStack
