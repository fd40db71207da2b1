/-
  TddyCoder.PrStack.Views — a stack as the orchestrator assesses it
  (`packages/tddy-pr-stack/src/assess.rs`) and the action-needed signal derived from that
  (`packages/tddy-workflow-recipes/src/orchestrate_pr_stack/internal_status.rs`).

  `assembleViews` reads, for every node in topological order, its branch, its child session's
  progress and the branch's pull request. Errors are modelled by their messages.
-/

import TddyCoder.PrStack.Nodes
import TddyCoder.PrStack.Session

namespace TddyCoder.PrStack

open Prog List

inductive ChildPhase where
  | notSpawned
  | spawnRequested
  | building
  | readyForPr
  | prOpen
  | failed (reason : String)
  deriving DecidableEq

inductive PrLiveStatus where
  | none
  | open (number : Nat) (base : String)
  | queued
  | merged
  | closed
  deriving DecidableEq

structure NodeView where
  nodeId : String
  /-- Empty when the node owns no branch yet. -/
  branch : String
  parentDepIds : List String
  childSessionId : Option String
  childState : Option String
  childPhase : ChildPhase
  pr : PrLiveStatus
  deriving DecidableEq

/-! ## Assembling -/

variable (node : StackNode)

def resolveStackNodeBranch : Prog World String (Option String) :=
  match node.branch with
  | some branch => pure (some branch)
  | none =>
    match node.sessionId with
    | none => pure none
    | some sessionId => do
      let changeset ← attempt (readSession sessionId)
      pure (changeset.bind (·.branch))

def workflowStateToChildPhase (state : String) : ChildPhase :=
  if state = "Done" ∨ state = "End" then .readyForPr
  else if state = "Failed" ∨ state = "Error" then .failed state
  else .building

def childProgress : Prog World String (Option String × ChildPhase) :=
  match node.sessionId with
  | some sessionId => do
    match ← attempt (readSession sessionId) with
    | some changeset => pure (some changeset.state, workflowStateToChildPhase changeset.state)
    | none => pure (none, .building)
  | none => do
    let w ← get
    pure (none, if w.spawnRequests.contains node.nodeId then .spawnRequested else .notSpawned)

def recordedPr : Option GithubPrStatus → PrLiveStatus
  | some status =>
    if status.phase = "merged" then .merged else if status.phase = "closed" then .closed else .none
  | none => .none

def livePr (branch : String) : Prog World String PrLiveStatus :=
  if branch = "" then pure .none
  else do
    match ← getOpenPr branch with
    | some pr => pure (.open pr.number pr.baseBranch)
    | none => pure (recordedPr node.prStatus)

def assembleView : Prog World String NodeView := do
  let branch ← resolveStackNodeBranch node
  let child ← childProgress node
  let pr ← livePr node (branch.getD "")
  pure {
    nodeId := node.nodeId
    branch := branch.getD ""
    parentDepIds := node.parents
    childSessionId := node.sessionId
    childState := child.1
    childPhase := child.2
    pr := pr }

def assembleViews (s : Stack) : Prog World String (List NodeView) := do
  let order ← mapErr WorkflowError.display (check s.topoOrder)
  (order.filterMap s.node).mapM assembleView

/-! ## Deriving -/

variable (views : List NodeView) (nodeId : String)

def viewNamed : Option NodeView := views.find? (·.nodeId == nodeId)

def NodeView.baseOffer (v : NodeView) : Option String :=
  if v.branch = "" then none else if v.pr = .merged then none else some v.branch

def effectiveBaseRef (views : List NodeView) (defaultBranch : String) : String :=
  match viewNamed views nodeId with
  | none => defaultBranch
  | some node =>
    if node.parentDepIds.isEmpty then defaultBranch
    else (node.parentDepIds.findSome? fun id => (viewNamed views id).bind NodeView.baseOffer).getD defaultBranch

/-- `base_branch`: a pull request's base and an effective base ref compared as branch names. -/
def baseBranch (reference : String) : String := Text.dropPrefix "origin/" reference

def allParentsMerged (view : NodeView) (views : List NodeView) : Bool :=
  view.parentDepIds.all fun id => (viewNamed views id).any fun parent => parent.pr == .merged

def derivedKind (defaultBranch : String) (view : NodeView) : String :=
  match view.pr with
  | .merged => "merged"
  | .open _ base =>
    if baseBranch base ≠ baseBranch (effectiveBaseRef view.nodeId views defaultBranch) then "needs-repoint"
    else if allParentsMerged view views then "ready-to-merge"
    else "up-to-date"
  | .none | .queued | .closed => "up-to-date"

def deriveInternalStatus (defaultBranch : String) : List (String × PrInternalStatus) :=
  views.map fun view => (view.nodeId, ⟨derivedKind views defaultBranch view, none, "derived"⟩)

variable (w : World)

/-- The kind a node is given when the stored stack is assessed with every read answered. -/
def World.reportedKind (nodeId defaultBranch : String) : Option String :=
  match (exec (assembleViews w.stack) { w with faults := [] }).1 with
  | .error _ => none
  | .ok views => ((deriveInternalStatus views defaultBranch).find? (·.1 == nodeId)).map (·.2.kind)

/-! ## The views without faults -/

namespace World

variable (n : StackNode)

def branchOf : Option String :=
  n.branch <|> n.sessionId.bind fun id => (w.sessions id).bind (·.branch)

def openPr (branch : String) : Option OpenPr := w.openPrs.find? (·.headBranch == branch)

def progressOf : Option String × ChildPhase :=
  match n.sessionId with
  | some id =>
    match w.sessions id with
    | some changeset => (some changeset.state, workflowStateToChildPhase changeset.state)
    | none => (none, .building)
  | none => (none, if w.spawnRequests.contains n.nodeId then .spawnRequested else .notSpawned)

def prOf (branch : String) : PrLiveStatus :=
  if branch = "" then .none
  else match w.openPr branch with
    | some pr => .open pr.number pr.baseBranch
    | none => recordedPr n.prStatus

def viewOf : NodeView where
  nodeId := n.nodeId
  branch := (w.branchOf n).getD ""
  parentDepIds := n.parents
  childSessionId := n.sessionId
  childState := (w.progressOf n).1
  childPhase := (w.progressOf n).2
  pr := w.prOf n ((w.branchOf n).getD "")

end World

variable {order : List String}

section Run

variable {w : World} (hf : w.faults = []) (n : StackNode)
include hf

theorem exec_readSession (id : String) :
    exec (attempt (readSession id) : Prog World String (Option Changeset)) w = (.ok (w.sessions id), w) := by
  rw [exec_attempt, readSession, exec_call hf]
  cases h : w.sessions id <;> rfl

theorem exec_getOpenPr (branch : String) : exec (getOpenPr branch) w = (.ok (w.openPr branch), w) := exec_call hf

theorem exec_resolveStackNodeBranch : exec (resolveStackNodeBranch n) w = (.ok (w.branchOf n), w) := by
  unfold resolveStackNodeBranch World.branchOf
  cases n.branch with
  | some branch => rfl
  | none =>
    cases n.sessionId with
    | none => rfl
    | some id =>
      rw [exec_bind_ok (exec_readSession hf id)]
      rfl

theorem exec_childProgress : exec (childProgress n) w = (.ok (w.progressOf n), w) := by
  unfold childProgress World.progressOf
  cases n.sessionId with
  | none => rfl
  | some id =>
    simp only
    rw [exec_bind_ok (exec_readSession hf id)]
    cases w.sessions id <;> rfl

theorem exec_livePr (branch : String) : exec (livePr n branch) w = (.ok (w.prOf n branch), w) := by
  unfold livePr World.prOf
  by_cases hb : branch = ""
  · rw [if_pos hb, if_pos hb]
    rfl
  · rw [if_neg hb, if_neg hb, exec_bind_ok (exec_getOpenPr hf branch)]
    cases w.openPr branch <;> rfl

theorem exec_assembleView : exec (assembleView n) w = (.ok (w.viewOf n), w) := by
  unfold assembleView
  rw [exec_bind_ok (exec_resolveStackNodeBranch hf n), exec_bind_ok (exec_childProgress hf n),
    exec_bind_ok (exec_livePr hf n _)]
  rfl

theorem assembleViews_run {s : Stack} (h : s.topoOrder = .ok order) :
    exec (assembleViews s) w = (.ok ((order.filterMap s.node).map w.viewOf), w) := by
  have hcheck : exec (mapErr WorkflowError.display (check s.topoOrder) : Prog World String _) w = (.ok order, w) := by
    rw [exec_mapErr, exec_check, h]
  unfold assembleViews
  rw [exec_bind_ok hcheck]
  exact exec_mapM (exec_assembleView hf) _

end Run

/-! ## The status of a node -/

namespace World

def assessedBranch (w : World) (p : StackNode) : Option String := (w.viewOf p).baseOffer

def expectedBase (w : World) (defaultBranch : String) (parents : List StackNode) : String :=
  (parents.findSome? w.assessedBranch).getD defaultBranch

end World

theorem find_ordered (s : Stack) {id : String} (h : id ∈ order) :
    (order.filterMap s.node).find? (·.nodeId == id) = s.node id := by
  induction order with
  | nil => cases h
  | cons v order ih =>
    by_cases hv : v = id
    · subst hv
      cases hnode : s.node v with
      | none =>
        refine find?_eq_none.mpr fun m hm => ?_
        obtain ⟨u, -, hu⟩ := mem_filterMap.mp hm
        obtain ⟨hmem, rfl⟩ := Stack.node_mem hu
        have := Stack.node_eq_none_iff.mp hnode
        intro he
        exact this (Stack.mem_ids.mpr ⟨m, hmem, by simpa using he⟩)
      | some m =>
        have hid := (Stack.node_mem hnode).2
        rw [filterMap_cons_some hnode, find?_cons_of_pos (by simpa using hid)]
    · have hin : id ∈ order := (mem_cons.mp h).resolve_left (Ne.symm hv)
      cases hnode : s.node v with
      | none => rw [filterMap_cons_none hnode, ih hin]
      | some m =>
        have hid := (Stack.node_mem hnode).2
        rw [filterMap_cons_some hnode, find?_cons_of_neg (by simpa [hid] using hv), ih hin]

section Status

variable {w : World} {order : List String} (h : w.stack.topoOrder = .ok order) {n : StackNode}
include h

theorem viewNamed_views (id : String) :
    viewNamed ((order.filterMap w.stack.node).map w.viewOf) id = (w.stack.node id).map w.viewOf := by
  unfold viewNamed
  rw [find?_map]
  show ((order.filterMap w.stack.node).find? (·.nodeId == id)).map w.viewOf = _
  by_cases hid : id ∈ w.stack.ids
  · rw [find_ordered w.stack ((Stack.topoOrder_mem h id).mpr hid)]
  rw [Stack.node_eq_none_iff.mpr hid, Option.map_none, Option.map_eq_none_iff, find?_eq_none]
  intro m hm he
  obtain ⟨u, -, hu⟩ := mem_filterMap.mp hm
  exact hid (Stack.mem_ids.mpr ⟨m, (Stack.node_mem hu).1, by simpa using he⟩)

theorem effectiveBaseRef_views (hn : w.stack.node n.nodeId = some n) (defaultBranch : String) :
    effectiveBaseRef n.nodeId ((order.filterMap w.stack.node).map w.viewOf) defaultBranch =
      w.expectedBase defaultBranch (n.parents.filterMap w.stack.node) := by
  have hoffers : (n.parents.findSome? fun id =>
      (viewNamed ((order.filterMap w.stack.node).map w.viewOf) id).bind NodeView.baseOffer) =
      (n.parents.filterMap w.stack.node).findSome? w.assessedBranch := by
    rw [← head?_filterMap, ← head?_filterMap, filterMap_filterMap]
    congr 1
    refine filterMap_congr fun id _ => ?_
    rw [viewNamed_views h, Option.bind_map]
    rfl
  unfold effectiveBaseRef
  rw [viewNamed_views h, hn]
  show (if n.parents.isEmpty then defaultBranch else (n.parents.findSome? _).getD defaultBranch) = _
  rw [hoffers, World.expectedBase]
  split
  · rename_i he
    rw [isEmpty_iff.mp he]
    rfl
  · rfl

theorem reportedKind_ne_iff (hids : w.stack.ids.Nodup) (hn : n ∈ w.stack.nodes)
    (defaultBranch : String) :
    w.reportedKind n.nodeId defaultBranch ≠ some "needs-repoint" ↔ ∀ number base, (w.viewOf n).pr = .open number base →
      baseBranch base = baseBranch (w.expectedBase defaultBranch (n.parents.filterMap w.stack.node)) := by
  have hnode := Stack.node_of_mem hids hn
  let views := (order.filterMap w.stack.node).map w.viewOf
  have hkind : w.reportedKind n.nodeId defaultBranch = some (derivedKind views defaultBranch (w.viewOf n)) := by
    have hrun : exec (assembleViews w.stack) { w with faults := [] } = _ := assembleViews_run rfl h
    have hview : views.find? (·.nodeId == n.nodeId) = some (w.viewOf n) := by
      have := viewNamed_views h n.nodeId
      rw [hnode] at this
      exact this
    unfold World.reportedKind
    rw [hrun]
    show ((deriveInternalStatus views defaultBranch).find? _).map _ = _
    rw [deriveInternalStatus, find?_map]
    show Option.map _ (Option.map _ (views.find? (·.nodeId == n.nodeId))) = _
    rw [hview]
    rfl
  rw [hkind]
  unfold derivedKind
  cases hpr : (w.viewOf n).pr with
  | «open» number base =>
    simp only
    rw [show (w.viewOf n).nodeId = n.nodeId from rfl, effectiveBaseRef_views h hnode]
    constructor
    · intro hne _ _ he
      cases he
      by_contra hbase
      rw [if_pos hbase] at hne
      exact hne rfl
    · intro hbase
      rw [if_neg (not_not.mpr (hbase number base rfl))]
      split <;> decide
  | _ => simp

end Status

end TddyCoder.PrStack
