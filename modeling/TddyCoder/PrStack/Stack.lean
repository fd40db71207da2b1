/-
  TddyCoder.PrStack.Stack — the PR-stack DAG an orchestrator session carries
  (`packages/tddy-changeset/src/changeset/stack.rs` and `model.rs`).

  `topoOrder` is Kahn's sort with the queue seeded in the lexicographic order of the ids; a
  parent id that names no node is no edge. `displayOrder` sorts stably by (recorded position,
  topological or declaration index, id). `display_order` is a `u32`, kept here as a `Nat`; the
  places that add to one saturate at `u32Max`.

  Proved: `topo_order_sorts_exactly_the_acyclic`.
-/

import TddyCoder.Graph.Kahn

namespace TddyCoder.PrStack

open List

def u32Max : Nat := 2 ^ 32 - 1

/-- `u32::saturating_add(1)`. -/
def saturatingSucc (n : Nat) : Nat := min (n + 1) u32Max

/-- The variants of `WorkflowError` these operations raise. -/
inductive WorkflowError where
  | changesetMissing (reason : String)
  | changesetInvalid (reason : String)
  | writeFailed (reason : String)
  deriving DecidableEq

def WorkflowError.display : WorkflowError → String
  | .changesetMissing reason => "changeset.yaml missing: " ++ reason
  | .changesetInvalid reason => "changeset.yaml invalid: " ++ reason
  | .writeFailed reason => "artifact write failed: " ++ reason

structure GithubPrStatus where
  phase : String
  url : Option String
  error : Option String
  deriving DecidableEq

/-- The action-needed signal of a node; `source` is `derived` or `override`. -/
structure PrInternalStatus where
  kind : String
  note : Option String
  source : String
  deriving DecidableEq

structure StackNode where
  nodeId : String
  title : String
  description : String
  branchSuggestion : Option String
  /-- The actual branch, once a worktree created it. -/
  branch : Option String
  sessionId : Option String
  /-- Parent node ids. -/
  parents : List String
  prStatus : Option GithubPrStatus
  childState : Option String
  internalStatus : Option PrInternalStatus
  displayOrder : Option Nat
  deriving DecidableEq

structure Stack where
  version : Nat := 0
  nodes : List StackNode := []
  deriving DecidableEq

/-- The fields of `changeset.yaml` the stack operations read or write. -/
structure Changeset where
  name : Option String := none
  /-- `state.current`. -/
  state : String := "Init"
  branch : Option String := none
  repoPath : Option String := none
  stack : Option Stack := none
  orchestratorSessionId : Option String := none
  deriving DecidableEq

def bareNode (nodeId : String) (parents : List String) : StackNode :=
  StackNode.mk nodeId "" "" none none none parents none none none none

def StackNode.isSkipped (n : StackNode) : Bool :=
  match n.prStatus with
  | some status => status.phase == "merged"
  | none => false

namespace Stack

variable (s : Stack)

def ids : List String := s.nodes.map (·.nodeId)

variable (nodeId : String)

def node : Option StackNode := s.nodes.find? (·.nodeId == nodeId)

def deps : Graph.Deps String := s.nodes.map fun n => (n.nodeId, n.parents)

def keys : List String := (Graph.ids s.deps).dedup.insertionSort (· ≤ ·)

def topoOrder : Except WorkflowError (List String) :=
  let order := Graph.kahn s.deps s.keys
  if order.length ≠ s.nodes.length then
    .error (.changesetInvalid ("cycle detected in PR-stack DAG: only " ++ Nat.repr order.length ++ " of "
      ++ Nat.repr s.nodes.length ++ " nodes orderable"))
  else .ok order

def declarationIndexOf : Nat := s.nodes.findIdx (·.nodeId == nodeId)

def topoIndex : Option Nat :=
  match s.topoOrder with
  | .ok order => order.findIdx? (· == nodeId)
  | .error _ => none

def rowKey (n : StackNode) : Nat × Nat × String :=
  (n.displayOrder.getD u32Max, (s.topoIndex n.nodeId).getD (s.declarationIndexOf n.nodeId), n.nodeId)

def keyLe (a b : Nat × Nat × String) : Prop :=
  a.1 < b.1 ∨ a.1 = b.1 ∧ (a.2.1 < b.2.1 ∨ a.2.1 = b.2.1 ∧ a.2.2 ≤ b.2.2)

instance (a b : Nat × Nat × String) : Decidable (keyLe a b) := inferInstanceAs (Decidable (_ ∨ _))

def displayOrder : List String :=
  (s.nodes.insertionSort fun a b => keyLe (s.rowKey a) (s.rowKey b)).map (·.nodeId)

/-- `iter_mut().find(..)` followed by a rewrite: the first node of this id. -/
def modifyFirst (f : StackNode → StackNode) (nodeId : String) : List StackNode → List StackNode
  | [] => []
  | n :: ns => if n.nodeId = nodeId then f n :: ns else n :: modifyFirst f nodeId ns

def modifyNode (f : StackNode → StackNode) : Stack :=
  { s with nodes := modifyFirst f nodeId s.nodes }

/-- Base refs of a node's direct parents that are not merged and own a branch, or the
    bottom base when there is none. -/
def effectiveBaseRefs (stackBottomBase : String) : List String :=
  match s.node nodeId with
  | none => [stackBottomBase]
  | some node =>
    let refs := (((node.parents.filterMap s.node).filter fun p => !p.isSkipped).filterMap (·.branch)).map
      fun branch => "origin/" ++ branch
    if refs.isEmpty then [stackBottomBase] else refs

end Stack

/-! ## The topological order -/

namespace Stack

@[simp] theorem graph_ids_deps (s : Stack) : Graph.ids s.deps = s.ids := by
  simp [Graph.ids, deps, ids]

@[simp] theorem length_deps (s : Stack) : s.deps.length = s.nodes.length := by simp [deps]

variable {s : Stack} {order : List String}

theorem mem_ids {v : String} : v ∈ s.ids ↔ ∃ n ∈ s.nodes, n.nodeId = v := by simp [ids]

theorem keys_ok (s : Stack) : Graph.Keys s.deps s.keys := by
  have hp := perm_insertionSort (· ≤ ·) (Graph.ids s.deps).dedup
  exact ⟨hp.nodup_iff.mpr (nodup_dedup _), fun v => by rw [keys, hp.mem_iff, mem_dedup]⟩

theorem topoOrder_eq_ok (h : s.topoOrder = .ok order) :
    order = Graph.kahn s.deps s.keys ∧ order.length = s.nodes.length := by
  simp only [topoOrder] at h
  split at h
  · cases h
  · rename_i hl
    cases h
    exact ⟨rfl, by simpa using hl⟩

theorem topoOrder_ok_iff : (∃ order, s.topoOrder = .ok order) ↔ s.ids.Nodup ∧ Graph.Acyclic s.deps := by
  rw [← graph_ids_deps, ← Graph.kahn_length_iff s.keys_ok, length_deps]
  constructor
  · rintro ⟨order, h⟩
    obtain ⟨rfl, hl⟩ := topoOrder_eq_ok h
    exact hl
  · intro h
    exact ⟨Graph.kahn s.deps s.keys, by simp only [topoOrder, h, ne_eq, not_true_eq_false, if_false]⟩

theorem topoOrder_congr {s' : Stack} (h : s.deps = s'.deps) : s.topoOrder = s'.topoOrder := by
  have hl : s.nodes.length = s'.nodes.length := by rw [← length_deps, ← length_deps, h]
  unfold topoOrder keys
  rw [h, hl]

theorem topoOrder_mem (h : s.topoOrder = .ok order) (v : String) : v ∈ order ↔ v ∈ s.ids := by
  have ha := (topoOrder_ok_iff.mp ⟨order, h⟩).2
  obtain ⟨rfl, -⟩ := topoOrder_eq_ok h
  constructor
  · intro hv
    rw [← graph_ids_deps]
    exact ((Graph.kahn_mem_iff s.keys_ok v).mp hv).1
  · intro hv
    exact (Graph.kahn_all_iff s.keys_ok).mpr ha v (by rw [graph_ids_deps]; exact hv)

theorem topoOrder_perm (h : s.topoOrder = .ok order) : order.Perm s.ids := by
  have hmem := topoOrder_mem h
  have hids := (topoOrder_ok_iff.mp ⟨order, h⟩).1
  obtain ⟨rfl, -⟩ := topoOrder_eq_ok h
  exact (perm_ext_iff_of_nodup (Graph.kahn_nodup s.keys_ok) hids).mpr hmem

/-- The sort succeeds exactly when no node is its own ancestor, and then it lists every id once, behind its parents. -/
theorem topo_order_sorts_exactly_the_acyclic (s : Stack) (hids : s.ids.Nodup) :
    ((∃ order, s.topoOrder = .ok order) ↔ Graph.Acyclic s.deps) ∧
      ∀ order, s.topoOrder = .ok order → order.Perm s.ids ∧
        ∀ n ∈ s.nodes, ∀ p ∈ n.parents, p ∈ s.ids → order.idxOf p < order.idxOf n.nodeId := by
  refine ⟨topoOrder_ok_iff.trans (and_iff_right hids), fun order h => ⟨topoOrder_perm h, ?_⟩⟩
  intro n hn p hp hknown
  have hn' : n.nodeId ∈ order := (topoOrder_mem h _).mpr (mem_ids.mpr ⟨n, hn, rfl⟩)
  have hedge : Graph.Edge s.deps p n.nodeId := by
    rw [Graph.edge_iff, graph_ids_deps]
    exact ⟨hknown, n.parents, mem_map.mpr ⟨n, hn, rfl⟩, hp⟩
  obtain ⟨rfl, -⟩ := topoOrder_eq_ok h
  exact Graph.closed_idx (Graph.kahn_closed s.keys_ok) hedge hn'

/-- A parent listed twice and one that is gone: the child still comes second. -/
theorem topo_order_of_a_doubled_parent :
    ∃ order, (⟨1, [bareNode "b" ["a", "a", "gone"], bareNode "a" []]⟩ : Stack).topoOrder = .ok order ∧
      order.Perm ["b", "a"] ∧ order.idxOf "a" < order.idxOf "b" := by
  have h := (topo_order_sorts_exactly_the_acyclic ⟨1, [bareNode "b" ["a", "a", "gone"], bareNode "a" []]⟩
    (by decide)).2 ["a", "b"] (by decide)
  exact ⟨_, by decide, h.1, h.2 (bareNode "b" ["a", "a", "gone"]) (by decide) "a" (by decide) (by decide)⟩

/-! ## Nodes by id -/

variable {id : String} {ns : List StackNode} {n : StackNode}

theorem node_mem (h : s.node id = some n) : n ∈ s.nodes ∧ n.nodeId = id :=
  ⟨mem_of_find?_eq_some h, by simpa using find?_some h⟩

theorem node_eq_none_iff : s.node id = none ↔ id ∉ s.ids := by
  simp [node, ids]

theorem node_of_mem (h : s.ids.Nodup) (hn : n ∈ s.nodes) : s.node n.nodeId = some n := by
  unfold node
  cases hf : s.nodes.find? (·.nodeId == n.nodeId) with
  | none =>
    have := find?_eq_none.mp hf n hn
    simp at this
  | some m =>
    have hm := mem_of_find?_eq_some hf
    have he : m.nodeId = n.nodeId := by simpa using find?_some hf
    rw [inj_on_of_nodup_map h hm hn he]

theorem modifyNode_map {β : Type} (g : StackNode → β) {f : StackNode → StackNode} (h : ∀ n, g (f n) = g n)
    (s : Stack) (id : String) : (s.modifyNode id f).nodes.map g = s.nodes.map g := by
  show (modifyFirst f id s.nodes).map g = s.nodes.map g
  induction s.nodes with
  | nil => rfl
  | cons n ns ih =>
    unfold modifyFirst
    split
    · simp [h]
    · simp [ih]

theorem modifyFirst_eq_map (f : StackNode → StackNode) (id : String)
    (h : (ns.map (·.nodeId)).Nodup) : modifyFirst f id ns = ns.map fun n => if n.nodeId = id then f n else n := by
  induction ns with
  | nil => rfl
  | cons n ns ih =>
    rw [map_cons, nodup_cons] at h
    unfold modifyFirst
    split
    · rename_i e
      -- no later node has the id, so the map changes none of them
      have hrest : ns.map (fun m => if m.nodeId = id then f m else m) = ns := by
        refine (map_congr_left fun m hm => if_neg ?_).trans (map_id' ns)
        intro e'
        exact h.1 (by rw [e, ← e']; exact mem_map_of_mem hm)
      rw [map_cons, if_pos e, hrest]
    · rename_i e
      rw [map_cons, if_neg e, ih h.2]

theorem modifyFirst_of_not_mem (f : StackNode → StackNode)
    (h : id ∉ ns.map (·.nodeId)) : modifyFirst f id ns = ns := by
  induction ns with
  | nil => rfl
  | cons n ns ih =>
    rw [map_cons, mem_cons, not_or] at h
    unfold modifyFirst
    rw [if_neg (Ne.symm h.1), ih h.2]

theorem modifyNode_of_not_mem (h : id ∉ s.ids) (f : StackNode → StackNode) : s.modifyNode id f = s := by
  unfold modifyNode
  rw [modifyFirst_of_not_mem f h]

theorem modifyNode_nodes (h : s.ids.Nodup) (id : String) (f : StackNode → StackNode) :
    (s.modifyNode id f).nodes = s.nodes.map fun n => if n.nodeId = id then f n else n :=
  modifyFirst_eq_map f id h

end Stack

end TddyCoder.PrStack
