/-
  TddyCoder.PrStack.Plan — a stack plan and what accepts it
  (`packages/tddy-workflow-recipes/src/plan_pr_stack/mod.rs`).

  `validateStackPlan` reports the first failure of four checks: duplicate ids, parents that name
  no PR, cycles, and the branch-name contract (`feature/<stack>/<node>`, one shared stack).
  `debugString` is `{:?}` of a string for printable text.
-/

import TddyCoder.PrStack.Stack
import TddyCoder.Text.Str

namespace TddyCoder.PrStack

open List

structure PlannedPr where
  nodeId : String
  title : String
  description : String
  branchSuggestion : Option String
  parents : List String
  deriving DecidableEq

structure StackPlanOutput where
  version : Nat
  prs : List PlannedPr
  deriving DecidableEq

/-- The node of a planned PR at an array position; `position as u32` keeps 32 bits. -/
def PlannedPr.intoStackNode (pr : PlannedPr) (position : Nat) : StackNode where
  nodeId := pr.nodeId
  title := pr.title
  description := pr.description
  branchSuggestion := pr.branchSuggestion
  branch := none
  sessionId := none
  parents := pr.parents
  prStatus := none
  childState := none
  internalStatus := none
  displayOrder := some (position % 2 ^ 32)

def plannedPrsIntoStackNodes (prs : List PlannedPr) : List StackNode := prs.mapIdx fun position pr =>
  pr.intoStackNode position

variable (plan : StackPlanOutput)

def StackPlanOutput.stack : Stack := ⟨plan.version, plannedPrsIntoStackNodes plan.prs⟩

def duplicateNodeId : List String → List PlannedPr → Option String
  | _, [] => none
  | seen, pr :: prs => if seen.contains pr.nodeId then some pr.nodeId else duplicateNodeId (pr.nodeId :: seen) prs

def danglingParent (prs : List PlannedPr) : Option (String × String) :=
  prs.findSome? fun pr =>
    (pr.parents.find? fun parent => !(prs.map (·.nodeId)).contains parent).map fun parent => (parent, pr.nodeId)

def branchStackNamespace (branch : String) : Option String :=
  let segments := Text.split '/' branch
  if segments.length ≥ 3 ∧ segments[0]? = some "feature" ∧ segments.all (fun s => !s.isEmpty) = true then
    segments[1]?.map fun stack => "feature/" ++ stack
  else none

def debugChar (c : Char) : List Char :=
  match c with
  | '"' => ['\\', '"']
  | '\\' => ['\\', '\\']
  | '\n' => ['\\', 'n']
  | '\r' => ['\\', 'r']
  | '\t' => ['\\', 't']
  | c => if c.toNat = 0 then ['\\', '0'] else [c]

def debugString (s : String) : String := String.ofList ('"' :: s.toList.flatMap debugChar ++ ['"'])

def nonBlank (value : Option String) : Option String := (value.map Text.trim).filter fun v => !v.isEmpty

def checkNamespaces : Option String → List PlannedPr → Except String Unit
  | _, [] => .ok ()
  | stackNamespace, pr :: prs =>
    match nonBlank pr.branchSuggestion with
    | none => .error ("missing branch_suggestion for node " ++ pr.nodeId)
    | some branch =>
      match branchStackNamespace branch with
      | none =>
        .error ("branch_suggestion " ++ debugString branch ++ " for node " ++ pr.nodeId
          ++ " must be in feature/<stack>/<node> form")
      | some ns =>
        match stackNamespace with
        | none => checkNamespaces (some ns) prs
        | some existing =>
          if existing ≠ ns then
            .error ("branches must share one stack namespace: " ++ existing ++ " vs " ++ ns ++ " (node " ++ pr.nodeId
              ++ ")")
          else checkNamespaces stackNamespace prs

def validateStackPlan : Except String Unit :=
  match duplicateNodeId [] plan.prs with
  | some nodeId => .error ("duplicate node_id: " ++ nodeId)
  | none =>
    match danglingParent plan.prs with
    | some (parent, nodeId) => .error ("dangling parent ref: " ++ parent ++ " in node " ++ nodeId)
    | none =>
      match plan.stack.topoOrder with
      | .error err => .error ("cycle detected: " ++ err.display)
      | .ok _ => checkNamespaces none plan.prs

/-! ## What an accepted plan guarantees -/

theorem ids_plan : plan.stack.ids = plan.prs.map (·.nodeId) := by
  refine ext_getElem ?_ ?_
  · simp [Stack.ids, StackPlanOutput.stack, plannedPrsIntoStackNodes]
  · intro i _ _
    simp [Stack.ids, StackPlanOutput.stack, plannedPrsIntoStackNodes, PlannedPr.intoStackNode]

variable {plan : StackPlanOutput}

theorem mem_plan_nodes {n : StackNode} (h : n ∈ plan.stack.nodes) :
    ∃ pr ∈ plan.prs, ∃ position, n = pr.intoStackNode position := by
  obtain ⟨i, hi, he⟩ := mem_mapIdx.mp h
  exact ⟨plan.prs[i], getElem_mem hi, i, he.symm⟩

theorem duplicateNodeId_eq_none {seen : List String} {prs : List PlannedPr} (h : duplicateNodeId seen prs = none) :
    (prs.map (·.nodeId)).Nodup ∧ ∀ pr ∈ prs, pr.nodeId ∉ seen := by
  induction prs generalizing seen with
  | nil => simp
  | cons pr prs ih =>
    unfold duplicateNodeId at h
    split at h
    · cases h
    rename_i hseen
    obtain ⟨hnodup, hfresh⟩ := ih h
    have hpr : pr.nodeId ∉ prs.map (·.nodeId) := by
      intro hm
      obtain ⟨q, hq, e⟩ := mem_map.mp hm
      exact hfresh q hq (by simp [e])
    refine ⟨nodup_cons.mpr ⟨hpr, hnodup⟩, forall_mem_cons.mpr ⟨by simpa using hseen, ?_⟩⟩
    exact fun q hq hm => hfresh q hq (mem_cons_of_mem _ hm)

theorem validate_ok (h : validateStackPlan plan = .ok ()) :
    plan.stack.ids.Nodup ∧ (∀ n ∈ plan.stack.nodes, ∀ p ∈ n.parents, p ∈ plan.stack.ids) ∧
      ∃ order, plan.stack.topoOrder = .ok order := by
  unfold validateStackPlan at h
  split at h
  · cases h
  rename_i hdup
  split at h
  · cases h
  rename_i hdangling
  split at h
  · cases h
  rename_i order horder
  refine ⟨?_, ?_, order, horder⟩
  · rw [ids_plan]
    exact (duplicateNodeId_eq_none hdup).1
  intro n hn p hp
  obtain ⟨pr, hpr, position, rfl⟩ := mem_plan_nodes hn
  rw [ids_plan]
  have hnone := findSome?_eq_none_iff.mp hdangling pr hpr
  rw [Option.map_eq_none_iff, find?_eq_none] at hnone
  simpa using hnone p hp

end TddyCoder.PrStack
