/-
  TddyCoder.PrStack.Concurrent — several writers of one stack, each in two steps.

  `add_planned_pr_node`, `set_stack_node_parents` and `delete_planned_pr_node` check a
  snapshot and later run their `update_stack_atomic` closure on the stack as it is by then. The
  interleavings are those of `TddyCoder.Concurrency.CheckThenAct`, with each operation's check as
  the look and its closure as the act.

  Proved: `run_wellFormed`, if each closure finds its check still true; else `adds_collide`.
-/

import TddyCoder.Concurrency.CheckThenAct
import TddyCoder.PrStack.Ops

namespace TddyCoder.PrStack

open Concurrency AddPlannedPrInput

inductive Call where
  | add (input : AddPlannedPrInput)
  | setParents (nodeId : String) (parents : List String)
  | delete (nodeId : String)

inductive Commit where
  | append (node : StackNode)
  | setParents (nodeId : String) (parents : List String)
  | delete (nodeId : String)
  deriving DecidableEq

def Call.look : Call → Stack → Option Commit
  | .add input, s => (checkAdd s input).toOption.map .append
  | .setParents nodeId parents, s => (checkSetParents s nodeId parents).toOption.map fun _ => .setParents nodeId parents
  | .delete nodeId, s => (checkDelete s nodeId).toOption.map fun _ => .delete nodeId

def Commit.run : Commit → Stack → Stack
  | .append node, s => (appendNode node s).2
  | .setParents nodeId parents, s => PrStack.setParents nodeId parents s
  | .delete nodeId, s => (deleteNode nodeId s).2

/-- What the check asked, of the stack as it is by now. -/
def Commit.StillValid : Commit → Stack → Prop
  | .append node, s => node.nodeId ∉ s.ids ∧ ∀ p ∈ node.parents, p ∈ s.ids
  | .setParents nodeId parents, s =>
    nodeId ∈ s.ids → (∀ p ∈ parents, p ∈ s.ids) ∧ Graph.Acyclic (rewriteParents nodeId parents s).deps
  | .delete _, _ => True

/-- Calls in any interleaving, a closure run only where `ok` holds. -/
def Interleaves (ok : Commit → Stack → Prop) (s₀ : Stack) (st : Shared Stack Call Commit) : Prop :=
  Run Call.look (fun _ c s => c.run s) (fun _ c s => ok c s) (.start s₀) st

/-! ## One closure on a well-formed stack -/

variable {s : Stack}

theorem append_wellFormed_iff (hw : s.WellFormed) (node : StackNode) :
    (appendNode node s).2.WellFormed ↔ node.nodeId ∉ s.ids ∧ ∀ p ∈ node.parents, p ∈ s.ids := by
  have hids := (Stack.assign_samePlan s).ids
  constructor
  · intro h
    have hnodup := h.ids
    have happ : (appendNode node s).2.ids = s.ids ++ [node.nodeId] := by
      rw [← hids]
      simp [appendNode, Stack.ids]
    rw [happ] at hnodup
    refine ⟨fun hm => (List.nodup_append.mp hnodup).2.2 _ hm _ (by simp) rfl, ?_⟩
    intro p hp
    have hmem : { node with displayOrder := some s.assignMissingDisplayOrder.nextDisplayOrder } ∈
        (appendNode node s).2.nodes := List.mem_append_right _ (by simp)
    have hpar := h.parents _ hmem p hp
    rw [happ] at hpar
    rcases List.mem_append.mp hpar with hpar | hpar
    · exact hpar
    -- a node that named itself would be a cycle of one
    rw [List.mem_singleton] at hpar
    refine absurd (edge_deps_iff.mpr ⟨?_, _, hmem, rfl, ?_⟩) (Graph.acyclic_no_self h.acyclic node.nodeId)
    · rw [happ]
      simp
    · exact hpar ▸ hp
  · rintro ⟨hfresh, hp⟩
    exact wellFormed_append (wellFormed_assign hw) (hids.symm ▸ hfresh) fun p h => hids.symm ▸ hp p h

theorem setParents_wellFormed_iff (hw : s.WellFormed) (id : String) (parents : List String) :
    (setParents id parents s).WellFormed ↔
      (id ∈ s.ids → (∀ p ∈ parents, p ∈ s.ids) ∧ Graph.Acyclic (rewriteParents id parents s).deps) := by
  have hplan : (setParents id parents s).SamePlan (rewriteParents id parents s) :=
    (Stack.assign_samePlan s).modifyNode (f := fun n => { n with parents := parents }) (fun _ => rfl) id
  constructor
  · intro h hid
    obtain ⟨n, hn, hnid⟩ := Stack.mem_ids.mp hid
    have h : (rewriteParents id parents s).WellFormed := wellFormed_congr hplan.deps h
    refine ⟨fun p hp => ?_, h.acyclic⟩
    have hmem : { n with parents := parents } ∈ (rewriteParents id parents s).nodes := by
      unfold rewriteParents
      rw [Stack.modifyNode_nodes hw.ids]
      exact List.mem_map.mpr ⟨n, hn, if_pos hnid⟩
    have := h.parents _ hmem p hp
    rwa [ids_rewriteParents] at this
  · intro h
    refine wellFormed_congr hplan.deps.symm ?_
    by_cases hid : id ∈ s.ids
    · exact wellFormed_setParents hw (h hid).1 (h hid).2
    · unfold rewriteParents
      rw [Stack.modifyNode_of_not_mem hid]
      exact hw

/-- A closure keeps a well-formed stack well-formed exactly when its check is still true there. -/
theorem commit_wellFormed_iff (hw : s.WellFormed) (c : Commit) :
    (c.run s).WellFormed ↔ c.StillValid s := by
  cases c with
  | append node => exact append_wellFormed_iff hw node
  | setParents id parents => exact setParents_wellFormed_iff hw id parents
  | delete id => exact ⟨fun _ => trivial, fun _ => wellFormed_remove (wellFormed_assign hw) id⟩

/-! ## Every interleaving -/

/-- If each closure finds what its check established still true, any number of writers leave the stack
    well-formed, however their steps interleave. -/
theorem run_wellFormed {s₀ : Stack} {st : Shared Stack Call Commit} (h₀ : s₀.WellFormed)
    (h : Interleaves Commit.StillValid s₀ st) : st.stored.WellFormed :=
  run_keeps (fun _ c _ hw hok => (commit_wellFormed_iff hw c).mpr hok) h h₀

theorem wellFormed_after_stacked_adds : Stack.WellFormed
    ((Commit.append (AddPlannedPrInput.node ⟨"", "", none, ["n1"]⟩ "n2")).run
      ((Commit.append (AddPlannedPrInput.node ⟨"", "", none, []⟩ "n1")).run {})) := by
  let first : Commit := .append (node ⟨"", "", none, []⟩ "n1")
  have hfirst : (Call.add ⟨"", "", none, []⟩).look {} = some first := by decide
  have hsecond : (Call.add ⟨"", "", none, ["n1"]⟩).look (first.run {}) =
      some (.append (node ⟨"", "", none, ["n1"]⟩ "n2")) := by decide
  exact run_wellFormed (wellFormed_of_nil rfl)
    (run_in_turn hfirst ⟨by decide, by decide⟩ hsecond ⟨by decide, by decide⟩)

/-- Two appends that read the same stack choose the same id, and both are written. -/
theorem adds_collide : ¬ ∀ s₀ st, s₀.WellFormed → Interleaves (fun _ _ => True) s₀ st → st.stored.WellFormed := by
  intro h
  let input : AddPlannedPrInput := ⟨"", "", none, []⟩
  let node := input.node "n1"
  have hlook : (Call.add input).look {} = some (.append node) := by decide
  have := (h _ _ (wellFormed_of_nil rfl) (run_crossed hlook hlook trivial trivial)).ids
  revert this
  decide

end TddyCoder.PrStack
