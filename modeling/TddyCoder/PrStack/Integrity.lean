/-
  TddyCoder.PrStack.Integrity — the stored stack over whole runs of the nine writers.

  `Reach G` is every world a run can get to: it starts from an empty stack or an accepted
  plan, and each step runs one operation with any arguments in a world that agrees on the
  changeset, so GitHub, the other sessions, the local branches and the failures of the
  calls are arbitrary at every step. `G` holds of every stored stack on the way.

  Proved: `reach_integrity`, if ids and positions stay below `u32::MAX`; else
  `positions_exhausted`.
-/

import TddyCoder.PrStack.Ops

namespace TddyCoder.PrStack

open Prog List

variable (s : Stack)

/-- What the writers keep true of the stored stack. -/
structure Integrity : Prop where
  ids : s.ids.Nodup
  parents : ∀ n ∈ s.nodes, ∀ p ∈ n.parents, p ∈ s.ids ∧ p ≠ n.nodeId
  topo : ∃ order, s.topoOrder = .ok order
  numbered : s.Numbered
  distinct : s.DistinctPositions

def IdsBelow : Prop := ∀ id ∈ s.ids, ∀ k, numericId id = some k → k < u32Max

def PositionsBelow : Prop := ∀ n ∈ s.nodes, ∀ k, n.displayOrder = some k → k < u32Max

instance : Decidable (IdsBelow s) :=
  decidable_of_iff (∀ k ∈ s.ids.filterMap numericId, k < u32Max) (by simp only [mem_filterMap, IdsBelow]; grind)

instance : Decidable (PositionsBelow s) :=
  decidable_of_iff (∀ k ∈ s.nodes.filterMap StackNode.displayOrder, k < u32Max)
    (by simp only [mem_filterMap, PositionsBelow]; grind)

inductive Reach (G : Stack → Prop) : World → Prop
  | empty (w : World) (h : w.stack.nodes = []) (hG : G w.stack) : Reach G w
  | plan (w : World) (plan : StackPlanOutput) (h : validateStackPlan plan = .ok ()) (hs : w.stack = plan.stack)
      (hG : G w.stack) : Reach G w
  | step (w u : World) (op : Op) (h : Reach G w) (hu : u.changeset = w.changeset) (hG : G (op.run u).stack) :
      Reach G (op.run u)

/-! ## One step -/

variable {s : Stack}

/-- A node that named itself would be a cycle, so the two clauses on parents and the topological order
    amount to well-formedness. -/
theorem integrity_iff : Integrity s ↔ s.WellFormed ∧ s.Numbered ∧ s.DistinctPositions := by
  constructor
  · intro h
    obtain ⟨hids, hac⟩ := Stack.topoOrder_ok_iff.mp h.topo
    exact ⟨⟨hids, fun n hn p hp => (h.parents n hn p hp).1, hac⟩, h.numbered, h.distinct⟩
  intro ⟨hw, hn, hd⟩
  refine ⟨hw.ids, ?_, Stack.topoOrder_ok_iff.mpr ⟨hw.ids, hw.acyclic⟩, hn, hd⟩
  intro n hn p hp
  refine ⟨hw.parents n hn p hp, fun e => ?_⟩
  exact Graph.acyclic_no_self hw.acyclic n.nodeId
    (edge_deps_iff.mpr ⟨Stack.mem_ids.mpr ⟨n, hn, rfl⟩, n, hn, rfl, e ▸ hp⟩)

theorem numbered_iff : s.Numbered ↔ none ∉ s.nodes.map (·.displayOrder) := by
  simp only [Stack.Numbered, mem_map, not_exists, not_and, Option.isSome_iff_ne_none, ne_eq]

variable {s' : Stack} {nodes : List StackNode}

theorem positions_congr (h : (s'.nodes.map (·.displayOrder)).Sublist (s.nodes.map (·.displayOrder)))
    (hn : s.Numbered) (hd : s.DistinctPositions) : s'.Numbered ∧ s'.DistinctPositions :=
  ⟨numbered_iff.mpr fun hm => numbered_iff.mp hn (h.subset hm), hd.sublist h⟩

theorem modifyNode_positions (s : Stack) (id : String) {f : StackNode → StackNode}
    (h : ∀ n, (f n).displayOrder = n.displayOrder) :
    ((s.modifyNode id f).nodes.map (·.displayOrder)).Sublist (s.nodes.map (·.displayOrder)) := by
  rw [Stack.modifyNode_map _ h]

theorem edit_integrity (h : Edit s s') (hi : Integrity s) : Integrity s' := by
  rw [integrity_iff] at hi ⊢
  obtain ⟨hw, hn, hd⟩ := hi
  cases h with
  | touch id f hf =>
    rw [Stack.assign_eq_self hn]
    refine ⟨wellFormed_congr ?_ hw, positions_congr (modifyNode_positions s id fun n => (hf n).2.2) hn hd⟩
    exact (Stack.modifyNode_map _ (fun n => by rw [(hf n).1, (hf n).2.1]) s id).symm
  | delete id =>
    unfold deleteNode
    rw [Stack.assign_eq_self hn]
    refine ⟨wellFormed_remove hw id, positions_congr ?_ hn hd⟩
    rw [remove_map _ (fun _ _ => rfl)]
    exact eraseP_sublist.map _
  | setParents id parents hc =>
    obtain ⟨hp, ha⟩ := checkSetParents_ok hc
    unfold setParents
    rw [Stack.assign_eq_self hn]
    exact ⟨wellFormed_setParents hw hp ha, positions_congr (modifyNode_positions s id fun _ => rfl) hn hd⟩
  | repoint id target =>
    unfold repointNode
    rw [Stack.assign_eq_self hn]
    exact ⟨wellFormed_retain hw id target, positions_congr (modifyNode_positions s id fun _ => rfl) hn hd⟩
  | move id up =>
    unfold moveNode
    rw [Stack.assign_eq_self hn]
    exact ⟨wellFormed_congr (Stack.swap_samePlan s id up).deps.symm hw, Stack.swap_numbered hn id up,
      Stack.swap_distinctPositions hw.ids hd id up⟩

theorem nextDisplayOrder_gt (h : PositionsBelow s) {n : StackNode} (hn : n ∈ s.nodes) {k : Nat}
    (hk : n.displayOrder = some k) : k < s.nextDisplayOrder := by
  have hmem : k ∈ s.nodes.filterMap (·.displayOrder) := mem_filterMap.mpr ⟨n, hn, hk⟩
  unfold Stack.nextDisplayOrder
  split
  · rename_i hnone
    rw [max?_eq_none_iff] at hnone
    rw [hnone] at hmem
    cases hmem
  rename_i highest hmax
  obtain ⟨m, hm, hmk⟩ := mem_filterMap.mp (max?_mem hmax)
  have hlt := h m hm highest hmk
  have hle : k ≤ highest := (max?_eq_some_iff.mp hmax).2 k hmem
  unfold saturatingSucc
  omega

theorem append_integrity (hi : Integrity s) (hids : IdsBelow s) (hpos : PositionsBelow s) {node : StackNode}
    (hid : node.nodeId = nextFreeNodeId s) (hp : ∀ p ∈ node.parents, p ∈ s.ids) : Integrity (appendNode node s).2 := by
  rw [integrity_iff] at hi ⊢
  obtain ⟨hw, hn, hd⟩ := hi
  unfold appendNode
  rw [Stack.assign_eq_self hn]
  refine ⟨wellFormed_append hw (hid ▸ nextFreeNodeId_fresh hids) hp, ?_, ?_⟩
  · exact forall_mem_append.mpr ⟨hn, forall_mem_singleton.mpr rfl⟩
  unfold Stack.DistinctPositions
  rw [map_append]
  refine nodup_append.mpr ⟨hd, by simp, ?_⟩
  intro a ha b hb e
  obtain ⟨n, hmem, rfl⟩ := mem_map.mp ha
  have hnext := nextDisplayOrder_gt hpos hmem (e.trans (by simpa using hb))
  omega

theorem plan_integrity {plan : StackPlanOutput} (h : validateStackPlan plan = .ok ()) (hpos : PositionsBelow plan.stack) :
    Integrity plan.stack := by
  obtain ⟨hids, hparents, horder⟩ := validate_ok h
  rw [integrity_iff]
  refine ⟨⟨hids, hparents, (Stack.topoOrder_ok_iff.mp horder).2⟩, ?_, ?_⟩
  · intro n hn
    obtain ⟨pr, -, position, rfl⟩ := mem_plan_nodes hn
    rfl
  -- no position is `u32::MAX`, so the plan is shorter than 2^32 and the cast changes nothing
  have hget : ∀ i (hi : i < plan.prs.length), plan.prs[i].intoStackNode i ∈ plan.stack.nodes :=
    fun i hi => mem_mapIdx.mpr ⟨i, hi, rfl⟩
  have hlen : plan.prs.length ≤ u32Max := by
    by_contra hgt
    have hlt : u32Max < plan.prs.length := by omega
    exact absurd (hpos _ (hget u32Max hlt) u32Max rfl) (by omega)
  have hmap : plan.stack.nodes.map (·.displayOrder) = (List.range plan.prs.length).map some := by
    refine ext_getElem (by simp [StackPlanOutput.stack, plannedPrsIntoStackNodes]) ?_
    intro i h₁ h₂
    have hi : i < plan.prs.length := by simpa using h₂
    have hcast : i % 2 ^ 32 = i := Nat.mod_eq_of_lt (by unfold u32Max at hlen; omega)
    show (plannedPrsIntoStackNodes plan.prs |>.map (·.displayOrder))[i] = _
    simp only [plannedPrsIntoStackNodes, getElem_map, getElem_mapIdx, PlannedPr.intoStackNode, hcast,
      getElem_range]
  unfold Stack.DistinctPositions
  rw [hmap]
  exact nodup_range.map (Option.some_injective _)

/-! ## Every run -/

theorem empty_integrity (h : s.nodes = []) : Integrity s :=
  integrity_iff.mpr ⟨wellFormed_of_nil h, by simp [Stack.Numbered, h], by simp [Stack.DistinctPositions, h]⟩

/-- Over every run whose numeric ids and positions stay below `u32::MAX`, the stored stack keeps its
    integrity. -/
theorem reach_integrity {w : World} (h : Reach (fun s => IdsBelow s ∧ PositionsBelow s) w) : Integrity w.stack := by
  have hboth : Integrity w.stack ∧ IdsBelow w.stack ∧ PositionsBelow w.stack := by
    induction h with
    | empty w h hG => exact ⟨empty_integrity h, hG⟩
    | plan w plan h hs hG =>
      rw [hs] at hG ⊢
      exact ⟨plan_integrity h hG.2, hG⟩
    | step w u op _ hu hG ih =>
      have hstack : u.stack = w.stack := by simp [World.stack, hu]
      refine ⟨?_, hG⟩
      have hcases := run_cases op u
      rw [hstack] at hcases
      generalize (op.run u).stack = after at hcases hG ⊢
      rcases hcases with hedits | hgrowth
      · clear hG
        induction hedits with
        | refl => exact ih.1
        | tail _ he hkept => exact edit_integrity he hkept
      · cases hgrowth with
        | append node hid hp => exact append_integrity ih.1 ih.2.1 ih.2.2 hid hp
        | reseed plan hv => exact plan_integrity hv hG.2
  exact hboth.1

theorem integrity_of_two_adds : Integrity
    ((Op.add ⟨"", "", none, ["n1"]⟩).run ((Op.add ⟨"", "", none, []⟩).run { changeset := some {} })).stack :=
  reach_integrity <| .step _ _ _ (.step _ _ _ (.empty { changeset := some {} } rfl (by decide)) rfl (by decide)) rfl
    (by decide)

/-! ## Positions run out before ids do -/

open AddPlannedPrInput (node)

def plainNode (nodeId : String) (position : Nat) : StackNode :=
  { node ⟨"", "", none, []⟩ nodeId with displayOrder := some position }

def holding (nodes : List StackNode) : World := { changeset := some { stack := some { nodes := nodes } } }

theorem add_plain {id : String} (hn : Stack.Numbered ⟨0, nodes⟩)
    (hc : checkAdd ⟨0, nodes⟩ ⟨"", "", none, []⟩ = .ok (node ⟨"", "", none, []⟩ id)) :
    (Op.add ⟨"", "", none, []⟩).run (holding nodes) =
      holding (nodes ++ [plainNode id (Stack.nextDisplayOrder ⟨0, nodes⟩)]) := by
  have hassign := Stack.assign_eq_self hn
  show (exec (addPlannedPrNode _) _).2 = _
  unfold addPlannedPrNode
  rw [exec_bind_ok (checkedUpdate_run rfl rfl hc)]
  show ({ holding nodes with changeset := some { stack := some (appendNode _ ⟨0, nodes⟩).2 } } : World) = _
  unfold appendNode
  rw [hassign]
  rfl

theorem add_first : (Op.add ⟨"", "", none, []⟩).run (holding []) = holding [plainNode "n1" 0] :=
  add_plain (by simp [Stack.Numbered]) (by decide)

theorem add_second (k : Nat) : (Op.add ⟨"", "", none, []⟩).run (holding [plainNode "n1" k]) =
    holding [plainNode "n1" k, plainNode "n2" (saturatingSucc k)] := by
  have hid : nextFreeNodeId ⟨0, [plainNode "n1" k]⟩ = "n2" := by
    show "n" ++ Nat.repr (((["n1"].filterMap numericId).max?.getD 0 + 1) % 2 ^ 32) = "n2"
    decide
  have hdeps : Stack.deps ⟨0, [plainNode "n1" k, node ⟨"", "", none, []⟩ "n2"]⟩ =
      Stack.deps ⟨0, [plainNode "n1" 0, plainNode "n2" 0]⟩ := rfl
  have htopo := (Stack.topoOrder_congr hdeps).trans (by decide : _ = .ok ["n1", "n2"])
  refine add_plain (by simp [Stack.Numbered, plainNode]) ?_
  simp [checkAdd, hid, rejectIfCyclic, htopo, validateParents, validateParentsFrom, bind, Except.bind, pure, Except.pure]

theorem move_below (k : Nat) : (Op.move "n1" "down").run (holding [plainNode "n1" k, plainNode "n2" (k + 1)]) =
    holding [plainNode "n1" (k + 1), plainNode "n2" k] := by
  have horder : Stack.displayOrder ⟨0, [plainNode "n1" k, plainNode "n2" (k + 1)]⟩ = ["n1", "n2"] := by
    have hle : Stack.keyLe (Stack.rowKey ⟨0, [plainNode "n1" k, plainNode "n2" (k + 1)]⟩ (plainNode "n1" k))
        (Stack.rowKey ⟨0, [plainNode "n1" k, plainNode "n2" (k + 1)]⟩ (plainNode "n2" (k + 1))) :=
      .inl (Nat.lt_succ_self k)
    simp only [Stack.displayOrder, insertionSort_cons, insertionSort_nil, orderedInsert_nil,
      List.orderedInsert, hle, if_true]
    rfl
  have hswap : Stack.swapWithNeighbour ⟨0, [plainNode "n1" k, plainNode "n2" (k + 1)]⟩ "n1" false =
      ⟨0, [plainNode "n1" (k + 1), plainNode "n2" k]⟩ := by
    have hn : Stack.neighbourOf ⟨0, [plainNode "n1" k, plainNode "n2" (k + 1)]⟩ "n1" false = some "n2" := by
      unfold Stack.neighbourOf
      rw [horder]
      decide
    unfold Stack.swapWithNeighbour
    rw [hn]
    rfl
  have hnumbered : Stack.Numbered ⟨0, [plainNode "n1" k, plainNode "n2" (k + 1)]⟩ := by
    simp [Stack.Numbered, plainNode]
  show (exec (movePlannedPrNode _ _) _).2 = _
  show ({ holding [] with changeset := some { stack := some (moveNode "n1" false ⟨0, _⟩) } } : World) = _
  unfold moveNode
  rw [Stack.assign_eq_self hnumbered, hswap]
  rfl

theorem delete_second (k j : Nat) : (Op.delete "n2").run (holding [plainNode "n1" k, plainNode "n2" j]) =
    holding [plainNode "n1" k] := rfl

theorem idsBelow_plain (h : ∀ n ∈ nodes, n.nodeId = "n1" ∨ n.nodeId = "n2") :
    IdsBelow (holding nodes).stack := by
  intro id hid k hk
  obtain ⟨n, hn, rfl⟩ := Stack.mem_ids.mp hid
  have h1 : numericId "n1" = some 1 := by decide
  have h2 : numericId "n2" = some 2 := by decide
  rcases h n hn with e | e
  · rw [e, h1] at hk
    cases hk
    decide
  · rw [e, h2] at hk
    cases hk
    decide

/-- Every position up to `u32::MAX` is reached with no id but `n1` and `n2` ever stored. -/
theorem reach_position (k : Nat) (hk : k ≤ u32Max) : Reach IdsBelow (holding [plainNode "n1" k]) := by
  induction k with
  | zero =>
    have h := Reach.step _ _ (.add ⟨"", "", none, []⟩) (Reach.empty (holding []) rfl (idsBelow_plain (by simp))) rfl
    rw [add_first] at h
    exact h (idsBelow_plain (by simp [plainNode, node]))
  | succ k ih =>
    have hsat : saturatingSucc k = k + 1 := by
      unfold saturatingSucc
      omega
    have h1 := Reach.step _ _ (.add ⟨"", "", none, []⟩) (ih (by omega)) rfl
    rw [add_second, hsat] at h1
    have h2 := Reach.step _ _ (.move "n1" "down")
      (h1 (idsBelow_plain (by simp [plainNode, node]))) rfl
    rw [move_below] at h2
    have h3 := Reach.step _ _ (.delete "n2") (h2 (idsBelow_plain (by simp [plainNode, node]))) rfl
    rw [delete_second] at h3
    exact h3 (idsBelow_plain (by simp [plainNode, node]))

/-- A run whose ids stay far below `u32::MAX` ends with two nodes at one position. -/
theorem positions_exhausted : ∃ w, Reach IdsBelow w ∧ ¬ Integrity w.stack := by
  have h := Reach.step _ _ (.add ⟨"", "", none, []⟩) (reach_position u32Max le_rfl) rfl
  have hsat : saturatingSucc u32Max = u32Max := by decide
  rw [add_second, hsat] at h
  refine ⟨_, h (idsBelow_plain (by simp [plainNode, node])), ?_⟩
  intro hi
  have hd : [some u32Max, some u32Max].Nodup := hi.distinct
  simp at hd

end TddyCoder.PrStack
