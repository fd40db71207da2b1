/-
  TddyCoder.PrStack.InternalStatus — the stored action-needed status of a node
  (`set_internal_status`, `clear_has_conflicts_status` and `refresh_internal_statuses` of
  `packages/tddy-tools/src/server.rs`, `reconcile_internal_status` of
  `packages/tddy-workflow-recipes/src/orchestrate_pr_stack/internal_status.rs`).

  Overrides and derived statuses go through one merge, which keeps a stored override: against the
  derived status that is coming in, and just as well against another override.

  Proved: `an_override_is_stored_iff`; one that is not is `a_second_override_is_dropped`.
-/

import TddyCoder.PrStack.Views

namespace TddyCoder.PrStack

def sourceOverride : String := "override"

def reconcileInternalStatus (existing : Option PrInternalStatus) (derived : PrInternalStatus) : PrInternalStatus :=
  match existing with
  | some current => if current.source = sourceOverride then current else derived
  | none => derived

def mergeStatus (nodeId : String) (status : PrInternalStatus) (s : Stack) : Stack :=
  s.modifyNode nodeId fun n => { n with internalStatus := some (reconcileInternalStatus n.internalStatus status) }

def setInternalStatus (nodeId kind : String) (note : Option String) (source : String) (s : Stack) : Stack :=
  mergeStatus nodeId ⟨kind, note, source⟩ s

def clearHasConflictsStatus (nodeId : String) (s : Stack) : Stack :=
  s.modifyNode nodeId fun n =>
    if n.internalStatus.any (·.kind == "has-conflicts") then { n with internalStatus := none } else n

def refreshInternalStatuses (views : List NodeView) (defaultBranch : String) (s : Stack) : Stack :=
  (deriveInternalStatus views defaultBranch).foldl (fun s derived => mergeStatus derived.1 derived.2 s) s

/-- `pr_set_status`, `pr_resolve_conflicts` (an override while there are conflicts, a clear when there are none) and
    `pr_stack_status`. -/
inductive StatusWrite
  | setStatus (nodeId kind : String) (note : Option String)
  | clear (nodeId : String)
  | refresh (views : List NodeView) (defaultBranch : String)

namespace StatusWrite

def apply (s : Stack) : StatusWrite → Stack
  | setStatus nodeId kind note => setInternalStatus nodeId kind note sourceOverride s
  | clear nodeId => clearHasConflictsStatus nodeId s
  | refresh views defaultBranch => refreshInternalStatuses views defaultBranch s

/-- Neither an override nor a clear of the node. -/
def Spares (id : String) : StatusWrite → Prop
  | setStatus nodeId _ _ => nodeId ≠ id
  | clear nodeId => nodeId ≠ id
  | refresh _ _ => True

end StatusWrite

def Stack.statusOf (s : Stack) (id : String) : Option PrInternalStatus := (s.node id).bind (·.internalStatus)

theorem Stack.node_modifyNode {f : StackNode → StackNode} (hf : ∀ n, (f n).nodeId = n.nodeId) (s : Stack)
    (nodeId id : String) : (s.modifyNode nodeId f).node id = (s.node id).map fun n => if id = nodeId then f n else n := by
  unfold modifyNode node
  induction s.nodes with
  | nil => rfl
  | cons n ns ih =>
    unfold modifyFirst
    split
    · rename_i hn
      by_cases hid : id = nodeId
      · simp [hf, hn, hid]
      · simp [hf, hn, hid, Ne.symm hid]
    rename_i hn
    by_cases hid : n.nodeId = id
    · simp [hid, hid ▸ hn]
    · simpa [hid] using ih

theorem statusOf_mergeStatus (s : Stack) (nodeId id : String) (status : PrInternalStatus) :
    (mergeStatus nodeId status s).statusOf id = (s.node id).bind fun n =>
      if id = nodeId then some (reconcileInternalStatus n.internalStatus status) else n.internalStatus := by
  rw [Stack.statusOf, mergeStatus, Stack.node_modifyNode (by intro n; rfl), Option.bind_map]
  congr 1
  funext n
  exact apply_ite _ _ _ _

section override

variable {s : Stack} {id : String} {o : PrInternalStatus} (ho : o.source = sourceOverride)
include ho

section

variable (h : s.statusOf id = some o)
include h

theorem merge_keeps (nodeId : String) (status : PrInternalStatus) :
    (mergeStatus nodeId status s).statusOf id = some o := by
  obtain ⟨n, hn, hstatus⟩ := Option.bind_eq_some_iff.mp h
  rw [statusOf_mergeStatus, hn, Option.bind_some, hstatus, reconcileInternalStatus, if_pos ho, ite_self]

theorem refresh_keeps (views : List NodeView) (defaultBranch : String) :
    (refreshInternalStatuses views defaultBranch s).statusOf id = some o := by
  unfold refreshInternalStatuses
  induction deriveInternalStatus views defaultBranch generalizing s with
  | nil => exact h
  | cons derived rest ih => exact ih (merge_keeps ho h derived.1 derived.2)

theorem write_keeps {w : StatusWrite} (hw : w.Spares id) : (w.apply s).statusOf id = some o := by
  cases w with
  | setStatus nodeId kind note => exact merge_keeps ho h nodeId _
  | clear nodeId =>
    obtain ⟨n, hn, hstatus⟩ := Option.bind_eq_some_iff.mp h
    show (s.modifyNode nodeId _).statusOf id = _
    rw [Stack.statusOf, Stack.node_modifyNode (fun n => by split <;> rfl), hn]
    simp [Ne.symm hw, hstatus]
  | refresh views defaultBranch => exact refresh_keeps ho h views defaultBranch

theorem writes_keep {rest : List StatusWrite} (hrest : ∀ w ∈ rest, w.Spares id) :
    (rest.foldl StatusWrite.apply s).statusOf id = some o := by
  induction rest generalizing s with
  | nil => exact h
  | cons w rest ih =>
    obtain ⟨hw, hrest⟩ := List.forall_mem_cons.mp hrest
    exact ih (write_keeps ho h hw) hrest

end

end override

/-- A refresh never replaces an override. What an override asks for is stored, until the next one or a clear, exactly
    when no other override is stored already. -/
theorem an_override_is_stored_iff (s : Stack) (id kind : String) (note : Option String) (rest : List StatusWrite)
    (hid : id ∈ s.ids) (hrest : ∀ w ∈ rest, w.Spares id) :
    (∀ o views defaultBranch, s.statusOf id = some o → o.source = sourceOverride →
      ((StatusWrite.refresh views defaultBranch).apply s).statusOf id = some o) ∧
    ((rest.foldl StatusWrite.apply ((StatusWrite.setStatus id kind note).apply s)).statusOf id =
        some ⟨kind, note, sourceOverride⟩ ↔
      ∀ o, s.statusOf id = some o → o.source = sourceOverride → o = ⟨kind, note, sourceOverride⟩) := by
  refine ⟨fun o views defaultBranch h ho => refresh_keeps ho h views defaultBranch, ?_⟩
  obtain ⟨n, hn⟩ := Option.ne_none_iff_exists'.mp (mt Stack.node_eq_none_iff.mp (not_not.mpr hid))
  have hstatus : s.statusOf id = n.internalStatus := by rw [Stack.statusOf, hn, Option.bind_some]
  have hset : ((StatusWrite.setStatus id kind note).apply s).statusOf id =
      some (reconcileInternalStatus n.internalStatus ⟨kind, note, sourceOverride⟩) := by
    refine (statusOf_mergeStatus s id id _).trans ?_
    rw [hn, Option.bind_some, if_pos rfl]
  have hsource : (reconcileInternalStatus n.internalStatus ⟨kind, note, sourceOverride⟩).source = sourceOverride := by
    unfold reconcileInternalStatus
    split
    · split
      · assumption
      · rfl
    · rfl
  rw [writes_keep hsource hset hrest, Option.some.injEq, hstatus]
  cases n.internalStatus with
  | none | some current => simp [reconcileInternalStatus]

def withStatus (status : Option PrInternalStatus) : Stack := ⟨1, [{ bareNode "n1" [] with internalStatus := status }]⟩

theorem an_override_over_a_derived_status :
    ([StatusWrite.refresh [] "main"].foldl StatusWrite.apply ((StatusWrite.setStatus "n1" "blocked" none).apply
      (withStatus (some ⟨"up-to-date", none, "derived"⟩)))).statusOf "n1" = some ⟨"blocked", none, sourceOverride⟩ :=
  (an_override_is_stored_iff _ "n1" "blocked" none [.refresh [] "main"] (by decide) (by simp [StatusWrite.Spares])).2.mpr
    (by decide +revert)

/-- `blocked` is stored, the agent sets `needs-repoint`, and `blocked` stays. -/
theorem a_second_override_is_dropped :
    ((StatusWrite.setStatus "n1" "needs-repoint" none).apply
      ((StatusWrite.setStatus "n1" "blocked" none).apply (withStatus none))).statusOf "n1" =
        some ⟨"blocked", none, sourceOverride⟩ := by
  decide

end TddyCoder.PrStack
