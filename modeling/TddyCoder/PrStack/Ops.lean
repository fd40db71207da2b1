/-
  TddyCoder.PrStack.Ops — the operations that write an orchestrator's stack
  (`packages/tddy-pr-stack/src/stack_ops/{nodes,order,adopt,seed,repoint}.rs` and
  `reseed_stack_from_plan_if_unspawned` of
  `packages/tddy-workflow-recipes/src/pr_stack/mod.rs`).

  Each is a program over `World`: the order of reads, checks and writes is the source's, and a
  failure at any call ends it there. `Edit` and `Growth` list what the nine operations can do to
  the stored stack, and `run_cases` says they do nothing else.
-/

import TddyCoder.PrStack.Nodes
import TddyCoder.PrStack.Session

namespace TddyCoder.PrStack

open Prog

/-! ## Planned nodes -/

def addPlannedPrNode (input : AddPlannedPrInput) : Prog World String StackNode := do
  let (_, appended) ← checkedUpdate "add_planned_pr_node" "failed to write stack" (checkAdd · input) appendNode
  pure appended

structure UpdatePlannedPrInput where
  nodeId : String
  title : Option String := none
  description : Option String := none
  branchSuggestion : Option String := none

variable (input : UpdatePlannedPrInput) (s : Stack)

/-- What an update checks on the stack it read: the node is there, and its branch, once it owns one,
    has superseded the suggestion. -/
def checkUpdate : Except String Unit :=
  match s.node input.nodeId with
  | none => .error ("update_planned_pr_node: node '" ++ input.nodeId ++ "' not found")
  | some node =>
    match node.branch, input.branchSuggestion with
    | some branch, some suggestion =>
      .error ("update_planned_pr_node: node '" ++ input.nodeId ++ "' already owns branch '" ++ branch
        ++ "', so its branch_suggestion cannot be rewritten to '" ++ suggestion ++ "'")
    | _, _ => .ok ()

def UpdatePlannedPrInput.apply (n : StackNode) : StackNode :=
  { n with
    title := input.title.getD n.title
    description := input.description.getD n.description
    branchSuggestion := input.branchSuggestion <|> n.branchSuggestion }

def updateNode : Option StackNode × Stack :=
  let updated := s.assignMissingDisplayOrder.modifyNode input.nodeId input.apply
  (updated.node input.nodeId, updated)

/-- An update that names no field can only be a caller's mistake. -/
def checkNamesField : Except String Unit :=
  if input.title.isNone && input.description.isNone && input.branchSuggestion.isNone then
    .error ("update_planned_pr_node: the update of node '" ++ input.nodeId ++ "' names no field to change (expected at "
      ++ "least one of title, description, branch_suggestion)")
  else .ok ()

def updatePlannedPrNode : Prog World String StackNode := do
  check (checkNamesField input)
  let (_, updated) ← checkedUpdate "update_planned_pr_node" "failed to write stack" (checkUpdate input) fun _ =>
    updateNode input
  match updated with
  | some node => pure node
  | none =>
    throw ("update_planned_pr_node: node '" ++ input.nodeId ++ "' vanished before the update was written")

structure DeletedNode where
  node : StackNode
  reparentedChildren : List String
  orphanedBranch : Option String
  orphanedSessionId : Option String

variable (nodeId : String)

def deletePlannedPrNode : Prog World String DeletedNode := do
  let (_, removed) ← checkedUpdate "delete_planned_pr_node" "failed to write stack" (checkDelete · nodeId) fun _ =>
    deleteNode nodeId
  match removed with
  | some (node, reparentedChildren) =>
    pure { node, reparentedChildren, orphanedBranch := node.branch, orphanedSessionId := node.sessionId }
  | none => throw ("delete_planned_pr_node: node '" ++ nodeId ++ "' vanished before the delete was written")

def reloadNode (readFailed vanished : String) : Prog World String StackNode := do
  let changeset ← mapErr (fun e => readFailed ++ e.display) readChangeset
  match (changeset.stack.getD {}).node nodeId with
  | some node => pure node
  | none => throw vanished

def checkMove (s : Stack) : Except String Unit :=
  if (s.node nodeId).isNone then .error ("move_planned_pr_node: node '" ++ nodeId ++ "' not found") else .ok ()

def moveNode (up : Bool) (s : Stack) : Stack :=
  s.assignMissingDisplayOrder.swapWithNeighbour nodeId up

def moveDirection (direction : String) : Except String Bool :=
  if direction = "up" then .ok true
  else if direction = "down" then .ok false
  else .error ("move_planned_pr_node: unknown direction '" ++ direction ++ "' — expected 'up' or 'down'")

def movePlannedPrNode (direction : String) : Prog World String Stack := do
  let up ← check (moveDirection direction)
  let _ ← checkedUpdate "move_planned_pr_node" "failed to write stack" (checkMove nodeId) fun _ =>
    silent (moveNode nodeId up)
  let changeset ← mapErr (fun e => "move_planned_pr_node: failed to reload stack: " ++ e.display) readChangeset
  pure (changeset.stack.getD {})

/-! ## Nodes from elsewhere -/

def adoptPrAsStackNode (facts : AdoptedPrFacts) (parents : List String) : Prog World String StackNode := do
  let (_, appended) ← checkedUpdate "adopt_pr_as_stack_node" "failed to write stack" (checkAdopt · facts parents)
    appendNode
  pure appended

/-- What a base session contributes to the root node of a stack seeded on it. -/
structure SeededBase where
  branch : String
  title : String
  repoPath : Option String

inductive StackSeedBaseRefusal where
  | unresolvable (reason : String)
  | unusable (reason : String)

def StackSeedBaseRefusal.reason : StackSeedBaseRefusal → String
  | .unresolvable reason => reason
  | .unusable reason => reason

variable (baseSessionId : String)

/-- The rules on the base session's own changeset. -/
def seedBaseOf (base : Changeset) : Except StackSeedBaseRefusal SeededBase :=
  match nonBlank base.branch with
  | none =>
    .error (.unusable ("session '" ++ baseSessionId ++ "' owns no branch, so there is nothing for the stack's root node "
      ++ "to be bound to"))
  | some branch =>
    match nonBlank base.orchestratorSessionId with
    | some owner =>
      .error (.unusable ("session '" ++ baseSessionId ++ "' is already a node of the stack orchestrated by '" ++ owner
        ++ "', so a second stack cannot be based on it — two orchestrators with repoint and pull authority over one "
        ++ "branch is ambiguous ownership"))
    | none => .ok { branch, title := (nonBlank base.name).getD branch, repoPath := nonBlank base.repoPath }

def checkStackSeedBase : Prog World StackSeedBaseRefusal SeededBase := do
  let trimmed := Text.trim baseSessionId
  let base ← mapErr (fun e => .unresolvable ("base session '" ++ trimmed ++ "' could not be read: " ++ e.display))
    (readSession trimmed)
  check (seedBaseOf trimmed base)

def checkStackSeedNotSelf (w : World) (baseSessionId : String) : Except String Unit :=
  if w.isOwnSession (Text.trim baseSessionId) then
    .error ("refusing to base the stack on itself — '" ++ Text.trim baseSessionId
      ++ "' is the session that owns this stack")
  else .ok ()

def SeededBase.node (base : SeededBase) (nodeId baseSessionId : String) : StackNode where
  nodeId := nodeId
  title := base.title
  description := ""
  branchSuggestion := none
  branch := some base.branch
  sessionId := some baseSessionId
  parents := []
  prStatus := none
  childState := none
  internalStatus := none
  displayOrder := none

def checkUnpopulated (existing : Stack) : Except String Unit :=
  if !existing.nodes.isEmpty then
    .error ("seed_stack_with_base_session: this stack already has " ++ Nat.repr existing.nodes.length
      ++ " node(s), so there is nothing to seed — a stack is grown with add_planned_pr_node")
  else .ok ()

def seedStackWithBaseSession : Prog World String StackNode := do
  let w ← get
  mapErr (fun reason => "seed_stack_with_base_session: " ++ reason) (check (checkStackSeedNotSelf w baseSessionId))
  let existing ← readStack "seed_stack_with_base_session"
  check (checkUnpopulated existing)
  let base ← mapErr (fun refusal => "seed_stack_with_base_session: " ++ refusal.reason)
    (checkStackSeedBase baseSessionId)
  mapErr (fun e => "seed_stack_with_base_session: failed to write stack: " ++ e.display)
    (updateStackAtomic (appendNode (base.node (nextFreeNodeId existing) baseSessionId)))

def checkUnspawned (s : Stack) : Except String Unit :=
  if s.nodes.any fun n => n.branch.isSome || n.sessionId.isSome then
    .error ("reseed_stack_from_plan_if_unspawned: refusing to overwrite a stack whose nodes already own a branch or a "
      ++ "child session")
  else .ok ()

def reseedStackFromPlanIfUnspawned (plan : StackPlanOutput) : Prog World String Unit := do
  mapErr (fun e => "reseed_stack_from_plan_if_unspawned: " ++ e) (check (validateStackPlan plan))
  let _ ← checkedUpdate "reseed_stack_from_plan_if_unspawned" "failed to write stack" checkUnspawned fun _ =>
    silent fun _ => plan.stack
  pure ()

/-! ## Parents changed -/

/-- `record_rebase_error`'s closure. -/
def markRebaseError (message : String) (s : Stack) : Stack :=
  s.assignMissingDisplayOrder.modifyNode nodeId fun n =>
    { n with prStatus := some { phase := "error", url := none, error := some message } }

def effectiveBase (s : Stack) (nodeId defaultBranch : String) : String :=
  Text.dropPrefix "origin/" ((s.effectiveBaseRefs nodeId defaultBranch).head?.getD defaultBranch)

def rebaseBranch (op nodeId branch base : String) : Prog World String Unit := do
  match ← rebaseOnto with
  | none => pure ()
  | some message =>
    mapErr (fun e => op ++ ": failed to record error: " ++ e.display)
      (updateStackAtomic (silent (markRebaseError nodeId message)))
    throw (op ++ ": rebase of " ++ branch ++ " onto " ++ base ++ " failed: " ++ message)

def retargetOpenPr (op branch base : String) : Prog World String Unit := do
  match ← mapErr (fun e => op ++ ": get_open_pr failed: " ++ e) (getOpenPr branch) with
  | some pr => mapErr (fun e => op ++ ": patch_pr_base failed: " ++ e) (patchPrBase pr.number base)
  | none => pure ()

def realignNodeToEffectiveBase (op nodeId branch defaultBranch : String) : Prog World String Unit := do
  let changeset ← mapErr (fun e => op ++ ": failed to re-read changeset: " ++ e.display) readChangeset
  let base := effectiveBase (changeset.stack.getD {}) nodeId defaultBranch
  let w ← get
  if w.localBranches.contains branch then rebaseBranch op nodeId branch base
  retargetOpenPr op branch base

/-- A node that owns no branch has nothing to rebase and no pull request of its own. -/
def realignIfOwned (op nodeId : String) (branch : Option String) (defaultBranch : String) : Prog World String Unit :=
  match branch with
  | some branch => realignNodeToEffectiveBase op nodeId branch defaultBranch
  | none => pure ()

def setStackNodeParents (parents : List String) (defaultBranch : String) :
    Prog World String StackNode := do
  let _ ← checkedUpdate "set_stack_node_parents" "failed to write stack" (checkSetParents · nodeId parents) fun _ =>
    silent (setParents nodeId parents)
  let moved ← reloadNode nodeId "set_stack_node_parents: failed to reload node: "
    ("set_stack_node_parents: node '" ++ nodeId ++ "' vanished after the move")
  realignIfOwned "set_stack_node_parents" nodeId moved.branch defaultBranch
  pure moved

def checkRepoint (s : Stack) : Except String StackNode :=
  match s.node nodeId with
  | some node => .ok node
  | none => .error ("repoint_planned_pr_node: node '" ++ nodeId ++ "' not found")

def repointPlannedPrNode (defaultBranch : String) (target : Option String) : Prog World String StackNode := do
  let (node, _) ← checkedUpdate "repoint_planned_pr_node" "failed to persist stack" (checkRepoint nodeId) fun _ =>
    silent (repointNode nodeId target)
  realignIfOwned "repoint_planned_pr_node" nodeId node.branch defaultBranch
  reloadNode nodeId "repoint_planned_pr_node: failed to reload node: "
    ("repoint_planned_pr_node: node '" ++ nodeId ++ "' vanished after repoint")

inductive Op where
  | add (input : AddPlannedPrInput)
  | adopt (facts : AdoptedPrFacts) (parents : List String)
  | seed (baseSessionId : String)
  | update (input : UpdatePlannedPrInput)
  | delete (nodeId : String)
  | setParents (nodeId : String) (parents : List String) (defaultBranch : String)
  | repoint (nodeId defaultBranch : String) (target : Option String)
  | move (nodeId direction : String)
  | reseed (plan : StackPlanOutput)

def Op.run : Op → World → World
  | .add input, w => (exec (addPlannedPrNode input) w).2
  | .adopt facts parents, w => (exec (adoptPrAsStackNode facts parents) w).2
  | .seed baseSessionId, w => (exec (seedStackWithBaseSession baseSessionId) w).2
  | .update input, w => (exec (updatePlannedPrNode input) w).2
  | .delete nodeId, w => (exec (deletePlannedPrNode nodeId) w).2
  | .setParents nodeId parents defaultBranch, w => (exec (setStackNodeParents nodeId parents defaultBranch) w).2
  | .repoint nodeId defaultBranch target, w => (exec (repointPlannedPrNode nodeId defaultBranch target) w).2
  | .move nodeId direction, w => (exec (movePlannedPrNode nodeId direction) w).2
  | .reseed plan, w => (exec (reseedStackFromPlanIfUnspawned plan) w).2

/-! ## What a run does to the stored stack -/

inductive Edit : Stack → Stack → Prop
  | touch (s : Stack) (nodeId : String) (f : StackNode → StackNode)
      (hf : ∀ n, (f n).nodeId = n.nodeId ∧ (f n).parents = n.parents ∧ (f n).displayOrder = n.displayOrder) :
      Edit s (s.assignMissingDisplayOrder.modifyNode nodeId f)
  | delete (s : Stack) (nodeId : String) : Edit s (deleteNode nodeId s).2
  | setParents (s : Stack) (nodeId : String) (parents : List String) (h : checkSetParents s nodeId parents = .ok ()) :
      Edit s (setParents nodeId parents s)
  | repoint (s : Stack) (nodeId : String) (target : Option String) : Edit s (repointNode nodeId target s)
  | move (s : Stack) (nodeId : String) (up : Bool) : Edit s (moveNode nodeId up s)

inductive Growth : Stack → Stack → Prop
  | append (s : Stack) (node : StackNode) (hid : node.nodeId = nextFreeNodeId s) (hp : ∀ p ∈ node.parents, p ∈ s.ids) :
      Growth s (appendNode node s).2
  | reseed (s : Stack) (plan : StackPlanOutput) (h : validateStackPlan plan = .ok ()) : Growth s plan.stack

variable (input : UpdatePlannedPrInput)

theorem edit_updateNode (s : Stack) : Edit s (updateNode input s).2 :=
  .touch s input.nodeId input.apply fun _ => ⟨rfl, rfl, rfl⟩

variable (nodeId baseSessionId op : String)

theorem leads_reloadNode (readFailed vanished : String) :
    Within (World.Leads Edit) (reloadNode nodeId readFailed vanished) := by
  refine within_bind (within_mapErr leads_readChangeset) fun c => ?_
  split
  · exact within_pure _
  · exact within_throw _

theorem leads_rebaseBranch (nodeId branch base : String) :
    Within (World.Leads Edit) (rebaseBranch op nodeId branch base) := by
  refine within_bind leads_rebaseOnto fun outcome => ?_
  split
  · exact within_pure _
  · rename_i message
    refine within_bind (within_mapErr (leads_updateStackAtomic fun s => ?_)) fun _ => within_throw _
    exact .touch s nodeId _ fun _ => ⟨rfl, rfl, rfl⟩

theorem leads_retargetOpenPr (branch base : String) : Within (World.Leads Edit) (retargetOpenPr op branch base) := by
  refine within_bind (within_mapErr (leads_getOpenPr branch)) fun pr => ?_
  split
  · exact within_mapErr (leads_patchPrBase _ _)
  · exact within_pure _

theorem leads_realignIfOwned (nodeId : String) (branch : Option String) (defaultBranch : String) :
    Within (World.Leads Edit) (realignIfOwned op nodeId branch defaultBranch) := by
  cases branch with
  | some branch =>
    refine within_bind (within_mapErr leads_readChangeset) fun c => within_bind within_get fun w => ?_
    split
    · exact within_bind (leads_rebaseBranch _ _ _ _) fun _ => leads_retargetOpenPr _ _ _
    · exact leads_retargetOpenPr _ _ _
  | none => exact within_pure _

theorem leads_update : Within (World.Leads Edit) (updatePlannedPrNode input) := by
  refine within_bind (within_check _) fun _ => ?_
  refine within_bind (leads_checkedUpdate fun s _ _ => edit_updateNode input s) fun r => ?_
  split
  split
  · exact within_pure _
  · exact within_throw _

theorem leads_delete : Within (World.Leads Edit) (deletePlannedPrNode nodeId) := by
  refine within_bind (leads_checkedUpdate fun s _ _ => .delete s nodeId) fun r => ?_
  split
  split
  · exact within_pure _
  · exact within_throw _

theorem leads_move (direction : String) : Within (World.Leads Edit) (movePlannedPrNode nodeId direction) := by
  refine within_bind (within_check _) fun up => ?_
  refine within_bind (leads_checkedUpdate fun s _ _ => .move s nodeId up) fun _ => ?_
  exact within_bind (within_mapErr leads_readChangeset) fun _ => within_pure _

theorem leads_setParents (parents : List String) (defaultBranch : String) :
    Within (World.Leads Edit) (setStackNodeParents nodeId parents defaultBranch) := by
  refine within_bind (leads_checkedUpdate fun s _ h => .setParents s nodeId parents h) fun _ => ?_
  refine within_bind (leads_reloadNode _ _ _) fun moved => ?_
  exact within_bind (leads_realignIfOwned _ _ _ _) fun _ => within_pure _

theorem leads_repoint (defaultBranch : String) (target : Option String) :
    Within (World.Leads Edit) (repointPlannedPrNode nodeId defaultBranch target) := by
  refine within_bind (leads_checkedUpdate fun s _ _ => .repoint s nodeId target) fun r => ?_
  exact within_bind (leads_realignIfOwned _ _ _ _) fun _ => leads_reloadNode _ _ _

/-- The stack is as it was, or grew once. -/
def World.Grows (w w' : World) : Prop := w'.stack = w.stack ∨ Growth w.stack w'.stack

theorem grows_checkedUpdate {β γ δ : Type} {op writeFailed : String} {chk : Stack → Except String β}
    {f : β → Stack → γ × Stack} {k : β × γ → δ} (h : ∀ s b, chk s = .ok b → Growth s (f b s).2) (w : World) :
    Ensures (do let r ← checkedUpdate op writeFailed chk f; pure (k r)) w fun _ w' => w.Grows w' := by
  refine ensures_bind (checkedUpdate_ensures op writeFailed chk f w) ?_ ?_
  · rintro ⟨b, c⟩ w' ⟨hb, -, hs⟩
    refine ensures_pure (.inr ?_)
    rw [hs.stack]
    exact h w.stack b hb
  · intro e w' h'
    exact .inl h'.stack

theorem grows_add (input : AddPlannedPrInput) (w : World) :
    Ensures (addPlannedPrNode input) w fun _ w' => w.Grows w' := by
  refine grows_checkedUpdate ?_ w
  intro s node h
  obtain ⟨rfl, hp⟩ := checkAdd_ok h
  exact .append s _ rfl hp

theorem grows_adopt (facts : AdoptedPrFacts) (parents : List String) (w : World) :
    Ensures (adoptPrAsStackNode facts parents) w fun _ w' => w.Grows w' := by
  refine grows_checkedUpdate ?_ w
  intro s node h
  obtain ⟨rfl, hp⟩ := checkAdopt_ok h
  exact .append s _ rfl hp

theorem grows_reseed (plan : StackPlanOutput) (w : World) :
    Ensures (reseedStackFromPlanIfUnspawned plan) w fun _ w' => w.Grows w' := by
  unfold reseedStackFromPlanIfUnspawned Ensures
  cases hv : validateStackPlan plan with
  | error e => exact .inl rfl
  | ok u => exact grows_checkedUpdate (fun s _ _ => .reseed s plan hv) w

theorem checkStackSeedBase_ensures (w : World) :
    Ensures (checkStackSeedBase baseSessionId) w fun _ w' => w.After w' := by
  refine ensures_bind (R := fun _ w' => w.After w') ?_ ?_ fun _ _ h => h
  · exact ensures_mapErr (readSession_ensures _ w) (fun _ _ h => h.1) fun _ _ h => h.1
  · exact fun _ _ h => ensures_check h

theorem grows_seed (w : World) :
    Ensures (seedStackWithBaseSession baseSessionId) w fun _ w' => w.Grows w' := by
  have same : ∀ {w'}, w.After w' → w.Grows w' := fun h => .inl h.stack
  refine ensures_bind (R := fun _ w' => w.After w') (World.After.refl w) ?_ fun _ _ h => same h
  intro w₀ w₁ h₁
  refine ensures_bind (R := fun _ w' => w.After w')
    (ensures_mapErr (R := fun _ w' => w.After w') (ensures_check h₁) (fun _ _ h => h) fun _ _ h => h) ?_
    fun _ _ h => same h
  intro _ w₂ h₂
  refine ensures_bind (readStack_ensures _ w₂) ?_ fun _ _ h => same (h₂.trans h.1)
  intro existing w₃ h₃
  have he : existing = w.stack := (h₃.2 _ rfl).trans h₂.stack
  refine ensures_bind (R := fun _ w' => w.After w') (ensures_check (h₂.trans h₃.1)) ?_ fun _ _ h => same h
  intro _ w₄ h₄
  refine ensures_bind (R := fun _ w' => w.After w')
    (ensures_mapErr (checkStackSeedBase_ensures baseSessionId w₄) (fun _ _ h => h₄.trans h) fun _ _ h => h₄.trans h)
    ?_ fun _ _ h => same h
  intro base w₅ h₅
  refine ensures_mapErr (updateStackAtomic_ensures _ w₅) ?_ fun _ _ h => same (h₅.trans h)
  intro a w₆ h₆
  obtain ⟨c, hc, -, hs⟩ := h₆
  right
  rw [World.Stored.stack ⟨c, hc, hs⟩, h₅.stack, he]
  exact .append w.stack _ rfl (by simp [SeededBase.node])

/-- Whatever an operation answers, the stack it leaves comes from the one it found by edits, or by one
    growth. -/
theorem run_cases (op : Op) (w : World) :
    Relation.ReflTransGen Edit w.stack (op.run w).stack ∨ Growth w.stack (op.run w).stack := by
  have grows : ∀ {w'}, w.Grows w' → Relation.ReflTransGen Edit w.stack w'.stack ∨ Growth w.stack w'.stack := by
    intro w' h
    rcases h with h | h
    · rw [h]
      exact .inl .refl
    · exact .inr h
  cases op with
  | add input => exact grows (grows_add input w)
  | adopt facts parents => exact grows (grows_adopt facts parents w)
  | seed baseSessionId => exact grows (grows_seed baseSessionId w)
  | update input => exact .inl (leads_update input w)
  | delete nodeId => exact .inl (leads_delete nodeId w)
  | setParents nodeId parents defaultBranch => exact .inl (leads_setParents nodeId parents defaultBranch w)
  | repoint nodeId defaultBranch target => exact .inl (leads_repoint nodeId defaultBranch target w)
  | move nodeId direction => exact .inl (leads_move nodeId direction w)
  | reseed plan => exact grows (grows_reseed plan w)

end TddyCoder.PrStack
