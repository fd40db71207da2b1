/-
  TddyCoder.PrStack.Nodes — the pure halves of the stack operations: what each checks on
  the stack it read, and what its closure does to the stack it writes
  (`packages/tddy-pr-stack/src/stack_ops/{mod,nodes,adopt,repoint}.rs`).

  `WellFormed` is what the operations keep of the plan: distinct ids, parents that name nodes,
  no cycle. Each closure keeps it under the condition its check establishes. `max + 1` in
  `nextFreeNodeId` is a `u32` addition, and wraps at `u32::MAX`.

  Proved: `a_removed_node_is_spliced_out`; `next_id_is_free_iff`, and no id is free in
  `an_accepted_plan_runs_out_of_ids`.
-/

import TddyCoder.PrStack.Order
import TddyCoder.PrStack.Plan
import TddyCoder.Text.Unsigned

namespace TddyCoder.PrStack

open List Stack

/-! ## Checks -/

def messagePrefix (op : String) : String := if op.isEmpty then "" else op ++ ": "

/-- The loop of `validate_parents`, with the parents already `seen`. -/
def validateParentsFrom (s : Stack) (nodeId : Option String) (op : String) :
    List String → List String → Except String Unit
  | _, [] => .ok ()
  | seen, parent :: rest =>
    if nodeId = some parent then .error (messagePrefix op ++ "node '" ++ parent ++ "' cannot be its own parent")
    else if !s.ids.contains parent then .error (messagePrefix op ++ "dangling parent ref: " ++ parent)
    else if nodeId.isSome && seen.contains parent then
      .error (messagePrefix op ++ "parent '" ++ parent ++ "' is named more than once")
    else validateParentsFrom s nodeId op (seen ++ [parent]) rest

def validateParents (s : Stack) (nodeId : Option String) (parents : List String) (op : String) : Except String Unit :=
  validateParentsFrom s nodeId op [] parents

def rejectIfCyclic (candidate : Stack) (op : String) : Except String Unit :=
  match candidate.topoOrder with
  | .ok _ => .ok ()
  | .error e => .error (messagePrefix op ++ "cycle detected: " ++ e.display)

variable (nodeId : String)

def numericId : Option Nat := (Text.stripPrefix "n" nodeId).bind (Text.parseUnsigned (2 ^ 32))

variable (s : Stack)

def nextFreeNodeId : String :=
  "n" ++ Nat.repr (((s.ids.filterMap numericId).max?.getD 0 + 1) % 2 ^ 32)

/-- `append_node_atomic`'s closure: number what is unnumbered, then append at the next position. -/
def appendNode (node : StackNode) (s : Stack) : StackNode × Stack :=
  let numbered := s.assignMissingDisplayOrder
  let appended := { node with displayOrder := some numbered.nextDisplayOrder }
  (appended, { numbered with nodes := numbered.nodes ++ [appended] })

structure AddPlannedPrInput where
  title : String
  description : String
  branchSuggestion : Option String
  parents : List String

/-- A planned node owns no branch, session or PR yet. -/
def AddPlannedPrInput.node (input : AddPlannedPrInput) (nodeId : String) : StackNode where
  nodeId := nodeId
  title := input.title
  description := input.description
  branchSuggestion := input.branchSuggestion
  branch := none
  sessionId := none
  parents := input.parents
  prStatus := none
  childState := none
  internalStatus := none
  displayOrder := none

def checkAdd (existing : Stack) (input : AddPlannedPrInput) : Except String StackNode := do
  validateParents existing none input.parents ""
  let newNode := input.node (nextFreeNodeId existing)
  rejectIfCyclic { existing with nodes := existing.nodes ++ [newNode] } ""
  pure newNode

structure AdoptedPrFacts where
  pullNumber : Nat
  title : String
  body : String
  headBranch : String
  url : String
  phase : String

/-- The pull number at the end of the recorded url, when it is a `u64`. -/
def prNumberFromStatusUrl (status : Option GithubPrStatus) : Option Nat := do
  let url ← (← status).url
  Text.parseUnsigned (2 ^ 64) (← Text.lastSegment '/' url)

variable (facts : AdoptedPrFacts)

def rejectIfBranchBound : Except String Unit :=
  match s.nodes.find? fun n => n.branch = some facts.headBranch with
  | none => .ok ()
  | some bound =>
    .error ("adopt_pr_as_stack_node: branch '" ++ facts.headBranch ++ "' is already bound to node '" ++ bound.nodeId
      ++ "', so PR #" ++ Nat.repr facts.pullNumber ++ " is already tracked by this stack")

def rejectIfPullNumberTracked : Except String Unit :=
  match s.nodes.find? fun n => prNumberFromStatusUrl n.prStatus = some facts.pullNumber with
  | none => .ok ()
  | some tracking =>
    .error ("adopt_pr_as_stack_node: PR #" ++ Nat.repr facts.pullNumber ++ " is already recorded on node '"
      ++ tracking.nodeId ++ "', so it is already tracked by this stack")

/-- An adopted node owns the PR's branch from the start, and no child session. -/
def AdoptedPrFacts.node (nodeId : String) (parents : List String) : StackNode where
  nodeId := nodeId
  title := facts.title
  description := facts.body
  branchSuggestion := none
  branch := some facts.headBranch
  sessionId := none
  parents := parents
  prStatus := some { phase := facts.phase, url := some facts.url, error := none }
  childState := none
  internalStatus := none
  displayOrder := none

def checkAdopt (existing : Stack) (facts : AdoptedPrFacts) (parents : List String) : Except String StackNode := do
  validateParents existing none parents "adopt_pr_as_stack_node"
  rejectIfBranchBound existing facts
  rejectIfPullNumberTracked existing facts
  let newNode := facts.node (nextFreeNodeId existing) parents
  rejectIfCyclic { existing with nodes := existing.nodes ++ [newNode] } "adopt_pr_as_stack_node"
  pure newNode

variable (parents : List String)

def pushNew (id : String) : List String :=
  if parents.contains id then parents else parents ++ [id]

/-- A child's parents once `nodeId` is removed: its place is taken by what it inherited, each id once. -/
def reparent (inherited parents : List String) : List String :=
  (parents.flatMap fun parent => if parent = nodeId then inherited else [parent]).foldl pushNew []

/-- Remove a node, giving every child that listed it the removed node's parents instead. Answers
    the removed node and the children that inherited, or nothing when there is no such node. -/
def removeNodeReparentingChildren : Option (StackNode × List String) × Stack :=
  match s.node nodeId with
  | none => (none, s)
  | some removed =>
    let rest := s.nodes.eraseP (·.nodeId == nodeId)
    let inherited := removed.parents.filter (· ≠ nodeId)
    (some (removed, (rest.filter (·.parents.contains nodeId)).map (·.nodeId)),
      { s with nodes := rest.map fun child =>
          if child.parents.contains nodeId then { child with parents := reparent nodeId inherited child.parents }
          else child })

def checkDelete (nodeId : String) : Except String Unit :=
  match s.node nodeId with
  | none => .error ("delete_planned_pr_node: node '" ++ nodeId ++ "' not found")
  | some node =>
    if node.prStatus.any (·.phase == "open") then
      .error ("delete_planned_pr_node: node '" ++ nodeId ++ "' has an open pull request — merge it with pr_merge or "
        ++ "close it with pr_close first")
    else rejectIfCyclic (removeNodeReparentingChildren nodeId s).2 "delete_planned_pr_node"

/-- `delete_planned_pr_node`'s closure. -/
def deleteNode : Option (StackNode × List String) × Stack :=
  removeNodeReparentingChildren nodeId s.assignMissingDisplayOrder

def rewriteParents (s : Stack) : Stack :=
  s.modifyNode nodeId fun n => { n with parents := parents }

def checkSetParents (nodeId : String) (parents : List String) : Except String Unit :=
  if (s.node nodeId).isNone then .error ("set_stack_node_parents: node '" ++ nodeId ++ "' not found")
  else do
    validateParents s (some nodeId) parents "set_stack_node_parents"
    rejectIfCyclic (rewriteParents nodeId parents s) "set_stack_node_parents"

/-- `set_stack_node_parents`'s closure. -/
def setParents (s : Stack) : Stack :=
  rewriteParents nodeId parents s.assignMissingDisplayOrder

variable (target : Option String)

/-- Whether a parent survives a repoint: with a target, when it owns that branch; without one,
    unless it is known to have merged. -/
def survives (parentId : String) : Bool :=
  match target with
  | some target => (s.node parentId).any fun p => p.branch == some target
  | none => !(s.node parentId).any (·.isSkipped)

def retainParents (s : Stack) : Stack :=
  rewriteParents nodeId (((s.node nodeId).map fun n => n.parents.filter (survives s target)).getD []) s

/-- `repoint_planned_pr_node`'s closure. -/
def repointNode (s : Stack) : Stack :=
  retainParents nodeId target s.assignMissingDisplayOrder

/-! ## What the checks establish -/

variable {s : Stack} {parents : List String} {node : StackNode} {op v : String}

theorem validateParents_ok {nodeId : Option String}
    (h : validateParents s nodeId parents op = .ok ()) : ∀ p ∈ parents, p ∈ s.ids := by
  unfold validateParents at h
  generalize [] = seen at h
  induction parents generalizing seen with
  | nil => simp
  | cons parent rest ih =>
    unfold validateParentsFrom at h
    split at h
    · cases h
    split at h
    · cases h
    rename_i hknown
    split at h
    · cases h
    · exact forall_mem_cons.mpr ⟨by simpa using hknown, ih _ h⟩

theorem rejectIfCyclic_ok (h : rejectIfCyclic s op = .ok ()) : Graph.Acyclic s.deps := by
  unfold rejectIfCyclic at h
  split at h
  · rename_i order horder
    exact (Stack.topoOrder_ok_iff.mp ⟨order, horder⟩).2
  · cases h

theorem checkAdd_ok {input : AddPlannedPrInput} (h : checkAdd s input = .ok node) :
    node = input.node (nextFreeNodeId s) ∧ ∀ p ∈ input.parents, p ∈ s.ids := by
  unfold checkAdd at h
  cases hv : validateParents s none input.parents "" with
  | error e => rw [hv] at h; cases h
  | ok u =>
    rw [hv] at h
    refine ⟨?_, validateParents_ok hv⟩
    cases hr : rejectIfCyclic { s with nodes := s.nodes ++ [input.node (nextFreeNodeId s)] } "" with
    | error e => simp [bind, Except.bind, hr] at h
    | ok u =>
      simp only [bind, Except.bind, hr, pure, Except.pure, Except.ok.injEq] at h
      exact h.symm

theorem checkAdopt_ok {facts : AdoptedPrFacts} (h : checkAdopt s facts parents = .ok node) :
    node = facts.node (nextFreeNodeId s) parents ∧ ∀ p ∈ parents, p ∈ s.ids := by
  unfold checkAdopt at h
  cases hv : validateParents s none parents "adopt_pr_as_stack_node" with
  | error e => rw [hv] at h; cases h
  | ok u =>
    refine ⟨?_, validateParents_ok hv⟩
    simp only [hv, bind, Except.bind, pure, Except.pure] at h
    split at h
    · cases h
    split at h
    · cases h
    split at h
    · cases h
    · cases h
      rfl

theorem checkSetParents_ok {nodeId : String} (h : checkSetParents s nodeId parents = .ok ()) :
    (∀ p ∈ parents, p ∈ s.ids) ∧ Graph.Acyclic (rewriteParents nodeId parents s).deps := by
  unfold checkSetParents at h
  split at h
  · cases h
  cases hv : validateParents s (some nodeId) parents "set_stack_node_parents" with
  | error e => rw [hv] at h; cases h
  | ok u =>
    rw [hv] at h
    exact ⟨validateParents_ok hv, rejectIfCyclic_ok h⟩

/-- The highest number that an id reads as. -/
def highestNumericId (s : Stack) : Nat := (s.ids.filterMap numericId).max?.getD 0

theorem le_highestNumericId {id : String} (hid : id ∈ s.ids) {k : Nat} (hk : numericId id = some k) :
    k ≤ highestNumericId s :=
  le_max?_getD_of_mem (mem_filterMap.mpr ⟨id, hid, hk⟩)

theorem highestNumericId_lt (h : ∀ id ∈ s.ids, ∀ k, numericId id = some k → k < u32Max) :
    highestNumericId s < u32Max := by
  unfold highestNumericId
  cases hm : (s.ids.filterMap numericId).max? with
  | none => simp [u32Max]
  | some m =>
    obtain ⟨id, hid, hk⟩ := mem_filterMap.mp (max?_mem hm)
    exact h id hid m hk

/-- The chosen id is new while every numeric id is below `u32::MAX`. -/
theorem nextFreeNodeId_fresh (h : ∀ id ∈ s.ids, ∀ k, numericId id = some k → k < u32Max) :
    nextFreeNodeId s ∉ s.ids := by
  have hlt := highestNumericId_lt h
  intro hmem
  have hnum : numericId (nextFreeNodeId s) = some (highestNumericId s + 1) := by
    unfold u32Max at hlt
    unfold numericId nextFreeNodeId
    rw [Text.stripPrefix_append, Option.bind_some, ← highestNumericId, Nat.mod_eq_of_lt (by omega)]
    exact Text.parseUnsigned_repr (by omega)
  have := le_highestNumericId hmem hnum
  omega

/-- The addition stays in range and the id is new exactly when no id reads as `u32::MAX`. -/
theorem next_id_is_free_iff (s : Stack) :
    (highestNumericId s + 1 < 2 ^ 32 ∧ nextFreeNodeId s ∉ s.ids) ↔ ∀ id ∈ s.ids, numericId id ≠ some u32Max := by
  constructor
  · rintro ⟨hroom, -⟩ id hid hmax
    have := le_highestNumericId hid hmax
    unfold u32Max at this
    omega
  intro h
  have hbelow : ∀ id ∈ s.ids, ∀ k, numericId id = some k → k < u32Max := by
    intro id hid k hk
    have hne : k ≠ u32Max := fun heq => h id hid (heq ▸ hk)
    obtain ⟨_, -, hparse⟩ := Option.bind_eq_some_iff.mp hk
    have := Text.parseUnsigned_lt hparse
    unfold u32Max at hne ⊢
    omega
  have hlt := highestNumericId_lt hbelow
  unfold u32Max at hlt
  exact ⟨by omega, nextFreeNodeId_fresh hbelow⟩

/-- An accepted plan that has both ends of the range: where the addition wraps, `n0` is given out a second time. -/
theorem an_accepted_plan_runs_out_of_ids :
    let plan : StackPlanOutput :=
      ⟨1, [⟨"n0", "", "", some "feature/s/a", []⟩, ⟨"n4294967295", "", "", some "feature/s/b", ["n0"]⟩]⟩
    validateStackPlan plan = .ok () ∧
      ¬ (highestNumericId plan.stack + 1 < 2 ^ 32 ∧ nextFreeNodeId plan.stack ∉ plan.stack.ids) ∧
      nextFreeNodeId plan.stack ∈ plan.stack.ids := by
  decide +kernel

/-! ## Well-formed plans -/

/-- Distinct ids, parents that name nodes, no cycle. -/
structure Stack.WellFormed (s : Stack) : Prop where
  ids : s.ids.Nodup
  parents : ∀ n ∈ s.nodes, ∀ p ∈ n.parents, p ∈ s.ids
  acyclic : Graph.Acyclic s.deps

theorem edge_deps_iff {p : String} :
    Graph.Edge s.deps p v ↔ p ∈ s.ids ∧ ∃ n ∈ s.nodes, n.nodeId = v ∧ p ∈ n.parents := by
  rw [Graph.edge_iff, graph_ids_deps]
  simp [deps, and_assoc]

theorem wellFormed_of_nil (h : s.nodes = []) : s.WellFormed := by
  have hids : s.ids = [] := by simp [ids, h]
  refine ⟨by simp [hids], by simp [h], fun v hv => ?_⟩
  obtain ⟨x, hx, -⟩ := Relation.TransGen.head'_iff.mp hv
  have := (edge_deps_iff.mp hx).1
  rw [hids] at this
  cases this

theorem wellFormed_congr {s' : Stack} (h : s.deps = s'.deps) (hw : s.WellFormed) : s'.WellFormed := by
  have hids : s'.ids = s.ids := by rw [← graph_ids_deps, ← h, graph_ids_deps]
  refine ⟨hids ▸ hw.ids, ?_, h ▸ hw.acyclic⟩
  intro n hn p hp
  have hm : (n.nodeId, n.parents) ∈ s.deps := by
    rw [h]
    exact mem_map_of_mem hn
  obtain ⟨m, hm, he⟩ := mem_map.mp hm
  have hpm : p ∈ m.parents := by
    rw [(Prod.mk.inj he).2]
    exact hp
  rw [hids]
  exact hw.parents m hm p hpm

theorem wellFormed_assign (hw : s.WellFormed) : s.assignMissingDisplayOrder.WellFormed :=
  wellFormed_congr (Stack.assign_samePlan s).deps.symm hw

theorem wellFormed_append (hw : s.WellFormed) {n : StackNode} (hfresh : n.nodeId ∉ s.ids)
    (hparents : ∀ p ∈ n.parents, p ∈ s.ids) : Stack.WellFormed { s with nodes := s.nodes ++ [n] } := by
  have hids : ids { s with nodes := s.nodes ++ [n] } = s.ids ++ [n.nodeId] := by simp [ids]
  have hdeps : deps { s with nodes := s.nodes ++ [n] } = s.deps ++ [(n.nodeId, n.parents)] := by
    simp [deps]
  have hclosed : ∀ m ∈ s.nodes ++ [n], ∀ p ∈ m.parents, p ∈ s.ids :=
    forall_mem_append.mpr ⟨hw.parents, forall_mem_singleton.mpr hparents⟩
  refine ⟨?_, ?_, ?_⟩
  · rw [hids]
    exact nodup_append.mpr ⟨hw.ids, by simp, fun a ha b hb e => hfresh (by simp_all)⟩
  · intro m hm p hp
    rw [hids]
    exact mem_append_left _ (hclosed m hm p hp)
  -- nobody names the new node, so it closes no cycle
  rw [hdeps]
  refine Graph.acyclic_snoc hw.acyclic ?_
  intro u qs hu hq
  rw [← hdeps] at hu
  obtain ⟨m, hm, he⟩ := mem_map.mp hu
  cases he
  exact hfresh (hclosed m hm _ hq)

/-! ## Parents rewritten -/

theorem ids_rewriteParents (id : String) (parents : List String) (s : Stack) :
    (rewriteParents id parents s).ids = s.ids := by
  unfold rewriteParents ids
  rw [Stack.modifyNode_map]
  intro n
  rfl

variable {id q : String} {m : StackNode}

theorem mem_rewriteParents (h : s.ids.Nodup) (hm : m ∈ (rewriteParents id parents s).nodes) :
    ∃ n ∈ s.nodes, n.nodeId = m.nodeId ∧
      m.parents = if n.nodeId = id then parents else n.parents := by
  unfold rewriteParents at hm
  rw [Stack.modifyNode_nodes h] at hm
  obtain ⟨n, hn, rfl⟩ := mem_map.mp hm
  refine ⟨n, hn, ?_⟩
  split <;> simp

theorem wellFormed_setParents (hw : s.WellFormed)
    (hparents : ∀ p ∈ parents, p ∈ s.ids) (ha : Graph.Acyclic (rewriteParents id parents s).deps) :
    (rewriteParents id parents s).WellFormed := by
  refine ⟨?_, ?_, ha⟩
  · rw [ids_rewriteParents]
    exact hw.ids
  intro m hm p hp
  obtain ⟨n, hn, -, he⟩ := mem_rewriteParents hw.ids hm
  rw [ids_rewriteParents]
  rw [he] at hp
  split at hp
  · exact hparents p hp
  · exact hw.parents n hn p hp

theorem mem_retainParents (h : s.ids.Nodup) {target : Option String} (hm : m ∈ (retainParents id target s).nodes) :
    ∃ n ∈ s.nodes, n.nodeId = m.nodeId ∧ m.parents ⊆ n.parents := by
  obtain ⟨n, hn, hid, he⟩ := mem_rewriteParents h hm
  refine ⟨n, hn, hid, ?_⟩
  rw [he]
  split
  · rename_i e
    rw [← e, Stack.node_of_mem h hn]
    exact filter_sublist.subset
  · exact Subset.refl _

theorem wellFormed_retain (hw : s.WellFormed) (id : String) (target : Option String) :
    (retainParents id target s).WellFormed := by
  have hids : (retainParents id target s).ids = s.ids := ids_rewriteParents _ _ _
  refine ⟨hids ▸ hw.ids, ?_, ?_⟩
  · intro m hm p hp
    obtain ⟨n, hn, -, hsub⟩ := mem_retainParents hw.ids hm
    rw [hids]
    exact hw.parents n hn p (hsub hp)
  refine Graph.acyclic_of_paths hw.acyclic ?_
  intro p v hedge
  obtain ⟨hp, m, hm, hv, hpm⟩ := edge_deps_iff.mp hedge
  obtain ⟨n, hn, hid, hsub⟩ := mem_retainParents hw.ids hm
  exact .single (edge_deps_iff.mpr ⟨hids ▸ hp, n, hn, hid.trans hv, hsub hpm⟩)

/-! ## A node removed -/

theorem mem_foldl_pushNew {l acc : List String} : q ∈ l.foldl pushNew acc ↔ q ∈ acc ∨ q ∈ l := by
  induction l generalizing acc with
  | nil => simp
  | cons id l ih =>
    rw [foldl_cons, ih, pushNew]
    split
    · rename_i h
      grind
    · simp only [mem_append, mem_cons, not_mem_nil]
      grind

theorem mem_reparent {inherited : List String} :
    q ∈ reparent id inherited parents ↔ q ∈ parents ∧ q ≠ id ∨ id ∈ parents ∧ q ∈ inherited := by
  rw [reparent, mem_foldl_pushNew, mem_flatMap]
  constructor
  · rintro (hq | ⟨p, hp, hq⟩)
    · cases hq
    split at hq
    · rename_i e
      exact .inr ⟨e ▸ hp, hq⟩
    · rename_i e
      rw [mem_singleton.mp hq]
      exact .inl ⟨hp, e⟩
  · rintro (⟨hq, hne⟩ | ⟨hid, hq⟩)
    · exact .inr ⟨q, hq, by rw [if_neg hne]; exact mem_singleton_self q⟩
    · exact .inr ⟨id, hid, by rwa [if_pos rfl]⟩

theorem nodup_foldl_pushNew {l acc : List String} (h : acc.Nodup) : (l.foldl pushNew acc).Nodup := by
  induction l generalizing acc with
  | nil => exact h
  | cons id l ih =>
    refine ih ?_
    unfold pushNew
    split
    · exact h
    · rename_i hnew
      exact nodup_append_comm.mp (nodup_cons.mpr ⟨by simpa using hnew, h⟩)

theorem eraseP_eq_filter (id : String) {ns : List StackNode} (h : (ns.map (·.nodeId)).Nodup) :
    ns.eraseP (·.nodeId == id) = ns.filter (·.nodeId ≠ id) := by
  induction ns with
  | nil => rfl
  | cons n ns ih =>
    rw [map_cons, nodup_cons] at h
    by_cases e : n.nodeId = id
    · have hrest : ns.filter (·.nodeId ≠ id) = ns := by
        refine filter_eq_self.mpr fun m hm => ?_
        have : m.nodeId ≠ n.nodeId := fun e' => h.1 (e' ▸ mem_map_of_mem hm)
        simpa [e] using this
      rw [eraseP_cons_of_pos (by simp [e]), filter_cons_of_neg (by simp [e]), hrest]
    · rw [eraseP_cons_of_neg (by simp [e]), filter_cons_of_pos (by simp [e]), ih h.2]

/-- What a surviving node `n` has become: its parents are its own and, where it listed the removed node, that node's. -/
structure Adopts (id : String) (removed n m : StackNode) : Prop where
  nodeId : m.nodeId = n.nodeId
  parents : ∀ q, q ∈ m.parents ↔ q ≠ id ∧ (q ∈ n.parents ∨ id ∈ n.parents ∧ q ∈ removed.parents)
  once : ∀ q, m.parents.count q ≤ max 1 (n.parents.count q)

theorem remove_nodes (h : s.ids.Nodup) (hid : id ∈ s.ids) : ∃ removed adopt, s.node id = some removed ∧
    (removeNodeReparentingChildren id s).2 = { s with nodes := (s.nodes.filter (·.nodeId ≠ id)).map adopt } ∧
      ∀ n, Adopts id removed n (adopt n) := by
  obtain ⟨removed, hremoved⟩ := Option.ne_none_iff_exists'.mp (mt Stack.node_eq_none_iff.mp (not_not.mpr hid))
  unfold removeNodeReparentingChildren
  rw [hremoved, eraseP_eq_filter id h]
  refine ⟨removed, _, rfl, rfl, fun n => ?_⟩
  split
  · rename_i hin
    refine ⟨rfl, fun q => ?_, fun q => ?_⟩
    · simp only [mem_reparent, mem_filter, decide_eq_true_eq]
      grind
    · exact Nat.le_trans (nodup_iff_count_le_one.mp (nodup_foldl_pushNew nodup_nil) q) (Nat.le_max_left _ _)
  rename_i hnot
  refine ⟨rfl, fun q => ?_, fun q => Nat.le_max_right _ _⟩
  grind

theorem remove_map {β : Type} (g : StackNode → β) (hg : ∀ n ps, g { n with parents := ps } = g n) (id : String)
    (s : Stack) : (removeNodeReparentingChildren id s).2.nodes.map g = (s.nodes.eraseP (·.nodeId == id)).map g := by
  unfold removeNodeReparentingChildren
  split
  · rename_i hnone
    rw [eraseP_of_forall_not]
    intro n hn hid
    exact find?_eq_none.mp hnone n hn hid
  rw [map_map]
  refine map_congr_left fun c _ => ?_
  simp only [Function.comp_apply]
  split
  · exact hg c _
  · rfl

theorem mem_ids_remove (h : s.ids.Nodup) :
    v ∈ (removeNodeReparentingChildren id s).2.ids ↔ v ∈ s.ids ∧ v ≠ id := by
  unfold ids
  rw [remove_map _ (fun _ _ => rfl), eraseP_eq_filter id h]
  grind

theorem remove_of_not_mem (h : id ∉ s.ids) : removeNodeReparentingChildren id s = (none, s) := by
  unfold removeNodeReparentingChildren
  rw [Stack.node_eq_none_iff.mpr h]

/-- An edge between the others is one there was, or stands for the two through the removed node. -/
theorem edge_remove (h : s.ids.Nodup) (hid : id ∈ s.ids) (p v : String) :
    Graph.Edge (removeNodeReparentingChildren id s).2.deps p v ↔ p ≠ id ∧ v ≠ id ∧
      (Graph.Edge s.deps p v ∨ Graph.Edge s.deps p id ∧ Graph.Edge s.deps id v) := by
  obtain ⟨removed, adopt, hremoved, hrest, hadopt⟩ := remove_nodes h hid
  have hnodes := congrArg nodes hrest
  obtain ⟨hr, hrid⟩ := node_mem hremoved
  have honly : ∀ r ∈ s.nodes, r.nodeId = id → r = removed :=
    fun r hr' e => inj_on_of_nodup_map h hr' hr (e.trans hrid.symm)
  simp only [edge_deps_iff, mem_ids_remove h, hnodes, mem_map, mem_filter, decide_eq_true_eq,
    exists_exists_and_eq_and, (hadopt _).nodeId, (hadopt _).parents]
  grind

theorem acyclic_remove (hw : s.WellFormed) (hid : id ∈ s.ids) :
    Graph.Acyclic (removeNodeReparentingChildren id s).2.deps := by
  intro v hv
  obtain ⟨x, hx, -⟩ := Relation.TransGen.head'_iff.mp hv
  have hne := ((edge_remove hw.ids hid v x).mp hx).1
  exact hw.acyclic v
    ((Graph.transGen_splice (Graph.acyclic_no_self hw.acyclic id) (edge_remove hw.ids hid) hne hne).mp hv)

theorem wellFormed_remove (hw : s.WellFormed) (id : String) : (removeNodeReparentingChildren id s).2.WellFormed := by
  by_cases hid : id ∈ s.ids
  · refine ⟨?_, ?_, acyclic_remove hw hid⟩
    · unfold ids
      rw [remove_map _ (fun _ _ => rfl)]
      exact hw.ids.sublist (eraseP_sublist.map _)
    obtain ⟨removed, adopt, hremoved, hrest, hadopt⟩ := remove_nodes hw.ids hid
    intro m hm q hq
    rw [hrest] at hm
    obtain ⟨n, hn, rfl⟩ := mem_map.mp hm
    obtain ⟨hqid, hq⟩ := ((hadopt n).parents q).mp hq
    rw [mem_ids_remove hw.ids]
    rcases hq with hq | ⟨-, hq⟩
    · exact ⟨hw.parents n (mem_filter.mp hn).1 q hq, hqid⟩
    · exact ⟨hw.parents removed (node_mem hremoved).1 q hq, hqid⟩
  · rw [remove_of_not_mem hid]
    exact hw

def StackNode.unparented (n : StackNode) : StackNode := { n with parents := [] }

/-- The stack `s'` is `s` without the node `id`. -/
structure SplicedOut (id : String) (s s' : Stack) : Prop where
  others : s'.version = s.version ∧
    s'.nodes.map StackNode.unparented = (s.nodes.filter (·.nodeId ≠ id)).map StackNode.unparented
  ancestors : ∀ a b, a ≠ id → b ≠ id →
    (Relation.TransGen (Graph.Edge s'.deps) a b ↔ Relation.TransGen (Graph.Edge s.deps) a b)
  unnamed : ∀ m ∈ s'.nodes, id ∉ m.parents
  once : ∀ n ∈ s.nodes, ∀ m ∈ s'.nodes, m.nodeId = n.nodeId → ∀ q, m.parents.count q ≤ max 1 (n.parents.count q)
  acyclic : Graph.Acyclic s'.deps

theorem a_removed_node_is_spliced_out (hw : s.WellFormed) (hid : id ∈ s.ids) :
    SplicedOut id s (removeNodeReparentingChildren id s).2 := by
  obtain ⟨removed, adopt, -, hrest, hadopt⟩ := remove_nodes hw.ids hid
  have hnodes := congrArg nodes hrest
  refine ⟨⟨by rw [hrest], ?_⟩, fun a b => ?_, fun m hm => ?_, fun n hn m hm he => ?_, acyclic_remove hw hid⟩
  · rw [remove_map _ (fun _ _ => rfl), eraseP_eq_filter id hw.ids]
  · exact Graph.transGen_splice (Graph.acyclic_no_self hw.acyclic id) (edge_remove hw.ids hid)
  · obtain ⟨n, -, rfl⟩ := mem_map.mp (hnodes ▸ hm)
    exact fun hin => (((hadopt n).parents id).mp hin).1 rfl
  obtain ⟨n', hn', rfl⟩ := mem_map.mp (hnodes ▸ hm)
  obtain rfl : n' = n :=
    inj_on_of_nodup_map hw.ids (mem_filter.mp hn').1 hn ((hadopt n').nodeId.symm.trans he)
  exact (hadopt n').once

/-- `b` hangs on `v` and on its parent: without `v` it keeps one edge to `a`. -/
theorem a_diamond_is_spliced_out :
    SplicedOut "v" ⟨1, [bareNode "a" [], bareNode "v" ["a"], bareNode "b" ["v", "a"]]⟩
      ⟨1, [bareNode "a" [], bareNode "b" ["a"]]⟩ :=
  have hacyclic := (Stack.topoOrder_ok_iff.mp ⟨["a", "v", "b"], by decide⟩).2
  a_removed_node_is_spliced_out ⟨by decide, by decide, hacyclic⟩ (by decide)

end TddyCoder.PrStack
