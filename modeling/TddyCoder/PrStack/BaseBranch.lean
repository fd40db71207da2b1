/-
  TddyCoder.PrStack.BaseBranch — the base branch the web derives for a planned node against
  the one the daemon derives (`resolveStackBase` of
  `packages/tddy-web/src/components/sessions/prstack/deriveStackBaseBranch.ts`;
  `Stack::effective_base_refs`).

  The web searches through merged parents, depth first, with one `visited` set; the daemon stops
  at the direct parents. An empty branch name is no branch to the web and a branch to the
  daemon. `nearest` is the branch of the first live ancestor.

  Proved: `bases_agree_iff`; they do not in `bases_differ_above_a_merged_parent`.
-/

import TddyCoder.PrStack.Nodes

namespace TddyCoder.PrStack

open List

/-! ## The web's search -/

inductive StackBase where
  | defaultBranch
  | ancestorBranch (branch : String)
  | noAncestorBranch (plannedBranch : Option String)
  deriving DecidableEq

/-- `new Map(nodes.map((n) => [n.nodeId, n])).get(id)`: the last node of an id wins. -/
def byId (nodes : List StackNode) (nodeId : String) : Option StackNode := nodes.reverse.find? (·.nodeId == nodeId)

/-- `if (parent.branch)`: a branch that is neither null nor empty. -/
def StackNode.truthyBranch (n : StackNode) : Option String := n.branch.filter (· ≠ "")

/-- The loop of `resolve` over the parents, with the recursive call as a parameter. The set
    `visited` is shared with that call, so every result carries it on. -/
def resolveParents (resolve : StackNode → List String → StackBase × List String) (nodes : List StackNode) :
    List String → Option StackBase → List String → StackBase × List String
  | [], branchless, visited => (branchless.getD .defaultBranch, visited)
  | parentId :: parents, branchless, visited =>
    match byId nodes parentId with
    | none => resolveParents resolve nodes parents branchless visited
    | some parent =>
      if visited.contains parent.nodeId then resolveParents resolve nodes parents branchless visited
      else if parent.isSkipped then
        match resolve parent (parent.nodeId :: visited) with
        | (.ancestorBranch branch, visited) => (.ancestorBranch branch, visited)
        | (.noAncestorBranch planned, visited) =>
          resolveParents resolve nodes parents (branchless <|> some (.noAncestorBranch planned)) visited
        | (.defaultBranch, visited) => resolveParents resolve nodes parents branchless visited
      else
        match parent.truthyBranch with
        | some branch => (.ancestorBranch branch, parent.nodeId :: visited)
        | none =>
          resolveParents resolve nodes parents (branchless <|> some (.noAncestorBranch parent.branchSuggestion))
            (parent.nodeId :: visited)

def resolve (nodes : List StackNode) : Nat → StackNode → List String → StackBase × List String
  | 0, _, visited => (.defaultBranch, visited)
  | depth + 1, current, visited => resolveParents (resolve nodes depth) nodes current.parents none visited

/-- Every call marks a node of its own as visited, so one more call than nodes is never made. -/
def resolveStackBase (node : StackNode) (nodes : List StackNode) : StackBase :=
  (resolve nodes (nodes.length + 1) node [node.nodeId]).1

def StackBase.branch : StackBase → Option String
  | .ancestorBranch branch => some branch
  | _ => none

/-- The base as the remote-tracking ref the daemon speaks of: the stack's own base when no ancestor gives one. -/
def StackBase.ref (base : StackBase) (stackBottomBase : String) : String :=
  (base.branch.map ("origin/" ++ ·)).getD stackBottomBase

/-! ## The nearest live ancestor -/

namespace Stack

def parentNodes (s : Stack) (n : StackNode) : List StackNode := n.parents.filterMap s.node

/-- The branch of the first live ancestor at most `depth` parents up, through merged ones. -/
def climb (s : Stack) : Nat → StackNode → Option String
  | 0, _ => none
  | depth + 1, n => (s.parentNodes n).findSome? fun p => if p.isSkipped then s.climb depth p else p.truthyBranch

def nearest (s : Stack) (n : StackNode) : Option String := s.climb (s.nodes.length + 1) n

def offered (s : Stack) (p : StackNode) : Option String := if p.isSkipped then s.nearest p else p.truthyBranch

end Stack

/-- The base a parent offers to a search that stays with the direct parents. -/
def StackNode.liveBranch (p : StackNode) : Option String := if p.isSkipped then none else p.branch

open StackNode (liveBranch truthyBranch)

variable {n p : StackNode} {s : Stack}

theorem mem_parentNodes (h : p ∈ s.parentNodes n) : p ∈ s.nodes ∧ p.nodeId ∈ n.parents := by
  obtain ⟨id, hid, hp⟩ := mem_filterMap.mp h
  obtain ⟨hmem, rfl⟩ := Stack.node_mem hp
  exact ⟨hmem, hid⟩

/-- A numbering of the ids in which parents stand below their children. -/
structure Stack.Ranked (s : Stack) (rank : String → Nat) : Prop where
  below : ∀ n ∈ s.nodes, ∀ p ∈ s.parentNodes n, rank p.nodeId < rank n.nodeId
  bound : ∀ n ∈ s.nodes, rank n.nodeId < s.nodes.length

theorem Stack.WellFormed.ranked (hw : s.WellFormed) : ∃ rank, s.Ranked rank := by
  obtain ⟨order, horder⟩ := Stack.topoOrder_ok_iff.mpr ⟨hw.ids, hw.acyclic⟩
  obtain ⟨hkahn, hlen⟩ := Stack.topoOrder_eq_ok horder
  have hmem : ∀ n ∈ s.nodes, n.nodeId ∈ order := fun n hn =>
    (Stack.topoOrder_mem horder _).mpr (Stack.mem_ids.mpr ⟨n, hn, rfl⟩)
  refine ⟨order.idxOf, ?_, ?_⟩
  · intro n hn p hp
    obtain ⟨hp, hparent⟩ := mem_parentNodes hp
    have hedge : Graph.Edge s.deps p.nodeId n.nodeId :=
      edge_deps_iff.mpr ⟨Stack.mem_ids.mpr ⟨p, hp, rfl⟩, n, hn, rfl, hparent⟩
    exact Graph.closed_idx (hkahn ▸ Graph.kahn_closed s.keys_ok) hedge (hmem n hn)
  · intro n hn
    rw [← hlen]
    exact idxOf_lt_length_of_mem (hmem n hn)

theorem findSome_congr {α β : Type} {f g : α → Option β} {l : List α} (h : ∀ a ∈ l, f a = g a) :
    l.findSome? f = l.findSome? g := by
  rw [← head?_filterMap, ← head?_filterMap, filterMap_congr h]

section Climb

variable {s : Stack} {rank : String → Nat} (hr : s.Ranked rank)
include hr

/-- A search deeper than the node's rank has seen all there is. -/
theorem climb_stable (depth depth' : Nat) (hn : n ∈ s.nodes) (h : rank n.nodeId < depth)
    (h' : rank n.nodeId < depth') : s.climb depth n = s.climb depth' n := by
  induction depth generalizing depth' n with
  | zero => omega
  | succ depth ih =>
    obtain _ | depth' := depth'
    · omega
    refine findSome_congr fun p hp => ?_
    have hlt := hr.below n hn p hp
    rw [ih depth' (mem_parentNodes hp).1 (by omega) (by omega)]

theorem nearest_eq (n : StackNode) : s.nearest n = (s.parentNodes n).findSome? s.offered := by
  show (s.parentNodes n).findSome? _ = _
  refine findSome_congr fun p hp => ?_
  have hb := hr.bound p (mem_parentNodes hp).1
  rw [Stack.offered, Stack.nearest, climb_stable hr _ _ (mem_parentNodes hp).1 hb (Nat.lt_succ_of_lt hb)]

end Climb

/-! ## The web finds the nearest live ancestor -/

theorem byId_nodes (h : s.ids.Nodup) (id : String) : byId s.nodes id = s.node id := by
  unfold byId
  cases hf : s.nodes.reverse.find? (·.nodeId == id) with
  | none =>
    refine (Stack.node_eq_none_iff.mpr fun hid => ?_).symm
    obtain ⟨n, hn, rfl⟩ := Stack.mem_ids.mp hid
    have := find?_eq_none.mp hf n (mem_reverse.mpr hn)
    simp at this
  | some n =>
    have hid : n.nodeId = id := by simpa using find?_some hf
    rw [← hid, Stack.node_of_mem h (mem_reverse.mp (mem_of_find?_eq_some hf))]

def Barren (s : Stack) (v : String) : Prop := ∀ m, s.node v = some m → s.offered m = none

/-- A search that was to find `target`: it found it, and what it newly visited without finding it is barren. -/
structure Searched (s : Stack) (target : Option String) (visited : List String) (r : StackBase × List String) :
    Prop where
  base : r.1.branch = target
  barren : target = none → ∀ v ∈ r.2, v ∈ visited ∨ Barren s v

variable {visited : List String} {offer : StackNode → Option String}

section Search

variable {s : Stack} {rank : String → Nat} (hids : s.ids.Nodup) (hr : s.Ranked rank)

/-- What has been visited when the search stands at `n`: barren nodes, and the path it came by. -/
def Sound (s : Stack) (rank : String → Nat) (n : StackNode) (visited : List String) : Prop :=
  ∀ v ∈ visited, Barren s v ∨ rank n.nodeId ≤ rank v

variable {branchless : Option StackBase} {rec : StackNode → List String → StackBase × List String}

omit hids in
theorem planned_branchless (h : branchless.bind StackBase.branch = none)
    (planned : Option String) : (branchless <|> some (StackBase.noAncestorBranch planned)).bind StackBase.branch = none := by
  cases branchless with
  | none => rfl
  | some base => exact h

include hids

theorem barren_of_offered (hp : p ∈ s.nodes) (h : s.offered p = none) : Barren s p.nodeId := by
  intro m hm
  rw [Stack.node_of_mem hids hp] at hm
  cases hm
  exact h

/-- One turn of the loop, given that the recursive call searches the parent as it should: the parent's
    offer is the answer, or it has none and the loop goes on with nothing new but barren nodes. -/
theorem resolveParents_cons
    (hp : p ∈ s.nodes) (hlt : rank p.nodeId < rank n.nodeId)
    (hrec : ∀ visited, Sound s rank p visited → Searched s (s.nearest p) visited (rec p visited))
    (parents : List String) (hb : branchless.bind StackBase.branch = none) (hv : Sound s rank n visited) :
    (∃ branch visited', s.offered p = some branch ∧
      resolveParents rec s.nodes (p.nodeId :: parents) branchless visited = (.ancestorBranch branch, visited')) ∨
    (s.offered p = none ∧ ∃ branchless' visited', branchless'.bind StackBase.branch = none ∧
      (∀ v ∈ visited', v ∈ visited ∨ Barren s v) ∧
      resolveParents rec s.nodes (p.nodeId :: parents) branchless visited =
        resolveParents rec s.nodes parents branchless' visited') := by
  have hnode : s.node p.nodeId = some p := Stack.node_of_mem hids hp
  have hnew : s.offered p = none → ∀ visited' : List String, (∀ v ∈ visited', v ∈ p.nodeId :: visited ∨ Barren s v) →
      ∀ v ∈ visited', v ∈ visited ∨ Barren s v := by
    intro hoff visited' h v hin
    rcases h v hin with hold | hbar
    · rcases mem_cons.mp hold with rfl | hold
      · exact .inr (barren_of_offered hids hp hoff)
      · exact .inl hold
    · exact .inr hbar
  simp only [resolveParents, byId_nodes hids, hnode]
  by_cases hseen : visited.contains p.nodeId = true
  · -- seen before: it is not on the path to `n`, so it was searched in vain
    rw [if_pos hseen]
    refine .inr ⟨?_, branchless, visited, hb, fun v hin => .inl hin, rfl⟩
    rcases hv p.nodeId (by simpa using hseen) with hbar | hle
    · exact hbar p hnode
    · omega
  rw [if_neg hseen]
  by_cases hmerged : p.isSkipped = true
  · rw [if_pos hmerged]
    have hoff : s.offered p = s.nearest p := if_pos hmerged
    have hs := hrec (p.nodeId :: visited) fun v hin => by
      rcases mem_cons.mp hin with rfl | hin
      · exact .inr le_rfl
      · exact (hv v hin).imp_right (hlt.le.trans ·)
    -- the merged parent's own search gives nothing, a branch, or a planned name
    rcases hres : rec p (p.nodeId :: visited) with ⟨_ | branch | planned, visited'⟩ <;> rw [hres] at hs
    · have hnone : s.offered p = none := hoff.trans hs.base.symm
      exact .inr ⟨hnone, branchless, visited', hb, hnew hnone _ (hs.barren hs.base.symm), rfl⟩
    · exact .inl ⟨branch, visited', hoff.trans hs.base.symm, rfl⟩
    · have hnone : s.offered p = none := hoff.trans hs.base.symm
      exact .inr ⟨hnone, _, visited', planned_branchless hb planned, hnew hnone _ (hs.barren hs.base.symm), rfl⟩
  · rw [if_neg hmerged]
    have hoff : s.offered p = p.truthyBranch := if_neg hmerged
    cases hbranch : p.truthyBranch with
    | some branch => exact .inl ⟨branch, _, hoff.trans hbranch, rfl⟩
    | none =>
      have hnone := hoff.trans hbranch
      exact .inr ⟨hnone, _, _, planned_branchless hb _, hnew hnone _ fun v hin => .inl hin, rfl⟩

theorem resolveParents_searched
    (hrec : ∀ p ∈ s.nodes, rank p.nodeId < rank n.nodeId → ∀ visited, Sound s rank p visited →
      Searched s (s.nearest p) visited (rec p visited)) (parents : List String)
    (hlt : ∀ p ∈ parents.filterMap s.node, rank p.nodeId < rank n.nodeId)
    (hb : branchless.bind StackBase.branch = none) (hv : Sound s rank n visited) :
    Searched s ((parents.filterMap s.node).findSome? s.offered) visited
      (resolveParents rec s.nodes parents branchless visited) := by
  induction parents generalizing branchless visited with
  | nil =>
    refine ⟨?_, fun _ v hin => .inl hin⟩
    cases branchless with
    | none => rfl
    | some base => exact hb
  | cons id parents ih =>
    cases hid : s.node id with
    | none =>
      rw [filterMap_cons_none hid] at hlt ⊢
      simp only [resolveParents, byId_nodes hids, hid]
      exact ih hlt hb hv
    | some p =>
      rw [filterMap_cons_some hid] at hlt ⊢
      obtain ⟨hp, rfl⟩ := Stack.node_mem hid
      have hrank := hlt p mem_cons_self
      rcases resolveParents_cons hids hp hrank (hrec p hp hrank) parents hb hv with
        ⟨branch, visited', hoff, heq⟩ | ⟨hoff, branchless', visited', hb', hnew, heq⟩
      · rw [heq, findSome?_cons, hoff]
        exact ⟨rfl, nofun⟩
      rw [heq, findSome?_cons, hoff]
      have hrest := ih (fun q hq => hlt q (mem_cons_of_mem _ hq)) hb' fun v hin =>
        (hnew v hin).elim (hv v) .inl
      exact ⟨hrest.base, fun ht v hin => (hrest.barren ht v hin).elim (hnew v) .inr⟩

include hr

/-- The search finds the nearest live ancestor; what it skips as visited had none to offer. -/
theorem resolve_searched (depth : Nat) (hn : n ∈ s.nodes) (h : rank n.nodeId < depth) (hv : Sound s rank n visited) :
    Searched s (s.nearest n) visited (resolve s.nodes depth n visited) := by
  induction depth generalizing n visited with
  | zero => omega
  | succ depth ih =>
    rw [nearest_eq hr]
    refine resolveParents_searched hids ?_ n.parents (hr.below n hn) rfl hv
    intro p hp hlt visited' hv'
    exact ih hp (by omega) hv'

end Search

theorem resolveStackBase_branch (hw : s.WellFormed) (hn : n ∈ s.nodes) :
    (resolveStackBase n s.nodes).branch = s.nearest n := by
  obtain ⟨rank, hr⟩ := hw.ranked
  have hb := hr.bound n hn
  refine (resolve_searched hw.ids hr (s.nodes.length + 1) hn (by omega) fun v hv => ?_).base
  rw [mem_singleton.mp hv]
  exact .inr le_rfl

/-! ## The daemon's base -/

/-- The ref of a base given by one of these parents, or the bottom base. -/
def refOf (offer : StackNode → Option String) (parents : List StackNode) (stackBottomBase : String) : String :=
  ((parents.findSome? offer).map ("origin/" ++ ·)).getD stackBottomBase

theorem effectiveBaseRefs_head (hids : s.ids.Nodup) (hn : n ∈ s.nodes) (bottom : String) :
    (s.effectiveBaseRefs n.nodeId bottom).head? = some (refOf liveBranch (s.parentNodes n) bottom) := by
  have hlive : ((n.parents.filterMap s.node).filter fun p => !p.isSkipped).filterMap (·.branch) =
      (s.parentNodes n).filterMap liveBranch := by
    rw [filterMap_filter]
    refine filterMap_congr fun p _ => ?_
    unfold liveBranch
    cases p.isSkipped <;> rfl
  unfold Stack.effectiveBaseRefs refOf
  simp only [Stack.node_of_mem hids hn, hlive, ← head?_filterMap]
  cases (s.parentNodes n).filterMap liveBranch <;> rfl

/-! ## When the two bases are one -/

/-- Down the parents, to the first that offers either side a base. An unmerged parent with a branch name
    settles it. Through a merged one only the web finds a branch, and an empty branch name is one to the
    daemon only: there the other side goes on to the later parents and has to end at the same ref. -/
def BasesAgree (s : Stack) (stackBottomBase : String) : List StackNode → Prop
  | [] => True
  | p :: parents =>
    if p.isSkipped then
      match s.nearest p with
      | none => BasesAgree s stackBottomBase parents
      | some branch => "origin/" ++ branch = refOf liveBranch parents stackBottomBase
    else
      match p.branch with
      | none => BasesAgree s stackBottomBase parents
      | some branch => branch = "" → "origin/" = refOf s.offered parents stackBottomBase

theorem refOf_cons_none (h : offer p = none)
    (parents : List StackNode) (bottom : String) : refOf offer (p :: parents) bottom = refOf offer parents bottom := by
  rw [refOf, refOf, findSome?_cons, h]

theorem refOf_cons_some {branch : String}
    (h : offer p = some branch) (parents : List StackNode) (bottom : String) :
    refOf offer (p :: parents) bottom = "origin/" ++ branch := by
  rw [refOf, findSome?_cons, h]
  rfl

theorem refOf_eq_iff (s : Stack) (bottom : String) (parents : List StackNode) :
    refOf s.offered parents bottom = refOf liveBranch parents bottom ↔ BasesAgree s bottom parents := by
  induction parents with
  | nil => exact ⟨fun _ => trivial, fun _ => rfl⟩
  | cons p parents ih =>
    unfold BasesAgree
    by_cases hmerged : p.isSkipped = true
    · rw [if_pos hmerged]
      have hoff : s.offered p = s.nearest p := if_pos hmerged
      have hlive : p.liveBranch = none := if_pos hmerged
      cases hnear : s.nearest p with
      | none => rw [refOf_cons_none (hoff.trans hnear), refOf_cons_none hlive, ih]
      | some branch => rw [refOf_cons_some (hoff.trans hnear), refOf_cons_none hlive]
    rw [if_neg hmerged]
    have hoff : s.offered p = p.truthyBranch := if_neg hmerged
    have hlive : p.liveBranch = p.branch := if_neg hmerged
    cases hbranch : p.branch with
    | none =>
      have hnone : p.truthyBranch = none := by rw [truthyBranch, hbranch]; rfl
      rw [refOf_cons_none (hoff.trans hnone), refOf_cons_none (hlive.trans hbranch), ih]
    | some branch =>
      rw [refOf_cons_some (hlive.trans hbranch)]
      by_cases hempty : branch = ""
      · have hnone : p.truthyBranch = none := by simp [truthyBranch, hbranch, hempty]
        rw [refOf_cons_none (hoff.trans hnone), hempty]
        exact ⟨fun h _ => h.symm, fun h => (h rfl).symm⟩
      · have hsome : p.truthyBranch = some branch := by simp [truthyBranch, hbranch, hempty]
        rw [refOf_cons_some (hoff.trans hsome)]
        exact ⟨fun _ h => absurd h hempty, fun _ => rfl⟩

/-- The base the web shows is the first base the daemon derives exactly when the first parent that offers
    either a base lets them agree. -/
theorem bases_agree_iff {s : Stack} (hw : s.WellFormed) {n : StackNode} (hn : n ∈ s.nodes) (bottom : String) :
    (s.effectiveBaseRefs n.nodeId bottom).head? = some ((resolveStackBase n s.nodes).ref bottom) ↔
      BasesAgree s bottom (s.parentNodes n) := by
  obtain ⟨rank, hr⟩ := hw.ranked
  rw [effectiveBaseRefs_head hw.ids hn, StackBase.ref, resolveStackBase_branch hw hn, nearest_eq hr,
    ← refOf_eq_iff, Option.some_inj]
  exact eq_comm

def branchNode (nodeId branch phase : String) (parents : List String) : StackNode :=
  StackNode.mk nodeId "" "" none (some branch) none parents (some ⟨phase, none, none⟩) none none none

def mergedMiddle (phase : String) : Stack :=
  ⟨1, [branchNode "a" "feature/a" phase [], branchNode "b" "feature/b" "merged" ["a"],
    branchNode "c" "feature/c" "open" ["b"]]⟩

theorem mergedMiddle_wellFormed (phase : String) : (mergedMiddle phase).WellFormed := by
  have horder : (mergedMiddle phase).topoOrder = .ok ["a", "b", "c"] :=
    (Stack.topoOrder_congr rfl).trans (by decide : (mergedMiddle "open").topoOrder = _)
  obtain ⟨hids, hacyclic⟩ := Stack.topoOrder_ok_iff.mp ⟨_, horder⟩
  refine ⟨hids, ?_, hacyclic⟩
  simp [mergedMiddle, branchNode, Stack.ids]

/-- Everything below `c` is merged: both sides fall back to the bottom base. -/
theorem bases_agree_on_a_merged_chain :
    (mergedMiddle "merged").effectiveBaseRefs "c" "origin/main" = ["origin/main"] ∧
      BasesAgree (mergedMiddle "merged") "origin/main"
        ((mergedMiddle "merged").parentNodes (branchNode "c" "feature/c" "open" ["b"])) :=
  ⟨by decide, (bases_agree_iff (mergedMiddle_wellFormed _) (by decide) _).mp (by decide)⟩

/-- Below the merged `b` stands the open `a`: the web shows `feature/a`, the daemon takes the bottom base. -/
theorem bases_differ_above_a_merged_parent : ¬ ∀ s : Stack, s.WellFormed → ∀ n ∈ s.nodes, ∀ bottom,
    (s.effectiveBaseRefs n.nodeId bottom).head? = some ((resolveStackBase n s.nodes).ref bottom) := by
  intro h
  have := h (mergedMiddle "open") (mergedMiddle_wellFormed _) (branchNode "c" "feature/c" "open" ["b"]) (by decide)
    "origin/main"
  revert this
  decide

end TddyCoder.PrStack
