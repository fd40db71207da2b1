/-
  TddyCoder.PrStack.Order — the operator's reading order: numbering and the one-step move
  (`packages/tddy-pr-stack/src/stack_ops/order.rs`).

  `assignMissingDisplayOrder` numbers the nodes that carry no position, after the highest
  one recorded, in `numberingOrder`: rounds of the nodes whose known parents are all
  placed, each round in declaration order; a round that places nothing (a cycle) lists
  what is left. A round takes at least one node, so as many rounds as nodes are enough.
  `swapWithNeighbour` exchanges the positions of a node and the row above or below it.
-/

import TddyCoder.PrStack.Stack

namespace TddyCoder.PrStack

open List

namespace Stack

variable (s : Stack)

/-- `next_display_order`: one past the highest position recorded, or 0. -/
def nextDisplayOrder : Nat :=
  match (s.nodes.filterMap (·.displayOrder)).max? with
  | none => 0
  | some highest => saturatingSucc highest

def isReady (known placed : List String) (n : StackNode) : Bool :=
  n.parents.all fun p => !known.contains p || placed.contains p

/-- The loop of `numbering_order`, with `rounds` rounds left. -/
def numberingRounds (known : List String) : Nat → List String → List StackNode → List String → List String
  | 0, _, _, ordered => ordered
  | rounds + 1, placed, remaining, ordered =>
    if remaining.isEmpty then ordered
    else
      let ready := remaining.filter (isReady known placed)
      let blocked := remaining.filter fun n => !isReady known placed n
      if ready.isEmpty then ordered ++ blocked.map (·.nodeId)
      else numberingRounds known rounds (placed ++ ready.map (·.nodeId)) blocked (ordered ++ ready.map (·.nodeId))

def numberingOrder : List String := numberingRounds s.ids s.nodes.length [] s.nodes []

/-- One turn of the numbering loop: the stack so far, and the position to give next. -/
def numberNode (acc : Stack × Nat) (nodeId : String) : Stack × Nat :=
  match acc.1.node nodeId with
  | none => acc
  | some n =>
    if n.displayOrder.isNone then
      (acc.1.modifyNode nodeId fun n => { n with displayOrder := some acc.2 }, saturatingSucc acc.2)
    else acc

def assignMissingDisplayOrder : Stack :=
  (s.numberingOrder.foldl numberNode (s, s.nextDisplayOrder)).1

variable (nodeId : String)

def positionOf : Option Nat := (s.node nodeId).bind (·.displayOrder)

def neighbourOf (up : Bool) : Option String :=
  let order := s.displayOrder
  match order.findIdx? (· == nodeId), up with
  | none, _ => none
  | some 0, true => none
  | some (position + 1), true => order[position]?
  | some position, false => order[position + 1]?

def swapWithNeighbour (up : Bool) : Stack :=
  match s.neighbourOf nodeId up with
  | none => s
  | some neighbour =>
    match s.positionOf nodeId, s.positionOf neighbour with
    | some moved, some displaced =>
      { s with nodes := s.nodes.map fun n =>
          if n.nodeId = nodeId then { n with displayOrder := some displaced }
          else if n.nodeId = neighbour then { n with displayOrder := some moved }
          else n }
    | _, _ => s

end Stack

/-! ## What numbering leaves alone -/

def StackNode.unnumbered (n : StackNode) : StackNode := { n with displayOrder := none }

open StackNode (unnumbered)

namespace Stack

def SamePlan (s s' : Stack) : Prop :=
  s.version = s'.version ∧ s.nodes.map unnumbered = s'.nodes.map unnumbered

theorem SamePlan.refl (s : Stack) : s.SamePlan s := ⟨rfl, rfl⟩

variable {s : Stack}

theorem SamePlan.trans {t u : Stack} (h : s.SamePlan t) (h' : t.SamePlan u) : s.SamePlan u :=
  ⟨h.1.trans h'.1, h.2.trans h'.2⟩

variable {s' : Stack}

section

variable (h : s.SamePlan s')
include h

theorem SamePlan.map {β : Type} (g : StackNode → β)
    (hg : ∀ n, g n.unnumbered = g n) : s.nodes.map g = s'.nodes.map g := by
  have he := congrArg (List.map g) h.2
  rw [map_map, map_map] at he
  have hgu : g ∘ unnumbered = g := funext hg
  rw [hgu] at he
  exact he

theorem SamePlan.ids : s.ids = s'.ids := h.map _ fun _ => rfl

theorem SamePlan.deps : s.deps = s'.deps := h.map _ fun _ => rfl

theorem SamePlan.node (id : String) :
    (s.node id).map unnumbered = (s'.node id).map unnumbered := by
  have hf : ∀ t : Stack, (t.node id).map unnumbered =
      (t.nodes.map unnumbered).find? (·.nodeId == id) := by
    intro t
    rw [find?_map]
    rfl
  rw [hf, hf, h.2]

theorem SamePlan.modifyNode {f : StackNode → StackNode}
    (hf : ∀ n, (f n).unnumbered = f n.unnumbered) (id : String) : (s.modifyNode id f).SamePlan (s'.modifyNode id f) := by
  refine ⟨h.1, ?_⟩
  show (modifyFirst f id s.nodes).map _ = (modifyFirst f id s'.nodes).map _
  have hcomm : ∀ ns, (modifyFirst f id ns).map unnumbered = modifyFirst f id (ns.map unnumbered) := by
    intro ns
    induction ns with
    | nil => rfl
    | cons n ns ih =>
      simp only [modifyFirst, map_cons, show n.unnumbered.nodeId = n.nodeId from rfl]
      split
      · rw [map_cons, hf]
      · rw [map_cons, ih]
  rw [hcomm, hcomm, h.2]

end

open SamePlan

theorem numberNode_samePlan (acc : Stack × Nat) (id : String) : (numberNode acc id).1.SamePlan acc.1 := by
  unfold numberNode
  split
  · exact refl _
  split
  · refine ⟨rfl, modifyNode_map unnumbered ?_ acc.1 id⟩
    intro n
    rfl
  · exact refl _

theorem foldl_numberNode_samePlan (order : List String) (acc : Stack × Nat) :
    (order.foldl numberNode acc).1.SamePlan acc.1 := by
  induction order generalizing acc with
  | nil => exact refl _
  | cons id order ih => exact (ih _).trans (numberNode_samePlan acc id)

theorem assign_samePlan (s : Stack) : s.assignMissingDisplayOrder.SamePlan s := foldl_numberNode_samePlan _ _

def Numbered (s : Stack) : Prop := ∀ n ∈ s.nodes, n.displayOrder.isSome

theorem numberNode_of_numbered {acc : Stack × Nat} (h : acc.1.Numbered) (id : String) : numberNode acc id = acc := by
  unfold numberNode
  split
  · rfl
  · rename_i n hn
    have hs := h n (node_mem hn).1
    rw [if_neg (by rw [Option.isNone_iff_eq_none]; exact Option.isSome_iff_ne_none.mp hs)]

theorem assign_eq_self (h : s.Numbered) : s.assignMissingDisplayOrder = s := by
  have hfold : ∀ (order : List String) (acc : Stack × Nat), acc.1.Numbered → order.foldl numberNode acc = acc := by
    intro order acc ha
    induction order with
    | nil => rfl
    | cons id order ih => rw [foldl_cons, numberNode_of_numbered ha, ih]
  unfold assignMissingDisplayOrder
  rw [hfold _ _ h]

/-! ## The move -/

/-- A move that does anything exchanges the positions of two nodes. -/
theorem swap_cases (s : Stack) (id : String) (up : Bool) :
    s.swapWithNeighbour id up = s ∨ ∃ neighbour moved displaced, s.positionOf id = some moved ∧
      s.positionOf neighbour = some displaced ∧ s.swapWithNeighbour id up =
        { s with nodes := s.nodes.map fun n =>
            if n.nodeId = id then { n with displayOrder := some displaced }
            else if n.nodeId = neighbour then { n with displayOrder := some moved }
            else n } := by
  unfold swapWithNeighbour
  split
  · exact .inl rfl
  rename_i neighbour _
  split
  · rename_i moved displaced hm hd
    exact .inr ⟨neighbour, moved, displaced, hm, hd, rfl⟩
  · exact .inl rfl

theorem swap_samePlan (s : Stack) (id : String) (up : Bool) : (s.swapWithNeighbour id up).SamePlan s := by
  rcases swap_cases s id up with h | ⟨neighbour, moved, displaced, -, -, h⟩
  · rw [h]
    exact refl s
  rw [h]
  refine ⟨rfl, ?_⟩
  rw [map_map]
  refine map_congr_left fun n _ => ?_
  simp only [Function.comp_apply]
  split
  · rfl
  · split <;> rfl

theorem swap_numbered (hs : s.Numbered) (id : String) (up : Bool) : (s.swapWithNeighbour id up).Numbered := by
  rcases swap_cases s id up with h | ⟨neighbour, moved, displaced, -, -, h⟩
  · rw [h]
    exact hs
  rw [h]
  intro n hn
  obtain ⟨m, hm, rfl⟩ := mem_map.mp hn
  split
  · rfl
  · split
    · rfl
    · exact hs m hm

def DistinctPositions (s : Stack) : Prop := (s.nodes.map (·.displayOrder)).Nodup

theorem swap_distinctPositions (hids : s.ids.Nodup) (hs : s.DistinctPositions) (id : String) (up : Bool) :
    (s.swapWithNeighbour id up).DistinctPositions := by
  rcases swap_cases s id up with h | ⟨neighbour, moved, displaced, hmoved, hdisplaced, h⟩
  · rw [h]
    exact hs
  -- positions as a function of the node: injective before, so injective after two are exchanged
  obtain ⟨a, ha, hao⟩ := Option.bind_eq_some_iff.mp hmoved
  obtain ⟨b, hb, hbo⟩ := Option.bind_eq_some_iff.mp hdisplaced
  obtain ⟨ham, haid⟩ := node_mem ha
  obtain ⟨hbm, hbid⟩ := node_mem hb
  have hinj := fun n hn m hm => inj_on_of_nodup_map hs (x := n) hn (y := m) hm
  have hid := fun n hn m hm => inj_on_of_nodup_map hids (x := n) hn (y := m) hm
  rw [h]
  unfold DistinctPositions
  rw [map_map]
  refine Nodup.map_on ?_ (Nodup.of_map _ hs)
  intro n hn m hm e
  have hna := hid n hn a ham
  have hma := hid m hm a ham
  have hnb := hid n hn b hbm
  have hmb := hid m hm b hbm
  have hnm := hinj n hn m hm
  have hna' := hinj n hn a ham
  have hma' := hinj m hm a ham
  have hnb' := hinj n hn b hbm
  have hmb' := hinj m hm b hbm
  grind

end Stack

end TddyCoder.PrStack
