/-
  TddyCoder.PrStack.ShownOrder — the order a stack is first numbered in against the order the
  web shows it in before that (`numbering_order` of
  `packages/tddy-pr-stack/src/stack_ops/order.rs`; `topoSortStackNodes` and
  `orderStackNodes` of `packages/tddy-web/src/components/sessions/prstack/`).

  Both sort by repeated passes. A parent that names no node is ignored by the daemon; the web
  waits for it forever and lists the node, and everything below it, at the end. A node has finite
  depth when some length of chain above it is too long, which fails on and below a cycle.

  Proved: `orders_agree_iff`, and before that they do not in `orders_differ`; once all are
  numbered, `the_panel_shows_the_display_order`.
-/

import TddyCoder.Graph.Rounds
import TddyCoder.PrStack.Order

namespace TddyCoder.PrStack

open TddyCoder.Graph List Stack

/-! ## The web's sort -/

def allPlaced (placedIds : List String) (n : StackNode) : Bool := n.parents.all placedIds.contains

structure TopoSort where
  ordered : List StackNode := []
  placedIds : List String := []
  remaining : List StackNode

def TopoSort.place (st : TopoSort) (node : StackNode) : TopoSort :=
  ⟨st.ordered ++ [node], st.placedIds ++ [node.nodeId], st.remaining.erase node⟩

/-- The outer loop, with `passes` passes left; each places a node, so as many as nodes are enough. -/
def topoSortPasses : Nat → TopoSort → List StackNode
  | 0, st => st.ordered
  | passes + 1, st =>
    if st.remaining.isEmpty then st.ordered
    else
      let ready := st.remaining.filter (allPlaced st.placedIds)
      if ready.isEmpty then st.ordered ++ st.remaining
      else topoSortPasses passes (ready.foldl TopoSort.place st)

def topoSortStackNodes (nodes : List StackNode) : List StackNode := topoSortPasses nodes.length { remaining := nodes }

/-- The rows in the order the panel renders them: by position when every node has one, else sorted. -/
def orderStackNodes (nodes : List StackNode) : List StackNode :=
  if nodes.all (·.displayOrder.isSome) then
    nodes.insertionSort fun a b => a.displayOrder.getD 0 ≤ b.displayOrder.getD 0
  else topoSortStackNodes nodes

/-! ## Both are sorts by passes -/

variable {n : StackNode} {placed : List String}

theorem isReady_iff {known : List String} :
    Stack.isReady known placed n = true ↔ ∀ p ∈ n.parents, p ∈ known → p ∈ placed := by
  unfold isReady
  rw [all_eq_true]
  refine forall₂_congr fun p _ => ?_
  by_cases hp : p ∈ known <;> simp [hp]

theorem allPlaced_iff : allPlaced placed n = true ↔ ∀ p ∈ n.parents, p ∈ placed := by
  unfold allPlaced
  rw [all_eq_true]
  exact forall₂_congr fun p _ => contains_iff_mem

theorem staysReady_numbering (known : List String) : StaysReady (Stack.isReady known) := by
  intro P Q n hPQ h
  rw [isReady_iff] at h ⊢
  exact fun p hp hk => hPQ (h p hp hk)

theorem staysReady_web : StaysReady allPlaced := by
  intro P Q n hPQ h
  rw [allPlaced_iff] at h ⊢
  exact fun p hp => hPQ (h p hp)

theorem numberingRounds_eq (known : List String) (n : Nat) : ∀ (placed : List String) (remaining : List StackNode)
    (ordered : List String), Stack.numberingRounds known n placed remaining ordered =
      ordered ++ (rounds (Stack.isReady known) (·.nodeId) n placed remaining).map (·.nodeId) := by
  induction n with
  | zero =>
    intro placed remaining ordered
    simp [numberingRounds, rounds]
  | succ n ih =>
    intro placed remaining ordered
    unfold numberingRounds rounds
    split
    · rename_i hempty
      simp [isEmpty_iff.mp hempty]
    dsimp only
    split
    · rfl
    · rw [ih, map_append, append_assoc]

theorem foldl_place (ready : List StackNode) (st : TopoSort) : ready.foldl TopoSort.place st =
    ⟨st.ordered ++ ready, st.placedIds ++ ready.map (·.nodeId), st.remaining.diff ready⟩ := by
  induction ready generalizing st with
  | nil => simp
  | cons n ready ih =>
    rw [foldl_cons, ih]
    simp [TopoSort.place, diff_cons]

theorem diff_filter {l : List StackNode} (h : l.Nodup) (p : StackNode → Bool) :
    l.diff (l.filter p) = l.filter fun n => !p n := by
  refine h.sdiff_eq_filter.trans ?_
  refine filter_congr fun n hn => ?_
  simp [hn]

theorem topoSortPasses_eq (n : Nat) : ∀ (st : TopoSort), st.remaining.Nodup →
    topoSortPasses n st = st.ordered ++ rounds allPlaced (·.nodeId) n st.placedIds st.remaining := by
  induction n with
  | zero =>
    intro st _
    simp [topoSortPasses, rounds]
  | succ n ih =>
    intro st hnodup
    unfold topoSortPasses rounds
    split
    · rename_i hempty
      simp [isEmpty_iff.mp hempty]
    dsimp only
    split
    · rename_i hnone
      have hall := filter_eq_nil_iff.mp (isEmpty_iff.mp hnone)
      rw [filter_eq_self.mpr fun a ha => by simpa using hall a ha]
    · rw [foldl_place, diff_filter hnodup, ih _ (hnodup.filter _), append_assoc]

/-! ## What is placed when -/

variable (s : Stack)

inductive Chain (s : Stack) : Nat → StackNode → Prop
  | base (n : StackNode) : Chain s 0 n
  | above (n m : StackNode) (k : Nat) (hm : m ∈ s.nodes) (hp : m.nodeId ∈ n.parents) (h : Chain s k m) :
      Chain s (k + 1) n

inductive Dangles (s : Stack) : StackNode → Prop
  | missing (n : StackNode) (p : String) (hp : p ∈ n.parents) (h : p ∉ s.ids) : Dangles s n
  | above (n m : StackNode) (hm : m ∈ s.nodes) (hp : m.nodeId ∈ n.parents) (h : Dangles s m) : Dangles s n

/-- Some length is too long for a chain above `n`: it is not on a cycle, nor below one. -/
def FiniteDepth (n : StackNode) : Prop := ∃ k, ¬ Chain s k n

def Deeper (a b : StackNode) : Prop := ∃ k, Chain s k a ∧ ¬ Chain s k b

def SameDepth (a b : StackNode) : Prop := ∀ k, Chain s k a ↔ Chain s k b

def Declared (a b : StackNode) : Prop := s.nodes.idxOf a < s.nodes.idxOf b

abbrev numberedBy : Nat → StackNode → Bool := settled (Stack.isReady s.ids) (·.nodeId) s.nodes

abbrev shownBy : Nat → StackNode → Bool := settled allPlaced (·.nodeId) s.nodes

section Settled

variable {s : Stack} (hids : s.ids.Nodup)
include hids

theorem mem_placed {p : String} {f : StackNode → Bool} {m : StackNode} (hm : m ∈ s.nodes) (hp : m.nodeId = p) :
    p ∈ (s.nodes.filter f).map (·.nodeId) ↔ f m = true := by
  constructor
  · intro h
    obtain ⟨m', hm', he⟩ := mem_map.mp h
    obtain ⟨hm', hf⟩ := mem_filter.mp hm'
    rwa [← inj_on_of_nodup_map hids hm' hm (he.trans hp.symm)]
  · intro hf
    exact mem_map.mpr ⟨m, mem_filter.mpr ⟨hm, hf⟩, hp⟩

/-- The daemon has placed a node within `k` passes exactly when no chain of `k` nodes stands above it. -/
theorem settled_numbering_iff (k : Nat) (n : StackNode) : numberedBy s k n = true ↔ ¬ Chain s k n := by
  induction k generalizing n with
  | zero => simp [settled, Chain.base]
  | succ k ih =>
    show isReady s.ids _ n = true ↔ _
    rw [isReady_iff]
    constructor
    · intro h hchain
      cases hchain with
      | above _ m _ hm hp hchain =>
        have hplaced := h _ hp (mem_ids.mpr ⟨m, hm, rfl⟩)
        rw [mem_placed hids hm rfl, ih] at hplaced
        exact hplaced hchain
    intro h p hp hknown
    obtain ⟨m, hm, rfl⟩ := mem_ids.mp hknown
    rw [mem_placed hids hm rfl, ih]
    exact fun hchain => h (.above n m k hm hp hchain)

theorem shownBy_of_dangles (k : Nat) (h : Dangles s n) : shownBy s k n = false := by
  induction k generalizing n with
  | zero => rfl
  | succ k ih =>
    rw [Bool.eq_false_iff]
    show allPlaced _ n ≠ true
    rw [ne_eq, allPlaced_iff]
    intro hall
    cases h with
    | missing _ p hp hmissing =>
      obtain ⟨m, hm, rfl⟩ := mem_map.mp (hall p hp)
      exact hmissing (mem_ids.mpr ⟨m, (mem_filter.mp hm).1, rfl⟩)
    | above _ m hm hp hdangles =>
      have hplaced : shownBy s k m = true := (mem_placed hids hm rfl).mp (hall _ hp)
      rw [ih hdangles] at hplaced
      cases hplaced

theorem shownBy_of_not_dangles (k : Nat) (h : ¬ Dangles s n) : shownBy s k n = numberedBy s k n := by
  induction k generalizing n with
  | zero => rfl
  | succ k ih =>
    have hmem : ∀ p ∈ n.parents, (p ∈ (s.nodes.filter (shownBy s k)).map (·.nodeId) ↔
        p ∈ (s.nodes.filter (numberedBy s k)).map (·.nodeId)) := by
      intro p hp
      by_cases hknown : p ∈ s.ids
      · obtain ⟨m, hm, rfl⟩ := mem_ids.mp hknown
        rw [mem_placed hids hm rfl, mem_placed hids hm rfl, ih fun hd => h (.above n m hm hp hd)]
      · exact absurd (.missing n p hp hknown) h
    rw [Bool.eq_iff_iff]
    show allPlaced _ n = true ↔ isReady s.ids _ n = true
    rw [allPlaced_iff, isReady_iff]
    constructor
    · exact fun hall p hp _ => (hmem p hp).mp (hall p hp)
    intro hall p hp
    by_cases hknown : p ∈ s.ids
    · exact (hmem p hp).mpr (hall p hp hknown)
    · exact absurd (.missing n p hp hknown) h

end Settled

/-! ## When the two orders agree -/

/-- Every dangling node of finite depth comes after all the nodes the web places, and is declared in
    the order of depth among the nodes the web does not place. -/
def OrdersAgree (s : Stack) : Prop :=
  ∀ t ∈ s.nodes, Dangles s t → FiniteDepth s t → ∀ x ∈ s.nodes, x ≠ t →
    (¬ Dangles s x → FiniteDepth s x → Deeper s t x ∨ SameDepth s t x ∧ Declared s x t) ∧
    (Dangles s x ∨ ¬ FiniteDepth s x →
      (Declared s t x → ¬ Deeper s t x) ∧ (Declared s x t → ¬ Deeper s x t))

abbrev NumberedBefore (s : Stack) : StackNode → StackNode → Prop :=
  Before (Stack.isReady s.ids) (·.nodeId) s.nodes

abbrev ShownBefore (s : Stack) : StackNode → StackNode → Prop := Before allPlaced (·.nodeId) s.nodes

section Agree

variable {s : Stack} (hids : s.ids.Nodup)
include hids

variable {a b : StackNode}

theorem numberedBefore_iff : NumberedBefore s a b ↔ Deeper s b a ∨ SameDepth s a b ∧ Declared s a b := by
  have hchain := settled_numbering_iff hids
  refine or_congr (exists_congr fun k => ?_) (and_congr_left fun _ => forall_congr' fun k => ?_)
  · rw [hchain, Bool.eq_false_iff, ne_eq, hchain, not_not, and_comm]
  · rw [Bool.eq_iff_iff, hchain, hchain, not_iff_not]

theorem shownBy_of_unplaced (h : Dangles s n ∨ ¬ FiniteDepth s n) (k : Nat) : shownBy s k n = false := by
  by_cases hd : Dangles s n
  · exact shownBy_of_dangles hids k hd
  · rw [shownBy_of_not_dangles hids k hd, Bool.eq_false_iff, ne_eq, settled_numbering_iff hids]
    exact fun hc => (h.resolve_left hd) ⟨k, hc⟩

theorem shownBy_of_placed (hd : ¬ Dangles s n) (hf : FiniteDepth s n) : ∃ k, shownBy s k n = true := by
  obtain ⟨k, hk⟩ := hf
  exact ⟨k, by rw [shownBy_of_not_dangles hids k hd, settled_numbering_iff hids]; exact hk⟩

theorem shownBefore_of_not_dangles (ha : ¬ Dangles s a) (hb : ¬ Dangles s b) :
    ShownBefore s a b ↔ NumberedBefore s a b := by
  unfold ShownBefore NumberedBefore Before
  simp only [shownBy_of_not_dangles hids _ ha, shownBy_of_not_dangles hids _ hb]

theorem shownBefore_of_unplaced (ha : Dangles s a ∨ ¬ FiniteDepth s a)
    (hb : Dangles s b ∨ ¬ FiniteDepth s b) : ShownBefore s a b ↔ Declared s a b := by
  unfold ShownBefore Before Declared
  simp [shownBy_of_unplaced hids ha, shownBy_of_unplaced hids hb]

theorem shownBefore_of_placed (hd : ¬ Dangles s a) (hf : FiniteDepth s a)
    (hb : Dangles s b ∨ ¬ FiniteDepth s b) : ShownBefore s a b := by
  obtain ⟨k, hk⟩ := shownBy_of_placed hids hd hf
  exact .inl ⟨k, hk, shownBy_of_unplaced hids hb k⟩

theorem shown_of_ordersAgree (h : OrdersAgree s) (ha : a ∈ s.nodes) (hb : b ∈ s.nodes)
    (hab : NumberedBefore s a b) : ShownBefore s a b := by
  have hne : a ≠ b := by
    intro e
    rw [e] at hab
    exact before_asymm (staysReady_numbering _) hab hab
  by_cases hbp : ¬ Dangles s b ∧ FiniteDepth s b
  · -- `b` is placed by the web: so is `a`, or the daemon would have numbered `b` first
    by_cases hap : ¬ Dangles s a ∧ FiniteDepth s a
    · exact (shownBefore_of_not_dangles hids hap.1 hbp.1).mpr hab
    exfalso
    by_cases hfa : FiniteDepth s a
    · have hda : Dangles s a := by
        by_contra hd
        exact hap ⟨hd, hfa⟩
      have hba := (h a ha hda hfa b hb hne.symm).1 hbp.1 hbp.2
      refine before_asymm (staysReady_numbering _) hab ((numberedBefore_iff hids).mpr (hba.imp_right ?_))
      exact fun hs => ⟨fun k => (hs.1 k).symm, hs.2⟩
    obtain ⟨k, hk⟩ := hbp.2
    rcases (numberedBefore_iff hids).mp hab with ⟨j, -, hj⟩ | ⟨hsame, -⟩
    · exact hfa ⟨j, hj⟩
    · exact hfa ⟨k, fun hc => hk ((hsame k).mp hc)⟩
  · have hbu : Dangles s b ∨ ¬ FiniteDepth s b := by
      by_cases hd : Dangles s b
      · exact .inl hd
      · exact .inr fun hf => hbp ⟨hd, hf⟩
    by_cases hap : ¬ Dangles s a ∧ FiniteDepth s a
    · exact shownBefore_of_placed hids hap.1 hap.2 hbu
    have hau : Dangles s a ∨ ¬ FiniteDepth s a := by
      by_cases hd : Dangles s a
      · exact .inl hd
      · exact .inr fun hf => hap ⟨hd, hf⟩
    rw [shownBefore_of_unplaced hids hau hbu]
    rcases (numberedBefore_iff hids).mp hab with hdeep | ⟨-, hdecl⟩
    · obtain ⟨k, hkb, hk⟩ := hdeep
      have hda : Dangles s a := hau.resolve_right fun hf => hf ⟨k, hk⟩
      have hno := ((h a ha hda ⟨k, hk⟩ b hb hne.symm).2 hbu).2
      have hidx : s.nodes.idxOf a ≠ s.nodes.idxOf b := fun e => hne ((idxOf_inj ha).mp e)
      rcases Nat.lt_or_gt_of_ne hidx with hlt | hlt
      · exact hlt
      · exact absurd ⟨k, hkb, hk⟩ (hno hlt)
    · exact hdecl

theorem ordersAgree_of_shown (h : ∀ a ∈ s.nodes, ∀ b ∈ s.nodes, NumberedBefore s a b → ShownBefore s a b) :
    OrdersAgree s := by
  intro t ht hdt hft x hx hne
  refine ⟨fun hdx hfx => ?_, fun hux => ⟨fun htx hdeep => ?_, fun hxt hdeep => ?_⟩⟩
  · have htotal : NumberedBefore s x t ∨ NumberedBefore s t x := before_total hx hne
    rcases htotal with hb | hb
    · exact ((numberedBefore_iff hids).mp hb).imp_right fun hs => ⟨fun k => (hs.1 k).symm, hs.2⟩
    · exact absurd (shownBefore_of_placed hids hdx hfx (.inl hdt)) (before_asymm staysReady_web (h t ht x hx hb))
  · have hshown := h x hx t ht ((numberedBefore_iff hids).mpr (.inl hdeep))
    rw [shownBefore_of_unplaced hids hux (.inl hdt)] at hshown
    exact absurd hshown (Nat.lt_asymm htx)
  · have hshown := h t ht x hx ((numberedBefore_iff hids).mpr (.inl hdeep))
    rw [shownBefore_of_unplaced hids (.inl hdt) hux] at hshown
    exact absurd hshown (Nat.lt_asymm hxt)

end Agree

theorem map_nodeId_inj {s : Stack} (hids : s.ids.Nodup) {l l' : List StackNode} (hl : l ⊆ s.nodes) (hl' : l' ⊆ s.nodes) :
    l.map (·.nodeId) = l'.map (·.nodeId) ↔ l = l' := by
  constructor
  · intro h
    have hlen : l.length = l'.length := by simpa using congrArg List.length h
    refine ext_getElem hlen fun i h₁ h₂ => ?_
    have hi : l[i].nodeId = l'[i].nodeId := by
      have := getElem_of_eq h (by simpa using h₁)
      simpa using this
    exact inj_on_of_nodup_map hids (hl (getElem_mem h₁)) (hl' (getElem_mem h₂)) hi
  · exact fun h => by rw [h]

/-- The first numbering freezes the order the web shows exactly when no dangling node stands in the way. -/
theorem orders_agree_iff {s : Stack} (hids : s.ids.Nodup) :
    s.numberingOrder = (topoSortStackNodes s.nodes).map (·.nodeId) ↔ OrdersAgree s := by
  have hnodup : s.nodes.Nodup := Nodup.of_map _ hids
  rw [Stack.numberingOrder, numberingRounds_eq, topoSortStackNodes, topoSortPasses_eq _ _ hnodup, nil_append,
    nil_append,
    map_nodeId_inj hids (rounds_perm (staysReady_numbering _) hnodup).subset (rounds_perm staysReady_web hnodup).subset,
    rounds_eq_iff (staysReady_numbering _) staysReady_web hnodup]
  exact ⟨ordersAgree_of_shown hids, fun h a ha b hb => shown_of_ordersAgree hids h ha hb⟩

theorem orders_agree_below_a_missing_parent :
    (⟨1, [bareNode "a" [], bareNode "b" ["gone"]]⟩ : Stack).numberingOrder = ["a", "b"] ∧
      OrdersAgree ⟨1, [bareNode "a" [], bareNode "b" ["gone"]]⟩ :=
  ⟨by decide, (orders_agree_iff (by decide)).mp (by decide)⟩

/-- `a` names a parent that is gone, `b` stands alone: numbered `a, b`, shown `b, a`. -/
theorem orders_differ : ¬ ∀ s : Stack, s.ids.Nodup → (∀ n ∈ s.nodes, n.displayOrder = none) →
    s.numberingOrder = (topoSortStackNodes s.nodes).map (·.nodeId) := by
  intro h
  have := h ⟨1, [bareNode "a" ["gone"], bareNode "b" []]⟩ (by decide) (by decide)
  revert this
  decide

/-- Once every node has a position of its own, the panel lists the rows in the daemon's display order. -/
theorem the_panel_shows_the_display_order {s : Stack} (hs : s.Numbered) (hd : s.DistinctPositions) :
    (orderStackNodes s.nodes).map (·.nodeId) = s.displayOrder := by
  have hkey : ∀ a ∈ s.nodes, ∀ b ∈ s.nodes,
      a.displayOrder.getD 0 ≤ b.displayOrder.getD 0 ↔ keyLe (s.rowKey a) (s.rowKey b) := by
    intro a ha b hb
    obtain ⟨x, hx⟩ := Option.isSome_iff_exists.mp (hs a ha)
    obtain ⟨y, hy⟩ := Option.isSome_iff_exists.mp (hs b hb)
    simp only [keyLe, rowKey, hx, hy, Option.getD_some, Nat.le_iff_lt_or_eq]
    refine or_congr_right ⟨fun e => ⟨e, ?_⟩, And.left⟩
    obtain rfl := inj_on_of_nodup_map hd ha hb (by rw [hx, hy, e])
    exact .inr ⟨rfl, String.le_refl _⟩
  rw [orderStackNodes, if_pos (all_eq_true.mpr hs), displayOrder]
  simpa using congrArg (map (·.nodeId)) (map_insertionSort _ (fun a b => keyLe (s.rowKey a) (s.rowKey b)) id _ hkey)

theorem the_panel_shows_a_moved_row :
    (orderStackNodes [{ bareNode "a" [] with displayOrder := some 2 },
      { bareNode "b" ["a"] with displayOrder := some 1 }]).map (·.nodeId) = ["b", "a"] :=
  the_panel_shows_the_display_order (s := ⟨1, _⟩) (by simp [Numbered]) (by simp [DistinctPositions])

end TddyCoder.PrStack
