/-
  TddyCoder.Graph.Kahn — Kahn's topological sort over a stored dependency list.

  A vertex may name a dependency twice, name one that is no vertex, or be listed twice.
  `Edge p v` says `v` names the vertex `p`. `kahn` is the algorithm as programs write it: an
  in-degree per vertex, a queue seeded with those of in-degree 0 in key order, and a loop that
  pops a vertex and takes one from the in-degree of every dependent, once per mention.
-/

import Mathlib.Data.Set.Finite.List
import Mathlib.Order.WellFoundedSet

namespace TddyCoder.Graph

open List Relation

variable {α : Type}

abbrev Deps (α : Type) := List (α × List α)

def ids (g : Deps α) : List α := g.map (·.1)

variable {v : α}

variable {g : Deps α}

theorem mem_ids : v ∈ ids g ↔ ∃ ps, (v, ps) ∈ g := by
  simp [ids]

variable [DecidableEq α] {placed vertices : List α} {p : α} {deg : α → Nat} (g)

def parentsOf (v : α) : List α := (g.filter (·.1 = v)).flatMap (·.2)

def Edge (p v : α) : Prop := p ∈ ids g ∧ p ∈ parentsOf g v

/-- No vertex is reached from itself. -/
def Acyclic : Prop := ∀ v, ¬ TransGen (Edge g) v v

/-! ## The algorithm -/

def inDegree (v : α) : Nat := (parentsOf g v).countP (· ∈ ids g)

def children (p : α) : List α := g.flatMap fun n => (n.2.filter (· == p)).map fun _ => n.1

def relax (st : (α → Nat) × List α) (c : α) : (α → Nat) × List α :=
  (Function.update st.1 c (st.1 c - 1), if st.1 c - 1 = 0 then st.2 ++ [c] else st.2)

def drain (g : Deps α) : Nat → (α → Nat) → List α → List α → List α
  | _, _, [], order => order
  | 0, _, _ :: _, order => order
  | fuel + 1, deg, v :: queue, order =>
    let st := (children g v).foldl relax (deg, queue)
    drain g fuel st.1 st.2 (order ++ [v])

def kahn (keys : List α) : List α :=
  drain g g.length (inDegree g) (keys.filter fun v => inDegree g v = 0) []

/-! ## Mentions -/

variable {g}

theorem mem_parentsOf : p ∈ parentsOf g v ↔ ∃ ps, (v, ps) ∈ g ∧ p ∈ ps := by
  simp only [parentsOf, mem_flatMap, mem_filter, decide_eq_true_eq]
  constructor
  · rintro ⟨⟨w, ps⟩, ⟨hm, rfl⟩, hp⟩
    exact ⟨ps, hm, hp⟩
  · rintro ⟨ps, hm, hp⟩
    exact ⟨(v, ps), ⟨hm, rfl⟩, hp⟩

theorem edge_iff : Edge g p v ↔ p ∈ ids g ∧ ∃ ps, (v, ps) ∈ g ∧ p ∈ ps := by
  rw [Edge, mem_parentsOf]

theorem edge_mem (h : Edge g p v) : p ∈ ids g ∧ v ∈ ids g := by
  obtain ⟨hp, ps, hm, _⟩ := edge_iff.mp h
  exact ⟨hp, mem_ids.mpr ⟨ps, hm⟩⟩

/-- A vertex is a child of `p` once for each time it names `p`. -/
theorem count_children (g : Deps α) (p v : α) : (children g p).count v = (parentsOf g v).count p := by
  induction g with
  | nil => simp [children, parentsOf]
  | cons n g ih =>
    have hc : children (n :: g) p = ((n.2.filter (· == p)).map fun _ => n.1) ++ children g p := by
      simp [children]
    have hp : parentsOf (n :: g) v = (if n.1 = v then n.2 else []) ++ parentsOf g v := by
      simp only [parentsOf, filter_cons]
      by_cases e : n.1 = v <;> simp [e]
    have hr : ((n.2.filter (· == p)).map fun _ => n.1) = List.replicate (n.2.count p) n.1 := by
      rw [map_const', ← countP_eq_length_filter, count_eq_countP]
    rw [hc, hp, count_append, count_append, ih, hr, count_replicate]
    by_cases e : n.1 = v <;> simp [e]

/-! ## One pop -/

/-- What taking `L`'s mentions from the in-degrees does: each falls by its mentions, and
    what reaches 0 is queued once. -/
theorem relax_foldl (L : List α) (deg : α → Nat) (queue : List α) (h : ∀ v, L.count v ≤ deg v) :
    ∃ new, L.foldl relax (deg, queue) = (fun v => deg v - L.count v, queue ++ new) ∧ new.Nodup ∧
      ∀ v, v ∈ new ↔ v ∈ L ∧ deg v = L.count v := by
  induction L using reverseRecOn with
  | nil => exact ⟨[], by simp⟩
  | append_singleton L c ih =>
    have hcount : ∀ v, (L ++ [c]).count v = L.count v + if v = c then 1 else 0 := by
      intro v
      rw [count_append, count_singleton']
      simp only [eq_comm]
    obtain ⟨new, he, hn, hm⟩ := ih fun v => by have := h v; rw [hcount] at this; omega
    have hc : L.count c + 1 ≤ deg c := by simpa [hcount] using h c
    have hnew : c ∉ new := fun hx => by have := ((hm c).mp hx).2; omega
    have hdeg : Function.update (fun v => deg v - L.count v) c (deg c - L.count c - 1) =
        fun v => deg v - (L ++ [c]).count v := by
      funext v
      by_cases e : v = c
      · subst e; simp [hcount]; omega
      · simp [hcount, e]
    rw [foldl_append, he, foldl_cons, foldl_nil, relax, hdeg]
    by_cases hz : deg c - L.count c - 1 = 0
    · refine ⟨new ++ [c], by simp [hz], hn.append (nodup_singleton c) (by simpa using hnew), fun v => ?_⟩
      by_cases e : v = c
      · subst e; simp [hcount]; omega
      · simp [hcount, e, hm]
    refine ⟨new, by simp [hz], hn, fun v => ?_⟩
    by_cases e : v = c
    · subst e; simp [hcount, hnew]; omega
    · simp [hcount, e, hm]

theorem countP_take (l : List α) {wave : List α} (h : ∀ u ∈ wave, u ∉ placed) :
    (l.countP (· ∉ placed ++ wave)) + l.countP (· ∈ wave) = l.countP (· ∉ placed) := by
  induction l with
  | nil => rfl
  | cons u l ih =>
    by_cases hu : u ∈ wave
    · have hplaced := h u hu
      simp [hu, hplaced] at ih ⊢
      omega
    by_cases hplaced : u ∈ placed
    · simpa [hu, hplaced] using ih
    · simp [hu, hplaced] at ih ⊢
      omega

/-- Where the in-degrees count the mentions, in `ins`, of what is not placed, and what is ready has none left, placing some
    of what is ready and taking its mentions leaves both so. -/
theorem take_wave {ins : α → List α} {L : List α} (wave rest : List α)
    (hnodup : (placed ++ (wave ++ rest)).Nodup) (hdeg : ∀ v, deg v = (ins v).countP (· ∉ placed))
    (hready : ∀ v, v ∈ placed ++ (wave ++ rest) ↔ v ∈ vertices ∧ deg v = 0)
    (hcount : ∀ v, L.count v = (ins v).countP (· ∈ wave)) (hL : ∀ v ∈ L, v ∈ vertices) :
    ∃ new, L.foldl relax (deg, rest) = (fun v => (ins v).countP (· ∉ placed ++ wave), rest ++ new) ∧
      (placed ++ wave ++ (rest ++ new)).Nodup ∧
      ∀ v, v ∈ placed ++ wave ++ (rest ++ new) ↔ v ∈ vertices ∧ (ins v).countP (· ∉ placed ++ wave) = 0 := by
  have hdisjoint : ∀ u ∈ wave, u ∉ placed := fun u hu hp =>
    (nodup_append.mp hnodup).2.2 u hp u (mem_append_left _ hu) rfl
  have hsplit : ∀ v, (ins v).countP (· ∉ placed ++ wave) + L.count v = deg v := by
    intro v
    rw [hcount, hdeg, countP_take (ins v) hdisjoint]
  obtain ⟨new, hfold, hnew, hmem⟩ := relax_foldl L deg rest fun v => by have := hsplit v; omega
  have hleft : (fun v => deg v - L.count v) = fun v => (ins v).countP (· ∉ placed ++ wave) := by
    funext v
    have := hsplit v
    omega
  have hlist : placed ++ wave ++ (rest ++ new) = (placed ++ (wave ++ rest)) ++ new := by simp
  refine ⟨new, by rw [hfold, hleft], ?_⟩
  rw [hlist]
  refine ⟨nodup_append.mpr ⟨hnodup, hnew, ?_⟩, fun v => ?_⟩
  · -- what is new had mentions left, so it was not at 0 before
    rintro v hv w hw rfl
    have hpos := count_pos_iff.mpr ((hmem v).mp hw).1
    have hzero := ((hready v).mp hv).2
    have := hsplit v
    omega
  rw [mem_append, hready, hmem]
  have hv := hsplit v
  constructor
  · rintro (⟨hvertex, hzero⟩ | ⟨hchild, hlast⟩)
    · exact ⟨hvertex, by omega⟩
    · exact ⟨hL v hchild, by omega⟩
  rintro ⟨hvertex, hzero⟩
  by_cases hbefore : deg v = 0
  · exact .inl ⟨hvertex, hbefore⟩
  · exact .inr ⟨count_pos_iff.mp (by omega), by omega⟩

/-! ## The loop -/

def Closed (g : Deps α) (order : List α) : Prop :=
  ∀ l v r, order = l ++ v :: r → ∀ p, Edge g p v → p ∈ l

variable {order : List α}

theorem closed_snoc (h : Closed g order)
    (hv : ∀ p, Edge g p v → p ∈ order) : Closed g (order ++ [v]) := by
  intro l w r he p hp
  rcases eq_nil_or_concat r with rfl | ⟨r', x, rfl⟩
  · obtain ⟨rfl, hw⟩ := append_inj' he rfl
    cases hw
    exact hv p hp
  · have he' : order ++ [v] = (l ++ w :: r') ++ [x] := by simpa using he
    obtain ⟨rfl, -⟩ := append_inj' he' rfl
    exact h l w r' rfl p hp

structure Inv (g : Deps α) (deg : α → Nat) (queue order : List α) : Prop where
  nodup : (order ++ queue).Nodup
  /-- The in-degree counts the named dependencies not ordered yet. -/
  degEq : ∀ v, deg v = (parentsOf g v).countP fun p => p ∈ ids g ∧ p ∉ order
  ready : ∀ v, v ∈ order ++ queue ↔ v ∈ ids g ∧ deg v = 0
  closed : Closed g order

theorem degEq_zero :
    ((parentsOf g v).countP fun p => decide (p ∈ ids g ∧ p ∉ order)) = 0 ↔ ∀ p, Edge g p v → p ∈ order := by
  rw [countP_eq_zero]
  constructor
  · intro h p ⟨hp, hm⟩
    by_contra hx
    exact h p hm (by simp [hp, hx])
  · intro h p hm hx
    simp only [decide_eq_true_eq] at hx
    exact hx.2 (h p ⟨hx.1, hm⟩)

theorem pop_inv {queue : List α} (h : Inv g deg (v :: queue) order) :
    Inv g ((children g v).foldl relax (deg, queue)).1 ((children g v).foldl relax (deg, queue)).2 (order ++ [v]) := by
  have hv : v ∈ ids g ∧ deg v = 0 := (h.ready v).mp (by simp)
  have hknown : ∀ (order : List α) (w : α), ((parentsOf g w).filter (· ∈ ids g)).countP (· ∉ order) =
      (parentsOf g w).countP fun p => p ∈ ids g ∧ p ∉ order := by
    intro order w
    simp [countP_filter, and_comm]
  have hcount : ∀ w, (children g v).count w = ((parentsOf g w).filter (· ∈ ids g)).countP (· ∈ [v]) := by
    intro w
    rw [count_children, countP_filter, count_eq_countP]
    refine countP_congr fun p _ => ?_
    simp only [beq_iff_eq, mem_singleton, Bool.and_eq_true, decide_eq_true_eq]
    exact ⟨fun e => ⟨e, e ▸ hv.1⟩, And.left⟩
  have hchild : ∀ w ∈ children g v, w ∈ ids g := by
    intro w hw
    rw [← count_pos_iff, count_children, count_pos_iff] at hw
    exact (edge_mem (g := g) ⟨hv.1, hw⟩).2
  obtain ⟨new, he, hnodup, hready⟩ := take_wave [v] queue h.nodup (fun w => (h.degEq w).trans (hknown order w).symm)
    h.ready hcount hchild
  rw [he]
  exact ⟨hnodup, hknown _, hready, closed_snoc h.closed (degEq_zero.mp ((h.degEq v).symm.trans hv.2))⟩

/-- With a unit of fuel for each vertex not ordered yet, the loop ends on an empty queue. -/
theorem drain_inv : ∀ (fuel : Nat) (deg : α → Nat) (queue order : List α), Inv g deg queue order →
    g.length ≤ fuel + order.length → ∃ deg', Inv g deg' [] (drain g fuel deg queue order) := by
  intro fuel
  induction fuel with
  | zero =>
    intro deg queue order h hf
    cases queue with
    | nil => exact ⟨deg, by simpa [drain] using h⟩
    | cons v queue =>
      -- the order alone already has as many vertices as the list, so nothing can be queued
      have hle : (order ++ v :: queue).length ≤ (ids g).length :=
        (Nodup.subperm h.nodup fun w hw => ((h.ready w).mp hw).1).length_le
      simp [ids] at hle
      omega
  | succ fuel ih =>
    intro deg queue order h hf
    cases queue with
    | nil => exact ⟨deg, by simpa [drain] using h⟩
    | cons v queue =>
      exact ih _ _ _ (pop_inv h) (by simp; omega)

variable {g : Deps α} {keys : List α}

/-! ## What the order is -/

/-- Every listed vertex once, and in the queue's order: what `keys` must be. -/
structure Keys (g : Deps α) (keys : List α) : Prop where
  nodup : keys.Nodup
  mem : ∀ v, v ∈ keys ↔ v ∈ ids g

section

variable (hk : Keys g keys)
include hk

theorem kahn_inv : ∃ deg, Inv g deg [] (kahn g keys) := by
  refine drain_inv _ _ _ _ ⟨?_, fun v => ?_, fun v => ?_, ?_⟩ (by simp)
  · simpa using hk.nodup.filter _
  · simp [inDegree]
  · simp [hk.mem]
  · intro l v r he
    simp at he

theorem kahn_nodup : (kahn g keys).Nodup := by
  obtain ⟨deg, h⟩ := kahn_inv hk
  simpa using h.nodup

theorem kahn_closed : Closed g (kahn g keys) := by
  obtain ⟨deg, h⟩ := kahn_inv hk
  exact h.closed

theorem kahn_mem_iff (v : α) : v ∈ kahn g keys ↔ v ∈ ids g ∧ ∀ p, Edge g p v → p ∈ kahn g keys := by
  obtain ⟨deg, h⟩ := kahn_inv hk
  have hr := h.ready v
  rw [append_nil] at hr
  rw [hr, h.degEq v, degEq_zero]

end

theorem closed_idx (hc : Closed g order) (he : Edge g p v) (hv : v ∈ order) :
    order.idxOf p < order.idxOf v := by
  obtain ⟨l, r, rfl, hl⟩ := eq_append_cons_of_mem hv
  have hp : p ∈ l := hc l v r rfl p he
  rw [idxOf_append_of_mem hp, idxOf_append_of_notMem hl, idxOf_cons_self]
  have := idxOf_lt_length_of_mem hp
  omega

omit [DecidableEq α] in
/-- Where a vertex is placed exactly when all that leads to it is, and behind it, all are placed exactly when there is no
    cycle. -/
theorem placed_all_iff {R : α → α → Prop} {rank : α → Nat}
    (hends : ∀ u v, R u v → u ∈ vertices ∧ v ∈ vertices)
    (hmem : ∀ v, v ∈ placed ↔ v ∈ vertices ∧ ∀ u, R u v → u ∈ placed)
    (hrank : ∀ u v, R u v → v ∈ placed → rank u < rank v) :
    (∀ v ∈ vertices, v ∈ placed) ↔ ∀ v, ¬ TransGen R v v := by
  constructor
  · intro hall v hcycle
    have hlt : ∀ a b, TransGen R a b → rank a < rank b := by
      intro a b h
      induction h with
      | single he => exact hrank _ _ he (hall _ (hends _ _ he).2)
      | tail _ he ih => exact ih.trans (hrank _ _ he (hall _ (hends _ _ he).2))
    exact lt_irrefl _ (hlt v v hcycle)
  · intro hacyclic v hv
    have horder : IsStrictOrder α (TransGen R) :=
      { irrefl := hacyclic, trans := fun _ _ _ h1 h2 => h1.trans h2 }
    have hwf : {v | v ∈ vertices}.WellFoundedOn (TransGen R) := (finite_toSet vertices).wellFoundedOn
    refine hwf.induction hv fun w hw ih => (hmem w).mpr ⟨hw, fun u he => ?_⟩
    exact ih u (hends _ _ he).1 (.single he)

omit [DecidableEq α] in
/-- As many as there are vertices are placed exactly when no vertex is listed twice and all are placed. -/
theorem placed_length_iff (hnodup : placed.Nodup) (hsub : ∀ v ∈ placed, v ∈ vertices) :
    placed.length = vertices.length ↔ vertices.Nodup ∧ ∀ v ∈ vertices, v ∈ placed := by
  have hsub := hnodup.subperm hsub
  constructor
  · intro h
    have hp := hsub.perm_of_length_le h.ge
    exact ⟨hp.nodup_iff.mp hnodup, fun v hv => hp.mem_iff.mpr hv⟩
  · rintro ⟨hn, hall⟩
    exact le_antisymm hsub.length_le (hn.subperm hall).length_le

theorem kahn_all_iff (hk : Keys g keys) : (∀ v ∈ ids g, v ∈ kahn g keys) ↔ Acyclic g :=
  placed_all_iff (fun _ _ he => edge_mem he) (kahn_mem_iff hk) fun _ _ he hv => closed_idx (kahn_closed hk) he hv

/-- The order covers the list exactly when no vertex is listed twice and there is no cycle. -/
theorem kahn_length_iff (hk : Keys g keys) : (kahn g keys).length = g.length ↔ (ids g).Nodup ∧ Acyclic g := by
  have hlen : (ids g).length = g.length := by simp [ids]
  rw [← hlen, ← kahn_all_iff hk]
  exact placed_length_iff (kahn_nodup hk) fun v hv => ((kahn_mem_iff hk v).mp hv).1

/-! ## Graphs with fewer edges -/

theorem acyclic_of_paths {g' : Deps α} (ha : Acyclic g)
    (h : ∀ p v, Edge g' p v → TransGen (Edge g) p v) : Acyclic g' := by
  intro v hv
  exact ha v (TransGen.closed h _ _ hv)

/-- Where a vertex is taken out and what led to it joined with what it led to, the paths between the others stay. -/
theorem transGen_splice {R R' : α → α → Prop} (hself : ¬ R v v)
    (h : ∀ a b, R' a b ↔ a ≠ v ∧ b ≠ v ∧ (R a b ∨ R a v ∧ R v b)) {a b : α} (ha : a ≠ v) (hb : b ≠ v) :
    TransGen R' a b ↔ TransGen R a b := by
  constructor
  · refine TransGen.closed (fun a b hab => ?_) _ _
    rcases ((h a b).mp hab).2.2 with hab | ⟨hav, hvb⟩
    · exact .single hab
    · exact .tail (.single hav) hvb
  have hstep : ∀ {x y}, x ≠ v → R x y → (y ≠ v → R' x y) ∧ (y = v → ∀ c, R v c → R' x c) := by
    intro x y hx hxy
    refine ⟨fun hy => (h x y).mpr ⟨hx, hy, .inl hxy⟩, fun hy c hc => (h x c).mpr ⟨hx, ?_, .inr ⟨hy ▸ hxy, hc⟩⟩⟩
    rintro rfl
    exact hself hc
  -- a path that has come to `v` goes on to each of its successors
  intro hpath
  suffices hends : (b ≠ v → TransGen R' a b) ∧ (b = v → ∀ c, R v c → TransGen R' a c) from hends.1 hb
  clear hb
  induction hpath with
  | single hab =>
    obtain ⟨hother, hthrough⟩ := hstep ha hab
    exact ⟨fun hy => .single (hother hy), fun hy c hc => .single (hthrough hy c hc)⟩
  | @tail x y _ hxy ih =>
    by_cases hx : x = v
    · subst hx
      exact ⟨fun _ => ih.2 rfl y hxy, fun hy => absurd (hy ▸ hxy) hself⟩
    · obtain ⟨hother, hthrough⟩ := hstep hx hxy
      exact ⟨fun hy => (ih.1 hx).tail (hother hy), fun hy c hc => (ih.1 hx).tail (hthrough hy c hc)⟩

theorem acyclic_snoc (ha : Acyclic g) {ps : List α} (hv : ∀ u qs, (u, qs) ∈ g ++ [(v, ps)] → v ∉ qs) :
    Acyclic (g ++ [(v, ps)]) := by
  have hout : ∀ {p u}, Edge (g ++ [(v, ps)]) p u → p ≠ v := by
    intro p u h e
    obtain ⟨-, qs, hm, hp⟩ := edge_iff.mp h
    exact hv u qs hm (e ▸ hp)
  have hedge : ∀ {p u}, Edge (g ++ [(v, ps)]) p u → u ≠ v → Edge g p u := by
    intro p u h hu
    obtain ⟨hp, qs, hm, hpq⟩ := edge_iff.mp h
    refine edge_iff.mpr ⟨?_, qs, ?_, hpq⟩
    · simpa [ids, hout h] using hp
    · simpa [hu] using hm
  -- every vertex a path leaves is not `v`, so a path that does not end at `v` is one of `g`
  have hpath : ∀ {a b}, TransGen (Edge (g ++ [(v, ps)])) a b → b ≠ v → TransGen (Edge g) a b := by
    intro a b h
    induction h with
    | single h => exact fun hb => .single (hedge h hb)
    | tail _ h ih => exact fun hc => (ih (hout h)).tail (hedge h hc)
  intro w hw
  obtain ⟨x, hx, -⟩ := TransGen.head'_iff.mp hw
  exact ha w (hpath hw (hout hx))

theorem acyclic_no_self (ha : Acyclic g) (v : α) : ¬ Edge g v v := fun h => ha v (.single h)

end TddyCoder.Graph
