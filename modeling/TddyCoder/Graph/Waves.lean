/-
  TddyCoder.Graph.Waves — Kahn's algorithm level by level: a wave is every vertex whose
  predecessors are all in earlier waves.

  The graph is a list of edges between listed vertices; an edge may be listed more than
  once, and then counts as often. The loop takes a whole wave, takes one from the in-degree
  of the head of each edge that leaves it, and sorts what has reached 0 into the next wave.
-/

import TddyCoder.Graph.Kahn

namespace TddyCoder.Graph

open List

variable {α : Type} [LinearOrder α] (edges : List (α × α)) {wave : List α} (v : α)

def successors : List α := (edges.filter fun e => e.1 = v).map (·.2)

def mentions : Nat := edges.countP fun e => e.2 = v

def wavesFrom : Nat → (α → Nat) → List α → List (List α)
  | 0, _, _ => []
  | _ + 1, _, [] => []
  | fuel + 1, deg, v :: rest =>
    let next := ((v :: rest).flatMap (successors edges)).foldl relax (deg, [])
    (v :: rest) :: wavesFrom fuel next.1 (next.2.insertionSort (· ≤ ·))

/-- A wave takes up at least one vertex, so there are at most as many as vertices. -/
def waves (vertices : List α) : List (List α) :=
  wavesFrom edges vertices.length (mentions edges)
    ((vertices.filter fun v => mentions edges v = 0).insertionSort (· ≤ ·))

/-! ## One wave -/

theorem count_flatMap_successors (hwave : wave.Nodup) (v : α) :
    (wave.flatMap (successors edges)).count v = edges.countP fun e => e.2 = v ∧ e.1 ∈ wave := by
  induction wave with
  | nil => simp
  | cons u wave ih =>
    obtain ⟨hu, hwave⟩ := nodup_cons.mp hwave
    rw [flatMap_cons, count_append, ih hwave]
    -- an edge into `v` leaves `u` or the rest of the wave, never both
    clear ih
    induction edges with
    | nil => simp [successors]
    | cons e edges ih =>
      by_cases hfrom : e.1 = u
      · by_cases hto : e.2 = v
        · simp [successors, hfrom, hto, hu] at ih ⊢
          omega
        · simpa [successors, hfrom, hto, hu] using ih
      by_cases hto : e.2 = v
      · by_cases hmem : e.1 ∈ wave
        · simp [successors, hfrom, hto, hmem] at ih ⊢
          omega
        · simpa [successors, hfrom, hto, hmem] using ih
      · simpa [successors, hfrom, hto] using ih

theorem countP_sources (p : α → Prop) [DecidablePred p] :
    ((edges.filter (·.2 = v)).map (·.1)).countP p = edges.countP fun e => e.2 = v ∧ p e.1 := by
  simp [countP_map, countP_filter, Function.comp_def, and_comm]

structure Level (vertices placed current : List α) (deg : α → Nat) : Prop where
  nodup : (placed ++ current).Nodup
  /-- The in-degree counts the edges from what is not placed yet. -/
  degEq : ∀ v, deg v = edges.countP fun e => e.2 = v ∧ e.1 ∉ placed
  ready : ∀ v, v ∈ placed ++ current ↔ v ∈ vertices ∧ deg v = 0

variable {edges} {vertices placed current : List α} {deg : α → Nat}

theorem Level.next (h : Level edges vertices placed current deg) (hends : ∀ e ∈ edges, e.2 ∈ vertices) :
    Level edges vertices (placed ++ current)
      (((current.flatMap (successors edges)).foldl relax (deg, [])).2.insertionSort (· ≤ ·))
      ((current.flatMap (successors edges)).foldl relax (deg, [])).1 := by
  have hsources := fun (placed : List α) v => countP_sources edges v (· ∉ placed)
  have hcount : ∀ v, (current.flatMap (successors edges)).count v =
      ((edges.filter (·.2 = v)).map (·.1)).countP (· ∈ current) := by
    intro v
    rw [count_flatMap_successors edges (nodup_append.mp h.nodup).2.1, countP_sources]
  have hsucc : ∀ v ∈ current.flatMap (successors edges), v ∈ vertices := by
    intro v hv
    obtain ⟨u, -, hu⟩ := mem_flatMap.mp hv
    obtain ⟨e, he, rfl⟩ := mem_map.mp hu
    exact hends e (mem_filter.mp he).1
  obtain ⟨new, hfold, hnodup, hready⟩ := take_wave current [] (by simpa using h.nodup)
    (fun v => (h.degEq v).trans (hsources placed v).symm) (by simpa using h.ready) hcount hsucc
  have hperm := (perm_insertionSort (· ≤ ·) new).append_left (placed ++ current)
  rw [hfold]
  exact ⟨hperm.nodup_iff.mpr hnodup, hsources _, fun v => hperm.mem_iff.trans (hready v)⟩

variable (edges) in
def Layered : List α → List (List α) → Prop
  | _, [] => True
  | placed, wave :: rest => (∀ v ∈ wave, ∀ u, (u, v) ∈ edges → u ∈ placed) ∧ Layered (placed ++ wave) rest

theorem wavesFrom_level (hends : ∀ e ∈ edges, e.2 ∈ vertices) {fuel : Nat}
    (h : Level edges vertices placed current deg) (hfuel : vertices.length ≤ placed.length + fuel) :
    Layered edges placed (wavesFrom edges fuel deg current) ∧
      ∃ deg', Level edges vertices (placed ++ (wavesFrom edges fuel deg current).flatten) [] deg' := by
  induction fuel generalizing placed current deg with
  | zero =>
    -- as much is placed as there are vertices, so nothing can be current
    have hlength : (placed ++ current).length ≤ vertices.length :=
      (Nodup.subperm h.nodup fun v hv => ((h.ready v).mp hv).1).length_le
    have hnil : current = [] := by
      rw [length_append] at hlength
      exact eq_nil_of_length_eq_zero (by omega)
    subst hnil
    exact ⟨trivial, deg, by simpa [wavesFrom] using h⟩
  | succ fuel ih =>
    cases current with
    | nil => exact ⟨trivial, deg, by simpa [wavesFrom] using h⟩
    | cons v rest =>
      obtain ⟨hlayered, deg', hlevel⟩ := ih (h.next hends) (by simp; omega)
      refine ⟨⟨fun w hw u he => ?_, hlayered⟩, deg', by simpa [wavesFrom] using hlevel⟩
      have hzero := ((h.ready w).mp (mem_append_right _ hw)).2
      rw [h.degEq w, countP_eq_zero] at hzero
      by_contra hu
      exact hzero (u, w) he (by simp [hu])

theorem wavesFrom_ne_nil {fuel : Nat} (h : wave ∈ wavesFrom edges fuel deg current) : wave ≠ [] := by
  induction fuel generalizing deg current with
  | zero => exact absurd h not_mem_nil
  | succ fuel ih =>
    cases current with
    | nil => exact absurd h not_mem_nil
    | cons v rest =>
      rcases mem_cons.mp h with rfl | h
      · exact cons_ne_nil v rest
      · exact ih h

omit [LinearOrder α] in
theorem Layered.lt {placed : List α} {waves : List (List α)} (h : Layered edges placed waves)
    (hnodup : (placed ++ waves.flatten).Nodup) {i j : Nat} {wave' : List α} (hi : waves[i]? = some wave)
    (hj : waves[j]? = some wave') {u v : α} (hu : u ∈ wave) (hv : v ∈ wave') (he : (u, v) ∈ edges) : i < j := by
  induction waves generalizing placed i j with
  | nil => exact absurd hi (by simp)
  | cons first rest ih =>
    obtain ⟨hfirst, hrest⟩ := h
    cases j with
    | zero =>
      -- the predecessors of the first wave are placed, and no wave holds those
      obtain rfl : first = wave' := by simpa using hj
      have hflat : u ∈ (first :: rest).flatten := mem_flatten.mpr ⟨wave, mem_of_getElem? hi, hu⟩
      exact absurd rfl ((nodup_append.mp hnodup).2.2 u (hfirst v hv u he) u hflat)
    | succ j =>
      cases i with
      | zero => omega
      | succ i =>
        have hnodup' : (placed ++ first ++ rest.flatten).Nodup := by
          simpa using hnodup
        exact Nat.succ_lt_succ (ih hrest hnodup' (by simpa using hi) (by simpa using hj))

/-- There is a chain of `n` steps that ends at the vertex. -/
def Chained (r : α → α → Prop) : Nat → α → Prop
  | 0, _ => True
  | n + 1, v => ∃ u, r u v ∧ Chained r n u

omit [LinearOrder α] in
theorem Chained.mono {r : α → α → Prop} {m n : Nat} (hle : m ≤ n) {v : α} (h : Chained r n v) : Chained r m v := by
  induction m generalizing n v with
  | zero => trivial
  | succ m ih =>
    cases n with
    | zero => omega
    | succ n =>
      obtain ⟨u, hu, hchain⟩ := h
      exact ⟨u, hu, ih (by omega) hchain⟩

variable (hvertices : vertices.Nodup) (hends : ∀ e ∈ edges, e.2 ∈ vertices)

include hvertices hends

omit hends in
theorem waves_start : Level edges vertices []
    ((vertices.filter fun v => mentions edges v = 0).insertionSort (· ≤ ·)) (mentions edges) := by
  have hperm := perm_insertionSort (· ≤ ·) (vertices.filter fun v => mentions edges v = 0)
  refine ⟨?_, fun v => by simp [mentions], fun v => ?_⟩
  · simpa using hperm.nodup_iff.mpr (hvertices.filter _)
  · rw [nil_append, hperm.mem_iff, mem_filter, decide_eq_true_eq]

theorem waves_level :
    Layered edges [] (waves edges vertices) ∧ ∃ deg, Level edges vertices (waves edges vertices).flatten [] deg :=
  wavesFrom_level hends (waves_start hvertices) (by simp)

theorem waves_nodup : (waves edges vertices).flatten.Nodup := by
  obtain ⟨-, deg, h⟩ := waves_level hvertices hends
  simpa using h.nodup

theorem mem_waves (v : α) :
    v ∈ (waves edges vertices).flatten ↔
      v ∈ vertices ∧ ∀ u, (u, v) ∈ edges → u ∈ (waves edges vertices).flatten := by
  obtain ⟨-, deg, h⟩ := waves_level hvertices hends
  have hready := h.ready v
  rw [append_nil] at hready
  rw [hready, h.degEq v, countP_eq_zero]
  refine and_congr_right fun _ => ⟨fun hzero u he => ?_, fun hall e he hto => ?_⟩
  · by_contra hu
    exact hzero (u, v) he (by simp [hu])
  · simp only [decide_eq_true_eq] at hto
    exact hto.2 (hall e.1 (hto.1 ▸ he))

theorem waves_lt {i j : Nat} {wave' : List α}
    (hi : (waves edges vertices)[i]? = some wave) (hj : (waves edges vertices)[j]? = some wave') {u v : α}
    (hu : u ∈ wave) (hv : v ∈ wave') (he : (u, v) ∈ edges) : i < j := by
  have hnodup : ([] ++ (waves edges vertices).flatten).Nodup := waves_nodup hvertices hends
  exact (waves_level hvertices hends).1.lt hnodup hi hj hu hv he

end TddyCoder.Graph
