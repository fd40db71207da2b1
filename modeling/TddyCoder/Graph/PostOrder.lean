/-
  TddyCoder.Graph.PostOrder — depth-first search that lists what a vertex depends on before
  the vertex, and stops at a vertex it is still in the middle of.

  The dependencies of a vertex may fail to be read. A vertex that is on the stack when it
  comes up again lies on a cycle, and the search ends with an error.
-/

import Mathlib.Data.List.Nodup
import Mathlib.Data.List.Perm.Subperm
import TddyCoder.Machine.Fallible

namespace TddyCoder.Graph

open List Relation

variable {α ε : Type} (edges : α → Except ε (List α))

/-- `v` can be read and names `d`. -/
def Names (v d : α) : Prop := ∃ deps, edges v = .ok deps ∧ d ∈ deps

/-- Everything comes after what it names. -/
def Ordered (order : List α) : Prop :=
  ∀ before v after, order = before ++ v :: after → (∃ deps, edges v = .ok deps) ∧ ∀ d, Names edges v d → d ∈ before

variable {edges : α → Except ε (List α)} {v : α} {f : List α → α → Except ε (List α)} {deps order : List α}

theorem Ordered.nil : Ordered edges [] := by
  intro before v after h
  exact absurd h (by simp)

theorem Ordered.snoc (h : Ordered edges order) (hdeps : edges v = .ok deps)
    (hmem : ∀ d ∈ deps, d ∈ order) : Ordered edges (order ++ [v]) := by
  intro before w after heq
  rcases eq_nil_or_concat after with rfl | ⟨after', last, rfl⟩
  · obtain ⟨rfl, hw⟩ := append_inj' heq rfl
    cases hw
    refine ⟨⟨deps, hdeps⟩, ?_⟩
    rintro d ⟨deps', hdeps', hd⟩
    rw [hdeps] at hdeps'
    cases hdeps'
    exact hmem d hd
  · have hshort : order ++ [v] = (before ++ w :: after') ++ [last] := by
      simpa using heq
    obtain ⟨rfl, -⟩ := append_inj' hshort rfl
    exact h before w after' rfl

theorem Ordered.path {before after : List α} {d : α} (h : Ordered edges order)
    (horder : order = before ++ v :: after) (hpath : TransGen (Names edges) v d) : d ∈ before := by
  induction hpath with
  | single hnames => exact (h before v after horder).2 _ hnames
  | tail _ hnames ih =>
    obtain ⟨l, r, rfl⟩ := append_of_mem ih
    rw [append_assoc, cons_append] at horder
    exact mem_append_left _ ((h l _ _ horder).2 _ hnames)

structure Visits (edges : α → Except ε (List α)) (stack visited visited' : List α) : Prop where
  extends_ : visited <+: visited'
  ordered : Ordered edges visited → Ordered edges visited'
  nodup : visited.Nodup → visited'.Nodup
  fresh : ∀ v ∈ visited', v ∈ visited ∨ v ∉ stack

namespace Visits

variable {stack visited visited' visited'' : List α}

theorem refl (visited : List α) : Visits edges stack visited visited :=
  ⟨prefix_refl _, id, id, fun _ h => .inl h⟩

theorem trans (h : Visits edges stack visited visited') (h' : Visits edges stack visited' visited'') :
    Visits edges stack visited visited'' := by
  refine ⟨h.extends_.trans h'.extends_, fun ho => h'.ordered (h.ordered ho), fun hn => h'.nodup (h.nodup hn), ?_⟩
  intro v hv
  rcases h'.fresh v hv with hv | hv
  · exact h.fresh v hv
  · exact .inr hv

end Visits

theorem foldlM_visits
    (hf : ∀ {visited visited' d}, f visited d = .ok visited' → Visits edges stack visited visited' ∧ d ∈ visited')
    {visited visited' : List α} (h : deps.foldlM f visited = .ok visited') :
    Visits edges stack visited visited' ∧ ∀ d ∈ deps, d ∈ visited' := by
  induction deps generalizing visited with
  | nil =>
    cases h
    exact ⟨.refl _, by simp⟩
  | cons d deps ih =>
    obtain ⟨mid, hfirst, hrest⟩ := Machine.foldlM_cons_eq_ok.mp h
    obtain ⟨hvisits, hmem⟩ := ih hrest
    obtain ⟨hvisits', hd⟩ := hf hfirst
    exact ⟨hvisits'.trans hvisits, forall_mem_cons.mpr ⟨hvisits.extends_.subset hd, hmem⟩⟩

theorem foldlM_ok
    (hf : ∀ d ∈ deps, ∀ visited, ∃ visited', f visited d = .ok visited') (visited : List α) :
    ∃ visited', deps.foldlM f visited = .ok visited' := by
  induction deps generalizing visited with
  | nil => exact ⟨visited, rfl⟩
  | cons d deps ih =>
    obtain ⟨mid, hmid⟩ := hf d mem_cons_self visited
    obtain ⟨visited', hrest⟩ := ih (fun d' hd' => hf d' (mem_cons_of_mem d hd')) mid
    refine ⟨visited', ?_⟩
    rw [foldlM_cons, hmid]
    exact hrest

/-! ## The search -/

variable [DecidableEq α]

section search

variable (edges : α → Except ε (List α)) (cycle : List α → α → ε)

def visit : Nat → List α → List α → α → Except ε (List α)
  | 0, stack, visited, v => if v ∈ visited then .ok visited else .error (cycle stack v)
  | fuel + 1, stack, visited, v =>
    if v ∈ visited then .ok visited
    else if v ∈ stack then .error (cycle stack v)
    else
      match edges v with
      | .error e => .error e
      | .ok deps =>
        match deps.foldlM (visit fuel (stack ++ [v])) visited with
        | .error e => .error e
        | .ok visited' => .ok (visited' ++ [v])

end search

variable {cycle : List α → α → ε}

variable {stack visited visited' : List α} {fuel : Nat}

theorem visit_eq_ok
    (h : visit edges cycle fuel stack visited v = .ok visited') :
    (v ∈ visited ∧ visited' = visited) ∨ (v ∉ visited ∧ v ∉ stack ∧ ∃ fuel' deps mid, fuel = fuel' + 1 ∧
      edges v = .ok deps ∧ deps.foldlM (visit edges cycle fuel' (stack ++ [v])) visited = .ok mid ∧
      visited' = mid ++ [v]) := by
  by_cases hvisited : v ∈ visited
  · refine .inl ⟨hvisited, ?_⟩
    cases fuel <;> simpa [visit, hvisited] using h.symm
  cases fuel with
  | zero => simp [visit, hvisited] at h
  | succ fuel =>
    simp only [visit, hvisited, if_false] at h
    split at h
    · cases h
    · next hstack =>
      split at h
      · cases h
      · next deps hdeps =>
        split at h
        · cases h
        · next mid hfold => exact .inr ⟨hvisited, hstack, fuel, deps, mid, rfl, hdeps, hfold, by cases h; rfl⟩

theorem visit_spec
    (h : visit edges cycle fuel stack visited v = .ok visited') :
    Visits edges stack visited visited' ∧ v ∈ visited' := by
  induction fuel generalizing stack visited visited' v with
  | zero =>
    rcases visit_eq_ok h with ⟨hmem, rfl⟩ | ⟨-, -, _, _, _, hfuel, -⟩
    · exact ⟨.refl _, hmem⟩
    · cases hfuel
  | succ fuel ih =>
    rcases visit_eq_ok h with ⟨hmem, rfl⟩ | ⟨hvisited, hstack, _, deps, mid, hfuel, hdeps, hfold, rfl⟩
    · exact ⟨.refl _, hmem⟩
    cases hfuel
    obtain ⟨hvisits, hmem⟩ := foldlM_visits (fun h => ih h) hfold
    -- the vertex itself was on the stack all along, so it is new
    have hnew : v ∉ mid := by
      intro hv
      rcases hvisits.fresh v hv with hv | hv
      · exact hvisited hv
      · exact hv (by simp)
    refine ⟨⟨hvisits.extends_.trans (prefix_append _ _), fun ho => (hvisits.ordered ho).snoc hdeps hmem,
      fun hn => ?_, fun w hw => ?_⟩, by simp⟩
    · exact by simpa using (hvisits.nodup hn).concat hnew
    · rcases mem_append.mp hw with hw | hw
      · exact (hvisits.fresh w hw).imp_right fun hw' hmem => hw' (mem_append_left _ hmem)
      · exact .inr (mem_singleton.mp hw ▸ hstack)

/-- The search does not leave a set that is closed under dependencies. -/
theorem visit_within {within : α → Prop} (hclosed : ∀ v d, within v → Names edges v d → within d)
    (hv : within v) (hvisited : ∀ w ∈ visited, within w)
    (h : visit edges cycle fuel stack visited v = .ok visited') : ∀ w ∈ visited', within w := by
  induction fuel generalizing stack visited visited' v with
  | zero =>
    rcases visit_eq_ok h with ⟨-, rfl⟩ | ⟨-, -, _, _, _, hfuel, -⟩
    · exact hvisited
    · cases hfuel
  | succ fuel ih =>
    rcases visit_eq_ok h with ⟨-, rfl⟩ | ⟨-, -, _, deps, mid, hfuel, hdeps, hfold, rfl⟩
    · exact hvisited
    cases hfuel
    have hstep : ∀ seen, ∀ d ∈ deps, ∀ seen', (∀ w ∈ seen, within w) →
        visit edges cycle fuel (stack ++ [v]) seen d = .ok seen' → ∀ w ∈ seen', within w :=
      fun seen d hd seen' hseen hd' => ih (hclosed v d hv ⟨deps, hdeps, hd⟩) hseen hd'
    exact forall_mem_append.mpr ⟨Machine.foldlM_keeps hstep hvisited hfold, by simpa using hv⟩

/-- Where everything can be read and nothing depends on itself, the search succeeds. -/
theorem visit_acyclic {known : List α} (hknown : ∀ v, v ∉ known → edges v = .ok [])
    (hread : ∀ v, ∃ deps, edges v = .ok deps) (hacyclic : ∀ v, ¬ TransGen (Names edges) v v)
    (hnodup : stack.Nodup) (hstack : stack ⊆ known) (hfuel : known.length < stack.length + fuel)
    (hpath : ∀ s ∈ stack, TransGen (Names edges) s v) (visited : List α) :
    ∃ visited', visit edges cycle fuel stack visited v = .ok visited' := by
  induction fuel generalizing stack v visited with
  | zero =>
    have hlength := (hnodup.subperm hstack).length_le
    omega
  | succ fuel ih =>
    unfold visit
    split
    · exact ⟨_, rfl⟩
    split
    · next hmem => exact absurd (hpath v hmem) (hacyclic v)
    · next hmem =>
      obtain ⟨deps, hdeps⟩ := hread v
      -- each dependency is searched with the vertex on the stack
      have hdep : ∀ d ∈ deps, ∀ visited, ∃ visited', visit edges cycle fuel (stack ++ [v]) visited d = .ok visited' := by
        intro d hd visited
        have hnames : Names edges v d := ⟨deps, hdeps, hd⟩
        have hv : v ∈ known := by
          by_contra hv
          rw [hknown v hv] at hdeps
          cases hdeps
          exact absurd hd not_mem_nil
        have hstack' : stack ++ [v] ⊆ known := by
          simpa [append_subset, hv] using hstack
        have hlength : (stack ++ [v]).length = stack.length + 1 := length_append
        refine ih (by simpa using hnodup.concat hmem) hstack' (by rw [hlength]; omega) ?_ visited
        intro s hs
        rcases mem_append.mp hs with hs | hs
        · exact (hpath s hs).tail hnames
        · exact .single (mem_singleton.mp hs ▸ hnames)
      obtain ⟨visited', hvisited'⟩ := foldlM_ok hdep visited
      exact ⟨visited' ++ [v], by simp only [hdeps, hvisited']⟩

end TddyCoder.Graph
