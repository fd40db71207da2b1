/-
  TddyCoder.Tree.Patch — files under paths, patches over them, and a working directory that
  is switched from one set of tracked files to another.

  A patch is a list of sections, each naming a path, what it expects there and what it leaves
  there. Switching a working directory rewrites the paths that were tracked or are now, and leaves
  the others as they are.
-/

import Mathlib.Data.List.Basic

namespace TddyCoder.Tree

open Function

/-- What is at each path, if anything. -/
abbrev Files (P B : Type) := P → Option B

structure PatchSection (P B : Type) where
  path : P
  before : Option B
  after : Option B
  deriving DecidableEq

variable {P B : Type} [DecidableEq P]

def fits [DecidableEq B] (patch : List (PatchSection P B)) (files : Files P B) : Bool :=
  patch.all fun s => files s.path = s.before

def patched (patch : List (PatchSection P B)) (files : Files P B) : Files P B :=
  patch.foldl (fun files s => update files s.path s.after) files

variable {patch : List (PatchSection P B)} {p : P}

theorem patched_untouched (h : ∀ s ∈ patch, s.path ≠ p)
    (files : Files P B) : patched patch files p = files p := by
  unfold patched
  induction patch generalizing files with
  | nil => rfl
  | cons s patch ih =>
    rw [List.foldl_cons, ih (fun s' hs' => h s' (List.mem_cons_of_mem s hs'))]
    exact update_of_ne (h s List.mem_cons_self).symm _ _

theorem patched_touched (h : ∃ s ∈ patch, s.path = p)
    (files files' : Files P B) : patched patch files p = patched patch files' p := by
  unfold patched
  induction patch generalizing files files' with
  | nil => simp at h
  | cons s patch ih =>
    rw [List.foldl_cons, List.foldl_cons]
    by_cases hrest : ∃ s' ∈ patch, s'.path = p
    · exact ih hrest _ _
    -- the last section for the path is this one
    have hs : s.path = p := by simpa [hrest] using h
    have hun : ∀ s' ∈ patch, s'.path ≠ p := fun s' hs' e => hrest ⟨s', hs', e⟩
    have hleft := patched_untouched hun (update files s.path s.after)
    have hright := patched_untouched hun (update files' s.path s.after)
    unfold patched at hleft hright
    rw [hleft, hright, ← hs]
    simp

/-- A patch from `a` to `b` takes a mixture of `a` and `c` to one of `b` and `c`. -/
theorem patched_mixture {a b c files : Files P B} (hab : patched patch a = b)
    (h : ∀ p, files p = a p ∨ files p = c p) (p : P) :
    patched patch files p = b p ∨ patched patch files p = c p := by
  by_cases htouched : ∃ s ∈ patch, s.path = p
  · left
    rw [← hab]
    exact patched_touched htouched files a
  · have hun : ∀ s ∈ patch, s.path ≠ p := fun s hs e => htouched ⟨s, hs, e⟩
    rw [patched_untouched hun files, ← hab, patched_untouched hun a]
    exact h p

/-! ## Switching a working directory -/

/-- The working directory after its tracked files went from `old` to `new`. -/
def switched (old new work : Files P B) : Files P B := fun p =>
  if (old p).isSome || (new p).isSome then new p else work p

omit [DecidableEq P] in
theorem switched_twice (old mid new work : Files P B) (p : P) :
    switched mid new (switched old mid work) p =
      if (old p).isSome || (mid p).isSome || (new p).isSome then new p else work p := by
  unfold switched
  cases hold : old p <;> cases hmid : mid p <;> cases hnew : new p <;> simp

omit [DecidableEq P] in
/-- Two switches leave the second's files exactly when every file that was not tracked is among them. -/
theorem switched_twice_eq_iff (old mid new work : Files P B) :
    switched mid new (switched old mid work) = new ↔
      ∀ p, work p ≠ none → old p = none → mid p = none → new p ≠ none := by
  constructor
  · intro h p hwork hold hmid hnew
    have hp := congrFun h p
    rw [switched_twice, hold, hmid, hnew] at hp
    exact hwork hp
  intro h
  funext p
  rw [switched_twice]
  split
  · rfl
  rename_i hnone
  simp only [Bool.or_eq_true, not_or, Option.not_isSome_iff_eq_none] at hnone
  obtain ⟨⟨hold, hmid⟩, hnew⟩ := hnone
  rw [hnew]
  by_contra hwork
  exact h p hwork hold hmid hnew

end TddyCoder.Tree
