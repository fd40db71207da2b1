/-
  TddyCoder.Machine.Fallible — machines whose steps can fail. A run is a monadic fold of the
  step, and stops at the first error. `Checked step ok s inputs` says that each input meets
  `ok` in the state it arrives in, as far as the run gets.

  A relation that every such step carries over to a step of a second machine is carried over
  by whole runs, which then do not fail on the second machine either (`Checked.simulates`).
-/

import Mathlib.Data.List.Basic

namespace TddyCoder.Machine

open List

variable {σ τ ι ε δ : Type} {x : Except ε σ} {is : List ι} {i : ι} {b : τ}

theorem bind_eq_ok {f : σ → Except ε τ} : (x >>= f) = .ok b ↔ ∃ a, x = .ok a ∧ f a = .ok b := by
  cases x with
  | error e => exact ⟨fun h => (by cases h), fun ⟨_, h, _⟩ => (by cases h)⟩
  | ok a => exact ⟨fun h => ⟨a, rfl, h⟩, fun ⟨_, h, h'⟩ => (by cases h; exact h')⟩

theorem map_eq_ok {f : σ → τ} : x.map f = .ok b ↔ ∃ a, x = .ok a ∧ f a = b := by
  cases x <;> simp [Except.map]

theorem forM_eq_ok {f : ι → Except ε τ} :
    (is.forM fun i => (f i).map fun _ => ()) = .ok () ↔ ∀ i ∈ is, ∃ t, f i = .ok t := by
  induction is with
  | nil => simp [pure, Except.pure]
  | cons i is ih =>
    rw [forM_eq_forM, forM_cons, bind_eq_ok, forall_mem_cons, ← ih]
    simp [map_eq_ok]

theorem forall₂_of_mapM {f : ι → Except ε σ} {ss : List σ} (h : is.mapM f = .ok ss) :
    List.Forall₂ (fun i s => f i = .ok s) is ss := by
  induction is generalizing ss with
  | nil =>
    cases h
    exact .nil
  | cons i is ih =>
    rw [mapM_cons] at h
    obtain ⟨s, hs, hrest⟩ := bind_eq_ok.mp h
    obtain ⟨rest, hrest', hreturn⟩ := bind_eq_ok.mp hrest
    cases hreturn
    exact .cons hs (ih hrest')

theorem foldlM_cons_eq_ok {step : σ → ι → Except ε σ} {s s' : σ} {inputs : List ι} :
    (i :: inputs).foldlM step s = .ok s' ↔ ∃ mid, step s i = .ok mid ∧ inputs.foldlM step mid = .ok s' := by
  exact bind_eq_ok

/-- Each input meets `ok` where it arrives, as far as the run gets. -/
def Checked (step : σ → ι → Except ε σ) (ok : σ → ι → Prop) : σ → List ι → Prop
  | _, [] => True
  | s, i :: inputs => ok s i ∧ ∀ s', step s i = .ok s' → Checked step ok s' inputs

variable {step : σ → ι → Except ε σ} {ok : σ → ι → Prop} {s s' : σ} {inputs : List ι} {R : σ → τ → Prop} {t : τ}

theorem Checked.cons (hstep : step s i = .ok s') (hok : ok s i) (h : Checked step ok s' inputs) :
    Checked step ok s (i :: inputs) := by
  refine ⟨hok, fun mid hmid => ?_⟩
  cases hstep.symm.trans hmid
  exact h

theorem Checked.and {ok' : σ → ι → Prop} (h : Checked step ok s inputs) (h' : Checked step ok' s inputs) :
    Checked step (fun s i => ok s i ∧ ok' s i) s inputs := by
  induction inputs generalizing s with
  | nil => trivial
  | cons i inputs ih => exact ⟨⟨h.1, h'.1⟩, fun mid hmid => ih (h.2 mid hmid) (h'.2 mid hmid)⟩

theorem Checked.simulates {step' : τ → ι → Except δ τ}
    (hstep : ∀ s t i s', R s t → ok s i → step s i = .ok s' → ∃ t', step' t i = .ok t' ∧ R s' t')
    (h : Checked step ok s inputs) (hrun : inputs.foldlM step s = .ok s') (hR : R s t) :
    ∃ t', inputs.foldlM step' t = .ok t' ∧ R s' t' := by
  induction inputs generalizing s t with
  | nil =>
    cases hrun
    exact ⟨t, rfl, hR⟩
  | cons i inputs ih =>
    obtain ⟨mid, hmid, hrest⟩ := foldlM_cons_eq_ok.mp hrun
    obtain ⟨tmid, htmid, hRmid⟩ := hstep s t i mid hR h.1 hmid
    obtain ⟨t', ht', hR'⟩ := ih (h.2 mid hmid) hrest hRmid
    exact ⟨t', foldlM_cons_eq_ok.mpr ⟨tmid, htmid, ht'⟩, hR'⟩

theorem Checked.follows {step' : τ → ι → τ}
    (hstep : ∀ s t i s', R s t → ok s i → step s i = .ok s' → R s' (step' t i))
    (h : Checked step ok s inputs) (hrun : inputs.foldlM step s = .ok s') (hR : R s t) :
    R s' (inputs.foldl step' t) := by
  induction inputs generalizing s t with
  | nil =>
    cases hrun
    exact hR
  | cons i inputs ih =>
    obtain ⟨mid, hmid, hrest⟩ := foldlM_cons_eq_ok.mp hrun
    exact ih (h.2 mid hmid) hrest (hstep s t i mid hR h.1 hmid)

theorem foldlM_project {g : σ → τ} {step' : τ → ι → Except ε τ} (hstep : ∀ s i, (step s i).map g = step' (g s) i) (s : σ)
    (inputs : List ι) : (inputs.foldlM step s).map g = inputs.foldlM step' (g s) := by
  induction inputs generalizing s with
  | nil => rfl
  | cons i inputs ih =>
    rw [foldlM_cons, foldlM_cons, ← hstep]
    cases step s i with
    | error e => rfl
    | ok mid => exact ih mid

theorem foldlM_keeps {Inv : σ → Prop} (hstep : ∀ s, ∀ i ∈ inputs, ∀ s', Inv s → step s i = .ok s' → Inv s') (hs : Inv s)
    (hrun : inputs.foldlM step s = .ok s') : Inv s' := by
  induction inputs generalizing s with
  | nil =>
    cases hrun
    exact hs
  | cons i inputs ih =>
    obtain ⟨mid, hmid, hrest⟩ := foldlM_cons_eq_ok.mp hrun
    exact ih (fun s j hj => hstep s j (mem_cons_of_mem i hj)) (hstep s i mem_cons_self mid hs hmid) hrest

end TddyCoder.Machine
