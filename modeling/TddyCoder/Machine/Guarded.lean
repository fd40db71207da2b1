/-
  TddyCoder.Machine.Guarded — runs of a state machine whose inputs meet a condition.

  A machine takes one input after another: its state after a list of inputs is the left
  fold of `step`. `Guarded step ok s inputs` says that each input meets `ok` in the state it
  arrives in. An invariant that every such step keeps holds in every state the run reaches
  (`guarded_reached`), so a condition under which one step is safe is a condition under
  which whole runs are.
-/

import Mathlib.Data.List.Induction

namespace TddyCoder.Machine

open List

variable {σ ι : Type} (step : σ → ι → σ) (ok : σ → ι → Prop)

/-- Each input meets `ok` in the state it arrives in. -/
def Guarded : σ → List ι → Prop
  | _, [] => True
  | s, i :: inputs => ok s i ∧ Guarded (step s i) inputs

variable {step ok}

variable {s : σ}

theorem guarded_append {first rest : List ι} :
    Guarded step ok s (first ++ rest) ↔ Guarded step ok s first ∧ Guarded step ok (first.foldl step s) rest := by
  induction first generalizing s with
  | nil => simp [Guarded]
  | cons i first ih =>
    simp only [cons_append, Guarded, foldl_cons, ih, and_assoc]

variable {inputs : List ι} {ok' : σ → ι → Prop}

theorem guarded_both (h : Guarded step ok s inputs)
    (h' : Guarded step ok' s inputs) : Guarded step (fun s i => ok s i ∧ ok' s i) s inputs := by
  induction inputs generalizing s with
  | nil => trivial
  | cons i inputs ih => exact ⟨⟨h.1, h'.1⟩, ih h.2 h'.2⟩

theorem guarded_and {Q : ι → Prop} (h : Guarded step ok s inputs) (hQ : ∀ i ∈ inputs, Q i) :
    Guarded step (fun s i => ok s i ∧ Q i) s inputs := by
  induction inputs generalizing s with
  | nil => trivial
  | cons i inputs ih =>
    exact ⟨⟨h.1, hQ i mem_cons_self⟩, ih h.2 fun j hj => hQ j (mem_cons_of_mem i hj)⟩

variable {Inv Base : σ → Prop}

theorem guarded_keeps (hstep : ∀ s i, Inv s → ok s i → Inv (step s i)) (hs : Inv s)
    (h : Guarded step ok s inputs) : Inv (inputs.foldl step s) := by
  induction inputs generalizing s with
  | nil => exact hs
  | cons i inputs ih => exact ih (hstep s i hs h.1) h.2

/-- What a guarded step keeps holds in every state a guarded run reaches. -/
theorem guarded_reached (hstep : ∀ s i, Inv s → ok s i → Inv (step s i)) (hs : Inv s)
    {reached : List ι} (h : Guarded step ok s inputs) (hr : reached <+: inputs) : Inv (reached.foldl step s) := by
  obtain ⟨rest, rfl⟩ := hr
  exact guarded_keeps hstep hs (guarded_append.mp h).1

/-- What a step does under an invariant, a guarded run does at every step. -/
theorem guarded_imp (hbase : ∀ s i, Base s → ok s i → Base (step s i))
    (himp : ∀ s i, Base s → ok s i → ok' s i) (hs : Base s)
    (h : Guarded step ok s inputs) : Guarded step ok' s inputs := by
  induction inputs generalizing s with
  | nil => trivial
  | cons i inputs ih => exact ⟨himp s i hs h.1, ih (hbase s i hs h.1) h.2⟩

/-- A run is guarded when each of its inputs meets the condition where the inputs before it have led. -/
theorem guarded_iff :
    Guarded step ok s inputs ↔ ∀ before i after, inputs = before ++ i :: after → ok (before.foldl step s) i := by
  constructor
  · rintro h before i after rfl
    exact (guarded_append.mp h).2.1
  intro h
  induction inputs generalizing s with
  | nil => trivial
  | cons i inputs ih =>
    refine ⟨h [] i inputs rfl, ih ?_⟩
    rintro before j after rfl
    exact h (i :: before) j after rfl

/-- Where a step keeps the invariant only if its input meets the condition, the invariant holds along a run exactly when
    the run is guarded. -/
theorem reached_iff_guarded (hstep : ∀ s i, Inv s → (Inv (step s i) ↔ ok s i)) (hs : Inv s) :
    (∀ reached, reached <+: inputs → Inv (reached.foldl step s)) ↔ Guarded step ok s inputs := by
  constructor
  · intro h
    refine guarded_iff.mpr ?_
    rintro before i after rfl
    have hnext := h (before ++ [i]) ⟨after, by simp⟩
    rw [foldl_append] at hnext
    exact (hstep _ i (h before ⟨i :: after, rfl⟩)).mp hnext
  · intro h reached hr
    exact guarded_reached (fun s i hs hok => (hstep s i hs).mpr hok) hs h hr

/-- Where an invariant is kept by the inputs that meet the condition, says what is observed, and an input after which that
    is observed meets the condition, it is observed along a run exactly when the run is guarded. -/
theorem observed_iff_guarded {Observed : σ → Prop} (hkeep : ∀ s i, Inv s → ok s i → Inv (step s i))
    (hobserved : ∀ s, Inv s → Observed s) (hneeded : ∀ s i, Inv s → Observed (step s i) → ok s i) (hs : Inv s) :
    (∀ reached, reached <+: inputs → Observed (reached.foldl step s)) ↔ Guarded step ok s inputs := by
  constructor
  · intro h
    induction inputs generalizing s with
    | nil => trivial
    | cons i inputs ih =>
      have hok : ok s i := hneeded s i hs (h [i] ⟨inputs, rfl⟩)
      refine ⟨hok, ih (hkeep s i hs hok) ?_⟩
      rintro reached ⟨rest, rfl⟩
      exact h (i :: reached) ⟨rest, rfl⟩
  · intro h reached hr
    exact hobserved _ (guarded_reached hkeep hs h hr)

/-- Where what a step keeps is what it had and that its input meets the condition, the last state of a run has it exactly
    when the first one had and the run is guarded. -/
theorem kept_iff_guarded {given : σ → ι → Prop} (hbase : ∀ s i, Base s → given s i → Base (step s i))
    (hstep : ∀ s i, Base s → given s i → (Inv (step s i) ↔ Inv s ∧ ok s i)) (hs : Base s)
    (h : Guarded step given s inputs) :
    Inv (inputs.foldl step s) ↔ Inv s ∧ Guarded step ok s inputs := by
  induction inputs generalizing s with
  | nil => simp [Guarded]
  | cons i inputs ih =>
    rw [foldl_cons, ih (hbase s i hs h.1) h.2, hstep s i hs h.1, and_assoc, Guarded]

end TddyCoder.Machine
