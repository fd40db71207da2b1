/-
  TddyCoder.Machine.Ledger — calls that are opened, answered and settled, in the abstract.

  Calls are numbered in the order they are opened; `live` is the set of those that can still
  be answered. An answer must fit its call, and a final one ends the call's life: it is live
  no more, and numbers are not used twice. Hence, in whatever order things happen, every
  answer fits and nothing answers a call after a final answer (`Sound`).

  A program is shown to behave so by naming the ledger of each of its states and showing that
  each of its steps is ledger steps (`sound_of_refines`).
-/

import Mathlib.Data.Set.Basic

namespace TddyCoder.Machine

open List

structure Ledger (κ α : Type) where
  calls : List κ
  log : List (Nat × α)
  live : Set Nat

namespace Ledger

variable {κ α : Type} (Fits : κ → α → Prop) (final : κ → α → Bool)

/-- A call is opened, a live call is answered, or calls are given up. -/
inductive Step : Ledger κ α → Ledger κ α → Prop
  | opened {l l' : Ledger κ α} (k : κ) : l'.calls = l.calls ++ [k] → l'.log = l.log →
      (∀ h ∈ l'.live, h ∈ l.live ∨ h = l.calls.length) → Step l l'
  | answered {l l' : Ledger κ α} (h : Nat) (k : κ) (a : α) : h ∈ l.live → l.calls[h]? = some k → Fits k a →
      l'.calls = l.calls → l'.log = l.log ++ [(h, a)] → (∀ x ∈ l'.live, x ∈ l.live) →
      (final k a = true → h ∉ l'.live) → Step l l'
  | dropped {l l' : Ledger κ α} : l'.calls = l.calls → l'.log = l.log → (∀ x ∈ l'.live, x ∈ l.live) → Step l l'

structure Sound (l : Ledger κ α) : Prop where
  bounded : ∀ h ∈ l.live, h < l.calls.length
  fits : ∀ h a, (h, a) ∈ l.log → ∃ k, l.calls[h]? = some k ∧ Fits k a
  unsettled : ∀ h a k, (h, a) ∈ l.log → l.calls[h]? = some k → final k a = true → h ∉ l.live
  last : ∀ before h a after k, l.log = before ++ (h, a) :: after → l.calls[h]? = some k → final k a = true →
    ∀ a', (h, a') ∉ after

variable {Fits final}

variable {l' l : Ledger κ α} {k : κ}

section

variable (hl : l.Sound Fits final)
include hl

theorem Sound.opened (hcalls : l'.calls = l.calls ++ [k])
    (hlog : l'.log = l.log) (hlive : ∀ h ∈ l'.live, h ∈ l.live ∨ h = l.calls.length) : l'.Sound Fits final := by
  -- a call that has been answered is an old one, and stands where it stood
  have hold : ∀ h a, (h, a) ∈ l.log → h < l.calls.length ∧ l'.calls[h]? = l.calls[h]? := by
    intro h a hmem
    obtain ⟨k', hk, -⟩ := hl.fits h a hmem
    have hlt : h < l.calls.length := (List.getElem?_eq_some_iff.mp hk).1
    exact ⟨hlt, by rw [hcalls, getElem?_append_left hlt]⟩
  refine ⟨?_, ?_, ?_, ?_⟩
  · intro h hh
    have : h < l.calls.length + 1 := (hlive h hh).elim (fun hh => Nat.lt_succ_of_lt (hl.bounded h hh)) (by omega)
    simpa [hcalls] using this
  · intro h a hmem
    rw [hlog] at hmem
    rw [(hold h a hmem).2]
    exact hl.fits h a hmem
  · intro h a k' hmem hk hfinal hh
    rw [hlog] at hmem
    rw [(hold h a hmem).2] at hk
    rcases hlive h hh with hh | hh
    · exact hl.unsettled h a k' hmem hk hfinal hh
    · exact absurd (hold h a hmem).1 (by omega)
  intro before h a after k' hsplit hk hfinal
  rw [hlog] at hsplit
  rw [(hold h a (by simp [hsplit])).2] at hk
  exact hl.last before h a after k' hsplit hk hfinal

theorem Sound.answered {h : Nat} {a : α} (hh : h ∈ l.live)
    (hk : l.calls[h]? = some k) (hfits : Fits k a) (hcalls : l'.calls = l.calls) (hlog : l'.log = l.log ++ [(h, a)])
    (hlive : ∀ x ∈ l'.live, x ∈ l.live) (hfinal : final k a = true → h ∉ l'.live) : l'.Sound Fits final := by
  refine ⟨?_, ?_, ?_, ?_⟩
  · intro x hx
    rw [hcalls]
    exact hl.bounded x (hlive x hx)
  · intro x b hmem
    rw [hlog, mem_append, mem_singleton] at hmem
    rw [hcalls]
    rcases hmem with hmem | hmem
    · exact hl.fits x b hmem
    · cases hmem
      exact ⟨k, hk, hfits⟩
  · intro x b k' hmem hk' hb
    rw [hlog, mem_append, mem_singleton] at hmem
    rw [hcalls] at hk'
    rcases hmem with hmem | hmem
    · exact fun hx => hl.unsettled x b k' hmem hk' hb (hlive x hx)
    · cases hmem
      cases hk.symm.trans hk'
      exact hfinal hb
  · intro before x b after k' hsplit hk' hb b' hmem
    rw [hlog] at hsplit
    rw [hcalls] at hk'
    -- the answer just given is the last entry: what comes before it was sound, and a settled call is not live
    rcases eq_nil_or_concat after with rfl | ⟨after', e, rfl⟩
    · cases hmem
    have hsplit' : l.log ++ [(h, a)] = (before ++ (x, b) :: after') ++ [e] := by simpa using hsplit
    obtain ⟨hlog', he⟩ := append_inj' hsplit' rfl
    rw [concat_eq_append] at hmem
    rcases mem_append.mp hmem with hmem | hmem
    · exact hl.last before x b after' k' hlog' hk' hb b' hmem
    · have hxh : x = h := by simpa using congrArg Prod.fst ((mem_singleton.mp hmem).trans (by simpa using he.symm))
      subst hxh
      exact hl.unsettled x b k' (by simp [hlog']) hk' hb hh

theorem Sound.dropped (hcalls : l'.calls = l.calls)
    (hlog : l'.log = l.log) (hlive : ∀ x ∈ l'.live, x ∈ l.live) : l'.Sound Fits final := by
  refine ⟨?_, ?_, ?_, ?_⟩
  · intro h hh
    rw [hcalls]
    exact hl.bounded h (hlive h hh)
  · rw [hlog, hcalls]
    exact hl.fits
  · rw [hlog, hcalls]
    exact fun h a k hmem hk hfinal hh => hl.unsettled h a k hmem hk hfinal (hlive h hh)
  · rw [hlog, hcalls]
    exact hl.last

theorem Sound.step (h : Step Fits final l l') : l'.Sound Fits final := by
  cases h with
  | opened k hcalls hlog hlive => exact hl.opened hcalls hlog hlive
  | answered h k a hh hk hfits hcalls hlog hlive hfinal => exact hl.answered hh hk hfits hcalls hlog hlive hfinal
  | dropped hcalls hlog hlive => exact hl.dropped hcalls hlog hlive

theorem Sound.steps (h : Relation.ReflTransGen (Step Fits final) l l') :
    l'.Sound Fits final := by
  induction h with
  | refl => exact hl
  | tail _ h ih => exact ih.step h

end

/-- A machine whose steps are ledger steps has a sound ledger after any inputs. -/
theorem sound_of_refines {σ ι : Type} {step : σ → ι → σ} {Inv : σ → Prop} (ledger : σ → Ledger κ α)
    (hstep : ∀ s i, Inv s → Inv (step s i) ∧ Relation.ReflTransGen (Step Fits final) (ledger s) (ledger (step s i)))
    {s : σ} (hs : Inv s) (hl : (ledger s).Sound Fits final) (inputs : List ι) :
    Inv (inputs.foldl step s) ∧ (ledger (inputs.foldl step s)).Sound Fits final := by
  induction inputs generalizing s with
  | nil => exact ⟨hs, hl⟩
  | cons i inputs ih =>
    obtain ⟨hinv, hsteps⟩ := hstep s i hs
    exact ih hinv (hl.steps hsteps)

end Ledger

end TddyCoder.Machine
