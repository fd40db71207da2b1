/-
  TddyCoder.Replica.LastWriter — last writer wins, by a rank. A replica holds at most one
  value; one that arrives is taken unless the value held ranks above it. Two values of one
  rank overwrite each other.
-/

import Mathlib.Algebra.Order.Ring.Nat
import Mathlib.Data.List.Basic

namespace TddyCoder.Replica

open List

variable {ε ρ : Type} [LinearOrder ρ] (rank : ε → ρ)

def settle (held incoming : ε) : ε := if rank incoming < rank held then held else incoming

/-- A replica that holds nothing takes what comes. -/
def arrive (held : Option ε) (incoming : ε) : Option ε :=
  match held with
  | none => some incoming
  | some held => some (settle rank held incoming)

def settleAll (held : Option ε) (incoming : List ε) : Option ε := incoming.foldl (arrive rank) held

variable {rank}

/-! ## The merge -/

theorem settle_self (e : ε) : settle rank e e = e := by simp [settle]

theorem settle_of_lt {held incoming : ε} (h : rank incoming < rank held) : settle rank held incoming = held := if_pos h

theorem settle_of_le {held incoming : ε} (h : rank held ≤ rank incoming) : settle rank held incoming = incoming :=
  if_neg (not_lt.mpr h)

theorem settle_eq_or (held incoming : ε) : settle rank held incoming = held ∨ settle rank held incoming = incoming := by
  by_cases h : rank incoming < rank held
  · exact .inl (settle_of_lt h)
  · exact .inr (settle_of_le (not_lt.mp h))

def NoTies (rank : ε → ρ) (values : Set ε) : Prop := ∀ a ∈ values, ∀ b ∈ values, rank a = rank b → a = b

theorem settle_comm_iff {values : Set ε} :
    (∀ a ∈ values, ∀ b ∈ values, settle rank a b = settle rank b a) ↔ NoTies rank values := by
  constructor
  · intro h a ha b hb hab
    have hcomm := h a ha b hb
    rw [settle_of_le hab.le, settle_of_le hab.ge] at hcomm
    exact hcomm.symm
  intro h a ha b hb
  rcases lt_trichotomy (rank a) (rank b) with hlt | heq | hgt
  · rw [settle_of_le hlt.le, settle_of_lt hlt]
  · rw [h a ha b hb heq]
  · rw [settle_of_lt hgt, settle_of_le hgt.le]

/-- Ties or none, the merge is associative. -/
theorem settle_assoc (a b c : ε) : settle rank (settle rank a b) c = settle rank a (settle rank b c) := by
  by_cases hab : rank b < rank a
  · rw [settle_of_lt hab]
    by_cases hbc : rank c < rank b
    · rw [settle_of_lt hbc, settle_of_lt hab, settle_of_lt (hbc.trans hab)]
    · rw [settle_of_le (not_lt.mp hbc)]
  rw [settle_of_le (not_lt.mp hab)]
  by_cases hbc : rank c < rank b
  · rw [settle_of_lt hbc, settle_of_le (not_lt.mp hab)]
  · rw [settle_of_le (not_lt.mp hbc), settle_of_le ((not_lt.mp hab).trans (not_lt.mp hbc))]

/-! ## One replica -/

variable (rank) in
theorem arrive_eq_or (held : Option ε) (incoming : ε) :
    arrive rank held incoming = held ∨ arrive rank held incoming = some incoming := by
  cases held with
  | none => exact .inr rfl
  | some held => exact (settle_eq_or held incoming).imp (congrArg some) (congrArg some)

variable {incoming : List ε} {held : Option ε}

theorem mem_of_settleAll {e : ε} (h : settleAll rank held incoming = some e) : held = some e ∨ e ∈ incoming := by
  induction incoming generalizing held with
  | nil => exact .inl h
  | cons i incoming ih =>
    rcases ih h with hheld | hmem
    · rcases arrive_eq_or rank held i with heq | heq
      · exact .inl (heq ▸ hheld)
      · rw [heq] at hheld
        exact .inr (Option.some.inj hheld ▸ mem_cons_self)
    · exact .inr (mem_cons_of_mem i hmem)

theorem settle_top {top e : ε} (h : e = top ∨ rank e < rank top) : settle rank top e = top ∧ settle rank e top = top := by
  rcases h with rfl | hlt
  · exact ⟨settle_self e, settle_self e⟩
  · exact ⟨settle_of_lt hlt, settle_of_le hlt.le⟩

theorem settleAll_top {top : ε}
    (hheld : ∀ e ∈ held, e = top ∨ rank e < rank top) (habove : ∀ e ∈ incoming, e = top ∨ rank e < rank top)
    (harrived : held = some top ∨ top ∈ incoming) : settleAll rank held incoming = some top := by
  induction incoming generalizing held with
  | nil => exact harrived.resolve_right not_mem_nil
  | cons i incoming ih =>
    have hi := habove i mem_cons_self
    refine ih ?_ (fun e he => habove e (mem_cons_of_mem i he)) ?_
    · intro e he
      rcases arrive_eq_or rank held i with heq | heq
      · exact hheld e (heq ▸ he)
      · rw [heq] at he
        exact Option.some.inj he ▸ hi
    rcases harrived with rfl | hmem
    · exact .inl (congrArg some (settle_top hi).1)
    rcases mem_cons.mp hmem with rfl | hlater
    · cases held with
      | none => exact .inl rfl
      | some e => exact .inl (congrArg some (settle_top (hheld e rfl)).2)
    · exact .inr hlater

theorem settleAll_last {last : ε} (hheld : ∀ e ∈ held, rank e ≤ rank last)
    (habove : ∀ e ∈ incoming, rank e ≤ rank last) : settleAll rank held (incoming ++ [last]) = some last := by
  have hfold : settleAll rank held (incoming ++ [last]) = arrive rank (settleAll rank held incoming) last :=
    foldl_concat ..
  rw [hfold]
  cases hsettled : settleAll rank held incoming with
  | none => rfl
  | some e =>
    have hle : rank e ≤ rank last := (mem_of_settleAll hsettled).elim (fun h => hheld e h) (habove e)
    exact congrArg some (settle_of_le hle)

end TddyCoder.Replica
