/-
  TddyCoder.Graph.Rounds — sorting by repeated passes: each round takes, in list order, the
  elements that are ready given what is already placed; a round that takes nothing ends the
  sort with what is left, in list order.

  `ready` may be any test that can only become true as more is placed. `settled l k a` says
  that `a` is placed within the first `k` rounds over `l`. `Before l a b` is the order the
  passes produce: `a` settles in an earlier round, or in the same one and is listed first.
-/

import Mathlib.Data.List.Basic
import Mathlib.Data.List.Pairwise
import Mathlib.Order.Basic

namespace TddyCoder.Graph

open List

section Rounds

variable {α κ : Type} (ready : List κ → α → Bool) (key : α → κ)

def rounds : Nat → List κ → List α → List α
  | 0, _, _ => []
  | n + 1, placed, rest =>
    let now := rest.filter (ready placed)
    let later := rest.filter fun a => !ready placed a
    if now.isEmpty then later else now ++ rounds n (placed ++ now.map key) later

def settled (l : List α) : Nat → α → Bool
  | 0, _ => false
  | k + 1, a => ready ((l.filter (settled l k)).map key) a

def StaysReady : Prop := ∀ P Q a, P ⊆ Q → ready P a = true → ready Q a = true

variable {ready key} {a : α} {l : List α} {k : Nat}

theorem settled_succ (hr : StaysReady ready) (h : settled ready key l k a = true) :
    settled ready key l (k + 1) a = true := by
  induction k generalizing a with
  | zero => cases h
  | succ k ih =>
    refine hr _ _ a ?_ h
    intro x hx
    obtain ⟨b, hb, rfl⟩ := mem_map.mp hx
    obtain ⟨hbl, hbk⟩ := mem_filter.mp hb
    exact mem_map_of_mem (mem_filter.mpr ⟨hbl, ih hbk⟩)

theorem settled_le (hr : StaysReady ready) {j : Nat} (hjk : j ≤ k)
    (h : settled ready key l j a = true) : settled ready key l k a = true := by
  induction hjk with
  | refl => exact h
  | step _ ih => exact settled_succ hr ih

theorem settled_stuck
    (h : ∀ a ∈ l, settled ready key l (k + 1) a = settled ready key l k a) (j : Nat) :
    ∀ a ∈ l, settled ready key l (k + j) a = settled ready key l k a := by
  induction j with
  | zero => exact fun a _ => rfl
  | succ j ih =>
    intro a ha
    show ready ((l.filter (settled ready key l (k + j))).map key) a = _
    rw [filter_congr ih]
    exact h a ha

/-- What the passes put first: an earlier round, and the list order within a round. -/
def Before [DecidableEq α] (ready : List κ → α → Bool) (key : α → κ) (l : List α) (a b : α) : Prop :=
  (∃ k, settled ready key l k a = true ∧ settled ready key l k b = false) ∨
    (∀ k, settled ready key l k a = settled ready key l k b) ∧ l.idxOf a < l.idxOf b

variable [DecidableEq α] {l : List α}

theorem pairwise_idxOf (hl : l.Nodup) : l.Pairwise fun a b => l.idxOf a < l.idxOf b := by
  rw [pairwise_iff_getElem]
  intro i j hi hj hij
  rw [hl.idxOf_getElem i hi, hl.idxOf_getElem j hj]
  exact hij

theorem before_asymm (hr : StaysReady ready) {b : α} (h : Before ready key l a b) : ¬ Before ready key l b a := by
  intro h'
  rcases h with ⟨k, hka, hkb⟩ | ⟨he, hlt⟩
  · rcases h' with ⟨j, hjb, hja⟩ | ⟨he, -⟩
    · by_cases hkj : k ≤ j
      · rw [settled_le hr hkj hka] at hja
        cases hja
      · rw [settled_le hr (by omega) hjb] at hkb
        cases hkb
    · rw [he, hka] at hkb
      cases hkb
  · rcases h' with ⟨j, hjb, hja⟩ | ⟨-, hlt'⟩
    · rw [he, hjb] at hja
      cases hja
    · omega

theorem before_total {b : α} (ha : a ∈ l) (hab : a ≠ b) : Before ready key l a b ∨ Before ready key l b a := by
  by_cases he : ∀ k, settled ready key l k a = settled ready key l k b
  · have hne : l.idxOf a ≠ l.idxOf b := fun e => hab (idxOf_inj ha |>.mp e)
    rcases Nat.lt_or_gt_of_ne hne with hlt | hlt
    · exact .inl (.inr ⟨he, hlt⟩)
    · exact .inr (.inr ⟨fun k => (he k).symm, hlt⟩)
  obtain ⟨k, hk⟩ := not_forall.mp he
  cases hka : settled ready key l k a with
  | true => exact .inl (.inl ⟨k, hka, by simpa [hka] using hk⟩)
  | false => exact .inr (.inl ⟨k, by simpa [hka] using hk, hka⟩)

/-! ## The loop -/

/-- The loop after `k` rounds: what is placed is what has settled, what is left is what has not. -/
structure Stage (ready : List κ → α → Bool) (key : α → κ) (l : List α) (k : Nat) (placed : List κ) (rest : List α) :
    Prop where
  placed : ∀ x, x ∈ placed ↔ x ∈ (l.filter (settled ready key l k)).map key
  rest : rest = l.filter fun a => !settled ready key l k a

section Stage

variable {k : Nat} {placed : List κ} {rest : List α} (hr : StaysReady ready) (hs : Stage ready key l k placed rest)

include hs in
theorem stage_idxOf (hl : l.Nodup) (p : α → Bool) : (rest.filter p).Pairwise fun a b => l.idxOf a < l.idxOf b := by
  refine (pairwise_idxOf hl).sublist (filter_sublist.trans ?_)
  rw [hs.rest]
  exact filter_sublist

include hs in
omit [DecidableEq α] in
theorem stage_mem : a ∈ rest ↔ a ∈ l ∧ settled ready key l k a = false := by
  rw [hs.rest]
  simp

include hr hs

omit [DecidableEq α] in
theorem stage_ready (a : α) : ready placed a = settled ready key l (k + 1) a := by
  rw [settled, Bool.eq_iff_iff]
  exact ⟨hr _ _ a fun x => (hs.placed x).mp, hr _ _ a fun x => (hs.placed x).mpr⟩

omit [DecidableEq α] in
theorem stage_next : Stage ready key l (k + 1) (placed ++ (rest.filter (ready placed)).map key)
    (rest.filter fun a => !ready placed a) := by
  have hready := stage_ready hr hs
  refine ⟨fun x => ?_, ?_⟩
  · rw [mem_append, hs.placed]
    simp only [mem_map, mem_filter, stage_mem hs, hready]
    constructor
    · rintro (⟨a, ⟨hal, hak⟩, rfl⟩ | ⟨a, ⟨⟨hal, -⟩, hak⟩, rfl⟩)
      · exact ⟨a, ⟨hal, settled_succ hr hak⟩, rfl⟩
      · exact ⟨a, ⟨hal, hak⟩, rfl⟩
    rintro ⟨a, ⟨hal, hak⟩, rfl⟩
    cases hk : settled ready key l k a with
    | true => exact .inl ⟨a, ⟨hal, hk⟩, rfl⟩
    | false => exact .inr ⟨a, ⟨⟨hal, hk⟩, hak⟩, rfl⟩
  · rw [hs.rest, filter_filter]
    refine filter_congr fun a _ => ?_
    rw [hready]
    cases hk : settled ready key l k a with
    | true => simp [settled_succ hr hk]
    | false => simp

omit [DecidableEq α] in
theorem stage_stuck (h : rest.filter (ready placed) = []) : ∀ a ∈ rest, ∀ j, settled ready key l j a = false := by
  have hstuck : ∀ a ∈ l, settled ready key l (k + 1) a = settled ready key l k a := by
    intro a ha
    cases hk : settled ready key l k a with
    | true => exact settled_succ hr hk
    | false =>
      have hnone := filter_eq_nil_iff.mp h a ((stage_mem hs).mpr ⟨ha, hk⟩)
      rw [stage_ready hr hs] at hnone
      simpa using hnone
  intro a ha j
  obtain ⟨hal, hak⟩ := (stage_mem hs).mp ha
  cases hja : settled ready key l j a with
  | false => rfl
  | true =>
    have hlast := settled_le hr (Nat.le_add_left j k) hja
    rw [settled_stuck hstuck j a hal, hak] at hlast
    cases hlast

omit [DecidableEq α] in
/-- The elements of one round settle in it and not before. -/
theorem stage_now (ha : a ∈ rest.filter (ready placed)) (j : Nat) :
    settled ready key l j a = decide (k < j) := by
  obtain ⟨ha, hready⟩ := mem_filter.mp ha
  rw [stage_ready hr hs] at hready
  obtain ⟨-, hak⟩ := (stage_mem hs).mp ha
  by_cases hj : k < j
  · rw [settled_le hr hj hready]
    simp [hj]
  · cases hja : settled ready key l j a with
    | true => rw [settled_le hr (by omega) hja] at hak; cases hak
    | false => simp [hj]

end Stage

section

variable (hr : StaysReady ready)
include hr

theorem rounds_inv (hl : l.Nodup) (n : Nat) : ∀ (k : Nat) (placed : List κ) (rest : List α),
    Stage ready key l k placed rest → rest.length ≤ n →
    (rounds ready key n placed rest).Perm rest ∧ (rounds ready key n placed rest).Pairwise (Before ready key l) := by
  induction n with
  | zero =>
    intro k placed rest _ hlen
    rw [length_eq_zero_iff.mp (Nat.le_zero.mp hlen)]
    exact ⟨.nil, .nil⟩
  | succ n ih =>
    intro k placed rest hs hlen
    unfold rounds
    dsimp only
    split
    · rename_i hempty
      have hnone := isEmpty_iff.mp hempty
      have hnever := stage_stuck hr hs hnone
      refine ⟨?_, ?_⟩
      · rw [filter_eq_self.mpr fun a ha => by simpa using filter_eq_nil_iff.mp hnone a ha]
      · refine (stage_idxOf hs hl _).imp_of_mem fun {a b} ha hb hlt => .inr ⟨fun j => ?_, hlt⟩
        rw [hnever a (mem_filter.mp ha).1 j, hnever b (mem_filter.mp hb).1 j]
    · rename_i hne
      have hsplit := filter_append_perm (ready placed) rest
      have hshort : (rest.filter fun a => !ready placed a).length ≤ n := by
        have hlen' := hsplit.length_eq
        have hpos := length_pos_iff.mpr fun e => hne (isEmpty_iff.mpr e)
        rw [length_append] at hlen'
        omega
      obtain ⟨hperm, hpw⟩ := ih (k + 1) _ _ (stage_next hr hs) hshort
      refine ⟨(hperm.append_left _).trans hsplit, pairwise_append.mpr ⟨?_, hpw, ?_⟩⟩
      · refine (stage_idxOf hs hl _).imp_of_mem fun {a b} ha hb hlt => .inr ⟨fun j => ?_, hlt⟩
        rw [stage_now hr hs ha j, stage_now hr hs hb j]
      · intro a ha b hb
        obtain ⟨-, hbk⟩ := (stage_mem (stage_next hr hs)).mp (hperm.subset hb)
        exact .inl ⟨k + 1, by simp [stage_now hr hs ha], hbk⟩

theorem rounds_perm (hl : l.Nodup) : (rounds ready key l.length [] l).Perm l :=
  (rounds_inv hr hl l.length 0 [] l ⟨by simp [settled], by simp [settled]⟩ (Nat.le_refl _)).1

theorem rounds_pairwise (hl : l.Nodup) :
    (rounds ready key l.length [] l).Pairwise (Before ready key l) :=
  (rounds_inv hr hl l.length 0 [] l ⟨by simp [settled], by simp [settled]⟩ (Nat.le_refl _)).2

theorem rounds_eq_iff {ready' : List κ → α → Bool} (hr' : StaysReady ready') (hl : l.Nodup) :
    rounds ready key l.length [] l = rounds ready' key l.length [] l ↔
      ∀ a ∈ l, ∀ b ∈ l, Before ready key l a b → Before ready' key l a b := by
  have hp : (rounds ready key l.length [] l).Perm l := rounds_perm hr hl
  have hpw : (rounds ready key l.length [] l).Pairwise (Before ready key l) := rounds_pairwise hr hl
  have hp' : (rounds ready' key l.length [] l).Perm l := rounds_perm hr' hl
  have hpw' : (rounds ready' key l.length [] l).Pairwise (Before ready' key l) := rounds_pairwise hr' hl
  constructor
  · intro he a ha b hb hab
    have hne : a ≠ b := by
      rintro rfl
      exact before_asymm hr hab hab
    rw [he] at hpw
    -- the common list has the two in one order, and both relations say which
    let R := fun x y =>
      (Before ready key l x y ∧ Before ready' key l x y) ∨ (Before ready key l y x ∧ Before ready' key l y x)
    have hsymm : Std.Symm R := ⟨fun _ _ h => Or.symm h⟩
    have hboth : (rounds ready' key l.length [] l).Pairwise R := (hpw.and hpw').imp .inl
    rcases hboth.forall (hp'.mem_iff.mpr ha) (hp'.mem_iff.mpr hb) hne with h | h
    · exact h.2
    · exact absurd h.1 (before_asymm hr hab)
  · intro h
    refine Perm.eq_of_pairwise (fun a b _ _ hab hba => absurd hba (before_asymm hr' hab)) ?_ hpw' (hp.trans hp'.symm)
    exact hpw.imp_of_mem fun ha hb hab => h _ (hp.subset ha) _ (hp.subset hb) hab

end

end Rounds

end TddyCoder.Graph
