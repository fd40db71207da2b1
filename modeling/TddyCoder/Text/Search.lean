/-
  TddyCoder.Text.Search — looking for a list inside of a list, as `str::find`, `str::matches`
  and `str::replacen` do: the first occurrence, and how many are met one after the other, each
  looked for behind the end of the one before.

  Occurrences that overlap are not counted, so a count of one does not mean one occurrence.
  `Entangled` is what it can mean instead, and `occursOnce_iff` says so.
-/

import Mathlib.Data.List.Basic

namespace TddyCoder.Text

open List

variable {α : Type} [DecidableEq α]

def OccursAt (needle xs : List α) (i : Nat) : Prop := i ≤ xs.length ∧ needle <+: xs.drop i

instance (needle xs : List α) (i : Nat) : Decidable (OccursAt needle xs i) :=
  inferInstanceAs (Decidable (_ ∧ _))

def splitFirst (needle : List α) : List α → Option (List α × List α)
  | [] => if needle = [] then some ([], []) else none
  | x :: xs =>
    if needle <+: x :: xs then some ([], (x :: xs).drop needle.length)
    else (splitFirst needle xs).map fun (before, after) => (x :: before, after)

/-- How many occurrences are met, after `skip` elements that belong to the one before. -/
def countMatches (needle : List α) : Nat → List α → Nat
  | 0, [] => if needle = [] then 1 else 0
  | 0, x :: xs => if needle <+: x :: xs then 1 + countMatches needle (needle.length - 1) xs else countMatches needle 0 xs
  | _ + 1, [] => 0
  | skip + 1, _ :: xs => countMatches needle skip xs

def OccursOnce (needle xs : List α) (i : Nat) : Prop := ∀ j, OccursAt needle xs j ↔ j = i

/-- More than one occurrence, all of which begin inside the first. -/
def Entangled (needle xs : List α) : Prop :=
  ∃ i j, OccursAt needle xs i ∧ OccursAt needle xs j ∧ i ≠ j ∧
    ∀ k, OccursAt needle xs k → i ≤ k ∧ k < i + needle.length

section

variable {needle xs before after : List α} {x : α} {i : Nat}

omit [DecidableEq α] in
theorem occursAt_zero : OccursAt needle xs 0 ↔ needle <+: xs := by
  simp [OccursAt]

omit [DecidableEq α] in
theorem occursAt_succ : OccursAt needle (x :: xs) (i + 1) ↔ OccursAt needle xs i := by
  simp [OccursAt]

omit [DecidableEq α] in
theorem occursAt_append : OccursAt needle (before ++ xs) (before.length + i) ↔ OccursAt needle xs i := by
  rw [OccursAt, OccursAt, length_append, Nat.add_le_add_iff_left, ← drop_drop, drop_left]

omit [DecidableEq α] in
theorem occursAt_iff : OccursAt needle xs i ↔ ∃ before after, xs = before ++ needle ++ after ∧ before.length = i := by
  constructor
  · intro ⟨hi, after, hafter⟩
    refine ⟨xs.take i, after, ?_, length_take_of_le hi⟩
    rw [append_assoc, hafter, take_append_drop]
  intro ⟨before, after, heq, hi⟩
  subst hi heq
  have h : OccursAt needle (before ++ (needle ++ after)) (before.length + 0) :=
    occursAt_append.mpr (occursAt_zero.mpr (prefix_append _ _))
  rw [append_assoc]
  exact h

omit [DecidableEq α] in
theorem occursAt_nil_needle : OccursAt [] xs i ↔ i ≤ xs.length := by
  simp [OccursAt]

/-! ## The first occurrence -/

theorem splitFirst_eq_none : splitFirst needle xs = none ↔ ∀ i, ¬ OccursAt needle xs i := by
  induction xs with
  | nil =>
    rw [splitFirst]
    by_cases hneedle : needle = []
    · rw [if_pos hneedle]
      refine ⟨fun h => (by cases h), fun h => absurd ?_ (h 0)⟩
      rw [hneedle]
      exact occursAt_zero.mpr nil_prefix
    rw [if_neg hneedle]
    refine ⟨fun _ i hi => hneedle ?_, fun _ => rfl⟩
    have h := hi.2
    rw [drop_nil] at h
    exact prefix_nil.mp h
  | cons x xs ih =>
    rw [splitFirst]
    by_cases hhere : needle <+: x :: xs
    · rw [if_pos hhere]
      exact ⟨fun h => (by cases h), fun h => absurd (occursAt_zero.mpr hhere) (h 0)⟩
    rw [if_neg hhere, Option.map_eq_none_iff, ih]
    constructor
    · intro h i hi
      cases i with
      | zero => exact hhere (occursAt_zero.mp hi)
      | succ i => exact h i (occursAt_succ.mp hi)
    · intro h i hi
      exact h (i + 1) (occursAt_succ.mpr hi)

theorem splitFirst_eq_some (h : splitFirst needle xs = some (before, after)) :
    xs = before ++ needle ++ after ∧ ∀ i, OccursAt needle xs i → before.length ≤ i := by
  induction xs generalizing before with
  | nil =>
    rw [splitFirst] at h
    by_cases hneedle : needle = []
    · rw [if_pos hneedle] at h
      cases h
      exact ⟨by rw [hneedle]; rfl, fun i _ => Nat.zero_le i⟩
    · rw [if_neg hneedle] at h
      cases h
  | cons x xs ih =>
    rw [splitFirst] at h
    by_cases hhere : needle <+: x :: xs
    · rw [if_pos hhere] at h
      cases h
      exact ⟨(prefix_iff_eq_append.mp hhere).symm, fun i _ => Nat.zero_le i⟩
    rw [if_neg hhere] at h
    obtain ⟨⟨before', after'⟩, hfirst, heq⟩ := Option.map_eq_some_iff.mp h
    cases heq
    obtain ⟨hxs, hmin⟩ := ih hfirst
    refine ⟨by rw [hxs]; rfl, ?_⟩
    intro i hi
    cases i with
    | zero => exact absurd (occursAt_zero.mp hi) hhere
    | succ i => exact Nat.succ_le_succ (hmin i (occursAt_succ.mp hi))

/-! ## How many are met -/

theorem countMatches_skip (needle before xs : List α) :
    countMatches needle before.length (before ++ xs) = countMatches needle 0 xs := by
  induction before with
  | nil => rfl
  | cons x before ih => exact ih

theorem countMatches_eq_zero : countMatches needle 0 xs = 0 ↔ splitFirst needle xs = none := by
  induction xs with
  | nil => by_cases hneedle : needle = [] <;> simp [countMatches, splitFirst, hneedle]
  | cons x xs ih => by_cases hhere : needle <+: x :: xs <;> simp [countMatches, splitFirst, hhere, ih]

theorem countMatches_first (hneedle : needle ≠ []) (h : splitFirst needle xs = some (before, after)) :
    countMatches needle 0 xs = countMatches needle 0 after + 1 := by
  induction xs generalizing before with
  | nil =>
    rw [splitFirst, if_neg hneedle] at h
    cases h
  | cons x xs ih =>
    rw [splitFirst] at h
    rw [countMatches]
    by_cases hhere : needle <+: x :: xs
    · rw [if_pos hhere] at h ⊢
      cases h
      cases needle with
      | nil => exact absurd rfl hneedle
      | cons y needle =>
        obtain ⟨rest, hrest⟩ := hhere
        obtain ⟨rfl, rfl⟩ := cons.inj hrest
        show 1 + countMatches (y :: needle) needle.length (needle ++ rest) =
          countMatches (y :: needle) 0 ((needle ++ rest).drop needle.length) + 1
        rw [countMatches_skip, drop_left, Nat.add_comm]
    · rw [if_neg hhere] at h ⊢
      obtain ⟨⟨before', after'⟩, hfirst, heq⟩ := Option.map_eq_some_iff.mp h
      cases heq
      exact ih hfirst

theorem countMatches_nil_needle (xs : List α) : countMatches [] 0 xs = xs.length + 1 := by
  induction xs with
  | nil => rfl
  | cons x xs ih =>
    rw [countMatches, if_pos nil_prefix, length_cons, length_nil, Nat.zero_sub, ih]
    omega

theorem countMatches_le_one (hneedle : needle ≠ []) (h : splitFirst needle xs = some (before, after)) :
    countMatches needle 0 xs ≤ 1 ↔ ∀ i, OccursAt needle xs i → i < before.length + needle.length := by
  have hcount := countMatches_first hneedle h
  obtain ⟨hxs, -⟩ := splitFirst_eq_some h
  have hbehind : ∀ i, OccursAt needle xs (before.length + needle.length + i) ↔ OccursAt needle after i := by
    intro i
    rw [hxs, ← length_append]
    exact occursAt_append
  have hzero : countMatches needle 0 xs ≤ 1 ↔ countMatches needle 0 after = 0 := by omega
  rw [hzero, countMatches_eq_zero, splitFirst_eq_none]
  constructor
  · intro hnone i hi
    by_contra hle
    refine hnone (i - (before.length + needle.length)) ((hbehind _).mp ?_)
    rw [Nat.add_sub_cancel' (Nat.le_of_not_lt hle)]
    exact hi
  · intro hall i hi
    have := hall _ ((hbehind i).mpr hi)
    omega

omit [DecidableEq α] in
theorem occursOnce_nil_needle : OccursOnce [] xs i ↔ xs = [] ∧ i = 0 := by
  constructor
  · intro h
    have hend : xs.length = i := (h _).mp (occursAt_nil_needle.mpr (Nat.le_refl _))
    have hstart : 0 = i := (h _).mp (occursAt_nil_needle.mpr (Nat.zero_le _))
    exact ⟨length_eq_zero_iff.mp (hend.trans hstart.symm), hstart.symm⟩
  · intro ⟨hxs, hi⟩ j
    rw [occursAt_nil_needle, hxs, hi]
    exact Nat.le_zero

omit [DecidableEq α] in
theorem not_entangled_nil_needle : ¬ Entangled [] xs := by
  intro ⟨i, j, hi, hj, hne, hall⟩
  have := (hall i hi).2
  simp at this

/-- Where at most one is met, the first is the only occurrence unless others begin inside of it. -/
theorem occursOnce_iff (h : splitFirst needle xs = some (before, after)) (hcount : countMatches needle 0 xs ≤ 1) :
    OccursOnce needle xs before.length ↔ ¬ Entangled needle xs := by
  obtain ⟨hxs, hmin⟩ := splitFirst_eq_some h
  have hfirst : OccursAt needle xs before.length := occursAt_iff.mpr ⟨before, after, hxs, rfl⟩
  constructor
  · intro honce ⟨i, j, hi, hj, hne, _⟩
    exact hne (((honce i).mp hi).trans ((honce j).mp hj).symm)
  intro hnot j
  refine ⟨?_, fun heq => by rw [heq]; exact hfirst⟩
  intro hj
  by_contra hne
  by_cases hneedle : needle = []
  · subst hneedle
    rw [countMatches_nil_needle] at hcount
    have := hj.1
    have := hfirst.1
    omega
  · refine hnot ⟨before.length, j, hfirst, hj, fun heq => hne heq.symm, ?_⟩
    intro k hk
    exact ⟨hmin k hk, (countMatches_le_one hneedle h).mp hcount k hk⟩

theorem not_entangled_of_count (h : splitFirst needle xs = some (before, after)) (hcount : ¬ countMatches needle 0 xs ≤ 1) :
    ¬ Entangled needle xs := by
  intro hentangled
  have hneedle : needle ≠ [] := fun heq => not_entangled_nil_needle (heq ▸ hentangled)
  obtain ⟨i, j, hi, hj, hne, hall⟩ := hentangled
  obtain ⟨hxs, hmin⟩ := splitFirst_eq_some h
  refine hcount ((countMatches_le_one hneedle h).mpr ?_)
  intro k hk
  have hfirst : OccursAt needle xs before.length := occursAt_iff.mpr ⟨before, after, hxs, rfl⟩
  have := (hall _ hfirst).1
  have := (hall k hk).2
  omega

end

end TddyCoder.Text
