/-
  TddyCoder.Diff.Myers — what two lists have in common, by Myers' greedy search.

  In round `d` the search keeps, for each diagonal `k = x - y` it can be on after `d` edits, the
  furthest `x`. A round reads diagonals of the other parity only, so it may be read as one
  parallel step (`round_eq`). The stored frontiers are walked backwards to recover the path.

  Points may leave the grid, but a path that ran past the end of one list never wins: its steps
  outside are edits that lead no nearer to the end.
-/

import Mathlib.Algebra.Order.Ring.Nat
import Mathlib.Data.Nat.Find

namespace TddyCoder.Diff

open List

structure CommonRun where
  before : Nat
  after : Nat
  length : Nat
  deriving DecidableEq

abbrev Frontier := Int → Int

variable {α : Type} [DecidableEq α]

def agreeing : List α → List α → Nat
  | a :: as, b :: bs => if a = b then agreeing as bs + 1 else 0
  | _, _ => 0

def slide (before after : List α) (x y : Int) : Int := x + agreeing (before.drop x.toNat) (after.drop y.toNat)

/-- Whether the furthest path on the diagonal arrives from the one above it. -/
def goDown (frontier : Frontier) (d k : Int) : Bool := k = -d || (k ≠ d && frontier (k - 1) < frontier (k + 1))

def furthest (before after : List α) (frontier : Frontier) (d k : Int) : Int :=
  let x := if goDown frontier d k then frontier (k + 1) else frontier (k - 1) + 1
  slide before after x (x - k)

/-- One round over the diagonals; `none` once the end of both lists is reached. -/
def round (before after : List α) (d : Int) : List Int → Frontier → Option Frontier
  | [], frontier => some frontier
  | k :: ks, frontier =>
    let x := furthest before after frontier d k
    if (before.length : Int) ≤ x ∧ (after.length : Int) ≤ x - k then none
    else round before after d ks fun j => if j = k then x else frontier j

def diagonals (d : Nat) : List Int := (List.range (d + 1)).map fun i : Nat => 2 * (i : Int) - d

/-- The frontiers before each round up to the one that reached the end, the last one first; `none` if no round did. -/
def search (before after : List α) : Nat → Nat → Frontier → List Frontier → Option (List Frontier)
  | 0, _, _, _ => none
  | rounds + 1, d, frontier, trace =>
    match round before after d (diagonals d) frontier with
    | none => some (frontier :: trace)
    | some next => search before after rounds (d + 1) next (frontier :: trace)

/-- The diagonal moves of the path that ends at `(x, y)`. -/
def backtrack : List Frontier → Int → Int → List CommonRun
  | [], _, _ => []
  | [_], x, _ => if 0 < x then [⟨0, 0, x.toNat⟩] else []
  | frontier :: earlier, x, y =>
    let d : Int := earlier.length
    let k := x - y
    let previousK := if goDown frontier d k then k + 1 else k - 1
    let previousX := frontier previousK
    let previousY := previousX - previousK
    let length := (min (x - previousX) (y - previousY)).toNat
    backtrack earlier previousX previousY ++
      if 0 < length then [⟨(x - length).toNat, (y - length).toNat, length⟩] else []

/-- `none` is the search falling through. -/
def commonRuns (before after : List α) : Option (List CommonRun) :=
  let max := before.length + after.length
  if max = 0 then some []
  else (search before after (max + 1) 0 (fun _ => 0) []).map fun trace => backtrack trace before.length after.length

/-! ## One round at a time -/

structure OnRound (d : Nat) (k : Int) : Prop where
  low : -(d : Int) ≤ k
  high : k ≤ d
  parity : (k + d) % 2 = 0

instance (d : Nat) (k : Int) : Decidable (OnRound d k) :=
  decidable_of_iff (-(d : Int) ≤ k ∧ k ≤ d ∧ (k + d) % 2 = 0)
    ⟨fun ⟨hlow, hhigh, hparity⟩ => ⟨hlow, hhigh, hparity⟩, fun h => ⟨h.low, h.high, h.parity⟩⟩

variable {d : Nat} {k : Int}

theorem mem_diagonals : k ∈ diagonals d ↔ OnRound d k := by
  unfold diagonals
  rw [mem_map]
  refine ⟨fun ⟨i, hi, hk⟩ => ?_, fun h => ?_⟩
  · rw [mem_range] at hi
    exact ⟨by omega, by omega, by omega⟩
  · obtain ⟨hlow, hhigh, hparity⟩ := h
    exact ⟨((k + d) / 2).toNat, mem_range.mpr (by omega), by omega⟩

section rounds

variable (before after : List α)

def frontierAt : Nat → Frontier
  | 0 => fun _ => 0
  | d + 1 => fun k => if OnRound d k then furthest before after (frontierAt d) d k else frontierAt d k

def reach (d : Nat) (k : Int) : Int := furthest before after (frontierAt before after d) d k

def traceAt : Nat → List Frontier
  | 0 => []
  | d + 1 => frontierAt before after d :: traceAt d

def AtEnd (x k : Int) : Prop := (before.length : Int) ≤ x ∧ (after.length : Int) ≤ x - k

def Done (d : Nat) : Prop := ∃ k, OnRound d k ∧ AtEnd before after (reach before after d k) k

end rounds

variable {before after : List α}

/-- Diagonals that are no neighbours may be worked on at once. -/
theorem round_eq (before after : List α) {d : Int} {ks : List Int} (hapart : ∀ k ∈ ks, ∀ j ∈ ks, j ≠ k - 1 ∧ j ≠ k + 1)
    (frontier : Frontier) :
    ((∃ k ∈ ks, AtEnd before after (furthest before after frontier d k) k) ∧ round before after d ks frontier = none) ∨
    ((∀ k ∈ ks, ¬ AtEnd before after (furthest before after frontier d k) k) ∧ ∃ next,
      round before after d ks frontier = some next ∧
        ∀ j, next j = if j ∈ ks then furthest before after frontier d j else frontier j) := by
  induction ks generalizing frontier with
  | nil => exact .inr ⟨by simp, frontier, rfl, by simp⟩
  | cons k ks ih =>
    let x := furthest before after frontier d k
    let moved : Frontier := fun j => if j = k then x else frontier j
    have hmoved : ∀ j ∈ ks, furthest before after moved d j = furthest before after frontier d j := by
      intro j hj
      obtain ⟨hbelow, habove⟩ := hapart j (mem_cons_of_mem k hj) k mem_cons_self
      have hbelow' : moved (j - 1) = frontier (j - 1) := if_neg (Ne.symm hbelow)
      have habove' : moved (j + 1) = frontier (j + 1) := if_neg (Ne.symm habove)
      unfold furthest goDown
      rw [hbelow', habove']
    have hrest := ih (fun k hk j hj => hapart k (mem_cons_of_mem _ hk) j (mem_cons_of_mem _ hj)) moved
    by_cases hend : AtEnd before after x k
    · exact .inl ⟨⟨k, mem_cons_self, hend⟩, if_pos hend⟩
    have hround : round before after d (k :: ks) frontier = round before after d ks moved := if_neg hend
    rw [hround]
    rcases hrest with ⟨⟨j, hj, hjend⟩, hnone⟩ | ⟨hnever, next, hnext, hvalue⟩
    · rw [hmoved j hj] at hjend
      exact .inl ⟨⟨j, mem_cons_of_mem k hj, hjend⟩, hnone⟩
    refine .inr ⟨?_, next, hnext, fun j => ?_⟩
    · refine forall_mem_cons.mpr ⟨hend, fun j hj => ?_⟩
      rw [← hmoved j hj]
      exact hnever j hj
    rw [hvalue]
    by_cases hj : j ∈ ks
    · rw [if_pos hj, if_pos (mem_cons_of_mem k hj), hmoved j hj]
    by_cases hjk : j = k
    · subst hjk
      rw [if_neg hj, if_pos mem_cons_self]
      exact if_pos rfl
    · rw [if_neg hj, if_neg (by simp [hj, hjk])]
      exact if_neg hjk

theorem search_eq (rounds d : Nat) {last : Nat} (hlast : Done before after last)
    (hfirst : ∀ e, d ≤ e → e < last → ¬ Done before after e) (hd : d ≤ last) (hrounds : last < d + rounds) :
    search before after rounds d (frontierAt before after d) (traceAt before after d) =
      some (traceAt before after (last + 1)) := by
  induction rounds generalizing d with
  | zero => omega
  | succ rounds ih =>
    have hapart : ∀ k ∈ diagonals d, ∀ j ∈ diagonals d, j ≠ k - 1 ∧ j ≠ k + 1 := by
      intro k hk j hj
      have hkparity := (mem_diagonals.mp hk).parity
      have hjparity := (mem_diagonals.mp hj).parity
      omega
    unfold search
    rcases round_eq before after hapart (frontierAt before after d) with ⟨⟨k, hk, hend⟩, hnone⟩ | ⟨hnever, next, hnext, hvalue⟩
    · have hdone : Done before after d := ⟨k, mem_diagonals.mp hk, hend⟩
      have heq : d = last := by
        by_contra hne
        exact hfirst d (Nat.le_refl d) (by omega) hdone
      subst heq
      simp only [hnone]
      rfl
    · have hnot : ¬ Done before after d := fun ⟨k, hk, hend⟩ => hnever k (mem_diagonals.mpr hk) hend
      have hne : d ≠ last := fun heq => hnot (heq ▸ hlast)
      have hfrontier : next = frontierAt before after (d + 1) := by
        funext j
        rw [hvalue, frontierAt]
        simp only [mem_diagonals]
      simp only [hnext]
      rw [hfrontier]
      exact ih (d + 1) (fun e he helast => hfirst e (by omega) helast) (by omega) (by omega)

theorem frontierAt_succ (h : OnRound d k) : frontierAt before after (d + 1) k = reach before after d k := if_pos h

/-- Where a path of one more edit comes from, and that it is the better of the two ways to come. -/
structure ComesFrom (before after : List α) (d : Nat) (k x : Int) : Prop where
  slid : reach before after (d + 1) k = slide before after x (x - k)
  came : (goDown (frontierAt before after (d + 1)) ((d + 1 : Nat) : Int) k = true ∧ OnRound d (k + 1) ∧
      x = reach before after d (k + 1)) ∨
    (goDown (frontierAt before after (d + 1)) ((d + 1 : Nat) : Int) k = false ∧ OnRound d (k - 1) ∧
      x = reach before after d (k - 1) + 1)
  down : OnRound d (k + 1) → reach before after d (k + 1) ≤ x
  right : OnRound d (k - 1) → reach before after d (k - 1) + 1 ≤ x

theorem comesFrom (before after : List α) (h : OnRound (d + 1) k) : ∃ x, ComesFrom before after d k x := by
  obtain ⟨hlow, hhigh, hparity⟩ := h
  have habove : k ≤ d → OnRound d (k + 1) := fun hk => ⟨by omega, by omega, by omega⟩
  have hbelow : -(d : Int) ≤ k → OnRound d (k - 1) := fun hk => ⟨by omega, by omega, by omega⟩
  cases hdown : goDown (frontierAt before after (d + 1)) ((d + 1 : Nat) : Int) k with
  | true =>
    have hcases : k = -((d + 1 : Nat) : Int) ∨ (k ≠ ((d + 1 : Nat) : Int) ∧
        frontierAt before after (d + 1) (k - 1) < frontierAt before after (d + 1) (k + 1)) := by
      simpa [goDown] using hdown
    have hon : OnRound d (k + 1) := habove (by omega)
    refine ⟨reach before after d (k + 1), ?_, .inl ⟨hdown, hon, rfl⟩, fun _ => Int.le_refl _, fun hon' => ?_⟩
    · unfold reach furthest
      rw [hdown, frontierAt_succ hon]
      rfl
    have hlow' := hon'.low
    have hlt := (hcases.resolve_left (by omega)).2
    rw [frontierAt_succ hon, frontierAt_succ hon'] at hlt
    omega
  | false =>
    have hcases : k ≠ -((d + 1 : Nat) : Int) ∧ (k ≠ ((d + 1 : Nat) : Int) →
        frontierAt before after (d + 1) (k + 1) ≤ frontierAt before after (d + 1) (k - 1)) := by
      simpa [goDown] using hdown
    have hon : OnRound d (k - 1) := hbelow (by omega)
    refine ⟨reach before after d (k - 1) + 1, ?_, .inr ⟨hdown, hon, rfl⟩, fun hon' => ?_, fun _ => Int.le_refl _⟩
    · unfold reach furthest
      rw [hdown, frontierAt_succ hon]
      rfl
    have hhigh' := hon'.high
    have hle := hcases.2 (by omega)
    rw [frontierAt_succ hon, frontierAt_succ hon'] at hle
    omega

/-! ## How far the paths lead -/

theorem agreeing_spec (as bs : List α) : agreeing as bs ≤ as.length ∧ agreeing as bs ≤ bs.length ∧
    as.take (agreeing as bs) = bs.take (agreeing as bs) ∧
    ∀ a, as[agreeing as bs]? = some a → bs[agreeing as bs]? ≠ some a := by
  induction as generalizing bs with
  | nil => simp [agreeing]
  | cons a as ih =>
    cases bs with
    | nil => simp [agreeing]
    | cons b bs =>
      obtain ⟨has, hbs, htake, hstops⟩ := ih bs
      unfold agreeing
      split
      · next hab =>
        refine ⟨Nat.succ_le_succ has, Nat.succ_le_succ hbs, ?_, by simpa using hstops⟩
        rw [take_succ_cons, take_succ_cons, htake, hab]
      · next hab => simpa [eq_comm] using hab

theorem le_slide (before after : List α) (x y : Int) : x ≤ slide before after x y := by
  unfold slide
  omega

variable {x : Int}

theorem slide_inside (before after : List α) {y : Int} (hx : 0 ≤ x) (hy : 0 ≤ y) : slide before after x y = x ∨
    slide before after x y ≤ before.length ∧ slide before after x y - x + y ≤ after.length := by
  obtain ⟨hbefore, hafter, -⟩ := agreeing_spec (before.drop x.toNat) (after.drop y.toNat)
  rw [length_drop] at hbefore hafter
  unfold slide
  omega

theorem reach_zero (before after : List α) : reach before after 0 0 = slide before after 0 0 := rfl

theorem onRound_zero (h : OnRound 0 k) : k = 0 := by
  obtain ⟨hlow, hhigh, -⟩ := h
  omega

theorem reach_bounds (before after : List α) (h : OnRound d k) :
    0 ≤ reach before after d k ∧ 0 ≤ reach before after d k - k := by
  induction d generalizing k with
  | zero =>
    obtain rfl := onRound_zero h
    have hle := le_slide before after 0 0
    rw [reach_zero]
    omega
  | succ d ih =>
    obtain ⟨x, hslid, hcame, -, -⟩ := comesFrom before after h
    have hle := le_slide before after x (x - k)
    rcases hcame with ⟨-, hon, hx⟩ | ⟨-, hon, hx⟩ <;>
    · have hbounds := ih hon
      omega

section

variable (h : ComesFrom before after d k x)
include h

theorem ComesFrom.nonneg : 0 ≤ x ∧ 0 ≤ x - k := by
  rcases h.came with ⟨-, hon, hx⟩ | ⟨-, hon, hx⟩ <;>
  · have hbounds := reach_bounds before after hon
    omega

theorem ComesFrom.inside : reach before after (d + 1) k = x ∨
    reach before after (d + 1) k ≤ before.length ∧ reach before after (d + 1) k - k ≤ after.length := by
  rcases slide_inside before after h.nonneg.1 h.nonneg.2 with hstay | ⟨hbefore, hafter⟩
  · exact .inl (h.slid.trans hstay)
  · rw [← h.slid] at hbefore hafter
    exact .inr ⟨hbefore, by omega⟩

theorem le_reach : x ≤ reach before after (d + 1) k := by
  rw [h.slid]
  exact le_slide before after x (x - k)

end

/-- A path of `d` edits leads to `(x, y)` or beyond it on its diagonal. -/
def Reached (before after : List α) (d x y : Nat) : Prop :=
  OnRound d ((x : Int) - y) ∧ x ≤ reach before after d ((x : Int) - y)

namespace Reached

variable {x y : Nat}

theorem down (h : Reached before after d x y) : Reached before after (d + 1) x (y + 1) := by
  unfold Reached at h
  rw [show (x : Int) - y = (x : Int) - (y + 1 : Nat) + 1 by omega] at h
  obtain ⟨⟨hlow, hhigh, hparity⟩, hle⟩ := h
  have hround : OnRound (d + 1) ((x : Int) - (y + 1 : Nat)) := ⟨by omega, by omega, by omega⟩
  obtain ⟨x₀, hx₀⟩ := comesFrom before after hround
  exact ⟨hround, Int.le_trans hle (Int.le_trans (hx₀.down ⟨hlow, hhigh, hparity⟩) (le_reach hx₀))⟩

theorem right (h : Reached before after d x y) : Reached before after (d + 1) (x + 1) y := by
  unfold Reached at h
  rw [show (x : Int) - y = (x + 1 : Nat) - (y : Int) - 1 by omega] at h
  obtain ⟨⟨hlow, hhigh, hparity⟩, hle⟩ := h
  have hround : OnRound (d + 1) ((x + 1 : Nat) - (y : Int)) := ⟨by omega, by omega, by omega⟩
  obtain ⟨x₀, hx₀⟩ := comesFrom before after hround
  exact ⟨hround, Int.le_trans (Int.add_le_add_right hle 1) (Int.le_trans (hx₀.right ⟨hlow, hhigh, hparity⟩) (le_reach hx₀))⟩

theorem of_reach (h : OnRound d k) (hx : reach before after d k = x) (hy : (x : Int) - k = y) :
    Reached before after d x y := by
  obtain rfl : k = x - y := by omega
  exact ⟨h, Int.le_of_eq hx.symm⟩

/-- Each step of a path outside the grid is an edit that leads no nearer to the end. -/
theorem inside (h : OnRound d k) (hx : reach before after d k = x) (hy : (x : Int) - k = y) :
    ∃ e, e + (x - before.length) + (y - after.length) = d ∧
      Reached before after e (min x before.length) (min y after.length) := by
  induction d generalizing k x y with
  | zero =>
    have hreached := of_reach h hx hy
    obtain rfl := onRound_zero h
    have hslide := slide_inside before after (Int.le_refl 0) (Int.le_refl 0)
    rw [reach_zero] at hx
    refine ⟨0, by omega, ?_⟩
    rwa [Nat.min_eq_left (by omega), Nat.min_eq_left (by omega)]
  | succ d ih =>
    obtain ⟨x₀, hx₀⟩ := comesFrom before after h
    rcases hx₀.inside with heq | hinside
    · rcases hx₀.came with ⟨-, hon, hcame⟩ | ⟨-, hon, hcame⟩
      · have hbounds := reach_bounds before after hon
        obtain ⟨y, rfl⟩ : ∃ y', y = y' + 1 := ⟨y - 1, by omega⟩
        obtain ⟨e, he, hin⟩ := ih hon (x := x) (y := y) (by omega) (by omega)
        by_cases hlt : y < after.length
        · refine ⟨e + 1, by omega, ?_⟩
          rw [show min (y + 1) after.length = min y after.length + 1 by omega]
          exact hin.down
        · exact ⟨e, by omega, by rwa [show min (y + 1) after.length = min y after.length by omega]⟩
      · have hbounds := reach_bounds before after hon
        obtain ⟨x, rfl⟩ : ∃ x', x = x' + 1 := ⟨x - 1, by omega⟩
        obtain ⟨e, he, hin⟩ := ih hon (x := x) (y := y) (by omega) (by omega)
        by_cases hlt : x < before.length
        · refine ⟨e + 1, by omega, ?_⟩
          rw [show min (x + 1) before.length = min x before.length + 1 by omega]
          exact hin.right
        · exact ⟨e, by omega, by rwa [show min (x + 1) before.length = min x before.length by omega]⟩
    · refine ⟨d + 1, by omega, ?_⟩
      rw [Nat.min_eq_left (by omega), Nat.min_eq_left (by omega)]
      exact of_reach h hx hy

end Reached

theorem done_of_reach (h : OnRound d k) (hx : before.length ≤ reach before after d k)
    (hy : after.length ≤ reach before after d k - k) : Done before after d := ⟨k, h, hx, hy⟩

/-- The first path to get to the end of both lists gets there exactly. -/
theorem reach_end (h : OnRound d k) (hend : AtEnd before after (reach before after d k) k)
    (hfirst : ∀ e < d, ¬ Done before after e) :
    reach before after d k = before.length ∧ k = (before.length : Int) - after.length := by
  obtain ⟨hbefore, hafter⟩ := hend
  obtain ⟨x, hx⟩ := Int.eq_ofNat_of_zero_le (reach_bounds before after h).1
  obtain ⟨y, hy⟩ := Int.eq_ofNat_of_zero_le (reach_bounds before after h).2
  obtain ⟨e, he, hreached⟩ := Reached.inside h hx (hx ▸ hy)
  rw [Nat.min_eq_right (by omega), Nat.min_eq_right (by omega)] at hreached
  have hdone : Done before after e := done_of_reach hreached.1 hreached.2 (by have := hreached.2; omega)
  have hle : ¬ e < d := fun hlt => hfirst e hlt hdone
  omega

/-! ## How few edits there can be -/

namespace Reached

variable {x y : Nat}

theorem diagonal (h : Reached before after d x y) {a : α} (hx : before[x]? = some a) (hy : after[y]? = some a) :
    Reached before after d (x + 1) (y + 1) := by
  obtain ⟨hon, hle⟩ := h
  obtain ⟨x₀, hslid, hnonneg⟩ : ∃ x₀, reach before after d (x - y) = slide before after x₀ (x₀ - (x - y)) ∧
      0 ≤ x₀ ∧ 0 ≤ x₀ - (x - y) := by
    cases d with
    | zero => exact ⟨0, by rw [onRound_zero hon]; rfl, by have := onRound_zero hon; omega⟩
    | succ d =>
      obtain ⟨x₀, hx₀⟩ := comesFrom before after hon
      exact ⟨x₀, hx₀.slid, hx₀.nonneg⟩
  have hne : reach before after d (x - y) ≠ x := by
    -- a path that ended at `(x, y)` would have gone on
    intro heq
    obtain ⟨-, -, -, hstops⟩ := agreeing_spec (before.drop x₀.toNat) (after.drop (x₀ - (x - y)).toNat)
    rw [heq, slide] at hslid
    simp only [getElem?_drop] at hstops
    exact hstops a (by convert hx using 2; omega) (by convert hy using 2; omega)
  unfold Reached
  rw [show ((x + 1 : Nat) : Int) - (y + 1 : Nat) = x - y by omega]
  exact ⟨hon, by omega⟩

/-- Elements in common save two edits each. -/
theorem end_of_common {p q as bs common : List α} (h : Reached before after d p.length q.length)
    (hbefore : p ++ as = before) (hafter : q ++ bs = after) (has : common.Sublist as) (hbs : common.Sublist bs)
    {e : Nat} (he : e + 2 * common.length = d + as.length + bs.length) :
    Reached before after e before.length after.length := by
  induction hn : as.length + bs.length using Nat.strongRecOn generalizing p q as bs common d with
  | ind n ih =>
    subst hn
    have hdown : ∀ b bs', bs = b :: bs' → common.Sublist bs' → Reached before after e before.length after.length := by
      rintro b bs rfl hbs
      refine ih _ (by simp) (q := q ++ [b]) (by simpa using h.down) hbefore (by simpa using hafter) has hbs ?_ rfl
      rw [he, length_cons]
      omega
    cases has with
    | slnil =>
      cases hbs with
      | slnil =>
        obtain rfl : e = d := by simpa using he
        simpa [← hbefore, ← hafter] using h
      | cons b hbs => exact hdown b _ rfl hbs
    | cons a has =>
      refine ih _ (by simp) (p := p ++ [a]) (by simpa using h.right) (by simpa using hbefore) hafter has hbs ?_ rfl
      rw [he, length_cons]
      omega
    | cons_cons a has =>
      cases hbs with
      | cons b hbs => exact hdown b _ rfl hbs
      | cons_cons _ hbs =>
        have hboth := h.diagonal (a := a) (by simp [← hbefore]) (by simp [← hafter])
        refine ih _ ?_ (p := p ++ [a]) (q := q ++ [a]) (by simpa using hboth) (by simpa using hbefore)
          (by simpa using hafter) has hbs ?_ rfl
        · simp only [length_cons]
          omega
        · simp only [length_cons] at he
          omega

end Reached

theorem done_of_common {common : List α} (hbefore : common.Sublist before) (hafter : common.Sublist after) :
    Done before after (before.length + after.length - 2 * common.length) := by
  have hstart : Reached before after 0 0 0 := ⟨⟨by omega, by omega, by omega⟩, le_slide before after 0 0⟩
  have hshort := hbefore.length_le
  have hshort' := hafter.length_le
  obtain ⟨hround, hle⟩ := hstart.end_of_common (p := []) (q := []) rfl rfl hbefore hafter
    (e := before.length + after.length - 2 * common.length) (by omega)
  exact done_of_reach hround hle (by omega)

/-! ## The runs of the path -/

/-- Runs of equal elements, one behind the other, between two points of the grid. -/
inductive Chain {α : Type} (before after : List α) : Nat → Nat → List CommonRun → Nat → Nat → Prop
  | nil {x y x' y' : Nat} (hx : x ≤ x') (hy : y ≤ y') : Chain before after x y [] x' y'
  | cons {x y x' y' : Nat} {run : CommonRun} {runs : List CommonRun} (hx : x ≤ run.before) (hy : y ≤ run.after)
      (hpos : 0 < run.length)
      (heq : (before.drop run.before).take run.length = (after.drop run.after).take run.length)
      (rest : Chain before after (run.before + run.length) (run.after + run.length) runs x' y') :
      Chain before after x y (run :: runs) x' y'

def total (runs : List CommonRun) : Nat := (runs.map (·.length)).sum

namespace Chain

omit [DecidableEq α]

variable {x y x' y' : Nat} {runs : List CommonRun}

theorem le (h : Chain before after x y runs x' y') : x ≤ x' ∧ y ≤ y' := by
  induction h with
  | nil hx hy => exact ⟨hx, hy⟩
  | cons hx hy _ _ _ ih => omega

theorem append (h : Chain before after x y runs x' y') {runs' : List CommonRun} {x'' y'' : Nat}
    (h' : Chain before after x' y' runs' x'' y'') : Chain before after x y (runs ++ runs') x'' y'' := by
  induction h with
  | nil hx hy =>
    cases h' with
    | nil hx' hy' => exact .nil (Nat.le_trans hx hx') (Nat.le_trans hy hy')
    | cons hx' hy' hpos heq rest => exact .cons (Nat.le_trans hx hx') (Nat.le_trans hy hy') hpos heq rest
  | cons hx hy hpos heq _ ih => exact .cons hx hy hpos heq (ih h')

theorem common (h : Chain before after x y runs before.length after.length) : ∃ common : List α,
    common.Sublist (before.drop x) ∧ common.Sublist (after.drop y) ∧ common.length = total runs := by
  generalize hx' : before.length = x', hy' : after.length = y' at h
  induction h with
  | nil => exact ⟨[], nil_sublist _, nil_sublist _, rfl⟩
  | @cons x y _ _ run runs hx hy _ heq rest ih =>
    obtain ⟨common, hbefore, hafter, hlength⟩ := ih hx' hy'
    have hle := rest.le.1
    rw [← drop_drop] at hbefore hafter
    refine ⟨(before.drop run.before).take run.length ++ common, ?_, ?_, ?_⟩
    · have := (Sublist.refl ((before.drop run.before).take run.length)).append hbefore
      rw [take_append_drop] at this
      exact this.trans (drop_sublist_drop_left _ hx)
    · have := (Sublist.refl ((after.drop run.after).take run.length)).append hafter
      rw [take_append_drop] at this
      exact heq ▸ this.trans (drop_sublist_drop_left _ hy)
    · simp [total] at hlength ⊢
      omega

end Chain

theorem traceAt_length (before after : List α) (d : Nat) : (traceAt before after d).length = d := by
  induction d with
  | zero => rfl
  | succ d ih => simp [traceAt, ih]

theorem slide_eq (before after : List α) (x y : Int) : ((before.drop x.toNat).take (slide before after x y - x).toNat) =
    (after.drop y.toNat).take (slide before after x y - x).toNat := by
  have hlength : (slide before after x y - x).toNat = agreeing (before.drop x.toNat) (after.drop y.toNat) := by
    unfold slide
    omega
  rw [hlength]
  exact (agreeing_spec _ _).2.2.1

theorem backtrack_succ {x y : Nat} {x₀ : Int} (h : ComesFrom before after d ((x : Int) - y) x₀)
    (hreach : reach before after (d + 1) ((x : Int) - y) = x) :
    ∃ px py : Nat, OnRound d ((px : Int) - py) ∧ reach before after d ((px : Int) - py) = px ∧
      px ≤ x₀ ∧ py ≤ x₀ - ((x : Int) - y) ∧ (px : Int) + py + 1 = x₀ + (x₀ - ((x : Int) - y)) ∧
      backtrack (traceAt before after (d + 1 + 1)) x y = backtrack (traceAt before after (d + 1)) px py ++
        if 0 < (x - x₀).toNat then [⟨x₀.toNat, (x₀ - ((x : Int) - y)).toNat, (x - x₀).toNat⟩] else [] := by
  have hle := le_reach h
  have hunfold : backtrack (traceAt before after (d + 1 + 1)) x y =
      let previousK := if goDown (frontierAt before after (d + 1)) ((d + 1 : Nat) : Int) ((x : Int) - y) then
        (x : Int) - y + 1 else (x : Int) - y - 1
      let previousX := frontierAt before after (d + 1) previousK
      let previousY := previousX - previousK
      let length := (min ((x : Int) - previousX) ((y : Int) - previousY)).toNat
      backtrack (traceAt before after (d + 1)) previousX previousY ++
        if 0 < length then [⟨((x : Int) - length).toNat, ((y : Int) - length).toNat, length⟩] else [] := by
    have hlength := traceAt_length before after (d + 1)
    simp only [traceAt, length_cons] at hlength ⊢
    rw [backtrack]
    · simp only [length_cons, hlength]
    · simp
  obtain ⟨k, hk, hon, hcame⟩ : ∃ k, (if goDown (frontierAt before after (d + 1)) ((d + 1 : Nat) : Int) ((x : Int) - y) then
      (x : Int) - y + 1 else (x : Int) - y - 1) = k ∧ OnRound d k ∧
      (k = (x : Int) - y + 1 ∧ x₀ = reach before after d k ∨ k = (x : Int) - y - 1 ∧ x₀ = reach before after d k + 1) := by
    rcases h.came with ⟨hdown, hon, hcame⟩ | ⟨hdown, hon, hcame⟩
    · exact ⟨_, if_pos hdown, hon, .inl ⟨rfl, hcame⟩⟩
    · exact ⟨_, if_neg (Bool.eq_false_iff.mp hdown), hon, .inr ⟨rfl, hcame⟩⟩
  have hbounds := reach_bounds before after hon
  obtain ⟨px, hpx⟩ := Int.eq_ofNat_of_zero_le hbounds.1
  obtain ⟨py, hpy⟩ := Int.eq_ofNat_of_zero_le hbounds.2
  have hdiagonal : (px : Int) - py = k := by omega
  refine ⟨px, py, hdiagonal ▸ hon, hdiagonal ▸ hpx, by omega, by omega, by omega, ?_⟩
  rw [hunfold]
  simp only [hk, frontierAt_succ hon, hpx]
  rw [show (px : Int) - k = py by omega, show min ((x : Int) - px) ((y : Int) - py) = x - x₀ by omega,
    show ((x : Int) - ((x : Int) - x₀).toNat).toNat = x₀.toNat by omega,
    show ((y : Int) - ((x : Int) - x₀).toNat).toNat = (x₀ - ((x : Int) - y)).toNat by omega]

theorem backtrack_chain {x y : Nat} (hon : OnRound d ((x : Int) - y)) (hreach : reach before after d ((x : Int) - y) = x) :
    Chain before after 0 0 (backtrack (traceAt before after (d + 1)) x y) x y ∧
      d + 2 * total (backtrack (traceAt before after (d + 1)) x y) = x + y := by
  induction d generalizing x y with
  | zero =>
    have hk := onRound_zero hon
    obtain rfl : x = y := by omega
    have hslide := slide_eq before after 0 0
    rw [← reach_zero] at hslide
    rw [hk] at hreach
    rw [show backtrack (traceAt before after (0 + 1)) x x = if (0 : Int) < x then [⟨0, 0, (x : Int).toNat⟩] else [] from rfl]
    split
    · next hpos =>
      refine ⟨.cons (Nat.le_refl 0) (Nat.le_refl 0) (by simpa using hpos) ?_ (.nil (by simp) (by simp)), ?_⟩
      · simpa [hreach] using hslide
      · simp [total, Nat.two_mul]
    · exact ⟨.nil (Nat.zero_le x) (Nat.zero_le x), by simp [total]; omega⟩
  | succ d ih =>
    obtain ⟨x₀, hx₀⟩ := comesFrom before after hon
    have hle := le_reach hx₀
    have hslide := slide_eq before after x₀ (x₀ - ((x : Int) - y))
    rw [← hx₀.slid, hreach] at hslide
    obtain ⟨px, py, hon', hreach', hpx, hpy, hedit, heq⟩ := backtrack_succ hx₀ hreach
    obtain ⟨hchain, htotal⟩ := ih hon' hreach'
    rw [heq]
    refine ⟨hchain.append ?_, ?_⟩
    · split
      · next hpos =>
        exact .cons (by simp only; omega) (by simp only; omega) hpos hslide
          (.nil (by simp only; omega) (by simp only; omega))
      · exact .nil (by omega) (by omega)
    unfold total at htotal ⊢
    rw [map_append, sum_append]
    split
    · simp only [map_cons, map_nil, sum_singleton]
      omega
    · simp only [map_nil, sum_nil]
      omega

theorem commonRuns_found (before after : List α) : ∃ runs, commonRuns before after = some runs ∧
    Chain before after 0 0 runs before.length after.length ∧
    ∀ common : List α, common.Sublist before → common.Sublist after → common.length ≤ total runs := by
  by_cases hmax : before.length + after.length = 0
  · exact ⟨[], if_pos hmax, .nil (Nat.zero_le _) (Nat.zero_le _), fun common hbefore _ => by
      have := hbefore.length_le
      omega⟩
  classical
  have hdone : Done before after (before.length + after.length) :=
    done_of_common (nil_sublist before) (nil_sublist after)
  have hexists : ∃ d, Done before after d := ⟨_, hdone⟩
  obtain ⟨k, hon, hend⟩ := Nat.find_spec hexists
  have hfirst : ∀ e < Nat.find hexists, ¬ Done before after e := fun e he => Nat.find_min hexists he
  obtain ⟨hreach, hk⟩ := reach_end hon hend hfirst
  have hsearch := search_eq (before.length + after.length + 1) 0 (Nat.find_spec hexists)
    (fun e _ he => hfirst e he) (Nat.zero_le _) (by have := Nat.find_min' hexists hdone; omega)
  refine ⟨backtrack (traceAt before after (Nat.find hexists + 1)) before.length after.length, ?_, ?_⟩
  · unfold commonRuns
    simp only [if_neg hmax]
    rw [show (fun _ : Int => (0 : Int)) = frontierAt before after 0 from rfl,
      show ([] : List Frontier) = traceAt before after 0 from rfl, hsearch]
    rfl
  rw [hk] at hon hreach
  obtain ⟨hchain, htotal⟩ := backtrack_chain hon hreach
  refine ⟨hchain, fun common hbefore hafter => ?_⟩
  have hmin := Nat.find_min' hexists (done_of_common hbefore hafter)
  have hshort := hbefore.length_le
  have hshort' := hafter.length_le
  omega

end TddyCoder.Diff
