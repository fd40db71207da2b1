/-
  TddyCoder.Restructure.LineDiff — the edits that are reported for a file that changed
  (`packages/tddy-code-restructuring/src/backends/rust/line_diff.rs`, `minimal_edits` of
  `seam_survey.rs`).

  Each region in which the lines differ becomes one edit of whole lines. The lines of a text are
  separated by line breaks, the lines of an edit are each ended by one: a region that reaches
  the end of the text has no line behind it, and its last line break is one too many.

  Proved: `changedRegions_shortest`; the edits give the new text just where `ends_alike_iff`
  says, else `a_line_break_too_many`.
-/

import TddyCoder.Diff.Myers
import TddyCoder.Restructure.Apply
import Mathlib.Data.List.Induction
import Mathlib.Order.Bounds.Defs

namespace TddyCoder.Restructure.LineDiff

open Text Diff List

structure ChangedRegion (α : Type) where
  start : Nat
  stop : Nat
  lines : List α

section regions

variable {α : Type} [DecidableEq α]

/-- How far the two versions are worked through, and the regions so far. -/
structure Scan (α : Type) where
  start : Nat
  cursor : Nat
  regions : List (ChangedRegion α)

def Scan.run (after : List α) (scan : Scan α) (run : CommonRun) : Scan α where
  start := run.before + run.length
  cursor := run.after + run.length
  regions :=
    if scan.start < run.before ∨ scan.cursor < run.after then
      scan.regions ++ [⟨scan.start, run.before, (after.drop scan.cursor).take (run.after - scan.cursor)⟩]
    else scan.regions

def Scan.finish (before after : List α) (scan : Scan α) : List (ChangedRegion α) :=
  if scan.start < before.length ∨ scan.cursor < after.length then
    scan.regions ++ [⟨scan.start, before.length, after.drop scan.cursor⟩]
  else scan.regions

def scanRuns (before after : List α) : Option (Scan α) :=
  (commonRuns before after).map fun runs => runs.foldl (Scan.run after) ⟨0, 0, []⟩

def changedRegions (before after : List α) : Option (List (ChangedRegion α)) :=
  (scanRuns before after).map (Scan.finish before after)

end regions

abbrev Line := List Char

def linesOf (text : List Char) : List Line := text.splitOn '\n'

structure Trim where
  start : Nat
  stop : Nat

def trim (before after : List Line) : Trim :=
  let start := agreeing before after
  ⟨start, agreeing (before.drop start).reverse (after.drop start).reverse⟩

def Trim.middle (t : Trim) (lines : List Line) : List Line := (lines.drop t.start).take (lines.length - t.stop - t.start)

def joined (lines : List Line) : List Char := ['\n'].intercalate lines

def newText (lines : List Line) : List Char := if lines.isEmpty then [] else joined lines ++ ['\n']

def regionEdit (start : Nat) (region : ChangedRegion Line) : TextEdit where
  range := ⟨⟨start + region.start + 1, 1⟩, ⟨start + region.stop + 1, 1⟩⟩
  newText := newText region.lines

def minimalEdits (previous current : List Char) : Option (List TextEdit) :=
  let before := linesOf previous
  let after := linesOf current
  let t := trim before after
  (changedRegions (t.middle before) (t.middle after)).map fun regions => regions.map (regionEdit t.start)

/-! ## Replacing regions of lines -/

section splicing

variable {α : Type}

def splice (ls : List α) : Nat → List (ChangedRegion α) → List α
  | i, [] => ls.drop i
  | i, r :: rs => (ls.drop i).take (r.start - i) ++ r.lines ++ splice ls r.stop rs

/-- In order, with a line between any two. -/
def Ordered : Nat → List (ChangedRegion α) → Prop
  | _, [] => True
  | low, r :: rs => low ≤ r.start ∧ r.start ≤ r.stop ∧ Ordered (r.stop + 1) rs

variable {ls ls' : List α} {rs : List (ChangedRegion α)} {i low : Nat}

theorem Ordered.mono {low' : Nat} (h : Ordered low rs) (hle : low' ≤ low) : Ordered low' rs := by
  cases rs with
  | nil => trivial
  | cons r rs => exact ⟨Nat.le_trans hle h.1, h.2⟩

theorem Ordered.start_le (h : Ordered low rs) : ∀ r ∈ rs, low ≤ r.start ∧ r.start ≤ r.stop := by
  induction rs generalizing low with
  | nil => simp
  | cons r rs ih =>
    obtain ⟨hlow, hle, hrest⟩ := h
    refine forall_mem_cons.mpr ⟨⟨hlow, hle⟩, fun r' hr' => ?_⟩
    obtain ⟨hlow', hle'⟩ := ih hrest r' hr'
    exact ⟨by omega, hle'⟩

variable {r : ChangedRegion α} {l : α}

section

variable (h : Ordered low rs)
include h

theorem Ordered.append_last (hlow : low ≤ r.start) (hle : r.start ≤ r.stop)
    (hbefore : ∀ r' ∈ rs, r'.stop < r.start) : Ordered low (rs ++ [r]) := by
  induction rs generalizing low with
  | nil => exact ⟨hlow, hle, trivial⟩
  | cons r' rs ih =>
    obtain ⟨hr', hrest⟩ := forall_mem_cons.mp hbefore
    exact ⟨h.1, h.2.1, ih h.2.2 hr' hrest⟩

theorem splice_skip (hi : i ≤ low) : splice ls i rs = (ls.drop i).take (low - i) ++ splice ls low rs := by
  have hdrop : ls.drop i = (ls.drop i).take (low - i) ++ ls.drop low := by
    conv_lhs => rw [← take_append_drop (low - i) (ls.drop i)]
    rw [drop_drop, Nat.add_sub_cancel' hi]
  cases rs with
  | nil => exact hdrop
  | cons r rs =>
    have hlow := h.1
    have htake : (ls.drop i).take (r.start - i) = (ls.drop i).take (low - i) ++ (ls.drop low).take (r.start - low) := by
      rw [show r.start - i = (low - i) + (r.start - low) by omega, take_add, drop_drop,
        Nat.add_sub_cancel' hi]
    simp only [splice, htake, append_assoc]

theorem splice_behind (hstop : ∀ r ∈ rs, r.stop ≤ ls.length) (hi : i ≤ ls.length) :
    splice (ls ++ ls') i rs = splice ls i rs ++ ls' := by
  induction rs generalizing i low with
  | nil => exact drop_append_of_le_length hi
  | cons r rs ih =>
    obtain ⟨hr, hrest⟩ := forall_mem_cons.mp hstop
    have hle := h.2.1
    have htake : ((ls ++ ls').drop i).take (r.start - i) = (ls.drop i).take (r.start - i) := by
      rw [drop_append_of_le_length hi, take_append_of_le_length (by rw [length_drop]; omega)]
    simp only [splice, htake, ih h.2.2 hrest hr, append_assoc]

theorem splice_last (hbefore : ∀ r' ∈ rs, r'.stop ≤ r.start) (hi : i ≤ r.start) :
    splice ls i (rs ++ [r]) = splice (ls.take r.start) i rs ++ r.lines ++ ls.drop r.stop := by
  induction rs generalizing i low with
  | nil => simp only [nil_append, splice, drop_take]
  | cons r' rs ih =>
    obtain ⟨hr', hrest⟩ := forall_mem_cons.mp hbefore
    have hle := h.2.1
    have htake : ((ls.take r.start).drop i).take (r'.start - i) = (ls.drop i).take (r'.start - i) := by
      rw [drop_take, take_take]
      congr 1
      omega
    simp only [cons_append, splice, htake, ih h.2.2 hrest hr', append_assoc]

end

def lowered (n : Nat) (r : ChangedRegion α) : ChangedRegion α := ⟨n + r.start, n + r.stop, r.lines⟩

theorem Ordered.lowered (h : Ordered low rs) (n : Nat) : Ordered (n + low) (rs.map (lowered n)) := by
  induction rs generalizing low with
  | nil => trivial
  | cons r rs ih =>
    refine ⟨?_, ?_, ?_⟩
    · exact Nat.add_le_add_left h.1 n
    · exact Nat.add_le_add_left h.2.1 n
    · exact ih h.2.2

theorem splice_behind_start (n i : Nat) : splice ls (n + i) (rs.map (lowered n)) = splice (ls.drop n) i rs := by
  induction rs generalizing i with
  | nil => exact drop_drop.symm
  | cons r rs ih => simp only [map_cons, splice, lowered, drop_drop, Nat.add_sub_add_left, ih]

theorem splice_lowered (h : Ordered 0 rs) (n : Nat) :
    splice ls 0 (rs.map (lowered n)) = ls.take n ++ splice (ls.drop n) 0 rs := by
  rw [splice_skip (h.lowered n) (Nat.zero_le _), splice_behind_start]
  rfl

theorem mem_splice (h : l ∈ splice ls i rs) : l ∈ ls ∨ ∃ r ∈ rs, l ∈ r.lines := by
  induction rs generalizing i with
  | nil => exact .inl (mem_of_mem_drop h)
  | cons r rs ih =>
    simp only [splice, mem_append] at h
    rcases h with (h | h) | h
    · exact .inl (mem_of_mem_drop (mem_of_mem_take h))
    · exact .inr ⟨r, mem_cons_self, h⟩
    · rcases ih h with h | ⟨r', hr', h⟩
      · exact .inl h
      · exact .inr ⟨r', mem_cons_of_mem r hr', h⟩

theorem mem_splice_of_mem (hr : r ∈ rs) (hl : l ∈ r.lines) : l ∈ splice ls i rs := by
  induction rs generalizing i with
  | nil => simp at hr
  | cons r' rs ih =>
    simp only [splice, mem_append]
    rcases mem_cons.mp hr with rfl | hr
    · exact .inl (.inr hl)
    · exact .inr (ih hr)

def added (rs : List (ChangedRegion α)) (i : Nat) : Nat := ((rs.filter (·.stop ≤ i)).map (·.lines.length)).sum

def removed (rs : List (ChangedRegion α)) (i : Nat) : Nat := ((rs.filter (·.stop ≤ i)).map fun r => r.stop - r.start).sum

theorem Ordered.none_above (h : Ordered low rs) {j : Nat} (hj : j < low) : rs.filter (·.stop ≤ j) = [] := by
  rw [filter_eq_nil_iff]
  intro r hr
  obtain ⟨hlow, hle⟩ := h.start_le r hr
  simp only [decide_eq_true_eq]
  omega

theorem Ordered.removed_le (h : Ordered low rs) (line : Nat) : removed rs line ≤ line - low := by
  induction rs generalizing low with
  | nil => exact Nat.zero_le _
  | cons r rs ih =>
    obtain ⟨hlow, hstop, hrest⟩ := h
    by_cases hbehind : r.stop ≤ line
    · have hremoved : removed (r :: rs) line = (r.stop - r.start) + removed rs line := by simp [removed, hbehind]
      have hle := ih hrest
      omega
    · have hnone : removed (r :: rs) line = removed rs line := by simp [removed, hbehind]
      rw [hnone, removed, hrest.none_above (by omega)]
      exact Nat.zero_le _

/-- A line in no region is found again where the regions above it have moved it. -/
theorem splice_getElem? (h : Ordered i rs) {line j : Nat} (hle : i ≤ line)
    (hout : ∀ r ∈ rs, ¬ (r.start ≤ line ∧ line < r.stop)) (hline : line < ls.length)
    (hj : line + added rs line = j + removed rs line + i) : (splice ls i rs)[j]? = ls[line]? := by
  induction rs generalizing i j with
  | nil =>
    simp only [added, removed, filter_nil, map_nil, sum_nil] at hj
    simp only [splice, getElem?_drop]
    congr 1
    omega
  | cons r rs ih =>
    obtain ⟨hlow, hstop, hrest⟩ := h
    obtain ⟨hr, hout'⟩ := forall_mem_cons.mp hout
    have hkept : ((ls.drop i).take (r.start - i)).length = min (r.start - i) (ls.length - i) := by simp
    by_cases habove : line < r.start
    · have hordered : Ordered r.start (r :: rs) := ⟨Nat.le_refl _, hstop, hrest⟩
      rw [added, removed, hordered.none_above habove] at hj
      simp only [map_nil, sum_nil] at hj
      rw [splice, append_assoc, getElem?_append_left (by omega), getElem?_take_of_lt (by omega),
        getElem?_drop]
      congr 1
      omega
    · have hbehind : r.stop ≤ line := by omega
      have hadded : added (r :: rs) line = r.lines.length + added rs line := by simp [added, hbehind]
      have hremoved : removed (r :: rs) line = (r.stop - r.start) + removed rs line := by simp [removed, hbehind]
      have hfew := hrest.removed_le line
      have hlength : ((ls.drop i).take (r.start - i) ++ r.lines).length = r.start - i + r.lines.length := by
        rw [length_append, hkept]
        omega
      rw [splice, getElem?_append_right (by omega), hlength]
      exact ih (hrest.mono (Nat.le_succ _)) hbehind hout' (by omega)

end splicing

/-! ## The regions turn the one version into the other -/

variable {n : Nat}

section patching

variable {α : Type} {before after : List α}

/-- The regions so far turn the first `start` lines of the one version into the first `cursor` of the other. -/
structure Patched (before after : List α) (scan : Scan α) : Prop where
  start_le : scan.start ≤ before.length
  cursor_le : scan.cursor ≤ after.length
  ordered : Ordered 0 scan.regions
  behind : ∀ r ∈ scan.regions, r.stop < scan.start
  spliced : splice (before.take scan.start) 0 scan.regions = after.take scan.cursor

theorem Patched.init (before after : List α) : Patched before after ⟨0, 0, []⟩ :=
  ⟨Nat.zero_le _, Nat.zero_le _, trivial, by simp, by simp [splice]⟩

variable {scan : Scan α}

section

variable (h : Patched before after scan)
include h

theorem Patched.splice_take (hn : scan.start ≤ n) :
    splice (before.take n) 0 scan.regions = after.take scan.cursor ++ (before.take n).drop scan.start := by
  have hlength : (before.take scan.start).length = scan.start := by
    rw [length_take, Nat.min_eq_left h.start_le]
  have hsplit : before.take n = before.take scan.start ++ (before.take n).drop scan.start := by
    conv_lhs => rw [← take_append_drop scan.start (before.take n)]
    rw [take_take, Nat.min_eq_left hn]
  have hstop : ∀ r ∈ scan.regions, r.stop ≤ (before.take scan.start).length := by
    intro r hr
    have hlt := h.behind r hr
    omega
  conv_lhs => rw [hsplit]
  rw [splice_behind h.ordered hstop (Nat.zero_le _), h.spliced]

theorem Patched.push {x y : Nat} (hx : scan.start ≤ x) (hy : scan.cursor ≤ y)
    (hn : x ≤ n) :
    splice (before.take n) 0 (scan.regions ++ [⟨scan.start, x, (after.drop scan.cursor).take (y - scan.cursor)⟩]) =
      after.take y ++ (before.take n).drop x := by
  rw [splice_last h.ordered (fun r hr => Nat.le_of_lt (h.behind r hr)) (Nat.zero_le _)]
  simp only [take_take, Nat.min_eq_left (Nat.le_trans hx hn), h.spliced]
  rw [← take_add, Nat.add_sub_cancel' hy]

theorem Patched.run {run : CommonRun} (hx : scan.start ≤ run.before)
    (hy : scan.cursor ≤ run.after) (hpos : 0 < run.length) (hbefore : run.before + run.length ≤ before.length)
    (hafter : run.after + run.length ≤ after.length)
    (heq : (before.drop run.before).take run.length = (after.drop run.after).take run.length) :
    Patched before after (scan.run after run) := by
  have hkept : after.take run.after ++ (before.take (run.before + run.length)).drop run.before =
      after.take (run.after + run.length) := by
    rw [drop_take, Nat.add_sub_cancel_left, heq, ← take_add]
  have hlt : ∀ r ∈ scan.regions, r.stop < run.before + run.length := by
    intro r hr
    have := h.behind r hr
    omega
  unfold Scan.run
  split
  · refine ⟨hbefore, hafter, ?_, ?_, ?_⟩
    · exact h.ordered.append_last (Nat.zero_le _) hx h.behind
    · exact forall_mem_append.mpr ⟨hlt, forall_mem_singleton.mpr (Nat.lt_add_of_pos_right hpos)⟩
    · exact (h.push hx hy (Nat.le_add_right _ _)).trans hkept
  · next hnone =>
    have hstart : scan.start = run.before := by omega
    have hcursor : scan.cursor = run.after := by omega
    refine ⟨hbefore, hafter, h.ordered, hlt, ?_⟩
    rw [← hkept, ← hstart, ← hcursor]
    exact h.splice_take (Nat.le_add_right _ _)

end

def endOf (start : Nat × Nat) (runs : List CommonRun) : Nat × Nat :=
  runs.foldl (fun _ run => (run.before + run.length, run.after + run.length)) start

theorem Patched.runs {x y : Nat} {runs : List CommonRun} (hchain : Chain before after x y runs before.length after.length)
    (h : Patched before after scan) (hx : scan.start = x) (hy : scan.cursor = y) :
    Patched before after (runs.foldl (Scan.run after) scan) ∧
      endOf (x, y) runs =
        ((runs.foldl (Scan.run after) scan).start, (runs.foldl (Scan.run after) scan).cursor) := by
  induction runs generalizing x y scan with
  | nil => exact ⟨h, by simp [endOf, hx, hy]⟩
  | cons run runs ih =>
    cases hchain with
    | cons hx' hy' hpos heq hrest =>
      obtain ⟨hbefore, hafter⟩ := hrest.le
      exact ih hrest (h.run (hx ▸ hx') (hy ▸ hy') hpos hbefore hafter heq) rfl rfl

theorem Patched.finish (h : Patched before after scan) :
    Ordered 0 (scan.finish before after) ∧ (∀ r ∈ scan.finish before after, r.stop ≤ before.length) ∧
      splice before 0 (scan.finish before after) = after := by
  have hstart := h.start_le
  have hcursor := h.cursor_le
  have hstop : ∀ r ∈ scan.regions, r.stop ≤ before.length := by
    intro r hr
    have := h.behind r hr
    omega
  unfold Scan.finish
  split
  · refine ⟨h.ordered.append_last (Nat.zero_le _) hstart h.behind, ?_, ?_⟩
    · exact forall_mem_append.mpr ⟨hstop, forall_mem_singleton.mpr (Nat.le_refl _)⟩
    · have hpush := h.push hstart hcursor (Nat.le_refl before.length)
      rwa [← length_drop, take_length, take_length, take_length, drop_length,
        append_nil] at hpush
  · next hnone =>
    have htake := h.splice_take hstart
    rw [take_length, drop_of_length_le (by omega), append_nil, take_of_length_le (by omega)] at htake
    exact ⟨h.ordered, hstop, htake⟩

/-- The lines that are removed and the lines that are inserted. -/
def changes (regions : List (ChangedRegion α)) : Nat := (regions.map fun r => r.stop - r.start + r.lines.length).sum

theorem changes_append_singleton (regions : List (ChangedRegion α)) (r : ChangedRegion α) :
    changes (regions ++ [r]) = changes regions + (r.stop - r.start + r.lines.length) := by
  simp [changes]

/-- A line of one version is in a region or in a run. -/
theorem changes_run {run : CommonRun} (hx : scan.start ≤ run.before) (hy : scan.cursor ≤ run.after)
    (hafter : run.after ≤ after.length) :
    changes (scan.run after run).regions + scan.start + scan.cursor = changes scan.regions + run.before + run.after := by
  unfold Scan.run
  dsimp only
  split
  · rw [changes_append_singleton, length_take, length_drop]
    dsimp only
    omega
  · omega

theorem changes_finish (hx : scan.start ≤ before.length) (hy : scan.cursor ≤ after.length) :
    changes (scan.finish before after) + scan.start + scan.cursor =
      changes scan.regions + before.length + after.length := by
  unfold Scan.finish
  split
  · rw [changes_append_singleton, length_drop]
    dsimp only
    omega
  · omega

theorem changes_runs {x y : Nat} {runs : List CommonRun} (hchain : Chain before after x y runs before.length after.length)
    (hx : scan.start = x) (hy : scan.cursor = y) :
    changes ((runs.foldl (Scan.run after) scan).finish before after) + x + y + 2 * total runs =
      changes scan.regions + before.length + after.length := by
  induction runs generalizing x y scan with
  | nil => exact hx ▸ hy ▸ changes_finish (hx ▸ hchain.le.1) (hy ▸ hchain.le.2)
  | cons run runs ih =>
    cases hchain with
    | cons hx' hy' hpos heq hrest =>
      have hrun := changes_run (hx ▸ hx') (hy ▸ hy') (Nat.le_of_add_right_le hrest.le.2)
      have hruns := @ih (scan.run after run) _ _ hrest rfl rfl
      simp only [total, map_cons, sum_cons, foldl_cons] at hruns ⊢
      omega

/-- The regions turn the one version into the other, have a line of both versions between them, and change as few lines as
    possible: those that are not in a longest common subsequence. -/
theorem changedRegions_shortest [DecidableEq α] (before after : List α) : ∃ regions,
    changedRegions before after = some regions ∧ splice before 0 regions = after ∧ Ordered 0 regions ∧ ∃ longest,
      IsGreatest {n | ∃ common : List α, common.Sublist before ∧ common.Sublist after ∧ common.length = n} longest ∧
      changes regions + 2 * longest = before.length + after.length := by
  obtain ⟨runs, hruns, hchain, hlongest⟩ := commonRuns_found before after
  obtain ⟨hordered, -, hsplice⟩ := ((Patched.init before after).runs hchain rfl rfl).1.finish
  refine ⟨_, by rw [changedRegions, scanRuns, hruns]; rfl, hsplice, hordered, total runs, ⟨hchain.common, ?_⟩, ?_⟩
  · rintro _ ⟨common, hbefore, hafter, rfl⟩
    exact hlongest common hbefore hafter
  · simpa [changes] using @changes_runs α before after ⟨0, 0, []⟩ _ _ runs hchain rfl rfl

end patching

/-! ## The whole of the two versions -/

/-- The number of lines of each version up to the end of the last line that both share. -/
def sharedUpTo (before after : List Line) : Nat × Nat :=
  let t := trim before after
  if 0 < t.stop then (before.length, after.length)
  else
    let shared := endOf (0, 0) ((commonRuns (t.middle before) (t.middle after)).getD [])
    (t.start + shared.1, t.start + shared.2)

/-- What the two versions share, and what is between. -/
structure Trimmed (t : Trim) (before after : List Line) : Prop where
  start_eq : before.take t.start = after.take t.start
  stop_eq : before.drop (t.start + (t.middle before).length) = after.drop (t.start + (t.middle after).length)
  before_start : t.start ≤ before.length
  after_start : t.start ≤ after.length
  before_length : t.start + (t.middle before).length + t.stop = before.length
  after_length : t.start + (t.middle after).length + t.stop = after.length

theorem trim_spec (before after : List Line) : Trimmed (trim before after) before after := by
  obtain ⟨hbefore, hafter, hstart, -⟩ := agreeing_spec before after
  let as := before.drop (agreeing before after)
  let bs := after.drop (agreeing before after)
  obtain ⟨hlow, hlow', hstop, -⟩ := agreeing_spec as.reverse bs.reverse
  have has : as.length = before.length - agreeing before after := length_drop
  have hbs : bs.length = after.length - agreeing before after := length_drop
  rw [length_reverse] at hlow hlow'
  rw [take_reverse, take_reverse, reverse_inj] at hstop
  have hbefore' : ((trim before after).middle before).length = as.length - (trim before after).stop := by
    simp only [Trim.middle, trim, length_take, length_drop, as]
    omega
  have hafter' : ((trim before after).middle after).length = bs.length - (trim before after).stop := by
    simp only [Trim.middle, trim, length_take, length_drop, bs]
    omega
  have hle : (trim before after).stop ≤ as.length ∧ (trim before after).stop ≤ bs.length := ⟨hlow, hlow'⟩
  have hbegin : (trim before after).start = agreeing before after := rfl
  refine ⟨hstart, ?_, hbefore, hafter, by omega, by omega⟩
  rw [hbefore', hafter', ← drop_drop, ← drop_drop]
  exact hstop

variable {t : Trim}

variable {ls : List Line}

theorem Trim.middle_eq (hlength : t.start + (t.middle ls).length + t.stop = ls.length) :
    t.middle ls = (ls.drop t.start).take (t.middle ls).length := by
  conv_lhs => unfold Trim.middle
  congr 1
  omega

theorem Trim.middle_append (t : Trim) (ls : List Line) (hlength : t.start + (t.middle ls).length + t.stop = ls.length) :
    ls.drop t.start = t.middle ls ++ ls.drop (t.start + (t.middle ls).length) := by
  conv_lhs => rw [← take_append_drop (t.middle ls).length (ls.drop t.start)]
  rw [← t.middle_eq hlength, drop_drop]

variable {rs : List (ChangedRegion Line)} {low : Nat} (text : List Char) (l : Line)

section whole

variable {before after : List Line} {scan : Scan Line}

theorem Trimmed.splice (h : Trimmed t before after) (hordered : Ordered 0 rs)
    (hstop : ∀ r ∈ rs, r.stop ≤ (t.middle before).length) :
    LineDiff.splice before 0 (rs.map (lowered t.start)) =
      before.take t.start ++ (LineDiff.splice (t.middle before) 0 rs ++
        before.drop (t.start + (t.middle before).length)) := by
  rw [splice_lowered hordered, t.middle_append before h.before_length, splice_behind hordered hstop (Nat.zero_le _)]

theorem Trim.drop_take (hlength : t.start + (t.middle ls).length + t.stop = ls.length)
    (hn : n ≤ (t.middle ls).length) : (ls.drop t.start).take n = (t.middle ls).take n := by
  rw [t.middle_eq hlength, take_take, Nat.min_eq_left hn]

theorem Patched.of_shared_end (h : Trimmed t before after) (hstop : 0 < t.stop)
    (hscan : Patched (t.middle before) (t.middle after) scan) :
    Patched before after
      ⟨before.length, after.length, (scan.finish (t.middle before) (t.middle after)).map (lowered t.start)⟩ := by
  obtain ⟨hordered, hle, hsplice⟩ := hscan.finish
  have hlength := h.before_length
  refine ⟨Nat.le_refl _, Nat.le_refl _, (hordered.lowered t.start).mono (Nat.zero_le _), ?_, ?_⟩
  · intro r hr
    obtain ⟨r', hr', rfl⟩ := mem_map.mp hr
    have hle' := hle r' hr'
    simp only [lowered]
    omega
  · simp only [take_length]
    rw [h.splice hordered hle, hsplice, h.start_eq, h.stop_eq, ← t.middle_append after h.after_length,
      take_append_drop]

theorem Patched.of_open_end (h : Trimmed t before after) (hstop : t.stop = 0)
    (hscan : Patched (t.middle before) (t.middle after) scan) :
    Patched before after ⟨t.start + scan.start, t.start + scan.cursor, scan.regions.map (lowered t.start)⟩ ∧
      Scan.finish before after ⟨t.start + scan.start, t.start + scan.cursor, scan.regions.map (lowered t.start)⟩ =
        (scan.finish (t.middle before) (t.middle after)).map (lowered t.start) := by
  have hbefore := h.before_length
  have hafter := h.after_length
  have hstart := hscan.start_le
  have hcursor := hscan.cursor_le
  refine ⟨⟨by simp only; omega, by simp only; omega, ?_, ?_, ?_⟩, ?_⟩
  · exact (hscan.ordered.lowered t.start).mono (Nat.zero_le _)
  · intro r hr
    obtain ⟨r', hr', rfl⟩ := mem_map.mp hr
    exact Nat.add_lt_add_left (hscan.behind r' hr') t.start
  · simp only
    rw [splice_lowered hscan.ordered, take_take, Nat.min_eq_left (Nat.le_add_right _ _), drop_take,
      Nat.add_sub_cancel_left, Trim.drop_take hbefore hstart, hscan.spliced, h.start_eq, ← Trim.drop_take hafter hcursor,
      ← take_add]
  have hfinal : after.drop (t.start + scan.cursor) = (t.middle after).drop scan.cursor := by
    rw [t.middle_eq hafter, take_of_length_le (by rw [length_drop]; omega), drop_drop]
  have hbefore' : before.length = t.start + (t.middle before).length := by omega
  have hcond : (t.start + scan.start < before.length ∨ t.start + scan.cursor < after.length) ↔
      (scan.start < (t.middle before).length ∨ scan.cursor < (t.middle after).length) := by omega
  unfold Scan.finish
  simp only [hcond]
  split
  · rw [map_append, hfinal, hbefore']
    rfl
  · rfl

/-- The regions of the whole versions, worked through up to the last line both share. -/
theorem regions_found (before after : List Line) : ∃ scan, Patched before after scan ∧
    (scan.start, scan.cursor) = sharedUpTo before after ∧
    (changedRegions ((trim before after).middle before) ((trim before after).middle after)).map
      (fun regions => regions.map (lowered (trim before after).start)) = some (scan.finish before after) := by
  have h := trim_spec before after
  generalize htrim : trim before after = t at h
  obtain ⟨runs, hruns, hchain, -⟩ := commonRuns_found (t.middle before) (t.middle after)
  obtain ⟨hscan, hend⟩ := (Patched.init (t.middle before) (t.middle after)).runs hchain rfl rfl
  generalize hfold : runs.foldl (Scan.run (t.middle after)) ⟨0, 0, []⟩ = scan at hscan hend
  have hregions : (changedRegions (t.middle before) (t.middle after)) =
      some (scan.finish (t.middle before) (t.middle after)) := by
    rw [changedRegions, scanRuns, hruns, Option.map_some, hfold, Option.map_some]
  rw [hregions]
  by_cases hstop : 0 < t.stop
  · refine ⟨_, Patched.of_shared_end h hstop hscan, ?_, ?_⟩
    · simp [sharedUpTo, htrim, hstop]
    · simp [Scan.finish]
  obtain ⟨hpatched, hfinish⟩ := Patched.of_open_end h (by omega) hscan
  refine ⟨_, hpatched, ?_, ?_⟩
  · simp [sharedUpTo, htrim, hstop, hruns, hend]
  · rw [hfinish]
    rfl

end whole

/-! ## Lines of a text -/

def terminated (ls : List Line) : List Char := ls.flatMap (· ++ ['\n'])

theorem terminated_append (ls ls' : List Line) : terminated (ls ++ ls') = terminated ls ++ terminated ls' :=
  flatMap_append

theorem joined_cons (ls : List Line) : joined (l :: ls) = l ++ ls.flatMap ('\n' :: ·) := by
  induction ls generalizing l with
  | nil => simp [joined]
  | cons l' ls ih =>
    have hrest := ih l'
    simp only [joined] at hrest ⊢
    rw [intercalate_cons_cons, hrest]
    simp

theorem newline_joined (h : ls ≠ []) : ls.flatMap ('\n' :: ·) = '\n' :: joined ls := by
  cases ls with
  | nil => exact absurd rfl h
  | cons l ls => rw [joined_cons, flatMap_cons, cons_append]

theorem joined_concat (ls ls' : List Line) (l : Line) : joined (ls ++ l :: ls') = terminated ls ++ joined (l :: ls') := by
  induction ls with
  | nil => rfl
  | cons l' ls ih =>
    rw [cons_append, joined_cons, newline_joined (by simp), ih]
    simp [terminated]

theorem newText_eq (ls : List Line) : newText ls = terminated ls := by
  cases ls using reverseRecOn with
  | nil => rfl
  | append_singleton ls l =>
    have hjoined := joined_concat ls [] l
    rw [show joined [l] = l by simp [joined]] at hjoined
    simp [newText, hjoined, terminated]

theorem joined_linesOf : joined (linesOf text) = text := intercalate_splitOn '\n'

theorem linesOf_ne_nil : linesOf text ≠ [] := splitOn_ne_nil _ _

theorem linesOf_unbroken : ∀ l ∈ linesOf text, '\n' ∉ l := by
  unfold linesOf List.splitOn
  induction text with
  | nil => simp [splitOnP_nil]
  | cons c text ih =>
    rw [splitOnP_cons_eq_if_modifyHead]
    split
    · exact forall_mem_cons.mpr ⟨by simp, ih⟩
    · next hc =>
      cases hrest : List.splitOnP (fun x => x == '\n') text with
      | nil => simp
      | cons l ls =>
        rw [hrest] at ih
        obtain ⟨hl, hls⟩ := forall_mem_cons.mp ih
        refine forall_mem_cons.mpr ⟨fun hmem => ?_, hls⟩
        rcases mem_cons.mp hmem with hc' | hmem
        · exact hc (by simp [← hc'])
        · exact hl hmem

section offsets

variable {ls : List Line} {rest : List Char}

theorem terminated_cons (ls : List Line) : terminated (l :: ls) = l ++ '\n' :: terminated ls := by
  simp [terminated]

theorem take_terminated (rest : List Char) (i : Nat) :
    (terminated ls ++ rest).take (terminated (ls.take i)).length = terminated (ls.take i) := by
  conv_lhs => rw [← take_append_drop i ls, terminated_append, append_assoc]
  simp

theorem terminated_take_within (rest : List Char) (i : Nat) :
    (terminated (ls.take i)).length ≤ (terminated ls ++ rest).length := by
  rw [← take_terminated rest i]
  exact length_take_le' _ _

variable {i : Nat}

section

variable (hls : ∀ l ∈ ls, '\n' ∉ l)
include hls

theorem skipLines_terminated (done rest : List Char) (n : Nat) :
    skipLines (done ++ (terminated ls ++ rest)) (ls.length + n) done.length =
      skipLines (done ++ (terminated ls ++ rest)) n (done ++ terminated ls).length := by
  induction ls generalizing done with
  | nil => simp [terminated]
  | cons l ls ih =>
    obtain ⟨hl, hls'⟩ := forall_mem_cons.mp hls
    have hnext := ih hls' (done ++ (l ++ ['\n']))
    rw [length_cons, Nat.add_right_comm, terminated_cons, append_assoc, cons_append]
    conv_lhs => unfold skipLines
    rw [drop_left, findIdx?_line hl]
    simpa only [append_assoc, cons_append, nil_append, length_append, length_cons,
      length_nil] using hnext

theorem byteOffset_line (rest : List Char) (hi : i ≤ ls.length) :
    byteOffset (terminated ls ++ rest) ⟨i + 1, 1⟩ = (terminated (ls.take i)).length := by
  have hfirst : ∀ l ∈ ls.take i, '\n' ∉ l := fun l hl => hls l (mem_of_mem_take hl)
  have hskip := skipLines_terminated hfirst [] (terminated (ls.drop i) ++ rest) 0
  rw [length_take, Nat.min_eq_left hi, nil_append, nil_append, ← append_assoc, ← terminated_append,
    take_append_drop, length_nil, Nat.add_zero, skipLines] at hskip
  unfold byteOffset
  simp only [Nat.add_sub_cancel, hskip, Nat.sub_self, Nat.zero_min, Nat.add_zero]
  exact Nat.min_eq_left (terminated_take_within rest i)

theorem byteOffset_past (hrest : '\n' ∉ rest) (hi : ls.length < i) :
    byteOffset (terminated ls ++ rest) ⟨i + 1, 1⟩ = (terminated ls ++ rest).length := by
  obtain ⟨n, rfl⟩ := Nat.exists_eq_add_of_lt hi
  have hnone : rest.findIdx? (· = '\n') = none := by
    rw [findIdx?_eq_none_iff]
    intro c hc
    exact decide_eq_false fun heq => hrest (heq ▸ hc)
  have hskip : skipLines (terminated ls ++ rest) (ls.length + n + 1) 0 = none := by
    refine (skipLines_terminated hls [] rest (n + 1)).trans ?_
    rw [nil_append, nil_append, skipLines, drop_left, hnone]
  unfold byteOffset
  simp only [Nat.add_sub_cancel, hskip]

end

theorem terminated_take_le {j : Nat} (hij : i ≤ j) : (terminated (ls.take i)).length ≤ (terminated (ls.take j)).length := by
  rw [← Nat.add_sub_cancel' hij, take_add, terminated_append, length_append]
  exact Nat.le_add_right _ _

theorem drop_terminated (rest : List Char) (i : Nat) :
    (terminated ls ++ rest).drop (terminated (ls.take i)).length = terminated (ls.drop i) ++ rest := by
  conv_lhs => rw [← take_append_drop i ls, terminated_append, append_assoc]
  simp

variable {r : ChangedRegion Line}

section

variable (hls : ∀ l ∈ ls, '\n' ∉ l)
include hls

theorem apply_region (rest : List Char) (hle : r.start ≤ r.stop) (hstop : r.stop ≤ ls.length) :
    (cutOf (terminated ls ++ rest) (regionEdit 0 r)).apply (terminated ls ++ rest) =
      terminated (ls.take r.start ++ r.lines ++ ls.drop r.stop) ++ rest := by
  unfold cutOf Cut.apply
  simp only [regionEdit, Nat.zero_add, newText_eq]
  rw [byteOffset_line hls rest (Nat.le_trans hle hstop), byteOffset_line hls rest hstop,
    Nat.max_eq_left (terminated_take_le hle), take_terminated, drop_terminated]
  simp only [terminated_append, append_assoc]

/-- A region up to the end of the text takes the line break that ended the line before it as its own. -/
theorem apply_last_region (hrest : '\n' ∉ rest) (hstart : r.start ≤ ls.length) (hstop : ls.length < r.stop) :
    (cutOf (terminated ls ++ rest) (regionEdit 0 r)).apply (terminated ls ++ rest) =
      terminated (ls.take r.start) ++ terminated r.lines := by
  unfold cutOf Cut.apply
  simp only [regionEdit, Nat.zero_add, newText_eq]
  rw [byteOffset_line hls rest hstart, byteOffset_past hls hrest hstop,
    Nat.max_eq_left (terminated_take_within rest r.start), take_terminated,
    drop_length, append_nil]

theorem apply_region_past (hrest : '\n' ∉ rest) (hstart : ls.length < r.start) (hstop : ls.length < r.stop) :
    (cutOf (terminated ls ++ rest) (regionEdit 0 r)).apply (terminated ls ++ rest) =
      terminated ls ++ (rest ++ terminated r.lines) := by
  unfold cutOf Cut.apply
  simp only [regionEdit, Nat.zero_add, newText_eq]
  rw [byteOffset_past hls hrest hstart, byteOffset_past hls hrest hstop, Nat.max_self, take_length,
    drop_length, append_nil, append_assoc]

theorem apply_regions (rest : List Char)
    (hordered : Ordered low rs) (hstop : ∀ r ∈ rs, r.stop ≤ ls.length) (hlines : ∀ r ∈ rs, ∀ l ∈ r.lines, '\n' ∉ l) :
    (rs.map (regionEdit 0)).foldr (fun edit contents => (cutOf contents edit).apply contents) (terminated ls ++ rest) =
      terminated (splice ls 0 rs) ++ rest := by
  induction rs generalizing low with
  | nil => rfl
  | cons r rs ih =>
    obtain ⟨-, hle, hrest⟩ := hordered
    obtain ⟨hr, hrs⟩ := forall_mem_cons.mp hstop
    obtain ⟨-, hlines'⟩ := forall_mem_cons.mp hlines
    -- the regions behind this one leave its lines where they are
    have hskip : splice ls 0 rs = ls.take r.stop ++ splice ls r.stop rs :=
      splice_skip (hrest.mono (Nat.le_succ _)) (Nat.zero_le _)
    have hlength : (ls.take r.stop).length = r.stop := by rw [length_take, Nat.min_eq_left hr]
    have hunbroken : ∀ l ∈ splice ls 0 rs, '\n' ∉ l := by
      intro l hl
      rcases mem_splice hl with hl | ⟨r', hr', hl⟩
      · exact hls l hl
      · exact hlines' r' hr' l hl
    have htake : (splice ls 0 rs).take r.start = ls.take r.start := by
      rw [hskip, take_append_of_le_length (by omega), take_take, Nat.min_eq_left hle]
    have hdrop : (splice ls 0 rs).drop r.stop = splice ls r.stop rs := by
      rw [hskip, drop_append_of_le_length (by omega), drop_of_length_le (by omega), nil_append]
    have hwithin : r.stop ≤ (splice ls 0 rs).length := by
      rw [hskip, length_append]
      omega
    rw [map_cons, foldr_cons, ih hrest hrs hlines', apply_region hunbroken rest hle hwithin, htake, hdrop]
    rfl

end

end offsets

/-! ## What the reported edits make of a text -/

section reported

theorem Ordered.starts {α : Type} {rs : List (ChangedRegion α)} (h : Ordered low rs) :
    rs.Pairwise fun r r' => r.stop < r'.start := by
  induction rs generalizing low with
  | nil => exact .nil
  | cons r rs ih => exact pairwise_cons.mpr ⟨fun r' hr' => (h.2.2.start_le r' hr').1, ih h.2.2⟩

theorem edited_regions (h : Ordered low rs) (text : List Char) :
    edited text (rs.map (regionEdit 0)) =
      (rs.map (regionEdit 0)).foldr (fun edit contents => (cutOf contents edit).apply contents) text := by
  have hsorted : byStart (rs.map (regionEdit 0)) = rs.map (regionEdit 0) := by
    refine Pairwise.insertionSort_eq ?_
    rw [pairwise_map]
    refine h.starts.imp_of_mem fun {r r'} hr _ hlt => ?_
    have hle := (h.start_le r hr).2
    simp only [regionEdit, Position.Before]
    omega
  rw [edited, hsorted]

variable {ls after ls : List Line} {last : Line} {scan : Scan Line}

theorem Patched.lines_unbroken {before : List Line} (h : Patched before after scan) (hafter : ∀ l ∈ after, '\n' ∉ l) :
    ∀ r ∈ scan.regions, ∀ l ∈ r.lines, '\n' ∉ l := by
  intro r hr l hl
  have hmem : l ∈ after.take scan.cursor := by
    rw [← h.spliced]
    exact mem_splice_of_mem hr hl
  exact hafter l (mem_of_mem_take hmem)

section

variable (h : Patched (ls ++ [last]) after scan) (hls : ∀ l ∈ ls, '\n' ∉ l) (hlast : '\n' ∉ last)
  (hafter : ∀ l ∈ after, '\n' ∉ l)
include h hls hlast hafter

/-- The last line stays, and all that comes behind it is put behind it with the line breaks at the wrong end. -/
theorem Patched.edited_kept (hstart : scan.start = (ls ++ [last]).length) :
    ∃ kept, after = kept ++ last :: after.drop scan.cursor ∧
      edited (joined (ls ++ [last])) ((scan.finish (ls ++ [last]) after).map (regionEdit 0)) =
        terminated kept ++ (last ++ terminated (after.drop scan.cursor)) := by
  have hlength : (ls ++ [last]).length = ls.length + 1 := by simp
  have hstop : ∀ r ∈ scan.regions, r.stop ≤ ls.length := by
    intro r hr
    have := h.behind r hr
    omega
  have hkept : splice ls 0 scan.regions ++ [last] = after.take scan.cursor := by
    rw [← h.spliced, hstart, take_length, splice_behind h.ordered hstop (Nat.zero_le _)]
  refine ⟨splice ls 0 scan.regions, ?_, ?_⟩
  · rw [← singleton_append, ← append_assoc, hkept, take_append_drop]
  have hregions := apply_regions hls (last ++ terminated (after.drop scan.cursor)) h.ordered hstop
    (h.lines_unbroken hafter)
  rw [edited_regions h.finish.1, joined_concat, show joined [last] = last by simp [joined]]
  unfold Scan.finish
  split
  · rw [map_append, foldr_append, map_singleton, foldr_cons, foldr_nil,
      apply_region_past hls hlast (by simp only; omega) (by simp only; omega)]
    exact hregions
  · next hnone =>
    have hnil : after.drop scan.cursor = [] := drop_of_length_le (by omega)
    rw [hnil] at hregions ⊢
    simpa [terminated] using hregions

/-- The last line does not stay: every line of what comes out is ended by a line break, the last one too. -/
theorem Patched.edited_replaced (hstart : scan.start < (ls ++ [last]).length) :
    edited (joined (ls ++ [last])) ((scan.finish (ls ++ [last]) after).map (regionEdit 0)) = terminated after := by
  have hlength : (ls ++ [last]).length = ls.length + 1 := by simp
  have htake : (ls ++ [last]).take scan.start = ls.take scan.start := take_append_of_le_length (by omega)
  have hstop : ∀ r ∈ scan.regions, r.stop ≤ (ls.take scan.start).length := by
    intro r hr
    have := h.behind r hr
    rw [length_take]
    omega
  have hregions := apply_regions (fun l hl => hls l (mem_of_mem_take hl)) (terminated (after.drop scan.cursor))
    h.ordered hstop (h.lines_unbroken hafter)
  rw [edited_regions h.finish.1, joined_concat, show joined [last] = last by simp [joined], Scan.finish, if_pos (.inl hstart),
    map_append, foldr_append, map_singleton, foldr_cons, foldr_nil,
    apply_last_region hls hlast (by simp only; omega) (by simp only; omega)]
  rw [hregions, ← htake, h.spliced, ← terminated_append, take_append_drop]

end

/-- Line breaks before the lines or behind them are the same only if there is nothing else. -/
theorem terminated_eq_iff (hls : ∀ l ∈ ls, '\n' ∉ l) :
    terminated ls = ls.flatMap ('\n' :: ·) ↔ ∀ l ∈ ls, l = [] := by
  induction ls with
  | nil => simp [terminated]
  | cons l ls ih =>
    obtain ⟨hl, hls'⟩ := forall_mem_cons.mp hls
    rw [terminated_cons, flatMap_cons, forall_mem_cons, ← ih hls']
    cases l with
    | nil => simp
    | cons c l =>
      have hc : c ≠ '\n' := fun heq => hl (by simp [heq])
      simp [hc]

def CoversLine (edit : TextEdit) (line : Nat) : Prop :=
  edit.range.start.line ≤ line + 1 ∧ line + 1 < edit.range.stop.line

def linesAdded (edits : List TextEdit) (line : Nat) : Nat :=
  ((edits.filter (·.range.stop.line ≤ line + 1)).map (·.newText.count '\n')).sum

def linesRemoved (edits : List TextEdit) (line : Nat) : Nat :=
  ((edits.filter (·.range.stop.line ≤ line + 1)).map fun edit => edit.range.stop.line - edit.range.start.line).sum

/-- The edits make the one text into the other, in ranges one behind the other, and every line outside of them is found
    again where the edits above it have moved it. -/
structure Reproduces (previous current : List Char) (edits : List TextEdit) : Prop where
  text : edited previous edits = current
  forward : ∀ edit ∈ edits, ¬ edit.range.stop.Before edit.range.start
  apart : edits.Pairwise fun edit edit' => edit.range.stop.Before edit'.range.start
  untouched : ∀ line line', line < (linesOf previous).length → (∀ edit ∈ edits, ¬ CoversLine edit line) →
    line + linesAdded edits line = line' + linesRemoved edits line →
    (linesOf (edited previous edits))[line']? = (linesOf previous)[line]?

theorem terminated_count (hls : ∀ l ∈ ls, '\n' ∉ l) : (terminated ls).count '\n' = ls.length := by
  induction ls with
  | nil => rfl
  | cons l ls ih =>
    obtain ⟨hl, hls'⟩ := forall_mem_cons.mp hls
    rw [terminated_cons, count_append, count_cons_self, ih hls', count_eq_zero.mpr hl, length_cons]
    omega

theorem above_regions (rs : List (ChangedRegion Line)) (line : Nat) :
    (rs.map (regionEdit 0)).filter (·.range.stop.line ≤ line + 1) = (rs.filter (·.stop ≤ line)).map (regionEdit 0) := by
  rw [filter_map]
  congr 2
  funext r
  simp [regionEdit]

variable {previous current : List Char}

/-- The ranges are apart and the lines outside of them stay, whatever becomes of the end of the text. -/
theorem reproduces_regions (hordered : Ordered 0 rs)
    (hsplice : splice (linesOf previous) 0 rs = linesOf current) (htext : edited previous (rs.map (regionEdit 0)) = current) :
    Reproduces previous current (rs.map (regionEdit 0)) := by
  refine ⟨htext, ?_, ?_, ?_⟩
  · intro edit hedit
    obtain ⟨r, hr, rfl⟩ := mem_map.mp hedit
    have hle := (hordered.start_le r hr).2
    simp only [regionEdit, Position.Before]
    omega
  · rw [pairwise_map]
    refine hordered.starts.imp fun hlt => .inl ?_
    simp only [regionEdit]
    omega
  intro line line' hline hout hmoved
  have hunbroken : ∀ r ∈ rs, ∀ l ∈ r.lines, '\n' ∉ l := by
    intro r hr l hl
    refine linesOf_unbroken current l ?_
    rw [← hsplice]
    exact mem_splice_of_mem hr hl
  have hadded : linesAdded (rs.map (regionEdit 0)) line = added rs line := by
    rw [linesAdded, added, above_regions, map_map]
    congr 1
    refine map_congr_left fun r hr => ?_
    simp only [Function.comp_apply, regionEdit, newText_eq]
    exact terminated_count (hunbroken r (mem_of_mem_filter hr))
  have hremoved : linesRemoved (rs.map (regionEdit 0)) line = removed rs line := by
    rw [linesRemoved, removed, above_regions, map_map]
    congr 1
    refine map_congr_left fun r _ => ?_
    simp only [Function.comp_apply, regionEdit]
    omega
  rw [htext, ← hsplice]
  refine splice_getElem? hordered (Nat.zero_le line) (fun r hr hcovers => ?_) hline (by omega)
  refine hout (regionEdit 0 r) (mem_map_of_mem hr) ⟨?_, ?_⟩
  · simp only [regionEdit]
    omega
  · simp only [regionEdit]
    omega

/-- Behind the last line that both versions share there is nothing left of the one, and of the other only empty lines. -/
def EndsAlike (before after : List Line) : Prop :=
  (sharedUpTo before after).1 = before.length ∧ ∀ line ∈ after.drop (sharedUpTo before after).2, line = []

/-- The text comes out right exactly if the texts end alike. -/
theorem Patched.edited_iff (h : Patched (linesOf previous) (linesOf current) scan) :
    edited previous ((scan.finish (linesOf previous) (linesOf current)).map (regionEdit 0)) = current ↔
      scan.start = (linesOf previous).length ∧ ∀ line ∈ (linesOf current).drop scan.cursor, line = [] := by
  have hbefore := linesOf_unbroken previous
  have hafter := linesOf_unbroken current
  have hprevious := joined_linesOf previous
  have hcurrent := joined_linesOf current
  have hne := linesOf_ne_nil current
  obtain ⟨ls, last, hls⟩ : ∃ ls last, linesOf previous = ls ++ [last] :=
    ⟨_, _, (dropLast_append_getLast (linesOf_ne_nil previous)).symm⟩
  generalize linesOf current = after at *
  rw [hls] at h hbefore hprevious ⊢
  rw [forall_mem_append, forall_mem_singleton] at hbefore
  subst hprevious hcurrent
  by_cases hstart : scan.start = (ls ++ [last]).length
  · obtain ⟨kept, hkept, hedited⟩ := h.edited_kept hbefore.1 hbefore.2 hafter hstart
    have hjoined : joined after = terminated kept ++ (last ++ (after.drop scan.cursor).flatMap ('\n' :: ·)) := by
      conv_lhs => rw [hkept, joined_concat, joined_cons]
    rw [hedited, hjoined, append_cancel_left_eq, append_cancel_left_eq,
      terminated_eq_iff fun l hl => hafter l (mem_of_mem_drop hl)]
    exact ⟨fun hempty => ⟨hstart, hempty⟩, fun hempty => hempty.2⟩
  have hlt : scan.start < (ls ++ [last]).length := by
    have := h.start_le
    omega
  rw [h.edited_replaced hbefore.1 hbefore.2 hafter hlt]
  refine ⟨fun heq => absurd heq ?_, fun heq => absurd heq.1 hstart⟩
  have hterminated : terminated after = joined after ++ ['\n'] := by
    rw [← newText_eq, newText, if_neg (by simpa using hne)]
  rw [hterminated]
  simp

/-- The reported edits reproduce the new text, and leave what is outside of them, exactly if the texts end alike. -/
theorem ends_alike_iff (previous current : List Char) :
    (∃ edits, minimalEdits previous current = some edits ∧ Reproduces previous current edits) ↔
      EndsAlike (linesOf previous) (linesOf current) := by
  obtain ⟨scan, hscan, hshared, hregions⟩ := regions_found (linesOf previous) (linesOf current)
  have hedits : minimalEdits previous current =
      some ((scan.finish (linesOf previous) (linesOf current)).map (regionEdit 0)) := by
    obtain ⟨regions, hfound, hlowered⟩ := Option.map_eq_some_iff.mp hregions
    rw [minimalEdits, hfound, Option.map_some, ← hlowered, map_map]
    congr 2
    funext r
    simp [regionEdit, lowered]
  have halike : EndsAlike (linesOf previous) (linesOf current) ↔
      scan.start = (linesOf previous).length ∧ ∀ line ∈ (linesOf current).drop scan.cursor, line = [] := by
    rw [EndsAlike, ← hshared]
  rw [halike, ← hscan.edited_iff]
  constructor
  · intro ⟨edits, hsome, hreproduces⟩
    obtain rfl : (scan.finish (linesOf previous) (linesOf current)).map (regionEdit 0) = edits :=
      Option.some.inj (hedits.symm.trans hsome)
    exact hreproduces.text
  · intro htext
    obtain ⟨hordered, -, hsplice⟩ := hscan.finish
    exact ⟨_, hedits, reproduces_regions hordered hsplice htext⟩

/-- The last line is replaced by one that has no line break behind it: there is one afterwards. -/
theorem a_line_break_too_many : ∃ edits, minimalEdits "a".toList "b".toList = some edits ∧
    edited "a".toList edits = "b\n".toList ∧ ¬ Reproduces "a".toList "b".toList edits := by
  refine ⟨[⟨⟨⟨1, 1⟩, ⟨2, 1⟩⟩, ['b', '\n']⟩], by decide, by decide, fun h => ?_⟩
  exact absurd h.text (by decide)

end reported

end TddyCoder.Restructure.LineDiff
