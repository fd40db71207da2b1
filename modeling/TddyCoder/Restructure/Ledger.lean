/-
  TddyCoder.Restructure.Ledger — where a position of the starting tree is now
  (`packages/tddy-code-restructuring/src/ledger.rs`).

  The ledger keeps the ranges that were replaced in a file, and of the new text only how many
  line breaks it has and, where the edit stays on one line, how much wider it is. What stands on
  the first or the last line of an edit that spans lines or brings line breaks, the first
  character an edit on one line replaces, and what an earlier edit has moved past the columns of
  a later one, is taken to a place where it is not (`Blind`).
-/

import Mathlib.Data.List.Lex
import Mathlib.Data.String.Basic
import TddyCoder.Restructure.Apply

namespace TddyCoder.Restructure

open Table Text List

structure AppliedEdit where
  start : Position
  stop : Position
  newLineCount : Nat
  colDelta : Int

structure PositionLedger where
  files : Assoc Path (List AppliedEdit)
  renames : Assoc Path Path

def lineCount (text : List Char) : Nat := text.count '\n'

def saturatingAddSigned (n : Nat) (delta : Int) : Nat := (n + delta).toNat

def shift (pos : Position) (lines : Int) : Position := ⟨saturatingAddSigned pos.line lines, pos.col⟩

def colDelta (edit : TextEdit) : Int :=
  if edit.range.start.line = edit.range.stop.line ∧ lineCount edit.newText = 0 then
    edit.newText.length - (edit.range.stop.col - edit.range.start.col : Int)
  else 0

namespace AppliedEdit

def lineDelta (e : AppliedEdit) : Int := e.newLineCount - (e.stop.line - e.start.line : Int)

def staysOnOneLine (e : AppliedEdit) : Bool := e.start.line = e.stop.line && e.newLineCount = 0

def move (origin : Path) (pos : Position) (e : AppliedEdit) : Except RestructureError Position :=
  if e.staysOnOneLine then
    if pos.line = e.start.line then
      if e.stop.col ≤ pos.col then .ok ⟨pos.line, saturatingAddSigned pos.col e.colDelta⟩
      else if e.start.col < pos.col then .error (.anchorInvalidated origin)
      else .ok pos
    else .ok pos
  else if e.stop.line ≤ pos.line then .ok ⟨saturatingAddSigned pos.line e.lineDelta, pos.col⟩
  else if e.start.line ≤ pos.line then .error (.anchorInvalidated origin)
  else .ok pos

end AppliedEdit

namespace PositionLedger

def new : PositionLedger := ⟨∅, ∅⟩

variable (ledger : PositionLedger) (path : Path)

def originOf : Path :=
  (((ledger.renames.entries.filter fun entry => entry.2 = path).map (·.1)).insertionSort (· ≤ ·)).head?.getD path

def currentPath (original : Path) : Path := (ledger.renames.lookup original).getD original

def translate (file : Path) (pos : Position) : Except RestructureError Position :=
  let origin := ledger.originOf file
  match ledger.files.lookup origin with
  | none => .ok pos
  | some applied => applied.foldlM (AppliedEdit.move origin) pos

def entries : Int → List TextEdit → List AppliedEdit
  | _, [] => []
  | rebase, edit :: batch =>
    let entry : AppliedEdit :=
      ⟨shift edit.range.start rebase, shift edit.range.stop rebase, lineCount edit.newText, colDelta edit⟩
    entry :: entries (rebase + entry.lineDelta) batch

def recordChanges (edits : List TextEdit) : PositionLedger :=
  let applied := (ledger.files.lookup path).getD []
  { ledger with files := ledger.files.insert path (applied ++ entries 0 (byStart edits)) }

def rename (source dest : Path) : PositionLedger :=
  { ledger with renames := ledger.renames.insert (ledger.originOf source) dest }

def record (edit : WorkspaceEdit) : PositionLedger :=
  edit.changes.foldl
    (fun ledger change =>
      match change with
      | .change path edits => ledger.recordChanges path edits
      | .create _ => ledger
      | .rename source dest => ledger.rename source dest) ledger

end PositionLedger

/-! ## Blind spots -/

namespace TextEdit

def OneLine (e : TextEdit) : Prop := e.range.start.line = e.range.stop.line ∧ lineCount e.newText = 0

def Covers (e : TextEdit) (x : Position) : Prop := e.range.start.col < x.col ∧ x.col < e.range.stop.col

/-- The blind spots of an edit when it is made at `c`. The character at `i` is taken, by the columns of the range, for one
    on another side of the edit than it is on, or it stands on a line of which the entry does not know the columns. -/
inductive Blind (e : TextEdit) (text : List Char) (c : Cut) (i : Nat) : Prop
  | before (hone : e.OneLine) (hline : (positionAt text i).line = (positionAt text c.start).line) (hi : i < c.start)
    (hcol : e.Covers (positionAt text i) ∨ e.range.stop.col ≤ (positionAt text i).col ∧ colDelta e ≠ 0)
  | replaced (hone : e.OneLine) (hstart : c.start ≤ i) (hstop : i < c.stop) (hcol : ¬ e.Covers (positionAt text i))
  | behind (hone : e.OneLine) (hline : (positionAt text i).line = (positionAt text c.start).line) (hi : c.stop ≤ i)
    (hcol : e.Covers (positionAt text i) ∨ (positionAt text i).col < e.range.stop.col ∧ colDelta e ≠ 0)
  | firstLine (hlines : ¬ e.OneLine) (hline : (positionAt text i).line = (positionAt text c.start).line) (hi : i < c.start)
  | lastLine (hlines : ¬ e.OneLine) (hline : (positionAt text i).line = (positionAt text c.stop).line)
    (hstart : c.start ≤ i) (hstop : i < c.stop)
  | columns (hlines : ¬ e.OneLine) (hline : (positionAt text i).line = (positionAt text c.stop).line) (hi : c.stop ≤ i)
    (hcol : (positionAt (c.apply text) (c.past c.stop)).col ≠ (positionAt text c.stop).col)

def entry (rebase : Int) (e : TextEdit) : AppliedEdit :=
  ⟨shift e.range.start rebase, shift e.range.stop rebase, lineCount e.newText, colDelta e⟩

end TextEdit

/-- The edit is made at `c`, on the lines of its range moved by `rebase`. -/
structure Placed (rebase : Int) (text : List Char) (e : TextEdit) (c : Cut) : Prop where
  within : c.Within text
  start : (e.range.start.line : Int) + rebase = (positionAt text c.start).line
  stop : (e.range.stop.line : Int) + rebase = (positionAt text c.stop).line
  width : e.range.start.line = e.range.stop.line → (e.range.stop.col : Int) - e.range.start.col = c.stop - c.start
  newText : c.newText = e.newText

namespace Placed

variable {rebase : Int} {text : List Char} {e : TextEdit} {c : Cut} {i : Nat}

section

variable (h : Placed rebase text e c)
include h

theorem start_line : (e.entry rebase).start.line = (positionAt text c.start).line := by
  have hline := h.start
  simp only [TextEdit.entry, shift, saturatingAddSigned]
  omega

theorem stop_line : (e.entry rebase).stop.line = (positionAt text c.stop).line := by
  have hline := h.stop
  simp only [TextEdit.entry, shift, saturatingAddSigned]
  omega

theorem lineDelta :
    (e.entry rebase).lineDelta = c.newText.count '\n' + (positionAt text c.start).line - (positionAt text c.stop).line := by
  rw [AppliedEdit.lineDelta, h.start_line, h.stop_line, h.newText]
  simp only [TextEdit.entry, lineCount]
  omega

theorem oneLine_iff : (e.entry rebase).staysOnOneLine = true ↔ e.OneLine := by
  have hstart := h.start
  have hstop := h.stop
  rw [AppliedEdit.staysOnOneLine, Bool.and_eq_true_iff, decide_eq_true_iff, decide_eq_true_iff, h.start_line, h.stop_line]
  refine and_congr ?_ Iff.rfl
  omega

theorem move_oneLine (hone : e.OneLine) (origin : Path) (x : Position) : (e.entry rebase).move origin x =
      if x.line = (positionAt text c.start).line then
        if e.range.stop.col ≤ x.col then .ok ⟨x.line, saturatingAddSigned x.col (colDelta e)⟩
        else if e.range.start.col < x.col then .error (.anchorInvalidated origin)
        else .ok x
      else .ok x := by
  rw [AppliedEdit.move, if_pos (h.oneLine_iff.mpr hone), h.start_line]
  rfl

theorem move_lines (hlines : ¬ e.OneLine) (origin : Path) (x : Position) : (e.entry rebase).move origin x =
      if (positionAt text c.stop).line ≤ x.line then .ok ⟨saturatingAddSigned x.line (e.entry rebase).lineDelta, x.col⟩
      else if (positionAt text c.start).line ≤ x.line then .error (.anchorInvalidated origin)
      else .ok x := by
  rw [AppliedEdit.move, if_neg (mt h.oneLine_iff.mp hlines), h.start_line, h.stop_line]

theorem move_before (hi : i < c.start) (hblind : ¬ e.Blind text c i) (origin : Path) :
    (e.entry rebase).move origin (positionAt text i) = .ok (positionAt text i) := by
  have hle : (positionAt text i).line ≤ (positionAt text c.start).line := positionAt_line_le (Nat.le_of_lt hi)
  have hrange : (positionAt text c.start).line ≤ (positionAt text c.stop).line := positionAt_line_le h.within.le
  by_cases hone : e.OneLine
  · have hcol : (positionAt text i).line = (positionAt text c.start).line →
        ¬ (e.Covers (positionAt text i) ∨ e.range.stop.col ≤ (positionAt text i).col ∧ colDelta e ≠ 0) :=
      fun hline hcol => hblind (.before hone hline hi hcol)
    rw [h.move_oneLine hone]
    split_ifs with hline hstop hstart
    · have hdelta : colDelta e = 0 := by
        by_contra hdelta
        exact hcol hline (.inr ⟨hstop, hdelta⟩)
      simp [hdelta, saturatingAddSigned]
    · exact absurd (.inl ⟨hstart, by omega⟩) (hcol hline)
    · rfl
    · rfl
  · have hline : (positionAt text i).line ≠ (positionAt text c.start).line :=
      fun hline => hblind (.firstLine hone hline hi)
    rw [h.move_lines hone, if_neg (by omega), if_neg (by omega)]

theorem move_cut (hstart : c.start ≤ i) (hstop : i < c.stop) (hblind : ¬ e.Blind text c i)
    (origin : Path) : (e.entry rebase).move origin (positionAt text i) = .error (.anchorInvalidated origin) := by
  have hfrom : (positionAt text c.start).line ≤ (positionAt text i).line := positionAt_line_le hstart
  have hupto : (positionAt text i).line ≤ (positionAt text c.stop).line := positionAt_line_le (Nat.le_of_lt hstop)
  by_cases hone : e.OneLine
  · have hcol : e.Covers (positionAt text i) := by
      by_contra hcol
      exact hblind (.replaced hone hstart hstop hcol)
    have hlines := hone.1
    have hfirst := h.start
    have hlast := h.stop
    rw [h.move_oneLine hone, if_pos (by omega), if_neg (Nat.not_le.mpr hcol.2), if_pos hcol.1]
  · have hline : (positionAt text i).line ≠ (positionAt text c.stop).line :=
      fun hline => hblind (.lastLine hone hline hstart hstop)
    rw [h.move_lines hone, if_neg (by omega), if_pos hfrom]

theorem col_past (hone : e.OneLine) (hi : c.stop ≤ i)
    (hline : (positionAt text i).line = (positionAt text c.start).line) :
    ((positionAt (c.apply text) (c.past i)).col : Int) = (positionAt text i).col + colDelta e := by
  have hlines := hone.1
  have hstart := h.start
  have hstop := h.stop
  have hcount : c.newText.count '\n' = 0 := h.newText ▸ hone.2
  have hcolDelta : colDelta e = e.newText.length - ((e.range.stop.col : Int) - e.range.start.col) := if_pos hone
  have hwidth := h.width hlines
  have hend := congrArg Position.col h.within.positionAt_end
  rw [advance_same_line _ hcount] at hend
  have hrange := positionAt_col h.within.le h.within.stop_le (by omega)
  have hcol := h.within.col_past_line hi (by omega)
  have hle := h.within.le
  rw [← h.newText] at hcolDelta
  simp only at hend
  omega

theorem move_past (hi : c.stop ≤ i) (hblind : ¬ e.Blind text c i) (origin : Path) :
    (e.entry rebase).move origin (positionAt text i) = .ok (positionAt (c.apply text) (c.past i)) := by
  have hline := h.within.line_past hi
  have hle : (positionAt text c.stop).line ≤ (positionAt text i).line := positionAt_line_le hi
  have hstart := h.start
  have hstop := h.stop
  by_cases hone : e.OneLine
  · have hcount : c.newText.count '\n' = 0 := h.newText ▸ hone.2
    have hlines := hone.1
    have hcol : (positionAt text i).line = (positionAt text c.start).line →
        ¬ (e.Covers (positionAt text i) ∨ (positionAt text i).col < e.range.stop.col ∧ colDelta e ≠ 0) :=
      fun hline hcol => hblind (.behind hone hline hi hcol)
    rw [h.move_oneLine hone]
    split_ifs with hsame hafter hinside
    · have hcolumn := h.col_past hone hi hsame
      congr 1
      refine Position.ext ?_ ?_
      · simp only
        omega
      · simp only [saturatingAddSigned]
        omega
    · exact absurd (.inl ⟨hinside, by omega⟩) (hcol hsame)
    · have hdelta : colDelta e = 0 := by
        by_contra hdelta
        exact hcol hsame (.inr ⟨by omega, hdelta⟩)
      have hcolumn := h.col_past hone hi hsame
      congr 1
      exact Position.ext (by omega) (by omega)
    · congr 1
      exact Position.ext (by omega) (h.within.col_past hi fun hlast => by omega).symm
  · have hstay : (positionAt text i).line = (positionAt text c.stop).line →
        (positionAt (c.apply text) (c.past c.stop)).col = (positionAt text c.stop).col := by
      intro hlast
      by_contra hend
      exact hblind (.columns hone hlast hi hend)
    rw [h.move_lines hone, if_pos hle]
    congr 1
    refine Position.ext ?_ (h.within.col_past hi hstay).symm
    rw [h.lineDelta]
    simp only [saturatingAddSigned]
    omega

theorem move (hblind : ¬ e.Blind text c i) (origin : Path) :
    (e.entry rebase).move origin (positionAt text i) =
      match c.follow i with
      | some j => .ok (positionAt (c.apply text) j)
      | none => .error (.anchorInvalidated origin) := by
  by_cases hbefore : i < c.start
  · rw [Cut.follow_before hbefore, h.move_before hbefore hblind]
    simp only [h.within.positionAt_before (Nat.le_of_lt hbefore)]
  · by_cases hcut : i < c.stop
    · rw [Cut.follow_cut (Nat.le_of_not_lt hbefore) hcut, h.move_cut (Nat.le_of_not_lt hbefore) hcut hblind]
    · rw [Cut.follow_past h.within.le (Nat.le_of_not_lt hcut), h.move_past (Nat.le_of_not_lt hcut) hblind]

end

theorem after {f : TextEdit} {d : Cut} (he : Placed rebase text e c) (hf : Placed rebase text f d)
    (hapart : c.stop ≤ d.start) :
    Placed (rebase + (e.entry rebase).lineDelta) (c.apply text) f (c.after d) := by
  have hdelta := he.lineDelta
  have hfirst := he.within.line_past hapart
  have hlast := he.within.line_past (Nat.le_trans hapart hf.within.le)
  have hstart := hf.start
  have hstop := hf.stop
  refine ⟨he.within.after hf.within hapart, ?_, ?_, fun hlines => ?_, hf.newText⟩
  · simp only [Cut.after]
    omega
  · simp only [Cut.after]
    omega
  have hwidth := hf.width hlines
  have hle := hf.within.le
  simp only [Cut.after, Cut.past]
  omega

end Placed

variable {e : TextEdit} {c : Cut}

theorem Located.placed {text : List Char} (h : Located text e c) : Placed 0 text e c := by
  refine ⟨h.within, ?_, ?_, fun hlines => ?_, h.newText⟩
  · rw [h.start, Int.add_zero]
  · rw [h.stop, Int.add_zero]
  rw [h.start, h.stop] at hlines ⊢
  have hcol := positionAt_col h.within.le h.within.stop_le hlines
  have hle := h.within.le
  omega

/-! ## Several edits together -/

/-- As the edits are made one after the other, the character at `i` is in no blind spot of the next one. -/
def Seen : List TextEdit → List Cut → List Char → Nat → Prop
  | e :: batch, c :: cuts, text, i =>
    ¬ e.Blind text c i ∧ ∀ j, c.follow i = some j → Seen batch (cuts.map c.after) (c.apply text) j
  | _, _, _, _ => True

section batch

variable {text : List Char} {i : Nat}

theorem translate_batch {rebase : Int} {batch : List TextEdit} {cuts : List Cut}
    (hplaced : List.Forall₂ (Placed rebase text) batch cuts) (hcuts : Cuts cuts text) (hseen : Seen batch cuts text i)
    (origin : Path) :
    (PositionLedger.entries rebase batch).foldlM (AppliedEdit.move origin) (positionAt text i) =
      match followAll cuts i with
      | some j => .ok (positionAt (cutAll cuts text) j)
      | none => .error (.anchorInvalidated origin) := by
  induction batch generalizing rebase text i cuts with
  | nil =>
    cases hplaced
    rfl
  | cons e batch ih =>
    obtain ⟨c, cuts, he, hbatch, rfl⟩ := forall₂_cons_left_iff.mp hplaced
    rw [show PositionLedger.entries rebase (e :: batch) =
        e.entry rebase :: PositionLedger.entries (rebase + (e.entry rebase).lineDelta) batch from rfl,
      foldlM_cons, he.move hseen.1, hcuts.followAll_cons, hcuts.cutAll_cons]
    cases hfollow : c.follow i with
    | none => rfl
    | some j =>
      refine ih ?_ hcuts.after (hseen.2 j hfollow)
      obtain ⟨hlength, hpairs⟩ := forall₂_iff_zip.mp hbatch
      rw [forall₂_map_right_iff]
      exact forall₂_iff_zip.mpr
        ⟨hlength, fun hpair => he.after (hpairs hpair) (hcuts.head_stop _ (of_mem_zip hpair).2)⟩

/-- One change: every character that is in no blind spot is followed. -/
theorem translate_change {edits : List TextEdit} (h : InRange text edits)
    (hseen : Seen (byStart edits) (cutsOf text edits) text i) (origin : Path) :
    (PositionLedger.entries 0 (byStart edits)).foldlM (AppliedEdit.move origin) (positionAt text i) =
      match followAll (cutsOf text edits) i with
      | some j => .ok (positionAt (edited text edits) j)
      | none => .error (.anchorInvalidated origin) := by
  obtain ⟨hedited, hcuts⟩ := edited_eq h
  have hmem : ∀ {e}, e ∈ byStart edits → e ∈ edits := fun he => (perm_insertionSort _ edits).mem_iff.mp he
  rw [hedited]
  refine translate_batch ?_ hcuts hseen origin
  rw [cutsOf, forall₂_map_right_iff, forall₂_same]
  exact fun e he => (located_cutOf (h.located e (hmem he))).placed

theorem not_blind_of_whole_lines (hwithin : c.Within text) (hlines : ¬ e.OneLine)
    (hstart : (positionAt text c.start).col = 1) (hstop : (positionAt text c.stop).col = 1)
    (hend : (positionAt (c.apply text) (c.past c.stop)).col = 1) : ¬ e.Blind text c i := by
  have hcol := positionAt_col_pos text i
  have hle := hwithin.le
  have hlength := hwithin.stop_le
  intro hblind
  cases hblind with
  | before hone | replaced hone | behind hone => exact hlines hone
  | firstLine _ hline hi =>
    have hbefore : (positionAt text i).Before (positionAt text c.start) := positionAt_before hi (by omega)
    unfold Position.Before at hbefore
    omega
  | lastLine _ hline _ hi =>
    have hbefore := positionAt_before hi hlength
    unfold Position.Before at hbefore
    omega
  | columns _ _ _ hcol => exact hcol (hend.trans hstop.symm)

end batch

end TddyCoder.Restructure
