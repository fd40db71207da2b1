/-
  TddyCoder.Text.Sections — text cut into lines, and lines into sections that each begin with
  a header line.

  `splitInclusive` keeps each line's terminator, so the lines put back together are the text;
  only the last line can lack one. Sections are cut as a program with offsets cuts them
  (`starts`, then `slices`), and also by walking the lines (`cut`); the two agree
  (`slices_starts`). A section does not depend on its neighbours: any selection of a text's
  sections, put together, is cut into exactly that selection (`sections_of_selection`).
-/

import Mathlib.Data.List.Basic
import Mathlib.Data.List.Flatten

namespace TddyCoder.Text

open List

variable {α : Type} [DecidableEq α]

/-! ## Lines -/

def splitInclusive (nl : α) : List α → List (List α)
  | [] => []
  | x :: xs =>
    if x = nl then [x] :: splitInclusive nl xs
    else match splitInclusive nl xs with
      | [] => [[x]]
      | line :: lines => (x :: line) :: lines

/-- Every line ends with its only terminator, but for a last one that has none. -/
inductive Ruled (nl : α) : List (List α) → Prop
  | nil : Ruled nl []
  | last {line : List α} : line ≠ [] → nl ∉ line → Ruled nl [line]
  | cons {line : List α} {lines : List (List α)} : nl ∉ line → Ruled nl lines → Ruled nl ((line ++ [nl]) :: lines)

theorem splitInclusive_flatten (nl : α) (xs : List α) : (splitInclusive nl xs).flatten = xs := by
  induction xs with
  | nil => rfl
  | cons x xs ih =>
    unfold splitInclusive
    split
    · simp [ih]
    · rcases h : splitInclusive nl xs with _ | ⟨line, lines⟩ <;>
      · rw [h] at ih
        simp [← ih]

theorem splitInclusive_ruled (nl : α) (xs : List α) : Ruled nl (splitInclusive nl xs) := by
  induction xs with
  | nil => exact .nil
  | cons x xs ih =>
    unfold splitInclusive
    by_cases hx : x = nl
    · rw [if_pos hx, hx]
      exact @Ruled.cons α nl [] _ not_mem_nil ih
    rw [if_neg hx]
    rcases h : splitInclusive nl xs with _ | ⟨line, lines⟩
    · exact .last (by simp) (by simpa using Ne.symm hx)
    rw [h] at ih
    cases ih with
    | last hne hnl => exact .last (by simp) (by simp [hnl, Ne.symm hx])
    | @cons line _ hnl hrest => exact @Ruled.cons α nl (x :: line) _ (by simp [hnl, Ne.symm hx]) hrest

variable {nl : α} {line : List α}

theorem splitInclusive_terminated (h : nl ∉ line) (xs : List α) :
    splitInclusive nl (line ++ nl :: xs) = (line ++ [nl]) :: splitInclusive nl xs := by
  induction line with
  | nil => simp [splitInclusive]
  | cons x line ih =>
    rw [mem_cons, not_or] at h
    rw [cons_append, splitInclusive, if_neg (Ne.symm h.1), ih h.2]
    rfl

theorem splitInclusive_unterminated (hne : line ≠ []) (h : nl ∉ line) :
    splitInclusive nl line = [line] := by
  induction line with
  | nil => exact absurd rfl hne
  | cons x line ih =>
    rw [mem_cons, not_or] at h
    rw [splitInclusive, if_neg (Ne.symm h.1)]
    rcases line with _ | ⟨y, line⟩
    · rfl
    · rw [ih (by simp) h.2]

theorem prefix_firstLine {pre : List α} (h : nl ∉ pre) (hne : pre ≠ []) (text : List α) :
    pre <+: text ↔ ∃ line lines, splitInclusive nl text = line :: lines ∧ pre <+: line := by
  induction pre generalizing text with
  | nil => exact absurd rfl hne
  | cons p pre ih =>
    rw [mem_cons, not_or] at h
    rcases text with _ | ⟨x, xs⟩
    · simp [splitInclusive]
    unfold splitInclusive
    by_cases hx : x = nl
    · have hp : p ≠ x := fun e => h.1 (hx.symm.trans e.symm)
      simp [hx ▸ hp, hx]
    rw [if_neg hx]
    rcases pre with _ | ⟨q, pre⟩
    · rcases splitInclusive nl xs with _ | ⟨line, lines⟩ <;> simp
    have ih' := ih h.2 (by simp) xs
    rcases hs : splitInclusive nl xs with _ | ⟨line, lines⟩ <;>
    · rw [hs] at ih'
      simp only [cons_prefix_cons, ih']
      simp

variable {lines : List (List α)}

theorem Ruled.splitInclusive (h : Ruled nl lines) : splitInclusive nl lines.flatten = lines := by
  induction h with
  | nil => rfl
  | last hne hnl =>
    rw [flatten_singleton]
    exact splitInclusive_unterminated hne hnl
  | cons hnl _ ih =>
    rw [flatten_cons, append_assoc, singleton_append, splitInclusive_terminated hnl, ih]

omit [DecidableEq α] in
theorem Ruled.sublist {lines' : List (List α)} (h : Ruled nl lines) (hs : lines'.Sublist lines) : Ruled nl lines' := by
  induction h generalizing lines' with
  | nil =>
    rw [sublist_nil.mp hs]
    exact .nil
  | last hne hnl =>
    rcases sublist_singleton.mp hs with rfl | rfl
    · exact .nil
    · exact .last hne hnl
  | cons hnl _ ih =>
    rcases sublist_cons_iff.mp hs with hs | ⟨rest, rfl, hrest⟩
    · exact ih hs
    · exact .cons hnl (ih hrest)

/-! ## Sections -/

def cut {β : Type} (isHeader : β → Bool) : List β → List β × List (List β)
  | [] => ([], [])
  | line :: lines =>
    if isHeader line then ([], (line :: (cut isHeader lines).1) :: (cut isHeader lines).2)
    else (line :: (cut isHeader lines).1, (cut isHeader lines).2)

def starts (isHeader : List α → Bool) : Nat → List (List α) → List Nat
  | _, [] => []
  | offset, line :: lines =>
    if isHeader line then offset :: starts isHeader (offset + line.length) lines
    else starts isHeader (offset + line.length) lines

def slices (text : List α) : List Nat → List (List α)
  | [] => []
  | [start] => [text.drop start]
  | start :: stop :: rest => (text.drop start).take (stop - start) :: slices text (stop :: rest)

section Cut

variable {β : Type} {isHeader : β → Bool} (lines : List β)

theorem cut_flatten : (cut isHeader lines).1 ++ (cut isHeader lines).2.flatten = lines := by
  induction lines with
  | nil => rfl
  | cons line lines ih =>
    unfold cut
    split <;> simp [ih]

/-- Each section is a header and lines that are none. -/
def Headed (isHeader : β → Bool) (sections : List (List β)) : Prop :=
  ∀ s ∈ sections, ∃ line lines, s = line :: lines ∧ isHeader line = true ∧ ∀ l ∈ lines, isHeader l = false

theorem cut_headed :
    (∀ l ∈ (cut isHeader lines).1, isHeader l = false) ∧ Headed isHeader (cut isHeader lines).2 := by
  induction lines with
  | nil =>
    refine ⟨?_, ?_⟩
    · intro l hl
      cases hl
    · intro s hs
      cases hs
  | cons line lines ih =>
    unfold cut
    by_cases h : isHeader line = true
    · rw [if_pos h]
      refine ⟨?_, ?_⟩
      · intro l hl
        cases hl
      · exact forall_mem_cons.mpr ⟨⟨line, _, rfl, h, ih.1⟩, ih.2⟩
    · rw [if_neg h]
      exact ⟨forall_mem_cons.mpr ⟨by simpa using h, ih.1⟩, ih.2⟩

theorem cut_append_of_not {lines : List β} (h : ∀ l ∈ lines, isHeader l = false) (rest : List β) :
    cut isHeader (lines ++ rest) = (lines ++ (cut isHeader rest).1, (cut isHeader rest).2) := by
  induction lines with
  | nil => rfl
  | cons line lines ih =>
    have hline := h line mem_cons_self
    rw [cons_append, cut, ih fun l hl => h l (mem_cons_of_mem line hl)]
    simp [hline]

theorem Headed.cut {sections : List (List β)} (h : Headed isHeader sections) :
    cut isHeader sections.flatten = ([], sections) := by
  induction sections with
  | nil => rfl
  | cons s sections ih =>
    obtain ⟨line, lines, rfl, hline, hlines⟩ := h s mem_cons_self
    have ih' := ih fun s' hs' => h s' (mem_cons_of_mem _ hs')
    rw [flatten_cons, cons_append, Text.cut, cut_append_of_not hlines, ih']
    simp [hline]

end Cut

variable {isHeader : List α → Bool} {offset : Nat}

omit [DecidableEq α] in
theorem starts_head {start : Nat} {rest : List Nat}
    (h : starts isHeader offset lines = start :: rest) : start = offset + (cut isHeader lines).1.flatten.length := by
  induction lines generalizing offset with
  | nil => cases h
  | cons line lines ih =>
    unfold starts at h
    unfold cut
    by_cases hline : isHeader line = true
    · rw [if_pos hline] at h ⊢
      cases h
      rfl
    · rw [if_neg hline] at h ⊢
      rw [ih h]
      simp [Nat.add_assoc]

omit [DecidableEq α] in
theorem starts_eq_nil (h : starts isHeader offset lines = []) : cut isHeader lines = (lines, []) := by
  induction lines generalizing offset with
  | nil => rfl
  | cons line lines ih =>
    unfold starts at h
    unfold cut
    by_cases hline : isHeader line = true
    · rw [if_pos hline] at h
      cases h
    · rw [if_neg hline] at h ⊢
      rw [ih h]

omit [DecidableEq α] in
theorem slices_starts (before : List α) (lines : List (List α)) :
    slices (before ++ lines.flatten) (starts isHeader before.length lines) =
      (cut isHeader lines).2.map List.flatten := by
  induction lines generalizing before with
  | nil => rfl
  | cons line lines ih =>
    have ih' := ih (before ++ line)
    rw [length_append, append_assoc, ← flatten_cons] at ih'
    unfold starts cut
    by_cases hline : isHeader line = true
    · rw [if_pos hline, if_pos hline, map_cons]
      rcases hrest : starts isHeader (before.length + line.length) lines with _ | ⟨stop, rest⟩
      · rw [hrest] at ih'
        simp [slices, starts_eq_nil hrest]
      rw [hrest] at ih'
      have hstop := starts_head hrest
      have hlines : ((cut isHeader lines).1 ++ (cut isHeader lines).2.flatten).flatten = lines.flatten :=
        congrArg List.flatten (cut_flatten lines)
      have htext : (line :: lines).flatten =
          (line ++ (cut isHeader lines).1.flatten) ++ (cut isHeader lines).2.flatten.flatten := by
        rw [flatten_cons, ← hlines, flatten_append, append_assoc]
      have hlen : stop - before.length = (line ++ (cut isHeader lines).1.flatten).length := by
        rw [length_append]
        omega
      rw [slices, ih', drop_left, hlen, htext, take_left, flatten_cons]
    · rw [if_neg hline, if_neg hline]
      exact ih'

def sections (nl : α) (isHeader : List α → Bool) (text : List α) : List (List α) :=
  slices text (starts isHeader 0 (splitInclusive nl text))

def preamble (nl : α) (isHeader : List α → Bool) (text : List α) : List α :=
  (cut isHeader (splitInclusive nl text)).1.flatten

theorem sections_eq_cut (nl : α) (text : List α) :
    sections nl isHeader text = (cut isHeader (splitInclusive nl text)).2.map List.flatten := by
  have h : slices ([] ++ (splitInclusive nl text).flatten) (starts isHeader 0 (splitInclusive nl text)) = _ :=
    slices_starts [] (splitInclusive nl text)
  rw [nil_append, splitInclusive_flatten] at h
  exact h

theorem preamble_eq_nil (nl : α) (text : List α) :
    preamble nl isHeader text = [] ↔
      text = [] ∨ ∃ line lines, splitInclusive nl text = line :: lines ∧ isHeader line = true := by
  have htext := splitInclusive_flatten nl text
  have hruled := splitInclusive_ruled nl text
  rcases h : splitInclusive nl text with _ | ⟨line, lines⟩
  · rw [h] at htext
    simp [← htext, preamble, splitInclusive, cut]
  rw [h] at htext hruled
  have hne : line ≠ [] := by
    cases hruled with
    | last hne _ => exact hne
    | cons => simp
  have htext' : text ≠ [] := by
    rw [← htext]
    simp [hne]
  by_cases hline : isHeader line = true <;> simp [preamble, h, cut, hline, hne, htext']

theorem preamble_sections (nl : α) (text : List α) :
    preamble nl isHeader text ++ (sections nl isHeader text).flatten = text := by
  have h := congrArg List.flatten (cut_flatten (splitInclusive nl text) : (cut isHeader _).1 ++ _ = _)
  rw [flatten_append, splitInclusive_flatten] at h
  rw [sections_eq_cut, ← flatten_flatten]
  exact h

/-- Any selection of a text's sections is cut into that selection again. -/
theorem sections_of_selection {text : List α} {selected : List (List α)}
    (h : selected.Sublist (sections nl isHeader text)) :
    sections nl isHeader selected.flatten = selected ∧ preamble nl isHeader selected.flatten = [] := by
  rw [sections_eq_cut] at h
  obtain ⟨chosen, hchosen, rfl⟩ := sublist_map_iff.mp h
  have hheaded : Headed isHeader chosen := fun s hs => (cut_headed (splitInclusive nl text)).2 s (hchosen.subset hs)
  have hsub : chosen.flatten.Sublist (splitInclusive nl text) := by
    have hright := sublist_append_right (cut isHeader (splitInclusive nl text)).1
      (cut isHeader (splitInclusive nl text)).2.flatten
    rw [cut_flatten] at hright
    exact (Sublist.flatten hchosen).trans hright
  have hlines := ((splitInclusive_ruled nl text).sublist hsub).splitInclusive
  rw [flatten_flatten] at hlines
  rw [sections_eq_cut, preamble, hlines, hheaded.cut]
  exact ⟨rfl, rfl⟩

end TddyCoder.Text
