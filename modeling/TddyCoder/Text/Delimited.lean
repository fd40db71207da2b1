/-
  TddyCoder.Text.Delimited — texts that are written one after another and read back apart.

  An encoding is self-delimiting on the values it is used for when what it writes ends where
  the reader sees it end, whatever follows (`SelfDelimiting`); a list of such texts can be
  read back (`flatMap_injective`). Two texts that are equal are cut alike at a mark that
  none of them contains before it (`append_cons_inj_first`) or behind it
  (`append_cons_inj_last`), and at a delimiter that begins with such a mark
  (`cut_delimiter`).
-/

import Mathlib.Data.List.Basic

namespace TddyCoder.Text

open List

variable {α β : Type} {P : β → Prop} {mark : α} {xs ys : List β} {enc : β → String} {c : Char}

/-- Cut at the first mark: what stands before it does not contain it. -/
theorem append_cons_inj_first {x y rest rest' : List α} (hx : mark ∉ x) (hy : mark ∉ y)
    (h : x ++ mark :: rest = y ++ mark :: rest') : x = y ∧ rest = rest' := by
  induction x generalizing y with
  | nil =>
    cases y with
    | nil => exact ⟨rfl, by simpa using h⟩
    | cons b y => exact absurd (by simp_all) hy
  | cons a x ih =>
    cases y with
    | nil => exact absurd (by simp_all) hx
    | cons b y =>
      obtain ⟨rfl, htail⟩ := cons_eq_cons.mp h
      obtain ⟨rfl, rfl⟩ := ih (not_mem_of_not_mem_cons hx) (not_mem_of_not_mem_cons hy) htail
      exact ⟨rfl, rfl⟩

theorem append_cons_inj_last {x y rest rest' : List α} (hrest : mark ∉ rest) (hrest' : mark ∉ rest')
    (h : x ++ mark :: rest = y ++ mark :: rest') : x = y ∧ rest = rest' := by
  have hreverse : rest.reverse ++ mark :: x.reverse = rest'.reverse ++ mark :: y.reverse := by
    simpa using congrArg List.reverse h
  obtain ⟨hsame, hbefore⟩ := append_cons_inj_first (by simpa using hrest) (by simpa using hrest') hreverse
  exact ⟨reverse_injective hbefore, reverse_injective hsame⟩

/-- On the values that meet `P`, what is written can be told from what follows. -/
def SelfDelimiting (P : β → Prop) (enc : β → List α) : Prop :=
  ∀ (x y : β) (rest rest' : List α), P x → P y → enc x ++ rest = enc y ++ rest' → x = y ∧ rest = rest'

/-- A list of texts, none of them empty, is read back one by one. -/
theorem SelfDelimiting.flatMap_injective {enc : β → List α} (h : SelfDelimiting P enc)
    (hne : ∀ x, enc x ≠ []) (hxs : ∀ x ∈ xs, P x) (hys : ∀ y ∈ ys, P y)
    (heq : xs.flatMap enc = ys.flatMap enc) : xs = ys := by
  induction xs generalizing ys with
  | nil =>
    cases ys with
    | nil => rfl
    | cons y ys => exact absurd (append_eq_nil_iff.mp heq.symm).1 (hne y)
  | cons x xs ih =>
    cases ys with
    | nil => exact absurd (append_eq_nil_iff.mp heq).1 (hne x)
    | cons y ys =>
      obtain ⟨rfl, hrest⟩ := h x y _ _ (hxs x mem_cons_self) (hys y mem_cons_self) heq
      rw [ih (fun z hz => hxs z (mem_cons_of_mem _ hz)) (fun z hz => hys z (mem_cons_of_mem _ hz)) hrest]

theorem SelfDelimiting.terminated {enc : β → List α} (h : SelfDelimiting P enc)
    (hmark : ∀ x, ∃ c text, enc x = c :: text ∧ c ≠ mark) :
    SelfDelimiting (fun xs : List β => ∀ x ∈ xs, P x) fun xs => xs.flatMap enc ++ [mark] := by
  intro xs ys rest rest' hxs hys heq
  simp only [append_assoc, singleton_append] at heq
  induction xs generalizing ys with
  | nil =>
    cases ys with
    | nil => exact ⟨rfl, by simpa using heq⟩
    | cons y ys =>
      obtain ⟨c, text, henc, hne⟩ := hmark y
      simp only [flatMap_nil, flatMap_cons, henc, nil_append, cons_append] at heq
      exact absurd (cons_eq_cons.mp heq).1.symm hne
  | cons x xs ih =>
    cases ys with
    | nil =>
      obtain ⟨c, text, henc, hne⟩ := hmark x
      simp only [flatMap_nil, flatMap_cons, henc, nil_append, cons_append] at heq
      exact absurd (cons_eq_cons.mp heq).1 hne
    | cons y ys =>
      simp only [flatMap_cons, append_assoc] at heq
      obtain ⟨rfl, hrest⟩ := h x y _ _ (hxs x mem_cons_self) (hys y mem_cons_self) heq
      obtain ⟨rfl, rfl⟩ := ih _ (fun z hz => hxs z (mem_cons_of_mem _ hz))
        (fun z hz => hys z (mem_cons_of_mem _ hz)) hrest
      exact ⟨rfl, rfl⟩

theorem SelfDelimiting.join_injective (h : SelfDelimiting P fun x => (enc x).toList)
    (hne : ∀ x, (enc x).toList ≠ []) (hxs : ∀ x ∈ xs, P x) (hys : ∀ y ∈ ys, P y)
    (heq : String.join (xs.map enc) = String.join (ys.map enc)) : xs = ys := by
  have hchars := congrArg String.toList heq
  rw [String.toList_join, String.toList_join, flatMap_map, flatMap_map] at hchars
  exact h.flatMap_injective hne hxs hys hchars

theorem not_mem_join (h : ∀ x ∈ xs, c ∉ (enc x).toList) :
    c ∉ (String.join (xs.map enc)).toList := by
  rw [String.toList_join, flatMap_map, mem_flatMap]
  rintro ⟨x, hx, hc⟩
  exact h x hx hc

theorem cut_delimiter {mark : Char} {delimiter x y rest rest' : String} (hmark : delimiter.toList.head? = some mark)
    (hx : mark ∉ x.toList) (hy : mark ∉ y.toList) (h : x ++ (delimiter ++ rest) = y ++ (delimiter ++ rest')) :
    x = y ∧ rest = rest' := by
  obtain ⟨tail, htail⟩ := head?_eq_some_iff.mp hmark
  have hchars := congrArg String.toList h
  simp only [String.toList_append, htail, cons_append] at hchars
  obtain ⟨hsame, hrest⟩ := append_cons_inj_first hx hy hchars
  exact ⟨String.toList_inj.mp hsame, String.toList_inj.mp (append_cancel_left hrest)⟩

theorem digits_injective {m n : Nat} (h : Nat.toDigits 10 m = Nat.toDigits 10 n) : m = n := by
  rw [← Nat.ofDigitChars_ten_toDigits (n := m), h, Nat.ofDigitChars_ten_toDigits]

theorem not_mem_digits (hc : c.isDigit = false) (n : Nat) : c ∉ Nat.toDigits 10 n := by
  intro hmem
  have hdigit : c.isDigit = true := Nat.isDigit_of_mem_toDigits (by omega) (by omega) hmem
  rw [hc] at hdigit
  cases hdigit

end TddyCoder.Text
