/-
  TddyCoder.Text.Editing — lines and columns of a text, and where its characters go when
  parts of it are replaced.

  A position is a line and a column, both from 1; `positionAt` is the one of an index. A cut
  replaces the characters from one index up to another. Cuts that do not overlap can be made
  from the last to the first, each with the indices of the original text, or from the first
  to the last, each moved along by those before it (`cutAll_cons`, `followAll_cons`).
-/

import Mathlib.Data.List.Basic

namespace TddyCoder.Text

open List

@[ext]
structure Position where
  line : Nat
  col : Nat
  deriving DecidableEq

def Position.Before (p q : Position) : Prop := p.line < q.line ∨ p.line = q.line ∧ p.col < q.col

instance (p q : Position) : Decidable (p.Before q) := inferInstanceAs (Decidable (_ ∨ _))

def advance : Position → List Char → Position
  | p, [] => p
  | p, c :: text => advance (if c = '\n' then ⟨p.line + 1, 1⟩ else ⟨p.line, p.col + 1⟩) text

def positionAt (text : List Char) (i : Nat) : Position := advance ⟨1, 1⟩ (text.take i)

/-! ## Positions -/

variable (p : Position)

theorem advance_append (u v : List Char) : advance p (u ++ v) = advance (advance p u) v := by
  induction u generalizing p with
  | nil => rfl
  | cons c u ih => exact ih _

theorem advance_newline (v : List Char) : advance p ('\n' :: v) = advance ⟨p.line + 1, 1⟩ v := by
  rw [advance, if_pos rfl]

theorem advance_line (v : List Char) : (advance p v).line = p.line + v.count '\n' := by
  induction v generalizing p with
  | nil => rfl
  | cons c v ih =>
    by_cases hc : c = '\n'
    · simp only [advance, hc, ↓reduceIte, ih, count_cons_self]
      omega
    · simp [advance, hc, ih]

variable {v : List Char}

theorem advance_same_line (hv : v.count '\n' = 0) :
    advance p v = ⟨p.line, p.col + v.length⟩ := by
  induction v generalizing p with
  | nil => rfl
  | cons c v ih =>
    have hc : c ≠ '\n' := by
      rintro rfl
      simp at hv
    have hv' : v.count '\n' = 0 := by simpa [hc] using hv
    simp only [advance, hc, ↓reduceIte, ih _ hv', length_cons]
    congr 1
    omega

theorem advance_col (q : Position) (hv : 0 < v.count '\n') :
    (advance p v).col = (advance q v).col := by
  induction v generalizing p q with
  | nil => simp at hv
  | cons c v ih =>
    by_cases hc : c = '\n'
    · by_cases hrest : v.count '\n' = 0
      · simp [advance, hc, advance_same_line _ hrest]
      · simp only [advance, hc, ↓reduceIte]
        exact ih _ _ (Nat.pos_of_ne_zero hrest)
    · simp only [advance, hc, ↓reduceIte]
      exact ih _ _ (by simpa [hc] using hv)

theorem advance_col_pos {p : Position} (hp : 1 ≤ p.col) (v : List Char) : 1 ≤ (advance p v).col := by
  induction v generalizing p with
  | nil => exact hp
  | cons c v ih =>
    refine ih ?_
    split
    · exact Nat.le_refl 1
    · exact Nat.le_add_left 1 _

theorem before_advance (hv : v ≠ []) : p.Before (advance p v) := by
  by_cases hcount : v.count '\n' = 0
  · rw [advance_same_line p hcount]
    have hlength : 0 < v.length := length_pos_iff.mpr hv
    exact .inr ⟨rfl, by simp only; omega⟩
  · exact .inl (by rw [advance_line]; omega)

section indices

variable {text : List Char} {i j : Nat}

theorem positionAt_advance (hij : i ≤ j) : positionAt text j = advance (positionAt text i) ((text.take j).drop i) := by
  have hsplit : text.take j = text.take i ++ (text.take j).drop i := by
    conv_lhs => rw [← take_append_drop i (text.take j)]
    rw [take_take, Nat.min_eq_left hij]
  unfold positionAt
  conv_lhs => rw [hsplit]
  exact advance_append _ _ _

theorem positionAt_col_pos (text : List Char) (i : Nat) : 1 ≤ (positionAt text i).col := advance_col_pos (Nat.le_refl 1) _

theorem positionAt_line_le (hij : i ≤ j) : (positionAt text i).line ≤ (positionAt text j).line := by
  rw [positionAt_advance hij, advance_line]
  exact Nat.le_add_right _ _

theorem positionAt_before (hij : i < j) (hj : j ≤ text.length) : (positionAt text i).Before (positionAt text j) := by
  rw [positionAt_advance (Nat.le_of_lt hij)]
  refine before_advance _ fun hnil => ?_
  have hlength := congrArg List.length hnil
  simp only [length_drop, length_take, length_nil] at hlength
  omega

theorem positionAt_take (text : List Char) (hij : i ≤ j) : positionAt (text.take j) i = positionAt text i := by
  rw [positionAt, positionAt, take_take, Nat.min_eq_left hij]

theorem positionAt_congr {text' : List Char} (hij : i ≤ j) (h : text'.take j = text.take j) :
    positionAt text' i = positionAt text i := by
  rw [← positionAt_take text' hij, h, positionAt_take text hij]

theorem positionAt_col (hij : i ≤ j) (hj : j ≤ text.length) (hline : (positionAt text i).line = (positionAt text j).line) :
    (positionAt text j).col = (positionAt text i).col + (j - i) := by
  rw [positionAt_advance hij] at hline ⊢
  rw [advance_line] at hline
  have hcount : ((text.take j).drop i).count '\n' = 0 := by omega
  rw [advance_same_line _ hcount, length_drop, length_take, Nat.min_eq_left hj]

end indices

/-! ## Cuts -/

structure Cut where
  start : Nat
  stop : Nat
  newText : List Char

variable {i : Nat}

namespace Cut

def apply (c : Cut) (text : List Char) : List Char := text.take c.start ++ c.newText ++ text.drop c.stop

def past (c : Cut) (i : Nat) : Nat := c.start + c.newText.length + (i - c.stop)

def follow (c : Cut) (i : Nat) : Option Nat :=
  if i < c.start then some i else if i < c.stop then none else some (c.past i)

/-- The cut lies behind `c`; this is the same cut after `c` is made. -/
def after (c d : Cut) : Cut := ⟨c.past d.start, c.past d.stop, d.newText⟩

variable {c : Cut}

theorem follow_before (h : i < c.start) : c.follow i = some i := if_pos h

theorem follow_cut (hstart : c.start ≤ i) (hstop : i < c.stop) : c.follow i = none := by
  rw [follow, if_neg (Nat.not_lt.mpr hstart), if_pos hstop]

theorem follow_past (hle : c.start ≤ c.stop) (hstop : c.stop ≤ i) : c.follow i = some (c.past i) := by
  rw [follow, if_neg (by omega), if_neg (Nat.not_lt.mpr hstop)]

structure Within (c : Cut) (text : List Char) : Prop where
  le : c.start ≤ c.stop
  stop_le : c.stop ≤ text.length

variable {c d : Cut} {text : List Char} {i : Nat}

section

variable (h : c.Within text)
include h

theorem Within.length :
    (c.apply text).length = c.start + c.newText.length + (text.length - c.stop) := by
  have hle := h.le
  have hstop := h.stop_le
  simp only [apply, length_append, length_take, length_drop]
  omega

theorem Within.take_apply (hi : i ≤ c.start) : (c.apply text).take i = text.take i := by
  have hle := h.le
  have hstop := h.stop_le
  rw [apply, append_assoc, take_append_of_le_length (by rw [length_take]; omega), take_take,
    Nat.min_eq_left hi]

theorem Within.length_start :
    (text.take c.start ++ c.newText).length = c.start + c.newText.length := by
  have hle := h.le
  have hstop := h.stop_le
  simp only [length_append, length_take]
  omega

theorem Within.drop_apply (hi : c.stop ≤ i) : (c.apply text).drop (c.past i) = text.drop i := by
  have hpast : c.past i = (text.take c.start ++ c.newText).length + (i - c.stop) := by rw [h.length_start, past]
  rw [apply, hpast, drop_length_add_append, drop_drop]
  congr 1
  omega

theorem Within.positionAt_before (hi : i ≤ c.start) :
    positionAt (c.apply text) i = positionAt text i :=
  positionAt_congr hi (h.take_apply (Nat.le_refl _))

theorem Within.take_past (i : Nat) :
    (c.apply text).take (c.past i) = text.take c.start ++ c.newText ++ (text.take i).drop c.stop := by
  rw [apply, past, ← h.length_start, take_length_add_append, drop_take]

theorem Within.positionAt_past (i : Nat) :
    positionAt (c.apply text) (c.past i) =
      advance (advance (positionAt text c.start) c.newText) ((text.take i).drop c.stop) := by
  rw [positionAt, h.take_past, advance_append, advance_append]
  rfl

theorem Within.line_past (hi : c.stop ≤ i) :
    (positionAt (c.apply text) (c.past i)).line + (positionAt text c.stop).line =
      (positionAt text i).line + (positionAt text c.start).line + c.newText.count '\n' := by
  rw [h.positionAt_past, positionAt_advance hi]
  simp only [advance_line]
  omega

theorem Within.positionAt_end :
    positionAt (c.apply text) (c.past c.stop) = advance (positionAt text c.start) c.newText := by
  rw [h.positionAt_past, drop_take_self]
  rfl

theorem Within.col_past_line (hi : c.stop ≤ i)
    (hline : (positionAt text i).line = (positionAt text c.stop).line) :
    (positionAt (c.apply text) (c.past i)).col + (positionAt text c.stop).col =
      (positionAt text i).col + (positionAt (c.apply text) (c.past c.stop)).col := by
  rw [positionAt_advance hi, advance_line] at hline
  have hcount : ((text.take i).drop c.stop).count '\n' = 0 := by omega
  rw [h.positionAt_end, h.positionAt_past, positionAt_advance hi, advance_same_line _ hcount, advance_same_line _ hcount]
  simp only
  omega

theorem Within.col_past (hi : c.stop ≤ i)
    (hstay : (positionAt text i).line = (positionAt text c.stop).line →
      (positionAt (c.apply text) (c.past c.stop)).col = (positionAt text c.stop).col) :
    (positionAt (c.apply text) (c.past i)).col = (positionAt text i).col := by
  by_cases hline : (positionAt text i).line = (positionAt text c.stop).line
  · have hcol := h.col_past_line hi hline
    omega
  · rw [positionAt_advance hi, advance_line] at hline
    rw [h.positionAt_past, positionAt_advance hi]
    exact advance_col _ _ (by omega)

theorem Within.getElem?_follow {j : Nat} (hj : c.follow i = some j) :
    (c.apply text)[j]? = text[i]? := by
  unfold follow at hj
  split_ifs at hj with hbefore hcut
  · cases hj
    have htake := h.take_apply (Nat.le_refl c.start)
    rw [← getElem?_take_of_lt hbefore, htake, getElem?_take_of_lt hbefore]
  · cases hj
    have hdrop := congrArg (·[0]?) (h.drop_apply (Nat.le_of_not_lt hcut))
    simpa using hdrop

end

/-! Two cuts, the second behind the first. -/

theorem Within.after (hc : c.Within text) (hd : d.Within text) (hcd : c.stop ≤ d.start) :
    (c.after d).Within (c.apply text) := by
  have hle := hd.le
  have hstop := hd.stop_le
  refine ⟨?_, ?_⟩
  · simp only [Cut.after, past]
    omega
  · rw [hc.length]
    simp only [Cut.after, past]
    omega

theorem apply_comm (hc : c.Within text) (hd : d.Within text) (hcd : c.stop ≤ d.start) :
    c.apply (d.apply text) = (c.after d).apply (c.apply text) := by
  have hle := hc.le
  have hstop := hd.stop_le
  have hdle := hd.le
  have hbetween : (d.apply text).drop c.stop = (text.take d.start).drop c.stop ++ d.newText ++ text.drop d.stop := by
    rw [apply, append_assoc, drop_append_of_le_length (by rw [length_take]; omega), append_assoc]
  calc c.apply (d.apply text)
      = (d.apply text).take c.start ++ c.newText ++ (d.apply text).drop c.stop := rfl
    _ = text.take c.start ++ c.newText ++ (text.take d.start).drop c.stop ++ d.newText ++ text.drop d.stop := by
      rw [hd.take_apply (by omega), hbetween]
      simp only [append_assoc]
    _ = (c.apply text).take (c.past d.start) ++ d.newText ++ (c.apply text).drop (c.past d.stop) := by
      rw [hc.take_past, hc.drop_apply (by omega)]
    _ = (c.after d).apply (c.apply text) := rfl

theorem follow_comm (hc : c.start ≤ c.stop) (hd : d.start ≤ d.stop) (hcd : c.stop ≤ d.start) (i : Nat) :
    (d.follow i).bind c.follow = (c.follow i).bind (c.after d).follow := by
  have hmono : ∀ {i j}, c.stop ≤ i → i < j → c.past i < c.past j := by
    intro i j hi hij
    simp only [past]
    omega
  by_cases hbefore : i < d.start
  · rw [follow_before hbefore, Option.bind_some]
    by_cases hc₁ : i < c.start
    · have hstart : i < (c.after d).start := by
        simp only [after, past]
        omega
      rw [follow_before hc₁, Option.bind_some, follow_before hstart]
    by_cases hc₂ : i < c.stop
    · rw [follow_cut (Nat.le_of_not_lt hc₁) hc₂, Option.bind_none]
    · rw [follow_past hc (Nat.le_of_not_lt hc₂), Option.bind_some]
      exact (follow_before (hmono (Nat.le_of_not_lt hc₂) hbefore)).symm
  · have hi : c.stop ≤ i := by omega
    rw [follow_past hc hi, Option.bind_some]
    by_cases hcut : i < d.stop
    · rw [follow_cut (Nat.le_of_not_lt hbefore) hcut, Option.bind_none]
      refine (follow_cut ?_ (hmono hi hcut)).symm
      simp only [after, past]
      omega
    have hd₁ : c.stop ≤ d.past i := by
      simp only [past]
      omega
    rw [follow_past hd (Nat.le_of_not_lt hcut), Option.bind_some, follow_past hc hd₁, follow_past]
    all_goals
      simp only [after, past, Option.some.injEq]
      omega

end Cut

/-! ## Cuts that do not overlap -/

/-- The cuts of a text from the last to the first. -/
def cutAll (cuts : List Cut) (text : List Char) : List Char := cuts.foldr Cut.apply text

def followAll : List Cut → Nat → Option Nat
  | [], i => some i
  | c :: cuts, i => (followAll cuts i).bind c.follow

/-- The cuts are within the text, each behind the one before it. -/
structure Cuts (cuts : List Cut) (text : List Char) : Prop where
  within : ∀ c ∈ cuts, c.Within text
  apart : cuts.Pairwise fun c d => c.stop ≤ d.start

namespace Cuts

variable {cuts : List Cut} {c : Cut} {text : List Char}

theorem tail (h : Cuts (c :: cuts) text) : Cuts cuts text :=
  ⟨fun d hd => h.within d (mem_cons_of_mem c hd), (pairwise_cons.mp h.apart).2⟩

theorem head_stop (h : Cuts (c :: cuts) text) : ∀ d ∈ cuts, c.stop ≤ d.start := (pairwise_cons.mp h.apart).1

theorem without_second {d : Cut} (h : Cuts (c :: d :: cuts) text) : Cuts (c :: cuts) text := by
  refine ⟨fun e he => h.within e ?_, pairwise_cons.mpr ⟨fun e he => h.head_stop e (mem_cons_of_mem d he), ?_⟩⟩
  · rcases mem_cons.mp he with rfl | he
    · exact mem_cons_self
    · exact mem_cons_of_mem _ (mem_cons_of_mem _ he)
  · exact h.tail.tail.apart

theorem take_cutAll (h : Cuts cuts text) (hi : i ≤ text.length) (hbefore : ∀ c ∈ cuts, i ≤ c.start) :
    i ≤ (cutAll cuts text).length ∧ (cutAll cuts text).take i = text.take i := by
  induction cuts generalizing i with
  | nil => exact ⟨hi, rfl⟩
  | cons c cuts ih =>
    obtain ⟨-, htake⟩ := ih h.tail hi fun d hd => hbefore d (mem_cons_of_mem c hd)
    have hc := h.within c mem_cons_self
    have hwithin : c.Within (cutAll cuts text) := ⟨hc.le, (ih h.tail hc.stop_le h.head_stop).1⟩
    have hstart := hbefore c mem_cons_self
    refine ⟨?_, (hwithin.take_apply hstart).trans htake⟩
    rw [show cutAll (c :: cuts) text = c.apply (cutAll cuts text) from rfl, hwithin.length]
    omega

section

variable (h : Cuts (c :: cuts) text)
include h

theorem head_within : c.Within (cutAll cuts text) :=
  ⟨(h.within c mem_cons_self).le, (h.tail.take_cutAll (h.within c mem_cons_self).stop_le h.head_stop).1⟩

theorem after : Cuts (cuts.map c.after) (c.apply text) := by
  refine ⟨fun moved hmoved => ?_, ?_⟩
  · obtain ⟨d, hd, rfl⟩ := mem_map.mp hmoved
    exact (h.within c mem_cons_self).after (h.within d (mem_cons_of_mem c hd)) (h.head_stop d hd)
  rw [pairwise_map]
  refine h.tail.apart.imp fun hde => ?_
  simp only [Cut.after, Cut.past]
  omega

/-- Making the first cut first moves the others along. -/
theorem cutAll_cons : cutAll (c :: cuts) text = cutAll (cuts.map c.after) (c.apply text) := by
  induction cuts with
  | nil => rfl
  | cons d cuts ih =>
    have hcd := h.head_stop d mem_cons_self
    calc cutAll (c :: d :: cuts) text
        = c.apply (d.apply (cutAll cuts text)) := rfl
      _ = (c.after d).apply (c.apply (cutAll cuts text)) :=
        Cut.apply_comm h.without_second.head_within h.tail.head_within hcd
      _ = (c.after d).apply (cutAll (cuts.map c.after) (c.apply text)) := congrArg _ (ih h.without_second)

theorem followAll_cons (i : Nat) :
    followAll (c :: cuts) i = (c.follow i).bind (followAll (cuts.map c.after)) := by
  induction cuts with
  | nil => simp [followAll]
  | cons d cuts ih =>
    have hc := (h.within c mem_cons_self).le
    have hd := (h.tail.within d mem_cons_self).le
    have hcd := h.head_stop d mem_cons_self
    calc followAll (c :: d :: cuts) i
        = (followAll cuts i).bind fun j => (d.follow j).bind c.follow := Option.bind_assoc _ _ _
      _ = (followAll cuts i).bind fun j => (c.follow j).bind (c.after d).follow := by
        simp only [Cut.follow_comm hc hd hcd]
      _ = (followAll (c :: cuts) i).bind (c.after d).follow := (Option.bind_assoc _ _ _).symm
      _ = (c.follow i).bind fun j => (followAll (cuts.map c.after) j).bind (c.after d).follow := by
        rw [ih h.without_second, Option.bind_assoc]

end

theorem getElem?_followAll (h : Cuts cuts text) {j : Nat} (hj : followAll cuts i = some j) :
    (cutAll cuts text)[j]? = text[i]? := by
  induction cuts generalizing j with
  | nil =>
    cases hj
    rfl
  | cons c cuts ih =>
    obtain ⟨k, hk, hjk⟩ := Option.bind_eq_some_iff.mp hj
    exact (h.head_within.getElem?_follow hjk).trans (ih h.tail hk)

end Cuts

end TddyCoder.Text
