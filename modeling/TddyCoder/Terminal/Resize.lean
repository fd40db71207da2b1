/-
  TddyCoder.Terminal.Resize — the resize sequence `ESC ]resize;COLS;ROWS BEL` in the input of a
  terminal (`strip_resize` of `packages/tddy-pty/src/resize.rs`, `send_input` of
  `packages/tddy-cli-sessions/src/cli_session_manager/pty_handle.rs`).

  The search ends at the first `ESC ]resize;`. What stands behind it is not looked at, be it
  malformed or a sequence that was taken out.

  Proved: `resizes_are_obeyed_iff`; the sequence behind one: `the_second_resize_is_typed`.
-/

import TddyCoder.Text.Unsigned
import TddyCoder.Text.Utf8

namespace TddyCoder.Terminal

open Text List

def resizePrefix : List UInt8 := 0x1b :: ascii "]resize;"

/-- `position` of a byte, with the slices before and behind it. -/
def cutAt (b : UInt8) : List UInt8 → Option (List UInt8 × List UInt8)
  | [] => none
  | c :: rest => if c = b then some ([], rest) else (cutAt b rest).map fun (x, y) => (c :: x, y)

def parseU16 (bytes : List UInt8) : Option Nat := (fromUtf8 bytes).bind fun cs => parseUnsigned (2 ^ 16) (String.ofList cs)

/-- The size that is named behind the prefix, and what follows the sequence. -/
def sizeIn (after : List UInt8) : Option ((Nat × Nat) × List UInt8) := do
  let (inner, rest) ← cutAt 0x07 after
  let (cols, rows) ← cutAt 0x3b inner
  let cols ← parseU16 cols
  let rows ← parseU16 rows
  pure ((cols, rows), rest)

def stripResize (data : List UInt8) : Option (Nat × Nat) × List UInt8 :=
  match (List.range (data.length - resizePrefix.length)).find? fun i => resizePrefix <+: data.drop i with
  | none => (none, data)
  | some start =>
    match sizeIn (data.drop (start + resizePrefix.length)) with
    | none => (none, data)
    | some (size, rest) => (some size, data.take start ++ rest)

/-- A terminal's size, in columns and rows, and what its program was sent. -/
structure Pty where
  size : Nat × Nat
  stdin : List UInt8
  deriving DecidableEq

def Pty.sendInput (pty : Pty) (data : List UInt8) : Pty :=
  let (resize, remaining) := stripResize data
  { size := resize.getD pty.size, stdin := if remaining = [] then pty.stdin else pty.stdin ++ remaining }

/-! ## What is asked -/

/-- The sequence is well-formed and names this size. -/
def Names (size : Nat × Nat) (s : List UInt8) : Prop :=
  ∃ cols rows, s = resizePrefix ++ (cols ++ 0x3b :: (rows ++ [0x07])) ∧ parseU16 cols = some size.1 ∧ parseU16 rows = some size.2

/-- The size named by the sequence at the front, and what follows that. -/
def leading (data : List UInt8) : Option ((Nat × Nat) × List UInt8) :=
  if resizePrefix <+: data then sizeIn (data.drop resizePrefix.length) else none

/-- All sequences taken out, and the sizes they name; `skip` bytes belong to the last one. -/
def removal : Nat → List UInt8 → List UInt8 × List (Nat × Nat)
  | _, [] => ([], [])
  | skip + 1, _ :: rest => removal skip rest
  | 0, b :: rest =>
    match leading (b :: rest) with
    | some (size, after) => ((removal (rest.length - after.length) rest).1, size :: (removal (rest.length - after.length) rest).2)
    | none => (b :: (removal 0 rest).1, (removal 0 rest).2)

/-- The program is sent the input without its resize sequences, and the last of those is obeyed. -/
def Pty.Obeys (pty : Pty) (data : List UInt8) : Prop :=
  (pty.sendInput data).stdin = pty.stdin ++ (removal 0 data).1 ∧
    ∀ size, (removal 0 data).2.getLast? = some size → (pty.sendInput data).size = size

section

variable {data rest before : List UInt8} {size : Nat × Nat} {n : Nat} {b : UInt8}

theorem cutAt_iff {x y : List UInt8} : cutAt b data = some (x, y) ↔ data = x ++ b :: y ∧ b ∉ x := by
  induction data generalizing x with
  | nil => simp [cutAt]
  | cons c rest ih =>
    by_cases hc : c = b
    · cases x <;> simp [cutAt, hc]
      intro h _ hne
      exact absurd h hne
    · cases x <;> simp [cutAt, hc, ih]
      grind

/-- Only digits, and perhaps a sign before them. -/
theorem plain_of_parseU16 (h : parseU16 data = some n) : ∀ b ∈ data, 0x2b ≤ b.toNat ∧ b.toNat < 0x3b := by
  obtain ⟨cs, hcs, hparse⟩ := Option.bind_eq_some_iff.mp h
  obtain rfl := fromUtf8_eq_some.mp hcs
  simp only [parseUnsigned, String.toList_ofList, Option.ite_none_right_eq_some, all_eq_true, Char.isDigit,
    Bool.and_eq_true, decide_eq_true_eq, ge_iff_le, UInt32.le_iff_toNat_le] at hparse
  have hchars : ∀ c ∈ cs, 0x2b ≤ c.toNat ∧ c.toNat < 0x3b := by
    intro c hc
    by_cases hplus : c = '+'
    · subst hplus; decide
    · have hmem : c ∈ afterPlus cs := by unfold afterPlus; split <;> simp_all
      have := hparse.1.2.1 c hmem
      simp at this; omega
  intro b hb
  obtain ⟨c, hc, hb⟩ := mem_flatMap.mp hb
  have hsmall := hchars c hc
  have hone : String.utf8EncodeChar c = [UInt8.ofNat c.toNat] := by
    unfold String.utf8EncodeChar
    simp; omega
  rw [hone, mem_singleton] at hb
  subst hb
  simp; omega

theorem sizeIn_iff : sizeIn data = some (size, rest) ↔ ∃ cols rows, data = cols ++ 0x3b :: (rows ++ 0x07 :: rest) ∧
    parseU16 cols = some size.1 ∧ parseU16 rows = some size.2 := by
  simp only [sizeIn, Option.bind_eq_bind, Option.bind_eq_some_iff, Option.pure_def, Option.some.injEq, Prod.exists, Prod.mk.injEq,
    cutAt_iff]
  constructor
  · rintro ⟨inner, rest', ⟨rfl, -⟩, cols, rows, ⟨rfl, -⟩, c, hc, r, hr, rfl, rfl⟩
    exact ⟨cols, rows, by simp, hc, hr⟩
  rintro ⟨cols, rows, rfl, hc, hr⟩
  have hcols := plain_of_parseU16 hc
  have hrows := plain_of_parseU16 hr
  refine ⟨cols ++ 0x3b :: rows, rest, ⟨by simp, ?_⟩, cols, rows, ⟨rfl, ?_⟩, _, hc, _, hr, rfl, rfl⟩
  · simp only [mem_append, mem_cons, not_or]
    exact ⟨fun h => absurd (hcols _ h).1 (by decide), by decide, fun h => absurd (hrows _ h).1 (by decide)⟩
  · exact fun h => absurd (hcols _ h).2 (by decide)

theorem leading_iff : leading data = some (size, rest) ↔ ∃ s, Names size s ∧ data = s ++ rest := by
  unfold leading
  constructor
  · intro h
    split at h
    · next hpre =>
      obtain ⟨cols, rows, hdata, hc, hr⟩ := sizeIn_iff.mp h
      refine ⟨_, ⟨cols, rows, rfl, hc, hr⟩, ?_⟩
      rw [← prefix_iff_eq_append.mp hpre, hdata]; simp
    · cases h
  · rintro ⟨_, ⟨cols, rows, rfl, hc, hr⟩, rfl⟩
    rw [append_assoc, if_pos (prefix_append _ _), drop_left, sizeIn_iff]
    exact ⟨cols, rows, by simp, hc, hr⟩

/-- Behind its first byte no sequence has the one every sequence begins with. -/
theorem Names.escape {s : List UInt8} (h : Names size s) : ∃ t, s = 0x1b :: t ∧ 0x1b ∉ t := by
  obtain ⟨cols, rows, rfl, hc, hr⟩ := h
  refine ⟨ascii "]resize;" ++ (cols ++ 0x3b :: (rows ++ [0x07])), rfl, ?_⟩
  simp only [mem_append, mem_cons, not_mem_nil, or_false, not_or]
  exact ⟨by decide, fun h => absurd (plain_of_parseU16 hc _ h).1 (by decide), by decide,
    fun h => absurd (plain_of_parseU16 hr _ h).1 (by decide), by decide⟩

/-! ## What is left when the sequences are taken out -/

theorem removal_drop (k : Nat) (data : List UInt8) : removal k data = removal 0 (data.drop k) := by
  induction data generalizing k with
  | nil => cases k <;> rfl
  | cons b rest ih => cases k with
    | zero => rfl
    | succ k => exact ih k

theorem removal_leading (h : leading data = some (size, rest)) :
    removal 0 data = ((removal 0 rest).1, size :: (removal 0 rest).2) := by
  obtain ⟨s, hs, hdata⟩ := leading_iff.mp h
  obtain ⟨t, rfl, -⟩ := hs.escape
  subst hdata
  rw [cons_append] at h ⊢
  have hdrop : (t ++ rest).drop ((t ++ rest).length - rest.length) = rest := by simp
  simp only [removal, h]
  rw [removal_drop, hdrop]

theorem removal_none (h : leading (b :: data) = none) :
    removal 0 (b :: data) = (b :: (removal 0 data).1, (removal 0 data).2) := by
  simp only [removal, h]

theorem removal_append (h : ∀ i < before.length, leading ((before ++ rest).drop i) = none) :
    removal 0 (before ++ rest) = (before ++ (removal 0 rest).1, (removal 0 rest).2) := by
  induction before with
  | nil => rfl
  | cons b before ih =>
    have hhere : leading (b :: (before ++ rest)) = none := h 0 (by simp)
    rw [cons_append, removal_none hhere, ih fun i hi => h (i + 1) (by simpa using hi)]; rfl

theorem removal_length (k : Nat) (data : List UInt8) : (removal k data).1.length ≤ data.length - k := by
  induction data generalizing k with
  | nil => cases k <;> simp [removal]
  | cons b data ih =>
    cases k with
    | succ k => have := ih k; simp only [removal, length_cons]; omega
    | zero =>
      have := ih 0
      rw [removal]
      split
      · next size after _ => have := ih (data.length - after.length); simp only [length_cons]; omega
      · simp only [length_cons]; omega

theorem removal_of_none (h : ∀ i, leading (data.drop i) = none) : removal 0 data = (data, []) := by
  have hall : removal 0 (data ++ []) = _ := removal_append fun i _ => by rw [append_nil]; exact h i
  rw [append_nil] at hall
  rw [hall, removal, append_nil]

/-- The input is as it was exactly if there is no sequence in it. -/
theorem removal_eq_self : (removal 0 data).1 = data ↔ ∀ i, leading (data.drop i) = none := by
  constructor
  · intro h
    induction data with
    | nil => intro i; rw [drop_nil]; rfl
    | cons b data ih =>
      cases hhere : leading (b :: data) with
      | some found =>
        obtain ⟨size, rest⟩ := found
        rw [removal_leading hhere] at h
        obtain ⟨s, hs, hdata⟩ := leading_iff.mp hhere
        obtain ⟨t, rfl, -⟩ := hs.escape
        have hlong := removal_length 0 rest
        have := congrArg List.length hdata
        have := congrArg List.length h
        simp at *; omega
      | none =>
        rw [removal_none hhere] at h
        intro i
        cases i with
        | zero => exact hhere
        | succ i => exact ih (cons.inj h).2 i
  · intro h
    rw [removal_of_none h]

/-! ## Where the search stops -/

theorem stripResize_cases (data : List UInt8) :
    (∃ start size rest, leading (data.drop start) = some (size, rest) ∧ (∀ j < start, ¬ resizePrefix <+: data.drop j) ∧
      stripResize data = (some size, data.take start ++ rest)) ∨
    (stripResize data = (none, data) ∧ ∀ i, leading (data.drop i) ≠ none → ∃ j < i, resizePrefix <+: data.drop j) := by
  have hwithin : ∀ i, leading (data.drop i) ≠ none → resizePrefix <+: data.drop i ∧ i < data.length - resizePrefix.length := by
    intro i hi
    obtain ⟨⟨size, rest⟩, hi⟩ := Option.ne_none_iff_exists'.mp hi
    obtain ⟨s, ⟨cols, rows, rfl, -⟩, hdata⟩ := leading_iff.mp hi
    have := congrArg List.length hdata
    simp only [length_drop, length_append, length_cons] at this
    rw [hdata, append_assoc]
    exact ⟨prefix_append _ _, by omega⟩
  unfold stripResize
  split
  · next hnone =>
    refine .inr ⟨rfl, fun i hi => ?_⟩
    obtain ⟨hpre, hlt⟩ := hwithin i hi
    exact absurd hpre (by simpa using find?_eq_none.mp hnone i (mem_range.mpr hlt))
  · next start hstart =>
    have hfound : resizePrefix <+: data.drop start := by simpa using find?_some hstart
    have hfirst : ∀ j < start, ¬ resizePrefix <+: data.drop j := by
      rw [find?_range_eq_some] at hstart
      exact fun j hj => by simpa using hstart.2.2 j hj
    have hhere : leading (data.drop start) = sizeIn (data.drop (start + resizePrefix.length)) := by
      rw [leading, if_pos hfound, drop_drop]
    split
    · next hnone =>
      refine .inr ⟨rfl, fun i hi => ⟨start, ?_, hfound⟩⟩
      by_contra hle
      rcases Nat.lt_or_eq_of_le (Nat.le_of_not_lt hle) with hlt | rfl
      · exact hfirst i hlt (hwithin i hi).1
      · exact hi (hhere.trans hnone)
    · next size rest hsome => exact .inl ⟨start, size, rest, hhere.trans hsome, hfirst, rfl⟩

theorem prefix_of_leading (h : leading data ≠ none) : resizePrefix <+: data := by
  by_contra hpre
  exact h (if_neg hpre)

/-- From the first candidate on there is only the sequence that stands there, if no other stands behind it. -/
theorem le_of_leading {start i : Nat} (hhere : leading (data.drop start) = some (size, rest))
    (hrest : ∀ k, leading (rest.drop k) = none) (hi : leading (data.drop i) ≠ none) : i ≤ start := by
  obtain ⟨s, hs, hdata⟩ := leading_iff.mp hhere
  obtain ⟨t, rfl, ht⟩ := hs.escape
  by_contra hlt
  obtain ⟨k, rfl⟩ : ∃ k, i = start + (1 + k) := ⟨i - start - 1, by omega⟩
  rw [← drop_drop, hdata, cons_append, Nat.add_comm 1, drop_succ_cons, drop_append] at hi
  by_cases hk : k < t.length
  · obtain ⟨behind, hbehind⟩ := prefix_of_leading hi
    rw [drop_eq_getElem_cons hk] at hbehind
    exact ht ((cons.inj hbehind).1 ▸ getElem_mem hk)
  · rw [drop_eq_nil_of_le (by omega), nil_append] at hi
    exact hi (hrest _)

theorem Pty.sendInput_stdin (pty : Pty) (data : List UInt8) : (pty.sendInput data).stdin = pty.stdin ++ (stripResize data).2 := by
  simp only [sendInput]
  split
  · next h => rw [h, append_nil]
  · rfl

end

/-- A chunk of input is dealt with as it should be exactly if no `ESC ]resize;` stands before a well-formed sequence: there is
    at most one then, and it is the first candidate. -/
theorem resizes_are_obeyed_iff (pty : Pty) (data : List UInt8) :
    pty.Obeys data ↔ ∀ i j size s, Names size s → s <+: data.drop i → resizePrefix <+: data.drop j → i ≤ j := by
  have hnamed : (∀ i j size s, Names size s → s <+: data.drop i → resizePrefix <+: data.drop j → i ≤ j) ↔
      ∀ i j, leading (data.drop i) ≠ none → resizePrefix <+: data.drop j → i ≤ j := by
    constructor
    · intro h i j hi hj
      obtain ⟨⟨size, rest⟩, hi⟩ := Option.ne_none_iff_exists'.mp hi
      obtain ⟨s, hs, hdata⟩ := leading_iff.mp hi
      exact h i j size s hs (hdata ▸ prefix_append s rest) hj
    · rintro h i j size s hs ⟨rest, hdata⟩ hj
      exact h i j (by rw [leading_iff.mpr ⟨s, hs, hdata.symm⟩]; simp) hj
  rw [hnamed, Pty.Obeys, Pty.sendInput_stdin, append_cancel_left_eq]
  rcases stripResize_cases data with ⟨start, size, rest, hhere, hfirst, hstrip⟩ | ⟨hstrip, hbefore⟩
  · have hsize : (pty.sendInput data).size = size := by simp [Pty.sendInput, hstrip]
    have hnone : ∀ i < (data.take start).length, leading ((data.take start ++ data.drop start).drop i) = none := by
      intro i hi
      rw [take_append_drop]
      by_contra hsome
      exact hfirst i (by simp at hi; omega) (prefix_of_leading hsome)
    have hremoval := removal_append hnone
    rw [take_append_drop, removal_leading hhere] at hremoval
    rw [hstrip, hremoval, hsize, append_cancel_left_eq, eq_comm, removal_eq_self]
    constructor
    · intro ⟨hrest, _⟩ i j hi hj
      exact Nat.le_trans (le_of_leading hhere hrest hi) (Nat.le_of_not_lt fun hlt => hfirst j hlt hj)
    intro h
    have hrest : ∀ k, leading (rest.drop k) = none := by
      intro k
      obtain ⟨s, hs, hdata⟩ := leading_iff.mp hhere
      obtain ⟨t, rfl, -⟩ := hs.escape
      by_contra hk
      have hdrop : data.drop (start + (t.length + 1 + k)) = rest.drop k := by
        rw [← drop_drop, hdata, ← drop_drop]; simp
      have := h _ start (hdrop ▸ hk) (prefix_of_leading (by simp [hhere]))
      omega
    refine ⟨hrest, fun last hlast => ?_⟩
    rw [removal_of_none hrest] at hlast
    simpa using hlast
  · rw [hstrip, eq_comm, removal_eq_self]
    constructor
    · intro ⟨hnone, _⟩ i j hi _
      exact absurd (hnone i) hi
    intro h
    have hnone : ∀ i, leading (data.drop i) = none := by
      intro i
      by_contra hi
      obtain ⟨j, hlt, hj⟩ := hbefore i hi
      exact absurd (h i j hi hj) (by omega)
    refine ⟨hnone, fun last hlast => ?_⟩
    rw [removal_of_none hnone] at hlast
    cases hlast

/-- Two resizes in one chunk: the second one is typed into the program, and the first one's size stays. -/
theorem the_second_resize_is_typed :
    Names (80, 24) (resizePrefix ++ ascii "80;24\x07") ∧ Names (90, 30) (resizePrefix ++ ascii "90;30\x07") ∧
      Pty.sendInput ⟨(1, 1), []⟩ (resizePrefix ++ ascii "80;24\x07" ++ (resizePrefix ++ ascii "90;30\x07")) =
        ⟨(80, 24), resizePrefix ++ ascii "90;30\x07"⟩ ∧
      ¬ Pty.Obeys ⟨(1, 1), []⟩ (resizePrefix ++ ascii "80;24\x07" ++ (resizePrefix ++ ascii "90;30\x07")) := by
  refine ⟨⟨ascii "80", ascii "24", by decide, by decide, by decide⟩, ⟨ascii "90", ascii "30", by decide, by decide, by decide⟩,
    by decide, ?_⟩
  intro ⟨h, _⟩
  exact absurd h (by decide)

end TddyCoder.Terminal
