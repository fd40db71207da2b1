/-
  TddyCoder.Terminal.ScreenFeed — the bytes a terminal's process writes, on their way to the screen
  model as text (`packages/tddy-task/src/terminal_capture.rs`: `feed_screen`).

  Each write is read from what the last one held back. `stream` reads the same bytes one by one
  and does not know of writes.

  Proved: `the_writes_make_no_difference`.
-/

import TddyCoder.Text.Utf8

namespace TddyCoder.Terminal

open Text List

/-- Where `std::str::from_utf8` gives up: the bytes end inside a character, or go on behind those that are none. -/
inductive Utf8Error where
  | unfinished (tail : List UInt8)
  | bad (behind : List UInt8)

/-- The text up to where it gives up; `held` is what has been read of a character. -/
def validate : Option Pending → List UInt8 → List UInt8 → List Char × Option Utf8Error
  | none, _, [] => ([], none)
  | some _, held, [] => ([], some (.unfinished held))
  | none, _, b :: bytes =>
    if b.toNat < 0x80 then (Char.ofNat b.toNat :: (validate none [] bytes).1, (validate none [] bytes).2)
    else match (leadByte b.toNat).2 with
      | some p => validate (some p) [b] bytes
      | none => ([], some (.bad bytes))
  | some p, held, b :: bytes =>
    if p.low ≤ b.toNat ∧ b.toNat ≤ p.high then
      match nextByte (some p) b.toNat with
      | (c, none) => (c ++ (validate none [] bytes).1, (validate none [] bytes).2)
      | (_, some p) => validate (some p) (held ++ [b]) bytes
    else ([], some (.bad (b :: bytes)))

/-- The strings that are fed to the screen, and what is held back; every round but the last takes a byte. -/
def feedRounds : Nat → List UInt8 → List (List Char) × List UInt8
  | 0, _ => ([], [])
  | rounds + 1, rest =>
    if rest = [] then ([], [])
    else match validate none [] rest with
      | (text, none) => ([text], [])
      | (text, some (.unfinished tail)) => ([text], tail)
      | (text, some (.bad behind)) => (text :: [replacement] :: (feedRounds rounds behind).1, (feedRounds rounds behind).2)

def feedScreen (pending data : List UInt8) : List (List Char) × List UInt8 :=
  feedRounds ((pending ++ data).length + 1) (pending ++ data)

/-- The writes one after another: all that was fed to the screen, and what is held back in the end. -/
def feedWrites (fed : List Char × List UInt8) (writes : List (List UInt8)) : List Char × List UInt8 :=
  writes.foldl (fun fed data => (fed.1 ++ (feedScreen fed.2 data).1.flatten, (feedScreen fed.2 data).2)) fed

/-! ## The bytes one by one -/

/-- What is held once the byte is read. -/
def holds (pending : Option Pending) (held : List UInt8) (b : UInt8) : List UInt8 :=
  match pending, (nextByte pending b.toNat).2 with
  | _, none => []
  | none, some _ => [b]
  | some p, some _ => if p.low ≤ b.toNat ∧ b.toNat ≤ p.high then held ++ [b] else [b]

def stream : Option Pending → List UInt8 → List UInt8 → List Char × List UInt8
  | _, held, [] => ([], held)
  | pending, held, b :: bytes =>
    ((nextByte pending b.toNat).1 ++ (stream (nextByte pending b.toNat).2 (holds pending held b) bytes).1,
      (stream (nextByte pending b.toNat).2 (holds pending held b) bytes).2)

/-- So far these bytes of a character have been read. -/
inductive At : Option Pending → List UInt8 → Prop
  | start : At none []
  | lead {b : UInt8} {p : Pending} (h : (leadByte b.toNat).2 = some p) : At (some p) [b]
  | inner {p q : Pending} {held : List UInt8} {b : UInt8} (hat : At (some p) held) (hin : p.low ≤ b.toNat ∧ b.toNat ≤ p.high)
    (h : (nextByte (some p) b.toNat).2 = some q) : At (some q) (held ++ [b])

variable {pending : Option Pending} {p : Pending} {held bytes : List UInt8} {b : UInt8}

theorem At.next (h : At pending held) (b : UInt8) : At (nextByte pending b.toNat).2 (holds pending held b) := by
  unfold holds
  cases hnext : (nextByte pending b.toNat).2 with
  | none => exact .start
  | some q =>
    cases pending with
    | none => exact .lead hnext
    | some p =>
      dsimp only
      split
      · next hin => exact .inner h hin hnext
      · next hout =>
        rw [nextByte, if_neg (by simpa using hout)] at hnext
        exact .lead hnext

theorem stream_at (h : At pending held) (bytes : List UInt8) : ∃ pending', At pending' (stream pending held bytes).2 := by
  induction bytes generalizing pending held with
  | nil => exact ⟨pending, h⟩
  | cons b bytes ih => exact ih (h.next b)

theorem leadByte_quiet (h : (leadByte b.toNat).2 = some p) : (leadByte b.toNat).1 = [] := by
  rcases leadByte_cases b.toNat with ⟨c, heq⟩ | ⟨q, heq, -⟩
  · rw [heq] at h; cases h
  · rw [heq]

theorem nextByte_quiet {q : Pending} (hin : p.low ≤ b.toNat ∧ b.toNat ≤ p.high) (h : (nextByte (some p) b.toNat).2 = some q) :
    (nextByte (some p) b.toNat).1 = [] ∧ p.missing ≠ 1 := by
  by_cases hlast : p.missing = 1
  · rw [nextByte_last hin.1 hin.2 hlast] at h; cases h
  · rw [nextByte_inner hin.1 hin.2 hlast]; exact ⟨rfl, hlast⟩

@[simp] theorem nextByte_none (n : Nat) : nextByte none n = leadByte n := rfl

/-- What is held back is read again, to the same effect. -/
theorem At.again (h : At pending held) (bytes : List UInt8) : stream none [] (held ++ bytes) = stream pending held bytes := by
  induction h generalizing bytes with
  | start => rfl
  | lead h =>
    simp [stream, holds, h, leadByte_quiet h]
  | inner hat hin h ih => simp [ih, stream, holds, h, hin, (nextByte_quiet hin h).1]

theorem stream_append (h : At pending held) (x y : List UInt8) :
    stream pending held (x ++ y) = ((stream pending held x).1 ++ (stream none [] ((stream pending held x).2 ++ y)).1,
      (stream none [] ((stream pending held x).2 ++ y)).2) := by
  induction x generalizing pending held with
  | nil => rw [stream, h.again]; rfl
  | cons b x ih => simp only [cons_append, stream, ih (h.next b), append_assoc]

/-! ## The rounds -/

/-- Where it gave up, reading goes on behind the bytes that are none. -/
def goOn : List Char × Option Utf8Error → List Char × List UInt8
  | (text, none) => (text, [])
  | (text, some (.unfinished tail)) => (text, tail)
  | (text, some (.bad behind)) => (text ++ replacement :: (stream none [] behind).1, (stream none [] behind).2)

theorem goOn_append (text : List Char) (v : List Char × Option Utf8Error) :
    goOn (text ++ v.1, v.2) = (text ++ (goOn v).1, (goOn v).2) := by
  obtain ⟨_, _ | _ | _⟩ := v <;> simp [goOn]

theorem leadByte_refused (hsome : ¬ b.toNat < 0x80) (h : (leadByte b.toNat).2 = none) : (leadByte b.toNat).1 = [replacement] := by
  unfold leadByte at h ⊢
  split_ifs at h ⊢; simp_all

theorem stream_eq_goOn (h : At pending held) (bytes : List UInt8) :
    stream pending held bytes = goOn (validate pending held bytes) := by
  induction bytes generalizing pending held with
  | nil => cases h <;> rfl
  | cons b bytes ih =>
    have hih := ih (h.next b)
    cases pending with
    | none =>
      rw [stream, validate, nextByte_none]
      by_cases hone : b.toNat < 0x80
      · have hchar := leadByte_one hone
        simp only [holds, nextByte_none, hchar] at hih ⊢
        rw [if_pos hone, hih, ← goOn_append]; rfl
      rw [if_neg hone]
      cases hlead : (leadByte b.toNat).2 with
      | none => simp [holds, hlead, leadByte_refused hone hlead, goOn]
      | some p =>
        simp only [holds, nextByte_none, hlead] at hih ⊢
        rw [leadByte_quiet hlead, hih]; rfl
    | some p =>
      rw [stream, validate]
      by_cases hin : p.low ≤ b.toNat ∧ b.toNat ≤ p.high
      · rw [if_pos hin]
        cases hnext : (nextByte (some p) b.toNat).2 with
        | none =>
          rw [show nextByte (some p) b.toNat = (_, none) from Prod.ext rfl hnext]
          simp only [holds, hnext] at hih ⊢
          rw [hih, ← goOn_append]
        | some q =>
          have hpair : nextByte (some p) b.toNat = ([], some q) := Prod.ext (nextByte_quiet hin hnext).1 hnext
          simp only [holds, hpair, hin, and_self, if_true] at hih ⊢
          rw [hih]; rfl
      · have hbreak : nextByte (some p) b.toNat = (replacement :: (leadByte b.toNat).1, (leadByte b.toNat).2) := by
          rw [nextByte, if_neg (by simpa using hin)]
        have hheld : holds (some p) held b = holds none [] b := by
          simp only [holds, hbreak, nextByte_none]
          cases (leadByte b.toNat).2 <;> simp [hin]
        rw [if_neg hin, goOn, stream, hheld, hbreak]; rfl

theorem At.ne_nil (h : At (some p) held) : held ≠ [] := by
  cases h <;> simp

theorem validate_shorter {text : List Char} {behind : List UInt8} (h : At pending held)
    (hbad : validate pending held bytes = (text, some (.bad behind))) : behind.length < held.length + bytes.length := by
  induction bytes generalizing pending held text with
  | nil => cases h <;> cases hbad
  | cons b bytes ih =>
    cases pending with
    | none =>
      rw [validate] at hbad
      split at hbad
      · have := ih .start (Prod.ext rfl (Prod.mk.inj hbad).2); simp at this ⊢; omega
      · split at hbad
        · next hlead => have := ih (.lead hlead) hbad; simp at this ⊢; omega
        · cases hbad; simp; omega
    | some p =>
      have hpos := length_pos_of_ne_nil h.ne_nil
      rw [validate] at hbad
      split at hbad
      · next hin =>
        split at hbad
        · have := ih .start (Prod.ext rfl (Prod.mk.inj hbad).2); simp at this ⊢; omega
        · next hnext => have := ih (.inner h hin (by rw [hnext])) hbad; simp at this ⊢; omega
      · cases hbad; simp; omega

theorem feedRounds_eq (rounds : Nat) (rest : List UInt8) (h : rest.length < rounds) :
    ((feedRounds rounds rest).1.flatten, (feedRounds rounds rest).2) = stream none [] rest := by
  induction rounds generalizing rest with
  | zero => omega
  | succ rounds ih =>
    rw [feedRounds]
    split
    · next hnil => rw [hnil]; rfl
    rw [stream_eq_goOn .start]
    split
    · next hv => simp [hv, goOn]
    · next hv => simp [hv, goOn]
    · next text behind hv =>
      have := validate_shorter .start hv
      have hrest := ih behind (by simp at this; omega)
      simp [hv, goOn, ← hrest]

theorem feedWrites_eq (h : At pending held) (text : List Char) (writes : List (List UInt8)) :
    feedWrites (text, held) writes =
      (text ++ (stream none [] (held ++ writes.flatten)).1, (stream none [] (held ++ writes.flatten)).2) := by
  induction writes generalizing pending held text with
  | nil => rw [flatten_nil, h.again]; simp [feedWrites, stream]
  | cons data writes ih =>
    have hrounds := feedRounds_eq _ (held ++ data) (Nat.lt_succ_self _)
    obtain ⟨pending', hat⟩ := stream_at .start (held ++ data)
    rw [flatten_cons, ← append_assoc, stream_append .start]
    rw [← hrounds] at hat ⊢
    rw [← append_assoc, ← ih hat]; rfl

/-! ## What is held back -/

theorem exists_fills (h : (leadByte b.toNat).2 = some p) : ∃ bytes, p.Fills bytes ∧ bytes ≠ [] := by
  have hbounds : 1 ≤ p.missing ∧ p.low ≤ p.high ∧ p.low < 256 := by
    unfold leadByte at h
    split_ifs at h <;> simp at h <;> subst h <;> simp
  refine ⟨UInt8.ofNat p.low :: List.replicate (p.missing - 1) 0x80, ⟨?_, ?_, ?_⟩, by simp⟩
  · simp; omega
  · simp [Nat.mod_eq_of_lt hbounds.2.2, hbounds.2.1]
  · simp +contextual

/-- Some bytes are missing, and whichever they are, a character comes of it. -/
theorem At.character (h : At pending held) : ∀ p, pending = some p →
    (∃ bytes, p.Fills bytes ∧ bytes ≠ []) ∧ ∀ bytes, p.Fills bytes → ∃ c, held ++ bytes = String.utf8EncodeChar c := by
  induction h with
  | start => simp
  | lead h =>
    rintro _ ⟨rfl⟩
    exact ⟨exists_fills h, fun bytes hbytes => utf8EncodeChar_of_fills h hbytes⟩
  | inner hat hin h ih =>
    rintro _ ⟨rfl⟩
    obtain ⟨⟨filling, hfilling, hne⟩, hall⟩ := ih _ rfl
    have hmore := (nextByte_quiet hin h).2
    rw [nextByte_inner hin.1 hin.2 hmore] at h
    obtain rfl := Option.some.inj h
    match filling with
    | x :: rest =>
      obtain ⟨hlength, -, hrest⟩ := hfilling
      simp only [length_cons, tail_cons] at hlength hrest
      refine ⟨⟨rest, ⟨by simp; omega, fun y hy => hrest y (mem_of_mem_head? hy), fun y hy => hrest y (mem_of_mem_tail hy)⟩,
        by rintro rfl; simp at hlength; omega⟩, ?_⟩
      intro bytes ⟨hlength', hfirst, htail⟩
      rw [append_assoc]
      refine hall (_ :: bytes) ⟨by simp at hlength' ⊢; omega, by simpa using hin, fun y hy => ?_⟩
      match bytes, hy with
      | z :: _, hy => exact (mem_cons.mp hy).elim (fun h => h ▸ hfirst z rfl) (htail y)

/-- However a stream is cut into writes, the screen is fed the same text and the same bytes are held back, the first ones but not
    all of a character. -/
theorem the_writes_make_no_difference (writes writes' : List (List UInt8)) (h : writes.flatten = writes'.flatten) :
    feedWrites ([], []) writes = feedWrites ([], []) writes' ∧
      ∃ c, (feedWrites ([], []) writes).2 <+: String.utf8EncodeChar c ∧
        (feedWrites ([], []) writes).2 ≠ String.utf8EncodeChar c := by
  have hstream : ∀ writes, feedWrites ([], []) writes = stream none [] writes.flatten := fun writes => feedWrites_eq .start [] writes
  rw [hstream, hstream, ← h]
  refine ⟨rfl, ?_⟩
  obtain ⟨pending, hat⟩ := stream_at .start writes.flatten
  cases hpending : pending with
  | none =>
    subst hpending
    generalize (stream none [] writes.flatten).2 = held at hat
    cases hat
    exact ⟨'a', by decide, by decide⟩
  | some p =>
    obtain ⟨⟨bytes, hfills, hne⟩, hall⟩ := hat.character p hpending
    obtain ⟨c, hc⟩ := hall bytes hfills
    refine ⟨c, ⟨bytes, hc⟩, fun heq => hne ?_⟩
    rw [← hc] at heq
    simpa using heq

/-- A character of two bytes, written in one piece or in two. -/
theorem a_character_in_two_writes :
    feedWrites ([], []) [[0xC3, 0xA9]] = feedWrites ([], []) [[0xC3], [0xA9]] ∧ (feedWrites ([], []) [[0xC3]]).2 = [0xC3] :=
  ⟨(the_writes_make_no_difference [[0xC3, 0xA9]] [[0xC3], [0xA9]] rfl).1, by decide⟩

end TddyCoder.Terminal
