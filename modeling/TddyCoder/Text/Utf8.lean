/-
  TddyCoder.Text.Utf8 — bytes read as UTF-8, the lossy way: every maximal run of bytes that
  begins a character and cannot end one becomes U+FFFD, and reading goes on with the byte
  after it.

  The reader is a machine over bytes. `Pending` is a character of which some bytes have come: its
  value so far, how many are missing, and between which bounds the next must lie.
-/

import Mathlib.Data.List.Basic

namespace TddyCoder.Text

open List

def replacement : Char := Char.ofNat 0xFFFD

structure Pending where
  value : Nat
  missing : Nat
  low : Nat := 0x80
  high : Nat := 0xBF

def leadByte (b : Nat) : List Char × Option Pending :=
  if b < 0x80 then ([Char.ofNat b], none)
  else if 0xC2 ≤ b && b ≤ 0xDF then ([], some { value := b - 0xC0, missing := 1 })
  else if b = 0xE0 then ([], some { value := 0, missing := 2, low := 0xA0 })
  else if b = 0xED then ([], some { value := 0xD, missing := 2, high := 0x9F })
  else if 0xE1 ≤ b && b ≤ 0xEF then ([], some { value := b - 0xE0, missing := 2 })
  else if b = 0xF0 then ([], some { value := 0, missing := 3, low := 0x90 })
  else if b = 0xF4 then ([], some { value := 4, missing := 3, high := 0x8F })
  else if 0xF1 ≤ b && b ≤ 0xF3 then ([], some { value := b - 0xF0, missing := 3 })
  else ([replacement], none)

def nextByte (pending : Option Pending) (b : Nat) : List Char × Option Pending :=
  match pending with
  | none => leadByte b
  | some p =>
    if p.low ≤ b && b ≤ p.high then
      if p.missing = 1 then ([Char.ofNat (p.value * 64 + (b - 0x80))], none)
      else ([], some { value := p.value * 64 + (b - 0x80), missing := p.missing - 1 })
    else
      -- the character breaks off, and this byte begins another
      (replacement :: (leadByte b).1, (leadByte b).2)

def decodeLossy : Option Pending → List UInt8 → List Char
  | none, [] => []
  | some _, [] => [replacement]
  | pending, b :: bytes => (nextByte pending b.toNat).1 ++ decodeLossy (nextByte pending b.toNat).2 bytes

def fromUtf8Lossy (bytes : List UInt8) : String := String.ofList (decodeLossy none bytes)

def ascii (s : String) : List UInt8 := s.toList.map fun c => UInt8.ofNat c.toNat

/-! ## What is written is read back -/

variable (cs : List Char)

def encode : List UInt8 := cs.flatMap String.utf8EncodeChar

def fromUtf8 (bytes : List UInt8) : Option (List Char) :=
  if encode (decodeLossy none bytes) = bytes then some (decodeLossy none bytes) else none

@[simp] theorem encode_nil : encode [] = [] := rfl

@[simp] theorem encode_append (cs' : List Char) : encode (cs ++ cs') = encode cs ++ encode cs' := by
  simp [encode]

variable (c : Char)

theorem encode_cons : encode (c :: cs) = String.utf8EncodeChar c ++ encode cs := rfl

variable {p : Pending}

section lead

variable {b : Nat}

theorem leadByte_one (h : b < 0x80) : leadByte b = ([Char.ofNat b], none) := if_pos h

theorem leadByte_two (hlow : 0xC2 ≤ b) (hhigh : b ≤ 0xDF) : leadByte b = ([], some { value := b - 0xC0, missing := 1 }) := by
  rw [leadByte, if_neg (by omega), if_pos (by simp; omega)]

theorem leadByte_three (hlow : 0xE0 ≤ b) (hhigh : b ≤ 0xEF) :
    leadByte b = ([], some ⟨b - 0xE0, 2, if b = 0xE0 then 0xA0 else 0x80, if b = 0xED then 0x9F else 0xBF⟩) := by
  rw [leadByte, if_neg (by omega), if_neg (by simp; omega)]
  by_cases h0 : b = 0xE0
  · subst h0
    rfl
  by_cases hD : b = 0xED
  · subst hD
    rfl
  · rw [if_neg h0, if_neg hD, if_pos (by simp; omega), if_neg h0, if_neg hD]

theorem leadByte_four (hlow : 0xF0 ≤ b) (hhigh : b ≤ 0xF4) :
    leadByte b = ([], some ⟨b - 0xF0, 3, if b = 0xF0 then 0x90 else 0x80, if b = 0xF4 then 0x8F else 0xBF⟩) := by
  rw [leadByte, if_neg (by omega), if_neg (by simp; omega), if_neg (by omega), if_neg (by omega), if_neg (by simp; omega)]
  by_cases h0 : b = 0xF0
  · subst h0
    rfl
  by_cases h4 : b = 0xF4
  · subst h4
    rfl
  · rw [if_neg h0, if_neg h4, if_pos (by simp; omega), if_neg h0, if_neg h4]

theorem leadByte_bad (h : (0x80 ≤ b ∧ b < 0xC2) ∨ 0xF4 < b) : leadByte b = ([replacement], none) := by
  rw [leadByte, if_neg (by omega), if_neg (by simp; omega), if_neg (by omega), if_neg (by omega), if_neg (by simp; omega),
    if_neg (by omega), if_neg (by omega), if_neg (by simp; omega)]

theorem nextByte_last (hlow : p.low ≤ b) (hhigh : b ≤ p.high) (hlast : p.missing = 1) :
    nextByte (some p) b = ([Char.ofNat (p.value * 64 + (b - 0x80))], none) := by
  simp [nextByte, hlow, hhigh, hlast]

theorem nextByte_inner (hlow : p.low ≤ b) (hhigh : b ≤ p.high) (hmore : p.missing ≠ 1) :
    nextByte (some p) b = ([], some { value := p.value * 64 + (b - 0x80), missing := p.missing - 1 }) := by
  simp [nextByte, hlow, hhigh, hmore]

end lead

theorem decodeLossy_cons (pending : Option Pending) (b : UInt8) (bytes : List UInt8) :
    decodeLossy pending (b :: bytes) =
      (nextByte pending b.toNat).1 ++ decodeLossy (nextByte pending b.toNat).2 bytes := by
  cases pending <;> rfl

theorem decodeLossy_char (rest : List UInt8) :
    decodeLossy none (String.utf8EncodeChar c ++ rest) = c :: decodeLossy none rest := by
  have hvalid : c.val.toNat < 0xD800 ∨ 0xDFFF < c.val.toNat ∧ c.val.toNat < 0x110000 := c.valid
  have hchar : ∀ n, n = c.val.toNat → Char.ofNat n = c := by
    rintro _ rfl
    exact Char.ofNat_toNat c
  unfold String.utf8EncodeChar
  generalize c.val.toNat = v at hvalid hchar
  have hbyte : ∀ n < 256, (UInt8.ofNat n).toNat = n := by
    intro n hn
    simp [Nat.mod_eq_of_lt hn]
  dsimp only
  split
  · next hv =>
    rw [singleton_append, decodeLossy_cons, hbyte v (by omega)]
    rw [show nextByte none v = ([Char.ofNat v], none) from leadByte_one (by omega), hchar v rfl]
    rfl
  split
  · next hv hv' =>
    have hlead := leadByte_two (b := v / 64 % 32 + 192) (by omega) (by omega)
    simp only [cons_append, nil_append, decodeLossy_cons]
    rw [hbyte _ (by omega), hbyte _ (by omega), show nextByte none _ = _ from hlead, nextByte_last (by simp) (by simp; omega) rfl,
      hchar _ (by simp; omega)]
    rfl
  split
  · next hv hv' hv'' =>
    have hlead := leadByte_three (b := v / 4096 % 16 + 224) (by omega) (by omega)
    simp only [cons_append, nil_append, decodeLossy_cons]
    rw [hbyte _ (by omega), hbyte _ (by omega), hbyte _ (by omega), show nextByte none _ = _ from hlead,
      nextByte_inner ?_ ?_ (by simp), nextByte_last (by simp) (by simp; omega) rfl, hchar _ (by simp; omega)]
    · rfl
    · show (if _ then _ else _) ≤ _
      split <;> omega
    · show _ ≤ (if _ then _ else _)
      split <;> omega
  · next hv hv' hv'' =>
    have hlead := leadByte_four (b := v / 262144 % 8 + 240) (by omega) (by omega)
    simp only [cons_append, nil_append, decodeLossy_cons]
    rw [hbyte _ (by omega), hbyte _ (by omega), hbyte _ (by omega), hbyte _ (by omega), show nextByte none _ = _ from hlead,
      nextByte_inner ?_ ?_ (by simp), nextByte_inner (by simp) (by simp; omega) (by simp),
      nextByte_last (by simp) (by simp; omega) rfl, hchar _ (by simp; omega)]
    · rfl
    · show (if _ then _ else _) ≤ _
      split <;> omega
    · show _ ≤ (if _ then _ else _)
      split <;> omega

theorem decodeLossy_encode_append (rest : List UInt8) :
    decodeLossy none (encode cs ++ rest) = cs ++ decodeLossy none rest := by
  induction cs with
  | nil => rfl
  | cons c cs ih => rw [encode_cons, append_assoc, decodeLossy_char, ih, cons_append]

theorem decodeLossy_encode : decodeLossy none (encode cs) = cs := by
  have h := decodeLossy_encode_append cs []
  rw [append_nil] at h
  rw [h]
  exact append_nil cs

variable {cs : List Char} {b : UInt8} {bytes : List UInt8}

theorem encode_injective {cs' : List Char} (h : encode cs = encode cs') : cs = cs' := by
  rw [← decodeLossy_encode cs, h, decodeLossy_encode]

theorem encode_eq_nil : encode cs = [] ↔ cs = [] :=
  ⟨fun h => encode_injective (h.trans encode_nil.symm), fun h => by rw [h]; rfl⟩

theorem fromUtf8_encode (cs : List Char) : fromUtf8 (encode cs) = some cs := by
  rw [fromUtf8, decodeLossy_encode, if_pos rfl]

theorem fromUtf8_eq_some : fromUtf8 bytes = some cs ↔ bytes = encode cs := by
  constructor
  · intro h
    unfold fromUtf8 at h
    split at h
    · next heq =>
      cases h
      exact heq.symm
    · cases h
  · rintro rfl
    exact fromUtf8_encode cs

/-! ## Where characters begin -/

def isContinuation (b : UInt8) : Bool := 0x80 ≤ b.toNat && b.toNat ≤ 0xBF

def leads (bytes : List UInt8) : Nat := bytes.countP (!isContinuation ·)

theorem leads_append (x y : List UInt8) : leads (x ++ y) = leads x + leads y := countP_append

/-- A character's first byte begins it and the others continue it. -/
theorem utf8EncodeChar_eq : ∃ first rest, String.utf8EncodeChar c = first :: rest ∧ isContinuation first = false ∧
    ∀ b ∈ rest, isContinuation b = true := by
  have hcont : ∀ n, isContinuation (UInt8.ofNat (n % 64 + 128)) = true := by
    intro n
    simp only [isContinuation, UInt8.toNat_ofNat', Bool.and_eq_true, decide_eq_true_eq]
    omega
  have hlead : ∀ n, n < 128 ∨ 192 ≤ n ∧ n < 256 → isContinuation (UInt8.ofNat n) = false := by
    intro n hn
    simp only [isContinuation, UInt8.toNat_ofNat', Bool.and_eq_false_iff, decide_eq_false_iff_not]
    omega
  unfold String.utf8EncodeChar
  generalize c.val.toNat = v
  dsimp only
  split
  · exact ⟨_, _, rfl, hlead _ (by omega), by simp⟩
  · split
    · exact ⟨_, _, rfl, hlead _ (by omega), by simp only [forall_mem_cons, hcont]; simp⟩
    · split <;> exact ⟨_, _, rfl, hlead _ (by omega), by simp only [forall_mem_cons, hcont]; simp⟩

theorem leads_encode (cs : List Char) : leads (encode cs) = cs.length := by
  induction cs with
  | nil => rfl
  | cons c cs ih =>
    obtain ⟨first, rest, hbytes, hfirst, hrest⟩ := utf8EncodeChar_eq c
    have hnone : rest.countP (!isContinuation ·) = 0 := countP_eq_zero.mpr fun b hb => by simp [hrest b hb]
    rw [encode_cons, leads_append, ih, hbytes, leads, countP_cons_of_pos (by simp [hfirst]), hnone, length_cons,
      Nat.zero_add, Nat.add_comm]

/-- The next byte of a pending character continues it. -/
def Pending.Within (p : Pending) : Prop := 0x80 ≤ p.low ∧ p.high ≤ 0xBF

theorem leadByte_cases (b : Nat) :
    (∃ c, leadByte b = ([c], none)) ∨ ∃ p : Pending, leadByte b = ([], some p) ∧ p.Within := by
  by_cases hone : b < 0x80
  · exact .inl ⟨_, leadByte_one hone⟩
  by_cases htwo : 0xC2 ≤ b ∧ b ≤ 0xDF
  · exact .inr ⟨_, leadByte_two htwo.1 htwo.2, Nat.le_refl _, Nat.le_refl _⟩
  by_cases hthree : 0xE0 ≤ b ∧ b ≤ 0xEF
  · refine .inr ⟨_, leadByte_three hthree.1 hthree.2, ?_, ?_⟩ <;> dsimp only <;> split <;> omega
  by_cases hfour : 0xF0 ≤ b ∧ b ≤ 0xF4
  · refine .inr ⟨_, leadByte_four hfour.1 hfour.2, ?_, ?_⟩ <;> dsimp only <;> split <;> omega
  · exact .inl ⟨_, leadByte_bad (by omega)⟩

/-- A pending character takes a byte that continues it, or it breaks off and the byte begins anew. -/
theorem nextByte_cases (hp : p.Within) (b : UInt8) :
    (isContinuation b = true ∧ ((∃ c, nextByte (some p) b.toNat = ([c], none)) ∨
      ∃ q : Pending, nextByte (some p) b.toNat = ([], some q) ∧ q.Within)) ∨
    nextByte (some p) b.toNat = (replacement :: (leadByte b.toNat).1, (leadByte b.toNat).2) := by
  by_cases hin : p.low ≤ b.toNat ∧ b.toNat ≤ p.high
  · refine .inl ⟨?_, ?_⟩
    · simp only [isContinuation, Bool.and_eq_true, decide_eq_true_eq]
      exact ⟨Nat.le_trans hp.1 hin.1, Nat.le_trans hin.2 hp.2⟩
    by_cases hlast : p.missing = 1
    · exact .inl ⟨_, nextByte_last hin.1 hin.2 hlast⟩
    · exact .inr ⟨_, nextByte_inner hin.1 hin.2 hlast, Nat.le_refl _, Nat.le_refl _⟩
  · exact .inr (by rw [nextByte, if_neg (by simpa using hin)])

theorem leads_cons (b : UInt8) (bytes : List UInt8) :
    leads (b :: bytes) = leads bytes + if isContinuation b then 0 else 1 := by
  rw [leads, leads, countP_cons]
  cases isContinuation b <;> rfl

theorem leads_le_length (bytes : List UInt8) : leads bytes ≤ (decodeLossy none bytes).length ∧
    ∀ p : Pending, p.Within → leads bytes + 1 ≤ (decodeLossy (some p) bytes).length := by
  induction bytes with
  | nil => exact ⟨Nat.le_refl 0, fun p _ => Nat.le_refl 1⟩
  | cons b bytes ih =>
    obtain ⟨hnone, hsome⟩ := ih
    have hlead : leads (b :: bytes) ≤ ((leadByte b.toNat).1 ++ decodeLossy (leadByte b.toNat).2 bytes).length := by
      rw [leads_cons]
      rcases leadByte_cases b.toNat with ⟨c, heq⟩ | ⟨p, heq, hp⟩
      · simp only [heq, singleton_append, length_cons]
        split <;> omega
      · simp only [heq, nil_append]
        have := hsome p hp
        split <;> omega
    refine ⟨hlead, ?_⟩
    intro p hp
    rw [decodeLossy_cons]
    rcases nextByte_cases hp b with ⟨hcont, ⟨c, heq⟩ | ⟨q, heq, hq⟩⟩ | heq
    · rw [heq, leads_cons, if_pos hcont]
      exact Nat.succ_le_succ hnone
    · rw [heq, leads_cons, if_pos hcont]
      exact hsome q hq
    · rw [heq]
      exact Nat.succ_le_succ hlead

theorem leads_lt_length (h : isContinuation b = true) (bytes : List UInt8) :
    leads (b :: bytes) < (decodeLossy none (b :: bytes)).length := by
  simp only [isContinuation, Bool.and_eq_true, decide_eq_true_eq] at h
  have hbad : nextByte none b.toNat = ([replacement], none) := leadByte_bad (.inl (by omega))
  rw [decodeLossy_cons, hbad, leads_cons, if_pos (by simpa [isContinuation] using h)]
  exact Nat.lt_succ_of_le (leads_le_length bytes).1

variable {y : List UInt8}

theorem encode_cut {x : List UInt8} (h : encode cs = x ++ y) (hy : ∀ b ∈ y.head?, isContinuation b = false) :
    ∃ before after, cs = before ++ after ∧ x = encode before ∧ y = encode after := by
  induction cs generalizing x with
  | nil =>
    obtain ⟨rfl, rfl⟩ := append_eq_nil_iff.mp h.symm
    exact ⟨[], [], rfl, rfl, rfl⟩
  | cons c cs ih =>
    obtain ⟨first, rest, hbytes, hfirst, hrest⟩ := utf8EncodeChar_eq c
    rcases append_eq_append_iff.mp h with ⟨tail, rfl, htail⟩ | ⟨tail, htail, rfl⟩
    · obtain ⟨before, after, rfl, rfl, rfl⟩ := ih htail
      exact ⟨c :: before, after, rfl, rfl, rfl⟩
    -- The cut is inside the character, so before its first byte.
    cases tail with
    | nil =>
      rw [append_nil] at htail
      obtain ⟨before, after, rfl, hbefore, hafter⟩ := ih (x := []) rfl
      cases before with
      | nil => exact ⟨[c], after, rfl, by rw [← htail, encode_cons]; simp, hafter⟩
      | cons c' before =>
        obtain ⟨first', rest', hbytes', -⟩ := utf8EncodeChar_eq c'
        rw [encode_cons, hbytes'] at hbefore
        cases hbefore
    | cons b tail =>
      have hb := hy b rfl
      rw [hbytes] at htail
      cases x with
      | nil => exact ⟨[], c :: cs, rfl, rfl, by rw [encode_cons, hbytes]; rw [htail]; rfl⟩
      | cons b' x =>
        rw [cons_append, cons.injEq] at htail
        have hmem : b ∈ rest := by
          rw [htail.2]
          simp
        rw [hrest b hmem] at hb
        cases hb

/-- Pieces of a text that are read one by one give the text exactly if none begins inside a character. -/
theorem decodeLossy_pieces_iff {pieces : List (List UInt8)} (h : encode cs = pieces.flatten) :
    pieces.flatMap (decodeLossy none) = cs ↔ ∀ piece ∈ pieces, ∀ b ∈ piece.head?, isContinuation b = false := by
  constructor
  · intro heq
    by_contra hnot
    push Not at hnot
    obtain ⟨piece, hpiece, b, hb, hcont⟩ := hnot
    have hlt : leads pieces.flatten < (pieces.flatMap (decodeLossy none)).length := by
      have hle : ∀ pieces : List (List UInt8), leads pieces.flatten ≤ (pieces.flatMap (decodeLossy none)).length := by
        intro pieces
        induction pieces with
        | nil => exact Nat.le_refl 0
        | cons piece pieces ih =>
          rw [flatten_cons, leads_append, flatMap_cons, length_append]
          have := (leads_le_length piece).1
          omega
      obtain ⟨before, after, rfl⟩ := append_of_mem hpiece
      have hpieceLt : leads piece < (decodeLossy none piece).length := by
        cases piece with
        | nil => cases hb
        | cons b' bytes =>
          cases hb
          exact leads_lt_length (by simpa using hcont) bytes
      have hbefore := hle before
      have hafter := hle after
      rw [flatten_append, flatten_cons, leads_append, leads_append, flatMap_append, flatMap_cons,
        length_append, length_append]
      omega
    rw [← h, heq, leads_encode] at hlt
    exact Nat.lt_irrefl _ hlt
  · intro hheads
    induction pieces generalizing cs with
    | nil => exact (encode_eq_nil.mp h).symm
    | cons piece pieces ih =>
      obtain ⟨-, hrest⟩ := forall_mem_cons.mp hheads
      have hhead : ∀ b ∈ pieces.flatten.head?, isContinuation b = false := by
        clear h ih hheads
        induction pieces with
        | nil => exact fun _ hb => nomatch hb
        | cons next pieces ih =>
          obtain ⟨hnext, hrest'⟩ := forall_mem_cons.mp hrest
          cases next with
          | nil => exact ih hrest'
          | cons b bytes => exact hnext
      obtain ⟨before, after, rfl, rfl, hafter⟩ := encode_cut h hhead
      rw [flatMap_cons, decodeLossy_encode, ih hafter.symm hrest]

theorem encode_eq_append {ds : List Char} (h : encode cs = encode ds ++ y) : ∃ es, cs = ds ++ es ∧ y = encode es := by
  have hcs : cs = ds ++ decodeLossy none y := by
    rw [← decodeLossy_encode_append, ← h, decodeLossy_encode]
  refine ⟨decodeLossy none y, hcs, ?_⟩
  rw [hcs, encode_append] at h
  exact (append_cancel_left h).symm

/-- Where a character begins, what came before does not matter. -/
theorem decodeLossy_append (x : List UInt8) (hy : ∀ b ∈ y.head?, isContinuation b = false) :
    decodeLossy none (x ++ y) = decodeLossy none x ++ decodeLossy none y := by
  have hall : ∀ x : List UInt8, decodeLossy none (x ++ y) = decodeLossy none x ++ decodeLossy none y ∧
      ∀ p : Pending, p.Within → decodeLossy (some p) (x ++ y) = decodeLossy (some p) x ++ decodeLossy none y := by
    intro x
    induction x with
    | nil =>
      refine ⟨rfl, ?_⟩
      intro p hp
      cases y with
      | nil => rfl
      | cons b bytes =>
        rcases nextByte_cases hp b with ⟨hcont, -⟩ | heq
        · rw [hy b rfl] at hcont
          cases hcont
        · rw [nil_append, decodeLossy_cons, decodeLossy_cons, heq]
          rfl
    | cons b x ih =>
      have hlead : (leadByte b.toNat).1 ++ decodeLossy (leadByte b.toNat).2 (x ++ y) =
          (leadByte b.toNat).1 ++ decodeLossy (leadByte b.toNat).2 x ++ decodeLossy none y := by
        rcases leadByte_cases b.toNat with ⟨c, heq⟩ | ⟨p, heq, hp⟩
        · rw [heq, ih.1, append_assoc]
        · rw [heq, ih.2 p hp, append_assoc]
      refine ⟨hlead, ?_⟩
      intro p hp
      rw [cons_append, decodeLossy_cons, decodeLossy_cons, append_assoc]
      rcases nextByte_cases hp b with ⟨-, ⟨c, heq⟩ | ⟨q, heq, hq⟩⟩ | heq
      · rw [heq, ih.1]
      · rw [heq, ih.2 q hq]
      · rw [heq, cons_append, hlead, append_assoc, cons_append]
  exact (hall x).1

theorem head_encode_append (hcs : cs ≠ []) (y : List UInt8) :
    ∀ b ∈ (encode cs ++ y).head?, isContinuation b = false := by
  cases cs with
  | nil => exact absurd rfl hcs
  | cons c cs =>
    obtain ⟨first, rest, hbytes, hfirst, -⟩ := utf8EncodeChar_eq c
    intro b hb
    rw [encode_cons, hbytes] at hb
    cases hb
    exact hfirst

/-! ## What a pending character can become -/

/-- The bytes complete a pending character. -/
def Pending.Fills (p : Pending) (bytes : List UInt8) : Prop :=
  bytes.length = p.missing ∧ (∀ b ∈ bytes.head?, p.low ≤ b.toNat ∧ b.toNat ≤ p.high) ∧
    ∀ b ∈ bytes.tail, 0x80 ≤ b.toNat ∧ b.toNat ≤ 0xBF

theorem ofNat_eq_byte (b : UInt8) {n : Nat} (h : n = b.toNat) : UInt8.ofNat n = b := by
  rw [h, UInt8.ofNat_toNat]

theorem exists_char {v : Nat} (h : v < 0xD800 ∨ 0xDFFF < v ∧ v < 0x110000) : ∃ c : Char, c.val.toNat = v :=
  ⟨Char.ofNat v, by rw [Char.ofNat, dif_pos h]; rfl⟩

/-- Whatever fills it, a character comes of a byte that begins one. -/
theorem utf8EncodeChar_of_fills (h : (leadByte b.toNat).2 = some p) (hfills : p.Fills bytes) :
    ∃ c, b :: bytes = String.utf8EncodeChar c := by
  obtain ⟨hlength, hfirst, hrest⟩ := hfills
  by_cases hone : b.toNat < 0x80
  · rw [leadByte_one hone] at h; cases h
  by_cases hbad : b.toNat < 0xC2 ∨ 0xF4 < b.toNat
  · rw [leadByte_bad (by omega)] at h; cases h
  by_cases htwo : b.toNat ≤ 0xDF
  · rw [leadByte_two (by omega) htwo] at h
    obtain rfl := Option.some.inj h
    match bytes with
    | [x] =>
      simp at hfirst
      obtain ⟨c, hc⟩ := exists_char (v := (b.toNat - 0xC0) * 64 + (x.toNat - 0x80)) (by omega)
      refine ⟨c, ?_⟩
      rw [String.utf8EncodeChar, hc, if_neg (by omega), if_pos (by omega), ofNat_eq_byte b (by omega),
        ofNat_eq_byte x (by omega)]
  by_cases hthree : b.toNat ≤ 0xEF
  · rw [leadByte_three (by omega) hthree] at h
    obtain rfl := Option.some.inj h
    match bytes with
    | [x, y] =>
      simp at hfirst hrest
      have hx : 0x80 ≤ x.toNat ∧ x.toNat ≤ 0xBF ∧ (b.toNat = 0xE0 → 0xA0 ≤ x.toNat) ∧ (b.toNat = 0xED → x.toNat ≤ 0x9F) := by
        split at hfirst <;> split at hfirst <;> omega
      obtain ⟨c, hc⟩ := exists_char (v := ((b.toNat - 0xE0) * 64 + (x.toNat - 0x80)) * 64 + (y.toNat - 0x80)) (by omega)
      refine ⟨c, ?_⟩
      rw [String.utf8EncodeChar, hc, if_neg (by omega), if_neg (by omega), if_pos (by omega), ofNat_eq_byte b (by omega),
        ofNat_eq_byte x (by omega), ofNat_eq_byte y (by omega)]
  · rw [leadByte_four (by omega) (by omega)] at h
    obtain rfl := Option.some.inj h
    match bytes with
    | [x, y, z] =>
      simp at hfirst hrest
      have hx : 0x80 ≤ x.toNat ∧ x.toNat ≤ 0xBF ∧ (b.toNat = 0xF0 → 0x90 ≤ x.toNat) ∧ (b.toNat = 0xF4 → x.toNat ≤ 0x8F) := by
        split at hfirst <;> split at hfirst <;> omega
      obtain ⟨c, hc⟩ := exists_char
        (v := (((b.toNat - 0xF0) * 64 + (x.toNat - 0x80)) * 64 + (y.toNat - 0x80)) * 64 + (z.toNat - 0x80)) (by omega)
      refine ⟨c, ?_⟩
      rw [String.utf8EncodeChar, hc, if_neg (by omega), if_neg (by omega), if_neg (by omega), ofNat_eq_byte b (by omega),
        ofNat_eq_byte x (by omega), ofNat_eq_byte y (by omega), ofNat_eq_byte z (by omega)]
end TddyCoder.Text
