/-
  TddyCoder.SessionRoom.PatchSections — a tick's patch sliced by file (`patch_sections`,
  `patch_section`, `select_sections` of
  `packages/tddy-daemon-livekit/src/session_room.rs`).

  A section begins at a line that starts with `diff --git ` and runs to the next one. Its
  names are read from its own header: the `---` and `+++` lines, the rename and copy lines,
  or, where there are none of these, the header line itself.
-/

import TddyCoder.Text.Sections
import TddyCoder.Text.Str
import TddyCoder.Text.Utf8

namespace TddyCoder.SessionRoom

open Text List

def newline : UInt8 := 10

def patchSectionHeader : List UInt8 := ascii "diff --git "

structure PatchSection where
  names : List String
  reported : String
  bytes : List UInt8
  deriving DecidableEq

/-! ## Names -/

def isOctal (b : UInt8) : Bool := 0x30 ≤ b.toNat && b.toNat ≤ 0x37

def unescaped (b : UInt8) : UInt8 :=
  if b.toNat = 0x61 then 0x07 else if b.toNat = 0x62 then 0x08 else if b.toNat = 0x66 then 0x0C
  else if b.toNat = 0x6E then 0x0A else if b.toNat = 0x72 then 0x0D else if b.toNat = 0x74 then 0x09
  else if b.toNat = 0x76 then 0x0B else b

def octal (value : Nat) (digit : UInt8) : Nat := value * 8 + (digit.toNat - 0x30)

/-- The bytes up to the closing quote, and what follows it; as many rounds as there are bytes are enough. -/
def takeCQuotedFrom : Nat → List UInt8 → List UInt8 → Option (List UInt8 × List UInt8)
  | 0, _, _ => none
  | _ + 1, _, [] => none
  | fuel + 1, name, byte :: rest =>
    if byte.toNat = 0x22 then some (name, rest)
    else if byte.toNat = 0x5C then
      match rest with
      | [] => none
      | escaped :: rest =>
        if isOctal escaped then
          -- up to three octal digits, of which one has been read
          let digits := (rest.take 2).takeWhile isOctal
          takeCQuotedFrom fuel (name ++ [UInt8.ofNat ((escaped :: digits).foldl octal 0)]) (rest.drop digits.length)
        else takeCQuotedFrom fuel (name ++ [unescaped escaped]) rest
    else takeCQuotedFrom fuel (name ++ [byte]) rest

def takeCQuoted (bytes : List UInt8) : Option (String × List UInt8) :=
  ((ascii "\"").isPrefixOf? bytes).bind fun rest =>
    (takeCQuotedFrom rest.length [] rest).map fun (name, rest) => (fromUtf8Lossy name, rest)

variable (name : List UInt8)

def unquotedName : String :=
  match takeCQuoted name with
  | some (unquoted, _) => unquoted
  | none => fromUtf8Lossy name

def stripSuffix (b : UInt8) (line : List UInt8) : List UInt8 :=
  if line.getLast? = some b then line.dropLast else line

def trimmedLineEnd (line : List UInt8) : List UInt8 := stripSuffix 0x0D line

def sideNameTerminatorTrimmed : List UInt8 := stripSuffix 0x09 name

def sideName (side : String) : Option String :=
  let name := sideNameTerminatorTrimmed (trimmedLineEnd name)
  if name = ascii "/dev/null" then none else some (dropPrefix side (unquotedName name))

/-- Each way to read `a/<old> b/<new>`, from the left; `before` is what has been passed over. -/
def headerSplits (before : List Char) : List Char → List (String × String)
  | [] => []
  | c :: rest =>
    let here := if [' ', 'b', '/'].isPrefixOf (c :: rest) then
        match ['a', '/'].isPrefixOf? before, ['b', '/'].isPrefixOf? rest with
        | some old, some new => [(String.ofList old, String.ofList new)]
        | _, _ => []
      else []
    here ++ headerSplits (before ++ [c]) rest

def headerNames (header : List UInt8) : Option String × Option String :=
  match patchSectionHeader.isPrefixOf? header with
  | none => (none, none)
  | some rest =>
    let rest := trimmedLineEnd rest
    if (ascii "\"").isPrefixOf rest then
      match takeCQuoted rest with
      | none => (none, none)
      | some (old, after) =>
        match takeCQuoted (((ascii " ").isPrefixOf? after).getD after) with
        | none => (none, none)
        | some (new, _) => (some (dropPrefix "a/" old), some (dropPrefix "b/" new))
    else
      let splits := headerSplits [] (fromUtf8Lossy rest).toList
      match (splits.find? fun (old, new) => old = new) <|> splits.head? with
      | some (old, new) => (some old, some new)
      | none => (none, none)

def endsHeader (line : List UInt8) : Bool :=
  (ascii "@@").isPrefixOf line || (ascii "GIT binary patch").isPrefixOf line || (ascii "Binary files ").isPrefixOf line

/-- The preimage and the postimage as far as read, after one more header line. -/
def readHeaderLine (images : Option String × Option String) (line : List UInt8) : Option String × Option String :=
  match (ascii "--- ").isPrefixOf? line with
  | some name => (sideName name "a/", images.2)
  | none =>
    match (ascii "+++ ").isPrefixOf? line with
    | some name => (images.1, sideName name "b/")
    | none =>
      match (ascii "rename from ").isPrefixOf? line <|> (ascii "copy from ").isPrefixOf? line with
      | some name => (some (unquotedName (trimmedLineEnd name)), images.2)
      | none =>
        match (ascii "rename to ").isPrefixOf? line <|> (ascii "copy to ").isPrefixOf? line with
        | some name => (images.1, some (unquotedName (trimmedLineEnd name)))
        | none => images

def patchSection (bytes : List UInt8) : PatchSection :=
  let lines := bytes.splitOn newline
  let header := lines.headD []
  let read := (lines.tail.takeWhile fun line => !endsHeader line).foldl readHeaderLine (none, none)
  let images := if read.1.isNone && read.2.isNone then headerNames header else read
  { names := (images.1.toList ++ images.2.toList).eraseDups
    reported := (images.2 <|> images.1).getD ""
    bytes := bytes }

/-! ## Sections -/

variable (patch : List UInt8)

def patchSections : List PatchSection :=
  (sections newline patchSectionHeader.isPrefixOf patch).map patchSection

def PatchSection.namesAnyIn (s : PatchSection) (claimed : List String) : Bool := s.names.any claimed.contains

/-- The bytes of the sections `keep` selects, in patch order, and the names they are reported under. -/
def selectSections (keep : PatchSection → Bool) : List UInt8 × List String :=
  let kept := (patchSections patch).filter keep
  (kept.flatMap (·.bytes), (kept.map (·.reported)).filter (· ≠ ""))

theorem flatMap_bytes (slices : List (List UInt8)) : (slices.map patchSection).flatMap (·.bytes) = slices.flatten := by
  rw [flatMap_map]
  simp [patchSection, flatMap_id']

/-- A slice is cut into the sections it was made of. -/
theorem patchSections_select (keep : PatchSection → Bool) :
    patchSections (selectSections patch keep).1 = (patchSections patch).filter keep := by
  have hkept : (patchSections patch).filter keep =
      ((sections newline patchSectionHeader.isPrefixOf patch).filter (keep ∘ patchSection)).map patchSection :=
    filter_map
  have hsub : ((sections newline patchSectionHeader.isPrefixOf patch).filter (keep ∘ patchSection)).Sublist
      (sections newline patchSectionHeader.isPrefixOf patch) := filter_sublist
  show patchSections (((patchSections patch).filter keep).flatMap (·.bytes)) = _
  rw [hkept, flatMap_bytes, patchSections, (sections_of_selection hsub).1]

theorem flatMap_patchSections :
    (patchSections patch).flatMap (·.bytes) = patch ↔ patch = [] ∨ patchSectionHeader <+: patch := by
  have hsplit : preamble newline patchSectionHeader.isPrefixOf patch ++
      (sections newline patchSectionHeader.isPrefixOf patch).flatten = patch := preamble_sections newline patch
  have hfirst : patchSectionHeader <+: patch ↔
      ∃ line lines, splitInclusive newline patch = line :: lines ∧ patchSectionHeader <+: line :=
    prefix_firstLine (by decide) (by decide) patch
  have hpre : preamble newline patchSectionHeader.isPrefixOf patch = [] ↔ _ := preamble_eq_nil newline patch
  simp only [List.isPrefixOf_iff_prefix] at hpre
  rw [patchSections, flatMap_bytes, hfirst, ← hpre]
  constructor
  · intro h
    rw [h] at hsplit
    exact append_left_eq_self.mp hsplit
  · intro h
    rw [h] at hsplit
    exact hsplit

end TddyCoder.SessionRoom
