/-
  TddyCoder.Text.Str — string operations of a standard library, over characters.

  `trim` drops Unicode white space (the `White_Space` property) at both ends; `split`
  keeps empty segments, so a string has one segment more than it has separators;
  `stripPrefix` answers what follows a prefix, or nothing when it is not there.
-/

import Mathlib.Data.List.Basic

namespace TddyCoder.Text

/-- Unicode `White_Space`. -/
def isWhitespace (c : Char) : Bool :=
  let n := c.toNat
  (9 ≤ n && n ≤ 13) || n == 0x20 || n == 0x85 || n == 0xA0 || n == 0x1680 || (0x2000 ≤ n && n ≤ 0x200A) ||
    n == 0x2028 || n == 0x2029 || n == 0x202F || n == 0x205F || n == 0x3000

def trim (s : String) : String :=
  String.ofList ((s.toList.dropWhile isWhitespace).reverse.dropWhile isWhitespace).reverse

def split (c : Char) (s : String) : List String := (s.toList.splitOn c).map String.ofList

def lastSegment (c : Char) (s : String) : Option String := (split c s).getLast?

def stripPrefix (pre s : String) : Option String :=
  if pre.toList <+: s.toList then some (String.ofList (s.toList.drop pre.toList.length)) else none

/-- What stays of `s` once the prefix, if it is there, is taken off. -/
def dropPrefix (pre s : String) : String := (stripPrefix pre s).getD s

theorem stripPrefix_append (pre s : String) : stripPrefix pre (pre ++ s) = some s := by
  simp [stripPrefix]

@[simp] theorem dropPrefix_append (pre s : String) : dropPrefix pre (pre ++ s) = s := by
  simp [dropPrefix, stripPrefix_append]

example : split '/' "feature//x" = ["feature", "", "x"] := by decide

example : trim " a b\n" = "a b" := by decide

end TddyCoder.Text
