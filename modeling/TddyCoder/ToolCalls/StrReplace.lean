/-
  TddyCoder.ToolCalls.StrReplace — the `StrReplace` tool, on the host's own files
  (`packages/tddy-tool-engine/src/lib.rs`: `tool_str_replace`) and over ssh (`shell.rs`:
  `remote_tool_str_replace`, `RemoteShell`), with the report of the edit (`edited_region.rs`).

  What the world does is given in advance (`World`); a write that fails leaves something behind,
  the old bytes at best. The local backend reads only UTF-8 and refuses an old string it meets
  more than once, counting one occurrence behind the other; the remote one puts U+FFFD for what
  is no text and takes the first. `cat`, `printf` and `base64` do what they say.

  Proved: `str_replace_keeps_its_word_iff`; it does not in
  `an_overlap_is_edited_and_a_stray_byte_is_rewritten`.
-/

import Mathlib.Order.Interval.Set.Monotone
import TddyCoder.Text.Search
import TddyCoder.Text.Utf8

namespace TddyCoder.ToolCalls

open Text List

/-! ## What a tool answers -/

inductive Json
  | bool (value : Bool)
  | num (value : Nat)
  | str (value : String)
  | obj (fields : List (String × Json))

structure ToolOutcome where
  resultJson : Json
  isError : Bool
  errorMessage : String
  jobId : String := ""
  jobRunning : Bool := false

namespace ToolOutcome

def ok (resultJson : Json) : ToolOutcome := { resultJson, isError := false, errorMessage := "" }

def err (message : String) : ToolOutcome :=
  { resultJson := .obj [("error", .str message)], isError := true, errorMessage := message }

def errJson (fields : List (String × Json)) : ToolOutcome :=
  { resultJson := .obj fields
    isError := true
    errorMessage := match fields.lookup "error" with
      | some (.str message) => message
      | _ => "" }

end ToolOutcome

/-! ## The region of an edit -/

def editedRegionContextLines : Nat := 8

structure EditedRegion where
  text : List Char
  line : Nat

/-- `str::lines`: a line that ends loses the newline and a carriage return before it, and there is no empty last one. -/
def lines (content : List Char) : List (List Char) :=
  let pieces := content.splitOn '\n'
  let ended := pieces.dropLast.map fun line => if line.getLast? = some '\r' then line.dropLast else line
  match pieces.getLast? with
  | some (c :: rest) => ended ++ [c :: rest]
  | _ => ended

def editedRegion (content : List Char) (editOffset : Nat) : EditedRegion :=
  let all := lines content
  let edited := (content.take editOffset).count '\n'
  let first := edited - editedRegionContextLines
  let last := min (edited + editedRegionContextLines) (all.length - 1)
  { text := if first ≤ last + 1 ∧ last < all.length then
      List.intercalate ['\n'] ((all.drop first).take (last + 1 - first)) else []
    line := edited + 1 }

/-! ## The tool -/

structure StrReplaceArgs where
  path : Option String
  oldString : Option String
  newString : Option String

inductive WriteOutcome
  | done
  /-- The write is reported as failed, and the file holds `left`. -/
  | failed (message : String) (left : List UInt8)

structure World where
  contained : Except String Unit
  read : Except String Unit
  write : WriteOutcome

variable (world : World)

def World.writeString (contents : List Char) : Except String Unit × List UInt8 :=
  match world.write with
  | .done => (.ok (), encode contents)
  | .failed message left => (.error message, left)

inductive ShellKind
  | localShell
  | remoteShell

variable (args : StrReplaceArgs)

/-- Both backends ask for the same arguments in the same words. -/
def strReplaceArgs : Except ToolOutcome (List Char × List Char) :=
  match args.path, args.oldString, args.newString with
  | none, _, _ => .error (.err "StrReplace: missing 'path' argument")
  | some _, none, _ => .error (.err "StrReplace: missing 'old_string' argument")
  | some _, some _, none => .error (.err "StrReplace: missing 'new_string' argument")
  | some _, some oldString, some newString => .ok (oldString.toList, newString.toList)

variable (bytes : List UInt8)

def World.readToString : Except String (List Char) :=
  match world.read with
  | .error e => .error e
  | .ok () =>
    match fromUtf8 bytes with
    | none => .error "stream did not contain valid UTF-8"
    | some content => .ok content

def toolStrReplace : ToolOutcome × List UInt8 :=
  match strReplaceArgs args with
  | .error outcome => (outcome, bytes)
  | .ok (oldString, newString) =>
    match world.contained with
    | .error e => (.err ("StrReplace: " ++ e), bytes)
    | .ok () =>
      match world.readToString bytes with
      | .error e => (.err ("StrReplace: read failed: " ++ e), bytes)
      | .ok content =>
        match splitFirst oldString content with
        | none =>
          (.errJson [("error", .str "StrReplace: old_string not found in file"), ("matchedOccurrences", .num 0)], bytes)
        | some (before, after) =>
          let count := countMatches oldString 0 content
          if count > 1 then
            (.err ("StrReplace: old_string matches " ++ toString count ++ " times (must be unique)"), bytes)
          else
            let newContent := before ++ newString ++ after
            let region := editedRegion newContent before.length
            match world.writeString newContent with
            | (.ok (), file) =>
              (.ok (.obj [("replaced", .bool true), ("matchedOccurrences", .num count),
                ("bytes_written", .num (encode newContent).length),
                ("edited_region", .str (String.ofList region.text)), ("edited_line", .num region.line)]), file)
            | (.error e, file) => (.err ("StrReplace: write failed: " ++ e), file)

/-- `RemoteShell::read_to_string`: what `cat` prints, the lossy way. -/
def World.remoteReadToString : Except String (List Char) :=
  match world.contained, world.read with
  | .error e, _ => .error e
  | .ok (), .error e => .error e
  | .ok (), .ok () => .ok (decodeLossy none bytes)

def remoteToolStrReplace : ToolOutcome × List UInt8 :=
  match strReplaceArgs args with
  | .error outcome => (outcome, bytes)
  | .ok (oldString, newString) =>
    match world.remoteReadToString bytes with
    | .error e => (.err ("StrReplace: read failed: " ++ e), bytes)
    | .ok content =>
      match splitFirst oldString content with
      | none => (.err "StrReplace: old_string not found in file", bytes)
      | some (before, after) =>
        let updated := before ++ newString ++ after
        let region := editedRegion updated before.length
        match world.writeString updated with
        | (.ok (), file) =>
          (.ok (.obj [("replaced", .bool true), ("edited_region", .str (String.ofList region.text)),
            ("edited_line", .num region.line)]), file)
        | (.error e, file) => (.err ("StrReplace: write failed: " ++ e), file)

def strReplace : ShellKind → World → StrReplaceArgs → List UInt8 → ToolOutcome × List UInt8
  | .localShell => toolStrReplace
  | .remoteShell => remoteToolStrReplace

/-! ## What is promised -/

/-- `old` was at one place of `before`, and `after` is `before` with `new` there. -/
def ReplacedOnce (old new before after : List UInt8) : Prop :=
  ∃ i, OccursOnce old before i ∧ after = before.take i ++ new ++ before.drop (i + old.length)

/-- The answer and the file afterwards are as promised. -/
def KeepsItsWord (result : ToolOutcome × List UInt8) : Prop :=
  (result.1.isError = false → ∃ oldString newString, args.oldString = some oldString ∧ args.newString = some newString ∧
    ReplacedOnce (encode oldString.toList) (encode newString.toList) bytes result.2) ∧
  (result.1.isError = true → result.2 = bytes)

/-- The old string and the file are such that an edit is as promised. -/
def Replaceable (oldString : List Char) (bytes : List UInt8) : ShellKind → Prop
  | .localShell => (fromUtf8 bytes).isSome → ¬ Entangled (encode oldString) bytes
  | .remoteShell => splitFirst oldString (decodeLossy none bytes) ≠ none →
      (fromUtf8 bytes).isSome ∧ ∃ i, OccursOnce (encode oldString) bytes i

def Writes (oldString : List Char) (bytes : List UInt8) : ShellKind → Prop
  | .localShell => ∃ content, fromUtf8 bytes = some content ∧ countMatches oldString 0 content = 1
  | .remoteShell => splitFirst oldString (decodeLossy none bytes) ≠ none

/-- What the world has to be for a call to keep its word. -/
def Safe (kind : ShellKind) (world : World) (args : StrReplaceArgs) (bytes : List UInt8) : Prop :=
  ∀ path oldString newString, args = ⟨some path, some oldString, some newString⟩ →
    world.contained = .ok () → world.read = .ok () →
      match world.write with
      | .done => Replaceable oldString.toList bytes kind
      | .failed _ left => Writes oldString.toList bytes kind → left = bytes

/-! ## Occurrences in characters and in bytes -/

variable {before after : List Char}

section

variable {old content : List Char}

def byteAt (content : List Char) (k : Nat) : Nat := (encode (content.take k)).length

theorem byteAt_strictMonoOn (content : List Char) : StrictMonoOn (byteAt content) (Set.Iic content.length) := by
  intro k _ m (hm : m ≤ content.length) hkm
  have hsplit : content.take m = content.take k ++ (content.drop k).take (m - k) := by
    rw [← take_add, Nat.add_sub_cancel' (Nat.le_of_lt hkm)]
  have hne : (content.drop k).take (m - k) ≠ [] := by
    rw [← length_pos_iff, length_take, length_drop]
    omega
  have hpos := length_pos_iff.mpr (mt encode_eq_nil.mp hne)
  rw [byteAt, byteAt, hsplit, encode_append, length_append]
  omega

theorem byteAt_le_iff {k m : Nat} (hk : k ≤ content.length) (hm : m ≤ content.length) :
    byteAt content k ≤ byteAt content m ↔ k ≤ m :=
  (byteAt_strictMonoOn content).le_iff_le hk hm

theorem byteAt_injOn {k m : Nat} (hk : k ≤ content.length) (hm : m ≤ content.length)
    (h : byteAt content k = byteAt content m) : k = m :=
  (byteAt_strictMonoOn content).injOn hk hm h

theorem byteAt_past {k : Nat} (h : OccursAt old content k) :
    k + old.length ≤ content.length ∧ byteAt content (k + old.length) = byteAt content k + (encode old).length := by
  obtain ⟨before, after, rfl, rfl⟩ := occursAt_iff.mp h
  refine ⟨by simp only [length_append]; omega, ?_⟩
  rw [byteAt, byteAt, append_assoc, take_left, ← length_append, ← append_assoc, take_left,
    encode_append, length_append]

/-- A text occurs in the bytes of another where it does in its characters. -/
theorem occursAt_encode (hold : old ≠ []) {j : Nat} :
    OccursAt (encode old) (encode content) j ↔ ∃ k, OccursAt old content k ∧ byteAt content k = j := by
  constructor
  · intro h
    obtain ⟨x, y, heq, rfl⟩ := occursAt_iff.mp h
    rw [append_assoc] at heq
    obtain ⟨before, rest, rfl, rfl, hrest⟩ := encode_cut heq (head_encode_append hold y)
    obtain ⟨after, rfl, -⟩ := encode_eq_append hrest.symm
    refine ⟨before.length, occursAt_iff.mpr ⟨before, after, by rw [append_assoc], rfl⟩, ?_⟩
    rw [byteAt, take_left]
  · intro ⟨k, hk, hj⟩
    obtain ⟨before, after, rfl, rfl⟩ := occursAt_iff.mp hk
    refine occursAt_iff.mpr ⟨encode before, encode after, by rw [encode_append, encode_append], ?_⟩
    rw [← hj, byteAt, append_assoc, take_left]

theorem entangled_encode : Entangled (encode old) (encode content) ↔ Entangled old content := by
  by_cases hold : old = []
  · subst hold
    exact ⟨fun h => absurd h not_entangled_nil_needle, fun h => absurd h not_entangled_nil_needle⟩
  constructor
  · intro ⟨i, j, hi, hj, hne, hall⟩
    obtain ⟨k, hk, rfl⟩ := (occursAt_encode hold).mp hi
    obtain ⟨m, hm, rfl⟩ := (occursAt_encode hold).mp hj
    refine ⟨k, m, hk, hm, fun heq => hne (by rw [heq]), ?_⟩
    intro n hn
    obtain ⟨hlow, hhigh⟩ := hall _ ((occursAt_encode hold).mpr ⟨n, hn, rfl⟩)
    obtain ⟨hend, hpast⟩ := byteAt_past hk
    refine ⟨(byteAt_le_iff hk.1 hn.1).mp hlow, ?_⟩
    by_contra hle
    have := (byteAt_le_iff hend hn.1).mpr (Nat.le_of_not_lt hle)
    omega
  · intro ⟨k, m, hk, hm, hne, hall⟩
    refine ⟨_, _, (occursAt_encode hold).mpr ⟨k, hk, rfl⟩, (occursAt_encode hold).mpr ⟨m, hm, rfl⟩, ?_, ?_⟩
    · exact fun heq => hne (byteAt_injOn hk.1 hm.1 heq)
    intro j hj
    obtain ⟨n, hn, rfl⟩ := (occursAt_encode hold).mp hj
    obtain ⟨hlow, hhigh⟩ := hall n hn
    obtain ⟨hend, hpast⟩ := byteAt_past hk
    refine ⟨(byteAt_le_iff hk.1 hn.1).mpr hlow, ?_⟩
    have := byteAt_strictMonoOn content hn.1 hend hhigh
    omega

theorem occursOnce_encode :
    OccursOnce (encode old) (encode (before ++ old ++ after)) (encode before).length ↔
      OccursOnce old (before ++ old ++ after) before.length := by
  by_cases hold : old = []
  · subst hold
    rw [encode_nil, occursOnce_nil_needle, occursOnce_nil_needle, encode_eq_nil, length_eq_zero_iff,
      length_eq_zero_iff, encode_eq_nil]
  have hbefore : byteAt (before ++ old ++ after) before.length = (encode before).length := by
    rw [byteAt, append_assoc, take_left]
  have hhere : OccursAt old (before ++ old ++ after) before.length := occursAt_iff.mpr ⟨before, after, rfl, rfl⟩
  constructor
  · intro h k
    refine ⟨?_, fun heq => by rw [heq]; exact hhere⟩
    intro hk
    exact byteAt_injOn hk.1 hhere.1 (((h _).mp ((occursAt_encode hold).mpr ⟨k, hk, rfl⟩)).trans hbefore.symm)
  intro h j
  rw [occursAt_encode hold]
  constructor
  · intro ⟨k, hk, hj⟩
    rw [← hj, (h k).mp hk, hbefore]
  · intro heq
    exact ⟨_, hhere, hbefore.trans heq.symm⟩

end

/-! ## Replacing in a text -/

variable {old new : List Char}

theorem length_before_of_once {i : Nat} (h : OccursOnce (encode old) (encode (before ++ old ++ after)) i) :
    (encode before).length = i :=
  (h _).mp (occursAt_iff.mpr ⟨encode before, encode after, by rw [encode_append, encode_append], rfl⟩)

/-- Replacing the first occurrence in a text is as promised exactly if it is the only one. -/
theorem replacedOnce_iff :
    ReplacedOnce (encode old) (encode new) (encode (before ++ old ++ after)) (encode (before ++ new ++ after)) ↔
      ∃ i, OccursOnce (encode old) (encode (before ++ old ++ after)) i := by
  constructor
  · intro ⟨i, honce, _⟩
    exact ⟨i, honce⟩
  intro ⟨i, honce⟩
  refine ⟨i, honce, ?_⟩
  rw [← length_before_of_once honce, encode_append, encode_append, encode_append, encode_append, ← length_append, drop_left,
    append_assoc (encode before) (encode old), take_left]

variable {bytes : List UInt8}

theorem valid_of_replacedOnce (hread : decodeLossy none bytes = before ++ old ++ after)
    (h : ReplacedOnce (encode old) (encode new) bytes (encode (before ++ new ++ after))) :
    ∃ content, bytes = encode content := by
  obtain ⟨i, honce, hafter⟩ := h
  obtain ⟨x, y, hbytes, hx⟩ := occursAt_iff.mp ((honce i).mpr rfl)
  have hedited : encode (before ++ new ++ after) = x ++ (encode new ++ y) := by
    rw [hafter, ← hx, hbytes, ← length_append, drop_left, append_assoc x, take_left, append_assoc]
  -- Where what is left of `old` is a text and what is right of it, so is the whole.
  have hjoin : ∀ a b, x = encode a → y = encode b → ∃ content, bytes = encode content := by
    intro a b ha hb
    exact ⟨a ++ old ++ b, by rw [hbytes, ha, hb, encode_append, encode_append]⟩
  by_cases hold : old = []
  · subst hold
    exact ⟨[], (occursOnce_nil_needle.mp honce).1⟩
  by_cases hnew : new = []
  · subst hnew
    by_cases hcont : ∀ b ∈ y.head?, isContinuation b = false
    · obtain ⟨a, b, -, ha, hb⟩ := encode_cut hedited hcont
      exact hjoin a b ha hb
    -- A byte that continues a character comes right after `old`, so reading made one character more of it.
    exfalso
    push Not at hcont
    obtain ⟨b, hb, hcont⟩ := hcont
    have hmore : leads y < (decodeLossy none y).length := by
      cases y with
      | nil => cases hb
      | cons b' y =>
        cases hb
        exact leads_lt_length (by simpa using hcont) y
    have hless := (leads_le_length x).1
    have hlen := congrArg List.length hread
    rw [hbytes, append_assoc, decodeLossy_append x (head_encode_append hold y), decodeLossy_encode_append] at hlen
    have hleads := leads_encode (before ++ [] ++ after)
    rw [hedited, leads_append] at hleads
    simp only [length_append, length_nil, encode_nil, nil_append] at hlen hleads
    omega
  · obtain ⟨a, rest, -, ha, hrest⟩ := encode_cut hedited (head_encode_append hnew y)
    obtain ⟨b, -, hb⟩ := encode_eq_append hrest.symm
    exact hjoin a b ha hb

/-! ## A call -/

variable {outcome : ToolOutcome}

theorem keepsItsWord_unchanged (args : StrReplaceArgs) (bytes : List UInt8)
    (h : outcome.isError = true) : KeepsItsWord args bytes (outcome, bytes) :=
  ⟨fun hok => absurd (h.symm.trans hok) (by decide), fun _ => rfl⟩

theorem strReplaceArgs_cases (args : StrReplaceArgs) :
    (∃ outcome, strReplaceArgs args = .error outcome ∧ outcome.isError = true ∧
      ∀ path oldString newString, args ≠ ⟨some path, some oldString, some newString⟩) ∨
    ∃ path oldString newString, args = ⟨some path, some oldString, some newString⟩ := by
  obtain ⟨path, oldString, newString⟩ := args
  cases path with
  | none => exact .inl ⟨_, rfl, rfl, nofun⟩
  | some path =>
    cases oldString with
    | none => exact .inl ⟨_, rfl, rfl, nofun⟩
    | some oldString =>
      cases newString with
      | none => exact .inl ⟨_, rfl, rfl, nofun⟩
      | some newString => exact .inr ⟨_, _, _, rfl⟩

theorem refused (kind : ShellKind) (world : World) (args : StrReplaceArgs) (bytes : List UInt8)
    (h : world.contained ≠ .ok () ∨ world.read ≠ .ok ()) : KeepsItsWord args bytes (strReplace kind world args bytes) := by
  obtain ⟨outcome, hargs, herr, -⟩ | ⟨path, oldString, newString, rfl⟩ := strReplaceArgs_cases args
  · cases kind <;> simp only [strReplace, toolStrReplace, remoteToolStrReplace, hargs] <;>
      exact keepsItsWord_unchanged _ _ herr
  obtain ⟨contained, read, write⟩ := world
  cases contained with
  | error e => cases kind <;> exact keepsItsWord_unchanged _ _ rfl
  | ok =>
    cases read with
    | error e => cases kind <;> exact keepsItsWord_unchanged _ _ rfl
    | ok => exact (h.elim (fun h => h rfl) (fun h => h rfl)).elim

section

variable {path oldString newString : String} {bytes : List UInt8} {write : WriteOutcome} {kind : ShellKind}

def Owed (oldString : String) (bytes : List UInt8) (kind : ShellKind) : WriteOutcome → Prop
  | .done => Replaceable oldString.toList bytes kind
  | .failed _ left => Writes oldString.toList bytes kind → left = bytes

theorem keepsItsWord_ends (herr : outcome.isError = true)
    (hsafe : Replaceable oldString.toList bytes kind) (hends : ¬ Writes oldString.toList bytes kind) :
    KeepsItsWord ⟨some path, some oldString, some newString⟩ bytes (outcome, bytes) ↔ Owed oldString bytes kind write := by
  have hword := keepsItsWord_unchanged ⟨some path, some oldString, some newString⟩ bytes herr
  cases write with
  | done => exact ⟨fun _ => hsafe, fun _ => hword⟩
  | failed message left => exact ⟨fun _ hwrites => absurd hwrites hends, fun _ => hword⟩

theorem keepsItsWord_writes {contents : List Char} {json : Json}
    (hwrites : Writes oldString.toList bytes kind)
    (hdone : ReplacedOnce (encode oldString.toList) (encode newString.toList) bytes (encode contents) ↔
      Replaceable oldString.toList bytes kind) :
    KeepsItsWord ⟨some path, some oldString, some newString⟩ bytes
        (match World.writeString ⟨.ok (), .ok (), write⟩ contents with
          | (.ok (), file) => (.ok json, file)
          | (.error e, file) => (.err ("StrReplace: write failed: " ++ e), file)) ↔ Owed oldString bytes kind write := by
  cases write with
  | done =>
    refine Iff.trans ⟨fun hword => ?_, fun honce => ?_⟩ hdone
    · obtain ⟨old, new, hold, hnew, honce⟩ := hword.1 rfl
      cases hold
      cases hnew
      exact honce
    · exact ⟨fun _ => ⟨_, _, rfl, rfl, honce⟩, nofun⟩
  | failed message left =>
    have h : KeepsItsWord ⟨some path, some oldString, some newString⟩ bytes
        (ToolOutcome.err ("StrReplace: write failed: " ++ message), left) ↔ left = bytes :=
      ⟨fun hword => hword.2 rfl, fun heq => heq ▸ keepsItsWord_unchanged _ left rfl⟩
    exact ⟨fun hword _ => h.mp hword, fun heq => h.mpr (heq hwrites)⟩

theorem local_keeps_its_word_iff :
    KeepsItsWord ⟨some path, some oldString, some newString⟩ bytes
        (toolStrReplace ⟨.ok (), .ok (), write⟩ ⟨some path, some oldString, some newString⟩ bytes) ↔
      Owed oldString bytes .localShell write := by
  simp only [toolStrReplace, strReplaceArgs, World.readToString]
  cases hutf8 : fromUtf8 bytes with
  | none =>
    refine keepsItsWord_ends rfl ?_ ?_
    · intro hsome
      rw [hutf8] at hsome
      cases hsome
    · rintro ⟨_, hsome, _⟩
      rw [hutf8] at hsome
      cases hsome
  | some content =>
    have hbytes := fromUtf8_eq_some.mp hutf8
    have hwrites : Writes oldString.toList bytes .localShell ↔ countMatches oldString.toList 0 content = 1 := by
      refine ⟨?_, fun hcount => ⟨content, hutf8, hcount⟩⟩
      rintro ⟨content', hutf8', hcount⟩
      rw [hutf8] at hutf8'
      cases hutf8'
      exact hcount
    have hentangled : Replaceable oldString.toList bytes .localShell ↔ ¬ Entangled oldString.toList content := by
      rw [← entangled_encode, ← hbytes]
      refine ⟨fun h => h (by rw [hutf8]; rfl), fun h _ => h⟩
    dsimp only
    cases hfirst : splitFirst oldString.toList content with
    | none =>
      have hcount := countMatches_eq_zero.mpr hfirst
      refine keepsItsWord_ends rfl (hentangled.mpr ?_) (fun h => ?_)
      · rintro ⟨i, _, hi, _⟩
        exact splitFirst_eq_none.mp hfirst i hi
      · have := hwrites.mp h
        omega
    | some parts =>
      obtain ⟨hcontent, -⟩ := splitFirst_eq_some hfirst
      dsimp only
      by_cases hcount : countMatches oldString.toList 0 content > 1
      · rw [if_pos hcount]
        refine keepsItsWord_ends rfl (hentangled.mpr (not_entangled_of_count hfirst (by omega))) (fun h => ?_)
        have := hwrites.mp h
        omega
      rw [if_neg hcount]
      have hsome : countMatches oldString.toList 0 content ≠ 0 := by
        intro hzero
        rw [countMatches_eq_zero.mp hzero] at hfirst
        cases hfirst
      refine keepsItsWord_writes (hwrites.mpr (by omega)) ?_
      rw [hentangled, ← occursOnce_iff hfirst (by omega), hbytes, hcontent, replacedOnce_iff,
        ← occursOnce_encode]
      constructor
      · rintro ⟨i, honce⟩
        rw [length_before_of_once honce]
        exact honce
      · intro honce
        exact ⟨_, honce⟩

theorem remote_keeps_its_word_iff :
    KeepsItsWord ⟨some path, some oldString, some newString⟩ bytes
        (remoteToolStrReplace ⟨.ok (), .ok (), write⟩ ⟨some path, some oldString, some newString⟩ bytes) ↔
      Owed oldString bytes .remoteShell write := by
  simp only [remoteToolStrReplace, strReplaceArgs, World.remoteReadToString]
  cases hfirst : splitFirst oldString.toList (decodeLossy none bytes) with
  | none => exact keepsItsWord_ends rfl (fun h => absurd hfirst h) (fun h => h hfirst)
  | some parts =>
    obtain ⟨before, after⟩ := parts
    obtain ⟨hcontent, -⟩ := splitFirst_eq_some hfirst
    have hwrites : Writes oldString.toList bytes .remoteShell := by
      intro hnone
      rw [hfirst] at hnone
      cases hnone
    refine keepsItsWord_writes hwrites ?_
    constructor
    · intro honce _
      obtain ⟨content, hbytes⟩ := valid_of_replacedOnce hcontent honce
      obtain ⟨i, hi, -⟩ := honce
      exact ⟨by rw [hbytes, fromUtf8_encode]; rfl, i, hi⟩
    intro hsafe
    obtain ⟨hvalid, honce⟩ := hsafe hwrites
    obtain ⟨content, hutf8⟩ := Option.isSome_iff_exists.mp hvalid
    have hbytes : bytes = encode (before ++ oldString.toList ++ after) := by
      rw [← hcontent, fromUtf8_eq_some.mp hutf8, decodeLossy_encode]
    rw [hbytes] at honce ⊢
    exact replacedOnce_iff.mpr honce

end

/-- A call keeps its word exactly if it is safe. -/
theorem str_replace_keeps_its_word_iff (kind : ShellKind) (world : World) (args : StrReplaceArgs) (bytes : List UInt8) :
    KeepsItsWord args bytes (strReplace kind world args bytes) ↔ Safe kind world args bytes := by
  by_cases hrefused : world.contained ≠ .ok () ∨ world.read ≠ .ok ()
  · refine ⟨fun _ path old new _ hcontained hread => ?_, fun _ => refused kind world args bytes hrefused⟩
    exact (hrefused.elim (fun h => h hcontained) (fun h => h hread)).elim
  push Not at hrefused
  obtain ⟨contained, read, write⟩ := world
  obtain ⟨rfl, rfl⟩ : contained = .ok () ∧ read = .ok () := hrefused
  obtain ⟨outcome, hargs, herr, hne⟩ | ⟨path, oldString, newString, rfl⟩ := strReplaceArgs_cases args
  · refine ⟨fun _ path old new heq => absurd heq (hne path old new), fun _ => ?_⟩
    cases kind <;> simp only [strReplace, toolStrReplace, remoteToolStrReplace, hargs] <;>
      exact keepsItsWord_unchanged _ _ herr
  have hsafe : Safe kind ⟨.ok (), .ok (), write⟩ ⟨some path, some oldString, some newString⟩ bytes ↔
      Owed oldString bytes kind write := by
    cases write <;>
    · refine ⟨fun h => h path oldString newString rfl rfl rfl, ?_⟩
      intro h path' oldString' newString' heq _ _
      cases heq
      exact h
  rw [hsafe]
  cases kind with
  | localShell => exact local_keeps_its_word_iff
  | remoteShell => exact remote_keeps_its_word_iff

def World.fine : World := ⟨.ok (), .ok (), .done⟩

/-- Locally, "aa" is replaced in "aaa" though it is there twice; remotely, a byte that is no text is written as U+FFFD
    although it is not what is replaced. -/
theorem an_overlap_is_edited_and_a_stray_byte_is_rewritten :
    ((strReplace .localShell .fine ⟨some "f", some "aa", some "b"⟩ (ascii "aaa")).1.isError = false ∧
      (strReplace .localShell .fine ⟨some "f", some "aa", some "b"⟩ (ascii "aaa")).2 = ascii "ba" ∧
      OccursAt (ascii "aa") (ascii "aaa") 0 ∧ OccursAt (ascii "aa") (ascii "aaa") 1 ∧
      ¬ KeepsItsWord ⟨some "f", some "aa", some "b"⟩ (ascii "aaa")
        (strReplace .localShell .fine ⟨some "f", some "aa", some "b"⟩ (ascii "aaa"))) ∧
    ((strReplace .remoteShell .fine ⟨some "f", some "x", some "y"⟩ (0xFF :: ascii "x")).1.isError = false ∧
      (strReplace .remoteShell .fine ⟨some "f", some "x", some "y"⟩ (0xFF :: ascii "x")).2 =
        [0xEF, 0xBF, 0xBD] ++ ascii "y" ∧
      ¬ KeepsItsWord ⟨some "f", some "x", some "y"⟩ (0xFF :: ascii "x")
        (strReplace .remoteShell .fine ⟨some "f", some "x", some "y"⟩ (0xFF :: ascii "x"))) := by
  refine ⟨⟨rfl, by decide, by decide, by decide, ?_⟩, rfl, by decide, ?_⟩
  · intro hword
    obtain ⟨old, new, hold, -, i, honce, -⟩ := hword.1 rfl
    cases hold
    have hzero := (honce 0).mp (by decide)
    have hone := (honce 1).mp (by decide)
    omega
  intro hword
  obtain ⟨old, new, hold, hnew, i, honce, hafter⟩ := hword.1 rfl
  cases hold
  cases hnew
  obtain rfl := (honce 1).mp (by decide)
  revert hafter
  decide

end TddyCoder.ToolCalls
