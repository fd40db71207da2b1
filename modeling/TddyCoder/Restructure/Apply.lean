/-
  TddyCoder.Restructure.Apply — carrying out the edits of one operation on the working tree
  (`packages/tddy-code-restructuring/src/edit.rs`, `apply.rs`).

  An operation creates files, then replaces ranges of text, then moves files with `git mv` and
  sweeps the directories the moves emptied. Paths are lists of components. A text is its list of
  characters; every byte offset of the source stands at a character. What git does is a
  parameter: it may refuse, and of a move it is known where a file ends up.
-/

import TddyCoder.Table.Assoc
import TddyCoder.Text.Editing
import TddyCoder.Machine.Fallible
import Mathlib.Data.List.Sort

namespace TddyCoder.Restructure

open Table Text Machine List

abbrev Path := List String

structure Range where
  start : Position
  stop : Position
  deriving DecidableEq

structure TextEdit where
  range : Range
  newText : List Char
  deriving DecidableEq

inductive FileEdit
  | change (path : Path) (edits : List TextEdit)
  | create (path : Path)
  | rename (source dest : Path)

structure WorkspaceEdit where
  changes : List FileEdit

inductive RestructureError
  | io
  | malformedPlan
  | anchorInvalidated (path : Path)
  deriving DecidableEq

/-! ## Replacing text -/

variable (contents : List Char)

def skipLines (contents : List Char) : Nat → Nat → Option Nat
  | 0, offset => some offset
  | n + 1, offset =>
    match (contents.drop offset).findIdx? (· = '\n') with
    | none => none
    | some index => skipLines contents n (offset + (index + 1))

def byteOffset (p : Position) : Nat :=
  match skipLines contents (p.line - 1) 0 with
  | none => contents.length
  | some offset =>
    let lineEnd :=
      match (contents.drop offset).findIdx? (· = '\n') with
      | none => contents.length
      | some index => offset + index + 1
    min (offset + min (p.col - 1) (lineEnd - offset)) contents.length

def cutOf (edit : TextEdit) : Cut :=
  let start := byteOffset contents edit.range.start
  ⟨start, max (byteOffset contents edit.range.stop) start, edit.newText⟩

def byStart (edits : List TextEdit) : List TextEdit :=
  edits.insertionSort fun e e' => ¬ e'.range.start.Before e.range.start

def edited (edits : List TextEdit) : List Char :=
  (byStart edits).foldr (fun edit contents => (cutOf contents edit).apply contents) contents

/-! ## The tree -/

inductive Node
  | file (text : List Char)
  | dir
  deriving DecidableEq

abbrev Tree := Assoc Path Node

namespace Tree

variable (t : Tree) (path : Path)

def fileAt : Option (List Char) :=
  match t.lookup path with
  | some (.file text) => some text
  | _ => none

def isDir : Bool := path = [] || t.lookup path = some .dir

def exists_ : Bool := path = [] || (t.lookup path).isSome

def createDir (dir : Path) : Except RestructureError Tree :=
  match t.lookup dir with
  | none => .ok (t.insert dir .dir)
  | some .dir => .ok t
  | some (.file _) => .error .io

def createDirAll (dir : Path) : Except RestructureError Tree :=
  ((List.range dir.length).map fun n => dir.take (n + 1)).foldlM createDir t

def holdsNothing (dir : Path) : Bool := !t.keys.any fun path => path ≠ [] && path.dropLast = dir

/-- Removes the empty ones among the `n` innermost directories above the path, up to the first that holds anything. -/
def removeEmptied (t : Tree) (path : Path) : Nat → Except RestructureError Tree
  | 0 => .ok t
  | n + 1 =>
    match t.lookup (path.take (n + 1)) with
    | none => removeEmptied t path n
    | some (.file _) => .error .io
    | some .dir => if t.holdsNothing (path.take (n + 1)) then removeEmptied (t.erase (path.take (n + 1))) path n else .ok t

end Tree

/-- `git add -N`, which may refuse, and `git mv`: it refuses a destination that is a file, and moves a file to a
    destination that is not a directory. -/
structure Git where
  add : Tree → Path → Except RestructureError Unit
  mv : Tree → Path → Path → Except RestructureError Tree
  mv_free : ∀ {t t' : Tree} {source dest : Path} {text : List Char}, mv t source dest = .ok t' →
    t.fileAt source = some text → t.fileAt dest = none
  mv_file : ∀ {t t' : Tree} {source dest : Path} {text : List Char}, mv t source dest = .ok t' →
    t.fileAt source = some text → t.isDir dest = false →
    ∀ path, t'.fileAt path = if path = dest then some text else if path = source then none else t.fileAt path

section apply

variable (git : Git) (t : Tree) (path : Path)

def createTrackedFile : Except RestructureError Tree := do
  let t ← t.createDirAll path.dropLast
  let t := if t.exists_ path then t else t.insert path (.file [])
  git.add t path
  return t

def applyTextEdits (edits : List TextEdit) : Except RestructureError Tree :=
  if edits.isEmpty then .ok t
  else
    match t.fileAt path with
    | none => .error .io
    | some contents => .ok (t.insert path (.file (edited contents edits)))

def gitMove (source dest : Path) : Except RestructureError Tree := do
  let t ← t.createDirAll dest.dropLast
  git.mv t source dest

namespace WorkspaceEdit

variable (edit : WorkspaceEdit)

def creations : List Path :=
  edit.changes.filterMap fun change => match change with | .create path => some path | _ => none

def textChanges : List (Path × List TextEdit) :=
  edit.changes.filterMap fun change => match change with | .change path edits => some (path, edits) | _ => none

def renames : List (Path × Path) :=
  edit.changes.filterMap fun change => match change with | .rename source dest => some (source, dest) | _ => none

end WorkspaceEdit

def applyWorkspaceEdit (t : Tree) (edit : WorkspaceEdit) : Except RestructureError Tree := do
  let t ← edit.creations.foldlM (createTrackedFile git) t
  let t ← edit.textChanges.foldlM (fun t change => applyTextEdits t change.1 change.2) t
  let t ← edit.renames.foldlM (fun t move => gitMove git t move.1 move.2) t
  edit.renames.foldlM (fun t move => t.removeEmptied move.1 (move.1.length - 1)) t

end apply

/-! ## What the parts do to the files -/

variable {edits : List TextEdit}

section files

variable {git : Git} {t t' : Tree} {path : Path} {text : List Char}

namespace Tree

theorem fileAt_eq_some : t.fileAt path = some text ↔ t.lookup path = some (.file text) := by
  unfold fileAt
  split <;> simp_all

theorem fileAt_congr {t t' : Tree} {p : Path} (h : t'.lookup p = t.lookup p) : t'.fileAt p = t.fileAt p := by
  rw [fileAt, fileAt, h]

theorem fileAt_insert (text : List Char) (p : Path) :
    fileAt (t.insert path (.file text)) p = if p = path then some text else t.fileAt p := by
  by_cases hp : p = path
  · subst hp
    simp [fileAt]
  · rw [if_neg hp]
    exact fileAt_congr (AList.lookup_insert_ne hp)

theorem createDir_spec {dir : Path} (h : t.createDir dir = .ok t') :
    (∀ p, t'.fileAt p = t.fileAt p) ∧ ∀ p, p ≠ dir → t'.lookup p = t.lookup p := by
  unfold createDir at h
  split at h
  · next hnone =>
    cases h
    refine ⟨fun p => ?_, fun p hp => AList.lookup_insert_ne hp⟩
    by_cases hp : p = dir
    · subst hp
      simp [fileAt, hnone]
    · exact fileAt_congr (AList.lookup_insert_ne hp)
  · cases h
    exact ⟨fun _ => rfl, fun _ _ => rfl⟩
  · cases h

structure AddsAbove (dir : Path) (t t' : Tree) : Prop where
  files : ∀ p, t'.fileAt p = t.fileAt p
  lookup : ∀ p, dir.length < p.length → t'.lookup p = t.lookup p

theorem createDirAll_spec {dir : Path} (h : t.createDirAll dir = .ok t') : AddsAbove dir t t' := by
  have hstep : ∀ mid : Tree, ∀ above ∈ (List.range dir.length).map fun n => dir.take (n + 1), ∀ mid' : Tree,
      AddsAbove dir t mid → mid.createDir above = .ok mid' → AddsAbove dir t mid' := by
    intro mid above habove mid' hmid hcreate
    obtain ⟨hfiles, hlookup⟩ := createDir_spec hcreate
    refine ⟨fun p => (hfiles p).trans (hmid.files p), fun p hp => (hlookup p fun heq => ?_).trans (hmid.lookup p hp)⟩
    obtain ⟨n, -, rfl⟩ := mem_map.mp habove
    have hlength := length_take_le' (n + 1) dir
    rw [heq] at hp
    omega
  exact foldlM_keeps hstep ⟨fun _ => rfl, fun _ _ => rfl⟩ h

theorem removeEmptied_fileAt {n : Nat} (h : t.removeEmptied path n = .ok t') (p : Path) : t'.fileAt p = t.fileAt p := by
  induction n generalizing t with
  | zero =>
    cases h
    rfl
  | succ n ih =>
    unfold removeEmptied at h
    split at h
    · exact ih h
    · cases h
    · next hdir =>
      split at h
      · refine (ih h).trans ?_
        by_cases hp : p = path.take (n + 1)
        · subst hp
          simp [fileAt, hdir]
        · exact fileAt_congr (AList.lookup_erase_ne hp)
      · cases h
        rfl

theorem sweep_fileAt {moves : List (Path × Path)}
    (h : moves.foldlM (fun t move => t.removeEmptied move.1 (move.1.length - 1)) t = .ok t') :
    ∀ p, t'.fileAt p = t.fileAt p := by
  have hstep : ∀ mid : Tree, ∀ move ∈ moves, ∀ mid', (∀ p, mid.fileAt p = t.fileAt p) →
      mid.removeEmptied move.1 (move.1.length - 1) = .ok mid' → ∀ p, mid'.fileAt p = t.fileAt p :=
    fun mid move _ mid' hmid hsweep p => (removeEmptied_fileAt hsweep p).trans (hmid p)
  exact foldlM_keeps hstep (fun _ => rfl) h

end Tree

theorem createTrackedFile_fileAt (h : createTrackedFile git t path = .ok t') (p : Path) :
    t'.fileAt p = if p = path ∧ t.exists_ path = false then some [] else t.fileAt p := by
  obtain ⟨mid, hmid, hrest⟩ := bind_eq_ok.mp h
  obtain ⟨-, -, hreturn⟩ := bind_eq_ok.mp hrest
  cases hreturn
  obtain ⟨hfiles, hlookup⟩ := Tree.createDirAll_spec hmid
  -- the directories that were made are all above the path
  have hexists : mid.exists_ path = t.exists_ path := by
    unfold Tree.exists_
    by_cases hpath : path = []
    · simp [hpath]
    have hlength : path.dropLast.length < path.length := by
      have hpos : 0 < path.length := length_pos_iff.mpr hpath
      rw [length_dropLast]
      omega
    rw [hlookup path hlength]
  rw [hexists]
  cases t.exists_ path with
  | true => simpa using hfiles p
  | false =>
    simp only [Bool.false_eq_true, ↓reduceIte, and_true]
    rw [Tree.fileAt_insert, hfiles]

theorem applyTextEdits_fileAt (h : applyTextEdits t path edits = .ok t') :
    (edits = [] ∧ t' = t) ∨ ∃ contents, t.fileAt path = some contents ∧
      ∀ p, t'.fileAt p = if p = path then some (edited contents edits) else t.fileAt p := by
  unfold applyTextEdits at h
  split at h
  · next hempty =>
    cases h
    exact .inl ⟨isEmpty_iff.mp hempty, rfl⟩
  split at h
  · cases h
  · next contents hcontents =>
    cases h
    exact .inr ⟨contents, hcontents, Tree.fileAt_insert _⟩

theorem gitMove_fileAt {source dest : Path} (h : gitMove git t source dest = .ok t')
    (hsource : t.fileAt source = some text) (hdest : t.isDir dest = false) :
    t.fileAt dest = none ∧
      ∀ p, t'.fileAt p = if p = dest then some text else if p = source then none else t.fileAt p := by
  obtain ⟨mid, hmid, hmv⟩ := bind_eq_ok.mp h
  obtain ⟨hfiles, hlookup⟩ := Tree.createDirAll_spec hmid
  have hne : dest ≠ [] := by
    rintro rfl
    simp [Tree.isDir] at hdest
  have hlength : dest.dropLast.length < dest.length := by
    have hpos : 0 < dest.length := length_pos_iff.mpr hne
    rw [length_dropLast]
    omega
  have hdest' : mid.isDir dest = false := by
    rw [Tree.isDir, hlookup dest hlength]
    exact hdest
  rw [← hfiles] at hsource
  refine ⟨by rw [← hfiles]; exact git.mv_free hmv hsource, fun p => ?_⟩
  rw [git.mv_file hmv hsource hdest' p, hfiles]

end files

/-- A git that moves a file to a path at which there is nothing, and refuses everything else. -/
def plainGit : Git where
  add _ _ := .ok ()
  mv t source dest :=
    match t.fileAt source with
    | some text => if t.exists_ dest then .error .malformedPlan else .ok ((t.erase source).insert dest (.file text))
    | none => .error .malformedPlan
  mv_free {t t' source dest text} hmv hsource := by
    simp only [hsource] at hmv
    split at hmv
    · cases hmv
    · next hexists =>
      have hnone : t.lookup dest = none := by
        simp only [Tree.exists_, Bool.or_eq_true, not_or, Bool.not_eq_true, Option.isSome_eq_false_iff,
          Option.isNone_iff_eq_none] at hexists
        exact hexists.2
      simp [Tree.fileAt, hnone]
  mv_file {t t' source dest text} hmv hsource _ p := by
    simp only [hsource] at hmv
    split at hmv
    · cases hmv
    cases hmv
    rw [Tree.fileAt_insert]
    by_cases hp : p = source
    · subst hp
      simp [Tree.fileAt]
    · simp only [hp, ↓reduceIte]
      rw [Tree.fileAt_congr (AList.lookup_erase_ne hp)]

/-! ## Where the ranges of a change are -/

section ranges

variable {contents : List Char} {i : Nat}

theorem findIdx?_line {line : List Char} (hline : '\n' ∉ line) (rest : List Char) :
    (line ++ '\n' :: rest).findIdx? (· = '\n') = some line.length := by
  have hnone : line.findIdx? (· = '\n') = none := by
    rw [findIdx?_eq_none_iff]
    intro c hc
    refine decide_eq_false fun heq => hline ?_
    exact heq ▸ hc
  rw [findIdx?_append, hnone]
  simp [findIdx?_cons]

theorem skipLines_spec (before rest : List Char) (hi : i ≤ rest.length) (p : Position) (hp : p.col = 1) :
    ∃ start ≤ i, skipLines (before ++ rest) ((rest.take i).count '\n') before.length = some (before.length + start) ∧
      '\n' ∉ (rest.take i).drop start ∧ (advance p (rest.take i)).col = i - start + 1 := by
  induction hn : (rest.take i).count '\n' generalizing before rest i p with
  | zero =>
    refine ⟨0, Nat.zero_le i, rfl, count_eq_zero.mp hn, ?_⟩
    rw [advance_same_line p hn, hp, length_take]
    simp only
    omega
  | succ n ih =>
    have hmem : '\n' ∈ rest := mem_of_mem_take (count_pos_iff.mp (by rw [hn]; omega))
    obtain ⟨line, rest', rfl, hline⟩ := eq_append_cons_of_mem hmem
    have hlength : line.length < i := by
      by_contra hle
      rw [take_append_of_le_length (by omega)] at hn
      have hzero : (line.take i).count '\n' = 0 := count_eq_zero.mpr fun h => hline (mem_of_mem_take h)
      omega
    have htake : (line ++ '\n' :: rest').take i = line ++ '\n' :: rest'.take (i - (line.length + 1)) := by
      obtain ⟨k, rfl⟩ := Nat.exists_eq_add_of_lt hlength
      rw [Nat.add_assoc, take_length_add_append, take_succ_cons]
      congr 3
      omega
    have hcount : (rest'.take (i - (line.length + 1))).count '\n' = n := by
      rw [htake, count_append, count_cons_self, count_eq_zero.mpr hline] at hn
      omega
    have hrest : i - (line.length + 1) ≤ rest'.length := by
      simp only [length_append, length_cons] at hi
      omega
    obtain ⟨start, hstart, hskip, hnone, hcol⟩ :=
      ih (before ++ line ++ ['\n']) rest' hrest ⟨(advance p line).line + 1, 1⟩ rfl hcount
    refine ⟨line.length + 1 + start, by omega, ?_, ?_, ?_⟩
    · unfold skipLines
      rw [drop_left, findIdx?_line hline]
      simp only [append_assoc, cons_append, nil_append, length_append, length_cons,
        length_nil] at hskip ⊢
      rw [show before.length + (line.length + 1) = before.length + (line.length + (0 + 1)) by omega, hskip]
      congr 1
      omega
    · rw [htake, show line.length + 1 + start = line.length + (start + 1) by omega, drop_length_add_append,
        drop_succ_cons]
      exact hnone
    · rw [htake, advance_append, advance_newline, hcol]
      omega

theorem byteOffset_positionAt (hi : i ≤ contents.length) : byteOffset contents (positionAt contents i) = i := by
  obtain ⟨start, hstart, hskip, hnone, hcol⟩ := skipLines_spec [] contents hi ⟨1, 1⟩ rfl
  have hline : (positionAt contents i).line - 1 = (contents.take i).count '\n' := by
    rw [positionAt, advance_line]
    simp
  have hcol' : (positionAt contents i).col - 1 = i - start := by
    rw [positionAt, hcol]
    omega
  unfold byteOffset
  rw [hline, hcol']
  simp only [nil_append, length_nil, Nat.zero_add] at hskip
  simp only [hskip]
  -- the line goes on at least up to the index
  have hend : i ≤ match (contents.drop start).findIdx? (· = '\n') with
      | none => contents.length
      | some index => start + index + 1 := by
    cases hfind : (contents.drop start).findIdx? (· = '\n') with
    | none => exact hi
    | some index =>
      by_contra hlt
      obtain ⟨hindex, hnewline, -⟩ := findIdx?_eq_some_iff_getElem.mp hfind
      refine hnone (mem_of_getElem? (i := index) ?_)
      rw [getElem?_drop, getElem?_take_of_lt (by simp only at hlt; omega), ← getElem?_drop,
        getElem?_eq_getElem hindex]
      simpa using hnewline
  omega

structure Located (contents : List Char) (edit : TextEdit) (c : Cut) : Prop where
  within : c.Within contents
  start : edit.range.start = positionAt contents c.start
  stop : edit.range.stop = positionAt contents c.stop
  newText : c.newText = edit.newText

/-- The ranges of the edits are in the text, and none of them starts before the one before it ends. -/
structure InRange (contents : List Char) (edits : List TextEdit) : Prop where
  located : ∀ edit ∈ edits, ∃ c, Located contents edit c
  apart : (byStart edits).Pairwise fun e e' => ¬ e'.range.start.Before e.range.stop

variable {edit : TextEdit}

theorem Located.cutOf {contents' : List Char} {c : Cut} (h : Located contents edit c)
    (hlength : c.stop ≤ contents'.length) (htake : contents'.take c.stop = contents.take c.stop) :
    cutOf contents' edit = c := by
  have hle := h.within.le
  have hstart : byteOffset contents' edit.range.start = c.start := by
    rw [h.start, ← positionAt_congr hle htake]
    exact byteOffset_positionAt (by omega)
  have hstop : byteOffset contents' edit.range.stop = c.stop := by
    rw [h.stop, ← positionAt_congr (Nat.le_refl _) htake]
    exact byteOffset_positionAt hlength
  obtain ⟨start, stop, newText⟩ := c
  simp only [Restructure.cutOf, hstart, hstop, ← h.newText, Cut.mk.injEq, true_and, and_true]
  exact Nat.max_eq_left hle

def cutsOf (contents : List Char) (edits : List TextEdit) : List Cut := (byStart edits).map (cutOf contents)

theorem located_cutOf (h : ∃ c, Located contents edit c) : Located contents edit (cutOf contents edit) := by
  obtain ⟨c, hc⟩ := h
  rwa [hc.cutOf hc.within.stop_le rfl]

theorem cuts_of_located (hlocated : ∀ edit ∈ edits, ∃ c, Located contents edit c)
    (happart : edits.Pairwise fun e e' => ¬ e'.range.start.Before e.range.stop) :
    Cuts (edits.map (cutOf contents)) contents := by
  refine ⟨fun c hc => ?_, ?_⟩
  · obtain ⟨edit, hedit, rfl⟩ := mem_map.mp hc
    exact (located_cutOf (hlocated edit hedit)).within
  rw [pairwise_map]
  refine happart.imp_of_mem fun he he' hapart => ?_
  have hcut := located_cutOf (hlocated _ he)
  rw [hcut.stop, (located_cutOf (hlocated _ he')).start] at hapart
  by_contra hlt
  exact hapart (positionAt_before (Nat.lt_of_not_le hlt) hcut.within.stop_le)

/-- Replacing the ranges from the last to the first replaces each where it stands in the text as it was. -/
theorem edited_eq (h : InRange contents edits) :
    edited contents edits = cutAll (cutsOf contents edits) contents ∧ Cuts (cutsOf contents edits) contents := by
  have hlocated : ∀ edit ∈ byStart edits, ∃ c, Located contents edit c := fun edit hedit =>
    h.located edit ((perm_insertionSort _ edits).mem_iff.mp hedit)
  refine ⟨?_, cuts_of_located hlocated h.apart⟩
  unfold edited cutsOf
  have happart := h.apart
  generalize byStart edits = sorted at hlocated happart
  induction sorted with
  | nil => rfl
  | cons edit sorted ih =>
    have hcuts := cuts_of_located hlocated happart
    obtain ⟨hlocated₁, hlocated'⟩ := forall_mem_cons.mp hlocated
    have hedit := located_cutOf hlocated₁
    obtain ⟨hlength, htake⟩ := hcuts.tail.take_cutAll hedit.within.stop_le hcuts.head_stop
    rw [foldr_cons, ih hlocated' (pairwise_cons.mp happart).2, hedit.cutOf hlength htake]
    rfl

end ranges

end TddyCoder.Restructure
