/-
  TddyCoder.Restructure.Overlay — what a dry run reads
  (`packages/tddy-code-restructuring/src/overlay.rs`).

  A dry run keeps the texts its operations would leave in an overlay and reads everything else
  from the disk. The overlay cannot say that a path holds nothing any more, and a file no
  operation had changed before its move is not read at its destination. A creation also empties a
  file that exists, which a real run leaves alone.

  Proved: `a_dry_run_reads_the_tree_of_the_run`, where none of this comes up; else
  `a_moved_file_is_read_at_its_old_path`.
-/

import TddyCoder.Restructure.Apply
import Mathlib.Data.Finset.Basic

namespace TddyCoder.Restructure

open Table Machine

structure Overlay where
  files : Assoc Path (List Char)
  introduced : Finset Path

namespace Overlay

def new : Overlay := ⟨∅, ∅⟩

def read (o : Overlay) (disk : Tree) (relative : Path) : Except RestructureError (List Char) :=
  match o.files.lookup relative with
  | some contents => .ok contents
  | none =>
    match disk.fileAt relative with
    | some contents => .ok contents
    | none => .error .io

def recordCreate (o : Overlay) (path : Path) : Overlay := ⟨o.files.insert path [], insert path o.introduced⟩

variable (disk : Tree) (o : Overlay)

def recordChange (path : Path) (edits : List TextEdit) : Except RestructureError Overlay := do
  let before ← o.read disk path
  return { o with files := o.files.insert path (edited before edits) }

def recordRename (source dest : Path) : Overlay :=
  { files :=
      match o.files.lookup source with
      | some contents => (o.files.erase source).insert dest contents
      | none => o.files,
    introduced := insert dest (o.introduced.erase source) }

def record (edit : WorkspaceEdit) : Except RestructureError Overlay := do
  let o ← edit.creations.foldlM (fun o path => .ok (o.recordCreate path)) o
  let o ← edit.textChanges.foldlM (fun o change => recordChange disk o change.1 change.2) o
  edit.renames.foldlM (fun o move => .ok (o.recordRename move.1 move.2)) o

def Agrees (t : Tree) (o : Overlay) : Prop := ∀ path, (o.read disk path).toOption = t.fileAt path

/-! ## Which edits the overlay follows -/

def ClearCreate (t : Tree) (path : Path) : Prop := t.exists_ path = false ∨ t.fileAt path = some []

def ClearChange (t : Tree) (change : Path × List TextEdit) : Prop := change.2 ≠ [] ∨ (t.fileAt change.1).isSome

def ClearRename (t : Tree) (move : Path × Path) : Prop :=
  disk.fileAt move.1 = none ∧ (t.fileAt move.1).isSome ∧ t.isDir move.2 = false

/-- Every part of the edit, in the tree in which its turn comes, is one the overlay follows. -/
structure Clear (git : Git) (disk : Tree) (t : Tree) (edit : WorkspaceEdit) : Prop where
  creations : Checked (createTrackedFile git) ClearCreate t edit.creations
  textChanges : ∀ t₁, edit.creations.foldlM (createTrackedFile git) t = .ok t₁ →
    Checked (fun t change => applyTextEdits t change.1 change.2) ClearChange t₁ edit.textChanges
  renames : ∀ t₁ t₂, edit.creations.foldlM (createTrackedFile git) t = .ok t₁ →
    edit.textChanges.foldlM (fun t change => applyTextEdits t change.1 change.2) t₁ = .ok t₂ →
    Checked (fun t move => gitMove git t move.1 move.2) (ClearRename disk) t₂ edit.renames

/-! ## Following -/

section follow

variable {git : Git} {disk t t' : Tree} {o : Overlay} {path : Path}

theorem read_toOption : (o.read disk path).toOption = (o.files.lookup path).or (disk.fileAt path) := by
  unfold read
  cases o.files.lookup path with
  | some contents => rfl
  | none => cases disk.fileAt path <;> rfl

theorem read_insert {files : Assoc Path (List Char)} {introduced : Finset Path} (contents : List Char) (p : Path) :
    (read ⟨files.insert path contents, introduced⟩ disk p).toOption =
      if p = path then some contents else (read ⟨files, introduced⟩ disk p).toOption := by
  rw [read_toOption, read_toOption]
  by_cases hp : p = path
  · subst hp
    simp
  · simp [hp, AList.lookup_insert_ne]

theorem agrees_create (h : Agrees disk t o) (hclear : ClearCreate t path) (hreal : createTrackedFile git t path = .ok t') :
    Agrees disk t' (o.recordCreate path) := by
  intro p
  rw [recordCreate, read_insert, createTrackedFile_fileAt hreal]
  by_cases hp : p = path
  · subst hp
    rcases hclear with hnew | hempty
    · simp [hnew]
    · simp [hempty]
  · simp only [hp, ↓reduceIte, false_and]
    exact h p

theorem edited_nil (contents : List Char) : edited contents [] = contents := rfl

theorem agrees_change {edits : List TextEdit} (h : Agrees disk t o) (hclear : ClearChange t (path, edits))
    (hreal : applyTextEdits t path edits = .ok t') :
    ∃ o', recordChange disk o path edits = .ok o' ∧ Agrees disk t' o' := by
  have hfile : ∃ contents, t.fileAt path = some contents ∧
      ∀ p, t'.fileAt p = if p = path then some (edited contents edits) else t.fileAt p := by
    rcases applyTextEdits_fileAt hreal with ⟨rfl, rfl⟩ | hfile
    · obtain ⟨contents, hcontents⟩ := Option.isSome_iff_exists.mp (hclear.resolve_left fun hne => hne rfl)
      refine ⟨contents, hcontents, fun p => ?_⟩
      by_cases hp : p = path
      · subst hp
        simp [hcontents, edited_nil]
      · simp [hp]
    · exact hfile
  obtain ⟨contents, hcontents, hfiles⟩ := hfile
  have hread : o.read disk path = .ok contents := by
    have hsome := (h path).trans hcontents
    cases hread : o.read disk path <;> rw [hread] at hsome <;> cases hsome
    rfl
  refine ⟨_, bind_eq_ok.mpr ⟨contents, hread, rfl⟩, fun p => ?_⟩
  rw [read_insert, hfiles]
  by_cases hp : p = path
  · simp [hp]
  · simpa [hp] using h p

theorem agrees_rename {source dest : Path} (h : Agrees disk t o) (hclear : ClearRename disk t (source, dest))
    (hreal : gitMove git t source dest = .ok t') : Agrees disk t' (o.recordRename source dest) := by
  obtain ⟨hdisk, hsource, hdest⟩ := hclear
  obtain ⟨text, htext⟩ := Option.isSome_iff_exists.mp hsource
  obtain ⟨-, hfiles⟩ := gitMove_fileAt hreal htext hdest
  -- the file is not on the disk, so it is in the overlay
  have hentry : o.files.lookup source = some text := by
    have hread := h source
    rw [read_toOption, hdisk, Option.or_none] at hread
    exact hread.trans htext
  intro p
  rw [recordRename]
  simp only [hentry]
  rw [read_insert, hfiles, ← h p, read_toOption, read_toOption]
  by_cases hp : p = dest
  · simp [hp]
  by_cases hs : p = source
  · subst hs
    simp [hp, hdisk]
  · simp [hp, hs, AList.lookup_erase_ne]

variable (git disk) in
theorem agrees_record (t : Tree) (o : Overlay) (edit : WorkspaceEdit) (t' : Tree) (h : Agrees disk t o)
    (hclear : Clear git disk t edit) (hreal : applyWorkspaceEdit git t edit = .ok t') :
    ∃ o', record disk o edit = .ok o' ∧ Agrees disk t' o' := by
  have hcreates : ∀ t o path t', Agrees disk t o → ClearCreate t path → createTrackedFile git t path = .ok t' →
      ∃ o', (.ok (o.recordCreate path) : Except RestructureError Overlay) = .ok o' ∧ Agrees disk t' o' :=
    fun _ _ _ _ h hclear hreal => ⟨_, rfl, agrees_create h hclear hreal⟩
  have hchanges : ∀ t o (change : Path × List TextEdit) t', Agrees disk t o → ClearChange t change →
      applyTextEdits t change.1 change.2 = .ok t' →
      ∃ o', recordChange disk o change.1 change.2 = .ok o' ∧ Agrees disk t' o' :=
    fun _ _ _ _ h hclear hreal => agrees_change h hclear hreal
  have hrenames : ∀ t o (move : Path × Path) t', Agrees disk t o → ClearRename disk t move →
      gitMove git t move.1 move.2 = .ok t' →
      ∃ o', (.ok (o.recordRename move.1 move.2) : Except RestructureError Overlay) = .ok o' ∧ Agrees disk t' o' :=
    fun _ _ _ _ h hclear hreal => ⟨_, rfl, agrees_rename h hclear hreal⟩
  obtain ⟨t₁, hcreate, hreal⟩ := bind_eq_ok.mp hreal
  obtain ⟨t₂, hchange, hreal⟩ := bind_eq_ok.mp hreal
  obtain ⟨t₃, hrename, hsweep⟩ := bind_eq_ok.mp hreal
  obtain ⟨o₁, hrecord₁, h₁⟩ := hclear.creations.simulates hcreates hcreate h
  obtain ⟨o₂, hrecord₂, h₂⟩ := (hclear.textChanges t₁ hcreate).simulates hchanges hchange h₁
  obtain ⟨o₃, hrecord₃, h₃⟩ := (hclear.renames t₁ t₂ hcreate hchange).simulates hrenames hrename h₂
  refine ⟨o₃, bind_eq_ok.mpr ⟨o₁, hrecord₁, bind_eq_ok.mpr ⟨o₂, hrecord₂, hrecord₃⟩⟩, ?_⟩
  exact fun p => (h₃ p).trans (Tree.sweep_fileAt hsweep p).symm

theorem agrees_new (disk : Tree) : Agrees disk disk new := by
  intro path
  rw [read_toOption, new]
  simp

end follow

theorem a_dry_run_reads_the_tree_of_the_run (git : Git) (disk t : Tree) (edits : List WorkspaceEdit)
    (hreal : edits.foldlM (applyWorkspaceEdit git) disk = .ok t)
    (hclear : Checked (applyWorkspaceEdit git) (Clear git disk) disk edits) :
    ∃ o, edits.foldlM (record disk) new = .ok o ∧ ∀ path, (o.read disk path).toOption = t.fileAt path :=
  hclear.simulates (agrees_record git disk) hreal (agrees_new disk)

def oneFile : Tree := AList.singleton ["a.rs"] (.file ['x', '\n'])

def atStart : Range := ⟨⟨1, 1⟩, ⟨1, 1⟩⟩

def newModule : WorkspaceEdit :=
  ⟨[.create ["new.rs"], .change ["new.rs"] [⟨atStart, ['y']⟩], .rename ["new.rs"] ["src", "new.rs"]]⟩

def created : Tree := AList.insert ["new.rs"] (.file []) oneFile

def filled : Tree := AList.insert ["new.rs"] (.file ['y']) created

def moved : Tree :=
  AList.insert ["src", "new.rs"] (.file ['y']) (AList.erase ["new.rs"] (AList.insert ["src"] .dir filled))

theorem newModule_clear : Clear plainGit oneFile oneFile newModule := by
  have hcreated : newModule.creations.foldlM (createTrackedFile plainGit) oneFile = .ok created := by rfl
  have hfilled : newModule.textChanges.foldlM (fun t change => applyTextEdits t change.1 change.2) created =
      .ok filled := by rfl
  refine ⟨.cons (by exact hcreated) (.inl (by decide)) trivial, fun t₁ h₁ => ?_, fun t₁ t₂ h₁ h₂ => ?_⟩
  · cases hcreated.symm.trans h₁
    exact .cons (by exact hfilled) (.inl (by simp)) trivial
  · cases hcreated.symm.trans h₁
    cases hfilled.symm.trans h₂
    exact .cons rfl ⟨by decide, by decide, by decide⟩ trivial

/-- The new file is read where it is after the move, and the old one as it was. -/
theorem a_new_module_is_read_after_its_move :
    ∃ o, [newModule].foldlM (record oneFile) new = .ok o ∧
      (o.read oneFile ["src", "new.rs"]).toOption = some ['y'] ∧ (o.read oneFile ["new.rs"]).toOption = none ∧
      (o.read oneFile ["a.rs"]).toOption = some ['x', '\n'] := by
  have hreal : [newModule].foldlM (applyWorkspaceEdit plainGit) oneFile = .ok moved := by rfl
  obtain ⟨o, hrecord, hread⟩ := a_dry_run_reads_the_tree_of_the_run plainGit oneFile moved [newModule] hreal
    (.cons (by exact hreal) newModule_clear trivial)
  exact ⟨o, hrecord, (hread _).trans (by decide), (hread _).trans (by decide), (hread _).trans (by decide)⟩

/-- A file of the starting tree that is moved is read at its old path, and not at its new one. -/
theorem a_moved_file_is_read_at_its_old_path :
    ∃ t o, applyWorkspaceEdit plainGit oneFile ⟨[.rename ["a.rs"] ["b.rs"]]⟩ = .ok t ∧
      record oneFile new ⟨[.rename ["a.rs"] ["b.rs"]]⟩ = .ok o ∧
      t.fileAt ["b.rs"] = some ['x', '\n'] ∧ (o.read oneFile ["b.rs"]).toOption = none ∧
      t.fileAt ["a.rs"] = none ∧ (o.read oneFile ["a.rs"]).toOption = some ['x', '\n'] :=
  ⟨_, _, rfl, rfl, by decide, by decide, by decide, by decide⟩

end Overlay

end TddyCoder.Restructure
