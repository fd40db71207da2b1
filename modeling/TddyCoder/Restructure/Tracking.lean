/-
  TddyCoder.Restructure.Tracking — the characters of the starting tree through a run of edits,
  and what the ledger says of them (`packages/tddy-code-restructuring/src/ledger.rs`,
  `apply.rs`).

  A traced run writes down where each character of the starting tree is, and from which path
  each file comes. The ledger keeps the history of a file under the path its edits name, so
  edits of a file that has moved are kept where no translation looks.

  Proved: `translations_lead_to_the_character`, through edits that are clear (`EditClear`);
  `an_edit_under_the_new_path_is_not_followed`.
-/

import TddyCoder.Restructure.Ledger

namespace TddyCoder.Restructure

open Table Text Machine List PositionLedger AppliedEdit

def WorkspaceEdit.inOrder (edit : WorkspaceEdit) : List FileEdit :=
  edit.creations.map .create ++ edit.textChanges.map (fun change => .change change.1 change.2) ++
    edit.renames.map fun move => .rename move.1 move.2

/-! ## Traced runs -/

structure Traced where
  tree : Tree
  /-- Where a character of the starting tree is, by its path and index there. -/
  place : Path × Nat → Option (Path × Nat)
  /-- The path of the starting tree that the file at a path comes from. -/
  home : Path → Option Path

namespace Traced

variable (git : Git)

def start (disk : Tree) : Traced := ⟨disk, some, fun path => (disk.fileAt path).map fun _ => path⟩

variable (s : Traced)

def created (tree : Tree) : Traced := { s with tree }

def changed (path : Path) (edits : List TextEdit) (tree : Tree) : Traced :=
  { s with
    tree
    place := fun character => (s.place character).bind fun now =>
      if now.1 = path then (followAll (cutsOf ((s.tree.fileAt path).getD []) edits) now.2).map (path, ·) else some now }

def moved (source dest : Path) (tree : Tree) : Traced where
  tree
  place character := (s.place character).map fun now => if now.1 = source then (dest, now.2) else now
  home path := if path = dest then s.home source else if path = source then none else s.home path

def step : FileEdit → Except RestructureError Traced
  | .create path => (createTrackedFile git s.tree path).map s.created
  | .change path edits => (applyTextEdits s.tree path edits).map (s.changed path edits)
  | .rename source dest => (gitMove git s.tree source dest).map (s.moved source dest)

def apply (edit : WorkspaceEdit) : Except RestructureError Traced := do
  let s ← edit.inOrder.foldlM (step git) s
  let tree ← edit.renames.foldlM (fun t move => t.removeEmptied move.1 (move.1.length - 1)) s.tree
  return { s with tree }

section places

variable {s : Traced} {path : Path} {edits : List TextEdit} {tree : Tree} {character : Path × Nat}

theorem changed_gone (h : s.place character = none) : (s.changed path edits tree).place character = none := by
  simp [changed, h]

end places

def stepTree (t : Tree) : FileEdit → Except RestructureError Tree
  | .create path => createTrackedFile git t path
  | .change path edits => applyTextEdits t path edits
  | .rename source dest => gitMove git t source dest

theorem step_tree (s : Traced) (e : FileEdit) : (s.step git e).map tree = stepTree git s.tree e := by
  cases e with
  | create path => cases h : createTrackedFile git s.tree path <;> simp [step, stepTree, h, Except.map, created]
  | change path edits => cases h : applyTextEdits s.tree path edits <;> simp [step, stepTree, h, Except.map, changed]
  | rename source dest => cases h : gitMove git s.tree source dest <;> simp [step, stepTree, h, Except.map, moved]

theorem applyWorkspaceEdit_eq (t : Tree) (edit : WorkspaceEdit) :
    applyWorkspaceEdit git t edit = (do
      let t ← edit.inOrder.foldlM (stepTree git) t
      edit.renames.foldlM (fun t move => t.removeEmptied move.1 (move.1.length - 1)) t) := by
  simp only [applyWorkspaceEdit, WorkspaceEdit.inOrder, foldlM_append, foldlM_map, bind_assoc]
  rfl

theorem apply_tree (s : Traced) (edit : WorkspaceEdit) :
    (s.apply git edit).map tree = applyWorkspaceEdit git s.tree edit := by
  rw [applyWorkspaceEdit_eq, ← foldlM_project (step_tree git)]
  unfold apply
  cases edit.inOrder.foldlM (step git) s with
  | error e => rfl
  | ok s' =>
    show Except.map tree (edit.renames.foldlM _ s'.tree >>= fun tree => pure { s' with tree }) =
      edit.renames.foldlM _ s'.tree
    cases edit.renames.foldlM (fun t move => t.removeEmptied move.1 (move.1.length - 1)) s'.tree <;> rfl

end Traced

/-! ## What the ledger is to say -/

variable (disk : Tree) (s : Traced) (ledger : PositionLedger)

/-- Every translation of the position of a character leads to it, in the file where its file is now; and it is refused
    only if the character is gone. -/
def Exact : Prop :=
  ∀ file text i, disk.fileAt file = some text → i < text.length →
    match ledger.translate file (positionAt text i) with
    | .ok q => ∃ text' j, s.place (file, i) = some (ledger.currentPath file, j) ∧
        s.tree.fileAt (ledger.currentPath file) = some text' ∧ text'[j]? = text[i]? ∧ positionAt text' j = q
    | .error _ => s.place (file, i) = none

def InDomain : FileEdit → Prop
  | .change path edits => ∀ text, s.tree.fileAt path = some text → InRange text edits
  | _ => True

def Sees (path : Path) (edits : List TextEdit) : Prop :=
  ∀ file original i text j, disk.fileAt file = some original → i < original.length → s.place (file, i) = some (path, j) →
    s.tree.fileAt path = some text → Seen (byStart edits) (cutsOf text edits) text j

/-- A file is moved to a path that no file of the starting tree had, or back to its first. A new file has never been at
    the path of one of the starting tree. -/
def OwnPaths (source dest : Path) : Prop :=
  match s.home source with
  | some first => disk.fileAt dest = none ∨ dest = first
  | none => disk.fileAt source = none ∧ disk.fileAt dest = none

/-- A change is of a file under its first path, or of a new file at a path of its own, and sees what it moves. A move is of
    a file, to a path of its own. -/
def Clear : FileEdit → Prop
  | .create _ => True
  | .change path edits =>
    edits ≠ [] → (s.home path = some path ∨ s.home path = none ∧ disk.fileAt path = none) ∧ Sees disk s path edits
  | .rename source dest =>
    (s.tree.fileAt source).isSome ∧ s.tree.isDir dest = false ∧ OwnPaths disk s source dest

/-! ## The ledger follows -/

namespace PositionLedger

def recordOne : FileEdit → PositionLedger
  | .change path edits => ledger.recordChanges path edits
  | .create _ => ledger
  | .rename source dest => ledger.rename source dest

def history (file : Path) : List AppliedEdit := (ledger.files.lookup file).getD []

variable {ledger : PositionLedger} {path file : Path}

theorem history_recordChanges (edits : List TextEdit) : (ledger.recordChanges path edits).history file =
      if file = path then ledger.history path ++ entries 0 (byStart edits) else ledger.history file := by
  by_cases hfile : file = path
  · subst hfile
    simp [history, recordChanges]
  · simp [history, recordChanges, hfile, AList.lookup_insert_ne]

/-- Changes and moves of one edit are recorded in any order. -/
theorem foldl_recordChanges_rename (ledger : PositionLedger) (changes : List (Path × List TextEdit)) (source dest : Path) :
    changes.foldl (fun ledger change => ledger.recordChanges change.1 change.2) (ledger.rename source dest) =
      (changes.foldl (fun ledger change => ledger.recordChanges change.1 change.2) ledger).rename source dest := by
  induction changes generalizing ledger with
  | nil => rfl
  | cons change changes ih => exact ih (ledger.recordChanges change.1 change.2)

theorem record_eq (edit : WorkspaceEdit) : ledger.record edit = edit.inOrder.foldl recordOne ledger := by
  have hparts : ∀ (changes : List FileEdit) (ledger : PositionLedger),
      changes.foldl recordOne ledger =
        (WorkspaceEdit.mk changes).renames.foldl (fun ledger move => ledger.rename move.1 move.2)
          ((WorkspaceEdit.mk changes).textChanges.foldl
            (fun ledger change => ledger.recordChanges change.1 change.2) ledger) := by
    intro changes
    induction changes with
    | nil => exact fun _ => rfl
    | cons change changes ih =>
      intro ledger
      cases change with
      | create path => exact ih ledger
      | change path edits => exact ih (ledger.recordChanges path edits)
      | rename source dest =>
        refine (ih (ledger.rename source dest)).trans ?_
        rw [foldl_recordChanges_rename]
        rfl
  have hcreations : ∀ (paths : List Path) (ledger : PositionLedger),
      (paths.map FileEdit.create).foldl recordOne ledger = ledger := by
    intro paths
    induction paths with
    | nil => exact fun _ => rfl
    | cons path paths ih => exact ih
  rw [WorkspaceEdit.inOrder, foldl_append, foldl_append, hcreations, foldl_map, foldl_map]
  exact hparts edit.changes ledger

end PositionLedger

def Followed (file : Path) (text : List Char) (i : Nat) : Except RestructureError Position → Prop
  | .ok q => ∃ path text' j, s.place (file, i) = some (path, j) ∧ s.home path = some file ∧
      s.tree.fileAt path = some text' ∧ j < text'.length ∧ text'[j]? = text[i]? ∧ positionAt text' j = q
  | .error _ => s.place (file, i) = none

variable {outcome : Except RestructureError Position} {file path : Path} {i : Nat}

theorem Followed.carried {s s' : Traced} {text : List Char}
    (h : Followed s file text i outcome) (hgone : s.place (file, i) = none → s'.place (file, i) = none)
    (hthere : ∀ path text' j, s.place (file, i) = some (path, j) → s.home path = some file →
      s.tree.fileAt path = some text' →
      ∃ path', s'.place (file, i) = some (path', j) ∧ s'.home path' = some file ∧ s'.tree.fileAt path' = some text') :
    Followed s' file text i outcome := by
  cases outcome with
  | error e => exact hgone h
  | ok q =>
    obtain ⟨path, text', j, hplace, hhome, hpath, hrest⟩ := h
    obtain ⟨path', hplace', hhome', hpath'⟩ := hthere path text' j hplace hhome hpath
    exact ⟨path', text', j, hplace', hhome', hpath', hrest⟩

structure Tracks (ledger : PositionLedger) : Prop where
  /-- A file that comes from the starting tree is where the ledger has it. -/
  home : ∀ {path file}, s.home path = some file →
    ledger.currentPath file = path ∧ (disk.fileAt file).isSome ∧ (s.tree.fileAt path).isSome
  /-- No other file has been moved to a path of the starting tree. -/
  origin : ∀ {first file}, ledger.renames.lookup first = some file → (disk.fileAt file).isSome → first = file
  moved : ∀ {first path}, ledger.renames.lookup first = some path → (s.tree.fileAt path).isSome
  unique : ∀ {first first' path}, ledger.renames.lookup first = some path → ledger.renames.lookup first' = some path →
    first = first'
  followed : ∀ {file text i}, disk.fileAt file = some text → i < text.length →
    Followed s file text i ((ledger.history file).foldlM (AppliedEdit.move file) (positionAt text i))

namespace Tracks

variable {disk : Tree} {s : Traced} {ledger : PositionLedger} {git : Git}

theorem mem_origins {first : Path} :
    first ∈ ((ledger.renames.entries.filter fun entry => entry.2 = path).map (·.1)) ↔
      ledger.renames.lookup first = some path := by
  rw [lookup_eq_some, mem_map]
  constructor
  · rintro ⟨⟨first', path'⟩, hmem, rfl⟩
    obtain ⟨hentry, hpath⟩ := mem_filter.mp hmem
    have hpath : path' = path := of_decide_eq_true hpath
    exact hpath ▸ hentry
  · intro hmem
    exact ⟨⟨first, path⟩, mem_filter.mpr ⟨hmem, decide_eq_true rfl⟩, rfl⟩

theorem originOf_cases (ledger : PositionLedger) (path : Path) :
    ledger.renames.lookup (ledger.originOf path) = some path ∨
      ledger.originOf path = path ∧ ∀ first, ledger.renames.lookup first ≠ some path := by
  unfold originOf
  cases hsorted : ((ledger.renames.entries.filter fun entry => entry.2 = path).map (·.1)).insertionSort (· ≤ ·) with
  | nil =>
    refine .inr ⟨rfl, fun first hfirst => ?_⟩
    have hmem := (perm_insertionSort (· ≤ ·) _).mem_iff.mpr (mem_origins.mpr hfirst)
    rw [hsorted] at hmem
    cases hmem
  | cons first rest =>
    refine .inl (mem_origins.mp ((perm_insertionSort (· ≤ ·) _).mem_iff.mp ?_))
    rw [hsorted]
    exact mem_cons_self

theorem originOf_disk (h : Tracks disk s ledger) (hfile : (disk.fileAt file).isSome) :
    ledger.originOf file = file := by
  rcases originOf_cases ledger file with hfound | ⟨hself, -⟩
  · exact h.origin hfound hfile
  · exact hself

theorem exact (h : Tracks disk s ledger) : Exact disk s ledger := by
  intro file text i htext hi
  have hfollowed := h.followed htext hi
  have hfile : (disk.fileAt file).isSome := by simp [htext]
  have horigin := h.originOf_disk hfile
  have htranslate : ledger.translate file (positionAt text i) =
      (ledger.history file).foldlM (move file) (positionAt text i) := by
    rw [PositionLedger.translate, history, horigin]
    cases ledger.files.lookup file <;> rfl
  rw [htranslate]
  cases hfold : (ledger.history file).foldlM (move file) (positionAt text i) with
  | error e =>
    rw [hfold] at hfollowed
    exact hfollowed
  | ok q =>
    rw [hfold] at hfollowed
    obtain ⟨path, text', j, hplace, hhome, hpath, -, hsame, hq⟩ := hfollowed
    obtain ⟨hcurrent, -⟩ := h.home hhome
    exact ⟨text', j, hcurrent ▸ hplace, hcurrent ▸ hpath, hsame, hq⟩

theorem start (disk : Tree) : Tracks disk (.start disk) .new where
  home {path file} hhome := by
    obtain ⟨text, htext, rfl⟩ := Option.map_eq_some_iff.mp hhome
    refine ⟨rfl, ?_, ?_⟩
    · simp [htext]
    · simp [Traced.start, htext]
  origin hlookup := absurd hlookup (by simp [new])
  moved hlookup := absurd hlookup (by simp [new])
  unique hlookup := absurd hlookup (by simp [new])
  followed {file text i} htext hi :=
    ⟨file, text, i, rfl, by simp [Traced.start, htext], htext, hi, rfl, rfl⟩

section

variable (h : Tracks disk s ledger)
include h

theorem tree_congr {tree : Tree}
    (hfiles : ∀ path text, s.tree.fileAt path = some text → tree.fileAt path = some text) :
    Tracks disk { s with tree } ledger := by
  have hsome : ∀ {path}, (s.tree.fileAt path).isSome → (tree.fileAt path).isSome := by
    intro path hpath
    obtain ⟨text, htext⟩ := Option.isSome_iff_exists.mp hpath
    simp [hfiles path text htext]
  refine ⟨fun hhome => ?_, h.origin, fun hlookup => hsome (h.moved hlookup), h.unique, fun htext hi => ?_⟩
  · obtain ⟨hcurrent, hdisk, hpath⟩ := h.home hhome
    exact ⟨hcurrent, hdisk, hsome hpath⟩
  · exact (h.followed htext hi).carried id fun path text' j hplace hhome hpath =>
      ⟨path, hplace, hhome, hfiles path text' hpath⟩

theorem changed_nil (path : Path) : Tracks disk (s.changed path [] s.tree) (ledger.recordChanges path []) := by
  have hplace : (s.changed path [] s.tree).place = s.place := by
    funext character
    show (s.place character).bind _ = _
    cases s.place character with
    | none => rfl
    | some now =>
      show (if now.1 = path then some (path, now.2) else some now) = some now
      split
      · next hnow => rw [← hnow]
      · rfl
  have hhistory : ∀ file, (ledger.recordChanges path []).history file = ledger.history file := by
    intro file
    rw [history_recordChanges]
    split
    · next hfile =>
      rw [hfile]
      exact append_nil _
    · rfl
  refine ⟨h.home, h.origin, h.moved, h.unique, fun htext hi => ?_⟩
  rw [hhistory]
  refine (h.followed htext hi).carried (fun hgone => ?_) fun p text' j hthere hhome hpath => ⟨p, ?_, hhome, hpath⟩
  · rw [hplace, hgone]
  · rw [hplace, hthere]

section changed

variable {path file : Path} {edits : List TextEdit} {contents text : List Char} {tree : Tree} {i : Nat}

/-- A file that is changed under its first path: its history grows by the change, and its characters move with it. -/
theorem followed_changed (hself : s.home file = some file)
    (hcontents : s.tree.fileAt file = some contents) (hfile : tree.fileAt file = some (edited contents edits))
    (hrange : InRange contents edits) (hsees : Sees disk s file edits) (htext : disk.fileAt file = some text)
    (hi : i < text.length) :
    Followed (s.changed file edits tree) file text i
      ((ledger.history file ++ entries 0 (byStart edits)).foldlM (AppliedEdit.move file)
        (positionAt text i)) := by
  have hfollowed := h.followed htext hi
  cases hfold : (ledger.history file).foldlM (move file) (positionAt text i) with
  | error e =>
    rw [hfold] at hfollowed
    rw [foldlM_append, hfold]
    exact Traced.changed_gone hfollowed
  | ok q =>
    rw [hfold] at hfollowed
    obtain ⟨path, text', j, hplace, hpath, htext', hj, hsame, rfl⟩ := hfollowed
    obtain rfl : path = file := (h.home hpath).1.symm.trans (h.home hself).1
    obtain rfl : contents = text' := Option.some.inj (hcontents.symm.trans htext')
    obtain ⟨hedited, hcuts⟩ := edited_eq hrange
    have hnow : (s.changed path edits tree).place (path, i) = (followAll (cutsOf contents edits) j).map (path, ·) := by
      simp [Traced.changed, hplace, hcontents]
    rw [foldlM_append, hfold]
    change Followed _ _ _ _ ((entries 0 (byStart edits)).foldlM (move path) _)
    rw [translate_change hrange (hsees _ _ _ _ _ htext hi hplace hcontents)]
    cases hfollow : followAll (cutsOf contents edits) j with
    | none =>
      rw [hfollow] at hnow
      exact hnow
    | some k =>
      rw [hfollow] at hnow
      have hchar : (edited contents edits)[k]? = contents[j]? := by
        rw [hedited]
        exact hcuts.getElem?_followAll hfollow
      have hk : k < (edited contents edits).length := by
        rw [getElem?_eq_getElem hj] at hchar
        exact (List.getElem?_eq_some_iff.mp hchar).1
      exact ⟨path, edited contents edits, k, hnow, hself, hfile, hk, hchar.trans hsame, rfl⟩

theorem changed (hcontents : s.tree.fileAt path = some contents)
    (hfiles : ∀ p, tree.fileAt p = if p = path then some (edited contents edits) else s.tree.fileAt p)
    (hrange : InRange contents edits) (hsees : Sees disk s path edits)
    (hhome : s.home path = some path ∨ s.home path = none ∧ disk.fileAt path = none) :
    Tracks disk (s.changed path edits tree) (ledger.recordChanges path edits) := by
  have hsome : ∀ {p}, (s.tree.fileAt p).isSome → (tree.fileAt p).isSome := by
    intro p hp
    rw [hfiles]
    split
    · rfl
    · exact hp
  refine ⟨fun hhome => ?_, h.origin, fun hlookup => hsome (h.moved hlookup), h.unique, fun {file text i} htext hi => ?_⟩
  · obtain ⟨hcurrent, hdisk, hpath⟩ := h.home hhome
    exact ⟨hcurrent, hdisk, hsome hpath⟩
  rw [history_recordChanges]
  by_cases hfile : file = path
  · subst hfile
    rw [if_pos rfl]
    have hself : s.home file = some file := hhome.resolve_right fun hnew => by simp [hnew.2] at htext
    exact h.followed_changed hself hcontents ((hfiles file).trans (if_pos rfl)) hrange hsees htext hi
  rw [if_neg hfile]
  refine (h.followed htext hi).carried Traced.changed_gone fun p text' j hplace hp hpath => ?_
  suffices hne : p ≠ path from
    ⟨p, by simp [Traced.changed, hplace, hne], hp, ((hfiles p).trans (if_neg hne)).trans hpath⟩
  rintro rfl
  rcases hhome with hself | ⟨hnew, -⟩
  · exact hfile (Option.some.inj (hp.symm.trans hself))
  · rw [hnew] at hp
    cases hp

end changed

theorem originOf_home {source : Path} (hhome : s.home source = some file) : ledger.originOf source = file := by
  obtain ⟨hcurrent, hdisk, -⟩ := h.home hhome
  rcases Option.getD_eq_iff.mp hcurrent with hmoved | ⟨-, rfl⟩
  · rcases originOf_cases ledger source with hfound | ⟨-, hnone⟩
    · exact h.unique hfound hmoved
    · exact absurd hmoved (hnone file)
  · exact h.originOf_disk hdisk

end

section moved

structure MovedTo (s : Traced) (source dest : Path) (text : List Char) (tree : Tree) : Prop where
  contents : s.tree.fileAt source = some text
  free : s.tree.fileAt dest = none
  files : ∀ path, tree.fileAt path = if path = dest then some text else if path = source then none else s.tree.fileAt path

variable {source dest path file first : Path} {text : List Char} {tree : Tree}

theorem MovedTo.at_dest (h : MovedTo s source dest text tree) : tree.fileAt dest = some text :=
  (h.files dest).trans (if_pos rfl)

theorem MovedTo.other (h : MovedTo s source dest text tree) (hsource : path ≠ source)
    (hpath : (s.tree.fileAt path).isSome) : path ≠ dest ∧ tree.fileAt path = s.tree.fileAt path := by
  have hne : path ≠ dest := by
    intro heq
    rw [heq, h.free] at hpath
    cases hpath
  exact ⟨hne, by rw [h.files, if_neg hne, if_neg hsource]⟩

section

variable (h : Tracks disk s ledger)
include h

theorem originOf_other (hpaths : OwnPaths disk s source dest) (hpath : path ≠ source)
    (hhome : s.home path = some file) : ledger.originOf source ≠ file := by
  unfold OwnPaths at hpaths
  cases hsource : s.home source with
  | some first =>
    rw [h.originOf_home hsource]
    intro heq
    exact hpath ((h.home hhome).1.symm.trans (heq ▸ (h.home hsource).1))
  | none =>
    rw [hsource] at hpaths
    obtain ⟨hcurrent, hdisk, -⟩ := h.home hhome
    rintro rfl
    rcases originOf_cases ledger source with hfound | ⟨hself, -⟩
    · rw [currentPath, hfound] at hcurrent
      exact hpath hcurrent.symm
    · rw [hself, hpaths.1] at hdisk
      cases hdisk

theorem home_moved (hmoved : MovedTo s source dest text tree)
    (hpaths : OwnPaths disk s source dest) (hhome : (s.moved source dest tree).home path = some file) :
    (ledger.rename source dest).currentPath file = path ∧ (disk.fileAt file).isSome ∧ (tree.fileAt path).isSome := by
  unfold Traced.moved at hhome
  dsimp only at hhome
  split_ifs at hhome with hpath hsource
  · obtain ⟨-, hdisk, -⟩ := h.home hhome
    have hcurrent : (ledger.rename source dest).currentPath file = dest := by
      rw [currentPath, rename, h.originOf_home hhome]
      simp
    rw [hpath]
    exact ⟨hcurrent, hdisk, by simp [hmoved.at_dest]⟩
  obtain ⟨hcurrent, hdisk, hthere⟩ := h.home hhome
  have hcurrent' : (ledger.rename source dest).currentPath file = ledger.currentPath file := by
    rw [currentPath, rename,
      AList.lookup_insert_ne (h.originOf_other hpaths hsource hhome).symm]
    rfl
  refine ⟨hcurrent'.trans hcurrent, hdisk, ?_⟩
  rw [(hmoved.other hsource hthere).2]
  exact hthere

theorem origin_moved (hpaths : OwnPaths disk s source dest)
    (hlookup : (ledger.rename source dest).renames.lookup first = some file) (hfile : (disk.fileAt file).isSome) :
    first = file := by
  rcases lookup_insert_eq_some.mp hlookup with ⟨rfl, rfl⟩ | ⟨-, hold⟩
  · unfold OwnPaths at hpaths
    cases hsource : s.home source with
    | some first =>
      rw [hsource] at hpaths
      rcases hpaths with hnone | hback
      · simp [hnone] at hfile
      · exact (h.originOf_home hsource).trans hback.symm
    | none =>
      rw [hsource] at hpaths
      simp [hpaths.2] at hfile
  · exact h.origin hold hfile

theorem moved_moved (hmoved : MovedTo s source dest text tree)
    (hlookup : (ledger.rename source dest).renames.lookup first = some path) : (tree.fileAt path).isSome := by
  rcases lookup_insert_eq_some.mp hlookup with ⟨rfl, rfl⟩ | ⟨hfirst, hold⟩
  · simp [hmoved.at_dest]
  have hsource : path ≠ source := by
    intro heq
    rcases originOf_cases ledger source with hfound | ⟨-, hnone⟩
    · exact hfirst (h.unique hold (heq ▸ hfound))
    · exact hnone first (heq ▸ hold)
  rw [(hmoved.other hsource (h.moved hold)).2]
  exact h.moved hold

theorem unique_moved (hmoved : MovedTo s source dest text tree) {first' : Path}
    (hlookup : (ledger.rename source dest).renames.lookup first = some path)
    (hlookup' : (ledger.rename source dest).renames.lookup first' = some path) : first = first' := by
  -- nothing was at the destination before
  have hfree : ∀ {first}, ledger.renames.lookup first ≠ some dest := by
    intro first hfirst
    have hthere := h.moved hfirst
    simp [hmoved.free] at hthere
  rcases lookup_insert_eq_some.mp hlookup with ⟨rfl, rfl⟩ | ⟨-, hold⟩
  · rcases lookup_insert_eq_some.mp hlookup' with ⟨rfl, -⟩ | ⟨-, hold'⟩
    · rfl
    · exact absurd hold' hfree
  · rcases lookup_insert_eq_some.mp hlookup' with ⟨rfl, rfl⟩ | ⟨-, hold'⟩
    · exact absurd hold hfree
    · exact h.unique hold hold'

end

theorem followed_moved (hmoved : MovedTo s source dest text tree) {original : List Char}
    (h : Followed s file original i outcome) :
    Followed (s.moved source dest tree) file original i outcome := by
  refine h.carried (fun hgone => by simp [Traced.moved, hgone]) fun p text' j hplace hp hpath => ?_
  by_cases hsource : p = source
  · subst hsource
    obtain rfl : text = text' := Option.some.inj (hmoved.contents.symm.trans hpath)
    exact ⟨dest, by simp [Traced.moved, hplace], by simp [Traced.moved, hp], hmoved.at_dest⟩
  · obtain ⟨hne, hsame⟩ := hmoved.other hsource (by simp [hpath])
    exact ⟨p, by simp [Traced.moved, hplace, hsource], by simp [Traced.moved, hne, hsource, hp], hsame.trans hpath⟩

end moved

variable (disk git) in
/-- One part of an edit, carried out and recorded. -/
theorem step (s : Traced) (ledger : PositionLedger) (e : FileEdit) (s' : Traced) (h : Tracks disk s ledger)
    (hok : InDomain s e ∧ Clear disk s e) (hstep : s.step git e = .ok s') : Tracks disk s' (ledger.recordOne e) := by
  obtain ⟨hdomain, hclear⟩ := hok
  cases e with
  | create path =>
    obtain ⟨tree, hcreate, rfl⟩ := map_eq_ok.mp hstep
    refine h.tree_congr fun p text hp => ?_
    rw [createTrackedFile_fileAt hcreate, if_neg, hp]
    rintro ⟨rfl, hexists⟩
    have hlookup := Tree.fileAt_eq_some.mp hp
    simp [Tree.exists_, hlookup] at hexists
  | change path edits =>
    obtain ⟨tree, hchange, rfl⟩ := map_eq_ok.mp hstep
    by_cases hnil : edits = []
    · subst hnil
      cases hchange
      exact h.changed_nil path
    rcases applyTextEdits_fileAt hchange with ⟨hnone, -⟩ | ⟨contents, hcontents, hfiles⟩
    · exact absurd hnone hnil
    · obtain ⟨hhome, hsees⟩ := hclear hnil
      exact h.changed hcontents hfiles (hdomain contents hcontents) hsees hhome
  | rename source dest =>
    obtain ⟨tree, hmove, rfl⟩ := map_eq_ok.mp hstep
    obtain ⟨hfile, hdir, hpaths⟩ := hclear
    obtain ⟨text, htext⟩ := Option.isSome_iff_exists.mp hfile
    obtain ⟨hfree, hfiles⟩ := gitMove_fileAt hmove htext hdir
    have hmoved : MovedTo s source dest text tree := ⟨htext, hfree, hfiles⟩
    exact ⟨h.home_moved hmoved hpaths, h.origin_moved hpaths, h.moved_moved hmoved, h.unique_moved hmoved,
      fun htext hi => followed_moved hmoved (h.followed htext hi)⟩

end Tracks

def EditInDomain (git : Git) (s : Traced) (edit : WorkspaceEdit) : Prop :=
  Checked (Traced.step git) InDomain s edit.inOrder

/-- Each part of the edit is clear in its turn. -/
def EditClear (git : Git) (disk : Tree) (s : Traced) (edit : WorkspaceEdit) : Prop :=
  Checked (Traced.step git) (Clear disk) s edit.inOrder

theorem Tracks.apply (git : Git) (disk : Tree) (s : Traced) (ledger : PositionLedger) (edit : WorkspaceEdit) (s' : Traced)
    (h : Tracks disk s ledger) (hok : EditInDomain git s edit ∧ EditClear git disk s edit)
    (happly : s.apply git edit = .ok s') : Tracks disk s' (ledger.record edit) := by
  obtain ⟨mid, hmid, hrest⟩ := bind_eq_ok.mp happly
  obtain ⟨tree, hsweep, hreturn⟩ := bind_eq_ok.mp hrest
  cases hreturn
  have htracks := (hok.1.and hok.2).follows (Tracks.step disk git) hmid h
  rw [record_eq]
  exact htracks.tree_congr fun path text hpath => (Tree.sweep_fileAt hsweep path).trans hpath

/-- In a run of edits that are clear, the ledger leads every position of the starting tree to its character. -/
theorem translations_lead_to_the_character (git : Git) (disk t : Tree) (edits : List WorkspaceEdit)
    (hrun : edits.foldlM (applyWorkspaceEdit git) disk = .ok t)
    (hdomain : Checked (Traced.apply git) (EditInDomain git) (.start disk) edits)
    (hclear : Checked (Traced.apply git) (EditClear git disk) (.start disk) edits) :
    ∃ s, edits.foldlM (Traced.apply git) (.start disk) = .ok s ∧ s.tree = t ∧
      Exact disk s (edits.foldl PositionLedger.record .new) := by
  have hproject := foldlM_project (Traced.apply_tree git) (.start disk) edits
  rw [show (Traced.start disk).tree = disk from rfl, hrun] at hproject
  obtain ⟨s, hs, rfl⟩ := map_eq_ok.mp hproject
  exact ⟨s, hs, rfl, ((hdomain.and hclear).follows (Tracks.apply git disk) hs (Tracks.start disk)).exact⟩

def twoLines : List Char := ['a', '\n', 'b', '\n']

def between : TextEdit := ⟨⟨⟨2, 1⟩, ⟨2, 1⟩⟩, ['x', '\n']⟩

def threeLines : List Char := ['a', '\n', 'x', '\n', 'b', '\n']

def fileAtA (text : List Char) : Tree := AList.singleton ["a.rs"] (.file text)

def insertionAt (path : Path) : WorkspaceEdit := ⟨[.change path [between]]⟩

def moveToB : WorkspaceEdit := ⟨[.rename ["a.rs"] ["b.rs"]]⟩

def afterInsertion : Traced := (Traced.start (fileAtA twoLines)).changed ["a.rs"] [between] (fileAtA threeLines)

def afterMove : Traced :=
  (Traced.start (fileAtA twoLines)).moved ["a.rs"] ["b.rs"] (AList.singleton ["b.rs"] (.file twoLines))

theorem between_inRange : InRange twoLines [between] := by
  refine ⟨fun e he => ?_, pairwise_singleton _ _⟩
  rw [mem_singleton.mp he]
  exact ⟨⟨2, 2, ['x', '\n']⟩, ⟨by decide, by decide⟩, by decide, by decide, rfl⟩

theorem between_seen (i : Nat) : Seen (byStart [between]) (cutsOf twoLines [between]) twoLines i := by
  have hlines : ¬ between.OneLine := fun hone => absurd hone.2 (by decide)
  exact ⟨not_blind_of_whole_lines ⟨by decide, by decide⟩ hlines (by decide) (by decide) (by decide), fun _ _ => trivial⟩

theorem insertionAt_inDomain {s : Traced} (h : s.tree.fileAt path = some twoLines) :
    EditInDomain plainGit s (insertionAt path) := by
  refine ⟨fun text htext => ?_, fun _ _ => trivial⟩
  cases h.symm.trans htext
  exact between_inRange

/-- The second line is found as the third one of the file at its new path. -/
theorem a_line_is_found_below_the_inserted_one :
    ∃ s, [insertionAt ["a.rs"], moveToB].foldlM (Traced.apply plainGit) (.start (fileAtA twoLines)) = .ok s ∧
      ([insertionAt ["a.rs"], moveToB].foldl PositionLedger.record .new).translate ["a.rs"] ⟨2, 1⟩ = .ok ⟨3, 1⟩ ∧
      ∃ j, s.place (["a.rs"], 2) = some (["b.rs"], j) ∧ threeLines[j]? = some 'b' ∧ positionAt threeLines j = ⟨3, 1⟩ := by
  have hinserted : (Traced.start (fileAtA twoLines)).apply plainGit (insertionAt ["a.rs"]) = .ok afterInsertion := by rfl
  have hmoved : afterInsertion.apply plainGit moveToB =
      .ok (afterInsertion.moved ["a.rs"] ["b.rs"] (AList.singleton ["b.rs"] (.file threeLines))) := by rfl
  have hdomain : Checked (Traced.apply plainGit) (EditInDomain plainGit) (.start (fileAtA twoLines))
      [insertionAt ["a.rs"], moveToB] :=
    .cons hinserted (insertionAt_inDomain rfl) (.cons hmoved ⟨trivial, fun _ _ => trivial⟩ trivial)
  have hclear : Checked (Traced.apply plainGit) (EditClear plainGit (fileAtA twoLines)) (.start (fileAtA twoLines))
      [insertionAt ["a.rs"], moveToB] := by
    refine .cons hinserted ⟨fun _ => ⟨.inl rfl, ?_⟩, fun _ _ => trivial⟩ (.cons hmoved ⟨?_, fun _ _ => trivial⟩ trivial)
    · intro file original i text j _ _ _ htext
      cases htext
      exact between_seen j
    · exact ⟨rfl, rfl, .inl rfl⟩
  obtain ⟨s, hs, htree, hexact⟩ := translations_lead_to_the_character plainGit (fileAtA twoLines)
    (AList.singleton ["b.rs"] (.file threeLines)) [insertionAt ["a.rs"], moveToB] rfl hdomain hclear
  obtain ⟨text', j, hplace, htext, hsame, hj⟩ := hexact ["a.rs"] twoLines 2 rfl (by decide)
  rw [htree] at htext
  cases htext
  exact ⟨s, hs, rfl, j, hplace, hsame, hj⟩

/-- An edit of a moved file is not followed: its second line is looked for where the inserted one is. -/
theorem an_edit_under_the_new_path_is_not_followed :
    ∃ s, [moveToB, insertionAt ["b.rs"]].foldlM (Traced.apply plainGit) (.start (fileAtA twoLines)) = .ok s ∧
      Checked (Traced.apply plainGit) (EditInDomain plainGit) (.start (fileAtA twoLines))
        [moveToB, insertionAt ["b.rs"]] ∧
      positionAt twoLines 2 = ⟨2, 1⟩ ∧
      ([moveToB, insertionAt ["b.rs"]].foldl PositionLedger.record .new).translate ["a.rs"] ⟨2, 1⟩ = .ok ⟨2, 1⟩ ∧
      ([moveToB, insertionAt ["b.rs"]].foldl PositionLedger.record .new).currentPath ["a.rs"] = ["b.rs"] ∧
      s.place (["a.rs"], 2) = some (["b.rs"], 4) ∧ s.tree.fileAt ["b.rs"] = some threeLines ∧
      positionAt threeLines 4 = ⟨3, 1⟩ := by
  have hmoved : (Traced.start (fileAtA twoLines)).apply plainGit moveToB = .ok afterMove := by rfl
  refine ⟨afterMove.changed ["b.rs"] [between] (AList.singleton ["b.rs"] (.file threeLines)), by rfl, ?_, by decide,
    by rfl, by rfl, by rfl, by rfl, by decide⟩
  exact .cons hmoved ⟨trivial, fun _ _ => trivial⟩ ⟨insertionAt_inDomain rfl, fun _ _ => trivial⟩

end TddyCoder.Restructure
