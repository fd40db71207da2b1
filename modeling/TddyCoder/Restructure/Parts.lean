/-
  TddyCoder.Restructure.Parts — an edit carried out part by part, and a file put back
  (`packages/tddy-code-restructuring/src/apply.rs`, `PreImage` of `journal/group.rs`).

  Each directory that is made or removed is a step, and so is each move by git; a file that is
  written is emptied in one step and filled in the next. `Confined files captured t` says that
  the tree has the given files except at the captured paths, and no directory stands at those.
-/

import TddyCoder.Restructure.Commit

namespace TddyCoder.Restructure

open Text Machine List
open Durable (Carries Keeps ask ask_bind_ok change fail inTurn)

abbrev TreeProgram := Durable Tree RestructureError

/-! ## An edit in parts -/

def createDirs (dir : Path) : TreeProgram Unit :=
  inTurn (fun above => Durable.step (Tree.createDir · above)) ((List.range dir.length).map fun n => dir.take (n + 1))

/-- A file is written unless a directory stands there. The directories above it are there: whoever writes has made them or
    read the file. -/
def Tree.write (t : Tree) (path : Path) (text : List Char) : Except RestructureError Tree :=
  if t.lookup path = some .dir then .error .io else .ok (t.insert path (.file text))

def writeFile (path : Path) (text : List Char) : TreeProgram Unit := do
  Durable.step (Tree.write · path [])
  Durable.step (Tree.write · path text)

def sweep (path : Path) : Nat → TreeProgram Unit
  | 0 => pure ()
  | n + 1 => do
    match ← ask fun t => .ok (t.lookup (path.take (n + 1)), t.holdsNothing (path.take (n + 1))) with
    | (none, _) => sweep path n
    | (some (.file _), _) => fail .io
    | (some .dir, true) =>
      change (·.erase (path.take (n + 1)))
      sweep path n
    | (some .dir, false) => pure ()

section apply

variable (git : Git) (path : Path)

def createTrackedFileParts : TreeProgram Unit := do
  createDirs path.dropLast
  Durable.step fun t => .ok (if t.exists_ path then t else t.insert path (.file []))
  Durable.step fun t => (git.add t path).map fun _ => t

def applyTextEditsParts (edits : List TextEdit) : TreeProgram Unit :=
  if edits.isEmpty then pure ()
  else do
    match ← ask fun t => .ok (t.fileAt path) with
    | none => fail .io
    | some contents => writeFile path (edited contents edits)

def gitMoveParts (source dest : Path) : TreeProgram Unit := do
  createDirs dest.dropLast
  Durable.step (git.mv · source dest)

def applyParts (edit : WorkspaceEdit) : TreeProgram Unit := do
  inTurn (createTrackedFileParts git) edit.creations
  inTurn (fun change => applyTextEditsParts change.1 change.2) edit.textChanges
  inTurn (fun move => gitMoveParts git move.1 move.2) edit.renames
  inTurn (fun move => sweep move.1 (move.1.length - 1)) edit.renames

end apply

/-! ## Putting a file back -/

namespace PreImage

def capture (t : Tree) (path : Path) : Except RestructureError PreImage := (t.read path).map (⟨path, ·⟩)

def restore (image : PreImage) : TreeProgram Unit :=
  match image.contents with
  | some contents => do
    createDirs image.path.dropLast
    writeFile image.path contents
  | none => do
    match ← ask (·.read image.path) with
    | some _ =>
      change (·.erase image.path)
      sweep image.path (image.path.length - 1)
    | none => pure ()

end PreImage

namespace Tree

variable {t : Tree} {path : Path}

theorem isDir_insert (text : List Char) (hpath : path ≠ []) (p : Path) :
    isDir (t.insert path (.file text)) p = if p = path then false else t.isDir p := by
  by_cases hp : p = path
  · subst hp
    simp [isDir, hpath]
  · simp [isDir, AList.lookup_insert_ne hp, hp]

end Tree

/-! ## The parts come to the whole -/

section carries

variable {git : Git}

theorem createDirs_carries (dir : Path) (t : Tree) : Carries (createDirs dir) t (t.createDirAll dir) :=
  Carries.inTurn (fun _ => Carries.step _) _ t

theorem sweep_carries (path : Path) (n : Nat) (t : Tree) : Carries (sweep path n) t (t.removeEmptied path n) := by
  induction n generalizing t with
  | zero => exact .pure t
  | succ n ih =>
    unfold Tree.removeEmptied
    refine .of_run (ask_bind_ok _ rfl) ?_
    cases t.lookup (path.take (n + 1)) with
    | none => exact ih t
    | some node =>
      cases node with
      | file text => exact .fail RestructureError.io t
      | dir =>
        cases t.holdsNothing (path.take (n + 1)) with
        | true => exact (Carries.change _ t).bind ih
        | false => exact .pure t

theorem applyTextEditsParts_carries (path : Path) (edits : List TextEdit) (t : Tree) :
    Carries (applyTextEditsParts path edits) t (applyTextEdits t path edits) := by
  unfold applyTextEditsParts applyTextEdits
  cases edits.isEmpty with
  | true => exact .pure t
  | false =>
    refine .of_run (ask_bind_ok _ rfl) ?_
    cases hfile : t.fileAt path with
    | none => exact .fail RestructureError.io t
    | some contents =>
      have hwritten : ((t.write path []).bind fun t => t.write path (edited contents edits)) =
          .ok (t.insert path (.file (edited contents edits))) := by
        have hfile' := Tree.fileAt_eq_some.mp hfile
        simp [Tree.write, hfile', Except.bind, AList.insert_insert]
      show Carries (writeFile path (edited contents edits)) t (.ok (t.insert path (.file (edited contents edits))))
      rw [← hwritten]
      exact (Carries.step _ t).bind (Carries.step _)

theorem applyParts_carries (edit : WorkspaceEdit) (t : Tree) :
    Carries (applyParts git edit) t (applyWorkspaceEdit git t edit) := by
  have hcreate := Carries.inTurn
    (fun path t => show Carries (createTrackedFileParts git path) t (createTrackedFile git t path) from
      (createDirs_carries path.dropLast t).bind fun _ =>
        (Carries.step _ _).bind (Carries.step fun t => (git.add t path).map fun _ => t))
    edit.creations
  have hchange := Carries.inTurn (fun change : Path × List TextEdit => applyTextEditsParts_carries change.1 change.2)
    edit.textChanges
  have hmove := Carries.inTurn
    (fun (move : Path × Path) t => (createDirs_carries move.2.dropLast t).bind (Carries.step (git.mv · move.1 move.2)))
    edit.renames
  have hsweep := Carries.inTurn (fun move : Path × Path => sweep_carries move.1 (move.1.length - 1)) edit.renames
  exact (hcreate t).bind fun t => (hchange t).bind fun t => (hmove t).bind hsweep

end carries

/-! ## Edits of captured paths -/

/-- The tree has the files except at the captured paths, where no directory stands. -/
structure Confined (files : Path → Option (List Char)) (captured : List Path) (t : Tree) : Prop where
  outside : ∀ p, p ∉ captured → t.fileAt p = files p
  free : ∀ p ∈ captured, t.isDir p = false

/-- No captured path lies inside another one or below a file. -/
structure Ground (files : Path → Option (List Char)) (captured : List Path) : Prop where
  apart : ∀ p ∈ captured, ∀ q ∈ captured, p <+: q → p = q
  clear : ∀ p ∈ captured, ∀ n < p.length, files (p.take n) = none

/-- `git mv` refuses a source that does not exist, and a file that is moved makes no directory and removes none. -/
structure Git.MovesFiles (git : Git) : Prop where
  mv_source : ∀ {t t' : Tree} {source dest : Path}, git.mv t source dest = .ok t' → t.exists_ source = true
  mv_dirs : ∀ {t t' : Tree} {source dest : Path} {text : List Char}, git.mv t source dest = .ok t' →
    t.fileAt source = some text → t.isDir dest = false → ∀ p, t'.isDir p = t.isDir p

section confined

variable {files : Path → Option (List Char)} {captured : List Path} {t t' : Tree} {path : Path} {git : Git} {n : Nat}
  {image : PreImage}

theorem Ground.above (h : Ground files captured) (hpath : path ∈ captured) (hn : n < path.length) :
    path.take n ∉ captured := by
  intro hmem
  have heq := h.apart _ hmem path hpath (List.take_prefix n path)
  have hlength := congrArg List.length heq
  rw [length_take] at hlength
  omega

section

variable (h : Confined files captured t)
include h

theorem Confined.above (hground : Ground files captured) (hpath : path ∈ captured)
    (hn : n < path.length) : t.fileAt (path.take n) = none := by
  rw [h.outside _ (hground.above hpath hn)]
  exact hground.clear path hpath n hn

theorem Confined.ne_nil (hpath : path ∈ captured) : path ≠ [] := by
  rintro rfl
  have hroot := h.free [] hpath
  simp [Tree.isDir] at hroot

theorem Confined.createDir {dir : Path} (hdir : dir ∉ captured)
    (hcreate : t.createDir dir = .ok t') : Confined files captured t' := by
  obtain ⟨hfiles, hlookup⟩ := Tree.createDir_spec hcreate
  refine ⟨fun p hp => (hfiles p).trans (h.outside p hp), ?_⟩
  intro p hp
  have hne : p ≠ dir := fun heq => hdir (heq ▸ hp)
  have hfree := h.free p hp
  simpa [Tree.isDir, hlookup p hne] using hfree

theorem Confined.insert (hpath : path ∈ captured) (text : List Char) :
    Confined files captured (t.insert path (.file text)) := by
  refine ⟨?_, ?_⟩
  · intro p hp
    have hne : p ≠ path := fun heq => hp (heq ▸ hpath)
    rw [Tree.fileAt_insert, if_neg hne]
    exact h.outside p hp
  intro p hp
  rw [Tree.isDir_insert text (h.ne_nil hpath)]
  split
  · rfl
  · exact h.free p hp

theorem Confined.erase (hpath : path ∈ captured ∨ t.lookup path = some .dir) :
    Confined files captured (t.erase path) := by
  refine ⟨?_, ?_⟩
  · intro p hp
    by_cases hne : p = path
    · subst hne
      rcases hpath with hpath | hdir
      · exact absurd hpath hp
      · have hfile := h.outside p hp
        simp only [Tree.fileAt, hdir] at hfile
        simp [Tree.fileAt, ← hfile]
    · rw [← h.outside p hp]
      exact Tree.fileAt_congr (AList.lookup_erase_ne hne)
  · intro p hp
    by_cases hne : p = path
    · subst hne
      simp [Tree.isDir, h.ne_nil hp]
    · have hfree := h.free p hp
      simpa [Tree.isDir, AList.lookup_erase_ne hne] using hfree

end

theorem Confined.mv (hgit : git.MovesFiles) {source dest : Path} (h : Confined files captured t) (hsource : source ∈ captured)
    (hdest : dest ∈ captured) (hmv : git.mv t source dest = .ok t') : Confined files captured t' := by
  have hnotDir := h.free source hsource
  have hexists := hgit.mv_source hmv
  obtain ⟨text, htext⟩ : ∃ text, t.fileAt source = some text := by
    simp only [Tree.isDir, Tree.exists_, h.ne_nil hsource, decide_false, Bool.false_or] at hnotDir hexists
    obtain ⟨node, hnode⟩ := Option.isSome_iff_exists.mp hexists
    cases node with
    | file text => exact ⟨text, Tree.fileAt_eq_some.mpr hnode⟩
    | dir => simp [hnode] at hnotDir
  have hfiles := git.mv_file hmv htext (h.free dest hdest)
  refine ⟨?_, ?_⟩
  · intro p hp
    have hneSource : p ≠ source := fun heq => hp (heq ▸ hsource)
    have hneDest : p ≠ dest := fun heq => hp (heq ▸ hdest)
    rw [hfiles, if_neg hneDest, if_neg hneSource]
    exact h.outside p hp
  · intro p hp
    rw [hgit.mv_dirs hmv htext (h.free dest hdest)]
    exact h.free p hp

theorem keeps_createDirs (hground : Ground files captured) (hpath : path ∈ captured) (h : Confined files captured t) :
    Keeps (createDirs path.dropLast) t (Confined files captured)
      fun r t' => r = .ok () ∧ Confined files captured t' ∧ ∀ p, t'.fileAt p = t.fileAt p := by
  have hstep : ∀ dir ∈ (List.range path.dropLast.length).map (fun n => path.dropLast.take (n + 1)), ∀ mid : Tree,
      Confined files captured mid ∧ (∀ p, mid.fileAt p = t.fileAt p) →
      Keeps (Durable.step (Tree.createDir · dir)) mid (fun t' => Confined files captured t' ∧ ∀ p, t'.fileAt p = t.fileAt p)
        fun r t' => r = .ok () ∧ Confined files captured t' ∧ ∀ p, t'.fileAt p = t.fileAt p := by
    intro dir hdir mid ⟨hmid, hfiles⟩
    obtain ⟨n, hn, rfl⟩ := mem_map.mp hdir
    rw [mem_range, length_dropLast] at hn
    have habove : path.dropLast.take (n + 1) = path.take (n + 1) := by
      rw [dropLast_eq_take, take_take, Nat.min_eq_left (by omega)]
    rw [habove]
    have hnone : mid.fileAt (path.take (n + 1)) = none := hmid.above hground hpath (by omega)
    refine .step ?_ ?_
    · intro t' ht'
      have hkept := hmid.createDir (hground.above hpath (by omega)) ht'
      have hfiles' := fun p => ((Tree.createDir_spec ht').1 p).trans (hfiles p)
      exact ⟨⟨hkept, hfiles'⟩, rfl, hkept, hfiles'⟩
    intro e he
    unfold Tree.createDir at he
    split at he
    · cases he
    · cases he
    · next hfile =>
      rw [Tree.fileAt_eq_some.mpr hfile] at hnone
      cases hnone
  exact (Keeps.inTurn_ok hstep ⟨h, fun _ => rfl⟩).mono (fun _ h => h.1) fun _ _ h => h

theorem keeps_writeFile (hpath : path ∈ captured) (h : Confined files captured t) (text : List Char) :
    Keeps (writeFile path text) t (Confined files captured)
      fun r t' => r = .ok () ∧ Confined files captured t' ∧ t'.fileAt path = some text := by
  have hwrite : ∀ {t : Tree} (text : List Char), Confined files captured t →
      t.write path text = .ok (t.insert path (.file text)) := by
    intro t text h
    have hfree := h.free path hpath
    simp only [Tree.isDir, h.ne_nil hpath, decide_false, Bool.false_or, decide_eq_false_iff_not] at hfree
    rw [Tree.write, if_neg hfree]
  refine .bind (R := fun r t' => r = .ok () ∧ Confined files captured t') ?_ ?_ fun _ _ h => by cases h.1
  · refine .step ?_ ?_ <;> rw [hwrite [] h]
    · rintro _ ⟨rfl⟩
      exact ⟨h.insert hpath [], rfl, h.insert hpath []⟩
    · rintro _ ⟨⟩
  rintro - mid ⟨-, hmid⟩
  refine .step ?_ ?_ <;> rw [hwrite text hmid]
  · rintro _ ⟨rfl⟩
    exact ⟨hmid.insert hpath text, rfl, hmid.insert hpath text, by simp [Tree.fileAt_insert]⟩
  · rintro _ ⟨⟩

theorem keeps_sweep (hground : Ground files captured) (hpath : path ∈ captured) (h : Confined files captured t)
    (hn : n < path.length) : Keeps (sweep path n) t (Confined files captured)
      fun r t' => r = .ok () ∧ Confined files captured t' ∧ ∀ p, t'.fileAt p = t.fileAt p := by
  induction n generalizing t with
  | zero => exact .pure ⟨rfl, h, fun _ => rfl⟩
  | succ n ih =>
    have hnone := h.above hground hpath hn
    refine .of_run (ask_bind_ok _ rfl) ?_
    cases hnode : t.lookup (path.take (n + 1)) with
    | none => exact ih h (by omega)
    | some node =>
      cases node with
      | file text => simp [Tree.fileAt, hnode] at hnone
      | dir =>
        cases t.holdsNothing (path.take (n + 1)) with
        | false => exact .pure ⟨rfl, h, fun _ => rfl⟩
        | true =>
          have hkept := h.erase (.inr hnode)
          have hfiles : ∀ p, Tree.fileAt (t.erase (path.take (n + 1))) p = t.fileAt p := by
            intro p
            by_cases hp : p = path.take (n + 1)
            · rw [hp, hnone]
              simp [Tree.fileAt]
            · exact Tree.fileAt_congr (AList.lookup_erase_ne hp)
          refine .change_bind hkept ?_
          refine (ih hkept (by omega)).mono (fun _ h => h) ?_
          rintro r t' ⟨hr, hkept', hfiles'⟩
          exact ⟨hr, hkept', fun p => (hfiles' p).trans (hfiles p)⟩

theorem Confined.read (h : Confined files captured t) (hground : Ground files captured) (hpath : path ∈ captured) :
    t.read path = .ok (t.fileAt path) := by
  have habove : ((List.range path.length).any fun n => (t.fileAt (path.take n)).isSome) = false := by
    rw [any_eq_false]
    intro n hn
    simp [h.above hground hpath (mem_range.mp hn)]
  rw [Tree.read, habove, h.free path hpath]
  rfl

section

variable (hground : Ground files captured)
include hground

theorem keeps_restore_confined (himage : image.path ∈ captured)
    (h : Confined files captured t) : Keeps image.restore t (Confined files captured)
      fun r t' => r = .ok () ∧ Confined files captured t' ∧ t'.fileAt image.path = image.contents := by
  unfold PreImage.restore
  cases image.contents with
  | some contents =>
    refine (keeps_createDirs hground himage h).bind ?_ fun _ _ h => nomatch h.1
    rintro - mid ⟨-, hmid, -⟩
    exact keeps_writeFile himage hmid contents
  | none =>
    refine .of_run (ask_bind_ok _ (h.read hground himage)) ?_
    cases hfile : t.fileAt image.path with
    | none => exact .pure ⟨rfl, h, hfile⟩
    | some text =>
      have hkept := h.erase (.inl himage)
      have hlength : image.path.length - 1 < image.path.length := by
        have hpos := length_pos_iff.mpr (h.ne_nil himage)
        omega
      refine .change_bind hkept ?_
      refine (keeps_sweep hground himage hkept hlength).mono (fun _ h => h) ?_
      rintro r t' ⟨hr, hkept', hfiles⟩
      refine ⟨hr, hkept', ?_⟩
      rw [hfiles]
      simp [Tree.fileAt]

theorem keeps_restore (himage : image.path ∈ captured)
    (h : Confined files captured t) : Keeps image.restore t (Confined files captured)
      fun r t' => r = .ok () ∧ Confined files captured t' ∧ t'.fileAt image.path = image.contents ∧
        ∀ p, p ≠ image.path → t'.fileAt p = t.fileAt p := by
  -- the same lemma once more, for this one path and the files as they are now
  have hground' : Ground t.fileAt [image.path] := by
    refine ⟨by simp, ?_⟩
    intro p hp n hn
    rw [mem_singleton.mp hp] at hn ⊢
    exact h.above hground himage hn
  have h' : Confined t.fileAt [image.path] t := by
    refine ⟨fun _ _ => rfl, ?_⟩
    intro p hp
    rw [mem_singleton.mp hp]
    exact h.free _ himage
  refine ((keeps_restore_confined hground himage h).and (keeps_restore_confined hground' (by simp) h')).mono (fun _ h => h.1) ?_
  rintro r t' ⟨⟨hr, hkept, hfile⟩, -, hothers, -⟩
  exact ⟨hr, hkept, hfile, fun p hp => hothers.outside p (by simpa using hp)⟩

theorem keeps_createTrackedFileParts (hpath : path ∈ captured)
    (h : Confined files captured t) :
    Keeps (createTrackedFileParts git path) t (Confined files captured) fun _ => Confined files captured := by
  refine (keeps_createDirs hground hpath h).bind ?_ fun _ _ h => h.2.1
  rintro - mid ⟨-, hmid, -⟩
  refine .bind (R := fun _ => Confined files captured) ?_ ?_ fun _ _ h => h
  · refine .step ?_ fun _ h => nomatch h
    rintro _ ⟨rfl⟩
    split
    · exact ⟨hmid, hmid⟩
    · exact ⟨hmid.insert hpath [], hmid.insert hpath []⟩
  intro _ mid hmid
  refine .step ?_ fun _ _ => hmid
  intro t' ht'
  obtain ⟨-, -, rfl⟩ := map_eq_ok.mp ht'
  exact ⟨hmid, hmid⟩

end

theorem keeps_applyTextEditsParts (hpath : path ∈ captured) (edits : List TextEdit) (h : Confined files captured t) :
    Keeps (applyTextEditsParts path edits) t (Confined files captured) fun _ => Confined files captured := by
  unfold applyTextEditsParts
  split
  · exact .pure h
  refine .of_run (ask_bind_ok _ rfl) ?_
  cases t.fileAt path with
  | none => exact .fail h
  | some contents => exact (keeps_writeFile hpath h _).mono (fun _ h => h) fun _ _ h => h.2.1

theorem keeps_gitMoveParts (hgit : git.MovesFiles) {source dest : Path} (hground : Ground files captured)
    (hsource : source ∈ captured) (hdest : dest ∈ captured) (h : Confined files captured t) :
    Keeps (gitMoveParts git source dest) t (Confined files captured) fun _ => Confined files captured := by
  refine (keeps_createDirs hground hdest h).bind ?_ fun _ _ h => h.2.1
  rintro - mid ⟨-, hmid, -⟩
  refine .step ?_ fun _ _ => hmid
  intro t' ht'
  exact ⟨hmid.mv hgit hsource hdest ht', hmid.mv hgit hsource hdest ht'⟩

/-- Whatever part of an edit of captured paths is done. -/
theorem keeps_applyParts (hgit : git.MovesFiles) {edit : WorkspaceEdit} (hground : Ground files captured)
    (htouched : ∀ p ∈ touchedPaths edit, p ∈ captured) (h : Confined files captured t) :
    Keeps (applyParts git edit) t (Confined files captured) fun _ => Confined files captured := by
  have htouched' : ∀ change ∈ edit.changes, ∀ p ∈ change.paths, p ∈ captured :=
    fun change hchange p hp => htouched p (mem_touchedPaths.mpr ⟨change, hchange, hp⟩)
  have hcreation : ∀ p ∈ edit.creations, p ∈ captured := by
    intro p hp
    obtain ⟨change, hchange, heq⟩ := mem_filterMap.mp hp
    cases change <;> cases heq
    exact htouched' _ hchange p (by simp [FileEdit.paths])
  have htext : ∀ change ∈ edit.textChanges, change.1 ∈ captured := by
    intro change hmem
    obtain ⟨change, hchange, heq⟩ := mem_filterMap.mp hmem
    cases change <;> cases heq
    exact htouched' _ hchange _ (by simp [FileEdit.paths])
  have hrename : ∀ move ∈ edit.renames, move.1 ∈ captured ∧ move.2 ∈ captured := by
    intro move hmem
    obtain ⟨change, hchange, heq⟩ := mem_filterMap.mp hmem
    cases change <;> cases heq
    exact ⟨htouched' _ hchange _ (by simp [FileEdit.paths]), htouched' _ hchange _ (by simp [FileEdit.paths])⟩
  refine .bind (R := fun _ => Confined files captured) ?_ ?_ fun _ _ h => h
  · exact .inTurn (fun p hp _ h => keeps_createTrackedFileParts hground (hcreation p hp) h) h
  intro _ t h
  refine .bind (R := fun _ => Confined files captured) ?_ ?_ fun _ _ h => h
  · exact .inTurn (fun change hmem _ h => keeps_applyTextEditsParts (htext change hmem) _ h) h
  intro _ t h
  refine .bind (R := fun _ => Confined files captured) ?_ ?_ fun _ _ h => h
  · exact .inTurn
      (fun move hmem _ h => keeps_gitMoveParts hgit hground (hrename move hmem).1 (hrename move hmem).2 h) h
  intro _ t h
  refine .inTurn (fun move hmem t h => ?_) h
  have hpos := length_pos_iff.mpr (h.ne_nil (hrename move hmem).1)
  exact (keeps_sweep hground (hrename move hmem).1 h (by omega)).mono (fun _ h => h) fun _ _ h => h.2.1

end confined

end TddyCoder.Restructure
