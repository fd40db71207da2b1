/-
  TddyCoder.ToolCalls.Containment — how a tool's path argument is kept inside the worktree
  (`packages/tddy-tool-engine/src/lib.rs`: `contain_path`), and what `Read`, `Write`,
  `StrReplace` and `Delete` then do with the path they are given back (`tool_read`,
  `tool_write`, `tool_str_replace`, `tool_delete`; `LocalShell` in `shell.rs`).

  A path that is there is given back in its canonical form. One that is not is given back as it
  was written, once it has no ".." and the nearest directory above it lies in the worktree. "Is
  there" follows links, so a link to nothing counts as missing, and writing to it makes the file
  where it leads.

  Proved: `an_accepted_path_stays_in_the_worktree_iff`; that file is
  `a_link_to_nothing_leads_out`.
-/

import TddyCoder.Machine.Fallible
import TddyCoder.Posix.Files

namespace TddyCoder.ToolCalls

open Posix List

section

variable (fs : Fs) (maxLinks : Nat) (cwd : List String)

/-! ## The check -/

def ioError : Errno → String
  | .noEntry => "No such file or directory (os error 2)"
  | .notDirectory => "Not a directory (os error 20)"
  | .isDirectory => "Is a directory (os error 21)"
  | .alreadyExists => "File exists (os error 17)"
  | .tooManyLinks => "Too many levels of symbolic links (os error 40)"

def candidatePath (root : List String) (argPath : String) : PathText :=
  let arg := PathText.parse argPath
  if arg.absolute then arg else ⟨true, root ++ arg.segments⟩

/-- `exists` and then `canonicalize` are one lookup, since nothing changes in between. -/
def containPath (worktreeRoot argPath : String) : Except String PathText :=
  match canonicalize fs maxLinks cwd (.parse worktreeRoot) with
  | .error e => .error ("cannot canonicalize worktree root: " ++ ioError e)
  | .ok root =>
    let candidate := candidatePath root argPath
    match canonicalize fs maxLinks cwd candidate with
    | .ok canon =>
      if root <+: canon then .ok ⟨true, canon⟩
      else .error ("resolved path escapes worktree: " ++ (⟨true, canon⟩ : PathText).display)
    | .error _ =>
      if ".." ∈ candidate.segments then .error ("path contains '..' component: " ++ candidate.display)
      else
        match nearest fs maxLinks cwd candidate with
        | none => .error ("path escapes worktree: " ++ candidate.display)
        | some canon =>
          if root <+: canon then .ok candidate else .error ("path escapes worktree: " ++ candidate.display)

/-! ## What the tools do with a path -/

inductive Tool
  | read
  | write (contents : List UInt8)
  /-- `edit` is what becomes of the bytes read, or nothing if the edit is refused. -/
  | strReplace (edit : List UInt8 → Option (List UInt8))
  | delete

def Tool.run (path : PathText) : Tool → Effect
  | .read =>
    match readFile fs maxLinks cwd path with
    | .error e => ⟨fs, [], .error e⟩
    | .ok (place, _) => ⟨fs, [.read place], .ok ()⟩
  | .write contents =>
    match path.parent with
    | none => writeFile fs maxLinks cwd path contents
    | some parent =>
      let made := createDirAll maxLinks cwd fs parent
      match made.result with
      | .error e => ⟨made.fs, made.touched, .error e⟩
      | .ok () =>
        let written := writeFile made.fs maxLinks cwd path contents
        ⟨written.fs, made.touched ++ written.touched, written.result⟩
  | .strReplace edit =>
    match readFile fs maxLinks cwd path with
    | .error e => ⟨fs, [], .error e⟩
    | .ok (place, bytes) =>
      match edit bytes with
      | none => ⟨fs, [.read place], .ok ()⟩
      | some contents =>
        let written := writeFile fs maxLinks cwd path contents
        ⟨written.fs, .read place :: written.touched, written.result⟩
  | .delete => removeFile fs maxLinks cwd path

/-- The path does not end in a link that leads to a free place outside of `root`. -/
def NoLinkOut (root : List String) (path : PathText) : Prop :=
  ∀ place target (gap : fs.Gap), look fs maxLinks cwd false path = .ok (.found place) →
    fs.node place = some (.link target) → look fs maxLinks cwd true path = .ok (.missing gap false) → root <+: gap.place

end

/-! ## What is accepted -/

section

variable {fs : Fs} {maxLinks : Nat} {cwd root : List String} {worktreeRoot argPath : String} {resolved : PathText}

theorem candidatePath_absolute (root : List String) (argPath : String) :
    candidatePath root argPath = ⟨true, (candidatePath root argPath).segments⟩ := by
  rw [candidatePath]
  by_cases habs : (PathText.parse argPath).absolute = true
  · rw [if_pos habs, ← habs]
  · rw [if_neg habs]

/-- An accepted path is canonical, or it is the candidate, which is not there, and the nearest place above it is inside. -/
theorem containPath_eq_ok (hroot : canonicalize fs maxLinks cwd (.parse worktreeRoot) = .ok root)
    (h : containPath fs maxLinks cwd worktreeRoot argPath = .ok resolved) :
    (∃ canon, canonicalize fs maxLinks cwd (candidatePath root argPath) = .ok canon ∧ root <+: canon ∧ resolved = ⟨true, canon⟩) ∨
    (∀ p, canonicalize fs maxLinks cwd (candidatePath root argPath) ≠ .ok p) ∧
      ".." ∉ (candidatePath root argPath).segments ∧ resolved = candidatePath root argPath ∧
      ∃ canon, nearest fs maxLinks cwd (candidatePath root argPath) = some canon ∧ root <+: canon := by
  rw [containPath, hroot] at h
  dsimp only at h
  split at h
  · next canon hcanon =>
    split at h <;> cases h
    next hin => exact .inl ⟨canon, hcanon, hin, rfl⟩
  · next e hcanon =>
    split at h
    · cases h
    · next hup =>
      split at h
      · cases h
      · next canon hnear =>
        split at h <;> cases h
        next hin => exact .inr ⟨by simp [hcanon], hup, rfl, canon, hnear, hin⟩

/-! ## A path that is there -/

variable {canon : List String}

theorem look_canonical (h : fs.Real canon) (follow : Bool) :
    look fs maxLinks cwd follow ⟨true, canon⟩ = .ok (.found canon) := by
  rw [look_absolute, walk_canonical h]
  rfl

variable {path : PathText} {left : Nat}

theorem readFile_eq_ok {place : List String} {bytes : List UInt8}
    (h : readFile fs maxLinks cwd path = .ok (place, bytes)) : canonicalize fs maxLinks cwd path = .ok place := by
  rw [readFile] at h
  cases hcanon : canonicalize fs maxLinks cwd path with
  | error e =>
    rw [hcanon] at h
    cases h
  | ok p =>
    rw [hcanon] at h
    dsimp only at h
    split at h
    · cases h
      rfl
    · cases h

theorem createDirAll_there {segments d : List String} (hdir : fs.node d = some .dir)
    (h : walk fs true maxLinks [] segments = .ok (.found d, left)) :
    createDirAll maxLinks cwd fs ⟨true, segments⟩ = ⟨fs, [], .ok ()⟩ := by
  obtain ⟨q, left', hfound⟩ := walk_nofollow h
  have hmkdir : mkdir fs maxLinks cwd ⟨true, segments⟩ = .error .alreadyExists := by
    rw [mkdir, look_absolute, hfound]
    rfl
  have hisDir : isDir fs maxLinks cwd ⟨true, segments⟩ = true := by
    rw [isDir, canonicalize_eq_ok.mpr ⟨left, h⟩]
    exact decide_eq_true hdir
  have hwith : ∀ above, createDirWith maxLinks cwd above fs ⟨true, segments⟩ = ⟨fs, [], .ok ()⟩ := by
    intro above
    rw [createDirWith, hmkdir]
    dsimp only
    rw [if_pos hisDir]
  rw [createDirAll]
  cases segments.length <;> exact hwith _

theorem parent_of_canonical (h : fs.Real canon) : (⟨true, canon⟩ : PathText).parent = none ∨
      ∃ d, fs.node d = some .dir ∧ (⟨true, canon⟩ : PathText).parent = some ⟨true, trimRight d⟩ := by
  rcases eq_nil_or_concat canon with rfl | ⟨d, name, hcanon⟩
  · exact .inl rfl
  rw [concat_eq_append] at hcanon
  subst hcanon
  have hne : fs.node (d ++ [name]) ≠ none := by
    obtain ⟨node, hnode, -⟩ := h
    rw [hnode]
    exact Option.some_ne_none _
  have htrim : trimRight (d ++ [name]) = d ++ [name] :=
    rdropWhile_concat_neg _ _ _ (by simpa using (fs.proper d name hne).1)
  rcases last_piece_trimmed htrim with hnil | ⟨before, name', hlast, -, hparent⟩
  · simp at hnil
  · obtain ⟨rfl, -⟩ := append_inj' hlast rfl
    exact .inr ⟨d, fs.parent d name hne, hparent⟩

/-- Whatever was touched lies under the root. -/
def Inside (root : List String) (effect : Effect) : Prop := ∀ t ∈ effect.touched, root <+: t.place

theorem inside_nothing (root : List String) (fs : Fs) (result : Except Errno Unit) : Inside root ⟨fs, [], result⟩ :=
  fun _ h => nomatch h

theorem inside_one {t : Touch} {result : Except Errno Unit} (h : root <+: t.place) : Inside root ⟨fs, [t], result⟩ :=
  forall_mem_singleton.mpr h

theorem inside_writeFile (contents : List UInt8)
    (hfound : ∀ p, look fs maxLinks cwd true path = .ok (.found p) → root <+: p)
    (hmissing : ∀ gap, look fs maxLinks cwd true path = .ok (.missing gap false) → root <+: gap.place) :
    Inside root (writeFile fs maxLinks cwd path contents) := by
  rw [writeFile]
  split
  · exact inside_nothing _ _ _
  · next gap hlook => exact inside_one (hmissing gap hlook)
  · exact inside_nothing _ _ _
  · next p hlook =>
    split
    · exact inside_one (hfound p hlook)
    · exact inside_nothing _ _ _

theorem inside_of_canonical (hreal : fs.Real canon) (hin : root <+: canon) (tool : Tool) :
    Inside root (tool.run fs maxLinks cwd ⟨true, canon⟩) := by
  have hread : ∀ {place bytes}, readFile fs maxLinks cwd ⟨true, canon⟩ = .ok (place, bytes) → place = canon := by
    intro place bytes hread
    have hcanon := readFile_eq_ok hread
    rw [canonicalize, look_canonical hreal] at hcanon
    exact (Except.ok.inj hcanon).symm
  have hwrite : ∀ contents, Inside root (writeFile fs maxLinks cwd ⟨true, canon⟩ contents) := by
    intro contents
    have hlook := @look_canonical fs maxLinks cwd canon hreal true
    refine inside_writeFile contents ?_ ?_ <;> rw [hlook]
    · rintro p ⟨⟩
      exact hin
    · rintro _ ⟨⟩
  cases tool with
  | read =>
    rw [Tool.run]
    split
    · exact inside_nothing _ _ _
    · next place bytes hok => exact inside_one (hread hok ▸ hin)
  | write contents =>
    rw [Tool.run]
    rcases parent_of_canonical hreal with hparent | ⟨d, hdir, hparent⟩
    · rw [hparent]
      exact hwrite contents
    have hmade : createDirAll maxLinks cwd fs ⟨true, trimRight d⟩ = ⟨fs, [], .ok ()⟩ :=
      createDirAll_there hdir (walk_trimRight (walk_canonical (.of_dir hdir)))
    rw [hparent]
    dsimp only
    rw [hmade]
    exact hwrite contents
  | strReplace edit =>
    rw [Tool.run]
    split
    · exact inside_nothing _ _ _
    · next place bytes hok =>
      split
      · exact inside_one (hread hok ▸ hin)
      · next contents _ =>
        exact forall_mem_cons.mpr ⟨hread hok ▸ hin, hwrite contents⟩
  | delete =>
    rw [Tool.run, removeFile, look_canonical hreal]
    dsimp only
    split
    · exact inside_nothing _ _ _
    · exact inside_one hin

/-! ## A path that is not there -/

section

variable {segments before tail c : List String} {name : String}

theorem missing_place {gap : fs.Gap} (hsegments : segments = before ++ [name] ++ tail) (hname : Proper name)
    (htail : ∀ s ∈ tail, Stays s) (hlook : look fs maxLinks cwd true ⟨true, segments⟩ = .ok (.missing gap false)) :
    ∃ d left, walk fs true maxLinks [] before = .ok (.found d, left) ∧ fs.node d = some .dir ∧
      (gap.place = d ++ [name] ∨ ∃ target, look fs maxLinks cwd false ⟨true, segments⟩ = .ok (.found (d ++ [name])) ∧
        fs.node (d ++ [name]) = some (.link target)) := by
  rw [look_absolute] at hlook
  obtain ⟨⟨place, left⟩, hwalk, hplace⟩ := Machine.map_eq_ok.mp hlook
  subst hplace hsegments
  obtain rfl := tail_of_missing htail hwalk
  rw [append_nil] at hwalk ⊢
  cases lastName fs maxLinks before hname with
  | broken e hall | there d left' hall =>
    rw [hall] at hwalk
    cases hwalk
  | free gap' left' hbefore heq hall =>
    rw [hall] at hwalk
    cases hwalk
    exact ⟨gap.dir, left, hbefore, gap.isDir, .inl (by rw [Fs.Gap.place, heq])⟩
  | link d left' target hbefore hdir hlink hfound =>
    refine ⟨d, left', hbefore, hdir, .inr ⟨target, ?_, hlink⟩⟩
    rw [look_absolute, hfound]
    rfl

theorem entry_place (hsegments : segments = before ++ [name] ++ tail) (hname : Proper name)
    (htail : ∀ s ∈ tail, Stays s) (habsent : ∀ p, canonicalize fs maxLinks cwd ⟨true, segments⟩ ≠ .ok p) {q : List String}
    (hlook : look fs maxLinks cwd false ⟨true, segments⟩ = .ok (.found q)) :
    ∃ d left, walk fs true maxLinks [] before = .ok (.found d, left) ∧ q = d ++ [name] := by
  rw [look_absolute] at hlook
  obtain ⟨⟨place, left⟩, hwalk, hplace⟩ := Machine.map_eq_ok.mp hlook
  subst hplace
  have hnil : tail = [] := by
    by_contra hne
    rw [hsegments] at hwalk
    exact habsent q (canonicalize_eq_ok.mpr ⟨left, hsegments ▸ walk_tail_follow htail hne hwalk⟩)
  subst hnil
  rw [append_nil] at hsegments
  subst hsegments
  cases lastName fs maxLinks before hname with
  | broken e hall =>
    rw [hall] at hwalk
    cases hwalk
  | there d left' hall => exact absurd (canonicalize_eq_ok.mpr ⟨left', hall true⟩) (habsent _)
  | free gap left' hbefore heq hall =>
    rw [hall] at hwalk
    cases hwalk
  | link d left' target hbefore hdir hlink hfound =>
    rw [hfound] at hwalk
    cases hwalk
    exact ⟨d, left, hbefore, rfl⟩

theorem look_new {fs' : Fs} {p : List String} (cwd tail : List String) (hname : Proper name)
    (hbefore : walk fs' true maxLinks [] before = .ok (.found p, left)) (hdir : fs'.node p = some .dir)
    (hempty : fs'.node (p ++ [name]) = none) :
    (∀ q, look fs' maxLinks cwd true ⟨true, before ++ [name] ++ tail⟩ ≠ .ok (.found q)) ∧
      ∀ gap, look fs' maxLinks cwd true ⟨true, before ++ [name] ++ tail⟩ = .ok (.missing gap false) →
        gap.place = p ++ [name] := by
  let here : fs'.Gap := ⟨p, name, hdir, hempty, hname⟩
  have hlook : look fs' maxLinks cwd true ⟨true, before ++ [name] ++ tail⟩ =
      if tail.all (· = "") then .ok (.missing here (!tail.isEmpty)) else .error .noEntry := by
    rw [look_absolute, append_assoc, walk_append fs' true maxLinks [] before (by simp), hbefore]
    dsimp only
    rw [singleton_append, walk_absent here]
    split <;> rfl
  rw [hlook]
  split
  · refine ⟨nofun, ?_⟩
    intro gap heq
    injection heq with heq
    injection heq with heq
    rw [← heq]
    rfl
  · exact ⟨nofun, nofun⟩

theorem inside_of_missing (habsent : ∀ p, canonicalize fs maxLinks cwd ⟨true, segments⟩ ≠ .ok p)
    (hup : ".." ∉ segments) (hnear : nearest fs maxLinks cwd ⟨true, segments⟩ = some c) (hin : root <+: c) {tool : Tool}
    (hlinks : ∀ contents, tool = .write contents → NoLinkOut fs maxLinks cwd root ⟨true, segments⟩) :
    Inside root (tool.run fs maxLinks cwd ⟨true, segments⟩) := by
  have hunread : ∀ {place bytes}, readFile fs maxLinks cwd ⟨true, segments⟩ ≠ .ok (place, bytes) :=
    fun hread => habsent _ (readFile_eq_ok hread)
  rcases last_piece segments with ⟨hstays, -⟩ | ⟨before, name, tail, hsegments, hname, htail, hparent⟩
  · exact absurd (canonicalize_eq_ok.mpr ⟨maxLinks, walk_tail fs.root hstays⟩) (habsent [])
  have hproper : Proper name := ⟨hname, fun heq => hup (by simp [hsegments, heq])⟩
  have hdir : ∀ {d left}, walk fs true maxLinks [] before = .ok (.found d, left) → root <+: d ++ [name] := by
    intro d left hbefore
    rw [← nearest_dir hbefore habsent hparent hnear]
    exact hin.trans (prefix_append _ _)
  cases tool with
  | read | strReplace edit =>
    rw [Tool.run]
    split
    · exact inside_nothing _ _ _
    · next place bytes hok => exact absurd hok hunread
  | delete =>
    rw [Tool.run, removeFile]
    split
    · exact inside_nothing _ _ _
    · exact inside_nothing _ _ _
    · next q hlook =>
      split
      · exact inside_nothing _ _ _
      · obtain ⟨d, left, hbefore, rfl⟩ := entry_place hsegments hproper htail habsent hlook
        exact inside_one (hdir hbefore)
  | write contents =>
    obtain ⟨fuel, hnear'⟩ := nearestLevels_parent habsent hparent hnear
    have hclosed : Closed (root <+: ·) := fun d name h => h.trans (prefix_append _ _)
    have hbelow : Below (root <+: ·) maxLinks fs (trimRight before) (createDirAll maxLinks cwd fs ⟨true, trimRight before⟩) :=
      createDirLevels_below hclosed hin _ (trimRight before) fuel (trimRight_trimRight before)
        (fun hmem => hup (by rw [hsegments]; simp [mem_of_mem_trimRight hmem])) hnear'
    rw [Tool.run, hparent]
    dsimp only
    split
    · exact hbelow.touched
    · next hok =>
      have hwritten : Inside root (writeFile (createDirAll maxLinks cwd fs ⟨true, trimRight before⟩).fs maxLinks cwd
          ⟨true, segments⟩ contents) := by
        rcases hbelow.made hok with heq | ⟨p, left, hwalk, hp, hpdir, hnew, hempty⟩
        · rw [heq]
          refine inside_writeFile contents ?_ ?_
          · intro p hlook
            exact absurd (by rw [canonicalize, hlook]) (habsent p)
          intro gap hlook
          obtain ⟨d, left, hbefore, -, hplace | ⟨target, hentry, hlink⟩⟩ := missing_place hsegments hproper htail hlook
          · rw [hplace]
            exact hdir hbefore
          · exact hlinks contents rfl _ target gap hentry hlink hlook
        · generalize (createDirAll maxLinks cwd fs ⟨true, trimRight before⟩).fs = fs' at hwalk hpdir hempty ⊢
          have hbefore := walk_of_trimRight hpdir hwalk
          obtain ⟨hnone, hfree⟩ := look_new cwd tail hproper hbefore hpdir (hempty name)
          rw [← hsegments] at hnone hfree
          refine inside_writeFile contents (fun q hlook => absurd hlook (hnone q)) ?_
          intro gap hlook
          rw [hfree gap hlook]
          exact hclosed p name hp
      exact forall_mem_append.mpr ⟨hbelow.touched, hwritten⟩

end

end

/-- After the check a tool stays under the root exactly if it does not write to a link that leads to nothing outside. -/
theorem an_accepted_path_stays_in_the_worktree_iff (fs : Fs) (maxLinks : Nat) (cwd : List String)
    (worktreeRoot argPath : String) (tool : Tool) {root : List String} {resolved : PathText}
    (hroot : canonicalize fs maxLinks cwd (.parse worktreeRoot) = .ok root)
    (haccepts : containPath fs maxLinks cwd worktreeRoot argPath = .ok resolved) :
    Inside root (tool.run fs maxLinks cwd resolved) ↔
      ∀ contents, tool = .write contents → NoLinkOut fs maxLinks cwd root (candidatePath root argPath) := by
  have hcandidate := candidatePath_absolute root argPath
  rcases containPath_eq_ok hroot haccepts with ⟨canon, hcanon, hin, rfl⟩ | ⟨habsent, hup, rfl, c, hnear, hin⟩
  · rw [hcandidate] at hcanon ⊢
    obtain ⟨left, hwalk⟩ := canonicalize_eq_ok.mp hcanon
    have hreal := walk_real (.of_dir fs.root) hwalk
    refine ⟨fun _ contents _ place target gap _ _ hlook => ?_, fun _ => inside_of_canonical hreal hin tool⟩
    -- The path is there, so nothing is missing at its end.
    rw [canonicalize, hlook] at hcanon
    cases hcanon
  · rw [hcandidate] at habsent hnear ⊢
    refine ⟨?_, inside_of_missing habsent hup hnear hin⟩
    intro hinside contents heq place target gap hentry hlink hlook
    subst heq
    rcases last_piece (candidatePath root argPath).segments with ⟨hstays, -⟩ |
      ⟨before, name, tail, hsegments, hname, htail, hparent⟩
    · exact absurd (canonicalize_eq_ok.mpr ⟨maxLinks, walk_tail fs.root hstays⟩) (habsent [])
    have hproper : Proper name := ⟨hname, fun heq => hup (by rw [hsegments]; simp [heq])⟩
    obtain ⟨d, left, hbefore, hdir, -⟩ := missing_place hsegments hproper htail hlook
    -- The directory is there, so the file is made at once, where the link leads.
    refine hinside (.created gap.place) ?_
    rw [Tool.run, hparent]
    dsimp only
    rw [createDirAll_there hdir (walk_trimRight hbefore)]
    rw [writeFile, hlook]
    exact mem_singleton_self _

def worktree : Fs :=
  Fs.put ⟨fun place => if place = [] then some .dir else none, rfl, by simp, by simp⟩ ⟨[], "w", rfl, rfl, by decide⟩ .dir

theorem a_new_file_is_made_in_the_worktree :
    containPath worktree 40 [] "/w" "a/b" = .ok ⟨true, ["w", "a", "b"]⟩ ∧
      Inside ["w"] ((Tool.write [1]).run worktree 40 [] ⟨true, ["w", "a", "b"]⟩) := by
  have hroot : canonicalize worktree 40 [] (.parse "/w") = .ok ["w"] := rfl
  have haccepts : containPath worktree 40 [] "/w" "a/b" = .ok ⟨true, ["w", "a", "b"]⟩ := rfl
  refine ⟨haccepts, (an_accepted_path_stays_in_the_worktree_iff worktree 40 [] "/w" "a/b" (.write [1]) hroot haccepts).mpr ?_⟩
  intro contents _ place target gap hentry
  cases hentry

/-- The worktree with a link `/w/l` to `/out`, which is not there. -/
def dangling : Fs := worktree.put ⟨["w"], "l", rfl, rfl, by decide⟩ (.link ⟨true, ["out"]⟩)

/-- Writing to the link is accepted and makes the file outside. -/
theorem a_link_to_nothing_leads_out :
    canonicalize dangling 40 [] (.parse "/w") = .ok ["w"] ∧
      containPath dangling 40 [] "/w" "l" = .ok ⟨true, ["w", "l"]⟩ ∧
      ((Tool.write [1]).run dangling 40 [] ⟨true, ["w", "l"]⟩).touched = [.created ["out"]] ∧
      ¬ Inside ["w"] ((Tool.write [1]).run dangling 40 [] ⟨true, ["w", "l"]⟩) := by
  have htouched : ((Tool.write [1]).run dangling 40 [] ⟨true, ["w", "l"]⟩).touched = [.created ["out"]] := rfl
  refine ⟨rfl, rfl, htouched, ?_⟩
  intro hinside
  have hout := hinside (.created ["out"]) (by rw [htouched]; exact mem_singleton_self _)
  revert hout
  decide

end TddyCoder.ToolCalls
