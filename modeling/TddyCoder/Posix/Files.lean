/-
  TddyCoder.Posix.Files — what a program does with files by their paths, as the system calls and
  a standard library over them do: canonical paths, parents of a path, reading, writing,
  removing, making a directory, and making it with all that is missing above it.

  An operation answers what it touched, place by place, beside the file system it leaves. No
  permission is refused and no disk is full, so an operation touches the most it can.
-/

import TddyCoder.Posix.Walk

namespace TddyCoder.Posix

open List

variable {fs : Fs}

/-! ## Paths -/

variable (segments : List String)

def trimRight : List String := segments.rdropWhile (Stays ·)

/-- `Path::parent` of a path that begins with a slash. -/
def PathText.parent (path : PathText) : Option PathText :=
  match trimRight path.segments with
  | [] => none
  | segments => some ⟨path.absolute, trimRight segments.dropLast⟩

section

variable (fs : Fs) (maxLinks : Nat) (cwd : List String)

def look (follow : Bool) (path : PathText) : Except Errno (Place fs) :=
  if path = ⟨false, [""]⟩ then .error .noEntry
  else (walk fs follow maxLinks (path.start cwd) path.segments).map Prod.fst

def canonicalize (path : PathText) : Except Errno (List String) :=
  match look fs maxLinks cwd true path with
  | .ok (.found place) => .ok place
  | .ok (.missing _ _) => .error .noEntry
  | .error e => .error e

def isDir (path : PathText) : Bool :=
  match canonicalize fs maxLinks cwd path with
  | .ok place => fs.node place = some .dir
  | .error _ => false

/-! ## Files -/

end

inductive Touch
  | read (place : List String)
  | created (place : List String)
  | overwritten (place : List String)
  | removed (place : List String)

def Touch.place : Touch → List String
  | .read place | .created place | .overwritten place | .removed place => place

structure Effect where
  fs : Fs
  touched : List Touch
  result : Except Errno Unit

def Fs.rewrite (fs : Fs) {place : List String} {old : List UInt8} (h : fs.node place = some (.file old))
    (bytes : List UInt8) : Fs where
  node p := if p = place then some (.file bytes) else fs.node p
  root := by
    rw [if_neg, fs.root]
    intro heq
    rw [← heq, fs.root] at h
    cases h
  parent p name hp := by
    have hdir : fs.node p = some .dir := by
      refine fs.parent p name ?_
      by_cases hplace : p ++ [name] = place
      · rw [hplace, h]
        exact Option.some_ne_none _
      · rw [if_neg hplace] at hp
        exact hp
    rw [if_neg, hdir]
    intro heq
    rw [heq, h] at hdir
    cases hdir
  proper p name hp := by
    refine fs.proper p name ?_
    by_cases hplace : p ++ [name] = place
    · rw [hplace, h]
      exact Option.some_ne_none _
    · rw [if_neg hplace] at hp
      exact hp

def Fs.remove (fs : Fs) {place : List String} (h : fs.node place ≠ some .dir) : Fs where
  node p := if p = place then none else fs.node p
  root := by
    rw [if_neg, fs.root]
    intro heq
    exact h (heq ▸ fs.root)
  parent p name hp := by
    have hne : fs.node (p ++ [name]) ≠ none := by
      intro hnone
      rw [hnone, ite_self] at hp
      exact hp rfl
    rw [if_neg, fs.parent p name hne]
    intro heq
    exact h (heq ▸ fs.parent p name hne)
  proper p name hp := by
    refine fs.proper p name ?_
    intro hnone
    rw [hnone, ite_self] at hp
    exact hp rfl

section

variable (fs : Fs) (maxLinks : Nat) (cwd : List String) (path : PathText)

def readFile : Except Errno (List String × List UInt8) :=
  match canonicalize fs maxLinks cwd path with
  | .error e => .error e
  | .ok place =>
    match fs.node place with
    | some (.file bytes) => .ok (place, bytes)
    | _ => .error .isDirectory

def writeFile (bytes : List UInt8) : Effect :=
  match look fs maxLinks cwd true path with
  | .error e => ⟨fs, [], .error e⟩
  | .ok (.missing gap false) => ⟨fs.put gap (.file bytes), [.created gap.place], .ok ()⟩
  | .ok (.missing _ true) => ⟨fs, [], .error .isDirectory⟩
  | .ok (.found place) =>
    match h : fs.node place with
    | some (.file _) => ⟨fs.rewrite h bytes, [.overwritten place], .ok ()⟩
    | _ => ⟨fs, [], .error .isDirectory⟩

def removeFile : Effect :=
  match look fs maxLinks cwd false path with
  | .error e => ⟨fs, [], .error e⟩
  | .ok (.missing _ _) => ⟨fs, [], .error .noEntry⟩
  | .ok (.found place) =>
    if h : fs.node place = some .dir then ⟨fs, [], .error .isDirectory⟩
    else ⟨fs.remove h, [.removed place], .ok ()⟩

/-! ## Directories -/

def mkdir : Except Errno fs.Gap :=
  match look fs maxLinks cwd false path with
  | .error e => .error e
  | .ok (.found _) => .error .alreadyExists
  | .ok (.missing gap _) => .ok gap

end

def createDirWith (maxLinks : Nat) (cwd : List String) (above : Fs → PathText → Effect) (fs : Fs) (path : PathText) : Effect :=
  match mkdir fs maxLinks cwd path with
  | .ok gap => ⟨fs.put gap .dir, [.created gap.place], .ok ()⟩
  | .error .noEntry =>
    match path.parent with
    | none => ⟨fs, [], .error .noEntry⟩
    | some parent =>
      let up := above fs parent
      match up.result with
      | .error e => ⟨up.fs, up.touched, .error e⟩
      | .ok () =>
        match mkdir up.fs maxLinks cwd path with
        | .ok gap => ⟨up.fs.put gap .dir, up.touched ++ [.created gap.place], .ok ()⟩
        | .error e => ⟨up.fs, up.touched, if isDir up.fs maxLinks cwd path then .ok () else .error e⟩
  | .error e => ⟨fs, [], if isDir fs maxLinks cwd path then .ok () else .error e⟩

def createDirLevels (maxLinks : Nat) (cwd : List String) : Nat → Fs → PathText → Effect
  | 0 => createDirWith maxLinks cwd fun fs _ => ⟨fs, [], .error .noEntry⟩
  | fuel + 1 => createDirWith maxLinks cwd (createDirLevels maxLinks cwd fuel)

def createDirAll (maxLinks : Nat) (cwd : List String) (fs : Fs) (path : PathText) : Effect :=
  createDirLevels maxLinks cwd path.segments.length fs path

def nearestWith (fs : Fs) (maxLinks : Nat) (cwd : List String) (above : PathText → Option (List String)) (path : PathText) :
    Option (List String) :=
  match canonicalize fs maxLinks cwd path with
  | .ok place => some place
  | .error _ => path.parent.bind above

def nearestLevels (fs : Fs) (maxLinks : Nat) (cwd : List String) : Nat → PathText → Option (List String)
  | 0 => nearestWith fs maxLinks cwd fun _ => none
  | fuel + 1 => nearestWith fs maxLinks cwd (nearestLevels fs maxLinks cwd fuel)

def nearest (fs : Fs) (maxLinks : Nat) (cwd : List String) (path : PathText) : Option (List String) :=
  nearestLevels fs maxLinks cwd path.segments.length path

/-! ## The last piece that names something -/

theorem trimRight_append : ∃ tail, segments = trimRight segments ++ tail ∧ ∀ s ∈ tail, Stays s := by
  refine ⟨segments.rtakeWhile (Stays ·), rdropWhile_append_rtakeWhile.symm, ?_⟩
  intro s hs
  simpa using mem_rtakeWhile_imp hs

theorem trimRight_trimRight : trimRight (trimRight segments) = trimRight segments :=
  rdropWhile_idempotent _ _

variable {segments : List String}

theorem mem_of_mem_trimRight {s : String} (h : s ∈ trimRight segments) : s ∈ segments :=
  (List.rdropWhile_prefix _ _).subset h

theorem last_piece_trimmed (h : trimRight segments = segments) :
    segments = [] ∨ ∃ before name, segments = before ++ [name] ∧ ¬ Stays name ∧
      (⟨true, segments⟩ : PathText).parent = some ⟨true, trimRight before⟩ := by
  rcases eq_nil_or_concat segments with hnil | ⟨before, name, hlast⟩
  · exact .inl hnil
  right
  rw [concat_eq_append] at hlast
  refine ⟨before, name, hlast, ?_, ?_⟩
  · have hnot := (rdropWhile_eq_self_iff.mp h) (by rw [hlast]; simp)
    simpa [hlast] using hnot
  rw [PathText.parent, h, hlast]
  split
  · next h => simp at h
  · next h => rw [dropLast_concat]

theorem last_piece (segments : List String) : (∀ s ∈ segments, Stays s) ∧ (⟨true, segments⟩ : PathText).parent = none ∨
    ∃ before name tail, segments = before ++ [name] ++ tail ∧ ¬ Stays name ∧ (∀ s ∈ tail, Stays s) ∧
      (⟨true, segments⟩ : PathText).parent = some ⟨true, trimRight before⟩ := by
  obtain ⟨tail, hsegments, htail⟩ := trimRight_append segments
  have hsame : (⟨true, segments⟩ : PathText).parent = (⟨true, trimRight segments⟩ : PathText).parent := by
    simp only [PathText.parent, trimRight_trimRight]
  rcases last_piece_trimmed (trimRight_trimRight segments) with hnil | ⟨before, name, hlast, hname, hparent⟩
  · left
    refine ⟨?_, by rw [PathText.parent, hnil]⟩
    rw [hnil, nil_append] at hsegments
    rw [hsegments]
    exact htail
  · exact .inr ⟨before, name, tail, by rw [← hlast]; exact hsegments, hname, htail, hsame.trans hparent⟩

variable {path parent : PathText} {cwd : List String}

section

variable {maxLinks : Nat} {cwd : List String} {follow : Bool} {left left' : Nat}

variable {tail d : List String}

theorem walk_tail (hd : fs.node d = some .dir) (htail : ∀ s ∈ tail, Stays s) :
    walk fs follow left d tail = .ok (.found d, left) := by
  induction tail with
  | nil => exact walk_nil
  | cons s tail ih =>
    obtain ⟨hs, hrest⟩ := forall_mem_cons.mp htail
    rw [walk_stays hd hs, ih hrest]

variable {p : List String}

theorem walk_trimRight (h : walk fs true left [] segments = .ok (.found p, left')) :
    walk fs true left [] (trimRight segments) = .ok (.found p, left') := by
  obtain ⟨tail, hsegments, htail⟩ := trimRight_append segments
  by_cases hnil : tail = []
  · rw [hnil, append_nil] at hsegments
    rw [← hsegments]
    exact h
  rw [hsegments, walk_append fs true left [] _ hnil] at h
  cases hwalk : walk fs true left [] (trimRight segments) with
  | error e =>
    rw [hwalk] at h
    cases h
  | ok found =>
    rw [hwalk] at h
    obtain ⟨place, left''⟩ := found
    cases place with
    | missing gap slash =>
      dsimp only at h
      split at h <;> cases h
    | found d =>
      dsimp only at h
      by_cases hd : fs.node d = some .dir
      · rw [walk_tail hd htail] at h
        cases h
        rfl
      · obtain ⟨s, tail, rfl⟩ := exists_cons_of_ne_nil hnil
        rw [walk_notDir hd] at h
        cases h

theorem walk_of_trimRight (hdir : fs.node p = some .dir)
    (h : walk fs true left [] (trimRight segments) = .ok (.found p, left')) :
    walk fs true left [] segments = .ok (.found p, left') := by
  obtain ⟨tail, hsegments, htail⟩ := trimRight_append segments
  by_cases hnil : tail = []
  · rw [hnil, append_nil] at hsegments
    rw [hsegments]
    exact h
  · rw [hsegments, walk_append fs true left [] _ hnil, h]
    exact walk_tail hdir htail

/-! ## The last name of a path -/

variable {before xs : List String} {name : String} {gap : fs.Gap}

theorem walk_gap (gap : fs.Gap) (hbefore : walk fs true maxLinks [] before = .ok (.found gap.dir, left))
    (follow : Bool) : walk fs follow maxLinks [] (before ++ [gap.name]) = .ok (.missing gap false, left) := by
  rw [walk_append fs follow maxLinks [] before (cons_ne_nil _ _), hbefore]
  dsimp only
  rw [walk_absent gap]
  rfl

inductive LastName (fs : Fs) (maxLinks : Nat) (before : List String) (name : String) : Prop
  /-- No directory is before the name. -/
  | broken (e : Errno) (h : ∀ follow, walk fs follow maxLinks [] (before ++ [name]) = .error e)
  | free (gap : fs.Gap) (left : Nat) (hbefore : walk fs true maxLinks [] before = .ok (.found gap.dir, left))
      (hname : gap.name = name) (h : ∀ follow, walk fs follow maxLinks [] (before ++ [name]) = .ok (.missing gap false, left))
  | link (d : List String) (left : Nat) (target : PathText) (hbefore : walk fs true maxLinks [] before = .ok (.found d, left))
      (hdir : fs.node d = some .dir) (hlink : fs.node (d ++ [name]) = some (.link target))
      (h : walk fs false maxLinks [] (before ++ [name]) = .ok (.found (d ++ [name]), left))
  | there (d : List String) (left : Nat)
      (h : ∀ follow, walk fs follow maxLinks [] (before ++ [name]) = .ok (.found (d ++ [name]), left))

theorem lastName (fs : Fs) (maxLinks : Nat) (before : List String) (hname : Proper name) :
    LastName fs maxLinks before name := by
  have happend := fun follow => walk_append fs follow maxLinks [] before (cons_ne_nil name [])
  cases hbefore : walk fs true maxLinks [] before with
  | error e =>
    rw [hbefore] at happend
    exact .broken e happend
  | ok found =>
    rw [hbefore] at happend
    obtain ⟨place, left⟩ := found
    cases place with
    | missing gap slash =>
      have hnamed : name ≠ "" := fun heq => hname.1 (.inl heq)
      refine .broken .noEntry fun follow => ?_
      rw [happend]
      exact if_neg (by simp [hnamed])
    | found d =>
      dsimp only at happend
      cases meets fs d name with
      | notDir hdir =>
        refine .broken .notDirectory fun follow => ?_
        rw [happend, walk_notDir hdir]
      | stays hdir hstays => exact absurd hstays hname.1
      | up hdir heq => exact absurd heq hname.2
      | absent gap hdir heq =>
        subst hdir heq
        exact .free gap left hbefore rfl (walk_gap gap hbefore)
      | link target hdir hproper hlink =>
        refine .link d left target hbefore hdir hlink ?_
        rw [happend, walk_link hdir hproper hlink, if_pos ⟨rfl, rfl⟩]
      | into hdir hproper hreal =>
        refine .there d left fun follow => ?_
        rw [happend, walk_into hdir hproper hreal, walk_nil]

theorem walk_nofollow (h : walk fs true maxLinks [] segments = .ok (.found p, left)) :
    ∃ q left', walk fs false maxLinks [] segments = .ok (.found q, left') := by
  rcases eq_nil_or_concat segments with hnil | ⟨before, name, hlast⟩
  · subst hnil
    exact ⟨_, _, walk_nil⟩
  rw [concat_eq_append] at hlast
  subst hlast
  by_cases hproper : Proper name
  · cases lastName fs maxLinks before hproper with
    | broken e hall | free gap left' hbefore hname hall =>
      rw [hall] at h
      cases h
    | link d left' target hbefore hdir hlink hfound => exact ⟨_, _, hfound⟩
    | there d left' hall => exact ⟨_, _, hall false⟩
  -- A piece that names nothing is looked up the same way.
  have hsame : ∀ left' d, walk fs false left' d [name] = walk fs true left' d [name] := by
    intro left' d
    cases meets fs d name with
    | notDir hdir => rw [walk_notDir hdir, walk_notDir hdir]
    | stays hdir hstays => rw [walk_stays hdir hstays, walk_stays hdir hstays, walk_nil, walk_nil]
    | up hdir heq =>
      subst heq
      rw [walk_up hdir, walk_up hdir, walk_nil, walk_nil]
    | absent gap hdir heq => exact absurd (heq ▸ gap.proper) hproper
    | link target hdir hproper' hlink | into hdir hproper' hreal => exact absurd hproper' hproper
  refine ⟨p, left, ?_⟩
  rw [walk_append fs _ maxLinks [] before (cons_ne_nil _ _)] at h ⊢
  simp only [hsame]
  exact h

theorem walk_tail_follow (htail : ∀ s ∈ tail, Stays s) (hne : tail ≠ [])
    (h : walk fs false maxLinks [] (xs ++ tail) = .ok (.found p, left)) :
    walk fs true maxLinks [] (xs ++ tail) = .ok (.found p, left) := by
  have hsame : ∀ left' d, walk fs true left' d tail = walk fs false left' d tail := by
    intro left' d
    by_cases hd : fs.node d = some .dir
    · rw [walk_tail hd htail, walk_tail hd htail]
    · obtain ⟨s, tail, rfl⟩ := exists_cons_of_ne_nil hne
      rw [walk_notDir hd, walk_notDir hd]
  rw [walk_append fs _ maxLinks [] xs hne] at h ⊢
  simp only [hsame]
  exact h

theorem tail_of_missing (htail : ∀ s ∈ tail, Stays s)
    (h : walk fs true maxLinks [] (xs ++ tail) = .ok (.missing gap false, left)) : tail = [] := by
  by_contra hne
  rw [walk_append fs true maxLinks [] xs hne] at h
  split at h
  · next d left' _ =>
    by_cases hd : fs.node d = some .dir
    · rw [walk_tail hd htail] at h
      cases h
    · obtain ⟨s, tail, rfl⟩ := exists_cons_of_ne_nil hne
      rw [walk_notDir hd] at h
      cases h
  · split at h <;> cases h
  · cases h

/-! ## The nearest that is there -/

theorem look_absolute (segments : List String) :
    look fs maxLinks cwd follow ⟨true, segments⟩ = (walk fs follow maxLinks [] segments).map Prod.fst :=
  if_neg (by simp)

theorem canonicalize_eq_ok : canonicalize fs maxLinks cwd ⟨true, segments⟩ = .ok p ↔
    ∃ left, walk fs true maxLinks [] segments = .ok (.found p, left) := by
  rw [canonicalize, look_absolute]
  cases hwalk : walk fs true maxLinks [] segments with
  | error e => exact ⟨fun h => (by cases h), fun ⟨_, h⟩ => (by cases h)⟩
  | ok found =>
    obtain ⟨place, left⟩ := found
    cases place with
    | missing gap slash => exact ⟨fun h => (by cases h), fun ⟨_, h⟩ => (by cases h)⟩
    | found d =>
      constructor
      · intro h
        cases h
        exact ⟨left, rfl⟩
      · intro ⟨_, h⟩
        cases h
        rfl

theorem nearestLevels_found (fuel : Nat) (h : canonicalize fs maxLinks cwd path = .ok p) :
    nearestLevels fs maxLinks cwd fuel path = some p := by
  cases fuel <;> rw [nearestLevels, nearestWith, h]

variable {c : List String} {fuel : Nat}

theorem nearestLevels_parent
    (h : ∀ p, canonicalize fs maxLinks cwd path ≠ .ok p) (hparent : path.parent = some parent)
    (hnear : nearestLevels fs maxLinks cwd fuel path = some c) :
    ∃ fuel', nearestLevels fs maxLinks cwd fuel' parent = some c := by
  cases hcanon : canonicalize fs maxLinks cwd path with
  | ok p => exact absurd hcanon (h p)
  | error e =>
    cases fuel with
    | zero =>
      rw [nearestLevels, nearestWith, hcanon, hparent] at hnear
      cases hnear
    | succ fuel =>
      rw [nearestLevels, nearestWith, hcanon, hparent] at hnear
      exact ⟨fuel, hnear⟩

theorem nearest_dir (hbefore : walk fs true maxLinks [] before = .ok (.found d, left))
    (habsent : ∀ p, canonicalize fs maxLinks cwd ⟨true, segments⟩ ≠ .ok p)
    (hparent : (⟨true, segments⟩ : PathText).parent = some ⟨true, trimRight before⟩)
    (hnear : nearestLevels fs maxLinks cwd fuel ⟨true, segments⟩ = some c) : c = d := by
  obtain ⟨fuel', hup⟩ := nearestLevels_parent habsent hparent hnear
  rw [nearestLevels_found fuel' (canonicalize_eq_ok.mpr ⟨left, walk_trimRight hbefore⟩)] at hup
  exact (Option.some.inj hup).symm

/-! ## Making directories -/

def Closed (Q : List String → Prop) : Prop := ∀ d name, Q d → Q (d ++ [name])

/-- What making a directory touches is in `Q`; and where it succeeds it made nothing, or a new and empty one. -/
structure Below (Q : List String → Prop) (maxLinks : Nat) (fs : Fs) (segments : List String) (made : Effect) : Prop where
  touched : ∀ t ∈ made.touched, Q t.place
  made : made.result = .ok () → made.fs = fs ∨ ∃ p left, walk made.fs true maxLinks [] segments = .ok (.found p, left) ∧
    Q p ∧ made.fs.node p = some .dir ∧ fs.node p = none ∧ ∀ name, made.fs.node (p ++ [name]) = none

variable {Q : List String → Prop} {above : Fs → PathText → Effect}

theorem Below.unchanged (result : Except Errno Unit) : Below Q maxLinks fs segments ⟨fs, [], result⟩ :=
  ⟨fun _ h => (nomatch h), fun _ => .inl rfl⟩

theorem Fs.absent_child (fs : Fs) (h : fs.node p = none) (name : String) : fs.node (p ++ [name]) = none := by
  by_contra hne
  rw [fs.parent p name hne] at h
  cases h

theorem walk_made (hbefore : walk fs true maxLinks [] before = .ok (.found gap.dir, left)) :
    walk (fs.put gap .dir) true maxLinks [] (before ++ [gap.name]) = .ok (.found gap.place, left) := by
  rw [walk_append _ true maxLinks [] before (cons_ne_nil _ _), walk_put gap .dir hbefore]
  dsimp only
  have hne : fs.node gap.dir ≠ none := by
    rw [gap.isDir]
    exact Option.some_ne_none _
  rw [walk_into (by rw [Fs.put_other gap .dir hne, gap.isDir]) gap.proper (.of_dir (Fs.put_self gap .dir)), walk_nil]
  rfl

theorem put_empty (gap : fs.Gap) (name : String) : (fs.put gap .dir).node (gap.place ++ [name]) = none := by
  have hne : gap.place ++ [name] ≠ gap.place := by simp
  exact (if_neg hne).trans (fs.absent_child gap.absent name)

theorem createDirWith_climbs (hQ : Closed Q) (hname : Proper name)
    (hparent : (⟨true, before ++ [name]⟩ : PathText).parent = some ⟨true, trimRight before⟩)
    (hmkdir : mkdir fs maxLinks cwd ⟨true, before ++ [name]⟩ = .error .noEntry)
    (hbelow : Below Q maxLinks fs (trimRight before) (above fs ⟨true, trimRight before⟩)) :
    Below Q maxLinks fs (before ++ [name]) (createDirWith maxLinks cwd above fs ⟨true, before ++ [name]⟩) := by
  rw [createDirWith, hmkdir, hparent]
  dsimp only
  generalize above fs ⟨true, trimRight before⟩ = made at hbelow ⊢
  obtain ⟨fs', touched, result⟩ := made
  cases result with
  | error e => exact ⟨hbelow.touched, nofun⟩
  | ok =>
    rcases hbelow.made rfl with heq | ⟨p, left, hwalk, hp, hdir, hnew, hempty⟩
    · subst heq
      rw [hmkdir]
      exact ⟨hbelow.touched, fun _ => .inl rfl⟩
    -- The directory above is new, so the name in it is free.
    have hbefore := walk_of_trimRight hdir hwalk
    let gap : fs'.Gap := ⟨p, name, hdir, hempty name, hname⟩
    have hgap : mkdir fs' maxLinks cwd ⟨true, before ++ [name]⟩ = .ok gap := by
      rw [mkdir, look_absolute, walk_gap gap hbefore]
      rfl
    rw [hgap]
    refine ⟨?_, fun _ => .inr ⟨gap.place, left, walk_made hbefore, hQ p name hp, Fs.put_self gap .dir,
      fs.absent_child hnew name, put_empty gap⟩⟩
    exact forall_mem_append.mpr ⟨hbelow.touched, forall_mem_singleton.mpr (hQ p name hp)⟩

theorem createDirWith_below (hQ : Closed Q)
    (habove : ∀ before fuel', trimRight before = before → ".." ∉ before →
      nearestLevels fs maxLinks cwd fuel' ⟨true, before⟩ = some c → Below Q maxLinks fs before (above fs ⟨true, before⟩))
    (htrim : trimRight segments = segments) (hup : ".." ∉ segments)
    (hnear : nearestLevels fs maxLinks cwd fuel ⟨true, segments⟩ = some c) (hc : Q c) :
    Below Q maxLinks fs segments (createDirWith maxLinks cwd above fs ⟨true, segments⟩) := by
  have hthere : ∀ {place left}, walk fs false maxLinks [] segments = .ok (.found place, left) →
      Below Q maxLinks fs segments (createDirWith maxLinks cwd above fs ⟨true, segments⟩) := by
    intro place left hfound
    have hmkdir : mkdir fs maxLinks cwd ⟨true, segments⟩ = .error .alreadyExists := by
      rw [mkdir, look_absolute, hfound]
      rfl
    rw [createDirWith, hmkdir]
    exact Below.unchanged _
  rcases last_piece_trimmed htrim with rfl | ⟨before, name, rfl, hname, hparent⟩
  · exact hthere walk_nil
  have hproper : Proper name := ⟨hname, fun heq => hup (by simp [heq])⟩
  cases lastName fs maxLinks before hproper with
  | there d left hall => exact hthere (hall false)
  | link d left target hbefore hdir hlink hfound => exact hthere hfound
  | broken e hall =>
    have hmkdir : mkdir fs maxLinks cwd ⟨true, before ++ [name]⟩ = .error e := by
      rw [mkdir, look_absolute, hall]
      rfl
    have habsent : ∀ p, canonicalize fs maxLinks cwd ⟨true, before ++ [name]⟩ ≠ .ok p := by
      intro p hp
      obtain ⟨left, hwalk⟩ := canonicalize_eq_ok.mp hp
      rw [hall] at hwalk
      cases hwalk
    by_cases he : e = .noEntry
    · subst he
      obtain ⟨fuel', hnear'⟩ := nearestLevels_parent habsent hparent hnear
      exact createDirWith_climbs hQ hproper hparent hmkdir (habove (trimRight before) fuel' (trimRight_trimRight before)
        (fun hmem => hup (mem_append_left _ (mem_of_mem_trimRight hmem))) hnear')
    rw [createDirWith, hmkdir]
    cases e with
    | noEntry => exact absurd rfl he
    | _ => exact Below.unchanged _
  | free gap left hbefore heq hall =>
    subst heq
    have hmkdir : mkdir fs maxLinks cwd ⟨true, before ++ [gap.name]⟩ = .ok gap := by
      rw [mkdir, look_absolute, hall]
      rfl
    have hcd : c = gap.dir := by
      refine nearest_dir hbefore ?_ hparent hnear
      intro p hp
      obtain ⟨left', hwalk⟩ := canonicalize_eq_ok.mp hp
      rw [hall] at hwalk
      cases hwalk
    have hplace : Q gap.place := hQ _ _ (hcd ▸ hc)
    rw [createDirWith, hmkdir]
    refine ⟨?_, fun _ => .inr ⟨gap.place, left, walk_made hbefore, hplace, Fs.put_self gap .dir, gap.absent, put_empty gap⟩⟩
    intro t ht
    rw [mem_singleton.mp ht]
    exact hplace

theorem createDirLevels_below (hQ : Closed Q) (hc : Q c) (levels : Nat)
    (segments : List String) (fuel : Nat) (htrim : trimRight segments = segments) (hup : ".." ∉ segments)
    (hnear : nearestLevels fs maxLinks cwd fuel ⟨true, segments⟩ = some c) :
    Below Q maxLinks fs segments (createDirLevels maxLinks cwd levels fs ⟨true, segments⟩) := by
  induction levels generalizing segments fuel with
  | zero => exact createDirWith_below hQ (fun _ _ _ _ _ => Below.unchanged _) htrim hup hnear hc
  | succ levels ih => exact createDirWith_below hQ (fun before fuel' h h' h'' => ih before fuel' h h' h'') htrim hup hnear hc

end

/-! ## Levels enough -/

theorem parent_shorter (h : path.parent = some parent) :
    parent.segments.length < path.segments.length := by
  rw [PathText.parent] at h
  cases hsegments : trimRight path.segments with
  | nil =>
    rw [hsegments] at h
    cases h
  | cons s rest =>
    rw [hsegments] at h
    cases h
    have hbefore := (List.rdropWhile_prefix (Stays ·) ((s :: rest).dropLast)).length_le
    have hpath := (List.rdropWhile_prefix (Stays ·) path.segments).length_le
    have heq := congrArg List.length hsegments
    rw [trimRight, length_cons] at heq
    rw [length_dropLast, length_cons] at hbefore
    dsimp only [trimRight]
    omega

theorem createDirLevels_enough {levels : Nat}
    (h : path.segments.length ≤ levels) (fs : Fs) :
    createDirLevels maxLinks cwd (levels + 1) fs path = createDirLevels maxLinks cwd levels fs path := by
  induction levels generalizing path fs with
  | zero =>
    have hnil : path.parent = none := by
      cases hparent : path.parent with
      | none => rfl
      | some parent =>
        have := parent_shorter hparent
        omega
    simp only [createDirLevels, createDirWith, hnil]
  | succ levels ih =>
    show createDirWith maxLinks cwd (createDirLevels maxLinks cwd (levels + 1)) fs path =
      createDirWith maxLinks cwd (createDirLevels maxLinks cwd levels) fs path
    rw [createDirWith, createDirWith]
    cases hparent : path.parent with
    | none => rfl
    | some parent =>
      have hshorter := parent_shorter hparent
      dsimp only
      rw [ih (by omega)]

theorem nearest_isSome (segments : List String) :
    (nearest fs maxLinks cwd ⟨true, segments⟩).isSome := by
  have hall : ∀ fuel (segments : List String), segments.length ≤ fuel →
      (nearestLevels fs maxLinks cwd fuel ⟨true, segments⟩).isSome := by
    intro fuel
    induction fuel with
    | zero =>
      intro segments hlen
      rw [length_eq_zero_iff.mp (Nat.le_zero.mp hlen), nearestLevels_found 0 (canonicalize_eq_ok.mpr ⟨maxLinks, walk_nil⟩)]
      rfl
    | succ fuel ih =>
      intro segments hlen
      rw [nearestLevels, nearestWith]
      cases hcanon : canonicalize fs maxLinks cwd ⟨true, segments⟩ with
      | ok p => rfl
      | error e =>
        rcases last_piece segments with ⟨hstays, -⟩ | ⟨before, name, tail, hsegments, -, -, hparent⟩
        · -- A path that names nothing is the root.
          have hroot : walk fs true maxLinks [] segments = .ok (.found [], maxLinks) := walk_tail fs.root hstays
          rw [canonicalize_eq_ok.mpr ⟨_, hroot⟩] at hcanon
          cases hcanon
        · have hshorter := parent_shorter hparent
          rw [hparent]
          exact ih (trimRight before) (by dsimp only at hshorter; omega)
  exact hall _ segments (Nat.le_refl _)

end TddyCoder.Posix
