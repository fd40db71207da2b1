/-
  TddyCoder.Posix.Walk — a file system with symbolic links, and how a path is looked up in it.

  Places are named by the names from the root down, and a node is a directory, a file or a
  link, which holds a path as text. A path is looked up piece by piece: a link is followed by
  going on with its target and then with the rest, and a budget of links bounds the whole. The
  outcome is a place that is there or a gap, which is a free name in a directory that is there.
-/

import Mathlib.Data.List.DropRight
import TddyCoder.Text.Str

namespace TddyCoder.Posix

open List

/-! ## Paths and nodes -/

/-- A path as it is written: whether it begins with a slash, and what stands between slashes after that. -/
structure PathText where
  absolute : Bool
  segments : List String
  deriving DecidableEq

def PathText.parse (s : String) : PathText :=
  match Text.split '/' s with
  | "" :: segment :: segments => ⟨true, segment :: segments⟩
  | segments => ⟨false, segments⟩

def PathText.display (path : PathText) : String :=
  (if path.absolute then "/" else "") ++ "/".intercalate path.segments

inductive Node
  | dir
  | file (bytes : List UInt8)
  | link (target : PathText)
  deriving DecidableEq

variable (segment : String)

def Stays : Prop := segment = "" ∨ segment = "."

instance : Decidable (Stays segment) := inferInstanceAs (Decidable (_ ∨ _))

def Proper : Prop := ¬ Stays segment ∧ segment ≠ ".."

instance : Decidable (Proper segment) := inferInstanceAs (Decidable (_ ∧ _))

structure Fs where
  node : List String → Option Node
  root : node [] = some .dir
  parent : ∀ place name, node (place ++ [name]) ≠ none → node place = some .dir
  proper : ∀ place name, node (place ++ [name]) ≠ none → Proper name

structure Fs.Gap (fs : Fs) where
  dir : List String
  name : String
  isDir : fs.node dir = some .dir
  absent : fs.node (dir ++ [name]) = none
  proper : Proper name

variable {fs : Fs} (gap : fs.Gap)

def Fs.Gap.place (gap : fs.Gap) : List String := gap.dir ++ [gap.name]

def Fs.Real (fs : Fs) (place : List String) : Prop := ∃ node, fs.node place = some node ∧ ∀ target, node ≠ .link target

inductive Errno
  | noEntry
  | notDirectory
  | isDirectory
  | alreadyExists
  | tooManyLinks
  deriving DecidableEq

/-! ## Looking up -/

inductive Place (fs : Fs)
  | found (place : List String)
  /-- The last name is free; `slash` if the path goes on with slashes after it. -/
  | missing (gap : fs.Gap) (slash : Bool)

def PathText.start (path : PathText) (cur : List String) : List String := if path.absolute then [] else cur

/-- One stretch of a lookup, up to the next link to follow. -/
def walkFrom (fs : Fs) (follow : Bool) (left : Nat)
    (jump : List String → List String → Except Errno (Place fs × Nat)) :
    List String → List String → Except Errno (Place fs × Nat)
  | cur, [] => .ok (.found cur, left)
  | cur, segment :: rest =>
    if hdir : fs.node cur = some .dir then
      if hstays : Stays segment then walkFrom fs follow left jump cur rest
      else if hup : segment = ".." then walkFrom fs follow left jump cur.dropLast rest
      else
        match habsent : fs.node (cur ++ [segment]) with
        | none =>
          if rest.all (· = "") then
            .ok (.missing ⟨cur, segment, hdir, habsent, hstays, hup⟩ (!rest.isEmpty), left)
          else .error .noEntry
        | some (.link target) =>
          if rest = [] ∧ follow = false then .ok (.found (cur ++ [segment]), left)
          else jump (target.start cur) (target.segments ++ rest)
        | some _ => walkFrom fs follow left jump (cur ++ [segment]) rest
    else .error .notDirectory

/-- The lookup of a path from a place with a budget of links, and what is left of the budget. -/
def walk (fs : Fs) (follow : Bool) : Nat → List String → List String → Except Errno (Place fs × Nat)
  | 0 => walkFrom fs follow 0 fun _ _ => .error .tooManyLinks
  | left + 1 => walkFrom fs follow (left + 1) (walk fs follow left)

/-! ## One piece -/

section

variable {follow : Bool} {left : Nat} {cur rest : List String} {segment : String}

@[simp] theorem walk_nil : walk fs follow left cur [] = .ok (.found cur, left) := by
  cases left <;> rfl

theorem walk_notDir (h : fs.node cur ≠ some .dir) : walk fs follow left cur (segment :: rest) = .error .notDirectory := by
  cases left <;> exact dif_neg h

theorem walk_stays (h : fs.node cur = some .dir) (hstays : Stays segment) :
    walk fs follow left cur (segment :: rest) = walk fs follow left cur rest := by
  cases left <;> rw [walk, walkFrom, dif_pos h, dif_pos hstays]

theorem walk_up (h : fs.node cur = some .dir) :
    walk fs follow left cur (".." :: rest) = walk fs follow left cur.dropLast rest := by
  cases left <;> rw [walk, walkFrom, dif_pos h, dif_neg (by decide), dif_pos rfl]

theorem walk_absent : walk fs follow left gap.dir (gap.name :: rest) =
    if rest.all (· = "") then .ok (.missing gap (!rest.isEmpty), left) else .error .noEntry := by
  cases left <;>
  · rw [walk, walkFrom, dif_pos gap.isDir, dif_neg gap.proper.1, dif_neg gap.proper.2]
    split
    · rfl
    · next h => exact absurd (gap.absent.symm.trans h) (by simp)
    · next h => exact absurd (gap.absent.symm.trans h) (by simp)

theorem walk_into (h : fs.node cur = some .dir) (hproper : Proper segment) (hreal : fs.Real (cur ++ [segment])) :
    walk fs follow left cur (segment :: rest) = walk fs follow left (cur ++ [segment]) rest := by
  obtain ⟨node, hnode, hlink⟩ := hreal
  cases left <;>
  · rw [walk, walkFrom, dif_pos h, dif_neg hproper.1, dif_neg hproper.2]
    split
    · next hnone => exact absurd (hnode.symm.trans hnone) (by simp)
    · next target htarget => exact absurd (Option.some.inj (hnode.symm.trans htarget)) (hlink target)
    · rfl

theorem walk_link {target : PathText} (h : fs.node cur = some .dir) (hproper : Proper segment)
    (hlink : fs.node (cur ++ [segment]) = some (.link target)) :
    walk fs follow left cur (segment :: rest) =
      if rest = [] ∧ follow = false then .ok (.found (cur ++ [segment]), left)
      else match left with
        | 0 => .error .tooManyLinks
        | left + 1 => walk fs follow left (target.start cur) (target.segments ++ rest) := by
  cases left <;>
  · rw [walk, walkFrom, dif_pos h, dif_neg hproper.1, dif_neg hproper.2]
    split
    · next hnone => exact absurd (hlink.symm.trans hnone) (by simp)
    · next target' htarget =>
      cases Option.some.inj (hlink.symm.trans htarget)
      rfl
    · next node hne hnode => exact (hne target (Option.some.inj (hnode.symm.trans hlink))).elim

inductive Meets (fs : Fs) (cur : List String) (segment : String) : Prop
  | notDir (h : fs.node cur ≠ some .dir)
  | stays (h : fs.node cur = some .dir) (hstays : Stays segment)
  | up (h : fs.node cur = some .dir) (hup : segment = "..")
  | absent (gap : fs.Gap) (hdir : gap.dir = cur) (hname : gap.name = segment)
  | link (target : PathText) (h : fs.node cur = some .dir) (hproper : Proper segment)
      (hlink : fs.node (cur ++ [segment]) = some (.link target))
  | into (h : fs.node cur = some .dir) (hproper : Proper segment) (hreal : fs.Real (cur ++ [segment]))

theorem meets (fs : Fs) (cur : List String) (segment : String) : Meets fs cur segment := by
  by_cases hdir : fs.node cur = some .dir
  · by_cases hstays : Stays segment
    · exact .stays hdir hstays
    by_cases hup : segment = ".."
    · exact .up hdir hup
    cases hnode : fs.node (cur ++ [segment]) with
    | none => exact .absent ⟨cur, segment, hdir, hnode, hstays, hup⟩ rfl rfl
    | some node =>
      cases node with
      | dir | file bytes => exact .into hdir ⟨hstays, hup⟩ ⟨_, hnode, nofun⟩
      | link target => exact .link target hdir ⟨hstays, hup⟩ hnode
  · exact .notDir hdir

end

/-! ## A path in two parts -/

/-- A path is looked up in two parts: the first, with its links followed, and then the second from there. -/
theorem walk_append (fs : Fs) (follow : Bool) (left : Nat) (cur xs : List String) {ys : List String} (hys : ys ≠ []) :
    walk fs follow left cur (xs ++ ys) =
      match walk fs true left cur xs with
      | .ok (.found place, left) => walk fs follow left place ys
      | .ok (.missing gap _, left) => if ys.all (· = "") then .ok (.missing gap true, left) else .error .noEntry
      | .error e => .error e := by
  -- On the budget, for the target of a link, and within it on the pieces.
  induction left using Nat.strongRecOn generalizing cur xs with
  | ind left ih =>
    induction xs generalizing cur with
    | nil => rw [nil_append, walk_nil]
    | cons segment xs ihxs =>
      rw [cons_append]
      cases meets fs cur segment with
      | notDir h => rw [walk_notDir h, walk_notDir h]
      | stays h hstays => rw [walk_stays h hstays, walk_stays h hstays, ihxs]
      | up h hup =>
        subst hup
        rw [walk_up h, walk_up h, ihxs]
      | absent gap hdir hname =>
        subst hdir hname
        rw [walk_absent, walk_absent, all_append]
        by_cases hxs : xs.all (· = "") = true
        · have hslash : (xs ++ ys).isEmpty = false := by simp [hys]
          rw [hxs, Bool.true_and, if_pos rfl, hslash]
          rfl
        · rw [Bool.not_eq_true] at hxs
          rw [hxs, Bool.false_and]
          rfl
      | link target h hproper hlink =>
        rw [walk_link h hproper hlink, walk_link h hproper hlink, if_neg (by simp [hys]), if_neg (by simp)]
        cases left with
        | zero => rfl
        | succ left =>
          dsimp only
          rw [← append_assoc, ih left (Nat.lt_succ_self left)]
      | into h hproper hreal => rw [walk_into h hproper hreal, walk_into h hproper hreal, ihxs]

/-! ## What is found -/

variable {place : List String} {left : Nat} {follow : Bool}

theorem Fs.Real.of_dir (h : fs.node place = some .dir) : fs.Real place := ⟨.dir, h, nofun⟩

theorem Fs.up_dir (fs : Fs) (h : fs.node place = some .dir) : fs.node place.dropLast = some .dir := by
  by_cases hne : place = []
  · subst hne
    exact h
  · refine fs.parent place.dropLast (place.getLast hne) ?_
    rw [dropLast_append_getLast, h]
    exact Option.some_ne_none _

theorem walk_real {left' : Nat} {cur xs : List String} (hcur : fs.Real cur)
    (h : walk fs true left cur xs = .ok (.found place, left')) : fs.Real place := by
  induction left using Nat.strongRecOn generalizing cur xs with
  | ind left ih =>
    induction xs generalizing cur with
    | nil =>
      rw [walk_nil] at h
      cases h
      exact hcur
    | cons segment xs ihxs =>
      cases meets fs cur segment with
      | notDir hdir =>
        rw [walk_notDir hdir] at h
        cases h
      | stays hdir hstays =>
        rw [walk_stays hdir hstays] at h
        exact ihxs hcur h
      | up hdir hup =>
        subst hup
        rw [walk_up hdir] at h
        exact ihxs (.of_dir (fs.up_dir hdir)) h
      | absent gap hdir hname =>
        subst hdir hname
        rw [walk_absent] at h
        split at h <;> cases h
      | link target hdir hproper hlink =>
        rw [walk_link hdir hproper hlink, if_neg (by simp)] at h
        cases left with
        | zero => cases h
        | succ left =>
          refine ih left (Nat.lt_succ_self left) ?_ h
          rw [PathText.start]
          split
          · exact .of_dir fs.root
          · exact hcur
      | into hdir hproper hreal =>
        rw [walk_into hdir hproper hreal] at h
        exact ihxs hreal h

theorem walk_canonical (h : fs.Real place) :
    walk fs follow left [] place = .ok (.found place, left) := by
  induction place using reverseRecOn generalizing follow with
  | nil => exact walk_nil
  | append_singleton place name ih =>
    have hne : fs.node (place ++ [name]) ≠ none := by
      obtain ⟨node, hnode, -⟩ := h
      rw [hnode]
      exact Option.some_ne_none _
    have hdir := fs.parent place name hne
    rw [walk_append fs follow left [] place (cons_ne_nil _ _), ih (.of_dir hdir)]
    dsimp only
    rw [walk_into hdir (fs.proper place name hne) h, walk_nil]

/-! ## Filling a gap -/

def Fs.put (fs : Fs) (gap : fs.Gap) (node : Node) : Fs where
  node place := if place = gap.place then some node else fs.node place
  root := by
    rw [if_neg (by simp [Gap.place])]
    exact fs.root
  parent place name h := by
    have hdir : place ≠ gap.place → fs.node place = some .dir →
        (if place = gap.place then some node else fs.node place) = some .dir := by
      intro hne hdir
      rw [if_neg hne, hdir]
    by_cases hplace : place ++ [name] = gap.place
    · obtain ⟨hplace, -⟩ := append_inj' hplace rfl
      refine hdir ?_ (hplace ▸ gap.isDir)
      intro heq
      have := congrArg List.length (hplace.symm.trans heq)
      simp [Gap.place] at this
    rw [if_neg hplace] at h
    have hparent := fs.parent place name h
    refine hdir ?_ hparent
    intro heq
    rw [heq, Gap.place, gap.absent] at hparent
    cases hparent
  proper place name h := by
    by_cases hplace : place ++ [name] = gap.place
    · obtain ⟨-, hname⟩ := append_inj' hplace rfl
      cases hname
      exact gap.proper
    · rw [if_neg hplace] at h
      exact fs.proper place name h

theorem Fs.put_self (node : Node) : (fs.put gap node).node gap.place = some node := if_pos rfl

theorem Fs.put_other (node : Node) (h : fs.node place ≠ none) :
    (fs.put gap node).node place = fs.node place := by
  refine if_neg fun heq => h ?_
  rw [heq]
  exact gap.absent

theorem Fs.Real.put (h : fs.Real place) (gap : fs.Gap) (node : Node) : (fs.put gap node).Real place := by
  obtain ⟨node', hnode, hlink⟩ := h
  exact ⟨node', by rw [Fs.put_other gap node (by rw [hnode]; exact Option.some_ne_none _), hnode], hlink⟩

theorem walk_put {left' : Nat} {cur xs : List String} (node : Node)
    (h : walk fs follow left cur xs = .ok (.found place, left')) :
    walk (fs.put gap node) follow left cur xs = .ok (.found place, left') := by
  have hput : ∀ {place node'}, fs.node place = some node' → (fs.put gap node).node place = some node' := by
    intro place node' hnode
    rw [Fs.put_other gap node (by rw [hnode]; exact Option.some_ne_none _), hnode]
  induction left using Nat.strongRecOn generalizing cur xs with
  | ind left ih =>
    induction xs generalizing cur with
    | nil =>
      rw [walk_nil] at h ⊢
      cases h
      rfl
    | cons segment xs ihxs =>
      cases meets fs cur segment with
      | notDir hdir =>
        rw [walk_notDir hdir] at h
        cases h
      | stays hdir hstays =>
        rw [walk_stays hdir hstays] at h
        rw [walk_stays (hput hdir) hstays]
        exact ihxs h
      | up hdir hup =>
        subst hup
        rw [walk_up hdir] at h
        rw [walk_up (hput hdir)]
        exact ihxs h
      | absent gap' hdir hname =>
        subst hdir hname
        rw [walk_absent] at h
        split at h <;> cases h
      | link target hdir hproper hlink =>
        rw [walk_link hdir hproper hlink] at h
        rw [walk_link (hput hdir) hproper (hput hlink)]
        by_cases hlast : xs = [] ∧ follow = false
        · rw [if_pos hlast] at h ⊢
          cases h
          rfl
        rw [if_neg hlast] at h ⊢
        cases left with
        | zero => cases h
        | succ left => exact ih left (Nat.lt_succ_self left) h
      | into hdir hproper hreal =>
        rw [walk_into hdir hproper hreal] at h
        rw [walk_into (hput hdir) hproper (hreal.put gap node)]
        exact ihxs h

end TddyCoder.Posix
