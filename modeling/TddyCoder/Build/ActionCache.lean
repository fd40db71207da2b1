/-
  TddyCoder.Build.ActionCache — taking an action from the cache or running it
  (`packages/tddy-build/src/cache.rs`, `executor.rs`).

  The cache has one slot for an action of a target. A later run writes over the same outputs
  whatever its key, but only one that succeeds with the cache on and writable replaces the
  entry; otherwise the old key is served with the new files from then on. The actions of a wave
  write their own outputs only, so their runs are taken one after another.

  Proved: `hits_stand_for_the_last_success`, while no run leaves an entry so (`Harmless`);
  `a_failed_rebuild_is_served` after one that does.
-/

import TddyCoder.Build.CacheKey
import TddyCoder.Build.Executor
import TddyCoder.Machine.Guarded

namespace TddyCoder.Build

open Table Machine Work

inductive CacheMode
  | readWrite | readOnly | offline
  deriving DecidableEq

def CacheMode.writes (mode : CacheMode) : Bool := mode = .readWrite

structure ExecuteOptions where
  noCache : Bool
  dryRun : Bool
  cacheMode : CacheMode
  hermetic : Bool

structure ActionCacheEntry where
  schemaVersion : Nat
  cacheKey : String
  createdAtMs : Nat
  inputFingerprints : List FileFingerprint
  outputPaths : List String
  actionId : String
  targetId : String

/-- The cache directory, read back as it was written, and what is at each path of the repository. -/
structure Disk (C : Type) where
  entries : Assoc String ActionCacheEntry
  files : String → Option C

def sanitize (id : String) : String :=
  String.ofList (id.toList.map fun c => if c = '/' ∨ c = ':' ∨ c = '\\' ∨ c = ' ' then '_' else c)

def cacheEntryPath (targetId actionId : String) : String :=
  ".tddy-build/cache/" ++ sanitize targetId ++ "/" ++ sanitize actionId ++ ".json"

section cache

variable {C : Type} (disk : Disk C)

def lookupCache (targetId actionId expectedKey : String) : Option ActionCacheEntry :=
  match disk.entries.lookup (cacheEntryPath targetId actionId) with
  | none => none
  | some entry =>
    if entry.cacheKey ≠ expectedKey then none
    else if entry.outputPaths.any fun output => (disk.files output).isNone then none
    else some entry

def persistCache (targetId : String) (entry : ActionCacheEntry) : Disk C :=
  { disk with entries := disk.entries.insert (cacheEntryPath targetId entry.actionId) entry }

end cache

/-- A call of `run_one`: its arguments, and what it is told from outside. `tools` are the fingerprints of the resolved
    tools, `ran` is how the process ended and what it printed, and `leaves` what the run changed on disk (nothing where a
    file was removed); `stored` is whether an entry could be written. -/
structure Job (C : Type) where
  target : String
  action : BuildAction
  opts : ExecuteOptions
  inputs : List FileFingerprint
  tools : Except BuildError (List FileFingerprint)
  ran : Except BuildError (Int × String × String)
  leaves : Assoc String (Option C)
  stored : Except BuildError Unit
  nowMs : Nat

namespace Job

variable {C : Type} (j : Job C)

def hermetic : Bool := j.opts.hermetic || j.action.sandbox

def slot : String := cacheEntryPath j.target j.action.id

def outputPaths : List String := j.action.outputs.map (·.path)

def entry (key : String) : ActionCacheEntry := ⟨1, key, j.nowMs, j.inputs, j.outputPaths, j.action.id, j.target⟩

def after (files : String → Option C) (path : String) : Option C :=
  match j.leaves.lookup path with
  | some left => left
  | none => files path

def outcome (cached : Bool) (exitCode : Int) (stdout stderr : String) : ActionOutcome :=
  ⟨j.action.id, cached, exitCode, j.action.command, stdout, stderr⟩

end Job

section runOne

variable {C : Type} (h : Hashing)

def runOne (disk : Disk C) (j : Job C) : Except BuildError ActionOutcome × Disk C :=
  if j.opts.dryRun then (.ok (j.outcome false 0 "" ""), disk)
  else
    let useCache := !j.opts.noCache
    match j.tools with
    | .error e => (.error e, disk)
    | .ok tools =>
      let cacheKey := computeRunCacheKey h j.action j.inputs tools j.hermetic
      if useCache && (lookupCache disk j.target j.action.id cacheKey).isSome then
        (.ok (j.outcome true 0 "" ""), disk)
      else
        let ran : Disk C := { disk with files := j.after disk.files }
        match j.ran with
        | .error e => (.error e, ran)
        | .ok (exitCode, stdout, stderr) =>
          if exitCode = 0 ∧ useCache = true ∧ j.opts.cacheMode.writes = true then
            match j.stored with
            | .error e => (.error e, ran)
            | .ok () => (.ok (j.outcome false exitCode stdout stderr), persistCache ran j.target (j.entry cacheKey))
          else (.ok (j.outcome false exitCode stdout stderr), ran)

end runOne

/-! ## What a call does -/

namespace Job

variable {C : Type} (h : Hashing) (j : Job C)

def work (tools : List FileFingerprint) : Work := ⟨j.action, j.inputs, tools, j.hermetic⟩

def key? : Option String :=
  match j.tools with
  | .error _ => none
  | .ok tools => some ((j.work tools).key h)

def hits (disk : Disk C) (key : String) : Bool :=
  !j.opts.noCache && (lookupCache disk j.target j.action.id key).isSome

def executes (disk : Disk C) : Option String :=
  if j.opts.dryRun then none else (j.key? h).filter fun key => !j.hits disk key

def succeeds : Bool :=
  match j.ran with
  | .error _ => false
  | .ok (exitCode, _, _) => exitCode = 0

def stores : Bool := j.succeeds && !j.opts.noCache && j.opts.cacheMode.writes && j.stored matches .ok ()

variable {h j} {disk : Disk C} {key : String}

theorem lookupCache_eq_some {targetId actionId : String} {entry : ActionCacheEntry} :
    lookupCache disk targetId actionId key = some entry ↔
      disk.entries.lookup (cacheEntryPath targetId actionId) = some entry ∧ entry.cacheKey = key ∧
        ∀ path ∈ entry.outputPaths, ∃ content, disk.files path = some content := by
  unfold lookupCache
  cases hlookup : disk.entries.lookup (cacheEntryPath targetId actionId) with
  | none => simp
  | some entry' =>
    have hexist : (entry'.outputPaths.any fun output => (disk.files output).isNone) = false ↔
        ∀ path ∈ entry'.outputPaths, ∃ content, disk.files path = some content := by
      simp [List.any_eq_false, Option.ne_none_iff_exists']
    grind

theorem key?_eq_some : j.key? h = some key ↔ ∃ tools, j.tools = .ok tools ∧ (j.work tools).key h = key := by
  unfold key?
  cases j.tools <;> simp

theorem succeeds_of_stores (hstores : j.stores = true) : j.succeeds = true := by
  simp only [stores, Bool.and_eq_true] at hstores
  exact hstores.1.1.1

theorem executes_eq_some : j.executes h disk = some key ↔
    j.opts.dryRun = false ∧ j.key? h = some key ∧ j.hits disk key = false := by
  unfold executes
  cases j.opts.dryRun <;> simp [Option.filter_eq_some_iff]

variable (h disk j) in
theorem runOne_disk : (runOne h disk j).2 =
    match j.executes h disk with
    | none => disk
    | some key =>
      if j.stores then persistCache { disk with files := j.after disk.files } j.target (j.entry key)
      else { disk with files := j.after disk.files } := by
  unfold runOne executes key?
  cases j.opts.dryRun with
  | true => rfl
  | false =>
    cases j.tools with
    | error e => rfl
    | ok tools =>
      simp only [Bool.false_eq_true, ↓reduceIte, Option.filter_some]
      change (if j.hits disk ((j.work tools).key h) = true then _ else _ : Except BuildError ActionOutcome × Disk C).2 = _
      cases j.hits disk ((j.work tools).key h) with
      | true => rfl
      | false =>
        unfold stores succeeds
        cases j.ran with
        | error e => rfl
        | ok ran => cases j.stored <;> grind [key, work]

theorem runOne_cached {outcome : ActionOutcome} (hran : (runOne h disk j).1 = .ok outcome)
    (hcached : outcome.cached = true) : ∃ key, j.key? h = some key ∧ j.hits disk key = true := by
  unfold runOne at hran
  unfold key?
  cases hdry : j.opts.dryRun with
  | true =>
    rw [hdry] at hran
    cases hran
    cases hcached
  | false =>
    rw [hdry] at hran
    cases htools : j.tools with
    | error e =>
      rw [htools] at hran
      cases hran
    | ok tools =>
      rw [htools] at hran
      refine ⟨_, rfl, ?_⟩
      change (if j.hits disk ((j.work tools).key h) = true then _ else _ : Except BuildError ActionOutcome × Disk C).1 = _
        at hran
      cases hhits : j.hits disk ((j.work tools).key h) with
      | true => rfl
      | false =>
        rw [hhits] at hran
        cases hj : j.ran with
        | error e => simp [hj] at hran
        | ok ran => grind [outcome]

end Job

/-! ## Histories -/

/-- The disk, and of every successful run so far the key and what it left, the latest first. -/
structure Workshop (C : Type) where
  disk : Disk C
  successes : List (String × (String → Option C))

inductive Event (C : Type)
  | run (j : Job C)
  | remove (path : String)

namespace Workshop

variable {C : Type} (h : Hashing)

def start (files : String → Option C) : Workshop C := ⟨⟨∅, files⟩, []⟩

variable (w : Workshop C)

def lastLeft (key : String) : Option (String → Option C) :=
  (w.successes.find? fun success => success.1 = key).map (·.2)

def step : Event C → Workshop C
  | .run j =>
    { disk := (runOne h w.disk j).2,
      successes :=
        match j.executes h w.disk with
        | none => w.successes
        | some key => if j.succeeds then (key, j.after w.disk.files) :: w.successes else w.successes }
  | .remove path => { w with disk := { w.disk with files := fun p => if p = path then none else w.disk.files p } }

/-- If the call answers that its action is cached, every declared output holds what the last successful run under the key
    left there. -/
def Stands (j : Job C) : Prop :=
  ∀ outcome, (runOne h w.disk j).1 = .ok outcome → outcome.cached = true →
    ∃ key left, j.key? h = some key ∧ w.lastLeft key = some left ∧
      ∀ output ∈ j.action.outputs, ∃ content, w.disk.files output.path = some content ∧ left output.path = some content

/-- A run that is not stored succeeds under the key of the entry in its slot, or leaves the outputs of that entry as they
    were or removes them. -/
def Harmless (j : Job C) : Prop :=
  ∀ key, j.executes h w.disk = some key → j.stores = false → ∀ entry, w.disk.entries.lookup j.slot = some entry →
    (j.succeeds = true ∧ entry.cacheKey = key) ∨
      ∀ path ∈ entry.outputPaths, j.after w.disk.files path = w.disk.files path ∨ j.after w.disk.files path = none

section step

variable {h} {w : Workshop C} {j : Job C} {key : String}

theorem step_idle (hidle : j.executes h w.disk = none) : w.step h (.run j) = w := by
  simp only [step, Job.runOne_disk, hidle]

section

variable (hexecutes : j.executes h w.disk = some key)
include hexecutes

theorem step_files : (w.step h (.run j)).disk.files = j.after w.disk.files := by
  simp only [step, Job.runOne_disk, hexecutes]
  split <;> rfl

theorem step_stored (hstores : j.stores = true) :
    (w.step h (.run j)).disk.entries = w.disk.entries.insert j.slot (j.entry key) := by
  simp only [step, Job.runOne_disk, hexecutes, hstores]
  rfl

theorem step_unstored (hstores : j.stores = false) : (w.step h (.run j)).disk.entries = w.disk.entries := by
  simp only [step, Job.runOne_disk, hexecutes, hstores]
  rfl

theorem step_lastLeft (key' : String) : (w.step h (.run j)).lastLeft key' =
      if j.succeeds = true ∧ key = key' then some (j.after w.disk.files) else w.lastLeft key' := by
  simp only [lastLeft, step, hexecutes]
  by_cases hsucceeds : j.succeeds = true <;> by_cases hkey : key = key' <;> simp [hsucceeds, hkey]

end

end step

end Workshop

open Workshop

/-- Calls of which equal keys mean equal actions and inputs, different actions declare different outputs, and each writes
    no declared outputs but its own. -/
structure Builds (h : Hashing) (C : Type) where
  jobs : Set (Job C)
  keyed : ∀ j ∈ jobs, ∀ j' ∈ jobs, ∀ tools tools', j.tools = .ok tools → j'.tools = .ok tools' →
    (j.work tools).key h = (j'.work tools').key h → (j.work tools).Agree (j'.work tools')
  own : ∀ j ∈ jobs, ∀ j' ∈ jobs, ∀ path ∈ j.outputPaths, path ∈ j'.outputPaths →
    j.target = j'.target ∧ j.action.id = j'.action.id
  only : ∀ j ∈ jobs, ∀ j' ∈ jobs, ∀ path ∈ j'.outputPaths, path ∈ j.leaves → path ∈ j.outputPaths

namespace Builds

variable {h : Hashing} {C : Type} (b : Builds h C) (w : Workshop C)

/-- The entry was stored for one of the calls, and each of its outputs is gone or holds what the last successful run under
    its key left. -/
structure Sound (slot : String) (entry : ActionCacheEntry) : Prop where
  origin : ∃ j ∈ b.jobs, j.slot = slot ∧ j.key? h = some entry.cacheKey ∧ entry.outputPaths = j.outputPaths
  files : ∃ left, w.lastLeft entry.cacheKey = some left ∧
    ∀ path ∈ entry.outputPaths, w.disk.files path = none ∨ w.disk.files path = left path

def Inv : Prop := ∀ slot entry, w.disk.entries.lookup slot = some entry → b.Sound w slot entry

variable {b} {w : Workshop C} {j : Job C} {key slot : String} {entry : ActionCacheEntry}

theorem inv_start (files : String → Option C) : b.Inv (.start files) := by
  intro slot entry hentry
  exact absurd hentry (by simp [Workshop.start])

theorem untouched (hj : j ∈ b.jobs) (hentry : b.Sound w slot entry)
    (hslot : slot ≠ j.slot) {path : String} (hpath : path ∈ entry.outputPaths) :
    j.after w.disk.files path = w.disk.files path := by
  obtain ⟨j', hj', rfl, -, hpaths⟩ := hentry.origin
  rw [hpaths] at hpath
  unfold Job.after
  cases hleaves : j.leaves.lookup path with
  | none => rfl
  | some left =>
    have hmem : path ∈ j.leaves := AList.lookup_isSome.mp (by simp [hleaves])
    obtain ⟨htarget, hid⟩ := b.own j hj j' hj' path (b.only j hj j' hj' path hpath hmem) hpath
    exact absurd (by rw [Job.slot, Job.slot, htarget, hid]) hslot

theorem Sound.run (hs : b.Sound w slot entry) (hentry : w.disk.entries.lookup slot = some entry) (hj : j ∈ b.jobs)
    (hharmless : w.Harmless h j) (hexecutes : j.executes h w.disk = some key)
    (hstays : slot = j.slot → j.stores = false) : b.Sound (w.step h (.run j)) slot entry := by
  refine ⟨hs.origin, ?_⟩
  rw [step_files hexecutes, step_lastLeft hexecutes]
  obtain ⟨left, hleft, hfiles⟩ := hs.files
  by_cases hagain : j.succeeds = true ∧ key = entry.cacheKey
  · -- the run has just left the outputs itself
    exact ⟨_, if_pos hagain, fun path _ => .inr rfl⟩
  refine ⟨left, by rw [if_neg hagain, hleft], fun path hpath => ?_⟩
  have hkept : j.after w.disk.files path = w.disk.files path ∨ j.after w.disk.files path = none := by
    by_cases hslot : slot = j.slot
    · rcases hharmless key hexecutes (hstays hslot) entry (hslot ▸ hentry) with ⟨hsucceeds, hkey⟩ | hkept
      · exact absurd ⟨hsucceeds, hkey.symm⟩ hagain
      · exact hkept path hpath
    · exact .inl (untouched hj hs hslot hpath)
  rcases hkept with hkept | hkept
  · rw [hkept]
    exact hfiles path hpath
  · exact .inl hkept

theorem inv_run (hinv : b.Inv w) (hj : j ∈ b.jobs) (hharmless : w.Harmless h j) : b.Inv (w.step h (.run j)) := by
  cases hexecutes : j.executes h w.disk with
  | none => rwa [step_idle hexecutes]
  | some key =>
    intro slot entry hentry
    cases hstores : j.stores with
    | false =>
      rw [step_unstored hexecutes hstores] at hentry
      exact (hinv slot entry hentry).run hentry hj hharmless hexecutes fun _ => hstores
    | true =>
      rw [step_stored hexecutes hstores] at hentry
      rcases lookup_insert_eq_some.mp hentry with ⟨rfl, rfl⟩ | ⟨hne, hentry⟩
      · have hsucceeds : j.succeeds = true := Job.succeeds_of_stores hstores
        refine ⟨⟨j, hj, rfl, (Job.executes_eq_some.mp hexecutes).2.1, rfl⟩, _, ?_, fun path _ => .inr rfl⟩
        rw [step_files hexecutes, step_lastLeft hexecutes, if_pos ⟨hsucceeds, rfl⟩]
      · exact (hinv slot entry hentry).run hentry hj hharmless hexecutes fun hslot => absurd hslot hne

theorem inv_remove (hinv : b.Inv w) (path : String) : b.Inv (w.step h (.remove path)) := by
  intro slot entry hentry
  obtain ⟨horigin, left, hleft, hfiles⟩ := hinv slot entry hentry
  refine ⟨horigin, left, hleft, fun p hp => ?_⟩
  by_cases hpath : p = path
  · exact .inl (if_pos hpath)
  · rw [show (w.step h (.remove path)).disk.files p = w.disk.files p from if_neg hpath]
    exact hfiles p hp

theorem stands_of_inv (hinv : b.Inv w) (hj : j ∈ b.jobs) : w.Stands h j := by
  intro outcome hran hcached
  obtain ⟨key, hkey, hhits⟩ := Job.runOne_cached hran hcached
  obtain ⟨-, hlookup⟩ := Bool.and_eq_true_iff.mp hhits
  obtain ⟨entry, hlookup⟩ := Option.isSome_iff_exists.mp hlookup
  obtain ⟨hentry, rfl, hexist⟩ := Job.lookupCache_eq_some.mp hlookup
  obtain ⟨⟨j', hj', -, hkey', hpaths⟩, left, hleft, hfiles⟩ := hinv _ entry hentry
  refine ⟨_, left, hkey, hleft, fun output houtput => ?_⟩
  -- the entry was stored for a job that declares the same outputs
  have hpath : output.path ∈ entry.outputPaths := by
    rw [hpaths]
    obtain ⟨tools, htools, hw⟩ := Job.key?_eq_some.mp hkey
    obtain ⟨tools', htools', hw'⟩ := Job.key?_eq_some.mp hkey'
    have hsame := b.keyed j hj j' hj' tools tools' htools htools' (hw.trans hw'.symm)
    exact List.mem_map_of_mem (hsame.outputs.mem_iff.mp houtput)
  obtain ⟨content, hcontent⟩ := hexist _ hpath
  refine ⟨content, hcontent, ?_⟩
  rcases hfiles _ hpath with hgone | hleft
  · exact absurd (hgone.symm.trans hcontent) (by simp)
  · exact hleft.symm.trans hcontent

end Builds

def Builds.Allows {h : Hashing} {C : Type} (b : Builds h C) (w : Workshop C) : Event C → Prop
  | .run j => j ∈ b.jobs ∧ w.Harmless h j
  | .remove _ => True

theorem hits_stand_for_the_last_success {h : Hashing} {C : Type} (b : Builds h C) (files : String → Option C)
    (events : List (Event C)) (hallowed : Guarded (Workshop.step h) b.Allows (.start files) events) :
    ∀ before j after, events = before ++ .run j :: after → (before.foldl (Workshop.step h) (.start files)).Stands h j := by
  intro before j after hsplit
  have hkeeps : ∀ w e, b.Inv w → b.Allows w e → b.Inv (w.step h e) := by
    intro w e hinv hallow
    cases e with
    | run j => exact Builds.inv_run hinv hallow.1 hallow.2
    | remove path => exact Builds.inv_remove hinv path
  have hinv := guarded_reached hkeeps (Builds.inv_start files) hallowed ⟨_, hsplit.symm⟩
  exact Builds.stands_of_inv hinv (guarded_iff.mp hallowed before (.run j) after hsplit).1

def compileBuilds : Builds Work.unaryHashing String where
  jobs := {j | j.target = "app" ∧ j.action = (Work.compileWith ∅ [] []).action ∧ j.inputs = [] ∧ j.tools = .ok [] ∧
    j.opts.hermetic = false ∧ ∀ path ∈ j.leaves, path ∈ j.outputPaths}
  keyed := by
    rintro j ⟨-, haction, hinputs, htools, hhermetic, -⟩ j' ⟨-, haction', hinputs', htools', hhermetic', -⟩ tools tools'
      hread hread' -
    cases htools.symm.trans hread
    cases htools'.symm.trans hread'
    have hsame : j.work [] = j'.work [] := by
      simp only [Job.work, Job.hermetic, haction, haction', hinputs, hinputs', hhermetic, hhermetic']
    rw [hsame]
    exact .refl _
  own := by
    rintro j ⟨htarget, haction, -⟩ j' ⟨htarget', haction', -⟩ path - -
    exact ⟨htarget.trans htarget'.symm, by rw [haction, haction']⟩
  only := by
    rintro j ⟨-, -, -, -, -, hleaves⟩ j' - path - hpath
    exact hleaves path hpath

def compileJob (noCache : Bool) (exitCode : Int) (content : String) : Job String where
  target := "app"
  action := (Work.compileWith ∅ [] []).action
  opts := ⟨noCache, false, .readWrite, false⟩
  inputs := []
  tools := .ok []
  ran := .ok (exitCode, "", "")
  leaves := AList.singleton "out/app" (some content)
  stored := .ok ()
  nowMs := 0

theorem compileJob_mem (noCache : Bool) (exitCode : Int) (content : String) :
    compileJob noCache exitCode content ∈ compileBuilds.jobs := by
  refine ⟨rfl, rfl, rfl, rfl, rfl, fun path hpath => ?_⟩
  have hpath : path = "out/app" := by simpa [compileJob, AList.mem_keys] using hpath
  rw [hpath]
  exact List.mem_singleton_self _

def compileKey : String := (Work.compileWith ∅ [] []).key Work.unaryHashing

def compiled : Workshop String := Workshop.step Work.unaryHashing (.start fun _ => none) (.run (compileJob false 0 "good"))

theorem compiled_executes : (compileJob false 0 "good").executes Work.unaryHashing (Workshop.start fun _ => none).disk =
    some compileKey :=
  Job.executes_eq_some.mpr ⟨rfl, rfl, rfl⟩

theorem compiled_entry : compiled.disk.entries.lookup (cacheEntryPath "app" "compile") =
    some ((compileJob false 0 "good").entry compileKey) := by
  exact AList.lookup_insert _

theorem compile_hits {disk : Disk String} {content : String}
    (hentry : disk.entries.lookup (cacheEntryPath "app" "compile") =
      some ((compileJob false 0 "good").entry compileKey))
    (hfile : disk.files "out/app" = some content) :
    (runOne Work.unaryHashing disk (compileJob false 0 "good")).1 =
      .ok ((compileJob false 0 "good").outcome true 0 "" "") := by
  have hexist : ∀ path ∈ ((compileJob false 0 "good").entry compileKey).outputPaths,
      ∃ content, disk.files path = some content := by
    intro path hpath
    rw [show path = "out/app" from List.mem_singleton.mp hpath]
    exact ⟨content, hfile⟩
  have hlookup : lookupCache disk "app" "compile" compileKey = some ((compileJob false 0 "good").entry compileKey) :=
    Job.lookupCache_eq_some.mpr ⟨hentry, rfl, hexist⟩
  have hhits : (compileJob false 0 "good").hits disk compileKey = true :=
    Bool.and_eq_true_iff.mpr ⟨rfl, Option.isSome_iff_exists.mpr ⟨_, hlookup⟩⟩
  exact congrArg Prod.fst (if_pos hhits)

/-- A build and the same build again, which is taken from the cache. -/
theorem a_second_build_is_served :
    (runOne Work.unaryHashing compiled.disk (compileJob false 0 "good")).1 =
        .ok ((compileJob false 0 "good").outcome true 0 "" "") ∧
      compiled.Stands Work.unaryHashing (compileJob false 0 "good") := by
  have hfile : compiled.disk.files "out/app" = some "good" := by
    rfl
  have hharmless : ∀ w : Workshop String, w.Harmless unaryHashing (compileJob false 0 "good") :=
    fun w key _ hstores => absurd hstores (by decide)
  refine ⟨compile_hits compiled_entry hfile, ?_⟩
  exact hits_stand_for_the_last_success compileBuilds (fun _ => none)
    [.run (compileJob false 0 "good"), .run (compileJob false 0 "good")]
    ⟨⟨compileJob_mem _ _ _, hharmless _⟩, ⟨compileJob_mem _ _ _, hharmless _⟩, trivial⟩
    [.run (compileJob false 0 "good")] (compileJob false 0 "good") [] rfl

/-- A build without the cache fails halfway; what it left is served for the good build. -/
theorem a_failed_rebuild_is_served :
    (∀ j ∈ [compileJob false 0 "good", compileJob true 1 "half"], j ∈ compileBuilds.jobs) ∧
      (runOne Work.unaryHashing (compiled.step Work.unaryHashing (.run (compileJob true 1 "half"))).disk
        (compileJob false 0 "good")).1 = .ok ((compileJob false 0 "good").outcome true 0 "" "") ∧
      ¬ (compiled.step Work.unaryHashing (.run (compileJob true 1 "half"))).Stands Work.unaryHashing
        (compileJob false 0 "good") := by
  have hexecutes : (compileJob true 1 "half").executes unaryHashing compiled.disk = some compileKey :=
    Job.executes_eq_some.mpr ⟨rfl, rfl, rfl⟩
  have hfile : (compiled.step unaryHashing (.run (compileJob true 1 "half"))).disk.files "out/app" = some "half" := by
    rfl
  have hhit := compile_hits (by rw [step_unstored hexecutes rfl]; exact compiled_entry) hfile
  refine ⟨by simp [compileJob_mem], hhit, fun hstands => ?_⟩
  obtain ⟨key, left, hkey, hleft, hsame⟩ := hstands _ hhit rfl
  obtain rfl : compileKey = key := Option.some.inj hkey
  have hgood : left "out/app" = some "good" := by
    rw [step_lastLeft hexecutes, if_neg (by decide), compiled, step_lastLeft compiled_executes,
      if_pos ⟨rfl, rfl⟩] at hleft
    cases hleft
    rfl
  obtain ⟨content, hnow, hthen⟩ := hsame ⟨"out/app", 1⟩ (List.mem_singleton_self _)
  rw [hgood] at hthen
  exact absurd (hnow.trans hthen.symm) (by decide)

end TddyCoder.Build
