/-
  TddyCoder.Build.Executor — building a target after what it depends on
  (`packages/tddy-build/src/graph.rs`, `lower.rs`, `executor.rs`).

  Targets run one after another, the actions of a target wave by wave. An action that cannot be
  run ends the build; one that runs and fails does not, and its exit code is kept only if it
  belongs to the requested target. What an action answers is an oracle, `Answers`.

  Proved: `failed_prerequisites_stop_the_build_iff`; `a_failed_library_is_built_on` is a build
  that goes on.
-/

import TddyCoder.Build.Action
import TddyCoder.Graph.PostOrder

namespace TddyCoder.Build

open TddyCoder.Graph Table List

/-! ## Targets -/

inductive BuildMode
  | compile | test | run
  deriving DecidableEq

def BuildMode.label : BuildMode → String
  | .compile => "compile"
  | .test => "test"
  | .run => "run"

/-- What a target's configuration is read as: the built-in types, and what a plugin makes of any other. -/
inductive TargetConfig
  | script (action : Except BuildError BuildAction)
  | tool (producer : Option String)
  | group (memberIds : Except BuildError (List String))
  | plugin (lowerMode : BuildMode → Except BuildError (List BuildAction))

structure BuildTarget where
  deps : List String
  actions : List BuildAction
  config : Option TargetConfig

abbrev BuildGraph := Assoc String BuildTarget

def unsupported (typeName : String) (mode : BuildMode) : BuildError :=
  .manifest ("target type '" ++ typeName ++ "' does not support " ++ mode.label)

/-- The target's own actions first, when it is compiled, and then those its configuration stands for. -/
def lowerTarget (target : BuildTarget) (mode : BuildMode) : Except BuildError (List BuildAction) :=
  let actions := if mode = .compile then target.actions else []
  match target.config with
  | none => .ok actions
  | some (.script action) =>
    if mode ≠ .compile then .error (unsupported "script" mode)
    else
      match action with
      | .error e => .error e
      | .ok action => .ok (actions ++ [action])
  | some (.tool _) => if mode ≠ .compile then .error (unsupported "tool" mode) else .ok actions
  | some (.group _) => if mode ≠ .compile then .error (unsupported "group" mode) else .ok actions
  | some (.plugin lowerMode) =>
    match lowerMode mode with
    | .error e => .error e
    | .ok lowered => .ok (actions ++ lowered)

variable {order : List String}

namespace BuildGraph

variable (graph : BuildGraph) (id : String)

def actionsForMode (mode : BuildMode) : Except BuildError (List BuildAction) :=
  match graph.lookup id with
  | none => .error (.unknownTarget id)
  | some target => lowerTarget target mode

def targetEdges (target : BuildTarget) : Except BuildError (List String) :=
  let tools := target.actions.flatMap (·.toolDepIds)
  match target.config with
  | some (.group (.error e)) => .error e
  | some (.group (.ok memberIds)) => .ok (target.deps ++ memberIds ++ tools)
  | some (.tool (some producer)) => .ok (target.deps ++ tools ++ [producer])
  | _ => .ok (target.deps ++ tools)

def edgesOf : Except BuildError (List String) :=
  match graph.lookup id with
  | none => .ok []
  | some target => targetEdges target

def cycleThrough (stack : List String) (id : String) : BuildError :=
  .cycle ("cycle through target " ++ " → ".intercalate (stack.drop (stack.idxOf id) ++ [id]))

def buildOrder : Except BuildError (List String) :=
  match graph.lookup id with
  | none => .error (.unknownTarget id)
  | some _ => visit graph.edgesOf cycleThrough (graph.keys.length + 1) [] [] id

/-- Directly or through others. -/
def DependsOn : String → String → Prop := Relation.TransGen (Names graph.edgesOf)

variable {graph : BuildGraph} {id : String}

theorem buildOrder_spec (h : graph.buildOrder id = .ok order) :
    Ordered graph.edgesOf order ∧ order.Nodup ∧ id ∈ order := by
  unfold buildOrder at h
  split at h
  · cases h
  · obtain ⟨hvisits, hmem⟩ := visit_spec h
    exact ⟨hvisits.ordered .nil, hvisits.nodup nodup_nil, hmem⟩

theorem mem_buildOrder {x : String} (h : graph.buildOrder id = .ok order)
    (hx : x = id ∨ graph.DependsOn id x) : x ∈ order := by
  obtain ⟨hordered, -, hmem⟩ := buildOrder_spec h
  obtain ⟨before, after, hsplit⟩ := append_of_mem hmem
  rcases hx with rfl | hx
  · exact hmem
  · exact hsplit ▸ mem_append_left _ (hordered.path hsplit hx)

/-- A graph whose edges can be read and have no cycle has a build order for every target. -/
theorem buildOrder_of_acyclic (hread : ∀ id, ∃ deps, graph.edgesOf id = .ok deps)
    (hacyclic : ∀ id, ¬ graph.DependsOn id id) (hid : id ∈ graph) :
    ∃ order, graph.buildOrder id = .ok order := by
  have hknown : ∀ id, id ∉ graph.keys → graph.edgesOf id = .ok [] := by
    intro id hid
    simp only [edgesOf, AList.lookup_eq_none.mpr hid]
  unfold buildOrder
  cases hlookup : graph.lookup id with
  | none => exact absurd hid (AList.lookup_eq_none.mp hlookup)
  | some target =>
    exact visit_acyclic hknown hread hacyclic nodup_nil (nil_subset _) (by simp) (by simp) []

end BuildGraph

/-! ## Running -/

structure ActionOutcome where
  actionId : String
  cached : Bool
  exitCode : Int
  argv : List String
  stdout : String
  stderr : String

structure BuildRecord where
  target : String
  actions : List ActionOutcome

/-- What `run_one` answers in this build for each action of each target, by its number. -/
abbrev Answers := String → Nat → Except BuildError ActionOutcome

structure Batch where
  target : String
  wave : List Nat
  deriving DecidableEq

section run

variable (g : Glob) (answers : Answers)

def firstError (batch : Batch) : Option BuildError :=
  batch.wave.findSome? fun i =>
    match answers batch.target i with
    | .error e => some e
    | .ok _ => none

def runWaves (target : String) : List (List Nat) → List Batch × Except BuildError Unit
  | [] => ([], .ok ())
  | wave :: rest =>
    match firstError answers ⟨target, wave⟩ with
    | some e => ([⟨target, wave⟩], .error e)
    | none =>
      let later := runWaves target rest
      (⟨target, wave⟩ :: later.1, later.2)

def runTargetActions (target : String) (actions : List BuildAction) :
    List Batch × Except BuildError (List ActionOutcome) :=
  match actionWaves g actions with
  | .error e => ([], .error e)
  | .ok found =>
    let ran := runWaves answers target found
    match ran.2 with
    | .error e => (ran.1, .error e)
    | .ok () => (ran.1, (List.range actions.length).mapM (answers target))

def runPlans (requested : String) :
    List (String × List BuildAction) → List ActionOutcome → List Batch × Except BuildError BuildRecord
  | [], record => ([], .ok ⟨requested, record⟩)
  | (target, actions) :: rest, record =>
    let ran := runTargetActions g answers target actions
    match ran.2 with
    | .error e => (ran.1, .error e)
    | .ok outcomes =>
      let later := runPlans requested rest (if target = requested then outcomes else record)
      (ran.1 ++ later.1, later.2)

def planFrom (actionsOf : String → Except BuildError (List BuildAction)) :
    List String → Except BuildError (List (String × List BuildAction))
  | [] => .ok []
  | target :: order =>
    match actionsOf target with
    | .error e => .error e
    | .ok actions =>
      match planFrom actionsOf order with
      | .error e => .error e
      | .ok rest => .ok (if actions.isEmpty then rest else (target, actions) :: rest)

end run

/-- A call of `execute_target_with_tools`. Whether the tools the actions name can be read is an answer from outside. -/
structure BuildCall where
  graph : BuildGraph
  requested : String
  mode : BuildMode
  toolRun : List BuildAction → Except BuildError Unit
  answers : Answers

namespace BuildCall

def actionsOf (b : BuildCall) (target : String) : Except BuildError (List BuildAction) :=
  b.graph.actionsForMode target (if target = b.requested then b.mode else .compile)

def plans (b : BuildCall) : Except BuildError (List (String × List BuildAction)) :=
  match b.graph.buildOrder b.requested with
  | .error e => .error e
  | .ok order =>
    match planFrom b.actionsOf order with
    | .error e => .error e
    | .ok plans =>
      match b.toolRun (plans.flatMap (·.2)) with
      | .error e => .error e
      | .ok () => .ok plans

variable (g : Glob) (b : BuildCall)

def execute : List Batch × Except BuildError BuildRecord :=
  match b.plans with
  | .error e => ([], .error e)
  | .ok plans => runPlans g b.answers b.requested plans []

/-! ## What must have succeeded -/

/-- With exit code 0, or from the cache. -/
def Succeeded : Except BuildError ActionOutcome → Prop
  | .ok outcome => outcome.exitCode = 0 ∨ outcome.cached = true
  | .error _ => False

def ExitsNonZero : Except BuildError ActionOutcome → Prop
  | .ok outcome => ¬ (outcome.exitCode = 0 ∨ outcome.cached = true)
  | .error _ => False

def HasAction (target : String) (i : Nat) : Prop :=
  ∃ actions, b.actionsOf target = .ok actions ∧ i < actions.length

/-- The first action is one of a target that the second's depends on, or of the same target and the second reads what it
    declares to write. -/
def Prerequisite (first second : String × Nat) : Prop :=
  b.graph.DependsOn second.1 first.1 ∧ b.HasAction first.1 first.2 ∨
  first.1 = second.1 ∧ ∃ actions, b.actionsOf second.1 = .ok actions ∧ Overlaps g actions first.2 second.2

/-- Whatever was started came after everything it needs, and that succeeded; and a record of successes means that every
    action of the dependencies succeeded. -/
structure Stops : Prop where
  started : ∀ before batch after, (b.execute g).1 = before ++ batch :: after → ∀ i ∈ batch.wave, ∀ first,
    b.Prerequisite g first (batch.target, i) →
      (∃ earlier ∈ before, earlier.target = first.1 ∧ first.2 ∈ earlier.wave) ∧ Succeeded (b.answers first.1 first.2)
  recorded : ∀ record, (b.execute g).2 = .ok record → (∀ outcome ∈ record.actions, outcome.exitCode = 0) →
    ∀ target i, b.graph.DependsOn b.requested target → b.HasAction target i → Succeeded (b.answers target i)

/-! ## The schedule -/

def segment (plan : String × List BuildAction) : List (Except BuildError Batch) :=
  match actionWaves g plan.2 with
  | .error e => [.error e]
  | .ok found => found.map fun wave => .ok ⟨plan.1, wave⟩

def schedule (plans : List (String × List BuildAction)) : List (Except BuildError Batch) :=
  plans.flatMap (segment g)

def Runs (answers : Answers) (batch : Batch) : Prop := ∀ i ∈ batch.wave, ∃ outcome, answers batch.target i = .ok outcome

def runSchedule (answers : Answers) : List (Except BuildError Batch) → List Batch × Option BuildError
  | [] => ([], none)
  | .error e :: _ => ([], some e)
  | .ok batch :: rest =>
    match firstError answers batch with
    | some e => ([batch], some e)
    | none =>
      let later := runSchedule answers rest
      (batch :: later.1, later.2)

variable {plan : String × List BuildAction} {batch : Batch} {before : List Batch} {target : String}
  {rest : List (Except BuildError Batch)}

section schedule

variable {g : Glob} {answers : Answers}

theorem firstError_eq_none : firstError answers batch = none ↔ Runs answers batch := by
  simp only [firstError, findSome?_eq_none_iff, Runs]
  refine forall₂_congr fun i _ => ?_
  cases answers batch.target i <;> simp

theorem runSchedule_append (first rest : List (Except BuildError Batch)) :
    runSchedule answers (first ++ rest) =
      match (runSchedule answers first).2 with
      | some _ => runSchedule answers first
      | none => ((runSchedule answers first).1 ++ (runSchedule answers rest).1, (runSchedule answers rest).2) := by
  induction first with
  | nil => rfl
  | cons x first ih =>
    cases x with
    | error e => rfl
    | ok batch =>
      simp only [cons_append, runSchedule]
      cases hfirst : firstError answers batch with
      | some e => rfl
      | none =>
        simp only [ih]
        cases hlater : (runSchedule answers first).2 <;> simp [hlater]

variable (answers) in
theorem runWaves_eq (target : String) (found : List (List Nat)) :
    (runWaves answers target found).1 = (runSchedule answers (found.map fun wave => .ok ⟨target, wave⟩)).1 ∧
      ((runWaves answers target found).2 = .ok () ↔
        (runSchedule answers (found.map fun wave => .ok ⟨target, wave⟩)).2 = none) := by
  induction found with
  | nil => simp [runWaves, runSchedule]
  | cons wave found ih =>
    simp only [runWaves, map_cons, runSchedule]
    cases firstError answers ⟨target, wave⟩ with
    | some e => simp
    | none => exact ⟨congrArg _ ih.1, ih.2⟩

variable {s : List (Except BuildError Batch)}

/-- What was started is an initial part of the schedule in which everything before the last wave runs. -/
theorem started_iff :
    (∃ after, (runSchedule answers s).1 = before ++ batch :: after) ↔
      ∃ rest, s = before.map .ok ++ .ok batch :: rest ∧ ∀ earlier ∈ before, Runs answers earlier := by
  induction s generalizing before with
  | nil => simp [runSchedule]
  | cons x s ih =>
    cases x with
    | error e =>
      cases before <;> simp [runSchedule]
    | ok first =>
      cases before with
      | nil =>
        unfold runSchedule
        cases firstError answers first <;> simp [eq_comm]
      | cons earlier before =>
        unfold runSchedule
        simp only [map_cons, cons_append, cons.injEq, Except.ok.injEq, forall_mem_cons]
        cases hfirst : firstError answers first with
        | some e =>
          have hruns : ¬ Runs answers first := fun h => by simp [firstError_eq_none.mpr h] at hfirst
          constructor
          · rintro ⟨after, hone⟩
            exact absurd hone (by simp)
          · rintro ⟨rest, ⟨rfl, -⟩, hearlier, -⟩
            exact absurd hearlier hruns
        | none =>
          have hruns := firstError_eq_none.mp hfirst
          simp only [cons.injEq]
          constructor
          · rintro ⟨after, rfl, hafter⟩
            obtain ⟨rest, hs, hall⟩ := ih.mp ⟨after, hafter⟩
            exact ⟨rest, ⟨rfl, hs⟩, hruns, hall⟩
          · rintro ⟨rest, ⟨rfl, hs⟩, -, hall⟩
            obtain ⟨after, hafter⟩ := ih.mpr ⟨rest, hs, hall⟩
            exact ⟨after, rfl, hafter⟩

theorem runSchedule_none :
    (runSchedule answers s).2 = none ↔ ∀ x ∈ s, ∃ batch, x = .ok batch ∧ Runs answers batch := by
  induction s with
  | nil => simp [runSchedule]
  | cons x s ih =>
    cases x with
    | error e => simp [runSchedule]
    | ok batch =>
      unfold runSchedule
      cases hfirst : firstError answers batch with
      | some e =>
        have hruns : ¬ Runs answers batch := fun h => by simp [firstError_eq_none.mpr h] at hfirst
        simp [hruns]
      | none =>
        have hruns := firstError_eq_none.mp hfirst
        simp [hruns, ih]

theorem mapM_answers {l : List Nat} (h : ∀ i ∈ l, ∃ outcome, answers target i = .ok outcome) :
    ∃ outcomes, l.mapM (answers target) = .ok outcomes := by
  induction l with
  | nil => exact ⟨[], rfl⟩
  | cons i l ih =>
    obtain ⟨outcome, hi⟩ := h i mem_cons_self
    obtain ⟨outcomes, hl⟩ := ih fun j hj => h j (mem_cons_of_mem i hj)
    exact ⟨outcome :: outcomes, by rw [mapM_cons, hi, hl]; rfl⟩

variable (g answers) in
theorem runTargetActions_eq (target : String) (actions : List BuildAction) :
    (runTargetActions g answers target actions).1 = (runSchedule answers (segment g (target, actions))).1 ∧
      ((∃ outcomes, (runTargetActions g answers target actions).2 = .ok outcomes) ↔
        (runSchedule answers (segment g (target, actions))).2 = none) := by
  unfold runTargetActions segment
  cases hwaves : actionWaves g actions with
  | error e => simp [runSchedule]
  | ok found =>
    obtain ⟨hlog, hok⟩ := runWaves_eq answers target found
    dsimp only
    cases hran : (runWaves answers target found).2 with
    | error e =>
      rw [hran] at hok
      exact ⟨hlog, by simp [← hok]⟩
    | ok u =>
      have hnone := hok.mp hran
      refine ⟨hlog, ?_⟩
      simp only [hnone, iff_true]
      -- the waves hold every action, so each of them has answered
      refine mapM_answers fun i hi => ?_
      obtain ⟨wave, hwave, hmem⟩ := mem_flatten.mp ((actionWaves_ok hwaves).perm.mem_iff.mpr hi)
      obtain ⟨batch, hbatch, hruns⟩ := runSchedule_none.mp hnone (.ok ⟨target, wave⟩) (mem_map_of_mem hwave)
      cases hbatch
      exact hruns i hmem

variable (g answers) in
theorem runPlans_eq (requested : String) (plans : List (String × List BuildAction)) (record : List ActionOutcome) :
    (runPlans g answers requested plans record).1 = (runSchedule answers (schedule g plans)).1 ∧
      ((∃ r, (runPlans g answers requested plans record).2 = .ok r) ↔
        (runSchedule answers (schedule g plans)).2 = none) := by
  induction plans generalizing record with
  | nil => simp [runPlans, schedule, runSchedule]
  | cons plan plans ih =>
    obtain ⟨target, actions⟩ := plan
    obtain ⟨hlog, hok⟩ := runTargetActions_eq g answers target actions
    have hschedule : schedule g ((target, actions) :: plans) = segment g (target, actions) ++ schedule g plans := rfl
    rw [hschedule, runSchedule_append]
    unfold runPlans
    dsimp only
    cases hran : (runTargetActions g answers target actions).2 with
    | error e =>
      rw [hran] at hok
      cases hstop : (runSchedule answers (segment g (target, actions))).2 with
      | none => simp [hstop] at hok
      | some e' => exact ⟨hlog, by simp [hstop]⟩
    | ok outcomes =>
      have hnone := hok.mp ⟨outcomes, hran⟩
      obtain ⟨hlog', hok'⟩ := ih (if target = requested then outcomes else record)
      simp only [hnone]
      exact ⟨by rw [hlog, hlog'], hok'⟩

variable {plans : List (String × List BuildAction)} {actionsOf : String → Except BuildError (List BuildAction)}

theorem runPlans_record {requested : String}
    (hplans : ∀ plan ∈ plans, plan.1 ≠ requested) {record : List ActionOutcome} {r : BuildRecord}
    (h : (runPlans g answers requested plans record).2 = .ok r) : r.actions = record := by
  induction plans generalizing record with
  | nil =>
    cases h
    rfl
  | cons plan plans ih =>
    obtain ⟨target, actions⟩ := plan
    have htarget : target ≠ requested := hplans _ mem_cons_self
    unfold runPlans at h
    dsimp only at h
    split at h
    · cases h
    · simp only [htarget, ↓reduceIte] at h
      exact ih (fun plan hplan => hplans plan (mem_cons_of_mem _ hplan)) h

theorem flatMap_eq_append_cons {β γ : Type} {f : β → List γ} {l : List β} {before rest : List γ} {x : γ}
    (h : l.flatMap f = before ++ x :: rest) :
    ∃ l₁ a l₂ b₁ b₂, l = l₁ ++ a :: l₂ ∧ f a = b₁ ++ x :: b₂ ∧ before = l₁.flatMap f ++ b₁ := by
  induction l generalizing before with
  | nil => exact absurd h (by simp)
  | cons a l ih =>
    -- the place is in the part of the head, or in the rest
    rw [flatMap_cons] at h
    rcases append_eq_append_iff.mp h with ⟨mid, rfl, hrest⟩ | ⟨mid, hhead, hrest⟩
    · obtain ⟨l₁, a', l₂, b₁, b₂, rfl, hpart, rfl⟩ := ih hrest
      exact ⟨a :: l₁, a', l₂, b₁, b₂, rfl, hpart, by simp⟩
    cases mid with
    | nil =>
      have hrest' : l.flatMap f = [] ++ x :: rest := by simpa using hrest.symm
      obtain ⟨l₁, a', l₂, b₁, b₂, rfl, hpart, hnil⟩ := ih hrest'
      refine ⟨a :: l₁, a', l₂, b₁, b₂, rfl, hpart, ?_⟩
      rw [flatMap_cons, append_assoc, ← hnil, hhead]
      simp
    | cons y mid =>
      obtain ⟨rfl, -⟩ := cons_eq_cons.mp hrest
      exact ⟨[], a, l, before, mid, rfl, hhead, by simp⟩

/-- Where a wave stands in the schedule: in the segment of its target, after the segments of the targets before it. -/
theorem schedule_split {before : List (Except BuildError Batch)}
    (h : schedule g plans = before ++ .ok batch :: rest) :
    ∃ earlier actions later found found', plans = earlier ++ (batch.target, actions) :: later ∧
      actionWaves g actions = .ok (found ++ batch.wave :: found') ∧
      before = schedule g earlier ++ found.map fun wave => .ok ⟨batch.target, wave⟩ := by
  obtain ⟨earlier, ⟨target, actions⟩, later, part, part', rfl, hpart, rfl⟩ := flatMap_eq_append_cons h
  unfold segment at hpart
  cases hwaves : actionWaves g actions with
  | error e =>
    rw [hwaves] at hpart
    cases part <;> simp at hpart
  | ok all =>
    rw [hwaves] at hpart
    obtain ⟨found, after, rfl, rfl, hafter⟩ := map_eq_append_iff.mp hpart
    obtain ⟨wave, found', rfl, hbatch, -⟩ := map_eq_cons_iff.mp hafter
    cases hbatch
    exact ⟨earlier, actions, later, found, found', rfl, hwaves, rfl⟩

def planOf (actionsOf : String → Except BuildError (List BuildAction)) (target : String) :
    Option (String × List BuildAction) :=
  match actionsOf target with
  | .ok (action :: actions) => some (target, action :: actions)
  | _ => none

theorem planOf_eq_some :
    planOf actionsOf target = some plan ↔ plan.1 = target ∧ actionsOf target = .ok plan.2 ∧ plan.2 ≠ [] := by
  unfold planOf
  cases hactions : actionsOf target with
  | error e => simp
  | ok actions => cases actions <;> grind

theorem planFrom_eq
    (h : planFrom actionsOf order = .ok plans) :
    (∀ target ∈ order, ∃ actions, actionsOf target = .ok actions) ∧ plans = order.filterMap (planOf actionsOf) := by
  induction order generalizing plans with
  | nil =>
    cases h
    exact ⟨by simp, rfl⟩
  | cons target order ih =>
    unfold planFrom at h
    split at h
    · cases h
    · next actions hactions =>
      split at h
      · cases h
      · next rest hrest =>
        cases h
        obtain ⟨hread, rfl⟩ := ih hrest
        refine ⟨forall_mem_cons.mpr ⟨⟨actions, hactions⟩, hread⟩, ?_⟩
        cases actions <;> simp [planOf, hactions]

end schedule

/-! ## What comes before a wave -/

variable {i : Nat}

section prerequisites

variable {g : Glob} {b : BuildCall} {plans : List (String × List BuildAction)}

theorem plans_order (h : b.plans = .ok plans) :
    ∃ order, b.graph.buildOrder b.requested = .ok order ∧ (∀ target ∈ order, ∃ actions, b.actionsOf target = .ok actions) ∧
      plans = order.filterMap (planOf b.actionsOf) := by
  unfold BuildCall.plans at h
  split at h
  · cases h
  · next order horder =>
    split at h
    · cases h
    · next plans' hplans =>
      split at h
      · cases h
      · cases h
        obtain ⟨hread, heq⟩ := planFrom_eq hplans
        exact ⟨order, horder, hread, heq⟩

theorem plans_dependency (h : b.plans = .ok plans) {earlier later : List (String × List BuildAction)}
    {actions : List BuildAction} (hsplit : plans = earlier ++ (target, actions) :: later) :
    b.actionsOf target = .ok actions ∧ ∀ d i, b.graph.DependsOn target d → b.HasAction d i →
      ∃ actions', (d, actions') ∈ earlier ∧ i < actions'.length := by
  obtain ⟨order, horder, -, rfl⟩ := plans_order h
  obtain ⟨front, back, rfl, rfl, hback⟩ := filterMap_eq_append_iff.mp hsplit
  obtain ⟨unplanned, target', after, rfl, hnone, hplan, -⟩ := filterMap_eq_cons_iff.mp hback
  obtain ⟨rfl, hactions, -⟩ := planOf_eq_some.mp hplan
  refine ⟨hactions, fun d i hd ⟨actions', hactions', hi⟩ => ⟨actions', ?_, hi⟩⟩
  have hplanned : planOf b.actionsOf d = some (d, actions') :=
    planOf_eq_some.mpr ⟨rfl, hactions', ne_nil_of_length_pos (Nat.zero_lt_of_lt hi)⟩
  have hbefore : d ∈ front ++ unplanned :=
    (BuildGraph.buildOrder_spec horder).1.path (by rw [append_assoc]) hd
  rcases mem_append.mp hbefore with hd | hd
  · exact mem_filterMap.mpr ⟨d, hd, hplanned⟩
  · exact absurd hplanned (by simp [hnone d hd])

theorem mem_schedule (hplan : plan ∈ plans)
    (hok : ∀ x ∈ schedule g plans, ∃ batch, x = .ok batch) (hi : i < plan.2.length) :
    ∃ wave, i ∈ wave ∧ .ok ⟨plan.1, wave⟩ ∈ schedule g plans := by
  cases hfound : actionWaves g plan.2 with
  | error e =>
    have hmem : .error e ∈ schedule g plans := mem_flatMap.mpr ⟨plan, hplan, by simp [segment, hfound]⟩
    obtain ⟨batch, hbatch⟩ := hok _ hmem
    cases hbatch
  | ok found =>
    obtain ⟨wave, hwave, hmem⟩ :=
      mem_flatten.mp ((actionWaves_ok hfound).perm.mem_iff.mpr (mem_range.mpr hi))
    refine ⟨wave, hmem, mem_flatMap.mpr ⟨plan, hplan, ?_⟩⟩
    simp only [segment, hfound]
    exact mem_map_of_mem hwave

theorem prerequisite_scheduled (hplans : b.plans = .ok plans)
    (h : schedule g plans = before.map .ok ++ .ok batch :: rest)
    (hi : i ∈ batch.wave) {first : String × Nat} (hfirst : b.Prerequisite g first (batch.target, i)) :
    ∃ earlier ∈ before, earlier.target = first.1 ∧ first.2 ∈ earlier.wave := by
  obtain ⟨earlier, actions, later, found, found', hsplit, hwaves, hbefore⟩ := schedule_split h
  obtain ⟨hactions, hdeps⟩ := plans_dependency hplans hsplit
  suffices hwaves : ∃ wave, (.ok ⟨first.1, wave⟩ : Except BuildError Batch) ∈ before.map .ok ∧ first.2 ∈ wave by
    obtain ⟨wave, hwave, hmem⟩ := hwaves
    obtain ⟨batch', hbatch', heq⟩ := mem_map.mp hwave
    cases heq
    exact ⟨_, hbatch', rfl, hmem⟩
  rcases hfirst with ⟨hdep, hhas⟩ | ⟨hsame, actions', hactions', hoverlap⟩
  · -- a dependency: its whole segment comes before the segment of the target
    obtain ⟨planned, hplanned, hlt⟩ := hdeps first.1 first.2 hdep hhas
    have hok : ∀ x ∈ schedule g earlier, ∃ batch, x = .ok batch := by
      intro x hx
      have hx' : x ∈ before.map .ok := hbefore ▸ mem_append_left _ hx
      obtain ⟨batch', -, rfl⟩ := mem_map.mp hx'
      exact ⟨batch', rfl⟩
    obtain ⟨wave, hmem, hwave⟩ := mem_schedule hplanned hok hlt
    exact ⟨wave, hbefore ▸ mem_append_left _ hwave, hmem⟩
  · -- the same target: its waves respect what overlaps
    cases hactions.symm.trans hactions'
    have hrespects := actionWaves_ok hwaves
    have hrange : first.2 < actions.length := by
      obtain ⟨-, producer, -, hproducer, -⟩ := hoverlap
      exact (List.getElem?_eq_some_iff.mp hproducer).1
    obtain ⟨wave, hwave, hmem⟩ := mem_flatten.mp (hrespects.perm.mem_iff.mpr (mem_range.mpr hrange))
    obtain ⟨k, hk⟩ := mem_iff_getElem?.mp hwave
    have hlt : k < found.length := hrespects.lt hk (by simp) hmem hi hoverlap
    have hfound : wave ∈ found := by
      rw [getElem?_append_left hlt] at hk
      exact mem_of_getElem? hk
    refine ⟨wave, ?_, hmem⟩
    rw [hbefore, hsame]
    exact mem_append_right _ (mem_map_of_mem hfound)

end prerequisites

/-! ## When a failure stops the build -/

/-- The wave comes up: it is scheduled, and nothing before it is an error. -/
def Reached (g : Glob) (b : BuildCall) (before : List Batch) (batch : Batch) : Prop :=
  ∃ plans rest, b.plans = .ok plans ∧ schedule g plans = before.map .ok ++ .ok batch :: rest ∧
    ∀ earlier ∈ before, Runs b.answers earlier

def Completes (g : Glob) (b : BuildCall) : Prop :=
  ∃ plans, b.plans = .ok plans ∧ ∀ x ∈ schedule g plans, ∃ batch, x = .ok batch ∧ Runs b.answers batch

/-- Nothing that a wave that comes up needs exits with an error, and neither does anything a target without actions of
    its own depends on, when its build completes. -/
structure Clear (g : Glob) (b : BuildCall) : Prop where
  reached : ∀ before batch, b.Reached g before batch → ∀ i ∈ batch.wave, ∀ first,
    b.Prerequisite g first (batch.target, i) → ¬ ExitsNonZero (b.answers first.1 first.2)
  bare : b.Completes g → b.actionsOf b.requested = .ok [] → ∀ target i, b.graph.DependsOn b.requested target →
    b.HasAction target i → ¬ ExitsNonZero (b.answers target i)

section stops

variable {g : Glob} {b : BuildCall}

theorem succeeded_iff {answer : Except BuildError ActionOutcome} :
    Succeeded answer ↔ (∃ outcome, answer = .ok outcome) ∧ ¬ ExitsNonZero answer := by
  cases answer with
  | error e => simp [Succeeded]
  | ok outcome => simp [Succeeded, ExitsNonZero, or_iff_not_imp_left]

theorem reached_iff : (∃ after, (b.execute g).1 = before ++ batch :: after) ↔ b.Reached g before batch := by
  unfold execute Reached
  cases hplans : b.plans with
  | error e => simp
  | ok plans =>
    simp only [(runPlans_eq g b.answers b.requested plans []).1, started_iff, Except.ok.injEq, existsAndEq, true_and]

theorem completes_iff : (∃ record, (b.execute g).2 = .ok record) ↔ b.Completes g := by
  unfold execute Completes
  cases hplans : b.plans with
  | error e => simp
  | ok plans =>
    simp only [(runPlans_eq g b.answers b.requested plans []).2, runSchedule_none, Except.ok.injEq, existsAndEq, true_and]

theorem Completes.requested_actions (h : b.Completes g) : ∃ actions, b.actionsOf b.requested = .ok actions := by
  obtain ⟨plans, hplans, -⟩ := h
  obtain ⟨order, horder, hread, -⟩ := plans_order hplans
  exact hread _ (BuildGraph.buildOrder_spec horder).2.2

theorem Completes.reached (h : b.Completes g) (htarget : target = b.requested ∨
    b.graph.DependsOn b.requested target) (hi : b.HasAction target i) :
    ∃ before wave, b.Reached g before ⟨target, wave⟩ ∧ i ∈ wave ∧ Runs b.answers ⟨target, wave⟩ := by
  obtain ⟨plans, hplans, hall⟩ := h
  obtain ⟨order, horder, -, hfilter⟩ := plans_order hplans
  have hin : target ∈ order := BuildGraph.mem_buildOrder horder htarget
  obtain ⟨actions, hactions, hlt⟩ := hi
  have hplan : (target, actions) ∈ plans := by
    rw [hfilter]
    exact mem_filterMap.mpr
      ⟨target, hin, planOf_eq_some.mpr ⟨rfl, hactions, ne_nil_of_length_pos (Nat.zero_lt_of_lt hlt)⟩⟩
  obtain ⟨wave, hwave, hscheduled⟩ := mem_schedule hplan (fun x hx => (hall x hx).imp fun _ h => h.1) hlt
  have hruns : ∀ batch, .ok batch ∈ schedule g plans → Runs b.answers batch := by
    intro batch hbatch
    obtain ⟨batch', heq, hruns⟩ := hall _ hbatch
    cases heq
    exact hruns
  obtain ⟨before, rest, hsplit⟩ := append_of_mem hscheduled
  have hbefore : before ∈ Set.range (List.map (Except.ok : Batch → Except BuildError Batch)) := by
    rw [Set.range_list_map]
    intro x hx
    obtain ⟨batch, rfl, -⟩ := hall x (hsplit ▸ mem_append_left _ hx)
    exact ⟨batch, rfl⟩
  obtain ⟨batches, rfl⟩ := hbefore
  refine ⟨batches, wave, ⟨plans, rest, hplans, hsplit, fun earlier hearlier => hruns earlier ?_⟩, hwave,
    hruns _ hscheduled⟩
  rw [hsplit]
  exact mem_append_left _ (mem_map_of_mem hearlier)

theorem execute_bare {record : BuildRecord} (hrecord : (b.execute g).2 = .ok record)
    (hbare : b.actionsOf b.requested = .ok []) : record.actions = [] := by
  unfold execute at hrecord
  cases hplans : b.plans with
  | error e =>
    rw [hplans] at hrecord
    cases hrecord
  | ok plans =>
    rw [hplans] at hrecord
    obtain ⟨order, -, -, rfl⟩ := plans_order hplans
    refine runPlans_record (fun plan hplan heq => ?_) hrecord
    obtain ⟨target, -, hplan⟩ := mem_filterMap.mp hplan
    obtain ⟨rfl, hactions, hne⟩ := planOf_eq_some.mp hplan
    rw [heq, hbare, Except.ok.injEq] at hactions
    exact hne hactions.symm

theorem failed_prerequisites_stop_the_build_iff (g : Glob) (b : BuildCall) : b.Stops g ↔ b.Clear g := by
  constructor
  · intro h
    refine ⟨fun before batch hreached i hi first hfirst => ?_, fun hcompletes hbare target i hdep hhas => ?_⟩
    · obtain ⟨after, hafter⟩ := reached_iff.mpr hreached
      exact (succeeded_iff.mp (h.started before batch after hafter i hi first hfirst).2).2
    · obtain ⟨record, hrecord⟩ := completes_iff.mpr hcompletes
      have hempty := execute_bare hrecord hbare
      exact (succeeded_iff.mp (h.recorded record hrecord (by simp [hempty]) target i hdep hhas)).2
  · intro h
    refine ⟨fun before batch after hafter i hi first hfirst => ?_, fun record hrecord _ target i hdep hhas => ?_⟩
    · have hreached := reached_iff.mp ⟨after, hafter⟩
      have hzero := h.reached before batch hreached i hi first hfirst
      -- what a wave that comes up needs has been run before it
      obtain ⟨plans, rest, hplans, hschedule, hruns⟩ := hreached
      obtain ⟨earlier, hearlier, htarget, hmem⟩ := prerequisite_scheduled hplans hschedule hi hfirst
      exact ⟨⟨earlier, hearlier, htarget, hmem⟩,
        succeeded_iff.mpr ⟨htarget ▸ hruns earlier hearlier first.2 hmem, hzero⟩⟩
    · have hcompletes := completes_iff.mp ⟨record, hrecord⟩
      obtain ⟨-, wave, -, hmem, hruns⟩ := hcompletes.reached (.inr hdep) hhas
      refine succeeded_iff.mpr ⟨hruns i hmem, ?_⟩
      obtain ⟨actions, hactions⟩ := hcompletes.requested_actions
      cases actions with
      | nil => exact h.bare hcompletes hactions target i hdep hhas
      | cons action actions =>
        -- the first action of the requested target has come up, and needs every action of its dependencies
        obtain ⟨before, own, hreached, hown, -⟩ := hcompletes.reached (.inl rfl) ⟨_, hactions, Nat.succ_pos _⟩
        exact h.reached before _ hreached 0 hown (target, i) (.inl ⟨hdep, hhas⟩)

end stops

/-- A library target whose bundling exits with 1, and an application that depends on it. -/
def failingLibrary : BuildCall where
  graph := AList.insert "app" ⟨["lib"], [pack], none⟩ (AList.insert "lib" ⟨[], [bundle], none⟩ ∅)
  requested := "app"
  mode := .compile
  toolRun _ := .ok ()
  answers target _ := .ok ⟨target, false, if target = "lib" then 1 else 0, [], "", ""⟩

/-- The application is packed after the library failed, and the record has nothing but success. -/
theorem a_failed_library_is_built_on :
    failingLibrary.execute oneStarGlob =
        ([⟨"lib", [0]⟩, ⟨"app", [0]⟩], .ok ⟨"app", [⟨"app", false, 0, [], "", ""⟩]⟩) ∧
      failingLibrary.graph.DependsOn "app" "lib" ∧ ¬ Succeeded (failingLibrary.answers "lib" 0) ∧
      ¬ failingLibrary.Stops oneStarGlob := by
  have hran : failingLibrary.execute oneStarGlob =
      ([⟨"lib", [0]⟩, ⟨"app", [0]⟩], .ok ⟨"app", [⟨"app", false, 0, [], "", ""⟩]⟩) := by rfl
  have hdep : failingLibrary.graph.DependsOn "app" "lib" := .single ⟨["lib"], rfl, by simp⟩
  have hfailed : ¬ Succeeded (failingLibrary.answers "lib" 0) := by
    show ¬ ((1 : Int) = 0 ∨ false = true)
    simp
  refine ⟨hran, hdep, hfailed, fun h => hfailed ?_⟩
  exact (h.started [⟨"lib", [0]⟩] ⟨"app", [0]⟩ [] (by rw [hran]; rfl) 0 (by simp) ("lib", 0)
    (.inl ⟨hdep, [bundle], rfl, by simp⟩)).2

end BuildCall

end TddyCoder.Build
