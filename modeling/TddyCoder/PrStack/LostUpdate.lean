/-
  TddyCoder.PrStack.LostUpdate — concurrent `update_stack_atomic` calls at the level of the
  file (`packages/tddy-changeset/src/changeset/{stack,io}.rs`).

  `update_stack_atomic` reads the changeset, applies its closure to the stack in memory and
  renames a new file into place: two atomic steps with nothing between them that notices
  another writer. `link_stack_node_to_child_session` is one such call. What a call holds
  between its steps is the changeset it read, and what it writes depends on nothing else;
  a call whose read or write fails writes nothing.

  Proved: `run_serializable`, of runs in which no call writes over another; else `links_lost`.
-/

import Mathlib.Data.List.Permutation
import TddyCoder.Concurrency.CheckThenAct
import TddyCoder.PrStack.Session

namespace TddyCoder.PrStack

open Concurrency Prog

/-- The closure of `link_stack_node_to_child_session`. -/
def linkChild (nodeId childSessionId : String) (branch : Option String) (s : Stack) : Stack :=
  s.modifyNode nodeId fun n => { n with sessionId := some childSessionId, branch := branch <|> n.branch }

inductive StackWrite where
  | update (f : Stack → Stack)
  | link (nodeId childSessionId : String) (branch : Option String)

def StackWrite.closure : StackWrite → Stack → Stack
  | .update f => f
  | .link nodeId childSessionId branch => linkChild nodeId childSessionId branch

variable (k : StackWrite) (c : Changeset)

def StackWrite.rewrite : Changeset := (c.updateStack (silent k.closure)).2

def readFile (_ : StackWrite) (file : Option Changeset) : Option Changeset := file

/-- `write_changeset_atomic` of what was read and changed, whatever the file is by then. -/
def writeFile (_ : Option Changeset) : Option Changeset := some (k.rewrite c)

def StackWrite.apply (file : Option Changeset) : Option Changeset := file.map k.rewrite

/-- Calls in any interleaving, a write only where `ok` holds. -/
def FileRun (ok : Changeset → Option Changeset → Prop) (file₀ : Option Changeset)
    (st : Shared (Option Changeset) StackWrite Changeset) : Prop :=
  Run readFile writeFile (fun _ c file => ok c file) (.start file₀) st

/-- The file is what the call read. -/
def Unchanged (file : Option Changeset) : Prop := file = some c

/-- The stored stack is what the calls that wrote leave one after another, in some order. -/
def Serializable (file₀ : Option Changeset) (st : Shared (Option Changeset) StackWrite Changeset) : Prop :=
  ∃ order, order.Perm st.done ∧
    st.stored.bind (·.stack) = (replay StackWrite.apply file₀ order).bind (·.stack)

/-! ## Alone -/

theorem updateStackAtomic_halves {w : World} (hf : w.faults = []) :
    (exec (updateStackAtomic (silent k.closure)) w).2.changeset =
      ((readFile k w.changeset).bind fun c => writeFile k c w.changeset) := by
  unfold updateStackAtomic
  cases hc : w.changeset with
  | none =>
    have hread : exec readChangeset w = (.error (notFound w.sessionDir), w) := by
      show readChangeset w = _
      simp [readChangeset, call, hf, hc]
    rw [exec_bind_error hread]
    simp [readFile, hc]
  | some c =>
    have hread : exec readChangeset w = (.ok c, w) := by
      show readChangeset w = _
      simp [readChangeset, call, hf, hc]
    have hwrite : ∀ c', exec (writeChangesetAtomic c') w = (.ok (), { w with changeset := some c' }) := by
      intro c'
      show writeChangesetAtomic c' w = _
      simp [writeChangesetAtomic, call, hf]
    rw [exec_bind_ok hread, exec_bind_ok (hwrite _)]
    rfl

/-! ## Together -/

theorem writeFile_eq_apply {k : StackWrite} {c : Changeset} {file : Option Changeset} (h : Unchanged c file) :
    writeFile k c file = k.apply file := by
  rw [h]
  rfl

/-- If no other write comes between a call's read and its write, no update is lost. -/
theorem run_serializable {file₀ : Option Changeset} {st : Shared (Option Changeset) StackWrite Changeset}
    (h : FileRun Unchanged file₀ st) : Serializable file₀ st := by
  have hreplay : st.stored = replay StackWrite.apply file₀ st.done :=
    run_replays (fun _ _ _ hok => writeFile_eq_apply hok) h
  exact ⟨st.done, List.Perm.refl _, by rw [hreplay]⟩

def twoPlanned : Changeset :=
  let planned := fun id => StackNode.mk id "" "" none none none [] none none none none
  { stack := some ⟨1, [planned "n1", planned "n2"]⟩ }

theorem serializable_one_after_another : Serializable (some twoPlanned)
    ⟨some ((StackWrite.link "n2" "child-2" none).rewrite ((StackWrite.link "n1" "child-1" none).rewrite twoPlanned)), [],
      [.link "n1" "child-1" none, .link "n2" "child-2" none]⟩ := by
  exact run_serializable (run_in_turn rfl rfl rfl rfl)

/-- Links of the two nodes that read the same file: the later write puts back the first node unlinked. -/
theorem links_lost :
    ¬ ∀ file₀ st, FileRun (fun _ _ => True) file₀ st → st.held = [] → Serializable file₀ st := by
  intro h
  let link₁ : StackWrite := .link "n1" "child-1" none
  let link₂ : StackWrite := .link "n2" "child-2" none
  have hrun : FileRun (fun _ _ => True) (some twoPlanned) ⟨some (link₂.rewrite twoPlanned), [], [link₁, link₂]⟩ :=
    run_crossed rfl rfl trivial trivial
  obtain ⟨order, hperm, hstack⟩ := h _ _ hrun rfl
  -- either order leaves the first node linked
  rcases List.perm_pair.mp hperm with rfl | rfl <;> exact absurd hstack (by decide)

end TddyCoder.PrStack
