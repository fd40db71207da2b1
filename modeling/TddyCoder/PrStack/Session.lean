/-
  TddyCoder.PrStack.Session — the files and services the stack operations work on
  (`packages/tddy-changeset/src/changeset/io.rs`, `update_stack_atomic` of `stack.rs`,
  `GithubPrApi` of `packages/tddy-github`).

  Every call that leaves the process takes one entry of `faults`: a message there makes the call
  fail with it, and past the end of the list every call succeeds. So an operation run under every
  list is run under every mix of failures. A failed write leaves the file as it was.
-/

import TddyCoder.PrStack.Stack
import TddyCoder.Prog.Ensures

namespace TddyCoder.PrStack

open Prog

structure OpenPr where
  number : Nat
  headBranch : String
  baseBranch : String
  deriving DecidableEq

structure World where
  changeset : Option Changeset
  sessionDir : String := ""
  /-- The sessions tree: `<sessions root>/sessions/<id>/changeset.yaml`. -/
  sessions : String → Option Changeset := fun _ => none
  sessionsRoot : String := ""
  /-- Whether a session's directory is the orchestrator's own, by path or by canonical path. -/
  isOwnSession : String → Bool := fun _ => false
  /-- The nodes with a `.workflow/spawn-request-<node id>.json` in the session's directory. -/
  spawnRequests : List String := []
  openPrs : List OpenPr := []
  localBranches : List String := []
  /-- What the next calls outside the process answer: a failure, or none. -/
  faults : List (Option String) := []

namespace World

def stack (w : World) : Stack := (w.changeset.bind (·.stack)).getD {}

end World

variable {ε α : Type}

/-- One call outside the process: it uses up an outcome, and happens when that is no failure. -/
def call (onFault : String → ε) (act : World → Except ε α × World) : Prog World ε α := fun w =>
  match w.faults with
  | [] => act w
  | none :: rest => act { w with faults := rest }
  | some e :: rest => (.error (onFault e), { w with faults := rest })

def notFound (dir : String) : WorkflowError :=
  .changesetMissing ("changeset.yaml not found in " ++ dir ++ " — run the plan goal first")

def readChangeset : Prog World WorkflowError Changeset :=
  call .changesetInvalid fun w =>
    match w.changeset with
    | none => (.error (notFound w.sessionDir), w)
    | some changeset => (.ok changeset, w)

def writeChangesetAtomic (changeset : Changeset) : Prog World WorkflowError Unit :=
  call .writeFailed fun w => (.ok (), { w with changeset := some changeset })

def readSession (sessionId : String) : Prog World WorkflowError Changeset :=
  call .changesetInvalid fun w =>
    match w.sessions sessionId with
    | none => (.error (notFound (w.sessionsRoot ++ "/sessions/" ++ sessionId)), w)
    | some changeset => (.ok changeset, w)

/-- The closure on a changeset's stack, `get_or_insert_with(Stack::default)`. -/
def Changeset.updateStack (c : Changeset) (f : Stack → α × Stack) : α × Changeset :=
  ((f (c.stack.getD {})).1, { c with stack := some (f (c.stack.getD {})).2 })

def updateStackAtomic (f : Stack → α × Stack) : Prog World WorkflowError α := do
  let changeset ← readChangeset
  writeChangesetAtomic (changeset.updateStack f).2
  pure (changeset.updateStack f).1

def silent (f : Stack → Stack) : Stack → Unit × Stack := fun s => ((), f s)

def getOpenPr (branch : String) : Prog World String (Option OpenPr) :=
  call id fun w => (.ok (w.openPrs.find? (·.headBranch == branch)), w)

def OpenPr.retarget (number : Nat) (base : String) (pr : OpenPr) : OpenPr :=
  if pr.number = number then { pr with baseBranch := base } else pr

def patchPrBase (number : Nat) (base : String) : Prog World String Unit :=
  call id fun w => (.ok (), { w with openPrs := w.openPrs.map (OpenPr.retarget number base) })

def rebaseOnto : Prog World ε (Option String) := fun w =>
  match w.faults with
  | [] => (.ok none, w)
  | outcome :: rest => (.ok outcome, { w with faults := rest })

def readStack (op : String) : Prog World String Stack := do
  let changeset ← mapErr (fun e => op ++ ": failed to read changeset: " ++ e.display) readChangeset
  pure (changeset.stack.getD {})

/-- How an operation writes: it checks the stack it read, then runs its closure, with what the check
    answered, on the stack as it is when the file is read again. -/
def checkedUpdate {β γ : Type} (op writeFailed : String) (chk : Stack → Except String β)
    (f : β → Stack → γ × Stack) : Prog World String (β × γ) := do
  let s ← readStack op
  let b ← check (chk s)
  let c ← mapErr (fun e => op ++ ": " ++ writeFailed ++ ": " ++ e.display) (updateStackAtomic (f b))
  pure (b, c)

/-! ## What each call can do -/

/-- Only faults have been used up. -/
def World.After (w w' : World) : Prop := ∃ faults, w' = { w with faults := faults }

theorem World.After.refl (w : World) : w.After w := ⟨w.faults, rfl⟩

variable {w w' : World} {act : World → Except ε α × World} {onFault : String → ε} {s : Stack}

theorem World.After.trans {w'' : World} (h : w.After w') (h' : w'.After w'') : w.After w'' := by
  obtain ⟨_, rfl⟩ := h
  obtain ⟨faults, rfl⟩ := h'
  exact ⟨faults, rfl⟩

theorem World.After.changeset (h : w.After w') : w'.changeset = w.changeset := by
  obtain ⟨_, rfl⟩ := h
  rfl

theorem World.After.stack (h : w.After w') : w'.stack = w.stack := by
  obtain ⟨_, rfl⟩ := h
  rfl

theorem ensures_call
    {Q : Except ε α → World → Prop} (herr : ∀ e w', w.After w' → Q (.error (onFault e)) w')
    (hact : ∀ w', w.After w' → Q (act w').1 (act w').2) : Ensures (call onFault act) w Q := by
  show Q (call onFault act w).1 (call onFault act w).2
  unfold call
  split
  · exact hact w (World.After.refl w)
  · exact hact _ ⟨_, rfl⟩
  · exact herr _ _ ⟨_, rfl⟩

theorem exec_call (hf : w.faults = []) :
    exec (call onFault act) w = act w := by
  show call onFault act w = act w
  unfold call
  rw [hf]

theorem readChangeset_ensures (w : World) : Ensures readChangeset w fun r w' =>
    w.After w' ∧ ∀ c, r = .ok c → w.changeset = some c := by
  refine ensures_call (fun e w' h => ⟨h, fun c hc => by cases hc⟩) fun w' h => ?_
  split
  · exact ⟨h, fun c hc => by cases hc⟩
  rename_i c hc
  refine ⟨h, fun c' hc' => ?_⟩
  cases hc'
  rw [← h.changeset, hc]

theorem writeChangesetAtomic_ensures (c : Changeset) (w : World) : Ensures (writeChangesetAtomic c) w fun r w' =>
    match r with
    | .ok _ => World.After { w with changeset := some c } w'
    | .error _ => w.After w' := by
  refine ensures_call (fun _ _ h => h) fun w' h => ?_
  obtain ⟨faults, rfl⟩ := h
  exact ⟨faults, rfl⟩

theorem readSession_ensures (id : String) (w : World) : Ensures (readSession id) w fun r w' =>
    w.After w' ∧ ∀ c, r = .ok c → w.sessions id = some c := by
  refine ensures_call (fun e w' h => ⟨h, fun c hc => by cases hc⟩) fun w' h => ?_
  split
  · exact ⟨h, fun c hc => by cases hc⟩
  rename_i c hc
  obtain ⟨faults, rfl⟩ := h
  refine ⟨⟨faults, rfl⟩, fun c' hc' => ?_⟩
  cases hc'
  exact hc

/-- A failed update leaves the changeset as it was; one that answers has stored the
    closure's result on the stored stack, and nothing else. -/
theorem updateStackAtomic_ensures (f : Stack → α × Stack) (w : World) : Ensures (updateStackAtomic f) w fun r w' =>
    match r with
    | .ok a => ∃ c, w.changeset = some c ∧ a = (f w.stack).1 ∧
        World.After { w with changeset := some { c with stack := some (f w.stack).2 } } w'
    | .error _ => w.After w' := by
  refine ensures_bind (readChangeset_ensures w) ?_ ?_
  · intro c w₁ h
    have hc := h.2 c rfl
    have hs : c.stack.getD {} = w.stack := by simp [World.stack, hc]
    refine ensures_bind (writeChangesetAtomic_ensures _ w₁) ?_ ?_
    · intro _ w₂ h₂
      obtain ⟨faults, rfl⟩ := h.1
      obtain ⟨faults', rfl⟩ := h₂
      refine ensures_pure ⟨c, hc, ?_, faults', ?_⟩
      · simp only [Changeset.updateStack, hs]
      · simp only [Changeset.updateStack, hs]
    · intro e w₂ h₂
      exact h.1.trans h₂
  · intro e w₁ h
    exact h.1

theorem readStack_ensures (op : String) (w : World) : Ensures (readStack op) w fun r w' =>
    w.After w' ∧ ∀ s, r = .ok s → s = w.stack := by
  refine ensures_bind (ensures_mapErr (readChangeset_ensures w) ?_ ?_) ?_ ?_
    (R := fun r w' => w.After w' ∧ ∀ c, r = .ok c → w.changeset = some c)
  · intro c w' h
    exact ⟨h.1, fun c' hc => h.2 c' (by cases hc; rfl)⟩
  · intro e w' h
    exact ⟨h.1, fun c hc => by cases hc⟩
  · intro c w' h
    refine ensures_pure ⟨h.1, fun s hs => ?_⟩
    cases hs
    simp [World.stack, h.2 c rfl]
  · intro e w' h
    exact ⟨h.1, fun s hs => by cases hs⟩

theorem rebaseOnto_ensures (w : World) : Ensures (rebaseOnto : Prog World ε (Option String)) w fun _ w' =>
    w.After w' := by
  show w.After (rebaseOnto w).2
  unfold rebaseOnto
  split
  · exact World.After.refl w
  · exact ⟨_, rfl⟩

def World.Stored (w : World) (s : Stack) (w' : World) : Prop :=
  ∃ c, w.changeset = some c ∧ World.After { w with changeset := some { c with stack := some s } } w'

theorem World.Stored.stack (h : w.Stored s w') : w'.stack = s := by
  obtain ⟨c, -, h⟩ := h
  rw [h.stack]
  rfl

theorem World.Stored.after {w₁ : World} (h : w.After w₁) (h' : w₁.Stored s w') : w.Stored s w' := by
  obtain ⟨faults, rfl⟩ := h
  obtain ⟨c, hc, faults', rfl⟩ := h'
  exact ⟨c, hc, faults', rfl⟩

/-- A checked update stores its closure's result on the stored stack, which passed the check; a
    failed one stores nothing. -/
theorem checkedUpdate_ensures {β γ : Type} (op writeFailed : String) (chk : Stack → Except String β)
    (f : β → Stack → γ × Stack) (w : World) : Ensures (checkedUpdate op writeFailed chk f) w fun r w' =>
    match r with
    | .ok (b, c) => chk w.stack = .ok b ∧ c = (f b w.stack).1 ∧ w.Stored (f b w.stack).2 w'
    | .error _ => w.After w' := by
  refine ensures_bind (readStack_ensures op w) ?_ fun e w₁ h => h.1
  intro s w₁ h
  cases h.2 s rfl
  refine ensures_bind (R := fun r w' => chk w.stack = r ∧ w.After w') (ensures_check ⟨rfl, h.1⟩) ?_
    fun e w₂ h₂ => h₂.2
  intro b w₂ h₂
  refine ensures_bind (ensures_mapErr (updateStackAtomic_ensures (f b) w₂) (fun _ _ h => h) ?_) ?_ ?_
    (R := fun r w' => match r with
      | .ok a => ∃ c, w₂.changeset = some c ∧ a = (f b w₂.stack).1 ∧
          World.After { w₂ with changeset := some { c with stack := some (f b w₂.stack).2 } } w'
      | .error _ => w₂.After w')
  · exact fun _ _ h => h
  · intro a w₃ h₃
    obtain ⟨c, hc, ha, hs⟩ := h₃
    rw [h₂.2.stack] at ha hs
    exact ensures_pure ⟨h₂.1, ha, World.Stored.after h₂.2 ⟨c, hc, hs⟩⟩
  · intro e w₃ h₃
    exact h₂.2.trans h₃

theorem checkedUpdate_run {β γ : Type} {op writeFailed : String} {chk : Stack → Except String β}
    {f : β → Stack → γ × Stack} {c : Changeset} {b : β} (hf : w.faults = []) (hc : w.changeset = some c)
    (hb : chk w.stack = .ok b) :
    exec (checkedUpdate op writeFailed chk f) w =
      (.ok (b, (f b w.stack).1), { w with changeset := some { c with stack := some (f b w.stack).2 } }) := by
  have hs : c.stack.getD {} = w.stack := by simp [World.stack, hc]
  have hread : exec readChangeset w = (.ok c, w) := by
    refine (exec_call hf).trans ?_
    simp only [hc]
  have hwrite : ∀ c', exec (writeChangesetAtomic c') w = (.ok (), { w with changeset := some c' }) :=
    fun c' => exec_call hf
  have hstack : exec (readStack op) w = (.ok w.stack, w) := by
    unfold readStack
    rw [exec_bind, exec_mapErr, hread]
    simp [hs]
  have hupdate : exec (updateStackAtomic (f b)) w =
      (.ok (f b w.stack).1, { w with changeset := some { c with stack := some (f b w.stack).2 } }) := by
    unfold updateStackAtomic
    rw [exec_bind_ok hread, exec_bind_ok (hwrite _)]
    simp [Changeset.updateStack, hs]
  unfold checkedUpdate
  rw [exec_bind_ok hstack, exec_bind, exec_check, hb]
  simp only
  rw [exec_bind, exec_mapErr, hupdate]
  rfl

/-! ## Programs whose writes are steps of a relation -/

def World.Leads (E : Stack → Stack → Prop) (w w' : World) : Prop := Relation.ReflTransGen E w.stack w'.stack

section Leads

variable {E : Stack → Stack → Prop}

instance : Std.Refl (World.Leads E) := ⟨fun _ => .refl⟩

instance : IsTrans World (World.Leads E) := ⟨fun _ _ _ h h' => h.trans h'⟩

theorem leads_of_after (h : w.After w') : w.Leads E w' := by
  unfold World.Leads
  rw [h.stack]

theorem leads_readChangeset : Within (World.Leads E) readChangeset :=
  fun w => leads_of_after (readChangeset_ensures w).1

theorem leads_rebaseOnto : Within (World.Leads E) (rebaseOnto : Prog World ε (Option String)) :=
  fun w => leads_of_after (rebaseOnto_ensures w)

theorem leads_getOpenPr (branch : String) : Within (World.Leads E) (getOpenPr branch) :=
  fun _ => leads_of_after (ensures_call (Q := fun _ w' => World.After _ w') (fun _ _ h => h) fun _ h => h)

theorem leads_patchPrBase (number : Nat) (base : String) : Within (World.Leads E) (patchPrBase number base) := by
  intro w
  have h : (exec (patchPrBase number base) w).2.stack = w.stack :=
    ensures_call (Q := fun _ w' => w'.stack = w.stack) (fun _ _ h => h.stack) fun w' h => h.stack
  unfold World.Leads
  rw [h]

theorem leads_updateStackAtomic {f : Stack → α × Stack} (h : ∀ s, E s (f s).2) :
    Within (World.Leads E) (updateStackAtomic f) := by
  intro w
  have hu := updateStackAtomic_ensures f w
  simp only [Ensures] at hu
  split at hu
  · obtain ⟨c, hc, -, hs⟩ := hu
    refine .single ?_
    rw [World.Stored.stack ⟨c, hc, hs⟩]
    exact h w.stack
  · exact leads_of_after hu

theorem leads_checkedUpdate {β γ : Type} {op writeFailed : String} {chk : Stack → Except String β}
    {f : β → Stack → γ × Stack} (h : ∀ s b, chk s = .ok b → E s (f b s).2) :
    Within (World.Leads E) (checkedUpdate op writeFailed chk f) := by
  intro w
  have hu := checkedUpdate_ensures op writeFailed chk f w
  simp only [Ensures] at hu
  split at hu
  · obtain ⟨hb, -, hs⟩ := hu
    refine .single ?_
    rw [hs.stack]
    exact h w.stack _ hb
  · exact leads_of_after hu

end Leads

end TddyCoder.PrStack
