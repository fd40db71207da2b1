/-
  TddyCoder.SessionSync.Mirror — the directory a client keeps equal to a session's checkout
  (`packages/tddy-session-sync`: `mirror.rs`, `apply.rs`, `sync.rs`, `sync/delta.rs`,
  `sync/git.rs`).

  A patch is read as its sections; git may refuse it for reasons of its own, and does refuse it
  where a section does not find what it expects. `git apply` writes the working tree and nothing
  else. `git reset --hard` and `git read-tree -u --reset` rewrite the paths that were in the index
  or are in the tree they go to, and leave every other file where it is.
-/

import TddyCoder.SessionRoom.Poll
import TddyCoder.Tree.Patch

namespace TddyCoder.SessionSync

open TddyCoder.Tree
open SessionRoom (AgentActivityRecord noTick)

abbrev Checkout := Files String (List UInt8)

/-! ## What a broadcast provokes -/

inductive IgnoreReason where
  | noTickYet
  | alreadyApplied (seq lastSeq : Nat)
  | unaddressable (seq : Nat)
  deriving DecidableEq

inductive RecordDecision where
  | fetchDelta (callId : String) (seq : Nat)
  | ignore (reason : IgnoreReason)
  deriving DecidableEq

def decideRecord (record : AgentActivityRecord) (lastSeq : Nat) : RecordDecision :=
  if record.activitySeq = noTick then .ignore .noTickYet
  else if record.activitySeq ≤ lastSeq then .ignore (.alreadyApplied record.activitySeq lastSeq)
  else if record.callId = "" then .ignore (.unaddressable record.activitySeq)
  else .fetchDelta record.callId record.activitySeq

inductive WorktreeActivityKind where
  | unspecified
  | commit
  | filesChanged
  deriving DecidableEq

inductive WorktreeDecision where
  | reconcile
  | ignore
  deriving DecidableEq

def decideWorktree : WorktreeActivityKind → WorktreeDecision
  | .commit => .reconcile
  | .filesChanged | .unspecified => .ignore

structure Delta where
  seq : Nat
  prevSeq : Nat
  baseCommit : String
  patch : List (PatchSection String (List UInt8))
  deriving DecidableEq

inductive ReconcileReason where
  | sequenceGap (expected found : Nat)
  | baseCommitMismatch (expected found : String)
  | patchRejected (detail : String)
  deriving DecidableEq

inductive ApplyOutcome where
  | applied
  | alreadyApplied
  | needsReconcile (reason : ReconcileReason)
  deriving DecidableEq

inductive MirrorError where
  | notOwned (path : String)
  | foreignSession (path expectedSessionId foundSessionId : String)
  | git (command : String)
  deriving DecidableEq

/-! ## git in the mirror -/

inductive GitInvocation where
  /-- `git init --quiet`. -/
  | init
  /-- `git remote add origin <daemon>:<project>`. -/
  | remoteAdd
  /-- `git fetch origin +refs/tddy/session/<id>/wip:refs/tddy/wip`. -/
  | fetch
  /-- `git reset --hard refs/tddy/wip^`. -/
  | resetHard
  /-- `git read-tree -u --reset refs/tddy/wip`. -/
  | readTree
  deriving DecidableEq

inductive SyncError where
  | mirror (error : MirrorError)
  | git (command : GitInvocation)
  | rpc (method code message : String)
  deriving DecidableEq

def reconcileCommands : List GitInvocation := [.fetch, .resetHard, .readTree]

def firstAttachCommands : List GitInvocation := [.init, .remoteAdd] ++ reconcileCommands

structure Commit where
  id : String
  files : Checkout

/-- The WIP commit: the session's own commit is its parent. -/
structure Wip where
  parent : Commit
  files : Checkout

structure Repo where
  worktree : Checkout := fun _ => none
  index : Checkout := fun _ => none
  head : Option Commit := none
  /-- `refs/tddy/wip`. -/
  localWip : Option Wip := none

/-- One command in the mirror's directory; `remote` is what a fetch of the WIP ref brings. -/
def runGit (remote : Except SyncError Wip) (invocation : GitInvocation) (repo : Option Repo) :
    Except SyncError Unit × Option Repo :=
  match invocation, repo, remote with
  | .init, none, _ => (.ok (), some {})
  | .init, some repo, _ => (.ok (), some repo)
  | .remoteAdd, some repo, _ => (.ok (), some repo)
  | .fetch, some repo, .ok wip => (.ok (), some { repo with localWip := some wip })
  | .fetch, some repo, .error e => (.error e, some repo)
  | .resetHard, some repo, _ =>
    match repo.localWip with
    | some wip => (.ok (), some { repo with
        worktree := switched repo.index wip.parent.files repo.worktree
        index := wip.parent.files
        head := some wip.parent })
    | none => (.error (.git invocation), some repo)
  | .readTree, some repo, _ =>
    match repo.localWip with
    | some wip => (.ok (), some { repo with
        worktree := switched repo.index wip.files repo.worktree
        index := wip.files })
    | none => (.error (.git invocation), some repo)
  | _, none, _ => (.error (.git invocation), none)

def runAll (remote : Except SyncError Wip) : List GitInvocation → Option Repo → Except SyncError Unit × Option Repo
  | [], repo => (.ok (), repo)
  | command :: commands, repo =>
    match runGit remote command repo with
    | (.ok (), repo) => runAll remote commands repo
    | (.error e, repo) => (.error e, repo)

/-! ## The mirror -/

structure MirrorMarker where
  sessionId : String
  daemonInstanceId : String
  project : String
  lastSeq : Nat
  lastHeadCommit : String
  deriving DecidableEq

structure Mirror where
  dest : String
  marker : MirrorMarker
  /-- The repository in the destination, once there is one. -/
  repo : Option Repo

namespace Mirror

/-- `onDisk` is the mirror whose marker the destination carries, if it carries one. -/
def openOrCreate (dest : String) (onDisk : Option Mirror) (adoptable : Bool) (marker : MirrorMarker) :
    Except MirrorError Mirror :=
  match onDisk with
  | some persisted =>
    if persisted.marker.sessionId ≠ marker.sessionId then
      .error (.foreignSession dest marker.sessionId persisted.marker.sessionId)
    else .ok persisted
  | none => if !adoptable then .error (.notOwned dest) else .ok ⟨dest, marker, none⟩

variable (m : Mirror)

def headCommit : Except MirrorError String :=
  match m.repo.bind (·.head) with
  | some commit => .ok commit.id
  | none => .error (.git "rev-parse HEAD")

def worktree (m : Mirror) : Checkout := (m.repo.map (·.worktree)).getD fun _ => none

/-- What git makes of a patch whose sections all find what they expect. -/
structure GitApply where
  accepts : Bool := true
  applies : Bool := true
  stderr : String := ""

def advanced (delta : Delta) : Mirror :=
  { m with
    repo := m.repo.map fun repo => { repo with worktree := patched delta.patch repo.worktree }
    marker := { m.marker with lastSeq := delta.seq } }

def apply (m : Mirror) (delta : Delta) (git : GitApply) : Except MirrorError ApplyOutcome × Mirror :=
  if delta.seq ≤ m.marker.lastSeq then (.ok .alreadyApplied, m)
  else if delta.prevSeq ≠ m.marker.lastSeq then
    (.ok (.needsReconcile (.sequenceGap (m.marker.lastSeq + 1) delta.seq)), m)
  else match m.headCommit with
    | .error e => (.error e, m)
    | .ok head =>
      if delta.baseCommit ≠ head then (.ok (.needsReconcile (.baseCommitMismatch head delta.baseCommit)), m)
      else if !(git.accepts && fits delta.patch m.worktree) then
        (.ok (.needsReconcile (.patchRejected git.stderr)), m)
      else if !git.applies then (.error (.git "apply"), m)
      else (.ok .applied, m.advanced delta)

def recordRestored (appliedSeq : Nat) : Except MirrorError Unit × Mirror :=
  match m.headCommit with
  | .error e => (.error e, m)
  | .ok head => (.ok (), { m with marker := { m.marker with lastHeadCommit := head, lastSeq := appliedSeq } })

/-- Run the commands, then record how far the restore is known to reach. -/
def restoreBy (commands : List GitInvocation) (appliedSeq : Nat) (remote : Except SyncError Wip) :
    Except SyncError Unit × Mirror :=
  match runAll remote commands m.repo with
  | (.error e, repo) => (.error e, { m with repo := repo })
  | (.ok (), repo) =>
    match recordRestored { m with repo := repo } appliedSeq with
    | (.error e, m) => (.error (.mirror e), m)
    | (.ok (), m) => (.ok (), m)

def reconcile (appliedSeq : Nat) (remote : Except SyncError Wip) : Except SyncError Unit × Mirror :=
  m.restoreBy reconcileCommands appliedSeq remote

def firstAttachIfEmpty (remote : Except SyncError Wip) : Except SyncError Unit × Mirror :=
  if m.repo.isSome then (.ok (), m)
  else m.restoreBy firstAttachCommands m.marker.lastSeq remote

inductive Handled where
  | ignored (reason : IgnoreReason)
  | applied (seq : Nat)
  | alreadyApplied (seq : Nat)
  | reconciled (reason : ReconcileReason)

/-- A record from the room: `fetched` is what the daemon answers for its call's delta. -/
def onActivity (record : AgentActivityRecord) (fetched : Except SyncError Delta) (git : GitApply)
    (remote : Except SyncError Wip) : Except SyncError Handled × Mirror :=
  match decideRecord record m.marker.lastSeq with
  | .ignore reason => (.ok (.ignored reason), m)
  | .fetchDelta _ seq =>
    match fetched with
    | .error e => (.error e, m)
    | .ok delta =>
      match m.apply delta git with
      | (.error e, m) => (.error (.mirror e), m)
      | (.ok .applied, m) => (.ok (.applied delta.seq), m)
      | (.ok .alreadyApplied, m) => (.ok (.alreadyApplied delta.seq), m)
      | (.ok (.needsReconcile reason), m) =>
        match m.reconcile seq remote with
        | (.error e, m) => (.error e, m)
        | (.ok (), m) => (.ok (.reconciled reason), m)

def onWorktree (kind : WorktreeActivityKind) (remote : Except SyncError Wip) :
    Except SyncError Bool × Mirror :=
  match decideWorktree kind with
  | .ignore => (.ok false, m)
  | .reconcile =>
    match m.reconcile m.marker.lastSeq remote with
    | (.error e, m) => (.error e, m)
    | (.ok (), m) => (.ok true, m)

end Mirror

/-! ## What the operations do -/

variable {record : AgentActivityRecord}

theorem decideRecord_fetch {lastSeq seq : Nat} {callId : String}
    (h : decideRecord record lastSeq = .fetchDelta callId seq) :
    seq = record.activitySeq ∧ lastSeq < record.activitySeq := by
  unfold decideRecord at h
  by_cases hnone : record.activitySeq = noTick
  · simp [hnone] at h
  by_cases hseen : record.activitySeq ≤ lastSeq
  · simp [hnone, hseen] at h
  by_cases haddress : record.callId = ""
  · simp [hnone, hseen, haddress] at h
  · simp [hnone, hseen, haddress] at h
    exact ⟨h.2.symm, Nat.not_le.mp hseen⟩

theorem decideRecord_seen {lastSeq seq last : Nat}
    (h : decideRecord record lastSeq = .ignore (.alreadyApplied seq last)) :
    seq = record.activitySeq ∧ noTick < record.activitySeq ∧ record.activitySeq ≤ lastSeq := by
  unfold decideRecord at h
  by_cases hnone : record.activitySeq = noTick
  · simp [hnone] at h
  by_cases hseen : record.activitySeq ≤ lastSeq
  · simp [hnone, hseen] at h
    exact ⟨h.1.symm, Nat.pos_of_ne_zero hnone, hseen⟩
  · by_cases haddress : record.callId = "" <;> simp [hnone, hseen, haddress] at h

/-- The repository with the WIP state restored into it. -/
def Repo.restored (repo : Repo) (wip : Wip) : Repo where
  worktree := switched wip.parent.files wip.files (switched repo.index wip.parent.files repo.worktree)
  index := wip.files
  head := some wip.parent
  localWip := some wip

/-- Every file of the working tree is in the index, the WIP commit's parent or the WIP tree. -/
def Repo.Accounted (repo : Repo) (wip : Wip) : Prop :=
  ∀ path, repo.worktree path ≠ none → repo.index path = none → wip.parent.files path = none → wip.files path ≠ none

namespace Mirror

def restored (m : Mirror) (repo : Repo) (wip : Wip) (appliedSeq : Nat) : Mirror :=
  { m with
    repo := some (repo.restored wip)
    marker := { m.marker with lastHeadCommit := wip.parent.id, lastSeq := appliedSeq } }

variable {m : Mirror}

theorem reconcile_eq {repo : Repo} (h : m.repo = some repo) (appliedSeq : Nat)
    (remote : Except SyncError Wip) : m.reconcile appliedSeq remote = match remote with
      | .error e => (.error e, m)
      | .ok wip => (.ok (), m.restored repo wip appliedSeq) := by
  obtain ⟨dest, marker, repo⟩ := m
  cases h
  cases remote <;> rfl

theorem reconcile_none (h : m.repo = none) (appliedSeq : Nat) (remote : Except SyncError Wip) :
    ∃ e, m.reconcile appliedSeq remote = (.error e, m) := by
  obtain ⟨dest, marker, repo⟩ := m
  cases h
  cases remote <;> exact ⟨_, rfl⟩

def refuses (m : Mirror) (delta : Delta) (git : GitApply) : Bool :=
  delta.prevSeq ≠ m.marker.lastSeq || match m.headCommit with
    | .error _ => false
    | .ok head => delta.baseCommit ≠ head || !(git.accepts && fits delta.patch m.worktree)

theorem headCommit_ok {head : String} (h : m.headCommit = .ok head) :
    ∃ repo commit, m.repo = some repo ∧ repo.head = some commit := by
  unfold headCommit at h
  rcases hrepo : m.repo with _ | repo
  · rw [hrepo] at h
    cases h
  rw [hrepo] at h
  rcases hhead : repo.head with _ | commit
  · simp [hhead] at h
  · exact ⟨repo, commit, rfl, hhead⟩

theorem apply_cases (m : Mirror) (delta : Delta) (git : GitApply) :
    (delta.seq ≤ m.marker.lastSeq ∧ m.apply delta git = (.ok .alreadyApplied, m)) ∨
    (m.refuses delta git = true ∧ ∃ reason, m.apply delta git = (.ok (.needsReconcile reason), m)) ∨
    (∃ e, m.apply delta git = (.error e, m)) ∨
    (∃ repo commit, m.repo = some repo ∧ repo.head = some commit ∧ delta.prevSeq = m.marker.lastSeq ∧
      m.apply delta git = (.ok .applied, m.advanced delta)) := by
  unfold apply refuses
  by_cases hseen : delta.seq ≤ m.marker.lastSeq
  · exact .inl ⟨hseen, by rw [if_pos hseen]⟩
  rw [if_neg hseen]
  by_cases hgap : delta.prevSeq = m.marker.lastSeq
  · rw [if_neg (not_not_intro hgap)]
    rcases hhead : m.headCommit with e | head
    · exact .inr (.inr (.inl ⟨e, rfl⟩))
    by_cases hbase : delta.baseCommit = head
    · rcases hfits : git.accepts && fits delta.patch m.worktree with _ | _
      · exact .inr (.inl ⟨by simp, _, by simp [hbase]; rfl⟩)
      rcases happlies : git.applies with _ | _
      · exact .inr (.inr (.inl ⟨_, by simp [hbase]; rfl⟩))
      · obtain ⟨repo, commit, hrepo, hcommit⟩ := headCommit_ok hhead
        exact .inr (.inr (.inr ⟨repo, commit, hrepo, hcommit, hgap, by simp [hbase]⟩))
    · exact .inr (.inl ⟨by simp [hbase], _, by simp [hbase]; rfl⟩)
  · exact .inr (.inl ⟨by simp [hgap], _, by rw [if_pos hgap]⟩)

end Mirror

end TddyCoder.SessionSync
