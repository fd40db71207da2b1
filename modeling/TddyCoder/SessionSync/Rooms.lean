/-
  TddyCoder.SessionSync.Rooms — a session's rooms and the mirror that follows them: rooms
  open and close, a client process starts, stops and hears what is broadcast
  (`packages/tddy-session-sync/src/sync.rs` over `TddyCoder.SessionSync.Mirror`,
  `SessionDeltaStores` of `packages/tddy-daemon-livekit/src/session_delta_stores.rs`).

  Every room numbers its ticks from 1. A broadcast is any record stamped with a tick the open room
  has recorded, delivered at any time, any number of times or never. Ghost state (`Copy`): what
  the mirror holds of each room, and the room whose numbering `last_seq` was last recorded in.
-/

import Mathlib.Order.Nat
import TddyCoder.SessionSync.Mirror

namespace TddyCoder.SessionSync

open TddyCoder.Tree
open SessionRoom (AgentActivityRecord noTick firstTick)

structure SessionAddress where
  sessionId : String
  daemonInstanceId : String
  projectId : String

def Mirror.syncerOpen (dest : String) (address : SessionAddress) (onDisk : Option Mirror) (adoptable : Bool) :
    Except MirrorError Mirror :=
  openOrCreate dest onDisk adoptable ⟨address.sessionId, address.daemonInstanceId, address.projectId, 0, ""⟩

/-- A session and the destination it is mirrored to: the tree of each room at each tick, and the delta each
    tick recorded, which takes the tree before to the tree after. -/
structure Session where
  dest : String
  address : SessionAddress
  tree : Nat → Nat → Checkout
  delta : Nat → Nat → Delta
  seq_eq : ∀ room tick, (delta room tick).seq = tick
  prevSeq_eq : ∀ room tick, (delta room tick).prevSeq = tick - 1
  exact : ∀ room tick, patched (delta room (tick + 1)).patch (tree room tick) = tree room (tick + 1)

inductive Held where
  | patch (room tick : Nat)
  | restore (room newest : Nat)
  deriving DecidableEq

def Holds (held : List Held) (room tick : Nat) : Prop :=
  .patch room tick ∈ held ∨ ∃ newest, .restore room newest ∈ held ∧ tick ≤ newest

/-- The mirror on disk, and what is known of it. -/
structure Copy where
  disk : Option Mirror := none
  held : List Held := []
  skipped : List (Nat × Nat) := []
  /-- The room whose ticks `last_seq` counts. -/
  numberedIn : Nat := 0
  restoredAt : Option Nat := none

namespace Copy

def lastSeq (c : Copy) : Nat := (c.disk.map (·.marker.lastSeq)).getD 0

def keep (c : Copy) (m : Mirror) : Copy := { c with disk := some m }

def apply (c : Copy) (room tick : Nat) (m : Mirror) : Copy :=
  { c with disk := some m, held := .patch room tick :: c.held, numberedIn := room }

/-- A restore that keeps `last_seq` makes it count this room's ticks once the room has got that far. -/
def restore (c : Copy) (room newest : Nat) (m : Mirror) : Copy :=
  { c with
    disk := some m
    held := .restore room newest :: c.held
    restoredAt := some newest
    numberedIn := if m.marker.lastSeq ≤ newest then room else c.numberedIn }

def skip (c : Copy) (room tick : Nat) : Copy := { c with skipped := (room, tick) :: c.skipped }

end Copy

structure Sync where
  room : Nat := 0
  /-- The newest tick the room has recorded. -/
  newest : Nat := 0
  hosted : Bool := true
  running : Bool := false
  copy : Copy := {}

inductive Event where
  | openRoom
  | closeRoom
  | tick
  | start (adoptable : Bool) (parent : Except SyncError Commit)
  | stop
  | activity (record : AgentActivityRecord) (fetched : Except SyncError Nat) (git : Mirror.GitApply)
      (parent : Except SyncError Commit)
  | worktree (kind : WorktreeActivityKind) (parent : Except SyncError Commit)

namespace Sync

def remote (S : Session) (s : Sync) (parent : Except SyncError Commit) : Except SyncError Wip :=
  parent.map fun commit => ⟨commit, S.tree s.room s.newest⟩

/-- The record is one of this room's, and its call is attributed to its tick or a later one. -/
def deliverable (s : Sync) (record : AgentActivityRecord) (fetched : Except SyncError Nat) : Bool :=
  record.activitySeq ≤ s.newest && match fetched with
    | .ok tick => record.activitySeq ≤ tick && tick ≤ s.newest
    | .error _ => true

def started (s : Sync) (m : Mirror) : Except SyncError Unit × Mirror → Sync
  | (.error _, m') => { s with copy := s.copy.keep m' }
  | (.ok (), m') =>
    { s with running := true, copy := if m.repo.isSome then s.copy.keep m' else s.copy.restore s.room s.newest m' }

def heard (s : Sync) : Except SyncError Mirror.Handled × Mirror → Sync
  | (.error _, m) => { s with running := false, copy := s.copy.keep m }
  | (.ok (.ignored (.alreadyApplied seq _)), m) => { s with copy := (s.copy.keep m).skip s.room seq }
  | (.ok (.ignored _), m) => { s with copy := s.copy.keep m }
  | (.ok (.applied seq), m) => { s with copy := s.copy.apply s.room seq m }
  | (.ok (.alreadyApplied seq), m) => { s with copy := (s.copy.keep m).skip s.room seq }
  | (.ok (.reconciled _), m) => { s with copy := s.copy.restore s.room s.newest m }

def observed (s : Sync) : Except SyncError Bool × Mirror → Sync
  | (.error _, m) => { s with running := false, copy := s.copy.keep m }
  | (.ok false, m) => { s with copy := s.copy.keep m }
  | (.ok true, m) => { s with copy := s.copy.restore s.room s.newest m }

def step (S : Session) (s : Sync) : Event → Sync
  | .openRoom => if s.hosted then s else { s with room := s.room + 1, newest := 0, hosted := true }
  | .closeRoom => { s with hosted := false, running := false }
  | .tick => if s.hosted then { s with newest := s.newest + 1 } else s
  | .stop => { s with running := false }
  | .start adoptable parent =>
    if s.running || !s.hosted then s
    else match Mirror.syncerOpen S.dest S.address s.copy.disk adoptable with
      | .error _ => s
      | .ok m => s.started m (m.firstAttachIfEmpty (s.remote S parent))
  | .activity record fetched git parent =>
    match s.running && s.deliverable record fetched, s.copy.disk with
    | true, some m => s.heard (m.onActivity record (fetched.map (S.delta s.room)) git (s.remote S parent))
    | _, _ => s
  | .worktree kind parent =>
    match s.running, s.copy.disk with
    | true, some m => s.observed (m.onWorktree kind (s.remote S parent))
    | _, _ => s

end Sync

/-! ## All that an event can do -/

/-- The mirror a starting client finds, or makes. -/
def Copy.Offers (c : Copy) (m : Mirror) : Prop :=
  c.disk = some m ∨ (c.disk = none ∧ m.marker.lastSeq = 0 ∧ m.repo = none)

inductive Moved (S : Session) (s : Sync) : Event → Sync → Prop
  /-- Nothing of the mirror changes. -/
  | quiet {e : Event} (newest : Nat) (hosted running : Bool) (hn : s.newest ≤ newest) :
      Moved S s e { s with newest := newest, hosted := hosted, running := running }
  | opened : Moved S s .openRoom { s with room := s.room + 1, newest := 0, hosted := true }
  /-- The first attach made a repository and could not fetch. -/
  | initialised {adoptable : Bool} {parent : Except SyncError Commit} (m : Mirror) (hm : s.copy.Offers m)
      (hrepo : m.repo = none) :
      Moved S s (.start adoptable parent) { s with copy := s.copy.keep { m with repo := some {} } }
  | attached {adoptable : Bool} {parent : Commit} (m : Mirror) (hm : s.copy.Offers m) (hrepo : m.repo = none) :
      Moved S s (.start adoptable (.ok parent)) { s with
        running := true
        copy := s.copy.restore s.room s.newest
          (m.restored {} ⟨parent, S.tree s.room s.newest⟩ m.marker.lastSeq) }
  /-- A tick taken for seen: the record's, or the fetched delta's. -/
  | skipped {record : AgentActivityRecord} {fetched : Except SyncError Nat} {git : Mirror.GitApply}
      {parent : Except SyncError Commit} (m : Mirror) (tick : Nat) (hm : s.copy.disk = some m)
      (hrecord : noTick < record.activitySeq) (hle : record.activitySeq ≤ tick) (hseen : tick ≤ m.marker.lastSeq) :
      Moved S s (.activity record fetched git parent) { s with copy := s.copy.skip s.room tick }
  | applied {record : AgentActivityRecord} {git : Mirror.GitApply} {parent : Except SyncError Commit} (m : Mirror)
      (repo : Repo) (commit : Commit) (tick : Nat) (hm : s.copy.disk = some m) (hrepo : m.repo = some repo)
      (hhead : repo.head = some commit) (hrecord : record.activitySeq ≤ tick) (hnewest : tick ≤ s.newest)
      (hnext : tick = m.marker.lastSeq + 1) :
      Moved S s (.activity record (.ok tick) git parent)
        { s with copy := s.copy.apply s.room tick (m.advanced (S.delta s.room tick)) }
  | reconciled {record : AgentActivityRecord} {git : Mirror.GitApply} {parent : Commit} (m : Mirror) (repo : Repo)
      (tick : Nat) (hm : s.copy.disk = some m) (hrepo : m.repo = some repo)
      (hnew : m.marker.lastSeq < record.activitySeq) (hnewest : record.activitySeq ≤ s.newest)
      (hrun : s.running = true) (hrefused : m.refuses (S.delta s.room tick) git = true) :
      Moved S s (.activity record (.ok tick) git (.ok parent)) { s with
        copy := s.copy.restore s.room s.newest
          (m.restored repo ⟨parent, S.tree s.room s.newest⟩ record.activitySeq) }
  /-- A commit in the session restored the mirror. -/
  | followed {parent : Commit} (m : Mirror) (repo : Repo) (hm : s.copy.disk = some m) (hrepo : m.repo = some repo)
      (hrun : s.running = true) :
      Moved S s (.worktree .commit (.ok parent)) { s with
        copy := s.copy.restore s.room s.newest
          (m.restored repo ⟨parent, S.tree s.room s.newest⟩ m.marker.lastSeq) }

variable (S : Session)

variable {m : Mirror} {c : Copy}

theorem Copy.keep_self (h : c.disk = some m) : c.keep m = c := by
  unfold keep
  rw [← h]

theorem Copy.lastSeq_of_disk (h : c.disk = some m) : c.lastSeq = m.marker.lastSeq := by
  rw [Copy.lastSeq, h]
  rfl

theorem Copy.lastSeq_of_offers (h : c.Offers m) : c.lastSeq = m.marker.lastSeq := by
  rcases h with h | ⟨h, hzero, -⟩
  · exact Copy.lastSeq_of_disk h
  · rw [Copy.lastSeq, h, hzero]
    rfl

variable {s : Sync}

theorem Moved.still {e : Event} (h : s.copy.disk = some m) (running : Bool) :
    Moved S s e { s with running := running, copy := s.copy.keep m } := by
  rw [Copy.keep_self h]
  exact .quiet s.newest s.hosted running le_rfl

theorem start_moved (s : Sync) (adoptable : Bool) (parent : Except SyncError Commit) :
    Moved S s (.start adoptable parent) (s.step S (.start adoptable parent)) := by
  unfold Sync.step
  dsimp only
  split
  · exact .quiet s.newest s.hosted s.running le_rfl
  rcases hopen : Mirror.syncerOpen S.dest S.address s.copy.disk adoptable with e | m
  · exact .quiet s.newest s.hosted s.running le_rfl
  have hm : s.copy.Offers m := by
    unfold Mirror.syncerOpen Mirror.openOrCreate at hopen
    rcases hdisk : s.copy.disk with _ | persisted
    · rw [hdisk] at hopen
      cases adoptable with
      | false => cases hopen
      | true =>
        cases hopen
        exact .inr ⟨hdisk, rfl, rfl⟩
    rw [hdisk] at hopen
    dsimp only at hopen
    split at hopen
    · cases hopen
    · cases hopen
      exact .inl hdisk
  dsimp only
  rcases hrepo : m.repo with _ | repo
  · obtain ⟨dest, marker, _⟩ := m
    cases hrepo
    cases parent with
    | error e => exact .initialised _ hm rfl
    | ok commit => exact .attached ⟨dest, marker, none⟩ hm rfl
  -- the destination has its repository: the process runs, and nothing is touched
  rcases hm with hdisk | ⟨-, -, hnone⟩
  · have hattach : m.firstAttachIfEmpty (s.remote S parent) = (.ok (), m) := by
      simp [Mirror.firstAttachIfEmpty, hrepo]
    rw [hattach]
    have hmoved : Moved S s (.start adoptable parent) _ := .still S hdisk true
    simpa [Sync.started, hrepo] using hmoved
  · rw [hnone] at hrepo
    cases hrepo

variable {parent : Except SyncError Commit} {record : AgentActivityRecord} {git : Mirror.GitApply}

theorem offered_moved {callId : String} {seq tick : Nat}
    (hrun : s.running = true)
    (hm : s.copy.disk = some m) (hd : decideRecord record m.marker.lastSeq = .fetchDelta callId seq)
    (hle : record.activitySeq ≤ tick) (hnewest : tick ≤ s.newest) :
    Moved S s (.activity record (.ok tick) git parent)
      (s.heard (m.onActivity record (.ok (S.delta s.room tick)) git (s.remote S parent))) := by
  obtain ⟨rfl, hnew⟩ := decideRecord_fetch hd
  have hseq := S.seq_eq s.room tick
  have hprev := S.prevSeq_eq s.room tick
  unfold Mirror.onActivity
  rw [hd]
  dsimp only
  rcases m.apply_cases (S.delta s.room tick) git with ⟨hseen, e⟩ | ⟨hrefused, reason, e⟩ | ⟨err, e⟩ |
    ⟨repo, commit, hrepo, hhead, hfollows, e⟩
  · omega
  · rw [e]
    dsimp only
    rcases hrepo : m.repo with _ | repo
    · obtain ⟨err, he⟩ := Mirror.reconcile_none hrepo record.activitySeq (s.remote S parent)
      rw [he]
      exact .still S hm false
    rw [Mirror.reconcile_eq hrepo]
    cases parent with
    | error err => exact .still S hm false
    | ok commit => exact .reconciled m repo tick hm hrepo hnew (hle.trans hnewest) hrun hrefused
  · rw [e]
    exact .still S hm false
  · rw [e]
    have hnext : tick = m.marker.lastSeq + 1 := by omega
    have hmoved : Moved S s (.activity record (.ok tick) git parent) _ :=
      .applied m repo commit tick hm hrepo hhead hle hnewest hnext
    simpa [Sync.heard, hseq] using hmoved

theorem activity_moved {fetched : Except SyncError Nat}
    (hrun : s.running = true)
    (hdel : s.deliverable record fetched = true) (hm : s.copy.disk = some m) :
    Moved S s (.activity record fetched git parent)
      (s.heard (m.onActivity record (fetched.map (S.delta s.room)) git (s.remote S parent))) := by
  rcases hd : decideRecord record m.marker.lastSeq with ⟨callId, seq⟩ | reason
  · cases fetched with
    | error err =>
      unfold Mirror.onActivity
      rw [hd]
      exact .still S hm false
    | ok tick =>
      simp only [Sync.deliverable, Bool.and_eq_true, decide_eq_true_eq] at hdel
      exact offered_moved S hrun hm hd hdel.2.1 hdel.2.2
  · unfold Mirror.onActivity
    rw [hd]
    cases reason with
    | noTickYet | unaddressable seq => exact .still S hm s.running
    | alreadyApplied seq last =>
      obtain ⟨rfl, hpos, hseen⟩ := decideRecord_seen hd
      have hmoved : Moved S s (.activity record fetched git parent) _ :=
        .skipped m record.activitySeq hm hpos le_rfl hseen
      simpa [Sync.heard, Copy.keep_self hm] using hmoved

theorem worktree_moved {kind : WorktreeActivityKind} (hrun : s.running = true) (hm : s.copy.disk = some m) :
    Moved S s (.worktree kind parent) (s.observed (m.onWorktree kind (s.remote S parent))) := by
  unfold Mirror.onWorktree
  cases kind with
  | unspecified | filesChanged => exact .still S hm s.running
  | commit =>
    rcases hrepo : m.repo with _ | repo
    · obtain ⟨err, he⟩ := Mirror.reconcile_none hrepo m.marker.lastSeq (s.remote S parent)
      rw [he]
      exact .still S hm false
    rw [Mirror.reconcile_eq hrepo]
    cases parent with
    | error err => exact .still S hm false
    | ok commit => exact .followed m repo hm hrepo hrun

theorem step_moved (s : Sync) (e : Event) : Moved S s e (s.step S e) := by
  cases e with
  | openRoom =>
    unfold Sync.step
    dsimp only
    split
    · exact .quiet s.newest s.hosted s.running le_rfl
    · exact .opened
  | closeRoom => exact .quiet s.newest false false le_rfl
  | tick =>
    unfold Sync.step
    dsimp only
    split
    · exact .quiet (s.newest + 1) s.hosted s.running (Nat.le_succ _)
    · exact .quiet s.newest s.hosted s.running le_rfl
  | stop => exact .quiet s.newest s.hosted false le_rfl
  | start adoptable parent => exact start_moved S s adoptable parent
  | activity record fetched git parent =>
    unfold Sync.step
    dsimp only
    split
    · rename_i m hgo hm
      rw [Bool.and_eq_true] at hgo
      exact activity_moved S hgo.1 hgo.2 hm
    · exact .quiet s.newest s.hosted s.running le_rfl
  | worktree kind parent =>
    unfold Sync.step
    dsimp only
    split
    · rename_i m hrun hm
      exact worktree_moved S hrun hm
    · exact .quiet s.newest s.hosted s.running le_rfl

def hears (tick : Nat) : Event :=
  .activity ⟨"call", "completed", tick, []⟩ (.ok tick) {} (.ok ⟨"c0", fun _ => none⟩)

end TddyCoder.SessionSync
