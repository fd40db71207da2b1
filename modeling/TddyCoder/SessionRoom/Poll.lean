/-
  TddyCoder.SessionRoom.Poll — the loop that keeps a session's room current with its
  checkout (`SessionRoomPoll` of `packages/tddy-daemon-livekit/src/session_room.rs`,
  `next_tick` of `packages/tddy-service/src/session_activity.rs`).

  A tree object is named by its content, so a tree is a value of `T` and the empty name is
  `none`. Everything that can fail at a tick is an input of it (`Tick`). The checkout is one value
  during a tick and anything at the next. Ghost state: `seedTree`, the first tree staged;
  `measuredAt`, the checkout at the last measurement; and in `store` the checkouts a delta was
  recorded at, or a call was attributed between.
-/

import Mathlib.Algebra.Order.Ring.Nat

namespace TddyCoder.SessionRoom

open List

def u64Max : Nat := 2 ^ 64 - 1

def noTick : Nat := 0

def firstTick : Nat := 1

def nextTick : Option Nat → Nat
  | none => firstTick
  | some last => min (last + 1) u64Max

structure WorktreeSnapshot (T : Type) where
  headCommit : String
  branch : String
  changedPaths : List String
  changedFiles : Nat
  linesAdded : Int
  linesRemoved : Int
  untrackedFiles : Nat
  wipTree : Option T
  deriving DecidableEq

structure ActivityDelta where
  seq : Nat
  prevSeq : Nat
  baseCommit : String
  patch : List UInt8
  scopedPaths : List String
  deriving DecidableEq

/-- The delta one tick produces, if it can be described; `diff` is `none` where git could not take it. -/
def tickDelta {T : Type} [DecidableEq T] (diff : T → T → Option (List UInt8)) (prev next : WorktreeSnapshot T)
    (seq : Nat) : Option ActivityDelta :=
  match prev.wipTree, next.wipTree with
  | some a, some b =>
    if a = b then none
    else if next.headCommit = "" then none
    else (diff a b).map fun patch => ⟨seq, seq - 1, next.headCommit, patch, []⟩
  | _, _ => none

/-! ## The activity log -/

/-- The fields of a row the loop reads or writes. -/
structure AgentActivityRecord where
  callId : String
  status : String
  activitySeq : Nat
  changedPaths : List String
  deriving DecidableEq

def AgentActivityRecord.isTerminal (r : AgentActivityRecord) : Bool := r.status ≠ "running"

/-- Per call, whether the row already broadcast for it was its terminal one. -/
structure BroadcastActivityRows where
  handled : String → Option Bool := fun _ => none

namespace BroadcastActivityRows

variable (rows : BroadcastActivityRows) (r : AgentActivityRecord)

def alreadyBroadcast : Bool :=
  match rows.handled r.callId with
  | some broadcastTerminal => broadcastTerminal || !r.isTerminal
  | none => false

def markBroadcast : BroadcastActivityRows :=
  ⟨Function.update rows.handled r.callId (some r.isTerminal)⟩

def fresh (log : List AgentActivityRecord) : List AgentActivityRecord :=
  log.filter fun r => !rows.alreadyBroadcast r

end BroadcastActivityRows

inductive TickAttributionTarget where
  | thisTicksDelta (seq : Nat)
  | anEmptyDelta (nextSeq : Nat) (baseCommit : String)
  | noCheckout

structure TickActivity where
  broadcast : List AgentActivityRecord := []
  emptyDelta : Option ActivityDelta := none

/-- The seq the rows are stamped with, and the empty delta that has to be recorded for it. -/
def TickAttributionTarget.resolve : TickAttributionTarget → Nat × Option ActivityDelta
  | .thisTicksDelta seq => (seq, none)
  | .anEmptyDelta nextSeq baseCommit =>
    if baseCommit = "" then (noTick, none)
    else (nextSeq, some ⟨nextSeq, nextSeq - 1, baseCommit, [], []⟩)
  | .noCheckout => (noTick, none)

def tickActivity (already : BroadcastActivityRows) (log : List AgentActivityRecord) (target : TickAttributionTarget) :
    TickActivity :=
  if (already.fresh log).isEmpty then {}
  else ⟨(already.fresh log).map fun r => { r with activitySeq := target.resolve.1 }, target.resolve.2⟩

/-! ## The loop -/

inductive Measurement (T : Type) where
  | taken (snapshot : WorktreeSnapshot T) (attachments : List String)
  | unavailable
  | gone

/-- What the world does at one tick. -/
structure Tick (T : Type) where
  /-- The checkout as it stands. -/
  checkout : T
  /-- The room is still hosted. -/
  hosted : Bool := true
  /-- The activity log, unless it could not be read. -/
  log : Option (List AgentActivityRecord) := some []
  measurement : Measurement T
  metadataWritten : Bool := true
  /-- The opening tree could be written, published, and its task returned. -/
  seedStaged : Bool := true
  seedPublished : Bool := true
  seedJoined : Bool := true
  /-- The same for this tick's tree, with the diff against the last one. -/
  staged : Bool := true
  diffed : Bool := true
  published : Bool := true
  joined : Bool := true
  /-- The room closed and gave up its WIP ref. -/
  released : Bool := false

/-- A call to the delta store. The checkouts are ghost: where it was made, and measured before. -/
inductive StoreCall (T : Type) where
  | record (delta : ActivityDelta) (checkout : T)
  | attribute (callId : String) (seq : Nat) (changedPaths : List String) (before checkout : T)
  deriving DecidableEq

structure Poll (T : Type) where
  /-- The checkout is on this host. -/
  hasWorktree : Bool
  previous : WorktreeSnapshot T
  previousAttachments : List String
  previousWipTree : Option T := none
  lastDeltaSeq : Option Nat := none
  rows : BroadcastActivityRows := {}
  /-- The commit and tree `refs/tddy/session/<id>/wip` was last pointed at. -/
  wipRef : Option (String × T) := none
  stopped : Bool := false
  store : List (StoreCall T) := []
  seedTree : Option T := none
  measuredAt : T

namespace Poll

variable {T : Type} [DecidableEq T] (diff : T → T → List UInt8) (p : Poll T) (t : Tick T) (measured : WorktreeSnapshot T)
  (attachments : List String)

def seedUncommittedState : Poll T :=
  if p.hasWorktree && t.seedStaged && !t.released && t.seedPublished && t.seedJoined then
    { p with previousWipTree := some t.checkout, wipRef := some (measured.headCommit, t.checkout) }
  else p

/-- The seq of the delta this tick recorded, if it recorded one. -/
def recordUncommittedState : Option Nat × Poll T :=
  if !p.hasWorktree || !t.joined then (none, p)
  else
    let wipTree := if t.staged then some t.checkout else none
    let delta := tickDelta (fun a b => if t.diffed then some (diff a b) else none)
      { p.previous with wipTree := p.previousWipTree } { measured with wipTree := wipTree } (nextTick p.lastDeltaSeq)
    let published := if t.staged && !t.released && t.published then some (measured.headCommit, t.checkout) else p.wipRef
    let p := { p with previousWipTree := wipTree <|> p.previousWipTree, wipRef := published }
    match delta with
    | none => (none, p)
    | some delta =>
      (some delta.seq, { p with lastDeltaSeq := some delta.seq, store := p.store ++ [.record delta t.checkout] })

/-- A failed metadata write holds the change back: `previous` stays where it was. -/
def announce : Option Nat × Poll T :=
  if t.metadataWritten then
    let (deltaSeq, p) := p.recordUncommittedState diff t measured
    (deltaSeq, { p with previous := measured, previousAttachments := attachments })
  else (none, p)

def attributionTarget (recordedDeltaSeq : Option Nat) (headCommit : String) : TickAttributionTarget :=
  if !p.hasWorktree then .noCheckout
  else match recordedDeltaSeq with
    | some seq => .thisTicksDelta seq
    | none => .anEmptyDelta (nextTick p.lastDeltaSeq) headCommit

def broadcastNewActivity (recordedDeltaSeq : Option Nat) (headCommit : String) : Poll T :=
  match t.log with
  | none => p
  | some log =>
    let decided := tickActivity p.rows log (p.attributionTarget recordedDeltaSeq headCommit)
    if decided.broadcast.isEmpty then p
    else { p with
      store := p.store ++ (decided.emptyDelta.map (StoreCall.record · t.checkout)).toList ++
        decided.broadcast.map fun r => .attribute r.callId r.activitySeq r.changedPaths p.measuredAt t.checkout
      lastDeltaSeq := (decided.emptyDelta.map (·.seq)) <|> p.lastDeltaSeq
      rows := decided.broadcast.foldl .markBroadcast p.rows }

/-- A measured tick: seed, announce, attribute. -/
def measuredTick : Poll T :=
  let p := if p.previousWipTree.isNone then p.seedUncommittedState t measured else p
  let (recordedDeltaSeq, p) :=
    if measured ≠ p.previous ∨ attachments ≠ p.previousAttachments then p.announce diff t measured attachments
    else (none, p)
  p.broadcastNewActivity t recordedDeltaSeq measured.headCommit

def settle : Poll T :=
  { p with seedTree := p.seedTree <|> p.previousWipTree, measuredAt := t.checkout }

def tick : Poll T :=
  if p.stopped || !t.hosted then { p with stopped := true }
  else match t.measurement with
    | .unavailable => p
    | .gone => { p with stopped := true }
    | .taken measured attachments => (p.measuredTick diff t measured attachments).settle t

end Poll

/-- A room as it is registered, with the measurement taken when it opened. -/
def register {T : Type} (hasWorktree : Bool) (snapshot : WorktreeSnapshot T) (attachments : List String)
    (checkout : T) : Poll T where
  hasWorktree := hasWorktree
  previous := snapshot
  previousAttachments := attachments
  measuredAt := checkout

/-! ## What a measured tick does -/

namespace Poll

variable {T : Type} [DecidableEq T] {recorded : Option Nat} (diff : T → T → List UInt8) (p : Poll T) (t : Tick T)
  (measured : WorktreeSnapshot T) (attachments : List String)

def openedTree : Option T :=
  if p.previousWipTree.isNone && (p.hasWorktree && t.seedStaged && !t.released && t.seedPublished && t.seedJoined) then
    some t.checkout
  else p.previousWipTree

def stages : Bool :=
  p.hasWorktree && decide (measured ≠ p.previous ∨ attachments ≠ p.previousAttachments) && t.metadataWritten &&
    t.joined && t.staged

def stagedTree : Option T :=
  if p.stages t measured attachments then some t.checkout else p.openedTree t

def changeDelta : Option ActivityDelta :=
  if p.stages t measured attachments then
    tickDelta (fun a b => if t.diffed then some (diff a b) else none) { p.previous with wipTree := p.openedTree t }
      { measured with wipTree := some t.checkout } (nextTick p.lastDeltaSeq)
  else none

def freshRows : List AgentActivityRecord :=
  match t.log with
  | none => []
  | some log => p.rows.fresh log

def attributes : Bool :=
  !(p.freshRows t).isEmpty && p.hasWorktree && measured.headCommit ≠ ""

def newDelta : Option ActivityDelta :=
  p.changeDelta diff t measured attachments <|>
    if p.attributes t measured then
      some ⟨nextTick p.lastDeltaSeq, nextTick p.lastDeltaSeq - 1, measured.headCommit, [], []⟩
    else none

/-- The loop with its tree at `tree`, having recorded `delta` if there is one. -/
structure Recorded (p : Poll T) (t : Tick T) (delta : Option ActivityDelta) (tree : Option T) (q : Poll T) : Prop where
  tree : q.previousWipTree = tree
  lastSeq : q.lastDeltaSeq = (delta.map (·.seq) <|> p.lastDeltaSeq)
  store : q.store = p.store ++ (delta.map (StoreCall.record · t.checkout)).toList
  rows : q.rows = p.rows
  hasWorktree : q.hasWorktree = p.hasWorktree
  measuredAt : q.measuredAt = p.measuredAt
  seed : q.seedTree = p.seedTree

omit [DecidableEq T] in
theorem recorded_none (tree : Option T) (ref : Option (String × T)) :
    Recorded p t none tree { p with previousWipTree := tree, wipRef := ref } :=
  ⟨rfl, rfl, (append_nil _).symm, rfl, rfl, rfl, rfl⟩

theorem recordUncommittedState_recorded {delta : Option ActivityDelta}
    (hd : delta = if p.hasWorktree && t.joined && t.staged then
        tickDelta (fun a b => if t.diffed then some (diff a b) else none) { p.previous with wipTree := p.previousWipTree }
          { measured with wipTree := some t.checkout } (nextTick p.lastDeltaSeq)
      else none) : ∃ q, p.recordUncommittedState diff t measured = (delta.map (·.seq), q) ∧
        Recorded p t delta (if p.hasWorktree && t.joined && t.staged then some t.checkout else p.previousWipTree) q := by
  have hskip : (!p.hasWorktree || !t.joined) = !(p.hasWorktree && t.joined) := by rw [Bool.not_and]
  unfold recordUncommittedState
  rw [hskip]
  rcases hgo : p.hasWorktree && t.joined with _ | _
  · rw [hgo] at hd
    subst hd
    exact ⟨p, rfl, recorded_none p t p.previousWipTree p.wipRef⟩
  rw [hgo] at hd
  rcases hs : t.staged with _ | _
  · rw [hs] at hd
    subst hd
    cases p.previousWipTree <;> exact ⟨_, rfl, recorded_none p t _ _⟩
  rw [hs] at hd
  simp only [Bool.and_self, if_true] at hd
  simp only [Bool.not_true, Bool.false_eq_true, if_false, if_true, Bool.and_self, ← hd]
  cases delta with
  | none => exact ⟨_, rfl, recorded_none p t _ _⟩
  | some delta => exact ⟨_, rfl, rfl, rfl, rfl, rfl, rfl, rfl, rfl⟩

theorem announce_recorded (ref : Option (String × T)) : ∃ q,
      (if measured ≠ p.previous ∨ attachments ≠ p.previousAttachments then
        announce diff { p with previousWipTree := p.openedTree t, wipRef := ref } t measured attachments
      else (none, { p with previousWipTree := p.openedTree t, wipRef := ref })) =
      ((p.changeDelta diff t measured attachments).map (·.seq), q) ∧
        Recorded p t (p.changeDelta diff t measured attachments) (p.stagedTree t measured attachments) q := by
  have hquiet : p.stages t measured attachments = false →
      p.changeDelta diff t measured attachments = none ∧ p.stagedTree t measured attachments = p.openedTree t := by
    intro h
    unfold changeDelta stagedTree
    rw [h]
    exact ⟨rfl, rfl⟩
  by_cases hchanged : measured ≠ p.previous ∨ attachments ≠ p.previousAttachments
  · rw [if_pos hchanged]
    unfold announce
    rcases hm : t.metadataWritten with _ | _
    · obtain ⟨hd, htree⟩ := hquiet (by simp [stages, hm])
      rw [hd, htree]
      exact ⟨_, rfl, recorded_none p t _ _⟩
    have hstages : p.stages t measured attachments = (p.hasWorktree && t.joined && t.staged) := by
      simp [stages, hchanged, hm]
    obtain ⟨q, hrec, hq⟩ := recordUncommittedState_recorded diff
      { p with previousWipTree := p.openedTree t, wipRef := ref } t measured
      (by rw [changeDelta, hstages] : p.changeDelta diff t measured attachments = _)
    rw [hrec, stagedTree, hstages]
    exact ⟨_, rfl, hq.tree, hq.lastSeq, hq.store, hq.rows, hq.hasWorktree, hq.measuredAt, hq.seed⟩
  · rw [if_neg hchanged]
    obtain ⟨hd, htree⟩ := hquiet (by simp [stages, hchanged])
    rw [hd, htree]
    exact ⟨_, rfl, recorded_none p t _ _⟩

theorem tickActivity_broadcast (rows : BroadcastActivityRows) (log : List AgentActivityRecord)
    (target : TickAttributionTarget) : (tickActivity rows log target).broadcast =
      (rows.fresh log).map fun r => { r with activitySeq := target.resolve.1 } := by
  unfold tickActivity
  split
  · rename_i h
    rw [isEmpty_iff.mp h]
    rfl
  · rfl

omit [DecidableEq T] in
theorem resolve_target (headCommit : String)
    (hrec : recorded.isSome → p.hasWorktree = true) :
    (p.attributionTarget recorded headCommit).resolve =
      if recorded.isNone && (p.hasWorktree && headCommit ≠ "") then
        (nextTick p.lastDeltaSeq, some ⟨nextTick p.lastDeltaSeq, nextTick p.lastDeltaSeq - 1, headCommit, [], []⟩)
      else (recorded.getD noTick, none) := by
  unfold attributionTarget
  cases recorded with
  | some seq =>
    rw [hrec rfl]
    rfl
  | none =>
    rcases hw : p.hasWorktree with _ | _
    · rfl
    · by_cases hh : headCommit = "" <;> simp [TickAttributionTarget.resolve, hh]

omit [DecidableEq T] in
theorem broadcast_eq (hrec : recorded.isSome → p.hasWorktree = true) :
    p.broadcastNewActivity t recorded measured.headCommit = { p with
      rows := (p.freshRows t).foldl .markBroadcast p.rows
      lastDeltaSeq := (if recorded.isNone && p.attributes t measured then some (nextTick p.lastDeltaSeq) else none)
        <|> p.lastDeltaSeq
      store := p.store ++
        (if recorded.isNone && p.attributes t measured then
          [.record ⟨nextTick p.lastDeltaSeq, nextTick p.lastDeltaSeq - 1, measured.headCommit, [], []⟩ t.checkout]
        else []) ++
        (p.freshRows t).map fun r => .attribute r.callId
          (if recorded.isNone && p.attributes t measured then nextTick p.lastDeltaSeq else recorded.getD noTick)
          r.changedPaths p.measuredAt t.checkout } := by
  unfold broadcastNewActivity attributes freshRows
  cases t.log with
  | none => simp
  | some log =>
    simp only
    have hempty : (tickActivity p.rows log (p.attributionTarget recorded measured.headCommit)).broadcast.isEmpty =
        (p.rows.fresh log).isEmpty := by
      rw [tickActivity_broadcast, isEmpty_map]
    rw [hempty]
    rcases hfresh : (p.rows.fresh log).isEmpty with _ | _
    · have hdelta : (tickActivity p.rows log (p.attributionTarget recorded measured.headCommit)).emptyDelta =
          (p.attributionTarget recorded measured.headCommit).resolve.2 := by
        rw [tickActivity, hfresh]
        rfl
      rw [hdelta, tickActivity_broadcast, resolve_target p _ hrec, Bool.not_false, Bool.true_and]
      generalize (recorded.isNone && (p.hasWorktree && decide (measured.headCommit ≠ ""))) = go
      cases go <;> simp [Function.comp_def, foldl_map] <;> rfl
    · rw [isEmpty_iff.mp hfresh]
      simp

variable {diff p t measured attachments} {q : Poll T} {d : ActivityDelta × T} {delta : ActivityDelta}
  (diff)

/-- What a measured tick does to the staged tree, the numbering and the store. -/
structure Ticked (p : Poll T) (t : Tick T) (measured : WorktreeSnapshot T)
    (attachments : List String) (q : Poll T) : Prop where
  tree : q.previousWipTree = p.stagedTree t measured attachments
  lastSeq : q.lastDeltaSeq = ((p.newDelta diff t measured attachments).map (·.seq) <|> p.lastDeltaSeq)
  store : q.store = p.store ++ ((p.newDelta diff t measured attachments).map (StoreCall.record · t.checkout)).toList ++
    (p.freshRows t).map fun r => .attribute r.callId
      (((p.newDelta diff t measured attachments).map (·.seq)).getD noTick) r.changedPaths p.measuredAt t.checkout
  seed : q.seedTree = p.seedTree

theorem measuredTick_ticked (p : Poll T) (t : Tick T) (measured : WorktreeSnapshot T)
    (attachments : List String) : Ticked diff p t measured attachments (p.measuredTick diff t measured attachments) ∧
      (p.measuredTick diff t measured attachments).rows = (p.freshRows t).foldl .markBroadcast p.rows := by
  obtain ⟨ref, hseed⟩ : ∃ ref, (if p.previousWipTree.isNone then p.seedUncommittedState t measured else p) =
      { p with previousWipTree := p.openedTree t, wipRef := ref } := by
    unfold seedUncommittedState openedTree
    cases p.previousWipTree.isNone with
    | false => exact ⟨p.wipRef, rfl⟩
    | true =>
      simp only [Bool.true_and, if_true]
      split
      · exact ⟨_, rfl⟩
      · exact ⟨p.wipRef, rfl⟩
  obtain ⟨q, hann, hq⟩ := announce_recorded diff p t measured attachments ref
  have hfresh : q.freshRows t = p.freshRows t := by rw [freshRows, freshRows, hq.rows]
  have hattr : q.attributes t measured = p.attributes t measured := by
    rw [attributes, attributes, hfresh, hq.hasWorktree]
  unfold measuredTick
  rw [hseed]
  dsimp only
  rw [hann]
  have hrec : ((p.changeDelta diff t measured attachments).map (·.seq)).isSome → q.hasWorktree = true := by
    rw [hq.hasWorktree, Option.isSome_map, changeDelta]
    split
    · simp_all [stages]
    · exact nofun
  rw [broadcast_eq q t measured hrec, hattr, hfresh, hq.measuredAt]
  refine ⟨?_, by rw [hq.rows]⟩
  cases hd : p.changeDelta diff t measured attachments with
  | some delta =>
    have hnew : p.newDelta diff t measured attachments = some delta := by rw [newDelta, hd]; rfl
    refine ⟨hq.tree, ?_, ?_, hq.seed⟩
    · simp [hq.lastSeq, hd, hnew]
    · simp [hq.store, hd, hnew]
  | none =>
    have hlast : q.lastDeltaSeq = p.lastDeltaSeq := by rw [hq.lastSeq, hd]; rfl
    have hnew : p.newDelta diff t measured attachments = if p.attributes t measured then
        some ⟨nextTick p.lastDeltaSeq, nextTick p.lastDeltaSeq - 1, measured.headCommit, [], []⟩ else none := by
      rw [newDelta, hd]
      rfl
    refine ⟨hq.tree, ?_, ?_, hq.seed⟩
    · cases hatt : p.attributes t measured <;> simp [hlast, hnew, hatt]
    · cases hatt : p.attributes t measured <;> simp [hq.store, hd, hlast, hnew, hatt]

/-- What is asked of a tick that measures; no other touches the tree, the numbering or the store. -/
def WhenMeasured (p : Poll T) (t : Tick T) (ok : WorktreeSnapshot T → List String → Prop) : Prop :=
  p.stopped = false ∧ t.hosted = true → ∀ measured attachments, t.measurement = .taken measured attachments →
    ok measured attachments

variable {diff}

/-- A property that does not look at `stopped` survives a tick if it survives the measured ones. -/
theorem tick_iff {P : Poll T → Prop}
    {ok : WorktreeSnapshot T → List String → Prop} (hidle : ∀ stopped, P { p with stopped := stopped })
    (htaken : ∀ measured attachments q, Ticked diff p t measured attachments q →
      (P (q.settle t) ↔ ok measured attachments)) : P (p.tick diff t) ↔ p.WhenMeasured t ok := by
  unfold tick WhenMeasured
  split
  · rename_i hstop
    refine ⟨fun _ hrun => ?_, fun _ => hidle true⟩
    simp [hrun.1, hrun.2] at hstop
  rename_i hgo
  have hrun : p.stopped = false ∧ t.hosted = true := by simpa using hgo
  cases t.measurement with
  | unavailable => exact ⟨fun _ _ _ _ => nofun, fun _ => hidle p.stopped⟩
  | gone => exact ⟨fun _ _ _ _ => nofun, fun _ => hidle true⟩
  | taken measured attachments =>
    refine (htaken measured attachments _ (measuredTick_ticked diff p t measured attachments).1).trans ⟨?_, ?_⟩
    · rintro hok _ _ _ ⟨⟩
      exact hok
    · exact fun hok => hok hrun measured attachments rfl

/-- A change is described exactly when the tick stages a tree other than the last one, has read `HEAD` and
    can take the diff. -/
theorem changeDelta_eq_some :
    p.changeDelta diff t measured attachments = some delta ↔ p.stages t measured attachments = true ∧ ∃ tree,
      p.openedTree t = some tree ∧ tree ≠ t.checkout ∧ measured.headCommit ≠ "" ∧ t.diffed = true ∧
      delta = ⟨nextTick p.lastDeltaSeq, nextTick p.lastDeltaSeq - 1, measured.headCommit, diff tree t.checkout, []⟩ := by
  unfold changeDelta
  rcases p.stages t measured attachments with _ | _
  · simp
  rcases hopen : p.openedTree t with _ | tree
  · simp [tickDelta]
  by_cases hmoved : tree = t.checkout
  · simp [tickDelta, hmoved]
  by_cases hhead : measured.headCommit = ""
  · simp [tickDelta, hhead]
  rcases t.diffed with _ | _
  · simp [tickDelta]
  · simp [tickDelta, hmoved, hhead, eq_comm]

def deltas (p : Poll T) : List (ActivityDelta × T) :=
  p.store.filterMap fun
    | .record delta checkout => some (delta, checkout)
    | .attribute .. => none

theorem Ticked.deltas (h : Ticked diff p t measured attachments q) :
    q.deltas = p.deltas ++ ((p.newDelta diff t measured attachments).map (·, t.checkout)).toList := by
  unfold Poll.deltas
  rw [h.store, filterMap_append, filterMap_append, filterMap_map]
  have hrows : (p.freshRows t).filterMap ((fun
      | StoreCall.record delta checkout => some (delta, checkout)
      | .attribute .. => none) ∘ fun r => StoreCall.attribute r.callId
        (((p.newDelta diff t measured attachments).map (·.seq)).getD noTick) r.changedPaths p.measuredAt t.checkout) = [] :=
    filterMap_eq_nil_iff.mpr fun _ _ => rfl
  rw [hrows, append_nil]
  cases p.newDelta diff t measured attachments <;> rfl

def moves (p : Poll T) (t : Tick T) (measured : WorktreeSnapshot T) (attachments : List String) : Prop :=
  p.stages t measured attachments = true ∧ ∃ tree, p.openedTree t = some tree ∧ tree ≠ t.checkout

theorem newDelta_seq (h : p.newDelta diff t measured attachments = some delta) :
    delta.seq = nextTick p.lastDeltaSeq := by
  unfold newDelta at h
  rcases hchange : p.changeDelta diff t measured attachments with _ | d
  · rw [hchange] at h
    rcases hattr : p.attributes t measured with _ | _ <;> rw [hattr] at h <;> cases h
    rfl
  rw [hchange] at h
  cases h
  obtain ⟨-, -, -, -, -, -, rfl⟩ := changeDelta_eq_some.mp hchange
  rfl

def records (p : Poll T) (t : Tick T) (measured : WorktreeSnapshot T) (attachments : List String) : Prop :=
  (p.moves t measured attachments ∧ measured.headCommit ≠ "" ∧ t.diffed = true) ∨ p.attributes t measured = true

theorem records_iff :
    p.records t measured attachments ↔ ∃ delta, p.newDelta diff t measured attachments = some delta := by
  unfold newDelta
  rcases hchange : p.changeDelta diff t measured attachments with _ | d
  · have hplain : ¬ (p.moves t measured attachments ∧ measured.headCommit ≠ "" ∧ t.diffed = true) := by
      intro ⟨⟨hs, tree, hopen, hne⟩, hhead, hdiff⟩
      rw [changeDelta_eq_some.mpr ⟨hs, tree, hopen, hne, hhead, hdiff, rfl⟩] at hchange
      cases hchange
    rcases hattr : p.attributes t measured with _ | _ <;> simp [records, hplain, hattr]
  · obtain ⟨hs, tree, hopen, hne, hhead, hdiff, -⟩ := changeDelta_eq_some.mp hchange
    exact ⟨fun _ => ⟨d, rfl⟩, fun _ => .inl ⟨⟨hs, tree, hopen, hne⟩, hhead, hdiff⟩⟩

/-- The deltas are numbered from 1, and the loop counts them. -/
structure Counted (p : Poll T) : Prop where
  numbered : p.deltas.map (·.1.seq) = List.range' firstTick p.deltas.length
  last : p.lastDeltaSeq = if p.deltas.isEmpty then none else some p.deltas.length
  bounded : p.deltas.length ≤ u64Max

omit [DecidableEq T] in
theorem numbered_snoc {deltas : List (ActivityDelta × T)}
    (h : deltas.map (·.1.seq) = List.range' firstTick deltas.length) (hseq : d.1.seq = deltas.length + 1) :
    (deltas ++ [d]).map (·.1.seq) = List.range' firstTick (deltas ++ [d]).length := by
  rw [map_append, h, length_append, length_singleton, range'_concat]
  simp [hseq, firstTick, Nat.add_comm]

omit [DecidableEq T] in
theorem Counted.nextTick_eq (h : Counted p) (hroom : p.lastDeltaSeq ≠ some u64Max) :
    nextTick p.lastDeltaSeq = p.deltas.length + 1 ∧ p.deltas.length + 1 ≤ u64Max := by
  have hlast := h.last
  have hbound := h.bounded
  rcases hd : p.deltas with _ | ⟨d, ds⟩
  · rw [hd] at hlast
    rw [hlast]
    exact ⟨rfl, by simp [u64Max]⟩
  rw [hd] at hlast hbound
  have hlt : (d :: ds).length ≠ u64Max := by
    intro e
    rw [← e] at hroom
    exact hroom hlast
  rw [hlast]
  show min ((d :: ds).length + 1) u64Max = _ ∧ _
  omega

/-- A tick keeps the count while there is a number for what it records. -/
theorem Counted.ticked (h : Counted p) (hq : Ticked diff p t measured attachments q)
    (hroom : p.records t measured attachments → p.lastDeltaSeq ≠ some u64Max) : Counted (q.settle t) := by
  have hdeltas : (q.settle t).deltas = _ := hq.deltas
  have hlast : (q.settle t).lastDeltaSeq = _ := hq.lastSeq
  rcases hnew : p.newDelta diff t measured attachments with _ | delta
  · rw [hnew] at hdeltas hlast
    have hsame : (q.settle t).deltas = p.deltas := by simpa using hdeltas
    exact ⟨by rw [hsame, h.numbered], by rw [hsame, ← h.last]; exact hlast, by rw [hsame]; exact h.bounded⟩
  rw [hnew] at hdeltas hlast
  obtain ⟨hnext, hbound⟩ := h.nextTick_eq (hroom (records_iff.mpr ⟨delta, hnew⟩))
  have hseq : delta.seq = p.deltas.length + 1 := (newDelta_seq hnew).trans hnext
  have hsnoc : (q.settle t).deltas = p.deltas ++ [(delta, t.checkout)] := hdeltas
  have hlen : (q.settle t).deltas.length = p.deltas.length + 1 := by rw [hsnoc, length_append]; rfl
  refine ⟨?_, ?_, by omega⟩
  · rw [hsnoc]
    exact numbered_snoc h.numbered hseq
  · have hne : (q.settle t).deltas.isEmpty = false := by rw [hsnoc]; simp
    rw [hlast, hne, hlen, ← hseq]
    rfl

theorem Counted.room (h : Counted p) (hq : Ticked diff p t measured attachments q)
    (h' : Counted (q.settle t)) (hrec : p.records t measured attachments) : p.lastDeltaSeq ≠ some u64Max := by
  intro hfull
  obtain ⟨delta, hnew⟩ := records_iff.mp hrec
  have hlen : (q.settle t).deltas.length = p.deltas.length + 1 := by
    have := congrArg List.length hq.deltas
    rw [hnew, length_append] at this
    exact this
  have hcount := h.last
  have hbound := h'.bounded
  rw [hfull] at hcount
  split at hcount
  · cases hcount
  · have : u64Max = p.deltas.length := Option.some_inj.mp hcount
    omega

omit [DecidableEq T] in
theorem Counted.seq_bounds (h : Counted p) (hd : d ∈ p.deltas) :
    1 ≤ d.1.seq ∧ d.1.seq ≤ p.deltas.length := by
  have hmem : d.1.seq ∈ p.deltas.map (·.1.seq) := mem_map.mpr ⟨d, hd, rfl⟩
  rw [h.numbered, mem_range'_1, firstTick] at hmem
  omega

end Poll

end TddyCoder.SessionRoom
