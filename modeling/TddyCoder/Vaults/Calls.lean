/-
  TddyCoder.Vaults.Calls — the calls on the vaults one after another
  (`packages/tddy-credentials/src/sessions.rs`), with what happens around them: the sweeps, the
  clock, a restart of the daemon, which keeps the files and nothing else.
-/

import TddyCoder.Vaults.Slots
import TddyCoder.Machine.Guarded

namespace TddyCoder.Vaults

open CredentialSync (CredentialRecord)
open Prog

variable (cfg : Config)

def unlock (subject passphrase : String) : Part UnlockKey := do
  let vault ← check (openWithPassphrase subject passphrase (← get))
  admitVault cfg subject vault

def reset (subject passphrase : String) : Part Reset := do
  let reset ← resetVaultFile cfg subject passphrase
  modify (forgetRotations subject)
  return reset

def reopen (unlock : UnlockKey) : Part UnlockKey := do
  match openWithUnlockKey unlock (← get) with
  | .ok proven =>
    let successor ← rotate cfg unlock proven
    modify (register unlock.subject proven)
    return successor
  | .error .locked =>
    match graceRotation cfg unlock (← get) with
    | none => throw .locked
    | some rotation => answerSuccessor cfg unlock.subject rotation
  | .error failed => throw failed

def forget (unlock : UnlockKey) : Part Unit := do
  let vault ← check (openWithUnlockKey unlock (← get))
  removeUnlockSlot vault unlock.slotId
  modify (forgetRotation unlock)
  closeUnused unlock.subject vault

variable (s : State)

def evictIdle : State :=
  let kept (subject : String) : Bool := (s.handles subject).all (stillInUse cfg s)
  { s with
    handles := fun subject => if kept subject then s.handles subject else none
    resetVault := fun subject => if kept subject then s.resetVault subject else none }

def restart : State :=
  { s with handles := fun _ => none, waiting := fun _ => [], rotations := fun _ _ => none, resetVault := fun _ => none }

/-- What comes between the calls that hand out or take keys. -/
inductive Event
  | discardPending (subject : String)
  /-- A look at the vault, `get` or `state`, or a read of it, `use_open`. -/
  | look (subject : String) (isAUse : Bool)
  | holdsPending (subject : String)
  | evictIdle
  | expirePending
  | restart
  | advance (time : Nat)

def happen : Event → State
  | .discardPending subject => discard subject s
  | .look subject isAUse => (freshHandle subject (lookup cfg subject isAUse s)).2
  | .holdsPending subject => (holds cfg subject s).2
  | .evictIdle => evictIdle cfg s
  | .expirePending => dropExpired cfg s
  | .restart => restart s
  | .advance time => { s with now := s.now + time }

inductive Op
  | retain (subject : String) (record : CredentialRecord)
  | signInWithoutCredential (subject : String)
  | unlock (subject passphrase : String)
  | create (subject passphrase : String)
  | reset (subject passphrase : String)
  | reopen (unlock : UnlockKey)
  | forget (unlock : UnlockKey)
  | event (event : Event)

def step : Op → State
  | .retain subject record => (exec (retain cfg subject record) s).2
  | .signInWithoutCredential subject => (exec (signInWithoutCredential cfg subject) s).2
  | .unlock subject passphrase => (exec (unlock cfg subject passphrase) s).2
  | .create subject passphrase => (exec (create cfg subject passphrase) s).2
  | .reset subject passphrase => (exec (reset cfg subject passphrase) s).2
  | .reopen key => (exec (reopen cfg key) s).2
  | .forget key => (exec (forget key) s).2
  | .event event => happen cfg s event

def Op.subject : Op → Option String
  | .retain u _ | .signInWithoutCredential u | .unlock u _ | .create u _ | .reset u _ => some u
  | .reopen key | .forget key => some key.subject
  | .event _ => none

def run (ops : List Op) : State := ops.foldl (step cfg) State.start

variable {cfg : Config} {s t : State} {u : String} {vault : SessionVault}

theorem openWithUnlockKey_ok {unlock : UnlockKey} (h : openWithUnlockKey unlock s = .ok vault) :
    ∃ file, s.file unlock.subject = some file ∧ unlock.opensSlotIn file.unlockSlots ∧
      vault = ⟨unlock.subject, file.dataKey⟩ := by
  unfold openWithUnlockKey at h
  split at h
  · cases h
  · next file hfile =>
    split at h
    · next hopens =>
      cases h
      exact ⟨file, hfile, hopens, rfl⟩
    · cases h

theorem load_eq {file : VaultFile} (hfile : s.file vault.subject = some file)
    (hkey : file.dataKey = vault.dataKey) : load vault s = .ok file := by
  unfold load
  rw [hfile]
  exact if_pos hkey

theorem file_setFile (s : State) (u : String) (file : VaultFile) (v : String) :
    (s.setFile u file).file v = if v = u then some file else s.file v := Function.update_apply s.file u _ v

theorem load_of_opened {unlock : UnlockKey} (h : openWithUnlockKey unlock s = .ok vault) :
    vault.subject = unlock.subject ∧ ∃ file, load vault s = .ok file := by
  obtain ⟨file, hfile, -, rfl⟩ := openWithUnlockKey_ok h
  exact ⟨rfl, file, load_eq hfile rfl⟩

theorem openWithUnlockKey_error {unlock : UnlockKey} {e : VaultError} (h : openWithUnlockKey unlock s = .error e) :
    e = .locked := by
  unfold openWithUnlockKey at h
  split at h
  · cases h
    rfl
  split at h
  · cases h
  · cases h
    rfl

theorem graceRotation_some {unlock : UnlockKey} {rotation : Rotation} (h : graceRotation cfg unlock s = some rotation) :
    s.rotations unlock.subject unlock.slotId = some rotation ∧ s.now - rotation.rotatedAt < cfg.rotationGrace ∧
      rotation.retired = unlock := by
  obtain ⟨hgrace, hretired⟩ := Option.filter_eq_some_iff.mp h
  obtain ⟨hheld, hnow⟩ := Option.filter_eq_some_iff.mp hgrace
  exact ⟨hheld, by simpa using hnow, by simpa using hretired⟩

/-- What waits for the vault of `u` and has not expired. -/
def State.awaiting (cfg : Config) (s : State) (u : String) : List Pending := (s.waiting u).filter (unexpired cfg s.now)

section

variable {isAUse : Bool} {found : Option OpenVault × State} (h : Looked cfg u isAUse s found)
include h

theorem awaiting_looked (v : String) : found.2.awaiting cfg v = s.awaiting cfg v := by
  cases h <;> rfl

theorem closed_of_looked (hnone : found.1 = none) : found.2.handles u = none := by
  cases h with
  | closed h => exact h
  | idle _ _ _ | stale _ _ _ => exact handles_setHandle_self
  | opened _ _ _ _ => cases hnone

theorem open_of_looked {handle : OpenVault} (hsome : found.1 = some handle) :
    found.2.handles u = some handle ∧
      ∃ held file, s.handles u = some held ∧ load handle.vault found.2 = .ok file := by
  cases h with
  | opened held file hheld hload =>
    cases hsome
    refine ⟨handles_setHandle_self, held, file, hheld, ?_⟩
    rw [touched_vault]
    exact hload
  | _ => cases hsome

theorem openWithUnlockKey_looked (key : UnlockKey) : openWithUnlockKey key found.2 = openWithUnlockKey key s := by
  cases h <;> rfl

end

theorem exec_requireAFreshLogin (u : String) (s : State) : exec (requireAFreshLogin cfg u) s =
    (if (s.awaiting cfg u).isEmpty then .error .noFreshLogin else .ok (), dropExpired cfg s) := by
  show exec (if !(s.awaiting cfg u).isEmpty then _ else _) (dropExpired cfg s) = _
  cases (s.awaiting cfg u).isEmpty <;> rfl

theorem exec_answerSuccessor (u : String) (rotation : Rotation) (s : State) : exec (answerSuccessor cfg u rotation) s =
    match (useOpen cfg u s).1 with
    | some _ => (.ok rotation.successor, (useOpen cfg u s).2)
    | none =>
      match openWithUnlockKey rotation.successor (useOpen cfg u s).2 with
      | .ok vault => (.ok rotation.successor, register u vault (useOpen cfg u s).2)
      | .error e => (.error e, (useOpen cfg u s).2) := by
  unfold answerSuccessor
  rw [exec_bind_ok (exec_modifyGet ..)]
  cases (useOpen cfg u s).1 with
  | some handle => rfl
  | none =>
    refine (exec_bind_ok (exec_get _)).trans ?_
    cases h : openWithUnlockKey rotation.successor (useOpen cfg u s).2 with
    | ok vault => rfl
    | error e => rfl

theorem exec_closeUnused (u : String) (vault : SessionVault) (s : State) : exec (closeUnused u vault) s =
    match load vault s with
    | .ok file => (.ok (), if file.unlockSlots.isEmpty then evict u s else s)
    | .error e => (.error e, s) := by
  unfold closeUnused unlockSlotIds
  rw [exec_bind_ok (exec_get s)]
  cases h : load vault s with
  | error e => rfl
  | ok file =>
    refine (exec_bind_ok rfl).trans ?_
    rw [List.isEmpty_map]
    dsimp only
    cases file.unlockSlots.isEmpty <;> rfl

theorem exec_create (cfg : Config) (u passphrase : String) (s : State) :
    let made := createFile u passphrase (dropExpired cfg s)
    (∃ e, exec (create cfg u passphrase) s = (.error e, dropExpired cfg s)) ∨
      s.file u = none ∧ exec (create cfg u passphrase) s = exec (admitVault cfg u made.1) made.2 := by
  intro made
  have hfresh : exec (requireAFreshLogin cfg u) s = _ := exec_requireAFreshLogin u s
  split at hfresh
  · exact .inl ⟨_, exec_bind_error hfresh⟩
  cases hfile : s.file u with
  | some file =>
    have hstore : exec (createStore u passphrase) (dropExpired cfg s) = (.error .alreadyInitialized, dropExpired cfg s) := by
      unfold createStore
      rw [exec_bind_ok (exec_get _), show (dropExpired cfg s).file u = some file from hfile]
      rfl
    exact .inl ⟨_, (exec_bind_ok hfresh).trans (exec_bind_error hstore)⟩
  | none =>
    have hstore : exec (createStore u passphrase) (dropExpired cfg s) = (.ok made.1, made.2) := by
      unfold createStore
      rw [exec_bind_ok (exec_get _), show (dropExpired cfg s).file u = none from hfile]
      rfl
    exact .inr ⟨rfl, (exec_bind_ok hfresh).trans (exec_bind_ok hstore)⟩

theorem exec_resetStore (u passphrase : String) (s : State) :
    (∃ e, exec (resetStore u passphrase) s = (.error e, s)) ∨ ∃ t setAside, (t = s ∨ t = countSetAside u s) ∧
      exec (resetStore u passphrase) s = (.ok ((createFile u passphrase t).1, setAside), (createFile u passphrase t).2) := by
  unfold resetStore
  rw [exec_bind_ok (exec_get s)]
  cases hfile : s.file u with
  | none => exact .inr ⟨s, false, Or.inl rfl, rfl⟩
  | some file =>
    dsimp only
    split
    · exact .inl ⟨_, rfl⟩
    · exact .inr ⟨countSetAside u s, true, Or.inr rfl, rfl⟩

theorem exec_resetVaultFile (cfg : Config) (u passphrase : String) (s : State) :
    (∃ e t, (t = (getOpen cfg u s).2 ∨ t = dropExpired cfg (getOpen cfg u s).2) ∧
      exec (resetVaultFile cfg u passphrase) s = (.error e, t)) ∨
    ∃ t setAside, (getOpen cfg u s).1 = none ∧
      (t = dropExpired cfg (getOpen cfg u s).2 ∨ t = countSetAside u (dropExpired cfg (getOpen cfg u s).2)) ∧
      exec (resetVaultFile cfg u passphrase) s =
        match exec (admitVault cfg u (createFile u passphrase t).1) (createFile u passphrase t).2 with
        | (.ok unlock, w) => (.ok ⟨setAside, unlock, t.fresh⟩, w.setResetVault u (some t.fresh))
        | (.error e, w) => (.error e, w) := by
  have hstart : exec (resetVaultFile cfg u passphrase) s = _ := exec_bind_ok (exec_modifyGet (getOpen cfg u) s)
  cases hcase : (getOpen cfg u s).1 with
  | some handle =>
    rw [hcase] at hstart
    exact .inl ⟨_, _, Or.inl rfl, hstart⟩
  | none =>
    rw [hcase] at hstart
    have hfresh : exec (requireAFreshLogin cfg u) (getOpen cfg u s).2 = _ := exec_requireAFreshLogin u _
    split at hfresh
    · exact .inl ⟨_, _, Or.inr rfl, hstart.trans (exec_bind_error hfresh)⟩
    rcases exec_resetStore u passphrase (dropExpired cfg (getOpen cfg u s).2) with ⟨e, he⟩ | ⟨t, setAside, ht, he⟩
    · exact .inl ⟨e, _, Or.inr rfl, hstart.trans ((exec_bind_ok hfresh).trans (exec_bind_error he))⟩
    refine .inr ⟨t, setAside, rfl, ht, hstart.trans ((exec_bind_ok hfresh).trans ((exec_bind_ok he).trans ?_))⟩
    rcases hadmitted : exec (admitVault cfg u (createFile u passphrase t).1) (createFile u passphrase t).2 with ⟨answer, w⟩
    cases answer with
    | ok unlock => exact exec_bind_ok hadmitted
    | error e => exact exec_bind_error hadmitted

section Calls

variable {Q R : State → State → Prop} [IsTrans State Q] [Std.Refl Q] (hcalm : ∀ s t, Calm s t → Q s t)
include hcalm

theorem within_forget {unlock : UnlockKey}
    (hremove : ∀ dataKey, Within Q (removeUnlockSlot ⟨unlock.subject, dataKey⟩ unlock.slotId)) :
    Within Q (forget unlock) := by
  refine within_bind within_get fun read => ?_
  cases hopen : openWithUnlockKey unlock read with
  | error e => exact fun s => refl_of Q s
  | ok vault =>
    obtain ⟨file, -, -, rfl⟩ := openWithUnlockKey_ok hopen
    refine fun s => within_bind (hremove file.dataKey) (fun _ => ?_) s
    exact within_bind (within_of_calm hcalm (within_modify (calm_forgetRotation unlock))) fun _ =>
      within_of_calm hcalm (calm_closeUnused unlock.subject _)

theorem within_reopen {unlock : UnlockKey} (hregister : ∀ vault s, Q s (register unlock.subject vault s))
    (hrotate : ∀ dataKey, Within Q (rotate cfg unlock ⟨unlock.subject, dataKey⟩)) : Within Q (reopen cfg unlock) := by
  refine within_bind within_get fun read => ?_
  split
  · next proven hopened =>
    obtain ⟨file, -, -, rfl⟩ := openWithUnlockKey_ok hopened
    exact within_bind (hrotate file.dataKey) fun _ => within_bind (within_modify (hregister _)) fun _ => within_pure _
  · refine within_bind within_get fun s => ?_
    split
    · exact within_throw _
    · exact within_answerSuccessor hcalm hregister _
  · exact within_throw _

variable [Std.Refl R] [Trans Q R R] [Trans R Q R] (hadd : ∀ vault, Within R (addUnlockSlot vault))
  (hregister : ∀ vault s, Q s (register u vault s))
include hadd hregister

theorem within_unlock (passphrase : String) : Within R (unlock cfg u passphrase) :=
  within_after (Q := Q) within_get fun _ =>
    within_after (Q := Q) (within_check _) fun vault => within_admitVault hcalm hadd hregister vault

theorem within_reset {passphrase : String} (hcreate : ∀ s, Q s (createFile u passphrase s).2) :
    Within R (reset cfg u passphrase) :=
  within_before (within_resetVaultFile hcalm hadd hregister hcreate) fun _ =>
    within_bind (within_of_calm hcalm (within_modify fun _ => calm_forgetRotations)) fun _ => within_pure _

end Calls

theorem calm_happen (s : State) (event : Event) : Calm s (happen cfg s event) := by
  cases event with
  | look u isAUse => exact calm_looked (looked cfg u isAUse s)
  | evictIdle =>
    refine ⟨fewer_of_same rfl rfl rfl (Nat.le_refl _), rfl, fun u handle h => ?_⟩
    change (if (s.handles u).all (stillInUse cfg s) then s.handles u else none) = some handle at h
    split at h
    · exact ⟨handle, h, rfl⟩
    · cases h
  | restart => exact ⟨⟨fun _ => List.Sublist.refl _, fun _ _ _ h => (by cases h), rfl, Nat.le_refl _⟩, rfl, fun _ _ h => by cases h⟩
  | _ => exact calm_of_same rfl rfl rfl (Nat.le_refl _) rfl

theorem within_step {R : State → State → Prop} [IsTrans State R] [Std.Refl R] (hcalm : ∀ s t, Calm s t → R s t)
    (hadd : ∀ vault, Within R (addUnlockSlot vault)) (op : Op)
    (hregister : ∀ u, op.subject = some u → ∀ vault s, R s (register u vault s))
    (hcreate : ∀ u passphrase s, R s (createFile u passphrase s).2)
    (hremove : ∀ vault slotId, Within R (removeUnlockSlot vault slotId))
    (hrotate : ∀ unlock dataKey, Within R (rotate cfg unlock ⟨unlock.subject, dataKey⟩)) (s : State) :
    R s (step cfg s op) := by
  cases op with
  | retain u record => exact within_signIn hcalm hadd u (some record) s
  | signInWithoutCredential u => exact within_signIn hcalm hadd u none s
  | unlock u passphrase => exact within_unlock hcalm hadd (hregister u rfl) passphrase s
  | create u passphrase => exact within_create hcalm hadd (hregister u rfl) (within_createStore (hcreate u passphrase)) s
  | reset u passphrase => exact within_reset hcalm hadd (hregister u rfl) (hcreate u passphrase) s
  | reopen key => exact within_reopen hcalm (hregister key.subject rfl) (hrotate key) s
  | forget key => exact within_forget hcalm (fun _ => hremove _ key.slotId) s
  | event event => exact hcalm s _ (calm_happen s event)

section Keeps

/-! What a call is made of: it takes away, or hands out a key, for a slot just drawn or for one in the file. -/

variable {P : State → Prop} (hfewer : ∀ {s t}, P s → Fewer s t → P t)
  (hwrapped : ∀ {wrap s t}, Keyed s → P s → Wrapped wrap s t →
    (wrap.unlock.slotId = s.fresh ∨ ∃ key, ⟨wrap.unlock.slotId, key⟩ ∈ s.slots wrap.unlock.subject) → P t)
include hfewer hwrapped

theorem keeps_step (hs : Keyed s) (hp : P s) (op : Op) : Keyed (step cfg s op) ∧ P (step cfg s op) := by
  have hpart : ∀ {s t}, Fewer s t → Preserving (fun s => Keyed s ∧ P s) s t :=
    fun h hs => ⟨hs.1.fewer h, hfewer hs.2 h⟩
  exact within_step (fun _ _ h => hpart h.toFewer)
    (fun vault => keeps_addUnlockSlot vault fun hs hp h hfresh => hwrapped hs hp h (.inl hfresh)) op
    (fun u _ vault s => hpart (fewer_register _)) (fun u passphrase s => hpart (fewer_createFile u passphrase s))
    (fun vault slotId s => hpart (fewer_removeUnlockSlot vault slotId s))
    (fun _ _ => keeps_rotate (fun hs hp h hslot => hwrapped hs hp h (.inr hslot)) rfl) s ⟨hs, hp⟩

theorem keeps_run (hs : Keyed s) (hp : P s) (ops : List Op) :
    Keyed (ops.foldl (step cfg) s) ∧ P (ops.foldl (step cfg) s) := by
  induction ops generalizing s with
  | nil => exact ⟨hs, hp⟩
  | cons op ops ih =>
    obtain ⟨hs, hp⟩ := keeps_step hfewer hwrapped hs hp op
    exact ih hs hp

end Keeps

theorem keyed_step (hs : Keyed s) (op : Op) : Keyed (step cfg s op) :=
  (keeps_step (P := fun _ => True) (fun _ _ => trivial) (fun _ _ _ _ => trivial) hs trivial op).1

theorem keyed_run (cfg : Config) (ops : List Op) : Keyed (run cfg ops) :=
  (keeps_run (P := fun _ => True) (fun _ _ => trivial) (fun _ _ _ _ => trivial) keyed_start trivial ops).1

end TddyCoder.Vaults
