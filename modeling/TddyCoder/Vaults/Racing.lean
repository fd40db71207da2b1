/-
  TddyCoder.Vaults.Racing — calls on one subject's vault that race
  (`packages/tddy-credentials/src/sessions.rs`).

  A step is a read of the vault file, one change of it, or a section under `transitions` or
  `rotations`. A refresh holds `rotations` from its first step to its last. `opened` and `ended`
  are read by no step. A refresh that has proven its key against the old file registers that vault
  after a reset has replaced the file; and one with the retired key is answered the recorded
  successor while the vault is open, though the slot has left the file
  (`a_replaced_vault_is_registered_and_a_gone_slot_answered`).

  Proved: `racing_calls_keep_their_word`, in every interleaving with neither (`Careful`).
-/

import TddyCoder.Table.Assoc
import TddyCoder.Vaults.Sections

namespace TddyCoder.Vaults.Racing

open List Function

open CredentialSync (CredentialRecord)
open Prog
open Machine Table

inductive Answer
  | retained (retained : Retained)
  | unlocked (key : UnlockKey)
  | reset (reset : Reset)
  | forgotten
  deriving DecidableEq

def Answer.key : Answer → Option UnlockKey
  | .retained answer => answer.unlockKey
  | .unlocked key => some key
  | .reset answer => some answer.unlockKey
  | .forgotten => none

/-- Where a call is: the step it takes next, with what it holds. -/
inductive Progress
  | retain (record : CredentialRecord)
  | unlock (passphrase : String)
  | unlockAdmit (vault : SessionVault)
  | create (passphrase : String)
  | reset (passphrase : String)
  | resetRotations (reset : Reset)
  | reopen (key : UnlockKey)
  | reopenRotate (key : UnlockKey) (proven : SessionVault)
  | reopenRegister (proven : SessionVault) (successor : UnlockKey)
  | reopenAnswer (rotation : Rotation)
  | forget (key : UnlockKey)
  | forgetRemove (key : UnlockKey) (vault : SessionVault)
  | forgetRotation (key : UnlockKey) (vault : SessionVault)
  | forgetClose (vault : SessionVault)
  | returned (answer : Except VaultError Answer)
  deriving DecidableEq

namespace Progress

def begins (u : String) : Progress → Bool
  | retain _ | unlock _ | create _ | reset _ => true
  | reopen key | forget key => key.subject = u
  | _ => false

def holdsRotations : Progress → Bool
  | reopenRotate .. | reopenRegister .. | reopenAnswer _ => true
  | _ => false

def takesRotations : Progress → Bool
  | reopen _ | resetRotations _ | forgetRotation .. => true
  | _ => false

def isReturned : Progress → Bool
  | returned _ => true
  | _ => false

end Progress

/-- The call goes on with what the step answered, or returns its error. -/
def goOn {α : Type} (next : α → Progress) : Except VaultError α × State → Progress × State
  | (.ok a, s) => (next a, s)
  | (.error e, s) => (.returned (.error e), s)

variable (cfg : Config) (u : String)

def proceed : Progress → State → Progress × State
  | .retain record, s => goOn (fun retained => .returned (.ok (.retained retained))) (exec (retain cfg u record) s)
  | .unlock passphrase, s => goOn .unlockAdmit (openWithPassphrase u passphrase s, s)
  | .unlockAdmit vault, s => goOn (fun key => .returned (.ok (.unlocked key))) (exec (admitVault cfg u vault) s)
  | .create passphrase, s => goOn (fun key => .returned (.ok (.unlocked key))) (exec (create cfg u passphrase) s)
  | .reset passphrase, s => goOn .resetRotations (exec (resetVaultFile cfg u passphrase) s)
  | .resetRotations reset, s => (.returned (.ok (.reset reset)), forgetRotations u s)
  | .reopen key, s =>
    match openWithUnlockKey key s with
    | .ok proven => (.reopenRotate key proven, s)
    | .error .locked =>
      match graceRotation cfg key s with
      | none => (.returned (.error .locked), s)
      | some rotation => (.reopenAnswer rotation, s)
    | .error failed => (.returned (.error failed), s)
  | .reopenRotate key proven, s => goOn (.reopenRegister proven) (exec (rotate cfg key proven) s)
  | .reopenRegister proven successor, s => (.returned (.ok (.unlocked successor)), register u proven s)
  | .reopenAnswer rotation, s =>
    goOn (fun key => .returned (.ok (.unlocked key))) (exec (answerSuccessor cfg u rotation) s)
  | .forget key, s => goOn (.forgetRemove key) (openWithUnlockKey key s, s)
  | .forgetRemove key vault, s => goOn (fun _ => .forgetRotation key vault) (exec (removeUnlockSlot vault key.slotId) s)
  | .forgetRotation key vault, s => (.forgetClose vault, Vaults.forgetRotation key s)
  | .forgetClose vault, s => goOn (fun _ => .returned (.ok .forgotten)) (exec (closeUnused u vault) s)
  | .returned answer, s => (.returned answer, s)

structure System where
  shared : State
  calls : Nat → Option Progress
  rotationsHeld : Option Nat
  opened : Nat → List UnlockKey
  ended : Nat → Bool

def System.start (s : State) : System := ⟨s, fun _ => none, none, fun _ => [], fun _ => false⟩

variable (sys : System)

/-- The shared state changes, and the calls under way see it. -/
def System.become (t : State) : System :=
  { sys with
    shared := t
    opened := fun i =>
      if (sys.calls i).any (!·.isReturned) then sys.opened i ++ openKeys u t else sys.opened i
    ended := fun i => sys.ended i || ((sys.calls i).any (·.isReturned) && t.resetVault u ≠ sys.shared.resetVault u) }

def System.moveTo (i : Nat) (p q : Progress) : System :=
  { sys with
    calls := update sys.calls i (some q)
    rotationsHeld := if q.holdsRotations then some i else if p.holdsRotations then none else sys.rotationsHeld }

inductive Action
  | start (i : Nat) (call : Progress)
  | run (i : Nat)
  | evictIdle
  | expirePending
  | advance (time : Nat)

def step : Action → System
  | .start i call =>
    if (sys.calls i).isNone && call.begins u then
      { sys with
        calls := update sys.calls i (some call)
        opened := update sys.opened i (openKeys u sys.shared)
        ended := update sys.ended i false }
    else sys
  | .run i =>
    match sys.calls i with
    | none => sys
    | some p =>
      if p.takesRotations && sys.rotationsHeld.isSome then sys
      else (sys.become u (proceed cfg u p sys.shared).2).moveTo i p (proceed cfg u p sys.shared).1
  | .evictIdle => sys.become u (evictIdle cfg sys.shared)
  | .expirePending => sys.become u (dropExpired cfg sys.shared)
  | .advance time => sys.become u { sys.shared with now := sys.shared.now + time }

/-- Every key a call returned opened its slot while the call was under way, and the vault of a reset that returned is the
    open one as long as nothing dropped or replaced it since. -/
structure KeepsWord : Prop where
  keys : ∀ i answer, sys.calls i = some (.returned (.ok answer)) → ∀ key, answer.key = some key → key ∈ sys.opened i
  freshVault : ∀ i reset, sys.calls i = some (.returned (.ok (.reset reset))) → sys.ended i = false →
    ∃ handle file, sys.shared.handles u = some handle ∧ handle.vault.dataKey = reset.dataKey ∧
      sys.shared.file u = some file ∧ file.dataKey = reset.dataKey

/-! ## When they do -/

def System.Resetting : Prop := ∃ i reset, sys.calls i = some (.resetRotations reset)

/-- A refresh registers a vault that is still the file's, answers a successor whose slot is still there, and while a reset
    is about to return its vault is not dropped. -/
def CarefulStep (s : State) (resetting : Prop) : Progress → Prop
  | .retain _ | .reset _ => resetting → InUse cfg u s
  | .reopenAnswer rotation =>
    ((useOpen cfg u s).1.isSome → rotation.successor.slotId ∈ (s.slots u).map (·.id)) ∧ (resetting → InUse cfg u s)
  | .reopenRegister proven _ => isStale s proven = false
  | .forgetClose _ => resetting → s.slots u ≠ []
  | _ => True

def Careful : Action → Prop
  | .run i => ∀ p, sys.calls i = some p → CarefulStep cfg u sys.shared sys.Resetting p
  | .evictIdle => sys.Resetting → InUse cfg u sys.shared
  | _ => True

variable {cfg u} {s : State} {resetting : Prop}

/-! ## One call's step -/

/-- What is known of a call under way. -/
def Fits (u : String) (s : State) (opened : List UnlockKey) (ended : Bool) : Progress → Prop
  | .unlockAdmit vault | .forgetRemove _ vault | .forgetRotation _ vault | .forgetClose vault => vault.subject = u
  | .resetRotations reset => reset.unlockKey ∈ opened ∧ s.resetVault u = some reset.dataKey
  | .reopen key | .forget key => key.subject = u
  | .reopenRotate key proven => key.subject = u ∧ proven.subject = u
  | .reopenRegister proven successor => proven.subject = u ∧ successor ∈ opened
  | .reopenAnswer rotation =>
    s.newest u rotation.successor.slotId = some ⟨rotation.successor, some rotation.retired, rotation.rotatedAt⟩
  | .returned (.ok answer) => (∀ key, answer.key = some key → key ∈ opened) ∧
      ∀ reset, answer = .reset reset → ended = false → s.resetVault u = some reset.dataKey
  | _ => True

/-- A step keeps the vault in order, and the call goes on with what is known of it. -/
structure Advanced (u : String) (s : State) (resetting : Prop) (opened : List UnlockKey) (after : Progress × State) :
    Prop where
  sound : Sound u after.2
  steady : resetting → ∀ dataKey, s.resetVault u = some dataKey → after.2.resetVault u = some dataKey
  fits : Fits u after.2 (opened ++ openKeys u after.2) false after.1

variable {α : Type} {next : α → Progress} {opened : List UnlockKey} {given : Prop}

theorem advanced_of_section {m : Part α}
    (hsection : Section u given s (exec m s).2) (hgiven : resetting → given)
    (hnext : ∀ a, (exec m s).1 = .ok a → Fits u (exec m s).2 (opened ++ openKeys u (exec m s).2) false (next a)) :
    Advanced u s resetting opened (goOn next (exec m s)) := by
  generalize exec m s = after at hsection hnext
  obtain ⟨answer, t⟩ := after
  cases answer with
  | error e => exact ⟨hsection.sound, fun hr => hsection.steady (hgiven hr), trivial⟩
  | ok a => exact ⟨hsection.sound, fun hr => hsection.steady (hgiven hr), hnext a rfl⟩

variable {opened : List UnlockKey} {key : UnlockKey}

theorem fits_unlocked (h : key ∈ opened) :
    Fits u s opened false (.returned (.ok (.unlocked key))) := by
  refine ⟨fun answered hkey => ?_, fun reset he => by cases he⟩
  cases hkey
  exact h

theorem advanced_unlocked {m : Part UnlockKey} (h : Unlocks u given s (exec m s)) (hgiven : resetting → given) :
    Advanced u s resetting opened (goOn (fun key => .returned (.ok (.unlocked key))) (exec m s)) :=
  advanced_of_section h.toSection hgiven fun key hok => fits_unlocked (mem_append_right _ (h.opens key hok))

theorem advanced_of_read {read : Except VaultError α} (hs : Sound u s)
    (hnext : ∀ a, read = .ok a → Fits u s (opened ++ openKeys u s) false (next a)) :
    Advanced u s resetting opened (goOn next (read, s)) := by
  cases read with
  | error e => exact ⟨hs, fun _ _ h => h, trivial⟩
  | ok a => exact ⟨hs, fun _ _ h => h, hnext a rfl⟩

theorem advanced_reopen (hs : Sound u s) (hkey : key.subject = u) :
    Advanced u s resetting opened (proceed cfg u (.reopen key) s) := by
  unfold proceed
  dsimp only
  split
  · next proven hopen =>
    obtain ⟨hsubject, -⟩ := load_of_opened hopen
    exact ⟨hs, fun _ _ h => h, hkey, hsubject.trans hkey⟩
  · split
    · exact ⟨hs, fun _ _ h => h, trivial⟩
    · next rotation hgrace =>
      obtain ⟨hheld, -, -⟩ := graceRotation_some hgrace
      have hlast := hs.keyed.rotated _ _ _ hheld
      obtain ⟨-, -, hslot⟩ := newest_isOf hlast
      refine ⟨hs, fun _ _ h => h, ?_⟩
      show s.newest u rotation.successor.slotId = _
      rw [show rotation.successor.slotId = key.slotId from hslot, ← hkey]
      exact hlast
  · exact ⟨hs, fun _ _ h => h, trivial⟩

variable {p : Progress} {ended : Bool}

theorem proceed_advanced (hs : Sound u s)
    (hfits : Fits u s opened ended p) (hcareful : CarefulStep cfg u s resetting p) (hunderWay : p.isReturned = false) :
    Advanced u s resetting opened (proceed cfg u p s) := by
  cases p with
  | retain record =>
    obtain ⟨hsection, hkeys⟩ := @section_signIn cfg s u hs (some record)
    refine advanced_of_section hsection hcareful fun retained hok => ⟨fun key hkey => ?_, fun reset he => by cases he⟩
    exact mem_append_right _ (hkeys retained key hok hkey)
  | unlock passphrase =>
    refine advanced_of_read hs fun vault hok => ?_
    unfold openWithPassphrase at hok
    split at hok
    · cases hok
    · split at hok <;> cases hok
      rfl
  | unlockAdmit vault => exact advanced_unlocked (@section_admitVault cfg s u vault hs hfits) fun _ => trivial
  | create passphrase => exact advanced_unlocked (@section_create cfg s u hs passphrase) fun _ => trivial
  | reset passphrase =>
    obtain ⟨hsection, hkeys⟩ := @section_resetVaultFile cfg s u hs passphrase
    refine advanced_of_section hsection hcareful fun reset hok => ?_
    exact ⟨mem_append_right _ (hkeys reset hok).1, (hkeys reset hok).2⟩
  | resetRotations reset =>
    have hforgot : Sound u (forgetRotations u s) :=
      hs.stay (hs.keyed.calm calm_forgetRotations) (stay_of_same rfl rfl rfl)
    refine ⟨hforgot, fun _ _ h => h, fun key hkey => ?_, fun answered he _ => ?_⟩
    · cases hkey
      exact mem_append_left _ hfits.1
    · cases he
      exact hfits.2
  | reopen key => exact advanced_reopen hs hfits
  | reopenRotate key proven =>
    obtain ⟨hsection, hkeys⟩ := @section_rotate cfg s u hs key proven hfits.2 hfits.1
    exact advanced_of_section hsection (fun _ => trivial) fun successor hok =>
      ⟨hfits.2, mem_append_right _ (hkeys successor hok)⟩
  | reopenRegister proven successor =>
    have hload : ∃ file, load proven s = .ok file := by
      have hfresh : isStale s proven = false := hcareful
      unfold isStale at hfresh
      split at hfresh
      · next file h => exact ⟨file, h⟩
      · cases hfresh
    obtain ⟨file, hload⟩ := hload
    exact ⟨hs.registered hfits.1 hload, fun _ _ h => h, fits_unlocked (mem_append_left _ hfits.2)⟩
  | reopenAnswer rotation => exact advanced_unlocked (section_answerSuccessor hs hfits hcareful.1) hcareful.2
  | forget key =>
    refine advanced_of_read hs fun vault hok => ?_
    exact (load_of_opened hok).1.trans hfits
  | forgetRemove key vault =>
    have hremoved := section_of_stay hs (hs.keyed.fewer (fewer_removeUnlockSlot vault key.slotId s))
      (stay_removeUnlockSlot vault key.slotId s)
    exact advanced_of_section hremoved (fun _ => trivial) fun _ _ => hfits
  | forgetRotation key vault =>
    have hforgot : Sound u (Vaults.forgetRotation key s) :=
      hs.stay (hs.keyed.calm (calm_forgetRotation key s)) (stay_of_same rfl rfl rfl)
    exact ⟨hforgot, fun _ _ h => h, hfits⟩
  | forgetClose vault =>
    obtain ⟨hclosed, hkept⟩ := section_closeUnused hs hfits
    have hsection : Section u (s.slots u ≠ []) s (exec (closeUnused u vault) s).2 :=
      ⟨hclosed, fun hne _ hword => by rw [hkept hne]; exact hword⟩
    exact advanced_of_section hsection hcareful fun _ _ => ⟨fun key hkey => (by cases hkey), fun reset he => by cases he⟩
  | returned answer => cases hunderWay

/-! ## The others' view of a step -/

abbrev Newest (u : String) (slotId : Nat) (wrap : Wrap) : State → State → Prop :=
  Preserving fun s => Keyed s ∧ s.newest u slotId = some wrap

variable {slotId : Nat} {wrap : Wrap} {t : State}

theorem newest_of_fewer (s t : State) (h : Fewer s t) : Newest u slotId wrap s t := by
  rintro ⟨hs, hnewest⟩
  refine ⟨hs.fewer h, ?_⟩
  rw [h.newest]
  exact hnewest

theorem newest_goOn {after : Except VaultError α × State} (h : Newest u slotId wrap s after.2) :
    Newest u slotId wrap s (goOn next after).2 := by
  obtain ⟨answer, t⟩ := after
  cases answer <;> exact h

theorem newest_addUnlockSlot (vault : SessionVault) : Within (Newest u slotId wrap) (addUnlockSlot vault) := by
  refine keeps_addUnlockSlot vault fun hs hnewest h hfresh => ?_
  rw [newest_cons h.wraps, isOf_eq_false fun _ hi => hs.ne_fresh hnewest (hfresh.symm.trans hi)]
  exact hnewest

theorem proceed_newest (hnot : ∀ key proven, p ≠ .reopenRotate key proven) (hs : Keyed s)
    (hnewest : s.newest u slotId = some wrap) : (proceed cfg u p s).2.newest u slotId = some wrap := by
  have hcalm : ∀ s t, Calm s t → Newest u slotId wrap s t := fun s t h => newest_of_fewer s t h.toFewer
  have hadd := @newest_addUnlockSlot u slotId wrap
  have hregister : ∀ vault s, Newest u slotId wrap s (register u vault s) :=
    fun vault s => newest_of_fewer s _ (fewer_register _)
  have hcreate : ∀ passphrase s, Newest u slotId wrap s (createFile u passphrase s).2 :=
    fun passphrase s => newest_of_fewer s _ (fewer_createFile u passphrase s)
  have hstep : Newest u slotId wrap s (proceed cfg u p s).2 := by
    cases p with
    | retain record => exact newest_goOn (within_signIn hcalm hadd u (some record) s)
    | unlock passphrase => exact newest_goOn fun h => h
    | unlockAdmit vault => exact newest_goOn (within_admitVault hcalm hadd hregister vault s)
    | create passphrase => exact newest_goOn (within_create hcalm hadd hregister (within_createStore (hcreate passphrase)) s)
    | reset passphrase => exact newest_goOn (within_resetVaultFile hcalm hadd hregister (hcreate passphrase) s)
    | resetRotations reset => exact hcalm s _ calm_forgetRotations
    | reopen key =>
      unfold proceed
      dsimp only
      split
      · exact fun h => h
      · split <;> exact fun h => h
      · exact fun h => h
    | reopenRotate key proven => exact absurd rfl (hnot key proven)
    | reopenRegister proven successor => exact hregister proven s
    | reopenAnswer rotation => exact newest_goOn (within_answerSuccessor hcalm hregister rotation s)
    | forget key => exact newest_goOn fun h => h
    | forgetRemove key vault => exact newest_goOn (newest_of_fewer s _ (fewer_removeUnlockSlot vault key.slotId s))
    | forgetRotation key vault => exact hcalm s _ (calm_forgetRotation key s)
    | forgetClose vault => exact newest_goOn (hcalm s _ (calm_closeUnused u vault s))
    | returned answer => exact fun h => h
  exact (hstep ⟨hs, hnewest⟩).2

theorem goOn_holds (hnext : ∀ a, (next a).holdsRotations = false) (after : Except VaultError α × State) :
    (goOn next after).1.holdsRotations = false := by
  obtain ⟨answer, t⟩ := after
  cases answer with
  | ok a => exact hnext a
  | error e => rfl

theorem proceed_holds {p : Progress} (h : (proceed cfg u p s).1.holdsRotations) :
    p.holdsRotations ∨ p.takesRotations := by
  have hnone : (proceed cfg u p s).1.holdsRotations ≠ false := by
    rw [h]
    exact Bool.noConfusion
  cases p with
  | reopenRotate key proven | reopenRegister proven successor | reopenAnswer rotation => exact .inl rfl
  | reopen key | resetRotations reset | forgetRotation key vault => exact .inr rfl
  | returned answer => exact absurd rfl hnone
  | _ => exact absurd (goOn_holds (fun _ => rfl) _) hnone

/-- What is known of a call stays known while others take steps. -/
theorem fits_seen {opened' : List UnlockKey} {ended' : Bool}
    (h : Fits u s opened ended p) (hopened : ∀ key ∈ opened, key ∈ opened')
    (hnewest : p.holdsRotations → ∀ slotId wrap, s.newest u slotId = some wrap → t.newest u slotId = some wrap)
    (hsteady : (∃ reset, p = .resetRotations reset) → ∀ dataKey, s.resetVault u = some dataKey →
      t.resetVault u = some dataKey)
    (hended : p.isReturned → ended' = false → ended = false ∧ t.resetVault u = s.resetVault u) :
    Fits u t opened' ended' p := by
  cases p with
  | resetRotations reset => exact ⟨hopened _ h.1, hsteady ⟨reset, rfl⟩ _ h.2⟩
  | reopenRegister proven successor => exact ⟨h.1, hopened _ h.2⟩
  | reopenAnswer rotation => exact hnewest rfl _ _ h
  | returned answer =>
    cases answer with
    | error e => trivial
    | ok answer =>
      refine ⟨fun key hkey => hopened key (h.1 key hkey), fun reset he hnot => ?_⟩
      obtain ⟨hbefore, hsame⟩ := hended rfl hnot
      rw [hsame]
      exact h.2 reset he hbefore
  | _ => exact h

/-! ## The system -/

structure Inv (u : String) (sys : System) : Prop where
  sound : Sound u sys.shared
  lock : ∀ i p, sys.calls i = some p → p.holdsRotations → sys.rotationsHeld = some i
  notEnded : ∀ i p, sys.calls i = some p → p.isReturned = false → sys.ended i = false
  fits : ∀ i p, sys.calls i = some p → Fits u sys.shared (sys.opened i) (sys.ended i) p

variable {sys : System}

theorem inv_start (hs : Keyed s) (hclosed : s.handles u = none) (hnone : s.resetVault u = none) :
    Inv u (System.start s) where
  sound := ⟨hs, fun _ h => (by cases hclosed.symm.trans h), fun _ h => by cases hnone.symm.trans h⟩
  lock := fun _ _ h => by cases h
  notEnded := fun _ _ h => by cases h
  fits := fun _ _ h => by cases h

theorem Inv.keepsWord (h : Inv u sys) : KeepsWord u sys where
  keys := fun i _ hi => (h.fits i _ hi).1
  freshVault := fun i reset hi hended => h.sound.word _ ((h.fits i _ hi).2 reset rfl hended)

variable {i : Nat}

theorem opened_become (sys : System) (t : State) (hi : sys.calls i = some p)
    (hunderWay : p.isReturned = false) : (sys.become u t).opened i = sys.opened i ++ openKeys u t := by
  unfold System.become
  simp [hi, hunderWay]

theorem ended_become (sys : System) (t : State) (hi : sys.calls i = some p)
    (hunderWay : p.isReturned = false) : (sys.become u t).ended i = sys.ended i := by
  unfold System.become
  simp [hi, hunderWay]

section

variable (h : Inv u sys)
include h

theorem Inv.seen (hi : sys.calls i = some p)
    (hnewest : p.holdsRotations → ∀ slotId wrap, sys.shared.newest u slotId = some wrap → t.newest u slotId = some wrap)
    (hsteady : sys.Resetting → ∀ dataKey, sys.shared.resetVault u = some dataKey → t.resetVault u = some dataKey) :
    Fits u t ((sys.become u t).opened i) ((sys.become u t).ended i) p := by
  refine fits_seen (h.fits i p hi) (fun key hkey => ?_) hnewest ?_ fun hreturned hnot => ?_
  · unfold System.become
    dsimp only
    split
    · exact mem_append_left _ hkey
    · exact hkey
  · rintro ⟨reset, rfl⟩
    exact hsteady ⟨i, reset, hi⟩
  · unfold System.become at hnot
    simpa [hi, hreturned] using hnot

theorem Inv.become (hsound : Sound u t) (hwraps : t.wraps = sys.shared.wraps)
    (hsteady : sys.Resetting → ∀ dataKey, sys.shared.resetVault u = some dataKey → t.resetVault u = some dataKey) :
    Inv u (sys.become u t) where
  sound := hsound
  lock := h.lock
  notEnded := fun i p hi hunderWay => by
    rw [ended_become sys t hi hunderWay]
    exact h.notEnded i p hi hunderWay
  fits := fun i p hi => by
    have hnewest : ∀ slotId wrap, sys.shared.newest u slotId = some wrap → t.newest u slotId = some wrap := by
      intro slotId wrap hnewest
      unfold State.newest at hnewest ⊢
      rw [hwraps]
      exact hnewest
    exact h.seen hi (fun _ => hnewest) hsteady

theorem Inv.holder {j : Nat} {q : Progress} (hi : sys.calls i = some p) (hp : p.holdsRotations)
    (hj : sys.calls j = some q) (hq : q.holdsRotations) : j = i :=
  Option.some.inj ((h.lock j q hj hq).symm.trans (h.lock i p hi hp))

theorem Inv.run (hi : sys.calls i = some p) (hcareful : CarefulStep cfg u sys.shared sys.Resetting p)
    (hlock : ¬ (p.takesRotations ∧ sys.rotationsHeld.isSome)) (hunderWay : p.isReturned = false) :
    Inv u ((sys.become u (proceed cfg u p sys.shared).2).moveTo i p (proceed cfg u p sys.shared).1) := by
  have hadvanced := proceed_advanced h.sound (h.fits i p hi) hcareful hunderWay
  refine ⟨hadvanced.sound, fun j q hj hholds => ?_, fun j q hj hq => ?_, fun j q hj => ?_⟩
  · show (if (proceed cfg u p sys.shared).1.holdsRotations then some i else
      if p.holdsRotations then none else sys.rotationsHeld) = some j
    rcases update_eq_some.mp hj with ⟨rfl, rfl⟩ | ⟨hji, hj⟩
    · rw [if_pos hholds]
    -- Another call holds the lock, so this one neither did nor could take it.
    have hheld := h.lock j q hj hholds
    have hnotHeld : ¬ p.holdsRotations := fun hp => hji (h.holder hi hp hj hholds)
    have hnotNow : ¬ (proceed cfg u p sys.shared).1.holdsRotations := by
      intro hnow
      rcases proceed_holds hnow with hp | hp
      · exact hnotHeld hp
      · exact hlock ⟨hp, by rw [hheld]; rfl⟩
    rw [if_neg hnotNow, if_neg hnotHeld]
    exact hheld
  · rcases update_eq_some.mp hj with ⟨rfl, -⟩ | ⟨-, hj⟩
    · exact (ended_become sys _ hi hunderWay).trans (h.notEnded j p hi hunderWay)
    · exact (ended_become sys _ hj hq).trans (h.notEnded j q hj hq)
  · rcases update_eq_some.mp hj with ⟨rfl, rfl⟩ | ⟨hji, hj⟩
    · show Fits u _ ((sys.become u _).opened j) ((sys.become u _).ended j) _
      rw [opened_become sys _ hi hunderWay, ended_become sys _ hi hunderWay, h.notEnded j p hi hunderWay]
      exact hadvanced.fits
    refine h.seen hj (fun hholds slotId wrap hnewest => ?_) hadvanced.steady
    refine proceed_newest ?_ h.sound.keyed hnewest
    rintro key proven rfl
    exact hji (h.holder hi rfl hj hholds)

theorem Inv.started (i : Nat) {call : Progress} (hbegins : call.begins u) :
    Inv u { sys with
      calls := update sys.calls i (some call)
      opened := update sys.opened i (openKeys u sys.shared)
      ended := update sys.ended i false } := by
  have hfits : ∀ opened ended, Fits u sys.shared opened ended call := by
    intro opened ended
    cases call with
    | reopen key | forget key => exact of_decide_eq_true (p := key.subject = u) hbegins
    | _ => trivial
  refine ⟨h.sound, fun j p hj hholds => ?_, fun j p hj hp => ?_, fun j p hj => ?_⟩
  · rcases update_eq_some.mp hj with ⟨rfl, rfl⟩ | ⟨-, hj⟩
    · cases p <;> cases hholds <;> cases hbegins
    · exact h.lock j p hj hholds
  · rcases update_eq_some.mp hj with ⟨rfl, -⟩ | ⟨hji, hj⟩
    · exact update_self ..
    · exact (update_of_ne hji _ _).trans (h.notEnded j p hj hp)
  rcases update_eq_some.mp hj with ⟨rfl, rfl⟩ | ⟨hji, hj⟩
  · exact hfits _ _
  · show Fits u sys.shared (update sys.opened i _ j) (update sys.ended i _ j) p
    rw [update_of_ne hji, update_of_ne hji]
    exact h.fits j p hj

theorem inv_step {action : Action} (hcareful : Careful cfg u sys action) :
    Inv u (step cfg u sys action) := by
  have hsame : ∀ t : State, t.file = sys.shared.file → t.rotations = sys.shared.rotations → t.wraps = sys.shared.wraps →
      t.fresh = sys.shared.fresh → t.handles = sys.shared.handles → t.resetVault = sys.shared.resetVault →
      Inv u (sys.become u t) := by
    intro t hfile hrotations hwraps hfresh hhandles hreset
    have hkeyed := h.sound.keyed.calm (calm_of_same hfile hrotations hwraps (Nat.le_of_eq hfresh.symm) hhandles)
    refine h.become (h.sound.stay hkeyed (stay_of_same hhandles hreset hfile)) hwraps fun _ dataKey hword => ?_
    rw [hreset]
    exact hword
  cases action with
  | start i call =>
    unfold step
    dsimp only
    split
    · next hstart =>
      rw [Bool.and_eq_true] at hstart
      exact h.started i hstart.2
    · exact h
  | run i =>
    unfold step
    dsimp only
    cases hi : sys.calls i with
    | none => exact h
    | some p =>
      dsimp only
      split
      · exact h
      · next hlock =>
        rw [Bool.and_eq_true] at hlock
        cases hp : p.isReturned with
        | false => exact h.run hi (hcareful p hi) hlock hp
        | true =>
          cases p with
          | returned answer =>
            show Inv u { sys.become u sys.shared with calls := update sys.calls i (some (.returned answer)) }
            rw [← hi, update_eq_self]
            exact hsame _ rfl rfl rfl rfl rfl rfl
          | _ => cases hp
  | evictIdle =>
    have hevicted : Section u (InUse cfg u sys.shared) sys.shared (evictIdle cfg sys.shared) := section_evictIdle h.sound
    exact h.become hevicted.sound rfl fun hresetting => hevicted.steady (hcareful hresetting)
  | expirePending | advance time => exact hsame _ rfl rfl rfl rfl rfl rfl

end

/-- Whatever history left the files as they are, a daemon that starts on them keeps its word in every interleaving whose
    steps are careful. -/
theorem racing_calls_keep_their_word (cfg : Config) (u : String) (history : List Op) (actions : List Action)
    (h : Guarded (step cfg u) (Careful cfg u) (System.start (restart (Vaults.run cfg history))) actions) :
    ∀ reached, reached <+: actions →
      KeepsWord u (reached.foldl (step cfg u) (System.start (restart (Vaults.run cfg history)))) := by
  intro reached hreached
  have hkeyed : Keyed (restart (Vaults.run cfg history)) := by
    have hcalm : Calm _ (restart (Vaults.run cfg history)) := @calm_happen cfg _ .restart
    exact (keyed_run cfg history).calm hcalm
  have hstart : Inv u (System.start (restart (Vaults.run cfg history))) := inv_start hkeyed rfl rfl
  have hkeep : ∀ sys action, Inv u sys → Careful cfg u sys action → Inv u (step cfg u sys action) :=
    fun _ _ hs hok => inv_step hs hok
  exact (guarded_reached hkeep hstart h hreached).keepsWord

/-- A reset is under way when another sign-in comes, and waits for the refresh with the key that this one was answered. -/
theorem a_reset_a_sign_in_and_a_refresh_keep_their_word :
    let cfg : Config := ⟨30, some 600, none⟩
    let history : List Op := [.signInWithoutCredential "ada", .create "ada" "words"]
    let record : CredentialRecord := ⟨"github", "ada", "", "token", [], 0, 1⟩
    let reset : Reset := ⟨true, ⟨"ada", 5, 6⟩, 4⟩
    let actions : List Action := [.start 0 (.retain record), .run 0, .start 1 (.reset "new words"), .run 1,
      .start 2 (.retain record), .run 2, .start 3 (.reopen ⟨"ada", 8, 9⟩), .run 3, .run 1, .run 3, .run 3, .run 1]
    let sys := actions.foldl (step cfg "ada") (System.start (restart (Vaults.run cfg history)))
    KeepsWord "ada" sys ∧ sys.calls 1 = some (.returned (.ok (.reset reset))) ∧
      (⟨"ada", 8, 10⟩ : UnlockKey) ∈ sys.opened 3 := by
  intro cfg history record reset actions sys
  have hnext {o : Option Progress} {p q : Progress} (hq : o = some q) (hp : o = some p) : q = p :=
    Option.some.inj (hq.symm.trans hp)
  have hcareful : Guarded (step cfg "ada") (Careful cfg "ada") (System.start (restart (Vaults.run cfg history))) actions := by
    refine ⟨trivial, fun p hp => ?_, trivial, fun p hp => ?_, trivial, fun p hp => ?_, trivial, fun p hp => ?_,
      fun p hp => ?_, fun p hp => ?_, fun p hp => ?_, fun p hp => ?_, trivial⟩
    · obtain rfl := hnext (q := .retain record) (by decide +kernel) hp
      exact fun _ _ _ => rfl
    · obtain rfl := hnext (q := .reset "new words") (by decide +kernel) hp
      exact fun _ _ _ => rfl
    · obtain rfl := hnext (q := .retain record) (by decide +kernel) hp
      exact fun _ _ _ => rfl
    · obtain rfl := hnext (q := .reopen ⟨"ada", 8, 9⟩) (by decide +kernel) hp
      trivial
    · obtain rfl := hnext (q := .resetRotations reset) (by decide +kernel) hp
      trivial
    · obtain rfl := hnext (q := .reopenRotate ⟨"ada", 8, 9⟩ ⟨"ada", 4⟩) (by decide +kernel) hp
      trivial
    · obtain rfl := hnext (q := .reopenRegister ⟨"ada", 4⟩ ⟨"ada", 8, 10⟩) (by decide +kernel) hp
      show isStale _ _ = false
      decide +kernel
    · obtain rfl := hnext (q := .resetRotations reset) (by decide +kernel) hp
      trivial
  exact ⟨racing_calls_keep_their_word cfg "ada" history actions hcareful actions (prefix_refl _), by decide +kernel,
    by decide +kernel⟩

/-- The refresh has proven its key against the file a reset then replaces, and registers that vault over the fresh one. And
    between a logout's removal of the slot and of the rotation on record, the retired key is answered the key to a slot
    that is gone. -/
theorem a_replaced_vault_is_registered_and_a_gone_slot_answered :
    let cfg : Config := ⟨30, some 600, none⟩
    let history : List Op := [.signInWithoutCredential "ada", .create "ada" "words"]
    let started := System.start (restart (Vaults.run cfg history))
    let key : UnlockKey := ⟨"ada", 1, 2⟩
    let replaced : List Action := [.start 0 (.reopen key), .run 0, .run 0,
      .start 1 (.retain ⟨"github", "ada", "", "token", [], 0, 1⟩), .run 1, .start 2 (.reset "new words"), .run 2,
      .run 0, .run 2]
    let gone : List Action := [.start 0 (.reopen key), .run 0, .run 0, .run 0, .start 1 (.forget ⟨"ada", 1, 4⟩), .run 1,
      .run 1, .start 2 (.reopen key), .run 2, .run 2]
    ¬ KeepsWord "ada" (replaced.foldl (step cfg "ada") started) ∧ ¬ KeepsWord "ada" (gone.foldl (step cfg "ada") started) := by
  intro cfg history started key replaced gone
  refine ⟨fun h => ?_, fun h => ?_⟩
  · have hreturned : (replaced.foldl (step cfg "ada") started).calls 2 =
        some (.returned (.ok (.reset ⟨true, ⟨"ada", 6, 7⟩, 5⟩))) := by decide +kernel
    have hold : ((replaced.foldl (step cfg "ada") started).shared.handles "ada").map (·.vault.dataKey) = some 0 := by decide +kernel
    obtain ⟨handle, file, hhandle, hfresh, -⟩ := h.freshVault 2 _ hreturned (by decide +kernel)
    rw [hhandle, Option.map_some, hfresh] at hold
    cases hold
  have hreturned : (gone.foldl (step cfg "ada") started).calls 2 = some (.returned (.ok (.unlocked ⟨"ada", 1, 4⟩))) := by
    decide +kernel
  have hnever : (⟨"ada", 1, 4⟩ : UnlockKey) ∉ (gone.foldl (step cfg "ada") started).opened 2 := by decide +kernel
  exact hnever (h.keys 2 _ hreturned _ rfl)

end TddyCoder.Vaults.Racing
