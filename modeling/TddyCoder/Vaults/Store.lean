/-
  TddyCoder.Vaults.Store — the credential vaults of a daemon's users
  (`packages/tddy-credentials/src/sessions.rs`, `sessions/open.rs`, `sessions/pending.rs`,
  `vault.rs`, `vault/unlock.rs`): the sealed file, the vaults that are open, the sign-ins that
  wait for a closed one, and the unlock keys.

  Sealing is perfect here, random bytes are the numbers from `fresh` on, and writing never fails.
  A call is cut into the parts that run without another call's parts in between; the calls are put
  together from them as whole ones in `Vaults.Calls` and step by step in `Vaults.Racing`.

  Four fields are about the history and read by no part: `signIns` numbers the sign-ins,
  `sealings` are the records sealed with what each replaced, `wraps` the keys handed out, the
  newest first, and `resetVault` is the data key of the vault the last reset made.
-/

import TddyCoder.CredentialSync.Vault
import TddyCoder.Prog.Ensures

namespace TddyCoder.Vaults

open Function

open CredentialSync (CredentialRecord RecordKey)
open Prog (check outcome)

/-! ## What there is -/

structure UnlockKey where
  subject : String
  slotId : Nat
  key : Nat
  deriving DecidableEq

/-- The data key wrapped under `key`. -/
structure UnlockSlot where
  id : Nat
  key : Nat
  deriving DecidableEq

structure SealedRecord where
  record : CredentialRecord
  signIn : Nat

def SealedRecord.key (sealed : SealedRecord) : RecordKey := ⟨sealed.record.provider, sealed.record.account⟩

structure VaultFile where
  passphrase : String
  dataKey : Nat
  unlockSlots : List UnlockSlot
  records : List SealedRecord

structure SessionVault where
  subject : String
  dataKey : Nat
  deriving DecidableEq

structure OpenVault where
  vault : SessionVault
  /-- Which handle it is. -/
  arc : Nat
  used : Nat

structure Pending where
  record : Option CredentialRecord
  since : Nat
  signIn : Nat
  deriving DecidableEq

def Pending.key (pending : Pending) : Option RecordKey :=
  pending.record.map fun record => ⟨record.provider, record.account⟩

structure Rotation where
  retired : UnlockKey
  successor : UnlockKey
  rotatedAt : Nat
  deriving DecidableEq

structure Sealing where
  /-- The sign-in whose record was there. -/
  replaced : Option Nat
  signIn : Nat
  deriving DecidableEq

structure Wrap where
  unlock : UnlockKey
  /-- The key its slot was rotated away from. -/
  retired : Option UnlockKey
  wrappedAt : Nat

structure Config where
  rotationGrace : Nat
  pendingLifetime : Option Nat
  idleLifetime : Option Nat

structure State where
  now : Nat
  fresh : Nat
  file : String → Option VaultFile
  setAside : String → Nat
  handles : String → Option OpenVault
  waiting : String → List Pending
  rotations : String → Nat → Option Rotation
  signIns : Nat
  sealings : List Sealing
  wraps : List Wrap
  resetVault : String → Option Nat

/-- A daemon that has just started, and no vault made yet. -/
def State.start : State :=
  { now := 0, fresh := 0, file := fun _ => none, setAside := fun _ => 0, handles := fun _ => none,
    waiting := fun _ => [], rotations := fun _ _ => none, signIns := 0, sealings := [], wraps := [],
    resetVault := fun _ => none }

inductive VaultError
  | locked
  | uninitialized
  | alreadyInitialized
  | noFreshLogin
  | alreadyOpen
  | tooManySetAside (kept : Nat)
  /-- The credential store is gone. -/
  | gone
  deriving DecidableEq

inductive VaultState
  | opened
  | locked
  | uninitialized
  deriving DecidableEq

structure Retained where
  state : VaultState
  unlockKey : Option UnlockKey
  deriving DecidableEq

structure Reset where
  setAside : Bool
  unlockKey : UnlockKey
  /-- The fresh vault. -/
  dataKey : Nat
  deriving DecidableEq

abbrev Part := Prog State VaultError

def maxUnlockSlots : Nat := 16

def maxSetAsideVaults : Nat := 5

variable (s : State) (subject : String)

def State.setFile (file : VaultFile) : State :=
  { s with file := update s.file subject (some file) }

def State.setHandle (handle : Option OpenVault) : State :=
  { s with handles := update s.handles subject handle }

def State.setWaiting (waiting : List Pending) : State :=
  { s with waiting := update s.waiting subject waiting }

def State.setResetVault (dataKey : Option Nat) : State :=
  { s with resetVault := update s.resetVault subject dataKey }

def State.setRotation (slotId : Nat) (rotation : Option Rotation) : State :=
  { s with rotations := update s.rotations subject (update (s.rotations subject) slotId rotation) }

/-! ## The file -/

/-- `open_slot_in`: whether the key opens the slot it names. -/
def UnlockKey.opensSlotIn (unlock : UnlockKey) (slots : List UnlockSlot) : Bool :=
  match slots.find? (·.id = unlock.slotId) with
  | some slot => slot.key = unlock.key
  | none => false

def openWithUnlockKey (unlock : UnlockKey) (s : State) : Except VaultError SessionVault :=
  match s.file unlock.subject with
  | none => .error .locked
  | some file => if unlock.opensSlotIn file.unlockSlots then .ok ⟨unlock.subject, file.dataKey⟩ else .error .locked

variable (passphrase : String)

def openWithPassphrase (s : State) : Except VaultError SessionVault :=
  match s.file subject with
  | none => .error .uninitialized
  | some file => if file.passphrase = passphrase then .ok ⟨subject, file.dataKey⟩ else .error .locked

def createFile (s : State) : SessionVault × State :=
  (⟨subject, s.fresh⟩, { s.setFile subject ⟨passphrase, s.fresh, [], []⟩ with fresh := s.fresh + 1 })

def createStore : Part SessionVault := do
  match (← get).file subject with
  | some _ => throw .alreadyInitialized
  | none => modifyGet (createFile subject passphrase)

def countSetAside (s : State) : State :=
  { s with setAside := update s.setAside subject (s.setAside subject + 1) }

/-- Whether there was a vault to set aside comes with the fresh one. -/
def resetStore : Part (SessionVault × Bool) := do
  let s ← get
  match s.file subject with
  | none => return (← modifyGet (createFile subject passphrase), false)
  | some _ =>
    if s.setAside subject ≥ maxSetAsideVaults then
      throw (.tooManySetAside (s.setAside subject))
    else
      modify (countSetAside subject)
      return (← modifyGet (createFile subject passphrase), true)

variable (vault : SessionVault)

def load (s : State) : Except VaultError VaultFile :=
  match s.file vault.subject with
  | none => .error .gone
  | some file => if file.dataKey = vault.dataKey then .ok file else .error .locked

def isStale (s : State) (vault : SessionVault) : Bool :=
  match load vault s with
  | .ok _ => false
  | .error _ => true

def changeFile {α : Type} (vault : SessionVault) (change : VaultFile → Part α) : Part α := do
  change (← check (load vault (← get)))

def VaultFile.find (file : VaultFile) (key : RecordKey) : Option SealedRecord := file.records.find? (·.key = key)

def VaultFile.put (file : VaultFile) (sealed : SealedRecord) : VaultFile :=
  { file with records := file.records.filter (·.key ≠ sealed.key) ++ [sealed] }

def put (vault : SessionVault) (sealed : SealedRecord) : Part Unit :=
  changeFile vault fun file => modify fun s =>
    { s.setFile vault.subject (file.put sealed) with
      sealings := s.sealings ++ [⟨(file.find sealed.key).map (·.signIn), sealed.signIn⟩] }

def State.setSlots (s : State) (subject : String) (file : VaultFile) (unlockSlots : List UnlockSlot) : State :=
  s.setFile subject { file with unlockSlots }

/-- The least recently used go past the limit. -/
def withSlot (slots : List UnlockSlot) (slot : UnlockSlot) : List UnlockSlot :=
  (slots ++ [slot]).drop ((slots ++ [slot]).length - maxUnlockSlots)

def addUnlockSlot : Part UnlockKey :=
  changeFile vault fun file => modifyGet fun s =>
    let unlock : UnlockKey := ⟨vault.subject, s.fresh, s.fresh + 1⟩
    (unlock, { s.setSlots vault.subject file (withSlot file.unlockSlots ⟨unlock.slotId, unlock.key⟩) with
      fresh := s.fresh + 2, wraps := ⟨unlock, none, s.now⟩ :: s.wraps })

def rotateUnlockSlot (presented : UnlockKey) : Part UnlockKey :=
  changeFile vault fun file =>
    if presented.opensSlotIn file.unlockSlots then
      modifyGet fun s =>
        let unlock : UnlockKey := ⟨vault.subject, presented.slotId, s.fresh⟩
        let slots := file.unlockSlots.filter (·.id ≠ presented.slotId) ++ [⟨unlock.slotId, unlock.key⟩]
        (unlock, { s.setSlots vault.subject file slots with
          fresh := s.fresh + 1, wraps := ⟨unlock, some presented, s.now⟩ :: s.wraps })
    else throw .locked

def removeUnlockSlot (slotId : Nat) : Part Unit :=
  changeFile vault fun file => modify fun s =>
    s.setSlots vault.subject file (file.unlockSlots.filter (·.id ≠ slotId))

def unlockSlotIds (s : State) : Except VaultError (List Nat) :=
  match load vault s with
  | .error e => .error e
  | .ok file => .ok (file.unlockSlots.map (·.id))

/-! ## Open vaults -/

variable (cfg : Config)

def stillInUse (s : State) (handle : OpenVault) : Bool :=
  match cfg.idleLifetime with
  | none => true
  | some lifetime => s.now - handle.used < lifetime

variable (subject : String) (s : State)

def evict : State := (s.setHandle subject none).setResetVault subject none

def lookup (isAUse : Bool) (s : State) : Option OpenVault × State :=
  match s.handles subject with
  | none => (none, s)
  | some handle =>
    if stillInUse cfg s handle then
      if isAUse then
        let handle := { handle with used := s.now }
        (some handle, s.setHandle subject (some handle))
      else (some handle, s)
    else (none, evict subject s)

def close (handle : OpenVault) (s : State) : State :=
  match s.handles subject with
  | some held => if held.arc = handle.arc then s.setHandle subject none else s
  | none => s

def freshHandle : Option OpenVault × State → Option OpenVault × State
  | (none, s) => (none, s)
  | (some handle, s) => if isStale s handle.vault then (none, close subject handle s) else (some handle, s)

def getOpen : Option OpenVault × State := freshHandle subject (lookup cfg subject false s)

def useOpen : Option OpenVault × State := freshHandle subject (lookup cfg subject true s)

def register (vault : SessionVault) (s : State) : State :=
  { s.setHandle subject (some ⟨vault, s.fresh, s.now⟩) with fresh := s.fresh + 1 }

def vaultState : VaultState × State :=
  match getOpen cfg subject s with
  | (some _, s) => (.opened, s)
  | (none, s) => (if (s.file subject).isSome then .locked else .uninitialized, s)

/-! ## Sign-ins that wait -/

def unexpired (now : Nat) (pending : Pending) : Bool :=
  match cfg.pendingLifetime with
  | none => true
  | some lifetime => now - pending.since < lifetime

def dropExpired : State :=
  { s with waiting := fun subject => (s.waiting subject).filter (unexpired cfg s.now) }

def holds : Bool × State :=
  let s := dropExpired cfg s
  (!(s.waiting subject).isEmpty, s)

def discard : State := s.setWaiting subject []

def hold (record : Option CredentialRecord) (signIn : Nat) (s : State) : State :=
  let s := dropExpired cfg s
  let pending : Pending := ⟨record, s.now, signIn⟩
  s.setWaiting subject ((s.waiting subject).filter (·.key ≠ pending.key) ++ [pending])

def take : List Pending × State :=
  let s := dropExpired cfg s
  (s.waiting subject, s.setWaiting subject [])

def restore (unsealed : List Pending) (s : State) : State :=
  s.setWaiting subject (s.waiting subject ++ unsealed)

def sealAll (subject : String) (vault : SessionVault) : List Pending → Part Unit
  | [] => pure ()
  | pending :: rest =>
    match pending.record with
    | none => sealAll subject vault rest
    | some record => do
      match ← outcome (put vault ⟨record, pending.signIn⟩) with
      | .ok () => sealAll subject vault rest
      | .error failed =>
        modify (restore subject (pending :: rest))
        throw failed

def sealPending (vault : SessionVault) : Part Unit := do
  sealAll subject vault (← modifyGet (take cfg subject))

/-! ## The parts of the calls -/

/-- Called holding `transitions`. -/
def admitVault (vault : SessionVault) : Part UnlockKey := do
  sealPending cfg subject vault
  let unlock ← addUnlockSlot vault
  modify (register subject vault)
  return unlock

/-- With the vault closed, the sign-in waits. -/
def holdSignIn (record : Option CredentialRecord) (signIn : Nat) : Part Retained := do
  modify (hold cfg subject record signIn)
  return ⟨← modifyGet (vaultState cfg subject), none⟩

def sealSignIn (vault : SessionVault) (record : Option CredentialRecord) (signIn : Nat) : Part Unit :=
  match record with
  | some record => put vault ⟨record, signIn⟩
  | none => pure ()

def nextSignIn : Nat × State := (s.signIns, { s with signIns := s.signIns + 1 })

/-- `retain` and `sign_in_without_credential`, which differ in what is sealed. -/
def signIn (subject : String) (record : Option CredentialRecord) : Part Retained := do
  let signIn ← modifyGet nextSignIn
  match ← modifyGet (useOpen cfg subject) with
  | none => holdSignIn cfg subject record signIn
  | some handle =>
    match ← outcome (do sealSignIn handle.vault record signIn; addUnlockSlot handle.vault) with
    | .ok unlock => return ⟨.opened, some unlock⟩
    | .error .locked =>
      modify (close subject handle)
      holdSignIn cfg subject record signIn
    | .error failed => throw failed

def retain (record : CredentialRecord) : Part Retained := signIn cfg subject (some record)

def signInWithoutCredential : Part Retained := signIn cfg subject none

def requireAFreshLogin : Part Unit := do
  if ← modifyGet (holds cfg subject) then return () else throw .noFreshLogin

def create (passphrase : String) : Part UnlockKey := do
  requireAFreshLogin cfg subject
  let vault ← createStore subject passphrase
  admitVault cfg subject vault

/-- A reset up to where `transitions` is released. -/
def resetVaultFile (passphrase : String) : Part Reset := do
  match ← modifyGet (getOpen cfg subject) with
  | some _ => throw .alreadyOpen
  | none =>
    requireAFreshLogin cfg subject
    let (vault, setAside) ← resetStore subject passphrase
    let unlock ← admitVault cfg subject vault
    modify fun s => s.setResetVault subject (some vault.dataKey)
    return ⟨setAside, unlock, vault.dataKey⟩

/-- A reset's section under `rotations`. -/
def forgetRotations : State :=
  { s with rotations := update s.rotations subject fun _ => none }

/-- A rotation is kept for the grace period. -/
def dropRotations : State :=
  { s with rotations := fun subject slotId =>
      (s.rotations subject slotId).filter fun rotation => s.now - rotation.rotatedAt < cfg.rotationGrace }

variable (unlock : UnlockKey)

/-- A reopen's change of the file and of the rotations. -/
def rotate (proven : SessionVault) : Part UnlockKey := do
  let successor ← rotateUnlockSlot proven unlock
  modify fun s =>
    let s := dropRotations cfg s
    s.setRotation unlock.subject unlock.slotId (some ⟨unlock, successor, s.now⟩)
  return successor

/-- The rotation that answers a key that no longer opens its slot. -/
def graceRotation (s : State) : Option Rotation :=
  ((s.rotations unlock.subject unlock.slotId).filter fun rotation => s.now - rotation.rotatedAt < cfg.rotationGrace).filter
    fun rotation => rotation.retired = unlock

/-- The section under `transitions` of a reopen that answers the recorded successor. -/
def answerSuccessor (rotation : Rotation) : Part UnlockKey := do
  match ← modifyGet (useOpen cfg subject) with
  | some _ => return rotation.successor
  | none =>
    let vault ← check (openWithUnlockKey rotation.successor (← get))
    modify (register subject vault)
    return rotation.successor

/-- A logout's section under `rotations`. -/
def forgetRotation (s : State) : State := s.setRotation unlock.subject unlock.slotId none

/-- A logout's section under `transitions`. -/
def closeUnused (vault : SessionVault) : Part Unit := do
  if (← check (unlockSlotIds vault (← get))).isEmpty then modify (evict subject)

end TddyCoder.Vaults
