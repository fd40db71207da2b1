/-
  TddyCoder.CredentialSync.Engine — who receives a credential, what is sealed for them and what
  becomes of what they send (`packages/tddy-credential-sync/src/engine.rs`, `transport.rs`,
  `journal.rs`).

  The cryptography and the encodings are `Primitives` over any type `B` of byte strings; the
  transport's answers and the randomness a call draws are part of the call.
-/

import TddyCoder.CredentialSync.Vault
import TddyCoder.Table.Assoc

namespace TddyCoder.CredentialSync

open Table

/-! ## What crosses the transport -/

abbrev PeerId := String

variable (B : Type)

structure PeerAdvertisement where
  peer : PeerId
  signingKeyId : String
  transportPublicKey : B
  challenge : B
  groupProof : B
  deriving DecidableEq

structure SignedAdvertisement where
  advertisement : PeerAdvertisement B
  signature : B
  deriving DecidableEq

structure WrappedRecords where
  recipient : PeerId
  senderTransportPublicKey : B
  nonce : B
  ciphertext : B
  deriving DecidableEq

structure Ack where
  sender : PeerId
  accepted : List RecordKey
  superseded : List RecordKey

inductive TransportError
  | notConnected
  | peerUnreachable (peer : PeerId)
  | io (message : String)

inductive RefusalReason
  | groupSecretMismatch | signatureInvalid | unknownIdentity
  deriving DecidableEq

inductive SyncError
  | notConfigured
  | transport (error : TransportError)
  | undecryptable
  | malformed (message : String)

/-! ## The journal -/

inductive SyncStatus
  | pending | sent | acknowledged
  | refused (reason : RefusalReason)
  | conflict | undeliverable

structure JournalEntry where
  peer : PeerId
  record : RecordKey
  status : SyncStatus
  at_ : Nat

/-- One line for each peer and record, the latest. -/
abbrev SyncJournal := Assoc (PeerId × RecordKey) JournalEntry

def SyncJournal.note (j : SyncJournal) (peer : PeerId) (record : RecordKey) (status : SyncStatus) (now : Nat) :
    SyncJournal :=
  j.insert (peer, record) ⟨peer, record, status, now⟩

/-! ## The engine -/

/-- The functions of `crypto.rs` and `transport_key.rs` and the encodings of `serde_json`. -/
structure Primitives where
  hmacSha256 : B → B → B
  encodeAdvertisement : PeerAdvertisement B → B
  length : B → Nat
  publicKey : B → B
  sharedSecret : B → B → B
  sealBytes : B → B → B → B → B
  openBytes : B → B → B → B → Option B
  wrapAad : PeerId → B → B
  encodeEntries : List VaultEntry → B
  decodeEntries : B → Except String (List VaultEntry)

/-- Whether the signature is the key owner's over the message; a key that is not published is an error. -/
abbrev IdentityVerifier := String → B → B → Except RefusalReason Bool

/-- What the transport answers in one call: the advertisements it sees, and to each of them, by its number, what becomes
    of a payload. -/
structure PeerTransport where
  advertise : SignedAdvertisement B → Except TransportError Unit
  peers : List (SignedAdvertisement B)
  send : Nat → PeerId → WrappedRecords B → Except TransportError Ack

/-- What one call draws from the generator: a challenge, and a nonce for each payload. -/
structure Randomness where
  challenge : B
  nonce : Nat → B

structure SyncEngine where
  groupSecret : Option B
  transportKey : B
  journal : SyncJournal
  acknowledged : Assoc (PeerId × RecordKey) Nat

structure Delivery where
  peer : PeerId
  entries : List VaultEntry
  ack : Ack

namespace SyncEngine

variable {B : Type} [DecidableEq B] (p : Primitives B)

def new (groupSecret : Option B) (transportKey : B) : SyncEngine B := ⟨groupSecret, transportKey, ∅, ∅⟩

def verifies (secret challenge proof : B) : Bool := p.hmacSha256 secret challenge = proof

def admits (verify : IdentityVerifier B) (e : SyncEngine B) (ad : SignedAdvertisement B) : Except RefusalReason PeerId :=
  match verify ad.advertisement.signingKeyId (p.encodeAdvertisement ad.advertisement) ad.signature with
  | .error reason => .error reason
  | .ok false => .error .signatureInvalid
  | .ok true =>
    match e.groupSecret with
    | none => .error .groupSecretMismatch
    | some secret =>
      if verifies p secret ad.advertisement.challenge ad.advertisement.groupProof then .ok ad.advertisement.peer
      else .error .groupSecretMismatch

variable (e : SyncEngine B)

def selfAdvertisement (groupSecret challenge noSignature : B) : SignedAdvertisement B :=
  ⟨⟨"", "", p.publicKey e.transportKey, challenge, p.hmacSha256 groupSecret challenge⟩, noSignature⟩

def transportPublicKeyOf (ad : PeerAdvertisement B) : Except SyncError B :=
  if p.length ad.transportPublicKey = 32 then .ok ad.transportPublicKey
  else .error (.malformed s!"{ad.peer}'s advertised transport key is {p.length ad.transportPublicKey} bytes, not 32")

def wrapFor (nonce : B) (peer : PeerId) (peerPublic : B) (entries : List VaultEntry) :
    WrappedRecords B :=
  ⟨peer, p.publicKey e.transportKey, nonce,
    p.sealBytes (p.sharedSecret e.transportKey peerPublic) nonce (p.encodeEntries entries)
      (p.wrapAad peer (p.publicKey e.transportKey))⟩

/-! ### Publishing -/

variable (peer : PeerId) (entries : List VaultEntry)

def noteAll (status : SyncStatus) (now : Nat) :
    SyncEngine B :=
  { e with journal := entries.foldl (fun j entry => SyncJournal.note j peer (recordKeyOf entry) status now) e.journal }

def toSend : List VaultEntry :=
  entries.filter fun entry => e.acknowledged.lookup (peer, recordKeyOf entry) ≠ some entry.writtenAt

/-- One key of an answer: the journal says so, and the entry sent for it counts as acknowledged. -/
def acknowledge (sent : List VaultEntry) (status : SyncStatus) (now : Nat) (e : SyncEngine B)
    (key : RecordKey) : SyncEngine B :=
  { e with
    journal := e.journal.note peer key status now
    acknowledged :=
      match sent.find? fun entry => recordKeyOf entry = key with
      | some entry => e.acknowledged.insert (peer, key) entry.writtenAt
      | none => e.acknowledged }

/-- What the recipient took and what it held a later answer for both count. -/
def acknowledgeAll (sent : List VaultEntry) (ack : Ack) (now : Nat) : SyncEngine B :=
  ack.superseded.foldl (acknowledge peer sent .conflict now)
    (ack.accepted.foldl (acknowledge peer sent .acknowledged now) e)

variable (verify : IdentityVerifier B) (transport : PeerTransport B) (random : Randomness B)

structure Published (B : Type) where
  engine : SyncEngine B
  delivered : List Delivery
  result : Except SyncError Unit

def publishTo (entries : List VaultEntry) (now : Nat) (e : SyncEngine B) (i : Nat) (ad : SignedAdvertisement B) :
    Published B :=
  match e.admits p verify ad with
  | .error reason => ⟨e.noteAll ad.advertisement.peer entries (.refused reason) now, [], .ok ()⟩
  | .ok peer =>
    let due := e.toSend peer entries
    if due.isEmpty then ⟨e, [], .ok ()⟩
    else
      match transportPublicKeyOf p ad.advertisement with
      -- `?` returns from the whole publish
      | .error error => ⟨e, [], .error error⟩
      | .ok peerPublic =>
        let sending := e.noteAll peer due .sent now
        match transport.send i peer (e.wrapFor p (random.nonce i) peer peerPublic due) with
        | .ok ack => ⟨sending.acknowledgeAll peer due ack now, [⟨peer, due, ack⟩], .ok ()⟩
        | .error _ => ⟨sending.noteAll peer due .undeliverable now, [], .ok ()⟩

def publishLoop (entries : List VaultEntry) (now : Nat) : SyncEngine B → Nat → List (SignedAdvertisement B) → Published B
  | e, _, [] => ⟨e, [], .ok ()⟩
  | e, i, ad :: rest =>
    let turn := publishTo p verify transport random entries now e i ad
    match turn.result with
    | .error _ => turn
    | .ok () =>
      let later := publishLoop entries now turn.engine (i + 1) rest
      { later with delivered := turn.delivered ++ later.delivered }

def publish (noSignature : B) (e : SyncEngine B) (entries : List VaultEntry) (now : Nat) : Published B :=
  match e.groupSecret with
  | none => ⟨e, [], .error .notConfigured⟩
  | some secret =>
    match transport.advertise (e.selfAdvertisement p secret random.challenge noSignature) with
    | .error error => ⟨e, [], .error (.transport error)⟩
    | .ok () => publishLoop p verify transport random entries now e 0 transport.peers

end SyncEngine

/-! ## Receiving -/

inductive Reconciliation
  | takeIncoming (conflicted : Bool)
  | keepLocal (conflicted : Bool)
  | alreadyConverged

def bothRecords : VaultEntry → VaultEntry → Bool
  | .record _, .record _ => true
  | _, _ => false

def reconcile (held : Option VaultEntry) (incoming : VaultEntry) : Reconciliation :=
  match held with
  | none => .takeIncoming false
  | some held =>
    if held = incoming then .alreadyConverged
    else
      let conflicted := bothRecords held incoming && held.version == incoming.version
      match compare held.writtenAt incoming.writtenAt with
      | .lt => .takeIncoming conflicted
      | .gt => .keepLocal conflicted
      | .eq =>
        match compare held.version incoming.version with
        | .lt => .takeIncoming true
        | .gt => .keepLocal true
        | .eq => .takeIncoming true

structure ReceiveOutcome where
  retain : List VaultEntry
  ack : Ack

/-- Each entry of a payload is set against what was held before the payload came. -/
def receiveEntry (held : List VaultEntry) (outcome : ReceiveOutcome) (incoming : VaultEntry) : ReceiveOutcome :=
  let local_ := held.find? fun entry => entry.provider = incoming.provider ∧ entry.account = incoming.account
  match reconcile local_ incoming with
  | .takeIncoming _ =>
    ⟨outcome.retain ++ [incoming],
      { outcome.ack with accepted := outcome.ack.accepted ++ [recordKeyOf incoming] }⟩
  | .alreadyConverged => { outcome with ack.accepted := outcome.ack.accepted ++ [recordKeyOf incoming] }
  | .keepLocal _ => { outcome with ack.superseded := outcome.ack.superseded ++ [recordKeyOf incoming] }

def receiveEntries (wire held : List VaultEntry) : ReceiveOutcome := wire.foldl (receiveEntry held) ⟨[], ⟨"", [], []⟩⟩

namespace SyncEngine

variable {B : Type} (p : Primitives B)

def receive (e : SyncEngine B) (payload : WrappedRecords B) (held : List VaultEntry) : Except SyncError ReceiveOutcome :=
  if p.length payload.senderTransportPublicKey = 32 then
    let key := p.sharedSecret e.transportKey payload.senderTransportPublicKey
    let aad := p.wrapAad payload.recipient payload.senderTransportPublicKey
    match p.openBytes key payload.nonce payload.ciphertext aad with
    | none => .error .undecryptable
    | some plaintext =>
      match p.decodeEntries plaintext with
      | .error message => .error (.malformed message)
      | .ok wire => .ok (receiveEntries wire held)
  else .error .undecryptable

end SyncEngine

end TddyCoder.CredentialSync
