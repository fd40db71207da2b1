/-
  TddyCoder.CredentialSync.Symbolic — the engine with perfect cryptography, and the daemons
  that run it (`packages/tddy-daemon/src/credential_sync.rs`).

  Byte strings are terms. A daemon's transport fills in the identity that the engine leaves
  blank and signs (`SigningPeerTransport`); the verifier takes the keys it checks signatures
  with from a directory (`KeyDirectoryIdentityVerifier`).
-/

import TddyCoder.CredentialSync.Engine
import TddyCoder.Symbolic.Knowledge

namespace TddyCoder.CredentialSync

open Symbolic

inductive Datum
  | text (s : String)
  | entries (l : List VaultEntry)
  deriving DecidableEq

abbrev Msg := Term Datum

def encodeAdvertisement (ad : PeerAdvertisement Msg) : Msg :=
  .pair (.data (.text ad.peer)) (.pair (.data (.text ad.signingKeyId))
    (.pair ad.transportPublicKey (.pair ad.challenge ad.groupProof)))

/-- The public halves of keys are 32 bytes long, and of the rest it does not matter how long it is. -/
def symbolic : Primitives Msg where
  hmacSha256 := .mac
  encodeAdvertisement := encodeAdvertisement
  length
    | .publicOf _ => 32
    | _ => 0
  publicKey := .publicOf
  sharedSecret := agreementOf
  sealBytes := .sealed
  openBytes key nonce ciphertext aad := openSealed key nonce aad ciphertext
  wrapAad peer sender := .pair (.data (.text peer)) sender
  encodeEntries l := .data (.entries l)
  decodeEntries
    | .data (.entries l) => .ok l
    | _ => .error "expected vault entries"

/-- `KeyDirectoryIdentityVerifier`: a key id the directory does not have is an error, a bad signature an answer. -/
def directoryVerifier (directory : String → Option Msg) : IdentityVerifier Msg := fun signingKeyId message signature =>
  match directory signingKeyId with
  | none => .error .unknownIdentity
  | some key => .ok (signedBy key message signature)

/-! ## Daemons -/

structure Daemon where
  engine : SyncEngine Msg
  localPeer : PeerId
  signingKeyId : String
  signingKey : Msg

namespace Daemon

def signed (d : Daemon) (ad : SignedAdvertisement Msg) : SignedAdvertisement Msg :=
  let advertisement := { ad.advertisement with peer := d.localPeer, signingKeyId := d.signingKeyId }
  ⟨advertisement, .signature d.signingKey (encodeAdvertisement advertisement)⟩

def advertisement (d : Daemon) (secret challenge : Msg) : SignedAdvertisement Msg :=
  d.signed (d.engine.selfAdvertisement symbolic secret challenge (.data (.text "")))

def ListedIn (d : Daemon) (directory : String → Option Msg) : Prop :=
  directory d.signingKeyId = some (.publicOf d.signingKey)

variable {directory : String → Option Msg} {d d' : Daemon} {secret challenge : Msg}

theorem admits_iff {e : SyncEngine Msg} (hsecret : e.groupSecret = some secret) {ad : SignedAdvertisement Msg}
    {peer : PeerId} :
    e.admits symbolic (directoryVerifier directory) ad = .ok peer ↔
      (∃ key, directory ad.advertisement.signingKeyId = some key ∧
        signedBy key (encodeAdvertisement ad.advertisement) ad.signature = true) ∧
      ad.advertisement.groupProof = .mac secret ad.advertisement.challenge ∧ ad.advertisement.peer = peer := by
  simp only [SyncEngine.admits, directoryVerifier, hsecret, SyncEngine.verifies, symbolic]
  cases directory ad.advertisement.signingKeyId with
  | none => simp
  | some key =>
    cases hsigned : signedBy key (encodeAdvertisement ad.advertisement) ad.signature with
    | false => simp [hsigned]
    | true =>
      by_cases hproof : ad.advertisement.groupProof = .mac secret ad.advertisement.challenge
      · simp [hsigned, hproof]
      · simp [hsigned, hproof, Ne.symm hproof]

theorem admits_advertisement (hsecret : d.engine.groupSecret = some secret) (hlisted : d'.ListedIn directory) :
    d.engine.admits symbolic (directoryVerifier directory) (d'.advertisement secret challenge) = .ok d'.localPeer := by
  refine (admits_iff hsecret).mpr ⟨⟨.publicOf d'.signingKey, hlisted, ?_⟩, rfl, rfl⟩
  simp [signedBy, advertisement, signed]

end Daemon

end TddyCoder.CredentialSync
