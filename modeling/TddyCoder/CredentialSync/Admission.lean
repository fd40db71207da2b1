/-
  TddyCoder.CredentialSync.Admission — who is admitted, and whose entries are retained, when an
  attacker is in the room (`packages/tddy-credential-sync/src/engine.rs`, `transport.rs`).

  The attacker has an identity of its own and whatever it can make of what it reads, but not the
  group secret. The proof an advertisement carries is the MAC of its challenge and of nothing
  else, so the attacker can sign an advertisement of its own around a proof it has read. And
  `receive` asks nobody who the sender is.

  Proved: `only_holders_are_admitted`, in runs with neither (`Clear`);
  `a_copied_proof_is_admitted` is one with each.
-/

import TddyCoder.CredentialSync.Symbolic
import TddyCoder.Machine.Guarded

namespace TddyCoder.CredentialSync

open Machine Symbolic List

structure Receipt where
  daemon : Daemon
  payload : WrappedRecords Msg
  outcome : ReceiveOutcome

structure Room where
  ads : List (SignedAdvertisement Msg)
  receipts : List Receipt

namespace Room

inductive Event
  | advertise (d : Daemon) (challenge : Nat)
  | post (ad : SignedAdvertisement Msg)
  | deliver (d : Daemon) (payload : WrappedRecords Msg) (held : List VaultEntry)

def start : Room := ⟨[], []⟩

def step (r : Room) : Event → Room
  | .advertise d challenge =>
    match d.engine.groupSecret with
    | none => r
    | some secret => { r with ads := r.ads ++ [d.advertisement secret (.random challenge)] }
  | .post ad => { r with ads := r.ads ++ [ad] }
  | .deliver d payload held =>
    match d.engine.receive symbolic payload held with
    | .error _ => r
    | .ok outcome => { r with receipts := r.receipts ++ [⟨d, payload, outcome⟩] }

theorem step_advertise (r : Room) (d : Daemon) (challenge : Nat) :
    r.step (.advertise d challenge) = r ∨ ∃ secret, d.engine.groupSecret = some secret ∧
      r.step (.advertise d challenge) = { r with ads := r.ads ++ [d.advertisement secret (.random challenge)] } := by
  cases hsecret : d.engine.groupSecret with
  | none => exact .inl (by simp only [step, hsecret])
  | some secret => exact .inr ⟨secret, rfl, by simp only [step, hsecret]⟩

theorem step_deliver (r : Room) (d : Daemon) (payload : WrappedRecords Msg) (held : List VaultEntry) :
    r.step (.deliver d payload held) = r ∨ ∃ outcome, d.engine.receive symbolic payload held = .ok outcome ∧
      r.step (.deliver d payload held) = { r with receipts := r.receipts ++ [⟨d, payload, outcome⟩] } := by
  cases houtcome : d.engine.receive symbolic payload held with
  | error _ => exact .inl (by simp only [step, houtcome])
  | ok outcome => exact .inr ⟨outcome, rfl, by simp only [step, houtcome]⟩

end Room

/-- The daemons, the keys the directory has published, and the attacker: it has an identity key that is no daemon's, and
    neither the group secret nor anything made with it. -/
structure Setting where
  daemons : List Daemon
  directory : String → Option Msg
  secret : Nat
  attackerKey : Msg
  initially : Msg → Prop
  own : ∀ d ∈ daemons, d.signingKey ≠ attackerKey
  hidden : ∀ t, initially t → Hides secret (fun _ => False) t

namespace Setting

variable (w : Setting) (d : Daemon)

def Holds : Prop := d.engine.groupSecret = some (.key w.secret)

def SignedByAttacker (ad : SignedAdvertisement Msg) : Prop := ∃ m, ad.signature = .signature w.attackerKey m

def Admits (ad : SignedAdvertisement Msg) : Prop :=
  ∃ peer, d.engine.admits symbolic (directoryVerifier w.directory) ad = .ok peer

variable (r : Room)

def Known (t : Msg) : Prop :=
  w.initially t ∨ ∃ ad ∈ r.ads, t = encodeAdvertisement ad.advertisement ∨ t = ad.signature

/-- Only the daemons there are take part, and the attacker posts what it can make. -/
def Possible : Room.Event → Prop
  | .advertise d _ => d ∈ w.daemons
  | .post ad => Derives (w.Known r) (encodeAdvertisement ad.advertisement) ∧ Derives (w.Known r) ad.signature
  | .deliver d _ _ => d ∈ w.daemons

/-- No advertisement signed by the attacker is admitted by a daemon of the group, and what a daemon retains was sealed by
    one whose advertisement it admits. -/
structure Safe : Prop where
  admitted : ∀ ad ∈ r.ads, w.SignedByAttacker ad → ∀ d ∈ w.daemons, w.Holds d → ¬ w.Admits d ad
  retained : ∀ receipt ∈ r.receipts, receipt.outcome.retain ≠ [] →
    ∃ ad ∈ r.ads, ad.advertisement.transportPublicKey = receipt.payload.senderTransportPublicKey ∧
      w.Admits receipt.daemon ad

/-- The advertisement carries the challenge and the proof of one that a holder of the secret put up. -/
def Copied (ad : SignedAdvertisement Msg) : Prop :=
  ∃ d ∈ w.daemons, w.Holds d ∧ ∃ challenge, d.advertisement (.key w.secret) challenge ∈ r.ads ∧
    ad.advertisement.challenge = challenge ∧ ad.advertisement.groupProof = .mac (.key w.secret) challenge

/-- The daemon can open the payload. -/
def Opens (d : Daemon) (payload : WrappedRecords Msg) : Prop :=
  ∃ plaintext, payload.ciphertext = .sealed (agreementOf d.engine.transportKey payload.senderTransportPublicKey)
    payload.nonce plaintext (symbolic.wrapAad payload.recipient payload.senderTransportPublicKey)

/-- The payload was wrapped by a daemon with the same secret, which is listed and has advertised. -/
def FromFellow (d : Daemon) (payload : WrappedRecords Msg) : Prop :=
  ∃ secret, d.engine.groupSecret = some secret ∧ ∃ d' ∈ w.daemons, d'.engine.groupSecret = some secret ∧
    d'.ListedIn w.directory ∧ (∃ challenge, d'.advertisement secret challenge ∈ r.ads) ∧
    ∃ nonce peer key entries, payload = d'.engine.wrapFor symbolic nonce peer key entries

/-- The attacker copies no proof, and no payload opens but a fellow's. -/
def Clear : Room.Event → Prop
  | .advertise _ _ => True
  | .post ad => w.SignedByAttacker ad → ¬ w.Copied r ad
  | .deliver d payload _ => Opens d payload → w.FromFellow r d payload

/-! ## The secret stays hidden -/

def Issued (challenge : Msg) : Prop :=
  ∃ d ∈ w.daemons, w.Holds d ∧ d.advertisement (.key w.secret) challenge ∈ r.ads

/-- Everything in the room hides the secret, and the proofs in it are those that holders put up. -/
def Secret : Prop :=
  ∀ ad ∈ r.ads, Hides w.secret (w.Issued r) (encodeAdvertisement ad.advertisement) ∧
    Hides w.secret (w.Issued r) ad.signature

variable {w} {r r' : Room} {challenge : Msg}

theorem Issued.mono (h : ∀ ad ∈ r.ads, ad ∈ r'.ads) (hissued : w.Issued r challenge) :
    w.Issued r' challenge := by
  obtain ⟨d, hd, hholds, had⟩ := hissued
  exact ⟨d, hd, hholds, h _ had⟩

theorem known_hides (h : w.Secret r) {t : Msg} (ht : w.Known r t) : Hides w.secret (w.Issued r) t := by
  rcases ht with ht | ⟨ad, had, rfl | rfl⟩
  · exact (w.hidden t ht).mono fun _ => False.elim
  · exact (h ad had).1
  · exact (h ad had).2

variable {ad : SignedAdvertisement Msg} {ev : Room.Event}

theorem Secret.add (h : w.Secret r)
    (had : Hides w.secret (w.Issued { r with ads := r.ads ++ [ad] }) (encodeAdvertisement ad.advertisement))
    (hsignature : Hides w.secret (w.Issued { r with ads := r.ads ++ [ad] }) ad.signature) :
    w.Secret { r with ads := r.ads ++ [ad] } := by
  have hmono : ∀ m, w.Issued r m → w.Issued { r with ads := r.ads ++ [ad] } m :=
    fun m => Issued.mono fun _ => mem_append_left _
  refine forall_mem_append.mpr ⟨fun other hother => ?_, forall_mem_singleton.mpr ⟨had, hsignature⟩⟩
  exact ⟨(h other hother).1.mono hmono, (h other hother).2.mono hmono⟩

theorem Secret.step (h : w.Secret r) (hpossible : w.Possible r ev) : w.Secret (r.step ev) := by
  cases ev with
  | advertise d challenge =>
    rcases r.step_advertise d challenge with hsame | ⟨secret, hsecret, hads⟩
    · rwa [hsame]
    -- the one MAC in a daemon's advertisement is issued by this very step, if it is under the secret
    have hproof : Hides w.secret (w.Issued { r with ads := r.ads ++ [d.advertisement secret (.random challenge)] })
        (encodeAdvertisement (d.advertisement secret (.random challenge)).advertisement) := by
      refine ⟨trivial, trivial, trivial, trivial, fun hkey => ?_⟩
      subst hkey
      exact ⟨d, hpossible, hsecret, by simp⟩
    rw [hads]
    exact h.add hproof hproof
  | post ad =>
    have hmono : ∀ m, w.Issued r m → w.Issued { r with ads := r.ads ++ [ad] } m :=
      fun m => Issued.mono fun _ => mem_append_left _
    exact h.add ((derives_hides (fun t => known_hides h) hpossible.1).mono hmono)
      ((derives_hides (fun t => known_hides h) hpossible.2).mono hmono)
  | deliver d payload held =>
    rcases r.step_deliver d payload held with hsame | ⟨outcome, -, hreceipts⟩
    · rwa [hsame]
    · rwa [hreceipts]

/-- A proof under the secret that the attacker can post is one that a holder put up. -/
theorem copied_of_proof (h : w.Secret r) (hderives : Derives (w.Known r) (encodeAdvertisement ad.advertisement))
    (hproof : ad.advertisement.groupProof = .mac (.key w.secret) ad.advertisement.challenge) : w.Copied r ad := by
  have hmac : Derives (w.Known r) (.mac (.key w.secret) ad.advertisement.challenge) :=
    hproof ▸ hderives.right.right.right.right
  obtain ⟨d, hd, hholds, had⟩ := derives_hides (fun t => known_hides h) hmac rfl
  exact ⟨d, hd, hholds, _, had, rfl, hproof⟩

/-! ## One step -/

theorem Safe.add (h : w.Safe r) (had : w.SignedByAttacker ad → ∀ d ∈ w.daemons, w.Holds d → ¬ w.Admits d ad) :
    w.Safe { r with ads := r.ads ++ [ad] } := by
  constructor
  · exact forall_mem_append.mpr ⟨h.admitted, forall_mem_singleton.mpr had⟩
  · intro receipt hreceipt hretain
    obtain ⟨other, hother, hadmits⟩ := h.retained receipt hreceipt hretain
    exact ⟨other, mem_append_left _ hother, hadmits⟩

theorem opens_of_receive {d : Daemon} {payload : WrappedRecords Msg} {held : List VaultEntry} {outcome : ReceiveOutcome}
    (h : d.engine.receive symbolic payload held = .ok outcome) : Opens d payload := by
  unfold SyncEngine.receive at h
  split at h
  · simp only [symbolic] at h
    split at h
    · cases h
    · next plaintext hopen =>
      unfold openSealed at hopen
      split at hopen
      · split at hopen
        · next heq hsame =>
          obtain ⟨hkey, hnonce, haad⟩ := hsame
          exact ⟨_, by rw [heq, ← hkey, ← hnonce, ← haad]; rfl⟩
        · cases hopen
      · cases hopen
  · cases h

theorem Safe.step (h : w.Safe r) (hsecret : w.Secret r) (hpossible : w.Possible r ev)
    (hclear : w.Clear r ev) : w.Safe (r.step ev) := by
  cases ev with
  | advertise d challenge =>
    rcases r.step_advertise d challenge with hsame | ⟨secret, -, hads⟩
    · rwa [hsame]
    rw [hads]
    refine h.add fun hsigned => ?_
    obtain ⟨m, hm⟩ := hsigned
    injection hm with hkey _
    exact absurd hkey (w.own d hpossible)
  | post ad =>
    refine h.add fun hsigned d hd hholds => ?_
    rintro ⟨peer, hadmits⟩
    have hproof := ((Daemon.admits_iff hholds).mp hadmits).2.1
    exact hclear hsigned (copied_of_proof hsecret hpossible.1 hproof)
  | deliver d payload held =>
    rcases r.step_deliver d payload held with hsame | ⟨outcome, houtcome, hreceipts⟩
    · rwa [hsame]
    rw [hreceipts]
    refine ⟨h.admitted, forall_mem_append.mpr ⟨h.retained, forall_mem_singleton.mpr fun _ => ?_⟩⟩
    obtain ⟨secret, hsecret, d', -, -, hlisted, ⟨challenge, had⟩, nonce, peer, key, entries, rfl⟩ :=
      hclear (opens_of_receive houtcome)
    exact ⟨_, had, rfl, d'.localPeer, Daemon.admits_advertisement hsecret hlisted⟩

/-! ## Instances -/

def laptop : Daemon := ⟨.new (some (.key 0)) (.key 1), "laptop", "laptop-key", .key 6⟩

def desk : Daemon := ⟨.new (some (.key 0)) (.key 2), "desk", "desk-key", .key 3⟩

def fleet : Setting where
  daemons := [laptop, desk]
  directory
    | "laptop-key" => some (.publicOf (.key 6))
    | "desk-key" => some (.publicOf (.key 3))
    | "mallory-key" => some (.publicOf (.key 8))
    | _ => none
  secret := 0
  attackerKey := .key 8
  initially t := t = .key 8 ∨ t = .key 9
  own := by simp [laptop, desk]
  hidden := by simp [Hides]

def malloryAd (challenge proof : Msg) : SignedAdvertisement Msg :=
  let advertisement := ⟨"mallory", "mallory-key", .publicOf (.key 9), challenge, proof⟩
  ⟨advertisement, .signature (.key 8) (encodeAdvertisement advertisement)⟩

def token : VaultEntry := .record ⟨"github", "alice", "", "token", [], 7, 1⟩

def visit : List Room.Event :=
  [.advertise desk 1, .post (malloryAd (.random 5) (.mac (.key 8) (.random 5))),
    .deliver laptop (desk.engine.wrapFor symbolic (.random 3) "laptop" (.publicOf (.key 1)) [token]) []]

def replay : List Room.Event :=
  [.advertise desk 1, .post (malloryAd (.random 1) (.mac (.key 0) (.random 1)))]

def unasked : List Room.Event :=
  [.advertise laptop 2,
    .deliver laptop ((SyncEngine.new none (.key 9)).wrapFor symbolic (.random 3) "laptop" (.publicOf (.key 1)) [token]) []]

theorem possible_malloryAd {r : Room} {proof : Msg} (hchallenge : Derives (fleet.Known r) challenge)
    (hproof : Derives (fleet.Known r) proof) : fleet.Possible r (.post (malloryAd challenge proof)) := by
  have hsigning : Derives (fleet.Known r) (.key 8) := .known (.inl (.inl rfl))
  have htransport : Derives (fleet.Known r) (.key 9) := .known (.inl (.inr rfl))
  have hencoded : Derives (fleet.Known r) (encodeAdvertisement (malloryAd challenge proof).advertisement) :=
    .pair (.data _) (.pair (.data _) (.pair (.publicOf htransport) (.pair hchallenge hproof)))
  exact ⟨hencoded, .sign hsigning hencoded⟩

/-! ## The theorem -/

/-- In every run in which the attacker copies no proof and only fellows' payloads open, nobody but holders of the secret is
    admitted and nothing is retained but from them. -/
theorem only_holders_are_admitted (w : Setting) (events : List Room.Event)
    (hpossible : Guarded Room.step w.Possible .start events) (hclear : Guarded Room.step w.Clear .start events) :
    ∀ reached, reached <+: events → w.Safe (reached.foldl Room.step .start) := by
  intro reached hreached
  have hstart : w.Secret .start ∧ w.Safe .start :=
    ⟨fun _ h => absurd h not_mem_nil, fun _ h => absurd h not_mem_nil, fun _ h => absurd h not_mem_nil⟩
  have hkeeps : ∀ r ev, w.Secret r ∧ w.Safe r → w.Possible r ev ∧ w.Clear r ev →
      w.Secret (r.step ev) ∧ w.Safe (r.step ev) :=
    fun r ev h hev => ⟨h.1.step hev.1, h.2.step h.1 hev.1 hev.2⟩
  exact (guarded_reached hkeeps hstart (guarded_both hpossible hclear) hreached).2

theorem a_stranger_is_refused :
    Guarded Room.step fleet.Possible .start visit ∧ Guarded Room.step fleet.Clear .start visit ∧
      ∀ reached, reached <+: visit → fleet.Safe (reached.foldl Room.step .start) := by
  have hpossible : Guarded Room.step fleet.Possible .start visit :=
    ⟨by simp [Possible, fleet], possible_malloryAd (.random 5) (.mac (.known (.inl (.inl rfl))) (.random 5)),
      by simp [Possible, fleet], trivial⟩
  have hclear : Guarded Room.step fleet.Clear .start visit := by
    refine ⟨trivial, fun _ => ?_, fun _ => ?_, trivial⟩
    · rintro ⟨d, -, -, challenge, -, -, hproof⟩
      exact absurd hproof (by simp [malloryAd, fleet])
    · exact ⟨.key 0, rfl, desk, by simp [fleet], rfl, rfl, ⟨.random 1, mem_cons_self⟩, _, _, _, _, rfl⟩
  exact ⟨hpossible, hclear, only_holders_are_admitted fleet visit hpossible hclear⟩

/-- With a proof it has read the attacker is admitted, and what it sends unasked is retained without any. -/
theorem a_copied_proof_is_admitted :
    (Guarded Room.step fleet.Possible .start replay ∧ ¬ fleet.Safe (replay.foldl Room.step .start)) ∧
      Guarded Room.step fleet.Possible .start unasked ∧ ¬ fleet.Safe (unasked.foldl Room.step .start) := by
  constructor
  · refine ⟨⟨by simp [Possible, fleet], possible_malloryAd (.random 1) ?_, trivial⟩, fun h => ?_⟩
    · -- the proof is the last part of the desk's advertisement
      have hread : fleet.Known (Room.start.step (.advertise desk 1))
          (encodeAdvertisement (desk.advertisement (.key 0) (.random 1)).advertisement) :=
        .inr ⟨_, mem_cons_self, .inl rfl⟩
      exact (Derives.known hread).right.right.right.right
    · exact h.admitted (malloryAd (.random 1) (.mac (.key 0) (.random 1))) (mem_cons_of_mem _ mem_cons_self)
        ⟨_, rfl⟩ laptop mem_cons_self rfl ⟨"mallory", rfl⟩
  · refine ⟨⟨by simp [Possible, fleet], by simp [Possible, fleet], trivial⟩, fun h => ?_⟩
    obtain ⟨ad, had, hkey, -⟩ := h.retained _ mem_cons_self (cons_ne_nil token [])
    rw [mem_singleton.mp had] at hkey
    exact absurd hkey (by decide)

end Setting

end TddyCoder.CredentialSync
