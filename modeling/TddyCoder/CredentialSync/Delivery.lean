/-
  TddyCoder.CredentialSync.Delivery — whether a publish leaves a peer without an entry
  (`packages/tddy-credential-sync/src/engine.rs`).

  The engine remembers, for each peer and slot, in which second the entry was written that the
  peer last acknowledged (`Tracks`), and sends nothing written in that second again. An admitted
  peer with a key of the wrong length makes `publish` return before those behind it.

  Proved: `publish_reaches_every_peer`, with neither; `publish_leaves_the_desk_behind` is a run
  with each.
-/

import TddyCoder.CredentialSync.Symbolic
import TddyCoder.Machine.Guarded

namespace TddyCoder.CredentialSync

open Machine List

/-! ## What was sent and acknowledged -/

def Delivery.acknowledges (d : Delivery) (peer : PeerId) (key : RecordKey) : Option VaultEntry :=
  if d.peer = peer ∧ (key ∈ d.ack.accepted ∨ key ∈ d.ack.superseded) then
    d.entries.find? fun entry => recordKeyOf entry = key
  else none

def lastAcknowledged (peer : PeerId) (key : RecordKey) : List Delivery → Option VaultEntry
  | [] => none
  | d :: later => (lastAcknowledged peer key later).or (d.acknowledges peer key)

def Sent (log : List Delivery) (peer : PeerId) (entry : VaultEntry) : Prop :=
  ∃ d ∈ log, d.peer = peer ∧ entry ∈ d.entries

def Acknowledged (log : List Delivery) (peer : PeerId) (entry : VaultEntry) : Prop :=
  ∃ d ∈ log, d.acknowledges peer (recordKeyOf entry) = some entry

variable {log : List Delivery}

section log

variable {peer : PeerId} {key : RecordKey} {entry : VaultEntry}

theorem lastAcknowledged_append (log later : List Delivery) :
    lastAcknowledged peer key (log ++ later) = (lastAcknowledged peer key later).or (lastAcknowledged peer key log) := by
  induction log with
  | nil => simp [lastAcknowledged]
  | cons d log ih => simp only [cons_append, lastAcknowledged, ih, Option.or_assoc]

theorem Delivery.acknowledges_eq_some {d : Delivery} (h : d.acknowledges peer key = some entry) :
    d.peer = peer ∧ entry ∈ d.entries ∧ recordKeyOf entry = key := by
  unfold Delivery.acknowledges at h
  split at h
  · next hkey => exact ⟨hkey.1, mem_of_find?_eq_some h, by simpa using find?_some h⟩
  · exact absurd h (by simp)

theorem exists_of_lastAcknowledged (h : lastAcknowledged peer key log = some entry) :
    ∃ d ∈ log, d.acknowledges peer key = some entry := by
  induction log with
  | nil => exact absurd h (by simp [lastAcknowledged])
  | cons d log ih =>
    rcases Option.or_eq_some_iff.mp h with h | ⟨-, h⟩
    · obtain ⟨d', hd', h'⟩ := ih h
      exact ⟨d', mem_cons_of_mem d hd', h'⟩
    · exact ⟨d, mem_cons_self, h⟩

end log

namespace SyncEngine

variable {B : Type}

section acknowledge

variable (peer : PeerId) (sent : List VaultEntry) (status : SyncStatus) (now : Nat)
  (e : SyncEngine B)

theorem lookup_acknowledge (key : RecordKey) (slot : PeerId × RecordKey) :
    (acknowledge peer sent status now e key).acknowledged.lookup slot =
      if slot = (peer, key) then
        ((sent.find? fun entry => recordKeyOf entry = key).map (·.writtenAt)).or (e.acknowledged.lookup slot)
      else e.acknowledged.lookup slot := by
  unfold acknowledge
  cases hfound : sent.find? fun entry => recordKeyOf entry = key with
  | none => simp
  | some entry =>
    by_cases hslot : slot = (peer, key)
    · subst hslot
      simp
    · simp [hslot, AList.lookup_insert_ne hslot]

theorem lookup_foldl_acknowledge (keys : List RecordKey) (e : SyncEngine B) (slot : PeerId × RecordKey) :
    (keys.foldl (acknowledge peer sent status now) e).acknowledged.lookup slot =
      if slot.1 = peer ∧ slot.2 ∈ keys then
        ((sent.find? fun entry => recordKeyOf entry = slot.2).map (·.writtenAt)).or (e.acknowledged.lookup slot)
      else e.acknowledged.lookup slot := by
  induction keys generalizing e with
  | nil => simp
  | cons key keys ih =>
    obtain ⟨peer', key'⟩ := slot
    rw [foldl_cons, ih, lookup_acknowledge]
    by_cases hpeer : peer' = peer
    · by_cases hkey : key' = key
      · subst hpeer hkey
        cases sent.find? fun entry => recordKeyOf entry = key' <;> simp
      · simp [hpeer, hkey]
    · simp [hpeer]

theorem lookup_acknowledgeAll (ack : Ack) (peer' : PeerId) (key : RecordKey) :
    (e.acknowledgeAll peer sent ack now).acknowledged.lookup (peer', key) =
      ((Delivery.acknowledges ⟨peer, sent, ack⟩ peer' key).map (·.writtenAt)).or (e.acknowledged.lookup (peer', key)) := by
  unfold acknowledgeAll Delivery.acknowledges
  rw [lookup_foldl_acknowledge, lookup_foldl_acknowledge]
  by_cases hpeer : peer' = peer
  · by_cases haccepted : key ∈ ack.accepted <;> by_cases hsuperseded : key ∈ ack.superseded <;>
      cases sent.find? fun entry => recordKeyOf entry = key <;> simp [hpeer, haccepted, hsuperseded]
  · simp [hpeer, Ne.symm hpeer]

end acknowledge

/-! ## One publish -/

/-- What the engine remembers is when the entries were written that were acknowledged last. -/
def Tracks (e : SyncEngine B) (log : List Delivery) : Prop :=
  ∀ peer key, e.acknowledged.lookup (peer, key) = (lastAcknowledged peer key log).map (·.writtenAt)

variable {entry : VaultEntry} {peer : PeerId}

theorem mem_toSend {e : SyncEngine B} {entries : List VaultEntry} :
    entry ∈ e.toSend peer entries ↔
      entry ∈ entries ∧ e.acknowledged.lookup (peer, recordKeyOf entry) ≠ some entry.writtenAt := by
  simp [toSend]

/-- What part of a publish may have done to the engine, having delivered some of `entries`. -/
structure Since (entries : List VaultEntry) (e e' : SyncEngine B) (delivered : List Delivery) : Prop where
  secret : e'.groupSecret = e.groupSecret
  ofEntries : ∀ d ∈ delivered, ∀ entry ∈ d.entries, entry ∈ entries
  lookup : ∀ peer key, e'.acknowledged.lookup (peer, key) =
    ((lastAcknowledged peer key delivered).map (·.writtenAt)).or (e.acknowledged.lookup (peer, key))

namespace Since

variable {entries : List VaultEntry} {e e' e'' : SyncEngine B} {delivered delivered' : List Delivery}

theorem refl (e : SyncEngine B) : Since entries e e [] := ⟨rfl, by simp, by simp [lastAcknowledged]⟩

theorem trans (h : Since entries e e' delivered) (h' : Since entries e' e'' delivered') :
    Since entries e e'' (delivered ++ delivered') := by
  refine ⟨h'.secret.trans h.secret, fun d hd => ?_, fun peer key => ?_⟩
  · exact (mem_append.mp hd).elim (h.ofEntries d) (h'.ofEntries d)
  · rw [h'.lookup, h.lookup, lastAcknowledged_append, ← Option.or_assoc, Option.map_or]

theorem of_acknowledged (hsecret : e'.groupSecret = e.groupSecret) (h : e'.acknowledged = e.acknowledged) :
    Since entries e e' [] :=
  ⟨hsecret, by simp, by simp [lastAcknowledged, h]⟩

section

variable (h : Since entries e e' delivered)
include h

theorem tracks (htracks : e.Tracks log) : e'.Tracks (log ++ delivered) := by
  intro peer key
  rw [h.lookup, htracks, lastAcknowledged_append, Option.map_or]

theorem last_eq (hdistinct : (entries.map recordKeyOf).Nodup) {other : VaultEntry} (hentry : entry ∈ entries)
    (hlast : lastAcknowledged peer (recordKeyOf entry) delivered = some other) :
    other = entry ∧ Sent delivered peer entry := by
  obtain ⟨d, hd, hd'⟩ := exists_of_lastAcknowledged hlast
  obtain ⟨hpeer, hother, hkey⟩ := Delivery.acknowledges_eq_some hd'
  have hsame : other = entry := inj_on_of_nodup_map hdistinct (h.ofEntries d hd other hother) hentry hkey
  exact ⟨hsame, d, hd, hpeer, hsame ▸ hother⟩

theorem due (hdistinct : (entries.map recordKeyOf).Nodup)
    (hdue : e'.toSend peer entries ≠ []) : e.toSend peer entries ≠ [] := by
  obtain ⟨entry, hentry⟩ := exists_mem_of_ne_nil _ hdue
  obtain ⟨hmem, hlookup⟩ := mem_toSend.mp hentry
  refine ne_nil_of_mem (mem_toSend.mpr ⟨hmem, fun hbefore => hlookup ?_⟩)
  rw [h.lookup, hbefore]
  cases hlast : lastAcknowledged peer (recordKeyOf entry) delivered with
  | none => rfl
  | some other => simp [(h.last_eq hdistinct hmem hlast).1]

end

end Since

section publish

variable [DecidableEq B] {p : Primitives B} {verify : IdentityVerifier B} {transport : PeerTransport B}
  {e' : SyncEngine B}
  {random : Randomness B} {entries : List VaultEntry} {now : Nat} {e : SyncEngine B} {i : Nat}
  {ad : SignedAdvertisement B} {peer : PeerId}

theorem admits_congr (h : e'.groupSecret = e.groupSecret) :
    e'.admits p verify ad = e.admits p verify ad := by
  simp only [admits, h]

omit [DecidableEq B] in
theorem groupSecret_acknowledgeAll (e : SyncEngine B) (sent : List VaultEntry) (ack : Ack) :
    (e.acknowledgeAll peer sent ack now).groupSecret = e.groupSecret := by
  have hfold : ∀ (status : SyncStatus) (keys : List RecordKey) (e : SyncEngine B),
      (keys.foldl (acknowledge peer sent status now) e).groupSecret = e.groupSecret := by
    intro status keys
    induction keys with
    | nil => exact fun e => rfl
    | cons key keys ih => exact fun e => ih _
  exact (hfold _ _ _).trans (hfold _ _ _)

variable (p verify transport random entries now e i ad) in
theorem publishTo_since :
    Since entries e (publishTo p verify transport random entries now e i ad).engine
      (publishTo p verify transport random entries now e i ad).delivered := by
  unfold publishTo
  split
  · exact .of_acknowledged rfl rfl
  · next peer _ =>
    dsimp only
    split
    · exact .refl e
    split
    · exact .refl e
    split
    · next ack _ =>
      refine ⟨groupSecret_acknowledgeAll _ _ ack, fun d hd => ?_, fun peer' key => ?_⟩
      · rw [mem_singleton.mp hd]
        exact fun entry hentry => (mem_toSend.mp hentry).1
      · rw [lookup_acknowledgeAll]
        simp [lastAcknowledged, noteAll]
    · exact .of_acknowledged rfl rfl

theorem publishTo_ok (h : ∀ peer, e.admits p verify ad = .ok peer → e.toSend peer entries ≠ [] →
    p.length ad.advertisement.transportPublicKey = 32) :
    (publishTo p verify transport random entries now e i ad).result = .ok () := by
  unfold publishTo
  split
  · rfl
  · next peer hadmits =>
    dsimp only
    split
    · rfl
    · next hdue =>
      have hlength := h peer hadmits (by simpa using hdue)
      simp only [transportPublicKeyOf, hlength, ↓reduceIte]
      split <;> rfl

theorem publishTo_sends (hadmits : e.admits p verify ad = .ok peer)
    (hlength : p.length ad.advertisement.transportPublicKey = 32)
    (hsend : ∀ payload, ∃ ack, transport.send i peer payload = .ok ack) (hentry : entry ∈ e.toSend peer entries) :
    Sent (publishTo p verify transport random entries now e i ad).delivered peer entry := by
  have hdue : (e.toSend peer entries).isEmpty = false := by
    simpa using ne_nil_of_mem hentry
  obtain ⟨ack, hack⟩ := hsend (e.wrapFor p (random.nonce i) peer ad.advertisement.transportPublicKey
    (e.toSend peer entries))
  simp only [publishTo, hadmits, hdue, transportPublicKeyOf, hlength, hack, ↓reduceIte, Bool.false_eq_true]
  exact ⟨_, mem_singleton_self _, rfl, hentry⟩

variable (p verify transport random entries now) in
theorem publishLoop_since (e : SyncEngine B) (i : Nat) (peers : List (SignedAdvertisement B)) :
    Since entries e (publishLoop p verify transport random entries now e i peers).engine
      (publishLoop p verify transport random entries now e i peers).delivered := by
  induction peers generalizing e i with
  | nil => exact .refl e
  | cons ad peers ih =>
    have hturn := publishTo_since p verify transport random entries now e i ad
    unfold publishLoop
    dsimp only
    split
    · exact hturn
    · exact hturn.trans (ih _ _)

/-- The loop from any point on: what it started with is due to the peers that are left, or was delivered on the way. -/
theorem publishLoop_reaches (hdistinct : (entries.map recordKeyOf).Nodup) {before : List Delivery}
    (hsince : Since entries e e' before) {peers : List (SignedAdvertisement B)}
    (hkeys : ∀ ad ∈ peers, ∀ peer, e.admits p verify ad = .ok peer → e.toSend peer entries ≠ [] →
      p.length ad.advertisement.transportPublicKey = 32)
    {k : Nat} (hk : peers[k]? = some ad) (hadmits : e.admits p verify ad = .ok peer)
    (hlength : p.length ad.advertisement.transportPublicKey = 32)
    (hsend : ∀ payload, ∃ ack, transport.send (i + k) peer payload = .ok ack) (hentry : entry ∈ entries) :
    Sent (before ++ (publishLoop p verify transport random entries now e' i peers).delivered) peer entry ∨
      e.acknowledged.lookup (peer, recordKeyOf entry) = some entry.writtenAt := by
  induction peers generalizing e' before i k with
  | nil => exact absurd hk (by simp)
  | cons first peers ih =>
    have hturn := publishTo_since p verify transport random entries now e' i first
    have hok : (publishTo p verify transport random entries now e' i first).result = .ok () :=
      publishTo_ok fun peer' hadmits' hdue =>
        hkeys first mem_cons_self peer' (admits_congr hsince.secret ▸ hadmits') (hsince.due hdistinct hdue)
    unfold publishLoop
    simp only [hok, ← append_assoc]
    cases k with
    | zero =>
      -- this turn: what it does not send was not due
      obtain rfl : first = ad := by simpa using hk
      by_cases hdue : entry ∈ e'.toSend peer entries
      · have hthis : Sent (publishTo p verify transport random entries now e' i first).delivered peer entry :=
          publishTo_sends ((admits_congr hsince.secret).trans hadmits) hlength hsend hdue
        obtain ⟨d, hd, hsent⟩ := hthis
        exact .inl ⟨d, by simp [hd], hsent⟩
      have hlookup : e'.acknowledged.lookup (peer, recordKeyOf entry) = some entry.writtenAt := by
        simpa [mem_toSend, hentry] using hdue
      rw [hsince.lookup] at hlookup
      cases hlast : lastAcknowledged peer (recordKeyOf entry) before with
      | none => exact .inr (by simpa [hlast] using hlookup)
      | some other =>
        obtain ⟨d, hd, hsent⟩ := (hsince.last_eq hdistinct hentry hlast).2
        exact .inl ⟨d, by simp [hd], hsent⟩
    | succ k =>
      refine ih (hsince.trans hturn) (fun ad' h => hkeys ad' (mem_cons_of_mem first h)) (by simpa using hk) ?_
      rwa [show i + 1 + k = i + (k + 1) by omega]

end publish

end SyncEngine

/-! ## Whole runs -/

structure PublishCall (B : Type) where
  verify : IdentityVerifier B
  transport : PeerTransport B
  random : Randomness B
  noSignature : B
  now : Nat

structure Publisher (B : Type) where
  vault : Vault
  engine : SyncEngine B
  log : List Delivery

namespace Publisher

inductive Event (B : Type)
  | put (record : CredentialRecord)
  | remove (provider account : String) (now : Nat)
  | publish (call : PublishCall B)

variable {B : Type}

def start (groupSecret : Option B) (transportKey : B) : Publisher B :=
  ⟨.empty, .new groupSecret transportKey, []⟩

variable [DecidableEq B] (p : Primitives B) (s : Publisher B)

def published (call : PublishCall B) : SyncEngine.Published B :=
  s.engine.publish p call.verify call.transport call.random call.noSignature s.vault.entries call.now

def step : Event B → Publisher B
  | .put record => { s with vault := s.vault.put record }
  | .remove provider account now => { s with vault := s.vault.remove provider account now }
  | .publish call => { s with engine := (s.published p call).engine, log := s.log ++ (s.published p call).delivered }

/-- Each advertisement that is admitted, has a key of the right length and whose peer the transport reaches: after the
    publish the peer was sent every entry but those it had acknowledged. -/
def Reaches : Event B → Prop
  | .publish call =>
    (∀ secret, s.engine.groupSecret = some secret →
      call.transport.advertise (s.engine.selfAdvertisement p secret call.random.challenge call.noSignature) = .ok ()) →
    ∀ i ad peer, call.transport.peers[i]? = some ad → s.engine.admits p call.verify ad = .ok peer →
      p.length ad.advertisement.transportPublicKey = 32 →
      (∀ payload, ∃ ack, call.transport.send i peer payload = .ok ack) →
      ∀ entry ∈ s.vault.entries, Sent (s.published p call).delivered peer entry ∨ Acknowledged s.log peer entry
  | _ => True

/-- No admitted peer that is owed something has a malformed key, and an entry that a peer has not acknowledged was not
    written in the second in which the one was that it acknowledged last for the slot. -/
def Clear : Event B → Prop
  | .publish call =>
    (∀ ad ∈ call.transport.peers, ∀ peer, s.engine.admits p call.verify ad = .ok peer →
      s.engine.toSend peer s.vault.entries ≠ [] → p.length ad.advertisement.transportPublicKey = 32) ∧
    ∀ peer, ∀ entry ∈ s.vault.entries, ¬ Acknowledged s.log peer entry →
      ∀ last, lastAcknowledged peer (recordKeyOf entry) s.log = some last → last.writtenAt ≠ entry.writtenAt
  | _ => True

variable {p} {s : Publisher B}

theorem published_since (call : PublishCall B) :
    SyncEngine.Since s.vault.entries s.engine (s.published p call).engine (s.published p call).delivered := by
  unfold published SyncEngine.publish
  split
  · exact .refl _
  · split
    · exact .refl _
    · exact SyncEngine.publishLoop_since p call.verify call.transport call.random _ _ _ _ _

theorem step_tracks (h : s.engine.Tracks s.log) (ev : Event B) : (step p s ev).engine.Tracks (step p s ev).log := by
  cases ev with
  | put record => exact h
  | remove provider account now => exact h
  | publish call => exact (published_since call).tracks h

theorem step_reaches (h : s.engine.Tracks s.log) {ev : Event B} (hclear : s.Clear p ev) : s.Reaches p ev := by
  cases ev with
  | put record => trivial
  | remove provider account now => trivial
  | publish call =>
    intro hadvertise i ad peer hi hadmits hlength hsend entry hentry
    obtain ⟨hkeys, hseconds⟩ := hclear
    cases hsecret : s.engine.groupSecret with
    | none =>
      -- without a secret nobody is admitted
      simp only [SyncEngine.admits, hsecret] at hadmits
      split at hadmits <;> cases hadmits
    | some secret =>
      have hsend' : ∀ payload, ∃ ack, call.transport.send (0 + i) peer payload = .ok ack := by
        rwa [Nat.zero_add]
      have hloop : Sent (s.published p call).delivered peer entry ∨
          s.engine.acknowledged.lookup (peer, recordKeyOf entry) = some entry.writtenAt := by
        simp only [published, SyncEngine.publish, hsecret, hadvertise secret hsecret]
        exact SyncEngine.publishLoop_reaches s.vault.entries_distinct (.refl _) hkeys hi hadmits hlength hsend' hentry
      rcases hloop with hsent | hlookup
      · exact .inl hsent
      -- the engine takes the entry for acknowledged: then it is
      rw [h, Option.map_eq_some_iff] at hlookup
      obtain ⟨last, hlast, hwritten⟩ := hlookup
      by_cases hack : Acknowledged s.log peer entry
      · exact .inr hack
      · exact absurd hwritten (hseconds peer entry hentry hack last hlast)

/-! ### Instances -/

def slot : RecordKey := ⟨"github", "alice"⟩

def token : CredentialRecord := ⟨"github", "alice", "", "token", [], 7, 1⟩

def desk : Daemon := ⟨.new (some (.key 0)) (.key 2), "desk", "desk-key", .key 3⟩

def broken : Daemon := ⟨.new (some (.key 0)) (.key 4), "broken", "broken-key", .key 5⟩

def deskAd : SignedAdvertisement Msg := desk.advertisement (.key 0) (.random 1)

def brokenAd : SignedAdvertisement Msg :=
  broken.signed ⟨⟨"", "", .data (.text "short"), .random 2, .mac (.key 0) (.random 2)⟩, .random 0⟩

def fleetKeys : String → Option Msg
  | "desk-key" => some (.publicOf (.key 3))
  | "broken-key" => some (.publicOf (.key 5))
  | _ => none

def callTo (peers : List (SignedAdvertisement Msg)) (now : Nat) : PublishCall Msg where
  verify := directoryVerifier fleetKeys
  transport := ⟨fun _ => .ok (), peers, fun _ _ _ => .ok ⟨"", [slot], []⟩⟩
  random := ⟨.random 0, .random⟩
  noSignature := .data (.text "")
  now := now

def removedAt (now : Nat) : List (Event Msg) :=
  [.put token, .publish (callTo [deskAd] 7), .remove "github" "alice" now, .publish (callTo [deskAd] now)]

def laptop : Publisher Msg := .start (some (.key 0)) (.key 1)

theorem before_removal (now : Nat) : let s := ((removedAt now).take 3).foldl (step symbolic) laptop
    s.vault.entries = [.tombstone ⟨"github", "alice", 1, now⟩] ∧
      s.log = [⟨"desk", [.record token], ⟨"", [slot], []⟩⟩] := by
  exact ⟨rfl, rfl⟩

/-! ### The theorem -/

/-- In every run of changes and publishes, a publish that meets no malformed key and no second change of a slot within one
    second leaves no peer behind that it can reach. -/
theorem publish_reaches_every_peer (p : Primitives B) (groupSecret : Option B) (transportKey : B)
    (events : List (Event B)) (h : Guarded (step p) (Clear p) (start groupSecret transportKey) events) :
    Guarded (step p) (Reaches p) (start groupSecret transportKey) events :=
  guarded_imp (fun _ ev htracks _ => step_tracks htracks ev) (fun _ _ htracks hclear => step_reaches htracks hclear)
    (fun _ _ => rfl) h

theorem a_later_removal_reaches_the_desk :
    Guarded (step symbolic) (Clear symbolic) laptop (removedAt 8) ∧
      Guarded (step symbolic) (Reaches symbolic) laptop (removedAt 8) := by
  have hclear : Guarded (step symbolic) (Clear symbolic) laptop (removedAt 8) := by
    refine ⟨trivial, ⟨?_, fun peer entry _ _ last hlast => ?_⟩, trivial,
      ⟨?_, fun peer entry hentry _ last hlast => ?_⟩, trivial⟩
    · intro ad had
      rw [mem_singleton.mp had]
      exact fun _ _ _ => rfl
    · exact absurd hlast (by simp [laptop, start, step, lastAcknowledged])
    · intro ad had
      rw [mem_singleton.mp had]
      exact fun _ _ _ => rfl
    -- the token was written in second 7, the removal in second 8
    obtain ⟨hentries, hlog⟩ := before_removal 8
    obtain ⟨d, hd, hd'⟩ := exists_of_lastAcknowledged hlast
    obtain rfl : d = _ := mem_singleton.mp (hlog ▸ hd)
    have htoken : last = .record token := by simpa using (Delivery.acknowledges_eq_some hd').2.1
    have hremoval : entry = .tombstone ⟨"github", "alice", 1, 8⟩ := mem_singleton.mp (hentries ▸ hentry)
    rw [htoken, hremoval]
    decide
  exact ⟨hclear, publish_reaches_every_peer symbolic _ _ _ hclear⟩

/-- The desk is not sent the removal made in the second of the write, nor anything after a peer with a malformed key. -/
theorem publish_leaves_the_desk_behind :
    ¬ Guarded (step symbolic) (Reaches symbolic) laptop (removedAt 7) ∧
      ¬ Guarded (step symbolic) (Reaches symbolic) laptop [.put token, .publish (callTo [brokenAd, deskAd] 7)] := by
  constructor
  · intro h
    obtain ⟨-, hlog⟩ := before_removal 7
    rcases h.2.2.2.1 (fun _ _ => rfl) 0 deskAd "desk" rfl rfl rfl (fun _ => ⟨_, rfl⟩) (.tombstone ⟨"github", "alice", 1, 7⟩)
      mem_cons_self with ⟨d, hd, -⟩ | ⟨d, hd, hd'⟩
    · exact absurd hd not_mem_nil
    · obtain rfl : d = _ := mem_singleton.mp (hlog ▸ hd)
      exact absurd (Delivery.acknowledges_eq_some hd').2.1 (by decide)
  · intro h
    rcases h.2.1 (fun _ _ => rfl) 1 deskAd "desk" rfl rfl rfl (fun _ => ⟨_, rfl⟩) (.record token)
      mem_cons_self with ⟨d, hd, -⟩ | ⟨d, hd, -⟩
    · exact absurd hd not_mem_nil
    · exact absurd hd not_mem_nil

end Publisher

end TddyCoder.CredentialSync
