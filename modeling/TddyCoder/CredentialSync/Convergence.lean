/-
  TddyCoder.CredentialSync.Convergence — daemons that exchange what their vaults hold.

  A payload that was sent may reach any daemon, any number of times and in any order.
  `reconcile` ranks entries by when they were written and then by version, and takes the
  incoming one where both tie. So the daemons agree in the end exactly when one entry ranks
  above all others of its slot.

  Proved: `credentials_converge_iff`; `a_removal_in_the_same_second_swaps` is a tie.
-/

import TddyCoder.CredentialSync.Engine
import TddyCoder.Replica.LastWriter
import Mathlib.Data.Prod.Lex
import Mathlib.Data.Set.Finite.Lattice
import Mathlib.Data.Set.Finite.Lemmas

namespace TddyCoder.CredentialSync

open Replica List Function

/-! ## The merge of two entries -/

def VaultEntry.rank (entry : VaultEntry) : Nat ×ₗ Nat := toLex (entry.writtenAt, entry.version)

open VaultEntry (rank)

def merge (held incoming : VaultEntry) : VaultEntry :=
  match reconcile (some held) incoming with
  | .takeIncoming _ => incoming
  | _ => held

def Reconciliation.takes : Reconciliation → Bool
  | takeIncoming _ => true
  | _ => false

open Reconciliation (takes)

theorem reconcile_takes (held incoming : VaultEntry) (h : held ≠ incoming) :
    (reconcile (some held) incoming).takes = decide (held.rank ≤ incoming.rank) := by
  have hrank : held.rank ≤ incoming.rank ↔ held.writtenAt < incoming.writtenAt ∨
      held.writtenAt = incoming.writtenAt ∧ held.version ≤ incoming.version := Prod.Lex.le_iff
  rcases Nat.lt_trichotomy held.writtenAt incoming.writtenAt with hlt | heq | hgt
  · simp [reconcile, h, Nat.compare_eq_lt.mpr hlt, takes, hrank, hlt]
  · rcases Nat.lt_trichotomy held.version incoming.version with hvlt | hveq | hvgt
    · simp [reconcile, h, Nat.compare_eq_lt.mpr hvlt, takes, hrank, heq, Nat.le_of_lt hvlt]
    · simp [reconcile, h, takes, hrank, heq, hveq]
    · simp [reconcile, h, Nat.compare_eq_gt.mpr hvgt, takes, hrank, heq, Nat.not_le.mpr hvgt]
  · have hne : ¬ held.writtenAt = incoming.writtenAt := Nat.ne_of_gt hgt
    simp [reconcile, h, Nat.compare_eq_gt.mpr hgt, takes, hrank, Nat.le_of_lt hgt, hne]

theorem merge_eq_settle (held incoming : VaultEntry) : merge held incoming = settle rank held incoming := by
  by_cases h : held = incoming
  · subst h
    simp [merge, reconcile, settle]
  have htakes := reconcile_takes held incoming h
  by_cases hle : held.rank ≤ incoming.rank
  · rw [settle_of_le hle, merge]
    cases hr : reconcile (some held) incoming <;> simp [hr, takes, hle] at htakes ⊢
  · rw [settle_of_lt (not_le.mp hle), merge]
    cases hr : reconcile (some held) incoming <;> simp [hr, takes, hle] at htakes ⊢

/-! ## One delivery -/

namespace Vault

def retainAll (v : Vault) (retain : List VaultEntry) : Vault := retain.foldl replace v

def restrict (v : Vault) (keep : VaultEntry → Bool) : Vault :=
  ⟨v.records.filter keep, v.distinct.sublist (filter_sublist.map _)⟩

def takeDelivery (v payload : Vault) : Vault := v.retainAll (receiveEntries payload.entries v.entries).retain

theorem held_retainAll {retain : List VaultEntry} (h : (retain.map recordKeyOf).Nodup) (v : Vault) (key : RecordKey) :
    (v.retainAll retain).held key = (retain.find? fun entry => recordKeyOf entry = key).or (v.held key) := by
  induction retain generalizing v with
  | nil => rfl
  | cons entry retain ih =>
    obtain ⟨hnew, hrest⟩ := nodup_cons.mp h
    show ((v.replace entry).retainAll retain).held key = _
    rw [ih hrest, held_replace]
    by_cases hkey : recordKeyOf entry = key
    · have hnone : retain.find? (fun entry => recordKeyOf entry = key) = none := by
        refine find?_eq_none.mpr fun other hother => ?_
        have hne : recordKeyOf other ≠ key := fun he => hnew (mem_map.mpr ⟨other, hother, he.trans hkey.symm⟩)
        simpa using hne
      simp [hnone, hkey]
    · simp [hkey]

theorem retain_receiveEntries (wire held : List VaultEntry) :
    (receiveEntries wire held).retain = wire.filter fun incoming =>
      (reconcile (held.find? fun entry => recordKeyOf entry = recordKeyOf incoming) incoming).takes := by
  have hfold : ∀ outcome : ReceiveOutcome, (wire.foldl (receiveEntry held) outcome).retain = outcome.retain ++
      wire.filter fun incoming =>
        (reconcile (held.find? fun entry => recordKeyOf entry = recordKeyOf incoming) incoming).takes := by
    induction wire with
    | nil => intro outcome; simp
    | cons incoming wire ih =>
      intro outcome
      rw [foldl_cons, ih, filter_cons]
      have hlocal : (fun entry : VaultEntry => decide (entry.provider = incoming.provider ∧
          entry.account = incoming.account)) = fun entry => decide (recordKeyOf entry = recordKeyOf incoming) := by
        funext entry
        simp [recordKeyOf]
      rw [receiveEntry, hlocal]
      cases reconcile (held.find? fun entry => recordKeyOf entry = recordKeyOf incoming) incoming <;>
        simp [takes]
  exact hfold _

theorem held_takeDelivery (v payload : Vault) (key : RecordKey) :
    (v.takeDelivery payload).held key = settleAll rank (v.held key) (payload.held key).toList := by
  have hdistinct : ((receiveEntries payload.entries v.entries).retain.map recordKeyOf).Nodup := by
    rw [retain_receiveEntries]
    exact payload.entries_distinct.sublist (filter_sublist.map _)
  have hfind : ((receiveEntries payload.entries v.entries).retain.find? fun entry => recordKeyOf entry = key) =
      (payload.held key).filter fun incoming => (reconcile (v.held key) incoming).takes := by
    refine Option.ext fun entry => ?_
    rw [find_of_distinct hdistinct, retain_receiveEntries, mem_filter, mem_entries, find_entries,
      Option.filter_eq_some_iff, held_eq_some]
    constructor
    · rintro ⟨⟨hmem, htakes⟩, rfl⟩
      exact ⟨⟨hmem, rfl⟩, htakes⟩
    · rintro ⟨⟨hmem, rfl⟩, htakes⟩
      exact ⟨⟨hmem, htakes⟩, rfl⟩
  rw [takeDelivery, held_retainAll hdistinct, hfind]
  cases hincoming : payload.held key with
  | none => rfl
  | some incoming =>
    cases hheld : v.held key with
    | none => rfl
    | some entry =>
      show _ = some (settle rank entry incoming)
      rw [← merge_eq_settle, merge]
      cases hr : reconcile (some entry) incoming <;> simp [Option.filter, takes, hr]

end Vault

/-! ## The fleet -/

/-- `received` is what each daemon held at first and all that was delivered to it. -/
structure Fleet (ι : Type) where
  vaults : ι → Vault
  sent : List Vault
  received : ι → List VaultEntry

inductive FleetEvent (ι : Type)
  | send (daemon : ι) (keep : VaultEntry → Bool)
  | deliver (daemon : ι) (payload : Nat)

namespace Fleet

variable {ι : Type} (start : ι → Vault)

def slotEntries (key : RecordKey) : Set VaultEntry :=
  {entry | ∃ daemon, (start daemon).held key = some entry}

def Complete (s : Fleet ι) (key : RecordKey) : Prop :=
  ∀ entry ∈ slotEntries start key, ∀ daemon, entry ∈ s.received daemon

structure MergeLaws (values : Set VaultEntry) : Prop where
  comm : ∀ a ∈ values, ∀ b ∈ values, merge a b = merge b a
  assoc : ∀ a ∈ values, ∀ b ∈ values, ∀ c ∈ values, merge (merge a b) c = merge a (merge b c)
  idem : ∀ a ∈ values, merge a a = a

/-- No two entries rank above all others. -/
def OneLatest (values : Set VaultEntry) : Prop :=
  ∀ a ∈ values, ∀ b ∈ values, (∀ entry ∈ values, entry.rank ≤ a.rank) → (∀ entry ∈ values, entry.rank ≤ b.rank) → a = b

section

variable [DecidableEq ι] (s : Fleet ι)

def deliver (daemon : ι) (payload : Vault) : Fleet ι :=
  { s with
    vaults := update s.vaults daemon ((s.vaults daemon).takeDelivery payload)
    received := update s.received daemon (s.received daemon ++ payload.records) }

def step : FleetEvent ι → Fleet ι
  | .send daemon keep => { s with sent := s.sent ++ [(s.vaults daemon).restrict keep] }
  | .deliver daemon number =>
    match s.sent[number]? with
    | none => s
    | some payload => s.deliver daemon payload

def run (events : List (FleetEvent ι)) : Fleet ι :=
  events.foldl step ⟨start, [], fun daemon => (start daemon).records⟩

/-- All hold one entry that was written last, whatever is sent and delivered from now on. -/
def Converged (events : List (FleetEvent ι)) (key : RecordKey) : Prop :=
  ∃ latest ∈ slotEntries start key, (∀ entry ∈ slotEntries start key, entry.writtenAt ≤ latest.writtenAt) ∧
    ∀ more daemon, ((run start (events ++ more)).vaults daemon).held key = some latest

/-- However a complete exchange goes, all end with one entry and keep it. -/
def Converges (key : RecordKey) : Prop :=
  (slotEntries start key).Nonempty → ∀ events, Complete start (run start events) key → Converged start events key

end

/-! ### What a daemon holds -/

structure Sound (s : Fleet ι) : Prop where
  settled : ∀ daemon key, (s.vaults daemon).held key =
    settleAll rank none ((s.received daemon).filter fun entry => recordKeyOf entry = key)
  received : ∀ daemon, ∀ entry ∈ s.received daemon, entry ∈ slotEntries start (recordKeyOf entry)
  sent : ∀ payload ∈ s.sent, ∀ entry ∈ payload.records, entry ∈ slotEntries start (recordKeyOf entry)

theorem filter_records (v : Vault) (key : RecordKey) :
    (v.records.filter fun entry => recordKeyOf entry = key) = (v.held key).toList := by
  have hone : ∀ {records : List VaultEntry}, (records.map recordKeyOf).Nodup →
      (records.filter fun entry => recordKeyOf entry = key) =
        (records.find? fun entry => recordKeyOf entry = key).toList := by
    intro records hdistinct
    induction records with
    | nil => rfl
    | cons entry records ih =>
      obtain ⟨hnew, hrest⟩ := nodup_cons.mp hdistinct
      by_cases hkey : recordKeyOf entry = key
      · have hnone : (records.filter fun entry => recordKeyOf entry = key) = [] := by
          refine filter_eq_nil_iff.mpr fun other hother => ?_
          have hne : recordKeyOf other ≠ key := fun he => hnew (mem_map.mpr ⟨other, hother, he.trans hkey.symm⟩)
          simpa using hne
        simp [hkey, hnone]
      · simpa [hkey] using ih hrest
  exact hone v.distinct

variable {start : ι → Vault} {s : Fleet ι} {key : RecordKey}

variable {daemon : ι} {entry : VaultEntry}

theorem mem_slotEntries (h : entry ∈ (start daemon).records) : entry ∈ slotEntries start (recordKeyOf entry) :=
  ⟨daemon, Vault.held_eq_some.mpr ⟨h, rfl⟩⟩

theorem Sound.init (start : ι → Vault) : Sound start ⟨start, [], fun daemon => (start daemon).records⟩ := by
  refine ⟨fun daemon key => ?_, fun daemon entry hmem => mem_slotEntries hmem, fun payload hmem => nomatch hmem⟩
  rw [filter_records]
  cases (start daemon).held key <;> rfl

theorem Sound.mem_received (h : Sound start s)
    (hmem : entry ∈ (s.vaults daemon).records) : entry ∈ s.received daemon := by
  have hheld := Vault.held_eq_some.mpr ⟨hmem, rfl⟩
  rw [h.settled] at hheld
  have hin := (mem_of_settleAll hheld).resolve_left (by simp)
  exact (mem_filter.mp hin).1

theorem Sound.held_top (h : Sound start s) {top : VaultEntry} (htop : top ∈ slotEntries start key)
    (habove : ∀ entry ∈ slotEntries start key, entry = top ∨ entry.rank < top.rank)
    (hreceived : top ∈ s.received daemon) : (s.vaults daemon).held key = some top := by
  obtain ⟨origin, horigin⟩ := htop
  have hkey : recordKeyOf top = key := (Vault.held_eq_some.mp horigin).2
  rw [h.settled]
  refine settleAll_top (fun entry hentry => nomatch hentry) (fun entry hentry => ?_)
    (.inr (mem_filter.mpr ⟨hreceived, by simpa using hkey⟩))
  obtain ⟨hmem, hslot⟩ := mem_filter.mp hentry
  have hslot : recordKeyOf entry = key := by simpa using hslot
  exact habove entry (hslot ▸ h.received daemon entry hmem)

theorem finite_slotEntries [Fintype ι] (start : ι → Vault) (key : RecordKey) : (slotEntries start key).Finite := by
  have hsubset : slotEntries start key ⊆ ⋃ daemon, {entry | entry ∈ (start daemon).records} := by
    rintro entry ⟨daemon, hheld⟩
    exact Set.mem_iUnion.mpr ⟨daemon, (Vault.held_eq_some.mp hheld).1⟩
  exact (Set.finite_iUnion fun daemon => finite_toSet (start daemon).records).subset hsubset

variable [DecidableEq ι]

variable {payload : Vault} {values : Set VaultEntry} {number : Nat}

theorem Sound.deliver (h : Sound start s) (hpayload : payload ∈ s.sent) (daemon : ι) :
    Sound start (s.deliver daemon payload) := by
  refine ⟨fun other key => ?_, fun other entry hentry => ?_, h.sent⟩
  · by_cases ho : other = daemon
    · subst ho
      simp only [Fleet.deliver, update_self]
      rw [Vault.held_takeDelivery, h.settled, filter_append, filter_records, settleAll, settleAll, settleAll,
        foldl_append]
    · simp only [Fleet.deliver, update_of_ne ho]
      exact h.settled other key
  · by_cases ho : other = daemon
    · subst ho
      simp only [Fleet.deliver, update_self] at hentry
      exact (mem_append.mp hentry).elim (h.received other entry) (h.sent payload hpayload entry)
    · simp only [Fleet.deliver, update_of_ne ho] at hentry
      exact h.received other entry hentry

theorem Sound.step (h : Sound start s) (event : FleetEvent ι) : Sound start (s.step event) := by
  cases event with
  | send daemon keep =>
    refine ⟨h.settled, h.received, forall_mem_append.mpr ⟨h.sent, forall_mem_singleton.mpr ?_⟩⟩
    exact fun entry hentry => h.received daemon entry (h.mem_received (mem_filter.mp hentry).1)
  | deliver daemon number =>
    simp only [Fleet.step]
    cases hsent : s.sent[number]? with
    | none => exact h
    | some payload => exact h.deliver (mem_of_getElem? hsent) daemon

theorem Sound.run (start : ι → Vault) (events : List (FleetEvent ι)) : Sound start (run start events) := by
  induction events using reverseRecOn with
  | nil => exact .init start
  | append_singleton events event ih =>
    rw [Fleet.run, foldl_append]
    exact ih.step event

theorem step_grows (s : Fleet ι) (event : FleetEvent ι) :
    s.sent <+: (s.step event).sent ∧ ∀ daemon, s.received daemon ⊆ (s.step event).received daemon := by
  cases event with
  | send daemon keep => exact ⟨prefix_append _ _, fun other => Subset.refl _⟩
  | deliver daemon number =>
    simp only [step]
    cases s.sent[number]? with
    | none => exact ⟨prefix_rfl, fun other => Subset.refl _⟩
    | some payload =>
      refine ⟨prefix_rfl, fun other => ?_⟩
      by_cases ho : other = daemon
      · subst ho
        simp [deliver]
      · simp [deliver, update_of_ne ho]

theorem run_grows (s : Fleet ι) (events : List (FleetEvent ι)) :
    s.sent <+: (events.foldl step s).sent ∧ ∀ daemon, s.received daemon ⊆ (events.foldl step s).received daemon := by
  induction events generalizing s with
  | nil => exact ⟨prefix_rfl, fun daemon => Subset.refl _⟩
  | cons event events ih =>
    obtain ⟨hsent, hreceived⟩ := s.step_grows event
    obtain ⟨hsent', hreceived'⟩ := ih (s.step event)
    exact ⟨hsent.trans hsent', fun daemon entry hentry => hreceived' daemon (hreceived daemon hentry)⟩

/-! ### One latest entry is enough -/

theorem converges_of_oneLatest [Fintype ι] (h : OneLatest (slotEntries start key)) : Converges start key := by
  intro hne events hcomplete
  obtain ⟨top, htop, hmax⟩ := Set.exists_max_image _ rank (finite_slotEntries start key) hne
  have habove : ∀ entry ∈ slotEntries start key, entry = top ∨ entry.rank < top.rank := by
    intro entry hentry
    by_cases hlt : entry.rank < top.rank
    · exact .inr hlt
    · have hle : top.rank ≤ entry.rank := not_lt.mp hlt
      exact .inl (h entry hentry top htop (fun other hother => (hmax other hother).trans hle) hmax)
  refine ⟨top, htop, fun entry hentry => ?_, fun more daemon => ?_⟩
  · rcases Prod.Lex.le_iff.mp (hmax entry hentry) with hlt | ⟨heq, -⟩
    · exact Nat.le_of_lt hlt
    · exact Nat.le_of_eq heq
  · refine (Sound.run start (events ++ more)).held_top htop habove ?_
    rw [run, foldl_append]
    exact (run_grows _ more).2 daemon (hcomplete top htop daemon)

/-! ### Two latest entries overtake each other -/

theorem restrict_all (v : Vault) : v.restrict (fun _ => true) = v := by
  cases v
  simp [Vault.restrict]

theorem foldl_send (s : Fleet ι) (daemons : List ι) :
    (daemons.map fun daemon => FleetEvent.send daemon fun _ => true).foldl step s =
      { s with sent := s.sent ++ daemons.map s.vaults } := by
  induction daemons generalizing s with
  | nil => simp
  | cons daemon daemons ih =>
    rw [map_cons, foldl_cons, ih]
    simp [step, restrict_all]

theorem received_of_deliver {events : List (FleetEvent ι)}
    (hmem : .deliver daemon number ∈ events) (hsent : s.sent[number]? = some payload) :
    payload.records ⊆ (events.foldl step s).received daemon := by
  induction events generalizing s with
  | nil => exact absurd hmem not_mem_nil
  | cons event events ih =>
    rcases mem_cons.mp hmem with rfl | hlater
    · have hnow : payload.records ⊆ (s.step (.deliver daemon number)).received daemon := by
        simp [step, hsent, deliver]
      exact fun entry hentry => (run_grows _ events).2 daemon (hnow hentry)
    · refine ih hlater ?_
      obtain ⟨more, hmore⟩ := (s.step_grows event).1
      rw [← hmore, getElem?_append_left (List.getElem?_eq_some_iff.mp hsent).1, hsent]

theorem step_deliver (hsent : s.sent[number]? = some payload) :
    s.step (.deliver daemon number) = s.deliver daemon payload := by
  simp [step, hsent]

theorem Sound.held_deliver (h : Sound start s)
    (hentry : payload.held key = some entry) (habove : ∀ other ∈ slotEntries start key, other.rank ≤ entry.rank)
    (daemon : ι) : ((s.deliver daemon payload).vaults daemon).held key = some entry := by
  simp only [Fleet.deliver, update_self]
  rw [Vault.held_takeDelivery, hentry]
  show settleAll rank _ ([] ++ [entry]) = some entry
  refine settleAll_last (fun other hother => ?_) (fun other hother => nomatch hother)
  obtain ⟨hmem, hkey⟩ := Vault.held_eq_some.mp hother
  exact habove other (hkey ▸ h.received daemon other (h.mem_received hmem))

theorem exists_exchange [Fintype ι] (start : ι → Vault) : ∃ events, (∀ key, Complete start (run start events) key) ∧
    ∀ daemon, ∃ number : Nat, (run start events).sent[number]? = some (start daemon) := by
  let daemons : List ι := Finset.univ.toList
  let sends := daemons.map fun daemon => FleetEvent.send daemon fun _ => true
  let exchange := daemons.flatMap fun daemon => (List.range daemons.length).map (FleetEvent.deliver daemon)
  have hall : ∀ daemon, daemon ∈ daemons := fun daemon => Finset.mem_toList.mpr (Finset.mem_univ daemon)
  have hsent : (run start sends).sent = daemons.map start := congrArg Fleet.sent (foldl_send _ daemons)
  have hnumber : ∀ daemon, ∃ number < daemons.length, (run start sends).sent[number]? = some (start daemon) := by
    intro daemon
    obtain ⟨number, hlt, hat⟩ := getElem_of_mem (hall daemon)
    refine ⟨number, hlt, ?_⟩
    rw [hsent, getElem?_map, getElem?_eq_getElem hlt, hat]
    rfl
  have hrun : run start (sends ++ exchange) = exchange.foldl step (run start sends) := foldl_append
  refine ⟨sends ++ exchange, fun key => ?_, fun daemon => ?_⟩
  · rintro entry ⟨origin, horigin⟩ daemon
    obtain ⟨number, hlt, hat⟩ := hnumber origin
    rw [hrun]
    refine received_of_deliver (mem_flatMap.mpr ⟨daemon, hall daemon, ?_⟩) hat (Vault.held_eq_some.mp horigin).1
    exact mem_map.mpr ⟨number, mem_range.mpr hlt, rfl⟩
  obtain ⟨number, -, hat⟩ := hnumber daemon
  obtain ⟨more, hmore⟩ := (run_grows (run start sends) exchange).1
  refine ⟨number, ?_⟩
  rw [hrun, ← hmore, getElem?_append_left (List.getElem?_eq_some_iff.mp hat).1, hat]

theorem oneLatest_of_converges [Fintype ι] (h : Converges start key) : OneLatest (slotEntries start key) := by
  intro a ha b hb hamax hbmax
  obtain ⟨d, hd⟩ := ha
  obtain ⟨d', hd'⟩ := hb
  by_cases hsame : d = d'
  · subst hsame
    exact Option.some.inj (hd.symm.trans hd')
  obtain ⟨events, hcomplete, hnumber⟩ := exists_exchange start
  obtain ⟨number, hnum⟩ := hnumber d
  obtain ⟨number', hnum'⟩ := hnumber d'
  -- at last each of the two receives the other's entry
  let swap : List (FleetEvent ι) := [.deliver d number', .deliver d' number]
  let half := (run start events).deliver d (start d')
  have hrun : run start (events ++ swap) = half.deliver d' (start d) := by
    rw [run, foldl_append]
    show ((run start events).step (.deliver d number')).step (.deliver d' number) = _
    rw [step_deliver hnum', step_deliver (show half.sent[number]? = _ from hnum)]
  have hsound := Sound.run start events
  have hsound' := hsound.deliver (mem_of_getElem? hnum') d
  have hswapped : Complete start (run start (events ++ swap)) key := by
    intro entry hentry daemon
    rw [run, foldl_append]
    exact (run_grows _ swap).2 daemon (hcomplete key entry hentry daemon)
  obtain ⟨latest, -, -, hheld⟩ := h ⟨a, d, hd⟩ (events ++ swap) hswapped
  have htakes : latest = a := by
    have hlast := hheld [] d'
    rw [append_nil, hrun, hsound'.held_deliver hd hamax d'] at hlast
    exact (Option.some.inj hlast).symm
  have htakes' : latest = b := by
    have hlast := hheld [] d
    have hother : (half.deliver d' (start d)).vaults d = half.vaults d := update_of_ne hsame _ _
    rw [append_nil, hrun, hother, hsound.held_deliver hd' hbmax d] at hlast
    exact (Option.some.inj hlast).symm
  exact htakes.symm.trans htakes'

/-! ## When the daemons agree -/

theorem oneLatest_of_noTies (h : NoTies rank values) : OneLatest values := by
  intro a ha b hb hamax hbmax
  exact h a ha b hb (le_antisymm (hbmax a ha) (hamax b hb))

theorem mergeLaws_iff : MergeLaws values ↔ NoTies rank values := by
  rw [← settle_comm_iff]
  constructor
  · intro h a ha b hb
    rw [← merge_eq_settle, ← merge_eq_settle, h.comm a ha b hb]
  intro h
  refine ⟨fun a ha b hb => ?_, fun a _ b _ c _ => ?_, fun a _ => ?_⟩
  · rw [merge_eq_settle, merge_eq_settle, h a ha b hb]
  · simp only [merge_eq_settle, settle_assoc]
  · rw [merge_eq_settle, settle_self]

/-- The daemons converge, by a merge that is a semilattice's, exactly when no two different entries for the slot tie on
    both measures; and they converge at all exactly when no two tie above all others. -/
theorem credentials_converge_iff [Fintype ι] (start : ι → Vault) (key : RecordKey) :
    (Converges start key ∧ MergeLaws (slotEntries start key) ↔ NoTies rank (slotEntries start key)) ∧
      (Converges start key ↔ OneLatest (slotEntries start key)) := by
  refine ⟨⟨fun h => mergeLaws_iff.mp h.2, fun h => ⟨?_, mergeLaws_iff.mpr h⟩⟩, oneLatest_of_converges,
    converges_of_oneLatest⟩
  exact converges_of_oneLatest (oneLatest_of_noTies h)

/-- A daemon links an account; another, that has the record, removes it in the same second. Each takes the other's answer,
    and they have swapped. -/
theorem a_removal_in_the_same_second_swaps :
    ¬ Converges
      (fun removed : Bool =>
        if removed then (Vault.empty.put ⟨"github", "jane", "Jane", "token", [], 7, 1⟩).remove "github" "jane" 7
        else Vault.empty.put ⟨"github", "jane", "Jane", "token", [], 7, 1⟩)
      ⟨"github", "jane"⟩ := by
  intro h
  obtain ⟨latest, -, -, hheld⟩ := h ⟨_, false, rfl⟩
    [.send false fun _ => true, .send true fun _ => true, .deliver false 1, .deliver true 0] (by
      rintro entry ⟨origin, horigin⟩ daemon
      cases origin <;> cases daemon <;> obtain rfl := Option.some.inj horigin <;> decide)
  have hkept : latest = .record ⟨"github", "jane", "Jane", "token", [], 7, 1⟩ :=
    Option.some.inj ((hheld [] true).symm.trans rfl)
  have hgone : latest = .tombstone ⟨"github", "jane", 1, 7⟩ := Option.some.inj ((hheld [] false).symm.trans rfl)
  exact absurd (hkept.symm.trans hgone) (by simp)

end Fleet

end TddyCoder.CredentialSync
