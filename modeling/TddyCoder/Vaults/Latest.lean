/-
  TddyCoder.Vaults.Latest — the latest sign-in is the stored one
  (`packages/tddy-credentials/src/sessions.rs`).

  A sign-in at a closed vault leaves its credential waiting, and `unlock`, `create` and `reset`
  seal what waits before they open the vault. A `reopen` opens it and leaves what waits where it
  is: a later sign-in is then sealed at once, and the one that waited is sealed over it by the
  next unlock.

  Proved: `the_latest_sign_in_is_the_stored_one_iff`; that run is
  `an_older_sign_in_is_sealed_over_a_later_one`.
-/

import TddyCoder.Vaults.Calls

namespace TddyCoder.Vaults

open List Function

open CredentialSync (CredentialRecord)
open Prog
open Machine

variable {cfg : Config} {s t : State} {u : String} {n : Nat}

/-- Nothing waits for an open vault, and what is sealed replaces what came before it. -/
structure Settled (cfg : Config) (s : State) : Prop where
  nothingWaits : ∀ u, (s.handles u).isSome → ∀ pending ∈ s.awaiting cfg u, pending.record = none
  inOrder : ∀ sealing ∈ s.sealings, ∀ replaced, sealing.replaced = some replaced → replaced ≤ sealing.signIn

/-- The sign-ins numbered below `n` have been dealt with. -/
structure Latest (cfg : Config) (n : Nat) (s : State) : Prop extends Settled cfg s where
  handle : ∀ u handle, s.handles u = some handle → ∃ file, s.file u = some file ∧ handle.vault = ⟨u, file.dataKey⟩
  ordered : ∀ u, (s.awaiting cfg u).Pairwise (·.signIn < ·.signIn)
  numbered : ∀ u, ∀ pending ∈ s.awaiting cfg u, pending.signIn < n
  stored : ∀ u file, s.file u = some file → ∀ sealed ∈ file.records, sealed.signIn < n
  later : ∀ u file, s.file u = some file → ∀ sealed ∈ file.records, ∀ pending ∈ s.awaiting cfg u,
    pending.key = some sealed.key → sealed.signIn < pending.signIn

theorem Latest.mono {m : Nat} (h : Latest cfg n s) (hle : n ≤ m) : Latest cfg m s where
  toSettled := h.toSettled
  handle := h.handle
  ordered := h.ordered
  numbered := fun u pending hp => Nat.lt_of_lt_of_le (h.numbered u pending hp) hle
  stored := fun u file hf sealed hr => Nat.lt_of_lt_of_le (h.stored u file hf sealed hr) hle
  later := h.later

/-! ## Parts that seal nothing and open nothing -/

def VaultFile.contents (file : VaultFile) : Nat × List SealedRecord := (file.dataKey, file.records)

structure Mild (cfg : Config) (s t : State) : Prop where
  handles : ∀ u handle, t.handles u = some handle → ∃ held, s.handles u = some held ∧ held.vault = handle.vault
  contents : ∀ u, (t.file u).map VaultFile.contents = (s.file u).map VaultFile.contents
  awaiting : ∀ u, (t.awaiting cfg u).Sublist (s.awaiting cfg u)
  sealings : t.sealings = s.sealings
  signIns : t.signIns = s.signIns

theorem mild_refl (cfg : Config) (s : State) : Mild cfg s s :=
  ⟨fun _ handle h => ⟨handle, h, rfl⟩, fun _ => rfl, fun _ => Sublist.refl _, rfl, rfl⟩

theorem Mild.trans {w : State} (h : Mild cfg s t) (h' : Mild cfg t w) : Mild cfg s w where
  handles := fun u handle hw => by
    obtain ⟨held, ht, hvault⟩ := h'.handles u handle hw
    obtain ⟨first, hs, hvault'⟩ := h.handles u held ht
    exact ⟨first, hs, hvault'.trans hvault⟩
  contents := fun u => (h'.contents u).trans (h.contents u)
  awaiting := fun u => (h'.awaiting u).trans (h.awaiting u)
  sealings := h'.sealings.trans h.sealings
  signIns := h'.signIns.trans h.signIns

instance : IsTrans State (Mild cfg) := ⟨fun _ _ _ => Mild.trans⟩

instance : Std.Refl (Mild cfg) := ⟨mild_refl cfg⟩

theorem file_of_contents {found : Option VaultFile} {file : VaultFile}
    (h : found.map VaultFile.contents = some file.contents) :
    ∃ held, found = some held ∧ held.dataKey = file.dataKey ∧ held.records = file.records := by
  obtain ⟨held, hheld, hsame⟩ := Option.map_eq_some_iff.mp h
  injection hsame with hkey hrecords
  exact ⟨held, hheld, hkey, hrecords⟩

theorem Mild.file (h : Mild cfg s t) {file : VaultFile} (hfile : t.file u = some file) :
    ∃ before, s.file u = some before ∧ before.dataKey = file.dataKey ∧ before.records = file.records := by
  refine file_of_contents ?_
  rw [← h.contents u, hfile]
  rfl

theorem Mild.symm_file (h : Mild cfg s t) {file : VaultFile} (hfile : s.file u = some file) :
    ∃ after, t.file u = some after ∧ after.dataKey = file.dataKey ∧ after.records = file.records := by
  refine file_of_contents ?_
  rw [h.contents u, hfile]
  rfl

theorem Latest.mild (hs : Latest cfg n s) (h : Mild cfg s t) : Latest cfg n t where
  nothingWaits := fun u hopen pending hp => by
    obtain ⟨handle, hhandle⟩ := Option.isSome_iff_exists.mp hopen
    obtain ⟨held, hheld, -⟩ := h.handles u handle hhandle
    exact hs.nothingWaits u (by rw [hheld]; rfl) pending ((h.awaiting u).subset hp)
  inOrder := fun sealing hsealing => hs.inOrder sealing (h.sealings ▸ hsealing)
  handle := fun u handle hhandle => by
    obtain ⟨held, hheld, hvault⟩ := h.handles u handle hhandle
    obtain ⟨file, hfile, hkey⟩ := hs.handle u held hheld
    obtain ⟨after, hafter, hsame, -⟩ := h.symm_file hfile
    refine ⟨after, hafter, ?_⟩
    rw [← hvault, hkey, hsame]
  ordered := fun u => (hs.ordered u).sublist (h.awaiting u)
  numbered := fun u pending hp => hs.numbered u pending ((h.awaiting u).subset hp)
  stored := fun u file hfile sealed hsealed => by
    obtain ⟨before, hbefore, -, hrecords⟩ := h.file hfile
    exact hs.stored u before hbefore sealed (hrecords ▸ hsealed)
  later := fun u file hfile sealed hsealed pending hp => by
    obtain ⟨before, hbefore, -, hrecords⟩ := h.file hfile
    exact hs.later u before hbefore sealed (hrecords ▸ hsealed) pending ((h.awaiting u).subset hp)

theorem mild_of_awaiting (hhandles : t.handles = s.handles) (hfile : t.file = s.file) (hsealings : t.sealings = s.sealings)
    (hsignIns : t.signIns = s.signIns) (hawaiting : ∀ u, (t.awaiting cfg u).Sublist (s.awaiting cfg u)) : Mild cfg s t :=
  ⟨fun _ handle h => ⟨handle, hhandles ▸ h, rfl⟩, fun _ => by rw [hfile], hawaiting, hsealings, hsignIns⟩

theorem mild_of_same (hhandles : t.handles = s.handles) (hfile : t.file = s.file) (hwaiting : t.waiting = s.waiting)
    (hnow : t.now = s.now) (hsealings : t.sealings = s.sealings) (hsignIns : t.signIns = s.signIns) : Mild cfg s t := by
  refine mild_of_awaiting hhandles hfile hsealings hsignIns fun u => ?_
  unfold State.awaiting
  rw [hwaiting, hnow]

theorem mild_setHandle_none : Mild cfg s (s.setHandle u none) where
  handles := fun v handle h => by
    rw [handles_setHandle] at h
    split at h
    · cases h
    · exact ⟨handle, h, rfl⟩
  contents := fun _ => rfl
  awaiting := fun _ => Sublist.refl _
  sealings := rfl
  signIns := rfl

theorem mild_evict : Mild cfg s (evict u s) :=
  mild_setHandle_none.trans (mild_of_same rfl rfl rfl rfl rfl rfl)

theorem mild_looked {isAUse : Bool} {found : Option OpenVault × State} (h : Looked cfg u isAUse s found) :
    Mild cfg s found.2 := by
  cases h with
  | closed _ => exact mild_refl cfg s
  | idle _ _ _ => exact mild_evict
  | stale _ _ _ => exact mild_setHandle_none
  | opened handle file hheld _ =>
    refine ⟨fun v opened h => ?_, fun _ => rfl, fun _ => Sublist.refl _, rfl, rfl⟩
    rw [handles_setHandle] at h
    split at h
    · next hv =>
      subst hv
      cases h
      exact ⟨handle, hheld, (touched_vault ..).symm⟩
    · exact ⟨opened, h, rfl⟩

theorem awaiting_dropExpired (s : State) (u : String) : (dropExpired cfg s).awaiting cfg u = s.awaiting cfg u := by
  show ((s.waiting u).filter _).filter _ = _
  rw [filter_filter]
  exact filter_congr fun _ _ => Bool.and_self _

theorem mild_dropExpired : Mild cfg s (dropExpired cfg s) :=
  mild_of_awaiting rfl rfl rfl rfl fun u => by rw [awaiting_dropExpired]

theorem awaiting_setWaiting (s : State) (u : String) (waiting : List Pending) (v : String) :
    (s.setWaiting u waiting).awaiting cfg v =
      if v = u then waiting.filter (unexpired cfg s.now) else s.awaiting cfg v := by
  simp only [State.awaiting, State.setWaiting, update_apply]
  split <;> rfl

theorem mild_discard : Mild cfg s (discard u s) := by
  refine mild_of_awaiting rfl rfl rfl rfl fun v => ?_
  unfold discard
  rw [awaiting_setWaiting]
  split
  · exact nil_sublist _
  · exact Sublist.refl _

variable {vault : SessionVault} {file : VaultFile}

theorem mild_setSlots (hfile : s.file u = some file) (slots : List UnlockSlot) :
    Mild cfg s (s.setSlots u file slots) where
  handles := fun _ handle h => ⟨handle, h, rfl⟩
  contents := fun v => by
    show (update s.file u (some { file with unlockSlots := slots }) v).map _ = _
    by_cases hv : v = u
    · subst hv
      rw [update_self, hfile]
      rfl
    · rw [update_of_ne hv]
  awaiting := fun _ => Sublist.refl _
  sealings := rfl
  signIns := rfl

theorem mild_addUnlockSlot (vault : SessionVault) : Within (Mild cfg) (addUnlockSlot vault) :=
  within_changeFile fun _ _ hfile => (mild_setSlots hfile _).trans (mild_of_same rfl rfl rfl rfl rfl rfl)

theorem mild_removeUnlockSlot (vault : SessionVault) (slotId : Nat) :
    Within (Mild cfg) (removeUnlockSlot vault slotId) :=
  within_changeFile fun _ _ hfile => mild_setSlots hfile _

theorem mild_closeUnused (u : String) (vault : SessionVault) : Within (Mild cfg) (closeUnused u vault) := by
  refine within_bind within_get fun s => within_bind (within_check _) fun ids => ?_
  split
  · exact within_modify fun _ => mild_evict
  · exact within_pure _

theorem mild_forget (unlock : UnlockKey) : Within (Mild cfg) (forget unlock) := by
  refine within_bind within_get fun read => within_bind (within_check _) fun vault => ?_
  refine within_bind (mild_removeUnlockSlot vault unlock.slotId) fun _ => ?_
  exact within_bind (within_modify fun _ => mild_of_same rfl rfl rfl rfl rfl rfl) fun _ =>
    mild_closeUnused unlock.subject vault

theorem mild_happen (s : State) (event : Event) : Mild cfg s (happen cfg s event) := by
  cases event with
  | discardPending u => exact mild_discard
  | look u isAUse => exact mild_looked (looked cfg u isAUse s)
  | holdsPending u => exact mild_dropExpired
  | evictIdle =>
    refine ⟨fun u handle h => ?_, fun _ => rfl, fun _ => Sublist.refl _, rfl, rfl⟩
    change (if (s.handles u).all (stillInUse cfg s) then s.handles u else none) = some handle at h
    split at h
    · exact ⟨handle, h, rfl⟩
    · cases h
  | expirePending => exact mild_dropExpired
  | restart => exact ⟨fun _ _ h => (by cases h), fun _ => rfl, fun _ => nil_sublist _, rfl, rfl⟩
  | advance time =>
    refine mild_of_awaiting rfl rfl rfl rfl fun u => ?_
    refine monotone_filter_right (s.waiting u) fun pending h => ?_
    unfold unexpired at h ⊢
    split
    · rfl
    · next lifetime hlifetime =>
      rw [hlifetime] at h
      have hlt : s.now + time - pending.since < lifetime := of_decide_eq_true h
      exact decide_eq_true (by omega)

/-! ## Sealing -/

theorem forall_mem_put {new : SealedRecord} {P : SealedRecord → Prop} (hnew : P new) (hold : ∀ held ∈ file.records, P held) :
    ∀ held ∈ (file.put new).records, P held :=
  forall_mem_append.mpr ⟨fun held h => hold held (mem_filter.mp h).1, forall_mem_singleton.mpr hnew⟩

theorem records_setFile {file : VaultFile} {P : String → SealedRecord → Prop} (hnew : ∀ sealed ∈ file.records, P u sealed)
    (hold : ∀ v file, s.file v = some file → ∀ sealed ∈ file.records, P v sealed) :
    ∀ v held, (s.setFile u file).file v = some held → ∀ sealed ∈ held.records, P v sealed := by
  intro v held hheld
  rw [file_setFile] at hheld
  split at hheld
  · next hv =>
    cases hheld
    exact hv ▸ hnew
  · exact hold v held hheld

/-- A record is sealed over those of earlier sign-ins, and before what waits for the same account. -/
theorem put_latest (sealed : SealedRecord) (hs : Latest cfg n s) (hload : load vault s = .ok file)
    (hnumber : sealed.signIn < n) (hover : ∀ held ∈ file.records, held.key = sealed.key → held.signIn < sealed.signIn)
    (hbefore : ∀ pending ∈ s.awaiting cfg vault.subject, pending.key = some sealed.key → sealed.signIn < pending.signIn)
    : ∃ t, exec (put vault sealed) s = (.ok (), t) ∧ Latest cfg n t ∧ load vault t = .ok (file.put sealed) ∧
      t.waiting = s.waiting ∧ t.now = s.now ∧ t.signIns = s.signIns := by
  obtain ⟨hfile, hkey⟩ := slots_of_load hload
  refine ⟨{ s.setFile vault.subject (file.put sealed) with
      sealings := s.sealings ++ [⟨(file.find sealed.key).map (·.signIn), sealed.signIn⟩] }, ?_, ?_, ?_, rfl, rfl, rfl⟩
  · unfold put
    rw [exec_changeFile, hload]
    rfl
  · refine ⟨⟨hs.nothingWaits, ?_⟩, ?_, hs.ordered, hs.numbered, records_setFile ?_ hs.stored, records_setFile ?_ hs.later⟩
    · intro sealing hsealing replaced hreplaced
      rcases mem_append.mp hsealing with hold | hnew
      · exact hs.inOrder sealing hold replaced hreplaced
      rw [mem_singleton.mp hnew] at hreplaced ⊢
      obtain ⟨held, hheld, rfl⟩ := Option.map_eq_some_iff.mp hreplaced
      refine Nat.le_of_lt (hover held (mem_of_find?_eq_some hheld) ?_)
      simpa using find?_some hheld
    · intro u handle hhandle
      obtain ⟨held, hheld, hvault⟩ := hs.handle u handle hhandle
      have hset := file_setFile s vault.subject (file.put sealed) u
      by_cases hu : u = vault.subject
      · subst hu
        rw [hfile] at hheld
        cases hheld
        exact ⟨_, hset.trans (if_pos rfl), hvault⟩
      · exact ⟨held, (hset.trans (if_neg hu)).trans hheld, hvault⟩
    · exact forall_mem_put hnumber (hs.stored _ file hfile)
    · exact forall_mem_put hbefore (hs.later _ file hfile)
  · exact load_eq ((file_setFile s vault.subject _ vault.subject).trans (if_pos rfl)) hkey

theorem sealAll_latest (waiting : List Pending) (hs : Latest cfg n s) (hload : load vault s = .ok file)
    (hnone : s.awaiting cfg vault.subject = []) (hordered : waiting.Pairwise (·.signIn < ·.signIn))
    (hnumbered : ∀ pending ∈ waiting, pending.signIn < n)
    (hlater : ∀ held ∈ file.records, ∀ pending ∈ waiting, pending.key = some held.key → held.signIn < pending.signIn) :
    ∃ t file', exec (sealAll vault.subject vault waiting) s = (.ok (), t) ∧ Latest cfg n t ∧ load vault t = .ok file' ∧
      t.awaiting cfg vault.subject = [] ∧ t.signIns = s.signIns := by
  induction waiting generalizing s file with
  | nil => exact ⟨s, file, rfl, hs, hload, hnone, rfl⟩
  | cons pending rest ih =>
    obtain ⟨hfirst, hrest⟩ := pairwise_cons.mp hordered
    have hnumbered' : ∀ p ∈ rest, p.signIn < n := fun p hp => hnumbered p (mem_cons_of_mem _ hp)
    unfold sealAll
    cases hrecord : pending.record with
    | none =>
      exact ih hs hload hnone hrest hnumbered' fun held hheld p hp => hlater held hheld p (mem_cons_of_mem _ hp)
    | some record =>
      have hkey : pending.key = some (⟨record, pending.signIn⟩ : SealedRecord).key := by
        unfold Pending.key
        rw [hrecord]
        rfl
      obtain ⟨t, hput, hlatest, hloaded, hwaiting, hnow, hsignIns⟩ :=
        put_latest ⟨record, pending.signIn⟩ hs hload (hnumbered pending mem_cons_self)
          (fun held hheld hsame => hlater held hheld pending mem_cons_self (by rw [hkey, hsame]))
          (fun p hp => by rw [hnone] at hp; cases hp)
      have hnone' : t.awaiting cfg vault.subject = [] := by
        unfold State.awaiting
        rw [hwaiting, hnow]
        exact hnone
      obtain ⟨w, file', hexec, hfinal, hloaded', hnone'', hsignIns'⟩ :=
        ih hlatest hloaded hnone' hrest hnumbered' (forall_mem_put (fun p hp _ => hfirst p hp)
          fun held hold p hp => hlater held hold p (mem_cons_of_mem _ hp))
      refine ⟨w, file', ?_, hfinal, hloaded', hnone'', hsignIns'.trans hsignIns⟩
      have houtcome : exec (outcome (put vault ⟨record, pending.signIn⟩)) s = (.ok (.ok ()), t) := by
        rw [exec_outcome, hput]
      exact (exec_bind_ok houtcome).trans hexec

/-! ## Opening -/

theorem register_latest (hs : Latest cfg n s) (hload : load vault s = .ok file)
    (hnone : ∀ pending ∈ s.awaiting cfg vault.subject, pending.record = none) :
    Latest cfg n (register vault.subject vault s) := by
  obtain ⟨hfile, hkey⟩ := slots_of_load hload
  have hset : ∀ u, (register vault.subject vault s).handles u =
      if u = vault.subject then some ⟨vault, s.fresh, s.now⟩ else s.handles u := handles_setHandle s vault.subject _
  refine ⟨⟨?_, hs.inOrder⟩, ?_, hs.ordered, hs.numbered, hs.stored, hs.later⟩
  · intro u hopen
    rw [hset] at hopen
    split at hopen
    · next hu =>
      subst hu
      exact hnone
    · exact hs.nothingWaits u hopen
  · intro u handle hhandle
    rw [hset] at hhandle
    split at hhandle
    · next hu =>
      subst hu
      cases hhandle
      refine ⟨file, hfile, ?_⟩
      rw [hkey]
    · exact hs.handle u handle hhandle

theorem Mild.load (h : Mild cfg s t) (hload : load vault s = .ok file) : ∃ after, Vaults.load vault t = .ok after := by
  obtain ⟨hfile, hkey⟩ := slots_of_load hload
  obtain ⟨after, hafter, hsame, -⟩ := h.symm_file hfile
  exact ⟨after, load_eq hafter (hsame.trans hkey)⟩

theorem exec_addUnlockSlot_ok {vault : SessionVault} {file : VaultFile} (hload : load vault s = .ok file) :
    ∃ unlock t, exec (addUnlockSlot vault) s = (.ok unlock, t) ∧ Mild cfg s t := by
  have hmild : Mild cfg s (exec (addUnlockSlot vault) s).2 := mild_addUnlockSlot vault s
  unfold addUnlockSlot at hmild ⊢
  rw [exec_changeFile, hload] at hmild ⊢
  exact ⟨_, _, rfl, hmild⟩

theorem admitVault_latest (hs : Latest cfg n s) (hload : load vault s = .ok file) :
    Latest cfg n (exec (admitVault cfg vault.subject vault) s).2 ∧
      (exec (admitVault cfg vault.subject vault) s).2.signIns = s.signIns := by
  obtain ⟨hfile, hkey⟩ := slots_of_load hload
  have htaken : Mild cfg s (take cfg vault.subject s).2 := mild_dropExpired.trans mild_discard
  have hnone : (take cfg vault.subject s).2.awaiting cfg vault.subject = [] :=
    (awaiting_setWaiting _ vault.subject [] vault.subject).trans (if_pos rfl)
  obtain ⟨t, file', hsealed, hlatest, hloaded, hnone', hsignIns⟩ :=
    sealAll_latest (s.awaiting cfg vault.subject) (hs.mild htaken) hload hnone (hs.ordered _) (hs.numbered _)
      (hs.later _ file hfile)
  have hpending : exec (sealPending cfg vault.subject vault) s = (.ok (), t) :=
    (exec_bind_ok (exec_modifyGet ..)).trans hsealed
  obtain ⟨unlock, w, hadded, hmild⟩ := @exec_addUnlockSlot_ok cfg t vault file' hloaded
  obtain ⟨after, hafter⟩ := hmild.load hloaded
  have hexec : exec (admitVault cfg vault.subject vault) s = (.ok unlock, register vault.subject vault w) :=
    (exec_bind_ok hpending).trans (exec_bind_ok hadded)
  rw [hexec]
  refine ⟨register_latest (hlatest.mild hmild) hafter ?_, hmild.signIns.trans (hsignIns.trans htaken.signIns)⟩
  intro pending hp
  have hempty := (hmild.awaiting vault.subject).subset hp
  rw [hnone'] at hempty
  cases hempty

theorem createFile_latest (hs : Latest cfg n s) (hclosed : s.handles u = none) (passphrase : String) :
    Latest cfg n (createFile u passphrase s).2 ∧
      load (createFile u passphrase s).1 (createFile u passphrase s).2 = .ok ⟨passphrase, s.fresh, [], []⟩ := by
  have hset : ∀ v, (createFile u passphrase s).2.file v = if v = u then some ⟨passphrase, s.fresh, [], []⟩ else s.file v :=
    file_setFile s u _
  refine ⟨⟨⟨hs.nothingWaits, hs.inOrder⟩, ?_, hs.ordered, hs.numbered, records_setFile nofun hs.stored,
    records_setFile nofun hs.later⟩, load_eq ((hset u).trans (if_pos rfl)) rfl⟩
  intro v handle hhandle
  have hv : v ≠ u := by
    rintro rfl
    rw [show (createFile v passphrase s).2.handles = s.handles from rfl, hclosed] at hhandle
    cases hhandle
  obtain ⟨file, hfile, hvault⟩ := hs.handle v handle hhandle
  exact ⟨file, ((hset v).trans (if_neg hv)).trans hfile, hvault⟩

theorem hold_latest (hs : Latest cfg n s) (hclosed : s.handles u = none) (record : Option CredentialRecord) :
    Latest cfg (n + 1) (hold cfg u record n s) := by
  let new : Pending := ⟨record, s.now, n⟩
  let held : List Pending := (s.awaiting cfg u).filter (·.key ≠ new.key) ++ [new]
  have hwaits : ∀ v, (hold cfg u record n s).awaiting cfg v =
      if v = u then held.filter (unexpired cfg s.now) else (dropExpired cfg s).awaiting cfg v :=
    awaiting_setWaiting (dropExpired cfg s) u _
  have hother : ∀ v, v ≠ u → (hold cfg u record n s).awaiting cfg v = s.awaiting cfg v := by
    intro v hv
    rw [hwaits, if_neg hv, awaiting_dropExpired]
  have hself : ((hold cfg u record n s).awaiting cfg u).Sublist held := by
    rw [hwaits, if_pos rfl]
    exact filter_sublist
  -- What waits now waited before, or is the new one.
  have hmem : ∀ v, ∀ pending ∈ (hold cfg u record n s).awaiting cfg v,
      pending ∈ s.awaiting cfg v ∨ (v = u ∧ pending.signIn = n) := by
    intro v pending hp
    by_cases hv : v = u
    · subst hv
      rcases mem_append.mp (hself.subset hp) with hold | hnew
      · exact .inl (mem_filter.mp hold).1
      · exact .inr ⟨rfl, by rw [mem_singleton.mp hnew]⟩
    · exact .inl (hother v hv ▸ hp)
  refine ⟨⟨?_, hs.inOrder⟩, hs.handle, ?_, ?_, ?_, ?_⟩
  · intro v hopen pending hp
    rcases hmem v pending hp with hold | ⟨rfl, -⟩
    · exact hs.nothingWaits v hopen pending hold
    · rw [show (hold cfg v record n s).handles = s.handles from rfl, hclosed] at hopen
      cases hopen
  · intro v
    by_cases hv : v = u
    · subst hv
      refine Pairwise.sublist hself (pairwise_append.mpr ⟨?_, pairwise_singleton _ _, ?_⟩)
      · exact (hs.ordered v).sublist filter_sublist
      · intro pending hp new hnew
        rw [mem_singleton.mp hnew]
        exact hs.numbered v pending (mem_filter.mp hp).1
    · rw [hother v hv]
      exact hs.ordered v
  · intro v pending hp
    rcases hmem v pending hp with hold | ⟨-, hnumber⟩
    · exact Nat.lt_succ_of_lt (hs.numbered v pending hold)
    · omega
  · exact fun v file hfile sealed hsealed => Nat.lt_succ_of_lt (hs.stored v file hfile sealed hsealed)
  · intro v file hfile sealed hsealed pending hp hsame
    rcases hmem v pending hp with hold | ⟨-, hnumber⟩
    · exact hs.later v file hfile sealed hsealed pending hold hsame
    · rw [hnumber]
      exact hs.stored v file hfile sealed hsealed

/-! ## The calls -/

/-- Every sign-in so far has been dealt with. -/
def UpToDate (cfg : Config) (s : State) : Prop := Latest cfg s.signIns s

theorem upToDate_start (cfg : Config) : UpToDate cfg State.start where
  nothingWaits := fun _ _ _ hp => by cases hp
  inOrder := fun _ h => by cases h
  handle := fun _ _ h => by cases h
  ordered := fun _ => Pairwise.nil
  numbered := fun _ _ hp => by cases hp
  stored := fun _ _ h => by cases h
  later := fun _ _ h => by cases h

theorem UpToDate.mild (hs : UpToDate cfg s) (h : Mild cfg s t) : UpToDate cfg t := by
  unfold UpToDate
  rw [h.signIns]
  exact Latest.mild hs h

theorem mild_vaultState : Mild cfg s (vaultState cfg u s).2 := by
  rw [vaultState_looks]
  exact mild_looked (looked cfg u false s)

/-- The latest sign-in is sealed into the open vault: nothing waits that it would overtake. -/
theorem sealSignIn_latest (hs : Latest cfg n s) (hload : load vault s = .ok file)
    (hopen : (s.handles vault.subject).isSome) (record : Option CredentialRecord) :
    ∃ t after, exec (sealSignIn vault record n) s = (.ok (), t) ∧ Latest cfg (n + 1) t ∧ load vault t = .ok after ∧
      t.signIns = s.signIns := by
  obtain ⟨hfile, -⟩ := slots_of_load hload
  cases record with
  | none => exact ⟨s, file, rfl, hs.mono (Nat.le_succ n), hload, rfl⟩
  | some record =>
    obtain ⟨t, hput, hlatest, hloaded, -, -, hsignIns⟩ := put_latest ⟨record, n⟩ (hs.mono (Nat.le_succ n)) hload
      (Nat.lt_succ_self n) (fun held hheld _ => hs.stored _ file hfile held hheld) (by
        intro pending hp hsame
        unfold Pending.key at hsame
        rw [hs.nothingWaits _ hopen pending hp] at hsame
        cases hsame)
    exact ⟨t, _, hput, hlatest, hloaded, hsignIns⟩

section

variable (hs : UpToDate cfg s)
include hs

theorem signIn_upToDate (u : String) (record : Option CredentialRecord) :
    UpToDate cfg (exec (signIn cfg u record) s).2 := by
  have hnext : Latest cfg s.signIns (nextSignIn s).2 :=
    ⟨⟨hs.nothingWaits, hs.inOrder⟩, hs.handle, hs.ordered, hs.numbered, hs.stored, hs.later⟩
  have hlooked := looked_useOpen cfg u (nextSignIn s).2
  have hstart : exec (signIn cfg u record) s = _ :=
    (exec_bind_ok (exec_modifyGet nextSignIn s)).trans (exec_bind_ok (exec_modifyGet (useOpen cfg u) (nextSignIn s).2))
  rw [hstart]
  generalize useOpen cfg u (nextSignIn s).2 = found at hlooked ⊢
  have hfound : Latest cfg s.signIns found.2 := hnext.mild (mild_looked hlooked)
  have hnumber : found.2.signIns = s.signIns + 1 := (mild_looked hlooked).signIns
  cases hcase : found.1 with
  | none =>
    have hheld : UpToDate cfg (hold cfg u record s.signIns found.2) := by
      show Latest cfg found.2.signIns _
      rw [hnumber]
      exact hold_latest hfound (closed_of_looked hlooked hcase) record
    exact hheld.mild mild_vaultState
  | some handle =>
    obtain ⟨hopen, held, file, -, hload⟩ := open_of_looked hlooked hcase
    obtain ⟨read, -, hvault⟩ := hfound.handle u handle hopen
    have hsubject : (found.2.handles handle.vault.subject).isSome := by
      rw [hvault, hopen]
      rfl
    obtain ⟨t, after, hsealed, hlatest, hloaded, hsignIns⟩ := sealSignIn_latest hfound hload hsubject record
    obtain ⟨unlock, w, hadded, hmild⟩ := @exec_addUnlockSlot_ok cfg t handle.vault after hloaded
    have houtcome : exec (outcome (do sealSignIn handle.vault record s.signIns; addUnlockSlot handle.vault))
        found.2 = (.ok (.ok unlock), w) := by
      rw [exec_outcome, exec_bind_ok hsealed, hadded]
    have hlast : UpToDate cfg t := by
      unfold UpToDate
      rw [hsignIns, hnumber]
      exact hlatest
    show UpToDate cfg (exec (outcome (do sealSignIn handle.vault record s.signIns; addUnlockSlot handle.vault) >>= _) _).2
    rw [exec_bind_ok houtcome]
    exact hlast.mild hmild

theorem admitVault_upToDate (hload : load vault s = .ok file) :
    UpToDate cfg (exec (admitVault cfg vault.subject vault) s).2 := by
  obtain ⟨hlatest, hsignIns⟩ := admitVault_latest hs hload
  unfold UpToDate
  rw [hsignIns]
  exact hlatest

theorem unlock_upToDate (u passphrase : String) : UpToDate cfg (exec (unlock cfg u passphrase) s).2 := by
  unfold unlock
  rw [exec_bind_ok (exec_get s)]
  cases hopen : openWithPassphrase u passphrase s with
  | error e => exact hs
  | ok vault =>
    unfold openWithPassphrase at hopen
    split at hopen
    · cases hopen
    · next file hfile =>
      split at hopen
      · cases hopen
        have hload : load ⟨u, file.dataKey⟩ s = .ok file := load_eq hfile rfl
        exact admitVault_upToDate hs hload
      · cases hopen

theorem made_upToDate (hclosed : s.handles u = none) (passphrase : String) :
    UpToDate cfg (exec (admitVault cfg u (createFile u passphrase s).1) (createFile u passphrase s).2).2 := by
  obtain ⟨hlatest, hload⟩ := createFile_latest hs hclosed passphrase
  have hmade : UpToDate cfg (createFile u passphrase s).2 := hlatest
  exact admitVault_upToDate hmade hload

theorem create_upToDate (u passphrase : String) : UpToDate cfg (exec (create cfg u passphrase) s).2 := by
  have hmild : UpToDate cfg (dropExpired cfg s) := hs.mild mild_dropExpired
  rcases exec_create cfg u passphrase s with ⟨e, he⟩ | ⟨hfile, he⟩
  · rw [he]
    exact hmild
  have hclosed : (dropExpired cfg s).handles u = none := by
    by_contra hopen
    obtain ⟨handle, hhandle⟩ := Option.ne_none_iff_exists'.mp hopen
    obtain ⟨file, hthere, -⟩ := hs.handle u handle hhandle
    rw [hfile] at hthere
    cases hthere
  rw [he]
  exact made_upToDate hmild hclosed passphrase

theorem resetVaultFile_upToDate (u passphrase : String) :
    UpToDate cfg (exec (resetVaultFile cfg u passphrase) s).2 := by
  have hlooked : Looked cfg u false s (getOpen cfg u s) := looked cfg u false s
  have hfound : UpToDate cfg (getOpen cfg u s).2 := hs.mild (mild_looked hlooked)
  have hmild : UpToDate cfg (dropExpired cfg (getOpen cfg u s).2) := hfound.mild mild_dropExpired
  rcases exec_resetVaultFile cfg u passphrase s with ⟨e, t, rfl | rfl, he⟩ | ⟨t, setAside, hcase, ht, he⟩
  · rw [he]
    exact hfound
  · rw [he]
    exact hmild
  have hclosed := closed_of_looked hlooked hcase
  have hmade : UpToDate cfg (exec (admitVault cfg u (createFile u passphrase t).1) (createFile u passphrase t).2).2 := by
    rcases ht with rfl | rfl
    · exact made_upToDate hmild hclosed passphrase
    · have hcounted : UpToDate cfg (countSetAside u (dropExpired cfg (getOpen cfg u s).2)) :=
        hmild.mild (mild_of_same rfl rfl rfl rfl rfl rfl)
      exact made_upToDate hcounted hclosed passphrase
  rw [he]
  split
  · next h =>
    rw [h] at hmade
    exact hmade.mild (mild_of_same rfl rfl rfl rfl rfl rfl)
  · next h =>
    rw [h] at hmade
    exact hmade

theorem reset_upToDate (u passphrase : String) : UpToDate cfg (exec (reset cfg u passphrase) s).2 := by
  have hfile := resetVaultFile_upToDate hs u passphrase
  unfold reset
  rw [exec_bind]
  split
  · exact hfile.mild (mild_of_same rfl rfl rfl rfl rfl rfl)
  · exact hfile

end

/-! ## Reopening -/

/-- The key opens its slot, or is honoured and the one after it does: the refresh opens the vault if it was not open. -/
def opensVault (cfg : Config) (unlock : UnlockKey) (s : State) : Prop :=
  (∃ vault, openWithUnlockKey unlock s = .ok vault) ∨
    ∃ rotation vault, graceRotation cfg unlock s = some rotation ∧ openWithUnlockKey rotation.successor s = .ok vault

/-- A refresh that opens the vault finds no credential waiting for it. -/
def NothingLeftWaiting (cfg : Config) (s : State) : Op → Prop
  | .reopen unlock => opensVault cfg unlock s → ∀ pending ∈ s.awaiting cfg unlock.subject, pending.record = none
  | _ => True

/-- All that a refresh can come to. -/
theorem exec_reopen (cfg : Config) (unlock : UnlockKey) (s : State) :
    (∃ proven successor t, openWithUnlockKey unlock s = .ok proven ∧ Mild cfg s t ∧
      (∀ u, t.awaiting cfg u = s.awaiting cfg u) ∧ exec (reopen cfg unlock) s = (.ok successor, register unlock.subject proven t)) ∨
    ((∀ vault, openWithUnlockKey unlock s ≠ .ok vault) ∧ graceRotation cfg unlock s = none ∧
      exec (reopen cfg unlock) s = (.error .locked, s)) ∨
    ∃ rotation, (∀ vault, openWithUnlockKey unlock s ≠ .ok vault) ∧ graceRotation cfg unlock s = some rotation ∧
      exec (reopen cfg unlock) s = exec (answerSuccessor cfg unlock.subject rotation) s := by
  have hstart : exec (reopen cfg unlock) s = _ := exec_bind_ok (exec_get s)
  cases hopen : openWithUnlockKey unlock s with
  | ok proven =>
    obtain ⟨file, hfile, hopens, hproven⟩ := openWithUnlockKey_ok hopen
    have hload : load proven s = .ok file := by
      rw [hproven]
      exact load_eq hfile rfl
    have hrotated : ∃ successor t, exec (rotate cfg unlock proven) s = (.ok successor, t) ∧
        ∀ u, t.awaiting cfg u = s.awaiting cfg u := by
      rcases exec_rotateUnlockSlot proven unlock s with ⟨e, hnot, -⟩ | ⟨read, -, -, hrotate⟩
      · exact absurd hopens (hnot file hload)
      · exact ⟨_, _, exec_bind_ok hrotate, fun _ => rfl⟩
    obtain ⟨successor, t, hrotate, hawaiting⟩ := hrotated
    have hmild : Mild cfg s (exec (rotate cfg unlock proven) s).2 :=
      within_rotate (fun _ _ slots _ _ hfile => (mild_setSlots hfile slots).trans (mild_of_same rfl rfl rfl rfl rfl rfl))
        (fun _ _ => mild_of_same rfl rfl rfl rfl rfl rfl) s
    rw [hrotate] at hmild
    refine .inl ⟨proven, successor, t, rfl, hmild, hawaiting, ?_⟩
    rw [hstart, hopen]
    exact exec_bind_ok hrotate
  | error e =>
    cases openWithUnlockKey_error hopen
    have hnot : ∀ vault, (.error .locked : Except VaultError SessionVault) ≠ .ok vault := by
      intro vault h
      cases h
    rw [hopen] at hstart
    have hgrace : exec (reopen cfg unlock) s = _ := hstart.trans (exec_bind_ok (exec_get s))
    cases hrotation : graceRotation cfg unlock s with
    | none =>
      rw [hrotation] at hgrace
      exact .inr (Or.inl ⟨hnot, rfl, hgrace⟩)
    | some rotation =>
      rw [hrotation] at hgrace
      exact .inr (Or.inr ⟨rotation, hnot, rfl, hgrace⟩)

theorem reopen_upToDate (hkeys : Keyed s) (hs : UpToDate cfg s) {unlock : UnlockKey}
    (hok : NothingLeftWaiting cfg s (.reopen unlock)) : UpToDate cfg (exec (reopen cfg unlock) s).2 := by
  rcases exec_reopen cfg unlock s with ⟨proven, successor, t, hopen, hmild, -, he⟩ | ⟨-, -, he⟩ | ⟨rotation, -, hgrace, he⟩
  · obtain ⟨hsubject, file, hload⟩ := load_of_opened hopen
    obtain ⟨after, hafter⟩ := hmild.load hload
    rw [he, ← hsubject]
    refine register_latest (hs.mild hmild) hafter fun pending hp => ?_
    rw [hsubject] at hp
    exact hok (Or.inl ⟨proven, hopen⟩) pending ((hmild.awaiting _).subset hp)
  · rw [he]
    exact hs
  have hlooked := looked_useOpen cfg unlock.subject s
  have hmild := mild_looked hlooked
  rw [he, exec_answerSuccessor]
  split
  · exact hs.mild hmild
  split
  · next vault hopen =>
    obtain ⟨hheld, -, -⟩ := graceRotation_some hgrace
    obtain ⟨-, hsubject, -⟩ := newest_isOf (hkeys.rotated _ _ _ hheld)
    obtain ⟨hvault, file, hload⟩ := load_of_opened hopen
    have hopen' : openWithUnlockKey rotation.successor s = .ok vault :=
      (openWithUnlockKey_looked hlooked _).symm.trans hopen
    have hsame : unlock.subject = vault.subject := (hvault.trans hsubject).symm
    have hregistered : UpToDate cfg (register vault.subject vault (useOpen cfg unlock.subject s).2) := by
      refine register_latest (hs.mild hmild) hload fun pending hp => ?_
      rw [← hsame] at hp
      exact hok (Or.inr ⟨rotation, vault, hgrace, hopen'⟩) pending ((hmild.awaiting _).subset hp)
    rw [← hsame] at hregistered
    exact hregistered
  · exact hs.mild hmild

theorem nothing_awaited_of_registered (h : Settled cfg (register u vault s)) :
    ∀ pending ∈ s.awaiting cfg u, pending.record = none := by
  refine h.nothingWaits u ?_
  rw [show (register u vault s).handles u = _ from @handles_setHandle_self s u _]
  rfl

theorem nothing_left_of_settled (hs : UpToDate cfg s) {unlock : UnlockKey}
    (h : Settled cfg (exec (reopen cfg unlock) s).2) : NothingLeftWaiting cfg s (.reopen unlock) := by
  intro hopens pending hp
  rcases exec_reopen cfg unlock s with ⟨proven, successor, t, -, -, hsame, he⟩ | ⟨hnot, hnone, -⟩ | ⟨rotation, hnot, hgrace, he⟩
  · rw [he] at h
    exact nothing_awaited_of_registered h pending (hsame _ ▸ hp)
  · rcases hopens with ⟨vault, hopen⟩ | ⟨rotation, vault, hgrace, -⟩
    · exact absurd hopen (hnot vault)
    · rw [hnone] at hgrace
      cases hgrace
  rcases hopens with ⟨vault, hopen⟩ | ⟨_, vault, hgrace', hopen⟩
  · exact absurd hopen (hnot vault)
  rw [hgrace] at hgrace'
  cases hgrace'
  have hlooked := looked_useOpen cfg unlock.subject s
  rw [he, exec_answerSuccessor, openWithUnlockKey_looked hlooked, hopen] at h
  cases hcase : (useOpen cfg unlock.subject s).1 with
  | some handle =>
    obtain ⟨-, held, -, hheld, -⟩ := open_of_looked hlooked hcase
    exact hs.nothingWaits _ (by rw [hheld]; rfl) pending hp
  | none =>
    rw [hcase] at h
    rw [← awaiting_looked hlooked] at hp
    exact nothing_awaited_of_registered h pending hp

/-! ## Over a run -/

theorem upToDate_step (hkeys : Keyed s) (hs : UpToDate cfg s) {op : Op} (hok : NothingLeftWaiting cfg s op) :
    UpToDate cfg (step cfg s op) := by
  cases op with
  | retain u record => exact signIn_upToDate hs u (some record)
  | signInWithoutCredential u => exact signIn_upToDate hs u none
  | unlock u passphrase => exact unlock_upToDate hs u passphrase
  | create u passphrase => exact create_upToDate hs u passphrase
  | reset u passphrase => exact reset_upToDate hs u passphrase
  | reopen unlock => exact reopen_upToDate hkeys hs hok
  | forget unlock => exact hs.mild (mild_forget unlock s)
  | event event => exact hs.mild (mild_happen s event)

theorem the_latest_sign_in_is_the_stored_one_iff (cfg : Config) (ops : List Op) :
    (∀ reached, reached <+: ops → Settled cfg (run cfg reached)) ↔
      Guarded (step cfg) (NothingLeftWaiting cfg) State.start ops := by
  have hkeep : ∀ s op, Keyed s ∧ UpToDate cfg s → NothingLeftWaiting cfg s op →
      Keyed (step cfg s op) ∧ UpToDate cfg (step cfg s op) :=
    fun s op hs hok => ⟨keyed_step hs.1 op, upToDate_step hs.1 hs.2 hok⟩
  refine observed_iff_guarded hkeep (fun s hs => hs.2.toSettled) ?_ ⟨keyed_start, upToDate_start cfg⟩
  rintro s op ⟨-, hs⟩ hsettled
  cases op with
  | reopen unlock => exact nothing_left_of_settled hs hsettled
  | _ => trivial

/-- A refresh after a restart opens the vault with the second sign-in waiting for it. The third is sealed at once, and
    the second over it when the vault is next unlocked. -/
theorem an_older_sign_in_is_sealed_over_a_later_one :
    let cfg : Config := ⟨30, some 600, some 100⟩
    let token (secret : String) : CredentialRecord := ⟨"github", "ada", "", secret, [], 0, 1⟩
    let ops : List Op :=
      [.retain "ada" (token "first"), .create "ada" "words", .event .restart, .retain "ada" (token "second"),
        .reopen ⟨"ada", 1, 2⟩, .retain "ada" (token "third"), .event (.advance 100), .event .evictIdle,
        .unlock "ada" "words"]
    ¬ Settled cfg (run cfg (ops.take 5)) ∧ (⟨some 2, 1⟩ : Sealing) ∈ (run cfg ops).sealings ∧
      ((run cfg ops).file "ada").map (fun file => file.records.map fun sealed => sealed.record.secret) =
        some ["second"] := by
  intro cfg token ops
  have hopen : ((run cfg (ops.take 5)).handles "ada").isSome := by decide +kernel
  have hwaits : (⟨some (token "second"), 0, 1⟩ : Pending) ∈ (run cfg (ops.take 5)).awaiting cfg "ada" := by decide +kernel
  refine ⟨fun h => ?_, by decide +kernel, by decide +kernel⟩
  have hnone := h.nothingWaits "ada" hopen _ hwaits
  cases hnone

end TddyCoder.Vaults
