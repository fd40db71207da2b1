/-
  TddyCoder.Vaults.Sections — what each atomic part of a call does to one subject's vault when
  other calls' parts come before and after it: which keys open a slot once it has run
  (`openKeys`), and whether the vault a reset made is still the open one (`Sound.word`).
-/

import TddyCoder.Vaults.Calls

namespace TddyCoder.Vaults

open List

open CredentialSync (CredentialRecord)
open Prog

variable {cfg : Config} {s t : State} {u : String}

def openKeys (u : String) (s : State) : List UnlockKey :=
  ((s.slots u).map fun slot => ⟨u, slot.id, slot.key⟩).filter (·.opensSlotIn (s.slots u))

theorem mem_openKeys (hs : Keyed s) {slot : UnlockSlot} (h : slot ∈ s.slots u) :
    (⟨u, slot.id, slot.key⟩ : UnlockKey) ∈ openKeys u s := by
  refine mem_filter.mpr ⟨mem_map_of_mem h, ?_⟩
  unfold UnlockKey.opensSlotIn
  split
  · next found hfound =>
    have hid : found.id = slot.id := by simpa using find?_some hfound
    -- Both stand under the newest key of their id.
    obtain ⟨wrap, hnewest, hkey⟩ := hs.newest u slot h
    obtain ⟨wrap', hnewest', hkey'⟩ := hs.newest u found (mem_of_find?_eq_some hfound)
    rw [hid, hnewest] at hnewest'
    cases hnewest'
    rw [← hkey, ← hkey']
    exact decide_eq_true rfl
  · next hnone => exact absurd (find?_eq_none.mp hnone slot h) (by simp)

theorem mem_openKeys_of_slot (hs : Keyed s) {key : UnlockKey} (hsubject : key.subject = u)
    (h : (⟨key.slotId, key.key⟩ : UnlockSlot) ∈ s.slots u) : key ∈ openKeys u s := by
  subst hsubject
  exact mem_openKeys hs h

theorem openKeys_of_sameSlots (h : t.slots u = s.slots u) : openKeys u t = openKeys u s := by
  unfold openKeys
  rw [h]

/-! ## Parts that leave the handles and the data keys -/

structure Stay (s t : State) : Prop where
  handles : t.handles = s.handles
  resetVault : t.resetVault = s.resetVault
  dataKeys : ∀ v, (t.file v).map (·.dataKey) = (s.file v).map (·.dataKey)

theorem stay_refl (s : State) : Stay s s := ⟨rfl, rfl, fun _ => rfl⟩

theorem Stay.trans {w : State} (h : Stay s t) (h' : Stay t w) : Stay s w :=
  ⟨h'.handles.trans h.handles, h'.resetVault.trans h.resetVault, fun v => (h'.dataKeys v).trans (h.dataKeys v)⟩

instance : IsTrans State Stay := ⟨fun _ _ _ => Stay.trans⟩

instance : Std.Refl Stay := ⟨stay_refl⟩

theorem stay_of_same (hhandles : t.handles = s.handles) (hreset : t.resetVault = s.resetVault) (hfile : t.file = s.file) :
    Stay s t := ⟨hhandles, hreset, fun v => by rw [hfile]⟩

variable {file : VaultFile} (vault : SessionVault)

theorem stay_setFile {after : VaultFile} (hfile : s.file u = some file) (hkey : after.dataKey = file.dataKey) :
    Stay s (s.setFile u after) where
  handles := rfl
  resetVault := rfl
  dataKeys := fun v => by
    rw [file_setFile]
    split
    · next hv =>
      subst hv
      rw [hfile]
      exact congrArg some hkey
    · rfl

theorem stay_setSlots (hfile : s.file u = some file) (slots : List UnlockSlot) :
    Stay s (s.setSlots u file slots) := stay_setFile hfile rfl

theorem stay_put (sealed : SealedRecord) : Within Stay (put vault sealed) := by
  refine within_changeFile fun file s hfile => ?_
  have hset : Stay s (s.setFile vault.subject (file.put sealed)) := stay_setFile hfile rfl
  exact hset.trans (stay_of_same rfl rfl rfl)

theorem stay_addUnlockSlot : Within Stay (addUnlockSlot vault) :=
  within_changeFile fun _ _ hfile => (stay_setSlots hfile _).trans (stay_of_same rfl rfl rfl)

theorem stay_removeUnlockSlot (slotId : Nat) : Within Stay (removeUnlockSlot vault slotId) :=
  within_changeFile fun _ _ hfile => stay_setSlots hfile _

theorem stay_rotate (unlock : UnlockKey) (proven : SessionVault) : Within Stay (rotate cfg unlock proven) :=
  within_rotate (fun _ _ slots _ _ hfile => (stay_setSlots hfile slots).trans (stay_of_same rfl rfl rfl))
    fun _ _ => stay_of_same rfl rfl rfl

theorem stay_sealPending (u : String) (vault : SessionVault) : Within Stay (sealPending cfg u vault) :=
  within_sealPending (stay_put vault) fun _ _ => stay_of_same rfl rfl rfl

variable {vault : SessionVault} {isAUse : Bool} {dataKey : Nat}

theorem Stay.load (h : Stay s t) (hload : load vault s = .ok file) : ∃ after, Vaults.load vault t = .ok after := by
  obtain ⟨hfile, hkey⟩ := slots_of_load hload
  have hsame := h.dataKeys vault.subject
  rw [hfile] at hsame
  obtain ⟨after, hafter, hdata⟩ := Option.map_eq_some_iff.mp hsame
  exact ⟨after, load_eq hafter (hdata.trans hkey)⟩

/-! ## The state of a subject's vault between parts -/

structure Sound (u : String) (s : State) : Prop where
  keyed : Keyed s
  home : ∀ handle, s.handles u = some handle → handle.vault.subject = u
  /-- What the last reset made is open, and is the file. -/
  word : ∀ dataKey, s.resetVault u = some dataKey → ∃ handle file, s.handles u = some handle ∧
    handle.vault.dataKey = dataKey ∧ s.file u = some file ∧ file.dataKey = dataKey

theorem Sound.stay (hs : Sound u s) (hkeyed : Keyed t) (h : Stay s t) : Sound u t where
  keyed := hkeyed
  home := fun handle hhandle => hs.home handle (h.handles ▸ hhandle)
  word := fun dataKey hword => by
    obtain ⟨handle, file, hhandle, hvault, hfile, hkey⟩ := hs.word dataKey (h.resetVault ▸ hword)
    have hsame := h.dataKeys u
    rw [hfile] at hsame
    obtain ⟨after, hafter, hdata⟩ := Option.map_eq_some_iff.mp hsame
    exact ⟨handle, after, h.handles ▸ hhandle, hvault, hafter, hdata.trans hkey⟩

theorem Sound.of_closed (hkeyed : Keyed t) (hhandles : t.handles u = none) (hreset : t.resetVault u = none) :
    Sound u t where
  keyed := hkeyed
  home handle hhandle := by rw [hhandles] at hhandle; cases hhandle
  word dataKey hword := by rw [hreset] at hword; cases hword

theorem Sound.dropExpired (hs : Sound u s) : Sound u (dropExpired cfg s) :=
  hs.stay (hs.keyed.calm (calm_of_same rfl rfl rfl (Nat.le_refl _) rfl)) (stay_of_same rfl rfl rfl)

theorem Sound.isStale (hs : Sound u s) (hword : s.resetVault u = some dataKey) {handle : OpenVault}
    (hhandle : s.handles u = some handle) : isStale s handle.vault = false := by
  obtain ⟨held, file, hheld, hvault, hfile, hkey⟩ := hs.word dataKey hword
  rw [hhandle] at hheld
  cases hheld
  have hload : load handle.vault s = .ok file := load_eq (hs.home handle hhandle ▸ hfile) (hkey.trans hvault.symm)
  unfold Vaults.isStale
  rw [hload]

theorem handles_evict (u : String) (s : State) : (evict u s).handles u = none := handles_setHandle_self

theorem resetVault_evict (u : String) (s : State) : (evict u s).resetVault u = none := by
  simp [evict, State.setResetVault]

theorem Sound.looked {found : Option OpenVault × State} (hs : Sound u s)
    (h : Looked cfg u isAUse s found) : Sound u found.2 := by
  have hkeyed := hs.keyed.calm (calm_looked h)
  cases h with
  | closed _ => exact hs
  | idle handle hheld _ => exact .of_closed hkeyed (handles_evict u s) (resetVault_evict u s)
  | stale handle hheld hstale =>
    refine ⟨hkeyed, fun held hh => ?_, fun dataKey hword => ?_⟩
    · rw [handles_setHandle_self] at hh
      cases hh
    · rw [hs.isStale hword hheld] at hstale
      cases hstale
  | opened handle file hheld hload =>
    refine ⟨hkeyed, fun held hh => ?_, fun dataKey hword => ?_⟩
    · rw [handles_setHandle_self] at hh
      cases hh
      rw [touched_vault]
      exact hs.home handle hheld
    obtain ⟨held, there, hh, hdata, hfile, hkey⟩ := hs.word dataKey hword
    rw [hheld] at hh
    cases hh
    refine ⟨_, there, handles_setHandle_self, ?_, hfile, hkey⟩
    rw [touched_vault]
    exact hdata

def InUse (cfg : Config) (u : String) (s : State) : Prop := ∀ handle, s.handles u = some handle → stillInUse cfg s handle

theorem Sound.found {found : Option OpenVault × State} (hs : Sound u s)
    (hword : s.resetVault u = some dataKey) (huse : InUse cfg u s)
    (h : Looked cfg u isAUse s found) : found.1.isSome ∧ found.2.resetVault u = some dataKey := by
  cases h with
  | closed hnone =>
    obtain ⟨handle, file, hhandle, -⟩ := hs.word dataKey hword
    rw [hnone] at hhandle
    cases hhandle
  | idle handle hheld hidle =>
    rw [huse handle hheld] at hidle
    cases hidle
  | stale handle hheld hstale =>
    rw [hs.isStale hword hheld] at hstale
    cases hstale
  | opened _ _ _ _ => exact ⟨rfl, hword⟩

theorem Sound.registered (hs : Sound u s) (hsubject : vault.subject = u)
    (hload : load vault s = .ok file) : Sound u (register u vault s) := by
  obtain ⟨hfile, hkey⟩ := slots_of_load hload
  have hset : (register u vault s).handles u = some ⟨vault, s.fresh, s.now⟩ := handles_setHandle_self
  refine ⟨hs.keyed.fewer (fewer_register _), fun handle hhandle => ?_, fun dataKey hword => ?_⟩
  · rw [hset] at hhandle
    cases hhandle
    exact hsubject
  obtain ⟨_, there, -, -, hthere, hdata⟩ := hs.word dataKey hword
  rw [hsubject] at hfile
  have hsame : there = file := Option.some.inj (hthere.symm.trans hfile)
  exact ⟨_, there, hset, hkey.symm.trans (hsame ▸ hdata), hthere, hdata⟩

theorem opens_of_added {key : UnlockKey} (hs : Keyed s) (h : exec (addUnlockSlot vault) s = (.ok key, t)) :
    key ∈ openKeys vault.subject t ∧ ∃ file, load vault s = .ok file := by
  have hkeyed := keyed_addUnlockSlot vault s hs
  rw [h] at hkeyed
  rcases exec_addUnlockSlot vault hs with ⟨e, -, he⟩ | ⟨file, w, hload, he, -, hslots⟩
  · rw [h] at he
    cases he
  rw [h] at he
  cases he
  have hlast : (⟨s.fresh, s.fresh + 1⟩ : UnlockSlot) ∈ t.slots vault.subject := by
    rw [hslots]
    unfold withSlot
    rw [length_append, length_singleton, drop_append_of_le_length (by unfold maxUnlockSlots; omega)]
    exact mem_append_right _ (mem_singleton_self _)
  exact ⟨mem_openKeys hkeyed hlast, file, hload⟩

theorem exec_admitVault (hs : Sound u s) (hsubject : vault.subject = u) :
    (∃ e t, exec (admitVault cfg u vault) s = (.error e, t) ∧ Sound u t ∧ t.resetVault = s.resetVault) ∨
      ∃ key t, exec (admitVault cfg u vault) s = (.ok key, t) ∧ Sound u t ∧ t.resetVault = s.resetVault ∧
        key ∈ openKeys u t ∧ ∃ handle file, t.handles u = some handle ∧ handle.vault = vault ∧
          t.file u = some file ∧ file.dataKey = vault.dataKey := by
  have hsealed : Sound u (exec (sealPending cfg u vault) s).2 :=
    hs.stay (hs.keyed.calm (calm_sealPending u vault s)) (stay_sealPending u vault s)
  have hreset : (exec (sealPending cfg u vault) s).2.resetVault = s.resetVault := (stay_sealPending u vault s).resetVault
  generalize hp : exec (sealPending cfg u vault) s = pended at hsealed hreset
  obtain ⟨answer, a⟩ := pended
  cases answer with
  | error e => exact .inl ⟨e, a, exec_bind_error hp, hsealed, hreset⟩
  | ok _ =>
    have hstay := stay_addUnlockSlot vault a
    have hkeyed := keyed_addUnlockSlot vault a hsealed.keyed
    have hadded : Sound u (exec (addUnlockSlot vault) a).2 := hsealed.stay hkeyed hstay
    generalize hk : exec (addUnlockSlot vault) a = added at hadded hstay
    obtain ⟨answer, b⟩ := added
    have hreset' : b.resetVault = s.resetVault := hstay.resetVault.trans hreset
    cases answer with
    | error e => exact .inl ⟨e, b, (exec_bind_ok hp).trans (exec_bind_error hk), hadded, hreset'⟩
    | ok key =>
      obtain ⟨hopens, file, hload⟩ := opens_of_added hsealed.keyed hk
      obtain ⟨after, hafter⟩ := hstay.load hload
      obtain ⟨hfile, hdata⟩ := slots_of_load hafter
      refine .inr ⟨key, register u vault b, (exec_bind_ok hp).trans (exec_bind_ok hk), hadded.registered hsubject hafter,
        hreset', hsubject ▸ hopens, _, after, handles_setHandle_self, rfl, ?_, hdata⟩
      exact hsubject ▸ hfile

/-! ## The sections -/

/-- What a section does for the calls around it. -/
structure Section (u : String) (given : Prop) (s t : State) : Prop where
  sound : Sound u t
  /-- The vault a reset made stays. -/
  steady : given → ∀ dataKey, s.resetVault u = some dataKey → t.resetVault u = some dataKey

/-- One that answers with a key that opens the vault. -/
structure Unlocks (u : String) (given : Prop) (s : State) (ended : Except VaultError UnlockKey × State) : Prop
    extends Section u given s ended.2 where
  opens : ∀ key, ended.1 = .ok key → key ∈ openKeys u ended.2

theorem section_of_stay (hs : Sound u s) (hkeyed : Keyed t) (h : Stay s t) : Section u True s t :=
  ⟨hs.stay hkeyed h, fun _ _ hword => by rw [h.resetVault]; exact hword⟩

theorem section_of_looked {found : Option OpenVault × State} (hs : Sound u s)
    (h : Looked cfg u isAUse s found) : Section u (InUse cfg u s) s found.2 :=
  ⟨hs.looked h, fun huse _ hword => (hs.found hword huse h).2⟩

theorem stay_nextSignIn (s : State) : Stay s (nextSignIn s).2 := stay_of_same rfl rfl rfl

section

variable (hs : Sound u s) (record : Option CredentialRecord) (passphrase : String)
include hs

theorem exec_sealAndAdd (hload : load vault s = .ok file) (record : Option CredentialRecord) (signIn : Nat) :
    ∃ key t, exec (do sealSignIn vault record signIn; addUnlockSlot vault) s = (.ok key, t) ∧ Stay s t ∧ Keyed t ∧
      key ∈ openKeys vault.subject t := by
  have hsealed : ∃ a, exec (sealSignIn vault record signIn) s = (.ok (), a) := by
    cases record with
    | none => exact ⟨s, rfl⟩
    | some record =>
      unfold sealSignIn put
      rw [exec_changeFile, hload]
      exact ⟨_, rfl⟩
  obtain ⟨a, ha⟩ := hsealed
  have hstay := within_sealSignIn (stay_put vault) record signIn s
  have hkeyed := hs.keyed.calm (calm_sealSignIn vault record signIn s)
  rw [ha] at hstay hkeyed
  obtain ⟨after, hafter⟩ := hstay.load hload
  have hadded : ∃ key t, exec (addUnlockSlot vault) a = (.ok key, t) := by
    unfold addUnlockSlot
    rw [exec_changeFile, hafter]
    exact ⟨_, _, rfl⟩
  obtain ⟨key, t, ht⟩ := hadded
  have hstay' := stay_addUnlockSlot vault a
  have hkeyed' := keyed_addUnlockSlot vault a hkeyed
  rw [ht] at hstay' hkeyed'
  exact ⟨key, t, (exec_bind_ok ha).trans ht, hstay.trans hstay', hkeyed', (opens_of_added hkeyed ht).1⟩

theorem section_holdSignIn (signIn : Nat) :
    Sound u (exec (holdSignIn cfg u record signIn) s).2 ∧
      ∀ retained, (exec (holdSignIn cfg u record signIn) s).1 = .ok retained → retained.unlockKey = none := by
  have hheld : Sound u (hold cfg u record signIn s) :=
    hs.stay (hs.keyed.calm (calm_of_same rfl rfl rfl (Nat.le_refl _) rfl)) (stay_of_same rfl rfl rfl)
  have hlooked := hheld.looked (looked cfg u false (hold cfg u record signIn s))
  refine ⟨?_, fun retained h => ?_⟩
  · show Sound u (vaultState cfg u (hold cfg u record signIn s)).2
    rw [vaultState_looks]
    exact hlooked
  · cases h
    rfl

theorem section_signIn :
    Section u (InUse cfg u s) s (exec (signIn cfg u record) s).2 ∧
      ∀ retained key, (exec (signIn cfg u record) s).1 = .ok retained → retained.unlockKey = some key →
        key ∈ openKeys u (exec (signIn cfg u record) s).2 := by
  have hnext : Sound u (nextSignIn s).2 := hs.stay (hs.keyed.calm (calm_nextSignIn s)) (stay_nextSignIn s)
  have hlooked := looked_useOpen cfg u (nextSignIn s).2
  have hfound := section_of_looked hnext hlooked
  have hstart : exec (signIn cfg u record) s = _ :=
    (exec_bind_ok (exec_modifyGet nextSignIn s)).trans (exec_bind_ok (exec_modifyGet (useOpen cfg u) (nextSignIn s).2))
  generalize useOpen cfg u (nextSignIn s).2 = found at hlooked hfound hstart
  cases hcase : found.1 with
  | none =>
    have he : exec (signIn cfg u record) s =
        exec (holdSignIn cfg u record (nextSignIn s).1) found.2 := by
      rw [hstart, hcase]
    obtain ⟨hheld, hnone⟩ := @section_holdSignIn cfg _ u hfound.sound record (nextSignIn s).1
    rw [he]
    refine ⟨⟨hheld, fun huse dataKey hword => ?_⟩, fun retained key hok hkey => ?_⟩
    · have hsome := (hnext.found hword huse hlooked).1
      rw [hcase] at hsome
      cases hsome
    · rw [hnone retained hok] at hkey
      cases hkey
  | some handle =>
    obtain ⟨hopen, held, file, -, hload⟩ := open_of_looked hlooked hcase
    have hsubject := hfound.sound.home handle hopen
    obtain ⟨key, t, hadded, hstay, hkeyed, hopens⟩ := exec_sealAndAdd hfound.sound hload record (nextSignIn s).1
    have houtcome : exec (outcome (do sealSignIn handle.vault record (nextSignIn s).1; addUnlockSlot handle.vault))
        found.2 = (.ok (.ok key), t) := by
      rw [exec_outcome, hadded]
    have he : exec (signIn cfg u record) s = (.ok ⟨.opened, some key⟩, t) := by
      rw [hstart, hcase]
      exact exec_bind_ok houtcome
    rw [he]
    refine ⟨⟨hfound.sound.stay hkeyed hstay, fun huse dataKey hword => ?_⟩, fun retained answered hok hkey => ?_⟩
    · rw [hstay.resetVault]
      exact hfound.steady huse dataKey hword
    · cases hok
      cases hkey
      exact hsubject ▸ hopens

theorem section_admitVault (hsubject : vault.subject = u) :
    Unlocks u True s (exec (admitVault cfg u vault) s) := by
  rcases @exec_admitVault cfg s u vault hs hsubject with
    ⟨e, t, he, hsound, hreset⟩ | ⟨key, t, he, hsound, hreset, hopens, -⟩
  · rw [he]
    exact ⟨⟨hsound, fun _ _ hword => by rw [hreset]; exact hword⟩, fun key hok => by cases hok⟩
  rw [he]
  refine ⟨⟨hsound, fun _ _ hword => by rw [hreset]; exact hword⟩, fun answered hok => ?_⟩
  cases hok
  exact hopens

theorem Sound.created (hnone : s.resetVault u = none) (passphrase : String) :
    Sound u (createFile u passphrase s).2 where
  keyed := hs.keyed.fewer (fewer_createFile u passphrase s)
  home := hs.home
  word := fun dataKey hword => by
    rw [show (createFile u passphrase s).2.resetVault u = s.resetVault u from rfl, hnone] at hword
    cases hword

theorem section_create : Unlocks u True s (exec (create cfg u passphrase) s) := by
  have hdrop : Sound u (dropExpired cfg s) := hs.dropExpired
  rcases exec_create cfg u passphrase s with ⟨e, he⟩ | ⟨hfile, he⟩
  · rw [he]
    exact ⟨⟨hdrop, fun _ _ hword => hword⟩, fun key hok => by cases hok⟩
  -- A promise is about a file that is there.
  have hnone : s.resetVault u = none := by
    by_contra hsome
    obtain ⟨dataKey, hword⟩ := Option.ne_none_iff_exists'.mp hsome
    obtain ⟨_, file, -, -, hthere, -⟩ := hs.word dataKey hword
    rw [hfile] at hthere
    cases hthere
  have hmade : Sound u (createFile u passphrase (dropExpired cfg s)).2 := hdrop.created hnone passphrase
  obtain ⟨hsection, hkeys⟩ := @section_admitVault cfg _ u (createFile u passphrase (dropExpired cfg s)).1 hmade rfl
  rw [he]
  refine ⟨⟨hsection.sound, fun _ dataKey hword => ?_⟩, hkeys⟩
  rw [hnone] at hword
  cases hword

theorem section_resetVaultFile :
    Section u (InUse cfg u s) s (exec (resetVaultFile cfg u passphrase) s).2 ∧
      ∀ reset, (exec (resetVaultFile cfg u passphrase) s).1 = .ok reset →
        reset.unlockKey ∈ openKeys u (exec (resetVaultFile cfg u passphrase) s).2 ∧
          (exec (resetVaultFile cfg u passphrase) s).2.resetVault u = some reset.dataKey := by
  have hlooked : Looked cfg u false s (getOpen cfg u s) := looked cfg u false s
  have hfound := section_of_looked hs hlooked
  have hdrop : Section u (InUse cfg u s) s (dropExpired cfg (getOpen cfg u s).2) :=
    ⟨hfound.sound.dropExpired, hfound.steady⟩
  rcases exec_resetVaultFile cfg u passphrase s with ⟨e, t, rfl | rfl, he⟩ | ⟨t, setAside, hcase, ht, he⟩
  · rw [he]
    exact ⟨hfound, fun reset hok => by cases hok⟩
  · rw [he]
    exact ⟨hdrop, fun reset hok => by cases hok⟩
  have hsteady : ∀ {w : State}, InUse cfg u s → ∀ dataKey, s.resetVault u = some dataKey →
      w.resetVault u = some dataKey := by
    intro w huse dataKey hword
    have hsome := (hs.found hword huse hlooked).1
    rw [hcase] at hsome
    cases hsome
  -- A promised vault is open, and this one is not.
  have hnone : t.resetVault u = none := by
    have hsame : t.resetVault = (getOpen cfg u s).2.resetVault := by rcases ht with rfl | rfl <;> rfl
    by_contra hsome
    obtain ⟨dataKey, hword⟩ := Option.ne_none_iff_exists'.mp hsome
    rw [hsame] at hword
    obtain ⟨handle, _, hhandle, -⟩ := hfound.sound.word dataKey hword
    rw [closed_of_looked hlooked hcase] at hhandle
    cases hhandle
  have hcounted : Sound u t := by
    rcases ht with rfl | rfl
    · exact hdrop.sound
    · exact hdrop.sound.stay (hdrop.sound.keyed.calm calm_countSetAside) (stay_of_same rfl rfl rfl)
  have hmade : Sound u (createFile u passphrase t).2 := hcounted.created hnone passphrase
  rw [he]
  rcases @exec_admitVault cfg _ u (createFile u passphrase t).1 hmade rfl with
    ⟨e, w, hadmitted, hsound, -⟩ | ⟨key, w, hadmitted, hsound, -, hopens, handle, file, hhandle, hvault, hfile, hdata⟩
  · rw [hadmitted]
    exact ⟨⟨hsound, hsteady⟩, fun reset hok => by cases hok⟩
  rw [hadmitted]
  have hword : (w.setResetVault u (some t.fresh)).resetVault u = some t.fresh := by simp [State.setResetVault]
  refine ⟨⟨⟨hsound.keyed.calm (calm_setResetVault u _ w), hsound.home, fun dataKey hpromised => ?_⟩, hsteady⟩,
    fun reset hok => ?_⟩
  · rw [hword] at hpromised
    cases hpromised
    exact ⟨handle, file, hhandle, by rw [hvault]; rfl, hfile, hdata⟩
  · cases hok
    exact ⟨hopens, hword⟩

end

theorem section_answerSuccessor (hs : Sound u s) {rotation : Rotation}
    (hlast : s.newest u rotation.successor.slotId = some ⟨rotation.successor, some rotation.retired, rotation.rotatedAt⟩)
    (hcareful : (useOpen cfg u s).1.isSome → rotation.successor.slotId ∈ (s.slots u).map (·.id)) :
    Unlocks u (InUse cfg u s) s (exec (answerSuccessor cfg u rotation) s) := by
  have hlooked := looked_useOpen cfg u s
  have hcalm : Calm s (useOpen cfg u s).2 := calm_looked hlooked
  have hfound := section_of_looked hs hlooked
  have hsubject : rotation.successor.subject = u := (newest_isOf hlast).2.1
  rw [exec_answerSuccessor]
  cases hcase : (useOpen cfg u s).1 with
  | some handle =>
    refine ⟨hfound, fun key hok => ?_⟩
    cases hok
    rw [openKeys_of_sameSlots (congrFun hcalm.sameSlots u)]
    -- the rotation on record is the last of its slot, so its successor opens the slot
    obtain ⟨slot, hslot, hid⟩ := mem_map.mp (hcareful (by rw [hcase]; rfl))
    obtain ⟨wrap, hnewest, hkey⟩ := hs.keyed.newest u slot hslot
    rw [hid, hlast] at hnewest
    cases hnewest
    refine mem_openKeys_of_slot hs.keyed hsubject ?_
    rw [← hid, show rotation.successor.key = slot.key from hkey]
    exact hslot
  | none =>
    cases hopen : openWithUnlockKey rotation.successor (useOpen cfg u s).2 with
    | error e => exact ⟨hfound, fun key hok => by cases hok⟩
    | ok vault =>
      obtain ⟨hvault, file, hload⟩ := load_of_opened hopen
      obtain ⟨there, hthere, hopens, -⟩ := openWithUnlockKey_ok hopen
      refine ⟨⟨hfound.sound.registered (hvault.trans hsubject) hload, hfound.steady⟩, fun key hok => ?_⟩
      cases hok
      refine mem_openKeys_of_slot hfound.sound.keyed hsubject ?_
      rw [hsubject] at hthere
      rw [slots_eq hthere]
      exact opensSlotIn_mem hopens

theorem section_rotate (hs : Sound u s) {unlock : UnlockKey} {proven : SessionVault} (hproven : proven.subject = u)
    (hunlock : unlock.subject = u) : Unlocks u True s (exec (rotate cfg unlock proven) s) := by
  have hsame : proven.subject = unlock.subject := hproven.trans hunlock.symm
  have hkeyed : Keyed (exec (rotate cfg unlock proven) s).2 :=
    (keeps_rotate (P := fun _ => True) (fun _ _ _ _ => trivial) hsame s ⟨hs.keyed, trivial⟩).1
  refine ⟨section_of_stay hs hkeyed (stay_rotate unlock proven s), fun key hok => ?_⟩
  rcases @exec_rotate s cfg unlock proven hsame hs.keyed with ⟨e, he⟩ | ⟨file, t, -, -, he, -, hslots⟩
  · rw [he] at hok
    cases hok
  rw [he] at hok hkeyed ⊢
  cases hok
  have hlast : (⟨unlock.slotId, s.fresh⟩ : UnlockSlot) ∈ t.slots u := by
    rw [hunlock] at hslots
    rw [hslots]
    exact mem_append_right _ (mem_singleton_self _)
  rw [hunlock]
  exact mem_openKeys hkeyed hlast

theorem section_closeUnused (hs : Sound u s) (hsubject : vault.subject = u) :
    Sound u (exec (closeUnused u vault) s).2 ∧
      (s.slots u ≠ [] → (exec (closeUnused u vault) s).2.resetVault u = s.resetVault u) := by
  rw [exec_closeUnused]
  cases hload : load vault s with
  | error e => exact ⟨hs, fun _ => rfl⟩
  | ok file =>
    have hslots : s.slots u = file.unlockSlots := hsubject ▸ slots_eq (slots_of_load hload).1
    dsimp only
    split
    · next hempty =>
      refine ⟨.of_closed (hs.keyed.calm calm_evict) (handles_evict u s) (resetVault_evict u s), fun hne => ?_⟩
      rw [hslots] at hne
      exact absurd (isEmpty_iff.mp hempty) hne
    · exact ⟨hs, fun _ => rfl⟩

theorem section_evictIdle (hs : Sound u s) : Section u (InUse cfg u s) s (evictIdle cfg s) := by
  have hkeyed : Keyed (evictIdle cfg s) := hs.keyed.calm (calm_happen s .evictIdle)
  have hhandles : (evictIdle cfg s).handles u = if (s.handles u).all (stillInUse cfg s) then s.handles u else none := rfl
  have hreset : (evictIdle cfg s).resetVault u = if (s.handles u).all (stillInUse cfg s) then s.resetVault u else none := rfl
  by_cases hkept : (s.handles u).all (stillInUse cfg s)
  · rw [if_pos hkept] at hhandles hreset
    refine ⟨⟨hkeyed, fun handle hh => hs.home handle (hhandles ▸ hh), fun dataKey hword => ?_⟩, fun _ _ hword => ?_⟩
    · rw [hhandles]
      exact hs.word dataKey (hreset ▸ hword)
    · rw [hreset]
      exact hword
  rw [if_neg hkept] at hhandles hreset
  refine ⟨.of_closed hkeyed hhandles hreset, fun huse dataKey hword => ?_⟩
  obtain ⟨handle, _, hhandle, -⟩ := hs.word dataKey hword
  rw [hhandle] at hkept
  exact absurd (huse handle hhandle) hkept

end TddyCoder.Vaults
