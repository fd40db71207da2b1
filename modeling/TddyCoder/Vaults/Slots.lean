/-
  TddyCoder.Vaults.Slots — the unlock slots and the keys to them, whatever is called and
  however the calls interleave.

  Every part but two only takes away: slots, rotations on record (`Calm`). A sign-in or an
  opening hands out the key to a new slot, a refresh rotates one. So at any time (`Keyed`)
  a slot in the file opens under the newest key handed out for it and no other, the slots
  stand in the order of their last use and are sixteen at most, and a rotation on record is
  the last one of its slot.
-/

import TddyCoder.Vaults.Store

namespace TddyCoder.Vaults

open List Function

open CredentialSync (CredentialRecord)
open Prog

variable (s : State) (subject : String)

def State.slots : List UnlockSlot :=
  match s.file subject with
  | some file => file.unlockSlots
  | none => []

def Wrap.isOf (slotId : Nat) (wrap : Wrap) : Bool :=
  wrap.unlock.subject = subject ∧ wrap.unlock.slotId = slotId

def State.newest (slotId : Nat) : Option Wrap := s.wraps.find? (Wrap.isOf subject slotId)

def State.lastUse (slotId : Nat) : Nat :=
  (s.wraps.dropWhile fun wrap => !Wrap.isOf subject slotId wrap).length

structure Keyed : Prop where
  few : ∀ u, (s.slots u).length ≤ maxUnlockSlots
  drawn : ∀ wrap ∈ s.wraps, wrap.unlock.slotId < s.fresh
  newest : ∀ u, ∀ slot ∈ s.slots u, ∃ wrap, s.newest u slot.id = some wrap ∧ wrap.unlock.key = slot.key
  byUse : ∀ u, (s.slots u).Pairwise fun a b => s.lastUse u a.id < s.lastUse u b.id
  rotated : ∀ u slotId r, s.rotations u slotId = some r → s.newest u slotId = some ⟨r.successor, some r.retired, r.rotatedAt⟩

theorem keyed_start : Keyed State.start where
  few := fun _ => Nat.zero_le _
  drawn := fun wrap h => absurd h not_mem_nil
  newest := fun u slot h => absurd h not_mem_nil
  byUse := fun _ => Pairwise.nil
  rotated := fun u slotId r h => by cases h

variable {s t : State} {u v : String} {i : Nat}

theorem newest_isOf {wrap : Wrap} (h : s.newest u i = some wrap) :
    wrap ∈ s.wraps ∧ wrap.unlock.subject = u ∧ wrap.unlock.slotId = i := by
  have hof := find?_some h
  simp only [Wrap.isOf, decide_eq_true_eq] at hof
  exact ⟨mem_of_find?_eq_some h, hof⟩

theorem lastUse_le (s : State) (u : String) (i : Nat) : s.lastUse u i ≤ s.wraps.length :=
  (dropWhile_suffix _).length_le

theorem Keyed.slot_drawn (h : Keyed s) {slot : UnlockSlot} (hslot : slot ∈ s.slots u) : slot.id < s.fresh := by
  obtain ⟨wrap, hnewest, -⟩ := h.newest u slot hslot
  obtain ⟨hmem, -, hid⟩ := newest_isOf hnewest
  rw [← hid]
  exact h.drawn wrap hmem

/-! ## Parts that only take away -/

structure Fewer (s t : State) : Prop where
  slots : ∀ u, (t.slots u).Sublist (s.slots u)
  rotations : ∀ u slotId r, t.rotations u slotId = some r → s.rotations u slotId = some r
  wraps : t.wraps = s.wraps
  fresh : s.fresh ≤ t.fresh

/-- No vault is opened: a handle that is there was there before. -/
def Unopened (u : String) (s t : State) : Prop :=
  ∀ handle, t.handles u = some handle → ∃ held, s.handles u = some held ∧ held.arc = handle.arc

/-- The slots stay as well, and no vault is opened. -/
structure Calm (s t : State) : Prop extends Fewer s t where
  sameSlots : t.slots = s.slots
  unopened : ∀ u, Unopened u s t

theorem fewer_refl (s : State) : Fewer s s := ⟨fun _ => Sublist.refl _, fun _ _ _ h => h, rfl, Nat.le_refl _⟩

variable {proven : SessionVault} {w : State} (vault : SessionVault)

theorem Fewer.trans (h : Fewer s t) (h' : Fewer t w) : Fewer s w where
  slots := fun u => (h'.slots u).trans (h.slots u)
  rotations := fun u slotId r hr => h.rotations u slotId r (h'.rotations u slotId r hr)
  wraps := h'.wraps.trans h.wraps
  fresh := Nat.le_trans h.fresh h'.fresh

theorem unopened_refl (u : String) (s : State) : Unopened u s s := fun handle h => ⟨handle, h, rfl⟩

theorem Unopened.trans (h : Unopened u s t) (h' : Unopened u t w) : Unopened u s w := by
  intro handle hw
  obtain ⟨held, ht, harc⟩ := h' handle hw
  obtain ⟨first, hs, harc'⟩ := h held ht
  exact ⟨first, hs, harc'.trans harc⟩

theorem unopened_of_same (h : t.handles = s.handles) (u : String) : Unopened u s t := by
  intro handle ht
  exact ⟨handle, h ▸ ht, rfl⟩

theorem calm_refl (s : State) : Calm s s := ⟨fewer_refl s, rfl, fun u => unopened_refl u s⟩

theorem Calm.trans (h : Calm s t) (h' : Calm t w) : Calm s w :=
  ⟨h.toFewer.trans h'.toFewer, h'.sameSlots.trans h.sameSlots, fun u => (h.unopened u).trans (h'.unopened u)⟩

instance : Std.Refl Fewer := ⟨fewer_refl⟩

instance (u : String) : IsTrans State (Unopened u) := ⟨fun _ _ _ => Unopened.trans⟩

instance (u : String) : Std.Refl (Unopened u) := ⟨unopened_refl u⟩

instance : IsTrans State Calm := ⟨fun _ _ _ => Calm.trans⟩

instance : Std.Refl Calm := ⟨calm_refl⟩

theorem Fewer.newest (h : Fewer s t) (u : String) (i : Nat) : t.newest u i = s.newest u i := by
  unfold State.newest
  rw [h.wraps]

theorem Fewer.lastUse (h : Fewer s t) (u : String) (i : Nat) : t.lastUse u i = s.lastUse u i := by
  unfold State.lastUse
  rw [h.wraps]

theorem Keyed.fewer (hs : Keyed s) (h : Fewer s t) : Keyed t where
  few := fun u => Nat.le_trans (h.slots u).length_le (hs.few u)
  drawn := fun wrap hwrap => Nat.lt_of_lt_of_le (hs.drawn wrap (h.wraps ▸ hwrap)) h.fresh
  newest := fun u slot hslot => by
    rw [h.newest]
    exact hs.newest u slot ((h.slots u).subset hslot)
  byUse := fun u => by
    simp only [h.lastUse]
    exact (hs.byUse u).sublist (h.slots u)
  rotated := fun u slotId r hr => by
    rw [h.newest]
    exact hs.rotated u slotId r (h.rotations u slotId r hr)

theorem Keyed.calm (hs : Keyed s) (h : Calm s t) : Keyed t := hs.fewer h.toFewer

theorem fewer_of_same (hfile : t.file = s.file) (hrotations : t.rotations = s.rotations) (hwraps : t.wraps = s.wraps)
    (hfresh : s.fresh ≤ t.fresh) : Fewer s t where
  slots := fun u => by
    unfold State.slots
    rw [hfile]
  rotations := fun u slotId r hr => hrotations ▸ hr
  wraps := hwraps
  fresh := hfresh

/-- Which fields a part leaves alone says that it is calm. -/
theorem calm_of_same (hfile : t.file = s.file) (hrotations : t.rotations = s.rotations) (hwraps : t.wraps = s.wraps)
    (hfresh : s.fresh ≤ t.fresh) (hhandles : t.handles = s.handles) : Calm s t where
  toFewer := fewer_of_same hfile hrotations hwraps hfresh
  sameSlots := by
    unfold State.slots
    rw [hfile]
  unopened := unopened_of_same hhandles

theorem slots_setFile (s : State) (u : String) (file : VaultFile) (v : String) :
    (s.setFile u file).slots v = if v = u then file.unlockSlots else s.slots v := by
  simp only [State.slots, State.setFile, update_apply]
  by_cases h : v = u <;> simp [h]

variable {file : VaultFile} {α : Type}

theorem slots_of_load {vault : SessionVault} (h : load vault s = .ok file) :
    s.file vault.subject = some file ∧ file.dataKey = vault.dataKey := by
  unfold load at h
  cases hfile : s.file vault.subject with
  | none =>
    rw [hfile] at h
    cases h
  | some held =>
    rw [hfile] at h
    dsimp only at h
    split at h
    · next hkey =>
      cases h
      exact ⟨rfl, hkey⟩
    · cases h

theorem exec_changeFile (change : VaultFile → Part α) (s : State) :
    exec (changeFile vault change) s = match load vault s with
      | .ok file => exec (change file) s
      | .error e => (.error e, s) := by
  unfold changeFile
  rw [exec_bind_ok (exec_get s)]
  cases h : load vault s with
  | ok file => exact exec_bind_ok (by rw [exec_check])
  | error e => exact exec_bind_error (by rw [exec_check])

variable {R : State → State → Prop}

/-- What the changes of the file do, the changed file does. -/
theorem within_changeFile [Std.Refl R] {vault : SessionVault}
    {change : VaultFile → Part α} (h : ∀ file s, s.file vault.subject = some file → R s (exec (change file) s).2) :
    Within R (changeFile vault change) := by
  intro s
  rw [exec_changeFile]
  cases hload : load vault s with
  | ok file => exact h file s (slots_of_load hload).1
  | error e => exact refl_of R s

theorem within_rotate [IsTrans State R] [Std.Refl R] {unlock : UnlockKey}
    (hset : ∀ file s slots fresh wraps, s.file proven.subject = some file →
      R s { s.setSlots proven.subject file slots with fresh, wraps })
    (hrotations : ∀ (s : State) rotations, R s { s with rotations }) : Within R (rotate cfg unlock proven) := by
  have hrotated : Within R (rotateUnlockSlot proven unlock) := by
    refine within_changeFile fun file s hfile => ?_
    split
    · exact hset file s _ _ _ hfile
    · exact refl_of R s
  exact within_bind hrotated fun _ => within_bind (within_modify fun s => hrotations s _) fun _ => within_pure _

theorem slots_eq (h : s.file u = some file) : s.slots u = file.unlockSlots := by
  unfold State.slots
  rw [h]

theorem fewer_setFile (h : file.unlockSlots.Sublist (s.slots u)) : Fewer s (s.setFile u file) where
  slots := fun v => by
    rw [slots_setFile]
    split
    · next he =>
      subst he
      exact h
    · exact Sublist.refl _
  rotations := fun _ _ _ hr => hr
  wraps := rfl
  fresh := Nat.le_refl _

theorem calm_setFile (h : file.unlockSlots = s.slots u) : Calm s (s.setFile u file) where
  toFewer := fewer_setFile (by rw [h])
  sameSlots := by
    funext v
    rw [slots_setFile]
    split
    · next he => rw [h, he]
    · rfl
  unopened := unopened_of_same rfl

theorem calm_put (sealed : SealedRecord) : Within Calm (put vault sealed) := by
  refine within_changeFile fun file s hfile => ?_
  have hset : Calm s (s.setFile vault.subject (file.put sealed)) := calm_setFile (slots_eq hfile).symm
  exact hset.trans (calm_of_same rfl rfl rfl (Nat.le_refl _) rfl)

theorem fewer_removeUnlockSlot (slotId : Nat) : Within Fewer (removeUnlockSlot vault slotId) :=
  within_changeFile fun file s hfile => fewer_setFile (by rw [slots_eq hfile]; exact filter_sublist)

theorem fewer_createFile (u passphrase : String) (s : State) : Fewer s (createFile u passphrase s).2 := by
  have hset : Fewer s (s.setFile u ⟨passphrase, s.fresh, [], []⟩) := fewer_setFile (nil_sublist _)
  exact hset.trans (fewer_of_same rfl rfl rfl (Nat.le_succ _))

theorem within_createStore [IsTrans State R] [Std.Refl R] {passphrase : String}
    (hcreate : ∀ s, R s (createFile u passphrase s).2) : Within R (createStore u passphrase) := by
  refine within_bind within_get fun s => ?_
  split
  · exact within_throw _
  · exact within_modifyGet hcreate

variable {cfg : Config}

def touched (s : State) (isAUse : Bool) (handle : OpenVault) : OpenVault :=
  if isAUse then { handle with used := s.now } else handle

theorem touched_vault (s : State) (isAUse : Bool) (handle : OpenVault) :
    (touched s isAUse handle).vault = handle.vault := by
  unfold touched
  split <;> rfl

/-- All that a look can come to. -/
inductive Looked (cfg : Config) (u : String) (isAUse : Bool) (s : State) : Option OpenVault × State → Prop
  | closed : s.handles u = none → Looked cfg u isAUse s (none, s)
  | idle (handle : OpenVault) : s.handles u = some handle → stillInUse cfg s handle = false →
      Looked cfg u isAUse s (none, evict u s)
  | stale (handle : OpenVault) : s.handles u = some handle → isStale s handle.vault →
      Looked cfg u isAUse s (none, s.setHandle u none)
  | opened (handle : OpenVault) (file : VaultFile) : s.handles u = some handle → load handle.vault s = .ok file →
      Looked cfg u isAUse s (some (touched s isAUse handle), s.setHandle u (some (touched s isAUse handle)))

theorem close_same {handle held : OpenVault} (h : s.handles u = some held) (harc : held.arc = handle.arc) :
    close u handle s = s.setHandle u none := by
  unfold close
  rw [h]
  exact if_pos harc

theorem setHandle_twice (s : State) (u : String) (a b : Option OpenVault) :
    (s.setHandle u a).setHandle u b = s.setHandle u b := by
  unfold State.setHandle
  rw [update_idem]

variable {handle : Option OpenVault} {P : State → Prop}

theorem setHandle_self (h : s.handles u = handle) : s.setHandle u handle = s := by
  unfold State.setHandle
  rw [← h, update_eq_self]

theorem handles_setHandle (s : State) (u : String) (handle : Option OpenVault) (v : String) :
    (s.setHandle u handle).handles v = if v = u then handle else s.handles v := update_apply s.handles u _ v

theorem handles_setHandle_self :
    (s.setHandle u handle).handles u = handle := (handles_setHandle s u handle u).trans (if_pos rfl)

theorem looked (cfg : Config) (u : String) (isAUse : Bool) (s : State) :
    Looked cfg u isAUse s (freshHandle u (lookup cfg u isAUse s)) := by
  unfold lookup
  split
  · next hnone => exact .closed hnone
  · next handle hsome =>
    split
    · next hused =>
      have htouched : (if isAUse then
          let handle := { handle with used := s.now }
          (some handle, s.setHandle u (some handle))
        else (some handle, s)) = (some (touched s isAUse handle), s.setHandle u (some (touched s isAUse handle))) := by
        unfold touched
        cases isAUse with
        | true => rfl
        | false =>
          rw [if_neg Bool.false_ne_true, if_neg Bool.false_ne_true, setHandle_self hsome]
      have hstale : isStale (s.setHandle u (some (touched s isAUse handle))) (touched s isAUse handle).vault =
          isStale s handle.vault := by
        rw [touched_vault]
        rfl
      rw [htouched]
      unfold freshHandle
      simp only [hstale]
      split
      · next h =>
        rw [close_same handles_setHandle_self rfl, setHandle_twice]
        exact .stale handle hsome h
      · next h =>
        unfold isStale at h
        split at h
        · next file hload => exact .opened handle file hsome hload
        · exact absurd rfl h
    · next hidle => exact .idle handle hsome (by simpa using hidle)

theorem looked_useOpen (cfg : Config) (u : String) (s : State) : Looked cfg u true s (useOpen cfg u s) := looked cfg u true s

theorem calm_setHandle (h : ∀ opened, handle = some opened → ∃ held, s.handles u = some held ∧ held.arc = opened.arc) :
    Calm s (s.setHandle u handle) := by
  refine ⟨fewer_of_same rfl rfl rfl (Nat.le_refl _), rfl, fun v opened hopened => ?_⟩
  rw [handles_setHandle] at hopened
  split at hopened
  · next hv =>
    subst hv
    exact h opened hopened
  · exact ⟨opened, hopened, rfl⟩

theorem calm_setHandle_none : Calm s (s.setHandle u none) := calm_setHandle fun _ h => by cases h

theorem calm_evict : Calm s (evict u s) :=
  calm_setHandle_none.trans (calm_of_same rfl rfl rfl (Nat.le_refl _) rfl)

theorem calm_looked {isAUse : Bool} {found : Option OpenVault × State} (h : Looked cfg u isAUse s found) :
    Calm s found.2 := by
  cases h with
  | closed _ => exact calm_refl s
  | idle _ _ _ => exact calm_evict
  | stale _ _ _ => exact calm_setHandle_none
  | opened handle _ hheld _ =>
    refine calm_setHandle fun opened h => ⟨handle, hheld, ?_⟩
    cases h
    unfold touched
    split <;> rfl

theorem calm_close {handle : OpenVault} : Calm s (close u handle s) := by
  unfold close
  split
  · split
    · exact calm_setHandle_none
    · exact calm_refl s
  · exact calm_refl s

theorem calm_getOpen : Calm s (getOpen cfg u s).2 := calm_looked (looked cfg u false s)

theorem calm_useOpen : Calm s (useOpen cfg u s).2 := calm_looked (looked cfg u true s)

theorem fewer_register : Fewer s (register u vault s) :=
  fewer_of_same rfl rfl rfl (Nat.le_succ _)

theorem unopened_register {v : String} (h : v ≠ u) (vault : SessionVault) (s : State) :
    Unopened v s (register u vault s) := by
  intro handle hv
  rw [show (register u vault s).handles = (s.setHandle u (some ⟨vault, s.fresh, s.now⟩)).handles from rfl,
    handles_setHandle, if_neg h] at hv
  exact ⟨handle, hv, rfl⟩

theorem vaultState_looks : (vaultState cfg u s).2 = (getOpen cfg u s).2 := by
  unfold vaultState
  split
  · next h => rw [h]
  · next h => rw [h]

theorem calm_vaultState : Calm s (vaultState cfg u s).2 := by
  rw [vaultState_looks]
  exact calm_getOpen

section Sealing

variable [Std.Refl R] {vault : SessionVault} (hput : ∀ sealed, Within R (put vault sealed))
include hput

theorem within_sealSignIn (record : Option CredentialRecord) (signIn : Nat) :
    Within R (sealSignIn vault record signIn) := by
  unfold sealSignIn
  split
  · exact hput _
  · exact within_pure _

theorem within_sealPending [IsTrans State R] (hwaiting : ∀ (s : State) waiting, R s { s with waiting }) :
    Within R (sealPending cfg u vault) := by
  have hall : ∀ waiting, Within R (sealAll u vault waiting) := by
    intro waiting
    induction waiting with
    | nil => exact within_pure _
    | cons pending rest ih =>
      unfold sealAll
      split
      · exact ih
      refine within_bind (within_outcome (hput _)) fun sealed => ?_
      split
      · exact ih
      · exact within_bind (within_modify fun s => hwaiting s _) fun _ => within_throw _
  exact within_bind (within_modifyGet fun s => hwaiting s _) hall

end Sealing

theorem calm_sealPending (u : String) (vault : SessionVault) : Within Calm (sealPending cfg u vault) :=
  within_sealPending (calm_put vault) fun _ _ => calm_of_same rfl rfl rfl (Nat.le_refl _) rfl

theorem calm_holdSignIn (u : String) (record : Option CredentialRecord) (signIn : Nat) :
    Within Calm (holdSignIn cfg u record signIn) :=
  within_bind (within_modify fun _ => calm_of_same rfl rfl rfl (Nat.le_refl _) rfl) fun _ =>
    within_bind (within_modifyGet fun _ => calm_vaultState) fun _ => within_pure _

theorem calm_sealSignIn (record : Option CredentialRecord) (signIn : Nat) :
    Within Calm (sealSignIn vault record signIn) := within_sealSignIn (calm_put vault) record signIn

theorem calm_requireAFreshLogin : Within Calm (requireAFreshLogin cfg u) := by
  refine within_bind (within_modifyGet fun _ => calm_of_same rfl rfl rfl (Nat.le_refl _) rfl) fun held => ?_
  split
  · exact within_pure _
  · exact within_throw _

theorem calm_nextSignIn (s : State) : Calm s (nextSignIn s).2 := calm_of_same rfl rfl rfl (Nat.le_refl _) rfl

theorem calm_setResetVault (u : String) (dataKey : Option Nat) (s : State) : Calm s (s.setResetVault u dataKey) :=
  calm_of_same rfl rfl rfl (Nat.le_refl _) rfl

theorem calm_countSetAside : Calm s (countSetAside u s) :=
  calm_of_same rfl rfl rfl (Nat.le_refl _) rfl

theorem calm_forgetRotations : Calm s (forgetRotations u s) where
  slots := fun _ => Sublist.refl _
  rotations := fun v slotId r hr => by
    unfold forgetRotations at hr
    by_cases hv : v = u
    · subst hv
      simp at hr
    · simpa [hv] using hr
  wraps := rfl
  fresh := Nat.le_refl _
  sameSlots := rfl
  unopened := unopened_of_same rfl

theorem rotations_setRotation (s : State) (u : String) (i : Nat) (rotation : Option Rotation) (v : String) (j : Nat) :
    (s.setRotation u i rotation).rotations v j = if v = u ∧ j = i then rotation else s.rotations v j := by
  unfold State.setRotation
  by_cases hv : v = u
  · subst hv
    by_cases hj : j = i <;> simp [hj]
  · simp [hv]

theorem calm_forgetRotation (unlock : UnlockKey) (s : State) : Calm s (forgetRotation unlock s) where
  slots := fun _ => Sublist.refl _
  rotations := fun v slotId r hr => by
    unfold forgetRotation at hr
    rw [rotations_setRotation] at hr
    split at hr
    · cases hr
    · exact hr
  wraps := rfl
  fresh := Nat.le_refl _
  sameSlots := rfl
  unopened := unopened_of_same rfl

theorem calm_closeUnused (u : String) (vault : SessionVault) : Within Calm (closeUnused u vault) := by
  refine within_bind within_get fun s => within_bind (within_check _) fun ids => ?_
  split
  · exact within_modify fun _ => calm_evict
  · exact within_pure _

/-! ## The two that hand out a key -/

section Wrapped

variable {wrap : Wrap}

theorem newest_cons (h : t.wraps = wrap :: s.wraps) (v : String) (j : Nat) :
    t.newest v j = if wrap.isOf v j then some wrap else s.newest v j := by
  unfold State.newest
  rw [h, find?_cons]
  cases wrap.isOf v j <;> rfl

theorem lastUse_cons (h : t.wraps = wrap :: s.wraps) (v : String) (j : Nat) :
    t.lastUse v j = if wrap.isOf v j then s.wraps.length + 1 else s.lastUse v j := by
  unfold State.lastUse
  rw [h, dropWhile_cons]
  cases wrap.isOf v j <;> rfl

/-- A key is handed out for a slot: the slot stands last, under that key, and the rotation on record for it is this one
    or none. -/
structure Wrapped (wrap : Wrap) (s t : State) : Prop where
  wraps : t.wraps = wrap :: s.wraps
  handles : t.handles = s.handles
  fresh : s.fresh ≤ t.fresh
  drawn : wrap.unlock.slotId < t.fresh
  others : ∀ v, v ≠ wrap.unlock.subject → t.slots v = s.slots v
  slots : (t.slots wrap.unlock.subject).Sublist
    ((s.slots wrap.unlock.subject).filter (·.id ≠ wrap.unlock.slotId) ++ [⟨wrap.unlock.slotId, wrap.unlock.key⟩])
  few : (t.slots wrap.unlock.subject).length ≤ maxUnlockSlots
  rotations : ∀ v j r, t.rotations v j = some r →
    (wrap.isOf v j ∧ wrap = ⟨r.successor, some r.retired, r.rotatedAt⟩) ∨ (wrap.isOf v j = false ∧ s.rotations v j = some r)

theorem isOf_eq (wrap : Wrap) (v : String) (j : Nat) :
    wrap.isOf v j = true ↔ wrap.unlock.subject = v ∧ wrap.unlock.slotId = j := by
  simp [Wrap.isOf]

theorem isOf_eq_false (h : wrap.unlock.subject = v → wrap.unlock.slotId ≠ i) : wrap.isOf v i = false := by
  rw [Bool.eq_false_iff, Ne, isOf_eq]
  exact fun hof => h hof.1 hof.2

theorem Wrapped.slot (h : Wrapped wrap s t) {slot : UnlockSlot} (hslot : slot ∈ t.slots v) :
    (wrap.isOf v slot.id ∧ slot.key = wrap.unlock.key) ∨ (wrap.isOf v slot.id = false ∧ slot ∈ s.slots v) := by
  by_cases hv : v = wrap.unlock.subject
  · subst hv
    rcases mem_append.mp (h.slots.subset hslot) with hold | hnew
    · obtain ⟨hold, hid⟩ := mem_filter.mp hold
      exact .inr ⟨isOf_eq_false fun _ he => by simp [he] at hid, hold⟩
    · rw [mem_singleton.mp hnew]
      exact .inl ⟨(isOf_eq ..).mpr ⟨rfl, rfl⟩, rfl⟩
  · rw [h.others v hv] at hslot
    refine .inr ⟨?_, hslot⟩
    exact isOf_eq_false fun hu => absurd hu.symm hv

theorem Keyed.wrapped (hs : Keyed s) (h : Wrapped wrap s t) : Keyed t where
  few := fun v => by
    by_cases hv : v = wrap.unlock.subject
    · subst hv
      exact h.few
    · rw [h.others v hv]
      exact hs.few v
  drawn := fun w hw => by
    rw [h.wraps] at hw
    rcases mem_cons.mp hw with rfl | hw
    · exact h.drawn
    · exact Nat.lt_of_lt_of_le (hs.drawn w hw) h.fresh
  newest := fun v slot hslot => by
    rw [newest_cons h.wraps]
    rcases h.slot hslot with ⟨hof, hkey⟩ | ⟨hof, hold⟩
    · rw [if_pos hof]
      exact ⟨wrap, rfl, hkey.symm⟩
    · rw [if_neg (by simp [hof])]
      exact hs.newest v slot hold
  byUse := fun v => by
    by_cases hv : v = wrap.unlock.subject
    · subst hv
      refine Pairwise.sublist h.slots ?_
      -- The ones that were there keep their last use, and the new one's is later than any.
      have hold : ∀ a ∈ (s.slots wrap.unlock.subject).filter (·.id ≠ wrap.unlock.slotId),
          t.lastUse wrap.unlock.subject a.id = s.lastUse wrap.unlock.subject a.id := by
        intro a ha
        rw [lastUse_cons h.wraps, if_neg]
        rw [isOf_eq]
        intro hof
        have hid := (mem_filter.mp ha).2
        simp [hof.2] at hid
      refine pairwise_append.mpr ⟨?_, pairwise_singleton _ _, ?_⟩
      · refine ((hs.byUse _).sublist filter_sublist).imp_of_mem fun {a b} ha hb hlt => ?_
        rw [hold a ha, hold b hb]
        exact hlt
      · intro a ha b hb
        rw [mem_singleton.mp hb, hold a ha, lastUse_cons h.wraps, if_pos ((isOf_eq ..).mpr ⟨rfl, rfl⟩)]
        exact Nat.lt_succ_of_le (lastUse_le s _ a.id)
    · rw [h.others v hv]
      refine (hs.byUse v).imp fun {a b} hlt => ?_
      have hnot : ∀ j, wrap.isOf v j = false := fun j => isOf_eq_false fun hu => absurd hu.symm hv
      rw [lastUse_cons h.wraps, lastUse_cons h.wraps, hnot, hnot]
      exact hlt
  rotated := fun v j r hr => by
    rw [newest_cons h.wraps]
    rcases h.rotations v j r hr with ⟨hof, hwrap⟩ | ⟨hof, hold⟩
    · rw [if_pos hof, hwrap]
    · rw [if_neg (by simp [hof])]
      exact hs.rotated v j r hold

/-- A slot that a key was handed out for is not the one drawn next. -/
theorem Keyed.ne_fresh (hs : Keyed s) (h : s.newest u i = some wrap) : s.fresh ≠ i := by
  obtain ⟨hmem, -, hid⟩ := newest_isOf h
  have hlt := hs.drawn wrap hmem
  omega

end Wrapped

theorem exec_addUnlockSlot (hs : Keyed s) :
    (∃ e, load vault s = .error e ∧ exec (addUnlockSlot vault) s = (.error e, s)) ∨
      ∃ file t, load vault s = .ok file ∧ exec (addUnlockSlot vault) s = (.ok ⟨vault.subject, s.fresh, s.fresh + 1⟩, t) ∧
        Wrapped ⟨⟨vault.subject, s.fresh, s.fresh + 1⟩, none, s.now⟩ s t ∧
        t.slots vault.subject = withSlot file.unlockSlots ⟨s.fresh, s.fresh + 1⟩ := by
  unfold addUnlockSlot
  rw [exec_changeFile]
  cases hload : load vault s with
  | error e => exact .inl ⟨e, rfl, rfl⟩
  | ok file =>
    have hslots : s.slots vault.subject = file.unlockSlots := slots_eq (slots_of_load hload).1
    have hall : file.unlockSlots.filter (·.id ≠ s.fresh) = file.unlockSlots := by
      refine filter_eq_self.mpr fun slot hslot => ?_
      have hlt : slot.id < s.fresh := hs.slot_drawn (hslots ▸ hslot)
      have hne : slot.id ≠ s.fresh := by omega
      simpa using hne
    refine .inr ⟨file, _, rfl, rfl, ?_, ?_⟩
    · have hset : ∀ v, (s.setSlots vault.subject file (withSlot file.unlockSlots ⟨s.fresh, s.fresh + 1⟩)).slots v =
          if v = vault.subject then withSlot file.unlockSlots ⟨s.fresh, s.fresh + 1⟩ else s.slots v :=
        slots_setFile s vault.subject _
      have hself := (hset vault.subject).trans (if_pos rfl)
      refine ⟨rfl, rfl, Nat.le_add_right _ _, Nat.lt_add_of_pos_right (Nat.succ_pos 1), fun v hv => ?_, ?_, ?_, ?_⟩
      · exact (hset v).trans (if_neg hv)
      · show ((s.setSlots _ _ _).slots vault.subject).Sublist ((s.slots vault.subject).filter _ ++ _)
        rw [hself, hslots, hall]
        exact drop_sublist _ _
      · show ((s.setSlots _ _ _).slots vault.subject).length ≤ maxUnlockSlots
        rw [hself, withSlot, length_drop]
        omega
      · intro v j r hr
        exact .inr ⟨isOf_eq_false fun _ he => hs.ne_fresh (hs.rotated v j r hr) he, hr⟩
    · exact (slots_setFile s vault.subject _ vault.subject).trans (if_pos rfl)

theorem keeps_addUnlockSlot
    (hwrapped : ∀ {wrap s t}, Keyed s → P s → Wrapped wrap s t → wrap.unlock.slotId = s.fresh → P t) :
    Within (Preserving fun s => Keyed s ∧ P s) (addUnlockSlot vault) := by
  rintro s ⟨hs, hp⟩
  rcases exec_addUnlockSlot vault hs with ⟨e, -, he⟩ | ⟨file, t, -, he, h, -⟩
  · rw [he]
    exact ⟨hs, hp⟩
  · rw [he]
    exact ⟨hs.wrapped h, hwrapped hs hp h rfl⟩

theorem keyed_addUnlockSlot : Within (Preserving Keyed) (addUnlockSlot vault) :=
  fun s hs => (keeps_addUnlockSlot (P := fun _ => True) vault (fun _ _ _ _ => trivial) s ⟨hs, trivial⟩).1

variable {unlock : UnlockKey}

theorem opensSlotIn_mem {slots : List UnlockSlot} (h : unlock.opensSlotIn slots) :
    (⟨unlock.slotId, unlock.key⟩ : UnlockSlot) ∈ slots := by
  unfold UnlockKey.opensSlotIn at h
  split at h
  · next slot hfind =>
    have hid : slot.id = unlock.slotId := by simpa using find?_some hfind
    have hkey : slot.key = unlock.key := by simpa using h
    rw [← hid, ← hkey]
    exact mem_of_find?_eq_some hfind
  · cases h

theorem exec_rotateUnlockSlot (presented : UnlockKey) (s : State) :
    (∃ e, (∀ file, load vault s = .ok file → ¬ presented.opensSlotIn file.unlockSlots) ∧
      exec (rotateUnlockSlot vault presented) s = (.error e, s)) ∨
      ∃ file, load vault s = .ok file ∧ presented.opensSlotIn file.unlockSlots ∧
        exec (rotateUnlockSlot vault presented) s = (.ok ⟨vault.subject, presented.slotId, s.fresh⟩,
          { s.setSlots vault.subject file
              (file.unlockSlots.filter (·.id ≠ presented.slotId) ++ [⟨presented.slotId, s.fresh⟩]) with
            fresh := s.fresh + 1,
            wraps := ⟨⟨vault.subject, presented.slotId, s.fresh⟩, some presented, s.now⟩ :: s.wraps }) := by
  unfold rotateUnlockSlot
  rw [exec_changeFile]
  cases hload : load vault s with
  | error e => exact .inl ⟨e, fun _ h => (by cases h), rfl⟩
  | ok file =>
    dsimp only
    split
    · next hopens => exact .inr ⟨file, rfl, hopens, rfl⟩
    · next hopens =>
      refine .inl ⟨.locked, fun read h => ?_, rfl⟩
      cases h
      exact hopens

theorem exec_rotate {proven : SessionVault} (hsubject : proven.subject = unlock.subject) (hs : Keyed s) :
    (∃ e, exec (rotate cfg unlock proven) s = (.error e, s)) ∨
      ∃ file t, load proven s = .ok file ∧ unlock.opensSlotIn file.unlockSlots ∧
        exec (rotate cfg unlock proven) s = (.ok ⟨unlock.subject, unlock.slotId, s.fresh⟩, t) ∧
        Wrapped ⟨⟨unlock.subject, unlock.slotId, s.fresh⟩, some unlock, s.now⟩ s t ∧
        t.slots unlock.subject = file.unlockSlots.filter (·.id ≠ unlock.slotId) ++ [⟨unlock.slotId, s.fresh⟩] := by
  rcases exec_rotateUnlockSlot proven unlock s with ⟨e, -, he⟩ | ⟨file, hload, hopens, he⟩
  · exact .inl ⟨e, exec_bind_error he⟩
  have hslots : s.slots unlock.subject = file.unlockSlots := hsubject ▸ slots_eq (slots_of_load hload).1
  have hset : ∀ v, (s.setSlots unlock.subject file
      (file.unlockSlots.filter (·.id ≠ unlock.slotId) ++ [⟨unlock.slotId, s.fresh⟩])).slots v =
      if v = unlock.subject then file.unlockSlots.filter (·.id ≠ unlock.slotId) ++ [⟨unlock.slotId, s.fresh⟩]
      else s.slots v := slots_setFile s unlock.subject _
  have hself := (hset unlock.subject).trans (if_pos rfl)
  refine .inr ⟨file, _, hload, hopens, (exec_bind_ok he).trans (by rw [hsubject]; rfl), ?_, ?_⟩
  rotate_left
  · exact hself
  have hmem := opensSlotIn_mem hopens
  refine ⟨rfl, rfl, Nat.le_succ _, ?_, fun v hv => (hset v).trans (if_neg hv), ?_, ?_, ?_⟩
  · exact Nat.lt_succ_of_lt (hs.slot_drawn (hslots ▸ hmem))
  · show ((s.setSlots _ _ _).slots unlock.subject).Sublist ((s.slots unlock.subject).filter _ ++ _)
    rw [hself, hslots]
  · show ((s.setSlots _ _ _).slots unlock.subject).length ≤ maxUnlockSlots
    have hfew := hs.few unlock.subject
    have hlt : (file.unlockSlots.filter (·.id ≠ unlock.slotId)).length < file.unlockSlots.length :=
      length_filter_lt_length_iff_exists.mpr ⟨_, hmem, by simp⟩
    rw [hself, length_append, length_singleton]
    rw [hslots] at hfew
    omega
  · intro v j r hr
    have hof := isOf_eq ⟨⟨unlock.subject, unlock.slotId, s.fresh⟩, some unlock, s.now⟩ v j
    change (State.setRotation _ unlock.subject unlock.slotId _).rotations v j = some r at hr
    rw [rotations_setRotation] at hr
    split at hr
    · next hslot =>
      cases hr
      exact .inl ⟨hof.mpr ⟨hslot.1.symm, hslot.2.symm⟩, rfl⟩
    · next hslot =>
      refine .inr ⟨?_, (Option.filter_eq_some_iff.mp hr).1⟩
      exact isOf_eq_false fun hu hi => hslot ⟨hu.symm, hi.symm⟩

theorem keeps_rotate (hwrapped : ∀ {wrap s t}, Keyed s → P s → Wrapped wrap s t →
      (∃ key, ⟨wrap.unlock.slotId, key⟩ ∈ s.slots wrap.unlock.subject) → P t)
    (hsubject : proven.subject = unlock.subject) :
    Within (Preserving fun s => Keyed s ∧ P s) (rotate cfg unlock proven) := by
  rintro s ⟨hs, hp⟩
  rcases @exec_rotate s cfg unlock proven hsubject hs with ⟨e, he⟩ | ⟨file, t, hload, hopens, he, h, -⟩
  · rw [he]
    exact ⟨hs, hp⟩
  · have hslots : s.slots unlock.subject = file.unlockSlots := hsubject ▸ slots_eq (slots_of_load hload).1
    rw [he]
    exact ⟨hs.wrapped h, hwrapped hs hp h ⟨unlock.key, hslots ▸ opensSlotIn_mem hopens⟩⟩

/-! ## Whole sections -/

section Sections

/-! What the calm parts do, and handing out a key and opening a vault, the sections do; they hand out one key. -/

variable {Q R : State → State → Prop} (hcalm : ∀ s t, Calm s t → Q s t)
include hcalm

theorem within_of_calm {m : Part α} (h : Within Calm m) : Within Q m := fun s => hcalm s _ (h s)

variable [IsTrans State Q] [Std.Refl Q]

theorem within_answerSuccessor (hregister : ∀ vault s, Q s (register u vault s)) (rotation : Rotation) :
    Within Q (answerSuccessor cfg u rotation) := by
  refine within_bind (within_of_calm hcalm (within_modifyGet fun _ => calm_useOpen)) fun looked => ?_
  split
  · exact within_pure _
  · exact within_bind within_get fun s => within_bind (within_check _) fun vault =>
      within_bind (within_modify (hregister vault)) fun _ => within_pure _

variable [Std.Refl R] [Trans Q R R] [Trans R Q R] (hadd : ∀ vault, Within R (addUnlockSlot vault))
include hadd

theorem within_signIn (u : String) (record : Option CredentialRecord) : Within R (signIn cfg u record) := by
  have hhold : ∀ signIn, Within Q (holdSignIn cfg u record signIn) :=
    fun signIn => within_of_calm hcalm (calm_holdSignIn u record signIn)
  refine within_after (within_of_calm hcalm (within_modifyGet calm_nextSignIn)) fun number => ?_
  refine within_after (within_of_calm hcalm (within_modifyGet fun _ => calm_useOpen)) fun looked => ?_
  split
  · exact within_weaken (hhold number)
  · next handle =>
    have hsealed : Within R (do sealSignIn handle.vault record number; addUnlockSlot handle.vault) :=
      within_after (within_of_calm hcalm (calm_sealSignIn handle.vault record number)) fun _ => hadd handle.vault
    refine within_before (Q := Q) (within_outcome hsealed) fun answered => ?_
    split
    · exact within_pure _
    · exact within_bind (within_of_calm hcalm (within_modify fun _ => calm_close)) fun _ => hhold number
    · exact within_throw _

variable (hregister : ∀ vault s, Q s (register u vault s))
include hregister

theorem within_admitVault (vault : SessionVault) : Within R (admitVault cfg u vault) :=
  within_after (within_of_calm hcalm (calm_sealPending u vault)) fun _ =>
    within_before (hadd vault) fun _ => within_bind (within_modify (hregister vault)) fun _ => within_pure _

variable {passphrase : String}

theorem within_create (hcreate : Within Q (createStore u passphrase)) : Within R (create cfg u passphrase) :=
  within_after (within_of_calm hcalm calm_requireAFreshLogin) fun _ =>
    within_after hcreate fun vault => within_admitVault hcalm hadd hregister vault

theorem within_resetVaultFile (hcreate : ∀ s, Q s (createFile u passphrase s).2) :
    Within R (resetVaultFile cfg u passphrase) := by
  refine within_after (within_of_calm hcalm (within_modifyGet fun _ => calm_getOpen)) fun looked => ?_
  split
  · exact within_throw _
  refine within_after (within_of_calm hcalm calm_requireAFreshLogin) fun _ => ?_
  have hreset : Within Q (resetStore u passphrase) := by
    refine within_bind within_get fun s => ?_
    have hcreated : Within Q (modifyGet (createFile u passphrase) : Part SessionVault) := within_modifyGet hcreate
    split
    · exact within_bind hcreated fun _ => within_pure _
    split
    · exact within_throw _
    · refine within_bind (within_modify fun s => hcalm s _ calm_countSetAside) fun _ => ?_
      exact within_bind hcreated fun _ => within_pure _
  refine within_after hreset fun vault => ?_
  refine within_before (Q := Q) (within_admitVault hcalm hadd hregister vault.1) fun unlock => ?_
  exact within_bind (within_of_calm hcalm (within_modify fun s => calm_setResetVault u _ s)) fun _ => within_pure _

end Sections

end TddyCoder.Vaults
