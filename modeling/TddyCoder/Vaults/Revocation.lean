/-
  TddyCoder.Vaults.Revocation — what opens a vault, over every sequence of calls, restarts and
  clock steps (`packages/tddy-credentials/src/sessions.rs`, `vault/unlock.rs`).

  A call opens a vault with a secret that is still good (`LiveSecret`): the passphrase, the
  newest key of a slot still in the file, the key before it while it is honoured, or a recent
  sign-in for a vault to be made. A slot that left the file does not come back, and so no key to
  it opens the vault again.

  Proved: `only_a_live_secret_opens_a_vault`.
-/

import TddyCoder.Vaults.Calls

namespace TddyCoder.Vaults

open Prog List

variable {cfg : Config} {s t : State} {u v passphrase : String} {vault : SessionVault} {unlock : UnlockKey} {op : Op}

def State.slotIds (s : State) (u : String) : List Nat := (s.slots u).map (·.id)

/-- The call presents a secret that is good for the vault of `u`. -/
inductive LiveSecret (cfg : Config) (s : State) (u : String) : Op → Prop
  | passphrase (file : VaultFile) : s.file u = some file → LiveSecret cfg s u (.unlock u file.passphrase)
  | newestKey (key : UnlockKey) (wrap : Wrap) : key.slotId ∈ s.slotIds u → s.newest u key.slotId = some wrap →
      wrap.unlock = key → LiveSecret cfg s u (.reopen key)
  | retiredKey (key : UnlockKey) (wrap : Wrap) : key.slotId ∈ s.slotIds u → s.newest u key.slotId = some wrap →
      wrap.retired = some key → s.now - wrap.wrappedAt < cfg.rotationGrace → LiveSecret cfg s u (.reopen key)
  | create (passphrase : String) : s.awaiting cfg u ≠ [] → LiveSecret cfg s u (.create u passphrase)
  | reset (passphrase : String) : s.awaiting cfg u ≠ [] → LiveSecret cfg s u (.reset u passphrase)

/-! ## What opens a vault -/

theorem unopened_of_calm (v : String) (s t : State) (h : Calm s t) : Unopened v s t := h.unopened v

theorem unopened_addUnlockSlot (v : String) (vault : SessionVault) : Within (Unopened v) (addUnlockSlot vault) :=
  within_changeFile fun _ _ _ => unopened_of_same rfl v

theorem unopened_rotate (v : String) (unlock : UnlockKey) (proven : SessionVault) :
    Within (Unopened v) (rotate cfg unlock proven) :=
  within_rotate (fun _ _ _ _ _ _ => unopened_of_same rfl v) fun _ _ => unopened_of_same rfl v

theorem unopened_of_other (h : op.subject ≠ some v) : Unopened v s (step cfg s op) := by
  refine within_step (unopened_of_calm v) (unopened_addUnlockSlot v) op (fun u hu => unopened_register fun he => ?_)
    (fun _ _ _ => unopened_of_same rfl v) (fun _ _ => within_changeFile fun _ _ _ => unopened_of_same rfl v)
    (fun unlock _ => unopened_rotate v unlock _) s
  exact h (he ▸ hu)

theorem opened_by_unlock (h : ¬ Unopened u s (step cfg s (.unlock u passphrase))) :
    LiveSecret cfg s u (.unlock u passphrase) := by
  cases hopen : openWithPassphrase u passphrase s with
  | ok vault =>
    unfold openWithPassphrase at hopen
    split at hopen
    · cases hopen
    · next file hfile =>
      split at hopen
      · next hpass => exact hpass ▸ .passphrase file hfile
      · cases hopen
  | error e =>
    refine absurd ?_ h
    have hcheck : exec (check (openWithPassphrase u passphrase s) : Part SessionVault) s = (.error e, s) := by
      rw [exec_check, hopen]
    show Unopened u s (exec (unlock cfg u passphrase) s).2
    unfold unlock
    rw [exec_bind_ok (exec_get s), exec_bind_error hcheck]
    exact unopened_refl u s

theorem opened_by_create (h : ¬ Unopened u s (step cfg s (.create u passphrase))) :
    LiveSecret cfg s u (.create u passphrase) := by
  refine .create passphrase fun hnone => h ?_
  have hrefused : exec (requireAFreshLogin cfg u) s = (.error .noFreshLogin, dropExpired cfg s) := by
    rw [exec_requireAFreshLogin, hnone]
    rfl
  show Unopened u s (exec (create cfg u passphrase) s).2
  unfold create
  rw [exec_bind_error hrefused]
  exact unopened_of_same rfl u

theorem opened_by_reset (h : ¬ Unopened u s (step cfg s (.reset u passphrase))) :
    LiveSecret cfg s u (.reset u passphrase) := by
  refine .reset passphrase fun hnone => h ?_
  have hlooked := looked cfg u false s
  have hrefused : ∃ e t, exec (resetVaultFile cfg u passphrase) s = (.error e, t) ∧ Calm s t := by
    unfold resetVaultFile
    rw [exec_bind_ok (exec_modifyGet ..)]
    have hcalm : Calm s (getOpen cfg u s).2 := calm_getOpen
    cases hfound : (getOpen cfg u s).1 with
    | some handle => exact ⟨_, _, rfl, hcalm⟩
    | none =>
      have hsame : (getOpen cfg u s).2.awaiting cfg u = s.awaiting cfg u := awaiting_looked hlooked u
      refine ⟨.noFreshLogin, dropExpired cfg (getOpen cfg u s).2, exec_bind_error ?_, hcalm.trans ?_⟩
      · rw [exec_requireAFreshLogin, hsame, hnone]
        rfl
      · exact calm_of_same rfl rfl rfl (Nat.le_refl _) rfl
  obtain ⟨e, t, he, hcalm⟩ := hrefused
  show Unopened u s (exec (reset cfg u passphrase) s).2
  unfold reset
  rw [exec_bind_error he]
  exact hcalm.unopened u

theorem Keyed.newest_of_opens (hs : Keyed s)
    (h : openWithUnlockKey unlock s = .ok vault) :
    unlock.slotId ∈ s.slotIds unlock.subject ∧
      ∃ wrap, s.newest unlock.subject unlock.slotId = some wrap ∧ wrap.unlock = unlock := by
  obtain ⟨file, hfile, hopens, -⟩ := openWithUnlockKey_ok h
  have hmem : (⟨unlock.slotId, unlock.key⟩ : UnlockSlot) ∈ s.slots unlock.subject := by
    rw [slots_eq hfile]
    exact opensSlotIn_mem hopens
  obtain ⟨wrap, hnewest, hkey⟩ := hs.newest unlock.subject _ hmem
  obtain ⟨-, hsubject, hslot⟩ := newest_isOf hnewest
  refine ⟨mem_map_of_mem hmem, wrap, hnewest, ?_⟩
  obtain ⟨⟨subject, slotId, key⟩, retired, wrappedAt⟩ := wrap
  cases hsubject
  cases hslot
  cases hkey
  rfl

theorem live_of_answered (hs : Keyed s) {rotation : Rotation}
    (hgrace : graceRotation cfg unlock s = some rotation)
    (h : ¬ Unopened unlock.subject s (exec (answerSuccessor cfg unlock.subject rotation) s).2) :
    LiveSecret cfg s unlock.subject (.reopen unlock) := by
  obtain ⟨hheld, hnow, hretired⟩ := graceRotation_some hgrace
  have hnewest := hs.rotated _ _ _ hheld
  obtain ⟨-, hsubject, hslot⟩ := newest_isOf hnewest
  have hcalm : Calm s (useOpen cfg unlock.subject s).2 := calm_useOpen
  rw [exec_answerSuccessor] at h
  split at h
  · exact absurd (hcalm.unopened _) h
  split at h
  · next vault hopen =>
    obtain ⟨hthere, -⟩ := (hs.calm hcalm).newest_of_opens hopen
    unfold State.slotIds at hthere
    rw [hcalm.sameSlots, hsubject, hslot] at hthere
    exact .retiredKey unlock _ hthere hnewest (congrArg some hretired) hnow
  · exact absurd (hcalm.unopened _) h

theorem opened_by_reopen (hs : Keyed s) (h : ¬ Unopened unlock.subject s (step cfg s (.reopen unlock))) :
    LiveSecret cfg s unlock.subject (.reopen unlock) := by
  change ¬ Unopened unlock.subject s (exec (reopen cfg unlock) s).2 at h
  unfold reopen at h
  rw [exec_bind_ok (exec_get s)] at h
  cases hopen : openWithUnlockKey unlock s with
  | ok proven =>
    obtain ⟨hslot, wrap, hnewest, hkey⟩ := hs.newest_of_opens hopen
    exact .newestKey unlock wrap hslot hnewest hkey
  | error e =>
    rw [hopen] at h
    cases e with
    | locked =>
      rw [show exec _ s = _ from exec_bind_ok (exec_get s)] at h
      cases hgrace : graceRotation cfg unlock s with
      | none =>
        rw [hgrace] at h
        exact absurd (unopened_refl _ s) h
      | some rotation =>
        rw [hgrace] at h
        exact live_of_answered hs hgrace h
    | _ => exact absurd (unopened_refl _ s) h

theorem live_of_opened (hs : Keyed s) (h : ¬ Unopened v s (step cfg s op)) : LiveSecret cfg s v op := by
  have hsubject : op.subject = some v := by
    by_contra hother
    exact h (unopened_of_other hother)
  cases op with
  | retain u record => exact absurd (within_signIn (unopened_of_calm v) (unopened_addUnlockSlot v) u (some record) s) h
  | signInWithoutCredential u => exact absurd (within_signIn (unopened_of_calm v) (unopened_addUnlockSlot v) u none s) h
  | unlock u passphrase =>
    cases hsubject
    exact opened_by_unlock h
  | create u passphrase =>
    cases hsubject
    exact opened_by_create h
  | reset u passphrase =>
    cases hsubject
    exact opened_by_reset h
  | reopen key =>
    cases hsubject
    exact opened_by_reopen hs h
  | forget key =>
    exact absurd (within_forget (unopened_of_calm v) (fun _ => within_changeFile fun _ _ _ => unopened_of_same rfl v) s) h
  | event event => cases hsubject

/-! ## Slots that left the file -/

/-- A key to the slot was handed out, and the slot is not in the file. -/
structure Gone (u : String) (i : Nat) (s : State) : Prop where
  issued : (s.newest u i).isSome
  out : i ∉ s.slotIds u

variable {i : Nat} {slot : UnlockSlot}

theorem Gone.fewer (hg : Gone u i s) (h : Fewer s t) : Gone u i t where
  issued := by
    rw [h.newest]
    exact hg.issued
  out := fun hmem => hg.out (((h.slots u).map _).subset hmem)

theorem Gone.wrapped {wrap : Wrap} (hg : Gone u i s) (h : Wrapped wrap s t) (hother : wrap.isOf u i = false) :
    Gone u i t where
  issued := by
    rw [newest_cons h.wraps, hother]
    exact hg.issued
  out := fun hmem => by
    obtain ⟨slot, hslot, rfl⟩ := mem_map.mp hmem
    rcases h.slot hslot with ⟨hof, -⟩ | ⟨-, hold⟩
    · rw [hother] at hof
      cases hof
    · exact hg.out (mem_map_of_mem hold)

theorem Gone.ne_fresh (hs : Keyed s) (hg : Gone u i s) : s.fresh ≠ i := by
  obtain ⟨wrap, hnewest⟩ := Option.isSome_iff_exists.mp hg.issued
  exact hs.ne_fresh hnewest

theorem gone_run (hs : Keyed s) (hg : Gone u i s) (ops : List Op) :
    Keyed (ops.foldl (step cfg) s) ∧ Gone u i (ops.foldl (step cfg) s) := by
  refine keeps_run (fun hg h => hg.fewer h) (fun hs hg h hslot => hg.wrapped h (isOf_eq_false fun hu hi => ?_)) hs hg ops
  rcases hslot with hfresh | ⟨key, hmem⟩
  · exact hg.ne_fresh hs (hfresh.symm.trans hi)
  · rw [hu, hi] at hmem
    exact hg.out (mem_map_of_mem hmem)

theorem issued_run (hs : Keyed s) (hissued : (s.newest u i).isSome) (ops : List Op) :
    ((ops.foldl (step cfg) s).newest u i).isSome := by
  refine (keeps_run (P := fun s => (s.newest u i).isSome) (fun hissued h => ?_) (fun _ hissued h _ => ?_) hs hissued ops).2
  · rw [h.newest]
    exact hissued
  rw [newest_cons h.wraps]
  split
  · rfl
  · exact hissued

/-! ## How a slot leaves the file -/

variable (u)

def SameAt (s t : State) : Prop := t.slots u = s.slots u

instance : IsTrans State (SameAt u) := ⟨fun _ _ _ h h' => h'.trans h⟩

instance : Std.Refl (SameAt u) := ⟨fun _ => rfl⟩

/-- At most one slot is added. -/
def Admits (s t : State) : Prop := t.slots u = s.slots u ∨ ∃ slot, t.slots u = withSlot (s.slots u) slot

instance : Std.Refl (Admits u) := ⟨fun _ => Or.inl rfl⟩

theorem sameAt_of_calm (s t : State) (h : Calm s t) : SameAt u s t := congrFun h.sameSlots u

instance : Trans (SameAt u) (Admits u) (Admits u) := ⟨fun h h' => by
  rwa [Admits, show _ = _ from h] at h'⟩

instance : Trans (Admits u) (SameAt u) (Admits u) := ⟨fun h h' => by
  rwa [Admits, show _ = _ from h']⟩

theorem admits_addUnlockSlot (vault : SessionVault) : Within (Admits u) (addUnlockSlot vault) := by
  refine within_changeFile fun file s hfile => ?_
  have hset : ∀ slots, (s.setSlots vault.subject file slots).slots u = if u = vault.subject then slots else s.slots u :=
    fun slots => slots_setFile s vault.subject _ u
  by_cases hu : u = vault.subject
  · refine .inr ⟨⟨s.fresh, s.fresh + 1⟩, ((hset _).trans (if_pos hu)).trans ?_⟩
    rw [hu, slots_eq hfile]
  · exact .inl ((hset _).trans (if_neg hu))

/-- Where there is no file there are no slots, so a file is made without a slot leaving. -/
theorem sameAt_createStore (v passphrase : String) : Within (SameAt u) (createStore v passphrase) := by
  intro s
  unfold createStore
  rw [exec_bind_ok (exec_get s)]
  cases hfile : s.file v with
  | some file => exact refl_of (SameAt u) s
  | none =>
    refine (slots_setFile s v _ u).trans ?_
    split
    · next hu =>
      subst hu
      unfold State.slots
      rw [hfile]
    · rfl

/-- How the slot comes to leave the file. -/
inductive Leaves (s : State) (u : String) (slot : UnlockSlot) : Op → Prop
  | forgotten (key : UnlockKey) : key.subject = u → key.slotId = slot.id → Leaves s u slot (.forget key)
  | setAside (passphrase : String) : Leaves s u slot (.reset u passphrase)
  | evicted (op : Op) : (s.slots u).length = maxUnlockSlots →
      (∀ other ∈ s.slots u, other.id ≠ slot.id → s.lastUse u slot.id < s.lastUse u other.id) → Leaves s u slot op

variable {u}

theorem evicted_of_admits (hs : Keyed s) (hslot : slot ∈ s.slots u) (h : Admits u s t)
    (hout : slot.id ∉ t.slotIds u) : (s.slots u).length = maxUnlockSlots ∧
      ∀ other ∈ s.slots u, other.id ≠ slot.id → s.lastUse u slot.id < s.lastUse u other.id := by
  rcases h with hsame | ⟨new, hnew⟩
  · refine absurd ?_ hout
    unfold State.slotIds
    rw [hsame]
    exact mem_map_of_mem hslot
  have hfew := hs.few u
  have hgone : slot ∉ t.slots u := fun hmem => hout (mem_map_of_mem hmem)
  rw [hnew] at hgone
  unfold withSlot at hgone
  rw [length_append, length_singleton] at hgone
  have hfull : (s.slots u).length = maxUnlockSlots := by
    by_contra hne
    have hzero : (s.slots u).length + 1 - maxUnlockSlots = 0 := by omega
    rw [hzero, drop_zero] at hgone
    exact hgone (mem_append_left _ hslot)
  refine ⟨hfull, ?_⟩
  have hone : (s.slots u).length + 1 - maxUnlockSlots = 1 := by omega
  rw [hone] at hgone
  have horder := hs.byUse u
  cases hslots : s.slots u with
  | nil =>
    rw [hslots] at hslot
    cases hslot
  | cons head rest =>
    rw [hslots] at hslot hgone horder
    -- The slot that went is the first.
    have hhead : slot = head := by
      rcases mem_cons.mp hslot with rfl | hrest
      · rfl
      · exact absurd (mem_append_left _ hrest) hgone
    subst hhead
    intro other hother hne
    rcases mem_cons.mp hother with rfl | hrest
    · exact absurd rfl hne
    · exact (pairwise_cons.mp horder).1 other hrest

abbrev Kept (u : String) (i : Nat) : State → State → Prop := Preserving fun s => i ∈ s.slotIds u

theorem kept_of_same (h : SameAt u s t) : Kept u i s t := by
  intro hmem
  unfold State.slotIds
  rw [h]
  exact hmem

theorem kept_rotate (unlock : UnlockKey) (proven : SessionVault) : Within (Kept u i) (rotate cfg unlock proven) := by
  have hrotated : Within (Kept u i) (rotateUnlockSlot proven unlock) := by
    intro s hmem
    rcases exec_rotateUnlockSlot proven unlock s with ⟨e, -, he⟩ | ⟨file, hload, -, he⟩
    · rw [he]
      exact hmem
    rw [he]
    have hset := slots_setFile s proven.subject
      { file with unlockSlots := file.unlockSlots.filter (·.id ≠ unlock.slotId) ++ [⟨unlock.slotId, s.fresh⟩] } u
    show i ∈ ((s.setSlots proven.subject file _).slots u).map (·.id)
    obtain ⟨slot, hslot, rfl⟩ := mem_map.mp hmem
    unfold State.setSlots
    rw [hset]
    split
    · next hu =>
      subst hu
      rw [slots_eq (slots_of_load hload).1] at hslot
      rw [map_append]
      by_cases hid : slot.id = unlock.slotId
      · exact mem_append_right _ (by simp [hid])
      · exact mem_append_left _ (mem_map_of_mem (mem_filter.mpr ⟨hslot, by simpa using hid⟩))
    · exact hmem
  exact within_bind hrotated fun _ => within_bind (within_modify fun _ => kept_of_same rfl) fun _ => within_pure _

theorem kept_removeUnlockSlot {slotId : Nat} (h : ¬ (vault.subject = u ∧ slotId = i)) :
    Within (Kept u i) (removeUnlockSlot vault slotId) := by
  refine within_changeFile fun file s hfile hmem => ?_
  have hset := slots_setFile s vault.subject { file with unlockSlots := file.unlockSlots.filter (·.id ≠ slotId) } u
  show i ∈ ((s.setFile vault.subject _).slots u).map (·.id)
  obtain ⟨slot, hslot, rfl⟩ := mem_map.mp hmem
  rw [hset]
  split
  · next hu =>
    subst hu
    rw [slots_eq hfile] at hslot
    have hid : slot.id ≠ slotId := fun he => h ⟨rfl, he.symm⟩
    exact mem_map_of_mem (mem_filter.mpr ⟨hslot, by simpa using hid⟩)
  · exact hmem

theorem leaves_of_out (hs : Keyed s) (hslot : slot ∈ s.slots u)
    (hout : slot.id ∉ (step cfg s op).slotIds u) : Leaves s u slot op := by
  have hthere : slot.id ∈ s.slotIds u := mem_map_of_mem hslot
  have hsame := sameAt_of_calm u
  have hadd := admits_addUnlockSlot u
  have hregister : ∀ v vault s, SameAt u s (register v vault s) := fun _ _ _ => rfl
  have hcalm : ∀ s t, Calm s t → Kept u slot.id s t := fun s t h => kept_of_same (hsame s t h)
  have hevicted : Admits u s (step cfg s op) → Leaves s u slot op := by
    intro hadmits
    obtain ⟨hfull, hleast⟩ := evicted_of_admits hs hslot hadmits hout
    exact .evicted op hfull hleast
  cases op with
  | retain v record => exact hevicted (within_signIn hsame hadd v (some record) s)
  | signInWithoutCredential v => exact hevicted (within_signIn hsame hadd v none s)
  | unlock v passphrase => exact hevicted (within_unlock hsame hadd (hregister v) passphrase s)
  | create v passphrase => exact hevicted (within_create hsame hadd (hregister v) (sameAt_createStore u v passphrase) s)
  | reset v passphrase =>
    by_cases hv : u = v
    · subst hv
      exact .setAside passphrase
    · exact hevicted (within_reset hsame hadd (hregister v) (fun s => (slots_setFile s v _ u).trans (if_neg hv)) s)
  | reopen key =>
    exact absurd (within_reopen hcalm (fun _ _ => kept_of_same rfl) (fun _ => kept_rotate key _) s hthere) hout
  | forget key =>
    by_cases hkey : key.subject = u ∧ key.slotId = slot.id
    · exact .forgotten key hkey.1 hkey.2
    · exact absurd (within_forget hcalm (fun _ => kept_removeUnlockSlot hkey) s hthere) hout
  | event event => exact absurd (hcalm s _ (calm_happen s event) hthere) hout

/-! ## A slot that is to leave does -/

theorem gone_admitVault (vault : SessionVault) :
    Within (Preserving fun s => Keyed s ∧ Gone u i s) (admitVault cfg v vault) := by
  have hpart : ∀ {s t}, Fewer s t → Preserving (fun s => Keyed s ∧ Gone u i s) s t :=
    fun h hs => ⟨hs.1.fewer h, hs.2.fewer h⟩
  refine within_admitVault (fun _ _ h => hpart h.toFewer) (fun vault => ?_) (fun _ _ => hpart (fewer_register _)) vault
  exact keeps_addUnlockSlot vault fun hs hg h hfresh =>
    hg.wrapped h (isOf_eq_false fun _ hi => hg.ne_fresh hs (hfresh.symm.trans hi))

/-- The file a reset makes has none of the slots of the one set aside. -/
theorem out_of_reset (hs : Keyed s) (hthere : i ∈ s.slotIds u) :
    Answers (reset cfg u passphrase) s fun _ t => i ∉ t.slotIds u := by
  refine answers_bind (R := fun _ t => i ∉ t.slotIds u) (fun answer t he => ?_) (fun _ t hout => ?_)
  · rcases exec_resetVaultFile cfg u passphrase s with ⟨e, t', -, he'⟩ | ⟨before, setAside, -, hbefore, he'⟩
    · cases he'.symm.trans he
    have hcalm : Calm s before := by
      have hopen : Calm s (dropExpired cfg (getOpen cfg u s).2) := calm_getOpen.trans (calm_of_same rfl rfl rfl (Nat.le_refl _) rfl)
      rcases hbefore with rfl | rfl
      · exact hopen
      · exact hopen.trans calm_countSetAside
    obtain ⟨slot, hslot, rfl⟩ := mem_map.mp hthere
    obtain ⟨wrap, hnewest, -⟩ := hs.newest u slot hslot
    have hfewer := hcalm.toFewer.trans (fewer_createFile u passphrase before)
    have hgone : Gone u slot.id (createFile u passphrase before).2 := by
      refine ⟨by rw [hfewer.newest, hnewest]; rfl, fun hmem => ?_⟩
      have hempty : (createFile u passphrase before).2.slots u = [] :=
        (slots_setFile before u _ u).trans (if_pos rfl)
      unfold State.slotIds at hmem
      rw [hempty] at hmem
      cases hmem
    have hadmitted := @gone_admitVault cfg u u slot.id (createFile u passphrase before).1 _ ⟨hs.fewer hfewer, hgone⟩
    rw [he'] at he
    rcases hw : exec (admitVault cfg u (createFile u passphrase before).1) (createFile u passphrase before).2 with ⟨r, w⟩
    rw [hw] at he hadmitted
    cases r with
    | error e => cases he
    | ok key =>
      cases he
      exact hadmitted.2.out
  · intro answer t' he
    cases he
    exact hout

theorem out_of_removeUnlockSlot (vault : SessionVault) (slotId : Nat) (s : State) :
    Answers (removeUnlockSlot vault slotId) s fun _ t => slotId ∉ t.slotIds vault.subject := by
  intro _ t he
  unfold removeUnlockSlot changeFile at he
  rw [exec_bind_ok (exec_get s)] at he
  cases hload : load vault s with
  | error e =>
    rw [exec_bind_error (by rw [exec_check, hload])] at he
    cases he
  | ok file =>
    rw [exec_bind_ok (by rw [exec_check, hload])] at he
    cases he
    intro hmem
    obtain ⟨slot, hslot, rfl⟩ := mem_map.mp hmem
    have hset : ∀ slots, (s.setSlots vault.subject file slots).slots vault.subject = slots :=
      fun slots => (slots_setFile s vault.subject _ vault.subject).trans (if_pos rfl)
    rw [hset] at hslot
    simpa using (mem_filter.mp hslot).2

/-! ## The last slot -/

theorem closed_by_closeUnused (hsubject : vault.subject = u)
    (hok : exec (closeUnused u vault) s = (.ok (), t)) (hlast : t.slots u = []) : t.handles u = none := by
  rw [exec_closeUnused] at hok
  cases hload : load vault s with
  | error e =>
    rw [hload] at hok
    cases hok
  | ok file =>
    rw [hload] at hok
    injection hok with _ hstate
    have hslots : s.slots u = file.unlockSlots := hsubject ▸ slots_eq (slots_of_load hload).1
    have hempty : file.unlockSlots.isEmpty := by
      by_contra hne
      rw [if_neg hne] at hstate
      rw [← hstate, hslots] at hlast
      exact hne (by rw [hlast]; rfl)
    rw [if_pos hempty] at hstate
    rw [← hstate]
    exact handles_setHandle_self

theorem forgotten (unlock : UnlockKey) (s : State) :
    Answers (forget unlock) s fun _ t => unlock.slotId ∉ t.slotIds unlock.subject ∧
      (t.slots unlock.subject = [] → t.handles unlock.subject = none) := by
  have hread : Answers (check (openWithUnlockKey unlock s) : Part SessionVault) s
      fun vault _ => vault.subject = unlock.subject := by
    intro vault t he
    injection he with hopen _
    obtain ⟨file, -, -, rfl⟩ := openWithUnlockKey_ok hopen
    rfl
  refine answers_bind (R := fun read t => read = s ∧ t = s) ?_ ?_
  · intro read t he
    cases he
    exact ⟨rfl, rfl⟩
  rintro _ _ ⟨rfl, rfl⟩
  refine answers_bind hread fun vault s hsubject => ?_
  refine answers_bind (out_of_removeUnlockSlot vault unlock.slotId s) fun _ s hout => ?_
  refine answers_bind (R := fun _ t => unlock.slotId ∉ t.slotIds vault.subject) ?_ fun _ s hout => ?_
  · intro _ t he
    cases he
    exact hout
  intro _ t hok
  refine ⟨?_, closed_by_closeUnused hsubject hok⟩
  have hsame := sameAt_of_calm unlock.subject _ _ (calm_closeUnused unlock.subject vault s)
  rw [hok] at hsame
  unfold State.slotIds at hout ⊢
  rwa [hsame, ← hsubject]

/-! ## All of it, over every run -/

theorem only_a_live_secret_opens_a_vault (cfg : Config) (ops : List Op) :
    (∀ op u, ¬ Unopened u (run cfg ops) (step cfg (run cfg ops) op) → LiveSecret cfg (run cfg ops) u op) ∧
    (∀ before after, ops = before ++ after → ∀ u i, i ∈ (run cfg before).slotIds u → i ∉ (run cfg ops).slotIds u →
      ∀ more unlock, unlock.slotId = i →
        i ∉ (run cfg (ops ++ more)).slotIds u ∧
          Unopened u (run cfg (ops ++ more)) (step cfg (run cfg (ops ++ more)) (.reopen unlock))) ∧
    (∀ u, ((run cfg ops).slots u).length ≤ maxUnlockSlots) ∧
    (∀ op u, ∀ slot ∈ (run cfg ops).slots u, slot.id ∉ (step cfg (run cfg ops) op).slotIds u →
      Leaves (run cfg ops) u slot op) ∧
    (∀ u passphrase answer t, exec (reset cfg u passphrase) (run cfg ops) = (.ok answer, t) →
      ∀ i ∈ (run cfg ops).slotIds u, i ∉ t.slotIds u) ∧
    ∀ unlock t, exec (forget unlock) (run cfg ops) = (.ok (), t) →
      unlock.slotId ∉ t.slotIds unlock.subject ∧
        (t.slots unlock.subject = [] → t.handles unlock.subject = none) := by
  have hs := keyed_run cfg ops
  refine ⟨fun op u h => live_of_opened hs h, ?_, hs.few, fun op u slot hslot hout => leaves_of_out hs hslot hout,
    fun u passphrase answer t hok i hi => out_of_reset hs hi answer t hok,
    fun unlock t hok => forgotten unlock _ () t hok⟩
  rintro before after rfl u i hthere hout more unlock hslot
  obtain ⟨slot, hmem, rfl⟩ := mem_map.mp hthere
  obtain ⟨wrap, hnewest, -⟩ := (keyed_run cfg before).newest u slot hmem
  have hissued : ((run cfg (before ++ after)).newest u slot.id).isSome := by
    unfold run
    rw [foldl_append]
    exact issued_run (keyed_run cfg before) (by rw [hnewest]; rfl) after
  have hlater : Keyed (more.foldl (step cfg) (run cfg (before ++ after))) ∧
      Gone u slot.id (more.foldl (step cfg) (run cfg (before ++ after))) := gone_run hs ⟨hissued, hout⟩ more
  have hrun : run cfg (before ++ after ++ more) = more.foldl (step cfg) (run cfg (before ++ after)) := foldl_append
  rw [hrun]
  refine ⟨hlater.2.out, ?_⟩
  by_contra hopened
  have hlive := live_of_opened hlater.1 hopened
  cases hlive with
  | newestKey key wrap hthere _ _ | retiredKey key wrap hthere _ _ _ => exact hlater.2.out (hslot ▸ hthere)

/-- After a restart the key handed out at the creation opens the vault, and is the newest of its slot. -/
theorem the_creator_reopens_after_a_restart :
    let cfg : Config := ⟨30, some 600, none⟩
    let ops : List Op := [.signInWithoutCredential "ada", .create "ada" "first words", .event .restart]
    LiveSecret cfg (run cfg ops) "ada" (.reopen ⟨"ada", 1, 2⟩) := by
  intro cfg ops
  have hopened : ((step cfg (run cfg ops) (.reopen ⟨"ada", 1, 2⟩)).handles "ada").isSome := rfl
  refine (only_a_live_secret_opens_a_vault cfg ops).1 _ "ada" fun hun => ?_
  obtain ⟨handle, hhandle⟩ := Option.isSome_iff_exists.mp hopened
  obtain ⟨held, hheld, -⟩ := hun handle hhandle
  cases hheld

end TddyCoder.Vaults
