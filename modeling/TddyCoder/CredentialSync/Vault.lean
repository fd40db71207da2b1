/-
  TddyCoder.CredentialSync.Vault — what one daemon keeps of a person's credentials
  (`packages/tddy-credentials/src/record.rs`, `vault.rs`).

  A slot is a provider and an account. It holds a record, or a tombstone that says the record is
  gone. Every change of a slot replaces what it held, so a vault has one entry a slot; the
  sealing of the file that keeps them is left out.
-/

import Mathlib.Data.List.Sort
import Mathlib.Data.String.Basic

namespace TddyCoder.CredentialSync

open List

structure CredentialRecord where
  provider : String
  account : String
  label : String
  secret : String
  metadata : List (String × String)
  updatedAt : Nat
  version : Nat
  deriving DecidableEq

structure Tombstone where
  provider : String
  account : String
  version : Nat
  deletedAt : Nat
  deriving DecidableEq

inductive VaultEntry
  | record (record : CredentialRecord)
  | tombstone (tombstone : Tombstone)
  deriving DecidableEq

namespace VaultEntry

def provider : VaultEntry → String
  | record r => r.provider
  | tombstone t => t.provider

def account : VaultEntry → String
  | record r => r.account
  | tombstone t => t.account

def version : VaultEntry → Nat
  | record r => r.version
  | tombstone t => t.version

/-- A record's `updated_at` and a tombstone's `deleted_at` are one clock. -/
def writtenAt : VaultEntry → Nat
  | record r => r.updatedAt
  | tombstone t => t.deletedAt

end VaultEntry

structure RecordKey where
  provider : String
  account : String
  deriving DecidableEq

def recordKeyOf (entry : VaultEntry) : RecordKey := ⟨entry.provider, entry.account⟩

def RecordKey.le (a b : RecordKey) : Prop :=
  a.provider < b.provider ∨ a.provider = b.provider ∧ a.account ≤ b.account

instance : DecidableRel RecordKey.le := fun _ _ => inferInstanceAs (Decidable (_ ∨ _))

structure Vault where
  records : List VaultEntry
  distinct : (records.map recordKeyOf).Nodup

namespace Vault

def empty : Vault := ⟨[], nodup_nil⟩

theorem replace_distinct {records : List VaultEntry} (h : (records.map recordKeyOf).Nodup) (entry : VaultEntry) :
    ((records.filter (fun held => recordKeyOf held ≠ recordKeyOf entry) ++ [entry]).map recordKeyOf).Nodup := by
  rw [map_append, map_singleton, nodup_append]
  refine ⟨h.sublist (filter_sublist.map _), nodup_singleton _, ?_⟩
  intro key hkey other hother
  obtain ⟨held, hheld, rfl⟩ := mem_map.mp hkey
  rw [mem_singleton.mp hother]
  simpa using (mem_filter.mp hheld).2

variable (v : Vault)

def replace (entry : VaultEntry) : Vault :=
  ⟨v.records.filter (fun held => recordKeyOf held ≠ recordKeyOf entry) ++ [entry], replace_distinct v.distinct entry⟩

def held (key : RecordKey) : Option VaultEntry := v.records.find? fun entry => recordKeyOf entry = key

def put (record : CredentialRecord) : Vault := v.replace (.record record)

def remove (provider account : String) (now : Nat) : Vault :=
  match v.held ⟨provider, account⟩ with
  | some (.record record) => v.replace (.tombstone ⟨provider, account, record.version, now⟩)
  | _ => v

def entries : List VaultEntry :=
  v.records.insertionSort fun a b => (recordKeyOf a).le (recordKeyOf b)

/-! ## One entry a slot -/

variable {v : Vault} {entry : VaultEntry} {key : RecordKey}

theorem entries_perm (v : Vault) : v.entries.Perm v.records := perm_insertionSort _ _

theorem mem_entries : entry ∈ v.entries ↔ entry ∈ v.records := v.entries_perm.mem_iff

theorem entries_distinct (v : Vault) : (v.entries.map recordKeyOf).Nodup :=
  (v.entries_perm.map recordKeyOf).nodup_iff.mpr v.distinct

theorem find_of_distinct {entries : List VaultEntry} (h : (entries.map recordKeyOf).Nodup) :
    entries.find? (fun held => recordKeyOf held = key) = some entry ↔ entry ∈ entries ∧ recordKeyOf entry = key := by
  constructor
  · intro hfound
    exact ⟨mem_of_find?_eq_some hfound, by simpa using find?_some hfound⟩
  rintro ⟨hmem, rfl⟩
  cases hfound : entries.find? (fun held => recordKeyOf held = recordKeyOf entry) with
  | none => simpa using find?_eq_none.mp hfound entry hmem
  | some other =>
    have hkey : recordKeyOf other = recordKeyOf entry := by simpa using find?_some hfound
    exact congrArg some (inj_on_of_nodup_map h (mem_of_find?_eq_some hfound) hmem hkey)

theorem held_eq_some : v.held key = some entry ↔ entry ∈ v.records ∧ recordKeyOf entry = key :=
  find_of_distinct v.distinct

theorem find_entries (v : Vault) (key : RecordKey) :
    v.entries.find? (fun entry => recordKeyOf entry = key) = v.held key := by
  refine Option.ext fun entry => ?_
  rw [find_of_distinct v.entries_distinct, held_eq_some, mem_entries]

theorem held_replace : (v.replace entry).held key = if recordKeyOf entry = key then some entry else v.held key := by
  split
  · next hkey => exact held_eq_some.mpr ⟨by simp [replace], hkey⟩
  · next hkey =>
    refine Option.ext fun other => ?_
    rw [held_eq_some, held_eq_some]
    constructor
    · rintro ⟨hmem, rfl⟩
      have hne : other ≠ entry := fun he => hkey (he ▸ rfl)
      exact ⟨by simpa [replace, hne, Ne.symm hkey] using hmem, rfl⟩
    · rintro ⟨hmem, rfl⟩
      exact ⟨by simp [replace, hmem, Ne.symm hkey], rfl⟩

end Vault

end TddyCoder.CredentialSync
