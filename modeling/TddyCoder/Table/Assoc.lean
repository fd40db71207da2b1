/-
  TddyCoder.Table.Assoc — finite maps, one entry a key: Mathlib's association lists at a
  fixed value type. Hash maps and ordered maps alike are modelled by them where the order
  of the entries does not matter. Added here: narrowing a map to some keys, and the keys
  under which a value stands.
-/

import Mathlib.Data.List.AList

namespace TddyCoder.Table

/-- A finite map from `α` to `β`. -/
abbrev Assoc (α β : Type) : Type := AList fun _ : α => β

variable {α β : Type} [DecidableEq α]

variable {m : Assoc α β} {a a' : α} {b b' : β} {keep : α → Bool}

theorem lookup_eq_some : m.lookup a = some b ↔ ⟨a, b⟩ ∈ m.entries :=
  AList.mem_lookup_iff

theorem eq_empty (h : ∀ a b, m.lookup a ≠ some b) : m = ∅ :=
  AList.ext (List.eq_nil_iff_forall_not_mem.mpr fun ⟨a, b⟩ hmem => h a b (lookup_eq_some.mpr hmem))

def retain (keep : α → Bool) (m : Assoc α β) : Assoc α β :=
  ⟨m.entries.filter fun entry => keep entry.1, m.nodupKeys.sublist List.filter_sublist⟩

theorem lookup_retain_eq_some :
    (retain keep m).lookup a = some b ↔ m.lookup a = some b ∧ keep a = true := by
  rw [lookup_eq_some, lookup_eq_some]
  exact List.mem_filter

theorem retain_eq_self (h : ∀ a b, m.lookup a = some b → keep a = true) : retain keep m = m := by
  refine AList.ext (List.filter_eq_self.mpr ?_)
  rintro ⟨a, b⟩ hentry
  exact h a b (lookup_eq_some.mpr hentry)

theorem lookup_erase_eq_some : (m.erase a').lookup a = some b ↔ m.lookup a = some b ∧ a ≠ a' := by
  by_cases h : a = a'
  · subst h
    simp
  · simp [AList.lookup_erase_ne h, h]

theorem lookup_insert_eq_some :
    (m.insert a' b').lookup a = some b ↔ (a = a' ∧ b = b') ∨ (a ≠ a' ∧ m.lookup a = some b) := by
  by_cases h : a = a'
  · subst h
    simp [eq_comm]
  · simp [AList.lookup_insert_ne h, h]

theorem update_eq_some {f : α → Option β} :
    Function.update f a' (some b') a = some b ↔ (a = a' ∧ b = b') ∨ (a ≠ a' ∧ f a = some b) := by
  by_cases h : a = a'
  · subst h
    simp [eq_comm]
  · simp [h]

theorem lookup_insert_or (h : (m.insert a' b').lookup a = some b) : m.lookup a = some b ∨ b = b' :=
  (lookup_insert_eq_some.mp h).elim (fun h => .inr h.2) fun h => .inl h.2

def keysOf [DecidableEq β] (b : β) (m : Assoc α β) : List α :=
  (m.entries.filter fun entry => entry.2 = b).map (·.1)

theorem mem_keysOf [DecidableEq β] : a ∈ keysOf b m ↔ m.lookup a = some b := by
  rw [lookup_eq_some]
  simp [keysOf]

omit [DecidableEq α] in
theorem keysOf_nodup [DecidableEq β] (b : β) (m : Assoc α β) : (keysOf b m).Nodup :=
  m.nodupKeys.sublist List.filter_sublist

end TddyCoder.Table
