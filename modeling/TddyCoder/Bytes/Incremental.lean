/-
  TddyCoder.Bytes.Incremental — decoders that are fed a stream piece by piece. A decoder is a
  function that takes the next item off a buffer, if one is complete. It is `Steady` where
  taking an item shortens the buffer, and where bytes that come later do not change an item
  that is complete.
-/

import Mathlib.Data.List.Basic

namespace TddyCoder.Bytes

variable {α β : Type} (next : List β → Option (α × List β))

structure Steady : Prop where
  nothing : next [] = none
  shorter : ∀ {buffer item rest}, next buffer = some (item, rest) → rest.length < buffer.length
  stable : ∀ {buffer item rest} (more : List β),
    next buffer = some (item, rest) → next (buffer ++ more) = some (item, rest ++ more)

def drainFor : Nat → List β → List α × List β
  | 0, buffer => ([], buffer)
  | fuel + 1, buffer =>
    match next buffer with
    | none => ([], buffer)
    | some (item, rest) => (item :: (drainFor fuel rest).1, (drainFor fuel rest).2)

def drain (buffer : List β) : List α × List β := drainFor next buffer.length buffer

def feedAll (buffer : List β) : List (List β) → List α × List β
  | [] => ([], buffer)
  | piece :: pieces =>
    let taken := drain next (buffer ++ piece)
    let later := feedAll taken.2 pieces
    (taken.1 ++ later.1, later.2)

variable {next} (h : Steady next) {buffer : List β}
include h

theorem drainFor_eq_drain {fuel : Nat} (hfuel : buffer.length ≤ fuel) :
    drainFor next fuel buffer = drain next buffer := by
  unfold drain
  induction hn : buffer.length using Nat.strongRecOn generalizing fuel buffer with
  | _ n ih =>
    subst hn
    rcases hnext : next buffer with _ | ⟨item, rest⟩
    · rcases fuel with _ | fuel <;> rcases hlength : buffer.length with _ | n <;> simp [drainFor, hnext]
    have hshorter := h.shorter hnext
    obtain ⟨fuel, rfl⟩ : ∃ k, fuel = k + 1 := ⟨fuel - 1, by omega⟩
    obtain ⟨n, hlength⟩ : ∃ n, buffer.length = n + 1 := ⟨buffer.length - 1, by omega⟩
    have hmany := ih rest.length hshorter (by omega : rest.length ≤ fuel) rfl
    have hfew := ih rest.length hshorter (by omega : rest.length ≤ n) rfl
    rw [hlength]
    simp only [drainFor, hnext, hmany, hfew]

theorem drain_of_none (hnext : next buffer = none) : drain next buffer = ([], buffer) := by
  rw [← drainFor_eq_drain h (Nat.le_succ _), drainFor, hnext]

theorem drain_of_some {rest : List β} {item : α} (hnext : next buffer = some (item, rest)) :
    drain next buffer = (item :: (drain next rest).1, (drain next rest).2) := by
  have hshorter := h.shorter hnext
  rw [← drainFor_eq_drain h (Nat.le_succ _), drainFor, hnext]
  simp only [drainFor_eq_drain h (Nat.le_of_lt hshorter)]

/-- Draining early takes nothing away from what draining later gives. -/
theorem drain_append (buffer more : List β) :
    drain next (buffer ++ more) =
      ((drain next buffer).1 ++ (drain next ((drain next buffer).2 ++ more)).1,
        (drain next ((drain next buffer).2 ++ more)).2) := by
  induction hn : buffer.length using Nat.strongRecOn generalizing buffer with
  | _ n ih =>
    subst hn
    rcases hnext : next buffer with _ | ⟨item, rest⟩
    · rw [drain_of_none h hnext]
      rfl
    · rw [drain_of_some h hnext, drain_of_some h (h.stable more hnext), ih rest.length (h.shorter hnext) rest rfl]
      rfl

theorem next_drain (buffer : List β) : next (drain next buffer).2 = none := by
  induction hn : buffer.length using Nat.strongRecOn generalizing buffer with
  | _ n ih =>
    subst hn
    rcases hnext : next buffer with _ | ⟨item, rest⟩
    · rwa [drain_of_none h hnext]
    · rw [drain_of_some h hnext]
      exact ih rest.length (h.shorter hnext) rest rfl

theorem feedAll_of_none (hnext : next buffer = none) (pieces : List (List β)) :
    feedAll next buffer pieces = drain next (buffer ++ pieces.flatten) := by
  induction pieces generalizing buffer with
  | nil => rw [List.flatten_nil, List.append_nil, drain_of_none h hnext, feedAll]
  | cons piece pieces ih =>
    rw [feedAll, ih (next_drain h _), List.flatten_cons, ← List.append_assoc, drain_append h (buffer ++ piece)]

/-- However the stream is cut, feeding it piece by piece gives what draining all of it does. -/
theorem feedAll_eq (pieces : List (List β)) : feedAll next [] pieces = drain next pieces.flatten :=
  feedAll_of_none h h.nothing pieces

end TddyCoder.Bytes
