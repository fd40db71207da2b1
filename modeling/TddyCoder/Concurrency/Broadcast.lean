/-
  TddyCoder.Concurrency.Broadcast — a broadcast channel: every receiver gets every message
  sent after it subscribed, in order, unless it falls behind by more than the channel keeps.
  Then it is told so once, and goes on with the oldest message that is kept. A closed channel
  says so to a receiver that has had everything.

  The channel here remembers all that was ever sent, and a receiver is the number of messages
  before its next one; that it keeps only the last `capacity` of them shows in `recv` alone.
-/

import Mathlib.Data.List.Basic

namespace TddyCoder.Concurrency

structure Channel (α : Type) where
  capacity : Nat
  sent : List α
  closed : Bool

inductive Received (α : Type)
  | item (message : α)
  | lagged
  | closed
  | empty

namespace Channel

variable {α : Type} (c : Channel α)

def send (message : α) : Channel α := { c with sent := c.sent ++ [message] }

def subscribe : Nat := c.sent.length

def recv (next : Nat) : Received α × Nat :=
  if next + c.capacity < c.sent.length then (.lagged, c.sent.length - c.capacity)
  else
    match c.sent[next]? with
    | some message => (.item message, next + 1)
    | none => (if c.closed then .closed else .empty, next)

def pending (next : Nat) : List α := c.sent.drop next

variable {c : Channel α} {next next' : Nat}

theorem recv_item {message : α} (h : c.recv next = (.item message, next')) :
    next' = next + 1 ∧ c.sent[next]? = some message := by
  unfold recv at h
  split at h
  · simp at h
  split at h
  · rename_i hget
    simp only [Prod.mk.injEq, Received.item.injEq] at h
    exact ⟨h.2.symm, h.1 ▸ hget⟩
  · split at h <;> simp at h

theorem recv_lagged (h : c.recv next = (.lagged, next')) :
    next + c.capacity < c.sent.length ∧ next' = c.sent.length - c.capacity := by
  unfold recv at h
  split at h
  · rename_i hbehind
    exact ⟨hbehind, (Prod.mk.inj h).2.symm⟩
  · split at h
    · simp at h
    · split at h <;> simp at h

end Channel

end TddyCoder.Concurrency
