/-
  TddyCoder.Concurrency.CheckThenAct — calls that look at a shared value in one atomic step
  and change it in a later one, any number of them, interleaved in any way.

  A call `k` looks with `look k`: it is refused (`none`) or goes on holding what it decided.
  `act` is its second step, on the value as it is by then; it may also end without acting.
  `ok k p s` is what is asked of the calls that act.
-/

import Mathlib.Logic.Relation
import Mathlib.Tactic.Common

namespace TddyCoder.Concurrency

variable {σ κ π : Type}

structure Shared (σ κ π : Type) where
  stored : σ
  /-- The calls that have looked and not acted, with what they hold. -/
  held : List (κ × π)
  /-- The calls that acted, in the order they did. -/
  done : List κ

def Shared.start (s : σ) : Shared σ κ π := ⟨s, [], []⟩

inductive Step (look : κ → σ → Option π) (act : κ → π → σ → σ) (ok : κ → π → σ → Prop) :
    Shared σ κ π → Shared σ κ π → Prop
  | look (s : σ) (held : List (κ × π)) (done : List κ) (k : κ) (p : π) (h : look k s = some p) :
      Step look act ok ⟨s, held, done⟩ ⟨s, held ++ [(k, p)], done⟩
  | act (s : σ) (before after : List (κ × π)) (done : List κ) (k : κ) (p : π) (h : ok k p s) :
      Step look act ok ⟨s, before ++ (k, p) :: after, done⟩ ⟨act k p s, before ++ after, done ++ [k]⟩
  | abandon (s : σ) (before after : List (κ × π)) (done : List κ) (k : κ) (p : π) :
      Step look act ok ⟨s, before ++ (k, p) :: after, done⟩ ⟨s, before ++ after, done⟩

def Run (look : κ → σ → Option π) (act : κ → π → σ → σ) (ok : κ → π → σ → Prop) :
    Shared σ κ π → Shared σ κ π → Prop :=
  Relation.ReflTransGen (Step look act ok)

variable {look : κ → σ → Option π} {act : κ → π → σ → σ} {ok : κ → π → σ → Prop} {a b : Shared σ κ π}

section

variable {s : σ} {k k' : κ} {p p' : π}

theorem run_in_turn (hlook : look k s = some p) (hok : ok k p s) (hlook' : look k' (act k p s) = some p')
    (hok' : ok k' p' (act k p s)) : Run look act ok (.start s) ⟨act k' p' (act k p s), [], [k, k']⟩ := by
  have hfirst : Run look act ok (.start s) ⟨act k p s, [], [k]⟩ :=
    .tail (.single (.look s [] [] k p hlook)) (.act s [] [] [] k p hok)
  have hlooked : Run look act ok (.start s) ⟨act k p s, [(k', p')], [k]⟩ := hfirst.tail (.look _ [] [k] k' p' hlook')
  exact hlooked.tail (.act _ [] [] [k] k' p' hok')

/-- Two calls that both look before either acts. -/
theorem run_crossed (hlook : look k s = some p) (hlook' : look k' s = some p') (hok : ok k p s)
    (hok' : ok k' p' (act k p s)) : Run look act ok (.start s) ⟨act k' p' (act k p s), [], [k, k']⟩ := by
  have hlooked : Run look act ok (.start s) ⟨s, [(k, p), (k', p')], []⟩ :=
    .tail (.single (.look s [] [] k p hlook)) (.look s [(k, p)] [] k' p' hlook')
  have hfirst : Run look act ok (.start s) ⟨act k p s, [(k', p')], [k]⟩ := hlooked.tail (.act s [] [_] [] k p hok)
  exact hfirst.tail (.act _ [] [] [k] k' p' hok')

end

theorem run_keeps {I : σ → Prop} (hact : ∀ k p s, I s → ok k p s → I (act k p s)) (h : Run look act ok a b)
    (ha : I a.stored) : I b.stored := by
  induction h with
  | refl => exact ha
  | tail _ hs ih =>
    cases hs with
    | look s held done k p h => exact ih
    | act s before after done k p h => exact hact k p s ih h
    | abandon s before after done k p => exact ih

def replay (apply : κ → σ → σ) (s : σ) (calls : List κ) : σ := calls.foldl (fun s k => apply k s) s

theorem run_replays {apply : κ → σ → σ} {s₀ : σ} (hact : ∀ k p s, ok k p s → act k p s = apply k s)
    (h : Run look act ok (.start s₀) b) : b.stored = replay apply s₀ b.done := by
  induction h with
  | refl => rfl
  | tail _ hs ih =>
    cases hs with
    | look s held done k p h => exact ih
    | act s before after done k p h =>
      show act k p s = replay apply s₀ (done ++ [k])
      rw [hact k p s h]
      unfold replay at ih ⊢
      rw [List.foldl_append]
      exact congrArg (apply k) ih
    | abandon s before after done k p => exact ih

end TddyCoder.Concurrency
