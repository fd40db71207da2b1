/-
  TddyCoder.Rpc.AsyncQueue — the queue between the frames that arrive for a stream and the
  loop that reads it (`packages/tddy-rpc-web/src/async-queue.ts`).

  A read that finds nothing waits for the next item, or for the queue to close or fail;
  `outcomes` lists how the reads were settled, in the order they were made.

  Proved: `reads_may_come_late`.
-/

import Mathlib.Data.List.Induction

namespace TddyCoder.Rpc

open List

inductive Outcome (α ε : Type)
  | item (a : α)
  | done
  | thrown (e : ε)
  deriving DecidableEq

inductive Put (α ε : Type)
  | enqueue (a : α)
  | fail (e : ε)
  | close
  deriving DecidableEq

structure AsyncQueue (α ε : Type) where
  queue : List α
  waiting : Nat
  closed : Bool
  error : Option ε
  outcomes : List (Outcome α ε)

namespace AsyncQueue

variable {α ε : Type} (items : List α) (puts : List (Put α ε))

def new : AsyncQueue α ε := ⟨[], 0, false, none, []⟩

variable (q : AsyncQueue α ε)

def enqueue (a : α) : AsyncQueue α ε :=
  if q.closed then q
  else if 0 < q.waiting then { q with waiting := q.waiting - 1, outcomes := q.outcomes ++ [.item a] }
  else { q with queue := q.queue ++ [a] }

def fail (e : ε) : AsyncQueue α ε :=
  if q.closed then q
  else
    { q with
      closed := true, error := some e, waiting := 0, outcomes := q.outcomes ++ List.replicate q.waiting (.thrown e) }

def close : AsyncQueue α ε :=
  if q.closed then q
  else { q with closed := true, waiting := 0, outcomes := q.outcomes ++ List.replicate q.waiting .done }

def dequeue : AsyncQueue α ε :=
  match q.queue with
  | a :: rest => { q with queue := rest, outcomes := q.outcomes ++ [.item a] }
  | [] =>
    match q.closed, q.error with
    | true, some e => { q with outcomes := q.outcomes ++ [.thrown e] }
    | true, none => { q with outcomes := q.outcomes ++ [.done] }
    | false, _ => { q with waiting := q.waiting + 1 }

def put : Put α ε → AsyncQueue α ε
  | .enqueue a => q.enqueue a
  | .fail e => q.fail e
  | .close => q.close

/-- The producer's steps and (`none`) the reads, as they fall together. -/
def step : Option (Put α ε) → AsyncQueue α ε
  | some p => q.put p
  | none => q.dequeue

variable (events : List (Option (Put α ε)))

def run : AsyncQueue α ε := events.foldl step new

/-! ## What was put, and how many reads were made -/

def reads : Nat := events.countP Option.isNone

def script : List (Put α ε) → List α × Option (Outcome α ε)
  | [] => ([], none)
  | .enqueue a :: puts => (a :: (script puts).1, (script puts).2)
  | .fail e :: _ => ([], some (.thrown e))
  | .close :: _ => ([], some .done)

def errorOf : Option (Outcome α ε) → Option ε
  | some (.thrown e) => some e
  | _ => none

def after (items : List α) (ending : Option (Outcome α ε)) (n : Nat) : AsyncQueue α ε where
  queue := items.drop n
  waiting := if ending.isNone then n - items.length else 0
  closed := ending.isSome
  error := errorOf ending
  outcomes := (items.take n).map .item ++ ending.toList.flatMap (List.replicate (n - items.length))

theorem script_snoc (p : Put α ε) :
    ((script puts).2 = none → script (puts ++ [p]) = ((script puts).1 ++ (script [p]).1, (script [p]).2)) ∧
      ((script puts).2 ≠ none → script (puts ++ [p]) = script puts) := by
  induction puts with
  | nil => simp [script]
  | cons x puts ih =>
    cases x with
    | enqueue a =>
      simp only [cons_append, script]
      exact ⟨fun h => by rw [ih.1 h], fun h => by rw [ih.2 h]⟩
    | fail e | close => simp [script]

theorem after_enqueue (a : α) (n : Nat) :
    (after items none n : AsyncQueue α ε).enqueue a = after (items ++ [a]) none n := by
  unfold enqueue after
  rcases hk : n - items.length with _ | k <;> simp [take_append, drop_append, hk, ← Nat.sub_sub]

theorem after_close (n : Nat) :
    (after items none n : AsyncQueue α ε).close = after items (some .done) n := by
  simp [close, after, errorOf]

def Ends : Option (Outcome α ε) → Prop
  | some (.item _) => False
  | _ => True

theorem after_dequeue {ending : Option (Outcome α ε)} (h : Ends ending) (n : Nat) :
    (after items ending n).dequeue = after items ending (n + 1) := by
  unfold dequeue after
  by_cases hn : n < items.length
  · have hdrop : items.drop n = items[n] :: items.drop (n + 1) := drop_eq_getElem_cons hn
    have h0 : n - items.length = 0 := by omega
    have h1 : n + 1 - items.length = 0 := by omega
    have hnone : ending.toList.flatMap (List.replicate 0) = [] := by simp
    simp only [hdrop, h0, h1, hnone, take_succ_eq_append_getElem hn, append_nil, map_append, map_cons,
      map_nil]
  have hdrop : items.drop n = [] := drop_eq_nil_of_le (by omega)
  have hdrop' : items.drop (n + 1) = [] := drop_eq_nil_of_le (by omega)
  have htake : items.take n = items := take_of_length_le (by omega)
  have htake' : items.take (n + 1) = items := take_of_length_le (by omega)
  have hlen : n + 1 - items.length = n - items.length + 1 := by omega
  rcases ending with _ | (a | _ | e)
  · simp [hdrop, hdrop', htake, htake', hlen]
  · exact absurd h id
  · simp [hdrop, hdrop', htake, htake', hlen, errorOf, replicate_succ']
  · simp [hdrop, hdrop', htake, htake', hlen, errorOf, replicate_succ']

theorem script_ends : Ends (script puts).2 := by
  induction puts with
  | nil => trivial
  | cons p puts ih =>
    cases p with
    | enqueue a => exact ih
    | fail e => trivial
    | close => trivial

theorem put_of_closed {q : AsyncQueue α ε} (h : q.closed = true) (p : Put α ε) : q.put p = q := by
  cases p <;> simp [put, enqueue, fail, close, h]

/-- The queue is what its script and the number of reads make it. -/
theorem run_eq :
    run events = after (script (events.filterMap id)).1 (script (events.filterMap id)).2 (reads events) := by
  induction events using reverseRecOn with
  | nil => rfl
  | append_singleton events event ih =>
    rw [run, foldl_append, foldl_cons, foldl_nil, ← run, ih]
    cases event with
    | none =>
      have hputs : (events ++ [none]).filterMap id = events.filterMap id := by simp
      have hreads : reads (events ++ [none]) = reads events + 1 := by simp [reads]
      rw [hputs, hreads]
      exact after_dequeue _ (script_ends _) _
    | some p =>
      have hputs : (events ++ [some p]).filterMap id = events.filterMap id ++ [p] := by simp
      have hreads : reads (events ++ [some p]) = reads events := by simp [reads]
      rw [hputs, hreads, step]
      by_cases hend : (script (events.filterMap id)).2 = none
      · rw [(script_snoc _ p).1 hend, hend]
        cases p with
        | enqueue a => exact after_enqueue _ a _
        | fail e =>
          simp [put, fail, after, errorOf, script]
        | close =>
          rw [put, after_close]
          simp [script]
      · rw [(script_snoc _ p).2 hend]
        refine put_of_closed ?_ p
        exact Option.isSome_iff_ne_none.mpr hend

/-- The queue has no memory of when it was read: reading after all the puts gives the same outcomes. -/
theorem reads_may_come_late (events : List (Option (Put α ε))) :
    run events = run ((events.filterMap id).map some ++ replicate (reads events) none) := by
  rw [run_eq, run_eq (_ ++ _)]
  simp [reads, countP_replicate, Function.comp_def]

end AsyncQueue

end TddyCoder.Rpc
