/-
  TddyCoder.Machine.Follower — following a log that grows. A follower stands at a position of
  the log and tells what it reads: the part from there on, or, starting over, that it has the
  whole log up to its end. One that does not start over may skip ahead instead.
-/

import Mathlib.Data.List.Basic

namespace TddyCoder.Machine

open List

variable {β : Type}

variable {start pos : Nat} {log : List β}

theorem extract_append {mid stop : Nat} (hmid : start ≤ mid) (hstop : mid ≤ stop) :
    log.extract start mid ++ log.extract mid stop = log.extract start stop := by
  have hsplit : stop - start = (mid - start) + (stop - mid) := by omega
  have hback : start + (mid - start) = mid := by omega
  rw [extract_eq_take_drop, extract_eq_take_drop, extract_eq_take_drop, hsplit, take_add,
    drop_drop, hback]

theorem extract_leading {data : List β} (h : data <+: log.drop pos) :
    log.extract pos (pos + data.length) = data := by
  obtain ⟨rest, hrest⟩ := h
  rw [extract_eq_take_drop, Nat.add_sub_cancel_left, ← hrest, take_left]

inductive Told (β : Type)
  | part (start : Nat) (data : List β)
  | upTo (offset : Nat)

namespace Told

def Covers (p : Nat) : Told β → Prop
  | part start data => start ≤ p ∧ p < start + data.length
  | upTo offset => p < offset

def Right (log : List β) (pos : Nat) : Told β → Prop
  | part start data => log.extract start (start + data.length) = data ∧ start + data.length ≤ pos
  | upTo offset => offset ≤ pos

def data : Told β → List β
  | part _ data => data
  | upTo _ => []

theorem Right.mono {pos' : Nat} {t : Told β} (h : t.Right log pos) (hwithin : pos ≤ log.length)
    (more : List β) (hpos : pos ≤ pos') : t.Right (log ++ more) pos' := by
  cases t with
  | part start data =>
    obtain ⟨hdata, hend⟩ := h
    refine ⟨?_, by omega⟩
    rw [extract_eq_take_drop] at hdata ⊢
    rwa [drop_append_of_le_length (by omega), take_append_of_le_length (by rw [length_drop]; omega)]
  | upTo offset => exact Nat.le_trans h hpos

end Told

structure Follower (β : Type) where
  log : List β
  pos : Nat
  told : List (Told β)

namespace Follower

inductive Step (restarts : Bool) : Follower β → Follower β → Prop
  | idle (f : Follower β) : Step restarts f f
  | grow (f : Follower β) (more : List β) : Step restarts f { f with log := f.log ++ more }
  | take (f : Follower β) (data : List β) : data <+: f.log.drop f.pos →
      Step restarts f { f with pos := f.pos + data.length, told := f.told ++ [.part f.pos data] }
  | restart (f : Follower β) : restarts = true →
      Step restarts f { f with pos := f.log.length, told := f.told ++ [.upTo f.log.length] }
  | skip (f : Follower β) (pos : Nat) : restarts = false → f.pos ≤ pos → pos ≤ f.log.length →
      Step restarts f { f with pos := pos }

structure Sound (f : Follower β) : Prop where
  within : f.pos ≤ f.log.length
  told : ∀ t ∈ f.told, t.Right f.log f.pos

def AllTold (start : Nat) (f : Follower β) : Prop :=
  ∀ p, start ≤ p → p < f.pos → ∃ t ∈ f.told, t.Covers p

def Missed (p : Nat) (f : Follower β) : Prop := p < f.pos ∧ ∀ t ∈ f.told, ¬ t.Covers p

variable {restarts : Bool} {f f' : Follower β} {p : Nat}

theorem Sound.step (h : f.Sound) (hstep : Step restarts f f') : f'.Sound := by
  have hmono : ∀ {pos'}, f.pos ≤ pos' → ∀ t ∈ f.told, t.Right f.log pos' := fun hpos t ht => by
    simpa using (h.told t ht).mono h.within [] hpos
  cases hstep with
  | idle => exact h
  | grow more =>
    exact ⟨Nat.le_trans h.within (by simp), fun t ht => (h.told t ht).mono h.within more (Nat.le_refl _)⟩
  | take data hdata =>
    have hlength : data.length ≤ f.log.length - f.pos := by
      rw [← length_drop]
      exact hdata.length_le
    have hwithin := h.within
    refine ⟨by simp only; omega, forall_mem_append.mpr ⟨hmono (Nat.le_add_right _ _), ?_⟩⟩
    exact forall_mem_singleton.mpr ⟨extract_leading hdata, Nat.le_refl _⟩
  | restart _ =>
    exact ⟨Nat.le_refl _, forall_mem_append.mpr ⟨hmono h.within, forall_mem_singleton.mpr (Nat.le_refl _)⟩⟩
  | skip pos _ hle hwithin => exact ⟨hwithin, hmono hle⟩

theorem Sound.pos_le (h : f.Sound) (hstep : Step restarts f f') : f.pos ≤ f'.pos := by
  cases hstep with
  | idle | grow more => exact Nat.le_refl _
  | take data hdata => exact Nat.le_add_right _ _
  | restart _ => exact h.within
  | skip pos _ hle _ => exact hle

theorem Sound.not_covers (h : f.Sound) {t : Told β} (ht : t ∈ f.told) (hp : f.pos ≤ p) : ¬ t.Covers p := by
  have htrue := h.told t ht
  cases t with
  | part start data =>
    rintro ⟨-, hlt⟩
    exact absurd htrue.2 (by omega)
  | upTo offset =>
    intro hlt
    exact absurd (Nat.le_trans htrue hp) (Nat.not_le.mpr hlt)

theorem AllTold.step (h : f.AllTold start) (hstep : Step restarts f f')
    (hmoves : f'.told = f.told → f'.pos = f.pos) : f'.AllTold start := by
  intro p hstart hp
  cases hstep with
  | idle | grow more => exact h p hstart hp
  | take data hdata =>
    by_cases hold : p < f.pos
    · obtain ⟨t, ht, hcovers⟩ := h p hstart hold
      exact ⟨t, mem_append_left _ ht, hcovers⟩
    · exact ⟨.part f.pos data, by simp, Nat.le_of_not_lt hold, hp⟩
  | restart _ => exact ⟨.upTo f.log.length, by simp, hp⟩
  | skip pos _ _ _ =>
    have hpos : pos = f.pos := hmoves rfl
    exact h p hstart (hpos ▸ hp)

theorem Missed.step (h : f.Missed p) (hstep : Step false f f') : f'.Missed p := by
  cases hstep with
  | idle => exact h
  | grow more => exact h
  | take data hdata =>
    refine ⟨Nat.lt_add_right _ h.1, forall_mem_append.mpr ⟨h.2, forall_mem_singleton.mpr ?_⟩⟩
    exact fun hcovers => absurd hcovers.1 (Nat.not_le.mpr h.1)
  | restart hrestarts => exact absurd hrestarts (by simp)
  | skip pos _ hle _ => exact ⟨Nat.lt_of_lt_of_le h.1 hle, h.2⟩

/-- What was told is the log from `start` up to the position. -/
def Exact (start : Nat) (f : Follower β) : Prop :=
  start ≤ f.pos ∧ f.told.flatMap Told.data = f.log.extract start f.pos

theorem Exact.rest (h : f.Exact start) : f.told.flatMap Told.data ++ f.log.drop f.pos = f.log.drop start := by
  obtain ⟨hstart, htold⟩ := h
  have hback : start + (f.pos - start) = f.pos := by omega
  have hsplit := take_append_drop (f.pos - start) (f.log.drop start)
  rwa [drop_drop, hback, ← extract_eq_take_drop, ← htold] at hsplit

theorem Exact.step (h : f.Exact start) (hsound : f.Sound) (hstep : Step false f f')
    (hmoves : f'.told = f.told → f'.pos = f.pos) : f'.Exact start := by
  obtain ⟨hstart, htold⟩ := h
  have hwithin := hsound.within
  cases hstep with
  | idle => exact ⟨hstart, htold⟩
  | grow more =>
    refine ⟨hstart, htold.trans ?_⟩
    simp only
    rw [extract_eq_take_drop, extract_eq_take_drop, drop_append_of_le_length (by omega),
      take_append_of_le_length (by rw [length_drop]; omega)]
  | take data hdata =>
    refine ⟨Nat.le_trans hstart (Nat.le_add_right _ _), ?_⟩
    have hpart : f.log.extract f.pos (f.pos + data.length) = data := extract_leading hdata
    rw [flatMap_append, htold, ← extract_append hstart (Nat.le_add_right f.pos data.length), hpart]
    simp [Told.data]
  | restart hrestarts => exact absurd hrestarts (by simp)
  | skip pos _ _ _ =>
    have hpos : pos = f.pos := hmoves rfl
    subst hpos
    exact ⟨hstart, htold⟩

end Follower

end TddyCoder.Machine
