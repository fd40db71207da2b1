/-
  TddyCoder.Prog.Ensures — what a fallible stateful program leaves behind.

  `Prog σ ε α` ends with a value or an error; the state it reached stands either way.
  `Ensures m s Q` says that running `m` from `s` ends with a result and a state that satisfy
  `Q`. `Answers m s P` asks nothing of a run that fails. `Within R m` is for a relation that
  composes: every step stays within it.
-/

import Mathlib.Data.List.Basic

namespace TddyCoder

abbrev Prog (σ ε α : Type) := ExceptT ε (StateM σ) α

namespace Prog

variable {σ ε α β : Type} (m : Prog σ ε α) (s : σ)

def exec : Except ε α × σ := StateT.run (ExceptT.run m) s

/-- Running `m` from `s` ends with a result and a state that satisfy `Q`. -/
def Ensures (Q : Except ε α → σ → Prop) : Prop := Q (exec m s).1 (exec m s).2

@[simp] theorem exec_pure (a : α) (s : σ) : exec (pure a : Prog σ ε α) s = (.ok a, s) := rfl
@[simp] theorem exec_throw (e : ε) (s : σ) : exec (throw e : Prog σ ε α) s = (.error e, s) := rfl
@[simp] theorem exec_get : exec (get : Prog σ ε σ) s = (.ok s, s) := rfl
@[simp] theorem exec_set (s' : σ) : exec (set s' : Prog σ ε PUnit) s = (.ok ⟨⟩, s') := rfl
@[simp] theorem exec_modify (f : σ → σ) (s : σ) : exec (modify f : Prog σ ε PUnit) s = (.ok ⟨⟩, f s) := rfl
@[simp] theorem exec_modifyGet (f : σ → α × σ) (s : σ) :
    exec (modifyGet f : Prog σ ε α) s = (.ok (f s).1, (f s).2) := rfl

theorem exec_bind (f : α → Prog σ ε β) (s : σ) :
    exec (m >>= f) s = match (exec m s).1 with
      | .ok a => exec (f a) (exec m s).2
      | .error e => (.error e, (exec m s).2) := by
  simp only [exec, ExceptT.run, StateT.run, bind, ExceptT.bind, ExceptT.mk, StateT.bind]
  cases m s with
  | mk r s' => cases r <;> rfl

variable {m : Prog σ ε α} {f : α → Prog σ ε β} {s s' : σ} {R : Except ε α → σ → Prop} {a : α}

theorem exec_bind_ok (h : exec m s = (.ok a, s')) : exec (m >>= f) s = exec (f a) s' := by
  rw [exec_bind, h]

theorem exec_bind_error {e : ε} (h : exec m s = (.error e, s')) : exec (m >>= f) s = (.error e, s') := by
  rw [exec_bind, h]

/-- An answered step goes on from the state it left; a failed one ends there. -/
theorem ensures_bind {Q : Except ε β → σ → Prop}
    (hm : Ensures m s R) (hok : ∀ a s', R (.ok a) s' → Ensures (f a) s' Q)
    (herr : ∀ e s', R (.error e) s' → Q (.error e) s') : Ensures (m >>= f) s Q := by
  unfold Ensures at hm ⊢
  rw [exec_bind]
  cases h : (exec m s).1 with
  | ok a => rw [h] at hm; exact hok a _ hm
  | error e => rw [h] at hm; exact herr e _ hm

variable {Q : Except ε α → σ → Prop} {ε' : Type}

theorem ensures_pure (h : Q (.ok a) s) : Ensures (pure a : Prog σ ε α) s Q := h

def check (r : Except ε α) : Prog σ ε α := ExceptT.mk (pure r)

@[simp] theorem exec_check (r : Except ε α) (s : σ) : exec (check r : Prog σ ε α) s = (r, s) := rfl

theorem ensures_check {r : Except ε α} (h : Q r s) : Ensures (check r) s Q := h

def mapErr {ε' : Type} (f : ε → ε') (m : Prog σ ε α) : Prog σ ε' α :=
  ExceptT.mk do
    match ← ExceptT.run m with
    | .ok a => pure (.ok a)
    | .error e => pure (.error (f e))

theorem exec_mapErr (f : ε → ε') (m : Prog σ ε α) (s : σ) :
    exec (mapErr f m) s = match (exec m s).1 with
      | .ok a => (.ok a, (exec m s).2)
      | .error e => (.error (f e), (exec m s).2) := by
  simp only [exec, mapErr, ExceptT.run, ExceptT.mk, StateT.run, bind, StateT.bind]
  cases m s with
  | mk r s' => cases r <;> rfl

theorem ensures_mapErr {f : ε → ε'} {Q : Except ε' α → σ → Prop}
    (hm : Ensures m s R) (hok : ∀ a s', R (.ok a) s' → Q (.ok a) s')
    (herr : ∀ e s', R (.error e) s' → Q (.error (f e)) s') : Ensures (mapErr f m) s Q := by
  unfold Ensures at hm ⊢
  rw [exec_mapErr]
  cases h : (exec m s).1 with
  | ok a => rw [h] at hm; exact hok a _ hm
  | error e => rw [h] at hm; exact herr e _ hm

def attempt {ε' : Type} (m : Prog σ ε α) : Prog σ ε' (Option α) :=
  ExceptT.mk do
    match ← ExceptT.run m with
    | .ok a => pure (.ok (some a))
    | .error _ => pure (.ok none)

theorem exec_attempt (m : Prog σ ε α) (s : σ) :
    exec (attempt m : Prog σ ε' (Option α)) s = (.ok (exec m s).1.toOption, (exec m s).2) := by
  simp only [exec, attempt, ExceptT.run, ExceptT.mk, StateT.run, bind, StateT.bind]
  cases m s with
  | mk r s' => cases r <;> rfl

/-- The program with its outcome as its answer: a failure to be looked at. -/
def outcome (m : Prog σ ε α) : Prog σ ε (Except ε α) :=
  ExceptT.mk do
    let r ← ExceptT.run m
    pure (.ok r)

@[simp] theorem exec_outcome (m : Prog σ ε α) (s : σ) : exec (outcome m) s = (.ok (exec m s).1, (exec m s).2) := rfl

theorem exec_mapM {g : α → β} (h : ∀ a, exec (f a) s = (.ok (g a), s)) (l : List α) :
    exec (l.mapM f) s = (.ok (l.map g), s) := by
  induction l with
  | nil => rfl
  | cons a l ih =>
    rw [List.mapM_cons, exec_bind_ok (h a), exec_bind_ok ih]
    rfl

/-- If running `m` from `s` answers, the answer and the state it leaves satisfy `P`. -/
def Answers (m : Prog σ ε α) (s : σ) (P : α → σ → Prop) : Prop := ∀ a s', exec m s = (.ok a, s') → P a s'

section Answers

variable {s : σ} {P : α → σ → Prop}

theorem answers_of_ensures (h : Ensures m s Q) (hQ : ∀ a s', Q (.ok a) s' → P a s') : Answers m s P := by
  intro a s' he
  unfold Ensures at h
  rw [he] at h
  exact hQ a s' h

theorem answers_bind {m : Prog σ ε β} {f : β → Prog σ ε α} {R : β → σ → Prop} (hm : Answers m s R)
    (hf : ∀ b s', R b s' → Answers (f b) s' P) : Answers (m >>= f) s P := by
  intro a s' he
  rw [exec_bind] at he
  cases hr : (exec m s).1 with
  | error e =>
    rw [hr] at he
    cases he
  | ok b =>
    rw [hr] at he
    exact hf b _ (hm b _ (Prod.ext hr rfl)) a s' he

theorem answers_pure (h : P a s) : Answers (pure a : Prog σ ε α) s P := by
  intro a' s' he
  cases he
  exact h

theorem answers_throw (e : ε) : Answers (throw e : Prog σ ε α) s P := by
  intro a s' he
  cases he

theorem answers_mapErr {f : ε → ε'} (h : Answers m s P) : Answers (mapErr f m) s P := by
  intro a s' he
  rw [exec_mapErr] at he
  cases hr : (exec m s).1 with
  | error e =>
    rw [hr] at he
    cases he
  | ok b =>
    rw [hr] at he
    cases he
    exact h a _ (Prod.ext hr rfl)

end Answers

/-- Every run of `m` stays within `R`, whatever it answers. -/
def Within (R : σ → σ → Prop) (m : Prog σ ε α) : Prop := ∀ s, R s (exec m s).2

section Within

variable {Q R : σ → σ → Prop}

theorem within_bind [IsTrans σ R] (hm : Within R m) (hf : ∀ a, Within R (f a)) : Within R (m >>= f) := by
  intro s
  rw [exec_bind]
  cases h : (exec m s).1 with
  | ok a => exact trans_of R (hm s) (hf a _)
  | error e => exact hm s

theorem within_weaken [Trans Q R R] [Std.Refl R] (hm : Within Q m) : Within R m :=
  fun s => Trans.trans (hm s) (refl_of R _)

theorem within_after [Trans Q R R] [Std.Refl R] (hm : Within Q m) (hf : ∀ a, Within R (f a)) : Within R (m >>= f) := by
  intro s
  rw [exec_bind]
  cases h : (exec m s).1 with
  | ok a => exact Trans.trans (hm s) (hf a _)
  | error e => exact within_weaken hm s

theorem within_before [Trans R Q R] (hm : Within R m) (hf : ∀ a, Within Q (f a)) : Within R (m >>= f) := by
  intro s
  rw [exec_bind]
  cases h : (exec m s).1 with
  | ok a => exact Trans.trans (hm s) (hf a _)
  | error e => exact hm s

theorem within_pure [Std.Refl R] (a : α) : Within R (pure a : Prog σ ε α) := fun s => refl_of R s

theorem within_throw [Std.Refl R] (e : ε) : Within R (throw e : Prog σ ε α) := fun s => refl_of R s

theorem within_check [Std.Refl R] (r : Except ε α) : Within R (check r : Prog σ ε α) := fun s => refl_of R s

theorem within_get [Std.Refl R] : Within R (get : Prog σ ε σ) := fun s => refl_of R s

theorem within_mapErr {f : ε → ε'} (hm : Within R m) : Within R (mapErr f m) := by
  intro s
  rw [exec_mapErr]
  cases h : (exec m s).1 with
  | ok a => exact hm s
  | error e => exact hm s

variable (I : σ → Prop)

def Preserving (s t : σ) : Prop := I s → I t

instance : IsTrans σ (Preserving I) := ⟨fun _ _ _ hst htu hs => htu (hst hs)⟩

instance : Std.Refl (Preserving I) := ⟨fun _ hs => hs⟩

theorem within_modify {f : σ → σ} (h : ∀ s, R s (f s)) : Within R (modify f : Prog σ ε PUnit) := h

theorem within_modifyGet {f : σ → α × σ} (h : ∀ s, R s (f s).2) : Within R (modifyGet f : Prog σ ε α) := h

theorem within_outcome (hm : Within R m) : Within R (outcome m) := hm

end Within

end Prog

end TddyCoder
