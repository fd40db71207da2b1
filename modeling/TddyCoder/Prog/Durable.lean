/-
  TddyCoder.Prog.Durable — programs that can be killed between any two of their steps.

  A run leaves the state after each of its steps and how it ended; being killed is being left
  with one of the states that were passed. `Keeps m s C Q` says that every state a run of `m`
  from `s` passes satisfies `C`, and that it ends with a result and a state that satisfy `Q`.
-/

import Mathlib.Data.List.Basic

namespace TddyCoder

open List

/-- The state after each step, and how the run ended. -/
structure Ran (σ ε α : Type) where
  passed : List σ
  result : Except ε α

structure Durable (σ ε α : Type) where
  run : σ → Ran σ ε α

namespace Durable

variable {σ ε α β ι : Type} (m : Durable σ ε α)

def final (s : σ) : σ := (m.run s).passed.getLastD s

def andThen (f : α → Durable σ ε β) : Durable σ ε β where
  run s :=
    match (m.run s).result with
    | .ok a => ⟨(m.run s).passed ++ ((f a).run (m.final s)).passed, ((f a).run (m.final s)).result⟩
    | .error e => ⟨(m.run s).passed, .error e⟩

instance : Monad (Durable σ ε) where
  pure a := ⟨fun _ => ⟨[], .ok a⟩⟩
  bind := andThen

/-- A step that leaves the state alone if it fails. -/
def step (f : σ → Except ε σ) : Durable σ ε Unit where
  run s :=
    match f s with
    | .ok s' => ⟨[s'], .ok ()⟩
    | .error e => ⟨[], .error e⟩

def change (f : σ → σ) : Durable σ ε Unit := ⟨fun s => ⟨[f s], .ok ()⟩⟩

def ask (f : σ → Except ε α) : Durable σ ε α := ⟨fun s => ⟨[], f s⟩⟩

def fail (e : ε) : Durable σ ε α := ⟨fun _ => ⟨[], .error e⟩⟩

/-- The outcome as a value, so that something can be done about a failure. -/
def outcome : Durable σ ε (Except ε α) := ⟨fun s => ⟨(m.run s).passed, .ok (m.run s).result⟩⟩

/-- What holds of every state a run passes, and of how it ends. -/
structure Keeps (s : σ) (C : σ → Prop) (Q : Except ε α → σ → Prop) : Prop where
  passes : ∀ s' ∈ (m.run s).passed, C s'
  ends : Q (m.run s).result (m.final s)

variable {m : Durable σ ε α} {f : α → Durable σ ε β} {s : σ} {C : σ → Prop} {Q : Except ε α → σ → Prop}

variable {a : α}

theorem final_bind_ok (h : (m.run s).result = .ok a) : (m >>= f).final s = (f a).final (m.final s) := by
  simp only [final, bind, andThen, h]
  cases ((f a).run ((m.run s).passed.getLastD s)).passed with
  | nil => simp
  | cons x xs => simp [getLastD_eq_getLast?, getLast?_append]

theorem bind_ok (h : (m.run s).result = .ok a) :
    (m >>= f).run s = ⟨(m.run s).passed ++ ((f a).run (m.final s)).passed, ((f a).run (m.final s)).result⟩ := by
  simp only [bind, andThen, h]

variable {e : ε} {look : σ → Except ε α} {Q' : Except ε α → σ → Prop} {C' : σ → Prop} {g : σ → σ}

theorem bind_error (h : (m.run s).result = .error e) : (m >>= f).run s = ⟨(m.run s).passed, .error e⟩ := by
  simp only [bind, andThen, h]

theorem final_bind_error (h : (m.run s).result = .error e) : (m >>= f).final s = m.final s := by
  simp only [final, bind_error h]

theorem result_bind_eq_ok {b : β} : ((m >>= f).run s).result = .ok b ↔
    ∃ a, (m.run s).result = .ok a ∧ ((f a).run (m.final s)).result = .ok b := by
  cases h : (m.run s).result with
  | ok a => simp [bind_ok h]
  | error e => simp [bind_error h]

theorem ask_bind_ok (look : σ → Except ε α) (h : look s = .ok a) : (ask look >>= f).run s = (f a).run s := by
  rw [bind_ok (show ((ask look).run s).result = .ok a from h)]
  rfl

theorem ask_bind_error (look : σ → Except ε α) (h : look s = .error e) :
    (ask look >>= f).run s = ⟨[], .error e⟩ := bind_error (show ((ask look).run s).result = .error e from h)

theorem change_bind {f : Unit → Durable σ ε β} (s : σ) :
    (change g >>= f).run s = ⟨g s :: ((f ()).run (g s)).passed, ((f ()).run (g s)).result⟩ := rfl

theorem Keeps.pure (h : Q (.ok a) s) : Keeps (pure a) s C Q := ⟨by simp [Pure.pure], h⟩

theorem Keeps.fail (h : Q (.error e) s) : Keeps (fail e) s C Q := ⟨by simp [Durable.fail], h⟩

theorem Keeps.ask (h : Q (look s) s) : Keeps (ask look) s C Q := ⟨by simp [Durable.ask], h⟩

theorem Keeps.change {f : σ → σ} {Q : Except ε Unit → σ → Prop} (hC : C (f s)) (hQ : Q (.ok ()) (f s)) :
    Keeps (change f) s C Q := ⟨by simpa [Durable.change] using hC, hQ⟩

theorem Keeps.step {f : σ → Except ε σ} {Q : Except ε Unit → σ → Prop}
    (hok : ∀ s', f s = .ok s' → C s' ∧ Q (.ok ()) s') (herror : ∀ e, f s = .error e → Q (.error e) s) :
    Keeps (step f) s C Q := by
  cases h : f s with
  | ok s' =>
    obtain ⟨hC, hQ⟩ := hok s' h
    refine ⟨by simpa [Durable.step, h] using hC, ?_⟩
    simpa [final, Durable.step, h] using hQ
  | error e =>
    refine ⟨by simp [Durable.step, h], ?_⟩
    simpa [final, Durable.step, h] using herror e h

/-- A program goes on from the state the first part answered in; where that failed, it has ended. -/
theorem Keeps.bind {R : Except ε α → σ → Prop} {Q : Except ε β → σ → Prop} (hm : Keeps m s C R)
    (hok : ∀ a s', R (.ok a) s' → Keeps (f a) s' C Q) (herror : ∀ e s', R (.error e) s' → Q (.error e) s') :
    Keeps (m >>= f) s C Q := by
  obtain ⟨hpasses, hends⟩ := hm
  cases h : (m.run s).result with
  | ok a =>
    rw [h] at hends
    obtain ⟨hpasses', hends'⟩ := hok a _ hends
    refine ⟨?_, ?_⟩
    · rw [bind_ok h]
      exact forall_mem_append.mpr ⟨hpasses, hpasses'⟩
    · rw [final_bind_ok h, bind_ok h]
      exact hends'
  | error e =>
    rw [h] at hends
    refine ⟨?_, ?_⟩
    · rw [bind_error h]
      exact hpasses
    · rw [final_bind_error h, bind_error h]
      exact herror e _ hends

theorem Keeps.change_bind {f : Unit → Durable σ ε β} {Q : Except ε β → σ → Prop} (hC : C (g s))
    (h : Keeps (f ()) (g s) C Q) : Keeps (Durable.change g >>= f) s C Q := by
  refine .bind (R := fun r s' => r = .ok () ∧ s' = g s) (Keeps.change hC ⟨rfl, rfl⟩) ?_ fun _ _ h => nomatch h.1
  rintro - _ ⟨-, rfl⟩
  exact h

theorem Keeps.ask_bind {Q : Except ε β → σ → Prop}
    (hok : ∀ a, look s = .ok a → Keeps (f a) s C Q) (herror : ∀ e, look s = .error e → Q (.error e) s) :
    Keeps (Durable.ask look >>= f) s C Q := by
  refine .bind (R := fun r s' => look s = r ∧ s' = s) (Keeps.ask ⟨rfl, rfl⟩) ?_ ?_
  · rintro a _ ⟨ha, rfl⟩
    exact hok a ha
  · rintro e _ ⟨he, rfl⟩
    exact herror e he

theorem Keeps.of_run {m' : Durable σ ε α} (hrun : m.run s = m'.run s) (h : Keeps m' s C Q) : Keeps m s C Q := by
  refine ⟨?_, ?_⟩
  · rw [hrun]
    exact h.passes
  · rw [final, hrun]
    exact h.ends

theorem Keeps.outcome {Q : Except ε (Except ε α) → σ → Prop} (hm : Keeps m s C fun r s' => Q (.ok r) s') :
    Keeps (outcome m) s C Q := ⟨hm.passes, hm.ends⟩

theorem Keeps.mono (h : Keeps m s C Q) (hC : ∀ s', C s' → C' s')
    (hQ : ∀ r s', Q r s' → Q' r s') : Keeps m s C' Q' := ⟨fun s' hs' => hC s' (h.passes s' hs'), hQ _ _ h.ends⟩

theorem Keeps.and (h : Keeps m s C Q) (h' : Keeps m s C' Q') :
    Keeps m s (fun s' => C s' ∧ C' s') fun r s' => Q r s' ∧ Q' r s' :=
  ⟨fun s' hs' => ⟨h.passes s' hs', h'.passes s' hs'⟩, h.ends, h'.ends⟩

theorem final_mem (m : Durable σ ε α) (s : σ) : m.final s ∈ s :: (m.run s).passed := by
  unfold final
  cases h : (m.run s).passed.getLast? with
  | none => simp [getLastD_eq_getLast?, h]
  | some s' =>
    rw [getLastD_eq_getLast?, h]
    exact mem_cons_of_mem s (mem_of_getLast? h)

def inTurn (f : ι → Durable σ ε Unit) : List ι → Durable σ ε Unit
  | [] => pure ()
  | i :: is => do
    f i
    inTurn f is

variable {Inv : σ → Prop} {is : List ι} {r : Except ε σ}

theorem Keeps.inTurn {f : ι → Durable σ ε Unit}
    (hstep : ∀ i ∈ is, ∀ s, Inv s → Keeps (f i) s Inv fun _ => Inv) (hs : Inv s) :
    Keeps (Durable.inTurn f is) s Inv fun _ => Inv := by
  induction is generalizing s with
  | nil => exact .pure hs
  | cons i is ih =>
    refine (hstep i mem_cons_self s hs).bind (fun _ s' hs' => ?_) fun _ _ hs' => hs'
    exact ih (fun j hj => hstep j (mem_cons_of_mem i hj)) hs'

/-- What each part establishes for itself and leaves to the others is established for all of them. -/
theorem Keeps.inTurn_done (Done : ι → σ → Prop) {f : ι → Durable σ ε Unit}
    (hstep : ∀ i ∈ is, ∀ s, Inv s → Keeps (f i) s Inv fun r s' => r = .ok () ∧ Inv s' ∧ Done i s' ∧ ∀ j, Done j s → Done j s')
    (hs : Inv s) : Keeps (Durable.inTurn f is) s Inv
      fun r s' => r = .ok () ∧ Inv s' ∧ (∀ i ∈ is, Done i s') ∧ ∀ j, Done j s → Done j s' := by
  induction is generalizing s with
  | nil => exact .pure ⟨rfl, hs, by simp, fun _ h => h⟩
  | cons i is ih =>
    refine (hstep i mem_cons_self s hs).bind ?_ fun _ _ h => nomatch h.1
    rintro - s' ⟨-, hs', hdone, hkept⟩
    refine (ih (fun j hj => hstep j (mem_cons_of_mem i hj)) hs').mono (fun _ h => h) ?_
    rintro r s'' ⟨hr, hs'', hrest, hkept'⟩
    exact ⟨hr, hs'', forall_mem_cons.mpr ⟨hkept' i hdone, hrest⟩, fun j hj => hkept' j (hkept j hj)⟩

theorem Keeps.inTurn_ok {f : ι → Durable σ ε Unit}
    (hstep : ∀ i ∈ is, ∀ s, Inv s → Keeps (f i) s Inv fun r s' => r = .ok () ∧ Inv s') (hs : Inv s) :
    Keeps (Durable.inTurn f is) s Inv fun r s' => r = .ok () ∧ Inv s' := by
  refine (Keeps.inTurn_done (fun _ _ => True) ?_ hs).mono (fun _ h => h) fun _ _ h => ⟨h.1, h.2.1⟩
  intro i hi s hs
  exact (hstep i hi s hs).mono (fun _ h => h) fun _ _ h => ⟨h.1, h.2, trivial, fun _ h => h⟩

/-- The whole program as one step: it cannot be killed before its end. -/
def atOnce (m : Durable σ ε α) : Durable σ ε α := ⟨fun s => ⟨[m.final s], (m.run s).result⟩⟩

theorem Keeps.atOnce (h : Keeps m s C Q) (hC : ∀ r s', Q r s' → C s') : Keeps (atOnce m) s C Q := by
  refine ⟨?_, h.ends⟩
  intro s' hs'
  rw [mem_singleton.mp hs']
  exact hC _ _ h.ends

/-! ## Programs that go through -/

/-- The run ends with a value, and that and the state it ends in satisfy `Q`. -/
def Succeeds (m : Durable σ ε α) (s : σ) (Q : α → σ → Prop) : Prop := ∃ a, (m.run s).result = .ok a ∧ Q a (m.final s)

section succeeds

variable {Q : α → σ → Prop}

theorem Succeeds.pure (h : Q a s) : Succeeds (pure a : Durable σ ε α) s Q := ⟨a, rfl, h⟩

theorem Succeeds.bind {Q' : β → σ → Prop} (h : Succeeds m s Q) (hf : ∀ a s', Q a s' → Succeeds (f a) s' Q') :
    Succeeds (m >>= f) s Q' := by
  obtain ⟨a, ha, hQ⟩ := h
  obtain ⟨b, hb, hQ'⟩ := hf a _ hQ
  refine ⟨b, ?_, ?_⟩
  · rw [bind_ok ha]
    exact hb
  · rw [final_bind_ok ha]
    exact hQ'

theorem Succeeds.mono {Q' : α → σ → Prop} (h : Succeeds m s Q) (hQ : ∀ a s', Q a s' → Q' a s') : Succeeds m s Q' := by
  obtain ⟨a, ha, h⟩ := h
  exact ⟨a, ha, hQ a _ h⟩

theorem Succeeds.inTurn {g : ι → Durable σ ε Unit}
    (hstep : ∀ i ∈ is, ∀ s, Inv s → Succeeds (g i) s fun _ => Inv) (hs : Inv s) : Succeeds (inTurn g is) s fun _ => Inv := by
  induction is generalizing s with
  | nil => exact .pure hs
  | cons i is ih =>
    refine (hstep i mem_cons_self s hs).bind fun _ s' hs' => ?_
    exact ih (fun j hj => hstep j (mem_cons_of_mem i hj)) hs'

end succeeds

/-! ## Programs that only move along a preorder -/

/-- Every state that is passed comes after the one the run started in. -/
def Along (R : σ → σ → Prop) (m : Durable σ ε α) : Prop := ∀ s, ∀ s' ∈ (m.run s).passed, R s s'

section along

variable {R : σ → σ → Prop}

theorem Along.final (hrefl : ∀ s, R s s) (h : Along R m) (s : σ) : R s (m.final s) := by
  rcases mem_cons.mp (final_mem m s) with heq | hmem
  · rw [heq]
    exact hrefl s
  · exact h s _ hmem

theorem Along.pure : Along R (pure a : Durable σ ε α) := fun _ _ h => nomatch h

theorem Along.fail : Along R (fail e : Durable σ ε α) := fun _ _ h => nomatch h

theorem Along.ask : Along R (ask look) := fun _ _ h => nomatch h

theorem Along.change {f : σ → σ} (h : ∀ s, R s (f s)) : Along R (change f : Durable σ ε Unit) := by
  intro s s' hs'
  rw [mem_singleton.mp hs']
  exact h s

theorem Along.outcome (h : Along R m) : Along R (outcome m) := h

theorem Along.bind (hrefl : ∀ s, R s s) (htrans : ∀ {s s' s''}, R s s' → R s' s'' → R s s'') (h : Along R m)
    (hf : ∀ a, Along R (f a)) : Along R (m >>= f) := by
  intro s s' hs'
  cases hr : (m.run s).result with
  | error e =>
    rw [bind_error hr] at hs'
    exact h s s' hs'
  | ok a =>
    rw [bind_ok hr] at hs'
    rcases mem_append.mp hs' with hs' | hs'
    · exact h s s' hs'
    · exact htrans (h.final hrefl s) (hf a _ s' hs')

theorem Along.inTurn (hrefl : ∀ s, R s s) (htrans : ∀ {s s' s''}, R s s' → R s' s'' → R s s'') {f : ι → Durable σ ε Unit}
    (h : ∀ i ∈ is, Along R (f i)) : Along R (Durable.inTurn f is) := by
  induction is with
  | nil => exact .pure
  | cons i is ih =>
    exact .bind hrefl htrans (h i mem_cons_self) fun _ => ih fun j hj => h j (mem_cons_of_mem i hj)

end along

/-! ## Programs that come to a function -/

/-- A program ends as the function does, in the state the function gives. -/
structure Carries (m : Durable σ ε Unit) (s : σ) (r : Except ε σ) : Prop where
  ok : ∀ s', r = .ok s' → (m.run s).result = .ok () ∧ m.final s = s'
  error : ∀ e, r = .error e → (m.run s).result = .error e

theorem Carries.of_run {m m' : Durable σ ε Unit} (hrun : m.run s = m'.run s) (h : Carries m' s r) :
    Carries m s r := by
  have hfinal : m.final s = m'.final s := by rw [final, hrun, final]
  exact ⟨fun s' hr => by rw [hrun, hfinal]; exact h.ok s' hr, fun e hr => by rw [hrun]; exact h.error e hr⟩

theorem Carries.step (f : σ → Except ε σ) (s : σ) : Carries (step f) s (f s) := by
  refine ⟨?_, ?_⟩
  · intro s' h
    simp [Durable.step, final, h]
  · intro e h
    simp [Durable.step, h]

theorem Carries.change (f : σ → σ) (s : σ) : Carries (change f : Durable σ ε Unit) s (.ok (f s)) :=
  ⟨fun _ h => ⟨rfl, Except.ok.inj h⟩, fun _ h => nomatch h⟩

theorem Carries.pure (s : σ) : Carries (pure () : Durable σ ε Unit) s (.ok s) :=
  ⟨fun _ h => ⟨rfl, Except.ok.inj h⟩, fun _ h => nomatch h⟩

theorem Carries.fail (e : ε) (s : σ) : Carries (fail e) s (.error e) :=
  ⟨(fun _ h => nomatch h), fun _ h => congrArg Except.error (Except.error.inj h)⟩

theorem Carries.bind {m m' : Durable σ ε Unit} {g : σ → Except ε σ} (h : Carries m s r)
    (h' : ∀ s', Carries m' s' (g s')) : Carries (m >>= fun _ => m') s (r >>= g) := by
  cases hr : r with
  | error e =>
    refine ⟨(fun _ hs' => nomatch hs'), ?_⟩
    rintro _ ⟨rfl⟩
    rw [bind_error (h.error e hr)]
  | ok mid =>
    obtain ⟨hresult, hfinal⟩ := h.ok mid hr
    refine ⟨?_, ?_⟩
    · intro s' hs'
      rw [bind_ok hresult, final_bind_ok hresult, hfinal]
      exact (h' mid).ok s' hs'
    · intro e he
      rw [bind_ok hresult, hfinal]
      exact (h' mid).error e he

theorem Carries.inTurn {f : ι → Durable σ ε Unit} {g : σ → ι → Except ε σ} (h : ∀ i s, Carries (f i) s (g s i))
    (is : List ι) (s : σ) : Carries (inTurn f is) s (is.foldlM g s) := by
  induction is generalizing s with
  | nil => exact .pure s
  | cons i is ih => exact (h i s).bind ih

/-! ## Programs that are run again -/

/-- Where runs of the programs can leave the state, each killed between two steps or run to its end. A run is one that
    `meets` what is asked of it in the state it starts in. -/
inductive Reached (prog : ι → Durable σ ε α) (meets : ι → σ → Prop) (s : σ) : σ → Prop
  | start : Reached prog meets s s
  | run {s' s'' : σ} (i : ι) (h : Reached prog meets s s') (hmeets : meets i s') (hpassed : s'' ∈ ((prog i).run s').passed) :
    Reached prog meets s s''

theorem Reached.kept {prog : ι → Durable σ ε α} {meets : ι → σ → Prop}
    (hprog : ∀ i s, Inv s → meets i s → ∀ s' ∈ ((prog i).run s).passed, Inv s') (hs : Inv s) {s' : σ}
    (h : Reached prog meets s s') : Inv s' := by
  induction h with
  | start => exact hs
  | run i _ hmeets hpassed ih => exact hprog i _ ih hmeets _ hpassed

end Durable

end TddyCoder
