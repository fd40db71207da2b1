/-
  TddyCoder.Posix.Processes — the kernel's table of processes, for programs that fork, wait and
  signal by pid.

  A process is named by its place in `made`, the list of all processes in the order they were
  made; that name is never used again. A pid is not such a name: it is taken by at most one
  process that has not been waited for, and free again afterwards (`distinct`). A process that
  exits keeps its pid until its parent waits for it.
-/

import Mathlib.Data.List.Basic

namespace TddyCoder.Posix

inductive Life
  | running
  | exited (status : Nat)
  | waited
deriving DecidableEq

/-- A process, and what it was made for. -/
structure Process (κ : Type) where
  pid : Nat
  kind : κ
  life : Life
deriving DecidableEq

variable {κ : Type} (a : Process κ)

def Process.Present : Prop := a.life ≠ .waited

instance : Decidable a.Present := inferInstanceAs (Decidable (a.life ≠ .waited))

def Process.exit (status : Nat) (a : Process κ) : Process κ :=
  match a.life with
  | .running => { a with life := .exited status }
  | _ => a

def Process.wait : Process κ :=
  match a.life with
  | .exited _ => { a with life := .waited }
  | _ => a

/-- Same pid and purpose, and not back from being waited for: what becomes of a process. -/
structure Process.Aged (b : Process κ) : Prop where
  pid : b.pid = a.pid
  kind : b.kind = a.kind
  present : b.Present → a.Present
  running : b.life = .running → b = a

theorem Process.aged_exit (status : Nat) (a : Process κ) : a.Aged (a.exit status) := by
  obtain ⟨pid, kind, life⟩ := a
  cases life <;> constructor <;> simp [Process.exit, Process.Present]

theorem Process.aged_wait : a.Aged a.wait := by
  obtain ⟨pid, kind, life⟩ := a
  cases life <;> constructor <;> simp [Process.wait, Process.Present]

structure Processes (κ : Type) where
  made : List (Process κ)
  distinct : ∀ (m n : Nat) (a b : Process κ), made[m]? = some a → made[n]? = some b →
    a.Present → b.Present → a.pid = b.pid → m = n

namespace Processes

variable (t : Processes κ)

def empty : Processes κ := ⟨[], by simp⟩

def Free (pid : Nat) : Prop := ∀ a ∈ t.made, a.Present → a.pid ≠ pid

instance (pid : Nat) : Decidable (t.Free pid) :=
  inferInstanceAs (Decidable (∀ a ∈ t.made, a.Present → a.pid ≠ pid))

variable {pid : Nat}

theorem distinct_append (h : t.Free pid) (kind : κ) (m n : Nat) (a b : Process κ)
    (ha : (t.made ++ [⟨pid, kind, .running⟩])[m]? = some a) (hb : (t.made ++ [⟨pid, kind, .running⟩])[n]? = some b)
    (hpa : a.Present) (hpb : b.Present) (hpid : a.pid = b.pid) : m = n := by
  rw [List.getElem?_append] at ha hb
  have hlast : ∀ {i : Nat} {c : Process κ}, [Process.mk pid kind .running][i]? = some c → i = 0 ∧ c.pid = pid := by
    intro i c hc
    obtain ⟨hi, rfl⟩ := List.getElem?_eq_some_iff.mp hc
    have : i = 0 := by simpa using hi
    subst this
    exact ⟨rfl, rfl⟩
  split at ha <;> split at hb
  · exact t.distinct m n a b ha hb hpa hpb hpid
  · exact absurd (hpid.trans (hlast hb).2) (h a (List.mem_of_getElem? ha) hpa)
  · exact absurd (hpid.symm.trans (hlast ha).2) (h b (List.mem_of_getElem? hb) hpb)
  · have := (hlast ha).1
    have := (hlast hb).1
    omega

def fork (pid : Nat) (kind : κ) : Option (Processes κ) :=
  if h : t.Free pid then some ⟨t.made ++ [⟨pid, kind, .running⟩], t.distinct_append h kind⟩ else none

def age (n : Nat) (f : Process κ → Process κ) (hf : ∀ a : Process κ, a.Aged (f a)) : Processes κ where
  made := t.made.modify n f
  distinct := by
    have hback : ∀ {m : Nat} {b : Process κ}, (t.made.modify n f)[m]? = some b →
        ∃ a, t.made[m]? = some a ∧ a.Aged b := by
      intro m b hb
      rw [List.getElem?_modify] at hb
      obtain ⟨a, ha, rfl⟩ := Option.map_eq_some_iff.mp hb
      refine ⟨a, ha, ?_⟩
      split
      · exact hf a
      · exact ⟨rfl, rfl, id, fun _ => rfl⟩
    intro m n' a b ha hb hpa hpb hpid
    obtain ⟨a', ha', aged_a⟩ := hback ha
    obtain ⟨b', hb', aged_b⟩ := hback hb
    exact t.distinct m n' a' b' ha' hb' (aged_a.present hpa) (aged_b.present hpb)
      (aged_a.pid.symm.trans (hpid.trans aged_b.pid))

def exit (n status : Nat) : Processes κ := t.age n (Process.exit status) (Process.aged_exit status)

def wait (n : Nat) : Processes κ := t.age n Process.wait Process.aged_wait

def holder (pid : Nat) : Option Nat := t.made.findIdx? fun a => a.life ≠ .waited ∧ a.pid = pid

def zombies (mine : κ → Bool) : List Nat :=
  (List.range t.made.length).filter fun n =>
    match t.made[n]? with
    | some ⟨_, kind, .exited _⟩ => mine kind
    | _ => false

variable {t}

variable {t' : Processes κ}

theorem ext (h : t.made = t'.made) : t = t' := by
  cases t
  cases t'
  cases h
  rfl

variable {kind : κ}

theorem fork_eq_some : t.fork pid kind = some t' ↔ t.Free pid ∧ t'.made = t.made ++ [⟨pid, kind, .running⟩] := by
  unfold fork
  split
  · rename_i h
    rw [Option.some.injEq]
    exact ⟨fun e => ⟨h, e ▸ rfl⟩, fun e => ext e.2.symm⟩
  · rename_i h
    simp [h]

variable {n : Nat}

section

variable (h : t.fork pid kind = some t')
include h

theorem made_fork {b : Process κ}
    (hb : t'.made[n]? = some b) : t.made[n]? = some b ∨ n = t.made.length ∧ b = ⟨pid, kind, .running⟩ := by
  rw [(fork_eq_some.mp h).2, List.getElem?_append] at hb
  split at hb
  · exact .inl hb
  · obtain ⟨hi, rfl⟩ := List.getElem?_eq_some_iff.mp hb
    have : n - t.made.length = 0 := by simpa using hi
    exact .inr ⟨by omega, by simp [this]⟩

theorem fork_keeps {a : Process κ}
    (ha : t.made[n]? = some a) : t'.made[n]? = some a := by
  have hn : n < t.made.length := (List.getElem?_eq_some_iff.mp ha).1
  rw [(fork_eq_some.mp h).2, List.getElem?_append_left hn, ha]

theorem fork_newest : t'.made[t.made.length]? = some ⟨pid, kind, .running⟩ := by
  simp [(fork_eq_some.mp h).2]

end

variable {m status : Nat}

theorem made_age {f : Process κ → Process κ} {hf : ∀ a : Process κ, a.Aged (f a)} :
    (t.age n f hf).made[m]? = (t.made[m]?).map fun a => if n = m then f a else a :=
  List.getElem?_modify ..

theorem exit_running (h : (t.exit n status).made[m]? = some ⟨pid, kind, .running⟩) :
    t.made[m]? = some ⟨pid, kind, .running⟩ := by
  rw [exit, made_age] at h
  obtain ⟨a, ha, hnow⟩ := Option.map_eq_some_iff.mp h
  rw [ha]
  split at hnow
  · have hsame := (Process.aged_exit status a).running (by rw [hnow])
    rw [← hsame, hnow]
  · rw [hnow]

theorem exit_present {life : Life} (h : t.made[m]? = some ⟨pid, kind, life⟩)
    (hlife : life ≠ .waited) : ∃ life, (t.exit n status).made[m]? = some ⟨pid, kind, life⟩ ∧ life ≠ .waited := by
  rw [exit, made_age, h, Option.map_some]
  split
  · cases life <;> simp_all [Process.exit]
  · exact ⟨life, rfl, hlife⟩

theorem wait_other (h : n ≠ m) : (t.wait n).made[m]? = t.made[m]? := by
  rw [wait, made_age]
  simp [h]

theorem wait_running : (t.wait n).made[m]? = some ⟨pid, kind, .running⟩ ↔ t.made[m]? = some ⟨pid, kind, .running⟩ := by
  rw [wait, made_age]
  rcases t.made[m]? with _ | ⟨pid', kind', _ | _ | _⟩ <;> split <;> simp [Process.wait]

theorem holder_eq_some : t.holder pid = some n ↔ ∃ a, t.made[n]? = some a ∧ a.Present ∧ a.pid = pid := by
  rw [holder, List.findIdx?_eq_some_iff_getElem]
  constructor
  · rintro ⟨hn, hhas, -⟩
    exact ⟨t.made[n], List.getElem?_eq_getElem hn, by simpa [Process.Present] using hhas⟩
  rintro ⟨a, ha, hpresent, hpid⟩
  obtain ⟨hn, rfl⟩ := List.getElem?_eq_some_iff.mp ha
  refine ⟨hn, by simpa [Process.Present] using And.intro hpresent hpid, ?_⟩
  intro m hm hhas
  obtain ⟨hp, he⟩ : t.made[m].Present ∧ t.made[m].pid = pid := by
    simpa [Process.Present] using hhas
  have := t.distinct m n _ _ (List.getElem?_eq_getElem (by omega)) ha hp hpresent (he.trans hpid.symm)
  omega

end Processes

end TddyCoder.Posix
