/-
  TddyCoder.SessionSync.Epochs — a tick taken for seen has been applied, over whole histories
  of rooms and client processes (`TddyCoder.SessionSync.Rooms`).

  `last_seq` outlives the room that numbered it: the marker does not name the room, and the
  next room starts again at 1. A record of the new room at or below it is taken for seen
  though the mirror has nothing of that tick; one just above it is applied, and makes the
  ticks below it look applied too.

  Proved: `run_nothingSkipped`, where neither happens (`InStep`); else
  `first_tick_of_a_second_room_skipped`.
-/

import TddyCoder.Machine.Guarded
import TddyCoder.SessionSync.Rooms

namespace TddyCoder.SessionSync

open Machine List
open TddyCoder.Tree
open SessionRoom (AgentActivityRecord noTick)

/-- Every tick skipped as already seen is held. -/
def NothingSkipped (s : Sync) : Prop := ∀ room tick, (room, tick) ∈ s.copy.skipped → Holds s.copy.held room tick

/-- `last_seq` counts the open room's ticks, or no tick at all, or is too far below the record's to follow. -/
def InStep (s : Sync) : Event → Prop
  | .activity record _ _ _ =>
    s.copy.numberedIn = s.room ∨ s.copy.lastSeq = 0 ∨ s.copy.lastSeq + 1 < record.activitySeq
  | _ => True

/-- Nothing is skipped, and while `last_seq` counts the open room's ticks the mirror holds them all. -/
structure Abreast (s : Sync) : Prop where
  skipped : NothingSkipped s
  room : s.copy.numberedIn ≤ s.room
  counted : s.copy.numberedIn = s.room → ∀ tick, noTick < tick → tick ≤ s.copy.lastSeq → Holds s.copy.held s.room tick

theorem Holds.cons {held : List Held} {room tick : Nat} (h : Holds held room tick) (x : Held) :
    Holds (x :: held) room tick := by
  rcases h with h | ⟨newest, h, hle⟩
  · exact .inl (mem_cons_of_mem x h)
  · exact .inr ⟨newest, mem_cons_of_mem x h, hle⟩

/-- Heard in step, the ticks up to `last_seq` are held, unless the record is past them all. -/
theorem Abreast.holds {s : Sync} (h : Abreast s) {seq : Nat}
    (hin : s.copy.numberedIn = s.room ∨ s.copy.lastSeq = 0 ∨ s.copy.lastSeq + 1 < seq)
    (hseq : seq ≤ s.copy.lastSeq + 1) {tick : Nat} (hpos : noTick < tick) (hle : tick ≤ s.copy.lastSeq) :
    Holds s.copy.held s.room tick := by
  rcases hin with hroom | hzero | hgap
  · exact h.counted hroom tick hpos hle
  · unfold noTick at hpos
    omega
  · omega

theorem Abreast.restore {s : Sync} (h : Abreast s) {m : Mirror} {running : Bool}
    (hseq : m.marker.lastSeq ≤ s.newest ∨ m.marker.lastSeq = s.copy.lastSeq) :
    Abreast { s with running := running, copy := s.copy.restore s.room s.newest m } := by
  refine ⟨?_, ?_, ?_⟩
  · intro room tick hmem
    exact (h.skipped room tick hmem).cons _
  · show (if m.marker.lastSeq ≤ s.newest then s.room else s.copy.numberedIn) ≤ s.room
    split
    · exact le_rfl
    · exact h.room
  intro hroom tick hpos hle
  have hle' : tick ≤ m.marker.lastSeq := by
    exact hle
  by_cases hreached : m.marker.lastSeq ≤ s.newest
  · exact .inr ⟨s.newest, mem_cons_self, hle'.trans hreached⟩
  have hnumbered : (if m.marker.lastSeq ≤ s.newest then s.room else s.copy.numberedIn) = s.room := hroom
  rw [if_neg hreached] at hnumbered
  have hsame : m.marker.lastSeq = s.copy.lastSeq := hseq.resolve_left hreached
  exact (h.counted hnumbered tick hpos (hle'.trans hsame.le)).cons _

theorem Abreast.moved {S : Session} {s s' : Sync} {e : Event} (h : Abreast s) (hin : InStep s e)
    (hm : Moved S s e s') : Abreast s' := by
  cases hm with
  | quiet newest hosted running hn => exact ⟨h.skipped, h.room, h.counted⟩
  | opened =>
    refine ⟨h.skipped, Nat.le_succ_of_le h.room, ?_⟩
    intro hroom
    have hroom' : s.copy.numberedIn = s.room + 1 := hroom
    have := h.room
    omega
  | initialised m hoffers hrepo =>
    have hlast : (s.copy.keep { m with repo := some {} }).lastSeq = s.copy.lastSeq :=
      (Copy.lastSeq_of_offers hoffers).symm
    refine ⟨h.skipped, h.room, ?_⟩
    intro hroom tick hpos hle
    exact h.counted hroom tick hpos (hle.trans hlast.le)
  | attached m hoffers hrepo => exact h.restore (.inr (Copy.lastSeq_of_offers hoffers).symm)
  | skipped m tick hdisk hpos hle hseen =>
    have hlast := Copy.lastSeq_of_disk hdisk
    refine ⟨?_, h.room, h.counted⟩
    intro room tick' hmem
    rcases mem_cons.mp hmem with heq | hold
    · cases heq
      exact h.holds hin (by omega) (hpos.trans_le hle) (by omega)
    · exact h.skipped room tick' hold
  | applied m repo commit tick hdisk hrepo hhead hrecord hnewest hnext =>
    have hlast := Copy.lastSeq_of_disk hdisk
    have hadvanced : (s.copy.apply s.room tick (m.advanced (S.delta s.room tick))).lastSeq = tick :=
      (Copy.lastSeq_of_disk rfl).trans (S.seq_eq s.room tick)
    refine ⟨?_, le_rfl, ?_⟩
    · intro room tick' hmem
      exact (h.skipped room tick' hmem).cons _
    intro _ tick' hpos hle
    have hle' : tick' ≤ tick := hle.trans hadvanced.le
    rcases hle'.eq_or_lt with rfl | hlt
    · exact .inl mem_cons_self
    · exact (h.holds hin (by omega) hpos (by omega)).cons _
  | reconciled m repo tick hdisk hrepo hnew hnewest hrun hrefused => exact h.restore (.inl hnewest)
  | followed m repo hdisk hrepo hrun => exact h.restore (.inr (Copy.lastSeq_of_disk hdisk).symm)

/-- In a run whose records are all heard in step, every tick skipped in any state is held. -/
theorem run_nothingSkipped (S : Session) {events reached : List Event}
    (h : Guarded (Sync.step S) InStep {} events) (hr : reached <+: events) :
    NothingSkipped (reached.foldl (Sync.step S) {}) := by
  have hinit : Abreast {} := by
    refine ⟨?_, le_rfl, ?_⟩
    · intro room tick hmem
      cases hmem
    · intro _ tick hpos hle
      exact absurd (hpos.trans_le hle) (lt_irrefl _)
  have hstep : ∀ s e, Abreast s → InStep s e → Abreast (Sync.step S s e) :=
    fun s e hs hin => hs.moved hin (step_moved S s e)
  exact (guarded_reached hstep hinit h hr).skipped

/-- A session whose ticks count: each writes its number to one file. -/
def counting : Session where
  dest := "mirror"
  address := ⟨"s1", "daemon", "app"⟩
  tree _ tick := fun path => if path = "n" then some [tick.toUInt8] else none
  delta _ tick := ⟨tick, tick - 1, "c0", [⟨"n", some [(tick - 1).toUInt8], some [tick.toUInt8]⟩]⟩
  seq_eq _ _ := rfl
  prevSeq_eq _ _ := rfl
  exact _ tick := by
    funext path
    by_cases hp : path = "n" <;> simp [patched, hp]

def firstRoom : List Event := [.start true (.ok ⟨"c0", fun _ => none⟩), .tick, hears 1]

def secondRoom : List Event := [.closeRoom, .openRoom, .start true (.ok ⟨"c0", fun _ => none⟩)]

theorem late_tick_of_a_second_room_held :
    ((firstRoom ++ secondRoom ++ [.tick, .tick, .tick, hears 3, hears 1]).foldl (Sync.step counting) {}).copy.skipped =
        [(1, 1)] ∧
      NothingSkipped ((firstRoom ++ secondRoom ++ [.tick, .tick, .tick, hears 3, hears 1]).foldl (Sync.step counting) {}) := by
  have hguard : Guarded (Sync.step counting) InStep {}
      (firstRoom ++ secondRoom ++ [.tick, .tick, .tick, hears 3, hears 1]) :=
    ⟨trivial, trivial, .inl (by decide), trivial, trivial, trivial, trivial, trivial, trivial, .inr (.inr (by decide)),
      .inl (by decide), trivial⟩
  exact ⟨by decide, run_nothingSkipped counting hguard (prefix_refl _)⟩

/-- The second room's first tick is taken for the first room's, and never reaches the mirror. -/
theorem first_tick_of_a_second_room_skipped :
    ¬ ∀ (S : Session) (events : List Event), NothingSkipped (events.foldl (Sync.step S) {}) := by
  intro h
  have hskipped : (1, 1) ∈ ((firstRoom ++ secondRoom ++ [.tick, hears 1]).foldl (Sync.step counting) {}).copy.skipped := by
    decide
  have hheld : ((firstRoom ++ secondRoom ++ [.tick, hears 1]).foldl (Sync.step counting) {}).copy.held =
      [.patch 0 1, .restore 0 0] := by decide
  have hholds := h counting (firstRoom ++ secondRoom ++ [.tick, hears 1]) 1 1 hskipped
  rw [hheld] at hholds
  simp [Holds] at hholds

end TddyCoder.SessionSync
