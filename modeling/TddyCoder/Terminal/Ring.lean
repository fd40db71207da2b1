/-
  TddyCoder.Terminal.Ring — what a terminal's capture holds after any number of writes
  (`packages/tddy-task/src/terminal_capture.rs`: `append`, `evict_to_limit`).

  The eviction side parses what it drops, and goes on to the end of a sequence it would cut, for
  `maxSequenceChaseBytes` at most. The code's additions saturate at 64 bits, which no history of
  less than 2^64 bytes comes to.

  Proved: `the_ring_is_the_end_of_the_output`.
-/

import TddyCoder.Terminal.Capture
import Mathlib.Data.List.Induction

namespace TddyCoder.Terminal.TerminalCapture

open List

/-- The parser after these bytes of the output. -/
def parsed (bytes : List UInt8) : EscapeParser := bytes.foldl (fun p byte => (p.feed byte).2) .new

def appendAll (chunks : List (List UInt8)) : TerminalCapture := chunks.foldl append new

/-- Appending `data` evicts, and the chase goes as far as it may: to its limit, or to the end of the buffer. -/
def ChaseStopped (c : TerminalCapture) (data : List UInt8) : Prop :=
  let overflow := c.buffer.length + data.length - captureLimitBytes
  0 < overflow ∧
    ((c.append data).startOffset = c.startOffset + (overflow + maxSequenceChaseBytes) ∨ (c.append data).buffer = [])

theorem chase_spec (parser : EscapeParser) (rest : List UInt8) :
    (chase parser rest).2 = (rest.take (chase parser rest).1).foldl (fun p byte => (p.feed byte).2) parser ∧
      ((chase parser rest).2.atSequenceBoundary = false → (chase parser rest).1 = rest.length) ∧
      ∀ j < (chase parser rest).1, ((rest.take j).foldl (fun p byte => (p.feed byte).2) parser).atSequenceBoundary = false := by
  induction rest generalizing parser with
  | nil => simp [chase]
  | cons byte rest ih =>
    rw [chase]
    split
    · next hboundary => simp [hboundary]
    · next hinside =>
      obtain ⟨hparser, hlength, hbefore⟩ := ih (parser.feed byte).2
      refine ⟨by simpa using hparser, fun h => by simpa using hlength h, fun j hj => ?_⟩
      cases j with
      | zero => simpa using hinside
      | succ j => exact hbefore j (Nat.lt_of_succ_lt_succ hj)

/-- From `i` on the chase would not come to the end of a sequence. -/
def Unbroken (output : List UInt8) (i : Nat) : Prop :=
  i + maxSequenceChaseBytes ≤ output.length ∧
    ∀ j ≤ maxSequenceChaseBytes, (parsed (output.take (i + j))).atSequenceBoundary = false

/-- The ring of a terminal whose process has written `output`. -/
structure Holds (c : TerminalCapture) (output : List UInt8) : Prop where
  window : Window c output
  within : c.buffer.length ≤ captureLimitBytes
  evicted : c.evicted = parsed (output.take c.startOffset)

variable {c : TerminalCapture} {output data : List UInt8} (chunks : List (List UInt8))

theorem parsed_append (bytes more : List UInt8) :
    parsed (bytes ++ more) = more.foldl (fun p byte => (p.feed byte).2) (parsed bytes) := foldl_append

theorem sniffModes_evicted (c : TerminalCapture) (data : List UInt8) : (c.sniffModes data).evicted = c.evicted := by
  induction data generalizing c with
  | nil => rfl
  | cons byte data ih => exact ih _

theorem evictToLimit_cases (h : Window c output) (hparser : c.evicted = parsed (output.take c.startOffset)) :
    c.buffer.length ≤ captureLimitBytes ∧ c.evictToLimit = c ∨
      ∃ n ≤ maxSequenceChaseBytes, 0 < c.buffer.length - captureLimitBytes ∧
        c.evictToLimit = { c with
          buffer := c.buffer.drop (c.buffer.length - captureLimitBytes + n)
          startOffset := c.startOffset + (c.buffer.length - captureLimitBytes + n)
          evicted := parsed (output.take (c.startOffset + (c.buffer.length - captureLimitBytes + n))) } ∧
        ((parsed (output.take (c.startOffset + (c.buffer.length - captureLimitBytes + n)))).atSequenceBoundary = false →
          n = maxSequenceChaseBytes ∧ Unbroken output (c.startOffset + (c.buffer.length - captureLimitBytes))) := by
  unfold evictToLimit
  simp only
  split
  · exact .inl ⟨by omega, rfl⟩
  have hlimit : maxSequenceChaseBytes ≤ captureLimitBytes := by decide
  have hbuffer : c.buffer.length = output.length - c.startOffset := by rw [h.bytes, length_drop]
  generalize hover : c.buffer.length - captureLimitBytes = overflow at *
  obtain ⟨p, hp⟩ : ∃ p, p = parsed (output.take (c.startOffset + overflow)) := ⟨_, rfl⟩
  have hcut : (c.buffer.take overflow).foldl (fun p byte => (p.feed byte).2) c.evicted = p := by
    rw [hp, hparser, ← parsed_append, take_add, ← h.bytes]
  have hat : ∀ j ≤ maxSequenceChaseBytes,
      (((c.buffer.drop overflow).take maxSequenceChaseBytes).take j).foldl (fun p byte => (p.feed byte).2) p =
        parsed (output.take (c.startOffset + overflow + j)) := by
    intro j hj
    rw [hp, ← parsed_append, take_take, Nat.min_eq_left hj, h.bytes, drop_drop, ← take_add]
  obtain ⟨hchased, hlength, hbefore⟩ := chase_spec p ((c.buffer.drop overflow).take maxSequenceChaseBytes)
  have hle := chase_le p ((c.buffer.drop overflow).take maxSequenceChaseBytes)
  rw [hcut]
  generalize chase p ((c.buffer.drop overflow).take maxSequenceChaseBytes) = chased at *
  rw [length_take, length_drop] at hle hlength
  rw [hat _ (by omega), Nat.add_assoc] at hchased
  refine .inr ⟨chased.1, by omega, by omega, by rw [hchased], ?_⟩
  intro hinside
  have hall := hlength (hchased ▸ hinside)
  have hmax : chased.1 = maxSequenceChaseBytes := by omega
  refine ⟨hmax, by omega, fun j hj => ?_⟩
  rcases Nat.lt_or_eq_of_le hj with hlt | rfl
  · rw [← hat j hj]
    exact hbefore j (by omega)
  · rw [Nat.add_assoc, ← hmax]
    exact hinside

/-- What an append does to the ring. -/
structure Appended (c : TerminalCapture) (data output : List UInt8) (c' : TerminalCapture) : Prop where
  holds : Holds c' (output ++ data)
  start_le : c.startOffset ≤ c'.startOffset
  inside : c'.evicted.atSequenceBoundary = false →
    c'.evicted = c.evicted ∧ c'.startOffset = c.startOffset ∨ ChaseStopped c data ∧ ∃ i, Unbroken (output ++ data) i

theorem append_appended (h : Holds c output) (data : List UInt8) : Appended c data output (c.append data) := by
  obtain ⟨hbuffer, hstart, hend⟩ := sniffModes_window c data
  have hevicted := sniffModes_evicted c data
  have hwindow := append_window h.window data
  have holdest := h.window.oldest
  generalize hfed : ({ c.sniffModes data with
    buffer := (c.sniffModes data).buffer ++ data
    endOffset := (c.sniffModes data).endOffset + data.length } : TerminalCapture) = fed
  have happend : c.append data = fed.evictToLimit := by rw [← hfed]; rfl
  have hlength : fed.buffer.length = c.buffer.length + data.length := by rw [← hfed]; simp [hbuffer]
  have hfedStart : fed.startOffset = c.startOffset := by rw [← hfed]; exact hstart
  have hfedWindow : Window fed (output ++ data) := by
    rw [← hfed]
    refine ⟨by simp [hend, h.window.tip], by simp [hstart]; omega, ?_⟩
    simp only [hbuffer, hstart, h.window.bytes]
    exact (drop_append_of_le_length holdest).symm
  have hfedEvicted : fed.evicted = c.evicted := by rw [← hfed]; exact hevicted
  have hparser : fed.evicted = parsed ((output ++ data).take fed.startOffset) := by
    rw [hfedEvicted, hfedStart, take_append_of_le_length holdest, h.evicted]
  rcases evictToLimit_cases hfedWindow hparser with ⟨hle, hsame⟩ | ⟨n, -, hover, heq, hinside⟩
  · rw [happend, hsame]
    exact ⟨⟨hfedWindow, hle, hparser⟩, Nat.le_of_eq hfedStart.symm, fun _ => .inl ⟨hfedEvicted, hfedStart⟩⟩
  have hstopped : n = maxSequenceChaseBytes → ChaseStopped c data := by
    intro hn
    refine ⟨hlength ▸ hover, .inl ?_⟩
    rw [happend, heq, hlength, hfedStart, hn]
  rw [happend, heq] at hwindow ⊢
  refine ⟨⟨hwindow, ?_, rfl⟩, ?_, fun hfalse => .inr ⟨hstopped (hinside hfalse).1, _, (hinside hfalse).2⟩⟩
  · rw [length_drop]
    omega
  · rw [← hfedStart]
    exact Nat.le_add_right _ _

theorem appendAll_snoc (data : List UInt8) :
    appendAll (chunks ++ [data]) = (appendAll chunks).append data := by
  rw [appendAll, foldl_append, foldl_cons, foldl_nil, ← appendAll]

theorem appendAll_holds : Holds (appendAll chunks) chunks.flatten := by
  induction chunks using reverseRecOn with
  | nil => exact ⟨new_window, Nat.zero_le captureLimitBytes, rfl⟩
  | append_singleton chunks data ih =>
    rw [appendAll_snoc, flatten_append, flatten_singleton]
    exact (append_appended ih data).holds

theorem starts_inside (h : (appendAll chunks).evicted.atSequenceBoundary = false) :
    (∃ before data after, chunks = before ++ data :: after ∧ ChaseStopped (appendAll before) data ∧
      ((appendAll before).append data).startOffset = (appendAll chunks).startOffset) ∧ ∃ i, Unbroken chunks.flatten i := by
  induction chunks using reverseRecOn with
  | nil => cases h
  | append_singleton chunks data ih =>
    rw [appendAll_snoc] at h ⊢
    rw [flatten_append, flatten_singleton]
    rcases (append_appended (appendAll_holds chunks) data).inside h with ⟨hevicted, hstart⟩ | ⟨hstopped, hunbroken⟩
    · obtain ⟨⟨before, data', after, hchunks, hstopped, hsame⟩, i, hlength, hinside⟩ := ih (hevicted ▸ h)
      refine ⟨⟨before, data', after ++ [data], by simp [hchunks], hstopped, hsame.trans hstart.symm⟩, i, ?_, fun j hj => ?_⟩
      · rw [length_append]
        omega
      · rw [take_append_of_le_length (by omega)]
        exact hinside j hj
    · exact ⟨⟨chunks, data, [], rfl, hstopped, rfl⟩, hunbroken⟩

/-- The ring after any writes. -/
theorem the_ring_is_the_end_of_the_output (chunks : List (List UInt8)) :
    let c := appendAll chunks
    let output := chunks.flatten
    c.buffer = output.extract c.startOffset c.endOffset ∧ c.endOffset = output.length ∧
      c.buffer.length ≤ captureLimitBytes ∧
      (∀ data, c.startOffset ≤ (c.append data).startOffset ∧ c.endOffset ≤ (c.append data).endOffset) ∧
      c.evicted = parsed (output.take c.startOffset) ∧
      (c.evicted.atSequenceBoundary = false → ∃ before data after, chunks = before ++ data :: after ∧
        ChaseStopped (appendAll before) data ∧ ((appendAll before).append data).startOffset = c.startOffset) := by
  intro c output
  have h : Holds c output := appendAll_holds chunks
  refine ⟨?_, h.window.tip, h.within, ?_, h.evicted, fun hinside => (starts_inside chunks hinside).1⟩
  · rw [h.window.tip, extract_eq_take_drop, take_of_length_le (by rw [length_drop])]
    exact h.window.bytes
  intro data
  have happended := append_appended h data
  have htip := happended.holds.window.tip
  exact ⟨happended.start_le, by rw [htip, h.window.tip, length_append]; omega⟩

end TddyCoder.Terminal.TerminalCapture
