/-
  TddyCoder.Terminal.Capture — a terminal's retained output
  (`packages/tddy-task/src/terminal_capture.rs`): a window of the bytes the process has
  written, with the offsets it stands at, and the input modes the process has switched on.
  Bytes are evicted from the front, to the end of an escape sequence that the limit cuts.

  Offsets are natural numbers; the code's are 64 bits wide. The screen model that the code
  feeds besides is not part of this.
-/

import Mathlib.Data.List.Sort
import Mathlib.Algebra.Order.Ring.Nat

namespace TddyCoder.Terminal

open List

/-! ## Escape sequences -/

inductive ParserState
  | ground | escape | escapeIntermediate | csi | stringPayload | stringPayloadEscape
  deriving DecidableEq

inductive StreamEvent
  | privateMode (modes : List Nat) (enabled : Bool)
  | fullReset
  | keypad (application : Bool)
  | cursorStyle (style : Nat)

structure EscapeParser where
  state : ParserState
  params : List Nat
  currentParam : Nat
  readingParam : Bool
  isPrivate : Bool
  spaceIntermediate : Bool

namespace EscapeParser

def new : EscapeParser := ⟨.ground, [], 0, false, false, false⟩

variable (p : EscapeParser)

def atSequenceBoundary : Bool := p.state = .ground

def esc : UInt8 := 0x1b
def bel : UInt8 := 0x07
def risFinal : UInt8 := 0x63
def maxCsiParams : Nat := 16

variable (byte : UInt8)

def isIntermediate : Bool := 0x20 ≤ byte && byte ≤ 0x2f
def isParamSeparator : Bool := 0x3a ≤ byte && byte ≤ 0x3b
def isCsiFinal : Bool := 0x40 ≤ byte && byte ≤ 0x7e

/-- `c`, `=` and `>` after the escape byte. -/
def escapeEvent : Option StreamEvent :=
  if byte = risFinal then some .fullReset
  else if byte = 0x3d then some (.keypad true)
  else if byte = 0x3e then some (.keypad false)
  else none

def beginCsi : EscapeParser :=
  { p with params := [], currentParam := 0, readingParam := false, isPrivate := false, spaceIntermediate := false }

def finishParam : EscapeParser :=
  if !p.readingParam then p
  else
    { p with
      params := if p.params.length < maxCsiParams then p.params ++ [min p.currentParam 65535] else p.params
      currentParam := 0
      readingParam := false }

/-- `h`, `l` and `q` are the final bytes that matter. -/
def finishCsi (finalByte : UInt8) : Option StreamEvent × EscapeParser :=
  let p := p.finishParam
  if (finalByte = 0x68 || finalByte = 0x6c) && p.isPrivate then (some (.privateMode p.params (finalByte = 0x68)), p)
  else if finalByte = 0x71 && p.spaceIntermediate && !p.isPrivate then (some (.cursorStyle (p.params.headD 0)), p)
  else (none, p)

/-- Digits saturate at 32 bits. -/
def feedCsi : Option StreamEvent × EscapeParser :=
  if 0x30 ≤ byte && byte ≤ 0x39 then
    (none,
      { p with
        currentParam := min (min (p.currentParam * 10) (2 ^ 32 - 1) + (byte.toNat - 0x30)) (2 ^ 32 - 1)
        readingParam := true })
  else if isParamSeparator byte then (none, p.finishParam)
  else if byte = 0x3f then (none, { p with isPrivate := true })
  else if byte = 0x20 then (none, { p with spaceIntermediate := true })
  else if byte = esc then (none, { p with state := .escape })
  else if isCsiFinal byte then finishCsi { p with state := .ground } byte
  else (none, p)

def feed : Option StreamEvent × EscapeParser :=
  match p.state with
  | .ground => (none, if byte = esc then { p with state := .escape } else p)
  | .escape =>
    match escapeEvent byte with
    | some event => (some event, { p with state := .ground })
    | none =>
      (none,
        if byte = 0x5b then { p.beginCsi with state := .csi }
        else if byte = 0x5d || byte = 0x50 || byte = 0x58 || byte = 0x5e || byte = 0x5f then
          { p with state := .stringPayload }
        else if byte = esc then { p with state := .escape }
        else if isIntermediate byte then { p with state := .escapeIntermediate }
        else { p with state := .ground })
  | .escapeIntermediate =>
    (none,
      if byte = esc then { p with state := .escape }
      else if isIntermediate byte then { p with state := .escapeIntermediate }
      else { p with state := .ground })
  | .csi => p.feedCsi byte
  | .stringPayload =>
    (none,
      if byte = bel then { p with state := .ground }
      else if byte = esc then { p with state := .stringPayloadEscape }
      else { p with state := .stringPayload })
  | .stringPayloadEscape =>
    (none,
      if byte = 0x5c then { p with state := .ground }
      else if byte = esc then { p with state := .stringPayloadEscape }
      else { p with state := .stringPayload })

end EscapeParser

/-! ## Input modes -/

structure InputModes where
  enabled : List Nat
  alternateScreen : Bool
  applicationKeypad : Bool
  cursorStyle : Option Nat

namespace InputModes

def mouseTrackingModes : List Nat := [1000, 1002, 1003, 1005, 1006, 1015, 1016]
def otherInputModes : List Nat := [1004, 2004]
def alternateScreenModes : List Nat := [47, 1047, 1049]

def default : InputModes := ⟨[], false, false, none⟩

/-- The set of modes is kept in ascending order. -/
def applyPrivateMode (on : Bool) (m : InputModes) (mode : Nat) : InputModes :=
  if mode ∈ alternateScreenModes then { m with alternateScreen := on }
  else if mode ∉ mouseTrackingModes ++ otherInputModes then m
  else if on then
    { m with enabled := if mode ∈ m.enabled then m.enabled else m.enabled.orderedInsert (· ≤ ·) mode }
  else { m with enabled := m.enabled.erase mode }

def apply (m : InputModes) : StreamEvent → InputModes
  | .privateMode modes enabled => modes.foldl (applyPrivateMode enabled) m
  | .keypad application => { m with applicationKeypad := application }
  | .cursorStyle style => { m with cursorStyle := if style ≠ 0 then some style else none }
  | .fullReset => default

/-- `ESC [ ? mode h` for the mouse modes that are on. -/
def prologue (m : InputModes) : List UInt8 :=
  (m.enabled.filter (· ∈ mouseTrackingModes)).flatMap fun mode =>
    [0x1b, 0x5b, 0x3f] ++ (Nat.toDigits 10 mode).map (fun digit => UInt8.ofNat digit.toNat) ++ [0x68]

end InputModes

/-! ## The window -/

structure CaptureChunk where
  data : List UInt8
  startOffset : Nat
  endOffset : Nat
  atOldest : Bool
  atEnd : Bool

structure TerminalCapture where
  buffer : List UInt8
  startOffset : Nat
  endOffset : Nat
  modes : InputModes
  sniffer : EscapeParser
  evicted : EscapeParser

namespace TerminalCapture

def captureLimitBytes : Nat := 64 * 1024
def maxSequenceChaseBytes : Nat := 1024

def new : TerminalCapture := ⟨[], 0, 0, .default, .new, .new⟩

variable (c : TerminalCapture) (data : List UInt8)

def sniffModes : TerminalCapture :=
  data.foldl (fun c byte =>
    let (event, sniffer) := c.sniffer.feed byte
    { c with sniffer := sniffer, modes := (event.map c.modes.apply).getD c.modes }) c

/-- Goes on over `rest` until a sequence ends there: how many bytes that takes, and the parser then. -/
def chase (parser : EscapeParser) : List UInt8 → Nat × EscapeParser
  | [] => (0, parser)
  | byte :: rest =>
    if parser.atSequenceBoundary then (0, parser)
    else
      let (more, parser) := chase (parser.feed byte).2 rest
      (more + 1, parser)

def evictToLimit : TerminalCapture :=
  let overflow := c.buffer.length - captureLimitBytes
  if overflow = 0 then c
  else
    let parser := (c.buffer.take overflow).foldl (fun p byte => (p.feed byte).2) c.evicted
    let chased := chase parser ((c.buffer.drop overflow).take maxSequenceChaseBytes)
    { c with
      buffer := c.buffer.drop (overflow + chased.1)
      startOffset := c.startOffset + (overflow + chased.1)
      evicted := chased.2 }

def append : TerminalCapture :=
  let c := c.sniffModes data
  evictToLimit { c with buffer := c.buffer ++ data, endOffset := c.endOffset + data.length }

def modePrologue : List UInt8 := c.modes.prologue

/-- `forward_chunk` of `terminal_capture/paging.rs`. -/
def forwardChunk (window : List UInt8) (windowStart windowEnd fromOffset untilOffset maxBytes : Nat) : CaptureChunk :=
  let chunkStart := max fromOffset windowStart
  let cap := if untilOffset = 0 then windowEnd else min untilOffset windowEnd
  if chunkStart ≥ cap then ⟨[], chunkStart, chunkStart, chunkStart = windowStart, true⟩
  else
    let chunkEnd := min (chunkStart + maxBytes) cap
    ⟨window.extract (chunkStart - windowStart) (chunkEnd - windowStart), chunkStart, chunkEnd,
      chunkStart = windowStart, chunkEnd ≥ cap⟩

def replayFrom (fromOffset untilOffset maxBytes : Nat) : CaptureChunk :=
  forwardChunk c.buffer c.startOffset c.endOffset fromOffset untilOffset maxBytes

/-! ## What the window holds -/

/-- The capture of a terminal whose process has written `output`. -/
structure Window (output : List UInt8) : Prop where
  tip : c.endOffset = output.length
  oldest : c.startOffset ≤ output.length
  bytes : c.buffer = output.drop c.startOffset

theorem new_window : Window new [] := ⟨rfl, Nat.le_refl 0, rfl⟩

theorem chase_le (parser : EscapeParser) (rest : List UInt8) : (chase parser rest).1 ≤ rest.length := by
  induction rest generalizing parser with
  | nil => exact Nat.le_refl 0
  | cons byte rest ih =>
    unfold chase
    split
    · exact Nat.zero_le _
    · exact Nat.succ_le_succ (ih _)

theorem sniffModes_window :
    (c.sniffModes data).buffer = c.buffer ∧ (c.sniffModes data).startOffset = c.startOffset ∧
      (c.sniffModes data).endOffset = c.endOffset := by
  induction data generalizing c with
  | nil => exact ⟨rfl, rfl, rfl⟩
  | cons byte data ih => exact ih _

variable {output : List UInt8} {c : TerminalCapture}

theorem evictToLimit_window (h : Window c output) :
    Window c.evictToLimit output := by
  unfold evictToLimit
  simp only
  split
  · exact h
  generalize hparser : (c.buffer.take _).foldl _ c.evicted = parser
  have hchase := chase_le parser ((c.buffer.drop (c.buffer.length - captureLimitBytes)).take maxSequenceChaseBytes)
  have hlength : c.buffer.length = output.length - c.startOffset := by rw [h.bytes, length_drop]
  rw [length_take, length_drop] at hchase
  refine ⟨h.tip, by simp only; omega, ?_⟩
  rw [h.bytes, drop_drop]

theorem append_window (h : Window c output) (data : List UInt8) :
    Window (c.append data) (output ++ data) := by
  obtain ⟨hbuffer, hstart, hend⟩ := sniffModes_window c data
  unfold append
  refine evictToLimit_window ⟨?_, ?_, ?_⟩
  · simp [hend, h.tip]
  · rw [length_append]
    exact Nat.le_trans (Nat.le_of_eq hstart) (Nat.le_add_right_of_le h.oldest)
  · simp only [hbuffer, hstart, h.bytes]
    exact (drop_append_of_le_length h.oldest).symm

section

variable {c : TerminalCapture} {output : List UInt8} (h : Window c output) (fromOffset maxBytes : Nat)
include h

theorem replayFrom_spec :
    let chunk := c.replayFrom fromOffset 0 maxBytes
    chunk.startOffset = max fromOffset c.startOffset ∧ chunk.startOffset ≤ chunk.endOffset ∧
      chunk.data = output.extract chunk.startOffset chunk.endOffset ∧
      (fromOffset ≤ output.length → chunk.endOffset ≤ output.length) ∧
      (chunk.atEnd = true ↔ output.length ≤ chunk.endOffset) := by
  have holdest := h.oldest
  have htip := h.tip
  unfold replayFrom forwardChunk
  simp only [if_true]
  split
  · rename_i hdone
    refine ⟨rfl, Nat.le_refl _, by simp, fun hfrom => by simp only; omega, by simp only; simp; omega⟩
  rename_i hmore
  refine ⟨rfl, by simp only; omega, ?_, fun _ => by simp only; omega, by simp [htip]⟩
  simp only
  rw [h.bytes, extract_eq_take_drop, extract_eq_take_drop, drop_drop]
  congr 1
  · omega
  · congr 1
    omega

end

end TerminalCapture

end TddyCoder.Terminal
