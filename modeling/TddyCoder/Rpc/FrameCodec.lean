/-
  TddyCoder.Rpc.FrameCodec — the frames of the byte-stream transport
  (`packages/tddy-rpc/src/transport.rs`), and the read loop of the stdio endpoint that
  decodes them (`packages/tddy-stdio/src/endpoint.rs`). A frame is a length, a kind and a
  payload; the length counts the kind.

  A stream is a list of items, each a frame or one of the two things a decoder does not take
  for one: a body of no bytes, and a kind that does not exist.

  Proved: `reads_may_be_cut_anywhere`; `frames_read_iff`, for `frames_behind_a_bad_one_are_kept`
  back.
-/

import TddyCoder.Bytes.Incremental
import TddyCoder.Bytes.Wire

namespace TddyCoder.Rpc

open Bytes List

inductive FrameKind
  | request | response
  deriving DecidableEq

def FrameKind.toByte : FrameKind → UInt8
  | .request => 0
  | .response => 1

def FrameKind.fromByte (byte : UInt8) : Option FrameKind :=
  if byte = 0 then some .request else if byte = 1 then some .response else none

open FrameKind (fromByte)

def lengthPrefixBytes : Nat := 4

def kindBytes : Nat := 1

def encodeFrame (kind : FrameKind) (payload : List UInt8) : List UInt8 :=
  toBeBytes lengthPrefixBytes (UInt32.ofNat (kindBytes + payload.length)).toNat ++ kind.toByte :: payload

/-- A decoder is its buffer. -/
abbrev FrameDecoder := List UInt8

def FrameDecoder.nextFrame (buffer : FrameDecoder) : Option ((FrameKind × List UInt8) × FrameDecoder) :=
  if buffer.length < lengthPrefixBytes then none
  else
    let bodyLen := fromBeBytes (buffer.take lengthPrefixBytes)
    if bodyLen < kindBytes then none
    else
      let frameLen := lengthPrefixBytes + bodyLen
      if buffer.length < frameLen then none
      else do
        let kind ← fromByte (buffer.getD lengthPrefixBytes 0)
        return ((kind, buffer.extract (lengthPrefixBytes + kindBytes) frameLen), buffer.drop frameLen)

open FrameDecoder (nextFrame)

/-- What the endpoint's loop hands on of what it reads: requests to its server, responses to its client. -/
def StdioEndpoint.run (reads : List (List UInt8)) : List (FrameKind × List UInt8) :=
  (feedAll nextFrame [] reads).1

/-! ## Streams -/

inductive Item
  | frame (kind : FrameKind) (payload : List UInt8)
  | noBody
  | unknown (kind : UInt8) (hkind : fromByte kind = none) (payload : List UInt8)

namespace Item

def encode : Item → List UInt8
  | frame kind payload => encodeFrame kind payload
  | noBody => toBeBytes lengthPrefixBytes 0
  | unknown kind _ payload =>
    toBeBytes lengthPrefixBytes (UInt32.ofNat (kindBytes + payload.length)).toNat ++ kind :: payload

def payload : Item → List UInt8
  | frame _ payload => payload
  | noBody => []
  | unknown _ _ payload => payload

def frame? : Item → Option (FrameKind × List UInt8)
  | frame kind payload => some (kind, payload)
  | _ => none

end Item

/-! ## The decoder -/

theorem nextFrame_eq_some {buffer payload rest : List UInt8} {kind : FrameKind} :
    let bodyLen := fromBeBytes (buffer.take lengthPrefixBytes)
    nextFrame buffer = some ((kind, payload), rest) ↔
      lengthPrefixBytes ≤ buffer.length ∧ kindBytes ≤ bodyLen ∧ lengthPrefixBytes + bodyLen ≤ buffer.length ∧
      fromByte (buffer.getD lengthPrefixBytes 0) = some kind ∧
      buffer.extract (lengthPrefixBytes + kindBytes) (lengthPrefixBytes + bodyLen) = payload ∧
      buffer.drop (lengthPrefixBytes + bodyLen) = rest := by
  unfold nextFrame
  by_cases hheader : lengthPrefixBytes ≤ buffer.length
  · rw [if_neg (Nat.not_lt.mpr hheader)]
    by_cases hbody : kindBytes ≤ fromBeBytes (buffer.take lengthPrefixBytes)
    · simp only [if_neg (Nat.not_lt.mpr hbody)]
      by_cases hframe : lengthPrefixBytes + fromBeBytes (buffer.take lengthPrefixBytes) ≤ buffer.length
      · rw [if_neg (Nat.not_lt.mpr hframe)]
        rcases fromByte (buffer.getD lengthPrefixBytes 0) with _ | k
        · simp
        · simp [hheader, hbody, hframe, and_assoc]
      · simp [hframe, Nat.lt_of_not_le hframe]
    · simp [hbody, Nat.lt_of_not_le hbody]
  · simp [hheader, Nat.lt_of_not_le hheader]

theorem nextFrame_steady : Steady nextFrame where
  nothing := rfl
  shorter := by
    rintro buffer ⟨kind, payload⟩ rest hnext
    obtain ⟨hheader, -, -, -, -, rfl⟩ := nextFrame_eq_some.mp hnext
    rw [length_drop]
    have hpos : 0 < lengthPrefixBytes := by decide
    omega
  stable := by
    rintro buffer ⟨kind, payload⟩ rest more hnext
    obtain ⟨hheader, hbody, hframe, hkind, rfl, rfl⟩ := nextFrame_eq_some.mp hnext
    have hlength : (buffer ++ more).take lengthPrefixBytes = buffer.take lengthPrefixBytes :=
      take_append_of_le_length hheader
    have hlonger : buffer.length ≤ (buffer ++ more).length := by simp
    refine nextFrame_eq_some.mpr ?_
    rw [hlength]
    refine ⟨Nat.le_trans hheader hlonger, hbody, Nat.le_trans hframe hlonger, ?_, ?_, ?_⟩
    · have hin : lengthPrefixBytes < buffer.length := by
        have : kindBytes = 1 := rfl
        omega
      rwa [getD_eq_getElem?_getD, getElem?_append_left hin, ← getD_eq_getElem?_getD]
    · rw [extract_eq_take_drop, extract_eq_take_drop, drop_append_of_le_length (by unfold kindBytes at *; omega),
        take_append_of_le_length (by rw [length_drop]; omega)]
    · exact drop_append_of_le_length hframe

section

variable {payload : List UInt8} (hsize : payload.length < 2 ^ 32 - 1)
include hsize

theorem fromBeBytes_bodyLen : fromBeBytes
    (toBeBytes lengthPrefixBytes (UInt32.ofNat (kindBytes + payload.length)).toNat) = kindBytes + payload.length := by
  have hlt : kindBytes + payload.length < 2 ^ 32 := by
    have : kindBytes = 1 := rfl
    omega
  rw [fromBeBytes_toBeBytes, UInt32.toNat_ofNat_of_lt' hlt]
  exact Nat.mod_eq_of_lt hlt

theorem nextFrame_body (kind : UInt8) (rest : List UInt8) :
    nextFrame
        (toBeBytes lengthPrefixBytes (UInt32.ofNat (kindBytes + payload.length)).toNat ++ kind :: payload ++ rest) =
      (fromByte kind).map fun k => ((k, payload), rest) := by
  have hvalue := fromBeBytes_bodyLen hsize
  have hlength := length_toBeBytes lengthPrefixBytes (UInt32.ofNat (kindBytes + payload.length)).toNat
  generalize toBeBytes lengthPrefixBytes (UInt32.ofNat (kindBytes + payload.length)).toNat = lengthBytes at *
  unfold lengthPrefixBytes kindBytes at *
  let buffer := lengthBytes ++ kind :: payload ++ rest
  have htake : buffer.take 4 = lengthBytes := by simp [buffer, append_assoc, take_left' hlength]
  have hkind : buffer.getD 4 0 = kind := by simp [buffer, append_assoc, hlength]
  have hbody : buffer.drop 5 = payload ++ rest := by simp [buffer, append_assoc, drop_append, hlength]
  have hrest : buffer.drop (4 + (1 + payload.length)) = rest := by
    rw [← Nat.add_assoc, ← drop_drop, hbody, drop_left]
  show nextFrame buffer = _
  unfold nextFrame lengthPrefixBytes kindBytes
  simp only [htake, hvalue, hkind, hrest, extract_eq_take_drop, hbody]
  rw [if_neg (by simp [buffer]; omega), if_neg (by omega), if_neg (by simp [buffer]; omega), ← Nat.add_assoc, Nat.add_sub_cancel_left,
    take_left]
  rcases fromByte kind with _ | k <;> rfl

end

theorem nextFrame_item (item : Item) (hsize : item.payload.length < 2 ^ 32 - 1) (rest : List UInt8) :
    nextFrame (item.encode ++ rest) = item.frame?.map (·, rest) := by
  cases item with
  | frame kind payload =>
    have hbyte : fromByte kind.toByte = some kind := by cases kind <;> rfl
    exact (nextFrame_body hsize kind.toByte rest).trans (by rw [hbyte]; rfl)
  | noBody => rfl
  | unknown kind hkind payload => exact (nextFrame_body hsize kind rest).trans (by rw [hkind]; rfl)

/-! ## From stream to frames -/

variable {items : List Item}

theorem drain_items (hsize : ∀ item ∈ items, item.payload.length < 2 ^ 32 - 1) :
    (drain nextFrame (items.flatMap Item.encode)).1 =
      (items.takeWhile fun item => item.frame?.isSome).filterMap Item.frame? := by
  induction items with
  | nil => rfl
  | cons item items ih =>
    have hnext := nextFrame_item item (hsize item mem_cons_self) (items.flatMap Item.encode)
    rw [flatMap_cons]
    rcases hitem : item.frame? with _ | frame
    · rw [hitem] at hnext
      rw [drain_of_none nextFrame_steady hnext, takeWhile_cons_of_neg (by simp [hitem])]
      rfl
    · rw [hitem] at hnext
      rw [drain_of_some nextFrame_steady hnext, ih fun i hi => hsize i (mem_cons_of_mem _ hi),
        takeWhile_cons_of_pos (by simp [hitem]), filterMap_cons_some hitem]

/-- No frame comes after something that is none. -/
def NoFrameBehindBad (items : List Item) : Prop :=
  ∀ before bad after, items = before ++ bad :: after → bad.frame? = none → after.filterMap Item.frame? = []

theorem noFrameBehindBad_cons {item : Item} :
    NoFrameBehindBad (item :: items) ↔
      (item.frame? = none → items.filterMap Item.frame? = []) ∧ NoFrameBehindBad items := by
  constructor
  · exact fun h => ⟨h [] item items rfl, fun before bad after e => h (item :: before) bad after (by rw [e]; rfl)⟩
  rintro ⟨hhead, htail⟩ before bad after e hbad
  rcases before with _ | ⟨first, before⟩
  · obtain ⟨rfl, rfl⟩ := cons.inj e
    exact hhead hbad
  · exact htail before bad after (cons.inj e).2 hbad

theorem noFrameBehindBad_of_none (h : items.filterMap Item.frame? = []) :
    NoFrameBehindBad items := by
  rintro before bad after rfl -
  rw [filterMap_append, append_eq_nil_iff, filterMap_cons] at h
  split at h
  · exact h.2
  · simp at h

theorem frames_takeWhile_iff (items : List Item) :
    (items.takeWhile fun item => item.frame?.isSome).filterMap Item.frame? = items.filterMap Item.frame? ↔
      NoFrameBehindBad items := by
  induction items with
  | nil => simp [NoFrameBehindBad]
  | cons item items ih =>
    rw [noFrameBehindBad_cons]
    rcases hitem : item.frame? with _ | frame
    · rw [takeWhile_cons_of_neg (by simp [hitem]), filterMap_cons_none hitem, filterMap_nil, eq_comm]
      exact ⟨fun h => ⟨fun _ => h, noFrameBehindBad_of_none h⟩, fun h => h.1 rfl⟩
    · rw [takeWhile_cons_of_pos (by simp [hitem]), filterMap_cons_some hitem, filterMap_cons_some hitem,
        cons_inj_right, ih]
      simp

open StdioEndpoint

/-- However a stream is cut into reads, its frames are handed on just if none is behind something bad. -/
theorem frames_read_iff {items : List Item} (hsize : ∀ item ∈ items, item.payload.length < 2 ^ 32 - 1)
    {reads : List (List UInt8)} (hreads : reads.flatten = items.flatMap Item.encode) :
    StdioEndpoint.run reads = items.filterMap Item.frame? ↔ NoFrameBehindBad items := by
  rw [run, feedAll_eq nextFrame_steady, hreads, drain_items hsize, frames_takeWhile_iff]

theorem frames_read_iff_split :
    StdioEndpoint.run [[0, 0, 0], [2, 0, 7, 0, 0, 0, 1], [1]] = [(.request, [7]), (.response, [])] :=
  have hreads : [[0, 0, 0], [2, 0, 7, 0, 0, 0, 1], [1]].flatten =
      [Item.frame .request [7], Item.frame .response []].flatMap Item.encode := rfl
  (frames_read_iff (by simp [Item.payload]) hreads).mpr ((frames_takeWhile_iff _).mp rfl)

theorem run_behind_bad {bad : Item} (hbad : bad.frame? = none) (hsize : bad.payload.length < 2 ^ 32 - 1)
    (behind : List UInt8) (later : List (List UInt8)) : StdioEndpoint.run ((bad.encode ++ behind) :: later) = [] := by
  have hnext := nextFrame_item bad hsize (behind ++ later.flatten)
  rw [hbad] at hnext
  rw [run, feedAll_eq nextFrame_steady, flatten_cons, append_assoc,
    drain_of_none nextFrame_steady hnext]

/-- A request behind a frame without a body, or behind one of an unknown kind, is never handed on, whatever is read
    later. -/
theorem frames_behind_a_bad_one_are_kept :
    (∀ later, StdioEndpoint.run ((Item.noBody.encode ++ encodeFrame .request [7]) :: later) = []) ∧
    ∀ later, StdioEndpoint.run (((Item.unknown 2 rfl [9]).encode ++ encodeFrame .request [7]) :: later) = [] :=
  ⟨run_behind_bad rfl (by decide) _, run_behind_bad rfl (by decide) _⟩

/-- Whatever the bytes are, how the reads cut them makes no difference. -/
theorem reads_may_be_cut_anywhere (reads : List (List UInt8)) :
    StdioEndpoint.run reads = StdioEndpoint.run [reads.flatten] := by
  rw [run, run, feedAll_eq nextFrame_steady, feedAll_eq nextFrame_steady, flatten_singleton]

end TddyCoder.Rpc
