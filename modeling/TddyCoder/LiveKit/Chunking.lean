/-
  TddyCoder.LiveKit.Chunking — the chunking codec of the LiveKit transport, which exists
  twice: `packages/tddy-livekit/src/chunking.rs` and its mirror
  `packages/tddy-livekit-web/src/chunking.ts` (`Web`). A payload that fits in a packet goes
  raw; any other is split into frames `[magic][message id][total chunks][index]`.

  The web receiver reads a clock at each frame, which is an argument here, and drops messages
  whose last frame is older than its limit; that is the one thing the other does not do.
-/

import TddyCoder.Bytes.Wire
import TddyCoder.Table.Assoc

namespace TddyCoder.LiveKit

open Bytes Table List

/-! ## Sending -/

def maxChunkFrameBytes : Nat := 60000

def chunkFrameMagic : UInt8 := 0

def headerLen : Nat := 13

def maxDataBytesPerFrame (maxFrameBytes : Nat) : Nat := maxFrameBytes - headerLen

def isChunkFrame (bytes : List UInt8) : Bool := bytes.head? = some chunkFrameMagic

variable (messageId : UInt32)

def chunkFrame (totalChunks index : Nat) (data : List UInt8) : List UInt8 :=
  chunkFrameMagic :: (toLeBytes 4 messageId.toNat ++ toLeBytes 4 (UInt32.ofNat totalChunks).toNat ++
    toLeBytes 4 (UInt32.ofNat index).toNat ++ data)

variable (payload : List UInt8) (maxFrameBytes : Nat)

def dataChunks : List (List UInt8) :=
  if payload.isEmpty then [[]] else chunks (max (maxDataBytesPerFrame maxFrameBytes) 1) payload

def splitIntoFrames : List (List UInt8) :=
  let parts := dataChunks payload maxFrameBytes
  parts.mapIdx fun index data => chunkFrame messageId parts.length index data

def fitsRaw : Bool :=
  payload.length ≤ maxChunkFrameBytes && payload.head? ≠ some chunkFrameMagic

def frameForTransport : List (List UInt8) :=
  if fitsRaw payload then [payload] else splitIntoFrames messageId payload maxChunkFrameBytes

namespace Web

/-- The loop over the payload; `fuel` bounds its rounds, each of which moves the offset. -/
def subarrays (payload : List UInt8) (dataBudget : Nat) : Nat → Nat → List (List UInt8)
  | 0, _ => []
  | fuel + 1, offset =>
    if offset < payload.length then
      payload.extract offset (min (offset + dataBudget) payload.length) ::
        subarrays payload dataBudget fuel (offset + dataBudget)
    else []

def dataChunks : List (List UInt8) :=
  if payload.length = 0 then [payload.extract 0 0]
  else subarrays payload (max (maxDataBytesPerFrame maxFrameBytes) 1) payload.length 0

def splitIntoFrames : List (List UInt8) :=
  let parts := dataChunks payload maxFrameBytes
  parts.mapIdx fun index data => chunkFrame messageId parts.length index data

def fitsRaw : Bool :=
  payload.length ≤ maxChunkFrameBytes && payload[0]? ≠ some chunkFrameMagic

def frameForTransport : List (List UInt8) :=
  if fitsRaw payload then [payload] else splitIntoFrames messageId payload maxChunkFrameBytes

end Web

/-! ## Receiving -/

/-- `ChunkError::Malformed`, of which `ChunkError` shows the text after "malformed chunk frame: ". -/
structure ChunkError where
  malformed : String
  deriving DecidableEq

def hexDigits (n : UInt8) : String := String.ofList (Nat.toDigits 16 n.toNat)

def hexByte (n : UInt8) : String := if n.toNat < 16 then "0" ++ hexDigits n else hexDigits n

def tooShort (frame : List UInt8) : ChunkError :=
  ⟨"frame is " ++ toString frame.length ++ " bytes, shorter than the " ++ toString headerLen ++ "-byte header"⟩

def missingChunk (index : Nat) : ChunkError :=
  ⟨"message " ++ toString messageId.toNat ++ " is missing chunk " ++ toString index⟩

def u32At (frame : List UInt8) (start : Nat) : UInt32 := UInt32.ofNat (fromLeBytes (frame.extract start (start + 4)))

structure PendingMessage where
  totalChunks : Nat
  chunks : Assoc UInt32 (List UInt8)

def PendingMessage.add (entry : PendingMessage) (index : UInt32) (data : List UInt8) : PendingMessage :=
  { entry with chunks := entry.chunks.insert index data }

def PendingMessage.assemble (entry : PendingMessage) : Except ChunkError (List UInt8) := do
  let parts ← (List.range entry.totalChunks).mapM fun index =>
    match entry.chunks.lookup (UInt32.ofNat index) with
    | some chunk => .ok chunk
    | none => .error (missingChunk messageId index)
  return parts.flatten

structure ChunkReassembler where
  pending : Assoc UInt32 PendingMessage

namespace ChunkReassembler

variable (r : ChunkReassembler)

def entryFor (messageId : UInt32) (totalChunks : Nat) : PendingMessage :=
  let entry := (r.pending.lookup messageId).getD ⟨totalChunks, ∅⟩
  if entry.totalChunks ≠ totalChunks then ⟨totalChunks, ∅⟩ else entry

def place (messageId : UInt32) (totalChunks : Nat) (index : UInt32) (data : List UInt8) :
    Except ChunkError (Option (List UInt8)) × ChunkReassembler :=
  let entry := (r.entryFor messageId totalChunks).add index data
  if entry.chunks.entries.length < entry.totalChunks then (.ok none, ⟨r.pending.insert messageId entry⟩)
  else ((entry.assemble messageId).map some, ⟨r.pending.erase messageId⟩)

def accept (frame : List UInt8) :
    Except ChunkError (Option (List UInt8)) × ChunkReassembler :=
  if frame.length < headerLen then (.error (tooShort frame), r)
  else if frame.head? ≠ some chunkFrameMagic then
    (.error ⟨"frame does not begin with the chunk magic (0x" ++ hexByte (frame.headD 0) ++ " != 0x" ++
      hexByte chunkFrameMagic ++ ")"⟩, r)
  else r.place (u32At frame 1) (u32At frame 5).toNat (u32At frame 9) (frame.drop headerLen)

def receive (packet : List UInt8) : Except ChunkError (Option (List UInt8)) × ChunkReassembler :=
  if isChunkFrame packet then r.accept packet else (.ok (some packet), r)

end ChunkReassembler

namespace Web

structure PendingMessage extends LiveKit.PendingMessage where
  lastFrameAtMs : Int

@[ext] structure ChunkReassembler where
  pending : Assoc UInt32 PendingMessage
  partialTtlMs : Int

def defaultPartialTtlMs : Int := 30000

namespace ChunkReassembler

variable (r : ChunkReassembler) (now : Int)

def evictExpired : ChunkReassembler :=
  { r with
    pending := retain (fun messageId =>
      !(r.pending.lookup messageId).any fun entry => decide (now - entry.lastFrameAtMs > r.partialTtlMs)) r.pending }

def entryFor (messageId : UInt32) (totalChunks : Nat) : PendingMessage :=
  match r.pending.lookup messageId with
  | some entry => if entry.totalChunks ≠ totalChunks then ⟨⟨totalChunks, ∅⟩, now⟩ else entry
  | none => ⟨⟨totalChunks, ∅⟩, now⟩

def place (messageId : UInt32) (totalChunks : Nat) (index : UInt32)
    (data : List UInt8) : Except ChunkError (Option (List UInt8)) × ChunkReassembler :=
  let entry : PendingMessage := ⟨(r.entryFor now messageId totalChunks).add index data, now⟩
  if entry.chunks.entries.length < entry.totalChunks then (.ok none, { r with pending := r.pending.insert messageId entry })
  else ((entry.assemble messageId).map some, { r with pending := r.pending.erase messageId })

def accept (frame : List UInt8) :
    Except ChunkError (Option (List UInt8)) × ChunkReassembler :=
  if frame.length < headerLen then (.error (tooShort frame), r)
  else if frame.head? ≠ some chunkFrameMagic then
    (.error ⟨"frame does not begin with the chunk magic (0x" ++ hexDigits (frame.headD 0) ++ " != 0x00)"⟩, r)
  else (r.evictExpired now).place now (u32At frame 1) (u32At frame 5).toNat (u32At frame 9) (frame.drop headerLen)

def receive (packet : List UInt8) :
    Except ChunkError (Option (List UInt8)) × ChunkReassembler :=
  if isChunkFrame packet then r.accept now packet else (.ok (some packet), r)

end ChunkReassembler

end Web

/-! ## The packets of a payload -/

theorem maxData_pos : 0 < max (maxDataBytesPerFrame maxFrameBytes) 1 := by omega

theorem flatten_dataChunks :
    (dataChunks payload maxFrameBytes).flatten = payload := by
  unfold dataChunks
  split
  · simp_all
  · exact flatten_chunks (maxData_pos maxFrameBytes) payload

theorem length_dataChunks :
    0 < (dataChunks payload maxFrameBytes).length := by
  unfold dataChunks
  split
  · simp
  rename_i hne
  have hpos := length_pos_iff.mpr (by simpa using hne)
  rw [length_chunks]
  exact Nat.div_pos (by omega) (maxData_pos maxFrameBytes)

theorem length_chunkFrame (totalChunks index : Nat) (data : List UInt8) :
    (chunkFrame messageId totalChunks index data).length = headerLen + data.length := by
  simp [chunkFrame, headerLen]
  omega

variable {messageId : UInt32} {payload frame : List UInt8} {i : Nat}

theorem length_le_of_mem_splitIntoFrames {maxFrameBytes : Nat}
    (h : frame ∈ splitIntoFrames messageId payload maxFrameBytes) : frame.length ≤ max maxFrameBytes (headerLen + 1) := by
  obtain ⟨index, hindex, rfl⟩ := mem_mapIdx.mp h
  rw [length_chunkFrame]
  have hdata : ((dataChunks payload maxFrameBytes)[index]).length ≤ max (maxDataBytesPerFrame maxFrameBytes) 1 := by
    generalize hpart : (dataChunks payload maxFrameBytes)[index] = part
    have hmem := hpart ▸ getElem_mem hindex
    unfold dataChunks at hmem
    split at hmem
    · simp_all
    · exact length_le_of_mem_chunks hmem
  simp only [maxDataBytesPerFrame] at hdata
  omega

theorem isChunkFrame_of_fitsRaw (h : fitsRaw payload = true) : isChunkFrame payload = false := by
  simp_all [fitsRaw, isChunkFrame]

namespace Web

theorem subarrays_eq (payload : List UInt8) {dataBudget : Nat} (hpos : 0 < dataBudget) (fuel offset : Nat)
    (hfuel : payload.length ≤ offset + fuel) :
    subarrays payload dataBudget fuel offset = chunks dataBudget (payload.drop offset) := by
  induction fuel generalizing offset with
  | zero => rw [subarrays, drop_of_length_le (by omega), chunks_nil hpos]
  | succ fuel ih =>
    unfold subarrays
    split
    · rename_i hmore
      have hcut : payload.extract offset (min (offset + dataBudget) payload.length) =
          (payload.drop offset).take dataBudget := by
        rw [extract_eq_take_drop, ← Nat.sub_min_sub_right, Nat.add_sub_cancel_left, ← length_drop,
          ← take_eq_take_min]
      have hne : payload.drop offset ≠ [] := by simpa using hmore
      rw [ih _ (by omega), hcut, chunks_of_ne_nil hpos hne, drop_drop]
    · rw [drop_of_length_le (by omega), chunks_nil hpos]

theorem dataChunks_eq (payload : List UInt8) (maxFrameBytes : Nat) :
    dataChunks payload maxFrameBytes = LiveKit.dataChunks payload maxFrameBytes := by
  unfold dataChunks LiveKit.dataChunks
  rcases payload with _ | ⟨b, payload⟩
  · rfl
  · rw [if_neg (by simp), if_neg (by simp), subarrays_eq _ (maxData_pos maxFrameBytes) _ _ (by simp)]
    rfl

theorem frameForTransport_eq (messageId : UInt32) (payload : List UInt8) :
    frameForTransport messageId payload = LiveKit.frameForTransport messageId payload := by
  have hraw : fitsRaw payload = LiveKit.fitsRaw payload := by simp [fitsRaw, LiveKit.fitsRaw, head?_eq_getElem?]
  simp only [frameForTransport, LiveKit.frameForTransport, hraw, splitIntoFrames, LiveKit.splitIntoFrames, dataChunks_eq]

end Web

/-! ## Frames at a receiver -/

theorem u32At_append {before after : List UInt8} {start : Nat} (hstart : before.length = start) (n : UInt32) :
    u32At (before ++ (toLeBytes 4 n.toNat ++ after)) start = n := by
  have hcut : (before ++ (toLeBytes 4 n.toNat ++ after)).extract start (start + 4) = toLeBytes 4 n.toNat := by
    simp [extract_eq_take_drop, ← hstart, take_left']
  rw [u32At, hcut, fromLeBytes_toLeBytes, Nat.mod_eq_of_lt (by have := n.toNat_lt; omega), UInt32.ofNat_toNat]

section

variable (messageId : UInt32) (totalChunks index : Nat) (data : List UInt8)

theorem isChunkFrame_chunkFrame : isChunkFrame (chunkFrame messageId totalChunks index data) = true := rfl

theorem u32At_chunkFrame :
    u32At (chunkFrame messageId totalChunks index data) 1 = messageId ∧
      u32At (chunkFrame messageId totalChunks index data) 5 = UInt32.ofNat totalChunks ∧
      u32At (chunkFrame messageId totalChunks index data) 9 = UInt32.ofNat index := by
  have hmagic : [chunkFrameMagic].length = 1 := rfl
  have hid : (chunkFrameMagic :: toLeBytes 4 messageId.toNat).length = 5 := by simp
  have htotal : (chunkFrameMagic :: (toLeBytes 4 messageId.toNat ++
      toLeBytes 4 (UInt32.ofNat totalChunks).toNat)).length = 9 := by simp
  refine ⟨?_, ?_, ?_⟩
  · simpa only [chunkFrame, append_assoc, cons_append, nil_append] using u32At_append hmagic messageId
  · simpa only [chunkFrame, append_assoc, cons_append] using u32At_append hid (UInt32.ofNat totalChunks)
  · simpa only [chunkFrame, append_assoc, cons_append] using u32At_append htotal (UInt32.ofNat index)

theorem drop_chunkFrame : (chunkFrame messageId totalChunks index data).drop headerLen = data := by
  simp [chunkFrame, headerLen, drop_append, drop_of_length_le]

theorem accept_chunkFrame (r : ChunkReassembler) :
    r.accept (chunkFrame messageId totalChunks index data) =
      r.place messageId (UInt32.ofNat totalChunks).toNat (UInt32.ofNat index) data := by
  obtain ⟨hid, htotal, hindex⟩ := u32At_chunkFrame messageId totalChunks index data
  rw [ChunkReassembler.accept, if_neg (by rw [length_chunkFrame]; omega), if_neg (by simp [chunkFrame]), hid, htotal,
    hindex, drop_chunkFrame]

theorem Web.accept_chunkFrame (r : Web.ChunkReassembler) (now : Int) :
    r.accept now (chunkFrame messageId totalChunks index data) =
      (r.evictExpired now).place now messageId (UInt32.ofNat totalChunks).toNat (UInt32.ofNat index) data := by
  obtain ⟨hid, htotal, hindex⟩ := u32At_chunkFrame messageId totalChunks index data
  rw [Web.ChunkReassembler.accept, if_neg (by rw [length_chunkFrame]; omega), if_neg (by simp [chunkFrame]), hid, htotal,
    hindex, drop_chunkFrame]

end

def Gathered (parts : List (List UInt8)) (indices : List Nat) (entry : PendingMessage) : Prop :=
  entry.totalChunks = parts.length ∧
    entry.chunks.entries.Perm (indices.map fun i => ⟨UInt32.ofNat i, parts.getD i []⟩)

section

variable {parts : List (List UInt8)} (hsize : parts.length < 2 ^ 32) {indices : List Nat} {entry : PendingMessage}
include hsize

theorem Gathered.insert (h : Gathered parts indices entry) (hbound : ∀ j ∈ indices, j < parts.length)
    (hi : i < parts.length) (hnew : i ∉ indices) :
    Gathered parts (indices ++ [i]) (entry.add (UInt32.ofNat i) (parts.getD i [])) := by
  have hkey : UInt32.ofNat i ∉ entry.chunks := by
    intro hmem
    have hkeys := (h.2.map Sigma.fst).mem_iff.mp hmem
    obtain ⟨j, hj, e⟩ : ∃ j ∈ indices, UInt32.ofNat j = UInt32.ofNat i := by simpa using hkeys
    have hlt := hbound j hj
    have heq := congrArg UInt32.toNat e
    rw [UInt32.toNat_ofNat_of_lt' (Nat.lt_trans hlt hsize),
      UInt32.toNat_ofNat_of_lt' (Nat.lt_trans hi hsize)] at heq
    exact hnew (heq ▸ hj)
  refine ⟨h.1, ?_⟩
  rw [PendingMessage.add, AList.insert_of_notMem hkey, map_append]
  exact (h.2.cons _).trans (perm_append_singleton _ _).symm

end

theorem mapM_eq_ok {α β ε : Type} {f : α → Except ε β} {g : α → β} {l : List α} (h : ∀ a ∈ l, f a = .ok (g a)) :
    l.mapM f = .ok (l.map g) := by
  induction l with
  | nil => rfl
  | cons a l ih =>
    rw [mapM_cons, h a (by simp), ih fun b hb => h b (by simp [hb])]
    rfl

variable {entry : PendingMessage} {parts : List (List UInt8)} {indices : List Nat}

theorem Gathered.assemble
    (h : Gathered parts indices entry) (hall : ∀ i < parts.length, i ∈ indices) (messageId : UInt32) :
    entry.assemble messageId = .ok parts.flatten := by
  have hparts : (List.range parts.length).map (fun i => parts.getD i []) = parts :=
    ext_getElem (by simp) fun i hi hi' => by simp [getD_eq_getElem?_getD, hi']
  have hread : ∀ i ∈ List.range entry.totalChunks,
      (match entry.chunks.lookup (UInt32.ofNat i) with
        | some chunk => .ok chunk
        | none => .error (missingChunk messageId i)) = (.ok (parts.getD i []) : Except ChunkError _) := by
    intro i hi
    have hmem : i ∈ indices := hall i (by simpa [h.1] using hi)
    rw [lookup_eq_some.mpr (h.2.mem_iff.mpr (mem_map_of_mem hmem))]
  rw [PendingMessage.assemble, mapM_eq_ok hread, h.1, hparts]
  rfl

theorem place_gathered {r : ChunkReassembler}
    (hsize : parts.length < 2 ^ 32) {later : List Nat}
    (h : Gathered parts indices ((r.pending.lookup messageId).getD ⟨parts.length, ∅⟩))
    (hperm : (indices ++ i :: later).Perm (List.range parts.length)) :
    if later = [] then
      r.place messageId parts.length (UInt32.ofNat i) (parts.getD i []) =
        (.ok (some parts.flatten), ⟨r.pending.erase messageId⟩)
    else ∃ entry, Gathered parts (indices ++ [i]) entry ∧
      r.place messageId parts.length (UInt32.ofNat i) (parts.getD i []) =
        (.ok none, ⟨r.pending.insert messageId entry⟩) := by
  have hmem : ∀ j, j ∈ indices ++ i :: later ↔ j < parts.length := fun j => by rw [hperm.mem_iff, mem_range]
  have hnodup : (indices ++ i :: later).Nodup := hperm.nodup_iff.mpr nodup_range
  have hnew : i ∉ indices := fun hi => disjoint_of_nodup_append hnodup hi (by simp)
  have hlength : indices.length + 1 + later.length = parts.length := by
    simpa [Nat.add_assoc, Nat.add_comm 1] using hperm.length_eq
  have hinsert := h.insert hsize (fun j hj => (hmem j).mp (by simp [hj])) ((hmem i).mp (by simp)) hnew
  have hcount := hinsert.2.length_eq
  rw [length_map, length_append, length_singleton] at hcount
  have hentry : r.entryFor messageId parts.length = (r.pending.lookup messageId).getD ⟨parts.length, ∅⟩ :=
    if_neg (not_not_intro h.1)
  unfold ChunkReassembler.place
  rw [hentry]
  split
  · rename_i hlast
    subst hlast
    rw [if_neg (by rw [hcount, hinsert.1]; simp at hlength; omega), hinsert.assemble fun j hj => (hmem j).mpr hj]
    rfl
  · rename_i hmore
    have hpos := length_pos_iff.mpr hmore
    exact ⟨_, hinsert, if_pos (by rw [hcount, hinsert.1]; omega)⟩

/-! ## The web receiver -/

namespace Web

def Mirrors (w : ChunkReassembler) (r : LiveKit.ChunkReassembler) : Prop :=
  ∀ messageId, (w.pending.lookup messageId).map (·.toPendingMessage) = r.pending.lookup messageId

variable {w : ChunkReassembler} {now : Int}

theorem Mirrors.lookup {r : LiveKit.ChunkReassembler} (h : Mirrors w r)
    (hentry : w.pending.lookup messageId = some entry) :
    r.pending.lookup messageId = some entry.toPendingMessage := by
  rw [← h messageId, hentry]
  rfl

def NoneExpired (w : ChunkReassembler) (now : Int) : Prop :=
  ∀ messageId entry, w.pending.lookup messageId = some entry → now - entry.lastFrameAtMs ≤ w.partialTtlMs

theorem evictExpired_eq (h : NoneExpired w now) : w.evictExpired now = w := by
  unfold ChunkReassembler.evictExpired
  rw [retain_eq_self]
  intro messageId entry hentry
  have hle := h messageId entry hentry
  simpa [hentry] using hle

variable {w : ChunkReassembler} {r : LiveKit.ChunkReassembler}

theorem entryFor_mirrors (h : Mirrors w r) (now : Int) (messageId : UInt32) (totalChunks : Nat) :
    (w.entryFor now messageId totalChunks).toPendingMessage = r.entryFor messageId totalChunks := by
  unfold ChunkReassembler.entryFor LiveKit.ChunkReassembler.entryFor
  rw [← h messageId]
  rcases w.pending.lookup messageId with _ | entry
  · simp
  · simp only [Option.map_some, Option.getD_some]
    split <;> rfl

theorem accept_mirrors (h : Mirrors w r) (hnone : NoneExpired w now)
    (hframe : isChunkFrame frame = true) :
    (w.accept now frame).1 = (r.accept frame).1 ∧ Mirrors (w.accept now frame).2 (r.accept frame).2 := by
  have hmagic : ¬ frame.head? ≠ some chunkFrameMagic := by simpa [isChunkFrame] using hframe
  unfold ChunkReassembler.accept LiveKit.ChunkReassembler.accept
  by_cases hshort : frame.length < headerLen
  · simp [hshort, h]
  rw [if_neg hshort, if_neg hshort, if_neg hmagic, if_neg hmagic, evictExpired_eq hnone]
  unfold ChunkReassembler.place LiveKit.ChunkReassembler.place
  simp only [entryFor_mirrors h]
  split
  · refine ⟨rfl, fun other => ?_⟩
    by_cases hother : other = u32At frame 1
    · subst hother
      simp
    · simpa [AList.lookup_insert_ne hother] using h other
  refine ⟨rfl, fun other => ?_⟩
  by_cases hother : other = u32At frame 1
  · subst hother
    simp
  · simpa [AList.lookup_erase_ne hother] using h other

end Web

end TddyCoder.LiveKit
