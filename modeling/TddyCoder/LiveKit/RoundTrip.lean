/-
  TddyCoder.LiveKit.RoundTrip — a batch of messages over the LiveKit channel: framed by
  either sender, their packets delivered in any order, put together by either receiver.

  A delivery is a permutation of the packets' positions. A receiver holds, of every message some
  but not all of whose packets have come, just those (`Holds`); the web receiver holds the same,
  as long as no message waits longer for a packet than it is kept (`Timely`).

  Proved: `chunk_round_trip`; `a_late_packet_loses_its_message` is a delivery that is not
  timely.
-/

import Mathlib.Data.Finmap
import TddyCoder.LiveKit.Chunking

namespace TddyCoder.LiveKit

open Bytes Table List Web.ChunkReassembler

inductive Sender
  | rust | web
  deriving DecidableEq

structure Message where
  sender : Sender
  id : UInt32
  payload : List UInt8
  deriving DecidableEq

variable {m : Message}

namespace Message

def packets (m : Message) : List (List UInt8) :=
  match m.sender with
  | .rust => frameForTransport m.id m.payload
  | .web => Web.frameForTransport m.id m.payload

def parts (m : Message) : List (List UInt8) := dataChunks m.payload maxChunkFrameBytes

theorem packets_eq (m : Message) : m.packets = frameForTransport m.id m.payload := by
  unfold packets
  cases m.sender
  · rfl
  · exact Web.frameForTransport_eq m.id m.payload

theorem packets_of_fitsRaw (h : fitsRaw m.payload = true) : m.packets = [m.payload] := by
  rw [packets_eq, frameForTransport, if_pos h]

theorem packets_of_framed (h : fitsRaw m.payload = false) :
    m.packets = m.parts.mapIdx fun index data => chunkFrame m.id m.parts.length index data := by
  rw [packets_eq, frameForTransport, if_neg (by simp [h])]
  rfl

theorem not_isChunkFrame_of_unframed (m : Message) (h : m.packets = [m.payload]) : isChunkFrame m.payload = false := by
  cases hraw : fitsRaw m.payload
  · -- a frame is longer than the payload it carries
    rw [packets_of_framed hraw] at h
    have hone : m.parts.length = 1 := by simpa using congrArg List.length h
    obtain ⟨part, hpart⟩ := length_eq_one_iff.mp hone
    have hpayload : part = m.payload := by
      have hflatten := flatten_dataChunks m.payload maxChunkFrameBytes
      rw [← parts, hpart] at hflatten
      simpa using hflatten
    rw [hpart, hpayload] at h
    have hlength := congrArg (fun packets => (packets.headD []).length) h
    simp [length_chunkFrame, headerLen] at hlength
  · exact isChunkFrame_of_fitsRaw hraw

theorem packets_ne_nil (m : Message) : m.packets ≠ [] := by
  cases h : fitsRaw m.payload
  · have hpos := length_dataChunks m.payload maxChunkFrameBytes
    rw [packets_of_framed h]
    exact fun hnil => absurd (congrArg List.length hnil) (by simpa [parts] using length_pos_iff.mp hpos)
  · simp [packets_of_fitsRaw h]

end Message

def ones (n : Nat) : Message := ⟨.rust, 7, List.replicate n 1⟩

section

variable (hn : maxChunkFrameBytes < n)
include hn

theorem fitsRaw_ones : fitsRaw (ones n).payload = false := by
  rw [fitsRaw, ones, length_replicate, decide_eq_false (Nat.not_le.mpr hn), Bool.false_and]

theorem payload_ones_ne_nil : (ones n).payload ≠ [] := by
  rw [← length_pos_iff, ones, length_replicate]
  exact Nat.zero_lt_of_lt hn

theorem length_parts_ones {count : Nat} (hcount : (n + 59986) / 59987 = count) :
    (ones n).parts.length = count := by
  rw [Message.parts, dataChunks, if_neg (by simpa using payload_ones_ne_nil hn), length_chunks, ones,
    length_replicate, ← hcount]
  rfl

end

/-! ## Deliveries -/

structure Arrival where
  message : Message
  index : Nat
  time : Int

def Arrival.packet (a : Arrival) : List UInt8 := a.message.packets.getD a.index []

def positions (batch : List Message) : List (Message × Nat) :=
  batch.flatMap fun m => (List.range m.packets.length).map (m, ·)

/-- Every packet arrives once. -/
def Delivers (batch : List Message) (arrivals : List Arrival) : Prop :=
  (arrivals.map fun a => (a.message, a.index)).Perm (positions batch)

def outcomes : List Arrival → List (Except ChunkError (Option (List UInt8)))
  | [] => []
  | a :: rest => .ok (if a.message ∈ rest.map (·.message) then none else some a.message.payload) :: outcomes rest

def payloadOf : Except ChunkError (Option (List UInt8)) → Option (List UInt8)
  | .ok payload => payload
  | .error _ => none

def ChunkReassembler.receiveAll (r : ChunkReassembler) :
    List Arrival → List (Except ChunkError (Option (List UInt8))) × ChunkReassembler
  | [] => ([], r)
  | a :: rest => ((r.receive a.packet).1 :: ((r.receive a.packet).2.receiveAll rest).1,
      ((r.receive a.packet).2.receiveAll rest).2)

def Web.ChunkReassembler.receiveAll (r : Web.ChunkReassembler) :
    List Arrival → List (Except ChunkError (Option (List UInt8))) × Web.ChunkReassembler
  | [] => ([], r)
  | a :: rest => ((r.receive a.time a.packet).1 :: ((r.receive a.time a.packet).2.receiveAll rest).1,
      ((r.receive a.time a.packet).2.receiveAll rest).2)

/-- Whenever a frame comes, the last packet of every message that is not complete came within the limit. -/
def Timely (ttl : Int) (arrivals : List Arrival) : Prop :=
  ∀ before b between a after, arrivals = before ++ b :: (between ++ a :: after) → isChunkFrame a.packet = true →
    b.message ∉ between.map (·.message) → b.message ∈ (a :: after).map (·.message) → a.time - b.time ≤ ttl

def indicesOf (m : Message) (arrivals : List Arrival) : List Nat :=
  (arrivals.filter fun a => a.message = m).map (·.index)

variable {a : Arrival}

section

variable {batch : List Message} {arrivals : List Arrival} {i : Nat}

theorem mem_positions : (m, i) ∈ positions batch ↔ m ∈ batch ∧ i < m.packets.length := by
  simp [positions]

theorem mem_indicesOf : i ∈ indicesOf m arrivals ↔ (m, i) ∈ arrivals.map fun a => (a.message, a.index) := by
  simp only [indicesOf, mem_map, mem_filter, decide_eq_true_eq, Prod.mk.injEq]
  exact ⟨fun ⟨a, ⟨ha, hm⟩, hi⟩ => ⟨a, ha, hm, hi⟩, fun ⟨a, ha, hm, hi⟩ => ⟨a, ⟨ha, hm⟩, hi⟩⟩

theorem indicesOf_eq_nil : indicesOf m arrivals = [] ↔ m ∉ arrivals.map (·.message) := by
  simp [indicesOf]

theorem indicesOf_append (m : Message) (before after : List Arrival) :
    indicesOf m (before ++ after) = indicesOf m before ++ indicesOf m after := by
  simp [indicesOf]

theorem indicesOf_cons_self (a : Arrival) (rest : List Arrival) :
    indicesOf a.message (a :: rest) = a.index :: indicesOf a.message rest := by
  simp [indicesOf]

theorem indicesOf_cons_of_ne (h : a.message ≠ m) (rest : List Arrival) :
    indicesOf m (a :: rest) = indicesOf m rest := by
  simp [indicesOf, h]

variable (hids : (batch.map (·.id)).Nodup) (hdelivers : Delivers batch arrivals)
include hids

theorem eq_of_id_eq {m' : Message} (hm : m ∈ batch) (hm' : m' ∈ batch) (h : m.id = m'.id) : m = m' :=
  inj_on_of_nodup_map hids hm hm' h

theorem nodup_positions : (positions batch).Nodup := by
  refine nodup_flatMap.mpr ⟨fun m _ => nodup_range.map fun _ _ h => by simpa using h, ?_⟩
  refine (Nodup.of_map _ hids).imp fun {m m'} hne => ?_
  simp [Function.onFun, List.Disjoint, hne.symm]

include hdelivers

theorem indicesOf_perm (hm : m ∈ batch) : (indicesOf m arrivals).Perm (List.range m.packets.length) := by
  have hnodup : (arrivals.map fun a => (a.message, a.index)).Nodup := hdelivers.nodup_iff.mpr (nodup_positions hids)
  have hkeys : (arrivals.filter fun a => a.message = m).map (fun a => (a.message, a.index)) =
      (indicesOf m arrivals).map (m, ·) := by
    rw [indicesOf, map_map]
    refine map_congr_left fun a ha => ?_
    simp [show a.message = m by simpa using (mem_filter.mp ha).2]
  have hindices : (indicesOf m arrivals).Nodup :=
    Nodup.of_map _ (hkeys ▸ (filter_sublist.map _).nodup hnodup)
  refine (perm_ext_iff_of_nodup hindices nodup_range).mpr fun i => ?_
  rw [mem_indicesOf, hdelivers.mem_iff, mem_positions, mem_range]
  exact and_iff_right hm

end

variable {batch : List Message} {arrivals : List Arrival}

theorem Delivers.mem_batch (h : Delivers batch arrivals)
    (ha : a ∈ arrivals) : a.message ∈ batch ∧ a.index < a.message.packets.length :=
  mem_positions.mp (h.mem_iff.mp (mem_map_of_mem ha))

theorem Arrival.packet_of_raw (hindex : a.index < a.message.packets.length)
    (hraw : fitsRaw a.message.payload = true) : a.packet = a.message.payload := by
  have hpackets := Message.packets_of_fitsRaw hraw
  have hzero : a.index = 0 := by simpa [hpackets] using hindex
  simp [Arrival.packet, hpackets, hzero]

theorem Arrival.packet_of_framed (hindex : a.index < a.message.packets.length)
    (hframed : fitsRaw a.message.payload = false) :
    a.packet = chunkFrame a.message.id a.message.parts.length a.index (a.message.parts.getD a.index []) := by
  rw [Message.packets_of_framed hframed, length_mapIdx] at hindex
  rw [Arrival.packet, Message.packets_of_framed hframed, getD_eq_getElem?_getD, getD_eq_getElem?_getD,
    getElem?_mapIdx]
  simp [hindex]

/-! ## What a receiver holds -/

def Open (done rest : List Arrival) (m : Message) : Prop :=
  fitsRaw m.payload = false ∧ m ∈ done.map (·.message) ∧ m ∈ rest.map (·.message)

structure Holds (batch : List Message) (done rest : List Arrival) (r : ChunkReassembler) : Prop where
  entries : ∀ id entry, r.pending.lookup id = some entry →
    ∃ m ∈ batch, m.id = id ∧ Open done rest m ∧ Gathered m.parts (indicesOf m done) entry
  held : ∀ m ∈ batch, Open done rest m → r.pending.lookup m.id ≠ none

section

variable {batch : List Message} {done rest : List Arrival} {a : Arrival} {r : ChunkReassembler}

theorem open_step_of_ne (h : a.message ≠ m) : Open (done ++ [a]) rest m ↔ Open done (a :: rest) m := by
  simp [Open, h.symm]

theorem indicesOf_step_of_ne (h : a.message ≠ m) : indicesOf m (done ++ [a]) = indicesOf m done := by
  rw [indicesOf_append, indicesOf_cons_of_ne h]
  simp [indicesOf]

theorem Holds.step (h : Holds batch done (a :: rest) r) {r' : ChunkReassembler}
    (hother : ∀ id, id ≠ a.message.id → r'.pending.lookup id = r.pending.lookup id)
    (hown : ∀ entry, r'.pending.lookup a.message.id = some entry →
      Open (done ++ [a]) rest a.message ∧ Gathered a.message.parts (indicesOf a.message (done ++ [a])) entry)
    (hheld : Open (done ++ [a]) rest a.message → r'.pending.lookup a.message.id ≠ none)
    (hids : (batch.map (·.id)).Nodup) (hm : a.message ∈ batch) : Holds batch (done ++ [a]) rest r' where
  entries id entry hentry := by
    by_cases hid : id = a.message.id
    · subst hid
      exact ⟨a.message, hm, rfl, hown entry hentry⟩
    · obtain ⟨m, hmem, rfl, hopen, hgathered⟩ := h.entries id entry (hother id hid ▸ hentry)
      have hne : a.message ≠ m := fun e => hid (by rw [e])
      exact ⟨m, hmem, rfl, (open_step_of_ne hne).mpr hopen, by rwa [indicesOf_step_of_ne hne]⟩
  held m hmem hopen := by
    by_cases hne : a.message = m
    · subst hne
      exact hheld hopen
    · have hid : m.id ≠ a.message.id := fun e => hne (eq_of_id_eq hids hm hmem e.symm)
      rw [hother m.id hid]
      exact h.held m hmem ((open_step_of_ne hne).mp hopen)

variable (hids : (batch.map (·.id)).Nodup) (hsize : ∀ m ∈ batch, m.packets.length < 2 ^ 32)
  (hdelivers : Delivers batch (done ++ a :: rest))
include hids hdelivers

theorem indices_around : (indicesOf a.message done ++ a.index :: indicesOf a.message rest).Perm
    (List.range a.message.packets.length) := by
  have hm := (hdelivers.mem_batch (a := a) (by simp)).1
  have hperm := indicesOf_perm hids hdelivers hm
  rwa [indicesOf_append, indicesOf_cons_self] at hperm

theorem Holds.receive_raw (h : Holds batch done (a :: rest) r) (hraw : fitsRaw a.message.payload = true) :
    r.receive a.packet = (.ok (if a.message ∈ rest.map (·.message) then none else some a.message.payload), r) ∧
      Holds batch (done ++ [a]) rest r := by
  obtain ⟨hm, hindex⟩ := hdelivers.mem_batch (a := a) (by simp)
  have hpackets := Message.packets_of_fitsRaw hraw
  -- its one packet has come
  have hlast : a.message ∉ rest.map (·.message) := by
    have hlength := (indices_around hids hdelivers).length_eq
    rw [← indicesOf_eq_nil, ← length_eq_zero_iff]
    simp [hpackets] at hlength
    omega
  refine ⟨?_, h.step (fun _ _ => rfl) ?_ ?_ hids hm⟩
  · rw [if_neg hlast, ChunkReassembler.receive, a.packet_of_raw hindex hraw, isChunkFrame_of_fitsRaw hraw]
    rfl
  · intro entry hentry
    obtain ⟨m, hmem, hid, hopen, -⟩ := h.entries _ entry hentry
    rw [eq_of_id_eq hids hmem hm hid] at hopen
    exact absurd hopen.1 (by simp [hraw])
  · exact fun hopen => absurd hopen.1 (by simp [hraw])

include hsize

theorem Holds.receive_framed (h : Holds batch done (a :: rest) r) (hframed : fitsRaw a.message.payload = false) :
    ∃ r', r.receive a.packet =
        (.ok (if a.message ∈ rest.map (·.message) then none else some a.message.payload), r') ∧
      Holds batch (done ++ [a]) rest r' := by
  obtain ⟨hm, hindex⟩ := hdelivers.mem_batch (a := a) (by simp)
  have hlength : a.message.packets.length = a.message.parts.length := by
    rw [Message.packets_of_framed hframed, length_mapIdx]
  have hchunks : a.message.parts.length < 2 ^ 32 := hlength ▸ hsize a.message hm
  have hopen : a.message ∈ done.map (·.message) → Open done (a :: rest) a.message := fun hdone =>
    ⟨hframed, hdone, by simp⟩
  have hsofar : Gathered a.message.parts (indicesOf a.message done)
      ((r.pending.lookup a.message.id).getD ⟨a.message.parts.length, ∅⟩) := by
    rcases hentry : r.pending.lookup a.message.id with _ | entry
    · have hnil : indicesOf a.message done = [] :=
        indicesOf_eq_nil.mpr fun hdone => h.held a.message hm (hopen hdone) hentry
      exact ⟨rfl, by rw [hnil]; exact Perm.refl _⟩
    · obtain ⟨m, hmem, hid, -, hgathered⟩ := h.entries _ entry hentry
      rwa [eq_of_id_eq hids hmem hm hid] at hgathered
  have hplaced := place_gathered hchunks hsofar (hlength ▸ indices_around hids hdelivers)
  have hreceive : r.receive a.packet =
      r.place a.message.id a.message.parts.length (UInt32.ofNat a.index) (a.message.parts.getD a.index []) := by
    rw [ChunkReassembler.receive, a.packet_of_framed hindex hframed, if_pos (isChunkFrame_chunkFrame ..),
      accept_chunkFrame, UInt32.toNat_ofNat_of_lt' hchunks]
  rw [hreceive]
  split at hplaced
  · rename_i hlast
    rw [indicesOf_eq_nil] at hlast
    rw [hplaced, if_neg hlast]
    refine ⟨_, by rw [Message.parts, flatten_dataChunks], h.step (fun id hid => ?_) ?_ ?_ hids hm⟩
    · exact AList.lookup_erase_ne hid
    · simp
    · exact fun hopen => absurd hopen.2.2 hlast
  · rename_i hmore
    rw [indicesOf_eq_nil, not_not] at hmore
    obtain ⟨entry, hgathered, hplaced⟩ := hplaced
    rw [hplaced, if_pos hmore]
    refine ⟨_, rfl, h.step (fun id hid => ?_) ?_ ?_ hids hm⟩
    · exact AList.lookup_insert_ne hid
    · intro entry' hentry'
      obtain rfl : entry = entry' := by simpa using hentry'
      refine ⟨⟨hframed, by simp, hmore⟩, ?_⟩
      rwa [indicesOf_append, indicesOf_cons_self]
    · simp

theorem Holds.receive (h : Holds batch done (a :: rest) r) :
    ∃ r', r.receive a.packet =
        (.ok (if a.message ∈ rest.map (·.message) then none else some a.message.payload), r') ∧
      Holds batch (done ++ [a]) rest r' := by
  cases hraw : fitsRaw a.message.payload
  · exact h.receive_framed hids hsize hdelivers hraw
  · exact ⟨r, h.receive_raw hids hdelivers hraw⟩

end

variable {done rest : List Arrival}

section

variable {batch : List Message} (hids : (batch.map (·.id)).Nodup) (hsize : ∀ m ∈ batch, m.packets.length < 2 ^ 32)
include hids hsize

theorem Holds.receiveAll {r : ChunkReassembler} (h : Holds batch done rest r)
    (hdelivers : Delivers batch (done ++ rest)) : r.receiveAll rest = (outcomes rest, ⟨∅⟩) := by
  induction rest generalizing done r with
  | nil =>
    have hnone : ∀ id entry, r.pending.lookup id ≠ some entry := fun id entry hentry => by
      obtain ⟨m, -, -, hopen, -⟩ := h.entries id entry hentry
      simpa using hopen.2.2
    have hempty := eq_empty hnone
    rw [ChunkReassembler.receiveAll, outcomes, ← hempty]
  | cons a rest ih =>
    obtain ⟨r', hreceive, hholds⟩ := h.receive hids hsize hdelivers
    rw [ChunkReassembler.receiveAll, hreceive, ih hholds (by simpa using hdelivers)]
    rfl

end

theorem holds_nothing (batch : List Message) (arrivals : List Arrival) : Holds batch [] arrivals ⟨∅⟩ where
  entries := by simp
  held := by simp [Open]

/-! ## The web receiver -/

namespace Web

def Aged (done : List Arrival) (w : ChunkReassembler) : Prop :=
  ∀ id entry, w.pending.lookup id = some entry → ∃ before b between, done = before ++ b :: between ∧
    b.message.id = id ∧ b.time = entry.lastFrameAtMs ∧ b.message ∉ between.map (·.message)

theorem Aged.step {w w' : ChunkReassembler} (h : Aged done w) (hstep : ∀ id entry, w'.pending.lookup id = some entry →
      (id = a.message.id ∧ entry.lastFrameAtMs = a.time) ∨ (id ≠ a.message.id ∧ w.pending.lookup id = some entry)) :
    Aged (done ++ [a]) w' := by
  intro id entry hentry
  rcases hstep id entry hentry with ⟨rfl, htime⟩ | ⟨hne, hold⟩
  · exact ⟨done, a, [], rfl, rfl, htime.symm, by simp⟩
  · obtain ⟨before, b, between, rfl, rfl, htime, hlast⟩ := h id entry hold
    have hother : b.message ≠ a.message := fun e => hne (by rw [e])
    exact ⟨before, b, between ++ [a], by simp, rfl, htime, by simpa [hother] using hlast⟩

section

variable {batch : List Message} (hids : (batch.map (·.id)).Nodup) {done rest : List Arrival} {a : Arrival}
  (hdelivers : Delivers batch (done ++ a :: rest)) {w : ChunkReassembler} {r : LiveKit.ChunkReassembler}
  (hholds : Holds batch done (a :: rest) r) (hmirrors : Mirrors w r)
include hids hdelivers hholds hmirrors

theorem receive_mirrors (haged : Aged done w) (htimely : Timely w.partialTtlMs (done ++ a :: rest)) :
    (w.receive a.time a.packet).1 = (r.receive a.packet).1 ∧
      Mirrors (w.receive a.time a.packet).2 (r.receive a.packet).2 ∧
      Aged (done ++ [a]) (w.receive a.time a.packet).2 ∧
      (w.receive a.time a.packet).2.partialTtlMs = w.partialTtlMs := by
  obtain ⟨hm, hindex⟩ := hdelivers.mem_batch (a := a) (by simp)
  cases hraw : LiveKit.fitsRaw a.message.payload
  · have hpacket := a.packet_of_framed hindex hraw
    have hframe : isChunkFrame a.packet = true := by rw [hpacket]; rfl
    have hnone : NoneExpired w a.time := by
      intro id entry hentry
      obtain ⟨before, b, between, rfl, hid, htime, hlast⟩ := haged id entry hentry
      obtain ⟨m, hm, hmid, hopen, -⟩ := hholds.entries id _ (hmirrors.lookup hentry)
      have hb : b.message ∈ batch := (hdelivers.mem_batch (a := b) (by simp)).1
      have hbm : b.message = m := eq_of_id_eq hids hb hm (hid.trans hmid.symm)
      rw [← htime]
      exact htimely before b between a rest (by simp) hframe hlast (hbm ▸ hopen.2.2)
    obtain ⟨hsame, hmirrors'⟩ := accept_mirrors hmirrors hnone hframe
    rw [ChunkReassembler.receive, LiveKit.ChunkReassembler.receive, if_pos hframe, if_pos hframe]
    refine ⟨hsame, hmirrors', ?_⟩
    rw [hpacket, accept_chunkFrame, evictExpired_eq hnone]
    simp only [ChunkReassembler.place]
    split
    · refine ⟨haged.step fun other entry hentry => ?_, rfl⟩
      exact (lookup_insert_eq_some.mp hentry).imp_left fun ⟨hother, hnew⟩ => ⟨hother, by rw [hnew]⟩
    · exact ⟨haged.step fun other entry hentry => .inr (lookup_erase_eq_some.mp hentry).symm, rfl⟩
  · have hframe := isChunkFrame_of_fitsRaw hraw
    rw [ChunkReassembler.receive, LiveKit.ChunkReassembler.receive, a.packet_of_raw hindex hraw, hframe,
      if_neg (by simp), if_neg (by simp)]
    refine ⟨rfl, hmirrors, haged.step fun id entry hentry => .inr ⟨fun hid => ?_, hentry⟩, rfl⟩
    -- a message that is held is a framed one
    obtain ⟨m, hmem, hmid, hopen, -⟩ := hholds.entries id _ (hmirrors.lookup hentry)
    rw [eq_of_id_eq hids hmem hm (hmid.trans hid)] at hopen
    exact absurd hopen.1 (by simp [hraw])

end

theorem receiveAll_mirrors (hids : (batch.map (·.id)).Nodup)
    (hsize : ∀ m ∈ batch, m.packets.length < 2 ^ 32) {w : ChunkReassembler}
    {r : LiveKit.ChunkReassembler} (hholds : Holds batch done rest r)
    (hdelivers : Delivers batch (done ++ rest)) (hmirrors : Mirrors w r) (haged : Aged done w)
    (htimely : Timely w.partialTtlMs (done ++ rest)) :
    (w.receiveAll rest).1 = (r.receiveAll rest).1 ∧ Mirrors (w.receiveAll rest).2 (r.receiveAll rest).2 ∧
      (w.receiveAll rest).2.partialTtlMs = w.partialTtlMs := by
  induction rest generalizing done w r with
  | nil => exact ⟨rfl, hmirrors, rfl⟩
  | cons a rest ih =>
    obtain ⟨hsame, hmirrors', haged', httl⟩ := receive_mirrors hids hdelivers hholds hmirrors haged htimely
    obtain ⟨r', hreceive, hholds'⟩ := hholds.receive hids hsize hdelivers
    rw [hreceive] at hmirrors'
    have hnext : Delivers batch ((done ++ [a]) ++ rest) := by simpa using hdelivers
    obtain ⟨hrest, hend, httl'⟩ := ih hholds' hnext hmirrors' haged' (by rw [httl]; simpa using htimely)
    rw [ChunkReassembler.receiveAll, LiveKit.ChunkReassembler.receiveAll, hreceive]
    exact ⟨by rw [hsame, hreceive, hrest], hend, httl'.trans httl⟩

theorem receiveAll_eq {ttl : Int} (hids : (batch.map (·.id)).Nodup)
    (hsize : ∀ m ∈ batch, m.packets.length < 2 ^ 32) (hdelivers : Delivers batch arrivals)
    (htimely : Timely ttl arrivals) :
    ChunkReassembler.receiveAll ⟨∅, ttl⟩ arrivals = (outcomes arrivals, ⟨∅, ttl⟩) := by
  have hholds := holds_nothing batch arrivals
  have hmirrors : Mirrors ⟨∅, ttl⟩ ⟨∅⟩ := fun _ => rfl
  have haged : Aged [] ⟨∅, ttl⟩ := fun id entry hentry => by simp at hentry
  obtain ⟨hsame, hend, httl⟩ := receiveAll_mirrors hids hsize hholds hdelivers hmirrors haged htimely
  rw [hholds.receiveAll hids hsize hdelivers] at hsame hend
  have hempty := eq_empty fun id entry hentry => by simpa using hend.lookup hentry
  exact Prod.ext hsame (ChunkReassembler.ext hempty httl)

end Web

/-! ## Both ways -/

section

variable {batch : List Message} {arrivals : List Arrival}

theorem outcomes_payloads (arrivals : List Arrival) :
    (outcomes arrivals).filterMap payloadOf = (arrivals.map (·.message)).dedup.map (·.payload) := by
  induction arrivals with
  | nil => rfl
  | cons a rest ih =>
    by_cases hmore : a.message ∈ rest.map (·.message)
    · rw [map_cons, dedup_cons_of_mem hmore, ← ih, outcomes, if_pos hmore]
      rfl
    · rw [map_cons, dedup_cons_of_notMem hmore, map_cons, ← ih, outcomes, if_neg hmore]
      rfl

theorem messages_perm (hids : (batch.map (·.id)).Nodup) (hdelivers : Delivers batch arrivals) :
    ((arrivals.map (·.message)).dedup).Perm batch := by
  refine (perm_ext_iff_of_nodup (nodup_dedup _) (Nodup.of_map _ hids)).mpr fun m => ?_
  rw [mem_dedup, mem_map]
  constructor
  · rintro ⟨a, ha, rfl⟩
    exact (hdelivers.mem_batch ha).1
  intro hm
  have hfirst : (m, 0) ∈ positions batch := mem_positions.mpr ⟨hm, length_pos_iff.mpr m.packets_ne_nil⟩
  obtain ⟨a, ha, e⟩ := mem_map.mp (hdelivers.mem_iff.mpr hfirst)
  exact ⟨a, ha, congrArg Prod.fst e⟩

/-- However the packets of a batch arrive, both receivers return each payload once, at its last packet, and end empty;
    the web receiver if no message waits longer than it is kept. -/
theorem chunk_round_trip (hids : (batch.map (·.id)).Nodup) (hsize : ∀ m ∈ batch, m.packets.length < 2 ^ 32)
    (hdelivers : Delivers batch arrivals) (ttl : Int) :
    ChunkReassembler.receiveAll ⟨∅⟩ arrivals = (outcomes arrivals, ⟨∅⟩) ∧
    (Timely ttl arrivals → Web.ChunkReassembler.receiveAll ⟨∅, ttl⟩ arrivals = (outcomes arrivals, ⟨∅, ttl⟩)) ∧
    ((outcomes arrivals).filterMap payloadOf).Perm (batch.map (·.payload)) ∧
    (∀ m ∈ batch, ∀ packet ∈ m.packets, packet.length ≤ maxChunkFrameBytes) ∧
    (∀ m ∈ batch, m.packets = [m.payload] → isChunkFrame m.payload = false) := by
  have hrust := (holds_nothing batch arrivals).receiveAll hids hsize hdelivers
  refine ⟨hrust, fun htimely => ?_, ?_, ?_, ?_⟩
  · exact Web.receiveAll_eq hids hsize hdelivers htimely
  · rw [outcomes_payloads]
    exact (messages_perm hids hdelivers).map _
  · intro m _ packet hpacket
    rw [m.packets_eq, frameForTransport] at hpacket
    split at hpacket
    · next hraw =>
      rw [mem_singleton.mp hpacket]
      simp only [fitsRaw, Bool.and_eq_true, decide_eq_true_eq] at hraw
      exact hraw.1
    · exact length_le_of_mem_splitIntoFrames hpacket
  · exact fun m _ => m.not_isChunkFrame_of_unframed

end

/-- The second packet of a message comes first, and a whole message between the two. -/
theorem chunk_round_trip_of_two_packets : (ones 60001).packets.length = 2 ∧
    ChunkReassembler.receiveAll ⟨∅⟩ [⟨ones 60001, 1, 0⟩, ⟨⟨.web, 2, [8]⟩, 0, 1⟩, ⟨ones 60001, 0, 2⟩] =
      ([.ok none, .ok (some [8]), .ok (some (ones 60001).payload)], ⟨∅⟩) := by
  have hn : maxChunkFrameBytes < 60001 := by decide
  have htwo : (ones 60001).packets.length = 2 := by
    rw [Message.packets_of_framed (fitsRaw_ones hn), length_mapIdx]
    exact length_parts_ones hn (by decide)
  have hid : (ones 60001).id = 7 := rfl
  generalize ones 60001 = m at htwo hid
  have hother : m ≠ ⟨.web, 2, [8]⟩ := by
    rintro rfl
    cases hid
  have hone : (Message.packets ⟨.web, 2, [8]⟩).length = 1 := by decide
  refine ⟨htwo, (@chunk_round_trip [m, ⟨.web, 2, [8]⟩] _ ?_ ?_ ?_ 0).1.trans ?_⟩
  · simp [hid]
  · simp [htwo, hone]
  · simp only [Delivers, positions, flatMap_cons, htwo, hone, range_succ]
    exact @perm_append_comm _ [(m, 1), (⟨.web, 2, [8]⟩, 0)] [(m, 0)]
  · simp [outcomes, hother, hother.symm]

/-! ## Where the limits are -/

theorem Web.receive_fresh {w : Web.ChunkReassembler} (hindex : a.index < a.message.packets.length)
    (hframed : LiveKit.fitsRaw a.message.payload = false) (hsize : a.message.parts.length < 2 ^ 32)
    (hmore : 1 < a.message.parts.length)
    (hgone : ∀ entry, w.pending.lookup a.message.id = some entry → a.time - entry.lastFrameAtMs > w.partialTtlMs) :
    ∃ w' entry, w.receive a.time a.packet = (.ok none, w') ∧ w'.partialTtlMs = w.partialTtlMs ∧
      w'.pending.lookup a.message.id = some entry ∧ entry.lastFrameAtMs = a.time := by
  have hnone : (w.evictExpired a.time).pending.lookup a.message.id = none := by
    refine Option.eq_none_iff_forall_ne_some.mpr fun entry hentry => ?_
    obtain ⟨hold, hkept⟩ := lookup_retain_eq_some.mp hentry
    simp [hold, hgone entry hold] at hkept
  let entry : PendingMessage := ⟨PendingMessage.add ⟨a.message.parts.length, ∅⟩ (UInt32.ofNat a.index)
    (a.message.parts.getD a.index []), a.time⟩
  refine ⟨⟨(w.evictExpired a.time).pending.insert a.message.id entry, w.partialTtlMs⟩, entry, ?_, rfl, by simp, rfl⟩
  rw [ChunkReassembler.receive, a.packet_of_framed hindex hframed, if_pos (isChunkFrame_chunkFrame ..),
    Web.accept_chunkFrame, UInt32.toNat_ofNat_of_lt' hsize]
  simp only [ChunkReassembler.place, ChunkReassembler.entryFor, hnone]
  exact if_pos (by simpa [PendingMessage.add, AList.singleton] using hmore)

def late (m : Message) : List Arrival := [⟨m, 0, 0⟩, ⟨m, 1, 30001⟩]

theorem late_lost (hframed : fitsRaw m.payload = false) (htwo : m.parts.length = 2) :
    Delivers [m] (late m) ∧ outcomes (late m) = [.ok none, .ok (some m.payload)] ∧
      (Web.ChunkReassembler.receiveAll ⟨∅, Web.defaultPartialTtlMs⟩ (late m)).1 = [.ok none, .ok none] ∧
      (Web.ChunkReassembler.receiveAll ⟨∅, Web.defaultPartialTtlMs⟩ (late m)).2.pending ≠ ∅ := by
  have hlength : m.packets.length = 2 := by rw [Message.packets_of_framed hframed, length_mapIdx, htwo]
  obtain ⟨w, entry, hfirst, httl, hentry, htime⟩ :=
    Web.receive_fresh (w := ⟨∅, Web.defaultPartialTtlMs⟩) (a := ⟨m, 0, 0⟩) (by simp [hlength]) hframed (by simp [htwo])
      (by simp [htwo]) (by simp)
  have hgone : ∀ entry', w.pending.lookup m.id = some entry' → 30001 - entry'.lastFrameAtMs > w.partialTtlMs := by
    intro entry' hentry'
    obtain rfl : entry = entry' := Option.some.inj (hentry.symm.trans hentry')
    simp [htime, httl, Web.defaultPartialTtlMs]
  obtain ⟨w', entry', hsecond, -, hentry', -⟩ :=
    Web.receive_fresh (a := ⟨m, 1, 30001⟩) (by simp [hlength]) hframed (by simp [htwo]) (by simp [htwo]) hgone
  refine ⟨?_, by simp [late, outcomes], ?_, ?_⟩
  · simp [Delivers, late, positions, hlength, range_succ]
  · simp only [late, receiveAll, hfirst, hsecond]
  · simp only [late, receiveAll, hfirst, hsecond]
    exact fun hempty => by simp [hempty] at hentry'

theorem first_of_too_many (hframed : fitsRaw m.payload = false) (hmany : m.parts.length = 2 ^ 32) :
    (ChunkReassembler.receive ⟨∅⟩ (m.packets.getD 0 [])).1 = .ok (some []) := by
  have hlength : m.packets.length = 2 ^ 32 := by rw [Message.packets_of_framed hframed, length_mapIdx, hmany]
  have hfirst := Arrival.packet_of_framed (a := ⟨m, 0, 0⟩) (by simp [hlength]) hframed
  rw [Arrival.packet] at hfirst
  rw [hfirst, ChunkReassembler.receive, if_pos (isChunkFrame_chunkFrame ..), accept_chunkFrame, hmany]
  rfl

/-- A payload cut in two that the web receiver loses, and one whose first packet is taken for all of it. -/
theorem a_late_packet_loses_its_message :
    (∃ m : Message, Delivers [m] (late m) ∧ outcomes (late m) = [.ok none, .ok (some m.payload)] ∧
      (Web.ChunkReassembler.receiveAll ⟨∅, Web.defaultPartialTtlMs⟩ (late m)).1 = [.ok none, .ok none] ∧
      (Web.ChunkReassembler.receiveAll ⟨∅, Web.defaultPartialTtlMs⟩ (late m)).2.pending ≠ ∅) ∧
    ∃ m : Message, m.payload ≠ [] ∧ (ChunkReassembler.receive ⟨∅⟩ (m.packets.getD 0 [])).1 = .ok (some []) := by
  have htwo : maxChunkFrameBytes < 60001 := by decide
  have hmany : maxChunkFrameBytes < 59987 * 2 ^ 32 := by decide
  exact ⟨⟨ones 60001, late_lost (fitsRaw_ones htwo) (length_parts_ones htwo (by decide))⟩,
    ones (59987 * 2 ^ 32), payload_ones_ne_nil hmany,
    first_of_too_many (fitsRaw_ones hmany) (length_parts_ones hmany (by decide))⟩

end TddyCoder.LiveKit
