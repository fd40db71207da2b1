/-
  TddyCoder.SessionRoom.DeltaFrames — a tick's delta as frames and put together again
  (`activity_delta_frames` of `packages/tddy-session-activity/src/service.rs`, `reassemble` of
  `packages/tddy-session-sync/src/sync/delta.rs`; a `MeasuredDelta` and a `Delta` are an
  `ActivityDelta` by other names).

  Every frame describes the whole delta and none says which of its pieces it carries. All the
  receiver can hold against a list of frames is that they disagree or that the bytes are not as
  many as declared.

  Proved: `missing_or_doubled_frames_are_no_other_delta`, but
  `swapped_frames_are_another_delta`.
-/

import Mathlib.Data.List.Flatten
import Mathlib.Data.List.Perm.Basic
import TddyCoder.Bytes.Wire
import TddyCoder.SessionRoom.Poll

namespace TddyCoder.SessionRoom

open Bytes List ActivityDelta

def hostDocumentFrameBytes : Nat := 48 * 1024

structure AgentActivityDeltaChunk where
  patch : List UInt8
  seq : Nat
  prevSeq : Nat
  baseCommit : String
  totalByteSize : Nat
  scopedPaths : List String

def ActivityDelta.describe (delta : ActivityDelta) (patch : List UInt8) : AgentActivityDeltaChunk :=
  ⟨patch, delta.seq, delta.prevSeq, delta.baseCommit, delta.patch.length, delta.scopedPaths⟩

def activityDeltaFrames (delta : ActivityDelta) : List AgentActivityDeltaChunk :=
  let frames := (chunks hostDocumentFrameBytes delta.patch).map delta.describe
  if frames.isEmpty then [delta.describe []] else frames

inductive DeltaError
  | noFrames
  | inconsistent (field first later : String)
  | truncated (declared received : Nat)

def disagreement (first later : AgentActivityDeltaChunk) : Option DeltaError :=
  [("seq", toString first.seq, toString later.seq), ("prev_seq", toString first.prevSeq, toString later.prevSeq),
    ("base_commit", first.baseCommit, later.baseCommit),
    ("total_byte_size", toString first.totalByteSize, toString later.totalByteSize)].findSome? fun (field, first, later) =>
      if first ≠ later then some (.inconsistent field first later) else none

def reassemble : List AgentActivityDeltaChunk → Except DeltaError ActivityDelta
  | [] => .error .noFrames
  | first :: rest =>
    match rest.findSome? (disagreement first) with
    | some e => .error e
    | none =>
      let patch := (first :: rest).flatMap (·.patch)
      if patch.length ≠ first.totalByteSize then .error (.truncated first.totalByteSize patch.length)
      else .ok ⟨first.seq, first.prevSeq, first.baseCommit, patch, first.scopedPaths⟩

/-! ## Frames of one delta -/

variable {d : ActivityDelta}

theorem reassemble_described {received : List AgentActivityDeltaChunk} (hne : received ≠ [])
    (h : ∀ frame ∈ received, ∃ piece, frame = d.describe piece) :
    reassemble received =
      if (received.flatMap (·.patch)).length ≠ d.patch.length then
        .error (.truncated d.patch.length (received.flatMap (·.patch)).length)
      else .ok { d with patch := received.flatMap (·.patch) } := by
  obtain ⟨first, rest, rfl⟩ := exists_cons_of_ne_nil hne
  obtain ⟨⟨piece, rfl⟩, hrest⟩ := forall_mem_cons.mp h
  have hagree : rest.findSome? (disagreement (d.describe piece)) = none := by
    refine findSome?_eq_none_iff.mpr fun frame hframe => ?_
    obtain ⟨later, rfl⟩ := hrest frame hframe
    simp [disagreement, describe]
  rw [reassemble, hagree]
  rfl

theorem activityDeltaFrames_spec (delta : ActivityDelta) :
    activityDeltaFrames delta ≠ [] ∧ (∀ frame ∈ activityDeltaFrames delta, ∃ piece, frame = delta.describe piece) ∧
      (activityDeltaFrames delta).flatMap (·.patch) = delta.patch := by
  have hflatten := flatten_chunks (n := hostDocumentFrameBytes) (by decide) delta.patch
  unfold activityDeltaFrames
  cases hchunks : chunks hostDocumentFrameBytes delta.patch with
  | nil =>
    rw [hchunks] at hflatten
    exact ⟨by simp, by simp, hflatten⟩
  | cons piece pieces =>
    rw [hchunks] at hflatten
    refine ⟨by simp, by simp, ?_⟩
    simpa [flatMap_def, describe, Function.comp_def] using hflatten

/-- A frame carries bytes, unless there are none to carry. -/
theorem patch_ne_nil {frame : AgentActivityDeltaChunk} (h : frame ∈ activityDeltaFrames d) (hd : d.patch ≠ []) :
    frame.patch ≠ [] := by
  have hcut : (chunks hostDocumentFrameBytes d.patch).map d.describe ≠ [] := by
    rw [chunks_of_ne_nil (by decide) hd]
    exact cons_ne_nil _ _
  rw [activityDeltaFrames, if_neg (by simpa using hcut)] at h
  obtain ⟨piece, hpiece, rfl⟩ := mem_map.mp h
  exact ne_nil_of_mem_chunks (by decide) hpiece

theorem bytes_lt {fewer more : List AgentActivityDeltaChunk} (h : fewer.Subperm more) (hlength : fewer.length < more.length)
    (hmore : ∀ frame ∈ more, frame.patch ≠ []) : (fewer.flatMap (·.patch)).length < (more.flatMap (·.patch)).length := by
  obtain ⟨left, kept, hperm, hsub⟩ := h.exists_of_length_lt hlength
  have hleft := length_pos_iff.mpr (hmore left (hsub.subset (hperm.mem_iff.mpr mem_cons_self)))
  have hkept := (hperm.flatMap_right (·.patch)).length_eq
  have hle := (hsub.flatMap (·.patch)).length_le
  rw [flatMap_cons, length_append] at hkept
  omega

/-- The frames come back as the delta, and a list from which some are missing, or in which some are doubled, as no other
    delta, in whatever order they stand. -/
theorem missing_or_doubled_frames_are_no_other_delta (delta : ActivityDelta) :
    reassemble (activityDeltaFrames delta) = .ok delta ∧
    ∀ received, (∀ frame ∈ received, frame ∈ activityDeltaFrames delta) →
      received.length ≠ (activityDeltaFrames delta).length →
      received.Subperm (activityDeltaFrames delta) ∨ (activityDeltaFrames delta).Subperm received →
      ∀ other, reassemble received = .ok other → other = delta := by
  obtain ⟨hne, hdescribed, hpatch⟩ := activityDeltaFrames_spec delta
  refine ⟨by rw [reassemble_described hne hdescribed, hpatch, if_neg (by simp)], ?_⟩
  intro received hreceived hlength hlists other hother
  have hsome : received ≠ [] := by
    rintro rfl
    cases hother
  rw [reassemble_described hsome fun frame hframe => hdescribed frame (hreceived frame hframe)] at hother
  split at hother
  · cases hother
  · next hbytes =>
    cases hother
    rw [ne_eq, not_not, ← hpatch] at hbytes
    by_cases hempty : delta.patch = []
    · rw [hpatch, hempty, length_nil] at hbytes
      rw [length_eq_zero_iff.mp hbytes, ← hempty]
    have hcarry : ∀ frame ∈ activityDeltaFrames delta, frame.patch ≠ [] := fun _ h => patch_ne_nil h hempty
    rcases hlists with hfewer | hmore
    · have := bytes_lt hfewer (Nat.lt_of_le_of_ne hfewer.length_le hlength) hcarry
      omega
    · have := bytes_lt hmore (Nat.lt_of_le_of_ne hmore.length_le hlength.symm)
        fun frame hframe => hcarry frame (hreceived frame hframe)
      omega

def oneByte : ActivityDelta := ⟨1, 0, "", [7], []⟩

theorem a_doubled_frame_is_refused :
    ∀ other, reassemble (activityDeltaFrames oneByte ++ activityDeltaFrames oneByte) = .ok other → other = oneByte :=
  (missing_or_doubled_frames_are_no_other_delta oneByte).2 _ (by simp) (by decide)
    (.inr (sublist_append_left _ _).subperm)

/-- Two full frames in the other order. -/
theorem swapped_frames_are_another_delta :
    ∃ delta received other, received.Perm (activityDeltaFrames delta) ∧ reassemble received = .ok other ∧ other ≠ delta := by
  have hpos : 0 < hostDocumentFrameBytes := by decide
  obtain ⟨x, y, hx, hy, hne⟩ : ∃ x y : List UInt8, x.length = hostDocumentFrameBytes ∧
      y.length = hostDocumentFrameBytes ∧ y ++ x ≠ x ++ y := by
    refine ⟨List.replicate _ 1, List.replicate _ 2, length_replicate, length_replicate, fun h => ?_⟩
    have hhead := congrArg List.head? h
    simp [head?_replicate, Nat.ne_of_gt hpos] at hhead
  let delta : ActivityDelta := ⟨1, 0, "", x ++ y, []⟩
  have hcut : chunks hostDocumentFrameBytes delta.patch = [x, y] :=
    chunks_append hpos hx (length_pos_iff.mp (hy ▸ hpos)) (Nat.le_of_eq hy)
  refine ⟨delta, [delta.describe y, delta.describe x], { delta with patch := y ++ x }, ?_, ?_, ?_⟩
  · rw [activityDeltaFrames, hcut]
    exact .swap ..
  · rw [reassemble_described (d := delta) (cons_ne_nil _ _) (by simp)]
    simp [describe, delta, Nat.add_comm]
  · exact fun h => hne (congrArg patch h)

end TddyCoder.SessionRoom
