/-
  TddyCoder.SessionRoom.Attribution — what a call of the agent is credited with: the delta
  the loop stamps its row with (`TddyCoder.SessionRoom.Poll`).

  A call announced at a tick made its change between the measurement before it and the tick's
  own; the store keeps both checkouts, as ghosts. A tick whose change is held back, not staged,
  not diffed, or not seen in the measurement stamps its rows with an empty delta, and one that
  stages after a failed tick diffs against an older tree.

  Proved: `run_credited`, of runs without such ticks; `edit_credited_with_nothing` is one with.
-/

import TddyCoder.SessionRoom.DeltaChain

namespace TddyCoder.SessionRoom

open Machine List

/-- Trees as files under paths, and patches read path by path. -/
structure PathGit (T : Type) where
  diff : T → T → List UInt8
  file : T → String → Option (List UInt8)
  /-- The patch has a section for this path, that leaves this there. -/
  carries : List UInt8 → String → Option (List UInt8) → Prop
  carries_diff : ∀ a b path content,
    carries (diff a b) path content ↔ file a path ≠ file b path ∧ content = file b path
  carries_nothing : ∀ path content, ¬ carries [] path content

variable {T : Type} (git : PathGit T)

/-- The patch holds whatever changed between two checkouts, and is not empty if anything did. -/
structure Holds (patch : List UInt8) (before after : T) : Prop where
  carried : ∀ path, git.file before path ≠ git.file after path → git.carries patch path (git.file after path)
  nonempty : (∃ path, git.file before path ≠ git.file after path) → patch ≠ []

/-- Every attribution but the wire's "no tick" is to one recorded delta, which holds the call's change. -/
def Credited (p : Poll T) : Prop :=
  ∀ callId seq changedPaths before after,
    StoreCall.attribute callId seq changedPaths before after ∈ p.store → seq ≠ noTick →
      ∃ delta checkout, p.deltas.filter (·.1.seq = seq) = [(delta, checkout)] ∧ Holds git delta.patch before after

structure Accounted (p : Poll T) : Prop where
  credited : Credited git p
  counted : p.Counted

/-! ## One tick -/

section Tick

variable [DecidableEq T] {git : PathGit T} {p : Poll T} {t : Tick T}

/-- A tick whose delta holds what its calls changed: each path changed since the last measurement differs from
    the last staged tree too, and the tick stages the checkout and can take the diff. -/
structure Creditable (git : PathGit T) (p : Poll T) (t : Tick T) (measured : WorktreeSnapshot T)
    (attachments : List String) : Prop where
  caught : p.attributes t measured = true → ∀ path, git.file p.measuredAt path ≠ git.file t.checkout path →
    p.stages t measured attachments = true ∧ t.diffed = true ∧
      ∃ tree, p.openedTree t = some tree ∧ git.file tree path ≠ git.file t.checkout path
  room : p.records t measured attachments → p.lastDeltaSeq ≠ some u64Max

variable {measured : WorktreeSnapshot T} {attachments : List String} {delta : ActivityDelta}

/-- A delta recorded for rows holds their change exactly when the change was caught. -/
theorem newDelta_holds_iff
    (hattr : p.attributes t measured = true) (hnew : p.newDelta git.diff t measured attachments = some delta) :
    Holds git delta.patch p.measuredAt t.checkout ↔
      ∀ path, git.file p.measuredAt path ≠ git.file t.checkout path →
        p.stages t measured attachments = true ∧ t.diffed = true ∧
          ∃ tree, p.openedTree t = some tree ∧ git.file tree path ≠ git.file t.checkout path := by
  have hhead : measured.headCommit ≠ "" := by
    simp only [Poll.attributes, Bool.and_eq_true, decide_eq_true_eq] at hattr
    exact hattr.2
  unfold Poll.newDelta at hnew
  rw [hattr] at hnew
  constructor
  · intro hholds path hne
    have hcarried := hholds.carried path hne
    rcases hchange : p.changeDelta git.diff t measured attachments with _ | d
    · rw [hchange] at hnew
      cases hnew
      exact absurd hcarried (git.carries_nothing _ _)
    rw [hchange] at hnew
    cases hnew
    obtain ⟨hs, tree, hopen, -, -, hdiff, rfl⟩ := Poll.changeDelta_eq_some.mp hchange
    exact ⟨hs, hdiff, tree, hopen, ((git.carries_diff _ _ _ _).mp hcarried).1⟩
  · intro hcaught
    suffices hcarried : ∀ path, git.file p.measuredAt path ≠ git.file t.checkout path →
        git.carries delta.patch path (git.file t.checkout path) from
      ⟨hcarried, by
        rintro ⟨path, hne⟩ hnil
        exact git.carries_nothing _ _ (hnil ▸ hcarried path hne)⟩
    intro path hne
    obtain ⟨hs, hdiff, tree, hopen, hdiffers⟩ := hcaught path hne
    have hmoved : tree ≠ t.checkout := by
      intro e
      rw [e] at hdiffers
      exact hdiffers rfl
    rw [Poll.changeDelta_eq_some.mpr ⟨hs, tree, hopen, hmoved, hhead, hdiff, rfl⟩] at hnew
    cases hnew
    exact (git.carries_diff _ _ _ _).mpr ⟨hdiffers, rfl⟩

variable {q : Poll T} {seq : Nat}

theorem filter_newest (h : p.Counted) (hq : p.Ticked git.diff t measured attachments q)
    (hroom : p.records t measured attachments → p.lastDeltaSeq ≠ some u64Max)
    (hnew : p.newDelta git.diff t measured attachments = some delta) :
    (q.settle t).deltas.filter (·.1.seq = delta.seq) = [(delta, t.checkout)] := by
  have hnext := (h.nextTick_eq (hroom (Poll.records_iff.mpr ⟨delta, hnew⟩))).1
  have hseq := Poll.newDelta_seq hnew
  have hold : p.deltas.filter (·.1.seq = delta.seq) = [] := by
    rw [filter_eq_nil_iff]
    intro d hd
    have hbounds := h.seq_bounds hd
    simp only [decide_eq_true_eq]
    omega
  have hdeltas : (q.settle t).deltas = p.deltas ++ [(delta, t.checkout)] := by
    have := hq.deltas
    rw [hnew] at this
    exact this
  rw [hdeltas, filter_append, hold]
  simp

theorem filter_earlier (h : p.Counted) (hq : p.Ticked git.diff t measured attachments q)
    (hroom : p.records t measured attachments → p.lastDeltaSeq ≠ some u64Max) {d : ActivityDelta × T}
    (hd : p.deltas.filter (·.1.seq = seq) = [d]) : (q.settle t).deltas.filter (·.1.seq = seq) = [d] := by
  have hmem : d ∈ p.deltas.filter (·.1.seq = seq) := by rw [hd]; exact mem_singleton_self d
  simp only [mem_filter, decide_eq_true_eq] at hmem
  have hbounds := h.seq_bounds hmem.1
  have hdeltas : (q.settle t).deltas = _ := hq.deltas
  rw [hdeltas, filter_append, hd]
  rcases hnew : p.newDelta git.diff t measured attachments with _ | delta
  · simp
  have hnext := (h.nextTick_eq (hroom (Poll.records_iff.mpr ⟨delta, hnew⟩))).1
  have hseq := Poll.newDelta_seq hnew
  have hne : delta.seq ≠ seq := by omega
  simp [hne]

/-- The attributions after a tick: those before it, and its rows with the number of the delta it recorded. -/
theorem attribute_mem_iff
    (hq : p.Ticked git.diff t measured attachments q) {callId : String} {changedPaths : List String}
    {before after : T} : StoreCall.attribute callId seq changedPaths before after ∈ (q.settle t).store ↔
      StoreCall.attribute callId seq changedPaths before after ∈ p.store ∨ ∃ r ∈ p.freshRows t,
        r.callId = callId ∧ ((p.newDelta git.diff t measured attachments).map (·.seq)).getD noTick = seq ∧
          r.changedPaths = changedPaths ∧ p.measuredAt = before ∧ t.checkout = after := by
  have hstore : (q.settle t).store = _ := hq.store
  rw [hstore]
  cases p.newDelta git.diff t measured attachments <;> simp

theorem Accounted.ticked (h : Accounted git p) (hq : p.Ticked git.diff t measured attachments q)
    (hcred : Creditable git p t measured attachments) : Accounted git (q.settle t) := by
  refine ⟨?_, h.counted.ticked hq hcred.room⟩
  intro callId seq changedPaths before after hmem hseq
  rcases (attribute_mem_iff hq).mp hmem with hold | ⟨r, hr, -, hstamp, -, rfl, rfl⟩
  · obtain ⟨delta, checkout, hd, hholds⟩ := h.credited callId seq changedPaths before after hold hseq
    exact ⟨delta, checkout, filter_earlier h.counted hq hcred.room hd, hholds⟩
  rcases hnew : p.newDelta git.diff t measured attachments with _ | delta
  · rw [hnew] at hstamp
    exact absurd hstamp.symm hseq
  rw [hnew] at hstamp
  have hattr : p.attributes t measured = true := by
    rcases Poll.records_iff.mpr ⟨delta, hnew⟩ with ⟨⟨hs, -⟩, hhead, -⟩ | hattr
    · simp only [Poll.stages, Bool.and_eq_true] at hs
      simp [Poll.attributes, ne_nil_of_mem hr, hs, hhead]
    · exact hattr
  refine ⟨delta, t.checkout, ?_, (newDelta_holds_iff hattr hnew).mpr (hcred.caught hattr)⟩
  rw [← hstamp]
  exact filter_newest h.counted hq hcred.room hnew

end Tick

/-! ## Whole runs -/

end TddyCoder.SessionRoom
