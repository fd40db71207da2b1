/-
  TddyCoder.SessionRoom.DeltaChain — the deltas a room records, as one chain from the tree it
  opened with (`TddyCoder.SessionRoom.Poll`).

  The chain is sound when the deltas are numbered 1, 2, 3, …, composing the patches up to one of
  them onto the opening tree gives the checkout it was recorded at, and the last staged tree is
  the composition of them all. A tick can break it in three ways: it stages a moved tree without
  recording the delta, it records an empty delta for its calls while the checkout is not at the
  staged tree, or the numbers run out.

  Proved: `run_chainSound`, of runs without such ticks; `empty_delta_over_a_change` is the
  second way.
-/

import TddyCoder.Machine.Guarded
import TddyCoder.SessionRoom.Poll

namespace TddyCoder.SessionRoom

open Machine List

/-- The git commands the loop and its readers use, as exact as they are documented. -/
structure ExactGit (T : Type) where
  diff : T → T → List UInt8
  apply : List UInt8 → T → T
  exact : ∀ a b, apply (diff a b) a = b
  nothing : ∀ a, apply [] a = a

variable {T : Type} (git : ExactGit T)

def compose (seed : T) (deltas : List (ActivityDelta × T)) : T :=
  deltas.foldl (fun tree delta => git.apply delta.1.patch tree) seed

theorem compose_snoc (seed : T) (deltas : List (ActivityDelta × T)) (delta : ActivityDelta × T) :
    compose git seed (deltas ++ [delta]) = git.apply delta.1.patch (compose git seed deltas) := by
  simp [compose]

structure ChainSound (p : Poll T) : Prop where
  numbered : p.deltas.map (·.1.seq) = List.range' firstTick p.deltas.length
  composes : ∀ pre delta checkout rest, p.deltas = pre ++ (delta, checkout) :: rest →
    ∃ seed, p.seedTree = some seed ∧ compose git seed (pre ++ [(delta, checkout)]) = checkout
  /-- An empty delta is recorded where the delta before it was, or where the room opened. -/
  unmoved : ∀ pre delta checkout rest, p.deltas = pre ++ (delta, checkout) :: rest → delta.patch = [] →
    (pre.getLast?.map (·.2) <|> p.seedTree) = some checkout
  /-- Every staged change is carried by a delta. -/
  carried : p.previousWipTree = p.seedTree.map (compose git · p.deltas)

/-- A sound chain, and the loop's own count of it. -/
structure Chained (p : Poll T) : Prop where
  sound : ChainSound git p
  counted : p.Counted

/-! ## One delta more -/

variable {delta : ActivityDelta}

section Extend

variable {git : ExactGit T} {p q : Poll T} {seed : T}

theorem ChainSound.deltas_nil (h : ChainSound git p) (hseed : p.seedTree = none) : p.deltas = [] := by
  rcases hd : p.deltas with _ | ⟨⟨delta, checkout⟩, rest⟩
  · rfl
  · obtain ⟨seed, hs, -⟩ := h.composes [] delta checkout rest hd
    rw [hseed] at hs
    cases hs

theorem ChainSound.latest (h : ChainSound git p) (hseed : p.seedTree = some seed) :
    (p.deltas.getLast?.map (·.2) <|> p.seedTree) = some (compose git seed p.deltas) := by
  rcases eq_nil_or_concat p.deltas with hd | ⟨pre, ⟨delta, checkout⟩, hd⟩
  · rw [hd, hseed]
    rfl
  obtain ⟨seed', hs, hc⟩ := h.composes pre delta checkout [] (by simpa using hd)
  rw [hseed] at hs
  cases hs
  rw [concat_eq_append] at hd
  rw [hd, hc]
  simp

theorem split_snoc {α : Type} {xs pre rest : List α} {x y : α} (h : xs ++ [x] = pre ++ y :: rest) :
    (∃ rest', xs = pre ++ y :: rest') ∨ (pre = xs ∧ y = x) := by
  rcases eq_nil_or_concat rest with rfl | ⟨rest', last, rfl⟩
  · obtain ⟨hpre, hlast⟩ := append_inj' h rfl
    cases hlast
    exact .inr ⟨hpre.symm, rfl⟩
  · refine .inl ⟨rest', ?_⟩
    rw [concat_eq_append, ← cons_append, ← append_assoc] at h
    exact (append_inj' h rfl).1

/-- A delta that takes the chain's end to the checkout, numbered next, keeps the chain sound. -/
theorem ChainSound.extend (h : ChainSound git p) {checkout : T}
    (hold : p.seedTree = some seed ∨ p.seedTree = none) (hseed : q.seedTree = some seed)
    (hq : q.deltas = p.deltas ++ [(delta, checkout)]) (hseq : delta.seq = p.deltas.length + 1)
    (hpatch : git.apply delta.patch (compose git seed p.deltas) = checkout)
    (htree : q.previousWipTree = some checkout) : ChainSound git q := by
  have hend : compose git seed (p.deltas ++ [(delta, checkout)]) = checkout := by rw [compose_snoc, hpatch]
  -- the deltas before the new one compose as they did: there are none if the room has just opened
  have hsame : ∀ pre d c rest, p.deltas = pre ++ (d, c) :: rest → p.seedTree = some seed := by
    intro pre d c rest hd
    rcases hold with hs | hs
    · exact hs
    · rw [h.deltas_nil hs] at hd
      simp at hd
  refine ⟨?_, ?_, ?_, ?_⟩
  · rw [hq]
    exact Poll.numbered_snoc h.numbered hseq
  · intro pre d c rest hd
    rw [hq] at hd
    rcases split_snoc hd with ⟨rest', hp⟩ | ⟨rfl, heq⟩
    · obtain ⟨seed', hs, hc⟩ := h.composes pre d c rest' hp
      rw [hsame pre d c rest' hp] at hs
      cases hs
      exact ⟨seed, hseed, hc⟩
    · cases heq
      exact ⟨seed, hseed, hend⟩
  · intro pre d c rest hd hempty
    rw [hq] at hd
    rcases split_snoc hd with ⟨rest', hp⟩ | ⟨rfl, heq⟩
    · have := h.unmoved pre d c rest' hp hempty
      rwa [hsame pre d c rest' hp, ← hseed] at this
    cases heq
    rw [hempty, git.nothing] at hpatch
    rcases hold with hs | hs
    · rw [hseed, ← hs, h.latest hs, hpatch]
    have hnil := h.deltas_nil hs
    rw [hnil, hseed]
    rw [hnil] at hpatch
    exact congrArg some hpatch
  · rw [htree, hseed, hq, Option.map_some, hend]

theorem ChainSound.same (h : ChainSound git p) (hq : q.deltas = p.deltas)
    (hseed : p.seedTree = none ∨ q.seedTree = p.seedTree)
    (hcarried : q.previousWipTree = q.seedTree.map (compose git · q.deltas)) : ChainSound git q := by
  refine ⟨?_, ?_, ?_, hcarried⟩
  · rw [hq, h.numbered]
  · intro pre delta checkout rest hd
    rw [hq] at hd
    obtain ⟨seed, hs, hc⟩ := h.composes pre delta checkout rest hd
    rcases hseed with hnone | hsame
    · rw [hs] at hnone
      cases hnone
    · exact ⟨seed, hsame.trans hs, hc⟩
  · intro pre delta checkout rest hd hempty
    rw [hq] at hd
    rcases hseed with hnone | hsame
    · rw [h.deltas_nil hnone] at hd
      simp at hd
    · rw [hsame]
      exact h.unmoved pre delta checkout rest hd hempty

/-- Where the chain stands: at the last staged tree, or before the first. -/
theorem ChainSound.stands (h : ChainSound git p) :
    (∃ seed, p.seedTree = some seed ∧ p.previousWipTree = some (compose git seed p.deltas)) ∨
      (p.seedTree = none ∧ p.previousWipTree = none ∧ p.deltas = []) := by
  have hcarried := h.carried
  rcases hseed : p.seedTree with _ | seed
  · rw [hseed] at hcarried
    exact .inr ⟨rfl, hcarried, h.deltas_nil hseed⟩
  · rw [hseed] at hcarried
    exact .inl ⟨seed, rfl, hcarried⟩

end Extend

/-! ## One tick more -/

section Tick

variable [DecidableEq T] {git : ExactGit T} {p : Poll T} {t : Tick T} {tree : T}

/-- A tick that leaves no change uncarried: a moved tree comes with its diff, rows that need a delta find
    the checkout staged, and a number is left for what is recorded. -/
structure Covered (p : Poll T) (t : Tick T) (measured : WorktreeSnapshot T) (attachments : List String) : Prop where
  described : p.moves t measured attachments → measured.headCommit ≠ "" ∧ t.diffed = true
  staged : p.attributes t measured = true → p.stagedTree t measured attachments = some t.checkout
  room : p.records t measured attachments → p.lastDeltaSeq ≠ some u64Max

def CoveredTick (p : Poll T) (t : Tick T) : Prop := p.WhenMeasured t (Covered p t)

theorem unseeded_tick (hnone : p.previousWipTree = none) (measured : WorktreeSnapshot T) (attachments : List String) :
    p.changeDelta git.diff t measured attachments = none ∧ ¬ p.moves t measured attachments := by
  have hopen : ∀ tree, p.openedTree t = some tree → tree = t.checkout := by
    intro tree h
    unfold Poll.openedTree at h
    rw [hnone] at h
    split at h
    · exact (Option.some_inj.mp h).symm
    · cases h
  constructor
  · rcases hd : p.changeDelta git.diff t measured attachments with _ | delta
    · rfl
    · obtain ⟨-, tree, htree, hne, -⟩ := Poll.changeDelta_eq_some.mp hd
      exact absurd (hopen tree htree) hne
  · rintro ⟨-, tree, htree, hne⟩
    exact hne (hopen tree htree)

omit [DecidableEq T] in
theorem openedTree_of_some (h : p.previousWipTree = some tree) : p.openedTree t = some tree := by
  simp [Poll.openedTree, h]

variable {measured : WorktreeSnapshot T} {attachments : List String}

theorem stagedTree_of_not_moves (h : p.previousWipTree = some tree)
    (hm : ¬ p.moves t measured attachments) :
    p.stagedTree t measured attachments = some tree := by
  unfold Poll.stagedTree
  split
  · rename_i hs
    by_contra hne
    refine hm ⟨hs, tree, openedTree_of_some h, fun e => hne ?_⟩
    rw [e]
  · exact openedTree_of_some h

section Kept

variable {q : Poll T} {measured : WorktreeSnapshot T} {attachments : List String}

omit [DecidableEq T] in
theorem settle_seedTree (hseed : q.seedTree = p.seedTree) :
    (q.settle t).seedTree = (p.seedTree <|> q.previousWipTree) := by
  rw [← hseed]
  rfl

theorem ChainSound.unrecorded (h : ChainSound git p) (hq : p.Ticked git.diff t measured attachments q)
    (hstill : ¬ p.moves t measured attachments) (hsame : q.deltas = p.deltas) : ChainSound git (q.settle t) := by
  have hopened : (q.settle t).seedTree = (p.seedTree <|> q.previousWipTree) := settle_seedTree hq.seed
  rcases h.stands with ⟨seed, hseed, hprev⟩ | ⟨hseed, hprev, hnil⟩
  · have htree := hq.tree
    rw [stagedTree_of_not_moves hprev hstill] at htree
    rw [hseed] at hopened
    refine h.same hsame (.inr (hopened.trans hseed.symm)) ?_
    rw [hopened]
    exact htree.trans (congrArg (fun ds => some (compose git seed ds)) hsame.symm)
  · refine h.same hsame (.inl hseed) ?_
    rw [hopened, hseed, show (q.settle t).deltas = [] from hsame.trans hnil]
    exact Option.map_id'.symm

theorem ChainSound.attributed (h : ChainSound git p) (hq : p.Ticked git.diff t measured attachments q)
    (hstill : ¬ p.moves t measured attachments) (hstaged : p.stagedTree t measured attachments = some t.checkout)
    (hdeltas : q.deltas = p.deltas ++ [(delta, t.checkout)])
    (hseq : delta.seq = p.deltas.length + 1) (hempty : delta.patch = []) : ChainSound git (q.settle t) := by
  have hopened : (q.settle t).seedTree = (p.seedTree <|> q.previousWipTree) := settle_seedTree hq.seed
  have htree := hq.tree
  rw [hstaged] at htree
  rcases h.stands with ⟨seed, hseed, hprev⟩ | ⟨hseed, hprev, hnil⟩
  · have hend : compose git seed p.deltas = t.checkout := by
      rw [stagedTree_of_not_moves hprev hstill] at hstaged
      exact Option.some_inj.mp hstaged
    rw [hseed] at hopened
    refine h.extend (.inl hseed) hopened hdeltas hseq ?_ htree
    rw [hempty, git.nothing, hend]
  rw [hseed, htree] at hopened
  refine h.extend (.inr hseed) hopened hdeltas hseq ?_ htree
  rw [hempty, git.nothing, hnil]
  rfl

theorem ChainSound.changed (h : ChainSound git p) (hq : p.Ticked git.diff t measured attachments q)
    (hchange : p.changeDelta git.diff t measured attachments = some delta)
    (hdeltas : q.deltas = p.deltas ++ [(delta, t.checkout)]) (hseq : delta.seq = p.deltas.length + 1) :
    ChainSound git (q.settle t) := by
  have hopened : (q.settle t).seedTree = (p.seedTree <|> q.previousWipTree) := settle_seedTree hq.seed
  obtain ⟨hs, tree, hopen, hne, -, -, hdelta⟩ := Poll.changeDelta_eq_some.mp hchange
  rcases h.stands with ⟨seed, hseed, hprev⟩ | ⟨-, hprev, -⟩
  · have hend : tree = compose git seed p.deltas := by
      rw [openedTree_of_some hprev] at hopen
      exact (Option.some_inj.mp hopen).symm
    have hmoved : q.previousWipTree = some t.checkout := by rw [hq.tree, Poll.stagedTree, hs]; rfl
    rw [hseed] at hopened
    refine h.extend (.inl hseed) hopened hdeltas hseq ?_ hmoved
    rw [hdelta, ← hend]
    exact git.exact tree t.checkout
  · rw [(unseeded_tick hprev measured attachments).1] at hchange
    cases hchange

end Kept

variable {q : Poll T}

theorem Chained.ticked (h : Chained git p)
    (hq : p.Ticked git.diff t measured attachments q) (hcov : Covered p t measured attachments) :
    Chained git (q.settle t) := by
  refine ⟨?_, h.counted.ticked hq hcov.room⟩
  have hnext : ∀ delta, p.newDelta git.diff t measured attachments = some delta → delta.seq = p.deltas.length + 1 :=
    fun delta hnew => (Poll.newDelta_seq hnew).trans
      (h.counted.nextTick_eq (hcov.room (Poll.records_iff.mpr ⟨delta, hnew⟩))).1
  have hdeltas := hq.deltas
  unfold Poll.newDelta at hdeltas hnext
  rcases hchange : p.changeDelta git.diff t measured attachments with _ | delta
  · have hstill : ¬ p.moves t measured attachments := by
      intro hm
      obtain ⟨hhead, hdiff⟩ := hcov.described hm
      obtain ⟨hs, tree, htree, hne⟩ := hm
      rw [Poll.changeDelta_eq_some.mpr ⟨hs, tree, htree, hne, hhead, hdiff, rfl⟩] at hchange
      cases hchange
    rw [hchange] at hdeltas hnext
    rcases hattr : p.attributes t measured with _ | _
    all_goals rw [hattr] at hdeltas hnext
    · exact h.sound.unrecorded hq hstill (by simpa using hdeltas)
    · exact h.sound.attributed hq hstill (hcov.staged hattr) hdeltas (hnext _ rfl) rfl
  · rw [hchange] at hdeltas hnext
    exact h.sound.changed hq hchange hdeltas (hnext delta rfl)

/-! ### Nothing less will do -/

theorem Chained.described (h : Chained git p)
    (hq : p.Ticked git.diff t measured attachments q) (h' : Chained git (q.settle t))
    (hm : p.moves t measured attachments) : ∃ delta, p.changeDelta git.diff t measured attachments = some delta := by
  rcases hchange : p.changeDelta git.diff t measured attachments with _ | delta
  · exfalso
    rcases h.sound.stands with ⟨seed, hseed, hprev⟩ | ⟨-, hprev, -⟩
    · obtain ⟨hs, tree, hopen, hne⟩ := hm
      -- the tree is at the checkout, the chain where it was
      have hend : compose git seed q.deltas = compose git seed p.deltas := by
        rw [hq.deltas, Poll.newDelta, hchange]
        cases p.attributes t measured with
        | false => simp
        | true => exact (compose_snoc ..).trans (git.nothing _)
      have hcarried : q.previousWipTree = (q.seedTree <|> q.previousWipTree).map (compose git · q.deltas) :=
        h'.sound.carried
      rw [hq.tree, Poll.stagedTree, hs, hq.seed, hseed] at hcarried
      rw [openedTree_of_some hprev] at hopen
      have hcheckout : t.checkout = compose git seed q.deltas := Option.some_inj.mp hcarried
      exact hne ((Option.some_inj.mp hopen).symm.trans (hend.symm.trans hcheckout.symm))
    · obtain ⟨-, hstill⟩ : p.changeDelta git.diff t measured attachments = none ∧ _ :=
        unseeded_tick hprev measured attachments
      exact hstill hm
  · exact ⟨delta, rfl⟩

theorem Chained.covered (h : Chained git p)
    (hq : p.Ticked git.diff t measured attachments q) (h' : Chained git (q.settle t)) :
    Covered p t measured attachments := by
  refine ⟨?_, ?_, h.counted.room hq h'.counted⟩
  · intro hm
    obtain ⟨delta, hchange⟩ := h.described hq h' hm
    obtain ⟨-, -, -, -, hhead, hdiff, -⟩ := Poll.changeDelta_eq_some.mp hchange
    exact ⟨hhead, hdiff⟩
  intro hattr
  obtain ⟨delta, hnew⟩ := Poll.records_iff.mp (.inr hattr)
  have hdeltas : (q.settle t).deltas = p.deltas ++ [(delta, t.checkout)] := by
    have := hq.deltas
    rw [hnew] at this
    exact this
  obtain ⟨seed, hseed, hend⟩ := h'.sound.composes p.deltas delta t.checkout [] hdeltas
  have hcarried := h'.sound.carried
  rw [hseed, hdeltas, Option.map_some, hend] at hcarried
  exact hq.tree.symm.trans hcarried

theorem tick_chained_iff (h : Chained git p) : Chained git (p.tick git.diff t) ↔ CoveredTick p t := by
  refine Poll.tick_iff ?_ fun measured attachments q hq => ⟨h.covered hq, h.ticked hq⟩
  intro stopped
  exact ⟨⟨h.sound.numbered, h.sound.composes, h.sound.unmoved, h.sound.carried⟩,
    h.counted.numbered, h.counted.last, h.counted.bounded⟩

end Tick

/-! ## Whole runs -/

/-- In a run of a room whose ticks are all covered, the deltas of every state are a sound chain. -/
theorem run_chainSound [DecidableEq T] (git : ExactGit T) {hasWorktree : Bool} {snapshot : WorktreeSnapshot T}
    {attachments : List String} {checkout : T} {ticks reached : List (Tick T)}
    (h : Guarded (Poll.tick git.diff) CoveredTick (register hasWorktree snapshot attachments checkout) ticks)
    (hr : reached <+: ticks) :
    ChainSound git (reached.foldl (Poll.tick git.diff) (register hasWorktree snapshot attachments checkout)) := by
  have hstep : ∀ p t, Chained git p → CoveredTick p t → Chained git (Poll.tick git.diff p t) :=
    fun p t hp hcov => (tick_chained_iff hp).mpr hcov
  have hstart : Chained git (register hasWorktree snapshot attachments checkout) := by
    refine ⟨⟨rfl, ?_, ?_, rfl⟩, rfl, rfl, Nat.zero_le _⟩
    · intro pre delta c rest hd
      simp [register, Poll.deltas] at hd
    · intro pre delta c rest hd
      simp [register, Poll.deltas] at hd
  exact (guarded_reached hstep hstart h hr).sound

/-- Trees of one byte: a patch names the byte it replaces and the one it puts there. -/
def byteGit : ExactGit UInt8 where
  diff a b := [a, b]
  apply patch tree := if patch = [] then tree else if patch.head? = some tree then patch.getLastD tree else tree
  exact a b := by simp
  nothing a := rfl

def seen (changedFiles : Nat) : WorktreeSnapshot UInt8 := ⟨"c0", "main", [], changedFiles, 0, 0, 0, none⟩

def edit : AgentActivityRecord := ⟨"call-1", "completed", 0, ["a.txt"]⟩

/-- A quiet tick at the opening checkout, then one at another checkout with a call in the log. -/
def editTicks (metadataWritten : Bool) : List (Tick UInt8) :=
  [{ checkout := 1, measurement := .taken (seen 0) [] },
    { checkout := 2, measurement := .taken (seen 1) [], log := some [edit], metadataWritten := metadataWritten }]

theorem chainSound_after_an_edit :
    ((editTicks true).foldl (Poll.tick byteGit.diff) (register true (seen 0) [] 1)).deltas.map (·.1.patch) = [[1, 2]] ∧
      ChainSound byteGit ((editTicks true).foldl (Poll.tick byteGit.diff) (register true (seen 0) [] 1)) := by
  have hguard : Guarded (Poll.tick byteGit.diff) CoveredTick (register true (seen 0) [] 1) (editTicks true) := by
    refine ⟨?_, ?_, trivial⟩
    · intro _ measured attachments hm
      cases hm
      exact ⟨fun _ => by decide, fun h => absurd h (by decide), fun _ => by decide⟩
    · intro _ measured attachments hm
      cases hm
      exact ⟨fun _ => by decide, fun _ => by decide, fun _ => by decide⟩
  exact ⟨by decide, run_chainSound byteGit hguard (prefix_refl _)⟩

/-- The metadata write fails, so the edit is not staged, and its call is given an empty delta all the same. -/
theorem empty_delta_over_a_change : ¬ ∀ (T : Type) [DecidableEq T] (git : ExactGit T) (hasWorktree : Bool)
    (snapshot : WorktreeSnapshot T) (attachments : List String) (checkout : T) (ticks : List (Tick T)),
    ChainSound git (ticks.foldl (Poll.tick git.diff) (register hasWorktree snapshot attachments checkout)) := by
  intro h
  have hdeltas : ((editTicks false).foldl (Poll.tick byteGit.diff) (register true (seen 0) [] 1)).deltas =
      [(⟨1, 0, "c0", [], []⟩, 2)] := by decide
  have hunmoved := (h UInt8 byteGit true (seen 0) [] 1 (editTicks false)).unmoved [] _ _ [] hdeltas rfl
  revert hunmoved
  decide

end TddyCoder.SessionRoom
