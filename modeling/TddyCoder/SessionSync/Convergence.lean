/-
  TddyCoder.SessionSync.Convergence — a mirror follows one room (`TddyCoder.SessionSync.Rooms`):
  records lost, repeated and out of order, commits and restarts in between.

  A restore brings the tree of the room's newest tick and records the tick that provoked it, so
  `last_seq` may be behind the tree. Until it has caught up, every path stands as it did at
  `last_seq` or at the restore (`Following`). A file a patch created is in no index, and a restore
  leaves it alone.

  Proved: `run_converges`, if no restore finds such a file; else `a_deleted_file_stays`.
-/

import TddyCoder.Machine.Guarded
import TddyCoder.SessionSync.Rooms

namespace TddyCoder.SessionSync

open Machine
open TddyCoder.Tree

/-- Once `last_seq` is at or past the last restore's tick, the working tree is the room's at `last_seq`. -/
def Converged (S : Session) (s : Sync) : Prop :=
  ∀ m repo tick, s.copy.disk = some m → m.repo = some repo → s.copy.restoredAt = some tick →
    tick ≤ m.marker.lastSeq → repo.worktree = S.tree s.room m.marker.lastSeq

/-- A restore this event leads to finds no file but those of the index, the WIP commit's parent and its tree. -/
def NothingLeft (S : Session) (s : Sync) (e : Event) : Prop :=
  ∀ m repo, s.copy.disk = some m → m.repo = some repo → s.running = true → match e with
    | .activity record (.ok tick) git (.ok parent) =>
      m.marker.lastSeq < record.activitySeq → m.refuses (S.delta s.room tick) git = true →
        repo.Accounted ⟨parent, S.tree s.room s.newest⟩
    | .worktree .commit (.ok parent) => repo.Accounted ⟨parent, S.tree s.room s.newest⟩
    | _ => True

/-- Each path stands as at `last_seq` or as at the last restore, and only a restored mirror has a `HEAD`. -/
structure Following (S : Session) (s : Sync) : Prop where
  reached : s.copy.lastSeq ≤ s.newest
  unborn : s.copy.restoredAt = none → ∀ m repo, s.copy.disk = some m → m.repo = some repo → repo.head = none
  between : ∀ tick, s.copy.restoredAt = some tick → ∃ m repo, s.copy.disk = some m ∧ m.repo = some repo ∧
    (∀ path, repo.worktree path = S.tree s.room m.marker.lastSeq path ∨ repo.worktree path = S.tree s.room tick path) ∧
    (tick ≤ m.marker.lastSeq → repo.worktree = S.tree s.room m.marker.lastSeq)

variable {S : Session} {s s' : Sync} {repo : Repo} {m : Mirror} {e : Event}

theorem Following.converged (h : Following S s) : Converged S s := by
  intro m repo tick hm hrepo hat hle
  obtain ⟨m', repo', hm', hrepo', -, hpast⟩ := h.between tick hat
  rw [hm] at hm'
  cases hm'
  rw [hrepo] at hrepo'
  cases hrepo'
  exact hpast hle

/-! ## One event -/

theorem Following.restore {parent : Commit} {seq : Nat}
    {running : Bool} (hseq : seq ≤ s.newest) (hclean : repo.Accounted ⟨parent, S.tree s.room s.newest⟩) :
    Following S { s with
      running := running
      copy := s.copy.restore s.room s.newest (m.restored repo ⟨parent, S.tree s.room s.newest⟩ seq) } := by
  have htree : (repo.restored ⟨parent, S.tree s.room s.newest⟩).worktree = S.tree s.room s.newest :=
    (switched_twice_eq_iff _ _ _ _).mpr hclean
  refine ⟨?_, ?_, ?_⟩
  · exact hseq
  · intro hnone
    cases hnone
  intro tick hat
  cases hat
  refine ⟨_, _, rfl, rfl, ?_, ?_⟩
  · intro path
    exact .inr (congrFun htree path)
  intro hle
  have hsame : seq = s.newest := le_antisymm hseq hle
  show (repo.restored ⟨parent, S.tree s.room s.newest⟩).worktree = S.tree s.room seq
  rw [htree, hsame]

theorem Following.apply (h : Following S s) {commit : Commit}
    {tick : Nat} (hm : s.copy.disk = some m) (hrepo : m.repo = some repo) (hhead : repo.head = some commit)
    (hnewest : tick ≤ s.newest) (hnext : tick = m.marker.lastSeq + 1) :
    Following S { s with copy := s.copy.apply s.room tick (m.advanced (S.delta s.room tick)) } := by
  have hexact : patched (S.delta s.room tick).patch (S.tree s.room m.marker.lastSeq) = S.tree s.room tick := by
    rw [hnext]
    exact S.exact s.room m.marker.lastSeq
  have hseq := S.seq_eq s.room tick
  have hdisk : (m.advanced (S.delta s.room tick)).repo =
      some { repo with worktree := patched (S.delta s.room tick).patch repo.worktree } := by
    rw [Mirror.advanced, hrepo]
    rfl
  refine ⟨?_, ?_, ?_⟩
  · show (S.delta s.room tick).seq ≤ s.newest
    rw [hseq]
    exact hnewest
  · intro hnone
    have hheadless := h.unborn hnone m repo hm hrepo
    rw [hhead] at hheadless
    cases hheadless
  intro at' hat
  obtain ⟨m', repo', hm', hrepo', hmixed, hpast⟩ := h.between at' hat
  rw [hm] at hm'
  cases hm'
  rw [hrepo] at hrepo'
  cases hrepo'
  have hmixed' := patched_mixture hexact hmixed
  refine ⟨_, _, rfl, hdisk, ?_, ?_⟩
  · show ∀ path, patched (S.delta s.room tick).patch repo.worktree path =
      S.tree s.room (S.delta s.room tick).seq path ∨ _
    rw [hseq]
    exact hmixed'
  show at' ≤ (S.delta s.room tick).seq → patched (S.delta s.room tick).patch repo.worktree =
    S.tree s.room (S.delta s.room tick).seq
  rw [hseq]
  intro hle
  rcases hle.eq_or_lt with rfl | hlt
  · -- caught up with the restore: as at `last_seq` or as at the restore is now the same
    funext path
    exact (hmixed' path).elim id id
  · rw [hpast (by omega), hexact]

theorem Following.moved (h : Following S s) (hleft : NothingLeft S s e)
    (hroom : e ≠ .openRoom) (hm : Moved S s e s') : Following S s' := by
  cases hm with
  | quiet newest hosted running hn => exact ⟨h.reached.trans hn, h.unborn, h.between⟩
  | opened => exact absurd rfl hroom
  | initialised m hoffers hrepo =>
    have hlast := Copy.lastSeq_of_offers hoffers
    refine ⟨?_, ?_, ?_⟩
    · show m.marker.lastSeq ≤ s.newest
      rw [← hlast]
      exact h.reached
    · intro _ m' repo hm' hrepo'
      cases hm'
      cases hrepo'
      rfl
    -- a restored mirror has a repository
    intro tick hat
    obtain ⟨m', repo, hm', hrepo', -⟩ := h.between tick hat
    rcases hoffers with hdisk | ⟨hdisk, -⟩ <;> rw [hdisk] at hm' <;> cases hm'
    rw [hrepo] at hrepo'
    cases hrepo'
  | attached m hoffers hrepo =>
    have hlast := Copy.lastSeq_of_offers hoffers
    refine Following.restore (hlast ▸ h.reached) ?_
    intro path hne
    exact absurd rfl hne
  | skipped m tick hdisk hpos hle hseen => exact ⟨h.reached, h.unborn, h.between⟩
  | applied m repo commit tick hdisk hrepo hhead hrecord hnewest hnext => exact h.apply hdisk hrepo hhead hnewest hnext
  | reconciled m repo tick hdisk hrepo hnew hnewest hrun hrefused =>
    exact Following.restore hnewest (hleft m repo hdisk hrepo hrun hnew hrefused)
  | followed m repo hdisk hrepo hrun =>
    have hlast := Copy.lastSeq_of_disk hdisk
    exact Following.restore (hlast ▸ h.reached) (hleft m repo hdisk hrepo hrun)

theorem Moved.lastSeq_le (hm : Moved S s e s') : s.copy.lastSeq ≤ s'.copy.lastSeq := by
  cases hm with
  | quiet newest hosted running hn | opened => exact le_rfl
  | initialised m hoffers hrepo | attached m hoffers hrepo => exact (Copy.lastSeq_of_offers hoffers).le
  | skipped m tick hdisk hpos hle hseen => exact le_rfl
  | applied m repo commit tick hdisk hrepo hhead hrecord hnewest hnext =>
    rw [Copy.lastSeq_of_disk hdisk]
    show m.marker.lastSeq ≤ (S.delta s.room tick).seq
    rw [S.seq_eq]
    omega
  | reconciled m repo tick hdisk hrepo hnew hnewest hrun hrefused =>
    rw [Copy.lastSeq_of_disk hdisk]
    exact hnew.le
  | followed m repo hdisk hrepo hrun => exact (Copy.lastSeq_of_disk hdisk).le

/-! ## Whole runs -/

theorem run_lastSeq_le (S : Session) (s : Sync) (events : List Event) :
    s.copy.lastSeq ≤ (events.foldl (Sync.step S) s).copy.lastSeq := by
  induction events generalizing s with
  | nil => exact le_rfl
  | cons e events ih => exact (step_moved S s e).lastSeq_le.trans (ih (s.step S e))

/-- Within one room, if no restore finds a file left over, the mirror converges. -/
theorem run_converges (S : Session) {events reached more : List Event}
    (h : Guarded (Sync.step S) (NothingLeft S) {} events) (hroom : Event.openRoom ∉ events)
    (hr : reached ++ more <+: events) :
    (reached.foldl (Sync.step S) {}).copy.lastSeq ≤ ((reached ++ more).foldl (Sync.step S) {}).copy.lastSeq ∧
      Converged S ((reached ++ more).foldl (Sync.step S) {}) ∧
      ∀ m delta git reason m', ((reached ++ more).foldl (Sync.step S) {}).copy.disk = some m →
        m.apply delta git = (.ok (.needsReconcile reason), m') → m' = m := by
  have hinit : Following S {} := by
    refine ⟨le_rfl, ?_, ?_⟩
    · intro _ m repo hm
      cases hm
    · intro tick hat
      cases hat
  have hstep : ∀ s e, Following S s → NothingLeft S s e ∧ e ≠ .openRoom → Following S (Sync.step S s e) :=
    fun s e hs hok => hs.moved hok.1 hok.2 (step_moved S s e)
  have hguard := guarded_and h fun e he => ne_of_mem_of_not_mem he hroom
  refine ⟨?_, (guarded_reached hstep hinit hguard hr).converged, ?_⟩
  · rw [List.foldl_append]
    exact run_lastSeq_le S _ more
  intro m delta git reason m' _ happly
  rcases m.apply_cases delta git with ⟨-, e⟩ | ⟨-, _, e⟩ | ⟨_, e⟩ | ⟨_, _, -, -, -, e⟩
  all_goals rw [e] at happly; cases happly
  rfl

/-- A session whose first tick writes a file, whose second deletes it and whose third writes another. -/
def passing : Session where
  dest := "mirror"
  address := ⟨"s1", "daemon", "app"⟩
  tree _ tick := fun path => if tick = 1 ∧ path = "f" ∨ 3 ≤ tick ∧ path = "g" then some [1] else none
  delta _ tick := ⟨tick, tick - 1, "c0", match tick with
    | 1 => [⟨"f", none, some [1]⟩]
    | 2 => [⟨"f", some [1], none⟩]
    | 3 => [⟨"g", none, some [1]⟩]
    | _ => []⟩
  seq_eq _ _ := rfl
  prevSeq_eq _ _ := rfl
  exact _ tick := by
    funext path
    by_cases hf : path = "f" <;> by_cases hg : path = "g" <;>
      rcases tick with _ | _ | _ | tick <;> simp_all [patched]

/-- A client attaches, and of three ticks hears the third. -/
def overAGap : List Event := [.start true (.ok ⟨"c0", fun _ => none⟩), .tick, .tick, .tick, hears 3]

theorem converges_over_a_gap : (overAGap.foldl (Sync.step passing) {}).copy.restoredAt = some 3 ∧
    Converged passing (overAGap.foldl (Sync.step passing) {}) := by
  have hguard : Guarded (Sync.step passing) (NothingLeft passing) {} overAGap := by
    refine ⟨?_, ?_, ?_, ?_, ?_, trivial⟩
    all_goals intro m repo hm hrepo hrun
    · cases hm
    · trivial
    · trivial
    · trivial
    intro _ _ path hne
    cases hm
    cases hrepo
    exact absurd rfl hne
  have hroom : Event.openRoom ∉ overAGap := by simp [overAGap, hears]
  have hr : [] ++ overAGap <+: overAGap := List.prefix_refl _
  exact ⟨by decide, (run_converges passing hguard hroom hr).2.1⟩

/-- The first tick is heard, the second lost, and the third restores the mirror: the file stays. -/
theorem a_deleted_file_stays : ¬ ∀ (S : Session) (events : List Event), Event.openRoom ∉ events →
    Converged S (events.foldl (Sync.step S) {}) := by
  intro h
  have hconv := h passing [.start true (.ok ⟨"c0", fun _ => none⟩), .tick, hears 1, .tick, .tick, hears 3]
    (by simp [hears])
  have htree := congrFun (hconv _ _ 3 rfl rfl rfl le_rfl) "f"
  revert htree
  decide

end TddyCoder.SessionSync
