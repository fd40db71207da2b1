/-
  TddyCoder.SessionRoom.DeltaStore — the ring of recent tick deltas and the index of calls
  over it (`SessionDeltaStore` of `packages/tddy-daemon-livekit/src/session_room.rs`).

  A tick is measured once and then shared out: each call attributed to it is served the
  sections of the files the call declared, and the residual is what no call declared. The
  claims are kept by tick and call (`claims`), and which tick a call belongs to separately
  (`callTicks`); `record` drops the claims of a tick with the tick, `attribute` writes both.

  Proved: `a_store_keeps_the_newest_ticks`; `partitioned_iff`, and a tick that is not:
  `reattributed_unserved`.
-/

import TddyCoder.Machine.Guarded
import TddyCoder.SessionRoom.PatchSections
import TddyCoder.SessionRoom.Poll
import TddyCoder.Table.Assoc

namespace TddyCoder.SessionRoom

open Machine Table List

inductive DeltaScope
  | call
  | residual
  | tick
  deriving DecidableEq

inductive DeltaLookupError
  | unknownCall (callId : String)
  | agedOut (callId : String) (seq : Nat)
  deriving DecidableEq

structure SessionDeltaStore where
  maxTicks : Nat
  maxBytes : Nat
  ticks : List ActivityDelta
  retainedBytes : Nat
  claims : Assoc Nat (Assoc String (List String))
  callTicks : Assoc String Nat

namespace SessionDeltaStore

def new (maxTicks maxBytes : Nat) : SessionDeltaStore := ⟨maxTicks, maxBytes, [], 0, ∅, ∅⟩

/-- Oldest first, until both bounds hold; the ticks, the bytes and the claims that are left. -/
def evict (maxTicks maxBytes : Nat) :
    List ActivityDelta → Nat → Assoc Nat (Assoc String (List String)) →
      List ActivityDelta × Nat × Assoc Nat (Assoc String (List String))
  | [], bytes, claims => ([], bytes, claims)
  | oldest :: ticks, bytes, claims =>
    if ticks.length + 1 > maxTicks || bytes > maxBytes then
      evict maxTicks maxBytes ticks (bytes - oldest.patch.length) (claims.erase oldest.seq)
    else (oldest :: ticks, bytes, claims)

variable (s : SessionDeltaStore)

def record (delta : ActivityDelta) : SessionDeltaStore :=
  let bytes := min (s.retainedBytes + delta.patch.length) u64Max
  let (ticks, bytes, claims) := evict s.maxTicks s.maxBytes (s.ticks ++ [delta]) bytes s.claims
  let floor := (ticks.head?.map (·.seq)).getD (min (delta.seq + 1) u64Max)
  { s with ticks := ticks, retainedBytes := bytes, claims := retain (fun seq => floor ≤ seq) claims }

variable (callId : String) (seq : Nat)

def attributeCall (changedPaths : List String) :
    SessionDeltaStore :=
  { s with
    callTicks := s.callTicks.insert callId seq
    claims := s.claims.insert seq (((s.claims.lookup seq).getD ∅).insert callId changedPaths) }

def tick : Option ActivityDelta := s.ticks.find? (·.seq = seq)

def declaredBy : List String :=
  ((s.claims.lookup seq).bind fun claims => claims.lookup callId).getD []

def claimedPaths : List String :=
  match s.claims.lookup seq with
  | none => []
  | some claims => claims.entries.flatMap (·.2)

def residual (tick : ActivityDelta) : List UInt8 × List String :=
  selectSections tick.patch fun part => !part.namesAnyIn (s.claimedPaths tick.seq)

def deltaForCall (scope : DeltaScope) :
    Except DeltaLookupError ActivityDelta :=
  match s.callTicks.lookup callId with
  | none => .error (.unknownCall callId)
  | some seq =>
    match s.tick seq with
    | none => .error (.agedOut callId seq)
    | some tick =>
      let (patch, scopedPaths) := match scope with
        | .call =>
          let declared := s.declaredBy callId seq
          ((selectSections tick.patch fun part => part.namesAnyIn declared).1, declared)
        | .residual => s.residual tick
        | .tick => (tick.patch, [])
      .ok { tick with patch := patch, scopedPaths := scopedPaths }

end SessionDeltaStore

inductive StoreOp
  | record (delta : ActivityDelta)
  | attributeCall (callId : String) (seq : Nat) (changedPaths : List String)

variable (s : SessionDeltaStore)

def StoreOp.apply : StoreOp → SessionDeltaStore
  | .record delta => s.record delta
  | .attributeCall callId seq changedPaths => s.attributeCall callId seq changedPaths

namespace SessionDeltaStore

def run (maxTicks maxBytes : Nat) (ops : List StoreOp) : SessionDeltaStore := ops.foldl StoreOp.apply (new maxTicks maxBytes)

/-! ## What a tick's calls and its residual serve -/

def calls (seq : Nat) : List String := keysOf seq s.callTicks

variable (t : ActivityDelta)

def answers : List (List UInt8) :=
  (s.calls t.seq).filterMap (fun callId => ((s.deltaForCall callId .call).toOption).map (·.patch)) ++ [(s.residual t).1]

/-- The answers are made of the tick's sections, each of them once, and these in patch order are its patch. -/
def Partitioned : Prop :=
  ((s.answers t).flatMap patchSections).Perm (patchSections t.patch) ∧
    (patchSections t.patch).flatMap (·.bytes) = t.patch

instance : Decidable (s.Partitioned t) :=
  inferInstanceAs (Decidable (_ ∧ _))

/-- No section is of files that two calls of the tick declared. -/
def SingleClaims : Prop :=
  ∀ σ ∈ patchSections t.patch, ∀ c ∈ s.calls t.seq, ∀ c' ∈ s.calls t.seq,
    σ.namesAnyIn (s.declaredBy c t.seq) = true → σ.namesAnyIn (s.declaredBy c' t.seq) = true → c = c'

/-- A section that a call attributed elsewhere still claims here is also claimed by a call of the tick. -/
def NoneLeftBehind : Prop :=
  ∀ σ ∈ patchSections t.patch, ∀ gone, gone ∉ s.calls t.seq → σ.namesAnyIn (s.declaredBy gone t.seq) = true →
    ∃ c ∈ s.calls t.seq, σ.namesAnyIn (s.declaredBy c t.seq) = true

/-- Filters deal a list out exactly when each of its elements passes just one of them. -/
theorem flatMap_filter_perm {α κ : Type} [DecidableEq α] (keep : κ → α → Bool) (ks : List κ) (xs : List α) :
    (ks.flatMap fun k => xs.filter (keep k)).Perm xs ↔ ∀ x ∈ xs, (ks.countP fun k => keep k x) = 1 := by
  have hcount : ∀ x, (ks.flatMap fun k => xs.filter (keep k)).count x = (ks.countP fun k => keep k x) * xs.count x := by
    intro x
    induction ks with
    | nil => simp
    | cons k ks ih =>
      rw [flatMap_cons, count_append, ih, countP_cons]
      by_cases h : keep k x = true
      · rw [count_filter h, if_pos h, Nat.add_mul, Nat.one_mul, Nat.add_comm]
      · rw [count_eq_zero_of_not_mem (by simp [h]), if_neg h, Nat.zero_add, Nat.add_zero]
  rw [perm_iff_count]
  constructor
  · intro h x hx
    have hpos := count_pos_iff.mpr hx
    have := (hcount x).symm.trans (h x)
    exact Nat.eq_of_mul_eq_mul_right hpos (this.trans (Nat.one_mul _).symm)
  intro h x
  rw [hcount x]
  by_cases hx : x ∈ xs
  · rw [h x hx, Nat.one_mul]
  · rw [count_eq_zero_of_not_mem hx, Nat.mul_zero]

variable {s : SessionDeltaStore} {seq : Nat}

theorem mem_claimedPaths {path : String} : path ∈ s.claimedPaths seq ↔ ∃ c, path ∈ s.declaredBy c seq := by
  unfold claimedPaths declaredBy
  rcases s.claims.lookup seq with _ | claims
  · simp
  simp only [mem_flatMap, Option.bind_some]
  constructor
  · rintro ⟨⟨c, paths⟩, hentry, hpath⟩
    exact ⟨c, by rwa [lookup_eq_some.mpr hentry]⟩
  rintro ⟨c, hpath⟩
  rcases hc : claims.lookup c with _ | paths
  · simp [hc] at hpath
  · rw [hc] at hpath
    exact ⟨⟨c, paths⟩, lookup_eq_some.mp hc, hpath⟩

theorem namesAnyIn_claimedPaths {σ : PatchSection} :
    σ.namesAnyIn (s.claimedPaths seq) = true ↔ ∃ c, σ.namesAnyIn (s.declaredBy c seq) = true := by
  simp only [PatchSection.namesAnyIn, any_eq_true, contains_iff_mem, mem_claimedPaths]
  constructor
  · rintro ⟨name, hname, c, hc⟩
    exact ⟨c, name, hname, hc⟩
  · rintro ⟨c, name, hname, hc⟩
    exact ⟨name, hname, c, hc⟩

def serves (s : SessionDeltaStore) (t : ActivityDelta) : Option String → PatchSection → Bool
  | some callId => fun σ => σ.namesAnyIn (s.declaredBy callId t.seq)
  | none => fun σ => !σ.namesAnyIn (s.claimedPaths t.seq)

theorem answers_sections {t : ActivityDelta} (ht : s.tick t.seq = some t) : (s.answers t).flatMap patchSections =
      ((s.calls t.seq).map some ++ [none]).flatMap fun k => (patchSections t.patch).filter (s.serves t k) := by
  have hcalls : (s.calls t.seq).filterMap (fun c => ((s.deltaForCall c .call).toOption).map (·.patch)) =
      (s.calls t.seq).map fun c => (selectSections t.patch (s.serves t (some c))).1 := by
    rw [← filterMap_eq_map]
    refine filterMap_congr fun c hc => ?_
    simp only [deltaForCall, mem_keysOf.mp hc, ht]
    rfl
  have hresidual : patchSections (s.residual t).1 = (patchSections t.patch).filter (s.serves t none) :=
    patchSections_select _ _
  rw [answers, hcalls, flatMap_append, flatMap_append, flatMap_map, flatMap_map,
    flatMap_singleton, flatMap_singleton, hresidual]
  simp only [patchSections_select]

theorem countP_eq_one {α : Type} {p : α → Bool} {l : List α} (h : l.Nodup) :
    l.countP p = 1 ↔ ∃ a ∈ l, p a = true ∧ ∀ b ∈ l, p b = true → b = a := by
  rw [countP_eq_length_filter, length_eq_one_iff]
  constructor
  · rintro ⟨a, ha⟩
    have hmem : ∀ b, b ∈ l ∧ p b = true ↔ b = a := by
      intro b
      rw [← mem_filter, ha, mem_singleton]
    exact ⟨a, ((hmem a).mpr rfl).1, ((hmem a).mpr rfl).2, fun b hb hp => (hmem b).mp ⟨hb, hp⟩⟩
  rintro ⟨a, hal, hpa, hall⟩
  refine ⟨a, perm_singleton.mp ((perm_ext_iff_of_nodup (h.filter p) (nodup_singleton a)).mpr ?_)⟩
  intro b
  rw [mem_filter, mem_singleton]
  constructor
  · exact fun hb => hall b hb.1 hb.2
  · rintro rfl
    exact ⟨hal, hpa⟩

/-- A section is served once exactly when its claims, if it has any, come down to one call of the tick. -/
theorem served_once_iff (s : SessionDeltaStore) (t : ActivityDelta) (σ : PatchSection) :
    (((s.calls t.seq).map some ++ [none]).countP fun k => s.serves t k σ) = 1 ↔
      (∀ c ∈ s.calls t.seq, ∀ c' ∈ s.calls t.seq, σ.namesAnyIn (s.declaredBy c t.seq) = true →
        σ.namesAnyIn (s.declaredBy c' t.seq) = true → c = c') ∧
      ∀ gone, gone ∉ s.calls t.seq → σ.namesAnyIn (s.declaredBy gone t.seq) = true →
        ∃ c ∈ s.calls t.seq, σ.namesAnyIn (s.declaredBy c t.seq) = true := by
  have hnodup : (s.calls t.seq).Nodup := keysOf_nodup _ _
  have hsum : (((s.calls t.seq).map some ++ [none]).countP fun k => s.serves t k σ) =
      ((s.calls t.seq).countP fun c => σ.namesAnyIn (s.declaredBy c t.seq)) +
        if σ.namesAnyIn (s.claimedPaths t.seq) then 0 else 1 := by
    cases h : σ.namesAnyIn (s.claimedPaths t.seq) <;> simp [serves, h, Function.comp_def]
  rw [hsum]
  by_cases hclaimed : σ.namesAnyIn (s.claimedPaths t.seq) = true
  · obtain ⟨someone, hsomeone⟩ := namesAnyIn_claimedPaths.mp hclaimed
    rw [if_pos hclaimed, Nat.add_zero, countP_eq_one hnodup]
    constructor
    · rintro ⟨a, ha, hp, hall⟩
      exact ⟨fun c hc c' hc' h h' => (hall c hc h).trans (hall c' hc' h').symm, fun _ _ _ => ⟨a, ha, hp⟩⟩
    rintro ⟨hone, hleft⟩
    have ⟨a, ha, hp⟩ : ∃ c ∈ s.calls t.seq, σ.namesAnyIn (s.declaredBy c t.seq) = true := by
      by_cases hin : someone ∈ s.calls t.seq
      · exact ⟨someone, hin, hsomeone⟩
      · exact hleft someone hin hsomeone
    exact ⟨a, ha, hp, fun b hb hpb => hone b hb a ha hpb hp⟩
  · have hnone : ∀ c, σ.namesAnyIn (s.declaredBy c t.seq) = false := by
      intro c
      by_contra h
      exact hclaimed (namesAnyIn_claimedPaths.mpr ⟨c, by simpa using h⟩)
    simp [hclaimed, hnone]

/-- The answers for a retained tick add up to its patch exactly when the patch begins with a section, no section is
    claimed by two calls of the tick, and none only by a call that has since been attributed to another. -/
theorem partitioned_iff (maxTicks maxBytes : Nat) (ops : List StoreOp) (t : ActivityDelta)
    (ht : (run maxTicks maxBytes ops).tick t.seq = some t) :
    (run maxTicks maxBytes ops).Partitioned t ↔
      (t.patch = [] ∨ patchSectionHeader <+: t.patch) ∧ (run maxTicks maxBytes ops).SingleClaims t ∧
        (run maxTicks maxBytes ops).NoneLeftBehind t := by
  rw [Partitioned, answers_sections ht, flatMap_filter_perm, flatMap_patchSections, and_comm]
  refine and_congr_right fun _ => ?_
  simp only [served_once_iff, SingleClaims, NoneLeftBehind]
  exact ⟨fun h => ⟨fun σ hσ => (h σ hσ).1, fun σ hσ => (h σ hσ).2⟩, fun h σ hσ => ⟨h.1 σ hσ, h.2 σ hσ⟩⟩

def editOfF : ActivityDelta :=
  ⟨1, 0, "c0ffee", Text.ascii "diff --git a/f b/f\n--- a/f\n+++ b/f\n@@ -1 +1 @@\n-x\n+y\n", []⟩

theorem partitioned_iff_edit :
    (run 64 1000 [.record editOfF, .attributeCall "c1" 1 ["f"]]).tick editOfF.seq = some editOfF ∧
      ((run 64 1000 [.record editOfF, .attributeCall "c1" 1 ["f"]]).Partitioned editOfF ↔
        (editOfF.patch = [] ∨ patchSectionHeader <+: editOfF.patch) ∧
          (run 64 1000 [.record editOfF, .attributeCall "c1" 1 ["f"]]).SingleClaims editOfF ∧
          (run 64 1000 [.record editOfF, .attributeCall "c1" 1 ["f"]]).NoneLeftBehind editOfF) :=
  ⟨by decide, partitioned_iff 64 1000 _ editOfF (by decide)⟩

def reattributed : List StoreOp :=
  [.record editOfF, .attributeCall "c1" 1 ["f"], .record ⟨2, 1, "c0ffee", [], []⟩, .attributeCall "c1" 2 ["f"]]

/-- The edit of `f` is declared by two calls of its tick: both are served it. -/
def declaredTwice : List StoreOp :=
  [.record editOfF, .attributeCall "c1" 1 ["f"], .attributeCall "c2" 1 ["f"]]

theorem reattributed_unserved :
    ((run 64 1000 reattributed).tick 1 = some editOfF ∧ (run 64 1000 reattributed).answers editOfF = [[]] ∧
      ¬ (run 64 1000 reattributed).Partitioned editOfF) ∧
    ((run 64 1000 declaredTwice).tick 1 = some editOfF ∧
      (run 64 1000 declaredTwice).answers editOfF = [editOfF.patch, editOfF.patch, []] ∧
      ¬ (run 64 1000 declaredTwice).Partitioned editOfF) := by
  decide +kernel

/-! ## What is kept of a run -/

def bytesOf (ticks : List ActivityDelta) : Nat := (ticks.map (·.patch.length)).sum

def recorded (ops : List StoreOp) : List ActivityDelta :=
  ops.filterMap fun
    | .record delta => some delta
    | .attributeCall .. => none

/-- The tick the call was last attributed to. -/
def attributedTo (ops : List StoreOp) (callId : String) : Option Nat :=
  ops.reverse.findSome? fun
    | .record _ => none
    | .attributeCall c seq _ => if c = callId then some seq else none

/-- The patches a store holds with the one it is given are in memory together, so a `usize` counts their bytes. -/
def Fits (s : SessionDeltaStore) : StoreOp → Prop
  | .record delta => bytesOf s.ticks + delta.patch.length ≤ u64Max
  | .attributeCall .. => True

theorem evict_spec (maxTicks maxBytes : Nat) (ticks : List ActivityDelta) (claims : Assoc Nat (Assoc String (List String))) :
    let left := evict maxTicks maxBytes ticks (bytesOf ticks) claims
    left.1 <:+ ticks ∧ left.1.length ≤ maxTicks ∧ left.2.1 = bytesOf left.1 ∧ left.2.1 ≤ maxBytes ∧
      ∀ kept, kept <:+ ticks → kept.length ≤ maxTicks → bytesOf kept ≤ maxBytes → kept <:+ left.1 := by
  induction ticks generalizing claims with
  | nil => simp [evict, bytesOf]
  | cons oldest ticks ih =>
    have hrest : bytesOf (oldest :: ticks) - oldest.patch.length = bytesOf ticks := by simp [bytesOf]
    rw [evict, hrest]
    split
    · next hover =>
      obtain ⟨hsuffix, hcount, hsum, hbudget, hlongest⟩ := ih (claims.erase oldest.seq)
      refine ⟨hsuffix.trans (suffix_cons _ _), hcount, hsum, hbudget, fun kept hkept hlen hbytes => ?_⟩
      rcases suffix_cons_iff.mp hkept with rfl | hkept
      · simp only [length_cons] at hlen
        simp only [Bool.or_eq_true, decide_eq_true_eq] at hover
        omega
      · exact hlongest kept hkept hlen hbytes
    · next hwithin =>
      simp only [Bool.or_eq_true, decide_eq_true_eq, not_or, Nat.not_lt] at hwithin
      exact ⟨suffix_rfl, hwithin.1, rfl, hwithin.2, fun _ hkept _ _ => hkept⟩

structure Kept (maxTicks maxBytes : Nat) (ops : List StoreOp) (s : SessionDeltaStore) : Prop where
  limits : s.maxTicks = maxTicks ∧ s.maxBytes = maxBytes
  newest : s.ticks <:+ recorded ops
  count : s.ticks.length ≤ maxTicks
  bytes : s.retainedBytes = bytesOf s.ticks
  budget : s.retainedBytes ≤ maxBytes
  longest : ∀ kept, kept <:+ recorded ops → kept.length ≤ maxTicks → bytesOf kept ≤ maxBytes → kept <:+ s.ticks
  calls : ∀ callId, s.callTicks.lookup callId = attributedTo ops callId

variable {maxTicks maxBytes : Nat} {ops : List StoreOp}

theorem Kept.record (h : Kept maxTicks maxBytes ops s) {delta : ActivityDelta} (hfits : Fits s (.record delta)) :
    Kept maxTicks maxBytes (ops ++ [.record delta]) (s.record delta) := by
  have hbytes : min (s.retainedBytes + delta.patch.length) u64Max = bytesOf (s.ticks ++ [delta]) := by
    rw [h.bytes, Nat.min_eq_left hfits]
    simp [bytesOf]
  have hrecorded : recorded (ops ++ [.record delta]) = recorded ops ++ [delta] := filterMap_append
  obtain ⟨hsuffix, hcount, hsum, hbudget, hlongest⟩ := evict_spec s.maxTicks s.maxBytes (s.ticks ++ [delta]) s.claims
  rw [← hbytes] at hsuffix hcount hsum hbudget hlongest
  refine ⟨h.limits, hsuffix.trans ?_, h.limits.1 ▸ hcount, hsum, h.limits.2 ▸ hbudget, fun kept hkept hlen hwithin => ?_,
    fun callId => ?_⟩
  · rw [hrecorded]
    exact (suffix_append_inj_of_length_eq rfl).mpr ⟨h.newest, rfl⟩
  · refine hlongest kept ?_ (h.limits.1 ▸ hlen) (h.limits.2 ▸ hwithin)
    rw [hrecorded] at hkept
    rcases suffix_concat_iff.mp hkept with rfl | ⟨older, rfl, holder⟩
    · exact nil_suffix
    refine (suffix_append_inj_of_length_eq rfl).mpr ⟨h.longest older holder ?_ ?_, rfl⟩
    · simp only [length_append] at hlen
      omega
    · simp only [bytesOf, map_append, sum_append] at hwithin ⊢
      omega
  · rw [attributedTo, reverse_append]
    exact h.calls callId

theorem Kept.attributeCall (h : Kept maxTicks maxBytes ops s) (callId : String) (seq : Nat) (paths : List String) :
    Kept maxTicks maxBytes (ops ++ [.attributeCall callId seq paths]) (s.attributeCall callId seq paths) := by
  have hrecorded : recorded (ops ++ [.attributeCall callId seq paths]) = recorded ops := by simp [recorded]
  refine ⟨h.limits, ?_, h.count, h.bytes, h.budget, ?_, fun other => ?_⟩
  · rw [hrecorded]
    exact h.newest
  · rw [hrecorded]
    exact h.longest
  have hother := h.calls other
  by_cases hsame : callId = other
  · simp [attributedTo, SessionDeltaStore.attributeCall, hsame]
  · simpa [attributedTo, SessionDeltaStore.attributeCall, hsame, AList.lookup_insert_ne (Ne.symm hsame)] using hother

theorem kept_run (hfits : Guarded StoreOp.apply Fits (new maxTicks maxBytes) ops) :
    Kept maxTicks maxBytes ops (run maxTicks maxBytes ops) := by
  induction ops using reverseRecOn with
  | nil => exact ⟨⟨rfl, rfl⟩, nil_suffix, Nat.zero_le _, rfl, Nat.zero_le _, fun _ hkept _ _ => hkept, fun _ => rfl⟩
  | append_singleton ops op ih =>
    obtain ⟨hops, hop, -⟩ := guarded_append.mp hfits
    rw [run, foldl_append]
    cases op with
    | record delta => exact (ih hops).record hop
    | attributeCall callId seq paths => exact (ih hops).attributeCall callId seq paths

/-- After every `record`, the store holds the newest ticks, as many as both bounds allow; a call that was attributed is
    known, and has aged out exactly when its tick is gone; and no claims are of a tick before the oldest. -/
theorem a_store_keeps_the_newest_ticks (maxTicks maxBytes : Nat) (ops : List StoreOp) (delta : ActivityDelta)
    (hfits : Guarded StoreOp.apply Fits (new maxTicks maxBytes) (ops ++ [.record delta])) {s : SessionDeltaStore}
    (hs : run maxTicks maxBytes (ops ++ [.record delta]) = s) :
    s.ticks <:+ recorded (ops ++ [.record delta]) ∧ s.ticks.length ≤ maxTicks ∧
    s.retainedBytes = bytesOf s.ticks ∧ s.retainedBytes ≤ maxBytes ∧
    (∀ kept, kept <:+ recorded (ops ++ [.record delta]) → kept.length ≤ maxTicks → bytesOf kept ≤ maxBytes →
      kept <:+ s.ticks) ∧
    (∀ callId seq scope, attributedTo ops callId = some seq →
      s.deltaForCall callId scope ≠ .error (.unknownCall callId) ∧
        (s.deltaForCall callId scope = .error (.agedOut callId seq) ↔ ∀ t ∈ s.ticks, t.seq ≠ seq)) ∧
    ∀ oldest, s.ticks.head? = some oldest → ∀ seq claims, s.claims.lookup seq = some claims → oldest.seq ≤ seq := by
  have hkept := kept_run hfits
  rw [hs] at hkept
  refine ⟨hkept.newest, hkept.count, hkept.bytes, hkept.budget, hkept.longest, fun callId seq scope hcall => ?_, ?_⟩
  · have hknown := hkept.calls callId
    rw [attributedTo, reverse_append] at hknown
    have hgone : s.tick seq = none ↔ ∀ t ∈ s.ticks, t.seq ≠ seq := by simp [tick]
    rw [deltaForCall, hknown.trans hcall, ← hgone]
    dsimp only
    cases s.tick seq <;> simp
  intro oldest holdest seq claims hclaims
  rw [← hs, run, foldl_append] at holdest hclaims
  have hfloor : ((some oldest).map (·.seq)).getD (min (delta.seq + 1) u64Max) ≤ seq :=
    holdest ▸ of_decide_eq_true (lookup_retain_eq_some.mp hclaims).2
  exact hfloor

theorem the_call_of_an_evicted_tick_has_aged_out :
    (run 1 1000 [.record editOfF, .attributeCall "c1" 1 ["f"], .record ⟨2, 1, "c0ffee", [], []⟩]).deltaForCall "c1" .call =
      .error (.agedOut "c1" 1) :=
  ((a_store_keeps_the_newest_ticks 1 1000 [.record editOfF, .attributeCall "c1" 1 ["f"]] ⟨2, 1, "c0ffee", [], []⟩
    ⟨by unfold Fits; decide, trivial, by unfold Fits; decide, trivial⟩ rfl).2.2.2.2.2.1 "c1" 1 .call rfl).2.mpr (by decide)

end SessionDeltaStore

end TddyCoder.SessionRoom
