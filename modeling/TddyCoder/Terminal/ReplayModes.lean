/-
  TddyCoder.Terminal.ReplayModes — the mouse modes a replay leaves a fresh terminal in
  (`packages/tddy-task/src/terminal_capture.rs`: `replay`, `InputModes`, `EscapeParser`).

  A replay names the modes that are on now and then repeats what is retained, which may switch
  some of them again. What is retained begins between two sequences, so it makes the same changes
  as it did the first time, and a mode that it does not touch is as it was when it began.

  Proved: `a_replay_restores_the_mouse_modes`.
-/

import TddyCoder.Terminal.Ring

namespace TddyCoder.Terminal

open List

/-- The changes these bytes make. -/
def EscapeParser.events : EscapeParser → List UInt8 → List StreamEvent
  | _, [] => []
  | p, byte :: rest => (p.feed byte).1.toList ++ (p.feed byte).2.events rest

/-- The modes a fresh terminal is in after these bytes. -/
def modesAfter (bytes : List UInt8) : InputModes := (EscapeParser.new.events bytes).foldl InputModes.apply .default

/-- `ESC [ ? mode h` -/
def InputModes.switchOn (mode : Nat) : List UInt8 :=
  [0x1b, 0x5b, 0x3f] ++ (Nat.toDigits 10 mode).map (fun digit => UInt8.ofNat digit.toNat) ++ [0x68]

open InputModes (mouseTrackingModes switchOn)

/-- What an event says about a mouse mode, if anything. -/
def StreamEvent.tells (mode : Nat) : StreamEvent → Option Bool
  | .privateMode modes enabled => if mode ∈ modes then some enabled else none
  | .fullReset => some false
  | _ => none

/-- Whether a mouse mode is on after the events. -/
def modeAfter (mode : Nat) (on : Bool) (events : List StreamEvent) : Bool :=
  events.foldl (fun on event => (event.tells mode).getD on) on

/-- The parsers will make the same of what comes. -/
def EscapeParser.Alike (p q : EscapeParser) : Prop := p.state = q.state ∧ (p.state = .csi → p = q)

namespace EscapeParser

variable {p q : EscapeParser}

theorem alike_feed (h : Alike p q) (byte : UInt8) :
    (p.feed byte).1 = (q.feed byte).1 ∧ Alike (p.feed byte).2 (q.feed byte).2 := by
  obtain ⟨hstate, hcsi⟩ := h
  by_cases hp : p.state = .csi
  · rw [hcsi hp]; exact ⟨rfl, rfl, fun _ => rfl⟩
  unfold feed Alike
  rw [← hstate]
  cases hcase : p.state with
  | csi => exact absurd hcase hp
  | escape =>
    cases escapeEvent byte with
    | some event => simp
    | none => simp only; split_ifs <;> simp [beginCsi]
  | _ => simp only; split_ifs <;> simp_all

theorem alike_run (h : Alike p q) (bytes : List UInt8) : p.events bytes = q.events bytes ∧
    (bytes.foldl (fun p byte => (p.feed byte).2) p).state = (bytes.foldl (fun p byte => (p.feed byte).2) q).state := by
  induction bytes generalizing p q with
  | nil => exact ⟨rfl, h.1⟩
  | cons byte rest ih =>
    obtain ⟨hevent, hrest⟩ := alike_feed h byte
    rw [events, events, hevent, (ih hrest).1]
    exact ⟨rfl, (ih hrest).2⟩

theorem alike_ground (hp : p.state = .ground) (hq : q.state = .ground) : Alike p q :=
  ⟨hp.trans hq.symm, fun h => by rw [hp] at h; cases h⟩

theorem events_append (p : EscapeParser) (bytes more : List UInt8) :
    p.events (bytes ++ more) = p.events bytes ++ (bytes.foldl (fun p byte => (p.feed byte).2) p).events more := by
  induction bytes generalizing p with
  | nil => rfl
  | cons byte rest ih => simp [events, ih]

/-- The prologue switches on the modes that it names, and ends between two sequences. -/
theorem events_prologue {modes : List Nat} (h : ∀ mode ∈ modes, mode ∈ mouseTrackingModes) (hp : p.state = .ground) :
    p.events (modes.flatMap switchOn) = modes.map (.privateMode [·] true) ∧
      ((modes.flatMap switchOn).foldl (fun p byte => (p.feed byte).2) p).state = .ground := by
  induction modes generalizing p with
  | nil => exact ⟨rfl, hp⟩
  | cons mode modes ih =>
    have hnew := alike_ground hp (q := new) rfl
    have hone : new.events (switchOn mode) = [.privateMode [mode] true] ∧
        ((switchOn mode).foldl (fun p byte => (p.feed byte).2) new).state = .ground := by
      have hmode := h mode mem_cons_self
      simp only [mouseTrackingModes, mem_cons, not_mem_nil, or_false] at hmode
      rcases hmode with rfl | rfl | rfl | rfl | rfl | rfl | rfl <;> exact ⟨rfl, rfl⟩
    obtain ⟨hevents, hstate⟩ := alike_run hnew (switchOn mode)
    obtain ⟨hrest, hstate'⟩ := ih (fun mode hmode => h mode (mem_cons_of_mem _ hmode)) (hstate.trans hone.2)
    rw [flatMap_cons, events_append, hevents, hone.1, hrest, foldl_append]
    exact ⟨rfl, hstate'⟩

end EscapeParser

/-! ## The last word on a mode -/

section

variable {mode : Nat} {m : InputModes}

section

variable (hmode : mode ∈ mouseTrackingModes)
include hmode

theorem applyPrivateMode_enabled (on : Bool) (other : Nat) (h : m.enabled.Nodup) :
    (m.applyPrivateMode on other).enabled.Nodup ∧
      (mode ∈ (m.applyPrivateMode on other).enabled ↔ if mode = other then on = true else mode ∈ m.enabled) := by
  unfold InputModes.applyPrivateMode
  split
  · next halternate =>
    refine ⟨h, ?_⟩
    rw [if_neg]
    rintro rfl
    simp only [mouseTrackingModes, InputModes.alternateScreenModes, mem_cons, not_mem_nil,
      or_false] at hmode halternate
    omega
  · split
    · next huntracked =>
      refine ⟨h, ?_⟩
      rw [if_neg]
      rintro rfl
      exact huntracked (mem_append_left _ hmode)
    cases on with
    | false =>
      refine ⟨h.erase other, ?_⟩
      by_cases hsame : mode = other <;> simp [h.mem_erase_iff, hsame]
    | true =>
      by_cases hthere : other ∈ m.enabled
      · by_cases hsame : mode = other <;> simp [hthere, h, hsame]
      · have hperm := perm_orderedInsert (· ≤ ·) other m.enabled
        refine ⟨by simpa [hthere] using hperm.nodup_iff.mpr (nodup_cons.mpr ⟨hthere, h⟩), ?_⟩
        by_cases hsame : mode = other <;> simp [hthere, hperm.mem_iff, hsame]

theorem apply_enabled (event : StreamEvent) (h : m.enabled.Nodup) :
    (m.apply event).enabled.Nodup ∧ (mode ∈ (m.apply event).enabled ↔ (event.tells mode).getD (mode ∈ m.enabled) = true) := by
  cases event with
  | privateMode modes on =>
    simp only [InputModes.apply, StreamEvent.tells]
    induction modes generalizing m with
    | nil => simp [h]
    | cons other modes ih =>
      obtain ⟨hnodup, hon⟩ := applyPrivateMode_enabled hmode on other h
      obtain ⟨hnodup', hon'⟩ := ih hnodup
      refine ⟨hnodup', ?_⟩
      by_cases hsame : mode = other <;> by_cases hmem : mode ∈ modes <;> simp [hsame, hmem, hon] <;> simp_all
  | fullReset => simp [InputModes.apply, StreamEvent.tells, InputModes.default]
  | _ => simp [InputModes.apply, StreamEvent.tells, h]

theorem foldl_apply_enabled (events : List StreamEvent) (h : m.enabled.Nodup) :
    mode ∈ (events.foldl InputModes.apply m).enabled ↔ modeAfter mode (mode ∈ m.enabled) events = true := by
  induction events generalizing m with
  | nil => simp [modeAfter]
  | cons event events ih =>
    obtain ⟨hnodup, hon⟩ := apply_enabled hmode event h
    have hdecide : decide (mode ∈ (m.apply event).enabled) = (event.tells mode).getD (mode ∈ m.enabled) := by
      rw [Bool.eq_iff_iff, decide_eq_true_eq, hon]
    rw [foldl_cons, ih hnodup, hdecide, modeAfter, modeAfter, foldl_cons]

end

/-- Either the events say nothing about the mode, or it does not matter how it was before. -/
theorem modeAfter_cases (mode : Nat) (events : List StreamEvent) :
    (∀ on, modeAfter mode on events = on) ∨ ∃ last, ∀ on, modeAfter mode on events = last := by
  induction events with
  | nil => exact .inl fun _ => rfl
  | cons event events ih =>
    simp only [modeAfter, foldl_cons] at ih ⊢
    cases event.tells mode with
    | none => exact ih
    | some value => exact .inr ⟨modeAfter mode value events, fun _ => rfl⟩

theorem modeAfter_append (on : Bool) (events more : List StreamEvent) :
    modeAfter mode on (events ++ more) = modeAfter mode (modeAfter mode on events) more := foldl_append

theorem modeAfter_prologue (modes : List Nat) (on : Bool) :
    modeAfter mode on (modes.map (.privateMode [·] true)) = (on || decide (mode ∈ modes)) := by
  induction modes generalizing on with
  | nil => simp [modeAfter]
  | cons other modes ih =>
    rw [map_cons, modeAfter, foldl_cons, ← modeAfter, ih]
    by_cases h : mode = other <;> simp [StreamEvent.tells, h]

end

/-! ## The whole of it -/

namespace TerminalCapture

open EscapeParser

def replay (c : TerminalCapture) : List UInt8 := c.modePrologue ++ c.buffer

/-- No sequence is longer than the chase follows: the parser is not inside of one from `i` to `k` if they are that far apart. -/
def ShortSequences (bytes : List UInt8) : Prop :=
  ∀ i k, k ≤ bytes.length → (∀ j, i ≤ j → j ≤ k → (parsed (bytes.take j)).atSequenceBoundary = false) →
    k - i < maxSequenceChaseBytes

variable (c : TerminalCapture) (data : List UInt8)

theorem sniffModes_eq :
    (c.sniffModes data).modes = (c.sniffer.events data).foldl InputModes.apply c.modes ∧
      (c.sniffModes data).sniffer = data.foldl (fun p byte => (p.feed byte).2) c.sniffer := by
  unfold sniffModes
  induction data generalizing c with
  | nil => exact ⟨rfl, rfl⟩
  | cons byte data ih =>
    rw [foldl_cons]
    refine ⟨(ih _).1.trans ?_, (ih _).2⟩
    rw [events, foldl_append]
    obtain ⟨_ | _, _⟩ := c.sniffer.feed byte <;> rfl

theorem evictToLimit_sniffs : c.evictToLimit.modes = c.modes ∧ c.evictToLimit.sniffer = c.sniffer := by
  unfold evictToLimit
  simp only
  split <;> exact ⟨rfl, rfl⟩

theorem append_sniffs :
    (c.append data).modes = (c.sniffModes data).modes ∧ (c.append data).sniffer = (c.sniffModes data).sniffer := by
  generalize hfed : ({ c.sniffModes data with
    buffer := (c.sniffModes data).buffer ++ data
    endOffset := (c.sniffModes data).endOffset + data.length } : TerminalCapture) = fed
  have happend : c.append data = fed.evictToLimit := by rw [← hfed]; rfl
  rw [happend, (evictToLimit_sniffs fed).1, (evictToLimit_sniffs fed).2, ← hfed]
  exact ⟨rfl, rfl⟩

theorem appendAll_modes (chunks : List (List UInt8)) :
    (appendAll chunks).modes = modesAfter chunks.flatten ∧
      (appendAll chunks).sniffer = parsed chunks.flatten := by
  induction chunks using reverseRecOn with
  | nil => exact ⟨rfl, rfl⟩
  | append_singleton chunks data ih =>
    obtain ⟨hmodes, hsniffer⟩ := sniffModes_eq (appendAll chunks) data
    obtain ⟨hmodes', hsniffer'⟩ := append_sniffs (appendAll chunks) data
    rw [appendAll_snoc, hmodes', hsniffer', hmodes, hsniffer, ih.1, ih.2, flatten_append, flatten_singleton,
      parsed_append, modesAfter, modesAfter, events_append, foldl_append]
    exact ⟨rfl, rfl⟩

theorem not_unbroken {bytes : List UInt8} (h : ShortSequences bytes) (i : Nat) : ¬ Unbroken bytes i := by
  intro ⟨hlength, hinside⟩
  have := h i (i + maxSequenceChaseBytes) hlength fun j hij hj => by
    have := hinside (j - i) (by omega)
    rwa [show i + (j - i) = j by omega] at this
  omega

/-- Whatever was written, and however much of it was evicted: a replay leaves a fresh terminal in the mouse modes the output
    left the first one in. -/
theorem a_replay_restores_the_mouse_modes (chunks : List (List UInt8)) (h : ShortSequences chunks.flatten) :
    ∀ mode ∈ mouseTrackingModes,
      mode ∈ (modesAfter (appendAll chunks).replay).enabled ↔ mode ∈ (modesAfter chunks.flatten).enabled := by
  intro mode hmode
  have hholds := appendAll_holds chunks
  have hground : (parsed (chunks.flatten.take (appendAll chunks).startOffset)).state = .ground := by
    by_contra hinside
    have hboundary : (appendAll chunks).evicted.atSequenceBoundary = false := by
      rw [hholds.evicted]
      exact decide_eq_false hinside
    obtain ⟨-, i, hi⟩ := starts_inside chunks hboundary
    exact not_unbroken h i hi
  have hfresh : ∀ bytes, mode ∈ (modesAfter bytes).enabled ↔
      modeAfter mode false (EscapeParser.new.events bytes) = true := fun _ => foldl_apply_enabled hmode _ nodup_nil
  let named := (appendAll chunks).modes.enabled.filter (· ∈ mouseTrackingModes)
  let kept := (parsed (chunks.flatten.take (appendAll chunks).startOffset)).events (appendAll chunks).buffer
  have hstream : EscapeParser.new.events chunks.flatten =
      EscapeParser.new.events (chunks.flatten.take (appendAll chunks).startOffset) ++ kept := by
    simp only [kept]
    rw [hholds.window.bytes, parsed, ← events_append, take_append_drop]
  have hreplay : EscapeParser.new.events (appendAll chunks).replay = named.map (.privateMode [·] true) ++ kept := by
    have hmouse : ∀ mode ∈ named, mode ∈ mouseTrackingModes := by simp [named]
    obtain ⟨hevents, hstate⟩ := events_prologue (p := .new) hmouse rfl
    show EscapeParser.new.events (named.flatMap switchOn ++ _) = _
    rw [events_append, hevents, (alike_run (alike_ground hstate hground) _).1]
  have hnamed : decide (mode ∈ named) = modeAfter mode false (EscapeParser.new.events chunks.flatten) := by
    rw [Bool.eq_iff_iff, decide_eq_true_eq, ← hfresh]
    simp only [named, mem_filter, hmode, decide_true, and_true, (appendAll_modes chunks).1]
  rw [hfresh, hfresh, hreplay, modeAfter_append, modeAfter_prologue, Bool.false_or, hnamed, hstream, modeAfter_append]
  rcases modeAfter_cases mode kept with h | ⟨last, h⟩ <;> rw [h, h]

/-- The sequence that switched the mouse on was evicted, and the replay switches it on. -/
theorem a_replay_of_an_evicted_switch :
    let chunks : List (List UInt8) := [switchOn 1000, replicate captureLimitBytes 0x61]
    8 ≤ (appendAll chunks).startOffset ∧ 1000 ∈ (modesAfter chunks.flatten).enabled ∧
      1000 ∈ (modesAfter (appendAll chunks).replay).enabled := by
  intro chunks
  have hbytes : chunks.flatten = switchOn 1000 ++ replicate captureLimitBytes 0x61 := by simp [chunks]
  have hplain (n : Nat) : (parsed (switchOn 1000)).events (replicate n 0x61) = [] ∧
      parsed (switchOn 1000 ++ replicate n 0x61) = parsed (switchOn 1000) := by
    induction n with
    | zero => exact ⟨rfl, rfl⟩
    | succ n ih => exact ih
  have hswitch : (switchOn 1000).length = 8 := rfl
  have hevicted : 8 ≤ (appendAll chunks).startOffset := by
    have hholds := appendAll_holds chunks
    have hlength := hholds.within
    rw [hholds.window.bytes, hbytes, length_drop, length_append, length_replicate] at hlength
    omega
  have hon : 1000 ∈ (modesAfter chunks.flatten).enabled := by
    have hevents : EscapeParser.new.events chunks.flatten = EscapeParser.new.events (switchOn 1000) := by
      rw [hbytes, events_append]
      exact (congrArg _ (hplain _).1).trans (append_nil _)
    rw [modesAfter, hevents]
    decide
  refine ⟨hevicted, hon, (a_replay_restores_the_mouse_modes chunks (fun i k hk hinside => ?_) 1000 (by decide)).mpr hon⟩
  have hlimit : maxSequenceChaseBytes = 1024 := rfl
  by_cases hlate : 8 ≤ k ∧ i ≤ k
  · have htake : chunks.flatten.take k = switchOn 1000 ++ replicate (k - 8) 0x61 := by
      rw [hbytes, length_append, length_replicate] at hk
      rw [hbytes, take_append, take_of_length_le (by omega), take_replicate, hswitch, Nat.min_eq_left (by omega)]
    have hend := hinside k hlate.2 (Nat.le_refl k)
    rw [htake, (hplain _).2] at hend
    cases hend
  · omega

end TerminalCapture

end TddyCoder.Terminal
