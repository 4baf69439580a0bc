/-
The lock service as a system: one server, any number of clients, any number of
threads in each.

The maps of the server and of the clients are keyed by the lock, and every critical
section touches one entry, so the state is kept lock by lock. A thread that calls
the service is at some place in a chain of calls: its own function, the handler on the
server, the handler on the client that the server calls, and so on down. The types
`Release`, `Revoke`, `Acquire` and `Pc` are these places, each with the place in the
call it is waiting for. A request that is under way is a handler that has not begun
(`sent`), and a reply that is under way is one that has finished (`replied`); a step
of a thread is the next critical section of its chain, so between any two of them
anything else may happen. Every call is handled exactly once and none fails.
-/
import Yfs.LockClient
import Yfs.Steps

set_option autoImplicit false

namespace Yfs.LockSystem

open Text
open Yfs.LockServer (status)

/-! ## Places in a chain of calls -/

/-- A call of `lock_server_cache::release`. -/
inductive Release where
  | sent
  /-- The mutex is unlocked; the front of the list is about to be read. -/
  | front
  /-- `retry` was sent to this client. -/
  | retry (dst : Str)
  | replied
  deriving DecidableEq, Repr

/-- A call of `lock_client_cache::revoke_handler`. -/
inductive Revoke where
  | sent
  | release (h : Release)
  deriving DecidableEq, Repr

/-- A call of `lock_server_cache::acquire`. -/
inductive Acquire where
  | sent
  /-- The mutex is unlocked; the holder is about to be read. -/
  | holder
  /-- `revoke` was sent to `dst`; `ret` will be returned after it. -/
  | revoke (ret : status) (dst : Str) (h : Revoke)
  | replied (ret : status)
  deriving DecidableEq, Repr

/-- A thread inside `lock_client_cache::acquire` or `release`. -/
inductive Pc where
  | waitFree
  | waitNone
  /-- The first call of `acquireAndMaybeRetry`. -/
  | acquire1 (h : Acquire)
  | waitRetry
  /-- The second call. -/
  | acquire2 (h : Acquire)
  | release (h : Release)
  deriving DecidableEq, Repr

/-! ## One lock -/

/-- A thread, with its client. -/
abbrev Tid := Str × ℕ

structure Lock where
  server : Option LockServer.lockInfo
  client : Str → Option LockClient.lockInfo
  /-- The threads inside the service for this lock. -/
  thread : Tid → Option Pc
  /-- The threads whose `acquire` has returned and whose `release` has not begun. -/
  held : Tid → Bool

/-- Nobody has asked for the lock. -/
def Lock.new : Lock := ⟨none, fun _ => none, fun _ => none, fun _ => false⟩

/-- `lockList[lid]` on client `c`. -/
def Lock.entry (l : Lock) (c : Str) : LockClient.lockInfo := (l.client c).getD .zero

def Lock.setServer (l : Lock) (e : LockServer.lockInfo) : Lock := { l with server := some e }

def Lock.setClient (l : Lock) (c : Str) (e : LockClient.lockInfo) : Lock :=
  { l with client := Function.update l.client c (some e) }

def Lock.setThread (l : Lock) (x : Tid) (p : Option Pc) : Lock :=
  { l with thread := Function.update l.thread x p }

def Lock.setHeld (l : Lock) (x : Tid) (b : Bool) : Lock :=
  { l with held := Function.update l.held x b }

/-! ## The critical sections of the handlers -/

/-- `front()` of an empty list is undefined, and no step here. -/
def releaseStep (l : Lock) : Release → Option (Lock × Release)
  | .sent =>
    let r := LockServer.release l.server
    some (l.setServer r.1, if r.2 then .front else .replied)
  | .front => (LockServer.waiting l.server).head?.map fun dst => (l, .retry dst)
  | .retry dst => some (l.setClient dst (LockClient.retry_handler (l.entry dst)), .replied)
  | .replied => none

/-- `none` as the second component: the handler has returned. -/
def revokeStep (l : Lock) (x : Tid) (c : Str) : Revoke → Option (Lock × Option Revoke)
  | .sent =>
    let r := LockClient.revoke_handler (l.entry c) (.handler x.1 x.2)
    some (l.setClient c r.1, if r.2 then some (.release .sent) else none)
  | .release .replied =>
    some (l.setClient c (LockClient.released (l.entry c) (.handler x.1 x.2)), none)
  | .release h => (releaseStep l h).map fun r => (r.1, some (.release r.2))

def acquireStep (l : Lock) (x : Tid) : Acquire → Option (Lock × Acquire)
  | .sent =>
    let r := LockServer.acquire l.server x.1
    some (l.setServer r.1,
      match r.2 with
      | .reply ret => .replied ret
      | .revokeHolder => .holder
      | .revokeCaller => .revoke .OK x.1 .sent)
  -- read without the mutex: the entry may have changed since
  | .holder => l.server.map fun e => (l, .revoke .RETRY e.clientId .sent)
  | .revoke ret c h => (revokeStep l x c h).map fun r =>
    (r.1, match r.2 with
      | some h => .revoke ret c h
      | none => .replied ret)
  | .replied _ => none

/-! ## The critical sections of a thread -/

/-- `acquire` returns. -/
def Lock.acquired (l : Lock) (x : Tid) : Lock := (l.setThread x none).setHeld x true

/-- Go on in `acquire`. -/
def Lock.goOn (l : Lock) (x : Tid) (r : LockClient.lockInfo × LockClient.Next) : Lock :=
  let l := l.setClient x.1 r.1
  match r.2 with
  | .locked => l.acquired x
  | .waitFree => l.setThread x (some .waitFree)
  | .waitNone => l.setThread x (some .waitNone)
  | .call => l.setThread x (some (.acquire1 .sent))

/-- Go on in `acquireAndMaybeRetry`. -/
def Lock.goOnRetry (l : Lock) (x : Tid) (r : LockClient.lockInfo × Bool) : Lock :=
  (l.setClient x.1 r.1).setThread x (some (if r.2 then .acquire2 .sent else .waitRetry))

/-- `acquire(lid)` is called. -/
def Lock.acquire (l : Lock) (x : Tid) : Lock :=
  l.goOn x (LockClient.acquire (l.client x.1) x.2)

/-- `release(lid)` is called. -/
def Lock.release (l : Lock) (x : Tid) : Lock :=
  let r := LockClient.release (l.entry x.1) x.2
  ((l.setClient x.1 r.1).setThread x (if r.2 then some (.release .sent) else none)).setHeld x false

/-- The next critical section of thread `x`. -/
def Lock.threadStep (l : Lock) (x : Tid) : Pc → Option Lock
  | .waitFree =>
    if (l.entry x.1).lockCondVar x.2 then some (l.goOn x (LockClient.lock_loop (l.entry x.1) x.2))
    else none
  | .waitNone =>
    if (l.entry x.1).acquireCondVar x.2 then
      some (l.goOn x (LockClient.none_loop (l.entry x.1) x.2))
    else none
  | .waitRetry =>
    if (l.entry x.1).retryCondVar x.2 then
      some (l.goOnRetry x (LockClient.retry_loop (l.entry x.1) x.2))
    else none
  | .acquire1 (.replied .RETRY) =>
    some (l.goOnRetry x (LockClient.maybeRetry (l.entry x.1) x.2))
  | .acquire1 (.replied .OK) =>
    some ((l.setClient x.1 (LockClient.locked (l.entry x.1) x.2)).acquired x)
  -- a failure is printed, and `acquire` returns `OK` all the same
  | .acquire1 (.replied .RPCERR) => some (l.acquired x)
  | .acquire1 h => (acquireStep l x h).map fun r => r.1.setThread x (some (.acquire1 r.2))
  | .acquire2 (.replied .OK) =>
    some ((l.setClient x.1 (LockClient.locked (l.entry x.1) x.2)).acquired x)
  -- the answer of the second call is looked at only for `OK`
  | .acquire2 (.replied .RETRY) => some (l.acquired x)
  | .acquire2 (.replied .RPCERR) => some (l.acquired x)
  | .acquire2 h => (acquireStep l x h).map fun r => r.1.setThread x (some (.acquire2 r.2))
  | .release .replied =>
    some ((l.setClient x.1 (LockClient.released (l.entry x.1) (.user x.2))).setThread x none)
  | .release h => (releaseStep l h).map fun r => r.1.setThread x (some (.release r.2))

/-- A wait ends without a signal. -/
def Lock.spurious (l : Lock) (x : Tid) : Pc → Option Lock
  | .waitFree => some (l.setClient x.1 { l.entry x.1 with
      lockCondVar := Function.update (l.entry x.1).lockCondVar x.2 true })
  | .waitNone => some (l.setClient x.1 { l.entry x.1 with
      acquireCondVar := Function.update (l.entry x.1).acquireCondVar x.2 true })
  | .waitRetry => some (l.setClient x.1 { l.entry x.1 with
      retryCondVar := Function.update (l.entry x.1).retryCondVar x.2 true })
  | _ => none

/-! ## All locks -/

structure System where
  locks : ℕ → Lock
  /-- The lock for which a thread is inside the service. -/
  busy : Tid → Option ℕ

def start : System := ⟨fun _ => .new, fun _ => none⟩

inductive Act where
  | acquire (x : Tid) (lid : ℕ)
  | release (x : Tid) (lid : ℕ)
  /-- The next critical section of the chain of calls of this thread. -/
  | step (x : Tid)
  | spurious (x : Tid)
  deriving DecidableEq, Repr

/-- Thread `x` has done something for lock `lid`. -/
def System.set (s : System) (x : Tid) (lid : ℕ) (l : Lock) : System :=
  ⟨Function.update s.locks lid l,
    Function.update s.busy x (if (l.thread x).isSome then some lid else none)⟩

/-- One step; a thread calls `release` only while it holds the lock. -/
def step (s : System) : Act → Option System
  | .acquire x lid =>
    if s.busy x = none then some (s.set x lid ((s.locks lid).acquire x)) else none
  | .release x lid =>
    if s.busy x = none ∧ (s.locks lid).held x = true then
      some (s.set x lid ((s.locks lid).release x))
    else none
  | .step x => (s.busy x).bind fun lid => ((s.locks lid).thread x).bind fun p =>
    ((s.locks lid).threadStep x p).map fun l => s.set x lid l
  | .spurious x => (s.busy x).bind fun lid => ((s.locks lid).thread x).bind fun p =>
    ((s.locks lid).spurious x p).map fun l => s.set x lid l

end Yfs.LockSystem
