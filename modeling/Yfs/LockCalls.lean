/-
The lock service when calls may fail.

Here every call is a record of its own: its handler runs one critical section at a
time, whether or not anybody waits for the answer any more. Any call may fail for its
caller, at any time: before its handler has begun, in the middle, or when it has finished.
What is left of the handler may run later, or never. That covers a `safebind` that fails
(the handler never runs), a time-out, and an answer that is lost.

A caller that waits goes on with the answer or with the failure. What a thread does on a
failed `acquire` is what it does on the answer `RPCERR`, and for the second call also on
`RETRY`: it prints a line and returns `OK`.

The state is that of one lock. The critical sections are those of `LockClient` and
`LockServer`, and a step for one lock does not touch another.
-/
import Yfs.LockSystem

set_option autoImplicit false

namespace Yfs.LockCalls

open Text
open Yfs.LockSystem (Tid)
open Yfs.LockServer (status)

/-! ## Calls -/

/-- The name of a call. -/
abbrev CallId := Str × ℕ

/-- Where the handler of an `acquire` stands. -/
inductive AcquirePc where
  | sent
  /-- The mutex is unlocked; the holder is about to be read. -/
  | holder
  /-- It waits for the call `n` of `revoke`, to return `ret`. -/
  | revoking (ret : status) (n : CallId)
  | replied (ret : status)
  deriving DecidableEq, Repr

inductive ReleasePc where
  | sent
  /-- The mutex is unlocked; the front of the list is about to be read. -/
  | front
  /-- It waits for the call `n` of `retry`. -/
  | retrying (n : CallId)
  | replied
  deriving DecidableEq, Repr

inductive RevokePc where
  | sent
  /-- It waits for the call `n` of `release`. -/
  | releasing (n : CallId)
  | returned
  deriving DecidableEq, Repr

inductive RetryPc where
  | sent
  | returned
  deriving DecidableEq, Repr

/-- Who has called `release`: a thread, or the handler of a `revoke`. -/
inductive Caller where
  | thread (x : Tid)
  | handler (k : CallId)
  deriving DecidableEq, Repr

inductive Call where
  /-- `lock_server_cache::acquire`, for a thread. -/
  | acquire (x : Tid) (pc : AcquirePc)
  /-- `lock_server_cache::release`, for client `c`; `waited` says that its caller still waits. -/
  | release (c : Str) (caller : Caller) (waited : Bool) (pc : ReleasePc)
  /-- `lock_client_cache::revoke_handler` on client `c`. -/
  | revoke (c : Str) (pc : RevokePc)
  /-- `lock_client_cache::retry_handler` on client `c`. -/
  | retry (c : Str) (pc : RetryPc)
  deriving DecidableEq, Repr

/-- A thread inside `lock_client_cache::acquire` or `release`. -/
inductive Pc where
  | waitFree
  | waitNone
  /-- The first call of `acquireAndMaybeRetry`. -/
  | acquire1 (k : CallId)
  | waitRetry
  /-- The second call. -/
  | acquire2 (k : CallId)
  | release (k : CallId)
  deriving DecidableEq, Repr

/-! ## The lock -/

structure Lock where
  server : Option LockServer.lockInfo
  client : Str → Option LockClient.lockInfo
  thread : Tid → Option Pc
  /-- The threads whose `acquire` has returned `OK` and whose `release` has not begun. -/
  held : Tid → Bool
  call : CallId → Option Call
  /-- A call of `acquire` has failed: a thread has seen it fail, or was answered with `RPCERR`
  or with a second `RETRY`. -/
  failed : Bool

namespace Lock

def new : Lock := ⟨none, fun _ => none, fun _ => none, fun _ => false, fun _ => none, false⟩

/-- `lockList[lid]` on client `c`. -/
def entry (l : Lock) (c : Str) : LockClient.lockInfo := (l.client c).getD .zero

def setServer (l : Lock) (e : LockServer.lockInfo) : Lock := { l with server := some e }

def setClient (l : Lock) (c : Str) (e : LockClient.lockInfo) : Lock :=
  { l with client := Function.update l.client c (some e) }

def setThread (l : Lock) (x : Tid) (p : Option Pc) : Lock :=
  { l with thread := Function.update l.thread x p }

def setHeld (l : Lock) (x : Tid) (b : Bool) : Lock :=
  { l with held := Function.update l.held x b }

def setCall (l : Lock) (k : CallId) (call : Call) : Lock :=
  { l with call := Function.update l.call k (some call) }

/-- The answer of a `revoke` or a `retry` is there. -/
def returned (l : Lock) (k : CallId) : Bool :=
  match l.call k with
  | some (.revoke _ .returned) => true
  | some (.retry _ .returned) => true
  | _ => false

/-- The answer of a `release` is there. -/
def replied (l : Lock) (k : CallId) : Bool :=
  match l.call k with
  | some (.release _ _ _ .replied) => true
  | _ => false

/-- Nobody waits for this `release` any more. -/
def unwait (l : Lock) (k : CallId) : Lock :=
  match l.call k with
  | some (.release c caller _ pc) => l.setCall k (.release c caller false pc)
  | _ => l

/-! ## The handlers -/

/-- The next critical section of the handler of call `k`; `n` is the name of the call that
it makes, if it makes one. -/
def callStep (l : Lock) (k n : CallId) : Call → Option Lock
  | .acquire x .sent =>
    let r := LockServer.acquire l.server x.1
    let l := l.setServer r.1
    match r.2 with
    | .reply ret => some (l.setCall k (.acquire x (.replied ret)))
    | .revokeHolder => some (l.setCall k (.acquire x .holder))
    | .revokeCaller =>
      some ((l.setCall k (.acquire x (.revoking .OK n))).setCall n (.revoke x.1 .sent))
  -- read without the mutex; there is no client to bind to when the lock was released
  | .acquire x .holder => l.server.map fun e =>
    if e.clientId = [] then l.setCall k (.acquire x (.replied .RPCERR))
    else (l.setCall k (.acquire x (.revoking .RETRY n))).setCall n (.revoke e.clientId .sent)
  | .acquire x (.revoking ret m) =>
    if l.returned m then some (l.setCall k (.acquire x (.replied ret))) else none
  | .acquire _ (.replied _) => none
  | .release c caller waited .sent =>
    let r := LockServer.release l.server
    some ((l.setServer r.1).setCall k
      (.release c caller waited (if r.2 then .front else .replied)))
  | .release c caller waited .front => (LockServer.waiting l.server).head?.map fun dst =>
    (l.setCall k (.release c caller waited (.retrying n))).setCall n (.retry dst .sent)
  | .release c caller waited (.retrying m) =>
    if l.returned m then some (l.setCall k (.release c caller waited .replied)) else none
  | .release _ _ _ .replied => none
  | .revoke c .sent =>
    let r := LockClient.revoke_handler (l.entry c) (.handler k.1 k.2)
    let l := l.setClient c r.1
    if r.2 then
      some ((l.setCall k (.revoke c (.releasing n))).setCall n (.release c (.handler k) true .sent))
    else some (l.setCall k (.revoke c .returned))
  | .revoke c (.releasing m) =>
    if l.replied m then
      some (((l.setClient c (LockClient.released (l.entry c) (.handler k.1 k.2))).setCall k
        (.revoke c .returned)).unwait m)
    else none
  | .revoke _ .returned => none
  | .retry c .sent =>
    some ((l.setClient c (LockClient.retry_handler (l.entry c))).setCall k (.retry c .returned))
  | .retry _ .returned => none

/-- The call that the handler of call `k` waits for fails. Only a `revoke` for a client that
has to wait is a failure of the handler; after a `release` the client keeps its state. -/
def callFails (l : Lock) (k : CallId) : Call → Option Lock
  | .acquire x (.revoking ret _) =>
    some (l.setCall k (.acquire x (.replied (if ret = .RETRY then .RPCERR else ret))))
  | .release c caller waited (.retrying _) => some (l.setCall k (.release c caller waited .replied))
  | .revoke c (.releasing m) => some ((l.setCall k (.revoke c .returned)).unwait m)
  | _ => none

/-! ## The threads -/

/-- `acquire` returns `OK`. -/
def acquired (l : Lock) (x : Tid) : Lock := (l.setThread x none).setHeld x true

/-- A failure is printed, and `acquire` returns `OK`. -/
def fails (l : Lock) (x : Tid) : Lock := { l.acquired x with failed := true }

/-- A thread calls `acquire` on the server, from the place `p`. -/
def ask (l : Lock) (x : Tid) (n : CallId) (p : CallId → Pc) : Lock :=
  (l.setThread x (some (p n))).setCall n (.acquire x .sent)

/-- Go on in `acquire`. -/
def goOn (l : Lock) (x : Tid) (n : CallId) (r : LockClient.lockInfo × LockClient.Next) : Lock :=
  let l := l.setClient x.1 r.1
  match r.2 with
  | .locked => l.acquired x
  | .waitFree => l.setThread x (some .waitFree)
  | .waitNone => l.setThread x (some .waitNone)
  | .call => l.ask x n .acquire1

/-- Go on in `acquireAndMaybeRetry`. -/
def goOnRetry (l : Lock) (x : Tid) (n : CallId) (r : LockClient.lockInfo × Bool) : Lock :=
  let l := l.setClient x.1 r.1
  if r.2 then l.ask x n .acquire2 else l.setThread x (some .waitRetry)

/-- `release(lid)` is called. -/
def release (l : Lock) (x : Tid) (n : CallId) : Lock :=
  let r := LockClient.release (l.entry x.1) x.2
  let l := (l.setClient x.1 r.1).setHeld x false
  if r.2 then
    (l.setThread x (some (.release n))).setCall n (.release x.1 (.thread x) true .sent)
  else l

/-- The answer of an `acquire`. -/
def answer (l : Lock) (k : CallId) : Option status :=
  match l.call k with
  | some (.acquire _ (.replied ret)) => some ret
  | _ => none

/-- The next critical section of thread `x`; `n` is the name of the call that it makes. -/
def threadStep (l : Lock) (x : Tid) (n : CallId) : Pc → Option Lock
  | .waitFree =>
    if (l.entry x.1).lockCondVar x.2 then
      some (l.goOn x n (LockClient.lock_loop (l.entry x.1) x.2))
    else none
  | .waitNone =>
    if (l.entry x.1).acquireCondVar x.2 then
      some (l.goOn x n (LockClient.none_loop (l.entry x.1) x.2))
    else none
  | .waitRetry =>
    if (l.entry x.1).retryCondVar x.2 then
      some (l.goOnRetry x n (LockClient.retry_loop (l.entry x.1) x.2))
    else none
  | .acquire1 k => (l.answer k).map fun
    | .RETRY => l.goOnRetry x n (LockClient.maybeRetry (l.entry x.1) x.2)
    | .OK => (l.setClient x.1 (LockClient.locked (l.entry x.1) x.2)).acquired x
    | .RPCERR => l.fails x
  | .acquire2 k => (l.answer k).map fun
    | .OK => (l.setClient x.1 (LockClient.locked (l.entry x.1) x.2)).acquired x
    | .RETRY => l.fails x
    | .RPCERR => l.fails x
  | .release k =>
    if l.replied k then
      some (((l.setClient x.1 (LockClient.released (l.entry x.1) (.user x.2))).setThread x
        none).unwait k)
    else none

/-- The call that thread `x` waits for fails. A failed `release` leaves the state as it is. -/
def threadFails (l : Lock) (x : Tid) : Pc → Option Lock
  | .acquire1 _ => some (l.fails x)
  | .acquire2 _ => some (l.fails x)
  | .release k => some ((l.setThread x none).unwait k)
  | _ => none

/-- A wait ends without a signal. -/
def spurious (l : Lock) (x : Tid) : Pc → Option Lock
  | .waitFree => some (l.setClient x.1 { l.entry x.1 with
      lockCondVar := Function.update (l.entry x.1).lockCondVar x.2 true })
  | .waitNone => some (l.setClient x.1 { l.entry x.1 with
      acquireCondVar := Function.update (l.entry x.1).acquireCondVar x.2 true })
  | .waitRetry => some (l.setClient x.1 { l.entry x.1 with
      retryCondVar := Function.update (l.entry x.1).retryCondVar x.2 true })
  | _ => none

end Lock

/-! ## Runs -/

/-- `n` is always a name that no call has had. -/
inductive Act where
  | acquire (x : Tid) (n : CallId)
  | release (x : Tid) (n : CallId)
  | thread (x : Tid) (n : CallId)
  | spurious (x : Tid)
  | call (k n : CallId)
  | threadFails (x : Tid)
  | callFails (k : CallId)
  deriving DecidableEq, Repr

/-- One step; a thread calls `release` only between an `acquire` and a `release`. -/
def step (l : Lock) : Act → Option Lock
  | .acquire x n =>
    if l.thread x = none ∧ l.call n = none then
      some (l.goOn x n (LockClient.acquire (l.client x.1) x.2))
    else none
  | .release x n =>
    if l.thread x = none ∧ l.held x = true ∧ l.call n = none then some (l.release x n) else none
  | .thread x n =>
    if l.call n = none then (l.thread x).bind (l.threadStep x n) else none
  | .spurious x => (l.thread x).bind (l.spurious x)
  | .call k n => if l.call n = none then (l.call k).bind (l.callStep k n) else none
  | .threadFails x => (l.thread x).bind (l.threadFails x)
  | .callFails k => (l.call k).bind (l.callFails k)

end Yfs.LockCalls
