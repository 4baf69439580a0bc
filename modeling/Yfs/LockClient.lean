/-
The caching lock client (`lock_client_cache.cc`), one critical section at a time.

Every function below is what one thread does to the entry of a lock between taking
and leaving the mutex, with what it does next: return, wait on a condition variable,
or make a call. A loop around `pthread_cond_wait` is the body that tests the
condition, run once when the thread comes to it and again each time it wakes up.

A condition variable is the set of threads that it has woken since they began to
wait. `pthread_cond_signal` may wake more than one thread, so it is modelled as the
broadcast; at most one thread ever waits where the source signals. The flush in
`dorelease` runs between a critical section and the call of the server and does not
touch the entry.
-/
import Yfs.LockServer
import Mathlib.Data.Finset.Card

set_option autoImplicit false

namespace Yfs.LockClient

open Text

/-! ## The entry of a lock -/

/-- A thread of the application, or the thread that runs a handler for the call that
began in thread `t` of client `c`. -/
inductive pthread where
  | user (t : ℕ)
  | handler (c : Str) (t : ℕ)
  deriving DecidableEq, Repr

inductive lockState where
  | NONE | FREE | LOCKED | ACQUIRING | RELEASING
  deriving DecidableEq, Repr

/-- The threads that have been woken since they began to wait. -/
abbrev cond := ℕ → Bool

/-- Thread `t` begins to wait. -/
def cond.wait (v : cond) (t : ℕ) : cond := Function.update v t false

/-- `pthread_cond_broadcast`, and `pthread_cond_signal`. -/
def cond.broadcast (_ : cond) : cond := fun _ => true

structure lockInfo where
  threadId : pthread
  retryCondVar : cond
  acquireCondVar : cond
  lockCondVar : cond
  waitingToRetry : Bool
  waitingToAcq : Bool
  toRetry : Bool
  toRevoke : Bool
  state : lockState
  /-- The keys of the map. -/
  waitList : Finset ℕ

/-- `lockList[lid]` of a missing key. -/
def lockInfo.zero : lockInfo :=
  ⟨.user 0, fun _ => false, fun _ => false, fun _ => false, false, false, false, false, .NONE, ∅⟩

def createLock (threadId : pthread) : lockInfo :=
  { lockInfo.zero with threadId := threadId, state := .ACQUIRING }

def updateLockState (l : lockInfo) (threadId : pthread) (state : lockState) : lockInfo :=
  { l with threadId := threadId, state := state }

/-! ## `acquire` -/

/-- What a thread in `acquire` does next. -/
inductive Next where
  /-- It returns: it has the lock. -/
  | locked
  /-- It waits for the state `FREE`. -/
  | waitFree
  /-- It waits for the state `NONE`, to acquire the lock from the server. -/
  | waitNone
  /-- `acquireAndMaybeRetry`. -/
  | call
  deriving DecidableEq, Repr

/-- The loop of a thread in `waitList`, and what follows it. -/
def lock_loop (l : lockInfo) (t : ℕ) : lockInfo × Next :=
  if l.state ≠ .FREE then ({ l with lockCondVar := l.lockCondVar.wait t }, .waitFree)
  else
    let l := updateLockState l (.user t) .LOCKED
    ({ l with waitList := l.waitList.erase t }, .locked)

/-- The thread puts itself into `waitList` and comes to the loop. -/
def enlist (l : lockInfo) (t : ℕ) : lockInfo × Next :=
  lock_loop { l with waitList := insert t l.waitList } t

/-- The loop of the thread that waits for a release to end, and what follows it. -/
def none_loop (l : lockInfo) (t : ℕ) : lockInfo × Next :=
  if l.state ≠ .NONE then ({ l with acquireCondVar := l.acquireCondVar.wait t }, .waitNone)
  else (updateLockState { l with waitingToAcq := false } (.user t) .ACQUIRING, .call)

/-- `acquire` up to its first wait, call or return. -/
def acquire (entry : Option lockInfo) (t : ℕ) : lockInfo × Next :=
  match entry with
  | none => (createLock (.user t), .call)
  | some l =>
    match l.state with
    | .NONE =>
      -- a thread that has waited for the release is about to go to the server
      if l.waitingToAcq then enlist l t
      else (updateLockState l (.user t) .ACQUIRING, .call)
    | .FREE => (updateLockState l (.user t) .LOCKED, .locked)
    | .ACQUIRING => enlist l t
    | .LOCKED => enlist l t
    | .RELEASING =>
      if l.waitingToAcq then enlist l t
      else none_loop { l with waitingToAcq := true } t

/-! ## `acquireAndMaybeRetry` -/

/-- The loop of the thread that waits to be told to retry: `true` when it goes on to
the second call. -/
def retry_loop (l : lockInfo) (t : ℕ) : lockInfo × Bool :=
  if l.toRetry then ({ l with toRetry := false, waitingToRetry := false }, true)
  else ({ l with waitingToRetry := true, retryCondVar := l.retryCondVar.wait t }, false)

/-- After the first call has returned `RETRY`. -/
def maybeRetry (l : lockInfo) (t : ℕ) : lockInfo × Bool :=
  -- the retry may have come before the answer it belongs to
  if l.toRetry then ({ l with toRetry := false }, true) else retry_loop l t

/-- After a call has returned `OK`. -/
def locked (l : lockInfo) (t : ℕ) : lockInfo := updateLockState l (.user t) .LOCKED

/-! ## `release` and the handlers -/

/-- `release` up to its call or return: `true` when it goes on to call the server. -/
def release (l : lockInfo) (t : ℕ) : lockInfo × Bool :=
  let l := updateLockState l (.user t) .FREE
  if l.waitList.card = 0 then
    if l.toRevoke then ({ updateLockState l (.user t) .RELEASING with toRevoke := false }, true)
    else (l, false)
  -- a thread of this client waits: the lock stays here, revoked or not
  else ({ l with lockCondVar := l.lockCondVar.broadcast }, false)

/-- After the server has answered a release. -/
def released (l : lockInfo) (self : pthread) : lockInfo :=
  let l := updateLockState l self .NONE
  if l.waitingToAcq then { l with acquireCondVar := l.acquireCondVar.broadcast } else l

/-- `revoke_handler` up to its call or return: `true` when it goes on to call the
server. -/
def revoke_handler (l : lockInfo) (self : pthread) : lockInfo × Bool :=
  let l := { l with toRevoke := true }
  -- otherwise the thread that releases last finds `toRevoke` set
  if l.state = .FREE ∧ l.waitList.card = 0 then
    ({ updateLockState l self .RELEASING with toRevoke := false }, true)
  else (l, false)

def retry_handler (l : lockInfo) : lockInfo :=
  let l := { l with toRetry := true }
  if l.waitingToRetry then { l with retryCondVar := l.retryCondVar.broadcast } else l

end Yfs.LockClient
