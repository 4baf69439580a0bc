/-
The threads of a client that are blocked in `acquire`.

The flags and the list of an entry say which threads of the client wait, and for what; a
thread whose condition holds has been woken, so no wakeup is lost. The last field of
`ClientOk` is about revocations: a client keeps a free lock that was revoked only for its
own threads, which have all been woken.
-/
import Yfs.LockExclusion

set_option autoImplicit false

namespace Yfs.LockClients

open Text Yfs.LockSystem Yfs.LockProtocol Yfs.LockExclusion
open Yfs.LockClient (pthread)

/-! ## The threads of one client -/

/-- What a blocked thread waits for. -/
inductive Wait where
  | forFree | forNone | forRetry
  deriving DecidableEq, Repr

/-- The flags and the list of a client say which of its threads wait, `w`; and a thread
whose condition holds has been woken. -/
structure ClientOk (e : LockClient.lockInfo) (w : ℕ → Option Wait) : Prop where
  list : ∀ t, t ∈ e.waitList ↔ w t = some .forFree
  wokenFree : e.state = .FREE → ∀ t, w t = some .forFree → e.lockCondVar t = true
  acq : ∀ t, w t = some .forNone → e.waitingToAcq = true
  acqThread : e.waitingToAcq = true → ∃ t, w t = some .forNone
  one : ∀ t t', w t = some .forNone → w t' = some .forNone → t = t'
  ending : e.waitingToAcq = true → e.state = .RELEASING ∨ e.state = .NONE
  wokenNone : e.state = .NONE → ∀ t, w t = some .forNone → e.acquireCondVar t = true
  /-- Nobody is left in the list when the lock goes back, unless a thread will fetch it. -/
  behind : e.state = .RELEASING ∨ e.state = .NONE → e.waitList ≠ ∅ → e.waitingToAcq = true
  wokenRetry : ∀ t, w t = some .forRetry →
    e.waitingToRetry = true ∧ (e.toRetry = true → e.retryCondVar t = true)
  revoke : e.state = .FREE → e.toRevoke = true → e.waitList ≠ ∅

variable {e : LockClient.lockInfo} {w : ℕ → Option Wait} {t : ℕ}

/-- A thread that does not wait for the end of a release changes its place. -/
theorem ClientOk.acqThread_update (h : ClientOk e w) (hw : w t ≠ some .forNone) (o : Option Wait) :
    e.waitingToAcq = true → ∃ t', Function.update w t o t' = some .forNone := by
  intro hacq
  obtain ⟨t', ht'⟩ := h.acqThread hacq
  exact ⟨t', update_keeps hw ht' o⟩

/-- A thread goes to sleep in the list. If the lock is on its way back, there is a thread that
will fetch it again. -/
theorem ClientOk.enlist (h : ClientOk e w) (hstate : e.state ≠ .FREE) (hw : w t = .none)
    (hacq : e.state = .RELEASING ∨ e.state = .NONE → e.waitingToAcq = true) :
    ClientOk { e with waitList := insert t e.waitList, lockCondVar := e.lockCondVar.wait t }
      (Function.update w t (some .forFree)) := by
  have hthread := h.acqThread_update (t := t) (by rw [hw]; nofun) (some .forFree)
  obtain ⟨hlist, hfree, hacq', -, hone, hending, hnone, -, hretry, hrevoke⟩ := h
  refine ⟨?_, ?_, ?_, hthread, ?_, hending, ?_, fun hst _ => hacq hst, ?_, ?_⟩
  all_goals grind -linarith [Function.update_apply]

/-- A thread in the list is woken in vain. -/
theorem ClientOk.wait_free (h : ClientOk e w) (hstate : e.state ≠ .FREE)
    (hw : w t = some .forFree) :
    ClientOk { e with lockCondVar := e.lockCondVar.wait t }
      (Function.update w t (some .forFree)) := by
  have hthread := h.acqThread_update (t := t) (by rw [hw]; nofun) (some .forFree)
  obtain ⟨hlist, hfree, hacq', -, hone, hending, hnone, hbehind, hretry, hrevoke⟩ := h
  refine ⟨?_, ?_, ?_, hthread, ?_, hending, ?_, hbehind, ?_, ?_⟩
  all_goals grind -linarith [Function.update_apply]

/-- A thread takes the lock its client has; `self` in the list or not. -/
theorem ClientOk.take (h : ClientOk e w) (hstate : e.state = .FREE)
    (hw : w t = some .forFree ∨ w t = .none) (self : pthread) :
    ClientOk { e with threadId := self, state := .LOCKED, waitList := e.waitList.erase t }
      (Function.update w t none) := by
  have hthread := h.acqThread_update (t := t) (by rcases hw with hw | hw <;> rw [hw] <;> nofun) none
  obtain ⟨hlist, hfree, hacq', -, hone, hending, hnone, hbehind, hretry, hrevoke⟩ := h
  refine ⟨?_, ?_, ?_, hthread, ?_, ?_, ?_, ?_, ?_, ?_⟩
  all_goals grind -linarith [Function.update_apply]

/-- A thread begins to wait for a release to end. -/
theorem ClientOk.wait_none (h : ClientOk e w) (hstate : e.state = .RELEASING)
    (hw : w t = some .forNone ∨ w t = .none ∧ e.waitingToAcq = false) :
    ClientOk { e with waitingToAcq := true, acquireCondVar := e.acquireCondVar.wait t }
      (Function.update w t (some .forNone)) := by
  obtain ⟨hlist, hfree, hacq', hthread, hone, hending, hnone, hbehind, hretry, hrevoke⟩ := h
  refine ⟨?_, ?_, ?_, fun _ => ⟨t, Function.update_self ..⟩, ?_, ?_, ?_, ?_, ?_, ?_⟩
  all_goals grind -linarith [Function.update_apply]

/-- A thread goes to the server. -/
theorem ClientOk.ask (h : ClientOk e w) (hstate : e.state = .NONE)
    (hw : w t = some .forNone ∨ w t = .none ∧ e.waitingToAcq = false) (self : pthread) :
    ClientOk { e with waitingToAcq := false, threadId := self, state := .ACQUIRING }
      (Function.update w t none) := by
  obtain ⟨hlist, hfree, hacq', hthread, hone, hending, hnone, hbehind, hretry, hrevoke⟩ := h
  refine ⟨?_, ?_, ?_, nofun, ?_, ?_, ?_, ?_, ?_, ?_⟩
  all_goals grind -linarith [Function.update_apply]

/-- A thread waits to be told to retry. -/
theorem ClientOk.wait_retry (h : ClientOk e w) (hw : w t = some .forRetry ∨ w t = .none)
    (htold : e.toRetry = false) :
    ClientOk { e with waitingToRetry := true, retryCondVar := e.retryCondVar.wait t }
      (Function.update w t (some .forRetry)) := by
  have hthread := h.acqThread_update (t := t) (by rcases hw with hw | hw <;> rw [hw] <;> nofun)
    (some .forRetry)
  obtain ⟨hlist, hfree, hacq', -, hone, hending, hnone, hbehind, hretry, hrevoke⟩ := h
  refine ⟨?_, ?_, ?_, hthread, ?_, hending, ?_, hbehind, ?_, ?_⟩
  all_goals grind -linarith [Function.update_apply]

/-- It was told. -/
theorem ClientOk.again (h : ClientOk e w) (hw : w t = some .forRetry ∨ w t = .none)
    (hothers : ∀ t', w t' = some .forRetry → t' = t) (b : Bool) :
    ClientOk { e with toRetry := false, waitingToRetry := b } (Function.update w t none) := by
  have hthread := h.acqThread_update (t := t) (by rcases hw with hw | hw <;> rw [hw] <;> nofun) none
  obtain ⟨hlist, hfree, hacq', -, hone, hending, hnone, hbehind, hretry, hrevoke⟩ := h
  refine ⟨?_, ?_, ?_, hthread, ?_, hending, ?_, hbehind, ?_, ?_⟩
  all_goals grind -linarith [Function.update_apply]

/-- The lock arrives from the server. -/
theorem ClientOk.locked (h : ClientOk e w) (hstate : e.state = .ACQUIRING) (t : ℕ) :
    ClientOk (LockClient.locked e t) w := by
  obtain ⟨hlist, hfree, hacq', hthread, hone, hending, hnone, hbehind, hretry, hrevoke⟩ := h
  refine ⟨hlist, nofun, hacq', hthread, hone, ?_, nofun, ?_, hretry, nofun⟩
  all_goals grind -linarith [LockClient.locked, LockClient.updateLockState]

theorem ClientOk.release (h : ClientOk e w) (hstate : e.state = .LOCKED) (t : ℕ) :
    ClientOk (LockClient.release e t).1 w := by
  obtain ⟨hlist, hfree, hacq', hthread, hone, hending, hnone, hbehind, hretry, hrevoke⟩ := h
  unfold LockClient.release
  simp only
  split
  · next hempty =>
    split
    · refine ⟨hlist, nofun, hacq', hthread, hone, ?_, nofun, ?_, hretry, nofun⟩
      all_goals grind -linarith [LockClient.updateLockState, Finset.card_eq_zero]
    · refine ⟨hlist, ?_, hacq', hthread, hone, ?_, nofun, ?_, hretry, ?_⟩
      all_goals grind -linarith [LockClient.updateLockState, Finset.card_eq_zero]
  · refine ⟨hlist, fun _ _ _ => rfl, hacq', hthread, hone, ?_, nofun, ?_, hretry, ?_⟩
    all_goals grind -linarith [LockClient.updateLockState, Finset.card_eq_zero]

/-- The end of a release wakes the thread that waits for it. -/
theorem ClientOk.released (h : ClientOk e w) (hstate : e.state = .RELEASING) (self : pthread) :
    ClientOk (LockClient.released e self) w := by
  obtain ⟨hlist, hfree, hacq', hthread, hone, hending, hnone, hbehind, hretry, hrevoke⟩ := h
  unfold LockClient.released
  simp only
  split
  · refine ⟨hlist, nofun, hacq', hthread, hone, fun _ => .inr rfl, ?_, ?_, hretry, nofun⟩
    · exact fun _ _ _ => rfl
    · exact fun _ => hbehind (.inl hstate)
  · next hno =>
    refine ⟨hlist, nofun, hacq', hthread, hone, fun _ => .inr rfl, ?_, ?_, hretry, nofun⟩
    · exact fun _ t ht => absurd (hacq' t ht) hno
    · exact fun _ => hbehind (.inl hstate)

theorem ClientOk.revoke_handler (h : ClientOk e w) (self : pthread) :
    ClientOk (LockClient.revoke_handler e self).1 w := by
  obtain ⟨hlist, hfree, hacq', hthread, hone, hending, hnone, hbehind, hretry, hrevoke⟩ := h
  unfold LockClient.revoke_handler
  simp only
  split
  · next hgive =>
    refine ⟨hlist, nofun, hacq', hthread, hone, fun _ => .inl rfl, nofun, ?_, hretry, nofun⟩
    intro _ hne
    exact absurd (Finset.card_eq_zero.mp hgive.2) hne
  · next hkeep =>
    refine ⟨hlist, hfree, hacq', hthread, hone, hending, hnone, hbehind, hretry, ?_⟩
    intro hst _ hempty
    exact hkeep ⟨hst, by rw [Finset.card_eq_zero]; exact hempty⟩

theorem ClientOk.retry_handler (h : ClientOk e w) : ClientOk (LockClient.retry_handler e) w := by
  obtain ⟨hlist, hfree, hacq', hthread, hone, hending, hnone, hbehind, hretry, hrevoke⟩ := h
  unfold LockClient.retry_handler
  simp only
  split
  · refine ⟨hlist, hfree, hacq', hthread, hone, hending, hnone, hbehind, ?_, hrevoke⟩
    exact fun t ht => ⟨(hretry t ht).1, fun _ => rfl⟩
  · next hno =>
    refine ⟨hlist, hfree, hacq', hthread, hone, hending, hnone, hbehind, ?_, hrevoke⟩
    exact fun t ht => absurd (hretry t ht).1 hno

/-! ## The functions of the client -/

/-- What a thread waits for that goes on in `acquire`. -/
def nextWait : LockClient.Next → Option Wait
  | .waitFree => some .forFree
  | .waitNone => some .forNone
  | .locked | .call => none

/-- A thread that wakes takes the lock and leaves the list, or sleeps on in the list. -/
theorem ClientOk.lock_loop (h : ClientOk e w) (hw : w t = some .forFree) :
    ClientOk (LockClient.lock_loop e t).1
      (Function.update w t (nextWait (LockClient.lock_loop e t).2)) := by
  unfold LockClient.lock_loop
  split
  · next hstate => exact h.wait_free hstate hw
  · next hstate => exact h.take (not_not.mp hstate) (.inl hw) _

theorem ClientOk.none_loop (h : ClientOk e w) (hw : w t = some .forNone) :
    ClientOk (LockClient.none_loop e t).1
      (Function.update w t (nextWait (LockClient.none_loop e t).2)) := by
  have hacq := h.acq t hw
  unfold LockClient.none_loop
  split
  · next hstate =>
    have hwait := h.wait_none ((h.ending hacq).resolve_right hstate) (.inl hw)
    rwa [← hacq] at hwait
  · next hstate => exact h.ask (not_not.mp hstate) (.inl hw) _

/-- A thread that comes while the lock is not free. -/
theorem ClientOk.waitFree (h : ClientOk e w) (hw : w t = none) (hstate : e.state ≠ .FREE)
    (hacq : e.state = .RELEASING ∨ e.state = .NONE → e.waitingToAcq = true) :
    ClientOk (LockClient.enlist e t).1
      (Function.update w t (nextWait (LockClient.enlist e t).2)) := by
  have heq : LockClient.enlist e t = ({ e with
      waitList := insert t e.waitList, lockCondVar := e.lockCondVar.wait t }, .waitFree) :=
    if_pos hstate
  rw [heq]
  exact h.enlist hstate hw hacq

theorem ClientOk.acquire {entry : Option LockClient.lockInfo} (h : ClientOk (entry.getD .zero) w)
    (hw : w t = none) :
    ClientOk (LockClient.acquire entry t).1
      (Function.update w t (nextWait (LockClient.acquire entry t).2)) := by
  unfold LockClient.acquire
  cases entry with
  | none => exact h.ask rfl (.inr ⟨hw, rfl⟩) _
  | some e =>
    rw [Option.getD_some] at h
    simp only
    split
    · next hstate =>
      split
      · next hacq => exact h.waitFree hw (by rw [hstate]; decide) fun _ => hacq
      · next hacq =>
        have hno := Bool.eq_false_of_not_eq_true hacq
        have hask := h.ask hstate (.inr ⟨hw, hno⟩) (.user t)
        rwa [← hno] at hask
    · next hstate =>
      have htake := h.take hstate (.inr hw) (.user t)
      rwa [Finset.erase_eq_of_notMem] at htake
      rw [h.list, hw]
      nofun
    · next hstate =>
      refine h.waitFree hw (by rw [hstate]; decide) ?_
      rw [hstate]
      rintro (hst | hst) <;> cases hst
    · next hstate =>
      refine h.waitFree hw (by rw [hstate]; decide) ?_
      rw [hstate]
      rintro (hst | hst) <;> cases hst
    · next hstate =>
      split
      · next hacq => exact h.waitFree hw (by rw [hstate]; decide) fun _ => hacq
      · next hacq =>
        have hwait := h.wait_none hstate (.inr ⟨hw, Bool.eq_false_of_not_eq_true hacq⟩)
        have heq : LockClient.none_loop { e with waitingToAcq := true } t = ({ e with
            waitingToAcq := true, acquireCondVar := e.acquireCondVar.wait t },
            .waitNone) := if_pos (by rw [hstate]; nofun)
        rw [heq]
        exact hwait

/-- The thread goes on to the second call, or waits. -/
def retryWait (b : Bool) : Option Wait := if b then none else some .forRetry

/-- A thread goes on with a retry that has come. Without one it sleeps, and is the only thread
of its client that waits for one. -/
theorem ClientOk.retry_loop (h : ClientOk e w) (hw : w t = some .forRetry ∨ w t = none)
    (hothers : ∀ t', w t' = some .forRetry → t' = t) :
    ClientOk (LockClient.retry_loop e t).1
      (Function.update w t (retryWait (LockClient.retry_loop e t).2)) := by
  unfold LockClient.retry_loop
  split
  · exact h.again hw hothers false
  · next htold => exact h.wait_retry hw (Bool.eq_false_of_not_eq_true htold)

theorem ClientOk.maybeRetry (h : ClientOk e w) (hw : w t = none)
    (hothers : ∀ t', w t' = some .forRetry → t' = t) :
    ClientOk (LockClient.maybeRetry e t).1
      (Function.update w t (retryWait (LockClient.maybeRetry e t).2)) := by
  unfold LockClient.maybeRetry
  split
  · exact h.again (.inr hw) hothers e.waitingToRetry
  · exact h.retry_loop (.inr hw) hothers

/-! ## All clients -/

def pcWait : Pc → Option Wait
  | .waitFree => some .forFree
  | .waitNone => some .forNone
  | .waitRetry => some .forRetry
  | _ => none

/-- What the threads of a client wait for. -/
def waits (l : Lock) (c : Str) (t : ℕ) : Option Wait := (l.thread (c, t)).bind pcWait

def ClientsOk (l : Lock) : Prop := ∀ c, ClientOk (l.entry c) (waits l c)

variable {l l' : Lock} {x : Tid}

theorem waits_setThread_self (l : Lock) (x : Tid) (p : Option Pc) :
    waits (l.setThread x p) x.1 = Function.update (waits l x.1) x.2 (p.bind pcWait) := by
  funext t
  by_cases ht : t = x.2
  · subst ht
    simp [waits, Lock.setThread]
  · have hne : (x.1, t) ≠ x := fun heq => ht (congrArg Prod.snd heq)
    simp [waits, Lock.setThread, ht, hne]

theorem waits_setThread_of_ne (l : Lock) (p : Option Pc) {c : Str} (hc : c ≠ x.1) :
    waits (l.setThread x p) c = waits l c := by
  funext t
  have hne : (c, t) ≠ x := fun heq => hc (congrArg Prod.fst heq)
  simp [waits, Lock.setThread, hne]

/-- A thread changes the entry of its client and goes on. -/
theorem ClientsOk.set_own (h : ClientsOk l) {p : Option Pc}
    (hok : ClientOk e (Function.update (waits l x.1) x.2 (p.bind pcWait))) :
    ClientsOk ((l.setClient x.1 e).setThread x p) := by
  intro c
  show ClientOk ((l.setClient x.1 e).entry c) _
  rw [entry_setClient]
  by_cases hc : c = x.1
  · subst hc
    rw [Function.update_self, waits_setThread_self]
    exact hok
  · rw [Function.update_of_ne hc, waits_setThread_of_ne _ _ hc]
    exact h c

/-- A handler changes the entry of a client. -/
theorem ClientsOk.set_client (h : ClientsOk l) {c : Str} (hok : ClientOk e (waits l c)) :
    ClientsOk (l.setClient c e) := by
  intro c'
  rw [entry_setClient]
  by_cases hc : c' = c
  · subst hc
    rw [Function.update_self]
    exact hok
  · rw [Function.update_of_ne hc]
    exact h c'

/-- A thread goes on that does not wait here. -/
theorem ClientsOk.set_thread (h : ClientsOk l) {p : Option Pc}
    (hp : p.bind pcWait = (l.thread x).bind pcWait) : ClientsOk (l.setThread x p) := by
  intro c
  by_cases hc : c = x.1
  · subst hc
    rw [waits_setThread_self, hp]
    show ClientOk (l.entry x.1) (Function.update (waits l x.1) x.2 (waits l x.1 x.2))
    rw [Function.update_eq_self]
    exact h x.1
  · rw [waits_setThread_of_ne _ _ hc]
    exact h c

theorem ClientsOk.goOn (h : ClientsOk l) {r : LockClient.lockInfo × LockClient.Next}
    (hok : ClientOk r.1 (Function.update (waits l x.1) x.2 (nextWait r.2))) :
    ClientsOk (l.goOn x r) := by
  obtain ⟨e, next⟩ := r
  cases next with
  | locked => exact h.set_own (p := none) hok
  | waitFree => exact h.set_own (p := some .waitFree) hok
  | waitNone => exact h.set_own (p := some .waitNone) hok
  | call => exact h.set_own (p := some (.acquire1 .sent)) hok

theorem ClientsOk.goOnRetry (h : ClientsOk l) {r : LockClient.lockInfo × Bool}
    (hok : ClientOk r.1 (Function.update (waits l x.1) x.2 (retryWait r.2))) :
    ClientsOk (l.goOnRetry x r) := by
  obtain ⟨e, b⟩ := r
  cases b with
  | true => exact h.set_own (p := some (.acquire2 .sent)) hok
  | false => exact h.set_own (p := some .waitRetry) hok

/-! ## The critical sections -/

theorem clients_releaseStep (h : ClientsOk l) {r r' : Release}
    (hs : releaseStep l r = some (l', r')) : ClientsOk l' := by
  cases r with
  | sent =>
    cases hs
    exact h
  | front =>
    obtain ⟨dst, -, heq⟩ := Option.map_eq_some_iff.mp hs
    cases heq
    exact h
  | retry dst =>
    cases hs
    exact h.set_client (h dst).retry_handler
  | replied => cases hs

/-- The client for which a lock is given back is in the state `RELEASING`. -/
theorem clients_released (hinv : Inv (view l)) (h : ClientsOk l) {g : Giving}
    (hx : (view l).giving x = some g) :
    ClientsOk (l.setClient g.client (LockClient.released (l.entry g.client) g.self)) :=
  h.set_client ((h g.client).released (hinv.roles.releasing x g hx).1 _)

/-- A revoke gives the lock back at once if it is free and nobody is in the list; otherwise it
leaves `toRevoke` set. -/
theorem clients_revokeStep (hinv : Inv (view l)) (h : ClientsOk l) {c : Str} {r : Revoke}
    {o : Option Revoke} (hx : (view l).giving x = revokeGiving x c (some r))
    (hs : revokeStep l x c r = some (l', o)) : ClientsOk l' := by
  cases r with
  | sent =>
    cases hs
    exact h.set_client ((h c).revoke_handler _)
  | release r =>
    by_cases hrep : r = .replied
    · subst hrep
      cases hs
      exact clients_released hinv h hx
    · rw [revokeStep_release hrep] at hs
      obtain ⟨⟨l'', r'⟩, hr, heq⟩ := Option.map_eq_some_iff.mp hs
      cases heq
      exact clients_releaseStep h hr

theorem clients_acquireStep (hinv : Inv (view l)) (h : ClientsOk l) {a a' : Acquire}
    (hx : (view l).giving x = acquireGiving x a) (hs : acquireStep l x a = some (l', a')) :
    ClientsOk l' := by
  cases a with
  | sent =>
    cases hs
    exact h
  | holder =>
    obtain ⟨e, -, heq⟩ := Option.map_eq_some_iff.mp hs
    cases heq
    exact h
  | revoke ret c r =>
    obtain ⟨⟨l'', o⟩, hr, heq⟩ := Option.map_eq_some_iff.mp hs
    cases heq
    have hgiv : acquireGiving x (.revoke ret c r) = revokeGiving x c (some r) := by
      cases r <;> rfl
    exact clients_revokeStep hinv h (hx.trans hgiv) hr
  | replied ret => cases hs

/-- The next step of a first or second call. -/
theorem clients_call (hinv : Inv (view l)) (h : ClientsOk l) {a a' : Acquire} {q : Acquire → Pc}
    (hq : ∀ a, pcWait (q a) = none ∧ pcGiving x (q a) = acquireGiving x a)
    (hx : l.thread x = some (q a)) (hr : acquireStep l x a = some (l', a')) :
    ClientsOk (l'.setThread x (some (q a'))) := by
  have hgiving : (view l).giving x = acquireGiving x a := by
    simp only [view, hx, Option.bind_some, hq]
  refine (clients_acquireStep hinv h hgiving hr).set_thread ?_
  rw [thread_acquireStep hr, hx, Option.bind_some, Option.bind_some, (hq a').1, (hq a).1]

/-- The answer `OK` arrives. -/
theorem clients_locked (hinv : Inv (view l)) (h : ClientsOk l)
    (hstage : (view l).stage x = some .granted) (hwait : waits l x.1 x.2 = none) :
    ClientsOk ((l.setClient x.1 (LockClient.locked (l.entry x.1) x.2)).acquired x) := by
  refine h.set_own (p := none) ?_
  rw [Option.bind_none, update_same hwait]
  exact (h x.1).locked (hinv.roles.acquiring x _ hstage).1 _

theorem stage_of_forRetry {c : Str} (ht : waits l c t = some .forRetry) :
    (view l).stage (c, t) = some .told := by
  obtain ⟨p, hp, hw⟩ := Option.bind_eq_some_iff.mp ht
  show (l.thread (c, t)).bind pcStage = _
  rw [hp]
  cases p <;> first | rfl | cases hw

/-- At most one thread of a client waits to be told to retry. -/
theorem one_retry (hinv : Inv (view l)) (hstage : (view l).stage x = some .told) :
    ∀ t, waits l x.1 t = some .forRetry → t = x.2 :=
  fun _ ht => congrArg Prod.snd (hinv.stage_unique (stage_of_forRetry ht) hstage rfl)

/-- **Every critical section of a thread** keeps the flags and lists right. -/
theorem clients_threadStep (hinv : Inv (view l)) (h : ClientsOk l) {p : Pc}
    (hx : l.thread x = some p) (hs : l.threadStep x p = some l') : ClientsOk l' := by
  have hstage : (view l).stage x = pcStage p := by simp only [view, hx, Option.bind_some]
  have hgiving : (view l).giving x = pcGiving x p := by simp only [view, hx, Option.bind_some]
  have hwait : waits l x.1 x.2 = pcWait p := by simp only [waits, hx, Option.bind_some]
  cases ran_of_threadStep hs with
  | lock_loop => exact h.goOn ((h x.1).lock_loop hwait)
  | none_loop => exact h.goOn ((h x.1).none_loop hwait)
  | retry_loop => exact h.goOnRetry ((h x.1).retry_loop (.inl hwait) (one_retry hinv hstage))
  | maybeRetry => exact h.goOnRetry ((h x.1).maybeRetry hwait (one_retry hinv hstage))
  | locked hp =>
    rcases hp with rfl | rfl
    · exact clients_locked hinv h hstage hwait
    · exact clients_locked hinv h hstage hwait
  | lost hp => exact absurd (hstage.trans (stage_of_lost hp)) (hinv.retries.lost x)
  | call hq hr =>
    rcases hq with rfl | rfl
    · exact clients_call hinv h (fun _ => ⟨rfl, rfl⟩) hx hr
    · exact clients_call hinv h (fun _ => ⟨rfl, rfl⟩) hx hr
  | released =>
    refine (clients_released hinv h hgiving).set_thread ?_
    show none = (l.thread x).bind pcWait
    rw [hx]
    rfl
  | release hr =>
    refine (clients_releaseStep h hr).set_thread ?_
    rw [thread_releaseStep hr, hx]
    rfl

theorem clients_acquireCall (h : ClientsOk l) (hx : l.thread x = none) :
    ClientsOk (l.acquire x) := by
  refine h.goOn ((h x.1).acquire ?_)
  simp only [waits, hx, Option.bind_none]

theorem clients_releaseCall (hinv : Inv (view l)) (h : ClientsOk l) (hx : l.thread x = none)
    (hheld : l.held x = true) : ClientsOk (l.release x) := by
  have hwait : waits l x.1 x.2 = none := by simp only [waits, hx, Option.bind_none]
  have hok := (h x.1).release (hinv.roles.locked x hheld).1 x.2
  refine h.set_own ?_
  rw [update_same]
  · exact hok
  · rw [hwait]
    split <;> rfl

/-- A wait that ends without a signal changes no flag and no list. -/
theorem clients_spurious (h : ClientsOk l) {p : Pc} (hs : l.spurious x p = some l') :
    ClientsOk l' := by
  obtain ⟨hlist, hfree, hacq, hthread, hone, hending, hnone, hbehind, hretry, hrevoke⟩ := h x.1
  cases p with
  | waitFree =>
    cases hs
    refine h.set_client ⟨hlist, ?_, hacq, hthread, hone, hending, hnone, hbehind, hretry, hrevoke⟩
    grind -linarith [Function.update_apply]
  | waitNone =>
    cases hs
    refine h.set_client ⟨hlist, hfree, hacq, hthread, hone, hending, ?_, hbehind, hretry, hrevoke⟩
    grind -linarith [Function.update_apply]
  | waitRetry =>
    cases hs
    refine h.set_client ⟨hlist, hfree, hacq, hthread, hone, hending, hnone, hbehind, ?_, hrevoke⟩
    grind -linarith [Function.update_apply]
  | acquire1 a => cases hs
  | acquire2 a => cases hs
  | release r => cases hs

end Yfs.LockClients
