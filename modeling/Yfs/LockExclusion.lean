/-
Mutual exclusion of the caching lock service.

Every critical section of the service is a move of the protocol, seen through the
view of its lock. So the invariant of the protocol holds for every lock in every run,
and with it at most one thread is between `acquire` and `release`.
-/
import Yfs.LockProtocol

set_option autoImplicit false

namespace Yfs.LockExclusion

open Text Yfs.LockSystem Yfs.LockProtocol
open Yfs.LockServer (status)

/-! ## The view of a lock -/

/-- What the answer of the server will mean; `onRetry` is the meaning of `RETRY`. -/
def statusStage (onRetry : Stage) : status → Stage
  | .OK => .granted
  | .RETRY => onRetry
  | .RPCERR => .lost

def acquireStage (before onRetry : Stage) : Acquire → Stage
  | .sent => before
  | .holder => onRetry
  | .revoke ret _ _ => statusStage onRetry ret
  | .replied ret => statusStage onRetry ret

/-- Only the first call may be answered with `RETRY`. -/
def pcStage : Pc → Option Stage
  | .acquire1 h => some (acquireStage .asked .told h)
  | .waitRetry => some .told
  | .acquire2 h => some (acquireStage .again .lost h)
  | _ => none

def acquireGiving (x : Tid) : Acquire → Option Giving
  | .revoke _ c (.release h) => some ⟨c, .handler x.1 x.2, h⟩
  | _ => none

def pcGiving (x : Tid) : Pc → Option Giving
  | .acquire1 h => acquireGiving x h
  | .acquire2 h => acquireGiving x h
  | .release h => some ⟨x.1, .user x.2, h⟩
  | _ => none

def view (l : Lock) : View where
  server := l.server
  state c := (l.entry c).state
  owner c := (l.entry c).threadId
  toRetry c := (l.entry c).toRetry
  stage x := (l.thread x).bind pcStage
  giving x := (l.thread x).bind (pcGiving x)
  held := l.held

theorem view_setHeld (l : Lock) (x : Tid) (b : Bool) :
    view (l.setHeld x b) = { view l with held := Function.update (view l).held x b } := rfl

/-- What is read of the entries after one was set. -/
theorem read_update {β : Type} (f : LockClient.lockInfo → β)
    (client : Str → Option LockClient.lockInfo) (c : Str) (e : LockClient.lockInfo) :
    (fun c' => f ((Function.update client c (some e) c').getD .zero))
      = Function.update (fun c' => f ((client c').getD .zero)) c (f e) :=
  Function.comp_update (fun o : Option LockClient.lockInfo => f (o.getD .zero)) client c (some e)

theorem entry_setClient (l : Lock) (c : Str) (e : LockClient.lockInfo) :
    (l.setClient c e).entry = Function.update l.entry c e :=
  read_update id l.client c e

theorem view_setClient (l : Lock) (c : Str) (e : LockClient.lockInfo) :
    view (l.setClient c e) = { view l with
      state := Function.update (view l).state c e.state
      owner := Function.update (view l).owner c e.threadId
      toRetry := Function.update (view l).toRetry c e.toRetry } :=
  View.ext rfl (read_update (·.state) l.client c e) (read_update (·.threadId) l.client c e)
    (read_update (·.toRetry) l.client c e) rfl rfl rfl

theorem view_setThread (l : Lock) (x : Tid) (p : Option Pc) :
    view (l.setThread x p) = { view l with
      stage := Function.update (view l).stage x (p.bind pcStage)
      giving := Function.update (view l).giving x (p.bind (pcGiving x)) } := by
  refine View.ext rfl rfl rfl rfl ?_ ?_ rfl
  · exact Function.comp_update (·.bind pcStage) l.thread x p
  · funext y
    by_cases hy : y = x
    · subst hy
      simp [view, Lock.setThread]
    · simp [view, Lock.setThread, hy]

/-- An entry that agrees in state, owner and `toRetry` is the same to the view. -/
theorem view_setClient_same (l : Lock) (c : Str) (e : LockClient.lockInfo)
    (hstate : e.state = (l.entry c).state) (howner : e.threadId = (l.entry c).threadId)
    (hretry : e.toRetry = (l.entry c).toRetry) : view (l.setClient c e) = view l := by
  rw [view_setClient, hstate, howner, hretry]
  exact View.ext rfl (Function.update_eq_self ..) (Function.update_eq_self ..)
    (Function.update_eq_self ..) rfl rfl rfl

/-! ## The handlers -/

variable {l l' : Lock} {x : Tid}

/-- The handlers do not touch the threads. -/
theorem thread_releaseStep {h h' : Release} (hs : releaseStep l h = some (l', h')) :
    l'.thread = l.thread := by
  cases h with
  | sent =>
    cases hs
    rfl
  | front =>
    obtain ⟨dst, -, heq⟩ := Option.map_eq_some_iff.mp hs
    cases heq
    rfl
  | retry dst =>
    cases hs
    rfl
  | replied => cases hs

theorem retry_handler_entry (e : LockClient.lockInfo) :
    (LockClient.retry_handler e).state = e.state
      ∧ (LockClient.retry_handler e).threadId = e.threadId
      ∧ (LockClient.retry_handler e).toRetry = true := by
  unfold LockClient.retry_handler
  simp only
  split <;> exact ⟨rfl, rfl, rfl⟩

/-- A step of `release` on the server, in the thread that gives the lock back. -/
theorem move_release {g : Giving} (hx : (view l).giving x = some g) {h' : Release}
    (hs : releaseStep l g.place = some (l', h')) :
    Move (view l) { view l' with
      giving := Function.update (view l').giving x (some { g with place := h' }) } := by
  cases hg : g.place with
  | sent =>
    rw [hg] at hs
    cases hs
    exact .free x g hx hg
  | front =>
    rw [hg] at hs
    obtain ⟨dst, hdst, heq⟩ := Option.map_eq_some_iff.mp hs
    cases heq
    exact .front x g dst hx hg hdst
  | retry dst =>
    rw [hg] at hs
    cases hs
    obtain ⟨hst, ho, hr⟩ := retry_handler_entry (l.entry dst)
    have hm := Move.tell x g dst hx hg
    rw [view_setClient, hst, ho, hr]
    convert hm using 2
    · exact Function.update_eq_self ..
    · exact Function.update_eq_self ..
  | replied =>
    rw [hg] at hs
    cases hs

theorem update_same {α β : Type} [DecidableEq α] {f : α → β} {a : α} {b : β} (h : f a = b) :
    Function.update f a b = f := by
  rw [← h]
  exact Function.update_eq_self ..

/-- The new entry of a handler that was told to revoke. -/
theorem revoke_handler_cases (e : LockClient.lockInfo) (self : LockClient.pthread) :
    (e.state = .FREE ∧ (LockClient.revoke_handler e self).2 = true
        ∧ (LockClient.revoke_handler e self).1.state = .RELEASING
        ∧ (LockClient.revoke_handler e self).1.threadId = self
        ∧ (LockClient.revoke_handler e self).1.toRetry = e.toRetry)
      ∨ ((LockClient.revoke_handler e self).2 = false
        ∧ (LockClient.revoke_handler e self).1.state = e.state
        ∧ (LockClient.revoke_handler e self).1.threadId = e.threadId
        ∧ (LockClient.revoke_handler e self).1.toRetry = e.toRetry) := by
  unfold LockClient.revoke_handler
  simp only
  split
  · next h => exact .inl ⟨h.1, rfl, rfl, rfl, rfl⟩
  · exact .inr ⟨rfl, rfl, rfl, rfl⟩

/-- Once the server has answered the release the client has nothing, and names the thread that
sent it. -/
theorem released_entry (e : LockClient.lockInfo) (self : LockClient.pthread) :
    (LockClient.released e self).state = .NONE ∧ (LockClient.released e self).threadId = self
      ∧ (LockClient.released e self).toRetry = e.toRetry := by
  unfold LockClient.released
  simp only
  split <;> exact ⟨rfl, rfl, rfl⟩

/-- The place in a revocation, as the view sees it. -/
def revokeGiving (x : Tid) (c : Str) : Option Revoke → Option Giving
  | some (.release h) => some ⟨c, .handler x.1 x.2, h⟩
  | _ => none

/-- A client learns that the lock was given back. -/
theorem move_released {g : Giving} (hx : (view l).giving x = some g) (hg : g.place = .replied) :
    Move (view l) { view (l.setClient g.client (LockClient.released (l.entry g.client) g.self)) with
      giving := Function.update (view l).giving x none } := by
  obtain ⟨hst, ho, hr⟩ := released_entry (l.entry g.client) g.self
  rw [view_setClient, hst, ho, hr]
  convert Move.done x g hx hg using 2
  exact Function.update_eq_self ..

theorem revokeStep_release {c : Str} {h : Release} (hne : h ≠ .replied) :
    revokeStep l x c (.release h) = (releaseStep l h).map fun r => (r.1, some (.release r.2)) := by
  cases h with
  | sent => rfl
  | front => rfl
  | retry dst => rfl
  | replied => exact absurd rfl hne

/-- A revoke moves none of the threads that call `acquire` and `release`. -/
theorem thread_revokeStep {c : Str} {h : Revoke} {o : Option Revoke}
    (hs : revokeStep l x c h = some (l', o)) : l'.thread = l.thread := by
  cases h with
  | sent =>
    cases hs
    rfl
  | release h =>
    by_cases hrep : h = .replied
    · subst hrep
      cases hs
      rfl
    · rw [revokeStep_release hrep] at hs
      obtain ⟨r, hr, heq⟩ := Option.map_eq_some_iff.mp hs
      cases heq
      exact thread_releaseStep hr

/-- **A step of `revoke_handler`.** -/
theorem move_revoke {c : Str} {h : Revoke} {o : Option Revoke}
    (hx : (view l).giving x = revokeGiving x c (some h))
    (hs : revokeStep l x c h = some (l', o)) :
    Move (view l) { view l' with
      giving := Function.update (view l').giving x (revokeGiving x c o) } := by
  cases h with
  | sent =>
    cases hs
    rw [view_setClient]
    rcases revoke_handler_cases (l.entry c) (.handler x.1 x.2) with
      ⟨hfree, hcall, hst, ho, hr⟩ | ⟨hcall, hst, ho, hr⟩
    · rw [hcall, hst, ho, hr]
      convert Move.revoke (v := view l) x c hfree using 2
      · exact Function.update_eq_self ..
      · rfl
    · rw [hcall, hst, ho, hr]
      convert Move.stay (v := view l) using 1
      refine View.ext rfl (Function.update_eq_self ..) (Function.update_eq_self ..)
        (Function.update_eq_self ..) rfl (update_same hx) rfl
  | release h =>
    by_cases hrep : h = .replied
    · subst hrep
      cases hs
      exact move_released hx rfl
    · rw [revokeStep_release hrep] at hs
      obtain ⟨r, hr, heq⟩ := Option.map_eq_some_iff.mp hs
      cases heq
      exact move_release hx hr

/-- The server handles the call: three ways to go on, of which the view sees only whether the
lock is granted. -/
theorem move_sent {before onRetry : Stage} {h' : Acquire}
    (hkind : (before = .asked ∧ onRetry = .told) ∨ (before = .again ∧ onRetry = .lost))
    (hstage : (view l).stage x = some before) (hgiving : (view l).giving x = none)
    (hs : acquireStep l x .sent = some (l', h')) :
    Move (view l) { view l' with
      stage := Function.update (view l').stage x (some (acquireStage before onRetry h'))
      giving := Function.update (view l').giving x (acquireGiving x h') } := by
  cases hs
  have hserved := LockServer.acquire_served l.server x.1
  have hne := LockServer.acquire_ne_rpcerr l.server x.1
  have hm := Move.serve (v := view l) x before _ _ hstage (hkind.imp And.left And.left) hserved
  generalize LockServer.acquire l.server x.1 = r at hm hne
  obtain ⟨e, after⟩ := r
  have hst : ∀ h, acquireStage before onRetry h = before.served after →
      acquireGiving x h = none →
      Move (view l) { view (l.setServer e) with
        stage := Function.update (view l).stage x (some (acquireStage before onRetry h))
        giving := Function.update (view l).giving x (acquireGiving x h) } := by
    intro h hh hg
    rw [hh, update_same (hgiving.trans hg.symm)]
    exact hm
  cases after with
  | reply ret =>
    refine hst (.replied ret) ?_ rfl
    rcases hkind with ⟨rfl, rfl⟩ | ⟨rfl, rfl⟩ <;> cases ret <;>
      first | rfl | exact absurd rfl hne
  | revokeHolder =>
    refine hst .holder ?_ rfl
    rcases hkind with ⟨rfl, rfl⟩ | ⟨rfl, rfl⟩ <;> rfl
  | revokeCaller => exact hst (.revoke .OK x.1 .sent) rfl rfl

/-- The server calls a client to revoke the lock; its own answer was fixed before. -/
theorem move_revoking {before onRetry : Stage} {ret : LockServer.status} {c : Str} {h : Revoke}
    {h' : Acquire}
    (hstage : (view l).stage x = some (acquireStage before onRetry (.revoke ret c h)))
    (hgiving : (view l).giving x = acquireGiving x (.revoke ret c h))
    (hs : acquireStep l x (.revoke ret c h) = some (l', h')) :
    Move (view l) { view l' with
      stage := Function.update (view l').stage x (some (acquireStage before onRetry h'))
      giving := Function.update (view l').giving x (acquireGiving x h') } := by
  obtain ⟨r, hr, heq⟩ := Option.map_eq_some_iff.mp hs
  obtain ⟨l'', o⟩ := r
  cases heq
  have hgiv : acquireGiving x (.revoke ret c h) = revokeGiving x c (some h) := by
    cases h <;> rfl
  have hthread : (view l'').stage = (view l).stage := by
    funext y
    simp only [view, thread_revokeStep hr]
  have hm := move_revoke (hgiving.trans hgiv) hr
  refine hm.to (View.ext rfl rfl rfl rfl ?_ ?_ rfl)
  · refine update_same ?_
    rw [hthread, hstage]
    cases o <;> rfl
  · cases o with
    | none => rfl
    | some h => cases h <;> rfl

/-- **A step of `acquire` on the server.** The first call may be answered with `RETRY`,
the second may not. -/
theorem move_acquire {before onRetry : Stage} {h h' : Acquire}
    (hkind : (before = .asked ∧ onRetry = .told) ∨ (before = .again ∧ onRetry = .lost))
    (hstage : (view l).stage x = some (acquireStage before onRetry h))
    (hgiving : (view l).giving x = acquireGiving x h)
    (hs : acquireStep l x h = some (l', h')) :
    Move (view l) { view l' with
      stage := Function.update (view l').stage x (some (acquireStage before onRetry h'))
      giving := Function.update (view l').giving x (acquireGiving x h') } := by
  cases h with
  | sent => exact move_sent hkind hstage hgiving hs
  | holder =>
    obtain ⟨e, he, heq⟩ := Option.map_eq_some_iff.mp hs
    cases heq
    convert Move.stay (v := view l) using 1
    exact View.ext rfl rfl rfl rfl (update_same hstage) (update_same hgiving) rfl
  | revoke ret c h => exact move_revoking hstage hgiving hs
  | replied ret => cases hs

/-! ## The threads -/

/-- What a thread in `acquire` does to the entry of its client. -/
inductive Went (e : LockClient.lockInfo) (t : ℕ) (e' : LockClient.lockInfo) :
    LockClient.Next → Prop
  | waits {next : LockClient.Next} : next = .waitFree ∨ next = .waitNone → e'.state = e.state →
      e'.threadId = e.threadId → Went e t e' next
  | takes : e.state = .FREE → e'.state = .LOCKED → e'.threadId = .user t → Went e t e' .locked
  | asks : e.state = .NONE → e'.state = .ACQUIRING → e'.threadId = .user t → Went e t e' .call

/-- Only the state and the owner of the entry matter. -/
theorem Went.of_same {e e₁ e' : LockClient.lockInfo} {t : ℕ} {next : LockClient.Next}
    (h : Went e₁ t e' next) (hst : e₁.state = e.state) (ho : e₁.threadId = e.threadId) :
    Went e t e' next := by
  cases h with
  | waits hn h1 h2 => exact .waits hn (h1.trans hst) (h2.trans ho)
  | takes h1 h2 h3 => exact .takes (hst.symm.trans h1) h2 h3
  | asks h1 h2 h3 => exact .asks (hst.symm.trans h1) h2 h3

theorem went_lock_loop (e : LockClient.lockInfo) (t : ℕ) :
    Went e t (LockClient.lock_loop e t).1 (LockClient.lock_loop e t).2
      ∧ (LockClient.lock_loop e t).1.toRetry = e.toRetry := by
  unfold LockClient.lock_loop
  split
  · exact ⟨.waits (.inl rfl) rfl rfl, rfl⟩
  · next h => exact ⟨.takes (not_not.mp h) rfl rfl, rfl⟩

theorem went_none_loop (e : LockClient.lockInfo) (t : ℕ) :
    Went e t (LockClient.none_loop e t).1 (LockClient.none_loop e t).2
      ∧ (LockClient.none_loop e t).1.toRetry = e.toRetry := by
  unfold LockClient.none_loop
  split
  · exact ⟨.waits (.inr rfl) rfl rfl, rfl⟩
  · next h => exact ⟨.asks (not_not.mp h) rfl rfl, rfl⟩

/-- **What `acquire` does first.** It takes a free lock, goes to the server when nobody
does, and waits otherwise. -/
theorem went_acquire (entry : Option LockClient.lockInfo) (t : ℕ) :
    Went (entry.getD .zero) t (LockClient.acquire entry t).1 (LockClient.acquire entry t).2
      ∧ (LockClient.acquire entry t).1.toRetry = (entry.getD .zero).toRetry := by
  have henlist : ∀ e, Went e t (LockClient.enlist e t).1 (LockClient.enlist e t).2
      ∧ (LockClient.enlist e t).1.toRetry = e.toRetry := by
    intro e
    obtain ⟨hw, hr⟩ := went_lock_loop { e with waitList := insert t e.waitList } t
    exact ⟨hw.of_same rfl rfl, hr⟩
  unfold LockClient.acquire
  cases entry with
  | none => exact ⟨.asks rfl rfl rfl, rfl⟩
  | some e =>
    simp only [Option.getD_some]
    split
    · next hst =>
      split
      · exact henlist e
      · exact ⟨.asks hst rfl rfl, rfl⟩
    · next hst => exact ⟨.takes hst rfl rfl, rfl⟩
    · exact henlist e
    · exact henlist e
    · split
      · exact henlist e
      · obtain ⟨hw, hr⟩ := went_none_loop { e with waitingToAcq := true } t
        exact ⟨hw.of_same rfl rfl, hr⟩

/-- A thread goes on in `acquire`, from a place at which the server does not know it. -/
theorem move_goOn {r : LockClient.lockInfo × LockClient.Next}
    (hstage : (view l).stage x = none) (hgiving : (view l).giving x = none)
    (hw : Went (l.entry x.1) x.2 r.1 r.2) (hr : r.1.toRetry = (l.entry x.1).toRetry) :
    Move (view l) (view (l.goOn x r)) := by
  obtain ⟨e, next⟩ := r
  cases hw with
  | waits hn hst ho =>
    have hsame := view_setClient_same l x.1 e hst ho hr
    rcases hn with rfl | rfl
    · refine Move.stay.to ?_
      simp only [Lock.goOn, view_setThread, hsame]
      exact View.ext rfl rfl rfl rfl (update_same hstage) (update_same hgiving) rfl
    · refine Move.stay.to ?_
      simp only [Lock.goOn, view_setThread, hsame]
      exact View.ext rfl rfl rfl rfl (update_same hstage) (update_same hgiving) rfl
  | takes hfree hst ho =>
    refine (Move.take (v := view l) x hfree).to ?_
    simp only [Lock.goOn, Lock.acquired, view_setHeld, view_setThread, view_setClient]
    exact View.ext rfl (hst ▸ rfl) (ho ▸ rfl) (update_same hr.symm) (update_same hstage)
      (update_same hgiving) rfl
  | asks hnone hst ho =>
    refine (Move.ask (v := view l) x hnone).to ?_
    simp only [Lock.goOn, view_setThread, view_setClient]
    exact View.ext rfl (hst ▸ rfl) (ho ▸ rfl) (update_same hr.symm) rfl (update_same hgiving) rfl

/-- A thread goes on after the server has told it to retry. -/
theorem move_goOnRetry {r : LockClient.lockInfo × Bool}
    (hstage : (view l).stage x = some .told) (hgiving : (view l).giving x = none)
    (hst : r.1.state = (l.entry x.1).state) (ho : r.1.threadId = (l.entry x.1).threadId)
    (hr : r.2 = (l.entry x.1).toRetry) (hr' : r.1.toRetry = false) :
    Move (view l) (view (l.goOnRetry x r)) := by
  obtain ⟨e, b⟩ := r
  cases hb : b with
  | true =>
    have htold : (view l).toRetry x.1 = true := hr.symm.trans hb
    refine (Move.retry (v := view l) x hstage htold).to ?_
    simp only [Lock.goOnRetry, view_setThread, view_setClient]
    exact View.ext rfl (update_same hst.symm) (update_same ho.symm) (hr' ▸ rfl) rfl
      (update_same hgiving) rfl
  | false =>
    refine Move.stay.to ?_
    -- no retry yet: the thread waits on, and the view has not changed
    have hfalse : (l.entry x.1).toRetry = false := hr.symm.trans hb
    simp only [Lock.goOnRetry, view_setThread,
      view_setClient_same l x.1 e hst ho (hr'.trans hfalse.symm)]
    exact View.ext rfl rfl rfl rfl (update_same hstage) (update_same hgiving) rfl

theorem retry_loop_spec (e : LockClient.lockInfo) (t : ℕ) :
    (LockClient.retry_loop e t).1.state = e.state
      ∧ (LockClient.retry_loop e t).1.threadId = e.threadId
      ∧ (LockClient.retry_loop e t).2 = e.toRetry
      ∧ (LockClient.retry_loop e t).1.toRetry = false := by
  unfold LockClient.retry_loop
  split
  · next h => exact ⟨rfl, rfl, h.symm, rfl⟩
  · next h =>
    have hf := Bool.eq_false_of_not_eq_true h
    exact ⟨rfl, rfl, hf.symm, hf⟩

theorem maybeRetry_spec (e : LockClient.lockInfo) (t : ℕ) :
    (LockClient.maybeRetry e t).1.state = e.state
      ∧ (LockClient.maybeRetry e t).1.threadId = e.threadId
      ∧ (LockClient.maybeRetry e t).2 = e.toRetry
      ∧ (LockClient.maybeRetry e t).1.toRetry = false := by
  unfold LockClient.maybeRetry
  split
  · next h => exact ⟨rfl, rfl, h.symm, rfl⟩
  · exact retry_loop_spec e t

/-- The answer `OK` arrives. -/
theorem move_locked (hstage : (view l).stage x = some .granted)
    (hgiving : (view l).giving x = none) :
    Move (view l) (view ((l.setClient x.1 (LockClient.locked (l.entry x.1) x.2)).acquired x)) := by
  refine (Move.lock (v := view l) x hstage).to ?_
  simp only [Lock.acquired, view_setHeld, view_setThread, view_setClient]
  exact View.ext rfl rfl rfl (Function.update_eq_self ..) rfl (update_same hgiving) rfl

/-- The next step of a first or second call. -/
theorem move_call {before onRetry : Stage} {h h' : Acquire} {p : Acquire → Pc}
    (hkind : (before = .asked ∧ onRetry = .told) ∨ (before = .again ∧ onRetry = .lost))
    (hp : ∀ h, pcStage (p h) = some (acquireStage before onRetry h)
      ∧ pcGiving x (p h) = acquireGiving x h)
    (hx : l.thread x = some (p h)) (hr : acquireStep l x h = some (l', h')) :
    Move (view l) (view (l'.setThread x (some (p h')))) := by
  have hstage : (view l).stage x = some (acquireStage before onRetry h) := by
    simp only [view, hx, Option.bind_some, hp]
  have hgiving : (view l).giving x = acquireGiving x h := by
    simp only [view, hx, Option.bind_some, hp]
  refine (move_acquire hkind hstage hgiving hr).to ?_
  rw [view_setThread, Option.bind_some, Option.bind_some, (hp h').1, (hp h').2]

/-- What the next critical section of a thread is. -/
inductive Ran (l : Lock) (x : Tid) : Pc → Lock → Prop
  | lock_loop : (l.entry x.1).lockCondVar x.2 = true →
      Ran l x .waitFree (l.goOn x (LockClient.lock_loop (l.entry x.1) x.2))
  | none_loop : (l.entry x.1).acquireCondVar x.2 = true →
      Ran l x .waitNone (l.goOn x (LockClient.none_loop (l.entry x.1) x.2))
  | retry_loop : (l.entry x.1).retryCondVar x.2 = true →
      Ran l x .waitRetry (l.goOnRetry x (LockClient.retry_loop (l.entry x.1) x.2))
  | maybeRetry : Ran l x (.acquire1 (.replied .RETRY))
      (l.goOnRetry x (LockClient.maybeRetry (l.entry x.1) x.2))
  | locked {p : Pc} : p = .acquire1 (.replied .OK) ∨ p = .acquire2 (.replied .OK) →
      Ran l x p ((l.setClient x.1 (LockClient.locked (l.entry x.1) x.2)).acquired x)
  | lost {p : Pc} : p = .acquire1 (.replied .RPCERR) ∨ p = .acquire2 (.replied .RETRY)
        ∨ p = .acquire2 (.replied .RPCERR) → Ran l x p (l.acquired x)
  | call {q : Acquire → Pc} {h h' : Acquire} {l' : Lock} : q = .acquire1 ∨ q = .acquire2 →
      acquireStep l x h = some (l', h') → Ran l x (q h) (l'.setThread x (some (q h')))
  | released : Ran l x (.release .replied)
      ((l.setClient x.1 (LockClient.released (l.entry x.1) (.user x.2))).setThread x none)
  | release {h h' : Release} {l' : Lock} : releaseStep l h = some (l', h') →
      Ran l x (.release h) (l'.setThread x (some (.release h')))

/-- Every step of a thread is one of the moves of `Ran`. -/
theorem ran_of_threadStep {p : Pc} (hs : l.threadStep x p = some l') : Ran l x p l' := by
  unfold Lock.threadStep at hs
  split at hs
  · obtain ⟨hwoken, hs⟩ := Option.ite_none_right_eq_some.mp hs
    cases hs
    exact .lock_loop hwoken
  · obtain ⟨hwoken, hs⟩ := Option.ite_none_right_eq_some.mp hs
    cases hs
    exact .none_loop hwoken
  · obtain ⟨hwoken, hs⟩ := Option.ite_none_right_eq_some.mp hs
    cases hs
    exact .retry_loop hwoken
  · cases hs
    exact .maybeRetry
  · cases hs
    exact .locked (.inl rfl)
  · cases hs
    exact .lost (.inl rfl)
  · obtain ⟨⟨l'', h'⟩, hr, rfl⟩ := Option.map_eq_some_iff.mp hs
    exact .call (.inl rfl) hr
  · cases hs
    exact .locked (.inr rfl)
  · cases hs
    exact .lost (.inr (.inl rfl))
  · cases hs
    exact .lost (.inr (.inr rfl))
  · obtain ⟨⟨l'', h'⟩, hr, rfl⟩ := Option.map_eq_some_iff.mp hs
    exact .call (.inr rfl) hr
  · cases hs
    exact .released
  · obtain ⟨⟨l'', h'⟩, hr, rfl⟩ := Option.map_eq_some_iff.mp hs
    exact .release hr

theorem stage_of_lost {p : Pc} (hp : p = .acquire1 (.replied .RPCERR)
    ∨ p = .acquire2 (.replied .RETRY) ∨ p = .acquire2 (.replied .RPCERR)) :
    pcStage p = some .lost := by
  rcases hp with rfl | rfl | rfl <;> rfl

/-- **Every critical section of a thread is a move.** -/
theorem move_threadStep (hinv : Inv (view l)) {p : Pc} (hx : l.thread x = some p)
    (hs : l.threadStep x p = some l') : Move (view l) (view l') := by
  have hstage : (view l).stage x = pcStage p := by simp only [view, hx, Option.bind_some]
  have hgiving : (view l).giving x = pcGiving x p := by simp only [view, hx, Option.bind_some]
  cases ran_of_threadStep hs with
  | lock_loop => exact move_goOn hstage hgiving (went_lock_loop _ _).1 (went_lock_loop _ _).2
  | none_loop => exact move_goOn hstage hgiving (went_none_loop _ _).1 (went_none_loop _ _).2
  | retry_loop =>
    obtain ⟨hst, ho, hr, hr'⟩ := retry_loop_spec (l.entry x.1) x.2
    exact move_goOnRetry hstage hgiving hst ho hr hr'
  | maybeRetry =>
    obtain ⟨hst, ho, hr, hr'⟩ := maybeRetry_spec (l.entry x.1) x.2
    exact move_goOnRetry hstage hgiving hst ho hr hr'
  | locked hp =>
    rcases hp with rfl | rfl
    · exact move_locked hstage hgiving
    · exact move_locked hstage hgiving
  -- no answer is a failure, and the second one is not `RETRY`
  | lost hp => exact absurd (hstage.trans (stage_of_lost hp)) (hinv.retries.lost x)
  | call hq hr =>
    rcases hq with rfl | rfl
    · exact move_call (.inl ⟨rfl, rfl⟩) (fun _ => ⟨rfl, rfl⟩) hx hr
    · exact move_call (.inr ⟨rfl, rfl⟩) (fun _ => ⟨rfl, rfl⟩) hx hr
  | released =>
    refine (move_released hgiving rfl).to ?_
    rw [view_setThread]
    exact View.ext rfl rfl rfl rfl (update_same hstage) rfl rfl
  | release hr =>
    refine (move_release hgiving hr).to ?_
    rw [view_setThread]
    refine View.ext rfl rfl rfl rfl (update_same ?_) rfl rfl
    simp only [view, thread_releaseStep hr, hx, Option.bind_some]
    rfl

/-! ## Calls of `acquire` and `release` -/

/-- A call of `acquire` takes a free lock of its client, waits, or goes on to the server. -/
theorem move_acquireCall (hx : l.thread x = none) : Move (view l) (view (l.acquire x)) := by
  have hstage : (view l).stage x = none := by simp only [view, hx, Option.bind_none]
  have hgiving : (view l).giving x = none := by simp only [view, hx, Option.bind_none]
  exact move_goOn hstage hgiving (went_acquire _ _).1 (went_acquire _ _).2

/-- What `release` does to the entry of the client. -/
theorem release_cases (e : LockClient.lockInfo) (t : ℕ) :
    (LockClient.release e t).1.threadId = .user t
      ∧ (LockClient.release e t).1.toRetry = e.toRetry
      ∧ (LockClient.release e t).1.state
        = if (LockClient.release e t).2 then .RELEASING else .FREE := by
  unfold LockClient.release
  simp only
  split
  · split <;> exact ⟨rfl, rfl, rfl⟩
  · exact ⟨rfl, rfl, rfl⟩

/-- The holder leaves the lock to its client, which keeps it or starts to give it back. -/
theorem move_releaseCall (hx : l.thread x = none) (hheld : l.held x = true) :
    Move (view l) (view (l.release x)) := by
  have hstage : (view l).stage x = none := by simp only [view, hx, Option.bind_none]
  have hgiving : (view l).giving x = none := by simp only [view, hx, Option.bind_none]
  obtain ⟨ho, hr, hst⟩ := release_cases (l.entry x.1) x.2
  simp only [Lock.release, view_setHeld, view_setThread, view_setClient, ho, hr, hst]
  cases (LockClient.release (l.entry x.1) x.2).2 with
  | true =>
    refine (Move.release (v := view l) x hheld).to ?_
    exact View.ext rfl rfl rfl (Function.update_eq_self ..) (update_same hstage) rfl rfl
  | false =>
    refine (Move.leave (v := view l) x hheld).to ?_
    exact View.ext rfl rfl rfl (Function.update_eq_self ..) (update_same hstage)
      (update_same hgiving) rfl

theorem move_spurious {p : Pc} (hs : l.spurious x p = some l') : Move (view l) (view l') := by
  refine Move.stay.to ?_
  cases p with
  | waitFree =>
    cases hs
    exact view_setClient_same l x.1 _ rfl rfl rfl
  | waitNone =>
    cases hs
    exact view_setClient_same l x.1 _ rfl rfl rfl
  | waitRetry =>
    cases hs
    exact view_setClient_same l x.1 _ rfl rfl rfl
  | acquire1 h => cases hs
  | acquire2 h => cases hs
  | release h => cases hs

/-! ## Only the thread that takes a step moves -/

theorem thread_setThread {p : Option Pc} {y : Tid} (hy : y ≠ x) :
    (l.setThread x p).thread y = l.thread y :=
  Function.update_of_ne hy _ _

theorem thread_goOn (r : LockClient.lockInfo × LockClient.Next) {y : Tid} (hy : y ≠ x) :
    (l.goOn x r).thread y = l.thread y := by
  simp only [Lock.goOn]
  split <;> exact thread_setThread hy

theorem thread_acquireStep {h h' : Acquire} (hs : acquireStep l x h = some (l', h')) :
    l'.thread = l.thread := by
  cases h with
  | sent =>
    cases hs
    rfl
  | holder =>
    obtain ⟨e, -, heq⟩ := Option.map_eq_some_iff.mp hs
    cases heq
    rfl
  | revoke ret c h =>
    obtain ⟨r, hr, heq⟩ := Option.map_eq_some_iff.mp hs
    cases heq
    exact thread_revokeStep hr
  | replied ret => cases hs

/-- A step of one thread leaves the others where they are. -/
theorem thread_threadStep {p : Pc} (hs : l.threadStep x p = some l') {y : Tid} (hy : y ≠ x) :
    l'.thread y = l.thread y := by
  cases ran_of_threadStep hs with
  | lock_loop => exact thread_goOn _ hy
  | none_loop => exact thread_goOn _ hy
  | retry_loop => exact thread_setThread hy
  | maybeRetry => exact thread_setThread hy
  | locked => exact thread_setThread hy
  | lost => exact thread_setThread hy
  | call _ hr => rw [thread_setThread hy, thread_acquireStep hr]
  | released => exact thread_setThread hy
  | release hr => rw [thread_setThread hy, thread_releaseStep hr]

theorem thread_spurious {p : Pc} (hs : l.spurious x p = some l') : l'.thread = l.thread := by
  cases p with
  | waitFree =>
    cases hs
    rfl
  | waitNone =>
    cases hs
    rfl
  | waitRetry =>
    cases hs
    rfl
  | acquire1 h => cases hs
  | acquire2 h => cases hs
  | release h => cases hs

/-! ## All locks -/

structure SystemInv (s : System) : Prop where
  locks : ∀ lid, Inv (view (s.locks lid))
  busy : ∀ lid x, (s.locks lid).thread x ≠ none → s.busy x = some lid

theorem inv_new : Inv (view .new) := by
  refine ⟨⟨nofun, nofun, nofun⟩, ⟨?_, nofun, nofun⟩,
    ⟨nofun, List.nodup_nil, nofun, nofun, ?_, nofun, nofun⟩⟩
  · rintro c (hc | hc) <;> cases hc
  · rintro x ⟨g, hg, -⟩
    cases hg

theorem SystemInv.start : SystemInv start :=
  ⟨fun _ => inv_new, fun _ _ h => absurd rfl h⟩

/-- A thread does something for one lock. -/
theorem SystemInv.set {s : System} (h : SystemInv s) {lid : ℕ}
    (hbusy : s.busy x = none ∨ s.busy x = some lid) (hm : Move (view (s.locks lid)) (view l))
    (hthread : ∀ y, y ≠ x → l.thread y = (s.locks lid).thread y) : SystemInv (s.set x lid l) := by
  refine ⟨fun lid' => ?_, fun lid' y hy => ?_⟩
  · by_cases hlid : lid' = lid
    · subst hlid
      simp only [System.set, Function.update_self]
      exact inv_move (h.locks lid') hm
    · simp only [System.set, Function.update_of_ne hlid]
      exact h.locks lid'
  · simp only [System.set] at hy ⊢
    by_cases hyx : y = x
    · subst hyx
      rw [Function.update_self]
      by_cases hlid : lid' = lid
      · subst hlid
        rw [Function.update_self] at hy
        rw [if_pos (Option.isSome_iff_ne_none.mpr hy)]
      · -- the thread is inside the service for at most one lock
        rw [Function.update_of_ne hlid] at hy
        have hold := h.busy lid' y hy
        rcases hbusy with hb | hb
        · rw [hb] at hold
          cases hold
        · rw [hb, Option.some.injEq] at hold
          exact absurd hold.symm hlid
    · rw [Function.update_of_ne hyx]
      refine h.busy lid' y ?_
      by_cases hlid : lid' = lid
      · subst hlid
        rwa [Function.update_self, hthread y hyx] at hy
      · rwa [Function.update_of_ne hlid] at hy

/-- A thread that is not inside the service. -/
theorem SystemInv.idle {s : System} (h : SystemInv s) (hb : s.busy x = none) (lid : ℕ) :
    (s.locks lid).thread x = none := by
  by_contra hx
  rw [h.busy lid x hx] at hb
  cases hb

/-- **One step** keeps the invariant of every lock. -/
theorem systemInv_step (s : System) (a : Act) (s' : System) (h : SystemInv s)
    (hs : step s a = some s') : SystemInv s' := by
  cases a with
  | acquire x lid =>
    simp only [step] at hs
    split at hs
    · next hb =>
      cases hs
      exact h.set (.inl hb) (move_acquireCall (h.idle hb lid)) fun y hy => thread_goOn _ hy
    · cases hs
  | release x lid =>
    simp only [step] at hs
    split at hs
    · next hb =>
      cases hs
      exact h.set (.inl hb.1) (move_releaseCall (h.idle hb.1 lid) hb.2)
        fun y hy => thread_setThread hy
    · cases hs
  | step x =>
    obtain ⟨lid, hb, hs⟩ := Option.bind_eq_some_iff.mp hs
    obtain ⟨p, hp, hs⟩ := Option.bind_eq_some_iff.mp hs
    obtain ⟨l, hl, rfl⟩ := Option.map_eq_some_iff.mp hs
    exact h.set (.inr hb) (move_threadStep (h.locks lid) hp hl)
      fun y hy => thread_threadStep hl hy
  | spurious x =>
    obtain ⟨lid, hb, hs⟩ := Option.bind_eq_some_iff.mp hs
    obtain ⟨p, hp, hs⟩ := Option.bind_eq_some_iff.mp hs
    obtain ⟨l, hl, rfl⟩ := Option.map_eq_some_iff.mp hs
    exact h.set (.inr hb) (move_spurious hl) fun y _ => by rw [thread_spurious hl]

/-! ## Mutual exclusion -/

/-- **Mutual exclusion.** In every state the service can reach, at most one thread of
all clients is between its `acquire` and its `release` of a lock. -/
theorem mutual_exclusion {acts : List Act} {s : System}
    (hrun : Steps.run step start acts = some s) {lid : ℕ} {x y : Tid}
    (hx : (s.locks lid).held x = true) (hy : (s.locks lid).held y = true) : x = y := by
  have h : SystemInv s := Steps.run_inv_all systemInv_step SystemInv.start hrun
  exact (h.locks lid).held_unique hx hy

/-- Client `a` gets the lock; client `b` asks, has it revoked and is told to retry; `a`
releases it, and the second `acquire` of `b` is granted. -/
def handOver : List Act :=
  [Act.acquire (['a'], 0) 7, Act.step (['a'], 0), Act.step (['a'], 0)]
    ++ Act.acquire (['b'], 0) 7 :: List.replicate 4 (Act.step (['b'], 0))
    ++ Act.release (['a'], 0) 7 :: List.replicate 4 (Act.step (['a'], 0))
    ++ List.replicate 3 (Act.step (['b'], 0))

theorem mutual_exclusion_handOver :
    ∃ s, Steps.run step start handOver = some s ∧ (s.locks 7).held (['b'], 0) = true
      ∧ ∀ x, (s.locks 7).held x = true → x = (['b'], 0) := by
  have hex : (Steps.run step start handOver).map (fun s => (s.locks 7).held (['b'], 0))
      = some true := by
    decide
  obtain ⟨s, hs, hheld⟩ := Steps.exists_run hex
  exact ⟨s, hs, hheld, fun x hx => mutual_exclusion hs hx hheld⟩

end Yfs.LockExclusion
