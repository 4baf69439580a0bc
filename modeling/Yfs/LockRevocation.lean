/-
The revocation of a lock for which a client waits.

It is a token that is always somewhere: the `acquire` that put the first client in the
list is about to send it, or the one that granted the lock to a client with others behind
it; or it has reached the client with the lock, which keeps it in `toRevoke`; or the lock
is on its way back.
-/
import Yfs.LockExclusion

set_option autoImplicit false

namespace Yfs.LockRevocation

open Text Yfs.LockSystem Yfs.LockProtocol Yfs.LockExclusion
open Yfs.LockServer (GrantedTo waiting)
open Yfs.LockClient (pthread)

variable {e : LockClient.lockInfo} {l l' : Lock} {x : Tid}

/-! ## Where it is -/

/-- An `acquire` on the server that has still to revoke the lock from client `c`, or to give
it back for `c`. -/
def acquireToken (c : Str) : Acquire → Bool
  | .holder => true
  | .revoke _ dst .sent => dst == c
  | .revoke _ dst (.release .sent) => dst == c
  | _ => false

def pcToken (x : Tid) (c : Str) : Pc → Bool
  | .acquire1 a => acquireToken c a
  | .acquire2 a => acquireToken c a
  | .release .sent => x.1 == c
  | _ => false

/-- The revocation is under way to client `c`, or has reached it, or the lock is on its way
back. -/
def Token (l : Lock) (c : Str) : Prop :=
  (l.entry c).toRevoke = true ∨ ∃ x p, l.thread x = some p ∧ pcToken x c p = true

/-- A lock for which a client waits is being revoked. -/
def RevokeOk (l : Lock) : Prop := ∀ c, GrantedTo l.server c → waiting l.server ≠ [] → Token l c

/-- One thread takes a step; where the revocation was in its hands, it still is. -/
theorem Token.step {c : Str} (h : Token l c) (hothers : ∀ y, y ≠ x → l'.thread y = l.thread y)
    (hrevoke : (l.entry c).toRevoke = true → Token l' c)
    (hx : ∀ p, l.thread x = some p → pcToken x c p = true → Token l' c) : Token l' c := by
  rcases h with hr | ⟨y, p, hy, hp⟩
  · exact hrevoke hr
  · by_cases hyx : y = x
    · subst hyx
      exact hx p hy hp
    · exact .inr ⟨y, p, (hothers y hyx).trans hy, hp⟩

/-- A step that has nothing to do with revocations. -/
theorem RevokeOk.frame (h : RevokeOk l) (hserver : l'.server = l.server)
    (hothers : ∀ y, y ≠ x → l'.thread y = l.thread y)
    (hrevoke : ∀ c, (l.entry c).toRevoke = true → (l'.entry c).toRevoke = true)
    (hx : ∀ c p, l.thread x = some p → pcToken x c p = false) : RevokeOk l' := by
  intro c hc hne
  rw [hserver] at hc hne
  refine (h c hc hne).step hothers (fun hr => .inl (hrevoke c hr)) fun p hp htok => ?_
  rw [hx c p hp] at htok
  cases htok

theorem toRevoke_setClient {c : Str} (he : (l.entry c).toRevoke = true → e.toRevoke = true)
    (c' : Str) (h : (l.entry c').toRevoke = true) :
    ((l.setClient c e).entry c').toRevoke = true := by
  rw [entry_setClient]
  by_cases hc : c' = c
  · subst hc
    rw [Function.update_self]
    exact he h
  · rwa [Function.update_of_ne hc]

/-! ## A thread in its own client -/

theorem toRevoke_acquire (entry : Option LockClient.lockInfo) (t : ℕ) :
    (LockClient.acquire entry t).1.toRevoke = (entry.getD .zero).toRevoke := by
  have hloop : ∀ e, (LockClient.lock_loop e t).1.toRevoke = e.toRevoke := by
    intro e
    unfold LockClient.lock_loop
    split <;> rfl
  unfold LockClient.acquire
  cases entry with
  | none => rfl
  | some e =>
    simp only
    split
    · split
      · exact hloop _
      · rfl
    · rfl
    · exact hloop _
    · exact hloop _
    · split
      · exact hloop _
      · unfold LockClient.none_loop
        split <;> rfl

theorem revoke_goOn (h : RevokeOk l) {r : LockClient.lockInfo × LockClient.Next}
    (hr : r.1.toRevoke = (l.entry x.1).toRevoke)
    (hx : ∀ c p, l.thread x = some p → pcToken x c p = false) : RevokeOk (l.goOn x r) := by
  have hsame := toRevoke_setClient (l := l) (e := r.1) (c := x.1) fun he => hr.trans he
  obtain ⟨e, next⟩ := r
  refine h.frame (x := x) ?_ (fun y hy => thread_goOn _ hy) (fun c hc => ?_) hx
  · cases next <;> rfl
  · cases next <;> exact hsame c hc

theorem revoke_goOnRetry (h : RevokeOk l) {r : LockClient.lockInfo × Bool}
    (hr : r.1.toRevoke = (l.entry x.1).toRevoke)
    (hx : ∀ c p, l.thread x = some p → pcToken x c p = false) : RevokeOk (l.goOnRetry x r) :=
  h.frame (x := x) rfl (fun _ hy => thread_setThread hy)
    (toRevoke_setClient fun he => hr.trans he) hx

theorem revoke_locked (h : RevokeOk l) (hx : ∀ c p, l.thread x = some p → pcToken x c p = false) :
    RevokeOk ((l.setClient x.1 (LockClient.locked (l.entry x.1) x.2)).acquired x) :=
  h.frame (x := x) rfl (fun _ hy => thread_setThread hy) (toRevoke_setClient id) hx

theorem release_revoke (e : LockClient.lockInfo) (t : ℕ) (hr : e.toRevoke = true) :
    (LockClient.release e t).2 = true ∨ (LockClient.release e t).1.toRevoke = true := by
  unfold LockClient.release
  simp only
  split
  · have hr' : (LockClient.updateLockState e (.user t) .FREE).toRevoke = true := hr
    refine .inl ?_
    rw [if_pos hr']
  · exact .inr hr

/-- The thread that releases last takes the revocation over. -/
theorem revoke_releaseCall (h : RevokeOk l) (hx : l.thread x = none) :
    RevokeOk (l.release x) := by
  intro c hc hne
  refine (h c hc hne).step (x := x) (fun y hy => thread_setThread hy) (fun hr => ?_)
    fun p hp => ?_
  · by_cases hcx : c = x.1
    · subst hcx
      rcases release_revoke (l.entry x.1) x.2 hr with hgive | hkept
      · refine .inr ⟨x, .release .sent, ?_, ?_⟩
        · simp [Lock.release, Lock.setThread, Lock.setHeld, hgive]
        · simp [pcToken]
      · refine .inl ?_
        show ((l.setClient x.1 _).entry x.1).toRevoke = true
        rwa [entry_setClient, Function.update_self]
    · refine .inl ?_
      show ((l.setClient x.1 _).entry c).toRevoke = true
      rwa [entry_setClient, Function.update_of_ne hcx]
  · rw [hx] at hp
    cases hp

theorem revoke_spurious (h : RevokeOk l) {p : Pc} (hs : l.spurious x p = some l') :
    RevokeOk l' := by
  have hset : ∀ e, e.toRevoke = (l.entry x.1).toRevoke → RevokeOk (l.setClient x.1 e) := by
    intro e he c hc hne
    exact (h c hc hne).imp_left (toRevoke_setClient (fun hr => he.trans hr) c)
  cases p with
  | waitFree =>
    cases hs
    exact hset _ rfl
  | waitNone =>
    cases hs
    exact hset _ rfl
  | waitRetry =>
    cases hs
    exact hset _ rfl
  | acquire1 a => cases hs
  | acquire2 a => cases hs
  | release r => cases hs

/-! ## The handlers -/

theorem revoke_handler_revoke (e : LockClient.lockInfo) (self : pthread) :
    (LockClient.revoke_handler e self).2 = true
      ∨ (LockClient.revoke_handler e self).1.toRevoke = true := by
  unfold LockClient.revoke_handler
  simp only
  split
  · exact .inl rfl
  · exact .inr rfl

/-- What a step of a handler does to a revocation that is not in its own hands. -/
structure Handled (l l' : Lock) : Prop where
  server : l'.server = l.server
  thread : l'.thread = l.thread
  toRevoke : ∀ c, (l.entry c).toRevoke = true → (l'.entry c).toRevoke = true

/-- The handler goes on; `p` is the new place of the thread. -/
theorem revoke_handled (h : RevokeOk l) (hh : Handled l l') {p p' : Pc}
    (hx : l.thread x = some p) (hp : ∀ c, pcToken x c p = false) :
    RevokeOk (l'.setThread x (some p')) := by
  refine h.frame (x := x) hh.server (fun y hy => ?_) hh.toRevoke fun c q hq => ?_
  · rw [thread_setThread hy, hh.thread]
  · rw [hx, Option.some.injEq] at hq
    exact hq ▸ hp c

theorem handled_releaseStep {r r' : Release} (hr : r ≠ .sent)
    (hs : releaseStep l r = some (l', r')) : Handled l l' := by
  cases r with
  | sent => exact absurd rfl hr
  | front =>
    obtain ⟨dst, -, heq⟩ := Option.map_eq_some_iff.mp hs
    cases heq
    exact ⟨rfl, rfl, fun _ => id⟩
  | retry dst =>
    cases hs
    refine ⟨rfl, rfl, toRevoke_setClient fun hd => ?_⟩
    unfold LockClient.retry_handler
    simp only
    split <;> exact hd
  | replied => cases hs

theorem toRevoke_released (e : LockClient.lockInfo) (self : pthread) :
    (LockClient.released e self).toRevoke = e.toRevoke := by
  unfold LockClient.released
  simp only
  split <;> rfl

/-- When the server has handled a `release` the lock is not granted. -/
theorem revoke_freed (hserver : l'.server = some (LockServer.release l.server).1) :
    RevokeOk l' := by
  rintro c ⟨e, he, hlocked, -⟩ -
  rw [hserver, Option.some.injEq] at he
  rw [← he, (LockServer.release_spec l.server).1] at hlocked
  cases hlocked

/-- A step of `release` on the server, in a thread that goes from `p` to `p'`. -/
theorem revoke_releaseStep (h : RevokeOk l) {r r' : Release} (hs : releaseStep l r = some (l', r'))
    {p p' : Pc} (hx : l.thread x = some p) (hp : r ≠ .sent → ∀ c, pcToken x c p = false) :
    RevokeOk (l'.setThread x (some p')) := by
  by_cases hr : r = .sent
  · subst hr
    cases hs
    exact revoke_freed (l := l) rfl
  · exact revoke_handled h (handled_releaseStep hr hs) hx (hp hr)

/-- The revocation is in the hands of the thread that has taken the step. -/
theorem token_self {c : Str} {p : Pc} (hp : pcToken x c p = true) :
    Token (l.setThread x (some p)) c :=
  .inr ⟨x, p, Function.update_self .., hp⟩

section Call

variable {q : Acquire → Pc} (hq : ∀ a c, pcToken x c (q a) = acquireToken c a)

include hq

/-- The server handles an `acquire`: the first client that waits begins a revocation, and
so does a grant while clients wait. -/
theorem revoke_served (h : RevokeOk l) (hx : l.thread x = some (q .sent)) {a : Acquire}
    (hs : acquireStep l x .sent = some (l', a)) : RevokeOk (l'.setThread x (some (q a))) := by
  cases hs
  rintro c ⟨e, he, hlocked, hclient⟩ hne
  obtain rfl := Option.some.inj he
  rcases LockServer.acquire_cases l.server x.1 with ⟨-, hid, -, hafter⟩ | ⟨e, hold, heq, -, hafter⟩
  · rcases hafter with hafter | ⟨-, hnil⟩
    · refine token_self ?_
      rw [hafter, hq, ← hclient, hid]
      exact beq_self_eq_true _
    · exact absurd hnil hne
  · rcases hafter with hafter | ⟨hafter, hwait⟩
    · refine token_self ?_
      rw [hafter, hq]
      rfl
    · have hgr : GrantedTo l.server c := by
        rw [heq] at hlocked hclient
        exact ⟨e, hold, hlocked, hclient⟩
      have htok := h c hgr (by rw [hold]; exact hwait)
      refine htok.step (x := x) (fun y hy => thread_setThread hy) .inl fun p hp htok => ?_
      rw [hx, Option.some.injEq] at hp
      rw [← hp, hq] at htok
      cases htok

/-- `revoke_handler` notes the revocation, or begins to give the lock back. -/
theorem revoke_revoked (h : RevokeOk l) {ret : LockServer.status} {dst : Str}
    (hx : l.thread x = some (q (.revoke ret dst .sent))) {a : Acquire}
    (hs : acquireStep l x (.revoke ret dst .sent) = some (l', a)) :
    RevokeOk (l'.setThread x (some (q a))) := by
  cases hs
  intro c hc hne
  by_cases hcd : c = dst
  · subst hcd
    rcases revoke_handler_revoke (l.entry c) (.handler x.1 x.2) with hgive | hkept
    · refine token_self ?_
      simp only [hgive, if_true, hq]
      exact beq_self_eq_true _
    · refine .inl ?_
      show ((l.setClient c _).entry c).toRevoke = true
      rwa [entry_setClient, Function.update_self]
  · refine (h c hc hne).step (x := x) (fun y hy => thread_setThread hy) (fun hr => .inl ?_)
      fun p hp htok => ?_
    · show ((l.setClient dst _).entry c).toRevoke = true
      rwa [entry_setClient, Function.update_of_ne hcd]
    · rw [hx, Option.some.injEq] at hp
      rw [← hp, hq] at htok
      exact absurd (beq_iff_eq.mp htok).symm hcd

theorem revoke_acquireStep (h : RevokeOk l) {a a' : Acquire} (hx : l.thread x = some (q a))
    (hs : acquireStep l x a = some (l', a')) : RevokeOk (l'.setThread x (some (q a'))) := by
  cases a with
  | sent => exact revoke_served hq h hx hs
  | holder =>
    obtain ⟨e, he, heq⟩ := Option.map_eq_some_iff.mp hs
    cases heq
    rintro c ⟨e', he', -, rfl⟩ -
    have hsame : e = e' := Option.some.inj (he.symm.trans he')
    refine token_self ?_
    rw [hq, hsame]
    exact beq_self_eq_true _
  | revoke ret dst r =>
    cases r with
    | sent => exact revoke_revoked hq h hx hs
    | release r =>
      obtain ⟨⟨l'', o⟩, hr, heq⟩ := Option.map_eq_some_iff.mp hs
      by_cases hrep : r = .replied
      · subst hrep
        cases hr
        cases heq
        have hh : Handled l (l.setClient dst
            (LockClient.released (l.entry dst) (.handler x.1 x.2))) := by
          refine ⟨rfl, rfl, toRevoke_setClient fun hd => ?_⟩
          rwa [toRevoke_released]
        refine revoke_handled h hh hx fun c => ?_
        rw [hq]
        rfl
      · rw [revokeStep_release hrep] at hr
        obtain ⟨⟨l₁, r'⟩, hr', heq'⟩ := Option.map_eq_some_iff.mp hr
        cases heq'
        cases heq
        refine revoke_releaseStep h hr' hx fun hsent c => ?_
        rw [hq]
        cases r <;> first | rfl | exact absurd rfl hsent
  | replied ret => cases hs

end Call

/-- **Every critical section of a thread** keeps the revocation. -/
theorem revoke_threadStep (hinv : Inv (view l)) (h : RevokeOk l) {p : Pc}
    (hx : l.thread x = some p) (hs : l.threadStep x p = some l') : RevokeOk l' := by
  have hstage : (view l).stage x = pcStage p := by simp only [view, hx, Option.bind_some]
  -- a place that has nothing to do with a revocation
  have hno : (∀ c, pcToken x c p = false) → ∀ c q, l.thread x = some q → pcToken x c q = false := by
    intro hp c q hq
    rw [hx, Option.some.injEq] at hq
    exact hq ▸ hp c
  cases ran_of_threadStep hs with
  | lock_loop =>
    refine revoke_goOn h ?_ (hno fun _ => rfl)
    unfold LockClient.lock_loop
    split <;> rfl
  | none_loop =>
    refine revoke_goOn h ?_ (hno fun _ => rfl)
    unfold LockClient.none_loop
    split <;> rfl
  | retry_loop =>
    refine revoke_goOnRetry h ?_ (hno fun _ => rfl)
    unfold LockClient.retry_loop
    split <;> rfl
  | maybeRetry =>
    refine revoke_goOnRetry h ?_ (hno fun _ => rfl)
    unfold LockClient.maybeRetry LockClient.retry_loop
    split <;> rfl
  | locked hp =>
    rcases hp with rfl | rfl
    · exact revoke_locked h (hno fun _ => rfl)
    · exact revoke_locked h (hno fun _ => rfl)
  | lost hp => exact absurd (hstage.trans (stage_of_lost hp)) (hinv.retries.lost x)
  | call hq hr =>
    rcases hq with rfl | rfl
    · exact revoke_acquireStep (fun _ _ => rfl) h hx hr
    · exact revoke_acquireStep (fun _ _ => rfl) h hx hr
  | released =>
    refine h.frame (x := x) rfl (fun y hy => thread_setThread hy)
      (toRevoke_setClient fun hd => ?_) (hno fun _ => rfl)
    rwa [toRevoke_released]
  | @release r _ _ hr =>
    refine revoke_releaseStep h hr hx fun hsent c => ?_
    cases r <;> first | rfl | exact absurd rfl hsent

end Yfs.LockRevocation
