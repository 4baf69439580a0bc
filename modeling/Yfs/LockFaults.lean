/-
What `acquire` promises when calls may fail.

A failed `release`, `revoke` or `retry` leaves a lock that is not given back, or a client
that waits for ever, but nobody has a lock that the server has not granted: the handler
of such a call may still run later, and then it does what it would have done in time.
Only a failed `acquire` breaks the promise, because `acquire` returns `OK` all the same.
-/
import Yfs.LockFaultProtocol
import Yfs.LockCallView

set_option autoImplicit false

namespace Yfs.LockFaults

open Text Yfs.LockCalls Yfs.LockFaultProtocol Yfs.LockCallView
open Yfs.LockSystem (Tid)
open Yfs.LockServer (status GrantedTo Served)
open Yfs.LockClient (pthread)
open Yfs.LockProtocol (Stage View)
open Yfs.LockExclusion (update_same Went)

variable {l l' : Lock} {x : Tid} {k n : CallId}

/-! ## The threads -/

/-- What holds as long as no `acquire` has failed. -/
structure Good (l : Lock) : Prop where
  inv : FaultInv (view l) (awaits l)
  linked : Linked l

/-- A thread goes on in `acquire`, from a place at which the server does not know it. -/
theorem good_goOn (h : Good l) (hn : l.call n = none)
    {r : LockClient.lockInfo × LockClient.Next} (hstage : (view l).stage x = none)
    (hw : Went (l.entry x.1) x.2 r.1 r.2) (hr : r.1.toRetry = (l.entry x.1).toRetry) :
    Good (l.goOn x n r) := by
  obtain ⟨e, next⟩ := r
  have hans := h.linked.answered (x := x) fun k hk => absurd hstage (stage_asks hk)
  have hl : Linked (l.setClient x.1 e) := h.linked.of_same rfl rfl
  cases hw with
  | waits hnext hst ho =>
    have hsame : ∀ p, pcStage l.call p = none →
        view ((l.setClient x.1 e).setThread x (some p)) = view l := by
      intro p hp
      rw [view_setThread, view_setClient_same l x.1 e hst ho hr]
      exact View.ext rfl rfl rfl rfl (update_same (hstage.trans hp.symm)) rfl rfl
    rcases hnext with rfl | rfl
    · exact ⟨h.inv.of_eq (hsame .waitFree rfl) rfl, hl.setThread hans (by simp)⟩
    · exact ⟨h.inv.of_eq (hsame .waitNone rfl) rfl, hl.setThread hans (by simp)⟩
  | takes hfree hst ho =>
    have hv : view ((l.setClient x.1 e).acquired x) = { view l with
        state := Function.update (view l).state x.1 .LOCKED
        owner := Function.update (view l).owner x.1 (.user x.2)
        held := Function.update (view l).held x true } := by
      rw [Lock.acquired, view_setHeld, view_setThread, view_setClient]
      exact View.ext rfl (hst ▸ rfl) (ho ▸ rfl) (update_same hr.symm) (update_same hstage) rfl rfl
    have hthread := hl.setThread (x := x) (p := none) hans (by simp)
    exact ⟨(inv_take h.inv x hfree).of_eq hv rfl, hthread.of_same rfl rfl⟩
  | asks hnone hst ho =>
    have hv : view ((l.setClient x.1 e).ask x n .acquire1) = { view l with
        state := Function.update (view l).state x.1 .ACQUIRING
        owner := Function.update (view l).owner x.1 (.user x.2)
        stage := Function.update (view l).stage x (some .asked) } := by
      rw [view_ask hl hn (fun _ => rfl), view_setClient]
      exact View.ext rfl (hst ▸ rfl) (ho ▸ rfl) (update_same hr.symm) rfl rfl rfl
    exact ⟨(inv_ask h.inv x hnone).of_eq hv (awaits_ask (l := l.setClient x.1 e) hn _),
      hl.ask hn (.inl rfl) hans⟩

/-- A thread goes on after the server has told it to retry. -/
theorem good_goOnRetry (h : Good l) (hn : l.call n = none) {r : LockClient.lockInfo × Bool}
    (hstage : (view l).stage x = some .told)
    (hans : ∀ k, Asks l x k → ∃ ret, l.call k = some (.acquire x (.replied ret)))
    (hr : r.1.state = (l.entry x.1).state ∧ r.1.threadId = (l.entry x.1).threadId
      ∧ r.2 = (l.entry x.1).toRetry ∧ r.1.toRetry = false) : Good (l.goOnRetry x n r) := by
  obtain ⟨e, b⟩ := r
  obtain ⟨hst, ho, hb, he⟩ := hr
  have hans := h.linked.answered hans
  have hl : Linked (l.setClient x.1 e) := h.linked.of_same rfl rfl
  cases b with
  | true =>
    have hv : view ((l.setClient x.1 e).ask x n .acquire2) = { view l with
        toRetry := Function.update (view l).toRetry x.1 false
        stage := Function.update (view l).stage x (some .again) } := by
      rw [view_ask hl hn (fun _ => rfl), view_setClient]
      exact View.ext rfl (update_same hst.symm) (update_same ho.symm) (he ▸ rfl) rfl rfl rfl
    exact ⟨(inv_retry h.inv x hstage hb.symm).of_eq hv
      (awaits_ask (l := l.setClient x.1 e) hn _), hl.ask hn (.inr rfl) hans⟩
  | false =>
    have hv : view ((l.setClient x.1 e).setThread x (some .waitRetry)) = view l := by
      rw [view_setThread, view_setClient_same l x.1 e hst ho (he.trans hb)]
      exact View.ext rfl rfl rfl rfl (update_same hstage) rfl rfl
    exact ⟨h.inv.of_eq hv rfl, hl.setThread hans (by simp)⟩

/-- The answer `OK` arrives. -/
theorem good_locked (h : Good l) (hstage : (view l).stage x = some .granted)
    (hans : ∀ k, Asks l x k → ∃ ret, l.call k = some (.acquire x (.replied ret))) :
    Good ((l.setClient x.1 (LockClient.locked (l.entry x.1) x.2)).acquired x) := by
  have hv : view ((l.setClient x.1 (LockClient.locked (l.entry x.1) x.2)).acquired x)
      = { view l with
        state := Function.update (view l).state x.1 .LOCKED
        owner := Function.update (view l).owner x.1 (.user x.2)
        stage := Function.update (view l).stage x none
        held := Function.update (view l).held x true } := by
    rw [Lock.acquired, view_setHeld, view_setThread, view_setClient]
    exact View.ext rfl rfl rfl (Function.update_eq_self ..) rfl rfl rfl
  have hthread := h.linked.setThread (x := x) (p := none) (h.linked.answered hans) (by simp)
  exact ⟨(inv_lock h.inv x hstage).of_eq hv rfl, hthread.of_same rfl rfl⟩

/-- **`release` is called.** -/
theorem good_release (h : Good l) (hn : l.call n = none) (hx : l.thread x = none)
    (hheld : l.held x = true) : Good (l.release x n) := by
  obtain ⟨ho, hr, hst⟩ := LockExclusion.release_cases (l.entry x.1) x.2
  unfold Lock.release
  generalize LockClient.release (l.entry x.1) x.2 = r at ho hr hst
  obtain ⟨e, b⟩ := r
  have hl : Linked ((l.setClient x.1 e).setHeld x false) := h.linked.of_same rfl rfl
  cases b with
  | true =>
    have hv : view ((((l.setClient x.1 e).setHeld x false).setThread x
        (some (.release n))).setCall n (.release x.1 (.thread x) true .sent)) = { view l with
          state := Function.update (view l).state x.1 .RELEASING
          owner := Function.update (view l).owner x.1 (.user x.2)
          held := Function.update (view l).held x false
          giving := Function.update (view l).giving n
            (some ⟨x.1, .handler n.1 n.2, .sent⟩) } := by
      rw [view_call_release hl hn hx, view_setHeld, view_setClient]
      exact View.ext rfl (hst ▸ rfl) (ho ▸ rfl) (update_same hr.symm) rfl rfl rfl
    refine ⟨(inv_giveBack h.inv x.1 _ _ _ (.inr (h.inv.locked x hheld).1) fun y hy => ?_).of_eq hv
      (awaits_setCall ..), hl.release hn hx⟩
    -- only one thread of the client held the lock
    have hyx : y ≠ x := by
      rintro rfl
      rw [Function.update_self] at hy
      cases hy
    rw [Function.update_of_ne hyx] at hy
    exact ⟨hy, fun hc => hyx (h.inv.held_unique hy hheld hc)⟩
  | false =>
    have hv : view ((l.setClient x.1 e).setHeld x false) = { view l with
        state := Function.update (view l).state x.1 .FREE
        owner := Function.update (view l).owner x.1 (.user x.2)
        held := Function.update (view l).held x false } := by
      rw [view_setHeld, view_setClient]
      exact View.ext rfl (hst ▸ rfl) (ho ▸ rfl) (update_same hr.symm) rfl rfl rfl
    exact ⟨(inv_leave h.inv x hheld).of_eq hv rfl, hl⟩

/-- A thread learns that its `release` is done, or that it has failed. -/
theorem good_unwait_thread (h : Linked l) (hx : l.thread x = some (.release k))
    (hinv : FaultInv (view l) (Function.update (awaits l) k none)) :
    Good ((l.setThread x none).unwait k) := by
  obtain ⟨pc, hk⟩ := h.gives x k hx
  rw [unwait_eq (l := l.setThread x none) hk]
  exact ⟨hinv.of_eq (view_unwait_thread h hx hk) (awaits_setCall ..), h.unwait_thread hx pc⟩

/-- A handler learns that its `release` is done, or that it has failed. -/
theorem good_unwait_handler (h : Linked l) {c : Str} {m : CallId}
    (hk : l.call k = some (.revoke c (.releasing m)))
    (hinv : FaultInv (view l) (Function.update (awaits l) m none)) :
    Good ((l.setCall k (.revoke c .returned)).unwait m) := by
  obtain ⟨pc, hm⟩ := h.revokes k c m hk
  have hne : m ≠ k := by
    rintro rfl
    rw [hk] at hm
    cases hm
  rw [unwait_eq (l := l.setCall k (.revoke c .returned)) ((Function.update_of_ne hne _ _).trans hm)]
  refine ⟨hinv.of_eq (view_unwait_handler h hk hm) ?_, h.unwait_handler hk pc⟩
  rw [awaits_setCall, awaits_setCall_same (.revoke c .returned)]
  · rfl
  · simp only [awaits, hk, Option.bind_some, callAwaited]

/-- The answer of a `release` sets the state of the client. -/
theorem inv_released (h : Good l) {c : Str} {b : Caller} {pc : ReleasePc}
    (hk : l.call k = some (.release c b true pc)) (hrep : l.replied k = true) (self : pthread) :
    FaultInv (view (l.setClient c (LockClient.released (l.entry c) self)))
      (Function.update (awaits l) k none) := by
  obtain ⟨hst, ho, hr⟩ := LockExclusion.released_entry (l.entry c) self
  obtain rfl := replied_place hk hrep
  have hawaits : awaits l k = some c := by simp only [awaits, hk, Option.bind_some, callAwaited]
  refine (inv_done h.inv k c self hawaits fun g hg => ?_).of_eq ?_ rfl
  · rw [giving_release hk, Option.some.injEq] at hg
    rw [← hg]
    simp [place]
  · rw [view_setClient, hst, ho, hr]
    exact View.ext rfl rfl rfl (Function.update_eq_self ..) rfl rfl rfl

/-! ## The handlers -/

/-- A change of the entry that does not matter. -/
theorem good_setClient_same (h : Good l) (c : Str) {e : LockClient.lockInfo}
    (hstate : e.state = (l.entry c).state) (howner : e.threadId = (l.entry c).threadId)
    (hretry : e.toRetry = (l.entry c).toRetry) : Good (l.setClient c e) :=
  ⟨h.inv.of_eq (view_setClient_same l c e hstate howner hretry) rfl, h.linked.of_same rfl rfl⟩

/-- A `revoke` that does not matter for the view. -/
theorem good_setCall_same (h : Good l) (call : Call) (hk : ∀ x pc, l.call k ≠ some (.acquire x pc))
    (hk' : ∀ c b w pc, l.call k ≠ some (.release c b w pc)) (hcall : ∀ x pc, call ≠ .acquire x pc)
    (hcall' : ∀ c m, call ≠ .revoke c (.releasing m))
    (hgiving : (view l).giving k = callGiving k call) (hawaits : awaits l k = callAwaited call) :
    Good (l.setCall k call) :=
  ⟨h.inv.of_eq (view_setCall_same call (h.linked.not_asks hk) hgiving)
    (awaits_setCall_same call hawaits), h.linked.setCall_other hk hk' hcall hcall'⟩

/-- An `acquire` goes on without a change that matters. -/
theorem good_setCall_acquire (h : Good l) {pc pc' : AcquirePc}
    (hk : l.call k = some (.acquire x pc)) (hpc : ∀ ret, pc ≠ .replied ret)
    (hsame : ∀ before onRetry, acquireStage before onRetry pc' = acquireStage before onRetry pc) :
    Good (l.setCall k (.acquire x pc')) := by
  obtain ⟨before, onRetry, -, hstage, hv⟩ :=
    view_setCall_acquire h.linked hk (h.linked.waits x k pc hk hpc)
  refine ⟨h.inv.of_eq ?_ (awaits_setCall_same _ ?_), h.linked.setCall_acquire hk hpc⟩
  · rw [hv pc', hsame, update_same hstage]
  · simp only [awaits, hk, Option.bind_some, callAwaited]

/-- **The server handles an `acquire`.** -/
theorem good_serve (h : Good l) {pc : AcquirePc} (hk : l.call k = some (.acquire x .sent))
    {e : LockServer.lockInfo} {after : LockServer.After} (hserved : Served l.server x.1 e after)
    (hpc : ∀ before onRetry, Kind before onRetry →
      acquireStage before onRetry pc = before.served after) :
    Good ((l.setServer e).setCall k (.acquire x pc)) := by
  have hl : Linked (l.setServer e) := h.linked.of_same rfl rfl
  have hsent : ∀ ret, AcquirePc.sent ≠ .replied ret := nofun
  obtain ⟨before, onRetry, hkind, hstage, hv⟩ :=
    view_setCall_acquire hl hk (hl.waits x k .sent hk hsent)
  refine ⟨(inv_serve h.inv x before e after hstage (hkind.imp And.left And.left) hserved).of_eq ?_
    (awaits_setCall_same (l := l.setServer e) _ ?_), hl.setCall_acquire hk hsent⟩
  · rw [hv pc, hpc before onRetry hkind]
    rfl
  · change (l.call k).bind callAwaited = none
    simp only [hk, Option.bind_some, callAwaited]

/-- A call of `revoke` is made. -/
theorem good_new_revoke (h : Good l) (hn : l.call n = none) (c : Str) :
    Good (l.setCall n (.revoke c .sent)) :=
  good_setCall_same h (.revoke c .sent) (by simp [hn]) (by simp [hn]) (by simp) (by simp)
    (giving_new hn) (awaits_new hn)

/-- **A step of `acquire` on the server.** -/
theorem good_acquireStep (h : Good l) (hn : l.call n = none) {pc : AcquirePc}
    (hk : l.call k = some (.acquire x pc)) (hs : l.callStep k n (.acquire x pc) = some l') :
    Good l' := by
  cases pc with
  | sent =>
    have hserved := LockServer.acquire_served l.server x.1
    simp only [Lock.callStep] at hs
    generalize LockServer.acquire l.server x.1 = r at hserved hs
    obtain ⟨e, after⟩ := r
    cases after with
    | reply ret =>
      cases hs
      refine good_serve h hk hserved ?_
      rintro before onRetry (⟨rfl, rfl⟩ | ⟨rfl, rfl⟩) <;> cases ret <;> rfl
    | revokeHolder =>
      cases hs
      refine good_serve h hk hserved ?_
      rintro before onRetry (⟨rfl, rfl⟩ | ⟨rfl, rfl⟩) <;> rfl
    | revokeCaller =>
      cases hs
      refine good_new_revoke (good_serve h hk hserved ?_)
        (call_setCall_new (l := l.setServer e) hn hk _) x.1
      rintro before onRetry (⟨rfl, rfl⟩ | ⟨rfl, rfl⟩) <;> rfl
  | holder =>
    obtain ⟨e, -, rfl⟩ := Option.map_eq_some_iff.mp hs
    split
    · exact good_setCall_acquire h hk nofun fun _ _ => rfl
    · have hgood : Good (l.setCall k (.acquire x (.revoking .RETRY n))) :=
        good_setCall_acquire h hk nofun fun _ _ => rfl
      exact good_new_revoke hgood (call_setCall_new hn hk _) e.clientId
  | revoking ret m =>
    obtain ⟨-, hs⟩ := Option.ite_none_right_eq_some.mp hs
    cases hs
    exact good_setCall_acquire h hk nofun fun _ _ => rfl
  | replied ret => cases hs

/-- A `release` is at another place. -/
theorem good_setCall_release (h : Linked l) {c : Str} {b : Caller} {w : Bool}
    {pc pc' : ReleasePc} (hk : l.call k = some (.release c b w pc))
    (hinv : FaultInv { view l with
      giving := Function.update (view l).giving k (callGiving k (.release c b w pc')) }
      (awaits l)) :
    Good (l.setCall k (.release c b w pc')) := by
  refine ⟨hinv.of_eq (view_setCall _ (not_asks_release h hk)) (awaits_setCall_same _ ?_),
    h.setCall_release hk⟩
  simp only [awaits, hk, Option.bind_some]
  cases w <;> rfl

/-- A `release` goes on after its `retry`. -/
theorem good_retried (h : Good l) {c : Str} {b : Caller} {w : Bool} {m : CallId}
    (hk : l.call k = some (.release c b w (.retrying m))) :
    Good (l.setCall k (.release c b w .replied)) := by
  have hgiving := giving_release hk
  refine good_setCall_release h.linked hk (h.inv.of_eq ?_ rfl)
  exact View.ext rfl rfl rfl rfl rfl (update_same hgiving) rfl

/-- **A step of `release` on the server.** -/
theorem good_releaseStep (h : Good l) (hn : l.call n = none) {c : Str} {b : Caller} {w : Bool}
    {pc : ReleasePc} (hk : l.call k = some (.release c b w pc))
    (hs : l.callStep k n (.release c b w pc) = some l') : Good l' := by
  cases pc with
  | sent =>
    cases hs
    have hl : Linked (l.setServer (LockServer.release l.server).1) := h.linked.of_same rfl rfl
    refine good_setCall_release hl hk ((inv_free h.inv k _ (giving_release hk) rfl).of_eq ?_ rfl)
    refine View.ext rfl rfl rfl rfl rfl (congrArg (Function.update (view l).giving k) ?_) rfl
    change callGiving k (.release c b w (if (LockServer.release l.server).2 then _ else _))
      = some ⟨c, .handler k.1 k.2, if (LockServer.release l.server).2 then _ else _⟩
    split <;> rfl
  | front =>
    obtain ⟨dst, hdst, rfl⟩ := Option.map_eq_some_iff.mp hs
    have hn' := call_setCall_new hn hk (.release c b w (.retrying n))
    have hl : Linked (l.setCall k (.release c b w (.retrying n))) := h.linked.setCall_release hk
    refine ⟨(inv_front h.inv k n _ ⟨c, .handler k.1 k.2, .replied⟩ dst dst (.handler n.1 n.2)
      (giving_release hk) rfl rfl hdst).of_eq ?_ ?_, ?_⟩
    · rw [view_setCall _ (hl.not_asks_new hn'), view_setCall _ (not_asks_release h.linked hk)]
      rfl
    · rw [awaits_setCall_same _ (awaits_new hn'), awaits_setCall_same]
      simp only [awaits, hk, Option.bind_some]
      cases w <;> rfl
    · exact hl.setCall_other (by simp [hn']) (by simp [hn']) (by simp) (by simp)
  | retrying m =>
    obtain ⟨-, hs⟩ := Option.ite_none_right_eq_some.mp hs
    cases hs
    exact good_retried h hk
  | replied => cases hs

theorem giving_revoke {c : Str} {pc : RevokePc} (hk : l.call k = some (.revoke c pc)) :
    (view l).giving k = none := by
  simp only [view, hk, Option.bind_some, callGiving]

theorem awaits_revoke {c : Str} {pc : RevokePc} (hk : l.call k = some (.revoke c pc)) :
    awaits l k = none := by
  simp only [awaits, hk, Option.bind_some, callAwaited]

/-- A handler starts to give a free lock back. -/
theorem good_revoked (h : Good l) (hn : l.call n = none) {c : Str}
    (hk : l.call k = some (.revoke c .sent)) {e : LockClient.lockInfo}
    (hfree : (l.entry c).state = .FREE) (hst : e.state = .RELEASING)
    (ho : e.threadId = .handler k.1 k.2) (hr : e.toRetry = (l.entry c).toRetry) :
    Good (((l.setClient c e).setCall k (.revoke c (.releasing n))).setCall n
      (.release c (.handler k) true .sent)) := by
  have hl : Linked (l.setClient c e) := h.linked.of_same rfl rfl
  have hnot : ∀ x, ¬Asks (l.setClient c e) x k := hl.not_asks (by simp [Lock.setClient, hk])
  have hnot' : ∀ x, ¬Asks ((l.setClient c e).setCall k (.revoke c (.releasing n))) x n :=
    fun x hx => hl.not_asks_new hn x hx
  -- nobody holds a free lock
  have hheld : ∀ y, (view l).held y = true → (view l).held y = true ∧ y.1 ≠ c := by
    refine fun y hy => ⟨hy, fun hc => ?_⟩
    have hlocked := (h.inv.locked y hy).1
    rw [hc] at hlocked
    cases hfree.symm.trans hlocked
  refine ⟨(inv_giveBack h.inv (k := n) c (.handler n.1 n.2) (.handler k.1 k.2) (view l).held
    (.inl hfree) hheld).of_eq ?_ ?_, hl.revoke hn hk⟩
  · rw [view_setCall _ hnot', view_setCall_same (.revoke c (.releasing n)) hnot (giving_revoke hk),
      view_setClient]
    exact View.ext rfl (hst ▸ rfl) (ho ▸ rfl) (update_same hr.symm) rfl rfl rfl
  · rw [awaits_setCall, awaits_setCall_same (l := l.setClient c e) (.revoke c (.releasing n))
      (awaits_revoke hk)]
    rfl

/-- **A step of `revoke_handler`.** -/
theorem good_revokeStep (h : Good l) (hn : l.call n = none) {c : Str} {pc : RevokePc}
    (hk : l.call k = some (.revoke c pc)) (hs : l.callStep k n (.revoke c pc) = some l') :
    Good l' := by
  cases pc with
  | sent =>
    simp only [Lock.callStep] at hs
    have hcases := LockExclusion.revoke_handler_cases (l.entry c) (.handler k.1 k.2)
    generalize LockClient.revoke_handler (l.entry c) (.handler k.1 k.2) = r at hs hcases
    obtain ⟨e, b⟩ := r
    rcases hcases with ⟨hfree, hb, hst, ho, hr⟩ | ⟨hb, hst, ho, hr⟩
    · obtain rfl : b = true := hb
      cases hs
      exact good_revoked h hn hk hfree hst ho hr
    · obtain rfl : b = false := hb
      cases hs
      have hsame := good_setClient_same h c hst ho hr
      exact good_setCall_same hsame (.revoke c .returned) (by simp [Lock.setClient, hk])
        (by simp [Lock.setClient, hk]) (by simp) (by simp) (giving_revoke hk) (awaits_revoke hk)
  | releasing m =>
    obtain ⟨hrep, hs⟩ := Option.ite_none_right_eq_some.mp hs
    cases hs
    obtain ⟨pc, hm⟩ := h.linked.revokes k c m hk
    have hl : Linked (l.setClient c (LockClient.released (l.entry c) (.handler k.1 k.2))) :=
      h.linked.of_same rfl rfl
    exact good_unwait_handler hl hk (inv_released h hm hrep _)
  | returned => cases hs

/-- **A step of `retry_handler`.** -/
theorem good_retryStep (h : Good l) {c : Str} {pc : RetryPc} (hk : l.call k = some (.retry c pc))
    (hs : l.callStep k n (.retry c pc) = some l') : Good l' := by
  cases pc with
  | sent =>
    cases hs
    obtain ⟨hst, ho, hr⟩ := LockExclusion.retry_handler_entry (l.entry c)
    generalize LockClient.retry_handler (l.entry c) = e at hst ho hr
    have hl : Linked (l.setClient c e) := h.linked.of_same rfl rfl
    have hnot : ∀ x, ¬Asks (l.setClient c e) x k := hl.not_asks (by simp [Lock.setClient, hk])
    have hgiving : (view l).giving k = some ⟨c, .handler k.1 k.2, .retry c⟩ := by
      simp only [view, hk, Option.bind_some, callGiving]
    refine ⟨(inv_tell h.inv k _ c hgiving rfl).of_eq ?_
      (awaits_setCall_same (l := l.setClient c e) _ ?_), ?_⟩
    · rw [view_setCall _ hnot, view_setClient]
      exact View.ext rfl (update_same hst.symm) (update_same ho.symm) (hr ▸ rfl) rfl rfl rfl
    · change (l.call k).bind callAwaited = none
      simp only [hk, Option.bind_some, callAwaited]
    · exact hl.setCall_other (by simp [Lock.setClient, hk]) (by simp [Lock.setClient, hk])
        (by simp) (by simp)
  | returned => cases hs

theorem good_callStep (h : Good l) (hn : l.call n = none) {call : Call}
    (hk : l.call k = some call) (hs : l.callStep k n call = some l') : Good l' := by
  cases call with
  | acquire x pc => exact good_acquireStep h hn hk hs
  | release c b w pc => exact good_releaseStep h hn hk hs
  | revoke c pc => exact good_revokeStep h hn hk hs
  | retry c pc => exact good_retryStep h hk hs

/-- **A failed call of a handler does no harm.** -/
theorem good_callFails (h : Good l) {call : Call} (hk : l.call k = some call)
    (hs : l.callFails k call = some l') : Good l' := by
  unfold Lock.callFails at hs
  split at hs
  · next x ret m =>
    cases hs
    refine good_setCall_acquire h hk nofun fun before onRetry => ?_
    cases ret <;> rfl
  · cases hs
    exact good_retried h hk
  · cases hs
    exact good_unwait_handler h.linked hk (inv_drop h.inv _)
  · cases hs

/-! ## Steps -/

/-- **A critical section of a thread**, unless its `acquire` has failed. -/
theorem good_threadStep (h : Good l) (hn : l.call n = none) {p : Pc} (hx : l.thread x = some p)
    (hs : l.threadStep x n p = some l') (hok : l'.failed = false) : Good l' := by
  have hstage : (view l).stage x = pcStage l.call p := by simp only [view, hx, Option.bind_some]
  have hans : ∀ k ret, Asks l x k → l.answer k = some ret →
      ∀ k', Asks l x k' → ∃ ret, l.call k' = some (.acquire x (.replied ret)) := by
    intro k ret hk hret k' hk'
    rw [hk.unique hk']
    exact ⟨ret, h.linked.answer hk hret⟩
  cases p with
  | waitFree =>
    obtain ⟨-, hs⟩ := Option.ite_none_right_eq_some.mp hs
    cases hs
    obtain ⟨hw, hr⟩ := LockExclusion.went_lock_loop (l.entry x.1) x.2
    exact good_goOn h hn hstage hw hr
  | waitNone =>
    obtain ⟨-, hs⟩ := Option.ite_none_right_eq_some.mp hs
    cases hs
    obtain ⟨hw, hr⟩ := LockExclusion.went_none_loop (l.entry x.1) x.2
    exact good_goOn h hn hstage hw hr
  | waitRetry =>
    obtain ⟨-, hs⟩ := Option.ite_none_right_eq_some.mp hs
    cases hs
    refine good_goOnRetry h hn hstage ?_ (LockExclusion.retry_loop_spec _ _)
    rintro k (hk | hk) <;> rw [hx] at hk <;> cases hk
  | acquire1 k =>
    obtain ⟨ret, hret, rfl⟩ := Option.map_eq_some_iff.mp hs
    have hk : Asks l x k := .inl hx
    rw [pcStage, h.linked.answer hk hret] at hstage
    cases ret with
    | OK => exact good_locked h hstage (hans k _ hk hret)
    | RETRY =>
      exact good_goOnRetry h hn hstage (hans k _ hk hret) (LockExclusion.maybeRetry_spec _ _)
    | RPCERR => cases hok
  | acquire2 k =>
    obtain ⟨ret, hret, rfl⟩ := Option.map_eq_some_iff.mp hs
    have hk : Asks l x k := .inr hx
    rw [pcStage, h.linked.answer hk hret] at hstage
    cases ret with
    | OK => exact good_locked h hstage (hans k _ hk hret)
    | RETRY => cases hok
    | RPCERR => cases hok
  | release k =>
    obtain ⟨hrep, hs⟩ := Option.ite_none_right_eq_some.mp hs
    cases hs
    obtain ⟨pc, hk⟩ := h.linked.gives x k hx
    have hl : Linked (l.setClient x.1 (LockClient.released (l.entry x.1) (.user x.2))) :=
      h.linked.of_same rfl rfl
    exact good_unwait_thread hl hx (inv_released h hk hrep _)

/-- A failed `release` does no harm, and a failed `acquire` is noted. -/
theorem good_threadFails (h : Good l) {p : Pc} (hx : l.thread x = some p)
    (hs : l.threadFails x p = some l') (hok : l'.failed = false) : Good l' := by
  unfold Lock.threadFails at hs
  split at hs
  · cases hs
    cases hok
  · cases hs
    cases hok
  · cases hs
    exact good_unwait_thread h.linked hx (inv_drop h.inv _)
  · cases hs

theorem good_spurious (h : Good l) {p : Pc} (hs : l.spurious x p = some l') : Good l' := by
  unfold Lock.spurious at hs
  split at hs
  · cases hs
    exact good_setClient_same h x.1 rfl rfl rfl
  · cases hs
    exact good_setClient_same h x.1 rfl rfl rfl
  · cases hs
    exact good_setClient_same h x.1 rfl rfl rfl
  · cases hs

/-- **One step** keeps the invariant, unless an `acquire` has failed. -/
theorem good_step (h : Good l) {a : Act} (hs : step l a = some l') (hok : l'.failed = false) :
    Good l' := by
  cases a with
  | acquire x n =>
    obtain ⟨⟨hx, hn⟩, hs⟩ := Option.ite_none_right_eq_some.mp hs
    cases hs
    have hstage : (view l).stage x = none := by simp only [view, hx, Option.bind_none]
    obtain ⟨hw, hr⟩ := LockExclusion.went_acquire (l.client x.1) x.2
    exact good_goOn h hn hstage hw hr
  | release x n =>
    obtain ⟨⟨hx, hheld, hn⟩, hs⟩ := Option.ite_none_right_eq_some.mp hs
    cases hs
    exact good_release h hn hx hheld
  | thread x n =>
    obtain ⟨hn, hs⟩ := Option.ite_none_right_eq_some.mp hs
    obtain ⟨p, hp, hs⟩ := Option.bind_eq_some_iff.mp hs
    exact good_threadStep h hn hp hs hok
  | spurious x =>
    obtain ⟨p, -, hs⟩ := Option.bind_eq_some_iff.mp hs
    exact good_spurious h hs
  | call k n =>
    obtain ⟨hn, hs⟩ := Option.ite_none_right_eq_some.mp hs
    obtain ⟨call, hk, hs⟩ := Option.bind_eq_some_iff.mp hs
    exact good_callStep h hn hk hs
  | threadFails x =>
    obtain ⟨p, hp, hs⟩ := Option.bind_eq_some_iff.mp hs
    exact good_threadFails h hp hs hok
  | callFails k =>
    obtain ⟨call, hk, hs⟩ := Option.bind_eq_some_iff.mp hs
    exact good_callFails h hk hs

theorem good_new : Good .new := by
  refine ⟨⟨nofun, nofun, ?_, ?_, ⟨?_, nofun, nofun⟩,
    ⟨nofun, List.nodup_nil, nofun, nofun, ?_, nofun, nofun⟩⟩, ⟨?_, nofun, nofun, nofun⟩⟩
  · rintro k c (h | ⟨g, h, -⟩) <;> cases h
  · rintro k k' c (h | ⟨g, h, -⟩) <;> cases h
  · rintro c (h | h) <;> cases h
  · rintro k ⟨g, h, -⟩
    cases h
  · rintro x k (h | h) <;> cases h

/-! ## Where an `acquire` fails -/

theorem failed_unwait (l : Lock) (k : CallId) : (l.unwait k).failed = l.failed := by
  unfold Lock.unwait
  split <;> rfl

theorem failed_goOn (l : Lock) (x : Tid) (n : CallId)
    (r : LockClient.lockInfo × LockClient.Next) : (l.goOn x n r).failed = l.failed := by
  simp only [Lock.goOn]
  split <;> rfl

theorem failed_goOnRetry (l : Lock) (x : Tid) (n : CallId) (r : LockClient.lockInfo × Bool) :
    (l.goOnRetry x n r).failed = l.failed := by
  simp only [Lock.goOnRetry]
  split <;> rfl

theorem failed_release (l : Lock) (x : Tid) (n : CallId) :
    (l.release x n).failed = l.failed := by
  simp only [Lock.release]
  split <;> rfl

theorem failed_callStep {call : Call} (hs : l.callStep k n call = some l') :
    l'.failed = l.failed := by
  unfold Lock.callStep at hs
  split at hs
  · simp only at hs
    split at hs <;> cases hs <;> rfl
  · obtain ⟨e, -, rfl⟩ := Option.map_eq_some_iff.mp hs
    split <;> rfl
  · obtain ⟨-, hs⟩ := Option.ite_none_right_eq_some.mp hs
    cases hs
    rfl
  · cases hs
  · cases hs
    rfl
  · obtain ⟨dst, -, rfl⟩ := Option.map_eq_some_iff.mp hs
    rfl
  · obtain ⟨-, hs⟩ := Option.ite_none_right_eq_some.mp hs
    cases hs
    rfl
  · cases hs
  · simp only at hs
    split at hs <;> cases hs <;> rfl
  · obtain ⟨-, hs⟩ := Option.ite_none_right_eq_some.mp hs
    cases hs
    exact failed_unwait ..
  · cases hs
  · cases hs
    rfl
  · cases hs

theorem failed_callFails {call : Call} (hs : l.callFails k call = some l') :
    l'.failed = l.failed := by
  unfold Lock.callFails at hs
  split at hs
  · cases hs
    rfl
  · cases hs
    rfl
  · cases hs
    exact failed_unwait ..
  · cases hs

/-- `acquire` returns `OK` to `x` although its call has failed. -/
def Failing (l l' : Lock) : Prop := ∃ x k, Asks l x k ∧ l' = l.fails x

theorem failed_threadStep {p : Pc} (hx : l.thread x = some p)
    (hs : l.threadStep x n p = some l') : l'.failed = l.failed ∨ Failing l l' := by
  cases p with
  | waitFree =>
    obtain ⟨-, hs⟩ := Option.ite_none_right_eq_some.mp hs
    cases hs
    exact .inl (failed_goOn ..)
  | waitNone =>
    obtain ⟨-, hs⟩ := Option.ite_none_right_eq_some.mp hs
    cases hs
    exact .inl (failed_goOn ..)
  | waitRetry =>
    obtain ⟨-, hs⟩ := Option.ite_none_right_eq_some.mp hs
    cases hs
    exact .inl (failed_goOnRetry ..)
  | acquire1 k =>
    obtain ⟨ret, -, rfl⟩ := Option.map_eq_some_iff.mp hs
    cases ret with
    | OK => exact .inl rfl
    | RETRY => exact .inl (failed_goOnRetry ..)
    | RPCERR => exact .inr ⟨x, k, .inl hx, rfl⟩
  | acquire2 k =>
    obtain ⟨ret, -, rfl⟩ := Option.map_eq_some_iff.mp hs
    cases ret with
    | OK => exact .inl rfl
    | RETRY => exact .inr ⟨x, k, .inr hx, rfl⟩
    | RPCERR => exact .inr ⟨x, k, .inr hx, rfl⟩
  | release k =>
    obtain ⟨-, hs⟩ := Option.ite_none_right_eq_some.mp hs
    cases hs
    exact .inl (failed_unwait ..)

theorem failed_threadFails {p : Pc} (hx : l.thread x = some p)
    (hs : l.threadFails x p = some l') : l'.failed = l.failed ∨ Failing l l' := by
  cases p with
  | acquire1 k =>
    cases hs
    exact .inr ⟨x, k, .inl hx, rfl⟩
  | acquire2 k =>
    cases hs
    exact .inr ⟨x, k, .inr hx, rfl⟩
  | release k =>
    cases hs
    exact .inl (failed_unwait ..)
  | waitFree => cases hs
  | waitNone => cases hs
  | waitRetry => cases hs

theorem failed_spurious {p : Pc} (hs : l.spurious x p = some l') : l'.failed = l.failed := by
  unfold Lock.spurious at hs
  split at hs <;> cases hs <;> rfl

/-- A failure is noted where a thread returns from a failed call, and nowhere else. -/
theorem failed_step {a : Act} (hs : step l a = some l') : l'.failed = l.failed ∨ Failing l l' := by
  cases a with
  | acquire x n =>
    obtain ⟨-, hs⟩ := Option.ite_none_right_eq_some.mp hs
    cases hs
    exact .inl (failed_goOn ..)
  | release x n =>
    obtain ⟨-, hs⟩ := Option.ite_none_right_eq_some.mp hs
    cases hs
    exact .inl (failed_release ..)
  | thread x n =>
    obtain ⟨-, hs⟩ := Option.ite_none_right_eq_some.mp hs
    obtain ⟨p, hp, hs⟩ := Option.bind_eq_some_iff.mp hs
    exact failed_threadStep hp hs
  | spurious x =>
    obtain ⟨p, -, hs⟩ := Option.bind_eq_some_iff.mp hs
    exact .inl (failed_spurious hs)
  | call k n =>
    obtain ⟨-, hs⟩ := Option.ite_none_right_eq_some.mp hs
    obtain ⟨call, -, hs⟩ := Option.bind_eq_some_iff.mp hs
    exact .inl (failed_callStep hs)
  | threadFails x =>
    obtain ⟨p, hp, hs⟩ := Option.bind_eq_some_iff.mp hs
    exact failed_threadFails hp hs
  | callFails k =>
    obtain ⟨call, -, hs⟩ := Option.bind_eq_some_iff.mp hs
    exact .inl (failed_callFails hs)

/-- What has failed stays so. -/
theorem failed_run {acts : List Act} (hrun : Steps.run step l acts = some l')
    (hf : l.failed = true) : l'.failed = true := by
  refine Steps.run_inv_all (P := fun l => l.failed = true) (fun s a s' h hs => ?_) hf hrun
  rcases failed_step hs with heq | ⟨x, k, -, rfl⟩
  · exact heq.trans h
  · rfl

/-! ## What `acquire` promises -/

/-- The entry of the client is `LOCKED` with thread `x` as its owner, and the server has
granted the lock to the client. -/
def HasLock (l : Lock) (x : Tid) : Prop :=
  (l.entry x.1).state = .LOCKED ∧ (l.entry x.1).threadId = .user x.2 ∧ GrantedTo l.server x.1

/-- A thread to which this action returns `OK` from `acquire` has the lock. -/
def ReturnsLocked (l : Lock) (a : Act) : Prop :=
  ∀ l', step l a = some l' → ∀ x, l.held x = false → l'.held x = true → HasLock l' x

theorem Good.hasLock (h : Good l) (hx : l.held x = true) : HasLock l x := by
  obtain ⟨hst, ho⟩ := h.inv.locked x hx
  exact ⟨hst, ho, h.inv.grants.usable x.1 (.inr hst)⟩

/-- Who returns from a failed call does not have the lock. -/
theorem Good.not_returnsLocked (h : Good l) {a : Act} (hs : step l a = some l')
    (hf : Failing l l') : ¬ReturnsLocked l a := by
  obtain ⟨x, k, hx, rfl⟩ := hf
  obtain ⟨st, hst⟩ := Option.ne_none_iff_exists'.mp (stage_asks hx)
  have hacq := (h.inv.acquiring x st hst).1
  intro hret
  have hnot : l.held x = false := by
    by_contra hheld
    have hlocked := (h.inv.locked x (Bool.eq_true_of_not_eq_false hheld)).1
    rw [hacq] at hlocked
    cases hlocked
  -- the entry is the one before the step, and its state is `ACQUIRING`
  have hlock := (hret _ hs x hnot (Function.update_self ..)).1
  exact absurd (hacq.symm.trans hlock) nofun

/-- **From any state in which nothing has failed.** -/
theorem returnsLocked_iff {acts : List Act} (h : Good l) (hok : l.failed = false)
    (hrun : Steps.run step l acts = some l') :
    Steps.RunMeets step ReturnsLocked l acts ↔ l'.failed = false := by
  induction acts generalizing l with
  | nil =>
    rw [Steps.run_nil, Option.some.injEq] at hrun
    exact iff_of_true trivial (hrun ▸ hok)
  | cons a as ih =>
    obtain ⟨l₁, hs, hrest⟩ := Steps.run_cons_eq_some.mp hrun
    rcases failed_step hs with heq | hf
    · have hok₁ : l₁.failed = false := heq.trans hok
      have hgood := good_step h hs hok₁
      rw [← ih hgood hok₁ hrest]
      refine ⟨fun hm => hm.2 l₁ hs, fun hm => ⟨fun l₂ hs₂ x _ hx => ?_, fun l₂ hs₂ => ?_⟩⟩
      · rw [hs, Option.some.injEq] at hs₂
        subst hs₂
        exact hgood.hasLock hx
      · rw [hs, Option.some.injEq] at hs₂
        exact hs₂ ▸ hm
    · -- the first failure: from here on it is noted
      have hfailed : l'.failed = true := by
        obtain ⟨x, k, -, rfl⟩ := hf
        exact failed_run hrest rfl
      refine iff_of_false (fun hm => h.not_returnsLocked hs hf hm.1) ?_
      rw [hfailed]
      nofun

/-- **`acquire` succeeds with the lock, or its call has failed.** In a run in which any call
may fail, every `acquire` that returns `OK` leaves its thread with the lock exactly when no
call of `acquire` has failed. -/
theorem acquire_has_lock_iff {acts : List Act} (hrun : Steps.run step .new acts = some l) :
    Steps.RunMeets step ReturnsLocked .new acts ↔ l.failed = false :=
  returnsLocked_iff good_new rfl hrun

/-- Client `a` gets the lock. -/
def granted : List Act :=
  [Act.acquire (['a'], 0) (['n'], 0), Act.call (['n'], 0) (['n'], 1),
    Act.thread (['a'], 0) (['n'], 1)]

/-- Client `b` asks for the lock, and the server is about to have it revoked. -/
def asked : List Act :=
  granted ++ [Act.acquire (['b'], 0) (['n'], 1), Act.call (['n'], 1) (['n'], 2),
    Act.call (['n'], 1) (['n'], 2)]

/-- The lock is revoked and `a` releases it; the `retry` of `b` fails for the server and is
handled later, and `b` gets the lock. -/
def lateRetry : List Act :=
  asked ++ [Act.call (['n'], 2) (['n'], 3), Act.call (['n'], 1) (['n'], 3),
    Act.thread (['b'], 0) (['n'], 3), Act.release (['a'], 0) (['n'], 3),
    Act.call (['n'], 3) (['n'], 4), Act.call (['n'], 3) (['n'], 4), Act.callFails (['n'], 3),
    Act.thread (['a'], 0) (['n'], 5), Act.call (['n'], 4) (['n'], 5),
    Act.thread (['b'], 0) (['n'], 5), Act.call (['n'], 5) (['n'], 6),
    Act.thread (['b'], 0) (['n'], 6)]

theorem acquire_has_lock_lateRetry :
    ∃ l, Steps.run step .new lateRetry = some l ∧ l.held (['b'], 0) = true
      ∧ Steps.RunMeets step ReturnsLocked .new lateRetry := by
  have hex : (Steps.run step .new lateRetry).map (fun l => (l.held (['b'], 0), l.failed))
      = some (true, false) := by
    decide
  obtain ⟨l, hs, hl⟩ := Steps.exists_run hex
  rw [Prod.mk.injEq] at hl
  exact ⟨l, hs, hl.1, (acquire_has_lock_iff hs).mpr hl.2⟩

/-- The `revoke` to `a` fails, so `b` is answered with `RPCERR`. -/
def revokeFails : List Act := asked ++ [Act.callFails (['n'], 1)]

/-- **A failed revocation is success to the caller.** The `acquire` of `b` returns `OK`: its
entry is still `ACQUIRING`, the server has granted the lock to `a`, and a thread of `a`
holds it. -/
theorem acquire_without_lock :
    ∃ l l', Steps.run step .new revokeFails = some l
      ∧ step l (.thread (['b'], 0) (['n'], 3)) = some l'
      ∧ l.held (['b'], 0) = false ∧ l'.held (['b'], 0) = true ∧ l'.held (['a'], 0) = true
      ∧ (l'.entry ['b']).state = .ACQUIRING ∧ GrantedTo l'.server ['a']
      ∧ ¬HasLock l' (['b'], 0) := by
  have hex : ((Steps.run step .new revokeFails).bind fun l =>
      (step l (.thread (['b'], 0) (['n'], 3))).map fun l' =>
        (l.held (['b'], 0), l'.held (['b'], 0), l'.held (['a'], 0), (l'.entry ['b']).state,
          l'.server)) = some (false, true, true, .ACQUIRING, some ⟨.LOCKED, ['a'], [['b']]⟩) := by
    decide
  obtain ⟨l, l', hrun, hs, hl⟩ := Steps.exists_run_step hex
  simp only [Prod.mk.injEq] at hl
  obtain ⟨hb, hb', ha, hst, hserver⟩ := hl
  refine ⟨l, l', hrun, hs, hb, hb', ha, hst, ⟨_, hserver, rfl, rfl⟩, fun hlock => ?_⟩
  exact absurd (hst.symm.trans hlock.1) nofun

end Yfs.LockFaults
