/-
What a lock with its calls looks like to the protocol, and who waits for which call.

A thread that waits for an `acquire` is at the stage that the handler of the call has
reached, so its stage changes when somebody else takes a step. That is sound because the
thread waits for a call of its own: `Linked` says so, for the threads and for the handlers
that wait for a `release`.
-/
import Yfs.LockCalls
import Yfs.LockExclusion

set_option autoImplicit false

namespace Yfs.LockCallView

open Text Yfs.LockCalls
open Yfs.LockSystem (Tid)
open Yfs.LockServer (status)
open Yfs.LockProtocol (Stage Giving View)
open Yfs.LockExclusion (update_same read_update)

/-! ## The view of a lock -/

/-- What an answer means; `onRetry` is the meaning of all but `OK`. -/
def statusStage (onRetry : Stage) : status → Stage
  | .OK => .granted
  | .RETRY => onRetry
  | .RPCERR => onRetry

def acquireStage (before onRetry : Stage) : AcquirePc → Stage
  | .sent => before
  | .holder => onRetry
  | .revoking ret _ => statusStage onRetry ret
  | .replied ret => statusStage onRetry ret

def callStage (before onRetry : Stage) : Option Call → Stage
  | some (.acquire _ pc) => acquireStage before onRetry pc
  | _ => before

/-- The server has put the client into its list when it answers the first call with `RPCERR`;
the second call is never answered with anything but `OK`. -/
def pcStage (call : CallId → Option Call) : Pc → Option Stage
  | .acquire1 k => some (callStage .asked .told (call k))
  | .waitRetry => some .told
  | .acquire2 k => some (callStage .again .lost (call k))
  | _ => none

def place : ReleasePc → LockSystem.Release
  | .sent => .sent
  | .front => .front
  | .retrying _ => .replied
  | .replied => .replied

/-- What is left of giving the lock back: in the call of `release`, and in that of `retry`
until it is handled. -/
def callGiving (k : CallId) : Call → Option Giving
  | .release c _ _ pc => some ⟨c, .handler k.1 k.2, place pc⟩
  | .retry c .sent => some ⟨c, .handler k.1 k.2, .retry c⟩
  | _ => none

def callAwaited : Call → Option Str
  | .release c _ true _ => some c
  | _ => none

def view (l : Lock) : View where
  server := l.server
  state c := (l.entry c).state
  owner c := (l.entry c).threadId
  toRetry c := (l.entry c).toRetry
  stage x := (l.thread x).bind (pcStage l.call)
  giving k := (l.call k).bind (callGiving k)
  held := l.held

/-- The calls of `release` that somebody waits for. -/
def awaits (l : Lock) (k : CallId) : Option Str := (l.call k).bind callAwaited

/-- Thread `x` waits for the call `k` of `acquire`. -/
def Asks (l : Lock) (x : Tid) (k : CallId) : Prop :=
  l.thread x = some (.acquire1 k) ∨ l.thread x = some (.acquire2 k)

/-- Who waits for a call waits for one of its own, and an `acquire` is not left alone before
it is answered. -/
structure Linked (l : Lock) : Prop where
  asks : ∀ x k, Asks l x k → ∃ pc, l.call k = some (.acquire x pc)
  gives : ∀ x k, l.thread x = some (.release k) →
    ∃ pc, l.call k = some (.release x.1 (.thread x) true pc)
  revokes : ∀ k c m, l.call k = some (.revoke c (.releasing m)) →
    ∃ pc, l.call m = some (.release c (.handler k) true pc)
  waits : ∀ x k pc, l.call k = some (.acquire x pc) → (∀ ret, pc ≠ .replied ret) → Asks l x k

variable {l l' : Lock} {x : Tid} {k n : CallId}

/-! ## Links -/

/-- The thread does not wait for a call any more. -/
theorem Linked.setThread (h : Linked l) {p : Option Pc}
    (hx : ∀ k pc, l.call k = some (.acquire x pc) → ∃ ret, pc = .replied ret)
    (hp : ∀ k, p ≠ some (.acquire1 k) ∧ p ≠ some (.acquire2 k) ∧ p ≠ some (.release k)) :
    Linked (l.setThread x p) := by
  obtain ⟨hasks, hgives, hrevokes, hwaits⟩ := h
  unfold Asks at hasks hwaits
  refine ⟨?_, ?_, hrevokes, ?_⟩
  all_goals
    simp only [Asks, Lock.setThread]
    grind -linarith [Function.update_apply]

theorem Linked.ask (h : Linked l) (hn : l.call n = none) {p : CallId → Pc}
    (hp : p = .acquire1 ∨ p = .acquire2)
    (hx : ∀ k pc, l.call k = some (.acquire x pc) → ∃ ret, pc = .replied ret) :
    Linked (l.ask x n p) := by
  obtain ⟨hasks, hgives, hrevokes, hwaits⟩ := h
  unfold Asks at hasks hwaits
  have hnew := Function.update_self n (some (Call.acquire x .sent)) l.call
  rcases hp with rfl | rfl <;> refine ⟨?_, ?_, ?_, ?_⟩
  all_goals
    simp only [Asks, Lock.ask, Lock.setThread, Lock.setCall]
    grind -linarith [Function.update_apply]

theorem Linked.setCall_acquire (h : Linked l) {pc pc' : AcquirePc}
    (hk : l.call k = some (.acquire x pc)) (hpc : ∀ ret, pc ≠ .replied ret) :
    Linked (l.setCall k (.acquire x pc')) := by
  obtain ⟨hasks, hgives, hrevokes, hwaits⟩ := h
  unfold Asks at hasks hwaits
  refine ⟨?_, ?_, ?_, ?_⟩
  all_goals
    simp only [Asks, Lock.setCall]
    grind -linarith [Function.update_apply]

/-- A `revoke` or a `retry` that does not wait for anything. -/
theorem Linked.setCall_other (h : Linked l) {call : Call}
    (hk : ∀ x pc, l.call k ≠ some (.acquire x pc))
    (hk' : ∀ c b w pc, l.call k ≠ some (.release c b w pc))
    (hcall : ∀ x pc, call ≠ .acquire x pc) (hcall' : ∀ c m, call ≠ .revoke c (.releasing m)) :
    Linked (l.setCall k call) := by
  obtain ⟨hasks, hgives, hrevokes, hwaits⟩ := h
  unfold Asks at hasks hwaits
  refine ⟨?_, ?_, ?_, ?_⟩
  all_goals
    simp only [Asks, Lock.setCall]
    grind -linarith [Function.update_apply]

variable {c : Str}

theorem Linked.setCall_release (h : Linked l) {b : Caller} {w : Bool}
    {pc pc' : ReleasePc} (hk : l.call k = some (.release c b w pc)) :
    Linked (l.setCall k (.release c b w pc')) := by
  obtain ⟨hasks, hgives, hrevokes, hwaits⟩ := h
  unfold Asks at hasks hwaits
  refine ⟨?_, ?_, ?_, ?_⟩
  all_goals
    simp only [Asks, Lock.setCall]
    grind -linarith [Function.update_apply]

/-- A thread starts to give the lock back. -/
theorem Linked.release (h : Linked l) (hn : l.call n = none) (hx : l.thread x = none) :
    Linked ((l.setThread x (some (.release n))).setCall n
      (.release x.1 (.thread x) true .sent)) := by
  obtain ⟨hasks, hgives, hrevokes, hwaits⟩ := h
  unfold Asks at hasks hwaits
  have hnew := Function.update_self n (some (Call.release x.1 (.thread x) true .sent)) l.call
  refine ⟨?_, ?_, ?_, ?_⟩
  all_goals
    simp only [Asks, Lock.setThread, Lock.setCall]
    grind -linarith [Function.update_apply]

/-- A handler starts to give the lock back. -/
theorem Linked.revoke (h : Linked l) (hn : l.call n = none)
    (hk : l.call k = some (.revoke c .sent)) :
    Linked ((l.setCall k (.revoke c (.releasing n))).setCall n
      (.release c (.handler k) true .sent)) := by
  obtain ⟨hasks, hgives, hrevokes, hwaits⟩ := h
  unfold Asks at hasks hwaits
  refine ⟨?_, ?_, ?_, ?_⟩
  all_goals
    simp only [Asks, Lock.setCall]
    grind -linarith [Function.update_apply]

/-- A thread stops waiting for its `release`. -/
theorem Linked.unwait_thread (h : Linked l) (hx : l.thread x = some (.release k))
    (pc : ReleasePc) :
    Linked ((l.setThread x none).setCall k (.release x.1 (.thread x) false pc)) := by
  obtain ⟨hasks, hgives, hrevokes, hwaits⟩ := h
  unfold Asks at hasks hwaits
  refine ⟨?_, ?_, ?_, ?_⟩
  all_goals
    simp only [Asks, Lock.setThread, Lock.setCall]
    grind -linarith [Function.update_apply]

/-- A handler stops waiting for its `release`. -/
theorem Linked.unwait_handler (h : Linked l) {m : CallId}
    (hk : l.call k = some (.revoke c (.releasing m))) (pc : ReleasePc) :
    Linked ((l.setCall k (.revoke c .returned)).setCall m (.release c (.handler k) false pc)) := by
  obtain ⟨hasks, hgives, hrevokes, hwaits⟩ := h
  unfold Asks at hasks hwaits
  refine ⟨?_, ?_, ?_, ?_⟩
  all_goals
    simp only [Asks, Lock.setCall]
    grind -linarith [Function.update_apply]

/-- Only threads and calls are linked. -/
theorem Linked.of_same (h : Linked l) (hthread : l'.thread = l.thread) (hcall : l'.call = l.call) :
    Linked l' := by
  obtain ⟨hasks, hgives, hrevokes, hwaits⟩ := h
  unfold Asks at hasks hwaits
  rw [← hthread, ← hcall] at hasks hwaits
  rw [← hthread, ← hcall] at hgives
  rw [← hcall] at hrevokes
  exact ⟨hasks, hgives, hrevokes, hwaits⟩

/-- Nobody waits for an `acquire` where there is none. -/
theorem Linked.not_asks (h : Linked l) (hk : ∀ x pc, l.call k ≠ some (.acquire x pc)) (x : Tid) :
    ¬Asks l x k := by
  intro hx
  obtain ⟨pc, hpc⟩ := h.asks x k hx
  exact hk x pc hpc

theorem Linked.not_asks_new (h : Linked l) (hn : l.call n = none) (x : Tid) : ¬Asks l x n :=
  h.not_asks (by simp [hn]) x

/-- A thread that waits for no `acquire`, or whose answer is there, has left none alone. -/
theorem Linked.answered (h : Linked l)
    (hx : ∀ k, Asks l x k → ∃ ret, l.call k = some (.acquire x (.replied ret))) (k : CallId)
    (pc : AcquirePc) (hk : l.call k = some (.acquire x pc)) : ∃ ret, pc = .replied ret := by
  by_contra hpc
  obtain ⟨ret, hret⟩ := hx k (h.waits x k pc hk fun ret heq => hpc ⟨ret, heq⟩)
  rw [hk, Option.some.injEq, Call.acquire.injEq] at hret
  exact hpc ⟨ret, hret.2⟩

/-- The answer that a thread waits for. -/
theorem Linked.answer (h : Linked l) (hx : Asks l x k) {ret : status}
    (hret : l.answer k = some ret) : l.call k = some (.acquire x (.replied ret)) := by
  obtain ⟨pc, hk⟩ := h.asks x k hx
  rw [Lock.answer, hk] at hret
  cases pc with
  | replied ret' =>
    cases hret
    exact hk
  | sent => cases hret
  | holder => cases hret
  | revoking ret' m => cases hret

/-- A thread waits for one call at a time. -/
theorem Asks.unique {k' : CallId} (hk : Asks l x k) (hk' : Asks l x k') : k' = k := by
  rcases hk with hk | hk <;> rcases hk' with hk' | hk' <;> rw [hk] at hk' <;> cases hk' <;> rfl

theorem call_setCall_new (hn : l.call n = none) {call : Call} (hk : l.call k = some call)
    (call' : Call) :
    (l.setCall k call').call n = none := by
  have hne : n ≠ k := by
    rintro rfl
    rw [hk] at hn
    cases hn
  exact (Function.update_of_ne hne _ _).trans hn

/-! ## How the view changes -/

theorem view_setClient (l : Lock) (c : Str) (e : LockClient.lockInfo) :
    view (l.setClient c e) = { view l with
      state := Function.update (view l).state c e.state
      owner := Function.update (view l).owner c e.threadId
      toRetry := Function.update (view l).toRetry c e.toRetry } :=
  View.ext rfl (read_update (·.state) l.client c e) (read_update (·.threadId) l.client c e)
    (read_update (·.toRetry) l.client c e) rfl rfl rfl

/-- An entry that agrees in state, owner and `toRetry` is the same to the view. -/
theorem view_setClient_same (l : Lock) (c : Str) (e : LockClient.lockInfo)
    (hstate : e.state = (l.entry c).state) (howner : e.threadId = (l.entry c).threadId)
    (hretry : e.toRetry = (l.entry c).toRetry) : view (l.setClient c e) = view l := by
  rw [view_setClient]
  exact View.ext rfl (update_same hstate.symm) (update_same howner.symm) (update_same hretry.symm)
    rfl rfl rfl

theorem view_setThread (l : Lock) (x : Tid) (p : Option Pc) :
    view (l.setThread x p) = { view l with
      stage := Function.update (view l).stage x (p.bind (pcStage l.call)) } :=
  View.ext rfl rfl rfl rfl
    (Function.comp_update (fun o : Option Pc => o.bind (pcStage l.call)) l.thread x p) rfl rfl

theorem view_setHeld (l : Lock) (x : Tid) (b : Bool) :
    view (l.setHeld x b) = { view l with held := Function.update (view l).held x b } := rfl

theorem giving_setCall (l : Lock) (k : CallId) (call : Call) : (view (l.setCall k call)).giving
    = Function.update (view l).giving k (callGiving k call) :=
  funext fun k' => Function.apply_update (fun k o => o.bind (callGiving k)) l.call k (some call) k'

theorem awaits_setCall (l : Lock) (k : CallId) (call : Call) :
    awaits (l.setCall k call) = Function.update (awaits l) k (callAwaited call) :=
  Function.comp_update (fun o : Option Call => o.bind callAwaited) l.call k (some call)

/-- A thread sees only the call it waits for. -/
theorem stage_setCall (call : Call) (hx : ¬Asks l x k) :
    (view (l.setCall k call)).stage x = (view l).stage x := by
  have hcall : ∀ k', k' ≠ k → (l.setCall k call).call k' = l.call k' :=
    fun k' hk' => Function.update_of_ne hk' _ _
  change (l.thread x).bind _ = (l.thread x).bind _
  cases hp : l.thread x with
  | none => rfl
  | some p =>
    cases p with
    | acquire1 k' =>
      have hk' : k' ≠ k := fun heq => hx (.inl (heq ▸ hp))
      simp only [Option.bind_some, pcStage, hcall k' hk']
    | acquire2 k' =>
      have hk' : k' ≠ k := fun heq => hx (.inr (heq ▸ hp))
      simp only [Option.bind_some, pcStage, hcall k' hk']
    | waitFree => rfl
    | waitNone => rfl
    | waitRetry => rfl
    | release k' => rfl

theorem view_setCall (call : Call) (hk : ∀ x, ¬Asks l x k) : view (l.setCall k call) =
    { view l with giving := Function.update (view l).giving k (callGiving k call) } :=
  View.ext rfl rfl rfl rfl (funext fun x => stage_setCall call (hk x)) (giving_setCall l k call) rfl

/-- A call that does not matter for the view: a `revoke`, or a `retry` that is handled. -/
theorem view_setCall_same (call : Call) (hk : ∀ x, ¬Asks l x k)
    (hg : (view l).giving k = callGiving k call) : view (l.setCall k call) = view l := by
  rw [view_setCall call hk, update_same hg]

theorem awaits_setCall_same (call : Call) (hk : awaits l k = callAwaited call) :
    awaits (l.setCall k call) = awaits l := by
  rw [awaits_setCall, update_same hk]

/-- The first or the second call: its stage before it is handled, and the meaning of an
answer that is not `OK`. -/
def Kind (before onRetry : Stage) : Prop :=
  (before = .asked ∧ onRetry = .told) ∨ (before = .again ∧ onRetry = .lost)

/-- **The `acquire` that a thread waits for** is its stage. -/
theorem view_setCall_acquire (h : Linked l) {pc : AcquirePc}
    (hk : l.call k = some (.acquire x pc)) (hx : Asks l x k) : ∃ before onRetry,
      Kind before onRetry ∧ (view l).stage x = some (acquireStage before onRetry pc)
      ∧ ∀ pc', view (l.setCall k (.acquire x pc')) = { view l with
        stage := Function.update (view l).stage x (some (acquireStage before onRetry pc')) } := by
  -- what the two places have in common
  have hkind : ∃ before onRetry, Kind before onRetry ∧ ∀ call : CallId → Option Call,
      (l.thread x).bind (pcStage call) = some (callStage before onRetry (call k)) := by
    rcases hx with hx | hx
    · exact ⟨.asked, .told, .inl ⟨rfl, rfl⟩, fun call => by rw [hx]; rfl⟩
    · exact ⟨.again, .lost, .inr ⟨rfl, rfl⟩, fun call => by rw [hx]; rfl⟩
  obtain ⟨before, onRetry, hkind, hstage⟩ := hkind
  refine ⟨before, onRetry, hkind, ?_, fun pc' => View.ext rfl rfl rfl rfl ?_ ?_ rfl⟩
  · exact (hstage l.call).trans (by rw [hk]; rfl)
  · refine Function.eq_update_iff.mpr ⟨?_, fun y hy => ?_⟩
    · refine (hstage _).trans ?_
      simp only [Lock.setCall, Function.update_self]
      rfl
    · refine stage_setCall _ fun hyk => hy ?_
      obtain ⟨pc'', hpc⟩ := h.asks y k hyk
      rw [hk, Option.some.injEq, Call.acquire.injEq] at hpc
      exact hpc.1.symm
  · rw [giving_setCall, update_same]
    simp only [view, hk, Option.bind_some]
    rfl

/-! ## Calls that are made and left -/

theorem giving_new (hn : l.call n = none) : (view l).giving n = none := by
  simp only [view, hn, Option.bind_none]

theorem awaits_new (hn : l.call n = none) : awaits l n = none := by
  simp only [awaits, hn, Option.bind_none]

theorem stage_asks (hx : Asks l x k) : (view l).stage x ≠ none := by
  rcases hx with hx | hx
  · simp [view, hx, pcStage]
  · simp [view, hx, pcStage]

/-- A thread makes a call of `acquire`. -/
theorem view_ask (h : Linked l) (hn : l.call n = none) {p : CallId → Pc} {before onRetry : Stage}
    (hp : ∀ call, pcStage call (p n) = some (callStage before onRetry (call n))) :
    view (l.ask x n p)
      = { view l with stage := Function.update (view l).stage x (some before) } := by
  refine View.ext rfl rfl rfl rfl (Function.eq_update_iff.mpr ⟨?_, fun y hy => ?_⟩) ?_ rfl
  · simp only [view, Lock.ask, Lock.setCall, Lock.setThread, Function.update_self,
      Option.bind_some, hp]
    rfl
  · have hthread : (l.setThread x (some (p n))).thread y = l.thread y :=
      Function.update_of_ne hy _ _
    have hnot : ¬Asks (l.setThread x (some (p n))) y n := by
      rw [Asks, hthread]
      exact h.not_asks_new hn y
    rw [Lock.ask, stage_setCall _ hnot, view_setThread]
    exact Function.update_of_ne hy _ _
  · rw [Lock.ask, giving_setCall]
    exact update_same (giving_new hn)

theorem awaits_ask (hn : l.call n = none) (p : CallId → Pc) : awaits (l.ask x n p) = awaits l :=
  awaits_setCall_same (l := l.setThread x (some (p n))) _ (awaits_new hn)

/-- A thread makes a call of `release`. -/
theorem view_call_release (h : Linked l) (hn : l.call n = none) (hx : l.thread x = none)
    (call : Call) : view ((l.setThread x (some (.release n))).setCall n call)
      = { view l with giving := Function.update (view l).giving n (callGiving n call) } := by
  have hnot : ∀ y, ¬Asks (l.setThread x (some (.release n))) y n := by
    intro y hy
    by_cases hyx : y = x
    · subst hyx
      simp [Asks, Lock.setThread] at hy
    · refine h.not_asks_new hn y ?_
      simpa only [Asks, Lock.setThread, Function.update_of_ne hyx] using hy
  rw [view_setCall call hnot, view_setThread]
  refine View.ext rfl rfl rfl rfl (update_same ?_) rfl rfl
  simp only [view, hx, Option.bind_none]
  rfl

variable {pc : ReleasePc}

/-- A `release` that nobody waits for any more. -/
theorem unwait_eq {b : Caller} {w : Bool} (hk : l.call k = some (.release c b w pc)) :
    l.unwait k = l.setCall k (.release c b false pc) := by
  simp only [Lock.unwait, hk]

theorem giving_release {b : Caller} {w : Bool} (hk : l.call k = some (.release c b w pc)) :
    (view l).giving k = some ⟨c, .handler k.1 k.2, place pc⟩ := by
  simp only [view, hk, Option.bind_some, callGiving]

theorem not_asks_release (h : Linked l) {b : Caller} {w : Bool}
    (hk : l.call k = some (.release c b w pc)) (x : Tid) : ¬Asks l x k :=
  h.not_asks (by simp [hk]) x

theorem replied_place {b : Caller} {w : Bool}
    (hk : l.call k = some (.release c b w pc)) (hrep : l.replied k = true) : pc = .replied := by
  cases pc with
  | replied => rfl
  | sent => simp [Lock.replied, hk] at hrep
  | front => simp [Lock.replied, hk] at hrep
  | retrying m => simp [Lock.replied, hk] at hrep

/-- A thread stops waiting for its `release`; the view does not see who waits. -/
theorem view_unwait_thread (h : Linked l) (hx : l.thread x = some (.release k))
    (hk : l.call k = some (.release x.1 (.thread x) true pc)) :
    view ((l.setThread x none).setCall k (.release x.1 (.thread x) false pc)) = view l := by
  have hstage : (view l).stage x = none := by simp only [view, hx, Option.bind_some, pcStage]
  have hv : view (l.setThread x none) = view l := by
    rw [view_setThread]
    exact View.ext rfl rfl rfl rfl (update_same hstage) rfl rfl
  have hnot : ∀ y, ¬Asks (l.setThread x none) y k := by
    intro y hy
    by_cases hyx : y = x
    · subst hyx
      simp [Asks, Lock.setThread] at hy
    · refine not_asks_release h hk y ?_
      simpa only [Asks, Lock.setThread, Function.update_of_ne hyx] using hy
  exact (view_setCall_same (.release x.1 (.thread x) false pc) hnot (giving_release hk)).trans hv

/-- A handler stops waiting for its `release`. -/
theorem view_unwait_handler (h : Linked l) {m : CallId}
    (hk : l.call k = some (.revoke c (.releasing m)))
    (hm : l.call m = some (.release c (.handler k) true pc)) :
    view ((l.setCall k (.revoke c .returned)).setCall m (.release c (.handler k) false pc))
      = view l := by
  have hne : m ≠ k := by
    rintro rfl
    rw [hk] at hm
    cases hm
  have hv : view (l.setCall k (.revoke c .returned)) = view l := by
    refine view_setCall_same _ (h.not_asks (by simp [hk])) ?_
    simp only [view, hk, Option.bind_some, callGiving]
  have hm' : (l.setCall k (.revoke c .returned)).call m
      = some (.release c (.handler k) true pc) := (Function.update_of_ne hne _ _).trans hm
  have hnot : ∀ x, ¬Asks (l.setCall k (.revoke c .returned)) x m := not_asks_release (l := l) h hm
  exact (view_setCall_same (.release c (.handler k) false pc) hnot (giving_release hm')).trans hv

end Yfs.LockCallView
