/-
The lock protocol when calls may fail.

The view of a lock and what it rests on (`Grants`, `Retries`) are those of the protocol
without failures. A call is now apart from its caller, so giving a lock back belongs to
the call, and so does the retry that comes after it. What the state of a client says is
about the calls of `release` that are open: not handled yet, or with a caller that waits.
A client whose `release` has failed stays in state `RELEASING`, so it has no other.
-/
import Yfs.LockProtocol
import Yfs.LockCalls

set_option autoImplicit false

namespace Yfs.LockFaultProtocol

open Text
open Yfs.LockSystem (Tid)
open Yfs.LockCalls (CallId)
open Yfs.LockServer (GrantedTo Served waiting)
open Yfs.LockClient (pthread)
open Yfs.LockProtocol (Stage Giving View Grants Retries Due OnePerClient)
open Refs (update_eq_some)

/-! ## The invariant -/

/-- The call `k` of `release` for client `c` is not handled yet, or its caller waits. -/
def Open (giving : CallId → Option Giving) (awaited : CallId → Option Str) (k : CallId)
    (c : Str) : Prop :=
  awaited k = some c ∨ ∃ g, giving k = some g ∧ g.place = .sent ∧ g.client = c

structure FaultInv (v : View) (awaited : CallId → Option Str) : Prop where
  acquiring : ∀ x st, v.stage x = some st → v.state x.1 = .ACQUIRING ∧ v.owner x.1 = .user x.2
  locked : ∀ x, v.held x = true → v.state x.1 = .LOCKED ∧ v.owner x.1 = .user x.2
  releasing : ∀ k c, Open v.giving awaited k c → v.state c = .RELEASING
  one : ∀ k k' c, Open v.giving awaited k c → Open v.giving awaited k' c → k = k'
  grants : Grants v.server v.state v.stage v.giving
  retries : Retries v.server v.toRetry v.stage v.giving

variable {v : View} {awaited : CallId → Option Str}

theorem FaultInv.of_eq {v' : View} {awaited' : CallId → Option Str} (h : FaultInv v awaited)
    (hv : v' = v) (ha : awaited' = awaited) : FaultInv v' awaited' := by
  rwa [hv, ha]

theorem FaultInv.onePerClient (h : FaultInv v awaited) : OnePerClient v.stage := by
  intro x y st st' hx hy hc
  have ho := (h.acquiring x st hx).2
  rw [hc, (h.acquiring y st' hy).2, pthread.user.injEq] at ho
  exact Prod.ext hc ho.symm

theorem FaultInv.held_unique (h : FaultInv v awaited) {x y : Tid} (hx : v.held x = true)
    (hy : v.held y = true) (hc : x.1 = y.1) : x = y := by
  have ho := (h.locked x hx).2
  rw [hc, (h.locked y hy).2, pthread.user.injEq] at ho
  exact Prod.ext hc ho.symm

/-! ## The threads of a client -/

theorem inv_take (h : FaultInv v awaited) (x : Tid) (hst : v.state x.1 = .FREE) : FaultInv { v with
    state := Function.update v.state x.1 .LOCKED
    owner := Function.update v.owner x.1 (.user x.2)
    held := Function.update v.held x true } awaited := by
  obtain ⟨hacq, hheld, hrel, hone, ⟨husable, hgranted, hunsent⟩, hret⟩ := h
  refine ⟨?_, ?_, ?_, hone, ⟨?_, hgranted, hunsent⟩, hret⟩
  all_goals grind -linarith [Function.update_apply]

theorem inv_leave (h : FaultInv v awaited) (x : Tid) (hx : v.held x = true) : FaultInv { v with
    state := Function.update v.state x.1 .FREE
    owner := Function.update v.owner x.1 (.user x.2)
    held := Function.update v.held x false } awaited := by
  have huniq : ∀ y, v.held y = true → x.1 = y.1 → x = y := fun y hy => h.held_unique hx hy
  obtain ⟨hacq, hheld, hrel, hone, ⟨husable, hgranted, hunsent⟩, hret⟩ := h
  refine ⟨?_, ?_, ?_, hone, ⟨?_, hgranted, hunsent⟩, hret⟩
  all_goals grind -linarith [Function.update_apply]

theorem inv_ask (h : FaultInv v awaited) (x : Tid) (hst : v.state x.1 = .NONE) : FaultInv { v with
    state := Function.update v.state x.1 .ACQUIRING
    owner := Function.update v.owner x.1 (.user x.2)
    stage := Function.update v.stage x (some .asked) } awaited := by
  -- a client in state `NONE` has no thread at work with the server
  have hnone : v.stage x = none := by
    cases hx : v.stage x with
    | none => rfl
    | some st =>
      rw [(h.acquiring x st hx).1] at hst
      cases hst
  have hret := h.retries.set_stage (x := x) (o := some .asked) (by simp [hnone]) (by simp)
  obtain ⟨hacq, hheld, hrel, hone, ⟨husable, hgranted, hunsent⟩, -⟩ := h
  refine ⟨?_, ?_, ?_, hone, ⟨?_, ?_, hunsent⟩, hret⟩
  all_goals grind -linarith [Function.update_apply]

theorem inv_lock (h : FaultInv v awaited) (x : Tid) (hx : v.stage x = some .granted) :
    FaultInv { v with
      state := Function.update v.state x.1 .LOCKED
      owner := Function.update v.owner x.1 (.user x.2)
      stage := Function.update v.stage x none
      held := Function.update v.held x true } awaited := by
  have huniq : ∀ y st, v.stage y = some st → x.1 = y.1 → x = y :=
    fun y st hy => h.onePerClient x y _ st hx hy
  have hret := h.retries.set_stage (x := x) (o := none) (by simp [hx]) (by simp)
  obtain ⟨hacq, hheld, hrel, hone, ⟨husable, hgranted, hunsent⟩, -⟩ := h
  refine ⟨?_, ?_, ?_, hone, ⟨?_, ?_, hunsent⟩, hret⟩
  all_goals grind -linarith [Function.update_apply]

theorem FaultInv.acquiring_stage (h : FaultInv v awaited) {x : Tid} {st st' : Stage}
    (hx : v.stage x = some st) : ∀ y sy, Function.update v.stage x (some st') y = some sy →
      v.state y.1 = .ACQUIRING ∧ v.owner y.1 = .user y.2 := by
  intro y sy hy
  rcases update_eq_some hy with ⟨rfl, -⟩ | ⟨-, hy⟩
  · exact h.acquiring y st hx
  · exact h.acquiring y sy hy

theorem inv_retry (h : FaultInv v awaited) (x : Tid) (hx : v.stage x = some .told)
    (hr : v.toRetry x.1 = true) : FaultInv { v with
      toRetry := Function.update v.toRetry x.1 false
      stage := Function.update v.stage x (some .again) } awaited := by
  refine ⟨h.acquiring_stage hx, h.locked, h.releasing, h.one,
    ⟨h.grants.usable, ?_, h.grants.unsent⟩, h.retries.ask_again hr⟩
  have hgranted := h.grants.granted
  grind -linarith [Function.update_apply]

theorem inv_serve (h : FaultInv v awaited) (x : Tid) (st : Stage) (e : LockServer.lockInfo)
    (after : LockServer.After) (hx : v.stage x = some st) (hst : st = .asked ∨ st = .again)
    (hserved : Served v.server x.1 e after) : FaultInv { v with
      server := some e
      stage := Function.update v.stage x (some (st.served after)) } awaited := by
  obtain ⟨hgrants, hretries⟩ :=
    LockProtocol.serve_keeps h.grants h.retries h.onePerClient hx hst hserved
  exact ⟨h.acquiring_stage hx, h.locked, h.releasing, h.one, hgrants, hretries⟩

/-! ## Calls of `release` -/

/-- Fewer calls are open. -/
theorem FaultInv.fewer (h : FaultInv v awaited) {giving : CallId → Option Giving}
    {waits : CallId → Option Str}
    (hopen : ∀ k c, Open giving waits k c → Open v.giving awaited k c) :
    (∀ k c, Open giving waits k c → v.state c = .RELEASING)
      ∧ ∀ k k' c, Open giving waits k c → Open giving waits k' c → k = k' :=
  ⟨fun k c hk => h.releasing k c (hopen k c hk),
    fun k k' c hk hk' => h.one k k' c (hopen k c hk) (hopen k' c hk')⟩

/-- A call at a place after `sent` is open only while its caller waits. -/
theorem open_set_giving {giving : CallId → Option Giving} {k : CallId} {o : Option Giving}
    (ho : ∀ g, o = some g → g.place ≠ .sent) (k' : CallId) (c : Str)
    (h : Open (Function.update giving k o) awaited k' c) : Open giving awaited k' c := by
  rcases h with h | ⟨g, hg, hsent, hc⟩
  · exact .inl h
  · rcases update_eq_some hg with ⟨-, hg⟩ | ⟨-, hg⟩
    · exact absurd hsent (ho g hg)
    · exact .inr ⟨g, hg, hsent, hc⟩

theorem unsent_set_giving (h : FaultInv v awaited) {k : CallId} {o : Option Giving}
    (ho : ∀ g, o = some g → g.place ≠ .sent) : ∀ k' g,
      Function.update v.giving k o k' = some g → g.place = .sent → GrantedTo v.server g.client := by
  intro k' g hg hsent
  rcases update_eq_some hg with ⟨-, hg⟩ | ⟨-, hg⟩
  · exact absurd hsent (ho g hg)
  · exact h.grants.unsent k' g hg hsent

/-- A client that can use the lock starts to give it back, in the new call `k`. -/
theorem inv_giveBack (h : FaultInv v awaited) {k : CallId} (c : Str) (self owner : pthread)
    (held : Tid → Bool) (hst : v.state c = .FREE ∨ v.state c = .LOCKED)
    (hheld : ∀ y, held y = true → v.held y = true ∧ y.1 ≠ c) : FaultInv { v with
      state := Function.update v.state c .RELEASING
      owner := Function.update v.owner c owner
      held := held
      giving := Function.update v.giving k (some ⟨c, self, .sent⟩) }
      (Function.update awaited k (some c)) := by
  have hret := h.retries.set_giving (x := k) (o := some ⟨c, self, .sent⟩)
    (by rintro _ ⟨rfl⟩; rfl)
  -- the new call is open for `c` alone, and no other call is
  have hopen : ∀ k' c', Open (Function.update v.giving k (some ⟨c, self, .sent⟩))
      (Function.update awaited k (some c)) k' c' →
        (k' = k ∧ c' = c) ∨ (c' ≠ c ∧ Open v.giving awaited k' c') := by
    intro k' c' hk'
    have hrel := h.releasing k' c'
    unfold Open at hk' hrel ⊢
    grind -linarith [Function.update_apply]
  have hgrant := h.grants.usable c hst
  obtain ⟨hacq, hlock, hrel, hone, ⟨husable, hgranted, hunsent⟩, -⟩ := h
  refine ⟨?_, ?_, fun k' c' hk' => ?_, fun k' k'' c' hk' hk'' => ?_, ⟨?_, hgranted, ?_⟩, hret⟩
  · grind -linarith [Function.update_apply]
  · grind -linarith [Function.update_apply]
  · rcases hopen k' c' hk' with ⟨-, rfl⟩ | ⟨hc, hk'⟩
    · exact Function.update_self ..
    · exact (Function.update_of_ne hc _ _).trans (hrel k' c' hk')
  · rcases hopen k' c' hk' with ⟨rfl, rfl⟩ | ⟨hc, hk'⟩ <;>
      rcases hopen k'' c' hk'' with ⟨rfl, hc'⟩ | ⟨hc', hk''⟩
    · rfl
    · exact absurd rfl hc'
    · exact absurd hc' hc
    · exact hone k' k'' c' hk' hk''
  · grind -linarith [Function.update_apply]
  · grind -linarith [Function.update_apply]

/-- **The server handles a `release`**, whether or not anybody waits for it. -/
theorem inv_free (h : FaultInv v awaited) (k : CallId) (g : Giving) (hk : v.giving k = some g)
    (hg : g.place = .sent) : FaultInv { v with
      server := some (LockServer.release v.server).1
      giving := Function.update v.giving k
        (some { g with place := if (LockServer.release v.server).2 then .front
          else .replied }) } awaited := by
  have hgrant := h.grants.unsent k g hk hg
  have hkopen : Open v.giving awaited k g.client := .inr ⟨g, hk, hg, rfl⟩
  have hstate := h.releasing k g.client hkopen
  have hsent : ∀ g', some { g with place := if (LockServer.release v.server).2 then .front
      else .replied } = some g' → g'.place ≠ .sent := by
    rintro _ ⟨rfl⟩
    simp only
    split <;> nofun
  obtain ⟨hrel, hone⟩ := h.fewer (open_set_giving hsent)
  refine ⟨h.acquiring, h.locked, hrel, hone, ⟨fun c hc => ?_, fun y hy => ?_,
    fun k' g' hk' hg' => ?_⟩, h.retries.free hgrant⟩
  -- a client that can use the lock would be the one that gives it back
  · rw [(h.grants.usable c hc).unique hgrant, hstate] at hc
    rcases hc with hc | hc <;> cases hc
  · have hacq := (h.acquiring y _ hy).1
    rw [(h.grants.granted y hy).unique hgrant, hstate] at hacq
    cases hacq
  · rcases update_eq_some hk' with ⟨-, hk'⟩ | ⟨hne, hk'⟩
    · exact absurd hg' (hsent g' hk')
    · have hc := (h.grants.unsent k' g' hk' hg').unique hgrant
      exact absurd (h.one k' k g.client (.inr ⟨g', hk', hg', hc⟩) hkopen) hne

/-- The front of the list is read, and the retry is left to the new call `n`. -/
theorem inv_front (h : FaultInv v awaited) (k n : CallId) (g g' : Giving) (dst c : Str)
    (self : pthread) (hk : v.giving k = some g) (hg : g.place = .front)
    (hg' : g'.place = .replied) (hhead : (waiting v.server).head? = some dst) : FaultInv { v with
      giving := Function.update (Function.update v.giving k (some g')) n
        (some ⟨c, self, .retry dst⟩) } awaited := by
  have hdue : Due v.giving k := ⟨g, hk, by rw [hg]; rfl⟩
  have hret := h.retries.read_front hdue hhead (y := n) (o := some g')
    (by rintro _ ⟨rfl⟩; rw [hg']; rfl) c self
  have hsent : ∀ g₁, some g' = some g₁ → g₁.place ≠ .sent := by
    rintro _ ⟨rfl⟩
    rw [hg']
    nofun
  have hsent' : ∀ g₁, some (⟨c, self, .retry dst⟩ : Giving) = some g₁ → g₁.place ≠ .sent := by
    rintro _ ⟨rfl⟩
    nofun
  obtain ⟨hrel, hone⟩ := h.fewer fun k' c' hk' =>
    open_set_giving hsent k' c' (open_set_giving hsent' k' c' hk')
  refine ⟨h.acquiring, h.locked, hrel, hone, ⟨h.grants.usable, h.grants.granted, ?_⟩, hret⟩
  intro k' g₁ hk' hg₁
  rcases update_eq_some hk' with ⟨-, hk'⟩ | ⟨-, hk'⟩
  · exact absurd hg₁ (hsent' g₁ hk')
  · exact unsent_set_giving h hsent k' g₁ hk' hg₁

/-- A client is told to retry. -/
theorem inv_tell (h : FaultInv v awaited) (k : CallId) (g : Giving) (dst : Str)
    (hk : v.giving k = some g) (hg : g.place = .retry dst) : FaultInv { v with
      toRetry := Function.update v.toRetry dst true
      giving := Function.update v.giving k none } awaited := by
  obtain ⟨hrel, hone⟩ := h.fewer (open_set_giving (k := k) (o := none) nofun)
  exact ⟨h.acquiring, h.locked, hrel, hone,
    ⟨h.grants.usable, h.grants.granted, unsent_set_giving h nofun⟩, h.retries.tell hk hg nofun⟩

/-- Nobody waits for a call any more. -/
theorem open_unwait {giving : CallId → Option Giving} (k k' : CallId) (c : Str)
    (h : Open giving (Function.update awaited k none) k' c) : Open giving awaited k' c := by
  rcases h with h | h
  · rcases update_eq_some h with ⟨-, h⟩ | ⟨-, h⟩
    · cases h
    · exact .inl h
  · exact .inr h

theorem inv_drop (h : FaultInv v awaited) (k : CallId) :
    FaultInv v (Function.update awaited k none) := by
  obtain ⟨hrel, hone⟩ := h.fewer (open_unwait k)
  exact ⟨h.acquiring, h.locked, hrel, hone, h.grants, h.retries⟩

/-- The client learns that the lock was given back. -/
theorem inv_done (h : FaultInv v awaited) (k : CallId) (c : Str) (owner : pthread)
    (hk : awaited k = some c) (hsent : ∀ g, v.giving k = some g → g.place ≠ .sent) :
    FaultInv { v with
      state := Function.update v.state c .NONE
      owner := Function.update v.owner c owner } (Function.update awaited k none) := by
  have hstate := h.releasing k c (.inl hk)
  -- the call was the only one that is open for this client
  have hother : ∀ k' c', Open v.giving (Function.update awaited k none) k' c' → c' ≠ c := by
    rintro k' c' hk' rfl
    obtain rfl := h.one k' k c' (open_unwait k k' c' hk') (.inl hk)
    rcases hk' with hk' | ⟨g, hg, hs, -⟩
    · rw [Function.update_self] at hk'
      cases hk'
    · exact hsent g hg hs
  obtain ⟨hrel, hone⟩ := h.fewer (open_unwait k)
  obtain ⟨hacq, hlock, -, -, ⟨husable, hgranted, hunsent⟩, hret⟩ := h
  refine ⟨?_, ?_, fun k' c' hk' => ?_, hone, ⟨?_, hgranted, hunsent⟩, hret⟩
  · grind -linarith [Function.update_apply]
  · grind -linarith [Function.update_apply]
  · exact (Function.update_of_ne (hother k' c' hk') _ _).trans (hrel k' c' hk')
  · grind -linarith [Function.update_apply]

end Yfs.LockFaultProtocol
