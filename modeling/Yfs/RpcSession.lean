/-
One RPC client, one RPC server and the network between them.

Any number of `call1` threads run on the client, each identified by its xid. The
network never forgets what was handed to it: a request or reply that was ever sent
may be delivered now, later, several times or never, which is loss, duplication,
delay and reordering at once; it also covers the old request that a lossy client
sends again (`dup_req_`). A timeout is a call that ends without being done.

The invariant ties the client's window, the pending calls, the headers that travel
or wait in the dispatch pool, and the server's lists together. Its core is one
sentence: whatever an acknowledgement covers is settled, that is, done or out of
`calls_`.
-/
import Yfs.Refs
import Yfs.RpcClient

set_option autoImplicit false

namespace Yfs.RpcSession

open Yfs.RpcWindow Yfs.RpcDispatch Yfs.RpcClient
open Refs (update_eq_some)

/-! ## The system -/

structure Session (γ : Type*) where
  clt : rpcc γ
  /-- The calls between their first and their last critical section, with the
  request they transmit. -/
  threads : ℕ → Option req_header
  /-- Every request handed to the network. -/
  wire : List req_header
  srv : Server γ
  /-- The values `call1` has returned, with the header of the call. -/
  returned : List (req_header × ℤ)
  /-- How many calls have taken an xid. -/
  ncalls : ℕ

variable {γ : Type*}

def Session.init (clt_nonce nonce_ : ℕ) (procs_ : List ℕ) : Session γ :=
  ⟨rpcc.init clt_nonce, fun _ => none, [], Server.init nonce_ procs_, [], 0⟩

/-- What can happen. -/
inductive Act (γ : Type*) where
  /-- A thread enters `call1`. -/
  | begin (proc : ℕ)
  /-- A thread in `call1` sends its request, for the first time or again. -/
  | transmit (xid : ℕ)
  /-- The network delivers a request to the server. -/
  | request (h : req_header)
  /-- A job of the dispatch pool runs. -/
  | job (i : ℕ) (o : HandlerOut γ)
  /-- The network delivers a reply to the client. -/
  | reply (k : ℕ)
  /-- A thread leaves `call1`, done or timed out. -/
  | finish (xid : ℕ)
  /-- `bind` stores the nonce its call returned. -/
  | bound (r : ℕ)
  /-- `cancel`, with `xid` among the pending calls. -/
  | cancel (xid : ℕ)

/-- One step of the session. -/
def step (s : Session γ) : Act γ → Option (Session γ)
  | .begin proc =>
    match call1_begin s.clt proc with
    | .error _ => none
    | .ok (h, clt') => some { s with
        clt := clt'
        threads := Function.update s.threads h.xid (some h)
        ncalls := s.ncalls + 1 }
  | .transmit xid =>
    match s.threads xid with
    | none => none
    | some h => some { s with wire := s.wire ++ [h] }
  | .request h =>
    -- whatever was sent once may arrive, any number of times
    if h ∈ s.wire then (RpcDispatch.step s.srv (.got_pdu h)).map fun srv => { s with srv := srv }
    else none
  | .job i o => (RpcDispatch.step s.srv (.job i o)).map fun srv => { s with srv := srv }
  | .reply k =>
    match s.srv.sent[k]? with
    | none => none
    | some pdu => some { s with clt := got_pdu s.clt pdu }
  | .finish xid =>
    match s.threads xid with
    | none => none
    | some h => some { s with
        clt := call1_end s.clt xid
        threads := Function.update s.threads xid none
        returned := s.returned ++ [(h, call1_return s.clt xid)] }
  | .bound r =>
    -- `bind` goes on only when its own call has returned 0; the nonce may be any
    if s.returned.any (fun p => p.1.proc == bind_proc && p.2 == 0) then
      some { s with clt := bind_store s.clt r }
    else none
  | .cancel xid =>
    if (s.clt.calls_ xid).isSome then some { s with clt := cancel s.clt } else none

@[simp] theorem step_transmit (s : Session γ) (xid : ℕ) :
    step s (.transmit xid) = (s.threads xid).map fun h => { s with wire := s.wire ++ [h] } := by
  simp only [step]
  cases s.threads xid <;> rfl

@[simp] theorem step_reply (s : Session γ) (k : ℕ) :
    step s (.reply k) = s.srv.sent[k]?.map fun pdu => { s with clt := got_pdu s.clt pdu } := by
  simp only [step]
  cases s.srv.sent[k]? <;> rfl

@[simp] theorem step_finish (s : Session γ) (xid : ℕ) :
    step s (.finish xid) = (s.threads xid).map fun h => { s with
      clt := call1_end s.clt xid
      threads := Function.update s.threads xid none
      returned := s.returned ++ [(h, call1_return s.clt xid)] } := by
  simp only [step]
  cases s.threads xid <;> rfl

/-! ## Settled calls -/

/-- Some call took this xid. -/
def Issued (s : Session γ) (y : ℕ) : Prop := 1 ≤ y ∧ y ≤ s.ncalls

/-- The call with this xid is marked done or has left `calls_`. -/
def Settled (s : Session γ) (y : ℕ) : Prop :=
  Issued s y ∧ ∀ ca, s.clt.calls_ y = some ca → ca.done = true

/-- A header that is on its way: it is ours, its xid was issued, and everything it
acknowledges is settled. -/
structure HeaderOk (s : Session γ) (h : req_header) : Prop where
  ours : h.clt_nonce = s.clt.clt_nonce_
  issued : Issued s h.xid
  acked : ∀ y, 1 ≤ y → y ≤ h.xid_rep → Settled s y

/-- What a job may carry, by where it stands. -/
def PcOk (s : Session γ) (j : Job γ) : Prop :=
  match j.pc with
  | .checked .FORGOTTEN _ => Settled s j.h.xid
  | .checked .DONE (some (some b1, _)) => b1.ret ≠ atmostonce_failure ∧ b1.xid = j.h.xid
  | .ran b1 _ => b1.ret ≠ atmostonce_failure ∧ b1.xid = j.h.xid
  | .recorded b1 _ => b1.ret ≠ atmostonce_failure ∧ b1.xid = j.h.xid
  | _ => True

/-- What the server may remember of request `y`. -/
def ViewOk (s : Session γ) (y : ℕ) : View (reply_pdu γ) → Prop
  | .absent => True
  | .present b _ => Issued s y ∧ ∀ pdu, b = some pdu → pdu.ret ≠ atmostonce_failure ∧ pdu.xid = y
  | .gone => Settled s y

/-- The joint invariant. -/
structure Inv (s : Session γ) : Prop where
  wf : Wf s.srv.window
  bound : s.ncalls < 2 ^ 32
  xid : s.clt.xid_ = wrap32 (s.ncalls + 1)
  /-- The client's window reports only settled calls. -/
  window : ∃ R, WindowInv s.clt.xid_rep_window_ R ∧ ∀ y, 1 ≤ y → R y → Settled s y
  calls : ∀ y ca, s.clt.calls_ y = some ca →
    Issued s y ∧ (ca.done = true → ca.intret ≠ atmostonce_failure)
  threads : ∀ y h, s.threads y = some h → h.xid = y ∧ HeaderOk s h
  wire : ∀ h ∈ s.wire, HeaderOk s h
  jobs : ∀ j ∈ s.srv.jobs, HeaderOk s j.h ∧ PcOk s j
  views : ∀ y, ViewOk s y (view s.srv.window s.clt.clt_nonce_ y)
  sent : ∀ pdu ∈ s.srv.sent,
    Issued s pdu.xid ∧ (pdu.ret = atmostonce_failure → Settled s pdu.xid)
  returned : ∀ p ∈ s.returned, p.2 ≠ atmostonce_failure

theorem inv_init (clt_nonce nonce_ : ℕ) (procs_ : List ℕ) :
    Inv (Session.init clt_nonce nonce_ procs_ : Session γ) where
  wf := wf_empty
  bound := by simp [Session.init]
  xid := rfl
  window := ⟨fun _ => False, windowInv_init (fun _ => id), fun _ _ h => h.elim⟩
  calls := by intro y ca h; cases h
  threads := by intro y h hh; cases hh
  wire := by intro h hh; cases hh
  jobs := by intro j hj; cases hj
  views := by intro y; trivial
  sent := by intro pdu h; cases h
  returned := by intro p h; cases h

/-! ## Steps of the client keep what is settled -/

/-- `s'` extends `s`: no call is un-issued, and a settled call stays settled. -/
structure Ext (s s' : Session γ) : Prop where
  nonce : s'.clt.clt_nonce_ = s.clt.clt_nonce_
  ncalls : s.ncalls ≤ s'.ncalls
  settled : ∀ y, Settled s y → Settled s' y

variable {y : ℕ} {s s' : Session γ}

theorem Ext.issued (e : Ext s s') (h : Issued s y) : Issued s' y :=
  ⟨h.1, h.2.trans e.ncalls⟩

variable {h : req_header}

theorem Ext.headerOk (e : Ext s s') (hh : HeaderOk s h) : HeaderOk s' h :=
  ⟨hh.ours.trans e.nonce.symm, e.issued hh.issued, fun y h1 h2 => e.settled y (hh.acked y h1 h2)⟩

theorem Ext.pcOk (e : Ext s s') {j : Job γ} (hj : PcOk s j) : PcOk s' j := by
  unfold PcOk at hj ⊢
  split
  · next hpc =>
    rw [hpc] at hj
    exact e.settled _ hj
  all_goals
    next hpc =>
      simp only [hpc] at hj
      exact hj

theorem Ext.viewOk (e : Ext s s') {v : View (reply_pdu γ)} (hv : ViewOk s y v) : ViewOk s' y v := by
  cases v with
  | absent => trivial
  | present b sz => exact ⟨e.issued hv.1, hv.2⟩
  | gone => exact e.settled y hv

theorem Ext.threads (e : Ext s s') (hinv : Inv s)
    (hh : s.threads y = some h) : h.xid = y ∧ HeaderOk s' h :=
  ⟨(hinv.threads y h hh).1, e.headerOk (hinv.threads y h hh).2⟩

theorem Ext.wire (e : Ext s s') (hinv : Inv s) (hh : h ∈ s.wire) : HeaderOk s' h :=
  e.headerOk (hinv.wire h hh)

/-- A step of the client that leaves the server alone keeps the invariant when the
parts of it that speak about the client hold again. -/
theorem inv_of_ext (hinv : Inv s) (e : Ext s s') (hsrv : s'.srv = s.srv)
    (hbound : s'.ncalls < 2 ^ 32) (hxid : s'.clt.xid_ = wrap32 (s'.ncalls + 1))
    (hwindow : ∃ R, WindowInv s'.clt.xid_rep_window_ R ∧ ∀ y, 1 ≤ y → R y → Settled s' y)
    (hcalls : ∀ y ca, s'.clt.calls_ y = some ca →
      Issued s' y ∧ (ca.done = true → ca.intret ≠ atmostonce_failure))
    (hthreads : ∀ y h, s'.threads y = some h → h.xid = y ∧ HeaderOk s' h)
    (hwire : ∀ h ∈ s'.wire, HeaderOk s' h)
    (hret : ∀ p ∈ s'.returned, p.2 ≠ atmostonce_failure) : Inv s' where
  wf := hsrv ▸ hinv.wf
  bound := hbound
  xid := hxid
  window := hwindow
  calls := hcalls
  threads := hthreads
  wire := hwire
  jobs := by
    rw [hsrv]
    exact fun j hj => ⟨e.headerOk (hinv.jobs j hj).1, e.pcOk (hinv.jobs j hj).2⟩
  views := by
    rw [hsrv, e.nonce]
    exact fun y => e.viewOk (hinv.views y)
  sent := by
    rw [hsrv]
    exact fun pdu hp => ⟨e.issued (hinv.sent pdu hp).1,
      fun h => e.settled _ ((hinv.sent pdu hp).2 h)⟩
  returned := hret

/-- What the window front acknowledges is settled. -/
theorem front_settled (hinv : Inv s) (y : ℕ) (h1 : 1 ≤ y)
    (h2 : y ≤ front s.clt.xid_rep_window_) : Settled s y := by
  obtain ⟨R, hR, hset⟩ := hinv.window
  exact hset y h1 (hR.reported y h1 h2)

variable {xid : ℕ}

/-- Reporting a call that is settled afterwards keeps the window's meaning. -/
theorem window_report (hinv : Inv s) (e : Ext s s')
    (hwin : s'.clt.xid_rep_window_ = update_xid_rep s.clt.xid_rep_window_ xid)
    (hset : Settled s' xid) (hbound : s'.ncalls < 2 ^ 32) :
    ∃ R, WindowInv s'.clt.xid_rep_window_ R ∧ ∀ y, 1 ≤ y → R y → Settled s' y := by
  obtain ⟨R, hR, hRs⟩ := hinv.window
  refine ⟨fun y => R y ∨ y = xid, ?_, ?_⟩
  · rw [hwin]
    exact update_xid_rep_spec hR hset.1.1 (lt_of_le_of_lt hset.1.2 hbound)
  · rintro y h1 (hy | rfl)
    · exact e.settled y (hRs y h1 hy)
    · exact hset

/-- `call1` taking an xid: it is a new one, as long as fewer than 2^32 were taken. -/
theorem inv_begin {proc : ℕ} (hinv : Inv s)
    (hs : step s (.begin proc) = some s') (hbound : s'.ncalls < 2 ^ 32) : Inv s' := by
  simp only [step, call1_begin] at hs
  split_ifs at hs
  cases hs
  -- with fewer than 2^32 calls made the counter has not wrapped
  have hx : s.clt.xid_ = s.ncalls + 1 := by
    rw [hinv.xid, wrap32, Nat.mod_eq_of_lt hbound]
  have hold : ∀ y, Issued s y → y ≠ s.clt.xid_ := by
    intro y hy
    have := hy.2
    omega
  generalize hs' : ({ s with clt := _, threads := _, ncalls := _ } : Session γ) = s'
  have hncalls : s'.ncalls = s.ncalls + 1 := by rw [← hs']
  have hcalls' : s'.clt.calls_ = Function.update s.clt.calls_ s.clt.xid_
      (some ⟨none, 0, false⟩) := by
    rw [← hs']
  have e : Ext s s' := by
    refine ⟨by rw [← hs'], by omega, fun y hy => ⟨⟨hy.1.1, ?_⟩, fun ca hca => hy.2 ca ?_⟩⟩
    · have := hy.1.2
      omega
    · rwa [hcalls', Function.update_of_ne (hold y hy.1)] at hca
  refine inv_of_ext hinv e (by rw [← hs']) (by rw [hncalls]; exact hbound) ?_ ?_ ?_ ?_ ?_ ?_
  · rw [hncalls, ← hs']
    show wrap32 (s.clt.xid_ + 1) = _
    rw [hx]
  · obtain ⟨R, hR, hRs⟩ := hinv.window
    exact ⟨R, by rw [← hs']; exact hR, fun y h1 hy => e.settled y (hRs y h1 hy)⟩
  · intro y ca hca
    rw [hcalls'] at hca
    rcases update_eq_some hca with ⟨rfl, hnew⟩ | ⟨-, hca⟩
    · obtain rfl := Option.some.inj hnew
      exact ⟨⟨by omega, by omega⟩, fun h => by cases h⟩
    · exact ⟨e.issued (hinv.calls y ca hca).1, (hinv.calls y ca hca).2⟩
  · intro y h hh
    rw [← hs'] at hh
    rcases update_eq_some hh with ⟨rfl, hnew⟩ | ⟨-, hh⟩
    · obtain rfl := Option.some.inj hnew
      -- the header carries the window front, and all that covers is settled
      have hissued : Issued s' s.clt.xid_ := ⟨by omega, by omega⟩
      refine ⟨rfl, e.nonce.symm, hissued, fun y h1 h2 => ?_⟩
      exact e.settled y (front_settled hinv y h1 h2)
    · exact e.threads hinv hh
  · rw [← hs']
    exact fun h hh => hs' ▸ e.wire hinv hh
  · rw [← hs']
    exact hinv.returned

/-- A request handed to the network. -/
theorem inv_transmit (hinv : Inv s) (hs : step s (.transmit xid) = some s') : Inv s' := by
  rw [step_transmit] at hs
  obtain ⟨h, hh, rfl⟩ := Option.map_eq_some_iff.mp hs
  have e : Ext s { s with wire := s.wire ++ [h] } := ⟨rfl, le_refl _, fun _ h => h⟩
  refine inv_of_ext hinv e rfl hinv.bound hinv.xid hinv.window hinv.calls
    (fun _ _ hh' => e.threads hinv hh') ?_ hinv.returned
  intro h' hm
  rcases List.mem_append.mp hm with hm | hm
  · exact e.wire hinv hm
  · rw [List.mem_singleton.mp hm]
    exact (e.threads hinv hh).2

/-- A reply that arrives: the call it answers, if it is still pending, is done. -/
theorem inv_reply {k : ℕ} (hinv : Inv s) (hs : step s (.reply k) = some s') : Inv s' := by
  rw [step_reply] at hs
  obtain ⟨pdu, hk, rfl⟩ := Option.map_eq_some_iff.mp hs
  have hsent := hinv.sent pdu (List.mem_of_getElem? hk)
  obtain ⟨hnonce, hxid, hwindow⟩ := got_pdu_rest s.clt pdu
  have e : Ext s { s with clt := got_pdu s.clt pdu } := by
    refine ⟨hnonce, le_refl _, fun y hy => ⟨hy.1, fun ca hca => ?_⟩⟩
    rcases got_pdu_calls hca with ⟨hca', -⟩ | ⟨-, rfl, -⟩
    · exact hy.2 ca hca'
    · rfl
  -- the reply settles its call in the very step that reports the xid
  have hset : Settled { s with clt := got_pdu s.clt pdu } pdu.xid := by
    refine ⟨e.issued hsent.1, fun ca hca => ?_⟩
    rcases got_pdu_calls hca with ⟨-, hd⟩ | ⟨-, rfl, -⟩
    · exact hd rfl
    · rfl
  refine inv_of_ext hinv e rfl hinv.bound (hxid.trans hinv.xid)
    (window_report hinv e hwindow hset hinv.bound) ?_ (fun y h hh => e.threads hinv hh)
    (fun h hh => e.wire hinv hh) hinv.returned
  intro y ca hca
  rcases got_pdu_calls hca with ⟨hca', -⟩ | ⟨rfl, rfl, ca', hca', hnd⟩
  · exact ⟨e.issued (hinv.calls y ca hca').1, (hinv.calls y ca hca').2⟩
  · -- a call that is still waiting was not settled, so this is not the reply
    -- `atmostonce_failure`
    refine ⟨e.issued (hinv.calls _ ca' hca').1, fun _ hfail => ?_⟩
    have hdone := (hsent.2 hfail).2 ca' hca'
    rw [hnd] at hdone
    cases hdone

/-- A call that is not done returns `timeout_failure`, and one that is done the value of a
reply. -/
theorem call1_return_ne (hinv : Inv s) (xid : ℕ) : call1_return s.clt xid ≠ atmostonce_failure := by
  unfold call1_return
  cases hca : s.clt.calls_ xid with
  | none =>
    show timeout_failure ≠ atmostonce_failure
    decide
  | some ca =>
    dsimp only
    split_ifs with hd
    · exact (hinv.calls xid ca hca).2 hd
    · decide

/-- A call that ends, done or not, leaves `calls_` in the step that reports it. -/
theorem inv_finish (hinv : Inv s) (hs : step s (.finish xid) = some s') : Inv s' := by
  rw [step_finish] at hs
  obtain ⟨h, hh, rfl⟩ := Option.map_eq_some_iff.mp hs
  obtain ⟨hxid, hok⟩ := hinv.threads xid h hh
  generalize hs' : ({ s with clt := _, threads := _, returned := _ } : Session γ) = s'
  have hncalls : s'.ncalls = s.ncalls := by rw [← hs']
  have hcalls' : ∀ y ca, s'.clt.calls_ y = some ca → y ≠ xid ∧ s.clt.calls_ y = some ca := by
    intro y ca hca
    rw [← hs'] at hca
    rcases update_eq_some hca with ⟨-, hnone⟩ | hold
    · cases hnone
    · exact hold
  have e : Ext s s' := by
    refine ⟨by rw [← hs']; rfl, by omega, fun y hy => ⟨⟨hy.1.1, hncalls ▸ hy.1.2⟩, ?_⟩⟩
    intro ca hca
    exact hy.2 ca (hcalls' y ca hca).2
  have hset : Settled s' xid := by
    refine ⟨e.issued (hxid ▸ hok.issued), fun ca hca => ?_⟩
    exact absurd rfl (hcalls' xid ca hca).1
  have hbound : s'.ncalls < 2 ^ 32 := hncalls ▸ hinv.bound
  refine inv_of_ext hinv e (by rw [← hs']) hbound ?_
    (window_report hinv e (by rw [← hs']; rfl) hset hbound) ?_ ?_ ?_ ?_
  · rw [hncalls, ← hs']
    exact hinv.xid
  · intro y ca hca
    obtain ⟨-, hold⟩ := hcalls' y ca hca
    exact ⟨e.issued (hinv.calls y ca hold).1, (hinv.calls y ca hold).2⟩
  · intro y h' hh'
    rw [← hs'] at hh'
    rcases update_eq_some hh' with ⟨-, hnone⟩ | ⟨-, hh'⟩
    · cases hnone
    · exact e.threads hinv hh'
  · rw [← hs']
    exact fun h' hm => hs' ▸ e.wire hinv hm
  · rw [← hs']
    intro p hp
    rcases List.mem_append.mp hp with hp | hp
    · exact hinv.returned p hp
    · rw [List.mem_singleton.mp hp]
      exact call1_return_ne hinv xid

/-- `bind` and `cancel` touch neither the window nor the xids, and `cancel` only
settles calls. -/
theorem inv_bound {r : ℕ} (hinv : Inv s) (hs : step s (.bound r) = some s') : Inv s' := by
  simp only [step] at hs
  split_ifs at hs
  cases hs
  have e : Ext s { s with clt := bind_store s.clt r } := ⟨rfl, le_refl _, fun _ h => h⟩
  exact inv_of_ext hinv e rfl hinv.bound hinv.xid hinv.window hinv.calls
    (fun _ _ hh => e.threads hinv hh) (fun _ hh => e.wire hinv hh) hinv.returned

theorem inv_cancel (hinv : Inv s) (hs : step s (.cancel xid) = some s') : Inv s' := by
  simp only [step] at hs
  split_ifs at hs
  cases hs
  have hcalls' : ∀ y ca, (cancel s.clt).calls_ y = some ca →
      ca.done = true ∧ ca.intret = cancel_failure ∧ ∃ ca', s.clt.calls_ y = some ca' := by
    intro y ca hca
    obtain ⟨ca', hca', rfl⟩ := Option.map_eq_some_iff.mp hca
    exact ⟨rfl, rfl, ca', hca'⟩
  have e : Ext s { s with clt := cancel s.clt } :=
    ⟨rfl, le_refl _, fun y hy => ⟨hy.1, fun ca hca => (hcalls' y ca hca).1⟩⟩
  refine inv_of_ext hinv e rfl hinv.bound hinv.xid ?_ ?_
    (fun _ _ hh => e.threads hinv hh) (fun _ hh => e.wire hinv hh) hinv.returned
  · obtain ⟨R, hR, hRs⟩ := hinv.window
    exact ⟨R, hR, fun y h1 hy => e.settled y (hRs y h1 hy)⟩
  · intro y ca hca
    obtain ⟨-, hint, ca', hca'⟩ := hcalls' y ca hca
    refine ⟨e.issued (hinv.calls y ca' hca').1, fun _ => ?_⟩
    rw [hint]
    decide

/-! ## Steps of the server -/

/-- A step of the server keeps the invariant when the window, the replies and the
jobs do. The client is not touched, so what is settled is the same. -/
theorem inv_server (hinv : Inv s) (srv : Server γ) (hwf : Wf srv.window)
    (hviews : ∀ y, ViewOk s y (view srv.window s.clt.clt_nonce_ y))
    (hsent : ∀ pdu ∈ srv.sent,
      Issued s pdu.xid ∧ (pdu.ret = atmostonce_failure → Settled s pdu.xid))
    (hjobs : ∀ j ∈ srv.jobs, HeaderOk s j.h ∧ PcOk s j) : Inv { s with srv := srv } := by
  have e : Ext s { s with srv := srv } := ⟨rfl, le_refl _, fun _ h => h⟩
  exact
    { wf := hwf
      bound := hinv.bound
      xid := hinv.xid
      window := hinv.window
      calls := hinv.calls
      threads := fun _ _ hh => e.threads hinv hh
      wire := fun _ hh => e.wire hinv hh
      jobs := fun j hj => ⟨e.headerOk (hjobs j hj).1, e.pcOk (hjobs j hj).2⟩
      views := fun y => e.viewOk (hviews y)
      sent := hsent
      returned := hinv.returned }

/-- What a job with header `h` may make of the server, and of its own place. -/
structure Kept (s : Session γ) (h : req_header) (r : Server γ × Pc γ) : Prop where
  jobs : r.1.jobs = s.srv.jobs
  wf : Wf r.1.window
  views : ∀ y, ViewOk s y (view r.1.window s.clt.clt_nonce_ y)
  sent : ∀ pdu ∈ r.1.sent, Issued s pdu.xid ∧ (pdu.ret = atmostonce_failure → Settled s pdu.xid)
  pc : PcOk s ⟨h, r.2⟩

/-- The same for a step of job `i`, which replaces only that job. -/
theorem inv_settle {i : ℕ} {j : Job γ} (hinv : Inv s)
    (hj : s.srv.jobs[i]? = some j) {r : Server γ × Pc γ} (hr : Kept s j.h r) :
    Inv { s with srv := settle i j.h r } := by
  refine inv_server hinv _ hr.wf hr.views hr.sent fun j' hj' => ?_
  have hmem : j' ∈ s.srv.jobs.set i ⟨j.h, r.2⟩ := by
    rw [← hr.jobs]
    exact hj'
  rcases List.mem_or_eq_of_mem_set hmem with hold | rfl
  · exact hinv.jobs j' hold
  · exact ⟨(hinv.jobs j (List.mem_of_getElem? hj)).1, hr.pc⟩

/-- The job moves on, and leaves the window and the replies alone. -/
theorem kept_move {srv : Server γ} {pc : Pc γ} (hinv : Inv s)
    (hjobs : srv.jobs = s.srv.jobs) (hwindow : srv.window = s.srv.window)
    (hsent : srv.sent = s.srv.sent) (hpc : PcOk s ⟨h, pc⟩) : Kept s h (srv, pc) := by
  refine ⟨hjobs, ?_, ?_, ?_, hpc⟩
  · rw [hwindow]
    exact hinv.wf
  · rw [hwindow]
    exact hinv.views
  · rw [hsent]
    exact hinv.sent

/-- One more reply handed to the connection. -/
theorem kept_send (hinv : Inv s) {b : reply_pdu γ}
    (hissued : Issued s b.xid) (hset : b.ret = atmostonce_failure → Settled s b.xid) :
    Kept s h ({ s.srv with sent := s.srv.sent ++ [b] }, .finished) := by
  refine ⟨rfl, hinv.wf, hinv.views, ?_, trivial⟩
  intro pdu hp
  rcases List.mem_append.mp hp with hp | hp
  · exact hinv.sent pdu hp
  · rw [List.mem_singleton.mp hp]
    exact ⟨hissued, hset⟩

/-- The window the trim loop starts from, with the request inserted. -/
theorem viewOk_inserted (hinv : Inv s) (hh : HeaderOk s h) (y : ℕ) :
    ViewOk s y (if y = h.xid then (view s.srv.window s.clt.clt_nonce_ h.xid).inserted
      else view s.srv.window s.clt.clt_nonce_ y) := by
  by_cases hy : y = h.xid
  · rw [if_pos hy]
    have hv := hinv.views h.xid
    subst hy
    cases hview : view s.srv.window s.clt.clt_nonce_ h.xid with
    | absent => exact ⟨hh.issued, fun pdu hp => by cases hp⟩
    | present b sz => rw [hview] at hv; exact hv
    | gone => rw [hview] at hv; exact hv
  · rw [if_neg hy]
    exact hinv.views y

/-- The duplicate check trims only settled calls: what the header acknowledges was
settled when the header was packed. -/
theorem viewOk_check (hinv : Inv s) (hh : HeaderOk s h) (y : ℕ) :
    ViewOk s y (view (checkduplicate_and_update s.srv.window h.clt_nonce h.xid h.xid_rep).2
      s.clt.clt_nonce_ y) := by
  rw [view_check hinv.wf, if_pos hh.ours.symm, hh.ours]
  have hins := viewOk_inserted hinv hh y
  generalize (if y = h.xid then (view s.srv.window s.clt.clt_nonce_ h.xid).inserted
      else view s.srv.window s.clt.clt_nonce_ y) = v at hins
  cases v with
  | absent => trivial
  | present b sz =>
    by_cases hle : y ≤ h.xid_rep
    · rw [View.acked, if_pos hle]
      exact hh.acked y hins.1.1 hle
    · rw [View.acked, if_neg hle]
      exact hins
  | gone => exact hins

/-- What the duplicate check tells the job. -/
theorem pcOk_check (hinv : Inv s) (hh : HeaderOk s h) :
    PcOk s ⟨h, .checked
      (checkduplicate_and_update s.srv.window h.clt_nonce h.xid h.xid_rep).1.stat
      (checkduplicate_and_update s.srv.window h.clt_nonce h.xid h.xid_rep).1.out⟩ := by
  have hv := hinv.views h.xid
  rw [check_result hinv.wf, hh.ours]
  cases hview : view s.srv.window s.clt.clt_nonce_ h.xid with
  | absent => trivial
  | present b sz =>
    rw [hview] at hv
    cases b with
    | none => trivial
    | some pdu => exact hv.2 pdu rfl
  | gone =>
    rw [hview] at hv
    exact hv

/-- Recording a reply. -/
theorem viewOk_add_reply (hinv : Inv s) {b1 : reply_pdu γ}
    {sz1 : ℤ} (hb : b1.ret ≠ atmostonce_failure ∧ b1.xid = h.xid) (y : ℕ) :
    ViewOk s y (view (add_reply s.srv.window h.clt_nonce h.xid (some b1) sz1)
      s.clt.clt_nonce_ y) := by
  have hv := hinv.views y
  rw [view_add_reply]
  by_cases hy : s.clt.clt_nonce_ = h.clt_nonce ∧ y = h.xid
  · rw [if_pos hy]
    rw [hy.1, hy.2] at hv
    cases hview : view s.srv.window h.clt_nonce h.xid with
    | absent => trivial
    | present b sz =>
      rw [hview] at hv
      refine ⟨hy.2 ▸ hv.1, fun pdu hp => ?_⟩
      cases hp
      exact ⟨hb.1, hb.2.trans hy.2.symm⟩
    | gone =>
      rw [hview] at hv
      exact hy.2 ▸ hv
  · rw [if_neg hy]
    exact hv

/-- The checks before the duplicate check. -/
theorem kept_start (hinv : Inv s) (hh : HeaderOk s h) : Kept s h (dispatch_start s.srv h) := by
  unfold dispatch_start
  split_ifs with hold hproc hnew
  · refine kept_send hinv hh.issued ?_
    intro hret
    cases hret
  · refine ⟨rfl, ?_, ?_, hinv.sent, trivial⟩
    · intro c hc
      by_cases hcn : c = h.clt_nonce
      · subst hcn
        simp at hc
      · simp only [Function.update_of_ne hcn] at hc
        exact hinv.wf c hc
    · intro y
      rw [view_touch _ _ _ _ hnew.2]
      exact hinv.views y
  · exact kept_move hinv rfl rfl rfl trivial
  · exact kept_move hinv rfl rfl rfl trivial

theorem kept_check (hinv : Inv s) (hh : HeaderOk s h) : Kept s h (dispatch_check s.srv h) := by
  unfold dispatch_check
  split_ifs
  · exact ⟨rfl, wf_check hinv.wf _ _ _, viewOk_check hinv hh, hinv.sent, pcOk_check hinv hh⟩
  · exact kept_move hinv rfl rfl rfl trivial

/-- A handler's own value is not negative, or the `VERIFY` has failed. -/
theorem kept_run (hinv : Inv s) (o : HandlerOut γ) : Kept s h (dispatch_run s.srv h o) := by
  dsimp only [dispatch_run]
  split_ifs with hneg
  · exact kept_move hinv rfl rfl rfl trivial
  · refine kept_move hinv rfl rfl rfl ⟨?_, rfl⟩
    show o.ret ≠ -4
    omega

theorem kept_next {j : Job γ} (hinv : Inv s) (hh : HeaderOk s j.h)
    (hpcok : PcOk s j) (o : HandlerOut γ) : Kept s j.h (dispatch_next s.srv j o) := by
  unfold PcOk at hpcok
  unfold dispatch_next
  cases hpc : j.pc with
  | start => exact kept_start hinv hh
  | known => exact kept_check hinv hh
  | checked stat out =>
    rw [hpc] at hpcok
    cases stat with
    | NEW => exact kept_run hinv o
    | INPROGRESS => exact kept_move hinv rfl rfl rfl trivial
    | DONE =>
      rcases out with _ | ⟨_ | b1, sz1⟩
      · exact kept_move hinv rfl rfl rfl trivial
      · exact kept_move hinv rfl rfl rfl trivial
      · exact kept_send hinv (hpcok.2 ▸ hh.issued) fun h => absurd h hpcok.1
    -- the only place that sends `atmostonce_failure`
    | FORGOTTEN => exact kept_send hinv hh.issued fun _ => hpcok
  | ran b1 sz1 =>
    rw [hpc] at hpcok
    dsimp only
    split_ifs
    · exact ⟨rfl, wf_add_reply hinv.wf _ _ _ _, viewOk_add_reply hinv hpcok, hinv.sent, hpcok⟩
    · exact kept_move hinv rfl rfl rfl hpcok
  | recorded b1 kept =>
    rw [hpc] at hpcok
    exact kept_send hinv (hpcok.2 ▸ hh.issued) fun h => absurd h hpcok.1
  | finished => exact kept_move hinv rfl rfl rfl trivial

/-- **A step of a job keeps the invariant.** -/
theorem inv_job {i : ℕ} {o : HandlerOut γ} (hinv : Inv s)
    (hs : step s (.job i o) = some s') : Inv s' := by
  simp only [step, Option.map_eq_some_iff] at hs
  obtain ⟨srv, hsrv, rfl⟩ := hs
  simp only [RpcDispatch.step] at hsrv
  split_ifs at hsrv
  cases hj : s.srv.jobs[i]? with
  | none => rw [hj] at hsrv; cases hsrv
  | some j =>
    rw [hj] at hsrv
    cases hsrv
    obtain ⟨hh, hpcok⟩ := hinv.jobs j (List.mem_of_getElem? hj)
    exact inv_settle hinv hj (kept_next hinv hh hpcok o)

/-- A request that the network delivers. -/
theorem inv_request (hinv : Inv s) (hs : step s (.request h) = some s') : Inv s' := by
  simp only [step] at hs
  split_ifs at hs with hw
  obtain ⟨srv, hsrv, rfl⟩ := Option.map_eq_some_iff.mp hs
  simp only [RpcDispatch.step] at hsrv
  split_ifs at hsrv
  cases hsrv
  refine inv_server hinv _ hinv.wf hinv.views hinv.sent fun j hj => ?_
  rcases List.mem_append.mp hj with hj | hj
  · exact hinv.jobs j hj
  · rw [List.mem_singleton.mp hj]
    exact ⟨hinv.wire h hw, trivial⟩

/-! ## Runs -/

theorem ncalls_mono {a : Act γ} (hs : step s a = some s') : s.ncalls ≤ s'.ncalls := by
  cases a <;> simp only [step] at hs
  case begin proc =>
    split at hs
    · cases hs
    · cases hs
      exact Nat.le_succ _
  case job i o =>
    obtain ⟨srv, -, rfl⟩ := Option.map_eq_some_iff.mp hs
    exact le_refl _
  case request h =>
    split_ifs at hs
    obtain ⟨srv, -, rfl⟩ := Option.map_eq_some_iff.mp hs
    exact le_refl _
  all_goals
    split at hs <;> cases hs
    exact le_refl _

/-- The invariant holds after every step, as long as fewer than 2^32 calls have
been made. -/
theorem inv_step (s : Session γ) (a : Act γ) (s' : Session γ)
    (hinv : s.ncalls < 2 ^ 32 → Inv s) (hs : step s a = some s') :
    s'.ncalls < 2 ^ 32 → Inv s' := by
  intro hbound
  -- the calls made before the step are no more than those made after it
  have hinv := hinv (lt_of_le_of_lt (ncalls_mono hs) hbound)
  cases a with
  | begin proc => exact inv_begin hinv hs hbound
  | transmit xid => exact inv_transmit hinv hs
  | request h => exact inv_request hinv hs
  | job i o => exact inv_job hinv hs
  | reply k => exact inv_reply hinv hs
  | finish xid => exact inv_finish hinv hs
  | bound r => exact inv_bound hinv hs
  | cancel xid => exact inv_cancel hinv hs

theorem inv_run {clt_nonce nonce_ : ℕ} {procs_ : List ℕ} {as : List (Act γ)}
    (hrun : Steps.run step (Session.init clt_nonce nonce_ procs_) as = some s)
    (hcalls : s.ncalls < 2 ^ 32) : Inv s :=
  Steps.run_inv_all (P := fun s => s.ncalls < 2 ^ 32 → Inv s) inv_step
    (fun _ => inv_init clt_nonce nonce_ procs_) hrun hcalls

/-- The duplicate check of header `h` removes the entry of `y` from the window. -/
def Trims (w : rpcs (reply_pdu γ)) (h : req_header) (y : ℕ) : Prop :=
  (∃ it ∈ pushed w h.clt_nonce h.xid, it.xid = y) ∧
    ∀ it ∈ ((checkduplicate_and_update w h.clt_nonce h.xid h.xid_rep).2.reply_window_
      h.clt_nonce).getD [], it.xid ≠ y

/-- A trimmed entry is one the header acknowledges. -/
theorem Trims.le {w : rpcs (reply_pdu γ)} (ht : Trims w h y) : y ≤ h.xid_rep := by
  obtain ⟨⟨it, hit, rfl⟩, hgone⟩ := ht
  by_contra hlt
  refine hgone it ?_ rfl
  simp only [checkduplicate_and_update, Function.update_self, Option.getD_some, trim_window,
    List.mem_filter, decide_eq_true_eq]
  exact ⟨hit, by omega⟩

end Yfs.RpcSession
