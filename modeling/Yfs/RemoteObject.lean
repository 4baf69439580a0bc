/-
An object behind `rpcs`, called by any number of clients through their stubs.

The layers meet here: the stubs of `rpc.h`, which marshal and unmarshal, the PDUs as the
other end has them, the windows of client and server, and a network that loses, repeats and
delays. The server may crash at any moment and come back with a new nonce and a fresh object.

`dispatch` runs handlers on all threads of the pool at once and holds no mutex meanwhile. So
what is said here is about an object whose methods take effect at one moment while they run, as
those that hold one mutex of the object from start to end do: the step that runs a handler is
that moment, and the time before it and after it belongs to the steps around. The handlers of
`extent_server` hold `mutexFile` in this way. A method that touches the object without a mutex
is not such a method.

Under that condition the calls of all clients take effect one after the other, each at the
moment its handler is run, with the values its caller passed; a caller to whom a value is
returned gets the value and the reply of that moment; and the moment lies between the call and
its return. A reply that is sent from a buffer after it was freed can tell a client anything,
so the runs considered have none.
-/
import Yfs.RpcNetwork
import Yfs.RpcStubs

set_option autoImplicit false

namespace Yfs.RemoteObject

open Yfs.WireTypes Yfs.WireRoundTrip Yfs.RpcStubs Yfs.RpcNetwork
open Yfs.Connection (Pdu)
open Yfs.RpcDispatch (req_header HandlerOut Job)
open Yfs.RpcClient (bind_proc call1_begin)

/-! ## The system -/

/-- A call under way: the header `call1` has packed, the arguments, and the PDU that is sent,
again and again if need be. -/
structure Call where
  h : req_header
  vs : List Value
  pdu : Pdu

structure World (S : Type) where
  net : Network Pdu
  sob : S
  /-- The calls that were begun, in order. -/
  calls : List Call

variable {S : Type}

/-- `rpcs::rpcbind`. -/
def rpcbind (nonce_ : ℕ) : method S := ⟨[.int], .int, fun sob _ => (0, Int32.ofNat nonce_, sob)⟩

variable (procs : List (ℕ × method S)) (sob₀ : S)

/-- `procs_[proc]`, in the process with this nonce. -/
def handlerOf (nonce_ proc : ℕ) : Option (method S) :=
  if proc = bind_proc then some (rpcbind nonce_)
  else (procs.find? fun p => p.1 == proc).map Prod.snd

def World.init (clt_nonces : List ℕ) (nonce_ : ℕ) : World S :=
  ⟨Network.init clt_nonces nonce_ (bind_proc :: procs.map Prod.fst), sob₀, []⟩

inductive Act where
  /-- A thread of client `i` calls `proc`. -/
  | call (i proc : ℕ) (vs : List Value) (junk : ℤ → UInt8)
  | transmit (i xid : ℕ)
  | finish (i xid : ℕ)
  | cancel (i xid : ℕ)
  /-- `bind` stores what its call, the `k`-th that returned, has read. -/
  | bound (i k : ℕ)
  | request (i : ℕ) (h : req_header)
  | job (k : ℕ) (junk : ℤ → UInt8)
  /-- Job `k` sends a buffer that has been freed; the memory holds `junk` by now. -/
  | stale (k : ℕ) (junk : RpcDispatch.reply_pdu Pdu)
  | reply (i k : ℕ)
  | restart (nonce_ : ℕ)

/-- The network takes a step that the object does not see. -/
def World.on (w : World S) (a : RpcNetwork.Act Pdu) : Option (World S) :=
  (RpcNetwork.step w.net a).map fun net => { w with net := net }

/-- The next step of the job runs the handler. -/
def runs (j : Job Pdu) : Bool :=
  match j.pc with
  | .checked .NEW _ => true
  | _ => false

/-- What a job that runs no handler does not look at. -/
def unused : HandlerOut Pdu := ⟨0, ⟨fun _ => 0, 0⟩, 0⟩

def step (w : World S) : Act → Option (World S)
  | .call i proc vs junk =>
    match w.net.clients[i]? with
    | none => none
    | some c =>
      match call1_begin c.clt proc with
      | .error _ => none
      | .ok (h, _) => do
        let pdu ← call junk h vs
        let net ← RpcNetwork.step w.net (.client i (.begin proc))
        some { w with net := net, calls := w.calls ++ [⟨h, vs, pdu⟩] }
  | .transmit i xid => w.on (.client i (.transmit xid))
  | .finish i xid => w.on (.client i (.finish xid))
  | .cancel i xid => w.on (.client i (.cancel xid))
  | .bound i k =>
    match w.net.clients[i]?.bind fun c => c.returned[k]? with
    | none => none
    | some (h, v, un) =>
      if h.proc = bind_proc ∧ v = 0 then
        match call_m .int v (un.map received) with
        -- an `int` is stored in an `unsigned`
        | some (_, some r) => w.on (.client i (.bound (Int32.toUInt32 r).toNat))
        | _ => none
      else none
  | .request i h => w.on (.request i h)
  | .job k junk =>
    match w.net.srv.jobs[k]? with
    | none => none
    | some j =>
      if runs j then
        match handlerOf procs w.net.srv.nonce_ j.h.proc, w.calls.find? (fun c => c.h = j.h) with
        | some f, some c => do
          let (o, sob) ← dispatch_new f w.sob junk (received c.pdu)
          let net ← RpcNetwork.step w.net (.job k o)
          some { w with net := net, sob := sob }
        | _, _ => none
      else w.on (.job k unused)
  | .stale k junk => w.on (.stale k junk)
  | .reply i k => w.on (.reply i k)
  | .restart nonce_ => (RpcNetwork.step w.net (.restart nonce_)).map fun net =>
    { w with net := net, sob := sob₀ }

/-- The conditions: fewer than `2^32` calls of each client, calls of the types the method is
registered with that fit into a PDU, fresh nonces that are not 0, and no reply from a freed
buffer. -/
def Allowed (w : World S) : Act → Prop
  | .call i proc vs _ => RpcNetwork.Allowed w.net (.client i (.begin proc)) ∧ Fits vs
      ∧ (handlerOf procs w.net.srv.nonce_ proc).all (fun f => vs.map Sigma.fst = f.args) = true
  | .restart nonce_ => nonce_ ∉ w.net.nonces ∧ 0 < nonce_ ∧ nonce_ < 2 ^ 32
  | .stale _ _ => False
  | _ => True

instance decidableAllowed (w : World S) : (a : Act) → Decidable (Allowed procs w a)
  | .call _ _ _ _ => inferInstanceAs (Decidable (_ ∧ _ ∧ _))
  | .restart _ => inferInstanceAs (Decidable (_ ∧ _ ∧ _))
  | .stale _ _ => .isFalse id
  | .transmit _ _ | .finish _ _ | .cancel _ _ | .bound _ _ | .request _ _ | .job _ _
  | .reply _ _ => .isTrue trivial

/-- The types of a procedure are the same in every process. -/
theorem handlerOf_args {procs : List (ℕ × method S)} {m m' proc : ℕ} {f f' : method S}
    (hf : handlerOf procs m proc = some f) (hf' : handlerOf procs m' proc = some f') :
    f'.args = f.args := by
  unfold handlerOf at hf hf'
  split at hf
  · next hproc =>
    rw [if_pos hproc] at hf'
    cases hf
    cases hf'
    rfl
  · next hproc =>
    rw [if_neg hproc, hf] at hf'
    cases hf'
    rfl

/-! ## What the object has been through -/

/-- The object after the handler of `e` was run with the values of its call. -/
def apply (calls : List Call) (sob : S) (e : Execution Pdu) : S :=
  match handlerOf procs e.nonce e.h.proc, calls.find? (fun c => c.h = e.h) with
  | some f, some c =>
    if ht : c.vs.map Sigma.fst = f.args then (f.meth sob ⟨c.vs, ht⟩).2.2 else sob
  | _, _ => sob

/-- The object of the process with nonce `m` after these runs of handlers. -/
def objectAt (calls : List Call) (m : ℕ) (l : List (Execution Pdu)) : S :=
  (l.filter fun e => e.nonce = m).foldl (apply procs calls) sob₀

/-- A run of a handler is a call of the method on the object as it was: with the values the
caller passed, and with a value and a reply that the caller can read. -/
def Did (calls : List Call) (sob : S) (e : Execution Pdu) : Prop :=
  ∃ (f : method S) (as : Args f.args), handlerOf procs e.nonce e.h.proc = some f
    ∧ (∃ c ∈ calls, c.h = e.h ∧ c.vs = as.1)
    ∧ e.out.ret = (f.meth sob as).1.toInt
    ∧ (0 ≤ e.out.ret → call_m f.R e.out.ret (some (received e.out.body))
        = some (e.out.ret, some (f.meth sob as).2.1))

section Objects

variable {procs sob₀} {calls : List Call} {sob : S} {e : Execution Pdu} {m : ℕ}
  {l : List (Execution Pdu)}

/-- A header that was issued finds the same call, however many follow. -/
theorem find_append (hc : ∃ c ∈ calls, c.h = e.h) (ks : List Call) :
    (calls ++ ks).find? (fun c => c.h = e.h) = calls.find? fun c => c.h = e.h := by
  obtain ⟨c, hmem, hh⟩ := hc
  have hsome : (calls.find? fun c => c.h = e.h).isSome = true := by
    rw [List.find?_isSome]
    exact ⟨c, hmem, decide_eq_true hh⟩
  obtain ⟨c', hc'⟩ := Option.isSome_iff_exists.mp hsome
  rw [List.find?_append, hc', Option.some_or]

theorem apply_append (hc : ∃ c ∈ calls, c.h = e.h) (ks : List Call) :
    apply procs (calls ++ ks) sob e = apply procs calls sob e := by
  unfold apply
  rw [find_append hc]

/-- What was run before does not depend on the calls that come later. -/
theorem objectAt_append (hl : ∀ e ∈ l, ∃ c ∈ calls, c.h = e.h) (ks : List Call) (m : ℕ) :
    objectAt procs sob₀ (calls ++ ks) m l = objectAt procs sob₀ calls m l := by
  unfold objectAt
  refine List.foldl_ext _ _ _ fun sob e he => ?_
  exact apply_append (hl e (List.mem_of_mem_filter he)) ks

/-- One more run of a handler is one more method on the object. -/
theorem objectAt_concat (calls : List Call) (l : List (Execution Pdu)) (e : Execution Pdu) :
    objectAt procs sob₀ calls e.nonce (l ++ [e])
      = apply procs calls (objectAt procs sob₀ calls e.nonce l) e := by
  have hsame : [e].filter (fun e' => e'.nonce = e.nonce) = [e] :=
    List.filter_cons_of_pos (decide_eq_true rfl)
  rw [objectAt, List.filter_append, hsame, List.foldl_append]
  rfl

/-- A process that has run nothing has the object it was started with. -/
theorem objectAt_fresh (hl : ∀ e ∈ l, e.nonce ≠ m) :
    objectAt procs sob₀ calls m l = sob₀ := by
  have hnil : l.filter (fun e => e.nonce = m) = [] := by
    rw [List.filter_eq_nil_iff]
    intro e he heq
    exact hl e he (of_decide_eq_true heq)
  rw [objectAt, hnil, List.foldl_nil]

theorem Did.append (h : Did procs calls sob e) (ks : List Call) :
    Did procs (calls ++ ks) sob e := by
  obtain ⟨f, as, hf, ⟨c, hc, hrest⟩, hout⟩ := h
  exact ⟨f, as, hf, ⟨c, List.mem_append_left ks hc, hrest⟩, hout⟩

end Objects

/-! ## What a step leaves alone -/

/-- What a client has begun, and what it is bound to. -/
structure Facts where
  issued : List req_header
  bind_done_ : Bool
  srv_nonce_ : ℕ
  clt_nonce_ : ℕ

def factsOf (c : Client Pdu) : Facts :=
  ⟨c.issued, c.clt.bind_done_, c.clt.srv_nonce_, c.clt.clt_nonce_⟩

/-- A step of the network that the object does not see. -/
structure Still (n n' : Network Pdu) : Prop where
  clients : n'.clients.map factsOf = n.clients.map factsOf
  executions : n'.executions = n.executions
  nonce : n'.srv.nonce_ = n.srv.nonce_
  nonces : n'.nonces = n.nonces
  stale : n'.stale = n.stale

section Still

variable {n n' : Network Pdu}

/-- Only `begin` and `bound` change what a client has issued or is bound to; sending,
returning and cancelling do not. -/
theorem factsOf_step {c c' : Client Pdu} {a : ClientAct} (hbegin : ∀ proc, a ≠ .begin proc)
    (hbound : ∀ r, a ≠ .bound r) (hs : c.step a = some c') : factsOf c' = factsOf c := by
  cases a with
  | begin proc => exact absurd rfl (hbegin proc)
  | bound r => exact absurd rfl (hbound r)
  | transmit xid =>
    obtain ⟨h, -, rfl⟩ := Option.map_eq_some_iff.mp hs
    rfl
  | finish xid =>
    obtain ⟨h, -, rfl⟩ := Option.map_eq_some_iff.mp hs
    rfl
  | cancel xid =>
    simp only [Client.step] at hs
    split at hs
    · cases hs
      rfl
    · cases hs

/-- A client that sends, returns or cancels runs no handler and issues no header. -/
theorem still_client {i : ℕ} {a : ClientAct} (hbegin : ∀ proc, a ≠ .begin proc)
    (hbound : ∀ r, a ≠ .bound r) (hs : RpcNetwork.step n (.client i a) = some n') :
    Still n n' := by
  simp only [RpcNetwork.step] at hs
  split at hs
  · cases hs
  · next c hi =>
    obtain ⟨c', hc', rfl⟩ := Option.map_eq_some_iff.mp hs
    exact ⟨Refs.map_set_same hi (factsOf_step hbegin hbound hc'), rfl, rfl, rfl, rfl⟩

/-- A request that arrives becomes a job; its handler is not run yet. -/
theorem still_request {i : ℕ} {h : req_header} (hs : RpcNetwork.step n (.request i h) = some n') :
    Still n n' := by
  simp only [RpcNetwork.step] at hs
  split at hs
  · cases hs
  · split at hs
    · obtain ⟨srv, hsrv, rfl⟩ := Option.map_eq_some_iff.mp hs
      simp only [RpcDispatch.step] at hsrv
      split at hsrv
      · cases hsrv
      · cases hsrv
        exact ⟨rfl, rfl, rfl, rfl, rfl⟩
    · cases hs

theorem factsOf_got_pdu (c : Client Pdu) (pdu : RpcDispatch.reply_pdu Pdu) :
    factsOf { c with clt := RpcClient.got_pdu c.clt pdu } = factsOf c := by
  simp only [factsOf, RpcClient.got_pdu]
  split
  · rfl
  · split <;> rfl

/-- A reply changes what its client waits for, and nothing else. -/
theorem still_reply {i k : ℕ} (hs : RpcNetwork.step n (.reply i k) = some n') : Still n n' := by
  simp only [RpcNetwork.step] at hs
  split at hs
  · next c nonce pdu hi hk =>
    split at hs
    · cases hs
      exact ⟨Refs.map_set_same hi (factsOf_got_pdu c pdu), rfl, rfl, rfl, rfl⟩
    · cases hs
  · cases hs

/-- A step of a job. -/
theorem job_step {k : ℕ} {o : HandlerOut Pdu} {j : Job Pdu} (hn : RpcNetwork.Inv n)
    (hj : n.srv.jobs[k]? = some j) (hs : RpcNetwork.step n (.job k o) = some n') :
    n'.clients = n.clients ∧ n'.executions = n.executions ++ ran n.srv.nonce_ j o
      ∧ n'.srv.nonce_ = n.srv.nonce_ ∧ n'.nonces = n.nonces ∧ n'.stale = n.stale := by
  obtain ⟨-, hpcok⟩ := hn.jobs j (List.mem_of_getElem? hj)
  simp only [RpcNetwork.step, hj] at hs
  obtain ⟨srv, hsrv, rfl⟩ := Option.map_eq_some_iff.mp hs
  simp only [RpcDispatch.step, hj] at hsrv
  split at hsrv
  · cases hsrv
  · cases hsrv
    exact ⟨rfl, rfl, (jobStep_next hn.views hn.srv.wf hpcok o).nonce, rfl, rfl⟩

/-- A job that finds its request new runs the handler in its next step. -/
theorem ran_of_runs {j : Job Pdu} (hr : runs j = true) (m : ℕ) (o : HandlerOut Pdu) :
    ran m j o = [⟨m, j.h, o⟩] := by
  unfold runs at hr
  unfold ran
  split at hr
  · next hpc => rw [hpc]
  · cases hr

theorem ran_of_not_runs {j : Job Pdu} (hr : ¬ runs j = true) (m : ℕ) (o : HandlerOut Pdu) :
    ran m j o = [] := by
  unfold runs at hr
  unfold ran
  split at hr
  · exact absurd rfl hr
  · next hpc =>
    split
    · next heq => exact absurd heq (hpc _)
    · rfl

end Still

/-! ## The invariant -/

/-- A call that was begun: its PDU, and the types of its arguments. -/
structure CallOk (c : Call) : Prop where
  fits : Fits c.vs
  pdu : ∃ junk, call junk c.h c.vs = some c.pdu
  types : ∀ m f, handlerOf procs m c.h.proc = some f → c.vs.map Sigma.fst = f.args

/-- Whoever is bound is bound to a server process, and names it in its calls. -/
def Bound (nonces : List ℕ) (f : Facts) : Prop :=
  (f.bind_done_ = true → f.srv_nonce_ ∈ nonces)
    ∧ ∀ h ∈ f.issued, h.proc ≠ bind_proc → h.srv_nonce ∈ nonces

structure Inv (clt_nonces : List ℕ) (w : World S) : Prop where
  net : RpcNetwork.Inv w.net
  clients : (w.net.clients.map factsOf).map Facts.clt_nonce_ = clt_nonces
  nonces : ∀ m ∈ w.net.nonces, 0 < m ∧ m < 2 ^ 32
  stale : w.net.stale = []
  named : ∀ h, (∃ f ∈ w.net.clients.map factsOf, h ∈ f.issued) ↔ ∃ c ∈ w.calls, c.h = h
  distinct : (w.calls.map Call.h).Nodup
  calls : ∀ c ∈ w.calls, CallOk procs c
  bound : ∀ f ∈ w.net.clients.map factsOf, Bound w.net.nonces f
  sob : w.sob = objectAt procs sob₀ w.calls w.net.srv.nonce_ w.net.executions
  did : ∀ l₁ e l₂, w.net.executions = l₁ ++ e :: l₂ →
    Did procs w.calls (objectAt procs sob₀ w.calls e.nonce l₁) e

section Inv

variable {procs sob₀} {clt_nonces : List ℕ} {w w' : World S}

theorem named_iff {n : Network Pdu} {h : req_header} :
    Named n h ↔ ∃ f ∈ n.clients.map factsOf, h ∈ f.issued := by
  refine ⟨?_, ?_⟩
  · rintro ⟨c, hc, hh⟩
    exact ⟨factsOf c, List.mem_map_of_mem hc, hh⟩
  · rintro ⟨f, hf, hh⟩
    obtain ⟨c, hc, rfl⟩ := List.mem_map.mp hf
    exact ⟨c, hc, hh⟩

theorem Inv.clients_eq (h : Inv procs sob₀ clt_nonces w) :
    (w.net.clients.map fun c => c.clt.clt_nonce_) = clt_nonces := by
  rw [← h.clients, List.map_map]
  rfl

/-- What is run was called. -/
theorem Inv.called (h : Inv procs sob₀ clt_nonces w) {e : Execution Pdu}
    (he : e ∈ w.net.executions) : ∃ c ∈ w.calls, c.h = e.h :=
  (h.named e.h).mp (named_iff.mp (h.net.log e he).1)

theorem inv_init {nonce_ : ℕ} (hnonce : 0 < nonce_ ∧ nonce_ < 2 ^ 32) :
    Inv procs sob₀ clt_nonces (World.init procs sob₀ clt_nonces nonce_) where
  net := RpcNetwork.inv_init clt_nonces nonce_ _
  clients := by
    show ((clt_nonces.map Client.init).map factsOf).map Facts.clt_nonce_ = clt_nonces
    rw [List.map_map, List.map_map]
    exact List.map_id clt_nonces
  nonces := by
    intro m hm
    rw [List.mem_singleton.mp hm]
    exact hnonce
  stale := rfl
  named := by
    intro h
    refine ⟨?_, fun ⟨c, hc, _⟩ => absurd hc List.not_mem_nil⟩
    rintro ⟨f, hf, hh⟩
    obtain ⟨c, hc, rfl⟩ := List.mem_map.mp hf
    obtain ⟨m, -, rfl⟩ := List.mem_map.mp hc
    exact absurd hh List.not_mem_nil
  distinct := List.nodup_nil
  calls := List.forall_mem_nil _
  bound := by
    intro f hf
    obtain ⟨c, hc, rfl⟩ := List.mem_map.mp hf
    obtain ⟨m, -, rfl⟩ := List.mem_map.mp hc
    exact ⟨fun hdone => Bool.noConfusion hdone, List.forall_mem_nil _⟩
  sob := rfl
  did := by
    intro l₁ e l₂ heq
    exact absurd heq.symm (List.append_ne_nil_of_right_ne_nil l₁ (List.cons_ne_nil e l₂))

/-- The invariant speaks of headers, calls and executions only, so such a step keeps it. -/
theorem inv_still {net' : Network Pdu} (h : Inv procs sob₀ clt_nonces w)
    (hnet : RpcNetwork.Inv net') (hs : Still w.net net') :
    Inv procs sob₀ clt_nonces { w with net := net' } := by
  refine ⟨hnet, ?_, ?_, hs.stale.trans h.stale, ?_, h.distinct, h.calls, ?_, ?_, ?_⟩
  · rw [hs.clients]
    exact h.clients
  · rw [hs.nonces]
    exact h.nonces
  · rw [hs.clients]
    exact h.named
  · rw [hs.clients, hs.nonces]
    exact h.bound
  · show w.sob = objectAt procs sob₀ w.calls net'.srv.nonce_ net'.executions
    rw [hs.nonce, hs.executions]
    exact h.sob
  · show ∀ l₁ e l₂, net'.executions = _ → _
    rw [hs.executions]
    exact h.did

/-- What `call1` packs, and that it refuses a client that is not bound unless the call is the
binding itself. -/
theorem call1_begin_ok {γ : Type} {c clt' : RpcClient.rpcc γ} {proc : ℕ} {h : req_header}
    (hb : call1_begin c proc = .ok (h, clt')) :
    (proc = bind_proc ∨ c.bind_done_ = true)
      ∧ h = ⟨c.xid_, proc, c.clt_nonce_, c.srv_nonce_, RpcClient.front c.xid_rep_window_⟩
      ∧ clt'.bind_done_ = c.bind_done_ ∧ clt'.srv_nonce_ = c.srv_nonce_
      ∧ clt'.clt_nonce_ = c.clt_nonce_ := by
  unfold call1_begin at hb
  split at hb
  · cases hb
  · next hrefused =>
    split at hb
    · cases hb
    · cases hb
      refine ⟨?_, rfl, rfl, rfl, rfl⟩
      by_cases hproc : proc = bind_proc
      · exact .inl hproc
      · exact .inr (by_contra fun hdone => hrefused (.inl ⟨hproc, hdone⟩))

/-- The clients after one of them has issued a header. -/
theorem issued_set {l : List (Client Pdu)} {i : ℕ} {c c' : Client Pdu} {h x : req_header}
    (hi : l[i]? = some c) (hc' : c'.issued = c.issued ++ [h]) :
    (∃ f ∈ (l.set i c').map factsOf, x ∈ f.issued)
      ↔ (∃ f ∈ l.map factsOf, x ∈ f.issued) ∨ x = h := by
  have hlt : i < l.length := (List.getElem?_eq_some_iff.mp hi).1
  have hmem : c' ∈ l.set i c' := List.mem_of_getElem? (List.getElem?_set_self hlt)
  have hnew : ∀ y, y ∈ c'.issued ↔ y ∈ c.issued ∨ y = h := by
    intro y
    rw [hc', List.mem_append, List.mem_singleton]
  refine ⟨?_, ?_⟩
  · rintro ⟨f, hf, hx⟩
    obtain ⟨d, hd, rfl⟩ := List.mem_map.mp hf
    rcases List.mem_or_eq_of_mem_set hd with hold | rfl
    · exact .inl ⟨factsOf d, List.mem_map_of_mem hold, hx⟩
    · rcases (hnew x).mp hx with hx | rfl
      · exact .inl ⟨factsOf c, List.mem_map_of_mem (List.mem_of_getElem? hi), hx⟩
      · exact .inr rfl
  · rintro (⟨f, hf, hx⟩ | rfl)
    · obtain ⟨d, hd, rfl⟩ := List.mem_map.mp hf
      obtain ⟨k, hk⟩ := List.mem_iff_getElem?.mp hd
      by_cases hki : k = i
      · subst hki
        obtain rfl : d = c := Option.some.inj (hk.symm.trans hi)
        exact ⟨factsOf c', List.mem_map_of_mem hmem, (hnew x).mpr (.inl hx)⟩
      · have hd' : d ∈ l.set i c' := by
          refine List.mem_of_getElem? (i := k) ?_
          rw [List.getElem?_set_ne (Ne.symm hki), hk]
        exact ⟨factsOf d, List.mem_map_of_mem hd', hx⟩
    · exact ⟨factsOf c', List.mem_map_of_mem hmem, (hnew x).mpr (.inr rfl)⟩

/-- The header of a new call is a new one. -/
theorem Inv.fresh (h : Inv procs sob₀ clt_nonces w) (hnodup : clt_nonces.Nodup) {c : Client Pdu}
    (hc : c ∈ w.net.clients) (hbound : c.issued.length + 1 < 2 ^ 32) {x : req_header}
    (hxid : x.xid = c.clt.xid_) (hclt : x.clt_nonce = c.clt.clt_nonce_) :
    ¬ ∃ f ∈ w.net.clients.map factsOf, x ∈ f.issued := by
  intro hnamed
  obtain ⟨d, hd, hx⟩ := named_iff.mpr hnamed
  obtain ⟨k, hk⟩ := List.mem_iff_getElem?.mp hx
  obtain ⟨hkx, hkc⟩ := (h.net.clients d hd).issued k x hk
  have hdistinct : (w.net.clients.map fun c => c.clt.clt_nonce_).Nodup := h.clients_eq ▸ hnodup
  obtain rfl : d = c := List.inj_on_of_nodup_map hdistinct hd hc (hkc.symm.trans hclt)
  have hlt : k < d.issued.length := (List.getElem?_eq_some_iff.mp hk).1
  have hnext := (h.net.clients d hd).xid
  rw [RpcClient.wrap32, Nat.mod_eq_of_lt hbound] at hnext
  omega

theorem calls_concat {calls : List Call} {k : Call} {y : req_header} :
    (∃ c ∈ calls ++ [k], c.h = y) ↔ (∃ c ∈ calls, c.h = y) ∨ k.h = y := by
  simp only [List.mem_append, List.mem_singleton, or_and_right, exists_or, exists_eq_left]

/-- Types that fit in one server process fit in all of them. -/
theorem types_of_all {m m' proc : ℕ} {vs : List Value} {f : method S}
    (h : (handlerOf procs m proc).all (fun f => vs.map Sigma.fst = f.args) = true)
    (hf : handlerOf procs m' proc = some f) : vs.map Sigma.fst = f.args := by
  cases hg : handlerOf procs m proc with
  | none =>
    unfold handlerOf at hf hg
    split at hg
    · cases hg
    · next hproc =>
      rw [if_neg hproc, hg] at hf
      cases hf
  | some g =>
    rw [hg] at h
    rw [handlerOf_args hg hf]
    exact of_decide_eq_true h

/-- **A call begins.** -/
theorem inv_call {i proc : ℕ} {vs : List Value} {junk : ℤ → UInt8} (hnodup : clt_nonces.Nodup)
    (h : Inv procs sob₀ clt_nonces w) (hok : Allowed procs w (.call i proc vs junk))
    (hs : step procs sob₀ w (.call i proc vs junk) = some w') :
    Inv procs sob₀ clt_nonces w' := by
  obtain ⟨hallowed, hfits, hall⟩ := hok
  have htypes : ∀ m f, handlerOf procs m proc = some f → vs.map Sigma.fst = f.args :=
    fun m f hf => types_of_all hall hf
  simp only [step] at hs
  split at hs
  · cases hs
  · next c hi =>
    split at hs
    · cases hs
    · next x clt' hbegin =>
      simp only [Option.bind_eq_bind, Option.bind_eq_some_iff, Option.some.injEq] at hs
      obtain ⟨pdu, hpdu, net', hnet', rfl⟩ := hs
      have hinv := RpcNetwork.inv_step _ _ _ h.net hallowed hnet'
      simp only [RpcNetwork.step, hi, Client.step, hbegin, Option.map_some,
        Option.some.injEq] at hnet'
      obtain ⟨hmay, hx, hdone, hsrv, hclt⟩ := call1_begin_ok hbegin
      generalize hc' : ({ c with
        clt := clt', threads := Function.update c.threads x.xid (some x),
        issued := c.issued ++ [x] } : Client Pdu) = c' at hnet'
      have hfacts : factsOf c' = { factsOf c with issued := c.issued ++ [x] } := by
        rw [← hc']
        simp only [factsOf, hdone, hsrv, hclt]
      have hissued : c'.issued = c.issued ++ [x] := congrArg Facts.issued hfacts
      subst hnet'
      have hmem := List.mem_of_getElem? hi
      -- no other client has this nonce, and this one has not given the xid out before
      have hnew : ¬ ∃ f ∈ w.net.clients.map factsOf, x ∈ f.issued :=
        h.fresh hnodup hmem (hallowed.begin hi) (by rw [hx]) (by rw [hx])
      refine ⟨hinv, ?_, h.nonces, h.stale, fun y => ?_, ?_, ?_, ?_, ?_, ?_⟩
      · have hsame : (Facts.clt_nonce_ ∘ factsOf) c' = (Facts.clt_nonce_ ∘ factsOf) c := by
          rw [Function.comp_apply, hfacts]
          rfl
        rw [List.map_map, ← h.clients, List.map_map]
        exact Refs.map_set_same hi hsame
      · rw [issued_set hi hissued, h.named, calls_concat]
        exact or_congr_right eq_comm
      · rw [List.map_append, List.nodup_append]
        refine ⟨h.distinct, List.nodup_singleton x, fun y hy z hz heq => hnew ?_⟩
        obtain ⟨k, hk, rfl⟩ := List.mem_map.mp hy
        refine (h.named x).mpr ⟨k, hk, ?_⟩
        rw [heq, List.mem_singleton.mp hz]
      · intro k hk
        rcases List.mem_append.mp hk with hold | hlast
        · exact h.calls k hold
        · rw [List.mem_singleton.mp hlast]
          exact ⟨hfits, ⟨junk, hpdu⟩, fun m f hf => htypes m f (by rw [hx] at hf; exact hf)⟩
      · intro f hf
        obtain ⟨d, hd, rfl⟩ := List.mem_map.mp hf
        rcases List.mem_or_eq_of_mem_set hd with hold | rfl
        · exact h.bound _ (List.mem_map_of_mem hold)
        · obtain ⟨hb, hiss⟩ := h.bound _ (List.mem_map_of_mem hmem)
          rw [hfacts]
          refine ⟨hb, fun y hy hproc => ?_⟩
          rcases List.mem_append.mp hy with hold | hlast
          · exact hiss y hold hproc
          · rw [List.mem_singleton.mp hlast, hx] at hproc ⊢
            exact hb (hmay.resolve_left hproc)
      · show w.sob = _
        rw [objectAt_append (fun e he => h.called he)]
        exact h.sob
      · intro l₁ e l₂ heq
        have hl₁ : ∀ e' ∈ l₁, ∃ k ∈ w.calls, k.h = e'.h := fun e' he' =>
          h.called (heq ▸ List.mem_append_left _ he')
        rw [objectAt_append hl₁]
        exact (h.did l₁ e l₂ heq).append _

theorem fits_int (r : Int32) : Fits [⟨.int, r⟩] := by
  show Marshall.RPC_HEADER_SZ + _ < _
  exact show (24 : ℤ) + 4 < 2 ^ 30 by omega

/-- A place in a list with one more element is the last one, or a place before. -/
theorem split_concat {α : Type} {l l₁ l₂ : List α} {x y : α} (h : l ++ [x] = l₁ ++ y :: l₂) :
    (l₁ = l ∧ y = x) ∨ ∃ l₃, l = l₁ ++ y :: l₃ := by
  rcases List.eq_nil_or_concat l₂ with rfl | ⟨l₃, z, rfl⟩
  · obtain ⟨rfl, heq⟩ := List.append_inj' h rfl
    exact .inl ⟨rfl, (List.cons.inj heq).1.symm⟩
  · rw [List.concat_eq_append, ← List.cons_append, ← List.append_assoc] at h
    exact .inr ⟨l₃, (List.append_inj' h rfl).1⟩

/-- **A handler is run.** -/
theorem inv_run {k : ℕ} {junk : ℤ → UInt8} {j : Job Pdu}
    (hsmall : ∀ p ∈ procs, ∀ sob as, Fits [⟨p.2.R, (p.2.meth sob as).2.1⟩])
    (h : Inv procs sob₀ clt_nonces w) (hj : w.net.srv.jobs[k]? = some j) (hr : runs j = true)
    (hs : step procs sob₀ w (.job k junk) = some w') : Inv procs sob₀ clt_nonces w' := by
  simp only [step, hj, hr, if_true] at hs
  split at hs
  · next f c hf hc =>
    simp only [Option.bind_eq_bind, Option.bind_eq_some_iff, Option.some.injEq] at hs
    obtain ⟨⟨o, sob⟩, hdisp, net', hnet', rfl⟩ := hs
    have hmem := List.mem_of_find?_eq_some hc
    have hh : c.h = j.h := by simpa using List.find?_some hc
    obtain ⟨hfits, ⟨junk', hpdu⟩, htypes⟩ := h.calls c hmem
    have hreply : ∀ sob as, Fits [⟨f.R, (f.meth sob as).2.1⟩] := by
      unfold handlerOf at hf
      split at hf
      · cases hf
        exact fun _ _ => fits_int _
      · obtain ⟨p, hp, rfl⟩ := Option.map_eq_some_iff.mp hf
        exact hsmall p (List.mem_of_find?_eq_some hp)
    generalize has : (⟨c.vs, htypes _ f (hh ▸ hf)⟩ : Args f.args) = as
    have hvs : c.vs = as.1 := by rw [← has]
    rw [hvs] at hfits hpdu
    obtain ⟨rep, hdisp', hcall⟩ :=
      dispatch_new_call hfits hpdu w.sob (hreply w.sob as) junk
    rw [hdisp'] at hdisp
    obtain ⟨ho, rfl⟩ := Prod.mk.inj (Option.some.inj hdisp)
    have hinv := RpcNetwork.inv_step _ (.job k o) _ h.net trivial hnet'
    obtain ⟨hclients, hexec, hnonce, hnonces, hstale⟩ := job_step h.net hj hnet'
    rw [ran_of_runs hr] at hexec
    refine ⟨hinv, ?_, ?_, hstale.trans h.stale, ?_, h.distinct, h.calls, ?_, ?_, ?_⟩
    · rw [hclients]
      exact h.clients
    · rw [hnonces]
      exact h.nonces
    · rw [hclients]
      exact h.named
    · rw [hclients, hnonces]
      exact h.bound
    · show (f.meth w.sob as).2.2 = objectAt procs sob₀ w.calls net'.srv.nonce_ net'.executions
      rw [hexec, hnonce]
      rw [objectAt_concat w.calls w.net.executions ⟨w.net.srv.nonce_, j.h, o⟩, ← h.sob, apply, hf,
        hc]
      dsimp only
      rw [dif_pos (htypes _ f (hh ▸ hf)), has]
    · intro l₁ e l₂ heq
      rw [show net'.executions = _ from hexec] at heq
      rcases split_concat heq with ⟨rfl, rfl⟩ | ⟨l₃, heq'⟩
      · rw [← h.sob]
        refine ⟨f, as, hf, ⟨c, hmem, hh, hvs⟩, ?_, ?_⟩
        · rw [← ho]
        · rw [← ho]
          exact hcall
      · exact h.did l₁ e l₃ heq'
  · cases hs

/-- **What `bind` reads is the nonce of a server process.** -/
theorem Inv.bind_reads (h : Inv procs sob₀ clt_nonces w) (hnodup : clt_nonces.Nodup)
    {c : Client Pdu} (hc : c ∈ w.net.clients) {x : req_header} {un : Option Pdu}
    (hret : (x, 0, un) ∈ c.returned) (hproc : x.proc = bind_proc) {v : ℤ} {r : Int32}
    (hr : call_m .int 0 (un.map received) = some (v, some r)) :
    r.toUInt32.toNat ∈ w.net.nonces := by
  have hdistinct : (w.net.clients.map fun c => c.clt.clt_nonce_).Nodup := h.clients_eq ▸ hnodup
  obtain ⟨hx, htold⟩ := (h.net.clients c hc).returned _ hret
  obtain ⟨e, he, hclt, hxid, hout, rfl⟩ :
      Answered w.net.executions c.clt.clt_nonce_ x.xid 0 un := by
    refine (htold (Int.le_refl 0)).resolve_right fun hstale => ?_
    rw [h.stale] at hstale
    exact absurd hstale List.not_mem_nil
  obtain ⟨k, hk⟩ := List.mem_iff_getElem?.mp hx
  have hfor : isFor x e = true := by
    refine decide_eq_true ⟨?_, hxid⟩
    rw [hclt, ((h.net.clients c hc).issued k x hk).2]
  have heh : e.h = x := eq_of_isFor h.net hdistinct hc hx he hfor
  obtain ⟨l₁, l₂, hsplit⟩ := List.append_of_mem he
  obtain ⟨f, as, hf, -, -, hcall⟩ := h.did l₁ e l₂ hsplit
  have hf' : handlerOf procs e.nonce e.h.proc = some (rpcbind e.nonce) := by
    rw [heh, hproc]
    rfl
  cases hf.symm.trans hf'
  have hzero : e.out.ret = 0 := hout
  rw [hzero] at hcall
  have heq := hr.symm.trans (hcall (Int.le_refl 0))
  have hval : r = Int32.ofNat e.nonce := Option.some.inj (Prod.mk.inj (Option.some.inj heq)).2
  have hmem := (h.net.log e he).2.2
  have hnonce : r.toUInt32.toNat = e.nonce := by
    rw [hval]
    show (UInt32.ofNat e.nonce).toNat = e.nonce
    rw [UInt32.toNat_ofNat', Nat.mod_eq_of_lt (h.nonces e.nonce hmem).2]
  rw [hnonce]
  exact hmem

theorem exists_issued {l : List (Client Pdu)} {x : req_header} :
    (∃ f ∈ l.map factsOf, x ∈ f.issued) ↔ ∃ xs ∈ (l.map factsOf).map Facts.issued, x ∈ xs := by
  simp only [List.mem_map, exists_exists_and_eq_and]

/-- The nonce of a server process is stored. -/
theorem inv_bind_store {i r : ℕ} {c c' : Client Pdu} (h : Inv procs sob₀ clt_nonces w)
    (hi : w.net.clients[i]? = some c)
    (hnet : RpcNetwork.Inv { w.net with clients := w.net.clients.set i c' })
    (hfacts : factsOf c' = { factsOf c with bind_done_ := true, srv_nonce_ := r })
    (hr : r ∈ w.net.nonces) :
    Inv procs sob₀ clt_nonces
      { w with net := { w.net with clients := w.net.clients.set i c' } } := by
  have hclt : (Facts.clt_nonce_ ∘ factsOf) c' = (Facts.clt_nonce_ ∘ factsOf) c := by
    rw [Function.comp_apply, hfacts]
    rfl
  have hissued : (Facts.issued ∘ factsOf) c' = (Facts.issued ∘ factsOf) c := by
    rw [Function.comp_apply, hfacts]
    rfl
  refine ⟨hnet, ?_, h.nonces, h.stale, fun y => ?_, h.distinct, h.calls, ?_, h.sob, h.did⟩
  · rw [List.map_map, ← h.clients, List.map_map]
    exact Refs.map_set_same hi hclt
  · rw [← h.named y, exists_issued, exists_issued, List.map_map, List.map_map]
    show (∃ xs ∈ (w.net.clients.set i c').map _, y ∈ xs) ↔ _
    rw [Refs.map_set_same hi hissued]
  · intro f hf
    obtain ⟨d, hd, rfl⟩ := List.mem_map.mp hf
    rcases List.mem_or_eq_of_mem_set hd with hold | rfl
    · exact h.bound _ (List.mem_map_of_mem hold)
    · rw [hfacts]
      exact ⟨fun _ => hr, (h.bound _ (List.mem_map_of_mem (List.mem_of_getElem? hi))).2⟩

/-- **A client is bound.** -/
theorem inv_bound {i k : ℕ} (hnodup : clt_nonces.Nodup) (h : Inv procs sob₀ clt_nonces w)
    (hs : step procs sob₀ w (.bound i k) = some w') : Inv procs sob₀ clt_nonces w' := by
  simp only [step] at hs
  split at hs
  · cases hs
  · next x v un hret =>
    obtain ⟨c, hi, hk⟩ := Option.bind_eq_some_iff.mp hret
    split at hs
    · next hbind =>
      obtain ⟨hproc, rfl⟩ := hbind
      split at hs
      · next v r hr =>
        have hr' := h.bind_reads hnodup (List.mem_of_getElem? hi) (List.mem_of_getElem? hk)
          hproc hr
        obtain ⟨net', hnet', rfl⟩ := Option.map_eq_some_iff.mp hs
        generalize Int32.toUInt32 r = r' at hnet' hr'
        have hinv := RpcNetwork.inv_step _ (.client i (.bound r'.toNat)) _ h.net trivial hnet'
        simp only [RpcNetwork.step, hi, Client.step] at hnet'
        split at hnet'
        · cases hnet'
          exact inv_bind_store h hi hinv rfl hr'
        · cases hnet'
      · cases hs
    · cases hs

/-- **The server is started again.** -/
theorem inv_restart {nonce_ : ℕ} (h : Inv procs sob₀ clt_nonces w)
    (hok : Allowed procs w (.restart nonce_))
    (hs : step procs sob₀ w (.restart nonce_) = some w') : Inv procs sob₀ clt_nonces w' := by
  obtain ⟨hfresh, hnonce⟩ := hok
  simp only [step, Option.map_eq_some_iff] at hs
  obtain ⟨net', hnet', rfl⟩ := hs
  have hinv := RpcNetwork.inv_step _ (.restart nonce_) _ h.net hfresh hnet'
  cases hnet'
  refine ⟨hinv, h.clients, fun m hm => ?_, h.stale, h.named, h.distinct, h.calls,
    fun f hf => ?_, ?_, h.did⟩
  · rcases List.mem_append.mp hm with hold | hnew
    · exact h.nonces m hold
    · rw [List.mem_singleton.mp hnew]
      exact hnonce
  · obtain ⟨hb, hissued⟩ := h.bound f hf
    exact ⟨fun hdone => List.mem_append_left _ (hb hdone),
      fun x hx hproc => List.mem_append_left _ (hissued x hx hproc)⟩
  · refine (objectAt_fresh fun e he heq => hfresh ?_).symm
    have hmem := (h.net.log e he).2.2
    rw [heq] at hmem
    exact hmem

/-- **Every step keeps the invariant.** -/
theorem inv_step (hsmall : ∀ p ∈ procs, ∀ sob as, Fits [⟨p.2.R, (p.2.meth sob as).2.1⟩])
    (hnodup : clt_nonces.Nodup) (w : World S) (a : Act) (w' : World S)
    (h : Inv procs sob₀ clt_nonces w) (hok : Allowed procs w a)
    (hs : step procs sob₀ w a = some w') : Inv procs sob₀ clt_nonces w' := by
  have hclient : ∀ i a, (∀ proc, a ≠ ClientAct.begin proc) → (∀ r, a ≠ .bound r) →
      RpcNetwork.Allowed w.net (.client i a) → w.on (.client i a) = some w' →
      Inv procs sob₀ clt_nonces w' := by
    intro i a hbegin hbound hallowed hon
    obtain ⟨net', hnet', rfl⟩ := Option.map_eq_some_iff.mp hon
    exact inv_still h (RpcNetwork.inv_step _ _ _ h.net hallowed hnet')
      (still_client hbegin hbound hnet')
  cases a with
  | call i proc vs junk => exact inv_call hnodup h hok hs
  | transmit i xid =>
    exact hclient i (.transmit xid) (fun _ hc => ClientAct.noConfusion hc)
      (fun _ hc => ClientAct.noConfusion hc) trivial hs
  | finish i xid =>
    exact hclient i (.finish xid) (fun _ hc => ClientAct.noConfusion hc)
      (fun _ hc => ClientAct.noConfusion hc) trivial hs
  | cancel i xid =>
    exact hclient i (.cancel xid) (fun _ hc => ClientAct.noConfusion hc)
      (fun _ hc => ClientAct.noConfusion hc) trivial hs
  | bound i k => exact inv_bound hnodup h hs
  | request i x =>
    obtain ⟨net', hnet', rfl⟩ := Option.map_eq_some_iff.mp hs
    exact inv_still h (RpcNetwork.inv_step _ (.request i x) _ h.net trivial hnet')
      (still_request hnet')
  | job k junk =>
    cases hj : w.net.srv.jobs[k]? with
    | none =>
      simp only [step, hj] at hs
      cases hs
    | some j =>
      by_cases hr : runs j = true
      · exact inv_run hsmall h hj hr hs
      · simp only [step, hj, if_neg hr] at hs
        obtain ⟨net', hnet', rfl⟩ := Option.map_eq_some_iff.mp hs
        obtain ⟨hclients, hexec, hnonce, hnonces, hstale⟩ := job_step h.net hj hnet'
        rw [ran_of_not_runs hr, List.append_nil] at hexec
        exact inv_still h (RpcNetwork.inv_step _ (.job k unused) _ h.net trivial hnet')
          ⟨by rw [hclients], hexec, hnonce, hnonces, hstale⟩
  | stale k junk => exact hok.elim
  | reply i k =>
    obtain ⟨net', hnet', rfl⟩ := Option.map_eq_some_iff.mp hs
    exact inv_still h (RpcNetwork.inv_step _ (.reply i k) _ h.net trivial hnet')
      (still_reply hnet')
  | restart nonce_ => exact inv_restart h hok hs

/-- The invariant along a whole run. -/
theorem inv_world {nonce_ : ℕ} {as : List Act}
    (hsmall : ∀ p ∈ procs, ∀ sob as, Fits [⟨p.2.R, (p.2.meth sob as).2.1⟩])
    (hnodup : clt_nonces.Nodup) (hnonce : 0 < nonce_ ∧ nonce_ < 2 ^ 32)
    (hok : Steps.RunMeets (step procs sob₀) (Allowed procs)
      (.init procs sob₀ clt_nonces nonce_) as)
    (hrun : Steps.run (step procs sob₀) (.init procs sob₀ clt_nonces nonce_) as = some w) :
    Inv procs sob₀ clt_nonces w :=
  Steps.run_inv (inv_step hsmall hnodup) (inv_init hnonce) hok hrun

end Inv

/-! ## One call after the other -/

section Linear

variable {procs sob₀} {clt_nonces : List ℕ} {w w' : World S}

/-- Every step is one of the network. -/
theorem net_step {a : Act} (hs : step procs sob₀ w a = some w') :
    ∃ b, RpcNetwork.step w.net b = some w'.net := by
  have hon : ∀ b, w.on b = some w' → ∃ b, RpcNetwork.step w.net b = some w'.net := by
    intro b hb
    obtain ⟨net', hnet', rfl⟩ := Option.map_eq_some_iff.mp hb
    exact ⟨b, hnet'⟩
  cases a with
  | call i proc vs junk =>
    simp only [step] at hs
    split at hs
    · cases hs
    · split at hs
      · cases hs
      · simp only [Option.bind_eq_bind, Option.bind_eq_some_iff, Option.some.injEq] at hs
        obtain ⟨pdu, -, net', hnet', rfl⟩ := hs
        exact ⟨_, hnet'⟩
  | transmit i xid => exact hon _ hs
  | finish i xid => exact hon _ hs
  | cancel i xid => exact hon _ hs
  | bound i k =>
    simp only [step] at hs
    split at hs
    · cases hs
    · split at hs
      · split at hs
        · exact hon _ hs
        · cases hs
      · cases hs
  | request i x => exact hon _ hs
  | job k junk =>
    simp only [step] at hs
    split at hs
    · cases hs
    · split at hs
      · split at hs
        · simp only [Option.bind_eq_bind, Option.bind_eq_some_iff, Option.some.injEq] at hs
          obtain ⟨o, -, net', hnet', rfl⟩ := hs
          exact ⟨_, hnet'⟩
        · cases hs
      · exact hon _ hs
  | stale k junk => exact hon _ hs
  | reply i k => exact hon _ hs
  | restart nonce_ =>
    simp only [step, Option.map_eq_some_iff] at hs
    obtain ⟨net', hnet', rfl⟩ := hs
    exact ⟨_, hnet'⟩

/-- The history only grows. -/
theorem executions_grow {n n' : Network Pdu} {b : RpcNetwork.Act Pdu}
    (hs : RpcNetwork.step n b = some n') : n.executions <+: n'.executions := by
  cases b with
  | client i a =>
    simp only [RpcNetwork.step] at hs
    split at hs
    · cases hs
    · obtain ⟨c', -, rfl⟩ := Option.map_eq_some_iff.mp hs
      exact List.prefix_refl _
  | request i x =>
    exact ⟨[], (List.append_nil _).trans (still_request hs).executions.symm⟩
  | job k o =>
    simp only [RpcNetwork.step] at hs
    split at hs
    · cases hs
    · obtain ⟨srv, -, rfl⟩ := Option.map_eq_some_iff.mp hs
      exact List.prefix_append _ _
  | stale k junk =>
    simp only [RpcNetwork.step] at hs
    split at hs
    · cases hs
    · split at hs
      · cases hs
        exact List.prefix_refl _
      · cases hs
  | reply i k =>
    exact ⟨[], (List.append_nil _).trans (still_reply hs).executions.symm⟩
  | restart nonce_ =>
    cases hs
    exact List.prefix_refl _

/-- Where all keys differ, a key picks out one element. -/
theorem filter_eq_singleton {α β : Type} [DecidableEq β] {f : α → β} {l : List α} {x : α}
    (hnodup : (l.map f).Nodup) (hx : x ∈ l) : l.filter (fun y => f y = f x) = [x] := by
  induction l with
  | nil => cases hx
  | cons y l ih =>
    obtain ⟨hy, hnodup'⟩ := List.nodup_cons.mp hnodup
    rcases List.mem_cons.mp hx with rfl | hx
    · have hnil : l.filter (fun y => f y = f x) = [] := by
        rw [List.filter_eq_nil_iff]
        intro z hz heq
        exact hy (of_decide_eq_true heq ▸ List.mem_map_of_mem hz)
      rw [List.filter_cons, if_pos (decide_eq_true rfl), hnil]
    · have hne : ¬ decide (f y = f x) = true := by
        intro heq
        exact hy (of_decide_eq_true heq ▸ List.mem_map_of_mem hx)
      rw [List.filter_cons, if_neg hne, ih hnodup' hx]

/-- The call with header `h` took effect once, between what was run before and what was run
after; the method was called with the values that the caller passed, and its value and its
reply are what the caller got. -/
def TookEffect (procs : List (ℕ × method S)) (sob₀ : S) (w : World S) (h : req_header) (v : ℤ)
    (un : Option Pdu) : Prop :=
  ∃ before after out, w.net.executions = before ++ ⟨h.srv_nonce, h, out⟩ :: after
    ∧ (∀ e ∈ before ++ after, isFor h e = false)
    ∧ ∃ (f : method S) (as : Args f.args), handlerOf procs h.srv_nonce h.proc = some f
      ∧ (w.calls.filter fun c => c.h = h).map Call.vs = [as.1]
      ∧ v = (f.meth (objectAt procs sob₀ w.calls h.srv_nonce before) as).1.toInt
      ∧ call_m f.R v (un.map received)
        = some (v, some (f.meth (objectAt procs sob₀ w.calls h.srv_nonce before) as).2.1)

/-- A call other than the binding names the server process it is meant for. -/
theorem Inv.srv_nonce_ne (hinv : Inv procs sob₀ clt_nonces w) {c : Client Pdu}
    (hc : c ∈ w.net.clients) {h : req_header} (hh : h ∈ c.issued) (hproc : h.proc ≠ bind_proc) :
    h.srv_nonce ≠ 0 := by
  have hmem := (hinv.bound _ (List.mem_map_of_mem hc)).2 h hh hproc
  exact Nat.ne_of_gt (hinv.nonces _ hmem).1

theorem Inv.clt_nonce_ne (hinv : Inv procs sob₀ clt_nonces w) (hzero : 0 ∉ clt_nonces)
    {c : Client Pdu} (hc : c ∈ w.net.clients) : c.clt.clt_nonce_ ≠ 0 := by
  intro heq
  refine hzero ?_
  rw [← hinv.clients_eq]
  exact List.mem_map.mpr ⟨c, hc, heq⟩

/-- **A value comes from one run of the handler**, with the values passed, on the object as
the runs before had left it. -/
theorem Inv.took_effect (hinv : Inv procs sob₀ clt_nonces w) (hnodup : clt_nonces.Nodup)
    (hzero : 0 ∉ clt_nonces) {c : Client Pdu} (hc : c ∈ w.net.clients) {h : req_header} {v : ℤ}
    {un : Option Pdu} (hret : (h, v, un) ∈ c.returned) (hproc : h.proc ≠ bind_proc) (hv : 0 ≤ v) :
    TookEffect procs sob₀ w h v un := by
  have hdistinct : (w.net.clients.map fun c => c.clt.clt_nonce_).Nodup :=
    hinv.clients_eq ▸ hnodup
  have hsrv := hinv.srv_nonce_ne hc ((hinv.net.clients c hc).returned _ hret).1 hproc
  obtain ⟨out, hfilter, hout, rfl⟩ : ∃ out, w.net.executions.filter (isFor h)
      = [⟨h.srv_nonce, h, out⟩] ∧ v = out.ret ∧ un = some out.body := by
    have hrun := run_of_returned hinv.net hdistinct hc (hinv.clt_nonce_ne hzero hc) hret hsrv hv
    refine hrun.resolve_right fun hstale => ?_
    rw [hinv.stale] at hstale
    exact absurd hstale List.not_mem_nil
  obtain ⟨before, after, hsplit, hbefore, -, hafter⟩ := List.filter_eq_cons_iff.mp hfilter
  obtain ⟨f, as, hf, ⟨k, hk, hkh, hvs⟩, hval, hcall⟩ := hinv.did _ _ _ hsplit
  refine ⟨before, after, out, hsplit, fun e he => ?_, f, as, hf, ?_, hout.trans hval, ?_⟩
  · rcases List.mem_append.mp he with hmem | hmem
    · exact Bool.eq_false_of_not_eq_true (hbefore e hmem)
    · exact Bool.eq_false_of_not_eq_true (List.filter_eq_nil_iff.mp hafter e hmem)
  · have hkh' : k.h = h := hkh
    subst hkh'
    rw [filter_eq_singleton hinv.distinct hk, List.map_singleton, hvs]
  · rw [hout]
    exact hcall (hout ▸ hv)

/-- **The calls of all clients take effect one after the other.** The methods are atomic, the
nonces differ and are not 0, arguments and replies fit into a PDU, each client makes fewer than
`2^32` calls, and no freed buffer is sent. Then, whatever the network loses, repeats or delays
and whenever the server is started again: the object is the one that the calls make which
were run since then, in the order in which they were run. Whoever was returned a value that is
not an error got the value and the reply of its method, called once, in its place in that
order, with the values passed. And the order keeps to real time: a call that has returned a
value was run before any call that is begun later. -/
theorem remote_calls_linearizable {nonce_ : ℕ} {acts acts₁ acts₂ : List Act} {w₁ : World S}
    (hsmall : ∀ p ∈ procs, ∀ sob as, Fits [⟨p.2.R, (p.2.meth sob as).2.1⟩])
    (hnodup : clt_nonces.Nodup) (hzero : 0 ∉ clt_nonces) (hnonce : 0 < nonce_ ∧ nonce_ < 2 ^ 32)
    (hacts : acts = acts₁ ++ acts₂)
    (hok : Steps.RunMeets (step procs sob₀) (Allowed procs)
      (.init procs sob₀ clt_nonces nonce_) acts)
    (hrun₁ : Steps.run (step procs sob₀) (.init procs sob₀ clt_nonces nonce_) acts₁ = some w₁)
    (hrun : Steps.run (step procs sob₀) (.init procs sob₀ clt_nonces nonce_) acts = some w) :
    w.sob = objectAt procs sob₀ w.calls w.net.srv.nonce_ w.net.executions
      ∧ (∀ c ∈ w.net.clients, ∀ h v un, (h, v, un) ∈ c.returned → h.proc ≠ bind_proc → 0 ≤ v →
          TookEffect procs sob₀ w h v un)
      ∧ ∃ later, w.net.executions = w₁.net.executions ++ later
        ∧ (∀ c ∈ w₁.net.clients, ∀ h v un, (h, v, un) ∈ c.returned → h.proc ≠ bind_proc → 0 ≤ v →
            ∃ e ∈ w₁.net.executions, isFor h e = true)
        ∧ ∀ h, Named w.net h → ¬ Named w₁.net h → ∀ e ∈ w₁.net.executions, isFor h e = false := by
  subst hacts
  have hinv := inv_world hsmall hnodup hnonce hok hrun
  obtain ⟨hok₁, hok₂⟩ := Steps.runMeets_append hok hrun₁
  have hinv₁ := inv_world hsmall hnodup hnonce hok₁ hrun₁
  rw [Steps.run_append, hrun₁] at hrun
  have hprefix : w₁.net.executions <+: w.net.executions := by
    refine Steps.run_inv_all (P := fun t => w₁.net.executions <+: t.net.executions)
      (fun t a t' ht hs => ?_) (List.prefix_refl _) hrun
    obtain ⟨b, hb⟩ := net_step hs
    exact ht.trans (executions_grow hb)
  obtain ⟨later, hlater⟩ := hprefix
  refine ⟨hinv.sob, fun c hc h v un => hinv.took_effect hnodup hzero hc, later, hlater.symm, ?_, ?_⟩
  · intro c hc h v un hret hproc hv
    obtain ⟨before, after, out, hsplit, -⟩ := hinv₁.took_effect hnodup hzero hc hret hproc hv
    refine ⟨⟨h.srv_nonce, h, out⟩, ?_, decide_eq_true ⟨rfl, rfl⟩⟩
    rw [hsplit]
    exact List.mem_append_right _ List.mem_cons_self
  · rintro h ⟨c, hc, hh⟩ hnot e he
    refine Bool.eq_false_of_not_eq_true fun hfor => hnot ?_
    have hdistinct : (w.net.clients.map fun c => c.clt.clt_nonce_).Nodup :=
      hinv.clients_eq ▸ hnodup
    have he' : e ∈ w.net.executions := by
      rw [← hlater]
      exact List.mem_append_left _ he
    rw [← eq_of_isFor hinv.net hdistinct hc hh he' hfor]
    exact (hinv₁.net.log e he).1

end Linear

/-- A method that counts how often it was called. -/
def tick : method ℕ := ⟨[.int], .int, fun n _ => (0, Int32.ofNat (n + 1), n + 1)⟩

/-- The memory of a fresh buffer. -/
def junk : ℤ → UInt8 := fun _ => 0xcc

/-- A client binds. -/
def binds : List Act :=
  [.call 0 1 [⟨.int, (0 : Int32)⟩] junk, .transmit 0 1, .request 0 ⟨1, 1, 7, 0, 0⟩, .job 0 junk,
    .job 0 junk, .job 0 junk, .job 0 junk, .job 0 junk, .reply 0 0, .finish 0 1, .bound 0 0]

/-- It calls `tick`. The request arrives twice, and the server crashes before the reply
comes. -/
def ticks : List Act :=
  [.call 0 9 [⟨.int, (3 : Int32)⟩] junk, .transmit 0 2, .request 0 ⟨2, 9, 7, 5, 1⟩,
    .request 0 ⟨2, 9, 7, 5, 1⟩, .job 1 junk, .job 1 junk, .job 1 junk, .job 2 junk, .job 2 junk,
    .job 2 junk, .job 1 junk, .job 1 junk, .restart 6, .reply 0 1, .finish 0 2]

theorem remote_calls_linearizable_ticks :
    ∃ w₁ w c un later, Steps.run (step [(9, tick)] 0) (.init [(9, tick)] 0 [7] 5) binds = some w₁
      ∧ Steps.run (step [(9, tick)] 0) (.init [(9, tick)] 0 [7] 5) (binds ++ ticks) = some w
      ∧ c ∈ w.net.clients ∧ (⟨2, 9, 7, 5, 1⟩, 0, un) ∈ c.returned
      ∧ TookEffect [(9, tick)] 0 w ⟨2, 9, 7, 5, 1⟩ 0 un
      ∧ w.net.executions = w₁.net.executions ++ later
      ∧ ∀ e ∈ w₁.net.executions, isFor ⟨2, 9, 7, 5, 1⟩ e = false := by
  have hex : ((Steps.run (step [(9, tick)] 0) (.init [(9, tick)] 0 [7] 5) binds).bind fun w₁ =>
      (Steps.run (step [(9, tick)] 0) w₁ ticks).map fun w =>
        (w₁.net.clients.map (fun c => c.issued),
          w.net.clients.map fun c => (c.issued, c.returned.map fun r => (r.1, r.2.1))))
      = some ([[⟨1, 1, 7, 0, 0⟩]], [([⟨1, 1, 7, 0, 0⟩, ⟨2, 9, 7, 5, 1⟩],
          [(⟨1, 1, 7, 0, 0⟩, 0), (⟨2, 9, 7, 5, 1⟩, 0)])]) := by decide +kernel
  have hok : Steps.RunMeets (step [(9, tick)] 0) (Allowed [(9, tick)]) (.init [(9, tick)] 0 [7] 5)
      (binds ++ ticks) := by decide +kernel
  obtain ⟨w₁, w, hrun₁, hrun₂, hf⟩ := Steps.exists_run_run hex
  obtain ⟨hissued₁, hclients⟩ := Prod.mk.inj hf
  have hrun : Steps.run (step [(9, tick)] 0) (.init [(9, tick)] 0 [7] 5) (binds ++ ticks)
      = some w := by
    rw [Steps.run_append, hrun₁, Option.bind_some, hrun₂]
  obtain ⟨c, hc, hcf⟩ := List.map_eq_singleton_iff.mp hclients
  obtain ⟨hissued, hreturned⟩ := Prod.mk.inj hcf
  have hmem : c ∈ w.net.clients := by
    rw [hc]
    exact List.mem_singleton_self c
  have hret : ∃ un, (⟨2, 9, 7, 5, 1⟩, 0, un) ∈ c.returned := by
    have hin : ((⟨2, 9, 7, 5, 1⟩ : req_header), (0 : ℤ))
        ∈ c.returned.map fun r => (r.1, r.2.1) := by
      rw [hreturned]
      exact List.mem_cons_of_mem _ List.mem_cons_self
    obtain ⟨⟨h, v, un⟩, hr, heq⟩ := List.mem_map.mp hin
    cases heq
    exact ⟨un, hr⟩
  obtain ⟨un, hret⟩ := hret
  have hsmall : ∀ p ∈ [(9, tick)], ∀ sob as, Fits [⟨p.2.R, (p.2.meth sob as).2.1⟩] := by
    intro p hp sob as
    rw [List.mem_singleton] at hp
    subst hp
    exact fits_int _
  obtain ⟨-, heffect, later, hlater, -, hnot⟩ := remote_calls_linearizable hsmall (by decide)
    (by decide) (by decide) rfl hok hrun₁ hrun
  refine ⟨w₁, w, c, un, later, hrun₁, hrun, hmem, hret,
    heffect c hmem _ 0 un hret (by decide) (Int.le_refl 0), hlater, hnot _ ⟨c, hmem, ?_⟩ ?_⟩
  · rw [hissued]
    exact List.mem_cons_of_mem _ List.mem_cons_self
  · rintro ⟨d, hd, hh⟩
    have hd' := List.mem_map_of_mem (f := fun c : Client Pdu => c.issued) hd
    rw [hissued₁, List.mem_singleton] at hd'
    rw [show d.issued = _ from hd'] at hh
    exact absurd hh (by decide)

end Yfs.RemoteObject
