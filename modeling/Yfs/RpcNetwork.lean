/-
Any number of RPC clients and a server that may be restarted.

`RpcSession` is about one client and one server process. Here the clients share the
server, their requests interleave in its dispatch pool, and the server may crash at any
moment: its jobs, its windows and its forgotten lists are lost, and a new process with a
new nonce takes its place. The network keeps what was handed to it, as before: it may
deliver a request or a reply late, again, or never, also to a later server process.

A reply goes out on a connection of the client that the request came from, the one the
request came on or a later one, so a reply is addressed by the client's nonce. What goes out
is the memory of the reply's buffer. If the entry of the request has been erased meanwhile the
buffer is freed and the memory may hold anything: then the send is a step of its own, and what
the client is told in it is recorded.

The nonces are random numbers in the source. What is proved rests on them being
different: those of the clients from each other and from 0, and that of a new server
process from those before it.
-/
import Yfs.RpcClient

set_option autoImplicit false

namespace Yfs.RpcNetwork

open Yfs.RpcWindow Yfs.RpcDispatch Yfs.RpcClient
open Refs (update_eq_some)

/-! ## A client -/

structure Client (γ : Type*) where
  clt : rpcc γ
  /-- The calls between their first and their last critical section. -/
  threads : ℕ → Option req_header
  /-- The headers `call1` has packed, in order. -/
  issued : List req_header
  /-- Every request handed to the network. -/
  wire : List req_header
  /-- What `call1` has returned: the request, the value and the reply's body. -/
  returned : List (req_header × ℤ × Option γ)

variable {γ : Type*}

def Client.init (clt_nonce_ : ℕ) : Client γ :=
  ⟨rpcc.init clt_nonce_, fun _ => none, [], [], []⟩

/-- The reply `call1` leaves to its caller. -/
def call1_reply (c : rpcc γ) (xid : ℕ) : Option γ := (c.calls_ xid).bind fun ca => ca.un

inductive ClientAct where
  /-- A thread enters `call1`. -/
  | begin (proc : ℕ)
  /-- A thread in `call1` sends its request, for the first time or again. -/
  | transmit (xid : ℕ)
  /-- A thread leaves `call1`, done or timed out. -/
  | finish (xid : ℕ)
  /-- `bind` stores the nonce its call returned. -/
  | bound (r : ℕ)
  /-- `cancel`, with `xid` among the pending calls. -/
  | cancel (xid : ℕ)

def Client.step (c : Client γ) : ClientAct → Option (Client γ)
  | .begin proc =>
    match call1_begin c.clt proc with
    | .error _ => none
    | .ok (h, clt') => some { c with
        clt := clt'
        threads := Function.update c.threads h.xid (some h)
        issued := c.issued ++ [h] }
  | .transmit xid => (c.threads xid).map fun h => { c with wire := c.wire ++ [h] }
  | .finish xid => (c.threads xid).map fun h => { c with
      clt := call1_end c.clt xid
      threads := Function.update c.threads xid none
      returned := c.returned ++ [(h, call1_return c.clt xid, call1_reply c.clt xid)] }
  | .bound r =>
    if c.returned.any (fun p => p.1.proc == bind_proc && p.2.1 == 0) then
      some { c with clt := bind_store c.clt r }
    else none
  | .cancel xid =>
    if (c.clt.calls_ xid).isSome then some { c with clt := cancel c.clt } else none

/-! ## The network -/

/-- A handler that was run, in the server process with nonce `nonce`. -/
structure Execution (γ : Type*) where
  nonce : ℕ
  h : req_header
  out : HandlerOut γ

structure Network (γ : Type*) where
  clients : List (Client γ)
  srv : Server γ
  /-- The replies the server has sent, with the nonce of the client. -/
  replies : List (ℕ × reply_pdu γ)
  /-- The handlers that were run, in all server processes. -/
  executions : List (Execution γ)
  /-- The nonces of the server processes. -/
  nonces : List ℕ
  /-- What was sent from buffers that had been freed, with the nonce of the client. -/
  stale : List (ℕ × reply_pdu γ)

def Network.init (clt_nonces : List ℕ) (nonce_ : ℕ) (procs_ : List ℕ) : Network γ :=
  ⟨clt_nonces.map Client.init, Server.init nonce_ procs_, [], [], [nonce_], []⟩

inductive Act (γ : Type*) where
  /-- Client `i` acts. -/
  | client (i : ℕ) (a : ClientAct)
  /-- A request of client `i` arrives at the server. -/
  | request (i : ℕ) (h : req_header)
  /-- Job `k` of the dispatch pool runs up to its next mutex. -/
  | job (k : ℕ) (o : HandlerOut γ)
  /-- Job `k` sends a buffer that has been freed; the memory holds `junk` by now. -/
  | stale (k : ℕ) (junk : reply_pdu γ)
  /-- Reply `k` arrives at client `i`. -/
  | reply (i k : ℕ)
  /-- The server crashes and is started again. -/
  | restart (nonce_ : ℕ)

/-- The handler that the next step of the job runs, if it runs one. -/
def ran (nonce_ : ℕ) (j : Job γ) (o : HandlerOut γ) : List (Execution γ) :=
  match j.pc with
  | .checked .NEW _ => [⟨nonce_, j.h, o⟩]
  | _ => []

/-- One step of the network. -/
def step (n : Network γ) : Act γ → Option (Network γ)
  | .client i a =>
    match n.clients[i]? with
    | none => none
    | some c => (c.step a).map fun c' => { n with clients := n.clients.set i c' }
  | .request i h =>
    match n.clients[i]? with
    | none => none
    | some c =>
      -- whatever was sent once may arrive, any number of times
      if h ∈ c.wire then (RpcDispatch.step n.srv (.got_pdu h)).map fun srv => { n with srv := srv }
      else none
  | .job k o =>
    match n.srv.jobs[k]? with
    | none => none
    | some j => (RpcDispatch.step n.srv (.job k o)).map fun srv => { n with
        srv := srv
        replies := n.replies
          ++ (srv.sent.drop n.srv.sent.length).map fun pdu => (j.h.clt_nonce, pdu)
        executions := n.executions ++ ran n.srv.nonce_ j o }
  | .stale k junk =>
    match n.srv.jobs[k]? with
    | none => none
    | some j =>
      if n.srv.aborted = false ∧ Freed n.srv j = true then some { n with
        srv := settle k j.h ({ n.srv with sent := n.srv.sent ++ [junk] }, .finished)
        replies := n.replies ++ [(j.h.clt_nonce, junk)]
        stale := n.stale ++ [(j.h.clt_nonce, junk)] }
      else none
  | .reply i k =>
    match n.clients[i]?, n.replies[k]? with
    | some c, some (nonce, pdu) =>
      if c.clt.clt_nonce_ = nonce then
        some { n with clients := n.clients.set i { c with clt := got_pdu c.clt pdu } }
      else none
    | _, _ => none
  | .restart nonce_ => some { n with
      srv := Server.init nonce_ n.srv.procs_
      nonces := n.nonces ++ [nonce_] }

/-- The condition under which the guarantee holds: fewer than 2^32 calls of each client,
and a nonce for each server process that no other one has had. -/
def Allowed (n : Network γ) : Act γ → Prop
  | .client i (.begin _) => n.clients[i]?.all (fun c => c.issued.length + 1 < 2 ^ 32) = true
  | .restart nonce_ => nonce_ ∉ n.nonces
  | _ => True

instance decidableAllowed (n : Network γ) : (a : Act γ) → Decidable (Allowed n a)
  | .client i (.begin _) =>
    inferInstanceAs (Decidable (n.clients[i]?.all (fun c => c.issued.length + 1 < 2 ^ 32) = true))
  | .restart nonce_ => inferInstanceAs (Decidable (nonce_ ∉ n.nonces))
  | .client _ (.transmit _) | .client _ (.finish _) | .client _ (.bound _) | .client _ (.cancel _)
  | .request _ _ | .job _ _ | .stale _ _ | .reply _ _ => .isTrue trivial

variable {c : Client γ} {n : Network γ}

theorem Allowed.begin {i proc : ℕ} (h : Allowed n (.client i (.begin proc)))
    (hi : n.clients[i]? = some c) : c.issued.length + 1 < 2 ^ 32 := by
  have hall : n.clients[i]?.all (fun c => c.issued.length + 1 < 2 ^ 32) = true := h
  rw [hi] at hall
  exact of_decide_eq_true hall

/-! ## Answers -/

/-- Some run of the handler for request `x` of client `c` has returned this. -/
def Answered (log : List (Execution γ)) (c x : ℕ) (ret : ℤ) (body : Option γ) : Prop :=
  ∃ e ∈ log, e.h.clt_nonce = c ∧ e.h.xid = x ∧ e.out.ret = ret ∧ body = some e.out.body

variable {log : List (Execution γ)}

theorem Answered.append {c x : ℕ} {ret : ℤ} {body : Option γ}
    (h : Answered log c x ret body) (es : List (Execution γ)) :
    Answered (log ++ es) c x ret body := by
  obtain ⟨e, he, hrest⟩ := h
  exact ⟨e, List.mem_append_left es he, hrest⟩

/-- The packed reply is what some run of the handler has returned. -/
def IsReply (log : List (Execution γ)) (c x : ℕ) (b : reply_pdu γ) : Prop :=
  b.xid = x ∧ Answered log c x b.ret b.body

theorem IsReply.append {c x : ℕ} {b : reply_pdu γ}
    (h : IsReply log c x b) (es : List (Execution γ)) : IsReply (log ++ es) c x b :=
  ⟨h.1, h.2.append es⟩

/-- What a client may be told: the answer of a run of its handler, or what a freed buffer
held. -/
def Told (log : List (Execution γ)) (stale : List (ℕ × reply_pdu γ)) (c x : ℕ) (ret : ℤ)
    (body : Option γ) : Prop :=
  Answered log c x ret body ∨ (c, ⟨x, ret, body⟩) ∈ stale

theorem Told.append {stale : List (ℕ × reply_pdu γ)} {c x : ℕ} {ret : ℤ}
    {body : Option γ} (h : Told log stale c x ret body) (es : List (Execution γ))
    (js : List (ℕ × reply_pdu γ)) : Told (log ++ es) (stale ++ js) c x ret body :=
  h.imp (fun h => h.append es) (List.mem_append_left js)

/-! ## The server -/

/-- The server process takes the request. -/
def Accepts (nonce_ : ℕ) (h : req_header) : Prop := h.srv_nonce = 0 ∨ h.srv_nonce = nonce_

/-- What a job knows, by where it stands. -/
def PcOk (log : List (Execution γ)) (nonce_ : ℕ) (h : req_header) : Pc γ → Prop
  | .known => Accepts nonce_ h
  | .checked _ out => Accepts nonce_ h
      ∧ ∀ b1 sz, out = some (some b1, sz) → IsReply log h.clt_nonce h.xid b1
  | .ran b1 _ => IsReply log h.clt_nonce h.xid b1
  | .recorded b1 _ => IsReply log h.clt_nonce h.xid b1
  | _ => True

variable {h : req_header}

theorem PcOk.append {nonce_ : ℕ} {pc : Pc γ}
    (hpc : PcOk log nonce_ h pc) (es : List (Execution γ)) : PcOk (log ++ es) nonce_ h pc := by
  cases pc with
  | start => exact hpc
  | known => exact hpc
  | checked stat out => exact ⟨hpc.1, fun b1 sz hout => (hpc.2 b1 sz hout).append es⟩
  | ran b1 sz => exact IsReply.append hpc es
  | recorded b1 kept => exact IsReply.append hpc es
  | finished => exact hpc

/-- The windows hold replies that were given. -/
def ViewsOk (log : List (Execution γ)) (w : rpcs (reply_pdu γ)) : Prop :=
  ∀ c y b sz, view w c y = .present (some b) sz → IsReply log c y b

theorem ViewsOk.append {w : rpcs (reply_pdu γ)} (h : ViewsOk log w)
    (es : List (Execution γ)) : ViewsOk (log ++ es) w :=
  fun c y b sz hv => (h c y b sz hv).append es

/-- What a step of a job with header `h` makes of the server, of the replies and of the
job's own place. -/
structure JobStep (log : List (Execution γ)) (s : Server γ) (h : req_header)
    (es : List (Execution γ)) (r : Server γ × Pc γ) : Prop where
  jobs : r.1.jobs = s.jobs
  nonce : r.1.nonce_ = s.nonce_
  executed : r.1.executed = s.executed ++ es.map fun _ => (h.clt_nonce, h.xid)
  views : ViewsOk (log ++ es) r.1.window
  pc : PcOk (log ++ es) s.nonce_ h r.2
  sent : ∃ out, r.1.sent = s.sent ++ out
    ∧ ∀ pdu ∈ out, 0 ≤ pdu.ret → Answered (log ++ es) h.clt_nonce pdu.xid pdu.ret pdu.body

section JobStep

variable {log : List (Execution γ)} {s : Server γ} {h : req_header}

/-- The job moves on, and leaves the windows and the replies alone. -/
theorem jobStep_move {srv : Server γ} {pc : Pc γ} (hviews : ViewsOk log srv.window)
    (hjobs : srv.jobs = s.jobs) (hnonce : srv.nonce_ = s.nonce_) (hex : srv.executed = s.executed)
    (hsent : srv.sent = s.sent) (hpc : PcOk log s.nonce_ h pc) : JobStep log s h [] (srv, pc) := by
  refine ⟨hjobs, hnonce, ?_, hviews.append [], hpc.append [], [], ?_, List.forall_mem_nil _⟩
  · rw [List.map_nil, List.append_nil]
    exact hex
  · rw [List.append_nil]
    exact hsent

/-- The job sends a reply. -/
theorem jobStep_send (hviews : ViewsOk log s.window) {b : reply_pdu γ}
    (hb : 0 ≤ b.ret → Answered log h.clt_nonce b.xid b.ret b.body) :
    JobStep log s h [] ({ s with sent := s.sent ++ [b] }, .finished) := by
  refine ⟨rfl, rfl, (List.append_nil _).symm, hviews.append [], trivial, [b], rfl, fun pdu hp => ?_⟩
  rw [List.mem_singleton.mp hp]
  exact fun hret => (hb hret).append []

theorem accepts_of_not_old {nonce_ : ℕ} (hold : ¬ (h.srv_nonce ≠ 0 ∧ h.srv_nonce ≠ nonce_)) :
    Accepts nonce_ h := by
  by_cases hzero : h.srv_nonce = 0
  · exact .inl hzero
  · exact .inr (not_not.mp fun hne => hold ⟨hzero, hne⟩)

theorem jobStep_start (hviews : ViewsOk log s.window) :
    JobStep log s h [] (dispatch_start s h) := by
  unfold dispatch_start
  by_cases hold : h.srv_nonce ≠ 0 ∧ h.srv_nonce ≠ s.nonce_
  · rw [if_pos hold]
    refine jobStep_send hviews fun hret => absurd hret ?_
    show ¬ (0 : ℤ) ≤ -5
    omega
  rw [if_neg hold]
  by_cases hproc : h.proc ∉ s.procs_
  · rw [if_pos hproc]
    exact jobStep_move hviews rfl rfl rfl rfl trivial
  rw [if_neg hproc]
  by_cases hnew : h.clt_nonce ≠ 0 ∧ s.window.reply_window_ h.clt_nonce = none
  · rw [if_pos hnew]
    refine jobStep_move (fun c y b sz hv => ?_) rfl rfl rfl rfl (accepts_of_not_old hold)
    rw [view_touch _ _ _ _ hnew.2] at hv
    exact hviews c y b sz hv
  · rw [if_neg hnew]
    exact jobStep_move hviews rfl rfl rfl rfl (accepts_of_not_old hold)

/-- The duplicate check adds no reply to the windows. -/
theorem viewsOk_check (hviews : ViewsOk log s.window) (hwf : Wf s.window) :
    ViewsOk log (checkduplicate_and_update s.window h.clt_nonce h.xid h.xid_rep).2 := by
  intro c y b sz hv
  rw [view_check hwf] at hv
  by_cases hc : c = h.clt_nonce
  · rw [if_pos hc] at hv
    by_cases hack : y ≤ h.xid_rep
    · -- what is acknowledged is gone
      cases hcase : (if y = h.xid then (view s.window h.clt_nonce h.xid).inserted
        else view s.window h.clt_nonce y) with
      | absent | gone =>
        rw [hcase] at hv
        cases hv
      | present b' sz' =>
        rw [hcase, View.acked, if_pos hack] at hv
        cases hv
    · by_cases hy : y = h.xid
      · subst hy
        rw [if_pos rfl] at hv
        cases hcase : view s.window h.clt_nonce h.xid with
        | absent =>
          rw [hcase, View.inserted, View.acked, if_neg hack] at hv
          cases hv
        | gone =>
          rw [hcase] at hv
          cases hv
        | present b' sz' =>
          rw [hcase, View.inserted, View.acked, if_neg hack] at hv
          · cases hv
            exact hviews c h.xid b sz (hc ▸ hcase)
          · exact fun habs => by cases habs
      · rw [if_neg hy] at hv
        cases hcase : view s.window h.clt_nonce y with
        | absent | gone =>
          rw [hcase] at hv
          cases hv
        | present b' sz' =>
          rw [hcase, View.acked, if_neg hack] at hv
          cases hv
          exact hviews c y b sz (hc ▸ hcase)
  · rw [if_neg hc] at hv
    exact hviews c y b sz hv

/-- The window answers for a request it has seen, and admits one it has not. -/
theorem jobStep_check (hviews : ViewsOk log s.window) (hwf : Wf s.window)
    (hacc : Accepts s.nonce_ h) : JobStep log s h [] (dispatch_check s h) := by
  unfold dispatch_check
  by_cases hc : h.clt_nonce ≠ 0
  · rw [if_pos hc]
    refine jobStep_move (viewsOk_check hviews hwf) rfl rfl rfl rfl ⟨hacc, fun b1 sz hout => ?_⟩
    rw [check_result hwf] at hout
    cases hv : view s.window h.clt_nonce h.xid with
    | absent | gone =>
      rw [hv] at hout
      cases hout
    | present b' sz' =>
      rw [hv] at hout
      cases hout
      exact hviews _ _ b1 sz hv
  · rw [if_neg hc]
    exact jobStep_move hviews rfl rfl rfl rfl ⟨hacc, fun b1 sz hout => by cases hout⟩

/-- The handler runs, and its execution is logged with what it has returned. -/
theorem jobStep_run (hviews : ViewsOk log s.window) (o : HandlerOut γ) :
    JobStep log s h [⟨s.nonce_, h, o⟩] (dispatch_run s h o) := by
  unfold dispatch_run
  dsimp only
  by_cases hneg : o.ret < 0
  · rw [if_pos hneg]
    exact ⟨rfl, rfl, rfl, hviews.append _, trivial, [], (List.append_nil _).symm,
      List.forall_mem_nil _⟩
  · rw [if_neg hneg]
    refine ⟨rfl, rfl, rfl, hviews.append _, ⟨rfl, ?_⟩, [], (List.append_nil _).symm,
      List.forall_mem_nil _⟩
    exact ⟨⟨s.nonce_, h, o⟩, List.mem_append_right _ (List.mem_singleton_self _), rfl, rfl, rfl,
      rfl⟩

/-- The reply is recorded. -/
theorem viewsOk_add_reply (hviews : ViewsOk log s.window) {b1 : reply_pdu γ} (sz1 : ℤ)
    (hb : IsReply log h.clt_nonce h.xid b1) :
    ViewsOk log (add_reply s.window h.clt_nonce h.xid (some b1) sz1) := by
  intro c y b sz hv
  rw [view_add_reply] at hv
  by_cases hcy : c = h.clt_nonce ∧ y = h.xid
  · rw [if_pos hcy] at hv
    obtain ⟨rfl, rfl⟩ := hcy
    cases hcase : view s.window h.clt_nonce h.xid with
    | absent | gone =>
      rw [hcase] at hv
      cases hv
    | present b' sz' =>
      rw [hcase] at hv
      cases hv
      exact hb
  · rw [if_neg hcy] at hv
    exact hviews c y b sz hv

/-- **What a step of a job does**, by where the job stands. -/
theorem jobStep_next {j : Job γ} (hviews : ViewsOk log s.window) (hwf : Wf s.window)
    (hpcok : PcOk log s.nonce_ j.h j.pc) (o : HandlerOut γ) :
    JobStep log s j.h (ran s.nonce_ j o) (dispatch_next s j o) := by
  unfold dispatch_next ran
  cases hpc : j.pc with
  | start => exact jobStep_start hviews
  | known =>
    rw [hpc] at hpcok
    exact jobStep_check hviews hwf hpcok
  | checked stat out =>
    rw [hpc] at hpcok
    cases stat with
    | NEW => exact jobStep_run hviews o
    | INPROGRESS => exact jobStep_move hviews rfl rfl rfl rfl trivial
    | DONE =>
      rcases out with _ | ⟨_ | b1, sz1⟩
      · exact jobStep_move hviews rfl rfl rfl rfl trivial
      · exact jobStep_move hviews rfl rfl rfl rfl trivial
      · obtain ⟨hxid, hans⟩ := hpcok.2 b1 sz1 rfl
        exact jobStep_send hviews fun _ => hxid ▸ hans
    | FORGOTTEN =>
      refine jobStep_send hviews fun hret => absurd hret ?_
      show ¬ (0 : ℤ) ≤ -4
      omega
  | ran b1 sz1 =>
    rw [hpc] at hpcok
    dsimp only
    by_cases hc : j.h.clt_nonce > 0
    · rw [if_pos hc]
      exact jobStep_move (viewsOk_add_reply hviews sz1 hpcok) rfl rfl rfl rfl hpcok
    · rw [if_neg hc]
      exact jobStep_move hviews rfl rfl rfl rfl hpcok
  | recorded b1 kept =>
    rw [hpc] at hpcok
    exact jobStep_send hviews fun _ => hpcok.1 ▸ hpcok.2
  | finished => exact jobStep_move hviews rfl rfl rfl rfl trivial

end JobStep

/-! ## The clients -/

/-- A client gives out its xids in order and sends only what it has packed; and what it knows of
a reply is what it may have been told. -/
structure ClientOk (log : List (Execution γ)) (stale : List (ℕ × reply_pdu γ)) (c : Client γ) :
    Prop where
  bound : c.issued.length < 2 ^ 32
  xid : c.clt.xid_ = wrap32 (c.issued.length + 1)
  /-- The xids are given out in order. -/
  issued : ∀ k h, c.issued[k]? = some h → h.xid = k + 1 ∧ h.clt_nonce = c.clt.clt_nonce_
  threads : ∀ y h, c.threads y = some h → h ∈ c.issued ∧ h.xid = y
  wire : ∀ h ∈ c.wire, h ∈ c.issued
  calls : ∀ y ca, c.clt.calls_ y = some ca → ca.done = true → 0 ≤ ca.intret →
    Told log stale c.clt.clt_nonce_ y ca.intret ca.un
  returned : ∀ p ∈ c.returned, p.1 ∈ c.issued
    ∧ (0 ≤ p.2.1 → Told log stale c.clt.clt_nonce_ p.1.xid p.2.1 p.2.2)

theorem clientOk_init (log : List (Execution γ)) (stale : List (ℕ × reply_pdu γ))
    (clt_nonce_ : ℕ) :
    ClientOk log stale (Client.init clt_nonce_ : Client γ) where
  bound := by simp [Client.init]
  xid := rfl
  issued := by intro k h hk; cases hk
  threads := by intro y h hy; cases hy
  wire := by intro h hh; cases hh
  calls := by intro y ca hca; cases hca
  returned := by intro p hp; cases hp

/-- What a client has been told stays true as the log grows. -/
theorem ClientOk.append {stale : List (ℕ × reply_pdu γ)}
    (hc : ClientOk log stale c) (es : List (Execution γ)) (js : List (ℕ × reply_pdu γ)) :
    ClientOk (log ++ es) (stale ++ js) c :=
  { hc with
    calls := fun y ca hca hd hret => (hc.calls y ca hca hd hret).append es js
    returned := fun p hp =>
      ⟨(hc.returned p hp).1, fun hret => ((hc.returned p hp).2 hret).append es js⟩ }

/-- Two requests of a client with the same xid are the same. -/
theorem ClientOk.issued_inj {stale : List (ℕ × reply_pdu γ)} (hc : ClientOk log stale c)
    {h h' : req_header} (hh : h ∈ c.issued) (hh' : h' ∈ c.issued) (hxid : h.xid = h'.xid) :
    h = h' := by
  obtain ⟨k, hk⟩ := List.mem_iff_getElem?.mp hh
  obtain ⟨k', hk'⟩ := List.mem_iff_getElem?.mp hh'
  have h1 := (hc.issued k h hk).1
  have h2 := (hc.issued k' h' hk').1
  obtain rfl : k = k' := by omega
  exact Option.some.inj (hk.symm.trans hk')

section ClientOk

variable {log : List (Execution γ)} {stale : List (ℕ × reply_pdu γ)} {c c' : Client γ}

/-- A new call gets the next xid, which has not wrapped around by then. -/
theorem clientOk_begin {proc : ℕ} (hc : ClientOk log stale c)
    (hbound : c.issued.length + 1 < 2 ^ 32)
    (hs : c.step (.begin proc) = some c') :
    ClientOk log stale c' ∧ c'.clt.clt_nonce_ = c.clt.clt_nonce_ ∧ c.issued ⊆ c'.issued := by
  simp only [Client.step, call1_begin] at hs
  split at hs
  · cases hs
  · next h clt' hbegin =>
    split_ifs at hbegin
    cases hbegin
    cases hs
    have hxid : c.clt.xid_ = c.issued.length + 1 := by
      rw [hc.xid, wrap32, Nat.mod_eq_of_lt hbound]
    refine ⟨⟨?_, ?_, ?_, ?_, ?_, ?_, ?_⟩, rfl, fun h hh => List.mem_append_left _ hh⟩
    · show (c.issued ++ [_]).length < 2 ^ 32
      rw [List.length_append, List.length_singleton]
      exact hbound
    · show wrap32 (c.clt.xid_ + 1) = wrap32 ((c.issued ++ [_]).length + 1)
      rw [List.length_append, List.length_singleton, hxid]
    · intro k h hk
      rcases Nat.lt_or_ge k c.issued.length with hlt | hge
      · rw [List.getElem?_append_left hlt] at hk
        exact hc.issued k h hk
      · rw [List.getElem?_append_right hge] at hk
        have hzero : k - c.issued.length = 0 := by
          have := (List.getElem?_eq_some_iff.mp hk).1
          simp only [List.length_singleton] at this
          omega
        rw [hzero] at hk
        cases hk
        exact ⟨by show c.clt.xid_ = k + 1; omega, rfl⟩
    · intro y h hy
      rcases update_eq_some hy with ⟨rfl, hy'⟩ | ⟨-, hy'⟩
      · cases hy'
        exact ⟨List.mem_append_right _ (List.mem_singleton.mpr rfl), rfl⟩
      · exact ⟨List.mem_append_left _ (hc.threads y h hy').1, (hc.threads y h hy').2⟩
    · exact fun h hh => List.mem_append_left _ (hc.wire h hh)
    · intro y ca hca hd hret
      rcases update_eq_some hca with ⟨-, hca'⟩ | ⟨-, hca'⟩
      · cases hca'
        cases hd
      · exact hc.calls y ca hca' hd hret
    · exact fun p hp => ⟨List.mem_append_left _ (hc.returned p hp).1, (hc.returned p hp).2⟩

theorem clientOk_finish {xid : ℕ} (hc : ClientOk log stale c)
    (hs : c.step (.finish xid) = some c') :
    ClientOk log stale c' ∧ c'.clt.clt_nonce_ = c.clt.clt_nonce_ ∧ c.issued ⊆ c'.issued := by
  obtain ⟨h, hth, rfl⟩ := Option.map_eq_some_iff.mp hs
  obtain ⟨hmem, hxid⟩ := hc.threads xid h hth
  refine ⟨⟨hc.bound, hc.xid, hc.issued, ?_, hc.wire, ?_, ?_⟩, rfl, fun _ hh => hh⟩
  · intro y h' hy
    rcases update_eq_some hy with ⟨-, hy'⟩ | ⟨-, hy'⟩
    · cases hy'
    · exact hc.threads y h' hy'
  · intro y ca hca
    rcases update_eq_some hca with ⟨-, hca'⟩ | ⟨-, hca'⟩
    · cases hca'
    · exact hc.calls y ca hca'
  · intro p hp
    rcases List.mem_append.mp hp with hp | hp
    · exact hc.returned p hp
    · rw [List.mem_singleton.mp hp]
      refine ⟨hmem, fun hret => ?_⟩
      rw [hxid]
      show Told log stale _ xid (call1_return c.clt xid) (call1_reply c.clt xid)
      have hret' : 0 ≤ call1_return c.clt xid := hret
      have htimeout : ¬ 0 ≤ timeout_failure := by decide
      unfold call1_return call1_reply at *
      cases hca : c.clt.calls_ xid with
      | none =>
        rw [hca] at hret'
        exact absurd hret' htimeout
      | some ca =>
        rw [hca] at hret'
        dsimp only at hret'
        cases hd : ca.done with
        | false =>
          rw [hd] at hret'
          exact absurd hret' htimeout
        | true =>
          rw [hd, if_pos rfl] at hret'
          simp only [Option.bind_some, hd, if_true]
          exact hc.calls xid ca hca hd hret'

/-- A true reply stays true where the client keeps it, with the call of its xid. -/
theorem clientOk_got_pdu {pdu : reply_pdu γ} (hc : ClientOk log stale c)
    (hpdu : 0 ≤ pdu.ret → Told log stale c.clt.clt_nonce_ pdu.xid pdu.ret pdu.body) :
    ClientOk log stale { c with clt := got_pdu c.clt pdu } := by
  obtain ⟨hnonce, hxid, -⟩ := got_pdu_rest c.clt pdu
  refine ⟨hc.bound, hxid.trans hc.xid, fun k h hk => ?_, hc.threads, hc.wire, ?_, fun p hp => ?_⟩
  · rw [hnonce]
    exact hc.issued k h hk
  · intro y ca hca hd hret
    rw [hnonce]
    rcases got_pdu_calls hca with ⟨hold, -⟩ | ⟨rfl, rfl, -⟩
    · exact hc.calls y ca hold hd hret
    · exact hpdu hret
  · rw [hnonce]
    exact hc.returned p hp

/-- **A step of a client.** -/
theorem clientOk_step {a : ClientAct} (hc : ClientOk log stale c)
    (hbound : ∀ proc, a = .begin proc → c.issued.length + 1 < 2 ^ 32)
    (hs : c.step a = some c') :
    ClientOk log stale c' ∧ c'.clt.clt_nonce_ = c.clt.clt_nonce_ ∧ c.issued ⊆ c'.issued := by
  cases a with
  | begin proc => exact clientOk_begin hc (hbound proc rfl) hs
  | transmit xid =>
    obtain ⟨h, hth, rfl⟩ := Option.map_eq_some_iff.mp hs
    refine ⟨{ hc with wire := fun h' hh' => ?_ }, rfl, fun _ hh => hh⟩
    rcases List.mem_append.mp hh' with hh' | hh'
    · exact hc.wire h' hh'
    · rw [List.mem_singleton.mp hh']
      exact (hc.threads xid h hth).1
  | finish xid => exact clientOk_finish hc hs
  | bound r =>
    simp only [Client.step] at hs
    split_ifs at hs
    cases hs
    exact ⟨⟨hc.bound, hc.xid, hc.issued, hc.threads, hc.wire, hc.calls, hc.returned⟩, rfl,
      fun _ hh => hh⟩
  | cancel xid =>
    simp only [Client.step] at hs
    split_ifs at hs
    cases hs
    refine ⟨⟨hc.bound, hc.xid, hc.issued, hc.threads, hc.wire, ?_, hc.returned⟩, rfl,
      fun _ hh => hh⟩
    -- a cancelled call fails
    intro y ca hca hd hret
    obtain ⟨ca', -, rfl⟩ := Option.map_eq_some_iff.mp hca
    have hcancel : ¬ 0 ≤ cancel_failure := by decide
    exact absurd hret hcancel

end ClientOk

/-! ## The invariant -/

/-- A run of the handler for request `x` of client `c` in the process with nonce `m`. -/
def isRun (m c x : ℕ) (e : Execution γ) : Bool :=
  e.nonce = m ∧ e.h.clt_nonce = c ∧ e.h.xid = x

/-- Some client has packed the header. -/
def Named (n : Network γ) (h : req_header) : Prop := ∃ c ∈ n.clients, h ∈ c.issued

structure Inv (n : Network γ) : Prop where
  clients : ∀ c ∈ n.clients, ClientOk n.executions n.stale c
  srv : RpcDispatch.Inv n.srv
  views : ViewsOk n.executions n.srv.window
  jobs : ∀ j ∈ n.srv.jobs, Named n j.h ∧ PcOk n.executions n.srv.nonce_ j.h j.pc
  replies : ∀ r ∈ n.replies, 0 ≤ r.2.ret →
    Told n.executions n.stale r.1 r.2.xid r.2.ret r.2.body
  log : ∀ e ∈ n.executions, Named n e.h ∧ Accepts e.nonce e.h ∧ e.nonce ∈ n.nonces
  /-- What the running server process counts is what the history says of it. -/
  executed : ∀ c x, n.srv.executed.count (c, x) = n.executions.countP (isRun n.srv.nonce_ c x)
  once : ∀ m c x, c ≠ 0 → n.executions.countP (isRun m c x) ≤ 1
  nonce : n.srv.nonce_ ∈ n.nonces

theorem inv_init (clt_nonces : List ℕ) (nonce_ : ℕ) (procs_ : List ℕ) :
    Inv (Network.init clt_nonces nonce_ procs_ : Network γ) where
  clients := by
    intro c hc
    obtain ⟨m, -, rfl⟩ := List.mem_map.mp hc
    exact clientOk_init _ _ m
  srv := RpcDispatch.inv_init nonce_ procs_
  views := by intro c y b sz hv; cases hv
  jobs := by intro j hj; cases hj
  replies := by intro r hr; cases hr
  log := by intro e he; cases he
  executed := fun _ _ => rfl
  once := fun _ _ _ _ => Nat.zero_le _
  nonce := List.mem_singleton.mpr rfl

/-- What the clients know stays right when more handlers are run. -/
theorem Inv.clients_append (hn : Inv n) (es : List (Execution γ)) :
    ∀ c ∈ n.clients, ClientOk (n.executions ++ es) n.stale c := by
  intro c hc
  have h := (hn.clients c hc).append es []
  rwa [List.append_nil] at h

theorem Inv.replies_append (hn : Inv n) (es : List (Execution γ)) :
    ∀ r ∈ n.replies, 0 ≤ r.2.ret →
      Told (n.executions ++ es) n.stale r.1 r.2.xid r.2.ret r.2.body := by
  intro r hr hret
  have h := (hn.replies r hr hret).append es []
  rwa [List.append_nil] at h

/-- A client has gone on. -/
theorem inv_set (hn : Inv n) {i : ℕ} {c c' : Client γ}
    (hi : n.clients[i]? = some c) (hc' : ClientOk n.executions n.stale c')
    (hsub : c.issued ⊆ c'.issued) :
    Inv { n with clients := n.clients.set i c' } := by
  have hlt : i < n.clients.length := (List.getElem?_eq_some_iff.mp hi).1
  have hnamed : ∀ h, Named n h → Named { n with clients := n.clients.set i c' } h := by
    rintro h ⟨d, hd, hh⟩
    obtain ⟨k, hk⟩ := List.mem_iff_getElem?.mp hd
    by_cases hki : k = i
    · subst hki
      obtain rfl : d = c := Option.some.inj (hk.symm.trans hi)
      exact ⟨c', List.mem_of_getElem? (List.getElem?_set_self hlt), hsub hh⟩
    · refine ⟨d, List.mem_of_getElem? (i := k) ?_, hh⟩
      rw [List.getElem?_set_ne (Ne.symm hki), hk]
  refine ⟨fun d hd => ?_, hn.srv, hn.views, fun j hj => ?_, hn.replies, fun e he => ?_, hn.executed,
    hn.once, hn.nonce⟩
  · rcases List.mem_or_eq_of_mem_set hd with hd | rfl
    · exact hn.clients d hd
    · exact hc'
  · exact ⟨hnamed _ (hn.jobs j hj).1, (hn.jobs j hj).2⟩
  · exact ⟨hnamed _ (hn.log e he).1, (hn.log e he).2⟩

variable {n' : Network γ}

/-- A request may arrive any number of times: it only makes another job. -/
theorem inv_request {i : ℕ} (hn : Inv n) (hs : step n (.request i h) = some n') : Inv n' := by
  simp only [step] at hs
  split at hs
  · cases hs
  · next c hi =>
    split_ifs at hs with hw
    obtain ⟨srv, hsrv, rfl⟩ := Option.map_eq_some_iff.mp hs
    have hinv := RpcDispatch.inv_step _ _ _ hn.srv hsrv
    simp only [RpcDispatch.step] at hsrv
    split_ifs at hsrv
    cases hsrv
    refine ⟨hn.clients, hinv, hn.views, fun j hj => ?_, hn.replies, hn.log, hn.executed, hn.once,
      hn.nonce⟩
    rcases List.mem_append.mp hj with hj | hj
    · exact hn.jobs j hj
    · have hmem := List.mem_of_getElem? hi
      rw [List.mem_singleton.mp hj]
      exact ⟨⟨c, hmem, (hn.clients c hmem).wire h hw⟩, trivial⟩

/-- What a step of a job adds to the history is a run of its own handler. -/
theorem ran_cases (nonce_ : ℕ) (j : Job γ) (o : HandlerOut γ) :
    ran nonce_ j o = []
      ∨ (∃ out, j.pc = .checked .NEW out) ∧ ran nonce_ j o = [⟨nonce_, j.h, o⟩] := by
  unfold ran
  cases hpc : j.pc with
  | checked stat out =>
    cases stat with
    | NEW => exact .inr ⟨⟨out, rfl⟩, rfl⟩
    | INPROGRESS | DONE | FORGOTTEN => exact .inl rfl
  | start | known | ran b1 sz | recorded b1 kept | finished => exact .inl rfl

/-- The history counts a run where the server does. -/
theorem count_ran (nonce_ : ℕ) (j : Job γ) (o : HandlerOut γ) (c x : ℕ) :
    ((ran nonce_ j o).map fun _ => (j.h.clt_nonce, j.h.xid)).count (c, x)
      = (ran nonce_ j o).countP (isRun nonce_ c x) := by
  obtain hnil | ⟨-, hone⟩ := ran_cases nonce_ j o
  · rw [hnil]
    rfl
  · rw [hone, List.map_singleton, List.count_singleton, List.countP_singleton]
    simp only [isRun, beq_iff_eq, Prod.mk.injEq, true_and, decide_eq_true_eq]

/-- **A step of a job.** -/
theorem inv_job {k : ℕ} {o : HandlerOut γ} (hn : Inv n)
    (hs : step n (.job k o) = some n') : Inv n' := by
  simp only [step] at hs
  split at hs
  · cases hs
  · next j hj =>
    obtain ⟨srv, hsrv, rfl⟩ := Option.map_eq_some_iff.mp hs
    have hinv := RpcDispatch.inv_step _ _ _ hn.srv hsrv
    simp only [RpcDispatch.step, hj] at hsrv
    split_ifs at hsrv
    obtain rfl := (Option.some.inj hsrv).symm
    obtain ⟨hnamed, hpcok⟩ := hn.jobs j (List.mem_of_getElem? hj)
    have hstep := jobStep_next hn.views hn.srv.wf hpcok o
    obtain ⟨out, hsent, hout⟩ := hstep.sent
    have hcount : ∀ c x, (dispatch_next n.srv j o).1.executed.count (c, x)
        = (n.executions ++ ran n.srv.nonce_ j o).countP (isRun n.srv.nonce_ c x) := by
      intro c x
      rw [hstep.executed, List.count_append, List.countP_append, hn.executed, count_ran]
    refine ⟨fun c hc => hn.clients_append _ c hc, hinv, hstep.views, fun j' hj' => ?_,
      fun r hr => ?_, fun e he => ?_, fun c x => ?_, fun m c x hc => ?_, ?_⟩
    · have hmem : j' ∈ n.srv.jobs.set k ⟨j.h, (dispatch_next n.srv j o).2⟩ := by
        rw [← hstep.jobs]
        exact hj'
      show Named _ _ ∧ PcOk _ (dispatch_next n.srv j o).1.nonce_ _ _
      rw [hstep.nonce]
      rcases List.mem_or_eq_of_mem_set hmem with hold | rfl
      · exact ⟨(hn.jobs j' hold).1, (hn.jobs j' hold).2.append _⟩
      · exact ⟨hnamed, hstep.pc⟩
    · rcases List.mem_append.mp hr with hr | hr
      · exact fun hret => hn.replies_append _ r hr hret
      · obtain ⟨pdu, hp, rfl⟩ := List.mem_map.mp hr
        refine fun hret => .inl (hout pdu ?_ hret)
        have hdrop : (settle k j.h (dispatch_next n.srv j o)).sent.drop n.srv.sent.length
            = out := by
          show (dispatch_next n.srv j o).1.sent.drop _ = out
          rw [hsent, List.drop_left]
        rwa [hdrop] at hp
    · rcases List.mem_append.mp he with he | he
      · exact hn.log e he
      · obtain hnil | ⟨⟨st, hpc⟩, hone⟩ := ran_cases n.srv.nonce_ j o
        · rw [hnil] at he
          cases he
        · rw [hone, List.mem_singleton] at he
          subst he
          rw [hpc] at hpcok
          exact ⟨hnamed, hpcok.1, hn.nonce⟩
    · show (dispatch_next n.srv j o).1.executed.count (c, x) = List.countP
        (isRun (dispatch_next n.srv j o).1.nonce_ c x) _
      rw [hstep.nonce]
      exact hcount c x
    · by_cases hm : m = n.srv.nonce_
      · -- the running process
        have honce := hinv.once c x hc
        subst hm
        rw [← hcount c x]
        exact Nat.le_trans (Nat.le_add_right _ _) honce
      · rw [List.countP_append]
        have hzero : (ran n.srv.nonce_ j o).countP (isRun m c x) = 0 := by
          refine List.countP_eq_zero.mpr fun e he => ?_
          obtain hnil | ⟨-, hone⟩ := ran_cases n.srv.nonce_ j o
          · rw [hnil] at he
            cases he
          · rw [hone, List.mem_singleton] at he
            subst he
            simp [isRun, Ne.symm hm]
        rw [hzero]
        exact hn.once m c x hc
    · show (dispatch_next n.srv j o).1.nonce_ ∈ n.nonces
      rw [hstep.nonce]
      exact hn.nonce

/-- A job that sends a freed buffer has run its handler before, or never will. -/
theorem pending_freed {s : Server γ} {j : Job γ} (hfreed : Freed s j = true) (c x : ℕ) :
    Pending c x j = false := by
  unfold Freed at hfreed
  unfold Pending
  cases hpc : j.pc with
  | checked stat out =>
    cases stat with
    | NEW =>
      rw [hpc] at hfreed
      cases hfreed
    | INPROGRESS | DONE | FORGOTTEN => rfl
  | start | known | ran b1 sz | recorded b1 kept | finished => rfl

/-- **A freed buffer is sent.** Nothing is run, and nothing but what the client may be told
changes. -/
theorem inv_stale {k : ℕ} {junk : reply_pdu γ} (hn : Inv n)
    (hs : step n (.stale k junk) = some n') : Inv n' := by
  simp only [step] at hs
  split at hs
  · cases hs
  · next j hj =>
    split_ifs at hs with hfreed
    cases hs
    have hpend := pending_freed hfreed.2
    refine ⟨fun c hc => ?_, ?_, hn.views, fun j' hj' => ?_, fun r hr hret => ?_, hn.log,
      hn.executed, hn.once, hn.nonce⟩
    · have h := (hn.clients c hc).append [] [(j.h.clt_nonce, junk)]
      rwa [List.append_nil] at h
    · exact RpcDispatch.inv_still hn.srv hj rfl rfl rfl hpend fun _ _ => rfl
    · rcases List.mem_or_eq_of_mem_set hj' with hold | rfl
      · exact hn.jobs j' hold
      · exact ⟨(hn.jobs j (List.mem_of_getElem? hj)).1, trivial⟩
    · rcases List.mem_append.mp hr with hr | hr
      · have h := (hn.replies r hr hret).append [] [(j.h.clt_nonce, junk)]
        rwa [List.append_nil] at h
      · rw [List.mem_singleton] at hr
        subst hr
        exact .inr (List.mem_append_right _ (List.mem_singleton_self _))

/-- A reply may arrive any number of times, also after its call has ended. -/
theorem inv_reply {i k : ℕ} (hn : Inv n) (hs : step n (.reply i k) = some n') : Inv n' := by
  simp only [step] at hs
  split at hs
  · next c nonce pdu hi hk =>
    split_ifs at hs with hnonce
    cases hs
    have hpdu := hn.replies _ (List.mem_of_getElem? hk)
    refine inv_set hn hi (clientOk_got_pdu (hn.clients c (List.mem_of_getElem? hi)) ?_)
      fun _ hh => hh
    rw [hnonce]
    exact hpdu
  · cases hs

/-- A new process has run nothing. -/
theorem inv_restart {nonce_ : ℕ} (hn : Inv n) (hfresh : nonce_ ∉ n.nonces)
    (hs : step n (.restart nonce_) = some n') : Inv n' := by
  cases hs
  refine ⟨hn.clients, RpcDispatch.inv_init nonce_ _, ?_, ?_, hn.replies, fun e he => ?_,
    fun c x => ?_, hn.once, List.mem_append_right _ (List.mem_singleton.mpr rfl)⟩
  · intro c y b sz hv
    cases hv
  · intro j hj
    cases hj
  · obtain ⟨hnamed, hacc, hmem⟩ := hn.log e he
    exact ⟨hnamed, hacc, List.mem_append_left _ hmem⟩
  · refine (List.countP_eq_zero.mpr fun e he => ?_).symm
    have hne : e.nonce ≠ nonce_ := fun heq => hfresh (heq ▸ (hn.log e he).2.2)
    simp [isRun, Server.init, hne]

/-- **Every step keeps the invariant.** -/
theorem inv_step (n : Network γ) (a : Act γ) (n' : Network γ) (hn : Inv n) (hok : Allowed n a)
    (hs : step n a = some n') : Inv n' := by
  cases a with
  | client i a =>
    simp only [step] at hs
    split at hs
    · cases hs
    · next c hi =>
      obtain ⟨c', hc', rfl⟩ := Option.map_eq_some_iff.mp hs
      have hbound : ∀ proc, a = .begin proc → c.issued.length + 1 < 2 ^ 32 := by
        rintro proc rfl
        exact hok.begin hi
      obtain ⟨hok', -, hsub⟩ :=
        clientOk_step (hn.clients c (List.mem_of_getElem? hi)) hbound hc'
      exact inv_set hn hi hok' hsub
  | request i h => exact inv_request hn hs
  | job k o => exact inv_job hn hs
  | stale k junk => exact inv_stale hn hs
  | reply i k => exact inv_reply hn hs
  | restart nonce_ => exact inv_restart hn hok hs

/-- A run of the handler for the request with header `h`, in any server process. -/
def isFor (h : req_header) (e : Execution γ) : Bool :=
  e.h.clt_nonce = h.clt_nonce ∧ e.h.xid = h.xid

/-- The history tells requests apart by client and xid. -/
theorem eq_of_isFor (hn : Inv n)
    (hnodup : (n.clients.map fun c => c.clt.clt_nonce_).Nodup) (hc : c ∈ n.clients)
    (hh : h ∈ c.issued) {e : Execution γ} (he : e ∈ n.executions)
    (hfor : isFor h e = true) : e.h = h := by
  obtain ⟨hclt, hxid⟩ : e.h.clt_nonce = h.clt_nonce ∧ e.h.xid = h.xid := of_decide_eq_true hfor
  obtain ⟨⟨d, hd, hmem⟩, -⟩ := hn.log e he
  obtain ⟨k, hk⟩ := List.mem_iff_getElem?.mp hh
  obtain ⟨k', hk'⟩ := List.mem_iff_getElem?.mp hmem
  have hsame : d.clt.clt_nonce_ = c.clt.clt_nonce_ := by
    rw [← ((hn.clients d hd).issued k' e.h hk').2, hclt, ((hn.clients c hc).issued k h hk).2]
  obtain rfl : d = c := List.inj_on_of_nodup_map hnodup hd hc hsame
  exact (hn.clients d hd).issued_inj hmem hh hxid

/-- A request that names its server process is run in that process only, and once. -/
theorem filter_isFor_length (hn : Inv n)
    (hnodup : (n.clients.map fun c => c.clt.clt_nonce_).Nodup) (hc : c ∈ n.clients)
    (hne : c.clt.clt_nonce_ ≠ 0) (hh : h ∈ c.issued) (hsrv : h.srv_nonce ≠ 0) :
    (∀ e ∈ n.executions, isFor h e = true → e.h = h ∧ e.nonce = h.srv_nonce)
      ∧ (n.executions.filter (isFor h)).length ≤ 1 := by
  have hown : ∀ e ∈ n.executions, isFor h e = true → e.h = h ∧ e.nonce = h.srv_nonce := by
    intro e he hfor
    have heq := eq_of_isFor hn hnodup hc hh he hfor
    refine ⟨heq, ?_⟩
    rcases (hn.log e he).2.1 with hzero | hnonce
    · rw [heq] at hzero
      exact absurd hzero hsrv
    · rw [← hnonce, heq]
  refine ⟨hown, ?_⟩
  obtain ⟨k, hk⟩ := List.mem_iff_getElem?.mp hh
  have hclt : h.clt_nonce ≠ 0 := by
    rw [((hn.clients c hc).issued k h hk).2]
    exact hne
  refine Nat.le_trans ?_ (hn.once h.srv_nonce h.clt_nonce h.xid hclt)
  rw [← List.countP_eq_length_filter]
  refine List.countP_mono_left fun e he hfor => ?_
  obtain ⟨heq, hnonce⟩ := hown e he hfor
  exact decide_eq_true ⟨hnonce, by rw [heq], by rw [heq]⟩

/-- A call that returned a value that is not an error: the one run of its handler, unless
what it was told came from a freed buffer. -/
theorem run_of_returned (hn : Inv n)
    (hnodup : (n.clients.map fun c => c.clt.clt_nonce_).Nodup) (hc : c ∈ n.clients)
    (hne : c.clt.clt_nonce_ ≠ 0) {v : ℤ} {body : Option γ}
    (hret : (h, v, body) ∈ c.returned) (hsrv : h.srv_nonce ≠ 0) (hv : 0 ≤ v) :
    (∃ out, n.executions.filter (isFor h) = [⟨h.srv_nonce, h, out⟩]
        ∧ v = out.ret ∧ body = some out.body)
      ∨ (h.clt_nonce, ⟨h.xid, v, body⟩) ∈ n.stale := by
  obtain ⟨hh, htold⟩ := (hn.clients c hc).returned _ hret
  obtain ⟨k, hk⟩ := List.mem_iff_getElem?.mp hh
  have hclt_nonce := ((hn.clients c hc).issued k h hk).2
  obtain ⟨e, he, hclt, hxid, hout, hbody⟩ | hstale := htold hv
  swap
  · rw [hclt_nonce]
    exact .inr hstale
  left
  obtain ⟨hown, hlen⟩ := filter_isFor_length hn hnodup hc hne hh hsrv
  have hfor : isFor h e = true := by
    refine decide_eq_true ⟨?_, hxid⟩
    rw [hclt, hclt_nonce]
  obtain ⟨heq, hnonce⟩ := hown e he hfor
  have hmem : e ∈ n.executions.filter (isFor h) := List.mem_filter.mpr ⟨he, hfor⟩
  refine ⟨e.out, ?_, hout.symm, hbody⟩
  obtain ⟨e', he'⟩ := List.length_eq_one_iff.mp
    (Nat.le_antisymm hlen (List.length_pos_of_mem hmem))
  rw [he', List.mem_singleton] at hmem
  rw [he', ← hmem]
  cases e
  simp only at heq hnonce
  rw [heq, hnonce]

/-- A client binds, with a request that arrives twice, and makes a call. Its call acknowledges
the first one, so the second job of the bind sends a freed buffer. The server carries the call
out and crashes; a late copy of the request reaches the next server process, which refuses it. -/
def crashed : List (Act ℕ) :=
  [.client 0 (.begin 1), .client 0 (.transmit 1), .request 0 ⟨1, 1, 7, 0, 0⟩,
    .request 0 ⟨1, 1, 7, 0, 0⟩, .job 0 ⟨0, 5, 20⟩, .job 0 ⟨0, 5, 20⟩, .job 0 ⟨0, 5, 20⟩,
    .job 0 ⟨0, 5, 20⟩, .job 0 ⟨0, 5, 20⟩, .job 1 ⟨0, 5, 20⟩, .job 1 ⟨0, 5, 20⟩, .reply 0 0,
    .client 0 (.finish 1), .client 0 (.bound 5), .client 0 (.begin 9), .client 0 (.transmit 2),
    .request 0 ⟨2, 9, 7, 5, 1⟩, .job 2 ⟨3, 40, 20⟩, .job 2 ⟨3, 40, 20⟩, .stale 1 ⟨1, 77, none⟩,
    .reply 0 1, .job 2 ⟨3, 40, 20⟩, .job 2 ⟨3, 40, 20⟩, .job 2 ⟨3, 40, 20⟩, .restart 6,
    .request 0 ⟨2, 9, 7, 5, 1⟩, .job 0 ⟨3, 41, 20⟩, .reply 0 2, .client 0 (.finish 2)]

end Yfs.RpcNetwork
