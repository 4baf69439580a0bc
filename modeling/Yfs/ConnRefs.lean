/-
The reference counts of the connections of an RPC server (`rpc/rpc.cc`,
`rpc/connection.cc`).

A connection is made with a count of 1, which is the reference of the listener
(`tcpsconn::conns_`). `got_pdu` takes a reference for the job that it queues, and
`dispatch` gives it back at the end of the job. The server also remembers a connection for
each client (`rpcs::conns_`), and a job may change to the connection that is remembered
when its own is dead. A listener drops a dead connection whose count is 1 again.

Jobs and calls of `got_pdu` are cut where the source takes or drops a mutex, and any of
them can be the next to run. What the duplicate check answers and what a handler returns
is part of the action. A connection that is accepted later is one that nothing was
received on before.

`held` counts the references that there are. It says for every run what a count is: the
references, those of requests for an old instance, which `dispatch` never gives back, less
those that `got_pdu` gives back for a job that is queued, when the server has just been made
unreachable.

`refno_` is an `int` in the source and unbounded here. References that are never given back
add up, so after `2^31` requests for an old instance the source's count would overflow.
-/
import Yfs.RpcDispatch
import Yfs.Refs
import Yfs.SortedMap

set_option autoImplicit false

namespace Yfs.ConnRefs

open Yfs.RpcWindow Yfs.RpcDispatch Refs

/-! ## Connections -/

structure connection where
  refno_ : ℤ
  dead_ : Bool
  /-- Seconds and microseconds. -/
  create_time_ : ℕ × ℕ
  /-- It is in the `conns_` of the listener. -/
  listed : Bool
  deleted : Bool

/-- `a.compare(b)`. -/
def compare (a b : connection) : ℤ :=
  if a.create_time_.1 > b.create_time_.1 then 1
  else if a.create_time_.1 < b.create_time_.1 then -1
  else if a.create_time_.2 > b.create_time_.2 then 1
  else if a.create_time_.2 < b.create_time_.2 then -1
  else 0

/-- Where a job stands, with the `clt_nonce` of its request. -/
inductive Pc where
  /-- Nothing was looked at; `none` is a request whose header does not unmarshal. -/
  | queued (h : Option req_header)
  /-- The header is accepted. -/
  | known (clt_nonce : ℕ)
  /-- The connection is remembered, if it is the newest of the client. -/
  | saved (clt_nonce : ℕ)
  /-- The duplicate check has answered. -/
  | checked (clt_nonce : ℕ) (stat : rpcstate_t)
  /-- The handler has returned and the reply is recorded. -/
  | ran (clt_nonce : ℕ)
  /-- The connection for the reply is chosen. -/
  | latest
  | finished
  deriving DecidableEq

structure Job where
  c : ℕ
  pc : Pc
  deriving DecidableEq

/-- Where a call of `got_pdu` stands. -/
inductive CallPc where
  /-- The reference is taken. -/
  | counted
  /-- `addObjJob` has returned. -/
  | added (succ : Bool)
  | returned
  deriving DecidableEq

structure GotPdu where
  c : ℕ
  h : Option req_header
  pc : CallPc
  deriving DecidableEq

structure Server where
  nonce_ : ℕ
  procs_ : List ℕ
  reachable_ : Bool
  conn : ℕ → connection
  conns_ : SortedMap ℕ ℕ
  calls : List GotPdu
  jobs : List Job
  /-- A `VERIFY` has failed, or `NULL` was used. -/
  aborted : Bool
  /-- The connections of the requests for an old instance. -/
  leaked : List ℕ
  /-- The connections that `got_pdu` has given back for a queued job. -/
  dropped : List ℕ

def Server.init (nonce_ : ℕ) (procs_ : List ℕ) (time : ℕ → ℕ × ℕ) : Server :=
  ⟨nonce_, procs_, true, fun c => ⟨1, false, time c, true, false⟩, .empty, [], [], false, [], []⟩

namespace Server

def incref (s : Server) (c : ℕ) : Server :=
  { s with conn := Function.update s.conn c { s.conn c with refno_ := (s.conn c).refno_ + 1 } }

/-- The last reference of a dead connection deletes it. -/
def decref (s : Server) (c : ℕ) : Server :=
  let n := (s.conn c).refno_ - 1
  { s with
    conn := Function.update s.conn c { s.conn c with
      refno_ := n
      deleted := (s.conn c).deleted || (n == 0 && (s.conn c).dead_) }
    -- `VERIFY(refno_>=0)`
    aborted := s.aborted || n < 0 }

/-- A connection dies. -/
def kill (s : Server) (c : ℕ) : Server :=
  { s with conn := Function.update s.conn c { s.conn c with dead_ := true } }

/-- The listener erases a connection. -/
def unlist (s : Server) (c : ℕ) : Server :=
  { s with conn := Function.update s.conn c { s.conn c with listed := false } }

def setJob (s : Server) (i : ℕ) (j : Job) : Server := { s with jobs := s.jobs.set i j }

def setCall (s : Server) (i : ℕ) (x : GotPdu) : Server := { s with calls := s.calls.set i x }

def abort (s : Server) : Server := { s with aborted := true }

end Server

/-! ## `got_pdu` -/

/-- Up to the queue. A connection that is dead has no callbacks. -/
def got_pdu (s : Server) (c : ℕ) (h : Option req_header) : Option Server :=
  if (s.conn c).dead_ then none
  else if s.reachable_ = false then some s
  else some { s.incref c with calls := s.calls ++ [⟨c, h, .counted⟩] }

/-- `succ` is the result of `addObjJob`; after it `reachable_` is tested once more. -/
def got_pdu_next (s : Server) (i : ℕ) (x : GotPdu) (succ : Bool) : Option Server :=
  match x.pc with
  | .counted =>
    if succ then
      some { s.setCall i { x with pc := .added true } with jobs := s.jobs ++ [⟨x.c, .queued x.h⟩] }
    else some (s.setCall i { x with pc := .added false })
  | .added false => some ((s.decref x.c).setCall i { x with pc := .returned })
  | .added true =>
    if s.reachable_ = false then
      some { (s.decref x.c).setCall i { x with pc := .returned } with
        dropped := s.dropped ++ [x.c] }
    else some (s.setCall i { x with pc := .returned })
  | .returned => none

/-! ## `dispatch` -/

/-- From the start to the accepted header. -/
def dispatch_start (s : Server) (i : ℕ) (c : ℕ) : Option req_header → Server
  | none => (s.decref c).setJob i ⟨c, .finished⟩
  | some h =>
    if h.srv_nonce ≠ 0 ∧ h.srv_nonce ≠ s.nonce_ then
      { s.setJob i ⟨c, .finished⟩ with leaked := s.leaked ++ [c] }
    else if h.proc ∉ s.procs_ then (s.decref c).abort.setJob i ⟨c, .finished⟩
    else s.setJob i ⟨c, .known h.clt_nonce⟩

/-- Save the latest good connection to the client. -/
def save (s : Server) (clt_nonce c : ℕ) : Server :=
  match s.conns_.find clt_nonce with
  | none => { s.incref c with conns_ := s.conns_.insert clt_nonce c }
  | some d =>
    if compare (s.conn d) (s.conn c) < 0 then
      { (s.decref d).incref c with conns_ := s.conns_.insert clt_nonce c }
    else s

/-- Get the latest connection to the client. For a client without a nonce there is none, and
`conns_[0]` is `NULL`. -/
def choose (s : Server) (i clt_nonce c : ℕ) : Server :=
  if (s.conn c).dead_ then
    match s.conns_.find clt_nonce with
    | none => (s.decref c).abort.setJob i ⟨c, .finished⟩
    | some d =>
      if c ≠ d then ((s.decref c).incref d).setJob i ⟨d, .latest⟩
      else s.setJob i ⟨c, .latest⟩
  else s.setJob i ⟨c, .latest⟩

/-- `stat` is the answer of the duplicate check and `ret` what the handler returns, where
this is the step that asks for it. -/
def dispatch_next (s : Server) (i : ℕ) (j : Job) (stat : rpcstate_t) (ret : ℤ) : Option Server :=
  match j.pc with
  | .queued h => some (dispatch_start s i j.c h)
  | .known n =>
    if n = 0 then some (s.setJob i ⟨j.c, .checked n .NEW⟩)
    else some ((save s n j.c).setJob i ⟨j.c, .saved n⟩)
  | .saved n => some (s.setJob i ⟨j.c, .checked n stat⟩)
  | .checked n .NEW =>
    if ret < 0 then some s.abort else some (s.setJob i ⟨j.c, .ran n⟩)
  | .checked _ _ => some ((s.decref j.c).setJob i ⟨j.c, .finished⟩)
  | .ran n => some (choose s i n j.c)
  | .latest => some ((s.decref j.c).setJob i ⟨j.c, .finished⟩)
  | .finished => none

/-! ## Runs -/

inductive Act where
  | got_pdu (c : ℕ) (h : Option req_header)
  | got_pdu_next (i : ℕ) (succ : Bool)
  | dispatch (i : ℕ) (stat : rpcstate_t) (ret : ℤ)
  | set_reachable (r : Bool)
  | close (c : ℕ)
  /-- `process_accept` drops a connection. -/
  | collect (c : ℕ)

/-- The listener drops a dead connection that it has the only reference to. -/
def collect (s : Server) (c : ℕ) : Option Server :=
  if (s.conn c).listed = true ∧ (s.conn c).dead_ = true ∧ (s.conn c).refno_ = 1 then
    some ((s.decref c).unlist c)
  else none

def step (s : Server) (a : Act) : Option Server :=
  if s.aborted then none
  else match a with
    | .got_pdu c h => got_pdu s c h
    | .got_pdu_next i succ => s.calls[i]?.bind fun x => got_pdu_next s i x succ
    | .dispatch i stat ret => s.jobs[i]?.bind fun j => dispatch_next s i j stat ret
    | .set_reachable r => some { s with reachable_ := r }
    | .close c => some (s.kill c)
    | .collect c => collect s c

/-! ## The references -/

/-- The reference of a job. -/
def Job.ref (j : Job) : Option ℕ := if j.pc = .finished then none else some j.c

/-- The reference of a call of `got_pdu`: once the job is queued, it is the job's. -/
def GotPdu.ref (x : GotPdu) : Option ℕ :=
  match x.pc with
  | .counted => some x.c
  | .added false => some x.c
  | .added true => none
  | .returned => none

/-- The references to `c`. -/
def held (s : Server) (c : ℕ) : ℕ :=
  (s.conn c).listed.toNat + s.conns_.count c
    + refs GotPdu.ref s.calls c + refs Job.ref s.jobs c

/-- The invariant: what the count of every connection is. -/
def Inv (s : Server) : Prop :=
  ∀ c, (s.conn c).refno_ + s.dropped.count c = held s c + s.leaked.count c

section Changes

variable (s : Server) (c d : ℕ)

/-- A field that the change of one connection leaves alone. -/
theorem update_field {β : Type} (f : connection → β) {k : connection} (h : f k = f (s.conn c)) :
    f (Function.update s.conn c k d) = f (s.conn d) := by
  by_cases hd : d = c
  · subst hd
    rw [Function.update_self, h]
  · rw [Function.update_of_ne hd]

theorem incref_listed : ((s.incref c).conn d).listed = (s.conn d).listed :=
  update_field s c d connection.listed rfl

theorem decref_listed : ((s.decref c).conn d).listed = (s.conn d).listed :=
  update_field s c d connection.listed rfl

theorem kill_listed : ((s.kill c).conn d).listed = (s.conn d).listed :=
  update_field s c d connection.listed rfl

theorem kill_refno : ((s.kill c).conn d).refno_ = (s.conn d).refno_ :=
  update_field s c d connection.refno_ rfl

theorem unlist_refno : ((s.unlist c).conn d).refno_ = (s.conn d).refno_ :=
  update_field s c d connection.refno_ rfl

theorem kill_deleted : ((s.kill c).conn d).deleted = (s.conn d).deleted :=
  update_field s c d connection.deleted rfl

theorem unlist_deleted : ((s.unlist c).conn d).deleted = (s.conn d).deleted :=
  update_field s c d connection.deleted rfl

theorem unlist_dead : ((s.unlist c).conn d).dead_ = (s.conn d).dead_ :=
  update_field s c d connection.dead_ rfl

theorem kill_dead (h : (s.conn d).dead_ = true) : ((s.kill c).conn d).dead_ = true := by
  unfold Server.kill
  by_cases hd : d = c
  · subst hd
    simp
  · simp [hd, h]

/-- Taking a connection off the list gives back the one reference the list had. -/
theorem unlist_listed (h : (s.conn c).listed = true) :
    ((s.unlist c).conn d).listed.toNat + one (some c) d = (s.conn d).listed.toNat := by
  unfold Server.unlist one
  by_cases hd : d = c
  · subst hd
    simp [h]
  · simp [hd, Ne.symm hd]

@[simp] theorem incref_conns_ : (s.incref c).conns_ = s.conns_ := rfl

@[simp] theorem incref_leaked : (s.incref c).leaked = s.leaked := rfl

@[simp] theorem decref_conns_ : (s.decref c).conns_ = s.conns_ := rfl

@[simp] theorem decref_leaked : (s.decref c).leaked = s.leaked := rfl

@[simp] theorem decref_dropped : (s.decref c).dropped = s.dropped := rfl

@[simp] theorem decref_jobs : (s.decref c).jobs = s.jobs := rfl

theorem incref_refno : ((s.incref c).conn d).refno_ = (s.conn d).refno_ + one (some c) d := by
  unfold Server.incref one
  by_cases h : d = c
  · subst h
    simp
  · simp [h, Ne.symm h]

theorem decref_refno : ((s.decref c).conn d).refno_ = (s.conn d).refno_ - one (some c) d := by
  unfold Server.decref one
  by_cases h : d = c
  · subst h
    simp
  · simp [h, Ne.symm h]

theorem count_push (l : List ℕ) : (l ++ [c]).count d = l.count d + one (some c) d := by
  unfold one
  rw [List.count_append, List.count_singleton]
  simp

/-- A stored connection counts one more; the one it replaces, if any, counts one less. -/
theorem conns_insert (m : SortedMap ℕ ℕ) (n : ℕ) :
    (m.insert n c).count d + one (m.find n) d = m.count d + one (some c) d := by
  unfold one
  simp only [Option.some.injEq]
  exact m.count_insert n c d

end Changes

section Step

variable {s s' : Server}

variable {i : ℕ}

/-- A step of a job is accounted for by what it does to the other references and to the counts. -/
theorem inv_setJob (h : Inv s) {j j' : Job} (hj : s.jobs[i]? = some j)
    (hjobs : s'.jobs = s.jobs.set i j') (hcalls : s'.calls = s.calls)
    (hlisted : ∀ c, (s'.conn c).listed = (s.conn c).listed) (hdropped : s'.dropped = s.dropped)
    (hchange : ∀ c, (s'.conn c).refno_ + one j.ref c + s.conns_.count c + s.leaked.count c
      = (s.conn c).refno_ + one j'.ref c + s'.conns_.count c + s'.leaked.count c) : Inv s' := by
  intro c
  have hset := refs_set (f := Job.ref) hj j' c
  have hinv := h c
  have hc := hchange c
  unfold held at hinv ⊢
  rw [hjobs, hcalls, hlisted, hdropped]
  omega

/-- A call of `got_pdu` that moves on. What it gives up or passes to a job has to agree with
the counters; nothing else that refers to a connection changes. -/
theorem inv_setCall (h : Inv s) {x x' : GotPdu} (hx : s.calls[i]? = some x)
    (hcalls : s'.calls = s.calls.set i x') (hconns : s'.conns_ = s.conns_)
    (hlisted : ∀ c, (s'.conn c).listed = (s.conn c).listed) (hleaked : s'.leaked = s.leaked)
    (hchange : ∀ c, (s'.conn c).refno_ + one x.ref c + s'.dropped.count c + refs Job.ref s.jobs c
      = (s.conn c).refno_ + one x'.ref c + s.dropped.count c + refs Job.ref s'.jobs c) :
    Inv s' := by
  intro c
  have hset := refs_set (f := GotPdu.ref) hx x' c
  have hinv := h c
  have hc := hchange c
  unfold held at hinv ⊢
  rw [hcalls, hconns, hlisted, hleaked]
  omega

variable {c : ℕ}

theorem inv_got_pdu (h : Inv s) {q : Option req_header}
    (hs : got_pdu s c q = some s') : Inv s' := by
  unfold got_pdu at hs
  split_ifs at hs
  · cases hs
    exact h
  · cases hs
    intro d
    have hinv := h d
    have hheld : held { s.incref c with calls := s.calls ++ [⟨c, q, .counted⟩] } d
        = held s d + one (some c) d := by
      unfold held
      dsimp only
      rw [incref_listed, refs_append_singleton]
      dsimp only [Server.incref, GotPdu.ref]
      omega
    rw [hheld]
    dsimp only
    rw [incref_refno]
    dsimp only [Server.incref]
    omega

theorem inv_got_pdu_next (h : Inv s) {x : GotPdu} (hx : s.calls[i]? = some x)
    {succ : Bool} (hs : got_pdu_next s i x succ = some s') : Inv s' := by
  unfold got_pdu_next at hs
  obtain ⟨c, q, pc⟩ := x
  dsimp only at hs
  split at hs
  · split_ifs at hs
    · -- the reference goes to the job
      cases hs
      refine inv_setCall h hx rfl rfl (fun _ => rfl) rfl ?_
      intro d
      have hrefs := refs_append_singleton Job.ref s.jobs ⟨c, .queued q⟩ d
      have hjob : Job.ref ⟨c, .queued q⟩ = some c := rfl
      rw [hjob] at hrefs
      dsimp only [GotPdu.ref, Server.setCall]
      rw [one_none]
      omega
    · cases hs
      exact inv_setCall h hx rfl rfl (fun _ => rfl) rfl (fun _ => rfl)
  · cases hs
    refine inv_setCall h hx rfl rfl (decref_listed s c) rfl ?_
    intro d
    have hrefno := decref_refno s c d
    dsimp only [GotPdu.ref, Server.setCall]
    rw [hrefno, one_none, decref_dropped, decref_jobs]
    omega
  · split_ifs at hs
    · cases hs
      refine inv_setCall h hx rfl rfl (decref_listed s c) rfl ?_
      intro d
      have hrefno := decref_refno s c d
      have hpush := count_push c d s.dropped
      dsimp only [GotPdu.ref, Server.setCall]
      rw [hrefno, hpush, one_none, decref_jobs]
      omega
    · cases hs
      exact inv_setCall h hx rfl rfl (fun _ => rfl) rfl (fun _ => rfl)
  · cases hs

/-- A job that ends with the last line of `dispatch`. -/
theorem inv_finish (h : Inv s) {j : Job} (hj : s.jobs[i]? = some j)
    (href : j.ref = some j.c) : Inv ((s.decref j.c).setJob i ⟨j.c, .finished⟩) := by
  refine inv_setJob h hj rfl rfl (decref_listed s j.c) rfl ?_
  intro d
  have hrefno := decref_refno s j.c d
  have hdone : Job.ref ⟨j.c, .finished⟩ = none := rfl
  dsimp only [Server.setJob]
  rw [hrefno, href, hdone, one_none, decref_conns_, decref_leaked]
  omega

/-- A job that goes on with its reference. -/
theorem inv_goOn (h : Inv s) {j j' : Job} (hj : s.jobs[i]? = some j)
    (href : j'.ref = j.ref) : Inv (s.setJob i j') := by
  refine inv_setJob h hj rfl rfl (fun _ => rfl) rfl ?_
  intro d
  rw [href]
  rfl

/-- A failed `VERIFY` stops the server where it is, with the counters it had. -/
theorem inv_abort (h : Inv s) : Inv s.abort := h

theorem inv_dispatch_start (h : Inv s) {q : Option req_header}
    (hj : s.jobs[i]? = some ⟨c, .queued q⟩) : Inv (dispatch_start s i c q) := by
  unfold dispatch_start
  split
  · exact inv_finish h hj rfl
  · next q =>
    split_ifs
    · -- the old instance: the reference of the job is lost
      refine inv_setJob h hj rfl rfl (fun _ => rfl) rfl ?_
      intro d
      have hpush := count_push c d s.leaked
      have href : Job.ref ⟨c, .queued (some q)⟩ = some c := rfl
      have hdone : Job.ref ⟨c, .finished⟩ = none := rfl
      dsimp only [Server.setJob]
      rw [hpush, href, hdone, one_none]
      omega
    · exact inv_goOn h hj rfl
    · exact inv_abort (inv_finish h hj rfl)

/-- What `save` does to the counts, it does to the map. -/
theorem save_change (s : Server) (n c d : ℕ) :
    ((save s n c).conn d).refno_ + s.conns_.count d
      = (s.conn d).refno_ + (save s n c).conns_.count d := by
  unfold save
  have hinsert := conns_insert c d s.conns_ n
  split
  · next hfind =>
    have hrefno := incref_refno s c d
    rw [hfind, one_none] at hinsert
    dsimp only
    rw [hrefno]
    omega
  · next e hfind =>
    split_ifs
    · have hrefno := incref_refno (s.decref e) c d
      have hold := decref_refno s e d
      rw [hfind] at hinsert
      dsimp only
      rw [hrefno, hold]
      omega
    · rfl

theorem save_listed (s : Server) (n c d : ℕ) :
    ((save s n c).conn d).listed = (s.conn d).listed := by
  unfold save
  split
  · exact incref_listed s c d
  · split_ifs
    · exact (incref_listed _ c d).trans (decref_listed s _ d)
    · rfl

/-- The rest of the server. -/
theorem save_rest (s : Server) (n c : ℕ) :
    (save s n c).jobs = s.jobs ∧ (save s n c).calls = s.calls
      ∧ (save s n c).leaked = s.leaked ∧ (save s n c).dropped = s.dropped := by
  unfold save
  split
  · exact ⟨rfl, rfl, rfl, rfl⟩
  · split_ifs
    · exact ⟨rfl, rfl, rfl, rfl⟩
    · exact ⟨rfl, rfl, rfl, rfl⟩

theorem inv_save (h : Inv s) (n c : ℕ) : Inv (save s n c) := by
  intro d
  have hinv := h d
  have hchange := save_change s n c d
  obtain ⟨hjobs, hcalls, hleaked, hdropped⟩ := save_rest s n c
  unfold held at hinv ⊢
  rw [hjobs, hcalls, hleaked, hdropped, save_listed]
  omega

/-- The job gives back one reference and takes another. -/
theorem inv_choose (h : Inv s) {i n c : ℕ} (hj : s.jobs[i]? = some ⟨c, .ran n⟩) :
    Inv (choose s i n c) := by
  unfold choose
  split
  · split
    · exact inv_abort (inv_finish h hj rfl)
    · next d hfind =>
      split_ifs
      · refine inv_setJob h hj rfl rfl ?_ rfl ?_
        · intro e
          exact (incref_listed _ d e).trans (decref_listed s c e)
        · intro e
          have hrefno := incref_refno (s.decref c) d e
          have hold := decref_refno s c e
          have hran : Job.ref ⟨c, .ran n⟩ = some c := rfl
          have hlatest : Job.ref ⟨d, .latest⟩ = some d := rfl
          dsimp only [Server.setJob]
          rw [hrefno, hold, hran, hlatest, incref_conns_, incref_leaked, decref_conns_,
            decref_leaked]
          omega
      · exact inv_goOn h hj rfl
  · exact inv_goOn h hj rfl

theorem inv_dispatch_next (h : Inv s) {j : Job} (hj : s.jobs[i]? = some j)
    {stat : rpcstate_t} {ret : ℤ} (hs : dispatch_next s i j stat ret = some s') : Inv s' := by
  obtain ⟨c, pc⟩ := j
  unfold dispatch_next at hs
  dsimp only at hs
  split at hs
  · cases hs
    exact inv_dispatch_start h hj
  · next n =>
    split_ifs at hs
    · cases hs
      exact inv_goOn h hj rfl
    · cases hs
      refine inv_goOn (j := ⟨c, .known n⟩) (inv_save h n c) ?_ rfl
      rw [(save_rest s n c).1]
      exact hj
  · cases hs
    exact inv_goOn h hj rfl
  · split_ifs at hs
    · cases hs
      exact inv_abort h
    · cases hs
      exact inv_goOn h hj rfl
  · cases hs
    exact inv_finish h hj rfl
  · cases hs
    exact inv_choose h hj
  · cases hs
    exact inv_finish h hj rfl
  · cases hs

theorem inv_collect (h : Inv s) (hs : collect s c = some s') : Inv s' := by
  obtain ⟨⟨hlisted, -, -⟩, hs⟩ := Option.ite_none_right_eq_some.mp hs
  cases hs
  intro d
  have hinv := h d
  have hrefno := decref_refno s c d
  have hunlist := unlist_listed (s.decref c) c d ((decref_listed s c c).trans hlisted)
  rw [decref_listed] at hunlist
  have hheld : held ((s.decref c).unlist c) d + one (some c) d = held s d := by
    unfold held
    rw [← hunlist]
    dsimp only [Server.unlist, Server.decref]
    omega
  rw [unlist_refno, hrefno]
  dsimp only [Server.unlist, Server.decref] at hheld ⊢
  omega

/-- A connection that dies keeps its references: only `dead_` is set. -/
theorem inv_kill (h : Inv s) (c : ℕ) : Inv (s.kill c) := by
  intro d
  have hinv := h d
  unfold held at hinv ⊢
  rw [kill_refno, kill_listed]
  exact hinv

/-- Every step of the server keeps the books, one lemma for each kind of thread. -/
theorem inv_step {a : Act} (h : Inv s) (hs : step s a = some s') : Inv s' := by
  obtain ⟨-, hs⟩ := Option.ite_none_left_eq_some.mp hs
  cases a with
  | got_pdu c q => exact inv_got_pdu h hs
  | got_pdu_next i succ =>
    obtain ⟨x, hx, hs⟩ := Option.bind_eq_some_iff.mp hs
    exact inv_got_pdu_next h hx hs
  | dispatch i stat ret =>
    obtain ⟨j, hj, hs⟩ := Option.bind_eq_some_iff.mp hs
    exact inv_dispatch_next h hj hs
  | set_reachable r =>
    cases hs
    exact h
  | close c =>
    cases hs
    exact inv_kill h c
  | collect c => exact inv_collect h hs

end Step

theorem inv_init (nonce_ : ℕ) (procs_ : List ℕ) (time : ℕ → ℕ × ℕ) :
    Inv (.init nonce_ procs_ time) := fun _ => rfl

/-! ## Deletion -/

/-- Was the count of `c` right all the time? Then `c` is not deleted. -/
def Live (s : Server) (c : ℕ) : Prop := s.dropped.count c = 0 → (s.conn c).deleted = false

/-- The invariant: what is deleted has no references and no callbacks. -/
def Gone (s : Server) : Prop :=
  ∀ c, (s.conn c).deleted = true →
    (s.conn c).dead_ = true ∧ (s.dropped.count c = 0 → (s.conn c).refno_ = 0)

section Deletion

variable {s s' : Server}

variable {c : ℕ}

/-- **Nothing that is referred to is deleted.** -/
theorem live_of_held (h : Inv s) (hgone : Gone s) (hheld : 0 < held s c) : Live s c := by
  intro hdropped
  rw [← Bool.not_eq_true]
  intro hdeleted
  have hzero := (hgone c hdeleted).2 hdropped
  have hinv := h c
  omega

variable {i : ℕ}

/-- The connection of a job with a reference is not deleted, unless `got_pdu` has given that
reference back. -/
theorem live_of_job (h : Inv s) (hgone : Gone s) {j : Job} (hj : s.jobs[i]? = some j)
    (href : j.ref = some j.c) : Live s j.c := by
  apply live_of_held h hgone
  have hrefs := one_le_refs (List.mem_of_getElem? hj) href
  unfold held
  omega

theorem live_of_call (h : Inv s) (hgone : Gone s) {x : GotPdu}
    (hx : s.calls[i]? = some x) (href : x.ref = some x.c) : Live s x.c := by
  apply live_of_held h hgone
  have hrefs := one_le_refs (List.mem_of_getElem? hx) href
  unfold held
  omega

/-- Nor is a connection that is stored for a client. -/
theorem live_of_find (h : Inv s) (hgone : Gone s) {n d : ℕ} (hfind : s.conns_.find n = some d) :
    Live s d := by
  apply live_of_held h hgone
  have hcount := SortedMap.count_pos hfind
  unfold held
  omega

theorem gone_incref (hgone : Gone s) (hlive : Live s c) : Gone (s.incref c) := by
  intro d hdeleted
  by_cases hd : d = c
  · subst hd
    have hold : ((s.incref d).conn d).deleted = (s.conn d).deleted :=
      update_field s d d connection.deleted rfl
    have hdead : ((s.incref d).conn d).dead_ = (s.conn d).dead_ :=
      update_field s d d connection.dead_ rfl
    rw [hold] at hdeleted
    rw [hdead]
    refine ⟨(hgone d hdeleted).1, ?_⟩
    intro hdropped
    rw [hlive hdropped] at hdeleted
    cases hdeleted
  · have hsame : (s.incref c).conn d = s.conn d := Function.update_of_ne hd ..
    rw [hsame] at hdeleted ⊢
    exact hgone d hdeleted

/-- A reference that is given back, and perhaps was not there. -/
theorem gone_decref (hgone : Gone s) (hconn : s'.conn = (s.decref c).conn)
    (hmore : ∀ d, s'.dropped.count d = 0 → s.dropped.count d = 0)
    (hlive : s'.dropped.count c = 0 → Live s c) : Gone s' := by
  intro d hdeleted
  rw [hconn] at hdeleted ⊢
  by_cases hd : d = c
  · subst hd
    have hself : (s.decref d).conn d = _ := Function.update_self ..
    rw [hself] at hdeleted ⊢
    dsimp only at hdeleted ⊢
    rw [Bool.or_eq_true, Bool.and_eq_true, beq_iff_eq] at hdeleted
    rcases hdeleted with hdeleted | ⟨hzero, hdead⟩
    · refine ⟨(hgone d hdeleted).1, ?_⟩
      intro hdropped
      rw [hlive hdropped (hmore d hdropped)] at hdeleted
      cases hdeleted
    · exact ⟨hdead, fun _ => hzero⟩
  · have hsame : (s.decref c).conn d = s.conn d := Function.update_of_ne hd ..
    rw [hsame] at hdeleted ⊢
    obtain ⟨hdead, hrefno⟩ := hgone d hdeleted
    exact ⟨hdead, fun hdropped => hrefno (hmore d hdropped)⟩

/-- Only the last reference of a dead connection deletes it, so none is left then. -/
theorem gone_giveBack (hgone : Gone s) (hlive : Live s c) : Gone (s.decref c) :=
  gone_decref hgone rfl (fun _ h => h) fun _ => hlive

/-- Another connection is as live as before. -/
theorem live_decref {c d : ℕ} (hlive : Live s d) (hne : d ≠ c) : Live (s.decref c) d := by
  intro hdropped
  have hsame : (s.decref c).conn d = s.conn d := Function.update_of_ne hne ..
  rw [hsame]
  exact hlive hdropped

theorem gone_got_pdu (hgone : Gone s) {q : Option req_header}
    (hs : got_pdu s c q = some s') : Gone s' := by
  unfold got_pdu at hs
  split_ifs at hs with hdead
  · cases hs
    exact hgone
  · cases hs
    have hlive : Live s c := by
      intro _
      rw [← Bool.not_eq_true]
      exact fun hdeleted => hdead (hgone c hdeleted).1
    exact gone_incref hgone hlive

theorem gone_got_pdu_next (h : Inv s) (hgone : Gone s) {x : GotPdu}
    (hx : s.calls[i]? = some x) {succ : Bool} (hs : got_pdu_next s i x succ = some s') :
    Gone s' := by
  unfold got_pdu_next at hs
  obtain ⟨c, q, pc⟩ := x
  dsimp only at hs
  split at hs
  · split_ifs at hs
    · cases hs
      exact hgone
    · cases hs
      exact hgone
  · cases hs
    exact gone_giveBack hgone (live_of_call h hgone hx rfl)
  · split_ifs at hs
    · cases hs
      refine gone_decref hgone rfl ?_ ?_
      · intro d hd
        rw [count_push] at hd
        omega
      · intro hc
        rw [count_push, show one (some c) c = 1 from if_pos rfl] at hc
        omega
    · cases hs
      exact hgone
  · cases hs

theorem compare_self (a : connection) : compare a a = 0 := by
  unfold compare
  simp

/-- Both connections that `save` touches are live: the old one was stored, the new one is that
of the job. -/
theorem gone_save (h : Inv s) (hgone : Gone s) {n c : ℕ} (hlive : Live s c) :
    Gone (save s n c) := by
  unfold save
  split
  · exact gone_incref hgone hlive
  · next d hfind =>
    split_ifs with hcompare
    · have hne : c ≠ d := by
        rintro rfl
        rw [compare_self] at hcompare
        exact lt_irrefl 0 hcompare
      have hback := gone_giveBack hgone (live_of_find h hgone hfind)
      exact gone_incref hback (live_decref hlive hne)
    · exact hgone

theorem gone_dispatch_next (h : Inv s) (hgone : Gone s) {j : Job}
    (hj : s.jobs[i]? = some j) {stat : rpcstate_t} {ret : ℤ}
    (hs : dispatch_next s i j stat ret = some s') : Gone s' := by
  by_cases hfinished : j.pc = .finished
  · unfold dispatch_next at hs
    rw [hfinished] at hs
    cases hs
  have hlive : Live s j.c := live_of_job h hgone hj (if_neg hfinished)
  unfold dispatch_next at hs
  split at hs
  · cases hs
    unfold dispatch_start
    split
    · exact gone_giveBack hgone hlive
    · split_ifs
      · exact hgone
      · exact hgone
      · exact gone_giveBack hgone hlive
  · split_ifs at hs
    · cases hs
      exact hgone
    · cases hs
      exact gone_save h hgone hlive
  · cases hs
    exact hgone
  · split_ifs at hs
    · cases hs
      exact hgone
    · cases hs
      exact hgone
  · cases hs
    exact gone_giveBack hgone hlive
  · cases hs
    unfold choose
    split
    · split
      · exact gone_giveBack hgone hlive
      · next d hfind =>
        split_ifs with hne
        · exact gone_incref (gone_giveBack hgone hlive)
            (live_decref (live_of_find h hgone hfind) (Ne.symm hne))
        · exact hgone
    · exact hgone
  · cases hs
    exact gone_giveBack hgone hlive
  · cases hs

/-- Every step of the server leaves what is deleted without references and callbacks. -/
theorem gone_step (h : Inv s) (hgone : Gone s) {a : Act} (hs : step s a = some s') :
    Gone s' := by
  obtain ⟨-, hs⟩ := Option.ite_none_left_eq_some.mp hs
  cases a with
  | got_pdu c q => exact gone_got_pdu hgone hs
  | got_pdu_next i succ =>
    obtain ⟨x, hx, hs⟩ := Option.bind_eq_some_iff.mp hs
    exact gone_got_pdu_next h hgone hx hs
  | dispatch i stat ret =>
    obtain ⟨j, hj, hs⟩ := Option.bind_eq_some_iff.mp hs
    exact gone_dispatch_next h hgone hj hs
  | set_reachable r =>
    cases hs
    exact hgone
  | close c =>
    cases hs
    intro d hdeleted
    rw [kill_deleted] at hdeleted
    rw [kill_refno]
    exact ⟨kill_dead s c d (hgone d hdeleted).1, (hgone d hdeleted).2⟩
  | collect c =>
    obtain ⟨⟨hlisted, -, -⟩, hs⟩ := Option.ite_none_right_eq_some.mp hs
    cases hs
    have hback : Gone (s.decref c) := by
      apply gone_giveBack hgone
      apply live_of_held h hgone
      unfold held
      rw [hlisted, Bool.toNat_true]
      omega
    intro d hdeleted
    rw [unlist_deleted] at hdeleted
    rw [unlist_refno, unlist_dead]
    exact hback d hdeleted

end Deletion

/-! ## Runs -/

section Run

variable {nonce_ : ℕ} {procs_ : List ℕ} {time : ℕ → ℕ × ℕ} {acts : List Act} {s : Server}

theorem inv_of_run (hrun : Steps.run step (.init nonce_ procs_ time) acts = some s) :
    Inv s ∧ Gone s := by
  have hinit : Inv (.init nonce_ procs_ time) ∧ Gone (.init nonce_ procs_ time) :=
    ⟨inv_init nonce_ procs_ time, fun _ hdeleted => Bool.noConfusion hdeleted⟩
  exact Steps.run_inv_all (P := fun s => Inv s ∧ Gone s)
    (fun _ _ _ h hs => ⟨inv_step h.1 hs, gone_step h.1 h.2 hs⟩) hinit hrun

/-- **No connection is deleted while there is a reference to it**, unless `got_pdu` has given
back one that was not its own. -/
theorem referenced_not_deleted
    (hrun : Steps.run step (.init nonce_ procs_ time) acts = some s) {c : ℕ}
    (hdropped : s.dropped.count c = 0) (hheld : 0 < held s c) : (s.conn c).deleted = false := by
  obtain ⟨hinv, hgone⟩ := inv_of_run hrun
  exact live_of_held hinv hgone hheld hdropped

/-- No job and no call of `got_pdu` is left. -/
def Quiet (s : Server) : Prop :=
  (∀ x ∈ s.calls, x.pc = .returned) ∧ ∀ j ∈ s.jobs, j.pc = .finished

instance (s : Server) : Decidable (Quiet s) :=
  @instDecidableAnd _ _ (List.decidableBAll (fun x : GotPdu => x.pc = .returned) s.calls)
    (List.decidableBAll (fun j : Job => j.pc = .finished) s.jobs)

/-- With no call and no job under way, a listed connection is referred to by the list and as a
stored one only. -/
theorem held_of_quiet (hquiet : Quiet s) {c : ℕ} (hlisted : (s.conn c).listed = true) :
    held s c = 1 + s.conns_.count c := by
  have hcalls : refs GotPdu.ref s.calls c = 0 := by
    apply refs_eq_zero
    intro x hx
    unfold GotPdu.ref
    rw [hquiet.1 x hx]
  have hjobs : refs Job.ref s.jobs c = 0 := by
    apply refs_eq_zero
    intro j hj
    exact if_pos (hquiet.2 j hj)
  unfold held
  rw [hcalls, hjobs, hlisted, Bool.toNat_true, Nat.add_zero]

/-- **The counts balance** once all jobs have finished, for exactly those connections on
which as many requests for an old instance came in as `got_pdu` has given back references
of queued jobs; and then a dead connection that is remembered for no client is
collected. -/
theorem refcounts_balance_iff
    (hrun : Steps.run step (.init nonce_ procs_ time) acts = some s) (hquiet : Quiet s) {c : ℕ}
    (hlisted : (s.conn c).listed = true) :
    ((s.conn c).refno_ = 1 + s.conns_.count c ↔ s.leaked.count c = s.dropped.count c)
      ∧ (s.aborted = false → (s.conn c).dead_ = true → s.conns_.count c = 0 →
          s.leaked.count c = s.dropped.count c → ∃ s', step s (.collect c) = some s') := by
  have hcount := (inv_of_run hrun).1 c
  rw [held_of_quiet hquiet hlisted] at hcount
  constructor
  · omega
  · intro habort hdead hnone hsame
    have hone : (s.conn c).refno_ = 1 := by omega
    refine ⟨(s.decref c).unlist c, ?_⟩
    unfold step
    rw [if_neg (by rw [habort]; exact Bool.false_ne_true)]
    exact if_pos ⟨hlisted, hdead, hone⟩

end Run

/-- A request of client 5. -/
def request (srv_nonce : ℕ) : Option req_header := some ⟨1, 2, 5, srv_nonce, 0⟩

/-- `got_pdu` for a request on `c`, which becomes job `i`. -/
def arrive (c i srv_nonce : ℕ) : List Act :=
  [.got_pdu c (request srv_nonce), .got_pdu_next i true, .got_pdu_next i true]

/-- A request comes in on connection 0 and again on connection 1, while its handler runs; then
the first connection dies. -/
def reconnect : List Act :=
  arrive 0 0 0 ++ List.replicate 4 (.dispatch 0 .NEW 0)
    ++ arrive 1 1 0 ++ List.replicate 4 (.dispatch 1 .DONE 0)
    ++ [.close 0, .dispatch 0 .NEW 0, .dispatch 0 .NEW 0]

theorem refcounts_balance_reconnect :
    ∃ s, Steps.run step (.init 3 [2] fun c => (c, 0)) reconnect = some s
      ∧ Quiet s ∧ (s.conn 0).refno_ = 1 ∧ (s.conn 1).refno_ = 2 := by
  have hex : ((Steps.run step (.init 3 [2] fun c => (c, 0)) reconnect).map fun s =>
      (decide (Quiet s), (s.conn 0).listed && (s.conn 1).listed, s.conns_.count 0,
        s.conns_.count 1, s.leaked ++ s.dropped)) = some (true, true, 0, 1, []) := by
    decide
  obtain ⟨s, hs, heq⟩ := Steps.exists_run hex
  simp only [Prod.mk.injEq, decide_eq_true_eq, Bool.and_eq_true, List.append_eq_nil_iff] at heq
  obtain ⟨hquiet, ⟨hlisted₀, hlisted₁⟩, hcount₀, hcount₁, hleaked, hdropped⟩ := heq
  have hsame : ∀ c, s.leaked.count c = s.dropped.count c := fun c => by rw [hleaked, hdropped]
  have hrefno₀ := (refcounts_balance_iff hs hquiet hlisted₀).1.mpr (hsame 0)
  have hrefno₁ := (refcounts_balance_iff hs hquiet hlisted₁).1.mpr (hsame 1)
  rw [hcount₀] at hrefno₀
  rw [hcount₁] at hrefno₁
  exact ⟨s, hs, hquiet, hrefno₀, hrefno₁⟩

/-- A request for an old instance leaves a count of 2 behind, another one a count of 3. The
connection is dead, and is not collected. -/
theorem refcount_leaks :
    ((Steps.run step (.init 3 [2] fun c => (c, 0))
        (arrive 0 0 7 ++ [.dispatch 0 .NEW 0] ++ arrive 0 1 7
          ++ [.dispatch 1 .NEW 0, .close 0])).map
          fun s => (decide (Quiet s), (s.conn 0).refno_, s.conns_.count 0,
            (step s (.collect 0)).isSome)) = some (true, 3, 0, false) := by
  decide

end Yfs.ConnRefs
