/-
`rpcs::dispatch` (`rpc/rpc.cc`): what happens to a request between its arrival and
its reply, with any number of jobs of the dispatch pool interleaved.

A job is cut where the source takes or drops a mutex: creating the client's
window, `checkduplicate_and_update`, the handler itself (which runs under no
mutex), `add_reply`, and the send. Between two of these points any other job may
run. Connections, their reference counts and the statistics counter are not part
of this file.

A reply is a buffer that the window owns once `add_reply` has recorded it, and no mutex is
held while it is sent. The duplicate check of another job of the client, or of this one, may
erase the entry and free the buffer before that; `Freed` says when it has. The step of a job
sends what was packed, which is what a freed buffer holds until somebody else gets the memory;
at-most-once execution does not depend on what is sent.
-/
import Yfs.RpcWindow
import Yfs.Refs
import Yfs.Steps

set_option autoImplicit false

namespace Yfs.RpcDispatch

open Yfs.RpcWindow

/-! ## Messages -/

/-- `req_header` (`rpc/marshall.h`). -/
structure req_header where
  xid : ℕ
  proc : ℕ
  clt_nonce : ℕ
  srv_nonce : ℕ
  xid_rep : ℕ
  deriving DecidableEq, Repr

/-- A packed reply: its `reply_header` and, for a reply of a handler, the body. -/
structure reply_pdu (γ : Type*) where
  xid : ℕ
  ret : ℤ
  body : Option γ
  deriving DecidableEq, Repr

/-- The negative return codes of `rpc_const`. -/
def timeout_failure : ℤ := -1
def unmarshal_args_failure : ℤ := -2
def atmostonce_failure : ℤ := -4
def oldsrv_failure : ℤ := -5
def bind_failure : ℤ := -6
def cancel_failure : ℤ := -7

/-! ## Jobs -/

/-- Where a job of the dispatch pool stands. -/
inductive Pc (γ : Type*) where
  /-- Queued by `got_pdu`; nothing has been looked at. -/
  | start
  /-- The header is accepted and, for a nonzero nonce, the window exists. -/
  | known
  /-- The duplicate check has answered. -/
  | checked (stat : rpcstate_t) (out : Option (Option (reply_pdu γ) × ℤ))
  /-- The handler has returned and the reply is packed. -/
  | ran (b1 : reply_pdu γ) (sz1 : ℤ)
  /-- The reply is recorded where that is needed, and not sent yet. It is `kept` in the
  window if its entry was still there. -/
  | recorded (b1 : reply_pdu γ) (kept : Bool)
  | finished

structure Job (γ : Type*) where
  h : req_header
  pc : Pc γ

/-- What a handler returns: its value, and the reply it marshalled. -/
structure HandlerOut (γ : Type*) where
  ret : ℤ
  body : γ
  sz : ℤ

structure Server (γ : Type*) where
  nonce_ : ℕ
  procs_ : List ℕ
  window : rpcs (reply_pdu γ)
  jobs : List (Job γ)
  /-- The requests whose handler has been run, in order. -/
  executed : List (ℕ × ℕ)
  /-- The replies handed to the connection, in order. -/
  sent : List (reply_pdu γ)
  /-- A `VERIFY` has failed. -/
  aborted : Bool

variable {γ : Type*}

/-- A fresh server. -/
def Server.init (nonce_ : ℕ) (procs_ : List ℕ) : Server γ :=
  ⟨nonce_, procs_, rpcs.empty, [], [], [], false⟩

/-- The first half of `dispatch`: reject a request for an old server instance,
abort on an unknown procedure, create the window of a new client. -/
def dispatch_start (s : Server γ) (h : req_header) : Server γ × Pc γ :=
  if h.srv_nonce ≠ 0 ∧ h.srv_nonce ≠ s.nonce_ then
    ({ s with sent := s.sent ++ [⟨h.xid, oldsrv_failure, none⟩] }, .finished)
  else if h.proc ∉ s.procs_ then ({ s with aborted := true }, .finished)
  else if h.clt_nonce ≠ 0 ∧ s.window.reply_window_ h.clt_nonce = none then
    ({ s with window := { s.window with
        reply_window_ := Function.update s.window.reply_window_ h.clt_nonce (some []) } }, .known)
  else (s, .known)

/-- The duplicate check, made only for a client that asks for at-most-once. -/
def dispatch_check (s : Server γ) (h : req_header) : Server γ × Pc γ :=
  if h.clt_nonce ≠ 0 then
    let r := checkduplicate_and_update s.window h.clt_nonce h.xid h.xid_rep
    ({ s with window := r.2 }, .checked r.1.stat r.1.out)
  else (s, .checked .NEW none)

/-- Running the handler. `VERIFY(rh.ret >= 0)` also covers the branch for
`unmarshal_args_failure`, which is negative. -/
def dispatch_run (s : Server γ) (h : req_header) (o : HandlerOut γ) : Server γ × Pc γ :=
  let s' := { s with executed := s.executed ++ [(h.clt_nonce, h.xid)] }
  if o.ret < 0 then ({ s' with aborted := true }, .finished)
  else (s', .ran ⟨h.xid, o.ret, some o.body⟩ o.sz)

/-- The request has an entry in the window. -/
def inWindow (w : rpcs (reply_pdu γ)) (clt_nonce xid : ℕ) : Bool :=
  ((w.reply_window_ clt_nonce).getD []).any fun it => it.xid == xid

/-- The `switch` over the state, and what follows a handler. A `DONE` reply whose
buffer is `NULL` has size 0, for which `connection::send` writes nothing. -/
def dispatch_next (s : Server γ) (j : Job γ) (o : HandlerOut γ) : Server γ × Pc γ :=
  match j.pc with
  | .start => dispatch_start s j.h
  | .known => dispatch_check s j.h
  | .checked .NEW _ => dispatch_run s j.h o
  | .checked .INPROGRESS _ => (s, .finished)
  | .checked .DONE (some (some b1, _)) => ({ s with sent := s.sent ++ [b1] }, .finished)
  | .checked .DONE _ => (s, .finished)
  | .checked .FORGOTTEN _ =>
    ({ s with sent := s.sent ++ [⟨j.h.xid, atmostonce_failure, none⟩] }, .finished)
  | .ran b1 sz1 =>
    -- the duplicate check asks for `!= 0` and this branch for `> 0`: the same test
    if j.h.clt_nonce > 0 then
      ({ s with window := add_reply s.window j.h.clt_nonce j.h.xid (some b1) sz1 },
        .recorded b1 (inWindow s.window j.h.clt_nonce j.h.xid))
    else (s, .recorded b1 false)
  | .recorded b1 _ => ({ s with sent := s.sent ++ [b1] }, .finished)
  | .finished => (s, .finished)

/-- The next step of the job sends a buffer that has been freed: it was in the window, and its
entry has been erased since. A reply that found no entry to be recorded in is nobody's, and is
never freed. -/
def Freed (s : Server γ) (j : Job γ) : Bool :=
  match j.pc with
  | .checked .DONE (some (some _, _)) => !inWindow s.window j.h.clt_nonce j.h.xid
  | .recorded _ kept => kept && !inWindow s.window j.h.clt_nonce j.h.xid
  | _ => false

/-- What can happen at the server. -/
inductive Act (γ : Type*) where
  /-- `rpcs::got_pdu` queues a job for a request that unmarshals. -/
  | got_pdu (h : req_header)
  /-- Job `i` runs up to its next mutex; `o` is what its handler returns, if this is
  the step that runs it. -/
  | job (i : ℕ) (o : HandlerOut γ)

/-- Writes back the job a step has run. -/
def settle (i : ℕ) (h : req_header) (r : Server γ × Pc γ) : Server γ :=
  { r.1 with jobs := r.1.jobs.set i ⟨h, r.2⟩ }

/-- One step of the server. -/
def step (s : Server γ) : Act γ → Option (Server γ)
  | .got_pdu h => if s.aborted then none else some { s with jobs := s.jobs ++ [⟨h, .start⟩] }
  | .job i o =>
    if s.aborted then none
    else match s.jobs[i]? with
      | none => none
      | some j => some (settle i j.h (dispatch_next s j o))

/-! ## At most one execution -/

/-- Job `j` has been told `NEW` for `(c, x)` and has not run the handler. -/
def Pending (c x : ℕ) (j : Job γ) : Bool :=
  match j.pc with
  | .checked .NEW _ => j.h.clt_nonce == c && j.h.xid == x
  | _ => false

/-- How often the handler of `(c, x)` has been run or is about to be. -/
def claims (s : Server γ) (c x : ℕ) : ℕ :=
  s.executed.count (c, x) + s.jobs.countP (Pending c x)

/-- The invariant: the window is well formed, a request is claimed at most once,
and the window remembers every request that is claimed. -/
structure Inv (s : Server γ) : Prop where
  wf : Wf s.window
  once : ∀ c x, c ≠ 0 → claims s c x ≤ 1
  seen : ∀ c x, c ≠ 0 → 0 < claims s c x → view s.window c x ≠ .absent

theorem inv_init (nonce_ : ℕ) (procs_ : List ℕ) : Inv (Server.init nonce_ procs_ : Server γ) where
  wf := wf_empty
  once := by intro c x _; simp [claims, Server.init]
  seen := by intro c x _ h; simp [claims, Server.init] at h

variable {j : Job γ} {i : ℕ} {s s' : Server γ}

/-- Replacing job `i` moves the claims by what the job claimed before and after. -/
theorem claims_set {pc' : Pc γ} (c x : ℕ)
    (hj : s.jobs[i]? = some j) (hjobs : s'.jobs = s.jobs.set i ⟨j.h, pc'⟩) :
    claims s' c x + (if Pending c x j then 1 else 0) + s.executed.count (c, x)
      = claims s c x + (if Pending c x ⟨j.h, pc'⟩ then 1 else 0) + s'.executed.count (c, x) := by
  have hcount := Refs.countP_set_add (p := Pending c x) hj ⟨j.h, pc'⟩
  unfold claims
  rw [hjobs]
  omega

/-- The same claims, and a window that forgets nothing. -/
theorem Inv.congr (hinv : Inv s) (hwf : Wf s'.window)
    (hview : ∀ c x, view s.window c x ≠ .absent → view s'.window c x ≠ .absent)
    (hclaims : ∀ c x, c ≠ 0 → claims s' c x = claims s c x) : Inv s' := by
  refine ⟨hwf, fun c x hc => ?_, fun c x hc hpos => ?_⟩
  · rw [hclaims c x hc]
    exact hinv.once c x hc
  · rw [hclaims c x hc] at hpos
    exact hview c x (hinv.seen c x hc hpos)

/-- A step that runs no handler and claims nothing keeps the invariant, as long as
the window forgets nothing. -/
theorem inv_quiet {pc' : Pc γ} (hinv : Inv s)
    (hj : s.jobs[i]? = some j) (hjobs : s'.jobs = s.jobs.set i ⟨j.h, pc'⟩)
    (hex : s'.executed = s.executed) (hwf : Wf s'.window)
    (hview : ∀ c x, view s.window c x ≠ .absent → view s'.window c x ≠ .absent)
    (hpj : ∀ c x, c ≠ 0 → Pending c x j = false)
    (hpj' : ∀ c x, c ≠ 0 → Pending c x ⟨j.h, pc'⟩ = false) : Inv s' := by
  refine hinv.congr hwf hview ?_
  intro c x hc
  have hset := claims_set c x hj hjobs
  rw [hpj c x hc, hpj' c x hc, hex] at hset
  simpa using hset

/-- The same for a step that leaves the window alone. -/
theorem inv_still {pc' : Pc γ} (hinv : Inv s)
    (hj : s.jobs[i]? = some j) (hjobs : s'.jobs = s.jobs.set i ⟨j.h, pc'⟩)
    (hex : s'.executed = s.executed) (hwin : s'.window = s.window)
    (hpj : ∀ c x, Pending c x j = false) (hpj' : ∀ c x, Pending c x ⟨j.h, pc'⟩ = false) :
    Inv s' := by
  refine inv_quiet hinv hj hjobs hex ?_ ?_ (fun c x _ => hpj c x) (fun c x _ => hpj' c x)
  · rw [hwin]
    exact hinv.wf
  · intro c x hv
    rw [hwin]
    exact hv

/-- A step that claims requests that were absent, and are remembered from then on. -/
theorem inv_claim {pc' : Pc γ} (hinv : Inv s)
    (hj : s.jobs[i]? = some j) (hjobs : s'.jobs = s.jobs.set i ⟨j.h, pc'⟩)
    (hex : s'.executed = s.executed) (hwf : Wf s'.window)
    (hview : ∀ c x, view s.window c x ≠ .absent → view s'.window c x ≠ .absent)
    (hpj : ∀ c x, Pending c x j = false)
    (hclaim : ∀ c x, Pending c x ⟨j.h, pc'⟩ = true →
      view s.window c x = .absent ∧ view s'.window c x ≠ .absent) : Inv s' := by
  have hset : ∀ c x, claims s' c x
      = claims s c x + (if Pending c x (⟨j.h, pc'⟩ : Job γ) then 1 else 0) := by
    intro c x
    have hset := claims_set c x hj hjobs
    rw [hpj c x, hex] at hset
    simp only [Bool.false_eq_true, if_false] at hset
    omega
  refine ⟨hwf, fun c x hc => ?_, fun c x hc hpos => ?_⟩
  · rw [hset c x]
    by_cases hp : Pending c x (⟨j.h, pc'⟩ : Job γ) = true
    -- an absent request has no claim yet, so this one is its first
    · have hzero : ¬ 0 < claims s c x := fun h => hinv.seen c x hc h (hclaim c x hp).1
      rw [if_pos hp]
      omega
    · rw [if_neg hp]
      exact hinv.once c x hc
  · rw [hset c x] at hpos
    by_cases hp : Pending c x (⟨j.h, pc'⟩ : Job γ) = true
    · exact (hclaim c x hp).2
    · rw [if_neg hp] at hpos
      exact hview c x (hinv.seen c x hc hpos)

theorem view_touch (w : rpcs (reply_pdu γ)) (c c' x : ℕ) (hc : w.reply_window_ c = none) :
    view { w with reply_window_ := Function.update w.reply_window_ c (some []) } c' x
      = view w c' x := by
  by_cases h : c' = c
  · subst h
    simp [view, hc]
  · simp [view, h]

/-- The step before the duplicate check. -/
theorem inv_start (hinv : Inv s) (hj : s.jobs[i]? = some j) (hpc : j.pc = .start) :
    Inv (settle i j.h (dispatch_start s j.h)) := by
  have hpend : ∀ c x, Pending c x j = false := by
    intro c x
    simp [Pending, hpc]
  unfold dispatch_start
  by_cases hold : j.h.srv_nonce ≠ 0 ∧ j.h.srv_nonce ≠ s.nonce_
  · rw [if_pos hold]
    exact inv_still hinv hj rfl rfl rfl hpend (fun _ _ => rfl)
  rw [if_neg hold]
  by_cases hproc : j.h.proc ∉ s.procs_
  · rw [if_pos hproc]
    exact inv_still hinv hj rfl rfl rfl hpend (fun _ _ => rfl)
  rw [if_neg hproc]
  by_cases hnew : j.h.clt_nonce ≠ 0 ∧ s.window.reply_window_ j.h.clt_nonce = none
  · rw [if_pos hnew]
    refine inv_quiet hinv hj rfl rfl ?_ ?_ (fun c x _ => hpend c x) (fun _ _ _ => rfl)
    · intro c hc
      by_cases h : c = j.h.clt_nonce
      · subst h
        simp [settle] at hc
      · simp only [settle, Function.update_of_ne h] at hc
        exact hinv.wf c hc
    · intro c x hv
      rw [settle, view_touch _ _ _ _ hnew.2]
      exact hv
  · rw [if_neg hnew]
    exact inv_still hinv hj rfl rfl rfl hpend (fun _ _ => rfl)

/-- The duplicate check says `NEW` only for a request that was absent. -/
theorem pending_check (hinv : Inv s) {h : req_header} {c x : ℕ}
    (hp : Pending c x (⟨h, .checked
      (checkduplicate_and_update s.window h.clt_nonce h.xid h.xid_rep).1.stat
      (checkduplicate_and_update s.window h.clt_nonce h.xid h.xid_rep).1.out⟩ : Job γ) = true) :
    c = h.clt_nonce ∧ x = h.xid ∧ view s.window c x = .absent := by
  have hres := check_result hinv.wf h.clt_nonce h.xid h.xid_rep
  rcases hv : view s.window h.clt_nonce h.xid with _ | ⟨_, _⟩ | _
  · rw [hv] at hres
    simp only [Pending, hres, Bool.and_eq_true, beq_iff_eq] at hp
    exact ⟨hp.1.symm, hp.2.symm, by rw [← hp.1, ← hp.2, hv]⟩
  all_goals
    rw [hv] at hres
    simp [Pending, hres] at hp

/-- The duplicate check: a request is claimed by it only when it was absent, and is
remembered from then on. -/
theorem inv_check (hinv : Inv s) (hj : s.jobs[i]? = some j) (hpc : j.pc = .known) :
    Inv (settle i j.h (dispatch_check s j.h)) := by
  have hpend : ∀ c x, Pending c x j = false := by
    intro c x
    simp [Pending, hpc]
  unfold dispatch_check
  by_cases hn : j.h.clt_nonce ≠ 0
  · rw [if_pos hn]
    refine inv_claim hinv hj rfl rfl (wf_check hinv.wf _ _ _)
      (fun _ _ hv => view_check_ne_absent hinv.wf _ _ _ hv) hpend ?_
    intro c x hp
    obtain ⟨rfl, rfl, habsent⟩ := pending_check hinv hp
    exact ⟨habsent, view_check_self hinv.wf _ _ _⟩
  · rw [if_neg hn]
    refine inv_quiet hinv hj rfl rfl hinv.wf (fun _ _ h => h) (fun c x _ => hpend c x) ?_
    intro c x hc
    have hne : j.h.clt_nonce ≠ c := fun h => hn (h ▸ hc)
    simp [Pending, hne]

/-- Running the handler turns the claim of the job into an execution. -/
theorem inv_run {o : HandlerOut γ} {out : Option (Option (reply_pdu γ) × ℤ)} (hinv : Inv s)
    (hj : s.jobs[i]? = some j) (hpc : j.pc = .checked .NEW out) :
    Inv (settle i j.h (dispatch_run s j.h o)) := by
  have hmain : ∀ (s' : Server γ) (pc' : Pc γ), s'.window = s.window →
      s'.executed = s.executed ++ [(j.h.clt_nonce, j.h.xid)] →
      s'.jobs = s.jobs.set i ⟨j.h, pc'⟩ →
      (∀ c x, Pending c x (⟨j.h, pc'⟩ : Job γ) = false) → Inv s' := by
    intro s' pc' hwin hex hjobs hp'
    refine hinv.congr (hwin ▸ hinv.wf) (fun _ _ hv => hwin ▸ hv) ?_
    -- the execution is counted where the claim was
    intro c x _
    have hset := claims_set c x hj hjobs
    rw [hp' c x, hex, List.count_append, List.count_singleton] at hset
    simp only [Pending, hpc, Bool.and_eq_true, beq_iff_eq, Prod.mk.injEq] at hset
    simp only [Bool.false_eq_true, if_false] at hset
    omega
  unfold dispatch_run
  dsimp only
  split_ifs
  · exact hmain _ .finished rfl rfl rfl (fun _ _ => rfl)
  · exact hmain _ (.ran _ _) rfl rfl rfl (fun _ _ => rfl)

/-- A job that is only queued claims nothing. -/
theorem inv_got_pdu (hinv : Inv s) (h : req_header) :
    Inv { s with jobs := s.jobs ++ [⟨h, .start⟩] } := by
  refine hinv.congr hinv.wf (fun _ _ hv => hv) ?_
  intro c x _
  simp [claims, List.countP_append, Pending]

/-- A step of a job, by where the job stands. -/
theorem inv_job (hinv : Inv s) (hj : s.jobs[i]? = some j)
    (o : HandlerOut γ) : Inv (settle i j.h (dispatch_next s j o)) := by
  unfold dispatch_next
  cases hpc : j.pc with
  | start => exact inv_start hinv hj hpc
  | known => exact inv_check hinv hj hpc
  | checked stat out =>
    have hpend : stat ≠ .NEW → ∀ c x, Pending c x j = false := by
      intro hstat c x
      cases stat <;> simp_all [Pending]
    cases stat with
    | NEW => exact inv_run hinv hj hpc
    | INPROGRESS =>
      exact inv_still hinv hj rfl rfl rfl (hpend (by decide)) (fun _ _ => rfl)
    | DONE =>
      rcases out with _ | ⟨_ | b1, sz1⟩
      all_goals exact inv_still hinv hj rfl rfl rfl (hpend (by decide)) (fun _ _ => rfl)
    | FORGOTTEN =>
      exact inv_still hinv hj rfl rfl rfl (hpend (by decide)) (fun _ _ => rfl)
  | ran b1 sz1 =>
    have hpend : ∀ c x, Pending c x j = false := fun _ _ => by simp [Pending, hpc]
    dsimp only
    split_ifs
    · exact inv_quiet hinv hj rfl rfl (wf_add_reply hinv.wf _ _ _ _)
        (fun _ _ h => view_add_reply_ne_absent _ _ _ _ h) (fun c x _ => hpend c x)
        (fun _ _ _ => rfl)
    · exact inv_still hinv hj rfl rfl rfl hpend (fun _ _ => rfl)
  | recorded b1 kept =>
    have hpend : ∀ c x, Pending c x j = false := fun _ _ => by simp [Pending, hpc]
    exact inv_still hinv hj rfl rfl rfl hpend (fun _ _ => rfl)
  | finished =>
    have hpend : ∀ c x, Pending c x j = false := fun _ _ => by simp [Pending, hpc]
    exact inv_still hinv hj rfl rfl rfl hpend (fun _ _ => rfl)

/-- **Every step of the server keeps the invariant.** -/
theorem inv_step (s : Server γ) (a : Act γ) (s' : Server γ) (hinv : Inv s)
    (hs : step s a = some s') : Inv s' := by
  cases a with
  | got_pdu h =>
    simp only [step] at hs
    split_ifs at hs
    cases hs
    exact inv_got_pdu hinv h
  | job i o =>
    simp only [step] at hs
    split_ifs at hs
    cases hj : s.jobs[i]? with
    | none => rw [hj] at hs; cases hs
    | some j =>
      rw [hj] at hs
      cases hs
      exact inv_job hinv hj o

/-- The handler of a request of a client with a nonzero nonce is run at most once,
in every run of the server. -/
theorem executed_at_most_once {nonce_ : ℕ} {procs_ : List ℕ} {as : List (Act γ)}
    (hrun : Steps.run step (Server.init nonce_ procs_) as = some s) (c x : ℕ) (hc : c ≠ 0) :
    s.executed.count (c, x) ≤ 1 := by
  have hinv : Inv s := Steps.run_inv_all inv_step (inv_init nonce_ procs_) hrun
  have honce := hinv.once c x hc
  unfold claims at honce
  omega

/-- **At-most-once execution.** Over every history of `checkduplicate_and_update` and
`add_reply` calls from an empty server, `NEW` is returned exactly when the pair
arrives for the first time, hence at most once; and in every run of the dispatch
pool the handler of a pair with a nonzero nonce is run at most once. -/
theorem at_most_once {β : Type*} :
    (∀ (h : List (Call β)) (c x r : ℕ),
        (checkduplicate_and_update (after h) c x r).1.stat = .NEW ↔ ¬ Arrived h c x)
      ∧ (∀ (h : List (Call β)) (c x : ℕ), newCount c x rpcs.empty h ≤ 1)
      ∧ (∀ (nonce_ : ℕ) (procs_ : List ℕ) (as : List (Act γ)) (s : Server γ),
        Steps.run step (Server.init nonce_ procs_) as = some s →
        ∀ c x, c ≠ 0 → s.executed.count (c, x) ≤ 1) := by
  refine ⟨check_stat_new_iff, fun h c x => ?_, fun _ _ _ _ hrun c x hc =>
    executed_at_most_once hrun c x hc⟩
  by_cases ha : Arrived h c x
  · exact Nat.le_of_eq ((newCount_eq h c x).1 ha)
  · rw [(newCount_eq h c x).2 ha]
    exact Nat.zero_le 1

/-- A request and its retransmission, the second checked after the handler of the
first has run. -/
def retransmitted : List (Act ℕ) :=
  [.got_pdu ⟨1, 9, 7, 5, 0⟩, .got_pdu ⟨1, 9, 7, 5, 0⟩, .job 0 ⟨0, 3, 20⟩, .job 0 ⟨0, 3, 20⟩,
    .job 0 ⟨0, 3, 20⟩, .job 1 ⟨0, 3, 20⟩, .job 1 ⟨0, 3, 20⟩, .job 1 ⟨0, 3, 20⟩]

theorem at_most_once_retransmitted :
    ∃ s : Server ℕ, Steps.run step (Server.init 5 [9]) retransmitted = some s
      ∧ s.executed = [(7, 1)] ∧ s.executed.count (7, 1) ≤ 1 := by
  have hex : (Steps.run step (Server.init 5 [9]) retransmitted).map (·.executed)
      = some [(7, 1)] := by decide
  obtain ⟨s, hs, hexec⟩ := Option.map_eq_some_iff.mp hex
  exact ⟨s, hs, hexec, (at_most_once (β := ℕ)).2.2 5 [9] retransmitted s hs 7 1 (by decide)⟩

end Yfs.RpcDispatch
