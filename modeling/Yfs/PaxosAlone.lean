/-
A proposer that is left alone (`paxos.cc`): what its steps are, and what they do to the
acceptors.

`Lone` says what being left alone is: nobody else takes a step, no older request is
delivered, and a node that is up is waited for until it has answered; the other nodes
answer or do not answer, as they like. A value that is decided then stays decided, and no
`VERIFY` fails (`decided_step`). An acceptor is at one of a few points of an attempt, from
a promise that is too low to a vote, and each request takes it to the next.

The results on whole runs are in `PaxosProgress`, of which this is the first part.
-/
import Yfs.PaxosProposer
import Mathlib.Data.List.Perm.Subperm

set_option autoImplicit false

namespace Yfs.PaxosProgress

open Text Yfs.PaxosAcceptor Yfs.PaxosProposer

variable {members : ℕ → List Str} {s s' : System} {a : Act}

/-! ## Nodes -/

theorem nodes_set_self (s : System) (q : Str) (nd : Node) : (s.set q nd).nodes q = nd :=
  Function.update_self ..

theorem nodes_set_ne (s : System) {q y : Str} (h : y ≠ q) (nd : Node) :
    (s.set q nd).nodes y = s.nodes y :=
  Function.update_of_ne h ..

/-- What an acceptor learns does not touch the run of any proposer. -/
theorem set_acc_run (s : System) (y : Str) (acc : acceptor) (q : Str) :
    ((s.set y { s.nodes y with acc }).nodes q).run = (s.nodes q).run := by
  by_cases hq : q = y
  · subst hq
    rw [nodes_set_self]
  · rw [nodes_set_ne s hq]

theorem set_acc_my_n (s : System) (y : Str) (acc : acceptor) (q : Str) :
    ((s.set y { s.nodes y with acc }).nodes q).my_n = (s.nodes q).my_n := by
  by_cases hq : q = y
  · subst hq
    rw [nodes_set_self]
  · rw [nodes_set_ne s hq]

/-- What a step does to the run of a node leaves all acceptors alone. -/
theorem set_run_acc (s : System) (q : Str) {nd : Node} (hnd : nd.acc = (s.nodes q).acc) (y : Str) :
    ((s.set q nd).nodes y).acc = (s.nodes y).acc := by
  by_cases hy : y = q
  · subst hy
    rw [nodes_set_self, hnd]
  · rw [nodes_set_ne s hy]

theorem setRun_acc (s : System) (q : Str) (r : Option Run) (y : Str) :
    ((s.setRun q r).nodes y).acc = (s.nodes y).acc :=
  set_run_acc s q (by rfl) y

theorem setRun_run (s : System) (q : Str) (r : Option Run) : ((s.setRun q r).nodes q).run = r := by
  rw [System.setRun, nodes_set_self]

theorem setRun_my_n (s : System) (q : Str) (r : Option Run) :
    ((s.setRun q r).nodes q).my_n = (s.nodes q).my_n := by
  rw [System.setRun, nodes_set_self]

theorem advance_my_n (members : ℕ → List Str) (s : System) (q : Str) (r : Run) :
    ((advance members s q r).nodes q).my_n = (s.nodes q).my_n := by
  obtain ⟨o, ps, ws, heq, -⟩ := advance_eq members s q r
  rw [heq]
  exact setRun_my_n s q o

/-- Only requests that were sent are handled. -/
def CallsOk (s : System) : Prop := ∀ h ∈ s.handled, h.call < s.requests.length

/-- Handling is of requests that were sent, and requests are not taken back. -/
theorem calls_step (h : CallsOk s) (hs : step members s a = some s') : CallsOk s' := by
  have hhandled : ∀ {j : ℕ} {req : Request} (res : Response), s.requests[j]? = some req →
      ∀ e ∈ s.handled ++ [⟨j, req, res⟩], e.call < s.requests.length := by
    intro j req res hsent e he
    rcases List.mem_append.mp he with hold | hnew
    · exact h e hold
    · rw [List.mem_singleton.mp hnew]
      exact (List.getElem?_eq_some_iff.mp hsent).1
  cases moves_of_step hs with
  | begin | skip | reply | old | crash => exact h
  | call p x r rest =>
    intro e he
    show e.call < (s.requests ++ [_]).length
    rw [List.length_append]
    exact Nat.lt_add_right _ (h e he)
  | advance p r =>
    obtain ⟨o, ps, ws, heq, -⟩ := advance_eq members s p r
    rw [heq]
    exact h
  | answer j req res acc hsent => exact hhandled res hsent
  | abort j req nd hsent => exact hhandled .aborted hsent

theorem calls_run {nodes : Str → Node} {acts : List Act}
    (hrun : Steps.run (step members) (start nodes) acts = some s) : CallsOk s :=
  Steps.run_inv_all (fun _ _ _ => calls_step)
    (show CallsOk (start nodes) from List.forall_mem_nil _) hrun

/-- A call that has just been made is not among those that were handled. -/
theorem CallsOk.find_none (h : CallsOk s) :
    s.handled.find? (fun e => some s.requests.length == some e.call) = none := by
  rw [List.find?_eq_none]
  intro e he heq
  exact absurd (Option.some.inj (beq_iff_eq.mp heq)) (Nat.ne_of_gt (h e he))

/-- A call that was not handled has no reply. -/
theorem find_none_of_fresh {j : ℕ} (h : s.handled.any (·.call == j) = false) :
    s.handled.find? (fun e => some j == some e.call) = none := by
  rw [List.find?_eq_none]
  intro e he heq
  have hany := List.any_eq_false.mp h e he
  exact hany (beq_iff_eq.mpr (Option.some.inj (beq_iff_eq.mp heq)).symm)

/-! ## Left alone -/

/-- More nodes are no smaller majority. -/
theorem majority_mono {l₁ l₂ l₂' : List Str} (hsub : l₂ ⊆ l₂') (h : majority l₁ l₂ = true) :
    majority l₁ l₂' = true := by
  have hle := of_decide_eq_true h
  refine decide_eq_true (Nat.le_trans hle (List.countP_mono_left fun x _ hx => ?_))
  exact isamember_iff.mpr (hsub (isamember_iff.mp hx))

/-- A proposer and the nodes of an instance. A majority of them is up. -/
structure Alone where
  members : ℕ → List Str
  /-- The proposer. -/
  p : Str
  inst : ℕ
  up : Str → Bool
  /-- No number that was promised before is higher. -/
  N : ℕ
  /-- The values the proposer is called with, and those that were accepted before. -/
  V : Str → Prop
  inst_lt : inst < 2 ^ 32
  nodup : (members inst).Nodup
  member : p ∈ members inst
  majority : majority (members inst) ((members inst).filter up) = true
  N_lt : N + 2 < 2 ^ 32
  value : ∃ v, V v ∧ v ≠ []

namespace Alone

variable (c : Alone) {r r' : Run} {acc : acceptor} {x : Str}

def group : List Str := c.members c.inst

/-- The steps of a proposer that is left alone: no older request is delivered, and it does
not give up on a node that is up. -/
def Lone (s : System) : Act → Prop
  | .begin q inst newv => q = c.p ∧ inst = c.inst ∧ c.V newv
  | .call q => q = c.p
  | .skip q => q = c.p ∧ ∀ r ∈ (s.nodes c.p).run, ∀ x ∈ r.todo.head?, c.up x = false
  | .receive q => q = c.p
  | .advance q => q = c.p
  | .handle j => ∃ r ∈ (s.nodes c.p).run, r.wait = some j
  | .crash _ => False

/-- The node has decided `v`. -/
def Has (v : Str) (acc : acceptor) : Prop :=
  acc.instance_h = c.inst ∧ acc.values c.inst = some v

/-- **The instance is decided**: a value somebody wants has passed both majority tests,
and every node that was counted and is up has it. -/
def Decided (s : System) : Prop :=
  ∃ w ∈ s.won, w.inst = c.inst ∧ c.V w.v ∧ PaxosProposer.majority c.group w.nodes = true
    ∧ ∀ y ∈ w.nodes, c.up y = true → c.Has w.v (s.nodes y).acc

/-! ## What is decided stays decided -/

/-- Nothing that is handled takes a decision back, and no `VERIFY` fails. -/
theorem Has.answer {c : Alone} {v : Str} {b : Body} (h : c.Has v acc) (hb : b.inst = c.inst) :
    ∃ res acc', PaxosProposer.answer acc b = some (res, acc') ∧ c.Has v acc' := by
  obtain ⟨hinst, hval⟩ := h
  cases b with
  | prepare arg =>
    obtain ⟨h₁, h₂⟩ := preparereq_values acc arg
    exact ⟨_, _, rfl, h₁.trans hinst, (congrFun h₂ _).trans hval⟩
  | accept arg =>
    obtain ⟨h₁, h₂⟩ := acceptreq_values acc arg
    exact ⟨_, _, rfl, h₁.trans hinst, (congrFun h₂ _).trans hval⟩
  | decide arg =>
    have harg : arg.inst = c.inst := hb
    have hnext : ¬ arg.inst = acc.next := by
      have hlt := c.inst_lt
      rw [acceptor.next, hinst, harg]
      omega
    have hreq : decidereq acc arg = some acc := by
      unfold decidereq
      rw [if_neg hnext, if_pos (by omega)]
    exact ⟨.decide, acc, by rw [PaxosProposer.answer, hreq]; rfl, hinst, hval⟩

/-- A node that has decided does not commit the instance again. -/
theorem Has.commit {c : Alone} {v : Str} (h : c.Has v acc) (v' : Str) :
    c.Has v (commit acc c.inst v') := by
  unfold PaxosAcceptor.commit commit_wo
  rw [if_neg (by rw [h.1]; exact Nat.lt_irrefl _)]
  exact h

/-- What every state of a run of `Lone` steps has: the proposer is at the instance, and so
is the request it waits for. -/
structure Base (s : System) : Prop where
  calls : CallsOk s
  inst : ∀ r, (s.nodes c.p).run = some r → r.inst = c.inst
  sent : ∀ r j, (s.nodes c.p).run = some r → r.wait = some j →
    ∃ req, s.requests[j]? = some req ∧ req.body.inst = c.inst

/-- A reply leaves the instance, and ends the waiting. -/
theorem inst_reply {e : Handled} (h : r.reply x e.res = .ok r') :
    r'.inst = r.inst ∧ r'.wait = none := by
  unfold Run.reply at h
  split at h
  · split at h
    · cases h
    · split at h
      · cases h
        unfold Run.promised Run.next
        split
        · exact ⟨rfl, rfl⟩
        · split <;> exact ⟨rfl, rfl⟩
      · cases h
        exact ⟨rfl, rfl⟩
  · cases h
    exact ⟨rfl, rfl⟩
  · cases h
    exact ⟨rfl, rfl⟩

variable {c}

theorem body_inst (r : Run) : r.body.inst = r.inst := by
  unfold Run.body
  split <;> rfl

/-- A step that sends nothing, seen from the run of the proposer after it. -/
theorem Base.of_run (h : c.Base s) (hcalls : CallsOk s') (hrequests : s'.requests = s.requests)
    (hrun : ∀ r', (s'.nodes c.p).run = some r' → (r'.inst = c.inst ∧ r'.wait = none)
      ∨ ∃ r, (s.nodes c.p).run = some r ∧ r'.inst = r.inst ∧ r'.wait = r.wait) : c.Base s' := by
  refine ⟨hcalls, fun r' hr' => ?_, fun r' j hr' hj => ?_⟩
  · rcases hrun r' hr' with ⟨hinst, -⟩ | ⟨r, hr, hinst, -⟩
    · exact hinst
    · exact hinst.trans (h.inst r hr)
  · rw [hrequests]
    rcases hrun r' hr' with ⟨-, hwait⟩ | ⟨r, hr, -, hwait⟩
    · rw [hwait] at hj
      cases hj
    · exact h.sent r j hr (hwait ▸ hj)

/-- A lone proposer stays at its instance: nobody else begins a run in its name, and the
requests it waits for are its own. -/
theorem base_step (h : c.Base s) (hl : c.Lone s a) (hs : step c.members s a = some s') :
    c.Base s' := by
  have hcalls := calls_step h.calls hs
  cases moves_of_step hs with
  | begin p inst newv hidle =>
    obtain ⟨rfl, rfl, -⟩ := hl
    refine h.of_run hcalls rfl fun r' hr' => ?_
    cases (congrArg Node.run (nodes_set_self s c.p _)).symm.trans hr'
    exact .inl ⟨rfl, rfl⟩
  | call p x r rest hrun htodo hwait =>
    obtain rfl : p = c.p := hl
    refine ⟨hcalls, fun r' hr' => ?_, fun r' j hr' hj => ?_⟩
    · cases (setRun_run s c.p _).symm.trans hr'
      exact h.inst r hrun
    · cases (setRun_run s c.p _).symm.trans hr'
      cases hj
      exact ⟨_, List.getElem?_concat_length, (body_inst r).trans (h.inst r hrun)⟩
  | skip p r hrun htodo =>
    obtain rfl : p = c.p := hl.1
    refine h.of_run hcalls rfl fun r' hr' => ?_
    cases (setRun_run s c.p _).symm.trans hr'
    exact .inl ⟨h.inst r hrun, rfl⟩
  | reply p x r r' rest e hrun htodo hfound hok =>
    obtain rfl : p = c.p := hl
    refine h.of_run hcalls rfl fun r'' hr'' => ?_
    cases (setRun_run s c.p _).symm.trans hr''
    obtain ⟨hinst, hwait⟩ := inst_reply hok
    exact .inl ⟨hinst.trans (h.inst r hrun), hwait⟩
  | old p x r rest e v hrun htodo hfound herror =>
    obtain rfl : p = c.p := hl
    refine h.of_run hcalls rfl fun r' hr' => ?_
    cases (congrArg Node.run (nodes_set_self s c.p _)).symm.trans hr'
  | advance p r hrun htodo =>
    obtain rfl : p = c.p := hl
    obtain ⟨o, ps, ws, heq, hfields⟩ := advance_eq c.members s c.p r
    rw [heq] at hcalls ⊢
    refine h.of_run hcalls rfl fun r' hr' => ?_
    exact .inr ⟨r, hrun, hfields r' ((setRun_run s c.p o).symm.trans hr')⟩
  | answer j req res acc hsent hfresh hanswer =>
    refine h.of_run hcalls rfl fun r hr => ?_
    exact .inr ⟨r, (set_acc_run s req.dst acc c.p).symm.trans hr, rfl, rfl⟩
  | abort j req nd hsent hfresh hanswer hrestart =>
    obtain ⟨acc, -, hnd⟩ := Option.map_eq_some_iff.mp hrestart
    refine h.of_run hcalls rfl fun r hr => ?_
    by_cases hp : c.p = req.dst
    · rw [hp] at hr
      cases (congrArg Node.run ((nodes_set_self s req.dst nd).trans hnd.symm)).symm.trans hr
    · exact .inr ⟨r, (congrArg Node.run (nodes_set_ne s hp nd)).symm.trans hr, rfl, rfl⟩
  | crash p nd => exact hl.elim

/-- A node that has decided keeps what it has decided. -/
theorem has_step {v y : Str} (hb : c.Base s) (hl : c.Lone s a) (h : c.Has v (s.nodes y).acc)
    (hs : step c.members s a = some s') : c.Has v (s'.nodes y).acc := by
  cases moves_of_step hs with
  | begin p inst newv hidle =>
    exact (congrArg (c.Has v) (set_run_acc s p (by rfl) y)).mpr h
  | call p x r rest hrun htodo hwait => exact (setRun_acc s p _ y).symm ▸ h
  | skip p r hrun htodo => exact (setRun_acc s p _ y).symm ▸ h
  | reply p x r r' rest e hrun htodo hfound hok => exact (setRun_acc s p _ y).symm ▸ h
  | old p x r rest e v' hrun htodo hfound herror =>
    obtain rfl : p = c.p := hl
    by_cases hy : y = c.p
    · subst hy
      rw [nodes_set_self, hb.inst r hrun]
      exact h.commit v'
    · rw [nodes_set_ne s hy]
      exact h
  | advance p r hrun htodo =>
    obtain ⟨o, ps, ws, heq, -⟩ := advance_eq c.members s p r
    rw [heq]
    exact (setRun_acc s p o y).symm ▸ h
  | answer j req res acc hsent hfresh hanswer =>
    by_cases hy : y = req.dst
    · subst hy
      obtain ⟨r, hr, hwait⟩ := hl
      obtain ⟨req', hsent', hinst⟩ := hb.sent r j hr hwait
      cases hsent.symm.trans hsent'
      obtain ⟨res', acc', hanswer', hhas⟩ := h.answer hinst
      cases hanswer.symm.trans hanswer'
      exact (congrArg Node.acc (nodes_set_self s req.dst _)).symm ▸ hhas
    · exact (congrArg Node.acc (nodes_set_ne s hy _)).symm ▸ h
  | abort j req nd hsent hfresh hanswer hrestart =>
    by_cases hy : y = req.dst
    · subst hy
      obtain ⟨r, hr, hwait⟩ := hl
      obtain ⟨req', hsent', hinst⟩ := hb.sent r j hr hwait
      cases hsent.symm.trans hsent'
      obtain ⟨res', acc', hanswer', -⟩ := h.answer hinst
      cases hanswer.symm.trans hanswer'
    · exact (congrArg Node.acc (nodes_set_ne s hy _)).symm ▸ h
  | crash p nd => exact hl.elim

/-- Records of won attempts are kept. -/
theorem won_step (hs : step members s a = some s') : s.won ⊆ s'.won := by
  cases moves_of_step hs with
  | advance p r hrun htodo =>
    obtain ⟨o, ps, ws, heq, -⟩ := advance_eq members s p r
    rw [heq]
    exact List.subset_append_left _ _
  | begin | call | skip | reply | old | answer | abort | crash => exact List.Subset.refl _

/-- **A decision stays.** -/
theorem decided_step (hb : c.Base s) (hl : c.Lone s a) (h : c.Decided s)
    (hs : step c.members s a = some s') : c.Decided s' := by
  obtain ⟨w, hw, hinst, hV, hmaj, hhas⟩ := h
  exact ⟨w, won_step hs hw, hinst, hV, hmaj, fun y hy hup => has_step hb hl (hhas y hy hup) hs⟩

/-! ## The acceptors during an attempt -/

variable (c)

/-- A value somebody wants, or none. -/
def Ok (v : Str) : Prop := v = [] ∨ c.V v

/-- An acceptor before the attempt has reached it. -/
def Low (acc : acceptor) : Prop :=
  acc.instance_h + 1 = c.inst ∧ acc.n_h.n ≤ c.N ∧ c.Ok acc.v_a

/-- An acceptor that has promised the number of the attempt. -/
def Promised (n : prop_t) (acc : acceptor) : Prop :=
  acc.instance_h + 1 = c.inst ∧ acc.n_h = n ∧ c.Ok acc.v_a

/-- An acceptor that has accepted the value of the attempt. -/
def Voted (n : prop_t) (v : Str) (acc : acceptor) : Prop := c.Promised n acc ∧ acc.v_a = v

/-- The acceptor of a node that the current loop has still to visit. -/
def Before (r : Run) (acc : acceptor) : Prop :=
  match r.stage with
  | .prepare => c.Low acc
  | .accept => c.Promised r.my_n acc
  | .decide => c.Voted r.my_n r.v acc

/-- The acceptor of a node that has handled the request of the current loop, and its
answer. An attempt whose number is higher than `N` is not refused. -/
def After (r : Run) (acc : acceptor) (res : Response) : Prop :=
  match r.stage with
  | .prepare => ∃ pr, res = .prepare pr ∧ pr.oldinstance = false ∧ c.Ok pr.v_a
      ∧ (if pr.accept = true then c.Promised r.my_n acc else c.Low acc)
      ∧ (c.N < r.my_n.n → pr.accept = true)
  | .accept => res = .accept true ∧ c.Voted r.my_n r.v acc
  | .decide => res = .decide ∧ c.Has r.v acc

/-- The acceptor of a node that the current loop has counted. -/
def Counted (r : Run) (acc : acceptor) : Prop :=
  match r.stage with
  | .prepare => c.Promised r.my_n acc
  | .accept => c.Voted r.my_n r.v acc
  | .decide => True

/-- An acceptor the attempt has left in order, whether or not it has reached it. -/
def Calm (n : prop_t) (acc : acceptor) : Prop := c.Low acc ∨ c.Promised n acc

variable {c}

/-- An acceptor that has not been reached promises, or refuses because its promise is higher;
a number above `N` it cannot refuse. -/
theorem prepare_before {n : prop_t} (h : c.Low acc) :
    ∃ pr acc', preparereq acc ⟨c.inst, n⟩ = (pr, acc') ∧ pr.oldinstance = false ∧ c.Ok pr.v_a
      ∧ (if pr.accept = true then c.Promised n acc' else c.Low acc')
      ∧ (c.N < n.n → pr.accept = true) := by
  obtain ⟨hinst, hlow, hv⟩ := h
  have hold : ¬ c.inst ≤ acc.instance_h := by omega
  unfold preparereq
  rw [if_neg hold]
  split
  · refine ⟨_, _, rfl, rfl, hv, ?_, fun _ => rfl⟩
    rw [if_pos rfl]
    exact ⟨hinst, rfl, hv⟩
  · next hgt =>
    refine ⟨_, _, rfl, rfl, .inl rfl, ?_, fun hhigh => absurd (Or.inl ?_) hgt⟩
    · rw [if_neg Bool.false_ne_true]
      exact ⟨hinst, hlow, hv⟩
    · exact Nat.lt_of_le_of_lt hlow hhigh

/-- Nobody else has raised the promise meanwhile, so the vote is given. -/
theorem accept_before {n : prop_t} {v : Str} (h : c.Promised n acc) (hv : c.V v) :
    ∃ acc', acceptreq acc ⟨c.inst, n, v⟩ = (true, acc') ∧ c.Voted n v acc' := by
  obtain ⟨hinst, hn, -⟩ := h
  have hge : prop_ge n acc.n_h := by
    rw [hn]
    exact .inr ⟨rfl, le_refl n.m⟩
  exact ⟨_, if_pos hge, ⟨hinst, hn, .inr hv⟩, rfl⟩

/-- The value that is announced is the one the acceptor has voted for, so that its `VERIFY`
holds. -/
theorem decide_before {n : prop_t} {v : Str} (h : c.Voted n v acc) :
    ∃ acc', decidereq acc ⟨c.inst, v⟩ = some acc' ∧ c.Has v acc' := by
  obtain ⟨⟨hinst, -, -⟩, hv⟩ := h
  have hnext : c.inst = acc.next := by
    rw [acceptor.next, hinst, Nat.mod_eq_of_lt c.inst_lt]
  refine ⟨commit_wo acc c.inst acc.v_a, ?_, ?_⟩
  · unfold decidereq
    rw [if_pos hnext, if_pos hv]
  · have hgt : c.inst > acc.instance_h := by omega
    rw [commit_wo, if_pos hgt, hv]
    exact ⟨rfl, Function.update_self ..⟩

/-- **A node answers** the request of every loop, and no `VERIFY` fails. -/
theorem answer_before (hinst : r.inst = c.inst) (hv : r.stage ≠ .prepare → c.V r.v)
    (h : c.Before r acc) :
    ∃ res acc', answer acc r.body = some (res, acc') ∧ c.After r acc' res := by
  unfold Before at h
  unfold After Run.body
  rw [hinst]
  cases hstage : r.stage with
  | prepare =>
    rw [hstage] at h
    obtain ⟨pr, acc', hreq, hrest⟩ := prepare_before (n := r.my_n) h
    exact ⟨.prepare pr, acc', by simp only [answer, hreq], pr, rfl, hrest⟩
  | accept =>
    rw [hstage] at h
    obtain ⟨acc', hreq, hvoted⟩ := accept_before h (hv (by rw [hstage]; exact Stage.noConfusion))
    exact ⟨.accept true, acc', by simp only [answer, hreq], rfl, hvoted⟩
  | decide =>
    rw [hstage] at h
    obtain ⟨acc', hreq, hhas⟩ := decide_before h
    exact ⟨.decide, acc', by simp only [answer, hreq, Option.map_some], rfl, hhas⟩

/-- Before `decide`, an acceptor that has answered is still at the instance before. -/
theorem After.calm {res : Response} (h : c.After r acc res) (hstage : r.stage ≠ .decide) :
    c.Calm r.my_n acc := by
  unfold After at h
  cases hs : r.stage with
  | prepare =>
    rw [hs] at h
    obtain ⟨pr, -, -, -, hacc, -⟩ := h
    split at hacc
    · exact .inr hacc
    · exact .inl hacc
  | accept =>
    rw [hs] at h
    exact .inr h.2.1
  | decide => exact absurd hs hstage

/-- No acceptor aborts on a request of the attempt. -/
theorem After.not_aborted {res : Response} (h : c.After r acc res) : res ≠ .aborted := by
  unfold After at h
  cases hs : r.stage with
  | prepare =>
    rw [hs] at h
    obtain ⟨pr, rfl, -⟩ := h
    exact Response.noConfusion
  | accept =>
    rw [hs] at h
    rw [h.1]
    exact Response.noConfusion
  | decide =>
    rw [hs] at h
    rw [h.1]
    exact Response.noConfusion

end Alone

end Yfs.PaxosProgress
