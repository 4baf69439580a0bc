/-
A single instance of Paxos run from clean acceptors.

Every attempt is for instance `i`, and no acceptor has committed it or has any trace
of it at the start. The acceptors may be anything else, and the proposers may carry
any number over from instances before.

Two things can go wrong. `setn` computes in `unsigned`, so a number can wrap to 0,
and 0 is also the number of "nothing accepted yet". And `acceptreq` does not look at
its instance: an acceptor that has committed has forgotten its promises and votes
again. Without them the core of the protocol holds.
-/
import Yfs.PaxosInstance

set_option autoImplicit false

namespace Yfs.PaxosCore

open Text Yfs.PaxosAcceptor Yfs.PaxosLog Yfs.PaxosDurable Yfs.PaxosProposer Yfs.PaxosHistory
  Yfs.PaxosRuns Yfs.PaxosInstance

variable {members : ℕ → List Str}

/-! ## Runs of one instance -/

/-- A node that starts instance `i` clean. -/
structure Clean (i : ℕ) (nd : Node) : Prop where
  durable : Durable nd.acc
  before : nd.acc.instance_h < i
  n_h : nd.acc.n_h.n = 0
  n_a : nd.acc.n_a.n = 0
  v_a : nd.acc.v_a = []
  run : nd.run = none

/-- Every attempt is for instance `i`. -/
def OnlyInstance (i : ℕ) : Act → Prop
  | .begin _ inst _ => inst = i
  | _ => True

/-- An accept request that is taken up finds the acceptor before its commit. -/
def NotCommitted (i : ℕ) (s : System) : Act → Prop
  | .handle k =>
    match s.requests[k]? with
    | some ⟨_, dst, .accept a⟩ =>
      prop_ge a.n (s.nodes dst).acc.n_h → (s.nodes dst).acc.instance_h < i
    | _ => True
  | _ => True

def CoreOk (i : ℕ) (s : System) (a : Act) : Prop :=
  OnlyInstance i a ∧ BeginOk s a ∧ NotCommitted i s a

instance (i : ℕ) (a : Act) : Decidable (OnlyInstance i a) := by
  unfold OnlyInstance
  split <;> infer_instance

instance (s : System) (a : Act) : Decidable (BeginOk s a) := by
  unfold BeginOk
  split <;> infer_instance

instance (i : ℕ) (s : System) (a : Act) : Decidable (NotCommitted i s a) := by
  unfold NotCommitted
  split
  · split <;> infer_instance
  · infer_instance

instance (i : ℕ) (s : System) (a : Act) : Decidable (CoreOk i s a) :=
  inferInstanceAs (Decidable (_ ∧ _ ∧ _))

/-! ## The invariant -/

structure CoreInv (members : ℕ → List Str) (i : ℕ) (s : System) : Prop where
  basic : Basic members s
  inst : Inst 0 i s
  only : ∀ t ∈ s.attempts, t.inst = i

theorem CoreInv.start {i : ℕ} {nodes : Str → Node} (h : ∀ p, Clean i (nodes p)) :
    CoreInv members i (start nodes) := by
  exact ⟨basic_start (fun p => (h p).durable) fun p => (h p).run,
    inst_start fun p _ => ⟨(h p).n_a, (h p).v_a⟩, nofun⟩

theorem CoreInv.passed {i : ℕ} {s : System} (h : CoreInv members i s) (q : Passed)
    (hq : q ∈ s.passed) : q.inst = i := by
  obtain ⟨t, ht, hti, -⟩ := (h.basic.passed q hq).attempt
  exact hti.symm.trans (h.only t (List.mem_of_getElem? ht))

/-- Everything that was sent is for instance `i`. -/
theorem CoreInv.request {i : ℕ} {s : System} (h : CoreInv members i s) {req : Request}
    (hreq : req ∈ s.requests) : req.body.inst = i := by
  have hok := h.basic.requests req hreq
  obtain ⟨id, dst, body⟩ := req
  cases body with
  | prepare arg =>
    obtain ⟨t, ht, hti, -⟩ := hok
    exact hti.symm.trans (h.only t (List.mem_of_getElem? ht))
  | accept arg =>
    obtain ⟨q, hq, -, hqi, -⟩ := hok
    exact hqi.symm.trans (h.passed q hq)
  | decide arg =>
    obtain ⟨q, hq, -, hqi, -⟩ := hok
    -- a decision is sent for an attempt that has passed both tests
    obtain ⟨q', hq', -, hqi', -⟩ := (h.basic.won q hq).passed
    exact (hqi'.trans hqi).symm.trans (h.passed q' hq')

/-- The steps of such a run are fair to the instance. -/
theorem CoreInv.fair {i : ℕ} {s : System} (h : CoreInv members i s) {a : Act}
    (hok : NotCommitted i s a) : Fair 0 i s a := by
  cases a with
  | handle k =>
    intro req hreq
    have hinst := h.request (List.mem_of_getElem? hreq)
    obtain ⟨id, dst, body⟩ := req
    cases body with
    | prepare arg =>
      obtain rfl : arg.inst = i := hinst
      exact fun hlt _ => ⟨fun _ => ⟨Nat.zero_le _, hlt⟩, fun _ => rfl⟩
    | accept arg =>
      obtain rfl : arg.inst = i := hinst
      simp only [NotCommitted, hreq] at hok
      exact fun hge => ⟨fun _ => ⟨Nat.zero_le _, hok hge⟩, fun _ => rfl⟩
    | decide arg =>
      obtain rfl : arg.inst = i := hinst
      exact fun _ _ => le_rfl
  | receive p =>
    intro r hr _ _
    exact (h.only _ (List.mem_of_getElem? (h.basic.runs p r hr).attempt)).ge
  | begin p inst newv => trivial
  | call p => trivial
  | skip p => trivial
  | advance p => trivial
  | crash p => trivial

theorem core_step {i : ℕ} (s : System) (a : Act) (s' : System) (h : CoreInv members i s)
    (hok : CoreOk i s a) (hs : step members s a = some s') : CoreInv members i s' := by
  obtain ⟨honly, hbegin, hcommit⟩ := hok
  refine ⟨basic_step s a s' h.basic hbegin hs,
    inst_step h.basic h.inst hbegin (h.fair hcommit) hs, ?_⟩
  rcases attempts_step hs with heq | ⟨p, inst, newv, n, rfl, heq⟩
  · rw [heq]
    exact h.only
  · rw [heq]
    intro t ht
    rcases List.mem_append.mp ht with ht | ht
    · exact h.only t ht
    · rw [List.mem_singleton.mp ht]
      exact honly

/-! ## The core of the protocol -/

/-- An attempt numbered `n` has collected accept replies for `v` from a majority of the
nodes: it has passed the test, or it is still in the loop. The second is only true until the
proposer goes on or crashes; what holds for good are the votes behind the replies. -/
def Collected (members : ℕ → List Str) (s : System) (n : prop_t) (v : Str) : Prop :=
  (∃ w ∈ s.won, w.n = n ∧ w.v = v)
    ∨ ∃ p r, (s.nodes p).run = some r ∧ r.stage = .accept ∧ r.my_n = n ∧ r.v = v
        ∧ majority (members r.inst) r.accepts = true

/-- A majority has voted for `v` in the attempt numbered `n`. -/
def MajorityVoted (members : ℕ → List Str) (i : ℕ) (s : System) (n : prop_t) (v : Str) : Prop :=
  Synod.Chosen (fun S => majority (members i) S = true) (Vote i s.handled) n v

/-- The replies are votes. -/
theorem Collected.voted {i : ℕ} {s : System} (h : CoreInv members i s) {n : prop_t} {v : Str}
    (hc : Collected members s n v) : MajorityVoted members i s n v := by
  rcases hc with ⟨w, hw, rfl, rfl⟩ | ⟨p, r, hr, hstage, rfl, rfl, hmaj⟩
  · refine chosen_of_won h.basic hw ?_
    obtain ⟨q, hq, -, hqi, -⟩ := (h.basic.won w hw).passed
    exact hqi.symm.trans (h.passed q hq)
  · have hrun := h.basic.runs p r hr
    have hinst : r.inst = i := h.only _ (List.mem_of_getElem? hrun.attempt)
    have hst := hrun.stage
    simp only [StageOk, hstage] at hst
    obtain ⟨-, -, -, -, -, -, -, hvotes⟩ := hst
    exact ⟨r.accepts, hinst ▸ hmaj, hinst ▸ hvotes⟩

/-- Votes are not taken back: the requests that have been handled only become more, also
when the proposer that asked for them crashes. -/
theorem voted_step {i : ℕ} {s s' : System} {a : Act} {n : prop_t} {v : Str}
    (h : CoreInv members i s) (hok : CoreOk i s a) (hs : step members s a = some s')
    (hvoted : MajorityVoted members i s n v) : MajorityVoted members i s' n v := by
  obtain ⟨p, nd, hchange, -⟩ := change_step h.basic hok.2.1 hs
  obtain ⟨T, hmaj, hvotes⟩ := hvoted
  exact ⟨T, hmaj, fun a ha => Vote.grows hchange.grows (hvotes a ha)⟩

/-- **The core of single-instance Paxos.** In every run of one instance from clean
acceptors in which no number wraps to 0 and no accept request is taken up after the
commit: if at some point of the run (`s`) an attempt numbered `n` has collected a majority
for `v`, then every attempt with a higher number that passes the test after `prepare`,
before that point or after it, has the value `v` and sends it, whatever has become of the
proposer meanwhile; and no two attempts of one number pass that test. -/
theorem single_instance_core {i : ℕ} {nodes : Str → Node} (hclean : ∀ p, Clean i (nodes p))
    {acts later : List Act} {s s' : System}
    (hok : Steps.RunMeets (step members) (CoreOk i) (start nodes) (acts ++ later))
    (hrun : Steps.run (step members) (start nodes) acts = some s)
    (hlater : Steps.run (step members) s later = some s') :
    (∀ n v, Collected members s n v →
      (∀ q ∈ s'.passed, n < q.n → q.v = v)
        ∧ ∀ req ∈ s'.requests, ∀ a, req.body = .accept a → n < a.n → a.v = v)
      ∧ ∀ q ∈ s'.passed, ∀ q' ∈ s'.passed, q.n = q'.n → q.id = q'.id := by
  obtain ⟨hokActs, hokLater⟩ := Steps.runMeets_append hok hrun
  have hs : CoreInv members i s := Steps.run_inv core_step (CoreInv.start hclean) hokActs hrun
  have h : CoreInv members i s' := Steps.run_inv core_step hs hokLater hlater
  refine ⟨fun n v hc => ?_, fun q hq q' hq' hn => ?_⟩
  · -- the votes of that point are still there at the end
    have hvoted : CoreInv members i s' ∧ MajorityVoted members i s' n v :=
      Steps.run_inv (P := fun s => CoreInv members i s ∧ MajorityVoted members i s n v)
        (fun s a s' hand hok hstep =>
          ⟨core_step s a s' hand.1 hok hstep, voted_step hand.1 hok hstep hand.2⟩)
        ⟨hs, hc.voted hs⟩ hokLater hlater
    have hpassed : ∀ q ∈ s'.passed, n < q.n → q.v = v := fun q hq hlt =>
      (sound h.basic h.inst).later_same hvoted.2
        (mem_rounds.mpr ⟨q, hq, h.passed q hq, rfl⟩) hlt
    refine ⟨hpassed, fun req hreq a hbody hlt => ?_⟩
    -- the value of an accept request is that of the record it was sent for
    have hreqok := h.basic.requests req hreq
    simp only [RequestOk, hbody] at hreqok
    obtain ⟨q, hq, -, -, hqn, hqv, -⟩ := hreqok
    rw [← hqv]
    exact hpassed q hq (hqn ▸ hlt)
  · rw [passed_unique h.basic h.inst hq hq' (h.passed q hq) (h.passed q' hq') hn]

/-! ## A run that meets the conditions -/

/-- A node on an empty log. -/
def fresh (p : Str) : Node := ⟨.blank p [], ⟨0, p⟩, none⟩

theorem clean_fresh {i : ℕ} (hi : 0 < i) (p : Str) : Clean i (fresh p) :=
  ⟨durable_blank p, hi, rfl, rfl, rfl, rfl⟩

/-- The proposer of `p` makes call `k`, which is handled at once and answered. -/
def visit (p : Str) (k : ℕ) : List Act := [.call p, .handle k, .receive p]

def threeNodes (_ : ℕ) : List Str := [['1'], ['2'], ['3']]

/-- Node 1 gets `x` accepted by nodes 1 and 2, and is about to count the replies. -/
def collecting : List Act :=
  [Act.begin ['1'] 1 ['x']] ++ visit ['1'] 0 ++ visit ['1'] 1 ++ [Act.skip ['1'], Act.advance ['1']]
    ++ visit ['1'] 2 ++ visit ['1'] 3

/-- It crashes instead; then node 3 tries `y` with nodes 2 and 3. -/
def crashed : List Act :=
  [Act.crash ['1'], Act.begin ['3'] 1 ['y'], Act.skip ['3']] ++ visit ['3'] 4 ++ visit ['3'] 5
    ++ [Act.advance ['3']]

/-- Nobody has counted the majority of node 1, and still node 3 takes over its value. -/
theorem single_instance_core_crashed :
    ∃ s s', Steps.run (step threeNodes) (start fresh) collecting = some s
      ∧ Steps.run (step threeNodes) s crashed = some s'
      ∧ s'.won = [] ∧ s'.passed.map (·.n) = [⟨1, ['1']⟩, ⟨1, ['3']⟩]
      ∧ ∀ q ∈ s'.passed, q.n = ⟨1, ['3']⟩ → q.v = ['x'] := by
  have hex : (Steps.run (step threeNodes) (start fresh) collecting).bind (fun s =>
      (Steps.run (step threeNodes) s crashed).map fun s' =>
        ((s.nodes ['1']).run.map fun r =>
            (r.stage, r.my_n, r.v, majority (threeNodes r.inst) r.accepts),
          s'.won, s'.passed.map (·.n)))
      = some (some (.accept, ⟨1, ['1']⟩, ['x'], true), [], [⟨1, ['1']⟩, ⟨1, ['3']⟩]) := by
    rfl
  have hok : Steps.RunMeets (step threeNodes) (CoreOk 1) (start fresh) (collecting ++ crashed) := by
    decide
  obtain ⟨s, s', hs, hs', hf⟩ := Steps.exists_run_run hex
  simp only [Prod.mk.injEq] at hf
  obtain ⟨hrun, hwon, hpassed⟩ := hf
  obtain ⟨r, hr, hfields⟩ := Option.map_eq_some_iff.mp hrun
  simp only [Prod.mk.injEq] at hfields
  obtain ⟨hstage, hn, hv, hmaj⟩ := hfields
  refine ⟨s, s', hs, hs', hwon, hpassed, fun q hq hqn => ?_⟩
  have hc : Collected threeNodes s ⟨1, ['1']⟩ ['x'] :=
    .inr ⟨['1'], r, hr, hstage, hn, hv, hmaj⟩
  refine ((single_instance_core (clean_fresh Nat.one_pos) hok hs hs').1 _ _ hc).1 q hq ?_
  rw [hqn]
  decide

/-! ## Runs that do not -/

def fiveNodes (_ : ℕ) : List Str := [['1'], ['2'], ['3'], ['4'], ['5']]

def idleAttempts : ℕ → List Attempt
  | 0 => []
  | k + 1 => idleAttempts k ++ [⟨['4'], 1, ⟨k + 1, ['4']⟩⟩]

/-- Node 4 has made `k` attempts that reached nobody. -/
def idle (k : ℕ) : System :=
  ⟨Function.update fresh ['4'] { fresh ['4'] with my_n := ⟨k, ['4']⟩ },
    [], [], idleAttempts k, [], []⟩

/-- An attempt that reaches nobody. -/
def idleAttempt : List Act :=
  [.begin ['4'] 1 ['x'], .skip ['4'], .skip ['4'], .skip ['4'], .skip ['4'], .skip ['4'],
    .advance ['4']]

theorem setn_idle {k : ℕ} (hk : k + 1 < 2 ^ 32) : setn 0 k = k + 1 := by
  unfold setn
  split <;> omega

theorem idle_attempt {k : ℕ} (hk : k + 1 < 2 ^ 32) :
    Steps.run (step fiveNodes) (idle k) idleAttempt = some (idle (k + 1)) := by
  have hset : setn (fresh ['4']).acc.n_h.n k = k + 1 := setn_idle hk
  have hrun : (fresh ['4']).run = none := rfl
  simp [idleAttempt, Steps.run, step, idle, System.setRun, System.set, Run.next, fiveNodes,
    hset, hrun, advance, majority, isamember, idleAttempts]

/-- After any number of attempts below 2^32. -/
theorem idle_run {k : ℕ} (hk : k < 2 ^ 32) :
    ∃ acts, (∀ a ∈ acts, OnlyInstance 1 a)
      ∧ Steps.run (step fiveNodes) (start fresh) acts = some (idle k) := by
  induction k with
  | zero =>
    refine ⟨[], nofun, ?_⟩
    rw [Steps.run_nil, idle, start, idleAttempts]
    congr
    exact (Function.update_eq_self ['4'] fresh).symm
  | succ k ih =>
    obtain ⟨acts, honly, hrun⟩ := ih (by omega)
    refine ⟨acts ++ idleAttempt, ?_, ?_⟩
    · have hidle : ∀ a ∈ idleAttempt, OnlyInstance 1 a := by decide
      intro a ha
      exact (List.mem_append.mp ha).elim (honly a) (hidle a)
    · simp only [Steps.run_append, hrun, Option.bind_some, idle_attempt hk]

/-- Node 4 is one attempt before its number wraps. Its next attempt reaches only its own
acceptor; the one after has the number 0 and gets `x` accepted by nodes 1, 2 and 3.
Then node 1 asks nodes 1, 2 and 5. -/
def wrap : List Act :=
  [Act.begin ['4'] 1 ['x'], Act.skip ['4'], Act.skip ['4'], Act.skip ['4']] ++ visit ['4'] 0
    ++ [Act.skip ['4'], Act.advance ['4']]
    ++ [Act.begin ['4'] 1 ['x']] ++ visit ['4'] 1 ++ visit ['4'] 2 ++ visit ['4'] 3
    ++ [Act.skip ['4'], Act.skip ['4'], Act.advance ['4']]
    ++ visit ['4'] 4 ++ visit ['4'] 5 ++ visit ['4'] 6 ++ [Act.advance ['4']]
    ++ [Act.begin ['1'] 1 ['y']] ++ visit ['1'] 7 ++ visit ['1'] 8
    ++ [Act.skip ['1'], Act.skip ['1']] ++ visit ['1'] 9 ++ [Act.advance ['1']]

theorem wrap_run :
    (Steps.run (step fiveNodes) (idle (2 ^ 32 - 2)) wrap).map
      (fun s => (s.won.map (fun w => (w.n, w.v)), s.passed.map (fun q => (q.n, q.v))))
        = some ([(⟨0, ['4']⟩, ['x'])], [(⟨0, ['4']⟩, ['x']), (⟨1, ['1']⟩, ['y'])])
      ∧ ∀ a ∈ wrap, OnlyInstance 1 a := by
  decide

/-- Node 1 asks for promises and starts to send accept requests; node 2 passes it, and
all nodes commit `y`; then the accept requests of node 1 arrive. -/
def afterCommit : List Act :=
  [Act.begin ['1'] 1 ['x']] ++ visit ['1'] 0 ++ visit ['1'] 1 ++ visit ['1'] 2
    ++ [Act.advance ['1']]
    ++ [Act.begin ['2'] 1 ['y']] ++ visit ['2'] 3 ++ visit ['2'] 4 ++ visit ['2'] 5
    ++ [Act.advance ['2']]
    ++ visit ['2'] 6 ++ visit ['2'] 7 ++ visit ['2'] 8 ++ [Act.advance ['2']]
    ++ visit ['2'] 9 ++ visit ['2'] 10 ++ visit ['2'] 11 ++ [Act.advance ['2']]
    ++ visit ['1'] 12 ++ visit ['1'] 13 ++ visit ['1'] 14 ++ [Act.advance ['1']]

theorem afterCommit_run :
    (Steps.run (step threeNodes) (start fresh) afterCommit).map
      (fun s => (s.won.map (fun w => (w.n, w.v)), s.passed.map (fun q => (q.n, q.v))))
        = some ([(⟨2, ['2']⟩, ['y']), (⟨1, ['1']⟩, ['x'])],
            [(⟨1, ['1']⟩, ['x']), (⟨2, ['2']⟩, ['y'])])
      ∧ ∀ a ∈ afterCommit, OnlyInstance 1 a := by
  decide

/-- A majority was collected for one value, and a higher attempt went on with another. -/
def Conflict (members : ℕ → List Str) (s : System) : Prop :=
  ∃ n v, Collected members s n v ∧ ∃ q ∈ s.passed, n < q.n ∧ q.v ≠ v

theorem conflict_of_mem {s : System} {wons passeds : List (prop_t × Str)}
    (h : (s.won.map (fun w => (w.n, w.v)), s.passed.map (fun q => (q.n, q.v))) = (wons, passeds))
    {n n' : prop_t} {v v' : Str} (hw : (n, v) ∈ wons) (hq : (n', v') ∈ passeds) (hn : n < n')
    (hv : v' ≠ v) : Conflict members s := by
  rw [Prod.mk.injEq] at h
  rw [← h.1] at hw
  rw [← h.2] at hq
  obtain ⟨w, hmem, heq⟩ := List.mem_map.mp hw
  obtain ⟨q, hmem', heq'⟩ := List.mem_map.mp hq
  cases heq
  cases heq'
  exact ⟨w.n, w.v, .inl ⟨w, hmem, rfl, rfl⟩, q, hmem', hn, hv⟩

/-- **Both conditions are needed**: from nodes on empty logs, one run in which a number
wraps to 0 and nobody commits anything, and one without a wrap in which accept
requests arrive after the commit. -/
theorem core_fails :
    (∃ acts s, (∀ a ∈ acts, OnlyInstance 1 a)
        ∧ Steps.run (step fiveNodes) (start fresh) acts = some s ∧ Conflict fiveNodes s)
      ∧ ∃ s, (∀ a ∈ afterCommit, OnlyInstance 1 a)
        ∧ Steps.run (step threeNodes) (start fresh) afterCommit = some s
        ∧ Conflict threeNodes s := by
  refine ⟨?_, ?_⟩
  · obtain ⟨acts, honly, hidle⟩ := idle_run (k := 2 ^ 32 - 2) (by decide)
    obtain ⟨s, hs, hf⟩ := Steps.exists_run wrap_run.1
    refine ⟨acts ++ wrap, s, fun a ha => ?_, ?_, ?_⟩
    · exact (List.mem_append.mp ha).elim (honly a) (wrap_run.2 a)
    -- the idle attempts are not evaluated: only the state they lead to counts
    · rw [Steps.run_append, hidle, Option.bind_some]
      exact hs
    · exact conflict_of_mem hf (.head _) (.tail _ (.head _)) (by decide) (by decide)
  · obtain ⟨s, hs, hf⟩ := Steps.exists_run afterCommit_run.1
    refine ⟨s, afterCommit_run.2, hs, ?_⟩
    exact conflict_of_mem hf (.tail _ (.head _)) (.tail _ (.head _)) (by decide) (by decide)

end Yfs.PaxosCore
