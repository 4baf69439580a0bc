/-
The proposer (`paxos.cc`) and the system of all nodes.

A node has an acceptor and a proposer. `proposer::run` sends its requests one after
the other: it waits for the reply of one node, or for a timeout, before it calls the
next, and it keeps what it has learnt in local variables. So a run is a small state
machine: the phase, the nodes still to be called, the call that is waited for, and
the locals `accepts`, `v` and `highest`.

A request that was sent may be handled at once, late, after its sender has given up,
or never, and at most once. A reply reaches the proposer only while it waits for that
call. A node may crash at any time; its acceptor comes back from its log and its
proposer with `my_n.n = 0`. A node on which a `VERIFY` fails crashes.
-/
import Yfs.PaxosDurable

set_option autoImplicit false

namespace Yfs.PaxosProposer

open Text Yfs.PaxosAcceptor Yfs.PaxosLog Yfs.PaxosDurable

/-! ## Functions of the proposer -/

def isamember (m : Str) (nodes : List Str) : Bool := nodes.any (· == m)

/-- Does `l2` contain a majority of the servers in `l1`? -/
def majority (l1 l2 : List Str) : Bool :=
  decide (l1.countP (isamember · l2) ≥ l1.length / 2 + 1)

theorem isamember_iff {m : Str} {nodes : List Str} : isamember m nodes = true ↔ m ∈ nodes := by
  rw [isamember, List.any_eq_true]
  refine ⟨?_, fun h => ⟨m, h, beq_self_eq_true m⟩⟩
  rintro ⟨x, hx, heq⟩
  rwa [← beq_iff_eq.mp heq]

/-- `setn`, in `unsigned` arithmetic. -/
def setn (n_h my_n : ℕ) : ℕ :=
  if (n_h + 1) % 2 ^ 32 > (my_n + 1) % 2 ^ 32 then (n_h + 1) % 2 ^ 32 else (my_n + 1) % 2 ^ 32

/-! ## Messages -/

inductive Body where
  | prepare (a : preparearg)
  | accept (a : acceptarg)
  | decide (a : decidearg)
  deriving DecidableEq, Repr

/-- The instance a request names. -/
def Body.inst : Body → ℕ
  | .prepare a => a.inst
  | .accept a => a.inst
  | .decide a => a.inst

/-- A request, with the attempt it belongs to. -/
structure Request where
  id : ℕ
  dst : Str
  body : Body
  deriving DecidableEq, Repr

inductive Response where
  | prepare (r : prepareres)
  | accept (r : Bool)
  | decide
  /-- The handler did not return. -/
  | aborted
  deriving DecidableEq, Repr

/-- A request that was handled: the call, and what the acceptor answered. -/
structure Handled where
  call : ℕ
  req : Request
  res : Response
  deriving DecidableEq, Repr

/-! ## Runs of the proposer -/

inductive Stage where
  | prepare | accept | decide
  deriving DecidableEq, Repr

/-- `proposer::run` under way. -/
structure Run where
  id : ℕ
  inst : ℕ
  newv : Str
  my_n : prop_t
  stage : Stage
  /-- The nodes the loop has still to visit. -/
  todo : List Str
  /-- The call to the first of them, when it has been made. -/
  wait : Option ℕ
  accepts : List Str
  v : Str
  /-- `highest`, when `inited`. -/
  highest : Option prop_t
  deriving DecidableEq, Repr

/-- The request of the current phase. -/
def Run.body (r : Run) : Body :=
  match r.stage with
  | .prepare => .prepare ⟨r.inst, r.my_n⟩
  | .accept => .accept ⟨r.inst, r.my_n, r.v⟩
  | .decide => .decide ⟨r.inst, r.v⟩

/-- The loop goes to the next node. -/
def Run.next (r : Run) : Run := { r with todo := r.todo.tail, wait := none }

/-- The body of the loop of `prepare` for a reply that accepts. -/
def Run.promised (r : Run) (t : Str) (res : prepareres) : Run :=
  match r.highest with
  -- the first reply is taken whatever it reports
  | none => { r with v := res.v_a, highest := some res.n_a, accepts := r.accepts ++ [t] }
  | some highest =>
    if prop_gt res.n_a highest then
      { r with v := res.v_a, highest := some res.n_a, accepts := r.accepts ++ [t] }
    else { r with accepts := r.accepts ++ [t] }

/-- What the proposer does with the reply of node `t`; `error`: the instance is old,
commit this value and give up. -/
def Run.reply (r : Run) (t : Str) : Response → Except Str Run
  | .prepare res =>
    if res.oldinstance then .error res.v_a
    else if res.accept then .ok (r.promised t res).next
    else .ok r.next
  | .accept true => .ok { r.next with accepts := r.accepts ++ [t] }
  | _ => .ok r.next

/-! ## The system -/

structure Node where
  acc : acceptor
  my_n : prop_t
  run : Option Run

/-- An attempt: a call of `proposer::run`. -/
structure Attempt where
  node : Str
  inst : ℕ
  n : prop_t
  deriving DecidableEq, Repr

/-- An attempt that has passed a majority test, with the nodes that counted. -/
structure Passed where
  id : ℕ
  inst : ℕ
  n : prop_t
  v : Str
  nodes : List Str
  deriving DecidableEq, Repr

structure System where
  nodes : Str → Node
  /-- Every request sent; a call is a position in it. -/
  requests : List Request
  handled : List Handled
  attempts : List Attempt
  /-- The attempts that have passed the test after `prepare`. -/
  passed : List Passed
  /-- The attempts that have passed the test after `accept`. -/
  won : List Passed

/-- Before anything was tried. -/
def start (nodes : Str → Node) : System := ⟨nodes, [], [], [], [], []⟩

inductive Act where
  /-- `run(inst, members inst, newv)` on node `p`. -/
  | begin (p : Str) (inst : ℕ) (newv : Str)
  /-- The proposer calls the next node. -/
  | call (p : Str)
  /-- The next node cannot be bound, or its reply takes too long. -/
  | skip (p : Str)
  /-- The reply arrives. -/
  | receive (p : Str)
  /-- The loop is over: the next phase, or the end of the run. -/
  | advance (p : Str)
  /-- Call `k` is handled at its destination. -/
  | handle (k : ℕ)
  | crash (p : Str)
  deriving DecidableEq, Repr

/-- Replace the state of node `p`. -/
def System.set (s : System) (p : Str) (nd : Node) : System :=
  { s with nodes := Function.update s.nodes p nd }

def System.setRun (s : System) (p : Str) (r : Option Run) : System :=
  s.set p { s.nodes p with run := r }

/-- The node after a crash: `none` when its log cannot be read. -/
def Node.restart (nd : Node) : Option Node :=
  (logread (.blank nd.acc.me nd.acc.log)).map fun acc => ⟨acc, ⟨0, nd.my_n.m⟩, none⟩

/-- The end of a loop. -/
def advance (members : ℕ → List Str) (s : System) (p : Str) (r : Run) : System :=
  match r.stage with
  | .prepare =>
    if majority (members r.inst) r.accepts then
      -- nobody has reported a value: the proposer is free to choose
      let v := if r.v = [] then r.newv else r.v
      { s.setRun p (some { r with stage := .accept, v := v, todo := r.accepts, accepts := [] }) with
        passed := s.passed ++ [⟨r.id, r.inst, r.my_n, v, r.accepts⟩] }
    else s.setRun p none
  | .accept =>
    if majority (members r.inst) r.accepts then
      { s.setRun p (some { r with stage := .decide, todo := r.accepts, accepts := [] }) with
        won := s.won ++ [⟨r.id, r.inst, r.my_n, r.v, r.accepts⟩] }
    else s.setRun p none
  | .decide => s.setRun p none

/-- The answer of an acceptor, and the acceptor after it; `none`: it aborts. -/
def answer (acc : acceptor) : Body → Option (Response × acceptor)
  | .prepare a => some (.prepare (preparereq acc a).1, (preparereq acc a).2)
  | .accept a => some (.accept (acceptreq acc a).1, (acceptreq acc a).2)
  | .decide a => (decidereq acc a).map fun acc' => (.decide, acc')

/-- Call `k` is handled at its destination. -/
def handle (s : System) (k : ℕ) (req : Request) : Option System :=
  let nd := s.nodes req.dst
  match answer nd.acc req.body with
  | some (res, acc) =>
    some { s.set req.dst { nd with acc := acc } with handled := s.handled ++ [⟨k, req, res⟩] }
  -- a `VERIFY` has failed: the node comes back from its log
  | none => nd.restart.map fun nd' =>
    { s.set req.dst nd' with handled := s.handled ++ [⟨k, req, .aborted⟩] }

/-- One step; `members` is the list of nodes every proposer of an instance uses. -/
def step (members : ℕ → List Str) (s : System) : Act → Option System
  | .begin p inst newv =>
    let nd := s.nodes p
    -- one run at a time; an instance is an `unsigned`, and no view is the empty text
    if nd.run = none ∧ inst < 2 ^ 32 ∧ newv ≠ [] then
      let my_n : prop_t := ⟨setn nd.acc.n_h.n nd.my_n.n, p⟩
      let r : Run :=
        ⟨s.attempts.length, inst, newv, my_n, .prepare, members inst, none, [], [], none⟩
      some { s.set p { nd with my_n := my_n, run := some r } with
        attempts := s.attempts ++ [⟨p, inst, my_n⟩] }
    else none
  | .call p =>
    match (s.nodes p).run with
    | some r =>
      match r.todo, r.wait with
      | t :: _, none =>
        some { s.setRun p (some { r with wait := some s.requests.length }) with
          requests := s.requests ++ [⟨r.id, t, r.body⟩] }
      | _, _ => none
    | none => none
  | .skip p =>
    match (s.nodes p).run with
    | some r => if r.todo = [] then none else some (s.setRun p (some r.next))
    | none => none
  | .receive p =>
    match (s.nodes p).run with
    | some r =>
      match r.todo, s.handled.find? (fun h => r.wait == some h.call) with
      | t :: _, some h =>
        if h.res = .aborted then none
        else
          match r.reply t h.res with
          | .ok r' => some (s.setRun p (some r'))
          | .error v => some (s.set p
              { s.nodes p with acc := commit (s.nodes p).acc r.inst v, run := none })
      | _, _ => none
    | none => none
  | .advance p =>
    match (s.nodes p).run with
    | some r => if r.todo = [] then some (advance members s p r) else none
    | none => none
  | .handle k =>
    match s.requests[k]? with
    | some req => if s.handled.any (·.call == k) then none else handle s k req
    | none => none
  | .crash p => (s.nodes p).restart.map fun nd => s.set p nd

/-! ## What a step does -/

/-- **What a step does**, with one case for each way to go on. Every property of runs is
proved over these cases, so that `step` is taken apart only once. -/
inductive Moves (members : ℕ → List Str) (s : System) : Act → System → Prop where
  | begin (p : Str) (inst : ℕ) (newv : Str) (idle : (s.nodes p).run = none)
      (small : inst < 2 ^ 32) (value : newv ≠ []) :
      Moves members s (.begin p inst newv)
        { s.set p { s.nodes p with
            my_n := ⟨setn (s.nodes p).acc.n_h.n (s.nodes p).my_n.n, p⟩
            run := some ⟨s.attempts.length, inst, newv,
              ⟨setn (s.nodes p).acc.n_h.n (s.nodes p).my_n.n, p⟩, .prepare, members inst, none,
              [], [], none⟩ } with
          attempts := s.attempts
            ++ [⟨p, inst, ⟨setn (s.nodes p).acc.n_h.n (s.nodes p).my_n.n, p⟩⟩] }
  | call (p x : Str) (r : Run) (rest : List Str) (run : (s.nodes p).run = some r)
      (todo : r.todo = x :: rest) (wait : r.wait = none) :
      Moves members s (.call p)
        { s.setRun p (some { r with wait := some s.requests.length }) with
          requests := s.requests ++ [⟨r.id, x, r.body⟩] }
  | skip (p : Str) (r : Run) (run : (s.nodes p).run = some r) (todo : r.todo ≠ []) :
      Moves members s (.skip p) (s.setRun p (some r.next))
  | reply (p x : Str) (r r' : Run) (rest : List Str) (e : Handled)
      (run : (s.nodes p).run = some r) (todo : r.todo = x :: rest)
      (found : s.handled.find? (fun h => r.wait == some h.call) = some e)
      (ok : r.reply x e.res = .ok r') :
      Moves members s (.receive p) (s.setRun p (some r'))
  | old (p x : Str) (r : Run) (rest : List Str) (e : Handled) (v : Str)
      (run : (s.nodes p).run = some r) (todo : r.todo = x :: rest)
      (found : s.handled.find? (fun h => r.wait == some h.call) = some e)
      (error : r.reply x e.res = .error v) :
      Moves members s (.receive p)
        (s.set p { s.nodes p with acc := commit (s.nodes p).acc r.inst v, run := none })
  | advance (p : Str) (r : Run) (run : (s.nodes p).run = some r) (todo : r.todo = []) :
      Moves members s (.advance p) (PaxosProposer.advance members s p r)
  | answer (j : ℕ) (req : Request) (res : Response) (acc : acceptor)
      (sent : s.requests[j]? = some req) (fresh : s.handled.any (·.call == j) = false)
      (answer : answer (s.nodes req.dst).acc req.body = some (res, acc)) :
      Moves members s (.handle j)
        { s.set req.dst { s.nodes req.dst with acc := acc } with
          handled := s.handled ++ [⟨j, req, res⟩] }
  | abort (j : ℕ) (req : Request) (nd : Node) (sent : s.requests[j]? = some req)
      (fresh : s.handled.any (·.call == j) = false)
      (answer : answer (s.nodes req.dst).acc req.body = none)
      (restart : (s.nodes req.dst).restart = some nd) :
      Moves members s (.handle j)
        { s.set req.dst nd with handled := s.handled ++ [⟨j, req, .aborted⟩] }
  | crash (p : Str) (nd : Node) (restart : (s.nodes p).restart = some nd) :
      Moves members s (.crash p) (s.set p nd)

theorem moves_of_step {members : ℕ → List Str} {s s' : System} {a : Act}
    (hs : step members s a = some s') : Moves members s a s' := by
  cases a with
  | begin p inst newv =>
    simp only [step] at hs
    split at hs
    · next hc =>
      cases hs
      exact .begin p inst newv hc.1 hc.2.1 hc.2.2
    · cases hs
  | call p =>
    simp only [step] at hs
    split at hs
    · next r hr =>
      split at hs
      · next x rest htodo hwait =>
        cases hs
        exact .call p x r rest hr htodo hwait
      · cases hs
    · cases hs
  | skip p =>
    simp only [step] at hs
    split at hs
    · next r hr =>
      split at hs
      · cases hs
      · next htodo =>
        cases hs
        exact .skip p r hr htodo
    · cases hs
  | receive p =>
    simp only [step] at hs
    split at hs
    · next r hr =>
      split at hs
      · next x rest e htodo hfound =>
        split at hs
        · cases hs
        · split at hs
          · next r' hok =>
            cases hs
            exact .reply p x r r' rest e hr htodo hfound hok
          · next v herror =>
            cases hs
            exact .old p x r rest e v hr htodo hfound herror
      · cases hs
    · cases hs
  | advance p =>
    simp only [step] at hs
    split at hs
    · next r hr =>
      split at hs
      · next htodo =>
        cases hs
        exact .advance p r hr htodo
      · cases hs
    · cases hs
  | handle j =>
    simp only [step] at hs
    split at hs
    · next req hsent =>
      split at hs
      · cases hs
      · next hfresh =>
        have hfresh := Bool.eq_false_iff.mpr hfresh
        simp only [handle] at hs
        split at hs
        · next res acc hanswer =>
          cases hs
          exact .answer j req res acc hsent hfresh hanswer
        · next hanswer =>
          obtain ⟨nd, hrestart, rfl⟩ := Option.map_eq_some_iff.mp hs
          exact .abort j req nd hsent hfresh hanswer hrestart
    · cases hs
  | crash p =>
    obtain ⟨nd, hrestart, rfl⟩ := Option.map_eq_some_iff.mp hs
    exact .crash p nd hrestart

/-- What a promise does to a run: the node is counted, and the value may be that of the
promise. -/
theorem Run.promised_fields (r : Run) (t : Str) (res : prepareres) :
    (r.promised t res).id = r.id ∧ (r.promised t res).inst = r.inst
      ∧ (r.promised t res).newv = r.newv ∧ (r.promised t res).my_n = r.my_n
      ∧ (r.promised t res).stage = r.stage ∧ (r.promised t res).todo = r.todo
      ∧ (r.promised t res).accepts = r.accepts ++ [t]
      ∧ ((r.promised t res).v = r.v ∨ (r.promised t res).v = res.v_a) := by
  unfold Run.promised
  split
  · exact ⟨rfl, rfl, rfl, rfl, rfl, rfl, rfl, .inr rfl⟩
  · split
    · exact ⟨rfl, rfl, rfl, rfl, rfl, rfl, rfl, .inr rfl⟩
    · exact ⟨rfl, rfl, rfl, rfl, rfl, rfl, rfl, .inl rfl⟩

/-- The end of a loop replaces the run of the proposer and adds to the records; the run that
follows, if any, is at the same instance and waits for nothing new. -/
theorem advance_eq (members : ℕ → List Str) (s : System) (p : Str) (r : Run) :
    ∃ o ps ws, advance members s p r
        = { s.setRun p o with passed := s.passed ++ ps, won := s.won ++ ws }
      ∧ ∀ r' ∈ o, r'.inst = r.inst ∧ r'.wait = r.wait := by
  have hnone : ∃ o ps ws, s.setRun p none
        = { s.setRun p o with passed := s.passed ++ ps, won := s.won ++ ws }
      ∧ ∀ r' ∈ o, r'.inst = r.inst ∧ r'.wait = r.wait :=
    ⟨none, [], [], by simp only [List.append_nil]; rfl, fun r' hr' => by cases hr'⟩
  unfold advance
  split
  · split
    · refine ⟨_, [_], [], by rw [List.append_nil]; rfl, fun r' hr' => ?_⟩
      cases hr'
      exact ⟨rfl, rfl⟩
    · exact hnone
  · split
    · refine ⟨_, [], [_], by rw [List.append_nil]; rfl, fun r' hr' => ?_⟩
      cases hr'
      exact ⟨rfl, rfl⟩
    · exact hnone
  · exact hnone

end Yfs.PaxosProposer
