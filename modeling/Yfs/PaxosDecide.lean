/-
The assertions of `decidereq` (`paxos.cc`).

A decision for the next instance must find the decided value in `v_a`, and a decision
for a later one must not come at all: otherwise a `VERIFY` fails and the node dies.
Decisions are sent only to acceptors that have accepted, so both hold as long as an
acceptor accepts for the instance it is in. It need not be: an acceptor that has missed
a decision still promises and accepts for later instances, and `acceptreq` takes up a
request of an instance that is over.
-/
import Yfs.PaxosCore

set_option autoImplicit false

namespace Yfs.PaxosDecide

open Text Yfs.PaxosAcceptor Yfs.PaxosLog Yfs.PaxosDurable Yfs.PaxosProposer Yfs.PaxosHistory
  Yfs.PaxosRuns Yfs.PaxosInstance Yfs.PaxosCore

variable {members : ℕ → List Str}

/-! ## The condition -/

/-- A node that has accepted nothing in the instance it is in and runs no proposer. -/
structure Idle (nd : Node) : Prop where
  durable : Durable nd.acc
  n_a : nd.acc.n_a.n = 0
  v_a : nd.acc.v_a = []
  run : nd.run = none

def DecideOk (s : System) (a : Act) : Prop := BeginOk s a ∧ TakesInTurn s a

instance (s : System) (a : Act) : Decidable (TakesInTurn s a) := by
  unfold TakesInTurn
  match a with
  | .handle k =>
    dsimp only
    match s.requests[k]? with
    | some ⟨_, _, .prepare _⟩ => dsimp only; infer_instance
    | some ⟨_, _, .accept _⟩ => dsimp only; infer_instance
    | some ⟨_, _, .decide _⟩ | none => exact instDecidableTrue
  | .begin .. | .call _ | .skip _ | .receive _ | .advance _ | .crash _ =>
    exact instDecidableTrue

instance (s : System) (a : Act) : Decidable (DecideOk s a) :=
  inferInstanceAs (Decidable (_ ∧ _))

/-! ## The invariant -/

/-- Every instance is in order. No window belongs to instance 0, so nobody has accepted
anything for it. -/
structure DecideInv (members : ℕ → List Str) (s : System) : Prop where
  basic : Basic members s
  inst : ∀ j, Inst j (j + 1) s
  zero : ∀ lo, Inst lo 0 s

theorem DecideInv.start {nodes : Str → Node} (h : ∀ p, Idle (nodes p)) :
    DecideInv members (start nodes) := by
  refine ⟨basic_start (fun p => (h p).durable) fun p => (h p).run, fun j => ?_, fun lo => ?_⟩
  · exact inst_start fun p _ => ⟨(h p).n_a, (h p).v_a⟩
  · exact inst_start fun p _ => ⟨(h p).n_a, (h p).v_a⟩

theorem decide_step (s : System) (a : Act) (s' : System) (h : DecideInv members s)
    (hok : DecideOk s a) (hs : step members s a = some s') : DecideInv members s' := by
  obtain ⟨hbegin, hturn⟩ := hok
  refine ⟨basic_step s a s' h.basic hbegin hs, fun j => ?_, fun lo => ?_⟩
  · exact inst_step h.basic (h.inst j) hbegin (fair_of_takesInTurn hturn (.inl rfl)) hs
  · exact inst_step h.basic (h.zero lo) hbegin (fair_of_takesInTurn hturn (.inr rfl)) hs

/-! ## A decision finds its vote -/

/-- Where a decision is sent, its value was accepted. -/
theorem DecideInv.vote {s : System} (h : DecideInv members s) {id : ℕ} {dst : Str}
    {a : decidearg} (hreq : (⟨id, dst, .decide a⟩ : Request) ∈ s.requests) :
    ∃ n, Vote a.inst s.handled dst n a.v
      ∧ Synod.Chosen (fun S => majority (members a.inst) S = true)
        (Vote a.inst s.handled) n a.v := by
  obtain ⟨q, hq, -, hqi, hqv, hdst⟩ := h.basic.requests _ hreq
  rw [← hqi, ← hqv]
  exact ⟨q.n, (h.basic.won q hq).votes dst hdst, chosen_of_won h.basic hq rfl⟩

/-- Nobody has voted in instance 0. -/
theorem DecideInv.inst_pos {s : System} (h : DecideInv members s) {i : ℕ} {p : Str} {n : prop_t}
    {v : Str} (hvote : Vote i s.handled p n v) : 1 ≤ i := by
  by_contra hi
  obtain rfl : i = 0 := by omega
  have hlo := (((h.zero ((s.nodes p).acc.instance_h + 1)).acceptors p).voted n v hvote).1
  omega

/-- **What a decision finds**: an acceptor that has gone past its instance, or one that
is in the instance and still holds the decided value. -/
theorem DecideInv.decide_found {s : System} (h : DecideInv members s) {id : ℕ} {dst : Str}
    {a : decidearg} (hreq : (⟨id, dst, .decide a⟩ : Request) ∈ s.requests) :
    a.inst ≤ (s.nodes dst).acc.instance_h
      ∨ (a.inst = (s.nodes dst).acc.instance_h + 1 ∧ (s.nodes dst).acc.v_a = a.v) := by
  obtain ⟨n, hvote, hchosen⟩ := h.vote hreq
  obtain ⟨j, hj⟩ : ∃ j, a.inst = j + 1 := ⟨a.inst - 1, by have := h.inst_pos hvote; omega⟩
  rw [hj] at hvote hchosen ⊢
  have hacc := (h.inst j).acceptors dst
  obtain ⟨hlo, hle⟩ := hacc.voted n a.v hvote
  by_cases hlive : (s.nodes dst).acc.instance_h < j + 1
  · refine .inr ⟨by omega, ?_⟩
    -- the last vote of the acceptor in the instance is not below the chosen one
    rcases hacc.live ⟨hlo, hlive⟩ with ⟨-, -, hno⟩ | ⟨-, hlast, -⟩
    · exact absurd hvote (hno n a.v)
    · exact (sound h.basic (h.inst j)).vote_same hchosen (hle hlive) hlast
  · exact .inl (by omega)

/-- An acceptor that replays from its log is in an instance below 2^32. -/
theorem replay_instance_lt {x : acceptor} (hx : x.instance_h < 2 ^ 32) {recs : List Record}
    (hwf : ∀ r ∈ recs, r.Wf) : (replay x recs).instance_h < 2 ^ 32 := by
  induction recs generalizing x with
  | nil => exact hx
  | cons r recs ih =>
    refine ih ?_ fun r' hr' => hwf r' (List.mem_cons_of_mem _ hr')
    have hr := hwf r List.mem_cons_self
    cases r with
    | done i v => exact hr.1
    | propseen n => exact hx
    | accepted n v => exact hx

theorem instance_lt {acc : acceptor} (h : Durable acc) : acc.instance_h < 2 ^ 32 := by
  obtain ⟨recs, hwf, -, hag⟩ := h
  rw [← hag.instance_h]
  exact replay_instance_lt (Nat.two_pow_pos 32) hwf

/-- **No assertion of `decidereq` fails.** In every run in which no number wraps to 0 and
acceptors promise and accept only for the instance they are in: whenever a decision
that was sent is handled, its instance is over at the acceptor, or it is the next one
and `v_a` is the decided value; and `decidereq` returns. -/
theorem decide_never_aborts {nodes : Str → Node} (hidle : ∀ p, Idle (nodes p))
    {acts : List Act} {s : System}
    (hok : Steps.RunMeets (step members) DecideOk (start nodes) acts)
    (hrun : Steps.run (step members) (start nodes) acts = some s)
    {id : ℕ} {dst : Str} {a : decidearg}
    (hreq : (⟨id, dst, .decide a⟩ : Request) ∈ s.requests) :
    (a.inst ≤ (s.nodes dst).acc.instance_h
        ∨ (a.inst = (s.nodes dst).acc.instance_h + 1 ∧ (s.nodes dst).acc.v_a = a.v))
      ∧ ∃ acc', decidereq (s.nodes dst).acc a = some acc' := by
  have h : DecideInv members s := Steps.run_inv decide_step (DecideInv.start hidle) hok hrun
  have hfound := h.decide_found hreq
  refine ⟨hfound, ?_⟩
  obtain ⟨n, hvote, -⟩ := h.vote hreq
  have hpos := h.inst_pos hvote
  have hlt := instance_lt (h.basic.durable dst)
  have hinst : a.inst < 2 ^ 32 := h.basic.request_ok (h.basic.requests _ hreq)
  unfold decidereq acceptor.next
  rcases hfound with hle | ⟨hnext, hv⟩
  · -- `instance_h + 1` may wrap to 0, which is the instance of no decision
    have hne : a.inst ≠ ((s.nodes dst).acc.instance_h + 1) % 2 ^ 32 := by
      rcases Nat.lt_or_ge ((s.nodes dst).acc.instance_h + 1) (2 ^ 32) with hsmall | hbig
      · rw [Nat.mod_eq_of_lt hsmall]
        omega
      · have hwrap : (s.nodes dst).acc.instance_h + 1 = 2 ^ 32 := by omega
        rw [hwrap, Nat.mod_self]
        omega
    rw [if_neg hne, if_pos hle]
    exact ⟨_, rfl⟩
  · rw [← hnext, Nat.mod_eq_of_lt hinst, if_pos rfl, if_pos hv]
    exact ⟨_, rfl⟩

/-! ## A run that meets the condition -/

theorem idle_fresh (p : Str) : Idle (fresh p) := ⟨durable_blank p, rfl, rfl, rfl⟩

/-- Node 1 gets `x` accepted by nodes 1, 2 and 3 and sends its decisions. Before the one
to node 3 is handled node 2 has run the instance again with a higher number. -/
def lateDecide : List Act :=
  [Act.begin ['1'] 1 ['x']] ++ visit ['1'] 0 ++ visit ['1'] 1 ++ visit ['1'] 2
    ++ [Act.advance ['1']]
    ++ visit ['1'] 3 ++ visit ['1'] 4 ++ visit ['1'] 5 ++ [Act.advance ['1']]
    ++ [Act.skip ['1'], Act.skip ['1'], Act.call ['1']]
    ++ [Act.begin ['2'] 1 ['y'], Act.skip ['2']] ++ visit ['2'] 7 ++ visit ['2'] 8
    ++ [Act.advance ['2']]
    ++ visit ['2'] 9 ++ visit ['2'] 10

theorem decide_never_aborts_lateDecide :
    ∃ s, Steps.run (step threeNodes) (start fresh) lateDecide = some s
      ∧ s.requests[6]? = some ⟨0, ['3'], .decide ⟨1, ['x']⟩⟩
      ∧ (s.nodes ['3']).acc.n_a = ⟨2, ['2']⟩ ∧ (s.nodes ['3']).acc.instance_h = 0
      ∧ (s.nodes ['3']).acc.v_a = ['x'] := by
  have hex : (Steps.run (step threeNodes) (start fresh) lateDecide).map
      (fun s => (s.requests[6]?, (s.nodes ['3']).acc.n_a, (s.nodes ['3']).acc.instance_h))
        = some (some ⟨0, ['3'], .decide ⟨1, ['x']⟩⟩, ⟨2, ['2']⟩, 0) := by decide
  have hok : Steps.RunMeets (step threeNodes) DecideOk (start fresh) lateDecide := by decide
  obtain ⟨s, hs, hf⟩ := Steps.exists_run hex
  simp only [Prod.mk.injEq] at hf
  obtain ⟨hreq, hn, hi⟩ := hf
  obtain ⟨hfound, -⟩ := decide_never_aborts idle_fresh hok hs (List.mem_of_getElem? hreq)
  refine ⟨s, hs, hreq, hn, hi, ?_⟩
  rcases hfound with hle | ⟨-, hv⟩
  · rw [hi] at hle
    cases hle
  · exact hv

/-! ## Runs that do not -/

/-- Node 3 cannot be reached while instance 1 is accepted and decided, and promises and
accepts in instance 2. -/
def missedDecide : List Act :=
  [Act.begin ['1'] 1 ['a']] ++ visit ['1'] 0 ++ visit ['1'] 1 ++ visit ['1'] 2
    ++ [Act.advance ['1']]
    ++ visit ['1'] 3 ++ visit ['1'] 4 ++ [Act.skip ['1'], Act.advance ['1']]
    ++ visit ['1'] 5 ++ visit ['1'] 6 ++ [Act.advance ['1']]
    ++ [Act.begin ['1'] 2 ['b']] ++ visit ['1'] 7 ++ visit ['1'] 8 ++ visit ['1'] 9
    ++ [Act.advance ['1']] ++ visit ['1'] 10 ++ visit ['1'] 11 ++ visit ['1'] 12
    ++ [Act.advance ['1']]
    ++ visit ['1'] 13 ++ visit ['1'] 14 ++ [Act.call ['1']]

/-- Node 3 gets `w` committed at nodes 1 and 3 in instance 1; its accept request to node
2 is late. Node 2 learns the value from node 1. In instance 2 node 1 gets `b` accepted
by nodes 1 and 2, and then the late request arrives at node 2. -/
def overwritten : List Act :=
  [Act.begin ['3'] 1 ['w']] ++ visit ['3'] 0 ++ visit ['3'] 1 ++ visit ['3'] 2
    ++ [Act.advance ['3']]
    ++ visit ['3'] 3 ++ [Act.call ['3'], Act.skip ['3']] ++ visit ['3'] 5 ++ [Act.advance ['3']]
    ++ visit ['3'] 6 ++ visit ['3'] 7 ++ [Act.advance ['3']]
    ++ [Act.begin ['2'] 1 ['z']] ++ visit ['2'] 8
    ++ [Act.begin ['1'] 2 ['b']] ++ visit ['1'] 9 ++ visit ['1'] 10
    ++ [Act.skip ['1'], Act.advance ['1']]
    ++ visit ['1'] 11 ++ visit ['1'] 12 ++ [Act.advance ['1']]
    ++ [Act.handle 4] ++ visit ['1'] 13 ++ [Act.call ['1']]

/-- A decision that was sent finds an acceptor on which a `VERIFY` fails. -/
def Aborts (s : System) (k : ℕ) (dst : Str) (a : decidearg) : Prop :=
  (∃ id, s.requests[k]? = some ⟨id, dst, .decide a⟩) ∧ decidereq (s.nodes dst).acc a = none

/-- **Both assertions can fail**: `VERIFY(0)` at an acceptor that is two instances behind,
and `VERIFY(v_a == a.v)` at one whose vote was overwritten. -/
theorem decide_aborts :
    (∃ s, Steps.run (step threeNodes) (start fresh) missedDecide = some s
        ∧ (s.nodes ['3']).acc.instance_h = 0 ∧ Aborts s 15 ['3'] ⟨2, ['b']⟩)
      ∧ ∃ s, Steps.run (step threeNodes) (start fresh) overwritten = some s
        ∧ (s.nodes ['2']).acc.instance_h = 1 ∧ (s.nodes ['2']).acc.v_a = ['w']
        ∧ Aborts s 14 ['2'] ⟨2, ['b']⟩ := by
  refine ⟨?_, ?_⟩
  · have hex : (Steps.run (step threeNodes) (start fresh) missedDecide).map
        (fun s => ((s.nodes ['3']).acc.instance_h, s.requests[15]?,
          (decidereq (s.nodes ['3']).acc ⟨2, ['b']⟩).isNone))
          = some (0, some ⟨1, ['3'], .decide ⟨2, ['b']⟩⟩, true) := by decide
    obtain ⟨s, hs, hf⟩ := Steps.exists_run hex
    simp only [Prod.mk.injEq, Option.isNone_iff_eq_none] at hf
    exact ⟨s, hs, hf.1, ⟨1, hf.2.1⟩, hf.2.2⟩
  · have hex : (Steps.run (step threeNodes) (start fresh) overwritten).map
        (fun s => ((s.nodes ['2']).acc.instance_h, (s.nodes ['2']).acc.v_a, s.requests[14]?,
          (decidereq (s.nodes ['2']).acc ⟨2, ['b']⟩).isNone))
          = some (1, ['w'], some ⟨2, ['2'], .decide ⟨2, ['b']⟩⟩, true) := by decide
    obtain ⟨s, hs, hf⟩ := Steps.exists_run hex
    simp only [Prod.mk.injEq, Option.isNone_iff_eq_none] at hf
    exact ⟨s, hs, hf.1, hf.2.1, ⟨2, hf.2.2.1⟩, hf.2.2.2⟩

end Yfs.PaxosDecide
