/-
One instance of Paxos, seen over whole runs.

`PaxosHistory` says what one acceptor's answer preserves and `PaxosRuns` what the
proposers know. Here the two meet: along a run whose steps are fair to instance `i`
the history of `i` stays in order, so the attempts that passed the test after
`prepare` and the votes cast are sound in the sense of `Synod`. Agreement of the
instance is then the general theorem.
-/
import Yfs.Synod
import Yfs.PaxosRuns

set_option autoImplicit false

namespace Yfs.PaxosInstance

open Text Yfs.PaxosAcceptor Yfs.PaxosLog Yfs.PaxosDurable Yfs.PaxosProposer Yfs.PaxosHistory
  Yfs.PaxosRuns

variable {members : ℕ → List Str}

/-! ## The invariant of an instance -/

/-- The history of instance `i` is in order, and every acceptor remembers its part. -/
structure Inst (lo i : ℕ) (s : System) : Prop where
  history : HistoryOk i s.handled
  acceptors : ∀ p, AcceptorOk lo i s.handled p (s.nodes p).acc

/-- A request is fair to instance `i`: an acceptor takes it up exactly when the triple
of the acceptor is about the instance of the request. -/
def FairTo (lo i : ℕ) (acc : acceptor) : Body → Prop
  | .prepare a => acc.instance_h < a.inst → prop_gt a.n acc.n_h → (a.inst = i ↔ Live lo i acc)
  | .accept a => prop_ge a.n acc.n_h → (a.inst = i ↔ Live lo i acc)
  | .decide a => Live lo i acc → acc.instance_h < a.inst → i ≤ a.inst

/-- A step is fair to instance `i`. -/
def Fair (lo i : ℕ) (s : System) : Act → Prop
  | .handle k => ∀ req, s.requests[k]? = some req → FairTo lo i (s.nodes req.dst).acc req.body
  | .receive p => ∀ r, (s.nodes p).run = some r → Live lo i (s.nodes p).acc →
      (s.nodes p).acc.instance_h < r.inst → i ≤ r.inst
  | _ => True

variable {lo i : ℕ}

/-- The other nodes do not notice what node `p` does. -/
theorem Inst.change {s s' : System} {p : Str} {nd : Node}
    (hnodes : s'.nodes = Function.update s.nodes p nd) (hhist : HistoryOk i s'.handled)
    (hmine : AcceptorOk lo i s'.handled p nd.acc)
    (hother : ∀ p', p' ≠ p → AcceptorOk lo i s'.handled p' (s.nodes p').acc) : Inst lo i s' := by
  refine ⟨hhist, fun p' => ?_⟩
  rw [hnodes]
  by_cases hp : p' = p
  · subst hp
    rw [Function.update_self]
    exact hmine
  · rw [Function.update_of_ne hp]
    exact hother p' hp

variable {s : System}

/-- Accept requests go only to acceptors that have promised their number. -/
theorem promised_of_accept (hb : Basic members s) {req : Request}
    (h : RequestOk s req) {a : acceptarg} (hbody : req.body = .accept a) :
    ∃ res k id, Promise a.inst s.handled req.dst a.n res k id := by
  simp only [RequestOk, hbody] at h
  obtain ⟨q, hq, -, hi, hn, -, hdst⟩ := h
  obtain ⟨v, highest, hsel, -⟩ := (hb.passed q hq).selected
  obtain ⟨res, k, -, hp, -⟩ := hsel.reports req.dst hdst
  exact ⟨res, k, q.id, hi ▸ hn ▸ hp⟩

/-- A decide request commits at most the next instance. -/
theorem decidereq_eq {acc acc' : acceptor} {a : decidearg} (h : decidereq acc a = some acc') :
    acc' = acc ∨ (acc' = commit_wo acc a.inst a.v ∧ acc.v_a = a.v ∧ a.inst = acc.next) := by
  unfold decidereq at h
  split at h
  · next hnext =>
    split at h
    · next hv =>
      cases h
      exact .inr ⟨by rw [hv], hv, hnext⟩
    · cases h
  · split at h
    · cases h
      exact .inl rfl
    · cases h

/-- **One answer** keeps the history of the instance. -/
theorem answer_inst (hb : Basic members s) (hi : Inst lo i s)
    {req : Request} (hreq : req ∈ s.requests) {k : ℕ} {res : Response} {acc' : acceptor}
    (hans : answer (s.nodes req.dst).acc req.body = some (res, acc'))
    (hfair : FairTo lo i (s.nodes req.dst).acc req.body) :
    HistoryOk i (s.handled ++ [⟨k, req, res⟩])
      ∧ AcceptorOk lo i (s.handled ++ [⟨k, req, res⟩]) req.dst acc' := by
  have hok := hb.requests req hreq
  have hnum := hb.request_ok hok
  have hacc := hi.acceptors req.dst
  obtain ⟨id, dst, body⟩ := req
  cases body with
  | prepare a =>
    cases hans
    exact prepare_handled hi.history hacc hnum.2 hfair
  | accept a =>
    cases hans
    refine accept_handled hi.history hacc hnum.2.1 ?_ hfair
    rintro rfl
    exact promised_of_accept hb hok rfl
  | decide a =>
    obtain ⟨acc'', hdec, heq⟩ := Option.map_eq_some_iff.mp hans
    cases heq
    -- a decision is neither promise nor vote, but it may end the window
    have hs : Silent i s.handled ⟨k, ⟨id, dst, .decide a⟩, .decide⟩ := silent_of_decide
    refine ⟨hs.history hi.history, hs.acceptor ?_⟩
    rcases decidereq_eq hdec with rfl | ⟨rfl, -, -⟩
    · exact hacc
    · exact hacc.commit_wo a.v hfair

/-- **One step** keeps the invariant of the instance. -/
theorem inst_step {s s' : System} {a : Act} (hb : Basic members s)
    (hi : Inst lo i s) (hok : BeginOk s a) (hfair : Fair lo i s a)
    (hs : step members s a = some s') : Inst lo i s' := by
  obtain ⟨p, nd, hc, heff⟩ := change_step hb hok hs
  cases heff with
  | quiet hh hacc =>
    refine Inst.change hc.nodes (hh ▸ hi.history) ?_ fun p' _ => hh ▸ hi.acceptors p'
    rw [hh, hacc]
    exact hi.acceptors p
  | @committed r h res hh hr hmem hbody hres hold hacc =>
    refine Inst.change hc.nodes (hh ▸ hi.history) ?_ fun p' _ => hh ▸ hi.acceptors p'
    rw [hh, hacc]
    exact (hi.acceptors p).commit_wo _ (hfair r hr)
  | @answered k req res hreq hdst hans hh =>
    subst hdst
    obtain ⟨hhist, hmine⟩ := answer_inst (k := k) hb hi (List.mem_of_getElem? hreq) hans
      (hfair req hreq)
    refine Inst.change hc.nodes (hh ▸ hhist) (hh ▸ hmine) fun p' hp' => ?_
    rw [hh]
    exact (hi.acceptors p').of_other hp'
  | @aborted k req arg hreq hdst hbody hag hh =>
    have hs : Silent i s.handled ⟨k, req, .aborted⟩ := by
      obtain ⟨id, dst, body⟩ := req
      obtain rfl : body = _ := hbody
      exact silent_of_decide
    refine Inst.change hc.nodes (hh ▸ hs.history hi.history) ?_ fun p' _ => ?_
    · rw [hh]
      exact hs.acceptor ((hi.acceptors p).agree hi.history hag)
    · rw [hh]
      exact hs.acceptor (hi.acceptors p')
  | crashed hh hag =>
    refine Inst.change hc.nodes (hh ▸ hi.history) ?_ fun p' _ => hh ▸ hi.acceptors p'
    rw [hh]
    exact (hi.acceptors p).agree hi.history hag

/-- Acceptors without a trace of the instance. -/
theorem inst_start {nodes : Str → Node}
    (h : ∀ p, Live lo i (nodes p).acc → (nodes p).acc.n_a.n = 0 ∧ (nodes p).acc.v_a = []) :
    Inst lo i (start nodes) := by
  have hpromise : ∀ a b res k id, ¬Promise i (start nodes).handled a b res k id :=
    fun _ _ _ _ _ hp => List.not_mem_nil hp.2
  have hvote : ∀ a c v, ¬Vote i (start nodes).handled a c v :=
    fun _ _ _ ⟨_, _, hv⟩ => List.not_mem_nil hv
  refine ⟨⟨?_, ?_, ?_⟩, fun p => ⟨?_, ?_, fun hl => .inl ⟨(h p hl).1, (h p hl).2, hvote p⟩⟩⟩
  · exact fun a b res k id hp => (hpromise a b res k id hp).elim
  · exact fun a b res k id hp => (hpromise a b res k id hp).elim
  · exact fun a b res k id _ _ _ hp => (hpromise a b res k id hp).elim
  · exact fun b res k id hp => (hpromise p b res k id hp).elim
  · exact fun c v hv => (hvote p c v hv).elim

/-! ## Acceptors that answer in turn -/

/-- An acceptor promises and accepts only in the instance after its last. -/
def TakesInTurn (s : System) : Act → Prop
  | .handle k =>
    match s.requests[k]? with
    | some ⟨_, dst, .prepare a⟩ =>
      (s.nodes dst).acc.instance_h < a.inst → prop_gt a.n (s.nodes dst).acc.n_h →
        a.inst = (s.nodes dst).acc.instance_h + 1
    | some ⟨_, dst, .accept a⟩ =>
      prop_ge a.n (s.nodes dst).acc.n_h → a.inst = (s.nodes dst).acc.instance_h + 1
    | _ => True
  | _ => True

/-- Such steps are fair to every instance; instance 0 is never run. -/
theorem fair_of_takesInTurn {a : Act} (hok : TakesInTurn s a)
    (hi : i = lo + 1 ∨ i = 0) : Fair lo i s a := by
  cases a with
  | handle k =>
    intro req hreq
    obtain ⟨id, dst, body⟩ := req
    simp only [TakesInTurn, hreq] at hok
    cases body with
    | prepare arg =>
      intro hlt hgt
      have hinst := hok hlt hgt
      simp only [Live]
      omega
    | accept arg =>
      intro hge
      have hinst := hok hge
      simp only [Live]
      omega
    | decide arg =>
      -- the window is at most one instance wide, so any commit leaves it
      rintro ⟨hlo, hlive⟩ hlt
      simp only at hlo hlive hlt
      omega
  | receive p =>
    rintro r - ⟨hlo, hlive⟩ hlt
    omega
  | begin p inst newv => trivial
  | call p => trivial
  | skip p => trivial
  | advance p => trivial
  | crash p => trivial

/-! ## The instance is sound -/

/-- Two majorities of one list have a common node. -/
theorem majority_meet {l S T : List Str} (hS : majority l S = true) (hT : majority l T = true) :
    ∃ a ∈ S, a ∈ T := by
  unfold majority at hS hT
  rw [decide_eq_true_eq] at hS hT
  obtain ⟨a, -, haS, haT⟩ := Synod.exists_common (isamember · S) (isamember · T) l (by omega)
  exact ⟨a, isamember_iff.mp haS, isamember_iff.mp haT⟩

/-- The rounds of instance `i`: the attempts that have passed the test after `prepare`. -/
def rounds (i : ℕ) (s : System) : List (Synod.Round Str prop_t Str) :=
  (s.passed.filter (·.inst = i)).map fun q => ⟨q.n, q.v, q.nodes⟩

theorem mem_rounds {r : Synod.Round Str prop_t Str} :
    r ∈ rounds i s ↔ ∃ q ∈ s.passed, q.inst = i ∧ r = ⟨q.n, q.v, q.nodes⟩ := by
  simp only [rounds, List.mem_map, List.mem_filter, decide_eq_true_eq]
  constructor
  · rintro ⟨q, ⟨hq, hi⟩, rfl⟩
    exact ⟨q, hq, hi, rfl⟩
  · rintro ⟨q, hq, hi, rfl⟩
    exact ⟨q, ⟨hq, hi⟩, rfl⟩

/-- Two attempts of one number that both passed are one attempt: an acceptor that
promised to both has answered one call. -/
theorem passed_unique (hb : Basic members s) (hi : Inst lo i s)
    {q q' : Passed} (hq : q ∈ s.passed) (hq' : q' ∈ s.passed) (hqi : q.inst = i)
    (hqi' : q'.inst = i) (hn : q.n = q'.n) : q = q' := by
  have hp := hb.passed q hq
  have hp' := hb.passed q' hq'
  obtain ⟨_, _, hsel, -⟩ := hp.selected
  obtain ⟨_, _, hsel', -⟩ := hp'.selected
  rw [hqi] at hsel
  rw [hqi', ← hn] at hsel'
  obtain ⟨a, haS, haT⟩ := majority_meet (hqi ▸ hp.quorum) (hqi' ▸ hp'.quorum)
  obtain ⟨res, k, -, h, -⟩ := hsel.reports a haS
  obtain ⟨res', k', -, h', -⟩ := hsel'.reports a haT
  -- a number is promised once, so both attempts made the same call
  obtain rfl := hi.history.unique a q.n res k q.id res' k' q'.id h h'
  have hcall := hb.calls _ h.2 _ h'.2 rfl
  refine hb.once q hq q' hq' ?_
  injection hcall with _ hreq _
  injection hreq

/-- A vote is cast for the value of an attempt that has passed. -/
theorem vote_origin (hb : Basic members s) {a : Str} {b : prop_t} {v : Str}
    (h : Vote i s.handled a b v) : ∃ q ∈ s.passed, q.inst = i ∧ q.n = b ∧ q.v = v := by
  obtain ⟨k, id, hmem⟩ := h
  have hreq := hb.requests _ (List.mem_of_getElem? (hb.handled _ hmem).1)
  obtain ⟨q, hq, -, hqi, hqn, hqv, -⟩ := hreq
  exact ⟨q, hq, hqi, hqn, hqv⟩

/-- An attempt that has passed took over the highest vote its promisers had cast. -/
theorem vote_highest (hb : Basic members s) (hi : Inst lo i s)
    {q : Passed} (hq : q ∈ s.passed) (hqi : q.inst = i) {a : Str} (ha : a ∈ q.nodes)
    {c : prop_t} {w : Str} (hc : c < q.n) (hvote : Vote i s.handled a c w) :
    ∃ a' k, c ≤ k ∧ k < q.n ∧ Vote i s.handled a' k q.v := by
  obtain ⟨v, highest, hsel, hval⟩ := (hb.passed q hq).selected
  rw [hqi] at hsel
  obtain ⟨res, k, h, hp, rfl, hle⟩ := hsel.reports a ha
  -- the promiser reported a vote at least as high
  obtain ⟨hpos, hch⟩ : 1 ≤ res.n_a.n ∧ c ≤ res.n_a := by
    rcases hi.history.report a q.n res k q.id hp with ⟨-, -, hno⟩ | ⟨hpos, -, -, hbetween⟩
    · exact absurd (hno c w hvote) (not_le.mpr hc)
    · rcases hbetween c w hvote with hle | hle
      · exact ⟨hpos, hle⟩
      · exact absurd hle (not_le.mpr hc)
  -- and the highest report is the last vote of the one who made it
  obtain ⟨a', -, res', k', hp', rfl, rfl⟩ := hsel.top h rfl
  -- a report of nothing has number 0 and cannot be the highest
  rcases hi.history.report a' q.n res' k' q.id hp' with ⟨h0, -, -⟩ | ⟨-, hlt, hlast, -⟩
  · have := prop_t.le_iff.mp hle
    omega
  · obtain ⟨q', hq', -, -, hqv'⟩ := vote_origin hb hlast
    have hne : res'.v_a ≠ [] := hqv' ▸ (hb.passed q' hq').value.1
    exact ⟨a', res'.n_a, hch.trans hle, hlt, (hval hne).symm ▸ hlast⟩

/-- **The rounds and votes of an instance are sound.** -/
theorem sound (hb : Basic members s) (hi : Inst lo i s) :
    Synod.Sound (fun S => majority (members i) S = true) (rounds i s) (Vote i s.handled) := by
  refine ⟨fun S T => majority_meet, ?_, ?_, ?_, ?_⟩
  · rintro r hr
    obtain ⟨q, hq, rfl, rfl⟩ := mem_rounds.mp hr
    exact (hb.passed q hq).quorum
  · rintro r hr r' hr' hball
    obtain ⟨q, hq, hqi, rfl⟩ := mem_rounds.mp hr
    obtain ⟨q', hq', hqi', rfl⟩ := mem_rounds.mp hr'
    rw [passed_unique hb hi hq hq' hqi hqi' hball]
  · intro a b v hv
    obtain ⟨q, hq, hqi, rfl, rfl⟩ := vote_origin hb hv
    exact ⟨_, mem_rounds.mpr ⟨q, hq, hqi, rfl⟩, rfl, rfl⟩
  · rintro r hr a ha c w hc hv
    obtain ⟨q, hq, hqi, rfl⟩ := mem_rounds.mp hr
    exact vote_highest hb hi hq hqi ha hc hv

/-- An attempt that has won has the votes of a majority. -/
theorem chosen_of_won (hb : Basic members s) {w : Passed} (hw : w ∈ s.won) (hwi : w.inst = i) :
    Synod.Chosen (fun S => majority (members i) S = true) (Vote i s.handled) w.n w.v := by
  subst hwi
  exact ⟨w.nodes, (hb.won w hw).quorum, (hb.won w hw).votes⟩

end Yfs.PaxosInstance
