/-
Agreement over all instances.

All nodes start from one common history, which may be empty, and go through any
number of instances. The acceptor has one triple for all of them, so what is said
about one instance must not reach the triple while it stands for another:
`preparereq` promises for any later instance, `acceptreq` does not look at the
instance at all, and a value that was never stored is reported as the empty string.
When acceptors answer only for the instance they are in, no two nodes commit
different values.
-/
import Yfs.PaxosCore

set_option autoImplicit false

namespace Yfs.PaxosAgreement

open Text Yfs.PaxosAcceptor Yfs.PaxosLog Yfs.PaxosDurable Yfs.PaxosProposer Yfs.PaxosHistory
  Yfs.PaxosRuns Yfs.PaxosInstance Yfs.PaxosCore

variable {members : ℕ → List Str}

/-! ## Runs over all instances -/

/-- A node that has committed the instances up to `h`, with the values `hist`, and
nothing else. -/
structure Joined (h : ℕ) (hist : ℕ → Option Str) (nd : Node) : Prop where
  durable : Durable nd.acc
  instance_h : nd.acc.instance_h = h
  values : nd.acc.values = hist
  none_after : ∀ i, h < i → hist i = none
  n_a : nd.acc.n_a.n = 0
  v_a : nd.acc.v_a = []
  run : nd.run = none

/-- An acceptor answers for the instance it is in: it promises and accepts only in
`instance_h + 1`, and it is not asked for the value of an instance it has skipped. -/
def InTurn (s : System) : Act → Prop
  | .handle k =>
    match s.requests[k]? with
    | some ⟨_, dst, .prepare a⟩ =>
      (a.inst ≤ (s.nodes dst).acc.instance_h → ((s.nodes dst).acc.values a.inst).isSome)
        ∧ ((s.nodes dst).acc.instance_h < a.inst → prop_gt a.n (s.nodes dst).acc.n_h →
            a.inst = (s.nodes dst).acc.instance_h + 1)
    | some ⟨_, dst, .accept a⟩ =>
      prop_ge a.n (s.nodes dst).acc.n_h → a.inst = (s.nodes dst).acc.instance_h + 1
    | _ => True
  | _ => True

def AgreeOk (s : System) (a : Act) : Prop := BeginOk s a ∧ InTurn s a

instance (s : System) (a : Act) : Decidable (InTurn s a) := by
  unfold InTurn
  match a with
  | .handle k =>
    dsimp only
    match s.requests[k]? with
    | some ⟨_, _, .prepare _⟩ => exact instDecidableAnd
    | some ⟨_, _, .accept _⟩ => dsimp only; infer_instance
    | some ⟨_, _, .decide _⟩ | none => exact instDecidableTrue
  | .begin .. | .call _ | .skip _ | .receive _ | .advance _ | .crash _ =>
    exact instDecidableTrue

instance (s : System) (a : Act) : Decidable (AgreeOk s a) :=
  inferInstanceAs (Decidable (_ ∧ _))

/-! ## Where committed values come from -/

/-- Some attempt has won instance `i` with `v`. -/
def Won (s : System) (i : ℕ) (v : Str) : Prop := ∃ w ∈ s.won, w.inst = i ∧ w.v = v

/-- The values of an acceptor: the common history, and then values that have won. -/
structure ValuesOk (h : ℕ) (hist : ℕ → Option Str) (s : System) (acc : acceptor) : Prop where
  start : h ≤ acc.instance_h
  old : ∀ i, i ≤ h → acc.values i = hist i
  won : ∀ i v, h < i → acc.values i = some v → Won s i v

/-- A reply that an instance is old reports a value that has won. -/
def ReplyOk (h : ℕ) (s : System) (d : Handled) : Prop :=
  ∀ a res, d.req.body = .prepare a → d.res = .prepare res → res.oldinstance = true →
    h < a.inst → Won s a.inst res.v_a

structure AgreeInv (members : ℕ → List Str) (h : ℕ) (hist : ℕ → Option Str) (s : System) :
    Prop where
  basic : Basic members s
  inst : ∀ j, Inst j (j + 1) s
  values : ∀ p, ValuesOk h hist s (s.nodes p).acc
  replies : ∀ d ∈ s.handled, ReplyOk h s d

variable {h : ℕ} {hist : ℕ → Option Str}

variable {s s' : System}

theorem Won.grows (g : Grows s s') {i : ℕ} {v : Str} (hw : Won s i v) : Won s' i v := by
  obtain ⟨w, hw, hrest⟩ := hw
  exact ⟨w, g.won.subset hw, hrest⟩

theorem ValuesOk.grows (g : Grows s s') {acc : acceptor}
    (hv : ValuesOk h hist s acc) : ValuesOk h hist s' acc :=
  ⟨hv.start, hv.old, fun i v hi hval => (hv.won i v hi hval).grows g⟩

theorem ReplyOk.grows (g : Grows s s') {d : Handled} (hd : ReplyOk h s d) : ReplyOk h s' d :=
  fun a res hbody hres hold hlt => (hd a res hbody hres hold hlt).grows g

/-- The values depend on `instance_h` and `values` alone. -/
theorem ValuesOk.same {acc acc' : acceptor} (hv : ValuesOk h hist s acc)
    (hi : acc'.instance_h = acc.instance_h) (hvals : acc'.values = acc.values) :
    ValuesOk h hist s acc' := by
  refine ⟨hi ▸ hv.start, ?_, ?_⟩
  · rw [hvals]
    exact hv.old
  · rw [hvals]
    exact hv.won

/-- A value that has won is committed. -/
theorem ValuesOk.commit_wo {acc : acceptor} (hv : ValuesOk h hist s acc) {j : ℕ}
    {v : Str} (hwon : h < j → Won s j v) : ValuesOk h hist s (commit_wo acc j v) := by
  unfold PaxosAcceptor.commit_wo
  by_cases hgt : j > acc.instance_h
  · rw [if_pos hgt]
    have hj : h < j := hv.start.trans_lt hgt
    refine ⟨hj.le, fun i hi => ?_, fun i w hi hval => ?_⟩
    · have hne : i ≠ j := by omega
      exact (Function.update_of_ne hne _ _).trans (hv.old i hi)
    · simp only [loginstance] at hval
      by_cases hij : i = j
      · subst hij
        rw [Function.update_self, Option.some.injEq] at hval
        exact hval ▸ hwon hj
      · rw [Function.update_of_ne hij] at hval
        exact hv.won i w hi hval
  · rw [if_neg hgt]
    exact hv

/-! ## The steps -/

/-- An acceptor answers with the value it has stored, when it has one. -/
theorem preparereq_old {acc : acceptor} (hv : ValuesOk h hist s acc) {a : preparearg}
    (hset : a.inst ≤ acc.instance_h → (acc.values a.inst).isSome)
    (hold : (preparereq acc a).1.oldinstance = true) (hlt : h < a.inst) :
    Won s a.inst (preparereq acc a).1.v_a := by
  unfold preparereq at hold ⊢
  by_cases hle : a.inst ≤ acc.instance_h
  · simp only [if_pos hle]
    -- a value that is stored; a missing one would be reported as the empty string
    obtain ⟨v, hval⟩ := Option.isSome_iff_exists.mp (hset hle)
    rw [acceptor.value, hval]
    exact hv.won a.inst v hlt hval
  · simp only [if_neg hle] at hold
    split at hold <;> cases hold

/-- **One answer** keeps the values, and reports a value that has won. -/
theorem answer_values {req : Request}
    (hreq : RequestOk s req) {acc : acceptor} (hv : ValuesOk h hist s acc) {k : ℕ}
    {res : Response} {acc' : acceptor} (hans : answer acc req.body = some (res, acc'))
    (hset : ∀ a, req.body = .prepare a → a.inst ≤ acc.instance_h → (acc.values a.inst).isSome) :
    ValuesOk h hist s acc' ∧ ReplyOk h s ⟨k, req, res⟩ := by
  obtain ⟨id, dst, body⟩ := req
  cases body with
  | prepare a =>
    cases hans
    refine ⟨hv.same (preparereq_values acc a).1 (preparereq_values acc a).2, ?_⟩
    rintro _ _ ⟨rfl⟩ ⟨rfl⟩ hold hlt
    exact preparereq_old hv (hset a rfl) hold hlt
  | accept a =>
    cases hans
    exact ⟨hv.same (acceptreq_values acc a).1 (acceptreq_values acc a).2, nofun⟩
  | decide a =>
    obtain ⟨acc'', hdec, heq⟩ := Option.map_eq_some_iff.mp hans
    cases heq
    refine ⟨?_, nofun⟩
    rcases decidereq_eq hdec with rfl | ⟨rfl, -, -⟩
    · exact hv
    · obtain ⟨q, hq, -, hqi, hqv, -⟩ := hreq
      exact hv.commit_wo fun _ => ⟨q, hq, hqi, hqv⟩

theorem InTurn.takes {a : Act} (hok : InTurn s a) : TakesInTurn s a := by
  unfold InTurn at hok
  unfold TakesInTurn
  split
  · split
    · next hreq =>
      simp only [hreq] at hok
      exact hok.2
    · next hreq =>
      simp only [hreq] at hok
      exact hok
    · trivial
  · trivial

/-- What the changed acceptor stores and what was replied are values that have won. -/
theorem effect_values (hi : AgreeInv members h hist s) {a : Act}
    (hturn : InTurn s a) {p : Str} {acc' : acceptor} (g : Grows s s')
    (heff : Effect s s' p acc' a) : ValuesOk h hist s' acc' ∧ ∀ d ∈ s'.handled, ReplyOk h s' d := by
  have hmine := (hi.values p).grows g
  have hreplies : ∀ d ∈ s.handled, ReplyOk h s' d := fun d hd => (hi.replies d hd).grows g
  cases heff with
  | quiet hh hacc =>
    rw [hh, hacc]
    exact ⟨hmine, hreplies⟩
  | @committed r d res hh hr hmem hbody hres hold hacc =>
    rw [hh, hacc]
    -- the node commits what an acceptor has reported
    refine ⟨hmine.commit_wo fun hlt => ?_, hreplies⟩
    exact hreplies d hmem _ res hbody hres hold hlt
  | @answered k req res hreq hdst hans hh =>
    subst hdst
    have hset : ∀ arg, req.body = .prepare arg → arg.inst ≤ (s.nodes req.dst).acc.instance_h →
        ((s.nodes req.dst).acc.values arg.inst).isSome := by
      obtain ⟨id, dst, body⟩ := req
      rintro arg ⟨rfl⟩
      simp only [InTurn, hreq] at hturn
      exact hturn.1
    obtain ⟨hv, hrep⟩ := answer_values (k := k)
      (hi.basic.requests req (List.mem_of_getElem? hreq)) (hi.values req.dst) hans hset
    rw [hh]
    refine ⟨hv.grows g, fun d hd => ?_⟩
    rcases List.mem_append.mp hd with hd | hd
    · exact hreplies d hd
    · rw [List.mem_singleton.mp hd]
      exact hrep.grows g
  | @aborted k req arg hreq hdst hbody hag hh =>
    rw [hh]
    refine ⟨hmine.same hag.instance_h hag.values, fun d hd => ?_⟩
    rcases List.mem_append.mp hd with hd | hd
    · exact hreplies d hd
    · rw [List.mem_singleton.mp hd]
      rintro a' res' - hres
      cases hres
  | crashed hh hag =>
    rw [hh]
    exact ⟨hmine.same hag.instance_h hag.values, hreplies⟩

/-- **One step** keeps the invariant. -/
theorem agree_step (s : System) (a : Act) (s' : System) (hi : AgreeInv members h hist s)
    (hok : AgreeOk s a) (hs : step members s a = some s') : AgreeInv members h hist s' := by
  obtain ⟨hbegin, hturn⟩ := hok
  obtain ⟨p, nd, hc, heff⟩ := change_step hi.basic hbegin hs
  obtain ⟨hmine, hreplies⟩ := effect_values hi hturn hc.grows heff
  refine ⟨hi.basic.change hc,
    fun j => inst_step hi.basic (hi.inst j) hbegin
      (fair_of_takesInTurn hturn.takes (.inl rfl)) hs,
    fun p' => ?_, hreplies⟩
  rw [hc.nodes]
  by_cases hp : p' = p
  · subst hp
    rw [Function.update_self]
    exact hmine
  · rw [Function.update_of_ne hp]
    exact (hi.values p').grows hc.grows

theorem AgreeInv.start {nodes : Str → Node} (hj : ∀ p, Joined h hist (nodes p)) :
    AgreeInv members h hist (start nodes) := by
  refine ⟨basic_start (fun p => (hj p).durable) fun p => (hj p).run, fun j => ?_,
    fun p => ?_, nofun⟩
  · exact inst_start fun p _ => ⟨(hj p).n_a, (hj p).v_a⟩
  · refine ⟨(hj p).instance_h.ge, fun i _ => ?_, fun i v hi hval => ?_⟩
    · exact congrFun (hj p).values i
    · have hnone : hist i = some v := (congrFun (hj p).values i).symm.trans hval
      rw [(hj p).none_after i hi] at hnone
      cases hnone

/-! ## Agreement -/

/-- **Agreement.** In every run from a common history in which no number wraps to 0 and
acceptors answer only for the instance they are in, any two acceptors that have a
value for instance `i` have the same. -/
theorem agreement {nodes : Str → Node} (hjoined : ∀ p, Joined h hist (nodes p))
    {acts : List Act} {s : System}
    (hok : Steps.RunMeets (step members) AgreeOk (start nodes) acts)
    (hrun : Steps.run (step members) (start nodes) acts = some s)
    {p p' : Str} {i : ℕ} {v v' : Str} (hv : (s.nodes p).acc.values i = some v)
    (hv' : (s.nodes p').acc.values i = some v') : v = v' := by
  have hinv : AgreeInv members h hist s :=
    Steps.run_inv agree_step (AgreeInv.start hjoined) hok hrun
  by_cases hi : i ≤ h
  · rw [(hinv.values p).old i hi] at hv
    rw [(hinv.values p').old i hi, hv, Option.some.injEq] at hv'
    exact hv'
  · -- both values have won the instance, and it has chosen at most one
    obtain ⟨w, hw, hwi, rfl⟩ := (hinv.values p).won i v (not_le.mp hi) hv
    obtain ⟨w', hw', hwi', rfl⟩ := (hinv.values p').won i v' (not_le.mp hi) hv'
    obtain ⟨j, rfl⟩ : ∃ j, i = j + 1 := ⟨i - 1, by omega⟩
    exact (sound hinv.basic (hinv.inst j)).chosen_unique (chosen_of_won hinv.basic hw hwi)
      (chosen_of_won hinv.basic hw' hwi')

/-! ## A run that meets the conditions -/

theorem joined_fresh (p : Str) : Joined 0 (fun _ => none) (fresh p) :=
  ⟨durable_blank p, rfl, rfl, fun _ _ => rfl, rfl, rfl, rfl⟩

/-- Nodes 1 and 2 commit `a` in instance 1, node 3 learns it when it tries, and then
gets `b` committed at nodes 2 and 3 in instance 2; node 2 restarts. -/
def twoInstances : List Act :=
  [Act.begin ['1'] 1 ['a']] ++ visit ['1'] 0 ++ visit ['1'] 1 ++ [Act.skip ['1'], Act.advance ['1']]
    ++ visit ['1'] 2 ++ visit ['1'] 3 ++ [Act.advance ['1']]
    ++ visit ['1'] 4 ++ visit ['1'] 5 ++ [Act.advance ['1']]
    ++ [Act.begin ['3'] 1 ['c']] ++ visit ['3'] 6
    ++ [Act.begin ['3'] 2 ['b'], Act.skip ['3']] ++ visit ['3'] 7 ++ visit ['3'] 8
    ++ [Act.advance ['3']]
    ++ visit ['3'] 9 ++ visit ['3'] 10 ++ [Act.advance ['3']]
    ++ visit ['3'] 11 ++ visit ['3'] 12 ++ [Act.advance ['3'], Act.crash ['2']]

theorem agreement_twoInstances :
    ∃ s, Steps.run (step threeNodes) (start fresh) twoInstances = some s
      ∧ (s.nodes ['1']).acc.values 1 = some ['a'] ∧ (s.nodes ['3']).acc.values 2 = some ['b']
      ∧ (∀ v, (s.nodes ['3']).acc.values 1 = some v → ['a'] = v)
      ∧ ∀ v, (s.nodes ['2']).acc.values 2 = some v → ['b'] = v := by
  have hex : (Steps.run (step threeNodes) (start fresh) twoInstances).map
      (fun s => ((s.nodes ['1']).acc.values 1, (s.nodes ['3']).acc.values 2))
        = some (some ['a'], some ['b']) := by decide
  have hok : Steps.RunMeets (step threeNodes) AgreeOk (start fresh) twoInstances := by decide
  obtain ⟨s, hs, hf⟩ := Steps.exists_run hex
  rw [Prod.mk.injEq] at hf
  exact ⟨s, hs, hf.1, hf.2, fun v hv => agreement joined_fresh hok hs hf.1 hv,
    fun v hv => agreement joined_fresh hok hs hf.2 hv⟩

/-! ## A run that does not -/

/-- Node 3 gets `w` committed at nodes 1 and 2 in instance 1; its accept request to
itself is late. It learns from node 1 that the instance is old, commits, and then
the late request arrives: node 3 now holds a vote of instance 1 in instance 2. There
node 1 gets `b` accepted by nodes 1 and 2 and commits it; the decision does not reach
node 2. Node 3 then asks nodes 2 and 3, and the vote of instance 1 is the highest. -/
def lateAccept : List Act :=
  [Act.begin ['3'] 1 ['w']] ++ visit ['3'] 0 ++ visit ['3'] 1 ++ visit ['3'] 2
    ++ [Act.advance ['3']]
    ++ visit ['3'] 3 ++ visit ['3'] 4 ++ [Act.call ['3'], Act.skip ['3'], Act.advance ['3']]
    ++ visit ['3'] 6 ++ visit ['3'] 7 ++ [Act.advance ['3']]
    ++ [Act.begin ['3'] 1 ['w']] ++ visit ['3'] 8
    ++ [Act.handle 5]
    ++ [Act.begin ['1'] 2 ['b']] ++ visit ['1'] 9 ++ visit ['1'] 10
    ++ [Act.skip ['1'], Act.advance ['1']]
    ++ visit ['1'] 11 ++ visit ['1'] 12 ++ [Act.advance ['1']]
    ++ visit ['1'] 13 ++ [Act.skip ['1'], Act.advance ['1']]
    ++ [Act.begin ['3'] 2 ['c'], Act.skip ['3']] ++ visit ['3'] 14 ++ visit ['3'] 15
    ++ [Act.advance ['3']]
    ++ visit ['3'] 16 ++ visit ['3'] 17 ++ [Act.advance ['3']]
    ++ visit ['3'] 18 ++ visit ['3'] 19 ++ [Act.advance ['3']]

/-- **Without the conditions two nodes commit different values.** -/
theorem agreement_fails :
    ∃ s, Steps.run (step threeNodes) (start fresh) lateAccept = some s
      ∧ (s.nodes ['1']).acc.values 2 = some ['b'] ∧ (s.nodes ['2']).acc.values 2 = some ['w']
      ∧ (s.nodes ['1']).acc.instance_h = 2 ∧ (s.nodes ['2']).acc.instance_h = 2 := by
  have hex : (Steps.run (step threeNodes) (start fresh) lateAccept).map
      (fun s => ((s.nodes ['1']).acc.values 2, (s.nodes ['2']).acc.values 2,
        (s.nodes ['1']).acc.instance_h, (s.nodes ['2']).acc.instance_h))
        = some (some ['b'], some ['w'], 2, 2) := by decide
  obtain ⟨s, hs, hf⟩ := Steps.exists_run hex
  simp only [Prod.mk.injEq] at hf
  exact ⟨s, hs, hf⟩

end Yfs.PaxosAgreement
