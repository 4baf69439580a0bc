/-
`proposer::majority` and `proposer::prepare` (`paxos.cc`) as functions.

A majority is counted over the positions of the list of nodes, so a name that stands there
twice counts twice, and any two majorities of one list still have a position in common.

`prepare` visits the nodes in order. What becomes of a visit, whether the node can be bound,
what the call returns and what the reply says, is given for every node; `highest` has any
value before the first reply is taken, as the source does not set it. The value that is
selected is that of the first reply with the largest `n_a`: the loop is `List.argmax`. The
state machine of the proposer that the agreement proof uses does the same, visit by visit.
-/
import Yfs.PaxosProposer
import Yfs.Synod
import Mathlib.Data.List.MinMax

set_option autoImplicit false

namespace Yfs.PaxosPrepare

open Text Yfs.PaxosAcceptor Yfs.PaxosProposer

/-! ## Majorities -/

/-- More than half of the positions name a member. -/
theorem majority_iff {l1 a : List Str} :
    majority l1 a = true ↔ l1.length < 2 * l1.countP (fun x => x ∈ a) := by
  have hcount : l1.countP (isamember · a) = l1.countP (fun x => x ∈ a) :=
    List.countP_congr fun x _ => by rw [isamember_iff, decide_eq_true_eq]
  rw [majority, decide_eq_true_eq, hcount]
  omega

/-- **Majorities.** Two majorities of a list have a node of the list in common, a majority is
more than half of the positions, and more names never undo one. -/
theorem majority_quorum (l1 : List Str) :
    (∀ a b, majority l1 a = true → majority l1 b = true → ∃ x ∈ l1, x ∈ a ∧ x ∈ b)
      ∧ (∀ a, majority l1 a = true ↔ l1.length < 2 * l1.countP (fun x => x ∈ a))
      ∧ ∀ a a', a ⊆ a' → majority l1 a = true → majority l1 a' = true := by
  refine ⟨?_, fun a => majority_iff, ?_⟩
  · intro a b ha hb
    rw [majority_iff] at ha hb
    obtain ⟨x, hx, hxa, hxb⟩ :=
      Synod.exists_common (fun x => decide (x ∈ a)) (fun x => decide (x ∈ b)) l1 (by omega)
    exact ⟨x, hx, of_decide_eq_true hxa, of_decide_eq_true hxb⟩
  · intro a a' hsub ha
    rw [majority_iff] at ha ⊢
    have hmono : l1.countP (fun x => x ∈ a) ≤ l1.countP (fun x => x ∈ a') := by
      refine List.countP_mono_left fun x _ hx => ?_
      rw [decide_eq_true_eq] at hx ⊢
      exact hsub hx
    omega

/-- Four positions, one name twice: two majorities that have only that name in common. -/
theorem majority_quorum_twice :
    ∃ x ∈ [['a'], ['a'], ['b'], ['c']], x ∈ [['a'], ['b']] ∧ x ∈ [['a'], ['c']] :=
  (majority_quorum [['a'], ['a'], ['b'], ['c']]).1 [['a'], ['b']] [['a'], ['c']] (by decide)
    (by decide)

/-! ## `prepare` -/

/-- `paxos_protocol::OK`. -/
def OK : ℤ := 0

/-- What a visit comes to. -/
inductive Outcome where
  /-- `safebind` gives no client. -/
  | unreachable
  /-- What the call returns, and the reply it has filled in. -/
  | returned (ret : ℤ) (r : prepareres)
  deriving DecidableEq, Repr

/-- `accepts` and `v`, which are the caller's, and the variables of the loop. -/
structure Locals where
  accepts : List Str
  v : Str
  highest : prop_t
  inited : Bool
  deriving DecidableEq, Repr

/-- A reply that accepts. -/
def Locals.take (l : Locals) (it : Str) (r : prepareres) : Locals :=
  if l.inited = false ∨ prop_gt r.n_a l.highest then
    ⟨l.accepts ++ [it], r.v_a, r.n_a, true⟩
  else { l with accepts := l.accepts ++ [it] }

/-- The loop, with the value to commit when a reply says that the instance is old. -/
def prepare_loop : List (Str × Outcome) → Locals → Option Str × Locals
  | [], l => (none, l)
  | (_, .unreachable) :: rest, l => prepare_loop rest l
  | (it, .returned ret r) :: rest, l =>
    if ret = OK then
      if r.oldinstance then (some r.v_a, l)
      else if r.accept then prepare_loop rest (l.take it r)
      else prepare_loop rest l
    else prepare_loop rest l

/-- `prepare`: what it returns, the acceptor, `accepts` and `v`. -/
def prepare (acc : acceptor) (inst : ℕ) (nodes : List (Str × Outcome)) (accepts : List Str)
    (v : Str) (highest : prop_t) : Bool × acceptor × List Str × Str :=
  match prepare_loop nodes ⟨accepts, v, highest, false⟩ with
  | (some value, l) => (false, commit acc inst value, l.accepts, l.v)
  | (none, l) => (true, acc, l.accepts, l.v)

/-! ## What the visits say -/

/-- The value of a reply that says that the instance is old. -/
def Outcome.old : Outcome → Option Str
  | .unreachable => none
  | .returned ret r => if ret = OK ∧ r.oldinstance = true then some r.v_a else none

/-- A reply that accepts. -/
def Outcome.accepted : Outcome → Option prepareres
  | .unreachable => none
  | .returned ret r =>
    if ret = OK ∧ r.oldinstance = false ∧ r.accept = true then some r else none

/-- The first value of an old instance. -/
def firstOld (nodes : List (Str × Outcome)) : Option Str := nodes.findSome? fun x => x.2.old

/-- The nodes that accepted. -/
def accepters (nodes : List (Str × Outcome)) : List Str :=
  (nodes.filter fun x => x.2.accepted.isSome).map Prod.fst

/-- Their replies. -/
def accepting (nodes : List (Str × Outcome)) : List prepareres :=
  nodes.filterMap fun x => x.2.accepted

/-- One visit. -/
theorem prepare_loop_cons (it : Str) (o : Outcome) (rest : List (Str × Outcome)) (l : Locals) :
    prepare_loop ((it, o) :: rest) l =
      match o.old with
      | some value => (some value, l)
      | none => prepare_loop rest (o.accepted.elim l (l.take it)) := by
  cases o with
  | unreachable => rfl
  | returned ret r =>
    rw [prepare_loop]
    by_cases hret : ret = OK
    · rw [if_pos hret]
      cases hold : r.oldinstance <;> cases hacc : r.accept <;>
        simp [Outcome.old, Outcome.accepted, hret, hold, hacc]
    · simp [Outcome.old, Outcome.accepted, hret]

/-- The locals after the accepting replies `seen`, from `v`. -/
structure Selected (v : Str) (seen : List prepareres) (l : Locals) : Prop where
  value : l.v = ((seen.argmax prepareres.n_a).map prepareres.v_a).getD v
  inited : l.inited = (seen.argmax prepareres.n_a).isSome
  highest : ∀ r ∈ seen.argmax prepareres.n_a, l.highest = r.n_a

variable {l : Locals} {seen : List prepareres}

theorem selected_of_argmax {v : Str} {r : prepareres}
    (hmax : seen.argmax prepareres.n_a = some r) (hvalue : l.v = r.v_a)
    (hinited : l.inited = true) (hhigh : l.highest = r.n_a) : Selected v seen l := by
  refine ⟨?_, ?_, ?_⟩
  · rw [hmax, hvalue]
    rfl
  · rw [hmax, hinited]
    rfl
  · rw [hmax]
    rintro _ ⟨rfl⟩
    exact hhigh

theorem Selected.take {v : Str} (h : Selected v seen l)
    (it : Str) (r : prepareres) : Selected v (seen ++ [r]) (l.take it r) := by
  have hinited := h.inited
  have hvalue := h.value
  have hconcat := List.argmax_concat prepareres.n_a r seen
  unfold Locals.take
  rcases hmax : seen.argmax prepareres.n_a with _ | c
  -- the first reply is taken whatever it reports
  · rw [hmax] at hinited hconcat
    rw [if_pos (.inl hinited)]
    exact selected_of_argmax hconcat rfl rfl rfl
  · have hhigh := h.highest c hmax
    rw [hmax] at hinited hvalue hconcat
    by_cases hgt : c.n_a < r.n_a
    · rw [if_pos (.inr (prop_gt_iff.mpr (hhigh ▸ hgt)))]
      exact selected_of_argmax (hconcat.trans (if_pos hgt)) rfl rfl rfl
    · have hkeep : ¬ (l.inited = false ∨ prop_gt r.n_a l.highest) := by
        rw [prop_gt_iff, hhigh, hinited]
        rintro (h | h)
        · cases h
        · exact hgt h
      rw [if_neg hkeep]
      exact selected_of_argmax (hconcat.trans (if_neg hgt)) hvalue hinited hhigh

theorem Locals.take_accepts (l : Locals) (it : Str) (r : prepareres) :
    (l.take it r).accepts = l.accepts ++ [it] := by
  unfold Locals.take
  split
  · rfl
  · rfl

/-- **The loop.** It stops at the first reply for an old instance; without one it has taken
the replies that accept, in order. -/
theorem prepare_loop_spec {v : Str} (nodes : List (Str × Outcome)) (h : Selected v seen l) :
    (prepare_loop nodes l).1 = firstOld nodes
      ∧ (firstOld nodes = none →
        (prepare_loop nodes l).2.accepts = l.accepts ++ accepters nodes
          ∧ Selected v (seen ++ accepting nodes) (prepare_loop nodes l).2) := by
  induction nodes generalizing seen l with
  | nil =>
    refine ⟨rfl, fun _ => ⟨(List.append_nil _).symm, ?_⟩⟩
    rw [accepting, List.filterMap_nil, List.append_nil]
    exact h
  | cons x rest ih =>
    obtain ⟨it, o⟩ := x
    rw [prepare_loop_cons, firstOld, List.findSome?_cons]
    rcases hold : o.old with _ | value
    · rcases hacc : o.accepted with _ | r
      · have hskip : accepters ((it, o) :: rest) = accepters rest
            ∧ accepting ((it, o) :: rest) = accepting rest := by
          simp [accepters, accepting, hacc]
        rw [hskip.1, hskip.2]
        exact ih h
      · have htake : accepters ((it, o) :: rest) = it :: accepters rest
            ∧ accepting ((it, o) :: rest) = r :: accepting rest := by
          simp [accepters, accepting, hacc]
        obtain ⟨hfirst, hrest⟩ := ih (h.take it r)
        rw [Locals.take_accepts, List.append_assoc, List.append_assoc] at hrest
        rw [htake.1, htake.2]
        exact ⟨hfirst, hrest⟩
    · exact ⟨rfl, fun h => by cases h⟩

/-- Nothing is selected before the first reply. -/
theorem selected_start (accepts : List Str) (v : Str) (highest : prop_t) :
    Selected v [] ⟨accepts, v, highest, false⟩ where
  value := rfl
  inited := rfl
  highest := by
    intro r hr
    cases hr

/-- Without an old instance `v` is the value of a reply with the largest `n_a`, or as it was. -/
theorem Selected.spec {v : Str} (h : Selected v seen l) :
    (seen = [] → l.v = v)
      ∧ (seen ≠ [] → ∃ r ∈ seen, r.v_a = l.v ∧ ∀ r' ∈ seen, prop_ge r.n_a r'.n_a) := by
  have hvalue := h.value
  refine ⟨?_, ?_⟩
  · rintro rfl
    exact hvalue
  · intro hne
    rcases hmax : seen.argmax prepareres.n_a with _ | r
    · exact absurd (List.argmax_eq_none.mp hmax) hne
    · rw [hmax] at hvalue
      refine ⟨r, List.argmax_mem hmax, hvalue.symm, fun r' hr' => ?_⟩
      exact prop_ge_iff.mpr (List.le_of_mem_argmax hr' hmax)

/-- The selected value is empty when nothing was accepted before. -/
theorem Selected.empty_iff {v : Str}
    (h : Selected v seen l) (hzero : ∀ r ∈ seen, r.n_a.n = 0 → r.v_a = [])
    (hpos : ∀ r ∈ seen, r.n_a.n > 0 → r.v_a ≠ []) (hstart : v = [] ∨ seen ≠ []) :
    l.v = [] ↔ ∀ r ∈ seen, r.n_a.n = 0 := by
  obtain ⟨hempty, hmax⟩ := h.spec
  by_cases hne : seen = []
  · rw [hempty hne, hne]
    refine ⟨?_, fun _ => hstart.resolve_right (not_not.mpr hne)⟩
    intro _ r hr
    cases hr
  · obtain ⟨r, hr, hval, hge⟩ := hmax hne
    rw [← hval]
    refine ⟨?_, fun hall => hzero r hr (hall r hr)⟩
    -- the largest number is 0, so they all are
    intro hnil r' hr'
    have hr0 : ¬ r.n_a.n > 0 := fun h => hpos r hr h hnil
    rcases hge r' hr' with hgt | ⟨heq, -⟩ <;> omega

/-- **The value that `prepare` selects.** It returns false when some node says that the
instance is old, and has then committed the value of the first such node. Otherwise it adds
the nodes that accepted, in order, and `v` is the value of a reply whose `n_a` is the largest,
or as it was when there is none. When a reply has a value exactly if it has a number, a `v`
that started empty, or that some reply has replaced, is empty exactly if no reply has one. -/
theorem prepare_selects (acc : acceptor) (inst : ℕ) (nodes : List (Str × Outcome))
    (accepts : List Str) (v : Str) (highest : prop_t) :
    ((prepare acc inst nodes accepts v highest).1 = false ↔ ∃ x ∈ nodes, x.2.old ≠ none)
      ∧ (∀ value, firstOld nodes = some value →
        (prepare acc inst nodes accepts v highest).2.1 = commit acc inst value)
      ∧ ((∀ x ∈ nodes, x.2.old = none) → ∃ w,
        prepare acc inst nodes accepts v highest = (true, acc, accepts ++ accepters nodes, w)
          ∧ (accepting nodes = [] → w = v)
          ∧ (accepting nodes ≠ [] →
            ∃ r ∈ accepting nodes, r.v_a = w ∧ ∀ r' ∈ accepting nodes, prop_ge r.n_a r'.n_a)
          ∧ ((∀ r ∈ accepting nodes, r.n_a.n = 0 → r.v_a = []) →
            (∀ r ∈ accepting nodes, r.n_a.n > 0 → r.v_a ≠ []) →
            (v = [] ∨ accepting nodes ≠ []) →
            (w = [] ↔ ∀ r ∈ accepting nodes, r.n_a.n = 0))) := by
  obtain ⟨hfirst, hrest⟩ := prepare_loop_spec nodes (selected_start accepts v highest)
  have hnone : firstOld nodes = none ↔ ∀ x ∈ nodes, x.2.old = none := List.findSome?_eq_none_iff
  unfold prepare
  rcases hloop : prepare_loop nodes ⟨accepts, v, highest, false⟩ with ⟨old, l⟩
  rw [hloop] at hfirst hrest
  rcases old with _ | value
  · obtain ⟨haccepts, hsel⟩ := hrest hfirst.symm
    rw [List.nil_append] at hsel
    have hall := hnone.mp hfirst.symm
    refine ⟨⟨?_, ?_⟩, ?_, fun _ => ⟨l.v, ?_, hsel.spec.1, hsel.spec.2, hsel.empty_iff⟩⟩
    · intro h
      cases h
    · rintro ⟨x, hx, hne⟩
      exact absurd (hall x hx) hne
    · intro value hvalue
      cases hfirst.trans hvalue
    · have haccepts' : l.accepts = accepts ++ accepters nodes := haccepts
      rw [← haccepts']
  · refine ⟨⟨?_, fun _ => rfl⟩, ?_, ?_⟩
    · intro _
      by_contra hno
      push Not at hno
      cases hfirst.trans (hnone.mpr hno)
    · intro value' hvalue'
      obtain rfl := Option.some.inj (hfirst.trans hvalue')
      rfl
    · intro hall
      cases hfirst.trans (hnone.mpr hall)

/-- Five nodes, of which one cannot be bound, one fails and one rejects. -/
def fiveNodes : List (Str × Outcome) :=
  [(['a'], .returned OK ⟨false, true, ⟨0, ['a']⟩, []⟩), (['b'], .unreachable),
    (['c'], .returned OK ⟨false, true, ⟨2, ['c']⟩, ['x']⟩),
    (['d'], .returned (-1) ⟨false, true, ⟨9, []⟩, []⟩),
    (['e'], .returned OK ⟨false, false, ⟨0, []⟩, []⟩)]

theorem prepare_selects_fiveNodes :
    ∃ w, prepare (.blank ['a'] []) 1 fiveNodes [] [] ⟨7, []⟩
        = (true, .blank ['a'] [], [['a'], ['c']], w)
      ∧ (∃ r ∈ accepting fiveNodes, r.v_a = w ∧ ∀ r' ∈ accepting fiveNodes, prop_ge r.n_a r'.n_a)
      ∧ w ≠ [] := by
  obtain ⟨w, hw, -, hmax, hempty⟩ :=
    (prepare_selects (.blank ['a'] []) 1 fiveNodes [] [] ⟨7, []⟩).2.2 (by decide)
  refine ⟨w, hw, hmax (by decide), fun hnil => ?_⟩
  have hall := (hempty (by decide) (by decide) (.inl rfl)).mp hnil
  exact absurd hall (by decide)

/-! ## The state machine of the proposer -/

/-- A visit of the state machine: the node is skipped, or its reply is received. -/
def visit (r : Run) (it : Str) : Outcome → Except Str Run
  | .unreachable => .ok r.next
  | .returned ret res => if ret = OK then r.reply it (.prepare res) else .ok r.next

/-- The run has the variables of the loop. -/
structure SameLocals (r : Run) (l : Locals) : Prop where
  accepts : r.accepts = l.accepts
  v : r.v = l.v
  highest : r.highest = if l.inited then some l.highest else none

theorem SameLocals.promised {r : Run} (h : SameLocals r l) (it : Str)
    (res : prepareres) : SameLocals (r.promised it res) (l.take it res) := by
  have hhigh := h.highest
  unfold Run.promised Locals.take
  rcases hinit : l.inited with _ | _
  · rw [hinit, if_neg Bool.false_ne_true] at hhigh
    rw [hhigh, if_pos (.inl rfl)]
    exact ⟨by rw [← h.accepts], rfl, rfl⟩
  · rw [hinit, if_pos rfl] at hhigh
    rw [hhigh]
    by_cases hgt : prop_gt res.n_a l.highest
    · rw [if_pos (.inr hgt)]
      simp only [if_pos hgt]
      exact ⟨by rw [← h.accepts], rfl, rfl⟩
    · have hkeep : ¬ (true = false ∨ prop_gt res.n_a l.highest) := by
        rintro (h | h)
        · cases h
        · exact hgt h
      rw [if_neg hkeep]
      simp only [if_neg hgt]
      exact ⟨by rw [← h.accepts], h.v, rfl⟩

theorem SameLocals.next {r : Run} (h : SameLocals r l) : SameLocals r.next l :=
  ⟨h.accepts, h.v, h.highest⟩

/-- A reply for an old instance ends the run. -/
theorem visit_old {r : Run} {it : Str} {o : Outcome} {value : Str} (h : o.old = some value) :
    visit r it o = .error value := by
  cases o with
  | unreachable => cases h
  | returned ret res =>
    rw [Outcome.old] at h
    split at h
    · next hold =>
      obtain rfl := Option.some.inj h
      rw [visit, if_pos hold.1, Run.reply, if_pos hold.2]
    · cases h

/-- Any other visit is a round of the loop. -/
theorem visit_next {r : Run} (h : SameLocals r l) (it : Str) {o : Outcome} (hold : o.old = none) :
    ∃ r', visit r it o = .ok r' ∧ SameLocals r' (o.accepted.elim l (l.take it)) := by
  cases o with
  | unreachable => exact ⟨r.next, rfl, h.next⟩
  | returned ret res =>
    by_cases hret : ret = OK
    · have hnew : res.oldinstance = false := by
        rcases hb : res.oldinstance with _ | _
        · rfl
        · rw [Outcome.old, if_pos ⟨hret, hb⟩] at hold
          cases hold
      rw [visit, if_pos hret, Run.reply, hnew, if_neg Bool.false_ne_true, Outcome.accepted]
      rcases hacc : res.accept with _ | _
      · refine ⟨r.next, rfl, ?_⟩
        rw [if_neg fun hc => Bool.false_ne_true hc.2.2]
        exact h.next
      · refine ⟨(r.promised it res).next, rfl, ?_⟩
        rw [if_pos ⟨hret, hnew, rfl⟩]
        exact (h.promised it res).next
    · refine ⟨r.next, if_neg hret, ?_⟩
      rw [Outcome.accepted, if_neg fun hc => hret hc.1]
      exact h.next

/-- **The machine is `prepare`.** The visits of a run end where the loop does: with the value
of an old instance, or with the same variables. -/
theorem visits_prepare {r : Run} (nodes : List (Str × Outcome)) (h : SameLocals r l) :
    match prepare_loop nodes l with
    | (some value, _) => nodes.foldlM (fun r x => visit r x.1 x.2) r = .error value
    | (none, l') => ∃ r', nodes.foldlM (fun r x => visit r x.1 x.2) r = .ok r'
        ∧ SameLocals r' l' := by
  induction nodes generalizing r l with
  | nil => exact ⟨r, rfl, h⟩
  | cons x rest ih =>
    obtain ⟨it, o⟩ := x
    rw [prepare_loop_cons, List.foldlM_cons]
    rcases hold : o.old with _ | value
    · obtain ⟨r', hr', hsame⟩ := visit_next h it hold
      rw [hr']
      exact ih hsame
    · rw [visit_old hold]
      rfl

end Yfs.PaxosPrepare
