/-
A proposer that is left alone gets a value decided (`paxos.cc`).

Nothing tells a proposer by how much its number was too low: a rejected `prepare` carries
no number. But `setn` raises `my_n` with every attempt, so after enough attempts it is
above what the acceptors have promised, whoever has tried before and wherever that attempt
has stopped. The next attempt then passes both majority tests.

The result is about every run in which the proposer is left alone (`Alone.Lone`). As long as
no value is decided, the proposer can go on, and it can neither take more than so many steps
nor make more than so many attempts.
-/
import Yfs.PaxosAlone

set_option autoImplicit false

namespace Yfs.PaxosProgress

open Text Yfs.PaxosAcceptor Yfs.PaxosProposer

variable {members : ℕ → List Str} {s s' : System} {a : Act}

namespace Alone

variable (c : Alone) {r r' : Run} {acc : acceptor} {x : Str}

/-! ## An attempt -/

/-- How far the call to the first of the nodes still to be visited has come. -/
def Pending (s : System) (r : Run) (x : Str) : Prop :=
  match r.wait with
  | none => c.Before r (s.nodes x).acc
  | some j => s.requests[j]? = some ⟨r.id, x, r.body⟩
      ∧ match s.handled.find? (fun h => some j == some h.call) with
        | none => c.Before r (s.nodes x).acc
        | some e => c.After r (s.nodes x).acc e.res

/-- The proposer is in an attempt, of which nothing has gone wrong. In an attempt whose
number is higher than `N`, every node that is up has been counted or is still to be
visited. -/
structure Attempting (s : System) (r : Run) : Prop where
  run : (s.nodes c.p).run = some r
  inst : r.inst = c.inst
  my_n : (s.nodes c.p).my_n = r.my_n
  le : r.my_n.n ≤ c.N + 1
  newv : c.V r.newv
  value : if r.stage = .prepare then c.Ok r.v else c.V r.v
  distinct : (r.accepts ++ r.todo).Nodup
  mem : ∀ y ∈ r.accepts ++ r.todo, y ∈ c.group
  counted : ∀ y ∈ r.accepts, c.Counted r (s.nodes y).acc
  rest : ∀ y ∈ r.todo.tail, c.Before r (s.nodes y).acc
  head : ∀ x ∈ r.todo.head?, c.Pending s r x
  quiet : r.todo = [] → r.wait = none
  calm : r.stage ≠ .decide → ∀ y ∈ c.group, c.Calm r.my_n (s.nodes y).acc
  covered : r.stage ≠ .decide → c.N < r.my_n.n → ∀ y ∈ c.group, c.up y = true →
    y ∈ r.accepts ++ r.todo
  won : r.stage = .decide → ∃ w ∈ s.won, w.inst = c.inst ∧ w.v = r.v
    ∧ PaxosProposer.majority c.group w.nodes = true
    ∧ ∀ y ∈ w.nodes, c.up y = true → y ∈ r.todo ∨ c.Has r.v (s.nodes y).acc

/-- Between two attempts. -/
structure Idle (s : System) : Prop where
  run : (s.nodes c.p).run = none
  le : (s.nodes c.p).my_n.n ≤ c.N
  low : ∀ y ∈ c.group, c.Low (s.nodes y).acc

variable {c}

theorem Attempting.value_of_ne (h : c.Attempting s r) (hstage : r.stage ≠ .prepare) : c.V r.v := by
  have hv := h.value
  rwa [if_neg hstage] at hv

/-- The node that is visited is not one of the others. -/
theorem Attempting.head_fresh (h : c.Attempting s r) {rest : List Str}
    (htodo : r.todo = x :: rest) :
    x ∉ r.accepts ∧ x ∉ rest ∧ x ∈ c.group := by
  have hnodup := h.distinct
  rw [htodo, List.nodup_append] at hnodup
  obtain ⟨-, hcons, hdisj⟩ := hnodup
  refine ⟨fun hx => hdisj x hx x List.mem_cons_self rfl, (List.nodup_cons.mp hcons).1, ?_⟩
  refine h.mem x (List.mem_append_right _ ?_)
  rw [htodo]
  exact List.mem_cons_self

/-- **The next node is called.** -/
theorem attempting_call (h : c.Attempting s r) (hb : c.Base s) {rest : List Str}
    (htodo : r.todo = x :: rest) (hwait : r.wait = none) :
    c.Attempting
      { s.setRun c.p (some { r with wait := some s.requests.length }) with
        requests := s.requests ++ [⟨r.id, x, r.body⟩] }
      { r with wait := some s.requests.length } := by
  have hacc : ∀ y, ((s.setRun c.p (some { r with wait := some s.requests.length })).nodes y).acc
      = (s.nodes y).acc := setRun_acc s c.p _
  refine ⟨setRun_run s c.p _, h.inst, (setRun_my_n s c.p _).trans h.my_n, h.le, h.newv, h.value,
    h.distinct, h.mem, fun y hy => ?_, fun y hy => ?_, fun y hy => ?_, fun hnil => ?_,
    fun hst y hy => ?_, h.covered, fun hst => ?_⟩
  · exact (congrArg (c.Counted r) (hacc y)).mpr (h.counted y hy)
  · exact (congrArg (c.Before r) (hacc y)).mpr (h.rest y hy)
  · have hy' : y ∈ r.todo.head? := hy
    rw [htodo] at hy'
    obtain rfl : x = y := Option.some.inj hy'
    have hbefore := h.head x hy
    rw [Pending, hwait] at hbefore
    refine ⟨List.getElem?_concat_length, ?_⟩
    show match s.handled.find? (fun h => some s.requests.length == some h.call) with
      | none => c.Before r _
      | some e => c.After r _ e.res
    rw [hb.calls.find_none]
    exact (congrArg (c.Before r) (hacc x)).mpr hbefore
  · have hnil' : r.todo = [] := hnil
    rw [htodo] at hnil'
    cases hnil'
  · exact (congrArg (c.Calm r.my_n) (hacc y)).mpr (h.calm hst y hy)
  · obtain ⟨w, hw, hinst, hv, hmaj, hnodes⟩ := h.won hst
    refine ⟨w, hw, hinst, hv, hmaj, fun y hy hup => ?_⟩
    exact (hnodes y hy hup).imp id (congrArg (c.Has r.v) (hacc y)).mpr

/-- The request that is waited for, and whether it has been handled. -/
theorem Attempting.waiting (h : c.Attempting s r) {j : ℕ} (hwait : r.wait = some j) :
    ∃ x rest, r.todo = x :: rest ∧ s.requests[j]? = some ⟨r.id, x, r.body⟩
      ∧ match s.handled.find? (fun h => some j == some h.call) with
        | none => c.Before r (s.nodes x).acc
        | some e => c.After r (s.nodes x).acc e.res := by
  cases htodo : r.todo with
  | nil =>
    rw [h.quiet htodo] at hwait
    cases hwait
  | cons x rest =>
    have hpending := h.head x (by rw [htodo]; rfl)
    rw [Pending, hwait] at hpending
    exact ⟨x, rest, rfl, hpending.1, hpending.2⟩

/-- The reply that is found is the one to the request that is waited for. -/
theorem Attempting.answered (h : c.Attempting s r) {rest : List Str} {e : Handled}
    (htodo : r.todo = x :: rest)
    (hfound : s.handled.find? (fun h => r.wait == some h.call) = some e) :
    c.After r (s.nodes x).acc e.res := by
  cases hwait : r.wait with
  | none =>
    have hpred := List.find?_some hfound
    rw [hwait] at hpred
    cases hpred
  | some j =>
    obtain ⟨y, rest', htodo', -, hstate⟩ := h.waiting hwait
    rw [hwait] at hfound
    rw [hfound] at hstate
    cases htodo.symm.trans htodo'
    exact hstate

/-- A request that was not handled yet can be, without a failed `VERIFY`. -/
theorem Attempting.answers (h : c.Attempting s r) {j : ℕ} {req : Request}
    (hwait : r.wait = some j) (hsent : s.requests[j]? = some req)
    (hfresh : s.handled.any (·.call == j) = false) :
    ∃ res acc', answer (s.nodes req.dst).acc req.body = some (res, acc') := by
  obtain ⟨x, rest, -, hsent', hstate⟩ := h.waiting hwait
  cases hsent.symm.trans hsent'
  rw [find_none_of_fresh hfresh] at hstate
  obtain ⟨res, acc', hans, -⟩ := answer_before h.inst h.value_of_ne hstate
  exact ⟨res, acc', hans⟩

/-- **The request is handled.** -/
theorem attempting_answer (h : c.Attempting s r) {j : ℕ} {req : Request} {res : Response}
    {acc' : acceptor} (hwait : r.wait = some j) (hsent : s.requests[j]? = some req)
    (hfresh : s.handled.any (·.call == j) = false)
    (hans : answer (s.nodes req.dst).acc req.body = some (res, acc')) :
    c.Attempting
      { s.set req.dst { s.nodes req.dst with acc := acc' } with
        handled := s.handled ++ [⟨j, req, res⟩] } r := by
  obtain ⟨x, rest, htodo, hsent', hstate⟩ := h.waiting hwait
  cases hsent.symm.trans hsent'
  have hnone := find_none_of_fresh hfresh
  rw [hnone] at hstate
  obtain ⟨res', acc'', hans', hafter⟩ := answer_before h.inst h.value_of_ne hstate
  cases hans.symm.trans hans'
  have hself : ((s.set x { s.nodes x with acc := acc' }).nodes x).acc = acc' :=
    congrArg Node.acc (nodes_set_self s x _)
  have hother : ∀ y, y ≠ x →
      ((s.set x { s.nodes x with acc := acc' }).nodes y).acc = (s.nodes y).acc := fun y hy =>
    congrArg Node.acc (nodes_set_ne s hy _)
  obtain ⟨hxa, hxr, hxg⟩ := h.head_fresh htodo
  refine ⟨(set_acc_run s x acc' c.p).trans h.run, h.inst, (set_acc_my_n s x acc' c.p).trans h.my_n,
    h.le, h.newv, h.value, h.distinct, h.mem, fun y hy => ?_, fun y hy => ?_, fun y hy => ?_,
    h.quiet, fun hst y hy => ?_, h.covered, fun hst => ?_⟩
  · have hne : y ≠ x := fun heq => hxa (heq ▸ hy)
    exact (congrArg (c.Counted r) (hother y hne)).mpr (h.counted y hy)
  · have hne : y ≠ x := by
      rintro rfl
      rw [htodo] at hy
      exact hxr hy
    exact (congrArg (c.Before r) (hother y hne)).mpr (h.rest y hy)
  · rw [htodo] at hy
    obtain rfl : x = y := Option.some.inj hy
    rw [Pending, hwait]
    refine ⟨hsent, ?_⟩
    have hfound : (s.handled ++ [Handled.mk j ⟨r.id, x, r.body⟩ res]).find?
        (fun h => some j == some h.call) = some ⟨j, ⟨r.id, x, r.body⟩, res⟩ := by
      rw [List.find?_append, hnone, Option.none_or]
      exact List.find?_cons_of_pos (beq_self_eq_true _)
    show match (s.handled ++ [_]).find? (fun h : Handled => some j == some h.call) with
      | none => c.Before r _
      | some e => c.After r _ e.res
    rw [hfound]
    exact (congrArg (fun acc => c.After r acc res) hself).mpr hafter
  · by_cases hne : y = x
    · subst hne
      exact (congrArg (c.Calm r.my_n) hself).mpr (hafter.calm hst)
    · exact (congrArg (c.Calm r.my_n) (hother y hne)).mpr (h.calm hst y hy)
  · obtain ⟨w, hw, hinst, hv, hmaj, hnodes⟩ := h.won hst
    refine ⟨w, hw, hinst, hv, hmaj, fun y hy hup => ?_⟩
    by_cases hne : y = x
    · refine .inl ?_
      rw [htodo, hne]
      exact List.mem_cons_self
    · exact (hnodes y hy hup).imp id (congrArg (c.Has r.v) (hother y hne)).mpr

/-- What the rest of the loop does not depend on. -/
structure SameLoop (r r' : Run) : Prop where
  inst : r'.inst = r.inst
  newv : r'.newv = r.newv
  my_n : r'.my_n = r.my_n
  stage : r'.stage = r.stage
  v : r.stage ≠ .prepare → r'.v = r.v

theorem SameLoop.before (h : SameLoop r r') : c.Before r' = c.Before r := by
  funext acc
  unfold Before
  rw [h.stage, h.my_n]
  cases hs : r.stage with
  | prepare => rfl
  | accept => rfl
  | decide => rw [h.v (by rw [hs]; exact Stage.noConfusion)]

theorem SameLoop.counted (h : SameLoop r r') : c.Counted r' = c.Counted r := by
  funext acc
  unfold Counted
  rw [h.stage, h.my_n]
  cases hs : r.stage with
  | prepare => rfl
  | accept => rw [h.v (by rw [hs]; exact Stage.noConfusion)]
  | decide => rfl

/-- **The loop goes to the next node**, with or without having counted this one. A node
that is up may be left out only where its promise is not needed, and in `decide` only
when it has the value. -/
theorem attempting_next (h : c.Attempting s r) {rest : List Str} (htodo : r.todo = x :: rest)
    (hsame : SameLoop r r') (htodo' : r'.todo = rest) (hwait : r'.wait = none)
    (hvalue : if r'.stage = .prepare then c.Ok r'.v else c.V r'.v)
    (haccepts : r'.accepts = r.accepts
      ∨ (r'.accepts = r.accepts ++ [x] ∧ c.Counted r (s.nodes x).acc))
    (hcovered : r.stage ≠ .decide → c.N < r.my_n.n → c.up x = true → x ∈ r'.accepts)
    (hhas : r.stage = .decide → c.up x = true → c.Has r.v (s.nodes x).acc) :
    c.Attempting (s.setRun c.p (some r')) r' := by
  have hacc : ∀ y, ((s.setRun c.p (some r')).nodes y).acc = (s.nodes y).acc := setRun_acc s c.p _
  -- `x` leaves `todo`, and nobody else joins `accepts`
  have hsub : ∀ y ∈ r'.accepts ++ r'.todo, y ∈ r.accepts ++ r.todo := by
    intro y hy
    rw [htodo'] at hy
    rw [htodo]
    rcases haccepts with heq | ⟨heq, -⟩
    · rw [heq] at hy
      exact (List.mem_append.mp hy).elim (List.mem_append_left _)
        fun hr => List.mem_append_right _ (List.mem_cons_of_mem _ hr)
    · rw [heq, List.append_assoc, List.singleton_append] at hy
      exact hy
  have hstays : ∀ y, y ≠ x → y ∈ r.accepts ++ r.todo → y ∈ r'.accepts ++ r'.todo := by
    intro y hne hy
    rw [htodo] at hy
    rw [htodo']
    rcases haccepts with heq | ⟨heq, -⟩
    · rw [heq]
      rcases List.mem_append.mp hy with ha | hr
      · exact List.mem_append_left _ ha
      · exact List.mem_append_right _ ((List.mem_cons.mp hr).resolve_left hne)
    · rw [heq, List.append_assoc, List.singleton_append]
      exact hy
  refine ⟨setRun_run s c.p _, hsame.inst.trans h.inst,
    (setRun_my_n s c.p _).trans (h.my_n.trans hsame.my_n.symm), hsame.my_n ▸ h.le,
    hsame.newv ▸ h.newv, hvalue, ?_, fun y hy => h.mem y (hsub y hy), fun y hy => ?_,
    fun y hy => ?_, fun y hy => ?_, fun _ => hwait, fun hst y hy => ?_,
    fun hst hhigh y hy hup => ?_, fun hst => ?_⟩
  · have hnodup := h.distinct
    rw [htodo] at hnodup
    rw [htodo']
    rcases haccepts with heq | ⟨heq, -⟩
    · rw [heq]
      exact hnodup.sublist ((List.sublist_cons_self x rest).append_left r.accepts)
    · rwa [heq, List.append_assoc, List.singleton_append]
  · rw [hsame.counted, hacc]
    rcases haccepts with heq | ⟨heq, hx⟩
    · exact h.counted y (heq ▸ hy)
    · rw [heq] at hy
      rcases List.mem_append.mp hy with hold | hnew
      · exact h.counted y hold
      · rw [List.mem_singleton.mp hnew]
        exact hx
  · rw [hsame.before, hacc]
    refine h.rest y ?_
    rw [htodo'] at hy
    rw [htodo]
    exact List.mem_of_mem_tail hy
  · rw [Pending, hwait]
    dsimp only
    rw [hsame.before, hacc]
    refine h.rest y ?_
    rw [htodo'] at hy
    rw [htodo]
    exact List.mem_of_mem_head? hy
  · rw [hsame.my_n, hacc]
    exact h.calm (hsame.stage ▸ hst) y hy
  · rw [hsame.my_n] at hhigh
    rw [hsame.stage] at hst
    by_cases hne : y = x
    · subst hne
      exact List.mem_append_left _ (hcovered hst hhigh hup)
    · exact hstays y hne (h.covered hst hhigh y hy hup)
  · rw [hsame.stage] at hst
    obtain ⟨w, hw, hinst, hv, hmaj, hnodes⟩ := h.won hst
    have hv' : r'.v = r.v := hsame.v (by rw [hst]; exact Stage.noConfusion)
    rw [hv']
    refine ⟨w, hw, hinst, hv, hmaj, fun y hy hup => ?_⟩
    rw [hacc, htodo']
    by_cases hne : y = x
    · subst hne
      exact .inr (hhas hst hup)
    · refine (hnodes y hy hup).imp (fun hmem => ?_) id
      rw [htodo] at hmem
      exact (List.mem_cons.mp hmem).resolve_left hne

/-- A node that is not up is given up. -/
theorem attempting_skip (h : c.Attempting s r) {rest : List Str} (htodo : r.todo = x :: rest)
    (hdown : c.up x = false) : c.Attempting (s.setRun c.p (some r.next)) r.next := by
  refine attempting_next h htodo ⟨rfl, rfl, rfl, rfl, fun _ => rfl⟩ ?_ rfl h.value (.inl rfl)
    (fun _ _ hup => ?_) fun _ hup => ?_
  · show r.todo.tail = rest
    rw [htodo, List.tail_cons]
  · rw [hdown] at hup
    cases hup
  · rw [hdown] at hup
    cases hup

/-- **The reply arrives**, and the loop goes on. -/
theorem attempting_reply (h : c.Attempting s r) {rest : List Str} {res : Response}
    (htodo : r.todo = x :: rest) (hafter : c.After r (s.nodes x).acc res) :
    ∃ r', r.reply x res = .ok r' ∧ c.Attempting (s.setRun c.p (some r')) r'
      ∧ r'.stage = r.stage ∧ r'.my_n = r.my_n ∧ r'.todo = rest ∧ r'.wait = none := by
  have htail : r.todo.tail = rest := by rw [htodo, List.tail_cons]
  unfold After at hafter
  cases hstage : r.stage with
  | prepare =>
    rw [hstage] at hafter
    obtain ⟨pr, rfl, hold, hv, hacc, hhigh⟩ := hafter
    have hvalue := h.value
    rw [if_pos hstage] at hvalue
    cases haccept : pr.accept with
    | true =>
      rw [haccept, if_pos rfl] at hacc
      obtain ⟨-, hinst, hnewv, hmy_n, hst, htodo', haccepts, hv'⟩ := Run.promised_fields r x pr
      have hcounted : c.Counted r (s.nodes x).acc := by
        rw [Counted, hstage]
        exact hacc
      refine ⟨(r.promised x pr).next, ?_, ?_, hst.trans hstage, hmy_n, ?_, rfl⟩
      · simp only [Run.reply, hold, haccept, Bool.false_eq_true, if_false, if_true]
      · refine attempting_next h htodo ⟨hinst, hnewv, hmy_n, hst, fun hne => ?_⟩ ?_ rfl ?_
          (.inr ⟨haccepts, hcounted⟩) (fun _ _ _ => ?_) fun hdec => ?_
        · exact absurd hstage hne
        · exact (congrArg List.tail htodo').trans htail
        · rw [if_pos (show (r.promised x pr).next.stage = .prepare from hst.trans hstage)]
          show c.Ok (r.promised x pr).v
          rcases hv' with heq | heq
          · rw [heq]
            exact hvalue
          · rw [heq]
            exact hv
        · show x ∈ (r.promised x pr).accepts
          rw [haccepts]
          exact List.mem_append_right _ (List.mem_singleton_self x)
        · rw [hstage] at hdec
          cases hdec
      · exact (congrArg List.tail htodo').trans htail
    | false =>
      refine ⟨r.next, ?_, ?_, hstage, rfl, htail, rfl⟩
      · simp only [Run.reply, hold, haccept, Bool.false_eq_true, if_false]
      · refine attempting_next h htodo ⟨rfl, rfl, rfl, rfl, fun _ => rfl⟩ htail rfl h.value
          (.inl rfl) (fun _ hn _ => ?_) fun hdec => ?_
        · rw [hhigh hn] at haccept
          cases haccept
        · rw [hstage] at hdec
          cases hdec
  | accept =>
    rw [hstage] at hafter
    obtain ⟨rfl, hvoted⟩ := hafter
    have hcounted : c.Counted r (s.nodes x).acc := by
      rw [Counted, hstage]
      exact hvoted
    refine ⟨{ r.next with accepts := r.accepts ++ [x] }, rfl, ?_, hstage, rfl, htail, rfl⟩
    refine attempting_next h htodo ⟨rfl, rfl, rfl, rfl, fun _ => rfl⟩ htail rfl h.value
      (.inr ⟨rfl, hcounted⟩) (fun _ _ _ => ?_) fun hdec => ?_
    · exact List.mem_append_right _ (List.mem_singleton_self x)
    · rw [hstage] at hdec
      cases hdec
  | decide =>
    rw [hstage] at hafter
    obtain ⟨rfl, hhas⟩ := hafter
    refine ⟨r.next, rfl, ?_, hstage, rfl, htail, rfl⟩
    exact attempting_next h htodo ⟨rfl, rfl, rfl, rfl, fun _ => rfl⟩ htail rfl h.value
      (.inl rfl) (fun hne => absurd hstage hne) fun _ _ => hhas

/-- The number of an attempt that ends without a majority was too low. -/
theorem Attempting.idle (h : c.Attempting s r) (htodo : r.todo = []) (hstage : r.stage ≠ .decide)
    (hmaj : PaxosProposer.majority c.group r.accepts ≠ true) : c.Idle (s.setRun c.p none) := by
  have hle : r.my_n.n ≤ c.N := by
    by_contra hhigh
    refine hmaj (majority_mono ?_ c.majority)
    intro y hy
    obtain ⟨hgroup, hup⟩ := List.mem_filter.mp hy
    have hmem := h.covered hstage (Nat.lt_of_not_le hhigh) y hgroup hup
    rwa [htodo, List.append_nil] at hmem
  refine ⟨setRun_run s c.p _, ?_, fun y hy => ?_⟩
  · rw [setRun_my_n, h.my_n]
    exact hle
  · rw [setRun_acc]
    rcases h.calm hstage y hy with hlow | ⟨hinst, hn, hv⟩
    · exact hlow
    · exact ⟨hinst, hn ▸ hle, hv⟩

/-- The next loop begins. It visits the nodes that were counted in the one before, and each is
where the requests of the new stage expect it. -/
theorem attempting_enter (h : c.Attempting s r) (htodo : r.todo = [])
    (hstage : r.stage ≠ .decide) (hnodes : s'.nodes = (s.setRun c.p (some r')).nodes)
    (hinst : r'.inst = r.inst) (hmy_n : r'.my_n = r.my_n) (hnewv : r'.newv = r.newv)
    (htodo' : r'.todo = r.accepts) (haccepts : r'.accepts = []) (hwait : r'.wait = r.wait)
    (hprepare : r'.stage ≠ .prepare) (hvalue : c.V r'.v)
    (hbefore : ∀ y ∈ r.accepts, c.Before r' (s.nodes y).acc)
    (hwon : r'.stage = .decide → ∃ w ∈ s'.won, w.inst = c.inst ∧ w.v = r'.v
      ∧ PaxosProposer.majority c.group w.nodes = true ∧ w.nodes = r.accepts) :
    c.Attempting s' r' := by
  have hacc : ∀ y, (s'.nodes y).acc = (s.nodes y).acc := by
    intro y
    rw [hnodes, setRun_acc]
  have hquiet : r'.wait = none := hwait.trans (h.quiet htodo)
  have hall : r'.accepts ++ r'.todo = r.accepts ++ r.todo := by
    rw [haccepts, htodo', htodo, List.nil_append, List.append_nil]
  refine ⟨?_, hinst.trans h.inst, ?_, hmy_n ▸ h.le, hnewv ▸ h.newv, ?_, hall ▸ h.distinct,
    hall ▸ h.mem, ?_, fun y hy => ?_, fun y hy => ?_, fun _ => hquiet, fun _ y hy => ?_,
    fun _ hhigh => ?_, fun hdec => ?_⟩
  · rw [hnodes, setRun_run]
  · rw [hnodes, setRun_my_n, h.my_n, hmy_n]
  · rwa [if_neg hprepare]
  · rw [haccepts]
    exact List.forall_mem_nil _
  · rw [htodo'] at hy
    rw [hacc]
    exact hbefore y (List.mem_of_mem_tail hy)
  · rw [htodo'] at hy
    rw [Pending, hquiet]
    dsimp only
    rw [hacc]
    exact hbefore y (List.mem_of_mem_head? hy)
  · rw [hmy_n, hacc]
    exact h.calm hstage y hy
  · rw [hmy_n] at hhigh
    rw [hall]
    exact h.covered hstage hhigh
  · obtain ⟨w, hw, hwinst, hv, hmaj, hcounted⟩ := hwon hdec
    refine ⟨w, hw, hwinst, hv, hmaj, fun y hy _ => .inl ?_⟩
    rwa [htodo', ← hcounted]

/-- **A loop is over**: the next one begins, or the attempt ends. -/
theorem attempting_advance (h : c.Attempting s r) (htodo : r.todo = []) :
    c.Decided (advance c.members s c.p r) ∨ c.Idle (advance c.members s c.p r)
      ∨ ∃ r', c.Attempting (advance c.members s c.p r) r' ∧ r'.my_n = r.my_n ∧ r'.wait = none
        ∧ r'.todo.length ≤ c.group.length
        ∧ (r.stage = .prepare ∧ r'.stage = .accept ∨ r.stage = .accept ∧ r'.stage = .decide) := by
  have hlen : r.accepts.length ≤ c.group.length :=
    ((List.nodup_append.mp h.distinct).1.subperm
      fun y hy => h.mem y (List.mem_append_left _ hy)).length_le
  have hgroup : c.members r.inst = c.group := by
    rw [h.inst]
    rfl
  unfold advance
  rw [hgroup]
  cases hstage : r.stage with
  | prepare =>
    dsimp only
    have hdecide : r.stage ≠ .decide := by
      rw [hstage]
      exact Stage.noConfusion
    have hvalue := h.value
    rw [if_pos hstage] at hvalue
    by_cases hmaj : PaxosProposer.majority c.group r.accepts = true
    · rw [if_pos hmaj]
      refine .inr (.inr ⟨_, attempting_enter h htodo hdecide rfl rfl rfl rfl rfl rfl rfl
        Stage.noConfusion ?_ (fun y hy => ?_) Stage.noConfusion, rfl, h.quiet htodo, hlen,
        .inl ⟨rfl, rfl⟩⟩)
      · show c.V (if r.v = [] then r.newv else r.v)
        split
        · exact h.newv
        · next hne => exact hvalue.resolve_left hne
      · have hcounted := h.counted y hy
        rwa [Counted, hstage] at hcounted
    · rw [if_neg hmaj]
      exact .inr (.inl (h.idle htodo hdecide hmaj))
  | accept =>
    dsimp only
    have hdecide : r.stage ≠ .decide := by
      rw [hstage]
      exact Stage.noConfusion
    have hvalue := h.value_of_ne (by rw [hstage]; exact Stage.noConfusion)
    by_cases hmaj : PaxosProposer.majority c.group r.accepts = true
    · rw [if_pos hmaj]
      refine .inr (.inr ⟨_, attempting_enter h htodo hdecide rfl rfl rfl rfl rfl rfl rfl
        Stage.noConfusion hvalue (fun y hy => ?_) fun _ => ?_, rfl, h.quiet htodo, hlen,
        .inr ⟨rfl, rfl⟩⟩)
      · have hcounted := h.counted y hy
        rwa [Counted, hstage] at hcounted
      · exact ⟨_, List.mem_append_right _ (List.mem_singleton_self _), h.inst, rfl, hmaj, rfl⟩
    · rw [if_neg hmaj]
      exact .inr (.inl (h.idle htodo hdecide hmaj))
  | decide =>
    refine .inl ?_
    obtain ⟨w, hw, hinst, hv, hmaj, hnodes⟩ := h.won hstage
    have hvalue := h.value_of_ne (by rw [hstage]; exact Stage.noConfusion)
    refine ⟨w, hw, hinst, hv ▸ hvalue, hmaj, fun y hy hup => ?_⟩
    rcases hnodes y hy hup with hmem' | hhas
    · rw [htodo] at hmem'
      cases hmem'
    · rw [hv]
      exact (congrArg (c.Has r.v) (setRun_acc s c.p none y)).mpr hhas

/-! ## From attempt to attempt -/

/-- `setn`, while the numbers are small. -/
theorem setn_eq {n_h my_n : ℕ} (hh : n_h + 1 < 2 ^ 32) (hm : my_n + 1 < 2 ^ 32) :
    setn n_h my_n = max (n_h + 1) (my_n + 1) := by
  unfold setn
  rw [Nat.mod_eq_of_lt hh, Nat.mod_eq_of_lt hm]
  split
  · omega
  · omega

/-- **An attempt begins**, with a higher number than the last. -/
theorem attempting_begin (h : c.Idle s) {newv : Str} (hV : c.V newv) :
    ∃ n r, n = setn (s.nodes c.p).acc.n_h.n (s.nodes c.p).my_n.n
      ∧ (s.nodes c.p).my_n.n < n
      ∧ r = ⟨s.attempts.length, c.inst, newv, ⟨n, c.p⟩, .prepare, c.group, none, [], [], none⟩
      ∧ ∀ attempts, c.Attempting
        { s.set c.p { s.nodes c.p with my_n := ⟨n, c.p⟩, run := some r } with attempts } r := by
  have hown := h.low c.p c.member
  have hN := c.N_lt
  have hle := h.le
  have hn : setn (s.nodes c.p).acc.n_h.n (s.nodes c.p).my_n.n
      = max ((s.nodes c.p).acc.n_h.n + 1) ((s.nodes c.p).my_n.n + 1) :=
    setn_eq (by have := hown.2.1; omega) (by omega)
  refine ⟨_, _, rfl, ?_, rfl, fun attempts => ?_⟩
  · rw [hn]
    omega
  · generalize setn (s.nodes c.p).acc.n_h.n (s.nodes c.p).my_n.n = n at hn
    have hacc : ∀ y, ((s.set c.p { s.nodes c.p with
        my_n := ⟨n, c.p⟩
        run := some ⟨s.attempts.length, c.inst, newv, ⟨n, c.p⟩, .prepare, c.group, none, [], [],
          none⟩ }).nodes y).acc = (s.nodes y).acc := set_run_acc s c.p (by rfl)
    have hlow : ∀ y ∈ c.group, c.Low ((s.set c.p { s.nodes c.p with
        my_n := ⟨n, c.p⟩
        run := some ⟨s.attempts.length, c.inst, newv, ⟨n, c.p⟩, .prepare, c.group, none, [], [],
          none⟩ }).nodes y).acc := by
      intro y hy
      rw [hacc]
      exact h.low y hy
    refine ⟨congrArg Node.run (nodes_set_self s c.p _), rfl,
      congrArg Node.my_n (nodes_set_self s c.p _), ?_, hV, ?_, c.nodup, fun y hy => hy,
      List.forall_mem_nil _, fun y hy => hlow y (List.mem_of_mem_tail hy),
      fun y hy => hlow y (List.mem_of_mem_head? hy), fun _ => rfl, fun _ y hy => .inl (hlow y hy),
      fun _ _ y hy _ => hy, fun hdec => Stage.noConfusion hdec⟩
    · show n ≤ c.N + 1
      have := hown.2.1
      omega
    · rw [if_pos rfl]
      exact .inl rfl

variable (c)

/-- Nothing is decided yet. -/
def Open (s : System) : Prop := c.Idle s ∨ ∃ r, c.Attempting s r

/-- How many attempts the proposer can still begin. -/
def tries (s : System) : ℕ := c.N + 1 - (s.nodes c.p).my_n.n

/-- The loops that follow after this one, for `m` nodes: three steps a node and one at the
end of each. -/
def stagesAfter (m : ℕ) : Stage → ℕ
  | .prepare => 2 * (3 * m + 1)
  | .accept => 3 * m + 1
  | .decide => 0

/-- The steps that have been taken with the first node of the loop. -/
def taken (s : System) (r : Run) : ℕ :=
  match r.wait with
  | none => 0
  | some j => if s.handled.any (·.call == j) then 2 else 1

/-- The steps an attempt can still take. -/
def left (s : System) : ℕ :=
  match (s.nodes c.p).run with
  | none => 0
  | some r => stagesAfter c.group.length r.stage + 3 * r.todo.length + 1 - taken s r

/-- The steps the proposer can still take. -/
def rank (s : System) : ℕ := c.tries s * (9 * c.group.length + 4) + c.left s

def begins : Act → Bool
  | .begin _ _ _ => true
  | _ => false

variable {c}

theorem taken_le (s : System) (r : Run) : taken s r ≤ 2 := by
  unfold taken
  split
  · exact Nat.zero_le _
  · split
    · exact Nat.le_refl _
    · exact Nat.le_succ _

theorem one_le_taken (s : System) {j : ℕ} (hwait : r.wait = some j) : 1 ≤ taken s r := by
  rw [taken, hwait]
  dsimp only
  split <;> omega

theorem Attempting.left_eq (h : c.Attempting s r) :
    c.left s = stagesAfter c.group.length r.stage + 3 * r.todo.length + 1 - taken s r := by
  rw [left, h.run]

/-- A step within a loop. -/
theorem left_lt (h : c.Attempting s r) (h' : c.Attempting s' r') (hstage : r'.stage = r.stage)
    (hlt : 3 * r'.todo.length + taken s r < 3 * r.todo.length + taken s' r') :
    c.left s' < c.left s := by
  have htaken : taken s r ≤ 3 * r.todo.length := by
    cases htodo : r.todo with
    | nil =>
      rw [taken, h.quiet htodo]
      exact Nat.zero_le _
    | cons x rest =>
      have := taken_le s r
      rw [List.length_cons]
      omega
  rw [h.left_eq, h'.left_eq, hstage]
  omega

/-- A step within an attempt. -/
theorem rank_lt (hmy_n : (s'.nodes c.p).my_n = (s.nodes c.p).my_n) (hleft : c.left s' < c.left s) :
    c.rank s' + 1 ≤ c.rank s ∧ c.tries s' ≤ c.tries s := by
  have htries : c.tries s' = c.tries s := by rw [tries, tries, hmy_n]
  rw [rank, rank, htries]
  exact ⟨by omega, Nat.le_refl _⟩

/-- An attempt begins. -/
theorem rank_begin (hidle : c.Idle s) (hr : c.Attempting s' r) (hstage : r.stage = .prepare)
    (htodo : r.todo = c.group) (hlt : (s.nodes c.p).my_n.n < r.my_n.n) :
    c.rank s' + 1 ≤ c.rank s ∧ c.tries s' + 1 ≤ c.tries s := by
  have htries : c.tries s' + 1 ≤ c.tries s := by
    have hle := hr.le
    rw [tries, tries, hr.my_n]
    omega
  have hidleLeft : c.left s = 0 := by rw [left, hidle.run]
  have hleft : c.left s' ≤ 9 * c.group.length + 3 := by
    rw [hr.left_eq, hstage, htodo, stagesAfter]
    omega
  have hmul := Nat.mul_le_mul_right (9 * c.group.length + 4) htries
  rw [Nat.succ_mul] at hmul
  refine ⟨?_, htries⟩
  rw [rank, rank, hidleLeft]
  omega

/-- **A step within an attempt**: it decides, or it brings the decision nearer. -/
theorem attempting_step (hb : c.Base s) (hr : c.Attempting s r) (hl : c.Lone s a)
    (hs : step c.members s a = some s') :
    c.Decided s' ∨ (c.Open s' ∧ (s'.nodes c.p).my_n = (s.nodes c.p).my_n
      ∧ c.left s' < c.left s ∧ begins a = false) := by
  have hleft := hr.left_eq
  have htaken := taken_le s r
  cases moves_of_step hs with
  | begin p inst newv hidle =>
    obtain ⟨rfl, -⟩ := hl
    rw [hr.run] at hidle
    cases hidle
  | call p x r' rest hrun htodo hwait =>
    obtain rfl : p = c.p := hl
    cases hr.run.symm.trans hrun
    have hr' := attempting_call hr hb htodo hwait
    refine .inr ⟨.inr ⟨_, hr'⟩, setRun_my_n s c.p _, left_lt hr hr' rfl ?_, rfl⟩
    have hzero : taken s r = 0 := by rw [taken, hwait]
    rw [hzero]
    exact Nat.lt_add_of_pos_right (one_le_taken _ rfl)
  | skip p r' hrun htodo =>
    obtain ⟨rfl, hdown⟩ := hl
    cases hr.run.symm.trans hrun
    cases htodo' : r.todo with
    | nil => exact absurd htodo' htodo
    | cons x rest =>
      have hx : c.up x = false := hdown r hr.run x (by rw [htodo']; rfl)
      have hr' := attempting_skip hr htodo' hx
      refine .inr ⟨.inr ⟨_, hr'⟩, setRun_my_n s c.p _, left_lt hr hr' rfl ?_, rfl⟩
      have hlen : r.next.todo.length + 1 = r.todo.length := by
        show r.todo.tail.length + 1 = _
        rw [htodo', List.tail_cons, List.length_cons]
      omega
  | reply p x r' r'' rest e hrun htodo hfound hok =>
    obtain rfl : p = c.p := hl
    cases hr.run.symm.trans hrun
    obtain ⟨r₁, hok₁, hr₁, hstage, -, htodo₁, -⟩ :=
      attempting_reply hr htodo (hr.answered htodo hfound)
    cases hok.symm.trans hok₁
    refine .inr ⟨.inr ⟨_, hr₁⟩, setRun_my_n s c.p _, left_lt hr hr₁ hstage ?_, rfl⟩
    rw [htodo₁, htodo, List.length_cons]
    omega
  | old p x r' rest e v hrun htodo hfound herror =>
    obtain rfl : p = c.p := hl
    cases hr.run.symm.trans hrun
    -- no acceptor has decided the instance, so none reports it as old
    obtain ⟨r₁, hok₁, -⟩ := attempting_reply hr htodo (hr.answered htodo hfound)
    cases herror.symm.trans hok₁
  | advance p r' hrun htodo =>
    obtain rfl : p = c.p := hl
    cases hr.run.symm.trans hrun
    have hzero : taken s r = 0 := by rw [taken, hr.quiet htodo]
    rcases attempting_advance hr htodo with hdec | hidle | ⟨r₁, hr₁, hmy_n, hwait, hlen, hstage⟩
    · exact .inl hdec
    · refine .inr ⟨.inl hidle, advance_my_n c.members s c.p r, ?_, rfl⟩
      have hover : c.left (advance c.members s c.p r) = 0 := by rw [left, hidle.run]
      rw [hover, hleft, hzero]
      omega
    · refine .inr ⟨.inr ⟨_, hr₁⟩, advance_my_n c.members s c.p r, ?_, rfl⟩
      rw [hr₁.left_eq, hleft, hzero, htodo, List.length_nil]
      rcases hstage with ⟨h₁, h₂⟩ | ⟨h₁, h₂⟩
      · rw [h₁, h₂, stagesAfter, stagesAfter]
        omega
      · rw [h₁, h₂, stagesAfter, stagesAfter]
        omega
  | answer j req res acc hsent hfresh hanswer =>
    obtain ⟨r', hrun, hwait⟩ := hl
    cases hr.run.symm.trans hrun
    have hr' := attempting_answer hr hwait hsent hfresh hanswer
    refine .inr ⟨.inr ⟨_, hr'⟩, set_acc_my_n s req.dst acc c.p, left_lt hr hr' rfl ?_, rfl⟩
    have hone : taken s r = 1 := by
      rw [taken, hwait]
      exact if_neg (by rw [hfresh]; exact Bool.false_ne_true)
    have htwo : taken { s.set req.dst { s.nodes req.dst with acc := acc } with
        handled := s.handled ++ [⟨j, req, res⟩] } r = 2 := by
      rw [taken, hwait]
      refine if_pos (List.any_eq_true.mpr ⟨⟨j, req, res⟩, ?_, beq_self_eq_true j⟩)
      exact List.mem_append_right _ (List.mem_singleton_self _)
    rw [hone, htwo]
    exact Nat.lt_succ_self _
  | abort j req nd hsent hfresh hanswer hrestart =>
    obtain ⟨r', hrun, hwait⟩ := hl
    cases hr.run.symm.trans hrun
    obtain ⟨res, acc', hans⟩ := hr.answers hwait hsent hfresh
    cases hanswer.symm.trans hans
  | crash p nd => exact hl.elim

/-- **One step**, before anything is decided: it decides, or it brings the decision nearer. -/
theorem open_step (hb : c.Base s) (ho : c.Open s) (hl : c.Lone s a)
    (hs : step c.members s a = some s') :
    c.Decided s' ∨ (c.Open s' ∧ c.rank s' + 1 ≤ c.rank s
      ∧ c.tries s' + (if begins a = true then 1 else 0) ≤ c.tries s) := by
  rcases ho with hidle | ⟨r, hr⟩
  · have hstuck : ∀ {r}, (s.nodes c.p).run = some r → False := by
      intro r hrun
      rw [hidle.run] at hrun
      cases hrun
    cases moves_of_step hs with
    | begin p inst newv _ =>
      obtain ⟨rfl, rfl, hV⟩ := hl
      obtain ⟨n, r, rfl, hlt, rfl, hr⟩ := attempting_begin hidle hV
      have hr := hr (s.attempts
        ++ [⟨c.p, c.inst, ⟨setn (s.nodes c.p).acc.n_h.n (s.nodes c.p).my_n.n, c.p⟩⟩])
      exact .inr ⟨.inr ⟨_, hr⟩, rank_begin hidle hr rfl rfl hlt⟩
    | call p x r rest hrun => exact (hstuck ((show p = c.p from hl) ▸ hrun)).elim
    | skip p r hrun => exact (hstuck (hl.1 ▸ hrun)).elim
    | reply p x r r' rest e hrun => exact (hstuck ((show p = c.p from hl) ▸ hrun)).elim
    | old p x r rest e v hrun => exact (hstuck ((show p = c.p from hl) ▸ hrun)).elim
    | advance p r hrun => exact (hstuck ((show p = c.p from hl) ▸ hrun)).elim
    | answer | abort =>
      obtain ⟨r, hrun, -⟩ := hl
      exact (hstuck hrun).elim
    | crash => exact hl.elim
  · refine (attempting_step hb hr hl hs).imp id fun ⟨ho, hmy_n, hleft, hbegins⟩ => ?_
    obtain ⟨hrank, htries⟩ := rank_lt hmy_n hleft
    refine ⟨ho, hrank, ?_⟩
    rw [hbegins, if_neg Bool.false_ne_true]
    exact htries

/-- **The proposer is never stuck.** -/
theorem exists_step (ho : c.Open s) : ∃ a s', c.Lone s a ∧ step c.members s a = some s' := by
  rcases ho with hidle | ⟨r, hr⟩
  · obtain ⟨newv, hV, hne⟩ := c.value
    exact ⟨.begin c.p c.inst newv, _, ⟨rfl, rfl, hV⟩, if_pos ⟨hidle.run, c.inst_lt, hne⟩⟩
  · cases htodo : r.todo with
    | nil =>
      exact ⟨.advance c.p, _, rfl, by simp only [step, hr.run, htodo, if_true]; rfl⟩
    | cons x rest =>
      cases hwait : r.wait with
      | none =>
        exact ⟨.call c.p, _, rfl, by simp only [step, hr.run, htodo, hwait]; rfl⟩
      | some j =>
        cases hany : s.handled.any (·.call == j) with
        | false =>
          obtain ⟨y, rest', -, hsent, -⟩ := hr.waiting hwait
          obtain ⟨res, acc', hans⟩ := hr.answers hwait hsent hany
          exact ⟨.handle j, _, ⟨r, hr.run, hwait⟩,
            by simp only [step, hsent, hany, handle, hans]; rfl⟩
        | true =>
          obtain ⟨e, he, hcall⟩ := List.any_eq_true.mp hany
          have hsome : (s.handled.find? fun h => r.wait == some h.call).isSome := by
            rw [List.find?_isSome]
            exact ⟨e, he, by rw [hwait, beq_iff_eq.mp hcall]; exact beq_self_eq_true _⟩
          obtain ⟨e', hfound⟩ := Option.isSome_iff_exists.mp hsome
          have hafter := hr.answered htodo hfound
          obtain ⟨r', hok, -⟩ := attempting_reply hr htodo hafter
          exact ⟨.receive c.p, _, rfl,
            by simp only [step, hr.run, htodo, hfound, if_neg hafter.not_aborted, hok]; rfl⟩

/-- In a run that does not end with a decision no step has decided. -/
theorem undecided_run (hb : c.Base s) {bs : List Act}
    (hlone : Steps.RunMeets (step c.members) c.Lone s bs)
    (hrun : Steps.run (step c.members) s bs = some s') (hno : ¬ c.Decided s') :
    Steps.RunMeets (step c.members)
      (fun t a => c.Lone t a ∧ ∀ t', step c.members t a = some t' → ¬ c.Decided t') s bs := by
  refine Steps.runMeets_and hlone (Steps.runMeets_of_split fun pre b post t hsplit ht t' ht' hdec =>
    hno ?_)
  rw [hsplit] at hlone hrun
  obtain ⟨hpre, hpost⟩ := Steps.runMeets_append hlone ht
  rw [Steps.run_append, ht, Option.bind_some] at hrun
  obtain ⟨t₁, ht₁, hrest⟩ := Steps.run_cons_eq_some.mp hrun
  cases ht'.symm.trans ht₁
  have hbt : c.Base t := Steps.run_inv (fun _ _ _ h hl hs => base_step h hl hs) hb hpre ht
  refine (Steps.run_inv (P := fun t => c.Base t ∧ c.Decided t) (fun _ _ _ h hl hs => ?_)
    ⟨base_step hbt hpost.1 ht', hdec⟩ (hpost.2 t' ht') hrest).2
  exact ⟨base_step h.1 hl hs, decided_step h.1 hl h.2 hs⟩

end Alone

/-- **A proposer that is left alone gets a value decided.** It starts, in any state that a
run reaches, between two attempts, with no node of the instance behind or ahead and no
number above `N` promised. Then every run of its own, in which the nodes that are up
answer, either has decided the instance, on a value somebody wants, or can go on and has
taken only so many attempts and steps: `N + 1` attempts at most, less the number the
proposer starts with, and in each of them three steps a node in each of three loops. -/
theorem lone_proposer_decides (c : Alone) {nodes : Str → Node} {acts bs : List Act}
    (hrun : Steps.run (step c.members) (start nodes) acts = some s) (hidle : c.Idle s)
    (hlone : Steps.RunMeets (step c.members) c.Lone s bs)
    (hrun' : Steps.run (step c.members) s bs = some s') :
    c.Decided s'
      ∨ (bs.countP Alone.begins ≤ c.N + 1 - (s.nodes c.p).my_n.n
        ∧ bs.length ≤ (c.N + 1 - (s.nodes c.p).my_n.n) * (9 * c.group.length + 4)
        ∧ ∃ a s'', c.Lone s' a ∧ step c.members s' a = some s'') := by
  have hb : c.Base s := by
    refine ⟨calls_run hrun, fun r hr => ?_, fun r j hr _ => ?_⟩
    · rw [hidle.run] at hr
      cases hr
    · rw [hidle.run] at hr
      cases hr
  by_cases hdec : c.Decided s'
  · exact .inl hdec
  · have hmeets := Alone.undecided_run hb hlone hrun' hdec
    have hstep : ∀ t a t', c.Base t ∧ c.Open t →
        (c.Lone t a ∧ ∀ t', step c.members t a = some t' → ¬ c.Decided t') →
        step c.members t a = some t' → (c.Base t' ∧ c.Open t') ∧ c.rank t' + 1 ≤ c.rank t
          ∧ c.tries t' + (if Alone.begins a = true then 1 else 0) ≤ c.tries t := by
      intro t a t' ht hl hs
      obtain ⟨ho, hrank⟩ := (Alone.open_step ht.1 ht.2 hl.1 hs).resolve_left (hl.2 t' hs)
      exact ⟨⟨Alone.base_step ht.1 hl.1 hs, ho⟩, hrank⟩
    have hstart : c.Base s ∧ c.Open s := ⟨hb, .inl hidle⟩
    have hend : c.Base s' ∧ c.Open s' :=
      Steps.run_inv (fun t a t' ht hl hs => (hstep t a t' ht hl hs).1) hstart hmeets hrun'
    have hbegins : bs.countP Alone.begins + c.tries s' ≤ c.tries s :=
      Steps.run_count_le (fun t a t' ht hl hs =>
        ⟨(hstep t a t' ht hl hs).1, (hstep t a t' ht hl hs).2.2⟩) hstart hmeets hrun'
    have hlength : bs.countP (fun _ => true) + c.rank s' ≤ c.rank s :=
      Steps.run_count_le (fun t a t' ht hl hs =>
        ⟨(hstep t a t' ht hl hs).1, (hstep t a t' ht hl hs).2.1⟩) hstart hmeets hrun'
    have hrank : c.rank s = (c.N + 1 - (s.nodes c.p).my_n.n) * (9 * c.group.length + 4) := by
      rw [Alone.rank, Alone.left, hidle.run]
      rfl
    rw [List.countP_true, hrank] at hlength
    have htries : c.tries s = c.N + 1 - (s.nodes c.p).my_n.n := rfl
    exact .inr ⟨by omega, by omega, Alone.exists_step hend.2⟩

/-- Nodes on empty logs. -/
def unused (y : Str) : Node := ⟨.blank y [], ⟨0, y⟩, none⟩

/-- Node 2 gets `x` accepted by node 1, and stops there. -/
def halfway : List Act :=
  [.begin ['2'] 1 ['x'], .call ['2'], .handle 0, .receive ['2'], .call ['2'], .handle 1,
    .receive ['2'], .skip ['2'], .advance ['2'], .call ['2'], .handle 2]

/-- Node 1 goes on alone, and wants `y`; node 3 is down. -/
def nodeOne : Alone where
  members := fun _ => [['1'], ['2'], ['3']]
  p := ['1']
  inst := 1
  up := fun y => y ≠ ['3']
  N := 1
  V := fun v => v = ['x'] ∨ v = ['y']
  inst_lt := by decide
  nodup := by decide
  member := by decide
  majority := by decide
  N_lt := by decide
  value := ⟨['y'], .inr rfl, by decide⟩

/-- One attempt, in which node 3 is called and does not answer. -/
def oneAttempt : List Act :=
  [.begin ['1'] 1 ['y'], .call ['1'], .handle 3, .receive ['1'], .call ['1'], .handle 4,
    .receive ['1'], .call ['1'], .skip ['1'], .advance ['1'], .call ['1'], .handle 6,
    .receive ['1'], .call ['1'], .handle 7, .receive ['1'], .advance ['1'], .call ['1'], .handle 8,
    .receive ['1'], .call ['1'], .handle 9, .receive ['1'], .advance ['1']]

/-- The proposer does not stop when it is done: the next attempts learn that the instance is
an old one. -/
def moreAttempts : List Act :=
  [.begin ['1'] 1 ['y'], .call ['1'], .handle 10, .receive ['1'], .begin ['1'] 1 ['y']]

instance decidableLone (c : Alone) [DecidablePred c.V] (s : System) :
    (a : Act) → Decidable (c.Lone s a)
  | .begin q inst newv => inferInstanceAs (Decidable (q = c.p ∧ inst = c.inst ∧ c.V newv))
  | .call q | .receive q | .advance q => inferInstanceAs (Decidable (q = c.p))
  | .skip q => inferInstanceAs (Decidable
      (q = c.p ∧ ∀ r ∈ (s.nodes c.p).run, ∀ x ∈ r.todo.head?, c.up x = false))
  | .handle j => inferInstanceAs (Decidable (∃ r ∈ (s.nodes c.p).run, r.wait = some j))
  | .crash _ => .isFalse fun h => h

instance : DecidablePred nodeOne.V := fun v =>
  inferInstanceAs (Decidable (v = ['x'] ∨ v = ['y']))

/-- The state of the halfway run, as far as node 1 depends on it. -/
theorem halfway_idle (h : Steps.run (step nodeOne.members) (start unused) halfway = some s) :
    nodeOne.Idle s := by
  have hex : (Steps.run (step nodeOne.members) (start unused) halfway).map
      (fun s => ((s.nodes ['1']).run, (s.nodes ['1']).my_n.n,
        nodeOne.group.map fun y => ((s.nodes y).acc.instance_h, (s.nodes y).acc.n_h.n,
          (s.nodes y).acc.v_a)))
        = some (none, 0, [(0, 1, ['x']), (0, 1, []), (0, 0, [])]) := rfl
  rw [h, Option.map_some, Option.some.injEq, Prod.mk.injEq, Prod.mk.injEq] at hex
  obtain ⟨hrun, hmy_n, hgroup⟩ := hex
  refine ⟨hrun, Nat.le_of_eq hmy_n |>.trans (Nat.zero_le _), fun y hy => ?_⟩
  have hlow := List.mem_map_of_mem (f := fun y => ((s.nodes y).acc.instance_h,
    (s.nodes y).acc.n_h.n, (s.nodes y).acc.v_a)) hy
  rw [hgroup] at hlow
  simp only [List.mem_cons, Prod.mk.injEq, List.not_mem_nil, or_false] at hlow
  rcases hlow with ⟨h₁, h₂, h₃⟩ | ⟨h₁, h₂, h₃⟩ | ⟨h₁, h₂, h₃⟩
  · exact ⟨by rw [h₁]; rfl, by rw [h₂]; decide, .inr (h₃ ▸ .inl rfl)⟩
  · exact ⟨by rw [h₁]; rfl, by rw [h₂]; decide, .inl h₃⟩
  · exact ⟨by rw [h₁]; rfl, by rw [h₂]; decide, .inl h₃⟩

/-- Three attempts are one too many for nothing to be decided. -/
theorem lone_proposer_decides_halfway :
    ∃ s s', Steps.run (step nodeOne.members) (start unused) halfway = some s
      ∧ Steps.run (step nodeOne.members) s (oneAttempt ++ moreAttempts) = some s'
      ∧ nodeOne.Decided s' ∧ (s'.nodes ['2']).acc.values 1 = some ['x'] := by
  have hex : ((Steps.run (step nodeOne.members) (start unused) halfway).bind fun s =>
      (Steps.run (step nodeOne.members) s (oneAttempt ++ moreAttempts)).map fun s' =>
        (decide (Steps.RunMeets (step nodeOne.members) nodeOne.Lone s (oneAttempt ++ moreAttempts)),
          (s.nodes ['1']).my_n.n, (s'.nodes ['2']).acc.values 1))
      = some (true, 0, some ['x']) := rfl
  obtain ⟨s, s', hs, hs', hout⟩ := Steps.exists_run_run hex
  simp only [Prod.mk.injEq, decide_eq_true_eq] at hout
  obtain ⟨hlone, hmy_n, hx⟩ := hout
  refine ⟨s, s', hs, hs', ?_, hx⟩
  rcases lone_proposer_decides nodeOne hs (halfway_idle hs) hlone hs' with hdec | ⟨hbegins, -⟩
  · exact hdec
  · have hthree : (oneAttempt ++ moreAttempts).countP Alone.begins = 3 := rfl
    rw [hthree, show (s.nodes nodeOne.p).my_n.n = 0 from hmy_n] at hbegins
    exact absurd hbegins (by decide)

end Yfs.PaxosProgress
