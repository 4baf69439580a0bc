/-
What the proposers know: an invariant of the whole system that holds in every
instance at once.

It ties the locals of every run of the proposer to the history of handled requests.
During `prepare`, `accepts` are nodes that have promised this attempt's number, and
`v` is the value reported with the highest number among them. An attempt that has
passed a majority test leaves a record of what it had then; accept and decide
requests come only from such records. None of this depends on what acceptors do with
their requests, so it needs no condition on the steps but one: an attempt has a
number above 0, a readable name and a readable value.
-/
import Yfs.PaxosHistory

set_option autoImplicit false

namespace Yfs.PaxosRuns

open Text Yfs.PaxosAcceptor Yfs.PaxosLog Yfs.PaxosDurable Yfs.PaxosProposer Yfs.PaxosHistory

/-! ## The pieces -/

/-- The locals of `prepare`: the nodes in `accepts` have promised `n` to this attempt,
and `v` was reported with the highest number. -/
structure Selected (i : ℕ) (hd : List Handled) (id : ℕ) (n : prop_t) (accepts : List Str)
    (v : Str) (highest : Option prop_t) : Prop where
  reports : ∀ a ∈ accepts, ∃ res k h, Promise i hd a n res k id ∧ highest = some h ∧ res.n_a ≤ h
  top : ∀ h, highest = some h →
    ∃ a ∈ accepts, ∃ res k, Promise i hd a n res k id ∧ res.n_a = h ∧ res.v_a = v
  none : highest = none → v = []

def AttemptOk (t : Attempt) : Prop := Record.NumOk t.n ∧ 1 ≤ t.n.n ∧ t.inst < 2 ^ 32

/-- A request comes from an attempt that had the right to send it. -/
def RequestOk (s : System) (req : Request) : Prop :=
  match req.body with
  | .prepare a => ∃ t, s.attempts[req.id]? = some t ∧ t.inst = a.inst ∧ t.n = a.n
  | .accept a => ∃ q ∈ s.passed, q.id = req.id ∧ q.inst = a.inst ∧ q.n = a.n ∧ q.v = a.v
      ∧ req.dst ∈ q.nodes
  | .decide a => ∃ q ∈ s.won, q.id = req.id ∧ q.inst = a.inst ∧ q.v = a.v ∧ req.dst ∈ q.nodes

/-- The answer is of the kind of the request. -/
def SameKind : Body → Response → Prop
  | .prepare _, .prepare r => Record.ValueOk r.v_a
  | .accept _, .accept _ => True
  | .decide _, .decide => True
  | .decide _, .aborted => True
  | _, _ => False

def HandledOk (s : System) (h : Handled) : Prop :=
  s.requests[h.call]? = some h.req ∧ SameKind h.req.body h.res

/-- An attempt that has passed the test after `prepare`. -/
structure PassedOk (members : ℕ → List Str) (s : System) (q : Passed) : Prop where
  attempt : ∃ t, s.attempts[q.id]? = some t ∧ t.inst = q.inst ∧ t.n = q.n
  quorum : majority (members q.inst) q.nodes = true
  value : q.v ≠ [] ∧ Record.ValueOk q.v
  selected : ∃ v highest, Selected q.inst s.handled q.id q.n q.nodes v highest
    ∧ (v ≠ [] → q.v = v)

/-- An attempt that has passed the test after `accept`. -/
structure WonOk (members : ℕ → List Str) (s : System) (q : Passed) : Prop where
  passed : ∃ q' ∈ s.passed, q'.id = q.id ∧ q'.inst = q.inst ∧ q'.n = q.n ∧ q'.v = q.v
  quorum : majority (members q.inst) q.nodes = true
  votes : ∀ a ∈ q.nodes, Vote q.inst s.handled a q.n q.v

/-- What a run knows in its phase. -/
def StageOk (s : System) (r : Run) : Prop :=
  match r.stage with
  | .prepare => Selected r.inst s.handled r.id r.my_n r.accepts r.v r.highest
      ∧ ∀ q ∈ s.passed, q.id ≠ r.id
  | .accept => ∃ q ∈ s.passed, q.id = r.id ∧ q.inst = r.inst ∧ q.n = r.my_n ∧ q.v = r.v
      ∧ (∀ t ∈ r.todo, t ∈ q.nodes) ∧ ∀ a ∈ r.accepts, Vote r.inst s.handled a r.my_n r.v
  | .decide => ∃ q ∈ s.won, q.id = r.id ∧ q.inst = r.inst ∧ q.v = r.v ∧ ∀ t ∈ r.todo, t ∈ q.nodes

structure RunOk (s : System) (p : Str) (r : Run) : Prop where
  attempt : s.attempts[r.id]? = some ⟨p, r.inst, r.my_n⟩
  newv : r.newv ≠ [] ∧ Record.ValueOk r.newv
  value : Record.ValueOk r.v
  wait : ∀ k, r.wait = some k → ∃ t rest, r.todo = t :: rest
    ∧ s.requests[k]? = some ⟨r.id, t, r.body⟩
  stage : StageOk s r

/-- The invariant. -/
structure Basic (members : ℕ → List Str) (s : System) : Prop where
  durable : ∀ p, Durable (s.nodes p).acc
  attempts : ∀ t ∈ s.attempts, AttemptOk t
  requests : ∀ req ∈ s.requests, RequestOk s req
  handled : ∀ h ∈ s.handled, HandledOk s h
  calls : ∀ h ∈ s.handled, ∀ h' ∈ s.handled, h.call = h'.call → h = h'
  passed : ∀ q ∈ s.passed, PassedOk members s q
  once : ∀ q ∈ s.passed, ∀ q' ∈ s.passed, q.id = q'.id → q = q'
  won : ∀ q ∈ s.won, WonOk members s q
  runs : ∀ p r, (s.nodes p).run = some r → RunOk s p r

/-! ## A longer history -/

/-- `s'` has the history of `s` and more. -/
structure Grows (s s' : System) : Prop where
  attempts : s.attempts <+: s'.attempts
  requests : s.requests <+: s'.requests
  handled : s.handled <+: s'.handled
  passed : s.passed <+: s'.passed
  won : s.won <+: s'.won

theorem getElem?_grows {α : Type*} {l l' : List α} (h : l <+: l') {k : ℕ} {x : α}
    (hk : l[k]? = some x) : l'[k]? = some x := by
  obtain ⟨m, rfl⟩ := h
  exact List.getElem?_append_left (List.getElem?_eq_some_iff.mp hk).1 |>.trans hk

variable {s s' : System}

theorem Promise.grows (g : Grows s s') {i : ℕ} {a : Str} {b : prop_t}
    {res : prepareres} {k id : ℕ} (h : Promise i s.handled a b res k id) :
    Promise i s'.handled a b res k id :=
  ⟨h.1, g.handled.subset h.2⟩

theorem Vote.grows (g : Grows s s') {i : ℕ} {a : Str} {b : prop_t} {v : Str}
    (h : Vote i s.handled a b v) : Vote i s'.handled a b v := by
  obtain ⟨k, id, h⟩ := h
  exact ⟨k, id, g.handled.subset h⟩

theorem Selected.grows (g : Grows s s') {i id : ℕ} {n : prop_t}
    {accepts : List Str} {v : Str} {highest : Option prop_t}
    (h : Selected i s.handled id n accepts v highest) :
    Selected i s'.handled id n accepts v highest := by
  refine ⟨fun a ha => ?_, fun b hb => ?_, h.none⟩
  · obtain ⟨res, k, b, hp, hh, hle⟩ := h.reports a ha
    exact ⟨res, k, b, Promise.grows g hp, hh, hle⟩
  · obtain ⟨a, ha, res, k, hp, hn, hv⟩ := h.top b hb
    exact ⟨a, ha, res, k, Promise.grows g hp, hn, hv⟩

theorem RequestOk.grows (g : Grows s s') {req : Request} (h : RequestOk s req) :
    RequestOk s' req := by
  unfold RequestOk at h ⊢
  split at h
  · obtain ⟨t, ht, hrest⟩ := h
    exact ⟨t, getElem?_grows g.attempts ht, hrest⟩
  · obtain ⟨q, hq, hrest⟩ := h
    exact ⟨q, g.passed.subset hq, hrest⟩
  · obtain ⟨q, hq, hrest⟩ := h
    exact ⟨q, g.won.subset hq, hrest⟩

theorem HandledOk.grows (g : Grows s s') {h : Handled} (hh : HandledOk s h) : HandledOk s' h :=
  ⟨getElem?_grows g.requests hh.1, hh.2⟩

theorem PassedOk.grows {members : ℕ → List Str} (g : Grows s s') {q : Passed}
    (h : PassedOk members s q) : PassedOk members s' q := by
  obtain ⟨⟨t, ht, hti⟩, hq, hv, v, highest, hsel, hval⟩ := h
  exact ⟨⟨t, getElem?_grows g.attempts ht, hti⟩, hq, hv, v, highest, hsel.grows g, hval⟩

theorem WonOk.grows {members : ℕ → List Str} (g : Grows s s') {q : Passed}
    (h : WonOk members s q) : WonOk members s' q := by
  obtain ⟨⟨q', hq', heq⟩, hq, hv⟩ := h
  exact ⟨⟨q', g.passed.subset hq', heq⟩, hq, fun a ha => Vote.grows g (hv a ha)⟩

variable {r : Run} {p : Str}

/-- A run that another node's step leaves alone. -/
theorem RunOk.grows (g : Grows s s') (h : RunOk s p r)
    (hnew : ∀ q ∈ s'.passed, q.id = r.id → q ∈ s.passed) : RunOk s' p r := by
  refine ⟨getElem?_grows g.attempts h.attempt, h.newv, h.value, fun k hk => ?_, ?_⟩
  · obtain ⟨t, rest, htodo, hreq⟩ := h.wait k hk
    exact ⟨t, rest, htodo, getElem?_grows g.requests hreq⟩
  -- in `prepare` the attempt has no record yet, later it keeps the one it has
  · have hst := h.stage
    unfold StageOk at hst ⊢
    split at hst
    · exact ⟨hst.1.grows g, fun q hq heq => hst.2 q (hnew q hq heq) heq⟩
    · obtain ⟨q, hq, h1, h2, h3, h4, h5, h6⟩ := hst
      exact ⟨q, g.passed.subset hq, h1, h2, h3, h4, h5, fun a ha => Vote.grows g (h6 a ha)⟩
    · obtain ⟨q, hq, hrest⟩ := hst
      exact ⟨q, g.won.subset hq, hrest⟩

/-! ## One node changes -/

variable {members : ℕ → List Str}

/-- Two runs of different nodes belong to different attempts. -/
theorem Basic.run_id_ne (hb : Basic members s) {p p' : Str} (hp : p' ≠ p) {r r' : Run}
    (hr : (s.nodes p).run = some r) (hr' : (s.nodes p').run = some r') : r'.id ≠ r.id := by
  intro heq
  have h := (hb.runs p r hr).attempt
  have h' := (hb.runs p' r' hr').attempt
  rw [heq, h, Option.some.injEq, Attempt.mk.injEq] at h'
  exact hp h'.1.symm

/-- **What a step of node `p` has to establish**: its own acceptor and run, and the one
new entry of each list it has added to. Everything else follows from the growth of
the lists. -/
structure Change (members : ℕ → List Str) (s s' : System) (p : Str) (nd : Node) : Prop where
  nodes : s'.nodes = Function.update s.nodes p nd
  durable : Durable nd.acc
  run : ∀ r, nd.run = some r → RunOk s' p r
  attempts : s'.attempts = s.attempts ∨ ∃ t, s'.attempts = s.attempts ++ [t] ∧ AttemptOk t
  requests : s'.requests = s.requests
    ∨ ∃ req, s'.requests = s.requests ++ [req] ∧ RequestOk s' req
  handled : s'.handled = s.handled ∨ ∃ h, s'.handled = s.handled ++ [h] ∧ HandledOk s' h
    ∧ ∀ h' ∈ s.handled, h'.call ≠ h.call
  passed : s'.passed = s.passed ∨ ∃ q, s'.passed = s.passed ++ [q] ∧ PassedOk members s' q
    ∧ ∃ r, (s.nodes p).run = some r ∧ q.id = r.id ∧ r.stage = .prepare
  won : s'.won = s.won ∨ ∃ q, s'.won = s.won ++ [q] ∧ WonOk members s' q

theorem prefix_of {α : Type*} {l l' : List α} {P : α → Prop}
    (h : l' = l ∨ ∃ x, l' = l ++ [x] ∧ P x) : l <+: l' := by
  rcases h with rfl | ⟨x, rfl, -⟩
  · exact List.prefix_refl _
  · exact List.prefix_append _ _

theorem forall_of {α : Type*} {l l' : List α} {P Q : α → Prop}
    (h : l' = l ∨ ∃ x, l' = l ++ [x] ∧ P x) (hl : ∀ x ∈ l, Q x) (hx : ∀ x, P x → Q x) :
    ∀ x ∈ l', Q x := by
  rcases h with rfl | ⟨x, rfl, hpx⟩
  · exact hl
  · intro y hy
    rcases List.mem_append.mp hy with hy | hy
    · exact hl y hy
    · rw [List.mem_singleton.mp hy]
      exact hx x hpx

/-- An appended entry with a new key keeps the keys distinct. -/
theorem inj_append {α β : Type*} {f : α → β} {l : List α} {x : α}
    (hl : ∀ y ∈ l, ∀ z ∈ l, f y = f z → y = z) (hx : ∀ y ∈ l, f y ≠ f x) :
    ∀ y ∈ l ++ [x], ∀ z ∈ l ++ [x], f y = f z → y = z := by
  intro y hy z hz heq
  rcases List.mem_append.mp hy with hy | hy <;> rcases List.mem_append.mp hz with hz | hz
  · exact hl y hy z hz heq
  · rw [List.mem_singleton.mp hz] at heq
    exact absurd heq (hx y hy)
  · rw [List.mem_singleton.mp hy] at heq
    exact absurd heq.symm (hx z hz)
  · rw [List.mem_singleton.mp hy, List.mem_singleton.mp hz]

theorem Change.grows {nd : Node} (c : Change members s s' p nd) : Grows s s' :=
  ⟨prefix_of c.attempts, prefix_of c.requests, prefix_of c.handled, prefix_of c.passed,
    prefix_of c.won⟩

/-- **The assembly lemma.** -/
theorem Basic.change (hb : Basic members s) {nd : Node}
    (c : Change members s s' p nd) : Basic members s' := by
  have g := c.grows
  -- a new record of a passed attempt belongs to node `p` and is the first of its attempt
  have hnew : ∀ (q : Passed) (r : Run), (s.nodes p).run = some r → q.id = r.id →
      r.stage = .prepare →
      ∀ q' ∈ s.passed, q'.id ≠ q.id := by
    intro q r hr hid hst q' hq'
    have hstage := (hb.runs p r hr).stage
    simp only [StageOk, hst] at hstage
    rw [hid]
    exact hstage.2 q' hq'
  refine ⟨fun p' => ?_, ?_, ?_, ?_, ?_, ?_, ?_, ?_, fun p' r hr => ?_⟩
  · rw [c.nodes]
    by_cases hp : p' = p
    · subst hp
      rw [Function.update_self]
      exact c.durable
    · rw [Function.update_of_ne hp]
      exact hb.durable p'
  · exact forall_of c.attempts hb.attempts fun _ h => h
  · exact forall_of c.requests (fun req hreq => (hb.requests req hreq).grows g) fun _ h => h
  · exact forall_of c.handled (fun h hh => (hb.handled h hh).grows g) fun _ h => h.1
  · rcases c.handled with heq | ⟨h, heq, -, hfresh⟩
    · rw [heq]
      exact hb.calls
    · rw [heq]
      exact inj_append hb.calls hfresh
  · exact forall_of c.passed (fun q hq => (hb.passed q hq).grows g) fun _ h => h.1
  · rcases c.passed with heq | ⟨q, heq, -, r, hr, hid, hst⟩
    · rw [heq]
      exact hb.once
    · rw [heq]
      exact inj_append hb.once (hnew q r hr hid hst)
  · exact forall_of c.won (fun q hq => (hb.won q hq).grows g) fun _ h => h
  · by_cases hp : p' = p
    · subst hp
      rw [c.nodes, Function.update_self] at hr
      exact c.run r hr
    · rw [c.nodes, Function.update_of_ne hp] at hr
      refine (hb.runs p' r hr).grows g fun q hq hid => ?_
      rcases c.passed with heq | ⟨q', heq, -, r', hr', hid', -⟩
      · rwa [heq] at hq
      · rw [heq] at hq
        rcases List.mem_append.mp hq with hq | hq
        · exact hq
        · rw [List.mem_singleton.mp hq, hid'] at hid
          exact absurd hid.symm (hb.run_id_ne hp hr' hr)

/-! ## The steps of a proposer -/

/-- The condition on starting an attempt: a readable name and value, and a number
that does not wrap to 0. -/
def BeginOk (s : System) : Act → Prop
  | .begin p _ newv => IsWord p ∧ Record.ValueOk newv
      ∧ ¬(((s.nodes p).acc.n_h.n + 1) % 2 ^ 32 = 0 ∧ ((s.nodes p).my_n.n + 1) % 2 ^ 32 = 0)
  | _ => True

theorem setn_ok {n_h my_n : ℕ} (h : ¬((n_h + 1) % 2 ^ 32 = 0 ∧ (my_n + 1) % 2 ^ 32 = 0)) :
    setn n_h my_n < 2 ^ 32 ∧ 1 ≤ setn n_h my_n := by
  unfold setn
  split <;> omega

/-- Only the run of node `p` changes. -/
theorem Basic.setRun (hb : Basic members s) {r : Option Run}
    (hr : ∀ r', r = some r' → RunOk s p r') : Change members s (s.setRun p r) p
      { s.nodes p with run := r } := by
  refine ⟨rfl, hb.durable p, fun r' h => ?_, .inl rfl, .inl rfl, .inl rfl, .inl rfl, .inl rfl⟩
  have g : Grows s (s.setRun p r) := ⟨List.prefix_refl _, List.prefix_refl _, List.prefix_refl _,
    List.prefix_refl _, List.prefix_refl _⟩
  exact (hr r' h).grows g fun q hq _ => hq

theorem change_begin (hb : Basic members s) {inst : ℕ} {newv : Str}
    (hok : BeginOk s (.begin p inst newv)) (hs : step members s (.begin p inst newv) = some s') :
    ∃ nd, Change members s s' p nd ∧ s'.handled = s.handled ∧ nd.acc = (s.nodes p).acc := by
  obtain ⟨hp, hnewv, hwrap⟩ := hok
  cases moves_of_step hs with
  | begin _ _ _ _ hinst hne =>
    obtain ⟨hlt, hpos⟩ := setn_ok hwrap
    have hatt : AttemptOk ⟨p, inst, ⟨setn (s.nodes p).acc.n_h.n (s.nodes p).my_n.n, p⟩⟩ :=
      ⟨⟨hlt, hp⟩, hpos, hinst⟩
    refine ⟨_, ⟨rfl, hb.durable p, ?_, .inr ⟨_, rfl, hatt⟩, .inl rfl, .inl rfl, .inl rfl,
      .inl rfl⟩, rfl, rfl⟩
    rintro r ⟨rfl⟩
    refine ⟨?_, ⟨hne, hnewv⟩, List.not_mem_nil, nofun, ?_, fun q hq => ?_⟩
    · simp
    · exact ⟨nofun, nofun, fun _ => rfl⟩
    · -- the attempt is new: no record can carry its position yet
      obtain ⟨t, ht, -⟩ := (hb.passed q hq).attempt
      have hlt := (List.getElem?_eq_some_iff.mp ht).1
      exact hlt.ne

theorem change_call (hb : Basic members s) (hs : step members s (.call p) = some s') :
    ∃ nd, Change members s s' p nd ∧ s'.handled = s.handled ∧ nd.acc = (s.nodes p).acc := by
  cases moves_of_step hs with
  | call _ t r rest hr htodo hwait =>
    have hrun := hb.runs p r hr
    have hreq : RequestOk s ⟨r.id, t, r.body⟩ := by
      have hst := hrun.stage
      unfold RequestOk Run.body
      unfold StageOk at hst
      cases hstage : r.stage with
      | prepare => exact ⟨_, hrun.attempt, rfl, rfl⟩
      | accept =>
        rw [hstage] at hst
        obtain ⟨q, hq, h1, h2, h3, h4, h5, -⟩ := hst
        exact ⟨q, hq, h1, h2, h3, h4, h5 t (htodo ▸ List.mem_cons_self)⟩
      | decide =>
        rw [hstage] at hst
        obtain ⟨q, hq, h1, h2, h3, h4⟩ := hst
        exact ⟨q, hq, h1, h2, h3, h4 t (htodo ▸ List.mem_cons_self)⟩
    have g : ∀ nodes, Grows s { s with
        nodes := nodes, requests := s.requests ++ [⟨r.id, t, r.body⟩] } := fun nodes =>
      ⟨List.prefix_refl _, List.prefix_append _ _, List.prefix_refl _, List.prefix_refl _,
        List.prefix_refl _⟩
    refine ⟨_, ⟨rfl, hb.durable p, ?_, .inl rfl, .inr ⟨_, rfl, hreq.grows (g _)⟩, .inl rfl,
      .inl rfl, .inl rfl⟩, rfl, rfl⟩
    rintro r' ⟨rfl⟩
    obtain ⟨hatt, hnewv, hval, -, hst⟩ := hrun
    refine ⟨hatt, hnewv, hval, ?_, hst⟩
    rintro k ⟨rfl⟩
    refine ⟨t, rest, htodo, ?_⟩
    simp [Run.body]

/-- A run goes on to the next node. -/
theorem runOk_next (hatt : s.attempts[r.id]? = some ⟨p, r.inst, r.my_n⟩)
    (hnewv : r.newv ≠ [] ∧ Record.ValueOk r.newv) (hval : Record.ValueOk r.v)
    (hst : StageOk s r) : RunOk s p r.next := by
  refine ⟨hatt, hnewv, hval, nofun, ?_⟩
  unfold StageOk at hst ⊢
  split at hst
  · next h => simpa only [Run.next, h] using hst
  · next h =>
    obtain ⟨q, hq, h1, h2, h3, h4, h5, h6⟩ := hst
    simp only [Run.next, h]
    exact ⟨q, hq, h1, h2, h3, h4, fun t ht => h5 t (List.mem_of_mem_tail ht), h6⟩
  · next h =>
    obtain ⟨q, hq, h1, h2, h3, h4⟩ := hst
    simp only [Run.next, h]
    exact ⟨q, hq, h1, h2, h3, fun t ht => h4 t (List.mem_of_mem_tail ht)⟩

theorem RunOk.next (h : RunOk s p r) : RunOk s p r.next :=
  runOk_next h.attempt h.newv h.value h.stage

theorem change_skip (hb : Basic members s) (hs : step members s (.skip p) = some s') :
    ∃ nd, Change members s s' p nd ∧ s'.handled = s.handled ∧ nd.acc = (s.nodes p).acc := by
  cases moves_of_step hs with
  | skip _ r hr =>
    refine ⟨_, hb.setRun ?_, rfl, rfl⟩
    rintro r' ⟨rfl⟩
    exact (hb.runs p r hr).next

variable {t : Str}

/-- The reply a run waits for answers its own request. -/
theorem Basic.reply (hb : Basic members s)
    (hr : (s.nodes p).run = some r) {rest : List Str} (htodo : r.todo = t :: rest)
    {h : Handled} (hh : s.handled.find? (fun h => r.wait == some h.call) = some h) :
    h ∈ s.handled ∧ h.req = ⟨r.id, t, r.body⟩ ∧ SameKind r.body h.res := by
  have hmem := List.mem_of_find?_eq_some hh
  have hwait : r.wait = some h.call := by simpa using List.find?_some hh
  obtain ⟨t', rest', htodo', hreq⟩ := (hb.runs p r hr).wait h.call hwait
  obtain ⟨hcall, hkind⟩ := hb.handled h hmem
  rw [hreq, Option.some.injEq] at hcall
  rw [htodo, List.cons.injEq] at htodo'
  rw [← hcall] at hkind
  exact ⟨hmem, by rw [← hcall, htodo'.1], hkind⟩

/-- One more promise is taken into account. -/
theorem Selected.promised {res : prepareres} {k : ℕ}
    (h : Selected r.inst s.handled r.id r.my_n r.accepts r.v r.highest)
    (hp : Promise r.inst s.handled t r.my_n res k r.id) :
    Selected r.inst s.handled r.id r.my_n (r.promised t res).accepts (r.promised t res).v
      (r.promised t res).highest := by
  have hmem : t ∈ r.accepts ++ [t] := List.mem_append_right _ List.mem_cons_self
  unfold Run.promised
  cases hhigh : r.highest with
  | none =>
    -- `inited` is false: nobody was counted before
    refine ⟨fun a ha => ?_, fun b hb => ?_, nofun⟩
    · rcases List.mem_append.mp ha with ha | ha
      · obtain ⟨_, _, _, -, hnone, -⟩ := h.reports a ha
        rw [hhigh] at hnone
        cases hnone
      · rw [List.mem_singleton.mp ha]
        exact ⟨res, k, _, hp, rfl, le_rfl⟩
    · cases hb
      exact ⟨t, hmem, res, k, hp, rfl, rfl⟩
  | some b =>
    by_cases hgt : prop_gt res.n_a b
    · simp only [if_pos hgt]
      refine ⟨fun a ha => ?_, fun b' hb' => ?_, nofun⟩
      · rcases List.mem_append.mp ha with ha | ha
        · obtain ⟨res', k', b', hp', hb', hle⟩ := h.reports a ha
          rw [hhigh, Option.some.injEq] at hb'
          exact ⟨res', k', _, hp', rfl, (hb' ▸ hle).trans (prop_gt_iff.mp hgt).le⟩
        · rw [List.mem_singleton.mp ha]
          exact ⟨res, k, _, hp, rfl, le_rfl⟩
      · cases hb'
        exact ⟨t, hmem, res, k, hp, rfl, rfl⟩
    · simp only [if_neg hgt]
      refine ⟨fun a ha => ?_, fun b' hb' => ?_, nofun⟩
      · rcases List.mem_append.mp ha with ha | ha
        · rw [← hhigh]
          exact h.reports a ha
        · rw [List.mem_singleton.mp ha]
          exact ⟨res, k, b, hp, rfl, not_lt.mp fun hlt => hgt (prop_gt_iff.mpr hlt)⟩
      · obtain ⟨a, ha, hrest⟩ := h.top b' (hhigh.trans hb')
        exact ⟨a, List.mem_append_left _ ha, hrest⟩

/-- A run that prepares has one promise more. -/
theorem RunOk.promised (hrun : RunOk s p r) (hstage : r.stage = .prepare) {res : prepareres} {k : ℕ}
    (hp : Promise r.inst s.handled t r.my_n res k r.id) (hvalue : Record.ValueOk res.v_a) :
    RunOk s p (r.promised t res).next := by
  have hst := hrun.stage
  simp only [StageOk, hstage] at hst
  obtain ⟨hsel, hfirst⟩ := hst
  obtain ⟨hid, hinst, hnewv, hn, hst, -, -, hv⟩ := Run.promised_fields r t res
  refine runOk_next ?_ ?_ ?_ ?_
  · rw [hid, hinst, hn]
    exact hrun.attempt
  · rw [hnewv]
    exact hrun.newv
  · rcases hv with hv | hv
    · rw [hv]
      exact hrun.value
    · rw [hv]
      exact hvalue
  · rw [StageOk, hst, hstage]
    simp only [hid, hinst, hn]
    exact ⟨hsel.promised hp, hfirst⟩

/-- A run that asks for votes has one more. -/
theorem RunOk.voted (hrun : RunOk s p r)
    (hstage : r.stage = .accept) (hvote : Vote r.inst s.handled t r.my_n r.v) :
    RunOk s p { r.next with accepts := r.accepts ++ [t] } := by
  have hst := hrun.stage
  simp only [StageOk, hstage] at hst
  obtain ⟨q, hq, h1, h2, h3, h4, h5, h6⟩ := hst
  refine runOk_next (r := { r with accepts := r.accepts ++ [t] }) hrun.attempt hrun.newv
    hrun.value ?_
  simp only [StageOk, hstage]
  refine ⟨q, hq, h1, h2, h3, h4, h5, ?_⟩
  rw [List.forall_mem_append, List.forall_mem_singleton]
  exact ⟨h6, hvote⟩

/-- What a run has learnt from a reply that does not send it away. -/
theorem Basic.runOk_reply (hb : Basic members s)
    (hr : (s.nodes p).run = some r) {h : Handled} (hmem : h ∈ s.handled)
    (hreq : h.req = ⟨r.id, t, r.body⟩) (hkind : SameKind r.body h.res) {r' : Run}
    (hreply : r.reply t h.res = .ok r') : RunOk s p r' := by
  have hrun := hb.runs p r hr
  obtain ⟨call, req, res⟩ := h
  obtain rfl : req = _ := hreq
  cases hstage : r.stage with
  | prepare =>
    simp only [Run.body, hstage] at hkind hmem
    cases res with
    | prepare pr =>
      simp only [Run.reply] at hreply
      split at hreply
      · cases hreply
      · split at hreply
        · next hacc =>
          cases hreply
          exact hrun.promised hstage ⟨hacc, hmem⟩ hkind
        · cases hreply
          exact hrun.next
    | accept _ => cases hkind
    | decide => cases hkind
    | aborted => cases hkind
  | accept =>
    simp only [Run.body, hstage] at hkind hmem
    cases res with
    | accept ok =>
      cases ok with
      | true =>
        cases hreply
        exact hrun.voted hstage ⟨call, r.id, hmem⟩
      | false =>
        cases hreply
        exact hrun.next
    | prepare _ => cases hkind
    | decide => cases hkind
    | aborted => cases hkind
  | decide =>
    simp only [Run.body, hstage] at hkind
    cases res with
    | prepare _ => cases hkind
    | accept _ => cases hkind
    | decide =>
      cases hreply
      exact hrun.next
    | aborted =>
      cases hreply
      exact hrun.next

/-- The run is told that its instance is old: which value it commits. -/
theorem Basic.reply_old (hb : Basic members s) (hr : (s.nodes p).run = some r) {h : Handled}
    (hreq : h.req = ⟨r.id, t, r.body⟩) (hkind : SameKind r.body h.res) {v : Str}
    (hreply : r.reply t h.res = .error v) :
    ∃ res, h.req.body = .prepare ⟨r.inst, r.my_n⟩ ∧ h.res = .prepare res
      ∧ res.oldinstance = true ∧ res.v_a = v ∧ Record.ValueOk v ∧ r.inst < 2 ^ 32 := by
  have hinst : r.inst < 2 ^ 32 :=
    (hb.attempts _ (List.mem_of_getElem? (hb.runs p r hr).attempt)).2.2
  cases hres : h.res with
  | prepare res =>
    rw [hres] at hreply hkind
    simp only [Run.reply] at hreply
    split at hreply
    · next hold =>
      cases hreply
      cases hstage : r.stage with
      | prepare =>
        simp only [Run.body, hstage] at hkind hreq
        exact ⟨res, by rw [hreq], rfl, hold, rfl, hkind, hinst⟩
      | accept =>
        simp only [Run.body, hstage] at hkind
        cases hkind
      | decide =>
        simp only [Run.body, hstage] at hkind
        cases hkind
    · split at hreply <;> cases hreply
  | accept ok => cases ok <;> (rw [hres] at hreply; cases hreply)
  | decide =>
    rw [hres] at hreply
    cases hreply
  | aborted =>
    rw [hres] at hreply
    cases hreply

/-- **A reply arrives**: the run goes on, or the node commits a value that an acceptor
has reported for this old instance. -/
theorem change_receive (hb : Basic members s) (hs : step members s (.receive p) = some s') :
    ∃ nd, Change members s s' p nd ∧ s'.handled = s.handled
      ∧ (nd.acc = (s.nodes p).acc
        ∨ ∃ r h res, (s.nodes p).run = some r ∧ h ∈ s.handled
            ∧ h.req.body = .prepare ⟨r.inst, r.my_n⟩ ∧ h.res = .prepare res
            ∧ res.oldinstance = true ∧ nd.acc = commit (s.nodes p).acc r.inst res.v_a) := by
  cases moves_of_step hs with
  | reply _ t r r' rest h hr htodo hfind hreply =>
    obtain ⟨hmem, hreq, hkind⟩ := hb.reply hr htodo hfind
    refine ⟨_, hb.setRun ?_, rfl, .inl rfl⟩
    rintro _ ⟨rfl⟩
    exact hb.runOk_reply hr hmem hreq hkind hreply
  | old _ t r rest h v hr htodo hfind hreply =>
    obtain ⟨hmem, hreq, hkind⟩ := hb.reply hr htodo hfind
    obtain ⟨res, hbody, hres, hold, rfl, hv, hi⟩ := hb.reply_old hr hreq hkind hreply
    exact ⟨_, ⟨rfl, durable_commit_wo (hb.durable p) hi hv, nofun, .inl rfl, .inl rfl, .inl rfl,
      .inl rfl, .inl rfl⟩, rfl, .inr ⟨r, h, res, hr, hmem, hbody, hres, hold, rfl⟩⟩

/-- A loop that is over waits for nothing. -/
theorem RunOk.wait_none (h : RunOk s p r) (htodo : r.todo = []) : r.wait = none := by
  cases hwait : r.wait with
  | none => rfl
  | some k =>
    obtain ⟨t, rest, hcons, -⟩ := h.wait k hwait
    rw [htodo] at hcons
    cases hcons

/-- The record of an attempt that passes the test after `prepare`. -/
theorem passedOk_of_selected (h : RunOk s p r)
    (hsel : Selected r.inst s.handled r.id r.my_n r.accepts r.v r.highest)
    (hmaj : majority (members r.inst) r.accepts = true) :
    PassedOk members s ⟨r.id, r.inst, r.my_n, if r.v = [] then r.newv else r.v, r.accepts⟩ := by
  refine ⟨⟨_, h.attempt, rfl, rfl⟩, hmaj, ?_, r.v, r.highest, hsel, fun hne => if_neg hne⟩
  by_cases hv : r.v = []
  · simp only [if_pos hv]
    exact h.newv
  · simp only [if_neg hv]
    exact ⟨hv, h.value⟩

/-- An attempt passes the test after `prepare`: the new record is the one the run now stands
on. -/
theorem change_passed (hb : Basic members s)
    (hr : (s.nodes p).run = some r) (htodo : r.todo = []) (hstage : r.stage = .prepare)
    (hmaj : majority (members r.inst) r.accepts = true) :
    ∃ nd, Change members s (advance members s p r) p nd
      ∧ (advance members s p r).handled = s.handled ∧ nd.acc = (s.nodes p).acc := by
  have hrun := hb.runs p r hr
  have hst := hrun.stage
  simp only [StageOk, hstage] at hst
  have hq := passedOk_of_selected hrun hst.1 hmaj
  simp only [advance, hstage, if_pos hmaj]
  refine ⟨_, ⟨rfl, hb.durable p, ?_, .inl rfl, .inl rfl, .inl rfl,
    .inr ⟨_, rfl, hq.grows ?_, r, hr, rfl, hstage⟩, .inl rfl⟩, rfl, rfl⟩
  · rintro _ ⟨rfl⟩
    refine ⟨hrun.attempt, hrun.newv, hq.value.2, ?_, ?_⟩
    · rintro k hk
      rw [hrun.wait_none htodo] at hk
      cases hk
    · exact ⟨_, List.mem_append_right _ List.mem_cons_self, rfl, rfl, rfl, rfl, fun _ h => h,
        nofun⟩
  · exact ⟨List.prefix_refl _, List.prefix_refl _, List.prefix_refl _, List.prefix_append _ _,
      List.prefix_refl _⟩

/-- An attempt wins its majority of `accept`. -/
theorem change_won (hb : Basic members s)
    (hr : (s.nodes p).run = some r) (htodo : r.todo = []) (hstage : r.stage = .accept)
    (hmaj : majority (members r.inst) r.accepts = true) :
    ∃ nd, Change members s (advance members s p r) p nd
      ∧ (advance members s p r).handled = s.handled ∧ nd.acc = (s.nodes p).acc := by
  have hrun := hb.runs p r hr
  have hst := hrun.stage
  simp only [StageOk, hstage] at hst
  obtain ⟨q, hq, h1, h2, h3, h4, -, hvotes⟩ := hst
  have hwon : WonOk members s ⟨r.id, r.inst, r.my_n, r.v, r.accepts⟩ :=
    ⟨⟨q, hq, h1, h2, h3, h4⟩, hmaj, hvotes⟩
  simp only [advance, hstage, if_pos hmaj]
  refine ⟨_, ⟨rfl, hb.durable p, ?_, .inl rfl, .inl rfl, .inl rfl, .inl rfl,
    .inr ⟨_, rfl, hwon.grows ?_⟩⟩, rfl, rfl⟩
  · rintro _ ⟨rfl⟩
    refine ⟨hrun.attempt, hrun.newv, hrun.value, ?_, ?_⟩
    · rintro k hk
      rw [hrun.wait_none htodo] at hk
      cases hk
    · exact ⟨_, List.mem_append_right _ List.mem_cons_self, rfl, rfl, rfl, fun _ h => h⟩
  · exact ⟨List.prefix_refl _, List.prefix_refl _, List.prefix_refl _, List.prefix_refl _,
      List.prefix_append _ _⟩

theorem change_advance (hb : Basic members s) (hs : step members s (.advance p) = some s') :
    ∃ nd, Change members s s' p nd ∧ s'.handled = s.handled ∧ nd.acc = (s.nodes p).acc := by
  cases moves_of_step hs with
  | advance _ r hr htodo =>
    -- without a majority the run is over
    have hover : ∃ nd, Change members s (s.setRun p none) p nd
        ∧ (s.setRun p none).handled = s.handled ∧ nd.acc = (s.nodes p).acc :=
      ⟨_, hb.setRun nofun, rfl, rfl⟩
    by_cases hmaj : majority (members r.inst) r.accepts = true
    · cases hstage : r.stage with
      | prepare => exact change_passed hb hr htodo hstage hmaj
      | accept => exact change_won hb hr htodo hstage hmaj
      | decide =>
        simp only [advance, hstage]
        exact hover
    · have hend : advance members s p r = s.setRun p none := by
        unfold advance
        split
        · exact if_neg hmaj
        · exact if_neg hmaj
        · rfl
      rw [hend]
      exact hover

/-! ## The steps of an acceptor -/

theorem valueOk_value {acc : acceptor} (hacc : Durable acc) {i : ℕ} :
    Record.ValueOk (acc.value i) := by
  unfold acceptor.value
  cases hv : acc.values i with
  | none => exact List.not_mem_nil
  | some v => exact hacc.value hv

/-- A request that was sent can be logged by the acceptor that handles it. -/
theorem Basic.request_ok (hb : Basic members s) {req : Request} (h : RequestOk s req) :
    match req.body with
    | .prepare a => Record.NumOk a.n ∧ 1 ≤ a.n.n
    | .accept a => Record.NumOk a.n ∧ 1 ≤ a.n.n ∧ a.v ≠ [] ∧ Record.ValueOk a.v
    | .decide a => a.inst < 2 ^ 32 := by
  -- every request goes back to an attempt, and the attempt's number could be logged
  have hnum : ∀ {id : ℕ} {t : Attempt}, s.attempts[id]? = some t → AttemptOk t :=
    fun ht => hb.attempts _ (List.mem_of_getElem? ht)
  unfold RequestOk at h
  split at h
  · obtain ⟨t, ht, -, hn⟩ := h
    exact hn ▸ ⟨(hnum ht).1, (hnum ht).2.1⟩
  · obtain ⟨q, hq, -, -, hn, hv, -⟩ := h
    have hpassed := hb.passed q hq
    obtain ⟨t, ht, -, htn⟩ := hpassed.attempt
    exact ⟨hn ▸ htn ▸ (hnum ht).1, hn ▸ htn ▸ (hnum ht).2.1, hv ▸ hpassed.value⟩
  · obtain ⟨q, hq, -, hi, -⟩ := h
    obtain ⟨q', hq', -, hi', -⟩ := (hb.won q hq).passed
    obtain ⟨t, ht, hti, -⟩ := (hb.passed q' hq').attempt
    exact hi ▸ hi' ▸ hti ▸ (hnum ht).2.2

/-- The answer of an acceptor is of the right kind, and its state stays durable. -/
theorem Basic.answer_ok (hb : Basic members s) {req : Request}
    (h : RequestOk s req) {acc : acceptor} (hacc : Durable acc) {res : Response} {acc' : acceptor}
    (hans : answer acc req.body = some (res, acc')) : SameKind req.body res ∧ Durable acc' := by
  have hreq := hb.request_ok h
  cases hbody : req.body with
  | prepare a =>
    rw [hbody] at hreq hans
    cases hans
    refine ⟨?_, durable_preparereq hacc hreq.1⟩
    simp only [SameKind, preparereq]
    split
    · exact valueOk_value hacc
    · split
      · exact hacc.v_a
      · exact List.not_mem_nil
  | accept a =>
    rw [hbody] at hreq hans
    cases hans
    exact ⟨trivial, durable_acceptreq hacc hreq.1 hreq.2.2.2⟩
  | decide a =>
    rw [hbody] at hreq hans
    simp only [answer, Option.map_eq_some_iff] at hans
    obtain ⟨acc'', hdec, heq⟩ := hans
    cases heq
    exact ⟨trivial, durable_decidereq hacc hreq hdec⟩

/-- A node that restarts comes back with the state its log had kept. -/
theorem restart_ok {nd nd' : Node} (hacc : Durable nd.acc) (h : nd.restart = some nd') :
    Agree nd.acc nd'.acc ∧ Durable nd'.acc ∧ nd'.run = none := by
  obtain ⟨b, hread, hagree, hb⟩ := hacc.replayed
  rw [Node.restart, hread] at h
  cases h
  exact ⟨hagree, hb, rfl⟩

theorem answer_none {acc : acceptor} {b : Body} (h : answer acc b = none) :
    SameKind b .aborted := by
  cases b with
  | prepare a => cases h
  | accept a => cases h
  | decide a => trivial

/-- **What a step does to the acceptors**: at most the one of node `p` changes. -/
inductive Effect (s s' : System) (p : Str) (acc' : acceptor) : Act → Prop
  | quiet {a : Act} : s'.handled = s.handled → acc' = (s.nodes p).acc → Effect s s' p acc' a
  | committed {r : Run} {h : Handled} {res : prepareres} : s'.handled = s.handled →
      (s.nodes p).run = some r → h ∈ s.handled → h.req.body = .prepare ⟨r.inst, r.my_n⟩ →
      h.res = .prepare res → res.oldinstance = true →
      acc' = commit (s.nodes p).acc r.inst res.v_a → Effect s s' p acc' (.receive p)
  | answered {k : ℕ} {req : Request} {res : Response} : s.requests[k]? = some req →
      req.dst = p → answer (s.nodes p).acc req.body = some (res, acc') →
      s'.handled = s.handled ++ [⟨k, req, res⟩] → Effect s s' p acc' (.handle k)
  | aborted {k : ℕ} {req : Request} {arg : decidearg} : s.requests[k]? = some req →
      req.dst = p → req.body = .decide arg → Agree (s.nodes p).acc acc' →
      s'.handled = s.handled ++ [⟨k, req, .aborted⟩] → Effect s s' p acc' (.handle k)
  | crashed : s'.handled = s.handled → Agree (s.nodes p).acc acc' → Effect s s' p acc' (.crash p)

theorem change_handle (hb : Basic members s) {k : ℕ} (hs : step members s (.handle k) = some s') :
    ∃ p nd, Change members s s' p nd ∧ Effect s s' p nd.acc (.handle k) := by
  -- a call is handled at most once
  have hcall : s.handled.any (·.call == k) = false → ∀ h ∈ s.handled, h.call ≠ k := by
    intro hfresh h hh hk
    exact List.any_eq_false.mp hfresh h hh (beq_iff_eq.mpr hk)
  have g : ∀ nodes h, Grows s { s with nodes := nodes, handled := s.handled ++ [h] } :=
    fun nodes h => ⟨List.prefix_refl _, List.prefix_refl _, List.prefix_append _ _,
      List.prefix_refl _, List.prefix_refl _⟩
  cases moves_of_step hs with
  | answer _ req res acc' hreq hfresh hans =>
    obtain ⟨hkind, hdur⟩ :=
      hb.answer_ok (hb.requests req (List.mem_of_getElem? hreq)) (hb.durable req.dst) hans
    refine ⟨req.dst, _, ⟨rfl, hdur, ?_, .inl rfl, .inl rfl,
      .inr ⟨_, rfl, ⟨hreq, hkind⟩, hcall hfresh⟩, .inl rfl, .inl rfl⟩, .answered hreq rfl hans rfl⟩
    exact fun r hr => (hb.runs req.dst r hr).grows (g _ _) fun q hq _ => hq
  | abort _ req nd' hreq hfresh hans hnd' =>
    obtain ⟨hagree, hdur, hrun⟩ := restart_ok (hb.durable req.dst) hnd'
    have hkind := answer_none hans
    refine ⟨req.dst, nd', ⟨rfl, hdur, ?_, .inl rfl, .inl rfl,
      .inr ⟨_, rfl, ⟨hreq, hkind⟩, hcall hfresh⟩, .inl rfl, .inl rfl⟩, ?_⟩
    · rw [hrun]
      nofun
    · cases hbody : req.body with
      | decide arg => exact .aborted hreq rfl hbody hagree rfl
      | prepare arg | accept arg =>
        rw [hbody] at hkind
        cases hkind

theorem change_crash (hb : Basic members s) (hs : step members s (.crash p) = some s') :
    ∃ nd, Change members s s' p nd ∧ s'.handled = s.handled ∧ Agree (s.nodes p).acc nd.acc := by
  obtain ⟨nd, hnd, rfl⟩ := Option.map_eq_some_iff.mp hs
  obtain ⟨hagree, hdur, hrun⟩ := restart_ok (hb.durable p) hnd
  refine ⟨nd, ⟨rfl, hdur, ?_, .inl rfl, .inl rfl, .inl rfl, .inl rfl, .inl rfl⟩, rfl, hagree⟩
  rw [hrun]
  nofun

/-! ## Any step -/

/-- **Any step**: one node changes, and what it does to its acceptor. -/
theorem change_step {a : Act} (hb : Basic members s) (hok : BeginOk s a)
    (hs : step members s a = some s') :
    ∃ p nd, Change members s s' p nd ∧ Effect s s' p nd.acc a := by
  cases a with
  | begin p inst newv =>
    obtain ⟨nd, hc, hh, hacc⟩ := change_begin hb hok hs
    exact ⟨p, nd, hc, .quiet hh hacc⟩
  | call p =>
    obtain ⟨nd, hc, hh, hacc⟩ := change_call hb hs
    exact ⟨p, nd, hc, .quiet hh hacc⟩
  | skip p =>
    obtain ⟨nd, hc, hh, hacc⟩ := change_skip hb hs
    exact ⟨p, nd, hc, .quiet hh hacc⟩
  | receive p =>
    obtain ⟨nd, hc, hh, hacc | ⟨r, h, res, hr, hmem, hbody, hres, hold, hacc⟩⟩ :=
      change_receive hb hs
    · exact ⟨p, nd, hc, .quiet hh hacc⟩
    · exact ⟨p, nd, hc, .committed hh hr hmem hbody hres hold hacc⟩
  | advance p =>
    obtain ⟨nd, hc, hh, hacc⟩ := change_advance hb hs
    exact ⟨p, nd, hc, .quiet hh hacc⟩
  | handle k => exact change_handle hb hs
  | crash p =>
    obtain ⟨nd, hc, hh, hacc⟩ := change_crash hb hs
    exact ⟨p, nd, hc, .crashed hh hacc⟩

theorem basic_step (s : System) (a : Act) (s' : System) (hb : Basic members s)
    (hok : BeginOk s a) (hs : step members s a = some s') : Basic members s' := by
  obtain ⟨p, nd, hc, -⟩ := change_step hb hok hs
  exact hb.change hc

/-- Only the start of a run adds an attempt. -/
theorem attempts_step {a : Act} (hs : step members s a = some s') :
    s'.attempts = s.attempts
      ∨ ∃ p inst newv n, a = .begin p inst newv ∧ s'.attempts = s.attempts ++ [⟨p, inst, n⟩] := by
  cases moves_of_step hs with
  | begin p inst newv => exact .inr ⟨p, inst, newv, _, rfl, rfl⟩
  | advance p r =>
    obtain ⟨o, ps, ws, heq, -⟩ := advance_eq members s p r
    rw [heq]
    exact .inl rfl
  | call | skip | reply | old | answer | abort | crash => exact .inl rfl

theorem basic_start {nodes : Str → Node} (hdur : ∀ p, Durable (nodes p).acc)
    (hrun : ∀ p, (nodes p).run = none) : Basic members (start nodes) := by
  refine ⟨hdur, nofun, nofun, nofun, nofun, nofun, nofun, nofun, fun p r hr => ?_⟩
  cases (hrun p).symm.trans hr

end Yfs.PaxosRuns
