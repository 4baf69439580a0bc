/-
Promises and acceptances over crashes and `restore`.

A node that joins, or one that restarts while it is still a member, replaces its log
by the dump of another node and replays it over the members it has. The dump may be
older than its own state: then the replay takes back what the node has promised and
accepted. The steps below are those of any number of acceptors: the handlers, a
crash followed by a replay of the own log, taking a dump, and restoring from any
dump taken before.

`Advances` is what a step must do to an acceptor; the conditions under which the
steps do it are `StepOk`.
-/
import Yfs.PaxosDurable

set_option autoImplicit false

namespace Yfs.PaxosRestore

open Text Yfs.PaxosAcceptor Yfs.PaxosLog Yfs.PaxosDurable

/-! ## The system -/

/-- An acceptor, and the name in the last `propseen` record of its log. -/
structure Node where
  acc : acceptor
  seen : Option Str

structure System where
  nodes : Str → Node
  /-- The nodes as they were when a dump was taken. -/
  dumps : List Node

inductive Act where
  | call (p : Str) (c : Call)
  | crash (p : Str)
  | dump (p : Str)
  | restore (p : Str) (k : ℕ)

/-- The last name in the log after a call. -/
def seenAfter (nd : Node) : Call → Option Str
  | .preparereq a => if (preparereq nd.acc a).1.accept then some a.n.m else nd.seen
  | _ => nd.seen

/-- One step. A call that trips a `VERIFY` has no next state: the process is gone, and
goes on with a crash step. -/
def step (s : System) : Act → Option System
  | .call p c =>
    (call (s.nodes p).acc c).map fun acc =>
      { s with nodes := Function.update s.nodes p ⟨acc, seenAfter (s.nodes p) c⟩ }
  | .crash p =>
    (logread (.blank (s.nodes p).acc.me (s.nodes p).acc.log)).map fun acc =>
      { s with nodes := Function.update s.nodes p ⟨acc, (s.nodes p).seen⟩ }
  | .dump p => some { s with dumps := s.dumps ++ [s.nodes p] }
  | .restore p k =>
    match s.dumps[k]? with
    | none => none
    -- the file becomes the dump's, but the replay starts from the members the node has
    | some q => (restore (s.nodes p).acc (dump q.acc)).map fun acc =>
      { s with nodes := Function.update s.nodes p ⟨acc, q.seen⟩ }

/-- Every node on an empty log. -/
def System.init (first : Str → Bool) (value : Str → Str) : System :=
  ⟨fun p => ⟨(acceptor.new (first p) p (value p) []).getD (.blank p []), none⟩, []⟩

/-! ## Never backwards -/

/-- `(instance_h, n_h)` does not decrease, and while `instance_h` stays the same an
accepted value does not become empty and does not change to one accepted under a
lower number. -/
def Forward (a a' : acceptor) : Prop :=
  (a.instance_h < a'.instance_h ∨ (a.instance_h = a'.instance_h ∧ a.n_h ≤ a'.n_h))
    ∧ (a.instance_h = a'.instance_h → a.v_a ≠ [] →
        a'.v_a ≠ [] ∧ ¬(a'.v_a ≠ a.v_a ∧ a'.n_a < a.n_a))

/-- What one step does: the same with `n_a` not decreasing, so that it composes. -/
def Advances (a a' : acceptor) : Prop :=
  a.instance_h < a'.instance_h ∨ (a.instance_h = a'.instance_h ∧ a.n_h ≤ a'.n_h
    ∧ (a.v_a ≠ [] → a'.v_a ≠ [] ∧ a.n_a ≤ a'.n_a))

theorem Advances.refl (a : acceptor) : Advances a a := .inr ⟨rfl, le_rfl, fun h => ⟨h, le_rfl⟩⟩

theorem Advances.trans {a b c : acceptor} (hab : Advances a b) (hbc : Advances b c) :
    Advances a c := by
  rcases hab with hab | ⟨hi, hn, hv⟩
  · rcases hbc with hbc | ⟨hi', -, -⟩
    · exact .inl (hab.trans hbc)
    · exact .inl (hi' ▸ hab)
  · rcases hbc with hbc | ⟨hi', hn', hv'⟩
    · exact .inl (hi ▸ hbc)
    · refine .inr ⟨hi.trans hi', hn.trans hn', fun h => ?_⟩
      obtain ⟨h1, h2⟩ := hv h
      obtain ⟨h3, h4⟩ := hv' h1
      exact ⟨h3, h2.trans h4⟩

theorem Advances.forward {a a' : acceptor} (h : Advances a a') : Forward a a' := by
  rcases h with h | ⟨hi, hn, hv⟩
  · exact ⟨.inl h, fun heq => absurd heq h.ne⟩
  · refine ⟨.inr ⟨hi, hn⟩, fun _ hne => ⟨(hv hne).1, fun hlow => ?_⟩⟩
    exact absurd hlow.2 (not_lt.mpr (hv hne).2)

/-! ## The conditions -/

/-- The dump of `q` is at least as advanced as node `p`: of a later instance, or of the
same with a promise at least as high, also for the name that replaying leaves when
the number is 0, and with an acceptance at least as high if `p` has one. -/
def Ahead (p q : Node) : Prop :=
  p.acc.instance_h < q.acc.instance_h ∨ (p.acc.instance_h = q.acc.instance_h
    ∧ p.acc.n_h ≤ q.acc.n_h
    ∧ (q.acc.n_h.n = 0 → ∀ m ∈ q.seen, p.acc.n_h.m ≤ m)
    ∧ (p.acc.v_a ≠ [] → q.acc.v_a ≠ [] ∧ p.acc.n_a ≤ q.acc.n_a))

instance (p q : Node) : Decidable (Ahead p q) :=
  inferInstanceAs (Decidable (p.acc.instance_h < q.acc.instance_h
    ∨ (p.acc.instance_h = q.acc.instance_h ∧ p.acc.n_h ≤ q.acc.n_h
      ∧ (q.acc.n_h.n = 0 → ∀ m ∈ q.seen, p.acc.n_h.m ≤ m)
      ∧ (p.acc.v_a ≠ [] → q.acc.v_a ≠ [] ∧ p.acc.n_a ≤ q.acc.n_a))))

/-- An acceptance is of a value that is not empty and, over an earlier acceptance,
not of a lower number. -/
def AcceptOk (acc : acceptor) : Call → Prop
  | .acceptreq a => prop_ge a.n acc.n_h → a.v ≠ [] ∧ (acc.v_a ≠ [] → acc.n_a ≤ a.n)
  | _ => True

instance (acc : acceptor) (c : Call) : Decidable (AcceptOk acc c) :=
  match c with
  | .acceptreq a => inferInstanceAs (Decidable
      (prop_ge a.n acc.n_h → a.v ≠ [] ∧ (acc.v_a ≠ [] → acc.n_a ≤ a.n)))
  | .preparereq _ => .isTrue trivial
  | .decidereq _ => .isTrue trivial
  | .commit _ _ => .isTrue trivial

/-- The condition on a step, in the state before it. -/
def StepOk (s : System) : Act → Prop
  | .call p c => c.Ok ∧ AcceptOk (s.nodes p).acc c
  | .crash p => (s.nodes p).acc.n_h.n = 0 →
      (s.nodes p).acc.n_h.m ≤ (s.nodes p).seen.getD (s.nodes p).acc.me
  | .dump _ => True
  | .restore p k => ∀ q ∈ s.dumps[k]?, Ahead (s.nodes p) q

instance (s : System) (a : Act) : Decidable (StepOk s a) :=
  match a with
  | .call p c => inferInstanceAs (Decidable (c.Ok ∧ AcceptOk (s.nodes p).acc c))
  | .crash p => inferInstanceAs (Decidable ((s.nodes p).acc.n_h.n = 0 →
      (s.nodes p).acc.n_h.m ≤ (s.nodes p).seen.getD (s.nodes p).acc.me))
  | .dump _ => .isTrue trivial
  | .restore p k => inferInstanceAs (Decidable (∀ q ∈ s.dumps[k]?, Ahead (s.nodes p) q))

/-! ## What the log says -/

/-- The name in the last `propseen` record. -/
def lastSeen (recs : List Record) : Option Str :=
  recs.foldl (fun o r => match r with
    | .propseen n => some n.m
    | _ => o) none

theorem lastSeen_append (recs : List Record) (r : Record) :
    lastSeen (recs ++ [r]) = match r with
      | .propseen n => some n.m
      | _ => lastSeen recs := by
  rw [lastSeen, List.foldl_append]
  rfl

/-- Replaying leaves the name of the last promise it has read. -/
theorem replay_name (x : acceptor) (recs : List Record) :
    (replay x recs).n_h.m = (lastSeen recs).getD x.n_h.m := by
  induction recs using List.reverseRecOn with
  | nil => rfl
  | append_singleton recs r ih =>
    rw [replay_append, lastSeen_append]
    cases r with
    | done i v => exact ih
    | propseen n => rfl
    | accepted n v => exact ih

/-- `b` has what is needed of the state of `a`. -/
structure Matches (a b : acceptor) : Prop where
  instance_h : b.instance_h = a.instance_h
  v_a : b.v_a = a.v_a
  n_h : SameNum a.n_h b.n_h
  n_a : a.v_a ≠ [] → b.n_a = a.n_a

theorem Matches.refl (a : acceptor) : Matches a a := ⟨rfl, rfl, .refl _, fun _ => rfl⟩

/-- Two that have what is needed of one state. -/
theorem Matches.common {a b c : acceptor} (hb : Matches a b) (hc : Matches a c) :
    Matches b c := by
  refine ⟨hc.instance_h.trans hb.instance_h.symm, hc.v_a.trans hb.v_a.symm, ⟨?_, ?_⟩, ?_⟩
  · exact hc.n_h.n.trans hb.n_h.n.symm
  · intro hpos
    rw [hb.n_h.n] at hpos
    exact (hc.n_h.m hpos).trans (hb.n_h.m hpos).symm
  · intro hne
    rw [hb.v_a] at hne
    exact (hc.n_a hne).trans (hb.n_a hne).symm

/-- The log of a node replays to its state. -/
def Recorded (nd : Node) : Prop :=
  ∃ recs, (∀ r ∈ recs, r.Wf) ∧ nd.acc.log = encode recs ∧ lastSeen recs = nd.seen
    ∧ Matches nd.acc (replay (.blank nd.acc.me nd.acc.log) recs)

/-- A step that writes one record. -/
theorem Recorded.append {nd nd' : Node} (h : Recorded nd) {r : Record} (hr : r.Wf)
    (hlog : nd'.acc.log = nd.acc.log ++ r.text) (hme : nd'.acc.me = nd.acc.me)
    (hseen : ∀ recs, lastSeen recs = nd.seen → lastSeen (recs ++ [r]) = nd'.seen)
    (hmatch : ∀ b, Matches nd.acc b → Matches nd'.acc (Record.apply b r)) : Recorded nd' := by
  obtain ⟨recs, hwf, hrecs, hlast, hm⟩ := h
  refine ⟨recs ++ [r], ?_, ?_, hseen recs hlast, ?_⟩
  · intro r' hr'
    rcases List.mem_append.mp hr' with h | h
    · exact hwf r' h
    · rw [List.mem_singleton.mp h]
      exact hr
  · rw [hlog, hrecs, encode_append, encode_cons]
    simp
  · rw [replay_append, hme, replay_log nd.acc.me nd.acc.log nd'.acc.log recs]
    exact hmatch _ ⟨hm.instance_h, hm.v_a, hm.n_h, hm.n_a⟩

/-- Replaying over other members: where the records say nothing, the members stay. -/
structure Over (x b c : acceptor) : Prop where
  instance_h : c.instance_h = b.instance_h ∨ (b.instance_h = 0 ∧ c.instance_h = x.instance_h)
  v_a : c.v_a = b.v_a ∨ (b.v_a = [] ∧ b.instance_h = 0 ∧ c.v_a = x.v_a)
  n_a : b.v_a ≠ [] → c.n_a = b.n_a
  n_h : c.n_h.n = b.n_h.n ∨ (b.n_h.n = 0 ∧ b.instance_h = 0 ∧ c.n_h.n = x.n_h.n)

theorem replay_over (x : acceptor) (me l : Str) (recs : List Record) :
    Over x (replay (.blank me l) recs) (replay x recs) := by
  induction recs using List.reverseRecOn with
  | nil =>
    exact ⟨.inr ⟨rfl, rfl⟩, .inr ⟨rfl, rfl, rfl⟩, fun h => absurd rfl h, .inr ⟨rfl, rfl, rfl⟩⟩
  | append_singleton recs r ih =>
    rw [replay_append, replay_append]
    cases r with
    | done i v => exact ⟨.inl rfl, .inl rfl, fun h => absurd rfl h, .inl rfl⟩
    | propseen n => exact ⟨ih.instance_h, ih.v_a, ih.n_a, .inl rfl⟩
    | accepted n v => exact ⟨ih.instance_h, .inl rfl, fun _ => rfl, ih.n_h⟩

/-! ## The steps at one node -/

/-- The node goes forward and its log still says where it is. -/
def Progress (nd nd' : Node) : Prop := Recorded nd' ∧ Advances nd.acc nd'.acc

theorem Progress.refl {nd : Node} (h : Recorded nd) : Progress nd nd := ⟨h, .refl _⟩

/-- The value accepted last can be read back. -/
theorem Recorded.v_a {nd : Node} (h : Recorded nd) : Record.ValueOk nd.acc.v_a := by
  obtain ⟨recs, hwf, -, -, hm⟩ := h
  rw [← hm.v_a]
  exact (replay_valueOk hwf _ _).1

theorem progress_preparereq {nd : Node} (h : Recorded nd) {a : preparearg}
    (ha : Record.NumOk a.n) :
    Progress nd ⟨(preparereq nd.acc a).2, seenAfter nd (.preparereq a)⟩ := by
  unfold seenAfter preparereq
  by_cases hold : a.inst ≤ nd.acc.instance_h
  · simp only [if_pos hold]
    exact .refl h
  · simp only [if_neg hold]
    by_cases hgt : prop_gt a.n nd.acc.n_h
    · simp only [if_pos hgt]
      refine ⟨h.append (r := .propseen a.n) ha rfl rfl (fun recs _ => ?_) fun b hb => ?_, ?_⟩
      · rw [lastSeen_append]
        rfl
      · exact ⟨hb.instance_h, hb.v_a, .refl _, hb.n_a⟩
      · exact .inr ⟨rfl, (prop_gt_iff.mp hgt).le, fun h => ⟨h, le_rfl⟩⟩
    · simp only [if_neg hgt]
      exact .refl h

theorem progress_acceptreq {nd : Node} (h : Recorded nd) {a : acceptarg} (ha : Record.NumOk a.n)
    (hv : Record.ValueOk a.v)
    (hok : prop_ge a.n nd.acc.n_h → a.v ≠ [] ∧ (nd.acc.v_a ≠ [] → nd.acc.n_a ≤ a.n)) :
    Progress nd ⟨(acceptreq nd.acc a).2, nd.seen⟩ := by
  unfold acceptreq
  by_cases hge : prop_ge a.n nd.acc.n_h
  · simp only [if_pos hge]
    obtain ⟨hne, hlow⟩ := hok hge
    refine ⟨h.append (r := .accepted a.n a.v) ⟨ha, hv⟩ rfl rfl (fun recs hs => ?_) fun b hb => ?_,
      ?_⟩
    · rw [lastSeen_append]
      exact hs
    · exact ⟨hb.instance_h, rfl, hb.n_h, fun _ => rfl⟩
    · exact .inr ⟨rfl, le_rfl, fun hva => ⟨hne, hlow hva⟩⟩
  · simp only [if_neg hge]
    exact .refl h

theorem progress_commit_wo {nd : Node} (h : Recorded nd) {i : ℕ} (hi : i < 2 ^ 32) {v : Str}
    (hv : Record.ValueOk v) : Progress nd ⟨commit_wo nd.acc i v, nd.seen⟩ := by
  unfold commit_wo
  by_cases hgt : i > nd.acc.instance_h
  · simp only [if_pos hgt]
    refine ⟨h.append (r := .done i v) ⟨hi, hv⟩ rfl rfl (fun recs hs => ?_) fun b hb => ?_, .inl hgt⟩
    · rw [lastSeen_append]
      exact hs
    · exact ⟨rfl, rfl, .zero rfl rfl, fun hne => absurd rfl hne⟩
  · simp only [if_neg hgt]
    exact .refl h

theorem progress_call {nd : Node} (h : Recorded nd) {c : Call} (hc : c.Ok)
    (hok : AcceptOk nd.acc c) {acc : acceptor} (hcall : call nd.acc c = some acc) :
    Progress nd ⟨acc, seenAfter nd c⟩ := by
  cases c with
  | preparereq a =>
    obtain rfl := Option.some.inj hcall
    exact progress_preparereq h hc
  | acceptreq a =>
    obtain rfl := Option.some.inj hcall
    exact progress_acceptreq h hc.1 hc.2 hok
  | decidereq a =>
    have hcall : decidereq nd.acc a = some acc := hcall
    unfold decidereq at hcall
    split at hcall
    · split at hcall
      · obtain rfl := Option.some.inj hcall
        exact progress_commit_wo h hc h.v_a
      · cases hcall
    · split at hcall
      · obtain rfl := Option.some.inj hcall
        exact .refl h
      · cases hcall
  | commit i v =>
    obtain rfl := Option.some.inj hcall
    exact progress_commit_wo h hc.1 hc.2

/-- A replay of the own log. -/
theorem progress_crash {nd : Node} (h : Recorded nd)
    (hok : nd.acc.n_h.n = 0 → nd.acc.n_h.m ≤ nd.seen.getD nd.acc.me) {acc : acceptor}
    (hread : logread (.blank nd.acc.me nd.acc.log) = some acc) : Progress nd ⟨acc, nd.seen⟩ := by
  obtain ⟨recs, hwf, hlog, hseen, hm⟩ := h
  have hdone : logread (.blank nd.acc.me nd.acc.log)
      = some (replay (.blank nd.acc.me nd.acc.log) recs) := logread_encode hwf hlog
  rw [hdone, Option.some.injEq] at hread
  have hname := replay_name (.blank nd.acc.me nd.acc.log) recs
  obtain ⟨hme, hlog'⟩ := replay_me (.blank nd.acc.me nd.acc.log) recs
  rw [hread] at hm hname hme hlog'
  refine ⟨⟨recs, hwf, hlog'.trans hlog, hseen, ?_⟩, .inr ⟨hm.instance_h.symm, ?_, fun hne => ?_⟩⟩
  · simp only [hme, hlog', acceptor.blank] at hread ⊢
    rw [hread]
    exact .refl _
  · -- with a number above 0 the name is read back; with number 0 the condition speaks
    rcases Nat.eq_zero_or_pos nd.acc.n_h.n with h0 | hpos
    · refine prop_t.le_iff.mpr (.inr ⟨hm.n_h.n.symm, ?_⟩)
      rw [hname, hseen]
      exact hok h0
    · have heq : acc.n_h = nd.acc.n_h := prop_t.ext hm.n_h.n (hm.n_h.m hpos)
      exact heq ▸ le_rfl
  · rw [hm.v_a, hm.n_a hne]
    exact ⟨hne, le_rfl⟩

/-- Without a `propseen` record nothing raises the number. -/
theorem replay_unseen {recs : List Record} (h : lastSeen recs = none) (me l : Str) :
    (replay (.blank me l) recs).n_h.n = 0 := by
  induction recs using List.reverseRecOn with
  | nil => rfl
  | append_singleton recs r ih =>
    rw [lastSeen_append] at h
    rw [replay_append]
    cases r with
    | done i v => rfl
    | propseen n => cases h
    | accepted n v => exact ih h

/-- The dump of `q` replayed over members `x` that have nothing where the dump says nothing. -/
theorem matches_replay {q : Node} {recs : List Record} (hseen : lastSeen recs = q.seen)
    (hm : Matches q.acc (replay (.blank q.acc.me q.acc.log) recs)) {x : acceptor}
    (hinst : q.acc.instance_h = 0 → x.instance_h = 0)
    (hval : q.acc.instance_h = 0 → q.acc.v_a = [] → x.v_a = [])
    (hnum : q.acc.instance_h = 0 → q.acc.n_h.n = 0 → x.n_h.n = 0) :
    Matches q.acc (replay x recs) := by
  have ho := replay_over x q.acc.me q.acc.log recs
  have hname := replay_name x recs
  have hname' := replay_name (.blank q.acc.me q.acc.log) recs
  rw [hseen] at hname hname'
  refine ⟨?_, ?_, ⟨?_, ?_⟩, ?_⟩
  · rw [← hm.instance_h] at hinst ⊢
    rcases ho.instance_h with h | ⟨h0, h⟩
    · exact h
    · rw [h, h0, hinst h0]
  · rw [← hm.instance_h, ← hm.v_a] at hval
    rw [← hm.v_a]
    rcases ho.v_a with h | ⟨hnil, h0, h⟩
    · exact h
    · rw [h, hnil, hval h0 hnil]
  · rw [← hm.instance_h, ← hm.n_h.n] at hnum
    rw [← hm.n_h.n]
    rcases ho.n_h with h | ⟨hn0, h0, h⟩
    · exact h
    · rw [h, hn0, hnum h0 hn0]
  · intro hpos
    cases hs : q.seen with
    | none =>
      have h0 := replay_unseen (hseen.trans hs) q.acc.me q.acc.log
      rw [hm.n_h.n] at h0
      omega
    | some m =>
      rw [hs] at hname hname'
      rw [← hm.n_h.m hpos, hname, hname']
      rfl
  · intro hne
    rw [← hm.n_a hne]
    exact ho.n_a (hm.v_a ▸ hne)

/-- What matches a dump that is ahead of `p`, and has the name that was read last, is ahead
of `p`. -/
theorem Ahead.advances {p q : Node} {acc : acceptor} (h : Ahead p q) (hm : Matches q.acc acc)
    (hname : acc.n_h.m = q.seen.getD p.acc.n_h.m) : Advances p.acc acc := by
  rcases h with hlt | ⟨heq, hle, hzero, hacc⟩
  · exact .inl (hm.instance_h.symm ▸ hlt)
  refine .inr ⟨heq.trans hm.instance_h.symm, ?_, ?_⟩
  · rcases Nat.eq_zero_or_pos q.acc.n_h.n with h0 | hpos
    -- number 0 in the dump: the replay leaves the name it has read last
    · have hp0 : p.acc.n_h.n = 0 := by
        have hnum := prop_t.le_iff.mp hle
        omega
      refine prop_t.le_iff.mpr (.inr ⟨hp0.trans (hm.n_h.n.trans h0).symm, ?_⟩)
      rw [hname]
      cases hs : q.seen with
      | none => exact le_rfl
      | some m => exact hzero h0 m hs
    · rwa [prop_t.ext hm.n_h.n (hm.n_h.m hpos)]
  · intro hne
    obtain ⟨hqne, hqle⟩ := hacc hne
    exact ⟨hm.v_a ▸ hqne, (hm.n_a hqne).symm ▸ hqle⟩

/-- A restore from a dump that is ahead. -/
theorem progress_restore {p q : Node} (hq : Recorded q) (hahead : Ahead p q) {acc : acceptor}
    (hres : restore p.acc (dump q.acc) = some acc) : Progress p ⟨acc, q.seen⟩ := by
  obtain ⟨recs, hwf, hlog, hseen, hm⟩ := hq
  have hdump : dump q.acc = q.acc.log := dump_encode hlog
  have hread : restore p.acc (dump q.acc)
      = some (replay { p.acc with log := dump q.acc } recs) :=
    logread_encode hwf (hdump.trans hlog)
  rw [hread, Option.some.injEq] at hres
  -- in instance 0 of the dump the members of `p` are no further than it
  have hsame : q.acc.instance_h = 0 → p.acc.instance_h = 0 ∧ p.acc.n_h ≤ q.acc.n_h
      ∧ (p.acc.v_a ≠ [] → q.acc.v_a ≠ []) := by
    intro h0
    rcases hahead with hlt | ⟨heq, hle, -, hacc⟩
    · omega
    · exact ⟨heq.trans h0, hle, fun hne => (hacc hne).1⟩
  have hacc : Matches q.acc acc := by
    rw [← hres]
    refine matches_replay hseen hm (fun h0 => (hsame h0).1) ?_ ?_
    · intro h0 hnil
      by_contra hne
      exact (hsame h0).2.2 hne hnil
    · intro h0 hn0
      have hle := prop_t.le_iff.mp (hsame h0).2.1
      show p.acc.n_h.n = 0
      omega
  have hblank : Matches q.acc (replay (.blank acc.me acc.log) recs) :=
    matches_replay hseen hm (fun _ => rfl) (fun _ _ => rfl) (fun _ _ => rfl)
  obtain ⟨-, hlog'⟩ := replay_me { p.acc with log := dump q.acc } recs
  have hname := replay_name { p.acc with log := dump q.acc } recs
  rw [hres] at hlog' hname
  rw [hseen] at hname
  exact ⟨⟨recs, hwf, hlog'.trans (hdump.trans hlog), hseen, hacc.common hblank⟩,
    hahead.advances hacc hname⟩

/-! ## Runs -/

/-- Every node and every dump is recorded. -/
structure Inv (s : System) : Prop where
  nodes : ∀ p, Recorded (s.nodes p)
  dumps : ∀ q ∈ s.dumps, Recorded q

/-- One node of the system progresses, the others stay. -/
theorem step_node {s : System} (hinv : Inv s) {p : Str} {nd : Node}
    (h : Progress (s.nodes p) nd) :
    Inv { s with nodes := Function.update s.nodes p nd }
      ∧ ∀ p', Advances (s.nodes p').acc (Function.update s.nodes p nd p').acc := by
  refine ⟨⟨fun p' => ?_, hinv.dumps⟩, fun p' => ?_⟩
  · by_cases hp : p' = p
    · subst hp
      simp only [Function.update_self]
      exact h.1
    · simp only [Function.update_of_ne hp]
      exact hinv.nodes p'
  · by_cases hp : p' = p
    · subst hp
      rw [Function.update_self]
      exact h.2
    · rw [Function.update_of_ne hp]
      exact .refl _

/-- **The step lemma.** -/
theorem step_advances {s s' : System} {a : Act} (hinv : Inv s) (hok : StepOk s a)
    (hs : step s a = some s') :
    Inv s' ∧ ∀ p, Advances (s.nodes p).acc (s'.nodes p).acc := by
  cases a with
  | call p c =>
    obtain ⟨acc, hacc, rfl⟩ := Option.map_eq_some_iff.mp hs
    exact step_node hinv (progress_call (hinv.nodes p) hok.1 hok.2 hacc)
  | crash p =>
    obtain ⟨acc, hacc, rfl⟩ := Option.map_eq_some_iff.mp hs
    exact step_node hinv (progress_crash (hinv.nodes p) hok hacc)
  | dump p =>
    obtain rfl := Option.some.inj hs
    refine ⟨⟨hinv.nodes, fun q hq => ?_⟩, fun p' => .refl _⟩
    rcases List.mem_append.mp hq with h | h
    · exact hinv.dumps q h
    · rw [List.mem_singleton.mp h]
      exact hinv.nodes p
  | restore p k =>
    simp only [step] at hs
    split at hs
    · cases hs
    · next q hq =>
      obtain ⟨acc, hacc, rfl⟩ := Option.map_eq_some_iff.mp hs
      exact step_node hinv
        (progress_restore (hinv.dumps q (List.mem_of_getElem? hq)) (hok q hq) hacc)

theorem inv_init (first : Str → Bool) {value : Str → Str}
    (hvalue : ∀ p, Record.ValueOk (value p)) : Inv (System.init first value) := by
  refine ⟨fun p => ?_, fun q hq => by cases hq⟩
  simp only [System.init, new_nil, Option.getD_some]
  have hblank : Recorded ⟨.blank p [], none⟩ := ⟨[], by simp, rfl, rfl, .refl _⟩
  cases first p with
  | false => exact hblank
  | true =>
    refine hblank.append (r := .done 1 (value p)) ⟨by decide, hvalue p⟩ rfl rfl
      (fun recs hs => ?_)
      fun b hb => ?_
    · rw [lastSeen_append]
      exact hs
    · exact ⟨rfl, rfl, .zero rfl rfl, fun hne => absurd rfl hne⟩

/-- **Promises never go backwards** in a run whose steps meet the condition: from any
point of the run to any later one, at every node. -/
theorem promises_never_go_back {first : Str → Bool} {value : Str → Str}
    (hvalue : ∀ p, Record.ValueOk (value p)) {as bs : List Act} {s t : System}
    (hs : Steps.run step (System.init first value) as = some s)
    (ht : Steps.run step s bs = some t)
    (hok : Steps.RunMeets step StepOk (System.init first value) (as ++ bs)) (p : Str) :
    Forward (s.nodes p).acc (t.nodes p).acc := by
  obtain ⟨hoks, hokt⟩ := Steps.runMeets_append hok hs
  have hinv : Inv s := Steps.run_inv
    (fun s a s' hi hok h => (step_advances hi hok h).1) (inv_init first hvalue) hoks hs
  have hrun : Inv t ∧ Advances (s.nodes p).acc (t.nodes p).acc := by
    refine Steps.run_inv (P := fun u => Inv u ∧ Advances (s.nodes p).acc (u.nodes p).acc)
      (fun u a u' hu hok h => ?_) ⟨hinv, .refl _⟩ hokt ht
    obtain ⟨hinv', hadv⟩ := step_advances hu.1 hok h
    exact ⟨hinv', hu.2.trans (hadv p)⟩
  exact hrun.2.forward

/-- Node `b` promises and accepts, and node `a` promises less. -/
def behind : List Act :=
  [.call ['b'] (.preparereq ⟨1, ⟨2, ['b']⟩⟩), .call ['b'] (.acceptreq ⟨1, ⟨2, ['b']⟩, ['x']⟩),
    .dump ['b'], .call ['a'] (.preparereq ⟨1, ⟨1, ['a']⟩⟩)]

theorem promises_never_go_back_behind :
    ∃ s t, Steps.run step (System.init (fun _ => false) fun _ => []) behind = some s
      ∧ Steps.run step s [.restore ['a'] 0, .crash ['a']] = some t
      ∧ (s.nodes ['a']).acc.n_h = ⟨1, ['a']⟩ ∧ (t.nodes ['a']).acc.n_h = ⟨2, ['b']⟩
      ∧ Forward (s.nodes ['a']).acc (t.nodes ['a']).acc := by
  have hex : ((Steps.run step (System.init (fun _ => false) fun _ => []) behind).bind
      fun s => (Steps.run step s [.restore ['a'] 0, .crash ['a']]).map
        fun t => ((s.nodes ['a']).acc.n_h, (t.nodes ['a']).acc.n_h))
      = some (⟨1, ['a']⟩, ⟨2, ['b']⟩) := by decide
  obtain ⟨s, t, hs, ht, heq⟩ := Steps.exists_run_run hex
  obtain ⟨h1, h2⟩ := Prod.mk.inj heq
  have hok : Steps.RunMeets step StepOk (System.init (fun _ => false) fun _ => [])
      (behind ++ [.restore ['a'] 0, .crash ['a']]) := by decide
  exact ⟨s, t, hs, ht, h1, h2, promises_never_go_back (fun _ => by decide) hs ht hok ['a']⟩

/-- Node `a` promises 1, and its dump is taken; node `b` promises 5 and accepts. -/
def ahead : List Act :=
  [.call ['a'] (.preparereq ⟨1, ⟨1, ['a']⟩⟩), .dump ['a'],
    .call ['b'] (.preparereq ⟨1, ⟨5, ['c']⟩⟩), .call ['b'] (.acceptreq ⟨1, ⟨5, ['c']⟩, ['x']⟩)]

/-- Restoring from the older dump, node `b` takes back its promise, and its log no
longer has the acceptance. -/
theorem restore_goes_back :
    ∃ s t, Steps.run step (System.init (fun _ => false) fun _ => []) ahead = some s
      ∧ step s (.restore ['b'] 0) = some t
      ∧ (s.nodes ['b']).acc.n_h = ⟨5, ['c']⟩ ∧ (t.nodes ['b']).acc.n_h = ⟨1, ['a']⟩
      ∧ ¬Forward (s.nodes ['b']).acc (t.nodes ['b']).acc := by
  have hex : ((Steps.run step (System.init (fun _ => false) fun _ => []) ahead).bind
      fun s => (step s (.restore ['b'] 0)).map
        fun t => ((s.nodes ['b']).acc.instance_h, (s.nodes ['b']).acc.n_h,
          (t.nodes ['b']).acc.instance_h, (t.nodes ['b']).acc.n_h))
      = some (0, ⟨5, ['c']⟩, 0, ⟨1, ['a']⟩) := by decide
  obtain ⟨s, t, hs, ht, heq⟩ := Steps.exists_run_step hex
  simp only [Prod.mk.injEq] at heq
  obtain ⟨hi, hn, hi', hn'⟩ := heq
  refine ⟨s, t, hs, ht, hn, hn', ?_⟩
  rintro ⟨h | ⟨-, h⟩, -⟩
  · omega
  · rw [hn, hn'] at h
    exact absurd h (by decide)

end Yfs.PaxosRestore
