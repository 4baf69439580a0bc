/-
The acceptor's state survives a crash: a new acceptor that replays the log has the
same state as the one that wrote it.

`commit` resets the proposal numbers to `(0, me)` in memory and writes a `done`
record; `logread` of that record resets only the numbers and leaves the names of the
last proposals it has read. So the names agree only where the number is not 0, which
is all the rest of the protocol needs: a promise or an acceptance always has a
number above 0.
-/
import Yfs.PaxosLog
import Yfs.Steps
import Mathlib.Data.List.Induction

set_option autoImplicit false

namespace Yfs.PaxosDurable

open Text Yfs.PaxosAcceptor Yfs.PaxosLog

/-! ## Agreement of two acceptors -/

/-- Proposal numbers agree, the names where the number is not 0. -/
structure SameNum (a b : prop_t) : Prop where
  n : b.n = a.n
  m : 0 < a.n → b.m = a.m

/-- `b` has the state of `a`. -/
structure Agree (a b : acceptor) : Prop where
  me : b.me = a.me
  instance_h : b.instance_h = a.instance_h
  values : b.values = a.values
  v_a : b.v_a = a.v_a
  n_h : SameNum a.n_h b.n_h
  n_a : SameNum a.n_a b.n_a

theorem SameNum.refl (a : prop_t) : SameNum a a := ⟨rfl, fun _ => rfl⟩

theorem SameNum.zero {a b : prop_t} (ha : a.n = 0) (hb : b.n = 0) : SameNum a b :=
  ⟨hb.trans ha.symm, fun h => by omega⟩

/-- The log of `a` is the text of records that replay to the state of `a`. -/
def Durable (a : acceptor) : Prop :=
  ∃ recs, (∀ r ∈ recs, r.Wf) ∧ a.log = encode recs ∧ Agree a (replay (.blank a.me a.log) recs)

/-- Replaying does not look at the log it is replayed from. -/
theorem replay_log (me l l' : Str) (recs : List Record) :
    replay (.blank me l') recs = { replay (.blank me l) recs with log := l' } := by
  -- from the end: the last record is applied to the replay of the others
  induction recs using List.reverseRecOn with
  | nil => rfl
  | append_singleton recs r ih =>
    rw [replay_append, replay_append, ih]
    cases r <;> rfl

/-- Replaying keeps the name and the file. -/
theorem replay_me (x : acceptor) (recs : List Record) :
    (replay x recs).me = x.me ∧ (replay x recs).log = x.log := by
  induction recs using List.reverseRecOn with
  | nil => exact ⟨rfl, rfl⟩
  | append_singleton recs r ih =>
    rw [replay_append, ← ih.1, ← ih.2]
    cases r <;> exact ⟨rfl, rfl⟩

/-- **Appending a record.** An acceptor that writes a record and does to its members
what reading the record does, up to agreement, stays durable. -/
theorem Durable.append {a a' : acceptor} (ha : Durable a) {r : Record} (hr : r.Wf)
    (hlog : a'.log = a.log ++ r.text)
    (hagree : ∀ b, Agree a b → Agree a' (Record.apply b r)) : Durable a' := by
  obtain ⟨recs, hwf, hrecs, hrep⟩ := ha
  have hlog' : a'.log = encode (recs ++ [r]) := by
    rw [hlog, hrecs, encode_append, encode_cons]
    simp
  refine ⟨recs ++ [r], ?_, hlog', ?_⟩
  · intro r' hr'
    rcases List.mem_append.mp hr' with h | h
    · exact hwf r' h
    · rw [List.mem_singleton.mp h]
      exact hr
  · have hme : a'.me = a.me := by
      have h1 := (hagree _ hrep).me
      have h2 : (Record.apply (replay (.blank a.me a.log) recs) r).me
          = (replay (.blank a.me a.log) recs).me := by
        cases r <;> rfl
      exact h1.symm.trans (h2.trans hrep.me)
    rw [replay_append, hme, replay_log a.me a.log a'.log recs]
    have hb : Agree a { replay (.blank a.me a.log) recs with log := a'.log } :=
      ⟨hrep.me, hrep.instance_h, hrep.values, hrep.v_a, hrep.n_h, hrep.n_a⟩
    exact hagree _ hb

/-! ## The handlers -/

theorem durable_blank (me : Str) : Durable (.blank me []) :=
  ⟨[], by simp, rfl, rfl, rfl, rfl, rfl, .refl _, .refl _⟩

theorem durable_preparereq {s : acceptor} (hs : Durable s) {a : preparearg}
    (ha : Record.NumOk a.n) : Durable (preparereq s a).2 := by
  unfold preparereq
  split
  · exact hs
  · split
    · refine hs.append (r := .propseen a.n) ha rfl fun b hb => ?_
      exact ⟨hb.me, hb.instance_h, hb.values, hb.v_a, .refl _, hb.n_a⟩
    · exact hs

theorem durable_acceptreq {s : acceptor} (hs : Durable s) {a : acceptarg}
    (ha : Record.NumOk a.n) (hv : Record.ValueOk a.v) : Durable (acceptreq s a).2 := by
  unfold acceptreq
  split
  · refine hs.append (r := .accepted a.n a.v) ⟨ha, hv⟩ rfl fun b hb => ?_
    exact ⟨hb.me, hb.instance_h, hb.values, rfl, hb.n_h, .refl _⟩
  · exact hs

theorem durable_commit_wo {s : acceptor} (hs : Durable s) {i : ℕ} (hi : i < 2 ^ 32) {v : Str}
    (hv : Record.ValueOk v) : Durable (commit_wo s i v) := by
  unfold commit_wo
  split
  · refine hs.append (r := .done i v) ⟨hi, hv⟩ rfl fun b hb => ?_
    -- in memory the names are reset too, in the file only the numbers are
    refine ⟨hb.me, rfl, ?_, rfl, .zero rfl rfl, .zero rfl rfl⟩
    simp only [Record.apply, loginstance, hb.values]
  · exact hs

/-- Whatever a log of readable records replays to has readable values. -/
theorem replay_valueOk {recs : List Record} (hrecs : ∀ r ∈ recs, r.Wf) (me l : Str) :
    Record.ValueOk (replay (.blank me l) recs).v_a
      ∧ ∀ i v, (replay (.blank me l) recs).values i = some v → Record.ValueOk v := by
  induction recs using List.reverseRecOn with
  | nil => exact ⟨List.not_mem_nil, fun _ _ h => by cases h⟩
  | append_singleton recs r ih =>
    have hr := hrecs r (by simp)
    obtain ⟨hva, hvals⟩ := ih fun r' hr' => hrecs r' (List.mem_append_left _ hr')
    rw [replay_append]
    cases r with
    | done i v =>
      refine ⟨List.not_mem_nil, fun j w h => ?_⟩
      by_cases hj : j = i
      · subst hj
        rw [show (replay (replay (.blank me l) recs) [.done j v]).values j = some v from
          Function.update_self .., Option.some.injEq] at h
        exact h ▸ hr.2
      · rw [show (replay (replay (.blank me l) recs) [.done i v]).values j
          = (replay (.blank me l) recs).values j from Function.update_of_ne hj ..] at h
        exact hvals j w h
    | propseen n => exact ⟨hva, hvals⟩
    | accepted n v => exact ⟨hr.2, hvals⟩

theorem Durable.v_a {a : acceptor} (ha : Durable a) : Record.ValueOk a.v_a := by
  obtain ⟨recs, hwf, -, hrep⟩ := ha
  rw [← hrep.v_a]
  exact (replay_valueOk hwf _ _).1

theorem Durable.value {a : acceptor} (ha : Durable a) {i : ℕ} {v : Str}
    (hv : a.values i = some v) : Record.ValueOk v := by
  obtain ⟨recs, hwf, -, hrep⟩ := ha
  rw [← hrep.values] at hv
  exact (replay_valueOk hwf _ _).2 i v hv

theorem durable_decidereq {s s' : acceptor} (hs : Durable s) {a : decidearg}
    (ha : a.inst < 2 ^ 32) (h : decidereq s a = some s') : Durable s' := by
  unfold decidereq at h
  split at h
  · split at h
    · obtain rfl := Option.some.inj h
      exact durable_commit_wo hs ha hs.v_a
    · cases h
  · split at h
    · obtain rfl := Option.some.inj h
      exact hs
    · cases h

/-- **A durable acceptor is replayed from its log**, and the new one is durable too. -/
theorem Durable.replayed {a : acceptor} (ha : Durable a) :
    ∃ b, logread (.blank a.me a.log) = some b ∧ Agree a b ∧ Durable b := by
  obtain ⟨recs, hwf, hlog, hrep⟩ := ha
  refine ⟨_, logread_encode hwf hlog, hrep, recs, hwf, ?_, ?_⟩
  · exact (replay_me _ recs).2.trans hlog
  · rw [(replay_me _ recs).1, (replay_me _ recs).2]
    exact ⟨rfl, rfl, rfl, rfl, .refl _, .refl _⟩

/-! ## Runs of calls -/

inductive Call where
  | preparereq (a : preparearg)
  | acceptreq (a : acceptarg)
  | decidereq (a : decidearg)
  | commit (i : ℕ) (v : Str)

/-- The arguments are of their types, names are words and values lines. -/
def Call.Ok : Call → Prop
  | .preparereq a => Record.NumOk a.n
  | .acceptreq a => Record.NumOk a.n ∧ Record.ValueOk a.v
  | .decidereq a => a.inst < 2 ^ 32
  | .commit i v => i < 2 ^ 32 ∧ Record.ValueOk v

instance (c : Call) : Decidable c.Ok :=
  match c with
  | .preparereq a => inferInstanceAs (Decidable (Record.NumOk a.n))
  | .acceptreq a => inferInstanceAs (Decidable (Record.NumOk a.n ∧ Record.ValueOk a.v))
  | .decidereq a => inferInstanceAs (Decidable (a.inst < 2 ^ 32))
  | .commit i v => inferInstanceAs (Decidable (i < 2 ^ 32 ∧ Record.ValueOk v))

/-- The acceptor after a completed call. -/
def call (s : acceptor) : Call → Option acceptor
  | .preparereq a => some (preparereq s a).2
  | .acceptreq a => some (acceptreq s a).2
  | .decidereq a => decidereq s a
  | .commit i v => some (commit s i v)

/-- The acceptor on an empty log, and the calls made on it. -/
def started (first : Bool) (me value : Str) (cs : List Call) : Option acceptor :=
  (acceptor.new first me value []).bind fun s => Steps.run call s cs

theorem durable_call (s : acceptor) (c : Call) (s' : acceptor) (hs : Durable s) (hc : c.Ok)
    (h : call s c = some s') : Durable s' := by
  cases c with
  | preparereq a =>
    obtain rfl := Option.some.inj h
    exact durable_preparereq hs hc
  | acceptreq a =>
    obtain rfl := Option.some.inj h
    exact durable_acceptreq hs hc.1 hc.2
  | decidereq a => exact durable_decidereq hs hc h
  | commit i v =>
    obtain rfl := Option.some.inj h
    exact durable_commit_wo hs hc.1 hc.2

theorem le_instance_h_commit_wo (s : acceptor) (i : ℕ) (v : Str) :
    s.instance_h ≤ (commit_wo s i v).instance_h := by
  unfold commit_wo
  split
  · next h => exact h.le
  · exact le_rfl

/-- No call lowers `instance_h`. -/
theorem instance_h_call (s : acceptor) (c : Call) (s' : acceptor) (h : call s c = some s') :
    s.instance_h ≤ s'.instance_h ∧ s'.me = s.me := by
  cases c with
  | preparereq a =>
    obtain rfl := Option.some.inj h
    unfold preparereq
    split
    · exact ⟨le_rfl, rfl⟩
    · split <;> exact ⟨le_rfl, rfl⟩
  | acceptreq a =>
    obtain rfl := Option.some.inj h
    unfold acceptreq
    split <;> exact ⟨le_rfl, rfl⟩
  | decidereq a =>
    have h : decidereq s a = some s' := h
    unfold decidereq at h
    split at h
    · split at h
      · obtain rfl := Option.some.inj h
        refine ⟨le_instance_h_commit_wo .., ?_⟩
        unfold commit_wo
        split <;> rfl
      · cases h
    · split at h
      · obtain rfl := Option.some.inj h
        exact ⟨le_rfl, rfl⟩
      · cases h
  | commit i v =>
    obtain rfl := Option.some.inj h
    refine ⟨le_instance_h_commit_wo .., ?_⟩
    unfold commit commit_wo
    split <;> rfl

/-- The constructor on an empty log. -/
theorem new_nil (first : Bool) (me value : Str) :
    acceptor.new first me value [] = some (if first = true then
      { loginstance { acceptor.blank me [] with
          values := Function.update (fun _ => none) 1 (some value) } 1 value with instance_h := 1 }
      else acceptor.blank me []) := by
  have hnone : ∀ r ∈ ([] : List Record), r.Wf := by simp
  have hread : logread (acceptor.blank me []) = some (acceptor.blank me []) :=
    logread_encode hnone rfl
  rw [acceptor.new, hread, Option.map_some]
  cases first <;> rfl

theorem durable_new {first : Bool} {me value : Str} (hvalue : Record.ValueOk value) {s : acceptor}
    (h : acceptor.new first me value [] = some s) :
    Durable s ∧ s.me = me ∧ (first = true → 1 ≤ s.instance_h) := by
  rw [new_nil, Option.some.injEq] at h
  cases first with
  | false =>
    simp only [Bool.false_eq_true, if_false] at h
    subst h
    exact ⟨durable_blank me, rfl, fun h => by cases h⟩
  | true =>
    simp only [if_true] at h
    subst h
    refine ⟨?_, rfl, fun _ => le_rfl⟩
    refine (durable_blank me).append (r := .done 1 value) ⟨by decide, hvalue⟩ rfl fun b hb => ?_
    refine ⟨hb.me, rfl, ?_, rfl, .zero rfl rfl, .zero rfl rfl⟩
    simp only [Record.apply, loginstance, hb.values]
    rfl

/-- **The acceptor's state is durable.** After every sequence of calls on an acceptor
that started with an empty log, a new acceptor of the same name that reads the
written log has the same state. (`first` makes a new acceptor write the first value
itself; a node that was not started so is not restarted so.) -/
theorem restarted_same_state {first : Bool} {me value : Str} {cs : List Call} {s : acceptor}
    (hvalue : Record.ValueOk value) (hcs : ∀ c ∈ cs, c.Ok)
    (hrun : started first me value cs = some s) {first' : Bool} (value' : Str)
    (hfirst : first' = true → first = true) :
    ∃ b, acceptor.new first' me value' s.log = some b
      ∧ b.instance_h = s.instance_h
      ∧ (∀ i, b.value i = s.value i)
      ∧ b.v_a = s.v_a
      ∧ b.n_h.n = s.n_h.n ∧ (0 < s.n_h.n → b.n_h.m = s.n_h.m)
      ∧ b.n_a.n = s.n_a.n ∧ (0 < s.n_a.n → b.n_a.m = s.n_a.m) := by
  obtain ⟨s₀, hnew, hcalls⟩ := Option.bind_eq_some_iff.mp hrun
  obtain ⟨hdur₀, hme₀, hinst₀⟩ := durable_new hvalue hnew
  have hdur : Durable s := Steps.run_inv_forall durable_call hdur₀ hcs hcalls
  have hmono : s₀.instance_h ≤ s.instance_h ∧ s.me = me := by
    refine Steps.run_inv_all (P := fun t => s₀.instance_h ≤ t.instance_h ∧ t.me = me) ?_
      ⟨le_rfl, hme₀⟩ hcalls
    intro t c t' ht h
    have hstep := instance_h_call t c t' h
    exact ⟨ht.1.trans hstep.1, hstep.2.trans ht.2⟩
  obtain ⟨b, hb, hagree, -⟩ := hdur.replayed
  -- a node started with `first` has decided instance 1: nothing is written again
  have hnot : ¬(b.instance_h = 0 ∧ first' = true) := by
    rintro ⟨h0, h1⟩
    have hge := hinst₀ (hfirst h1)
    rw [hagree.instance_h] at h0
    omega
  refine ⟨b, ?_, hagree.instance_h, fun i => ?_, hagree.v_a, hagree.n_h.n, hagree.n_h.m,
    hagree.n_a.n, hagree.n_a.m⟩
  · rw [acceptor.new, ← hmono.2, hb, Option.map_some, if_neg hnot]
  · rw [acceptor.value, acceptor.value, hagree.values]

/-- A promise, an acceptance of a value with blanks, a decision, another promise. -/
def someCalls : List Call :=
  [.preparereq ⟨2, ⟨1, ['b']⟩⟩, .acceptreq ⟨2, ⟨1, ['b']⟩, [' ', 'x', ' ', 'y', ' ']⟩,
    .decidereq ⟨2, [' ', 'x', ' ', 'y', ' ']⟩, .preparereq ⟨3, ⟨7, ['c']⟩⟩]

theorem restarted_same_state_someCalls :
    ∃ s b, started true ['a'] ['a'] someCalls = some s
      ∧ acceptor.new false ['a'] [] s.log = some b
      ∧ s.instance_h = 2 ∧ s.n_h = ⟨7, ['c']⟩
      ∧ b.instance_h = s.instance_h ∧ b.n_h.n = s.n_h.n := by
  have hex : (started true ['a'] ['a'] someCalls).map (fun s => (s.instance_h, s.n_h))
      = some (2, ⟨7, ['c']⟩) := by decide
  obtain ⟨s, hs, heq⟩ := Option.map_eq_some_iff.mp hex
  obtain ⟨hinst, hnum⟩ := Prod.mk.inj heq
  have hcs : ∀ c ∈ someCalls, c.Ok := by decide
  have hfirst : false = true → true = true := fun _ => rfl
  have hvalue : Record.ValueOk ['a'] := by decide
  obtain ⟨b, hb, hbi, -, -, hbn, -⟩ := restarted_same_state hvalue hcs hs [] hfirst
  exact ⟨s, b, hs, hb, hinst, hnum, hbi, hbn⟩

end Yfs.PaxosDurable
