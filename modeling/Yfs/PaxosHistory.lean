/-
One instance seen from its acceptors: promises, votes and what an acceptor
remembers of them.

The list of handled requests is the history of the system. For a fixed instance `i`
it says who has promised what and who has voted for what. An acceptor has one triple
`n_h`, `n_a`, `v_a` for all instances; it is about instance `i` while `instance_h` is
in a window `lo ≤ instance_h < i`. Inside the window the triple is the acceptor's last
promise and its last vote of instance `i`; before it the acceptor has made none, and
after it the acceptor makes no more.

The two uses of the window: `lo = i - 1` when acceptors go through the instances one
by one, `lo = 0` when only one instance is run.
-/
import Yfs.PaxosProposer

set_option autoImplicit false

namespace Yfs.PaxosHistory

open Text Yfs.PaxosAcceptor Yfs.PaxosLog Yfs.PaxosDurable Yfs.PaxosProposer

/-! ## Promises and votes -/

/-- In instance `i`, acceptor `a` has promised `b` to attempt `id` in call `k`, and
reported `res`. -/
def Promise (i : ℕ) (hd : List Handled) (a : Str) (b : prop_t) (res : prepareres) (k id : ℕ) :
    Prop :=
  res.accept = true ∧ (⟨k, ⟨id, a, .prepare ⟨i, b⟩⟩, .prepare res⟩ : Handled) ∈ hd

/-- In instance `i`, acceptor `a` has voted for `v` in ballot `b`. -/
def Vote (i : ℕ) (hd : List Handled) (a : Str) (b : prop_t) (v : Str) : Prop :=
  ∃ k id, (⟨k, ⟨id, a, .accept ⟨i, b, v⟩⟩, .accept true⟩ : Handled) ∈ hd

/-- The triple of this acceptor is about instance `i`. -/
def Live (lo i : ℕ) (acc : acceptor) : Prop := lo ≤ acc.instance_h ∧ acc.instance_h < i

instance (lo i : ℕ) (acc : acceptor) : Decidable (Live lo i acc) :=
  inferInstanceAs (Decidable (lo ≤ acc.instance_h ∧ acc.instance_h < i))

/-- What the promises say stays true: what was reported was the last vote below the
promise, and no vote below it comes later. -/
structure HistoryOk (i : ℕ) (hd : List Handled) : Prop where
  number : ∀ a b res k id, Promise i hd a b res k id → 1 ≤ b.n
  report : ∀ a b res k id, Promise i hd a b res k id →
    (res.n_a.n = 0 ∧ res.v_a = [] ∧ ∀ c v, Vote i hd a c v → b ≤ c)
      ∨ (1 ≤ res.n_a.n ∧ res.n_a < b ∧ Vote i hd a res.n_a res.v_a
        ∧ ∀ c v, Vote i hd a c v → c ≤ res.n_a ∨ b ≤ c)
  unique : ∀ a b res k id res' k' id', Promise i hd a b res k id →
    Promise i hd a b res' k' id' → k = k'

/-- What acceptor `a` remembers of its promises and votes. -/
structure AcceptorOk (lo i : ℕ) (hd : List Handled) (a : Str) (acc : acceptor) : Prop where
  promised : ∀ b res k id, Promise i hd a b res k id →
    lo ≤ acc.instance_h ∧ (acc.instance_h < i → b ≤ acc.n_h)
  voted : ∀ c v, Vote i hd a c v → lo ≤ acc.instance_h ∧ (acc.instance_h < i → c ≤ acc.n_a)
  live : Live lo i acc → (acc.n_a.n = 0 ∧ acc.v_a = [] ∧ ∀ c v, ¬Vote i hd a c v)
    ∨ (1 ≤ acc.n_a.n ∧ Vote i hd a acc.n_a acc.v_a ∧ acc.n_a ≤ acc.n_h)

/-! ## Steps that add nothing to the history -/

/-- A crash: the acceptor comes back from its log. -/
theorem AcceptorOk.agree {lo i : ℕ} {hd : List Handled} {a : Str} {acc acc' : acceptor}
    (hist : HistoryOk i hd) (h : AcceptorOk lo i hd a acc) (hag : Agree acc acc') :
    AcceptorOk lo i hd a acc' := by
  -- promises and votes have a number above 0, where the names agree too
  have hlive : ∀ {b : prop_t}, 1 ≤ b.n → b ≤ acc.n_h → acc'.n_h = acc.n_h := by
    intro b hb hle
    have hpos : 0 < acc.n_h.n := by
      have := prop_t.le_iff.mp hle
      omega
    exact prop_t.ext hag.n_h.n (hag.n_h.m hpos)
  have hacc : 1 ≤ acc.n_a.n → acc'.n_a = acc.n_a := fun hpos =>
    prop_t.ext hag.n_a.n (hag.n_a.m hpos)
  refine ⟨fun b res k id hp => ?_, fun c v hv => ?_, fun hl => ?_⟩
  · obtain ⟨hlo, hle⟩ := h.promised b res k id hp
    rw [hag.instance_h]
    refine ⟨hlo, fun hi => ?_⟩
    rw [hlive (hist.number a b res k id hp) (hle hi)]
    exact hle hi
  · obtain ⟨hlo, hle⟩ := h.voted c v hv
    rw [hag.instance_h]
    refine ⟨hlo, fun hi => ?_⟩
    rcases h.live ⟨hlo, hi⟩ with ⟨-, -, hno⟩ | ⟨hpos, -, -⟩
    · exact absurd hv (hno c v)
    · rw [hacc hpos]
      exact hle hi
  · have hl : Live lo i acc := by
      rw [Live, hag.instance_h] at hl
      exact hl
    rcases h.live hl with ⟨h0, hnil, hno⟩ | ⟨hpos, hvote, hle⟩
    · exact .inl ⟨hag.n_a.n.trans h0, hag.v_a.trans hnil, hno⟩
    · refine .inr ?_
      rw [hacc hpos, hag.v_a, hlive hpos hle]
      exact ⟨hpos, hvote, hle⟩

/-- A commit: the triple is reset, and the window is left or entered. -/
theorem AcceptorOk.commit_wo {lo i : ℕ} {hd : List Handled} {a : Str} {acc : acceptor}
    (h : AcceptorOk lo i hd a acc) {j : ℕ} (v : Str)
    (hj : Live lo i acc → acc.instance_h < j → i ≤ j) :
    AcceptorOk lo i hd a (commit_wo acc j v) := by
  unfold PaxosAcceptor.commit_wo
  by_cases hgt : j > acc.instance_h
  · rw [if_pos hgt]
    -- if the new instance is in the window then the old one was below it
    have hbefore : j < i → lo ≤ acc.instance_h → False := fun hji hlo => by
      have := hj ⟨hlo, by omega⟩ hgt
      omega
    refine ⟨fun b res k id hp => ?_, fun c w hv => ?_, fun hl => ?_⟩
    · obtain ⟨hlo, -⟩ := h.promised b res k id hp
      exact ⟨hlo.trans hgt.le, fun hji => (hbefore hji hlo).elim⟩
    · obtain ⟨hlo, -⟩ := h.voted c w hv
      exact ⟨hlo.trans hgt.le, fun hji => (hbefore hji hlo).elim⟩
    · refine .inl ⟨rfl, rfl, fun c w hv => ?_⟩
      exact hbefore hl.2 (h.voted c w hv).1
  · rw [if_neg hgt]
    exact h

/-! ## A handled request -/

section Append

variable {i : ℕ} {hd : List Handled} {h : Handled}

variable {k id : ℕ} {res : prepareres} {b : prop_t} {a : Str}

theorem Promise.mono
    (hp : Promise i hd a b res k id) (h : Handled) : Promise i (hd ++ [h]) a b res k id :=
  ⟨hp.1, List.mem_append_left _ hp.2⟩

theorem Vote.mono {v : Str} (hv : Vote i hd a b v) (h : Handled) : Vote i (hd ++ [h]) a b v := by
  obtain ⟨k, id, hv⟩ := hv
  exact ⟨k, id, List.mem_append_left _ hv⟩

theorem promise_append :
    Promise i (hd ++ [h]) a b res k id ↔ Promise i hd a b res k id
      ∨ (res.accept = true ∧ h = ⟨k, ⟨id, a, .prepare ⟨i, b⟩⟩, .prepare res⟩) := by
  unfold Promise
  rw [List.mem_append, List.mem_singleton, eq_comm (a := h)]
  tauto

theorem vote_append {v : Str} :
    Vote i (hd ++ [h]) a b v ↔ Vote i hd a b v
      ∨ ∃ k id, h = ⟨k, ⟨id, a, .accept ⟨i, b, v⟩⟩, .accept true⟩ := by
  unfold Vote
  constructor
  · rintro ⟨k, id, hv⟩
    rcases List.mem_append.mp hv with hv | hv
    · exact .inl ⟨k, id, hv⟩
    · exact .inr ⟨k, id, (List.mem_singleton.mp hv).symm⟩
  · rintro (⟨k, id, hv⟩ | ⟨k, id, rfl⟩)
    · exact ⟨k, id, List.mem_append_left _ hv⟩
    · exact ⟨k, id, List.mem_append_right _ List.mem_cons_self⟩

/-- The answer to a prepare request is no vote. -/
theorem vote_append_prepare {arg : preparearg} (a' : Str) (b : prop_t) (v : Str) :
    Vote i (hd ++ [⟨k, ⟨id, a, .prepare arg⟩, .prepare res⟩]) a' b v ↔ Vote i hd a' b v := by
  rw [vote_append, or_iff_left]
  rintro ⟨k', id', heq⟩
  cases heq

/-- The answer to an accept request is no promise. -/
theorem promise_append_accept {arg : acceptarg} {r : Bool} (a' : Str)
    (b : prop_t) (res : prepareres) (k' id' : ℕ) :
    Promise i (hd ++ [⟨k, ⟨id, a, .accept arg⟩, .accept r⟩]) a' b res k' id'
      ↔ Promise i hd a' b res k' id' := by
  rw [promise_append, or_iff_left]
  rintro ⟨-, heq⟩
  cases heq

/-- The handled request is neither a promise nor a vote of instance `i`. -/
structure Silent (i : ℕ) (hd : List Handled) (h : Handled) : Prop where
  promise : ∀ a b res k id, Promise i (hd ++ [h]) a b res k id ↔ Promise i hd a b res k id
  vote : ∀ a b v, Vote i (hd ++ [h]) a b v ↔ Vote i hd a b v

theorem Silent.history (hs : Silent i hd h) (hist : HistoryOk i hd) : HistoryOk i (hd ++ [h]) := by
  obtain ⟨h1, h2, h3⟩ := hist
  refine ⟨?_, ?_, ?_⟩
  all_goals simp only [hs.promise, hs.vote]
  · exact h1
  · exact h2
  · exact h3

theorem Silent.acceptor (hs : Silent i hd h) {lo : ℕ} {acc : acceptor}
    (ha : AcceptorOk lo i hd a acc) : AcceptorOk lo i (hd ++ [h]) a acc := by
  obtain ⟨h1, h2, h3⟩ := ha
  refine ⟨?_, ?_, ?_⟩
  all_goals simp only [hs.promise, hs.vote]
  · exact h1
  · exact h2
  · exact h3

/-- What one acceptor says is no promise or vote of another. -/
theorem AcceptorOk.of_other {lo : ℕ} {acc : acceptor}
    (ha : AcceptorOk lo i hd a acc) (hne : a ≠ h.req.dst) : AcceptorOk lo i (hd ++ [h]) a acc := by
  have hp : ∀ b res k id, Promise i (hd ++ [h]) a b res k id ↔ Promise i hd a b res k id := by
    intro b res k id
    rw [promise_append, or_iff_left]
    rintro ⟨-, rfl⟩
    exact hne rfl
  have hv : ∀ b v, Vote i (hd ++ [h]) a b v ↔ Vote i hd a b v := by
    intro b v
    rw [vote_append, or_iff_left]
    rintro ⟨k, id, rfl⟩
    exact hne rfl
  obtain ⟨h1, h2, h3⟩ := ha
  refine ⟨?_, ?_, ?_⟩
  all_goals simp only [hp, hv]
  · exact h1
  · exact h2
  · exact h3

/-- Outside the window the triple may do what it likes. -/
theorem AcceptorOk.of_not_live {lo : ℕ} {acc acc' : acceptor}
    (ha : AcceptorOk lo i hd a acc) (hinst : acc'.instance_h = acc.instance_h)
    (hlive : ¬Live lo i acc) : AcceptorOk lo i hd a acc' := by
  refine ⟨fun b res k id hp => ?_, fun c v hv => ?_, fun hl => ?_⟩
  · obtain ⟨hlo, -⟩ := ha.promised b res k id hp
    rw [hinst]
    exact ⟨hlo, fun hi => (hlive ⟨hlo, hi⟩).elim⟩
  · obtain ⟨hlo, -⟩ := ha.voted c v hv
    rw [hinst]
    exact ⟨hlo, fun hi => (hlive ⟨hlo, hi⟩).elim⟩
  · rw [Live, hinst] at hl
    exact (hlive hl).elim

theorem silent_of_not_accept {k id j : ℕ} (hres : res.accept = false) :
    Silent i hd ⟨k, ⟨id, a, .prepare ⟨j, b⟩⟩, .prepare res⟩ := by
  refine ⟨fun a' b' res' k' id' => ?_, vote_append_prepare⟩
  rw [promise_append, or_iff_left]
  rintro ⟨hacc, heq⟩
  cases heq
  rw [hres] at hacc
  cases hacc

theorem silent_of_prepare {k id j : ℕ} (hj : j ≠ i) :
    Silent i hd ⟨k, ⟨id, a, .prepare ⟨j, b⟩⟩, .prepare res⟩ := by
  refine ⟨fun a' b' res' k' id' => ?_, vote_append_prepare⟩
  rw [promise_append, or_iff_left]
  rintro ⟨-, heq⟩
  cases heq
  exact hj rfl

theorem silent_of_accept {arg : acceptarg} {r : Bool}
    (h : r = false ∨ arg.inst ≠ i) : Silent i hd ⟨k, ⟨id, a, .accept arg⟩, .accept r⟩ := by
  refine ⟨promise_append_accept, fun a' b' v => ?_⟩
  rw [vote_append, or_iff_left]
  rintro ⟨k', id', heq⟩
  cases heq
  rcases h with h | h
  · cases h
  · exact h rfl

/-- A decide request, answered or not, is silent. -/
theorem silent_of_decide {arg : decidearg} {res : Response} :
    Silent i hd ⟨k, ⟨id, a, .decide arg⟩, res⟩ := by
  refine ⟨fun a' b' res' k' id' => ?_, fun a' b' v => ?_⟩
  · rw [promise_append, or_iff_left]
    rintro ⟨-, heq⟩
    cases heq
  · rw [vote_append, or_iff_left]
    rintro ⟨k', id', heq⟩
    cases heq

end Append

/-! ## Promising -/

section Promising

variable {lo i : ℕ} {hd : List Handled} {a : Str} {acc : acceptor} {b : prop_t} {k id : ℕ}

/-- The promise of a live acceptor reports its last vote. -/
theorem history_promise (hist : HistoryOk i hd) (ha : AcceptorOk lo i hd a acc)
    (hlive : Live lo i acc) (hgt : acc.n_h < b) (hb : 1 ≤ b.n) :
    HistoryOk i (hd ++
      [⟨k, ⟨id, a, .prepare ⟨i, b⟩⟩, .prepare ⟨false, true, acc.n_a, acc.v_a⟩⟩]) := by
  refine ⟨?_, ?_, ?_⟩
  · intro a' b' res k' id' hp
    rcases promise_append.mp hp with hp | ⟨-, heq⟩
    · exact hist.number a' b' res k' id' hp
    · cases heq
      exact hb
  · intro a' b' res k' id' hp
    simp only [vote_append_prepare]
    rcases promise_append.mp hp with hp | ⟨-, heq⟩
    · exact hist.report a' b' res k' id' hp
    · cases heq
      rcases ha.live hlive with ⟨h0, hnil, hno⟩ | ⟨hpos, hlast, hle⟩
      · exact .inl ⟨h0, hnil, fun c v hv => absurd hv (hno c v)⟩
      · refine .inr ⟨hpos, hle.trans_lt hgt, hlast, fun c v hv => ?_⟩
        exact .inl ((ha.voted c v hv).2 hlive.2)
  · -- an earlier promise of `a` is not above `n_h`, so it is not this one
    have hold : ∀ res k id, ¬Promise i hd a b res k id := fun res k id hp =>
      absurd ((ha.promised b res k id hp).2 hlive.2) (not_le.mpr hgt)
    intro a' b' res k' id' res' k'' id'' hp hp'
    rcases promise_append.mp hp with hp | ⟨-, heq⟩
    · rcases promise_append.mp hp' with hp' | ⟨-, heq'⟩
      · exact hist.unique a' b' res k' id' res' k'' id'' hp hp'
      · cases heq'
        exact absurd hp (hold _ _ _)
    · rcases promise_append.mp hp' with hp' | ⟨-, heq'⟩
      · cases heq
        exact absurd hp' (hold _ _ _)
      · cases heq
        cases heq'
        rfl

theorem acceptor_promise (ha : AcceptorOk lo i hd a acc) (hlive : Live lo i acc)
    (hgt : acc.n_h < b) {acc' : acceptor} (hi : acc'.instance_h = acc.instance_h)
    (hn : acc'.n_h = b) (hna : acc'.n_a = acc.n_a) (hva : acc'.v_a = acc.v_a) :
    AcceptorOk lo i (hd ++
      [⟨k, ⟨id, a, .prepare ⟨i, b⟩⟩, .prepare ⟨false, true, acc.n_a, acc.v_a⟩⟩]) a acc' := by
  refine ⟨fun b' res k' id' hp => ?_, fun c v hv => ?_, fun _ => ?_⟩
  · rw [hi, hn]
    rcases promise_append.mp hp with hp | ⟨-, heq⟩
    · obtain ⟨hlo, hle⟩ := ha.promised b' res k' id' hp
      exact ⟨hlo, fun hlt => (hle hlt).trans hgt.le⟩
    · cases heq
      exact ⟨hlive.1, fun _ => le_rfl⟩
  · rw [hi, hna]
    exact ha.voted c v ((vote_append_prepare a c v).mp hv)
  · simp only [vote_append_prepare, hna, hva, hn]
    rcases ha.live hlive with h | ⟨hpos, hlast, hle⟩
    · exact .inl h
    · exact .inr ⟨hpos, hlast, hle.trans hgt.le⟩

/-- **A prepare request is handled.** -/
theorem prepare_handled (hist : HistoryOk i hd) (ha : AcceptorOk lo i hd a acc) {j : ℕ}
    (hb : 1 ≤ b.n)
    (hcond : acc.instance_h < j → prop_gt b acc.n_h → (j = i ↔ Live lo i acc)) :
    HistoryOk i (hd ++ [⟨k, ⟨id, a, .prepare ⟨j, b⟩⟩, .prepare (preparereq acc ⟨j, b⟩).1⟩])
      ∧ AcceptorOk lo i (hd ++ [⟨k, ⟨id, a, .prepare ⟨j, b⟩⟩, .prepare (preparereq acc ⟨j, b⟩).1⟩])
          a (preparereq acc ⟨j, b⟩).2 := by
  unfold preparereq
  by_cases hold : j ≤ acc.instance_h
  · simp only [if_pos hold]
    have hs : Silent i hd ⟨k, ⟨id, a, .prepare ⟨j, b⟩⟩,
        .prepare ⟨true, false, ⟨0, []⟩, acc.value j⟩⟩ := silent_of_not_accept rfl
    exact ⟨hs.history hist, hs.acceptor ha⟩
  · simp only [if_neg hold]
    by_cases hgt : prop_gt b acc.n_h
    · simp only [if_pos hgt]
      have hiff := hcond (not_le.mp hold) hgt
      by_cases hj : j = i
      · subst hj
        have hlive := hiff.mp rfl
        have hlt := prop_gt_iff.mp hgt
        exact ⟨history_promise hist ha hlive hlt hb,
          acceptor_promise ha hlive hlt rfl rfl rfl rfl⟩
      · have hs : Silent i hd ⟨k, ⟨id, a, .prepare ⟨j, b⟩⟩,
            .prepare ⟨false, true, acc.n_a, acc.v_a⟩⟩ := silent_of_prepare hj
        refine ⟨hs.history hist, hs.acceptor ?_⟩
        exact ha.of_not_live rfl fun hl => hj (hiff.mpr hl)
    · simp only [if_neg hgt]
      have hs : Silent i hd ⟨k, ⟨id, a, .prepare ⟨j, b⟩⟩,
          .prepare ⟨false, false, ⟨0, []⟩, []⟩⟩ := silent_of_not_accept rfl
      exact ⟨hs.history hist, hs.acceptor ha⟩

end Promising

/-! ## Voting -/

section Voting

variable {lo i : ℕ} {hd : List Handled} {a : Str} {acc : acceptor} {arg : acceptarg} {k id : ℕ}

/-- The vote of a live acceptor is not below any of its promises. -/
theorem history_vote (hist : HistoryOk i hd) (ha : AcceptorOk lo i hd a acc)
    (hlive : Live lo i acc) {b : prop_t} {v : Str} (hge : acc.n_h ≤ b) :
    HistoryOk i (hd ++ [⟨k, ⟨id, a, .accept ⟨i, b, v⟩⟩, .accept true⟩]) := by
  refine ⟨?_, ?_, ?_⟩
  · simp only [promise_append_accept]
    exact hist.number
  · intro a' b' res k' id' hp
    rw [promise_append_accept] at hp
    -- the new vote is not below any promise its acceptor has made
    have hnew : ∀ c w, Vote i (hd ++ [⟨k, ⟨id, a, .accept ⟨i, b, v⟩⟩, .accept true⟩]) a' c w →
        Vote i hd a' c w ∨ b' ≤ c := by
      intro c w hv
      rcases vote_append.mp hv with hv | ⟨k'', id'', heq⟩
      · exact .inl hv
      · cases heq
        exact .inr (((ha.promised b' res k' id' hp).2 hlive.2).trans hge)
    rcases hist.report a' b' res k' id' hp with ⟨h0, hnil, hno⟩ | ⟨hpos, hlt, hlast, hbetween⟩
    · exact .inl ⟨h0, hnil, fun c w hv => (hnew c w hv).elim (hno c w) fun h => h⟩
    · refine .inr ⟨hpos, hlt, hlast.mono _, fun c w hv => ?_⟩
      exact (hnew c w hv).elim (hbetween c w) .inr
  · simp only [promise_append_accept]
    exact hist.unique

theorem acceptor_vote (ha : AcceptorOk lo i hd a acc) (hlive : Live lo i acc) {b : prop_t}
    {v : Str} (hge : acc.n_h ≤ b) (hb : 1 ≤ b.n)
    (hpromised : ∃ res k id, Promise i hd a b res k id) {acc' : acceptor}
    (hi : acc'.instance_h = acc.instance_h) (hn : acc'.n_h = acc.n_h) (hna : acc'.n_a = b)
    (hva : acc'.v_a = v) :
    AcceptorOk lo i (hd ++ [⟨k, ⟨id, a, .accept ⟨i, b, v⟩⟩, .accept true⟩]) a acc' := by
  obtain ⟨res₀, k₀, id₀, hp₀⟩ := hpromised
  -- this very number was promised, so `n_a` stays at or below `n_h`
  have hle := (ha.promised b res₀ k₀ id₀ hp₀).2 hlive.2
  have hmine : Vote i (hd ++ [⟨k, ⟨id, a, .accept ⟨i, b, v⟩⟩, .accept true⟩]) a b v :=
    vote_append.mpr (.inr ⟨k, id, rfl⟩)
  refine ⟨fun b' res k' id' hp => ?_, fun c w hv => ?_, fun _ => .inr ?_⟩
  · rw [hi, hn]
    exact ha.promised b' res k' id' ((promise_append_accept a b' res k' id').mp hp)
  · rw [hi, hna]
    refine ⟨hlive.1, fun hlt => ?_⟩
    rcases vote_append.mp hv with hv | ⟨k', id', heq⟩
    · -- the last vote before was not above `n_h`
      have hc := (ha.voted c w hv).2 hlt
      rcases ha.live hlive with ⟨-, -, hno⟩ | ⟨-, -, hna_le⟩
      · exact absurd hv (hno c w)
      · exact (hc.trans hna_le).trans hge
    · cases heq
      exact le_rfl
  · rw [hna, hva, hn]
    exact ⟨hb, hmine, hle⟩

/-- **An accept request is handled.** Requests of instance `i` go only to acceptors
that have promised their number. -/
theorem accept_handled (hist : HistoryOk i hd) (ha : AcceptorOk lo i hd a acc)
    (hb : 1 ≤ arg.n.n)
    (hpromised : arg.inst = i → ∃ res k id, Promise i hd a arg.n res k id)
    (hcond : prop_ge arg.n acc.n_h → (arg.inst = i ↔ Live lo i acc)) :
    HistoryOk i (hd ++ [⟨k, ⟨id, a, .accept arg⟩, .accept (acceptreq acc arg).1⟩])
      ∧ AcceptorOk lo i (hd ++ [⟨k, ⟨id, a, .accept arg⟩, .accept (acceptreq acc arg).1⟩])
          a (acceptreq acc arg).2 := by
  obtain ⟨j, b, v⟩ := arg
  unfold acceptreq
  by_cases hge : prop_ge b acc.n_h
  · simp only [if_pos hge]
    have hiff := hcond hge
    by_cases hj : j = i
    · subst hj
      have hlive := hiff.mp rfl
      have hle := prop_ge_iff.mp hge
      exact ⟨history_vote hist ha hlive hle,
        acceptor_vote ha hlive hle hb (hpromised rfl) rfl rfl rfl rfl⟩
    · have hs : Silent i hd ⟨k, ⟨id, a, .accept ⟨j, b, v⟩⟩, .accept true⟩ :=
        silent_of_accept (.inr hj)
      refine ⟨hs.history hist, hs.acceptor ?_⟩
      exact ha.of_not_live rfl fun hl => hj (hiff.mpr hl)
  · simp only [if_neg hge]
    have hs : Silent i hd ⟨k, ⟨id, a, .accept ⟨j, b, v⟩⟩, .accept false⟩ :=
      silent_of_accept (.inl rfl)
    exact ⟨hs.history hist, hs.acceptor ha⟩

end Voting

end Yfs.PaxosHistory
