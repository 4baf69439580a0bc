/-
Single-decree agreement, as mathematics: rounds, votes and majorities.

A round is a ballot that got its promises and was given a value. `Sound` collects
what a protocol has to guarantee about its rounds and the votes cast so far: quorums
meet, a ballot has one value, votes are cast in rounds, and a round takes over the
value of the highest vote its promisers had cast below it. From these alone it
follows that once a quorum has voted for a value, every later round has that value.

Ballots are any linear order, which need not be well founded: the induction is on
how many rounds lie below.
-/
import Mathlib.Order.Lattice
import Mathlib.Data.List.Basic

set_option autoImplicit false

namespace Synod

/-! ## Majorities of the positions of a list -/

/-- Two properties that together hold at more positions than there are hold at a
common one. -/
theorem exists_common {α : Type*} (p q : α → Bool) (l : List α)
    (h : l.length < l.countP p + l.countP q) : ∃ x ∈ l, p x = true ∧ q x = true := by
  induction l with
  | nil => simp at h
  | cons x l ih =>
    -- a position where only one of the two holds counts once, so the surplus is in the rest
    by_cases hx : p x = true ∧ q x = true
    · exact ⟨x, List.mem_cons_self, hx⟩
    · have hcount : (x :: l).countP p + (x :: l).countP q ≤ 1 + l.countP p + l.countP q := by
        rw [List.countP_cons, List.countP_cons]
        split
        · next hp =>
          have hq : q x ≠ true := fun hq => hx ⟨hp, hq⟩
          rw [if_neg hq]
          omega
        · split <;> omega
      have hlen : l.length < l.countP p + l.countP q := by
        rw [List.length_cons] at h
        omega
      obtain ⟨y, hy, hpq⟩ := ih hlen
      exact ⟨y, List.mem_cons_of_mem _ hy, hpq⟩

/-! ## Rounds and votes -/

variable {A B V : Type*} [LinearOrder B]

structure Round (A B V : Type*) where
  ballot : B
  value : V
  nodes : List A

/-- What a protocol guarantees about its rounds and the votes cast. -/
structure Sound (quorum : List A → Prop) (rounds : List (Round A B V))
    (voted : A → B → V → Prop) : Prop where
  meet : ∀ S T, quorum S → quorum T → ∃ a ∈ S, a ∈ T
  quorum : ∀ r ∈ rounds, quorum r.nodes
  agree : ∀ r ∈ rounds, ∀ r' ∈ rounds, r.ballot = r'.ballot → r.value = r'.value
  origin : ∀ a b v, voted a b v → ∃ r ∈ rounds, r.ballot = b ∧ r.value = v
  highest : ∀ r ∈ rounds, ∀ a ∈ r.nodes, ∀ c w, c < r.ballot → voted a c w →
    ∃ a' k, c ≤ k ∧ k < r.ballot ∧ voted a' k r.value

/-- A quorum has voted for `v` in ballot `b`. -/
def Chosen (quorum : List A → Prop) (voted : A → B → V → Prop) (b : B) (v : V) : Prop :=
  ∃ T, quorum T ∧ ∀ a ∈ T, voted a b v

variable {quorum : List A → Prop} {rounds : List (Round A B V)} {voted : A → B → V → Prop}

/-- How many rounds lie below a ballot. -/
def below (rounds : List (Round A B V)) (b : B) : ℕ := rounds.countP fun r => r.ballot < b

theorem below_lt {r : Round A B V} (hr : r ∈ rounds) {b : B} (hb : r.ballot < b) :
    below rounds r.ballot < below rounds b := by
  unfold below
  induction rounds with
  | nil => cases hr
  | cons r' rounds ih =>
    have hmono : rounds.countP (fun x => x.ballot < r.ballot)
        ≤ rounds.countP (fun x => x.ballot < b) := by
      refine List.countP_mono_left fun x _ hx => ?_
      simp only [decide_eq_true_eq] at hx ⊢
      exact hx.trans hb
    rw [List.countP_cons, List.countP_cons]
    rcases List.mem_cons.mp hr with rfl | hr
    · simp only [lt_irrefl, decide_false, Bool.false_eq_true, if_false, hb, decide_true, if_true]
      omega
    · have hlt := ih hr
      by_cases hx : r'.ballot < r.ballot
      · simp only [hx, hx.trans hb, decide_true, if_true]
        omega
      · simp only [hx, decide_false, Bool.false_eq_true, if_false]
        split <;> omega

/-- **A chosen value stays.** Every round above a ballot in which a value was chosen
has that value. -/
theorem Sound.later_same (h : Sound quorum rounds voted) {c : B} {w : V}
    (hc : Chosen quorum voted c w) {r : Round A B V} (hr : r ∈ rounds) (hlt : c < r.ballot) :
    r.value = w := by
  obtain ⟨T, hT, hvotes⟩ := hc
  induction hn : below rounds r.ballot using Nat.strongRecOn generalizing r with
  | ind n ih =>
    -- a promiser of the round has voted in `c`, so the round looked at a vote in `k ≥ c`
    obtain ⟨a, haS, haT⟩ := h.meet _ _ (h.quorum r hr) hT
    obtain ⟨a', k, hck, hkr, hvote⟩ := h.highest r hr a haS c w hlt (hvotes a haT)
    obtain ⟨r', hr', hball, hval⟩ := h.origin a' k r.value hvote
    -- that vote was cast in a round below this one: in `c` itself, or above it
    rcases hck.eq_or_lt with rfl | hck
    · obtain ⟨rc, hrc, hballc, hvalc⟩ := h.origin a c w (hvotes a haT)
      rw [← hval, ← hvalc]
      exact h.agree r' hr' rc hrc (hball.trans hballc.symm)
    · rw [← hval]
      refine ih (below rounds r'.ballot) ?_ hr' (hball ▸ hck) rfl
      rw [← hn]
      exact below_lt hr' (hball ▸ hkr)

/-- Every vote from a ballot in which a value was chosen on is for that value. -/
theorem Sound.vote_same (h : Sound quorum rounds voted) {b c : B} {v w : V} {a : A}
    (hb : Chosen quorum voted b v) (hle : b ≤ c) (hvote : voted a c w) : w = v := by
  obtain ⟨r, hr, rfl, rfl⟩ := h.origin a c w hvote
  rcases hle.eq_or_lt with rfl | hlt
  · obtain ⟨T, hT, hvotes⟩ := hb
    obtain ⟨a', ha', -⟩ := h.meet T T hT hT
    obtain ⟨r', hr', hball, rfl⟩ := h.origin a' r.ballot v (hvotes a' ha')
    exact h.agree r hr r' hr' hball.symm
  · exact h.later_same hb hr hlt

/-- **Agreement.** At most one value is chosen. -/
theorem Sound.chosen_unique (h : Sound quorum rounds voted) {b c : B} {v w : V}
    (hb : Chosen quorum voted b v) (hc : Chosen quorum voted c w) : v = w := by
  have hround : ∀ {b v}, Chosen quorum voted b v → ∃ r ∈ rounds, r.ballot = b ∧ r.value = v := by
    rintro b v ⟨T, hT, hvotes⟩
    obtain ⟨a, ha, -⟩ := h.meet T T hT hT
    exact h.origin a b v (hvotes a ha)
  obtain ⟨r, hr, rfl, rfl⟩ := hround hb
  obtain ⟨r', hr', rfl, rfl⟩ := hround hc
  rcases lt_trichotomy r.ballot r'.ballot with hlt | heq | hlt
  · exact (h.later_same hb hr' hlt).symm
  · exact h.agree r hr r' hr' heq
  · exact h.later_same hc hr hlt

end Synod
