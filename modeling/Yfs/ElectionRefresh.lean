/-
Refresh rounds of the leader election (`config.cc`).

A node shows that it still has a quorum by raising the freshness of its own entry, once in a
round and only after a majority has acknowledged the round. `ackReq` counts calls: it looks
neither at who acknowledges nor at the round that is acknowledged, and it raises the
freshness at the majority and at every call after it. So what a round needs is a condition
on the acknowledgements that come in, and the node does as it should exactly under it.

The state is the node with a record of what it has been told: the acknowledgements so far,
how many of them since the round began, and how often the freshness has been raised since
then. The handlers of the election that have nothing to do with a refresh may run at any
point of a round.
-/
import Yfs.Election
import Yfs.Steps
import Mathlib.Data.Finset.Dedup
import Mathlib.Data.Finset.Filter
import Mathlib.Data.Finset.Card

set_option autoImplicit false

namespace Yfs.ElectionRefresh

open Steps Text Yfs.Election

/-! ## Events -/

/-- What else the node does. -/
inductive Other
  | roundTripTimeOut
  | getEpochTimeOut
  | refreshReq (src : Str) (rg : epochState)
  | getEpochNumReq
  | retEpochNumReq (sn : ℕ) (en : epochNum) (now : ℕ)
  | readTimeOut (now : ℕ)
  | statusReq (src : Str) (rn : ℕ) (srcReg : SortedMap Str epochState)
  | becomeLeader

inductive Act
  | refresh
  | ackReq (src : Str) (rn : ℕ)
  | other (a : Other)

def Other.apply (c : config) : Other → config
  | roundTripTimeOut => Election.roundTripTimeOut c
  | getEpochTimeOut => Election.getEpochTimeOut c
  | refreshReq src rg => Election.refreshReq c src rg
  | getEpochNumReq => Election.getEpochNumReq c
  | retEpochNumReq sn en now => Election.retEpochNumReq c sn en now
  | readTimeOut now => Election.readTimeOut c now
  | statusReq src rn srcReg => Election.statusReq c src rn srcReg
  | becomeLeader => Election.becomeLeader c

/-- The announcements are those of other nodes: a node's own comes back no newer than its
entry. -/
def Other.enabled (c : config) : Other → Bool
  | refreshReq src _ => src ≠ c.me
  | _ => true

/-- `registry[me].freshness`. -/
def own (c : config) : ℕ := (c.entry c.me).freshness

/-- A node and what it has been told. -/
structure Obs where
  c : config
  /-- The acknowledgements so far: from whom, and for which round. -/
  heard : List (Str × ℕ)
  /-- How many of them since the round began. -/
  inRound : ℕ
  /-- How often the freshness has changed since the round began. -/
  raised : ℕ

def Obs.start (c : config) : Obs := ⟨c, [], 0, 0⟩

/-- `raised`, when the node becomes `c'`. -/
def Obs.raises (o : Obs) (c' : config) : ℕ := if own c' = own o.c then o.raised else o.raised + 1

def step (o : Obs) : Act → Option Obs
  | .refresh => some ⟨refresh o.c, o.heard, 0, 0⟩
  | .ackReq src rn =>
    let c' := ackReq o.c src rn
    some ⟨c', (src, rn) :: o.heard, o.inRound + 1, o.raises c'⟩
  | .other a =>
    let c' := a.apply o.c
    if a.enabled o.c then some ⟨c', o.heard, o.inRound, o.raises c'⟩ else none

/-! ## What a round is for -/

/-- A majority of the members has acknowledged the current round. -/
def Quorum (c : config) (heard : List (Str × ℕ)) : Prop :=
  c.majority ≤ (c.mems.toFinset.filter fun m => (m, c.refreshNum) ∈ heard).card

/-- The freshness changes for the first time in the round, and with a quorum. -/
def Fair (o : Obs) (a : Act) : Prop :=
  ∀ o' ∈ step o a, own o'.c ≠ own o.c → o.raised = 0 ∧ Quorum o'.c o'.heard

/-- A call of `ackReq` that is counted as the majority or beyond is the one that makes the
majority, and makes a quorum. -/
def Orderly (o : Obs) : Act → Prop
  | .ackReq src rn => o.c.majority ≤ u32 (o.inRound + 1) →
      o.inRound + 1 = o.c.majority ∧ Quorum o.c ((src, rn) :: o.heard)
  | _ => True

instance (c : config) (heard : List (Str × ℕ)) : Decidable (Quorum c heard) :=
  inferInstanceAs (Decidable (_ ≤ _))

instance (o : Obs) (a : Act) : Decidable (Fair o a) :=
  inferInstanceAs (Decidable (∀ o' ∈ step o a, _))

instance (o : Obs) : (a : Act) → Decidable (Orderly o a)
  | .refresh => .isTrue trivial
  | .ackReq _ _ => inferInstanceAs (Decidable (_ → _))
  | .other _ => .isTrue trivial

/-! ## What a step does -/

/-- What is left alone by everything but a refresh. -/
structure Frame (c c' : config) : Prop where
  me : c'.me = c.me
  mems : c'.mems = c.mems
  ackMsgCount : c'.ackMsgCount = c.ackMsgCount
  own : own c' = own c

theorem Frame.refl (c : config) : Frame c c := ⟨rfl, rfl, rfl, rfl⟩

theorem frame_refreshReq (c : config) {src : Str} (rg : epochState) (h : src ≠ c.me) :
    Frame c (Election.refreshReq c src rg) := by
  unfold Election.refreshReq
  split
  · refine ⟨rfl, rfl, rfl, ?_⟩
    rw [own, own, config.entry, config.entry, SortedMap.find_insert_of_ne _ _ h.symm]
  · exact .refl c

theorem frame_retEpochNumReq (c : config) (sn : ℕ) (en : epochNum) (now : ℕ) :
    Frame c (Election.retEpochNumReq c sn en now) := by
  by_cases hsn : sn = c.seqNum
  · simp only [Election.retEpochNumReq, if_pos hsn]
    by_cases hmaj : u32 (c.epochCount + 1) ≥ c.majority
    · rw [if_pos hmaj]
      refine ⟨rfl, rfl, rfl, ?_⟩
      rw [own, config.entry, SortedMap.find_insert_self]
      rfl
    · rw [if_neg hmaj]
      exact ⟨rfl, rfl, rfl, rfl⟩
  · rw [Election.retEpochNumReq, if_neg hsn]
    exact .refl c

theorem frame_statusReq (c : config) (src : Str) (rn : ℕ) (srcReg : SortedMap Str epochState) :
    Frame c (Election.statusReq c src rn srcReg) := by
  by_cases hrn : rn = c.readNum
  · simp only [Election.statusReq, if_pos hrn]
    split
    · exact ⟨rfl, rfl, rfl, rfl⟩
    · exact ⟨rfl, rfl, rfl, rfl⟩
  · rw [Election.statusReq, if_neg hrn]
    exact .refl c

theorem frame_other {c : config} {a : Other} (h : a.enabled c = true) : Frame c (a.apply c) := by
  cases a with
  | roundTripTimeOut => exact ⟨rfl, rfl, rfl, rfl⟩
  | getEpochTimeOut => exact ⟨rfl, rfl, rfl, rfl⟩
  | refreshReq src rg => exact frame_refreshReq c rg (of_decide_eq_true h)
  | getEpochNumReq =>
    show Frame c (Election.getEpochNumReq c)
    unfold Election.getEpochNumReq
    split
    · exact .refl c
    · exact ⟨rfl, rfl, rfl, rfl⟩
  | retEpochNumReq sn en now => exact frame_retEpochNumReq c sn en now
  | readTimeOut now => exact ⟨rfl, rfl, rfl, rfl⟩
  | statusReq src rn srcReg => exact frame_statusReq c src rn srcReg
  | becomeLeader =>
    show Frame c (Election.becomeLeader c)
    unfold Election.becomeLeader
    split
    · exact ⟨rfl, rfl, rfl, rfl⟩
    · exact .refl c

theorem u32_succ_ne (n : ℕ) : u32 (n + 1) ≠ n := by
  unfold u32
  omega

theorem u32_u32_succ (n : ℕ) : u32 (u32 n + 1) = u32 (n + 1) := by
  unfold u32
  omega

/-- The freshness changes exactly when the calls of the round, this one counted, are a
majority. -/
theorem own_ackReq (c : config) (src : Str) (rn : ℕ) :
    own (ackReq c src rn) = own c ↔ ¬ c.majority ≤ u32 (c.ackMsgCount + 1) := by
  unfold ackReq
  split
  · next hmaj =>
    refine iff_of_false ?_ (not_not_intro hmaj)
    rw [own, config.entry, SortedMap.find_insert_self]
    exact u32_succ_ne _
  · next hmaj => exact iff_of_true rfl hmaj

theorem ackReq_same (c : config) (src : Str) (rn : ℕ) :
    (ackReq c src rn).mems = c.mems ∧ (ackReq c src rn).refreshNum = c.refreshNum
      ∧ (ackReq c src rn).ackMsgCount = u32 (c.ackMsgCount + 1) := by
  unfold ackReq
  split <;> exact ⟨rfl, rfl, rfl⟩

/-! ## Counting -/

/-- How many of the first `n` calls of a round raise the freshness, with majority `m`. -/
def raises (m : ℕ) : ℕ → ℕ
  | 0 => 0
  | n + 1 => if m ≤ u32 (n + 1) then raises m n + 1 else raises m n

/-- The count starts over after 2^32 calls; before, every call from the majority on raises the
freshness. -/
theorem raises_eq {m n : ℕ} (hm : 0 < m) (hn : n < 2 ^ 32) : raises m n = n + 1 - m := by
  induction n with
  | zero =>
    rw [raises]
    omega
  | succ n ih =>
    have hu : u32 (n + 1) = n + 1 := Nat.mod_eq_of_lt hn
    rw [raises, hu, ih (by omega)]
    split <;> omega

theorem raises_mono (m : ℕ) {n n' : ℕ} (h : n ≤ n') : raises m n ≤ raises m n' := by
  induction h with
  | refl => exact le_refl _
  | step _ ih =>
    rw [raises]
    split <;> omega

/-- A call that raises the freshness is the first of its round to do so exactly if it makes
the majority. -/
theorem raises_eq_zero_iff {m n : ℕ} (hm : 0 < m) (h : m ≤ u32 (n + 1)) :
    raises m n = 0 ↔ n + 1 = m := by
  have hlt : m < 2 ^ 32 := lt_of_le_of_lt h (Nat.mod_lt _ (by decide))
  have hle : m ≤ n + 1 := h.trans (Nat.mod_le _ _)
  constructor
  · intro hzero
    by_contra hne
    have hmono := raises_mono m (show m ≤ n by omega)
    rw [raises_eq hm hlt, hzero] at hmono
    omega
  · intro heq
    rw [raises_eq hm (by omega)]
    omega

structure Inv (o : Obs) : Prop where
  ackMsgCount : o.c.ackMsgCount = u32 o.inRound
  raised : o.raised = raises o.c.majority o.inRound

theorem majority_pos (c : config) : 0 < c.majority := Nat.succ_pos _

theorem majority_congr {c c' : config} (h : c'.mems = c.mems) : c'.majority = c.majority := by
  rw [config.majority, h, config.majority]

theorem inv_start {c : config} (h : c.ackMsgCount = 0) : Inv (.start c) := ⟨h, rfl⟩

theorem inv_step (o : Obs) (a : Act) (o' : Obs) (hinv : Inv o) (h : step o a = some o') :
    Inv o' := by
  cases a with
  | refresh =>
    obtain rfl := Option.some.inj h
    exact ⟨rfl, rfl⟩
  | ackReq src rn =>
    obtain rfl := Option.some.inj h
    obtain ⟨hmems, -, hcount⟩ := ackReq_same o.c src rn
    refine ⟨?_, ?_⟩
    · show (ackReq o.c src rn).ackMsgCount = u32 (o.inRound + 1)
      rw [hcount, hinv.ackMsgCount, u32_u32_succ]
    · show o.raises (ackReq o.c src rn) = raises (ackReq o.c src rn).majority (o.inRound + 1)
      have hown := own_ackReq o.c src rn
      rw [hinv.ackMsgCount, u32_u32_succ] at hown
      rw [majority_congr hmems, raises, Obs.raises, hinv.raised]
      by_cases hmaj : o.c.majority ≤ u32 (o.inRound + 1)
      · rw [if_pos hmaj, if_neg fun heq => hown.mp heq hmaj]
      · rw [if_neg hmaj, if_pos (hown.mpr hmaj)]
  | other a =>
    rw [step, Option.ite_none_right_eq_some] at h
    obtain ⟨hen, heq⟩ := h
    obtain rfl := Option.some.inj heq
    have hframe := frame_other hen
    refine ⟨hframe.ackMsgCount.trans hinv.ackMsgCount, ?_⟩
    show o.raises (a.apply o.c) = raises (a.apply o.c).majority o.inRound
    rw [majority_congr hframe.mems, Obs.raises, if_pos hframe.own, hinv.raised]

/-- **What the node does.** In a round with fewer than 2^32 calls of `ackReq` the freshness is
raised by every call from the majority on. -/
theorem raised_run {c : config} (h : c.ackMsgCount = 0) {as : List Act} {o : Obs}
    (hrun : run step (.start c) as = some o) (hlt : o.inRound < 2 ^ 32) :
    o.raised = o.inRound + 1 - o.c.majority := by
  have hinv := run_inv_all inv_step (inv_start h) hrun
  rw [hinv.raised, raises_eq (majority_pos _) hlt]

/-- A step does as it should exactly when it is an orderly one. -/
theorem fair_iff {o : Obs} (hinv : Inv o) (a : Act) : Fair o a ↔ Orderly o a := by
  cases a with
  | refresh =>
    refine iff_of_true ?_ trivial
    intro o' ho' hne
    obtain rfl := Option.some.inj ho'
    exact absurd rfl hne
  | ackReq src rn =>
    have hown := own_ackReq o.c src rn
    rw [hinv.ackMsgCount, u32_u32_succ] at hown
    obtain ⟨hmems, hnum, -⟩ := ackReq_same o.c src rn
    have hquorum : Quorum (ackReq o.c src rn) ((src, rn) :: o.heard)
        ↔ Quorum o.c ((src, rn) :: o.heard) := by
      rw [Quorum, majority_congr hmems, hmems, hnum, Quorum]
    constructor
    · intro hfair hmaj
      have hraise := hfair _ rfl fun heq => hown.mp heq hmaj
      rw [hinv.raised, raises_eq_zero_iff (majority_pos _) hmaj] at hraise
      exact ⟨hraise.1, hquorum.mp hraise.2⟩
    · intro hord o' ho' hne
      obtain rfl := Option.some.inj ho'
      have hmaj : o.c.majority ≤ u32 (o.inRound + 1) := by
        by_contra hmaj
        exact hne (hown.mpr hmaj)
      obtain ⟨hfirst, hq⟩ := hord hmaj
      rw [hinv.raised, raises_eq_zero_iff (majority_pos _) hmaj]
      exact ⟨hfirst, hquorum.mpr hq⟩
  | other a =>
    refine iff_of_true ?_ trivial
    intro o' ho' hne
    rw [step, Option.mem_def, Option.ite_none_right_eq_some] at ho'
    obtain ⟨hen, heq⟩ := ho'
    obtain rfl := Option.some.inj heq
    exact absurd (frame_other hen).own hne

/-- **Refresh rounds.** Along any run the freshness is raised at most once in a round, and only
with a quorum, exactly when every call of `ackReq` that is counted as a majority or beyond is
the one that makes the majority, and makes a quorum. -/
theorem refresh_rounds_iff (c : config) (h : c.ackMsgCount = 0) (as : List Act) :
    RunMeets step Fair (.start c) as ↔ RunMeets step Orderly (.start c) as :=
  runMeets_congr inv_step (fun _ a hinv => fair_iff hinv a) (inv_start h)

def threeNodes : config := config.new ['a'] [['a'], ['b'], ['c']]

/-- Two of three members acknowledge the first round. In the second, an acknowledgement of the
first round comes late. -/
theorem refresh_rounds_lateAck :
    RunMeets step Fair (.start threeNodes)
      [.refresh, .ackReq ['b'] 1, .ackReq ['c'] 1, .refresh, .ackReq ['a'] 1] :=
  (refresh_rounds_iff threeNodes rfl _).mpr (by decide)

/-- One member that acknowledges twice makes a quorum; and when all three acknowledge, the
freshness is raised twice. -/
theorem repeated_ack_raises :
    (run step (.start threeNodes) [.refresh, .ackReq ['b'] 1, .ackReq ['b'] 1]).map
        (fun o => (own o.c, decide (Quorum o.c o.heard))) = some (1, false)
      ∧ ¬ RunMeets step Fair (.start threeNodes) [.refresh, .ackReq ['b'] 1, .ackReq ['b'] 1]
      ∧ (run step (.start threeNodes)
          [.refresh, .ackReq ['a'] 1, .ackReq ['b'] 1, .ackReq ['c'] 1]).map
        (fun o => (own o.c, o.raised)) = some (2, 2)
      ∧ ¬ RunMeets step Fair (.start threeNodes)
          [.refresh, .ackReq ['a'] 1, .ackReq ['b'] 1, .ackReq ['c'] 1] := by
  decide

end Yfs.ElectionRefresh
