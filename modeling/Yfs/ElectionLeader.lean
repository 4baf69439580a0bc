/-
Leader election (`config.cc`) over whole runs of a node: whom it elects.

A node answers whatever arrives, in any order, and its timers run out at any time. Epochs are
what leaders are elected by, but no leader ever is. `statusReq` looks for the least epoch of
those alive and then forgets it, since `inited` stays false: the leader's epoch is the one of
nobody after every read, and a node whose name is not empty never finds its own there.

The mutex is left out, as in `Election`. In the source a handler that keeps it stops the node,
so every run of the source is one of the runs here, up to the point where it stops.
-/
import Yfs.ElectionRead
import Yfs.ElectionRefresh

set_option autoImplicit false

namespace Yfs.ElectionLeader

open Steps Text Yfs.Election
open ElectionRefresh (Act Other)

/-! ## Runs of a node -/

def apply (c : config) : Act → config
  | .refresh => refresh c
  | .ackReq src rn => ackReq c src rn
  | .other a => a.apply c

/-- The node does what it is told, whatever that is. -/
def step (c : config) (a : Act) : Option config := some (apply c a)

/-- The node knows of no leader, and its own epoch has a name. -/
structure Leaderless (me : Str) (c : config) : Prop where
  name : c.me = me
  named : (c.entry me).en.id ≠ []
  leaderEpoch : c.leaderEpoch = ⟨0, []⟩
  leader : c.leader = []
  isLeader : c.isLeader = false

theorem leaderless_new {me : Str} (hme : me ≠ []) (mems : List Str) :
    Leaderless me (config.new me mems) := by
  refine ⟨rfl, ?_, rfl, rfl, rfl⟩
  rwa [config.entry, config.new, SortedMap.find_insert_self, Option.getD_some]

section Steps

variable {me : Str} {c c' : config} (h : Leaderless me c)

include h

/-- One entry of the registry is written. That of the node itself may get any epoch, as long
as the epoch has a name. -/
theorem Leaderless.insert {id : Str} {st : epochState} (hid : id = me → st.en.id ≠ [])
    (hreg : c'.registry = c.registry.insert id st) (hme : c'.me = c.me)
    (hepoch : c'.leaderEpoch = c.leaderEpoch) (hleader : c'.leader = c.leader)
    (his : c'.isLeader = c.isLeader) : Leaderless me c' := by
  refine ⟨hme.trans h.name, ?_, hepoch.trans h.leaderEpoch, hleader.trans h.leader,
    his.trans h.isLeader⟩
  rw [config.entry, hreg]
  by_cases heq : me = id
  · rw [heq, SortedMap.find_insert_self, Option.getD_some]
    exact hid heq.symm
  · rw [SortedMap.find_insert_of_ne _ _ heq]
    exact h.named

/-- An acknowledgement changes the freshness of the node's entry, not its epoch. -/
theorem leaderless_ackReq (src : Str) (rn : ℕ) : Leaderless me (ackReq c src rn) := by
  rw [ackReq]
  split
  · refine h.insert (fun _ => ?_) rfl rfl rfl rfl rfl
    rw [h.name]
    exact h.named
  · exact ⟨h.name, h.named, h.leaderEpoch, h.leader, h.isLeader⟩

/-- A new epoch of the node has the name of the old one. -/
theorem leaderless_retEpochNumReq (sn : ℕ) (en : epochNum) (now : ℕ) :
    Leaderless me (retEpochNumReq c sn en now) := by
  unfold retEpochNumReq
  split
  · dsimp only
    split
    · refine h.insert (fun _ => ?_) rfl rfl rfl rfl rfl
      show (c.entry c.me).en.id ≠ []
      rw [h.name]
      exact h.named
    · exact ⟨h.name, h.named, h.leaderEpoch, h.leader, h.isLeader⟩
  · exact h

theorem leaderless_refreshReq {src : Str} {rg : epochState} (hnamed : src = me → rg.en.id ≠ []) :
    Leaderless me (refreshReq c src rg) := by
  rw [refreshReq]
  split
  · exact h.insert hnamed rfl rfl rfl rfl rfl
  · exact h

/-- **A read elects nobody**, even when it is complete: the least epoch that the third loop
finds is thrown away. -/
theorem leaderless_statusReq (src : Str) (rn : ℕ) (srcReg : SortedMap Str epochState) :
    Leaderless me (statusReq c src rn srcReg) := by
  by_cases hrn : rn = c.readNum
  · rw [ElectionRead.statusReq_eq (m := ⟨src, rn, srcReg⟩) hrn]
    split
    · have hepoch :=
        ElectionRead.completeRead_leaderEpoch (ElectionRead.counted c ⟨src, rn, srcReg⟩)
      exact ⟨h.name, h.named, hepoch, congrArg epochNum.id hepoch, h.isLeader⟩
    · exact ⟨h.name, h.named, h.leaderEpoch, h.leader, h.isLeader⟩
  · rw [statusReq, if_neg hrn]
    exact h

/-- The only step that makes a leader compares the epoch of nobody with the node's own. -/
theorem leaderless_becomeLeader : Leaderless me (becomeLeader c) := by
  have hne : c.leaderEpoch ≠ (c.entry c.me).en := by
    intro heq
    apply h.named
    rw [← h.name, ← heq, h.leaderEpoch]
  rw [becomeLeader, if_neg fun hand => hne hand.1]
  exact h

/-- **One step**: what arrives may be anything, but an epoch that is announced in the node's
name has a name. -/
theorem leaderless_apply {a : Act}
    (hnamed : ∀ rg, a = .other (.refreshReq me rg) → rg.en.id ≠ []) :
    Leaderless me (apply c a) := by
  cases a with
  | refresh => exact ⟨h.name, h.named, h.leaderEpoch, h.leader, h.isLeader⟩
  | ackReq src rn => exact leaderless_ackReq h src rn
  | other a =>
    cases a with
    | roundTripTimeOut => exact ⟨h.name, h.named, h.leaderEpoch, h.leader, rfl⟩
    | getEpochTimeOut | readTimeOut now =>
      exact ⟨h.name, h.named, h.leaderEpoch, h.leader, h.isLeader⟩
    | refreshReq src rg => exact leaderless_refreshReq h fun heq => hnamed rg (heq ▸ rfl)
    | getEpochNumReq =>
      show Leaderless me (Election.getEpochNumReq c)
      rw [Election.getEpochNumReq]
      split
      · exact h
      · exact ⟨h.name, h.named, h.leaderEpoch, h.leader, h.isLeader⟩
    | retEpochNumReq sn en now => exact leaderless_retEpochNumReq h sn en now
    | statusReq src rn srcReg => exact leaderless_statusReq h src rn srcReg
    | becomeLeader => exact leaderless_becomeLeader h

end Steps

/-! ## Nobody is elected -/

/-- **No node is ever elected.** A node with a name, in whose name nobody announces an epoch
without one, never becomes the leader and never takes anybody for the leader, whatever
messages arrive and whichever timers run out. -/
theorem never_elected {me : Str} {mems : List Str} {as : List Act} {c : config} (hme : me ≠ [])
    (hnamed : ∀ rg, .other (.refreshReq me rg) ∈ as → rg.en.id ≠ [])
    (hrun : run step (config.new me mems) as = some c) :
    c.isLeader = false ∧ c.leader = [] ∧ c.leaderEpoch = ⟨0, []⟩ := by
  have hinv : Leaderless me c := by
    refine run_inv_forall (P := Leaderless me) (p := (· ∈ as)) ?_ (leaderless_new hme mems)
      (fun a ha => ha) hrun
    rintro s a s' hs ha hstep
    obtain rfl := Option.some.inj hstep
    exact leaderless_apply hs fun rg heq => hnamed rg (heq ▸ ha)
  exact ⟨hinv.isLeader, hinv.leader, hinv.leaderEpoch⟩

/-- Node `b` is the only member. It reads its own registry, and its epoch is old enough
for it to become the leader. -/
def readAlone : List Act :=
  [.other (.readTimeOut 100), .other (.statusReq ['b'] 1 (.insert .empty ['b'] ⟨⟨3, ['b']⟩, 1⟩)),
    .other .becomeLeader]

/-- The read was completed, and found one node that has not expired. -/
theorem never_elected_readAlone :
    ∃ c, run step (config.new ['b'] [['b']]) readAlone = some c
      ∧ (c.view ['b'], c.lastCompletedReadStartTime) = (⟨⟨⟨3, ['b']⟩, 1⟩, false⟩, 100)
      ∧ c.isLeader = false ∧ c.leader = [] ∧ c.leaderEpoch = ⟨0, []⟩ := by
  have hex : (run step (config.new ['b'] [['b']]) readAlone).map
      (fun c => (c.view ['b'], c.lastCompletedReadStartTime))
        = some (⟨⟨⟨3, ['b']⟩, 1⟩, false⟩, 100) := by decide
  obtain ⟨c, hc, hf⟩ := exists_run hex
  refine ⟨c, hc, hf, never_elected (by decide) (fun rg hmem => ?_) hc⟩
  simp [readAlone] at hmem

end Yfs.ElectionLeader
