/-
The chain of views (`config.cc`, `rsm.cc`).

Views are changed by two kinds of thread. A handler of `joinreq` finds that a node is
not a member of the last view of its layer, lets go of `rsm_mutex` and calls
`config::add` with the number of that view. The heartbeater takes a snapshot of the
current view, lets go of `cfg_mutex` while it waits for a heartbeat, and calls
`remove_wo` for a member that has not answered. Both propose the next view from what
the config module has as the current one, when its number is still the one they began
with. Between their two halves anything may happen.

Of Paxos only this is assumed: the value agreed on for an instance was proposed for it
by a node that was in the view before, and one value is agreed on for each instance.
The first view is the name of the first node.
-/
import Yfs.RsmPrimary
import Yfs.ConfigCommit

set_option autoImplicit false

namespace Yfs.ViewChain

open Text Yfs.PaxosProposer Yfs.Views Yfs.Rsm Yfs.ConfigCommit

/-! ## Proposals -/

/-- A call of `proposer::run`, and the view of the config module it was made in. -/
structure Proposal where
  inst : ℕ
  value : Str
  view : ℕ
  deriving DecidableEq, Repr

/-- `nextvid` is passed as an `unsigned`. -/
def propose (c : config) (m : List Str) : Proposal := ⟨(c.myvid + 1) % 2 ^ 32, value m, c.myvid⟩

/-- `config::add` up to the call of the proposer. -/
def add (c : config) (new_m : Str) (vid : ℕ) : Option Proposal :=
  if vid ≠ c.myvid then none else some (propose c (withMember c.mems new_m))

/-- `config::remove_wo` up to the call of the proposer. -/
def remove_wo (c : config) (m : Str) : Proposal := propose c (withoutMember c.mems m)

/-- The node with the smallest id. -/
def smallest (me : Str) (cmems : List Str) : Str :=
  cmems.foldl (fun m c => if m > c then c else m) me

/-- A member whose heartbeat may fail: the node with the smallest id pings all others, the
others ping that node. -/
def pinged (me : Str) (cmems : List Str) (m : Str) : Bool :=
  if smallest me cmems = me then isamember m cmems && m != me
  else m == smallest me cmems

/-! ## The nodes -/

structure Node where
  /-- The values of the acceptor. -/
  values : ℕ → Option Str
  cfg : config
  rsm : rsm
  /-- Handlers of `joinreq` before their call of `add`: the node, and `vid_cache`. -/
  joins : List (Str × ℕ)
  /-- The heartbeater after a heartbeat that failed: `vid`, and the member. -/
  beat : Option (ℕ × Str)

/-- `get_view`: a value that is not there is the empty string. -/
def Node.get_view (nd : Node) (vid : ℕ) : List Str := members ((nd.values vid).getD [])

structure System where
  nodes : Str → Node
  proposals : List Proposal
  agreed : ℕ → Option Str

/-- The first node has decided instance 1 itself; `named` is the first name on the command
line of each node. -/
def start (first : Str) (named : Str → Str) : System where
  nodes q :=
    if q = first then
      ⟨Function.update (fun _ => none) 1 (some first), ⟨1, members first⟩, rsm.new (named q), [],
        none⟩
    else ⟨fun _ => none, .blank, rsm.new (named q), [], none⟩
  proposals := []
  agreed := Function.update (fun _ => none) 1 (some first)

inductive Act where
  /-- `joinreq` of node `m` at node `q`, until it calls `add` or returns. -/
  | joinreq (q m : Str)
  /-- `add` in the `k`-th of these handlers. -/
  | add (q : Str) (k : ℕ)
  /-- The heartbeater of `q` gets no answer from `m`. -/
  | heartbeat (q m : Str)
  /-- The heartbeater goes on. -/
  | remove (q : Str)
  /-- Paxos agrees on the `k`-th proposal. -/
  | agree (k : ℕ)
  /-- The value of a view reaches the acceptor of `q`, by a commit or in a log. -/
  | learn (q : Str) (vid : ℕ)
  /-- `paxos_commit`, or `reconstruct` after a log was restored. -/
  | paxos_commit (q : Str) (vid : ℕ)
  | commit_change (q : Str) (vid : ℕ)
  /-- Node `q` comes back with some of its values. -/
  | restart (q first : Str) (kept : List ℕ) (vid : ℕ)
  deriving DecidableEq, Repr

def System.set (s : System) (q : Str) (nd : Node) : System :=
  { s with nodes := Function.update s.nodes q nd }

/-- The config module with view `vid`, when it is known. -/
def Node.install (nd : Node) (vid : ℕ) : Option Node :=
  (nd.values vid).map fun v => { nd with cfg := ConfigCommit.paxos_commit nd.cfg vid v }

def step (s : System) : Act → Option System
  | .joinreq q m =>
    let nd := s.nodes q
    match Rsm.joinreq nd.get_view q nd.rsm m with
    | .add vid_cache => some (s.set q { nd with joins := nd.joins ++ [(m, vid_cache)] })
    | _ => some s
  | .add q k =>
    let nd := s.nodes q
    nd.joins[k]?.map fun j =>
      { s.set q { nd with joins := nd.joins.eraseIdx k } with
        proposals := s.proposals ++ (ViewChain.add nd.cfg j.1 j.2).toList }
  | .heartbeat q m =>
    let nd := s.nodes q
    let cmems := nd.get_view nd.cfg.myvid
    -- a node that is not a member sends no heartbeats
    if isamember q cmems ∧ pinged q cmems m then
      some (s.set q { nd with beat := some (nd.cfg.myvid, m) })
    else none
  | .remove q =>
    let nd := s.nodes q
    nd.beat.map fun b =>
      { s.set q { nd with beat := none } with
        proposals := s.proposals ++ if b.1 = nd.cfg.myvid then [remove_wo nd.cfg b.2] else [] }
  | .agree k =>
    s.proposals[k]?.bind fun p =>
      if p.inst = p.view + 1 ∧ s.agreed p.inst = none then
        some { s with agreed := Function.update s.agreed p.inst (some p.value) }
      else none
  | .learn q vid =>
    let nd := s.nodes q
    (s.agreed vid).map fun v =>
      s.set q { nd with values := Function.update nd.values vid (some v) }
  | .paxos_commit q vid => ((s.nodes q).install vid).map fun nd => s.set q nd
  | .commit_change q vid =>
    let nd := s.nodes q
    if (nd.values vid).isSome then
      (commit_change_wo nd.get_view nd.rsm vid).map fun r => s.set q { nd with rsm := r.1 }
    else none
  | .restart q first kept vid =>
    let nd := s.nodes q
    let values := fun i => if i ∈ kept then nd.values i else none
    let nd' : Node := ⟨values, .blank, rsm.new first, [], none⟩
    some (s.set q ((nd'.install vid).getD nd'))

/-- Node ids are words. -/
def NamesOk : Act → Prop
  | .joinreq _ m => IsWord m
  | _ => True

instance (a : Act) : Decidable (NamesOk a) :=
  match a with
  | .joinreq _ m => inferInstanceAs (Decidable (IsWord m))
  | .add .. | .heartbeat .. | .remove _ | .agree _ | .learn .. | .paxos_commit ..
  | .commit_change .. | .restart .. => instDecidableTrue

/-! ## The heartbeater -/

theorem smallest_mem (me : Str) (cmems : List Str) : smallest me cmems ∈ me :: cmems := by
  unfold smallest
  induction cmems generalizing me with
  | nil => exact List.mem_cons_self
  | cons c cmems ih =>
    rw [List.foldl_cons]
    rcases List.mem_cons.mp (ih (if me > c then c else me)) with h | h
    · rw [h]
      split
      · exact List.mem_cons_of_mem _ List.mem_cons_self
      · exact List.mem_cons_self
    · exact List.mem_cons_of_mem _ (List.mem_cons_of_mem _ h)

variable {m : Str}

/-- Only other members are pinged. -/
theorem mem_of_pinged {me : Str} {cmems : List Str} (h : pinged me cmems m = true) :
    m ∈ cmems ∧ m ≠ me := by
  unfold pinged at h
  split at h
  · simp only [Bool.and_eq_true, bne_iff_ne] at h
    exact ⟨isamember_iff.mp h.1, h.2⟩
  · next hne =>
    obtain rfl := beq_iff_eq.mp h
    rcases List.mem_cons.mp (smallest_mem me cmems) with heq | hmem
    · exact absurd heq hne
    · exact ⟨hmem, hne⟩

/-! ## The invariant -/

/-- A view is well formed. -/
structure WfView (v : List Str) : Prop where
  ne_nil : v ≠ []
  nodup : v.Nodup
  words : ∀ m ∈ v, IsWord m

/-- A proposal made in an agreed view is for a next view of it. -/
def ProposalOk (agreed : ℕ → Option Str) (p : Proposal) : Prop :=
  p.view ≠ 0 → ∃ w, agreed p.view = some w ∧ NextView (members w) (members p.value)
    ∧ ∀ m ∈ members p.value, IsWord m

/-- What a node has is what was agreed on, and its threads remember facts about agreed
views. -/
structure NodeOk (agreed : ℕ → Option Str) (q : Str) (nd : Node) : Prop where
  values : ∀ i v, nd.values i = some v → agreed i = some v
  config : nd.cfg = .blank ∨ ∃ w, agreed nd.cfg.myvid = some w ∧ nd.cfg.mems = members w
  commit : nd.rsm.vid_commit = 0 ∨ ∃ w, nd.values nd.rsm.vid_commit = some w
  joins : ∀ j ∈ nd.joins, IsWord j.1
    ∧ (j.2 = 0 ∨ ∃ w, agreed j.2 = some w ∧ j.1 ∉ members w)
  beat : ∀ b, nd.beat = some b →
    ∃ w, agreed b.1 = some w ∧ b.2 ∈ members w ∧ q ∈ members w ∧ b.2 ≠ q

structure Inv (s : System) : Prop where
  zero : s.agreed 0 = none
  one : ∃ v m, s.agreed 1 = some v ∧ members v = [m]
  wf : ∀ i v, s.agreed i = some v → WfView (members v)
  chain : ∀ i v, s.agreed (i + 2) = some v →
    ∃ w, s.agreed (i + 1) = some w ∧ NextView (members w) (members v)
  proposals : ∀ p ∈ s.proposals, ProposalOk s.agreed p
  nodes : ∀ q, NodeOk s.agreed q (s.nodes q)

/-! ## More views are agreed on -/

/-- Everything agreed on stays. -/
def Later (agreed agreed' : ℕ → Option Str) : Prop :=
  ∀ i v, agreed i = some v → agreed' i = some v

theorem ProposalOk.later {agreed agreed' : ℕ → Option Str} (hl : Later agreed agreed')
    {p : Proposal} (h : ProposalOk agreed p) : ProposalOk agreed' p := by
  intro hne
  obtain ⟨w, hw, hrest⟩ := h hne
  exact ⟨w, hl _ _ hw, hrest⟩

variable {q : Str}

theorem NodeOk.later {agreed agreed' : ℕ → Option Str} (hl : Later agreed agreed')
    {nd : Node} (h : NodeOk agreed q nd) : NodeOk agreed' q nd := by
  refine ⟨fun i v hv => hl i v (h.values i v hv), ?_, h.commit, fun j hj => ?_, fun b hb => ?_⟩
  · rcases h.config with hblank | ⟨w, hw, hmems⟩
    · exact .inl hblank
    · exact .inr ⟨w, hl _ _ hw, hmems⟩
  · obtain ⟨hword, hzero | ⟨w, hw, hnot⟩⟩ := h.joins j hj
    · exact ⟨hword, .inl hzero⟩
    · exact ⟨hword, .inr ⟨w, hl _ _ hw, hnot⟩⟩
  · obtain ⟨w, hw, hrest⟩ := h.beat b hb
    exact ⟨w, hl _ _ hw, hrest⟩

/-! ## Changes of one node -/

variable {s : System}

/-- A node changes, and may make proposals. -/
theorem Inv.set (h : Inv s) {nd : Node} (hnd : NodeOk s.agreed q nd)
    {new : List Proposal} (hnew : ∀ p ∈ new, ProposalOk s.agreed p) :
    Inv { s.set q nd with proposals := s.proposals ++ new } := by
  refine ⟨h.zero, h.one, h.wf, h.chain, fun p hp => ?_, fun q' => ?_⟩
  · exact (List.mem_append.mp hp).elim (h.proposals p) (hnew p)
  · by_cases hq : q' = q
    · subst hq
      simpa only [System.set, Function.update_self] using hnd
    · simpa only [System.set, Function.update_of_ne hq] using h.nodes q'

theorem Inv.set_node (h : Inv s) {nd : Node} (hnd : NodeOk s.agreed q nd) : Inv (s.set q nd) := by
  have hset : Inv { s.set q nd with proposals := s.proposals ++ [] } := h.set hnd nofun
  rwa [List.append_nil] at hset

variable {vid : ℕ} {agreed : ℕ → Option Str}

/-- The view of a node is an agreed one when it has a member. -/
theorem NodeOk.get_view {nd : Node} (h : NodeOk agreed q nd) (hm : m ∈ nd.get_view vid) :
    ∃ w, agreed vid = some w ∧ nd.get_view vid = members w := by
  unfold Node.get_view at hm ⊢
  cases hv : nd.values vid with
  | none =>
    rw [hv] at hm
    cases hm
  | some w => exact ⟨w, h.values vid w hv, rfl⟩

/-- A view installed from the values is an agreed one. -/
theorem NodeOk.install {nd nd' : Node}
    (h : NodeOk agreed q nd) (hs : nd.install vid = some nd') : NodeOk agreed q nd' := by
  obtain ⟨w, hw, rfl⟩ := Option.map_eq_some_iff.mp hs
  exact ⟨h.values, .inr ⟨w, h.values vid w hw, rfl⟩, h.commit, h.joins, h.beat⟩

theorem NodeOk.install_getD {nd : Node}
    (h : NodeOk agreed q nd) (vid : ℕ) : NodeOk agreed q ((nd.install vid).getD nd) := by
  cases hs : nd.install vid with
  | none => exact h
  | some nd' => exact h.install hs

/-! ## Proposals are for next views -/

/-- A view of words is proposed as it is. -/
theorem proposalOk_propose {c : config} {w : Str} {m : List Str}
    (hw : agreed c.myvid = some w) (hnext : NextView (members w) m)
    (hwords : ∀ x ∈ m, IsWord x) : ProposalOk agreed (propose c m) := by
  intro _
  refine ⟨w, hw, ?_, ?_⟩
  · simpa only [propose, members_value hwords] using hnext
  · simpa only [propose, members_value hwords] using hwords

/-- **`add` proposes a next view**: the node that was not a member of view `vid` is not a
member of the current one, because that is the same view. -/
theorem proposalOk_add (h : Inv s) (hj : (m, vid) ∈ (s.nodes q).joins) {p : Proposal}
    (hp : ViewChain.add (s.nodes q).cfg m vid = some p) : ProposalOk s.agreed p := by
  unfold ViewChain.add at hp
  split at hp
  · cases hp
  · next hvid =>
    obtain rfl := Option.some.inj hp
    have hvid : vid = (s.nodes q).cfg.myvid := not_not.mp hvid
    obtain ⟨hword, hnot⟩ := (h.nodes q).joins (m, vid) hj
    intro hne
    rcases (h.nodes q).config with hblank | ⟨w, hw, hmems⟩
    · rw [hblank] at hne
      exact absurd rfl hne
    · have hm : m ∉ members w := by
        rcases hnot with hzero | ⟨w', hw', hm⟩
        · exact absurd (hvid.symm.trans hzero) hne
        · rw [hvid, hw, Option.some.injEq] at hw'
          exact hw' ▸ hm
      refine proposalOk_propose hw ?_ ?_ hne
      · rw [hmems]
        exact nextView_withMember hm
      · rw [hmems]
        intro x hx
        rcases List.mem_append.mp hx with hx | hx
        · exact (h.wf _ w hw).words x hx
        · rw [List.mem_singleton.mp hx]
          exact hword

/-- **`remove_wo` proposes a next view**: the member that has not answered is in the
current view, and so is the node itself. -/
theorem proposalOk_remove (h : Inv s)
    (hb : (s.nodes q).beat = some (vid, m)) (hvid : vid = (s.nodes q).cfg.myvid) :
    ProposalOk s.agreed (remove_wo (s.nodes q).cfg m) := by
  obtain ⟨w, hw, hm, hq, hne⟩ := (h.nodes q).beat (vid, m) hb
  simp only [hvid] at hw hm
  have hwf := h.wf _ w hw
  have hmems : (s.nodes q).cfg.mems = members w := by
    rcases (h.nodes q).config with hblank | ⟨w', hw', hmems⟩
    · rw [hblank] at hw
      exact absurd (h.zero.symm.trans hw) nofun
    · rw [hw, Option.some.injEq] at hw'
      exact hw' ▸ hmems
  refine proposalOk_propose hw ?_ ?_
  · rw [hmems]
    exact nextView_withoutMember hwf.nodup hm hq hne
  · rw [hmems]
    intro x hx
    exact hwf.words x (List.mem_filter.mp hx).1

/-! ## The steps -/

variable {s' : System}

theorem inv_joinreq (h : Inv s) (hm : IsWord m)
    (hs : step s (.joinreq q m) = some s') : Inv s' := by
  simp only [step] at hs
  split at hs
  · next vid hans =>
    cases hs
    -- the handler got past the test for members
    unfold Rsm.joinreq at hans
    split at hans
    · cases hans
    · next hnot =>
      split at hans
      · cases hans
      · obtain rfl := JoinAnswer.add.inj hans
        have hnd := h.nodes q
        refine h.set_node ⟨hnd.values, hnd.config, hnd.commit, fun j hj => ?_, hnd.beat⟩
        rcases List.mem_append.mp hj with hj | hj
        · exact hnd.joins j hj
        · rw [List.mem_singleton.mp hj]
          refine ⟨hm, ?_⟩
          rcases hnd.commit with hzero | ⟨w, hw⟩
          · exact .inl hzero
          · refine .inr ⟨w, hnd.values _ w hw, fun hmem => hnot (isamember_iff.mpr ?_)⟩
            rw [Node.get_view, hw]
            exact hmem
  · cases hs
    exact h

theorem inv_heartbeat (h : Inv s) (hs : step s (.heartbeat q m) = some s') : Inv s' := by
  simp only [step] at hs
  split at hs
  · next hping =>
    cases hs
    have hnd := h.nodes q
    obtain ⟨hm, hne⟩ := mem_of_pinged hping.2
    have hq := isamember_iff.mp hping.1
    obtain ⟨w, hw, hview⟩ := hnd.get_view hm
    refine h.set_node ⟨hnd.values, hnd.config, hnd.commit, hnd.joins, ?_⟩
    rintro b ⟨rfl⟩
    exact ⟨w, hw, hview ▸ hm, hview ▸ hq, hne⟩
  · cases hs

theorem inv_agree (h : Inv s) {k : ℕ} (hs : step s (.agree k) = some s') : Inv s' := by
  obtain ⟨p, hp, hs⟩ := Option.bind_eq_some_iff.mp hs
  split at hs
  · next hfree =>
    cases hs
    obtain ⟨hinst, hnone⟩ := hfree
    have hok := h.proposals p (List.mem_of_getElem? hp)
    have hlater : Later s.agreed (Function.update s.agreed p.inst (some p.value)) := by
      intro i v hv
      have hne : i ≠ p.inst := by
        rintro rfl
        rw [hnone] at hv
        cases hv
      rwa [Function.update_of_ne hne]
    have hcases : ∀ i v, Function.update s.agreed p.inst (some p.value) i = some v →
        (i = p.inst ∧ v = p.value) ∨ s.agreed i = some v := by
      intro i v hv
      by_cases hi : i = p.inst
      · subst hi
        rw [Function.update_self, Option.some.injEq] at hv
        exact .inl ⟨rfl, hv.symm⟩
      · rw [Function.update_of_ne hi] at hv
        exact .inr hv
    -- the first view is there, so this one was proposed in an agreed view
    have hview : p.view ≠ 0 := by
      intro h0
      rw [hinst, h0] at hnone
      obtain ⟨v, -, hv, -⟩ := h.one
      exact absurd (hnone.symm.trans hv) nofun
    obtain ⟨w, hw, hnext, hwords⟩ := hok hview
    obtain ⟨v₁, m₁, hv₁, hm₁⟩ := h.one
    refine ⟨?_, ⟨v₁, m₁, hlater 1 v₁ hv₁, hm₁⟩, fun i v hv => ?_, fun i v hv => ?_,
      fun p' hp' => (h.proposals p' hp').later hlater, fun q => (h.nodes q).later hlater⟩
    · exact (Function.update_of_ne (by omega) _ _).trans h.zero
    · rcases hcases i v hv with ⟨rfl, rfl⟩ | hv
      · exact ⟨hnext.ne_nil, hnext.nodup (h.wf _ w hw).nodup, hwords⟩
      · exact h.wf i v hv
    · rcases hcases (i + 2) v hv with ⟨hi, rfl⟩ | hv
      · have hprev : i + 1 = p.view := by omega
        exact ⟨w, hlater _ w (hprev ▸ hw), hnext⟩
      · obtain ⟨w', hw', hnext'⟩ := h.chain i v hv
        exact ⟨w', hlater _ w' hw', hnext'⟩
  · cases hs

theorem inv_learn (h : Inv s) (hs : step s (.learn q vid) = some s') : Inv s' := by
  obtain ⟨v, hv, rfl⟩ := Option.map_eq_some_iff.mp hs
  have hnd := h.nodes q
  refine h.set_node ⟨fun i w hw => ?_, hnd.config, ?_, hnd.joins, hnd.beat⟩
  · by_cases hi : i = vid
    · subst hi
      simp only [Function.update_self, Option.some.injEq] at hw
      exact hw ▸ hv
    · simp only [Function.update_of_ne hi] at hw
      exact hnd.values i w hw
  · rcases hnd.commit with hzero | ⟨w, hw⟩
    · exact .inl hzero
    · by_cases hi : (s.nodes q).rsm.vid_commit = vid
      · refine .inr ⟨v, ?_⟩
        simp only [hi, Function.update_self]
      · exact .inr ⟨w, (Function.update_of_ne hi _ _).trans hw⟩

theorem inv_commit_change (h : Inv s) (hs : step s (.commit_change q vid) = some s') : Inv s' := by
  simp only [step] at hs
  split at hs
  · next hknown =>
    obtain ⟨⟨r, b⟩, hr, rfl⟩ := Option.map_eq_some_iff.mp hs
    have hnd := h.nodes q
    refine h.set_node ⟨hnd.values, hnd.config, ?_, hnd.joins, hnd.beat⟩
    rcases commit_change_wo_cases hr with ⟨rfl, -⟩ | ⟨-, -, -, -, rfl⟩
    · exact hnd.commit
    · exact .inr (Option.isSome_iff_exists.mp hknown)
  · cases hs

theorem inv_restart (h : Inv s) {q first : Str} {kept : List ℕ}
    (hs : step s (.restart q first kept vid) = some s') : Inv s' := by
  obtain rfl := Option.some.inj hs
  refine h.set_node (NodeOk.install_getD ?_ vid)
  refine ⟨fun i v hv => ?_, .inl rfl, .inl rfl, nofun, nofun⟩
  simp only at hv
  split at hv
  · exact (h.nodes q).values i v hv
  · cases hv

/-- **One step** keeps the chain. -/
theorem inv_step (s : System) (a : Act) (s' : System) (h : Inv s) (hname : NamesOk a)
    (hs : step s a = some s') : Inv s' := by
  cases a with
  | joinreq q m => exact inv_joinreq h hname hs
  | add q k =>
    obtain ⟨⟨m, vid⟩, hj, rfl⟩ := Option.map_eq_some_iff.mp hs
    have hnd := h.nodes q
    have hnd' : NodeOk s.agreed q { s.nodes q with joins := (s.nodes q).joins.eraseIdx k } :=
      ⟨hnd.values, hnd.config, hnd.commit,
        fun j hj => hnd.joins j (List.mem_of_mem_eraseIdx hj), hnd.beat⟩
    refine h.set hnd' fun p hp => ?_
    exact proposalOk_add h (List.mem_of_getElem? hj) (Option.mem_toList.mp hp)
  | heartbeat q m => exact inv_heartbeat h hs
  | remove q =>
    obtain ⟨⟨vid, m⟩, hb, rfl⟩ := Option.map_eq_some_iff.mp hs
    have hnd := h.nodes q
    have hnd' : NodeOk s.agreed q { s.nodes q with beat := none } :=
      ⟨hnd.values, hnd.config, hnd.commit, hnd.joins, fun _ hb => nomatch hb⟩
    refine h.set hnd' fun p hp => ?_
    split at hp
    · next hvid =>
      rw [List.mem_singleton.mp hp]
      exact proposalOk_remove h hb hvid
    · cases hp
  | agree k => exact inv_agree h hs
  | learn q vid => exact inv_learn h hs
  | paxos_commit q vid =>
    obtain ⟨nd, hnd, rfl⟩ := Option.map_eq_some_iff.mp hs
    exact h.set_node ((h.nodes q).install hnd)
  | commit_change q vid => exact inv_commit_change h hs
  | restart q first kept vid => exact inv_restart h hs

theorem inv_start {first : Str} (hfirst : IsWord first) (named : Str → Str) :
    Inv (start first named) := by
  have hone : ∀ i v, Function.update (fun _ : ℕ => (none : Option Str)) 1 (some first) i = some v →
      i = 1 ∧ v = first := by
    intro i v hv
    by_cases hi : i = 1
    · subst hi
      rw [Function.update_self, Option.some.injEq] at hv
      exact ⟨rfl, hv.symm⟩
    · rw [Function.update_of_ne hi] at hv
      cases hv
  refine ⟨rfl, ⟨first, first, rfl, members_singleton hfirst⟩, fun i v hv => ?_,
    fun i v hv => ?_, nofun, fun q => ?_⟩
  · obtain ⟨-, rfl⟩ := hone i v hv
    rw [members_singleton hfirst]
    exact ⟨List.cons_ne_nil _ _, List.nodup_singleton _, by simpa using hfirst⟩
  · have := (hone (i + 2) v hv).1
    omega
  · simp only [start]
    split
    · exact ⟨fun i v hv => hv, .inr ⟨first, rfl, rfl⟩, .inl rfl, nofun, nofun⟩
    · exact ⟨nofun, .inl rfl, .inl rfl, nofun, nofun⟩

/-- The views agreed on, from the first on, are a history as `RsmPrimary` has it. -/
theorem Inv.history (h : Inv s) {views : List Str}
    (hviews : ∀ i v, views[i]? = some v → s.agreed (i + 1) = some v) :
    RsmPrimary.History (views.map members) := by
  have hget : ∀ i (hi : i < views.length), s.agreed (i + 1) = some views[i] :=
    fun i hi => hviews i _ (List.getElem?_eq_getElem hi)
  rw [RsmPrimary.History, List.isChain_iff_getElem]
  intro i hi
  have hlt : i < views.length := by simpa using hi
  cases i with
  | zero =>
    obtain ⟨v, m, hv, hm⟩ := h.one
    obtain rfl : views[0] = v := Option.some.inj ((hget 0 hlt).symm.trans hv)
    simp only [List.getElem_cons_zero, List.getElem_cons_succ, List.getElem_map, hm]
    exact .added m List.not_mem_nil
  | succ j =>
    obtain ⟨w, hw, hnext⟩ := h.chain j _ (hget (j + 1) hlt)
    obtain rfl : views[j] = w := Option.some.inj ((hget j (by omega)).symm.trans hw)
    simpa only [List.getElem_cons_succ, List.getElem_map] using hnext

/-- **The chain of views.** In every run of joins and removals at all nodes, with node ids
that are words: every view that is agreed on has a member and no member twice, it is the
previous view with one new member at the end or with one member less, and `set_primary`
passes its assertions on every node that knows a view and its predecessor. -/
theorem view_chain {first : Str} (hfirst : IsWord first) {named : Str → Str} {acts : List Act}
    {s : System} (hnames : ∀ a ∈ acts, NamesOk a)
    (hrun : Steps.run step (start first named) acts = some s) :
    (∀ i v, s.agreed i = some v → members v ≠ [] ∧ (members v).Nodup)
      ∧ (∀ i v, s.agreed (i + 2) = some v →
          ∃ w, s.agreed (i + 1) = some w ∧ NextView (members w) (members v))
      ∧ ∀ q vid v w, (s.nodes q).values (vid + 1) = some v → (s.nodes q).values vid = some w →
          ∀ primary, ∃ p, set_primary (s.nodes q).get_view primary (vid + 1) = some p := by
  have h : Inv s := Steps.run_inv_forall inv_step (inv_start hfirst named) hnames hrun
  refine ⟨fun i v hv => ⟨(h.wf i v hv).ne_nil, (h.wf i v hv).nodup⟩, h.chain, ?_⟩
  intro q vid v w hv hw primary
  have hav := (h.nodes q).values _ v hv
  have haw := (h.nodes q).values _ w hw
  obtain ⟨i, rfl⟩ : ∃ i, vid = i + 1 := by
    cases vid with
    | zero => exact absurd (h.zero.symm.trans haw) nofun
    | succ i => exact ⟨i, rfl⟩
  obtain ⟨w', hw', hnext⟩ := h.chain i v hav
  obtain rfl : w = w' := Option.some.inj (haw.symm.trans hw')
  have hprev : (s.nodes q).get_view (i + 1) = members w := by rw [Node.get_view, hw]; rfl
  have hcur : (s.nodes q).get_view (i + 1 + 1) = members v := by rw [Node.get_view, hv]; rfl
  refine set_primary_isSome ?_ ?_ primary
  · rw [Nat.add_sub_cancel, hprev]
    exact (h.wf _ w haw).ne_nil
  · rw [Nat.add_sub_cancel, hprev, hcur]
    exact hnext

/-- So the primaries of `RsmPrimary` are chosen over the views that `joinreq` and the
heartbeaters make. -/
theorem agreed_history {first : Str} (hfirst : IsWord first) {named : Str → Str}
    {acts : List Act} (hnames : ∀ a ∈ acts, NamesOk a)
    (hrun : Steps.run step (start first named) acts = some s) {views : List Str}
    (hviews : ∀ i v, views[i]? = some v → s.agreed (i + 1) = some v) :
    RsmPrimary.History (views.map members) :=
  (Steps.run_inv_forall inv_step (inv_start hfirst named) hnames hrun).history hviews

/-! ## A node joins and is removed -/

/-- Node 2 joins node 1 and then does not answer a heartbeat. -/
def joinsAndFails : List Act :=
  [.commit_change ['1'] 1, .joinreq ['1'] ['2'], .add ['1'] 0, .agree 0, .learn ['1'] 2,
    .paxos_commit ['1'] 2, .commit_change ['1'] 2, .heartbeat ['1'] ['2'], .remove ['1'],
    .agree 1, .learn ['1'] 3]

theorem view_chain_joinsAndFails :
    ∃ s, Steps.run step (start ['1'] fun _ => ['1']) joinsAndFails = some s
      ∧ s.agreed 2 = some ['1', ' ', '2', ' '] ∧ s.agreed 3 = some ['1', ' ']
      ∧ (members ['1', ' ']).Nodup
      ∧ ∃ p, set_primary (s.nodes ['1']).get_view ['2'] 3 = some p := by
  have hex : (Steps.run step (start ['1'] fun _ => ['1']) joinsAndFails).map
      (fun s => (s.agreed 2, s.agreed 3, (s.nodes ['1']).values 3, (s.nodes ['1']).values 2))
        = some (some ['1', ' ', '2', ' '], some ['1', ' '], some ['1', ' '],
            some ['1', ' ', '2', ' ']) := by decide
  have hnames : ∀ a ∈ joinsAndFails, NamesOk a := by decide
  obtain ⟨s, hs, hf⟩ := Steps.exists_run hex
  simp only [Prod.mk.injEq] at hf
  obtain ⟨h2, h3, hv3, hv2⟩ := hf
  obtain ⟨hwf, -, hset⟩ := view_chain (by decide) hnames hs
  exact ⟨s, hs, h2, h3, (hwf 3 _ h3).2, hset ['1'] 2 _ _ hv3 hv2 ['2']⟩

end Yfs.ViewChain
