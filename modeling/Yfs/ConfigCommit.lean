/-
From the acceptor up to the config module (`paxos.cc`, `config.cc`).

`commit_wo` stores the value of an instance, lets go of the acceptor's mutex and only
then calls `config::paxos_commit`, which takes the mutex of the config module. Other
threads may commit the next instance in between, so the upcalls that are due are a
list of their own, and any of them may be executed next. `paxos_commit` installs the
view it is given without looking at the number of the one it replaces.
-/
import Yfs.Views

set_option autoImplicit false

namespace Yfs.ConfigCommit

open Text Yfs.PaxosAcceptor Yfs.Views

/-! ## The config module -/

/-- The members of `config` that stand for the current view. -/
structure config where
  myvid : ℕ
  mems : List Str
  deriving DecidableEq, Repr

/-- The members before `reconstruct`. -/
def config.blank : config := ⟨0, []⟩

def reconstruct (acc : acceptor) (c : config) : config :=
  if acc.instance_h > 0 then ⟨acc.instance_h, get_view_wo acc acc.instance_h⟩ else c

/-- `paxos_commit` while it holds `cfg_mutex`. -/
def paxos_commit (c : config) (inst : ℕ) (value : Str) : config :=
  { c with mems := members value, myvid := inst }

/-! ## A node -/

/-- A thread between `commit_wo` and `paxos_commit`. -/
structure Upcall where
  inst : ℕ
  value : Str
  deriving DecidableEq, Repr

structure Node where
  acc : acceptor
  cfg : config
  pending : List Upcall

/-- `commit_wo` up to the upcall. -/
def commit_wo (nd : Node) (i : ℕ) (v : Str) : Node :=
  if i > nd.acc.instance_h then
    { nd with acc := PaxosAcceptor.commit_wo nd.acc i v, pending := nd.pending ++ [⟨i, v⟩] }
  else nd

/-- `decidereq` up to the upcall; `none`: a `VERIFY` fails. -/
def decidereq (nd : Node) (a : decidearg) : Option Node :=
  if a.inst = nd.acc.next then
    if nd.acc.v_a = a.v then some (commit_wo nd a.inst nd.acc.v_a) else none
  else if a.inst ≤ nd.acc.instance_h then some nd
  else none

/-- The constructor: the acceptor has read its log, and the view is taken from it. -/
def start (acc : acceptor) : Node := ⟨acc, reconstruct acc .blank, []⟩

inductive Act where
  | preparereq (a : preparearg)
  | acceptreq (a : acceptarg)
  | decidereq (a : decidearg)
  /-- The proposer commits a value it was told. -/
  | commit (i : ℕ) (v : Str)
  /-- One of the upcalls that are due. -/
  | upcall (k : ℕ)
  deriving DecidableEq, Repr

def step (nd : Node) : Act → Option Node
  | .preparereq a => some { nd with acc := (preparereq nd.acc a).2 }
  | .acceptreq a => some { nd with acc := (acceptreq nd.acc a).2 }
  | .decidereq a => decidereq nd a
  | .commit i v => some (commit_wo nd i v)
  | .upcall k => nd.pending[k]?.map fun u =>
    { nd with cfg := paxos_commit nd.cfg u.inst u.value, pending := nd.pending.eraseIdx k }

/-- Upcalls are executed in the order of their instances. -/
def InOrder (nd : Node) : Act → Prop
  | .upcall k => ∀ u ∈ nd.pending[k]?, ∀ w ∈ nd.pending, u.inst ≤ w.inst
  | _ => True

instance (nd : Node) (a : Act) : Decidable (InOrder nd a) :=
  match a with
  | .upcall k => inferInstanceAs (Decidable (∀ u ∈ nd.pending[k]?, ∀ w ∈ nd.pending, _))
  | .preparereq _ | .acceptreq _ | .decidereq _ | .commit .. => instDecidableTrue

/-! ## The view is one of the acceptor's values -/

/-- What holds whatever the order of the upcalls. -/
structure Known (nd : Node) : Prop where
  mems : nd.cfg.mems = members (nd.acc.value nd.cfg.myvid)
  le : nd.cfg.myvid ≤ nd.acc.instance_h
  calls : ∀ u ∈ nd.pending, u.inst ≤ nd.acc.instance_h ∧ nd.acc.values u.inst = some u.value
  sorted : nd.pending.Pairwise fun u w => u.inst < w.inst

/-- A step of the acceptor that commits nothing. -/
theorem Known.same {nd : Node} (h : Known nd) {acc : acceptor}
    (hi : acc.instance_h = nd.acc.instance_h) (hv : acc.values = nd.acc.values) :
    Known { nd with acc := acc } := by
  refine ⟨?_, hi ▸ h.le, ?_, h.sorted⟩
  · rw [h.mems, acceptor.value, acceptor.value, hv]
  · rw [hi, hv]
    exact h.calls

theorem Known.commit_wo {nd : Node} (h : Known nd) (i : ℕ) (v : Str) :
    Known (commit_wo nd i v) := by
  unfold ConfigCommit.commit_wo
  by_cases hgt : i > nd.acc.instance_h
  · rw [if_pos hgt, PaxosAcceptor.commit_wo, if_pos hgt]
    -- the values of the instances before stay
    have hold : ∀ j, j ≤ nd.acc.instance_h →
        Function.update nd.acc.values i (some v) j = nd.acc.values j := by
      intro j hj
      exact Function.update_of_ne (by omega) _ _
    refine ⟨?_, h.le.trans hgt.le, ?_, ?_⟩
    · rw [h.mems]
      simp only [acceptor.value, loginstance, hold _ h.le]
    · intro u hu
      rcases List.mem_append.mp hu with hu | hu
      · obtain ⟨hle, hval⟩ := h.calls u hu
        exact ⟨hle.trans hgt.le, (hold _ hle).trans hval⟩
      · rw [List.mem_singleton.mp hu]
        exact ⟨le_rfl, Function.update_self _ _ _⟩
    · rw [List.pairwise_append]
      refine ⟨h.sorted, List.pairwise_singleton _ _, fun u hu w hw => ?_⟩
      rw [List.mem_singleton.mp hw]
      exact (h.calls u hu).1.trans_lt hgt
  · rw [if_neg hgt]
    exact h

theorem Known.upcall {nd : Node} (h : Known nd) {k : ℕ} {u : Upcall}
    (hu : nd.pending[k]? = some u) :
    Known { nd with
      cfg := paxos_commit nd.cfg u.inst u.value
      pending := nd.pending.eraseIdx k } := by
  obtain ⟨hle, hval⟩ := h.calls u (List.mem_of_getElem? hu)
  refine ⟨?_, hle, fun w hw => h.calls w (List.mem_of_mem_eraseIdx hw), ?_⟩
  · simp only [paxos_commit, acceptor.value, hval, Option.getD_some]
  · exact h.sorted.sublist (List.eraseIdx_sublist _ _)

/-- What `decidereq` does when it returns. -/
theorem decidereq_cases {nd nd' : Node} {a : decidearg} (h : decidereq nd a = some nd') :
    nd' = nd ∨ nd' = commit_wo nd a.inst nd.acc.v_a := by
  unfold decidereq at h
  split at h
  · split at h
    · exact .inr (Option.some.inj h).symm
    · cases h
  · split at h
    · exact .inl (Option.some.inj h).symm
    · cases h

theorem known_start {acc : acceptor} (h0 : acc.instance_h = 0 → acc.value 0 = []) :
    Known (start acc) := by
  unfold start reconstruct
  by_cases hpos : acc.instance_h > 0
  · rw [if_pos hpos]
    exact ⟨rfl, le_rfl, nofun, .nil⟩
  · rw [if_neg hpos]
    refine ⟨?_, Nat.zero_le _, nofun, .nil⟩
    have hval : acc.value config.blank.myvid = [] := h0 (by omega)
    rw [hval]
    rfl

/-! ## Upcalls in order -/

/-- With the upcalls in order, those that are due are for later views, and the last one
of them is for the last instance. -/
structure Ordered (nd : Node) : Prop where
  known : Known nd
  later : ∀ u ∈ nd.pending, nd.cfg.myvid < u.inst
  last : nd.cfg.myvid = nd.acc.instance_h ∨ ∃ u ∈ nd.pending, u.inst = nd.acc.instance_h

theorem Ordered.same {nd : Node} (h : Ordered nd) {acc : acceptor}
    (hi : acc.instance_h = nd.acc.instance_h) (hv : acc.values = nd.acc.values) :
    Ordered { nd with acc := acc } := by
  refine ⟨h.known.same hi hv, h.later, ?_⟩
  rw [hi]
  exact h.last

theorem Ordered.commit_wo {nd : Node} (h : Ordered nd) (i : ℕ) (v : Str) :
    Ordered (commit_wo nd i v) := by
  refine ⟨h.known.commit_wo i v, ?_, ?_⟩
  all_goals
    unfold ConfigCommit.commit_wo
    by_cases hgt : i > nd.acc.instance_h
  · rw [if_pos hgt]
    intro u hu
    rcases List.mem_append.mp hu with hu | hu
    · exact h.later u hu
    · rw [List.mem_singleton.mp hu]
      exact h.known.le.trans_lt hgt
  · rw [if_neg hgt]
    exact h.later
  · rw [if_pos hgt, PaxosAcceptor.commit_wo, if_pos hgt]
    exact .inr ⟨⟨i, v⟩, List.mem_append_right _ (List.mem_singleton_self _), rfl⟩
  · rw [if_neg hgt]
    exact h.last

/-- The upcall that comes first leaves only later ones. -/
theorem later_of_eraseIdx {l : List Upcall} (hl : l.Pairwise fun u w => u.inst < w.inst) {k : ℕ}
    {u : Upcall} (hu : l[k]? = some u) (hfirst : ∀ w ∈ l, u.inst ≤ w.inst) {w : Upcall}
    (hw : w ∈ l.eraseIdx k) : u.inst < w.inst := by
  obtain ⟨hk, rfl⟩ := List.getElem?_eq_some_iff.mp hu
  obtain ⟨j, hj, hjk, rfl⟩ : ∃ j, ∃ hj : j < l.length, j ≠ k ∧ l[j] = w := by
    obtain ⟨j, hne, hj⟩ := List.mem_eraseIdx_iff_getElem?.mp hw
    obtain ⟨hlt, hval⟩ := List.getElem?_eq_some_iff.mp hj
    exact ⟨j, hlt, hne, hval⟩
  rcases Nat.lt_or_gt_of_ne hjk with hlt | hgt
  · have := List.pairwise_iff_getElem.mp hl j k hj hk hlt
    have := hfirst l[j] (List.getElem_mem hj)
    omega
  · exact List.pairwise_iff_getElem.mp hl k j hk hj hgt

theorem Ordered.upcall {nd : Node} (h : Ordered nd) {k : ℕ} {u : Upcall}
    (hu : nd.pending[k]? = some u) (hfirst : ∀ w ∈ nd.pending, u.inst ≤ w.inst) :
    Ordered { nd with
      cfg := paxos_commit nd.cfg u.inst u.value, pending := nd.pending.eraseIdx k } := by
  refine ⟨h.known.upcall hu, fun w hw => later_of_eraseIdx h.known.sorted hu hfirst hw, ?_⟩
  rcases h.last with heq | ⟨w, hw, hlast⟩
  · have := h.later u (List.mem_of_getElem? hu)
    have := (h.known.calls u (List.mem_of_getElem? hu)).1
    omega
  · -- the upcall of the last instance is this one, or it is still due
    by_cases hwu : w = u
    · exact .inl (hwu ▸ hlast)
    · refine .inr ⟨w, ?_, hlast⟩
      obtain ⟨j, hj⟩ := List.mem_iff_getElem?.mp hw
      refine List.mem_eraseIdx_iff_getElem?.mpr ⟨j, ?_, hj⟩
      rintro rfl
      exact hwu (Option.some.inj (hj.symm.trans hu))

/-- **One step** with the upcalls in order. -/
theorem ordered_step (nd : Node) (a : Act) (nd' : Node) (h : Ordered nd) (hok : InOrder nd a)
    (hs : step nd a = some nd') : Ordered nd' ∧ nd.cfg.myvid ≤ nd'.cfg.myvid := by
  have hcommit : ∀ i v, (commit_wo nd i v).cfg = nd.cfg := by
    intro i v
    unfold ConfigCommit.commit_wo
    split <;> rfl
  cases a with
  | preparereq a =>
    cases hs
    exact ⟨h.same (preparereq_values nd.acc a).1 (preparereq_values nd.acc a).2, le_rfl⟩
  | acceptreq a =>
    cases hs
    exact ⟨h.same (acceptreq_values nd.acc a).1 (acceptreq_values nd.acc a).2, le_rfl⟩
  | decidereq a =>
    rcases decidereq_cases hs with rfl | rfl
    · exact ⟨h, le_rfl⟩
    · exact ⟨h.commit_wo _ _, (hcommit _ _).symm ▸ le_rfl⟩
  | commit i v =>
    cases hs
    exact ⟨h.commit_wo i v, (hcommit i v).symm ▸ le_rfl⟩
  | upcall k =>
    obtain ⟨u, hu, rfl⟩ := Option.map_eq_some_iff.mp hs
    exact ⟨h.upcall hu (hok u hu), (h.later u (List.mem_of_getElem? hu)).le⟩

theorem ordered_start {acc : acceptor} (h0 : acc.instance_h = 0 → acc.value 0 = []) :
    Ordered (start acc) := by
  refine ⟨known_start h0, nofun, .inl ?_⟩
  unfold start reconstruct
  by_cases hpos : acc.instance_h > 0
  · rw [if_pos hpos]
  · rw [if_neg hpos]
    have hzero : acc.instance_h = 0 := by omega
    exact hzero.symm

/-- Along a run the view number does not go down. -/
theorem myvid_mono {nd nd' : Node} {acts : List Act} (h : Ordered nd)
    (hok : Steps.RunMeets step InOrder nd acts) (hrun : Steps.run step nd acts = some nd') :
    nd.cfg.myvid ≤ nd'.cfg.myvid := by
  have hboth : Ordered nd' ∧ nd.cfg.myvid ≤ nd'.cfg.myvid := by
    refine Steps.run_inv (P := fun t => Ordered t ∧ nd.cfg.myvid ≤ t.cfg.myvid) ?_ ⟨h, le_rfl⟩
      hok hrun
    rintro t a t' ⟨ht, hle⟩ hta hs
    obtain ⟨ht', hle'⟩ := ordered_step t a t' ht hta hs
    exact ⟨ht', hle.trans hle'⟩
  exact hboth.2

/-- **The view number across the layers.** In every run whose upcalls are executed in the
order of their instances, and between any two points of it: `myvid` does not decrease,
`mems` is the view of `myvid`, and when no upcall is due `myvid` is the last instance
committed. -/
theorem view_number_monotone {acc : acceptor} (h0 : acc.instance_h = 0 → acc.value 0 = [])
    {before after : List Act} {nd nd' : Node}
    (hok : Steps.RunMeets step InOrder (start acc) (before ++ after))
    (hbefore : Steps.run step (start acc) before = some nd)
    (hafter : Steps.run step nd after = some nd') :
    nd.cfg.myvid ≤ nd'.cfg.myvid
      ∧ nd'.cfg.mems = members (nd'.acc.value nd'.cfg.myvid)
      ∧ (nd'.pending = [] → nd'.cfg.myvid = nd'.acc.instance_h) := by
  obtain ⟨hok, hok'⟩ := Steps.runMeets_append hok hbefore
  have hstep : ∀ t a t', Ordered t → InOrder t a → step t a = some t' → Ordered t' :=
    fun t a t' ht hta hs => (ordered_step t a t' ht hta hs).1
  have h : Ordered nd := Steps.run_inv hstep (ordered_start h0) hok hbefore
  have h' : Ordered nd' := Steps.run_inv hstep h hok' hafter
  refine ⟨myvid_mono h hok' hafter, h'.known.mems, fun hnone => ?_⟩
  rcases h'.last with heq | ⟨u, hu, -⟩
  · exact heq
  · rw [hnone] at hu
    cases hu

/-! ## Two instances, and their upcalls in both orders -/

def firstView : Str := ['1', ' ']
def secondView : Str := ['1', ' ', '2', ' ']

/-- Instance `i` is promised, accepted and decided with `v`. -/
def decided (i : ℕ) (v : Str) : List Act :=
  [.preparereq ⟨i, ⟨1, ['1']⟩⟩, .acceptreq ⟨i, ⟨1, ['1']⟩, v⟩, .decidereq ⟨i, v⟩]

/-- Two instances are decided before the upcall of the first is executed. -/
def twoDecided : List Act := decided 1 firstView ++ decided 2 secondView

theorem view_number_monotone_twoDecided :
    ∃ nd nd', Steps.run step (start (.blank ['1'] [])) (twoDecided ++ [.upcall 0]) = some nd
      ∧ Steps.run step nd [.upcall 0] = some nd'
      ∧ nd.cfg.myvid = 1 ∧ nd.acc.instance_h = 2 ∧ nd'.pending = []
      ∧ nd'.cfg.myvid = nd'.acc.instance_h := by
  have hex : ((Steps.run step (start (.blank ['1'] [])) (twoDecided ++ [.upcall 0])).bind fun nd =>
      (Steps.run step nd [.upcall 0]).map fun nd' =>
        (nd.cfg.myvid, nd.acc.instance_h, nd'.pending)) = some (1, 2, []) := by decide
  have hok : Steps.RunMeets step InOrder (start (.blank ['1'] []))
      (twoDecided ++ [.upcall 0] ++ [.upcall 0]) := by decide
  obtain ⟨nd, nd', hrun, hrun', hf⟩ := Steps.exists_run_run hex
  simp only [Prod.mk.injEq] at hf
  exact ⟨nd, nd', hrun, hrun', hf.1, hf.2.1, hf.2.2,
    (view_number_monotone (fun _ => rfl) hok hrun hrun').2.2 hf.2.2⟩

/-- **The view number can go down**: the upcall of instance 2 overtakes that of instance 1,
which then installs view 1 over view 2 and leaves it there. -/
theorem view_number_decreases :
    ∃ nd nd', Steps.run step (start (.blank ['1'] [])) (twoDecided ++ [.upcall 1]) = some nd
      ∧ step nd (.upcall 0) = some nd'
      ∧ nd.cfg = ⟨2, [['1'], ['2']]⟩ ∧ nd'.cfg = ⟨1, [['1']]⟩
      ∧ nd'.pending = [] ∧ nd'.acc.instance_h = 2 := by
  have hex : ((Steps.run step (start (.blank ['1'] [])) (twoDecided ++ [.upcall 1])).bind fun nd =>
      (step nd (.upcall 0)).map fun nd' =>
        (nd.cfg, nd'.cfg, nd'.pending, nd'.acc.instance_h))
      = some (⟨2, [['1'], ['2']]⟩, ⟨1, [['1']]⟩, [], 2) := by decide
  obtain ⟨nd, nd', hrun, hs, hf⟩ := Steps.exists_run_step hex
  simp only [Prod.mk.injEq] at hf
  exact ⟨nd, nd', hrun, hs, hf⟩

end Yfs.ConfigCommit
