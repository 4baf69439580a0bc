/-
The recovery thread of the replicated state machine (`rsm.cc`).

The thread holds `rsm_mutex` except in three places: while it waits for the answer to
`joinreq`, while it sleeps after a failed attempt, and while `sync_with_backups` waits
for the requests that are being executed. New views are committed there, by threads that
come up from Paxos, and again while it waits on `recovery_cond`. Below, the thread is
cut at these places and at the calls of the config module, which other threads use in
between: the acceptor and the config module are those of `ConfigCommit`, with all their
steps.
-/
import Yfs.Rsm
import Yfs.ConfigCommit

set_option autoImplicit false

namespace Yfs.RsmRecovery

open Text Yfs.PaxosAcceptor Yfs.PaxosProposer Yfs.Views Yfs.Rsm Yfs.ConfigCommit

/-! ## A node -/

/-- Where the recovery thread is. -/
inductive Pc where
  /-- Before it has `rsm_mutex` for the first time. -/
  | begun
  /-- At the test of the inner loop, with the mutex. -/
  | loop
  /-- In `join`, waiting for the node that was the primary. -/
  | joining (m : Str)
  /-- After `join` has returned true, with the mutex. -/
  | joined
  | sleeping
  /-- In `sync_with_backups`, without the mutex. -/
  | syncing
  /-- In `pthread_cond_wait`, and whether a signal has reached it. -/
  | waiting (signalled : Bool)
  deriving DecidableEq, Repr

/-- The thread holds `rsm_mutex`. -/
def Pc.locked : Pc → Bool
  | .loop | .joined => true
  | _ => false

/-- `pthread_cond_signal` is lost on a thread that does not wait. -/
def Pc.signal : Pc → Pc
  | .waiting _ => .waiting true
  | pc => pc

structure Node where
  /-- The acceptor and the config module. -/
  base : ConfigCommit.Node
  rsm : rsm
  pc : Pc

def Node.get_view (nd : Node) (vid : ℕ) : List Str := get_view_wo nd.base.acc vid

/-- A node that has read its log; `first` is the first name on its command line. -/
def start (first : Str) (acc : acceptor) : Node := ⟨ConfigCommit.start acc, rsm.new first, .begun⟩

/-! ## The recovery thread -/

/-- `recovery` after the synchronisation. -/
def after_sync (nd : Node) : Node :=
  if nd.rsm.vid_insync ≠ nd.rsm.vid_commit then { nd with pc := .loop }
  else
    { nd with
      rsm := { nd.rsm with myvs := ⟨nd.rsm.vid_commit, 1⟩, inviewchange := false }
      pc := .waiting false }

/-- `recovery` from the test of the inner loop to the next place without the mutex. -/
def recovery (me : Str) (nd : Node) : Node :=
  if isamember me (nd.get_view nd.rsm.vid_commit) then
    let nd := { nd with rsm := { nd.rsm with vid_insync := nd.rsm.vid_commit } }
    -- `sync_with_primary` returns true at once
    if nd.rsm.primary = me then { nd with pc := .syncing } else after_sync nd
  else { nd with pc := .joining nd.rsm.primary }

/-- `config::restore`. -/
def restore (nd : ConfigCommit.Node) (log : Str) : Option ConfigCommit.Node :=
  (PaxosAcceptor.restore nd.acc log).map fun acc =>
    { nd with acc := acc, cfg := reconstruct acc nd.cfg }

def amiprimary (me : Str) (r : rsm) : Bool := r.primary == me && !r.inviewchange

inductive Act where
  /-- Any step of the acceptor or of the config module. -/
  | config (a : ConfigCommit.Act)
  /-- Some thread calls `commit_change`. -/
  | commit_change (vid : ℕ)
  /-- The recovery thread gets the mutex: for the first time, after the sleep, or after
  `pthread_cond_wait`, which may also return without a signal. -/
  | lock
  | recovery
  /-- `join` gets a log. -/
  | joined (log : Str)
  | notJoined
  /-- `commit_change_wo(cfg->vid())` after `join`. -/
  | catch_up
  /-- The second half of `sync_with_backups`. -/
  | synced
  deriving DecidableEq, Repr

def step (me : Str) (nd : Node) : Act → Option Node
  | .config a => (ConfigCommit.step nd.base a).map fun base => { nd with base := base }
  | .commit_change vid =>
    if nd.pc.locked then none
    else (commit_change_wo nd.get_view nd.rsm vid).map fun r =>
      { nd with rsm := r.1, pc := if r.2 then nd.pc.signal else nd.pc }
  | .lock =>
    match nd.pc with
    | .begun | .sleeping | .waiting _ => some { nd with pc := .loop }
    | _ => none
  | .recovery => if nd.pc = .loop then some (RsmRecovery.recovery me nd) else none
  | .joined log =>
    match nd.pc with
    | .joining _ => (restore nd.base log).map fun base => { nd with base := base, pc := .joined }
    | _ => none
  | .notJoined =>
    match nd.pc with
    | .joining _ => some { nd with pc := .sleeping }
    | _ => none
  | .catch_up =>
    if nd.pc = .joined then
      (commit_change_wo nd.get_view nd.rsm nd.base.cfg.myvid).map fun r =>
        { nd with rsm := r.1, pc := .loop }
    else none
  | .synced =>
    if nd.pc = .syncing then some (after_sync { nd with rsm := { nd.rsm with insync := false } })
    else none

/-- The value of the view that was committed last is the same after the step. -/
def ViewStays (me : Str) (nd : Node) (a : Act) : Prop :=
  ∀ nd' ∈ step me nd a, ∀ v ∈ nd.base.acc.values nd.rsm.vid_commit,
    nd'.base.acc.values nd.rsm.vid_commit = some v

instance (me : Str) (nd : Node) (a : Act) : Decidable (ViewStays me nd a) :=
  inferInstanceAs (Decidable (∀ nd' ∈ step me nd a, ∀ v ∈ nd.base.acc.values nd.rsm.vid_commit,
    nd'.base.acc.values nd.rsm.vid_commit = some v))

/-! ## What the thread knows -/

structure Inv (me : Str) (nd : Node) : Prop where
  stable : nd.rsm.inviewchange = false →
    nd.rsm.myvs.vid = nd.rsm.vid_commit ∧ me ∈ nd.get_view nd.rsm.vid_commit
  /-- The node is in the view it synchronises for, unless there is a later one. -/
  insync : nd.pc = .syncing →
    nd.rsm.vid_insync < nd.rsm.vid_commit
      ∨ nd.rsm.vid_insync = nd.rsm.vid_commit ∧ me ∈ nd.get_view nd.rsm.vid_commit
  asleep : nd.pc = .waiting false → nd.rsm.inviewchange = false

theorem inv_start (me first : Str) (acc : acceptor) : Inv me (start first acc) :=
  ⟨nofun, nofun, nofun⟩

variable {me : Str}

/-- A member of a view is one as long as the value of the view is the same. -/
theorem get_view_mem {nd nd' : Node} {vid : ℕ}
    (hstays : ∀ v ∈ nd.base.acc.values vid, nd'.base.acc.values vid = some v)
    (hmem : me ∈ nd.get_view vid) : me ∈ nd'.get_view vid := by
  unfold Node.get_view get_view_wo acceptor.value at hmem ⊢
  cases hv : nd.base.acc.values vid with
  | none =>
    rw [hv] at hmem
    cases hmem
  | some v =>
    rw [hstays v hv]
    rwa [hv] at hmem

variable {nd : Node}

/-- A step of the layers below. -/
theorem Inv.below (h : Inv me nd) {base : ConfigCommit.Node}
    (hstays : ∀ v ∈ nd.base.acc.values nd.rsm.vid_commit,
      base.acc.values nd.rsm.vid_commit = some v) : Inv me { nd with base := base } where
  stable hin := ⟨(h.stable hin).1, get_view_mem hstays (h.stable hin).2⟩
  insync hpc := (h.insync hpc).imp_right fun hin => ⟨hin.1, get_view_mem hstays hin.2⟩
  asleep := h.asleep

/-- The recovery thread goes on to a place where it neither synchronises nor waits. -/
theorem Inv.goto (h : Inv me nd) {pc : Pc} (hsync : pc ≠ .syncing)
    (hwait : pc ≠ .waiting false) : Inv me { nd with pc := pc } :=
  ⟨h.stable, fun hpc => absurd hpc hsync, fun hpc => absurd hpc hwait⟩

theorem Pc.signal_ne (pc : Pc) : pc.signal ≠ .waiting false := by
  cases pc <;> nofun

theorem Pc.signal_syncing {pc : Pc} (h : pc.signal = .syncing) : pc = .syncing := by
  cases pc <;> first | rfl | cases h

/-- **A committed view** starts a view change, and a thread that waits is signalled. -/
theorem Inv.commit_change (h : Inv me nd) {vid : ℕ} {r : rsm} {b : Bool}
    (hr : commit_change_wo nd.get_view nd.rsm vid = some (r, b)) :
    Inv me { nd with rsm := r, pc := if b then nd.pc.signal else nd.pc } := by
  rcases commit_change_wo_cases hr with ⟨rfl, rfl⟩ | ⟨hlt, rfl, q, -, rfl⟩
  · exact h
  · refine ⟨nofun, fun hpc => .inl ?_, fun hpc => absurd hpc nd.pc.signal_ne⟩
    -- the synchronisation was for this view's predecessor or an older view
    rcases h.insync (Pc.signal_syncing hpc) with hless | ⟨heq, -⟩
    · exact hless.trans hlt
    · exact heq ▸ hlt

/-- The end of a synchronisation. -/
theorem inv_after_sync (h : Inv me nd)
    (hin : nd.rsm.vid_insync = nd.rsm.vid_commit → me ∈ nd.get_view nd.rsm.vid_commit) :
    Inv me (after_sync nd) := by
  unfold after_sync
  split
  · exact h.goto nofun nofun
  · next heq =>
    have hmem := hin (not_not.mp heq)
    exact ⟨fun _ => ⟨rfl, hmem⟩, nofun, fun _ => rfl⟩

theorem after_sync_vid_commit (nd : Node) :
    (after_sync nd).rsm.vid_commit = nd.rsm.vid_commit := by
  unfold after_sync
  split <;> rfl

theorem recovery_vid_commit (me : Str) (nd : Node) :
    (recovery me nd).rsm.vid_commit = nd.rsm.vid_commit := by
  unfold recovery
  split
  · dsimp only
    split
    · rfl
    · exact after_sync_vid_commit _
  · rfl

theorem inv_recovery (h : Inv me nd) (hpc : nd.pc = .loop) : Inv me (recovery me nd) := by
  unfold recovery
  split
  · next hmem =>
    have hmem := isamember_iff.mp hmem
    have hset : Inv me { nd with rsm := { nd.rsm with vid_insync := nd.rsm.vid_commit } } := by
      refine ⟨h.stable, fun hpc' => ?_, h.asleep⟩
      cases hpc.symm.trans hpc'
    dsimp only
    split
    · exact ⟨h.stable, fun _ => .inr ⟨rfl, hmem⟩, nofun⟩
    · exact inv_after_sync hset fun _ => hmem
  · exact h.goto nofun nofun

theorem Inv.synced (h : Inv me nd) (hpc : nd.pc = .syncing) :
    Inv me (after_sync { nd with rsm := { nd.rsm with insync := false } }) := by
  have hset : Inv me { nd with rsm := { nd.rsm with insync := false } } :=
    ⟨h.stable, h.insync, h.asleep⟩
  refine inv_after_sync hset fun heq => ?_
  rcases h.insync hpc with hless | ⟨-, hmem⟩
  · exact absurd heq hless.ne
  · exact hmem

/-- **One step.** The layer forgets no view. -/
theorem inv_step (nd : Node) (a : Act) (nd' : Node) (h : Inv me nd)
    (hok : ViewStays me nd a) (hs : step me nd a = some nd') :
    Inv me nd' ∧ nd.rsm.vid_commit ≤ nd'.rsm.vid_commit := by
  have hstays := hok nd' hs
  cases a with
  | config a =>
    obtain ⟨base, -, rfl⟩ := Option.map_eq_some_iff.mp hs
    exact ⟨h.below hstays, le_rfl⟩
  | commit_change vid =>
    simp only [step] at hs
    split at hs
    · cases hs
    · obtain ⟨⟨r, b⟩, hr, rfl⟩ := Option.map_eq_some_iff.mp hs
      exact ⟨h.commit_change hr, commit_change_wo_mono hr⟩
  | lock =>
    simp only [step] at hs
    split at hs
    case h_4 => cases hs
    all_goals
      cases hs
      exact ⟨h.goto nofun nofun, le_rfl⟩
  | recovery =>
    simp only [step] at hs
    split at hs
    · next hpc =>
      cases hs
      exact ⟨inv_recovery h hpc, (recovery_vid_commit me nd).ge⟩
    · cases hs
  | joined log =>
    simp only [step] at hs
    split at hs
    · obtain ⟨base, -, rfl⟩ := Option.map_eq_some_iff.mp hs
      exact ⟨(h.below hstays).goto nofun nofun, le_rfl⟩
    · cases hs
  | notJoined =>
    simp only [step] at hs
    split at hs
    · cases hs
      exact ⟨h.goto nofun nofun, le_rfl⟩
    · cases hs
  | catch_up =>
    simp only [step] at hs
    split at hs
    · obtain ⟨⟨r, b⟩, hr, rfl⟩ := Option.map_eq_some_iff.mp hs
      exact ⟨(h.commit_change hr).goto nofun nofun, commit_change_wo_mono hr⟩
    · cases hs
  | synced =>
    simp only [step] at hs
    split at hs
    · next hpc =>
      cases hs
      refine ⟨h.synced hpc, ?_⟩
      rw [after_sync_vid_commit]
    · cases hs

/-! ## Whole runs -/

theorem inv_run {nd nd' : Node} {acts : List Act} (h : Inv me nd)
    (hok : Steps.RunMeets (step me) (ViewStays me) nd acts)
    (hrun : Steps.run (step me) nd acts = some nd') :
    Inv me nd' ∧ nd.rsm.vid_commit ≤ nd'.rsm.vid_commit := by
  refine Steps.run_inv (P := fun t => Inv me t ∧ nd.rsm.vid_commit ≤ t.rsm.vid_commit) ?_
    ⟨h, le_rfl⟩ hok hrun
  intro t a t' ht hta hs
  obtain ⟨ht', hle⟩ := inv_step t a t' ht.1 hta hs
  exact ⟨ht', ht.2.trans hle⟩

/-- A node that acts as the primary does so for the last view it knows of, and is in it. -/
theorem Inv.amiprimary (h : Inv me nd) (hme : amiprimary me nd.rsm = true) :
    nd.rsm.primary = me ∧ nd.rsm.myvs.vid = nd.rsm.vid_commit
      ∧ nd.rsm.primary ∈ nd.get_view nd.rsm.vid_commit := by
  simp only [RsmRecovery.amiprimary, Bool.and_eq_true, beq_iff_eq, Bool.not_eq_true'] at hme
  obtain ⟨hvid, hmem⟩ := h.stable hme.2
  exact ⟨hme.1, hvid, hme.1.symm ▸ hmem⟩

/-- **The view changes of a node.** In every run in which the value of the last committed
view stays, and between any two points of it: `vid_commit` does not decrease; outside a
view change the node's view stamp is of the last committed view, and the node is in that
view; a recovery thread that sleeps with no signal on its way has left no view change
behind. -/
theorem view_changes {me first : Str} {acc : acceptor} {before after : List Act} {nd nd' : Node}
    (hok : Steps.RunMeets (step me) (ViewStays me) (start first acc) (before ++ after))
    (hbefore : Steps.run (step me) (start first acc) before = some nd)
    (hafter : Steps.run (step me) nd after = some nd') :
    nd.rsm.vid_commit ≤ nd'.rsm.vid_commit
      ∧ (nd'.rsm.inviewchange = false →
          nd'.rsm.myvs.vid = nd'.rsm.vid_commit ∧ me ∈ nd'.get_view nd'.rsm.vid_commit)
      ∧ (nd'.pc = .waiting false → nd'.rsm.inviewchange = false) := by
  obtain ⟨hok, hok'⟩ := Steps.runMeets_append hok hbefore
  obtain ⟨h, -⟩ := inv_run (inv_start me first acc) hok hbefore
  obtain ⟨h', hle⟩ := inv_run h hok' hafter
  exact ⟨hle, h'.stable, h'.asleep⟩

/-- The log of node 1 after node 2 was added: views 1 and 2. -/
def joinLog : Str := "done 1 1\ndone 2 1 2 \n".toList

/-- Node 2 joins through node 1 and sleeps in view 2. -/
def joins : List Act :=
  [.lock, .recovery, .notJoined, .lock, .recovery, .joined joinLog, .catch_up, .recovery]

/-- Node 1 leaves. Node 2 is the primary of view 3; while it synchronises node 3 is added,
and the synchronisation is repeated for view 4. -/
def takesOver : List Act :=
  [.config (.commit 3 ['2', ' ']), .config (.upcall 0), .commit_change 3, .lock, .recovery,
    .config (.commit 4 ['2', ' ', '3', ' ']), .config (.upcall 0), .commit_change 4, .synced,
    .recovery, .synced]

theorem view_changes_takesOver :
    ∃ nd nd', Steps.run (step ['2']) (start ['1'] (.blank ['2'] [])) joins = some nd
      ∧ Steps.run (step ['2']) nd takesOver = some nd'
      ∧ nd.rsm.vid_commit = 2 ∧ nd'.rsm.vid_commit = 4 ∧ nd'.pc = .waiting false
      ∧ nd'.rsm.myvs.vid = 4 ∧ ['2'] ∈ nd'.get_view 4 := by
  have hex : ((Steps.run (step ['2']) (start ['1'] (.blank ['2'] [])) joins).bind fun nd =>
      (Steps.run (step ['2']) nd takesOver).map fun nd' =>
        (nd.rsm.vid_commit, nd'.rsm.vid_commit, nd'.pc)) = some (2, 4, .waiting false) := by
    decide
  have hok : Steps.RunMeets (step ['2']) (ViewStays ['2']) (start ['1'] (.blank ['2'] []))
      (joins ++ takesOver) := by decide
  obtain ⟨nd, nd', hrun, hrun', hf⟩ := Steps.exists_run_run hex
  simp only [Prod.mk.injEq] at hf
  obtain ⟨h2, h4, hpc⟩ := hf
  obtain ⟨-, hstable, hasleep⟩ := view_changes hok hrun hrun'
  obtain ⟨hvid, hmem⟩ := hstable (hasleep hpc)
  rw [h4] at hvid hmem
  exact ⟨nd, nd', hrun, hrun', h2, h4, hpc, hvid, hmem⟩

end Yfs.RsmRecovery
